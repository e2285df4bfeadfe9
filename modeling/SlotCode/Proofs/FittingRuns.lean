/-
  SlotCode.Proofs.FittingRuns — lowered code never asks for what is not there.

  A program that fits its environment reads and writes only registers that it counts, and
  refers only to texts, call sites, classes, functions and static fields that exist. So a
  machine with enough registers keeps enough, no step of it looks anything up in vain, and
  an instruction is invalid only where it meets data whose kind nobody has checked: the
  elements of arrays, the fields of instances and static fields.

  Proved: one instruction (`answers_effect`), one step (`Program.Fits.step`), a run
  (`Program.Fits.advance`), and that lowering a function of well-typed nodes gives such a
  program (`compile_fits`).
-/

import SlotCode.Proofs.Ascent
import SlotCode.Proofs.CallSetup
import SlotCode.Proofs.MachineSteps
import SlotCode.Proofs.OwnedSlots
import SlotCode.Proofs.Realization
import SlotCode.Proofs.SealedCode
import SlotCode.Proofs.TypedWalk

namespace SlotCode

open SlotCode.Arith

/-! ## Registers and classes that are there -/

namespace Registers

variable {r : Registers} {s : Slot}

theorem get_ok {x : TypedSlot} (h : r.has x = true) : ∃ v, r.get x = .ok v ∧ v.kind = x.kind := by
  obtain ⟨v, hv⟩ := Option.isSome_iff_exists.1 h
  exact ⟨v, get_of_get? hv, kind_of_get? hv⟩

theorem int_ok (h : r.has ⟨.int, s⟩ = true) : ∃ a, r.int s = .ok a := by
  obtain ⟨v, hv⟩ := Option.isSome_iff_exists.1 h
  exact (int_of_get? hv).imp fun _ ha => ha.2

theorem long_ok (h : r.has ⟨.long, s⟩ = true) : ∃ a, r.long s = .ok a := by
  obtain ⟨v, hv⟩ := Option.isSome_iff_exists.1 h
  exact (long_of_get? hv).imp fun _ ha => ha.2

theorem float_ok (h : r.has ⟨.float, s⟩ = true) : ∃ a, r.float s = .ok a := by
  obtain ⟨v, hv⟩ := Option.isSome_iff_exists.1 h
  exact (float_of_get? hv).imp fun _ ha => ha.2

theorem double_ok (h : r.has ⟨.double, s⟩ = true) : ∃ a, r.double s = .ok a := by
  obtain ⟨v, hv⟩ := Option.isSome_iff_exists.1 h
  exact (double_of_get? hv).imp fun _ ha => ha.2

theorem ref_ok (h : r.has ⟨.object, s⟩ = true) : ∃ a, r.ref s = .ok a := by
  obtain ⟨v, hv⟩ := Option.isSome_iff_exists.1 h
  exact (ref_of_get? hv).imp fun _ ha => ha.2

end Registers

namespace ClassTable

variable {t : ClassTable}

/-- Texts have a class, and every superclass exists. -/
structure Closed (t : ClassTable) : Prop where
  text : textClass < t.size
  superclass : ∀ (i : Nat) (c : ClassInfo), t[i]? = some c → ∀ s, c.superclass = some s → s < t.size

/-- The way up from a class stays among the classes. -/
theorem Closed.passes (h : t.Closed) {place last : Option ClassId} {ids : List ClassId} (hup : t.Passes place ids last)
    (hplace : ∀ id : Nat, place = some id → id < t.size) : ∀ id : Nat, last = some id → id < t.size := by
  induction hup with
  | here => exact hplace
  | up hc _ ih => exact ih fun s hs => h.superclass _ _ hc s hs

/-- A search that finds nothing where a class should be has gone round. -/
theorem Closed.isSubclass (h : t.Closed) {id : Nat} (hid : id < t.size) {ancestor : ClassId} {what : Missing}
    (he : t.isSubclass id ancestor = .error what) : ∃ x, what = .root x ∧ t.Endless x := by
  obtain ⟨ids, next, hup, hout | hround⟩ := isSubclass_error he
  · have hlt : next < t.size := by
      refine h.passes hup ?_ next rfl
      rintro _ ⟨⟩
      exact hid
    rw [Array.getElem?_eq_getElem hlt] at hout
    cases hout.2
  · exact ⟨next, hround⟩

/-- Every instance on the heap is of a class of the table. -/
def Knows (t : ClassTable) (h : Heap) : Prop := ∀ r classId fields, h.get r = .record classId fields → classId < t.size

theorem Closed.isInstance (h : t.Closed) {heap : Heap} (hheap : t.Knows heap) (r : Ref) (id : ClassId)
    {what : Missing} (he : t.isInstance (heap.get r) id = .error what) : ∃ x, what = .root x ∧ t.Endless x := by
  unfold ClassTable.isInstance at he
  split at he
  · exact h.isSubclass h.text he
  · cases he
  · rename_i hr
    exact h.isSubclass (hheap r _ _ hr) he

theorem classInfo_ok {id : ClassId} (h : id < t.size) : ∃ c, t.classInfo id = .ok c := by
  unfold classInfo
  rw [Array.getElem?_eq_getElem h]
  exact ⟨_, rfl⟩

end ClassTable

/-! ## One instruction -/

/-- Whether the instruction meets values whose kind only the heap and the static fields know. -/
def Instruction.meetsData : Instruction → Bool
  | .arrayGet .. | .arraySet .. | .getField .. | .getStatic .. => true
  | _ => false

/-- The errors that an instruction which fits may still end with. A search for a class may go round. -/
def Instruction.MayFail (t : ClassTable) (i : Instruction) : RuntimeError → Prop
  | .missing what => ∃ x, what = .root x ∧ t.Endless x
  | .invalidInstruction _ => i.meetsData = true
  | _ => True

/-- The effect writes a register that is there, with a value of its kind unless that came from data. -/
def Effect.Fits (t : Tables) (i : Instruction) : Effect → Prop
  | .write x v => t.has x ∧ (v.kind = x.kind ∨ i.meetsData = true)
  | .invoke _ _ _ result => ∀ x, result = some x → t.has x
  | _ => True

section

variable {im : Image} {m : Machine} {t : Tables} {i : Instruction}

/-- An instruction that fits asks for nothing that is not there. -/
theorem answers_effect (hi : i.Fits im.env t) (hregs : ∀ x, t.has x → m.registers.has x = true)
    (htexts : t.texts = im.texts.size) (hsites : t.sites = im.program.sites.size)
    (hsite : ∀ (n : Nat) site, im.program.sites[n]? = some site → site.Fits im.env t)
    (hclosed : im.env.classes.Closed) (hheap : im.env.classes.Knows m.world.heap) :
    Answers (im.effect m i) (Effect.Fits t i) (i.MayFail im.env.classes) := by
  have hread : ∀ x ∈ i.reads, m.registers.has x = true := fun x hx => hregs x (hi.reads x hx)
  have hwrite : ∀ x, i.writes = some x → t.has x := hi.writes
  have hrefers := hi.refers
  cases i with
  | const r value => exact ⟨hwrite _ rfl, .inl (Value.kind_ofScalar value)⟩
  | text r index =>
    refine .expectSome (fun hnone => ?_) fun ref _ => ⟨hwrite _ rfl, .inl rfl⟩
    exact absurd (Array.getElem?_eq_none_iff.1 hnone) (Nat.not_le.2 (htexts ▸ hrefers))
  | null r => exact ⟨hwrite _ rfl, .inl rfl⟩
  | move kind r a =>
    obtain ⟨v, hv, hkind⟩ := Registers.get_ok (hread ⟨kind, a⟩ List.mem_cons_self)
    refine .found ⟨v, hv⟩ fun w hw => ⟨hwrite _ rfl, .inl ?_⟩
    cases hv.symm.trans hw
    exact hkind
  | arith w op r a b =>
    cases w with
    | int =>
      refine .found (Registers.int_ok (hread _ List.mem_cons_self)) fun x _ => ?_
      refine .found (Registers.int_ok (hread _ (List.mem_cons_of_mem _ List.mem_cons_self))) fun y _ => ?_
      split
      · exact ⟨hwrite _ rfl, .inl rfl⟩
      · exact trivial
    | long =>
      have hfirst := Registers.long_ok (hread ⟨.long, a⟩ List.mem_cons_self)
      have hsecond := hread ⟨if op.isShift then .int else .long, b⟩ (List.mem_cons_of_mem _ List.mem_cons_self)
      have divided : ∀ distance, Answers (m.onLong op r a distance) (Effect.Fits t (.arith .long op r a b))
          (Instruction.MayFail im.env.classes (.arith .long op r a b)) := by
        refine fun distance => .found hfirst fun x _ => ?_
        split
        · exact ⟨hwrite _ rfl, .inl rfl⟩
        · exact trivial
      unfold Image.effect
      dsimp only
      split
      · rename_i hshift
        rw [if_pos hshift] at hsecond
        obtain ⟨y, hy⟩ := Registers.int_ok hsecond
        rw [hy]
        exact divided _
      · rename_i hshift
        rw [if_neg hshift] at hsecond
        exact .found (Registers.long_ok hsecond) fun y _ => divided y
  | real p op r a b =>
    have hfirst := hread _ List.mem_cons_self
    have hsecond := hread _ (List.mem_cons_of_mem _ List.mem_cons_self)
    cases p with
    | float =>
      exact .found (Registers.float_ok hfirst) fun x _ => .found (Registers.float_ok hsecond) fun y _ =>
        ⟨hwrite _ rfl, .inl rfl⟩
    | double =>
      exact .found (Registers.double_ok hfirst) fun x _ => .found (Registers.double_ok hsecond) fun y _ =>
        ⟨hwrite _ rfl, .inl rfl⟩
  | neg kind r a =>
    have hfirst := hread _ List.mem_cons_self
    cases kind with
    | int => exact .found (Registers.int_ok hfirst) fun x _ => ⟨hwrite _ rfl, .inl rfl⟩
    | long => exact .found (Registers.long_ok hfirst) fun x _ => ⟨hwrite _ rfl, .inl rfl⟩
    | float => exact .found (Registers.float_ok hfirst) fun x _ => ⟨hwrite _ rfl, .inl rfl⟩
    | double => exact .found (Registers.double_ok hfirst) fun x _ => ⟨hwrite _ rfl, .inl rfl⟩
    | object => exact absurd rfl hrefers
  | inv kind r a =>
    have hfirst := hread _ List.mem_cons_self
    rcases hrefers with rfl | rfl
    · exact .found (Registers.int_ok hfirst) fun x _ => ⟨hwrite _ rfl, .inl rfl⟩
    · exact .found (Registers.long_ok hfirst) fun x _ => ⟨hwrite _ rfl, .inl rfl⟩
  | not r a => exact .found (Registers.int_ok (hread _ List.mem_cons_self)) fun x _ => ⟨hwrite _ rfl, .inl rfl⟩
  | convert c r a =>
    obtain ⟨v, hv, hkind⟩ := Registers.get_ok (hread ⟨c.source, a⟩ List.mem_cons_self)
    refine .found ⟨v, hv⟩ fun w hw => ?_
    cases hv.symm.trans hw
    refine .expectSome (fun hnone => ?_) fun y hy => ⟨hwrite _ rfl, .inl ?_⟩
    · cases c <;> cases v <;> cases hkind <;> cases hnone
    · obtain ⟨x, -, hx⟩ := Option.bind_eq_some_iff.1 hy
      exact (Value.kind_ofScalar y).trans (Arith.Conversion.kind_apply? hx)
  | test op r a b =>
    refine .found (Registers.int_ok (hread _ List.mem_cons_self)) fun x _ => ?_
    refine .found (Registers.int_ok (hread _ (List.mem_cons_of_mem _ List.mem_cons_self))) fun y _ => ⟨hwrite _ rfl, .inl rfl⟩
  | order kind r a b =>
    have hfirst := hread _ List.mem_cons_self
    have hsecond := hread _ (List.mem_cons_of_mem _ List.mem_cons_self)
    cases kind with
    | int =>
      exact .found (Registers.int_ok hfirst) fun x _ => .found (Registers.int_ok hsecond) fun y _ => ⟨hwrite _ rfl, .inl rfl⟩
    | long =>
      exact .found (Registers.long_ok hfirst) fun x _ => .found (Registers.long_ok hsecond) fun y _ => ⟨hwrite _ rfl, .inl rfl⟩
    | float =>
      exact .found (Registers.float_ok hfirst) fun x _ => .found (Registers.float_ok hsecond) fun y _ => ⟨hwrite _ rfl, .inl rfl⟩
    | double =>
      exact .found (Registers.double_ok hfirst) fun x _ => .found (Registers.double_ok hsecond) fun y _ =>
        ⟨hwrite _ rfl, .inl rfl⟩
    | object => exact absurd rfl hrefers
  | same op r a b =>
    refine .found (Registers.ref_ok (hread _ List.mem_cons_self)) fun x _ => ?_
    refine .found (Registers.ref_ok (hread _ (List.mem_cons_of_mem _ List.mem_cons_self))) fun y _ => ?_
    rcases hrefers with rfl | rfl <;> exact ⟨hwrite _ rfl, .inl rfl⟩
  | arrayLength r a =>
    refine .found (Registers.ref_ok (hread _ List.mem_cons_self)) fun x _ => .nonNull trivial fun object => ?_
    exact .elements trivial fun elements => ⟨hwrite _ rfl, .inl rfl⟩
  | nullCheck r a =>
    exact .found (Registers.ref_ok (hread _ List.mem_cons_self)) fun x _ => .nonNull trivial fun object =>
      ⟨hwrite _ rfl, .inl rfl⟩
  | arrayGet kind r array index =>
    refine .found (Registers.ref_ok (hread _ List.mem_cons_self)) fun x _ => .nonNull trivial fun object => ?_
    refine .found (Registers.int_ok (hread _ (List.mem_cons_of_mem _ List.mem_cons_self))) fun y _ => ?_
    exact .elements trivial fun elements => .elementIndex trivial fun position => .expectSome (fun _ => rfl) fun v _ =>
      ⟨hwrite _ rfl, .inr rfl⟩
  | arraySet kind array index value =>
    refine .found (Registers.ref_ok (hread _ List.mem_cons_self)) fun x _ => .nonNull trivial fun object => ?_
    refine .found (Registers.int_ok (hread _ (List.mem_cons_of_mem _ List.mem_cons_self))) fun y _ => ?_
    have hvalue := hread ⟨kind, value⟩ (List.mem_cons_of_mem _ (List.mem_cons_of_mem _ List.mem_cons_self))
    refine .found ((Registers.get_ok hvalue).imp fun _ hv => hv.1) fun v _ => ?_
    exact .elements trivial fun elements => .elementIndex trivial fun position => .expectSome (fun _ => rfl) fun _ _ => trivial
  | getField kind r object field =>
    refine .found (Registers.ref_ok (hread _ List.mem_cons_self)) fun x _ => .nonNull trivial fun ref => ?_
    split
    · exact .expectSome (fun _ => rfl) fun v _ => ⟨hwrite _ rfl, .inr rfl⟩
    · exact rfl
  | getStatic kind r field =>
    have hfound : ∃ v, im.env.staticValue m.world field = .ok v := ⟨_, if_pos hrefers⟩
    exact .found hfound fun v _ => ⟨hwrite _ rfl, .inr rfl⟩
  | cast r a target =>
    refine .found (Registers.ref_ok (hread _ List.mem_cons_self)) fun object _ => ?_
    cases object with
    | none => exact ⟨hwrite _ rfl, .inl rfl⟩
    | some object =>
      refine .asked (fun what => hclosed.isInstance hheap object target) fun fits => ?_
      cases fits with
      | true => exact ⟨hwrite _ rfl, .inl rfl⟩
      | false => exact .found (ClassTable.classInfo_ok hrefers) fun c _ => trivial
  | instanceOf r a target =>
    refine .found (Registers.ref_ok (hread _ List.mem_cons_self)) fun object _ => ?_
    cases object with
    | none => exact ⟨hwrite _ rfl, .inl rfl⟩
    | some object => exact .asked (fun what => hclosed.isInstance hheap object target) fun b => ⟨hwrite _ rfl, .inl rfl⟩
  | lowerBound index =>
    refine .found (Registers.int_ok (hread _ List.mem_cons_self)) fun x _ => ?_
    dsimp only
    split <;> exact trivial
  | upperBound index array =>
    refine .found (Registers.ref_ok (hread _ (List.mem_cons_of_mem _ List.mem_cons_self))) fun x _ => .nonNull trivial
      fun object => ?_
    refine .elements trivial fun elements => .found (Registers.int_ok (hread _ List.mem_cons_self)) fun y _ => ?_
    dsimp only
    split <;> exact trivial
  | call site =>
    refine .expectSome (fun hnone => ?_) fun c hc => ?_
    · exact absurd (Array.getElem?_eq_none_iff.1 hnone) (Nat.not_le.2 (hsites ▸ hrefers))
    · have hfits := hsite site c hc
      have hfunction : ∃ f, im.env.function c.function = .ok f := by
        unfold Environment.function
        rw [Array.getElem?_eq_getElem hfits.function]
        exact ⟨_, rfl⟩
      refine .found hfunction fun f _ => ?_
      have hargs : ∀ x ∈ c.args, ∃ v, m.registers.get x = .ok v := fun x hx =>
        (Registers.get_ok (hregs x (hfits.reads x (List.mem_append_right _ hx)))).imp fun _ hv => hv.1
      have invoked : ∀ receiver, Answers (do
          let args ← c.args.mapM fun slot => m.registers.get slot
          pure (Effect.invoke c.function f (receiver ++ args) c.result)) (Effect.Fits t (.call site))
            (Instruction.MayFail im.env.classes (.call site)) :=
        fun receiver => .mapM c.args hargs fun args => hfits.result
      dsimp only
      split
      · rename_i slot hslot
        have hreceiver : m.registers.has ⟨.object, slot⟩ = true :=
          hregs _ (hfits.reads _ (List.mem_append_left _ (by simp [hslot])))
        exact .found (Registers.ref_ok hreceiver) fun x _ => .nonNull trivial fun object => invoked _
      · exact invoked _
  | goto target =>
    show Answers (im.program.jumpTo m.pc target) _ _
    unfold Program.jumpTo
    split <;> exact trivial
  | jumpIf polarity cond target =>
    refine .found (Registers.int_ok (hread _ List.mem_cons_self)) fun x _ => ?_
    split
    · unfold Program.jumpTo
      split <;> exact trivial
    · exact trivial
  | unreachable => exact trivial
  | nop => exact hrefers.elim
  | stop => exact trivial

end

/-! ## One step -/

def StepResult.machine : StepResult → Machine
  | .ok m | .failed _ m => m

section

variable {im : Image} {m : Machine} {x : TypedSlot}

theorem Machine.has_write (m : Machine) (s : TypedSlot) (v : Value) (refused : RuntimeError) :
    (m.write s v refused).machine.registers.has x = m.registers.has x := by
  unfold Machine.write Registers.set
  split
  · rename_i hset
    split at hset
    · cases hset
    · split at hset
      · cases hset
        exact Registers.has_put
      · cases hset
  · rfl
  · rfl

/-- No step makes registers or takes any away. -/
theorem Image.has_step (im : Image) (m : Machine) : (im.step m).machine.registers.has x = m.registers.has x := by
  rw [Image.step_eq]
  split
  · rfl
  · split
    · rename_i e _
      cases e with
      | write s v => exact m.has_write s v _
      | invoke id f args result =>
        simp only [Image.commit]
        rcases im.env.invoke id f args m.world with ⟨(_ | _) | v, world⟩
        · rfl
        · rfl
        · cases result with
          | none => rfl
          | some s => exact Machine.has_write { m with world } s v _
      | _ => rfl
    · rfl

theorem Image.has_advance (im : Image) (n : Nat) : ∀ m : Machine,
    (im.advance n m).2.registers.has x = m.registers.has x := by
  induction n with
  | zero => exact fun m => rfl
  | succ n ih =>
    intro m
    have hstep := im.has_step (x := x) m
    unfold Image.advance
    split
    · rfl
    · split
      · rename_i m' hm'
        rw [hm'] at hstep
        exact (ih m').trans hstep
      · rename_i m' hm'
        rw [hm'] at hstep
        exact hstep

end

/-- The program is not at fault: what is missing is missing in a native function, or it is the top of superclasses that
    go round, and an instruction is invalid only where it meets data. -/
def Image.Excuses (im : Image) (m : Machine) : RuntimeError → Prop
  | .missing what => (∃ ins id f args result, im.program.code[m.pc]? = some ins ∧
      im.effect m ins = .ok (.invoke id f args result) ∧ (im.env.invoke id f args m.world).1 = .error (.missing what)) ∨
      ∃ x, what = .root x ∧ im.env.classes.Endless x
  | .invalidInstruction _ => ∃ ins, im.program.code[m.pc]? = some ins ∧ ins.meetsData = true
  | _ => True

theorem Machine.write_of_has {m : Machine} {x : TypedSlot} (hx : m.registers.has x = true) (v : Value) (refused : RuntimeError) :
    (v.kind = x.kind ∧ ∃ m', m.write x v refused = .ok m') ∨ (v.kind ≠ x.kind ∧ m.write x v refused = .failed refused m) := by
  unfold Machine.write Registers.set
  by_cases hkind : v.kind = x.kind
  · simp [hkind, hx]
  · simp [hkind]

namespace Program.Fits

variable {p : Program} {env : Environment} {im : Image} {m : Machine}

theorem step (hp : im.program.Fits im.env) (htexts : im.texts.size = im.program.texts.size) (hm : m.Covers im.program)
    (hclosed : im.env.classes.Closed) (hheap : im.env.classes.Knows m.world.heap) {e : RuntimeError} {m' : Machine}
    (hstep : im.step m = .failed e m') : im.Excuses m e := by
  rw [Image.step_eq] at hstep
  cases hi : im.program.code[m.pc]? with
  | none =>
    simp only [hi] at hstep
    cases hstep
    exact trivial
  | some ins =>
    have hans := answers_effect (hp.code _ ins hi) hm htexts.symm rfl hp.sites hclosed hheap
    simp only [hi] at hstep
    cases he : im.effect m ins with
    | error err =>
      rw [he] at hans hstep
      cases hstep
      cases e with
      | missing _ => exact .inr hans
      | invalidInstruction _ => exact ⟨ins, hi, hans⟩
      | _ => exact trivial
    | ok effect =>
      rw [he] at hans hstep
      cases effect with
      | write x v =>
        obtain ⟨hx, hv⟩ := hans
        rcases Machine.write_of_has (hm x hx) v (.invalidInstruction m.pc) with ⟨-, m₁, hok⟩ | ⟨hkind, hfail⟩
        · cases hok.symm.trans hstep
        · cases hfail.symm.trans hstep
          exact ⟨ins, hi, hv.resolve_left hkind⟩
      | invoke id f args result =>
        simp only [Image.commit] at hstep
        rcases hinvoke : im.env.invoke id f args m.world with ⟨(message | what) | v, world⟩
        · rw [hinvoke] at hstep
          cases hstep
          exact trivial
        · rw [hinvoke] at hstep
          cases hstep
          exact .inl ⟨ins, id, f, args, result, hi, he, by rw [hinvoke]⟩
        · rw [hinvoke] at hstep
          cases result with
          | none => cases hstep
          | some x =>
            have hx : ({ m with world } : Machine).registers.has x = true := hm x (hans x rfl)
            rcases Machine.write_of_has hx v (.native f.qualifiedName m.pc (.wrongKind x.kind)) with ⟨-, m₁, hok⟩ | ⟨-, hfail⟩
            · cases hok.symm.trans hstep
            · cases hfail.symm.trans hstep
              exact trivial
      | _ => cases hstep

/-- The result register is there whenever the registers of the program are. -/
theorem result_ok (hp : im.program.Fits im.env) (hm : m.Covers im.program) : ∃ v, im.result m = .ok v := by
  unfold Image.result
  cases hr : im.program.result with
  | none => exact ⟨none, rfl⟩
  | some x =>
    obtain ⟨v, hv, -⟩ := Registers.get_ok (hm x (hp.result x hr))
    exact ⟨some v, by simp only [hv]; rfl⟩

end Program.Fits

/-- The machine has what the program asks for: its registers are there, its result can be read, and a step fails at
    nothing that the program is to blame for, as long as all classes are known. -/
structure Image.Serves (im : Image) (m : Machine) : Prop where
  covers : m.Covers im.program
  result : ∃ v, im.result m = .ok v
  step : im.env.classes.Closed → im.env.classes.Knows m.world.heap → ∀ e m', im.step m = .failed e m' → im.Excuses m e

/-- A run of a program that fits is served to its end. -/
theorem Program.Fits.advance {im : Image} {m : Machine} (hp : im.program.Fits im.env)
    (htexts : im.texts.size = im.program.texts.size) (hm : m.Covers im.program) (n : Nat) : im.Serves (im.advance n m).2 := by
  have hcovers : (im.advance n m).2.Covers im.program := fun x hx => (im.has_advance n m).trans (hm x hx)
  exact ⟨hcovers, hp.result_ok hcovers, fun hclosed hheap e m' he => hp.step htexts hcovers hclosed hheap he⟩

theorem Image.bindArgs_has {ps : List (TypedSlot × Value)} : ∀ {k : Nat} {r : Registers}, (∀ x ∈ ps, r.has x.1 = true) →
    (∀ what, (bindArgs k ps r).1 ≠ some (.missing what)) ∧ ∀ x, (bindArgs k ps r).2.has x = r.has x := by
  induction ps with
  | nil => exact fun _ => ⟨by simp [bindArgs], fun _ => rfl⟩
  | cons p ps ih =>
    intro k r hps
    obtain ⟨x, v⟩ := p
    have hx := hps _ List.mem_cons_self
    unfold bindArgs
    by_cases hkind : v.kind = x.kind
    · have hset : r.set x v = .ok (some (r.put x.slot v)) := by simp [Registers.set, hkind, hx]
      rw [hset]
      obtain ⟨hnone, hhas⟩ := ih (k := k + 1) (r := r.put x.slot v) fun y hy =>
        Registers.has_put.trans (hps y (List.mem_cons_of_mem _ hy))
      exact ⟨hnone, fun y => (hhas y).trans Registers.has_put⟩
    · have hset : r.set x v = .ok none := by simp [Registers.set, hkind]
      rw [hset]
      exact ⟨by simp, fun _ => rfl⟩

/-! ## The whole lowering -/

namespace Lowering

variable {ctx : Context} {k : Tables} {p : Program}

theorem Passage.typed (P : Passage ctx p) (hf : ctx.function.WellTyped) : ctx.Typed :=
  ⟨hf, P.fixed.2.2.1, P.fixed.2.2.2⟩

theorem Passage.typed_start (P : Passage ctx p) : Typed ctx .empty (.start ctx P.demand P.pool) := by
  refine ⟨Tables.empty_le _, P.fixed.1, fun id x region hp => ?_, nofun, nofun⟩
  rw [node_start] at hp
  cases hp

theorem typed_resultBinding {slot : Option TypedSlot} (hslot : Holds k slot) :
    Meets (Typed ctx k) (resultBinding ctx slot)
      (fun r s => (r.map (·.kind) = slot.map (·.kind) ∧ ∀ x, r = some x → x ∉ ctx.params ++ ctx.vars) ∧
        Typed ctx (k.adding r.toList) s) Anyhow := by
  cases slot with
  | none => exact .pure fun s hs => ⟨⟨rfl, nofun⟩, hs.weaken (Tables.adding_nil k)⟩
  | some x =>
    unfold resultBinding
    dsimp only
    split
    · refine (typed_acquire x.kind).bind fun r => .given fun hr => ?_
      have htakes : (Instruction.move x.kind r.slot x.slot).Takes [x] r := Instruction.takes_move hr.1.symm rfl
      have hfits : (Instruction.move x.kind r.slot x.slot).Fits ctx.env (k.adding [r]) :=
        htakes.fits (.inl List.mem_cons_self) (List.forall_mem_singleton.2 (.inr (hslot x rfl)))
      refine (typed_emit hfits).bind fun _ => .pure fun s hs => ⟨⟨congrArg some hr.1, fun y hy => ?_⟩, hs⟩
      exact Option.some.inj hy ▸ hr.2
    · rename_i hloose
      refine .pure fun s hs => ⟨⟨rfl, fun y hy => ?_⟩, hs.weaken (Tables.adding_le (Tables.le_refl k) fun y hy => ?_)⟩
      · rw [List.mem_append]
        exact Option.some.inj hy ▸ hloose
      · obtain rfl := List.mem_singleton.1 hy
        exact hslot y rfl

/-- After the result is bound, everything fits. -/
theorem Passage.typed_bound (P : Passage ctx p) (hf : ctx.function.WellTyped) :
    (∀ x, P.visited.slot = some x → ctx.function.kind? ctx.function.body = some x.kind) ∧
      (p.result.map (·.kind) = P.visited.slot.map (·.kind) ∧ ∀ x, p.result = some x → x ∉ ctx.params ++ ctx.vars) ∧
        ∃ k, Holds k p.result ∧ Typed ctx k P.bound := by
  have hwalk := (walk_types (P.typed hf) (ctx.function.nodes.size + 1) 0).build .empty ctx.function.body P.usage none none
    nofun offered_none
  obtain ⟨hkind, hwalked⟩ := hwalk.ok P.typed_start P.walks
  have hslot : Holds (Tables.empty.adding P.visited.slot.toList) P.visited.slot :=
    fun x hx => .inl (Option.mem_toList.2 hx)
  obtain ⟨hresult, hbound⟩ := (typed_resultBinding hslot).ok hwalked P.binds
  exact ⟨hkind, hresult, _, fun x hx => Tables.has_adding (Option.mem_toList.2 hx), hbound⟩

theorem Passage.tables_eq (P : Passage ctx p) : p.tables = P.bound.tables := by
  obtain ⟨hcounts, htexts, hsites, -, -⟩ := P.tables
  unfold Program.tables State.tables
  rw [hcounts, htexts, hsites]
  congr 1
  funext x
  simp [Pool.counts, Pool.has]

theorem Passage.fits (P : Passage ctx p) (hf : ctx.function.WellTyped) (hp : p.Sealed) : p.Fits ctx.env := by
  obtain ⟨-, -, k, hk, hbound⟩ := P.typed_bound hf
  have hcode := P.code_eq
  obtain ⟨-, -, hsites, hparams, hvars⟩ := P.tables
  refine ⟨fun i ins hi => ?_, fun i site hi => ?_, fun x hx => ?_, fun x hx => ?_⟩
  · rw [P.tables_eq]
    have hat := hi
    rw [hcode, Array.getElem?_push] at hat
    split at hat
    · cases hat
      exact ⟨nofun, nofun, trivial⟩
    · exact (hbound.code i ins hat).resolve_left fun hnop => hp.filled i (hnop ▸ hi)
  · rw [P.tables_eq]
    exact hbound.sites i site (hsites ▸ hi)
  · rw [P.tables_eq]
    rw [hparams, hvars] at hx
    exact hbound.pool.fixed_has hx
  · rw [P.tables_eq]
    exact hbound.known.has x (hk x hx)

/-- A node that is asked for its value gives one. -/
theorem meets_value {P : State → Prop} {w : Walk} {depth : Nat} {id : NodeId} {hint : Option TypedSlot} {offer : Option Offer} :
    Meets P (build ctx depth w id .value hint offer) (fun v _ => v.slot ≠ none) Anyhow := by
  have hany : ∀ {α : Type} {P : State → Prop} (act : Lower α), Meets P act (fun _ _ => True) Anyhow := by
    intro α P act s _
    split <;> exact trivial
  have hcheck : ∀ v : Visited, Meets (fun _ => True) (checkSlot id .value v) (fun v _ => v.slot ≠ none) Anyhow := by
    intro v
    unfold checkSlot
    split
    · exact .fail trivial
    · rename_i hslot
      exact .pure fun _ _ hnone => hslot ⟨rfl, hnone⟩
  refine (hany (nodeState id)).bind fun n => ?_
  split
  · exact .fail trivial
  · refine (hany get).bind fun s => ?_
    split
    · exact .fail trivial
    · exact (hany (consume id .value)).bind fun _ => hcheck _
  · exact (hany (consume id .value)).bind fun _ => (hany _).bind hcheck

/-- The result is of the kind that the function returns; it is left out only where no value comes back. -/
theorem Passage.result_kind (P : Passage ctx p) (hf : ctx.function.WellTyped) :
    (∀ x, p.result = some x → ctx.function.returnType.kind? = some x.kind) ∧
      (p.result = none → ctx.function.returnType.kind? = none ∨
        ∃ n, ctx.function.node? ctx.function.body = some n ∧ n.type = .unreachable) := by
  obtain ⟨hkind, ⟨hsame, -⟩, -⟩ := P.typed_bound hf
  have hignored := (meets_bodySlot P.outset).ok rfl P.walks
  have hvalue : P.usage = .value → P.visited.slot ≠ none := by
    intro hu
    have hwalks := P.walks
    rw [hu] at hwalks
    exact (meets_value (P := fun _ => True)).ok trivial hwalks
  have hused := P.used
  unfold bodyUsage at hused
  cases hn : ctx.function.node? ctx.function.body with
  | none => simp only [hn] at hused; cases hused
  | some body =>
    have hbody : ctx.function.kind? ctx.function.body = body.type.kind? := by simp [Function.kind?, hn]
    -- Without a value of the body there is no result.
    have hnone : P.usage = .ignore → p.result = none := fun hu => by
      rw [hignored hu] at hsame
      exact Option.map_eq_none_iff.1 hsame
    simp only [hn] at hused
    split at hused
    · rename_i hreturn
      have hresult := hnone (Except.ok.inj hused).symm
      rw [hresult]
      exact ⟨by simp, fun _ => .inl hreturn⟩
    · rename_i wanted found hreturn hfound
      split at hused
      · rename_i heq
        have hslot := hvalue (Except.ok.inj hused).symm
        refine ⟨fun x hx => ?_, fun hresult => ?_⟩
        · rw [hx] at hsame
          obtain ⟨y, hy, hxy⟩ := Option.map_eq_some_iff.1 hsame.symm
          have hybody := (hkind y hy).symm.trans (hbody.trans hfound)
          rw [hreturn, heq, ← Option.some.inj hybody, hxy]
        · rw [hresult] at hsame
          exact absurd (Option.map_eq_none_iff.1 hsame.symm) hslot
      · cases hused
    · split at hused
      · rename_i hunreachable
        have hresult := hnone (Except.ok.inj hused).symm
        rw [hresult]
        exact ⟨by simp, fun _ => .inr ⟨body, rfl, hunreachable⟩⟩
      · cases hused

end Lowering

open Lowering

/-- A well-typed function is lowered to a program that fits its environment: every register of every instruction and
    call site is one that the program counts in the partition in which it is used, and every text, call site, class,
    function and static field exists. The result is of the kind that the function returns and is no fixed slot. A new
    machine has the registers of the program, and a machine that has them can be given arguments and serves the program
    for as long as it runs. -/
theorem compile_fits (f : Function) (env : Environment) (options : CompileOptions) (p : Program) (hf : f.WellTyped)
    (h : compile f env options = .ok p) :
    p.Fits env ∧
      (∀ x, p.result = some x → f.returnType.kind? = some x.kind ∧ x ∉ p.params ++ p.vars) ∧
      (p.result = none → f.returnType.kind? = none ∨ ∃ n, f.node? f.body = some n ∧ n.type = .unreachable) ∧
      ∀ w, (Machine.start (Image.load p env w).1 (Image.load p env w).2).Covers p ∧ ∀ m, m.Covers p →
        (∀ args, (∀ what, (Image.bindArgs 0 (p.params.zip args) m.reset.registers).1 ≠ some (.missing what)) ∧
          ({ m.reset with registers := (Image.bindArgs 0 (p.params.zip args) m.reset.registers).2 } : Machine).Covers p) ∧
        ∀ n, (Image.load p env w).1.Serves ((Image.load p env w).1.advance n m).2 := by
  obtain ⟨params, vars, ⟨P⟩⟩ := compile_passage h
  have hfits := P.fits hf (compile_ok_sealed h)
  obtain ⟨hkind, hnone⟩ := P.result_kind hf
  have hloose := (P.typed_bound hf).2.1.2
  obtain ⟨-, -, -, hparams, hvars⟩ := P.tables
  refine ⟨hfits, fun x hx => ⟨hkind x hx, ?_⟩, hnone,
    fun w => ⟨fun x hx => ?_, fun m hm => ⟨fun args => ?_, fun n => ?_⟩⟩⟩
  · rw [hparams, hvars]
    exact hloose x hx
  · rw [Image.load_eq]
    exact (Registers.has_new p.counts x).2 hx
  · have hregs : ∀ x ∈ p.params.zip args, m.reset.registers.has x.1 = true := fun x hx =>
      Registers.has_reset.trans (hm _ (hfits.fixed _ (List.mem_append_left _ (List.of_mem_zip hx).1)))
    obtain ⟨hmissing, hhas⟩ := Image.bindArgs_has (k := 0) hregs
    exact ⟨hmissing, fun x hx => (hhas x).trans (Registers.has_reset.trans (hm x hx))⟩
  · have hload : (Image.load p env w).1 = ⟨p, env, (List.range' w.heap.cells.size p.texts.size).toArray⟩ := by
      rw [Image.load_eq]
    rw [hload]
    exact Program.Fits.advance hfits (by simp) hm n

/-- Shifts a long by whether a text is a text. -/
def shiftByTest : Function where
  params := [.long]
  locals := []
  nodes := #[⟨.param 0, .long⟩, ⟨.text "abc", .object⟩, ⟨.instanceOf 1 "String", .boolean⟩,
    ⟨.binary (.arith .long .shl) 0 2, .long⟩]
  body := 3
  returnType := .long

theorem compile_shiftByTest_fits : ∃ p, compile shiftByTest {} {} = .ok p ∧ p.Fits {} ∧ p.result = some ⟨.long, 1⟩ ∧
    ⟨.long, 1⟩ ∉ p.params ++ p.vars ∧ ∀ w n, (Image.load p {} w).1.Serves
      ((Image.load p {} w).1.advance n (.start (Image.load p {} w).1 (Image.load p {} w).2)).2 := by
  have hp : compile shiftByTest {} {} =
      .ok { code := #[.text 0 0, .instanceOf 0 0 1, .arith .long .shl 1 0 0, .stop], counts := ⟨1, 2, 0, 0, 1⟩,
            texts := #["abc"], params := [⟨.long, 0⟩], result := some ⟨.long, 1⟩ } := by
    decide +kernel
  obtain ⟨hfits, hresult, -, hruns⟩ := compile_fits _ _ _ _ (by decide) hp
  exact ⟨_, hp, hfits, rfl, (hresult _ rfl).2, fun w n => ((hruns w).2 _ (hruns w).1).2 n⟩

end SlotCode
