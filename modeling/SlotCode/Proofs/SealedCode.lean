/-
  SlotCode.Proofs.SealedCode — lowered code is sealed, and a run never leaves it.

  Code is sealed when its last instruction is its only `stop`, nothing in it is unfinished
  and every jump goes to one of its addresses.

  An instruction has only effects that suit it (`answers_suits`): it writes the register
  that it names, jumps where it says, and goes on to the next address otherwise.

  Proved, for every function, shared or cyclic, in every environment:
    * lowering never mishandles a jump or a reserved position;
    * what it returns is sealed;
    * a run of sealed code from its first address stays inside the code, whatever the
      registers, the world and the natives.
-/

import SlotCode.Machine.Run
import SlotCode.Proofs.Effects
import SlotCode.Proofs.Operands
import SlotCode.Proofs.TidyWalk

namespace SlotCode

/-- The last instruction is the only `stop`, nothing is unfinished and every jump stays inside. -/
structure Program.Sealed (p : Program) : Prop where
  ends : p.code[p.code.size - 1]? = some .stop
  stops : ∀ i : Nat, p.code[i]? = some .stop → i + 1 = p.code.size
  filled : ∀ i : Nat, p.code[i]? ≠ some .nop
  targets : ∀ (i : Nat) (ins : Instruction) (t : Label), p.code[i]? = some ins → ins.target? = some t →
    ∃ a, t = .address a ∧ a < p.code.size

theorem Program.Sealed.size_pos {p : Program} (h : p.Sealed) : 0 < p.code.size := by
  have := h.ends
  rcases Nat.eq_zero_or_pos p.code.size with h0 | h0
  · simp [h0] at this
  · exact h0

/-- A draft without debts, ended by `stop`, is sealed. -/
theorem Draft.Owes.seal {d : Draft} (h : d.Owes 0 0) {p : Program} (hp : p.code = d.code.push .stop) : p.Sealed := by
  have hcode : ∀ i : Nat, p.code[i]? = if i = d.code.size then some .stop else d.code[i]? := by
    intro i
    rw [hp, Array.getElem?_push]
  have hsize : p.code.size = d.code.size + 1 := by rw [hp, Array.size_push]
  have hreserved : d.reserved = [] := by simpa using h.tails
  refine ⟨?_, ?_, ?_, ?_⟩
  · rw [hcode, hsize]
    simp
  · intro i hi
    rw [hcode] at hi
    split at hi
    · omega
    · exact absurd hi (h.running i)
  · intro i hi
    rw [hcode] at hi
    split at hi
    · cases hi
    · have := (h.nops i).1 hi
      rw [hreserved] at this
      exact absurd this (by simp)
  · intro i ins t hi ht
    rw [hcode] at hi
    split at hi
    · cases hi
      cases ht
    · cases t with
      | pending =>
        have hopen := h.not_pending hi
        simp [Draft.isPendingJump, ht] at hopen
      | address a =>
        have := h.targets i ins a hi ht
        exact ⟨a, rfl, by simp only [Draft.label] at this; omega⟩

/-! ## Lowering a whole function -/

namespace Lowering

theorem orderly_resultBinding (ctx : Context) (slot : Option TypedSlot) : Orderly (resultBinding ctx slot) := by
  cases slot with
  | none => exact .pure
  | some slot =>
    rw [resultBinding]
    split
    · exact .bind (.of_keeps (quiet_acquire _)) fun _ => .bind (orderly_emit rfl) fun _ => .pure
    · exact .pure

/-- Outside all frames, nobody holds an exit. -/
theorem Tidy.owes_nothing {s : State} (h : Tidy {} s) : s.draft.Owes 0 0 := by
  have hb : s.blocks = [] := List.length_eq_zero_iff.1 h.blocks
  have hl : s.loops = [] := List.length_eq_zero_iff.1 h.loops
  simpa [State.exits, hb, hl] using h.owes

theorem meets_lowerBody (ctx : Context) (u : Usage) :
    Meets (Tidy {}) (lowerBody ctx u) (fun _ s => ∃ d : Draft, d.Owes 0 0 ∧ s.draft = d.add .stop) Harmless := by
  refine Meets.bind ((walk_tidies _ 0).build _ u none none {}) fun v => ?_
  refine Meets.bind (fun s hs => orderly_resultBinding ctx v.slot {} s hs.of_none.2) fun result => ?_
  have hstop : Meets (Tidy {}) (emit .stop) (fun _ s => ∃ d : Draft, d.Owes 0 0 ∧ s.draft = d.add .stop) Harmless :=
    meets_drafting fun s hs => ⟨(), s.draft.add .stop, rfl, s.draft, hs.owes_nothing, rfl⟩
  refine hstop.bind fun _ => Meets.read fun s hs => ?_
  dsimp only
  split
  · exact .pure fun t ht => ht ▸ hs
  · exact .fail rfl

theorem harmless_fixedSlots {body : NodeId} {cause : Nat → ValueType → Mismatch} {e : BuildError} :
    ∀ (types : List ValueType) (index : Nat) (pool : Pool),
      fixedSlots body cause index types pool = .error e → Harmless e
  | [], _, _, h => by cases h
  | type :: rest, index, pool, h => by
    unfold fixedSlots at h
    split at h
    · cases h
      rfl
    · rename_i kind _
      dsimp only at h
      cases hr : fixedSlots body cause (index + 1) rest (pool.reserve kind).2 with
      | error e' =>
        rw [hr] at h
        cases h
        exact harmless_fixedSlots rest _ _ hr
      | ok r =>
        rw [hr] at h
        cases h

theorem harmless_bodyUsage {f : Function} {e : BuildError} (h : bodyUsage f = .error e) : Harmless e := by
  unfold bodyUsage at h
  repeat' split at h
  all_goals cases h
  all_goals rfl

end Lowering

open Lowering in
/-- The state that lowering starts from is tidy. -/
theorem tidy_start (demand : Demand) (pool : Pool) (nodes : Array NodeState) : Tidy {} { demand, pool, nodes } := by
  refine ⟨⟨rfl, rfl, List.nodup_nil, ?_, ?_, ?_⟩, ?_, Nat.le_refl _, rfl, rfl⟩
  · simp
  · intro i ins a hi
    simp at hi
  · simp
  · simp

open Lowering in
/-- Lowering mishandles no jump. -/
theorem compile_error {f : Function} {env : Environment} {options : CompileOptions} {e : BuildError}
    (h : compile f env options = .error e) : e.isJumpFault = false := by
  unfold compile at h
  rcases bind_eq_error h with hd | ⟨demand, -, h⟩
  · cases hf : Demand.analyze f with
    | error m => rw [hf] at hd; cases hd; rfl
    | ok d => rw [hf] at hd; cases hd
  rcases bind_eq_error h with hp | ⟨⟨params, pool⟩, -, h⟩
  · exact harmless_fixedSlots _ _ _ hp
  rcases bind_eq_error h with hv | ⟨⟨vars, pool'⟩, -, h⟩
  · exact harmless_fixedSlots _ _ _ hv
  rcases bind_eq_error h with hu | ⟨u, -, h⟩
  · exact harmless_bodyUsage hu
  have hbody := meets_lowerBody ⟨f, env, options, params, vars⟩ u
  rcases bind_eq_error h with hl | ⟨⟨result, s⟩, hl, h⟩
  · exact hbody.error (tidy_start _ _ _) hl
  · obtain ⟨d, hd, hs⟩ := hbody.ok (tidy_start _ _ _) hl
    simp only [finish, hs, hd.finish_stop] at h
    cases h

open Lowering in
/-- What lowering returns is sealed. -/
theorem compile_ok_sealed {f : Function} {env : Environment} {options : CompileOptions} {p : Program}
    (h : compile f env options = .ok p) : p.Sealed := by
  unfold compile at h
  obtain ⟨demand, -, h⟩ := bind_eq_ok h
  obtain ⟨⟨params, pool⟩, -, h⟩ := bind_eq_ok h
  obtain ⟨⟨vars, pool'⟩, -, h⟩ := bind_eq_ok h
  obtain ⟨u, -, h⟩ := bind_eq_ok h
  obtain ⟨⟨result, s⟩, hl, h⟩ := bind_eq_ok h
  obtain ⟨d, hd, hs⟩ := (meets_lowerBody ⟨f, env, options, params, vars⟩ u).ok (tidy_start _ _ _) hl
  simp only [finish, hs, hd.finish_stop] at h
  cases h
  exact hd.seal rfl

/-! ## What an instruction can do -/

/-- Whether control was to leave the code. -/
def RuntimeError.isInvalidJump : RuntimeError → Bool
  | .invalidJump .. => true
  | _ => false

/-- The effect moves control to the next address. -/
def Effect.isStraight : Effect → Bool
  | .jump _ | .halt => false
  | _ => true

/-- The register that the effect writes. -/
def Effect.target? : Effect → Option TypedSlot
  | .write x _ => some x
  | .invoke _ _ _ result => result
  | _ => none

/-- Where the instruction goes to, if it is a jump that is taken. -/
def Machine.taken? (m : Machine) : Instruction → Option Nat
  | .goto target => some target.index
  | .jumpIf polarity cond target =>
    match m.registers.int cond with
    | .ok c => if ((c != 0) == polarity) = true then some target.index else none
    | .error _ => none
  | _ => none

/-- What a call site calls: the function, and the values of the receiver and the arguments. -/
structure Image.Calls (im : Image) (m : Machine) (site : Nat) (c : CallSite) (f : NativeFunction) (args : List Value) :
    Prop where
  site : im.program.sites[site]? = some c
  function : im.env.functions[c.function]? = some f
  args : c.reads.mapM m.registers.get? = some args

/-- The instruction can have the effect on the machine. -/
def Effect.Suits (im : Image) (m : Machine) (i : Instruction) : Effect → Prop
  | .next => (i ≠ .stop ∧ m.taken? i = none) ∧ im.program.writes i = none
  | .write x _ => (i ≠ .stop ∧ m.taken? i = none) ∧ im.program.writes i = some x
  | .store .. => ∃ kind array index value, i = .arraySet kind array index value
  | .invoke id f args result => ∃ site c, i = .call site ∧ im.Calls m site c f args ∧ c.function = id ∧ c.result = result
  | .jump target => m.taken? i = some target
  | .halt => i = .stop

theorem Machine.taken?_of_straight {m : Machine} {i : Instruction} (h : i.isStraight = true) :
    i ≠ .stop ∧ m.taken? i = none := by
  cases i with
  | goto | jumpIf | nop | stop => cases h
  | _ => exact ⟨by simp, rfl⟩

namespace Effect.Suits

variable {im : Image} {m : Machine} {i : Instruction} {e : Effect}

theorem isStraight (h : e.Suits im m i) (hi : i.isStraight = true) : e.isStraight = true := by
  have hgoes := Machine.taken?_of_straight (m := m) hi
  cases e with
  | jump target => cases hgoes.2.symm.trans h
  | halt => exact absurd h hgoes.1
  | _ => rfl

/-- An instruction writes no other register than it says. -/
theorem target?_eq (h : e.Suits im m i) : e.target? = im.program.writes i := by
  cases e with
  | next | write => exact h.2.symm
  | store =>
    obtain ⟨kind, array, index, value, rfl⟩ := h
    rfl
  | invoke =>
    obtain ⟨site, c, rfl, hcalls, -, rfl⟩ := h
    simp [Effect.target?, Program.writes, hcalls.site]
  | jump target =>
    have htaken : m.taken? i = some target := h
    cases i with
    | goto | jumpIf => rfl
    | _ => cases htaken
  | halt =>
    cases h
    rfl

end Effect.Suits

/-- The computation gives something that satisfies `Q`, or fails with an error that satisfies `E`. -/
def Answers {α : Type} (x : Except RuntimeError α) (Q : α → Prop) (E : RuntimeError → Prop) : Prop :=
  match x with
  | .ok a => Q a
  | .error e => E e

namespace Answers

variable {α β : Type} {Q : α → Prop} {R : β → Prop} {E : RuntimeError → Prop}

theorem bind {x : Except RuntimeError α} {f : α → Except RuntimeError β} (hx : Answers x Q E)
    (hf : ∀ a, Q a → Answers (f a) R E) :
    Answers (x >>= f) R E := by
  cases x with
  | error e => exact hx
  | ok a => exact hf a hx

/-- A look-up that succeeds. -/
theorem found {x : Except Missing α} {f : α → Except RuntimeError β} (hx : ∃ a, x = .ok a)
    (hf : ∀ a, x = .ok a → Answers (f a) R E) :
    Answers ((liftM x : Except RuntimeError α) >>= f) R E := by
  obtain ⟨a, rfl⟩ := hx
  exact hf a rfl

/-- A look-up that succeeds or fails as it may. -/
theorem asked {x : Except Missing α} {f : α → Except RuntimeError β} (hE : ∀ what, x = .error what → E (.missing what))
    (hf : ∀ a, Answers (f a) R E) : Answers ((liftM x : Except RuntimeError α) >>= f) R E := by
  cases x with
  | error what => exact hE what rfl
  | ok a => exact hf a

variable {pc : Nat}

theorem nonNull {r : Option Ref} {f : Ref → Except RuntimeError β} (hE : E (.nullPointer pc)) (hf : ∀ a, Answers (f a) R E) :
    Answers (SlotCode.nonNull pc r >>= f) R E := by
  cases r with
  | none => exact hE
  | some a => exact hf a

theorem elements {o : Object} {f : Elements → Except RuntimeError β} (hE : E (.classCast "array" pc))
    (hf : ∀ a, Answers (f a) R E) :
    Answers (o.elements pc >>= f) R E := by
  cases o with
  | array a => exact hf a
  | text _ => exact hE
  | record _ _ => exact hE

theorem elementIndex {index : Int32} {length : Nat} {f : Nat → Except RuntimeError β}
    (hE : E (.indexOutOfBounds index (some length) pc)) (hf : ∀ a, Answers (f a) R E) :
    Answers (SlotCode.elementIndex pc index length >>= f) R E := by
  unfold SlotCode.elementIndex
  split
  · exact hf _
  · exact hE

theorem expectSome {a : Option α} {f : α → Except RuntimeError β} (hE : a = none → E (.invalidInstruction pc))
    (hf : ∀ b, a = some b → Answers (f b) R E) : Answers (SlotCode.expectSome pc a >>= f) R E := by
  cases a with
  | none => exact hE rfl
  | some b => exact hf b rfl

theorem mapM {γ : Type} {f : γ → Except Missing α} (xs : List γ) (h : ∀ x ∈ xs, ∃ a, f x = .ok a)
    {g : List α → Except RuntimeError β} (hg : ∀ as, Answers (g as) R E) :
    Answers (xs.mapM (fun x => (liftM (f x) : Except RuntimeError α)) >>= g) R E := by
  have hall : ∃ as, xs.mapM (fun x => (liftM (f x) : Except RuntimeError α)) = .ok as := by
    induction xs with
    | nil => exact ⟨[], rfl⟩
    | cons x xs ih =>
      obtain ⟨a, ha⟩ := h x List.mem_cons_self
      obtain ⟨as, has⟩ := ih fun y hy => h y (List.mem_cons_of_mem _ hy)
      refine ⟨a :: as, ?_⟩
      rw [List.mapM_cons, ha, has]
      rfl
  obtain ⟨as, has⟩ := hall
  rw [has]
  exact hg as

theorem imp {x : Except RuntimeError α} {Q' : α → Prop} {E' : RuntimeError → Prop} (hx : Answers x Q E)
    (hQ : ∀ a, Q a → Q' a) (hE : ∀ e, E e → E' e) : Answers x Q' E' := by
  cases x with
  | ok a => exact hQ a hx
  | error e => exact hE e hx

/-- A look-up gives what is there, or something is missing. -/
theorem lift (hE : ∀ what, E (.missing what)) (x : Except Missing α) :
    Answers (liftM x : Except RuntimeError α) (fun a => x = .ok a) E := by
  cases x with
  | ok a => rfl
  | error what => exact hE what

end Answers

theorem Registers.get?_of_ref {r : Registers} {s : Slot} {o : Option Ref} (h : r.ref s = .ok o) :
    r.get? ⟨.object, s⟩ = some (.ref o) := by
  unfold Registers.ref Registers.found at h
  split at h
  · rename_i ho
    cases h
    simp [Registers.get?, ho]
  · cases h

/-- The arguments of a call are what their registers hold. -/
theorem answers_args (m : Machine) (xs : List TypedSlot) :
    Answers (xs.mapM fun x => (liftM (m.registers.get x) : Except RuntimeError Value))
      (fun vs => xs.mapM m.registers.get? = some vs) fun e => e.isInvalidJump = false := by
  induction xs with
  | nil => rfl
  | cons x xs ih =>
    rw [List.mapM_cons]
    refine .bind (.lift (fun _ => rfl) _) fun v hv => .bind ih fun vs hvs => ?_
    rw [List.mapM_cons, Registers.get?_of_get hv, hvs]
    rfl

/-- An instruction that goes on to the next address fails for other reasons than a jump. -/
theorem answers_straight (im : Image) (m : Machine) {i : Instruction} (h : i.isStraight = true) :
    Answers (im.effect m i) (Effect.Suits im m i) fun e => e.isInvalidJump = false := by
  have hgoes := Machine.taken?_of_straight (m := m) h
  have look : ∀ {α : Type} (x : Except Missing α), Answers (liftM x : Except RuntimeError α) (fun a => x = .ok a)
      fun e => e.isInvalidJump = false := fun x => .lift (fun _ => rfl) x
  cases i with
  | goto | jumpIf | nop | stop => cases h
  | const | null => exact ⟨hgoes, rfl⟩
  | unreachable => rfl
  | text r index => exact .expectSome (fun _ => rfl) fun _ _ => ⟨hgoes, rfl⟩
  | move | not | getStatic => exact .bind (look _) fun _ _ => ⟨hgoes, rfl⟩
  | arith w op r a b =>
    cases w with
    | int =>
      refine .bind (look _) fun x _ => .bind (look _) fun y _ => ?_
      split
      · exact ⟨hgoes, rfl⟩
      · rfl
    | long =>
      have divided : ∀ distance, Answers (m.onLong op r a distance) (Effect.Suits im m (.arith .long op r a b))
          fun e => e.isInvalidJump = false := by
        refine fun distance => .bind (look _) fun x _ => ?_
        split
        · exact ⟨hgoes, rfl⟩
        · rfl
      unfold Image.effect
      dsimp only
      split
      · cases m.registers.int b with
        | ok y => exact divided y.toInt64
        | error what => rfl
      · exact .bind (look _) fun distance _ => divided distance
  | real p op r a b => cases p <;> exact .bind (look _) fun _ _ => .bind (look _) fun _ _ => ⟨hgoes, rfl⟩
  | neg kind r a => cases kind <;> first | rfl | exact .bind (look _) fun _ _ => ⟨hgoes, rfl⟩
  | inv kind r a => cases kind <;> first | rfl | exact .bind (look _) fun _ _ => ⟨hgoes, rfl⟩
  | convert c r a => exact .bind (look _) fun _ _ => .expectSome (fun _ => rfl) fun _ _ => ⟨hgoes, rfl⟩
  | test op r a b => exact .bind (look _) fun _ _ => .bind (look _) fun _ _ => ⟨hgoes, rfl⟩
  | order kind r a b =>
    cases kind <;> first | rfl | exact .bind (look _) fun _ _ => .bind (look _) fun _ _ => ⟨hgoes, rfl⟩
  | same op r a b =>
    refine .bind (look _) fun _ _ => .bind (look _) fun _ _ => ?_
    cases op <;> first | rfl | exact ⟨hgoes, rfl⟩
  | arrayLength r a => exact .bind (look _) fun _ _ => .nonNull rfl fun _ => .elements rfl fun _ => ⟨hgoes, rfl⟩
  | nullCheck r a => exact .bind (look _) fun _ _ => .nonNull rfl fun _ => ⟨hgoes, rfl⟩
  | arrayGet kind r array index =>
    refine .bind (look _) fun _ _ => .nonNull rfl fun _ => .bind (look _) fun _ _ => .elements rfl fun _ => ?_
    exact .elementIndex rfl fun _ => .expectSome (fun _ => rfl) fun _ _ => ⟨hgoes, rfl⟩
  | arraySet kind array index value =>
    refine .bind (look _) fun _ _ => .nonNull rfl fun _ => .bind (look _) fun _ _ => .bind (look _) fun _ _ => ?_
    refine .elements rfl fun _ => .elementIndex rfl fun _ => .expectSome (fun _ => rfl) fun _ _ => ?_
    exact ⟨kind, array, index, value, rfl⟩
  | getField kind r object field =>
    refine .bind (look _) fun _ _ => .nonNull rfl fun _ => ?_
    split
    · exact .expectSome (fun _ => rfl) fun _ _ => ⟨hgoes, rfl⟩
    · rfl
  | cast r a target =>
    refine .bind (look _) fun object _ => ?_
    cases object with
    | none => exact ⟨hgoes, rfl⟩
    | some object =>
      refine .bind (look _) fun fits _ => ?_
      cases fits with
      | false => exact .bind (look _) fun _ _ => rfl
      | true => exact ⟨hgoes, rfl⟩
  | instanceOf r a target =>
    refine .bind (look _) fun object _ => ?_
    cases object with
    | none => exact ⟨hgoes, rfl⟩
    | some object => exact .bind (look _) fun _ _ => ⟨hgoes, rfl⟩
  | lowerBound index =>
    refine .bind (look _) fun _ _ => ?_
    dsimp only
    split
    · rfl
    · exact ⟨hgoes, rfl⟩
  | upperBound index array =>
    refine .bind (look _) fun _ _ => .nonNull rfl fun _ => .elements rfl fun _ => .bind (look _) fun _ _ => ?_
    dsimp only
    split
    · rfl
    · exact ⟨hgoes, rfl⟩
  | call site =>
    refine .expectSome (fun _ => rfl) fun c hc => .bind (.lift (fun _ => rfl) _) fun f hf => ?_
    have hfunction : im.env.functions[c.function]? = some f := by
      unfold Environment.function at hf
      split at hf
      · rename_i hsome
        cases hf
        exact hsome
      · cases hf
    -- What the receiver adds to the arguments is what its register holds.
    have invoked : ∀ receiver, (c.receiver.toList.map (TypedSlot.mk .object)).mapM m.registers.get? = some receiver →
        Answers (do
          let args ← c.args.mapM fun slot => m.registers.get slot
          pure (Effect.invoke c.function f (receiver ++ args) c.result)) (Effect.Suits im m (.call site))
          fun e => e.isInvalidJump = false := by
      intro receiver hreceiver
      refine .bind (answers_args m c.args) fun args hargs => ⟨site, c, rfl, ⟨hc, hfunction, ?_⟩, rfl, rfl⟩
      rw [CallSite.reads, List.mapM_append, hreceiver, hargs]
      rfl
    dsimp only
    split
    · rename_i slot hslot
      refine .bind (.lift (fun _ => rfl) _) fun object hobject => ?_
      cases object with
      | none => rfl
      | some object =>
        refine invoked [.ref (some object)] ?_
        rw [hslot]
        simp [Registers.get?_of_ref hobject]
    · rename_i hslot
      exact invoked [] (by rw [hslot]; rfl)

/-- An instruction has only effects that suit it. -/
theorem answers_suits (im : Image) (m : Machine) (i : Instruction) :
    Answers (im.effect m i) (Effect.Suits im m i) fun _ => True := by
  cases i with
  | goto target =>
    show Answers (im.program.jumpTo m.pc target) _ _
    unfold Program.jumpTo
    split
    · exact rfl
    · trivial
  | jumpIf polarity cond target =>
    refine .bind (.lift (fun _ => trivial) _) fun c hc => ?_
    split
    · rename_i htaken
      unfold Program.jumpTo
      split
      · show m.taken? (.jumpIf polarity cond target) = some target.index
        simp [Machine.taken?, hc, htaken]
      · trivial
    · rename_i hnot
      exact ⟨⟨by simp, by simp [Machine.taken?, hc, hnot]⟩, rfl⟩
  | nop => trivial
  | stop => rfl
  | _ => exact (answers_straight im m rfl).imp (fun _ h => h) fun _ _ => trivial

/-! ## Running sealed code -/

theorem Machine.yields_write (m : Machine) (s : TypedSlot) (v : Value) {refused : RuntimeError}
    (hr : refused.isInvalidJump = false) :
    match m.write s v refused with
    | .ok m' => m'.pc = m.pc + 1
    | .failed e m' => e.isInvalidJump = false ∧ m'.pc = m.pc := by
  unfold Machine.write
  rcases m.registers.set s v with _ | _ | _
  · exact ⟨rfl, rfl⟩
  · exact ⟨hr, rfl⟩
  · rfl

/-- A straight effect moves on by one address or fails in place. -/
theorem commit_straight (im : Image) (m : Machine) {e : Effect} (h : e.isStraight = true) :
    match im.commit m e with
    | .ok m' => m'.pc = m.pc + 1
    | .failed e m' => e.isInvalidJump = false ∧ m'.pc = m.pc := by
  cases e with
  | next | store => rfl
  | jump | halt => cases h
  | write s v => exact m.yields_write s v rfl
  | invoke id f args result =>
    simp only [Image.commit]
    rcases im.env.invoke id f args m.world with ⟨(_ | _) | v, world⟩
    · exact ⟨rfl, rfl⟩
    · exact ⟨rfl, rfl⟩
    · cases result with
      | none => rfl
      | some s => exact Machine.yields_write { m with world } s v (by rfl)

namespace Program.Sealed

variable {im : Image} {m : Machine}

theorem jumpTo (h : im.program.Sealed) {ins : Instruction} {t : Label} (hi : im.program.code[m.pc]? = some ins)
    (ht : ins.target? = some t) :
    ∃ a, a < im.program.code.size ∧ im.program.jumpTo m.pc t = .ok (.jump a) := by
  obtain ⟨a, rfl, ha⟩ := h.targets m.pc ins t hi ht
  exact ⟨a, ha, by simp [Program.jumpTo, Label.index, ha]⟩

/-- Only `stop` is last. -/
theorem next_lt {p : Program} (h : p.Sealed) {i : Nat} {ins : Instruction} (hi : p.code[i]? = some ins)
    (hs : ins ≠ .stop) : i + 1 < p.code.size := by
  have hlt := (Array.getElem?_eq_some_iff.1 hi).1
  rcases Nat.lt_or_ge (i + 1) p.code.size with hlt' | hge
  · exact hlt'
  · have hlast := h.ends
    rw [show p.code.size - 1 = i by omega, hi] at hlast
    exact absurd (Option.some.inj hlast) hs

/-- One step of sealed code stays inside. -/
theorem step (h : im.program.Sealed) (hpc : m.pc < im.program.code.size) :
    match im.step m with
    | .ok m' => m'.pc < im.program.code.size
    | .failed e m' => e.isInvalidJump = false ∧ m'.pc < im.program.code.size := by
  rw [Image.step_eq]
  have hi : im.program.code[m.pc]? = some im.program.code[m.pc] := Array.getElem?_eq_getElem hpc
  generalize im.program.code[m.pc] = ins at hi
  rw [hi]
  dsimp only
  by_cases hs : ins.isStraight = true
  · have hnext : m.pc + 1 < im.program.code.size := h.next_lt hi fun hstop => by rw [hstop] at hs; cases hs
    have he := answers_straight im m hs
    cases hr : im.effect m ins with
    | error e =>
      rw [hr] at he
      exact ⟨he, hpc⟩
    | ok e =>
      rw [hr] at he
      have hc := commit_straight im m (he.isStraight hs)
      dsimp only
      split at hc
      · rename_i heq
        rw [heq]
        dsimp only
        rw [hc]
        exact hnext
      · rename_i heq
        rw [heq]
        exact ⟨hc.1, by rw [hc.2]; exact hpc⟩
  · cases ins with
    | goto t =>
      obtain ⟨a, ha, hj⟩ := h.jumpTo hi rfl
      have hr : im.effect m (.goto t) = .ok (.jump a) := hj
      rw [hr]
      exact ha
    | jumpIf polarity cond t =>
      obtain ⟨a, ha, hj⟩ := h.jumpTo hi rfl
      have hnext : m.pc + 1 < im.program.code.size := h.next_lt hi nofun
      cases hc : m.registers.int cond with
      | error e =>
        have hr : im.effect m (.jumpIf polarity cond t) = .error (.missing e) := by
          simp only [Image.effect, hc]
          rfl
        rw [hr]
        exact ⟨rfl, hpc⟩
      | ok c =>
        have hr : im.effect m (.jumpIf polarity cond t) =
            if ((c != 0) == polarity) = true then .ok (.jump a) else .ok .next := by
          simp only [Image.effect, hc, hj]
          rfl
        rw [hr]
        by_cases htaken : ((c != 0) == polarity) = true
        · rw [if_pos htaken]
          exact ha
        · rw [if_neg htaken]
          exact hnext
    | nop => exact absurd hi (h.filled m.pc)
    | stop => exact hpc
    | _ => exact absurd rfl hs

/-- A run of sealed code stays inside. -/
theorem advance (h : im.program.Sealed) (n : Nat) :
    ∀ m : Machine, m.pc < im.program.code.size →
      (im.advance n m).2.pc < im.program.code.size ∧
        ∀ e, (im.advance n m).1 = .failed e → e.isInvalidJump = false := by
  induction n with
  | zero =>
    intro m hpc
    refine ⟨hpc, fun e he => ?_⟩
    simp only [Image.advance] at he
    split at he <;> cases he
  | succ n ih =>
    intro m hpc
    have hs := h.step hpc
    unfold Image.advance
    split
    · exact ⟨hpc, nofun⟩
    · cases hr : im.step m with
      | ok m' =>
        rw [hr] at hs
        exact ih m' hs
      | failed e m' =>
        rw [hr] at hs
        exact ⟨hs.2, fun _ he => by cases he; exact hs.1⟩

end Program.Sealed

/-- Lowering closes every jump: it mishandles none, its code is sealed, and no run from the first address
    leaves the code. -/
theorem compile_closes_jumps (f : Function) (env : Environment) (options : CompileOptions) :
    (∀ e, compile f env options = .error e → e.isJumpFault = false) ∧
      ∀ p, compile f env options = .ok p → p.Sealed ∧
        ∀ (im : Image) (m : Machine) (n : Nat), im.program = p → m.pc = 0 →
          (im.advance n m).2.pc < p.code.size ∧
            ∀ target pc, (im.advance n m).1 ≠ .failed (.invalidJump target pc) := by
  refine ⟨fun e he => compile_error he, fun p hp => ?_⟩
  have hsealed := compile_ok_sealed hp
  refine ⟨hsealed, fun im m n him hpc => ?_⟩
  subst him
  obtain ⟨hinside, herror⟩ := hsealed.advance n m (by rw [hpc]; exact hsealed.size_pos)
  refine ⟨hinside, fun target pc he => ?_⟩
  have := herror _ he
  cases this

/-- Waits in a loop until its parameter is set: the exit takes over the tail of the condition. -/
def spinning : Function where
  params := [.boolean]
  locals := []
  nodes := #[⟨.nullary .void, .void⟩, ⟨.param 0, .boolean⟩, ⟨.exitLoop 0, .unreachable⟩, ⟨.nullary .void, .void⟩,
    ⟨.conditional 1 2 3, .void⟩, ⟨.loop 0 0 4, .void⟩]
  body := 5
  returnType := .void

theorem compile_spinning : ∃ p, compile spinning {} {} = .ok p ∧ p.Sealed ∧
    ∀ (w : World) (n : Nat),
      ((Image.mk p {} #[]).advance n (Machine.start ⟨p, {}, #[]⟩ w)).2.pc < 3 := by
  have hp : compile spinning {} {} =
      .ok { code := #[.jumpIf true 0 (.address 2), .goto (.address 0), .stop], counts := ⟨1, 0, 0, 0, 0⟩,
            params := [⟨.int, 0⟩] } := by
    decide +kernel
  refine ⟨_, hp, ?_⟩
  obtain ⟨hsealed, hrun⟩ := (compile_closes_jumps spinning {} {}).2 _ hp
  exact ⟨hsealed, fun w n => (hrun ⟨_, {}, #[]⟩ (Machine.start ⟨_, {}, #[]⟩ w) n rfl rfl).1⟩

end SlotCode
