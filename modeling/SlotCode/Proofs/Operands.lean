/-
  SlotCode.Proofs.Operands — what instructions read, write and refer to.

  An instruction names its registers by bare slots; here each one gets its partition, so
  that code can be held against the registers of a machine. An instruction fits tables
  when its registers, texts and call sites are among them, when its classes and static
  fields are known to the environment, and when it is one that the machine can run: it
  negates, inverts and orders only what can be negated, inverted and ordered.

  Proved: code that fits keeps fitting as tables grow (`Instruction.Fits.mono`), a jump
  fits whatever its target is (`Instruction.Fits.retarget`), the instruction of an operator
  takes its registers from the partitions of its signature (`UnaryOp.takes`,
  `BinaryOp.takes`), and a name that resolves gives a number of its table.
-/

import SlotCode.Lowering.Operator

namespace SlotCode

open SlotCode.Arith

/-! ## Registers -/

namespace Instruction

/-- The registers that the instruction reads, apart from those of a call. -/
def reads : Instruction → List TypedSlot
  | .move kind _ a | .neg kind _ a | .inv kind _ a => [⟨kind, a⟩]
  | .arith .int _ _ a b => [⟨.int, a⟩, ⟨.int, b⟩]
  | .arith .long op _ a b => [⟨.long, a⟩, ⟨if op.isShift then .int else .long, b⟩]
  | .real p _ _ a b => [⟨p.kind, a⟩, ⟨p.kind, b⟩]
  | .not _ a => [⟨.int, a⟩]
  | .convert c _ a => [⟨c.source, a⟩]
  | .test _ _ a b => [⟨.int, a⟩, ⟨.int, b⟩]
  | .order kind _ a b => [⟨kind, a⟩, ⟨kind, b⟩]
  | .same _ _ a b => [⟨.object, a⟩, ⟨.object, b⟩]
  | .arrayLength _ a | .nullCheck _ a | .getField _ _ a _ | .cast _ a _ | .instanceOf _ a _ => [⟨.object, a⟩]
  | .arrayGet _ _ array index => [⟨.object, array⟩, ⟨.int, index⟩]
  | .arraySet kind array index value => [⟨.object, array⟩, ⟨.int, index⟩, ⟨kind, value⟩]
  | .lowerBound index => [⟨.int, index⟩]
  | .upperBound index array => [⟨.int, index⟩, ⟨.object, array⟩]
  | .jumpIf _ cond _ => [⟨.int, cond⟩]
  | .const .. | .text .. | .null .. | .getStatic .. | .call .. | .goto .. | .unreachable | .nop | .stop => []

/-- The register that the instruction writes, apart from that of a call. -/
def writes : Instruction → Option TypedSlot
  | .const r value => some ⟨value.kind, r⟩
  | .text r _ | .null r | .nullCheck r _ | .cast r _ _ => some ⟨.object, r⟩
  | .move kind r _ | .neg kind r _ | .inv kind r _ | .arrayGet kind r _ _ | .getField kind r _ _ | .getStatic kind r _ =>
    some ⟨kind, r⟩
  | .arith w _ r _ _ => some ⟨w.kind, r⟩
  | .real p _ r _ _ => some ⟨p.kind, r⟩
  | .convert c r _ => some ⟨c.target, r⟩
  | .not r _ | .test _ r _ _ | .order _ r _ _ | .same _ r _ _ | .arrayLength r _ | .instanceOf r _ _ => some ⟨.int, r⟩
  | .arraySet .. | .lowerBound .. | .upperBound .. | .call .. | .goto .. | .jumpIf .. | .unreachable | .nop | .stop => none

end Instruction

/-- The registers of the receiver and the arguments. -/
def CallSite.reads (c : CallSite) : List TypedSlot := c.receiver.toList.map (⟨.object, ·⟩) ++ c.args

namespace Program

/-- The registers that an instruction of the program reads. -/
def reads (p : Program) : Instruction → List TypedSlot
  | .call site => p.sites[site]?.toList.flatMap CallSite.reads
  | i => i.reads

/-- The register that an instruction of the program writes. -/
def writes (p : Program) : Instruction → Option TypedSlot
  | .call site => p.sites[site]?.bind CallSite.result
  | i => i.writes

end Program

/-! ## Tables -/

/-- The registers that there are, and how many texts and call sites. -/
structure Tables where
  has : TypedSlot → Prop
  texts : Nat
  sites : Nat

def Program.tables (p : Program) : Tables := ⟨fun x => x.slot < p.counts.get x.kind, p.texts.size, p.sites.size⟩

namespace Tables

/-- The second tables have whatever the first have. -/
structure Le (t u : Tables) : Prop where
  has : ∀ x, t.has x → u.has x
  texts : t.texts ≤ u.texts
  sites : t.sites ≤ u.sites

instance : LE Tables := ⟨Le⟩

theorem le_refl (t : Tables) : t ≤ t := ⟨fun _ hx => hx, Nat.le_refl _, Nat.le_refl _⟩

theorem le_trans {t u v : Tables} (h : t ≤ u) (h' : u ≤ v) : t ≤ v :=
  ⟨fun x hx => h'.has x (h.has x hx), Nat.le_trans h.texts h'.texts, Nat.le_trans h.sites h'.sites⟩

/-- Nothing is known to be there. -/
def empty : Tables := ⟨fun _ => False, 0, 0⟩

theorem empty_le (t : Tables) : empty ≤ t := ⟨fun _ => False.elim, Nat.zero_le _, Nat.zero_le _⟩

/-- The tables with some registers more. -/
def adding (t : Tables) (xs : List TypedSlot) : Tables := { t with has := fun x => x ∈ xs ∨ t.has x }

theorem has_adding {t : Tables} {xs : List TypedSlot} {x : TypedSlot} (h : x ∈ xs) : (t.adding xs).has x := .inl h

theorem le_adding (t : Tables) (xs : List TypedSlot) : t ≤ t.adding xs :=
  ⟨fun _ hx => .inr hx, Nat.le_refl _, Nat.le_refl _⟩

theorem adding_mono {t u : Tables} (h : t ≤ u) (xs : List TypedSlot) : t.adding xs ≤ u.adding xs :=
  ⟨fun x hx => hx.imp_right (h.has x), h.texts, h.sites⟩

theorem adding_le {t u : Tables} {xs : List TypedSlot} (h : t ≤ u) (hxs : ∀ x ∈ xs, u.has x) : t.adding xs ≤ u :=
  ⟨fun x hx => hx.elim (hxs x) (h.has x), h.texts, h.sites⟩

theorem adding_nil (t : Tables) : t.adding [] ≤ t := adding_le (le_refl t) nofun

end Tables

/-! ## Code that fits -/

/-- What the instruction refers to, apart from registers, is there, and the machine can run it. -/
def Instruction.Refers (env : Environment) (t : Tables) : Instruction → Prop
  | .text _ index => index < t.texts
  | .call site => site < t.sites
  | .getStatic _ _ field => field < env.statics.size
  | .cast _ _ target | .instanceOf _ _ target => target < env.classes.size
  | .neg kind _ _ | .order kind _ _ _ => kind ≠ .object
  | .inv kind _ _ => kind = .int ∨ kind = .long
  | .same op _ _ _ => op = .eq ∨ op = .ne
  | .nop => False
  | _ => True

structure Instruction.Fits (env : Environment) (t : Tables) (i : Instruction) : Prop where
  reads : ∀ x ∈ i.reads, t.has x
  writes : ∀ x, i.writes = some x → t.has x
  refers : i.Refers env t

structure CallSite.Fits (env : Environment) (t : Tables) (c : CallSite) : Prop where
  function : c.function < env.functions.size
  reads : ∀ x ∈ c.reads, t.has x
  result : ∀ x, c.result = some x → t.has x

/-- Everything that the program refers to is there. -/
structure Program.Fits (env : Environment) (p : Program) : Prop where
  code : ∀ (i : Nat) (ins : Instruction), p.code[i]? = some ins → ins.Fits env p.tables
  sites : ∀ (i : Nat) (site : CallSite), p.sites[i]? = some site → site.Fits env p.tables
  fixed : ∀ x ∈ p.params ++ p.vars, p.tables.has x
  result : ∀ x, p.result = some x → p.tables.has x

variable {env : Environment} {t u : Tables} {i : Instruction}

namespace Instruction

theorem Refers.mono (h : i.Refers env t) (htu : t ≤ u) : i.Refers env u := by
  cases i with
  | text _ _ => exact Nat.lt_of_lt_of_le h htu.texts
  | call _ => exact Nat.lt_of_lt_of_le h htu.sites
  | _ => exact h

theorem Fits.mono (h : i.Fits env t) (htu : t ≤ u) : i.Fits env u :=
  ⟨fun x hx => htu.has x (h.reads x hx), fun x hx => htu.has x (h.writes x hx), h.refers.mono htu⟩

theorem Fits.retarget (h : i.Fits env t) (target : Label) : (i.retarget target).Fits env t := by
  cases i with
  | goto _ => exact ⟨nofun, nofun, trivial⟩
  | jumpIf _ _ _ => exact ⟨h.reads, nofun, trivial⟩
  | _ => exact h

theorem fits_goto (target : Label) : (goto target).Fits env t := ⟨nofun, nofun, trivial⟩

end Instruction

theorem CallSite.Fits.mono {c : CallSite} (h : c.Fits env t) (htu : t ≤ u) : c.Fits env u :=
  ⟨h.function, fun x hx => htu.has x (h.reads x hx), fun x hx => htu.has x (h.result x hx)⟩

/-! ## Instructions of operators -/

section

variable {env : Environment} {k : Tables} {r a b : TypedSlot} {i : Instruction}

/-- The instruction reads and writes exactly these registers, and the machine can run it. -/
structure Instruction.Takes (i : Instruction) (sources : List TypedSlot) (r : TypedSlot) : Prop where
  reads : i.reads = sources
  writes : i.writes = some r
  refers : ∀ env t, i.Refers env t

theorem Instruction.Takes.fits {sources : List TypedSlot} (h : i.Takes sources r) (hr : k.has r)
    (hs : ∀ x ∈ sources, k.has x) : i.Fits env k :=
  ⟨h.reads ▸ hs, fun _ hx => Option.some.inj (h.writes.symm.trans hx) ▸ hr, h.refers env k⟩

theorem Instruction.takes_move {kind : Kind} (hr : kind = r.kind) (ha : kind = a.kind) :
    (Instruction.move kind r.slot a.slot).Takes [a] r :=
  ⟨by rw [ha]; rfl, by rw [hr]; rfl, fun _ _ => trivial⟩

theorem UnaryOp.takes {op : UnaryOp} (hr : op.resultType.kind? = some r.kind) (ha : op.operandType.kind? = some a.kind) :
    (op.instruction r.slot a.slot).Takes [a] r := by
  obtain ⟨_, r⟩ := r
  obtain ⟨_, a⟩ := a
  cases op with
  | invert w =>
    cases w <;> cases hr <;> cases ha
    · exact ⟨rfl, rfl, fun _ _ => .inl rfl⟩
    · exact ⟨rfl, rfl, fun _ _ => .inr rfl⟩
  | negate w => cases w <;> cases hr <;> cases ha <;> exact ⟨rfl, rfl, fun _ _ => nofun⟩
  | negateFloat p => cases p <;> cases hr <;> cases ha <;> exact ⟨rfl, rfl, fun _ _ => nofun⟩
  | convert c => cases c <;> cases hr <;> cases ha <;> exact ⟨rfl, rfl, fun _ _ => trivial⟩
  | not => cases hr; cases ha; exact ⟨rfl, rfl, fun _ _ => trivial⟩
  | arrayLength => cases hr; cases ha; exact ⟨rfl, rfl, fun _ _ => trivial⟩
  | nullCheck => cases hr; cases ha; exact ⟨rfl, rfl, fun _ _ => trivial⟩

theorem BinaryOp.takes {op : BinaryOp} {make : Slot → Slot → Slot → Instruction} (hop : op.form = .instruction make)
    (hr : op.resultType.kind? = some r.kind) (ha : op.firstType.kind? = some a.kind)
    (hb : op.secondType.kind? = some b.kind) : (make r.slot a.slot b.slot).Takes [a, b] r := by
  obtain ⟨_, r⟩ := r
  obtain ⟨_, a⟩ := a
  obtain ⟨_, b⟩ := b
  cases op with
  | arith w op =>
    cases w <;> cases hop <;> cases hr <;> cases ha
    · cases hb
      exact ⟨rfl, rfl, fun _ _ => trivial⟩
    · refine ⟨?_, rfl, fun _ _ => trivial⟩
      simp only [BinaryOp.secondType, BinaryOp.signature] at hb
      unfold Instruction.reads
      split at hb <;> cases hb <;> simp_all
  | real p op => cases p <;> cases hop <;> cases hr <;> cases ha <;> cases hb <;> exact ⟨rfl, rfl, fun _ _ => trivial⟩
  | orderFloat p => cases p <;> cases hop <;> cases hr <;> cases ha <;> cases hb <;> exact ⟨rfl, rfl, fun _ _ => nofun⟩
  | orderLong => cases hop; cases hr; cases ha; cases hb; exact ⟨rfl, rfl, fun _ _ => nofun⟩
  | test op => cases hop; cases hr; cases ha; cases hb; exact ⟨rfl, rfl, fun _ _ => trivial⟩
  | refEq => cases hop; cases hr; cases ha; cases hb; exact ⟨rfl, rfl, fun _ _ => .inl rfl⟩
  | refNe => cases hop; cases hr; cases ha; cases hb; exact ⟨rfl, rfl, fun _ _ => .inr rfl⟩
  | and => cases hop
  | or => cases hop

end

/-! ## Names that resolve -/

theorem lt_of_newest? {α : Type} {p : α → Bool} {xs : List α} : ∀ {i : Nat}, newest? p xs = some i → i < xs.length := by
  induction xs with
  | nil => nofun
  | cons x xs ih =>
    intro i hi
    unfold newest? at hi
    split at hi
    · rename_i j hj
      cases hi
      exact Nat.succ_lt_succ (ih hj)
    · split at hi
      · cases hi
        exact Nat.succ_pos _
      · cases hi

theorem ClassTable.lt_of_find? {t : ClassTable} {name : String} {id : ClassId} (h : t.find? name = some id) : id < t.size := by
  simpa using lt_of_newest? h

theorem Environment.lt_of_resolveFunction {env : Environment} {owner name : String} {id : FunctionId}
    (h : env.resolveFunction owner name = some id) : id < env.functions.size := by
  simpa using lt_of_newest? h

theorem Environment.lt_of_resolveStatic {env : Environment} {owner name : String} {id : StaticId} {type : ValueType}
    (h : env.resolveStatic owner name = some (id, type)) : id < env.statics.size := by
  obtain ⟨i, -, hi⟩ := Option.bind_eq_some_iff.1 h
  obtain ⟨field, hfield, he⟩ := Option.map_eq_some_iff.1 hi
  cases he
  exact (Array.getElem?_eq_some_iff.1 hfield).1

theorem Environment.lt_of_function {env : Environment} {id : FunctionId} {f : NativeFunction}
    (h : env.function id = .ok f) : id < env.functions.size := by
  unfold Environment.function at h
  split at h
  · rename_i hf
    exact (Array.getElem?_eq_some_iff.1 hf).1
  · cases h

end SlotCode
