/-
  SlotCode.Proofs.SparingWalk — only an assignment names the slot of a variable.

  To say which node an instruction belongs to, the walk is run with a watch: after every
  node it compares the code before and after, and stops with an alarm when a suspect node
  has emitted what stands at the address (`watchedWalk`). Unless the alarm goes off, the
  watched walk does what the walk does, and what stands at the address spares the slot.

  Proved: this for each way of lowering a node (`Walk.Guarded`), and for the walk, by
  induction on its room. A suspect is lowered as a node that may name the slot; whatever it
  emitted, the alarm is about.
-/

import SlotCode.Proofs.OrderSpec
import SlotCode.Proofs.Spared

namespace SlotCode

open Relation (ReflTransGen)

theorem Function.Reachable.children {f : Function} {id : NodeId} {n : Node} (h : f.Reachable id) (hn : f.node? id = some n) :
    ∀ c ∈ n.expr.children, f.Reachable c :=
  fun c hc => ReflTransGen.tail h (show c ∈ f.children id by rw [Function.children, hn]; exact hc)

namespace Lowering

/-! ## The watch -/

/-- Does what `act` does, and then stops with the alarm if `heard` finds cause for it. -/
def watch {α : Type} (heard : State → State → Bool) (alarm : BuildError) (act : Lower α) : Lower α := do
  let before ← get
  let a ← act
  if heard before (← get) then throw alarm else return a

/-- The walk, with a watch on every node. -/
def watchedWalk (ctx : Context) (heard : NodeId → State → State → Bool) (alarm : BuildError) : (room depth : Nat) → Walk
  | 0, depth => walk ctx 0 depth
  | room + 1, depth =>
    let inner := watchedWalk ctx heard alarm room (depth + 1)
    ⟨fun id u hint offer => watch (heard id) alarm (build ctx depth inner id u hint offer),
      fun id => watch (heard id) alarm (condition ctx depth inner id)⟩

/-- A suspect has emitted what stands at the address. -/
def emittedBy (suspect : NodeId → Bool) (address : Nat) (id : NodeId) (before after : State) : Bool :=
  suspect id && decide (before.draft.label ≤ address) && decide (address < after.draft.label)

/-! ## Two walks, one of them watched -/

/-- The watched step stops with the alarm or does what the other does, and then the slot stays spared. -/
def Shields {α : Type} (ctx : Context) (G : Guard) (act' act : Lower α) : Prop :=
  ∀ s, Spared ctx G s → act' s = .error G.alarm ∨ act' s = act s ∧ ∀ a t, act s = .ok (a, t) → Spared ctx G t

/-- Both lower a child so, with the alarm or alike. -/
structure Walk.Guarded (ctx : Context) (G : Guard) (w' w : Walk) : Prop where
  build : ∀ c, ctx.function.Reachable c → ∀ u hint offer, G.AllowsAll hint →
    Shields ctx G (w'.build c u hint offer) (w.build c u hint offer)
  condition : ∀ c, ctx.function.Reachable c → Shields ctx G (w'.condition c) (w.condition c)

variable {α β : Type} {ctx : Context} {G : Guard} {w' w : Walk} {id c first second : NodeId} {hint target : Option TypedSlot}

theorem Sparing.shields {act : Lower α} {q : α → Prop} (h : Sparing ctx G act q) : Shields ctx G act act :=
  fun _ hs => .inr ⟨rfl, fun _ _ hr => ((h ()).ok hs hr).2⟩

namespace Shields

variable {x' x : Lower α} {f' f : α → Lower β}

theorem pure {a : α} : Shields ctx G (Pure.pure a) (Pure.pure a) := Sparing.shields (q := fun _ => True) (.pure trivial)

theorem fail {e : BuildError} : Shields ctx G (throw e : Lower α) (throw e) :=
  Sparing.shields (q := fun _ => True) .fail

theorem bind (hx : Shields ctx G x' x) (hf : ∀ a, Shields ctx G (f' a) (f a)) : Shields ctx G (x' >>= f') (x >>= f) := by
  intro s hs
  simp only [Bind.bind, StateT.bind, Except.bind]
  rcases hx s hs with halarm | ⟨hsame, hspared⟩
  · rw [halarm]
    exact .inl rfl
  · rw [hsame]
    cases hr : x s with
    | error e => exact .inr ⟨rfl, nofun⟩
    | ok r => exact hf r.1 r.2 (hspared r.1 r.2 hr)

/-- First something that neither walk is needed for. -/
theorem past {q : α → Prop} (hx : Sparing ctx G x q) (hf : ∀ a, q a → Shields ctx G (f' a) (f a)) :
    Shields ctx G (x >>= f') (x >>= f) := by
  intro s hs
  simp only [Bind.bind, StateT.bind, Except.bind]
  cases hr : x s with
  | error e => exact .inr ⟨rfl, nofun⟩
  | ok r =>
    obtain ⟨hq, ht⟩ := (hx ()).ok hs hr
    exact hf r.1 hq r.2 ht

theorem ite {c : Prop} [Decidable c] {y' y : Lower α} (hx : c → Shields ctx G x' x) (hy : ¬ c → Shields ctx G y' y) :
    Shields ctx G (if c then x' else y') (if c then x else y) := by
  by_cases hc : c
  · simp only [hc, if_true]
    exact hx hc
  · simp only [hc, if_false]
    exact hy hc

theorem inRegion (h : Shields ctx G x' x) : Shields ctx G (inRegion x') (inRegion x) :=
  .past (q := fun _ => True) (Keeps.sparing (.modifyGet fun _ => rfl)) fun r _ =>
    h.bind fun _ => .past (sparing_closeRegion r) fun _ _ => .pure

end Shields

/-! ## Nodes without children -/

theorem sparing_constant {make : Slot → Instruction} (hhint : G.AllowsAll hint)
    (h : ∀ r : TypedSlot, ctx.function.kind? id = some r.kind → (make r.slot).site? = none ∧ (make r.slot).writes = some r) :
    Sparing ctx G (constant ctx id hint make) fun _ => True := by
  refine (sparing_demandedSlot hhint).bind fun r hr => ?_
  cases r with
  | none => exact .pure trivial
  | some r =>
    obtain ⟨hsite, hwrites⟩ := h r (hr.1 r rfl)
    exact (sparing_write hsite hwrites (hr.2 r rfl)).bind fun _ _ => .pure trivial

theorem sparing_text (value : String) (hhint : G.AllowsAll hint) (hkind : ctx.function.kind? id = some .object) :
    Sparing ctx G (text ctx id value hint) fun _ => True := by
  refine routine_isDemanded.sparing.bind fun _ _ => .ite (fun _ => ?_) fun _ => .pure trivial
  refine (sparing_intern value).bind fun index _ => ?_
  refine sparing_constant hhint fun r hr => ⟨rfl, ?_⟩
  rw [Instruction.writes, Option.some.inj (hkind.symm.trans hr)]

theorem sparing_nullary (op : NullaryOp) (hhint : G.AllowsAll hint) (hkind : ctx.function.kind? id = op.resultType.kind?) :
    Sparing ctx G (nullary ctx id hint op) fun _ => True := by
  cases op with
  | void => exact .pure trivial
  | null =>
    refine sparing_constant hhint fun r hr => ⟨rfl, ?_⟩
    rw [Instruction.writes, Option.some.inj (hkind.symm.trans hr)]
  | unreachable => exact (sparing_steer rfl rfl).bind fun _ _ => .pure trivial

theorem sparing_getStatic (field : FieldRef) (hhint : G.AllowsAll hint) :
    Sparing ctx G (getStatic ctx id field hint) fun _ => True := by
  unfold getStatic
  split
  · exact .fail
  · refine (checks_field (f := ctx.function) id field _).sparing.bind fun _ _ => (sparing_demandedSlot hhint).bind fun r hr => ?_
    cases r with
    | none => exact .pure trivial
    | some r => exact (sparing_write rfl rfl (hr.2 r rfl)).bind fun _ _ => .pure trivial

/-- The slot of a demanded node, and its instruction. -/
theorem sparing_result {make : TypedSlot → Instruction} (hhint : G.AllowsAll hint)
    (h : ∀ r, ctx.function.kind? id = some r.kind → (make r).site? = none ∧ (make r).writes = some r) :
    Sparing ctx G (do let r ← ctx.resultSlot id hint; emit (make r); return { slot := some r } : Lower Visited)
      fun _ => True := by
  refine (sparing_resultSlot hhint).bind fun r hr => ?_
  obtain ⟨hsite, hwrites⟩ := h r hr.1
  exact (sparing_write hsite hwrites hr.2).bind fun _ _ => .pure trivial

/-! ## Asking for children -/

theorem shields_value {offer : Option Offer} (h : Shields ctx G (w'.build c .value hint offer) (w.build c .value hint offer)) :
    Shields ctx G (w'.value c hint offer) (w.value c hint offer) := by
  refine .past routine_alloc.sparing fun _ _ => h.bind fun v => ?_
  obtain ⟨slot, taken⟩ := v
  cases slot with
  | none => exact .fail
  | some x => exact .pure

theorem shields_branchOn (h : Shields ctx G (w'.build c .value none none) (w.build c .value none none)) :
    Shields ctx G (branchOn w' c) (branchOn w c) :=
  ((shields_value h).bind fun _ => .pure).bind fun _ => .past (routine_drafting (.onSlot _)).sparing fun _ _ =>
    .past routine_release.sparing fun _ _ => .pure

namespace Walk.Guarded

variable (hw : Walk.Guarded ctx G w' w)
include hw

theorem effect (hc : ctx.function.Reachable c) (offer : Option Offer) :
    Shields ctx G (w'.effect c offer) (w.effect c offer) :=
  (hw.build c hc .ignore none offer G.allowsAll_none).bind fun _ => .pure

theorem value (hc : ctx.function.Reachable c) (hhint : G.AllowsAll hint) (offer : Option Offer) :
    Shields ctx G (w'.value c hint offer) (w.value c hint offer) := shields_value (hw.build c hc .value hint offer hhint)

theorem operand (hc : ctx.function.Reachable c) : Shields ctx G (w'.operand c) (w.operand c) :=
  (hw.value hc G.allowsAll_none none).bind fun _ => .pure

theorem operands {args : List NodeId} (h : ∀ c ∈ args, ctx.function.Reachable c) :
    Shields ctx G (args.mapM w'.operand) (args.mapM w.operand) := by
  induction args with
  | nil => exact .pure
  | cons a args ih =>
    obtain ⟨ha, hargs⟩ := List.forall_mem_cons.1 h
    rw [List.mapM_cons, List.mapM_cons]
    exact (hw.operand ha).bind fun _ => (ih hargs).bind fun _ => .pure

/-- The value is moved into a slot that may be named, or was put there. -/
theorem valueInto (hc : ctx.function.Reachable c) {target : TypedSlot} (htarget : G.Allows target) (offer : Option Offer) :
    Shields ctx G (w'.valueInto ctx c target offer) (w.valueInto ctx c target offer) := by
  unfold Walk.valueInto
  split
  · exact hw.effect hc offer
  · rename_i kind _
    have hhint : G.AllowsAll (some target) := by
      rintro _ ⟨⟩
      exact htarget
    refine .ite (fun _ => .fail) fun hkind => (hw.value hc hhint offer).bind fun r => ?_
    have done : Shields ctx G (do release c; return r.2) (do release c; return r.2) :=
      .past routine_release.sparing fun _ _ => .pure
    have hwrites : (Instruction.move kind target.slot r.1.slot).writes = some target := by
      rw [Instruction.writes, Decidable.of_not_not hkind]
    exact .ite (fun _ => .past (sparing_write rfl hwrites htarget) fun _ _ => done) fun _ => done

theorem forward (hc : ctx.function.Reachable c) (htarget : G.AllowsAll target) (offer : Option Offer) :
    Shields ctx G (w'.forward ctx c target offer) (w.forward ctx c target offer) := by
  cases target with
  | none => exact hw.effect hc offer
  | some x => exact hw.valueInto hc (htarget x rfl) offer

/-! ## Operators and data -/

theorem onOperand (hc : ctx.function.Reachable c) (hhint : G.AllowsAll hint) {make : TypedSlot → Slot → Instruction}
    (h : ∀ r a, ctx.function.kind? id = some r.kind → (make r a).site? = none ∧ (make r a).writes = some r) :
    Shields ctx G (onOperand ctx w' id c hint make) (onOperand ctx w id c hint make) := by
  refine .past routine_isDemanded.sparing fun _ _ => .ite (fun _ => ?_) fun _ => (hw.effect hc none).bind fun _ => .pure
  refine (hw.operand hc).bind fun a => .past routine_release.sparing fun _ _ => ?_
  exact (sparing_result hhint fun r => h r a.slot).shields

theorem onOperands (hfirst : ctx.function.Reachable first) (hsecond : ctx.function.Reachable second)
    (hhint : G.AllowsAll hint) {make : TypedSlot → Slot → Slot → Instruction}
    (h : ∀ r a b, ctx.function.kind? id = some r.kind → (make r a b).site? = none ∧ (make r a b).writes = some r) :
    Shields ctx G (onOperands ctx w' id first second hint make) (onOperands ctx w id first second hint make) := by
  refine .past routine_isDemanded.sparing fun _ _ => .ite (fun _ => ?_) fun _ => ?_
  · refine (hw.operand hfirst).bind fun a => (hw.operand hsecond).bind fun b => ?_
    refine .past routine_release.sparing fun _ _ => .past routine_release.sparing fun _ _ => ?_
    exact (sparing_result hhint fun r => h r a.slot b.slot).shields
  · exact (hw.effect hfirst none).bind fun _ => (hw.effect hsecond none).bind fun _ => .pure

/-- Without a reader, the operand is checked into its own register. -/
theorem nullCheck (hc : ctx.function.Reachable c) (hhint : G.AllowsAll hint) (hkind : ctx.function.kind? id = some .object) :
    Shields ctx G (nullCheck ctx w' id c hint) (nullCheck ctx w id c hint) := by
  refine (hw.operand hc).bind fun a => .past routine_release.sparing fun _ _ => .past (sparing_demandedSlot hhint) fun r hr => ?_
  have hemit : Sparing ctx G (emit (.nullCheck (r.getD a).slot a.slot)) fun _ => True := by
    cases r with
    | none => exact sparing_emit fun _ _ => .inl rfl
    | some r =>
      have hobject : Kind.object = r.kind := Option.some.inj (hkind.symm.trans (hr.1 r rfl))
      refine sparing_write rfl ?_ (hr.2 r rfl)
      rw [Instruction.writes, hobject]
      rfl
  exact .past hemit fun _ _ => .pure

theorem unary (hc : ctx.function.Reachable c) {op : UnaryOp} (hhint : G.AllowsAll hint)
    (hkind : ctx.function.kind? id = op.resultType.kind?) :
    Shields ctx G (unary ctx w' id op c hint) (unary ctx w id op c hint) := by
  refine .past (checks_expectType ctx c _).sparing fun _ _ => ?_
  have hmake : ∀ (r : TypedSlot) a, ctx.function.kind? id = some r.kind →
      (op.instruction r.slot a).site? = none ∧ (op.instruction r.slot a).writes = some r :=
    fun r a hr => ⟨by cases op <;> rfl, UnaryOp.writes_instruction (hkind.symm.trans hr) a⟩
  cases op with
  | nullCheck => exact hw.nullCheck hc hhint hkind
  | _ => exact hw.onOperand hc hhint hmake

/-- The assignment names the slot of its variable. -/
theorem setVar (hc : ctx.function.Reachable c) {index : VarId} (h : ∀ x, ctx.vars[index]? = some x → G.Allows x) :
    Shields ctx G (setVar ctx w' id index c) (setVar ctx w id index c) :=
  .past (checks_varSlot ctx id index).sparing fun target htarget => (hw.valueInto hc (h target htarget) none).bind fun _ => .pure

theorem getField (hc : ctx.function.Reachable c) (field : FieldRef) (hhint : G.AllowsAll hint) :
    Shields ctx G (getField ctx w' id field c hint) (getField ctx w id field c hint) := by
  refine .past (checks_lookup (f := ctx.function) _).sparing fun found _ => ?_
  cases found with
  | none => exact .fail
  | some r =>
    refine .past (checks_field (f := ctx.function) id field _).sparing fun _ _ => ?_
    exact .past (checks_expectType ctx c _).sparing fun _ _ => hw.onOperand hc hhint fun _ _ _ => ⟨rfl, rfl⟩

theorem arrayElement (harray : ctx.function.Reachable first) (hindex : ctx.function.Reachable second)
    (hhint : G.AllowsAll hint) :
    Shields ctx G (arrayElement ctx w' id first second hint) (arrayElement ctx w id first second hint) :=
  .past (checks_expectType ctx first _).sparing fun _ _ => .past (checks_expectType ctx second _).sparing fun _ _ =>
    hw.onOperands harray hindex hhint fun _ _ _ _ => ⟨rfl, rfl⟩

theorem cast (hc : ctx.function.Reachable c) (className : String) (hhint : G.AllowsAll hint)
    (hkind : ctx.function.kind? id = some .object) :
    Shields ctx G (cast ctx w' id c className hint) (cast ctx w id c className hint) := by
  refine .past (checks_classId ctx id className).sparing fun _ _ => .past (checks_expectType ctx c _).sparing fun _ _ => ?_
  refine hw.onOperand hc hhint fun r a hr => ⟨rfl, ?_⟩
  rw [Instruction.writes, Option.some.inj (hkind.symm.trans hr)]

theorem instanceOf (hc : ctx.function.Reachable c) (className : String) (hhint : G.AllowsAll hint)
    (hkind : ctx.function.kind? id = some .int) :
    Shields ctx G (instanceOf ctx w' id c className hint) (instanceOf ctx w id c className hint) := by
  refine .past (checks_classId ctx id className).sparing fun _ _ => .past (checks_expectType ctx c _).sparing fun _ _ => ?_
  refine hw.onOperand hc hhint fun r a hr => ⟨rfl, ?_⟩
  rw [Instruction.writes, Option.some.inj (hkind.symm.trans hr)]

theorem setArrayElement {array index value : NodeId} (harray : ctx.function.Reachable array)
    (hindex : ctx.function.Reachable index) (hvalue : ctx.function.Reachable value) :
    Shields ctx G (setArrayElement ctx w' array index value) (setArrayElement ctx w array index value) := by
  refine .past (checks_expectType ctx array _).sparing fun _ _ => .past (checks_expectType ctx index _).sparing fun _ _ => ?_
  refine (hw.operand harray).bind fun a => (hw.operand hindex).bind fun i => (hw.operand hvalue).bind fun v => ?_
  refine .past routine_release.sparing fun _ _ => .past routine_release.sparing fun _ _ => ?_
  exact .past routine_release.sparing fun _ _ => .past (sparing_steer rfl rfl) fun _ _ => .pure

theorem upperBound (hc : ctx.function.Reachable c) (index : TypedSlot) (lower : Bool) :
    Shields ctx G (upperBound ctx w' index lower c) (upperBound ctx w index lower c) := by
  refine .past (checks_expectType ctx c _).sparing fun _ _ => (hw.operand hc).bind fun a => ?_
  have rest : Sparing ctx G (do emit (.upperBound index.slot a.slot); release c) fun _ => True :=
    (sparing_steer rfl rfl).bind fun _ _ => routine_release.sparing
  exact .ite (fun _ => .past (sparing_steer rfl rfl) fun _ _ => rest.shields) fun _ => rest.shields

theorem boundsCheck {index : NodeId} {array : Option NodeId} (hindex : ctx.function.Reachable index)
    (harray : ∀ a, array = some a → ctx.function.Reachable a) (lower : Bool) (hhint : G.AllowsAll hint)
    (hkind : ctx.function.kind? id = some .int) :
    Shields ctx G (boundsCheck ctx w' id index array lower hint) (boundsCheck ctx w id index array lower hint) := by
  refine .past (checks_expectType ctx index _).sparing fun _ _ => (hw.operand hindex).bind fun i => ?_
  have result : Sparing ctx G (checkedIndex ctx id index hint i) fun _ => True := by
    refine routine_release.sparing.bind fun _ _ => (sparing_demandedSlot hhint).bind fun r hr => ?_
    cases r with
    | none => exact .pure trivial
    | some r =>
      have hwrites : (Instruction.move .int r.slot i.slot).writes = some r := by
        rw [Instruction.writes, Option.some.inj (hkind.symm.trans (hr.1 r rfl))]
      exact .ite (fun _ => (sparing_write rfl hwrites (hr.2 r rfl)).bind fun _ _ => .pure trivial) fun _ => .pure trivial
  cases array with
  | some array => exact (hw.upperBound (harray array rfl) i lower).bind fun _ => result.shields
  | none => exact .ite (fun _ => .past (sparing_steer rfl rfl) fun _ _ => result.shields) fun _ => result.shields

theorem call (method : MethodRef) (kind : CallKind) {args : List NodeId} (hargs : ∀ c ∈ args, ctx.function.Reachable c)
    (hhint : G.AllowsAll hint) :
    Shields ctx G (call ctx w' id method kind args hint) (call ctx w id method kind args hint) := by
  unfold Lowering.call
  split
  · exact .fail
  · refine .past (checks_lookup (f := ctx.function) _).sparing fun native _ => ?_
    refine .past (checks_call (f := ctx.function) id method kind native _).sparing fun _ _ => ?_
    refine .past (checks_arguments ctx _).sparing fun _ _ => (hw.operands hargs).bind fun slots => ?_
    refine .past (routine_releaseAll _).sparing fun _ _ => .past (sparing_demandedSlot hhint) fun result hresult => ?_
    exact Sparing.shields (sparing_call ⟨_, _, _, result⟩ hresult.2 _)

/-! ## Conditions -/

theorem compose {k : Connective} (h : ∀ c ∈ k.operands, ctx.function.Reachable c) :
    Shields ctx G (compose w' k) (compose w k) := by
  cases k with
  | not operand => exact (hw.condition operand (h _ (by simp [Connective.operands]))).bind fun _ => .pure
  | shortCircuit decisive first second =>
    refine (hw.condition first (h _ (by simp [Connective.operands]))).bind fun b => ?_
    refine .past (routine_drafting (.defer _ _)).sparing fun decided _ => ?_
    exact (Shields.inRegion (hw.condition second (h _ (by simp [Connective.operands])))).bind fun _ => .pure

theorem logicalValue {k : Connective} (h : ∀ c ∈ k.operands, ctx.function.Reachable c) (hhint : G.AllowsAll hint)
    (hkind : ctx.function.kind? id = some .int) :
    Shields ctx G (logicalValue ctx w' id k hint) (logicalValue ctx w id k hint) := by
  refine (hw.compose h).bind fun b => .past routine_isDemanded.sparing fun _ _ => .ite (fun _ => ?_) fun _ => ?_
  · refine .past (routine_drafting (.defer _ _)).sparing fun whenFalse _ => .past (sparing_resultSlot hhint) fun r hr => ?_
    have hwrites : ∀ v, (Instruction.const r.slot (.int v)).writes = some r := fun v => by
      rw [Instruction.writes, Arith.Scalar.kind, Option.some.inj (hkind.symm.trans hr.1)]
    refine .past (sparing_write rfl (hwrites 1) hr.2) fun _ _ => .past routine_gotoPending.sparing fun skip _ => ?_
    refine .past routine_label.sparing fun _ _ => .past (routine_drafting (.patchAll _ _)).sparing fun _ _ => ?_
    refine .past (sparing_write rfl (hwrites 0) hr.2) fun _ _ => .past routine_label.sparing fun _ _ => ?_
    exact .past (routine_drafting (.patch _ _)).sparing fun _ _ => .pure
  · exact .past routine_label.sparing fun _ _ => .past (routine_drafting (.resolve _ _ _)).sparing fun _ _ => .pure

theorem binary {op : BinaryOp} (hfirst : ctx.function.Reachable first) (hsecond : ctx.function.Reachable second)
    (hhint : G.AllowsAll hint) (hkind : ctx.function.kind? id = op.resultType.kind?) :
    Shields ctx G (binary ctx w' id op first second hint) (binary ctx w id op first second hint) := by
  unfold Lowering.binary
  cases hform : op.form with
  | instruction make =>
    refine .past (checks_expectType ctx first _).sparing fun _ _ => .past (checks_expectType ctx second _).sparing fun _ _ => ?_
    exact hw.onOperands hfirst hsecond hhint fun r a b hr => BinaryOp.writes_form hform (hkind.symm.trans hr) a b
  | shortCircuit decisive =>
    refine hw.logicalValue (by simp [Connective.operands, hfirst, hsecond]) hhint (hkind.trans ?_)
    cases op with
    | and => rfl
    | or => rfl
    | _ => cases hform

/-! ## Control -/

theorem sequence (hfirst : ctx.function.Reachable first) (hsecond : ctx.function.Reachable second)
    (hhint : G.AllowsAll hint) (offer : Option Offer) :
    Shields ctx G (sequence ctx w' id first second hint offer) (sequence ctx w id first second hint offer) :=
  (hw.effect hfirst none).bind fun _ => .past (sparing_demandedSlot hhint) fun _ htarget =>
    (hw.forward hsecond htarget.2 offer).bind fun _ => .pure

theorem arm (hc : ctx.function.Reachable c) (htarget : G.AllowsAll target) (offer : Option Offer) :
    Shields ctx G (arm ctx w' c target offer) (arm ctx w c target offer) := .inRegion (hw.forward hc htarget offer)

theorem block (hc : ctx.function.Reachable c) (name : BlockId) (hhint : G.AllowsAll hint) :
    Shields ctx G (block ctx w' id name c hint) (block ctx w id name c hint) :=
  .past (sparing_demandedSlot hhint) fun _ htarget => .past (Routine.update fun _ hs => .frames hs _ _).sparing fun _ _ =>
    (hw.arm hc htarget.2 none).bind fun _ => .past routine_closeBlock.sparing fun _ _ => .pure

theorem loop (hpre : ctx.function.Reachable first) (hbody : ctx.function.Reachable second) (name : LoopId) :
    Shields ctx G (loop ctx w' name first second) (loop ctx w name first second) := by
  refine (hw.effect hpre none).bind fun _ => .past routine_label.sparing fun _ _ => ?_
  refine .past (Routine.update fun _ hs => .frames hs _ _).sparing fun _ _ => ?_
  refine (Shields.inRegion (hw.effect hbody none)).bind fun _ => ?_
  refine .past (checks_node ctx second).sparing fun n _ => ?_
  have done : Shields ctx G (do closeLoop; return {} : Lower Visited) (do closeLoop; return {}) :=
    .past routine_closeLoop.sparing fun _ _ => .pure
  exact .ite (fun _ => .past (sparing_steer rfl rfl) fun _ _ => done) fun _ => done

theorem elseOnly (hc : ctx.function.Reachable c) (htarget : G.AllowsAll target) (b : Branch) (position : Nat) :
    Shields ctx G (elseOnly ctx w' b position c target) (elseOnly ctx w b position c target) :=
  (hw.arm hc htarget _).bind fun _ => .ite
    (fun _ => .past routine_label.sparing fun _ _ => (routine_drafting (.resolve _ _ _)).sparing.shields) fun _ => .pure

theorem bothArms (hc : ctx.function.Reachable c) (htarget : G.AllowsAll target) (b : Branch) (thenArm : NodeId) :
    Shields ctx G (bothArms ctx w' b thenArm c target) (bothArms ctx w b thenArm c target) := by
  refine .past (checks_node ctx thenArm).sparing fun n _ => ?_
  have rest : ∀ skip : Option Patch, Shields ctx G (secondArm ctx w' b c target skip) (secondArm ctx w b c target skip) := by
    intro skip
    refine .past routine_label.sparing fun _ _ => .past (routine_drafting (.resolve _ _ _)).sparing fun _ _ => ?_
    refine (hw.arm hc htarget none).bind fun _ => ?_
    cases skip with
    | none => exact .pure
    | some jump => exact .past routine_label.sparing fun _ _ => (routine_drafting (.patch _ _)).sparing.shields
  refine .ite (fun _ => .past (q := fun _ => True) ?_ fun skip _ => rest skip)
    fun _ => .past (q := fun _ => True) (.pure trivial) fun skip _ => rest skip
  exact routine_gotoPending.sparing.bind fun _ _ => .pure trivial

theorem conditional {condition : NodeId} (hcond : ctx.function.Reachable condition)
    (hthen : ctx.function.Reachable first) (helse : ctx.function.Reachable second) (hhint : G.AllowsAll hint) :
    Shields ctx G (conditional ctx w' id condition first second hint) (conditional ctx w id condition first second hint) := by
  refine .past (sparing_demandedSlot hhint) fun target htarget => (hw.condition condition hcond).bind fun b => ?_
  refine .past routine_label.sparing fun position _ => (hw.arm hthen htarget.2 _).bind fun taken => ?_
  refine .ite (fun _ => (hw.arm helse htarget.2 none).bind fun _ => .pure) fun _ => .past routine_label.sparing fun here _ => ?_
  exact .ite (fun _ => (hw.elseOnly helse htarget.2 b position).bind fun _ => .pure)
    fun _ => (hw.bothArms helse htarget.2 b first).bind fun _ => .pure

/-! ## One node -/

theorem visit (hf : ctx.function.WellTyped) (hid : ctx.function.Reachable id) (hhint : G.AllowsAll hint)
    (offer : Option Offer) (hset : ∀ n index value, ctx.function.node? id = some n → n.expr = .setVar index value →
      ∀ x, ctx.vars[index]? = some x → G.Allows x) :
    Shields ctx G (visit ctx w' id hint offer) (visit ctx w id hint offer) := by
  refine .past (checks_node ctx id).sparing fun n hn => ?_
  have hchild := hid.children hn
  have hkind : ∀ {type}, n.expr.fixedType? ctx.function.scope = .ok (some type) → ctx.function.kind? id = type.kind? :=
    fun h => hf.kind hn h
  obtain ⟨e, type⟩ := n
  cases e with
  | sequence first second =>
    exact hw.sequence (hchild first (by simp [Expr.children, Expr.edges])) (hchild second (by simp [Expr.children, Expr.edges]))
      hhint offer
  | block name body => exact hw.block (hchild body (by simp [Expr.children, Expr.edges])) name hhint
  | exitBlock name => exact (routine_exitBlock name offer).sparing.shields
  | loop name preheader body =>
    exact hw.loop (hchild preheader (by simp [Expr.children, Expr.edges]))
      (hchild body (by simp [Expr.children, Expr.edges])) name
  | exitLoop name => exact (routine_exitLoop name offer).sparing.shields
  | continueLoop name => exact (routine_continueLoop name offer).sparing.shields
  | conditional condition thenArm elseArm =>
    exact hw.conditional (hchild condition (by simp [Expr.children, Expr.edges]))
      (hchild thenArm (by simp [Expr.children, Expr.edges]))
      (hchild elseArm (by simp [Expr.children, Expr.edges])) hhint
  | nullary op => exact (sparing_nullary op hhint (hkind rfl)).shields
  | unary op operand => exact hw.unary (hchild operand (by simp [Expr.children, Expr.edges])) hhint (hkind rfl)
  | binary op first second =>
    exact hw.binary (hchild first (by simp [Expr.children, Expr.edges])) (hchild second (by simp [Expr.children, Expr.edges]))
      hhint (hkind rfl)
  | const value =>
    refine (sparing_constant hhint fun r hr => ⟨rfl, ?_⟩).shields
    have hvalue : value.kind = r.kind := by cases value <;> exact Option.some.inj ((hkind rfl).symm.trans hr)
    rw [Instruction.writes, hvalue]
  | text value => exact (sparing_text value hhint (hkind rfl)).shields
  | param index => exact (routine_param index).sparing.shields
  | getVar index => exact (routine_getVar index).sparing.shields
  | setVar index value =>
    exact hw.setVar (hchild value (by simp [Expr.children, Expr.edges])) (hset _ index value hn rfl)
  | getField field object => exact hw.getField (hchild object (by simp [Expr.children, Expr.edges])) field hhint
  | getStatic field => exact (sparing_getStatic field hhint).shields
  | call method kind args =>
    exact hw.call method kind (fun c hc => hchild c (by simpa [Expr.children, Expr.edges] using hc)) hhint
  | arrayElement array index =>
    exact hw.arrayElement (hchild array (by simp [Expr.children, Expr.edges]))
      (hchild index (by simp [Expr.children, Expr.edges]))
      hhint
  | setArrayElement array index value =>
    exact hw.setArrayElement (hchild array (by simp [Expr.children, Expr.edges]))
      (hchild index (by simp [Expr.children, Expr.edges]))
      (hchild value (by simp [Expr.children, Expr.edges]))
  | cast value className =>
    exact hw.cast (hchild value (by simp [Expr.children, Expr.edges])) className hhint (hkind rfl)
  | instanceOf value className =>
    exact hw.instanceOf (hchild value (by simp [Expr.children, Expr.edges])) className hhint (hkind rfl)
  | boundsCheck index array lower =>
    refine hw.boundsCheck (hchild index (by simp [Expr.children, Expr.edges])) (fun a ha => hchild a ?_) lower hhint (hkind rfl)
    simp [Expr.children, Expr.edges, ha]
  | _ => exact .fail

/-! ## The walk -/

end Walk.Guarded

variable {s : State}

theorem shields_entering {slot : α → Option TypedSlot} {act' act : Lower α} (depth : Nat) (h : Shields ctx G act' act) :
    Shields ctx G (entering ctx depth id slot act') (entering ctx depth id slot act) := by
  refine .ite (fun _ => .fail) fun _ => .past (sparing_setProgress .underway) fun _ _ => h.bind fun a => ?_
  refine .past (checks_node ctx id).sparing fun n _ => .past (routine_regionOf n.expr).sparing fun region _ => ?_
  exact .past (sparing_setProgress _) fun _ _ => .pure

theorem shields_build (hw : w'.Guarded ctx G w) (hf : ctx.function.WellTyped) (hid : ctx.function.Reachable id)
    (hset : ∀ n index value, ctx.function.node? id = some n → n.expr = .setVar index value →
      ∀ x, ctx.vars[index]? = some x → G.Allows x) (depth : Nat) (u : Usage) (hhint : G.AllowsAll hint)
    (offer : Option Offer) :
    Shields ctx G (build ctx depth w' id u hint offer) (build ctx depth w id u hint offer) := by
  have hlook : Sparing ctx G (nodeState id) fun _ => True := Keeps.sparing fun _ => rfl
  refine .past hlook fun n _ => ?_
  obtain ⟨progress, _, _⟩ := n
  cases progress with
  | underway => exact .fail
  | built slot region =>
    refine .past Upholds.get fun s _ => .ite (fun _ => .fail) fun _ => ?_
    exact .past (sparing_consume u) fun _ _ => (routine_checkSlot u _).sparing.shields
  | untouched =>
    refine .past (sparing_consume u) fun _ _ => ?_
    exact (shields_entering depth (hw.visit hf hid hhint offer hset)).bind fun v => (routine_checkSlot u v).sparing.shields

theorem shields_condition (hw : w'.Guarded ctx G w) (hf : ctx.function.WellTyped) (hid : ctx.function.Reachable id)
    (hset : ∀ n index value, ctx.function.node? id = some n → n.expr = .setVar index value →
      ∀ x, ctx.vars[index]? = some x → G.Allows x) (depth : Nat) :
    Shields ctx G (condition ctx depth w' id) (condition ctx depth w id) := by
  refine .past (checks_expectType ctx id _).sparing fun _ _ => .past (checks_composable ctx id).sparing fun k hk => ?_
  cases k with
  | some c =>
    obtain ⟨n, hn, hc⟩ := hk c rfl
    refine .past (sparing_consume .value) fun _ _ => shields_entering depth (hw.compose fun x hx => ?_)
    exact hid.children hn x (Expr.operands_connective hc ▸ hx)
  | none =>
    have hbranch : Shields ctx G (branchOn { w' with build := build ctx depth w' } id)
        (branchOn { w with build := build ctx depth w } id) :=
      shields_branchOn (shields_build hw hf hid hset depth .value G.allowsAll_none none)
    exact hbranch

/-! ## The watch at work -/

theorem watch_run {heard : State → State → Bool} {alarm : BuildError} {act : Lower α} {a : α} {t : State}
    (h : act s = .ok (a, t)) : watch heard alarm act s = if heard s t then .error alarm else .ok (a, t) := by
  simp only [watch, Bind.bind, StateT.bind, Except.bind, MonadState.get, getThe, MonadStateOf.get, StateT.get,
    Pure.pure, Except.pure, h]
  split <;> rfl

theorem watch_error {heard : State → State → Bool} {alarm e : BuildError} {act : Lower α} (h : act s = .error e) :
    watch heard alarm act s = .error e := by
  simp only [watch, Bind.bind, StateT.bind, Except.bind, MonadState.get, getThe, MonadStateOf.get, StateT.get,
    Pure.pure, Except.pure, h]

/-- A watch that hears nothing is no watch. -/
theorem watch_deaf {heard : State → State → Bool} {alarm : BuildError} (h : ∀ s t, heard s t = false) (act : Lower α) :
    watch heard alarm act = act := by
  funext s
  cases hr : act s with
  | error e => exact watch_error hr
  | ok r => rw [watch_run (a := r.1) (t := r.2) hr, h]; rfl

theorem Shields.watch {act' act : Lower α} (h : Shields ctx G act' act) (heard : State → State → Bool) :
    Shields ctx G (watch heard G.alarm act') act := by
  intro s hs
  rcases h s hs with halarm | ⟨hsame, hspared⟩
  · exact .inl (watch_error halarm)
  · cases hr : act s with
    | error e => exact .inr ⟨watch_error (hsame.trans hr), nofun⟩
    | ok r =>
      obtain ⟨a, t⟩ := r
      rw [watch_run (hsame.trans hr)]
      split
      · exact .inl rfl
      · refine .inr ⟨rfl, fun b u hu => ?_⟩
        cases hu
        exact hspared a t hr

/-- A suspect may name the slot; the alarm is about all that it emitted. -/
theorem shields_suspect {suspect : NodeId → Bool} {act' act : Lower α} (hid : suspect id = true) (hnone : G.since = none)
    (h : ∀ start, Shields ctx { G with since := some start } act' act) :
    Shields ctx G (watch (emittedBy suspect G.address id) G.alarm act') act := by
  intro s hs
  have hwithin : Spared ctx { G with since := some s.draft.label } s := by
    refine ⟨hs.fixed, hs.pool, hs.clean, ?_, fun _ => hs.spared (by rw [hnone]; exact nofun)⟩
    rintro _ ⟨⟩
    exact Nat.le_refl _
  rcases h s.draft.label s hwithin with halarm | ⟨hsame, hspared⟩
  · exact .inl (watch_error halarm)
  · cases hr : act s with
    | error e => exact .inr ⟨watch_error (hsame.trans hr), nofun⟩
    | ok r =>
      obtain ⟨a, t⟩ := r
      rw [watch_run (hsame.trans hr)]
      split
      · exact .inl rfl
      · rename_i hheard
        refine .inr ⟨rfl, fun b u hu => ?_⟩
        cases hu
        have ht := hspared a t hr
        refine ⟨ht.fixed, ht.pool, ht.clean, by rw [hnone]; exact nofun, fun _ i hi => ?_⟩
        -- What stands at the address stood there before the suspect was lowered.
        have hearly : G.address < s.draft.label := by
          have hlt : G.address < t.draft.label := Draft.lt_of_getElem? hi
          simp only [emittedBy, hid, Bool.true_and, Bool.and_eq_true, decide_eq_true_eq] at hheard
          omega
        refine ht.spared ?_ i hi
        rintro _ ⟨⟩
        exact hearly

/-- Every assignment that names the slot is under suspicion. -/
def Suspected (ctx : Context) (x : TypedSlot) (suspect : NodeId → Bool) : Prop :=
  ∀ id n index value, ctx.function.Reachable id → ctx.function.node? id = some n → n.expr = .setVar index value →
    ctx.vars[index]? = some x → suspect id = true

theorem watchedWalk_guarded (hf : ctx.function.WellTyped) {x : TypedSlot} {suspect : NodeId → Bool} (hx : Suspected ctx x suspect)
    (address : Nat) (alarm : BuildError) (room : Nat) : ∀ depth since,
      (watchedWalk ctx (emittedBy suspect address) alarm room depth).Guarded ctx ⟨x, address, since, alarm⟩
        (walk ctx room depth) := by
  induction room with
  | zero => exact fun _ _ => ⟨fun _ _ _ _ _ _ => .fail, fun _ _ => .fail⟩
  | succ room ih =>
    intro depth since
    have hwithin : ∀ (start : Nat) y, Guard.Allows ⟨x, address, some start, alarm⟩ y := fun _ _ _ => nofun
    have hinner := ih (depth + 1)
    cases since with
    | some start =>
      refine ⟨fun c hc u hint offer _ => ?_, fun c hc => ?_⟩
      · exact (shields_build (hinner _) hf hc (fun _ _ _ _ _ y _ => hwithin start y) depth u
          (fun y _ => hwithin start y) offer).watch _
      · exact (shields_condition (hinner _) hf hc (fun _ _ _ _ _ y _ => hwithin start y) depth).watch _
    | none =>
      have hset : ∀ c, ctx.function.Reachable c → suspect c = false → ∀ n index value, ctx.function.node? c = some n →
          n.expr = .setVar index value → ∀ y, ctx.vars[index]? = some y → Guard.Allows ⟨x, address, none, alarm⟩ y := by
        intro c hc hclear n index value hn he y hy hsame
        rw [hx c n index value hc hn he (hy.trans (congrArg some hsame))] at hclear
        cases hclear
      refine ⟨fun c hc u hint offer hhint => ?_, fun c hc => ?_⟩
      · cases hsuspect : suspect c with
        | false => exact (shields_build (hinner none) hf hc (hset c hc hsuspect) depth u hhint offer).watch _
        | true =>
          exact shields_suspect (G := ⟨x, address, none, alarm⟩) hsuspect rfl fun start =>
            shields_build (hinner (some start)) hf hc (fun _ _ _ _ _ y _ => hwithin start y) depth u
              (fun y _ => hwithin start y) offer
      · cases hsuspect : suspect c with
        | false => exact (shields_condition (hinner none) hf hc (hset c hc hsuspect) depth).watch _
        | true =>
          exact shields_suspect (G := ⟨x, address, none, alarm⟩) hsuspect rfl fun start =>
            shields_condition (hinner (some start)) hf hc (fun _ _ _ _ _ y _ => hwithin start y) depth

/-- Without suspects the watched walk is the walk. -/
theorem watchedWalk_deaf (address : Nat) (alarm : BuildError) (room : Nat) : ∀ depth,
    watchedWalk ctx (emittedBy (fun _ => false) address) alarm room depth = walk ctx room depth := by
  have hdeaf : ∀ (id : NodeId) (s t : State), emittedBy (fun _ => false) address id s t = false := fun _ _ _ => rfl
  induction room with
  | zero => exact fun _ => rfl
  | succ room ih =>
    intro depth
    simp only [watchedWalk, walk, ih, watch_deaf (hdeaf _)]

end Lowering

end SlotCode
