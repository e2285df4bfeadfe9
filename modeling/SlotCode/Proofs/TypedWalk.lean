/-
  SlotCode.Proofs.TypedWalk — the whole walk keeps slots typed and code fitting.

  One lemma for each way of lowering a node, under the assumption that its children are
  lowered so (`Walk.Types`), and then the walk itself, by induction on its room. Operands
  are checked against the type that the operator wants and the result against the type
  that the expression gives, so both slots are of the partitions that the instruction
  takes them from.
-/

import SlotCode.Proofs.OpenJumps
import SlotCode.Proofs.TypedBooks

namespace SlotCode.Lowering

open SlotCode.Arith

/-- The nodes, parameters and variables have the kinds that their declarations say. -/
structure Context.Typed (ctx : Context) : Prop where
  nodes : ctx.function.WellTyped
  params : ctx.function.params.map ValueType.kind? = ctx.params.map fun x => some x.kind
  vars : ctx.function.locals.map ValueType.kind? = ctx.vars.map fun x => some x.kind

/-- The tail of an offered condition is known to be an int slot. -/
def Offered (k : Tables) (offer : Option Offer) : Prop := ∀ o, offer = some o → k.has ⟨.int, o.branch.tail.cond⟩

theorem Offered.mono {k k' : Tables} {offer : Option Offer} (h : Offered k offer) (hk : k ≤ k') : Offered k' offer :=
  fun o ho => hk.has _ (h o ho)

theorem offered_none {k : Tables} : Offered k none := nofun

theorem offered_offer {ctx : Context} {k : Tables} {b : Branch} (position : Nat) (polarity : Bool)
    (hb : k.has ⟨.int, b.tail.cond⟩) : Offered k (ctx.offer position b polarity) := by
  intro o ho
  unfold Context.offer at ho
  split at ho
  · cases ho
    exact hb
  · cases ho

/-- The node's value, if there is one, is in a slot of the node's kind. -/
def Gives (ctx : Context) (k : Tables) (id : NodeId) (slot : Option TypedSlot) (s : State) : Prop :=
  (∀ x, slot = some x → ctx.function.kind? id = some x.kind) ∧ Typed ctx (k.adding slot.toList) s

/-- Children are lowered into slots of their kinds. -/
structure Walk.Types (ctx : Context) (w : Walk) : Prop where
  build : ∀ k id u hint offer, Holds k hint → Offered k offer →
    Meets (Lowering.Typed ctx k) (w.build id u hint offer) (fun v => Gives ctx k id v.slot) Anyhow
  condition : ∀ k id, Meets (Lowering.Typed ctx k) (w.condition id)
    (fun b => Lowering.Typed ctx (k.adding [⟨.int, b.tail.cond⟩])) Anyhow

variable {α β : Type} {w : Walk} {ctx : Context} {k k' : Tables} {id : NodeId} {hint : Option TypedSlot}
  {offer : Option Offer} {s : State}

theorem Gives.weaken {slot : Option TypedSlot} (h : Gives ctx k' id slot s) (hk : k ≤ k') : Gives ctx k id slot s :=
  ⟨h.1, h.2.weaken (Tables.adding_mono hk _)⟩

theorem Typed.gives_none (h : Typed ctx k' s) (hk : k ≤ k') : Gives ctx k id none s :=
  ⟨nofun, h.weaken (Tables.le_trans (Tables.adding_nil k) hk)⟩

theorem Typed.gives_some {x : TypedSlot} (h : Typed ctx k' s) (hk : k ≤ k') (hx : k'.has x)
    (hkind : ctx.function.kind? id = some x.kind) : Gives ctx k id (some x) s := by
  refine ⟨fun y hy => Option.some.inj hy ▸ hkind, h.weaken (Tables.adding_le hk fun y hy => ?_)⟩
  obtain rfl := List.mem_singleton.1 hy
  exact hx

/-! ## Asking for children -/

namespace Walk.Types

variable (hw : w.Types ctx)
include hw

theorem effect (id : NodeId) (hoffer : Offered k offer) :
    Meets (Typed ctx k) (w.effect id offer) (fun _ => Typed ctx k) Anyhow :=
  (hw.build k id .ignore none offer nofun hoffer).bind fun _ => .pure fun _ hs => hs.2.weaken (Tables.le_adding _ _)

theorem effect_none (id : NodeId) : Meets (Typed ctx k) (w.effect id) (fun _ => Typed ctx k) Anyhow :=
  hw.effect id nofun

theorem value (id : NodeId) (hint : Option TypedSlot) (offer : Option Offer) (hhint : Holds k hint)
    (hoffer : Offered k offer) :
    Meets (Typed ctx k) (w.value id hint offer)
      (fun r s => ctx.function.kind? id = some r.1.kind ∧ Typed ctx (k.adding [r.1]) s) Anyhow := by
  refine typed_alloc.bind fun _ => (hw.build k id .value hint offer hhint hoffer).bind fun v => ?_
  split
  · rename_i slot hslot
    refine .pure fun s hs => ?_
    rw [hslot] at hs
    exact ⟨hs.1 slot rfl, hs.2⟩
  · exact .fail trivial

theorem operand (id : NodeId) :
    Meets (Typed ctx k) (w.operand id)
      (fun a s => ctx.function.kind? id = some a.kind ∧ Typed ctx (k.adding [a]) s) Anyhow :=
  (hw.value id none none nofun nofun).bind fun _ => .pure fun _ hs => hs

theorem valueInto (id : NodeId) {target : TypedSlot} (htarget : k.has target) (hoffer : Offered k offer) :
    Meets (Typed ctx k) (w.valueInto ctx id target offer) (fun _ => Typed ctx k) Anyhow := by
  unfold Walk.valueInto
  split
  · exact hw.effect id hoffer
  · rename_i kind hkind
    split
    · exact .fail trivial
    · rename_i hsame
      have hhint : Holds k (some target) := fun x hx => Option.some.inj hx ▸ htarget
      refine (hw.value id (some target) offer hhint hoffer).bind fun r => .given fun hr => ?_
      have done : Meets (Typed ctx (k.adding [r.1])) (do release id; return r.2) (fun _ => Typed ctx k) Anyhow :=
        typed_release.bind fun _ => .pure fun _ hs => hs.weaken (Tables.le_adding _ _)
      dsimp only
      split
      · have htakes : (Instruction.move kind target.slot r.1.slot).Takes [r.1] target :=
          Instruction.takes_move (by simpa using hsame) (Option.some.inj (hkind.symm.trans hr))
        have hfits : (Instruction.move kind target.slot r.1.slot).Fits ctx.env (k.adding [r.1]) :=
          htakes.fits (.inr htarget) (List.forall_mem_singleton.2 (.inl List.mem_cons_self))
        exact (typed_emit hfits).bind fun _ => done
      · exact done

theorem forward (id : NodeId) {target : Option TypedSlot} (htarget : Holds k target) (hoffer : Offered k offer) :
    Meets (Typed ctx k) (w.forward ctx id target offer) (fun _ => Typed ctx k) Anyhow := by
  cases target with
  | none => exact hw.effect id hoffer
  | some target => exact hw.valueInto id (htarget target rfl) hoffer

/-! ## Operators -/

/-- `make` turns slots of the node's and the operand's kinds into an instruction that takes them. -/
theorem onOperand (operand : NodeId) (hhint : Holds k hint) {make : TypedSlot → Slot → Instruction}
    (hm : ∀ k (r a : TypedSlot), ctx.function.kind? id = some r.kind → ctx.function.kind? operand = some a.kind →
      k.has r → k.has a → (make r a.slot).Fits ctx.env k) :
    Meets (Typed ctx k) (onOperand ctx w id operand hint make) (fun v => Gives ctx k id v.slot) Anyhow := by
  refine typed_isDemanded.bind fun d => ?_
  split
  · refine (hw.operand operand).bind fun a => .given fun ha => typed_release.bind fun _ => ?_
    refine (typed_resultSlot (hhint.mono (Tables.le_adding _ _))).bind fun r => .given fun hr => ?_
    have hmem : ((k.adding [a]).adding [r]).has r := .inl List.mem_cons_self
    refine (typed_emit (hm _ r a hr ha hmem (.inr (.inl List.mem_cons_self)))).bind fun _ => .pure fun s hs => ?_
    exact hs.gives_some (Tables.le_trans (Tables.le_adding k _) (Tables.le_adding _ _)) hmem hr
  · exact (hw.effect_none operand).bind fun _ => .pure fun s hs => hs.gives_none (Tables.le_refl k)

theorem onOperands (first second : NodeId) (hhint : Holds k hint) {make : TypedSlot → Slot → Slot → Instruction}
    (hm : ∀ k (r a b : TypedSlot), ctx.function.kind? id = some r.kind → ctx.function.kind? first = some a.kind →
      ctx.function.kind? second = some b.kind → k.has r → k.has a → k.has b → (make r a.slot b.slot).Fits ctx.env k) :
    Meets (Typed ctx k) (onOperands ctx w id first second hint make) (fun v => Gives ctx k id v.slot) Anyhow := by
  refine typed_isDemanded.bind fun d => ?_
  split
  · refine (hw.operand first).bind fun a => .given fun ha => (hw.operand second).bind fun b => .given fun hb => ?_
    refine typed_release.bind fun _ => typed_release.bind fun _ => ?_
    refine (typed_resultSlot ((hhint.mono (Tables.le_adding _ _)).mono (Tables.le_adding _ _))).bind fun r => .given fun hr => ?_
    have hmem : (((k.adding [a]).adding [b]).adding [r]).has r := .inl List.mem_cons_self
    refine (typed_emit (hm _ r a b hr ha hb hmem ?_ ?_)).bind fun _ => .pure fun s hs => ?_
    · exact .inr (.inr (.inl List.mem_cons_self))
    · exact .inr (.inl List.mem_cons_self)
    · refine hs.gives_some ?_ hmem hr
      exact Tables.le_trans (Tables.le_adding k _) (Tables.le_trans (Tables.le_adding _ _) (Tables.le_adding _ _))
  · refine (hw.effect_none first).bind fun _ => (hw.effect_none second).bind fun _ => .pure fun s hs => ?_
    exact hs.gives_none (Tables.le_refl k)

theorem nullCheck (operand : NodeId) (hhint : Holds k hint) (hkind : ctx.function.kind? id = some .object)
    (hoperand : ctx.function.kind? operand = some .object) :
    Meets (Typed ctx k) (nullCheck ctx w id operand hint) (fun v => Gives ctx k id v.slot) Anyhow := by
  refine (hw.operand operand).bind fun a => .given fun ha => typed_release.bind fun _ => ?_
  refine (typed_demandedSlot (hhint.mono (Tables.le_adding _ _))).bind fun r => .given fun hr => ?_
  have hobject : a.kind = .object := Option.some.inj (ha.symm.trans hoperand)
  have hka : ((k.adding [a]).adding r.toList).has a := .inr (.inl List.mem_cons_self)
  have hkr : ((k.adding [a]).adding r.toList).has (r.getD a) := by
    cases r with
    | none => exact hka
    | some r => exact .inl List.mem_cons_self
  have hobject' : (r.getD a).kind = .object := by
    cases r with
    | none => exact hobject
    | some r => exact Option.some.inj ((hr r rfl).symm.trans hkind)
  have htakes : (UnaryOp.nullCheck.instruction (r.getD a).slot a.slot).Takes [a] (r.getD a) :=
    UnaryOp.takes (congrArg some hobject'.symm) (congrArg some hobject.symm)
  refine (typed_emit (htakes.fits hkr (List.forall_mem_singleton.2 hka))).bind fun _ => .pure fun s hs => ?_
  exact ⟨hr, hs.weaken (Tables.adding_mono (Tables.le_adding k _) _)⟩

theorem unary {op : UnaryOp} (operand : NodeId) (hhint : Holds k hint)
    (hkind : ctx.function.kind? id = op.resultType.kind?) :
    Meets (Typed ctx k) (unary ctx w id op operand hint) (fun v => Gives ctx k id v.slot) Anyhow := by
  refine .check (checks_expectType ctx operand _) fun _ hoperand => ?_
  split
  · exact hw.nullCheck operand hhint hkind hoperand
  · refine hw.onOperand operand hhint fun k r a hr ha hkr hka => ?_
    have htakes := UnaryOp.takes (hkind.symm.trans hr) (hoperand.symm.trans ha)
    exact htakes.fits hkr (List.forall_mem_singleton.2 hka)

/-! ## Conditions -/

theorem compose (c : Connective) :
    Meets (Typed ctx k) (compose w c) (fun b => Typed ctx (k.adding [⟨.int, b.tail.cond⟩])) Anyhow := by
  cases c with
  | not operand => exact (hw.condition k operand).bind fun b => .pure fun _ hs => hs
  | shortCircuit decisive first second =>
    refine (hw.condition k first).bind fun b => ?_
    have hcond : (k.adding [⟨.int, b.tail.cond⟩]).has ⟨.int, b.tail.cond⟩ := .inl List.mem_cons_self
    refine (typed_drafting (.defer hcond decisive)).bind fun decided => ?_
    refine (typed_inRegion (hw.condition _ second)).bind fun rest => .pure fun s hs => ?_
    rw [Branch.tail_addSites]
    exact hs.weaken (Tables.adding_mono (Tables.le_adding k _) _)

theorem branchOn (hkind : ctx.function.kind? id = some .int) :
    Meets (Typed ctx k) (branchOn w id) (fun b => Typed ctx (k.adding [⟨.int, b.tail.cond⟩])) Anyhow := by
  refine (hw.operand id).bind fun slot => .given fun hslot => (typed_onSlot slot.slot).bind fun b => .given fun hb => ?_
  refine typed_release.bind fun _ => .pure fun s hs => ?_
  have hint : slot.kind = .int := Option.some.inj (hslot.symm.trans hkind)
  rw [hb, ← hint]
  exact hs

theorem logicalValue (c : Connective) (hhint : Holds k hint) (hkind : ctx.function.kind? id = some .int) :
    Meets (Typed ctx k) (logicalValue ctx w id c hint) (fun v => Gives ctx k id v.slot) Anyhow := by
  refine (hw.compose c).bind fun b => typed_isDemanded.bind fun d => ?_
  have hcond : (k.adding [⟨.int, b.tail.cond⟩]).has ⟨.int, b.tail.cond⟩ := .inl List.mem_cons_self
  split
  · refine (typed_drafting (.defer hcond false)).bind fun whenFalse => ?_
    refine (typed_resultSlot (hhint.mono (Tables.le_adding _ _))).bind fun r => .given fun hr => ?_
    have hconst : ∀ v, (Instruction.const r.slot (.int v)).Fits ctx.env ((k.adding [⟨.int, b.tail.cond⟩]).adding [r]) := by
      intro v
      refine ⟨nofun, fun x hx => ?_, trivial⟩
      obtain rfl : x = ⟨r.kind, r.slot⟩ := by
        rw [Option.some.inj (hr.symm.trans hkind)]
        exact (Option.some.inj hx).symm
      exact .inl List.mem_cons_self
    refine (typed_emit (hconst 1)).bind fun _ => typed_gotoPending.bind fun skip => typed_label.bind fun whenZero => ?_
    refine (typed_drafting (.patchAll _)).bind fun _ => (typed_emit (hconst 0)).bind fun _ => ?_
    refine typed_label.bind fun after => (typed_drafting .patch).bind fun _ => .pure fun s hs => ?_
    exact hs.gives_some (Tables.le_trans (Tables.le_adding k _) (Tables.le_adding _ _)) (.inl List.mem_cons_self) hr
  · refine typed_label.bind fun after => (typed_drafting (.resolve hcond true _)).bind fun _ => .pure fun s hs => ?_
    exact hs.gives_none (Tables.le_adding k _)

theorem binary {op : BinaryOp} (first second : NodeId) (hhint : Holds k hint)
    (hkind : ctx.function.kind? id = op.resultType.kind?) :
    Meets (Typed ctx k) (binary ctx w id op first second hint) (fun v => Gives ctx k id v.slot) Anyhow := by
  unfold Lowering.binary
  split
  · rename_i make hform
    refine .check (checks_expectType ctx first _) fun _ hfirst => .check (checks_expectType ctx second _) fun _ hsecond => ?_
    refine hw.onOperands first second hhint fun k r a b hr ha hb hkr hka hkb => ?_
    have htakes := BinaryOp.takes hform (hkind.symm.trans hr) (hfirst.symm.trans ha) (hsecond.symm.trans hb)
    refine htakes.fits hkr fun x hx => ?_
    rcases List.mem_pair.1 hx with rfl | rfl
    · exact hka
    · exact hkb
  · rename_i decisive hform
    refine hw.logicalValue _ hhint (hkind.trans ?_)
    cases op with
    | and => rfl
    | or => rfl
    | _ => cases hform

/-! ## Access -/

theorem setVar (index : VarId) (value : NodeId) :
    Meets (Typed ctx k) (setVar ctx w id index value) (fun v => Gives ctx k id v.slot) Anyhow := by
  refine .check (checks_varSlot ctx id index) fun target htarget => .each fun s hs => ?_
  have hmem : target ∈ ctx.params ++ ctx.vars := List.mem_append_right _ (List.mem_of_getElem? htarget)
  have hs' : Typed ctx (k.adding [target]) s :=
    { hs with known := Tables.adding_le hs.known (List.forall_mem_singleton.2 (hs.pool.fixed_has hmem)) }
  have hvalue : Meets (Typed ctx (k.adding [target])) (w.valueInto ctx value target none)
      (fun _ => Typed ctx (k.adding [target])) Anyhow := hw.valueInto value (.inl List.mem_cons_self) nofun
  have hstart : Meets (· = s) (w.valueInto ctx value target none) (fun _ => Typed ctx (k.adding [target])) Anyhow :=
    hvalue.pre fun t ht => ht ▸ hs'
  exact hstart.bind fun _ => .pure fun t ht => ht.gives_none (Tables.le_adding k _)

theorem getField (field : FieldRef) (object : NodeId) (hhint : Holds k hint) :
    Meets (Typed ctx k) (getField ctx w id field object hint) (fun v => Gives ctx k id v.slot) Anyhow := by
  refine .check (checks_lookup (f := ctx.function) _) fun found _ => ?_
  split
  · exact .fail trivial
  · refine .check (checks_field (f := ctx.function) id field _) fun _ _ => .check (checks_expectType ctx object _)
      fun _ hobject => ?_
    refine hw.onOperand object hhint fun k r a _ ha hkr hka => ?_
    have hka' : k.has ⟨.object, a.slot⟩ := (Option.some.inj (ha.symm.trans hobject)) ▸ hka
    exact ⟨List.forall_mem_singleton.2 hka', fun x hx => Option.some.inj hx ▸ hkr, trivial⟩

theorem arrayElement (array index : NodeId) (hhint : Holds k hint) :
    Meets (Typed ctx k) (arrayElement ctx w id array index hint) (fun v => Gives ctx k id v.slot) Anyhow := by
  refine .check (checks_expectType ctx array _) fun _ harray => .check (checks_expectType ctx index _) fun _ hindex => ?_
  refine hw.onOperands array index hhint fun k r a i _ ha hi hkr hka hki => ?_
  have hka' : k.has ⟨.object, a.slot⟩ := (Option.some.inj (ha.symm.trans harray)) ▸ hka
  have hki' : k.has ⟨.int, i.slot⟩ := (Option.some.inj (hi.symm.trans hindex)) ▸ hki
  exact ⟨List.forall_mem_cons.2 ⟨hka', List.forall_mem_singleton.2 hki'⟩, fun x hx => Option.some.inj hx ▸ hkr, trivial⟩

theorem setArrayElement (array index value : NodeId) :
    Meets (Typed ctx k) (setArrayElement ctx w array index value) (fun v => Gives ctx k id v.slot) Anyhow := by
  refine .check (checks_expectType ctx array _) fun _ harray => .check (checks_expectType ctx index _) fun _ hindex => ?_
  refine (hw.operand array).bind fun a => .given fun ha => (hw.operand index).bind fun i => .given fun hi => ?_
  refine (hw.operand value).bind fun v => .given fun _ => ?_
  refine typed_release.bind fun _ => typed_release.bind fun _ => typed_release.bind fun _ => ?_
  have hobject : a.kind = .object := Option.some.inj (ha.symm.trans harray)
  have hint : i.kind = .int := Option.some.inj (hi.symm.trans hindex)
  have hka : (((k.adding [a]).adding [i]).adding [v]).has ⟨.object, a.slot⟩ :=
    hobject ▸ .inr (.inr (.inl List.mem_cons_self))
  have hki : (((k.adding [a]).adding [i]).adding [v]).has ⟨.int, i.slot⟩ := hint ▸ .inr (.inl List.mem_cons_self)
  have hfits : (Instruction.arraySet v.kind a.slot i.slot v.slot).Fits ctx.env (((k.adding [a]).adding [i]).adding [v]) :=
    ⟨List.forall_mem_cons.2 ⟨hka, List.forall_mem_cons.2 ⟨hki, List.forall_mem_singleton.2 (.inl List.mem_cons_self)⟩⟩,
      nofun, trivial⟩
  refine (typed_emit hfits).bind fun _ => .pure fun s hs => hs.gives_none ?_
  exact Tables.le_trans (Tables.le_adding k _) (Tables.le_trans (Tables.le_adding _ _) (Tables.le_adding _ _))

theorem upperBound {index : TypedSlot} (lower : Bool) (array : NodeId) (hindex : k.has ⟨.int, index.slot⟩) :
    Meets (Typed ctx k) (upperBound ctx w index lower array) (fun _ => Typed ctx k) Anyhow := by
  refine .check (checks_expectType ctx array _) fun _ harray => (hw.operand array).bind fun a => .given fun ha => ?_
  have hobject : a.kind = .object := Option.some.inj (ha.symm.trans harray)
  have hka : (k.adding [a]).has ⟨.object, a.slot⟩ := hobject ▸ .inl List.mem_cons_self
  have hlower : (Instruction.lowerBound index.slot).Fits ctx.env (k.adding [a]) :=
    ⟨List.forall_mem_singleton.2 (.inr hindex), nofun, trivial⟩
  have hupper : (Instruction.upperBound index.slot a.slot).Fits ctx.env (k.adding [a]) :=
    ⟨List.forall_mem_cons.2 ⟨.inr hindex, List.forall_mem_singleton.2 hka⟩, nofun, trivial⟩
  have rest : Meets (Typed ctx (k.adding [a])) (do emit (.upperBound index.slot a.slot); release array)
      (fun _ => Typed ctx k) Anyhow :=
    (typed_emit hupper).bind fun _ => typed_release.post fun _ _ hs => hs.weaken (Tables.le_adding k _)
  dsimp only
  split
  · exact (typed_emit hlower).bind fun _ => rest
  · exact rest

theorem boundsCheck (index : NodeId) (array : Option NodeId) (lower : Bool) (hhint : Holds k hint)
    (hkind : ctx.function.kind? id = some .int) :
    Meets (Typed ctx k) (boundsCheck ctx w id index array lower hint) (fun v => Gives ctx k id v.slot) Anyhow := by
  refine .check (checks_expectType ctx index _) fun _ hindex => (hw.operand index).bind fun i => .given fun hi => ?_
  have hint' : i.kind = .int := Option.some.inj (hi.symm.trans hindex)
  have hki : (k.adding [i]).has ⟨.int, i.slot⟩ := hint' ▸ .inl List.mem_cons_self
  have hlower : (Instruction.lowerBound i.slot).Fits ctx.env (k.adding [i]) :=
    ⟨List.forall_mem_singleton.2 hki, nofun, trivial⟩
  have result : Meets (Typed ctx (k.adding [i])) (checkedIndex ctx id index hint i) (fun v => Gives ctx k id v.slot) Anyhow := by
    refine typed_release.bind fun _ => ?_
    refine (typed_demandedSlot (hhint.mono (Tables.le_adding _ _))).bind fun r => .given fun hr => ?_
    split
    · exact .pure fun s hs => hs.gives_none (Tables.le_trans (Tables.le_adding k _) (Tables.le_adding _ _))
    · rename_i r
      have hkr : ((k.adding [i]).adding [r]).has r := .inl List.mem_cons_self
      have htakes : (Instruction.move .int r.slot i.slot).Takes [i] r :=
        Instruction.takes_move (Option.some.inj (hkind.symm.trans (hr r rfl))) hint'.symm
      have hmove : (Instruction.move .int r.slot i.slot).Fits ctx.env ((k.adding [i]).adding [r]) :=
        htakes.fits hkr (List.forall_mem_singleton.2 (.inr (.inl List.mem_cons_self)))
      have done : Meets (Typed ctx ((k.adding [i]).adding [r])) (pure { slot := some r })
          (fun (v : Visited) => Gives ctx k id v.slot) Anyhow := .pure fun s hs =>
        hs.gives_some (Tables.le_trans (Tables.le_adding k _) (Tables.le_adding _ _)) hkr (hr r rfl)
      dsimp only
      split
      · exact (typed_emit hmove).bind fun _ => done
      · exact done
  split
  · exact (hw.upperBound lower _ hki).bind fun _ => result
  · dsimp only
    split
    · exact (typed_emit hlower).bind fun _ => result
    · exact result

theorem cast (value : NodeId) (className : String) (hhint : Holds k hint) (hkind : ctx.function.kind? id = some .object) :
    Meets (Typed ctx k) (cast ctx w id value className hint) (fun v => Gives ctx k id v.slot) Anyhow := by
  refine .check (checks_classId ctx id className) fun target htarget => ?_
  refine .check (checks_expectType ctx value _) fun _ hvalue => hw.onOperand value hhint fun k r a hr ha hkr hka => ?_
  have hkr' : k.has ⟨.object, r.slot⟩ := (Option.some.inj (hr.symm.trans hkind)) ▸ hkr
  have hka' : k.has ⟨.object, a.slot⟩ := (Option.some.inj (ha.symm.trans hvalue)) ▸ hka
  exact ⟨List.forall_mem_singleton.2 hka', fun x hx => Option.some.inj hx ▸ hkr', ClassTable.lt_of_find? htarget⟩

theorem instanceOf (value : NodeId) (className : String) (hhint : Holds k hint)
    (hkind : ctx.function.kind? id = some .int) :
    Meets (Typed ctx k) (instanceOf ctx w id value className hint) (fun v => Gives ctx k id v.slot) Anyhow := by
  refine .check (checks_classId ctx id className) fun target htarget => ?_
  refine .check (checks_expectType ctx value _) fun _ hvalue => hw.onOperand value hhint fun k r a hr ha hkr hka => ?_
  have hkr' : k.has ⟨.int, r.slot⟩ := (Option.some.inj (hr.symm.trans hkind)) ▸ hkr
  have hka' : k.has ⟨.object, a.slot⟩ := (Option.some.inj (ha.symm.trans hvalue)) ▸ hka
  exact ⟨List.forall_mem_singleton.2 hka', fun x hx => Option.some.inj hx ▸ hkr', ClassTable.lt_of_find? htarget⟩

/-! ## Calls -/

theorem operands (args : List NodeId) : ∀ k, Meets (Typed ctx k) (args.mapM w.operand)
    (fun slots s => List.Forall₂ (fun arg x => ctx.function.kind? arg = some x.kind) args slots ∧
      Typed ctx (k.adding slots) s) Anyhow := by
  induction args with
  | nil => exact fun k => .pure fun s hs => ⟨.nil, hs.weaken (Tables.adding_nil k)⟩
  | cons arg args ih =>
    intro k
    rw [List.mapM_cons]
    refine (hw.operand arg).bind fun x => .given fun hx => (ih _).bind fun xs => .pure fun s hs => ⟨.cons hx hs.1, ?_⟩
    refine hs.2.weaken (Tables.adding_le (Tables.le_trans (Tables.le_adding k _) (Tables.le_adding _ _)) fun y hy => ?_)
    rcases List.mem_cons.1 hy with rfl | hy
    · exact .inr (.inl List.mem_cons_self)
    · exact .inl hy

end Walk.Types

theorem typed_releaseAll (ids : List NodeId) : Meets (Typed ctx k) (ids.forM release) (fun _ => Typed ctx k) Anyhow := by
  induction ids with
  | nil => exact .pure fun _ hs => hs
  | cons id ids ih => exact typed_release.bind fun _ => ih

/-- The receiver comes first and is an object. -/
theorem object_of_receiver {f : Function} {method : MethodRef} {kind : CallKind} {args : List NodeId} {slots : List TypedSlot}
    (htypes : ∀ x ∈ args.zip (argumentTypes method kind), f.kind? x.1 = x.2.kind?)
    (hslots : List.Forall₂ (fun arg x => f.kind? arg = some x.kind) args slots) :
    ∀ slot, (slots.take kind.receiverCount).head?.map (·.slot) = some slot → ⟨.object, slot⟩ ∈ slots := by
  intro slot hslot
  obtain ⟨x, hx, rfl⟩ := Option.map_eq_some_iff.1 hslot
  cases kind with
  | static => cases hx
  | onReceiver =>
    cases hslots with
    | nil => cases hx
    | cons harg _ =>
      cases hx
      have hobject := htypes (_, .object) List.mem_cons_self
      rw [← Option.some.inj (harg.symm.trans hobject)]
      exact List.mem_cons_self

namespace Walk.Types

variable (hw : w.Types ctx)
include hw

theorem call (method : MethodRef) (kind : CallKind) (args : List NodeId) (hhint : Holds k hint) :
    Meets (Typed ctx k) (call ctx w id method kind args hint) (fun v => Gives ctx k id v.slot) Anyhow := by
  unfold Lowering.call
  split
  · exact .fail trivial
  · rename_i function _
    refine .check (checks_lookup (f := ctx.function) _) fun native hnative => ?_
    refine .check (checks_call (f := ctx.function) id method kind native args.length) fun _ _ => ?_
    refine .check (checks_arguments ctx _) fun _ htypes => (hw.operands args k).bind fun slots => .given fun hslots => ?_
    refine (typed_releaseAll _).bind fun _ => ?_
    refine (typed_demandedSlot (hhint.mono (Tables.le_adding _ _))).bind fun result => .given fun hresult => ?_
    have hslot : ∀ x ∈ slots, ((k.adding slots).adding result.toList).has x := fun x hx => .inr (.inl hx)
    have hsite : CallSite.Fits ctx.env ((k.adding slots).adding result.toList) ⟨function,
        (slots.take kind.receiverCount).head?.map (·.slot), slots.drop kind.receiverCount, result⟩ := by
      refine ⟨Environment.lt_of_function hnative, fun x hx => ?_, fun x hx => .inl (Option.mem_toList.2 hx)⟩
      rcases List.mem_append.1 hx with hx | hx
      · obtain ⟨slot, hreceiver, rfl⟩ := List.mem_map.1 hx
        exact hslot _ (object_of_receiver htypes hslots slot (Option.mem_toList.1 hreceiver))
      · exact hslot x (List.mem_of_mem_drop hx)
    refine (typed_addSite hsite).bind fun site => ?_
    have hcall : (Instruction.call site).Fits ctx.env
        { (k.adding slots).adding result.toList with sites := max k.sites (site + 1) } :=
      ⟨nofun, nofun, Nat.lt_of_lt_of_le (Nat.lt_succ_self _) (Nat.le_max_right _ _)⟩
    refine (typed_emit hcall).bind fun _ => .pure fun s hs => ⟨hresult, hs.weaken ?_⟩
    exact ⟨fun x hx => hx.imp_right .inr, Nat.le_refl _, Nat.le_max_left _ _⟩

end Walk.Types

/-! ## Constants and fixed slots -/

theorem typed_constant {make : Slot → Instruction} (hhint : Holds k hint)
    (hm : ∀ r : TypedSlot, ctx.function.kind? id = some r.kind → (make r.slot).Fits ctx.env (k.adding [r])) :
    Meets (Typed ctx k) (constant ctx id hint make) (fun v => Gives ctx k id v.slot) Anyhow := by
  refine (typed_demandedSlot hhint).bind fun r => .given fun hr => ?_
  cases r with
  | none => exact .pure fun s hs => hs.gives_none (Tables.le_adding k _)
  | some r =>
    exact (typed_emit (hm r (hr r rfl))).bind fun _ => .pure fun s hs =>
      hs.gives_some (Tables.le_adding k _) (.inl List.mem_cons_self) (hr r rfl)

/-- An instruction that only writes the node's slot. -/
theorem fits_writing {i : Instruction} {r : TypedSlot} {kind : Kind} (hkind : ctx.function.kind? id = some kind)
    (hr : ctx.function.kind? id = some r.kind) (hreads : i.reads = []) (hwrites : i.writes = some ⟨kind, r.slot⟩)
    (hrefers : i.Refers ctx.env k) : i.Fits ctx.env (k.adding [r]) := by
  refine ⟨fun x hx => (List.not_mem_nil (hreads ▸ hx)).elim, fun x hx => .inl ?_, hrefers.mono (Tables.le_adding k _)⟩
  rw [hwrites, Option.some.inj (hkind.symm.trans hr)] at hx
  exact Option.some.inj hx ▸ List.mem_cons_self

theorem typed_text (value : String) (hhint : Holds k hint) (hkind : ctx.function.kind? id = some .object) :
    Meets (Typed ctx k) (text ctx id value hint) (fun v => Gives ctx k id v.slot) Anyhow := by
  refine typed_isDemanded.bind fun d => ?_
  split
  · refine (typed_intern value).bind fun index => ?_
    have hk : k ≤ { k with texts := max k.texts (index + 1) } := ⟨fun _ hx => hx, Nat.le_max_left _ _, Nat.le_refl _⟩
    refine (typed_constant (hhint.mono hk) fun r hr => fits_writing hkind hr rfl rfl ?_).post fun v s hv => hv.weaken hk
    exact Nat.lt_of_lt_of_le (Nat.lt_succ_self _) (Nat.le_max_right _ _)
  · exact .pure fun s hs => hs.gives_none (Tables.le_refl k)

theorem typed_nullary (op : NullaryOp) (hhint : Holds k hint) (hkind : ctx.function.kind? id = op.resultType.kind?) :
    Meets (Typed ctx k) (nullary ctx id hint op) (fun v => Gives ctx k id v.slot) Anyhow := by
  cases op with
  | void => exact .pure fun s hs => hs.gives_none (Tables.le_refl k)
  | null => exact typed_constant hhint fun r hr => fits_writing hkind hr rfl rfl trivial
  | unreachable =>
    have hfits : Instruction.unreachable.Fits ctx.env k := ⟨nofun, nofun, trivial⟩
    exact (typed_emit hfits).bind fun _ => .pure fun s hs => hs.gives_none (Tables.le_refl k)

theorem typed_getStatic (field : FieldRef) (hhint : Holds k hint) :
    Meets (Typed ctx k) (getStatic ctx id field hint) (fun v => Gives ctx k id v.slot) Anyhow := by
  unfold getStatic
  split
  · exact .fail trivial
  · rename_i index declared hfound
    refine .check (checks_field (f := ctx.function) id field declared) fun _ _ => ?_
    refine (typed_demandedSlot hhint).bind fun r => .given fun hr => ?_
    cases r with
    | none => exact .pure fun s hs => hs.gives_none (Tables.le_adding k _)
    | some r =>
      have hfits : (Instruction.getStatic r.kind r.slot index).Fits ctx.env (k.adding [r]) :=
        fits_writing (hr r rfl) (hr r rfl) rfl rfl (Environment.lt_of_resolveStatic hfound)
      exact (typed_emit hfits).bind fun _ => .pure fun s hs =>
        hs.gives_some (Tables.le_adding k _) (.inl List.mem_cons_self) (hr r rfl)

theorem typed_fixedSlot {x : TypedSlot} (hx : x ∈ ctx.params ++ ctx.vars) (hkind : ctx.function.kind? id = some x.kind) :
    Meets (Typed ctx k) (fixedSlot id x) (fun v => Gives ctx k id v.slot) Anyhow := by
  refine typed_borrow.bind fun _ => typed_isDemanded.bind fun d => ?_
  split
  · refine .pure fun s hs => ⟨fun y hy => Option.some.inj hy ▸ hkind, { hs with known := ?_ }⟩
    exact Tables.adding_le hs.known (List.forall_mem_singleton.2 (hs.pool.fixed_has hx))
  · exact .pure fun s hs => hs.gives_none (Tables.le_refl k)

/-- A fixed slot has the kind of its declaration. -/
theorem kind_of_declared {types : List ValueType} {slots : List TypedSlot} {index : Nat} {x : TypedSlot}
    (h : types.map ValueType.kind? = slots.map fun x => some x.kind) (hx : slots[index]? = some x) :
    ∃ type, types[index]? = some type ∧ type.kind? = some x.kind := by
  have hat := congrArg (·[index]?) h
  simp only [List.getElem?_map, hx, Option.map_some] at hat
  exact Option.map_eq_some_iff.1 hat

theorem typed_param (hctx : ctx.Typed) {index : ParamId} {n : Node} (hn : ctx.function.node? id = some n)
    (he : n.expr = .param index) :
    Meets (Typed ctx k) (param ctx id index) (fun v => Gives ctx k id v.slot) Anyhow := by
  unfold param
  split
  · rename_i x hx
    obtain ⟨type, htype, hkind⟩ := kind_of_declared hctx.params hx
    refine typed_fixedSlot (List.mem_append_left _ (List.mem_of_getElem? hx)) ?_
    exact (hctx.nodes.kind hn (by simp [he, Expr.fixedType?, Function.scope, htype])).trans hkind
  · exact .fail trivial

theorem typed_getVar (hctx : ctx.Typed) {index : VarId} {n : Node} (hn : ctx.function.node? id = some n)
    (he : n.expr = .getVar index) :
    Meets (Typed ctx k) (getVar ctx id index) (fun v => Gives ctx k id v.slot) Anyhow := by
  refine .check (checks_varSlot ctx id index) fun x hx => ?_
  obtain ⟨type, htype, hkind⟩ := kind_of_declared hctx.vars hx
  refine typed_fixedSlot (List.mem_append_right _ (List.mem_of_getElem? hx)) ?_
  exact (hctx.nodes.kind hn (by simp [he, Expr.fixedType?, Function.scope, htype])).trans hkind

/-! ## Blocks, loops and exits -/

theorem typed_standing (offer : Option Offer) (hoffer : Offered k offer) :
    Meets (Typed ctx k) (standing offer) (fun o s => Offered k o ∧ Typed ctx k s) Anyhow := by
  refine typed_label.bind fun here => .pure fun s hs => ⟨fun o ho => hoffer o ?_, hs⟩
  exact (Option.filter_eq_some_iff.1 ho).1

theorem typed_exitJumps (hoffer : Offered k offer) :
    Meets (Typed ctx k) (exitJumps offer) (fun _ => Typed ctx k) Anyhow := by
  refine (typed_standing offer hoffer).bind fun o => .given fun ho => ?_
  cases o with
  | none => exact typed_gotoPending.bind fun _ => .pure fun _ hs => hs
  | some o => exact (typed_drafting (.defer (ho o rfl) o.polarity)).bind fun _ => .pure fun _ hs => hs

theorem typed_exitBlock (name : BlockId) (hoffer : Offered k offer) :
    Meets (Typed ctx k) (exitBlock id name offer) (fun v => Gives ctx k id v.slot) Anyhow := by
  refine .bind (typed_keeps .get) fun s => ?_
  split
  · exact .fail trivial
  · refine (typed_exitJumps hoffer).bind fun r => .bind (typed_keeps (Keeps.update fun _ => ?_)) fun _ => ?_
    · rfl
    · exact .pure fun s hs => hs.gives_none (Tables.le_refl k)

theorem typed_exitLoop (name : LoopId) (hoffer : Offered k offer) :
    Meets (Typed ctx k) (exitLoop id name offer) (fun v => Gives ctx k id v.slot) Anyhow := by
  refine .bind (typed_keeps .get) fun s => ?_
  split
  · exact .fail trivial
  · refine (typed_exitJumps hoffer).bind fun r => .bind (typed_keeps (Keeps.update fun _ => ?_)) fun _ => ?_
    · rfl
    · exact .pure fun s hs => hs.gives_none (Tables.le_refl k)

theorem typed_continueLoop (name : LoopId) (hoffer : Offered k offer) :
    Meets (Typed ctx k) (continueLoop id name offer) (fun v => Gives ctx k id v.slot) Anyhow := by
  refine .bind (typed_keeps .get) fun s => ?_
  split
  · exact .fail trivial
  · refine (typed_standing offer hoffer).bind fun o => .given fun ho => ?_
    cases o with
    | none =>
      exact (typed_emit (Instruction.fits_goto _)).bind fun _ => .pure fun s hs => hs.gives_none (Tables.le_refl k)
    | some o =>
      exact (typed_drafting (.resolve (ho o rfl) o.polarity _)).bind fun _ => .pure fun s hs =>
        hs.gives_none (Tables.le_refl k)

theorem typed_closeBlock : Meets (Typed ctx k) closeBlock (fun _ => Typed ctx k) Anyhow := by
  refine .read fun s hs => ?_
  split
  · exact .fail trivial
  · rename_i rest _
    intro t ht
    subst ht
    have hs' : Typed ctx k { t with blocks := rest } := hs.of_part rfl
    exact typed_drafting (.patchAll _) _ hs'

theorem typed_closeLoop : Meets (Typed ctx k) closeLoop (fun _ => Typed ctx k) Anyhow := by
  refine .read fun s hs => ?_
  split
  · exact .fail trivial
  · rename_i rest _
    intro t ht
    subst ht
    have hs' : Typed ctx k { t with loops := rest } := hs.of_part rfl
    exact typed_drafting (.patchAll _) _ hs'

namespace Walk.Types

variable (hw : w.Types ctx)
include hw

theorem sequence (first second : NodeId) (hhint : Holds k hint) (hoffer : Offered k offer) :
    Meets (Typed ctx k) (sequence ctx w id first second hint offer) (fun v => Gives ctx k id v.slot) Anyhow := by
  refine (hw.effect_none first).bind fun _ => (typed_demandedSlot hhint).bind fun target => .given fun htarget => ?_
  have hknown : Holds (k.adding target.toList) target := fun x hx => .inl (Option.mem_toList.2 hx)
  have hforward := hw.forward second hknown (hoffer.mono (Tables.le_adding k target.toList))
  exact hforward.bind fun _ => .pure fun s hs => ⟨htarget, hs⟩

theorem arm (id : NodeId) {target : Option TypedSlot} (htarget : Holds k target) (hoffer : Offered k offer) :
    Meets (Typed ctx k) (arm ctx w id target offer) (fun _ => Typed ctx k) Anyhow :=
  typed_inRegion (hw.forward id htarget hoffer)

theorem block (name : BlockId) (body : NodeId) (hhint : Holds k hint) :
    Meets (Typed ctx k) (block ctx w id name body hint) (fun v => Gives ctx k id v.slot) Anyhow := by
  refine (typed_demandedSlot hhint).bind fun target => .given fun htarget => ?_
  have hknown : Holds (k.adding target.toList) target := fun x hx => .inl (Option.mem_toList.2 hx)
  refine .bind (typed_keeps (Keeps.update fun _ => ?_)) fun _ => ?_
  · rfl
  · refine (hw.arm body hknown offered_none).bind fun _ => typed_closeBlock.bind fun _ => .pure fun s hs => ⟨htarget, hs⟩

theorem loop (name : LoopId) (preheader body : NodeId) :
    Meets (Typed ctx k) (loop ctx w name preheader body) (fun v => Gives ctx k id v.slot) Anyhow := by
  have hclose : Meets (Typed ctx k) (do closeLoop; return {}) (fun (v : Visited) => Gives ctx k id v.slot) Anyhow :=
    typed_closeLoop.bind fun _ => .pure fun s hs => hs.gives_none (Tables.le_refl k)
  refine (hw.effect_none preheader).bind fun _ => typed_label.bind fun header => ?_
  refine .bind (typed_keeps (Keeps.update fun _ => ?_)) fun _ => ?_
  · rfl
  · refine (typed_inRegion (hw.effect_none body)).bind fun _ => .check (checks_node ctx body) fun n _ => ?_
    dsimp only
    split
    · exact (typed_emit (Instruction.fits_goto _)).bind fun _ => hclose
    · exact hclose

theorem elseOnly {b : Branch} (position : Nat) (elseArm : NodeId) {target : Option TypedSlot} (htarget : Holds k target)
    (hb : k.has ⟨.int, b.tail.cond⟩) :
    Meets (Typed ctx k) (elseOnly ctx w b position elseArm target) (fun _ => Typed ctx k) Anyhow := by
  refine (hw.arm elseArm htarget (offered_offer position false hb)).bind fun taken => ?_
  cases taken with
  | false => exact typed_label.bind fun after => typed_drafting (.resolve hb true _)
  | true => exact .pure fun _ hs => hs

theorem bothArms {b : Branch} (thenArm elseArm : NodeId) {target : Option TypedSlot} (htarget : Holds k target)
    (hb : k.has ⟨.int, b.tail.cond⟩) :
    Meets (Typed ctx k) (bothArms ctx w b thenArm elseArm target) (fun _ => Typed ctx k) Anyhow := by
  refine .check (checks_node ctx thenArm) fun n _ => ?_
  have rest : ∀ skip : Option Patch, Meets (Typed ctx k) (secondArm ctx w b elseArm target skip) (fun _ => Typed ctx k)
      Anyhow := by
    intro skip
    refine typed_label.bind fun elseStart => (typed_drafting (.resolve hb false _)).bind fun _ => ?_
    refine (hw.arm elseArm htarget offered_none).bind fun _ => ?_
    cases skip with
    | none => exact .pure fun _ hs => hs
    | some jump => exact typed_label.bind fun after => typed_drafting .patch
  dsimp only
  split
  · exact Meets.bind (.map typed_gotoPending) rest
  · exact Meets.bind (.pure fun _ hs => hs) rest

theorem conditional (condition thenArm elseArm : NodeId) (hhint : Holds k hint) :
    Meets (Typed ctx k) (conditional ctx w id condition thenArm elseArm hint) (fun v => Gives ctx k id v.slot) Anyhow := by
  refine (typed_demandedSlot hhint).bind fun target => .given fun htarget => ?_
  refine (hw.condition _ condition).bind fun b => typed_label.bind fun position => ?_
  have hb : ((k.adding target.toList).adding [⟨.int, b.tail.cond⟩]).has ⟨.int, b.tail.cond⟩ := .inl List.mem_cons_self
  have hknown : Holds ((k.adding target.toList).adding [⟨.int, b.tail.cond⟩]) target := fun x hx =>
    .inr (.inl (Option.mem_toList.2 hx))
  have done : Meets (Typed ctx ((k.adding target.toList).adding [⟨.int, b.tail.cond⟩])) (pure ⟨target, false⟩)
      (fun (v : Visited) => Gives ctx k id v.slot) Anyhow :=
    .pure fun s hs => ⟨htarget, hs.weaken (Tables.le_adding _ _)⟩
  refine (hw.arm thenArm hknown (offered_offer position true hb)).bind fun taken => ?_
  cases taken with
  | true => exact (hw.arm elseArm hknown offered_none).bind fun _ => done
  | false =>
    refine typed_label.bind fun here => ?_
    split
    · exact (hw.elseOnly position elseArm hknown hb).bind fun _ => done
    · exact (hw.bothArms thenArm elseArm hknown hb).bind fun _ => done

/-! ## The walk -/

theorem visit (hctx : ctx.Typed) (id : NodeId) (hhint : Holds k hint) (hoffer : Offered k offer) :
    Meets (Typed ctx k) (visit ctx w id hint offer) (fun v => Gives ctx k id v.slot) Anyhow := by
  refine .check (checks_node ctx id) fun n hn => ?_
  have hkind : ∀ {type}, n.expr.fixedType? ctx.function.scope = .ok (some type) → ctx.function.kind? id = type.kind? :=
    fun h => hctx.nodes.kind hn h
  dsimp only
  split
  · exact hw.sequence _ _ hhint hoffer
  · exact hw.block _ _ hhint
  · exact typed_exitBlock _ hoffer
  · exact hw.loop _ _ _
  · exact typed_exitLoop _ hoffer
  · exact typed_continueLoop _ hoffer
  · exact hw.conditional _ _ _ hhint
  · rename_i he
    exact typed_nullary _ hhint (hkind (by rw [he]; rfl))
  · rename_i he
    exact hw.unary _ hhint (hkind (by rw [he]; rfl))
  · rename_i he
    exact hw.binary _ _ hhint (hkind (by rw [he]; rfl))
  · rename_i value he
    cases value <;> exact typed_constant hhint fun r hr => fits_writing (hkind (by rw [he]; rfl)) hr rfl rfl trivial
  · rename_i he
    exact typed_text _ hhint ((hkind (by rw [he]; rfl)).trans (rfl : ValueType.object.kind? = _))
  · rename_i he
    exact typed_param hctx hn he
  · rename_i he
    exact typed_getVar hctx hn he
  · exact hw.setVar _ _
  · exact hw.getField _ _ hhint
  · exact typed_getStatic _ hhint
  · exact hw.call _ _ _ hhint
  · exact hw.arrayElement _ _ hhint
  · exact hw.setArrayElement _ _ _
  · rename_i he
    exact hw.cast _ _ hhint ((hkind (by rw [he]; rfl)).trans (rfl : ValueType.object.kind? = _))
  · rename_i he
    exact hw.instanceOf _ _ hhint ((hkind (by rw [he]; rfl)).trans (rfl : ValueType.boolean.kind? = _))
  · rename_i he
    exact hw.boundsCheck _ _ _ hhint ((hkind (by rw [he]; rfl)).trans (rfl : ValueType.int.kind? = _))
  all_goals exact .fail trivial

end Walk.Types

/-- What a node hands out has been noted when it is built. -/
theorem typed_entering {k' : α → Tables} {act : Lower α} {slot : α → Option TypedSlot} (depth : Nat)
    (h : Meets (Typed ctx k) act
      (fun a s => (∀ x, slot a = some x → ctx.function.kind? id = some x.kind ∧ (k' a).has x) ∧ Typed ctx (k' a) s) Anyhow) :
    Meets (Typed ctx k) (entering ctx depth id slot act)
      (fun a s => (∀ x, slot a = some x → ctx.function.kind? id = some x.kind ∧ (k' a).has x) ∧ Typed ctx (k' a) s) Anyhow := by
  unfold entering
  split
  · exact .fail trivial
  · refine typed_underway.bind fun _ => h.bind fun a => .given fun ha => .check (checks_node ctx id) fun n _ => ?_
    have hregion : Meets (Typed ctx (k' a)) (regionOf n.expr) (fun _ => Typed ctx (k' a)) Anyhow := by
      unfold regionOf
      split
      · exact .pure fun _ hs => hs
      · exact .pure fun _ hs => hs
      · exact typed_keeps fun _ => rfl
    exact hregion.bind fun region => (typed_built region ha).bind fun _ => .pure fun _ hs => ⟨ha, hs⟩

theorem Walk.Types.typed_build (hw : w.Types ctx) (hctx : ctx.Typed) (depth : Nat) (id : NodeId) (u : Usage)
    (hhint : Holds k hint) (hoffer : Offered k offer) :
    Meets (Typed ctx k) (Lowering.build ctx depth w id u hint offer) (fun v => Gives ctx k id v.slot) Anyhow := by
  have checked : ∀ v : Visited, Meets (Gives ctx k id v.slot) (checkSlot id u v) (fun v => Gives ctx k id v.slot) Anyhow := by
    intro v
    unfold checkSlot
    split
    · exact .fail trivial
    · exact .pure fun _ hs => hs
  have hlook : Meets (Typed ctx k) (nodeState id) (fun n s => n = s.node id ∧ Typed ctx k s) Anyhow := fun s hs => ⟨rfl, hs⟩
  refine hlook.bind fun n => ?_
  split
  · exact .fail trivial
  · rename_i slot region hp
    -- The slot of a node built before is known from the books.
    have hbuilt : Meets (fun s => n = s.node id ∧ Typed ctx k s) get (fun _ => Gives ctx k id slot) Anyhow := by
      rintro s ⟨rfl, hs⟩
      cases slot with
      | none => exact hs.gives_none (Tables.le_refl k)
      | some x =>
        obtain ⟨hkind, hhas⟩ := hs.built id x region hp
        refine ⟨fun y hy => Option.some.inj hy ▸ hkind, { hs with known := ?_ }⟩
        exact Tables.adding_le hs.known (List.forall_mem_singleton.2 hhas)
    refine hbuilt.bind fun s => ?_
    split
    · exact .fail trivial
    · refine Meets.given fun hkind => (typed_consume u).bind fun _ => (checked { slot }).pre fun t ht => ⟨hkind, ht⟩
  · refine ((typed_consume u).pre fun s hs => hs.2).bind fun _ => ?_
    have hvisit := (hw.visit hctx id hhint hoffer).post fun v s hv =>
      show (∀ x, v.slot = some x → ctx.function.kind? id = some x.kind ∧ (k.adding v.slot.toList).has x) ∧ _ from
        ⟨fun x hx => ⟨hv.1 x hx, .inl (Option.mem_toList.2 hx)⟩, hv.2⟩
    exact (typed_entering depth hvisit).bind fun v => (checked v).pre fun s hs => ⟨fun x hx => (hs.1 x hx).1, hs.2⟩

theorem Walk.Types.typed_condition (hw : w.Types ctx) (hctx : ctx.Typed) (depth : Nat) (id : NodeId) :
    Meets (Typed ctx k) (Lowering.condition ctx depth w id) (fun b => Typed ctx (k.adding [⟨.int, b.tail.cond⟩])) Anyhow := by
  refine .check (checks_expectType ctx id _) fun _ hkind => ?_
  refine .check (checks_composable ctx id) fun c _ => ?_
  split
  · refine (typed_consume .value).bind fun _ => ?_
    refine (typed_entering depth ((hw.compose _).post fun b s hs => ⟨fun x hx => ?_, hs⟩)).post fun b s hs => hs.2
    cases hx
  · have hself : Walk.Types ctx { w with build := Lowering.build ctx depth w } :=
      ⟨fun k id u hint offer => hw.typed_build hctx depth id u, hw.condition⟩
    exact hself.branchOn hkind

/-- The whole walk keeps slots typed and code fitting. -/
theorem walk_types (hctx : ctx.Typed) (room depth : Nat) : (walk ctx room depth).Types ctx := by
  induction room generalizing depth with
  | zero => exact ⟨fun _ _ _ _ _ _ _ => .fail trivial, fun _ _ => .fail trivial⟩
  | succ room ih =>
    have inner := ih (depth + 1)
    exact ⟨fun k id u hint offer => inner.typed_build hctx depth id u, fun k id => inner.typed_condition hctx depth id⟩

end SlotCode.Lowering
