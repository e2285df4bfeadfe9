/-
  SlotCode.Proofs.AssignedOperands — nodes that compute, and the registers they read.

  `Walk.Assigns` is the contract of the walk: the slot of a value is covered where the value
  is handed out, and a node that never completes is followed by no path. Under it, one lemma
  for each way of lowering a node that leaves control alone: operators, conditions, accesses,
  calls, constants and what stands in fixed slots.

  A right operand runs in a region of its own. Where a condition is left early its slots are
  not written, and so nothing built there may be reached once the region is closed.
-/

import SlotCode.Proofs.Assignment
import SlotCode.Proofs.JumpLedger
import SlotCode.Proofs.TypedWalk

namespace SlotCode

/-- Whether the expression reads a parameter or a variable, where it stands. -/
def Expr.isFixed : Expr → Bool
  | .param _ | .getVar _ => true
  | _ => false

/-- The slot that a node is used for; that of an effect may be out of reach. -/
def Usage.kept : Usage → Option TypedSlot → Option TypedSlot
  | .value, slot => slot
  | .ignore, _ => none

namespace Lowering

open SlotCode.Arith

variable {α β : Type} {w : Walk} {ctx : Context} {B : Bases} {F F' : Facts} {id : NodeId} {hint : Option TypedSlot}
  {offer : Option Offer} {s : State}

/-! ## What children are asked for -/

/-- The offered tail, if there is one, is that of a condition whose consumer comes now. -/
def Offers (F : Facts) (offer : Option Offer) : Prop := ∀ K s, F.holds K s → ∀ o, offer = some o →
  o.position = o.branch.fallThrough ∧ Branch.Covered K s.draft.label o.branch

theorem offers_none : Offers F none := nofun

theorem Offers.mono (h : Offers F offer) (hF : ∀ K s, F'.holds K s → F.holds K s) : Offers F' offer :=
  fun K s hs => h K s (hF K s hs)

/-- What is known after a node: its slot is covered, and control does not come after what never ends. -/
def Facts.after (F : Facts) (f : Function) (id : NodeId) (slot : Option TypedSlot) (taken : Bool) : Facts :=
  (F.adding slot.toList).ending (f.NeverEnds id ∧ taken = false)

/-- The slot is of the node's kind, and only a node without a value takes an offer. -/
structure Visited.Suits (f : Function) (id : NodeId) (offer : Option Offer) (v : Visited) : Prop where
  kind : ∀ x, v.slot = some x → f.kind? id = some x.kind
  taken : v.taken = true → f.kind? id = none ∧ offer ≠ none

structure Walk.Assigns (ctx : Context) (w : Walk) : Prop where
  build : ∀ B F id u hint offer, Offers F offer → Meets (Assigned ctx B F) (w.build id u hint offer)
    (fun v s => v.Suits ctx.function id offer ∧ Assigned ctx B (F.after ctx.function id (u.kept v.slot) v.taken) s) Anyhow
  condition : ∀ B F id, Meets (Assigned ctx B F) (w.condition id)
    (fun b s => b.fallThrough = s.draft.label ∧ Assigned ctx B (F.branching b) s) Anyhow

namespace Walk.Assigns

variable (hw : w.Assigns ctx)
include hw

theorem effect (id : NodeId) (hoffer : Offers F offer) : Meets (Assigned ctx B F) (w.effect id offer)
    (fun taken s => (taken = true → ctx.function.kind? id = none ∧ offer ≠ none) ∧
      Assigned ctx B (F.ending (ctx.function.NeverEnds id ∧ taken = false)) s) Anyhow :=
  (hw.build B F id .ignore none offer hoffer).bind fun _ => .pure fun _ hs =>
    ⟨hs.1.taken, hs.2.weaken fun _ _ h => ⟨h.1.1, h.2⟩⟩

theorem effect_none (id : NodeId) : Meets (Assigned ctx B F) (w.effect id)
    (fun _ => Assigned ctx B (F.ending (ctx.function.NeverEnds id))) Anyhow :=
  (hw.effect id offers_none).post fun taken s hs => hs.2.weaken fun K t h => ⟨h.1, fun hid => h.2 ⟨hid, by
    cases taken with
    | false => rfl
    | true => exact absurd rfl (hs.1 rfl).2⟩⟩

theorem effect_only (id : NodeId) : Meets (Assigned ctx B F) (w.effect id) (fun _ => Assigned ctx B F) Anyhow :=
  (hw.effect_none id).post fun _ _ hs => hs.weaken fun _ _ h => h.1

theorem value (id : NodeId) (hint : Option TypedSlot) (hoffer : Offers F offer) :
    Meets (Assigned ctx B F) (w.value id hint offer)
      (fun r s => (ctx.function.kind? id = some r.1.kind ∧ r.2 = false) ∧
        Assigned ctx B (F.after ctx.function id (some r.1) false) s) Anyhow := by
  refine assigned_alloc.bind fun _ => (hw.build B F id .value hint offer hoffer).bind fun v => .given fun hv => ?_
  split
  · rename_i slot hslot
    have htaken : v.taken = false := by
      by_contra ht
      cases (hv.kind slot hslot).symm.trans (hv.taken (by simpa using ht)).1
    refine .pure fun s hs => ⟨⟨hv.kind slot hslot, htaken⟩, ?_⟩
    rw [hslot, htaken] at hs
    exact hs
  · exact .fail trivial

theorem operand (id : NodeId) : Meets (Assigned ctx B F) (w.operand id)
    (fun a s => ctx.function.kind? id = some a.kind ∧ Assigned ctx B (F.adding [a]) s) Anyhow :=
  (hw.value id none offers_none).bind fun _ => .pure fun _ hs => ⟨hs.1.1, hs.2.weaken fun _ _ h => h.1⟩

/-- The value ends up in the target, unless control goes elsewhere. -/
theorem valueInto (id : NodeId) {target : TypedSlot} (hoffer : Offers F offer) :
    Meets (Assigned ctx B F) (w.valueInto ctx id target offer)
      (fun taken s => (taken = true → ctx.function.kind? id = none ∧ offer ≠ none) ∧
        Assigned ctx B ((F.landing (ctx.function.kind? id ≠ none) [target]).ending (ctx.function.NeverEnds id ∧ taken = false)) s)
      Anyhow := by
  unfold Walk.valueInto
  split
  · rename_i hnone
    exact (hw.effect id hoffer).post fun taken s hs =>
      ⟨hs.1, hs.2.weaken fun K t h => ⟨⟨h.1, fun hk => absurd hnone hk⟩, h.2⟩⟩
  · rename_i kind hkind
    split
    · exact .fail trivial
    · rename_i hsame
      refine (hw.value id (some target) hoffer).bind fun r => .given fun hr => ?_
      have done : ∀ G : Facts,
          (∀ K s, G.holds K s → (F.after ctx.function id (some r.1) false).holds K s ∧ target ∈ K s.draft.label) →
          Meets (Assigned ctx B G) (do release id; return r.2)
            (fun taken s => (taken = true → ctx.function.kind? id = none ∧ offer ≠ none) ∧
              Assigned ctx B ((F.landing (ctx.function.kind? id ≠ none) [target]).ending
                (ctx.function.NeverEnds id ∧ taken = false)) s)
            Anyhow := fun G hG => assigned_release.bind fun _ => .pure fun s hs => by
        refine ⟨fun ht => absurd (hr.2.symm.trans ht) nofun, hs.weaken fun K t h => ?_⟩
        obtain ⟨⟨⟨hF, -⟩, hend⟩, hmem⟩ := hG K t h
        exact ⟨⟨hF, fun _ => List.forall_mem_singleton.2 hmem⟩, fun hid => hend ⟨hid.1, rfl⟩⟩
      dsimp only
      split
      · have htakes : (Instruction.move kind target.slot r.1.slot).Takes [r.1] target :=
          Instruction.takes_move (by simpa using hsame) (Option.some.inj (hkind.symm.trans hr.1))
        refine (assigned_write htakes.writes fun K s h => ?_).bind fun _ => done _ fun K s h => ⟨h.1, h.2 _ List.mem_cons_self⟩
        rw [htakes.reads]
        exact h.1.2
      · rename_i heq
        refine done _ fun K s h => ⟨h, ?_⟩
        rw [← not_ne_iff.1 heq]
        exact h.1.2 _ List.mem_cons_self

/-- A child that gives the value of its parent, or never completes. -/
theorem forward (id : NodeId) {target : Option TypedSlot} (hoffer : Offers F offer)
    (hfit : ∀ x, target = some x → ctx.function.kind? id ≠ none ∨ ctx.function.NeverEnds id) :
    Meets (Assigned ctx B F) (w.forward ctx id target offer)
      (fun taken s => (taken = true → ctx.function.kind? id = none ∧ offer ≠ none) ∧
        Assigned ctx B ((F.landing (taken = false) target.toList).ending (ctx.function.NeverEnds id ∧ taken = false)) s)
      Anyhow := by
  cases target with
  | none =>
    exact (hw.effect id hoffer).post fun taken s hs => ⟨hs.1, hs.2.weaken fun K t h => ⟨⟨h.1, nofun⟩, h.2⟩⟩
  | some target =>
    refine (hw.valueInto id hoffer).post fun taken s hs => ⟨hs.1, hs.2.weaken fun K t h => ⟨⟨h.1.1, fun ht => ?_⟩, h.2⟩⟩
    rcases hfit target rfl with hkind | hid
    · exact h.1.2 hkind
    · exact fun x _ => h.2 ⟨hid, ht⟩ x

end Walk.Assigns

/-! ## Operators -/

/-- A node that gives a value or nothing, and takes no offer. -/
def Supplies (ctx : Context) (B : Bases) (F : Facts) (id : NodeId) (v : Visited) (s : State) : Prop :=
  (v.taken = false ∧ ∀ x, v.slot = some x → ctx.function.kind? id = some x.kind) ∧
    Assigned ctx B (F.adding v.slot.toList) s

theorem Assigned.supplies_none (h : Assigned ctx B F' s) (hF : ∀ K s, F'.holds K s → F.holds K s) : Supplies ctx B F id {} s :=
  ⟨⟨rfl, nofun⟩, h.weaken fun K s hs => ⟨hF K s hs, nofun⟩⟩

theorem Assigned.supplies_some {x : TypedSlot} (h : Assigned ctx B F' s) (hkind : ctx.function.kind? id = some x.kind)
    (hF : ∀ K s, F'.holds K s → F.holds K s ∧ x ∈ K s.draft.label) : Supplies ctx B F id { slot := some x } s := by
  refine ⟨⟨rfl, fun y hy => Option.some.inj hy ▸ hkind⟩, h.weaken fun K s hs => ⟨(hF K s hs).1, ?_⟩⟩
  exact List.forall_mem_singleton.2 (hF K s hs).2

namespace Walk.Assigns

variable (hw : w.Assigns ctx)
include hw

/-- `make` turns slots of the node's and the operand's kinds into an instruction that takes them. -/
theorem onOperand (operand : NodeId) {make : TypedSlot → Slot → Instruction}
    (hm : ∀ r a : TypedSlot, ctx.function.kind? id = some r.kind → ctx.function.kind? operand = some a.kind →
      (make r a.slot).writes = some r ∧ (make r a.slot).reads = [a]) :
    Meets (Assigned ctx B F) (onOperand ctx w id operand hint make) (Supplies ctx B F id) Anyhow := by
  refine assigned_isDemanded.bind fun d => .given fun _ => ?_
  split
  · refine (hw.operand operand).bind fun a => .given fun ha => assigned_release.bind fun _ => ?_
    refine (assigned_resultSlot hint).bind fun r => .given fun hr => ?_
    obtain ⟨hwrite, hread⟩ := hm r a hr ha
    refine (assigned_write hwrite fun K s h => ?_).bind fun _ => .pure fun s hs => ?_
    · rw [hread]
      exact h.2
    · exact hs.supplies_some hr fun K s h => ⟨h.1.1, h.2 r List.mem_cons_self⟩
  · exact (hw.effect_only operand).bind fun _ => .pure fun s hs => hs.supplies_none fun _ _ h => h

theorem onOperands (first second : NodeId) {make : TypedSlot → Slot → Slot → Instruction}
    (hm : ∀ r a b : TypedSlot, ctx.function.kind? id = some r.kind → ctx.function.kind? first = some a.kind →
      ctx.function.kind? second = some b.kind →
        (make r a.slot b.slot).writes = some r ∧ (make r a.slot b.slot).reads = [a, b]) :
    Meets (Assigned ctx B F) (onOperands ctx w id first second hint make) (Supplies ctx B F id) Anyhow := by
  refine assigned_isDemanded.bind fun d => .given fun _ => ?_
  split
  · refine (hw.operand first).bind fun a => .given fun ha => (hw.operand second).bind fun b => .given fun hb => ?_
    refine assigned_release.bind fun _ => assigned_release.bind fun _ => ?_
    refine (assigned_resultSlot hint).bind fun r => .given fun hr => ?_
    obtain ⟨hwrite, hread⟩ := hm r a b hr ha hb
    refine (assigned_write hwrite fun K s h => ?_).bind fun _ => .pure fun s hs => ?_
    · rw [hread]
      exact List.forall_mem_cons.2 ⟨h.1.2 a List.mem_cons_self, h.2⟩
    · exact hs.supplies_some hr fun K s h => ⟨h.1.1.1, h.2 r List.mem_cons_self⟩
  · refine (hw.effect_only first).bind fun _ => (hw.effect_only second).bind fun _ => .pure fun s hs => ?_
    exact hs.supplies_none fun _ _ h => h

theorem nullCheck (operand : NodeId) (hkind : ctx.function.kind? id = some .object)
    (hoperand : ctx.function.kind? operand = some .object) :
    Meets (Assigned ctx B F) (nullCheck ctx w id operand hint) (Supplies ctx B F id) Anyhow := by
  refine (hw.operand operand).bind fun a => .given fun ha => assigned_release.bind fun _ => ?_
  refine (assigned_demandedSlot hint).bind fun r => .given fun hr => ?_
  have hobject : a.kind = .object := Option.some.inj (ha.symm.trans hoperand)
  have hobject' : (r.getD a).kind = .object := by
    cases r with
    | none => exact hobject
    | some r => exact Option.some.inj ((hr r rfl).1.symm.trans hkind)
  have htakes : (UnaryOp.nullCheck.instruction (r.getD a).slot a.slot).Takes [a] (r.getD a) :=
    UnaryOp.takes (congrArg some hobject'.symm) (congrArg some hobject.symm)
  refine (assigned_write htakes.writes fun K s h => ?_).bind fun _ => .pure fun s hs => ?_
  · rw [htakes.reads]
    exact h.2
  · cases r with
    | none => exact hs.supplies_none fun _ _ h => h.1.1
    | some r => exact hs.supplies_some (hr r rfl).1 fun K s h => ⟨h.1.1, h.2 r List.mem_cons_self⟩

theorem unary {op : UnaryOp} (operand : NodeId) (hkind : ctx.function.kind? id = op.resultType.kind?) :
    Meets (Assigned ctx B F) (unary ctx w id op operand hint) (Supplies ctx B F id) Anyhow := by
  refine .check (checks_expectType ctx operand _) fun _ hoperand => ?_
  split
  · exact hw.nullCheck operand hkind hoperand
  · refine hw.onOperand operand fun r a hr ha => ?_
    have htakes := UnaryOp.takes (hkind.symm.trans hr) (hoperand.symm.trans ha)
    exact ⟨htakes.writes, htakes.reads⟩

end Walk.Assigns

/-! ## Conditions -/

/-- One on the true path, zero on the other: the slot is written on both before they meet. -/
theorem assigned_bothValues {v : State} {K : Coverage} {r : TypedSlot} {whenFalse : List Patch} (hr : r.kind = .int)
    (hv : Covered ctx B K v) (hleave : Leaving K v.draft.label (K v.draft.label) whenFalse) :
    Meets (· = v) (do
      emit (.const r.slot (.int 1))
      let skip ← gotoPending
      drafting (Drafting.patchAll whenFalse (.address (← label)))
      emit (.const r.slot (.int 0))
      drafting (Drafting.patch skip (.address (← label)))
      return { slot := some r })
      (fun (x : Visited) s => x = { slot := some r } ∧ Assigned ctx B ((Facts.since v K).adding [r]) s) Anyhow := by
  have hwrite : ∀ n, (Instruction.const r.slot (.int n)).writes = some r := fun n => by
    show some (TypedSlot.mk .int r.slot) = some r
    rw [← hr]
  have hconst : ∀ (G : Facts) n, Meets (Parted ctx v B G) (emit (.const r.slot (.int n)))
      (fun _ => Parted ctx v B (G.adding [r])) Anyhow :=
    fun G n => parted_drafting (assigned_write (hwrite n) fun _ _ _ => List.forall_mem_nil _)
  have hstart : Parted ctx v B ((Facts.since v K).leaving (K v.draft.label) whenFalse) v := hv.parted ⟨.refl v K, hleave⟩
  refine .start hstart ?_
  refine (hconst _ 1).bind fun _ => ?_
  have hskip : Meets (Parted ctx v B (((Facts.since v K).leaving (K v.draft.label) whenFalse).adding [r])) gotoPending
      (fun p => Parted ctx v B (((((Facts.since v K).leaving (K v.draft.label) whenFalse).adding [r]).leaving
        (K v.draft.label ∪ {r}) [p]).ending True)) Anyhow :=
    parted_drafting (assigned_gotoPending fun K' s _ h x hx => hx.elim (h.1.1.grows x) fun hx => h.2 x (List.mem_singleton.2 hx))
  refine hskip.bind fun skip => parted_label.bind fun n => ?_
  refine (parted_join hv (K v.draft.label) (K v.draft.label ∪ {r}) whenFalse [skip] (fun _ hx => hx) (fun K' s h => ?_) n
    fun K' s _ _ hhere hjumps => ?_).bind fun _ => ?_
  · exact ⟨h.1.1.1.1, h.1.1.1.1.grows, h.1.1.1.2, h.1.2⟩
  · exact .patchAll (Nat.le_refl _) fun p hp x hx => (hjumps p hp).2 x (hhere ▸ hx)
  · refine (hconst _ 0).bind fun _ => parted_label.bind fun after => ?_
    refine (parted_join hv (K v.draft.label ∪ {r}) ∅ [skip] [] (fun _ hx => .inl hx) (fun K' s h => ?_) after
      fun K' s _ _ hhere hjumps => ?_).bind fun _ => .pure fun s hs => ⟨rfl, hs.2.2.weaken fun K' t h => ⟨h.1.1, ?_⟩⟩
    · exact ⟨h.1.1.1, fun x hx => hx.elim (h.1.1.1.grows x) fun hx => h.2 x (List.mem_singleton.2 hx), h.1.1.2,
        List.forall_mem_nil _⟩
    · exact .patch (Nat.le_refl _) fun x hx => (hjumps skip List.mem_cons_self).2 x (hhere ▸ hx)
    · exact List.forall_mem_singleton.2 (h.2 r (.inr rfl))

namespace Walk.Assigns

variable (hw : w.Assigns ctx)
include hw

/-- A right operand that may not run leaves no more covered than the left one. -/
theorem compose (c : Connective) : Meets (Assigned ctx B F) (compose w c)
    (fun b s => b.fallThrough = s.draft.label ∧ Assigned ctx B (F.branching b) s) Anyhow := by
  cases c with
  | not operand =>
    refine (hw.condition B F operand).bind fun b => .pure fun s hs => ⟨hs.1, hs.2.weaken fun K t h => ⟨h.1, ?_⟩⟩
    refine ⟨h.2.tail, h.2.fall, h.2.cond, h.2.flow, fun p hp => h.2.sites p ?_⟩
    exact List.mem_append.2 (List.mem_append.1 hp).symm
  | shortCircuit decisive first second =>
    refine (hw.condition B F first).bind fun b => .each fun u hu => ?_
    obtain ⟨hfall, K₁, hK₁, hF, hb⟩ := hu
    refine (parted_defer hK₁ hb hfall decisive).bind fun decided => ?_
    have hsecond := parted_inRegion (u := u) (B := B)
      fun B => hw.condition B ((Facts.since u K₁).leaving (K₁ u.draft.label) decided) second
    refine (hsecond.pre fun _ hs => hs.2).bind fun rest => .pure fun s hs => ?_
    obtain ⟨hfall', hparted⟩ := hs
    obtain ⟨K, K', ⟨⟨hsince, hleave⟩, hrest⟩, hK', honward, hhere, hbehind⟩ :=
      hparted.meet hK₁ (fun K h => ⟨h.1.1, h.1.1.grows⟩) fun _ hx => hx
    -- What was covered where the operands parted is covered wherever the second one leaves from.
    have hbelow : ∀ p, p < s.draft.label → (∀ x ∈ K rest.fallThrough, x ∈ K p) → ∀ x ∈ K' s.draft.label, x ∈ K' p := by
      intro p hlt hcover x hx
      rw [hbehind p hlt]
      rw [hhere] at hx
      exact hcover x (hfall' ▸ hsince.grows x hx)
    have htail : rest.tail.position < s.draft.label := by rw [← hfall', ← hrest.tail]; exact Nat.lt_succ_self _
    have hsites : Leaving K' s.draft.label (K' s.draft.label) (rest.whenTrue ++ rest.whenFalse ++ decided) := by
      intro p hp
      rcases List.mem_append.1 hp with hp | hp
      · obtain ⟨hlt, hcover⟩ := hrest.sites p hp
        exact ⟨hlt, hbelow _ hlt hcover⟩
      · rw [hhere]
        exact hleave.mono hbehind (Nat.le_refl _) p hp
    have hfall'' : (rest.addSites decisive decided).fallThrough = s.draft.label := by
      cases decisive <;> exact hfall'
    refine ⟨hfall'', K', hK', F.stable honward hF, ?_⟩
    refine ⟨?_, hfall''.le, ?_, ?_, ?_⟩
    · rw [Branch.tail_addSites, hfall'', ← hfall']
      exact hrest.tail
    · rw [Branch.tail_addSites, hbehind _ htail]
      exact hrest.cond
    · rw [Branch.tail_addSites, hfall'']
      exact hbelow _ htail hrest.flow
    · rw [hfall'']
      refine fun p hp => hsites p ?_
      cases decisive <;> simp only [Branch.addSites, Bool.false_eq_true, if_true, if_false, List.mem_append] at hp ⊢ <;> tauto

theorem branchOn (hkind : ctx.function.kind? id = some .int) : Meets (Assigned ctx B F) (branchOn w id)
    (fun b s => b.fallThrough = s.draft.label ∧ Assigned ctx B (F.branching b) s) Anyhow := by
  refine (hw.operand id).bind fun slot => .given fun hslot => ?_
  have hint : slot.kind = .int := Option.some.inj (hslot.symm.trans hkind)
  have hcond : (F.adding [slot]).Covers [⟨.int, slot.slot⟩] := fun K s h => hint ▸ h.2
  refine (assigned_onSlot hcond).bind fun b => ?_
  have hrelease : Meets (fun s => b.fallThrough = s.code.1.label ∧ Assigned ctx B ((F.adding [slot]).branching b) s) (release id)
      (fun _ s => b.fallThrough = s.code.1.label ∧ Assigned ctx B ((F.adding [slot]).branching b) s) Anyhow :=
    assigned_release.beside (R := fun c => b.fallThrough = c.1.label) (quiet_release id)
  exact hrelease.bind fun _ => .pure fun s hs => ⟨hs.1, hs.2.weaken fun K t h => ⟨h.1.1, h.2⟩⟩

/-- Both values are written before paths meet. -/
theorem logicalValue (c : Connective) (hkind : ctx.function.kind? id = some .int) :
    Meets (Assigned ctx B F) (logicalValue ctx w id c hint) (Supplies ctx B F id) Anyhow := by
  refine (hw.compose c).bind fun b => ?_
  have hdemand : Meets (fun s => b.fallThrough = s.code.1.label ∧ Assigned ctx B (F.branching b) s) (isDemanded id)
      (fun _ s => b.fallThrough = s.code.1.label ∧ Assigned ctx B (F.branching b) s) Anyhow :=
    (assigned_isDemanded.post fun _ _ hs => hs.2).beside (R := fun c => b.fallThrough = c.1.label) (quiet_isDemanded id)
  refine hdemand.bind fun d => .each fun u hu => ?_
  obtain ⟨hfall, K₁, hK₁, hF, hb⟩ := hu
  split
  · refine (parted_defer hK₁ hb hfall false).bind fun whenFalse => ?_
    have hslot : Meets (fun s => u.draft.label = s.code.1.label ∧
          Assigned ctx B ((Facts.since u K₁).leaving (K₁ u.draft.label) whenFalse) s) (ctx.resultSlot id hint)
        (fun r s => u.draft.label = s.code.1.label ∧ ctx.function.kind? id = some r.kind ∧
          Assigned ctx B ((Facts.since u K₁).leaving (K₁ u.draft.label) whenFalse) s) Anyhow :=
      (assigned_resultSlot hint).beside (R := fun c => u.draft.label = c.1.label) (quiet_resultSlot ctx id hint)
    refine (hslot.pre fun s hs => ⟨hs.1, hs.2.2.2⟩).bind fun r => .each fun v hv => ?_
    obtain ⟨hlabel, hr, K₂, hK₂, hsince, hleave⟩ := hv
    have hlabel : u.draft.label = v.draft.label := hlabel
    have hat : K₂ v.draft.label = K₁ u.draft.label := by rw [← hlabel, hsince.same _ (Nat.le_refl _)]
    refine (assigned_bothValues (Option.some.inj (hr.symm.trans hkind)) hK₂ (hat ▸ hleave)).post fun x s hs => ?_
    rw [hs.1]
    refine hs.2.supplies_some hr fun K t h => ⟨F.stable (hsince.trans h.1) hF, h.2 r List.mem_cons_self⟩
  · have hstart : Parted ctx u B (Facts.since u K₁) u := hK₁.parted (Onward.refl u K₁)
    refine .start hstart ?_
    refine parted_label.bind fun n => ?_
    refine ((parted_resolve hK₁ hb hfall ∅ [] true n).pre fun s hs => ⟨hs.1, ?_⟩).bind fun _ =>
      .pure fun s hs => hs.2.2.supplies_none fun K t h => F.stable h.1 hF
    exact hs.2.weaken fun _ _ h => ⟨h, List.forall_mem_nil _⟩

theorem binary {op : BinaryOp} (first second : NodeId) (hkind : ctx.function.kind? id = op.resultType.kind?) :
    Meets (Assigned ctx B F) (binary ctx w id op first second hint) (Supplies ctx B F id) Anyhow := by
  unfold Lowering.binary
  split
  · rename_i make hform
    refine .check (checks_expectType ctx first _) fun _ hfirst => .check (checks_expectType ctx second _) fun _ hsecond => ?_
    refine hw.onOperands first second fun r a b hr ha hb => ?_
    have htakes := BinaryOp.takes hform (hkind.symm.trans hr) (hfirst.symm.trans ha) (hsecond.symm.trans hb)
    exact ⟨htakes.writes, htakes.reads⟩
  · rename_i decisive hform
    refine hw.logicalValue _ (hkind.trans ?_)
    cases op with
    | and => rfl
    | or => rfl
    | _ => cases hform

end Walk.Assigns

/-! ## Access -/

theorem typedSlot_eq {a : TypedSlot} {kind : Kind} (h : a.kind = kind) : (⟨kind, a.slot⟩ : TypedSlot) = a := by
  rw [← h]

namespace Walk.Assigns

variable (hw : w.Assigns ctx)
include hw

theorem setVar (index : VarId) (value : NodeId) :
    Meets (Assigned ctx B F) (setVar ctx w id index value) (Supplies ctx B F id) Anyhow := by
  refine .check (checks_varSlot ctx id index) fun target _ => ?_
  refine (hw.valueInto value offers_none).bind fun _ => .pure fun s hs => hs.2.supplies_none fun K t h => h.1.1

theorem getField (field : FieldRef) (object : NodeId) :
    Meets (Assigned ctx B F) (getField ctx w id field object hint) (Supplies ctx B F id) Anyhow := by
  refine .check (checks_lookup (f := ctx.function) _) fun found _ => ?_
  split
  · exact .fail trivial
  · refine .check (checks_field (f := ctx.function) id field _) fun _ _ => .check (checks_expectType ctx object _)
      fun _ hobject => ?_
    refine hw.onOperand object fun r a _ ha => ⟨rfl, ?_⟩
    exact congrArg (fun x => [x]) (typedSlot_eq (Option.some.inj (ha.symm.trans hobject)))

theorem arrayElement (array index : NodeId) :
    Meets (Assigned ctx B F) (arrayElement ctx w id array index hint) (Supplies ctx B F id) Anyhow := by
  refine .check (checks_expectType ctx array _) fun _ harray => .check (checks_expectType ctx index _) fun _ hindex => ?_
  refine hw.onOperands array index fun r a i _ ha hi => ⟨rfl, ?_⟩
  show [TypedSlot.mk .object a.slot, ⟨.int, i.slot⟩] = [a, i]
  rw [typedSlot_eq (Option.some.inj (ha.symm.trans harray)), typedSlot_eq (Option.some.inj (hi.symm.trans hindex))]

theorem setArrayElement (array index value : NodeId) :
    Meets (Assigned ctx B F) (setArrayElement ctx w array index value) (Supplies ctx B F id) Anyhow := by
  refine .check (checks_expectType ctx array _) fun _ harray => .check (checks_expectType ctx index _) fun _ hindex => ?_
  refine (hw.operand array).bind fun a => .given fun ha => (hw.operand index).bind fun i => .given fun hi => ?_
  refine (hw.operand value).bind fun v => .given fun _ => ?_
  refine assigned_release.bind fun _ => assigned_release.bind fun _ => assigned_release.bind fun _ => ?_
  have hreads : (((F.adding [a]).adding [i]).adding [v]).Covers [⟨.object, a.slot⟩, ⟨.int, i.slot⟩, ⟨v.kind, v.slot⟩] := by
    intro K s h
    rw [typedSlot_eq (Option.some.inj (ha.symm.trans harray)), typedSlot_eq (Option.some.inj (hi.symm.trans hindex))]
    exact List.forall_mem_cons.2 ⟨h.1.1.2 a List.mem_cons_self, List.forall_mem_cons.2 ⟨h.1.2 i List.mem_cons_self, h.2⟩⟩
  refine (assigned_read (fun _ => rfl) (fun _ => rfl) hreads).bind fun _ => .pure fun s hs => ?_
  exact hs.supplies_none fun K t h => h.1.1.1

theorem upperBound {index : TypedSlot} (lower : Bool) (array : NodeId) (hindex : F.Covers [⟨.int, index.slot⟩]) :
    Meets (Assigned ctx B F) (upperBound ctx w index lower array) (fun _ => Assigned ctx B F) Anyhow := by
  refine .check (checks_expectType ctx array _) fun _ harray => (hw.operand array).bind fun a => .given fun ha => ?_
  have hobject : (⟨.object, a.slot⟩ : TypedSlot) = a := typedSlot_eq (Option.some.inj (ha.symm.trans harray))
  have hupper : (F.adding [a]).Covers [⟨.int, index.slot⟩, ⟨.object, a.slot⟩] := fun K s h => by
    rw [hobject]
    exact List.forall_mem_cons.2 ⟨hindex K s h.1 _ List.mem_cons_self, h.2⟩
  have rest : Meets (Assigned ctx B (F.adding [a])) (do emit (.upperBound index.slot a.slot); release array)
      (fun _ => Assigned ctx B F) Anyhow :=
    (assigned_read (fun _ => rfl) (fun _ => rfl) hupper).bind fun _ =>
      assigned_release.post fun _ _ hs => hs.weaken fun K t h => h.1
  have hlower : (F.adding [a]).Covers [⟨.int, index.slot⟩] := fun K s h => hindex K s h.1
  dsimp only
  split
  · exact (assigned_read (fun _ => rfl) (fun _ => rfl) hlower).bind fun _ => rest
  · exact rest

theorem boundsCheck (index : NodeId) (array : Option NodeId) (lower : Bool) (hkind : ctx.function.kind? id = some .int) :
    Meets (Assigned ctx B F) (boundsCheck ctx w id index array lower hint) (Supplies ctx B F id) Anyhow := by
  refine .check (checks_expectType ctx index _) fun _ hindex => (hw.operand index).bind fun i => .given fun hi => ?_
  have hint' : i.kind = .int := Option.some.inj (hi.symm.trans hindex)
  have hreads : (F.adding [i]).Covers [⟨.int, i.slot⟩] := fun K s h => by
    rw [typedSlot_eq hint']
    exact h.2
  have result : Meets (Assigned ctx B (F.adding [i])) (checkedIndex ctx id index hint i) (Supplies ctx B F id) Anyhow := by
    refine assigned_release.bind fun _ => (assigned_demandedSlot hint).bind fun r => .given fun hr => ?_
    split
    · exact .pure fun s hs => hs.supplies_none fun _ _ h => h.1
    · rename_i r
      have htakes : (Instruction.move .int r.slot i.slot).Takes [i] r :=
        Instruction.takes_move (Option.some.inj (hkind.symm.trans (hr r rfl).1)) hint'.symm
      dsimp only
      split
      · refine (assigned_write htakes.writes fun K s h => ?_).bind fun _ => .pure fun s hs => ?_
        · rw [htakes.reads]
          exact h.2
        · exact hs.supplies_some (hr r rfl).1 fun K t h => ⟨h.1.1, h.2 r List.mem_cons_self⟩
      · rename_i heq
        refine .pure fun s hs => hs.supplies_some (hr r rfl).1 fun K t h => ⟨h.1, ?_⟩
        rw [not_ne_iff.1 heq]
        exact h.2 i List.mem_cons_self
  split
  · exact (hw.upperBound lower _ hreads).bind fun _ => result
  · dsimp only
    split
    · exact (assigned_read (fun _ => rfl) (fun _ => rfl) hreads).bind fun _ => result
    · exact result

theorem cast (value : NodeId) (className : String) (hkind : ctx.function.kind? id = some .object) :
    Meets (Assigned ctx B F) (cast ctx w id value className hint) (Supplies ctx B F id) Anyhow := by
  refine .check (checks_classId ctx id className) fun target _ => ?_
  refine .check (checks_expectType ctx value _) fun _ hvalue => hw.onOperand value fun r a hr ha => ⟨?_, ?_⟩
  · exact congrArg some (typedSlot_eq (Option.some.inj (hr.symm.trans hkind)))
  · exact congrArg (fun x => [x]) (typedSlot_eq (Option.some.inj (ha.symm.trans hvalue)))

theorem instanceOf (value : NodeId) (className : String) (hkind : ctx.function.kind? id = some .int) :
    Meets (Assigned ctx B F) (instanceOf ctx w id value className hint) (Supplies ctx B F id) Anyhow := by
  refine .check (checks_classId ctx id className) fun target _ => ?_
  refine .check (checks_expectType ctx value _) fun _ hvalue => hw.onOperand value fun r a hr ha => ⟨?_, ?_⟩
  · exact congrArg some (typedSlot_eq (Option.some.inj (hr.symm.trans hkind)))
  · exact congrArg (fun x => [x]) (typedSlot_eq (Option.some.inj (ha.symm.trans hvalue)))

/-! ## Calls -/

theorem operands (args : List NodeId) : ∀ F, Meets (Assigned ctx B F) (args.mapM w.operand)
    (fun slots s => List.Forall₂ (fun arg x => ctx.function.kind? arg = some x.kind) args slots ∧
      Assigned ctx B (F.adding slots) s) Anyhow := by
  induction args with
  | nil => exact fun F => .pure fun s hs => ⟨.nil, hs.weaken fun K t h => ⟨h, List.forall_mem_nil _⟩⟩
  | cons arg args ih =>
    intro F
    rw [List.mapM_cons]
    refine (hw.operand arg).bind fun x => .given fun hx => (ih _).bind fun xs => .pure fun s hs => ⟨.cons hx hs.1, ?_⟩
    exact hs.2.weaken fun K t h => ⟨h.1.1, List.forall_mem_cons.2 ⟨h.1.2 x List.mem_cons_self, h.2⟩⟩

end Walk.Assigns

theorem assigned_releaseAll (ids : List NodeId) :
    Meets (Assigned ctx B F) (ids.forM release) (fun _ => Assigned ctx B F) Anyhow := by
  induction ids with
  | nil => exact .pure fun _ hs => hs
  | cons id ids ih => exact assigned_release.bind fun _ => ih

namespace Walk.Assigns

variable (hw : w.Assigns ctx)
include hw

theorem call (method : MethodRef) (kind : CallKind) (args : List NodeId) :
    Meets (Assigned ctx B F) (call ctx w id method kind args hint) (Supplies ctx B F id) Anyhow := by
  unfold Lowering.call
  split
  · exact .fail trivial
  · rename_i function _
    refine .check (checks_lookup (f := ctx.function) _) fun native _ => ?_
    refine .check (checks_call (f := ctx.function) id method kind native args.length) fun _ _ => ?_
    refine .check (checks_arguments ctx _) fun _ htypes => (hw.operands args F).bind fun slots => .given fun hslots => ?_
    refine (assigned_releaseAll _).bind fun _ => (assigned_demandedSlot hint).bind fun result => .given fun hresult => ?_
    have hreads : (F.adding slots).Covers (CallSite.reads ⟨function, (slots.take kind.receiverCount).head?.map (·.slot),
        slots.drop kind.receiverCount, result⟩) := by
      intro K s h x hx
      rcases List.mem_append.1 hx with hx | hx
      · obtain ⟨slot, hreceiver, rfl⟩ := List.mem_map.1 hx
        exact h.2 _ (object_of_receiver htypes hslots slot (Option.mem_toList.1 hreceiver))
      · exact h.2 x (List.mem_of_mem_drop hx)
    have hdone : Meets (Assigned ctx B ((F.adding slots).adding result.toList)) (pure { slot := result })
        (Supplies ctx B F id) Anyhow :=
      .pure fun s hs => ⟨⟨rfl, fun x hx => (hresult x hx).1⟩, hs.weaken fun K t h => ⟨h.1.1, h.2⟩⟩
    exact (assigned_call hreads).bind fun _ => hdone

end Walk.Assigns

/-! ## Constants and fixed slots -/

theorem assigned_constant {make : Slot → Instruction}
    (hm : ∀ r : TypedSlot, ctx.function.kind? id = some r.kind → (make r.slot).writes = some r ∧ (make r.slot).reads = []) :
    Meets (Assigned ctx B F) (constant ctx id hint make) (Supplies ctx B F id) Anyhow := by
  refine (assigned_demandedSlot hint).bind fun r => .given fun hr => ?_
  cases r with
  | none => exact .pure fun s hs => hs.supplies_none fun _ _ h => h
  | some r =>
    obtain ⟨hwrite, hread⟩ := hm r (hr r rfl).1
    refine (assigned_write hwrite fun K s _ => ?_).bind fun _ => .pure fun s hs =>
      hs.supplies_some (hr r rfl).1 fun K t h => ⟨h.1, h.2 r List.mem_cons_self⟩
    rw [hread]
    exact List.forall_mem_nil _

theorem assigned_text (value : String) (hkind : ctx.function.kind? id = some .object) :
    Meets (Assigned ctx B F) (text ctx id value hint) (Supplies ctx B F id) Anyhow := by
  refine assigned_isDemanded.bind fun d => .given fun _ => ?_
  split
  · refine (assigned_intern value).bind fun index => assigned_constant fun r hr => ⟨?_, rfl⟩
    exact congrArg some (typedSlot_eq (Option.some.inj (hr.symm.trans hkind)))
  · exact .pure fun s hs => hs.supplies_none fun _ _ h => h

theorem assigned_getStatic (field : FieldRef) :
    Meets (Assigned ctx B F) (getStatic ctx id field hint) (Supplies ctx B F id) Anyhow := by
  unfold getStatic
  split
  · exact .fail trivial
  · rename_i index declared _
    refine .check (checks_field (f := ctx.function) id field declared) fun _ _ => ?_
    refine (assigned_demandedSlot hint).bind fun r => .given fun hr => ?_
    cases r with
    | none => exact .pure fun s hs => hs.supplies_none fun _ _ h => h
    | some r =>
      refine (assigned_write (r := r) rfl fun _ _ _ => List.forall_mem_nil _).bind fun _ => .pure fun s hs => ?_
      exact hs.supplies_some (hr r rfl).1 fun K t h => ⟨h.1, h.2 r List.mem_cons_self⟩

theorem assigned_fixedSlot {x : TypedSlot} (hx : x ∈ ctx.params ++ ctx.vars) (hkind : ctx.function.kind? id = some x.kind) :
    Meets (Assigned ctx B F) (fixedSlot id x)
      (fun v s => (∀ y, v.slot = some y → y ∈ ctx.params ++ ctx.vars) ∧ Supplies ctx B F id v s) Anyhow := by
  refine assigned_borrow.bind fun _ => assigned_isDemanded.bind fun d => .given fun _ => ?_
  split
  · refine .pure fun s hs => ⟨fun y hy => Option.some.inj hy ▸ hx, ⟨rfl, fun y hy => Option.some.inj hy ▸ hkind⟩, ?_⟩
    obtain ⟨K, hK, hF⟩ := hs
    exact ⟨K, hK, hF, List.forall_mem_singleton.2 (hK.fixed x hx)⟩
  · exact .pure fun s hs => ⟨nofun, hs.supplies_none fun _ _ h => h⟩

theorem assigned_param (hctx : ctx.Typed) {index : ParamId} {n : Node} (hn : ctx.function.node? id = some n)
    (he : n.expr = .param index) :
    Meets (Assigned ctx B F) (param ctx id index)
      (fun v s => (∀ y, v.slot = some y → y ∈ ctx.params ++ ctx.vars) ∧ Supplies ctx B F id v s) Anyhow := by
  unfold param
  split
  · rename_i x hx
    obtain ⟨type, htype, hkind⟩ := kind_of_declared hctx.params hx
    refine assigned_fixedSlot (List.mem_append_left _ (List.mem_of_getElem? hx)) ?_
    exact (hctx.nodes.kind hn (by simp [he, Expr.fixedType?, Function.scope, htype])).trans hkind
  · exact .fail trivial

theorem assigned_getVar (hctx : ctx.Typed) {index : VarId} {n : Node} (hn : ctx.function.node? id = some n)
    (he : n.expr = .getVar index) :
    Meets (Assigned ctx B F) (getVar ctx id index)
      (fun v s => (∀ y, v.slot = some y → y ∈ ctx.params ++ ctx.vars) ∧ Supplies ctx B F id v s) Anyhow := by
  refine .check (checks_varSlot ctx id index) fun x hx => ?_
  obtain ⟨type, htype, hkind⟩ := kind_of_declared hctx.vars hx
  refine assigned_fixedSlot (List.mem_append_right _ (List.mem_of_getElem? hx)) ?_
  exact (hctx.nodes.kind hn (by simp [he, Expr.fixedType?, Function.scope, htype])).trans hkind

end Lowering

end SlotCode
