/-
  SlotCode.Proofs.AssignedWalk — the whole walk writes registers before it reads them.

  One lemma for each way of lowering a node that moves control, and then the walk itself, by
  induction on its room (`walk_assigns`). A value read a second time is one that was built in
  a region still open, so its slot is covered. Where a node never completes, control does not
  come after it, unless the code after it is where an adopted tail falls through. An arm and a
  body run in regions of their own, so that what they build is out of reach where paths meet.
-/

import SlotCode.Proofs.AssignedOperands
import SlotCode.Proofs.TreeShape

namespace SlotCode

/-- What the types of a function promise about its control flow. Values may be shared freely; what never
    completes has one consumer, and the value of a block comes from its body alone. -/
structure Function.Structured (f : Function) : Prop where
  typed : ∀ id n, f.node? id = some n → f.TypedAs n
  ends : ∀ id n, f.node? id = some n → n.type = .unreachable → n.expr.mayNotComplete = true
  alone : ∀ id, f.NeverEnds id → (∀ p q, f.Reachable p → f.Reachable q → f.IsChild p id → f.IsChild q id → p = q) ∧
    ∀ p, f.Reachable p → (f.children p).count id ≤ 1
  blocks : ∀ id n name body, f.node? id = some n → n.expr = .block name body → (tallyAt f.tallies id).demanded = true →
    f.Fits id body
  arms : ∀ id n condition thenArm elseArm, f.node? id = some n → n.expr = .conditional condition thenArm elseArm →
    (tallyAt f.tallies id).demanded = true → f.Fits id thenArm ∧ f.Fits id elseArm
  exits : ∀ id n name body, f.node? id = some n → n.expr = .block name body → (tallyAt f.tallies id).demanded = true →
    ¬ f.Leaves name

namespace Function

variable {f : Function}

/-- At most one node names this one, and at most once. -/
def NamedOnce (f : Function) (id : NodeId) : Prop :=
  ∀ p : Fin f.nodes.size, (f.children p).count id ≤ 1 ∧
    ∀ q : Fin f.nodes.size, id ∈ f.children p → id ∈ f.children q → p = q

instance (id : NodeId) : Decidable (f.NamedOnce id) := inferInstanceAs (Decidable (∀ _ : Fin f.nodes.size, _ ∧ _))

/-- What `Structured` says of one node. -/
def structuredAt (f : Function) (id : NodeId) : Bool :=
  f.shapedAt (id, (tallyAt f.tallies id).demanded, []) && (f.node? id).all fun n =>
    (n.type ≠ .unreachable || f.NamedOnce id) &&
      match n.expr with
      | .block name _ => !(tallyAt f.tallies id).demanded || f.nodes.all (·.expr ≠ .exitBlock name)
      | _ => true

theorem lt_of_isChild {p c : NodeId} (h : f.IsChild p c) : p < f.nodes.size := by
  unfold IsChild children node? at h
  by_contra hge
  simp [Array.getElem?_eq_none (Nat.le_of_not_lt hge)] at h

theorem structured_of_check (h : ∀ id < f.nodes.size, f.structuredAt id = true) : f.Structured := by
  have hat : ∀ {id n}, f.node? id = some n → f.structuredAt id = true := fun hn =>
    h _ (Array.getElem?_eq_some_iff.1 hn).1
  refine ⟨fun id n hn => ?_, fun id n hn hu => ?_, fun id ⟨n, hn, hu⟩ => ?_, fun id n name body hn he hd => ?_,
    fun id n condition thenArm elseArm hn he hd => ?_, fun id n name body hn he hd => ?_⟩
  · have := hat hn
    simp only [structuredAt, shapedAt, hn, Bool.and_eq_true, decide_eq_true_eq] at this
    exact this.1.1.1
  · have := hat hn
    simp only [structuredAt, shapedAt, hn, Bool.and_eq_true, decide_eq_true_eq] at this
    simpa [hu] using this.1.1.2
  · have := hat hn
    simp only [structuredAt, hn, Option.all_some, Bool.and_eq_true] at this
    have honce : f.NamedOnce id := by simpa [hu] using this.2.1
    refine ⟨fun p q _ _ hp hq => ?_, fun p _ => ?_⟩
    · exact Fin.mk.inj ((honce ⟨p, lt_of_isChild hp⟩).2 ⟨q, lt_of_isChild hq⟩ hp hq)
    by_cases hlt : p < f.nodes.size
    · exact (honce ⟨p, hlt⟩).1
    · exact (List.count_eq_zero_of_not_mem fun hc => hlt (lt_of_isChild hc)).le.trans (Nat.zero_le 1)
  · have := hat hn
    simp only [structuredAt, shapedAt, hn, he, hd, Bool.and_eq_true] at this
    simpa using this.1.2
  · have := hat hn
    simp only [structuredAt, shapedAt, hn, he, hd, Bool.and_eq_true] at this
    simpa using this.1.2
  · have := hat hn
    simp only [structuredAt, hn, he, hd, Option.all_some, Bool.and_eq_true] at this
    rintro ⟨i, m, hm, hexit⟩
    have hall : ∀ (i : Nat) (hi : i < f.nodes.size), ¬ f.nodes[i].expr = .exitBlock name := by simpa using this.2.2
    obtain ⟨hlt, rfl⟩ := Array.getElem?_eq_some_iff.1 hm
    exact hall i hlt hexit

end Function

namespace Lowering

variable {α : Type} {w : Walk} {ctx : Context} {B : Bases} {F : Facts} {id : NodeId} {hint : Option TypedSlot}
  {offer : Option Offer} {s : State}

/-! ## Exits -/

/-- What a node without a value gives: whether it took the offer, and then control does not come after it. -/
def Departs (ctx : Context) (B : Bases) (F : Facts) (offer : Option Offer) (v : Visited) (s : State) : Prop :=
  (v.slot = none ∧ (v.taken = true → offer ≠ none)) ∧ Assigned ctx B (F.ending (v.taken = false)) s

theorem assigned_exitJumps (hoffer : Offers F offer) : Meets (Assigned ctx B F) (exitJumps offer)
    (fun r s => (r.2 = true → offer ≠ none) ∧ Assigned ctx B ((F.leaving B.all r.1).ending (r.2 = false)) s) Anyhow := by
  refine .each fun s hs => ?_
  obtain ⟨K, hK, hF⟩ := hs
  refine .step (t := s) (a := offer.filter (·.position = s.draft.label)) rfl ?_
  cases ho : offer.filter (·.position = s.draft.label) with
  | none =>
    have hgo : Meets (Assigned ctx B F) gotoPending (fun p => Assigned ctx B ((F.leaving B.all [p]).ending True)) Anyhow :=
      assigned_gotoPending fun K s hK _ => hK.bases
    have hstart : Meets (· = s) gotoPending (fun p => Assigned ctx B ((F.leaving B.all [p]).ending True)) Anyhow :=
      hgo.pre fun t ht => ht ▸ ⟨K, hK, hF⟩
    exact hstart.bind fun p => .pure fun t ht => ⟨nofun, ht.weaken fun _ _ h => ⟨h.1, fun _ => h.2 trivial⟩⟩
  | some o =>
    obtain ⟨hmem, hposition⟩ := Option.filter_eq_some_iff.1 ho
    obtain ⟨hfall, hb⟩ := hoffer K s hF o hmem
    have hposition : o.branch.fallThrough = s.draft.label := hfall ▸ by simpa using hposition
    refine (parted_defer hK hb hposition o.polarity).bind fun jumps => .pure fun t ht => ⟨fun _ hnone => ?_, ?_⟩
    · rw [hnone] at hmem
      cases hmem
    · refine ht.2.2.2.weaken fun K' t h => ⟨⟨F.stable h.1 hF, fun p hp => ?_⟩, nofun⟩
      exact ⟨(h.2 p hp).1, fun x hx => (h.2 p hp).2 x (hK.bases x hx)⟩

/-- A change of one frame that is right for its base. -/
theorem forall₂_update {γ δ : Type} {R : γ → δ → Prop} {l : List γ} {m : List δ} (h : List.Forall₂ R l m) {g : δ → δ} :
    ∀ i : Nat, (∀ a b, l[i]? = some a → R a b → R a (g b)) → List.Forall₂ R l (m.modify i g) := by
  induction h with
  | nil =>
    intro i _
    simp
  | cons hab _ ih =>
    intro i hg
    cases i with
    | zero => exact .cons (hg _ _ rfl hab) (by assumption)
    | succ i => exact .cons hab (ih i hg)

theorem exists_of_forall₂ {γ δ : Type} {R : γ → δ → Prop} {l : List γ} {m : List δ} (h : List.Forall₂ R l m) :
    ∀ {b}, b ∈ m → ∃ a ∈ l, R a b := by
  induction h with
  | nil => nofun
  | cons hab _ ih =>
    intro b hb
    rcases List.mem_cons.1 hb with rfl | hb
    · exact ⟨_, List.mem_cons_self, hab⟩
    · obtain ⟨a, ha, hR⟩ := ih hb
      exact ⟨a, List.mem_cons_of_mem _ ha, hR⟩

theorem Leaving.append {K : Coverage} {n : Nat} {base : Set TypedSlot} {jumps more : List Patch} (h : Leaving K n base jumps)
    (h' : Leaving K n base more) : Leaving K n base (jumps ++ more) :=
  fun p hp => (List.mem_append.1 hp).elim (h p) (h' p)

theorem assigned_exitBlock {name : BlockId} (hoffer : Offers F offer) (hleaves : ctx.function.Leaves name) :
    Meets (Assigned ctx B F) (exitBlock id name offer) (Departs ctx B F offer) Anyhow := by
  refine .read fun s hs => ?_
  split
  · exact .fail trivial
  · rename_i i hi
    have hname : ∀ base, B.blocks[i]? = some base → base.1 = name := by
      intro base hbase
      obtain ⟨K, hK, -⟩ := hs
      obtain ⟨hlt, hfound, -⟩ := List.findIdx?_eq_some_iff_getElem.1 hi
      obtain ⟨hlt', rfl⟩ := List.getElem?_eq_some_iff.1 hbase
      have hframe := hK.blocks.get hlt' hlt
      exact hframe.name.symm.trans (by simpa using hfound)
    refine ((assigned_exitJumps hoffer).pre fun t ht => ht ▸ hs).bind fun r => .given fun htaken => ?_
    obtain ⟨jumps, taken⟩ := r
    have hupdate : Meets (Assigned ctx B ((F.leaving B.all jumps).ending (taken = false)))
        (modify fun s => { s with blocks := s.blocks.modify i fun f => { f with breaks := f.breaks ++ jumps } })
        (fun _ => Assigned ctx B (F.ending (taken = false))) Anyhow := by
      rintro s ⟨K, hK, ⟨hF, hleave⟩, hend⟩
      refine ⟨K, { hK with blocks := forall₂_update hK.blocks i fun base frame hbase hframe => ?_ }, F.of_code hF rfl rfl, hend⟩
      refine ⟨hframe.name, hframe.breaks.append fun p hp => ?_, .inr (hname base hbase ▸ hleaves)⟩
      exact ⟨(hleave p hp).1, fun x hx => (hleave p hp).2 x (.inl ⟨base, List.mem_of_getElem? hbase, hx⟩)⟩
    exact hupdate.bind fun _ => .pure fun t ht => ⟨⟨rfl, htaken⟩, ht⟩

theorem assigned_exitLoop {name : LoopId} (hoffer : Offers F offer) :
    Meets (Assigned ctx B F) (exitLoop id name offer) (Departs ctx B F offer) Anyhow := by
  refine .bind (assigned_keeps .get) fun s => ?_
  split
  · exact .fail trivial
  · rename_i i _
    refine (assigned_exitJumps hoffer).bind fun r => .given fun htaken => ?_
    obtain ⟨jumps, taken⟩ := r
    have hupdate : Meets (Assigned ctx B ((F.leaving B.all jumps).ending (taken = false)))
        (modify fun s => { s with loops := s.loops.modify i fun f => { f with breaks := f.breaks ++ jumps } })
        (fun _ => Assigned ctx B (F.ending (taken = false))) Anyhow := by
      rintro s ⟨K, hK, ⟨hF, hleave⟩, hend⟩
      refine ⟨K, { hK with loops := forall₂_update hK.loops i fun base frame hbase hframe => ?_ }, F.of_code hF rfl rfl, hend⟩
      refine ⟨hframe.bound, hframe.header, hframe.breaks.append fun p hp => ?_⟩
      exact ⟨(hleave p hp).1, fun x hx => (hleave p hp).2 x (.inr ⟨base, List.mem_of_getElem? hbase, hx⟩)⟩
    exact hupdate.bind fun _ => .pure fun t ht => ⟨⟨rfl, htaken⟩, ht⟩

theorem Covered.header {K : Coverage} {frame : LoopFrame} (h : Covered ctx B K s) (hframe : frame ∈ s.loops) :
    frame.header ≤ s.draft.label ∧ ∀ x ∈ K frame.header, x ∈ K s.draft.label := by
  obtain ⟨base, hbase, hwaits⟩ := exists_of_forall₂ h.loops hframe
  exact ⟨hwaits.bound, fun x hx => h.bases x (.inr ⟨base, hbase, hwaits.header x hx⟩)⟩

theorem assigned_continueLoop {name : LoopId} (hoffer : Offers F offer) :
    Meets (Assigned ctx B F) (continueLoop id name offer) (Departs ctx B F offer) Anyhow := by
  refine .read fun s hs => ?_
  obtain ⟨K, hK, hF⟩ := hs
  split
  · exact .fail trivial
  · rename_i frame hfound
    obtain ⟨hbound, hcover⟩ := hK.header (List.mem_of_find?_eq_some hfound)
    refine .step (t := s) (a := offer.filter (·.position = s.draft.label)) rfl ?_
    cases ho : offer.filter (·.position = s.draft.label) with
    | none =>
      have hgo : Meets (· = s) (emit (.goto (.address frame.header))) (fun _ => Assigned ctx B (F.ending True)) Anyhow := by
        intro t ht
        subst ht
        obtain ⟨K', hK', honward, hall⟩ := hK.stop (d := t.draft.add (.goto (.address frame.header))) rfl rfl fun j hj => by
          obtain rfl := List.mem_singleton.1 hj
          exact ⟨hbound, hcover⟩
        exact ⟨K', hK', F.stable honward hF, fun _ => hall⟩
      exact hgo.bind fun _ => .pure fun t ht => ⟨⟨rfl, nofun⟩, ht.weaken fun _ _ h => ⟨h.1, fun _ => h.2 trivial⟩⟩
    | some o =>
      obtain ⟨hmem, hposition⟩ := Option.filter_eq_some_iff.1 ho
      obtain ⟨hfall, hb⟩ := hoffer K s hF o hmem
      have hposition : o.branch.fallThrough = s.draft.label := hfall ▸ by simpa using hposition
      have hmend : Mends K s.sites s.draft.label (o.branch.resolve o.polarity (.address frame.header)) fun _ => True :=
        .resolve hb o.polarity hbound (hposition ▸ hcover)
      have hgo : Meets (· = s) (drafting (o.branch.resolve o.polarity (.address frame.header)))
          (fun _ => Assigned ctx B F) Anyhow := by
        intro t ht
        subst ht
        split
        · rename_i hr
          obtain ⟨hcovered, honward, -⟩ := hK.mend hmend hr
          exact ⟨K, hcovered, F.stable honward hF⟩
        · exact trivial
      refine hgo.bind fun _ => .pure fun t ht => ⟨⟨rfl, fun _ hnone => ?_⟩, ht.weaken fun _ _ h => ⟨h, nofun⟩⟩
      rw [hnone] at hmem
      cases hmem

/-! ## Sequences and conditionals -/

/-- What a visit gives. -/
def Provides (ctx : Context) (B : Bases) (F : Facts) (id : NodeId) (offer : Option Offer) (v : Visited) (s : State) : Prop :=
  v.Suits ctx.function id offer ∧ Assigned ctx B (F.after ctx.function id v.slot v.taken) s

theorem Supplies.provides {v : Visited} (h : Supplies ctx B F id v s) (hid : ¬ ctx.function.NeverEnds id) :
    Provides ctx B F id offer v s :=
  ⟨⟨h.1.2, fun ht => absurd (h.1.1.symm.trans ht) nofun⟩, h.2.weaken fun _ _ hF => ⟨hF, fun hend => absurd hend.1 hid⟩⟩

theorem Departs.provides {v : Visited} (h : Departs ctx B F offer v s) (hkind : ctx.function.kind? id = none) :
    Provides ctx B F id offer v s := by
  obtain ⟨⟨hslot, htaken⟩, hs⟩ := h
  refine ⟨⟨fun x hx => absurd (hslot.symm.trans hx) nofun, fun ht => ⟨hkind, htaken ht⟩⟩, hs.weaken fun K t hF =>
    ⟨⟨hF.1, ?_⟩, fun hend => hF.2 hend.2⟩⟩
  rw [hslot]
  exact List.forall_mem_nil _

/-- After the operator that is never reached, control does not come. -/
theorem assigned_nullary (op : NullaryOp) (hkind : ctx.function.kind? id = op.resultType.kind?)
    (hends : (Expr.nullary op).mayNotComplete = false → ¬ ctx.function.NeverEnds id) :
    Meets (Assigned ctx B F) (nullary ctx id hint op) (Provides ctx B F id offer) Anyhow := by
  cases op with
  | void => exact .pure fun s hs => (hs.supplies_none fun _ _ h => h).provides (hends rfl)
  | null =>
    refine (assigned_constant fun r hr => ⟨?_, rfl⟩).post fun v s hv => hv.provides (hends rfl)
    exact congrArg some (typedSlot_eq (Option.some.inj (hr.symm.trans hkind)))
  | unreachable =>
    refine assigned_unreachable.bind fun _ => .pure fun s hs => Departs.provides ⟨⟨rfl, nofun⟩, ?_⟩ hkind
    exact hs.weaken fun _ _ h => ⟨h.1, fun _ => h.2 trivial⟩

theorem offers_offer {u : State} {K : Coverage} {b : Branch} (hb : Branch.Covered K u.draft.label b)
    (hfall : b.fallThrough = u.draft.label) (polarity : Bool) :
    Offers (Facts.since u K) (ctx.offer u.draft.label b polarity) := by
  intro K' s ho o hoffer
  unfold Context.offer at hoffer
  split at hoffer
  · cases hoffer
    exact ⟨hfall.symm, (((Facts.since u K).branching b).stable ho ⟨.refl u K, hb⟩).2⟩
  · cases hoffer

namespace Walk.Assigns

variable (hw : w.Assigns ctx)
include hw

theorem sequence (first second : NodeId) (hoffer : Offers F offer) (hkind : ctx.function.kind? id = ctx.function.kind? second)
    (hends : ctx.function.NeverEnds id → ctx.function.NeverEnds second) :
    Meets (Assigned ctx B F) (sequence ctx w id first second hint offer) (Provides ctx B F id offer) Anyhow := by
  refine (hw.effect_only first).bind fun _ => (assigned_demandedSlot hint).bind fun target => .given fun htarget => ?_
  have hvalue : ∀ x, target = some x → ctx.function.kind? second ≠ none := fun x hx => by
    rw [← hkind, (htarget x hx).1]
    nofun
  refine (hw.forward second hoffer fun x hx => .inl (hvalue x hx)).bind fun taken => .given fun ht => .pure fun s hs => ?_
  refine ⟨⟨fun x hx => (htarget x hx).1, fun h => ⟨hkind.trans (ht h).1, (ht h).2⟩⟩,
    hs.weaken fun K t h => ⟨⟨h.1.1, fun x hx => ?_⟩, fun hid => h.2 ⟨hends hid.1, hid.2⟩⟩⟩
  refine h.1.2 ?_ x hx
  by_contra hyes
  exact hvalue x (Option.mem_toList.1 hx) (ht (by simpa using hyes)).1

variable {u : State} {K₁ : Coverage} {target : Option TypedSlot}

theorem arm (id : NodeId) (hoffer : Offers F offer)
    (hfit : ∀ x, target = some x → ctx.function.kind? id ≠ none ∨ ctx.function.NeverEnds id) :
    Meets (Parted ctx u B F) (arm ctx w id target offer)
      (fun taken s => (taken = true → ctx.function.kind? id = none ∧ offer ≠ none) ∧
        Parted ctx u B ((F.landing (taken = false) target.toList).ending (ctx.function.NeverEnds id ∧ taken = false)) s) Anyhow :=
  parted_inRegion (R := fun taken _ => taken = true → ctx.function.kind? id = none ∧ offer ≠ none) fun _ =>
    hw.forward id hoffer hfit

/-- An arm that is offered nothing. -/
theorem arm_none (id : NodeId) (hfit : ∀ x, target = some x → ctx.function.kind? id ≠ none ∨ ctx.function.NeverEnds id) :
    Meets (Parted ctx u B F) (Lowering.arm ctx w id target none)
      (fun _ => Parted ctx u B ((F.adding target.toList).ending (ctx.function.NeverEnds id))) Anyhow := by
  refine (hw.arm id offers_none hfit).post fun taken s hs => hs.2.weaken fun K t h => ?_
  have ht : taken = false := by
    by_contra hyes
    exact (hs.1 (by simpa using hyes)).2 rfl
  exact ⟨⟨h.1.1, h.1.2 ht⟩, fun hid => h.2 ⟨hid, ht⟩⟩

theorem elseOnly (hu : Covered ctx B K₁ u) {b : Branch} (hb : Branch.Covered K₁ u.draft.label b)
    (hfall : b.fallThrough = u.draft.label) (elseArm : NodeId)
    (hfit : ∀ x, target = some x → ctx.function.kind? elseArm ≠ none ∨ ctx.function.NeverEnds elseArm) :
    Meets (Parted ctx u B (Facts.since u K₁)) (elseOnly ctx w b u.draft.label elseArm target)
      (fun _ => Parted ctx u B (Facts.since u K₁)) Anyhow := by
  refine (hw.arm elseArm (offers_offer hb hfall false) hfit).bind fun taken => .given fun _ => ?_
  cases taken with
  | true => exact .pure fun s hs => hs.weaken fun _ _ h => h.1.1
  | false =>
    refine parted_label.bind fun n => ?_
    refine ((parted_resolve hu hb hfall ∅ [] true n).pre fun s hs => ⟨hs.1, ?_⟩).post fun _ s hs => hs.weaken fun _ _ h => h.1
    exact hs.2.weaken fun _ _ h => ⟨h.1.1, List.forall_mem_nil _⟩

/-- Both arms write the target, or do not complete. -/
theorem bothArms (hu : Covered ctx B K₁ u) {b : Branch} (hb : Branch.Covered K₁ u.draft.label b)
    (hfall : b.fallThrough = u.draft.label) (thenArm elseArm : NodeId)
    (hfit : ∀ x, target = some x → ctx.function.kind? elseArm ≠ none ∨ ctx.function.NeverEnds elseArm) :
    Meets (Parted ctx u B ((Facts.since u K₁).adding target.toList)) (bothArms ctx w b thenArm elseArm target)
      (fun _ => Parted ctx u B (((Facts.since u K₁).adding target.toList).ending
        (ctx.function.NeverEnds thenArm ∧ ctx.function.NeverEnds elseArm))) Anyhow := by
  refine .check (checks_node ctx thenArm) fun n hn => ?_
  let M : Set TypedSlot := K₁ u.draft.label ∪ {x | x ∈ target.toList}
  -- The else arm, with the jump over it, if there is one, still open.
  have hover : ∀ skip : Option Patch, (skip ≠ none → ¬ ctx.function.NeverEnds thenArm) →
      Meets (Parted ctx u B ((Facts.since u K₁).leaving M skip.toList)) (secondArm ctx w b elseArm target skip)
        (fun _ => Parted ctx u B (((Facts.since u K₁).adding target.toList).ending
          (ctx.function.NeverEnds thenArm ∧ ctx.function.NeverEnds elseArm))) Anyhow := by
    intro skip hskip
    refine parted_label.bind fun n => (parted_resolve hu hb hfall M skip.toList false n).bind fun _ => ?_
    refine (hw.arm_none elseArm hfit).bind fun _ => ?_
    cases skip with
    | none => exact .pure fun s hs => hs.weaken fun K t h => ⟨⟨h.1.1.1, h.1.2⟩, fun hid => h.2 hid.2⟩
    | some jump =>
      refine parted_label.bind fun after => ?_
      refine (parted_join hu M ∅ [jump] [] (fun _ hx => .inl hx) (fun K s h => ?_) after
        fun K s _ _ hhere hjumps => ?_).post fun _ s hs => hs.weaken fun K t h => ?_
      · exact ⟨h.1.1.1, fun x hx => hx.elim (h.1.1.1.grows x) (h.1.2 x), h.1.1.2, List.forall_mem_nil _⟩
      · exact .patch (Nat.le_refl _) fun x hx => (hjumps jump List.mem_cons_self).2 x (hhere ▸ hx)
      · exact ⟨⟨h.1.1, fun x hx => h.2 x (.inr hx)⟩, fun hid => absurd hid.1 (hskip nofun)⟩
  let Q : Option Patch → State → Prop := fun skip s => (skip ≠ none → ¬ ctx.function.NeverEnds thenArm) ∧
    Parted ctx u B ((Facts.since u K₁).leaving M skip.toList) s
  dsimp only
  split
  · rename_i htype
    have hnot : ¬ ctx.function.NeverEnds thenArm := by
      rintro ⟨m, hm, hmtype⟩
      cases hn.symm.trans hm
      exact htype hmtype
    have hgo : Meets (Parted ctx u B ((Facts.since u K₁).adding target.toList)) gotoPending
        (fun p => Parted ctx u B ((Facts.since u K₁).leaving M [p])) Anyhow :=
      (parted_drafting (assigned_gotoPending fun K s _ h x hx => hx.elim (h.1.grows x) (h.2 x))).post
        fun p s hs => hs.weaken fun K t h => ⟨h.1.1.1, h.1.2⟩
    exact Meets.bind (Q := Q) (.map (hgo.post fun p s hs => ⟨fun _ => hnot, hs⟩)) fun skip => .given (hover skip)
  · refine Meets.bind (Q := Q) (.pure fun s hs => ⟨nofun, hs.weaken fun K t h => ⟨h.1, ?_⟩⟩) fun skip => .given (hover skip)
    exact List.forall_mem_nil _

theorem conditional (condition thenArm elseArm : NodeId)
    (hfit : (tallyAt ctx.function.tallies id).demanded = true → ctx.function.Fits id thenArm ∧ ctx.function.Fits id elseArm)
    (hends : ctx.function.NeverEnds id → ctx.function.NeverEnds thenArm ∧ ctx.function.NeverEnds elseArm) :
    Meets (Assigned ctx B F) (conditional ctx w id condition thenArm elseArm hint) (Provides ctx B F id offer) Anyhow := by
  refine (assigned_demandedSlot hint).bind fun target => .given fun htarget => ?_
  have hfits : ∀ x arm, target = some x → ctx.function.Fits id arm →
      ctx.function.kind? arm ≠ none ∨ ctx.function.NeverEnds arm := by
    intro x arm hx harm
    rcases harm with hkind | hnever
    · left
      rw [hkind, (htarget x hx).1]
      nofun
    · exact .inr hnever
  have hthen := fun x hx => hfits x thenArm hx (hfit (htarget x hx).2).1
  have helse := fun x hx => hfits x elseArm hx (hfit (htarget x hx).2).2
  refine (hw.condition B F condition).bind fun b => .each fun u hu => ?_
  obtain ⟨hfall, K₁, hK₁, hF, hb⟩ := hu
  have hstart : Parted ctx u B (Facts.since u K₁) u := hK₁.parted (Onward.refl u K₁)
  have done : Meets (Parted ctx u B
      (((Facts.since u K₁).adding target.toList).ending (ctx.function.NeverEnds thenArm ∧ ctx.function.NeverEnds elseArm)))
      (pure ⟨target, false⟩) (Provides ctx B F id offer) Anyhow := .pure fun s hs =>
    ⟨⟨fun x hx => (htarget x hx).1, nofun⟩,
      hs.2.2.weaken fun K t h => ⟨⟨F.stable h.1.1 hF, h.1.2⟩, fun hid => h.2 (hends hid.1)⟩⟩
  refine .step (t := u) (a := u.draft.label) rfl (.start hstart ?_)
  refine (hw.arm thenArm (offers_offer hb hfall true) hthen).bind fun taken => .given fun _ => ?_
  cases taken with
  | true =>
    refine (hw.arm_none elseArm helse).bind fun _ => done.pre fun s hs => hs.weaken fun K t h => ?_
    exact ⟨⟨h.1.1.1.1, h.1.2⟩, fun hid => h.2 hid.2⟩
  | false =>
    refine parted_label.bind fun here => ?_
    split
    · rename_i hsame
      -- The then arm has emitted nothing, so what it has written had been written before.
      refine .each fun s hs => ?_
      obtain ⟨hhere, hparted⟩ := hs
      obtain ⟨K, -, hfacts⟩ := hparted.2.2
      have hat : K s.draft.label = K₁ u.draft.label := by
        rw [← hhere, hsame]
        exact hfacts.1.1.same _ (Nat.le_refl _)
      have helseOnly : Meets (· = s) (Lowering.elseOnly ctx w b u.draft.label elseArm target)
          (fun _ => Parted ctx u B (Facts.since u K₁)) Anyhow :=
        (hw.elseOnly hK₁ hb hfall elseArm helse).pre fun t ht => ht ▸ hparted.weaken fun _ _ h => h.1.1
      refine helseOnly.bind fun _ => done.pre fun t ht => ht.weaken fun K' t h =>
        ⟨⟨h, fun x hx => h.grows x ?_⟩, fun hid x => h.grows x ?_⟩
      · exact hat ▸ hfacts.1.2 rfl x hx
      · exact hat ▸ hfacts.2 ⟨hid.1, rfl⟩ x
    · refine ((hw.bothArms hK₁ hb hfall thenArm elseArm helse).pre fun s hs => ?_).bind fun _ => done
      exact hs.2.weaken fun K t h => ⟨h.1.1, h.1.2 rfl⟩

end Walk.Assigns

/-! ## Blocks and loops -/

section

variable {u : State} {K₁ : Coverage} {target : Option TypedSlot} {name : BlockId} {loopName : LoopId}

/-- The block relies on what is covered where it is opened. -/
def Bases.withBlock (B : Bases) (name : BlockId) (base : Set TypedSlot) : Bases := { B with blocks := (name, base) :: B.blocks }

def Bases.withLoop (B : Bases) (base : Set TypedSlot) : Bases := { B with loops := base :: B.loops }

def State.withBlock (s : State) (name : BlockId) : State := { s with blocks := ⟨name, []⟩ :: s.blocks }

def State.withLoop (s : State) (name : LoopId) : State := { s with loops := ⟨name, s.draft.label, []⟩ :: s.loops }

theorem Covered.openBlock (h : Covered ctx B K₁ u) (name : BlockId) :
    Covered ctx (B.withBlock name (K₁ u.draft.label)) K₁ (u.withBlock name) :=
  { h with
    bases := by
      rintro x (⟨base, hbase, hx⟩ | hx)
      · rcases List.mem_cons.1 hbase with rfl | hbase
        · exact hx
        · exact h.bases x (.inl ⟨base, hbase, hx⟩)
      · exact h.bases x (.inr hx)
    blocks := .cons ⟨rfl, List.forall_mem_nil _, .inl rfl⟩ h.blocks }

theorem Covered.openLoop (h : Covered ctx B K₁ u) (name : LoopId) :
    Covered ctx (B.withLoop (K₁ u.draft.label)) K₁ (u.withLoop name) :=
  { h with
    bases := by
      rintro x (hx | ⟨base, hbase, hx⟩)
      · exact h.bases x (.inl hx)
      · rcases List.mem_cons.1 hbase with rfl | hbase
        · exact hx
        · exact h.bases x (.inr ⟨base, hbase, hx⟩)
    loops := .cons ⟨Nat.le_refl _, fun _ hx => hx, List.forall_mem_nil _⟩ h.loops }

/-- What is known at the end of a block whose value comes from its body alone. -/
theorem assigned_closeBlock (hu : Covered ctx B K₁ u) (hexits : target ≠ none → ¬ ctx.function.Leaves name) :
    Meets (Parted ctx (u.withBlock name) (B.withBlock name (K₁ u.draft.label))
        ((Facts.since u K₁).adding target.toList)) closeBlock
      (fun _ => Assigned ctx B ((Facts.since u K₁).adding target.toList)) Anyhow := by
  refine .read fun t ht => ?_
  obtain ⟨hregions, hshut, K, hK, hsince, htarget⟩ := ht
  split
  · exact .fail trivial
  · rename_i frame rest hblocks
    obtain ⟨hframe, hrest⟩ : frame.Waits ctx.function K t.draft.label (name, K₁ u.draft.label) ∧
        List.Forall₂ (BlockFrame.Waits ctx.function K t.draft.label) B.blocks rest := List.forall₂_cons.1 (hblocks ▸ hK.blocks)
    let M : Set TypedSlot := K₁ u.draft.label ∪ {x | x ∈ target.toList}
    -- A block with a value is left by no jump.
    have hleave : Leaving K t.draft.label M frame.breaks := by
      intro p hp
      refine ⟨(hframe.breaks p hp).1, fun x hx => hx.elim ((hframe.breaks p hp).2 x) fun hx => ?_⟩
      have hsome : target ≠ none := fun hnone => by
        rw [hnone] at hx
        cases hx
      rcases hframe.left with hnil | hleaves
      · rw [hnil] at hp
        cases hp
      · exact absurd hleaves (hexits hsome)
    have hclosed : Covered ctx B K { t with blocks := rest } :=
      { hK with
        bases := fun x hx => hK.bases x (hx.imp_left fun ⟨base, hbase, hx⟩ => ⟨base, List.mem_cons_of_mem _ hbase, hx⟩)
        blocks := hrest }
    have hparted : Parted ctx u B (((Facts.since u K₁).adding target.toList).leaving M frame.breaks) { t with blocks := rest } :=
      ⟨hregions, hshut, K, hclosed, ⟨(Facts.since u K₁).of_code hsince rfl rfl, htarget⟩, hleave⟩
    have hjoin := parted_join hu M ∅ frame.breaks [] (F := ((Facts.since u K₁).adding target.toList).leaving M frame.breaks)
      (fun _ hx => .inl hx)
      (fun K s h => ⟨h.1.1, fun x hx => hx.elim (h.1.1.grows x) (h.1.2 x), h.2, List.forall_mem_nil _⟩) t.draft.label
      fun K s _ _ hhere hjumps => .patchAll (Nat.le_refl _) fun p hp x hx => (hjumps p hp).2 x (hhere ▸ hx)
    have hdone : ∀ s, Parted ctx u B (((Facts.since u K₁).leaving ∅ []).covering M) s →
        Assigned ctx B ((Facts.since u K₁).adding target.toList) s :=
      fun s hs => hs.2.2.weaken fun K t h => ⟨h.1.1, fun x hx => h.2 x (.inr hx)⟩
    intro v hv
    subst hv
    exact (hjoin.post fun _ => hdone) _ ⟨rfl, hparted⟩

theorem assigned_closeLoop (hu : Covered ctx B K₁ u) :
    Meets (Parted ctx (u.withLoop loopName) (B.withLoop (K₁ u.draft.label))
        (Facts.since u K₁)) closeLoop (fun _ => Assigned ctx B (Facts.since u K₁)) Anyhow := by
  refine .read fun t ht => ?_
  obtain ⟨hregions, hshut, K, hK, hsince⟩ := ht
  split
  · exact .fail trivial
  · rename_i frame rest hloops
    obtain ⟨hframe, hrest⟩ : frame.Waits K t.draft.label (K₁ u.draft.label) ∧
        List.Forall₂ (LoopFrame.Waits K t.draft.label) B.loops rest := List.forall₂_cons.1 (hloops ▸ hK.loops)
    have hclosed : Covered ctx B K { t with loops := rest } :=
      { hK with
        bases := fun x hx => hK.bases x (hx.imp_right fun ⟨base, hbase, hx⟩ => ⟨base, List.mem_cons_of_mem _ hbase, hx⟩)
        loops := hrest }
    have hparted : Parted ctx u B ((Facts.since u K₁).leaving (K₁ u.draft.label) frame.breaks) { t with loops := rest } :=
      ⟨hregions, hshut, K, hclosed, (Facts.since u K₁).of_code hsince rfl rfl, hframe.breaks⟩
    have hjoin := parted_join hu (K₁ u.draft.label) ∅ frame.breaks []
      (F := (Facts.since u K₁).leaving (K₁ u.draft.label) frame.breaks)
      (fun _ hx => hx) (fun K s h => ⟨h.1, h.1.grows, h.2, List.forall_mem_nil _⟩) t.draft.label
      fun K s _ _ hhere hjumps => .patchAll (Nat.le_refl _) fun p hp x hx => (hjumps p hp).2 x (hhere ▸ hx)
    have hdone : ∀ s, Parted ctx u B (((Facts.since u K₁).leaving ∅ []).covering (K₁ u.draft.label)) s →
        Assigned ctx B (Facts.since u K₁) s := fun s hs => hs.2.2.weaken fun _ _ h => h.1.1
    intro v hv
    subst hv
    exact (hjoin.post fun _ => hdone) _ ⟨rfl, hparted⟩

end

namespace Walk.Assigns

variable (hw : w.Assigns ctx)
include hw

theorem block (name : BlockId) (body : NodeId)
    (hfit : (tallyAt ctx.function.tallies id).demanded = true → ctx.function.Fits id body ∧ ¬ ctx.function.Leaves name) :
    Meets (Assigned ctx B F) (block ctx w id name body hint) (Supplies ctx B F id) Anyhow := by
  refine (assigned_demandedSlot hint).bind fun target => .given fun htarget => .each fun u hu => ?_
  obtain ⟨K₁, hK₁, hF⟩ := hu
  have hbody : ∀ x, target = some x → ctx.function.kind? body ≠ none ∨ ctx.function.NeverEnds body := by
    intro x hx
    rcases (hfit (htarget x hx).2).1 with hkind | hnever
    · left
      rw [hkind, (htarget x hx).1]
      nofun
    · exact .inr hnever
  have hexits : target ≠ none → ¬ ctx.function.Leaves name := fun hsome => by
    obtain ⟨x, hx⟩ := Option.ne_none_iff_exists'.1 hsome
    exact (hfit (htarget x hx).2).2
  have hstart := (hK₁.openBlock name).parted (F := Facts.since u K₁) ((Facts.since u K₁).of_code (Onward.refl u K₁) rfl rfl)
  refine .step (t := u.withBlock name) rfl (.start hstart ?_)
  refine (hw.arm_none body hbody).bind fun _ => ?_
  refine ((assigned_closeBlock hK₁ hexits).pre fun s hs => hs.weaken fun _ _ h => h.1).bind fun _ => .pure fun s hs => ?_
  exact ⟨⟨rfl, fun x hx => (htarget x hx).1⟩, hs.weaken fun K t h => ⟨F.stable h.1 hF, h.2⟩⟩

theorem loop (name : LoopId) (preheader body : NodeId) :
    Meets (Assigned ctx B F) (loop ctx w name preheader body) (Supplies ctx B F id) Anyhow := by
  refine (hw.effect_only preheader).bind fun _ => .each fun u hu => .step (t := u) (a := u.draft.label) rfl ?_
  obtain ⟨K₁, hK₁, hF⟩ := hu
  have hstart := (hK₁.openLoop name).parted (F := Facts.since u K₁) ((Facts.since u K₁).of_code (Onward.refl u K₁) rfl rfl)
  have hclose : Meets (Parted ctx (u.withLoop name) (B.withLoop (K₁ u.draft.label)) (Facts.since u K₁))
      (do closeLoop; return {}) (Supplies ctx B F id) Anyhow :=
    (assigned_closeLoop hK₁).bind fun _ => .pure fun s hs => hs.supplies_none fun K t h => F.stable h hF
  refine .step (t := u.withLoop name) rfl (.start hstart ?_)
  have hbody := parted_inRegion (R := fun _ _ => True) (B := B.withLoop (K₁ u.draft.label))
    (u := (u.withLoop name)) fun B => (hw.effect_only (B := B) (F := Facts.since u K₁) body).post
      fun _ s hs => ⟨trivial, hs⟩
  refine hbody.bind fun _ => .given fun _ => .check (checks_node ctx body) fun n _ => ?_
  dsimp only
  split
  · have hback : Meets (Parted ctx (u.withLoop name) (B.withLoop (K₁ u.draft.label))
        (Facts.since u K₁)) (emit (.goto (.address u.draft.label))) (fun _ => Parted ctx
          (u.withLoop name) (B.withLoop (K₁ u.draft.label)) ((Facts.since u K₁).ending True)) Anyhow :=
      parted_drafting (assigned_goto fun K s _ h => ⟨h.label, fun x hx => h.grows x (h.same _ (Nat.le_refl _) ▸ hx)⟩)
    exact hback.bind fun _ => hclose.pre fun s hs => hs.weaken fun _ _ h => h.1
  · exact hclose

end Walk.Assigns

/-! ## The walk -/

/-- Only what stands in a fixed slot is taken for built in an outer region. -/
theorem assigned_regionOf (e : Expr) : Meets (Assigned ctx B F) (regionOf e)
    (fun r s => (r < s.nextRegion ∧ (r ∈ s.regions.tail → e.isFixed = true)) ∧ Assigned ctx B F s) Anyhow := by
  have hcurrent : Meets (Assigned ctx B F) currentRegion
      (fun r s => (r < s.nextRegion ∧ (r ∈ s.regions.tail → e.isFixed = true)) ∧ Assigned ctx B F s) Anyhow := by
    rintro s ⟨K, hK, hF⟩
    refine ⟨?_, K, hK, hF⟩
    have hsorted := hK.sorted
    cases hregions : s.regions with
    | nil => exact ⟨hK.opened, nofun⟩
    | cons r rest =>
      rw [hregions, List.pairwise_cons, List.pairwise_cons] at hsorted
      exact ⟨hsorted.1 r List.mem_cons_self, fun hr => absurd (hsorted.2.1 r hr) (Nat.lt_irrefl r)⟩
  have hwhole : e.isFixed = true → Meets (Assigned ctx B F) (pure wholeFunction)
      (fun r s => (r < s.nextRegion ∧ (r ∈ s.regions.tail → e.isFixed = true)) ∧ Assigned ctx B F s) Anyhow :=
    fun he => .pure fun s ⟨K, hK, hF⟩ => ⟨⟨hK.opened, fun _ => he⟩, K, hK, hF⟩
  cases e with
  | param _ => exact hwhole rfl
  | getVar _ => exact hwhole rfl
  | _ => exact hcurrent

/-- A node that reads a parameter or a variable is in its slot. -/
def Rests (ctx : Context) (id : NodeId) (slot : Option TypedSlot) : Prop :=
  ∀ n, ctx.function.node? id = some n → n.expr.isFixed = true → ∀ x, slot = some x → x ∈ ctx.params ++ ctx.vars

/-- What a node hands out is noted when it is built; where the code has come to is not changed by that. -/
theorem assigned_entering {act : Lower α} {slot : α → Option TypedSlot} {Q : α → Facts} {R : α → Nat → Prop} (depth : Nat)
    (h : Meets (Assigned ctx B (F.spending ctx.function id)) act (fun a s =>
      ((∀ x, slot a = some x → ctx.function.kind? id = some x.kind) ∧ Rests ctx id (slot a)) ∧
      R a s.code.1.label ∧ Assigned ctx B ((Q a).spending ctx.function id) s) Anyhow)
    (hQ : ∀ a, (Q a).Covers (slot a).toList) :
    Meets (Assigned ctx B (F.spending ctx.function id)) (entering ctx depth id slot act)
      (fun a s => R a s.code.1.label ∧ Assigned ctx B (Q a) s) Anyhow := by
  unfold entering
  split
  · exact .fail trivial
  · refine assigned_underway.bind fun _ => h.bind fun a => .given fun ha => .check (checks_node ctx id) fun n hn => ?_
    refine ((assigned_regionOf n.expr).beside (R := fun c => R a c.1.label) (quiet_regionOf n.expr)).bind fun region => ?_
    have hbuilt := (assigned_built (B := B) ha.1 (hQ a)).beside (R := fun c => R a c.1.label)
      (quiet_setProgress id (.built (slot a) region))
    refine (hbuilt.pre fun s hs => ⟨hs.1, ⟨hs.2.1.1, fun hr => ha.2 n hn (hs.2.1.2 hr)⟩, hs.2.2⟩).bind fun _ => ?_
    exact .pure fun s hs => hs

section

variable (hctx : ctx.Typed) (hf : ctx.function.Structured)
include hctx hf

theorem Walk.Assigns.visit (hw : w.Assigns ctx) (id : NodeId) (hoffer : Offers F offer) :
    Meets (Assigned ctx B F) (visit ctx w id hint offer)
      (fun v s => Rests ctx id v.slot ∧ Provides ctx B F id offer v s) Anyhow := by
  refine .check (checks_node ctx id) fun n hn => ?_
  have hkind : ∀ type, n.expr.fixedType? ctx.function.scope = .ok (some type) → ctx.function.kind? id = type.kind? :=
    fun _ h => hctx.nodes.kind hn h
  have hnever : n.expr.mayNotComplete = false → ¬ ctx.function.NeverEnds id := by
    rintro hexpr ⟨m, hm, htype⟩
    cases hn.symm.trans hm
    exact absurd (hf.ends id n hn htype) (by simp [hexpr])
  -- A node that gives a value or nothing, in a slot of its own.
  have plain : ∀ {act : Lower Visited}, n.expr.mayNotComplete = false → n.expr.isFixed = false →
      Meets (Assigned ctx B F) act (Supplies ctx B F id) Anyhow →
      Meets (Assigned ctx B F) act (fun v s => Rests ctx id v.slot ∧ Provides ctx B F id offer v s) Anyhow := by
    intro act hexpr hfixed h
    refine h.post fun v s hv => ⟨fun m hm hyes => ?_, hv.provides (hnever hexpr)⟩
    cases hn.symm.trans hm
    exact absurd hyes (by simp [hfixed])
  have moving : ∀ {act : Lower Visited}, n.expr.isFixed = false →
      Meets (Assigned ctx B F) act (Provides ctx B F id offer) Anyhow →
      Meets (Assigned ctx B F) act (fun v s => Rests ctx id v.slot ∧ Provides ctx B F id offer v s) Anyhow := by
    intro act hfixed h
    refine h.post fun v s hv => ⟨fun m hm hyes => ?_, hv⟩
    cases hn.symm.trans hm
    exact absurd hyes (by simp [hfixed])
  dsimp only
  split
  · rename_i first second he
    obtain ⟨m, hm, htype, hends⟩ := (hf.typed id n hn).sequence he
    refine moving (by rw [he]; rfl) (hw.sequence _ _ hoffer ?_ ?_)
    · simpa [Function.kind?, hn, hm] using htype
    · rintro ⟨k, hk, hnever⟩
      cases hn.symm.trans hk
      exact ⟨m, hm, hends hnever⟩
  · rename_i he
    refine plain (by rw [he]; rfl) (by rw [he]; rfl) (hw.block _ _ fun hd => ?_)
    exact ⟨hf.blocks id n _ _ hn he hd, hf.exits id n _ _ hn he hd⟩
  · rename_i he
    have hleaves : ctx.function.Leaves _ := ⟨id, n, hn, he⟩
    refine moving (by rw [he]; rfl) ((assigned_exitBlock hoffer hleaves).post fun v s hv => hv.provides ?_)
    exact hkind .unreachable (by rw [he]; rfl)
  · rename_i he
    exact plain (by rw [he]; rfl) (by rw [he]; rfl) (hw.loop _ _ _)
  · rename_i he
    refine moving (by rw [he]; rfl) ((assigned_exitLoop hoffer).post fun v s hv => hv.provides ?_)
    exact hkind .unreachable (by rw [he]; rfl)
  · rename_i he
    refine moving (by rw [he]; rfl) ((assigned_continueLoop hoffer).post fun v s hv => hv.provides ?_)
    exact hkind .unreachable (by rw [he]; rfl)
  · rename_i he
    refine moving (by rw [he]; rfl) (hw.conditional _ _ _ (hf.arms id n _ _ _ hn he) ?_)
    rintro ⟨k, hk, hnever⟩
    cases hn.symm.trans hk
    exact (hf.typed id n hn).conditional he hnever
  · rename_i op he
    exact moving (by rw [he]; rfl) (assigned_nullary op (hkind _ (by rw [he]; rfl)) fun h => hnever (by rw [he]; exact h))
  · rename_i he
    exact plain (by rw [he]; rfl) (by rw [he]; rfl) (hw.unary _ (hkind _ (by rw [he]; rfl)))
  · rename_i he
    exact plain (by rw [he]; rfl) (by rw [he]; rfl) (hw.binary _ _ (hkind _ (by rw [he]; rfl)))
  · rename_i value he
    refine plain (by rw [he]; rfl) (by rw [he]; rfl) ?_
    obtain ⟨type, hfix, hvalue⟩ : ∃ type, (Expr.const value).fixedType? ctx.function.scope = .ok (some type) ∧
        type.kind? = some value.kind := by cases value <;> exact ⟨_, rfl, rfl⟩
    refine assigned_constant fun r hr => ⟨congrArg some (typedSlot_eq (Option.some.inj (hr.symm.trans ?_))), rfl⟩
    exact (hkind type (by rw [he]; exact hfix)).trans hvalue
  · rename_i he
    exact plain (by rw [he]; rfl) (by rw [he]; rfl)
      (assigned_text _ (hkind .object (by rw [he]; rfl)))
  · rename_i he
    refine (assigned_param hctx hn he).post fun v s hv => ⟨fun _ _ _ => hv.1, hv.2.provides (hnever (by rw [he]; rfl))⟩
  · rename_i he
    refine (assigned_getVar hctx hn he).post fun v s hv => ⟨fun _ _ _ => hv.1, hv.2.provides (hnever (by rw [he]; rfl))⟩
  · rename_i he
    exact plain (by rw [he]; rfl) (by rw [he]; rfl) (hw.setVar _ _)
  · rename_i he
    exact plain (by rw [he]; rfl) (by rw [he]; rfl) (hw.getField _ _)
  · rename_i he
    exact plain (by rw [he]; rfl) (by rw [he]; rfl) (assigned_getStatic _)
  · rename_i he
    exact plain (by rw [he]; rfl) (by rw [he]; rfl) (hw.call _ _ _)
  · rename_i he
    exact plain (by rw [he]; rfl) (by rw [he]; rfl) (hw.arrayElement _ _)
  · rename_i he
    exact plain (by rw [he]; rfl) (by rw [he]; rfl) (hw.setArrayElement _ _ _)
  · rename_i he
    exact plain (by rw [he]; rfl) (by rw [he]; rfl)
      (hw.cast _ _ (hkind .object (by rw [he]; rfl)))
  · rename_i he
    exact plain (by rw [he]; rfl) (by rw [he]; rfl)
      (hw.instanceOf _ _ (hkind .boolean (by rw [he]; rfl)))
  · rename_i he
    exact plain (by rw [he]; rfl) (by rw [he]; rfl)
      (hw.boundsCheck _ _ _ (hkind .int (by rw [he]; rfl)))
  all_goals exact .fail trivial

theorem Walk.Assigns.assigned_build (hw : w.Assigns ctx) (depth : Nat) (id : NodeId) (u : Usage) (hoffer : Offers F offer) :
    Meets (Assigned ctx B F) (Lowering.build ctx depth w id u hint offer) (fun v s => v.Suits ctx.function id offer ∧
      Assigned ctx B (F.after ctx.function id (u.kept v.slot) v.taken) s) Anyhow := by
  have checked : ∀ v : Visited, Meets (fun s => v.Suits ctx.function id offer ∧
      Assigned ctx B (F.after ctx.function id (u.kept v.slot) v.taken) s) (checkSlot id u v)
        (fun v s => v.Suits ctx.function id offer ∧ Assigned ctx B (F.after ctx.function id (u.kept v.slot) v.taken) s)
          Anyhow := by
    intro v
    unfold checkSlot
    split
    · exact .fail trivial
    · exact .pure fun _ hs => hs
  have hlook : Meets (Assigned ctx B F) (nodeState id) (fun n s => n = s.node id ∧ Assigned ctx B F s) Anyhow :=
    fun s hs => ⟨rfl, hs⟩
  refine hlook.bind fun n => ?_
  split
  · exact .fail trivial
  · rename_i slot region hp
    refine .read fun s hs => ?_
    obtain ⟨rfl, K, hK, hF⟩ := hs
    split
    · exact .fail trivial
    · rename_i hregion
      -- A value is read again only where the region that it was built in is open.
      have hkept : ∀ x ∈ (u.kept slot).toList, x ∈ K s.draft.label := by
        cases u with
        | ignore => exact List.forall_mem_nil _
        | value =>
          intro x hx
          obtain rfl : slot = some x := Option.mem_toList.1 hx
          exact hK.held id x region hp (by simpa using hregion)
      have hstart : (s.node id).progress = .built slot region ∧ Assigned ctx B (F.adding (u.kept slot).toList) s :=
        ⟨hp, K, hK, hF, hkept⟩
      refine .start hstart ((assigned_consume u _).bind fun _ => .given fun hfirst => (checked { slot }).pre fun t ht =>
        ⟨⟨?_, nofun⟩, ?_⟩)
      · rintro x rfl
        exact hK.kinds id x region hp
      · exact ht.weaken fun K t h => ⟨h.1, fun hend => absurd (hfirst hend.1) nofun⟩
  · rename_i hp
    refine ((assigned_consume u _).pre fun s hs => ⟨hs.1 ▸ hp, hs.2⟩).bind fun _ => .given fun _ => ?_
    have hoffer' : Offers (F.spending ctx.function id) offer := hoffer.mono fun _ _ h => h.1
    have hvisit : Meets (Assigned ctx B (F.spending ctx.function id)) (Lowering.visit ctx w id hint offer) (fun v s =>
        ((∀ x, v.slot = some x → ctx.function.kind? id = some x.kind) ∧ Rests ctx id v.slot) ∧
        v.Suits ctx.function id offer ∧
          Assigned ctx B ((F.after ctx.function id v.slot v.taken).spending ctx.function id) s) Anyhow :=
      (hw.visit hctx hf id hoffer').post fun v s hv =>
        ⟨⟨hv.2.1.kind, hv.1⟩, hv.2.1, hv.2.2.weaken fun K t h => ⟨⟨⟨h.1.1.1, h.1.2⟩, h.2⟩, h.1.1.2⟩⟩
    have hentering := assigned_entering (Q := fun v : Visited => F.after ctx.function id v.slot v.taken)
      (R := fun (v : Visited) _ => v.Suits ctx.function id offer) depth hvisit fun v K s h => h.1.2
    refine hentering.bind fun v => ?_
    refine (checked v).pre fun s hs => ⟨hs.1, hs.2.weaken fun K t h => ⟨⟨h.1.1, ?_⟩, h.2⟩⟩
    cases u with
    | ignore => exact List.forall_mem_nil _
    | value => exact h.1.2

theorem Walk.Assigns.assigned_condition (hw : w.Assigns ctx) (depth : Nat) (id : NodeId) :
    Meets (Assigned ctx B F) (Lowering.condition ctx depth w id)
      (fun b s => b.fallThrough = s.draft.label ∧ Assigned ctx B (F.branching b) s) Anyhow := by
  refine .check (checks_expectType ctx id _) fun _ hkind => ?_
  refine .check (checks_composable ctx id) fun c _ => ?_
  split
  · rename_i c _
    have hconsume : Meets (Assigned ctx B F) (consume id .value) (fun _ => Assigned ctx B (F.spending ctx.function id)) Anyhow :=
      .each fun s hs => .start ⟨rfl, hs⟩ ((assigned_consume .value _).post fun _ t ht => ht.2)
    have hcompose : Meets (Assigned ctx B (F.spending ctx.function id)) (Lowering.compose w c) (fun b s =>
        ((∀ x : TypedSlot, none = some x → ctx.function.kind? id = some x.kind) ∧ Rests ctx id none) ∧
        b.fallThrough = s.code.1.label ∧ Assigned ctx B ((F.branching b).spending ctx.function id) s) Anyhow :=
      (hw.compose c).post fun b s hs =>
        ⟨⟨nofun, fun _ _ _ => nofun⟩, hs.1, hs.2.weaken fun K t h => ⟨⟨h.1.1, h.2⟩, h.1.2⟩⟩
    exact hconsume.bind fun _ => assigned_entering (Q := fun b => F.branching b) (R := fun b n => b.fallThrough = n) depth
      hcompose fun _ _ _ _ => List.forall_mem_nil _
  · have hself : Walk.Assigns ctx { w with build := Lowering.build ctx depth w } :=
      ⟨fun B F id u hint offer => hw.assigned_build hctx hf depth id u, hw.condition⟩
    exact hself.branchOn hkind

/-- The whole walk writes registers before it reads them. -/
theorem walk_assigns (room depth : Nat) : (walk ctx room depth).Assigns ctx := by
  induction room generalizing depth with
  | zero => exact ⟨fun _ _ _ _ _ _ _ => .fail trivial, fun _ _ _ => .fail trivial⟩
  | succ room ih =>
    have inner := ih (depth + 1)
    exact ⟨fun B F id u hint offer => inner.assigned_build hctx hf depth id u,
      fun B F id => inner.assigned_condition hctx hf depth id⟩

end

end Lowering

end SlotCode
