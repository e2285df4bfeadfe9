/-
  SlotCode.Proofs.Visits — what a visit of a node does to the accounts.

  A visit pays a due. A node that is built is only counted down (`revisit`). A node that
  nobody has come to goes underway and owes the visits of its own children (`enter`), and
  when these are made it is built (`leave`). Until then nobody can have owed a visit on its
  behalf, so that a built node has built children only, and the built part of the graph has
  no cycle.

  Proved: the three lemmas for `Tracked`, and from them those for `Balanced`.
-/

import Mathlib.Algebra.Order.Group.Nat
import SlotCode.Proofs.Accounts

namespace SlotCode.Lowering

variable {f : Function} {ctx : Context} {g : Account} {s t : State} {id : NodeId} {d : Due}

/-! ## Using a consumer up -/

theorem Tracked.values_eq_zero (h : Tracked f g s) (hk : f.kind? id = none) :
    (leftOf (s.waiting f + g.owed) id).values = 0 := by
  refine Multiset.countP_eq_zero.2 fun d hd => ?_
  rintro ⟨rfl, hr⟩
  have hdue : d ∈ f.allDues := by
    rcases Multiset.mem_add.1 hd with hd | hd
    · obtain ⟨p, hp, hd⟩ := Multiset.mem_sum.1 hd
      have hreach : f.Reachable p := Function.mem_order.1 (List.mem_toFinset.1 (Finset.mem_filter.1 hp).1)
      exact Function.mem_allDues.2 (.inr ⟨p, hreach, Multiset.mem_coe.1 hd⟩)
    · exact (h.owed d hd).1
  have hsome := Function.kind_of_due hdue hr
  rw [hk] at hsome
  cases hsome

/-- Paying a due takes one consumer, unless a value is asked for unseen that is none. -/
theorem Tracked.take {u : Usage} (h : Tracked f (g.owing [d]) s) (hd : d.Made f u) :
    (s.left d.child).take u = some (leftOf (s.waiting f + g.owed) d.child) ∨
      ((s.left d.child).take u = none ∧ u = .value ∧ f.kind? d.child = none ∧ f.AskedUnseen d.child) := by
  have hmem : d ∈ (g.owing [d]).owed := by simp
  have hlt := h.bound _ (Function.reachable_of_due (h.owed d hmem).1)
  have hsum : s.waiting f + (g.owing [d]).owed = d ::ₘ (s.waiting f + g.owed) := by simp
  have hle := leftOf_values_le (s.waiting f + g.owed) d.child
  rw [h.counts _ hlt, hsum, leftOf_cons_self]
  have hreads := hd.reads
  cases u with
  | ignore =>
    have hr : d.reads = false := by simpa using hreads
    left
    simp only [hr, Left.take]
    rw [if_pos ⟨by omega, by simpa using hle⟩]
    simp
  | value =>
    cases hk : f.kind? d.child with
    | some k =>
      have hr : d.reads = true := by simpa [hk] using hreads
      left
      simp [hr, Left.take]
    | none =>
      have hr : d.reads = false := by simpa [hk] using hreads
      have hunseen : f.AskedUnseen d.child := (hd.asked rfl).resolve_left (by simp [hk])
      have hzero := h.values_eq_zero hk
      rw [hsum, leftOf_cons_self, hr] at hzero
      have hnone : (leftOf (s.waiting f + g.owed) d.child).values = 0 := by simpa using hzero
      right
      simp [hr, Left.take, hnone, hunseen]

/-- The state with what is left of a node replaced. -/
def State.setLeft (s : State) (id : NodeId) (l : Left) : State :=
  { s with demand := { s.demand with left := s.demand.left.setIfInBounds id l } }

theorem left_setLeft (h : id < s.demand.left.size) (l : Left) (i : NodeId) :
    (s.setLeft id l).left i = if id = i then l else s.left i := by
  simp only [State.setLeft, State.left, Array.getD_eq_getD_getElem?, Array.getElem?_setIfInBounds]
  by_cases hi : id = i
  · subst hi
    simp [h]
  · simp [hi]

theorem consume_run {u : Usage} (h : id < s.demand.left.size) : consume id u s = match (s.left id).take u with
    | some l => .ok ((), s.setLeft id l)
    | none => .error (.internal (.countMismatch id u)) := by
  have hl : s.demand.left[id]? = some (s.left id) := by simp [State.left, h]
  rw [consume, get_run, Demand.consume, hl]
  dsimp only
  cases (s.left id).take u <;> rfl

/-! ## Tracking a visit -/

/-- A node that is built is visited once more. -/
theorem Tracked.revisit (h : Tracked f (g.owing [d]) s) (hb : s.stage d.child = .built) :
    Tracked f g (s.setLeft d.child (leftOf (s.waiting f + g.owed) d.child)) := by
  have hmem : d ∈ (g.owing [d]).owed := by simp
  have hlt := h.bound _ (Function.reachable_of_due (h.owed d hmem).1)
  have hsum : s.waiting f + (g.owing [d]).owed = d ::ₘ (s.waiting f + g.owed) := by simp
  have hold : ∀ x, x ∈ g.owed → x ∈ (g.owing [d]).owed := fun x hx => by simp [hx]
  have hleft := left_setLeft (h.size ▸ hlt) (leftOf (s.waiting f + g.owed) d.child)
  have hne : ∀ i, s.stage i ≠ .built → d.child ≠ i := fun i hi he => hi (he ▸ hb)
  refine ⟨h.bound, h.tallies, ?_, h.underway, fun i e he => ?_, fun i hi hf => ?_, fun i hi => ?_,
    fun x hx => h.owed x (hold x hx), fun p hp x hx => ?_, h.ranked⟩
  · simpa [State.setLeft] using h.size
  · obtain ⟨hc, hl, hp⟩ := h.entered i e he
    have hu : s.stage i = .underway := (h.underway i).2 (by rw [Account.owing]; simp [he])
    refine ⟨hc, ?_, hp⟩
    rw [hleft, if_neg (hne i (by rw [hu]; exact Stage.noConfusion))]
    exact hl
  · have hu : s.stage i = .untouched := hf
    rw [hleft, if_neg (hne i (by rw [hu]; exact Stage.noConfusion))]
    exact h.fresh i hi hu
  · show State.left _ i = leftOf (s.waiting f + g.owed) i
    rw [hleft]
    split
    · rename_i he
      rw [he]
    · rename_i he
      rw [h.counts i hi, hsum, leftOf_cons_ne he]
  · rcases h.children p hp x hx with hbuilt | howed | hentry
    · exact .inl hbuilt
    · have hcases : x = d ∨ x ∈ g.owed := by simpa using howed
      rcases hcases with rfl | howed
      · exact .inl hb
      · exact .inr (.inl howed)
    · exact .inr (.inr hentry)

theorem waiting_enter (hr : f.Reachable id) (hn : s.stage id = .untouched)
    (ht : ∀ i, t.stage i = if id = i then .underway else s.stage i) :
    s.waiting f = (f.dues id : Multiset Due) + t.waiting f := by
  have herase : (f.order.toFinset.filter fun p => t.stage p = .untouched) =
      (f.order.toFinset.filter fun p => s.stage p = .untouched).erase id := by
    ext p
    simp only [Finset.mem_filter, Finset.mem_erase, ht]
    by_cases hp : id = p
    · simp [hp]
    · simp [hp, Ne.symm hp]
  unfold State.waiting
  rw [herase]
  exact (Finset.add_sum_erase _ (fun p => (f.dues p : Multiset Due)) (by simp [Function.mem_order.2 hr, hn])).symm

/-- Nobody underway knows of the node. -/
structure Account.Ignores (g : Account) (id : NodeId) : Prop where
  absent : g.underway id = none
  owed : ∀ d ∈ g.owed, d.parent ≠ some id
  entries : ∀ i e, g.underway i = some e → e.due.parent ≠ some id

theorem Tracked.ignores (h : Tracked f g s) (hn : s.stage id = .untouched) : g.Ignores id := by
  have habsent : g.underway id = none := by
    cases hu : g.underway id with
    | none => rfl
    | some e =>
      have := (h.underway id).2 (by rw [hu]; rfl)
      rw [hn] at this
      cases this
  refine ⟨habsent, fun d hd hp => ?_, fun i e he hp => ?_⟩
  · have := (h.owed d hd).2 id hp
    rw [habsent] at this
    cases this
  · have := (h.entered i e he).2.2 id hp
    rw [habsent] at this
    cases this

/-- A visit begins: the node owes its own visits now. -/
theorem Tracked.enter {l : Left} (h : Tracked f (g.owing [d]) s) (hn : s.stage d.child = .untouched)
    (hl : l = leftOf (s.waiting f + g.owed) d.child)
    (ht : ∀ i, t.stage i = if d.child = i then .underway else s.stage i) (hd : t.demand = (s.setLeft d.child l).demand) :
    Tracked f ((g.entering d.child ⟨d, l⟩).owing (f.dues d.child)) t := by
  have hmem : d ∈ (g.owing [d]).owed := by simp
  obtain ⟨hdue, hparent⟩ := h.owed d hmem
  have hreach := Function.reachable_of_due hdue
  have hlt := h.bound _ hreach
  have hignores := h.ignores hn
  have hwait := waiting_enter hreach hn ht
  have hleft : ∀ i, t.left i = if d.child = i then l else s.left i := by
    intro i
    rw [State.left, hd]
    exact left_setLeft (h.size ▸ hlt) l i
  have hself : ((g.entering d.child ⟨d, l⟩).owing (f.dues d.child)).underway d.child = some ⟨d, l⟩ := by
    simp [Account.entering, Account.owing]
  have hother : ∀ i, d.child ≠ i → ((g.entering d.child ⟨d, l⟩).owing (f.dues d.child)).underway i = g.underway i := by
    intro i hi
    simp [Account.entering, Account.owing, Ne.symm hi]
  have hmore : ∀ i, (g.underway i).isSome = true →
      (((g.entering d.child ⟨d, l⟩).owing (f.dues d.child)).underway i).isSome = true := by
    intro i hi
    by_cases he : d.child = i
    · rw [← he, hself]
      rfl
    · rwa [hother i he]
  have howed : ∀ x, x ∈ ((g.entering d.child ⟨d, l⟩).owing (f.dues d.child)).owed ↔ x ∈ f.dues d.child ∨ x ∈ g.owed := by
    intro x
    simp [Account.owed_owing]
  refine ⟨h.bound, ?_, ?_, fun i => ?_, fun i e he => ?_, fun i hi hf => ?_, fun i hi => ?_, fun x hx => ?_,
    fun p hp x hx => ?_, ?_⟩
  · rw [hd]
    exact h.tallies
  · rw [hd]
    simpa [State.setLeft] using h.size
  · rw [ht]
    by_cases hi : d.child = i
    · rw [if_pos hi, ← hi, hself]
      simp
    · rw [if_neg hi, hother i hi]
      exact h.underway i
  · by_cases hi : d.child = i
    · subst hi
      rw [hself] at he
      cases he
      exact ⟨rfl, (hleft _).trans (if_pos rfl), fun p hp => hmore p (hparent p hp)⟩
    · rw [hother i hi] at he
      obtain ⟨hc, hold, hp⟩ := h.entered i e he
      exact ⟨hc, (hleft i).trans ((if_neg hi).trans hold), fun p hpe => hmore p (hp p hpe)⟩
  · rw [ht] at hf
    split at hf
    · cases hf
    · rename_i hne
      rw [hleft, if_neg hne]
      exact h.fresh i hi hf
  · have hsum : s.waiting f + (g.owing [d]).owed =
        d ::ₘ (t.waiting f + ((g.entering d.child ⟨d, l⟩).owing (f.dues d.child)).owed) := by
      rw [hwait]
      rw [Account.owed_owing_one, Account.owed_owing, Account.owed_entering, Multiset.add_cons,
        add_comm (f.dues d.child : Multiset Due) (t.waiting f), add_assoc]
    have hrest : s.waiting f + g.owed = t.waiting f + ((g.entering d.child ⟨d, l⟩).owing (f.dues d.child)).owed := by
      have hcons : s.waiting f + (g.owing [d]).owed = d ::ₘ (s.waiting f + g.owed) := by simp
      rw [hcons] at hsum
      exact (Multiset.cons_inj_right d).1 hsum
    rw [hleft]
    split
    · rename_i he
      subst he
      rw [← hrest]
      exact hl
    · rename_i he
      rw [h.counts i hi, hsum, leftOf_cons_ne he]
  · rcases (howed x).1 hx with hx | hx
    · refine ⟨Function.mem_allDues.2 (.inr ⟨_, hreach, hx⟩), fun p hp => ?_⟩
      rw [Function.parent_of_dues hx] at hp
      cases hp
      rw [hself]
      rfl
    · obtain ⟨hr, hp⟩ := h.owed x (by simp [hx])
      exact ⟨hr, fun p hpx => hmore p (hp p hpx)⟩
  · by_cases hpid : d.child = p
    · exact .inr (.inl ((howed x).2 (.inl (hpid ▸ hx))))
    · rw [ht, if_neg hpid] at hp
      rcases h.children p hp x hx with hbuilt | hx' | ⟨e, he, hex⟩
      · left
        rw [ht, if_neg]
        · exact hbuilt
        · intro hc
          rw [← hc, hn] at hbuilt
          cases hbuilt
      · have hcases : x = d ∨ x ∈ g.owed := by simpa using hx'
        rcases hcases with rfl | hx'
        · exact .inr (.inr ⟨_, hself, rfl⟩)
        · exact .inr (.inl ((howed x).2 (.inr hx')))
      · refine .inr (.inr ⟨e, ?_, hex⟩)
        rw [hother]
        · exact he
        · intro hc
          rw [← hc] at he
          have := hignores.absent
          rw [he] at this
          cases this
  · obtain ⟨rank, hrank⟩ := h.ranked
    refine ⟨rank, fun p hp => hrank p ?_⟩
    rw [ht] at hp
    split at hp
    · cases hp
    · exact hp

/-- Below a built node everything is built. -/
theorem Tracked.children_built (h : Tracked f g s) (hb : s.stage id = .built) (hd : d ∈ f.dues id) :
    s.stage d.child = .built := by
  have hnot : (g.underway id).isSome ≠ true := by
    intro hu
    rw [(h.underway id).2 hu] at hb
    cases hb
  have hparent := Function.parent_of_dues hd
  rcases h.children id (by rw [hb]; exact Stage.noConfusion) d hd with hbuilt | howed | ⟨e, he, rfl⟩
  · exact hbuilt
  · exact absurd ((h.owed d howed).2 id hparent) hnot
  · exact absurd ((h.entered _ e he).2.2 id hparent) hnot

/-- A visit ends: the node is built, after all its children. -/
theorem Tracked.leave {e : Arrival} (h : Tracked f (g.entering id e) s) (hg : g.Ignores id) (he : e.due.parent ≠ some id)
    (ht : ∀ i, t.stage i = if id = i then .built else s.stage i) (hd : t.demand = s.demand) : Tracked f g t := by
  have hself : (g.entering id e).underway id = some e := by simp [Account.entering]
  have hother : ∀ i, id ≠ i → (g.entering id e).underway i = g.underway i := fun i hi => by
    simp [Account.entering, Ne.symm hi]
  have hstage : s.stage id = .underway := (h.underway id).2 (by rw [hself]; rfl)
  have hleft : t.left = s.left := by
    unfold State.left
    rw [hd]
  have huntouched : ∀ i, t.stage i = .untouched ↔ s.stage i = .untouched := by
    intro i
    rw [ht]
    split
    · rename_i hi
      rw [← hi, hstage]
      exact ⟨Stage.noConfusion, Stage.noConfusion⟩
    · rfl
  have hbuilt : ∀ i, s.stage i = .built → t.stage i = .built := by
    intro i hi
    rw [ht]
    split
    · rfl
    · exact hi
  have hwait : t.waiting f = s.waiting f := by
    unfold State.waiting
    simp only [huntouched]
  have hparent : ∀ p, p ≠ id → ((g.entering id e).underway p).isSome = true → (g.underway p).isSome = true :=
    fun p hp hu => hother p hp.symm ▸ hu
  have hchildren : ∀ x ∈ f.dues id, s.stage x.child = .built := by
    intro x hx
    have hpx := Function.parent_of_dues hx
    rcases h.children id (by rw [hstage]; exact Stage.noConfusion) x hx with hb | howed | ⟨e', he', rfl⟩
    · exact hb
    · exact absurd hpx (hg.owed x howed)
    · by_cases hc : id = e'.due.child
      · rw [← hc, hself] at he'
        cases he'
        exact absurd hpx he
      · rw [hother _ hc] at he'
        exact absurd hpx (hg.entries _ e' he')
  refine ⟨h.bound, by rw [hd]; exact h.tallies, by rw [hd]; exact h.size, fun i => ?_, fun i e' he' => ?_,
    fun i hi hf => ?_, fun i hi => ?_, fun x hx => ?_, fun p hp x hx => ?_, ?_⟩
  · rw [ht]
    by_cases hi : id = i
    · rw [if_pos hi, ← hi, hg.absent]
      simp
    · rw [if_neg hi, ← hother i hi]
      exact h.underway i
  · have hne : id ≠ i := by
      rintro rfl
      rw [hg.absent] at he'
      cases he'
    obtain ⟨hc, hl, hp⟩ := h.entered i e' ((hother i hne).trans he')
    exact ⟨hc, (congrFun hleft i).trans hl, fun p hpe => hparent p (fun hpi => hg.entries i e' he' (hpi ▸ hpe)) (hp p hpe)⟩
  · rw [hleft]
    exact h.fresh i hi ((huntouched i).1 hf)
  · rw [hleft, hwait]
    exact h.counts i hi
  · obtain ⟨hr, hp⟩ := h.owed x hx
    exact ⟨hr, fun p hpx => hparent p (fun hpi => hg.owed x hx (hpi ▸ hpx)) (hp p hpx)⟩
  · by_cases hpid : id = p
    · exact .inl (hbuilt _ (hchildren x (hpid ▸ hx)))
    · rcases h.children p (fun hu => hp ((huntouched p).2 hu)) x hx with hb | howed | ⟨e', he', hx'⟩
      · exact .inl (hbuilt _ hb)
      · exact .inr (.inl howed)
      · by_cases hc : id = x.child
        · exact .inl (by rw [ht, if_pos hc])
        · exact .inr (.inr ⟨e', (hother _ hc).symm.trans he', hx'⟩)
  · -- Nothing built has the node as a child, so that its rank may be as high as its own children need.
    obtain ⟨rank, hrank⟩ := h.ranked
    refine ⟨Function.update rank id (((f.dues id).map fun x => rank x.child).sum + 1), fun p hp c hc => ?_⟩
    obtain ⟨x, hx, rfl⟩ := Function.exists_due hc
    by_cases hpid : p = id
    · subst hpid
      have hne : x.child ≠ p := by
        intro hcp
        have := hchildren x hx
        rw [hcp, hstage] at this
        cases this
      have hle : rank x.child ≤ ((f.dues p).map fun x => rank x.child).sum :=
        List.single_le_sum (fun _ _ => Nat.zero_le _) _ (List.mem_map.2 ⟨x, hx, rfl⟩)
      simp only [Function.update_self, Function.update_of_ne hne]
      omega
    · have hb : s.stage p = .built := by
        rw [ht, if_neg (Ne.symm hpid)] at hp
        exact hp
      have hne : x.child ≠ id := by
        intro hcid
        have := h.children_built hb hx
        rw [hcid, hstage] at this
        cases this
      simp only [Function.update_of_ne hpid, Function.update_of_ne hne]
      exact hrank p hb _ hc

/-! ## Keeping step with the order -/

theorem InStep.revisit {trail : Trail} (h : InStep f (g.owing [d]) s trail) (hd : d.child < f.nodes.size)
    (hb : s.stage d.child ≠ .untouched) (ht : t.stage = s.stage) : InStep f g t trail := by
  have hseen : trail.search f d.child = trail := Trail.search_of_has ((h.entered _ hd).2 hb)
  have horder : f.order = (g.agenda.foldl (Task.run f) (trail.search f d.child)).finished := h.order
  rw [hseen] at horder
  refine ⟨h.size, ht ▸ h.entered, horder, fun i hi => ?_⟩
  simpa [Account.owing] using h.closing i hi

theorem run_visits (f : Function) (p : NodeId) (trail : Trail) :
    ((f.dues p).map Task.visit).foldl (Task.run f) trail = (f.children p).foldl (Trail.search f) trail := by
  have hchildren : (f.dues p).map Due.child = f.children p := by
    unfold Function.dues Function.children Function.edgesOf Expr.children
    cases f.node? p <;> simp [Function.due]
  rw [← hchildren, List.foldl_map, List.foldl_map]
  rfl

theorem InStep.enter {trail : Trail} {e : Arrival} (h : InStep f (g.owing [d]) s trail) (hlt : d.child < f.nodes.size)
    (hn : s.stage d.child = .untouched) (ht : ∀ i, t.stage i = if d.child = i then .underway else s.stage i) :
    InStep f ((g.entering d.child e).owing (f.dues d.child)) t (trail.mark d.child) := by
  have hnot : trail.has d.child = false := by
    by_contra hhas
    exact (h.entered _ hlt).1 (by simpa using hhas) hn
  refine ⟨(trail.size_mark _).trans h.size, fun i hi => ?_, ?_, fun i hi => ?_⟩
  · rw [Trail.has_mark, h.entered i hi, h.size, ht]
    by_cases he : d.child = i
    · simp [he, hi]
    · simp [he, Ne.symm he]
  · have horder : f.order = (g.agenda.foldl (Task.run f) (trail.search f d.child)).finished := h.order
    rw [Trail.search_of_not_has h.size hnot] at horder
    simp only [Account.owing, Account.entering, List.foldl_append, run_visits]
    exact horder
  · by_cases he : i = d.child
    · simp [Account.owing, Account.entering, he]
    · have hold : (g.underway i).isSome = true := by simpa [Account.owing, Account.entering, he] using hi
      have hmem : Task.finish i ∈ g.agenda := by simpa [Account.owing] using h.closing i hold
      simp [Account.owing, Account.entering, hmem]

theorem InStep.leave {trail : Trail} {e : Arrival} (h : InStep f (g.entering id e) s trail) (hg : g.underway id = none)
    (hu : s.stage id = .underway) (ht : ∀ i, t.stage i = if id = i then .built else s.stage i) :
    InStep f g t (trail.finish id) := by
  refine ⟨h.size, fun i hi => ?_, h.order, fun i hi => ?_⟩
  · rw [ht]
    have hentered := h.entered i hi
    split
    · rename_i he
      subst he
      rw [hu] at hentered
      exact ⟨fun _ => Stage.noConfusion, fun _ => hentered.2 Stage.noConfusion⟩
    · exact hentered
  · have hne : i ≠ id := by
      rintro rfl
      rw [hg] at hi
      cases hi
    have hmem := h.closing i (by simpa [Account.entering, hne] using hi)
    simpa [Account.entering, hne] using hmem

/-- Whoever comes to a node first stands before it in the order. -/
theorem InStep.parent_first {trail : Trail} {p : NodeId} (h : InStep f (g.owing [d]) s trail)
    (hlt : d.child < f.nodes.size) (hn : s.stage d.child = .untouched) (hp : (g.underway p).isSome = true) :
    ∃ before after, f.order = before ++ d.child :: after ∧ p ∈ before := by
  -- What is done later is finished in front.
  have hrun : ∀ (tasks : List Task) (u : Trail), u.entered.size = f.nodes.size → ∃ before,
      (tasks.foldl (Task.run f) u).finished = before ++ u.finished ∧ ∀ i, .finish i ∈ tasks → i ∈ before := by
    intro tasks
    induction tasks with
    | nil => exact fun u _ => ⟨[], rfl, nofun⟩
    | cons task tasks ih =>
      intro u hu
      cases task with
      | visit x =>
        obtain ⟨new, hnew⟩ := Trail.search_explores hu x.child
        obtain ⟨before, hb, hmem⟩ := ih (u.search f x.child) (hnew.size.trans hu)
        refine ⟨before ++ new, ?_, fun i hi => ?_⟩
        · rw [List.append_assoc, ← hnew.finished]
          exact hb
        · have : Task.finish i ∈ tasks := by simpa using hi
          exact List.mem_append_left _ (hmem i this)
      | finish j =>
        obtain ⟨before, hb, hmem⟩ := ih (u.finish j) hu
        refine ⟨before ++ [j], ?_, fun i hi => ?_⟩
        · rw [List.append_assoc]
          exact hb
        · rcases List.mem_cons.1 hi with he | hi
          · cases he
            simp
          · exact List.mem_append_left _ (hmem i hi)
  have hnot : trail.has d.child = false := by
    by_contra hhas
    exact (h.entered _ hlt).1 (by simpa using hhas) hn
  obtain ⟨new, hnew⟩ := Trail.search_explores h.size d.child
  have horder : f.order = (g.agenda.foldl (Task.run f) (trail.search f d.child)).finished := h.order
  obtain ⟨before, hb, hmem⟩ := hrun g.agenda (trail.search f d.child) (hnew.size.trans h.size)
  have hclosing : Task.finish p ∈ g.agenda := by simpa [Account.owing] using h.closing p hp
  rw [hb, Trail.search_of_not_has h.size hnot] at horder
  exact ⟨before, _, horder, hmem p hclosing⟩

/-- A node that is read when it is first visited is demanded. -/
theorem Tracked.demanded {trail : Trail} (h : Tracked f (g.owing [d]) s) (hs : InStep f (g.owing [d]) s trail)
    (hn : s.stage d.child = .untouched) (hr : d.reads = true) : (tallyAt f.tallies d.child).demanded = true := by
  obtain ⟨hdue, hparent⟩ := h.owed d (by simp)
  have hreach := Function.reachable_of_due hdue
  have hcounted := Function.counted_tallies h.bound
  rcases Function.mem_allDues.1 hdue with rfl | ⟨p, -, hd⟩
  · obtain ⟨before, after, he⟩ := List.append_of_mem (Function.mem_order.2 hreach)
    exact (hcounted.settled before _ after he).2 (.inl ⟨rfl, hr⟩)
  · have hp := hparent p (Function.parent_of_dues hd)
    obtain ⟨before, after, he, hmem⟩ := hs.parent_first (h.bound _ hreach) hn hp
    obtain ⟨⟨c, e⟩, hedge, rfl⟩ := List.mem_map.1 hd
    exact (hcounted.settled before _ after he).2 (.inr ⟨p, hmem, e, hedge, hr⟩)

/-! ## Balance across a visit -/

theorem Balanced.child_lt (h : Balanced ctx (g.owing [d]) s) : d.child < ctx.function.nodes.size :=
  h.tracked.bound _ (Function.reachable_of_due (h.tracked.owed d (by simp)).1)

/-- What is left of a node after a visit. -/
def Account.remaining (g : Account) (f : Function) (s : State) (id : NodeId) : Left := leftOf (s.waiting f + g.owed) id

/-- A visit that does not read the value takes no value. -/
theorem Balanced.values_remaining (h : Balanced ctx (g.owing [d]) s) (hr : d.reads = false) :
    (g.remaining ctx.function s d.child).values = (s.left d.child).values := by
  have hsum : s.waiting ctx.function + (g.owing [d]).owed = d ::ₘ (s.waiting ctx.function + g.owed) := by
    simp
  rw [h.tracked.counts _ h.child_lt, hsum, leftOf_cons_self, hr]
  rfl

theorem Balanced.revisit (h : Balanced ctx (g.owing [d]) s) (hb : s.stage d.child = .built)
    (hread : d.reads = true → 0 < g.readers.count d.child ∨ d.child = ctx.function.body) :
    Balanced ctx g (s.setLeft d.child (g.remaining ctx.function s d.child)) := by
  refine ⟨h.arena, h.regions, h.pending, h.tracked.revisit hb,
    h.inStep.imp fun _ ht => ht.revisit h.child_lt (by rw [hb]; exact Stage.noConfusion) rfl,
    h.housed.congr rfl (fun _ => ⟨rfl, rfl⟩) rfl, fun i x region hx hborrowed => ?_⟩
  rw [left_setLeft (h.tracked.size ▸ h.child_lt)]
  have hold := h.needed i x region hx hborrowed
  split
  · rename_i hi
    subst hi
    cases hr : d.reads with
    | false =>
      rw [h.values_remaining hr]
      exact hold
    | true =>
      rcases hread hr with hpos | hbody
      · exact .inl (h.pending d.child ▸ hpos)
      · exact .inr (.inr hbody)
  · exact hold

/-- A node goes underway. -/
def State.entered (s : State) (id : NodeId) (l : Left) : State :=
  (s.setLeft id l).setNode id { s.node id with progress := .underway }

theorem Balanced.enter (h : Balanced ctx (g.owing [d]) s) (hn : (s.node d.child).progress = .untouched) :
    Balanced ctx (((g.entering d.child ⟨d, g.remaining ctx.function s d.child⟩).choosing d.child .undecided).owing
      (ctx.function.dues d.child)) (s.entered d.child (g.remaining ctx.function s d.child)) := by
  have hlt := h.child_lt
  have huntouched : s.stage d.child = .untouched := by rw [State.stage, hn]; rfl
  have hnode : ∀ i, (s.entered d.child (g.remaining ctx.function s d.child)).node i =
      if d.child = i then { s.node d.child with progress := .underway } else s.node i :=
    setNode_node (show _ < s.nodes.size from h.arena ▸ hlt) _
  have hstage : ∀ i, (s.entered d.child (g.remaining ctx.function s d.child)).stage i =
      if d.child = i then .underway else s.stage i := by
    intro i
    rw [State.stage, hnode]
    split <;> rfl
  have htracked := h.tracked.enter huntouched rfl hstage rfl
  refine ⟨?_, h.regions, fun i => ?_, htracked.congr rfl rfl rfl rfl, ?_, ?_, fun i x region hx hb => ?_⟩
  · simpa [State.entered, State.setNode, State.setLeft] using h.arena
  · rw [hnode]
    split
    · rename_i hi
      rw [← hi]
      exact h.pending d.child
    · exact h.pending i
  · obtain ⟨trail, htrail⟩ := h.inStep
    exact ⟨_, (htrail.enter hlt huntouched hstage).congr rfl rfl rfl⟩
  · have hnone : s.holds (g.owing [d]) d.child = none := by simp [State.holds, hn]
    have hstill : (s.entered d.child (g.remaining ctx.function s d.child)).holds
        (((g.entering d.child ⟨d, g.remaining ctx.function s d.child⟩).choosing d.child .undecided).owing
          (ctx.function.dues d.child)) d.child = none := by
      simp [State.holds, hnode, Account.choosing, Account.owing, Choice.slot?]
    refine h.housed.change d.child h.housed.pool (fun i hi => ?_) (fun hu => ?_) (fun _ => ?_) (fun x => ?_) (fun x hx => ?_)
    · rw [hnode, if_neg hi.symm]
      exact ⟨rfl, rfl, by simp [Account.choosing, Account.owing, Account.entering, hi]⟩
    · rw [hstage, if_pos rfl] at hu
      cases hu
    · rw [hnode, if_pos rfl]
      simp [Account.choosing, Account.owing, h.housed.fresh _ huntouched]
    · rw [hnone, hstill]
      simp [State.entered, State.setNode, State.setLeft]
    · rw [hstill] at hx
      cases hx
  · rw [hnode] at hx hb ⊢
    split at hx
    · cases hx
    · rename_i hne
      rw [if_neg hne] at hb ⊢
      have hleft : (s.entered d.child (g.remaining ctx.function s d.child)).left i = s.left i :=
        (left_setLeft (h.tracked.size ▸ hlt) _ i).trans (if_neg hne)
      rw [hleft]
      exact h.needed i x region hx hb

/-- A node is built, and what it took stays its own. -/
theorem Balanced.leave {e : Arrival} {c : Choice} {hint slot : Option TypedSlot} {region : Region} (hg : g.Ignores id)
    (he : e.due.parent ≠ some id) (h : Balanced ctx ((g.entering id e).choosing id c) s) (hc : c.Gives ctx hint slot)
    (hneed : slot.isSome = true → 0 < g.readers.count id ∨ 0 < e.left.values ∨ id = ctx.function.body) :
    Balanced ctx g (s.setNode id { s.node id with progress := .built slot region }) := by
  have hu : ((g.entering id e).underway id).isSome = true := by simp [Account.entering]
  have hp : (s.node id).progress = .underway := h.isUnderway hu
  have hid : id < s.nodes.size := lt_of_touched (by rw [hp]; exact Progress.noConfusion)
  have hnode := setNode_node hid { s.node id with progress := .built slot region }
  have hstage : ∀ i, (s.setNode id { s.node id with progress := .built slot region }).stage i =
      if id = i then .built else s.stage i := by
    intro i
    rw [State.stage, hnode]
    split <;> rfl
  have hlent : (s.node id).borrowed = true ↔ c = .borrowed := by
    have := h.housed.lent id (by rw [State.stage, hp]; rfl)
    simpa [Account.choosing] using this
  have hheld : (if (s.node id).borrowed then none else slot) = c.slot? := by
    cases c with
    | borrowed => rw [hlent.2 rfl]; rfl
    | undecided =>
      have : (s.node id).borrowed = false := by simpa using hlent
      rw [this, show slot = none from hc]
      rfl
    | own x =>
      have : (s.node id).borrowed = false := by simpa using hlent
      rw [this, show slot = some x from hc]
      rfl
  have hbefore : s.holds ((g.entering id e).choosing id c) id = c.slot? := by simp [State.holds, hp, Account.choosing]
  have hafter : (s.setNode id { s.node id with progress := .built slot region }).holds g id = c.slot? := by
    rw [← hheld]
    simp [State.holds, hnode]
  have htracked : Tracked ctx.function (g.entering id e) s := h.tracked.congr rfl rfl rfl rfl
  refine ⟨by simpa [State.setNode] using h.arena, h.regions, fun i => ?_, htracked.leave hg he hstage rfl, ?_, ?_,
    fun i x r hx hb => ?_⟩
  · rw [hnode]
    split
    · rename_i hi
      rw [← hi]
      exact h.pending id
    · exact h.pending i
  · obtain ⟨trail, htrail⟩ := h.inStep
    have hentering : InStep ctx.function (g.entering id e) s trail := htrail.congr rfl rfl rfl
    exact ⟨_, hentering.leave hg.absent (by rw [State.stage, hp]; rfl) hstage⟩
  · refine h.housed.change id h.housed.pool (fun i hi => ?_) (fun hf => ?_) (fun hf => ?_) (fun x => ?_) (fun x hx => ?_)
    · rw [hnode, if_neg hi.symm]
      exact ⟨rfl, rfl, by simp [Account.choosing, Account.entering, hi]⟩
    · rw [hstage, if_pos rfl] at hf
      cases hf
    · rw [hstage, if_pos rfl] at hf
      cases hf
    · rw [hafter, hbefore]
      refine ⟨fun hx => ?_, fun hx => ?_⟩
      · by_cases hcx : c.slot? = some x
        · exact .inl hcx
        · exact .inr ⟨hx, hcx⟩
      · rcases hx with hx | hx
        · exact (h.housed.live x).2 ⟨id, hbefore.trans hx⟩
        · exact hx.1
    · exact .inl (hbefore.trans (hafter.symm.trans hx))
  · rw [hnode] at hx hb ⊢
    by_cases hi : id = i
    · subst hi
      rw [if_pos rfl] at hx ⊢
      cases hx
      rcases hneed rfl with hpos | hleft | hbody
      · exact .inl ((h.pending id).symm ▸ hpos)
      · have hentry := (h.tracked.entered id e (by simp [Account.entering, Account.choosing])).2.1
        exact .inr (.inl (by rw [← hentry] at hleft; exact hleft))
      · exact .inr (.inr hbody)
    · rw [if_neg hi] at hx hb ⊢
      exact h.needed i x r hx hb

end SlotCode.Lowering
