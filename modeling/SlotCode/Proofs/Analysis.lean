/-
  SlotCode.Proofs.Analysis — the consumer analysis finds what the graph says.

  The consumers of a node are the edges that lead to it from reachable nodes, each as often
  as it is there, and for the body also the caller of the function. Which of them read the
  value depends on which nodes are demanded, and a node is demanded when someone reads it
  (`Function.Demanded`). None of this mentions the order in which the analysis goes.

  Proved: `analyze_finds_consumers`, for every function whose references stay inside its
  arena. The numbers of consumers are right also where the graph has a cycle.
-/

import SlotCode.Proofs.Dues

namespace SlotCode

open Relation (ReflTransGen TransGen)

/-- Someone who uses a node: the caller of the function, or an edge that leaves a reachable node. -/
inductive Consumer where
  | caller
  | edge (parent : NodeId) (edge : Edge)
  deriving DecidableEq

/-- Whether a consumer reads the value of `n`, once it is known which nodes are demanded. -/
def Consumer.Reads (f : Function) (demanded : NodeId → Prop) (n : NodeId) : Consumer → Prop
  | .caller => f.returnType.kind?.isSome = true ∧ (f.kind? n).isSome = true
  | .edge _ .effect => False
  | .edge _ .operand => (f.kind? n).isSome = true
  | .edge p .forward => (f.kind? n).isSome = true ∧ demanded p

instance (f : Function) (demanded : NodeId → Prop) [DecidablePred demanded] (n : NodeId) :
    DecidablePred (Consumer.Reads f demanded n)
  | .caller => inferInstanceAs (Decidable (_ ∧ _))
  | .edge _ .effect => inferInstanceAs (Decidable False)
  | .edge _ .operand => inferInstanceAs (Decidable (_ = true))
  | .edge _ .forward => inferInstanceAs (Decidable (_ ∧ _))

namespace Function

/-- The edges from one node to another, each with its parent. -/
def edgesTo (f : Function) (n p : NodeId) : List Consumer := ((f.edgesOf p).filter (·.1 = n)).map fun x => .edge p x.2

open Classical in
/-- The consumers of a node, with multiplicity. -/
noncomputable def consumers (f : Function) (n : NodeId) : Multiset Consumer :=
  (if n = f.body then {.caller} else 0) +
    ∑ p ∈ Finset.range f.nodes.size with f.Reachable p, (f.edgesTo n p : Multiset Consumer)

/-- Someone reads the value: the caller, a parent that always does, or one whose own value is read and that hands it on. -/
inductive Demanded (f : Function) : NodeId → Prop
  | caller : f.returnType.kind?.isSome = true → (f.kind? f.body).isSome = true → f.Demanded f.body
  | operand {p n : NodeId} : f.Reachable p → (n, .operand) ∈ f.edgesOf p → (f.kind? n).isSome = true → f.Demanded n
  | forward {p n : NodeId} : f.Reachable p → f.Demanded p → (n, .forward) ∈ f.edgesOf p → (f.kind? n).isSome = true →
      f.Demanded n

variable {f : Function} {n p : NodeId}

/-! ## Consumers along the order -/

theorem mem_edgesTo {c : Consumer} : c ∈ f.edgesTo n p ↔ ∃ e, (n, e) ∈ f.edgesOf p ∧ c = .edge p e := by
  simp only [edgesTo, List.mem_map, List.mem_filter, decide_eq_true_eq]
  constructor
  · rintro ⟨⟨m, e⟩, ⟨hx, rfl⟩, rfl⟩
    exact ⟨e, hx, rfl⟩
  · rintro ⟨e, he, rfl⟩
    exact ⟨(n, e), ⟨he, rfl⟩, rfl⟩

theorem mem_consumers (hf : ∀ id, f.Reachable id → id < f.nodes.size) {c : Consumer} :
    c ∈ f.consumers n ↔ (n = f.body ∧ c = .caller) ∨ ∃ p e, f.Reachable p ∧ (n, e) ∈ f.edgesOf p ∧ c = .edge p e := by
  classical
  have hcaller : c ∈ (if n = f.body then {.caller} else 0 : Multiset Consumer) ↔ n = f.body ∧ c = .caller := by
    split <;> simp_all
  rw [consumers, Multiset.mem_add, hcaller, Multiset.mem_sum]
  refine or_congr_right ⟨?_, ?_⟩
  · rintro ⟨p, hp, hc⟩
    obtain ⟨e, he, rfl⟩ := mem_edgesTo.1 hc
    exact ⟨p, e, (Finset.mem_filter.1 hp).2, he, rfl⟩
  · rintro ⟨p, e, hp, he, rfl⟩
    exact ⟨p, Finset.mem_filter.2 ⟨Finset.mem_range.2 (hf p hp), hp⟩, mem_edgesTo.2 ⟨e, he, rfl⟩⟩

/-- The consumers that satisfy `q`, counted along the order. -/
theorem countP_consumers (hf : ∀ id, f.Reachable id → id < f.nodes.size) (n : NodeId) (q : Consumer → Prop) [DecidablePred q] :
    (f.consumers n).countP q = (if n = f.body ∧ q .caller then 1 else 0) +
      (f.order.map fun p => (f.edgesOf p).countP fun x => x.1 = n ∧ q (.edge p x.2)).sum := by
  classical
  have hreached : ({p ∈ Finset.range f.nodes.size | f.Reachable p} : Finset NodeId) = f.order.toFinset := by
    ext p
    rw [Finset.mem_filter, Finset.mem_range, List.mem_toFinset, mem_order]
    exact ⟨fun hp => hp.2, fun hp => ⟨hf p hp, hp⟩⟩
  have hedges : ∀ p, (f.edgesTo n p).countP q = (f.edgesOf p).countP fun x => x.1 = n ∧ q (.edge p x.2) := by
    intro p
    rw [edgesTo, List.countP_map, List.countP_filter]
    refine List.countP_congr fun x _ => ?_
    simp [and_comm]
  have hsum : Multiset.countP q (∑ p ∈ f.order.toFinset, (f.edgesTo n p : Multiset Consumer)) =
      (f.order.map fun p => (f.edgesOf p).countP fun x => x.1 = n ∧ q (.edge p x.2)).sum := by
    have hmap := map_sum (Multiset.countPAddMonoidHom q) (fun p => (f.edgesTo n p : Multiset Consumer)) f.order.toFinset
    refine hmap.trans ((List.sum_toFinset _ (order_nodup hf)).trans ?_)
    refine congrArg List.sum (List.map_congr_left fun p _ => ?_)
    exact (Multiset.coe_countP q _).trans (hedges p)
  have hcaller : Multiset.countP q (if n = f.body then {.caller} else 0 : Multiset Consumer) =
      if n = f.body ∧ q .caller then 1 else 0 := by
    by_cases hn : n = f.body <;> by_cases hq : q .caller <;> simp [hn, hq, ← Multiset.cons_zero]
  rw [consumers, Multiset.countP_add, hreached, hsum, hcaller]

/-! ## What the analysis settles -/

/-- The node is demanded according to the analysis. -/
def IsRead (f : Function) (n : NodeId) : Prop := (tallyAt f.tallies n).demanded = true

instance : DecidablePred f.IsRead := fun n => inferInstanceAs (Decidable ((tallyAt f.tallies n).demanded = true))

theorem bodyRead_iff : f.bodyRead = true ↔ Consumer.caller.Reads f f.IsRead f.body := Bool.and_eq_true_iff

theorem reads_iff {e : Edge} :
    f.reads (tallyAt f.tallies p).demanded n e = true ↔ (Consumer.edge p e).Reads f f.IsRead n := by
  cases e <;> simp [Function.reads, Consumer.Reads, IsRead, and_comm]

theorem total_eq_card (hf : ∀ id, f.Reachable id → id < f.nodes.size) (hn : n < f.nodes.size) :
    (tallyAt f.tallies n).total = (f.consumers n).card := by
  have hcount := countP_consumers hf n fun _ => True
  rw [Multiset.countP_True] at hcount
  rw [hcount, total_eq hf hn]
  simp

theorem ignored_eq_countP (hf : ∀ id, f.Reachable id → id < f.nodes.size) (hn : n < f.nodes.size) :
    (tallyAt f.tallies n).ignored = (f.consumers n).countP fun c => ¬ c.Reads f f.IsRead n := by
  rw [countP_consumers hf, ignored_eq hf hn]
  congr 1
  · refine if_congr (and_congr_right fun hbody => ?_) rfl rfl
    rw [hbody, ← bodyRead_iff, Bool.not_eq_true]
  · refine congrArg List.sum (List.map_congr_left fun p _ => List.countP_congr fun x _ => ?_)
    simp only [decide_eq_true_eq, ← reads_iff, Bool.not_eq_true]

/-- Whom the analysis calls demanded, someone reads. -/
theorem demanded_of_isRead (hf : ∀ id, f.Reachable id → id < f.nodes.size) : ∀ (before : List NodeId) (n : NodeId)
    (after : List NodeId), f.order = before ++ n :: after → f.IsRead n → f.Demanded n := by
  -- The reader stands earlier in the order, so the induction is on what stands before the node.
  intro before
  induction hlen : before.length using Nat.strongRecOn generalizing before with
  | ind len ih =>
    intro n after horder hread
    rcases ((counted_tallies hf).settled before n after horder).1 hread with ⟨rfl, hbody⟩ | ⟨p, hp, e, hpe, hr⟩
    · obtain ⟨hreturn, hkind⟩ := bodyRead_iff.1 hbody
      exact .caller hreturn hkind
    · have hreach : f.Reachable p := mem_order.1 (by rw [horder]; exact List.mem_append_left _ hp)
      have hreads := reads_iff.1 hr
      cases e with
      | effect => exact hreads.elim
      | operand => exact .operand hreach hpe hreads
      | forward =>
        obtain ⟨earlier, between, rfl⟩ := List.append_of_mem hp
        have hshorter : earlier.length < len := by rw [← hlen]; simp
        have hparent := ih earlier.length hshorter earlier rfl p (between ++ n :: after) (by simpa using horder) hreads.2
        exact .forward hreach hparent hpe hreads.1

/-- Without cycles, the nodes called demanded are those that someone reads. -/
theorem isRead_iff (hf : ∀ id, f.Reachable id → id < f.nodes.size) (ha : f.Acyclic) (hn : f.Reachable n) :
    f.IsRead n ↔ f.Demanded n := by
  constructor
  · intro hread
    obtain ⟨before, after, horder⟩ := List.append_of_mem (mem_order.2 hn)
    exact demanded_of_isRead hf before n after horder hread
  · intro hd
    induction hd with
    | caller hreturn hkind => exact (demanded_iff hf ha hn).2 (.inl ⟨rfl, bodyRead_iff.2 ⟨hreturn, hkind⟩⟩)
    | operand hp he hkind => exact (demanded_iff hf ha hn).2 (.inr ⟨_, hp, _, he, reads_iff.2 hkind⟩)
    | forward hp _ he hkind ih => exact (demanded_iff hf ha hn).2 (.inr ⟨_, hp, _, he, reads_iff.2 ⟨hkind, ih hp⟩⟩)

/-- Without cycles, a node is called demanded when one of its consumers reads it. -/
theorem isRead_iff_exists (hf : ∀ id, f.Reachable id → id < f.nodes.size) (ha : f.Acyclic) (hn : f.Reachable n) :
    f.IsRead n ↔ ∃ c ∈ f.consumers n, c.Reads f f.IsRead n := by
  refine (demanded_iff hf ha hn).trans ⟨?_, ?_⟩
  · rintro (⟨rfl, hbody⟩ | ⟨p, hp, e, he, hr⟩)
    · exact ⟨.caller, (mem_consumers hf).2 (.inl ⟨rfl, rfl⟩), bodyRead_iff.1 hbody⟩
    · exact ⟨.edge p e, (mem_consumers hf).2 (.inr ⟨p, e, hp, he, rfl⟩), reads_iff.1 hr⟩
  · rintro ⟨c, hc, hr⟩
    rcases (mem_consumers hf).1 hc with ⟨rfl, rfl⟩ | ⟨p, e, hp, he, rfl⟩
    · exact .inl ⟨rfl, bodyRead_iff.2 hr⟩
    · exact .inr ⟨p, hp, e, he, reads_iff.2 hr⟩

/-! ## Nodes that nothing leads to -/

theorem consumers_eq_zero (hf : ∀ id, f.Reachable id → id < f.nodes.size) (hn : ¬ f.Reachable n) : f.consumers n = 0 := by
  refine Multiset.eq_zero_of_forall_notMem fun c hc => hn ?_
  rcases (mem_consumers hf).1 hc with ⟨rfl, -⟩ | ⟨p, e, hp, he, -⟩
  · exact .refl
  · exact .tail hp (isChild_iff.2 ⟨e, he⟩)

/-- Counting the edges of other nodes leaves open whether a node is demanded. -/
theorem demanded_foldl (todo : List NodeId) : ∀ ts : Array Tally, ts.size = f.nodes.size → (∀ p ∈ todo, p < f.nodes.size) →
    n < f.nodes.size → n ∉ todo → (tallyAt (todo.foldl f.countEdges ts) n).demanded = (tallyAt ts n).demanded := by
  induction todo with
  | nil => exact fun _ _ _ _ _ => rfl
  | cons p todo ih =>
    intro ts hsize hlt hn hnot
    have hp := hlt p List.mem_cons_self
    have hcounts := counts_countEdges f ts p hp
    have hstep : (tallyAt (f.countEdges ts p) n).demanded = (tallyAt ts n).demanded := by
      rw [hcounts.demanded n (by simpa [hsize] using hn), tallyAt_modify _ _ _ (hsize ▸ hn),
        if_neg fun he => hnot (by simp [he])]
    have hrest := ih (f.countEdges ts p) (by simpa [hsize] using hcounts.size) (fun q hq => hlt q (List.mem_cons_of_mem _ hq)) hn
      fun hm => hnot (List.mem_cons_of_mem _ hm)
    rw [List.foldl_cons, hrest, hstep]

theorem not_isRead (hf : ∀ id, f.Reachable id → id < f.nodes.size) (hn : n < f.nodes.size) (hnot : ¬ f.Reachable n) :
    ¬ f.IsRead n := by
  have hblank : (tallyAt (countAt (Array.replicate f.nodes.size {}) f.body f.bodyRead) n).demanded = false := by
    have hbody : f.body ≠ n := fun he => hnot (he ▸ .refl)
    rw [countAt, tallyAt_modify _ _ _ (by simpa using hn), if_neg hbody]
    simp [tallyAt, hn]
  have hsame := demanded_foldl f.order _ (counted_start f).size (fun p hp => hf p (mem_order.1 hp)) hn
    fun hm => hnot (mem_order.1 hm)
  unfold IsRead Function.tallies
  rw [hsame, hblank]
  exact Bool.false_ne_true

/-- The counts of a node that is not reachable are zero, and it is not demanded. -/
theorem tally_eq_blank (hf : ∀ id, f.Reachable id → id < f.nodes.size) (hnot : ¬ f.Reachable n) :
    (tallyAt f.tallies n).total = 0 ∧ (tallyAt f.tallies n).ignored = 0 ∧ (tallyAt f.tallies n).demanded = false := by
  by_cases hn : n < f.nodes.size
  · rw [total_eq_card hf hn, ignored_eq_countP hf hn, consumers_eq_zero hf hnot]
    exact ⟨rfl, rfl, Bool.eq_false_iff.2 (not_isRead hf hn hnot)⟩
  · have hnone : f.tallies[n]? = none := Array.getElem?_eq_none ((counted_tallies hf).size.trans_le (Nat.le_of_not_lt hn))
    have hbeyond : tallyAt f.tallies n = {} := by
      rw [tallyAt, Array.getD_eq_getD_getElem?, hnone]
      rfl
    rw [hbeyond]
    exact ⟨rfl, rfl, rfl⟩

/-- What is left at the outset is what was counted. -/
theorem left_eq (f : Function) (n : NodeId) : (f.tallies.map fun t => (⟨t.total, t.total - t.ignored⟩ : Left)).getD n {} =
    ⟨(tallyAt f.tallies n).total, (tallyAt f.tallies n).total - (tallyAt f.tallies n).ignored⟩ := by
  simp only [tallyAt, Array.getD_eq_getD_getElem?, Array.getElem?_map]
  cases f.tallies[n]? <;> rfl

end Function

/-- A function that reaches only nodes of its arena is accepted. -/
theorem Demand.exists_analyze {f : Function} (hf : ∀ id, f.Reachable id → id < f.nodes.size) :
    ∃ d, Demand.analyze f = .ok d := by
  have hnone : f.order.find? (fun id => f.nodes.size ≤ id) = none :=
    List.find?_eq_none.2 fun id hid => by simpa using hf id (Function.mem_order.1 hid)
  unfold Demand.analyze
  rw [hnone]
  exact ⟨_, rfl⟩

/-- The analysis succeeds on every function whose references stay inside its arena. Each reachable node then has as many
    consumers as the graph gives it, and one that is not reachable has none. Without cycles the nodes called demanded are
    those that someone reads, and the consumers that do not read are counted as such. -/
theorem analyze_finds_consumers (f : Function) :
    ((∃ d, Demand.analyze f = .ok d) ↔ ∀ id, f.Reachable id → id < f.nodes.size) ∧
    ∀ d, Demand.analyze f = .ok d →
      (∀ n, f.Reachable n → d.total n = (f.consumers n).card ∧ d.ignored n ≤ d.total n) ∧
      (∀ n, ¬ f.Reachable n → d.total n = 0 ∧ d.ignored n = 0 ∧ d.isDemanded n = false ∧ d.left.getD n {} = {}) ∧
      (f.Acyclic → ∀ n, f.Reachable n →
        d.ignored n = (f.consumers n).countP (fun c => ¬ c.Reads f (d.isDemanded · = true) n) ∧
        (d.isDemanded n = true ↔ ∃ c ∈ f.consumers n, c.Reads f (d.isDemanded · = true) n) ∧
        (d.isDemanded n = true ↔ f.Demanded n)) := by
  refine ⟨⟨fun ⟨d, hd⟩ => (Demand.analyze_ok hd).1, Demand.exists_analyze⟩, ?_⟩
  rintro ⟨tallies, left⟩ hd
  obtain ⟨hf, htallies, hleft⟩ := Demand.analyze_ok hd
  obtain rfl : tallies = f.tallies := htallies
  obtain rfl : left = _ := hleft
  refine ⟨fun n hn => ⟨Function.total_eq_card hf (hf n hn), ?_⟩, fun n hn => ?_, fun ha n hn => ⟨?_, ?_, ?_⟩⟩
  · have hignored := Function.ignored_eq_countP hf (hf n hn)
    exact (hignored.le.trans (Multiset.countP_le_card _ _)).trans (Function.total_eq_card hf (hf n hn)).ge
  · obtain ⟨htotal, hignored, hdemanded⟩ := Function.tally_eq_blank hf hn
    refine ⟨htotal, hignored, hdemanded, (f.left_eq n).trans ?_⟩
    rw [htotal]
    simp
  · exact Function.ignored_eq_countP hf (hf n hn)
  · exact Function.isRead_iff_exists hf ha hn
  · exact Function.isRead_iff hf ha hn

/-- Negates its parameter; a conditional that nobody reads has the negation in both arms, and the body gives it. Another
    negation is not reachable. -/
def unreadPick : Function where
  params := [.boolean, .int]
  locals := []
  nodes := #[⟨.param 0, .boolean⟩, ⟨.param 1, .int⟩, ⟨.unary (.negate .int) 1, .int⟩, ⟨.conditional 0 2 2, .int⟩,
    ⟨.sequence 3 2, .int⟩, ⟨.unary (.negate .int) 2, .int⟩]
  body := 4
  returnType := .int

theorem unreadPick_finds_consumers : ∃ d, Demand.analyze unreadPick = .ok d ∧ unreadPick.Acyclic ∧
    (unreadPick.Reachable 2 ∧ unreadPick.Reachable 3 ∧ ¬ unreadPick.Reachable 5) ∧
    (unreadPick.consumers 2).card = 3 ∧
    (unreadPick.consumers 2).countP (fun c => ¬ c.Reads unreadPick (d.isDemanded · = true) 2) = 2 ∧
    unreadPick.Demanded 2 ∧ ¬ unreadPick.Demanded 3 ∧ d.total 5 = 0 := by
  have horder : unreadPick.order = [4, 3, 2, 1, 0] := by decide +kernel
  have hreach : ∀ id, unreadPick.Reachable id ↔ id ∈ [4, 3, 2, 1, 0] := fun id => by
    rw [← horder, Function.mem_order]
  have hacyclic : unreadPick.Acyclic := Function.acyclic_of_lt (by decide +kernel)
  have h2 : unreadPick.Reachable 2 := (hreach 2).2 (by decide)
  have h3 : unreadPick.Reachable 3 := (hreach 3).2 (by decide)
  have h5 : ¬ unreadPick.Reachable 5 := fun h => absurd ((hreach 5).1 h) (by decide)
  have htallies : unreadPick.tallies = #[⟨1, 0, true, true⟩, ⟨1, 0, true, true⟩, ⟨3, 2, true, true⟩, ⟨1, 1, false, false⟩,
      ⟨1, 0, true, true⟩, ⟨0, 0, false, false⟩] := by decide +kernel
  obtain ⟨hrange, hfound⟩ := analyze_finds_consumers unreadPick
  obtain ⟨d, hd⟩ := hrange.2 fun id hid => by
    have hmem := (hreach id).1 hid
    have hall : ∀ id ∈ [4, 3, 2, 1, 0], id < unreadPick.nodes.size := by decide
    exact hall id hmem
  obtain ⟨htotals, hblank, hreads⟩ := hfound d hd
  have hd' : d.tallies = _ := (Demand.analyze_ok hd).2.1.trans htallies
  have hpicked : d.isDemanded 3 = false := by rw [Demand.isDemanded, Demand.tally, hd']; rfl
  have hnegated : d.isDemanded 2 = true := by rw [Demand.isDemanded, Demand.tally, hd']; rfl
  refine ⟨d, hd, hacyclic, ⟨h2, h3, h5⟩, ?_, ?_, ?_, ?_, (hblank 5 h5).1⟩
  · rw [← (htotals 2 h2).1, Demand.total, Demand.tally, hd']
    rfl
  · rw [← (hreads hacyclic 2 h2).1, Demand.ignored, Demand.tally, hd']
    rfl
  · exact (hreads hacyclic 2 h2).2.2.1 hnegated
  · exact fun hdemanded => Bool.false_ne_true (hpicked.symm.trans ((hreads hacyclic 3 h3).2.2.2 hdemanded))

end SlotCode
