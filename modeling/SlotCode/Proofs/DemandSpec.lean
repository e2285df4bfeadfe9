/-
  SlotCode.Proofs.DemandSpec — what the consumer analysis counts.

  The analysis settles a node when it comes to it in the order, and counts its edges then.
  `Counted` says what the tallies hold after some nodes: the references from those nodes,
  and for each of them whether an earlier one reads it.

  Proved, for every function whose reachable nodes are in the arena:
    * `total_eq` — the total of a node counts the references from reachable nodes, and
      the caller for the body, and `ignored_eq` those among them that do not read it;
    * `demanded_iff` — without cycles, a node is demanded exactly when the caller or some
      reachable parent reads it.
-/

import Mathlib.Algebra.BigOperators.Group.List.Basic
import Mathlib.Algebra.GroupWithZero.Nat
import SlotCode.Graph.Demand
import SlotCode.Proofs.OrderSpec

namespace SlotCode

/-- The edges that leave a node; a position outside the arena has none. -/
def Function.edgesOf (f : Function) (id : NodeId) : List (NodeId × Edge) :=
  match f.node? id with
  | some n => n.expr.edges
  | none => []

theorem Function.isChild_iff {f : Function} {p c : NodeId} : f.IsChild p c ↔ ∃ e, (c, e) ∈ f.edgesOf p := by
  unfold Function.IsChild Function.children Function.edgesOf Expr.children
  cases f.node? p <;> simp

def tallyAt (ts : Array Tally) (id : NodeId) : Tally := ts.getD id {}

/-! ## Counting the edges of one node -/

theorem size_countAt (ts : Array Tally) (id : NodeId) (reads : Bool) : (countAt ts id reads).size = ts.size := by
  simp [countAt]

theorem tallyAt_modify (ts : Array Tally) (id : NodeId) (g : Tally → Tally) {n : NodeId} (hn : n < ts.size) :
    tallyAt (ts.modify id g) n = if id = n then g (tallyAt ts n) else tallyAt ts n := by
  simp only [tallyAt, Array.getD_eq_getD_getElem?, Array.getElem?_modify]
  split
  · rename_i h
    subst h
    simp [hn]
  · rfl

/-- What the edges of one node add to the tally of another. -/
structure Counts (f : Function) (demanded : Bool) (edges : List (NodeId × Edge)) (ts ts' : Array Tally) : Prop where
  size : ts'.size = ts.size
  total : ∀ n < ts.size, (tallyAt ts' n).total = (tallyAt ts n).total + edges.countP (·.1 = n)
  ignored : ∀ n < ts.size, (tallyAt ts' n).ignored =
    (tallyAt ts n).ignored + edges.countP (fun x => x.1 = n ∧ f.reads demanded n x.2 = false)
  read : ∀ n < ts.size, (tallyAt ts' n).read = true ↔
    (tallyAt ts n).read = true ∨ ∃ e, (n, e) ∈ edges ∧ f.reads demanded n e = true
  demanded : ∀ n < ts.size, (tallyAt ts' n).demanded = (tallyAt ts n).demanded

theorem counts_edges (f : Function) (demanded : Bool) (edges : List (NodeId × Edge)) (ts : Array Tally) :
    Counts f demanded edges ts (edges.foldl (fun ts (c, e) => countAt ts c (f.reads demanded c e)) ts) := by
  induction edges generalizing ts with
  | nil => exact ⟨rfl, by simp, by simp, by simp, by simp⟩
  | cons edge edges ih =>
    obtain ⟨c, e⟩ := edge
    have h := ih (countAt ts c (f.reads demanded c e))
    rw [List.foldl_cons]
    have hone : ∀ n < ts.size, tallyAt (countAt ts c (f.reads demanded c e)) n =
        if c = n then (tallyAt ts n).count (f.reads demanded c e) else tallyAt ts n :=
      fun n hn => tallyAt_modify ts c _ hn
    have hsize := size_countAt ts c (f.reads demanded c e)
    refine ⟨h.size.trans hsize, fun n hn => ?_, fun n hn => ?_, fun n hn => ?_, fun n hn => ?_⟩
    · rw [h.total n (hsize ▸ hn), hone n hn, List.countP_cons]
      by_cases hc : c = n
      · simp only [hc, if_true, decide_true, Tally.count]
        split <;> simp only <;> omega
      · simp [hc]
    · rw [h.ignored n (hsize ▸ hn), hone n hn, List.countP_cons]
      by_cases hc : c = n
      · subst hc
        cases hr : f.reads demanded c e
        · simp [Tally.count]
          omega
        · simp [Tally.count]
      · simp [hc]
    · rw [h.read n (hsize ▸ hn), hone n hn]
      by_cases hc : c = n
      · subst hc
        cases hr : f.reads demanded c e <;> simp_all [Tally.count]
      · have hne : ¬ n = c := fun h => hc h.symm
        simp [hc, hne]
    · rw [h.demanded n (hsize ▸ hn), hone n hn]
      split
      · simp only [Tally.count]
        split <;> rfl
      · rfl

theorem counts_countEdges (f : Function) (ts : Array Tally) (id : NodeId) (hid : id < f.nodes.size) :
    Counts f (tallyAt ts id).read (f.edgesOf id) (ts.modify id ({ · with demanded := (tallyAt ts id).read }))
      (f.countEdges ts id) := by
  have hn : f.node? id = some f.nodes[id] := Array.getElem?_eq_getElem hid
  simp only [Function.countEdges, Function.edgesOf, hn]
  exact counts_edges f _ _ _

/-! ## Counting along the order -/

/-- The tallies after the nodes in `done`, in that order. -/
structure Counted (f : Function) (done : List NodeId) (ts : Array Tally) : Prop where
  size : ts.size = f.nodes.size
  total : ∀ n < f.nodes.size, (tallyAt ts n).total =
    (if n = f.body then 1 else 0) + (done.map fun p => (f.edgesOf p).countP (·.1 = n)).sum
  ignored : ∀ n < f.nodes.size, (tallyAt ts n).ignored = (if n = f.body ∧ f.bodyRead = false then 1 else 0) +
    (done.map fun p => (f.edgesOf p).countP fun x => x.1 = n ∧ f.reads (tallyAt ts p).demanded n x.2 = false).sum
  read : ∀ n < f.nodes.size, (tallyAt ts n).read = true ↔ (n = f.body ∧ f.bodyRead = true) ∨
    ∃ p ∈ done, ∃ e, (n, e) ∈ f.edgesOf p ∧ f.reads (tallyAt ts p).demanded n e = true
  settled : ∀ before n after, done = before ++ n :: after → ((tallyAt ts n).demanded = true ↔
    (n = f.body ∧ f.bodyRead = true) ∨
      ∃ p ∈ before, ∃ e, (n, e) ∈ f.edgesOf p ∧ f.reads (tallyAt ts p).demanded n e = true)

theorem counted_start (f : Function) :
    Counted f [] (countAt (Array.replicate f.nodes.size {}) f.body f.bodyRead) := by
  have hblank : ∀ n < f.nodes.size, tallyAt (Array.replicate f.nodes.size {}) n = {} := by
    intro n hn
    simp [tallyAt, hn]
  have hone : ∀ n < f.nodes.size, tallyAt (countAt (Array.replicate f.nodes.size {}) f.body f.bodyRead) n =
      if f.body = n then Tally.count {} f.bodyRead else {} := by
    intro n hn
    rw [countAt, tallyAt_modify _ _ _ (by simpa using hn), hblank n hn]
  refine ⟨by simp [countAt], fun n hn => ?_, fun n hn => ?_, fun n hn => ?_, by simp⟩
  · rw [hone n hn]
    by_cases h : f.body = n
    · simp only [h, if_true, Tally.count]
      split <;> rfl
    · have hne : ¬ n = f.body := fun h' => h h'.symm
      simp [h, hne]
  · rw [hone n hn]
    by_cases h : f.body = n
    · subst h
      cases hr : f.bodyRead <;> simp [Tally.count]
    · have hne : ¬ n = f.body := fun h' => h h'.symm
      simp [h, hne]
  · rw [hone n hn]
    by_cases h : f.body = n
    · subst h
      cases hr : f.bodyRead <;> simp [Tally.count]
    · have hne : ¬ n = f.body := fun h' => h h'.symm
      simp [h, hne]

theorem Counted.step {f : Function} {done : List NodeId} {ts : Array Tally} {id : NodeId} (h : Counted f done ts)
    (hid : id < f.nodes.size) (hdone : ∀ p ∈ done, p < f.nodes.size) (hnew : id ∉ done) :
    Counted f (done ++ [id]) (f.countEdges ts id) := by
  have hc := counts_countEdges f ts id hid
  have hmod : ∀ n < f.nodes.size, tallyAt (ts.modify id ({ · with demanded := (tallyAt ts id).read })) n =
      if id = n then { tallyAt ts n with demanded := (tallyAt ts id).read } else tallyAt ts n :=
    fun n hn => tallyAt_modify ts id _ (h.size ▸ hn)
  have hsize : (ts.modify id ({ · with demanded := (tallyAt ts id).read })).size = f.nodes.size := by
    simpa using h.size
  -- What is settled stays settled; the node itself is settled by what has been read so far.
  have hold : ∀ p ∈ done, (tallyAt (f.countEdges ts id) p).demanded = (tallyAt ts p).demanded := by
    intro p hp
    have hne : ¬ id = p := fun he => hnew (he ▸ hp)
    rw [hc.demanded p (hsize ▸ hdone p hp), hmod p (hdone p hp), if_neg hne]
  have hself : (tallyAt (f.countEdges ts id) id).demanded = (tallyAt ts id).read := by
    rw [hc.demanded id (hsize ▸ hid), hmod id hid, if_pos rfl]
  refine ⟨hc.size.trans hsize, fun n hn => ?_, fun n hn => ?_, fun n hn => ?_, fun before n after he => ?_⟩
  · have htotal : (tallyAt (ts.modify id ({ · with demanded := (tallyAt ts id).read })) n).total =
        (tallyAt ts n).total := by
      rw [hmod n hn]
      split <;> rfl
    rw [hc.total n (hsize ▸ hn), htotal, h.total n hn]
    simp only [List.map_append, List.map_cons, List.map_nil, List.sum_append, List.sum_cons, List.sum_nil]
    omega
  · have hignored : (tallyAt (ts.modify id ({ · with demanded := (tallyAt ts id).read })) n).ignored =
        (tallyAt ts n).ignored := by
      rw [hmod n hn]
      split <;> rfl
    have hmap : (done.map fun p => (f.edgesOf p).countP fun x => x.1 = n ∧
        f.reads (tallyAt (f.countEdges ts id) p).demanded n x.2 = false) =
        done.map fun p => (f.edgesOf p).countP fun x => x.1 = n ∧ f.reads (tallyAt ts p).demanded n x.2 = false :=
      List.map_congr_left fun p hp => by rw [hold p hp]
    rw [hc.ignored n (hsize ▸ hn), hignored, h.ignored n hn]
    simp only [List.map_append, List.map_cons, List.map_nil, List.sum_append, List.sum_cons, List.sum_nil, hmap, hself]
    omega
  · have hread : (tallyAt (ts.modify id ({ · with demanded := (tallyAt ts id).read })) n).read =
        (tallyAt ts n).read := by
      rw [hmod n hn]
      split <;> rfl
    rw [hc.read n (hsize ▸ hn), hread, h.read n hn, or_assoc]
    refine or_congr_right ⟨?_, ?_⟩
    · rintro (⟨p, hp, e, he, hr⟩ | ⟨e, he, hr⟩)
      · exact ⟨p, List.mem_append_left _ hp, e, he, by rw [hold p hp]; exact hr⟩
      · exact ⟨id, by simp, e, he, by rw [hself]; exact hr⟩
    · rintro ⟨p, hp, e, he, hr⟩
      rcases List.mem_append.1 hp with hp | hp
      · exact .inl ⟨p, hp, e, he, by rw [← hold p hp]; exact hr⟩
      · obtain rfl : p = id := by simpa using hp
        exact .inr ⟨e, he, by rw [← hself]; exact hr⟩
  · have hprefix : ∀ before' : List NodeId, (∀ p ∈ before', p ∈ done) →
        ((∃ p ∈ before', ∃ e, (n, e) ∈ f.edgesOf p ∧ f.reads (tallyAt ts p).demanded n e = true) ↔
          ∃ p ∈ before', ∃ e, (n, e) ∈ f.edgesOf p ∧
            f.reads (tallyAt (f.countEdges ts id) p).demanded n e = true) := by
      intro before' hsub
      refine exists_congr fun p => and_congr_right fun hp => ?_
      rw [hold p (hsub p hp)]
    rcases List.append_eq_append_iff.1 he with ⟨mid, hb, hm⟩ | ⟨mid, hb, hm⟩
    · cases mid with
      | nil =>
        obtain ⟨rfl, rfl⟩ : id = n ∧ after = [] := by simpa using hm
        obtain rfl : before = done := by simpa using hb
        rw [hself, h.read id hid, hprefix before fun p hp => hp]
      | cons y rest => simp at hm
    · cases mid with
      | nil =>
        obtain ⟨rfl, rfl⟩ : n = id ∧ after = [] := by simpa using hm
        obtain rfl : done = before := by simpa using hb
        rw [hself, h.read n hid, hprefix done fun p hp => hp]
      | cons y rest =>
        obtain ⟨rfl, rfl⟩ : n = y ∧ after = rest ++ [id] := by simpa using hm
        have hn : n ∈ done := by rw [hb]; simp
        rw [hold n hn, h.settled before n rest hb, hprefix before fun p hp => by rw [hb]; exact List.mem_append_left _ hp]

theorem Counted.foldl {f : Function} (todo : List NodeId) : ∀ (done : List NodeId) (ts : Array Tally), Counted f done ts →
    (∀ p ∈ done ++ todo, p < f.nodes.size) → (done ++ todo).Nodup →
    Counted f (done ++ todo) (todo.foldl f.countEdges ts) := by
  induction todo with
  | nil => intro done ts h _ _; simpa using h
  | cons id todo ih =>
    intro done ts h hlt hnodup
    have hnew : id ∉ done := fun hm => (List.nodup_append.1 hnodup).2.2 id hm id (by simp) rfl
    have hstep := h.step (hlt id (by simp)) (fun p hp => hlt p (List.mem_append_left _ hp)) hnew
    have := ih (done ++ [id]) _ hstep (by simpa using hlt) (by simpa using hnodup)
    simpa using this

/-! ## The analysis -/

namespace Function

variable {f : Function}

theorem counted_tallies (h : ∀ id, f.Reachable id → id < f.nodes.size) : Counted f f.order f.tallies := by
  have hlt : ∀ p ∈ [] ++ f.order, p < f.nodes.size := fun p hp => h p (mem_order.1 (by simpa using hp))
  exact (counted_start f).foldl f.order [] _ hlt (by simpa using order_nodup h)

/-- Every reference from a reachable node is counted, and the caller's to the body. -/
theorem total_eq (h : ∀ id, f.Reachable id → id < f.nodes.size) {n : NodeId} (hn : n < f.nodes.size) :
    (tallyAt f.tallies n).total =
      (if n = f.body then 1 else 0) + (f.order.map fun p => (f.edgesOf p).countP (·.1 = n)).sum :=
  (counted_tallies h).total n hn

/-- Every reference that does not read its node is counted as ignoring it. -/
theorem ignored_eq (h : ∀ id, f.Reachable id → id < f.nodes.size) {n : NodeId} (hn : n < f.nodes.size) :
    (tallyAt f.tallies n).ignored = (if n = f.body ∧ f.bodyRead = false then 1 else 0) + (f.order.map fun p =>
      (f.edgesOf p).countP fun x => x.1 = n ∧ f.reads (tallyAt f.tallies p).demanded n x.2 = false).sum :=
  (counted_tallies h).ignored n hn

/-- Without cycles, a node is demanded exactly when the caller or a reachable parent reads it. -/
theorem demanded_iff (h : ∀ id, f.Reachable id → id < f.nodes.size) (ha : f.Acyclic) {n : NodeId} (hn : f.Reachable n) :
    (tallyAt f.tallies n).demanded = true ↔ (n = f.body ∧ f.bodyRead = true) ∨
      ∃ p, f.Reachable p ∧ ∃ e, (n, e) ∈ f.edgesOf p ∧ f.reads (tallyAt f.tallies p).demanded n e = true := by
  obtain ⟨before, after, he⟩ := List.append_of_mem (mem_order.2 hn)
  rw [(counted_tallies h).settled before n after he]
  refine or_congr_right ⟨?_, ?_⟩
  · rintro ⟨p, hp, e, hpe, hr⟩
    exact ⟨p, mem_order.1 (by rw [he]; exact List.mem_append_left _ hp), e, hpe, hr⟩
  · rintro ⟨p, hp, e, hpe, hr⟩
    refine ⟨p, ?_, e, hpe, hr⟩
    -- A parent behind the node would have to stand before it as well.
    obtain ⟨before', after', he'⟩ := List.append_of_mem (mem_order.2 hp)
    have hbehind := order_parent_first ha he' (isChild_iff.2 ⟨e, hpe⟩)
    have hnodup := order_nodup h
    rw [he'] at he
    rcases List.append_eq_append_iff.1 he with ⟨mid, hb, hm⟩ | ⟨mid, hb, hm⟩
    · cases mid with
      | nil =>
        obtain ⟨rfl, rfl⟩ : p = n ∧ after' = after := by simpa using hm
        rw [he', List.nodup_append] at hnodup
        exact absurd hbehind (List.nodup_cons.1 hnodup.2.1).1
      | cons y rest =>
        obtain ⟨rfl, -⟩ : p = y ∧ after' = rest ++ n :: after := by simpa using hm
        rw [hb]
        simp
    · rw [he', hb] at hnodup
      have hin : n ∈ before ++ mid := by
        cases mid with
        | nil =>
          obtain ⟨rfl, -⟩ : n = p ∧ after = after' := by simpa using hm
          rw [he'] at *
          rw [List.append_nil] at hnodup
          exact absurd hbehind (List.nodup_cons.1 (List.nodup_append.1 hnodup).2.1).1
        | cons y rest =>
          obtain ⟨rfl, -⟩ : n = y ∧ after = rest ++ p :: after' := by simpa using hm
          simp
      exact absurd rfl ((List.nodup_append.1 hnodup).2.2 n hin n (List.mem_cons_of_mem _ hbehind))

end Function

end SlotCode
