/-
  SlotCode.Proofs.Dues — the edges that a walk has to lower, as a multiset.

  Every edge of the graph is a due: its parent owes the child one visit, which reads the
  child's value or not. The caller owes the body one. The counts of the analysis are
  numbers of dues (`left_start`), so that using a count up is paying a due.
-/

import Mathlib.Algebra.BigOperators.Group.Finset.Basic
import Mathlib.Algebra.Order.BigOperators.Group.Multiset
import SlotCode.Proofs.DemandSpec
import SlotCode.Proofs.TreeShape

namespace SlotCode

/-- A visit of a node that someone owes; the caller of the function has no node. -/
structure Due where
  parent : Option NodeId
  child : NodeId
  reads : Bool
  deriving DecidableEq

/-! ## Who asks for the value of a node -/

/-- The expression asks for the value of a child without a look at the child's type. -/
def Expr.AsksUnseen (e : Expr) (c : NodeId) : Prop :=
  match e with
  | .setArrayElement _ _ value => c = value
  | .call _ _ args => c ∈ args
  | _ => False

/-- A node that the body leads to asks so for the value of another. -/
def Function.AskedUnseen (f : Function) (c : NodeId) : Prop :=
  ∃ p n, f.Reachable p ∧ f.node? p = some n ∧ n.expr.AsksUnseen c

/-- The value of a node is asked for where it has one, or where nobody looks. -/
def Function.Asked (f : Function) (c : NodeId) : Prop := (f.kind? c).isSome = true ∨ f.AskedUnseen c

theorem Function.Asked.of_kind {f : Function} {c : NodeId} {k : Option Kind} (h : f.kind? c = k) (hk : k.isSome = true) :
    f.Asked c := .inl (h ▸ hk)

/-- A visit is made as its due says: it reads where the node has a value that is asked for. -/
structure Due.Made (f : Function) (d : Due) (u : Usage) : Prop where
  reads : d.reads = (u = .value && (f.kind? d.child).isSome)
  asked : u = .value → f.Asked d.child

theorem Due.Made.ignored {f : Function} {d : Due} (hd : d.reads = false) : d.Made f .ignore := by
  refine ⟨by simp [hd], fun hvalue => ?_⟩
  cases hvalue

theorem Due.Made.value {f : Function} {d : Due} (hd : d.reads = (f.kind? d.child).isSome) (ha : f.Asked d.child) :
    d.Made f .value := ⟨by simp [hd], fun _ => ha⟩

/-! ## The dues of a function -/

namespace Function

variable {f : Function}

/-- The visit that an edge stands for. -/
def due (f : Function) (p c : NodeId) (e : Edge) : Due := ⟨some p, c, f.reads (tallyAt f.tallies p).demanded c e⟩

/-- The visits that a node owes, in the order in which it makes them. -/
def dues (f : Function) (p : NodeId) : List Due := (f.edgesOf p).map fun (c, e) => f.due p c e

def bodyDue (f : Function) : Due := ⟨none, f.body, f.bodyRead⟩

/-- All visits owed in the reachable graph. -/
def allDues (f : Function) : Multiset Due := f.bodyDue ::ₘ ∑ p ∈ f.order.toFinset, (f.dues p : Multiset Due)

theorem dues_of_node {p : NodeId} {n : Node} (h : f.node? p = some n) :
    f.dues p = n.expr.edges.map fun (c, e) => f.due p c e := by simp [dues, edgesOf, h]

theorem parent_of_dues {p : NodeId} {d : Due} (h : d ∈ f.dues p) : d.parent = some p := by
  obtain ⟨x, -, rfl⟩ := List.mem_map.1 h
  rfl

theorem isChild_of_dues {p : NodeId} {d : Due} (h : d ∈ f.dues p) : f.IsChild p d.child := by
  obtain ⟨⟨c, e⟩, he, rfl⟩ := List.mem_map.1 h
  exact isChild_iff.2 ⟨e, he⟩

theorem exists_due {p c : NodeId} (h : f.IsChild p c) : ∃ d ∈ f.dues p, d.child = c := by
  obtain ⟨e, he⟩ := isChild_iff.1 h
  exact ⟨_, List.mem_map.2 ⟨_, he, rfl⟩, rfl⟩

theorem mem_allDues {d : Due} : d ∈ f.allDues ↔ d = f.bodyDue ∨ ∃ p, f.Reachable p ∧ d ∈ f.dues p := by
  simp [allDues, Multiset.mem_sum, mem_order]

theorem reachable_of_due {d : Due} (h : d ∈ f.allDues) : f.Reachable d.child := by
  rcases mem_allDues.1 h with rfl | ⟨p, hp, hd⟩
  · exact .refl
  · exact .tail hp (isChild_of_dues hd)

/-- Only what has a value is read. -/
theorem kind_of_due {d : Due} (h : d ∈ f.allDues) (hr : d.reads = true) : (f.kind? d.child).isSome = true := by
  rcases mem_allDues.1 h with rfl | ⟨p, -, hd⟩
  · exact (Bool.and_eq_true_iff.1 hr).2
  · obtain ⟨⟨c, e⟩, -, rfl⟩ := List.mem_map.1 hd
    exact (Bool.and_eq_true_iff.1 hr).2

end Function

/-- The counts that a multiset of dues leaves for a node. -/
def leftOf (ds : Multiset Due) (id : NodeId) : Left :=
  ⟨ds.countP (·.child = id), ds.countP fun d => d.child = id ∧ d.reads = true⟩

/-- Paying a due of another node changes nothing. -/
theorem leftOf_cons_ne {ds : Multiset Due} {d : Due} {id : NodeId} (h : d.child ≠ id) :
    leftOf (d ::ₘ ds) id = leftOf ds id := by
  simp [leftOf, h]

theorem leftOf_cons_self (ds : Multiset Due) (d : Due) :
    leftOf (d ::ₘ ds) d.child = ⟨(leftOf ds d.child).consumers + 1,
      (leftOf ds d.child).values + if d.reads then 1 else 0⟩ := by
  cases h : d.reads <;> simp [leftOf, h]

theorem leftOf_values_le (ds : Multiset Due) (id : NodeId) : (leftOf ds id).values ≤ (leftOf ds id).consumers := by
  simp only [leftOf, Multiset.countP_eq_card_filter]
  exact Multiset.card_le_card (Multiset.monotone_filter_right ds fun _ h => h.1)

/-! ## What the analysis counts -/

namespace Function

variable {f : Function}

theorem countP_allDues (hf : ∀ id, f.Reachable id → id < f.nodes.size) (q : Due → Prop) [DecidablePred q] :
    f.allDues.countP q = (if q f.bodyDue then 1 else 0) + (f.order.map fun p => (f.dues p).countP q).sum := by
  have hsum : Multiset.countP q (∑ p ∈ f.order.toFinset, (f.dues p : Multiset Due)) =
      ∑ p ∈ f.order.toFinset, (f.dues p).countP q := by
    exact (map_sum (Multiset.countPAddMonoidHom q) _ _).trans (Finset.sum_congr rfl fun p _ => Multiset.coe_countP q _)
  rw [allDues, Multiset.countP_cons, hsum, List.sum_toFinset _ (order_nodup hf)]
  omega

/-- The dues of a node that read another, and those that do not. -/
theorem countP_dues (p n : NodeId) (reads : Bool) : (f.dues p).countP (fun d => d.child = n ∧ d.reads = reads) =
    (f.edgesOf p).countP fun x => x.1 = n ∧ f.reads (tallyAt f.tallies p).demanded n x.2 = reads := by
  rw [dues, List.countP_map]
  refine List.countP_congr fun x _ => ?_
  simp only [Function.comp_apply, decide_eq_true_eq, due]
  exact and_congr_right fun hx => by rw [hx]

/-- At the start, what is left of a node is the dues of all its parents. -/
theorem left_start (hf : ∀ id, f.Reachable id → id < f.nodes.size) {n : NodeId} (hn : n < f.nodes.size) :
    leftOf f.allDues n = ⟨(tallyAt f.tallies n).total, (tallyAt f.tallies n).total - (tallyAt f.tallies n).ignored⟩ := by
  have htotal : (leftOf f.allDues n).consumers = (tallyAt f.tallies n).total := by
    rw [total_eq hf hn, leftOf, countP_allDues hf]
    simp only [dues, due, List.countP_map, bodyDue, eq_comm (a := f.body)]
    rfl
  have hignored : f.allDues.countP (fun d => d.child = n ∧ d.reads = false) = (tallyAt f.tallies n).ignored := by
    rw [ignored_eq hf hn, countP_allDues hf]
    simp only [countP_dues, bodyDue, eq_comm (a := f.body)]
  have hsplit : (leftOf f.allDues n).consumers =
      (leftOf f.allDues n).values + f.allDues.countP (fun d => d.child = n ∧ d.reads = false) := by
    have h := Multiset.filter_add_not (fun d : Due => d.reads = true) (f.allDues.filter (·.child = n))
    have hcard := congrArg Multiset.card h
    simp only [Multiset.card_add, Multiset.filter_filter, Bool.not_eq_true] at hcard
    simp only [leftOf, Multiset.countP_eq_card_filter, and_comm (a := _ = n)]
    omega
  have hvalues : (leftOf f.allDues n).values = (tallyAt f.tallies n).total - (tallyAt f.tallies n).ignored := by omega
  rw [← hvalues, ← htotal]

/-- A demanded node is owed a visit that reads it. -/
theorem values_pos (hf : ∀ id, f.Reachable id → id < f.nodes.size) {n : NodeId} (hn : f.Reachable n)
    (hd : (tallyAt f.tallies n).demanded = true) : 0 < (leftOf f.allDues n).values := by
  obtain ⟨before, after, he⟩ := List.append_of_mem (mem_order.2 hn)
  have hdue : ∃ d ∈ f.allDues, d.child = n ∧ d.reads = true := by
    rcases ((counted_tallies hf).settled before n after he).1 hd with ⟨rfl, hb⟩ | ⟨p, hp, e, hpe, hr⟩
    · exact ⟨f.bodyDue, mem_allDues.2 (.inl rfl), rfl, hb⟩
    · have hreach : f.Reachable p := mem_order.1 (by rw [he]; exact List.mem_append_left _ hp)
      exact ⟨_, mem_allDues.2 (.inr ⟨p, hreach, List.mem_map.2 ⟨_, hpe, rfl⟩⟩), rfl, hr⟩
  obtain ⟨d, hmem, hd⟩ := hdue
  exact Multiset.countP_pos_of_mem hmem hd

end Function

end SlotCode
