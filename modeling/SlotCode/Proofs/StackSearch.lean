/-
  SlotCode.Proofs.StackSearch — a search over a stack ends, and finds the order of a function.

  `Function.order` is a recursion, and a bound on its depth makes it total. Here the same
  search is a loop over a stack, which nothing bounds: a turn takes the top entry, enters a
  fresh node by pushing the children that are fresh then, and finishes a node when its own
  entry comes up again below them. A node with several parents can be on the stack several
  times; all its entries but the first to come up are passed over. A mark is read before it
  is set, and a read outside the arena stops the search with an error.

  What the recursion does in one call takes the loop some turns, after which the top entry is
  gone and the rest of the stack is as it was (`enters`). A turn is paid for by a node that is
  finished or by one of its edges, so the turns of a whole search are as many at most.

  Proved: `order_lists_parents_first`, for every function whose references stay inside its
  arena, with cycles or without.
-/

import Mathlib.Algebra.GroupWithZero.Nat
import Mathlib.Algebra.Order.Group.Nat
import SlotCode.Missing
import SlotCode.Proofs.OrderSpec

namespace SlotCode

open Relation (TransGen)

/-- How far a search is with a node. -/
inductive Mark where
  | fresh
  /-- Its children have been pushed. -/
  | underway
  | finished
  deriving DecidableEq, Repr

/-- A search between two turns. -/
structure StackSearch where
  marks : Array Mark
  /-- The entries, top first: a node to be entered, or, with `true`, one to be finished. -/
  stack : List (NodeId × Bool)
  /-- The finished nodes, last finished first. -/
  finished : List NodeId
  deriving Repr

namespace Trail

variable {f : Function} {t u : Trail} {id : NodeId}

theorem mark_of_has (h : t.has id = true) : t.mark id = t := by
  have hid : id < t.entered.size := by
    by_contra hge
    simp [has, Array.getD, hge] at h
  have hentered : t.entered[id] = true := by simpa [has, Array.getD, hid] using h
  have : t.entered.setIfInBounds id true = t.entered := by
    rw [Array.setIfInBounds, dif_pos hid, ← hentered, Array.set_getElem_self]
  simp [mark, this]

/-- Roots that were entered before can be left out. -/
theorem foldl_search_filter {cs : List NodeId} (hs : t.entered.size = f.nodes.size)
    (h : ∀ x, u.has x = true → t.has x = true) : (cs.filter (!u.has ·)).foldl (search f) t = cs.foldl (search f) t := by
  induction cs generalizing t with
  | nil => rfl
  | cons c cs ih =>
    by_cases hc : u.has c = true
    · rw [List.filter_cons_of_neg (by simp [hc]), List.foldl_cons, search_of_has (h c hc)]
      exact ih hs h
    · rw [List.filter_cons_of_pos (by simpa using hc), List.foldl_cons, List.foldl_cons]
      exact ih (size_search hs c) fun x hx => has_search hs (h x hx) c

end Trail

namespace StackSearch

def start (f : Function) : StackSearch := ⟨Array.replicate f.nodes.size .fresh, [(f.body, false)], []⟩

def markOf (marks : Array Mark) (id : NodeId) : Except Missing Mark :=
  match marks[id]? with
  | some mark => .ok mark
  | none => .error (.node id)

def pushFresh (marks : Array Mark) (child : NodeId) (stack : List (NodeId × Bool)) :
    Except Missing (List (NodeId × Bool)) := do
  return if (← markOf marks child) = .fresh then (child, false) :: stack else stack

/-- Takes the top entry; the last child is pushed first, so that the first one comes up next. A search without
    entries is over and stays as it is. -/
def turn (f : Function) (s : StackSearch) : Except Missing StackSearch :=
  match s.stack with
  | [] => .ok s
  | (id, true) :: rest => do
    let _ ← markOf s.marks id
    return ⟨s.marks.setIfInBounds id .finished, rest, id :: s.finished⟩
  | (id, false) :: rest => do
    if (← markOf s.marks id) = .fresh then
      let marks := s.marks.setIfInBounds id .underway
      return ⟨marks, ← (f.children id).foldrM (pushFresh marks) ((id, true) :: rest), s.finished⟩
    else
      return { s with stack := rest }

/-- The search after some turns. -/
def turns (f : Function) : Nat → StackSearch → Except Missing StackSearch
  | 0, s => .ok s
  | n + 1, s => do turns f n (← s.turn f)

/-- What finishing some nodes costs: a turn for each, and one for each of its edges. -/
def cost (f : Function) (ids : List NodeId) : Nat := (ids.map fun id => 1 + (f.children id).length).sum

/-- What the recursion knows of a search. -/
def trail (s : StackSearch) : Trail := ⟨s.marks.map (· ≠ .fresh), s.finished⟩

variable {f : Function} {s s' s'' : StackSearch} {id : NodeId} {rest : List (NodeId × Bool)} {n m : Nat}

theorem turns_trans (h : turns f n s = .ok s') (h' : turns f m s' = .ok s'') : turns f (n + m) s = .ok s'' := by
  induction n generalizing s with
  | zero =>
    cases h
    rwa [Nat.zero_add]
  | succ n ih =>
    rw [Nat.add_right_comm, turns]
    rw [turns] at h
    cases hturn : s.turn f with
    | error e =>
      rw [hturn] at h
      cases h
    | ok t =>
      rw [hturn] at h
      exact ih h

theorem turns_one (h : s.turn f = .ok s') : turns f 1 s = .ok s' := by
  simp only [turns, h]
  rfl

/-! ## One turn -/

theorem markOf_eq_ok (marks : Array Mark) (h : id < marks.size) : markOf marks id = .ok marks[id] := by
  simp [markOf, h]

theorem has_trail (s : StackSearch) (h : id < s.marks.size) : s.trail.has id = true ↔ s.marks[id] ≠ .fresh := by
  simp [trail, Trail.has, Array.getD, h]

/-- The children that are fresh come to the top, in their order. -/
theorem foldrM_pushFresh {cs : List NodeId} (h : ∀ c ∈ cs, c < s.marks.size) :
    cs.foldrM (pushFresh s.marks) rest = .ok ((cs.filter (!s.trail.has ·)).map (·, false) ++ rest) := by
  induction cs with
  | nil => rfl
  | cons c cs ih =>
    have hc : c < s.marks.size := h c List.mem_cons_self
    have hmark := has_trail s hc
    rw [List.foldrM_cons, ih fun c' hc' => h c' (List.mem_cons_of_mem c hc')]
    by_cases hfresh : s.marks[c] = .fresh
    · have : s.trail.has c = false := by simpa [hfresh] using hmark
      simp [bind, Except.bind, pushFresh, markOf_eq_ok _ hc, hfresh, this, pure, Except.pure]
    · have : s.trail.has c = true := hmark.2 hfresh
      simp [bind, Except.bind, pushFresh, markOf_eq_ok _ hc, hfresh, this, pure, Except.pure]

/-- A node that was entered before is passed over. -/
theorem turn_of_has (hstack : s.stack = (id, false) :: rest) (hid : id < s.marks.size) (h : s.trail.has id = true) :
    s.turn f = .ok { s with stack := rest } := by
  have hmark : ¬ s.marks[id] = .fresh := (has_trail s hid).1 h
  simp [turn, hstack, markOf_eq_ok _ hid, hmark, bind, Except.bind, pure, Except.pure]

/-- The node is marked, its children that are still fresh come up next, and then the node itself. -/
theorem turn_of_not_has (hstack : s.stack = (id, false) :: rest) (hid : id < s.marks.size) (h : s.trail.has id = false)
    (hchildren : ∀ c ∈ f.children id, c < s.marks.size) :
    ∃ s', s.turn f = .ok s' ∧ s'.trail = s.trail.mark id ∧
      s'.stack = ((f.children id).filter (!(s.trail.mark id).has ·)).map (·, false) ++ (id, true) :: rest := by
  have hmark : s.marks[id] = .fresh := by
    by_contra hne
    rw [(has_trail s hid).2 hne] at h
    cases h
  let marked : StackSearch := { s with marks := s.marks.setIfInBounds id .underway }
  have htrail : marked.trail = s.trail.mark id := by
    simp [marked, trail, Trail.mark, Array.map_setIfInBounds]
  have hpushed : (f.children id).foldrM (pushFresh marked.marks) ((id, true) :: rest) = _ :=
    foldrM_pushFresh fun c hc => by simpa [marked] using hchildren c hc
  rw [htrail] at hpushed
  refine ⟨⟨marked.marks, ((f.children id).filter (!(s.trail.mark id).has ·)).map (·, false) ++ (id, true) :: rest,
    s.finished⟩, ?_, htrail, rfl⟩
  simp only [turn, hstack, markOf_eq_ok _ hid, hmark, bind, Except.bind, if_true]
  rw [hpushed]
  rfl

/-- The entry below the children of a node finishes it. -/
theorem turn_finishes (hstack : s.stack = (id, true) :: rest) (hid : id < s.marks.size) (h : s.trail.has id = true) :
    ∃ s', s.turn f = .ok s' ∧ s'.trail = s.trail.finish id ∧ s'.stack = rest := by
  have hsame : s.trail.mark id = s.trail := Trail.mark_of_has h
  refine ⟨⟨s.marks.setIfInBounds id .finished, rest, id :: s.finished⟩, ?_, ?_, rfl⟩
  · simp [turn, hstack, markOf_eq_ok _ hid, bind, Except.bind, pure, Except.pure]
  · have : (s.trail.mark id).finish id = s.trail.finish id := by rw [hsame]
    rw [← this]
    simp [trail, Trail.mark, Trail.finish, Array.map_setIfInBounds]

/-! ## Whole searches -/

theorem size_trail (s : StackSearch) : s.trail.entered.size = s.marks.size := by simp [trail]

/-- In some turns a search gets down to the entries `rest`. The nodes that it finishes pay for all but `unpaid` of them. -/
def GetsTo (f : Function) (s : StackSearch) (rest : List (NodeId × Bool)) (t : Trail) (unpaid : Nat) : Prop :=
  ∃ n s', turns f n s = .ok s' ∧ s'.stack = rest ∧ s'.trail = t ∧ n + cost f s.finished ≤ unpaid + cost f t.finished

/-- With fewer than `k` nodes ahead, the entry for a node comes to a search from it. -/
def Enters (f : Function) (k : Nat) : Prop :=
  ∀ (s : StackSearch) (id : NodeId) (rest : List (NodeId × Bool)), s.trail.ahead.card < k →
    s.trail.entered.size = f.nodes.size → id < f.nodes.size → s.stack = (id, false) :: rest →
    GetsTo f s rest (s.trail.search f id) 1

theorem Enters.all {k : Nat} (each : Enters f k) {cs : List NodeId} (hs : s.trail.entered.size = f.nodes.size)
    (hcs : ∀ c ∈ cs, c < f.nodes.size) (hk : cs ≠ [] → s.trail.ahead.card < k)
    (hstack : s.stack = cs.map (·, false) ++ rest) : GetsTo f s rest (cs.foldl (Trail.search f) s.trail) cs.length := by
  induction cs generalizing s with
  | nil => exact ⟨0, s, rfl, hstack, rfl, Nat.le_refl _⟩
  | cons c cs ih =>
    have hk := hk (by simp)
    obtain ⟨n, t, hturns, hrest, htrail, hcost⟩ := each s c _ hk hs (hcs c List.mem_cons_self) hstack
    have hsize : t.trail.entered.size = f.nodes.size := htrail ▸ Trail.size_search hs c
    have hless : t.trail.ahead.card ≤ s.trail.ahead.card :=
      Trail.card_ahead_le (hsize.trans hs.symm) fun x hx => htrail ▸ Trail.has_search hs hx c
    rw [← htrail] at hcost
    obtain ⟨m, t', hturns', hrest', htrail', hcost'⟩ :=
      ih hsize (fun c' hc' => hcs c' (List.mem_cons_of_mem c hc')) (fun _ => by omega) hrest
    refine ⟨n + m, t', turns_trans hturns hturns', hrest', ?_, ?_⟩
    · rw [htrail', htrail, List.foldl_cons]
    · rw [List.foldl_cons, ← htrail, List.length_cons]
      have : cost f t.trail.finished = cost f t.finished := rfl
      omega

/-- By induction on the nodes ahead: entering a node leaves one less for its children. -/
theorem enters (hf : ∀ id, ∀ c ∈ f.children id, c < f.nodes.size) (k : Nat) : Enters f k := by
  induction k with
  | zero => exact fun s id rest h => absurd h (Nat.not_lt_zero _)
  | succ k ih =>
    intro s id rest hk hs hid hstack
    have hin : ∀ {s : StackSearch}, s.trail.entered.size = f.nodes.size → id < s.marks.size := fun {s} h => by
      rw [← size_trail, h]
      exact hid
    by_cases h : s.trail.has id = true
    · rw [Trail.search_of_has h]
      exact ⟨1, { s with stack := rest }, turns_one (turn_of_has hstack (hin hs) h), rfl, rfl, Nat.le_refl _⟩
    · have h : s.trail.has id = false := by simpa using h
      have hchildren : ∀ c ∈ f.children id, c < s.marks.size := fun c hc => by
        rw [← size_trail, hs]
        exact hf id c hc
      obtain ⟨t, hturn, htrail, htop⟩ := turn_of_not_has hstack (hin hs) h hchildren
      have hmarked : t.trail.entered.size = f.nodes.size := by rw [htrail, Trail.size_mark, hs]
      have hahead : (f.children id).filter (!(s.trail.mark id).has ·) ≠ [] → t.trail.ahead.card < k := fun hne => by
        rw [htrail]
        refine Trail.ahead_mark_lt hs h hk fun hnil => hne ?_
        rw [hnil, List.filter_nil]
      obtain ⟨m, u, hturns, hrest, hsearched, hcost⟩ :=
        ih.all hmarked (fun c hc => hf id c (List.mem_of_mem_filter hc)) hahead htop
      rw [← htrail, Trail.foldl_search_filter hmarked fun _ hx => hx] at hsearched hcost
      have hsize : u.trail.entered.size = f.nodes.size := hsearched ▸ Trail.size_searches _ _ hmarked
      have hhas : u.trail.has id = true := by
        rw [hsearched, htrail]
        exact Trail.has_searches _ _ (htrail ▸ hmarked) ((Trail.has_mark _ _ _).2 (.inr ⟨rfl, hs ▸ hid⟩))
      obtain ⟨v, hfinish, hdone, hleft⟩ := turn_finishes (f := f) hrest (hin hsize) hhas
      have hall : v.trail = s.trail.search f id := by
        rw [hdone, hsearched, htrail, Trail.search_of_not_has hs h]
      refine ⟨1 + m + 1, v, turns_trans (turns_trans (turns_one hturn) hturns) (turns_one hfinish), hleft, hall, ?_⟩
      -- The node pays for the turn that finishes it and for the entries of its children.
      have hkept : t.finished = s.finished := congrArg Trail.finished htrail
      have hpushed := List.length_filter_le (!t.trail.has ·) (f.children id)
      have hpays : cost f v.trail.finished = 1 + (f.children id).length + cost f u.trail.finished := by
        rw [hdone]
        rfl
      rw [hkept, ← hsearched] at hcost
      rw [← hall, hpays]
      omega

/-- The loop ends, and what it has finished then is the order. -/
theorem start_ends (hbody : f.body < f.nodes.size) (hf : ∀ id, ∀ c ∈ f.children id, c < f.nodes.size) :
    ∃ n marks, n ≤ 1 + cost f f.order ∧ turns f n (start f) = .ok ⟨marks, [], f.order⟩ := by
  have htrail : (start f).trail = ⟨Array.replicate f.nodes.size false, []⟩ := by simp [start, trail]
  have hsize : (start f).trail.entered.size = f.nodes.size := by simp [start, trail]
  obtain ⟨n, s, hturns, hstack, hs, hcost⟩ := enters hf _ (start f) f.body [] (Nat.lt_succ_self _) hsize hbody rfl
  have horder : s.finished = f.order := by
    rw [htrail] at hs
    exact congrArg Trail.finished hs
  refine ⟨n, s.marks, ?_, ?_⟩
  · rw [← hs] at hcost
    have : cost f s.trail.finished = cost f f.order := congrArg (cost f) horder
    omega
  · rw [hturns, ← hstack, ← horder]

end StackSearch

namespace Function

variable {f : Function}

theorem head?_order (f : Function) : f.order.head? = some f.body := by
  have hsize : (Trail.mk (Array.replicate f.nodes.size false) []).entered.size = f.nodes.size := by simp
  show (Trail.search f ⟨Array.replicate f.nodes.size false, []⟩ f.body).finished.head? = _
  rw [Trail.search_of_not_has hsize (f.not_has_start f.body)]
  rfl

theorem children_lt (h : ∀ n ∈ f.nodes, ∀ c ∈ n.expr.children, c < f.nodes.size) (id : NodeId) :
    ∀ c ∈ f.children id, c < f.nodes.size := by
  intro c hc
  unfold children at hc
  split at hc
  case h_1 n hn => exact h n (Array.mem_of_getElem? hn) c hc
  case h_2 => cases hc

theorem reachable_lt (hbody : f.body < f.nodes.size) (hf : ∀ id, ∀ c ∈ f.children id, c < f.nodes.size) {id : NodeId}
    (h : f.Reachable id) : id < f.nodes.size := by
  cases h with
  | refl => exact hbody
  | tail _ hc => exact hf _ _ hc

/-- The search over a stack ends with the order of the function, after a turn for each node and each edge that the body
    reaches and one more at most. The order starts with the body and lists the reachable nodes, each once. Without
    cycles, every node stands before all its children. -/
theorem order_lists_parents_first (f : Function) (hbody : f.body < f.nodes.size)
    (hchildren : ∀ n ∈ f.nodes, ∀ c ∈ n.expr.children, c < f.nodes.size) :
    (∃ n marks, n ≤ 1 + (f.order.map fun id => 1 + (f.children id).length).sum ∧
      StackSearch.turns f n (StackSearch.start f) = .ok ⟨marks, [], f.order⟩) ∧
    f.order.head? = some f.body ∧ f.order.Nodup ∧ (∀ id, id ∈ f.order ↔ f.Reachable id) ∧
    (f.Acyclic → ∀ id, f.Reachable id → ∀ c ∈ f.children id, f.order.idxOf id < f.order.idxOf c) := by
  have hf := children_lt hchildren
  have hnodup : f.order.Nodup := order_nodup fun _ => reachable_lt hbody hf
  refine ⟨StackSearch.start_ends hbody hf, f.head?_order, hnodup, fun _ => mem_order, ?_⟩
  intro hacyclic id hid c hc
  obtain ⟨before, after, hsplit⟩ := List.append_of_mem (mem_order.2 hid)
  have hafter : c ∈ after := order_parent_first hacyclic hsplit hc
  rw [hsplit] at hnodup ⊢
  obtain ⟨-, hrest, hapart⟩ := List.nodup_append.1 hnodup
  have hid' : id ∉ before := fun h => hapart id h id List.mem_cons_self rfl
  have hc' : c ∉ before := fun h => hapart c h c (List.mem_cons_of_mem id hafter) rfl
  have hne : id ≠ c := fun h => (List.nodup_cons.1 hrest).1 (h ▸ hafter)
  rw [List.idxOf_append_of_notMem hid', List.idxOf_append_of_notMem hc', List.idxOf_cons_self, List.idxOf_cons_ne _ hne]
  omega

/-- Two sums that each name the other, and both the constant. The first node is named by none. -/
def mutualSum : Function where
  params := []
  locals := []
  nodes := #[⟨.nullary .void, .void⟩, ⟨.binary (.arith .int .add) 3 2, .int⟩, ⟨.const (.int 1), .int⟩,
    ⟨.binary (.arith .int .add) 1 2, .int⟩]
  body := 3
  returnType := .int

/-- A product of a negation with a sum that the negation is a part of. -/
def sharedNegation : Function where
  params := [.int]
  locals := []
  nodes := #[⟨.param 0, .int⟩, ⟨.unary (.negate .int) 0, .int⟩, ⟨.binary (.arith .int .add) 0 1, .int⟩,
    ⟨.binary (.arith .int .mul) 1 2, .int⟩]
  body := 3
  returnType := .int

theorem mutualSum_lists_each_once :
    TransGen mutualSum.IsChild 3 3 ∧ (∃ n marks, n ≤ 8 ∧
      StackSearch.turns mutualSum n (StackSearch.start mutualSum) = .ok ⟨marks, [], [3, 1, 2]⟩) ∧
    ¬ mutualSum.Reachable 0 ∧
    sharedNegation.Acyclic ∧ sharedNegation.order.Nodup ∧ sharedNegation.order.idxOf 2 < sharedNegation.order.idxOf 1 := by
  have hmutual : mutualSum.order = [3, 1, 2] := by decide +kernel
  have hcycle : TransGen mutualSum.IsChild 3 3 :=
    .tail (.single (show (1 : NodeId) ∈ mutualSum.children 3 by decide)) (show (3 : NodeId) ∈ mutualSum.children 1 by decide)
  have hacyclic : sharedNegation.Acyclic := acyclic_of_lt (by decide +kernel)
  obtain ⟨hends, -, -, hlisted, -⟩ := order_lists_parents_first mutualSum (by decide) (by decide)
  obtain ⟨-, -, honce, hreached, hfirst⟩ := order_lists_parents_first sharedNegation (by decide) (by decide)
  refine ⟨hcycle, ?_, ?_, hacyclic, honce, hfirst hacyclic 2 ?_ 1 (by decide)⟩
  · rw [hmutual] at hends
    exact hends
  · rw [← hlisted, hmutual]
    decide
  · rw [← hreached]
    decide +kernel

end Function

end SlotCode
