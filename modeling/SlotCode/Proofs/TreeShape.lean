/-
  SlotCode.Proofs.TreeShape — functions that are trees, and where their nodes stand.

  In a tree every reachable node is named once: by one parent, or by the caller for the
  body. A node then stands in one place: `Stands` says whether its value is read there
  and which blocks are open around it. `WellShaped` is what evaluation and code agree on:
  a tree whose nodes have the types that their expressions give them, in which only what
  cannot complete is typed `unreachable`, and where no exit leaves a block that owes a value.

  Proved, for trees: there is no cycle (`IsTree.acyclic`), the analysis counts no node
  twice (`IsTree.total_le_one`), and it finds a node demanded exactly where its value is
  read (`IsTree.demanded_eq`).
-/

import SlotCode.Graph.Typing
import SlotCode.Proofs.DemandSpec

namespace SlotCode

open Relation (ReflTransGen TransGen)

/-- Every reachable node is named exactly once. -/
structure Function.IsTree (f : Function) : Prop where
  root : ∀ p, f.Reachable p → f.body ∉ f.children p
  sole : ∀ p q c, f.Reachable p → f.Reachable q → f.IsChild p c → f.IsChild q c → p = q
  once : ∀ p, f.Reachable p → (f.children p).Nodup

/-- The blocks open in the children of a node, innermost first, each with whether its value is read. -/
def Expr.scope (e : Expr) (demanded : Bool) (open_ : List (BlockId × Bool)) : List (BlockId × Bool) :=
  match e with
  | .block name _ => (name, demanded) :: open_
  | _ => open_

/-- A node stands where its value is read or not, inside some blocks. -/
inductive Function.Stands (f : Function) : NodeId → Bool → List (BlockId × Bool) → Prop
  | body : f.Stands f.body f.bodyRead []
  | child {p c : NodeId} {demanded : Bool} {open_ : List (BlockId × Bool)} {n : Node} {e : Edge} :
      f.Stands p demanded open_ → f.node? p = some n → (c, e) ∈ n.expr.edges →
        f.Stands c (f.reads demanded c e) (n.expr.scope demanded open_)

/-- The node has the kind of value that its expression gives it, and is `unreachable` only if that is. -/
def Function.TypedAs (f : Function) (n : Node) : Prop :=
  match n.expr.fixedType? f.scope with
  | .ok (some t) => n.type.kind? = t.kind? ∧ (n.type = .unreachable → t = .unreachable)
  | .ok none => True
  | .error _ => False

/-- The expressions that may be typed `unreachable`. -/
def Expr.mayNotComplete : Expr → Bool
  | .exitBlock _ | .exitLoop _ | .continueLoop _ | .nullary .unreachable | .sequence .. | .conditional .. => true
  | _ => false

/-- A child that gives the value of its parent, or never completes. -/
def Function.Fits (f : Function) (id child : NodeId) : Prop :=
  f.kind? child = f.kind? id ∨ ∃ n, f.node? child = some n ∧ n.type = .unreachable

/-- A tree of typed nodes. -/
structure Function.WellShaped (f : Function) : Prop where
  tree : f.IsTree
  typed : ∀ id n, f.Reachable id → f.node? id = some n → f.TypedAs n
  ends : ∀ id n, f.Reachable id → f.node? id = some n → n.type = .unreachable → n.expr.mayNotComplete = true
  blocks : ∀ id open_ n name body, f.Stands id true open_ → f.node? id = some n → n.expr = .block name body →
    f.Fits id body
  arms : ∀ id open_ n condition thenArm elseArm, f.Stands id true open_ → f.node? id = some n →
    n.expr = .conditional condition thenArm elseArm → f.Fits id thenArm ∧ f.Fits id elseArm
  exits : ∀ id demanded open_ n name, f.Stands id demanded open_ → f.node? id = some n → n.expr = .exitBlock name →
    open_.lookup name ≠ some true

namespace Function

variable {f : Function}

theorem Scope.typeOf_ok {c : NodeId} {u : ValueType} (h : f.scope.typeOf c = .ok u) : ∃ n, f.node? c = some n ∧ n.type = u := by
  unfold SlotCode.Scope.typeOf scope at h
  cases hn : f.node? c with
  | none => simp [hn] at h
  | some n =>
    simp only [hn, Option.map_some] at h
    cases h
    exact ⟨n, rfl, rfl⟩

/-- A sequence is typed as its second part. -/
theorem TypedAs.sequence {n : Node} {first second : NodeId} (h : f.TypedAs n) (he : n.expr = .sequence first second) :
    ∃ m, f.node? second = some m ∧ n.type.kind? = m.type.kind? ∧ (n.type = .unreachable → m.type = .unreachable) := by
  simp only [TypedAs, he, Expr.fixedType?] at h
  cases hu : f.scope.typeOf second with
  | error e => rw [hu] at h; exact h.elim
  | ok u =>
    rw [hu] at h
    obtain ⟨m, hm, rfl⟩ := Scope.typeOf_ok hu
    exact ⟨m, hm, h⟩

/-- A conditional that never completes has two arms that never do. -/
theorem TypedAs.conditional {n : Node} {condition thenArm elseArm : NodeId} (h : f.TypedAs n)
    (he : n.expr = .conditional condition thenArm elseArm) (hn : n.type = .unreachable) :
    (∃ m, f.node? thenArm = some m ∧ m.type = .unreachable) ∧ ∃ m, f.node? elseArm = some m ∧ m.type = .unreachable := by
  simp only [TypedAs, he, Expr.fixedType?, SlotCode.Scope.typeOfArms] at h
  cases hu : f.scope.typeOf thenArm with
  | error e => rw [hu] at h; exact h.elim
  | ok u =>
    obtain ⟨m₁, hthen, rfl⟩ := Scope.typeOf_ok hu
    simp only [hu, bind, Except.bind] at h
    by_cases hthenType : m₁.type = .unreachable
    · rw [if_pos hthenType] at h
      cases hv : f.scope.typeOf elseArm with
      | error e => rw [hv] at h; exact h.elim
      | ok v =>
        rw [hv] at h
        obtain ⟨m₂, helse, rfl⟩ := Scope.typeOf_ok hv
        exact ⟨⟨m₁, hthen, hthenType⟩, m₂, helse, h.2 hn⟩
    · rw [if_neg hthenType] at h
      exact absurd (h.2 hn) hthenType

theorem mem_edgesOf {p c : NodeId} {n : Node} {e : Edge} (hn : f.node? p = some n) (he : (c, e) ∈ n.expr.edges) :
    (c, e) ∈ f.edgesOf p := by
  simpa [edgesOf, hn] using he

theorem Stands.reachable {id : NodeId} {demanded : Bool} {open_ : List (BlockId × Bool)}
    (h : f.Stands id demanded open_) : f.Reachable id := by
  induction h with
  | body => exact .refl
  | child _ hn he ih => exact .tail ih (isChild_iff.2 ⟨_, mem_edgesOf hn he⟩)

theorem reachable_trans {id x : NodeId} (h : f.Reachable id) (hx : ReflTransGen f.IsChild id x) : f.Reachable x :=
  ReflTransGen.trans h hx

namespace IsTree

/-- Following a cycle backwards would lead up to the body, which nobody names. -/
theorem acyclic (h : f.IsTree) : f.Acyclic := by
  intro id hr
  induction hr with
  | refl =>
    intro hc
    obtain ⟨p, hp, hpc⟩ := TransGen.tail'_iff.1 hc
    exact h.root p hp hpc
  | tail hp hpc ih =>
    rename_i p c
    intro hc
    obtain ⟨q, hq, hqc⟩ := TransGen.tail'_iff.1 hc
    have hrc : f.Reachable c := ReflTransGen.tail hp hpc
    obtain rfl : p = q := h.sole p q c hp (reachable_trans hrc hq) hpc hqc
    exact ih (TransGen.head' hpc hq)

end IsTree

/-- A sum of counts that are at most one, and nonzero at one place only. -/
theorem sum_le_one {α : Type} {g : α → Nat} {l : List α} (hl : l.Nodup) (h1 : ∀ x ∈ l, g x ≤ 1)
    (h2 : ∀ x ∈ l, ∀ y ∈ l, g x ≠ 0 → g y ≠ 0 → x = y) : (l.map g).sum ≤ 1 := by
  induction l with
  | nil => simp
  | cons x l ih =>
    rw [List.map_cons, List.sum_cons]
    have hrest := ih (List.nodup_cons.1 hl).2 (fun y hy => h1 y (List.mem_cons_of_mem _ hy))
      fun y hy z hz => h2 y (List.mem_cons_of_mem _ hy) z (List.mem_cons_of_mem _ hz)
    have hx := h1 x List.mem_cons_self
    by_cases h0 : g x = 0
    · omega
    · have : (l.map g).sum = 0 := by
        refine List.sum_eq_zero fun k hk => ?_
        obtain ⟨y, hy, rfl⟩ := List.mem_map.1 hk
        by_contra hne
        have := h2 x List.mem_cons_self y (List.mem_cons_of_mem _ hy) h0 hne
        exact (List.nodup_cons.1 hl).1 (this ▸ hy)
      omega

theorem countP_edges (p n : NodeId) : (f.edgesOf p).countP (·.1 = n) = (f.children p).count n := by
  unfold edgesOf children Expr.children
  cases f.node? p with
  | none => rfl
  | some node =>
    rw [List.count, List.countP_map]
    congr 1

/-- A node that is named once only is counted at most once. -/
theorem total_le_one_of_sole (hr : ∀ id, f.Reachable id → id < f.nodes.size) {n : NodeId} (hn : n < f.nodes.size)
    (hroot : n = f.body → ∀ p, f.Reachable p → n ∉ f.children p) (honce : ∀ p, f.Reachable p → (f.children p).count n ≤ 1)
    (hsole : ∀ p q, f.Reachable p → f.Reachable q → f.IsChild p n → f.IsChild q n → p = q) :
    (tallyAt f.tallies n).total ≤ 1 := by
  rw [total_eq hr hn]
  simp only [countP_edges]
  by_cases hb : n = f.body
  · have hzero : (f.order.map fun p => (f.children p).count n).sum = 0 := by
      refine List.sum_eq_zero fun k hk => ?_
      obtain ⟨p, hp, rfl⟩ := List.mem_map.1 hk
      exact List.count_eq_zero_of_not_mem (hroot hb p (mem_order.1 hp))
    rw [hzero, if_pos hb]
  · rw [if_neg hb, Nat.zero_add]
    refine sum_le_one (order_nodup hr) (fun p hp => honce p (mem_order.1 hp)) fun p hp q hq hpn hqn => ?_
    exact hsole p q (mem_order.1 hp) (mem_order.1 hq) (List.count_pos_iff.1 (Nat.pos_of_ne_zero hpn))
      (List.count_pos_iff.1 (Nat.pos_of_ne_zero hqn))

namespace IsTree

/-- No node of a tree is counted twice. -/
theorem total_le_one (h : f.IsTree) (hr : ∀ id, f.Reachable id → id < f.nodes.size) {n : NodeId}
    (hn : n < f.nodes.size) : (tallyAt f.tallies n).total ≤ 1 :=
  total_le_one_of_sole hr hn (fun hb p hp => hb ▸ h.root p hp)
    (fun p hp => List.nodup_iff_count_le_one.1 (h.once p hp) n) fun p q => h.sole p q n

/-- A parent names a child by one edge only. -/
theorem edge_unique (h : f.IsTree) {p c : NodeId} {e e' : Edge} (hp : f.Reachable p) (he : (c, e) ∈ f.edgesOf p)
    (he' : (c, e') ∈ f.edgesOf p) : e = e' := by
  have hnodup := h.once p hp
  unfold children Expr.children at hnodup
  unfold edgesOf at he he'
  cases hn : f.node? p with
  | none => simp [hn] at he
  | some n =>
    simp only [hn] at he he' hnodup
    exact (Prod.mk.inj (List.inj_on_of_nodup_map hnodup he he' rfl)).2

/-- The analysis finds a node demanded exactly where its value is read. -/
theorem demanded_eq (h : f.IsTree) (hr : ∀ id, f.Reachable id → id < f.nodes.size) {id : NodeId} {demanded : Bool}
    {open_ : List (BlockId × Bool)} (hs : f.Stands id demanded open_) :
    (tallyAt f.tallies id).demanded = demanded := by
  induction hs with
  | body =>
    have := demanded_iff hr h.acyclic (.refl : f.Reachable f.body)
    have hno : ¬ ∃ p, f.Reachable p ∧ ∃ e, (f.body, e) ∈ f.edgesOf p ∧
        f.reads (tallyAt f.tallies p).demanded f.body e = true :=
      fun ⟨p, hp, e, he, _⟩ => h.root p hp (isChild_iff.2 ⟨e, he⟩)
    rw [Bool.eq_iff_iff, this]
    simp [hno]
  | child hp hn he ih =>
    rename_i p c demanded open_ n e
    have hmem := mem_edgesOf hn he
    have hreach := hp.reachable
    have hchild : f.IsChild p c := isChild_iff.2 ⟨e, hmem⟩
    have := demanded_iff hr h.acyclic (.tail hreach hchild : f.Reachable c)
    rw [Bool.eq_iff_iff, this]
    constructor
    · rintro (⟨rfl, -⟩ | ⟨q, hq, e', he', hread⟩)
      · exact absurd hchild (h.root p hreach)
      · obtain rfl : q = p := h.sole q p c hq hreach (isChild_iff.2 ⟨e', he'⟩) hchild
        obtain rfl : e' = e := h.edge_unique hreach he' hmem
        rwa [ih] at hread
    · intro hread
      exact .inr ⟨p, hreach, e, hmem, by rw [ih]; exact hread⟩

end IsTree

end Function

/-- A function that the analysis accepts reaches only nodes of its arena. -/
theorem Demand.analyze_ok {f : Function} {d : Demand} (h : Demand.analyze f = .ok d) :
    (∀ id, f.Reachable id → id < f.nodes.size) ∧ d.tallies = f.tallies ∧
      d.left = f.tallies.map fun t => ⟨t.total, t.total - t.ignored⟩ := by
  unfold Demand.analyze at h
  split at h
  · cases h
  · rename_i hfind
    cases h
    refine ⟨fun id hid => ?_, rfl, rfl⟩
    have := List.find?_eq_none.1 hfind id (Function.mem_order.2 hid)
    simpa using this

/-! ## Checking a shape

Whether a given function is well shaped can be computed from a list of all places in it. -/

/-- A node with what `Stands` says of it. -/
abbrev Place := NodeId × Bool × List (BlockId × Bool)

namespace Function

variable {f : Function} {chart : List Place}

/-- The places of the children of a node. -/
def placesBelow (f : Function) (x : Place) : List Place :=
  match f.node? x.1 with
  | some n => n.expr.edges.map fun (c, e) => (c, f.reads x.2.1 c e, n.expr.scope x.2.1 x.2.2)
  | none => []

/-- The place and those below it, down to a depth. -/
def places (f : Function) : Nat → Place → List Place
  | 0, _ => []
  | depth + 1, x => x :: (f.placesBelow x).flatMap (f.places depth)

/-- The list has the body's place and, with every place, those below it. -/
def Charted (f : Function) (chart : List Place) : Prop :=
  (f.body, f.bodyRead, []) ∈ chart ∧ ∀ x ∈ chart, ∀ y ∈ f.placesBelow x, y ∈ chart

instance : Decidable (f.Charted chart) := inferInstanceAs (Decidable (_ ∧ _))

theorem Charted.mem (h : f.Charted chart) {id : NodeId} {demanded : Bool} {open_ : List (BlockId × Bool)}
    (hs : f.Stands id demanded open_) : (id, demanded, open_) ∈ chart := by
  induction hs with
  | body => exact h.1
  | child hp hn he ih =>
    refine h.2 _ ih _ ?_
    simp only [placesBelow, hn, List.mem_map]
    exact ⟨_, he, rfl⟩

theorem exists_stands {id : NodeId} (h : f.Reachable id) : ∃ demanded open_, f.Stands id demanded open_ := by
  induction h with
  | refl => exact ⟨_, _, .body⟩
  | tail _ hc ih =>
    obtain ⟨demanded, open_, hp⟩ := ih
    obtain ⟨e, he⟩ := isChild_iff.1 hc
    rename_i p c _
    cases hn : f.node? p with
    | none => simp [edgesOf, hn] at he
    | some n => exact ⟨_, _, .child hp hn (by simpa [edgesOf, hn] using he)⟩

instance (n : Node) : Decidable (f.TypedAs n) :=
  match h : n.expr.fixedType? f.scope with
  | .ok (some t) =>
    decidable_of_iff (n.type.kind? = t.kind? ∧ (n.type = .unreachable → t = .unreachable)) (by simp [TypedAs, h])
  | .ok none => .isTrue (by simp [TypedAs, h])
  | .error _ => .isFalse (by simp [TypedAs, h])

instance (id child : NodeId) : Decidable (f.Fits id child) :=
  decidable_of_iff (f.kind? child = f.kind? id ∨ (f.node? child).map (·.type) = some .unreachable) (by simp [Fits])

/-- What `WellShaped` says of a node in its place. -/
def shapedAt (f : Function) (x : Place) : Bool :=
  match f.node? x.1 with
  | none => true
  | some n =>
    f.TypedAs n && (n.type ≠ .unreachable || n.expr.mayNotComplete) &&
      match n.expr with
      | .block _ body => !x.2.1 || f.Fits x.1 body
      | .conditional _ thenArm elseArm => !x.2.1 || (f.Fits x.1 thenArm && f.Fits x.1 elseArm)
      | .exitBlock name => x.2.2.lookup name ≠ some true
      | _ => true

/-- The nodes of the chart form a tree. -/
def TreeOn (f : Function) (chart : List Place) : Prop :=
  ∀ x ∈ chart, f.body ∉ f.children x.1 ∧ (f.children x.1).Nodup ∧
    ∀ y ∈ chart, ∀ c ∈ f.children x.1, c ∈ f.children y.1 → x.1 = y.1

instance : Decidable (f.TreeOn chart) := inferInstanceAs (Decidable (∀ x ∈ chart, _))

theorem wellShaped_of_chart (hc : f.Charted chart) (ht : f.TreeOn chart) (h : ∀ x ∈ chart, f.shapedAt x = true) :
    f.WellShaped := by
  have hmem : ∀ {id}, f.Reachable id → ∃ demanded open_, (id, demanded, open_) ∈ chart := fun hid => by
    obtain ⟨demanded, open_, hs⟩ := exists_stands hid
    exact ⟨demanded, open_, hc.mem hs⟩
  have hat : ∀ {id demanded open_ n}, f.Stands id demanded open_ → f.node? id = some n →
      f.shapedAt (id, demanded, open_) = true := fun hs _ => h _ (hc.mem hs)
  refine ⟨⟨fun p hp => ?_, fun p q c hp hq hpc hqc => ?_, fun p hp => ?_⟩, fun id n hid hn => ?_, fun id n hid hn hu => ?_,
    fun id open_ n name body hs hn he => ?_, fun id open_ n condition thenArm elseArm hs hn he => ?_,
    fun id demanded open_ n name hs hn he => ?_⟩
  · obtain ⟨_, _, hp⟩ := hmem hp
    exact (ht _ hp).1
  · obtain ⟨_, _, hp⟩ := hmem hp
    obtain ⟨_, _, hq⟩ := hmem hq
    exact (ht _ hp).2.2 _ hq c hpc hqc
  · obtain ⟨_, _, hp⟩ := hmem hp
    exact (ht _ hp).2.1
  · obtain ⟨_, _, hp⟩ := hmem hid
    have := h _ hp
    simp only [shapedAt, hn, Bool.and_eq_true, decide_eq_true_eq] at this
    exact this.1.1
  · obtain ⟨_, _, hp⟩ := hmem hid
    have := h _ hp
    simp only [shapedAt, hn, Bool.and_eq_true, decide_eq_true_eq] at this
    simpa [hu] using this.1.2
  · have := hat hs hn
    simp only [shapedAt, hn, he, Bool.and_eq_true] at this
    simpa using this.2
  · have := hat hs hn
    simp only [shapedAt, hn, he, Bool.and_eq_true] at this
    simpa using this.2
  · have := hat hs hn
    simp only [shapedAt, hn, he, Bool.and_eq_true] at this
    simpa using this.2

end Function

end SlotCode
