/-
  SlotCode.Proofs.OrderSpec — the order of a function lists what its body reaches, parents first.

  A walk from some roots extends the list of finished nodes at its front. `Explores` says
  what the new part is: everything the roots reach and the walk had not entered before,
  each node once, and each node before its children, unless a child leads back to it.

  Proved, for every function:
    * `mem_order` — the order lists exactly the reachable nodes;
    * `order_nodup` — if all of them are nodes of the arena, each stands there once;
    * `order_parent_first` — without cycles, every node stands before its children.
-/

import Mathlib.Data.Finset.Card
import Mathlib.Data.List.Nodup
import Mathlib.Logic.Relation
import SlotCode.Graph.Order

namespace SlotCode

open Relation (ReflTransGen TransGen)

namespace Function

def IsChild (f : Function) (parent child : NodeId) : Prop := child ∈ f.children parent

/-- The nodes that the body leads to. -/
def Reachable (f : Function) (id : NodeId) : Prop := ReflTransGen f.IsChild f.body id

def Acyclic (f : Function) : Prop := ∀ id, f.Reachable id → ¬ TransGen f.IsChild id id

end Function

namespace Trail

def has (t : Trail) (id : NodeId) : Bool := t.entered.getD id false

/-- The nodes of the arena that the walk has not entered. -/
def ahead (t : Trail) : Finset Nat := (Finset.range t.entered.size).filter fun id => t.has id = false

def mark (t : Trail) (id : NodeId) : Trail := { t with entered := t.entered.setIfInBounds id true }

theorem has_mark (t : Trail) (id x : NodeId) :
    (t.mark id).has x = true ↔ t.has x = true ∨ (x = id ∧ id < t.entered.size) := by
  unfold has mark
  by_cases hx : x < t.entered.size
  · by_cases he : id = x
    · subst he
      simp [Array.getD, hx]
    · have : ¬ x = id := fun h => he h.symm
      simp [Array.getD, hx, he, this]
  · have : ¬ (x = id ∧ id < t.entered.size) := fun h => hx (h.1 ▸ h.2)
    simp [Array.getD, hx, this]

theorem size_mark (t : Trail) (id : NodeId) : (t.mark id).entered.size = t.entered.size := by simp [mark]

theorem card_ahead_le {t t' : Trail} (hs : t'.entered.size = t.entered.size) (h : ∀ x, t.has x = true → t'.has x = true) :
    t'.ahead.card ≤ t.ahead.card := by
  refine Finset.card_le_card fun x hx => ?_
  rw [ahead, Finset.mem_filter] at hx ⊢
  refine ⟨by rw [← hs]; exact hx.1, ?_⟩
  by_contra hc
  have := h x (by simpa using hc)
  rw [this] at hx
  exact absurd hx.2 (by simp)

theorem card_ahead_mark {t : Trail} {id : NodeId} (hid : id < t.entered.size) (h : t.has id = false) :
    (t.mark id).ahead.card < t.ahead.card := by
  refine Finset.card_lt_card ((Finset.ssubset_iff_of_subset fun x hx => ?_).2 ⟨id, ?_, ?_⟩)
  · rw [ahead, Finset.mem_filter, size_mark] at hx
    rw [ahead, Finset.mem_filter]
    refine ⟨hx.1, ?_⟩
    by_contra hc
    have := (has_mark t id x).2 (.inl (by simpa using hc))
    rw [this] at hx
    exact absurd hx.2 (by simp)
  · simp [ahead, hid, h]
  · have := (has_mark t id id).2 (.inr ⟨rfl, hid⟩)
    simp [ahead, this]

end Trail

/-- From `t` to `t'`, a walk from the roots has finished the nodes `new`. -/
structure Explores (f : Function) (t t' : Trail) (roots new : List NodeId) : Prop where
  size : t'.entered.size = t.entered.size
  finished : t'.finished = new ++ t.finished
  entered : ∀ x, t'.has x = true ↔ t.has x = true ∨ (x ∈ new ∧ x < t.entered.size)
  fresh : ∀ x ∈ new, t.has x = false
  reached : ∀ x ∈ new, ∃ root ∈ roots, ReflTransGen f.IsChild root x
  covered : ∀ root ∈ roots, root ∈ new ∨ t.has root = true
  closed : ∀ x ∈ new, ∀ c, f.IsChild x c → c ∈ new ∨ t.has c = true
  once : ∀ x < t.entered.size, new.count x ≤ 1
  /-- A child stands behind its parent, or was entered before, or leads back to the parent. -/
  behind : ∀ before x after, new = before ++ x :: after → ∀ c, f.IsChild x c →
    c ∈ after ∨ t.has c = true ∨ ReflTransGen f.IsChild c x

namespace Explores

variable {f : Function} {t t₁ t₂ : Trail} {roots₁ roots₂ new₁ new₂ : List NodeId}

theorem nil (f : Function) (t : Trail) : Explores f t t [] [] := by
  constructor <;> simp

theorem append (h₁ : Explores f t t₁ roots₁ new₁) (h₂ : Explores f t₁ t₂ roots₂ new₂) :
    Explores f t t₂ (roots₁ ++ roots₂) (new₂ ++ new₁) where
  size := h₂.size.trans h₁.size
  finished := by rw [h₂.finished, h₁.finished, List.append_assoc]
  entered x := by
    rw [h₂.entered, h₁.entered, h₁.size, List.mem_append]
    tauto
  fresh x hx := by
    rcases List.mem_append.1 hx with hx | hx
    · have := h₂.fresh x hx
      by_contra hc
      have := (h₁.entered x).2 (.inl (by simpa using hc))
      simp_all
    · exact h₁.fresh x hx
  reached x hx := by
    rcases List.mem_append.1 hx with hx | hx
    · obtain ⟨root, hr, hp⟩ := h₂.reached x hx
      exact ⟨root, List.mem_append_right _ hr, hp⟩
    · obtain ⟨root, hr, hp⟩ := h₁.reached x hx
      exact ⟨root, List.mem_append_left _ hr, hp⟩
  covered root hr := by
    rcases List.mem_append.1 hr with hr | hr
    · rcases h₁.covered root hr with h | h
      · exact .inl (List.mem_append_right _ h)
      · exact .inr h
    · rcases h₂.covered root hr with h | h
      · exact .inl (List.mem_append_left _ h)
      · rcases (h₁.entered root).1 h with h | h
        · exact .inr h
        · exact .inl (List.mem_append_right _ h.1)
  closed x hx c hc := by
    rcases List.mem_append.1 hx with hx | hx
    · rcases h₂.closed x hx c hc with h | h
      · exact .inl (List.mem_append_left _ h)
      · rcases (h₁.entered c).1 h with h | h
        · exact .inr h
        · exact .inl (List.mem_append_right _ h.1)
    · rcases h₁.closed x hx c hc with h | h
      · exact .inl (List.mem_append_right _ h)
      · exact .inr h
  once x hx := by
    rw [List.count_append]
    have h1 := h₁.once x hx
    have h2 := h₂.once x (by rw [h₁.size]; exact hx)
    by_contra hc
    have hm1 : x ∈ new₁ := List.count_pos_iff.1 (by omega)
    have hm2 : x ∈ new₂ := List.count_pos_iff.1 (by omega)
    have := h₂.fresh x hm2
    rw [(h₁.entered x).2 (.inr ⟨hm1, hx⟩)] at this
    exact absurd this (by simp)
  behind before x after he c hc := by
    rcases List.append_eq_append_iff.1 he with ⟨mid, hb, hn⟩ | ⟨mid, hb, hn⟩
    · exact h₁.behind mid x after hn c hc
    · cases mid with
      | nil => exact h₁.behind [] x after (by simpa using hn.symm) c hc
      | cons y rest =>
        obtain ⟨rfl, rfl⟩ : x = y ∧ after = rest ++ new₁ := by simpa using hn
        rcases h₂.behind before x rest hb c hc with h | h | h
        · exact .inl (List.mem_append_left _ h)
        · rcases (h₁.entered c).1 h with h | h
          · exact .inr (.inl h)
          · exact .inl (List.mem_append_right _ h.1)
        · exact .inr (.inr h)

/-- A node that has not been entered, finished after its children. -/
theorem cons {id : NodeId} {new : List NodeId} (hid : t.has id = false)
    (h : Explores f (t.mark id) t₂ (f.children id) new) :
    Explores f t { t₂ with finished := id :: t₂.finished } [id] (id :: new) where
  size := h.size.trans (t.size_mark id)
  finished := by rw [h.finished]; rfl
  entered x := by
    show t₂.has x = true ↔ _
    rw [h.entered, Trail.has_mark, Trail.size_mark, List.mem_cons]
    constructor
    · rintro ((h | ⟨rfl, h⟩) | h)
      · exact .inl h
      · exact .inr ⟨.inl rfl, h⟩
      · exact .inr ⟨.inr h.1, h.2⟩
    · rintro (h | ⟨rfl | h, h'⟩)
      · exact .inl (.inl h)
      · exact .inl (.inr ⟨rfl, h'⟩)
      · exact .inr ⟨h, h'⟩
  fresh x hx := by
    rcases List.mem_cons.1 hx with rfl | hx
    · exact hid
    · have := h.fresh x hx
      by_contra hc
      have := (Trail.has_mark t id x).2 (.inl (by simpa using hc))
      simp_all
  reached x hx := by
    refine ⟨id, List.mem_singleton_self id, ?_⟩
    rcases List.mem_cons.1 hx with rfl | hx
    · exact .refl
    · obtain ⟨c, hc, hp⟩ := h.reached x hx
      exact .head hc hp
  covered root hr := by
    rw [List.mem_singleton] at hr
    exact .inl (by simp [hr])
  closed x hx c hc := by
    have descend : c ∈ new ∨ (t.mark id).has c = true → c ∈ id :: new ∨ t.has c = true := by
      rintro (h | h)
      · exact .inl (List.mem_cons_of_mem _ h)
      · rcases (Trail.has_mark t id c).1 h with h | ⟨rfl, -⟩
        · exact .inr h
        · exact .inl List.mem_cons_self
    rcases List.mem_cons.1 hx with rfl | hx
    · exact descend (h.covered c hc)
    · exact descend (h.closed x hx c hc)
  once x hx := by
    have hrest := h.once x (by rw [Trail.size_mark]; exact hx)
    rw [List.count_cons]
    split
    · rename_i he
      obtain rfl : id = x := by simpa using he
      have : new.count id = 0 := by
        rw [List.count_eq_zero]
        intro hm
        have := h.fresh id hm
        rw [(Trail.has_mark t id id).2 (.inr ⟨rfl, hx⟩)] at this
        exact absurd this (by simp)
      omega
    · omega
  behind before x after he c hc := by
    cases before with
    | nil =>
      obtain ⟨rfl, rfl⟩ : id = x ∧ new = after := by simpa using he
      rcases h.covered c hc with hm | hm
      · exact .inl hm
      · rcases (Trail.has_mark t id c).1 hm with hm | ⟨rfl, -⟩
        · exact .inr (.inl hm)
        · exact .inr (.inr .refl)
    | cons y before =>
      obtain ⟨rfl, hnew⟩ : id = y ∧ new = before ++ x :: after := by simpa using he
      rcases h.behind before x after hnew c hc with hm | hm | hm
      · exact .inl hm
      · rcases (Trail.has_mark t id c).1 hm with hm | ⟨rfl, -⟩
        · exact .inr (.inl hm)
        · -- The child is the node being walked, which leads to `x`.
          obtain ⟨root, hr, hp⟩ := h.reached x (by rw [hnew]; simp)
          exact .inr (.inr (.head hr hp))
      · exact .inr (.inr hm)

end Explores

/-- A node that leads anywhere is in the arena, so that marking it leaves less ahead. -/
theorem Trail.ahead_mark_lt {f : Function} {t : Trail} {id : NodeId} {n : Nat} (hs : t.entered.size = f.nodes.size)
    (hid : t.has id = false) (hn : t.ahead.card < n + 1) (hc : f.children id ≠ []) : (t.mark id).ahead.card < n := by
  have hlt : id < t.entered.size := by
    by_contra hge
    have : f.node? id = none := Array.getElem?_eq_none (hs ▸ Nat.le_of_not_lt hge)
    simp [Function.children, this] at hc
  have := card_ahead_mark hlt hid
  omega

/-- A walk with room for all nodes ahead explores from its start. -/
theorem Trail.walk_explores (f : Function) : ∀ (n : Nat) (t : Trail) (id : NodeId), t.entered.size = f.nodes.size →
    t.ahead.card < n → ∃ new, Explores f t (Trail.walk f n t id) [id] new := by
  intro n
  induction n with
  | zero => intro t id _ h; omega
  | succ n ih =>
    intro t id hsize hroom
    unfold Trail.walk
    split
    · rename_i hid
      refine ⟨[], ?_⟩
      constructor <;> simp_all [Trail.has]
    · rename_i hid
      have hid : t.has id = false := by simpa [Trail.has] using hid
      -- The children, one after the other; the room shrinks with the node that was marked.
      have each : ∀ (cs : List NodeId) (u : Trail), u.entered.size = f.nodes.size →
          (cs ≠ [] → u.ahead.card < n) → ∃ new, Explores f u (cs.foldl (Trail.walk f n) u) cs new := by
        intro cs
        induction cs with
        | nil => exact fun u _ _ => ⟨[], .nil f u⟩
        | cons c cs ihc =>
          intro u hu hr
          have hc := hr (by simp)
          obtain ⟨new₁, h₁⟩ := ih u c hu hc
          have hmono := Trail.card_ahead_le h₁.size fun x hx => (h₁.entered x).2 (.inl hx)
          obtain ⟨new₂, h₂⟩ := ihc (Trail.walk f n u c) (h₁.size.trans hu) fun _ => by omega
          exact ⟨new₂ ++ new₁, h₁.append h₂⟩
      obtain ⟨new, h⟩ := each (f.children id) (t.mark id) ((t.size_mark id).trans hsize)
        (Trail.ahead_mark_lt hsize hid hroom)
      exact ⟨id :: new, h.cons hid⟩

namespace Trail

variable {f : Function} {t : Trail} {id : NodeId}

/-- More room than needed changes nothing. -/
theorem walk_room (f : Function) : ∀ (n m : Nat) (t : Trail) (id : NodeId), t.entered.size = f.nodes.size →
    t.ahead.card < n → t.ahead.card < m → walk f n t id = walk f m t id := by
  intro n
  induction n with
  | zero => intro m t id _ h; omega
  | succ n ih =>
    intro m t id hs hn hm
    obtain _ | m := m
    · omega
    have each : ∀ (cs : List NodeId) (u : Trail), u.entered.size = f.nodes.size →
        (cs ≠ [] → u.ahead.card < n ∧ u.ahead.card < m) → cs.foldl (walk f n) u = cs.foldl (walk f m) u := by
      intro cs
      induction cs with
      | nil => exact fun _ _ _ => rfl
      | cons c cs ihc =>
        intro u hu hr
        obtain ⟨hn, hm⟩ := hr (by simp)
        obtain ⟨new, he⟩ := walk_explores f n u c hu hn
        have hless := card_ahead_le he.size fun x hx => (he.entered x).2 (.inl hx)
        have hrest := ihc (walk f n u c) (he.size.trans hu) fun _ => ⟨by omega, by omega⟩
        rw [List.foldl_cons, List.foldl_cons, hrest, ih m u c hu hn hm]
    unfold walk
    split
    · rfl
    · rename_i hid
      have hid : t.has id = false := by simpa [has] using hid
      have hchildren := each (f.children id) (t.mark id) ((t.size_mark id).trans hs) fun hc =>
        ⟨ahead_mark_lt hs hid hn hc, ahead_mark_lt hs hid hm hc⟩
      exact congrArg (fun t : Trail => { t with finished := id :: t.finished }) hchildren

/-- The walk from a node, with all the room it may need. -/
def search (f : Function) (t : Trail) (id : NodeId) : Trail := walk f (f.nodes.size + 1) t id

def finish (t : Trail) (id : NodeId) : Trail := { t with finished := id :: t.finished }

theorem ahead_le (t : Trail) : t.ahead.card ≤ t.entered.size := by
  have := Finset.card_filter_le (Finset.range t.entered.size) fun id => t.has id = false
  simpa [ahead] using this

theorem search_explores (hs : t.entered.size = f.nodes.size) (id : NodeId) : ∃ new, Explores f t (t.search f id) [id] new :=
  walk_explores f _ t id hs (by have := t.ahead_le; omega)

theorem size_search (hs : t.entered.size = f.nodes.size) (id : NodeId) : (t.search f id).entered.size = f.nodes.size := by
  obtain ⟨new, he⟩ := search_explores hs id
  exact he.size.trans hs

/-- What was entered stays entered. -/
theorem has_search {x : NodeId} (hs : t.entered.size = f.nodes.size) (hx : t.has x = true) (id : NodeId) :
    (t.search f id).has x = true := by
  obtain ⟨new, he⟩ := search_explores hs id
  exact (he.entered x).2 (.inl hx)

theorem size_searches (ids : List NodeId) :
    ∀ t : Trail, t.entered.size = f.nodes.size → (ids.foldl (search f) t).entered.size = f.nodes.size := by
  induction ids with
  | nil => exact fun _ hs => hs
  | cons id ids ih => exact fun t hs => ih _ (size_search hs id)

theorem has_searches {x : NodeId} (ids : List NodeId) : ∀ t : Trail, t.entered.size = f.nodes.size → t.has x = true →
    (ids.foldl (search f) t).has x = true := by
  induction ids with
  | nil => exact fun _ _ hx => hx
  | cons id ids ih => exact fun t hs hx => ih _ (size_search hs id) (has_search hs hx id)

theorem search_of_has (h : t.has id = true) : t.search f id = t := by
  have : t.entered.getD id false = true := h
  simp [search, walk, this]

/-- A node that was not entered is finished after the walks from its children. -/
theorem search_of_not_has (hs : t.entered.size = f.nodes.size) (h : t.has id = false) :
    t.search f id = ((f.children id).foldl (search f) (t.mark id)).finish id := by
  have each : ∀ (cs : List NodeId) (u : Trail), u.entered.size = f.nodes.size →
      (cs ≠ [] → u.ahead.card < f.nodes.size) → cs.foldl (walk f f.nodes.size) u = cs.foldl (search f) u := by
    intro cs
    induction cs with
    | nil => exact fun _ _ _ => rfl
    | cons c cs ih =>
      intro u hu hr
      have hlt := hr (by simp)
      have hstep : walk f f.nodes.size u c = u.search f c := walk_room f _ _ u c hu hlt (by omega)
      obtain ⟨new, he⟩ := search_explores hu c
      have hless := card_ahead_le he.size fun x hx => (he.entered x).2 (.inl hx)
      rw [List.foldl_cons, List.foldl_cons, hstep]
      exact ih _ (he.size.trans hu) fun _ => by omega
  have hnot : t.entered.getD id false = false := h
  have hchildren := each (f.children id) (t.mark id) ((t.size_mark id).trans hs) fun hc =>
    ahead_mark_lt hs h (by have := t.ahead_le; omega) hc
  simp only [search, walk, hnot]
  exact congrArg (fun u : Trail => u.finish id) hchildren

end Trail

namespace Function

theorem explores_order (f : Function) :
    ∃ t', Explores f ⟨Array.replicate f.nodes.size false, []⟩ t' [f.body] f.order := by
  have hsize : (Trail.mk (Array.replicate f.nodes.size false) []).entered.size = f.nodes.size := by simp
  obtain ⟨new, h⟩ := Trail.search_explores hsize f.body
  have : f.order = new := by simpa [Function.order, Trail.search] using h.finished
  exact ⟨_, this ▸ h⟩

theorem not_has_start (f : Function) (id : NodeId) :
    (Trail.mk (Array.replicate f.nodes.size false) []).has id = false := by
  by_cases h : id < f.nodes.size <;> simp [Trail.has, Array.getD, h]

/-- The order lists exactly the reachable nodes. -/
theorem mem_order {f : Function} {id : NodeId} : id ∈ f.order ↔ f.Reachable id := by
  obtain ⟨t', h⟩ := f.explores_order
  constructor
  · intro hm
    obtain ⟨root, hr, hp⟩ := h.reached id hm
    obtain rfl : root = f.body := by simpa using hr
    exact hp
  · intro hr
    induction hr with
    | refl =>
      rcases h.covered f.body (by simp) with hm | hm
      · exact hm
      · rw [f.not_has_start] at hm
        exact absurd hm (by simp)
    | tail _ hc ih =>
      rcases h.closed _ ih _ hc with hm | hm
      · exact hm
      · rw [f.not_has_start] at hm
        exact absurd hm (by simp)

theorem order_nodup {f : Function} (h : ∀ id, f.Reachable id → id < f.nodes.size) : f.order.Nodup := by
  obtain ⟨t', he⟩ := f.explores_order
  rw [List.nodup_iff_count_le_one]
  intro id
  by_cases hm : id ∈ f.order
  · exact he.once id (by simpa using h id (mem_order.1 hm))
  · rw [List.count_eq_zero_of_not_mem hm]
    omega

/-- Without cycles, every node stands before its children. -/
theorem order_parent_first {f : Function} (h : f.Acyclic) {before after : List NodeId} {id c : NodeId}
    (he : f.order = before ++ id :: after) (hc : f.IsChild id c) : c ∈ after := by
  obtain ⟨t', hx⟩ := f.explores_order
  rcases hx.behind before id after he c hc with hm | hm | hm
  · exact hm
  · rw [f.not_has_start] at hm
    exact absurd hm (by simp)
  · have hr : f.Reachable id := mem_order.1 (by rw [he]; simp)
    exact absurd (TransGen.head' hc hm) (h id hr)

/-- Children that stand before their parents in the arena lead to no cycle. -/
theorem acyclic_of_lt {f : Function} (h : ∀ p ∈ f.order, ∀ c ∈ f.children p, c < p) : f.Acyclic := by
  have hdown : ∀ {a b : NodeId}, TransGen f.IsChild a b → f.Reachable a → b < a := by
    intro a b hab ha
    induction hab with
    | single hc => exact h a (mem_order.2 ha) _ hc
    | tail hab hc ih => exact (h _ (mem_order.2 (ha.trans hab.to_reflTransGen)) _ hc).trans ih
  exact fun id hid hcycle => (hdown hcycle hid).false

end Function

end SlotCode
