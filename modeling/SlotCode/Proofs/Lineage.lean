/-
  SlotCode.Proofs.Lineage — classes that were defined from the root down.

  A class names its superclass by the number that was given out for it, so the superclass
  was defined first and has a smaller number. Following superclasses therefore comes to an
  end, and the bound of the loops that do it is never met. `Inherits` is the order of the
  classes, and `Search` the search for an ancestor, both without that bound.

  Proved: tables of environments that grew by definitions are founded (`Defined.founded`), the
  way up comes to an end there (`Founded.rooted`), a lineage is what the way up passes
  (`lineage_eq_ok`), and a class is found by the search exactly if it is inherited from
  (`Founded.isSubclass_iff`).
-/

import SlotCode.Proofs.Ascent
import SlotCode.Proofs.Operands

namespace SlotCode

/-- The environment has grown by definitions, and these numbers were given out for its classes. A class may name as its
    superclass any number that was given out before. -/
inductive Environment.Defined : Environment → List ClassId → Prop
  | new : Defined {} [ClassTable.textClass, ClassTable.objectClass]
  | define {env : Environment} {ids : List ClassId} {c : ClassInfo} : Defined env ids →
      (∀ s, c.superclass = some s → s ∈ ids) → Defined (env.defineClass c).2 ((env.defineClass c).1 :: ids)
  /-- Functions and static fields leave the classes alone. -/
  | other {env env' : Environment} {ids : List ClassId} : Defined env ids → env'.classes = env.classes → Defined env' ids

namespace ClassTable

/-- Every superclass was defined before the classes under it. -/
def Founded (t : ClassTable) : Prop :=
  ∀ (id : Nat) (c : ClassInfo), t[id]? = some c → ∀ s : Nat, c.superclass = some s → s < id

/-- The first class is the second one or inherits from it. -/
inductive Inherits (t : ClassTable) : ClassId → ClassId → Prop
  | self {id : ClassId} : id < t.size → t.Inherits id id
  | step {id s ancestor : ClassId} {c : ClassInfo} : t[id]? = some c → c.superclass = some s → t.Inherits s ancestor →
      t.Inherits id ancestor

/-- The search for an ancestor, from a class upward, and the answer it comes to. -/
inductive Search (t : ClassTable) (ancestor : ClassId) : Option ClassId → Bool → Prop
  | found : t.Search ancestor (some ancestor) true
  | up {id : ClassId} {c : ClassInfo} {answer : Bool} : id ≠ ancestor → t[id]? = some c →
      t.Search ancestor c.superclass answer → t.Search ancestor (some id) answer
  | ended : t.Search ancestor none false

variable {t : ClassTable} {c : ClassInfo} {id s ancestor n : Nat} {place : Option ClassId} {ids above : List ClassId}
  {answer : Bool}

theorem Inherits.lt_size (h : t.Inherits id ancestor) : id < t.size := by
  cases h with
  | self hid => exact hid
  | step hc _ _ => exact (Array.getElem?_eq_some_iff.1 hc).1

/-! ## The lineage -/

/-- The lineage of a class is what the way up passes, if that way comes to the top. -/
theorem lineage_eq_ok : t.lineage id = .ok ids ↔ t.Passes (some id) ids none := by
  rw [lineage]
  rcases t.lineageUpTo_cases (t.size + 1) (some id) with ⟨found, hr, hup⟩ | ⟨out, next, hr, hup, hnone⟩ |
      ⟨far, next, hr, hup, hlength⟩
  · rw [hr]
    constructor
    · rintro ⟨⟩
      exact hup
    · intro h
      rw [(h.unique isEnd_none hup isEnd_none).1]
  · rw [hr]
    constructor
    · intro h
      cases h
    · intro h
      cases (h.unique isEnd_none hup (isEnd_some hnone)).2
  · rw [hr]
    constructor
    · intro h
      cases h
    · intro h
      exact absurd isEnd_none ((hup.endless (by omega)).1.not_isEnd h)

theorem lineage_root (hc : t[id]? = some c) (hs : c.superclass = none) : t.lineage id = .ok [id] :=
  lineage_eq_ok.2 (.up hc (hs ▸ .here))

theorem lineage_under (hc : t[id]? = some c) (hs : c.superclass = some s) (habove : t.lineage s = .ok above) :
    t.lineage id = .ok (id :: above) :=
  lineage_eq_ok.2 (.up hc (hs ▸ lineage_eq_ok.1 habove))

/-! ## The search -/

theorem searchUpTo_none (n : Nat) : t.searchUpTo ancestor n none = .ok false := by cases n <;> rfl

/-- An answer of the bounded search is one of the search without bound. -/
theorem search_of_searchUpTo (h : t.searchUpTo ancestor n place = .ok answer) : t.Search ancestor place answer := by
  induction n generalizing place with
  | zero =>
    cases place with
    | none =>
      cases h
      exact .ended
    | some id => cases h
  | succ n ih =>
    cases place with
    | none =>
      cases h
      exact .ended
    | some id =>
      rw [searchUpTo] at h
      split at h
      · rename_i he
        cases h
        exact he ▸ .found
      · rename_i hne
        cases hc : t[id]? with
        | none =>
          rw [classInfo_of_none hc] at h
          cases h
        | some c =>
          rw [classInfo_of_some hc] at h
          exact .up hne hc (ih h)

theorem Search.unique {answer' : Bool} (h : t.Search ancestor place answer) (h' : t.Search ancestor place answer') :
    answer = answer' := by
  induction h with
  | found =>
    cases h' with
    | found => rfl
    | up hne _ _ => exact absurd rfl hne
  | up hne hc _ ih =>
    cases h' with
    | found => exact absurd rfl hne
    | up _ hc' hup' =>
      cases hc.symm.trans hc'
      exact ih hup'
  | ended =>
    cases h'
    rfl

namespace Founded

/-- Induction along the lineage of a class. -/
theorem induct {P : ClassId → Prop} (h : t.Founded)
    (hstep : ∀ id c, t[id]? = some c → (∀ s, c.superclass = some s → P s) → P id) (hid : id < t.size) : P id := by
  induction id using Nat.strongRecOn with
  | ind id ih =>
    have hc := Array.getElem?_eq_getElem hid
    refine hstep id _ hc fun s hs => ?_
    have hlt := h id _ hc s hs
    exact ih s hlt (Nat.lt_trans hlt hid)

theorem rooted (h : t.Founded) : t.Rooted := by
  intro id hid
  refine h.induct (P := fun id => ∃ ids, t.Passes (some id) ids none) ?_ hid
  intro id c hc ih
  cases hs : c.superclass with
  | none => exact ⟨[id], .up hc (hs ▸ .here)⟩
  | some s =>
    obtain ⟨ids, hup⟩ := ih s hs
    exact ⟨id :: ids, .up hc (hs ▸ hup)⟩

/-- The search from a class ends, and finds what the class inherits from. -/
theorem search (h : t.Founded) (ancestor : ClassId) (hid : id < t.size) :
    ∃ answer, t.Search ancestor (some id) answer ∧ (answer = true ↔ t.Inherits id ancestor) := by
  refine h.induct (P := fun id => ∃ answer, t.Search ancestor (some id) answer ∧ (answer = true ↔ t.Inherits id ancestor))
    ?_ hid
  intro id c hc ih
  by_cases he : id = ancestor
  · subst he
    exact ⟨true, .found, iff_of_true rfl (.self (Array.getElem?_eq_some_iff.1 hc).1)⟩
  · -- Whoever is another class than the ancestor inherits through the superclass.
    have hup : t.Inherits id ancestor ↔ ∃ s, c.superclass = some s ∧ t.Inherits s ancestor := by
      constructor
      · intro hinherits
        cases hinherits with
        | self _ => exact absurd rfl he
        | step hc' hs hup =>
          cases hc.symm.trans hc'
          exact ⟨_, hs, hup⟩
      · rintro ⟨s, hs, hup⟩
        exact .step hc hs hup
    cases hs : c.superclass with
    | none => exact ⟨false, .up he hc (hs ▸ .ended), by simp [hup, hs]⟩
    | some s =>
      obtain ⟨answer, hsearch, hanswer⟩ := ih s hs
      exact ⟨answer, .up he hc (hs ▸ hsearch), by simp [hup, hs, hanswer]⟩

/-- A bound above the number of the class lets the search end. -/
theorem searchUpTo_of_search (h : t.Founded) (hsearch : t.Search ancestor place answer)
    (hn : ∀ id : Nat, place = some id → 0 < n ∧ (id < t.size → id < n)) : t.searchUpTo ancestor n place = .ok answer := by
  induction hsearch generalizing n with
  | found =>
    obtain ⟨n, rfl⟩ : ∃ k, n = k + 1 := ⟨n - 1, by have := hn _ rfl; omega⟩
    rw [searchUpTo, if_pos rfl]
  | @up id c answer hne hc hup ih =>
    have hid := (Array.getElem?_eq_some_iff.1 hc).1
    obtain ⟨hpos, hlt⟩ := hn id rfl
    obtain ⟨n, rfl⟩ : ∃ k, n = k + 1 := ⟨n - 1, by omega⟩
    rw [searchUpTo, if_neg hne, classInfo_of_some hc]
    refine ih fun s hs => ?_
    have hless := h id c hc s hs
    have := hlt hid
    omega
  | ended => exact searchUpTo_none n

/-- The search that is made answers as the search without bound. -/
theorem isSubclass_eq_ok (h : t.Founded) : t.isSubclass id ancestor = .ok answer ↔ t.Search ancestor (some id) answer := by
  refine ⟨search_of_searchUpTo, fun hsearch => h.searchUpTo_of_search hsearch ?_⟩
  rintro _ ⟨⟩
  omega

/-- What the code answers is the order of the classes. A number without a class is its own only ancestor. -/
theorem isSubclass_eq_true_iff (h : t.Founded) :
    t.isSubclass id ancestor = .ok true ↔ t.Inherits id ancestor ∨ (id = ancestor ∧ t.size ≤ id) := by
  rw [h.isSubclass_eq_ok]
  rcases Nat.lt_or_ge id t.size with hid | hid
  · obtain ⟨answer, hsearch, hanswer⟩ := h.search ancestor hid
    have hnot : ¬ t.size ≤ id := Nat.not_le.2 hid
    rw [or_iff_left (fun hout => hnot hout.2), ← hanswer]
    constructor
    · intro htrue
      exact hsearch.unique htrue
    · rintro rfl
      exact hsearch
  · have hnone := Array.getElem?_eq_none_iff.2 hid
    constructor
    · intro hsearch
      cases hsearch with
      | found => exact .inr ⟨rfl, hid⟩
      | up _ hc _ => cases hnone.symm.trans hc
    · rintro (hinherits | ⟨rfl, -⟩)
      · exact absurd hinherits.lt_size (Nat.not_lt.2 hid)
      · exact .found

theorem isSubclass_iff (h : t.Founded) (hancestor : ancestor < t.size) :
    t.isSubclass id ancestor = .ok true ↔ t.Inherits id ancestor := by
  rw [h.isSubclass_eq_true_iff, or_iff_left]
  rintro ⟨rfl, hout⟩
  omega

end Founded

end ClassTable

namespace Environment.Defined

variable {env : Environment} {ids : List ClassId}

theorem lt_size (h : env.Defined ids) : ∀ id ∈ ids, id < env.classes.size := by
  induction h with
  | new => decide
  | @define env ids c _ _ ih =>
    have hsize : (env.defineClass c).2.classes.size = env.classes.size + 1 := Array.size_push c
    intro id hid
    rw [hsize]
    rcases List.mem_cons.1 hid with rfl | hid
    · exact Nat.lt_succ_self _
    · exact Nat.lt_succ_of_lt (ih id hid)
  | other _ hclasses ih =>
    rw [hclasses]
    exact ih

/-- Superclasses come first. -/
theorem founded (h : env.Defined ids) : env.classes.Founded := by
  induction h with
  | new =>
    intro id c hc s hs
    rcases id with _ | _ | id
    · cases hc
      cases hs
    · cases hc
      cases hs
      decide
    · cases hc
  | @define env ids c hdefined hsuper ih =>
    intro id d hd s hs
    have hpush : (env.classes.push c)[id]? = some d := hd
    rw [Array.getElem?_push] at hpush
    split at hpush
    · rename_i hid
      cases hpush
      rw [hid]
      exact hdefined.lt_size s (hsuper s hs)
    · exact ih id d hpush s hs
  | other _ hclasses ih =>
    rw [hclasses]
    exact ih

end Environment.Defined

end SlotCode
