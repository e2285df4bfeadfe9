/-
  SlotCode.Proofs.SlotPool — a slot is never handed out while it is live or fixed.

  A pool is sound for a set of fixed slots when its free slots are all its own, dead,
  listed once, and none of them is fixed, and when no fixed slot is live.

  Proved, for one partition and then for the pool: acquiring gives a slot that was neither
  live nor fixed and makes exactly this one live; releasing makes exactly this one dead;
  reserving fixes a new slot; and all three keep the pool sound. The count of live slots is
  the number of them.
-/

import Mathlib.Data.Finset.Card
import Mathlib.Data.Finset.Range
import Mathlib.Data.List.Nodup
import SlotCode.Slot.Pool

namespace SlotCode

namespace Partition

/-- The free slots are dead, known and listed once; fixed slots are known, dead and not free. -/
structure Sound (p : Partition) (fixed : Slot → Prop) : Prop where
  free_lt : ∀ s ∈ p.free, s < p.size
  free_dead : ∀ s ∈ p.free, p.isLive s = false
  free_once : p.free.Nodup
  fixed_lt : ∀ s, fixed s → s < p.size
  fixed_dead : ∀ s, fixed s → p.isLive s = false
  fixed_taken : ∀ s, fixed s → s ∉ p.free

theorem isLive_mark (p : Partition) (s t : Slot) (b : Bool) (hs : s < p.size) :
    (p.mark s b).isLive t = if t = s then b else p.isLive t := by
  rw [← p.counted] at hs
  simp only [isLive, mark, Array.getD_eq_getD_getElem?, Array.getElem?_setIfInBounds, eq_comm (a := t)]
  by_cases h : s = t
  · subst h
    simp [hs]
  · simp [h]

theorem isLive_size (p : Partition) : p.isLive p.size = false := by
  simp [isLive, ← p.counted]

theorem lt_of_isLive {p : Partition} {s : Slot} (h : p.isLive s = true) : s < p.size := by
  rw [← p.counted]
  by_contra hge
  have hnone : p.live[s]? = none := Array.getElem?_eq_none (Nat.le_of_not_lt hge)
  simp [isLive, hnone] at h

/-- One more slot makes none live. -/
theorem isLive_extend (p : Partition) (t : Slot) : p.extend.2.isLive t = p.isLive t := by
  simp only [isLive, extend, Array.getD_eq_getD_getElem?, Array.getElem?_push]
  by_cases h : t = p.live.size
  · simp [h]
  · simp [h]

theorem count_true (l : List Bool) : l.count true = ((Finset.range l.length).filter fun i => l.getD i false = true).card := by
  induction l using List.reverseRecOn with
  | nil => rfl
  | append_singleton l b ih =>
    have hold : ((Finset.range l.length).filter fun i => (l ++ [b]).getD i false = true) =
        (Finset.range l.length).filter fun i => l.getD i false = true := by
      refine Finset.filter_congr fun i hi => ?_
      have hlt : i < l.length := Finset.mem_range.1 hi
      simp [List.getElem?_append_left hlt]
    rw [List.count_append, ih, List.length_append, List.length_singleton, Finset.range_add_one, Finset.filter_insert, hold]
    cases b <;> simp

/-- The live slots are counted. -/
theorem liveCount_eq (p : Partition) : p.liveCount = ((Finset.range p.size).filter fun s => p.isLive s = true).card := by
  rw [liveCount, count_true]
  simp [isLive, ← p.counted]

variable {p : Partition} {fixed : Slot → Prop}

theorem acquire_of_nil (h : p.free = []) : p.acquire = (p.size, p.extend.2.mark p.size true) := by
  rw [acquire, h]
  rfl

theorem acquire_of_cons {s : Slot} {rest : List Slot} (h : p.free = s :: rest) :
    p.acquire = (s, mark { p with free := rest } s true) := by
  rw [acquire, h]

namespace Sound

/-- What acquiring does to one partition. -/
theorem acquire (h : p.Sound fixed) :
    p.isLive p.acquire.1 = false ∧ ¬ fixed p.acquire.1 ∧ p.acquire.1 < p.acquire.2.size ∧ p.size ≤ p.acquire.2.size ∧
      (∀ t, p.acquire.2.isLive t = if t = p.acquire.1 then true else p.isLive t) ∧ p.acquire.2.Sound fixed := by
  cases hf : p.free with
  | nil =>
    have hlt : p.size < p.extend.2.size := Nat.lt_succ_self _
    have hlive : ∀ t, (p.extend.2.mark p.size true).isLive t = if t = p.size then true else p.isLive t := by
      intro t
      rw [isLive_mark _ _ _ _ hlt, isLive_extend]
    rw [acquire_of_nil hf]
    refine ⟨p.isLive_size, fun hfix => Nat.lt_irrefl _ (h.fixed_lt _ hfix), hlt, Nat.le_succ _, hlive, ?_⟩
    have hfree : (p.extend.2.mark p.size true).free = [] := hf
    refine ⟨by simp [hfree], by simp [hfree], by simp [hfree], fun s hs => ?_, fun s hs => ?_, by simp [hfree]⟩
    · exact Nat.lt_succ_of_lt (h.fixed_lt s hs)
    · rw [hlive, if_neg (Nat.ne_of_lt (h.fixed_lt s hs))]
      exact h.fixed_dead s hs
  | cons s rest =>
    have hmem : s ∈ p.free := by rw [hf]; exact List.mem_cons_self
    have hlt := h.free_lt s hmem
    have hlive : ∀ t, (Partition.mark { p with free := rest } s true).isLive t = if t = s then true else p.isLive t :=
      fun t => isLive_mark { p with free := rest } s t true hlt
    have hrest : ∀ t ∈ rest, t ∈ p.free ∧ t ≠ s := by
      intro t ht
      have honce := h.free_once
      rw [hf, List.nodup_cons] at honce
      exact ⟨by rw [hf]; exact List.mem_cons_of_mem _ ht, fun he => honce.1 (he ▸ ht)⟩
    rw [acquire_of_cons hf]
    refine ⟨h.free_dead s hmem, fun hfix => h.fixed_taken s hfix hmem, hlt, Nat.le_refl _, hlive, ?_⟩
    refine ⟨fun t ht => h.free_lt t (hrest t ht).1, fun t ht => ?_, ?_, h.fixed_lt, fun t ht => ?_, fun t ht hm => ?_⟩
    · rw [hlive, if_neg (hrest t ht).2]
      exact h.free_dead t (hrest t ht).1
    · have honce := h.free_once
      rw [hf, List.nodup_cons] at honce
      exact honce.2
    · have hne : t ≠ s := fun he => h.fixed_taken t ht (he ▸ hmem)
      rw [hlive, if_neg hne]
      exact h.fixed_dead t ht
    · exact h.fixed_taken t ht (hrest t hm).1

/-- What releasing does to one partition. -/
theorem release {q : Partition} {s : Slot} (h : p.Sound fixed) (hr : p.release? s = some q) :
    p.isLive s = true ∧ q.size = p.size ∧ (∀ t, q.isLive t = if t = s then false else p.isLive t) ∧ q.Sound fixed := by
  unfold Partition.release? at hr
  split at hr
  · rename_i hs
    cases hr
    have hlt := lt_of_isLive hs
    have hlive : ∀ t, (p.mark s false).isLive t = if t = s then false else p.isLive t := fun t => isLive_mark p s t false hlt
    have hnew : s ∉ p.free := fun hm => by
      have := h.free_dead s hm
      rw [hs] at this
      cases this
    refine ⟨hs, rfl, hlive, fun t ht => ?_, fun t ht => ?_, List.nodup_cons.2 ⟨hnew, h.free_once⟩, h.fixed_lt,
      fun t ht => ?_, fun t ht hm => ?_⟩
    · rcases List.mem_cons.1 ht with rfl | ht
      · exact hlt
      · exact h.free_lt t ht
    · refine (hlive t).trans ?_
      split
      · rfl
      · rcases List.mem_cons.1 ht with rfl | ht
        · contradiction
        · exact h.free_dead t ht
    · refine (hlive t).trans ?_
      split
      · rfl
      · exact h.fixed_dead t ht
    · rcases List.mem_cons.1 hm with rfl | hm
      · have := h.fixed_dead t ht
        rw [hs] at this
        cases this
      · exact h.fixed_taken t ht hm
  · cases hr

/-- A reserved slot is fixed from then on. -/
theorem reserve (h : p.Sound fixed) :
    ¬ fixed p.reserve.1 ∧ p.reserve.2.Sound (fun s => fixed s ∨ s = p.reserve.1) := by
  have hlive : ∀ t, p.reserve.2.isLive t = p.isLive t := p.isLive_extend
  have hsize : p.reserve.2.size = p.size + 1 := rfl
  refine ⟨fun hfix => Nat.lt_irrefl _ (h.fixed_lt _ hfix), fun s hs => ?_, fun s hs => ?_, h.free_once, ?_, ?_, ?_⟩
  · rw [hsize]
    exact Nat.lt_succ_of_lt (h.free_lt s hs)
  · rw [hlive]
    exact h.free_dead s hs
  · rintro s (hs | rfl)
    · rw [hsize]
      exact Nat.lt_succ_of_lt (h.fixed_lt s hs)
    · rw [hsize]
      exact Nat.lt_succ_self _
  · rintro s (hs | rfl)
    · rw [hlive]
      exact h.fixed_dead s hs
    · rw [hlive]
      exact p.isLive_size
  · rintro s (hs | rfl)
    · exact h.fixed_taken s hs
    · intro hm
      exact Nat.lt_irrefl _ (h.free_lt _ hm)

end Sound

end Partition

namespace Pool

def isLive (p : Pool) (t : TypedSlot) : Bool := (p.get t.kind).isLive t.slot

/-- The pool has handed the slot out, now or before. -/
def has (p : Pool) (t : TypedSlot) : Prop := t.slot < (p.get t.kind).size

/-- Every partition is sound for the fixed slots of its kind. -/
def Sound (p : Pool) (fixed : List TypedSlot) : Prop := ∀ k, (p.get k).Sound fun s => ⟨k, s⟩ ∈ fixed

variable {p q : Pool} {fixed : List TypedSlot}

theorem Sound.fixed_has (h : p.Sound fixed) {t : TypedSlot} (ht : t ∈ fixed) : p.has t := (h t.kind).fixed_lt t.slot ht

theorem Sound.fixed_dead (h : p.Sound fixed) {t : TypedSlot} (ht : t ∈ fixed) : p.isLive t = false :=
  (h t.kind).fixed_dead t.slot ht

theorem sound_set {k : Kind} {r : Partition} (h : p.Sound fixed) (hr : r.Sound fun s => ⟨k, s⟩ ∈ fixed) :
    Pool.Sound (p.set k r) fixed := by
  intro j
  by_cases hj : j = k
  · subst hj
    rwa [PerKind.get_set_self]
  · rw [PerKind.get_set_ne p r hj]
    exact h j

/-- The slot handed out was neither live nor fixed, and is the only one that becomes live. -/
structure Acquired (p q : Pool) (fixed : List TypedSlot) (r : TypedSlot) : Prop where
  dead : p.isLive r = false
  loose : r ∉ fixed
  has : q.has r
  live : ∀ t, q.isLive t = if t = r then true else p.isLive t
  size : ∀ k, (p.get k).size ≤ (q.get k).size
  sound : q.Sound fixed

theorem Sound.acquire (h : p.Sound fixed) (k : Kind) : Acquired p (p.acquire k).2 fixed ⟨k, (p.acquire k).1⟩ := by
  obtain ⟨hdead, hloose, hhas, hsize, hlive, hsound⟩ := (h k).acquire
  have heq : p.acquire k = ((p.get k).acquire.1, p.set k (p.get k).acquire.2) := rfl
  rw [heq]
  refine ⟨hdead, hloose, ?_, fun t => ?_, fun j => ?_, sound_set h hsound⟩
  · rw [Pool.has, PerKind.get_set_self]
    exact hhas
  · obtain ⟨j, s⟩ := t
    rw [Pool.isLive, Pool.isLive]
    by_cases hj : j = k
    · subst hj
      rw [PerKind.get_set_self, hlive]
      simp
    · rw [PerKind.get_set_ne _ _ hj]
      simp [hj]
  · by_cases hj : j = k
    · subst hj
      rw [PerKind.get_set_self]
      exact hsize
    · exact Nat.le_of_eq (by rw [PerKind.get_set_ne _ _ hj])

/-- The slot given back is the only one that dies. -/
structure Released (p q : Pool) (fixed : List TypedSlot) (r : TypedSlot) : Prop where
  live : ∀ t, q.isLive t = if t = r then false else p.isLive t
  size : ∀ k, (q.get k).size = (p.get k).size
  sound : q.Sound fixed

theorem Sound.release {k : Kind} {s : Slot} (h : p.Sound fixed) (hr : p.release k s = .ok q) :
    Released p q fixed ⟨k, s⟩ := by
  unfold Pool.release at hr
  split at hr
  · rename_i r hr'
    cases hr
    obtain ⟨-, hsize, hlive, hsound⟩ := (h k).release hr'
    refine ⟨fun t => ?_, fun j => ?_, sound_set h hsound⟩
    · obtain ⟨j, x⟩ := t
      show ((p.set k r).get j).isLive x = _
      by_cases hj : j = k
      · subst hj
        rw [PerKind.get_set_self, hlive]
        simp [Pool.isLive]
      · rw [PerKind.get_set_ne _ _ hj]
        simp [hj, Pool.isLive]
    · by_cases hj : j = k
      · subst hj
        rw [PerKind.get_set_self, hsize]
      · rw [PerKind.get_set_ne _ _ hj]
  · cases hr

theorem Sound.reserve (h : p.Sound fixed) (k : Kind) :
    (⟨k, (p.reserve k).1⟩ : TypedSlot) ∉ fixed ∧ (p.reserve k).2.Sound (fixed ++ [⟨k, (p.reserve k).1⟩]) := by
  obtain ⟨hnew, hsound⟩ := (h k).reserve
  have heq : p.reserve k = ((p.get k).reserve.1, p.set k (p.get k).reserve.2) := rfl
  rw [heq]
  refine ⟨hnew, fun j => ?_⟩
  have hmem : ∀ s, (⟨j, s⟩ : TypedSlot) ∈ fixed ++ [⟨k, (p.get k).reserve.1⟩] ↔
      ⟨j, s⟩ ∈ fixed ∨ (j = k ∧ s = (p.get k).reserve.1) := by
    intro s
    simp
  simp only [hmem]
  by_cases hj : j = k
  · subst hj
    rw [PerKind.get_set_self]
    simpa using hsound
  · rw [PerKind.get_set_ne _ _ hj]
    simpa [hj] using h j

theorem sound_empty : Pool.empty.Sound [] := by
  intro k
  refine ⟨?_, ?_, ?_, ?_, ?_, ?_⟩ <;> cases k <;> simp [Pool.empty, PerKind.replicate, PerKind.get]

theorem isLive_reserve (p : Pool) (k : Kind) (t : TypedSlot) : (p.reserve k).2.isLive t = p.isLive t := by
  obtain ⟨j, s⟩ := t
  show ((p.set k (p.get k).reserve.2).get j).isLive s = (p.get j).isLive s
  by_cases hj : j = k
  · subst hj
    rw [PerKind.get_set_self]
    exact (p.get j).isLive_extend s
  · rw [PerKind.get_set_ne _ _ hj]

/-- When at most one slot is live, the count says whether there is one. -/
theorem liveCount_eq_length {r : Option TypedSlot} (h : ∀ x, p.isLive x = true ↔ r = some x) :
    p.liveCount = r.toList.length := by
  have hkind : ∀ k, (p.get k).liveCount = if r.map TypedSlot.kind = some k then 1 else 0 := by
    intro k
    have hlive : ∀ s, (p.get k).isLive s = true ↔ r = some ⟨k, s⟩ := fun s => h ⟨k, s⟩
    rw [Partition.liveCount_eq]
    split
    · rename_i hk
      obtain ⟨x, rfl, rfl⟩ := Option.map_eq_some_iff.1 hk
      have hx : (p.get x.kind).isLive x.slot = true := (hlive x.slot).2 rfl
      refine Finset.card_eq_one.2 ⟨x.slot, Finset.ext fun s => ?_⟩
      rw [Finset.mem_filter, Finset.mem_singleton, Finset.mem_range, hlive]
      constructor
      · rintro ⟨-, hs⟩
        exact (congrArg TypedSlot.slot (Option.some.inj hs)).symm
      · rintro rfl
        exact ⟨Partition.lt_of_isLive hx, rfl⟩
    · rename_i hk
      refine Finset.card_eq_zero.2 (Finset.filter_eq_empty_iff.2 fun s _ hs => hk ?_)
      rw [(hlive s).1 hs]
      rfl
  have htotal : p.liveCount = (p.get .int).liveCount + (p.get .long).liveCount + (p.get .float).liveCount +
      (p.get .double).liveCount + (p.get .object).liveCount := rfl
  rw [htotal, hkind, hkind, hkind, hkind, hkind]
  cases r with
  | none => simp
  | some x =>
    obtain ⟨k, s⟩ := x
    cases k <;> simp

end Pool

end SlotCode
