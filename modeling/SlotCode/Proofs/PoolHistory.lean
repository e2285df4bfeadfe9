/-
  SlotCode.Proofs.PoolHistory — what a pool hands out, told from its answers.

  A caller sees only answers: this slot is reserved for good, this one is handed out, this
  one has been taken back, this release is refused. The answers alone say which slots are
  reserved, live and free at the end (`reservedIn`, `liveIn`, `freeIn`), and how long ago a
  slot was taken back. `Partition.Tracks` ties them to what a partition keeps: its flags,
  its list of free slots and its size.

  Proved: every call on a partition keeps `Tracks` (`Tracks.call`), and a pool is five
  partitions that know nothing of each other (`after_onKind`). Hence `pool_never_doubles`,
  for every sequence of calls.
-/

import Mathlib.Algebra.BigOperators.Group.Finset.Basic
import SlotCode.Proofs.History
import SlotCode.Proofs.SlotPool

namespace SlotCode

namespace Pool

/-- A call on one kind of slots. -/
inductive Call where
  | reserve
  | acquire
  | release (s : Slot)
  deriving DecidableEq, Repr

/-- What a call did. -/
inductive Event where
  | reserved (s : Slot)
  | acquired (s : Slot)
  | released (s : Slot)
  | refused (s : Slot)
  deriving DecidableEq, Repr

/-- Makes a call. A release that fails leaves the pool as it was. -/
def call (p : Pool) : Kind × Call → (Kind × Event) × Pool
  | (k, .reserve) => ((k, .reserved (p.reserve k).1), (p.reserve k).2)
  | (k, .acquire) => ((k, .acquired (p.acquire k).1), (p.acquire k).2)
  | (k, .release s) =>
    match p.release k s with
    | .ok q => ((k, .released s), q)
    | .error e => ((e.kind, .refused e.slot), p)

/-- A new pool after some calls. -/
def after (calls : List (Kind × Call)) : History Pool (Kind × Event) := History.run call empty calls

/-! ## What the answers say -/

/-- The slots that were reserved. -/
@[simp] def reservedIn : List Event → Finset Slot
  | [] => ∅
  | .reserved s :: past => insert s (reservedIn past)
  | .acquired _ :: past | .released _ :: past | .refused _ :: past => reservedIn past

/-- The slots handed out and not taken back since. -/
@[simp] def liveIn : List Event → Finset Slot
  | [] => ∅
  | .acquired s :: past => insert s (liveIn past)
  | .released s :: past => (liveIn past).erase s
  | .reserved _ :: past | .refused _ :: past => liveIn past

/-- The slots taken back and not handed out since. -/
@[simp] def freeIn : List Event → Finset Slot
  | [] => ∅
  | .released s :: past => insert s (freeIn past)
  | .acquired s :: past => (freeIn past).erase s
  | .reserved _ :: past | .refused _ :: past => freeIn past

/-- How many answers came after the slot was last taken back. -/
def sinceRelease (past : List Event) (s : Slot) : Nat := past.idxOf (.released s)

/-- Of the free slots, the one taken back last. -/
def LastFreed (past : List Event) (s : Slot) : Prop :=
  s ∈ freeIn past ∧ ∀ t ∈ freeIn past, t ≠ s → sinceRelease past s < sinceRelease past t

theorem sinceRelease_cons {e : Event} {s : Slot} (past : List Event) (h : e ≠ .released s) :
    sinceRelease (e :: past) s = sinceRelease past s + 1 := List.idxOf_cons_ne past h

/-- The part of a record that is about one kind. -/
def onKind {α : Type} (k : Kind) (record : List (Kind × α)) : List α := (record.filter (·.1 = k)).map (·.2)

end Pool

open Pool

/-! ## One partition -/

namespace Partition

/-- The same call on the partition alone. -/
def call (p : Partition) : Call → Event × Partition
  | .reserve => (.reserved p.reserve.1, p.reserve.2)
  | .acquire => (.acquired p.acquire.1, p.acquire.2)
  | .release s =>
    match p.release? s with
    | some q => (.released s, q)
    | none => (.refused s, p)

section

variable {p : Partition} {s : Slot}

theorem call_release_live (h : p.isLive s = true) :
    p.call (.release s) = (.released s, { p.mark s false with free := s :: p.free }) := by simp [call, release?, h]

theorem call_release_dead (h : ¬ p.isLive s = true) : p.call (.release s) = (.refused s, p) := by
  simp [call, release?, h]

end

/-- What the partition keeps is what its answers say. -/
structure Tracks (p : Partition) (past : List Event) : Prop where
  live : ∀ s, p.isLive s = true ↔ s ∈ liveIn past
  free : ∀ s, s ∈ p.free ↔ s ∈ freeIn past
  size : ∀ s, s < p.size ↔ s ∈ reservedIn past ∨ s ∈ liveIn past ∨ s ∈ freeIn past
  fixed : ∀ s ∈ reservedIn past, s ∉ liveIn past ∧ s ∉ freeIn past
  apart : ∀ s ∈ liveIn past, s ∉ freeIn past
  /-- The free slots stand in the order in which they were taken back, the last one first. -/
  recent : p.free.Pairwise fun s t => sinceRelease past s < sinceRelease past t

variable {p : Partition} {past : List Event}

namespace Tracks

theorem empty : ({} : Partition).Tracks [] := by
  refine ⟨?_, ?_, ?_, ?_, ?_, List.Pairwise.nil⟩ <;> simp [isLive]

theorem once (h : p.Tracks past) : p.free.Nodup := h.recent.imp fun hlt he => by rw [he] at hlt; omega

theorem not_mem_of_size_le (h : p.Tracks past) {s : Slot} (hs : p.size ≤ s) :
    s ∉ reservedIn past ∧ s ∉ liveIn past ∧ s ∉ freeIn past := by
  have hnot : ¬ s < p.size := Nat.not_lt.2 hs
  rw [h.size] at hnot
  exact ⟨fun hm => hnot (.inl hm), fun hm => hnot (.inr (.inl hm)), fun hm => hnot (.inr (.inr hm))⟩

theorem freeIn_eq_empty (h : p.Tracks past) (hnil : p.free = []) : freeIn past = ∅ := by
  ext s
  rw [← h.free, hnil]
  simp

/-- Answers other than that some free slot is taken back leave the order of the free slots. -/
theorem recent_cons {e : Event} {free : List Slot} (he : ∀ s ∈ free, e ≠ .released s)
    (h : free.Pairwise fun s t => sinceRelease past s < sinceRelease past t) :
    free.Pairwise fun s t => sinceRelease (e :: past) s < sinceRelease (e :: past) t := by
  refine h.imp_of_mem fun {s t} hs ht hlt => ?_
  rw [sinceRelease_cons past (he s hs), sinceRelease_cons past (he t ht)]
  omega

theorem reserve (h : p.Tracks past) : p.reserve.2.Tracks (.reserved p.size :: past) := by
  obtain ⟨-, hlive, hfree⟩ := h.not_mem_of_size_le (Nat.le_refl p.size)
  have hsize : p.reserve.2.size = p.size + 1 := rfl
  refine ⟨?_, h.free, ?_, ?_, h.apart, recent_cons (by simp) h.recent⟩
  · intro s
    exact (p.isLive_extend s).symm ▸ h.live s
  · intro s
    have hs := h.size s
    simp only [hsize, reservedIn, liveIn, freeIn, Finset.mem_insert, or_assoc]
    rw [← hs]
    omega
  · intro s hs
    rcases Finset.mem_insert.1 hs with rfl | hs
    · exact ⟨hlive, hfree⟩
    · exact h.fixed s hs

/-- A new slot is handed out when none is free. -/
theorem grow (h : p.Tracks past) (hnil : p.free = []) :
    (p.extend.2.mark p.size true).Tracks (.acquired p.size :: past) := by
  obtain ⟨hreserved, hlive, hfree⟩ := h.not_mem_of_size_le (Nat.le_refl p.size)
  have hsize : (p.extend.2.mark p.size true).size = p.size + 1 := rfl
  have hnone := h.freeIn_eq_empty hnil
  have hfree' : (p.extend.2.mark p.size true).free = [] := hnil
  refine ⟨?_, ?_, ?_, ?_, ?_, hfree' ▸ List.Pairwise.nil⟩
  · intro s
    rw [isLive_mark _ _ _ _ (Nat.lt_succ_self p.size), isLive_extend]
    have hs := h.live s
    by_cases he : s = p.size
    · simp [he]
    · simp [he, hs]
  · simp [hfree', hnone]
  · intro s
    have hs := h.size s
    simp only [hsize, reservedIn, liveIn, freeIn, hnone, Finset.mem_insert, Finset.erase_empty, Finset.notMem_empty,
      or_false] at hs ⊢
    rw [or_left_comm, ← hs]
    omega
  · intro s hs
    have hne : s ≠ p.size := by
      rintro rfl
      exact hreserved hs
    simpa [hnone, hne] using (h.fixed s hs).1
  · simp [hnone]

/-- A free slot is handed out again. -/
theorem reuse {s : Slot} {rest : List Slot} (h : p.Tracks past) (hcons : p.free = s :: rest) :
    (Partition.mark { p with free := rest } s true).Tracks (.acquired s :: past) := by
  have hmem : s ∈ freeIn past := (h.free s).1 (by simp [hcons])
  have hlt : s < p.size := (h.size s).2 (.inr (.inr hmem))
  have honce := h.once
  rw [hcons, List.nodup_cons] at honce
  have hrecent := h.recent
  rw [hcons, List.pairwise_cons] at hrecent
  refine ⟨?_, ?_, ?_, ?_, ?_, recent_cons (by simp) hrecent.2⟩
  · intro t
    rw [isLive_mark { p with free := rest } s t true hlt]
    have ht : isLive { p with free := rest } t = true ↔ t ∈ liveIn past := h.live t
    by_cases he : t = s
    · simp [he]
    · simp [he, ht]
  · intro t
    have ht := h.free t
    rw [hcons, List.mem_cons] at ht
    simp only [freeIn, Finset.mem_erase]
    rw [← ht]
    constructor
    · intro hrest
      exact ⟨fun he => honce.1 (he ▸ hrest), .inr hrest⟩
    · rintro ⟨hne, he | hrest⟩
      · exact absurd he hne
      · exact hrest
  · intro t
    refine (h.size t).trans ?_
    simp only [reservedIn, liveIn, freeIn, Finset.mem_insert, Finset.mem_erase]
    by_cases he : t = s
    · simp [he, hmem]
    · simp [he]
  · intro t ht
    have hne : t ≠ s := by
      rintro rfl
      exact (h.fixed t ht).2 hmem
    obtain ⟨hlive, hfree⟩ := h.fixed t ht
    simp [hne, hlive, hfree]
  · intro t ht
    simp only [freeIn, Finset.mem_erase, not_and]
    intro hne
    rcases Finset.mem_insert.1 ht with he | ht
    · exact absurd he hne
    · exact h.apart t ht

theorem acquire (h : p.Tracks past) : p.acquire.2.Tracks (.acquired p.acquire.1 :: past) := by
  cases hfree : p.free with
  | nil =>
    rw [acquire_of_nil hfree]
    exact h.grow hfree
  | cons s rest =>
    rw [acquire_of_cons hfree]
    exact h.reuse hfree

theorem release {s : Slot} (h : p.Tracks past) (hs : p.isLive s = true) :
    Tracks { p.mark s false with free := s :: p.free } (.released s :: past) := by
  have hmem : s ∈ liveIn past := (h.live s).1 hs
  have hnot : s ∉ p.free := fun hm => h.apart s hmem ((h.free s).1 hm)
  refine ⟨?_, ?_, ?_, ?_, ?_, List.pairwise_cons.2 ⟨?_, recent_cons ?_ h.recent⟩⟩
  · intro t
    show (p.mark s false).isLive t = true ↔ _
    rw [isLive_mark p s t false (lt_of_isLive hs)]
    have ht := h.live t
    by_cases he : t = s
    · simp [he]
    · simp [he, ht]
  · intro t
    simp [h.free t]
  · intro t
    refine (h.size t).trans ?_
    simp only [reservedIn, liveIn, freeIn, Finset.mem_insert, Finset.mem_erase]
    by_cases he : t = s
    · simp [he, hmem]
    · simp [he]
  · intro t ht
    have hne : t ≠ s := by
      rintro rfl
      exact (h.fixed t ht).1 hmem
    obtain ⟨hlive, hfree⟩ := h.fixed t ht
    simp [hne, hlive, hfree]
  · intro t ht
    obtain ⟨hne, ht⟩ := Finset.mem_erase.1 ht
    simp [hne, h.apart t ht]
  · intro t ht
    have hne : Event.released s ≠ .released t := by
      rintro ⟨⟩
      exact hnot ht
    rw [sinceRelease_cons past hne]
    simp [sinceRelease]
  · rintro t ht ⟨⟩
    exact hnot ht

theorem refuse (h : p.Tracks past) (s : Slot) : p.Tracks (.refused s :: past) :=
  ⟨h.live, h.free, h.size, h.fixed, h.apart, recent_cons (by simp) h.recent⟩

/-- Every call keeps the partition and its answers in step. -/
theorem call (h : p.Tracks past) (c : Call) : (p.call c).2.Tracks ((p.call c).1 :: past) := by
  cases c with
  | reserve => exact h.reserve
  | acquire => exact h.acquire
  | release s =>
    by_cases hs : p.isLive s = true
    · rw [call_release_live hs]
      exact h.release hs
    · rw [call_release_dead hs]
      exact h.refuse s

/-- The slot handed out is the free one taken back last, or a new one when none is free. -/
theorem acquired (h : p.Tracks past) :
    p.acquire.1 ∉ reservedIn past ∧ p.acquire.1 ∉ liveIn past ∧
      (LastFreed past p.acquire.1 ∨ freeIn past = ∅ ∧ p.acquire.1 = p.size) := by
  cases hfree : p.free with
  | nil =>
    obtain ⟨hreserved, hlive, -⟩ := h.not_mem_of_size_le (Nat.le_refl p.size)
    rw [acquire_of_nil hfree]
    exact ⟨hreserved, hlive, .inr ⟨h.freeIn_eq_empty hfree, rfl⟩⟩
  | cons s rest =>
    have hmem : s ∈ freeIn past := (h.free s).1 (by simp [hfree])
    have hrecent := h.recent
    rw [hfree, List.pairwise_cons] at hrecent
    rw [acquire_of_cons hfree]
    refine ⟨fun hr => (h.fixed s hr).2 hmem, fun hl => h.apart s hl hmem, .inl ⟨hmem, ?_⟩⟩
    intro t ht hne
    rw [← h.free, hfree, List.mem_cons] at ht
    rcases ht with he | ht
    · exact absurd he hne
    · exact hrecent.1 t ht

theorem liveCount (h : p.Tracks past) : p.liveCount = (liveIn past).card := by
  have heq : ((Finset.range p.size).filter fun s => p.isLive s = true) = liveIn past := by
    ext s
    rw [Finset.mem_filter, Finset.mem_range, h.live]
    exact ⟨fun hs => hs.2, fun hs => ⟨(h.size s).2 (.inr (.inl hs)), hs⟩⟩
  rw [liveCount_eq, heq]

end Tracks

end Partition

/-! ## The pool -/

theorem PerKind.set_get {α : Type} (t : PerKind α) (k : Kind) : t.set k (t.get k) = t := by
  cases k <;> rfl

namespace Pool

/-- A call on one kind is a call on its partition. -/
theorem call_eq (p : Pool) (k : Kind) (c : Call) :
    p.call (k, c) = ((k, ((p.get k).call c).1), p.set k ((p.get k).call c).2) := by
  cases c with
  | reserve => rfl
  | acquire => rfl
  | release s =>
    cases hr : (p.get k).release? s with
    | some q => simp [call, Pool.release, Partition.call, hr]
    | none => simp [call, Pool.release, Partition.call, hr, PerKind.set_get]

theorem call_get_ne (p : Pool) {k j : Kind} (c : Call) (h : j ≠ k) : (p.call (k, c)).2.get j = p.get j := by
  rw [call_eq]
  exact PerKind.get_set_ne _ _ h

section OnKind

variable {α : Type} (k : Kind) (record : List (Kind × α))

theorem onKind_cons (x : Kind × α) : onKind k (x :: record) = if x.1 = k then x.2 :: onKind k record else onKind k record := by
  by_cases h : x.1 = k <;> simp [onKind, h]

theorem onKind_snoc (x : Kind × α) :
    onKind k (record ++ [x]) = if x.1 = k then onKind k record ++ [x.2] else onKind k record := by
  by_cases h : x.1 = k <;> simp [onKind, h]

theorem onKind_filter : onKind k (record.filter (·.1 = k)) = onKind k record := by simp [onKind]

end OnKind

section Snoc

variable (k : Kind) (calls : List (Kind × Call)) (j : Kind) (c : Call)

/-- One more call reaches a partition only when it is on its kind. -/
theorem get_after_snoc : (after (calls ++ [(j, c)])).now.get k =
    if j = k then (((after calls).now.get k).call c).2 else (after calls).now.get k := by
  have hnext : after (calls ++ [(j, c)]) = (after calls).next call (j, c) := History.run_snoc calls (j, c)
  rw [hnext, History.next, call_eq]
  by_cases hj : j = k
  · subst hj
    simp
  · simp [hj, PerKind.get_set_ne _ _ (Ne.symm hj)]

theorem past_after_snoc : onKind k (after (calls ++ [(j, c)])).past =
    if j = k then (((after calls).now.get k).call c).1 :: onKind k (after calls).past else onKind k (after calls).past := by
  have hnext : after (calls ++ [(j, c)]) = (after calls).next call (j, c) := History.run_snoc calls (j, c)
  rw [hnext, History.next, call_eq, onKind_cons]
  by_cases hj : j = k
  · subst hj
    rfl
  · simp [hj]

end Snoc

/-- Each kind has a history of its own. -/
theorem after_onKind (k : Kind) (calls : List (Kind × Call)) :
    (⟨(after calls).now.get k, onKind k (after calls).past⟩ : History Partition Event) =
      History.run Partition.call {} (onKind k calls) := by
  induction calls using List.reverseRecOn with
  | nil => simp [after, History.run, onKind, Pool.empty]
  | append_singleton calls x ih =>
    obtain ⟨j, c⟩ := x
    rw [get_after_snoc, past_after_snoc, onKind_snoc]
    by_cases hj : j = k
    · simp only [hj, if_true]
      rw [History.run_snoc, ← ih]
      rfl
    · simp only [hj, if_false]
      exact ih

theorem tracks_after (calls : List (Kind × Call)) (k : Kind) :
    ((after calls).now.get k).Tracks (onKind k (after calls).past) := by
  have hrun : ∀ cs, (History.run Partition.call {} cs).now.Tracks (History.run Partition.call {} cs).past :=
    History.run_keeps (P := fun h => Partition.Tracks h.now h.past) Partition.Tracks.empty fun _ c ht => ht.call c
  have hkind := hrun (onKind k calls)
  rw [← after_onKind] at hkind
  exact hkind

/-- The live slots of all kinds. -/
def allLive (past : List (Kind × Event)) : Finset TypedSlot :=
  Kind.all.toFinset.biUnion fun k => (liveIn (onKind k past)).image (TypedSlot.mk k)

theorem card_allLive (past : List (Kind × Event)) :
    (allLive past).card = ∑ k ∈ Kind.all.toFinset, (liveIn (onKind k past)).card := by
  rw [allLive, Finset.card_biUnion]
  · refine Finset.sum_congr rfl fun k _ => Finset.card_image_of_injective _ ?_
    intro s t he
    exact congrArg TypedSlot.slot he
  · intro j _ k _ hne
    rw [Function.onFun, Finset.disjoint_left]
    intro t hj hk
    obtain ⟨s, -, rfl⟩ := Finset.mem_image.1 hj
    obtain ⟨u, -, he⟩ := Finset.mem_image.1 hk
    exact hne (congrArg TypedSlot.kind he).symm

theorem liveCount_after (calls : List (Kind × Call)) : (after calls).now.liveCount = (allLive (after calls).past).card := by
  have hsum : ∀ g : Kind → Nat, ∑ k ∈ Kind.all.toFinset, g k = g .int + g .long + g .float + g .double + g .object := by
    intro g
    simp [Kind.all]
    omega
  rw [card_allLive, hsum]
  simp only [← (tracks_after calls _).liveCount]
  rfl

theorem release_isOk (p : Pool) (k : Kind) (s : Slot) : (∃ q, p.release k s = .ok q) ↔ (p.get k).isLive s = true := by
  by_cases hs : (p.get k).isLive s = true <;> simp [Pool.release, Partition.release?, hs]

theorem release_error {p : Pool} {k : Kind} {s : Slot} {e : Error} (h : p.release k s = .error e) :
    e = ⟨k, s⟩ ∧ (p.call (k, .release s)).2 = p := by
  refine ⟨?_, by simp [call, h]⟩
  unfold Pool.release at h
  split at h
  · cases h
  · exact (Except.error.inj h).symm

end Pool

/-- After any calls on a new pool, failing ones among them: below its count, every slot of a kind is reserved, live or
    free, and only one of these; the flags and the list of free slots say which, and the list has each free slot once.
    The next slot acquired is neither reserved nor live: it is the free one that was released last, or a new one when
    none is free. A release succeeds exactly for a live slot and otherwise changes nothing. The count of live slots is
    their number. A call on one kind leaves the other kinds alone: each is as if only the calls on it had been made. -/
theorem pool_never_doubles (calls : List (Kind × Call)) :
    let p := (after calls).now
    let past := fun k => onKind k (after calls).past
    (∀ k, Finset.range (p.counts.get k) = reservedIn (past k) ∪ liveIn (past k) ∪ freeIn (past k) ∧
      Disjoint (reservedIn (past k)) (liveIn (past k)) ∧ Disjoint (reservedIn (past k)) (freeIn (past k)) ∧
      Disjoint (liveIn (past k)) (freeIn (past k)) ∧
      (∀ s, (p.get k).isLive s = true ↔ s ∈ liveIn (past k)) ∧
      (p.get k).free.Nodup ∧ (p.get k).free.toFinset = freeIn (past k)) ∧
    (∀ k, (p.acquire k).1 ∉ reservedIn (past k) ∧ (p.acquire k).1 ∉ liveIn (past k) ∧
      (LastFreed (past k) (p.acquire k).1 ∨ freeIn (past k) = ∅ ∧ (p.acquire k).1 = p.counts.get k)) ∧
    (∀ k s, ((∃ q, p.release k s = .ok q) ↔ s ∈ liveIn (past k)) ∧
      ∀ e, p.release k s = .error e → e = ⟨k, s⟩ ∧ (p.call (k, .release s)).2 = p) ∧
    p.liveCount = (allLive (after calls).past).card ∧
    (∀ k c j, j ≠ k → (p.call (k, c)).2.get j = p.get j) ∧
    ∀ k, p.get k = (after (calls.filter (·.1 = k))).now.get k ∧ past k = onKind k (after (calls.filter (·.1 = k))).past := by
  intro p past
  have htracks : ∀ k, (p.get k).Tracks (past k) := tracks_after calls
  have hcounts : ∀ k, p.counts.get k = (p.get k).size := fun k => PerKind.get_map _ _ k
  refine ⟨fun k => ⟨?_, ?_, ?_, ?_, (htracks k).live, (htracks k).once, ?_⟩, fun k => ?_,
    fun k s => ⟨?_, fun e => release_error⟩, liveCount_after calls, fun k c j => call_get_ne p c, fun k => ?_⟩
  · ext s
    rw [Finset.mem_range, hcounts, (htracks k).size, Finset.mem_union, Finset.mem_union, or_assoc]
  · exact Finset.disjoint_left.2 fun s hs => ((htracks k).fixed s hs).1
  · exact Finset.disjoint_left.2 fun s hs => ((htracks k).fixed s hs).2
  · exact Finset.disjoint_left.2 (htracks k).apart
  · ext s
    rw [List.mem_toFinset, (htracks k).free]
  · rw [hcounts]
    exact (htracks k).acquired
  · rw [release_isOk]
    exact (htracks k).live s
  · have hown := after_onKind k (calls.filter (·.1 = k))
    rw [onKind_filter, ← after_onKind] at hown
    exact ⟨congrArg History.now hown.symm, congrArg History.past hown.symm⟩

end SlotCode
