/-
  SlotCode.Proofs.PoolPeak — a pool has no more slots than it once needed.

  A partition grows when a slot is reserved, and when one is acquired while none is free:
  then all slots that are not reserved are live. So beyond the reserved slots there are as
  many as were live at once at some time.

  Proved: what one call does to the size (`Tracks.size_call`), and from it, over all calls,
  `pool_counts_peak`.
-/

import Mathlib.Data.Finset.Lattice.Fold
import Mathlib.Order.Lattice.Nat
import SlotCode.Proofs.PoolHistory

namespace SlotCode

open Pool

namespace Partition.Tracks

variable {p : Partition} {past : List Event}

theorem size_eq (h : p.Tracks past) : p.size = (reservedIn past).card + (liveIn past).card + (freeIn past).card := by
  have hparts : Finset.range p.size = (reservedIn past ∪ liveIn past) ∪ freeIn past := by
    ext s
    rw [Finset.mem_range, h.size, Finset.mem_union, Finset.mem_union, or_assoc]
  have hinner : Disjoint (reservedIn past) (liveIn past) := Finset.disjoint_left.2 fun s hs => (h.fixed s hs).1
  have houter : Disjoint (reservedIn past ∪ liveIn past) (freeIn past) := by
    refine Finset.disjoint_left.2 fun s hs => ?_
    rcases Finset.mem_union.1 hs with hs | hs
    · exact (h.fixed s hs).2
    · exact h.apart s hs
  calc p.size = (Finset.range p.size).card := (Finset.card_range _).symm
    _ = (reservedIn past ∪ liveIn past).card + (freeIn past).card := by rw [hparts, Finset.card_union_of_disjoint houter]
    _ = (reservedIn past).card + (liveIn past).card + (freeIn past).card := by rw [Finset.card_union_of_disjoint hinner]

/-- A call other than a reservation makes the partition just large enough for the slots live afterwards. -/
theorem size_call (h : p.Tracks past) (c : Call) (hc : c ≠ .reserve) :
    (p.call c).2.size = max p.size ((reservedIn past).card + (liveIn ((p.call c).1 :: past)).card) := by
  have hsize := h.size_eq
  cases c with
  | reserve => exact absurd rfl hc
  | acquire =>
    obtain ⟨-, hnew, -⟩ := h.acquired
    have hlive : (liveIn (.acquired p.acquire.1 :: past)).card = (liveIn past).card + 1 := Finset.card_insert_of_notMem hnew
    have hcall : p.call .acquire = (.acquired p.acquire.1, p.acquire.2) := rfl
    rw [hcall]
    simp only [hlive]
    cases hfree : p.free with
    | nil =>
      have hgrown : p.acquire.2.size = p.size + 1 := by rw [acquire_of_nil hfree]; rfl
      rw [h.freeIn_eq_empty hfree, Finset.card_empty] at hsize
      omega
    | cons s rest =>
      have hsome : 0 < (freeIn past).card := Finset.card_pos.2 ⟨s, (h.free s).1 (by simp [hfree])⟩
      have hsame : p.acquire.2.size = p.size := by rw [acquire_of_cons hfree]; rfl
      omega
  | release s =>
    by_cases hs : p.isLive s = true
    · have hfewer : (liveIn (.released s :: past)).card ≤ (liveIn past).card := Finset.card_erase_le
      have hsame : (p.mark s false).size = p.size := rfl
      rw [call_release_live hs]
      dsimp only
      omega
    · rw [call_release_dead hs]
      simp only [liveIn]
      omega

/-- Every reservation is of a new slot. -/
theorem card_reservedIn (h : p.Tracks past) (c : Call) :
    (reservedIn ((p.call c).1 :: past)).card = (reservedIn past).card + if c = .reserve then 1 else 0 := by
  cases c with
  | reserve => exact Finset.card_insert_of_notMem (h.not_mem_of_size_le (Nat.le_refl p.size)).1
  | acquire => rfl
  | release s =>
    by_cases hs : p.isLive s = true
    · rw [call_release_live hs]
      simp
    · rw [call_release_dead hs]
      simp

end Partition.Tracks

namespace Pool

/-- How many slots of a kind are live after some calls. -/
def liveAfter (k : Kind) (calls : List (Kind × Call)) : Nat := (liveIn (onKind k (after calls).past)).card

/-- The largest number of slots of a kind that are live at once, over all first parts of the calls. -/
def peak (k : Kind) (calls : List (Kind × Call)) : Nat :=
  (Finset.range (calls.length + 1)).sup fun n => liveAfter k (calls.take n)

theorem liveAfter_le_peak (k : Kind) (calls : List (Kind × Call)) : liveAfter k calls ≤ peak k calls := by
  have hlast := Finset.le_sup (f := fun n => liveAfter k (calls.take n)) (Finset.self_mem_range_succ calls.length)
  simpa [peak] using hlast

theorem peak_snoc (k : Kind) (calls : List (Kind × Call)) (x : Kind × Call) :
    peak k (calls ++ [x]) = max (peak k calls) (liveAfter k (calls ++ [x])) := by
  have hlength : (calls ++ [x]).length = calls.length + 1 := by simp
  have hold : ((Finset.range (calls.length + 1)).sup fun n => liveAfter k ((calls ++ [x]).take n)) = peak k calls := by
    refine Finset.sup_congr rfl fun n hn => ?_
    rw [List.take_append_of_le_length (Nat.le_of_lt_succ (Finset.mem_range.1 hn))]
  rw [peak, hlength, Finset.range_add_one, Finset.sup_insert, hold, ← hlength, List.take_length, max_comm]

/-- The reservations of a kind have taken as many slots. -/
theorem card_reserved_after (k : Kind) (calls : List (Kind × Call)) :
    (reservedIn (onKind k (after calls).past)).card = calls.count (k, .reserve) := by
  induction calls using List.reverseRecOn with
  | nil => rfl
  | append_singleton calls x ih =>
    obtain ⟨j, c⟩ := x
    rw [past_after_snoc, List.count_append, ← ih]
    by_cases hj : j = k
    · subst hj
      rw [if_pos rfl, (tracks_after calls j).card_reservedIn c]
      simp [List.count_singleton]
    · simp [hj]

end Pool

/-- After any calls on a new pool, a kind has as many slots as were reserved, and beside them as many as were live at
    once when most were. -/
theorem pool_counts_peak (calls : List (Kind × Call)) (k : Kind) :
    (after calls).now.counts.get k = calls.count (k, .reserve) + peak k calls := by
  have hcounts : ∀ calls, (after calls).now.counts.get k = ((after calls).now.get k).size := fun _ => PerKind.get_map _ _ k
  rw [hcounts]
  induction calls using List.reverseRecOn with
  | nil => simp [after, History.run, peak, liveAfter, onKind, liveIn, Pool.empty]
  | append_singleton calls x ih =>
    obtain ⟨j, c⟩ := x
    have htracks := tracks_after calls k
    have hreserved := card_reserved_after k calls
    have hle := liveAfter_le_peak k calls
    rw [peak_snoc, List.count_append, get_after_snoc, liveAfter, past_after_snoc]
    by_cases hj : j = k
    · subst hj
      simp only [if_true]
      by_cases hc : c = .reserve
      · subst hc
        have hsame : (liveIn ((((after calls).now.get j).call .reserve).1 :: onKind j (after calls).past)).card =
            liveAfter j calls := rfl
        have hgrown : (((after calls).now.get j).call .reserve).2.size = ((after calls).now.get j).size + 1 := rfl
        have hone : [(j, Call.reserve)].count (j, .reserve) = 1 := by simp
        omega
      · have hgrown := htracks.size_call c hc
        have hnone : [(j, c)].count (j, .reserve) = 0 := by simp [hc]
        omega
    · have hnone : [(j, c)].count (k, .reserve) = 0 := by simp [hj]
      simp only [hj, if_false]
      rw [liveAfter] at hle
      omega

end SlotCode
