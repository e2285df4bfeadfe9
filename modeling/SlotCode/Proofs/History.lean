/-
  SlotCode.Proofs.History — an object, the calls made on it and the answers it gave.

  `step` takes the object and a call to the answer and the object as it is afterwards. A
  history holds the object as it is now and all answers so far, so that what the object
  ought to be can be said in terms of what it answered.

  Proved: what holds at the start and is kept by every call holds after any calls
  (`run_keeps`), and a preorder that every call follows leads from any point of a history
  to any later one (`run_follows`).
-/

import Mathlib.Data.List.Induction

namespace SlotCode

/-- An object and its answers so far, the last one first. -/
structure History (σ α : Type) where
  now : σ
  past : List α := []

namespace History

variable {σ ι α : Type} (step : σ → ι → α × σ)

/-- One more call. -/
def next (h : History σ α) (call : ι) : History σ α := ⟨(step h.now call).2, (step h.now call).1 :: h.past⟩

/-- The calls in order, from an object that has answered nothing. -/
def run (start : σ) (calls : List ι) : History σ α := calls.foldl (next step) { now := start }

variable {step} {start : σ}

theorem run_snoc (calls : List ι) (call : ι) : run step start (calls ++ [call]) = (run step start calls).next step call := by
  simp [run]

theorem run_keeps {P : History σ α → Prop} (hstart : P { now := start }) (hnext : ∀ h call, P h → P (h.next step call))
    (calls : List ι) : P (run step start calls) := by
  induction calls using List.reverseRecOn with
  | nil => exact hstart
  | append_singleton calls call ih =>
    rw [run_snoc]
    exact hnext _ call ih

theorem run_follows {R : σ → σ → Prop} (hrefl : ∀ s, R s s) (htrans : ∀ {s t u}, R s t → R t u → R s u)
    (hnext : ∀ calls call, R (run step start calls).now (step (run step start calls).now call).2) (calls more : List ι) :
    R (run step start calls).now (run step start (calls ++ more)).now := by
  induction more using List.reverseRecOn with
  | nil => simpa using hrefl _
  | append_singleton more call ih =>
    rw [← List.append_assoc, run_snoc]
    exact htrans ih (hnext (calls ++ more) call)

end History

end SlotCode
