/-
  SlotCode.Newest — tables in which a later entry hides the earlier ones of its name.
-/

namespace SlotCode

/-- The position of the last element that passes. -/
def newest? {α : Type} (p : α → Bool) : List α → Option Nat
  | [] => none
  | x :: xs =>
    match newest? p xs with
    | some i => some (i + 1)
    | none => if p x then some 0 else none

end SlotCode
