/-
  SlotCode.Code.Branch — conditions whose consumer has not decided yet which way to jump.

  A condition that only steers control is not computed into a register. It leaves a
  `Branch`: the open jumps taken when it is true, those taken when it is false, and one
  reserved position right after its last operand, the tail. The consumer asks for a
  polarity; then the tail becomes a jump taken on that polarity, and every open jump of
  the other polarity goes to the position after the tail, where control falls through.
  Negation only swaps the two sides.
-/

import SlotCode.Code.Draft

namespace SlotCode

/-- The reserved jump that ends a condition. -/
structure Tail where
  position : Nat
  cond : Slot
  negated : Bool
  deriving DecidableEq, Repr

structure Branch where
  whenTrue : List Patch
  whenFalse : List Patch
  tail : Tail
  /-- The position right after the tail. -/
  fallThrough : Nat
  deriving DecidableEq, Repr

namespace Branch

/-- Branches on a value already computed. -/
def onSlot (cond : Slot) : Drafting Branch := do
  let position ← Drafting.reserve
  return ⟨[], [], ⟨position, cond, false⟩, ← Drafting.label⟩

def negate (b : Branch) : Branch :=
  { b with whenTrue := b.whenFalse, whenFalse := b.whenTrue, tail := { b.tail with negated := !b.tail.negated } }

/-- Adds open jumps taken when the condition equals `polarity`. -/
def addSites (b : Branch) (polarity : Bool) (sites : List Patch) : Branch :=
  if polarity then { b with whenTrue := b.whenTrue ++ sites } else { b with whenFalse := b.whenFalse ++ sites }

/-- Control leaves when the condition equals `polarity` and falls through otherwise. Gives the open
    jumps that still need to know where to. -/
def defer (b : Branch) (polarity : Bool) : Drafting (List Patch) := do
  let tail ← Drafting.fillJump b.tail.position (.jumpIf (polarity != b.tail.negated) b.tail.cond .pending)
  let (leaving, staying) := if polarity then (b.whenTrue, b.whenFalse) else (b.whenFalse, b.whenTrue)
  Drafting.patchAll staying (.address b.fallThrough)
  return leaving ++ [tail]

/-- As `defer`, to a known target. -/
def resolve (b : Branch) (polarity : Bool) (target : Label) : Drafting Unit := do
  Drafting.patchAll (← b.defer polarity) target

end Branch

end SlotCode
