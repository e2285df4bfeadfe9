/-
  SlotCode.Code.Program — code together with the tables it refers to.
-/

import SlotCode.Code.Instruction

namespace SlotCode

/-- The operands of one native call. -/
structure CallSite where
  function : FunctionId
  /-- The object slot of the receiver, for a call that has one. -/
  receiver : Option Slot
  args : List TypedSlot
  /-- Where the result goes, if someone reads it. -/
  result : Option TypedSlot
  deriving DecidableEq, Repr

structure Program where
  code : Array Instruction := #[]
  counts : SlotCounts := PerKind.replicate 0
  /-- The text constants. -/
  texts : Array String := #[]
  sites : Array CallSite := #[]
  /-- Where the caller puts the arguments, in the order of declaration. -/
  params : List TypedSlot := []
  vars : List TypedSlot := []
  /-- Where the value of the function is once the program has stopped. -/
  result : Option TypedSlot := none
  deriving DecidableEq, Repr

end SlotCode
