/-
  SlotCode.Graph.ValueType — the types of nodes.

  Every type but two has values, and these live in one register partition. `void` is the
  type of what runs for its effect; `unreachable` that of what never completes normally.
-/

import SlotCode.Slot

namespace SlotCode

inductive ValueType where
  | boolean
  | byte
  | short
  | char
  | int
  | long
  | float
  | double
  | object
  | void
  | unreachable
  deriving DecidableEq, Repr

namespace ValueType

def all : List ValueType :=
  [.boolean, .byte, .short, .char, .int, .long, .float, .double, .object, .void, .unreachable]

/-- The partition that holds values of the type, if it has values. -/
def kind? : ValueType → Option Kind
  | .boolean | .byte | .short | .char | .int => some .int
  | .long => some .long
  | .float => some .float
  | .double => some .double
  | .object => some .object
  | .void | .unreachable => none

def name : ValueType → String
  | .boolean => "Boolean"
  | .byte => "Byte"
  | .short => "Short"
  | .char => "Char"
  | .int => "Int"
  | .long => "Long"
  | .float => "Float"
  | .double => "Double"
  | .object => "Object"
  | .void => "Void"
  | .unreachable => "Unreachable"

end ValueType

end SlotCode
