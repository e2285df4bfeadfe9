/-
  SlotCode.Missing — references to table entries that do not exist.

  Nodes, registers, classes, native functions and static fields are named by number. An
  operation handed a number outside its table answers with one of these, which says
  which table and which number; it is never one of the errors that carry a text.

  Superclasses may go in a circle. Whoever follows them there never comes to a root and
  never comes back; `root` stands for that.
-/

import SlotCode.Slot

namespace SlotCode

inductive Missing where
  | node (id : Nat)
  | parameter (index : Nat)
  | localVariable (index : Nat)
  | register (slot : TypedSlot)
  | classId (id : Nat)
  | function (id : Nat)
  | staticField (id : Nat)
  | field (index : Nat)
  /-- The superclasses of the class go round, so that following them never ends. -/
  | root (id : Nat)
  deriving DecidableEq, Repr

end SlotCode
