/-
  SlotCode.Heap.ClassTable — classes, their fields and their order.

  Classes are numbered in the order of definition and name their superclass by number; a
  name always means the class defined last under it. The lineage of a class is the class,
  its superclass and so on. Fields are laid out along the lineage, the oldest class first,
  so the layout of a class starts with that of its superclass. A superclass number that no
  class has is noticed only when the lineage is followed that far, and superclasses that go
  in a circle are never noticed: they are followed forever, which the bound on the loops
  below turns into an answer of its own (`Missing.root`).
-/

import SlotCode.Missing
import SlotCode.Newest
import SlotCode.Graph.ValueType
import SlotCode.Heap.Value

namespace SlotCode

structure ClassInfo where
  name : String
  superclass : Option ClassId
  /-- The fields that the class itself declares. -/
  fields : List (String × ValueType)
  deriving DecidableEq, Repr

abbrev ClassTable := Array ClassInfo

namespace ClassTable

/-- The root of all classes. An array is an instance of this class only. -/
def objectClass : ClassId := 0

def textClass : ClassId := 1

def initial : ClassTable := #[⟨"Object", none, []⟩, ⟨"String", some objectClass, []⟩]

/-- The class defined last under a name. -/
def find? (t : ClassTable) (name : String) : Option ClassId :=
  newest? (·.name == name) t.toList

def classInfo (t : ClassTable) (id : ClassId) : Except Missing ClassInfo :=
  match t[id]? with
  | some c => .ok c
  | none => .error (.classId id)

/-- Goes up from a class, through at most `n` classes, and lists them. -/
def lineageUpTo (t : ClassTable) : Nat → Option ClassId → Except Missing (List ClassId)
  | _, none => .ok []
  | 0, some id => .error (.root id)
  | n + 1, some id => do
    let c ← t.classInfo id
    return id :: (← t.lineageUpTo n c.superclass)

/-- The class, its superclass and so on. Whoever passes more classes than there are goes round. -/
def lineage (t : ClassTable) (id : ClassId) : Except Missing (List ClassId) := t.lineageUpTo (t.size + 1) (some id)

/-- Looks for `ancestor` on the way up from a class, among at most `n` classes. -/
def searchUpTo (t : ClassTable) (ancestor : ClassId) : Nat → Option ClassId → Except Missing Bool
  | _, none => .ok false
  | 0, some id => .error (.root id)
  | n + 1, some id =>
    if id = ancestor then .ok true
    else do t.searchUpTo ancestor n (← t.classInfo id).superclass

/-- Whether `id` is `ancestor` or inherits from it. -/
def isSubclass (t : ClassTable) (id ancestor : ClassId) : Except Missing Bool :=
  t.searchUpTo ancestor (t.size + 1) (some id)

def isInstance (t : ClassTable) (o : Object) (id : ClassId) : Except Missing Bool :=
  match o with
  | .text _ => t.isSubclass textClass id
  | .array _ => .ok (id == objectClass)
  | .record classId _ => t.isSubclass classId id

/-! ## Fields -/

/-- The fields of an instance, in order: those of the oldest class first. -/
def layout (t : ClassTable) (id : ClassId) : Except Missing (List (String × ValueType)) := do
  let classes ← (← t.lineage id).reverse.mapM t.classInfo
  return classes.flatMap (·.fields)

/-- A walk along fields: how many were passed, and the last one found with its position. -/
structure Sighting where
  passed : Nat := 0
  found : Option (Nat × ValueType) := none
  deriving DecidableEq, Repr

/-- Passes a field. Later declarations of the name hide earlier ones. -/
def Sighting.pass (name : String) (s : Sighting) (field : String × ValueType) : Sighting where
  passed := s.passed + 1
  found := if field.1 == name then some (s.passed, field.2) else s.found

/-- Where an instance of the named class has its field of the given name. The lineage is followed once more, and the
    fields are counted class by class, the oldest first. -/
def resolveField (t : ClassTable) (owner name : String) : Except Missing (Option (Nat × ValueType)) :=
  match t.find? owner with
  | none => .ok none
  | some id => do
    let seen ← (← t.lineage id).reverse.foldlM
      (fun seen id => return (← t.classInfo id).fields.foldl (Sighting.pass name) seen) {}
    return seen.found

/-- A new instance with every field zero. A field of a type without values holds null. -/
def instantiate (t : ClassTable) (id : ClassId) : Except Missing Object :=
  return .record id ((← t.layout id).map fun field => Value.zero (field.2.kind?.getD .object)).toArray

end ClassTable

end SlotCode
