/-
  SlotCode.Host.World — what changes outside the registers.

  The world holds the heap, the values of the static fields and the record of native
  calls. It also keeps a directory of names under which a host shows objects: a new
  binding of a name hides the older one, while an object keeps the name it was given.
  Objects that natives make are entered as `#0`, `#1` and so on.
-/

import SlotCode.Heap.ClassTable

namespace SlotCode

/-- A native call as it was made. -/
structure NativeCall where
  function : FunctionId
  /-- Owner and name, joined. -/
  name : String
  args : List Value
  deriving DecidableEq, Repr

structure World where
  heap : Heap := {}
  statics : Array Value := #[]
  /-- The native calls so far, in order. -/
  calls : Array NativeCall := #[]
  /-- The named objects, newest first. -/
  names : List (String × Ref) := []
  /-- How many objects natives have entered in the directory. -/
  made : Nat := 0
  deriving Repr

namespace World

def alloc (w : World) (o : Object) : Ref × World :=
  let (r, heap) := w.heap.alloc o
  (r, { w with heap })

def store (w : World) (r : Ref) (o : Object) : World := { w with heap := w.heap.set r o }

def setStatic (w : World) (id : StaticId) (v : Value) : Except Missing World :=
  if id < w.statics.size then .ok { w with statics := w.statics.setIfInBounds id v } else .error (.staticField id)

/-- Writes a field of an instance, whatever kind of value it held. -/
def setField (w : World) (r : Ref) (index : Nat) (v : Value) : Except Missing World :=
  match w.heap.get r with
  | .record classId fields =>
    if index < fields.size then .ok (w.store r (.record classId (fields.setIfInBounds index v)))
    else .error (.field index)
  | _ => .error (.field index)

/-- Writes an element of an array, if the array takes the value there. -/
def setElement? (w : World) (r : Ref) (index : Nat) (v : Value) : Option World :=
  match w.heap.get r with
  | .array elements => (elements.set? index v).map fun elements => w.store r (.array elements)
  | _ => none

/-! ## The directory -/

def named? (w : World) (name : String) : Option Ref := w.names.lookup name

def nameOf? (w : World) (r : Ref) : Option String := (w.names.find? (·.2 == r)).map (·.1)

/-- A new object under a name. -/
def allocNamed (w : World) (name : String) (o : Object) : Ref × World :=
  let (r, w) := w.alloc o
  (r, { w with names := (name, r) :: w.names })

/-- A new object under the next number. -/
def make (w : World) (o : Object) : Value × World :=
  let (r, w) := w.allocNamed ("#" ++ w.made.repr) o
  (.ref (some r), { w with made := w.made + 1 })

/-- The newest object under each name, oldest name first. -/
def directory (w : World) : List (String × Object) :=
  (w.names.foldl (fun seen (name, r) => if seen.any (·.1 == name) then seen else (name, w.heap.get r) :: seen) [])

end World

/-- A value as a host writes it down: a text is a new object each time it is read, a name means the
    newest object of that name. -/
inductive Literal where
  | value (v : Value)
  | text (s : String)
  | named (name : String)
  deriving DecidableEq, Repr

/-- A name that nothing has reads as null. -/
def Literal.read (l : Literal) (w : World) : Value × World :=
  match l with
  | .value v => (v, w)
  | .text s =>
    let (r, w) := w.alloc (.text s)
    (.ref (some r), w)
  | .named name => (.ref (w.named? name), w)

end SlotCode
