/-
  SlotCode.Heap.Value — values, objects and the heap.

  An object is known by its reference, and two references are the same object exactly
  when they are equal. Texts never change; arrays and instances do. An array holds the
  elements of one partition, and a value of another kind cannot be stored in it.
-/

import SlotCode.Arith.Operation
import SlotCode.Code.Instruction
import SlotCode.Text.Quoted

namespace SlotCode

open SlotCode.Arith

/-- The position of an object in the heap. -/
abbrev Ref := Nat

inductive Value where
  | int (v : Int32)
  | long (v : Int64)
  | float (v : Single)
  | double (v : Double)
  /-- A reference, or null. -/
  | ref (r : Option Ref)
  deriving DecidableEq, Repr, Inhabited

namespace Value

def kind : Value → Kind
  | .int _ => .int
  | .long _ => .long
  | .float _ => .float
  | .double _ => .double
  | .ref _ => .object

/-- What registers, fields and array elements hold at first. -/
def zero : Kind → Value
  | .int => .int 0
  | .long => .long 0
  | .float => .float .zero
  | .double => .double .zero
  | .object => .ref none

def null : Value := .ref none

def ofBool (b : Bool) : Value := .int (if b then 1 else 0)

def ofScalar : Scalar → Value
  | .int v => .int v
  | .long v => .long v
  | .float v => .float v
  | .double v => .double v

def scalar? : Value → Option Scalar
  | .int v => some (.int v)
  | .long v => some (.long v)
  | .float v => some (.float v)
  | .double v => some (.double v)
  | .ref _ => none

@[simp] theorem kind_zero (k : Kind) : (zero k).kind = k := by cases k <;> rfl

@[simp] theorem kind_ofScalar (s : Scalar) : (ofScalar s).kind = s.kind := by cases s <;> rfl

end Value

/-! ## Array elements -/

/-- The elements of an array. Narrow integral elements are stored as ints. -/
inductive Elements where
  | ints (items : Array Int32)
  | longs (items : Array Int64)
  | floats (items : Array Single)
  | doubles (items : Array Double)
  | refs (items : Array (Option Ref))
  deriving DecidableEq, Repr

namespace Elements

def new (k : Kind) (length : Nat) : Elements :=
  match k with
  | .int => .ints (.replicate length 0)
  | .long => .longs (.replicate length 0)
  | .float => .floats (.replicate length .zero)
  | .double => .doubles (.replicate length .zero)
  | .object => .refs (.replicate length none)

def kind : Elements → Kind
  | .ints _ => .int
  | .longs _ => .long
  | .floats _ => .float
  | .doubles _ => .double
  | .refs _ => .object

def size : Elements → Nat
  | .ints items => items.size
  | .longs items => items.size
  | .floats items => items.size
  | .doubles items => items.size
  | .refs items => items.size

def get? (e : Elements) (i : Nat) : Option Value :=
  match e with
  | .ints items => items[i]?.map .int
  | .longs items => items[i]?.map .long
  | .floats items => items[i]?.map .float
  | .doubles items => items[i]?.map .double
  | .refs items => items[i]?.map .ref

/-- `none` when the position is outside the array or the value is of another kind. -/
def set? (e : Elements) (i : Nat) (v : Value) : Option Elements :=
  if i < e.size then
    match e, v with
    | .ints items, .int v => some (.ints (items.setIfInBounds i v))
    | .longs items, .long v => some (.longs (items.setIfInBounds i v))
    | .floats items, .float v => some (.floats (items.setIfInBounds i v))
    | .doubles items, .double v => some (.doubles (items.setIfInBounds i v))
    | .refs items, .ref v => some (.refs (items.setIfInBounds i v))
    | _, _ => none
  else none

def toList (e : Elements) : List Value :=
  match e with
  | .ints items => items.toList.map .int
  | .longs items => items.toList.map .long
  | .floats items => items.toList.map .float
  | .doubles items => items.toList.map .double
  | .refs items => items.toList.map .ref

end Elements

/-! ## Objects -/

inductive Object where
  | text (s : String)
  | array (elements : Elements)
  | record (classId : ClassId) (fields : Array Value)
  deriving DecidableEq, Repr

structure Heap where
  cells : Array Object := #[]
  deriving DecidableEq, Repr

namespace Heap

/-- A reference that was never handed out reads as the empty text. -/
def get (h : Heap) (r : Ref) : Object := h.cells.getD r (.text "")

def set (h : Heap) (r : Ref) (o : Object) : Heap := ⟨h.cells.setIfInBounds r o⟩

/-- Every allocation is a new object, whatever it holds. -/
def alloc (h : Heap) (o : Object) : Ref × Heap := (h.cells.size, ⟨h.cells.push o⟩)

/-- The text, if the value refers to one. -/
def text? (h : Heap) : Value → Option String
  | .ref (some r) =>
    match h.get r with
    | .text s => some s
    | _ => none
  | _ => none

/-- A value in words: longs end in `L`, floats in `f`, and of arrays and instances only the outside shows. -/
def describe (h : Heap) : Value → String
  | .int v => toString v.toInt
  | .long v => toString v.toInt ++ "L"
  | .float v => Text.NumberStyle.plain.single v ++ "f"
  | .double v => Text.NumberStyle.plain.double v
  | .ref none => "null"
  | .ref (some r) =>
    match h.get r with
    | .text s => Text.quoted s
    | .array elements => elements.kind.name ++ "[" ++ elements.size.repr ++ "]"
    | .record classId _ => "<instance of class " ++ classId.repr ++ ">"

end Heap

end SlotCode
