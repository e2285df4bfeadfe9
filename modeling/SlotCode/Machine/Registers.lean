/-
  SlotCode.Machine.Registers — the five register arrays.

  A register is read and written through its typed slot. Writing a value of another kind
  is refused before the slot is looked at; a slot outside its array is missing.
-/

import SlotCode.Missing
import SlotCode.Heap.Value

namespace SlotCode

open SlotCode.Arith

structure Registers where
  ints : Array Int32 := #[]
  longs : Array Int64 := #[]
  floats : Array Single := #[]
  doubles : Array Double := #[]
  refs : Array (Option Ref) := #[]
  deriving DecidableEq, Repr

namespace Registers

/-- The array with zeroes added up to a size. -/
def grown {α : Type} (a : Array α) (size : Nat) (zero : α) : Array α := a ++ Array.replicate (size - a.size) zero

/-- At least as many registers as the counts say. -/
def ensure (r : Registers) (c : SlotCounts) : Registers :=
  { ints := grown r.ints c.int 0
    longs := grown r.longs c.long 0
    floats := grown r.floats c.float .zero
    doubles := grown r.doubles c.double .zero
    refs := grown r.refs c.object none }

def new (c : SlotCounts) : Registers := ({} : Registers).ensure c

/-- Every register zero, as many as before. -/
def reset (r : Registers) : Registers :=
  { ints := .replicate r.ints.size 0
    longs := .replicate r.longs.size 0
    floats := .replicate r.floats.size .zero
    doubles := .replicate r.doubles.size .zero
    refs := .replicate r.refs.size none }

/-! ## Reading -/

def get? (r : Registers) (s : TypedSlot) : Option Value :=
  match s.kind with
  | .int => r.ints[s.slot]?.map .int
  | .long => r.longs[s.slot]?.map .long
  | .float => r.floats[s.slot]?.map .float
  | .double => r.doubles[s.slot]?.map .double
  | .object => r.refs[s.slot]?.map .ref

/-- What an array holds at a slot of its kind. -/
def found {α : Type} (kind : Kind) (slot : Slot) (a : Option α) : Except Missing α :=
  match a with
  | some a => .ok a
  | none => .error (.register ⟨kind, slot⟩)

def get (r : Registers) (s : TypedSlot) : Except Missing Value := found s.kind s.slot (r.get? s)

def int (r : Registers) (s : Slot) : Except Missing Int32 := found .int s r.ints[s]?

def long (r : Registers) (s : Slot) : Except Missing Int64 := found .long s r.longs[s]?

def float (r : Registers) (s : Slot) : Except Missing Single := found .float s r.floats[s]?

def double (r : Registers) (s : Slot) : Except Missing Double := found .double s r.doubles[s]?

def ref (r : Registers) (s : Slot) : Except Missing (Option Ref) := found .object s r.refs[s]?

/-! ## Writing -/

/-- Whether the partition of the kind has the slot. -/
def has (r : Registers) (s : TypedSlot) : Bool := (r.get? s).isSome

/-- Writes a value into a slot of its own partition. -/
def put (r : Registers) (s : Slot) (v : Value) : Registers :=
  match v with
  | .int v => { r with ints := r.ints.setIfInBounds s v }
  | .long v => { r with longs := r.longs.setIfInBounds s v }
  | .float v => { r with floats := r.floats.setIfInBounds s v }
  | .double v => { r with doubles := r.doubles.setIfInBounds s v }
  | .ref v => { r with refs := r.refs.setIfInBounds s v }

/-- `none` when the value is of another kind than the slot. -/
def set (r : Registers) (s : TypedSlot) (v : Value) : Except Missing (Option Registers) :=
  if v.kind ≠ s.kind then .ok none
  else if r.has s then .ok (some (r.put s.slot v))
  else .error (.register s)

end Registers

end SlotCode
