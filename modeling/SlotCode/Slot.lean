/-
  SlotCode.Slot — register slots and the five partitions they live in.

  A register is named by its partition (`Kind`) and its number in that partition. The
  partition of an operand is fixed by the instruction that uses it, so most places hold
  a bare number (`Slot`); a `TypedSlot` carries its partition along. `PerKind` is a table
  with one entry for each partition; an update at one kind leaves the others alone.

  Slot numbers and slot counts have no end here. Registers are numbered with 32 bits, so
  what is said of slots is said of functions that need at most 2^32 of each kind.
-/

namespace SlotCode

/-- A register partition. Narrow integral values share `int`; every reference is in `object`. -/
inductive Kind where
  | int
  | long
  | float
  | double
  | object
  deriving DecidableEq, Repr

namespace Kind

def all : List Kind := [.int, .long, .float, .double, .object]

/-- The position of a kind in `Kind.all`. -/
def index : Kind → Nat
  | .int => 0
  | .long => 1
  | .float => 2
  | .double => 3
  | .object => 4

/-- The letter in front of a slot number: `i0`, `o3`. -/
def letter : Kind → Char
  | .int => 'i'
  | .long => 'l'
  | .float => 'f'
  | .double => 'd'
  | .object => 'o'

def name : Kind → String
  | .int => "Int"
  | .long => "Long"
  | .float => "Float"
  | .double => "Double"
  | .object => "Object"

end Kind

/-- The number of a register in its partition. -/
abbrev Slot := Nat

/-- A slot as messages show it: `#3`. -/
def Slot.text (s : Slot) : String := "#" ++ s.repr

structure TypedSlot where
  kind : Kind
  slot : Slot
  deriving DecidableEq, Repr

/-- A typed slot as listings show it: `i0`. -/
def TypedSlot.text (s : TypedSlot) : String := s.kind.letter.toString ++ s.slot.repr

/-! ## One entry for each kind -/

structure PerKind (α : Type) where
  int : α
  long : α
  float : α
  double : α
  object : α
  deriving DecidableEq, Repr

namespace PerKind

variable {α : Type}

def replicate (a : α) : PerKind α := ⟨a, a, a, a, a⟩

def get (t : PerKind α) : Kind → α
  | .int => t.int
  | .long => t.long
  | .float => t.float
  | .double => t.double
  | .object => t.object

def set (t : PerKind α) (k : Kind) (a : α) : PerKind α :=
  match k with
  | .int => { t with int := a }
  | .long => { t with long := a }
  | .float => { t with float := a }
  | .double => { t with double := a }
  | .object => { t with object := a }

def toList (t : PerKind α) : List α := [t.int, t.long, t.float, t.double, t.object]

def map {β : Type} (f : α → β) (t : PerKind α) : PerKind β :=
  ⟨f t.int, f t.long, f t.float, f t.double, f t.object⟩

@[simp] theorem get_set_self (t : PerKind α) (k : Kind) (a : α) : (t.set k a).get k = a := by
  cases k <;> rfl

theorem get_set_ne (t : PerKind α) {k j : Kind} (a : α) (h : j ≠ k) : (t.set k a).get j = t.get j := by
  cases k <;> cases j <;> simp_all [set, get]

@[simp] theorem get_map {β : Type} (f : α → β) (t : PerKind α) (k : Kind) : (t.map f).get k = f (t.get k) := by
  cases k <;> rfl

@[simp] theorem get_replicate (a : α) (k : Kind) : (replicate a).get k = a := by
  cases k <;> rfl

end PerKind

/-- How many registers each partition has. -/
abbrev SlotCounts := PerKind Nat

def SlotCounts.total (c : SlotCounts) : Nat := c.int + c.long + c.float + c.double + c.object

/-- The counts with one more register of kind `k`. -/
def SlotCounts.bump (c : SlotCounts) (k : Kind) : SlotCounts := c.set k (c.get k + 1)

end SlotCode
