/-
  SlotCode.Slot.Pool — the slots handed out while code is generated.

  Each partition grows by one slot at a time. A reserved slot is never given back; an
  acquired one is live until it is released, and the slot released last is handed out
  first. A release of a slot that is not live fails and changes nothing.
-/

import SlotCode.Slot

namespace SlotCode

/-- The slots of one kind: which are live, the free ones, last released first, and how many there are. -/
structure Partition where
  free : List Slot := []
  /-- One flag for each slot handed out so far. -/
  live : Array Bool := #[]
  /-- How many slots were handed out so far. -/
  size : Nat := 0
  /-- The count keeps step with the flags. -/
  counted : live.size = size := by rfl
  deriving DecidableEq, Repr

namespace Partition

def isLive (p : Partition) (s : Slot) : Bool := p.live.getD s false

def liveCount (p : Partition) : Nat := p.live.toList.count true

/-- One more slot, not live. -/
def extend (p : Partition) : Slot × Partition :=
  (p.size, { p with live := p.live.push false, size := p.size + 1, counted := by rw [Array.size_push, p.counted] })

/-- Marks a slot as live or not. -/
def mark (p : Partition) (s : Slot) (b : Bool) : Partition :=
  { p with live := p.live.setIfInBounds s b, counted := by rw [Array.size_setIfInBounds, p.counted] }

/-- A slot that never becomes free. -/
def reserve (p : Partition) : Slot × Partition := p.extend

/-- A slot that was released, or one more. -/
def acquire (p : Partition) : Slot × Partition :=
  let (s, q) := match p.free with
    | s :: rest => (s, { p with free := rest })
    | [] => p.extend
  (s, q.mark s true)

/-- `none` when the slot is not live. -/
def release? (p : Partition) (s : Slot) : Option Partition :=
  if p.isLive s then some { p.mark s false with free := s :: p.free } else none

end Partition

/-- The partitions of a function under construction. -/
abbrev Pool := PerKind Partition

namespace Pool

/-- The slot was released while not live. -/
structure Error where
  kind : Kind
  slot : Slot
  deriving DecidableEq, Repr

def Error.message (e : Error) : String := s!"{e.kind.name} slot {e.slot.text} released while not live"

def empty : Pool := PerKind.replicate {}

def reserve (p : Pool) (k : Kind) : Slot × Pool :=
  let (s, q) := (p.get k).reserve
  (s, p.set k q)

def acquire (p : Pool) (k : Kind) : Slot × Pool :=
  let (s, q) := (p.get k).acquire
  (s, p.set k q)

def release (p : Pool) (k : Kind) (s : Slot) : Except Error Pool :=
  match (p.get k).release? s with
  | some q => .ok (p.set k q)
  | none => .error ⟨k, s⟩

/-- The acquired slots not yet released, over all kinds. -/
def liveCount (p : Pool) : Nat := SlotCounts.total (PerKind.map Partition.liveCount p)

/-- The number of registers that the slots handed out so far need. -/
def counts (p : Pool) : SlotCounts := PerKind.map Partition.size p

end Pool

end SlotCode
