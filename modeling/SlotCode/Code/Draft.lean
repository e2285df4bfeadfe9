/-
  SlotCode.Code.Draft — code under construction.

  Instructions are only appended. A position may be reserved and filled once later, and a
  jump may be appended with its target open and patched once later; nothing else changes
  what stands at a position. A single edit that fails changes nothing. Finished code has
  no reserved position and no open jump.
-/

import SlotCode.Code.Instruction

namespace SlotCode

structure Draft where
  code : Array Instruction := #[]
  /-- The positions reserved and not filled yet. -/
  reserved : List Nat := []
  deriving DecidableEq, Repr

/-- The position of a jump whose target is open. -/
structure Patch where
  position : Nat
  deriving DecidableEq, Repr

namespace Draft

inductive Error where
  | notReserved (position : Nat)
  | notAJump (position : Nat)
  | patchedTwice (position : Nat)
  | notPending (position : Nat) (instruction : Instruction)
  deriving DecidableEq, Repr

def Error.message : Error → String
  | .notReserved position => s!"instruction @{position} was not reserved"
  | .notAJump position => s!"jump patch points at non-jump @{position}"
  | .patchedTwice position => s!"jump @{position} patched twice"
  | .notPending position instruction => s!"expected a pending jump for @{position}, got {instruction.describe}"

/-- Why code is not finished. -/
inductive Unfinished where
  | unfilled (position : Nat)
  | dangling (position : Nat)
  deriving DecidableEq, Repr

/-- The position of the next instruction. -/
def label (d : Draft) : Nat := d.code.size

def add (d : Draft) (i : Instruction) : Draft := { d with code := d.code.push i }

def isPendingJump (i : Instruction) : Bool := i.target? == some .pending

/-- Appends a jump whose target is open. -/
def addJump (d : Draft) (jump : Instruction) : Except Error (Patch × Draft) :=
  if isPendingJump jump then .ok (⟨d.label⟩, d.add jump) else .error (.notPending d.label jump)

/-- Appends a position to be filled later. -/
def reserve (d : Draft) : Nat × Draft := (d.label, ⟨d.code.push .nop, d.label :: d.reserved⟩)

def fill (d : Draft) (position : Nat) (i : Instruction) : Except Error Draft :=
  if position ∈ d.reserved then .ok ⟨d.code.setIfInBounds position i, d.reserved.erase position⟩
  else .error (.notReserved position)

/-- Fills a reserved position with a jump whose target is open. -/
def fillJump (d : Draft) (position : Nat) (jump : Instruction) : Except Error (Patch × Draft) :=
  if isPendingJump jump then (d.fill position jump).map (⟨position⟩, ·) else .error (.notPending position jump)

/-- Gives an open jump its target. -/
def patch (d : Draft) (p : Patch) (target : Label) : Except Error Draft :=
  match d.code[p.position]? with
  | none => .error (.notAJump p.position)
  | some i =>
    match i.target? with
    | none => .error (.notAJump p.position)
    | some .pending => .ok { d with code := d.code.setIfInBounds p.position (i.retarget target) }
    | some (.address _) => .error (.patchedTwice p.position)

/-- The code, when every reservation is filled and every jump has its target. -/
def finish (d : Draft) : Except Unfinished (Array Instruction) :=
  match d.reserved.min? with
  | some position => .error (.unfilled position)
  | none =>
    match d.code.findIdx? isPendingJump with
    | some position => .error (.dangling position)
    | none => .ok d.code

end Draft

/-! ## Several edits in a row -/

/-- A run of edits. One that fails keeps the edits made before the failure. -/
abbrev Drafting := EStateM Draft.Error Draft

namespace Drafting

def label : Drafting Nat := return (← get).label

def add (i : Instruction) : Drafting Unit := modify (·.add i)

/-- An edit that hands something out. -/
def edit {α : Type} (f : Draft → Except Draft.Error (α × Draft)) : Drafting α := fun d =>
  match f d with
  | .ok (a, d) => .ok a d
  | .error e => .error e d

def addJump (jump : Instruction) : Drafting Patch := edit (·.addJump jump)

def reserve : Drafting Nat := modifyGet (·.reserve)

def fill (position : Nat) (i : Instruction) : Drafting Unit := edit fun d => (d.fill position i).map ((), ·)

def fillJump (position : Nat) (jump : Instruction) : Drafting Patch := edit (·.fillJump position jump)

def patch (p : Patch) (target : Label) : Drafting Unit := edit fun d => (d.patch p target).map ((), ·)

/-- Patches in order, up to the first failure. -/
def patchAll (ps : List Patch) (target : Label) : Drafting Unit := ps.forM (patch · target)

end Drafting

end SlotCode
