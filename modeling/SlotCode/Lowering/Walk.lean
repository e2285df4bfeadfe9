/-
  SlotCode.Lowering.Walk — how a node asks for its children.

  A node does not recurse itself. It is handed a `Walk`: the two ways to lower another
  node, for its value or effect (`build`) and for branching (`condition`). What is written
  here and in the modules on control, operators and access is therefore about one node.

  A consumer may name a slot that it would like the value in; only a node with no other
  consumer takes it. A conditional may offer the tail of its condition to the arm that
  follows: an exit that is the next thing to be emitted turns that tail into its own jump.
-/

import SlotCode.Lowering.State

namespace SlotCode.Lowering

/-- The tail of a condition, waiting at `position` for an exit to take it. -/
structure Offer where
  position : Nat
  branch : Branch
  /-- The exit is taken when the condition equals this. -/
  polarity : Bool
  deriving DecidableEq, Repr

/-- What lowering a node gives. -/
structure Visited where
  slot : Option TypedSlot := none
  /-- Whether the offered tail was taken. -/
  taken : Bool := false
  deriving DecidableEq, Repr

structure Walk where
  /-- Lowers a node, if that has not been done, and gives the slot of its value. -/
  build : NodeId → Usage → Option TypedSlot → Option Offer → Lower Visited
  /-- Lowers a boolean node for branching. -/
  condition : NodeId → Lower Branch

namespace Walk

/-- Lowers a node for its effects. -/
def effect (w : Walk) (id : NodeId) (offer : Option Offer := none) : Lower Bool :=
  return (← w.build id .ignore none offer).taken

/-- Lowers a node for its value, into the hinted slot if that suits it. The reader says `release` after
    the last instruction that reads the slot. -/
def value (w : Walk) (id : NodeId) (hint : Option TypedSlot) (offer : Option Offer) : Lower (TypedSlot × Bool) := do
  alloc id
  let v ← w.build id .value hint offer
  match v.slot with
  | some slot => return (slot, v.taken)
  | none => defect (.noValueSlot id)

def operand (w : Walk) (id : NodeId) : Lower TypedSlot := return (← w.value id none none).1

/-- Lowers a node so that its value ends up in `target`. -/
def valueInto (w : Walk) (ctx : Context) (id : NodeId) (target : TypedSlot) (offer : Option Offer) : Lower Bool := do
  match ctx.function.kind? id with
  | none => w.effect id offer
  | some kind =>
    if kind ≠ target.kind then throw (.typeMismatch id (.stored kind target.kind))
    else
      let (slot, taken) ← w.value id (some target) offer
      if slot ≠ target then emit (.move kind target.slot slot.slot)
      release id
      return taken

/-- Lowers a node whose value, if anyone reads it, is that of its parent. -/
def forward (w : Walk) (ctx : Context) (id : NodeId) (target : Option TypedSlot) (offer : Option Offer) :
    Lower Bool :=
  match target with
  | some target => w.valueInto ctx id target offer
  | none => w.effect id offer

end Walk

end SlotCode.Lowering
