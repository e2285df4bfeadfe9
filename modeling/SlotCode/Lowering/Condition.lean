/-
  SlotCode.Lowering.Condition — booleans that steer control.

  Negation, conjunction and disjunction with one consumer put the branches of their
  operands together and never compute a value. Any other boolean is computed into a slot
  and branched on.
-/

import SlotCode.Lowering.Walk

namespace SlotCode

/-- A boolean operator on branches. -/
inductive Connective where
  | not (operand : NodeId)
  /-- When the first operand equals `decisive`, so does the whole, and the second does not run. -/
  | shortCircuit (decisive : Bool) (first second : NodeId)
  deriving DecidableEq, Repr

def Expr.connective? : Expr → Option Connective
  | .unary .not operand => some (.not operand)
  | .binary .and first second => some (.shortCircuit false first second)
  | .binary .or first second => some (.shortCircuit true first second)
  | _ => none

namespace Lowering

/-- Puts the branches of the operands together. -/
def compose (w : Walk) : Connective → Lower Branch
  | .not operand => return (← w.condition operand).negate
  | .shortCircuit decisive first second => do
    let decided ← drafting ((← w.condition first).defer decisive)
    let rest ← inRegion (w.condition second)
    return rest.addSites decisive decided

/-- Branches on the value of a node. -/
def branchOn (w : Walk) (id : NodeId) : Lower Branch := do
  let slot ← w.operand id
  let b ← drafting (Branch.onSlot slot.slot)
  release id
  return b

/-- The connective of a node that may be lowered by its operands' branches alone. -/
def Context.composable? (ctx : Context) (id : NodeId) : Lower (Option Connective) := do
  let e := (← ctx.node id).expr
  if (← get).demand.total id = 1 ∧ (← nodeState id).progress = .untouched then return e.connective? else return none

end Lowering

end SlotCode
