/-
  SlotCode.Lowering.Operator — constants and operators.

  A pure operator whose value nobody reads emits nothing of its own; only its operands
  run. Operands are released before the result gets its slot, the last one first, so the
  result most often lands where the first operand was.
-/

import SlotCode.Lowering.Condition

namespace SlotCode

/-- The instruction of a unary operator. -/
def UnaryOp.instruction (r a : Slot) : UnaryOp → Instruction
  | .not => .not r a
  | .invert w => .inv w.kind r a
  | .negate w => .neg w.kind r a
  | .negateFloat p => .neg p.kind r a
  | .convert c => .convert c r a
  | .arrayLength => .arrayLength r a
  | .nullCheck => .nullCheck r a

/-- How a binary operator is lowered: by an instruction on both values, or by branches. -/
inductive BinaryForm where
  | instruction (make : Slot → Slot → Slot → Instruction)
  | shortCircuit (decisive : Bool)

def BinaryOp.form : BinaryOp → BinaryForm
  | .arith w op => .instruction (.arith w op)
  | .real p op => .instruction (.real p op)
  | .orderLong => .instruction (.order .long)
  | .orderFloat p => .instruction (.order p.kind)
  | .test op => .instruction (.test op)
  | .refEq => .instruction (.same .eq)
  | .refNe => .instruction (.same .ne)
  | .and => .shortCircuit false
  | .or => .shortCircuit true

namespace Lowering

/-- Emits `make r` if the value is read. -/
def constant (ctx : Context) (id : NodeId) (hint : Option TypedSlot) (make : Slot → Instruction) :
    Lower Visited := do
  match ← ctx.demandedSlot id hint with
  | none => return {}
  | some r =>
    emit (make r.slot)
    return { slot := some r }

def text (ctx : Context) (id : NodeId) (value : String) (hint : Option TypedSlot) : Lower Visited := do
  if ← isDemanded id then
    let index ← intern value
    constant ctx id hint (.text · index)
  else return {}

def nullary (ctx : Context) (id : NodeId) (hint : Option TypedSlot) : NullaryOp → Lower Visited
  | .void => return {}
  | .null => constant ctx id hint .null
  | .unreachable => do
    emit .unreachable
    return {}

/-- The check happens also when nobody reads the result. -/
def nullCheck (ctx : Context) (w : Walk) (id operand : NodeId) (hint : Option TypedSlot) : Lower Visited := do
  let a ← w.operand operand
  release operand
  let r ← ctx.demandedSlot id hint
  emit (.nullCheck (r.getD a).slot a.slot)
  return { slot := r }

/-- Emits `make r a` on the value of one operand, or only runs the operand. -/
def onOperand (ctx : Context) (w : Walk) (id operand : NodeId) (hint : Option TypedSlot)
    (make : TypedSlot → Slot → Instruction) : Lower Visited := do
  if ← isDemanded id then
    let a ← w.operand operand
    release operand
    let r ← ctx.resultSlot id hint
    emit (make r a.slot)
    return { slot := some r }
  else
    let _ ← w.effect operand
    return {}

/-- Emits `make r a b` on the values of two operands, or only runs the operands. -/
def onOperands (ctx : Context) (w : Walk) (id first second : NodeId) (hint : Option TypedSlot)
    (make : TypedSlot → Slot → Slot → Instruction) : Lower Visited := do
  if ← isDemanded id then
    let a ← w.operand first
    let b ← w.operand second
    release second
    release first
    let r ← ctx.resultSlot id hint
    emit (make r a.slot b.slot)
    return { slot := some r }
  else
    let _ ← w.effect first
    let _ ← w.effect second
    return {}

def unary (ctx : Context) (w : Walk) (id : NodeId) (op : UnaryOp) (operand : NodeId) (hint : Option TypedSlot) :
    Lower Visited := do
  ctx.expectType operand op.operandType
  match op with
  | .nullCheck => nullCheck ctx w id operand hint
  | _ => onOperand ctx w id operand hint fun r a => op.instruction r.slot a

/-- A short-circuit operator read as a value: one on the true path, zero on the false one. -/
def logicalValue (ctx : Context) (w : Walk) (id : NodeId) (c : Connective) (hint : Option TypedSlot) :
    Lower Visited := do
  let b ← compose w c
  if ← isDemanded id then
    let whenFalse ← drafting (b.defer false)
    let r ← ctx.resultSlot id hint
    emit (.const r.slot (.int 1))
    let skip ← gotoPending
    drafting (Drafting.patchAll whenFalse (.address (← label)))
    emit (.const r.slot (.int 0))
    drafting (Drafting.patch skip (.address (← label)))
    return { slot := some r }
  else
    drafting (b.resolve true (.address (← label)))
    return {}

def binary (ctx : Context) (w : Walk) (id : NodeId) (op : BinaryOp) (first second : NodeId)
    (hint : Option TypedSlot) : Lower Visited := do
  match op.form with
  | .instruction make =>
    ctx.expectType first op.firstType
    ctx.expectType second op.secondType
    onOperands ctx w id first second hint fun r => make r.slot
  | .shortCircuit decisive => logicalValue ctx w id (.shortCircuit decisive first second) hint

end Lowering

end SlotCode
