/-
  SlotCode.Graph.Typing — the types that expressions give their nodes.

  Most expressions fix the type of their node: an operator by its signature, a read by
  the declaration, a sequence by its second part. A block and an array element leave the
  type open, and so does what has no code.
-/

import SlotCode.Missing
import SlotCode.Graph.Node

namespace SlotCode

/-- The types that an expression can refer to. -/
structure Scope where
  param : ParamId → Option ValueType
  var : VarId → Option ValueType
  node : NodeId → Option ValueType

def Function.scope (f : Function) : Scope :=
  ⟨(f.params[·]?), (f.locals[·]?), fun id => (f.node? id).map (·.type)⟩

namespace Scope

def typeOf (s : Scope) (id : NodeId) : Except Missing ValueType :=
  match s.node id with
  | some t => .ok t
  | none => .error (.node id)

/-- A conditional has the type of its first arm, unless that arm never completes. -/
def typeOfArms (s : Scope) (thenArm elseArm : NodeId) : Except Missing ValueType := do
  let t ← s.typeOf thenArm
  if t = .unreachable then s.typeOf elseArm else return t

end Scope

/-- `none` when the expression leaves the type open. -/
def Expr.fixedType? (s : Scope) : Expr → Except Missing (Option ValueType)
  | .sequence _ second => some <$> s.typeOf second
  | .exitBlock _ | .exitLoop _ | .continueLoop _ => .ok (some .unreachable)
  | .loop .. | .setVar .. | .setArrayElement .. => .ok (some .void)
  | .conditional _ thenArm elseArm => some <$> s.typeOfArms thenArm elseArm
  | .nullary op => .ok (some op.resultType)
  | .unary op _ => .ok (some op.resultType)
  | .binary op _ _ => .ok (some op.resultType)
  | .const (.int _) => .ok (some .int)
  | .const (.long _) => .ok (some .long)
  | .const (.float _) => .ok (some .float)
  | .const (.double _) => .ok (some .double)
  | .text _ => .ok (some .object)
  | .param index =>
    match s.param index with
    | some t => .ok (some t)
    | none => .error (.parameter index)
  | .getVar index =>
    match s.var index with
    | some t => .ok (some t)
    | none => .error (.localVariable index)
  | .getField field _ | .getStatic field => .ok (some field.type)
  | .call method _ _ => .ok (some method.result)
  | .cast .. => .ok (some .object)
  | .instanceOf .. => .ok (some .boolean)
  | .boundsCheck .. => .ok (some .int)
  | .block .. | .arrayElement .. => .ok none
  | .setField .. | .setStatic .. | .raise .. | .tryCatch .. | .caughtValue | .caughtException
  | .newObject .. | .newArray .. | .tuple .. | .tupleComponent .. => .ok none

end SlotCode
