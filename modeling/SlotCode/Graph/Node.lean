/-
  SlotCode.Graph.Node — functions as graphs of typed nodes.

  The nodes of a function stand in an arena and name each other by position. Several
  parents may name one node. How a parent uses a child is fixed by the parent's
  expression: an `effect` child only runs, an `operand` is always read, and a `forward`
  child is read exactly when the parent's own value is.
-/

import SlotCode.Graph.Operator

namespace SlotCode

open SlotCode.Arith

/-- The position of a node in the arena. -/
abbrev NodeId := Nat

abbrev ParamId := Nat

abbrev VarId := Nat

abbrev BlockId := Nat

abbrev LoopId := Nat

def NodeId.text (id : NodeId) : String := "e" ++ id.repr

def ParamId.text (id : ParamId) : String := "p" ++ id.repr

def VarId.text (id : VarId) : String := "v" ++ id.repr

def BlockId.text (id : BlockId) : String := "b" ++ id.repr

def LoopId.text (id : LoopId) : String := "loop" ++ id.repr

/-- The text under which functions and fields are known. -/
def qualified (owner name : String) : String := owner ++ "." ++ name

/-- Whether a call has a receiver, which is then its first argument. -/
inductive CallKind where
  | static
  | onReceiver
  deriving DecidableEq, Repr

def CallKind.all : List CallKind := [.static, .onReceiver]

def CallKind.name : CallKind → String
  | .static => "Static"
  | .onReceiver => "Instance"

def CallKind.receiverCount : CallKind → Nat
  | .static => 0
  | .onReceiver => 1

/-- A native function by name. The parameters leave out the receiver. -/
structure MethodRef where
  owner : String
  name : String
  params : List ValueType
  result : ValueType
  deriving DecidableEq, Repr

def MethodRef.text (m : MethodRef) : String := qualified m.owner m.name

structure FieldRef where
  owner : String
  name : String
  type : ValueType
  deriving DecidableEq, Repr

def FieldRef.text (f : FieldRef) : String := qualified f.owner f.name

inductive Expr where
  | sequence (first second : NodeId)
  | block (block : BlockId) (body : NodeId)
  | exitBlock (block : BlockId)
  /-- Runs `preheader` once and then `body` for ever; only an exit leaves. -/
  | loop (id : LoopId) (preheader body : NodeId)
  | exitLoop (id : LoopId)
  | continueLoop (id : LoopId)
  | conditional (condition thenArm elseArm : NodeId)
  | nullary (op : NullaryOp)
  | unary (op : UnaryOp) (operand : NodeId)
  | binary (op : BinaryOp) (first second : NodeId)
  /-- Boolean, byte, short and char constants are ints of the narrow type. -/
  | const (value : Scalar)
  | text (value : String)
  | param (index : ParamId)
  /-- Reads the variable's own register when the consumer runs, not a copy: in `v + (v = 10; 1)`
      the first operand is 10. -/
  | getVar (index : VarId)
  | setVar (index : VarId) (value : NodeId)
  | getField (field : FieldRef) (object : NodeId)
  | getStatic (field : FieldRef)
  | setField (field : FieldRef) (object value : NodeId)
  | setStatic (field : FieldRef) (value : NodeId)
  | call (method : MethodRef) (kind : CallKind) (args : List NodeId)
  | arrayElement (array index : NodeId)
  | setArrayElement (array index value : NodeId)
  | cast (value : NodeId) (className : String)
  | instanceOf (value : NodeId) (className : String)
  /-- The index, once it is known to be at least zero (if `lower`) and below the length of `array`
      (if there is one). -/
  | boundsCheck (index : NodeId) (array : Option NodeId) (lower : Bool)
  | raise (value : NodeId)
  | tryCatch (body handler : NodeId)
  | caughtValue
  | caughtException
  | newObject (className : String)
  | newArray (element : ValueType) (length : NodeId)
  | tuple (components : List NodeId)
  | tupleComponent (whole : NodeId) (index : Nat)
  deriving DecidableEq, Repr

/-- How a parent uses a child. -/
inductive Edge where
  | effect
  | forward
  | operand
  deriving DecidableEq, Repr

def Edge.name : Edge → String
  | .effect => "Effect"
  | .forward => "Forward"
  | .operand => "Operand"

namespace Expr

/-- The children in the order in which they run. -/
def edges : Expr → List (NodeId × Edge)
  | .sequence first second => [(first, .effect), (second, .forward)]
  | .block _ body => [(body, .forward)]
  | .loop _ preheader body => [(preheader, .effect), (body, .effect)]
  | .conditional condition thenArm elseArm => [(condition, .operand), (thenArm, .forward), (elseArm, .forward)]
  | .unary op operand => [(operand, if op = .nullCheck then .operand else .forward)]
  | .binary op first second =>
    let edge := if op.isLogical then .operand else .forward
    [(first, edge), (second, edge)]
  | .setVar _ value => [(value, .operand)]
  | .getField _ object => [(object, .forward)]
  | .setField _ object value => [(object, .operand), (value, .operand)]
  | .setStatic _ value => [(value, .operand)]
  | .call _ _ args => args.map (·, .operand)
  | .arrayElement array index => [(array, .forward), (index, .forward)]
  | .setArrayElement array index value => [(array, .operand), (index, .operand), (value, .operand)]
  | .cast value _ => [(value, .forward)]
  | .instanceOf value _ => [(value, .forward)]
  | .boundsCheck index array _ => (index, .operand) :: array.toList.map (·, .operand)
  | .raise value => [(value, .operand)]
  | .tryCatch body handler => [(body, .operand), (handler, .operand)]
  | .newArray _ length => [(length, .operand)]
  | .tuple components => components.map (·, .operand)
  | .tupleComponent whole _ => [(whole, .operand)]
  | .exitBlock _ | .exitLoop _ | .continueLoop _ | .nullary _ | .const _ | .text _ | .param _ | .getVar _
  | .getStatic _ | .caughtValue | .caughtException | .newObject _ => []

def children (e : Expr) : List NodeId := e.edges.map (·.1)

/-- A short name for messages. -/
def name : Expr → String
  | .sequence .. => "sequence"
  | .block .. => "block"
  | .exitBlock .. => "exit-block"
  | .loop .. => "loop"
  | .exitLoop .. => "exit-loop"
  | .continueLoop .. => "continue-loop"
  | .conditional .. => "conditional"
  | .nullary .. => "nullary"
  | .unary .. => "unary"
  | .binary .. => "binary"
  | .const (.int _) => "int-constant"
  | .const (.long _) => "long-constant"
  | .const (.float _) => "float-constant"
  | .const (.double _) => "double-constant"
  | .text .. => "string-constant"
  | .param .. => "parameter"
  | .getVar .. => "variable"
  | .setVar .. => "set-variable"
  | .getField .. => "get-field"
  | .getStatic .. => "get-static-field"
  | .setField .. => "set-field"
  | .setStatic .. => "set-static-field"
  | .call .. => "call"
  | .arrayElement .. => "array-element"
  | .setArrayElement .. => "set-array-element"
  | .cast .. => "cast"
  | .instanceOf .. => "instanceof"
  | .boundsCheck .. => "bounds-check"
  | .raise .. => "throw"
  | .tryCatch .. => "try-catch"
  | .caughtValue => "caught-value"
  | .caughtException => "caught-exception"
  | .newObject .. => "new-object"
  | .newArray .. => "new-array"
  | .tuple .. => "tuple"
  | .tupleComponent .. => "tuple-component"

end Expr

structure Node where
  expr : Expr
  type : ValueType
  deriving DecidableEq, Repr

/-- A function body with its declarations. -/
structure Function where
  params : List ValueType
  locals : List ValueType
  nodes : Array Node
  body : NodeId
  returnType : ValueType
  deriving DecidableEq, Repr

namespace Function

def node? (f : Function) (id : NodeId) : Option Node := f.nodes[id]?

/-- The children of a node; a position outside the arena has none. -/
def children (f : Function) (id : NodeId) : List NodeId :=
  match f.node? id with
  | some n => n.expr.children
  | none => []

/-- The partition of a node's value, if the node exists and its type has values. -/
def kind? (f : Function) (id : NodeId) : Option Kind := (f.node? id).bind (·.type.kind?)

end Function

end SlotCode
