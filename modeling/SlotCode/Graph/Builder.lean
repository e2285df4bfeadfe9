/-
  SlotCode.Graph.Builder — functions put together node by node.

  A builder appends nodes to the arena and hands out their positions. Where an expression
  fixes the type of its node, the builder derives it. `placeholder` and `define`
  let a node be named before it is given, which is the only way to a cycle. An operation
  that has to look at a node, a parameter or a variable that does not exist fails.
-/

import SlotCode.Graph.Typing

namespace SlotCode

open SlotCode.Arith

structure Builder where
  params : Array ValueType := #[]
  locals : Array ValueType := #[]
  nodes : Array Node := #[]
  blocks : Nat := 0
  loops : Nat := 0
  returnType : ValueType
  deriving Repr

def Builder.scope (b : Builder) : Scope := ⟨(b.params[·]?), (b.locals[·]?), fun id => b.nodes[id]?.map (·.type)⟩

/-- A step of building, which may name something that does not exist. -/
abbrev Build := StateT Builder (Except Missing)

namespace Build

/-! ## Declarations and the arena -/

def declareParam (t : ValueType) : Build ParamId :=
  modifyGet fun b => (b.params.size, { b with params := b.params.push t })

def declareLocal (t : ValueType) : Build VarId :=
  modifyGet fun b => (b.locals.size, { b with locals := b.locals.push t })

/-- Appends a node of a given type. -/
def node (e : Expr) (t : ValueType) : Build NodeId :=
  modifyGet fun b => (b.nodes.size, { b with nodes := b.nodes.push ⟨e, t⟩ })

def typeOf (id : NodeId) : Build ValueType := do (← get).scope.typeOf id

/-- Appends a node of the type that its expression fixes; one that fixes none has no value. -/
def append (e : Expr) : Build NodeId := do
  let t ← e.fixedType? (← get).scope
  node e (t.getD .void)

/-- A node whose expression comes later; until then it is the unreachable operator. -/
def placeholder (t : ValueType) : Build NodeId := node (.nullary .unreachable) t

/-- Gives a node its expression; its type stays. -/
def define (id : NodeId) (e : Expr) : Build Unit := do
  let b ← get
  match b.nodes[id]? with
  | some n => set { b with nodes := b.nodes.setIfInBounds id { n with expr := e } }
  | none => throw (.node id)

def newBlock : Build BlockId := modifyGet fun b => (b.blocks, { b with blocks := b.blocks + 1 })

def newLoop : Build LoopId := modifyGet fun b => (b.loops, { b with loops := b.loops + 1 })

/-! ## Constants and operators -/

def int (v : Int32) : Build NodeId := append (.const (.int v))

def boolean (v : Bool) : Build NodeId := node (.const (.int (if v then 1 else 0))) .boolean

def long (v : Int64) : Build NodeId := append (.const (.long v))

def float (v : Single) : Build NodeId := append (.const (.float v))

def double (v : Double) : Build NodeId := append (.const (.double v))

def text (v : String) : Build NodeId := append (.text v)

def nullary (op : NullaryOp) : Build NodeId := append (.nullary op)

def void : Build NodeId := nullary .void

def null : Build NodeId := nullary .null

def unary (op : UnaryOp) (a : NodeId) : Build NodeId := append (.unary op a)

def not (a : NodeId) : Build NodeId := unary .not a

def binary (op : BinaryOp) (a b : NodeId) : Build NodeId := append (.binary op a b)

def and (a b : NodeId) : Build NodeId := binary .and a b

def or (a b : NodeId) : Build NodeId := binary .or a b

/-! ## Control -/

def sequence (first second : NodeId) : Build NodeId := append (.sequence first second)

/-- Runs the nodes in turn; the last one gives the value. Without any, `void`. -/
def inOrder (ids : List NodeId) : Build NodeId :=
  match ids.reverse with
  | [] => void
  | last :: before => before.foldlM (fun second first => sequence first second) last

def block (id : BlockId) (t : ValueType) (body : NodeId) : Build NodeId := node (.block id body) t

def exitBlock (id : BlockId) : Build NodeId := append (.exitBlock id)

def loop (id : LoopId) (preheader body : NodeId) : Build NodeId := append (.loop id preheader body)

def exitLoop (id : LoopId) : Build NodeId := append (.exitLoop id)

def continueLoop (id : LoopId) : Build NodeId := append (.continueLoop id)

def conditional (condition thenArm elseArm : NodeId) : Build NodeId := append (.conditional condition thenArm elseArm)

/-! ## Data -/

def param (k : ParamId) : Build NodeId := append (.param k)

def getVar (k : VarId) : Build NodeId := append (.getVar k)

def setVar (k : VarId) (value : NodeId) : Build NodeId := append (.setVar k value)

def getField (field : FieldRef) (object : NodeId) : Build NodeId := append (.getField field object)

def getStatic (field : FieldRef) : Build NodeId := append (.getStatic field)

def call (method : MethodRef) (kind : CallKind) (args : List NodeId) : Build NodeId := append (.call method kind args)

def arrayElement (array index : NodeId) (element : ValueType) : Build NodeId := node (.arrayElement array index) element

def setArrayElement (array index value : NodeId) : Build NodeId := append (.setArrayElement array index value)

def cast (value : NodeId) (className : String) : Build NodeId := append (.cast value className)

def instanceOf (value : NodeId) (className : String) : Build NodeId := append (.instanceOf value className)

def boundsCheck (index : NodeId) (array : Option NodeId) (lower : Bool) : Build NodeId :=
  append (.boundsCheck index array lower)

end Build

/-- A builder with declared parameters and variables. -/
def Builder.new (params locals : List ValueType) (returnType : ValueType) : Builder :=
  { params := params.toArray, locals := locals.toArray, returnType }

/-- The function that the builder holds, with the given body. -/
def Builder.finish (b : Builder) (body : NodeId) : Function :=
  ⟨b.params.toList, b.locals.toList, b.nodes, body, b.returnType⟩

end SlotCode
