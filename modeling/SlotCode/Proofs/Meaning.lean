/-
  SlotCode.Proofs.Meaning — what a function means, without registers and jumps.

  The evaluator runs nodes directly. A node completes, with a value if its reader wants
  one, or leaves abruptly: to the end of a block or loop, to the head of a loop, or with a
  fault. Operands run from left to right and the operator fires after the last one; a
  variable that is itself an operand is read only then. A pure operator whose value
  nobody wants runs its children and does not fire.

  The nesting of nodes is bounded by `room`, which the arena's size always suffices for;
  only loops need fuel, one unit for each time that the body starts over.
-/

import SlotCode.Graph.Demand
import SlotCode.Machine.Step

namespace SlotCode

open SlotCode.Arith

/-- Why evaluation fails: a runtime error without the address of an instruction. -/
inductive Fault where
  | divisionByZero
  | indexOutOfBounds (index : Int32) (length : Option Nat)
  | nullPointer
  | classCast (className : String)
  | unreachable
  | invalidInstruction
  | native (function : String) (cause : NativeFailure)
  | missing (what : Missing)
  deriving DecidableEq, Repr

/-- The error of an instruction at `pc`. -/
def Fault.at (pc : Nat) : Fault → RuntimeError
  | .divisionByZero => .divisionByZero pc
  | .indexOutOfBounds index length => .indexOutOfBounds index length pc
  | .nullPointer => .nullPointer pc
  | .classCast className => .classCast className pc
  | .unreachable => .unreachable pc
  | .invalidInstruction => .invalidInstruction pc
  | .native function cause => .native function pc cause
  | .missing what => .missing what

/-! ## Operations on values -/

namespace Fault

/-- The object that a value refers to. -/
def object : Value → Except Fault Ref
  | .ref (some r) => .ok r
  | .ref none => .error .nullPointer
  | _ => .error .invalidInstruction

def int : Value → Except Fault Int32
  | .int v => .ok v
  | _ => .error .invalidInstruction

def elements : Object → Except Fault Elements
  | .array elements => .ok elements
  | _ => .error (.classCast "array")

def expect {α : Type} : Option α → Except Fault α
  | some a => .ok a
  | none => .error .invalidInstruction

def found {α : Type} : Except Missing α → Except Fault α
  | .ok a => .ok a
  | .error what => .error (.missing what)

/-- The second operand of integer arithmetic on longs: a shift takes an int. -/
def longOperand (op : IntOp) (v : Value) : Except Fault Int64 :=
  match v, op.isShift with
  | .int a, true => .ok a.toInt64
  | .long a, false => .ok a
  | _, _ => .error .invalidInstruction

/-- The position that an index means in an array. -/
def position (index : Int32) (length : Nat) : Except Fault Nat :=
  if 0 ≤ index.toInt ∧ index.toInt < length then .ok index.toInt.toNat
  else .error (.indexOutOfBounds index (some length))

/-- A value of the kind that its reader expects. -/
def ofKind (kind : Option Kind) (v : Value) : Except Fault Value :=
  if some v.kind = kind then .ok v else .error .invalidInstruction

end Fault

def UnaryOp.apply (h : Heap) (op : UnaryOp) (v : Value) : Except Fault Value :=
  match op, v with
  | .not, .int a => .ok (.ofBool (a == 0))
  | .invert .int, .int a => .ok (.int (~~~a))
  | .invert .long, .long a => .ok (.long (~~~a))
  | .negate .int, .int a => .ok (.int (-a))
  | .negate .long, .long a => .ok (.long (-a))
  | .negateFloat .float, .float a => .ok (.float a.neg)
  | .negateFloat .double, .double a => .ok (.double a.neg)
  | .convert c, v => (Fault.expect (v.scalar?.bind c.apply?)).map .ofScalar
  | .arrayLength, v => do
    let elements ← Fault.elements (h.get (← Fault.object v))
    return .int (Int32.ofNat elements.size)
  | .nullCheck, v => return .ref (some (← Fault.object v))
  | _, _ => .error .invalidInstruction

def BinaryOp.apply (op : BinaryOp) (a b : Value) : Except Fault Value :=
  match op, a, b with
  | .arith .int op, .int a, .int b =>
    match op.onInt a b with
    | some v => .ok (.int v)
    | none => .error .divisionByZero
  | .arith .long op, .long a, b => do
    match op.onLong a (← Fault.longOperand op b) with
    | some v => .ok (.long v)
    | none => .error .divisionByZero
  | .real .float op, .float a, .float b => .ok (.float (op.onSingle a b))
  | .real .double op, .double a, .double b => .ok (.double (op.onDouble a b))
  | .orderLong, .long a, .long b => .ok (.int (orderNumber (compare a b)))
  | .orderFloat .float, .float a, .float b => .ok (.int (orderNumber (a.totalCompare b)))
  | .orderFloat .double, .double a, .double b => .ok (.int (orderNumber (a.totalCompare b)))
  | .test op, .int a, .int b => .ok (.ofBool (op.holds (some (compare a b))))
  | .refEq, .ref a, .ref b => .ok (.ofBool (a == b))
  | .refNe, .ref a, .ref b => .ok (.ofBool !(a == b))
  | _, _, _ => .error .invalidInstruction

/-- The operand that decides a short-circuit operator. -/
def BinaryOp.decisive? : BinaryOp → Option Bool
  | .and => some false
  | .or => some true
  | _ => none

/-- An int is true when it is not zero. -/
def Value.truth : Value → Except Fault Bool
  | .int v => .ok (v != 0)
  | _ => .error .invalidInstruction

namespace Environment

/-- The field of an object, if it holds a value of the kind that the reader expects. -/
def fieldOf (env : Environment) (field : FieldRef) (kind : Option Kind) (w : World) (object : Value) :
    Except Fault Value := do
  let (index, _) ← Fault.expect ((env.classes.resolveField field.owner field.name).toOption.join)
  match w.heap.get (← Fault.object object) with
  | .record _ fields => Fault.ofKind kind (← Fault.expect fields[index]?)
  | _ => .error .invalidInstruction

def staticOf (env : Environment) (field : FieldRef) (kind : Option Kind) (w : World) : Except Fault Value := do
  let (index, _) ← Fault.expect (env.resolveStatic field.owner field.name)
  Fault.ofKind kind (← Fault.found (env.staticValue w index))

def castTo (env : Environment) (className : String) (w : World) (v : Value) : Except Fault Value := do
  let target ← Fault.expect (env.classes.find? className)
  match v with
  | .ref none => return v
  | .ref (some r) =>
    if ← Fault.found (env.classes.isInstance (w.heap.get r) target) then return v
    else .error (.classCast (← Fault.found (env.classes.classInfo target)).name)
  | _ => .error .invalidInstruction

def isA (env : Environment) (className : String) (w : World) (v : Value) : Except Fault Value := do
  let target ← Fault.expect (env.classes.find? className)
  match v with
  | .ref none => return .ofBool false
  | .ref (some r) => return .ofBool (← Fault.found (env.classes.isInstance (w.heap.get r) target))
  | _ => .error .invalidInstruction

end Environment

namespace World

def elementOf (kind : Option Kind) (w : World) (array index : Value) : Except Fault Value := do
  let elements ← Fault.elements (w.heap.get (← Fault.object array))
  let position ← Fault.position (← Fault.int index) elements.size
  Fault.ofKind kind (← Fault.expect (elements.get? position))

/-- The array with one element replaced. -/
def storing (w : World) (array index value : Value) : Except Fault World := do
  let object ← Fault.object array
  let elements ← Fault.elements (w.heap.get object)
  let position ← Fault.position (← Fault.int index) elements.size
  return w.store object (.array (← Fault.expect (elements.set? position value)))

def checkLower (index : Value) : Except Fault Unit := do
  let i ← Fault.int index
  if i.toInt < 0 then .error (.indexOutOfBounds i none) else return ()

/-- The lower bound is checked only where that is asked for. -/
def checkLowerIf (lower : Bool) (index : Value) : Except Fault Unit := if lower then checkLower index else return ()

def checkUpper (w : World) (index array : Value) : Except Fault Unit := do
  let elements ← Fault.elements (w.heap.get (← Fault.object array))
  let i ← Fault.int index
  if (elements.size : Int) ≤ i.toInt then .error (.indexOutOfBounds i (some elements.size)) else return ()

end World

/-! ## Evaluation -/

structure Store where
  locals : List Value
  world : World

/-- How evaluation leaves a node without completing it. -/
inductive Abrupt where
  | exitBlock (block : BlockId)
  | exitLoop (loop : LoopId)
  | continueLoop (loop : LoopId)
  | fault (e : Fault)
  deriving DecidableEq, Repr

/-- A step of evaluation; `none` says that the fuel is used up. -/
abbrev Eval := ExceptT Abrupt (StateT Store Option)

/-- What an operator gets from a child: a value, or a variable to be read when the operator fires. -/
inductive Operand where
  | value (v : Value)
  | var (index : VarId)
  deriving DecidableEq, Repr

/-- What stays fixed while a function is evaluated. -/
structure Reading where
  function : Function
  env : Environment
  args : List Value
  /-- The objects of the text constants. -/
  literal : String → Option Ref

namespace Eval

/-- The outcome and the store after it. -/
def on {α : Type} (x : Eval α) (s : Store) : Option (Except Abrupt α × Store) := x.run.run s

def outOfFuel {α : Type} : Eval α := ExceptT.mk fun _ => none

def fault {α : Type} (e : Fault) : Eval α := throw (.fault e)

def lift {α : Type} (x : Except Fault α) : Eval α :=
  match x with
  | .ok a => pure a
  | .error e => fault e

/-- The operand's value at this moment. -/
def read : Operand → Eval Value
  | .value v => pure v
  | .var index => do lift (Fault.expect (← get).locals[index]?)

def assign (index : VarId) (v : Value) : Eval Unit := modify fun s => { s with locals := s.locals.set index v }

/-- An exit of the block completes it, without a value. -/
def block (name : BlockId) (body : Eval (Option Operand)) : Eval (Option Operand) :=
  tryCatch body fun a => if a = .exitBlock name then pure none else throw a

/-- Runs the body until an exit of the loop. -/
def iterate (name : LoopId) (body : Eval Unit) : Nat → Eval Unit
  | 0 => outOfFuel
  | n + 1 => do
    let again ← tryCatch (body *> pure true) fun a =>
      if a = .continueLoop name then pure true else if a = .exitLoop name then pure false else throw a
    if again then iterate name body n

end Eval

/-- The value of a node that someone reads or not. -/
def given (demanded : Bool) (v : Value) : Option Operand := if demanded then some (.value v) else none

/-- Evaluates a child, told whether its value is read. -/
abbrev ChildEval := Bool → NodeId → Eval (Option Operand)

namespace Reading

/-- What a native answered, as the value of its call. -/
def answer (f : NativeFunction) (result : Option Kind) : Except NativeError Value → Except Fault (Option Operand)
  | .error (.missing what) => .error (.missing what)
  | .error (.failed message) => .error (.native f.qualifiedName (.failed message))
  | .ok v =>
    match result with
    | none => .ok none
    | some kind => if v.kind = kind then .ok (some (.value v)) else .error (.native f.qualifiedName (.wrongKind kind))

/-- Runs a native; it may change the world also when it fails. -/
def native (r : Reading) (id : FunctionId) (f : NativeFunction) (args : List Value) (result : Option Kind) :
    Eval (Option Operand) := do
  let s ← get
  let (outcome, world) := r.env.invoke id f args s.world
  set { s with world }
  Eval.lift (answer f result outcome)

/-- Finds the native that a call names, checks the receiver and runs it. -/
def invoke (r : Reading) (method : MethodRef) (kind : CallKind) (args : List Value) (result : Option Kind) :
    Eval (Option Operand) := do
  let id ← Eval.lift (Fault.expect (r.env.resolveFunction method.owner method.name))
  let f ← Eval.lift (Fault.found (r.env.function id))
  let _ ← Eval.lift ((args.take kind.receiverCount).mapM Fault.object)
  r.native id f args result

section

variable (r : Reading) (child : ChildEval) (demanded : Bool)

/-- Runs a child for its effects. -/
def effect (id : NodeId) : Eval Unit := do
  let _ ← child false id

/-- Runs a child that an operator reads. -/
def operand (edge : Edge) (id : NodeId) : Eval Operand := do
  Eval.lift (Fault.expect (← child (r.function.reads demanded id edge) id))

/-- Runs a child that stands for its parent. -/
def forward (id : NodeId) : Eval (Option Operand) := do
  match ← child (r.function.reads demanded id .forward) id with
  | some o => return some (.value (← Eval.read o))
  | none => return none

/-- A pure operator on one operand. -/
def ofOperand (fire : World → Value → Except Fault Value) (a : NodeId) : Eval (Option Operand) := do
  if demanded then
    let a ← r.operand child demanded .forward a
    let x ← Eval.read a
    return some (.value (← Eval.lift (fire (← get).world x)))
  else
    effect child a
    return none

/-- A pure operator on two operands. -/
def ofOperands (fire : World → Value → Value → Except Fault Value) (a b : NodeId) : Eval (Option Operand) := do
  if demanded then
    let a ← r.operand child demanded .forward a
    let b ← r.operand child demanded .forward b
    let x ← Eval.read a
    let y ← Eval.read b
    return some (.value (← Eval.lift (fire (← get).world x y)))
  else
    effect child a
    effect child b
    return none

/-- The truth of a child. -/
def truth (id : NodeId) : Eval Bool := do
  let o ← r.operand child demanded .operand id
  Eval.lift (← Eval.read o).truth

/-- Evaluates a node; its children are evaluated by `child`. -/
def node (fuel : Nat) (n : Node) : Eval (Option Operand) :=
  match n.expr with
  | .sequence first second => do
    effect child first
    r.forward child demanded second
  | .block name body => Eval.block name (r.forward child demanded body)
  | .exitBlock name => throw (.exitBlock name)
  | .loop name preheader body => do
    effect child preheader
    Eval.iterate name (effect child body) (fuel + 1)
    return none
  | .exitLoop name => throw (.exitLoop name)
  | .continueLoop name => throw (.continueLoop name)
  | .conditional condition thenArm elseArm => do
    if ← r.truth child demanded condition then r.forward child demanded thenArm
    else r.forward child demanded elseArm
  | .nullary .void => return none
  | .nullary .null => return given demanded .null
  | .nullary .unreachable => Eval.fault .unreachable
  | .const value => return given demanded (.ofScalar value)
  | .text value => do
    if demanded then
      let object ← Eval.lift (Fault.expect (r.literal value))
      return some (.value (.ref (some object)))
    else return none
  | .param index => do
    if demanded then
      let v ← Eval.lift (Fault.expect r.args[index]?)
      return some (.value v)
    else return none
  | .getVar index => return if demanded then some (.var index) else none
  | .setVar index value => do
    match ← r.forward child true value with
    | some o =>
      Eval.assign index (← Eval.read o)
      return none
    | none => return none
  | .unary .nullCheck a => do
    let a ← r.operand child demanded .operand a
    let x ← Eval.read a
    let v ← Eval.lift (UnaryOp.nullCheck.apply (← get).world.heap x)
    return given demanded v
  | .unary op a => r.ofOperand child demanded (fun w => op.apply w.heap) a
  | .binary op a b =>
    match op.decisive? with
    | some decisive => do
      if (← r.truth child demanded a) = decisive then return given demanded (.ofBool decisive)
      else
        let second ← r.truth child demanded b
        return given demanded (.ofBool second)
    | none => r.ofOperands child demanded (fun _ => op.apply) a b
  | .getField field object => r.ofOperand child demanded (r.env.fieldOf field n.type.kind?) object
  | .getStatic field => do
    if demanded then
      let v ← Eval.lift (r.env.staticOf field n.type.kind? (← get).world)
      return some (.value v)
    else return none
  | .call method kind args => do
    let args ← args.mapM (r.operand child demanded .operand)
    let args ← args.mapM Eval.read
    r.invoke method kind args (if demanded then n.type.kind? else none)
  | .arrayElement array index => r.ofOperands child demanded (World.elementOf n.type.kind?) array index
  | .setArrayElement array index value => do
    let array ← r.operand child demanded .operand array
    let index ← r.operand child demanded .operand index
    let value ← r.operand child demanded .operand value
    let a ← Eval.read array
    let i ← Eval.read index
    let v ← Eval.read value
    let world ← Eval.lift ((← get).world.storing a i v)
    modify fun s => { s with world }
    return none
  | .cast value className => r.ofOperand child demanded (r.env.castTo className) value
  | .instanceOf value className => r.ofOperand child demanded (r.env.isA className) value
  | .boundsCheck index none lower => do
    let index ← r.operand child demanded .operand index
    let i ← Eval.read index
    Eval.lift (World.checkLowerIf lower i)
    return given demanded i
  | .boundsCheck index (some array) lower => do
    let index ← r.operand child demanded .operand index
    let array ← r.operand child demanded .operand array
    let i ← Eval.read index
    let a ← Eval.read array
    Eval.lift (World.checkLowerIf lower i)
    Eval.lift ((← get).world.checkUpper i a)
    return given demanded i
  | .setField .. | .setStatic .. | .raise .. | .tryCatch .. | .caughtValue | .caughtException
  | .newObject .. | .newArray .. | .tuple .. | .tupleComponent .. => Eval.fault .invalidInstruction

end

/-- Evaluates a node and what it is made of. -/
def eval (r : Reading) (fuel : Nat) : (room : Nat) → ChildEval
  | 0, _, _ => Eval.outOfFuel
  | room + 1, demanded, id => do
    let n ← Eval.lift (Fault.expect (r.function.node? id))
    r.node (r.eval fuel room) demanded fuel n

/-- Every variable zero. -/
def initial (r : Reading) (w : World) : Store := ⟨r.function.locals.map fun t => .zero (t.kind?.getD .object), w⟩

/-- Evaluates the body; a function without a value gives none. -/
def body (r : Reading) (fuel : Nat) : Eval (Option Value) := do
  match ← r.eval fuel (r.function.nodes.size + 1) r.function.bodyRead r.function.body with
  | some o => return some (← Eval.read o)
  | none => return none

/-- Evaluates the function from a world; `none` when the fuel is used up. -/
def run (r : Reading) (fuel : Nat) (w : World) : Option (Except Abrupt (Option Value) × Store) :=
  (r.body fuel).on (r.initial w)

end Reading

end SlotCode
