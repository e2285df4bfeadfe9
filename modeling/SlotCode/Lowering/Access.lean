/-
  SlotCode.Lowering.Access — parameters, variables, fields, arrays, classes and calls.

  Names are resolved against the environment here, once; the code only holds numbers. The
  environment must offer what the reference says: a field of the same partition, a native
  of the same signature.
-/

import SlotCode.Lowering.Operator

namespace SlotCode.Lowering

/-- An id that leads out of its table is a fault of the environment. -/
def lookup {α : Type} (r : Except Missing α) : Lower α :=
  match r with
  | .ok a => pure a
  | .error m => throw (.missing m)

/-! ## Parameters and variables -/

/-- Reads a fixed slot. -/
def fixedSlot (id : NodeId) (slot : TypedSlot) : Lower Visited := do
  borrow id
  if ← isDemanded id then return { slot := some slot } else return {}

def param (ctx : Context) (id : NodeId) (index : ParamId) : Lower Visited :=
  match ctx.params[index]? with
  | some slot => fixedSlot id slot
  | none => defect (.unknownParameter id index)

def Context.varSlot (ctx : Context) (id : NodeId) (index : VarId) : Lower TypedSlot :=
  match ctx.vars[index]? with
  | some slot => pure slot
  | none => defect (.unknownVariable id index)

def getVar (ctx : Context) (id : NodeId) (index : VarId) : Lower Visited := do
  fixedSlot id (← ctx.varSlot id index)

def setVar (ctx : Context) (w : Walk) (id : NodeId) (index : VarId) (value : NodeId) : Lower Visited := do
  let target ← ctx.varSlot id index
  let _ ← w.valueInto ctx value target none
  return {}

/-! ## Fields -/

/-- The declared type of a field has the partition that the reference says. -/
def checkField (id : NodeId) (field : FieldRef) (declared : ValueType) : Lower Unit :=
  if declared.kind? ≠ field.type.kind? then throw (.typeMismatch id (.field field.text declared field.type))
  else pure ()

def getField (ctx : Context) (w : Walk) (id : NodeId) (field : FieldRef) (object : NodeId) (hint : Option TypedSlot) :
    Lower Visited := do
  match ← lookup (ctx.env.classes.resolveField field.owner field.name) with
  | none => throw (.unresolvedField id field.text)
  | some (index, declared) =>
    checkField id field declared
    ctx.expectType object .object
    onOperand ctx w id object hint fun r a => .getField r.kind r.slot a index

def getStatic (ctx : Context) (id : NodeId) (field : FieldRef) (hint : Option TypedSlot) : Lower Visited := do
  match ctx.env.resolveStatic field.owner field.name with
  | none => throw (.unresolvedField id field.text)
  | some (index, declared) =>
    checkField id field declared
    match ← ctx.demandedSlot id hint with
    | none => return {}
    | some r =>
      emit (.getStatic r.kind r.slot index)
      return { slot := some r }

/-! ## Arrays -/

def arrayElement (ctx : Context) (w : Walk) (id array index : NodeId) (hint : Option TypedSlot) : Lower Visited := do
  ctx.expectType array .object
  ctx.expectType index .int
  onOperands ctx w id array index hint fun r a i => .arrayGet r.kind r.slot a i

def setArrayElement (ctx : Context) (w : Walk) (array index value : NodeId) : Lower Visited := do
  ctx.expectType array .object
  ctx.expectType index .int
  let a ← w.operand array
  let i ← w.operand index
  let v ← w.operand value
  release value
  release index
  release array
  emit (.arraySet v.kind a.slot i.slot v.slot)
  return {}

/-- The check of an index against an array, with the array released after it. -/
def upperBound (ctx : Context) (w : Walk) (index : TypedSlot) (lower : Bool) (array : NodeId) : Lower Unit := do
  ctx.expectType array .object
  let a ← w.operand array
  if lower then emit (.lowerBound index.slot)
  emit (.upperBound index.slot a.slot)
  release array

/-- The checks happen also when nobody reads the index. -/
def boundsCheck (ctx : Context) (w : Walk) (id index : NodeId) (array : Option NodeId) (lower : Bool)
    (hint : Option TypedSlot) : Lower Visited := do
  ctx.expectType index .int
  let i ← w.operand index
  match array with
  | some array => upperBound ctx w i lower array
  | none => if lower then emit (.lowerBound i.slot)
  release index
  match ← ctx.demandedSlot id hint with
  | none => return {}
  | some r =>
    if r ≠ i then emit (.move .int r.slot i.slot)
    return { slot := some r }

/-! ## Classes -/

def Context.classId (ctx : Context) (id : NodeId) (className : String) : Lower ClassId :=
  match ctx.env.classes.find? className with
  | some target => pure target
  | none => throw (.unresolvedClass id className)

def cast (ctx : Context) (w : Walk) (id value : NodeId) (className : String) (hint : Option TypedSlot) :
    Lower Visited := do
  let target ← ctx.classId id className
  ctx.expectType value .object
  onOperand ctx w id value hint fun r a => .cast r.slot a target

def instanceOf (ctx : Context) (w : Walk) (id value : NodeId) (className : String) (hint : Option TypedSlot) :
    Lower Visited := do
  let target ← ctx.classId id className
  ctx.expectType value .object
  onOperand ctx w id value hint fun r a => .instanceOf r.slot a target

/-! ## Calls -/

/-- The native has the signature of the reference, and the call as many arguments. -/
def checkCall (id : NodeId) (method : MethodRef) (kind : CallKind) (native : NativeFunction) (given : Nat) :
    Lower Unit :=
  let wanted := method.params.length + kind.receiverCount
  if native.kind ≠ kind ∨ native.params ≠ method.params ∨ native.result ≠ method.result then
    throw (.typeMismatch id (.native method.text))
  else if given ≠ wanted then throw (.typeMismatch id (.arity method.text wanted given))
  else pure ()

/-- The types of all arguments, the receiver first. -/
def argumentTypes (method : MethodRef) (kind : CallKind) : List ValueType :=
  List.replicate kind.receiverCount .object ++ method.params

def call (ctx : Context) (w : Walk) (id : NodeId) (method : MethodRef) (kind : CallKind) (args : List NodeId)
    (hint : Option TypedSlot) : Lower Visited := do
  match ctx.env.resolveFunction method.owner method.name with
  | none => throw (.unresolvedMethod id method.text)
  | some function =>
    checkCall id method kind (← lookup (ctx.env.function function)) args.length
    (args.zip (argumentTypes method kind)).forM fun (arg, type) => ctx.expectType arg type
    let slots ← args.mapM w.operand
    args.reverse.forM release
    let result ← ctx.demandedSlot id hint
    let receiver := (slots.take kind.receiverCount).head?.map (·.slot)
    let site ← addSite ⟨function, receiver, slots.drop kind.receiverCount, result⟩
    emit (.call site)
    return { slot := result }

end SlotCode.Lowering
