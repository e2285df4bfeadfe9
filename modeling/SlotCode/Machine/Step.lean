/-
  SlotCode.Machine.Step — one instruction.

  A step works on the machine in place: registers, program counter, flag and world are
  read and written in the order of the instruction's work, and a failure leaves them as
  they are at that moment. Each instruction makes its checks before it writes; only a
  native is called before the last check, that of the kind of its value.
-/

import SlotCode.Code.Program
import SlotCode.Host.Environment
import SlotCode.Machine.Error
import SlotCode.Machine.Registers

namespace SlotCode

open SlotCode.Arith

/-- A program ready to run: its environment, and one object for each of its texts. -/
structure Image where
  program : Program
  env : Environment
  texts : Array Ref

structure Machine where
  registers : Registers
  pc : Nat := 0
  stopped : Bool := false
  world : World
  deriving Repr

inductive StepResult where
  | ok (m : Machine)
  | failed (e : RuntimeError) (m : Machine)

/-! ## Checks -/

instance : MonadLift (Except Missing) (Except RuntimeError) where
  monadLift x := x.mapError .missing

def nonNull (pc : Nat) : Option Ref → Except RuntimeError Ref
  | some r => .ok r
  | none => .error (.nullPointer pc)

def Object.elements (pc : Nat) : Object → Except RuntimeError Elements
  | .array elements => .ok elements
  | _ => .error (.classCast "array" pc)

/-- The position that an index means in an array. -/
def elementIndex (pc : Nat) (index : Int32) (length : Nat) : Except RuntimeError Nat :=
  if 0 ≤ index.toInt ∧ index.toInt < length then .ok index.toInt.toNat
  else .error (.indexOutOfBounds index (some length) pc)

/-- The address of a target, if the program has it. -/
def Program.address (p : Program) (pc : Nat) (target : Label) : Except RuntimeError Nat :=
  if target.index < p.code.size then .ok target.index else .error (.invalidJump target.index pc)

def orderNumber : Ordering → Int32
  | .lt => -1
  | .eq => 0
  | .gt => 1

/-- What should not be where it is makes the instruction invalid. -/
def expectSome {α : Type} (pc : Nat) : Option α → Except RuntimeError α
  | some a => .ok a
  | none => .error (.invalidInstruction pc)

/-! ## Work on the machine -/

/-- Work on the machine itself. What was done before a failure stays done. -/
abbrev Act := EStateM RuntimeError Machine

instance : MonadLift (Except RuntimeError) Act where
  monadLift
    | .ok a => pure a
    | .error e => throw e

namespace Act

def int (s : Slot) : Act Int32 := do (← get).registers.int s

def long (s : Slot) : Act Int64 := do (← get).registers.long s

def float (s : Slot) : Act Single := do (← get).registers.float s

def double (s : Slot) : Act Double := do (← get).registers.double s

def ref (s : Slot) : Act (Option Ref) := do (← get).registers.ref s

def value (s : TypedSlot) : Act Value := do (← get).registers.get s

def object (r : Ref) : Act Object := return (← get).world.heap.get r

/-- Writes a register of the value's own kind. -/
def assign (s : Slot) (v : Value) : Act Unit := do
  let m ← get
  if m.registers.has ⟨v.kind, s⟩ then set { m with registers := m.registers.put s v }
  else throw (.missing (.register ⟨v.kind, s⟩))

/-- Writes a register if the value is of its kind, and says whether it is. -/
def offer (s : TypedSlot) (v : Value) : Act Bool := do
  let m ← get
  match ← m.registers.set s v with
  | some registers =>
    set { m with registers }
    return true
  | none => return false

/-- Writes an element of an array if the array takes the value there, and says whether it does. -/
def offerElement (r : Ref) (elements : Elements) (index : Nat) (v : Value) : Act Bool := do
  match elements.set? index v with
  | some elements =>
    modify fun m => { m with world := m.world.store r (.array elements) }
    return true
  | none => return false

/-- Calls a native. What it did to the world stays also if it fails. -/
def invoke (im : Image) (pc : Nat) (id : FunctionId) (f : NativeFunction) (args : List Value) : Act Value := do
  let m ← get
  let (outcome, world) := im.env.invoke id f args m.world
  set { m with world }
  match outcome with
  | .ok v => return v
  | .error (.missing what) => throw (.missing what)
  | .error (.failed message) => throw (.native f.qualifiedName pc (.failed message))

def goTo (address : Nat) : Act Unit := modify fun m => { m with pc := address }

end Act

namespace Image

/-- Runs an instruction that stands at `pc`. -/
def execute (im : Image) (pc : Nat) (i : Instruction) : Act Unit := do
  match i with
  | .const r value => Act.assign r (.ofScalar value)
  | .text r index => Act.assign r (.ref (some (← expectSome pc im.texts[index]?)))
  | .null r => Act.assign r .null
  | .move kind r a => Act.assign r (← Act.value ⟨kind, a⟩)
  | .arith .int op r a b =>
    match op.onInt (← Act.int a) (← Act.int b) with
    | some v => Act.assign r (.int v)
    | none => throw (.divisionByZero pc)
  | .arith .long op r a b =>
    -- Distances of shifts come from the int partition.
    let distance ← if op.isShift then (·.toInt64) <$> Act.int b else Act.long b
    match op.onLong (← Act.long a) distance with
    | some v => Act.assign r (.long v)
    | none => throw (.divisionByZero pc)
  | .real .float op r a b => Act.assign r (.float (op.onSingle (← Act.float a) (← Act.float b)))
  | .real .double op r a b => Act.assign r (.double (op.onDouble (← Act.double a) (← Act.double b)))
  | .neg .int r a => Act.assign r (.int (-(← Act.int a)))
  | .neg .long r a => Act.assign r (.long (-(← Act.long a)))
  | .neg .float r a => Act.assign r (.float (← Act.float a).neg)
  | .neg .double r a => Act.assign r (.double (← Act.double a).neg)
  | .neg .object _ _ => throw (.invalidInstruction pc)
  | .inv .int r a => Act.assign r (.int (~~~(← Act.int a)))
  | .inv .long r a => Act.assign r (.long (~~~(← Act.long a)))
  | .inv _ _ _ => throw (.invalidInstruction pc)
  | .not r a => Act.assign r (.ofBool ((← Act.int a) == 0))
  | .convert c r a =>
    let v ← expectSome pc ((← Act.value ⟨c.source, a⟩).scalar?.bind c.apply?)
    Act.assign r (.ofScalar v)
  | .test op r a b => Act.assign r (.ofBool (op.holds (some (compare (← Act.int a) (← Act.int b)))))
  | .order kind r a b =>
    let order ← match kind with
      | .int => pure (compare (← Act.int a) (← Act.int b))
      | .long => pure (compare (← Act.long a) (← Act.long b))
      | .float => pure ((← Act.float a).totalCompare (← Act.float b))
      | .double => pure ((← Act.double a).totalCompare (← Act.double b))
      | .object => throw (.invalidInstruction pc)
    Act.assign r (.int (orderNumber order))
  | .same op r a b =>
    let same := (← Act.ref a) == (← Act.ref b)
    match op with
    | .eq => Act.assign r (.ofBool same)
    | .ne => Act.assign r (.ofBool !same)
    | _ => throw (.invalidInstruction pc)
  | .arrayLength r a =>
    let elements ← (← Act.object (← nonNull pc (← Act.ref a))).elements pc
    Act.assign r (.int (Int32.ofNat elements.size))
  | .nullCheck r a => Act.assign r (.ref (some (← nonNull pc (← Act.ref a))))
  | .arrayGet kind r array index =>
    let object ← nonNull pc (← Act.ref array)
    let index ← Act.int index
    let elements ← (← Act.object object).elements pc
    let v ← expectSome pc (elements.get? (← elementIndex pc index elements.size))
    unless ← Act.offer ⟨kind, r⟩ v do throw (.invalidInstruction pc)
  | .arraySet kind array index value =>
    let object ← nonNull pc (← Act.ref array)
    let index ← Act.int index
    let v ← Act.value ⟨kind, value⟩
    let elements ← (← Act.object object).elements pc
    let position ← elementIndex pc index elements.size
    unless ← Act.offerElement object elements position v do throw (.invalidInstruction pc)
  | .getField kind r object field =>
    match ← Act.object (← nonNull pc (← Act.ref object)) with
    | .record _ fields =>
      let v ← expectSome pc fields[field]?
      unless ← Act.offer ⟨kind, r⟩ v do throw (.invalidInstruction pc)
    | _ => throw (.invalidInstruction pc)
  | .getStatic kind r field =>
    let v ← im.env.staticValue (← get).world field
    unless ← Act.offer ⟨kind, r⟩ v do throw (.invalidInstruction pc)
  | .cast r a target =>
    let value ← Act.ref a
    if let some object := value then
      unless ← im.env.classes.isInstance (← Act.object object) target do
        throw (.classCast (← im.env.classes.classInfo target).name pc)
    Act.assign r (.ref value)
  | .instanceOf r a target =>
    let is ← match ← Act.ref a with
      | some object => im.env.classes.isInstance (← Act.object object) target
      | none => pure false
    Act.assign r (.ofBool is)
  | .lowerBound index =>
    let index ← Act.int index
    if index.toInt < 0 then throw (.indexOutOfBounds index none pc)
  | .upperBound index array =>
    let elements ← (← Act.object (← nonNull pc (← Act.ref array))).elements pc
    let index ← Act.int index
    if (elements.size : Int) ≤ index.toInt then throw (.indexOutOfBounds index (some elements.size) pc)
  | .call site =>
    let site ← expectSome pc im.program.sites[site]?
    let f ← im.env.function site.function
    let receiver ← match site.receiver with
      | some slot => pure [Value.ref (some (← nonNull pc (← Act.ref slot)))]
      | none => pure []
    let args ← site.args.mapM Act.value
    let v ← Act.invoke im pc site.function f (receiver ++ args)
    if let some result := site.result then
      unless ← Act.offer result v do throw (.native f.qualifiedName pc (.wrongKind result.kind))
  | .goto target =>
    Act.goTo (← im.program.address pc target)
    return
  | .jumpIf polarity cond target =>
    Act.goTo (← if ((← Act.int cond) != 0) == polarity then im.program.address pc target else pure (pc + 1))
    return
  | .unreachable => throw (.unreachable pc)
  | .nop => throw (.invalidInstruction pc)
  | .stop =>
    modify fun m => { m with stopped := true }
    return
  Act.goTo (pc + 1)

/-- Runs the instruction at the program counter. -/
def dispatch (im : Image) : Act Unit := do
  let pc := (← get).pc
  match im.program.code[pc]? with
  | some i => im.execute pc i
  | none => throw (.invalidJump pc pc)

/-- One instruction, from a machine to the machine it leaves. -/
def step (im : Image) (m : Machine) : StepResult :=
  match im.dispatch m with
  | .ok _ m => .ok m
  | .error e m => .failed e m

end Image

end SlotCode
