/-
  SlotCode.Host.Environment — what code can refer to by name: classes, native functions and
  static fields.

  Names are resolved to numbers when code is generated, so running code only looks
  numbers up. A function or a static field is found under its owner and name joined by a
  point, and the one defined last wins. Natives are arbitrary functions on the world;
  each call is recorded before the native runs, so a call that fails is in the record too.
-/

import SlotCode.Graph.Node
import SlotCode.Host.World

namespace SlotCode

/-- Why a native gave no value. -/
inductive NativeError where
  | failed (message : String)
  | missing (what : Missing)
  deriving DecidableEq, Repr

/-- A native sees the classes, how often it was called before, and its arguments. -/
abbrev NativeBody := ClassTable → Nat → List Value → World → Except NativeError Value × World

structure NativeFunction where
  owner : String
  name : String
  kind : CallKind
  /-- The parameter types, without the receiver. -/
  params : List ValueType
  result : ValueType
  body : NativeBody

def NativeFunction.qualifiedName (f : NativeFunction) : String := qualified f.owner f.name

def NativeFunction.describe (f : NativeFunction) : String := f.qualifiedName ++ "/" ++ f.params.length.repr

structure StaticField where
  owner : String
  name : String
  type : ValueType
  deriving DecidableEq, Repr

structure Environment where
  classes : ClassTable := ClassTable.initial
  functions : Array NativeFunction := #[]
  statics : Array StaticField := #[]

namespace Environment

/-! ## Definitions -/

def defineClass (env : Environment) (c : ClassInfo) : ClassId × Environment :=
  (env.classes.size, { env with classes := env.classes.push c })

def defineFunction (env : Environment) (f : NativeFunction) : FunctionId × Environment :=
  (env.functions.size, { env with functions := env.functions.push f })

/-- The field is entered in the environment and its value in the world. -/
def defineStatic (env : Environment) (w : World) (field : StaticField) (v : Value) : StaticId × Environment × World :=
  (env.statics.size, { env with statics := env.statics.push field }, { w with statics := w.statics.push v })

/-! ## Look-up -/

def resolveFunction (env : Environment) (owner name : String) : Option FunctionId :=
  newest? (·.qualifiedName == qualified owner name) env.functions.toList

def function (env : Environment) (id : FunctionId) : Except Missing NativeFunction :=
  match env.functions[id]? with
  | some f => .ok f
  | none => .error (.function id)

def resolveStatic (env : Environment) (owner name : String) : Option (StaticId × ValueType) :=
  (newest? (fun field => qualified field.owner field.name == qualified owner name) env.statics.toList).bind fun id =>
    env.statics[id]?.map fun field => (id, field.type)

def staticValue (env : Environment) (w : World) (id : StaticId) : Except Missing Value :=
  if id < env.statics.size then .ok (w.statics.getD id .null) else .error (.staticField id)

/-! ## Calls -/

/-- Records the call, then runs the native. -/
def invoke (env : Environment) (id : FunctionId) (f : NativeFunction) (args : List Value) (w : World) :
    Except NativeError Value × World :=
  let earlier := w.calls.toList.countP (·.function == id)
  f.body env.classes earlier args { w with calls := w.calls.push ⟨id, f.qualifiedName, args⟩ }

end Environment

end SlotCode
