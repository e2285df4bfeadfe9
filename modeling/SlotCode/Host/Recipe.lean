/-
  SlotCode.Host.Recipe — ready-made natives.

  A recipe describes a native by what it gives back: a fixed value, an argument, the next
  item of a list, a sum, a text, a field, a new object.
-/

import SlotCode.Host.Environment

namespace SlotCode

inductive Recipe where
  | const (l : Literal)
  | fail (message : String)
  | arg (k : Nat)
  /-- One item for each call, and then none; an item may be a failure. -/
  | script (items : List (Except String Literal))
  /-- One item for each call, over and over. -/
  | cycle (items : List Literal)
  /-- The wrapped sum of the int and long arguments, as an int or a long. -/
  | sum (long : Bool)
  /-- The texts of the arguments, and what is no text in words. -/
  | concat
  | getField (k : Nat)
  /-- Stores argument `a` in field `k` of the first argument. -/
  | setField (k a : Nat)
  | setStatic (id : StaticId) (a : Nat)
  /-- As long as the first argument says. -/
  | newArray (kind : Kind)
  | newInstance (id : ClassId)
  deriving Repr

namespace Recipe

/-- A native that has the world at hand. -/
abbrev Act := ExceptT NativeError (StateM World)

def failWith {α : Type} (message : String) : Act α := throw (.failed message)

def read (l : Literal) : Act Value := modifyGet l.read

def make (o : Object) : Act Value := modifyGet (·.make o)

def argument (args : List Value) (k : Nat) : Act Value :=
  match args[k]? with
  | some v => pure v
  | none => failWith "missing argument"

/-- The first argument as an instance. -/
def receiver (args : List Value) : Act (Ref × ClassId × Array Value) := do
  match ← argument args 0 with
  | .ref (some r) =>
    match (← get).heap.get r with
    | .record classId fields => pure (r, classId, fields)
    | _ => failWith "receiver is not an instance"
  | _ => failWith "receiver is null"

def addend : Value → Int64
  | .int v => v.toInt64
  | .long v => v
  | _ => 0

def act (classes : ClassTable) (earlier : Nat) (args : List Value) : Recipe → Act Value
  | .const l => read l
  | .fail message => failWith message
  | .arg k => argument args k
  | .script items =>
    match items[earlier]? with
    | some (.ok l) => read l
    | some (.error message) => failWith message
    | none => failWith "script exhausted"
  | .cycle items =>
    match items[earlier % items.length]? with
    | some l => read l
    | none => failWith "script exhausted"
  | .sum long => do
    let total := (args.map addend).foldl (· + ·) 0
    pure (if long then .long total else .int total.toInt32)
  | .concat => do
    let heap := (← get).heap
    make (.text (String.join (args.map fun v => (heap.text? v).getD (heap.describe v))))
  | .getField k => do
    let (_, _, fields) ← receiver args
    match fields[k]? with
    | some v => pure v
    | none => failWith "no such field"
  | .setField k a => do
    let (r, classId, fields) ← receiver args
    if fields.size ≤ k then failWith "no such field"
    let v ← argument args a
    modify (·.store r (.record classId (fields.setIfInBounds k v)))
    pure v
  | .setStatic id a => do
    let v ← argument args a
    match (← get).setStatic id v with
    | .ok w => set w
    | .error what => throw (.missing what)
    pure v
  | .newArray kind => do
    match ← argument args 0 with
    | .int length =>
      if 0 ≤ length.toInt ∧ length.toInt < 1000 then make (.array (.new kind length.toInt.toNat))
      else failWith "bad array length"
    | _ => failWith "bad array length"
  | .newInstance id =>
    match classes.instantiate id with
    | .ok o => make o
    | .error what => throw (.missing what)

def body (r : Recipe) : NativeBody := fun classes earlier args w => (r.act classes earlier args).run.run w

end Recipe

end SlotCode
