/-
  SlotCode.Machine.Error — why a run ends before `stop`.

  Every check that fails names the address of its instruction. Running out of steps is
  apart: the machine is intact then and can go on.
-/

import SlotCode.Missing
import SlotCode.Slot

namespace SlotCode

/-- Why a native call did not succeed. -/
inductive NativeFailure where
  | failed (message : String)
  /-- The native gave a value of another kind than the result's. -/
  | wrongKind (kind : Kind)
  deriving DecidableEq, Repr

def NativeFailure.message : NativeFailure → String
  | .failed message => message
  | .wrongKind kind => s!"returned a value outside the {kind.name} partition"

/-- Why arguments do not fit the parameters. -/
inductive ArgumentError where
  | count (expected given : Nat)
  | kind (index : Nat) (given expected : Kind)
  deriving DecidableEq, Repr

def ArgumentError.message : ArgumentError → String
  | .count expected given => s!"expected {expected} arguments, got {given}"
  | .kind index given expected => s!"argument {index} is {given.name}, expected a {expected.name} value"

inductive RuntimeError where
  | divisionByZero (pc : Nat)
  /-- A check against the lower bound alone does not know the length. -/
  | indexOutOfBounds (index : Int32) (length : Option Nat) (pc : Nat)
  | nullPointer (pc : Nat)
  | classCast (className : String) (pc : Nat)
  | unreachable (pc : Nat)
  | invalidJump (target pc : Nat)
  /-- The instruction does not fit the program or the values it meets. -/
  | invalidInstruction (pc : Nat)
  | invalidArguments (cause : ArgumentError)
  | native (function : String) (pc : Nat) (cause : NativeFailure)
  | missing (what : Missing)
  deriving DecidableEq, Repr

/-- The name of the cause alone, for hosts that tell causes apart. -/
def RuntimeError.name : RuntimeError → String
  | .divisionByZero .. => "DivisionByZero"
  | .indexOutOfBounds .. => "IndexOutOfBounds"
  | .nullPointer .. => "NullPointer"
  | .classCast .. => "ClassCast"
  | .unreachable .. => "Unreachable"
  | .invalidJump .. => "InvalidJump"
  | .invalidInstruction .. => "InvalidInstruction"
  | .invalidArguments .. => "InvalidArguments"
  | .native .. => "Native"
  | .missing .. => "Missing"

def RuntimeError.message : RuntimeError → String
  | .divisionByZero pc => s!"Division by zero at @{pc}"
  | .indexOutOfBounds index none pc => s!"Index {index.toInt} out of bounds at @{pc}"
  | .indexOutOfBounds index (some length) pc => s!"Index {index.toInt} out of bounds (length: {length}) at @{pc}"
  | .nullPointer pc => s!"Null dereference at @{pc}"
  | .classCast className pc => s!"Value is not an instance of {className} at @{pc}"
  | .unreachable pc => s!"Reached unreachable code at @{pc}"
  | .invalidJump target pc => s!"Jump from @{pc} to invalid address @{target}"
  | .invalidInstruction pc => s!"Malformed instruction at @{pc}"
  | .invalidArguments cause => s!"Invalid arguments: {cause.message}"
  | .native function pc cause => s!"Native call {function} failed at @{pc}: {cause.message}"
  | .missing _ => "No such table entry"

inductive ExecutionError where
  | runtime (e : RuntimeError)
  | stepLimit (limit : Nat)
  deriving DecidableEq, Repr

def ExecutionError.name : ExecutionError → String
  | .runtime e => e.name
  | .stepLimit _ => "StepLimit"

def ExecutionError.message : ExecutionError → String
  | .runtime e => e.message
  | .stepLimit limit => s!"Execution exceeded the limit of {limit} steps"

end SlotCode
