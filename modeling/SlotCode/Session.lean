/-
  SlotCode.Session — a function evaluated in one go.

  `evaluate` lowers a function, runs the code once on the given arguments and answers with
  the value of the function or with a diagnostic for the host: what failed, under which
  code it is known, what to do about it, and the cause.
-/

import SlotCode.Lowering.Compile
import SlotCode.Machine.Run

namespace SlotCode

inductive Diagnostic where
  | build (cause : BuildError)
  | execution (cause : ExecutionError)
  deriving DecidableEq, Repr

namespace Diagnostic

def name : Diagnostic → String
  | .build _ => "Build"
  | .execution _ => "Execution"

def code : Diagnostic → String
  | .build _ => "tarn::build"
  | .execution _ => "tarn::runtime"

def message : Diagnostic → String
  | .build _ => "Failed to lower function"
  | .execution _ => "Program execution failed"

def help : Diagnostic → String
  | .build _ => "the IR handed to the lowering is malformed or uses a node kind without a lowering"
  | .execution _ => "a runtime check failed, or the run hit the configured step limit"

/-- The cause in words. -/
def source : Diagnostic → String
  | .build cause => cause.message
  | .execution cause => cause.message

end Diagnostic

inductive Evaluation where
  /-- `none` for a function without a value. -/
  | value (v : Option Value)
  | failed (d : Diagnostic)
  /-- The fuel was used up. -/
  | unfinished
  deriving DecidableEq, Repr

/-- Runs a program once on a machine of its own. -/
def Program.evaluate (p : Program) (env : Environment) (options : ExecutionOptions) (fuel : Nat) (args : List Value)
    (w : World) : Evaluation × World :=
  let (image, w) := Image.load p env w
  match image.call options fuel args (.start image w) with
  | (.done v, m) => (.value v, m.world)
  | (.failed e, m) => (.failed (.execution e), m.world)
  | (.unfinished, m) => (.unfinished, m.world)

/-- Lowers a function and runs it once. -/
def Function.evaluate (f : Function) (env : Environment) (compileOptions : CompileOptions)
    (options : ExecutionOptions) (fuel : Nat) (args : List Value) (w : World) : Evaluation × World :=
  match compile f env compileOptions with
  | .ok p => p.evaluate env options fuel args w
  | .error e => (.failed (.build e), w)

end SlotCode
