/-
  SlotCode.Machine.Run — runs of a loaded program.

  A run goes step by step until `stop` or a failure. Under a step limit it also ends when
  the limit is reached, with the machine intact, so that it can be resumed; a run without
  a limit is given fuel instead, and `unfinished` only says that the fuel is used up.
-/

import SlotCode.Machine.Step

namespace SlotCode

/-- Where a run stands after some steps. -/
inductive Ending where
  | stopped
  | failed (e : RuntimeError)
  | running
  deriving DecidableEq, Repr

inductive Outcome (α : Type) where
  | done (a : α)
  | failed (e : ExecutionError)
  | unfinished
  deriving Repr

structure ExecutionOptions where
  /-- How many steps one `resume` may take. -/
  maxSteps : Option Nat := none
  deriving DecidableEq, Repr

namespace Image

/-- Makes one object for each text of the program. -/
def load (program : Program) (env : Environment) (w : World) : Image × World :=
  let (texts, w) := program.texts.foldl (fun (texts, w) s =>
    let (r, w) := World.alloc w (.text s)
    (Array.push texts r, w)) (#[], w)
  (⟨program, env, texts⟩, w)

end Image

namespace Machine

/-- A machine for the image, at the first instruction. -/
def start (im : Image) (world : World) : Machine := { registers := .new im.program.counts, world }

/-- All registers zero, and back to the first instruction. The world stays. -/
def reset (m : Machine) : Machine := { m with registers := m.registers.reset, pc := 0, stopped := false }

end Machine

namespace Image

/-- At most `n` steps. -/
def advance (im : Image) : Nat → Machine → Ending × Machine
  | 0, m => (if m.stopped then .stopped else .running, m)
  | n + 1, m =>
    if m.stopped then (.stopped, m)
    else match im.step m with
      | .ok m => im.advance n m
      | .failed e m => (.failed e, m)

/-- Goes on from where the machine is. -/
def resume (im : Image) (options : ExecutionOptions) (fuel : Nat) (m : Machine) : Outcome Unit × Machine :=
  match im.advance (options.maxSteps.getD fuel) m with
  | (.stopped, m) => (.done (), m)
  | (.failed e, m) => (.failed (.runtime e), m)
  | (.running, m) =>
    match options.maxSteps with
    | some limit => (.failed (.stepLimit limit), m)
    | none => (.unfinished, m)

def run (im : Image) (options : ExecutionOptions) (fuel : Nat) (m : Machine) : Outcome Unit × Machine :=
  im.resume options fuel m.reset

/-- What the result register holds, if the program has one. -/
def result (im : Image) (m : Machine) : Except Missing (Option Value) :=
  match im.program.result with
  | some s => some <$> m.registers.get s
  | none => .ok none

/-- Puts arguments into their slots, up to the first that does not fit. -/
def bindArgs : Nat → List (TypedSlot × Value) → Registers → Option RuntimeError × Registers
  | _, [], r => (none, r)
  | k, (s, v) :: rest, r =>
    match r.set s v with
    | .ok (some r) => bindArgs (k + 1) rest r
    | .ok none => (some (.invalidArguments (.kind k v.kind s.kind)), r)
    | .error what => (some (.missing what), r)

/-- Runs from the start with the arguments in the parameters; gives the result. -/
def call (im : Image) (options : ExecutionOptions) (fuel : Nat) (args : List Value) (m : Machine) :
    Outcome (Option Value) × Machine :=
  let params := im.program.params
  if args.length ≠ params.length then
    (.failed (.runtime (.invalidArguments (.count params.length args.length))), m)
  else
    let m := m.reset
    let (refused, registers) := bindArgs 0 (params.zip args) m.registers
    let m := { m with registers }
    match refused with
    | some e => (.failed (.runtime e), m)
    | none =>
      match im.resume options fuel m with
      | (.done (), m) =>
        match im.result m with
        | .ok v => (.done v, m)
        | .error what => (.failed (.runtime (.missing what)), m)
      | (.failed e, m) => (.failed e, m)
      | (.unfinished, m) => (.unfinished, m)

end Image

end SlotCode
