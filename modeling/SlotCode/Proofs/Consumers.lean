/-
  SlotCode.Proofs.Consumers — the walk uses up the consumers that the analysis counted.

  Every edge from a node that the body leads to is visited once, as the analysis said: for
  the value exactly where a read was counted. The exceptions are the nodes whose value is
  asked for unseen. Where such a node has no value, the analysis has counted nobody who
  reads it, and lowering stops there.

  Proved: `compile_counts_consumers`, for every function.
-/

import SlotCode.Proofs.OwnedSlots

namespace SlotCode

open Lowering

theorem compile_countMismatch {f : Function} {env : Environment} {options : CompileOptions} {id : NodeId} {u : Usage}
    (h : compile f env options = .error (.internal (.countMismatch id u))) :
    u = .value ∧ f.kind? id = none ∧ f.AskedUnseen id := by
  rcases compile_eq_error h with ⟨what, he, -⟩ | ⟨node, cause, he⟩ | ⟨params, vars, v, s, hstart, hlower | ⟨cause, he⟩⟩
  · cases he
  · cases he
  · exact (meets_lowered hstart).error rfl hlower
  · cases cause <;> cases he

/-- A consumer comes that was not counted only where a store into an array or a call asks for the value of a node
    without values. When lowering succeeds, no consumer of any node that the body leads to is left. -/
theorem compile_counts_consumers (f : Function) (env : Environment) (options : CompileOptions) :
    (∀ id u, compile f env options = .error (.internal (.countMismatch id u)) →
      u = .value ∧ f.kind? id = none ∧ f.AskedUnseen id) ∧
      ∀ p, compile f env options = .ok p → ∃ params vars, ∃ P : Passage ⟨f, env, options, params, vars⟩ p,
        ∀ id, f.Reachable id → P.walked.left id = ⟨0, 0⟩ := by
  refine ⟨fun id u h => compile_countMismatch h, fun p h => ?_⟩
  obtain ⟨params, vars, ⟨P⟩⟩ := compile_passage h
  refine ⟨params, vars, P, fun id hid => ?_⟩
  obtain ⟨hbalanced, hbody⟩ := P.balanced
  exact hbalanced.left_zero hbody (hbalanced.tracked.bound id hid)

/-- Stores nothing at all into an array. -/
def storedVoid : Function where
  params := [.object]
  locals := []
  nodes := #[⟨.param 0, .object⟩, ⟨.const (.int 0), .int⟩, ⟨.nullary .void, .void⟩, ⟨.setArrayElement 0 1 2, .void⟩]
  body := 3
  returnType := .void

theorem storedVoid_miscounted : compile storedVoid {} {} = .error (.internal (.countMismatch 2 .value)) := by decide +kernel

end SlotCode
