/-
  SlotCode.Proofs.OncePerNode — every node is lowered once, however often it is shared.

  When the walk is over, the nodes that the body leads to are all built and nothing is
  underway. So the code holds the work of each of them, once, and nothing else: one
  instruction for an operation that the node has to perform, one call and one call site
  for a call. The calls refer to the sites in order.

  Proved: `compile_works_once`.
-/

import Mathlib.Algebra.BigOperators.Pi
import SlotCode.Proofs.Cycles

namespace SlotCode

namespace Lowering

variable {ctx : Context} {p : Program}

theorem sum_singletons {α : Type} (g : NodeId → Option α) (ids : List NodeId) :
    (ids.map fun id => ((g id).toList : Multiset α)).sum = (ids.filterMap g : Multiset α) := by
  induction ids with
  | nil => rfl
  | cons id ids ih =>
    rw [List.map_cons, List.sum_cons, ih]
    cases h : g id <;> simp [h]

/-- The work of all nodes that the body leads to. -/
theorem work_reachable (f : Function) (env : Environment) (h : f.order.Nodup) :
    ∑ id ∈ f.order.toFinset, f.work env id =
      ((f.order.filterMap (f.operation? env) : Multiset Operation),
        (f.order.filterMap (f.callee? env) : Multiset (Option FunctionId))) := by
  refine Prod.ext ?_ ?_
  · rw [Prod.fst_sum, List.sum_toFinset _ h]
    exact sum_singletons _ _
  · rw [Prod.snd_sum, List.sum_toFinset _ h]
    exact sum_singletons _ _

/-- What the walk left behind is the work of every node, and the calls refer to the sites in order. -/
theorem Passage.work (P : Passage ctx p) :
    P.walked.work = ∑ id ∈ ctx.function.order.toFinset, ctx.function.work ctx.env id ∧
      P.walked.draft.picked Instruction.site? = List.range P.walked.sites.size := by
  have hlaid := (P.outset.body_works (walk ctx 0 0)).meets.ok rfl P.walks
  obtain ⟨hbalanced, hbody⟩ := P.balanced
  refine ⟨?_, hlaid.calls⟩
  have hbuilt : {id ∈ ctx.function.order.toFinset | P.walked.stage id = .built} = ctx.function.order.toFinset :=
    Finset.filter_true_of_mem fun id hid => hbalanced.all_built hbody (Function.mem_order.1 (List.mem_toFinset.1 hid))
  rw [hlaid.work, hbuilt, add_zero]

/-- Binding the result and ending the code add nothing that counts. -/
theorem Passage.picked {β : Type} (P : Passage ctx p) {pick : Instruction → Option β}
    (hmove : ∀ k r a, pick (.move k r a) = none) (hstop : pick .stop = none) :
    p.code.toList.filterMap pick = P.walked.draft.picked pick := by
  have hbound : P.bound.draft.picked pick = P.walked.draft.picked pick := by
    rcases resultBinding_ok P.binds with ⟨-, hbound, -⟩ | ⟨x, -, -, -, hbound⟩
    · rw [hbound]
    · rw [hbound]
      show (P.walked.draft.add _).picked pick = _
      rw [Draft.picked_add, hmove]
      simp
  rw [P.code_eq, Array.toList_push, List.filterMap_append, ← hbound]
  simp [hstop, Draft.picked]

end Lowering

open Lowering

/-- A program performs, in some order, the operation of each node that the body leads to and that has one to perform,
    however many parents share the node; and for each call it has one site. The calls of the code refer to the sites
    in order. -/
theorem compile_works_once {f : Function} {env : Environment} {options : CompileOptions} {p : Program}
    (h : compile f env options = .ok p) :
    f.order.Nodup ∧ (∀ id, id ∈ f.order ↔ f.Reachable id) ∧
      (p.code.toList.filterMap Instruction.operation?).Perm (f.order.filterMap (f.operation? env)) ∧
      p.code.toList.filterMap Instruction.site? = List.range p.sites.size ∧
      (p.sites.toList.map fun site => some site.function).Perm (f.order.filterMap (f.callee? env)) := by
  obtain ⟨params, vars, ⟨P⟩⟩ := compile_passage h
  obtain ⟨hbound, -, -⟩ := Demand.analyze_ok P.analyzed
  have hnodup : f.order.Nodup := Function.order_nodup hbound
  obtain ⟨hwork, hcalls⟩ := P.work
  rw [work_reachable f env hnodup] at hwork
  have hsites : p.sites = P.walked.sites := by
    rw [P.tables.2.2.1]
    rcases resultBinding_ok P.binds with ⟨-, hb, -⟩ | ⟨x, -, -, -, hb⟩ <;> rw [hb]
  refine ⟨hnodup, fun id => Function.mem_order, ?_, ?_, ?_⟩
  · rw [P.picked (fun _ _ _ => rfl) rfl]
    exact Multiset.coe_eq_coe.1 (congrArg Prod.fst hwork)
  · rw [P.picked (fun _ _ _ => rfl) rfl, hsites]
    exact hcalls
  · rw [hsites]
    exact Multiset.coe_eq_coe.1 (congrArg Prod.snd hwork)

/-- One native, which takes a number and gives nothing. -/
def reporting : Environment where
  functions := #[⟨"host", "report", .static, [.int], .void, fun _ _ _ world => (.ok .null, world)⟩]

/-- Reports the square of its parameter and gives twice the square; a negation on the way is read by nobody. -/
def reportedSquare : Function where
  params := [.int]
  locals := []
  nodes := #[⟨.param 0, .int⟩, ⟨.binary (.arith .int .mul) 0 0, .int⟩,
    ⟨.call ⟨"host", "report", [.int], .void⟩ .static [1], .void⟩, ⟨.unary (.negate .int) 1, .int⟩,
    ⟨.sequence 2 3, .int⟩, ⟨.binary (.arith .int .add) 1 1, .int⟩, ⟨.sequence 4 5, .int⟩]
  body := 6
  returnType := .int

theorem reportedSquare_works_once : ∃ p, compile reportedSquare reporting {} = .ok p ∧
    (p.code.toList.filterMap Instruction.operation?).Perm [.arith .int .add, .call, .arith .int .mul] ∧
      p.code.toList.filterMap Instruction.site? = List.range p.sites.size ∧
        (p.sites.toList.map fun site => some site.function).Perm [some 0] := by
  have hp : compile reportedSquare reporting {} =
      .ok { code := #[.arith .int .mul 1 0 0, .call 0, .arith .int .add 2 1 1, .stop], counts := ⟨3, 0, 0, 0, 0⟩,
            sites := #[⟨0, none, [⟨.int, 1⟩], none⟩], params := [⟨.int, 0⟩], result := some ⟨.int, 2⟩ } := by
    decide +kernel
  have hoperations : reportedSquare.order.filterMap (reportedSquare.operation? reporting) =
      [.arith .int .add, .call, .arith .int .mul] := by decide +kernel
  have hcallees : reportedSquare.order.filterMap (reportedSquare.callee? reporting) = [some 0] := by decide +kernel
  obtain ⟨-, -, hwork, hcalls, hsites⟩ := compile_works_once hp
  rw [hoperations] at hwork
  rw [hcallees] at hsites
  exact ⟨_, hp, hwork, hcalls, hsites⟩

end SlotCode
