/-
  SlotCode.Proofs.WrittenFirst — programs write registers before they read them.

  A path goes from the first address along the control flow, whatever the registers hold.
  A coverage that is right for the code and has only the fixed slots at the first address
  has, at every address, only what every path to it has written.

  Proved: `compile_writes_first` — a program lowered from a structured function reads no
  register that the path has not written, other than those of parameters and variables,
  and has written its result where it stops. Its runs go along such paths.
-/

import SlotCode.Proofs.AssignedWalk
import SlotCode.Proofs.FittingRuns

namespace SlotCode

/-! ## Paths -/

namespace Program

/-- Control may come from the first address through `visited`, the latest first, to the address. -/
inductive Path (p : Program) : List Nat → Nat → Prop
  | start : p.Path [] 0
  | step {visited : List Nat} {i j : Nat} {ins : Instruction} :
      p.Path visited i → p.code[i]? = some ins → j ∈ ins.next i → p.Path (i :: visited) j

/-- One of the instructions writes the register. -/
def Writes (p : Program) (visited : List Nat) (x : TypedSlot) : Prop :=
  ∃ i ∈ visited, ∃ ins, p.code[i]? = some ins ∧ p.writes ins = some x

variable {p : Program} {K : Coverage} {visited : List Nat} {i : Nat} {ins : Instruction}

theorem operands_eq {reads : List TypedSlot} {write : Option TypedSlot} (h : ins.operands p.sites = some (reads, write)) :
    p.reads ins = reads ∧ p.writes ins = write := by
  cases ins with
  | call site =>
    obtain ⟨c, hc, hco⟩ := Option.map_eq_some_iff.1 h
    cases hco
    simp [Program.reads, Program.writes, hc]
  | _ => exact Prod.mk.inj (Option.some.inj h)

/-- What is covered at the end of a path was covered at its start or is written on it. -/
theorem Path.written (h : p.Path visited i)
    (hcode : ∀ (i : Nat) ins, p.code[i]? = some ins → ins.Sourced K p.sites p.code.size i) :
    ∀ x ∈ K i, x ∈ K 0 ∨ p.Writes visited x := by
  induction h with
  | start => exact fun x hx => .inl hx
  | step _ hi hj ih =>
    rename_i visited i j ins _
    obtain ⟨reads, write, hop, -, hnext⟩ := hcode i ins hi
    intro x hx
    rcases (hnext j hj).2 x hx with hbefore | hwrite
    · refine (ih x hbefore).imp_right fun ⟨k, hk, hw⟩ => ?_
      exact ⟨k, List.mem_cons_of_mem _ hk, hw⟩
    · exact .inr ⟨i, List.mem_cons_self, ins, hi, (operands_eq hop).2.trans hwrite⟩

end Program

/-! ## Runs go along paths -/

/-- A straight instruction is followed by the next one. -/
theorem Instruction.next_of_straight {ins : Instruction} (h : ins.isStraight = true) (hne : ins ≠ .unreachable) (i : Nat) :
    ins.next i = [i + 1] := by
  cases ins with
  | goto | jumpIf | nop | stop => cases h
  | unreachable => exact absurd rfl hne
  | _ => rfl

namespace Program.Sealed

variable {im : Image} {m : Machine}

/-- A step goes where the control flow does; it stays where it is when it stops or fails. -/
theorem step_next (h : im.program.Sealed) {ins : Instruction} (hi : im.program.code[m.pc]? = some ins) :
    match im.step m with
    | .ok m' => m'.pc = m.pc ∨ m'.pc ∈ ins.next m.pc
    | .failed _ m' => m'.pc = m.pc := by
  rw [Image.step_eq]
  rw [hi]
  dsimp only
  by_cases hs : ins.isStraight = true
  · have he := answers_straight im m hs
    cases hr : im.effect m ins with
    | error e => rfl
    | ok e =>
      rw [hr] at he
      have hc := commit_straight im m (he.isStraight hs)
      have hne : ins ≠ .unreachable := by
        rintro rfl
        cases hr
      dsimp only
      cases hcommit : im.commit m e with
      | ok m' =>
        rw [hcommit] at hc
        rw [Instruction.next_of_straight hs hne]
        exact .inr (List.mem_singleton.2 hc)
      | failed e m' =>
        rw [hcommit] at hc
        exact hc.2
  · cases ins with
    | goto t =>
      obtain ⟨a, rfl, ha⟩ := h.targets m.pc _ t hi rfl
      have hr : im.effect m (.goto (.address a)) = .ok (.jump a) := by
        simp [Image.effect, Program.jumpTo, Label.index, ha]
      rw [hr]
      exact .inr List.mem_cons_self
    | jumpIf polarity cond t =>
      obtain ⟨a, rfl, ha⟩ := h.targets m.pc _ t hi rfl
      have hj : im.program.jumpTo m.pc (.address a) = .ok (.jump a) := by simp [Program.jumpTo, Label.index, ha]
      cases hc : m.registers.int cond with
      | error e =>
        have hr : im.effect m (.jumpIf polarity cond (.address a)) = .error (.missing e) := by
          simp only [Image.effect, hc]
          rfl
        rw [hr]
      | ok c =>
        have hr : im.effect m (.jumpIf polarity cond (.address a)) =
            if ((c != 0) == polarity) = true then .ok (.jump a) else .ok .next := by
          simp only [Image.effect, hc, hj]
          rfl
        rw [hr]
        by_cases htaken : ((c != 0) == polarity) = true
        · rw [if_pos htaken]
          exact .inr (List.mem_cons_of_mem _ List.mem_cons_self)
        · rw [if_neg htaken]
          exact .inr List.mem_cons_self
    | nop => exact absurd hi (h.filled m.pc)
    | stop => exact .inl rfl
    | _ => exact absurd rfl hs

/-- A run of sealed code goes along a path. -/
theorem advance_path (h : im.program.Sealed) (n : Nat) : ∀ (m : Machine) visited, im.program.Path visited m.pc →
    ∃ visited', im.program.Path visited' (im.advance n m).2.pc := by
  induction n with
  | zero => exact fun m visited hm => ⟨visited, hm⟩
  | succ n ih =>
    intro m visited hm
    unfold Image.advance
    split
    · exact ⟨visited, hm⟩
    · cases hi : im.program.code[m.pc]? with
      | none =>
        have hfail : im.step m = .failed (.invalidJump m.pc m.pc) m := by simp [Image.step_eq, hi]
        rw [hfail]
        exact ⟨visited, hm⟩
      | some ins =>
        have hstep := h.step_next hi
        cases hr : im.step m with
        | ok m' =>
          rw [hr] at hstep
          rcases hstep with hsame | hnext
          · exact ih m' visited (hsame ▸ hm)
          · exact ih m' _ (hm.step hi hnext)
        | failed e m' =>
          rw [hr] at hstep
          exact ⟨visited, hstep ▸ hm⟩

end Program.Sealed

/-! ## The whole lowering -/

theorem Function.Structured.wellTyped {f : Function} (h : f.Structured) : f.WellTyped := by
  intro n hn
  obtain ⟨id, hid⟩ := Array.getElem?_of_mem (Array.mem_toList_iff.1 hn)
  have htyped := h.typed id n hid
  unfold Function.TypedAs at htyped
  unfold Function.hasKind
  split at htyped <;> simp_all

namespace Lowering

variable {ctx : Context} {p : Program} {F : Facts} {B : Bases}

/-- What the walk starts from: no more than the fixed slots, and no open block or loop. -/
def Bases.none : Bases := ⟨[], [], [wholeFunction], fun _ _ _ => False⟩

theorem Passage.covered_start (P : Passage ctx p) (hf : ctx.function.Structured) :
    Covered ctx .none (fun _ => {x | x ∈ ctx.params ++ ctx.vars}) (.start ctx P.demand P.pool) := by
  obtain ⟨hbound, htallies, hleft⟩ := Demand.analyze_ok P.analyzed
  have hnode := node_start ctx P.demand P.pool
  have hnothing : ∀ id slot r, ((State.start ctx P.demand P.pool).node id).progress ≠ .built slot r := by
    intro id slot r hp
    rw [hnode] at hp
    cases hp
  refine ⟨nofun, fun _ hx => hx, fun id x r hp => absurd hp (hnothing _ _ _), fun id x r hp => absurd hp (hnothing _ _ _),
    fun id slot r hp => absurd hp (hnothing _ _ _), rfl, by simp [State.start], Nat.lt_succ_self _,
    fun id x r hp => absurd hp (hnothing _ _ _), ?_, .nil, .nil, htallies, fun id hid => ?_⟩
  · rintro x (⟨_, hbase, -⟩ | ⟨_, hbase, -⟩) <;> cases hbase
  · rw [hnode, if_pos rfl]
    obtain ⟨hsole, honce⟩ := hf.alone id hid
    obtain ⟨n, hn, -⟩ := hid
    have hlt : id < ctx.function.nodes.size := (Array.getElem?_eq_some_iff.1 hn).1
    have hat : id < ctx.function.tallies.size := (Function.counted_tallies hbound).size ▸ hlt
    -- The body of a function without cycles is nobody's child.
    have hroot : id = ctx.function.body → ∀ q, ctx.function.Reachable q → id ∉ ctx.function.children q := by
      rintro rfl q hq hc
      exact P.acyclic _ .refl (Relation.TransGen.tail' hq hc)
    have hone := Function.total_le_one_of_sole hbound hlt hroot honce hsole
    show (P.demand.left.getD id {}).consumers ≤ 1
    rw [hleft]
    simpa [tallyAt, hat] using hone

/-- The result is covered where the program stops. -/
theorem assigned_resultBinding {slot : Option TypedSlot} : Meets (Assigned ctx B (F.adding slot.toList)) (resultBinding ctx slot)
    (fun r => Assigned ctx B (F.adding r.toList)) Anyhow := by
  cases slot with
  | none => exact .pure fun _ hs => hs
  | some x =>
    unfold resultBinding
    dsimp only
    split
    · refine (assigned_acquire x.kind).bind fun r => .given fun hr => ?_
      have htakes : (Instruction.move x.kind r.slot x.slot).Takes [x] r := Instruction.takes_move hr.symm rfl
      refine (assigned_write htakes.writes fun K s h => ?_).bind fun _ => .pure fun s hs => hs.weaken fun K t h => ⟨h.1.1, h.2⟩
      rw [htakes.reads]
      exact h.2
    · exact .pure fun _ hs => hs

/-- The code of the program is sourced by a coverage that starts with the fixed slots and ends with the result. -/
theorem Passage.sourced (P : Passage ctx p) (hf : ctx.function.Structured) :
    ∃ K : Coverage, (∀ x ∈ K 0, x ∈ ctx.params ++ ctx.vars) ∧ (∀ x, p.result = some x → x ∈ K P.bound.draft.label) ∧
      p.code = P.bound.draft.code.push .stop ∧
        ∀ (i : Nat) ins, p.code[i]? = some ins → ins.Sourced K p.sites p.code.size i := by
  let K₀ : Coverage := fun _ => {x | x ∈ ctx.params ++ ctx.vars}
  let s₀ : State := .start ctx P.demand P.pool
  have hstart : Assigned ctx .none (.since s₀ K₀) s₀ := ⟨K₀, P.covered_start hf, .refl _ _⟩
  have hwalk := (walk_assigns (P.typed hf.wellTyped) hf (ctx.function.nodes.size + 1) 0).build .none (.since s₀ K₀)
    ctx.function.body P.usage none none offers_none
  have hslot : P.usage.kept P.visited.slot = P.visited.slot := by
    cases hu : P.usage with
    | value => rfl
    | ignore => exact ((meets_bodySlot P.outset).ok rfl P.walks hu).symm
  have hwalked : Assigned ctx .none ((Facts.since s₀ K₀).adding P.visited.slot.toList) P.walked := by
    have hafter := (hwalk.ok hstart P.walks).2
    rw [hslot] at hafter
    exact hafter.weaken fun _ _ h => h.1
  obtain ⟨K, hK, honward, hresult⟩ := assigned_resultBinding.ok hwalked P.binds
  obtain ⟨K', hK', honward', -⟩ := hK.stop (d := P.bound.draft.add .stop) rfl rfl nofun
  have hcode := P.code_eq
  refine ⟨K', fun x hx => ?_, fun x hx => ?_, hcode, fun i ins hi => ?_⟩
  · rw [honward'.same 0 (Nat.zero_le _), honward.same 0 (Nat.zero_le _)] at hx
    exact hx
  · rw [honward'.same _ (Nat.le_refl _)]
    exact hresult x (Option.mem_toList.2 hx)
  · rw [P.tables.2.2.1, hcode] at *
    exact hK'.code i ins hi

end Lowering

open Lowering

/-- A program lowered from a structured function writes every temporary before it reads it. On every path from the
    first address to an instruction that reads a register other than a parameter's or a variable's, an earlier
    instruction writes that register, and every path to `stop` has written the result. Every run goes along a path. -/
theorem compile_writes_first (f : Function) (env : Environment) (options : CompileOptions) (p : Program) (hf : f.Structured)
    (h : compile f env options = .ok p) :
    (∀ visited i ins, p.Path visited i → p.code[i]? = some ins → ∀ x ∈ p.reads ins, x ∉ p.params ++ p.vars →
        p.Writes visited x) ∧
      (∀ visited i, p.Path visited i → p.code[i]? = some .stop → ∀ x, p.result = some x → p.Writes visited x) ∧
      ∀ (im : Image) (m : Machine) (n : Nat), im.program = p → m.pc = 0 → ∃ visited, p.Path visited (im.advance n m).2.pc := by
  obtain ⟨params, vars, ⟨P⟩⟩ := compile_passage h
  have hsealed := compile_ok_sealed h
  obtain ⟨K, hfixed, hresult, hcode, hsourced⟩ := P.sourced hf
  obtain ⟨-, -, -, hparams, hvars⟩ := P.tables
  have hloose : ∀ x, p.result = some x → x ∉ params ++ vars := (P.typed_bound hf.wellTyped).2.1.2
  refine ⟨fun visited i ins hpath hi x hx hnot => ?_, fun visited i hpath hi x hx => ?_, fun im m n him hpc => ?_⟩
  · obtain ⟨reads, write, hop, hreads, -⟩ := hsourced i ins hi
    rw [(Program.operands_eq hop).1] at hx
    rw [hparams, hvars] at hnot
    exact (hpath.written hsourced x (hreads x hx)).resolve_left fun h0 => hnot (hfixed x h0)
  · have hat : i = P.bound.draft.label := by
      have hlast := hsealed.stops i hi
      rw [hcode, Array.size_push] at hlast
      exact Nat.succ.inj hlast
    exact (hpath.written hsourced x (hat ▸ hresult x hx)).resolve_left fun h0 => hloose x hx (hfixed x h0)
  · subst him
    exact hsealed.advance_path n m [] (hpc ▸ .start)

/-- Squares its parameter once and adds to the square what a block leaves in a variable: the square or, unless the
    block is left, its negation. -/
def guardedSquare : Function where
  params := [.int, .boolean]
  locals := [.int]
  nodes := #[⟨.param 0, .int⟩, ⟨.binary (.arith .int .mul) 0 0, .int⟩, ⟨.param 1, .boolean⟩, ⟨.setVar 0 1, .void⟩,
    ⟨.exitBlock 0, .unreachable⟩, ⟨.unary (.negate .int) 1, .int⟩, ⟨.setVar 0 5, .void⟩, ⟨.conditional 2 4 6, .void⟩,
    ⟨.block 0 7, .void⟩, ⟨.getVar 0, .int⟩, ⟨.binary (.arith .int .add) 1 9, .int⟩, ⟨.sequence 8 10, .int⟩,
    ⟨.sequence 3 11, .int⟩]
  body := 12
  returnType := .int

theorem guardedSquare_writes_first : guardedSquare.Structured ∧ ∃ p, compile guardedSquare {} {} = .ok p ∧
    p.result = some ⟨.int, 4⟩ ∧
      (∀ visited i ins, p.Path visited i → p.code[i]? = some ins → ∀ x ∈ p.reads ins, x ∉ p.params ++ p.vars →
        p.Writes visited x) ∧
      ∀ visited i, p.Path visited i → p.code[i]? = some .stop → p.Writes visited ⟨.int, 4⟩ := by
  have hf : guardedSquare.Structured := Function.structured_of_check (by decide +kernel)
  have hp : compile guardedSquare {} {} = .ok
      { code := #[.arith .int .mul 3 0 0, .move .int 2 3, .jumpIf true 1 (.address 4), .neg .int 2 3,
          .arith .int .add 4 3 2, .stop],
        counts := ⟨5, 0, 0, 0, 0⟩, params := [⟨.int, 0⟩, ⟨.int, 1⟩], vars := [⟨.int, 2⟩],
        result := some ⟨.int, 4⟩ } := by
    decide +kernel
  obtain ⟨hreads, hresult, -⟩ := compile_writes_first _ _ _ _ hf hp
  exact ⟨hf, _, hp, rfl, hreads, fun visited i hpath hi => hresult visited i hpath hi _ rfl⟩

end SlotCode
