/-
  SlotCode.Proofs.Agreement — when a machine is where an evaluation is.

  A `Scene` is one call of a lowered function: the context of its lowering, the image of
  the finished program and the arguments. Inside it, `Final` says that a state of lowering
  will become the program, with its open exits going to given addresses (`Landings`).

  `Agrees` compares a store with a machine: the same world, the parameters hold the
  arguments and the variables the locals. It also says which registers have not changed
  since an `Anchor`: those that were live there. One register may be left out of all this,
  the hint that the last instruction of a node has just written.

  Proved: how agreement goes on when a register is written, when a variable is assigned
  and when the anchor moves; that a machine agrees with one store only; and that what an
  operator was handed (`Held`) can still be read when it fires.
-/

import SlotCode.Proofs.Bookkeeping
import SlotCode.Proofs.MachineSteps
import SlotCode.Proofs.SealedCode

namespace SlotCode

open Lowering

/-! ## The scene -/

/-- One call of a lowered function. -/
structure Scene where
  ctx : Context
  image : Image
  args : List Value
  fuel : Nat

namespace Scene

/-- The function as it is evaluated in the scene; its texts are the objects of the image. -/
def reading (S : Scene) : Reading where
  function := S.ctx.function
  env := S.ctx.env
  args := S.args
  literal s := (S.image.program.texts.idxOf? s).bind (S.image.texts[·]?)

def code (S : Scene) : Array Instruction := S.image.program.code

structure Valid (S : Scene) : Prop where
  shaped : S.ctx.function.WellShaped
  bound : ∀ id, S.ctx.function.Reachable id → id < S.ctx.function.nodes.size
  apart : (S.ctx.params ++ S.ctx.vars).Nodup
  params : S.ctx.function.params.map ValueType.kind? = S.ctx.params.map fun x => some x.kind
  vars : S.ctx.function.locals.map ValueType.kind? = S.ctx.vars.map fun x => some x.kind
  env : S.image.env = S.ctx.env
  texts : S.image.program.texts.toList.Nodup
  sealed : S.image.program.Sealed

end Scene

/-- Where exits of the open blocks and loops go, innermost first. -/
structure Landings where
  /-- Each block with whether its value is read, and where it ends. -/
  blocks : List ((BlockId × Bool) × Nat) := []
  /-- Each loop with its head and where it ends. -/
  loops : List (LoopId × Nat × Nat) := []

namespace Landings

/-- Leaving a node abruptly leads to an address. A block that owes a value is never left so. -/
inductive Lands (g : Landings) : Abrupt → Nat → Prop
  | exitBlock {name : BlockId} {a : Nat} :
      g.blocks.find? (·.1.1 = name) = some ((name, false), a) → g.Lands (.exitBlock name) a
  | exitLoop {name : LoopId} {head a : Nat} :
      g.loops.find? (·.1 = name) = some (name, head, a) → g.Lands (.exitLoop name) a
  | continueLoop {name : LoopId} {head a : Nat} :
      g.loops.find? (·.1 = name) = some (name, head, a) → g.Lands (.continueLoop name) head

def inBlock (g : Landings) (name : BlockId) (demanded : Bool) (a : Nat) : Landings :=
  { g with blocks := ((name, demanded), a) :: g.blocks }

def inLoop (g : Landings) (name : LoopId) (head a : Nat) : Landings := { g with loops := (name, head, a) :: g.loops }

variable {g : Landings}

/-- An exit inside a block ends the block or goes on outside. -/
theorem Lands.of_inBlock {name : BlockId} {demanded : Bool} {end_ a : Nat} {x : Abrupt}
    (h : (g.inBlock name demanded end_).Lands x a) :
    (x = .exitBlock name ∧ demanded = false ∧ a = end_) ∨ (x ≠ .exitBlock name ∧ g.Lands x a) := by
  cases h with
  | exitBlock hfind =>
    rename_i other
    rw [inBlock, List.find?_cons] at hfind
    by_cases hn : name = other
    · subst hn
      simp only [decide_true, Option.some.injEq, Prod.mk.injEq, true_and] at hfind
      exact .inl ⟨rfl, hfind.1, hfind.2.symm⟩
    · simp only [hn, decide_false] at hfind
      exact .inr ⟨fun he => hn (Abrupt.exitBlock.inj he).symm, .exitBlock hfind⟩
  | exitLoop hfind => exact .inr ⟨Abrupt.noConfusion, .exitLoop hfind⟩
  | continueLoop hfind => exact .inr ⟨Abrupt.noConfusion, .continueLoop hfind⟩

/-- An exit inside a loop ends it, starts it over or goes on outside. -/
theorem Lands.of_inLoop {name : LoopId} {head end_ a : Nat} {x : Abrupt} (h : (g.inLoop name head end_).Lands x a) :
    (x = .exitLoop name ∧ a = end_) ∨ (x = .continueLoop name ∧ a = head) ∨
      (x ≠ .exitLoop name ∧ x ≠ .continueLoop name ∧ g.Lands x a) := by
  cases h with
  | exitBlock hfind => exact .inr (.inr ⟨Abrupt.noConfusion, Abrupt.noConfusion, .exitBlock hfind⟩)
  | exitLoop hfind =>
    rename_i other _
    rw [inLoop, List.find?_cons] at hfind
    by_cases hn : name = other
    · subst hn
      simp only [decide_true, Option.some.injEq, Prod.mk.injEq, true_and] at hfind
      exact .inl ⟨rfl, hfind.2.symm⟩
    · simp only [hn, decide_false] at hfind
      exact .inr (.inr ⟨fun he => hn (Abrupt.exitLoop.inj he).symm, Abrupt.noConfusion, .exitLoop hfind⟩)
  | continueLoop hfind =>
    rename_i other _
    rw [inLoop, List.find?_cons] at hfind
    by_cases hn : name = other
    · subst hn
      simp only [decide_true, Option.some.injEq, Prod.mk.injEq, true_and] at hfind
      exact .inr (.inl ⟨rfl, hfind.1.symm⟩)
    · simp only [hn, decide_false] at hfind
      exact .inr (.inr ⟨Abrupt.noConfusion, fun he => hn (Abrupt.continueLoop.inj he).symm, .continueLoop hfind⟩)

end Landings

/-! ## States that become the program -/

/-- The state will become the program of the scene, and its open exits go where `g` says. -/
structure Final (S : Scene) (g : Landings) (s : State) : Prop where
  code : s.draft.Becomes S.code
  blocks : List.Forall₂ (fun (f : BlockFrame) y => f.block = y.1.1 ∧ ∀ p ∈ f.breaks, p.Aims S.code y.2) s.blocks g.blocks
  loops : List.Forall₂ (fun (f : LoopFrame) y => f.loop = y.1 ∧ f.header = y.2.1 ∧
    ∀ p ∈ f.breaks, p.Aims S.code y.2.2) s.loops g.loops
  texts : ∀ (i : Nat) (x : String), s.texts[i]? = some x → S.image.program.texts[i]? = some x
  sites : ∀ (i : Nat) (x : CallSite), s.sites[i]? = some x → S.image.program.sites[i]? = some x
  sizes : ∀ k, (s.pool.get k).size ≤ S.image.program.counts.get k

variable {S : Scene} {g : Landings} {s t : State}

/-- What becomes the program did so at every earlier state too. -/
theorem Lowering.Grows.final (h : Grows s t) (hf : Final S g t) : Final S g s where
  code := h.draft.becomes _ hf.code
  blocks := forall₂_comp (fun _ _ _ hb hy => ⟨hb.block.trans hy.1, fun p hp => hy.2 p (hb.breaks p hp)⟩) h.blocks hf.blocks
  loops := forall₂_comp (fun _ _ _ hb hy => ⟨hb.loop.trans hy.1, hb.header.trans hy.2.1,
    fun p hp => hy.2.2 p (hb.breaks p hp)⟩) h.loops hf.loops
  texts i x hx := hf.texts i x (h.texts i x hx)
  sites i x hx := hf.sites i x (h.sites i x hx)
  sizes k := Nat.le_trans (h.sizes k) (hf.sizes k)

theorem Final.closedBlock {name : BlockId} {frame : BlockFrame} (h : BlockClosed s t name frame) (hf : Final S g t)
    (demanded : Bool) : Final S (g.inBlock name demanded t.draft.label) s := by
  obtain ⟨htexts, hsites, hpool⟩ := h.tables
  refine ⟨h.draft.becomes _ hf.code, ?_, h.loops ▸ hf.loops, htexts ▸ hf.texts, hsites ▸ hf.sites, hpool ▸ hf.sizes⟩
  rw [h.stack]
  refine .cons ⟨h.name, fun p hp => ?_⟩ hf.blocks
  rw [h.label]
  exact h.aims _ hf.code p hp

theorem Final.closedLoop {name : LoopId} {head : Nat} {frame : LoopFrame} (h : LoopClosed s t name head frame)
    (hf : Final S g t) : Final S (g.inLoop name head t.draft.label) s := by
  obtain ⟨htexts, hsites, hpool⟩ := h.tables
  refine ⟨h.draft.becomes _ hf.code, h.blocks ▸ hf.blocks, ?_, htexts ▸ hf.texts, hsites ▸ hf.sites, hpool ▸ hf.sizes⟩
  rw [h.stack]
  refine .cons ⟨h.name, h.header, fun p hp => ?_⟩ hf.loops
  rw [h.label]
  exact h.aims _ hf.code p hp

/-- An instruction emitted at the end of the code so far. -/
theorem Final.emitted {ins : Instruction} (h : Final S g { s with draft := s.draft.add ins }) (hn : ins ≠ .nop)
    (hj : Draft.isPendingJump ins = false) : S.code[s.draft.label]? = some ins :=
  h.code.at ((Draft.getElem?_push s.draft ins _).trans (if_pos rfl)) hn hj

/-! ## Agreement -/

/-- Where a stretch of a run began: the machine, and the slots that were live. -/
structure Anchor where
  live : TypedSlot → Bool
  machine : Machine

/-- The machine is where the evaluation is, and what was live at the anchor is unchanged; the register
    `skip` is left out. -/
structure Agrees (S : Scene) (A : Anchor) (skip : Option TypedSlot) (σ : Store) (m : Machine) : Prop where
  world : m.world = σ.world
  going : m.stopped = false
  params : ∀ (i : Nat) x, S.ctx.params[i]? = some x → ∃ v, S.args[i]? = some v ∧ m.registers.get? x = some v
  vars : ∀ (j : Nat) x, S.ctx.vars[j]? = some x → some x ≠ skip →
    ∃ v, σ.locals[j]? = some v ∧ m.registers.get? x = some v
  count : σ.locals.length = S.ctx.vars.length
  covers : ∀ x, x.slot < S.image.program.counts.get x.kind → m.registers.has x = true
  kept : ∀ x, A.live x = true ∨ x ∈ S.ctx.params → some x ≠ skip →
    m.registers.get? x = A.machine.registers.get? x

variable {A : Anchor} {σ τ : Store} {m m₁ : Machine} {x : TypedSlot} {v : Value} {skip : Option TypedSlot}

namespace Agrees

theorem anchor (h : Agrees S A none σ m) (live : TypedSlot → Bool) : Agrees S ⟨live, m⟩ none σ m :=
  ⟨h.world, h.going, h.params, h.vars, h.count, h.covers, fun _ _ _ => rfl⟩

theorem goto (h : Agrees S A skip σ m) (pc : Nat) : Agrees S A skip σ { m with pc } :=
  ⟨h.world, h.going, h.params, h.vars, h.count, h.covers, h.kept⟩

theorem moved (h : Agrees S A skip σ m) (w : World) : Agrees S A skip { σ with world := w } (m.moved w) :=
  ⟨rfl, h.going, h.params, h.vars, h.count, h.covers, h.kept⟩

theorem leaveOut (h : Agrees S A none σ m) (x : TypedSlot) : Agrees S A (some x) σ m :=
  ⟨h.world, h.going, h.params, fun j y hy _ => h.vars j y hy nofun, h.count, h.covers, fun y hy _ => h.kept y hy nofun⟩

/-- An anchor may be moved back to an earlier one, where less was live. -/
theorem rebase {live : TypedSlot → Bool} (h : Agrees S ⟨live, m₁⟩ skip σ m) (h₁ : Agrees S A none τ m₁)
    (hlive : ∀ x, A.live x = true → live x = true) : Agrees S A skip σ m := by
  refine ⟨h.world, h.going, h.params, h.vars, h.count, h.covers, fun x hx hs => ?_⟩
  rw [h.kept x (hx.imp_left (hlive x)) hs]
  exact h₁.kept x hx nofun

theorem wrote (h : Agrees S A none σ m) (hx : x ∉ S.ctx.params) (hv : v.kind = x.kind) :
    Agrees S A (some x) σ (m.wrote x v) := by
  have hget : ∀ y, some y ≠ some x → (m.wrote x v).registers.get? y = m.registers.get? y := by
    intro y hy
    refine Registers.get?_put_ne fun he => hy ?_
    rw [he, hv]
  refine ⟨h.world, h.going, fun i y hy => ?_, fun j y hy hne => ?_, h.count, fun y hy => ?_, fun y hy hne => ?_⟩
  · have hne : some y ≠ some x := fun he => hx (Option.some.inj he ▸ List.mem_of_getElem? hy)
    rw [hget y hne]
    exact h.params i y hy
  · rw [hget y hne]
    exact h.vars j y hy nofun
  · rw [Machine.wrote, Registers.has_put]
    exact h.covers y hy
  · rw [hget y hne]
    exact h.kept y hy nofun

/-- A register that nobody looks at need not be left out. -/
theorem unskip (h : Agrees S A (some x) σ m) (hlive : A.live x = false) (hp : x ∉ S.ctx.params) (hv : x ∉ S.ctx.vars) :
    Agrees S A none σ m := by
  refine ⟨h.world, h.going, h.params, fun j y hy _ => ?_, h.count, h.covers, fun y hy _ => ?_⟩
  · refine h.vars j y hy fun he => hv ?_
    rw [← Option.some.inj he]
    exact List.mem_of_getElem? hy
  · refine h.kept y hy fun he => ?_
    rw [Option.some.inj he, hlive] at hy
    rcases hy with hy | hy
    · cases hy
    · exact hp hy

/-- A write of what was there changes nothing. -/
theorem rewrote (h : Agrees S A none σ m) (hx : m.registers.get? x = some v) : Agrees S A none σ (m.wrote x v) := by
  have hkind := Registers.kind_of_get? hx
  have hget : ∀ y, (m.wrote x v).registers.get? y = m.registers.get? y := by
    intro y
    by_cases hy : y = x
    · subst hy
      have hhas : m.registers.has ⟨v.kind, y.slot⟩ = true := by
        rw [hkind]
        exact Registers.has_of_get? hx
      have := Registers.get?_put_self hhas
      rw [hkind] at this
      exact this.trans hx.symm
    · refine Registers.get?_put_ne fun he => hy ?_
      rw [he, hkind]
  refine ⟨h.world, h.going, fun i y hy => ?_, fun j y hy hne => ?_, h.count, fun y hy => ?_, fun y hy hne => ?_⟩
  · rw [hget]
    exact h.params i y hy
  · rw [hget]
    exact h.vars j y hy hne
  · rw [Machine.wrote, Registers.has_put]
    exact h.covers y hy
  · rw [hget]
    exact h.kept y hy hne

/-- The variable's register was written, so the variable is assigned. -/
theorem assigned {j : Nat} (h : Agrees S A (some x) σ m) (hS : S.Valid) (hj : S.ctx.vars[j]? = some x)
    (hx : m.registers.get? x = some v) (hlive : A.live x = false) :
    Agrees S A none { σ with locals := σ.locals.set j v } m := by
  obtain ⟨-, hvars, hdisjoint⟩ := List.nodup_append.1 hS.apart
  have hmem : x ∈ S.ctx.vars := List.mem_of_getElem? hj
  refine ⟨h.world, h.going, h.params, fun k y hy _ => ?_, by simpa using h.count, h.covers, fun y hy _ => ?_⟩
  · by_cases hk : j = k
    · subst hk
      obtain rfl : x = y := Option.some.inj (hj.symm.trans hy)
      have hlt : j < σ.locals.length := by
        rw [h.count]
        exact (List.getElem?_eq_some_iff.1 hj).1
      exact ⟨v, by simp [hlt], hx⟩
    · have hne : some y ≠ some x := by
        intro he
        obtain rfl := Option.some.inj he
        exact hk ((List.getElem?_inj (List.getElem?_eq_some_iff.1 hj).1 hvars).1 (hj.trans hy.symm))
      obtain ⟨w, hw, hr⟩ := h.vars k y hy hne
      exact ⟨w, by simpa [List.getElem?_set_ne hk] using hw, hr⟩
  · refine h.kept y hy fun he => ?_
    rw [Option.some.inj he, hlive] at hy
    rcases hy with hy | hy
    · cases hy
    · exact hdisjoint _ hy _ hmem rfl

/-- A machine agrees with one store only. -/
theorem store_unique {B : Anchor} (h₁ : Agrees S A none σ m) (h₂ : Agrees S B none τ m) : σ = τ := by
  obtain ⟨l₁, w₁⟩ := σ
  obtain ⟨l₂, w₂⟩ := τ
  have hworld : w₁ = w₂ := h₁.world.symm.trans h₂.world
  have hlocals : l₁ = l₂ := by
    refine List.ext_getElem? fun j => ?_
    have hc₁ : l₁.length = S.ctx.vars.length := h₁.count
    have hc₂ : l₂.length = S.ctx.vars.length := h₂.count
    cases hj : S.ctx.vars[j]? with
    | none =>
      have hle : S.ctx.vars.length ≤ j := List.getElem?_eq_none_iff.1 hj
      rw [List.getElem?_eq_none (by omega), List.getElem?_eq_none (by omega)]
    | some y =>
      obtain ⟨v, hv, hr⟩ := h₁.vars j y hj nofun
      obtain ⟨w, hw, hr'⟩ := h₂.vars j y hj nofun
      exact hv.trans (Eq.trans (hr.symm.trans hr') hw.symm)
  rw [hworld, hlocals]

end Agrees

/-! ## Values in registers -/

/-- A value is in a register, which is left out of the agreement. -/
structure Stored (S : Scene) (A : Anchor) (x : TypedSlot) (v : Value) (σ : Store) (m : Machine) : Prop where
  agrees : Agrees S A (some x) σ m
  value : m.registers.get? x = some v

theorem Agrees.stored (h : Agrees S A none σ m) (hx : x ∉ S.ctx.params) (hv : v.kind = x.kind)
    (hhas : m.registers.has x = true) : Stored S A x v σ (m.wrote x v) := by
  refine ⟨h.wrote hx hv, ?_⟩
  obtain ⟨k, i⟩ := x
  cases hv
  exact Registers.get?_put_self hhas

/-- What an operator was handed: a value in a register that is live or a parameter's, or a variable. -/
def Held (S : Scene) (live : TypedSlot → Bool) (m : Machine) (x : TypedSlot) : Operand → Prop
  | .value v => m.registers.get? x = some v ∧ (live x = true ∨ x ∈ S.ctx.params)
  | .var j => S.ctx.vars[j]? = some x

theorem Held.later {live live' : TypedSlot → Bool} {o : Operand} (h : Held S live m₁ x o)
    (ha : Agrees S ⟨live, m₁⟩ none σ m) (hl : ∀ x, live x = true → live' x = true) : Held S live' m x o := by
  cases o with
  | var j => exact h
  | value v => exact ⟨(ha.kept x h.2 nofun).trans h.1, h.2.imp_left (hl x)⟩

end SlotCode
