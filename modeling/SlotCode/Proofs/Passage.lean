/-
  SlotCode.Proofs.Passage — a lowering that succeeded, stage by stage.

  A function is analysed, its fixed slots are reserved, the walk lowers its body, the result
  is bound and the code is finished. A `Passage` holds what stood between these stages, so
  that a statement about the program can be put together from one about each stage.

  Proved: every program that lowering returns has a passage (`compile_passage`), every
  error comes from one of the stages (`compile_eq_error`), and the fixed slots are all different
  and of the declared kinds (`Passage.fixed`).
-/

import SlotCode.Proofs.Contract
import SlotCode.Proofs.OrderSpec
import SlotCode.Proofs.SlotPool

namespace SlotCode

namespace Lowering

/-- Where the walk starts: nothing is lowered, and no code is there. -/
def State.start (ctx : Context) (demand : Demand) (pool : Pool) : State :=
  { demand, pool, nodes := Array.replicate ctx.function.nodes.size {} }

/-- What is settled when the walk starts. -/
structure Outset (ctx : Context) (u : Usage) (s : State) : Prop where
  analyzed : ∃ demand, Demand.analyze ctx.function = .ok demand ∧ s = .start ctx demand s.pool
  fixed : ∃ reserved, fixedSlots ctx.function.body .parameter 0 ctx.function.params .empty = .ok (ctx.params, reserved) ∧
    fixedSlots ctx.function.body .localVariable 0 ctx.function.locals reserved = .ok (ctx.vars, s.pool)
  used : bodyUsage ctx.function = .ok u

/-- What stood between the stages of a lowering. -/
structure Passage (ctx : Context) (p : Program) where
  demand : Demand
  /-- The slots after those of the parameters were reserved. -/
  reserved : Pool
  pool : Pool
  usage : Usage
  visited : Visited
  /-- After the walk. -/
  walked : State
  /-- After the result was bound. -/
  bound : State
  analyzed : Demand.analyze ctx.function = .ok demand
  paramSlots : fixedSlots ctx.function.body .parameter 0 ctx.function.params .empty = .ok (ctx.params, reserved)
  varSlots : fixedSlots ctx.function.body .localVariable 0 ctx.function.locals reserved = .ok (ctx.vars, pool)
  used : bodyUsage ctx.function = .ok usage
  walks : (walk ctx (ctx.function.nodes.size + 1) 0).build ctx.function.body usage none none (.start ctx demand pool) =
    .ok (visited, walked)
  binds : resultBinding ctx visited.slot walked = .ok (p.result, bound)
  settled : bound.pool.liveCount = p.result.toList.length
  finished : (bound.draft.add .stop).finish = .ok p.code
  tables : p.counts = bound.pool.counts ∧ p.texts = bound.texts ∧ p.sites = bound.sites ∧ p.params = ctx.params ∧
    p.vars = ctx.vars

/-! ## The stages -/

theorem fixedSlots_ok {body : NodeId} {cause : Nat → ValueType → Mismatch} {types : List ValueType} :
    ∀ {index : Nat} {pool pool' : Pool} {fixed slots : List TypedSlot}, pool.Sound fixed → fixed.Nodup →
      fixedSlots body cause index types pool = .ok (slots, pool') →
        pool'.Sound (fixed ++ slots) ∧ (fixed ++ slots).Nodup ∧ types.map ValueType.kind? = slots.map fun x => some x.kind := by
  induction types with
  | nil =>
    intro index pool pool' fixed slots hsound hnodup hr
    cases hr
    rw [List.append_nil]
    exact ⟨hsound, hnodup, rfl⟩
  | cons type types ih =>
    intro index pool pool' fixed slots hsound hnodup hr
    unfold fixedSlots at hr
    cases hk : type.kind? with
    | none => simp only [hk] at hr; cases hr
    | some k =>
      simp only [hk] at hr
      obtain ⟨⟨rest, pool₁⟩, hrest, hr₁⟩ := bind_eq_ok hr
      cases hr₁
      obtain ⟨hnew, hreserved⟩ := hsound.reserve k
      have hnodup' : (fixed ++ [TypedSlot.mk k (pool.reserve k).1]).Nodup := by
        refine List.nodup_append.2 ⟨hnodup, List.nodup_singleton _, fun x hx y hy => ?_⟩
        obtain rfl := List.mem_singleton.1 hy
        rintro rfl
        exact hnew hx
      obtain ⟨hsound', hall, hkinds⟩ := ih hreserved hnodup' hrest
      rw [List.append_assoc] at hsound' hall
      exact ⟨hsound', hall, by rw [List.map_cons, List.map_cons, hk, hkinds]⟩

/-- Reserving makes nothing live. -/
theorem fixedSlots_live {body : NodeId} {cause : Nat → ValueType → Mismatch} {types : List ValueType} :
    ∀ {index : Nat} {pool pool' : Pool} {slots : List TypedSlot},
      fixedSlots body cause index types pool = .ok (slots, pool') → ∀ x, pool'.isLive x = pool.isLive x := by
  induction types with
  | nil =>
    intro index pool pool' slots hr x
    cases hr
    rfl
  | cons type types ih =>
    intro index pool pool' slots hr x
    unfold fixedSlots at hr
    cases hk : type.kind? with
    | none => simp only [hk] at hr; cases hr
    | some k =>
      simp only [hk] at hr
      obtain ⟨⟨rest, pool₁⟩, hrest, hr₁⟩ := bind_eq_ok hr
      cases hr₁
      exact (ih hrest x).trans (pool.isLive_reserve k x)

variable {ctx : Context} {p : Program} {s t : State} {u : Usage}

theorem Passage.outset (P : Passage ctx p) : Outset ctx P.usage (.start ctx P.demand P.pool) :=
  ⟨⟨P.demand, P.analyzed, rfl⟩, ⟨P.reserved, P.paramSlots, P.varSlots⟩, P.used⟩

theorem Passage.code_eq (P : Passage ctx p) : p.code = P.bound.draft.code.push .stop := by
  have hfinished := P.finished
  unfold Draft.finish at hfinished
  split at hfinished
  · cases hfinished
  · split at hfinished
    · cases hfinished
    · exact (Except.ok.inj hfinished).symm

theorem Outset.sound (h : Outset ctx u s) : s.pool.Sound (ctx.params ++ ctx.vars) := by
  obtain ⟨reserved, hparams, hvars⟩ := h.fixed
  obtain ⟨hsound, hnodup, -⟩ := fixedSlots_ok Pool.sound_empty List.nodup_nil hparams
  exact (fixedSlots_ok hsound hnodup hvars).1

theorem Outset.dead (h : Outset ctx u s) (x : TypedSlot) : s.pool.isLive x = false := by
  obtain ⟨reserved, hparams, hvars⟩ := h.fixed
  rw [fixedSlots_live hvars, fixedSlots_live hparams]
  obtain ⟨k, i⟩ := x
  cases k <;> simp [Pool.isLive, Pool.empty, Partition.isLive]

/-- Before the walk, the slots of parameters and variables are set aside. -/
theorem Passage.fixed (P : Passage ctx p) : P.pool.Sound (ctx.params ++ ctx.vars) ∧ (ctx.params ++ ctx.vars).Nodup ∧
    ctx.function.params.map ValueType.kind? = ctx.params.map (fun x => some x.kind) ∧
      ctx.function.locals.map ValueType.kind? = ctx.vars.map fun x => some x.kind := by
  obtain ⟨hsound, hnodup, hparams⟩ := fixedSlots_ok Pool.sound_empty List.nodup_nil P.paramSlots
  obtain ⟨hpool, hapart, hvars⟩ := fixedSlots_ok hsound hnodup P.varSlots
  exact ⟨hpool, hapart, hparams, hvars⟩

theorem lowerBody_ok {result : Option TypedSlot} (hr : lowerBody ctx u s = .ok (result, t)) :
    ∃ v s₁ s₂, (walk ctx (ctx.function.nodes.size + 1) 0).build ctx.function.body u none none s = .ok (v, s₁) ∧
      resultBinding ctx v.slot s₁ = .ok (result, s₂) ∧ t = { s₂ with draft := s₂.draft.add .stop } ∧
        s₂.pool.liveCount = result.toList.length := by
  obtain ⟨v, s₁, hwalk, hr⟩ := bind_ok hr
  obtain ⟨r, s₂, hbind, hr⟩ := bind_ok hr
  obtain ⟨_, s₃, hemit, hr⟩ := bind_ok hr
  obtain ⟨_, s₄, hget, hr⟩ := bind_ok hr
  cases hget
  obtain rfl := emit_ok hemit
  dsimp only at hr
  split at hr
  · rename_i hlive
    cases hr
    exact ⟨v, s₁, s₂, hwalk, hbind, rfl, hlive⟩
  · cases hr

/-- A result outside the fixed slots stays where it is; any other is moved to a slot of its own. -/
theorem resultBinding_ok {slot result : Option TypedSlot} (hr : resultBinding ctx slot s = .ok (result, t)) :
    (result = slot ∧ t = s ∧ ∀ x, slot = some x → x ∉ ctx.params ∧ x ∉ ctx.vars) ∨
      ∃ x, slot = some x ∧ (x ∈ ctx.params ∨ x ∈ ctx.vars) ∧ result = some ⟨x.kind, (s.pool.acquire x.kind).1⟩ ∧
        t = { s with
          pool := (s.pool.acquire x.kind).2
          draft := s.draft.add (.move x.kind (s.pool.acquire x.kind).1 x.slot) } := by
  cases slot with
  | none =>
    cases hr
    exact .inl ⟨rfl, rfl, nofun⟩
  | some x =>
    unfold resultBinding at hr
    dsimp only at hr
    split at hr
    · rename_i hfixed
      obtain ⟨y, s₁, hacquire, hr⟩ := bind_ok hr
      cases hacquire
      obtain ⟨_, s₂, hemit, hr⟩ := bind_ok hr
      obtain rfl := emit_ok hemit
      cases hr
      exact .inr ⟨x, rfl, hfixed, rfl, rfl⟩
    · rename_i hfree
      cases hr
      refine .inl ⟨rfl, rfl, fun y hy => ?_⟩
      cases hy
      exact not_or.1 hfree

end Lowering

open Lowering

theorem compile_passage {f : Function} {env : Environment} {options : CompileOptions} {p : Program}
    (h : compile f env options = .ok p) : ∃ params vars, Nonempty (Passage ⟨f, env, options, params, vars⟩ p) := by
  obtain ⟨demand, hdemand, h⟩ := bind_eq_ok h
  obtain ⟨⟨params, reserved⟩, hparams, h⟩ := bind_eq_ok h
  obtain ⟨⟨vars, pool⟩, hvars, h⟩ := bind_eq_ok h
  obtain ⟨u, hu, h⟩ := bind_eq_ok h
  obtain ⟨⟨result, s⟩, hbody, h⟩ := bind_eq_ok h
  obtain ⟨v, s₁, s₂, hwalk, hbind, rfl, hlive⟩ := lowerBody_ok hbody
  have hanalyzed : Demand.analyze f = .ok demand := by
    cases hd : Demand.analyze f with
    | error e => rw [hd] at hdemand; cases hdemand
    | ok d => rw [hd] at hdemand; cases hdemand; rfl
  unfold Lowering.finish at h
  cases hf : (s₂.draft.add .stop).finish with
  | error e => simp only [hf] at h; cases h
  | ok code =>
    simp only [hf] at h
    cases h
    exact ⟨params, vars, ⟨⟨demand, reserved, pool, u, v, s₁, s₂, hanalyzed, hparams, hvars, hu, hwalk, hbind, hlive, hf,
      rfl, rfl, rfl, rfl, rfl⟩⟩⟩

/-- An error stems from a node outside the arena, from declarations, from the walk, or from code that was not finished. -/
theorem compile_eq_error {f : Function} {env : Environment} {options : CompileOptions} {e : BuildError}
    (h : compile f env options = .error e) :
    (∃ what, e = .missing what ∧ ∃ id, f.Reachable id ∧ f.nodes.size ≤ id) ∨ (∃ id cause, e = .typeMismatch id cause) ∨
      ∃ params vars u s, Outset ⟨f, env, options, params, vars⟩ u s ∧
        (lowerBody ⟨f, env, options, params, vars⟩ u s = .error e ∨ ∃ cause, e = .ofUnfinished cause) := by
  have hslots : ∀ {body : NodeId} {cause : Nat → ValueType → Mismatch} {types : List ValueType} {index : Nat} {pool : Pool}
      {e : BuildError}, fixedSlots body cause index types pool = .error e → ∃ id cause, e = .typeMismatch id cause := by
    intro body cause types
    induction types with
    | nil => intro index pool e hr; cases hr
    | cons type types ih =>
      intro index pool e hr
      unfold fixedSlots at hr
      cases hk : type.kind? with
      | none =>
        simp only [hk] at hr
        cases hr
        exact ⟨_, _, rfl⟩
      | some k =>
        simp only [hk] at hr
        rcases bind_eq_error hr with hr | ⟨_, -, hr⟩
        · exact ih hr
        · cases hr
  rcases bind_eq_error h with h | ⟨demand, hdemand, h⟩
  · cases hd : Demand.analyze f with
    | ok d => rw [hd] at h; cases h
    | error m =>
      rw [hd] at h
      cases h
      unfold Demand.analyze at hd
      split at hd
      · rename_i id hfound
        have hreach := Function.mem_order.1 (List.mem_of_find?_eq_some hfound)
        exact .inl ⟨m, rfl, id, hreach, by simpa using List.find?_some hfound⟩
      · cases hd
  rcases bind_eq_error h with h | ⟨⟨params, reserved⟩, hparams, h⟩
  · exact .inr (.inl (hslots h))
  rcases bind_eq_error h with h | ⟨⟨vars, pool⟩, hvars, h⟩
  · exact .inr (.inl (hslots h))
  rcases bind_eq_error h with h | ⟨u, hu, h⟩
  · unfold bodyUsage at h
    split at h
    · rename_i hnone
      cases h
      exact .inl ⟨_, rfl, f.body, .refl, Array.getElem?_eq_none_iff.1 hnone⟩
    · split at h
      · cases h
      · split at h <;> cases h
        exact .inr (.inl ⟨_, _, rfl⟩)
      · split at h <;> cases h
        exact .inr (.inl ⟨_, _, rfl⟩)
  have hanalyzed : Demand.analyze f = .ok demand := by
    cases hd : Demand.analyze f with
    | error e => rw [hd] at hdemand; cases hdemand
    | ok d => rw [hd] at hdemand; cases hdemand; rfl
  refine .inr (.inr ⟨params, vars, u, .start ⟨f, env, options, params, vars⟩ demand pool,
    ⟨⟨demand, hanalyzed, rfl⟩, ⟨reserved, hparams, hvars⟩, hu⟩, ?_⟩)
  rcases bind_eq_error h with h | ⟨⟨result, s⟩, hbody, h⟩
  · exact .inl h
  · unfold Lowering.finish at h
    cases hf : s.draft.finish with
    | ok code => simp only [hf] at h; cases h
    | error cause =>
      simp only [hf] at h
      cases h
      exact .inr ⟨cause, rfl⟩

end SlotCode
