/-
  SlotCode.Proofs.CallSetup — where lowering starts, and where a call of the program starts.

  Lowering starts with books that are in order. A call starts with every register zero and
  then puts the arguments in, so that the machine agrees with the store in which evaluation
  starts.

  Proved: `books_start`, `bindArgs_ok` and `agrees_start`.
-/

import SlotCode.Machine.Run
import SlotCode.Proofs.Agreement
import SlotCode.Proofs.Passage

namespace SlotCode

open Lowering

/-! ## Where lowering starts -/

namespace Lowering

/-- Before anything is lowered, every node waits for its one consumer. -/
theorem books_start {ctx : Context} {demand : Demand} {pool : Pool} (hf : ctx.function.IsTree)
    (hd : Demand.analyze ctx.function = .ok demand) (hpool : pool.Sound (ctx.params ++ ctx.vars)) :
    Books ctx (.start ctx demand pool) := by
  obtain ⟨hbound, htallies, hleft⟩ := Demand.analyze_ok hd
  have hsize : ctx.function.tallies.size = ctx.function.nodes.size := (Function.counted_tallies hbound).size
  refine ⟨⟨List.nodup_nil, nofun⟩, hpool, htallies, ?_, fun id hid => ?_, fun id => ?_⟩
  · rw [State.start, hleft]
    simp [hsize]
  · refine absurd ?_ hid
    by_cases hlt : id < ctx.function.nodes.size <;> simp [State.start, State.node, hlt]
  · show (demand.left.getD id {}).consumers ≤ 1
    rw [hleft]
    by_cases hlt : id < ctx.function.nodes.size
    · have hone := hf.total_le_one hbound hlt
      have hat : id < ctx.function.tallies.size := hsize ▸ hlt
      simpa [tallyAt, hat] using hone
    · have hat : ¬ id < ctx.function.tallies.size := hsize ▸ hlt
      simp [hat]

end Lowering

/-- A finished draft is the code, with nothing left open. -/
theorem Draft.becomes_finish {d : Draft} {code : Array Instruction} (h : d.finish = .ok code) : d.Becomes code := by
  unfold finish at h
  split at h
  · cases h
  · split at h
    · cases h
    · rename_i hnone
      cases h
      intro i ins hi _
      have hclosed : isPendingJump ins = false := Array.findIdx?_eq_none_iff.1 hnone ins (Array.mem_of_getElem? hi)
      rw [hclosed]
      exact hi

/-! ## Where a call starts -/

namespace Registers

variable {r : Registers} {x : TypedSlot}

theorem has_new (c : SlotCounts) (x : TypedSlot) : (new c).has x = true ↔ x.slot < c.get x.kind := by
  obtain ⟨k, s⟩ := x
  cases k <;> simp [new, ensure, grown, has, get?, PerKind.get]

theorem has_reset : r.reset.has x = r.has x := by
  obtain ⟨k, s⟩ := x
  rw [Bool.eq_iff_iff]
  cases k <;> simp [reset, has, get?]

theorem get?_reset (h : r.has x = true) : r.reset.get? x = some (.zero x.kind) := by
  obtain ⟨k, s⟩ := x
  cases k <;> simp_all [reset, has, get?, Value.zero]

end Registers

/-- Arguments of the right kinds get into the parameters, and nothing else changes. -/
theorem Image.bindArgs_ok {ps : List TypedSlot} : ∀ {k : Nat} {vs : List Value} {r : Registers}, ps.Nodup →
    (∀ x ∈ ps, r.has x = true) → vs.map Value.kind = ps.map TypedSlot.kind →
      ∃ r', bindArgs k (ps.zip vs) r = (none, r') ∧ (∀ x, r'.has x = r.has x) ∧
        (∀ x, x ∉ ps → r'.get? x = r.get? x) ∧
          ∀ (i : Nat) x, ps[i]? = some x → ∃ v, vs[i]? = some v ∧ r'.get? x = some v := by
  induction ps with
  | nil =>
    intro k vs r _ _ _
    exact ⟨r, rfl, fun _ => rfl, fun _ _ => rfl, nofun⟩
  | cons x ps ih =>
    intro k vs r hnodup hhas hkinds
    cases vs with
    | nil => cases hkinds
    | cons v vs =>
      obtain ⟨hx, hrest⟩ := List.nodup_cons.1 hnodup
      obtain ⟨hv, hvs⟩ := List.cons.inj hkinds
      have hhasx := hhas x List.mem_cons_self
      have hslot : TypedSlot.mk v.kind x.slot = x := by rw [hv]
      have hset : r.set x v = .ok (some (r.put x.slot v)) := by simp [Registers.set, hv, hhasx]
      obtain ⟨r', hbind, hhas', hother, hargs⟩ := ih (k := k + 1) (r := r.put x.slot v) hrest
        (fun y hy => Registers.has_put.trans (hhas y (List.mem_cons_of_mem _ hy))) hvs
      have hput : (r.put x.slot v).get? x = some v := by
        have := Registers.get?_put_self (v := v) (s := x.slot) (by rw [hslot]; exact hhasx)
        rwa [hslot] at this
      refine ⟨r', ?_, fun y => (hhas' y).trans Registers.has_put, fun y hy => ?_, fun i y hy => ?_⟩
      · rw [List.zip_cons_cons, bindArgs, hset]
        exact hbind
      · obtain ⟨hne, hnot⟩ := not_or.1 (mt List.mem_cons.2 hy)
        rw [hother y hnot]
        exact Registers.get?_put_ne (by rwa [hslot])
      · cases i with
        | zero =>
          cases hy
          exact ⟨v, rfl, (hother x hx).trans hput⟩
        | succ i => exact hargs i y hy

/-- The machine of a call agrees with the store that evaluation starts in. -/
theorem agrees_start {S : Scene} (hS : S.Valid) {m : Machine}
    (hkinds : S.args.map Value.kind = S.ctx.params.map TypedSlot.kind)
    (hcovers : ∀ x, x.slot < S.image.program.counts.get x.kind → m.registers.has x = true)
    (hfixed : ∀ x ∈ S.ctx.params ++ S.ctx.vars, x.slot < S.image.program.counts.get x.kind) :
    ∃ r, Image.bindArgs 0 (S.ctx.params.zip S.args) m.reset.registers = (none, r) ∧
      Agrees S ⟨fun _ => false, { m.reset with registers := r }⟩ none (S.reading.initial m.world)
        { m.reset with registers := r } := by
  obtain ⟨hparams, -, hdisjoint⟩ := List.nodup_append.1 hS.apart
  have hhas : ∀ x ∈ S.ctx.params ++ S.ctx.vars, m.registers.has x = true := fun x hx => hcovers x (hfixed x hx)
  obtain ⟨r, hbind, hhas', hother, hargs⟩ := Image.bindArgs_ok (k := 0) (r := m.reset.registers) hparams
    (fun x hx => Registers.has_reset.trans (hhas x (List.mem_append_left _ hx))) hkinds
  refine ⟨r, hbind, rfl, rfl, hargs, fun j x hx _ => ?_, ?_, fun x hx => ?_, fun _ _ _ => rfl⟩
  · have hmem := List.mem_of_getElem? hx
    have hkind := congrArg (·[j]?) hS.vars
    simp only [List.getElem?_map, hx, Option.map_some] at hkind
    obtain ⟨type, htype, hk⟩ := Option.map_eq_some_iff.1 hkind
    refine ⟨.zero x.kind, ?_, ?_⟩
    · show (S.ctx.function.locals.map _)[j]? = _
      simp [htype, hk]
    · rw [hother x fun hp => hdisjoint x hp x hmem rfl]
      exact Registers.get?_reset (hhas x (List.mem_append_right _ hmem))
  · have hlength := congrArg List.length hS.vars
    rw [List.length_map, List.length_map] at hlength
    exact (List.length_map _).trans hlength
  · rw [hhas']
    exact Registers.has_reset.trans (hcovers x hx)

end SlotCode
