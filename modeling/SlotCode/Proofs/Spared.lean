/-
  SlotCode.Proofs.Spared — code that leaves a register as it is.

  An instruction spares a register when it does not write it, or writes back what the
  register holds already: a null check of a register into itself. Lowering writes a fixed
  slot only where a consumer named it as the place for a value, since the pool never hands
  it out. So the instruction at one address of the code spares the slot, unless it belongs
  to a node that may name it (`Spared`).

  Proved: every step of the books and of the code keeps this (`Sparing`), an emitted
  instruction provided that it writes another slot or one that may be named here.
-/

import SlotCode.Proofs.Routine
import SlotCode.Proofs.TypedBooks

namespace SlotCode

/-! ## Instructions -/

namespace Instruction

/-- Running the instruction leaves the register with what it holds. -/
def Spares (sites : Array CallSite) (x : TypedSlot) : Instruction → Prop
  | .call n => ∃ site, sites[n]? = some site ∧ site.result ≠ some x
  | .nullCheck r a => r = a ∨ x ≠ ⟨.object, r⟩
  | i => i.writes ≠ some x

variable {i : Instruction} {sites : Array CallSite} {x : TypedSlot}

theorem spares_of_writes (hsite : i.site? = none) (h : i.writes ≠ some x) : i.Spares sites x := by
  cases i with
  | call _ => cases hsite
  | nullCheck r a => exact .inr fun hx => h (congrArg some hx.symm)
  | _ => exact h

/-- An empty place and a jump write nothing. -/
theorem spares_of_passive (h : i = .nop ∨ i.isJump = true) : i.Spares sites x := by
  rcases h with rfl | h
  · exact nofun
  · cases i with
    | goto _ => exact nofun
    | jumpIf _ _ _ => exact nofun
    | _ => cases h

theorem Spares.push (h : i.Spares sites x) (site : CallSite) : i.Spares (sites.push site) x := by
  cases i with
  | call n =>
    obtain ⟨old, hold, hresult⟩ := h
    obtain ⟨hlt, hat⟩ := Array.getElem?_eq_some_iff.1 hold
    exact ⟨old, by rw [Array.getElem?_push_lt hlt, hat], hresult⟩
  | _ => exact h

end Instruction

theorem UnaryOp.writes_instruction {op : UnaryOp} {r : TypedSlot} (hr : op.resultType.kind? = some r.kind) (a : Slot) :
    (op.instruction r.slot a).writes = some r := by
  obtain ⟨_, r⟩ := r
  cases op with
  | invert w => cases w <;> cases hr <;> rfl
  | negate w => cases w <;> cases hr <;> rfl
  | negateFloat p => cases p <;> cases hr <;> rfl
  | convert c => cases c <;> cases hr <;> rfl
  | _ => cases hr; rfl

theorem BinaryOp.writes_form {op : BinaryOp} {make : Slot → Slot → Slot → Instruction} (hop : op.form = .instruction make)
    {r : TypedSlot} (hr : op.resultType.kind? = some r.kind) (a b : Slot) :
    (make r.slot a b).site? = none ∧ (make r.slot a b).writes = some r := by
  obtain ⟨_, r⟩ := r
  cases op with
  | arith w op => cases w <;> cases hop <;> cases hr <;> exact ⟨rfl, rfl⟩
  | real p op => cases p <;> cases hop <;> cases hr <;> exact ⟨rfl, rfl⟩
  | orderFloat p => cases p <;> cases hop <;> cases hr <;> exact ⟨rfl, rfl⟩
  | and => cases hop
  | or => cases hop
  | _ => cases hop; cases hr; exact ⟨rfl, rfl⟩

namespace Lowering

/-! ## What is guarded -/

/-- A fixed slot, and an address of the code. While a node is lowered that may name the slot, `since` is where the code
    of that node starts. -/
structure Guard where
  slot : TypedSlot
  address : Nat
  since : Option Nat
  alarm : BuildError

/-- A value may be put into the slot here. -/
def Guard.Allows (G : Guard) (x : TypedSlot) : Prop := x = G.slot → G.since ≠ none

/-- What stands at the address spares the slot, unless it belongs to a node that may name it. -/
structure Spared (ctx : Context) (G : Guard) (s : State) : Prop where
  fixed : G.slot ∈ ctx.params ++ ctx.vars
  pool : s.pool.Sound (ctx.params ++ ctx.vars)
  clean : s.draft.Clean
  since : ∀ start, G.since = some start → start ≤ s.draft.label
  spared : (∀ start, G.since = some start → G.address < start) →
    ∀ i, s.draft.code[G.address]? = some i → i.Spares s.sites G.slot

variable {α β : Type} {ctx : Context} {G : Guard} {s t : State} {id : NodeId}

theorem Spared.of_tends (h : Spared ctx G s) (ht : Tends s t) : Spared ctx G t := by
  have hsites : t.sites = s.sites := congrArg (·.2.2.2.2.1) ht.ground
  refine ⟨h.fixed, ht.pool _ h.pool, ht.clean, fun start hstart => Nat.le_trans (h.since start hstart) ht.draft.label,
    fun hearly i hi => ?_⟩
  rw [hsites]
  rcases ht.draft.code _ i hi with hi | hi
  · exact h.spared hearly i hi
  · exact Instruction.spares_of_passive hi

/-- One more instruction; within a node that may name the slot it may do anything. -/
theorem Spared.add {i : Instruction} (h : Spared ctx G s) (hi : G.since = none → i.Spares s.sites G.slot) :
    Spared ctx G { s with draft := s.draft.add i } := by
  have hbefore := Draft.before_add h.clean i
  refine ⟨h.fixed, h.pool, hbefore.clean, fun start hstart => Nat.le_trans (h.since start hstart) hbefore.label,
    fun hearly j hj => ?_⟩
  have hj : (s.draft.code.push i)[G.address]? = some j := hj
  rw [Draft.getElem?_push] at hj
  split at hj
  · rename_i hat
    cases hj
    cases hsince : G.since with
    | none => exact hi hsince
    | some start => exact absurd (hearly start hsince) (Nat.not_lt.2 (hat ▸ h.since start hsince))
  · exact h.spared hearly j hj

/-! ## Steps that keep it -/

/-- The step keeps the slot spared; what it gives satisfies `q`. -/
abbrev Sparing (ctx : Context) (G : Guard) (act : Lower α) (q : α → Prop) : Prop :=
  Upholds (fun _ : Unit => Spared ctx G) Anyhow act q

theorem Checks.sparing {E : BuildError → Prop} {act : Lower α} {q : α → Prop} (h : Checks act q E) : Sparing ctx G act q :=
  h.anyhow.upholds

theorem Routine.sparing {act : Lower α} {q : α → Prop} (h : Routine act q) : Sparing ctx G act q :=
  h.upholds (fun _ _ hs => hs.clean) (fun _ _ _ ht hs => hs.of_tends ht) fun _ _ => trivial

/-- A step that touches neither the slots nor the code. -/
theorem Keeps.sparing {act : Lower α} (h : Keeps (fun s => (s.pool, s.draft, s.sites)) Anyhow act) :
    Sparing ctx G act fun _ => True := by
  refine h.upholds fun _ s t e hs => ?_
  obtain ⟨hpool, hdraft, hsites⟩ : t.pool = s.pool ∧ t.draft = s.draft ∧ t.sites = s.sites := by simpa using e
  refine ⟨hs.fixed, hpool ▸ hs.pool, hdraft ▸ hs.clean, hdraft ▸ hs.since, ?_⟩
  rw [hdraft, hsites]
  exact hs.spared

theorem Sparing.fail {e : BuildError} {q : α → Prop} : Sparing ctx G (throw e : Lower α) q := Upholds.fail trivial

/-! ### The books -/

theorem sparing_setProgress (p : Progress) : Sparing ctx G (setProgress id p) fun _ => True := Keeps.sparing fun _ => rfl

theorem sparing_consume (u : Usage) : Sparing ctx G (consume id u) fun _ => True := by
  refine Keeps.sparing (.read fun s => ?_)
  rcases s.demand.consume id u with (_ | _) | _ <;> first | exact trivial | exact rfl

theorem sparing_intern (text : String) : Sparing ctx G (intern text) fun _ => True := Keeps.sparing fun _ => rfl

theorem sparing_closeRegion (r : Region) : Sparing ctx G (closeRegion r) fun _ => True := by
  refine Keeps.sparing (.read fun s => ?_)
  cases s.regions with
  | nil => exact trivial
  | cons top rest =>
    by_cases h : top = r
    · simp only [h, if_true]
      exact rfl
    · simp only [h, if_false]
      exact trivial

/-! ### Slots -/

/-- The pool never hands out the guarded slot. -/
theorem sparing_acquire (k : Kind) : Sparing ctx G (acquire k) fun x => x.kind = k ∧ G.Allows x := by
  intro _ s hs
  have hacquired := hs.pool.acquire k
  exact ⟨⟨rfl, fun hx => absurd hs.fixed (hx ▸ hacquired.loose)⟩, hs.fixed, hacquired.sound, hs.clean, hs.since, hs.spared⟩

/-- Each slot that a consumer names may be named. -/
def Guard.AllowsAll (G : Guard) (hint : Option TypedSlot) : Prop := ∀ x, hint = some x → G.Allows x

theorem Guard.allowsAll_none (G : Guard) : G.AllowsAll none := nofun

theorem sparing_resultSlot {hint : Option TypedSlot} (h : G.AllowsAll hint) :
    Sparing ctx G (ctx.resultSlot id hint) fun x => ctx.function.kind? id = some x.kind ∧ G.Allows x := by
  have hacquire : ∀ k, ctx.function.kind? id = some k →
      Sparing ctx G (acquire k) fun x => ctx.function.kind? id = some x.kind ∧ G.Allows x :=
    fun k hk => (sparing_acquire k).post fun x hx => ⟨hx.1 ▸ hk, hx.2⟩
  unfold Context.resultSlot
  split
  · exact .fail
  · rename_i k hk
    split
    · rename_i x
      refine Upholds.get.bind fun s _ => ?_
      refine .ite (fun hfits => routine_borrow.sparing.bind fun _ _ => .pure ⟨?_, h x rfl⟩) fun _ => hacquire k hk
      rw [hk, hfits.1]
    · exact hacquire k hk

theorem sparing_demandedSlot {hint : Option TypedSlot} (h : G.AllowsAll hint) :
    Sparing ctx G (ctx.demandedSlot id hint) fun r =>
      (∀ x, r = some x → ctx.function.kind? id = some x.kind) ∧ G.AllowsAll r := by
  refine routine_isDemanded.sparing.bind fun _ _ => .ite (fun _ => ?_) fun _ => .pure ⟨nofun, G.allowsAll_none⟩
  refine .map ((sparing_resultSlot h).post fun x hx => ⟨?_, ?_⟩)
  · rintro _ ⟨⟩
    exact hx.1
  · rintro _ ⟨⟩
    exact hx.2

/-! ### The code -/

theorem sparing_emit {i : Instruction} (h : G.since = none → ∀ sites, i.Spares sites G.slot) :
    Sparing ctx G (emit i) fun _ => True := fun _ s hs => ⟨trivial, hs.add fun hnone => h hnone s.sites⟩

/-- An instruction that writes a slot which may be named here. -/
theorem sparing_write {i : Instruction} {r : TypedSlot} (hsite : i.site? = none) (hwrites : i.writes = some r)
    (hr : G.Allows r) : Sparing ctx G (emit i) fun _ => True := by
  refine sparing_emit fun hnone sites => Instruction.spares_of_writes hsite fun hw => ?_
  exact hr (Option.some.inj (hwrites.symm.trans hw)) hnone

/-- An instruction that writes nothing. -/
theorem sparing_steer {i : Instruction} (hsite : i.site? = none) (hwrites : i.writes = none) :
    Sparing ctx G (emit i) fun _ => True :=
  sparing_emit fun _ _ => Instruction.spares_of_writes hsite (by rw [hwrites]; exact nofun)

/-- A call, with a result that may be named here. -/
theorem sparing_call (site : CallSite) (hresult : G.AllowsAll site.result) (a : α) :
    Sparing ctx G (do let n ← addSite site; emit (.call n); return a) fun _ => True := by
  intro _ s hs
  have hsites : Spared ctx G { s with sites := s.sites.push site } :=
    ⟨hs.fixed, hs.pool, hs.clean, hs.since, fun hearly i hi => (hs.spared hearly i hi).push site⟩
  refine ⟨trivial, hsites.add fun hnone => ⟨site, ?_, fun hsame => ?_⟩⟩
  · exact Array.getElem?_push_size
  · exact hresult _ hsame rfl hnone

end Lowering

end SlotCode
