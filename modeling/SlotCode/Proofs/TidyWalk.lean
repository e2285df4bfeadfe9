/-
  SlotCode.Proofs.TidyWalk — the whole walk keeps the books of jumps tidy.

  One lemma for each way of lowering a node, under the assumption that its children are
  lowered tidily (`Walk.Tidies`), and then the walk itself, by induction on its room. A
  conditional is the one place where a branch has three ends: an exit in the first arm
  takes its tail, the first arm is empty, or both arms have code.
-/

import SlotCode.Proofs.JumpLedger

namespace SlotCode.Lowering

/-- Children are lowered tidily. -/
structure Walk.Tidies (w : Walk) : Prop where
  build : ∀ id u hint offer, Visits offer (w.build id u hint offer)
  condition : ∀ id (g : Ledger), Meets (Tidy g) (w.condition id) (fun b => Tidy (g.owing b)) Harmless

variable {α β : Type} {w : Walk} {ctx : Context}

/-! ## Asking for children -/

theorem Passes.inRegion {offer : Option Offer} {act : Lower Bool} (h : Passes offer act) :
    Passes offer (inRegion act) := by
  intro g
  refine (Orderly.of_keeps quiet_openRegion _).bind fun r => (h g).bind fun taken => ?_
  exact ((Orderly.of_keeps (quiet_closeRegion r)).settled g offer taken).bind fun _ => .pure fun _ hs => hs

namespace Walk.Tidies

variable (hw : w.Tidies)
include hw

theorem effect (id : NodeId) (offer : Option Offer) : Passes offer (w.effect id offer) :=
  fun g => (hw.build id .ignore none offer g).bind fun _ => .pure fun _ hs => hs

theorem effect_none (id : NodeId) : Orderly (w.effect id) :=
  fun g => (hw.effect id none g).post fun _ _ hs => hs.of_none.2

theorem value (id : NodeId) (hint : Option TypedSlot) (offer : Option Offer) (g : Ledger) :
    Meets (Tidy (g.offering offer)) (w.value id hint offer) (fun r => Settled g offer r.2) Harmless := by
  refine (Orderly.of_keeps (quiet_alloc id) _).bind fun _ => (hw.build id .value hint offer g).bind fun v => ?_
  split
  · exact .pure fun _ hs => hs
  · exact .fail rfl

theorem operand (id : NodeId) : Orderly (w.operand id) :=
  fun g => (hw.value id none none g).bind fun _ => .pure fun _ hs => hs.of_none.2

theorem valueInto (id : NodeId) (target : TypedSlot) (offer : Option Offer) :
    Passes offer (w.valueInto ctx id target offer) := by
  intro g
  unfold Walk.valueInto
  split
  · exact hw.effect id offer g
  · split
    · exact .fail rfl
    · refine (hw.value id (some target) offer g).bind fun r => ?_
      have done : Meets (Settled g offer r.2) (do release id; return r.2) (Settled g offer) Harmless :=
        ((Orderly.of_keeps (quiet_release id)).settled g offer r.2).bind fun _ => .pure fun _ hs => hs
      dsimp only
      split
      · exact ((orderly_emit rfl).settled g offer r.2).bind fun _ => done
      · exact done

theorem forward (id : NodeId) (target : Option TypedSlot) (offer : Option Offer) :
    Passes offer (w.forward ctx id target offer) := by
  cases target
  · exact hw.effect id offer
  · exact hw.valueInto id _ offer

/-! ## Operators and data -/

theorem onOperand (id operand : NodeId) (hint : Option TypedSlot) {make : TypedSlot → Slot → Instruction}
    (hm : ∀ r a, (make r a).isStraight = true) : Declines (onOperand ctx w id operand hint make) := by
  refine .bind (.of_keeps (quiet_isDemanded id)) fun d => ?_
  split
  · refine .bind (hw.operand operand) fun a => .bind (.of_keeps (quiet_release operand)) fun _ => ?_
    exact .bind (.of_keeps (quiet_resultSlot ctx id hint)) fun r => .bind (orderly_emit (hm r a.slot)) fun _ => .pure rfl
  · exact .bind (hw.effect_none operand) fun _ => .pure rfl

theorem onOperands (id first second : NodeId) (hint : Option TypedSlot) {make : TypedSlot → Slot → Slot → Instruction}
    (hm : ∀ r a b, (make r a b).isStraight = true) : Declines (onOperands ctx w id first second hint make) := by
  refine .bind (.of_keeps (quiet_isDemanded id)) fun d => ?_
  split
  · refine .bind (hw.operand first) fun a => .bind (hw.operand second) fun b => ?_
    refine .bind (.of_keeps (quiet_release second)) fun _ => .bind (.of_keeps (quiet_release first)) fun _ => ?_
    refine .bind (.of_keeps (quiet_resultSlot ctx id hint)) fun r => ?_
    exact .bind (orderly_emit (hm r a.slot b.slot)) fun _ => .pure rfl
  · exact .bind (hw.effect_none first) fun _ => .bind (hw.effect_none second) fun _ => .pure rfl

theorem nullCheck (id operand : NodeId) (hint : Option TypedSlot) : Declines (nullCheck ctx w id operand hint) := by
  refine .bind (hw.operand operand) fun a => .bind (.of_keeps (quiet_release operand)) fun _ => ?_
  exact .bind (.of_keeps (quiet_demandedSlot ctx id hint)) fun r => .bind (orderly_emit rfl) fun _ => .pure rfl

theorem unary (id : NodeId) (op : UnaryOp) (operand : NodeId) (hint : Option TypedSlot) :
    Declines (unary ctx w id op operand hint) := by
  refine .bind (.of_keeps (quiet_expectType ctx operand _)) fun _ => ?_
  split
  · exact hw.nullCheck id operand hint
  · refine hw.onOperand id operand hint fun r a => ?_
    cases op <;> rfl

theorem setVar (id : NodeId) (index : VarId) (value : NodeId) : Declines (setVar ctx w id index value) := by
  refine .bind (.of_keeps (quiet_varSlot ctx id index)) fun target => fun g => ?_
  exact (hw.valueInto value target none g).bind fun _ => .pure fun _ hs => ⟨rfl, hs.of_none.2⟩

theorem getField (id : NodeId) (field : FieldRef) (object : NodeId) (hint : Option TypedSlot) :
    Declines (getField ctx w id field object hint) := by
  refine .bind (.of_keeps (quiet_lookup _)) fun r => ?_
  split
  · exact .fail rfl
  · refine .bind (.of_keeps (quiet_checkField id field _)) fun _ => ?_
    refine .bind (.of_keeps (quiet_expectType ctx object _)) fun _ => ?_
    exact hw.onOperand id object hint fun _ _ => rfl

theorem arrayElement (id array index : NodeId) (hint : Option TypedSlot) :
    Declines (arrayElement ctx w id array index hint) := by
  refine .bind (.of_keeps (quiet_expectType ctx array _)) fun _ => ?_
  refine .bind (.of_keeps (quiet_expectType ctx index _)) fun _ => ?_
  exact hw.onOperands id array index hint fun _ _ _ => rfl

theorem setArrayElement (array index value : NodeId) : Declines (setArrayElement ctx w array index value) := by
  refine .bind (.of_keeps (quiet_expectType ctx array _)) fun _ => ?_
  refine .bind (.of_keeps (quiet_expectType ctx index _)) fun _ => ?_
  refine .bind (hw.operand array) fun a => .bind (hw.operand index) fun i => .bind (hw.operand value) fun v => ?_
  refine .bind (.of_keeps (quiet_release value)) fun _ => .bind (.of_keeps (quiet_release index)) fun _ => ?_
  exact .bind (.of_keeps (quiet_release array)) fun _ => .bind (orderly_emit rfl) fun _ => .pure rfl

theorem upperBound (index : TypedSlot) (lower : Bool) (array : NodeId) :
    Orderly (upperBound ctx w index lower array) := by
  refine .bind (.of_keeps (quiet_expectType ctx array _)) fun _ => .bind (hw.operand array) fun a => ?_
  have rest : Orderly (do emit (.upperBound index.slot a.slot); release array) :=
    .bind (orderly_emit rfl) fun _ => .of_keeps (quiet_release array)
  dsimp only
  split
  · exact .bind (orderly_emit rfl) fun _ => rest
  · exact rest

theorem boundsCheck (id index : NodeId) (array : Option NodeId) (lower : Bool) (hint : Option TypedSlot) :
    Declines (boundsCheck ctx w id index array lower hint) := by
  refine .bind (.of_keeps (quiet_expectType ctx index _)) fun _ => .bind (hw.operand index) fun i => ?_
  have result : Declines (checkedIndex ctx id index hint i) := by
    refine .bind (.of_keeps (quiet_release index)) fun _ => .bind (.of_keeps (quiet_demandedSlot ctx id hint)) fun r => ?_
    split
    · exact .pure rfl
    · dsimp only
      split
      · exact .bind (orderly_emit rfl) fun _ => .pure rfl
      · exact .pure rfl
  split
  · exact .bind (hw.upperBound i lower _) fun _ => result
  · dsimp only
    split
    · exact .bind (orderly_emit rfl) fun _ => result
    · exact result

theorem cast (id value : NodeId) (className : String) (hint : Option TypedSlot) :
    Declines (cast ctx w id value className hint) := by
  refine .bind (.of_keeps (quiet_classId ctx id className)) fun _ => ?_
  refine .bind (.of_keeps (quiet_expectType ctx value _)) fun _ => ?_
  exact hw.onOperand id value hint fun _ _ => rfl

theorem instanceOf (id value : NodeId) (className : String) (hint : Option TypedSlot) :
    Declines (instanceOf ctx w id value className hint) := by
  refine .bind (.of_keeps (quiet_classId ctx id className)) fun _ => ?_
  refine .bind (.of_keeps (quiet_expectType ctx value _)) fun _ => ?_
  exact hw.onOperand id value hint fun _ _ => rfl

end Walk.Tidies

theorem Orderly.forM {γ : Type} {f : γ → Lower PUnit} (xs : List γ) (h : ∀ x, Orderly (f x)) : Orderly (xs.forM f) := by
  induction xs with
  | nil => exact .pure
  | cons x xs ih => exact .bind (h x) fun _ => ih

theorem Orderly.mapM {γ : Type} {f : γ → Lower α} (xs : List γ) (h : ∀ x, Orderly (f x)) : Orderly (xs.mapM f) := by
  induction xs with
  | nil => exact .pure
  | cons x xs ih =>
    rw [List.mapM_cons]
    exact .bind (h x) fun _ => .bind ih fun _ => .pure

namespace Walk.Tidies

variable (hw : w.Tidies)
include hw

theorem call (id : NodeId) (method : MethodRef) (kind : CallKind) (args : List NodeId) (hint : Option TypedSlot) :
    Declines (call ctx w id method kind args hint) := by
  unfold Lowering.call
  split
  · exact .fail rfl
  · refine .bind (.of_keeps (quiet_lookup _)) fun native => ?_
    refine .bind (.of_keeps (quiet_checkCall id method kind native args.length)) fun _ => ?_
    refine .bind (.forM _ fun x => .of_keeps (quiet_expectType ctx x.1 x.2)) fun _ => ?_
    refine .bind (.mapM _ hw.operand) fun slots => .bind (.forM _ fun x => .of_keeps (quiet_release x)) fun _ => ?_
    refine .bind (.of_keeps (quiet_demandedSlot ctx id hint)) fun result => ?_
    exact .bind (.of_keeps (quiet_addSite _)) fun site => .bind (orderly_emit rfl) fun _ => .pure rfl

end Walk.Tidies

theorem declines_constant (id : NodeId) (hint : Option TypedSlot) {make : Slot → Instruction}
    (hm : ∀ r, (make r).isStraight = true) : Declines (constant ctx id hint make) := by
  refine .bind (.of_keeps (quiet_demandedSlot ctx id hint)) fun r => ?_
  split
  · exact .pure rfl
  · exact .bind (orderly_emit (hm _)) fun _ => .pure rfl

theorem declines_text (id : NodeId) (value : String) (hint : Option TypedSlot) : Declines (text ctx id value hint) := by
  refine .bind (.of_keeps (quiet_isDemanded id)) fun d => ?_
  split
  · exact .bind (.of_keeps (quiet_intern value)) fun index => declines_constant id hint fun _ => rfl
  · exact .pure rfl

theorem declines_nullary (id : NodeId) (hint : Option TypedSlot) (op : NullaryOp) : Declines (nullary ctx id hint op) := by
  cases op
  · exact .pure rfl
  · exact declines_constant id hint fun _ => rfl
  · exact .bind (orderly_emit rfl) fun _ => .pure rfl

theorem declines_fixedSlot (id : NodeId) (slot : TypedSlot) : Declines (fixedSlot id slot) := by
  refine .bind (.of_keeps (quiet_borrow id)) fun _ => .bind (.of_keeps (quiet_isDemanded id)) fun d => ?_
  split <;> exact .pure rfl

theorem declines_param (id : NodeId) (index : ParamId) : Declines (param ctx id index) := by
  unfold param
  split
  · exact declines_fixedSlot id _
  · exact .fail rfl

theorem declines_getVar (id : NodeId) (index : VarId) : Declines (getVar ctx id index) :=
  .bind (.of_keeps (quiet_varSlot ctx id index)) fun slot => declines_fixedSlot id slot

theorem declines_getStatic (id : NodeId) (field : FieldRef) (hint : Option TypedSlot) :
    Declines (getStatic ctx id field hint) := by
  unfold getStatic
  split
  · exact .fail rfl
  · refine .bind (.of_keeps (quiet_checkField id field _)) fun _ => ?_
    refine .bind (.of_keeps (quiet_demandedSlot ctx id hint)) fun r => ?_
    split
    · exact .pure rfl
    · exact .bind (orderly_emit rfl) fun _ => .pure rfl

/-! ## Conditions -/

theorem Meets.inRegion {g : Ledger} {act : Lower α} {g' : α → Ledger}
    (h : Meets (Tidy g) act (fun a => Tidy (g' a)) Harmless) :
    Meets (Tidy g) (inRegion act) (fun a => Tidy (g' a)) Harmless := by
  refine (Orderly.of_keeps quiet_openRegion _).bind fun r => h.bind fun a => ?_
  exact (Orderly.of_keeps (quiet_closeRegion r) _).bind fun _ => .pure fun _ hs => hs

namespace Walk.Tidies

variable (hw : w.Tidies)
include hw

/-- The jumps that decide a short-circuit operator become jumps of the whole. -/
theorem compose (c : Connective) (g : Ledger) :
    Meets (Tidy g) (compose w c) (fun b => Tidy (g.owing b)) Harmless := by
  cases c with
  | not operand =>
    refine (hw.condition operand g).bind fun b => .pure fun s hs => ?_
    simpa only [Ledger.owing, Branch.sites_negate, Branch.tail_position_negate, Branch.fallThrough_negate] using hs
  | shortCircuit decisive first second =>
    refine (hw.condition first g).bind fun b => meets_defer.bind fun decided => ?_
    refine (hw.condition second (g.holding decided)).inRegion.bind fun rest => .pure fun s hs => ?_
    simpa only [Ledger.owing, Ledger.holding, Branch.sites_addSites, Branch.tail_addSites, Branch.fallThrough_addSites,
      add_assoc] using hs

theorem branchOn (id : NodeId) (g : Ledger) :
    Meets (Tidy g) (branchOn w id) (fun b => Tidy (g.owing b)) Harmless := by
  refine (hw.operand id g).bind fun slot => meets_onSlot.bind fun b => ?_
  exact (Orderly.of_keeps (quiet_release id) _).bind fun _ => .pure fun _ hs => hs

theorem logicalValue (id : NodeId) (c : Connective) (hint : Option TypedSlot) :
    Declines (logicalValue ctx w id c hint) := by
  intro g
  refine (hw.compose c g).bind fun b => (Orderly.of_keeps (quiet_isDemanded id) _).bind fun d => ?_
  split
  · refine meets_defer.bind fun whenFalse => (Orderly.of_keeps (quiet_resultSlot ctx id hint) _).bind fun r => ?_
    refine (orderly_emit rfl _).bind fun _ => meets_gotoPending.bind fun skip => meets_label.bind fun whenZero => ?_
    refine (meets_patchAll.pre fun s hs => ⟨hs.1, ?_⟩ : Meets _ _ (fun _ => Tidy (g.holding [skip])) _).bind fun _ => ?_
    · simpa only [Ledger.holding, add_left_comm] using hs.2
    · refine (orderly_emit rfl _).bind fun _ => meets_label.bind fun after => meets_patch.bind fun _ => ?_
      exact .pure fun _ hs => ⟨rfl, hs⟩
  · exact meets_label.bind fun after => meets_resolve.bind fun _ => .pure fun _ hs => ⟨rfl, hs⟩

theorem binary (id : NodeId) (op : BinaryOp) (first second : NodeId) (hint : Option TypedSlot) :
    Declines (binary ctx w id op first second hint) := by
  unfold Lowering.binary
  split
  · rename_i make hform
    refine .bind (.of_keeps (quiet_expectType ctx first _)) fun _ => ?_
    refine .bind (.of_keeps (quiet_expectType ctx second _)) fun _ => ?_
    refine hw.onOperands id first second hint fun r a b => ?_
    cases op <;> cases hform <;> rfl
  · exact hw.logicalValue id _ hint

end Walk.Tidies

/-! ## Blocks, loops and exits -/

theorem positions_modify {γ : Type} (breaks : γ → List Patch) (f : γ → γ) {jumps : List Patch}
    (hf : ∀ x, breaks (f x) = breaks x ++ jumps) : ∀ (frames : List γ) (i : Nat), i < frames.length →
      Patch.positions ((frames.modify i f).flatMap breaks) = Patch.positions (frames.flatMap breaks) + Patch.positions jumps
  | [], _, h => absurd h (by simp)
  | x :: xs, 0, _ => by
    simp only [List.modify_zero_cons, List.flatMap_cons, Patch.positions_append, hf, add_right_comm]
  | x :: xs, i + 1, h => by
    simp only [List.modify_succ_cons, List.flatMap_cons, Patch.positions_append, add_assoc]
    rw [positions_modify breaks f hf xs i (by simpa using h)]

theorem meets_openBlock {g : Ledger} (name : BlockId) :
    Meets (Tidy g) (modify fun s => { s with blocks := ⟨name, []⟩ :: s.blocks }) (fun _ => Tidy g.inBlock) Harmless :=
  fun s hs => ⟨by simpa [State.exits, Ledger.inBlock] using hs.owes, hs.headers, hs.floor,
    by simpa [Ledger.inBlock] using hs.blocks, hs.loops⟩

theorem meets_closeBlock {g : Ledger} : Meets (Tidy g.inBlock) closeBlock (fun _ => Tidy g) Harmless := by
  refine .read fun s hs => ?_
  have hlen := hs.blocks
  cases hb : s.blocks with
  | nil => simp [hb, Ledger.inBlock] at hlen
  | cons frame rest =>
    have hpaid : Tidy (g.holding frame.breaks) { s with blocks := rest } := by
      refine ⟨?_, hs.headers, hs.floor, ?_, hs.loops⟩
      · have := hs.owes
        simp only [State.exits, hb, List.flatMap_cons, Patch.positions_append, Ledger.inBlock] at this
        simpa only [State.exits, Ledger.holding, add_left_comm, add_assoc] using this
      · simpa [hb, Ledger.inBlock, Ledger.holding] using hlen
    intro t ht
    subst ht
    exact meets_patchAll { t with blocks := rest } ⟨Nat.le_refl _, hpaid⟩

theorem meets_openLoop {g : Ledger} (name : LoopId) (header : Nat) :
    Meets (fun s => header ≤ s.draft.label ∧ Tidy g s)
      (modify fun s => { s with loops := ⟨name, header, []⟩ :: s.loops }) (fun _ => Tidy g.inLoop) Harmless := by
  intro s hs
  refine ⟨by simpa [State.exits, Ledger.inLoop] using hs.2.owes, ?_, hs.2.floor, hs.2.blocks,
    by simpa [Ledger.inLoop] using hs.2.loops⟩
  intro frame hf
  rcases List.mem_cons.1 hf with rfl | hf
  · exact hs.1
  · exact hs.2.headers frame hf

theorem meets_closeLoop {g : Ledger} : Meets (Tidy g.inLoop) closeLoop (fun _ => Tidy g) Harmless := by
  refine .read fun s hs => ?_
  have hlen := hs.loops
  cases hl : s.loops with
  | nil => simp [hl, Ledger.inLoop] at hlen
  | cons frame rest =>
    have hpaid : Tidy (g.holding frame.breaks) { s with loops := rest } := by
      refine ⟨?_, fun f hf => hs.headers f (by simp [hl, hf]), hs.floor, hs.blocks, ?_⟩
      · have := hs.owes
        simp only [State.exits, hl, List.flatMap_cons, Patch.positions_append, Ledger.inLoop] at this
        simpa only [State.exits, Ledger.holding, add_left_comm, add_assoc] using this
      · simpa [hl, Ledger.inLoop, Ledger.holding] using hlen
    intro t ht
    subst ht
    exact meets_patchAll { t with loops := rest } ⟨Nat.le_refl _, hpaid⟩

theorem meets_exitJumps (offer : Option Offer) (g : Ledger) :
    Meets (Tidy (g.offering offer)) (exitJumps offer) (fun r => Settled (g.holding r.1) offer r.2) Harmless := by
  refine (meets_standing offer).bind fun o => .given fun ho => ?_
  cases o with
  | none =>
    refine meets_gotoPending.bind fun jump => .pure fun s hs => ?_
    rw [← Ledger.holding_offering] at hs
    exact hs
  | some o =>
    obtain rfl : some o = offer := by simpa using ho
    exact meets_defer.bind fun jumps => .pure fun _ hs => ⟨rfl, hs⟩

/-- Jumps handed to a block are the block's. -/
theorem meets_breakBlock {g : Ledger} {jumps : List Patch} {i : Nat} (hi : i < g.blocks) (offer : Option Offer)
    (taken : Bool) :
    Meets (Settled (g.holding jumps) offer taken)
      (modify fun s => { s with blocks := s.blocks.modify i fun f => { f with breaks := f.breaks ++ jumps } })
      (fun _ => Settled g offer taken) Harmless := by
  have hand : ∀ g : Ledger, i < g.blocks → ∀ s : State, Tidy (g.holding jumps) s →
      Tidy g { s with blocks := s.blocks.modify i fun f => { f with breaks := f.breaks ++ jumps } } := by
    intro g hi s hs
    refine ⟨?_, hs.headers, hs.floor, by rw [List.length_modify]; exact hs.blocks, hs.loops⟩
    have hlen : i < s.blocks.length := by rw [hs.blocks]; exact hi
    have := hs.owes
    simp only [State.exits, positions_modify BlockFrame.breaks (fun f => { f with breaks := f.breaks ++ jumps })
      (fun _ => rfl) s.blocks i hlen]
    simpa only [State.exits, Ledger.holding, add_assoc, add_left_comm] using this
  intro s hs
  cases taken
  · refine hand _ ?_ s (by rw [← Ledger.holding_offering]; exact hs)
    cases offer <;> exact hi
  · exact ⟨hs.1, hand g hi s hs.2⟩

theorem meets_breakLoop {g : Ledger} {jumps : List Patch} {i : Nat} (hi : i < g.loops) (offer : Option Offer)
    (taken : Bool) :
    Meets (Settled (g.holding jumps) offer taken)
      (modify fun s => { s with loops := s.loops.modify i fun f => { f with breaks := f.breaks ++ jumps } })
      (fun _ => Settled g offer taken) Harmless := by
  have hand : ∀ g : Ledger, i < g.loops → ∀ s : State, Tidy (g.holding jumps) s →
      Tidy g { s with loops := s.loops.modify i fun f => { f with breaks := f.breaks ++ jumps } } := by
    intro g hi s hs
    have hlen : i < s.loops.length := by rw [hs.loops]; exact hi
    refine ⟨?_, ?_, hs.floor, hs.blocks, by rw [List.length_modify]; exact hs.loops⟩
    · have := hs.owes
      simp only [State.exits, positions_modify LoopFrame.breaks (fun f => { f with breaks := f.breaks ++ jumps })
        (fun _ => rfl) s.loops i hlen]
      simpa only [State.exits, Ledger.holding, add_assoc, add_left_comm] using this
    · intro frame hf
      obtain ⟨j, hj, rfl⟩ := List.mem_iff_getElem.1 hf
      have hj' : j < s.loops.length := by simpa using hj
      rw [List.getElem_modify]
      split
      · exact hs.headers (s.loops[j]) (List.getElem_mem _)
      · exact hs.headers (s.loops[j]) (List.getElem_mem _)
  intro s hs
  cases taken
  · refine hand _ ?_ s (by rw [← Ledger.holding_offering]; exact hs)
    cases offer <;> exact hi
  · exact ⟨hs.1, hand g hi s hs.2⟩

theorem visits_exitBlock (id : NodeId) (name : BlockId) (offer : Option Offer) :
    Visits offer (exitBlock id name offer) := by
  refine fun g => .read fun s hs => ?_
  cases hi : s.blocks.findIdx? (·.block = name) with
  | none => exact .fail rfl
  | some i =>
    have hlt : i < g.blocks := by
      have hb : s.blocks.length = g.blocks := by cases offer <;> exact hs.blocks
      have := List.findIdx?_eq_some_iff_findIdx_eq.1 hi
      omega
    refine Meets.bind (fun t ht => meets_exitJumps offer g t (ht ▸ hs)) fun r => ?_
    exact (meets_breakBlock hlt offer r.2).bind fun _ => .pure fun _ ht => ht

theorem visits_exitLoop (id : NodeId) (name : LoopId) (offer : Option Offer) :
    Visits offer (exitLoop id name offer) := by
  refine fun g => .read fun s hs => ?_
  cases hi : s.loops.findIdx? (·.loop = name) with
  | none => exact .fail rfl
  | some i =>
    have hlt : i < g.loops := by
      have hb : s.loops.length = g.loops := by cases offer <;> exact hs.loops
      have := List.findIdx?_eq_some_iff_findIdx_eq.1 hi
      omega
    refine Meets.bind (fun t ht => meets_exitJumps offer g t (ht ▸ hs)) fun r => ?_
    exact (meets_breakLoop hlt offer r.2).bind fun _ => .pure fun _ ht => ht

theorem visits_continueLoop (id : NodeId) (name : LoopId) (offer : Option Offer) :
    Visits offer (continueLoop id name offer) := by
  refine fun g => .read fun s hs => ?_
  cases hf : s.loops.find? (·.loop = name) with
  | none => exact .fail rfl
  | some frame =>
    have hheader : frame.header ≤ s.draft.label := hs.headers frame (List.mem_of_find?_eq_some hf)
    have hstart : ∀ t, t = s → frame.header ≤ t.draft.label ∧ Tidy (g.offering offer) t := fun t ht => ht ▸ ⟨hheader, hs⟩
    refine ((meets_standing offer).pre hstart).bind fun o => .given fun ho => ?_
    cases o with
    | none => exact meets_goBack.bind fun _ => .pure fun _ ht => ht
    | some o =>
      obtain rfl : some o = offer := by simpa using ho
      exact meets_resolve.bind fun _ => .pure fun _ ht => ⟨rfl, ht⟩

namespace Walk.Tidies

variable (hw : w.Tidies)
include hw

theorem sequence (id first second : NodeId) (hint : Option TypedSlot) (offer : Option Offer) :
    Visits offer (sequence ctx w id first second hint offer) := by
  intro g
  refine (hw.effect_none first _).bind fun _ => (Orderly.of_keeps (quiet_demandedSlot ctx id hint) _).bind fun target => ?_
  exact (hw.forward second target offer g).bind fun _ => .pure fun _ hs => hs

/-- An arm or a body, with nothing offered. -/
theorem arm_none (id : NodeId) (target : Option TypedSlot) : Orderly (inRegion (w.forward ctx id target none)) :=
  fun g => ((hw.forward id target none).inRegion g).post fun _ _ hs => hs.of_none.2

theorem block (id : NodeId) (name : BlockId) (body : NodeId) (hint : Option TypedSlot) :
    Declines (block ctx w id name body hint) := by
  intro g
  refine (Orderly.of_keeps (quiet_demandedSlot ctx id hint) _).bind fun target => ?_
  refine (meets_openBlock name).bind fun _ => (hw.arm_none body target _).bind fun _ => ?_
  exact meets_closeBlock.bind fun _ => .pure fun _ hs => ⟨rfl, hs⟩

theorem loop (name : LoopId) (preheader body : NodeId) : Declines (loop ctx w name preheader body) := by
  intro g
  refine (hw.effect_none preheader g).bind fun _ => meets_label.bind fun header => ?_
  -- The header stays reached while the body is lowered, because the floor of the ledger holds it.
  have hopen : Meets (fun s => header ≤ s.draft.label ∧ Tidy g s)
      (modify fun s => { s with loops := ⟨name, header, []⟩ :: s.loops })
      (fun _ => Tidy { g.inLoop with floor := max g.floor header }) Harmless := by
    intro s hs
    have h := meets_openLoop name header s hs
    exact ⟨h.owes, h.headers, Nat.max_le.2 ⟨hs.2.floor, hs.1⟩, h.blocks, h.loops⟩
  refine hopen.bind fun _ => (hw.effect_none body _).inRegion.bind fun _ => ?_
  have hclose : Meets (Tidy { g.inLoop with floor := max g.floor header }) (do closeLoop; return {})
      (fun (v : Visited) s => v.taken = false ∧ Tidy g s) Harmless := by
    refine (meets_closeLoop.pre fun s hs => ?_).bind fun _ => .pure fun _ hs => ⟨rfl, hs⟩
    exact ⟨hs.owes, hs.headers, Nat.le_trans (Nat.le_max_left _ _) hs.floor, hs.blocks, hs.loops⟩
  refine (Orderly.of_keeps (quiet_node ctx body) _).bind fun n => ?_
  dsimp only
  split
  · exact (meets_goBack.pre fun s hs => ⟨Nat.le_trans (Nat.le_max_right _ _) hs.floor, hs⟩).bind fun _ => hclose
  · exact hclose

/-- An arm that was offered the tail of the condition, unless tails are not adopted. -/
theorem arm_offered (id : NodeId) (target : Option TypedSlot) (position : Nat) (b : Branch) (polarity : Bool) (g : Ledger) :
    Meets (Tidy (g.owing b)) (arm ctx w id target (ctx.offer position b polarity))
      (fun taken => Tidy (if taken then g else g.owing b)) Harmless := by
  unfold Context.offer arm
  split
  · refine ((hw.forward id target (some ⟨position, b, polarity⟩)).inRegion g).post fun taken s hs => ?_
    cases taken
    · exact hs
    · exact hs.2
  · refine ((hw.forward id target none).inRegion (g.owing b)).post fun taken s hs => ?_
    obtain ⟨rfl, ht⟩ := hs.of_none
    exact ht

theorem elseOnly (b : Branch) (position : Nat) (elseArm : NodeId) (target : Option TypedSlot) (g : Ledger) :
    Meets (Tidy (g.owing b)) (elseOnly ctx w b position elseArm target) (fun _ => Tidy g) Harmless := by
  refine (hw.arm_offered elseArm target position b false g).bind fun taken => ?_
  cases taken
  · exact meets_label.bind fun after => meets_resolve
  · exact .pure fun _ hs => hs

theorem bothArms (b : Branch) (thenArm elseArm : NodeId) (target : Option TypedSlot) (g : Ledger) :
    Meets (Tidy (g.owing b)) (bothArms ctx w b thenArm elseArm target) (fun _ => Tidy g) Harmless := by
  refine (Orderly.of_keeps (quiet_node ctx thenArm) _).bind fun n => ?_
  -- The jump over the else arm, if there is one, is owed until that arm has been lowered.
  have rest : ∀ skip : Option Patch, Meets (Tidy ((g.holding skip.toList).owing b))
      (secondArm ctx w b elseArm target skip) (fun _ => Tidy g) Harmless := by
    intro skip
    refine meets_label.bind fun elseStart => meets_resolve.bind fun _ => ?_
    refine (hw.arm_none elseArm target _).bind fun _ => ?_
    cases skip with
    | none => exact .pure fun _ hs => by simpa [Ledger.holding] using hs
    | some jump => exact meets_label.bind fun after => meets_patch
  dsimp only
  split
  · refine Meets.bind (.map (meets_gotoPending.post fun jump s hs => ?_)) rest
    rwa [← Ledger.holding_owing] at hs
  · exact Meets.bind (.pure fun s hs => by simpa [Ledger.holding] using hs) rest

theorem conditional (id condition thenArm elseArm : NodeId) (hint : Option TypedSlot) :
    Declines (conditional ctx w id condition thenArm elseArm hint) := by
  intro g
  refine (Orderly.of_keeps (quiet_demandedSlot ctx id hint) _).bind fun target => ?_
  refine (hw.condition condition g).bind fun b => (Orderly.of_keeps quiet_label _).bind fun position => ?_
  refine (hw.arm_offered thenArm target position b true g).bind fun taken => ?_
  have done : Meets (Tidy g) (pure ⟨target, false⟩) (fun (v : Visited) s => v.taken = false ∧ Tidy g s) Harmless :=
    .pure fun _ hs => ⟨rfl, hs⟩
  cases taken
  · refine (Orderly.of_keeps quiet_label (g.owing b)).bind fun here => ?_
    split
    · exact (hw.elseOnly b position elseArm target g).bind fun _ => done
    · exact (hw.bothArms b thenArm elseArm target g).bind fun _ => done
  · exact (hw.arm_none elseArm target g).bind fun _ => done

/-! ## The walk -/

theorem visit (id : NodeId) (hint : Option TypedSlot) (offer : Option Offer) :
    Visits offer (visit ctx w id hint offer) := by
  refine fun g => (Orderly.of_keeps (quiet_node ctx id) _).bind fun n => ?_
  dsimp only
  split
  · exact hw.sequence id _ _ hint offer g
  · exact (hw.block id _ _ hint).visits offer g
  · exact visits_exitBlock id _ offer g
  · exact (hw.loop _ _ _).visits offer g
  · exact visits_exitLoop id _ offer g
  · exact visits_continueLoop id _ offer g
  · exact (hw.conditional id _ _ _ hint).visits offer g
  · exact (declines_nullary id hint _).visits offer g
  · exact (hw.unary id _ _ hint).visits offer g
  · exact (hw.binary id _ _ _ hint).visits offer g
  · exact (declines_constant id hint fun _ => rfl).visits offer g
  · exact (declines_text id _ hint).visits offer g
  · exact (declines_param id _).visits offer g
  · exact (declines_getVar id _).visits offer g
  · exact (hw.setVar id _ _).visits offer g
  · exact (hw.getField id _ _ hint).visits offer g
  · exact (declines_getStatic id _ hint).visits offer g
  · exact (hw.call id _ _ _ hint).visits offer g
  · exact (hw.arrayElement id _ _ hint).visits offer g
  · exact (hw.setArrayElement _ _ _).visits offer g
  · exact (hw.cast id _ _ hint).visits offer g
  · exact (hw.instanceOf id _ _ hint).visits offer g
  · exact (hw.boundsCheck id _ _ _ hint).visits offer g
  all_goals exact .fail rfl

end Walk.Tidies

theorem Meets.entering {g : Ledger} {Q : α → State → Prop} {act : Lower α} (depth : Nat) (id : NodeId)
    (slot : α → Option TypedSlot) (hq : ∀ a s t, t.code = s.code → Q a s → Q a t) (h : Meets (Tidy g) act Q Harmless) :
    Meets (Tidy g) (entering ctx depth id slot act) Q Harmless := by
  unfold Lowering.entering
  split
  · exact .fail rfl
  · refine (Orderly.of_keeps (quiet_setProgress id .underway) g).bind fun _ => h.bind fun a => ?_
    refine ((quiet_node ctx id).stable (hq a)).bind fun n => ((quiet_regionOf n.expr).stable (hq a)).bind fun r => ?_
    exact ((quiet_setProgress id _).stable (hq a)).bind fun _ => .pure fun _ hs => hs

theorem Walk.Tidies.visits_build (hw : w.Tidies) (depth : Nat) (id : NodeId) (u : Usage) (hint : Option TypedSlot)
    (offer : Option Offer) : Visits offer (Lowering.build ctx depth w id u hint offer) := by
  have checked : ∀ (g : Ledger) (v : Visited),
      Meets (Settled g offer v.taken) (checkSlot id u v) (fun v => Settled g offer v.taken) Harmless := by
    intro g v
    unfold checkSlot
    split
    · exact .fail rfl
    · exact .pure fun _ hs => hs
  refine fun g => (Orderly.of_keeps (quiet_nodeState id) _).bind fun n => ?_
  split
  · exact .fail rfl
  · rename_i slot region _
    refine (Orderly.of_keeps .get _).bind fun s => ?_
    split
    · exact .fail rfl
    · exact (Orderly.of_keeps (quiet_consume id u) _).bind fun _ => checked g { slot }
  · refine (Orderly.of_keeps (quiet_consume id u) _).bind fun _ => ?_
    refine ((hw.visit id hint offer g).entering depth id _ fun _ _ _ e hs => hs.of_code e).bind fun v => checked g v

theorem Walk.Tidies.meets_condition (hw : w.Tidies) (depth : Nat) (id : NodeId) (g : Ledger) :
    Meets (Tidy g) (Lowering.condition ctx depth w id) (fun b => Tidy (g.owing b)) Harmless := by
  refine (Orderly.of_keeps (quiet_expectType ctx id _) _).bind fun _ => ?_
  refine (Orderly.of_keeps (quiet_composable ctx id) _).bind fun c => ?_
  split
  · refine (Orderly.of_keeps (quiet_consume id .value) _).bind fun _ => ?_
    exact (hw.compose _ g).entering depth id _ fun _ _ _ e hs => hs.of_code e
  · have hself : Walk.Tidies { w with build := Lowering.build ctx depth w } := ⟨hw.visits_build depth, hw.condition⟩
    exact hself.branchOn id g

/-- The whole walk keeps the books of jumps tidy. -/
theorem walk_tidies (room depth : Nat) : (walk ctx room depth).Tidies := by
  induction room generalizing depth with
  | zero => exact ⟨fun _ _ _ _ _ => .fail rfl, fun _ _ => .fail rfl⟩
  | succ room ih =>
    have inner := ih (depth + 1)
    exact ⟨inner.visits_build depth, inner.meets_condition depth⟩

end SlotCode.Lowering
