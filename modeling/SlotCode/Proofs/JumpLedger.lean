/-
  SlotCode.Proofs.JumpLedger — every open jump has exactly one owner while a function is lowered.

  An open jump is owed by the block or loop that it leaves, or by someone further up in
  the walk: a condition whose consumer has not decided, a jump over an else arm. The
  `Ledger` of a step holds what its callers owe; `Tidy` says that the draft owes exactly
  that and what the open frames hold.

  Proved, for every node of every function: lowering a node for its value or effect keeps
  the books tidy, and pays the offered tail exactly if it says so (`Walk.Tidies.build`);
  lowering a condition adds exactly the debts of the branch it gives
  (`Walk.Tidies.condition`). No step mishandles a jump or a reserved position.
-/

import SlotCode.Proofs.Contract
import SlotCode.Proofs.OpenJumps

namespace SlotCode

/-- The errors that say that a jump or a reserved position was mishandled. -/
def BuildError.isJumpFault : BuildError → Bool
  | .danglingJump _ | .unfilledSlot _ | .internal (.draft _) => true
  | _ => false

/-- Whether an instruction goes on to the next address whenever it succeeds. -/
def Instruction.isStraight : Instruction → Bool
  | .goto _ | .jumpIf .. | .nop | .stop => false
  | _ => true

namespace Lowering

open SlotCode.Draft (Owes)

def Harmless (e : BuildError) : Prop := e.isJumpFault = false

/-- What the callers of a step owe, and how much of the code and of the frames is theirs. -/
structure Ledger where
  sites : Multiset Nat := 0
  tails : Multiset Nat := 0
  /-- A position that the code has reached. -/
  floor : Nat := 0
  blocks : Nat := 0
  loops : Nat := 0

namespace Ledger

def holding (g : Ledger) (ps : List Patch) : Ledger := { g with sites := Patch.positions ps + g.sites }

def owing (g : Ledger) (b : Branch) : Ledger :=
  { g with sites := b.sites + g.sites, tails := b.tail.position ::ₘ g.tails, floor := max g.floor b.fallThrough }

def offering (g : Ledger) : Option Offer → Ledger
  | none => g
  | some o => g.owing o.branch

theorem holding_owing (g : Ledger) (ps : List Patch) (b : Branch) :
    (g.holding ps).owing b = (g.owing b).holding ps := by
  simp only [holding, owing, add_left_comm]

theorem holding_offering (g : Ledger) (ps : List Patch) (offer : Option Offer) :
    (g.holding ps).offering offer = (g.offering offer).holding ps := by
  cases offer
  · rfl
  · exact holding_owing g ps _

def inBlock (g : Ledger) : Ledger := { g with blocks := g.blocks + 1 }

def inLoop (g : Ledger) : Ledger := { g with loops := g.loops + 1 }

end Ledger

/-- The open jumps that leave a block or a loop. -/
def State.exits (s : State) : Multiset Nat :=
  Patch.positions (s.blocks.flatMap (·.breaks)) + Patch.positions (s.loops.flatMap (·.breaks))

/-- The draft owes what the frames hold and what the callers owe, and nothing else. -/
structure Tidy (g : Ledger) (s : State) : Prop where
  owes : s.draft.Owes (s.exits + g.sites) g.tails
  headers : ∀ frame ∈ s.loops, frame.header ≤ s.draft.label
  floor : g.floor ≤ s.draft.label
  blocks : s.blocks.length = g.blocks
  loops : s.loops.length = g.loops

/-- The part of the state that jumps live in. -/
def State.code (s : State) : Draft × List BlockFrame × List LoopFrame := (s.draft, s.blocks, s.loops)

theorem Tidy.of_code {g : Ledger} {s t : State} (h : Tidy g s) (e : t.code = s.code) : Tidy g t := by
  obtain ⟨hd, hb, hl⟩ : t.draft = s.draft ∧ t.blocks = s.blocks ∧ t.loops = s.loops := by simpa [State.code] using e
  obtain ⟨h1, h2, h3, h4, h5⟩ := h
  unfold State.exits at h1
  rw [← hd, ← hb, ← hl] at h1
  rw [← hd, ← hl] at h2
  rw [← hd] at h3
  exact ⟨h1, h2, h3, by rw [hb]; exact h4, by rw [hl]; exact h5⟩

theorem Tidy.of_owing {g : Ledger} {b : Branch} {s : State} (h : Tidy (g.owing b) s) : b.fallThrough ≤ s.draft.label :=
  Nat.le_trans (Nat.le_max_right _ _) h.floor

/-- The books after a step that was offered a tail and says whether it took it. -/
def Settled (g : Ledger) (offer : Option Offer) (taken : Bool) (s : State) : Prop :=
  if taken then offer.isSome = true ∧ Tidy g s else Tidy (g.offering offer) s

theorem Settled.of_none {g : Ledger} {taken : Bool} {s : State} (h : Settled g none taken s) :
    taken = false ∧ Tidy g s := by
  cases taken
  · exact ⟨rfl, h⟩
  · exact absurd h.1 (by simp)

theorem Settled.of_code {g : Ledger} {offer : Option Offer} {taken : Bool} {s t : State} (h : Settled g offer taken s)
    (e : t.code = s.code) : Settled g offer taken t := by
  cases taken
  · exact Tidy.of_code h e
  · exact ⟨h.1, h.2.of_code e⟩

/-- The step keeps the books tidy, whatever its callers owe. -/
def Orderly {α : Type} (act : Lower α) : Prop := ∀ g, Meets (Tidy g) act (fun _ => Tidy g) Harmless

/-- The step pays the offered tail exactly if it says so. -/
def Passes (offer : Option Offer) (act : Lower Bool) : Prop :=
  ∀ g : Ledger, Meets (Tidy (g.offering offer)) act (Settled g offer) Harmless

/-- As `Passes`, for a step that gives a slot as well. -/
def Visits (offer : Option Offer) (act : Lower Visited) : Prop :=
  ∀ g : Ledger, Meets (Tidy (g.offering offer)) act (fun v => Settled g offer v.taken) Harmless

variable {α β : Type}

namespace Orderly

theorem of_keeps {act : Lower α} (h : Keeps State.code Harmless act) : Orderly act :=
  fun _ => h.stable fun _ _ e hs => hs.of_code e

theorem pure {a : α} : Orderly (Pure.pure a) := of_keeps .pure

theorem bind {x : Lower α} {f : α → Lower β} (hx : Orderly x) (hf : ∀ a, Orderly (f a)) : Orderly (x >>= f) :=
  fun g => (hx g).bind fun a => hf a g

theorem settled {act : Lower α} (h : Orderly act) (g : Ledger) (offer : Option Offer) (taken : Bool) :
    Meets (Settled g offer taken) act (fun _ => Settled g offer taken) Harmless := by
  cases taken
  · exact h (g.offering offer)
  · exact .given fun ho => (h g).post fun _ _ hs => ⟨ho, hs⟩

end Orderly

/-- The step keeps the books tidy and takes no offer. -/
def Declines (act : Lower Visited) : Prop :=
  ∀ g, Meets (Tidy g) act (fun v s => v.taken = false ∧ Tidy g s) Harmless

namespace Declines

theorem pure {v : Visited} (h : v.taken = false) : Declines (Pure.pure v) := fun _ => .pure fun _ hs => ⟨h, hs⟩

theorem fail {e : BuildError} (h : Harmless e) : Declines (throw e) := fun _ => .fail h

theorem bind {x : Lower α} {f : α → Lower Visited} (hx : Orderly x) (hf : ∀ a, Declines (f a)) :
    Declines (x >>= f) := fun g => (hx g).bind fun a => hf a g

theorem visits {act : Lower Visited} (h : Declines act) (offer : Option Offer) : Visits offer act := by
  intro g
  refine (h (g.offering offer)).post fun v s hs => ?_
  rw [hs.1]
  exact hs.2

end Declines

/-! ## Steps on the books of nodes, slots, regions and tables -/

section Quiet

variable (ctx : Context) (id : NodeId)

theorem quiet_node : Keeps State.code Harmless (ctx.node id) := by
  unfold Context.node
  split
  · exact .pure
  · exact .fail rfl

theorem quiet_nodeState : Keeps State.code Harmless (nodeState id) := fun _ => rfl

theorem quiet_setProgress (p : Progress) : Keeps State.code Harmless (setProgress id p) := fun _ => rfl

theorem quiet_borrow : Keeps State.code Harmless (borrow id) := fun _ => rfl

theorem quiet_isDemanded : Keeps State.code Harmless (isDemanded id) := fun _ => rfl

theorem quiet_consume (u : Usage) : Keeps State.code Harmless (consume id u) := by
  refine .read fun s => ?_
  rcases s.demand.consume id u with (_ | _) | _ <;> rfl

theorem quiet_expectType (type : ValueType) : Keeps State.code Harmless (ctx.expectType id type) := by
  refine .bind (quiet_node ctx id) fun n => ?_
  dsimp only
  split
  · exact .fail rfl
  · exact .pure

theorem quiet_currentRegion : Keeps State.code Harmless currentRegion := fun _ => rfl

theorem quiet_openRegion : Keeps State.code Harmless openRegion := fun _ => rfl

theorem quiet_closeRegion (r : Region) : Keeps State.code Harmless (closeRegion r) := by
  refine .read fun s => ?_
  cases s.regions with
  | nil => rfl
  | cons top rest =>
    by_cases h : top = r
    · simp only [h, if_true]; rfl
    · simp only [h, if_false]; rfl

theorem quiet_acquire (k : Kind) : Keeps State.code Harmless (acquire k) := fun _ => rfl

theorem quiet_releaseSlot (slot : TypedSlot) : Keeps State.code Harmless (releaseSlot slot) := by
  refine .read fun s => ?_
  cases s.pool.release slot.kind slot.slot <;> rfl

theorem quiet_alloc : Keeps State.code Harmless (alloc id) := fun _ => rfl

theorem quiet_vacate : Keeps State.code Harmless (vacate id) := by
  refine .bind (quiet_nodeState id) fun n => ?_
  split
  · exact .bind (quiet_releaseSlot _) fun _ => quiet_setProgress id _
  · exact .pure

theorem quiet_release : Keeps State.code Harmless (release id) := by
  refine .bind (quiet_nodeState id) fun n => ?_
  split
  · exact .fail rfl
  · refine .bind (.update fun _ => rfl) fun _ => .bind .get fun _ => ?_
    split
    · exact quiet_vacate id
    · exact .pure

theorem quiet_resultSlot (hint : Option TypedSlot) : Keeps State.code Harmless (ctx.resultSlot id hint) := by
  unfold Context.resultSlot
  split
  · exact .fail rfl
  · split
    · refine .bind .get fun _ => ?_
      split
      · exact .bind (quiet_borrow id) fun _ => .pure
      · exact quiet_acquire _
    · exact quiet_acquire _

theorem quiet_demandedSlot (hint : Option TypedSlot) : Keeps State.code Harmless (ctx.demandedSlot id hint) := by
  refine .bind (quiet_isDemanded id) fun d => ?_
  split
  · exact .bind (quiet_resultSlot ctx id hint) fun _ => .pure
  · exact .pure

theorem quiet_intern (text : String) : Keeps State.code Harmless (intern text) := fun _ => rfl

theorem quiet_addSite (site : CallSite) : Keeps State.code Harmless (addSite site) := fun _ => rfl

theorem quiet_lookup {α : Type} (r : Except Missing α) : Keeps State.code Harmless (lookup r) := by
  cases r
  · exact .fail rfl
  · exact .pure

theorem quiet_varSlot (index : VarId) : Keeps State.code Harmless (ctx.varSlot id index) := by
  unfold Context.varSlot
  split
  · exact .pure
  · exact .fail rfl

theorem quiet_checkField (field : FieldRef) (declared : ValueType) :
    Keeps State.code Harmless (checkField id field declared) := by
  unfold checkField
  split
  · exact .fail rfl
  · exact .pure

theorem quiet_classId (className : String) : Keeps State.code Harmless (ctx.classId id className) := by
  unfold Context.classId
  split
  · exact .pure
  · exact .fail rfl

theorem quiet_checkCall (method : MethodRef) (kind : CallKind) (native : NativeFunction) (given : Nat) :
    Keeps State.code Harmless (checkCall id method kind native given) := by
  unfold checkCall
  dsimp only
  split
  · exact .fail rfl
  · split
    · exact .fail rfl
    · exact .pure

theorem quiet_composable : Keeps State.code Harmless (ctx.composable? id) := by
  refine .bind (quiet_node ctx id) fun n => .bind .get fun _ => .bind (quiet_nodeState id) fun _ => ?_
  split <;> exact .pure

theorem quiet_regionOf (e : Expr) : Keeps State.code Harmless (regionOf e) := by
  unfold regionOf
  split
  · exact .pure
  · exact .pure
  · exact quiet_currentRegion

theorem quiet_label : Keeps State.code Harmless label := fun _ => rfl

end Quiet

/-! ## Steps on the code -/

/-- An edit of the draft that pays or makes debts. -/
theorem Tidy.redraft {g g' : Ledger} {s : State} {d : Draft} (h : Tidy g s) (ho : d.Owes (s.exits + g'.sites) g'.tails)
    (hl : s.draft.label ≤ d.label) (hf : g'.floor ≤ d.label) (hb : g'.blocks = g.blocks) (hlo : g'.loops = g.loops) :
    Tidy g' { s with draft := d } :=
  ⟨ho, fun frame hfr => Nat.le_trans (h.headers frame hfr) hl, hf, h.blocks.trans hb.symm, h.loops.trans hlo.symm⟩

/-- An edit that succeeds on every tidy state. -/
theorem meets_drafting {P : State → Prop} {act : Drafting α} {Q : α → State → Prop}
    (h : ∀ s, P s → ∃ a d, act.run s.draft = .ok a d ∧ Q a { s with draft := d }) :
    Meets P (drafting act) Q Harmless := by
  intro s hs
  obtain ⟨a, d, hr, hq⟩ := h s hs
  have : drafting act s = .ok (a, { s with draft := d }) := by
    simp only [drafting, bind, StateT.bind, Except.bind, get, getThe, MonadStateOf.get, StateT.get, pure, Except.pure, hr]
    rfl
  rw [this]
  exact hq

theorem meets_emit {g : Ledger} {ins : Instruction} :
    Meets (fun s => Draft.Plain ins s.draft.label ∧ Tidy g s) (emit ins) (fun _ => Tidy g) Harmless := by
  refine meets_drafting fun s hs => ⟨(), s.draft.add ins, rfl, ?_⟩
  exact hs.2.redraft (hs.2.owes.add hs.1) (by simp) (by have := hs.2.floor; simp; omega) rfl rfl

theorem plain_of_straight {ins : Instruction} (h : ins.isStraight = true) (next : Nat) : Draft.Plain ins next := by
  cases ins <;> simp_all [Instruction.isStraight, Draft.Plain, Instruction.target?]

theorem orderly_emit {ins : Instruction} (h : ins.isStraight = true) : Orderly (emit ins) :=
  fun _ => meets_emit.pre fun s hs => ⟨plain_of_straight h s.draft.label, hs⟩

theorem meets_gotoPending {g : Ledger} :
    Meets (Tidy g) gotoPending (fun jump => Tidy (g.holding [jump])) Harmless := by
  refine meets_drafting fun s hs => ⟨⟨s.draft.label⟩, s.draft.add (.goto .pending), rfl, ?_⟩
  refine hs.redraft ?_ (by simp) (by have := hs.floor; simp [Ledger.holding]; omega) rfl rfl
  have := hs.owes.addOpen (.goto .pending) rfl
  simpa [Ledger.holding] using this

theorem meets_patchAll {g : Ledger} {ps : List Patch} {a : Nat} :
    Meets (fun s => a ≤ s.draft.label ∧ Tidy (g.holding ps) s) (drafting (Drafting.patchAll ps (.address a)))
      (fun _ => Tidy g) Harmless := by
  refine meets_drafting fun s hs => ?_
  have ho : s.draft.Owes (Patch.positions ps + (s.exits + g.sites)) g.tails := by
    have := hs.2.owes
    rwa [Ledger.holding, add_left_comm] at this
  obtain ⟨d, hr, hd, hl⟩ := ho.patchAll ps hs.1
  exact ⟨(), d, hr, hs.2.redraft hd (by omega) (by have := hs.2.floor; simp [Ledger.holding] at this; omega) rfl rfl⟩

theorem meets_patch {g : Ledger} {p : Patch} {a : Nat} :
    Meets (fun s => a ≤ s.draft.label ∧ Tidy (g.holding [p]) s) (drafting (Drafting.patch p (.address a)))
      (fun _ => Tidy g) Harmless := by
  refine meets_drafting fun s hs => ?_
  have ho : s.draft.Owes (p.position ::ₘ (s.exits + g.sites)) g.tails := by
    have := hs.2.owes
    rwa [Ledger.holding, add_left_comm] at this
  obtain ⟨d, hr, hd, hl⟩ := ho.patch hs.1
  refine ⟨(), d, ?_, hs.2.redraft hd (by omega) (by have := hs.2.floor; simp [Ledger.holding] at this; omega) rfl rfl⟩
  simp [EStateM.run, Drafting.patch, Drafting.edit, hr, Except.map]

theorem meets_onSlot {g : Ledger} {cond : Slot} :
    Meets (Tidy g) (drafting (Branch.onSlot cond)) (fun b => Tidy (g.owing b)) Harmless := by
  refine meets_drafting fun s hs =>
    ⟨⟨[], [], ⟨s.draft.label, cond, false⟩, s.draft.reserve.2.label⟩, s.draft.reserve.2, rfl, ?_⟩
  have hl : s.draft.reserve.2.label = s.draft.label + 1 := by simp [Draft.reserve, Draft.label]
  refine hs.redraft ?_ (by omega) (by have := hs.floor; simp only [Ledger.owing]; omega) rfl rfl
  simpa [Ledger.owing, Branch.sites] using hs.owes.reserve

theorem meets_defer {g : Ledger} {b : Branch} {polarity : Bool} :
    Meets (Tidy (g.owing b)) (drafting (b.defer polarity)) (fun ps => Tidy (g.holding ps)) Harmless := by
  refine meets_drafting fun s hs => ?_
  have ho : s.draft.Owes (b.sites + (s.exits + g.sites)) (b.tail.position ::ₘ g.tails) := by
    have := hs.owes
    rwa [Ledger.owing, add_left_comm] at this
  obtain ⟨ps, d, hr, hd, hl⟩ := ho.defer polarity hs.of_owing
  refine ⟨ps, d, hr, hs.redraft ?_ (by omega) ?_ rfl rfl⟩
  · rwa [Ledger.holding, add_left_comm]
  · have := hs.floor
    simp [Ledger.owing] at this
    simp [Ledger.holding]
    omega

theorem meets_resolve {g : Ledger} {b : Branch} {polarity : Bool} {a : Nat} :
    Meets (fun s => a ≤ s.draft.label ∧ Tidy (g.owing b) s) (drafting (b.resolve polarity (.address a)))
      (fun _ => Tidy g) Harmless := by
  refine meets_drafting fun s hs => ?_
  have ho : s.draft.Owes (b.sites + (s.exits + g.sites)) (b.tail.position ::ₘ g.tails) := by
    have := hs.2.owes
    rwa [Ledger.owing, add_left_comm] at this
  obtain ⟨d, hr, hd, hl⟩ := ho.resolve polarity hs.2.of_owing hs.1
  refine ⟨(), d, hr, hs.2.redraft hd (by omega) ?_ rfl rfl⟩
  have := hs.2.floor
  simp [Ledger.owing] at this
  omega

theorem meets_standing {P : State → Prop} (offer : Option Offer) :
    Meets P (standing offer) (fun o s => (o = none ∨ o = offer) ∧ P s) Harmless := by
  refine fun s hs => ⟨?_, hs⟩
  cases offer with
  | none => exact .inl rfl
  | some o =>
    rw [Option.filter]
    split
    · exact .inr rfl
    · exact .inl rfl

/-- The next position, which the code has then reached. -/
theorem meets_label {P : State → Prop} : Meets P label (fun a s => a ≤ s.draft.label ∧ P s) Harmless :=
  fun _ hs => ⟨Nat.le_refl _, hs⟩

/-- A jump back to a position that the code has reached. -/
theorem meets_goBack {g : Ledger} {a : Nat} :
    Meets (fun s => a ≤ s.draft.label ∧ Tidy g s) (emit (.goto (.address a))) (fun _ => Tidy g) Harmless :=
  meets_emit.pre fun _ hs => ⟨⟨nofun, nofun, fun _ ht => ⟨a, (Option.some.inj ht).symm, hs.1⟩⟩, hs.2⟩

end Lowering

end SlotCode
