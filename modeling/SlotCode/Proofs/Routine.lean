/-
  SlotCode.Proofs.Routine — steps that are the same business for every node.

  Between the visits of its children a node is lowered by routine: notes on nodes are made,
  slots are taken from the pool and given back, jumps are emitted and patched. Such a step
  comes to no node, adds no text, call or region, and changes nothing in the code but jumps
  and empty places.

  `Tends` says so of two states, and a step is `Routine` if all states that it leads to are
  so related to the one it began in. An invariant that is stable under `Tends` is upheld by
  every routine step (`Routine.upholds`).
-/

import SlotCode.Proofs.Accounts
import SlotCode.Proofs.Operations

namespace SlotCode

/-- The error does not depend on how the walk came to the node, and nothing is missing. -/
def BuildError.IsPlain : BuildError → Prop
  | .cycle _ | .tooDeep .. | .missing _ => False
  | _ => True

namespace Lowering

variable {α : Type} {ctx : Context} {s t u : State} {id : NodeId}

/-- What routine leaves as it is. -/
def State.ground (s : State) : Nat × (NodeId → Stage) × Demand × TextTable × Array CallSite × List Region :=
  (s.nodes.size, s.stage, s.demand, s.table, s.sites, s.nextRegion :: s.regions)

/-- The second state comes from the first by routine. -/
structure Tends (s t : State) : Prop where
  ground : t.ground = s.ground
  draft : s.draft.Tended t.draft
  pool : ∀ fixed, s.pool.Sound fixed → t.pool.Sound fixed

theorem stage_setNode {n : NodeState} (h : n.progress.stage = s.stage id) : (s.setNode id n).stage = s.stage := by
  funext i
  rw [State.stage, node_setNode]
  split
  · rename_i hi
    rw [h, hi.1]
  · rfl

namespace Tends

theorem refl (h : s.draft.Clean) : Tends s s := ⟨rfl, .refl h, fun _ hp => hp⟩

theorem trans (h : Tends s t) (h' : Tends t u) : Tends s u :=
  ⟨h'.ground.trans h.ground, h.draft.trans h'.draft, fun fixed hp => h'.pool fixed (h.pool fixed hp)⟩

theorem clean (h : Tends s t) : t.draft.Clean := h.draft.clean

theorem stage (h : Tends s t) : t.stage = s.stage := congrArg (·.2.1) h.ground

/-- A note on a node that leaves it where it stands. -/
theorem note {n : NodeState} (h : s.draft.Clean) (hn : n.progress.stage = s.stage id) : Tends s (s.setNode id n) := by
  refine ⟨?_, .refl h, fun _ hp => hp⟩
  unfold State.ground
  rw [stage_setNode hn]
  simp [State.setNode]

/-- Other frames. -/
theorem frames (h : s.draft.Clean) (blocks : List BlockFrame) (loops : List LoopFrame) : Tends s { s with blocks, loops } :=
  ⟨rfl, .refl h, fun _ hp => hp⟩

theorem redraft {d : Draft} (h : s.draft.Tended d) : Tends s { s with draft := d } := ⟨rfl, h, fun _ hp => hp⟩

end Tends

/-- The step is routine, and what it gives satisfies `p`. -/
abbrev Routine (act : Lower α) (p : α → Prop) : Prop := Upholds Tends BuildError.IsPlain act p

namespace Routine

variable {act : Lower α} {p : α → Prop}

theorem of_each (h : ∀ s, s.draft.Clean → Meets (· = s) act (fun a t => p a ∧ Tends s t) BuildError.IsPlain) :
    Routine act p :=
  fun _ => .each fun s hs => (h s hs.clean).post fun _ _ ht => ⟨ht.1, hs.trans ht.2⟩

theorem meets (h : Routine act p) (hs : s.draft.Clean) :
    Meets (· = s) act (fun a t => p a ∧ Tends s t) BuildError.IsPlain := by
  refine (h s).pre fun t ht => ?_
  rw [ht]
  exact .refl hs

theorem update {f : State → State} (h : ∀ s, s.draft.Clean → Tends s (f s)) : Routine (modify f) fun _ => True :=
  fun _ s hs => ⟨trivial, hs.trans (h s hs.clean)⟩

/-- What is stable under routine is upheld. -/
theorem upholds {ι : Type} {I : ι → State → Prop} {E : BuildError → Prop} (h : Routine act p)
    (hclean : ∀ i s, I i s → s.draft.Clean) (hI : ∀ i s t, Tends s t → I i s → I i t) (hE : ∀ e, e.IsPlain → E e) :
    Upholds I E act p :=
  Upholds.coarsen h (fun i s hs => ⟨s, .refl (hclean i s hs), fun t ht => hI i s t ht hs⟩) hE

end Routine

/-! ## Looking things up -/

theorem routine_isDemanded : Routine (isDemanded id) fun _ => True := Upholds.get.bind fun _ _ => .pure trivial

theorem routine_varSlot (index : VarId) : Routine (ctx.varSlot id index) fun x => ctx.vars[index]? = some x := by
  unfold Context.varSlot
  split
  · exact .pure ‹_›
  · exact .fail trivial

theorem routine_classId (className : String) :
    Routine (ctx.classId id className) fun target => ctx.env.classes.find? className = some target := by
  unfold Context.classId
  split
  · exact .pure ‹_›
  · exact .fail trivial

theorem routine_checkField (field : FieldRef) (declared : ValueType) : Routine (checkField id field declared) fun _ => True :=
  .ite (fun _ => .fail trivial) fun _ => .pure trivial

theorem routine_checkCall (method : MethodRef) (kind : CallKind) (native : NativeFunction) (given : Nat) :
    Routine (checkCall id method kind native given) fun _ => True :=
  .ite (fun _ => .fail trivial) fun _ => .ite (fun _ => .fail trivial) fun _ => .pure trivial

theorem routine_regionOf (e : Expr) : Routine (regionOf e) fun _ => True := by
  unfold regionOf
  split
  · exact .pure trivial
  · exact .pure trivial
  · exact Upholds.get.bind fun _ _ => .pure trivial

theorem routine_checkSlot (u : Usage) (v : Visited) : Routine (checkSlot id u v) fun _ => True :=
  .ite (fun _ => .fail trivial) fun _ => .pure trivial

/-! ## The books of nodes and slots -/

theorem routine_alloc : Routine (alloc id) fun _ => True := .update fun _ hs => .note hs rfl

theorem routine_borrow : Routine (borrow id) fun _ => True := .update fun _ hs => .note hs rfl

theorem routine_acquire (k : Kind) : Routine (acquire k) fun x => x.kind = k :=
  fun _ _ hs => ⟨rfl, hs.trans ⟨rfl, .refl hs.clean, fun _ hp => (hp.acquire k).sound⟩⟩

theorem routine_releaseSlot (x : TypedSlot) : Routine (releaseSlot x) fun _ => True := by
  refine .of_each fun s hs => .step rfl ?_
  cases hr : s.pool.release x.kind x.slot with
  | error e => exact .fail trivial
  | ok pool => exact fun t ht => ⟨trivial, rfl, .refl hs, fun _ hp => (hp.release hr).sound⟩

/-- A built node stays built when it gives its slot back. -/
theorem routine_vacate : Routine (vacate id) fun _ => True := by
  refine .of_each fun s hs => .step rfl ?_
  split
  · rename_i slot region hp
    have hbuilt : s.stage id = .built := by rw [State.stage, hp]; rfl
    refine ((routine_releaseSlot slot).meets hs).bind fun _ t ht => ⟨trivial, ht.2.trans (.note ht.2.clean ?_)⟩
    rw [ht.2.stage, hbuilt]
    rfl
  · refine .pure fun t ht => ⟨trivial, ?_⟩
    rw [ht]
    exact .refl hs

theorem routine_release : Routine (release id) fun _ => True := by
  refine .of_each fun s hs => .step rfl (?_ : Meets _ (ite _ _ _) _ _)
  split
  · exact .fail trivial
  · refine .step rfl (.step rfl ?_)
    have hless : Tends s (s.setNode id { s.node id with pending := (s.node id).pending - 1 }) := .note hs rfl
    split
    · exact (routine_vacate s).pre fun t ht => ht ▸ hless
    · exact .pure fun t ht => ⟨trivial, ht ▸ hless⟩

theorem routine_releaseAll (ids : List NodeId) : Routine (ids.forM release) fun _ => True :=
  .forM (fun _ => routine_release) ids

/-- The slot of a value has its kind. -/
theorem routine_resultSlot (hint : Option TypedSlot) :
    Routine (ctx.resultSlot id hint) fun x => ctx.function.kind? id = some x.kind := by
  have hacquire : ∀ k, ctx.function.kind? id = some k → Routine (acquire k) fun x => ctx.function.kind? id = some x.kind :=
    fun k hk => (routine_acquire k).post fun x hx => hx ▸ hk
  unfold Context.resultSlot
  split
  · exact .fail trivial
  · rename_i k hk
    split
    · rename_i x
      refine Upholds.get.bind fun s _ => .ite (fun hfits => routine_borrow.bind fun _ _ => .pure ?_) fun _ => hacquire k hk
      rw [hk, hfits.1]
    · exact hacquire k hk

theorem routine_fixedSlot (x : TypedSlot) : Routine (fixedSlot id x) fun _ => True :=
  routine_borrow.bind fun _ _ => routine_isDemanded.bind fun _ _ => .ite (fun _ => .pure trivial) fun _ => .pure trivial

theorem routine_param (index : ParamId) : Routine (param ctx id index) fun _ => True := by
  unfold param
  split
  · exact routine_fixedSlot _
  · exact .fail trivial

theorem routine_getVar (index : VarId) : Routine (getVar ctx id index) fun _ => True :=
  (routine_varSlot index).bind fun x _ => routine_fixedSlot x

/-! ## Jumps -/

theorem routine_drafting {act : Drafting α} (h : Steady act) : Routine (drafting act) fun _ => True := by
  refine .of_each fun s hs => .step rfl ?_
  cases hr : act.run s.draft with
  | error e d => exact .fail trivial
  | ok a d => exact .step rfl (.pure fun t ht => ⟨trivial, ht ▸ .redraft (h s.draft a d hs hr)⟩)

theorem routine_label : Routine label fun _ => True := routine_drafting .label

theorem routine_gotoPending : Routine gotoPending fun _ => True := routine_drafting (.addJump _)

theorem routine_emit {i : Instruction} (h : i.isJump = true) : Routine (emit i) fun _ => True :=
  fun _ _ hs => ⟨trivial, hs.trans (.redraft (.push (.inr h) _ (Draft.before_add hs.clean i)))⟩

theorem routine_closeBlock : Routine closeBlock fun _ => True := by
  refine .of_each fun s hs => .step rfl ?_
  cases s.blocks with
  | nil => exact .fail trivial
  | cons frame rest => exact .step rfl ((routine_drafting (.patchAll _ _) s).pre fun t ht => ht ▸ .frames hs _ _)

theorem routine_closeLoop : Routine closeLoop fun _ => True := by
  refine .of_each fun s hs => .step rfl ?_
  cases s.loops with
  | nil => exact .fail trivial
  | cons frame rest => exact .step rfl ((routine_drafting (.patchAll _ _) s).pre fun t ht => ht ▸ .frames hs _ _)

theorem routine_standing (offer : Option Offer) : Routine (standing offer) fun _ => True :=
  routine_label.bind fun _ _ => .pure trivial

theorem routine_exitJumps (offer : Option Offer) : Routine (exitJumps offer) fun _ => True := by
  refine (routine_standing offer).bind fun o _ => ?_
  cases o with
  | none => exact routine_gotoPending.bind fun _ _ => .pure trivial
  | some o => exact (routine_drafting (.defer _ _)).bind fun _ _ => .pure trivial

theorem routine_exitBlock (name : BlockId) (offer : Option Offer) : Routine (exitBlock id name offer) fun _ => True := by
  refine Upholds.get.bind fun s _ => ?_
  split
  · exact .fail trivial
  · refine (routine_exitJumps offer).bind fun r _ => ?_
    obtain ⟨jumps, taken⟩ := r
    exact Upholds.bind (Routine.update fun _ hs => .frames hs _ _) fun _ _ => .pure trivial

theorem routine_exitLoop (name : LoopId) (offer : Option Offer) : Routine (exitLoop id name offer) fun _ => True := by
  refine Upholds.get.bind fun s _ => ?_
  split
  · exact .fail trivial
  · refine (routine_exitJumps offer).bind fun r _ => ?_
    obtain ⟨jumps, taken⟩ := r
    exact Upholds.bind (Routine.update fun _ hs => .frames hs _ _) fun _ _ => .pure trivial

theorem routine_continueLoop (name : LoopId) (offer : Option Offer) : Routine (continueLoop id name offer) fun _ => True := by
  refine Upholds.get.bind fun s _ => ?_
  split
  · exact .fail trivial
  · refine (routine_standing offer).bind fun o _ => ?_
    cases o with
    | none => exact (routine_emit rfl).bind fun _ _ => .pure trivial
    | some o => exact (routine_drafting (.resolve _ _ _)).bind fun _ _ => .pure trivial

end Lowering

end SlotCode
