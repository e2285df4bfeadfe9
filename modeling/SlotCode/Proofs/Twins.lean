/-
  SlotCode.Proofs.Twins — a function lowered twice, side by side.

  The two lowerings keep the same books and put out different code. `Twin` relates their
  states; what differs is the `Output`, the code and the frames that wait for addresses
  in it. `Tandem` runs a step of each: both succeed, or both fail with the same error.
  A jump that one of them mishandles is left aside, since neither ever mishandles one.

  What the outputs have to do with each other is said of the finished programs. `Carries`
  relates the outputs before and after a step: where the programs are in step after the
  code that was added, they are so before it, provided that every exit from a block or a
  loop leads to where they are in step (`Lands`). `Branches` says the same of a condition
  that waits for its consumer, and `Took` of an exit that put out nothing in one lowering and
  took over the tail of a condition, and put out a jump in the other.

  Proved: these relations compose, and the steps that only concern the books (`Blind`)
  or only edit the code keep the two lowerings together.
-/

import SlotCode.Proofs.Bookkeeping
import SlotCode.Proofs.JumpLedger
import SlotCode.Proofs.Lockstep

namespace SlotCode.Lowering

variable {α β γ : Type}

/-! ## Outputs -/

/-- The code so far, and the frames that wait for addresses in it. -/
structure Output where
  draft : Draft
  blocks : List BlockFrame
  loops : List LoopFrame

def State.output (s : State) : Output := ⟨s.draft, s.blocks, s.loops⟩

/-- The same books with another output. -/
def State.putting (s : State) (c : Output) : State := { s with draft := c.draft, blocks := c.blocks, loops := c.loops }

namespace Output

def label (c : Output) : Nat := c.draft.label

/-- Code with the same frames. -/
def redraft (c : Output) (d : Draft) : Output := { c with draft := d }

/-- Outputs of the same books: their frames are for the same blocks and loops. -/
structure Paired (c d : Output) : Prop where
  clean : c.draft.Clean
  clean' : d.draft.Clean
  blocks : d.blocks.map (·.block) = c.blocks.map (·.block)
  loops : d.loops.map (·.loop) = c.loops.map (·.loop)

/-- The later output has all the code and all the exits of the earlier one. -/
structure Extends (c c' : Output) : Prop where
  draft : c.draft.Before c'.draft
  blocks : List.Forall₂ BlockFrame.Before c.blocks c'.blocks
  loops : List.Forall₂ LoopFrame.Before c.loops c'.loops

variable {c c' c'' d d' d'' : Output}

theorem Extends.refl (h : c.draft.Clean) : c.Extends c := ⟨.refl h, blocks_refl _, loops_refl _⟩

theorem Extends.trans (h : c.Extends c') (h' : c'.Extends c'') : c.Extends c'' where
  draft := h.draft.trans h'.draft
  blocks := forall₂_comp (fun _ _ _ hf hg => ⟨hf.block.trans hg.block, fun p hp => hg.breaks p (hf.breaks p hp)⟩)
    h.blocks h'.blocks
  loops := forall₂_comp (fun _ _ _ hf hg => ⟨hf.loop.trans hg.loop, hf.header.trans hg.header,
    fun p hp => hg.breaks p (hf.breaks p hp)⟩) h.loops h'.loops

theorem Extends.redraft {e : Draft} (h : c.draft.Before e) : c.Extends (c.redraft e) := ⟨h, blocks_refl _, loops_refl _⟩

theorem Extends.label (h : c.Extends c') : c.label ≤ c'.label := h.draft.label

/-! ## Landing -/

/-- The exits of a frame in both programs lead to where these are in step for fewer steps. -/
def Meet (im im' : Image) (n : Nat) (ps qs : List Patch) : Prop :=
  ∃ x y, im.InStepBelow im' n x y ∧ (∀ p ∈ ps, p.Aims im.program.code x) ∧ ∀ q ∈ qs, q.Aims im'.program.code y

/-- The outputs became two programs, which are in step for fewer steps wherever an exit leads. -/
structure Lands (im im' : Image) (n : Nat) (c d : Output) : Prop where
  counterparts : im.Counterparts im'
  becomes : c.draft.Becomes im.program.code
  becomes' : d.draft.Becomes im'.program.code
  blocks : List.Forall₂ (fun f g => Meet im im' n f.breaks g.breaks) c.blocks d.blocks
  loops : List.Forall₂ (fun f g => im.InStepBelow im' n f.header g.header ∧ Meet im im' n f.breaks g.breaks) c.loops d.loops

variable {im im' : Image} {n k : Nat}

theorem Meet.mono {ps qs : List Patch} (h : Meet im im' n ps qs) (hk : k ≤ n) : Meet im im' k ps qs := by
  obtain ⟨x, y, hxy, hp, hq⟩ := h
  exact ⟨x, y, hxy.mono hk, hp, hq⟩

theorem Meet.fewer {ps ps' qs qs' : List Patch} (h : Meet im im' n ps' qs') (hp : ∀ p ∈ ps, p ∈ ps')
    (hq : ∀ q ∈ qs, q ∈ qs') : Meet im im' n ps qs := by
  obtain ⟨x, y, hxy, hps, hqs⟩ := h
  exact ⟨x, y, hxy, fun p hmem => hps p (hp p hmem), fun q hmem => hqs q (hq q hmem)⟩

theorem Lands.mono (h : Lands im im' n c d) (hk : k ≤ n) : Lands im im' k c d :=
  ⟨h.counterparts, h.becomes, h.becomes', h.blocks.imp fun _ _ hm => hm.mono hk,
    h.loops.imp fun _ _ hm => ⟨hm.1.mono hk, hm.2.mono hk⟩⟩

/-- What lands later has landed before. -/
theorem Lands.back (h : Lands im im' n c' d') (hc : c.Extends c') (hd : d.Extends d') : Lands im im' n c d where
  counterparts := h.counterparts
  becomes := hc.draft.becomes _ h.becomes
  becomes' := hd.draft.becomes _ h.becomes'
  blocks := by
    have hleft : List.Forall₂ (fun f g => Meet im im' n f.breaks g.breaks) c.blocks d'.blocks :=
      forall₂_comp (fun _ _ _ hf hm => hm.fewer hf.breaks fun _ hq => hq) hc.blocks h.blocks
    exact forall₂_comp (fun _ _ _ hm hg => hm.fewer (fun _ hp => hp) hg.breaks) hleft hd.blocks.flip
  loops := by
    have hleft : List.Forall₂ (fun f g => im.InStepBelow im' n f.header g.header ∧ Meet im im' n f.breaks g.breaks)
        c.loops d'.loops :=
      forall₂_comp (fun _ _ _ hf hm => ⟨hf.header ▸ hm.1, hm.2.fewer hf.breaks fun _ hq => hq⟩) hc.loops h.loops
    exact forall₂_comp (fun _ _ _ hm hg => ⟨hg.header ▸ hm.1, hm.2.fewer (fun _ hp => hp) hg.breaks⟩) hleft hd.loops.flip

/-! ## From the code that was added back to the code before it -/

structure Carries (c d c' d' : Output) : Prop where
  left : c.Extends c'
  right : d.Extends d'
  /-- Either both put out something or neither did. -/
  still : c'.label = c.label ↔ d'.label = d.label
  carry : ∀ {im im' n}, Lands im im' n c' d' → im.InStep im' n c'.label d'.label → im.InStep im' n c.label d.label

theorem Paired.refl (h : c.Paired d) : Carries c d c d :=
  ⟨.refl h.clean, .refl h.clean', ⟨fun _ => rfl, fun _ => rfl⟩, fun _ hs => hs⟩

theorem Carries.trans (h : Carries c d c' d') (h' : Carries c' d' c'' d'') : Carries c d c'' d'' where
  left := h.left.trans h'.left
  right := h.right.trans h'.right
  still := by
    have h₁ := h.left.label
    have h₂ := h'.left.label
    have h₃ := h.right.label
    have h₄ := h'.right.label
    have hstill := h.still
    have hstill' := h'.still
    omega
  carry hl hs := h.carry (hl.back h'.left h'.right) (h'.carry hl hs)

/-- A condition was lowered to a branch in both: once these are decided, control goes the same way. -/
structure Branches (b b' : Branch) (c d c' d' : Output) : Prop where
  left : c.Extends c'
  right : d.Extends d'
  more : c.label < c'.label ∧ d.label < d'.label
  fall : b.fallThrough = c'.label ∧ b'.fallThrough = d'.label
  carry : ∀ {im im' n yes no yes' no'}, Lands im im' n c' d' → b.Decides im.program.code yes no →
    b'.Decides im'.program.code yes' no' → im.InStepBelow im' n yes yes' → im.InStepBelow im' n no no' →
      im.InStep im' n c.label d.label

theorem Branches.after {b b' : Branch} (h : Carries c d c' d') (h' : Branches b b' c' d' c'' d'') :
    Branches b b' c d c'' d'' where
  left := h.left.trans h'.left
  right := h.right.trans h'.right
  more := ⟨Nat.lt_of_le_of_lt h.left.label h'.more.1, Nat.lt_of_le_of_lt h.right.label h'.more.2⟩
  fall := h'.fall
  carry hl hb hb' hyes hno := h.carry (hl.back h'.left h'.right) (h'.carry hl hb hb' hyes hno)

/-- An exit took over the tail that was offered for the next position. The other lowering put out a jump. -/
structure Took (o : Offer) (c d c' d' : Output) : Prop where
  left : c.Extends c'
  right : d.Extends d'
  label : o.position ≤ c.label → c.label = o.position ∧ c'.label = o.position ∧ d'.label = d.label + 1
  leaves : o.position ≤ c.label → ∀ {im im' n}, Lands im im' n c' d' → ∃ x y, im.InStepBelow im' n x y ∧
    o.branch.Decides im.program.code (if o.polarity then x else o.branch.fallThrough)
      (if o.polarity then o.branch.fallThrough else x) ∧ im'.program.code[d.label]? = some (.goto (.address y))

theorem Took.after {o : Offer} (h : Carries c d c' d') (h' : Took o c' d' c'' d'') : Took o c d c'' d'' := by
  have hsame : o.position ≤ c.label → o.position ≤ c'.label ∧ c.label = o.position ∧ d'.label = d.label := fun hfits => by
    have hle := h.left.label
    have hfits' : o.position ≤ c'.label := by omega
    have hat := (h'.label hfits').1
    exact ⟨hfits', by omega, h.still.1 (by omega)⟩
  refine ⟨h.left.trans h'.left, h.right.trans h'.right, fun hfits => ?_, fun hfits im im' n hl => ?_⟩
  · obtain ⟨hfits', hat, hd⟩ := hsame hfits
    obtain ⟨-, hc'', hd''⟩ := h'.label hfits'
    exact ⟨hat, hc'', hd ▸ hd''⟩
  · obtain ⟨hfits', -, hd⟩ := hsame hfits
    exact hd ▸ h'.leaves hfits' hl

end Output

open Output

/-! ## Steps side by side -/

/-- States with the same books. -/
structure Twin (s t : State) : Prop where
  books : t = s.putting t.output
  paired : s.output.Paired t.output

/-- Both steps succeeded, or both failed with the same error, or one mishandled a jump. -/
inductive Agree (V : α → β → Output → Output → Prop) :
    Except BuildError (α × State) → Except BuildError (β × State) → Prop
  | ok {a : α} {b : β} {s t : State} : Twin s t → V a b s.output t.output → Agree V (.ok (a, s)) (.ok (b, t))
  | error (e : BuildError) : Agree V (.error e) (.error e)
  | fault {e : BuildError} {r : Except BuildError (β × State)} : e.isJumpFault = true → Agree V (.error e) r
  | fault' {e : BuildError} {r : Except BuildError (α × State)} : e.isJumpFault = true → Agree V r (.error e)

/-- A step of each lowering, from a pair of states. -/
def Tandem (s t : State) (x : Lower α) (y : Lower β) (V : α → β → Output → Output → Prop) : Prop := Agree V (x s) (y t)

theorem bind_run (x : Lower α) (f : α → Lower β) (s : State) : (x >>= f) s = match x s with
    | .ok (a, t) => f a t
    | .error e => .error e := by
  show (x s >>= fun p => f p.1 p.2) = _
  cases x s <;> rfl

namespace Tandem

variable {s t : State} {x : Lower α} {y : Lower β} {V W : α → β → Output → Output → Prop}

theorem pure {a : α} {b : β} (h : Twin s t) (hV : V a b s.output t.output) : Tandem s t (pure a) (pure b) V := .ok h hV

theorem fail {e : BuildError} : Tandem s t (throw e : Lower α) (throw e : Lower β) V := .error e

theorem bind {α' β' : Type} {f : α → Lower α'} {g : β → Lower β'} {U : α' → β' → Output → Output → Prop}
    (h : Tandem s t x y V)
    (hf : ∀ a b s' t', Twin s' t' → V a b s'.output t'.output → Tandem s' t' (f a) (g b) U) :
    Tandem s t (x >>= f) (y >>= g) U := by
  unfold Tandem at h ⊢
  rw [bind_run, bind_run]
  generalize x s = r at h
  generalize y t = r' at h
  cases h with
  | ok htwin hV => exact hf _ _ _ _ htwin hV
  | error e => exact .error e
  | fault he => exact .fault he
  | fault' he => exact .fault' he

theorem post (h : Tandem s t x y V) (hVW : ∀ a b c d, c.Paired d → V a b c d → W a b c d) : Tandem s t x y W := by
  unfold Tandem at h ⊢
  generalize x s = r at h
  generalize y t = r' at h
  cases h with
  | ok htwin hV => exact .ok htwin (hVW _ _ _ _ htwin.paired hV)
  | error e => exact .error e
  | fault he => exact .fault he
  | fault' he => exact .fault' he

end Tandem

/-! ## Steps on the books -/

/-- The step neither looks at the output nor changes it. -/
def Blind (x : Lower α) : Prop := ∀ s c, x (s.putting c) = (x s).map fun r => (r.1, r.2.putting c)

namespace Blind

variable {x : Lower α}

theorem pure {a : α} : Blind (pure a : Lower α) := fun _ _ => rfl

theorem fail {e : BuildError} : Blind (throw e : Lower α) := fun _ _ => rfl

theorem bind {f : α → Lower β} (hx : Blind x) (hf : ∀ a, Blind (f a)) : Blind (x >>= f) := by
  intro s c
  rw [bind_run, bind_run, hx s c]
  cases x s with
  | error e => rfl
  | ok r => exact hf r.1 r.2 c

/-- A step that starts with a look at the books. -/
theorem read {f : State → Lower α} (h : ∀ s c, f (s.putting c) (s.putting c) = (f s s).map fun r => (r.1, r.2.putting c)) :
    Blind (get >>= f) := fun s c => h s c

theorem ite {p : Prop} [Decidable p] {y : Lower α} (hx : Blind x) (hy : Blind y) : Blind (if p then x else y) := by
  split
  · exact hx
  · exact hy

/-- What the output was before it is after. -/
theorem output_eq (h : Blind x) {s t : State} {a : α} (hr : x s = .ok (a, t)) : t.output = s.output := by
  have hsame := h s s.output
  rw [show s.putting s.output = s from rfl, hr] at hsame
  have ht : t = t.putting s.output := congrArg Prod.snd (Except.ok.inj hsame)
  rw [ht]
  rfl

theorem tandem (h : Blind x) {s t : State} (ht : Twin s t) :
    Tandem s t x x fun a b c d => a = b ∧ c = s.output ∧ d = t.output := by
  unfold Tandem
  have hsame := h s t.output
  rw [← ht.books] at hsame
  rw [hsame]
  cases hr : x s with
  | error e => exact .error e
  | ok r =>
    have hout := h.output_eq hr
    refine .ok ⟨rfl, ?_⟩ ⟨rfl, hout, rfl⟩
    rw [hout]
    exact ht.paired

/-- A step on the books that comes first. -/
theorem first {f : α → Lower β} {g : α → Lower γ} {V : β → γ → Output → Output → Prop} (h : Blind x) {s t : State}
    (ht : Twin s t) (hf : ∀ a s' t', Twin s' t' → s'.output = s.output → t'.output = t.output → Tandem s' t' (f a) (g a) V) :
    Tandem s t (x >>= f) (x >>= g) V := by
  refine (h.tandem ht).bind fun a b s' t' ht' hV => ?_
  obtain ⟨rfl, hs, ht''⟩ := hV
  exact hf a s' t' ht' hs ht''

end Blind

section Books

variable (ctx : Context) (id : NodeId)

theorem blind_node : Blind (ctx.node id) := by
  unfold Context.node
  cases ctx.function.node? id with
  | none => exact .fail
  | some n => exact .pure

theorem blind_nodeState : Blind (nodeState id) := fun _ _ => rfl

theorem blind_setProgress (p : Progress) : Blind (setProgress id p) := fun _ _ => rfl

theorem blind_borrow : Blind (borrow id) := fun _ _ => rfl

theorem blind_isDemanded : Blind (isDemanded id) := fun _ _ => rfl

theorem blind_consume (u : Usage) : Blind (consume id u) := by
  refine .read fun s c => ?_
  rw [show (s.putting c).demand = s.demand from rfl]
  rcases s.demand.consume id u with (_ | _) | _ <;> rfl

theorem blind_expectType (type : ValueType) : Blind (ctx.expectType id type) :=
  .bind (blind_node ctx id) fun _ => .ite .fail .pure

theorem blind_currentRegion : Blind currentRegion := fun _ _ => rfl

theorem blind_openRegion : Blind openRegion := fun _ _ => rfl

theorem blind_closeRegion (r : Region) : Blind (closeRegion r) := by
  refine .read fun s c => ?_
  rw [show (s.putting c).regions = s.regions from rfl]
  cases s.regions with
  | nil => rfl
  | cons top rest =>
    dsimp only
    split <;> rfl

theorem blind_acquire (k : Kind) : Blind (acquire k) := fun _ _ => rfl

theorem blind_releaseSlot (slot : TypedSlot) : Blind (releaseSlot slot) := by
  refine .read fun s c => ?_
  rw [show (s.putting c).pool = s.pool from rfl]
  cases s.pool.release slot.kind slot.slot <;> rfl

theorem blind_alloc : Blind (alloc id) := fun _ _ => rfl

theorem blind_vacate : Blind (vacate id) := by
  refine .bind (blind_nodeState id) fun n => ?_
  split
  · exact .bind (blind_releaseSlot _) fun _ => blind_setProgress id _
  · exact .pure

theorem blind_release : Blind (release id) := by
  refine .bind (blind_nodeState id) fun n => .ite .fail ?_
  refine .bind (fun _ _ => rfl) fun _ => .read fun s c => ?_
  show (if n.pending = 1 ∧ s.demand.valuesLeft id = 0 ∧ n.borrowed = false then vacate id else pure () : Lower Unit)
    (s.putting c) = _
  split
  · exact blind_vacate id s c
  · rfl

theorem blind_resultSlot (hint : Option TypedSlot) : Blind (ctx.resultSlot id hint) := by
  unfold Context.resultSlot
  cases ctx.function.kind? id with
  | none => exact .fail
  | some kind =>
    cases hint with
    | none => exact blind_acquire kind
    | some x =>
      refine .read fun s c => ?_
      show (if x.kind = kind ∧ s.demand.total id = 1 then borrow id >>= fun _ => pure x else acquire kind : Lower TypedSlot)
        (s.putting c) = _
      split <;> rfl

theorem blind_demandedSlot (hint : Option TypedSlot) : Blind (ctx.demandedSlot id hint) := by
  refine .bind (blind_isDemanded id) fun d => .ite ?_ .pure
  exact .bind (blind_resultSlot ctx id hint) fun _ => .pure

theorem blind_intern (text : String) : Blind (intern text) := fun _ _ => rfl

theorem blind_addSite (site : CallSite) : Blind (addSite site) := fun _ _ => rfl

theorem blind_lookup (r : Except Missing α) : Blind (lookup r) := by
  cases r
  · exact .fail
  · exact .pure

theorem blind_varSlot (index : VarId) : Blind (ctx.varSlot id index) := by
  unfold Context.varSlot
  cases ctx.vars[index]? with
  | none => exact .fail
  | some slot => exact .pure

theorem blind_checkField (field : FieldRef) (declared : ValueType) : Blind (checkField id field declared) := .ite .fail .pure

theorem blind_classId (className : String) : Blind (ctx.classId id className) := by
  unfold Context.classId
  cases ctx.env.classes.find? className with
  | none => exact .fail
  | some target => exact .pure

theorem blind_checkCall (method : MethodRef) (kind : CallKind) (native : NativeFunction) (given : Nat) :
    Blind (checkCall id method kind native given) := .ite .fail (.ite .fail .pure)

theorem blind_composable : Blind (ctx.composable? id) := by
  refine .bind (blind_node ctx id) fun n => .read fun s c => ?_
  have hrest : Blind (do
      let state ← nodeState id
      if s.demand.total id = 1 ∧ state.progress = .untouched then pure n.expr.connective? else pure none) :=
    .bind (blind_nodeState id) fun _ => .ite .pure .pure
  exact hrest s c

theorem blind_regionOf (e : Expr) : Blind (regionOf e) := by
  unfold regionOf
  split
  · exact .pure
  · exact .pure
  · exact blind_currentRegion

end Books

/-! ## Steps on the code -/

theorem drafting_run (act : Drafting α) (s : State) : drafting act s = match act s.draft with
    | .ok a d => .ok (a, { s with draft := d })
    | .error e _ => .error (.internal (.draft e)) := by
  show (match act.run s.draft with
    | .ok a draft => (do set { s with draft }; return a)
    | .error e _ => defect (.draft e) : Lower α) s = _
  rw [EStateM.run]
  cases act s.draft <;> rfl

/-- The step changes the code alone, and fails only by mishandling a jump. -/
def Drafts (x : Lower α) : Prop := ∀ s, match x s with
  | .ok (_, t) => t = { s with draft := t.draft }
  | .error e => e.isJumpFault = true

namespace Drafts

variable {x : Lower α} {y : Lower β} {s t : State}

theorem pure {a : α} : Drafts (pure a : Lower α) := fun _ => rfl

theorem bind {f : α → Lower γ} (hx : Drafts x) (hf : ∀ a, Drafts (f a)) : Drafts (x >>= f) := by
  intro s
  have hfirst := hx s
  rw [bind_run]
  cases hr : x s with
  | error e =>
    rw [hr] at hfirst
    exact hfirst
  | ok r =>
    rw [hr] at hfirst
    have hrest := hf r.1 r.2
    dsimp only at hfirst ⊢
    cases hr' : f r.1 r.2 with
    | error e =>
      rw [hr'] at hrest
      exact hrest
    | ok r' =>
      rw [hr'] at hrest
      dsimp only at hrest ⊢
      rw [hrest, hfirst]

theorem drafting (act : Drafting α) : Drafts (drafting act) := by
  intro s
  rw [drafting_run]
  cases act s.draft <;> rfl

/-- What is the same for every state may be taken from either side of the pair. -/
theorem ok_draft (hx : Drafts x) {a : α} {s' : State} (hr : x s = .ok (a, s')) : s' = { s with draft := s'.draft } := by
  have := hx s
  rwa [hr] at this

theorem error_fault (hx : Drafts x) {e : BuildError} (hr : x s = .error e) : e.isJumpFault = true := by
  have := hx s
  rwa [hr] at this

end Drafts

theorem Twin.redraft {s t : State} {d e : Draft} (h : Twin s t) (hd : d.Clean) (he : e.Clean) :
    Twin { s with draft := d } { t with draft := e } := by
  refine ⟨?_, hd, he, h.paired.blocks, h.paired.loops⟩
  have hbooks := h.books
  rw [hbooks]
  rfl

/-- An edit in each lowering. -/
theorem Tandem.drafts {x : Lower α} {y : Lower β} {s t : State} {V : α → β → Output → Output → Prop} (ht : Twin s t)
    (hx : Drafts x) (hy : Drafts y) (h : ∀ a b d e, x s = .ok (a, { s with draft := d }) → y t = .ok (b, { t with draft := e }) →
      d.Clean ∧ e.Clean ∧ V a b (s.output.redraft d) (t.output.redraft e)) : Tandem s t x y V := by
  unfold Tandem
  cases hr : x s with
  | error e => exact .fault (hx.error_fault hr)
  | ok r =>
    cases hr' : y t with
    | error e => exact .fault' (hy.error_fault hr')
    | ok r' =>
      obtain ⟨a, s'⟩ := r
      obtain ⟨b, t'⟩ := r'
      have hs' := hx.ok_draft hr
      have ht' := hy.ok_draft hr'
      rw [hs'] at hr ⊢
      rw [ht'] at hr' ⊢
      obtain ⟨hd, he, hV⟩ := h a b _ _ hr hr'
      exact .ok (ht.redraft hd he) hV

/-- The step changes the code alone, and what it makes of that satisfies `P`. -/
structure Edits (x : Lower α) (P : α → Output → Output → Prop) : Prop where
  drafts : Drafts x
  ok : ∀ {s a d}, s.draft.Clean → x s = .ok (a, { s with draft := d }) → d.Clean ∧ P a s.output (s.output.redraft d)

theorem Edits.pure {a : α} : Edits (pure a : Lower α) fun a' c c' => a' = a ∧ c' = c where
  drafts := .pure
  ok hclean hr := by
    have hsame := Except.ok.inj hr
    obtain rfl := congrArg (fun r => r.2.draft) hsame
    exact ⟨hclean, (congrArg Prod.fst hsame).symm, rfl⟩

section Edits

variable {x : Lower α} {y : Lower β} {s t : State} {P : α → Output → Output → Prop} {Q : β → Output → Output → Prop}

/-- An edit in each lowering. -/
theorem Tandem.edits (ht : Twin s t) (hx : Edits x P) (hy : Edits y Q) :
    Tandem s t x y fun a b c d => P a s.output c ∧ Q b t.output d := by
  refine .drafts ht hx.drafts hy.drafts fun a b d e hr hr' => ?_
  obtain ⟨hclean, hP⟩ := hx.ok ht.paired.clean hr
  obtain ⟨hclean', hQ⟩ := hy.ok ht.paired.clean' hr'
  exact ⟨hclean, hclean', hP, hQ⟩

/-- An edit in the second lowering alone. -/
theorem Tandem.edits_second {g : β → Lower γ} {V : α → γ → Output → Output → Prop} (ht : Twin s t) (hy : Edits y Q)
    (h : ∀ b t', Twin s t' → Q b t.output t'.output → Tandem s t' x (g b) V) : Tandem s t x (y >>= g) V := by
  unfold Tandem
  rw [bind_run]
  cases hr : y t with
  | error e => exact .fault' (hy.drafts.error_fault hr)
  | ok r =>
    obtain ⟨b, t'⟩ := r
    have ht' := hy.drafts.ok_draft hr
    rw [ht'] at hr ⊢
    obtain ⟨hclean, hQ⟩ := hy.ok ht.paired.clean' hr
    exact h b _ (ht.redraft ht.paired.clean hclean) hQ

end Edits

/-- One instruction was added. -/
structure Appends (ins : Instruction) (c c' : Output) : Prop where
  extended : c.Extends c'
  label : c'.label = c.label + 1
  added : ∀ code, c'.draft.Becomes code → code[c.label]? = some ins

theorem edits_emit (ins : Instruction) (hn : ins ≠ .nop) (hp : Draft.isPendingJump ins = false) :
    Edits (emit ins) fun _ c c' => Appends ins c c' where
  drafts := .drafting _
  ok {s _ d} hclean hr := by
    obtain rfl : d = s.draft.add ins := congrArg State.draft (emit_ok hr)
    have hbefore := Draft.before_add hclean ins
    exact ⟨hbefore.clean, .redraft hbefore, Draft.label_add _ _, fun code hcode => hcode.added hn hp⟩

/-! ## Steps that keep the programs in step -/

/-- The same answer, which satisfies `p`, and code that carries the programs along. -/
def Paced (p : α → Prop) (x y : Lower α) : Prop :=
  ∀ s t, Twin s t → Tandem s t x y fun a b c d => a = b ∧ p a ∧ Carries s.output t.output c d

namespace Paced

variable {p : α → Prop} {q : β → Prop} {x y : Lower α}

theorem pure {a : α} (h : p a) : Paced p (Pure.pure a) (Pure.pure a) :=
  fun _ _ ht => .pure ht ⟨rfl, h, ht.paired.refl⟩

theorem fail {e : BuildError} : Paced p (throw e) (throw e) := fun _ _ _ => .fail

theorem bind {f g : α → Lower β} (hx : Paced p x y) (hf : ∀ a, p a → Paced q (f a) (g a)) : Paced q (x >>= f) (y >>= g) := by
  intro s t ht
  refine (hx s t ht).bind fun a b s' t' ht' hV => ?_
  obtain ⟨rfl, ha, hcarries⟩ := hV
  refine (hf a ha s' t' ht').post fun _ _ _ _ _ hW => ?_
  exact ⟨hW.1, hW.2.1, hcarries.trans hW.2.2⟩

theorem ite {c : Prop} [Decidable c] {x' y' : Lower α} (h : Paced p x y) (h' : Paced p x' y') :
    Paced p (if c then x else x') (if c then y else y') := by
  split
  · exact h
  · exact h'

end Paced

theorem Blind.paced {x : Lower α} (h : Blind x) : Paced (fun _ => True) x x := by
  intro s t ht
  refine (h.tandem ht).post fun a b c d _ hV => ?_
  obtain ⟨hab, rfl, rfl⟩ := hV
  exact ⟨hab, trivial, ht.paired.refl⟩

theorem paced_emit {ins : Instruction} (hs : ins.isStraight = true) : Paced (fun _ => True) (emit ins) (emit ins) := by
  intro s t ht
  have hn : ins ≠ .nop := fun he => by rw [he] at hs; cases hs
  have hp : Draft.isPendingJump ins = false := by cases ins <;> first | rfl | cases hs
  refine (Tandem.edits ht (edits_emit ins hn hp) (edits_emit ins hn hp)).post fun _ _ c d _ hV => ?_
  obtain ⟨hleft, hright⟩ := hV
  have hlabel := hleft.label
  have hlabel' := hright.label
  refine ⟨rfl, trivial, hleft.extended, hright.extended, by omega, fun hl hstep => ?_⟩
  rw [hlabel, hlabel'] at hstep
  exact .straight hl.counterparts (hleft.added _ hl.becomes) (hright.added _ hl.becomes') hs hstep.below

end SlotCode.Lowering
