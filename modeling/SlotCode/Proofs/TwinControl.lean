/-
  SlotCode.Proofs.TwinControl — with and without adopted tails, exits, blocks and loops are lowered in tandem.

  An exit leads both programs to where they are in step, with the tail of a condition in
  one and with a jump in the other. What waits in a frame leads to the end of its block or
  loop, where the programs are in step if they are so afterwards. What a loop comes back to
  is in step by induction on the number of steps, for coming back takes one.

  Proved: an exit settles its offer (`visiting_exitBlock`, `visiting_exitLoop`,
  `visiting_continueLoop`), and sequences, blocks and loops are lowered in tandem by walks
  that are.
-/

import SlotCode.Proofs.TwinOperators

namespace SlotCode.Lowering

open Output

variable {α β : Type} {ctx : Context} {f : Function} {w w' : Walk} {id : NodeId} {offer : Option Offer} {s t : State}
  {V : α → β → Output → Output → Prop}

theorem Twin.put {c d : Output} (h : Twin s t) (hp : c.Paired d) : Twin (s.putting c) (t.putting d) := by
  refine ⟨?_, hp⟩
  rw [h.books]
  rfl

theorem map_eq_iff_forall₂ {γ : Type} {g h : α → γ} {as bs : List α} :
    as.map g = bs.map h ↔ List.Forall₂ (fun a b => g a = h b) as bs := by
  rw [← List.forall₂_eq_eq_eq, List.forall₂_map_left_iff, List.forall₂_map_right_iff]

/-- What extends outputs of the same books is so too. -/
theorem Output.Paired.extend {c d c' d' : Output} (h : c.Paired d) (hc : c.Extends c') (hd : d.Extends d') : c'.Paired d' := by
  refine ⟨hc.draft.clean, hd.draft.clean, ?_, ?_⟩
  · rw [← map_eq_iff_forall₂.2 (hc.blocks.imp fun _ _ hf => hf.block),
      ← map_eq_iff_forall₂.2 (hd.blocks.imp fun _ _ hf => hf.block)]
    exact h.blocks
  · rw [← map_eq_iff_forall₂.2 (hc.loops.imp fun _ _ hf => hf.loop),
      ← map_eq_iff_forall₂.2 (hd.loops.imp fun _ _ hf => hf.loop)]
    exact h.loops

theorem Tandem.read {g : State → Lower α} {h : State → Lower β} (hgh : Tandem s t (g s) (h t) V) :
    Tandem s t (get >>= g) (get >>= h) V := hgh

theorem Tandem.label {g : Nat → Lower α} {h : Nat → Lower β} (hgh : Tandem s t (g s.output.label) (h t.output.label) V) :
    Tandem s t (label >>= g) (label >>= h) V := hgh

/-- The frames of both are changed. -/
theorem Tandem.reframe {F G : State → State} {c d : Output} (ht : Twin s t) (hF : F s = s.putting c) (hG : G t = t.putting d)
    (hp : c.Paired d) : Tandem s t (modify F) (modify G) fun _ _ c' d' => c' = c ∧ d' = d := by
  show Agree _ (.ok ((), F s)) (.ok ((), G t))
  rw [hF, hG]
  exact .ok (ht.put hp) ⟨rfl, rfl⟩

/-! ## Exits -/

/-- What leads both programs to where they are in step, the second with a jump of its own. -/
theorem fares_of_exited {s₁ t₁ : State} {taken taken' : Bool} {aims aims' : Array Instruction → Nat → Prop} {c d : Output}
    (hid : f.Valueless id) (hx : Exited offer s s₁ taken aims) (hx' : Exited none t t₁ taken' aims')
    (hleft : s.output.Extends c) (hright : t.output.Extends d) (hc : c.draft = s₁.draft) (hd : d.draft = t₁.draft)
    (hmeet : ∀ {im im' n}, Lands im im' n c d →
      ∃ x y, im.InStepBelow im' n x y ∧ aims im.program.code x ∧ aims' im'.program.code y) :
    taken' = false ∧ Fares f id offer taken s.output t.output c d := by
  obtain rfl : taken' = false := by
    cases taken' with
    | false => rfl
    | true =>
      obtain ⟨o, ho, -⟩ := hx'.takes rfl
      cases ho
  obtain ⟨hlabel', hjump'⟩ := hx'.jumps rfl
  have hd' : d.label = t.output.label + 1 := (congrArg Draft.label hd).trans hlabel'
  refine ⟨rfl, ?_⟩
  cases taken with
  | true =>
    obtain ⟨o, ho, hstart, hstop, hdecides⟩ := hx.takes rfl
    have hc' : c.label = o.position := (congrArg Draft.label hc).trans hstop
    refine ⟨hid, o, ho, hleft, hright, fun _ => ⟨hstart, hc', hd'⟩, fun _ im im' n hl => ?_⟩
    obtain ⟨x, y, hxy, haims, haims'⟩ := hmeet hl
    exact ⟨x, y, hxy, hdecides _ x (hc ▸ hl.becomes) haims, hjump' _ y (hd ▸ hl.becomes') haims'⟩
  | false =>
    obtain ⟨hlabel, hjump⟩ := hx.jumps rfl
    have hc' : c.label = s.output.label + 1 := (congrArg Draft.label hc).trans hlabel
    refine ⟨hleft, hright, by omega, fun hl _ => ?_⟩
    obtain ⟨x, y, hxy, haims, haims'⟩ := hmeet hl
    exact .goto hl.counterparts (hjump _ x (hc ▸ hl.becomes) haims) (hjump' _ y (hd ▸ hl.becomes') haims') hxy

theorem drafts_standing (offer : Option Offer) : Drafts (standing offer) := .bind (.drafting _) fun _ => .pure

theorem drafts_exitJumps (offer : Option Offer) : Drafts (exitJumps offer) := by
  refine .bind (drafts_standing offer) fun o => ?_
  cases o with
  | none => exact .bind (.drafting _) fun _ => .pure
  | some o => exact .bind (.drafting _) fun _ => .pure

theorem tandem_exitJumps (ht : Twin s t) (offer : Option Offer) :
    Tandem s t (exitJumps offer) (exitJumps none) fun r r' c d => s.output.Extends c ∧ t.output.Extends d ∧
      (Exited offer s (s.putting c) r.2 fun code a => ∀ p ∈ r.1, p.Aims code a) ∧
      Exited none t (t.putting d) r'.2 fun code a => ∀ p ∈ r'.1, p.Aims code a := by
  refine .drafts ht (drafts_exitJumps offer) (drafts_exitJumps none) fun r r' g e hr hr' => ?_
  obtain ⟨⟨g', hg, hs⟩, hexited⟩ := exitJumps_ok ht.paired.clean hr
  obtain ⟨⟨e', he, hs'⟩, hexited'⟩ := exitJumps_ok ht.paired.clean' hr'
  obtain rfl : g = g' := congrArg State.draft hs
  obtain rfl : e = e' := congrArg State.draft hs'
  exact ⟨hg.clean, he.clean, .redraft hg, .redraft he, hexited, hexited'⟩

theorem forall₂_modified {R : α → β → Prop} {g : α → α} {h : β → β} {as : List α} {bs : List β} {i : Nat}
    (hi : i < as.length)
    (hR : List.Forall₂ R (as.modify i g) (bs.modify i h)) : ∃ a b, R (g a) (h b) := by
  induction as generalizing bs i with
  | nil => cases hi
  | cons a as ih =>
    cases bs with
    | nil => cases i <;> cases hR
    | cons b bs =>
      cases i with
      | zero => exact ⟨a, b, (List.forall₂_cons.1 hR).1⟩
      | succ i => exact ih (Nat.lt_of_succ_lt_succ hi) (List.forall₂_cons.1 hR).2

namespace Output

variable {c d : Output} {im im' : Image} {n i : Nat} {ps qs : List Patch}

def breakBlock (c : Output) (i : Nat) (jumps : List Patch) : Output :=
  { c with blocks := c.blocks.modify i fun f => { f with breaks := f.breaks ++ jumps } }

def breakLoop (c : Output) (i : Nat) (jumps : List Patch) : Output :=
  { c with loops := c.loops.modify i fun f => { f with breaks := f.breaks ++ jumps } }

theorem Extends.breakBlock (h : c.Extends d) (i : Nat) (jumps : List Patch) : c.Extends (d.breakBlock i jumps) := by
  refine h.trans ⟨.refl h.draft.clean, forall₂_modify (fun _ => ⟨rfl, fun _ hp => hp⟩) (fun _ => ⟨rfl, ?_⟩) _ i,
    loops_refl _⟩
  exact fun _ hp => List.mem_append_left _ hp

theorem Extends.breakLoop (h : c.Extends d) (i : Nat) (jumps : List Patch) : c.Extends (d.breakLoop i jumps) := by
  refine h.trans ⟨.refl h.draft.clean, blocks_refl _, forall₂_modify (fun _ => ⟨rfl, rfl, fun _ hp => hp⟩)
    (fun _ => ⟨rfl, rfl, ?_⟩) _ i⟩
  exact fun _ hp => List.mem_append_left _ hp

/-- The jumps that were added lead to where the programs are in step. -/
theorem Meet.added {ps' qs' : List Patch} (h : Meet im im' n (ps ++ ps') (qs ++ qs')) :
    ∃ x y, im.InStepBelow im' n x y ∧ (∀ p ∈ ps', p.Aims im.program.code x) ∧ ∀ q ∈ qs', q.Aims im'.program.code y := by
  obtain ⟨x, y, hxy, hp, hq⟩ := h
  exact ⟨x, y, hxy, fun p hmem => hp p (List.mem_append_right _ hmem), fun q hmem => hq q (List.mem_append_right _ hmem)⟩

end Output

theorem visiting_exitBlock (hid : f.Valueless id) (name : BlockId) (offer : Option Offer) :
    Visiting f id offer (exitBlock id name offer) (exitBlock id name none) := by
  intro s t ht
  have hfind : t.blocks.findIdx? (·.block = name) = s.blocks.findIdx? (·.block = name) := by
    have hmap := congrArg (List.findIdx? (· = name)) ht.paired.blocks
    rwa [List.findIdx?_map, List.findIdx?_map] at hmap
  refine .read ?_
  rw [hfind]
  cases hi : s.blocks.findIdx? (·.block = name) with
  | none => exact .fail
  | some i =>
    refine (tandem_exitJumps ht offer).bind fun r r' s₁ t₁ ht₁ hV => ?_
    obtain ⟨hleft, hright, hx, hx'⟩ := hV
    have hlt : i < s₁.output.blocks.length := hleft.blocks.length_eq ▸ (List.findIdx?_eq_some_iff_findIdx_eq.1 hi).1
    have hbroken := hleft.breakBlock i r.1
    have hbroken' := hright.breakBlock i r'.1
    obtain ⟨htaken, hfares⟩ := fares_of_exited hid hx hx' hbroken hbroken' rfl rfl fun hl => by
      obtain ⟨_, _, hmeet⟩ := forall₂_modified hlt hl.blocks
      exact hmeet.added
    refine (Tandem.reframe ht₁ rfl rfl (ht.paired.extend hbroken hbroken')).bind fun _ _ s₂ t₂ ht₂ hV => .pure ht₂ ?_
    rw [hV.1, hV.2, htaken]
    exact ⟨rfl, hfares⟩

theorem visiting_exitLoop (hid : f.Valueless id) (name : LoopId) (offer : Option Offer) :
    Visiting f id offer (exitLoop id name offer) (exitLoop id name none) := by
  intro s t ht
  have hfind : t.loops.findIdx? (·.loop = name) = s.loops.findIdx? (·.loop = name) := by
    have hmap := congrArg (List.findIdx? (· = name)) ht.paired.loops
    rwa [List.findIdx?_map, List.findIdx?_map] at hmap
  refine .read ?_
  rw [hfind]
  cases hi : s.loops.findIdx? (·.loop = name) with
  | none => exact .fail
  | some i =>
    refine (tandem_exitJumps ht offer).bind fun r r' s₁ t₁ ht₁ hV => ?_
    obtain ⟨hleft, hright, hx, hx'⟩ := hV
    have hlt : i < s₁.output.loops.length := hleft.loops.length_eq ▸ (List.findIdx?_eq_some_iff_findIdx_eq.1 hi).1
    have hbroken := hleft.breakLoop i r.1
    have hbroken' := hright.breakLoop i r'.1
    obtain ⟨htaken, hfares⟩ := fares_of_exited hid hx hx' hbroken hbroken' rfl rfl fun hl => by
      obtain ⟨_, _, -, hmeet⟩ := forall₂_modified hlt hl.loops
      exact hmeet.added
    refine (Tandem.reframe ht₁ rfl rfl (ht.paired.extend hbroken hbroken')).bind fun _ _ s₂ t₂ ht₂ hV => .pure ht₂ ?_
    rw [hV.1, hV.2, htaken]
    exact ⟨rfl, hfares⟩

/-- Each loop of one has its counterpart in the other, and the heads of the two are in step. -/
theorem Output.Paired.heads {c d : Output} {name : LoopId} {frame : LoopFrame} (hp : c.Paired d)
    (hframe : c.loops.find? (·.loop = name) = some frame) : ∃ frame', d.loops.find? (·.loop = name) = some frame' ∧
      ∀ {im im' n}, Lands im im' n c d → im.InStepBelow im' n frame.header frame'.header := by
  have hnames := map_eq_iff_forall₂.1 hp.loops.symm
  have hsame : ∀ f g : LoopFrame, f.loop = g.loop → decide (f.loop = name) = decide (g.loop = name) := fun _ _ h => by rw [h]
  obtain ⟨frame', -, hframe', -⟩ := forall₂_find? hsame hnames hframe
  refine ⟨frame', hframe', fun {im im' n} hl => ?_⟩
  have hheads := hnames.mp (fun _ _ hname hhead => And.intro hname hhead) hl.loops
  obtain ⟨other, ⟨-, hhead, -⟩, hother, -⟩ := forall₂_find? (fun f g h => hsame f g h.1) hheads hframe
  cases hframe'.symm.trans hother
  exact hhead

/-- The heads of loops are known, so nothing is left open. -/
theorem visiting_continueLoop (hid : f.Valueless id) (name : LoopId) (offer : Option Offer) :
    Visiting f id offer (continueLoop id name offer) (continueLoop id name none) := by
  intro s t ht
  refine .read ?_
  cases hframe : s.loops.find? (·.loop = name) with
  | none =>
    have hmap := congrArg (List.find? (· = name)) ht.paired.loops
    rw [List.find?_map, List.find?_map] at hmap
    have hframe' : t.loops.find? (·.loop = name) = none := Option.map_eq_none_iff.1 (hmap.trans (congrArg _ hframe))
    rw [hframe']
    exact .fail
  | some frame =>
    obtain ⟨frame', hframe', hheads⟩ := ht.paired.heads hframe
    rw [show t.loops.find? (·.loop = name) = some frame' from hframe']
    have hdrafts : ∀ offer head, Drafts (jumpToHead offer head) := by
      intro offer head
      refine .bind (drafts_standing offer) fun o => ?_
      cases o with
      | none => exact .bind (.drafting _) fun _ => .pure
      | some o => exact .bind (.drafting _) fun _ => .pure
    refine .drafts ht (hdrafts offer _) (hdrafts none _) fun v v' g e hr hr' => ?_
    obtain ⟨hslot, ⟨g', hg, hs⟩, hx⟩ := jumpToHead_ok ht.paired.clean hr
    obtain ⟨hslot', ⟨e', he, hs'⟩, hx'⟩ := jumpToHead_ok ht.paired.clean' hr'
    obtain rfl : g = g' := congrArg State.draft hs
    obtain rfl : e = e' := congrArg State.draft hs'
    have hleft : s.output.Extends (s.output.redraft g) := .redraft hg
    have hright : t.output.Extends (t.output.redraft e) := .redraft he
    obtain ⟨htaken, hfares⟩ := fares_of_exited hid hx hx' hleft hright rfl rfl fun hl =>
      ⟨_, _, hheads (hl.back hleft hright), rfl, rfl⟩
    obtain ⟨slot, taken⟩ := v
    obtain ⟨slot', taken'⟩ := v'
    cases hslot
    cases hslot'
    cases htaken
    exact ⟨hg.clean, he.clean, rfl, hfares⟩

/-! ## Sequences, blocks and loops -/

/-- A node that ends as its child does. -/
theorem Fares.of_child {child : NodeId} {taken : Bool} {c d c' d' : Output} (h : Fares f child offer taken c d c' d')
    (hid : f.Valueless child → f.Valueless id) : Fares f id offer taken c d c' d' := by
  cases taken with
  | false => exact h
  | true => exact ⟨hid h.1, h.2⟩

theorem Walk.Twins.sequence {n : Node} {first second : NodeId} (hw : w.Twins ctx w') (hf : ctx.function.WellTyped)
    (hn : ctx.function.node? id = some n) (he : n.expr = .sequence first second) (hint : Option TypedSlot)
    (offer : Option Offer) : Visiting ctx.function id offer (sequence ctx w id first second hint offer)
      (sequence ctx.plain w' id first second hint none) := by
  intro s t ht
  refine (hw.effect_none first s t ht).bind fun _ _ s₁ t₁ ht₁ hfirst => ?_
  refine (blind_demandedSlot ctx id hint).first ht₁ fun target s₂ t₂ ht₂ hs htt => ?_
  refine (hw.forward second target offer s₂ t₂ ht₂).bind fun taken taken' s₃ t₃ ht₃ hsecond => .pure ht₃ ?_
  obtain ⟨rfl, hfares⟩ := hsecond
  rw [hs, htt] at hfares
  refine ⟨rfl, (hfares.of_child fun hvalueless => ?_).after hfirst.2.2⟩
  obtain ⟨m, hm, hkind⟩ := hvalueless
  refine hf.valueless hn ?_ hkind
  rw [he]
  simp [Expr.fixedType?, Scope.typeOf, Function.scope, hm]

/-- Jumps lead to the next position. -/
structure Patched (ps : List Patch) (c c' : Output) : Prop where
  extended : c.Extends c'
  label : c'.label = c.label
  aims : ∀ code, c'.draft.Becomes code → ∀ p ∈ ps, p.Aims code c.label

namespace Output

variable {c d c₁ d₁ c₂ d₂ : Output}

def openBlock (c : Output) (block : BlockId) : Output := { c with blocks := ⟨block, []⟩ :: c.blocks }

def openLoop (c : Output) (loop : LoopId) (header : Nat) : Output := { c with loops := ⟨loop, header, []⟩ :: c.loops }

/-- The block is closed: the exits from it lead to its end. -/
theorem Carries.closeBlock {block : BlockId} {frame frame' : BlockFrame} {rest rest' : List BlockFrame}
    (h : Carries (c.openBlock block) (d.openBlock block) c₁ d₁) (hc : c₁.blocks = frame :: rest)
    (hd : d₁.blocks = frame' :: rest') (hp : Patched frame.breaks { c₁ with blocks := rest } c₂)
    (hp' : Patched frame'.breaks { d₁ with blocks := rest' } d₂) : Carries c d c₂ d₂ := by
  obtain ⟨-, htail⟩ := List.forall₂_cons.1 (hc ▸ h.left.blocks)
  obtain ⟨-, htail'⟩ := List.forall₂_cons.1 (hd ▸ h.right.blocks)
  have hpop : c.Extends { c₁ with blocks := rest } := ⟨h.left.draft, htail, h.left.loops⟩
  have hpop' : d.Extends { d₁ with blocks := rest' } := ⟨h.right.draft, htail', h.right.loops⟩
  have hlabel : c₂.label = c₁.label := hp.label
  have hlabel' : d₂.label = d₁.label := hp'.label
  refine ⟨hpop.trans hp.extended, hpop'.trans hp'.extended, ?_, fun {im im' n} hl hstep => ?_⟩
  · rw [hlabel, hlabel']
    exact h.still
  · have hl₁ := hl.back hp.extended hp'.extended
    rw [hlabel, hlabel'] at hstep
    refine h.carry ⟨hl₁.counterparts, hl₁.becomes, hl₁.becomes', ?_, hl₁.loops⟩ hstep
    rw [hc, hd]
    exact .cons ⟨_, _, hstep.below, hp.aims _ hl.becomes, hp'.aims _ hl.becomes'⟩ hl₁.blocks

/-- The loop is closed. Its head is in step for any number of steps, since it is for fewer where the body comes back to it. -/
theorem Carries.closeLoop {loop : LoopId} {frame frame' : LoopFrame} {rest rest' : List LoopFrame}
    (h : Carries (c.openLoop loop c.label) (d.openLoop loop d.label) c₁ d₁) (hc : c₁.loops = frame :: rest)
    (hd : d₁.loops = frame' :: rest') (hp : Patched frame.breaks { c₁ with loops := rest } c₂)
    (hp' : Patched frame'.breaks { d₁ with loops := rest' } d₂) : Carries c d c₂ d₂ := by
  obtain ⟨hhead, htail⟩ := List.forall₂_cons.1 (hc ▸ h.left.loops)
  obtain ⟨hhead', htail'⟩ := List.forall₂_cons.1 (hd ▸ h.right.loops)
  have hpop : c.Extends { c₁ with loops := rest } := ⟨h.left.draft, h.left.blocks, htail⟩
  have hpop' : d.Extends { d₁ with loops := rest' } := ⟨h.right.draft, h.right.blocks, htail'⟩
  have hlabel : c₂.label = c₁.label := hp.label
  have hlabel' : d₂.label = d₁.label := hp'.label
  refine ⟨hpop.trans hp.extended, hpop'.trans hp'.extended, ?_, fun {im im' n} hl hstep => ?_⟩
  · rw [hlabel, hlabel']
    exact h.still
  · have hl₁ := hl.back hp.extended hp'.extended
    rw [hlabel, hlabel'] at hstep
    have hround : ∀ k ≤ n, im.InStep im' k c.label d.label := by
      intro k
      induction k using Nat.strong_induction_on with
      | _ k ih =>
        intro hk
        refine h.carry ⟨hl₁.counterparts, hl₁.becomes, hl₁.becomes', (hl₁.mono hk).blocks, ?_⟩ (hstep.mono hk)
        rw [hc, hd]
        refine .cons ⟨?_, _, _, (hstep.mono hk).below, hp.aims _ hl.becomes, hp'.aims _ hl.becomes'⟩ (hl₁.mono hk).loops
        rw [← hhead.header, ← hhead'.header]
        exact fun j hj => ih j hj (by omega)
    exact hround n (Nat.le_refl n)

end Output

theorem edits_patchAll (ps : List Patch) (here : Nat) :
    Edits (drafting (Drafting.patchAll ps (.address here))) fun _ c c' => here = c.label → Patched ps c c' where
  drafts := .drafting _
  ok {s _ d} hclean hr := by
    obtain ⟨d', hpatch, hd⟩ := drafting_ok hr
    obtain rfl : d = d' := congrArg State.draft hd
    obtain ⟨hbefore, hlabel, haims⟩ := before_patchAll hclean hpatch
    exact ⟨hbefore.clean, fun hhere => ⟨.redraft hbefore, hlabel, hhere ▸ haims⟩⟩

/-- A frame of each is taken away, and the jumps in it lead to the next position. -/
theorem tandem_close {x : Lower Unit} {ps qs : List Patch} {c d : Output} (ht : Twin s t) (hp : c.Paired d)
    (hx : x s = drafting (Drafting.patchAll ps (.address c.label)) (s.putting c))
    (hy : x t = drafting (Drafting.patchAll qs (.address d.label)) (t.putting d)) :
    Tandem s t x x fun _ _ c' d' => Patched ps c c' ∧ Patched qs d d' := by
  unfold Tandem
  rw [hx, hy]
  exact (Tandem.edits (ht.put hp) (edits_patchAll ps _) (edits_patchAll qs _)).post fun _ _ _ _ _ hV => ⟨hV.1 rfl, hV.2 rfl⟩

theorem closeBlock_run {frame : BlockFrame} {rest : List BlockFrame} (h : s.blocks = frame :: rest) :
    closeBlock s = drafting (Drafting.patchAll frame.breaks (.address s.output.label))
      (s.putting { s.output with blocks := rest }) := by
  cases s
  cases h
  rfl

theorem closeLoop_run {frame : LoopFrame} {rest : List LoopFrame} (h : s.loops = frame :: rest) :
    closeLoop s = drafting (Drafting.patchAll frame.breaks (.address s.output.label))
      (s.putting { s.output with loops := rest }) := by
  cases s
  cases h
  rfl

theorem tandem_closeBlock {block : BlockId} {c d : Output} (ht : Twin s t)
    (h : Carries (c.openBlock block) (d.openBlock block) s.output t.output) :
    Tandem s t closeBlock closeBlock fun _ _ c' d' => Carries c d c' d' := by
  obtain ⟨frame, rest, -, -, hc⟩ := List.forall₂_cons_left_iff.1 h.left.blocks
  obtain ⟨frame', rest', -, -, hd⟩ := List.forall₂_cons_left_iff.1 h.right.blocks
  have hpaired : Paired { s.output with blocks := rest } { t.output with blocks := rest' } := by
    have hnames := ht.paired.blocks
    rw [hc, hd, List.map_cons, List.map_cons] at hnames
    exact ⟨ht.paired.clean, ht.paired.clean', (List.cons.inj hnames).2, ht.paired.loops⟩
  exact (tandem_close ht hpaired (closeBlock_run hc) (closeBlock_run hd)).post fun _ _ _ _ _ hV => h.closeBlock hc hd hV.1 hV.2

theorem tandem_closeLoop {loop : LoopId} {c d : Output} (ht : Twin s t)
    (h : Carries (c.openLoop loop c.label) (d.openLoop loop d.label) s.output t.output) :
    Tandem s t closeLoop closeLoop fun _ _ c' d' => Carries c d c' d' := by
  obtain ⟨frame, rest, -, -, hc⟩ := List.forall₂_cons_left_iff.1 h.left.loops
  obtain ⟨frame', rest', -, -, hd⟩ := List.forall₂_cons_left_iff.1 h.right.loops
  have hpaired : Paired { s.output with loops := rest } { t.output with loops := rest' } := by
    have hnames := ht.paired.loops
    rw [hc, hd, List.map_cons, List.map_cons] at hnames
    exact ⟨ht.paired.clean, ht.paired.clean', ht.paired.blocks, (List.cons.inj hnames).2⟩
  exact (tandem_close ht hpaired (closeLoop_run hc) (closeLoop_run hd)).post fun _ _ _ _ _ hV => h.closeLoop hc hd hV.1 hV.2

/-- Both jump back to the head of the innermost loop. -/
theorem tandem_goBack {frame frame' : LoopFrame} {rest rest' : List LoopFrame} (ht : Twin s t)
    (hc : s.output.loops = frame :: rest) (hd : t.output.loops = frame' :: rest') :
    Tandem s t (emit (.goto (.address frame.header))) (emit (.goto (.address frame'.header))) fun _ _ c d =>
      Carries s.output t.output c d := by
  have happends := fun head => edits_emit (.goto (.address head)) nofun rfl
  refine (Tandem.edits ht (happends frame.header) (happends frame'.header)).post fun _ _ c d _ hV => ?_
  obtain ⟨hleft, hright⟩ := hV
  have hlabel := hleft.label
  have hlabel' := hright.label
  refine ⟨hleft.extended, hright.extended, by omega, fun {im im' n} hl _ => ?_⟩
  have hloops := (hl.back hleft.extended hright.extended).loops
  rw [hc, hd] at hloops
  have hheads : im.InStepBelow im' n frame.header frame'.header := (List.forall₂_cons.1 hloops).1.1
  exact .goto hl.counterparts (hleft.added _ hl.becomes) (hright.added _ hl.becomes') hheads

namespace Walk.Twins

variable (hw : w.Twins ctx w')
include hw

theorem block (id : NodeId) (name : BlockId) (body : NodeId) (hint : Option TypedSlot) :
    Paced (·.taken = false) (block ctx w id name body hint) (block ctx.plain w' id name body hint) := by
  intro s t ht
  refine (blind_demandedSlot ctx id hint).first ht fun target s₁ t₁ ht₁ hs htt => ?_
  have hpaired : (s₁.output.openBlock name).Paired (t₁.output.openBlock name) :=
    ⟨ht₁.paired.clean, ht₁.paired.clean', congrArg (name :: ·) ht₁.paired.blocks, ht₁.paired.loops⟩
  refine (Tandem.reframe ht₁ rfl rfl hpaired).bind fun _ _ s₂ t₂ ht₂ hopened => ?_
  refine ((hw.forward body target none).inRegion.paced s₂ t₂ ht₂).bind fun _ _ s₃ t₃ ht₃ hV => ?_
  obtain ⟨-, -, hbody⟩ := hV
  rw [hopened.1, hopened.2, hs, htt] at hbody
  exact (tandem_closeBlock ht₃ hbody).bind fun _ _ s₄ t₄ ht₄ hclosed => .pure ht₄ ⟨rfl, rfl, hclosed⟩

theorem loop (name : LoopId) (preheader body : NodeId) :
    Paced (·.taken = false) (loop ctx w name preheader body) (loop ctx.plain w' name preheader body) := by
  intro s t ht
  refine (hw.effect_none preheader s t ht).bind fun _ _ s₁ t₁ ht₁ hpreheader => .label ?_
  have hpaired : (s₁.output.openLoop name s₁.output.label).Paired (t₁.output.openLoop name t₁.output.label) :=
    ⟨ht₁.paired.clean, ht₁.paired.clean', ht₁.paired.blocks, congrArg (name :: ·) ht₁.paired.loops⟩
  refine (Tandem.reframe ht₁ rfl rfl hpaired).bind fun _ _ s₂ t₂ ht₂ hopened => ?_
  refine ((hw.effect body none).inRegion.paced s₂ t₂ ht₂).bind fun _ _ s₃ t₃ ht₃ hV => ?_
  obtain ⟨-, -, hbody⟩ := hV
  rw [hopened.1, hopened.2] at hbody
  refine (blind_node ctx body).first ht₃ fun n s₄ t₄ ht₄ hs₄ htt₄ => ?_
  rw [← hs₄, ← htt₄] at hbody
  have hdone : ∀ {s₅ t₅ : State}, Twin s₅ t₅ →
      Carries (s₁.output.openLoop name s₁.output.label) (t₁.output.openLoop name t₁.output.label) s₅.output t₅.output →
        Tandem s₅ t₅ (do closeLoop; return {}) (do closeLoop; return {}) fun (v v' : Visited) c d =>
          v = v' ∧ v.taken = false ∧ Carries s.output t.output c d := by
    intro s₅ t₅ ht₅ h
    exact (tandem_closeLoop ht₅ h).bind fun _ _ s₆ t₆ ht₆ hclosed => .pure ht₆ ⟨rfl, rfl, hpreheader.2.2.trans hclosed⟩
  dsimp only
  split
  · obtain ⟨frame, rest, hhead, -, hc⟩ := List.forall₂_cons_left_iff.1 hbody.left.loops
    obtain ⟨frame', rest', hhead', -, hd⟩ := List.forall₂_cons_left_iff.1 hbody.right.loops
    rw [show s₁.output.label = frame.header from hhead.header, show t₁.output.label = frame'.header from hhead'.header]
    exact (tandem_goBack ht₄ hc hd).bind fun _ _ s₅ t₅ ht₅ hback => hdone ht₅ (hbody.trans hback)
  · exact hdone ht₄ hbody

end Walk.Twins

end SlotCode.Lowering
