/-
  SlotCode.Proofs.FaithfulControl — sequences, blocks, loops and conditionals go where evaluation goes.

  An exit jumps to where the frame of its block or loop will end; a frame that closes says
  so for all of its exits. A loop is followed one round at a time, each round making at
  least one step, so that fuel and steps run out together. A conditional has three shapes,
  after what its then arm left behind: the tail taken over, no code, or code of its own.
-/

import SlotCode.Proofs.FaithfulConditions

namespace SlotCode

open Lowering

variable {S : Scene} {g : Landings} {A : Anchor} {open_ : List (BlockId × Bool)} {s₀ s t : State} {σ τ : Store}
  {m : Machine} {id : NodeId} {hint : Option TypedSlot} {offer : Option Offer} {demanded : Bool}
  {w : Walk} {ev : ChildEval} {visited : Visited} {type : ValueType}

/-! ## Types of what control is made of -/

namespace Function

variable {f : Function} {c : NodeId}

/-- A sequence has the value of its second part, and completes if that does. -/
theorem WellShaped.sequence (h : f.WellShaped) {first second : NodeId} (hst : f.Stands id demanded open_)
    (hn : f.node? id = some ⟨.sequence first second, type⟩) :
    f.kind? id = f.kind? second ∧ (f.Completes second → f.Completes id) := by
  obtain ⟨n, hsecond, hkind, hends⟩ := (h.typed id _ hst.reachable hn).sequence rfl
  refine ⟨?_, fun hc n' hn' htype => ?_⟩
  · rw [kind?_of_node hn, kind?_of_node hsecond]
    exact hkind
  · obtain rfl := Option.some.inj (hn.symm.trans hn')
    exact hc n hsecond (hends htype)

/-- A conditional completes if one of its arms does. -/
theorem WellShaped.conditional (h : f.WellShaped) {condition thenArm elseArm : NodeId} (hst : f.Stands id demanded open_)
    (hn : f.node? id = some ⟨.conditional condition thenArm elseArm, type⟩)
    (hc : f.Completes thenArm ∨ f.Completes elseArm) : f.Completes id := by
  intro n' hn' htype
  obtain rfl := Option.some.inj (hn.symm.trans hn')
  obtain ⟨⟨m₁, hthen, hthenType⟩, m₂, helse, helseType⟩ := (h.typed id _ hst.reachable hn).conditional rfl htype
  rcases hc with hc | hc
  · exact hc m₁ hthen hthenType
  · exact hc m₂ helse helseType

/-- What fits its parent and completes has a value if the parent does. -/
theorem Fits.kind_isSome {c : NodeId} (h : f.Fits id c) (hc : f.Completes c) (hk : (f.kind? id).isSome = true) :
    (f.kind? c).isSome = true := by
  rcases h with h | ⟨n, hn, htype⟩
  · rw [h]
    exact hk
  · exact absurd htype (hc n hn)

end Function

/-! ## Sequences -/

/-- The slot of a node as the target of a child. -/
theorem Slotted.fits {s' t' : State} {r : Option TypedSlot} (h : Slotted S s₀ s' t' id demanded hint r) :
    HintFits S.ctx t' r := fun x hx => ⟨(h.target x hx).has, (h.target x hx).loose⟩

/-- What arrived from a child is what the node delivers. -/
theorem Arrived.delivers {s' t' : State} {r : Option TypedSlot} {c : NodeId} {o : Option Operand}
    (h : Arrived S A τ m (S.ctx.function.aim c r) o) (hslotted : Slotted S s₀ s' t' id demanded hint r)
    (hkind : demanded = true → (S.ctx.function.kind? c).isSome = true) (ht : Since t' t)
    (hlive : ∀ y, A.live y = true → s₀.pool.isLive y = true) : Delivered S A t.pool.isLive hint τ m r o := by
  cases r with
  | none =>
    have haim : S.ctx.function.aim c none = none := ite_self none
    rw [haim] at h
    cases h with
    | nothing ha => exact .nothing ha
  | some x =>
    have haim : S.ctx.function.aim c (some x) = some x := if_pos (hkind hslotted.slot.symm)
    rw [haim] at h
    cases h with
    | stored hv => exact hslotted.delivers ht hlive hv

theorem Arrived.goto {target : Option TypedSlot} {o : Option Operand} (h : Arrived S A τ m target o) (pc : Nat) :
    Arrived S A τ { m with pc } target o := by
  cases h with
  | nothing ha => exact .nothing (ha.goto pc)
  | stored hv => exact .stored ⟨hv.agrees.goto pc, hv.value⟩

theorem Arrived.going {target : Option TypedSlot} {o : Option Operand} (h : Arrived S A τ m target o) : m.stopped = false := by
  cases h with
  | nothing ha => exact ha.going
  | stored hv => exact hv.agrees.going

/-- A child that left no code completes without a step. -/
theorem Forwarded.codeless {e : Eval (Option Operand)} {c : NodeId} {target : Option TypedSlot}
    (h : Forwarded S e c open_ target offer s t false) (hlabel : t.draft.label = s.draft.label) (hf : Final S g t)
    (hscope : open_ = g.blocks.map (·.1)) (hlive : ∀ x, A.live x = true → s.pool.isLive x = true)
    (ha : Agrees S A none σ m) :
    ∃ o τ, e.on σ = some (.ok o, τ) ∧ S.ctx.function.Completes c ∧ Arrived S A τ m target o := by
  have hrun := h.runs rfl ⟨hf, hscope, hlive, ha.goto s.draft.label, rfl⟩
  obtain ⟨o, τ, he, -, hc, harrived⟩ := hrun.of_empty (Nat.le_of_eq hlabel)
  exact ⟨o, τ, he, hc, harrived.goto m.pc⟩

namespace Entry

theorem sequence {first second : NodeId} (hS : S.Valid) (hw : Builds S w ev) (h : Entry S s₀ s id demanded open_ hint)
    (ho : OfferFits s offer) (hn : S.ctx.function.node? id = some ⟨.sequence first second, type⟩)
    (hr : Lowering.sequence S.ctx w id first second hint offer s = .ok (visited, t)) :
    Visits S ev ⟨.sequence first second, type⟩ id demanded open_ hint offer s₀ s t visited := by
  obtain ⟨took, s₁, heffect, hr⟩ := bind_ok hr
  obtain ⟨r, s₂, hslot, hr⟩ := bind_ok hr
  obtain ⟨taken, s₃, hforward, hr⟩ := bind_ok hr
  cases hr
  obtain ⟨hkind, hcompletes⟩ := hS.shaped.sequence h.stands hn
  have hfirst := hw.effect (h.stands.child hn List.mem_cons_self) h.along.books offerFits_none heffect
  have hslotted := (h.advance hfirst.along).demandedSlot hS hslot
  have hlabel₂ : s₂.draft.label = s₁.draft.label := congrArg _ hslotted.draft
  have hlabel₁ := hfirst.along.since.label
  have ho₂ : OfferFits s₂ offer := fun o hoffer => by
    have := ho o hoffer
    omega
  have hsecond := hw.forward hslotted.slot (h.stands.child hn (List.mem_cons_of_mem _ List.mem_cons_self))
    hslotted.along.books hslotted.fits ho₂ hforward
  have hgrows : Grows s₁ t := hslotted.grows.trans hsecond.along.since.toGrows
  refine ⟨hslotted.along.trans hsecond.along, hfirst.along.since.toGrows.trans hgrows, hslotted.after hsecond.along.since,
    hslotted.slot, fun _ => hslotted.placed hsecond.along.since, fun ht => ?_, fun hn _ _ _ _ hready => ?_⟩
  · obtain ⟨o, hoffer, htaken⟩ := hsecond.taken ht
    have hstart := htaken.start
    have hposition := ho o hoffer
    refine ⟨o, hoffer, hkind.trans htaken.kind, by omega, htaken.stop, fun g hf hscope => ?_⟩
    obtain ⟨e, a, hland, hdecides, hleaves⟩ := htaken.leaves g hf hscope
    refine ⟨e, a, hland, hdecides, fun A σ m ha => ?_⟩
    -- The tail was offered right here, so the first part left no code.
    obtain rfl := hfirst.untaken
    obtain ⟨o', τ, he, -, harrived⟩ := hfirst.codeless (by omega) (hgrows.final hf) hscope (fun _ hx => by cases hx)
      (ha.anchor fun _ => false)
    cases harrived with
    | nothing ha' =>
      obtain rfl := ha.store_unique ha'
      have heffect : (Reading.effect ev first).on σ = some (.ok (), σ) := by rw [Reading.effect, Eval.on_bind_ok he]; rfl
      show (Reading.effect ev first >>= fun _ => S.reading.forward ev demanded second).on σ = _
      rw [Eval.on_bind_ok heffect]
      exact hleaves A σ m ha
  · have hlive₁ : ∀ y, _ → s.pool.isLive y = true := fun y hy => h.along.since.live y (hready.live y hy)
    refine hfirst.effects ⟨hgrows.final hready.final, hready.scope, hlive₁, hready.agrees, hready.pc⟩ (Nat.le_refl _)
      hgrows.label fun τ m₁ hpc _ ha => ?_
    have hlive₂ : ∀ y, _ → s₂.pool.isLive y = true := fun y hy => hslotted.live y (hfirst.along.since.live y (hlive₁ y hy))
    have hrun := hsecond.runs hn ⟨hready.final, hready.scope, hlive₂, ha, hpc.trans hlabel₂.symm⟩
    refine (hrun.widen (by omega) (Nat.le_refl _)).post ?_
    rintro o τ m₂ ⟨hpc₂, hc, harrived⟩
    refine ⟨hpc₂, hcompletes hc, harrived.delivers hslotted (fun hd => ?_) hsecond.along.since hready.live⟩
    rw [← hkind]
    exact h.stands.kind_isSome hd

end Entry

/-! ## Blocks -/

/-- An exit of the block goes to its end, any other exit further out. -/
theorem Follows.block {name : BlockId} {a lo hi : Nat} {x : Eval (Option Operand)}
    {Q R : Option Operand → Store → Machine → Prop}
    (h : Follows S (g.inBlock name demanded a) A lo hi 0 (x.on σ) m 0 Q) (hQ : ∀ o τ m₁, Q o τ m₁ → R o τ m₁)
    (hexit : ∀ τ m₁, demanded = false → m₁.pc = a → Agrees S A none τ m₁ → R none τ m₁) :
    Follows S g A lo hi 0 ((Eval.block name x).on σ) m 0 R := by
  unfold Eval.block
  rw [Eval.on_tryCatch]
  generalize x.on σ = outcome at h ⊢
  cases h with
  | spent hn hfuel => exact .spent hn hfuel
  | done hn hq h => exact .done hn hq (hQ _ _ _ h)
  | failed hn hfail ha => exact .failed hn hfail ha
  | left hn hpos hland ha =>
    rename_i k m₁ e τ
    show Follows S g A lo hi 0 ((if e = .exitBlock name then pure none else throw e : Eval (Option Operand)).on τ) m 0 R
    rcases hland.of_inBlock with ⟨rfl, hd, hpc⟩ | ⟨hne, hout⟩
    · rw [if_pos rfl]
      exact .done hn (Nat.zero_le _) (hexit τ m₁ hd hpc ha)
    · rw [if_neg hne]
      exact .left hn hpos hout ha

theorem Entry.block {name : BlockId} {body : NodeId} (hS : S.Valid) (hw : Builds S w ev)
    (h : Entry S s₀ s id demanded open_ hint) (hn : S.ctx.function.node? id = some ⟨.block name body, type⟩)
    (hr : Lowering.block S.ctx w id name body hint s = .ok (visited, t)) :
    Visits S ev ⟨.block name body, type⟩ id demanded open_ hint offer s₀ s t visited := by
  obtain ⟨r, s₁, hslot, hr⟩ := bind_ok hr
  obtain ⟨_, s₂, hopen, hr⟩ := bind_ok hr
  obtain ⟨took, s₃, hforward, hr⟩ := bind_ok hr
  obtain ⟨_, s₄, hclose, hr⟩ := bind_ok hr
  cases hr
  obtain rfl : s₂ = s₁.openBlock name := by cases hopen; rfl
  have hslotted := h.demandedSlot hS hslot
  have hst : S.ctx.function.Stands body (S.ctx.function.reads demanded body .forward) ((name, demanded) :: open_) :=
    h.stands.child hn List.mem_cons_self
  have hopened := hslotted.along.books.openBlock name
  have hbody : Forwarded S (S.reading.forward ev demanded body) body ((name, demanded) :: open_) (S.ctx.function.aim body r)
      none (s₁.openBlock name) s₃ took := by
    refine .inRegion (fun regions next u hact => ?_) hopened hforward
    exact hw.forward hslotted.slot hst (hopened.along.inRegion regions next).books hslotted.fits offerFits_none hact
  obtain ⟨halong, frame, hclosed⟩ := hbody.along.closeBlock hclose
  refine hslotted.lowered (.refl h.along.books.clean) halong fun hready => ?_
  have hlive : ∀ y, _ → s₁.pool.isLive y = true := fun y hy =>
    hslotted.live y (h.along.since.live y (hready.live y hy))
  have hstart : s₁.draft.label = s.draft.label := congrArg _ hslotted.draft
  have hrun := hbody.runs hbody.untaken ⟨hready.final.closedBlock hclosed demanded,
    by rw [hready.scope]; rfl, hlive, hready.agrees, hready.pc.trans hstart.symm⟩
  have hrun' := hrun.widen (Nat.le_of_eq hstart.symm) (Nat.le_of_eq hclosed.label.symm)
  have hc := hS.completes h.stands hn rfl
  refine hrun'.block ?_ ?_
  · rintro o τ m₁ ⟨hpc, hcbody, harrived⟩
    refine ⟨hpc.trans hclosed.label.symm, hc, harrived.delivers hslotted (fun hd => ?_) halong.since hready.live⟩
    subst hd
    exact (hS.shaped.blocks id open_ _ name body h.stands hn rfl).kind_isSome hcbody (h.stands.kind_isSome rfl)
  · rintro τ m₁ rfl hpc ha
    obtain rfl : r = none := Option.isNone_iff_eq_none.1 (by simpa using hslotted.slot)
    exact ⟨hpc, hc, .nothing ha⟩

/-! ## Loops -/

/-- One round, and what comes after it. -/
theorem Eval.on_iterate (name : LoopId) (body : Eval Unit) (n : Nat) (σ : Store) :
    (iterate name body (n + 1)).on σ = match body.on σ with
      | none => none
      | some (.ok _, τ) => (iterate name body n).on τ
      | some (.error e, τ) =>
        if e = .continueLoop name then (iterate name body n).on τ
        else if e = .exitLoop name then some (.ok (), τ) else some (.error e, τ) := by
  rw [iterate, on_bind, on_tryCatch, seqRight_eq_bind, on_bind]
  cases body.on σ with
  | none => rfl
  | some p =>
    obtain ⟨e | a, τ⟩ := p
    · dsimp only
      by_cases hcontinue : e = .continueLoop name
      · rw [if_pos hcontinue, if_pos hcontinue]
        rfl
      · by_cases hexit : e = .exitLoop name
        · rw [if_neg hcontinue, if_neg hcontinue, if_pos hexit, if_pos hexit]
          rfl
        · rw [if_neg hcontinue, if_neg hcontinue, if_neg hexit, if_neg hexit]
          rfl
    · rfl

/-- A loop is followed round by round; `c` steps were made before. -/
theorem Follows.iterate {name : LoopId} {head end_ lo hi : Nat} {body : Eval Unit}
    (hround : ∀ σ m, Agrees S A none σ m → m.pc = head →
      Follows S (g.inLoop name head end_) A lo hi 0 (body.on σ) m 1 fun _ τ m₁ => m₁.pc = head ∧ Agrees S A none τ m₁) :
    ∀ n c σ m, S.fuel < c + n → Agrees S A none σ m → m.pc = head →
      Follows S g A lo hi c ((Eval.iterate name body n).on σ) m 0 fun _ τ m₁ => m₁.pc = end_ ∧ Agrees S A none τ m₁ := by
  intro n
  induction n with
  | zero =>
    intro c σ m hfuel ha hpc
    exact .spent (.refl m) hfuel
  | succ n ih =>
    intro c σ m hfuel ha hpc
    have h := hround σ m ha hpc
    rw [Eval.on_iterate]
    generalize body.on σ = outcome at h ⊢
    cases h with
    | spent hn hspent => exact .spent hn (by omega)
    | done hn hq hQ =>
      have hrest := ih (c + 1) _ _ (by omega) hQ.2 hQ.1
      exact .after hn (by omega) hrest
    | failed hn hfail ha => exact .failed hn hfail ha
    | left hn hpos hland ha =>
      rcases hland.of_inLoop with ⟨rfl, hpc⟩ | ⟨rfl, hpc⟩ | ⟨hexit, hcontinue, hout⟩
      · dsimp only
        rw [if_neg Abrupt.noConfusion, if_pos rfl]
        exact .done hn (Nat.zero_le _) ⟨hpc, ha⟩
      · have hrest := ih (c + 1) _ _ (by omega) ha hpc
        dsimp only
        rw [if_pos rfl]
        exact .after hn (by omega) hrest
      · dsimp only
        rw [if_neg hcontinue, if_neg hexit]
        exact .left hn (by omega) hout ha

/-- A body that can complete is followed by a jump back to the head. -/
structure JumpsBack (S : Scene) (body : NodeId) (head : Nat) (s t : State) : Prop where
  along : Along S.ctx s t
  jump : S.ctx.function.Completes body → t.draft.label = s.draft.label + 1 ∧
    ∀ g, Final S g t → S.code[s.draft.label]? = some (.goto (.address head))

theorem Lowering.node_ok {ctx : Context} {n : Node} (hr : ctx.node id s = .ok (n, t)) :
    ctx.function.node? id = some n ∧ t = s := by
  unfold Context.node at hr
  cases hn : ctx.function.node? id with
  | none => rw [hn] at hr; cases hr
  | some n' =>
    rw [hn] at hr
    cases hr
    exact ⟨rfl, rfl⟩

/-- The end of a loop, after its body. -/
theorem Lowering.jumpsBack_ok {n : Node} {body : NodeId} {head : Nat} (hn : S.ctx.function.node? body = some n)
    (hb : Books S.ctx s)
    (hr : (do
      if n.type ≠ .unreachable then emit (.goto (.address head))
      closeLoop
      return {} : Lower Visited) s = .ok (visited, t)) :
    visited = {} ∧ ∃ u, JumpsBack S body head s u ∧ closeLoop u = .ok ((), t) := by
  by_cases htype : n.type = .unreachable
  · simp only [htype, ne_eq, not_true_eq_false, if_false] at hr
    obtain ⟨_, _, hclose, hr₁⟩ := bind_ok hr
    cases hr₁
    exact ⟨rfl, s, ⟨hb.along, fun hc => absurd htype (hc n hn)⟩, hclose⟩
  · simp only [htype, ne_eq, not_false_eq_true, if_true] at hr
    obtain ⟨_, u, hemit, hr₁⟩ := bind_ok hr
    obtain ⟨_, _, hclose, hr₂⟩ := bind_ok hr₁
    cases hr₂
    obtain rfl := emit_ok hemit
    exact ⟨rfl, _, ⟨hb.emit _, fun _ => ⟨Draft.label_add _ _, fun g hf => hf.emitted nofun rfl⟩⟩, hclose⟩

theorem Entry.loop {name : LoopId} {preheader body : NodeId} (hS : S.Valid) (hw : Builds S w ev)
    (h : Entry S s₀ s id demanded open_ hint) (hn : S.ctx.function.node? id = some ⟨.loop name preheader body, type⟩)
    (hr : Lowering.loop S.ctx w name preheader body s = .ok (visited, t)) :
    Visits S ev ⟨.loop name preheader body, type⟩ id demanded open_ hint offer s₀ s t visited := by
  obtain rfl := h.stands.unread (hS.shaped.kind_eq h.stands hn rfl)
  obtain ⟨took₁, _, hpreheader, hr₁⟩ := bind_ok hr
  obtain ⟨head, s₁, hlabel, hr₂⟩ := bind_ok hr₁
  obtain ⟨rfl, rfl⟩ := label_ok hlabel
  obtain ⟨_, s₂, hopen, hr₃⟩ := bind_ok hr₂
  obtain rfl : s₂ = s₁.openLoop name s₁.draft.label := by cases hopen; rfl
  obtain ⟨took₂, _, hregion, hr₄⟩ := bind_ok hr₃
  obtain ⟨n, s₃, hnode, hr₅⟩ := bind_ok hr₄
  obtain ⟨hnbody, rfl⟩ := node_ok hnode
  have hfirst := hw.effect (h.stands.child hn List.mem_cons_self) h.along.books offerFits_none hpreheader
  have hst : S.ctx.function.Stands body false open_ :=
    h.stands.child hn (List.mem_cons_of_mem _ List.mem_cons_self)
  have hopened := hfirst.along.books.openLoop name s₁.draft.label
  have hbody : Forwarded S (ev false body) body open_ none none _ s₃ took₂ :=
    .inRegion (fun regions next u hact => hw.effect hst (hopened.along.inRegion regions next).books offerFits_none hact)
      hopened hregion
  obtain ⟨rfl, s₄, hback, hclose⟩ := jumpsBack_ok hnbody hbody.along.books hr₅
  obtain ⟨halong, frame, hclosed⟩ := (hbody.along.trans hback.along).closeLoop hclose
  refine h.ofEffect (hfirst.along.trans halong) (fun {g A _ _} hready => ?_) (hS.completes h.stands hn rfl)
  have hfinal := hready.final.closedLoop hclosed
  have hlive : ∀ y, _ → s₁.pool.isLive y = true := fun y hy => hfirst.along.since.live y (hready.live y hy)
  have hlabel₄ : t.draft.label = s₄.draft.label := hclosed.label
  have hlabel₃ := hback.along.since.label
  have hlabel₁ : s₁.draft.label ≤ s₃.draft.label := hbody.along.since.label
  have hround : ∀ σ m, Agrees S A none σ m → m.pc = s₁.draft.label →
      Follows S (g.inLoop name s₁.draft.label t.draft.label) A s.draft.label t.draft.label 0 ((Reading.effect ev body).on σ) m 1
        fun _ τ m₁ => m₁.pc = s₁.draft.label ∧ Agrees S A none τ m₁ := by
    intro σ m ha hpc
    have hready' : Ready S (g.inLoop name s₁.draft.label t.draft.label) A open_ (s₁.openLoop name s₁.draft.label)
        (s₁.openLoop name s₁.draft.label) s₃ σ m :=
      ⟨hback.along.since.toGrows.final hfinal, hready.scope, hlive, ha, hpc⟩
    rw [show Reading.effect ev body = Reading.effect ev body >>= fun _ => pure () from (bind_pure _).symm]
    refine hbody.effects hready' hfirst.along.since.label (by omega) fun τ m₁ hpc₁ hc ha₁ => ?_
    obtain ⟨hlast, hjump⟩ := hback.jump hc
    refine .goto hS (hpc₁ ▸ hjump _ hfinal) ?_ ?_ ha₁.going (.ok (Nat.le_refl _) ⟨rfl, ha₁.goto _⟩)
    · have := hfirst.along.since.label
      omega
    · omega
  refine hfirst.effects ⟨halong.since.toGrows.final hready.final, hready.scope, hready.live, hready.agrees, hready.pc⟩
    (Nat.le_refl _) halong.since.label fun τ m₁ hpc _ ha => ?_
  refine (Follows.iterate hround (S.fuel + 1) 0 τ m₁ (by omega) ha hpc).bind ?_
  rintro _ τ' m₂ ⟨hpc₂, ha₂⟩
  exact .ok (Nat.le_refl 0) ⟨hpc₂, rfl, ha₂⟩

/-! ## Exits -/

/-- An exit took over the offered tail or has a jump of its own; `aims` says when its jumps go to an address. -/
structure Exited (offer : Option Offer) (s t : State) (took : Bool) (aims : Array Instruction → Nat → Prop) : Prop where
  takes : took = true → ∃ o, offer = some o ∧ s.draft.label = o.position ∧ t.draft.label = o.position ∧
    ∀ code a, t.draft.Becomes code → aims code a →
      o.branch.Decides code (if o.polarity then a else o.branch.fallThrough) (if o.polarity then o.branch.fallThrough else a)
  jumps : took = false → t.draft.label = s.draft.label + 1 ∧
    ∀ code a, t.draft.Becomes code → aims code a → code[s.draft.label]? = some (.goto (.address a))

theorem Lowering.standing_ok {standing : Option Offer} (hr : Lowering.standing offer s = .ok (standing, t)) :
    t = s ∧ ∀ o, standing = some o → offer = some o ∧ s.draft.label = o.position := by
  obtain ⟨here, _, hlabel, hr₁⟩ := bind_ok hr
  obtain ⟨rfl, rfl⟩ := label_ok hlabel
  cases hr₁
  refine ⟨rfl, fun o ho => ?_⟩
  obtain ⟨hoffer, hposition⟩ := Option.filter_eq_some_iff.1 ho
  exact ⟨hoffer, (of_decide_eq_true hposition).symm⟩

theorem Lowering.exitJumps_ok {jumps : List Patch} {took : Bool} (hclean : s.draft.Clean)
    (hr : exitJumps offer s = .ok ((jumps, took), t)) : (∃ d, s.draft.Before d ∧ t = { s with draft := d }) ∧
      Exited offer s t took fun code a => ∀ p ∈ jumps, p.Aims code a := by
  obtain ⟨stands, s₁, hstanding, hr₁⟩ := bind_ok hr
  obtain ⟨rfl, hoffered⟩ := standing_ok hstanding
  cases stands with
  | some o =>
    obtain ⟨hoffer, hposition⟩ := hoffered o rfl
    obtain ⟨ps, s₂, hdrafting, hr₂⟩ := bind_ok hr₁
    cases hr₂
    obtain ⟨d, hdefer, rfl⟩ := drafting_ok hdrafting
    have hdeferred := fun a => Branch.before_defer (a := a) hclean hdefer
    obtain ⟨hbefore, hlabel, -⟩ := hdeferred 0
    refine ⟨⟨d, hbefore, rfl⟩, fun _ => ⟨o, hoffer, hposition, hlabel.trans hposition, ?_⟩, nofun⟩
    exact fun code a hcode haims => (hdeferred a).2.2 code hcode haims
  | none =>
    obtain ⟨p, s₂, hgoto, hr₂⟩ := bind_ok hr₁
    cases hr₂
    obtain ⟨rfl, rfl⟩ := gotoPending_ok hgoto
    refine ⟨⟨_, Draft.before_add hclean _, rfl⟩, nofun, fun _ => ⟨Draft.label_add _ _, fun code a hcode haims => ?_⟩⟩
    exact hcode.jump_at ((Draft.getElem?_push _ _ _).trans (if_pos rfl)) (haims _ List.mem_cons_self)

/-- The jump back to the head of a loop, as the offered tail or as a jump of its own. -/
def Lowering.jumpToHead (offer : Option Offer) (head : Nat) : Lower Visited := do
  match ← standing offer with
  | some o =>
    drafting (o.branch.resolve o.polarity (.address head))
    return { taken := true }
  | none =>
    emit (.goto (.address head))
    return {}

/-- The head of a loop is known, so an exit to it leaves nothing open. -/
theorem Lowering.jumpToHead_ok {head : Nat} (hclean : s.draft.Clean) (hr : jumpToHead offer head s = .ok (visited, t)) :
    visited.slot = none ∧ (∃ d, s.draft.Before d ∧ t = { s with draft := d }) ∧
      Exited offer s t visited.taken fun _ a => a = head := by
  obtain ⟨stands, s₁, hstanding, hr₁⟩ := bind_ok hr
  obtain ⟨rfl, hoffered⟩ := standing_ok hstanding
  cases stands with
  | some o =>
    obtain ⟨hoffer, hposition⟩ := hoffered o rfl
    obtain ⟨_, s₂, hdrafting, hr₂⟩ := bind_ok hr₁
    cases hr₂
    obtain ⟨d, hresolve, rfl⟩ := drafting_ok hdrafting
    obtain ⟨hbefore, hlabel, hdecides⟩ := Branch.before_resolve hclean hresolve
    refine ⟨rfl, ⟨d, hbefore, rfl⟩, fun _ => ⟨o, hoffer, hposition, hlabel.trans hposition, ?_⟩, nofun⟩
    exact fun code a hcode ha => ha ▸ hdecides code hcode
  | none =>
    obtain ⟨_, s₂, hemit, hr₂⟩ := bind_ok hr₁
    cases hr₂
    obtain rfl := emit_ok hemit
    refine ⟨rfl, ⟨_, Draft.before_add hclean _, rfl⟩, nofun, fun _ => ⟨Draft.label_add _ _, fun code a hcode ha => ?_⟩⟩
    exact ha ▸ hcode.added nofun rfl

/-- A node that leaves for where `e` lands. -/
theorem Entry.leaves {e : Abrupt} {took : Bool} {aims : Array Instruction → Nat → Prop} (hS : S.Valid)
    (h : Entry S s₀ s id demanded open_ hint) (hk : S.ctx.function.kind? id = none) (halong : Along S.ctx s t)
    (hx : Exited offer s t took aims)
    (hland : ∀ g, Final S g t → open_ = g.blocks.map (·.1) → ∃ a, g.Lands e a ∧ aims S.code a) :
    Lowered S (throw e) id demanded open_ hint offer s₀ s t ⟨none, took⟩ := by
  obtain rfl := h.stands.unread hk
  refine ⟨h.along.trans halong, halong.since.toGrows, (h.advance halong).touched, rfl, nofun, fun ht => ?_,
    fun hn g _ _ m hready => ?_⟩
  · obtain ⟨o, hoffer, hstart, hstop, hdecides⟩ := hx.takes ht
    refine ⟨o, hoffer, hk, hstart, hstop, fun g hf hscope => ?_⟩
    obtain ⟨a, hlands, haims⟩ := hland g hf hscope
    exact ⟨e, a, hlands, hdecides _ a hf.code haims, fun _ _ _ _ => rfl⟩
  · obtain ⟨hlabel, hjump⟩ := hx.jumps hn
    obtain ⟨a, hlands, haims⟩ := hland g hready.final hready.scope
    have hcode : S.code[m.pc]? = some (.goto (.address a)) := hready.pc ▸ hjump _ a hready.final.code haims
    have hpc := hready.pc
    refine .goto hS hcode (Nat.le_of_eq hpc.symm) (by omega) hready.agrees.going ?_
    exact .left (.refl _) (Nat.succ_pos _) hlands (hready.agrees.goto a)

/-- The frame that an exit was added to is the innermost of its name. -/
theorem Lowering.find?_modify {α : Type} {p : α → Bool} {f : α → α} (hf : ∀ a, p (f a) = p a) {as : List α} {i : Nat}
    (hi : as.findIdx? p = some i) : ∃ a, (as.modify i f).find? p = some (f a) := by
  induction as generalizing i with
  | nil => cases hi
  | cons a as ih =>
    rw [List.findIdx?_cons] at hi
    cases hp : p a with
    | true =>
      rw [hp, if_pos rfl] at hi
      cases hi
      exact ⟨a, List.find?_cons_of_pos ((hf a).trans hp)⟩
    | false =>
      rw [hp, if_neg Bool.false_ne_true] at hi
      obtain ⟨j, hj, rfl⟩ := Option.map_eq_some_iff.1 hi
      obtain ⟨a', ha'⟩ := ih hj
      exact ⟨a', by rw [List.modify_succ_cons, List.find?_cons_of_neg (by simp [hp]), ha']⟩

/-- The innermost frame of a name goes with the innermost landing of that name. -/
theorem Lowering.forall₂_find? {α β : Type} {R : α → β → Prop} {p : α → Bool} {q : β → Bool} {as : List α} {bs : List β}
    {a : α} (hpq : ∀ a b, R a b → p a = q b) (h : List.Forall₂ R as bs) (ha : as.find? p = some a) :
    ∃ b, R a b ∧ bs.find? q = some b ∧ q b = true := by
  induction h with
  | nil => cases ha
  | @cons a' b as bs hab _ ih =>
    cases hp : p a' with
    | true =>
      rw [List.find?_cons_of_pos hp] at ha
      cases ha
      have hq : q b = true := (hpq a b hab).symm.trans hp
      exact ⟨b, hab, List.find?_cons_of_pos hq, hq⟩
    | false =>
      rw [List.find?_cons_of_neg (by simp [hp])] at ha
      obtain ⟨b', hR, hfind, hq⟩ := ih ha
      have hqb : q b = false := (hpq a' b hab).symm.trans hp
      exact ⟨b', hR, by rw [List.find?_cons_of_neg (by simp [hqb])]; exact hfind, hq⟩

/-- The exits added to the innermost frame of a block go to where that block ends. -/
theorem Final.brokenBlock {name : BlockId} {i : Nat} {jumps : List Patch}
    (hf : Final S g { s with blocks := s.blocks.modify i fun f => { f with breaks := f.breaks ++ jumps } })
    (hi : s.blocks.findIdx? (·.block = name) = some i) :
    ∃ read a, g.blocks.find? (·.1.1 = name) = some ((name, read), a) ∧ ∀ p ∈ jumps, p.Aims S.code a := by
  obtain ⟨frame, hframe⟩ := find?_modify (f := fun f => { f with breaks := f.breaks ++ jumps }) (fun _ => rfl) hi
  obtain ⟨⟨⟨other, read⟩, a⟩, ⟨-, haims⟩, hfind, hname⟩ := forall₂_find? (p := fun f => decide (f.block = name))
    (q := fun y => decide (y.1.1 = name)) (fun _ _ hR => by rw [hR.1]) hf.blocks hframe
  obtain rfl : other = name := of_decide_eq_true hname
  exact ⟨read, a, hfind, fun p hp => haims p (List.mem_append_right _ hp)⟩

theorem Final.brokenLoop {name : LoopId} {i : Nat} {jumps : List Patch}
    (hf : Final S g { s with loops := s.loops.modify i fun f => { f with breaks := f.breaks ++ jumps } })
    (hi : s.loops.findIdx? (·.loop = name) = some i) :
    ∃ head a, g.loops.find? (·.1 = name) = some (name, head, a) ∧ ∀ p ∈ jumps, p.Aims S.code a := by
  obtain ⟨frame, hframe⟩ := find?_modify (f := fun f => { f with breaks := f.breaks ++ jumps }) (fun _ => rfl) hi
  obtain ⟨⟨other, head, a⟩, ⟨-, -, haims⟩, hfind, hname⟩ := forall₂_find? (p := fun f => decide (f.loop = name))
    (q := fun y => decide (y.1 = name)) (fun _ _ hR => by rw [hR.1]) hf.loops hframe
  obtain rfl : other = name := of_decide_eq_true hname
  exact ⟨head, a, hfind, fun p hp => haims p (List.mem_append_right _ hp)⟩

theorem Final.head {name : LoopId} {frame : LoopFrame} (hf : Final S g s) (hframe : s.loops.find? (·.loop = name) = some frame) :
    ∃ a, g.loops.find? (·.1 = name) = some (name, frame.header, a) := by
  obtain ⟨⟨other, head, a⟩, ⟨-, hhead, -⟩, hfind, hname⟩ := forall₂_find? (p := fun f => decide (f.loop = name))
    (q := fun y => decide (y.1 = name)) (fun _ _ hR => by rw [hR.1]) hf.loops hframe
  obtain rfl : other = name := of_decide_eq_true hname
  exact ⟨a, hhead ▸ hfind⟩

/-- The innermost block of a name, in the scope of a node. -/
theorem Landings.lookup_blocks {name : BlockId} {read : Bool} {a : Nat} {blocks : List ((BlockId × Bool) × Nat)}
    (h : blocks.find? (·.1.1 = name) = some ((name, read), a)) : (blocks.map (·.1)).lookup name = some read := by
  induction blocks with
  | nil => cases h
  | cons y blocks ih =>
    obtain ⟨⟨other, read'⟩, a'⟩ := y
    rw [List.map_cons, List.lookup_cons]
    by_cases hname : other = name
    · subst hname
      simp only [List.find?_cons, decide_true, Option.some.injEq, Prod.mk.injEq, true_and] at h
      simp [h.1]
    · simp only [List.find?_cons, hname, decide_false] at h
      have hne : (name == other) = false := by simpa using Ne.symm hname
      rw [hne]
      exact ih h

namespace Entry

theorem exitBlock {name : BlockId} (hS : S.Valid) (h : Entry S s₀ s id demanded open_ hint)
    (hn : S.ctx.function.node? id = some ⟨.exitBlock name, type⟩)
    (hr : Lowering.exitBlock id name offer s = .ok (visited, t)) :
    Visits S ev ⟨.exitBlock name, type⟩ id demanded open_ hint offer s₀ s t visited := by
  obtain ⟨_, _, hget, hr₁⟩ := bind_ok hr
  cases hget
  cases hi : s.blocks.findIdx? (·.block = name) with
  | none => simp only [hi] at hr₁; cases hr₁
  | some i =>
    simp only [hi] at hr₁
    obtain ⟨⟨jumps, took⟩, s₁, hexit, hr₂⟩ := bind_ok hr₁
    obtain ⟨_, s₂, hmodify, hr₃⟩ := bind_ok hr₂
    cases hmodify
    cases hr₃
    obtain ⟨⟨d, hbefore, rfl⟩, hexited⟩ := exitJumps_ok h.along.books.clean hexit
    have hbroken := (h.along.books.along.redraft hbefore).breakBlock i jumps
    refine h.leaves hS (hS.shaped.kind_eq h.stands hn rfl) hbroken ⟨hexited.takes, hexited.jumps⟩ fun g hf hscope => ?_
    obtain ⟨read, a, hfind, haims⟩ := hf.brokenBlock hi
    obtain rfl : read = false := by
      cases read with
      | false => rfl
      | true =>
        refine absurd ?_ (hS.shaped.exits id demanded open_ _ name h.stands hn rfl)
        rw [hscope]
        exact Landings.lookup_blocks hfind
    exact ⟨a, .exitBlock hfind, haims⟩

theorem exitLoop {name : LoopId} (hS : S.Valid) (h : Entry S s₀ s id demanded open_ hint)
    (hn : S.ctx.function.node? id = some ⟨.exitLoop name, type⟩)
    (hr : Lowering.exitLoop id name offer s = .ok (visited, t)) :
    Visits S ev ⟨.exitLoop name, type⟩ id demanded open_ hint offer s₀ s t visited := by
  obtain ⟨_, _, hget, hr₁⟩ := bind_ok hr
  cases hget
  cases hi : s.loops.findIdx? (·.loop = name) with
  | none => simp only [hi] at hr₁; cases hr₁
  | some i =>
    simp only [hi] at hr₁
    obtain ⟨⟨jumps, took⟩, s₁, hexit, hr₂⟩ := bind_ok hr₁
    obtain ⟨_, s₂, hmodify, hr₃⟩ := bind_ok hr₂
    cases hmodify
    cases hr₃
    obtain ⟨⟨d, hbefore, rfl⟩, hexited⟩ := exitJumps_ok h.along.books.clean hexit
    have hbroken := (h.along.books.along.redraft hbefore).breakLoop i jumps
    refine h.leaves hS (hS.shaped.kind_eq h.stands hn rfl) hbroken ⟨hexited.takes, hexited.jumps⟩ fun g hf _ => ?_
    obtain ⟨head, a, hfind, haims⟩ := hf.brokenLoop hi
    exact ⟨a, .exitLoop hfind, haims⟩

theorem continueLoop {name : LoopId} (hS : S.Valid) (h : Entry S s₀ s id demanded open_ hint)
    (hn : S.ctx.function.node? id = some ⟨.continueLoop name, type⟩)
    (hr : Lowering.continueLoop id name offer s = .ok (visited, t)) :
    Visits S ev ⟨.continueLoop name, type⟩ id demanded open_ hint offer s₀ s t visited := by
  obtain ⟨_, _, hget, hr₁⟩ := bind_ok hr
  cases hget
  cases hframe : s.loops.find? (·.loop = name) with
  | none => simp only [hframe] at hr₁; cases hr₁
  | some frame =>
    simp only [hframe] at hr₁
    obtain ⟨slot, took⟩ := visited
    obtain ⟨rfl, ⟨d, hbefore, rfl⟩, hexited⟩ := jumpToHead_ok h.along.books.clean hr₁
    have halong := h.along.books.along.redraft hbefore
    refine h.leaves hS (hS.shaped.kind_eq h.stands hn rfl) halong hexited fun g hf _ => ?_
    obtain ⟨a, hfind⟩ := (halong.since.toGrows.final hf).head hframe
    exact ⟨_, .continueLoop hfind, rfl⟩

end Entry

end SlotCode
