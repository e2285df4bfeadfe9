/-
  SlotCode.Proofs.FaithfulArms — a conditional runs the arm that its condition says.

  Where the condition jumps depends on what the arms left behind. An arm that took the
  condition's tail over has no code: the condition leaves for it. After a then arm
  without code the condition jumps over the else arm. Otherwise it jumps to the else
  arm, and the then arm, if it can complete, jumps over that. `Joined` is what these have in
  common: the branch is decided, and from where it goes the right arm runs to the end.
-/

import SlotCode.Proofs.FaithfulControl

namespace SlotCode

open Lowering

variable {S : Scene} {g : Landings} {A : Anchor} {open_ : List (BlockId × Bool)} {s₀ s t : State} {σ τ : Store}
  {m : Machine} {id : NodeId} {hint : Option TypedSlot} {offer : Option Offer} {demanded : Bool}
  {w : Walk} {ev : ChildEval} {visited : Visited} {type : ValueType}

/-- One of two arms has run to the end, and its value is where it belongs. -/
def Rejoins (S : Scene) (A : Anchor) (c₁ c₂ : NodeId) (target : Option TypedSlot) (t : State) (o : Option Operand)
    (τ : Store) (m : Machine) : Prop :=
  m.pc = t.draft.label ∧ ∃ c, (c = c₁ ∨ c = c₂) ∧ S.ctx.function.Completes c ∧
    Arrived S A τ m (S.ctx.function.aim c target) o

/-- Two arms were lowered after a branch: it is decided, and goes to the arm that is to run. -/
structure Joined (S : Scene) (e₁ e₂ : Eval (Option Operand)) (c₁ c₂ : NodeId) (open_ : List (BlockId × Bool))
    (target : Option TypedSlot) (b : Branch) (s t : State) : Prop where
  along : Along S.ctx s t
  runs : ∀ {g A}, Final S g t → open_ = g.blocks.map (·.1) → (∀ x, A.live x = true → s.pool.isLive x = true) →
    ∃ yes no, b.Decides S.code yes no ∧ ∀ truth σ m, Agrees S A none σ m → m.pc = (if truth then yes else no) →
      Follows S g A s.draft.label t.draft.label 1 ((if truth = true then e₁ else e₂).on σ) m 0 (Rejoins S A c₁ c₂ target t)

section Shapes

variable {e₁ e₂ : Eval (Option Operand)} {c₁ c₂ : NodeId} {target : Option TypedSlot} {b : Branch} {s₁ s₂ : State}
  {took : Bool}

/-- An arm that runs from its first instruction to the end of both. -/
theorem Forwarded.rejoins {lo hi : Nat} {e : Eval (Option Operand)} {c : NodeId}
    (h : Forwarded S e c open_ (S.ctx.function.aim c target) offer s₁ s₂ false) (hc : c = c₁ ∨ c = c₂) (hf : Final S g s₂)
    (hscope : open_ = g.blocks.map (·.1)) (hlive : ∀ x, A.live x = true → s₁.pool.isLive x = true)
    (ha : Agrees S A none σ m) (hpc : m.pc = s₁.draft.label) (hlo : lo ≤ s₁.draft.label) (hhi : s₂.draft.label ≤ hi)
    (ht : s₂.draft.label = t.draft.label) :
    Follows S g A lo hi 1 (e.on σ) m 0 (Rejoins S A c₁ c₂ target t) := by
  have hrun := h.runs rfl ⟨hf, hscope, hlive, ha, hpc⟩
  refine ((hrun.widen hlo hhi).credit (Nat.zero_le _) (Nat.le_refl _)).post ?_
  rintro o τ m₁ ⟨hpc₁, hcompletes, harrived⟩
  exact ⟨hpc₁.trans ht, c, hc, hcompletes, harrived⟩

/-- The then arm leaves by the condition's own jump, so false falls into the else arm. -/
theorem joined_thenLeaves (h₁ : Forwarded S e₁ c₁ open_ (S.ctx.function.aim c₁ target) offer s s₁ true)
    (ho : ∀ o, offer = some o → o = ⟨s.draft.label, b, true⟩) (hfall : s.draft.label = b.fallThrough)
    (h₂ : Forwarded S e₂ c₂ open_ (S.ctx.function.aim c₂ target) none s₁ t took) :
    Joined S e₁ e₂ c₁ c₂ open_ target b s t := by
  obtain ⟨o, hoffer, htaken⟩ := h₁.taken rfl
  obtain rfl := ho o hoffer
  obtain rfl := h₂.untaken
  have hstop : s₁.draft.label = s.draft.label := htaken.stop
  refine ⟨h₁.along.trans h₂.along, fun hf hscope hlive => ?_⟩
  obtain ⟨e, a, hlands, hdecides, hleaves⟩ := htaken.leaves _ (h₂.along.since.toGrows.final hf) hscope
  refine ⟨a, b.fallThrough, hdecides, fun truth σ m ha hpc => ?_⟩
  cases truth with
  | true =>
    have hout : e₁.on σ = some (.error e, σ) := hleaves _ σ m ha
    have hat : m.pc = a := hpc
    rw [if_pos rfl, hout]
    exact .left (.refl m) Nat.one_pos (hat ▸ hlands) ha
  | false =>
    have hat : m.pc = b.fallThrough := hpc
    exact h₂.rejoins (.inr rfl) hf hscope (fun x hx => h₁.along.since.live x (hlive x hx)) ha (by omega) (by omega)
      (Nat.le_refl _) rfl

/-- The then arm has no code and the else arm leaves by the condition's own jump. -/
theorem joined_elseLeaves {offer₁ : Option Offer}
    (h₁ : Forwarded S e₁ c₁ open_ (S.ctx.function.aim c₁ target) offer₁ s s₁ false)
    (hempty : s₁.draft.label = s.draft.label) (hfall : s.draft.label = b.fallThrough)
    (h₂ : Forwarded S e₂ c₂ open_ (S.ctx.function.aim c₂ target) offer s₁ t true)
    (ho : ∀ o, offer = some o → o = ⟨s.draft.label, b, false⟩) : Joined S e₁ e₂ c₁ c₂ open_ target b s t := by
  obtain ⟨o, hoffer, htaken⟩ := h₂.taken rfl
  obtain rfl := ho o hoffer
  have hstop : t.draft.label = s.draft.label := htaken.stop
  refine ⟨h₁.along.trans h₂.along, fun hf hscope hlive => ?_⟩
  obtain ⟨e, a, hlands, hdecides, hleaves⟩ := htaken.leaves _ hf hscope
  refine ⟨b.fallThrough, a, hdecides, fun truth σ m ha hpc => ?_⟩
  cases truth with
  | true =>
    have hat : m.pc = b.fallThrough := hpc
    exact h₁.rejoins (.inl rfl) (h₂.along.since.toGrows.final hf) hscope hlive ha (by omega) (Nat.le_refl _) (by omega)
      (by omega)
  | false =>
    have hout : e₂.on σ = some (.error e, σ) := hleaves _ σ m ha
    have hat : m.pc = a := hpc
    rw [if_neg Bool.false_ne_true, hout]
    exact .left (.refl m) Nat.one_pos (hat ▸ hlands) ha

/-- The then arm has no code, so true jumps over the else arm. -/
theorem joined_elseOnly {offer₁ : Option Offer}
    (h₁ : Forwarded S e₁ c₁ open_ (S.ctx.function.aim c₁ target) offer₁ s s₁ false)
    (hempty : s₁.draft.label = s.draft.label) (hfall : s.draft.label = b.fallThrough)
    (h₂ : Forwarded S e₂ c₂ open_ (S.ctx.function.aim c₂ target) offer s₁ s₂ false)
    (hr : drafting (b.resolve true (.address s₂.draft.label)) s₂ = .ok ((), t)) :
    Joined S e₁ e₂ c₁ c₂ open_ target b s t := by
  obtain ⟨d, hresolve, rfl⟩ := drafting_ok hr
  obtain ⟨hbefore, hlabel, hdecides⟩ := Branch.before_resolve h₂.along.books.clean hresolve
  have hjumps := h₂.along.books.along.redraft hbefore
  have hlast : s₂.draft.label ≤ d.label := Nat.le_of_eq hlabel.symm
  refine ⟨h₁.along.trans (h₂.along.trans hjumps), fun {g A} hf hscope hlive => ?_⟩
  have hfinal₂ := hjumps.since.toGrows.final hf
  have hfinal₁ := h₂.along.since.toGrows.final hfinal₂
  refine ⟨s₂.draft.label, b.fallThrough, hdecides _ hf.code, fun truth σ m ha hpc => ?_⟩
  cases truth with
  | true =>
    have hat : m.pc = s₂.draft.label := hpc
    obtain ⟨o, τ, he, hc, harrived⟩ := h₁.codeless hempty hfinal₁ hscope hlive ha
    rw [if_pos rfl, he]
    exact .ok (Nat.zero_le _) ⟨hat.trans hlabel.symm, c₁, .inl rfl, hc, harrived⟩
  | false =>
    have hat : m.pc = b.fallThrough := hpc
    exact h₂.rejoins (.inr rfl) hfinal₂ hscope (fun x hx => h₁.along.since.live x (hlive x hx)) ha (by omega) (by omega)
      hlast hlabel.symm

/-- Both arms have code: false jumps to the else arm, and the then arm jumps over that if it can complete. -/
theorem joined_bothArms {s₃ s₄ : State}
    (h₁ : Forwarded S e₁ c₁ open_ (S.ctx.function.aim c₁ target) offer s s₁ false) (hfall : s.draft.label = b.fallThrough)
    (hskip : Along S.ctx s₁ s₂) (hresolve : drafting (b.resolve false (.address s₂.draft.label)) s₂ = .ok ((), s₃))
    (h₂ : Forwarded S e₂ c₂ open_ (S.ctx.function.aim c₂ target) none s₃ s₄ took) (hend : Along S.ctx s₄ t)
    (hlabel : t.draft.label = s₄.draft.label)
    (hjump : S.ctx.function.Completes c₁ → s₁.draft.label < s₂.draft.label ∧
      ∀ g, Final S g t → S.code[s₁.draft.label]? = some (.goto (.address t.draft.label))) (hS : S.Valid) :
    Joined S e₁ e₂ c₁ c₂ open_ target b s t := by
  obtain ⟨d, hact, rfl⟩ := drafting_ok hresolve
  obtain ⟨hbefore, hsame, hdecides⟩ := Branch.before_resolve hskip.books.clean hact
  obtain rfl := h₂.untaken
  have hjumps := hskip.books.along.redraft hbefore
  have hlabel₁ := h₁.along.since.label
  have hlabel₂ := hskip.since.label
  have hlabel₃ : d.label ≤ s₄.draft.label := h₂.along.since.label
  refine ⟨h₁.along.trans (hskip.trans (hjumps.trans (h₂.along.trans hend))), fun {g A} hf hscope hlive => ?_⟩
  have hfinal₄ := hend.since.toGrows.final hf
  have hfinal₃ := h₂.along.since.toGrows.final hfinal₄
  have hfinal₁ := hskip.since.toGrows.final (hjumps.since.toGrows.final hfinal₃)
  refine ⟨b.fallThrough, s₂.draft.label, hdecides _ hfinal₃.code, fun truth σ m ha hpc => ?_⟩
  cases truth with
  | true =>
    have hat : m.pc = b.fallThrough := hpc
    have hrun := h₁.runs rfl ⟨hfinal₁, hscope, hlive, ha, hat.trans hfall.symm⟩
    rw [if_pos rfl, ← bind_pure e₁]
    refine ((hrun.widen (Nat.le_refl _) (by omega)).credit (Nat.zero_le _) (Nat.le_refl _)).bind ?_
    rintro o τ m₁ ⟨hpc₁, hc, harrived⟩
    obtain ⟨hlt, hcode⟩ := hjump hc
    refine .goto hS (hpc₁ ▸ hcode g hf) (by omega) (by omega) harrived.going ?_
    exact .ok (Nat.zero_le _) ⟨rfl, c₁, .inl rfl, hc, harrived.goto _⟩
  | false =>
    have hat : m.pc = s₂.draft.label := hpc
    have hlive₃ : ∀ x, A.live x = true → s₂.pool.isLive x = true := fun x hx =>
      hskip.since.live x (h₁.along.since.live x (hlive x hx))
    exact h₂.rejoins (.inr rfl) hfinal₄ hscope hlive₃ ha (hat.trans hsame.symm)
      (by show _ ≤ d.label; omega) (by omega) hlabel.symm

end Shapes

/-! ## The conditional -/

theorem Lowering.offer_eq {ctx : Context} {position : Nat} {b : Branch} {polarity : Bool} {o : Offer}
    (h : ctx.offer position b polarity = some o) : o = ⟨position, b, polarity⟩ := by
  unfold Context.offer at h
  split at h
  · cases h
    rfl
  · cases h

/-- One arm, in a region of its own. -/
theorem Builds.arm (hw : Builds S w ev) {c : NodeId} {target : Option TypedSlot} {took : Bool}
    (htarget : target.isSome = demanded) (hst : S.ctx.function.Stands c (S.ctx.function.reads demanded c .forward) open_)
    (hb : Books S.ctx s) (hx : HintFits S.ctx s target) (ho : OfferFits s offer)
    (hr : Lowering.arm S.ctx w c target offer s = .ok (took, t)) :
    Forwarded S (S.reading.forward ev demanded c) c open_ (S.ctx.function.aim c target) offer s t took :=
  .inRegion (fun regions next _ hact => hw.forward htarget hst (hb.along.inRegion regions next).books hx ho hact) hb hr

section Arms

variable {target : Option TypedSlot} {thenArm elseArm : NodeId} {b : Branch} {s₁ : State}

theorem Builds.elseOnly (hw : Builds S w ev) (htarget : target.isSome = demanded)
    (hst : S.ctx.function.Stands elseArm (S.ctx.function.reads demanded elseArm .forward) open_)
    (hx : HintFits S.ctx s₁ target)
    (h₁ : Forwarded S (S.reading.forward ev demanded thenArm) thenArm open_ (S.ctx.function.aim thenArm target) offer s s₁ false)
    (hempty : s₁.draft.label = s.draft.label) (hfall : s.draft.label = b.fallThrough)
    (hr : Lowering.elseOnly S.ctx w b s.draft.label elseArm target s₁ = .ok ((), t)) :
    Joined S (S.reading.forward ev demanded thenArm) (S.reading.forward ev demanded elseArm) thenArm elseArm open_ target b
      s t := by
  obtain ⟨took, s₂, harm, hr₁⟩ := bind_ok hr
  have hfits : OfferFits s₁ (S.ctx.offer s.draft.label b false) := by
    intro o ho
    rw [offer_eq ho]
    exact Nat.le_of_eq hempty.symm
  have h₂ := hw.arm htarget hst h₁.along.books hx hfits harm
  cases took with
  | true =>
    cases hr₁
    exact joined_elseLeaves h₁ hempty hfall h₂ fun _ => offer_eq
  | false =>
    obtain ⟨here, _, hlabel, hr₂⟩ := bind_ok hr₁
    obtain ⟨rfl, rfl⟩ := label_ok hlabel
    exact joined_elseOnly h₁ hempty hfall h₂ hr₂

/-- After a then arm with code: the jump over the else arm, if there is one, and what follows. -/
theorem Lowering.bothArms_ok {ctx : Context} (hr : Lowering.bothArms ctx w b thenArm elseArm target s = .ok ((), t)) :
    ∃ s₁ s₂ s₃ took, drafting (b.resolve false (.address s₁.draft.label)) s₁ = .ok ((), s₂) ∧
      Lowering.arm ctx w elseArm target none s₂ = .ok (took, s₃) ∧
      ((∃ n, ctx.function.node? thenArm = some n ∧ n.type = .unreachable ∧ s₁ = s ∧ t = s₃) ∨
        (s₁ = { s with draft := s.draft.add (.goto .pending) } ∧
          drafting (Drafting.patch ⟨s.draft.label⟩ (.address s₃.draft.label)) s₃ = .ok ((), t))) := by
  obtain ⟨n, _, hnode, hr₁⟩ := bind_ok hr
  obtain ⟨hn, rfl⟩ := node_ok hnode
  by_cases htype : n.type = .unreachable
  · simp only [htype, ne_eq, not_true_eq_false, if_false] at hr₁
    obtain ⟨skip, s₁, hskip, hr₂⟩ := bind_ok hr₁
    cases hskip
    obtain ⟨here, _, hlabel, hr₃⟩ := bind_ok hr₂
    obtain ⟨rfl, rfl⟩ := label_ok hlabel
    obtain ⟨_, s₂, hresolve, hr₄⟩ := bind_ok hr₃
    obtain ⟨took, s₃, harm, hr₅⟩ := bind_ok hr₄
    cases hr₅
    exact ⟨_, s₂, _, took, hresolve, harm, .inl ⟨n, hn, htype, rfl, rfl⟩⟩
  · simp only [htype, ne_eq, not_false_eq_true, if_true] at hr₁
    obtain ⟨skip, s₁, hskip, hr₂⟩ := bind_ok hr₁
    obtain ⟨p, hgoto, rfl⟩ := map_ok hskip
    obtain ⟨rfl, rfl⟩ := gotoPending_ok hgoto
    obtain ⟨here, _, hlabel, hr₃⟩ := bind_ok hr₂
    obtain ⟨rfl, rfl⟩ := label_ok hlabel
    obtain ⟨_, s₂, hresolve, hr₄⟩ := bind_ok hr₃
    obtain ⟨took, s₃, harm, hr₅⟩ := bind_ok hr₄
    obtain ⟨here, _, hlabel, hr₆⟩ := bind_ok hr₅
    obtain ⟨rfl, rfl⟩ := label_ok hlabel
    exact ⟨_, s₂, _, took, hresolve, harm, .inr ⟨rfl, hr₆⟩⟩

theorem Builds.bothArms (hS : S.Valid) (hw : Builds S w ev) (htarget : target.isSome = demanded)
    (hst : S.ctx.function.Stands elseArm (S.ctx.function.reads demanded elseArm .forward) open_)
    (hx : HintFits S.ctx s₁ target)
    (h₁ : Forwarded S (S.reading.forward ev demanded thenArm) thenArm open_ (S.ctx.function.aim thenArm target) offer s s₁ false)
    (hfall : s.draft.label = b.fallThrough)
    (hr : Lowering.bothArms S.ctx w b thenArm elseArm target s₁ = .ok ((), t)) :
    Joined S (S.reading.forward ev demanded thenArm) (S.reading.forward ev demanded elseArm) thenArm elseArm open_ target b
      s t := by
  obtain ⟨s₂, s₃, s₄, took, hresolve, harm, hskip⟩ := bothArms_ok hr
  obtain ⟨d, hact, rfl⟩ := drafting_ok hresolve
  have hb := h₁.along.books
  rcases hskip with ⟨n, hn, htype, rfl, rfl⟩ | ⟨rfl, hpatch⟩
  · obtain ⟨hbefore, -, -⟩ := Branch.before_resolve hb.clean hact
    have h₂ := hw.arm htarget hst (hb.along.redraft hbefore).books hx offerFits_none harm
    exact joined_bothArms h₁ hfall hb.along hresolve h₂ h₂.along.books.along rfl (fun hc => absurd htype (hc n hn)) hS
  · have hgoto := hb.emit (.goto .pending)
    obtain ⟨hbefore, -, -⟩ := Branch.before_resolve hgoto.books.clean hact
    have hresolved := hgoto.books.along.redraft hbefore
    have h₂ := hw.arm htarget hst hresolved.books hx offerFits_none harm
    obtain ⟨d', hact', rfl⟩ := drafting_ok hpatch
    obtain ⟨hbefore', hlabel, haims⟩ := before_patchEdit h₂.along.books.clean hact'
    have hpatched := h₂.along.books.along.redraft hbefore'
    refine joined_bothArms h₁ hfall hgoto hresolve h₂ hpatched hlabel (fun _ => ⟨?_, fun g hf => ?_⟩) hS
    · show s₁.draft.label < (s₁.draft.add _).label
      rw [Draft.label_add]
      exact Nat.lt_succ_self _
    · have hfinal := (hresolved.since.toGrows.trans (h₂.along.trans hpatched).since.toGrows).final hf
      show _ = some (Instruction.goto (.address d'.label))
      rw [hlabel]
      exact hfinal.code.jump_at ((Draft.getElem?_push _ _ _).trans (if_pos rfl)) (haims _ hf.code)

end Arms

theorem Entry.conditional {condition thenArm elseArm : NodeId} (hS : S.Valid) (hw : Faithful S w ev)
    (h : Entry S s₀ s id demanded open_ hint)
    (hn : S.ctx.function.node? id = some ⟨.conditional condition thenArm elseArm, type⟩)
    (hr : Lowering.conditional S.ctx w id condition thenArm elseArm hint s = .ok (visited, t)) :
    Visits S ev ⟨.conditional condition thenArm elseArm, type⟩ id demanded open_ hint offer s₀ s t visited := by
  obtain ⟨r, s₁, hslot, hr₁⟩ := bind_ok hr
  obtain ⟨b, _, hcondition, hr₂⟩ := bind_ok hr₁
  obtain ⟨position, s₂, hlabel, hr₃⟩ := bind_ok hr₂
  obtain ⟨rfl, rfl⟩ := label_ok hlabel
  obtain ⟨took, s₃, hthen, hr₄⟩ := bind_ok hr₃
  have hslotted := h.demandedSlot hS hslot
  have hbranch := hw.condition (h.stands.child hn List.mem_cons_self) hslotted.along.books hcondition
  have hst₁ := h.stands.child hn (c := thenArm) (e := .forward) (by simp [Expr.edges])
  have hst₂ := h.stands.child hn (c := elseArm) (e := .forward) (by simp [Expr.edges])
  have hfits : ∀ {u}, Along S.ctx s₁ u → HintFits S.ctx u r := fun hu x hx =>
    ⟨hu.since.has (hslotted.fits x hx).1, (hslotted.fits x hx).2⟩
  have hoffer : OfferFits s₂ (S.ctx.offer s₂.draft.label b true) := by
    intro o ho
    rw [offer_eq ho]
  have h₁ := hw.toBuilds.arm hslotted.slot hst₁ hbranch.along.books (hfits hbranch.along) hoffer hthen
  obtain ⟨rfl, hjoined⟩ : visited = ⟨r, false⟩ ∧ Joined S (S.reading.forward ev demanded thenArm)
      (S.reading.forward ev demanded elseArm) thenArm elseArm open_ r b s₂ t := by
    cases took with
    | true =>
      obtain ⟨took', s₄, helse, hr₅⟩ := bind_ok hr₄
      cases hr₅
      have h₂ := hw.toBuilds.arm hslotted.slot hst₂ h₁.along.books (hfits (hbranch.along.trans h₁.along)) offerFits_none helse
      exact ⟨rfl, joined_thenLeaves h₁ (fun _ => offer_eq) hbranch.fall h₂⟩
    | false =>
      obtain ⟨here, s₄, hhere, hr₅⟩ := bind_ok hr₄
      obtain ⟨rfl, rfl⟩ := label_ok hhere
      have hfits₄ := hfits (hbranch.along.trans h₁.along)
      split at hr₅
      · rename_i hempty
        obtain ⟨_, s₅, helse, hr₆⟩ := bind_ok hr₅
        cases hr₆
        exact ⟨rfl, hw.toBuilds.elseOnly hslotted.slot hst₂ hfits₄ h₁ hempty hbranch.fall helse⟩
      · obtain ⟨_, s₅, helse, hr₆⟩ := bind_ok hr₅
        cases hr₆
        exact ⟨rfl, hw.toBuilds.bothArms hS hslotted.slot hst₂ hfits₄ h₁ hbranch.fall helse⟩
  have harms := hbranch.along.trans hjoined.along
  refine hslotted.lowered (.refl h.along.books.clean) harms fun hready => ?_
  have hlive₁ : ∀ y, _ → s₁.pool.isLive y = true := fun y hy =>
    hslotted.live y (h.along.since.live y (hready.live y hy))
  have hstart : s₁.draft.label = s.draft.label := congrArg _ hslotted.draft
  obtain ⟨yes, no, hdecides, hrun⟩ := hjoined.runs hready.final hready.scope fun y hy =>
    hbranch.along.since.live y (hlive₁ y hy)
  have hfirst := hbranch.runs hdecides ⟨hjoined.along.since.toGrows.final hready.final, hready.scope, hlive₁, hready.agrees,
    hready.pc.trans hstart.symm⟩
  refine (hfirst.widen (Nat.le_of_eq hstart.symm) hjoined.along.since.label).bind fun truth τ m₁ hat => ?_
  have hlo : s.draft.label ≤ s₂.draft.label := hstart ▸ hbranch.along.since.label
  refine ((hrun truth τ m₁ hat.2 hat.1).widen hlo (Nat.le_refl _)).post ?_
  rintro o τ' m₂ ⟨hpc, c, hc, hcompletes, harrived⟩
  refine ⟨hpc, hS.shaped.conditional h.stands hn ?_, harrived.delivers hslotted (fun hd => ?_) harms.since hready.live⟩
  · rcases hc with rfl | rfl
    · exact .inl hcompletes
    · exact .inr hcompletes
  · subst hd
    obtain ⟨hfits₁, hfits₂⟩ := hS.shaped.arms id open_ _ condition thenArm elseArm h.stands hn rfl
    rcases hc with rfl | rfl
    · exact hfits₁.kind_isSome hcompletes (h.stands.kind_isSome rfl)
    · exact hfits₂.kind_isSome hcompletes (h.stands.kind_isSome rfl)

end SlotCode
