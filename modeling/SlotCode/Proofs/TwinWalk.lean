/-
  SlotCode.Proofs.TwinWalk — with and without adopted tails, whole functions are lowered in tandem.

  Only a conditional offers the tail of its condition, and there the ways of putting the
  arms together meet again: `Joins` says that the branches of both are decided, and that
  each way leads to where the programs are in step. Where an arm took the tail over, the
  other program falls into a jump, and is a step behind.

  Proved, for every function whose nodes have the kinds that their expressions give them:
  the walk with adopted tails and the walk without are in tandem (`walk_twins`).
-/

import SlotCode.Proofs.TwinControl

namespace SlotCode.Lowering

open Output

variable {α β : Type} {ctx : Context} {w w' : Walk} {s t : State} {V : α → β → Output → Output → Prop}

/-! ## Conditionals -/

namespace Output

variable {b b' : Branch} {c d c₁ d₁ c₂ d₂ c₃ d₃ c₄ d₄ c₅ d₅ : Output}

/-- There is a jump at the start, if any. -/
structure Skips (skip : Option Patch) (c c' : Output) : Prop where
  extended : c.Extends c'
  still : skip = none → c'.label = c.label
  jump : ∀ p, skip = some p → ∀ code a, c'.draft.Becomes code → p.Aims code a → code[c.label]? = some (.goto (.address a))

/-- Two arms were lowered after a branch: both branches are decided, and each way leads to where the programs are in step. -/
structure Joins (b b' : Branch) (c d c' d' : Output) : Prop where
  left : c.Extends c'
  right : d.Extends d'
  ways : ∀ {im im' n}, Lands im im' n c' d' → im.InStep im' n c'.label d'.label → ∃ yes no yes' no',
    b.Decides im.program.code yes no ∧ b'.Decides im'.program.code yes' no' ∧
      im.InStepBelow im' n yes yes' ∧ im.InStepBelow im' n no no'

theorem Branches.joined (h : Branches b b' c d c₁ d₁) (h' : Joins b b' c₁ d₁ c₂ d₂) : Carries c d c₂ d₂ := by
  have hmore := h.more
  have hlabel := h'.left.label
  have hlabel' := h'.right.label
  refine ⟨h.left.trans h'.left, h.right.trans h'.right, by omega, fun hl hstep => ?_⟩
  obtain ⟨yes, no, yes', no', hb, hb', hyes, hno⟩ := h'.ways hl hstep
  exact h.carry (hl.back h'.left h'.right) hb hb' hyes hno

/-- The first program leaves from the condition, the second from a jump that it falls into. -/
theorem inStepBelow_lag {im im' : Image} {n x y z : Nat} (hc : im.Counterparts im')
    (hy : im'.program.code[y]? = some (.goto (.address z))) (h : im.InStepBelow im' n x z) : im.InStepBelow im' n x y :=
  fun k hk => (h k hk).lag hc hy

/-- The then arm leaves by the condition's own jump in the first, and by a jump of its own in the second. -/
theorem joins_thenLeaves {skip : Option Patch} (hfall : b.fallThrough = c.label ∧ b'.fallThrough = d.label)
    (hthen : Took ⟨c.label, b, true⟩ c d c₁ d₁) (hskip : Skips skip d₁ d₂) (hfill : Filled b' false d₂.label d₂ d₃)
    (helse : Carries c₁ d₃ c₂ d₄) (hend : Patched skip.toList d₄ d₅) : Joins b b' c d c₂ d₅ := by
  have hstop : c₁.label = c.label := (hthen.label (Nat.le_refl _)).2.1
  have hright := hskip.extended.trans (hfill.extended.trans (helse.right.trans hend.extended))
  refine ⟨hthen.left.trans helse.left, hthen.right.trans hright, fun {im im' n} hl hstep => ?_⟩
  rw [hend.label] at hstep
  obtain ⟨x, y, hxy, hdecides, hjump⟩ := hthen.leaves (Nat.le_refl _) (hl.back helse.left hright)
  have hl₄ := hl.back (.refl helse.left.draft.clean) hend.extended
  have hno : im.InStep im' n c₁.label d₃.label := helse.carry hl₄ hstep
  rw [hstop, hfill.label] at hno
  refine ⟨_, _, _, _, hdecides, hfill.decides _ (helse.right.draft.becomes _ hl₄.becomes'), ?_, ?_⟩
  · show im.InStepBelow im' n x b'.fallThrough
    rw [hfall.2]
    exact inStepBelow_lag hl.counterparts hjump hxy
  · show im.InStepBelow im' n b.fallThrough d₂.label
    rw [hfall.1]
    exact hno.below

/-- The then arm has no code. The else arm leaves by the condition's own jump in the first, and by a jump of its own in the
    second. -/
theorem joins_elseLeaves (hfall : b.fallThrough = c.label ∧ b'.fallThrough = d.label) (hthen : Carries c d c₁ d₁)
    (hempty : c₁.label = c.label) (helse : Took ⟨c.label, b, false⟩ c₁ d₁ c₂ d₂)
    (hfill : Filled b' true d₂.label d₂ d₃) :
    Joins b b' c d c₂ d₃ := by
  have hstop : c₂.label = c.label := (helse.label (Nat.le_of_eq hempty.symm)).2.1
  refine ⟨hthen.left.trans helse.left, hthen.right.trans (helse.right.trans hfill.extended), fun {im im' n} hl hstep => ?_⟩
  have hl₂ := hl.back (.refl helse.left.draft.clean) hfill.extended
  obtain ⟨x, y, hxy, hdecides, hjump⟩ := helse.leaves (Nat.le_of_eq hempty.symm) hl₂
  rw [hthen.still.1 hempty] at hjump
  refine ⟨_, _, _, _, hdecides, hfill.decides _ hl.becomes', ?_, ?_⟩
  · show im.InStepBelow im' n b.fallThrough d₂.label
    rw [hfall.1, ← hstop, ← hfill.label]
    exact hstep.below
  · show im.InStepBelow im' n x b'.fallThrough
    rw [hfall.2]
    exact inStepBelow_lag hl.counterparts hjump hxy

/-- The then arm has no code, so true jumps over the else arm. -/
theorem joins_elseOnly (hfall : b.fallThrough = c.label ∧ b'.fallThrough = d.label) (hthen : Carries c d c₁ d₁)
    (hempty : c₁.label = c.label) (helse : Carries c₁ d₁ c₂ d₂) (hfill : Filled b true c₂.label c₂ c₃)
    (hfill' : Filled b' true d₂.label d₂ d₃) : Joins b b' c d c₃ d₃ := by
  refine ⟨hthen.left.trans (helse.left.trans hfill.extended), hthen.right.trans (helse.right.trans hfill'.extended),
    fun {im im' n} hl hstep => ?_⟩
  rw [hfill.label, hfill'.label] at hstep
  have hno : im.InStep im' n c₁.label d₁.label := helse.carry (hl.back hfill.extended hfill'.extended) hstep
  rw [hempty, hthen.still.1 hempty] at hno
  refine ⟨_, _, _, _, hfill.decides _ hl.becomes, hfill'.decides _ hl.becomes', hstep.below, ?_⟩
  show im.InStepBelow im' n b.fallThrough b'.fallThrough
  rw [hfall.1, hfall.2]
  exact hno.below

/-- Both arms have code: false jumps to the else arm, and the then arm jumps over that unless it never ends. -/
theorem joins_bothArms {skip skip' : Option Patch} (hfall : b.fallThrough = c.label ∧ b'.fallThrough = d.label)
    (hthen : Carries c d c₁ d₁) (hskip : Skips skip c₁ c₂) (hskip' : Skips skip' d₁ d₂) (hsame : skip.isSome = skip'.isSome)
    (hfill : Filled b false c₂.label c₂ c₃) (hfill' : Filled b' false d₂.label d₂ d₃) (helse : Carries c₃ d₃ c₄ d₄)
    (hend : Patched skip.toList c₄ c₅) (hend' : Patched skip'.toList d₄ d₅) : Joins b b' c d c₅ d₅ := by
  have hleft := hfill.extended.trans (helse.left.trans hend.extended)
  have hright := hfill'.extended.trans (helse.right.trans hend'.extended)
  refine ⟨hthen.left.trans (hskip.extended.trans hleft), hthen.right.trans (hskip'.extended.trans hright),
    fun {im im' n} hl hstep => ?_⟩
  have hl₂ := hl.back hleft hright
  have hl₄ := hl.back hend.extended hend'.extended
  have hl₃ := hl₄.back helse.left helse.right
  rw [hend.label, hend'.label] at hstep
  have hno : im.InStep im' n c₂.label d₂.label := by
    rw [← hfill.label, ← hfill'.label]
    exact helse.carry hl₄ hstep
  have hover : im.InStep im' n c₁.label d₁.label := by
    cases skip with
    | none =>
      obtain rfl : skip' = none := by simpa using hsame.symm
      rw [← hskip.still rfl, ← hskip'.still rfl]
      exact hno
    | some p =>
      obtain ⟨q, rfl⟩ : ∃ q, skip' = some q := Option.isSome_iff_exists.1 hsame.symm
      have hat := hskip.jump p rfl _ _ hl₂.becomes (hend.aims _ hl.becomes p (by simp))
      have hat' := hskip'.jump q rfl _ _ hl₂.becomes' (hend'.aims _ hl.becomes' q (by simp))
      exact .goto hl.counterparts hat hat' hstep.below
  have hyes : im.InStep im' n c.label d.label := hthen.carry (hl₂.back hskip.extended hskip'.extended) hover
  refine ⟨_, _, _, _, hfill.decides _ hl₃.becomes, hfill'.decides _ hl₃.becomes', ?_, hno.below⟩
  show im.InStepBelow im' n b.fallThrough b'.fallThrough
  rw [hfall.1, hfall.2]
  exact hyes.below

end Output

/-- The jump over the else arm, unless the then arm never ends. -/
def jumpOver (type : ValueType) : Lower (Option Patch) := if type ≠ .unreachable then some <$> gotoPending else pure none

theorem bothArms_eq (ctx : Context) (w : Walk) (b : Branch) (thenArm elseArm : NodeId) (target : Option TypedSlot) :
    bothArms ctx w b thenArm elseArm target = (do
      let n ← ctx.node thenArm
      let skip ← jumpOver n.type
      resolveHere b false
      let _ ← arm ctx w elseArm target none
      landHere skip) := by
  unfold bothArms jumpOver resolveHere
  simp only [bind_assoc]
  refine congrArg (ctx.node thenArm >>= ·) (funext fun n => ?_)
  split
  · rfl
  · rfl

theorem edits_jumpOver (type : ValueType) : Edits (jumpOver type) fun skip c c' =>
    Skips skip c c' ∧ skip.isSome = decide (type ≠ .unreachable) where
  drafts := by
    unfold jumpOver
    split
    · exact .bind (.drafting _) fun _ => .pure
    · exact .pure
  ok {s skip d} hclean hr := by
    unfold jumpOver at hr
    by_cases htype : type = .unreachable
    · rw [if_neg (by simpa using htype)] at hr
      obtain ⟨hclean', rfl, hsame⟩ := Edits.pure.ok hclean hr
      rw [hsame]
      exact ⟨hclean', ⟨.refl hclean, fun _ => rfl, nofun⟩, by simp [htype]⟩
    · rw [if_pos htype] at hr
      obtain ⟨p, hgoto, rfl⟩ := map_ok hr
      obtain ⟨rfl, hd⟩ := gotoPending_ok hgoto
      obtain rfl : d = s.draft.add (.goto .pending) := congrArg State.draft hd
      have hbefore := Draft.before_add hclean (.goto .pending)
      refine ⟨hbefore.clean, ⟨.redraft hbefore, nofun, fun p hp code a hcode haims => ?_⟩, by simp [htype]⟩
      cases hp
      exact hcode.jump_at ((Draft.getElem?_push _ _ _).trans (if_pos rfl)) haims

theorem edits_landHere (skip : Option Patch) : Edits (landHere skip) fun _ c c' => Patched skip.toList c c' where
  drafts := by
    cases skip with
    | none => exact .pure
    | some p => exact .bind (.drafting _) fun _ => .drafting _
  ok {s _ d} hclean hr := by
    cases skip with
    | none =>
      obtain ⟨hclean', -, hsame⟩ := Edits.pure.ok hclean hr
      rw [hsame]
      exact ⟨hclean', .refl hclean, rfl, fun _ _ => nofun⟩
    | some p =>
      obtain ⟨here, s₁, hlabel, hr₁⟩ := bind_ok hr
      obtain ⟨rfl, rfl⟩ := label_ok hlabel
      obtain ⟨d', hpatch, hd⟩ := drafting_ok hr₁
      obtain rfl : d = d' := congrArg State.draft hd
      obtain ⟨hbefore, hlabel, haims⟩ := before_patchEdit hclean hpatch
      refine ⟨hbefore.clean, .redraft hbefore, hlabel, fun code hcode q hq => ?_⟩
      obtain rfl := List.mem_singleton.1 hq
      exact haims code hcode

namespace Walk.Twins

variable {b b' : Branch} {c d : Output} {thenArm elseArm : NodeId} {target : Option TypedSlot}

theorem arm_none (hw : w.Twins ctx w') (id : NodeId) (target : Option TypedSlot) :
    Paced (· = false) (arm ctx w id target none) (arm ctx.plain w' id target none) := (hw.forward id target none).inRegion.paced

/-- After a then arm that took the tail over, the second alone has to get past the jump that it has instead. -/
theorem thenLeaves (hw : w.Twins ctx w') (ht : Twin s t) (hfall : b.fallThrough = c.label ∧ b'.fallThrough = d.label)
    (hid : ctx.function.Valueless thenArm) (hthen : Took ⟨c.label, b, true⟩ c d s.output t.output) :
    Tandem s t (arm ctx w elseArm target none) (bothArms ctx.plain w' b' thenArm elseArm target) fun _ _ c' d' =>
      Joins b b' c d c' d' := by
  obtain ⟨n, hn, -⟩ := hid
  have hnode : ctx.plain.node thenArm = pure n := by
    unfold Context.node
    rw [show ctx.plain.function = ctx.function from rfl, hn]
  rw [← bind_pure (arm ctx w elseArm target none), bothArms_eq, hnode, pure_bind]
  refine .edits_second ht (edits_jumpOver n.type) fun skip t₁ ht₁ hskip => ?_
  refine .edits_second ht₁ (edits_resolveHere b' false) fun _ t₂ ht₂ hfill => ?_
  refine (hw.arm_none elseArm target s t₂ ht₂).bind fun _ _ s₃ t₃ ht₃ helse => ?_
  refine (Tandem.edits ht₃ .pure (edits_landHere skip)).post fun _ _ c' d' _ hV => ?_
  obtain ⟨⟨-, rfl⟩, hend⟩ := hV
  exact joins_thenLeaves hfall hthen hskip.1 hfill helse.2.2 hend

theorem elseOnly (hw : w.Twins ctx w') (ht : Twin s t) (hfall : b.fallThrough = c.label ∧ b'.fallThrough = d.label)
    (hthen : Carries c d s.output t.output) (hempty : s.output.label = c.label) :
    Tandem s t (elseOnly ctx w b c.label elseArm target) (elseOnly ctx.plain w' b' d.label elseArm target) fun _ _ c' d' =>
      Joins b b' c d c' d' := by
  refine ((hw.forward elseArm target (ctx.offer c.label b false)).inRegion s t ht).bind fun taken taken' s₁ t₁ ht₁ hV => ?_
  obtain ⟨rfl, hfares⟩ := hV
  cases taken with
  | true =>
    obtain ⟨-, o, ho, htook⟩ := hfares
    obtain rfl := offer_eq ho
    refine (Tandem.edits ht₁ .pure (edits_resolveHere b' true)).post fun _ _ c' d' _ hV => ?_
    obtain ⟨⟨-, rfl⟩, hfill⟩ := hV
    exact joins_elseLeaves hfall hthen hempty htook hfill
  | false =>
    refine (Tandem.edits ht₁ (edits_resolveHere b true) (edits_resolveHere b' true)).post fun _ _ _ _ _ hfill => ?_
    exact joins_elseOnly hfall hthen hempty hfares hfill.1 hfill.2

theorem bothArms (hw : w.Twins ctx w') (ht : Twin s t) (hfall : b.fallThrough = c.label ∧ b'.fallThrough = d.label)
    (hthen : Carries c d s.output t.output) : Tandem s t (bothArms ctx w b thenArm elseArm target)
      (bothArms ctx.plain w' b' thenArm elseArm target) fun _ _ c' d' => Joins b b' c d c' d' := by
  rw [bothArms_eq, bothArms_eq]
  refine (blind_node ctx thenArm).first ht fun n s₁ t₁ ht₁ hs htt => ?_
  rw [← hs, ← htt] at hthen
  refine (Tandem.edits ht₁ (edits_jumpOver n.type) (edits_jumpOver n.type)).bind fun skip skip' s₂ t₂ ht₂ hskips => ?_
  obtain ⟨⟨hskip, hsome⟩, hskip', hsome'⟩ := hskips
  refine (Tandem.edits ht₂ (edits_resolveHere b false) (edits_resolveHere b' false)).bind fun _ _ s₃ t₃ ht₃ hfill => ?_
  refine (hw.arm_none elseArm target s₃ t₃ ht₃).bind fun _ _ s₄ t₄ ht₄ helse => ?_
  refine (Tandem.edits ht₄ (edits_landHere skip) (edits_landHere skip')).post fun _ _ _ _ _ hend => ?_
  exact joins_bothArms hfall hthen hskip hskip' (hsome.trans hsome'.symm) hfill.1 hfill.2 helse.2.2 hend.1 hend.2

theorem conditional (hw : w.Twins ctx w') (id condition thenArm elseArm : NodeId) (hint : Option TypedSlot) :
    Paced (·.taken = false) (conditional ctx w id condition thenArm elseArm hint)
      (conditional ctx.plain w' id condition thenArm elseArm hint) := by
  intro s t ht
  refine (blind_demandedSlot ctx id hint).first ht fun target s₁ t₁ ht₁ hs htt => ?_
  refine (hw.condition condition s₁ t₁ ht₁).bind fun b b' s₂ t₂ ht₂ hbranches => .label ?_
  rw [hs, htt] at hbranches
  have hdone : ∀ {s₄ t₄ : State}, Twin s₄ t₄ → Joins b b' s₂.output t₂.output s₄.output t₄.output →
      Tandem s₄ t₄ (pure ⟨target, false⟩) (pure ⟨target, false⟩) fun (v v' : Visited) c d =>
        v = v' ∧ v.taken = false ∧ Carries s.output t.output c d :=
    fun ht₄ hjoins => .pure ht₄ ⟨rfl, rfl, hbranches.joined hjoins⟩
  refine ((hw.forward thenArm target (ctx.offer s₂.output.label b true)).inRegion s₂ t₂ ht₂).bind
    fun taken taken' s₃ t₃ ht₃ hV => ?_
  obtain ⟨rfl, hfares⟩ := hV
  cases taken with
  | true =>
    obtain ⟨hid, o, ho, htook⟩ := hfares
    obtain rfl := offer_eq ho
    have hmore : t₃.output.label = t₂.output.label + 1 := (htook.label (Nat.le_refl _)).2.2
    show Tandem s₃ t₃ (arm ctx w elseArm target none >>= fun _ => (pure ⟨target, false⟩ : Lower Visited))
      (if t₃.output.label = t₂.output.label then _ else _) _
    rw [if_neg (by omega)]
    exact (hw.thenLeaves ht₃ hbranches.fall hid htook).bind fun _ _ s₄ t₄ ht₄ hjoins => hdone ht₄ hjoins
  | false =>
    have hthen : Carries s₂.output t₂.output s₃.output t₃.output := hfares
    refine .label ?_
    by_cases hempty : s₃.output.label = s₂.output.label
    · rw [if_pos hempty, if_pos (hthen.still.1 hempty)]
      exact (hw.elseOnly ht₃ hbranches.fall hthen hempty).bind fun _ _ s₄ t₄ ht₄ hjoins => hdone ht₄ hjoins
    · rw [if_neg hempty, if_neg fun he => hempty (hthen.still.2 he)]
      exact (hw.bothArms ht₃ hbranches.fall hthen).bind fun _ _ s₄ t₄ ht₄ hjoins => hdone ht₄ hjoins

end Walk.Twins

/-! ## The walk -/

/-- One node, in a function whose nodes have the kinds that their expressions give them. -/
theorem Walk.Twins.visit (hw : w.Twins ctx w') (hf : ctx.function.WellTyped) (id : NodeId) (hint : Option TypedSlot)
    (offer : Option Offer) : Visiting ctx.function id offer (visit ctx w id hint offer) (visit ctx.plain w' id hint none) := by
  cases hn : ctx.function.node? id with
  | none =>
    have hnode : ctx.node id = throw (.missing (.node id)) := by
      unfold Context.node
      rw [hn]
    have hnode' : ctx.plain.node id = throw (.missing (.node id)) := hnode
    unfold Lowering.visit
    rw [hnode, hnode']
    exact fun _ _ _ => .fail
  | some n =>
    have hnode : ctx.node id = pure n := by
      unfold Context.node
      rw [hn]
    have hnode' : ctx.plain.node id = pure n := hnode
    unfold Lowering.visit
    rw [hnode, hnode', pure_bind, pure_bind]
    have hexit : n.expr.fixedType? ctx.function.scope = .ok (some .unreachable) → ctx.function.Valueless id :=
      fun hfixed => hf.valueless hn hfixed rfl
    dsimp only
    cases he : n.expr with
    | sequence first second => exact hw.sequence hf hn he hint offer
    | block name body => exact (hw.block id name body hint).visiting
    | exitBlock name => exact visiting_exitBlock (hexit (by rw [he]; rfl)) name offer
    | loop name preheader body => exact (hw.loop name preheader body).visiting
    | exitLoop name => exact visiting_exitLoop (hexit (by rw [he]; rfl)) name offer
    | continueLoop name => exact visiting_continueLoop (hexit (by rw [he]; rfl)) name offer
    | conditional condition thenArm elseArm => exact (hw.conditional id condition thenArm elseArm hint).visiting
    | nullary op => exact (paced_nullary id hint op).visiting
    | unary op operand => exact (hw.unary id op operand hint).visiting
    | binary op first second => exact (hw.binary id op first second hint).visiting
    | const value => exact (paced_constant id hint fun _ => rfl).visiting
    | text value => exact (paced_text id value hint).visiting
    | param index => exact (paced_param id index).visiting
    | getVar index => exact (paced_getVar id index).visiting
    | setVar index value => exact (hw.setVar id index value).visiting
    | getField field object => exact (hw.getField id field object hint).visiting
    | getStatic field => exact (paced_getStatic id field hint).visiting
    | call method kind args => exact (hw.call id method kind args hint).visiting
    | arrayElement array index => exact (hw.arrayElement id array index hint).visiting
    | setArrayElement array index value => exact (hw.setArrayElement array index value).visiting
    | cast value className => exact (hw.cast id value className hint).visiting
    | instanceOf value className => exact (hw.instanceOf id value className hint).visiting
    | boundsCheck index array lower => exact (hw.boundsCheck id index array lower hint).visiting
    | _ => exact fun _ _ _ => .fail

/-- The bound on the depth is the same for both, and so are the marks before and after. -/
theorem Tandem.entering {x : Lower α} {y : Lower β} {slot : α → Option TypedSlot} {slot' : β → Option TypedSlot} (ht : Twin s t)
    (depth : Nat) (id : NodeId) (hslot : ∀ a b c d, V a b c d → slot' b = slot a)
    (h : ∀ s' t', Twin s' t' → s'.output = s.output → t'.output = t.output → Tandem s' t' x y V) :
    Tandem s t (entering ctx depth id slot x) (entering ctx.plain depth id slot' y) V := by
  unfold Lowering.entering
  rw [show ctx.plain.options.maxDepth = ctx.options.maxDepth from rfl]
  split
  · exact .fail
  · refine (blind_setProgress id .underway).first ht fun _ s₁ t₁ ht₁ hs htt => ?_
    refine (h s₁ t₁ ht₁ hs htt).bind fun a b s₂ t₂ ht₂ hV => ?_
    refine (blind_node ctx id).first ht₂ fun n s₃ t₃ ht₃ hs₃ htt₃ => ?_
    refine (blind_regionOf n.expr).first ht₃ fun r s₄ t₄ ht₄ hs₄ htt₄ => ?_
    rw [hslot a b _ _ hV]
    refine (blind_setProgress id _).first ht₄ fun _ s₅ t₅ ht₅ hs₅ htt₅ => .pure ht₅ ?_
    rw [hs₅, htt₅, hs₄, htt₄, hs₃, htt₃]
    exact hV

theorem Walk.Twins.visiting_build (hw : w.Twins ctx w') (hf : ctx.function.WellTyped) (depth : Nat) (id : NodeId) (u : Usage)
    (hint : Option TypedSlot) (offer : Option Offer) : Visiting ctx.function id offer
      (Lowering.build ctx depth w id u hint offer) (Lowering.build ctx.plain depth w' id u hint none) := by
  intro s t ht
  refine (blind_nodeState id).first ht fun n s₁ t₁ ht₁ hs htt => ?_
  rw [← hs, ← htt]
  cases n.progress with
  | underway => exact .fail
  | built slot region =>
    refine .read ?_
    rw [show t₁.regions = s₁.regions by rw [ht₁.books]; rfl]
    have hbuilt : Paced (·.taken = false) (do consume id u; checkSlot id u { slot })
        (do consume id u; checkSlot id u { slot }) :=
      .bind (blind_consume id u).paced fun _ _ => .ite .fail (.pure rfl)
    exact (Paced.ite .fail hbuilt).visiting s₁ t₁ ht₁
  | untouched =>
    refine (blind_consume id u).first ht₁ fun _ s₂ t₂ ht₂ hs₂ htt₂ => ?_
    have hentered : Tandem s₂ t₂ (Lowering.entering ctx depth id (·.slot) (Lowering.visit ctx w id hint offer))
        (Lowering.entering ctx.plain depth id (·.slot) (Lowering.visit ctx.plain w' id hint none)) fun v v' c d =>
          v' = ⟨v.slot, false⟩ ∧ Fares ctx.function id offer v.taken s₂.output t₂.output c d :=
      .entering ht₂ depth id (fun _ _ _ _ hV => by rw [hV.1]) fun s' t' ht' hs' htt' =>
        hs' ▸ htt' ▸ hw.visit hf id hint offer s' t' ht'
    refine hentered.bind fun v v' s₃ t₃ ht₃ hV => ?_
    obtain ⟨rfl, hfares⟩ := hV
    unfold checkSlot
    rw [hs₂, htt₂] at hfares
    split
    · exact .fail
    · exact .pure ht₃ ⟨rfl, hfares⟩

theorem Walk.Twins.tandem_condition (hw : w.Twins ctx w') (hf : ctx.function.WellTyped) (depth : Nat) (id : NodeId)
    (s t : State) (ht : Twin s t) : Tandem s t (Lowering.condition ctx depth w id) (Lowering.condition ctx.plain depth w' id)
      fun b b' c d => Branches b b' s.output t.output c d := by
  refine (blind_expectType ctx id .boolean).first ht fun _ s₁ t₁ ht₁ hs₁ htt₁ => ?_
  refine (blind_composable ctx id).first ht₁ fun k s₂ t₂ ht₂ hs₂ htt₂ => ?_
  rw [← hs₁, ← htt₁, ← hs₂, ← htt₂]
  cases k with
  | some k =>
    refine (blind_consume id .value).first ht₂ fun _ s₃ t₃ ht₃ hs₃ htt₃ => ?_
    rw [← hs₃, ← htt₃]
    exact .entering ht₃ depth id (fun _ _ _ _ _ => rfl) fun s' t' ht' hs' htt' => hs' ▸ htt' ▸ hw.compose k s' t' ht'
  | none =>
    have hself : Walk.Twins ctx { w with build := Lowering.build ctx depth w }
        { w' with build := Lowering.build ctx.plain depth w' } :=
      ⟨hw.visiting_build hf depth, hw.condition⟩
    exact hself.branchOn id s₂ t₂ ht₂

/-- The walk with adopted tails and the walk without are in tandem. -/
theorem walk_twins (hf : ctx.function.WellTyped) (room depth : Nat) :
    (walk ctx room depth).Twins ctx (walk ctx.plain room depth) := by
  induction room generalizing depth with
  | zero => exact ⟨fun _ _ _ _ _ _ _ => .fail, fun _ _ _ _ => .fail⟩
  | succ room ih =>
    have inner := ih (depth + 1)
    exact ⟨inner.visiting_build hf depth, inner.tandem_condition hf depth⟩

end SlotCode.Lowering
