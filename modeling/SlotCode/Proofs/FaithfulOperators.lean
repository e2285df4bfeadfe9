/-
  SlotCode.Proofs.FaithfulOperators — constants and operators are lowered as they are evaluated.

  The instruction of an operator fires after the operands, into the node's own slot. What
  differs between operators is the instruction and the operation that it applies, so there
  is one lemma for each number of operands.
-/

import SlotCode.Proofs.Faithful

namespace SlotCode

open Lowering Arith

variable {S : Scene} {g : Landings} {A : Anchor} {open_ : List (BlockId × Bool)} {s₀ s t : State} {σ τ : Store}
  {m : Machine} {x : TypedSlot} {id a b : NodeId} {hint : Option TypedSlot} {offer : Option Offer} {demanded : Bool}
  {w : Walk} {ev : ChildEval} {visited : Visited}

/-! ## Single edits -/

namespace Lowering

theorem gotoPending_ok {p : Patch} (hr : gotoPending s = .ok (p, t)) :
    p = ⟨s.draft.label⟩ ∧ t = { s with draft := s.draft.add (.goto .pending) } := by
  obtain ⟨_, hadd, rfl⟩ := drafting_ok hr
  have := drafting_edit_ok hadd
  cases this
  exact ⟨rfl, rfl⟩

theorem Books.emit (h : Books S.ctx s) (ins : Instruction) : Along S.ctx s { s with draft := s.draft.add ins } :=
  h.along.redraft (Draft.before_add h.clean ins)

end Lowering

theorem Forwarded.untaken {e : Eval (Option Operand)} {target : Option TypedSlot} {took : Bool}
    (h : Forwarded S e id open_ target none s t took) : took = false := by
  cases took with
  | false => rfl
  | true =>
    obtain ⟨o, ho, -⟩ := h.taken rfl
    cases ho

/-- A child that runs for its effects, and what comes after it. -/
theorem Forwarded.effects {β : Type} {k : Eval β} {lo hi q : Nat} {R : β → Store → Machine → Prop} {took : Bool}
    (h : Forwarded S (ev false a) a open_ none none s t took) (hr : Ready S g A open_ s s t σ m) (hlo : lo ≤ s.draft.label)
    (hhi : t.draft.label ≤ hi)
    (hk : ∀ τ m₁, m₁.pc = t.draft.label → S.ctx.function.Completes a → Agrees S A none τ m₁ →
      Follows S g A lo hi 0 (k.on τ) m₁ q R) :
    Follows S g A lo hi 0 ((Reading.effect ev a >>= fun _ => k).on σ) m q R := by
  have hrun : Follows S g A lo hi 0 ((Reading.effect ev a).on σ) m 0 fun _ τ m₁ =>
      m₁.pc = t.draft.label ∧ S.ctx.function.Completes a ∧ Agrees S A none τ m₁ := by
    refine ((h.runs h.untaken hr).widen hlo hhi).bind ?_
    rintro o τ m₁ ⟨hpc, hc, harrived⟩
    cases harrived with
    | nothing ha => exact .ok (Nat.le_refl 0) ⟨hpc, hc, ha⟩
  refine hrun.bind ?_
  rintro _ τ m₁ ⟨hpc, hc, ha⟩
  exact hk τ m₁ hpc hc ha

/-! ## The last instruction of an operator -/

/-- The instruction that writes the node's value. -/
theorem Slotted.fires {s' t' : State} {ins : Instruction} {result : Except Fault Value} {lo p : Nat} {σ₀ : Store}
    {m₀ : Machine} (h : Slotted S s₀ s' t' id demanded hint (some x))
    (hr : Ready S g A open_ s₀ s { t' with draft := t'.draft.add ins } σ₀ m₀) (hc : S.ctx.function.Completes id)
    (hn : ins ≠ .nop) (hj : Draft.isPendingJump ins = false) (ha : Agrees S A none σ m) (hpc : m.pc = t'.draft.label)
    (hlo : lo ≤ m.pc)
    (hperforms : S.code[m.pc]? = some ins → m.registers.has x = true → S.image.Performs m x result) :
    Follows S g A lo (t'.draft.add ins).label p ((Eval.lift result >>= fun v => pure (some (.value v))).on σ) m 0
      (Ends S A id { t' with draft := t'.draft.add ins } hint (some x)) := by
  have htarget := h.target x rfl
  have hhas : m.registers.has x = true := hr.final.covered ha htarget.has
  have hp := hperforms (hpc ▸ hr.final.emitted hn hj) hhas
  have hlabel : (t'.draft.add ins).label = t'.draft.label + 1 := Draft.label_add _ _
  refine .performs hp hlo (by omega) ha htarget.loose hhas fun v hv => ?_
  refine .ok (Nat.zero_le _) ⟨?_, hc, ?_⟩
  · show m.pc + 1 = (t'.draft.add ins).label
    omega
  · exact h.delivers (Books.emit h.along.books ins).since hr.live hv

namespace Entry

/-- A node without children: one instruction if its value is read, nothing otherwise. -/
theorem leaf {e : Eval (Option Operand)} (make : TypedSlot → Instruction) (result : World → Except Fault Value)
    (hS : S.Valid) (h : Entry S s₀ s id demanded open_ hint) (hc : S.ctx.function.Completes id)
    (hoff : demanded = false → ∀ σ, e.on σ = some (.ok none, σ))
    (hon : demanded = true → ∀ g, Final S g s → ∀ σ,
      e.on σ = (Eval.lift (result σ.world) >>= fun v => pure (some (.value v))).on σ)
    (hn : ∀ r, make r ≠ .nop) (hj : ∀ r, Draft.isPendingJump (make r) = false)
    (hmake : ∀ r m, S.ctx.function.kind? id = some r.kind → S.code[m.pc]? = some (make r) → m.registers.has r = true →
      S.image.Performs m r (result m.world))
    (hr : (S.ctx.demandedSlot id hint >>= fun
      | none => pure {}
      | some r => emit (make r) >>= fun _ => pure { slot := some r }) s = .ok (visited, t)) :
    Lowered S e id demanded open_ hint offer s₀ s t visited := by
  obtain ⟨r, s₁, hslot, hr⟩ := bind_ok hr
  have hslotted := h.demandedSlot hS hslot
  cases r with
  | none =>
    cases hr
    refine hslotted.lowered (.refl h.along.books.clean) hslotted.along.books.along fun hready => ?_
    rw [hoff hslotted.slot.symm]
    exact .ok (Nat.le_refl 0) ⟨hready.pc.trans (congrArg _ hslotted.draft).symm, hc, .nothing hready.agrees⟩
  | some x =>
    obtain ⟨_, s₂, hemit, hr⟩ := bind_ok hr
    cases hr
    obtain rfl := emit_ok hemit
    refine hslotted.lowered (.refl h.along.books.clean) (Books.emit hslotted.along.books _) fun {_ _ σ m} hready => ?_
    have hkind := (hslotted.target x rfl).kind
    have hworld : m.world = σ.world := hready.agrees.world
    rw [hon hslotted.slot.symm _ ((hslotted.grows.trans (Books.emit hslotted.along.books _).since.toGrows).final hready.final)]
    refine hslotted.fires hready hc (hn x) (hj x) hready.agrees (hready.pc.trans (congrArg _ hslotted.draft).symm)
      (Nat.le_of_eq hready.pc.symm) fun hcode hhas => ?_
    exact hworld ▸ hmake x m hkind hcode hhas

/-- A child that only runs, for a node that has no value. -/
theorem ofEffect {e : Eval (Option Operand)} (h : Entry S s₀ s id false open_ hint)
    (hchild : Along S.ctx s t)
    (hruns : ∀ {g A σ m}, Ready S g A open_ s s t σ m →
      Follows S g A s.draft.label t.draft.label 0 (e.on σ) m 0 fun o τ m₁ =>
        m₁.pc = t.draft.label ∧ o = none ∧ Agrees S A none τ m₁)
    (hc : S.ctx.function.Completes id) : Lowered S e id false open_ hint offer s₀ s t {} := by
  refine (h.advance hchild).unslotted.lowered hchild.since.toGrows hchild.books.along fun hready => ?_
  have hlive : ∀ y, _ → s.pool.isLive y = true := fun y hy => h.along.since.live y (hready.live y hy)
  refine (hruns ⟨hready.final, hready.scope, hlive, hready.agrees, hready.pc⟩).post ?_
  rintro o τ m₁ ⟨hpc, rfl, ha⟩
  exact ⟨hpc, hc, .nothing ha⟩

/-- A pure operator on one operand. -/
theorem onOperand {fire : World → Value → Except Fault Value} {make : TypedSlot → Slot → Instruction}
    (hS : S.Valid) (hw : Builds S w ev) (h : Entry S s₀ s id demanded open_ hint) (hc : S.ctx.function.Completes id)
    (hst : S.ctx.function.Stands a (S.ctx.function.reads demanded a .forward) open_)
    (hn : ∀ r y, make r y ≠ .nop) (hj : ∀ r y, Draft.isPendingJump (make r y) = false)
    (hmake : ∀ r y m v, S.ctx.function.kind? id = some r.kind → S.ctx.function.kind? a = some y.kind →
      S.code[m.pc]? = some (make r y.slot) → m.registers.has r = true → m.registers.get? y = some v →
        S.image.Performs m r (fire m.world v))
    (hr : Lowering.onOperand S.ctx w id a hint make s = .ok (visited, t)) :
    Lowered S (S.reading.ofOperand ev demanded fire a) id demanded open_ hint offer s₀ s t visited := by
  obtain ⟨read, _, hread, hr⟩ := bind_ok hr
  cases hread
  rw [hS.isDemanded h.along.books h.stands] at hr
  cases demanded with
  | false =>
    obtain ⟨took, s₁, heffect, hr⟩ := bind_ok hr
    cases hr
    have hchild := hw.effect hst h.along.books offerFits_none heffect
    refine h.ofEffect hchild.along (fun hready => ?_) hc
    exact hchild.effects hready (Nat.le_refl _) (Nat.le_refl _) fun τ m₁ hpc _ ha =>
      .ok (Nat.le_refl 0) ⟨hpc, rfl, ha⟩
  | true =>
    obtain ⟨y, s₁, hoperand, hr⟩ := bind_ok hr
    obtain ⟨_, s₂, hrelease, hr⟩ := bind_ok hr
    obtain ⟨r, s₃, hslot, hr⟩ := bind_ok hr
    obtain ⟨_, s₄, hemit, hr⟩ := bind_ok hr
    cases hr
    obtain rfl := emit_ok hemit
    have hchild := hw.operand hst h.along.books hoperand
    have hfreed := release_ok hchild.along hchild.lent hrelease
    have hslotted := (h.advance hfreed.along).resultSlot hslot
    have hdraft : s₃.draft = s₁.draft := hslotted.draft.trans hfreed.draft
    refine hslotted.lowered hfreed.along.since.toGrows (Books.emit hslotted.along.books _) fun hready => ?_
    have hgrows := (hfreed.grows.trans hslotted.grows).trans (Books.emit hslotted.along.books (make r y.slot)).since.toGrows
    have hlabel : (s₃.draft.add (make r y.slot)).label = s₁.draft.label + 1 := by rw [Draft.label_add, hdraft]
    have hrun := hchild.follows h.along.since ⟨hgrows.final hready.final, hready.scope, hready.live, hready.agrees, hready.pc⟩
    refine (hrun.widen (Nat.le_refl _) (by show _ ≤ (s₃.draft.add _).label; omega)).bind ?_
    rintro o τ m₁ ⟨hpc, ha, hheld, -⟩
    obtain ⟨v, hv, hy⟩ := hheld.read ha
    refine .silent hv (.silent (Eval.on_get τ) ?_)
    rw [← ha.world]
    refine hslotted.fires hready hc (hn r _) (hj r _) ha (by rw [hpc, hdraft]) (hpc ▸ hchild.along.since.label) ?_
    exact fun hcode hhas => hmake r y m₁ v (hslotted.target r rfl).kind hchild.kind hcode hhas hy

/-- A pure operator on two operands. -/
theorem onOperands {fire : World → Value → Value → Except Fault Value} {make : TypedSlot → Slot → Slot → Instruction}
    (hS : S.Valid) (hw : Builds S w ev) (h : Entry S s₀ s id demanded open_ hint) (hc : S.ctx.function.Completes id)
    (hsta : S.ctx.function.Stands a (S.ctx.function.reads demanded a .forward) open_)
    (hstb : S.ctx.function.Stands b (S.ctx.function.reads demanded b .forward) open_)
    (hn : ∀ r y z, make r y z ≠ .nop) (hj : ∀ r y z, Draft.isPendingJump (make r y z) = false)
    (hmake : ∀ r y z m v u, S.ctx.function.kind? id = some r.kind → S.ctx.function.kind? a = some y.kind →
      S.ctx.function.kind? b = some z.kind → S.code[m.pc]? = some (make r y.slot z.slot) → m.registers.has r = true →
        m.registers.get? y = some v → m.registers.get? z = some u → S.image.Performs m r (fire m.world v u))
    (hr : Lowering.onOperands S.ctx w id a b hint make s = .ok (visited, t)) :
    Lowered S (S.reading.ofOperands ev demanded fire a b) id demanded open_ hint offer s₀ s t visited := by
  obtain ⟨read, _, hread, hr⟩ := bind_ok hr
  cases hread
  rw [hS.isDemanded h.along.books h.stands] at hr
  cases demanded with
  | false =>
    obtain ⟨_, s₁, heffect₁, hr⟩ := bind_ok hr
    obtain ⟨_, s₂, heffect₂, hr⟩ := bind_ok hr
    cases hr
    have hfirst := hw.effect hsta h.along.books offerFits_none heffect₁
    have hsecond := hw.effect hstb hfirst.along.books offerFits_none heffect₂
    refine h.ofEffect (hfirst.along.trans hsecond.along) (fun hready => ?_) hc
    have hfinal := hsecond.along.since.toGrows.final hready.final
    refine hfirst.effects ⟨hfinal, hready.scope, hready.live, hready.agrees, hready.pc⟩ (Nat.le_refl _)
      hsecond.along.since.label fun τ m₁ hpc _ ha => ?_
    have hlive : ∀ y, _ → s₁.pool.isLive y = true := fun y hy => hfirst.along.since.live y (hready.live y hy)
    exact hsecond.effects ⟨hready.final, hready.scope, hlive, ha, hpc⟩ hfirst.along.since.label (Nat.le_refl _)
      fun τ m₁ hpc _ ha => .ok (Nat.le_refl 0) ⟨hpc, rfl, ha⟩
  | true =>
    obtain ⟨y, s₁, hoperand₁, hr⟩ := bind_ok hr
    obtain ⟨z, s₂, hoperand₂, hr⟩ := bind_ok hr
    obtain ⟨_, s₃, hrelease₂, hr⟩ := bind_ok hr
    obtain ⟨_, s₄, hrelease₁, hr⟩ := bind_ok hr
    obtain ⟨r, s₅, hslot, hr⟩ := bind_ok hr
    obtain ⟨_, s₆, hemit, hr⟩ := bind_ok hr
    cases hr
    obtain rfl := emit_ok hemit
    have hfirst := hw.operand hsta h.along.books hoperand₁
    have hsecond := hw.operand hstb hfirst.along.books hoperand₂
    have hboth := hfirst.along.trans hsecond.along
    have hfreed₂ := release_ok hboth (hsecond.lent.back hfirst.along.since) hrelease₂
    have hfreed₁ := release_ok hfreed₂.along ((hfirst.lent.since hsecond.along.since).freed hfreed₂) hrelease₁
    have hslotted := (h.advance hfreed₁.along).resultSlot hslot
    have hdraft : s₅.draft = s₂.draft := hslotted.draft.trans (hfreed₁.draft.trans hfreed₂.draft)
    refine hslotted.lowered hfreed₁.along.since.toGrows (Books.emit hslotted.along.books _) fun hready => ?_
    have hadded := Books.emit hslotted.along.books (make r y.slot z.slot)
    have hgrows := (hfreed₂.grows.trans hfreed₁.grows).trans (hslotted.grows.trans hadded.since.toGrows)
    have hlabel : (s₅.draft.add (make r y.slot z.slot)).label = s₂.draft.label + 1 := by rw [Draft.label_add, hdraft]
    have hlabel₁ := hsecond.along.since.label
    have hfinal := hgrows.final hready.final
    have hrun₁ := hfirst.follows h.along.since
      ⟨hsecond.along.since.toGrows.final hfinal, hready.scope, hready.live, hready.agrees, hready.pc⟩
    refine (hrun₁.widen (Nat.le_refl _) (by show _ ≤ (s₅.draft.add _).label; omega)).bind ?_
    rintro o₁ τ₁ m₁ ⟨hpc₁, ha₁, hheld₁, -⟩
    have hrun₂ := hsecond.follows (h.along.trans hfirst.along).since ⟨hfinal, hready.scope, hready.live, ha₁, hpc₁⟩
    refine (hrun₂.widen hfirst.along.since.label (by show _ ≤ (s₅.draft.add _).label; omega)).bind ?_
    rintro o₂ τ m₂ ⟨hpc, ha, hheld₂, hkept⟩
    obtain ⟨v, hv, hy⟩ := (hkept y o₁ hheld₁).read ha
    obtain ⟨u, hu, hz⟩ := hheld₂.read ha
    refine .silent hv (.silent hu (.silent (Eval.on_get τ) ?_))
    rw [← ha.world]
    refine hslotted.fires hready hc (hn r _ _) (hj r _ _) ha (by rw [hpc, hdraft]) (hpc ▸ hboth.since.label) ?_
    exact fun hcode hhas =>
      hmake r y z m₂ v u (hslotted.target r rfl).kind hfirst.kind hsecond.kind hcode hhas hy hz

end Entry

/-! ## Facts about one node -/

namespace Function

variable {f : Function} {n : Node}

/-- Where a value is read there is one. -/
theorem Stands.kind_isSome (h : f.Stands id demanded open_) (hd : demanded = true) : (f.kind? id).isSome = true := by
  cases h with
  | body => exact (Bool.and_eq_true_iff.1 hd).2
  | child => exact (Bool.and_eq_true_iff.1 hd).2

theorem Stands.unread (h : f.Stands id demanded open_) (hk : f.kind? id = none) : demanded = false := by
  cases demanded with
  | false => rfl
  | true =>
    have := h.kind_isSome rfl
    rw [hk] at this
    cases this

theorem kind?_of_node (hn : f.node? id = some n) : f.kind? id = n.type.kind? := by
  rw [kind?, hn]
  rfl

/-- The kind that the expression of a node gives it. -/
theorem WellShaped.kind_eq (h : f.WellShaped) (hst : f.Stands id demanded open_) (hn : f.node? id = some n)
    {type : ValueType} (hfix : n.expr.fixedType? f.scope = .ok (some type)) : f.kind? id = type.kind? := by
  have htyped := h.typed id n hst.reachable hn
  rw [TypedAs, hfix] at htyped
  rw [kind?_of_node hn]
  exact htyped.1

end Function

theorem Lowering.expectType_ok {ctx : Context} {type : ValueType} (hr : ctx.expectType id type s = .ok ((), t)) :
    t = s ∧ ctx.function.kind? id = type.kind? := by
  obtain ⟨n, s₁, hnode, hr⟩ := bind_ok hr
  unfold Context.node at hnode
  cases hn : ctx.function.node? id with
  | none => rw [hn] at hnode; cases hnode
  | some n' =>
    rw [hn] at hnode
    cases hnode
    dsimp only at hr
    split at hr
    · cases hr
    · rename_i hkind
      cases hr
      exact ⟨rfl, by rw [Function.kind?_of_node hn, Decidable.not_not.1 hkind]⟩

/-- Nothing was emitted before. -/
theorem Lowered.earlier {e : Eval (Option Operand)} {s₁ : State} (h : Lowered S e id demanded open_ hint offer s₀ s₁ t visited)
    (hs : Grows s s₁) (hd : s₁.draft = s.draft) : Lowered S e id demanded open_ hint offer s₀ s t visited := by
  refine ⟨h.along, hs.trans h.grows, h.touched, h.slot, h.placed, fun ht => ?_, fun hn _ _ _ _ hready => ?_⟩
  · obtain ⟨o, ho, htaken⟩ := h.taken ht
    exact ⟨o, ho, htaken.kind, hd ▸ htaken.start, htaken.stop, htaken.leaves⟩
  · rw [← hd]
    exact h.runs hn ⟨hready.final, hready.scope, hready.live, hready.agrees, hready.pc.trans (congrArg _ hd).symm⟩

/-! ## Constants -/

/-- What lowering a node promises, whatever its expression. -/
abbrev Visits (S : Scene) (ev : ChildEval) (n : Node) (id : NodeId) (demanded : Bool) (open_ : List (BlockId × Bool))
    (hint : Option TypedSlot) (offer : Option Offer) (s₀ s t : State) (v : Visited) : Prop :=
  Lowered S (S.reading.node ev demanded S.fuel n) id demanded open_ hint offer s₀ s t v

namespace Entry

variable {type : ValueType}

theorem const {value : Scalar} (hS : S.Valid) (h : Entry S s₀ s id demanded open_ hint)
    (hn : S.ctx.function.node? id = some ⟨.const value, type⟩)
    (hr : constant S.ctx id hint (.const · value) s = .ok (visited, t)) :
    Visits S ev ⟨.const value, type⟩ id demanded open_ hint offer s₀ s t visited := by
  refine h.leaf (fun r => .const r.slot value) (fun _ => .ok (.ofScalar value)) hS (hS.completes h.stands hn rfl) ?_ ?_ nofun
    (fun _ => rfl) ?_ hr
  · rintro rfl σ
    rfl
  · rintro rfl g hf σ
    rfl
  · intro r m hkind hcode hhas
    refine Image.performs_const hcode hhas ?_
    cases value <;> rw [hS.shaped.kind_eq h.stands hn rfl] at hkind <;> exact Option.some.inj hkind

theorem null (hS : S.Valid) (h : Entry S s₀ s id demanded open_ hint)
    (hn : S.ctx.function.node? id = some ⟨.nullary .null, type⟩)
    (hr : constant S.ctx id hint .null s = .ok (visited, t)) :
    Visits S ev ⟨.nullary .null, type⟩ id demanded open_ hint offer s₀ s t visited := by
  refine h.leaf (fun r => .null r.slot) (fun _ => .ok .null) hS (hS.completes h.stands hn rfl) ?_ ?_ nofun (fun _ => rfl) ?_ hr
  · rintro rfl σ
    rfl
  · rintro rfl g hf σ
    rfl
  · intro r m hkind hcode hhas
    rw [hS.shaped.kind_eq h.stands hn rfl] at hkind
    exact Image.performs_null hcode hhas (Option.some.inj hkind).symm

theorem nullary {op : NullaryOp} (hS : S.Valid) (h : Entry S s₀ s id demanded open_ hint)
    (hn : S.ctx.function.node? id = some ⟨.nullary op, type⟩)
    (hr : Lowering.nullary S.ctx id hint op s = .ok (visited, t)) :
    Visits S ev ⟨.nullary op, type⟩ id demanded open_ hint offer s₀ s t visited := by
  have hkind := hS.shaped.kind_eq h.stands hn rfl
  cases op with
  | null => exact h.null hS hn hr
  | void =>
    obtain rfl := h.stands.unread hkind
    cases hr
    refine h.ofEffect h.along.books.along (fun hready => ?_) (hS.completes h.stands hn rfl)
    exact .ok (Nat.le_refl 0) ⟨hready.pc, rfl, hready.agrees⟩
  | unreachable =>
    obtain rfl := h.stands.unread hkind
    obtain ⟨_, s₁, hemit, hr⟩ := bind_ok hr
    cases hr
    obtain rfl := emit_ok hemit
    refine h.unslotted.lowered (.refl h.along.books.clean) (Books.emit h.along.books _) fun {_ _ _ m} hready => ?_
    have hcode : S.code[m.pc]? = some .unreachable := hready.pc ▸ hready.final.emitted nofun rfl
    have hstep : S.image.step m = .failed (Fault.unreachable.at m.pc) m := by
      simp only [Scene.code] at hcode
      simp only [Image.step_eq, hcode, Image.effect]
      rfl
    refine .failed (.refl m) ⟨⟨Nat.le_of_eq hready.pc.symm, ?_⟩, hready.agrees.going, hstep⟩ hready.agrees
    rw [hready.pc]
    show s.draft.label < (s.draft.add .unreachable).label
    rw [Draft.label_add]
    exact Nat.lt_succ_self _

/-- Equal texts share one number, so the number leads back to the text's object. -/
theorem literal_eq (hS : S.Valid) {value : String} {index : Nat} (hf : Final S g t) (hi : t.texts[index]? = some value) :
    S.reading.literal value = S.image.texts[index]? := by
  have hnodup := hS.texts
  have hat : S.image.program.texts.toList[index]? = some value := by
    rw [Array.getElem?_toList]
    exact hf.texts index value hi
  obtain ⟨hlt, hget⟩ := List.getElem?_eq_some_iff.1 hat
  have hidx : S.image.program.texts.idxOf? value = some index := by
    rw [← S.image.program.texts.toArray_toList, List.idxOf?_toArray, List.idxOf?_eq_some_iff]
    refine ⟨hlt, hget, fun j hj he => ?_⟩
    have : j = index := (List.Nodup.getElem_inj_iff hnodup).1 (he.trans hget.symm)
    omega
  show (S.image.program.texts.idxOf? value).bind (S.image.texts[·]?) = _
  rw [hidx]
  rfl

theorem text {value : String} (hS : S.Valid) (h : Entry S s₀ s id demanded open_ hint)
    (hn : S.ctx.function.node? id = some ⟨.text value, type⟩)
    (hr : Lowering.text S.ctx id value hint s = .ok (visited, t)) :
    Visits S ev ⟨.text value, type⟩ id demanded open_ hint offer s₀ s t visited := by
  have hc := hS.completes h.stands hn rfl
  obtain ⟨read, _, hread, hr⟩ := bind_ok hr
  cases hread
  rw [hS.isDemanded h.along.books h.stands] at hr
  cases demanded with
  | false =>
    cases hr
    refine h.ofEffect h.along.books.along (fun hready => ?_) hc
    exact .ok (Nat.le_refl 0) ⟨hready.pc, rfl, hready.agrees⟩
  | true =>
    obtain ⟨index, s₁, hintern, hr⟩ := bind_ok hr
    obtain ⟨htargeted, hindex⟩ := intern_ok h.along.books.along hintern
    have h₁ := h.advance htargeted.along
    have hlowered : Lowered S (S.reading.node ev true S.fuel ⟨.text value, type⟩) id true open_ hint offer s₀ s₁ t visited := by
      refine h₁.leaf (fun r => .text r.slot index) (fun _ => (fun r => .ref (some r)) <$> Fault.expect S.image.texts[index]?)
        hS hc nofun (fun _ g hf σ => ?_) nofun (fun _ => rfl) (fun r m hkind hcode hhas => ?_) hr
      · show (Eval.lift (Fault.expect (S.reading.literal value)) >>=
          fun r => pure (some (Operand.value (.ref (some r))))).on σ = _
        rw [literal_eq hS hf hindex]
        cases S.image.texts[index]? <;> rfl
      · rw [hS.shaped.kind_eq h.stands hn rfl] at hkind
        exact Image.performs_text hcode hhas (Option.some.inj hkind).symm
    exact hlowered.earlier htargeted.grows htargeted.draft

/-! ## Operators -/

/-- The check happens also when nobody reads the result: then the instruction writes what was there. -/
theorem nullCheck (hS : S.Valid) (hw : Builds S w ev) (h : Entry S s₀ s id demanded open_ hint)
    (hn : S.ctx.function.node? id = some ⟨.unary .nullCheck a, type⟩) (hka : S.ctx.function.kind? a = some .object)
    (hr : Lowering.nullCheck S.ctx w id a hint s = .ok (visited, t)) :
    Visits S ev ⟨.unary .nullCheck a, type⟩ id demanded open_ hint offer s₀ s t visited := by
  have hc := hS.completes h.stands hn rfl
  have hst : S.ctx.function.Stands a (S.ctx.function.reads demanded a .operand) open_ :=
    h.stands.child hn List.mem_cons_self
  obtain ⟨y, s₁, hoperand, hr⟩ := bind_ok hr
  obtain ⟨_, s₂, hrelease, hr⟩ := bind_ok hr
  obtain ⟨r, s₃, hslot, hr⟩ := bind_ok hr
  obtain ⟨_, s₄, hemit, hr⟩ := bind_ok hr
  cases hr
  obtain rfl := emit_ok hemit
  have hchild := hw.operand hst h.along.books hoperand
  have hfreed := release_ok hchild.along hchild.lent hrelease
  have hslotted := (h.advance hfreed.along).demandedSlot hS hslot
  have hdraft : s₃.draft = s₁.draft := hslotted.draft.trans hfreed.draft
  have hadded := Books.emit hslotted.along.books (.nullCheck (r.getD y).slot y.slot)
  have hkind : y.kind = .object := Option.some.inj (hchild.kind.symm.trans hka)
  refine hslotted.lowered hfreed.along.since.toGrows hadded fun hready => ?_
  have hgrows := (hfreed.grows.trans hslotted.grows).trans hadded.since.toGrows
  have hlabel : (s₃.draft.add (.nullCheck (r.getD y).slot y.slot)).label = s₁.draft.label + 1 := by
    rw [Draft.label_add, hdraft]
  have hrun := hchild.follows h.along.since ⟨hgrows.final hready.final, hready.scope, hready.live, hready.agrees, hready.pc⟩
  refine (hrun.widen (Nat.le_refl _) (by show _ ≤ (s₃.draft.add _).label; omega)).bind ?_
  rintro o τ m₁ ⟨hpc, ha, hheld, -⟩
  obtain ⟨v, hv, hy⟩ := hheld.read ha
  refine .silent hv (.silent (Eval.on_get τ) ?_)
  rw [← ha.world]
  have hlo : s.draft.label ≤ m₁.pc := hpc ▸ hchild.along.since.label
  cases r with
  | some x =>
    obtain rfl := hslotted.slot
    have hkx : S.ctx.function.kind? id = some .object := hS.shaped.kind_eq h.stands hn rfl
    refine hslotted.fires hready hc nofun rfl ha (by rw [hpc, hdraft]) hlo fun hcode hhas => ?_
    exact Image.performs_unary hcode hhas hy (by rw [hkind]; rfl) (by rw [← (hslotted.target x rfl).kind, hkx]; rfl)
  | none =>
    obtain rfl := hslotted.slot
    have hcode : S.code[m₁.pc]? = some (UnaryOp.nullCheck.instruction y.slot y.slot) := by
      rw [hpc, ← hdraft]
      exact hready.final.emitted nofun rfl
    have hp : S.image.Performs m₁ y (UnaryOp.nullCheck.apply m₁.world.heap v) :=
      Image.performs_unary hcode (Registers.has_of_get? hy) hy (by rw [hkind]; rfl) (by rw [hkind]; rfl)
    refine .does hp.does hlo (by show _ < (s₃.draft.add _).label; omega) ha fun u hu => ?_
    obtain rfl := UnaryOp.eq_of_nullCheck hu
    refine .ok (Nat.zero_le _) ⟨?_, hc, .nothing (ha.rewrote hy)⟩
    show m₁.pc + 1 = (s₃.draft.add _).label
    omega

theorem unary {op : UnaryOp} (hS : S.Valid) (hw : Builds S w ev) (h : Entry S s₀ s id demanded open_ hint)
    (hn : S.ctx.function.node? id = some ⟨.unary op a, type⟩)
    (hr : Lowering.unary S.ctx w id op a hint s = .ok (visited, t)) :
    Visits S ev ⟨.unary op a, type⟩ id demanded open_ hint offer s₀ s t visited := by
  obtain ⟨_, s₁, hexpect, hr₁⟩ := bind_ok hr
  obtain ⟨rfl, hka⟩ := expectType_ok hexpect
  have hkind := hS.shaped.kind_eq h.stands hn rfl
  by_cases hop : op = .nullCheck
  · subst hop
    exact h.nullCheck hS hw hn hka hr₁
  · have hst : S.ctx.function.Stands a (S.ctx.function.reads demanded a .forward) open_ := by
      have := h.stands.child hn (c := a) List.mem_cons_self
      rwa [if_neg hop] at this
    have heval : S.reading.node ev demanded S.fuel ⟨.unary op a, type⟩ =
        S.reading.ofOperand ev demanded (fun w => op.apply w.heap) a := by
      cases op <;> first | rfl | exact absurd rfl hop
    have hr' : Lowering.onOperand S.ctx w id a hint (fun r y => op.instruction r.slot y) s₁ = .ok (visited, t) := by
      cases op <;> first | exact hr₁ | exact absurd rfl hop
    unfold Visits
    rw [heval]
    refine h.onOperand hS hw (hS.completes h.stands hn rfl) hst ?_ ?_ ?_ hr'
    · intro r y
      cases op <;> nofun
    · intro r y
      cases op <;> rfl
    · intro r y m v hkr hky hcode hhas hget
      exact Image.performs_unary hcode hhas hget (hka ▸ hky) (hkind ▸ hkr)

theorem binaryInstruction {op : BinaryOp} {make : Slot → Slot → Slot → Instruction} (hop : op.form = .instruction make)
    (hS : S.Valid) (hw : Builds S w ev) (h : Entry S s₀ s id demanded open_ hint)
    (hn : S.ctx.function.node? id = some ⟨.binary op a b, type⟩)
    (hr : Lowering.binary S.ctx w id op a b hint s = .ok (visited, t)) :
    Visits S ev ⟨.binary op a b, type⟩ id demanded open_ hint offer s₀ s t visited := by
  simp only [Lowering.binary, hop] at hr
  obtain ⟨_, s₁, hexpect₁, hr₁⟩ := bind_ok hr
  obtain ⟨_, s₂, hexpect₂, hr₂⟩ := bind_ok hr₁
  obtain ⟨rfl, hka⟩ := expectType_ok hexpect₁
  obtain ⟨rfl, hkb⟩ := expectType_ok hexpect₂
  have hkind := hS.shaped.kind_eq h.stands hn rfl
  have hlogical : op.isLogical = false := by cases op <;> first | rfl | cases hop
  have hdecisive : op.decisive? = none := by cases op <;> first | rfl | cases hop
  have hedges : (Expr.binary op a b).edges = [(a, .forward), (b, .forward)] := by simp [Expr.edges, hlogical]
  have heval : S.reading.node ev demanded S.fuel ⟨.binary op a b, type⟩ =
      S.reading.ofOperands ev demanded (fun _ => op.apply) a b := by
    simp only [Reading.node, hdecisive]
  unfold Visits
  rw [heval]
  refine h.onOperands hS hw (hS.completes h.stands hn rfl) ?_ ?_ ?_ ?_ ?_ hr₂
  · exact h.stands.child hn (by rw [hedges]; exact List.mem_cons_self)
  · exact h.stands.child hn (by rw [hedges]; exact List.mem_cons_of_mem _ List.mem_cons_self)
  · intro r y z
    cases op <;> cases hop <;> nofun
  · intro r y z
    cases op <;> cases hop <;> rfl
  · intro r y z m v u hkr hky hkz hcode hhas hgety hgetz
    exact Image.performs_binary hop hcode hhas hgety hgetz (hka ▸ hky) (hkb ▸ hkz) (hkind ▸ hkr)

end Entry

end SlotCode
