/-
  SlotCode.Proofs.TwinOperators — with and without adopted tails, nodes are lowered in tandem.

  Two walks are in tandem (`Walk.Twins`) when every node is lowered by both to the same
  slot, and every condition to branches that go the same way. Only an exit that stands
  where a tail was offered is lowered to something else: one walk takes the tail and the
  other puts out a jump (`Fares`).

  Proved, of everything but control flow: what is lowered by walks in tandem is itself
  lowered in tandem.
-/

import SlotCode.Proofs.FaithfulArms
import SlotCode.Proofs.Twins
import SlotCode.Proofs.TypedBooks

namespace SlotCode

/-- The node is there and gives no value. -/
def Function.Valueless (f : Function) (id : NodeId) : Prop := ∃ n, f.node? id = some n ∧ n.type.kind? = none

theorem Function.Valueless.kind {f : Function} {id : NodeId} (h : f.Valueless id) : f.kind? id = none := by
  obtain ⟨n, hn, hkind⟩ := h
  simp [Function.kind?, hn, hkind]

theorem Function.WellTyped.valueless {f : Function} (h : f.WellTyped) {id : NodeId} {n : Node} {type : ValueType}
    (hn : f.node? id = some n) (ht : n.expr.fixedType? f.scope = .ok (some type)) (hk : type.kind? = none) :
    f.Valueless id := by
  refine ⟨n, hn, ?_⟩
  have hkind := h.kind hn ht
  rwa [hk, Function.kind?, hn] at hkind

/-- The same options without adopted tails. -/
def CompileOptions.plain (o : CompileOptions) : CompileOptions := { o with adoptTails := false }

namespace Lowering

open Output

def Context.plain (ctx : Context) : Context := { ctx with options := ctx.options.plain }

variable {α β : Type} {ctx : Context} {f : Function} {w w' : Walk} {id : NodeId} {hint : Option TypedSlot}
  {offer : Option Offer}

/-! ## Taking an offer or not -/

/-- How two walks fare with a node: an exit took the offered tail, or both put out code that carries the programs along. -/
def Fares (f : Function) (id : NodeId) (offer : Option Offer) (taken : Bool) (c d c' d' : Output) : Prop :=
  if taken then f.Valueless id ∧ ∃ o, offer = some o ∧ Took o c d c' d' else Carries c d c' d'

theorem Fares.after {taken : Bool} {c d c' d' c'' d'' : Output} (h : Carries c d c' d')
    (h' : Fares f id offer taken c' d' c'' d'') : Fares f id offer taken c d c'' d'' := by
  cases taken
  · exact h.trans h'
  · obtain ⟨hid, o, ho, htook⟩ := h'
    exact ⟨hid, o, ho, htook.after h⟩

theorem Fares.of_none {taken : Bool} {c d c' d' : Output} (h : Fares f id none taken c d c' d') :
    taken = false ∧ Carries c d c' d' := by
  cases taken
  · exact ⟨rfl, h⟩
  · obtain ⟨-, o, ho, -⟩ := h
    cases ho

/-- The first walk is offered a tail and says whether it was taken; the other is offered none. -/
def Going (f : Function) (id : NodeId) (offer : Option Offer) (x y : Lower Bool) : Prop :=
  ∀ s t, Twin s t → Tandem s t x y fun taken taken' c d => taken' = false ∧ Fares f id offer taken s.output t.output c d

/-- As `Going`, for a step that gives a slot as well. -/
def Visiting (f : Function) (id : NodeId) (offer : Option Offer) (x y : Lower Visited) : Prop :=
  ∀ s t, Twin s t → Tandem s t x y fun v v' c d => v' = ⟨v.slot, false⟩ ∧ Fares f id offer v.taken s.output t.output c d

/-- Two walks in tandem. -/
structure Walk.Twins (ctx : Context) (w w' : Walk) : Prop where
  build : ∀ id u hint offer, Visiting ctx.function id offer (w.build id u hint offer) (w'.build id u hint none)
  condition : ∀ id s t, Twin s t → Tandem s t (w.condition id) (w'.condition id) fun b b' c d =>
    Branches b b' s.output t.output c d

/-- A step that takes no offer. -/
theorem Paced.visiting {x y : Lower Visited} (h : Paced (·.taken = false) x y) : Visiting f id offer x y := by
  intro s t ht
  refine (h s t ht).post fun v v' c d _ hV => ?_
  obtain ⟨rfl, htaken, hcarries⟩ := hV
  obtain ⟨slot, taken⟩ := v
  cases htaken
  exact ⟨rfl, hcarries⟩

/-! ## Regions -/

theorem Tandem.inRegion {x : Lower α} {y : Lower β} {V : α → β → Output → Output → Prop} {s t : State} (ht : Twin s t)
    (h : ∀ s' t', Twin s' t' → s'.output = s.output → t'.output = t.output → Tandem s' t' x y V) :
    Tandem s t (inRegion x) (inRegion y) V := by
  refine blind_openRegion.first ht fun r s₁ t₁ ht₁ hs ht' => (h s₁ t₁ ht₁ hs ht').bind fun a b s₂ t₂ ht₂ hV => ?_
  refine (blind_closeRegion r).first ht₂ fun _ s₃ t₃ ht₃ hs₃ ht₃' => .pure ht₃ ?_
  rw [hs₃, ht₃']
  exact hV

theorem Going.inRegion {x y : Lower Bool} (h : Going f id offer x y) : Going f id offer (inRegion x) (inRegion y) :=
  fun _ _ ht => .inRegion ht fun s' t' ht' hs htt => hs ▸ htt ▸ h s' t' ht'

theorem Going.paced {x y : Lower Bool} (h : Going f id none x y) : Paced (· = false) x y := by
  intro s t ht
  refine (h s t ht).post fun taken taken' c d _ hV => ?_
  obtain ⟨rfl, hfares⟩ := hV
  obtain ⟨rfl, hcarries⟩ := hfares.of_none
  exact ⟨rfl, rfl, hcarries⟩

/-! ## Asking for children -/

namespace Walk.Twins

variable (hw : w.Twins ctx w')
include hw

theorem effect (id : NodeId) (offer : Option Offer) : Going ctx.function id offer (w.effect id offer) (w'.effect id) := by
  intro s t ht
  refine (hw.build id .ignore none offer s t ht).bind fun v v' s' t' ht' hV => .pure ht' ?_
  exact ⟨congrArg Visited.taken hV.1, hV.2⟩

theorem effect_none (id : NodeId) : Paced (· = false) (w.effect id) (w'.effect id) := (hw.effect id none).paced

theorem value (id : NodeId) (hint : Option TypedSlot) (offer : Option Offer) (s t : State) (ht : Twin s t) :
    Tandem s t (w.value id hint offer) (w'.value id hint none) fun r r' c d =>
      r' = (r.1, false) ∧ Fares ctx.function id offer r.2 s.output t.output c d := by
  refine (blind_alloc id).first ht fun _ s₁ t₁ ht₁ hs ht' => ?_
  refine (hw.build id .value hint offer s₁ t₁ ht₁).bind fun v v' s₂ t₂ ht₂ hV => ?_
  obtain ⟨rfl, hfares⟩ := hV
  rw [hs, ht'] at hfares
  cases hslot : v.slot with
  | none => exact .fail
  | some x => exact .pure ht₂ ⟨rfl, hfares⟩

theorem operand (id : NodeId) : Paced (fun _ => True) (w.operand id) (w'.operand id) := by
  intro s t ht
  refine (hw.value id none none s t ht).bind fun r r' s' t' ht' hV => .pure ht' ?_
  obtain ⟨rfl, hfares⟩ := hV
  exact ⟨rfl, trivial, hfares.of_none.2⟩

theorem valueInto (id : NodeId) (target : TypedSlot) (offer : Option Offer) :
    Going ctx.function id offer (w.valueInto ctx id target offer) (w'.valueInto ctx.plain id target none) := by
  intro s t ht
  unfold Walk.valueInto
  rw [show ctx.plain.function = ctx.function from rfl]
  cases hkind : ctx.function.kind? id with
  | none => exact hw.effect id offer s t ht
  | some kind =>
    dsimp only
    split
    · exact .fail
    · refine (hw.value id (some target) offer s t ht).bind fun r r' s₁ t₁ ht₁ hV => ?_
      obtain ⟨rfl, hfares⟩ := hV
      obtain ⟨x, taken⟩ := r
      -- What gives a value takes no offer.
      cases taken with
      | true =>
        rw [hfares.1.kind] at hkind
        cases hkind
      | false =>
        have hcarries : Carries s.output t.output s₁.output t₁.output := hfares
        have hrest : Paced (· = false) (do
            if x ≠ target then emit (.move kind target.slot x.slot)
            release id
            return false) (do
            if x ≠ target then emit (.move kind target.slot x.slot)
            release id
            return false) := by
          dsimp only
          have hdone : Paced (· = false) (do release id; return false) (do release id; return false) :=
            .bind (blind_release id).paced fun _ _ => .pure rfl
          exact .ite (.bind (paced_emit rfl) fun _ _ => hdone) hdone
        refine (hrest s₁ t₁ ht₁).post fun a b c d _ hW => ?_
        obtain ⟨rfl, rfl, hcarries'⟩ := hW
        exact ⟨rfl, hcarries.trans hcarries'⟩

theorem forward (id : NodeId) (target : Option TypedSlot) (offer : Option Offer) :
    Going ctx.function id offer (w.forward ctx id target offer) (w'.forward ctx.plain id target none) := by
  cases target with
  | none => exact hw.effect id offer
  | some x => exact hw.valueInto id x offer

/-! ## Operators and data -/

theorem onOperand (id operand : NodeId) (hint : Option TypedSlot) {make : TypedSlot → Slot → Instruction}
    (hm : ∀ r a, (make r a).isStraight = true) :
    Paced (·.taken = false) (onOperand ctx w id operand hint make) (onOperand ctx.plain w' id operand hint make) := by
  refine .bind (blind_isDemanded id).paced fun _ _ => .ite ?_ ?_
  · refine .bind (hw.operand operand) fun a _ => .bind (blind_release operand).paced fun _ _ => ?_
    exact .bind (blind_resultSlot ctx id hint).paced fun r _ => .bind (paced_emit (hm r a.slot)) fun _ _ => .pure rfl
  · exact .bind (hw.effect_none operand) fun _ _ => .pure rfl

theorem onOperands (id first second : NodeId) (hint : Option TypedSlot) {make : TypedSlot → Slot → Slot → Instruction}
    (hm : ∀ r a b, (make r a b).isStraight = true) : Paced (·.taken = false) (onOperands ctx w id first second hint make)
      (onOperands ctx.plain w' id first second hint make) := by
  refine .bind (blind_isDemanded id).paced fun _ _ => .ite ?_ ?_
  · refine .bind (hw.operand first) fun a _ => .bind (hw.operand second) fun b _ => ?_
    refine .bind (blind_release second).paced fun _ _ => .bind (blind_release first).paced fun _ _ => ?_
    refine .bind (blind_resultSlot ctx id hint).paced fun r _ => ?_
    exact .bind (paced_emit (hm r a.slot b.slot)) fun _ _ => .pure rfl
  · exact .bind (hw.effect_none first) fun _ _ => .bind (hw.effect_none second) fun _ _ => .pure rfl

theorem nullCheck (id operand : NodeId) (hint : Option TypedSlot) :
    Paced (·.taken = false) (nullCheck ctx w id operand hint) (nullCheck ctx.plain w' id operand hint) := by
  refine .bind (hw.operand operand) fun a _ => .bind (blind_release operand).paced fun _ _ => ?_
  exact .bind (blind_demandedSlot ctx id hint).paced fun r _ => .bind (paced_emit rfl) fun _ _ => .pure rfl

theorem unary (id : NodeId) (op : UnaryOp) (operand : NodeId) (hint : Option TypedSlot) :
    Paced (·.taken = false) (unary ctx w id op operand hint) (unary ctx.plain w' id op operand hint) := by
  refine .bind (blind_expectType ctx operand _).paced fun _ _ => ?_
  split
  · exact hw.nullCheck id operand hint
  · refine hw.onOperand id operand hint fun r a => ?_
    cases op <;> rfl

theorem setVar (id : NodeId) (index : VarId) (value : NodeId) :
    Paced (·.taken = false) (setVar ctx w id index value) (setVar ctx.plain w' id index value) := by
  refine .bind (blind_varSlot ctx id index).paced fun target _ => ?_
  exact .bind (hw.valueInto value target none).paced fun _ _ => .pure rfl

theorem getField (id : NodeId) (field : FieldRef) (object : NodeId) (hint : Option TypedSlot) :
    Paced (·.taken = false) (getField ctx w id field object hint) (getField ctx.plain w' id field object hint) := by
  refine .bind (blind_lookup _).paced fun r _ => ?_
  cases r with
  | none => exact .fail
  | some r =>
    refine .bind (blind_checkField id field _).paced fun _ _ => .bind (blind_expectType ctx object _).paced fun _ _ => ?_
    exact hw.onOperand id object hint fun _ _ => rfl

theorem arrayElement (id array index : NodeId) (hint : Option TypedSlot) :
    Paced (·.taken = false) (arrayElement ctx w id array index hint) (arrayElement ctx.plain w' id array index hint) := by
  refine .bind (blind_expectType ctx array _).paced fun _ _ => .bind (blind_expectType ctx index _).paced fun _ _ => ?_
  exact hw.onOperands id array index hint fun _ _ _ => rfl

theorem setArrayElement (array index value : NodeId) :
    Paced (·.taken = false) (setArrayElement ctx w array index value) (setArrayElement ctx.plain w' array index value) := by
  refine .bind (blind_expectType ctx array _).paced fun _ _ => .bind (blind_expectType ctx index _).paced fun _ _ => ?_
  refine .bind (hw.operand array) fun a _ => .bind (hw.operand index) fun i _ => .bind (hw.operand value) fun v _ => ?_
  refine .bind (blind_release value).paced fun _ _ => .bind (blind_release index).paced fun _ _ => ?_
  exact .bind (blind_release array).paced fun _ _ => .bind (paced_emit rfl) fun _ _ => .pure rfl

theorem upperBound (index : TypedSlot) (lower : Bool) (array : NodeId) :
    Paced (fun _ => True) (upperBound ctx w index lower array) (upperBound ctx.plain w' index lower array) := by
  refine .bind (blind_expectType ctx array _).paced fun _ _ => .bind (hw.operand array) fun a _ => ?_
  have hrest : Paced (fun _ => True) (do emit (.upperBound index.slot a.slot); release array)
      (do emit (.upperBound index.slot a.slot); release array) :=
    .bind (paced_emit rfl) fun _ _ => (blind_release array).paced
  exact .ite (.bind (paced_emit rfl) fun _ _ => hrest) hrest

theorem boundsCheck (id index : NodeId) (array : Option NodeId) (lower : Bool) (hint : Option TypedSlot) :
    Paced (·.taken = false) (boundsCheck ctx w id index array lower hint)
      (boundsCheck ctx.plain w' id index array lower hint) := by
  refine .bind (blind_expectType ctx index _).paced fun _ _ => .bind (hw.operand index) fun i _ => ?_
  have hresult : Paced (·.taken = false) (checkedIndex ctx id index hint i) (checkedIndex ctx.plain id index hint i) := by
    refine .bind (blind_release index).paced fun _ _ => .bind (blind_demandedSlot ctx id hint).paced fun r _ => ?_
    cases r with
    | none => exact .pure rfl
    | some r => exact .ite (.bind (paced_emit rfl) fun _ _ => .pure rfl) (.pure rfl)
  cases array with
  | some array => exact .bind (hw.upperBound i lower array) fun _ _ => hresult
  | none => exact .ite (.bind (paced_emit rfl) fun _ _ => hresult) hresult

theorem cast (id value : NodeId) (className : String) (hint : Option TypedSlot) :
    Paced (·.taken = false) (cast ctx w id value className hint) (cast ctx.plain w' id value className hint) := by
  refine .bind (blind_classId ctx id className).paced fun _ _ => .bind (blind_expectType ctx value _).paced fun _ _ => ?_
  exact hw.onOperand id value hint fun _ _ => rfl

theorem instanceOf (id value : NodeId) (className : String) (hint : Option TypedSlot) :
    Paced (·.taken = false) (instanceOf ctx w id value className hint) (instanceOf ctx.plain w' id value className hint) := by
  refine .bind (blind_classId ctx id className).paced fun _ _ => .bind (blind_expectType ctx value _).paced fun _ _ => ?_
  exact hw.onOperand id value hint fun _ _ => rfl

end Walk.Twins

theorem Paced.forM {γ : Type} {g h : γ → Lower PUnit} (xs : List γ) (hgh : ∀ x, Paced (fun _ => True) (g x) (h x)) :
    Paced (fun _ => True) (xs.forM g) (xs.forM h) := by
  induction xs with
  | nil => exact .pure trivial
  | cons x xs ih => exact .bind (hgh x) fun _ _ => ih

theorem Paced.mapM {γ : Type} {g h : γ → Lower α} (xs : List γ) (hgh : ∀ x, Paced (fun _ => True) (g x) (h x)) :
    Paced (fun _ => True) (xs.mapM g) (xs.mapM h) := by
  induction xs with
  | nil => exact .pure trivial
  | cons x xs ih =>
    rw [List.mapM_cons, List.mapM_cons]
    exact .bind (hgh x) fun _ _ => .bind ih fun _ _ => .pure trivial

theorem Walk.Twins.call (hw : w.Twins ctx w') (id : NodeId) (method : MethodRef) (kind : CallKind) (args : List NodeId)
    (hint : Option TypedSlot) :
    Paced (·.taken = false) (call ctx w id method kind args hint) (call ctx.plain w' id method kind args hint) := by
  unfold Lowering.call
  rw [show ctx.plain.env = ctx.env from rfl]
  cases ctx.env.resolveFunction method.owner method.name with
  | none => exact .fail
  | some function =>
    refine .bind (blind_lookup _).paced fun native _ => ?_
    refine .bind (blind_checkCall id method kind native args.length).paced fun _ _ => ?_
    refine .bind (.forM _ fun x => (blind_expectType ctx x.1 x.2).paced) fun _ _ => ?_
    refine .bind (.mapM _ hw.operand) fun slots _ => .bind (.forM _ fun x => (blind_release x).paced) fun _ _ => ?_
    refine .bind (blind_demandedSlot ctx id hint).paced fun result _ => ?_
    exact .bind (blind_addSite _).paced fun site _ => .bind (paced_emit rfl) fun _ _ => .pure rfl

theorem paced_constant (id : NodeId) (hint : Option TypedSlot) {make : Slot → Instruction}
    (hm : ∀ r, (make r).isStraight = true) :
    Paced (·.taken = false) (constant ctx id hint make) (constant ctx.plain id hint make) := by
  refine .bind (blind_demandedSlot ctx id hint).paced fun r _ => ?_
  cases r with
  | none => exact .pure rfl
  | some r => exact .bind (paced_emit (hm r.slot)) fun _ _ => .pure rfl

theorem paced_text (id : NodeId) (value : String) (hint : Option TypedSlot) :
    Paced (·.taken = false) (text ctx id value hint) (text ctx.plain id value hint) := by
  refine .bind (blind_isDemanded id).paced fun _ _ => .ite ?_ (.pure rfl)
  exact .bind (blind_intern value).paced fun index _ => paced_constant id hint fun _ => rfl

theorem paced_nullary (id : NodeId) (hint : Option TypedSlot) (op : NullaryOp) :
    Paced (·.taken = false) (nullary ctx id hint op) (nullary ctx.plain id hint op) := by
  cases op
  · exact .pure rfl
  · exact paced_constant id hint fun _ => rfl
  · exact .bind (paced_emit rfl) fun _ _ => .pure rfl

theorem paced_fixedSlot (id : NodeId) (slot : TypedSlot) : Paced (·.taken = false) (fixedSlot id slot) (fixedSlot id slot) :=
  .bind (blind_borrow id).paced fun _ _ => .bind (blind_isDemanded id).paced fun _ _ => .ite (.pure rfl) (.pure rfl)

theorem paced_param (id : NodeId) (index : ParamId) :
    Paced (·.taken = false) (param ctx id index) (param ctx.plain id index) := by
  unfold param
  rw [show ctx.plain.params = ctx.params from rfl]
  cases ctx.params[index]? with
  | none => exact .fail
  | some slot => exact paced_fixedSlot id slot

theorem paced_getVar (id : NodeId) (index : VarId) :
    Paced (·.taken = false) (getVar ctx id index) (getVar ctx.plain id index) :=
  .bind (blind_varSlot ctx id index).paced fun slot _ => paced_fixedSlot id slot

theorem paced_getStatic (id : NodeId) (field : FieldRef) (hint : Option TypedSlot) :
    Paced (·.taken = false) (getStatic ctx id field hint) (getStatic ctx.plain id field hint) := by
  unfold getStatic
  rw [show ctx.plain.env = ctx.env from rfl]
  cases ctx.env.resolveStatic field.owner field.name with
  | none => exact .fail
  | some r =>
    refine .bind (blind_checkField id field _).paced fun _ _ => .bind (blind_demandedSlot ctx id hint).paced fun r _ => ?_
    cases r with
    | none => exact .pure rfl
    | some r => exact .bind (paced_emit rfl) fun _ _ => .pure rfl

/-! ## Conditions -/

/-- The branch leaves on the polarity for where the jumps `ps` go, and falls through otherwise. -/
structure Deferred (b : Branch) (polarity : Bool) (ps : List Patch) (c c' : Output) : Prop where
  extended : c.Extends c'
  label : c'.label = c.label
  decides : ∀ code a, c'.draft.Becomes code → (∀ p ∈ ps, p.Aims code a) →
    b.Decides code (if polarity then a else b.fallThrough) (if polarity then b.fallThrough else a)

theorem edits_defer (b : Branch) (polarity : Bool) :
    Edits (drafting (b.defer polarity)) fun ps c c' => Deferred b polarity ps c c' where
  drafts := .drafting _
  ok {s ps d} hclean hr := by
    obtain ⟨d', hdefer, hd⟩ := drafting_ok hr
    obtain rfl : d = d' := congrArg State.draft hd
    have hdeferred := fun a => Branch.before_defer (a := a) hclean hdefer
    obtain ⟨hbefore, hlabel, -⟩ := hdeferred 0
    exact ⟨hbefore.clean, .redraft hbefore, hlabel, fun code a hc haims => (hdeferred a).2.2 code hc haims⟩

/-- The branch leaves on the polarity for `a`, and falls through otherwise. -/
structure Filled (b : Branch) (polarity : Bool) (a : Nat) (c c' : Output) : Prop where
  extended : c.Extends c'
  label : c'.label = c.label
  decides : ∀ code, c'.draft.Becomes code →
    b.Decides code (if polarity then a else b.fallThrough) (if polarity then b.fallThrough else a)

/-- The branch leaves for the next position. -/
def resolveHere (b : Branch) (polarity : Bool) : Lower Unit := do drafting (b.resolve polarity (.address (← label)))

theorem edits_resolveHere (b : Branch) (polarity : Bool) :
    Edits (resolveHere b polarity) fun _ c c' => Filled b polarity c.label c c' where
  drafts := .bind (.drafting _) fun _ => .drafting _
  ok {s _ d} hclean hr := by
    obtain ⟨here, s₁, hlabel, hr₁⟩ := bind_ok hr
    obtain ⟨rfl, rfl⟩ := label_ok hlabel
    obtain ⟨d', hresolve, hd⟩ := drafting_ok hr₁
    obtain rfl : d = d' := congrArg State.draft hd
    obtain ⟨hbefore, hlabel, hdecides⟩ := Branch.before_resolve hclean hresolve
    exact ⟨hbefore.clean, .redraft hbefore, hlabel, hdecides⟩

namespace Output.Branches

variable {b b' e e' : Branch} {c d c₁ d₁ c₂ d₂ c₃ d₃ : Output}

theorem negate (h : Branches b b' c d c₁ d₁) : Branches b.negate b'.negate c d c₁ d₁ :=
  ⟨h.left, h.right, h.more, h.fall, fun hl hb hb' hyes hno => h.carry hl hb.of_negate hb'.of_negate hno hyes⟩

/-- The jumps that decide the first operand leave for where the whole leads; otherwise the second is asked. -/
theorem shortCircuit {decisive : Bool} {ps ps' : List Patch} (h₁ : Branches b b' c d c₁ d₁)
    (hdefer : Deferred b decisive ps c₁ c₂) (hdefer' : Deferred b' decisive ps' d₁ d₂)
    (h₂ : Branches e e' c₂ d₂ c₃ d₃) :
    Branches (e.addSites decisive ps) (e'.addSites decisive ps') c d c₃ d₃ := by
  have hfall : (e.addSites decisive ps).fallThrough = e.fallThrough ∧
      (e'.addSites decisive ps').fallThrough = e'.fallThrough := by
    cases decisive <;> exact ⟨rfl, rfl⟩
  have hle := hdefer.label
  have hle' := hdefer'.label
  have hmore := h₁.more
  have hmore' := h₂.more
  refine ⟨(h₁.left.trans hdefer.extended).trans h₂.left, (h₁.right.trans hdefer'.extended).trans h₂.right, by omega,
    ⟨hfall.1.trans h₂.fall.1, hfall.2.trans h₂.fall.2⟩, fun {im im' n yes no yes' no'} hl hb hb' hyes hno => ?_⟩
  obtain ⟨he, haims⟩ := hb.of_addSites
  obtain ⟨he', haims'⟩ := hb'.of_addSites
  have hsecond : im.InStep im' n c₂.label d₂.label := h₂.carry hl he he' hyes hno
  rw [hle, hle', ← h₁.fall.1, ← h₁.fall.2] at hsecond
  have hdecides := hdefer.decides _ _ (h₂.left.draft.becomes _ hl.becomes) haims
  have hdecides' := hdefer'.decides _ _ (h₂.right.draft.becomes _ hl.becomes') haims'
  have hl₁ : Lands im im' n c₁ d₁ := hl.back (hdefer.extended.trans h₂.left) (hdefer'.extended.trans h₂.right)
  cases decisive
  · exact h₁.carry hl₁ hdecides hdecides' hsecond.below hno
  · exact h₁.carry hl₁ hdecides hdecides' hyes hsecond.below

/-- Both ways lead to the next position. -/
theorem dropped (h : Branches b b' c d c₁ d₁) (hfill : Filled b true c₁.label c₁ c₂)
    (hfill' : Filled b' true d₁.label d₁ d₂) :
    Carries c d c₂ d₂ := by
  have hmore := h.more
  have hlabel := hfill.label
  have hlabel' := hfill'.label
  refine ⟨h.left.trans hfill.extended, h.right.trans hfill'.extended, by omega, fun {im im' n} hl hstep => ?_⟩
  have hl₁ : Lands im im' n c₁ d₁ := hl.back hfill.extended hfill'.extended
  rw [hlabel, hlabel'] at hstep
  have hfall : im.InStepBelow im' n b.fallThrough b'.fallThrough := by
    rw [h.fall.1, h.fall.2]
    exact hstep.below
  exact h.carry hl₁ (hfill.decides _ hl.becomes) (hfill'.decides _ hl.becomes') hstep.below hfall

/-- The true way falls into a one and a jump over the zero that the false way goes to. -/
theorem numbered {ps ps' : List Patch} {r : Slot} {g g' : Draft} (h : Branches b b' c d c₁ d₁)
    (hdefer : Deferred b false ps c₁ c₂) (hdefer' : Deferred b' false ps' d₁ d₂) (hn : Numbered c₂.draft g r ps)
    (hn' : Numbered d₂.draft g' r ps') :
    Carries c d (c₂.redraft g) (d₂.redraft g') := by
  have hmore := h.more
  have hlabel := hdefer.label
  have hlabel' := hdefer'.label
  have hafter : (c₂.redraft g).label = c₂.label + 3 := hn.label
  have hafter' : (d₂.redraft g').label = d₂.label + 3 := hn'.label
  have hleft : c₂.Extends (c₂.redraft g) := .redraft hn.before
  have hright : d₂.Extends (d₂.redraft g') := .redraft hn'.before
  refine ⟨(h.left.trans hdefer.extended).trans hleft, (h.right.trans hdefer'.extended).trans hright, by omega,
    fun {im im' n} hl hstep => ?_⟩
  have hc := hl.counterparts
  rw [hafter, hafter'] at hstep
  have hzero : im.InStep im' n (c₂.label + 2) (d₂.label + 2) :=
    .straight hc (hn.zero _ hl.becomes) (hn'.zero _ hl.becomes') rfl hstep.below
  have hskip : im.InStep im' n (c₂.label + 1) (d₂.label + 1) :=
    .goto hc (hn.skip _ hl.becomes) (hn'.skip _ hl.becomes') hstep.below
  have hone : im.InStep im' n c₂.label d₂.label :=
    .straight hc (hn.one _ hl.becomes) (hn'.one _ hl.becomes') rfl hskip.below
  rw [hlabel, hlabel', ← h.fall.1, ← h.fall.2] at hone
  have hdecides := hdefer.decides _ _ (hleft.draft.becomes _ hl.becomes) (hn.aims _ hl.becomes)
  have hdecides' := hdefer'.decides _ _ (hright.draft.becomes _ hl.becomes') (hn'.aims _ hl.becomes')
  have hl₁ : Lands im im' n c₁ d₁ := hl.back (hdefer.extended.trans hleft) (hdefer'.extended.trans hright)
  exact h.carry hl₁ hdecides hdecides' hone.below hzero.below

end Output.Branches

theorem edits_onSlot (cond : Slot) : Edits (drafting (Branch.onSlot cond)) fun b c c' =>
    b = ⟨[], [], ⟨c.label, cond, false⟩, c.label + 1⟩ ∧ c.Extends c' ∧ c'.label = c.label + 1 where
  drafts := .drafting _
  ok {s b d} hclean hr := by
    obtain ⟨hb, hs⟩ := onSlot_ok hr
    obtain rfl : d = s.draft.reserve.2 := congrArg State.draft hs
    have hbefore := Draft.before_reserve hclean
    exact ⟨hbefore.clean, hb, .redraft hbefore, Array.size_push _⟩

/-- A number is branched on in both. -/
theorem tandem_onSlot {s t : State} (ht : Twin s t) (cond : Slot) :
    Tandem s t (drafting (Branch.onSlot cond)) (drafting (Branch.onSlot cond)) fun b b' c d =>
      Branches b b' s.output t.output c d := by
  have hforks : ∀ {im : Image} {x yes no : Nat},
      (Branch.mk [] [] ⟨x, cond, false⟩ (x + 1)).Decides im.program.code yes no → im.Forks x cond yes no := by
    intro im x yes no h
    obtain ⟨polarity, a, hat, hends⟩ := h.tail
    exact ⟨polarity, a, by simpa using hat, hends⟩
  refine (Tandem.edits ht (edits_onSlot cond) (edits_onSlot cond)).post fun b b' c d _ hV => ?_
  obtain ⟨⟨rfl, hleft, hlabel⟩, rfl, hright, hlabel'⟩ := hV
  refine ⟨hleft, hright, by omega, ⟨hlabel.symm, hlabel'.symm⟩, ?_⟩
  intro im im' n yes no yes' no' hl hb hb' hyes hno
  exact .fork hl.counterparts (hforks hb) (hforks hb') hyes hno

namespace Walk.Twins

variable (hw : w.Twins ctx w')
include hw

theorem compose (k : Connective) (s t : State) (ht : Twin s t) :
    Tandem s t (compose w k) (compose w' k) fun b b' c d => Branches b b' s.output t.output c d := by
  cases k with
  | not operand =>
    exact (hw.condition operand s t ht).bind fun b b' s₁ t₁ ht₁ hV => .pure ht₁ hV.negate
  | shortCircuit decisive first second =>
    refine (hw.condition first s t ht).bind fun b b' s₁ t₁ ht₁ hfirst => ?_
    refine (Tandem.edits ht₁ (edits_defer b decisive) (edits_defer b' decisive)).bind fun ps ps' s₂ t₂ ht₂ hdeferred => ?_
    refine Tandem.bind (V := fun e e' c d => Branches e e' s₂.output t₂.output c d) ?_
      fun e e' s₃ t₃ ht₃ hsecond => .pure ht₃ (hfirst.shortCircuit hdeferred.1 hdeferred.2 hsecond)
    exact .inRegion ht₂ fun s' t' ht' hs htt => hs ▸ htt ▸ hw.condition second s' t' ht'

theorem branchOn (id : NodeId) (s t : State) (ht : Twin s t) :
    Tandem s t (branchOn w id) (branchOn w' id) fun b b' c d => Branches b b' s.output t.output c d := by
  refine (hw.operand id s t ht).bind fun slot slot' s₁ t₁ ht₁ hV => ?_
  obtain ⟨rfl, -, hcarries⟩ := hV
  refine (tandem_onSlot ht₁ slot.slot).bind fun b b' s₂ t₂ ht₂ hbranches => ?_
  refine (blind_release id).first ht₂ fun _ s₃ t₃ ht₃ hs htt => .pure ht₃ ?_
  rw [hs, htt]
  exact hbranches.after hcarries

theorem logicalValue (id : NodeId) (k : Connective) (hint : Option TypedSlot) :
    Paced (·.taken = false) (logicalValue ctx w id k hint) (logicalValue ctx.plain w' id k hint) := by
  intro s t ht
  refine (hw.compose k s t ht).bind fun b b' s₁ t₁ ht₁ hbranches => ?_
  have hmore := hbranches.more
  refine (blind_isDemanded id).first ht₁ fun demanded s₂ t₂ ht₂ hs₂ htt₂ => ?_
  rw [← hs₂, ← htt₂] at hbranches hmore
  cases demanded with
  | true =>
    refine (Tandem.edits ht₂ (edits_defer b false) (edits_defer b' false)).bind fun ps ps' s₃ t₃ ht₃ hdeferred => ?_
    refine (blind_resultSlot ctx id hint).first ht₃ fun r s₄ t₄ ht₄ hs₄ htt₄ => ?_
    rw [← hs₄, ← htt₄] at hdeferred
    obtain ⟨hdefer, hdefer'⟩ := hdeferred
    have hdrafts : ∀ ps : List Patch, Drafts (do
        emit (.const r.slot (.int 1))
        let skip ← gotoPending
        drafting (Drafting.patchAll ps (.address (← label)))
        emit (.const r.slot (.int 0))
        drafting (Drafting.patch skip (.address (← label)))
        return { slot := some r } : Lower Visited) := fun ps =>
      .bind (.drafting _) fun _ => .bind (.drafting _) fun _ => .bind (.drafting _) fun _ => .bind (.drafting _) fun _ =>
        .bind (.drafting _) fun _ => .bind (.drafting _) fun _ => .bind (.drafting _) fun _ => .pure
    refine .drafts ht₄ (hdrafts ps) (hdrafts ps') fun v v' d e hr hr' => ?_
    obtain ⟨rfl, _, hd, hnumbered⟩ := numbered_ok ht₄.paired.clean hr
    obtain ⟨rfl, _, he, hnumbered'⟩ := numbered_ok ht₄.paired.clean' hr'
    obtain rfl := congrArg State.draft hd
    obtain rfl := congrArg State.draft he
    exact ⟨hnumbered.before.clean, hnumbered'.before.clean, rfl, rfl, hbranches.numbered hdefer hdefer' hnumbered hnumbered'⟩
  | false =>
    have hdropped : Tandem s₂ t₂ (resolveHere b true) (resolveHere b' true) fun _ _ c d => Carries s.output t.output c d :=
      (Tandem.edits ht₂ (edits_resolveHere b true) (edits_resolveHere b' true)).post fun _ _ _ _ _ hfilled =>
        hbranches.dropped hfilled.1 hfilled.2
    exact hdropped.bind fun _ _ s₃ t₃ ht₃ hcarries => .pure ht₃ ⟨rfl, rfl, hcarries⟩

theorem binary (id : NodeId) (op : BinaryOp) (first second : NodeId) (hint : Option TypedSlot) :
    Paced (·.taken = false) (binary ctx w id op first second hint) (binary ctx.plain w' id op first second hint) := by
  unfold Lowering.binary
  cases hform : op.form with
  | instruction make =>
    refine .bind (blind_expectType ctx first _).paced fun _ _ => .bind (blind_expectType ctx second _).paced fun _ _ => ?_
    refine hw.onOperands id first second hint fun r a b => ?_
    cases op <;> cases hform <;> rfl
  | shortCircuit decisive => exact hw.logicalValue id _ hint

end Walk.Twins

end Lowering

end SlotCode
