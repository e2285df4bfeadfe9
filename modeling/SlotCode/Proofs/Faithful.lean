/-
  SlotCode.Proofs.Faithful — what lowering one node promises its consumer.

  `Lowered` is the promise: the books are kept, the value is in a slot of the node's kind,
  and the code added follows the node's evaluation, ending with the value delivered. An
  exit that took an offered tail added no code; then the promise is about the tail.
  `Branched` is the promise of a condition. A walk is `Faithful` to an evaluator when it
  keeps both for every node.

  Proved, for a faithful walk: what its consumers get, that is, operands, children that only
  run, and children whose value is moved to a given slot.
-/

import SlotCode.Proofs.Follows

namespace SlotCode

open Lowering

/-- The node's type says that it can complete. -/
def Function.Completes (f : Function) (id : NodeId) : Prop := ∀ n, f.node? id = some n → n.type ≠ .unreachable

/-! ## Promises -/

/-- A machine about to run the code added between two states. -/
structure Ready (S : Scene) (g : Landings) (A : Anchor) (open_ : List (BlockId × Bool)) (s₀ s t : State) (σ : Store)
    (m : Machine) : Prop where
  final : Final S g t
  scope : open_ = g.blocks.map (·.1)
  live : ∀ x, A.live x = true → s₀.pool.isLive x = true
  agrees : Agrees S A none σ m
  pc : m.pc = s.draft.label

/-- What a consumer gets: nothing, something to read when it fires, or a value in the hinted slot. -/
inductive Delivered (S : Scene) (A : Anchor) (live : TypedSlot → Bool) (hint : Option TypedSlot) (σ : Store)
    (m : Machine) : Option TypedSlot → Option Operand → Prop
  | nothing : Agrees S A none σ m → Delivered S A live hint σ m none none
  | held {x : TypedSlot} {o : Operand} : Agrees S A none σ m → Held S live m x o →
      Delivered S A live hint σ m (some x) (some o)
  | stored {x : TypedSlot} {v : Value} : hint = some x → Stored S A x v σ m →
      Delivered S A live hint σ m (some x) (some (.value v))

/-- An exit added no code and took the offered tail over: the condition goes where the exit lands. -/
structure Taken (S : Scene) (x : Eval (Option Operand)) (id : NodeId) (open_ : List (BlockId × Bool)) (o : Offer)
    (s t : State) : Prop where
  kind : S.ctx.function.kind? id = none
  start : s.draft.label = o.position
  stop : t.draft.label = o.position
  leaves : ∀ g, Final S g t → open_ = g.blocks.map (·.1) → ∃ e a, g.Lands e a ∧
    o.branch.Decides S.code (if o.polarity then a else o.branch.fallThrough) (if o.polarity then o.branch.fallThrough else a) ∧
    ∀ A σ m, Agrees S A none σ m → x.on σ = some (.error e, σ)

/-- Where the value of a node is. -/
structure Placed (ctx : Context) (s₀ t : State) (id : NodeId) (x : TypedSlot) : Prop where
  kind : ctx.function.kind? id = some x.kind
  has : t.pool.has x
  loose : s₀.pool.isLive x = false ∨ (t.node id).borrowed = true

/-- What a node ends with: control is after its code, and its value is delivered. -/
def Ends (S : Scene) (A : Anchor) (id : NodeId) (t : State) (hint r : Option TypedSlot) (o : Option Operand) (τ : Store)
    (m : Machine) : Prop :=
  m.pc = t.draft.label ∧ S.ctx.function.Completes id ∧ Delivered S A t.pool.isLive hint τ m r o

/-- A node, evaluated as `x`, was lowered from `s` to `t`; its consumer began at `s₀`. -/
structure Lowered (S : Scene) (x : Eval (Option Operand)) (id : NodeId) (demanded : Bool) (open_ : List (BlockId × Bool))
    (hint : Option TypedSlot) (offer : Option Offer) (s₀ s t : State) (v : Visited) : Prop where
  along : Along S.ctx s₀ t
  grows : Grows s t
  touched : (t.node id).progress ≠ .untouched
  slot : v.slot.isSome = demanded
  placed : ∀ y, v.slot = some y → Placed S.ctx s₀ t id y
  taken : v.taken = true → ∃ o, offer = some o ∧ Taken S x id open_ o s t
  runs : v.taken = false → ∀ {g A σ m}, Ready S g A open_ s₀ s t σ m →
    Follows S g A s.draft.label t.draft.label 0 (x.on σ) m 0 (Ends S A id t hint v.slot)

/-- As `Lowered`, for a node that was not lowered before and is built now. -/
structure Built (S : Scene) (x : Eval (Option Operand)) (id : NodeId) (demanded : Bool) (open_ : List (BlockId × Bool))
    (hint : Option TypedSlot) (offer : Option Offer) (s t : State) (v : Visited) : Prop
    extends Lowered S x id demanded open_ hint offer s s t v where
  fresh : (s.node id).progress = .untouched
  done : ∃ region, (t.node id).progress = .built v.slot region

/-- A condition, evaluated as `x`, was lowered to a branch: once that is decided, control goes one way or
    the other. -/
structure Branched (S : Scene) (x : Eval Bool) (open_ : List (BlockId × Bool)) (s₀ s t : State) (b : Branch) : Prop where
  along : Along S.ctx s₀ t
  grows : Grows s t
  fall : t.draft.label = b.fallThrough
  runs : ∀ {yes no g A σ m}, b.Decides S.code yes no → Ready S g A open_ s₀ s t σ m →
    Follows S g A s.draft.label t.draft.label 0 (x.on σ) m 1 fun truth τ m₁ =>
      m₁.pc = (if truth then yes else no) ∧ Agrees S A none τ m₁

/-- An offer is not for code added before. -/
def OfferFits (s : State) (offer : Option Offer) : Prop := ∀ o, offer = some o → o.position ≤ s.draft.label

/-- The walk builds every node as the evaluator evaluates it. -/
structure Builds (S : Scene) (w : Walk) (ev : ChildEval) : Prop where
  build : ∀ {id u hint offer demanded open_ s v t}, S.ctx.function.Stands id demanded open_ → Books S.ctx s →
    HintFits S.ctx s hint → OfferFits s offer → w.build id u hint offer s = .ok (v, t) →
      Built S (ev demanded id) id demanded open_ hint offer s t v

/-- The walk lowers every node as the evaluator evaluates it, also for branching. -/
structure Faithful (S : Scene) (w : Walk) (ev : ChildEval) : Prop extends Builds S w ev where
  condition : ∀ {id open_ s b t}, S.ctx.function.Stands id (S.ctx.function.reads false id .operand) open_ → Books S.ctx s →
    w.condition id s = .ok (b, t) → Branched S (S.reading.truth ev false id) open_ s s t b

variable {S : Scene} {g : Landings} {A : Anchor} {open_ : List (BlockId × Bool)} {s₀ s t u : State} {σ τ : Store}
  {m : Machine} {x y : TypedSlot} {v : Value} {id c : NodeId} {hint : Option TypedSlot} {offer : Option Offer}
  {demanded : Bool}

theorem hintFits_none {ctx : Context} : HintFits ctx s none := by
  intro x hx
  cases hx

theorem offerFits_none : OfferFits s none := by
  intro o ho
  cases ho

/-! ## Values that arrive -/

theorem Held.read {live : TypedSlot → Bool} {o : Operand} (h : Held S live m x o) (ha : Agrees S A none σ m) :
    ∃ v, (Eval.read o).on σ = some (.ok v, σ) ∧ m.registers.get? x = some v := by
  cases o with
  | value v => exact ⟨v, rfl, h.1⟩
  | var j =>
    obtain ⟨v, hv, hr⟩ := ha.vars j x h nofun
    refine ⟨v, ?_, hr⟩
    show (Eval.lift (Fault.expect σ.locals[j]?)).on σ = _
    rw [hv]
    rfl

/-- A value in its target is delivered. -/
theorem Lowering.Target.delivers (h : Target S.ctx s t id hint x) (hv : Stored S A x v τ m)
    (hlive : ∀ y, A.live y = true → s.pool.isLive y = true) :
    Delivered S A t.pool.isLive hint τ m (some x) (some (.value v)) := by
  rcases h.place with ⟨hhint, -⟩ | ⟨hdead, hvars, hl⟩
  · exact .stored hhint hv
  · have hA : A.live x = false := by
      cases hx : A.live x with
      | false => rfl
      | true => rw [hlive x hx] at hdead; cases hdead
    exact .held (hv.agrees.unskip hA h.loose hvars) ⟨hv.value, .inl hl⟩

theorem Lowering.Target.placed (h : Target S.ctx s t id hint x) (h₀ : Since s₀ s) : Placed S.ctx s₀ t id x := by
  refine ⟨h.kind, h.has, ?_⟩
  rcases h.place with ⟨-, hb⟩ | ⟨hdead, -, -⟩
  · exact .inr hb
  · exact .inl (h₀.dead hdead)

/-- The registers of the final program cover every slot of the pool. -/
theorem Final.covered (h : Final S g t) (ha : Agrees S A hint σ m) (hx : t.pool.has x) : m.registers.has x = true :=
  ha.covers x (Nat.lt_of_lt_of_le hx (h.sizes x.kind))

/-- A value or nothing has got to where the parent wants it. -/
inductive Arrived (S : Scene) (A : Anchor) (σ : Store) (m : Machine) : Option TypedSlot → Option Operand → Prop
  | nothing : Agrees S A none σ m → Arrived S A σ m none none
  | stored {x : TypedSlot} {v : Value} : Stored S A x v σ m → Arrived S A σ m (some x) (some (.value v))

/-- A value that was delivered anywhere is in its target once it is there or was moved there. -/
theorem Delivered.there {live : TypedSlot → Bool} {o : Operand} (h : Delivered S A live hint σ m (some x) (some o)) :
    ∃ v, (Eval.read o).on σ = some (.ok v, σ) ∧ Stored S A x v σ m ∧ (hint = some x ∨ Agrees S A none σ m) := by
  cases h with
  | held ha hheld =>
    obtain ⟨v, hread, hx⟩ := hheld.read ha
    exact ⟨v, hread, ⟨ha.leaveOut x, hx⟩, .inr ha⟩
  | stored hhint hv => exact ⟨_, rfl, hv, .inl hhint⟩

/-! ## What a built node hands over -/

namespace Built

variable {e : Eval (Option Operand)} {v : Visited}

/-- The node's slot may be given back by a consumer that began when it did. -/
theorem lent (h : Built S e id demanded open_ hint offer s t v) : Lent s t id := by
  obtain ⟨_, hdone⟩ := h.done
  refine ⟨h.fresh, h.touched, fun x region hx hb => ?_⟩
  rw [hdone] at hx
  cases hslot : v.slot with
  | none => rw [hslot] at hx; cases hx
  | some y =>
    rw [hslot] at hx
    cases hx
    rcases (h.placed x hslot).loose with hdead | hborrowed
    · exact hdead
    · rw [hb] at hborrowed
      cases hborrowed

/-- Announcing a reader comes before. -/
theorem announced {k : Nat} (hb : Books S.ctx s)
    (h : Built S e id demanded open_ hint offer (s.setNode id { s.node id with pending := k }) t v) :
    Built S e id demanded open_ hint offer s t v := by
  have hfresh : (s.node id).progress = .untouched := (node_pending s id id k).1.symm.trans h.fresh
  have hstart : Along S.ctx s (s.setNode id { s.node id with pending := k }) := hb.along.setNode hfresh (.inl rfl)
  refine ⟨⟨hstart.trans h.along, hstart.since.toGrows.trans h.grows, h.touched, h.slot, fun y hy => ?_, fun ht => ?_,
    fun hn _ _ _ _ hr => ?_⟩, hfresh, h.done⟩
  · exact ⟨(h.placed y hy).kind, (h.placed y hy).has, (h.placed y hy).loose⟩
  · obtain ⟨o, ho, htaken⟩ := h.taken ht
    exact ⟨o, ho, htaken.kind, htaken.start, htaken.stop, htaken.leaves⟩
  · exact h.runs hn ⟨hr.final, hr.scope, hr.live, hr.agrees, hr.pc⟩

end Built

/-! ## Operands -/

/-- A child was lowered for an operator, which will read it from `y`. -/
structure Operated (S : Scene) (x : Eval Operand) (c : NodeId) (open_ : List (BlockId × Bool)) (s t : State)
    (y : TypedSlot) : Prop where
  along : Along S.ctx s t
  kind : S.ctx.function.kind? c = some y.kind
  lent : Lent s t c
  runs : ∀ {g A σ m}, Ready S g A open_ s s t σ m →
    Follows S g A s.draft.label t.draft.label 0 (x.on σ) m 0 fun o τ m₁ =>
      m₁.pc = t.draft.label ∧ Agrees S A none τ m₁ ∧ Held S t.pool.isLive m₁ y o

/-- What earlier operands hold stays readable while the next one runs. -/
theorem Operated.follows {e : Eval Operand} (h : Operated S e c open_ s t y) (h₀ : Since s₀ s)
    (hr : Ready S g A open_ s₀ s t σ m) :
    Follows S g A s.draft.label t.draft.label 0 (e.on σ) m 0 fun o τ m₁ =>
      m₁.pc = t.draft.label ∧ Agrees S A none τ m₁ ∧ Held S t.pool.isLive m₁ y o ∧
        ∀ z o', Held S s.pool.isLive m z o' → Held S t.pool.isLive m₁ z o' := by
  have hlive : ∀ x, A.live x = true → s.pool.isLive x = true := fun x hx => h₀.live x (hr.live x hx)
  have hrun := h.runs ⟨hr.final, hr.scope, fun _ hx => hx, hr.agrees.anchor s.pool.isLive, hr.pc⟩
  refine (hrun.rebase hr.agrees hlive).post ?_
  rintro o τ m₁ ⟨hpc, ha, hheld⟩
  exact ⟨hpc, ha.rebase hr.agrees hlive, hheld, fun z o' hz => hz.later ha h.along.since.live⟩

namespace Builds

variable {w : Walk} {ev : ChildEval}

theorem value {taken : Bool} (hw : Builds S w ev) (hst : S.ctx.function.Stands c demanded open_) (hb : Books S.ctx s)
    (hh : HintFits S.ctx s hint) (ho : OfferFits s offer) (hr : w.value c hint offer s = .ok ((y, taken), t)) :
    Built S (ev demanded c) c demanded open_ hint offer s t ⟨some y, taken⟩ := by
  obtain ⟨_, s₁, halloc, hr⟩ := bind_ok hr
  cases halloc
  obtain ⟨⟨slot, taken'⟩, s₂, hbuild, hr⟩ := bind_ok hr
  cases slot with
  | none => cases hr
  | some z =>
    cases hr
    -- Whether the node is fresh is only known once it is built.
    have hbooks : Books S.ctx (s.setNode c { s.node c with pending := (s.node c).pending + 1 }) := by
      have hnode := fun i => (node_pending s c i ((s.node c).pending + 1)).1
      refine ⟨hb.clean, hb.pool, hb.tallies, by simpa [State.setNode] using hb.arena, fun i hi => ?_, hb.few⟩
      rw [hnode] at hi
      exact hb.spent i hi
    exact (hw.build hst hbooks hh ho hbuild).announced hb

theorem operand (hw : Builds S w ev) {edge : Edge}
    (hst : S.ctx.function.Stands c (S.ctx.function.reads demanded c edge) open_) (hb : Books S.ctx s)
    (hr : w.operand c s = .ok (y, t)) : Operated S (S.reading.operand ev demanded edge c) c open_ s t y := by
  obtain ⟨⟨z, taken⟩, s₁, hvalue, hr⟩ := bind_ok hr
  cases hr
  have h := hw.value hst hb hintFits_none offerFits_none hvalue
  have hplaced := h.placed z rfl
  have htaken : taken = false := by
    cases taken with
    | false => rfl
    | true =>
      obtain ⟨o, ho, -⟩ := h.taken rfl
      cases ho
  refine ⟨h.along, hplaced.kind, h.lent, fun hready => ?_⟩
  refine (h.runs htaken hready).bind ?_
  rintro o τ m₁ ⟨hpc, -, hd⟩
  cases hd with
  | held ha hheld => exact .ok (Nat.le_refl 0) ⟨hpc, ha, hheld⟩
  | stored hhint => cases hhint

end Builds

/-! ## Children that stand for their parent -/

/-- A child was lowered for its effects, or for a value that goes to `target`. -/
structure Forwarded (S : Scene) (x : Eval (Option Operand)) (c : NodeId) (open_ : List (BlockId × Bool))
    (target : Option TypedSlot) (offer : Option Offer) (s t : State) (took : Bool) : Prop where
  along : Along S.ctx s t
  taken : took = true → ∃ o, offer = some o ∧ Taken S x c open_ o s t
  runs : took = false → ∀ {g A σ m}, Ready S g A open_ s s t σ m →
    Follows S g A s.draft.label t.draft.label 0 (x.on σ) m 0 fun o τ m₁ =>
      m₁.pc = t.draft.label ∧ S.ctx.function.Completes c ∧ Arrived S A τ m₁ target o

/-- The target of a child whose type has values. -/
def Function.aim (f : Function) (c : NodeId) (target : Option TypedSlot) : Option TypedSlot :=
  if (f.kind? c).isSome then target else none

namespace Builds

variable {w : Walk} {ev : ChildEval} {taken : Bool} {target : Option TypedSlot}

theorem effect (hw : Builds S w ev) (hst : S.ctx.function.Stands c false open_) (hb : Books S.ctx s)
    (ho : OfferFits s offer) (hr : w.effect c offer s = .ok (taken, t)) :
    Forwarded S (ev false c) c open_ none offer s t taken := by
  obtain ⟨⟨slot, taken'⟩, s₁, hbuild, hr⟩ := bind_ok hr
  cases hr
  have h := hw.build hst hb hintFits_none ho hbuild
  obtain rfl : slot = none := Option.isNone_iff_eq_none.1 (by simpa using h.slot)
  refine ⟨h.along, h.taken, fun hn _ _ _ _ hready => (h.runs hn hready).post ?_⟩
  rintro o τ m₁ ⟨hpc, hc, hd⟩
  cases hd with
  | nothing ha => exact ⟨hpc, hc, .nothing ha⟩

/-- Without a value, forwarding changes nothing. -/
theorem forward_none (hread : S.ctx.function.reads demanded c .forward = false)
    (h : Forwarded S (ev false c) c open_ none offer s t taken) :
    Forwarded S (S.reading.forward ev demanded c) c open_ none offer s t taken := by
  rw [Reading.forward, show S.reading.function.reads demanded c .forward = false from hread]
  refine ⟨h.along, fun ht => ?_, fun hn _ _ _ _ hready => (h.runs hn hready).bind ?_⟩
  · obtain ⟨o, ho, htaken⟩ := h.taken ht
    refine ⟨o, ho, htaken.kind, htaken.start, htaken.stop, fun g hf hscope => ?_⟩
    obtain ⟨e, a, hland, hdecides, hleaves⟩ := htaken.leaves g hf hscope
    refine ⟨e, a, hland, hdecides, fun A σ m ha => ?_⟩
    rw [Eval.on_bind, hleaves A σ m ha]
  · rintro o τ m₁ ⟨hpc, hc, harrived⟩
    cases harrived with
    | nothing ha => exact .ok (Nat.le_refl 0) ⟨hpc, hc, .nothing ha⟩

/-- A value delivered elsewhere is moved to where it belongs. -/
theorem moved {s₁ : State} (h : Built S (ev true c) c true open_ (some x) offer s s₁ ⟨some y, false⟩)
    (hread : S.ctx.function.reads true c .forward = true) (hx : s.pool.has x ∧ x ∉ S.ctx.params) (hne : y ≠ x)
    (hk : y.kind = x.kind) {u : State} (hu : u = { s₁ with draft := s₁.draft.add (.move x.kind x.slot y.slot) })
    (hfreed : Freed S.ctx s u t) : Forwarded S (S.reading.forward ev true c) c open_ (some x) offer s t false := by
  subst hu
  have hlabel : t.draft.label = s₁.draft.label + 1 := by
    rw [hfreed.draft]
    exact Draft.label_add _ _
  refine ⟨hfreed.along, nofun, fun _ _ _ _ _ hready => ?_⟩
  have hfinal := hfreed.grows.final hready.final
  have hgrows : Grows s₁ _ := .redraft (Draft.before_add h.along.books.clean (.move x.kind x.slot y.slot))
  have hcode := hfinal.emitted (by simp) rfl
  have hrun := h.runs rfl ⟨hgrows.final hfinal, hready.scope, hready.live, hready.agrees, hready.pc⟩
  unfold Reading.forward
  rw [show S.reading.function = S.ctx.function from rfl, hread]
  refine (hrun.widen (Nat.le_refl _) (by omega)).bind ?_
  rintro o τ m₁ ⟨hpc, hc, hd⟩
  obtain ⟨o, rfl⟩ : ∃ o', o = some o' := by cases hd <;> exact ⟨_, rfl⟩
  obtain ⟨v, hv, hstored, hor⟩ := hd.there
  rcases hor with hhint | ha
  · exact absurd (Option.some.inj hhint).symm hne
  · have hhas : m₁.registers.has x = true := hready.final.covered ha (hfreed.along.since.has hx.1)
    have hmove := Image.performs_move (by rw [hpc]; exact hcode) hhas hstored.value hk
    refine .silent hv (.writes hmove (hpc ▸ h.grows.label) (by omega) ha hx.2 hhas fun hto => ?_)
    exact .ok (Nat.zero_le _) ⟨by simp [Machine.wrote, hpc, hlabel], hc, .stored hto⟩

/-- A value delivered where it belongs. -/
theorem unmoved {s₁ : State} (h : Built S (ev true c) c true open_ (some x) offer s s₁ ⟨some x, false⟩)
    (hread : S.ctx.function.reads true c .forward = true) (hfreed : Freed S.ctx s s₁ t) :
    Forwarded S (S.reading.forward ev true c) c open_ (some x) offer s t false := by
  refine ⟨hfreed.along, nofun, fun _ _ _ _ _ hready => ?_⟩
  have hrun := h.runs rfl ⟨hfreed.grows.final hready.final, hready.scope, hready.live, hready.agrees, hready.pc⟩
  unfold Reading.forward
  rw [show S.reading.function = S.ctx.function from rfl, hread, hfreed.draft]
  refine hrun.bind ?_
  rintro o τ m₁ ⟨hpc, hc, hd⟩
  obtain ⟨o, rfl⟩ : ∃ o', o = some o' := by cases hd <;> exact ⟨_, rfl⟩
  obtain ⟨v, hv, hstored, -⟩ := hd.there
  exact .silent hv (.ok (Nat.le_refl 0) ⟨hpc, hc, .stored hstored⟩)

theorem valueInto (hw : Builds S w ev) (hst : S.ctx.function.Stands c (S.ctx.function.reads true c .forward) open_)
    (hb : Books S.ctx s) (hx : s.pool.has x ∧ x ∉ S.ctx.params) (ho : OfferFits s offer)
    (hr : w.valueInto S.ctx c x offer s = .ok (taken, t)) :
    Forwarded S (S.reading.forward ev true c) c open_ (S.ctx.function.aim c (some x)) offer s t taken := by
  unfold Walk.valueInto at hr
  cases hk : S.ctx.function.kind? c with
  | none =>
    have hread : S.ctx.function.reads true c .forward = false := by simp [Function.reads, hk]
    rw [hread] at hst
    simp only [hk] at hr
    have haim : S.ctx.function.aim c (some x) = none := by simp [Function.aim, hk]
    rw [haim]
    exact forward_none hread (hw.effect hst hb ho hr)
  | some k =>
    have hread : S.ctx.function.reads true c .forward = true := by simp [Function.reads, hk]
    have haim : S.ctx.function.aim c (some x) = some x := by simp [Function.aim, hk]
    rw [hread] at hst
    rw [haim]
    simp only [hk] at hr
    split at hr
    · cases hr
    · rename_i hkind
      obtain rfl : k = x.kind := Decidable.not_not.1 hkind
      obtain ⟨⟨y, taken'⟩, s₁, hvalue, hr⟩ := bind_ok hr
      have hfits : HintFits S.ctx s (some x) := by
        rintro z hz
        cases hz
        exact hx
      have h := hw.value hst hb hfits ho hvalue
      -- Only what has no value can take a tail.
      obtain rfl : taken' = false := by
        cases htaken : taken' with
        | false => rfl
        | true =>
          obtain ⟨o, -, ht⟩ := h.taken htaken
          rw [ht.kind] at hk
          cases hk
      have hyk : y.kind = x.kind := Option.some.inj ((h.placed y rfl).kind.symm.trans hk)
      by_cases hne : y = x
      · subst hne
        simp only [ne_eq, not_true_eq_false, if_false] at hr
        obtain ⟨_, s₂, hrelease, hr⟩ := bind_ok hr
        cases hr
        exact unmoved h hread (release_ok h.along h.lent hrelease)
      · simp only [ne_eq, hne, not_false_eq_true, if_true] at hr
        obtain ⟨_, s₂, hemit, hr⟩ := bind_ok hr
        obtain ⟨_, s₃, hrelease, hr⟩ := bind_ok hr
        cases hr
        obtain ⟨_, hadd, rfl⟩ := drafting_ok hemit
        cases hadd
        have halong := h.along.redraft (Draft.before_add h.along.books.clean (.move x.kind x.slot y.slot))
        exact moved h hread hx hne hyk rfl (release_ok halong h.lent.redraft hrelease)

theorem forward (hw : Builds S w ev) (htarget : target.isSome = demanded)
    (hst : S.ctx.function.Stands c (S.ctx.function.reads demanded c .forward) open_) (hb : Books S.ctx s)
    (hx : HintFits S.ctx s target) (ho : OfferFits s offer) (hr : w.forward S.ctx c target offer s = .ok (taken, t)) :
    Forwarded S (S.reading.forward ev demanded c) c open_ (S.ctx.function.aim c target) offer s t taken := by
  cases target with
  | some x =>
    cases htarget
    exact hw.valueInto hst hb (hx x rfl) ho hr
  | none =>
    cases htarget
    have hread : S.ctx.function.reads false c .forward = false := rfl
    have haim : S.ctx.function.aim c none = none := ite_self none
    rw [haim]
    exact forward_none hread (hw.effect hst hb ho hr)

end Builds

/-! ## In a region -/

theorem Forwarded.inRegion {e : Eval (Option Operand)} {act : Lower Bool} {took : Bool} {target : Option TypedSlot}
    (h : ∀ regions next u, act { s with regions := regions, nextRegion := next } = .ok (took, u) →
      Forwarded S e c open_ target offer { s with regions := regions, nextRegion := next } u took)
    (hb : Books S.ctx s) (hr : Lowering.inRegion act s = .ok (took, t)) :
    Forwarded S e c open_ target offer s t took := by
  obtain ⟨u, rest, hact, rfl⟩ := inRegion_ok hr
  have hinner := h _ _ u hact
  have halong := (hb.along.inRegion _ _).trans hinner.along
  refine ⟨halong.inRegion rest _, fun ht => ?_, fun hn _ _ _ _ hready => ?_⟩
  · obtain ⟨o, ho, htaken⟩ := hinner.taken ht
    refine ⟨o, ho, htaken.kind, htaken.start, htaken.stop, fun g hf hscope => htaken.leaves g ?_ hscope⟩
    exact ⟨hf.code, hf.blocks, hf.loops, hf.texts, hf.sites, hf.sizes⟩
  · refine hinner.runs hn ⟨?_, hready.scope, hready.live, hready.agrees, hready.pc⟩
    have hf := hready.final
    exact ⟨hf.code, hf.blocks, hf.loops, hf.texts, hf.sites, hf.sizes⟩

/-! ## The node itself -/

theorem Scene.Valid.completes (hS : S.Valid) {n : Node} (hst : S.ctx.function.Stands id demanded open_)
    (hn : S.ctx.function.node? id = some n) (h : n.expr.mayNotComplete = false) : S.ctx.function.Completes id := by
  intro n' hn' htype
  obtain rfl := Option.some.inj (hn.symm.trans hn')
  rw [hS.shaped.ends id n hst.reachable hn htype] at h
  cases h

theorem Scene.Valid.isDemanded (hS : S.Valid) (hb : Books S.ctx s) (hst : S.ctx.function.Stands id demanded open_) :
    s.demand.isDemanded id = demanded := by
  rw [Demand.isDemanded, Demand.tally, hb.tallies]
  exact hS.shaped.tree.demanded_eq hS.bound hst

/-- A node's own lowering begins: its consumer came at `s₀`, and it is marked as underway. -/
structure Entry (S : Scene) (s₀ s : State) (id : NodeId) (demanded : Bool) (open_ : List (BlockId × Bool))
    (hint : Option TypedSlot) : Prop where
  along : Along S.ctx s₀ s
  fresh : (s₀.node id).progress = .untouched
  underway : (s.node id).progress = .underway
  stands : S.ctx.function.Stands id demanded open_
  hint : HintFits S.ctx s hint

/-- The node has its slot, if its value is read. -/
structure Slotted (S : Scene) (s₀ s t : State) (id : NodeId) (demanded : Bool) (hint r : Option TypedSlot) : Prop
    extends Targeted S.ctx s₀ s t where
  before : Since s₀ s
  underway : (t.node id).progress = .underway
  slot : r.isSome = demanded
  target : ∀ x, r = some x → Target S.ctx s t id hint x

namespace Entry

variable {r : Option TypedSlot}

theorem touched (h : Entry S s₀ s id demanded open_ hint) : (s.node id).progress ≠ .untouched := by
  rw [h.underway]
  exact Progress.noConfusion

/-- The children do not touch the node. -/
theorem advance (h : Entry S s₀ s id demanded open_ hint) (ht : Along S.ctx s t) : Entry S s₀ t id demanded open_ hint := by
  refine ⟨h.along.trans ht, h.fresh, ?_, h.stands, fun x hx => ⟨ht.since.has (h.hint x hx).1, (h.hint x hx).2⟩⟩
  rw [ht.since.nodes id h.touched, h.underway]

theorem resultSlot (h : Entry S s₀ s id true open_ hint) (hr : S.ctx.resultSlot id hint s = .ok (x, t)) :
    Slotted S s₀ s t id true hint (some x) := by
  obtain ⟨htargeted, htarget⟩ := resultSlot_ok h.along h.fresh h.underway h.hint hr
  refine ⟨htargeted, h.along.since, (htargeted.progress id).trans h.underway, rfl, fun y hy => ?_⟩
  cases hy
  exact htarget

/-- A node whose value nobody reads has no slot. -/
theorem unslotted (h : Entry S s₀ s id false open_ hint) : Slotted S s₀ s s id false hint none :=
  ⟨⟨h.along, .refl h.along.books.clean, rfl, fun _ hx => hx, fun _ => rfl⟩, h.along.since, h.underway, rfl, nofun⟩

theorem demandedSlot (hS : S.Valid) (h : Entry S s₀ s id demanded open_ hint)
    (hr : S.ctx.demandedSlot id hint s = .ok (r, t)) : Slotted S s₀ s t id demanded hint r := by
  obtain ⟨read, s₁, hread, hr⟩ := bind_ok hr
  cases hread
  rw [hS.isDemanded h.along.books h.stands] at hr
  cases demanded with
  | false =>
    cases hr
    exact h.unslotted
  | true =>
    obtain ⟨x, hx, rfl⟩ := map_ok hr
    exact h.resultSlot hx

end Entry

namespace Slotted

variable {r : Option TypedSlot}

theorem touched {s' t' : State} (h : Slotted S s₀ s' t' id demanded hint r) : (t'.node id).progress ≠ .untouched := by
  rw [h.underway]
  exact Progress.noConfusion

/-- What follows the choice of the slot does not touch the node, so the slot is where its value is. -/
theorem placed {s' t' : State} (h : Slotted S s₀ s' t' id demanded hint r) (ht : Since t' t) (hx : r = some x) :
    Placed S.ctx s₀ t id x := ((h.target x hx).since h.touched ht).placed h.before

theorem after {s' t' : State} (h : Slotted S s₀ s' t' id demanded hint r) (ht : Since t' t) :
    (t.node id).progress ≠ .untouched := by
  rw [ht.nodes id h.touched]
  exact h.touched

theorem lowered {e : Eval (Option Operand)} {s' t' : State} (h : Slotted S s₀ s' t' id demanded hint r) (hs : Grows s s')
    (ht : Along S.ctx t' t)
    (hruns : ∀ {g A σ m}, Ready S g A open_ s₀ s t σ m →
      Follows S g A s.draft.label t.draft.label 0 (e.on σ) m 0 (Ends S A id t hint r)) :
    Lowered S e id demanded open_ hint offer s₀ s t ⟨r, false⟩ :=
  ⟨h.along.trans ht, hs.trans (h.grows.trans ht.since.toGrows), h.after ht.since, h.slot, fun _ => h.placed ht.since, nofun,
    fun _ => hruns⟩

theorem delivers {s' t' : State} (h : Slotted S s₀ s' t' id demanded hint (some x)) (ht : Since t' t)
    (hlive : ∀ y, A.live y = true → s₀.pool.isLive y = true) (hv : Stored S A x v τ m) :
    Delivered S A t.pool.isLive hint τ m (some x) (some (.value v)) :=
  ((h.target x rfl).since h.touched ht).delivers hv fun y hy => h.before.live y (hlive y hy)

end Slotted

end SlotCode
