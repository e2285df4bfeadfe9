/-
  SlotCode.Proofs.Contract — what a step of lowering promises.

  A step starts from a state and either ends in a state, with an answer, or fails. `Meets`
  says both at once: from a state that satisfies `P`, the step ends in `Q` or fails with
  an error that satisfies `E`. A contract of a composed step follows from those of its
  parts. `Keeps` is the contract of a step that leaves one view of the state as it was;
  the steps that only write the books of nodes, slots, regions and tables keep the code.
-/

import SlotCode.Lowering.Compile

namespace SlotCode

/-! ## Composed computations, taken apart -/

theorem bind_eq_ok {ε α β : Type} {x : Except ε α} {f : α → Except ε β} {b : β} (h : x >>= f = .ok b) :
    ∃ a, x = .ok a ∧ f a = .ok b := by
  cases x with
  | error e => cases h
  | ok a => exact ⟨a, rfl, h⟩

theorem bind_eq_error {ε α β : Type} {x : Except ε α} {f : α → Except ε β} {e : ε} (h : x >>= f = .error e) :
    x = .error e ∨ ∃ a, x = .ok a ∧ f a = .error e := by
  cases x with
  | error e => cases h; exact .inl rfl
  | ok a => exact .inr ⟨a, rfl, h⟩

/-- The operands of a connective. -/
def Connective.operands : Connective → List NodeId
  | .not operand => [operand]
  | .shortCircuit _ first second => [first, second]

theorem Expr.operands_connective {e : Expr} {k : Connective} (h : e.connective? = some k) : k.operands = e.children := by
  unfold Expr.connective? at h
  split at h <;> cases h <;> rfl

namespace Lowering

variable {α β : Type} {s t : State}

theorem bind_ok {x : Lower α} {f : α → Lower β} {b : β} (h : (x >>= f) s = .ok (b, t)) :
    ∃ a s', x s = .ok (a, s') ∧ f a s' = .ok (b, t) := by
  obtain ⟨⟨a, s'⟩, hx, hf⟩ := bind_eq_ok (show (x s >>= fun p => f p.1 p.2) = .ok (b, t) from h)
  exact ⟨a, s', hx, hf⟩

theorem get_run {f : State → Lower α} : (get >>= f) s = f s s := rfl

theorem map_ok {x : Lower α} {f : α → β} {b : β} (h : (f <$> x) s = .ok (b, t)) : ∃ a, x s = .ok (a, t) ∧ f a = b := by
  obtain ⟨a, s', hx, hf⟩ := bind_ok (show (x >>= fun a => pure (f a)) s = .ok (b, t) from h)
  cases hf
  exact ⟨a, hx, rfl⟩

theorem drafting_ok {act : Drafting α} {a : α} (h : drafting act s = .ok (a, t)) :
    ∃ d, act s.draft = .ok a d ∧ t = { s with draft := d } := by
  obtain ⟨s', s₁, h₁, h₂⟩ := bind_ok h
  cases h₁
  cases hact : act s.draft with
  | ok a' d =>
    simp only [EStateM.run, hact] at h₂
    cases h₂
    exact ⟨d, rfl, rfl⟩
  | error e d =>
    simp only [EStateM.run, hact] at h₂
    cases h₂

theorem inRegion_ok {act : Lower α} {a : α} (h : inRegion act s = .ok (a, t)) :
    ∃ u rest, act { s with regions := s.nextRegion :: s.regions, nextRegion := s.nextRegion + 1 } = .ok (a, u) ∧
      t = { u with regions := rest } := by
  obtain ⟨r, s₁, h₁, h₂⟩ := bind_ok h
  obtain ⟨a', u, h₃, h₄⟩ := bind_ok h₂
  obtain ⟨_, s₃, h₅, h₆⟩ := bind_ok h₄
  cases h₁
  cases h₆
  obtain ⟨u', _, h₇, h₈⟩ := bind_ok h₅
  cases h₇
  cases hregions : u.regions with
  | nil =>
    simp only [hregions] at h₈
    cases h₈
  | cons top rest =>
    simp only [hregions] at h₈
    split at h₈
    · cases h₈
      exact ⟨u, rest, h₃, rfl⟩
    · cases h₈

theorem emit_ok {ins : Instruction} (hr : emit ins s = .ok ((), t)) : t = { s with draft := s.draft.add ins } := by
  obtain ⟨_, hadd, rfl⟩ := drafting_ok hr
  cases hadd
  rfl

theorem label_ok {n : Nat} (hr : label s = .ok (n, t)) : n = s.draft.label ∧ t = s := by
  obtain ⟨_, hlabel, rfl⟩ := drafting_ok hr
  cases hlabel
  exact ⟨rfl, rfl⟩

/-! ## Single nodes -/

theorem node_setNode (s : State) (id : NodeId) (n : NodeState) (i : NodeId) :
    (s.setNode id n).node i = if id = i ∧ id < s.nodes.size then n else s.node i := by
  simp only [State.setNode, State.node, Array.getD_eq_getD_getElem?, Array.getElem?_setIfInBounds]
  by_cases h : id = i
  · subst h
    by_cases hlt : id < s.nodes.size <;> simp [hlt]
  · simp [h]

theorem lt_of_touched {id : NodeId} (h : (s.node id).progress ≠ .untouched) : id < s.nodes.size := by
  rcases Nat.lt_or_ge id s.nodes.size with hlt | hge
  · exact hlt
  · have hnone : s.nodes[id]? = none := Array.getElem?_eq_none hge
    exact absurd (by simp [State.node, hnone]) h

/-! ## Steps by their parts -/

/-- The last part of a bounds check: the checked index, moved to where its value is wanted. -/
def checkedIndex (ctx : Context) (id index : NodeId) (hint : Option TypedSlot) (i : TypedSlot) : Lower Visited := do
  release index
  match ← ctx.demandedSlot id hint with
  | none => return {}
  | some r =>
    if r ≠ i then emit (.move .int r.slot i.slot)
    return { slot := some r }

/-- The jump over the else arm, if there is one, leads to the next position. -/
def landHere : Option Patch → Lower Unit
  | some jump => do drafting (Drafting.patch jump (.address (← label)))
  | none => pure ()

/-- The else arm of two, after the jump over it, if there is one. -/
def secondArm (ctx : Context) (w : Walk) (b : Branch) (elseArm : NodeId) (target : Option TypedSlot)
    (skip : Option Patch) : Lower Unit := do
  drafting (b.resolve false (.address (← label)))
  let _ ← arm ctx w elseArm target none
  landHere skip

/-! ## Contracts -/

variable {γ : Type} {P P' : State → Prop} {Q Q' : α → State → Prop} {E : BuildError → Prop}

/-- From a state that satisfies `P`, the step ends in `Q` or fails with an error that satisfies `E`. -/
def Meets (P : State → Prop) (act : Lower α) (Q : α → State → Prop) (E : BuildError → Prop) : Prop :=
  ∀ s, P s → match act s with
    | .ok (a, t) => Q a t
    | .error e => E e

theorem Meets.bind {x : Lower α} {f : α → Lower β} {R : β → State → Prop} (hx : Meets P x Q E)
    (hf : ∀ a, Meets (Q a) (f a) R E) : Meets P (x >>= f) R E := by
  intro s hs
  have h := hx s hs
  simp only [Bind.bind, StateT.bind, Except.bind]
  cases hr : x s with
  | error e => rw [hr] at h; exact h
  | ok r =>
    obtain ⟨a, t⟩ := r
    rw [hr] at h
    exact hf a t h

theorem Meets.pure {a : α} (h : ∀ s, P s → Q a s) : Meets P (Pure.pure a) Q E := fun s hs => h s hs

theorem Meets.fail {e : BuildError} (h : E e) : Meets P (throw e : Lower α) Q E := fun _ _ => h

theorem Meets.map {act : Lower α} {f : α → β} {R : β → State → Prop} (h : Meets P act (fun a => R (f a)) E) :
    Meets P (f <$> act) R E :=
  (h.bind fun _ => .pure fun _ hs => hs : Meets P (act >>= fun a => Pure.pure (f a)) R E)

theorem Meets.post {act : Lower α} (h : Meets P act Q E) (hq : ∀ a s, Q a s → Q' a s) : Meets P act Q' E := by
  intro s hs
  have := h s hs
  split at this
  · exact hq _ _ this
  · exact this

theorem Meets.pre {act : Lower α} (h : Meets P act Q E) (hp : ∀ s, P' s → P s) : Meets P' act Q E :=
  fun s hs => h s (hp s hs)

/-- A hypothesis that does not speak of the state may be taken out of the precondition. -/
theorem Meets.given {p : Prop} {act : Lower α} (h : p → Meets P act Q E) : Meets (fun s => p ∧ P s) act Q E :=
  fun s hs => h hs.1 s hs.2

/-- A step that goes on with the state it finds. -/
theorem Meets.read {f : State → Lower α} (h : ∀ s, P s → Meets (· = s) (f s) Q E) : Meets P (MonadState.get >>= f) Q E :=
  fun s hs => h s hs s rfl

/-- The states that satisfy the precondition, one by one. -/
theorem Meets.each {act : Lower α} (h : ∀ s, P s → Meets (· = s) act Q E) : Meets P act Q E := fun s hs => h s hs s rfl

/-- A step whose outcome is known. -/
theorem Meets.step {x : Lower α} {f : α → Lower β} {R : β → State → Prop} {a : α} (hx : x s = .ok (a, t))
    (hf : Meets (· = t) (f a) R E) : Meets (· = s) (x >>= f) R E := by
  intro s' hs
  subst hs
  simp only [Bind.bind, StateT.bind, Except.bind, hx]
  exact hf t rfl

theorem Meets.ok {act : Lower α} (h : Meets P act Q E) {s t : State} {a : α} (hs : P s) (hr : act s = .ok (a, t)) :
    Q a t := by
  have := h s hs
  rwa [hr] at this

theorem Meets.error {act : Lower α} (h : Meets P act Q E) {s : State} {e : BuildError} (hs : P s)
    (hr : act s = .error e) : E e := by
  have := h s hs
  rwa [hr] at this

/-! ## Steps that only look -/

/-- The step changes nothing; what it gives satisfies `p`. -/
def Checks (act : Lower α) (p : α → Prop) (E : BuildError → Prop) : Prop :=
  ∀ s, match act s with
    | .ok (a, t) => p a ∧ t = s
    | .error e => E e

theorem Checks.pure {a : α} {p : α → Prop} (h : p a) : Checks (Pure.pure a) p E := fun _ => ⟨h, rfl⟩

theorem Checks.fail {e : BuildError} {p : α → Prop} (h : E e) : Checks (throw e : Lower α) p E := fun _ => h

theorem Checks.bind {x : Lower α} {f : α → Lower β} {p : α → Prop} {q : β → Prop} (hx : Checks x p E)
    (hf : ∀ a, p a → Checks (f a) q E) : Checks (x >>= f) q E := by
  intro s
  have h := hx s
  simp only [Bind.bind, StateT.bind, Except.bind]
  cases hr : x s with
  | error e => rw [hr] at h; exact h
  | ok r =>
    obtain ⟨a, t⟩ := r
    rw [hr] at h
    obtain ⟨hp, rfl⟩ := h
    exact hf a hp t

theorem Checks.post {act : Lower α} {p q : α → Prop} (h : Checks act p E) (hq : ∀ a, p a → q a) : Checks act q E := by
  intro s
  have := h s
  split at this
  · exact ⟨hq _ this.1, this.2⟩
  · exact this

theorem Checks.meets {act : Lower α} {p : α → Prop} (h : Checks act p E) : Meets P act (fun a s => p a ∧ P s) E := by
  intro s hs
  have := h s
  split at this
  · obtain ⟨hp, rfl⟩ := this
    exact ⟨hp, hs⟩
  · exact this

/-! ## Two steps side by side -/

/-- `act'` does what `act` does, and `act` meets its contract. -/
structure Mirrors (P : State → Prop) (act' act : Lower α) (Q : α → State → Prop) (E : BuildError → Prop) : Prop where
  meets : Meets P act Q E
  same : ∀ s, P s → act' s = act s

theorem Meets.mirrors {act : Lower α} (h : Meets P act Q E) : Mirrors P act act Q E := ⟨h, fun _ _ => rfl⟩

namespace Mirrors

variable {act' act : Lower α}

theorem bind {x' x : Lower α} {f' f : α → Lower β} {R : β → State → Prop} (hx : Mirrors P x' x Q E)
    (hf : ∀ a, Mirrors (Q a) (f' a) (f a) R E) : Mirrors P (x' >>= f') (x >>= f) R E := by
  refine ⟨hx.meets.bind fun a => (hf a).meets, fun s hs => ?_⟩
  simp only [Bind.bind, StateT.bind, Except.bind, hx.same s hs]
  cases hr : x s with
  | error e => rfl
  | ok r => exact (hf r.1).same r.2 (hx.meets.ok hs hr)

theorem pure {a : α} (h : ∀ s, P s → Q a s) : Mirrors P (Pure.pure a) (Pure.pure a) Q E := (Meets.pure h).mirrors

theorem fail {e : BuildError} (h : E e) : Mirrors P (throw e : Lower α) (throw e) Q E := (Meets.fail h).mirrors

theorem post (h : Mirrors P act' act Q E) (hq : ∀ a s, Q a s → Q' a s) : Mirrors P act' act Q' E :=
  ⟨h.meets.post hq, h.same⟩

theorem pre (h : Mirrors P act' act Q E) (hp : ∀ s, P' s → P s) : Mirrors P' act' act Q E :=
  ⟨h.meets.pre hp, fun s hs => h.same s (hp s hs)⟩

theorem given {p : Prop} (h : p → Mirrors P act' act Q E) : Mirrors (fun s => p ∧ P s) act' act Q E :=
  ⟨.given fun hp => (h hp).meets, fun s hs => (h hs.1).same s hs.2⟩

theorem each (h : ∀ s, P s → Mirrors (· = s) act' act Q E) : Mirrors P act' act Q E :=
  ⟨.each fun s hs => (h s hs).meets, fun s hs => (h s hs).same s rfl⟩

/-- Both go the same way. -/
theorem ite {c : Prop} [Decidable c] {other' other : Lower α} (hyes : c → Mirrors P act' act Q E)
    (hno : ¬ c → Mirrors P other' other Q E) : Mirrors P (if c then act' else other') (if c then act else other) Q E := by
  by_cases hc : c
  · simp only [hc, if_true]
    exact hyes hc
  · simp only [hc, if_false]
    exact hno hc

theorem step {x : Lower α} {f' f : α → Lower β} {R : β → State → Prop} {a : α} (hx : x s = .ok (a, t))
    (hf : Mirrors (· = t) (f' a) (f a) R E) : Mirrors (· = s) (x >>= f') (x >>= f) R E :=
  ⟨.step hx hf.meets, fun s' hs => by
    subst hs
    simp only [Bind.bind, StateT.bind, Except.bind, hx]
    exact hf.same t rfl⟩

theorem stop {x : Lower α} {f' f : α → Lower β} {R : β → State → Prop} {e : BuildError} (hx : x s = .error e) (he : E e) :
    Mirrors (· = s) (x >>= f') (x >>= f) R E :=
  ⟨fun s' hs => by subst hs; simpa only [Bind.bind, StateT.bind, Except.bind, hx] using he, fun s' hs => by
    subst hs
    simp only [Bind.bind, StateT.bind, Except.bind, hx]⟩

theorem check {x : Lower α} {f' f : α → Lower β} {R : β → State → Prop} {p : α → Prop} (hx : Checks x p E)
    (hf : ∀ a, p a → Mirrors P (f' a) (f a) R E) : Mirrors P (x >>= f') (x >>= f) R E :=
  hx.meets.mirrors.bind fun a => .given (hf a)

end Mirrors

/-! ## Steps that leave a view of the state alone -/

/-- The step leaves the view as it was, or fails with an error that satisfies `E`. -/
def Keeps (view : State → γ) (E : BuildError → Prop) (act : Lower α) : Prop :=
  ∀ s, match act s with
    | .ok (_, t) => view t = view s
    | .error e => E e

variable {view : State → γ}

/-- What depends on the view only is kept. -/
theorem Keeps.stable {act : Lower α} (h : Keeps view E act) (hp : ∀ s t, view t = view s → P s → P t) :
    Meets P act (fun _ => P) E := by
  intro s hs
  have := h s
  split at this
  · exact hp s _ this hs
  · exact this

theorem Keeps.view_eq {act : Lower α} (h : Keeps view E act) {a : α} (hr : act s = .ok (a, t)) : view t = view s := by
  have := h s
  rwa [hr] at this

theorem Keeps.pure {a : α} : Keeps view E (Pure.pure a) := fun _ => rfl

theorem Keeps.fail {e : BuildError} (h : E e) : Keeps view E (throw e : Lower α) := fun _ => h

theorem Keeps.bind {x : Lower α} {f : α → Lower β} (hx : Keeps view E x) (hf : ∀ a, Keeps view E (f a)) :
    Keeps view E (x >>= f) := by
  intro s
  have h := hx s
  simp only [Bind.bind, StateT.bind, Except.bind]
  cases hr : x s with
  | error e => rw [hr] at h; exact h
  | ok r =>
    obtain ⟨a, t⟩ := r
    rw [hr] at h
    have h' := hf a t
    simp only at h ⊢
    split at h'
    · rw [h', h]
    · exact h'

theorem Keeps.get : Keeps view E (MonadState.get : Lower State) := fun _ => rfl

/-- A step that goes on with the state it finds. -/
theorem Keeps.read {f : State → Lower α}
    (h : ∀ s, match f s s with
      | .ok (_, t) => view t = view s
      | .error e => E e) : Keeps view E (MonadState.get >>= f) := fun s => h s

theorem Keeps.modifyGet {f : State → α × State} (h : ∀ s, view (f s).2 = view s) :
    Keeps view E (MonadState.modifyGet f : Lower α) := fun s => h s

theorem Keeps.update {f : State → State} (h : ∀ s, view (f s) = view s) : Keeps view E (modify f : Lower PUnit) :=
  fun s => h s

/-! ## Steps that keep an invariant -/

section

variable {ι κ : Type} {I : ι → State → Prop} {J : κ → State → Prop} {p : α → Prop} {q : β → Prop} {act : Lower α}

/-- Each of the invariants that holds before the step holds after it, and what the step gives satisfies `p`. -/
def Upholds (I : ι → State → Prop) (E : BuildError → Prop) (act : Lower α) (p : α → Prop) : Prop :=
  ∀ i, Meets (I i) act (fun a s => p a ∧ I i s) E

theorem Checks.upholds (h : Checks act p E) : Upholds I E act p := fun _ => h.meets

theorem Keeps.upholds (h : Keeps view E act) (hI : ∀ i s t, view t = view s → I i s → I i t) :
    Upholds I E act fun _ => True :=
  fun i => (h.stable (hI i)).post fun _ _ hs => ⟨trivial, hs⟩

namespace Upholds

theorem pure {a : α} (h : p a) : Upholds I E (Pure.pure a) p := fun _ => .pure fun _ hs => ⟨h, hs⟩

theorem fail {e : BuildError} (h : E e) : Upholds I E (throw e : Lower α) p := fun _ => .fail h

theorem get : Upholds I E (MonadState.get : Lower State) fun _ => True := fun _ _ hs => ⟨trivial, hs⟩

theorem bind {f : α → Lower β} (hx : Upholds I E act p) (hf : ∀ a, p a → Upholds I E (f a) q) :
    Upholds I E (act >>= f) q := fun i => (hx i).bind fun a => .given fun ha => hf a ha i

theorem post {p' : α → Prop} (h : Upholds I E act p) (hp : ∀ a, p a → p' a) : Upholds I E act p' :=
  fun i => (h i).post fun a _ hs => ⟨hp a hs.1, hs.2⟩

theorem map {f : α → β} (h : Upholds I E act fun a => q (f a)) : Upholds I E (f <$> act) q := fun i => .map (h i)

theorem ite {c : Prop} [Decidable c] {other : Lower α} (hyes : c → Upholds I E act p) (hno : ¬ c → Upholds I E other p) :
    Upholds I E (if c then act else other) p := by
  split
  · exact hyes ‹_›
  · exact hno ‹_›

theorem forM {f : β → Lower PUnit} (h : ∀ b, Upholds I E (f b) fun _ => True) (bs : List β) :
    Upholds I E (bs.forM f) fun _ => True := by
  induction bs with
  | nil => exact .pure trivial
  | cons b bs ih => exact (h b).bind fun _ _ => ih

/-- An invariant is upheld wherever one that implies it from the same state is. -/
theorem coarsen {E' : BuildError → Prop} (h : Upholds I E act p)
    (hJ : ∀ k s, J k s → ∃ i, I i s ∧ ∀ t, I i t → J k t) (hE : ∀ e, E e → E' e) : Upholds J E' act p := by
  intro k s hs
  obtain ⟨i, hi, hback⟩ := hJ k s hs
  have hmeets := h i s hi
  split at hmeets
  · exact ⟨hmeets.1, hback _ hmeets.2⟩
  · exact hE _ hmeets

end Upholds

end

end Lowering

end SlotCode
