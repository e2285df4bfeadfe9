/-
  SlotCode.Proofs.TypedBooks — slots of the right kind, and code that fits them.

  `Typed` is the invariant of lowering a function whose nodes have the kinds that their
  expressions give them: the slot of a built node has the node's kind and is one of the
  pool's, and every instruction so far fits the tables so far, unless it only holds a
  place. What is known of the tables is a bound from below (`Tables`); tables only grow,
  so what was known stays true.

  Proved: one lemma for each step of the books and of the code.
-/

import SlotCode.Proofs.Accounts
import SlotCode.Proofs.Bookkeeping
import SlotCode.Proofs.Operands

namespace SlotCode

/-- Whether a node has the kind of value that its expression gives it. -/
def Function.hasKind (f : Function) (n : Node) : Bool :=
  match n.expr.fixedType? f.scope with
  | .ok (some type) => n.type.kind? == type.kind?
  | _ => true

/-- Every node has the kind of value that its expression gives it. -/
def Function.WellTyped (f : Function) : Prop := ∀ n ∈ f.nodes.toList, f.hasKind n = true

instance (f : Function) : Decidable f.WellTyped := inferInstanceAs (Decidable (∀ n ∈ f.nodes.toList, f.hasKind n = true))

theorem Function.WellTyped.kind {f : Function} (h : f.WellTyped) {id : NodeId} {n : Node} (hn : f.node? id = some n)
    {type : ValueType} (ht : n.expr.fixedType? f.scope = .ok (some type)) : f.kind? id = type.kind? := by
  have hkind := h n (Array.mem_toList_iff.2 (Array.mem_of_getElem? hn))
  simp only [hasKind, ht, beq_iff_eq] at hkind
  simpa [Function.kind?, hn] using hkind

/-- Every instruction fits, unless it only holds a place. -/
def Draft.Fits (env : Environment) (t : Tables) (d : Draft) : Prop :=
  ∀ (i : Nat) (ins : Instruction), d.code[i]? = some ins → ins = .nop ∨ ins.Fits env t

theorem Draft.Fits.mono {env : Environment} {t u : Tables} {d : Draft} (h : d.Fits env t) (htu : t ≤ u) : d.Fits env u :=
  fun i ins hi => (h i ins hi).imp_right fun hfit => hfit.mono htu

theorem Draft.Fits.set {env : Environment} {t : Tables} {d : Draft} (h : d.Fits env t) {ins : Instruction}
    (hins : ins = .nop ∨ ins.Fits env t) (position : Nat) (reserved : List Nat) :
    Draft.Fits env t ⟨d.code.setIfInBounds position ins, reserved⟩ := by
  intro i other hi
  have hi : (d.code.setIfInBounds position ins)[i]? = some other := hi
  rw [Array.getElem?_setIfInBounds] at hi
  split at hi
  · split at hi
    · cases hi
      exact hins
    · cases hi
  · exact h i other hi

namespace Lowering

def State.tables (s : State) : Tables := ⟨s.pool.has, s.texts.size, s.sites.size⟩

/-- Built values are in slots of their kinds, and the code fits. At least the tables `k` are there. -/
structure Typed (ctx : Context) (k : Tables) (s : State) : Prop where
  known : k ≤ s.tables
  pool : s.pool.Sound (ctx.params ++ ctx.vars)
  built : ∀ id x region, (s.node id).progress = .built (some x) region →
    ctx.function.kind? id = some x.kind ∧ s.pool.has x
  code : s.draft.Fits ctx.env s.tables
  sites : ∀ (i : Nat) (site : CallSite), s.sites[i]? = some site → site.Fits ctx.env s.tables

/-- Lowering may fail for any reason. -/
def Anyhow (_ : BuildError) : Prop := True

variable {α β : Type} {ctx : Context} {k : Tables} {s t : State} {id : NodeId}

theorem Checks.anyhow {E : BuildError → Prop} {act : Lower α} {p : α → Prop} (h : Checks act p E) : Checks act p Anyhow := by
  intro s
  have := h s
  split at this
  · exact this
  · exact trivial

theorem Meets.check {P : State → Prop} {E : BuildError → Prop} {x : Lower α} {f : α → Lower β} {p : α → Prop}
    {R : β → State → Prop} (hx : Checks x p E) (hf : ∀ a, p a → Meets P (f a) R Anyhow) : Meets P (x >>= f) R Anyhow :=
  hx.anyhow.meets.bind fun a => .given (hf a)

/-! ## Changes of the books -/

theorem Typed.weaken {k' : Tables} (h : Typed ctx k s) (hk : k' ≤ k) : Typed ctx k' s :=
  { h with known := Tables.le_trans hk h.known }

/-- The books after tables have grown; each built node was built before or is in order. -/
theorem Typed.grow {k' : Tables} (h : Typed ctx k s) (ht : s.tables ≤ t.tables) (hk : k' ≤ t.tables)
    (hpool : t.pool.Sound (ctx.params ++ ctx.vars)) (hcode : t.draft = s.draft)
    (hsites : ∀ (i : Nat) (site : CallSite), t.sites[i]? = some site → s.sites[i]? = some site ∨ site.Fits ctx.env t.tables)
    (hbuilt : ∀ id x region, (t.node id).progress = .built (some x) region →
      (s.node id).progress = .built (some x) region ∨ ctx.function.kind? id = some x.kind ∧ t.pool.has x) :
    Typed ctx k' t := by
  refine ⟨hk, hpool, fun id x region hp => ?_, ?_, fun i site hi => ?_⟩
  · rcases hbuilt id x region hp with hp | hnew
    · exact (h.built id x region hp).imp_right (ht.has x)
    · exact hnew
  · rw [hcode]
    exact h.code.mono ht
  · rcases hsites i site hi with hi | hnew
    · exact (h.sites i site hi).mono ht
    · exact hnew

/-- What the invariant speaks of. -/
def State.typedPart (s : State) : Pool × Array NodeState × Draft × Array String × Array CallSite :=
  (s.pool, s.nodes, s.draft, s.texts, s.sites)

theorem Typed.of_part (h : Typed ctx k s) (e : t.typedPart = s.typedPart) : Typed ctx k t := by
  obtain ⟨hpool, e⟩ := Prod.mk.inj e
  obtain ⟨hnodes, e⟩ := Prod.mk.inj e
  obtain ⟨hdraft, e⟩ := Prod.mk.inj e
  obtain ⟨htexts, hsites⟩ := Prod.mk.inj e
  have htables : t.tables = s.tables := by simp only [State.tables, hpool, htexts, hsites]
  refine h.grow (htables ▸ Tables.le_refl _) (htables ▸ h.known) (hpool ▸ h.pool) hdraft ?_ ?_
  · rw [hsites]
    exact fun i site hi => .inl hi
  · intro id x region hp
    left
    rwa [State.node, hnodes] at hp

theorem typed_keeps {act : Lower α} (h : Keeps State.typedPart Anyhow act) :
    Meets (Typed ctx k) act (fun _ => Typed ctx k) Anyhow :=
  h.stable fun _ _ e hs => hs.of_part e

/-- A change of one node that builds nothing. -/
theorem Typed.setNode {n : NodeState} (h : Typed ctx k s)
    (hn : ∀ x region, n.progress = .built (some x) region → (s.node id).progress = .built (some x) region) :
    Typed ctx k (s.setNode id n) := by
  refine h.grow (Tables.le_refl _) h.known h.pool rfl (fun i site hi => .inl hi) fun i x region hp => .inl ?_
  rw [node_setNode] at hp
  split at hp
  · rename_i hi
    exact hi.1 ▸ hn x region hp
  · exact hp

/-! ## Steps of the books -/

theorem typed_isDemanded : Meets (Typed ctx k) (isDemanded id) (fun _ => Typed ctx k) Anyhow :=
  typed_keeps fun _ => rfl

theorem typed_consume (u : Usage) : Meets (Typed ctx k) (consume id u) (fun _ => Typed ctx k) Anyhow := by
  refine typed_keeps (.read fun s => ?_)
  rcases s.demand.consume id u with (_ | _) | _
  · exact trivial
  · exact trivial
  · exact rfl

theorem typed_closeRegion (r : Region) : Meets (Typed ctx k) (closeRegion r) (fun _ => Typed ctx k) Anyhow := by
  refine typed_keeps (.read fun s => ?_)
  cases s.regions with
  | nil => exact trivial
  | cons top rest =>
    by_cases h : top = r
    · simp only [h, if_true]
      exact rfl
    · simp only [h, if_false]
      exact trivial

theorem typed_inRegion {k' : α → Tables} {act : Lower α}
    (h : Meets (Typed ctx k) act (fun a => Typed ctx (k' a)) Anyhow) :
    Meets (Typed ctx k) (inRegion act) (fun a => Typed ctx (k' a)) Anyhow := by
  have hopen : Meets (Typed ctx k) openRegion (fun _ => Typed ctx k) Anyhow := typed_keeps fun _ => rfl
  exact hopen.bind fun r => h.bind fun a => (typed_closeRegion r).bind fun _ => .pure fun _ hs => hs

theorem typed_alloc : Meets (Typed ctx k) (alloc id) (fun _ => Typed ctx k) Anyhow :=
  fun _ hs => hs.setNode fun _ _ hp => hp

theorem typed_borrow : Meets (Typed ctx k) (borrow id) (fun _ => Typed ctx k) Anyhow :=
  fun _ hs => hs.setNode fun _ _ hp => hp

theorem typed_underway : Meets (Typed ctx k) (setProgress id .underway) (fun _ => Typed ctx k) Anyhow :=
  fun _ hs => hs.setNode fun _ _ hp => nomatch hp

/-- A node is built with its value in a known slot of its kind. -/
theorem typed_built {slot : Option TypedSlot} (region : Region)
    (hx : ∀ x, slot = some x → ctx.function.kind? id = some x.kind ∧ k.has x) :
    Meets (Typed ctx k) (setProgress id (.built slot region)) (fun _ => Typed ctx k) Anyhow := by
  intro s hs
  refine hs.grow (Tables.le_refl _) hs.known hs.pool rfl (fun i site hi => .inl hi) fun i x region' hp => ?_
  have hp : (State.setNode s id { s.node id with progress := .built slot region } |>.node i).progress = _ := hp
  rw [node_setNode] at hp
  split at hp
  · rename_i hi
    cases hp
    exact .inr ⟨hi.1 ▸ (hx x rfl).1, hs.known.has x (hx x rfl).2⟩
  · exact .inl hp

theorem Typed.acquire (h : Typed ctx k s) (kind : Kind) :
    Typed ctx (k.adding [⟨kind, (s.pool.acquire kind).1⟩]) { s with pool := (s.pool.acquire kind).2 } := by
  have hpool := h.pool.acquire kind
  have hgrown : s.tables ≤ State.tables { s with pool := (s.pool.acquire kind).2 } :=
    ⟨fun x hx => Nat.lt_of_lt_of_le hx (hpool.size x.kind), Nat.le_refl _, Nat.le_refl _⟩
  refine h.grow hgrown ⟨fun x hx => ?_, h.known.texts, h.known.sites⟩ hpool.sound rfl (fun i site hi => .inl hi)
    fun i x region hp => .inl hp
  rcases hx with hx | hx
  · obtain rfl := List.mem_singleton.1 hx
    exact hpool.has
  · exact hgrown.has x (h.known.has x hx)

theorem typed_acquire (kind : Kind) :
    Meets (Typed ctx k) (acquire kind)
      (fun x s => (x.kind = kind ∧ x ∉ ctx.params ++ ctx.vars) ∧ Typed ctx (k.adding [x]) s) Anyhow :=
  fun _ hs => ⟨⟨rfl, (hs.pool.acquire kind).loose⟩, hs.acquire kind⟩

theorem typed_releaseSlot (x : TypedSlot) : Meets (Typed ctx k) (releaseSlot x) (fun _ => Typed ctx k) Anyhow := by
  refine .read fun s hs => ?_
  cases hr : s.pool.release x.kind x.slot with
  | error e => exact .fail trivial
  | ok pool =>
    intro t ht
    subst ht
    have hreleased := hs.pool.release hr
    have hgrown : t.tables ≤ State.tables { t with pool } :=
      ⟨fun y hy => Nat.lt_of_lt_of_le hy (hreleased.size y.kind).ge, Nat.le_refl _, Nat.le_refl _⟩
    exact hs.grow hgrown (Tables.le_trans hs.known hgrown) hreleased.sound rfl (fun i site hi => .inl hi)
      fun i y region hp => .inl hp

theorem typed_vacate : Meets (Typed ctx k) (vacate id) (fun _ => Typed ctx k) Anyhow := by
  have hlook : Meets (Typed ctx k) (nodeState id) (fun _ => Typed ctx k) Anyhow := typed_keeps fun _ => rfl
  refine hlook.bind fun n => ?_
  split
  · exact (typed_releaseSlot _).bind fun _ => typed_built _ nofun
  · exact .pure fun _ hs => hs

theorem typed_release : Meets (Typed ctx k) (release id) (fun _ => Typed ctx k) Anyhow := by
  have hlook : Meets (Typed ctx k) (nodeState id) (fun n s => n = s.node id ∧ Typed ctx k s) Anyhow := fun s hs => ⟨rfl, hs⟩
  refine hlook.bind fun n => ?_
  split
  · exact .fail trivial
  · have hless : Meets (fun s => n = s.node id ∧ Typed ctx k s) (modify (·.setNode id { n with pending := n.pending - 1 }))
        (fun _ => Typed ctx k) Anyhow := fun s ⟨hn, hs⟩ => hs.setNode fun _ _ hp => hn ▸ hp
    refine hless.bind fun _ => .bind (typed_keeps .get) fun _ => ?_
    split
    · exact typed_vacate
    · exact .pure fun _ hs => hs

/-- A slot that a consumer would like the value in is known. -/
def Holds (k : Tables) (hint : Option TypedSlot) : Prop := ∀ x, hint = some x → k.has x

theorem Holds.mono {k' : Tables} {hint : Option TypedSlot} (h : Holds k hint) (hk : k ≤ k') : Holds k' hint :=
  fun x hx => hk.has x (h x hx)

theorem typed_resultSlot {hint : Option TypedSlot} (hhint : Holds k hint) :
    Meets (Typed ctx k) (ctx.resultSlot id hint)
      (fun x s => ctx.function.kind? id = some x.kind ∧ Typed ctx (k.adding [x]) s) Anyhow := by
  unfold Context.resultSlot
  split
  · exact .fail trivial
  · rename_i kind hkind
    have hacquire : Meets (Typed ctx k) (acquire kind)
        (fun x s => ctx.function.kind? id = some x.kind ∧ Typed ctx (k.adding [x]) s) Anyhow :=
      (typed_acquire kind).post fun x s hx => ⟨hx.1.1 ▸ hkind, hx.2⟩
    split
    · rename_i h
      refine .bind (typed_keeps .get) fun _ => ?_
      split
      · rename_i hsame
        refine typed_borrow.bind fun _ => .pure fun t ht => ⟨hsame.1 ▸ hkind, ?_⟩
        refine { ht with known := ⟨fun x hx => ?_, ht.known.texts, ht.known.sites⟩ }
        rcases hx with hx | hx
        · obtain rfl := List.mem_singleton.1 hx
          exact ht.known.has x (hhint x rfl)
        · exact ht.known.has x hx
      · exact hacquire
    · exact hacquire

theorem typed_demandedSlot {hint : Option TypedSlot} (hhint : Holds k hint) :
    Meets (Typed ctx k) (ctx.demandedSlot id hint)
      (fun r s => (∀ x, r = some x → ctx.function.kind? id = some x.kind) ∧ Typed ctx (k.adding r.toList) s) Anyhow := by
  refine typed_isDemanded.bind fun b => ?_
  split
  · refine .map ((typed_resultSlot hhint).post fun x s hx => ⟨fun y hy => ?_, hx.2⟩)
    cases hy
    exact hx.1
  · exact .pure fun s hs => ⟨nofun, hs.weaken ⟨fun x hx => hx.resolve_left nofun, Nat.le_refl _, Nat.le_refl _⟩⟩

theorem typed_intern (text : String) :
    Meets (Typed ctx k) (intern text) (fun index => Typed ctx { k with texts := max k.texts (index + 1) }) Anyhow := by
  intro s hs
  show Typed ctx { k with texts := max k.texts ((s.table.intern text).1 + 1) } { s with table := (s.table.intern text).2 }
  rcases s.table.intern_cases text with ⟨index, hat, heq⟩ | ⟨-, hindex, htexts⟩
  · have hlt : index < s.texts.size := (Array.getElem?_eq_some_iff.1 hat).1
    rw [heq]
    exact { hs with known := ⟨hs.known.has, Nat.max_le.2 ⟨hs.known.texts, hlt⟩, hs.known.sites⟩ }
  · have hsize : (State.texts { s with table := (s.table.intern text).2 }).size = s.texts.size + 1 := by
      rw [State.texts, htexts, Array.size_push]
      rfl
    have hle : s.texts.size ≤ (State.texts { s with table := (s.table.intern text).2 }).size := by omega
    have hgrown : s.tables ≤ State.tables { s with table := (s.table.intern text).2 } := ⟨fun _ hx => hx, hle, Nat.le_refl _⟩
    refine hs.grow hgrown ⟨hs.known.has, Nat.max_le.2 ⟨Nat.le_trans hs.known.texts hle, ?_⟩, hs.known.sites⟩ hs.pool rfl
      (fun i site hi => .inl hi) fun i x region hp => .inl hp
    rw [hindex]
    exact Nat.le_of_eq hsize.symm

theorem typed_addSite {site : CallSite} (hsite : site.Fits ctx.env k) :
    Meets (Typed ctx k) (addSite site) (fun index => Typed ctx { k with sites := max k.sites (index + 1) }) Anyhow := by
  intro s hs
  have hsize : s.sites.size ≤ (s.sites.push site).size := by simp
  have hgrown : s.tables ≤ State.tables { s with sites := s.sites.push site } := ⟨fun _ hx => hx, Nat.le_refl _, hsize⟩
  refine hs.grow hgrown ⟨hs.known.has, hs.known.texts, Nat.max_le.2 ⟨Nat.le_trans hs.known.sites hsize, ?_⟩⟩ hs.pool rfl
    (fun i other hi => ?_) fun i x region hp => .inl hp
  · simp [State.tables]
  · have hi : (s.sites.push site)[i]? = some other := hi
    rw [Array.getElem?_push] at hi
    split at hi
    · cases hi
      exact .inr (hsite.mono (Tables.le_trans hs.known hgrown))
    · exact .inl hi

/-! ## Steps of the code -/

/-- The edit keeps code that fits at least the tables `k`. -/
def Refits (env : Environment) (k : Tables) (act : Drafting α) : Prop :=
  ∀ t, k ≤ t → ∀ d, d.Fits env t → ∀ a d', act d = .ok a d' → d'.Fits env t

theorem typed_drafting {act : Drafting α} (h : Refits ctx.env k act) :
    Meets (Typed ctx k) (drafting act) (fun _ => Typed ctx k) Anyhow := by
  intro s hs
  split
  · rename_i a t hr
    obtain ⟨d, hd, rfl⟩ := drafting_ok hr
    exact ⟨hs.known, hs.pool, hs.built, h _ hs.known _ hs.code a d hd, hs.sites⟩
  · exact trivial

namespace Refits

variable {env : Environment}

theorem bind {x : Drafting α} {f : α → Drafting β} (hx : Refits env k x) (hf : ∀ a, Refits env k (f a)) :
    Refits env k (x >>= f) := by
  intro t hk d hd b d' hr
  have hr : EStateM.bind x f d = .ok b d' := hr
  rw [EStateM.bind] at hr
  split at hr
  · rename_i a d₁ h₁
    exact hf a t hk d₁ (hx t hk d hd a d₁ h₁) b d' hr
  · cases hr

theorem pure {a : α} : Refits env k (Pure.pure a) := by
  intro t _ d hd a d' hr
  cases hr
  exact hd

theorem label : Refits env k Drafting.label := by
  intro t _ d hd a d' hr
  cases hr
  exact hd

theorem add {ins : Instruction} (h : ins.Fits env k) : Refits env k (Drafting.add ins) := by
  intro t hk d hd a d' hr i other hi
  cases hr
  have hi : (d.code.push ins)[i]? = some other := hi
  rw [Array.getElem?_push] at hi
  split at hi
  · cases hi
    exact .inr (h.mono hk)
  · exact hd i other hi

theorem addJump {ins : Instruction} (h : ins.Fits env k) : Refits env k (Drafting.addJump ins) := by
  intro t hk d hd a d' hr
  simp only [Drafting.addJump, Drafting.edit, Draft.addJump] at hr
  split at hr
  · rename_i hadd
    split at hadd
    · cases hadd
      cases hr
      exact add h t hk d hd () _ rfl
    · cases hadd
  · cases hr

theorem reserve : Refits env k Drafting.reserve := by
  intro t _ d hd a d' hr i other hi
  cases hr
  have hi : (d.code.push .nop)[i]? = some other := hi
  rw [Array.getElem?_push] at hi
  split at hi
  · cases hi
    exact .inl rfl
  · exact hd i other hi

theorem fillJump {position : Nat} {ins : Instruction} (h : ins.Fits env k) : Refits env k (Drafting.fillJump position ins) := by
  intro t hk d hd a d' hr
  simp only [Drafting.fillJump, Drafting.edit, Draft.fillJump, Draft.fill] at hr
  split at hr
  · rename_i hfill
    split at hfill
    · split at hfill
      · cases hfill
        cases hr
        exact hd.set (.inr (h.mono hk)) position _
      · cases hfill
    · cases hfill
  · cases hr

theorem patch {p : Patch} {target : Label} : Refits env k (Drafting.patch p target) := by
  intro t hk d hd a d' hr
  simp only [Drafting.patch, Drafting.edit, Draft.patch] at hr
  cases hi : d.code[p.position]? with
  | none =>
    simp only [hi] at hr
    cases hr
  | some ins =>
    simp only [hi] at hr
    split at hr
    · rename_i hpatch
      split at hpatch
      · cases hpatch
      · cases hpatch
        cases hr
        refine hd.set ?_ p.position _
        rcases hd _ _ hi with rfl | hfit
        · exact .inl rfl
        · exact .inr (hfit.retarget target)
      · cases hpatch
    · cases hr

theorem patchAll (ps : List Patch) {target : Label} : Refits env k (Drafting.patchAll ps target) := by
  induction ps with
  | nil => exact .pure
  | cons p ps ih => exact .bind .patch fun _ => ih

theorem onSlot (cond : Slot) : Refits env k (Branch.onSlot cond) :=
  .bind .reserve fun _ => .bind .label fun _ => .pure

variable {b : Branch}

theorem defer (h : k.has ⟨.int, b.tail.cond⟩) (polarity : Bool) : Refits env k (b.defer polarity) := by
  have hjump : ∀ p target, (Instruction.jumpIf p b.tail.cond target).Fits env k := fun p target =>
    ⟨fun x hx => by obtain rfl := List.mem_singleton.1 hx; exact h, nofun, trivial⟩
  refine .bind (.fillJump (hjump _ _)) fun tail => ?_
  cases polarity <;> exact .bind (.patchAll _) fun _ => .pure

theorem resolve (h : k.has ⟨.int, b.tail.cond⟩) (polarity : Bool) (target : Label) : Refits env k (b.resolve polarity target) :=
  .bind (.defer h polarity) fun _ => .patchAll _

end Refits

theorem typed_emit {ins : Instruction} (h : ins.Fits ctx.env k) :
    Meets (Typed ctx k) (emit ins) (fun _ => Typed ctx k) Anyhow :=
  typed_drafting (.add h)

theorem typed_label : Meets (Typed ctx k) label (fun _ => Typed ctx k) Anyhow := typed_drafting .label

theorem typed_gotoPending : Meets (Typed ctx k) gotoPending (fun _ => Typed ctx k) Anyhow :=
  typed_drafting (.addJump (Instruction.fits_goto .pending))

theorem typed_onSlot (cond : Slot) :
    Meets (Typed ctx k) (drafting (Branch.onSlot cond)) (fun b s => b.tail.cond = cond ∧ Typed ctx k s) Anyhow := by
  intro s hs
  have hkeep := typed_drafting (Refits.onSlot cond) s hs
  cases hr : drafting (Branch.onSlot cond) s with
  | error e => exact trivial
  | ok r =>
    obtain ⟨b, t⟩ := r
    rw [hr] at hkeep
    obtain ⟨d, hd, -⟩ := drafting_ok hr
    cases hd
    exact ⟨rfl, hkeep⟩

end Lowering

end SlotCode
