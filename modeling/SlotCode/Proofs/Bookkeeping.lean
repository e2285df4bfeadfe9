/-
  SlotCode.Proofs.Bookkeeping — what the books say while a tree is lowered.

  `Grows` is what no step of lowering takes back: code, frames and tables only get more,
  and so does each partition. `Since` says besides that what was live stays live and that
  nodes lowered before are left alone. A consumer gives back slots of its operands, so it
  only satisfies `Since` from the state it started in; `Along` keeps track of that start.

  `Books` is the invariant of the books themselves: the pool is sound, every node has at
  most one consumer left, and none once its lowering has begun.

  Proved: each primitive step of lowering keeps the books, and what it hands out.
-/

import Mathlib.Data.List.Forall2
import SlotCode.Proofs.Contract
import SlotCode.Proofs.FinalCode
import SlotCode.Proofs.SlotPool
import SlotCode.Proofs.TreeShape

namespace SlotCode

namespace Lowering

variable {α β : Type} {s s₀ t u : State}

/-! ## What only grows -/

structure BlockFrame.Before (f g : BlockFrame) : Prop where
  block : f.block = g.block
  breaks : ∀ p ∈ f.breaks, p ∈ g.breaks

structure LoopFrame.Before (f g : LoopFrame) : Prop where
  loop : f.loop = g.loop
  header : f.header = g.header
  breaks : ∀ p ∈ f.breaks, p ∈ g.breaks

/-- The later state has all the code, frames, tables and slots of the earlier one. -/
structure Grows (s t : State) : Prop where
  draft : s.draft.Before t.draft
  blocks : List.Forall₂ BlockFrame.Before s.blocks t.blocks
  loops : List.Forall₂ LoopFrame.Before s.loops t.loops
  texts : ∀ (i : Nat) (x : String), s.texts[i]? = some x → t.texts[i]? = some x
  sites : ∀ (i : Nat) (x : CallSite), s.sites[i]? = some x → t.sites[i]? = some x
  sizes : ∀ k, (s.pool.get k).size ≤ (t.pool.get k).size

theorem blocks_refl (l : List BlockFrame) : List.Forall₂ BlockFrame.Before l l :=
  List.forall₂_same.2 fun _ _ => ⟨rfl, fun _ h => h⟩

theorem loops_refl (l : List LoopFrame) : List.Forall₂ LoopFrame.Before l l :=
  List.forall₂_same.2 fun _ _ => ⟨rfl, rfl, fun _ h => h⟩

theorem Grows.refl (h : s.draft.Clean) : Grows s s :=
  ⟨.refl h, blocks_refl _, loops_refl _, fun _ _ h => h, fun _ _ h => h, fun _ => Nat.le_refl _⟩

theorem forall₂_comp {γ : Type} {R : α → β → Prop} {Q : β → γ → Prop} {P : α → γ → Prop}
    (hP : ∀ a b c, R a b → Q b c → P a c) {l₁ : List α} {l₂ : List β} {l₃ : List γ} (h₁ : List.Forall₂ R l₁ l₂)
    (h₂ : List.Forall₂ Q l₂ l₃) : List.Forall₂ P l₁ l₃ := by
  induction h₁ generalizing l₃ with
  | nil => cases h₂; exact .nil
  | cons h _ ih =>
    cases h₂ with
    | cons h' hrest => exact .cons (hP _ _ _ h h') (ih hrest)

theorem Grows.trans (h₁ : Grows s t) (h₂ : Grows t u) : Grows s u where
  draft := h₁.draft.trans h₂.draft
  blocks := forall₂_comp (fun _ _ _ h h' => ⟨h.block.trans h'.block, fun p hp => h'.breaks p (h.breaks p hp)⟩)
    h₁.blocks h₂.blocks
  loops := forall₂_comp (fun _ _ _ h h' => ⟨h.loop.trans h'.loop, h.header.trans h'.header,
    fun p hp => h'.breaks p (h.breaks p hp)⟩) h₁.loops h₂.loops
  texts i x h := h₂.texts i x (h₁.texts i x h)
  sites i x h := h₂.sites i x (h₁.sites i x h)
  sizes k := Nat.le_trans (h₁.sizes k) (h₂.sizes k)

theorem Grows.label (h : Grows s t) : s.draft.label ≤ t.draft.label := h.draft.label

theorem Grows.has (h : Grows s t) {x : TypedSlot} (hx : s.pool.has x) : t.pool.has x :=
  Nat.lt_of_lt_of_le hx (h.sizes x.kind)

/-- Besides, live slots stay live and what was lowered before is left alone. -/
structure Since (s t : State) : Prop extends Grows s t where
  live : ∀ x, s.pool.isLive x = true → t.pool.isLive x = true
  nodes : ∀ id, (s.node id).progress ≠ .untouched → t.node id = s.node id

theorem Since.refl (h : s.draft.Clean) : Since s s := ⟨.refl h, fun _ h => h, fun _ _ => rfl⟩

theorem Since.trans (h₁ : Since s t) (h₂ : Since t u) : Since s u := by
  refine ⟨h₁.toGrows.trans h₂.toGrows, fun x hx => h₂.live x (h₁.live x hx), fun id hid => ?_⟩
  have h := h₁.nodes id hid
  rw [h₂.nodes id (by rwa [h]), h]

theorem Since.dead (h : Since s t) {x : TypedSlot} (hx : t.pool.isLive x = false) : s.pool.isLive x = false := by
  cases hs : s.pool.isLive x with
  | false => rfl
  | true => rw [h.live x hs] at hx; exact hx

theorem Since.untouched (h : Since s t) {id : NodeId} (hid : (t.node id).progress = .untouched) :
    (s.node id).progress = .untouched := by
  by_contra hs
  rw [h.nodes id hs] at hid
  exact hs hid

/-! ## The books -/

/-- The consumers of a node that have not come yet. -/
def State.consumers (s : State) (id : NodeId) : Nat := (s.demand.left.getD id {}).consumers

structure Books (ctx : Context) (s : State) : Prop where
  clean : s.draft.Clean
  pool : s.pool.Sound (ctx.params ++ ctx.vars)
  tallies : s.demand.tallies = ctx.function.tallies
  arena : s.nodes.size = s.demand.left.size
  spent : ∀ id, (s.node id).progress ≠ .untouched → s.consumers id = 0
  few : ∀ id, s.consumers id ≤ 1

/-- The books are in order, after a start whose slots and nodes were left alone. -/
structure Along (ctx : Context) (s₀ s : State) : Prop where
  since : Since s₀ s
  books : Books ctx s

variable {ctx : Context}

theorem Books.along (h : Books ctx s) : Along ctx s s := ⟨.refl h.clean, h⟩

theorem Along.trans (h₁ : Along ctx s₀ s) (h₂ : Along ctx s t) : Along ctx s₀ t := ⟨h₁.since.trans h₂.since, h₂.books⟩

/-! ## Edits of one part of the state -/

theorem Grows.still (h : s.draft.Clean) (hd : t.draft = s.draft) (hb : t.blocks = s.blocks) (hl : t.loops = s.loops)
    (ht : t.texts = s.texts) (hs : t.sites = s.sites) (hp : ∀ k, (s.pool.get k).size ≤ (t.pool.get k).size) :
    Grows s t := by
  refine ⟨?_, ?_, ?_, fun i x hi => ?_, fun i x hi => ?_, hp⟩
  · rw [hd]
    exact .refl h
  · rw [hb]
    exact blocks_refl _
  · rw [hl]
    exact loops_refl _
  · rwa [ht]
  · rwa [hs]

theorem Grows.redraft {d : Draft} (h : s.draft.Before d) : Grows s { s with draft := d } :=
  ⟨h, blocks_refl _, loops_refl _, fun _ _ h => h, fun _ _ h => h, fun _ => Nat.le_refl _⟩

theorem Along.redraft {d : Draft} (h : Along ctx s₀ s) (hd : s.draft.Before d) : Along ctx s₀ { s with draft := d } :=
  ⟨⟨h.since.toGrows.trans (.redraft hd), h.since.live, h.since.nodes⟩,
    ⟨hd.clean, h.books.pool, h.books.tallies, h.books.arena, h.books.spent, h.books.few⟩⟩

/-- The regions are not looked at. -/
theorem Along.inRegion (h : Along ctx s₀ s) (regions : List Region) (next : Region) :
    Along ctx s₀ { s with regions := regions, nextRegion := next } :=
  ⟨⟨h.since.toGrows.trans (.still h.books.clean rfl rfl rfl rfl rfl fun _ => Nat.le_refl _), h.since.live, h.since.nodes⟩,
    ⟨h.books.clean, h.books.pool, h.books.tallies, h.books.arena, h.books.spent, h.books.few⟩⟩

theorem Grows.setNode (h : s.draft.Clean) (id : NodeId) (n : NodeState) : Grows s (s.setNode id n) :=
  .still h rfl rfl rfl rfl rfl fun _ => Nat.le_refl _

/-- A node may change if it was untouched at the start; its lowering begins only when its consumer has come. -/
theorem Along.setNode {id : NodeId} {n : NodeState} (h : Along ctx s₀ s) (h₀ : (s₀.node id).progress = .untouched)
    (hn : n.progress = (s.node id).progress ∨ s.consumers id = 0) : Along ctx s₀ (s.setNode id n) := by
  refine ⟨⟨h.since.toGrows.trans (.setNode h.books.clean id n), h.since.live, fun i hi => ?_⟩,
    ⟨h.books.clean, h.books.pool, h.books.tallies, ?_, fun i hi => ?_, h.books.few⟩⟩
  · rw [node_setNode, if_neg, h.since.nodes i hi]
    rintro ⟨rfl, -⟩
    exact hi h₀
  · have := h.books.arena
    simpa [State.setNode] using this
  · rw [node_setNode] at hi
    split at hi
    · rename_i hid
      obtain ⟨rfl, -⟩ := hid
      rcases hn with hn | hn
      · exact h.books.spent id (hn ▸ hi)
      · exact hn
    · exact h.books.spent i hi

theorem Along.acquire (h : Along ctx s₀ s) (k : Kind) : Along ctx s₀ { s with pool := (s.pool.acquire k).2 } := by
  have hacq := h.books.pool.acquire k
  refine ⟨⟨h.since.toGrows.trans (.still h.books.clean rfl rfl rfl rfl rfl hacq.size), fun x hx => ?_, h.since.nodes⟩,
    ⟨h.books.clean, hacq.sound, h.books.tallies, h.books.arena, h.books.spent, h.books.few⟩⟩
  rw [hacq.live]
  split
  · rfl
  · exact h.since.live x hx

/-- A slot that was dead at the start may be given back. -/
theorem Along.giveBack {x : TypedSlot} {pool : Pool} (h : Along ctx s₀ s) (h₀ : s₀.pool.isLive x = false)
    (hr : s.pool.release x.kind x.slot = .ok pool) : Along ctx s₀ { s with pool } := by
  have hrel := h.books.pool.release hr
  refine ⟨⟨h.since.toGrows.trans (.still h.books.clean rfl rfl rfl rfl rfl fun k => Nat.le_of_eq (hrel.size k).symm),
    fun y hy => ?_, h.since.nodes⟩,
    ⟨h.books.clean, hrel.sound, h.books.tallies, h.books.arena, h.books.spent, h.books.few⟩⟩
  rw [hrel.live, if_neg, h.since.live y hy]
  rintro rfl
  rw [h₀] at hy
  cases hy

/-! ## Consumers -/

/-- The consumer that comes is the only one, so the node was not lowered before. -/
structure Consumed (ctx : Context) (s t : State) (id : NodeId) : Prop where
  untouched : (s.node id).progress = .untouched
  along : Along ctx s t
  node : t.node id = s.node id
  spent : t.consumers id = 0
  lt : id < t.nodes.size
  draft : t.draft = s.draft

theorem consume_ok {id : NodeId} {u : Usage} (hb : Books ctx s) (h : consume id u s = .ok ((), t)) :
    Consumed ctx s t id := by
  obtain ⟨_, _, hget, h⟩ := bind_ok h
  cases hget
  cases hl : s.demand.left[id]? with
  | none =>
    simp only [Demand.consume, hl] at h
    cases h
  | some l =>
    cases ht : l.take u with
    | none =>
      simp only [Demand.consume, hl, ht] at h
      cases h
    | some l' =>
      simp only [Demand.consume, hl, ht] at h
      cases h
      have hold : s.consumers id = l.consumers := by simp [State.consumers, hl]
      have hlt : id < s.demand.left.size := (Array.getElem?_eq_some_iff.1 hl).1
      have hfew := hb.few id
      have htake : 0 < l.consumers ∧ l'.consumers = l.consumers - 1 := by
        cases u <;> simp only [Left.take] at ht <;> split at ht <;> cases ht <;> exact ⟨by omega, rfl⟩
      have hnew : ∀ i, (((s.demand.left.setIfInBounds id l').getD i {}).consumers : Nat) =
          if id = i then l'.consumers else s.consumers i := by
        intro i
        simp only [State.consumers, Array.getD_eq_getD_getElem?, Array.getElem?_setIfInBounds]
        by_cases hi : id = i
        · subst hi
          simp [hlt]
        · simp [hi]
      have hzero : l'.consumers = 0 := by omega
      have huntouched : (s.node id).progress = .untouched := by
        by_contra hne
        have := hb.spent id hne
        omega
      refine ⟨huntouched, ⟨⟨.still hb.clean rfl rfl rfl rfl rfl fun _ => Nat.le_refl _, fun _ h => h, fun _ _ => rfl⟩,
        ⟨hb.clean, hb.pool, hb.tallies, ?_, fun i hi => ?_, fun i => ?_⟩⟩, rfl, ?_, ?_, rfl⟩
      · simpa using hb.arena
      · show ((s.demand.left.setIfInBounds id l').getD i {}).consumers = 0
        rw [hnew]
        split
        · exact hzero
        · exact hb.spent i hi
      · show ((s.demand.left.setIfInBounds id l').getD i {}).consumers ≤ 1
        rw [hnew]
        split
        · omega
        · exact hb.few i
      · show ((s.demand.left.setIfInBounds id l').getD id {}).consumers = 0
        rw [hnew, if_pos rfl, hzero]
      · show id < s.nodes.size
        rw [hb.arena]
        exact hlt

/-! ## Readers and their slots -/

/-- The slot of a node, if it is built and owns one, was dead at the start. -/
def Loose (s₀ s : State) (id : NodeId) : Prop :=
  ∀ x region, (s.node id).progress = .built (some x) region → (s.node id).borrowed = false → s₀.pool.isLive x = false

/-- A node was lowered after the start, and its reader may leave. -/
structure Lent (s₀ s : State) (id : NodeId) : Prop where
  fresh : (s₀.node id).progress = .untouched
  touched : (s.node id).progress ≠ .untouched
  loose : Loose s₀ s id

theorem Lent.since {id : NodeId} (h : Lent s₀ s id) (ht : Since s t) : Lent s₀ t id := by
  refine ⟨h.fresh, ?_, ?_⟩
  · rw [ht.nodes id h.touched]
    exact h.touched
  · unfold Loose
    rw [ht.nodes id h.touched]
    exact h.loose

theorem Lent.back {id : NodeId} (h : Lent s t id) (hs : Since s₀ s) : Lent s₀ t id :=
  ⟨hs.untouched h.fresh, h.touched, fun x region hx hb => hs.dead (h.loose x region hx hb)⟩

theorem Lent.redraft {id : NodeId} {d : Draft} (h : Lent s₀ s id) : Lent s₀ { s with draft := d } id :=
  ⟨h.fresh, h.touched, h.loose⟩

/-- Announcing readers changes neither progress nor ownership. -/
theorem node_pending (s : State) (id i : NodeId) (k : Nat) :
    ((s.setNode id { s.node id with pending := k }).node i).progress = (s.node i).progress ∧
      ((s.setNode id { s.node id with pending := k }).node i).borrowed = (s.node i).borrowed := by
  rw [node_setNode]
  split
  · rename_i h
    obtain ⟨rfl, -⟩ := h
    exact ⟨rfl, rfl⟩
  · exact ⟨rfl, rfl⟩

/-- A reader has left; the code is as before. -/
structure Freed (ctx : Context) (s₀ s t : State) : Prop where
  along : Along ctx s₀ t
  grows : Grows s t
  draft : t.draft = s.draft
  touched : ∀ id, (s.node id).progress ≠ .untouched → (t.node id).progress ≠ .untouched
  loose : ∀ id, Loose s₀ s id → Loose s₀ t id

theorem Lent.freed {id : NodeId} (h : Lent s₀ s id) (hf : Freed ctx s₀ s t) : Lent s₀ t id :=
  ⟨h.fresh, hf.touched id h.touched, hf.loose id h.loose⟩

theorem vacate_ok {id : NodeId} (h : Along ctx s₀ s) (hid : Lent s₀ s id) (hb : (s.node id).borrowed = false)
    (hr : vacate id s = .ok ((), t)) : Freed ctx s₀ s t := by
  have hstill : Freed ctx s₀ s s := ⟨h, .refl h.books.clean, rfl, fun _ h => h, fun _ h => h⟩
  obtain ⟨_, _, hget, hr⟩ := bind_ok hr
  cases hget
  cases hp : (s.node id).progress with
  | untouched => simp only [hp] at hr; cases hr; exact hstill
  | underway => simp only [hp] at hr; cases hr; exact hstill
  | built slot region =>
    cases slot with
    | none => simp only [hp] at hr; cases hr; exact hstill
    | some x =>
      simp only [hp] at hr
      obtain ⟨_, u, hrel, hset⟩ := bind_ok hr
      cases hset
      obtain ⟨_, _, hget, hrel⟩ := bind_ok hrel
      cases hget
      cases hpool : s.pool.release x.kind x.slot with
      | error e => simp only [hpool] at hrel; cases hrel
      | ok pool =>
        simp only [hpool] at hrel
        cases hrel
        have hback := h.giveBack (hid.loose x region hp hb) hpool
        have hspent : s.consumers id = 0 := h.books.spent id (by rw [hp]; exact Progress.noConfusion)
        have hsize := (h.books.pool.release hpool).size
        refine ⟨hback.setNode hid.fresh (.inr hspent),
          .still h.books.clean rfl rfl rfl rfl rfl fun k => Nat.le_of_eq (hsize k).symm, rfl, fun i hi => ?_,
          fun i hi y r hy hby => ?_⟩
        · rw [node_setNode]
          split
          · exact Progress.noConfusion
          · exact hi
        · rw [node_setNode] at hy hby
          split at hy
          · cases hy
          · rename_i hne
            rw [if_neg hne] at hby
            exact hi y r hy hby

theorem release_ok {id : NodeId} (h : Along ctx s₀ s) (hid : Lent s₀ s id) (hr : release id s = .ok ((), t)) :
    Freed ctx s₀ s t := by
  obtain ⟨_, _, hget, hr⟩ := bind_ok hr
  cases hget
  split at hr
  · cases hr
  · obtain ⟨_, s₁, hmod, hr⟩ := bind_ok hr
    cases hmod
    have hnode := node_pending s id
    have halong : Along ctx s₀ (s.setNode id { s.node id with pending := (s.node id).pending - 1 }) :=
      h.setNode hid.fresh (.inl rfl)
    have hstill : Freed ctx s₀ s (s.setNode id { s.node id with pending := (s.node id).pending - 1 }) := by
      refine ⟨halong, .setNode h.books.clean id _, rfl, fun i hi => ?_, fun i hi x r hx hb => ?_⟩
      · rwa [(hnode i _).1]
      · rw [(hnode i _).1] at hx
        rw [(hnode i _).2] at hb
        exact hi x r hx hb
    obtain ⟨_, _, hget, hr⟩ := bind_ok hr
    cases hget
    split at hr
    · rename_i hlast
      have hleft := vacate_ok halong (hid.freed hstill) ((hnode id _).2.trans hlast.2.2) hr
      exact ⟨hleft.along, hstill.grows.trans hleft.grows, hleft.draft, fun i hi => hleft.touched i (hstill.touched i hi),
        fun i hi => hleft.loose i (hstill.loose i hi)⟩
    · cases hr
      exact hstill

/-- Where the value of a node goes: a hint, which stays the consumer's, or a slot that was dead before. -/
structure Target (ctx : Context) (s t : State) (id : NodeId) (hint : Option TypedSlot) (x : TypedSlot) : Prop where
  kind : ctx.function.kind? id = some x.kind
  has : t.pool.has x
  loose : x ∉ ctx.params
  place : (hint = some x ∧ (t.node id).borrowed = true) ∨
    (s.pool.isLive x = false ∧ x ∉ ctx.vars ∧ t.pool.isLive x = true)

/-- A hint is a slot of the pool and no parameter. -/
def HintFits (ctx : Context) (s : State) (hint : Option TypedSlot) : Prop :=
  ∀ x, hint = some x → s.pool.has x ∧ x ∉ ctx.params

/-- Slots and code after a target was chosen. -/
structure Targeted (ctx : Context) (s₀ s t : State) : Prop where
  along : Along ctx s₀ t
  grows : Grows s t
  draft : t.draft = s.draft
  live : ∀ x, s.pool.isLive x = true → t.pool.isLive x = true
  progress : ∀ id, (t.node id).progress = (s.node id).progress

theorem targeted_acquire (h : Along ctx s₀ s) {id : NodeId} (hint : Option TypedSlot) {k : Kind}
    (hk : ctx.function.kind? id = some k) {x : TypedSlot} (hr : acquire k s = .ok (x, t)) :
    Targeted ctx s₀ s t ∧ Target ctx s t id hint x := by
  have heq : acquire k s = .ok (⟨k, (s.pool.acquire k).1⟩, { s with pool := (s.pool.acquire k).2 }) := rfl
  rw [heq] at hr
  cases hr
  have hacq := h.books.pool.acquire k
  have hfixed := hacq.loose
  rw [List.mem_append, not_or] at hfixed
  refine ⟨⟨h.acquire k, .still h.books.clean rfl rfl rfl rfl rfl hacq.size, rfl, fun x hx => ?_, fun _ => rfl⟩,
    hk, hacq.has, hfixed.1, .inr ⟨hacq.dead, hfixed.2, ?_⟩⟩
  · show Pool.isLive (s.pool.acquire k).2 x = true
    rw [hacq.live]
    split
    · rfl
    · exact hx
  · show Pool.isLive (s.pool.acquire k).2 _ = true
    rw [hacq.live, if_pos rfl]

theorem resultSlot_ok {id : NodeId} {hint : Option TypedSlot} {x : TypedSlot} (h : Along ctx s₀ s)
    (h₀ : (s₀.node id).progress = .untouched) (hu : (s.node id).progress = .underway) (hh : HintFits ctx s hint)
    (hr : ctx.resultSlot id hint s = .ok (x, t)) : Targeted ctx s₀ s t ∧ Target ctx s t id hint x := by
  unfold Context.resultSlot at hr
  cases hk : ctx.function.kind? id with
  | none => simp only [hk] at hr; cases hr
  | some k =>
    simp only [hk] at hr
    cases hint with
    | none => exact targeted_acquire h none hk hr
    | some y =>
      obtain ⟨_, _, hget, hr⟩ := bind_ok hr
      cases hget
      split at hr
      · rename_i hfit
        obtain ⟨_, u, hmod, hr⟩ := bind_ok hr
        cases hmod
        cases hr
        have hlt : id < s.nodes.size := lt_of_touched (by rw [hu]; exact Progress.noConfusion)
        have hset : Along ctx s₀ (s.setNode id { s.node id with borrowed := true }) := h.setNode h₀ (.inl rfl)
        refine ⟨⟨hset, .setNode h.books.clean id _, rfl, fun _ h => h, fun i => ?_⟩, ?_, (hh _ rfl).1, (hh _ rfl).2,
          .inl ⟨rfl, ?_⟩⟩
        · rw [node_setNode]
          split
          · rename_i hi
            rw [hi.1]
          · rfl
        · rw [hk, hfit.1]
        · rw [node_setNode, if_pos ⟨rfl, hlt⟩]
      · exact targeted_acquire h (some y) hk hr

theorem Target.since {x : TypedSlot} {id : NodeId} {hint : Option TypedSlot} (h : Target ctx s t id hint x)
    (hu : (t.node id).progress ≠ .untouched) (htu : Since t u) : Target ctx s u id hint x := by
  refine ⟨h.kind, htu.has h.has, h.loose, ?_⟩
  rcases h.place with ⟨hhint, hb⟩ | ⟨hdead, hvars, hlive⟩
  · exact .inl ⟨hhint, by rw [htu.nodes id hu]; exact hb⟩
  · exact .inr ⟨hdead, hvars, htu.live x hlive⟩

/-! ## Tables -/

theorem getElem?_push_of_some {xs : Array α} {x y : α} {i : Nat} (h : xs[i]? = some x) : (xs.push y)[i]? = some x := by
  rw [Array.getElem?_push, if_neg (Nat.ne_of_lt (Array.getElem?_eq_some_iff.1 h).1), h]

namespace TextTable

/-- A text that is there gives its number; another one is entered at the end. -/
theorem intern_cases (table : TextTable) (text : String) :
    (∃ index, table.texts[index]? = some text ∧ table.intern text = (index, table)) ∨
      text ∉ table.texts ∧ (table.intern text).1 = table.texts.size ∧
        (table.intern text).2.texts = table.texts.push text := by
  unfold intern
  split
  · rename_i index h
    exact .inl ⟨index, (table.inverse text index).1 h, rfl⟩
  · rename_i h
    refine .inr ⟨fun hmem => ?_, rfl, rfl⟩
    obtain ⟨index, hat⟩ := Array.getElem?_of_mem hmem
    rw [(table.inverse text index).2 hat] at h
    cases h

/-- No text stands in the table twice: it would have two numbers. -/
theorem nodup (table : TextTable) : table.texts.toList.Nodup := by
  refine List.nodup_iff_getElem?_ne_getElem?.2 fun i j hij hj heq => ?_
  have hat : table.texts[j]? = some table.texts.toList[j] := by simp
  have hat' : table.texts[i]? = some table.texts.toList[j] := by
    rw [← Array.getElem?_toList, heq, Array.getElem?_toList, hat]
  have hnumber := (table.inverse _ _).2 hat
  rw [(table.inverse _ _).2 hat'] at hnumber
  cases hnumber
  exact Nat.lt_irrefl _ hij

end TextTable

theorem intern_ok {text : String} {index : Nat} (h : Along ctx s₀ s) (hr : intern text s = .ok (index, t)) :
    Targeted ctx s₀ s t ∧ t.texts[index]? = some text := by
  obtain ⟨rfl, rfl⟩ : (s.table.intern text).1 = index ∧ { s with table := (s.table.intern text).2 } = t := by
    cases hr
    exact ⟨rfl, rfl⟩
  rcases s.table.intern_cases text with ⟨number, hat, heq⟩ | ⟨-, hnumber, htexts⟩
  · rw [heq]
    exact ⟨⟨h, .refl h.books.clean, rfl, fun _ h => h, fun _ => rfl⟩, hat⟩
  · have hgrows : Grows s { s with table := (s.table.intern text).2 } := by
      refine ⟨.refl h.books.clean, blocks_refl _, loops_refl _, fun i x hx => ?_, fun _ _ hx => hx, fun _ => Nat.le_refl _⟩
      show (s.table.intern text).2.texts[i]? = some x
      rw [htexts]
      exact getElem?_push_of_some hx
    refine ⟨⟨⟨⟨h.since.toGrows.trans hgrows, h.since.live, h.since.nodes⟩, ⟨h.books.clean, h.books.pool, h.books.tallies,
      h.books.arena, h.books.spent, h.books.few⟩⟩, hgrows, rfl, fun _ h => h, fun _ => rfl⟩, ?_⟩
    show (s.table.intern text).2.texts[(s.table.intern text).1]? = some text
    rw [hnumber, htexts, Array.getElem?_push_size]

theorem Grows.addSite (h : s.draft.Clean) (site : CallSite) : Grows s { s with sites := s.sites.push site } :=
  ⟨.refl h, blocks_refl _, loops_refl _, fun _ _ hx => hx, fun _ _ hx => getElem?_push_of_some hx, fun _ => Nat.le_refl _⟩

theorem Along.addSite (h : Along ctx s₀ s) (site : CallSite) : Along ctx s₀ { s with sites := s.sites.push site } :=
  ⟨⟨h.since.toGrows.trans (.addSite h.books.clean site), h.since.live, h.since.nodes⟩,
    ⟨h.books.clean, h.books.pool, h.books.tallies, h.books.arena, h.books.spent, h.books.few⟩⟩

/-! ## Frames -/

/-- The state with a block open. -/
def State.openBlock (s : State) (block : BlockId) : State := { s with blocks := ⟨block, []⟩ :: s.blocks }

def State.openLoop (s : State) (loop : LoopId) (header : Nat) : State := { s with loops := ⟨loop, header, []⟩ :: s.loops }

theorem closeBlock_ok (hr : closeBlock s = .ok ((), t)) : ∃ frame rest d, s.blocks = frame :: rest ∧
    Drafting.patchAll frame.breaks (.address s.draft.label) s.draft = .ok () d ∧
      t = { s with blocks := rest, draft := d } := by
  obtain ⟨_, _, hget, hr⟩ := bind_ok hr
  cases hget
  cases hb : s.blocks with
  | nil => simp only [hb] at hr; cases hr
  | cons frame rest =>
    simp only [hb] at hr
    obtain ⟨_, _, hset, hr⟩ := bind_ok hr
    cases hset
    obtain ⟨d, hd, rfl⟩ := drafting_ok hr
    exact ⟨frame, rest, d, rfl, hd, rfl⟩

theorem closeLoop_ok (hr : closeLoop s = .ok ((), t)) : ∃ frame rest d, s.loops = frame :: rest ∧
    Drafting.patchAll frame.breaks (.address s.draft.label) s.draft = .ok () d ∧
      t = { s with loops := rest, draft := d } := by
  obtain ⟨_, _, hget, hr⟩ := bind_ok hr
  cases hget
  cases hb : s.loops with
  | nil => simp only [hb] at hr; cases hr
  | cons frame rest =>
    simp only [hb] at hr
    obtain ⟨_, _, hset, hr⟩ := bind_ok hr
    cases hset
    obtain ⟨d, hd, rfl⟩ := drafting_ok hr
    exact ⟨frame, rest, d, rfl, hd, rfl⟩

theorem Books.openBlock (h : Books ctx s) (block : BlockId) : Books ctx (s.openBlock block) :=
  ⟨h.clean, h.pool, h.tallies, h.arena, h.spent, h.few⟩

theorem Books.openLoop (h : Books ctx s) (loop : LoopId) (header : Nat) : Books ctx (s.openLoop loop header) :=
  ⟨h.clean, h.pool, h.tallies, h.arena, h.spent, h.few⟩

/-- A block is closed: its frame is gone, and its exits go to the next position. -/
structure BlockClosed (s t : State) (block : BlockId) (frame : BlockFrame) : Prop where
  stack : s.blocks = frame :: t.blocks
  name : frame.block = block
  label : t.draft.label = s.draft.label
  draft : s.draft.Before t.draft
  loops : t.loops = s.loops
  tables : t.texts = s.texts ∧ t.sites = s.sites ∧ t.pool = s.pool
  aims : ∀ code, t.draft.Becomes code → ∀ p ∈ frame.breaks, p.Aims code s.draft.label

theorem Along.closeBlock {block : BlockId} (h : Along ctx (s₀.openBlock block) s) (hr : closeBlock s = .ok ((), t)) :
    Along ctx s₀ t ∧ ∃ frame, BlockClosed s t block frame := by
  obtain ⟨frame, rest, d, hblocks, hpatch, rfl⟩ := closeBlock_ok hr
  obtain ⟨hbefore, hlabel, haims⟩ := before_patchAll h.books.clean hpatch
  have hframes := h.since.blocks
  rw [hblocks, State.openBlock] at hframes
  obtain ⟨hhead, hrest⟩ := List.forall₂_cons.1 hframes
  refine ⟨⟨⟨⟨h.since.draft.trans hbefore, hrest, h.since.loops, h.since.texts, h.since.sites, h.since.sizes⟩, h.since.live,
    h.since.nodes⟩, ⟨hbefore.clean, h.books.pool, h.books.tallies, h.books.arena, h.books.spent, h.books.few⟩⟩, frame,
    hblocks, hhead.block.symm, hlabel, hbefore, rfl, ⟨rfl, rfl, rfl⟩, haims⟩

structure LoopClosed (s t : State) (loop : LoopId) (header : Nat) (frame : LoopFrame) : Prop where
  stack : s.loops = frame :: t.loops
  name : frame.loop = loop
  header : frame.header = header
  label : t.draft.label = s.draft.label
  draft : s.draft.Before t.draft
  blocks : t.blocks = s.blocks
  tables : t.texts = s.texts ∧ t.sites = s.sites ∧ t.pool = s.pool
  aims : ∀ code, t.draft.Becomes code → ∀ p ∈ frame.breaks, p.Aims code s.draft.label

theorem Along.closeLoop {loop : LoopId} {header : Nat} (h : Along ctx (s₀.openLoop loop header) s)
    (hr : closeLoop s = .ok ((), t)) : Along ctx s₀ t ∧ ∃ frame, LoopClosed s t loop header frame := by
  obtain ⟨frame, rest, d, hloops, hpatch, rfl⟩ := closeLoop_ok hr
  obtain ⟨hbefore, hlabel, haims⟩ := before_patchAll h.books.clean hpatch
  have hframes := h.since.loops
  rw [hloops, State.openLoop] at hframes
  obtain ⟨hhead, hrest⟩ := List.forall₂_cons.1 hframes
  refine ⟨⟨⟨⟨h.since.draft.trans hbefore, h.since.blocks, hrest, h.since.texts, h.since.sites, h.since.sizes⟩, h.since.live,
    h.since.nodes⟩, ⟨hbefore.clean, h.books.pool, h.books.tallies, h.books.arena, h.books.spent, h.books.few⟩⟩, frame,
    hloops, hhead.loop.symm, hhead.header.symm, hlabel, hbefore, rfl, ⟨rfl, rfl, rfl⟩, haims⟩

/-- Adding to the frame at one position. -/
theorem forall₂_modify {R : α → α → Prop} {f : α → α} (hR : ∀ a, R a a) (hf : ∀ a, R a (f a)) (l : List α) (i : Nat) :
    List.Forall₂ R l (l.modify i f) := by
  induction l generalizing i with
  | nil => simp
  | cons a l ih =>
    cases i with
    | zero => exact .cons (hf a) (List.forall₂_same.2 fun _ _ => hR _)
    | succ i => exact .cons (hR a) (ih i)

theorem Grows.breakBlock (h : s.draft.Clean) (i : Nat) (jumps : List Patch) :
    Grows s { s with blocks := s.blocks.modify i fun f => { f with breaks := f.breaks ++ jumps } } :=
  ⟨.refl h, forall₂_modify (fun _ => ⟨rfl, fun _ h => h⟩) (fun _ => ⟨rfl, fun _ h => List.mem_append_left _ h⟩) _ i,
    loops_refl _, fun _ _ hx => hx, fun _ _ hx => hx, fun _ => Nat.le_refl _⟩

theorem Grows.breakLoop (h : s.draft.Clean) (i : Nat) (jumps : List Patch) :
    Grows s { s with loops := s.loops.modify i fun f => { f with breaks := f.breaks ++ jumps } } :=
  ⟨.refl h, blocks_refl _,
    forall₂_modify (fun _ => ⟨rfl, rfl, fun _ h => h⟩) (fun _ => ⟨rfl, rfl, fun _ h => List.mem_append_left _ h⟩) _ i,
    fun _ _ hx => hx, fun _ _ hx => hx, fun _ => Nat.le_refl _⟩

theorem Along.breakBlock (h : Along ctx s₀ s) (i : Nat) (jumps : List Patch) :
    Along ctx s₀ { s with blocks := s.blocks.modify i fun f => { f with breaks := f.breaks ++ jumps } } :=
  ⟨⟨h.since.toGrows.trans (.breakBlock h.books.clean i jumps), h.since.live, h.since.nodes⟩,
    ⟨h.books.clean, h.books.pool, h.books.tallies, h.books.arena, h.books.spent, h.books.few⟩⟩

theorem Along.breakLoop (h : Along ctx s₀ s) (i : Nat) (jumps : List Patch) :
    Along ctx s₀ { s with loops := s.loops.modify i fun f => { f with breaks := f.breaks ++ jumps } } :=
  ⟨⟨h.since.toGrows.trans (.breakLoop h.books.clean i jumps), h.since.live, h.since.nodes⟩,
    ⟨h.books.clean, h.books.pool, h.books.tallies, h.books.arena, h.books.spent, h.books.few⟩⟩

end Lowering

end SlotCode
