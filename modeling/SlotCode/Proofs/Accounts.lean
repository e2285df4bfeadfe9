/-
  SlotCode.Proofs.Accounts — who owns a slot, who reads a node and who still owes a visit.

  While a node is being lowered, part of the books is not in the state: the edges it has
  yet to lower, the readers it has announced, and the slot it has taken. The `Account` of a
  step holds that part for all nodes underway. `Balanced` says that account and state
  together are right: what is left of each node is the dues not yet paid (`Tracked`), each
  live slot belongs to exactly one node (`Housed`), the readers announced are the pending
  ones, and a built node keeps its slot only as long as someone will read it.

  Proved: each primitive step of lowering keeps the balance, against the entry that it is
  meant for. No step gives back a slot that is not live, lets a reader go that was not
  announced, or closes another region than the innermost.
-/

import SlotCode.Proofs.Contract
import SlotCode.Proofs.Dues
import SlotCode.Proofs.SlotPool

namespace SlotCode.Lowering

/-! ## The account -/

inductive Stage where
  | untouched
  | underway
  | built
  deriving DecidableEq

def Progress.stage : Progress → Stage
  | .untouched => .untouched
  | .underway => .underway
  | .built .. => .built

/-- Where a node that is being lowered has its value. -/
inductive Choice where
  | undecided
  | own (x : TypedSlot)
  | borrowed
  deriving DecidableEq

def Choice.slot? : Choice → Option TypedSlot
  | .own x => some x
  | _ => none

/-- How a node came to be underway: the visit that it is, and what is left of the node after it. -/
structure Arrival where
  due : Due
  left : Left

/-- What the nodes underway have yet to do. -/
inductive Task where
  | visit (d : Due)
  /-- The node has made all its visits. -/
  | finish (id : NodeId)

def Task.due? : Task → Option Due
  | .visit d => some d
  | .finish _ => none

/-- What the nodes underway know. -/
structure Account where
  /-- What they have yet to do, in order. -/
  agenda : List Task := []
  /-- The nodes whose values they are going to read. -/
  readers : Multiset NodeId := 0
  underway : NodeId → Option Arrival := fun _ => none
  choices : NodeId → Choice := fun _ => .undecided
  regions : List Region := [wholeFunction]

namespace Account

/-- The visits that have yet to be made. -/
def owed (g : Account) : Multiset Due := (g.agenda.filterMap Task.due? : List Due)

def owing (g : Account) (ds : List Due) : Account := { g with agenda := ds.map .visit ++ g.agenda }

def reading (g : Account) (id : NodeId) : Account := { g with readers := id ::ₘ g.readers }

/-- A node goes underway; what it has yet to do comes first. -/
def entering (g : Account) (id : NodeId) (e : Arrival) : Account :=
  { g with underway := Function.update g.underway id (some e), agenda := .finish id :: g.agenda }

def choosing (g : Account) (id : NodeId) (c : Choice) : Account := { g with choices := Function.update g.choices id c }

def inRegion (g : Account) (r : Region) : Account := { g with regions := r :: g.regions }

theorem owed_owing (g : Account) (ds : List Due) : (g.owing ds).owed = (ds : Multiset Due) + g.owed := by
  have hvisits : (ds.map Task.visit).filterMap Task.due? = ds := by
    rw [List.filterMap_map, show Task.due? ∘ Task.visit = some from rfl, List.filterMap_some]
  simp [owed, owing, hvisits]

@[simp]
theorem owed_owing_one (g : Account) (d : Due) : (g.owing [d]).owed = d ::ₘ g.owed := by simp [owed_owing]

@[simp]
theorem owed_entering (g : Account) (id : NodeId) (e : Arrival) : (g.entering id e).owed = g.owed := rfl

end Account

/-! ## Balance -/

variable {f : Function} {ctx : Context} {g : Account} {s t : State} {id : NodeId} {d : Due}

def State.stage (s : State) (id : NodeId) : Stage := (s.node id).progress.stage

/-- What is left of a node. -/
def State.left (s : State) (id : NodeId) : Left := s.demand.left.getD id {}

/-- The dues of the nodes that nobody has come to yet. -/
def State.waiting (s : State) (f : Function) : Multiset Due :=
  ∑ p ∈ f.order.toFinset with s.stage p = .untouched, (f.dues p : Multiset Due)

/-- What is left of every node is what its parents have yet to pay. -/
structure Tracked (f : Function) (g : Account) (s : State) : Prop where
  bound : ∀ id, f.Reachable id → id < f.nodes.size
  tallies : s.demand.tallies = f.tallies
  size : s.demand.left.size = f.nodes.size
  underway : ∀ id, s.stage id = .underway ↔ (g.underway id).isSome = true
  entered : ∀ id e, g.underway id = some e → e.due.child = id ∧ s.left id = e.left ∧
    ∀ p, e.due.parent = some p → (g.underway p).isSome = true
  fresh : ∀ id < f.nodes.size, s.stage id = .untouched → s.left id = leftOf f.allDues id
  counts : ∀ id < f.nodes.size, s.left id = leftOf (s.waiting f + g.owed) id
  owed : ∀ d ∈ g.owed, d ∈ f.allDues ∧ ∀ p, d.parent = some p → (g.underway p).isSome = true
  children : ∀ p, s.stage p ≠ .untouched → ∀ d ∈ f.dues p,
    s.stage d.child = .built ∨ d ∈ g.owed ∨ ∃ e, g.underway d.child = some e ∧ e.due = d
  ranked : ∃ rank : NodeId → Nat, ∀ p, s.stage p = .built → ∀ c, f.IsChild p c → rank c < rank p

/-- What a task does to the walk in which the order was found. -/
def Task.run (f : Function) (trail : Trail) : Task → Trail
  | .visit d => trail.search f d.child
  | .finish id => trail.finish id

/-- Lowering comes to the nodes as the order does: with the nodes touched so far entered, what is yet to
    be done ends with the order. -/
structure InStep (f : Function) (g : Account) (s : State) (trail : Trail) : Prop where
  size : trail.entered.size = f.nodes.size
  entered : ∀ id < f.nodes.size, trail.has id = true ↔ s.stage id ≠ .untouched
  order : f.order = (g.agenda.foldl (Task.run f) trail).finished
  closing : ∀ id, (g.underway id).isSome = true → .finish id ∈ g.agenda

/-- The slot that a node owns. -/
def State.holds (s : State) (g : Account) (id : NodeId) : Option TypedSlot :=
  match (s.node id).progress with
  | .untouched => none
  | .underway => (g.choices id).slot?
  | .built slot _ => if (s.node id).borrowed then none else slot

/-- Every live slot belongs to one node. -/
structure Housed (ctx : Context) (g : Account) (s : State) : Prop where
  pool : s.pool.Sound (ctx.params ++ ctx.vars)
  fresh : ∀ id, s.stage id = .untouched → (s.node id).borrowed = false
  lent : ∀ id, s.stage id = .underway → ((s.node id).borrowed = true ↔ g.choices id = .borrowed)
  live : ∀ x, s.pool.isLive x = true ↔ ∃ id, s.holds g id = some x
  apart : ∀ i j x, s.holds g i = some x → s.holds g j = some x → i = j

/-- The account and the state are right together. -/
structure Balanced (ctx : Context) (g : Account) (s : State) : Prop where
  arena : s.nodes.size = ctx.function.nodes.size
  regions : s.regions = g.regions
  pending : ∀ id, (s.node id).pending = g.readers.count id
  tracked : Tracked ctx.function g s
  inStep : ∃ trail, InStep ctx.function g s trail
  housed : Housed ctx g s
  needed : ∀ id x region, (s.node id).progress = .built (some x) region → (s.node id).borrowed = false →
    0 < (s.node id).pending ∨ 0 < (s.left id).values ∨ id = ctx.function.body

/-! ## Steps that leave the books alone -/

/-- The part of the state that accounts are about. -/
def State.books (s : State) : Demand × Pool × Array NodeState × List Region := (s.demand, s.pool, s.nodes, s.regions)

/-- What tracking depends on. -/
theorem Tracked.congr {g' : Account} (h : Tracked f g s) (hd : t.demand = s.demand) (hs : t.stage = s.stage)
    (ho : g'.owed = g.owed) (hu : g'.underway = g.underway) : Tracked f g' t := by
  have hl : t.left = s.left := by
    unfold State.left
    rw [hd]
  have hw : t.waiting f = s.waiting f := by
    unfold State.waiting
    rw [hs]
  obtain ⟨h1, h2, h3, h4, h5, h6, h7, h8, h9, h10⟩ := h
  rw [← hd] at h2 h3
  rw [← hs, ← hu] at h4
  rw [← hl, ← hu] at h5
  rw [← hl, ← hs] at h6
  rw [← hl, ← hw, ← ho] at h7
  rw [← ho, ← hu] at h8
  rw [← hs, ← ho, ← hu] at h9
  rw [← hs] at h10
  exact ⟨h1, h2, h3, h4, h5, h6, h7, h8, h9, h10⟩

theorem InStep.congr {g' : Account} {trail : Trail} (h : InStep f g s trail) (hs : t.stage = s.stage)
    (ha : g'.agenda = g.agenda) (hu : g'.underway = g.underway) : InStep f g' t trail := by
  refine ⟨h.size, ?_, ?_, ?_⟩
  · rw [hs]
    exact h.entered
  · rw [ha]
    exact h.order
  · rw [ha, hu]
    exact h.closing

/-- What housing depends on. -/
theorem Housed.congr {g' : Account} (h : Housed ctx g s) (hp : t.pool = s.pool)
    (hn : ∀ i, (t.node i).progress = (s.node i).progress ∧ (t.node i).borrowed = (s.node i).borrowed)
    (hc : g'.choices = g.choices) : Housed ctx g' t := by
  have hs : ∀ i, t.stage i = s.stage i := fun i => by rw [State.stage, (hn i).1]; rfl
  have hh : ∀ i, t.holds g' i = s.holds g i := fun i => by rw [State.holds, State.holds, (hn i).1, (hn i).2, hc]
  refine ⟨hp ▸ h.pool, fun i hi => ?_, fun i hi => ?_, fun x => ?_, fun i j x hi hj => ?_⟩
  · rw [(hn i).2]
    exact h.fresh i (hs i ▸ hi)
  · rw [(hn i).2, hc]
    exact h.lent i (hs i ▸ hi)
  · rw [hp, h.live]
    simp only [hh]
  · rw [hh] at hi hj
    exact h.apart i j x hi hj

/-- One node changes, and with it the slot that it owns. -/
theorem Housed.change {g' : Account} (h : Housed ctx g s) (id : NodeId) (hpool : t.pool.Sound (ctx.params ++ ctx.vars))
    (hother : ∀ i, i ≠ id → (t.node i).progress = (s.node i).progress ∧ (t.node i).borrowed = (s.node i).borrowed ∧
      g'.choices i = g.choices i)
    (hfresh : t.stage id = .untouched → (t.node id).borrowed = false)
    (hlent : t.stage id = .underway → ((t.node id).borrowed = true ↔ g'.choices id = .borrowed))
    (hlive : ∀ x, t.pool.isLive x = true ↔
      t.holds g' id = some x ∨ (s.pool.isLive x = true ∧ s.holds g id ≠ some x))
    (hnew : ∀ x, t.holds g' id = some x → s.holds g id = some x ∨ s.pool.isLive x = false) : Housed ctx g' t := by
  have hs : ∀ i, i ≠ id → t.stage i = s.stage i := fun i hi => by rw [State.stage, (hother i hi).1]; rfl
  have hh : ∀ i, i ≠ id → t.holds g' i = s.holds g i := fun i hi => by
    rw [State.holds, State.holds, (hother i hi).1, (hother i hi).2.1, (hother i hi).2.2]
  -- A slot of another node stays where it is; the changed node has its own slot, or one that nobody had.
  have hne : ∀ i x, i ≠ id → s.holds g i = some x → t.holds g' id ≠ some x := by
    intro i x hi hx hid
    rcases hnew x hid with hold | hdead
    · exact hi (h.apart i id x hx hold)
    · rw [(h.live x).2 ⟨i, hx⟩] at hdead
      cases hdead
  refine ⟨hpool, fun i hi => ?_, fun i hi => ?_, fun x => ?_, fun i j x hi hj => ?_⟩
  · by_cases he : i = id
    · subst he
      exact hfresh hi
    · rw [(hother i he).2.1]
      exact h.fresh i (hs i he ▸ hi)
  · by_cases he : i = id
    · subst he
      exact hlent hi
    · rw [(hother i he).2.1, (hother i he).2.2]
      exact h.lent i (hs i he ▸ hi)
  · rw [hlive]
    constructor
    · rintro (hx | ⟨hx, hnot⟩)
      · exact ⟨id, hx⟩
      · obtain ⟨i, hi⟩ := (h.live x).1 hx
        have he : i ≠ id := fun he => hnot (he ▸ hi)
        exact ⟨i, (hh i he).trans hi⟩
    · rintro ⟨i, hi⟩
      by_cases he : i = id
      · exact .inl (he ▸ hi)
      · rw [hh i he] at hi
        exact .inr ⟨(h.live x).2 ⟨i, hi⟩, fun hx => he (h.apart i id x hi hx)⟩
  · by_cases hei : i = id <;> by_cases hej : j = id
    · rw [hei, hej]
    · subst hei
      rw [hh j hej] at hj
      exact absurd hi (hne j x hej hj)
    · subst hej
      rw [hh i hei] at hi
      exact absurd hj (hne i x hei hi)
    · rw [hh i hei] at hi
      rw [hh j hej] at hj
      exact h.apart i j x hi hj

theorem Balanced.of_books (h : Balanced ctx g s) (e : t.books = s.books) : Balanced ctx g t := by
  obtain ⟨hd, hp, hn, hr⟩ : t.demand = s.demand ∧ t.pool = s.pool ∧ t.nodes = s.nodes ∧ t.regions = s.regions := by
    simpa [State.books] using e
  have hnode : t.node = s.node := by
    unfold State.node
    rw [hn]
  have hstage : t.stage = s.stage := by
    unfold State.stage
    rw [hnode]
  have hleft : t.left = s.left := by
    unfold State.left
    rw [hd]
  refine ⟨hn ▸ h.arena, hr ▸ h.regions, hnode ▸ h.pending, h.tracked.congr hd hstage rfl rfl,
    h.inStep.imp fun _ ht => ht.congr hstage rfl rfl, h.housed.congr hp (fun i => by rw [hnode]; exact ⟨rfl, rfl⟩) rfl, ?_⟩
  rw [hnode, hleft]
  exact h.needed

/-! ## Errors -/

/-- The errors that the books do not rule out. A consumer that was not counted is possible only where
    the value of a node without values is asked for unseen. -/
def Sane (f : Function) : BuildError → Prop
  | .internal (.pool _) | .internal (.overReleased _) | .internal .regionOrder | .internal (.slotsLeft _) => False
  | .internal (.countMismatch id u) => u = .value ∧ f.kind? id = none ∧ f.AskedUnseen id
  | _ => True

section

variable (ctx)

theorem checks_node (id : NodeId) : Checks (ctx.node id) (fun n => ctx.function.node? id = some n) (Sane ctx.function) := by
  unfold Context.node
  split
  · rename_i n hn
    exact .pure hn
  · exact .fail trivial

theorem checks_expectType (id : NodeId) (type : ValueType) :
    Checks (ctx.expectType id type) (fun _ => ctx.function.kind? id = type.kind?) (Sane ctx.function) := by
  refine .bind (checks_node ctx id) fun n hn => ?_
  dsimp only
  split
  · exact .fail trivial
  · rename_i hkind
    exact .pure (by simpa [Function.kind?, hn] using hkind)

/-- A connective that may be composed is the node's own. -/
theorem checks_composable (id : NodeId) : Checks (ctx.composable? id)
    (fun k => ∀ c, k = some c → ∃ n, ctx.function.node? id = some n ∧ n.expr.connective? = some c) (Sane ctx.function) := by
  have hlook : ∀ {α : Type} {act : Lower α}, (∀ s, ∃ a, act s = .ok (a, s)) →
      Checks act (fun _ => True) (Sane ctx.function) := by
    intro α act h s
    obtain ⟨a, ha⟩ := h s
    rw [ha]
    exact ⟨trivial, rfl⟩
  refine .bind (checks_node ctx id) fun n hn => .bind (hlook fun _ => ⟨_, rfl⟩) fun s _ => ?_
  refine .bind (hlook fun _ => ⟨_, rfl⟩) fun m _ => ?_
  split
  · exact .pure fun c hc => ⟨n, hn, hc⟩
  · exact .pure fun c hc => by cases hc

theorem checks_varSlot (id : NodeId) (index : VarId) :
    Checks (ctx.varSlot id index) (fun x => ctx.vars[index]? = some x) (Sane ctx.function) := by
  unfold Context.varSlot
  split
  · rename_i hx
    exact .pure hx
  · exact .fail trivial

theorem checks_classId (id : NodeId) (className : String) :
    Checks (ctx.classId id className) (fun c => ctx.env.classes.find? className = some c) (Sane ctx.function) := by
  unfold Context.classId
  split
  · rename_i hc
    exact .pure hc
  · exact .fail trivial

theorem checks_arguments (args : List (NodeId × ValueType)) :
    Checks (args.forM fun (arg, type) => ctx.expectType arg type)
      (fun _ => ∀ x ∈ args, ctx.function.kind? x.1 = x.2.kind?) (Sane ctx.function) := by
  induction args with
  | nil => exact .pure nofun
  | cons x xs ih =>
    exact .bind (checks_expectType ctx x.1 x.2) fun _ hx => ih.post fun _ hxs => List.forall_mem_cons.2 ⟨hx, hxs⟩

end

theorem checks_lookup {α : Type} (r : Except Missing α) : Checks (lookup r) (fun a => r = .ok a) (Sane f) := by
  unfold lookup
  split
  · exact .pure rfl
  · exact .fail trivial

theorem checks_field (id : NodeId) (field : FieldRef) (declared : ValueType) :
    Checks (checkField id field declared) (fun _ => declared.kind? = field.type.kind?) (Sane f) := by
  unfold checkField
  split
  · exact .fail trivial
  · rename_i hkind
    exact .pure (by simpa using hkind)

theorem checks_call (id : NodeId) (method : MethodRef) (kind : CallKind) (native : NativeFunction) (given : Nat) :
    Checks (checkCall id method kind native given) (fun _ => native.kind = kind ∧ native.params = method.params ∧
      native.result = method.result ∧ given = method.params.length + kind.receiverCount) (Sane f) := by
  unfold checkCall
  dsimp only
  split
  · exact .fail trivial
  · split
    · exact .fail trivial
    · rename_i hsame hcount
      refine .pure ?_
      simpa [not_or, and_assoc] using And.intro hsame hcount

/-! ## Readers -/

theorem setNode_node (h : id < s.nodes.size) (n : NodeState) (i : NodeId) :
    (s.setNode id n).node i = if id = i then n else s.node i := by
  rw [node_setNode]
  simp [h]

/-- The number of readers of one node changes. -/
theorem Balanced.repend {g' : Account} {k : Nat} (h : Balanced ctx g s) (hid : id < ctx.function.nodes.size)
    (hg : g' = { g with readers := g'.readers })
    (hk : ∀ i, (if id = i then k else (s.node i).pending) = g'.readers.count i)
    (hneed : ∀ x region, (s.node id).progress = .built (some x) region → (s.node id).borrowed = false →
      0 < k ∨ 0 < (s.left id).values ∨ id = ctx.function.body) :
    Balanced ctx g' (s.setNode id { s.node id with pending := k }) := by
  have hnode := setNode_node (h.arena ▸ hid) { s.node id with pending := k }
  have hsame : ∀ i, ((s.setNode id { s.node id with pending := k }).node i).progress = (s.node i).progress ∧
      ((s.setNode id { s.node id with pending := k }).node i).borrowed = (s.node i).borrowed := by
    intro i
    rw [hnode]
    split
    · rename_i hi
      rw [hi]
      exact ⟨rfl, rfl⟩
    · exact ⟨rfl, rfl⟩
  have hstage : (s.setNode id { s.node id with pending := k }).stage = s.stage :=
    funext fun i => by rw [State.stage, (hsame i).1]; rfl
  rw [hg]
  refine ⟨?_, h.regions, fun i => ?_, h.tracked.congr rfl hstage rfl rfl,
    h.inStep.imp fun _ ht => ht.congr hstage rfl rfl, h.housed.congr rfl hsame rfl, fun i x region hx hb => ?_⟩
  · simpa [State.setNode] using h.arena
  · rw [hnode, ← hk i]
    split <;> rfl
  · rw [(hsame i).1] at hx
    rw [(hsame i).2] at hb
    rw [hnode]
    split
    · rename_i hi
      subst hi
      exact hneed x region hx hb
    · exact h.needed i x region hx hb

theorem Balanced.announce (h : Balanced ctx g s) (hid : id < ctx.function.nodes.size) :
    Balanced ctx (g.reading id) (s.setNode id { s.node id with pending := (s.node id).pending + 1 }) := by
  refine h.repend hid rfl (fun i => ?_) fun _ _ _ _ => .inl (Nat.succ_pos _)
  by_cases hi : id = i
  · subst hi
    simp [Account.reading, h.pending]
  · have hne : ¬ i = id := fun he => hi he.symm
    simp [Account.reading, h.pending, hi, hne]

theorem Balanced.pending_reading (h : Balanced ctx (g.reading id) s) (i : NodeId) :
    (if id = i then (s.node id).pending - 1 else (s.node i).pending) = g.readers.count i := by
  have hp := h.pending i
  by_cases hi : id = i
  · subst hi
    simp only [Account.reading, Multiset.count_cons_self] at hp
    simp [hp]
  · have hne : ¬ i = id := fun he => hi he.symm
    simpa [Account.reading, hi, hne] using hp

/-- A live slot can be given back. -/
theorem release_live {pool : Pool} {x : TypedSlot} (h : pool.isLive x = true) :
    ∃ pool', pool.release x.kind x.slot = .ok pool' := by
  have hlive : (pool.get x.kind).isLive x.slot = true := h
  simp [Pool.release, Partition.release?, hlive]

/-- The slot of a built node that owns one goes back. -/
theorem Housed.vacate {g' : Account} {x : TypedSlot} {region : Region} {k : Nat} (h : Housed ctx g s)
    (hg : g'.choices = g.choices) (hx : (s.node id).progress = .built (some x) region) (hb : (s.node id).borrowed = false)
    (hr : s.pool.release x.kind x.slot = .ok t.pool)
    (hnode : ∀ i, t.node i = if id = i then ⟨.built none region, k, false⟩ else s.node i) : Housed ctx g' t := by
  have hself : s.holds g id = some x := by simp [State.holds, hx, hb]
  have hnone : t.holds g' id = none := by simp [State.holds, hnode]
  have hreleased := h.pool.release hr
  refine h.change id hreleased.sound (fun i hi => ?_) (fun _ => ?_) (fun hu => ?_) (fun y => ?_) (fun y hy => ?_)
  · rw [hnode, if_neg hi.symm, hg]
    exact ⟨rfl, rfl, rfl⟩
  · rw [hnode, if_pos rfl]
  · rw [State.stage, hnode, if_pos rfl] at hu
    cases hu
  · rw [hreleased.live, hnone, hself]
    by_cases hy : y = x
    · simp [hy]
    · simp [hy, Ne.symm hy]
  · rw [hnone] at hy
    cases hy

/-- The last reader leaves a node that owns its slot. -/
theorem Balanced.vacate {x : TypedSlot} {region : Region} (h : Balanced ctx (g.reading id) s)
    (hx : (s.node id).progress = .built (some x) region) (hb : (s.node id).borrowed = false)
    (hr : s.pool.release x.kind x.slot = .ok t.pool) (hd : t.demand = s.demand) (hregions : t.regions = s.regions)
    (hsize : t.nodes.size = s.nodes.size)
    (hnode : ∀ i, t.node i = if id = i then ⟨.built none region, (s.node id).pending - 1, false⟩ else s.node i) :
    Balanced ctx g t := by
  have hstage : t.stage = s.stage := by
    funext i
    rw [State.stage, hnode]
    split
    · rename_i hi
      rw [← hi, State.stage, hx]
      rfl
    · rfl
  refine ⟨hsize.trans h.arena, hregions.trans h.regions, fun i => ?_, h.tracked.congr hd hstage rfl rfl,
    h.inStep.imp fun _ ht => ht.congr hstage rfl rfl, h.housed.vacate rfl hx hb hr hnode, fun i y r hy hby => ?_⟩
  · rw [hnode, ← h.pending_reading i]
    split <;> rfl
  · rw [hnode] at hy hby ⊢
    split at hy
    · cases hy
    · rename_i hne
      rw [if_neg hne] at hby ⊢
      rw [State.left, hd]
      exact h.needed i y r hy hby

theorem releaseSlot_run {x : TypedSlot} {pool : Pool} (h : s.pool.release x.kind x.slot = .ok pool) :
    releaseSlot x s = .ok ((), { s with pool }) := by
  rw [releaseSlot, get_run, h]
  rfl

theorem meets_release : Meets (Balanced ctx (g.reading id)) (release id) (fun _ => Balanced ctx g) (Sane ctx.function) := by
  refine .each fun s hs => .step rfl ?_
  have hpos : (s.node id).pending ≠ 0 := by
    rw [hs.pending]
    simp [Account.reading]
  have hid : id < s.nodes.size := by
    by_contra hge
    have hnone : s.nodes[id]? = none := Array.getElem?_eq_none (Nat.le_of_not_lt hge)
    exact hpos (by simp [State.node, hnone])
  rw [if_neg hpos]
  refine .step rfl (.step rfl ?_)
  have hnode := setNode_node hid { s.node id with pending := (s.node id).pending - 1 }
  have hless : (¬ ((s.node id).pending = 1 ∧ s.demand.valuesLeft id = 0 ∧ (s.node id).borrowed = false) ∨
      ∀ x region, (s.node id).progress ≠ .built (some x) region) →
      Balanced ctx g (s.setNode id { s.node id with pending := (s.node id).pending - 1 }) := by
    intro hkeep
    refine hs.repend (hs.arena ▸ hid) rfl hs.pending_reading fun x region hx hb => ?_
    rcases hkeep with hkeep | hkeep
    · by_cases hv : (s.left id).values = 0
      · have hmore : (s.node id).pending ≠ 1 := fun hone => hkeep ⟨hone, hv, hb⟩
        exact .inl (by omega)
      · exact .inr (.inl (Nat.pos_of_ne_zero hv))
    · exact absurd hx (hkeep x region)
  split
  · rename_i hlast
    obtain ⟨hone, hzero, hb⟩ := hlast
    refine .step rfl ?_
    rw [hnode, if_pos rfl]
    dsimp only
    split
    · rename_i x region hx
      obtain ⟨pool, hpool⟩ := release_live ((hs.housed.live x).2 ⟨id, by simp [State.holds, hx, hb]⟩)
      refine .step (releaseSlot_run hpool) fun t ht => ?_
      subst ht
      refine hs.vacate hx hb hpool rfl rfl (by simp [State.setNode]) fun i => ?_
      rw [setNode_node (by simpa [State.setNode] using hid)]
      split
      · rw [show State.node { s.setNode id _ with pool } id = _ from (hnode id).trans (if_pos rfl)]
        simp [hb]
      · rename_i hne
        exact (hnode i).trans (if_neg hne)
    · rename_i hnot
      refine .pure fun t ht => ?_
      rw [ht]
      exact hless (.inr fun x region hx => hnot x region hx)
  · rename_i hlast
    refine .pure fun t ht => ?_
    rw [ht]
    exact hless (.inl hlast)

/-! ## Regions -/

theorem Balanced.withRegions (h : Balanced ctx g s) (regions : List Region) (next : Region) :
    Balanced ctx { g with regions } { s with regions, nextRegion := next } :=
  ⟨h.arena, rfl, h.pending, h.tracked.congr rfl rfl rfl rfl, h.inStep.imp fun _ ht => ht.congr rfl rfl rfl,
    h.housed.congr rfl (fun _ => ⟨rfl, rfl⟩) rfl, h.needed⟩

theorem meets_closeRegion (r : Region) :
    Meets (Balanced ctx (g.inRegion r)) (closeRegion r) (fun _ => Balanced ctx g) (Sane ctx.function) := by
  refine .each fun s hs => .step rfl fun t ht => ?_
  subst ht
  have hregions : t.regions = r :: g.regions := hs.regions
  simp only [hregions, if_true]
  exact hs.withRegions g.regions t.nextRegion

/-- What is done in a region of its own leaves the regions as they were. -/
theorem meets_inRegion {α : Type} {g' : Account} {act : Lower α}
    (h : ∀ r, Meets (Balanced ctx (g.inRegion r)) act (fun _ => Balanced ctx (g'.inRegion r)) (Sane ctx.function)) :
    Meets (Balanced ctx g) (Lowering.inRegion act) (fun _ => Balanced ctx g') (Sane ctx.function) := by
  refine .each fun s hs => .step rfl ?_
  have hopen := hs.withRegions (s.nextRegion :: s.regions) (s.nextRegion + 1)
  rw [hs.regions] at hopen
  refine .bind ((h s.nextRegion).pre fun t ht => ?_) fun a => .bind (meets_closeRegion _) fun _ => .pure fun _ ht => ht
  subst ht
  rw [hs.regions]
  exact hopen

/-! ## Slots -/

/-- A slot that a node gives its consumer fits the choice that the node has made. -/
def Choice.Gives (ctx : Context) (hint slot : Option TypedSlot) : Choice → Prop
  | .undecided => slot = none
  | .own x => slot = some x
  | .borrowed => ∀ x, slot = some x → hint = some x ∨ x ∈ ctx.params ++ ctx.vars

section

variable (hu : (g.underway id).isSome = true)
include hu

theorem Balanced.isUnderway {c : Choice} (h : Balanced ctx (g.choosing id c) s) : (s.node id).progress = .underway := by
  have hstage := (h.tracked.underway id).2 hu
  unfold State.stage at hstage
  cases hp : (s.node id).progress with
  | underway => rfl
  | untouched => rw [hp] at hstage; cases hstage
  | built slot region => rw [hp] at hstage; cases hstage

theorem Balanced.acquire (h : Balanced ctx (g.choosing id .undecided) s) (k : Kind) :
    Balanced ctx (g.choosing id (.own ⟨k, (s.pool.acquire k).1⟩)) { s with pool := (s.pool.acquire k).2 } := by
  have hp := h.isUnderway hu
  have hacquired := h.housed.pool.acquire k
  have hnone : s.holds (g.choosing id .undecided) id = none := by
    simp [State.holds, hp, Account.choosing, Choice.slot?]
  have hself : State.holds { s with pool := (s.pool.acquire k).2 }
      (g.choosing id (.own ⟨k, (s.pool.acquire k).1⟩)) id = some ⟨k, (s.pool.acquire k).1⟩ := by
    show (match (s.node id).progress with
      | .untouched => none
      | .underway => (Account.choices _ id).slot?
      | .built slot _ => if (s.node id).borrowed then none else slot) = _
    simp [hp, Account.choosing, Choice.slot?]
  have hfree : (s.node id).borrowed = false := by
    have := h.housed.lent id (by rw [State.stage, hp]; rfl)
    simpa [Account.choosing] using this
  refine ⟨h.arena, h.regions, h.pending, h.tracked.congr rfl rfl rfl rfl, h.inStep.imp fun _ ht => ht.congr rfl rfl rfl,
    ?_, h.needed⟩
  refine h.housed.change id hacquired.sound (fun i hi => ⟨rfl, rfl, ?_⟩) (fun _ => hfree) (fun _ => ?_) (fun y => ?_)
    (fun y hy => ?_)
  · simp [Account.choosing, hi]
  · show (s.node id).borrowed = true ↔ _
    simp [hfree, Account.choosing]
  · rw [hacquired.live, hself, hnone]
    by_cases hy : y = ⟨k, (s.pool.acquire k).1⟩
    · simp [hy]
    · simp [hy, Ne.symm hy]
  · rw [hself] at hy
    cases hy
    exact .inr hacquired.dead

theorem Balanced.borrow (h : Balanced ctx (g.choosing id .undecided) s) :
    Balanced ctx (g.choosing id .borrowed) (s.setNode id { s.node id with borrowed := true }) := by
  have hp := h.isUnderway hu
  have hid : id < s.nodes.size := lt_of_touched (by rw [hp]; exact Progress.noConfusion)
  have hnode := setNode_node hid { s.node id with borrowed := true }
  have hprogress : ∀ i, ((s.setNode id { s.node id with borrowed := true }).node i).progress = (s.node i).progress := by
    intro i
    rw [hnode]
    split
    · rename_i hi
      rw [hi]
    · rfl
  have hstage : (s.setNode id { s.node id with borrowed := true }).stage = s.stage :=
    funext fun i => by rw [State.stage, hprogress]; rfl
  have hnone : s.holds (g.choosing id .undecided) id = none := by
    simp [State.holds, hp, Account.choosing, Choice.slot?]
  have hself : (s.setNode id { s.node id with borrowed := true }).holds (g.choosing id .borrowed) id = none := by
    rw [State.holds, hprogress]
    simp [hp, Account.choosing, Choice.slot?]
  refine ⟨by simpa [State.setNode] using h.arena, h.regions, fun i => ?_, h.tracked.congr rfl hstage rfl rfl,
    h.inStep.imp fun _ ht => ht.congr hstage rfl rfl, ?_, fun i x region hx hb => ?_⟩
  · rw [hnode]
    split
    · rename_i hi
      rw [← hi]
      exact h.pending id
    · exact h.pending i
  · refine h.housed.change id h.housed.pool (fun i hi => ?_) (fun hu => ?_) (fun _ => ?_) (fun y => ?_) (fun y hy => ?_)
    · rw [hnode, if_neg hi.symm]
      exact ⟨rfl, rfl, by simp [Account.choosing, hi]⟩
    · rw [hstage, State.stage, hp] at hu
      cases hu
    · rw [hnode, if_pos rfl]
      simp [Account.choosing]
    · rw [hself, hnone]
      simp [State.setNode]
    · rw [hself] at hy
      cases hy
  · rw [hprogress] at hx
    by_cases hi : id = i
    · subst hi
      rw [hp] at hx
      cases hx
    · rw [hnode, if_neg hi] at hb ⊢
      exact h.needed i x region hx hb

theorem meets_resultSlot (hint : Option TypedSlot) :
    Meets (Balanced ctx (g.choosing id .undecided)) (ctx.resultSlot id hint)
      (fun x s => ∃ c, c.Gives ctx hint (some x) ∧ Balanced ctx (g.choosing id c) s) (Sane ctx.function) := by
  have hacquire : ∀ k, Meets (Balanced ctx (g.choosing id .undecided)) (Lowering.acquire k)
      (fun x s => ∃ c, c.Gives ctx hint (some x) ∧ Balanced ctx (g.choosing id c) s) (Sane ctx.function) :=
    fun k s hs => ⟨.own _, rfl, hs.acquire hu k⟩
  unfold Context.resultSlot
  split
  · exact .fail trivial
  · rename_i k _
    split
    · rename_i x
      refine .each fun s hs => .step rfl ?_
      split
      · refine .step rfl (.pure fun t ht => ?_)
        subst ht
        exact ⟨.borrowed, fun y hy => .inl hy, hs.borrow hu⟩
      · exact (hacquire k).pre fun t ht => ht ▸ hs
    · exact hacquire k

end

/-- What a node that was lowered hands to its consumer. -/
def Hands (ctx : Context) (g : Account) (id : NodeId) (hint slot : Option TypedSlot) (s : State) : Prop :=
  (slot.isSome = true → (tallyAt ctx.function.tallies id).demanded = true) ∧
    ∃ c, Choice.Gives ctx hint slot c ∧ Balanced ctx (g.choosing id c) s

theorem meets_isDemanded : Meets (Balanced ctx g) (isDemanded id)
    (fun b s => b = (tallyAt ctx.function.tallies id).demanded ∧ Balanced ctx g s) (Sane ctx.function) := by
  intro s hs
  refine ⟨?_, hs⟩
  show (s.demand.tallies.getD id {}).demanded = _
  rw [hs.tracked.tallies]
  rfl

theorem meets_demandedSlot (hu : (g.underway id).isSome = true) (hint : Option TypedSlot) :
    Meets (Balanced ctx (g.choosing id .undecided)) (ctx.demandedSlot id hint)
      (fun r s => r.isSome = (tallyAt ctx.function.tallies id).demanded ∧ Hands ctx g id hint r s) (Sane ctx.function) := by
  refine .bind meets_isDemanded fun b => .given fun hb => ?_
  split
  · rename_i hd
    rw [hb] at hd
    exact .map ((meets_resultSlot hu hint).post fun x s hx => ⟨by simp [hd], fun _ => hd, hx⟩)
  · rename_i hd
    rw [hb] at hd
    exact .pure fun s hs => ⟨by simpa using hd, nofun, .undecided, rfl, hs⟩

theorem meets_fixedSlot (hu : (g.underway id).isSome = true) (hint : Option TypedSlot) {x : TypedSlot}
    (hx : x ∈ ctx.params ++ ctx.vars) :
    Meets (Balanced ctx (g.choosing id .undecided)) (fixedSlot id x) (fun v => Hands ctx g id hint v.slot)
      (Sane ctx.function) := by
  have hborrow : Meets (Balanced ctx (g.choosing id .undecided)) (Lowering.borrow id)
      (fun _ => Balanced ctx (g.choosing id .borrowed)) (Sane ctx.function) := fun s hs => hs.borrow hu
  refine hborrow.bind fun _ => .bind meets_isDemanded fun b => .given fun hb => ?_
  split
  · rename_i hd
    rw [hb] at hd
    refine .pure fun s hs => ⟨fun _ => hd, .borrowed, fun y hy => .inr ?_, hs⟩
    cases hy
    exact hx
  · exact .pure fun s hs => ⟨nofun, .borrowed, nofun, hs⟩

end SlotCode.Lowering
