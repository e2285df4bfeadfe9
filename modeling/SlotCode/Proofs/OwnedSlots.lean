/-
  SlotCode.Proofs.OwnedSlots — while a function is lowered, every live slot has one owner.

  A node owns its slot from when it takes it until its last reader is done. A walk that
  checks this before and after every visit (`auditedWalk`) does exactly what the plain walk
  does. When the body has been lowered nobody is left to read anything but the result, so
  the result's slot is the only live one.

  Proved: `compile_owns_slots`, for every function, also one with cycles or with types that
  do not fit.
-/

import SlotCode.Proofs.BalancedWalk
import SlotCode.Proofs.Passage

namespace SlotCode

namespace Lowering

/-! ## Owners -/

/-- A node that is built owns its slot unless that is borrowed; a node underway may own a slot already. -/
structure State.OwnedBy (s : State) (own : NodeId → Option TypedSlot) : Prop where
  built : ∀ id slot region, (s.node id).progress = .built slot region → (s.node id).borrowed = false → own id = slot
  owners : ∀ id, (own id).isSome = true → (s.node id).borrowed = false ∧ (s.node id).progress ≠ .untouched
  live : ∀ id x, own id = some x → s.pool.isLive x = true
  one : ∀ x, s.pool.isLive x = true → ∃! id, own id = some x

def State.Owned (s : State) : Prop := ∃ own, s.OwnedBy own

variable {α : Type} {ctx : Context} {g : Account} {s t : State} {u : Usage}

theorem Balanced.owned (h : Balanced ctx g s) : s.Owned := by
  refine ⟨s.holds g, fun id slot region hp hb => ?_, fun id hown => ?_, fun id x hx => (h.housed.live x).2 ⟨id, hx⟩,
    fun x hx => ?_⟩
  · simp [State.holds, hp, hb]
  · unfold State.holds at hown
    cases hp : (s.node id).progress with
    | untouched => simp [hp] at hown
    | underway =>
      refine ⟨?_, Progress.noConfusion⟩
      have hlent := h.housed.lent id (by rw [State.stage, hp]; rfl)
      by_contra hb
      have hborrowed := hlent.1 (by simpa using hb)
      simp [hp, hborrowed, Choice.slot?] at hown
    | built slot region =>
      refine ⟨?_, Progress.noConfusion⟩
      by_contra hb
      have hborrowed : (s.node id).borrowed = true := by simpa using hb
      simp [hp, hborrowed] at hown
  · obtain ⟨id, hid⟩ := (h.housed.live x).1 hx
    exact ⟨id, hid, fun j hj => h.housed.apart j id x hj hid⟩

/-! ## A walk that checks the books -/

/-- Looks at the state before and after a step. -/
def audit (check : State → Bool) (alarm : BuildError) (act : Lower α) : Lower α := do
  if check (← get) then
    let a ← act
    if check (← get) then return a else throw alarm
  else throw alarm

/-- The walk, with every visit audited. -/
def auditedWalk (ctx : Context) (check : State → Bool) (alarm : BuildError) : (room depth : Nat) → Walk
  | 0, depth => walk ctx 0 depth
  | room + 1, depth =>
    let inner := auditedWalk ctx check alarm room (depth + 1)
    ⟨fun id u hint offer => audit check alarm (build ctx depth inner id u hint offer),
      fun id => audit check alarm (condition ctx depth inner id)⟩

theorem Mirrors.audit {P : State → Prop} {act' act : Lower α} {Q : α → State → Prop} {E : BuildError → Prop}
    {check : State → Bool} (h : Mirrors P act' act Q E) (alarm : BuildError) (hbefore : ∀ s, P s → check s = true)
    (hafter : ∀ a s, Q a s → check s = true) : Mirrors P (audit check alarm act') act Q E := by
  refine ⟨h.meets, fun s hs => ?_⟩
  show (if check s then _ else _ : Lower α) s = _
  rw [if_pos (hbefore s hs)]
  show (act' s >>= fun r => (if check r.2 then Pure.pure r.1 else throw alarm : Lower α) r.2) = _
  rw [h.same s hs]
  cases hr : act s with
  | error e => rfl
  | ok r =>
    have hcheck := hafter r.1 r.2 (h.meets.ok hs hr)
    show (if check r.2 then Pure.pure r.1 else throw alarm : Lower α) r.2 = _
    rw [if_pos hcheck]
    rfl

/-- Auditing ownership changes nothing. -/
theorem auditedWalk_balances {check : State → Bool} (hcheck : ∀ s : State, s.Owned → check s = true) (alarm : BuildError)
    (room depth : Nat) : (auditedWalk ctx check alarm room depth).Balances ctx (walk ctx room depth) := by
  induction room generalizing depth with
  | zero => exact ⟨fun _ _ _ _ _ _ _ => .fail trivial, fun _ _ _ => .fail trivial⟩
  | succ room ih =>
    have hinner := ih (depth + 1)
    refine ⟨fun g d u hint offer hd hread => ?_, fun g d hd => ?_⟩
    · exact (hinner.build_mirrors depth g d u hint offer hd hread).audit alarm (fun s hs => hcheck s hs.owned)
        fun _ s hs => hcheck s hs.owned
    · exact (hinner.condition_mirrors depth g d hd).audit alarm (fun s hs => hcheck s hs.owned)
        fun _ s hs => hcheck s hs.owned

/-! ## The start -/

theorem node_start (ctx : Context) (demand : Demand) (pool : Pool) (id : NodeId) :
    (State.start ctx demand pool).node id = {} := by
  by_cases hlt : id < ctx.function.nodes.size <;> simp [State.start, State.node, hlt]

theorem waiting_start {f : Function} (h : ∀ id, s.stage id = .untouched) : f.bodyDue ::ₘ s.waiting f = f.allDues := by
  simp [State.waiting, Function.allDues, h]

/-- Lowering starts with the one visit that the caller owes. -/
theorem Outset.balanced (h : Outset ctx u s) : Balanced ctx (Account.owing {} [ctx.function.bodyDue]) s := by
  obtain ⟨demand, hdemand, hs⟩ := h.analyzed
  obtain ⟨hbound, htallies, hleft⟩ := Demand.analyze_ok hdemand
  have hsize : ctx.function.tallies.size = ctx.function.nodes.size := (Function.counted_tallies hbound).size
  have hnode : ∀ id, s.node id = {} := fun id => by rw [hs]; exact node_start ctx demand s.pool id
  have hstage : ∀ id, s.stage id = .untouched := fun id => by rw [State.stage, hnode]; rfl
  have hnone : ∀ id, s.holds (Account.owing {} [ctx.function.bodyDue]) id = none := fun id => by simp [State.holds, hnode]
  have hlefts : ∀ id < ctx.function.nodes.size, s.left id = leftOf ctx.function.allDues id := by
    intro id hid
    have hat : id < ctx.function.tallies.size := hsize ▸ hid
    rw [Function.left_start hbound hid, State.left, hs]
    simp [State.start, hleft, tallyAt, hat]
  refine ⟨by rw [hs]; simp [State.start], by rw [hs]; rfl, fun id => by simp [hnode, Account.owing], ?_, ?_, ?_, ?_⟩
  · refine ⟨hbound, by rw [hs]; exact htallies, ?_, fun id => ?_, by simp [Account.owing],
      fun id hid _ => hlefts id hid, fun id hid => ?_,
      fun d hd => ?_, fun p hp => absurd (hstage p) hp, ⟨fun _ => 0, fun p hp => ?_⟩⟩
    · rw [hs, State.start, hleft]
      simp [hsize]
    · rw [hstage]
      simp [Account.owing]
    · rw [hlefts id hid, Account.owed_owing_one, Multiset.add_cons]
      exact congrArg (leftOf · id) ((waiting_start hstage).symm.trans (by simp [Account.owed]))
    · obtain rfl : d = ctx.function.bodyDue := by simpa [Account.owed, Account.owing, Task.due?] using hd
      exact ⟨Function.mem_allDues.2 (.inl rfl), by simp [Function.bodyDue]⟩
    · rw [hstage] at hp
      cases hp
  · refine ⟨⟨Array.replicate ctx.function.nodes.size false, []⟩, by simp, fun id _ => ?_, rfl, by simp [Account.owing]⟩
    rw [Function.not_has_start, hstage]
    simp
  · refine ⟨h.sound, fun id _ => by rw [hnode], fun id hu => ?_, fun x => ?_, fun i j x hx _ => ?_⟩
    · rw [hstage] at hu
      cases hu
    · simp [h.dead x, hnone]
    · rw [hnone] at hx
      cases hx
  · intro id x region hp
    rw [hnode] at hp
    cases hp

theorem Outset.bodyMade (h : Outset ctx u s) : ctx.function.bodyDue.Made ctx.function u := by
  have hused := h.used
  unfold bodyUsage at hused
  cases hn : ctx.function.node? ctx.function.body with
  | none => simp only [hn] at hused; cases hused
  | some body =>
    have hkind : ctx.function.kind? ctx.function.body = body.type.kind? := by simp [Function.kind?, hn]
    simp only [hn] at hused
    split at hused
    · rename_i hreturn
      cases hused
      exact .ignored (by simp [Function.bodyDue, Function.bodyRead, hreturn])
    · rename_i wanted found hreturn hfound
      split at hused
      · cases hused
        exact .value (by simp [Function.bodyDue, Function.bodyRead, hreturn]) (.of_kind (hkind.trans hfound) rfl)
      · cases hused
    · rename_i wanted hreturn hfound
      split at hused
      · cases hused
        exact .ignored (by simp [Function.bodyDue, Function.bodyRead, hkind, hfound])
      · cases hused

/-- The walk pays the visit that the caller owes, and the body is built. -/
theorem Outset.builds (h : Outset ctx u s) :
    Meets (· = s) ((walk ctx (ctx.function.nodes.size + 1) 0).build ctx.function.body u none none)
      (fun v t => Balanced ctx {} t ∧ t.stage ctx.function.body = .built ∧ Settles ctx t ctx.function.body none v.slot)
      (Sane ctx.function) := by
  have huntouched : (s.node ctx.function.body).progress = .untouched := by
    obtain ⟨demand, -, hs⟩ := h.analyzed
    rw [hs, node_start]
  refine Meets.post ((walk_balances ctx.function.nodes.size 1).build_first 0 u none h.bodyMade
    (fun _ => .inr rfl) h.balanced huntouched).meets fun v t ⟨hb, hsettles⟩ => ⟨hb, ?_, hsettles⟩
  obtain ⟨region, hbuilt⟩ := hsettles.built
  have hbuilt : (t.node ctx.function.body).progress = .built v.slot region := hbuilt
  rw [State.stage, hbuilt]
  rfl

/-! ## The end -/

/-- With nothing left to do, everything that the body leads to is built. -/
theorem Balanced.all_built (h : Balanced ctx {} t) (hb : t.stage ctx.function.body = .built) {id : NodeId}
    (hid : ctx.function.Reachable id) : t.stage id = .built := by
  induction hid with
  | refl => exact hb
  | tail _ hc ih =>
    obtain ⟨d, hd, rfl⟩ := Function.exists_due hc
    exact h.tracked.children_built ih hd

theorem Balanced.left_zero (h : Balanced ctx {} t) (hb : t.stage ctx.function.body = .built) {id : NodeId}
    (hid : id < ctx.function.nodes.size) : t.left id = ⟨0, 0⟩ := by
  have hwaiting : t.waiting ctx.function = 0 := by
    refine Finset.sum_eq_zero fun p hp => ?_
    obtain ⟨hmem, huntouched⟩ := Finset.mem_filter.1 hp
    rw [h.all_built hb (Function.mem_order.1 (List.mem_toFinset.1 hmem))] at huntouched
    cases huntouched
  rw [h.tracked.counts id hid, hwaiting]
  rfl

/-- With nothing left to do, only the body owns a slot. -/
theorem Balanced.live_iff (h : Balanced ctx {} t) (hb : t.stage ctx.function.body = .built) (x : TypedSlot) :
    t.pool.isLive x = true ↔ t.holds {} ctx.function.body = some x := by
  refine (h.housed.live x).trans ⟨fun ⟨id, hid⟩ => ?_, fun hx => ⟨_, hx⟩⟩
  cases hp : (t.node id).progress with
  | untouched => simp [State.holds, hp] at hid
  | underway => simp [State.holds, hp, Choice.slot?] at hid
  | built slot region =>
    have hlt : id < ctx.function.nodes.size := h.arena ▸ lt_of_touched (by rw [hp]; exact Progress.noConfusion)
    obtain ⟨hborrowed, rfl⟩ : (t.node id).borrowed = false ∧ slot = some x := by simpa [State.holds, hp] using hid
    rcases h.needed id x region hp hborrowed with hpending | hvalues | hbody
    · rw [h.pending] at hpending
      simp at hpending
    · rw [h.left_zero hb hlt] at hvalues
      cases hvalues
    · exact hbody ▸ hid

/-- With nothing left to do, no node leads back to itself. -/
theorem Balanced.acyclic (h : Balanced ctx {} t) (hb : t.stage ctx.function.body = .built) : ctx.function.Acyclic := by
  obtain ⟨rank, hrank⟩ := h.tracked.ranked
  have hless : ∀ p q, ctx.function.Reachable p → Relation.TransGen ctx.function.IsChild p q → rank q < rank p := by
    intro p q hp hpq
    induction hpq with
    | single hc => exact hrank p (h.all_built hb hp) _ hc
    | tail hpm hc ih => exact Nat.lt_trans (hrank _ (h.all_built hb (hp.trans hpm.to_reflTransGen)) _ hc) ih
  exact fun id hid hcycle => Nat.lt_irrefl _ (hless id id hid hcycle)

/-- After the walk the accounts are closed and the body is built. -/
theorem Passage.balanced {p : Program} (P : Passage ctx p) :
    Balanced ctx {} P.walked ∧ P.walked.stage ctx.function.body = .built := by
  obtain ⟨hb, hbuilt, -⟩ := P.outset.builds.ok rfl P.walks
  exact ⟨hb, hbuilt⟩

theorem Passage.acyclic {p : Program} (P : Passage ctx p) : ctx.function.Acyclic := P.balanced.1.acyclic P.balanced.2

/-- The live slots after the walk, of which the body is the last owner. -/
theorem meets_body (h : Outset ctx u s) :
    Meets (· = s) ((walk ctx (ctx.function.nodes.size + 1) 0).build ctx.function.body u none none)
      (fun v t => t.pool.Sound (ctx.params ++ ctx.vars) ∧
        ∀ x, t.pool.isLive x = true ↔ v.slot = some x ∧ x ∉ ctx.params ++ ctx.vars) (Sane ctx.function) := by
  refine h.builds.post ?_
  rintro v t ⟨hb, hstage, hsettles⟩
  refine ⟨hb.housed.pool, fun x => ?_⟩
  obtain ⟨region, hbuilt⟩ := hsettles.built
  have hbuilt : (t.node ctx.function.body).progress = .built v.slot region := hbuilt
  have hholds : t.holds {} ctx.function.body = if (t.node ctx.function.body).borrowed then none else v.slot := by
    simp [State.holds, hbuilt]
  have hlive := hb.live_iff hstage x
  rw [hholds] at hlive
  cases hborrowed : (t.node ctx.function.body).borrowed with
  | true =>
    rw [hborrowed] at hlive
    rw [hlive]
    refine ⟨by simp, ?_⟩
    rintro ⟨hx, hloose⟩
    rcases hsettles.lent hborrowed x hx with hhint | hfixed
    · cases hhint
    · exact absurd hfixed hloose
  | false =>
    rw [hborrowed] at hlive
    refine ⟨fun hx => ⟨hlive.1 hx, fun hfixed => ?_⟩, fun hx => hlive.2 hx.1⟩
    rw [hb.housed.pool.fixed_dead hfixed] at hx
    cases hx

/-- A body that is lowered for its effects gives no value. -/
theorem meets_bodySlot (h : Outset ctx u s) :
    Meets (· = s) ((walk ctx (ctx.function.nodes.size + 1) 0).build ctx.function.body u none none)
      (fun v _ => u = .ignore → v.slot = none) (Sane ctx.function) := by
  refine h.builds.post fun v t ⟨hb, hbuilt, hsettles⟩ hu => ?_
  have hacyclic := hb.acyclic hbuilt
  by_contra hslot
  have hdemanded := hsettles.demanded (Option.isSome_iff_ne_none.2 hslot)
  rcases (Function.demanded_iff hb.tracked.bound hacyclic .refl).1 hdemanded with ⟨-, hread⟩ | ⟨p, hp, e, hpe, -⟩
  · have hmade := h.bodyMade.reads
    rw [hu] at hmade
    cases hread.symm.trans hmade
  · exact hacyclic _ .refl (Relation.TransGen.tail' hp (Function.isChild_iff.2 ⟨e, hpe⟩))

/-- Binding the result leaves its slot as the only live one. -/
theorem meets_binding (v : Visited) :
    Meets (fun t => t.pool.Sound (ctx.params ++ ctx.vars) ∧
        ∀ x, t.pool.isLive x = true ↔ v.slot = some x ∧ x ∉ ctx.params ++ ctx.vars) (resultBinding ctx v.slot)
      (fun r t => ∀ x, t.pool.isLive x = true ↔ r = some x) (Sane ctx.function) := by
  intro t ⟨hsound, hlive⟩
  have hok : ∃ r, resultBinding ctx v.slot t = .ok r := by
    cases v.slot with
    | none => exact ⟨_, rfl⟩
    | some x =>
      unfold resultBinding
      dsimp only
      split <;> exact ⟨_, rfl⟩
  obtain ⟨⟨r, t'⟩, hr⟩ := hok
  rw [hr]
  intro x
  rcases resultBinding_ok hr with ⟨rfl, rfl, hloose⟩ | ⟨y, hy, hfixed, rfl, rfl⟩
  · rw [hlive]
    refine ⟨fun hx => hx.1, fun hx => ⟨hx, ?_⟩⟩
    rw [List.mem_append, not_or]
    exact hloose x hx
  · -- A result in a fixed slot is moved, and until then nothing was live.
    have hmem : y ∈ ctx.params ++ ctx.vars := List.mem_append.2 hfixed
    have hnone : t.pool.isLive x = false := by
      by_contra hx
      obtain ⟨hslot, hloose⟩ := (hlive x).1 (by simpa using hx)
      rw [hy] at hslot
      cases hslot
      exact hloose hmem
    show (t.pool.acquire y.kind).2.isLive x = true ↔ _
    rw [(hsound.acquire y.kind).live, hnone]
    simp [eq_comm]

theorem meets_lowered (h : Outset ctx u s) :
    Meets (· = s) (lowerBody ctx u) (fun r t => ∀ x, t.pool.isLive x = true ↔ r = some x) (Sane ctx.function) := by
  refine (meets_body h).bind fun v => (meets_binding v).bind fun r => ?_
  have hstop : Meets (fun t : State => ∀ x, t.pool.isLive x = true ↔ r = some x) (emit .stop)
      (fun _ t => ∀ x, t.pool.isLive x = true ↔ r = some x) (Sane ctx.function) :=
    (kept_emit .stop).stable fun a b e ha => by
      have hpool : b.pool = a.pool := (Prod.mk.inj (Prod.mk.inj e).2).1
      rw [hpool]
      exact ha
  refine hstop.bind fun _ => .each fun t ht => .step rfl ?_
  dsimp only
  rw [if_pos (Pool.liveCount_eq_length ht)]
  exact .pure fun t' ht' => ht' ▸ ht

end Lowering

open Lowering

/-! ## The whole lowering -/

/-- Whether the books of slots, readers and regions contradict themselves. -/
def Defect.isSlotFault : Defect → Bool
  | .pool _ | .overReleased _ | .regionOrder | .slotsLeft _ => true
  | _ => false

theorem isSlotFault_of_sane {f : Function} {d : Defect} (h : Sane f (.internal d)) : d.isSlotFault = false := by
  cases d with
  | pool _ => cases h
  | overReleased _ => cases h
  | regionOrder => cases h
  | slotsLeft _ => cases h
  | _ => rfl

theorem compile_slotFault {f : Function} {env : Environment} {options : CompileOptions} {d : Defect}
    (h : compile f env options = .error (.internal d)) : d.isSlotFault = false := by
  rcases compile_eq_error h with ⟨what, he, -⟩ | ⟨id, cause, he⟩ | ⟨params, vars, u, s, hstart, hlower | ⟨cause, he⟩⟩
  · cases he
  · cases he
  · exact isSlotFault_of_sane ((meets_lowered hstart).error rfl hlower)
  · cases cause <;> cases he

/-- Lowering never gives a slot back that is not live, lets no reader go that was not announced, closes regions
    innermost first and keeps no slot but the result's. At every visit each live slot has exactly one owner, so that
    an audit of owners changes nothing. -/
theorem compile_owns_slots (f : Function) (env : Environment) (options : CompileOptions) :
    (∀ d, compile f env options = .error (.internal d) → d.isSlotFault = false) ∧
      ∀ params vars u s, Outset ⟨f, env, options, params, vars⟩ u s →
        (∀ check alarm, (∀ t : State, t.Owned → check t = true) →
          (auditedWalk ⟨f, env, options, params, vars⟩ check alarm (f.nodes.size + 1) 0).build f.body u none none s =
            (walk ⟨f, env, options, params, vars⟩ (f.nodes.size + 1) 0).build f.body u none none s) ∧
        ∀ v t r t', (walk ⟨f, env, options, params, vars⟩ (f.nodes.size + 1) 0).build f.body u none none s = .ok (v, t) →
          resultBinding ⟨f, env, options, params, vars⟩ v.slot t = .ok (r, t') →
            ∀ x, t'.pool.isLive x = true ↔ r = some x := by
  refine ⟨fun d hd => compile_slotFault hd, fun params vars u s hstart => ⟨fun check alarm hcheck => ?_, ?_⟩⟩
  · have hwalk : Walk.Balances ⟨f, env, options, params, vars⟩ (auditedWalk _ check alarm (f.nodes.size + 1) 0)
        (walk _ (f.nodes.size + 1) 0) := auditedWalk_balances hcheck alarm _ _
    exact (hwalk.build {} f.bodyDue u none none hstart.bodyMade fun _ => .inr rfl).same s hstart.balanced
  · intro v t r t' hwalk hbind
    exact (meets_binding v).ok ((meets_body hstart).ok rfl hwalk) hbind

/-- Squares its parameter once and adds the square to itself. -/
def doubledSquare : Function where
  params := [.int]
  locals := []
  nodes := #[⟨.param 0, .int⟩, ⟨.binary (.arith .int .mul) 0 0, .int⟩, ⟨.binary (.arith .int .add) 1 1, .int⟩]
  body := 2
  returnType := .int

theorem doubledSquare_owns_slots : ∃ params vars u s v t t', Outset ⟨doubledSquare, {}, {}, params, vars⟩ u s ∧
    (walk ⟨doubledSquare, {}, {}, params, vars⟩ 4 0).build 2 u none none s = .ok (v, t) ∧
      resultBinding ⟨doubledSquare, {}, {}, params, vars⟩ v.slot t = .ok (some ⟨.int, 1⟩, t') ∧
        ∀ x, t'.pool.isLive x = true ↔ some ⟨.int, 1⟩ = some x := by
  have hp : compile doubledSquare {} {} =
      .ok { code := #[.arith .int .mul 1 0 0, .arith .int .add 1 1 1, .stop], counts := ⟨2, 0, 0, 0, 0⟩,
            params := [⟨.int, 0⟩], result := some ⟨.int, 1⟩ } := by
    decide +kernel
  obtain ⟨params, vars, ⟨P⟩⟩ := compile_passage hp
  have hlive := ((compile_owns_slots doubledSquare {} {}).2 params vars P.usage _ P.outset).2 _ _ _ _ P.walks P.binds
  exact ⟨params, vars, P.usage, _, P.visited, P.walked, P.bound, P.outset, P.walks, P.binds, hlive⟩

end SlotCode
