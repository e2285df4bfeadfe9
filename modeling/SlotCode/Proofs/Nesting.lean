/-
  SlotCode.Proofs.Nesting — what is underway, and what has been emitted so far.

  The nodes underway are the way from the body down to the node at hand (`Leads`), each
  once. So a node that is met again while it is underway leads back to itself, and the way
  is never longer than the arena. A node that is built has done its work: the code holds
  the operations of the built nodes, and beyond them only what the nodes underway have
  done already (`Laid`).

  Proved: the steps of lowering that emit no operation keep all this (`Idle`), an
  instruction adds its own operation (`Adds`), and so does a call with its site.
-/

import SlotCode.Proofs.Routine

namespace SlotCode

open Relation (TransGen)

/-! ## Ways into the graph -/

/-- The nodes on a way from the body to a node, the last one first. -/
inductive Function.Leads (f : Function) : List NodeId → NodeId → Prop
  | body : f.Leads [] f.body
  | child {path : List NodeId} {p c : NodeId} : f.Leads path p → f.IsChild p c → f.Leads (p :: path) c

namespace Function.Leads

variable {f : Function} {path : List NodeId} {c : NodeId}

theorem reachable (h : f.Leads path c) : f.Reachable c := by
  induction h with
  | body => exact .refl
  | child _ hc ih => exact ih.tail hc

theorem above (h : f.Leads path c) : ∀ p ∈ path, TransGen f.IsChild p c := by
  induction h with
  | body => exact nofun
  | child _ hc ih =>
    intro q hq
    rcases List.mem_cons.1 hq with rfl | hq
    · exact .single hc
    · exact (ih q hq).tail hc

theorem children (h : f.Leads path c) {n : Node} (hn : f.node? c = some n) : ∀ x ∈ n.expr.children, f.Leads (c :: path) x :=
  fun x hx => h.child (show x ∈ f.children c by rw [Function.children, hn]; exact hx)

end Function.Leads

/-! ## Work -/

/-- Operations, and the natives that are called. -/
abbrev Work := Multiset Operation × Multiset (Option FunctionId)

def Work.of (o : Option Operation) : Work := ((o.toList : Multiset Operation), 0)

/-- What a node has to do. -/
def Function.work (f : Function) (env : Environment) (id : NodeId) : Work :=
  (((f.operation? env id).toList : Multiset Operation), ((f.callee? env id).toList : Multiset (Option FunctionId)))

namespace Lowering

/-- What the code does, wherever it stands. -/
def State.work (s : State) : Work :=
  ((s.draft.picked Instruction.operation? : Multiset Operation),
    (s.sites.toList.map fun site => some site.function : Multiset (Option FunctionId)))

/-- The nodes of `path` are underway. The code was `base` and does the work of the nodes that are built, and `m` besides. -/
structure Laid (ctx : Context) (base : Draft) (path : List NodeId) (m : Work) (s : State) : Prop where
  bound : ∀ id, ctx.function.Reachable id → id < ctx.function.nodes.size
  arena : s.nodes.size = ctx.function.nodes.size
  counted : s.demand.left.size = ctx.function.nodes.size
  tallies : s.demand.tallies = ctx.function.tallies
  sorted : (s.nextRegion :: s.regions).Pairwise (fun a b => b < a)
  once : path.Nodup
  underway : ∀ id, s.stage id = .underway ↔ id ∈ path
  /-- Whoever came to a node first was one of its consumers. -/
  visited : ∀ id, (s.left id).consumers + (if s.stage id = .untouched then 0 else 1) ≤
    (tallyAt ctx.function.tallies id).total
  grown : base.Before s.draft
  calls : s.draft.picked Instruction.site? = List.range s.sites.size
  work : s.work =
    (∑ p ∈ ctx.function.order.toFinset with s.stage p = .built, ctx.function.work ctx.env p) + m

/-- A cycle is reported at a node that leads back to itself, and a depth that is one beyond the limit, where the limit is
    less than the size of the arena. Something is missing only where a field is read and the walk along the lineage of its
    owner misses it. -/
def Warranted (ctx : Context) : BuildError → Prop
  | .cycle id => ctx.function.Reachable id ∧ TransGen ctx.function.IsChild id id
  | .tooDeep depth limit => limit = ctx.options.maxDepth ∧ depth = limit + 1 ∧ limit < ctx.function.nodes.size
  | .missing what => ∃ id field object type, ctx.function.Reachable id ∧
      ctx.function.node? id = some ⟨.getField field object, type⟩ ∧
      ctx.env.classes.resolveField field.owner field.name = .error what
  | _ => True

variable {α β : Type} {ctx : Context} {base : Draft} {path : List NodeId} {m : Work} {s t : State} {id c : NodeId}

theorem Laid.clean (h : Laid ctx base path m s) : s.draft.Clean := h.grown.clean

/-- Routine neither adds work nor comes to a node. -/
theorem Laid.of_tends (h : Laid ctx base path m s) (ht : Tends s t) : Laid ctx base path m t := by
  obtain ⟨hsize, hstage, hdemand, -, hsites, hregions⟩ : t.nodes.size = s.nodes.size ∧ t.stage = s.stage ∧
      t.demand = s.demand ∧ t.table = s.table ∧ t.sites = s.sites ∧
      t.nextRegion :: t.regions = s.nextRegion :: s.regions := by
    simpa [State.ground] using ht.ground
  have hwork : t.work = s.work := by
    rw [State.work, ht.draft.picked _ passive_operation?, hsites]
    rfl
  have hleft : t.left = s.left := by
    unfold State.left
    rw [hdemand]
  refine ⟨h.bound, hsize.trans h.arena, ?_, (congrArg _ hdemand).trans h.tallies, hregions ▸ h.sorted, h.once, ?_, ?_,
    h.grown.trans ht.draft.toBefore, ?_, ?_⟩
  · rw [hdemand]
    exact h.counted
  · rw [hstage]
    exact h.underway
  · rw [hstage, hleft]
    exact h.visited
  · rw [ht.draft.picked _ passive_site?, hsites]
    exact h.calls
  · rw [hwork, hstage]
    exact h.work

theorem Laid.withRegions {regions : List Region} {next : Region} (h : Laid ctx base path m s)
    (hsorted : (next :: regions).Pairwise (fun a b => b < a)) : Laid ctx base path m { s with regions, nextRegion := next } :=
  ⟨h.bound, h.arena, h.counted, h.tallies, hsorted, h.once, h.underway, h.visited, h.grown, h.calls, h.work⟩

theorem Laid.openRegion (h : Laid ctx base path m s) :
    Laid ctx base path m { s with regions := s.nextRegion :: s.regions, nextRegion := s.nextRegion + 1 } := by
  refine h.withRegions (List.pairwise_cons.2 ⟨fun r hr => ?_, h.sorted⟩)
  rcases List.mem_cons.1 hr with rfl | hr
  · exact Nat.lt_succ_self _
  · exact Nat.lt_succ_of_lt ((List.pairwise_cons.1 h.sorted).1 r hr)

theorem Laid.lt_of_mem (h : Laid ctx base path m s) (hid : id ∈ path) : id < ctx.function.nodes.size := by
  have hstage := (h.underway id).2 hid
  rw [← h.arena]
  refine lt_of_touched fun hp => ?_
  rw [State.stage, hp] at hstage
  cases hstage

theorem Laid.path_le (h : Laid ctx base path m s) : path.length ≤ ctx.function.nodes.size := by
  have hsub : path.toFinset ⊆ Finset.range ctx.function.nodes.size := fun id hid =>
    Finset.mem_range.2 (h.lt_of_mem (List.mem_toFinset.1 hid))
  have hcard := Finset.card_le_card hsub
  rwa [List.toFinset_card_of_nodup h.once, Finset.card_range] at hcard

/-! ## Steps that emit no operation -/

/-- Whatever is underway, the step leaves it so and adds no work; what it gives satisfies `p`. -/
abbrev Idle (ctx : Context) (act : Lower α) (p : α → Prop) : Prop :=
  Upholds (fun i : Draft × List NodeId × Work => Laid ctx i.1 i.2.1 i.2.2) (Warranted ctx) act p

theorem Warranted.of_plain {e : BuildError} (h : e.IsPlain) : Warranted ctx e := by
  cases e with
  | cycle | tooDeep | missing => exact h.elim
  | _ => trivial

theorem Routine.idle {act : Lower α} {p : α → Prop} (h : Routine act p) : Idle ctx act p :=
  h.upholds (fun _ _ hs => hs.clean) (fun _ _ _ ht hs => hs.of_tends ht) fun _ he => .of_plain he

/-! ### Looking things up -/

/-- A node that the body leads to is there. -/
theorem Laid.node (h : Laid ctx base path m s) (hid : ctx.function.Reachable id) : ∃ n, ctx.function.node? id = some n :=
  ⟨_, Array.getElem?_eq_getElem (h.bound id hid)⟩

theorem idle_node (hid : ctx.function.Reachable id) : Idle ctx (ctx.node id) fun n => ctx.function.node? id = some n := by
  intro i s hs
  obtain ⟨n, hn⟩ := hs.node hid
  unfold Context.node
  rw [hn]
  exact ⟨rfl, hs⟩

theorem idle_isDemanded : Idle ctx (isDemanded id) fun b => b = (tallyAt ctx.function.tallies id).demanded := by
  intro i s hs
  refine ⟨?_, hs⟩
  show (s.demand.tallies.getD id {}).demanded = _
  rw [hs.tallies]
  rfl

theorem idle_expectType (hid : ctx.function.Reachable id) (type : ValueType) :
    Idle ctx (ctx.expectType id type) fun _ => True :=
  (idle_node hid).bind fun _ _ => .ite (fun _ => .fail trivial) fun _ => .pure trivial

theorem idle_lookup {r : Except Missing α} (h : ∀ what, r = .error what → Warranted ctx (.missing what)) :
    Idle ctx (lookup r) fun a => r = .ok a := by
  cases r with
  | ok a => exact .pure rfl
  | error what => exact .fail (h what rfl)

theorem idle_arguments {args : List (NodeId × ValueType)} (h : ∀ x ∈ args, ctx.function.Reachable x.1) :
    Idle ctx (args.forM fun (arg, type) => ctx.expectType arg type) fun _ => True := by
  induction args with
  | nil => exact .pure trivial
  | cons x xs ih =>
    obtain ⟨hx, hxs⟩ := List.forall_mem_cons.1 h
    exact (idle_expectType hx x.2).bind fun _ _ => ih hxs

/-! ### The books of nodes and slots -/

theorem Left.consumers_take {l l' : Left} {u : Usage} (h : l.take u = some l') : l'.consumers + 1 = l.consumers := by
  cases u <;> simp only [Left.take, Option.ite_none_right_eq_some, Option.some.injEq] at h <;> obtain ⟨hpos, rfl⟩ := h
  · exact Nat.sub_add_cancel hpos.1
  · exact Nat.sub_add_cancel hpos.1

theorem Demand.consume_ne_missing {d : Demand} {u : Usage} {node : NodeId} (h : id < d.left.size) :
    d.consume id u ≠ .error (.missing node) := by
  unfold Demand.consume
  rw [Array.getElem?_eq_getElem h]
  dsimp only
  split
  · simp
  · simp

/-- A consumer is used up, and nothing else. -/
theorem Demand.consume_spends {d e : Demand} {u : Usage} {n : Nat} (h : d.consume id u = .ok (n, e)) :
    e.tallies = d.tallies ∧ e.left.size = d.left.size ∧ (e.left.getD id {}).consumers + 1 = (d.left.getD id {}).consumers ∧
      ∀ i, i ≠ id → e.left.getD i {} = d.left.getD i {} := by
  unfold Demand.consume at h
  cases hl : d.left[id]? with
  | none =>
    rw [hl] at h
    cases h
  | some l =>
    simp only [hl] at h
    cases htake : l.take u with
    | none =>
      rw [htake] at h
      cases h
    | some l' =>
      rw [htake] at h
      cases h
      have hlt : id < d.left.size := (Array.getElem?_eq_some_iff.1 hl).1
      refine ⟨rfl, Array.size_setIfInBounds, ?_, fun i hi => ?_⟩
      · rw [Array.getD_eq_getD_getElem?, Array.getD_eq_getD_getElem?, hl, Array.getElem?_setIfInBounds_self_of_lt hlt]
        exact Left.consumers_take htake
      · simp [Array.getD_eq_getD_getElem?, Ne.symm hi]

/-- A visit leaves one consumer fewer. -/
theorem Laid.consume (h : Laid ctx base path m s) (hid : ctx.function.Reachable id) (u : Usage) : Meets (· = s) (consume id u)
    (fun _ t => Laid ctx base path m t ∧ t.stage = s.stage ∧ (t.left id).consumers + 1 = (s.left id).consumers)
    (Warranted ctx) := by
  refine .read fun s' hs => ?_
  rw [hs]
  cases hd : s.demand.consume id u with
  | error e =>
    cases e with
    | mismatch node usage => exact fun _ _ => trivial
    | missing node => exact absurd hd (Demand.consume_ne_missing (h.counted ▸ h.bound id hid))
  | ok r =>
    obtain ⟨htallies, hsize, hspent, hother⟩ := Demand.consume_spends hd
    refine fun _ _ => ⟨?_, rfl, hspent⟩
    refine ⟨h.bound, h.arena, hsize.trans h.counted, htallies.trans h.tallies, h.sorted, h.once, h.underway,
      fun i => ?_, h.grown, h.calls, h.work⟩
    have hi : (r.2.left.getD i {}).consumers ≤ (s.left i).consumers := by
      by_cases he : i = id
      · subst he
        exact Nat.le_of_succ_le hspent.le
      · exact (congrArg Left.consumers (hother i he)).le
    exact (Nat.add_le_add_right hi _).trans (h.visited i)

theorem idle_demandedSlot (hint : Option TypedSlot) :
    Idle ctx (ctx.demandedSlot id hint) fun r => r.isSome = (tallyAt ctx.function.tallies id).demanded ∧
      ∀ x, r = some x → ctx.function.kind? id = some x.kind := by
  refine idle_isDemanded.bind fun b hb => .ite (fun hd => ?_) fun hd => ?_
  · refine .map ((routine_resultSlot hint).idle.post fun x hx => ⟨?_, ?_⟩)
    · rw [← hb, hd]
      rfl
    · rintro _ ⟨⟩
      exact hx
  · exact .pure ⟨by rw [← hb]; simpa using hd, nofun⟩

/-! ### Texts and regions -/

theorem idle_intern (text : String) : Idle ctx (intern text) fun _ => True := fun _ _ hs =>
  ⟨trivial, hs.bound, hs.arena, hs.counted, hs.tallies, hs.sorted, hs.once, hs.underway, hs.visited, hs.grown, hs.calls, hs.work⟩

theorem idle_openRegion : Idle ctx openRegion fun _ => True := fun _ _ hs => ⟨trivial, hs.openRegion⟩

theorem idle_closeRegion (r : Region) : Idle ctx (closeRegion r) fun _ => True := by
  refine fun i => .read fun s hs => ?_
  cases hregions : s.regions with
  | nil => exact .fail trivial
  | cons top rest =>
    dsimp only
    split
    · have hsorted := hs.sorted
      rw [hregions] at hsorted
      exact fun t ht => ⟨trivial, hs.withRegions (hsorted.sublist ((List.sublist_cons_self top rest).cons_cons _))⟩
    · exact .fail trivial

/-! ## Steps that do work -/

/-- The step leaves underway what is underway, and adds the work `a`. -/
def Adds (ctx : Context) (path : List NodeId) (a : Work) (act' act : Lower α) : Prop :=
  ∀ base m, Mirrors (Laid ctx base path m) act' act (fun _ => Laid ctx base path (m + a)) (Warranted ctx)

theorem Idle.adds {act : Lower α} {p : α → Prop} (h : Idle ctx act p) : Adds ctx path 0 act act := by
  intro base m
  rw [add_zero]
  exact ((h (base, path, m)).post fun _ _ hs => hs.2).mirrors

namespace Adds

variable {a : Work} {x' x : Lower α} {f' f : α → Lower β}

theorem pure {r : α} : Adds ctx path 0 (Pure.pure r) (Pure.pure r) := Idle.adds (p := fun _ => True) (.pure trivial)

theorem fail {e : BuildError} (h : Warranted ctx e) : Adds ctx path a (throw e : Lower α) (throw e) :=
  fun _ _ => .fail h

/-- First something that adds nothing. -/
theorem after (hx : Adds ctx path 0 x' x) (hf : ∀ r, Adds ctx path a (f' r) (f r)) :
    Adds ctx path a (x' >>= f') (x >>= f) := by
  intro base m
  have h := hx base m
  rw [add_zero] at h
  exact h.bind fun r => hf r base m

/-- After it nothing is added. -/
theorem first (hx : Adds ctx path a x' x) (hf : ∀ r, Adds ctx path 0 (f' r) (f r)) :
    Adds ctx path a (x' >>= f') (x >>= f) := by
  intro base m
  refine (hx base m).bind fun r => ?_
  have h := hf r base (m + a)
  rwa [add_zero] at h

theorem past {p : α → Prop} (hx : Idle ctx x p) (hf : ∀ r, p r → Adds ctx path a (f' r) (f r)) :
    Adds ctx path a (x >>= f') (x >>= f) :=
  fun base m => (hx (base, path, m)).mirrors.bind fun r => .given fun hr => hf r hr base m

theorem ite {c : Prop} [Decidable c] {y' y : Lower α} (hx : c → Adds ctx path a x' x) (hy : ¬ c → Adds ctx path a y' y) :
    Adds ctx path a (if c then x' else y') (if c then x else y) := fun base m =>
  .ite (fun hc => hx hc base m) fun hc => hy hc base m

theorem inRegion (h : Adds ctx path a x' x) : Adds ctx path a (inRegion x') (inRegion x) :=
  .past idle_openRegion fun r _ => h.first fun _ => .past (idle_closeRegion r) fun _ _ => .pure

end Adds

theorem adds_emit {i : Instruction} (h : i.site? = none) : Adds ctx path (.of i.operation?) (emit i) (emit i) := by
  refine fun base m => Meets.mirrors fun s hs => ?_
  have hpicked : (s.draft.add i).picked Instruction.site? = s.draft.picked Instruction.site? := by
    rw [Draft.picked_add, h]
    simp
  refine ⟨hs.bound, hs.arena, hs.counted, hs.tallies, hs.sorted, hs.once, hs.underway, hs.visited,
    hs.grown.trans (Draft.before_add hs.clean i), hpicked.trans hs.calls, ?_⟩
  have hwork : State.work { s with draft := s.draft.add i } = s.work + .of i.operation? := by
    simp [State.work, Draft.picked_add, Work.of]
  show State.work { s with draft := s.draft.add i } = _
  rw [hwork, hs.work, add_assoc]
  rfl

/-- An instruction that counts for nothing. -/
theorem idle_emit {i : Instruction} (h : i.operation? = none) : Idle ctx (emit i) fun _ => True := by
  have hsite : i.site? = none := by
    cases i with
    | call _ => cases h
    | _ => rfl
  rintro ⟨base, path, m⟩
  have hadds : Meets (Laid ctx base path m) (emit i) (fun _ => Laid ctx base path (m + .of i.operation?)) (Warranted ctx) :=
    (adds_emit hsite base m).meets
  have hzero : Work.of i.operation? = 0 := by rw [h]; rfl
  rw [hzero, add_zero] at hadds
  exact hadds.post fun _ _ hs => ⟨trivial, hs⟩

/-- A call refers to the site that was added with it. -/
theorem adds_call (site : CallSite) (a : α) : Adds ctx path ({.call}, {some site.function})
    (do let n ← addSite site; emit (.call n); return a) (do let n ← addSite site; emit (.call n); return a) := by
  refine fun base m => Meets.mirrors fun s hs => ?_
  refine ⟨hs.bound, hs.arena, hs.counted, hs.tallies, hs.sorted, hs.once, hs.underway, hs.visited,
    hs.grown.trans (Draft.before_add hs.clean _), ?_, ?_⟩
  · show (s.draft.add (.call s.sites.size)).picked Instruction.site? = List.range (s.sites.push site).size
    rw [Draft.picked_add, hs.calls, Array.size_push, List.range_succ]
    rfl
  · have hwork : State.work { s with draft := s.draft.add (.call s.sites.size), sites := s.sites.push site } =
        s.work + ({.call}, {some site.function}) := by
      refine Prod.ext ?_ ?_
      · show ((s.draft.add (.call s.sites.size)).picked Instruction.operation? : Multiset Operation) = _
        rw [Draft.picked_add, ← Multiset.coe_add]
        rfl
      · show ((s.sites.push site).toList.map fun site => some site.function : Multiset (Option FunctionId)) = _
        rw [Array.toList_push, List.map_append, ← Multiset.coe_add]
        rfl
    show State.work { s with draft := s.draft.add (.call s.sites.size), sites := s.sites.push site } = _
    rw [hwork, hs.work, add_assoc]
    rfl

/-! ## Entering and leaving a node -/

theorem setProgress_stage (h : id < s.nodes.size) (p : Progress) (i : NodeId) :
    (s.setNode id { s.node id with progress := p }).stage i = if id = i then p.stage else s.stage i := by
  rw [State.stage, setNode_node h]
  split <;> rfl

theorem Laid.enter (h : Laid ctx base path m s) (hid : id < ctx.function.nodes.size) (hn : s.stage id = .untouched)
    (hleft : (s.left id).consumers + 1 ≤ (tallyAt ctx.function.tallies id).total) :
    Laid ctx base (id :: path) m (s.setNode id { s.node id with progress := .underway }) := by
  have hstage := setProgress_stage (h.arena ▸ hid) .underway
  have hnew : id ∉ path := fun hmem => by
    rw [(h.underway id).2 hmem] at hn
    cases hn
  refine ⟨h.bound, by simpa [State.setNode] using h.arena, h.counted, h.tallies, h.sorted,
    List.nodup_cons.2 ⟨hnew, h.once⟩, fun i => ?_, fun i => ?_, h.grown, h.calls, ?_⟩
  · rw [hstage, List.mem_cons]
    split
    · rename_i hi
      simp [hi, Progress.stage]
    · rename_i hi
      rw [h.underway]
      simp [Ne.symm hi]
  · rw [hstage]
    by_cases hi : id = i
    · subst hi
      rw [if_pos rfl, if_neg (by simp [Progress.stage])]
      exact hleft
    · rw [if_neg hi]
      exact h.visited i
  · refine h.work.trans ?_
    congr 1
    refine Finset.sum_congr (Finset.filter_congr fun i _ => ?_) fun _ _ => rfl
    rw [hstage]
    split
    · rename_i hi
      rw [← hi, hn]
      simp [Progress.stage]
    · rfl

/-- A node that is left has done its work. -/
theorem Laid.leave {slot : Option TypedSlot} {region : Region}
    (h : Laid ctx base (id :: path) (m + ctx.function.work ctx.env id) s) (hreach : ctx.function.Reachable id) :
    Laid ctx base path m (s.setNode id { s.node id with progress := .built slot region }) := by
  have hid := h.lt_of_mem List.mem_cons_self
  have hstage := setProgress_stage (h.arena ▸ hid) (.built slot region)
  obtain ⟨hnot, honce⟩ := List.nodup_cons.1 h.once
  have hunderway := (h.underway id).2 List.mem_cons_self
  refine ⟨h.bound, by simpa [State.setNode] using h.arena, h.counted, h.tallies, h.sorted, honce, fun i => ?_,
    fun i => ?_, h.grown, h.calls, ?_⟩
  · rw [hstage]
    split
    · rename_i hi
      rw [← hi]
      simp [Progress.stage, hnot]
    · rename_i hi
      rw [h.underway, List.mem_cons]
      simp [Ne.symm hi]
  · rw [hstage]
    by_cases hi : id = i
    · subst hi
      have hvisited := h.visited id
      rw [hunderway] at hvisited
      rw [if_pos rfl, if_neg (by simp [Progress.stage])]
      exact hvisited
    · rw [if_neg hi]
      exact h.visited i
  · -- The node joins the built ones, and the work it did stands for what it has to do.
    have hmem : id ∈ ctx.function.order.toFinset := List.mem_toFinset.2 (Function.mem_order.2 hreach)
    have hfilter : {p ∈ ctx.function.order.toFinset |
        (s.setNode id { s.node id with progress := .built slot region }).stage p = .built} =
        insert id {p ∈ ctx.function.order.toFinset | s.stage p = .built} := by
      ext i
      rw [Finset.mem_filter, Finset.mem_insert, Finset.mem_filter, hstage]
      by_cases hi : id = i
      · subst hi
        simp [hmem, Progress.stage]
      · simp [hi, Ne.symm hi]
    have hnew : id ∉ {p ∈ ctx.function.order.toFinset | s.stage p = .built} := by
      rw [Finset.mem_filter, hunderway]
      simp
    rw [hfilter, Finset.sum_insert hnew]
    refine h.work.trans ?_
    rw [add_comm m, ← add_assoc, add_comm (Finset.sum _ _)]

end Lowering

end SlotCode
