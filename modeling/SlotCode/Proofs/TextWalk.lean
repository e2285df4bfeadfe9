/-
  SlotCode.Proofs.TextWalk — which texts lowering has met, and in which order.

  Lowering comes to the nodes as the order of the function does: what it does to a node is
  a step of that walk (`Trail.search`). A node that is a text constant and is read is the
  only one that touches the table of texts. It enters its text, unless an equal one is
  there, and emits one instruction with the number of its text; this happens between its
  coming underway and its being finished. So at any moment the table holds the texts of
  the finished nodes without repetition, and the instructions that load a text belong to
  these nodes one by one (`Told`).

  Proved: the steps of lowering that deal with neither nodes nor texts are `Wordless`, one
  lemma for each way of lowering a node says which children it comes to and in which order
  (`Strolls`), and by induction on the room the walk does so (`walk_strolls`).
-/

import SlotCode.Proofs.TypedBooks
import SlotCode.Proofs.WorkWalk

namespace SlotCode

/-! ## Texts that are read -/

/-- The number of the text that an instruction loads. -/
def Instruction.text? : Instruction → Option Nat
  | .text _ index => some index
  | _ => none

theorem passive_text? : Passive Instruction.text? := by
  refine ⟨rfl, fun i hi => ?_⟩
  cases i <;> first | rfl | cases hi

def Expr.text? : Expr → Option String
  | .text value => some value
  | _ => none

theorem Expr.text?_connective {e : Expr} {k : Connective} (h : e.connective? = some k) : e.text? = none := by
  unfold Expr.connective? at h
  split at h <;> cases h <;> rfl

/-- The text of a node that is a text constant. -/
def Function.text? (f : Function) (id : NodeId) : Option String := (f.node? id).bind fun n => n.expr.text?

/-- The text of a node that is a text constant and is read. -/
def Function.textRead? (f : Function) (id : NodeId) : Option String :=
  if (tallyAt f.tallies id).demanded then f.text? id else none

theorem Function.textRead?_eq_none {f : Function} {id : NodeId} {n : Node} (hn : f.node? id = some n)
    (h : n.expr.text? = none) : f.textRead? id = none := by
  rw [textRead?, text?, hn, Option.bind_some, h, ite_self]

/-- The texts that are read by the nodes finished so far, in the order in which they were finished. -/
def Trail.texts (f : Function) (trail : Trail) : List String := trail.finished.reverse.filterMap f.textRead?

theorem Trail.texts_finish (f : Function) (trail : Trail) (id : NodeId) :
    (trail.finish id).texts f = trail.texts f ++ (f.textRead? id).toList := by
  cases h : f.textRead? id <;> simp [Trail.texts, Trail.finish, h]

theorem eraseDups_snoc (xs : List String) (x : String) :
    (xs ++ [x]).eraseDups = if x ∈ xs then xs.eraseDups else xs.eraseDups ++ [x] := by
  rw [List.eraseDups_append]
  by_cases hx : x ∈ xs
  · simp [List.removeAll, hx]
  · simp [List.removeAll, hx, List.eraseDups_cons]

namespace Lowering

variable {α β : Type} {ctx : Context} {trail : Trail} {met loaded : List String} {s t : State} {id c : NodeId}

/-! ## What was met so far -/

/-- The nodes that were come to are those that the trail has entered. The table holds the texts of the finished nodes
    and `met` besides, each once. The instructions load the texts of the finished nodes and `loaded` besides, in order. -/
structure Told (ctx : Context) (trail : Trail) (met loaded : List String) (s : State) : Prop where
  arena : s.nodes.size = ctx.function.nodes.size
  tallies : s.demand.tallies = ctx.function.tallies
  size : trail.entered.size = ctx.function.nodes.size
  entered : ∀ id < ctx.function.nodes.size, trail.has id = true ↔ s.stage id ≠ .untouched
  clean : s.draft.Clean
  texts : s.texts.toList = (trail.texts ctx.function ++ met).eraseDups
  loads : (s.draft.picked Instruction.text?).map (s.texts[·]?) = (trail.texts ctx.function ++ loaded).map some

/-- What `Told` depends on, apart from the draft being clean. -/
def State.telling (s : State) : Nat × (NodeId → Stage) × Array Tally × Array String × List Nat :=
  (s.nodes.size, s.stage, s.demand.tallies, s.texts, s.draft.picked Instruction.text?)

theorem Told.of_telling (h : Told ctx trail met loaded s) (hclean : t.draft.Clean) (e : t.telling = s.telling) :
    Told ctx trail met loaded t := by
  obtain ⟨hsize, hstage, htallies, htexts, hpicked⟩ : t.nodes.size = s.nodes.size ∧ t.stage = s.stage ∧
      t.demand.tallies = s.demand.tallies ∧ t.texts = s.texts ∧
      t.draft.picked Instruction.text? = s.draft.picked Instruction.text? := by simpa [State.telling] using e
  refine ⟨hsize.trans h.arena, htallies.trans h.tallies, h.size, ?_, hclean, ?_, ?_⟩
  · rw [hstage]
    exact h.entered
  · rw [htexts]
    exact h.texts
  · rw [htexts, hpicked]
    exact h.loads

/-! ## Wordless steps -/

/-- The state is told as another is, and its code is clean. -/
def State.ToldAs (s t : State) : Prop := t.draft.Clean ∧ t.telling = s.telling

/-- The step comes to no node and deals with no text; what it gives satisfies `p`. -/
abbrev Wordless (act : Lower α) (p : α → Prop) : Prop := Upholds State.ToldAs Anyhow act p

theorem State.ToldAs.of_tends {r : State} (h : r.ToldAs s) (ht : Tends s t) : r.ToldAs t := by
  obtain ⟨hsize, hstage, hdemand, htable, -, -⟩ : t.nodes.size = s.nodes.size ∧ t.stage = s.stage ∧
      t.demand = s.demand ∧ t.table = s.table ∧ t.sites = s.sites ∧
      t.nextRegion :: t.regions = s.nextRegion :: s.regions := by
    simpa [State.ground] using ht.ground
  refine ⟨ht.clean, Eq.trans ?_ h.2⟩
  rw [State.telling, State.telling, hsize, hstage, hdemand, State.texts, htable, ht.draft.picked _ passive_text?]
  rfl

theorem Routine.wordless {act : Lower α} {p : α → Prop} (h : Routine act p) : Wordless act p :=
  h.upholds (fun _ _ hs => hs.1) (fun _ _ _ ht hs => hs.of_tends ht) fun _ _ => trivial

theorem Checks.wordless {act : Lower α} {p : α → Prop} {E : BuildError → Prop} (h : Checks act p E) : Wordless act p :=
  h.anyhow.upholds

namespace Wordless

theorem told {act : Lower α} {p : α → Prop} (h : Wordless act p) :
    Meets (Told ctx trail met loaded) act (fun a t => p a ∧ Told ctx trail met loaded t) Anyhow :=
  Upholds.coarsen (J := fun _ : Unit => Told ctx trail met loaded) h
    (fun _ s hs => ⟨s, ⟨hs.clean, rfl⟩, fun _ ht => hs.of_telling ht.1 ht.2⟩) (fun _ he => he) ()

theorem fail {e : BuildError} {p : α → Prop} : Wordless (throw e : Lower α) p := Upholds.fail trivial

theorem since {act : Lower α} {p : α → Prop} (h : Wordless act p) (hs : s.draft.Clean) :
    Meets (· = s) act (fun a t => p a ∧ s.ToldAs t) Anyhow := by
  refine (h s).pre fun t ht => ?_
  rw [ht]
  exact ⟨hs, rfl⟩

end Wordless

/-! ### Looking things up -/

theorem wordless_node : Wordless (ctx.node id) fun n => ctx.function.node? id = some n := (checks_node ctx id).wordless

theorem wordless_expectType (type : ValueType) : Wordless (ctx.expectType id type) fun _ => True :=
  (checks_expectType ctx id type).wordless.post fun _ _ => trivial

theorem wordless_lookup (r : Except Missing α) : Wordless (lookup r) fun _ => True := by
  cases r with
  | ok a => exact .pure trivial
  | error m => exact .fail

theorem wordless_arguments (args : List (NodeId × ValueType)) :
    Wordless (args.forM fun (arg, type) => ctx.expectType arg type) fun _ => True :=
  (checks_arguments ctx args).wordless.post fun _ _ => trivial

/-! ### The books of nodes and slots -/

theorem wordless_consume (u : Usage) : Wordless (consume id u) fun _ => True := by
  refine fun _ => .read fun s hs => ?_
  cases hd : s.demand.consume id u with
  | error e => cases e <;> exact .fail trivial
  | ok r =>
    refine fun t ht => ⟨trivial, hs.1, Eq.trans ?_ hs.2⟩
    have htallies := (Demand.consume_spends hd).1
    exact congrArg (fun ts => (s.nodes.size, s.stage, ts, s.texts, s.draft.picked Instruction.text?)) htallies

theorem wordless_demandedSlot (hint : Option TypedSlot) : Wordless (ctx.demandedSlot id hint) fun _ => True :=
  routine_isDemanded.wordless.bind fun _ _ =>
    .ite (fun _ => .map ((routine_resultSlot hint).wordless.post fun _ _ => trivial)) fun _ => .pure trivial

theorem wordless_addSite (site : CallSite) : Wordless (addSite site) fun _ => True := fun _ _ hs => ⟨trivial, hs⟩

/-! ### Code that loads no text -/

theorem telling_redraft {d : Draft} (h : d.picked Instruction.text? = s.draft.picked Instruction.text?) :
    State.telling { s with draft := d } = s.telling :=
  congrArg (fun picked => (s.nodes.size, s.stage, s.demand.tallies, s.texts, picked)) h

theorem wordless_emit {i : Instruction} (h : i.text? = none) : Wordless (emit i) fun _ => True := by
  refine fun _ s hs => ⟨trivial, (Draft.before_add hs.1 i).clean, Eq.trans (telling_redraft ?_) hs.2⟩
  rw [Draft.picked_add, h]
  simp

theorem wordless_closeRegion (r : Region) : Wordless (closeRegion r) fun _ => True := by
  refine fun _ => .read fun s hs => ?_
  cases s.regions with
  | nil => exact .fail trivial
  | cons top rest =>
    dsimp only
    split
    · exact fun t ht => ⟨trivial, hs⟩
    · exact .fail trivial

/-! ### Nodes without children -/

variable {hint target : Option TypedSlot}

theorem wordless_constant {make : Slot → Instruction} (h : ∀ r, (make r).text? = none) :
    Wordless (constant ctx id hint make) fun _ => True := by
  refine (wordless_demandedSlot hint).bind fun r _ => ?_
  cases r with
  | none => exact .pure trivial
  | some r => exact (wordless_emit (h r.slot)).bind fun _ _ => .pure trivial

theorem wordless_nullary (op : NullaryOp) : Wordless (nullary ctx id hint op) fun _ => True := by
  cases op with
  | void => exact .pure trivial
  | null => exact wordless_constant fun _ => rfl
  | unreachable => exact (wordless_emit rfl).bind fun _ _ => .pure trivial

theorem wordless_getStatic (field : FieldRef) : Wordless (getStatic ctx id field hint) fun _ => True := by
  unfold getStatic
  split
  · exact .fail
  · refine (routine_checkField field _).wordless.bind fun _ _ => (wordless_demandedSlot hint).bind fun r _ => ?_
    cases r with
    | none => exact .pure trivial
    | some r => exact (wordless_emit rfl).bind fun _ _ => .pure trivial

/-! ## Coming to the children -/

/-- The step comes to these nodes, in this order. -/
def Strolls (ctx : Context) (ids : List NodeId) (act : Lower α) : Prop := ∀ trail,
  Meets (Told ctx trail [] []) act (fun _ => Told ctx (ids.foldl (Trail.search ctx.function) trail) [] []) Anyhow

theorem Wordless.strolls {act : Lower α} {p : α → Prop} (h : Wordless act p) : Strolls ctx [] act :=
  fun _ => h.told.post fun _ _ ht => ht.2

namespace Strolls

variable {ids : List NodeId} {x y : Lower α} {f : α → Lower β}

theorem pure {a : α} : Strolls ctx [] (Pure.pure a) := Wordless.strolls (p := fun _ => True) (.pure trivial)

theorem fail {e : BuildError} : Strolls ctx ids (throw e : Lower α) := fun _ => .fail trivial

/-- First one node, then the others. -/
theorem cons (hx : Strolls ctx [c] x) (hf : ∀ a, Strolls ctx ids (f a)) : Strolls ctx (c :: ids) (x >>= f) :=
  fun trail => (hx trail).bind fun a => hf a _

/-- First something wordless. -/
theorem past {p : α → Prop} (hx : Wordless x p) (hf : ∀ a, p a → Strolls ctx ids (f a)) : Strolls ctx ids (x >>= f) :=
  fun trail => hx.told.bind fun a => .given fun ha => hf a ha trail

/-- What follows is wordless. -/
theorem first (hx : Strolls ctx ids x) (hf : ∀ a, Wordless (f a) fun _ => True) : Strolls ctx ids (x >>= f) :=
  fun trail => (hx trail).bind fun a => (hf a).told.post fun _ _ ht => ht.2

theorem ite {c : Prop} [Decidable c] (hx : Strolls ctx ids x) (hy : Strolls ctx ids y) :
    Strolls ctx ids (if c then x else y) := by
  split
  · exact hx
  · exact hy

theorem inRegion (h : Strolls ctx ids x) : Strolls ctx ids (inRegion x) :=
  .past (p := fun _ => True) (fun _ _ hs => ⟨trivial, hs⟩) fun r _ =>
    h.first fun _ => (wordless_closeRegion r).bind fun _ _ => .pure trivial

end Strolls

/-- The walk comes to the node it is asked for. -/
structure Walk.Strolls (ctx : Context) (w : Walk) : Prop where
  build : ∀ c u hint offer, Lowering.Strolls ctx [c] (w.build c u hint offer)
  condition : ∀ c, Lowering.Strolls ctx [c] (w.condition c)

theorem strolls_value {w : Walk} {offer : Option Offer} (h : Strolls ctx [c] (w.build c .value hint offer)) :
    Strolls ctx [c] (w.value c hint offer) := by
  refine .past routine_alloc.wordless fun _ _ => h.first fun v => ?_
  obtain ⟨slot, taken⟩ := v
  cases slot with
  | none => exact .fail
  | some x => exact .pure trivial

theorem strolls_branchOn {w : Walk} (h : Strolls ctx [c] (w.build c .value none none)) : Strolls ctx [c] (branchOn w c) :=
  ((strolls_value h).first fun _ => .pure trivial).first fun _ => (routine_drafting (.onSlot _)).wordless.bind fun _ _ =>
    routine_release.wordless.bind fun _ _ => .pure trivial

namespace Walk.Strolls

variable {w : Walk} {first second : NodeId} (hw : w.Strolls ctx)
include hw

theorem effect (c : NodeId) (offer : Option Offer) : Lowering.Strolls ctx [c] (w.effect c offer) :=
  (hw.build c .ignore none offer).first fun _ => .pure trivial

theorem value (c : NodeId) (hint : Option TypedSlot) (offer : Option Offer) : Lowering.Strolls ctx [c] (w.value c hint offer) :=
  strolls_value (hw.build c .value hint offer)

theorem operand (c : NodeId) : Lowering.Strolls ctx [c] (w.operand c) := (hw.value c none none).first fun _ => .pure trivial

theorem operands (args : List NodeId) : Lowering.Strolls ctx args (args.mapM w.operand) := by
  induction args with
  | nil => exact .pure
  | cons a args ih =>
    rw [List.mapM_cons]
    exact .cons (hw.operand a) fun _ => ih.first fun _ => .pure trivial

theorem valueInto (c : NodeId) (target : TypedSlot) (offer : Option Offer) :
    Lowering.Strolls ctx [c] (w.valueInto ctx c target offer) := by
  unfold Walk.valueInto
  split
  · exact hw.effect c offer
  · refine .ite .fail ((hw.value c (some target) offer).first fun r => ?_)
    have done : Wordless (do release c; return r.2) fun _ => True := routine_release.wordless.bind fun _ _ => .pure trivial
    exact .ite (fun _ => (wordless_emit rfl).bind fun _ _ => done) fun _ => done

theorem forward (c : NodeId) (offer : Option Offer) : Lowering.Strolls ctx [c] (w.forward ctx c target offer) := by
  cases target with
  | none => exact hw.effect c offer
  | some x => exact hw.valueInto c x offer

/-! ### Operators and data -/

theorem onOperand (c : NodeId) {make : TypedSlot → Slot → Instruction} (h : ∀ r a, (make r a).text? = none) :
    Lowering.Strolls ctx [c] (onOperand ctx w id c hint make) := by
  refine .past routine_isDemanded.wordless fun _ _ => .ite ?_ ((hw.effect c none).first fun _ => .pure trivial)
  refine (hw.operand c).first fun a => routine_release.wordless.bind fun _ _ => ?_
  exact (routine_resultSlot hint).wordless.bind fun r _ => (wordless_emit (h r a.slot)).bind fun _ _ => .pure trivial

theorem onOperands (first second : NodeId) {make : TypedSlot → Slot → Slot → Instruction}
    (h : ∀ r a b, (make r a b).text? = none) :
    Lowering.Strolls ctx [first, second] (onOperands ctx w id first second hint make) := by
  refine .past routine_isDemanded.wordless fun _ _ => .ite ?_ ?_
  · refine .cons (hw.operand first) fun a => (hw.operand second).first fun b => ?_
    refine routine_release.wordless.bind fun _ _ => routine_release.wordless.bind fun _ _ => ?_
    exact (routine_resultSlot hint).wordless.bind fun r _ => (wordless_emit (h r a.slot b.slot)).bind fun _ _ => .pure trivial
  · exact .cons (hw.effect first none) fun _ => (hw.effect second none).first fun _ => .pure trivial

theorem nullCheck (c : NodeId) : Lowering.Strolls ctx [c] (nullCheck ctx w id c hint) :=
  (hw.operand c).first fun _ => routine_release.wordless.bind fun _ _ => (wordless_demandedSlot hint).bind fun _ _ =>
    (wordless_emit rfl).bind fun _ _ => .pure trivial

theorem unary (op : UnaryOp) (c : NodeId) : Lowering.Strolls ctx [c] (unary ctx w id op c hint) := by
  refine .past (wordless_expectType _) fun _ _ => ?_
  have hmake : ∀ r a, (op.instruction r a).text? = none := fun r a => by cases op <;> rfl
  cases op with
  | nullCheck => exact hw.nullCheck c
  | _ => exact hw.onOperand c fun r a => hmake r.slot a

theorem setVar (index : VarId) (c : NodeId) : Lowering.Strolls ctx [c] (setVar ctx w id index c) :=
  .past (routine_varSlot index).wordless fun target _ => (hw.valueInto c target none).first fun _ => .pure trivial

theorem getField (field : FieldRef) (c : NodeId) : Lowering.Strolls ctx [c] (getField ctx w id field c hint) := by
  refine .past (wordless_lookup _) fun r _ => ?_
  cases r with
  | none => exact .fail
  | some r =>
    refine .past (routine_checkField field r.2).wordless fun _ _ => .past (wordless_expectType _) fun _ _ => ?_
    exact hw.onOperand c fun _ _ => rfl

theorem arrayElement (array index : NodeId) : Lowering.Strolls ctx [array, index] (arrayElement ctx w id array index hint) :=
  .past (wordless_expectType _) fun _ _ => .past (wordless_expectType _) fun _ _ => hw.onOperands array index fun _ _ _ => rfl

theorem cast (c : NodeId) (className : String) : Lowering.Strolls ctx [c] (cast ctx w id c className hint) :=
  .past (routine_classId className).wordless fun _ _ => .past (wordless_expectType _) fun _ _ => hw.onOperand c fun _ _ => rfl

theorem instanceOf (c : NodeId) (className : String) : Lowering.Strolls ctx [c] (instanceOf ctx w id c className hint) :=
  .past (routine_classId className).wordless fun _ _ => .past (wordless_expectType _) fun _ _ => hw.onOperand c fun _ _ => rfl

theorem setArrayElement (array index value : NodeId) :
    Lowering.Strolls ctx [array, index, value] (setArrayElement ctx w array index value) := by
  refine .past (wordless_expectType _) fun _ _ => .past (wordless_expectType _) fun _ _ => ?_
  refine .cons (hw.operand array) fun _ => .cons (hw.operand index) fun _ => (hw.operand value).first fun _ => ?_
  refine routine_release.wordless.bind fun _ _ => routine_release.wordless.bind fun _ _ => ?_
  exact routine_release.wordless.bind fun _ _ => (wordless_emit rfl).bind fun _ _ => .pure trivial

theorem upperBound (index : TypedSlot) (lower : Bool) (c : NodeId) :
    Lowering.Strolls ctx [c] (upperBound ctx w index lower c) := by
  refine .past (wordless_expectType _) fun _ _ => (hw.operand c).first fun a => ?_
  have rest : Wordless (do emit (.upperBound index.slot a.slot); release c) fun _ => True :=
    (wordless_emit rfl).bind fun _ _ => routine_release.wordless
  exact .ite (fun _ => (wordless_emit rfl).bind fun _ _ => rest) fun _ => rest

theorem boundsCheck (index : NodeId) (array : Option NodeId) (lower : Bool) :
    Lowering.Strolls ctx (index :: array.toList) (boundsCheck ctx w id index array lower hint) := by
  refine .past (wordless_expectType _) fun _ _ => .cons (hw.operand index) fun i => ?_
  have result : Wordless (checkedIndex ctx id index hint i) fun _ => True := by
    refine routine_release.wordless.bind fun _ _ => (wordless_demandedSlot hint).bind fun r _ => ?_
    cases r with
    | none => exact .pure trivial
    | some r => exact .ite (fun _ => (wordless_emit rfl).bind fun _ _ => .pure trivial) fun _ => .pure trivial
  cases array with
  | some array => exact (hw.upperBound i lower array).first fun _ => result
  | none => exact Wordless.strolls (.ite (fun _ => (wordless_emit rfl).bind fun _ _ => result) fun _ => result)

theorem call (method : MethodRef) (kind : CallKind) (args : List NodeId) :
    Lowering.Strolls ctx args (call ctx w id method kind args hint) := by
  unfold Lowering.call
  split
  · exact .fail
  · refine .past (wordless_lookup _) fun native _ => .past (routine_checkCall method kind native _).wordless fun _ _ => ?_
    refine .past (wordless_arguments _) fun _ _ => (hw.operands args).first fun _ => ?_
    refine (routine_releaseAll _).wordless.bind fun _ _ => (wordless_demandedSlot hint).bind fun _ _ => ?_
    exact (wordless_addSite _).bind fun _ _ => (wordless_emit rfl).bind fun _ _ => .pure trivial

/-! ### Conditions -/

theorem compose (k : Connective) : Lowering.Strolls ctx k.operands (compose w k) := by
  cases k with
  | not operand => exact (hw.condition operand).first fun _ => .pure trivial
  | shortCircuit decisive first second =>
    refine .cons (hw.condition first) fun b => .past (routine_drafting (.defer _ _)).wordless fun _ _ => ?_
    exact (Lowering.Strolls.inRegion (hw.condition second)).first fun _ => .pure trivial

theorem logicalValue (k : Connective) : Lowering.Strolls ctx k.operands (logicalValue ctx w id k hint) := by
  refine (hw.compose k).first fun b => routine_isDemanded.wordless.bind fun _ _ => .ite (fun _ => ?_) fun _ => ?_
  · refine (routine_drafting (.defer _ _)).wordless.bind fun _ _ => (routine_resultSlot hint).wordless.bind fun _ _ => ?_
    refine (wordless_emit rfl).bind fun _ _ => routine_gotoPending.wordless.bind fun _ _ => ?_
    refine routine_label.wordless.bind fun _ _ => (routine_drafting (.patchAll _ _)).wordless.bind fun _ _ => ?_
    refine (wordless_emit rfl).bind fun _ _ => ?_
    exact routine_label.wordless.bind fun _ _ => (routine_drafting (.patch _ _)).wordless.bind fun _ _ => .pure trivial
  · exact routine_label.wordless.bind fun _ _ => (routine_drafting (.resolve _ _ _)).wordless.bind fun _ _ => .pure trivial

theorem binary (op : BinaryOp) (first second : NodeId) :
    Lowering.Strolls ctx [first, second] (binary ctx w id op first second hint) := by
  unfold Lowering.binary
  cases hform : op.form with
  | instruction make =>
    have hmake : ∀ r a b, (make r a b).text? = none := fun r a b => by cases op <;> cases hform <;> rfl
    refine .past (wordless_expectType _) fun _ _ => .past (wordless_expectType _) fun _ _ => ?_
    exact hw.onOperands first second fun r a b => hmake r.slot a b
  | shortCircuit decisive => exact hw.logicalValue (.shortCircuit decisive first second)

/-! ### Control -/

theorem sequence (first second : NodeId) (offer : Option Offer) :
    Lowering.Strolls ctx [first, second] (sequence ctx w id first second hint offer) :=
  .cons (hw.effect first none) fun _ => .past (wordless_demandedSlot hint) fun _ _ =>
    (hw.forward second offer).first fun _ => .pure trivial

theorem arm (c : NodeId) (offer : Option Offer) : Lowering.Strolls ctx [c] (arm ctx w c target offer) :=
  .inRegion (hw.forward c offer)

theorem block (name : BlockId) (c : NodeId) : Lowering.Strolls ctx [c] (block ctx w id name c hint) :=
  .past (wordless_demandedSlot hint) fun _ _ => .past (Routine.update fun _ hs => .frames hs _ _).wordless fun _ _ =>
    (hw.arm c none).first fun _ => routine_closeBlock.wordless.bind fun _ _ => .pure trivial

theorem loop (name : LoopId) (preheader body : NodeId) :
    Lowering.Strolls ctx [preheader, body] (loop ctx w name preheader body) := by
  refine .cons (hw.effect preheader none) fun _ => .past routine_label.wordless fun _ _ => ?_
  have hbody := Lowering.Strolls.inRegion (hw.effect body none)
  have done : Wordless (do closeLoop; return {} : Lower Visited) fun _ => True :=
    routine_closeLoop.wordless.bind fun _ _ => .pure trivial
  refine .past (Routine.update fun _ hs => .frames hs _ _).wordless fun _ _ => hbody.first fun _ => ?_
  refine wordless_node.bind fun n _ => ?_
  exact .ite (fun _ => (wordless_emit rfl).bind fun _ _ => done) fun _ => done

theorem elseOnly (b : Branch) (position : Nat) (c : NodeId) :
    Lowering.Strolls ctx [c] (elseOnly ctx w b position c target) :=
  (hw.arm c _).first fun _ =>
    .ite (fun _ => routine_label.wordless.bind fun _ _ => (routine_drafting (.resolve _ _ _)).wordless) fun _ => .pure trivial

theorem bothArms (b : Branch) (thenArm c : NodeId) : Lowering.Strolls ctx [c] (bothArms ctx w b thenArm c target) := by
  refine .past wordless_node fun n _ => ?_
  have rest : ∀ skip : Option Patch, Lowering.Strolls ctx [c] (secondArm ctx w b c target skip) := by
    intro skip
    refine .past routine_label.wordless fun _ _ => .past (routine_drafting (.resolve _ _ _)).wordless fun _ _ => ?_
    refine (hw.arm c none).first fun _ => ?_
    cases skip with
    | none => exact .pure trivial
    | some jump => exact routine_label.wordless.bind fun _ _ => (routine_drafting (.patch _ _)).wordless
  exact .ite (.past (p := fun _ => True) (.map routine_gotoPending.wordless) fun skip _ => rest skip)
    (.past (p := fun _ => True) (.pure trivial) fun skip _ => rest skip)

theorem conditional (condition thenArm elseArm : NodeId) :
    Lowering.Strolls ctx [condition, thenArm, elseArm] (conditional ctx w id condition thenArm elseArm hint) := by
  refine .past (wordless_demandedSlot hint) fun target _ => .cons (hw.condition condition) fun b => ?_
  refine .past routine_label.wordless fun position _ => .cons (hw.arm thenArm _) fun taken => ?_
  refine .ite ((hw.arm elseArm none).first fun _ => .pure trivial) (.past routine_label.wordless fun here _ => ?_)
  exact .ite ((hw.elseOnly b position elseArm).first fun _ => .pure trivial)
    ((hw.bothArms b thenArm elseArm).first fun _ => .pure trivial)

end Walk.Strolls

/-! ## Texts -/

/-- Texts that are entered at the end of the table leave the ones that were loaded where they are. -/
theorem Told.loads_push (h : Told ctx trail met loaded s) (value : String) :
    (s.draft.picked Instruction.text?).map ((s.texts.push value)[·]?) = (trail.texts ctx.function ++ loaded).map some := by
  rw [← h.loads]
  refine List.map_congr_left fun index hindex => ?_
  obtain ⟨loadedText, -, hat⟩ := List.mem_map.1 (h.loads ▸ List.mem_map_of_mem hindex)
  rw [← hat]
  exact getElem?_push_of_some hat.symm

/-- A text is met, and has a number. -/
theorem told_intern (value : String) : Meets (Told ctx trail [] []) (intern value)
    (fun index t => (trail.texts ctx.function ++ [value]).eraseDups[index]? = some value ∧ Told ctx trail [value] [] t)
    Anyhow := by
  intro s hs
  show (trail.texts ctx.function ++ [value]).eraseDups[(s.table.intern value).1]? = some value ∧
    Told ctx trail [value] [] { s with table := (s.table.intern value).2 }
  have htexts : s.texts.toList = (trail.texts ctx.function).eraseDups := by simpa using hs.texts
  have hmem : value ∈ s.texts ↔ value ∈ trail.texts ctx.function := by
    rw [← Array.mem_toList_iff, htexts, List.mem_eraseDups]
  rcases s.table.intern_cases value with ⟨index, hat, heq⟩ | ⟨hnot, hindex, hpush⟩
  · have hsame : s.texts.toList = (trail.texts ctx.function ++ [value]).eraseDups := by
      rw [eraseDups_snoc, if_pos (hmem.1 (Array.mem_of_getElem? hat)), htexts]
    rw [heq, ← hsame, Array.getElem?_toList]
    exact ⟨hat, hs.arena, hs.tallies, hs.size, hs.entered, hs.clean, hsame, hs.loads⟩
  · have hnew : value ∉ trail.texts ctx.function := fun hold => hnot (hmem.2 hold)
    have hgrown : (s.texts.push value).toList = (trail.texts ctx.function ++ [value]).eraseDups := by
      rw [eraseDups_snoc, if_neg hnew, Array.toList_push, htexts]
    have hnow : State.texts { s with table := (s.table.intern value).2 } = s.texts.push value := hpush
    rw [hindex, ← hgrown, Array.getElem?_toList]
    refine ⟨Array.getElem?_push_size, hs.arena, hs.tallies, hs.size, hs.entered, hs.clean, hnow ▸ hgrown, ?_⟩
    rw [hnow]
    exact hs.loads_push value

/-- A text that was met is loaded. -/
theorem told_load {value : String} {index : Nat} (r : Slot)
    (h : (trail.texts ctx.function ++ [value]).eraseDups[index]? = some value) :
    Meets (Told ctx trail [value] []) (emit (.text r index)) (fun _ => Told ctx trail [value] [value]) Anyhow := by
  intro s hs
  have hat : s.texts[index]? = some value := by rw [← Array.getElem?_toList, hs.texts, h]
  refine ⟨hs.arena, hs.tallies, hs.size, hs.entered, (Draft.before_add hs.clean _).clean, hs.texts, ?_⟩
  show ((s.draft.add (.text r index)).picked Instruction.text?).map (s.texts[·]?) = _
  have hloads := hs.loads
  rw [List.append_nil] at hloads
  rw [Draft.picked_add, List.map_append, hloads, List.map_append]
  simp [Instruction.text?, hat]

theorem told_isDemanded : Meets (Told ctx trail met loaded) (isDemanded id)
    (fun b t => b = (tallyAt ctx.function.tallies id).demanded ∧ Told ctx trail met loaded t) Anyhow := by
  intro s hs
  refine ⟨?_, hs⟩
  show (s.demand.tallies.getD id {}).demanded = _
  rw [hs.tallies]
  rfl

/-- A slot is found for the value exactly if it is read. -/
theorem told_demandedSlot (hint : Option TypedSlot) : Meets (Told ctx trail met loaded) (ctx.demandedSlot id hint)
    (fun r t => r.isSome = (tallyAt ctx.function.tallies id).demanded ∧ Told ctx trail met loaded t) Anyhow := by
  refine told_isDemanded.bind fun b => .given fun hb => ?_
  rw [← hb]
  cases b with
  | false => exact .pure fun _ ht => ⟨rfl, ht⟩
  | true => exact .map ((routine_resultSlot hint).wordless.told.post fun _ _ ht => ⟨rfl, ht.2⟩)

/-- A text constant that is read enters its text and loads it; one that is not read does nothing. -/
theorem told_text {value : String} {n : Node} (hn : ctx.function.node? id = some n) (hvalue : n.expr = .text value) :
    Meets (Told ctx trail [] []) (text ctx id value hint)
      (fun _ => Told ctx trail (ctx.function.textRead? id).toList (ctx.function.textRead? id).toList) Anyhow := by
  refine told_isDemanded.bind fun b => .given fun hb => ?_
  have hread : ctx.function.textRead? id = if b then some value else none := by
    rw [Function.textRead?, Function.text?, hn, hb, Option.bind_some, hvalue]
    rfl
  rw [hread]
  cases hdemanded : b with
  | false => exact .pure fun _ ht => ht
  | true =>
    refine (told_intern value).bind fun index => .given fun hindex => ?_
    refine (told_demandedSlot hint).bind fun r => .given fun hr => ?_
    rw [← hb, hdemanded] at hr
    cases r with
    | none => cases hr
    | some r => exact (told_load r.slot hindex).bind fun _ => .pure fun _ ht => ht

/-! ## One node -/

/-- Lowering a node comes to its children in order, and deals with its own text. -/
theorem Walk.Strolls.visit {w : Walk} (hw : w.Strolls ctx) (offer : Option Offer) (trail : Trail) :
    Meets (Told ctx trail [] []) (visit ctx w id hint offer)
      (fun _ => Told ctx ((ctx.function.children id).foldl (Trail.search ctx.function) trail)
        (ctx.function.textRead? id).toList (ctx.function.textRead? id).toList) Anyhow := by
  refine wordless_node.told.bind fun n => .given fun hn => ?_
  have hchildren : ctx.function.children id = n.expr.children := by rw [Function.children, hn]
  rw [hchildren]
  obtain ⟨e, type⟩ := n
  -- All but a text constant have no text of their own.
  have plain : ∀ {act : Lower Visited}, e.text? = none → Lowering.Strolls ctx e.children act →
      Meets (Told ctx trail [] []) act (fun _ => Told ctx (e.children.foldl (Trail.search ctx.function) trail)
        (ctx.function.textRead? id).toList (ctx.function.textRead? id).toList) Anyhow := by
    intro act he hact
    rw [Function.textRead?_eq_none hn he]
    exact hact trail
  cases e with
  | sequence first second => exact plain rfl (hw.sequence first second offer)
  | block name body => exact plain rfl (hw.block name body)
  | exitBlock name => exact plain rfl (routine_exitBlock name offer).wordless.strolls
  | loop name preheader body => exact plain rfl (hw.loop name preheader body)
  | exitLoop name => exact plain rfl (routine_exitLoop name offer).wordless.strolls
  | continueLoop name => exact plain rfl (routine_continueLoop name offer).wordless.strolls
  | conditional condition thenArm elseArm => exact plain rfl (hw.conditional condition thenArm elseArm)
  | nullary op => exact plain rfl (wordless_nullary op).strolls
  | unary op operand => exact plain rfl (hw.unary op operand)
  | binary op first second => exact plain rfl (hw.binary op first second)
  | const value => exact plain rfl (wordless_constant fun _ => rfl).strolls
  | text value => exact told_text hn rfl
  | param index => exact plain rfl (routine_param index).wordless.strolls
  | getVar index => exact plain rfl (routine_getVar index).wordless.strolls
  | setVar index value => exact plain rfl (hw.setVar index value)
  | getField field object => exact plain rfl (hw.getField field object)
  | getStatic field => exact plain rfl (wordless_getStatic field).strolls
  | call method kind args =>
    have hargs : (Expr.call method kind args).children = args := by simp [Expr.children, Expr.edges, Function.comp_def]
    refine plain rfl ?_
    rw [hargs]
    exact hw.call method kind args
  | arrayElement array index => exact plain rfl (hw.arrayElement array index)
  | setArrayElement array index value => exact plain rfl (hw.setArrayElement array index value)
  | cast value className => exact plain rfl (hw.cast value className)
  | instanceOf value className => exact plain rfl (hw.instanceOf value className)
  | boundsCheck index array lower =>
    have hoperands : (Expr.boundsCheck index array lower).children = index :: array.toList := by
      cases array <;> rfl
    refine plain rfl ?_
    rw [hoperands]
    exact hw.boundsCheck index array lower
  | _ => exact .fail trivial

/-! ## The walk -/

theorem Told.enter (h : Told ctx trail [] [] s) (hid : id < ctx.function.nodes.size) :
    Told ctx (trail.mark id) [] [] (s.setNode id { s.node id with progress := .underway }) := by
  refine ⟨by simpa [State.setNode] using h.arena, h.tallies, (trail.size_mark id).trans h.size, fun i hi => ?_, h.clean,
    h.texts, h.loads⟩
  rw [setProgress_stage (h.arena ▸ hid) .underway, Trail.has_mark, h.entered i hi, h.size]
  by_cases he : id = i
  · simp [he, hi, Progress.stage]
  · simp [he, Ne.symm he]

/-- With the node its text is finished. -/
theorem Told.leave {slot : Option TypedSlot} {region : Region} (hid : id < ctx.function.nodes.size)
    (hentered : trail.has id = true)
    (h : Told ctx trail (ctx.function.textRead? id).toList (ctx.function.textRead? id).toList s) :
    Told ctx (trail.finish id) [] [] (s.setNode id { s.node id with progress := .built slot region }) := by
  refine ⟨by simpa [State.setNode] using h.arena, h.tallies, h.size, fun i hi => ?_, h.clean, ?_, ?_⟩
  · have hhas : (trail.finish id).has i = trail.has i := rfl
    rw [setProgress_stage (h.arena ▸ hid) (.built slot region), hhas]
    by_cases he : id = i
    · subst he
      simpa [Progress.stage] using hentered
    · simpa [he] using h.entered i hi
  · rw [Trail.texts_finish, List.append_nil]
    exact h.texts
  · rw [Trail.texts_finish, List.append_nil]
    exact h.loads

theorem strolls_entering {slot : α → Option TypedSlot} {act : Lower α} (depth : Nat) (hs : Told ctx trail [] [] s)
    (hid : id < ctx.function.nodes.size) (hnew : s.stage id = .untouched)
    (h : ∀ trail, Meets (Told ctx trail [] []) act
      (fun _ => Told ctx ((ctx.function.children id).foldl (Trail.search ctx.function) trail)
        (ctx.function.textRead? id).toList (ctx.function.textRead? id).toList) Anyhow) :
    Meets (· = s) (entering ctx depth id slot act) (fun _ => Told ctx (trail.search ctx.function id) [] []) Anyhow := by
  have hnot : trail.has id = false := by
    cases hhas : trail.has id with
    | false => rfl
    | true => exact absurd hnew ((hs.entered id hid).1 hhas)
  rw [Trail.search_of_not_has hs.size hnot]
  have hsize : (trail.mark id).entered.size = ctx.function.nodes.size := (trail.size_mark id).trans hs.size
  have hmarked : (trail.mark id).has id = true := (Trail.has_mark trail id id).2 (.inr ⟨rfl, hs.size ▸ hid⟩)
  have hentered := Trail.has_searches (ctx.function.children id) _ hsize hmarked
  unfold entering
  split
  · exact .fail trivial
  · refine .step rfl (((h (trail.mark id)).pre fun t ht => ?_).bind fun a => ?_)
    · rw [ht]
      exact hs.enter hid
    refine wordless_node.told.bind fun n => .given fun _ => ?_
    refine (routine_regionOf n.expr).wordless.told.bind fun region => .given fun _ => ?_
    refine .each fun t ht => .step rfl (.pure fun t' ht' => ?_)
    rw [ht']
    exact ht.leave hid hentered

/-- Outside the arena there is nothing to lower. -/
theorem visit_outside {w : Walk} {P : State → Prop} {Q : Visited → State → Prop} (hid : ¬ id < ctx.function.nodes.size)
    (offer : Option Offer) : Meets P (visit ctx w id hint offer) Q Anyhow := by
  have hnone : ctx.function.node? id = none := Array.getElem?_eq_none (Nat.le_of_not_lt hid)
  unfold visit Context.node
  rw [hnone]
  exact .fail trivial

namespace Walk.Strolls

variable {w : Walk} (hw : w.Strolls ctx)
include hw

theorem build_strolls (depth : Nat) (id : NodeId) (u : Usage) (hint : Option TypedSlot) (offer : Option Offer) :
    Lowering.Strolls ctx [id] (Lowering.build ctx depth w id u hint offer) := by
  refine fun trail => .each fun s hs => .step rfl ?_
  cases hp : (s.node id).progress with
  | underway => exact .fail trivial
  | built slot region =>
    have htouched : (s.node id).progress ≠ .untouched := by simp [hp]
    have hid : id < ctx.function.nodes.size := hs.arena ▸ lt_of_touched htouched
    have hhas : trail.has id = true := (hs.entered id hid).2 (by simp [State.stage, hp, Progress.stage])
    have hseen : [id].foldl (Trail.search ctx.function) trail = trail := Trail.search_of_has hhas
    have hvisit : Wordless (do consume id u; checkSlot id u { slot }) fun _ => True :=
      (wordless_consume u).bind fun _ _ => (routine_checkSlot u _).wordless
    rw [hseen]
    refine .step rfl ?_
    split
    · exact .fail trivial
    · exact (hvisit.told.post fun _ _ ht => ht.2).pre fun t ht => ht ▸ hs
  | untouched =>
    have hnew : s.stage id = .untouched := by rw [State.stage, hp]; rfl
    refine ((wordless_consume u).since hs.clean).bind fun _ => .each fun t ht => ?_
    have htold : Told ctx trail [] [] t := hs.of_telling ht.2.1 ht.2.2
    have hstage : t.stage = s.stage := congrArg (·.2.1) ht.2.2
    refine Meets.bind ?_ fun v => (routine_checkSlot u v).wordless.told.post fun _ _ ht => ht.2
    by_cases hid : id < ctx.function.nodes.size
    · exact strolls_entering depth htold hid (hstage ▸ hnew) fun trail => hw.visit offer trail
    · unfold entering
      split
      · exact .fail trivial
      · exact .step rfl ((visit_outside hid offer (Q := fun _ _ => False)).bind fun _ _ hnever => hnever.elim)

theorem condition_strolls (depth : Nat) (id : NodeId) : Lowering.Strolls ctx [id] (Lowering.condition ctx depth w id) := by
  refine .past (wordless_expectType _) fun _ _ trail => .each fun s hs => ?_
  refine (composable_untouched fun _ => trivial).bind fun k => ?_
  cases k with
  | none =>
    have hbranch : Lowering.Strolls ctx [id] (branchOn { w with build := Lowering.build ctx depth w } id) :=
      strolls_branchOn (hw.build_strolls depth id .value none none)
    exact (hbranch trail).pre fun t ht => ht.1 ▸ hs
  | some k =>
    refine .each fun t ht => ?_
    obtain ⟨hnew, n, hn, hk⟩ := ht.2 k rfl
    have hid : id < ctx.function.nodes.size := (Array.getElem?_eq_some_iff.1 hn).1
    have hchildren : ctx.function.children id = k.operands := by rw [Function.children, hn, Expr.operands_connective hk]
    rw [ht.1]
    refine ((wordless_consume .value).since hs.clean).bind fun _ => .each fun u hu => ?_
    have hstage : u.stage = s.stage := congrArg (·.2.1) hu.2.2
    refine strolls_entering depth (hs.of_telling hu.2.1 hu.2.2) hid (hstage ▸ hnew) fun trail => ?_
    rw [hchildren, Function.textRead?_eq_none hn (Expr.text?_connective hk)]
    exact hw.compose k trail

end Walk.Strolls

/-- Every level of the walk comes to the nodes as the order does. -/
theorem walk_strolls (room : Nat) : ∀ depth, (walk ctx room depth).Strolls ctx := by
  induction room with
  | zero => exact fun _ => ⟨fun _ _ _ _ => .fail, fun _ => .fail⟩
  | succ room ih =>
    intro depth
    have hinner := ih (depth + 1)
    exact ⟨fun c u hint offer => hinner.build_strolls depth c u hint offer, fun c => hinner.condition_strolls depth c⟩

end Lowering

end SlotCode
