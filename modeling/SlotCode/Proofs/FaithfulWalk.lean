/-
  SlotCode.Proofs.FaithfulWalk — the walk lowers every node as it is evaluated.

  The modules before say what one node promises when its children keep theirs. Here the
  nodes are put together: a node is entered when its only consumer comes, is underway
  while its children are lowered, and is built afterwards. Nesting is bounded on both sides
  by the same room, so the induction is on that.

  Main statement: `walk_faithful`.
-/

import SlotCode.Lowering.Compile
import SlotCode.Proofs.FaithfulAccess
import SlotCode.Proofs.FaithfulArms
import SlotCode.Proofs.FaithfulCalls

namespace SlotCode

open Lowering Arith

variable {S : Scene} {open_ : List (BlockId × Bool)} {s₀ s t u : State} {id : NodeId} {hint : Option TypedSlot}
  {offer : Option Offer} {demanded : Bool} {w : Walk} {ev : ChildEval} {visited : Visited} {n : Node} {b : Branch}

/-- The code of one node, whatever its expression. -/
theorem Entry.visit (hS : S.Valid) (hw : Faithful S w ev) (h : Entry S s₀ s id demanded open_ hint) (ho : OfferFits s offer)
    (hn : S.ctx.function.node? id = some n) (hr : Lowering.visit S.ctx w id hint offer s = .ok (visited, t)) :
    Visits S ev n id demanded open_ hint offer s₀ s t visited := by
  obtain ⟨n', s₁, hnode, hr⟩ := bind_ok hr
  obtain ⟨hn', rfl⟩ := node_ok hnode
  obtain rfl := Option.some.inj (hn.symm.trans hn')
  obtain ⟨e, type⟩ := n
  have hb := hw.toBuilds
  cases e with
  | sequence first second => exact h.sequence hS hb ho hn hr
  | block name body => exact h.block hS hb hn hr
  | exitBlock name => exact h.exitBlock hS hn hr
  | loop name preheader body => exact h.loop hS hb hn hr
  | exitLoop name => exact h.exitLoop hS hn hr
  | continueLoop name => exact h.continueLoop hS hn hr
  | conditional condition thenArm elseArm => exact h.conditional hS hw hn hr
  | nullary op => exact h.nullary hS hn hr
  | unary op a => exact h.unary hS hb hn hr
  | binary op a c => exact h.binary hS hw hn hr
  | const value => exact h.const hS hn hr
  | text value => exact h.text hS hn hr
  | param index => exact h.param hS hn hr
  | getVar index => exact h.getVar hS hn hr
  | setVar index value => exact h.setVar hS hb hn hr
  | getField field object => exact h.getField hS hb hn hr
  | getStatic field => exact h.getStatic hS hn hr
  | call method kind args => exact h.call hS hb hn hr
  | arrayElement array index => exact h.arrayElement hS hb hn hr
  | setArrayElement array index value => exact h.setArrayElement hS hb hn hr
  | cast value className => exact h.cast hS hb hn hr
  | instanceOf value className => exact h.instanceOf hS hb hn hr
  | boundsCheck index array lower => exact h.boundsCheck hS hb hn hr
  | _ => cases hr

/-! ## Entering a node -/

/-- The state with a node marked. -/
def Lowering.State.marked (s : State) (id : NodeId) (p : Progress) : State := s.setNode id { s.node id with progress := p }

theorem Lowering.regionOf_ok {e : Expr} {region : Region} (hr : regionOf e s = .ok (region, t)) : t = s := by
  unfold regionOf at hr
  split at hr <;> cases hr <;> rfl

theorem Lowering.entering_ok {α : Type} {ctx : Context} {depth : Nat} {slot : α → Option TypedSlot} {act : Lower α} {a : α}
    (hr : entering ctx depth id slot act s = .ok (a, t)) :
    ∃ u region, act (s.marked id .underway) = .ok (a, u) ∧ t = u.marked id (.built (slot a) region) := by
  unfold entering at hr
  split at hr
  · cases hr
  · obtain ⟨_, s₁, hunderway, hr₁⟩ := bind_ok hr
    cases hunderway
    obtain ⟨a', u, hact, hr₂⟩ := bind_ok hr₁
    obtain ⟨n, _, hnode, hr₃⟩ := bind_ok hr₂
    obtain ⟨-, rfl⟩ := node_ok hnode
    obtain ⟨region, _, hregion, hr₄⟩ := bind_ok hr₃
    obtain rfl := regionOf_ok hregion
    obtain ⟨_, _, hbuilt, hr₅⟩ := bind_ok hr₄
    cases hbuilt
    cases hr₅
    exact ⟨_, region, hact, rfl⟩

theorem Lowering.Along.marked {ctx : Context} (h : Along ctx s u) (h₀ : (s.node id).progress = .untouched)
    (hu : (u.node id).progress ≠ .untouched) (p : Progress) : Along ctx s (u.marked id p) :=
  h.setNode h₀ (.inr (h.books.spent id hu))

section Consumed

variable {s₁ : State}

theorem Lowering.Consumed.underway {ctx : Context} (h : Consumed ctx s s₁ id) : Along ctx s (s₁.marked id .underway) :=
  h.along.setNode h.untouched (.inr h.spent)

theorem Lowering.Consumed.entry (h : Consumed S.ctx s s₁ id) (hst : S.ctx.function.Stands id demanded open_)
    (hh : HintFits S.ctx s hint) : Entry S s (s₁.marked id .underway) id demanded open_ hint := by
  refine ⟨h.underway, h.untouched, ?_, hst, fun x hx => ⟨h.underway.since.has (hh x hx).1, (hh x hx).2⟩⟩
  rw [State.marked, node_setNode, if_pos ⟨rfl, h.lt⟩]

/-- A node that was entered and lowered is built. -/
theorem Lowered.built {e : Eval (Option Operand)} {region : Region} (hc : Consumed S.ctx s s₁ id)
    (h : Lowered S e id demanded open_ hint offer s (s₁.marked id .underway) u visited) :
    Built S e id demanded open_ hint offer s (u.marked id (.built visited.slot region)) visited := by
  have hgrows : Grows u (u.marked id (.built visited.slot region)) := .setNode h.along.books.clean id _
  have hlt : id < u.nodes.size := lt_of_touched h.touched
  have hnode : (u.marked id (.built visited.slot region)).node id =
      { u.node id with progress := .built visited.slot region } := by
    rw [State.marked, node_setNode, if_pos ⟨rfl, hlt⟩]
  have hlabel : (s₁.marked id .underway).draft.label = s.draft.label := congrArg Draft.label hc.draft
  refine ⟨⟨h.along.marked hc.untouched h.touched _, hc.underway.since.toGrows.trans (h.grows.trans hgrows), ?_, h.slot,
    fun y hy => ?_, fun ht => ?_, fun hnot _ _ _ _ hready => ?_⟩, hc.untouched, region, ?_⟩
  · rw [hnode]
    exact Progress.noConfusion
  · have hplaced := h.placed y hy
    refine ⟨hplaced.kind, hplaced.has, hplaced.loose.imp_right fun hb => ?_⟩
    rw [hnode]
    exact hb
  · obtain ⟨o, hoffer, htaken⟩ := h.taken ht
    exact ⟨o, hoffer, htaken.kind, hlabel ▸ htaken.start, htaken.stop, fun g hf => htaken.leaves g (hgrows.final hf)⟩
  · have hrun := h.runs hnot ⟨hgrows.final hready.final, hready.scope, hready.live, hready.agrees, hready.pc.trans hlabel.symm⟩
    rw [hlabel] at hrun
    exact hrun
  · rw [hnode]

end Consumed

/-! ## One level of the walk -/

theorem Lowering.checkSlot_ok {usage : Usage} {v : Visited} (hr : checkSlot id usage visited s = .ok (v, t)) :
    v = visited ∧ t = s := by
  unfold checkSlot at hr
  split at hr
  · cases hr
  · cases hr
    exact ⟨rfl, rfl⟩

/-- Evaluation of a node with room for it. -/
theorem Reading.eval_succ {r : Reading} {fuel room : Nat} (hn : r.function.node? id = some n) :
    r.eval fuel (room + 1) demanded id = r.node (r.eval fuel room) demanded fuel n := by
  rw [Reading.eval, hn]
  exact pure_bind n _

theorem Faithful.building {depth room : Nat} (hS : S.Valid) (hw : Faithful S w (S.reading.eval S.fuel room)) {usage : Usage}
    (hst : S.ctx.function.Stands id demanded open_) (hb : Books S.ctx s) (hh : HintFits S.ctx s hint)
    (ho : OfferFits s offer) (hr : Lowering.build S.ctx depth w id usage hint offer s = .ok (visited, t)) :
    Built S (S.reading.eval S.fuel (room + 1) demanded id) id demanded open_ hint offer s t visited := by
  obtain ⟨_, _, hget, hr₁⟩ := bind_ok hr
  cases hget
  cases hp : (s.node id).progress with
  | underway => simp only [hp] at hr₁; cases hr₁
  | built slot region =>
    -- A second consumer: in a tree there is none.
    simp only [hp] at hr₁
    obtain ⟨_, _, hget, hr₂⟩ := bind_ok hr₁
    cases hget
    split at hr₂
    · cases hr₂
    · obtain ⟨_, s₁, hconsume, -⟩ := bind_ok hr₂
      rw [(consume_ok hb hconsume).untouched] at hp
      cases hp
  | untouched =>
    simp only [hp] at hr₁
    obtain ⟨_, s₁, hconsume, hr₂⟩ := bind_ok hr₁
    obtain ⟨v, s₂, hentering, hr₃⟩ := bind_ok hr₂
    obtain ⟨rfl, rfl⟩ := checkSlot_ok hr₃
    obtain ⟨u, region, hvisit, rfl⟩ := entering_ok hentering
    have hc := consume_ok hb hconsume
    obtain ⟨n, _, hnode, -⟩ := bind_ok hvisit
    have hn := (node_ok hnode).1
    have hoffer : OfferFits (s₁.marked id .underway) offer := fun o hoffered => by
      rw [show (s₁.marked id .underway).draft = s.draft from hc.draft]
      exact ho o hoffered
    rw [Reading.eval_succ (r := S.reading) hn]
    exact ((hc.entry hst hh).visit hS hw hoffer hn hvisit).built hc

/-! ## Conditions -/

theorem Expr.connective?_eq_some {e : Expr} {c : Connective} (h : e.connective? = some c) :
    (∃ a, e = .unary .not a ∧ c = .not a) ∨
      ∃ op decisive first second, BinaryOp.form op = .shortCircuit decisive ∧ e = .binary op first second ∧
        c = .shortCircuit decisive first second := by
  unfold Expr.connective? at h
  split at h
  · cases h
    exact .inl ⟨_, rfl, rfl⟩
  · cases h
    exact .inr ⟨.and, false, _, _, rfl, rfl, rfl⟩
  · cases h
    exact .inr ⟨.or, true, _, _, rfl, rfl, rfl⟩
  · cases h

/-- The truth of a value that an operator was handed. -/
def Eval.truthOf (o : Option Operand) : Eval Bool := do
  let o ← Eval.lift (Fault.expect o)
  Eval.lift (← Eval.read o).truth

theorem Eval.truthOf_ofBool (b : Bool) : truthOf (given true (.ofBool b)) = pure b := by cases b <;> rfl

/-- The truth of a connective is that of its node. -/
theorem Connective.truth_eq {c : Connective} (hc : n.expr.connective? = some c) :
    S.reading.node ev true S.fuel n >>= Eval.truthOf = c.truth S.reading ev := by
  obtain ⟨e, type⟩ := n
  rcases Expr.connective?_eq_some hc with ⟨a, rfl, rfl⟩ | ⟨op, decisive, first, second, hop, rfl, rfl⟩
  · show (S.reading.operand ev true .forward a >>= _) >>= Eval.truthOf = (S.reading.operand ev false .operand a >>= _) >>= _
    rw [bind_assoc, bind_assoc]
    refine bind_congr fun o => ?_
    rw [bind_assoc, bind_assoc]
    refine bind_congr fun v => ?_
    cases v with
    | int i =>
      show Eval.truthOf (given true (.ofBool (i == 0))) = pure (!(i != 0))
      rw [Eval.truthOf_ofBool, bne, Bool.not_not]
    | _ => rfl
  · rw [Entry.node_shortCircuit hop, bind_assoc]
    simp only [pure_bind, Eval.truthOf_ofBool, bind_pure]

/-- The operands of a connective stand where its node does. -/
theorem Function.Stands.operands {f : Function} {c : Connective} (h : f.Stands id true open_) (hn : f.node? id = some n)
    (hc : n.expr.connective? = some c) : ∀ a ∈ c.operands, f.Stands a (f.reads false a .operand) open_ := by
  obtain ⟨e, type⟩ := n
  intro a ha
  rcases Expr.connective?_eq_some hc with ⟨x, rfl, rfl⟩ | ⟨op, decisive, first, second, hop, rfl, rfl⟩
  · obtain rfl := List.mem_singleton.1 ha
    exact h.child hn (e := .forward) List.mem_cons_self
  · have hedges : (Expr.binary op first second).edges = [(first, .operand), (second, .operand)] := by
      cases op <;> cases hop <;> rfl
    refine h.child hn (e := .operand) ?_
    rw [hedges]
    simpa [Connective.operands] using ha

theorem Lowering.composable?_ok {ctx : Context} {c? : Option Connective} (hr : ctx.composable? id s = .ok (c?, t)) :
    t = s ∧ ∀ c, c? = some c → ∃ n, ctx.function.node? id = some n ∧ n.expr.connective? = some c := by
  obtain ⟨n, _, hnode, hr₁⟩ := bind_ok hr
  obtain ⟨hn, rfl⟩ := node_ok hnode
  obtain ⟨_, _, hget, hr₂⟩ := bind_ok hr₁
  cases hget
  obtain ⟨_, _, hget, hr₃⟩ := bind_ok hr₂
  cases hget
  split at hr₃
  · cases hr₃
    exact ⟨rfl, fun c hc => ⟨n, hn, hc⟩⟩
  · cases hr₃
    exact ⟨rfl, nofun⟩

/-- A condition whose node was entered on the way. -/
theorem Branched.entered {x : Eval Bool} {s₁ : State} {p : Progress} (hc : Consumed S.ctx s s₁ id)
    (h : Branched S x open_ (s₁.marked id .underway) (s₁.marked id .underway) u b) :
    Branched S x open_ s s (u.marked id p) b := by
  have hentered : ((s₁.marked id .underway).node id).progress = .underway := by
    rw [State.marked, node_setNode, if_pos ⟨rfl, hc.lt⟩]
  have htouched : (u.node id).progress ≠ .untouched := by
    rw [h.along.since.nodes id (by rw [hentered]; exact Progress.noConfusion), hentered]
    exact Progress.noConfusion
  have halong := (hc.underway.trans h.along).marked hc.untouched htouched p
  have hgrows : Grows u (u.marked id p) := .setNode h.along.books.clean id _
  have hlabel : (s₁.marked id .underway).draft.label = s.draft.label := congrArg Draft.label hc.draft
  refine ⟨halong, halong.since.toGrows, h.fall, fun hdecides hready => ?_⟩
  have hrun := h.runs hdecides ⟨hgrows.final hready.final, hready.scope,
    fun y hy => hc.underway.since.live y (hready.live y hy), hready.agrees, hready.pc.trans hlabel.symm⟩
  rw [hlabel] at hrun
  exact hrun

theorem Faithful.branching {depth room : Nat} (hS : S.Valid) (hw : Faithful S w (S.reading.eval S.fuel room))
    (hst : S.ctx.function.Stands id (S.ctx.function.reads false id .operand) open_) (hb : Books S.ctx s)
    (hr : Lowering.condition S.ctx depth w id s = .ok (b, t)) :
    Branched S (S.reading.truth (S.reading.eval S.fuel (room + 1)) false id) open_ s s t b := by
  obtain ⟨_, _, hexpect, hr₁⟩ := bind_ok hr
  obtain ⟨rfl, hk⟩ := expectType_ok hexpect
  have hread : S.ctx.function.reads false id .operand = true := by rw [Function.reads, hk]; rfl
  obtain ⟨c?, _, hcomposable, hr₂⟩ := bind_ok hr₁
  obtain ⟨rfl, hconnective⟩ := composable?_ok hcomposable
  cases c? with
  | none =>
    refine Builds.branchOn hS ⟨fun hst hb hh ho hbuild => ?_⟩ hst hb hk hr₂
    exact hw.building hS hst hb hh ho hbuild
  | some c =>
    obtain ⟨n, hn, hc⟩ := hconnective c rfl
    obtain ⟨_, s₁, hconsume, hr₃⟩ := bind_ok hr₂
    obtain ⟨u, region, hcompose, rfl⟩ := entering_ok hr₃
    have hconsumed := consume_ok hb hconsume
    rw [hread] at hst
    have hbranch := hw.compose (hst.operands hn hc) hconsumed.underway.books hcompose
    have htruth : S.reading.truth (S.reading.eval S.fuel (room + 1)) false id =
        c.truth S.reading (S.reading.eval S.fuel room) := by
      rw [← Connective.truth_eq hc, ← Reading.eval_succ (r := S.reading) hn, ← hread]
      exact bind_assoc _ _ _
    rw [htruth]
    exact hbranch.entered hconsumed

/-! ## The walk -/

/-- The walk lowers every node as it is evaluated. -/
theorem walk_faithful (hS : S.Valid) (room : Nat) : ∀ depth, Faithful S (walk S.ctx room depth) (S.reading.eval S.fuel room) := by
  induction room with
  | zero => exact fun depth => ⟨⟨fun _ _ _ _ hr => by cases hr⟩, fun _ _ hr => by cases hr⟩
  | succ room ih =>
    intro depth
    have hinner := ih (depth + 1)
    exact ⟨⟨fun hst hb hh ho hr => hinner.building hS hst hb hh ho hr⟩, fun hst hb hr => hinner.branching hS hst hb hr⟩

end SlotCode
