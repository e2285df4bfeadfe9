/-
  SlotCode.Proofs.Copies — copying shared nodes does not change what a function means.

  One function copies another when each of its nodes stands for a node of the other, of
  the same type and with children that stand for the other's children (`Function.Copies`).
  Where a node of the original has several parents, the copy may have a node for each.

  Proved: a node means what the node it stands for means (`Reading.Alike.eval_eq`), the
  room for nesting does not matter (`Reading.eval_room`), and so both functions have the
  same runs (`Reading.Alike.run_eq`). A call of the lowered copy therefore ends as the
  evaluation of the original does (`compile_copy_realizes`). The lowered original need not:
  where a value is read and an arm has none, the code gives what a register was left with,
  and sharing decides which register that is (`sharing_shows_through`).
-/

import SlotCode.Proofs.Nesting
import SlotCode.Proofs.Realization
import SlotCode.Session

namespace SlotCode

open Relation (ReflTransGen TransGen)

/-! ## Children renamed -/

/-- The expression with every child replaced. -/
def Expr.rename (origin : NodeId → NodeId) : Expr → Expr
  | .sequence first second => .sequence (origin first) (origin second)
  | .block name body => .block name (origin body)
  | .exitBlock name => .exitBlock name
  | .loop name preheader body => .loop name (origin preheader) (origin body)
  | .exitLoop name => .exitLoop name
  | .continueLoop name => .continueLoop name
  | .conditional condition thenArm elseArm => .conditional (origin condition) (origin thenArm) (origin elseArm)
  | .nullary op => .nullary op
  | .unary op operand => .unary op (origin operand)
  | .binary op first second => .binary op (origin first) (origin second)
  | .const value => .const value
  | .text value => .text value
  | .param index => .param index
  | .getVar index => .getVar index
  | .setVar index value => .setVar index (origin value)
  | .getField field object => .getField field (origin object)
  | .getStatic field => .getStatic field
  | .setField field object value => .setField field (origin object) (origin value)
  | .setStatic field value => .setStatic field (origin value)
  | .call method kind args => .call method kind (args.map origin)
  | .arrayElement array index => .arrayElement (origin array) (origin index)
  | .setArrayElement array index value => .setArrayElement (origin array) (origin index) (origin value)
  | .cast value className => .cast (origin value) className
  | .instanceOf value className => .instanceOf (origin value) className
  | .boundsCheck index array lower => .boundsCheck (origin index) (array.map origin) lower
  | .raise value => .raise (origin value)
  | .tryCatch body handler => .tryCatch (origin body) (origin handler)
  | .caughtValue => .caughtValue
  | .caughtException => .caughtException
  | .newObject className => .newObject className
  | .newArray element length => .newArray element (origin length)
  | .tuple components => .tuple (components.map origin)
  | .tupleComponent whole index => .tupleComponent (origin whole) index

def Node.rename (origin : NodeId → NodeId) (n : Node) : Node := ⟨n.expr.rename origin, n.type⟩

theorem Expr.children_rename (origin : NodeId → NodeId) (e : Expr) :
    (e.rename origin).children = e.children.map origin := by
  cases e with
  | boundsCheck index array lower => cases array <;> rfl
  | call | tuple => simp [rename, children, edges, Function.comp_def]
  | _ => rfl

theorem Expr.rename_id (e : Expr) : e.rename id = e := by
  cases e <;> simp [rename]

theorem Node.rename_id (n : Node) : n.rename id = n := by
  rw [rename, Expr.rename_id]

/-! ## Ways without return -/

theorem Function.Leads.reachable_of_mem {f : Function} {path : List NodeId} {id : NodeId} (h : f.Leads path id) :
    ∀ p ∈ path, f.Reachable p := by
  induction h with
  | body => exact nofun
  | child hp _ ih => exact List.forall_mem_cons.2 ⟨hp.reachable, ih⟩

theorem Function.Leads.nodup {f : Function} {path : List NodeId} {id : NodeId} (h : f.Leads path id) (ha : f.Acyclic) :
    (id :: path).Nodup := by
  induction h with
  | body => exact List.nodup_singleton _
  | child hp hc ih =>
    refine List.nodup_cons.2 ⟨fun hmem => ?_, ih⟩
    exact ha _ (hp.child hc).reachable ((hp.child hc).above _ hmem)

/-- Without cycles no way is as long as the arena. -/
theorem Function.Leads.length_lt {f : Function} {path : List NodeId} {id : NodeId} (h : f.Leads path id) (ha : f.Acyclic)
    (hb : ∀ id, f.Reachable id → id < f.nodes.size) : path.length < f.nodes.size := by
  have hsub : (id :: path).toFinset ⊆ Finset.range f.nodes.size := by
    intro x hx
    rw [List.mem_toFinset, List.mem_cons] at hx
    refine Finset.mem_range.2 (hb x ?_)
    rcases hx with rfl | hx
    · exact h.reachable
    · exact h.reachable_of_mem x hx
  have hcard := Finset.card_le_card hsub
  rwa [List.toFinset_card_of_nodup (h.nodup ha), Finset.card_range] at hcard

/-! ## Evaluation of one node -/

namespace Reading

variable {r r' : Reading} {origin : NodeId → NodeId} {child child' : ChildEval} {demanded : Bool} {a b c : NodeId}

/-- A child is evaluated as the child that it stands for. -/
structure Matches (r r' : Reading) (origin : NodeId → NodeId) (child child' : ChildEval) (c : NodeId) : Prop where
  kind : r.function.kind? c = r'.function.kind? (origin c)
  eval : ∀ demanded, child demanded c = child' demanded (origin c)

/-- The readings differ at most in the function. -/
structure Alike (r r' : Reading) : Prop where
  env : r.env = r'.env
  args : r.args = r'.args
  literal : r.literal = r'.literal

namespace Matches

theorem reads (h : Matches r r' origin child child' c) (edge : Edge) :
    r.function.reads demanded c edge = r'.function.reads demanded (origin c) edge := by
  simp only [Function.reads, h.kind]

theorem effect (h : Matches r r' origin child child' c) : Reading.effect child c = Reading.effect child' (origin c) := by
  simp only [Reading.effect, h.eval]

theorem operand (h : Matches r r' origin child child' c) (edge : Edge) :
    r.operand child demanded edge c = r'.operand child' demanded edge (origin c) := by
  simp only [Reading.operand, h.eval, h.reads]

theorem forward (h : Matches r r' origin child child' c) :
    r.forward child demanded c = r'.forward child' demanded (origin c) := by
  simp only [Reading.forward, h.eval, h.reads]

theorem truth (h : Matches r r' origin child child' c) : r.truth child demanded c = r'.truth child' demanded (origin c) := by
  simp only [Reading.truth, h.operand]

theorem ofOperand (h : Matches r r' origin child child' a) (fire : World → Value → Except Fault Value) :
    r.ofOperand child demanded fire a = r'.ofOperand child' demanded fire (origin a) := by
  simp only [Reading.ofOperand, h.operand, h.effect]

theorem ofOperands (ha : Matches r r' origin child child' a) (hb : Matches r r' origin child child' b)
    (fire : World → Value → Value → Except Fault Value) :
    r.ofOperands child demanded fire a b = r'.ofOperands child' demanded fire (origin a) (origin b) := by
  simp only [Reading.ofOperands, ha.operand, hb.operand, ha.effect, hb.effect]

theorem operands {args : List NodeId} (h : ∀ c ∈ args, Matches r r' origin child child' c) :
    args.mapM (r.operand child demanded .operand) = (args.map origin).mapM (r'.operand child' demanded .operand) := by
  induction args with
  | nil => rfl
  | cons c args ih =>
    rw [List.map_cons, List.mapM_cons, List.mapM_cons, (h c List.mem_cons_self).operand,
      ih fun d hd => h d (List.mem_cons_of_mem _ hd)]

end Matches

theorem Alike.invoke (h : Alike r r') : r.invoke = r'.invoke := by
  funext method kind args result
  simp only [Reading.invoke, Reading.native, h.env]

/-- A node is evaluated as the node whose children its own stand for. -/
theorem node_rename (h : Alike r r') {n : Node} (hn : ∀ c ∈ n.expr.children, Matches r r' origin child child' c)
    (fuel : Nat) : r.node child demanded fuel n = r'.node child' demanded fuel (n.rename origin) := by
  obtain ⟨e, type⟩ := n
  cases e with
  | sequence first second =>
    obtain ⟨hfirst, hn⟩ := List.forall_mem_cons.1 hn
    have hsecond := List.forall_mem_singleton.1 hn
    simp only [node, Node.rename, Expr.rename, hfirst.effect, hsecond.forward]
  | block name body =>
    have hbody := List.forall_mem_singleton.1 hn
    simp only [node, Node.rename, Expr.rename, hbody.forward]
  | loop name preheader body =>
    obtain ⟨hpreheader, hn⟩ := List.forall_mem_cons.1 hn
    have hbody := List.forall_mem_singleton.1 hn
    simp only [node, Node.rename, Expr.rename, hpreheader.effect, hbody.effect]
  | conditional condition thenArm elseArm =>
    obtain ⟨hcondition, hn⟩ := List.forall_mem_cons.1 hn
    obtain ⟨hthen, hn⟩ := List.forall_mem_cons.1 hn
    have helse := List.forall_mem_singleton.1 hn
    simp only [node, Node.rename, Expr.rename, hcondition.truth, hthen.forward, helse.forward]
  | nullary op => cases op <;> rfl
  | unary op a =>
    have ha := List.forall_mem_singleton.1 hn
    cases op <;> simp only [node, Node.rename, Expr.rename, ha.operand, ha.ofOperand]
  | binary op a b =>
    obtain ⟨ha, hn⟩ := List.forall_mem_cons.1 hn
    have hb := List.forall_mem_singleton.1 hn
    simp only [node, Node.rename, Expr.rename, ha.truth, hb.truth, ha.ofOperands hb]
  | text value => simp only [node, Node.rename, Expr.rename, h.literal]
  | param index => simp only [node, Node.rename, Expr.rename, h.args]
  | setVar index value =>
    have hvalue := List.forall_mem_singleton.1 hn
    simp only [node, Node.rename, Expr.rename, hvalue.forward]
  | getField field object =>
    have hobject := List.forall_mem_singleton.1 hn
    simp only [node, Node.rename, Expr.rename, hobject.ofOperand, h.env]
  | getStatic field => simp only [node, Node.rename, Expr.rename, h.env]
  | call method kind args =>
    have hargs : ∀ c ∈ args, Matches r r' origin child child' c := fun c hc =>
      hn c (by simpa [Expr.children, Expr.edges] using hc)
    simp only [node, Node.rename, Expr.rename, Matches.operands hargs, h.invoke]
  | arrayElement array index =>
    obtain ⟨harray, hn⟩ := List.forall_mem_cons.1 hn
    have hindex := List.forall_mem_singleton.1 hn
    simp only [node, Node.rename, Expr.rename, harray.ofOperands hindex]
  | setArrayElement array index value =>
    obtain ⟨harray, hn⟩ := List.forall_mem_cons.1 hn
    obtain ⟨hindex, hn⟩ := List.forall_mem_cons.1 hn
    have hvalue := List.forall_mem_singleton.1 hn
    simp only [node, Node.rename, Expr.rename, harray.operand, hindex.operand, hvalue.operand]
  | cast value className =>
    have hvalue := List.forall_mem_singleton.1 hn
    simp only [node, Node.rename, Expr.rename, hvalue.ofOperand, h.env]
  | instanceOf value className =>
    have hvalue := List.forall_mem_singleton.1 hn
    simp only [node, Node.rename, Expr.rename, hvalue.ofOperand, h.env]
  | boundsCheck index array lower =>
    obtain ⟨hindex, hrest⟩ := List.forall_mem_cons.1 hn
    cases array with
    | none => simp only [node, Node.rename, Expr.rename, Option.map_none, hindex.operand]
    | some array =>
      have harray := List.forall_mem_singleton.1 hrest
      simp only [node, Node.rename, Expr.rename, Option.map_some, hindex.operand, harray.operand]
  | _ => rfl

theorem eval_none {fuel room : Nat} {x : NodeId} (hn : r.function.node? x = none) :
    r.eval fuel (room + 1) demanded x = Eval.fault .invalidInstruction := by
  rw [eval, hn]
  rfl

/-- A node stands on a way from the body. Where the way and the room together are as long as the arena, more room
    makes no difference. -/
theorem eval_roomier (r : Reading) (ha : r.function.Acyclic)
    (hb : ∀ x, r.function.Reachable x → x < r.function.nodes.size) (fuel : Nat) :
    ∀ (room : Nat) {path : List NodeId} {x : NodeId} (demanded : Bool), r.function.Leads path x →
      r.function.nodes.size ≤ path.length + room → r.eval fuel room demanded x = r.eval fuel (room + 1) demanded x
  | 0, _, _, _, hpath, hlong => absurd (hpath.length_lt ha hb) (Nat.not_lt.2 hlong)
  | room + 1, path, x, demanded, hpath, hlong => by
    cases hn : r.function.node? x with
    | none => rw [eval_none hn, eval_none hn]
    | some n =>
      have hchild : ∀ c ∈ n.expr.children, Matches r r id (r.eval fuel room) (r.eval fuel (room + 1)) c := by
        refine fun c hc => ⟨rfl, fun demanded => eval_roomier r ha hb fuel room demanded (hpath.children hn c hc) ?_⟩
        rw [List.length_cons]
        omega
      have hnode : r.node _ demanded fuel n = r.node _ demanded fuel (n.rename id) := node_rename ⟨rfl, rfl, rfl⟩ hchild fuel
      rw [Node.rename_id] at hnode
      rw [eval_succ hn, eval_succ hn, hnode]

/-- The arena's size is room enough. -/
theorem eval_room (r : Reading) (ha : r.function.Acyclic) (hb : ∀ x, r.function.Reachable x → x < r.function.nodes.size)
    (fuel room : Nat) (demanded : Bool) (h : r.function.nodes.size ≤ room) :
    r.eval fuel room demanded r.function.body = r.eval fuel r.function.nodes.size demanded r.function.body := by
  induction room, h using Nat.le_induction with
  | base => rfl
  | succ room h ih => rw [← eval_roomier r ha hb fuel room demanded .body (by simpa using h), ih]

end Reading

/-! ## Copies -/

/-- Each node of the first function stands for a node of the second, by `origin`. -/
structure Function.Copies (g f : Function) (origin : NodeId → NodeId) : Prop where
  params : g.params = f.params
  locals : g.locals = f.locals
  result : g.returnType = f.returnType
  body : origin g.body = f.body
  node : ∀ x, g.Reachable x → f.node? (origin x) = (g.node? x).map (Node.rename origin)

namespace Function.Copies

variable {g f : Function} {origin : NodeId → NodeId}

/-- The reachable nodes are those of the order, so the comparison can be computed. -/
theorem of_order (params : g.params = f.params) (locals : g.locals = f.locals) (result : g.returnType = f.returnType)
    (body : origin g.body = f.body)
    (node : ∀ x ∈ g.order, f.node? (origin x) = (g.node? x).map (Node.rename origin)) : g.Copies f origin :=
  ⟨params, locals, result, body, fun x hx => node x (mem_order.2 hx)⟩

theorem kind_eq (h : g.Copies f origin) {x : NodeId} (hx : g.Reachable x) : g.kind? x = f.kind? (origin x) := by
  rw [kind?, kind?, h.node x hx]
  cases g.node? x <;> rfl

/-- Everything that the original's body leads to has a copy. -/
theorem covers (h : g.Copies f origin) {y : NodeId} (hy : f.Reachable y) : ∃ x, g.Reachable x ∧ origin x = y := by
  induction hy with
  | refl => exact ⟨g.body, .refl, h.body⟩
  | tail _ hc ih =>
    obtain ⟨x, hx, rfl⟩ := ih
    have hchild : _ ∈ f.children (origin x) := hc
    rw [children, h.node x hx] at hchild
    cases hn : g.node? x with
    | none => simp [hn] at hchild
    | some n =>
      simp only [hn, Option.map_some, Node.rename, Expr.children_rename, List.mem_map] at hchild
      obtain ⟨a, ha, rfl⟩ := hchild
      exact ⟨a, hx.tail (show a ∈ g.children x by rw [children, hn]; exact ha), rfl⟩

/-- If the copy stays within its arena, so does the original. -/
theorem bound (h : g.Copies f origin) (hg : ∀ x, g.Reachable x → x < g.nodes.size) :
    ∀ y, f.Reachable y → y < f.nodes.size := by
  intro y hy
  obtain ⟨x, hx, rfl⟩ := h.covers hy
  have hlt := hg x hx
  have hn : g.node? x = some g.nodes[x] := Array.getElem?_eq_getElem hlt
  have hf := h.node x hx
  rw [hn, Option.map_some] at hf
  exact (Array.getElem?_eq_some_iff.1 hf).1

end Function.Copies

namespace Reading.Alike

variable {r r' : Reading} {origin : NodeId → NodeId}

/-- A node of the copy means what the node it stands for means. -/
theorem eval_eq (ha : Alike r r') (h : r.function.Copies r'.function origin) (fuel : Nat) :
    ∀ (room : Nat) (demanded : Bool) {x : NodeId}, r.function.Reachable x →
      r.eval fuel room demanded x = r'.eval fuel room demanded (origin x)
  | 0, _, _, _ => rfl
  | room + 1, demanded, x, hx => by
    have hnode := h.node x hx
    cases hn : r.function.node? x with
    | none =>
      rw [hn, Option.map_none] at hnode
      rw [eval_none hn, eval_none hnode]
    | some n =>
      rw [hn, Option.map_some] at hnode
      rw [eval_succ hn, eval_succ hnode]
      refine node_rename ha (fun c hc => ?_) fuel
      have hreach : r.function.Reachable c := hx.tail (show c ∈ r.function.children x by rw [Function.children, hn]; exact hc)
      exact ⟨h.kind_eq hreach, fun demanded => ha.eval_eq h fuel room demanded hreach⟩

/-- The copy and the original have the same runs. -/
theorem run_eq (ha : Alike r r') (h : r.function.Copies r'.function origin) (hcopy : r.function.Acyclic)
    (horiginal : r'.function.Acyclic) (hb : ∀ x, r.function.Reachable x → x < r.function.nodes.size) (fuel : Nat)
    (w : World) : r.run fuel w = r'.run fuel w := by
  have hread : r.function.bodyRead = r'.function.bodyRead := by
    rw [Function.bodyRead, Function.bodyRead, h.result, h.kind_eq .refl, h.body]
  have hbody : r.eval fuel (r.function.nodes.size + 1) r.function.bodyRead r.function.body =
      r'.eval fuel (r'.function.nodes.size + 1) r'.function.bodyRead r'.function.body := by
    let room := max r.function.nodes.size r'.function.nodes.size
    calc r.eval fuel (r.function.nodes.size + 1) r.function.bodyRead r.function.body
        = r.eval fuel r.function.nodes.size r.function.bodyRead r.function.body := eval_room r hcopy hb _ _ _ (Nat.le_succ _)
      _ = r.eval fuel room r.function.bodyRead r.function.body := (eval_room r hcopy hb _ _ _ (Nat.le_max_left _ _)).symm
      _ = r'.eval fuel room r'.function.bodyRead r'.function.body := by rw [ha.eval_eq h _ _ _ .refl, hread, h.body]
      _ = r'.eval fuel r'.function.nodes.size r'.function.bodyRead r'.function.body :=
        eval_room r' horiginal (h.bound hb) _ _ _ (Nat.le_max_right _ _)
      _ = _ := (eval_room r' horiginal (h.bound hb) _ _ _ (Nat.le_succ _)).symm
  simp only [run, body, initial, hbody, h.locals]

end Reading.Alike

open Lowering

/-- A call of the lowered copy ends as the evaluation of the original does. -/
theorem compile_copy_realizes {f g : Function} {origin : NodeId → NodeId} {env : Environment} {options : CompileOptions}
    {p : Program} (h : g.Copies f origin) (hg : g.WellShaped) (hf : f.Acyclic) (hp : compile g env options = .ok p)
    (w : World) {args : List Value} (hargs : args.map (fun v => some v.kind) = f.params.map ValueType.kind?) (m : Machine)
    (fuel : Nat) (hm : m.Covers p) :
    (Image.load p env w).1.Realizes args m fuel
      (Reading.run ⟨f, env, args, (Image.load p env w).1.literal⟩ fuel m.world) := by
  obtain ⟨params, vars, ⟨P⟩⟩ := compile_passage hp
  obtain ⟨hbound, -, -⟩ := Demand.analyze_ok P.analyzed
  have halike : Reading.Alike ⟨g, env, args, (Image.load p env w).1.literal⟩
      ⟨f, env, args, (Image.load p env w).1.literal⟩ := ⟨rfl, rfl, rfl⟩
  rw [← halike.run_eq h hg.tree.acyclic hf hbound]
  rw [← h.params] at hargs
  exact P.load_realizes hg (compile_ok_sealed hp) w hargs fuel hm

/-- A negation added to itself. -/
def negatedSum : Function where
  params := [.int]
  locals := []
  nodes := #[⟨.param 0, .int⟩, ⟨.unary (.negate .int) 0, .int⟩, ⟨.binary (.arith .int .add) 1 1, .int⟩]
  body := 2
  returnType := .int

/-- The same with the negation written out for each operand. -/
def negatedSumApart : Function where
  params := [.int]
  locals := []
  nodes := #[⟨.param 0, .int⟩, ⟨.unary (.negate .int) 0, .int⟩, ⟨.binary (.arith .int .add) 1 4, .int⟩, ⟨.param 0, .int⟩,
    ⟨.unary (.negate .int) 3, .int⟩]
  body := 2
  returnType := .int

theorem negatedSumApart_copies : negatedSumApart.Copies negatedSum ([0, 1, 2, 0, 1].getD · 0) :=
  .of_order rfl rfl rfl rfl (by decide +kernel)

/-- A call of the copy gives what the sum with the shared negation means. -/
theorem negatedSumApart_realizes : ∃ p, compile negatedSumApart {} {} = .ok p ∧
    ∃ n m₁, ∀ k, n ≤ k → (Image.load p {} {}).1.call {} k [.int 3] (.start (Image.load p {} {}).1 {}) =
      (.done (some (.int (-6))), m₁) := by
  have hg : negatedSumApart.WellShaped :=
    Function.wellShaped_of_chart (show negatedSumApart.Charted (negatedSumApart.places 3 (2, true, [])) by decide +kernel)
      (by decide +kernel) (by decide +kernel)
  have hf : negatedSum.Acyclic := Function.acyclic_of_lt (by decide +kernel)
  have hp : compile negatedSumApart {} {} = .ok
      { code := #[.neg .int 1 0, .neg .int 2 0, .arith .int .add 1 1 2, .stop], counts := ⟨3, 0, 0, 0, 0⟩,
        params := [⟨.int, 0⟩], result := some ⟨.int, 1⟩ } := by
    decide +kernel
  refine ⟨_, hp, ?_⟩
  generalize Program.mk _ _ _ _ _ _ _ = p at hp ⊢
  obtain ⟨σ, hσ⟩ : ∃ σ, Reading.run ⟨negatedSum, {}, [.int 3], (Image.load p {} {}).1.literal⟩ 5 {} =
      some (.ok (some (.int (-6))), σ) := ⟨_, rfl⟩
  have hreal := compile_copy_realizes negatedSumApart_copies hg hf hp {} (show [Value.int 3].map _ = _ from rfl)
    (.start (Image.load p {} {}).1 {}) 5 fun x => (Registers.has_new _ x).2
  rw [show Machine.world (.start (Image.load p {} {}).1 {}) = {} from rfl, hσ] at hreal
  obtain ⟨n, m₁, -, hcall⟩ := hreal
  exact ⟨n, m₁, hcall⟩

/-- Negates its second parameter, keeps the result twice in a variable, and gives seven if its first parameter is
    true. Otherwise there is no value to give. -/
def negatedTwice : Function where
  params := [.boolean, .int]
  locals := [.int]
  nodes := #[⟨.param 1, .int⟩, ⟨.unary (.negate .int) 0, .int⟩, ⟨.setVar 0 1, .void⟩, ⟨.setVar 0 1, .void⟩,
    ⟨.sequence 2 3, .void⟩, ⟨.param 0, .boolean⟩, ⟨.const (.int 7), .int⟩, ⟨.nullary .void, .void⟩,
    ⟨.conditional 5 6 7, .int⟩, ⟨.sequence 4 8, .int⟩]
  body := 9
  returnType := .int

/-- The same with the negation written out for each assignment. -/
def negatedApart : Function where
  params := [.boolean, .int]
  locals := [.int]
  nodes := #[⟨.param 1, .int⟩, ⟨.unary (.negate .int) 0, .int⟩, ⟨.setVar 0 1, .void⟩, ⟨.setVar 0 11, .void⟩,
    ⟨.sequence 2 3, .void⟩, ⟨.param 0, .boolean⟩, ⟨.const (.int 7), .int⟩, ⟨.nullary .void, .void⟩,
    ⟨.conditional 5 6 7, .int⟩, ⟨.sequence 4 8, .int⟩, ⟨.param 1, .int⟩, ⟨.unary (.negate .int) 10, .int⟩]
  body := 9
  returnType := .int

/-- A function and a copy of it are lowered and run, and their values differ. -/
theorem sharing_shows_through :
    negatedApart.Copies negatedTwice ([0, 1, 2, 3, 4, 5, 6, 7, 8, 9, 0, 1].getD · 0) ∧
      (negatedTwice.evaluate {} {} {} 9 [.int 0, .int 3] {}).1 = .value (some (.int (-3))) ∧
      (negatedApart.evaluate {} {} {} 9 [.int 0, .int 3] {}).1 = .value (some (.int 0)) :=
  ⟨.of_order rfl rfl rfl rfl (by decide +kernel), by decide +kernel⟩

end SlotCode
