/-
  SlotCode.Proofs.DepthLimit — the depth limit is only a limit.

  Two lowerings of one function with different limits do the same, step by step, until one
  of them comes to its limit and stops (`Below`). Only the entry into a node looks at the
  limit, so whatever a node does with its children, it does alike with both.

  Proved: `compile_minds_depth`, for every function, environment and pair of limits. That a
  limit is exceeded by one level only, and never when it is as large as the arena, is read
  off the way from the body to the node at hand (`Warranted`).
-/

import SlotCode.Proofs.Cycles

namespace SlotCode

namespace Lowering

variable {α β : Type} {ctx : Context} {w w' : Walk} {id c : NodeId} {hint : Option TypedSlot}

/-- The one stops at the depth limit, or both come to the same. -/
def Cut (x y : Except BuildError α) : Prop := (∃ depth limit, x = .error (.tooDeep depth limit)) ∨ x = y

theorem Cut.bind {x y : Except BuildError α} {f g : α → Except BuildError β} (h : Cut x y) (hf : ∀ a, Cut (f a) (g a)) :
    Cut (x >>= f) (y >>= g) := by
  rcases h with ⟨depth, limit, rfl⟩ | rfl
  · exact .inl ⟨depth, limit, rfl⟩
  · cases x with
    | error e => exact .inr rfl
    | ok a => exact hf a

/-- The step stops at the depth limit, or does what the other does. -/
def Below (x y : Lower α) : Prop := ∀ s, Cut (x s) (y s)

namespace Below

variable {x y : Lower α} {f g : α → Lower β}

theorem refl : Below x x := fun _ => .inr rfl

theorem bind (h : Below x y) (hf : ∀ a, Below (f a) (g a)) : Below (x >>= f) (y >>= g) :=
  fun s => (h s).bind fun r => hf r.1 r.2

/-- After a step that both make. -/
theorem past (hf : ∀ a, Below (f a) (g a)) : Below (x >>= f) (x >>= g) := refl.bind hf

/-- Before a step that both make. -/
theorem andThen (h : Below x y) : Below (x >>= f) (y >>= f) := h.bind fun _ => refl

theorem ite {c : Prop} [Decidable c] {x' y' : Lower α} (hyes : Below x y) (hno : Below x' y') :
    Below (if c then x else x') (if c then y else y') := by
  split
  · exact hyes
  · exact hno

theorem inRegion (h : Below x y) : Below (inRegion x) (inRegion y) := past fun _ => h.andThen

end Below

/-- One walk lowers every node as the other does, until it comes to its limit. -/
structure Walk.Under (w w' : Walk) : Prop where
  build : ∀ id u hint offer, Below (w.build id u hint offer) (w'.build id u hint offer)
  condition : ∀ id, Below (w.condition id) (w'.condition id)

/-! ## One node, with its children lowered by two walks -/

theorem below_value {offer : Option Offer} (h : Below (w.build c .value hint offer) (w'.build c .value hint offer)) :
    Below (w.value c hint offer) (w'.value c hint offer) := .past fun _ => h.andThen

theorem below_branchOn (h : Below (w.build c .value none none) (w'.build c .value none none)) :
    Below (branchOn w c) (branchOn w' c) := (below_value h).andThen.andThen

namespace Walk.Under

variable (hw : w.Under w')
include hw

theorem effect (c : NodeId) (offer : Option Offer) : Below (w.effect c offer) (w'.effect c offer) :=
  (hw.build c .ignore none offer).andThen

theorem value (c : NodeId) (hint : Option TypedSlot) (offer : Option Offer) :
    Below (w.value c hint offer) (w'.value c hint offer) := below_value (hw.build c .value hint offer)

theorem operand (c : NodeId) : Below (w.operand c) (w'.operand c) := (hw.value c none none).andThen

theorem operands (args : List NodeId) : Below (args.mapM w.operand) (args.mapM w'.operand) := by
  induction args with
  | nil => exact .refl
  | cons a args ih =>
    rw [List.mapM_cons, List.mapM_cons]
    exact (hw.operand a).bind fun _ => ih.andThen

theorem valueInto (c : NodeId) (target : TypedSlot) (offer : Option Offer) :
    Below (w.valueInto ctx c target offer) (w'.valueInto ctx c target offer) := by
  unfold Walk.valueInto
  split
  · exact hw.effect c offer
  · exact .ite .refl (hw.value c (some target) offer).andThen

theorem forward (c : NodeId) (target : Option TypedSlot) (offer : Option Offer) :
    Below (w.forward ctx c target offer) (w'.forward ctx c target offer) := by
  cases target with
  | none => exact hw.effect c offer
  | some x => exact hw.valueInto c x offer

theorem onOperand (c : NodeId) {make : TypedSlot → Slot → Instruction} :
    Below (onOperand ctx w id c hint make) (onOperand ctx w' id c hint make) :=
  .past fun _ => .ite (hw.operand c).andThen (hw.effect c none).andThen

theorem onOperands (first second : NodeId) {make : TypedSlot → Slot → Slot → Instruction} :
    Below (onOperands ctx w id first second hint make) (onOperands ctx w' id first second hint make) :=
  .past fun _ => .ite ((hw.operand first).bind fun _ => (hw.operand second).andThen)
    ((hw.effect first none).bind fun _ => (hw.effect second none).andThen)

theorem unary (op : UnaryOp) (c : NodeId) : Below (unary ctx w id op c hint) (unary ctx w' id op c hint) := by
  refine .past fun _ => ?_
  cases op with
  | nullCheck => exact (hw.operand c).andThen
  | _ => exact hw.onOperand c

theorem compose (k : Connective) : Below (compose w k) (compose w' k) := by
  cases k with
  | not operand => exact (hw.condition operand).andThen
  | shortCircuit decisive first second =>
    exact (hw.condition first).bind fun _ => .past fun _ => (Below.inRegion (hw.condition second)).andThen

theorem binary (op : BinaryOp) (first second : NodeId) :
    Below (binary ctx w id op first second hint) (binary ctx w' id op first second hint) := by
  unfold Lowering.binary
  split
  · exact .past fun _ => .past fun _ => hw.onOperands first second
  · exact (hw.compose _).andThen

theorem getField (field : FieldRef) (c : NodeId) :
    Below (getField ctx w id field c hint) (getField ctx w' id field c hint) := by
  refine .past fun r => ?_
  cases r with
  | none => exact .refl
  | some r => exact .past fun _ => .past fun _ => hw.onOperand c

theorem setArrayElement (array index value : NodeId) :
    Below (setArrayElement ctx w array index value) (setArrayElement ctx w' array index value) :=
  .past fun _ => .past fun _ => (hw.operand array).bind fun _ => (hw.operand index).bind fun _ => (hw.operand value).andThen

theorem upperBound (index : TypedSlot) (lower : Bool) (array : NodeId) :
    Below (upperBound ctx w index lower array) (upperBound ctx w' index lower array) :=
  .past fun _ => (hw.operand array).andThen

theorem boundsCheck (index : NodeId) (array : Option NodeId) (lower : Bool) :
    Below (boundsCheck ctx w id index array lower hint) (boundsCheck ctx w' id index array lower hint) := by
  refine .past fun _ => (hw.operand index).bind fun i => ?_
  cases array with
  | none => exact .refl
  | some array => exact (hw.upperBound i lower array).andThen

theorem call (method : MethodRef) (kind : CallKind) (args : List NodeId) :
    Below (call ctx w id method kind args hint) (call ctx w' id method kind args hint) := by
  unfold Lowering.call
  split
  · exact .refl
  · exact .past fun _ => .past fun _ => .past fun _ => (hw.operands args).andThen

/-! ### Control -/

theorem arm (c : NodeId) (target : Option TypedSlot) (offer : Option Offer) :
    Below (arm ctx w c target offer) (arm ctx w' c target offer) := .inRegion (hw.forward c target offer)

theorem sequence (first second : NodeId) (offer : Option Offer) :
    Below (sequence ctx w id first second hint offer) (sequence ctx w' id first second hint offer) :=
  (hw.effect first none).bind fun _ => .past fun target => (hw.forward second target offer).andThen

theorem block (name : BlockId) (c : NodeId) : Below (block ctx w id name c hint) (block ctx w' id name c hint) :=
  .past fun target => .past fun _ => (hw.arm c target none).andThen

theorem loop (name : LoopId) (preheader body : NodeId) :
    Below (loop ctx w name preheader body) (loop ctx w' name preheader body) :=
  (hw.effect preheader none).bind fun _ => .past fun _ => .past fun _ => (Below.inRegion (hw.effect body none)).andThen

theorem elseOnly (b : Branch) (position : Nat) (c : NodeId) (target : Option TypedSlot) :
    Below (elseOnly ctx w b position c target) (elseOnly ctx w' b position c target) := (hw.arm c target _).andThen

theorem bothArms (b : Branch) (thenArm elseArm : NodeId) (target : Option TypedSlot) :
    Below (bothArms ctx w b thenArm elseArm target) (bothArms ctx w' b thenArm elseArm target) := by
  have hrest : ∀ skip : Option Patch, Below (secondArm ctx w b elseArm target skip) (secondArm ctx w' b elseArm target skip) :=
    fun skip => .past fun _ => .past fun _ => (hw.arm elseArm target none).andThen
  exact .past fun _ => .ite (.past fun skip => hrest skip) (.past fun skip => hrest skip)

theorem conditional (condition thenArm elseArm : NodeId) :
    Below (conditional ctx w id condition thenArm elseArm hint) (conditional ctx w' id condition thenArm elseArm hint) :=
  .past fun target => (hw.condition condition).bind fun b => .past fun position => (hw.arm thenArm target _).bind fun _ =>
    .ite (hw.arm elseArm target none).andThen
      (.past fun _ => .ite (hw.elseOnly b position elseArm target).andThen (hw.bothArms b thenArm elseArm target).andThen)

/-- A node does the same with both walks for its children. -/
theorem visit (id : NodeId) (hint : Option TypedSlot) (offer : Option Offer) :
    Below (visit ctx w id hint offer) (visit ctx w' id hint offer) := by
  refine .past fun n => ?_
  obtain ⟨e, type⟩ := n
  cases e with
  | sequence first second => exact hw.sequence first second offer
  | block name body => exact hw.block name body
  | loop name preheader body => exact hw.loop name preheader body
  | conditional condition thenArm elseArm => exact hw.conditional condition thenArm elseArm
  | unary op operand => exact hw.unary op operand
  | binary op first second => exact hw.binary op first second
  | setVar index value => exact .past fun target => (hw.valueInto value target none).andThen
  | getField field object => exact hw.getField field object
  | call method kind args => exact hw.call method kind args
  | arrayElement array index => exact .past fun _ => .past fun _ => hw.onOperands array index
  | setArrayElement array index value => exact hw.setArrayElement array index value
  | cast value className => exact .past fun _ => .past fun _ => hw.onOperand value
  | instanceOf value className => exact .past fun _ => .past fun _ => hw.onOperand value
  | boundsCheck index array lower => exact hw.boundsCheck index array lower
  | _ => exact .refl

end Walk.Under

/-! ## The walk -/

/-- The same lowering, with another depth limit. -/
def Context.withLimit (ctx : Context) (limit : Nat) : Context := { ctx with options := { ctx.options with maxDepth := limit } }

variable {d d' depth : Nat}

/-- A node that one limit lets in is let in by a larger one. -/
theorem below_entering {slot : α → Option TypedSlot} {x y : Lower α} (hd : d ≤ d') (h : Below x y) :
    Below (entering (ctx.withLimit d) depth id slot x) (entering (ctx.withLimit d') depth id slot y) := by
  unfold entering
  by_cases hover : depth + 1 > d
  · exact fun s => .inl ⟨depth + 1, d, by rw [if_pos (show depth + 1 > (ctx.withLimit d).options.maxDepth from hover)]; rfl⟩
  · have hfits' : ¬ depth + 1 > (ctx.withLimit d').options.maxDepth := fun h' => hover (Nat.lt_of_le_of_lt hd h')
    rw [if_neg (show ¬ depth + 1 > (ctx.withLimit d).options.maxDepth from hover), if_neg hfits']
    exact .past fun _ => h.andThen

theorem below_build (hd : d ≤ d') (hw : w.Under w') (u : Usage) (offer : Option Offer) :
    Below (build (ctx.withLimit d) depth w id u hint offer) (build (ctx.withLimit d') depth w' id u hint offer) := by
  refine .past fun n => ?_
  cases n.progress with
  | underway => exact .refl
  | built slot region => exact .refl
  | untouched => exact .past fun _ => (below_entering hd (hw.visit id hint offer)).andThen

theorem below_condition (hd : d ≤ d') (hw : w.Under w') :
    Below (condition (ctx.withLimit d) depth w id) (condition (ctx.withLimit d') depth w' id) := by
  refine .past fun _ => .past fun k => ?_
  cases k with
  | none => exact below_branchOn (below_build hd hw .value none)
  | some k => exact .past fun _ => below_entering hd (hw.compose k)

theorem walk_under (hd : d ≤ d') (room : Nat) : ∀ depth,
    (walk (ctx.withLimit d) room depth).Under (walk (ctx.withLimit d') room depth) := by
  induction room with
  | zero => exact fun _ => ⟨fun _ _ _ _ => .refl, fun _ => .refl⟩
  | succ room ih =>
    intro depth
    have hinner := ih (depth + 1)
    exact ⟨fun _ u _ offer => below_build hd hinner u offer, fun _ => below_condition hd hinner⟩

theorem below_lowerBody (hd : d ≤ d') (u : Usage) : Below (lowerBody (ctx.withLimit d) u) (lowerBody (ctx.withLimit d') u) :=
  ((walk_under hd _ _).build _ u none none).andThen

end Lowering

open Lowering

variable {f : Function} {env : Environment} {options : CompileOptions} {d d' : Nat}

/-- Lowering stops at the smaller limit, or does what it does with the larger one. -/
theorem compile_cut (hd : d ≤ d') :
    Cut (compile f env { options with maxDepth := d }) (compile f env { options with maxDepth := d' }) := by
  refine Cut.bind (.inr rfl) fun demand => Cut.bind (.inr rfl) fun (params, pool) => ?_
  refine Cut.bind (.inr rfl) fun (vars, pool) => Cut.bind (.inr rfl) fun u => ?_
  have hbody : Below (lowerBody (Context.withLimit ⟨f, env, options, params, vars⟩ d) u)
      (lowerBody (Context.withLimit ⟨f, env, options, params, vars⟩ d') u) := below_lowerBody hd u
  exact (hbody _).bind fun (result, s) => .inr rfl

/-- The limit is exceeded by one level, and only if the arena has more nodes. -/
theorem compile_tooDeep {depth limit : Nat} (h : compile f env options = .error (.tooDeep depth limit)) :
    limit = options.maxDepth ∧ depth = limit + 1 ∧ limit < f.nodes.size := by
  rcases compile_eq_error h with ⟨what, he, -⟩ | ⟨node, cause, he⟩ | ⟨params, vars, u, s, hstart, hlower | ⟨cause, he⟩⟩
  · cases he
  · cases he
  · exact hstart.lowered_works.error rfl hlower
  · cases cause <;> cases he

/-- What a lowering gives, a program or an error of another kind, it gives with every larger depth limit too. At the limit
    it reports the first level beyond, and a limit as large as the arena is never reached, not even by a cycle. -/
theorem compile_minds_depth (f : Function) (env : Environment) (options : CompileOptions) {d d' : Nat} (hd : d ≤ d') :
    (∀ p, compile f env { options with maxDepth := d } = .ok p → compile f env { options with maxDepth := d' } = .ok p) ∧
    (∀ e, compile f env { options with maxDepth := d } = .error e → (∀ depth limit, e ≠ .tooDeep depth limit) →
      compile f env { options with maxDepth := d' } = .error e) ∧
    (∀ depth limit, compile f env { options with maxDepth := d } = .error (.tooDeep depth limit) →
      depth = d + 1 ∧ limit = d) ∧
    (f.nodes.size ≤ d → ∀ depth limit, compile f env { options with maxDepth := d } ≠ .error (.tooDeep depth limit)) := by
  refine ⟨fun p hp => ?_, fun e he hother => ?_, fun depth limit hdeep => ?_, fun hsize depth limit hdeep => ?_⟩
  · rcases compile_cut hd with ⟨depth, limit, hdeep⟩ | hsame
    · rw [hdeep] at hp
      cases hp
    · exact hsame.symm.trans hp
  · rcases compile_cut hd with ⟨depth, limit, hdeep⟩ | hsame
    · rw [hdeep] at he
      exact absurd (Except.error.inj he).symm (hother depth limit)
    · exact hsame.symm.trans he
  · obtain ⟨rfl, rfl, -⟩ := compile_tooDeep hdeep
    exact ⟨rfl, rfl⟩
  · obtain ⟨rfl, -, hlt⟩ := compile_tooDeep hdeep
    exact absurd hlt (Nat.not_lt.2 hsize)

/-- Three levels: two negations of the parameter. -/
def twiceNegated : Function where
  params := [.int]
  locals := []
  nodes := #[⟨.param 0, .int⟩, ⟨.unary (.negate .int) 0, .int⟩, ⟨.unary (.negate .int) 1, .int⟩]
  body := 2
  returnType := .int

theorem twiceNegated_minds_depth :
    (compile twiceNegated {} { maxDepth := 2 } = .error (.tooDeep 3 2) ∧
      ∃ p, compile twiceNegated {} { maxDepth := 3 } = .ok p ∧ compile twiceNegated {} { maxDepth := 1000000 } = .ok p) ∧
    compile endlessSum {} { maxDepth := 1 } = .error (.tooDeep 2 1) ∧
    compile endlessSum {} { maxDepth := 2 } = .error (.cycle 1) ∧
    compile endlessSum {} { maxDepth := 1000000 } = .error (.cycle 1) := by
  have hok : compile twiceNegated {} { maxDepth := 3 } =
      .ok { code := #[.neg .int 1 0, .neg .int 1 1, .stop], counts := ⟨2, 0, 0, 0, 0⟩, params := [⟨.int, 0⟩],
            result := some ⟨.int, 1⟩ } := by decide +kernel
  have hcycle : compile endlessSum {} { maxDepth := 2 } = .error (.cycle 1) := by decide +kernel
  obtain ⟨hmore, -⟩ := compile_minds_depth twiceNegated {} {} (show 3 ≤ 1000000 by decide)
  obtain ⟨-, hother, -⟩ := compile_minds_depth endlessSum {} {} (show 2 ≤ 1000000 by decide)
  exact ⟨⟨by decide +kernel, _, hok, hmore _ hok⟩, by decide +kernel, hcycle, hother _ hcycle nofun⟩

end SlotCode
