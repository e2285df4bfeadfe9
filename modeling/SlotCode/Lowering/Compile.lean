/-
  SlotCode.Lowering.Compile — a function becomes a program in one depth-first walk.

  The walk lowers each node where it is first reached; a later reader gets the slot of
  the value, provided that the region its code runs in is still open. Every visit uses up
  one consumer that the analysis counted. The room for nested nodes is the size of the
  arena: a node already underway is a cycle, so no path is longer.
-/

import SlotCode.Lowering.Access
import SlotCode.Lowering.Control

namespace SlotCode

namespace Lowering

/-! ## One node -/

/-- The code of one node. -/
def visit (ctx : Context) (w : Walk) (id : NodeId) (hint : Option TypedSlot) (offer : Option Offer) :
    Lower Visited := do
  let e := (← ctx.node id).expr
  match e with
  | .sequence first second => sequence ctx w id first second hint offer
  | .block name body => block ctx w id name body hint
  | .exitBlock name => exitBlock id name offer
  | .loop name preheader body => loop ctx w name preheader body
  | .exitLoop name => exitLoop id name offer
  | .continueLoop name => continueLoop id name offer
  | .conditional condition thenArm elseArm => conditional ctx w id condition thenArm elseArm hint
  | .nullary op => nullary ctx id hint op
  | .unary op operand => unary ctx w id op operand hint
  | .binary op first second => binary ctx w id op first second hint
  | .const value => constant ctx id hint (.const · value)
  | .text value => text ctx id value hint
  | .param index => param ctx id index
  | .getVar index => getVar ctx id index
  | .setVar index value => setVar ctx w id index value
  | .getField field object => getField ctx w id field object hint
  | .getStatic field => getStatic ctx id field hint
  | .call method kind args => call ctx w id method kind args hint
  | .arrayElement array index => arrayElement ctx w id array index hint
  | .setArrayElement array index value => setArrayElement ctx w array index value
  | .cast value className => cast ctx w id value className hint
  | .instanceOf value className => instanceOf ctx w id value className hint
  | .boundsCheck index array lower => boundsCheck ctx w id index array lower hint
  | .setField .. | .setStatic .. | .raise .. | .tryCatch .. | .caughtValue | .caughtException
  | .newObject .. | .newArray .. | .tuple .. | .tupleComponent .. => throw (.unsupported id e.name)

/-- The region in which the value of an expression lowered now exists; a fixed slot holds a value
    everywhere. -/
def regionOf : Expr → Lower Region
  | .param _ | .getVar _ => return wholeFunction
  | _ => currentRegion

/-- Lowers a node at nesting depth `depth`: before, it is marked as underway; after, as built. -/
def entering {α : Type} (ctx : Context) (depth : Nat) (id : NodeId) (slot : α → Option TypedSlot) (act : Lower α) :
    Lower α := do
  if depth + 1 > ctx.options.maxDepth then throw (.tooDeep (depth + 1) ctx.options.maxDepth)
  else
    setProgress id .underway
    let a ← act
    setProgress id (.built (slot a) (← regionOf (← ctx.node id).expr))
    return a

/-- A value usage has a slot. -/
def checkSlot (id : NodeId) (u : Usage) (v : Visited) : Lower Visited :=
  if u = .value ∧ v.slot = none then defect (.noValueSlot id) else pure v

/-- Lowers a node, if that has not been done; its children are lowered by `inner`. -/
def build (ctx : Context) (depth : Nat) (inner : Walk) (id : NodeId) (u : Usage) (hint : Option TypedSlot)
    (offer : Option Offer) : Lower Visited := do
  match (← nodeState id).progress with
  | .underway => throw (.cycle id)
  | .built slot region =>
    if u = .value ∧ region ∉ (← get).regions then throw (.sharedAcrossBranches id)
    else
      consume id u
      checkSlot id u { slot }
  | .untouched =>
    consume id u
    checkSlot id u (← entering ctx depth id (·.slot) (visit ctx inner id hint offer))

/-- Lowers a boolean node for branching; its children are lowered by `inner`. -/
def condition (ctx : Context) (depth : Nat) (inner : Walk) (id : NodeId) : Lower Branch := do
  ctx.expectType id .boolean
  match ← ctx.composable? id with
  | some c =>
    consume id .value
    entering ctx depth id (fun _ => none) (compose inner c)
  | none => branchOn { inner with build := build ctx depth inner } id

/-! ## The walk -/

/-- Lowers nodes at nesting depth `depth`; `room` bounds how much deeper the walk may go. Where there is
    no room, every node of the arena is underway. -/
def walk (ctx : Context) : (room depth : Nat) → Walk
  | 0, _ => ⟨fun id _ _ _ => throw (.cycle id), fun id => throw (.cycle id)⟩
  | room + 1, depth =>
    let inner := walk ctx room (depth + 1)
    ⟨build ctx depth inner, condition ctx depth inner⟩

/-! ## A whole function -/

/-- A fixed slot for each type, in order; the types are numbered from `index`. -/
def fixedSlots (body : NodeId) (cause : Nat → ValueType → Mismatch) :
    (index : Nat) → List ValueType → Pool → Except BuildError (List TypedSlot × Pool)
  | _, [], pool => .ok ([], pool)
  | index, type :: rest, pool =>
    match type.kind? with
    | none => .error (.typeMismatch body (cause index type))
    | some kind => do
      let (slot, pool) := pool.reserve kind
      let (slots, pool) ← fixedSlots body cause (index + 1) rest pool
      return (⟨kind, slot⟩ :: slots, pool)

/-- How the body is used: for its value, or, in a function without a value and for a body that never
    ends, for its effects. -/
def bodyUsage (f : Function) : Except BuildError Usage :=
  match f.node? f.body with
  | none => .error (.missing (.node f.body))
  | some body =>
    match f.returnType.kind?, body.type.kind? with
    | none, _ => .ok .ignore
    | some wanted, some found =>
      if wanted = found then .ok .value else .error (.typeMismatch f.body (.body f.returnType body.type))
    | some _, none =>
      if body.type = .unreachable then .ok .ignore else .error (.typeMismatch f.body (.body f.returnType body.type))

/-- The result has a slot of its own: a value in a fixed slot is moved out of it. -/
def resultBinding (ctx : Context) : Option TypedSlot → Lower (Option TypedSlot)
  | none => return none
  | some slot => do
    if slot ∈ ctx.params ∨ slot ∈ ctx.vars then
      let result ← acquire slot.kind
      emit (.move slot.kind result.slot slot.slot)
      return some result
    else return some slot

/-- Lowers the body and ends the code. -/
def lowerBody (ctx : Context) (u : Usage) : Lower (Option TypedSlot) := do
  let v ← (walk ctx (ctx.function.nodes.size + 1) 0).build ctx.function.body u none none
  let result ← resultBinding ctx v.slot
  emit .stop
  let live := (← get).pool.liveCount
  if live = result.toList.length then return result else defect (.slotsLeft live)

/-- The program of a finished walk. -/
def finish (ctx : Context) (s : State) (result : Option TypedSlot) : Except BuildError Program :=
  match s.draft.finish with
  | .ok code => .ok ⟨code, s.pool.counts, s.texts, s.sites, ctx.params, ctx.vars, result⟩
  | .error e => .error (.ofUnfinished e)

end Lowering

/-- Lowers a function; every name that it refers to is resolved against `env`. -/
def compile (f : Function) (env : Environment) (options : CompileOptions) : Except BuildError Program := do
  let demand ← (Demand.analyze f).mapError .missing
  let (params, pool) ← Lowering.fixedSlots f.body .parameter 0 f.params Pool.empty
  let (vars, pool) ← Lowering.fixedSlots f.body .localVariable 0 f.locals pool
  let u ← Lowering.bodyUsage f
  let ctx : Lowering.Context := ⟨f, env, options, params, vars⟩
  let (result, s) ← (Lowering.lowerBody ctx u).run { demand, pool, nodes := Array.replicate f.nodes.size {} }
  Lowering.finish ctx s result

end SlotCode
