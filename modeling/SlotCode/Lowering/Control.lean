/-
  SlotCode.Lowering.Control — sequences, blocks, loops, exits and conditionals.

  An exit leaves an open jump with the innermost frame of its block or loop; the jumps
  are patched when the frame closes. An exit that stands where a condition's tail was
  offered turns the tail into its jump, in the polarity of the offer.
-/

import SlotCode.Lowering.Walk

namespace SlotCode.Lowering

def sequence (ctx : Context) (w : Walk) (id first second : NodeId) (hint : Option TypedSlot) (offer : Option Offer) :
    Lower Visited := do
  let _ ← w.effect first
  let target ← ctx.demandedSlot id hint
  return ⟨target, ← w.forward ctx second target offer⟩

/-! ## Blocks and loops -/

/-- Closes the innermost block: its exits go to the next position. -/
def closeBlock : Lower Unit := do
  let s ← get
  match s.blocks with
  | [] => defect .blockUnderflow
  | frame :: rest =>
    set { s with blocks := rest }
    drafting (Drafting.patchAll frame.breaks (.address s.draft.label))

/-- An exit may leave the body before any given node of it has run, so the body is a region. -/
def block (ctx : Context) (w : Walk) (id : NodeId) (block : BlockId) (body : NodeId) (hint : Option TypedSlot) :
    Lower Visited := do
  let target ← ctx.demandedSlot id hint
  modify fun s => { s with blocks := ⟨block, []⟩ :: s.blocks }
  let _ ← inRegion (w.forward ctx body target none)
  closeBlock
  return ⟨target, false⟩

/-- Closes the innermost loop: its exits go to the next position. -/
def closeLoop : Lower Unit := do
  let s ← get
  match s.loops with
  | [] => defect .loopUnderflow
  | frame :: rest =>
    set { s with loops := rest }
    drafting (Drafting.patchAll frame.breaks (.address s.draft.label))

def loop (ctx : Context) (w : Walk) (loop : LoopId) (preheader body : NodeId) : Lower Visited := do
  let _ ← w.effect preheader
  let header ← label
  modify fun s => { s with loops := ⟨loop, header, []⟩ :: s.loops }
  let _ ← inRegion (w.effect body)
  if (← ctx.node body).type ≠ .unreachable then emit (.goto (.address header))
  closeLoop
  return {}

/-! ## Exits -/

/-- The offer, if it is for the next position. -/
def standing (offer : Option Offer) : Lower (Option Offer) := do
  let here ← label
  return offer.filter (·.position = here)

/-- The open jumps of an exit, and whether they took over the offered tail. -/
def exitJumps (offer : Option Offer) : Lower (List Patch × Bool) := do
  match ← standing offer with
  | some o => return (← drafting (o.branch.defer o.polarity), true)
  | none => return ([← gotoPending], false)

def exitBlock (id : NodeId) (block : BlockId) (offer : Option Offer) : Lower Visited := do
  match (← get).blocks.findIdx? (·.block = block) with
  | none => throw (.unknownBlock id block)
  | some i =>
    let (jumps, taken) ← exitJumps offer
    modify fun s => { s with blocks := s.blocks.modify i fun f => { f with breaks := f.breaks ++ jumps } }
    return { taken }

def exitLoop (id : NodeId) (loop : LoopId) (offer : Option Offer) : Lower Visited := do
  match (← get).loops.findIdx? (·.loop = loop) with
  | none => throw (.unknownLoop id loop)
  | some i =>
    let (jumps, taken) ← exitJumps offer
    modify fun s => { s with loops := s.loops.modify i fun f => { f with breaks := f.breaks ++ jumps } }
    return { taken }

def continueLoop (id : NodeId) (loop : LoopId) (offer : Option Offer) : Lower Visited := do
  match (← get).loops.find? (·.loop = loop) with
  | none => throw (.unknownLoop id loop)
  | some frame =>
    match ← standing offer with
    | some o =>
      drafting (o.branch.resolve o.polarity (.address frame.header))
      return { taken := true }
    | none =>
      emit (.goto (.address frame.header))
      return {}

/-! ## Conditionals -/

/-- The offer of a tail at the next position, if tails are adopted at all. -/
def Context.offer (ctx : Context) (position : Nat) (b : Branch) (polarity : Bool) : Option Offer :=
  if ctx.options.adoptTails then some ⟨position, b, polarity⟩ else none

/-- One arm, in a region of its own. -/
def arm (ctx : Context) (w : Walk) (id : NodeId) (target : Option TypedSlot) (offer : Option Offer) : Lower Bool :=
  inRegion (w.forward ctx id target offer)

/-- The else arm after a then arm that emitted nothing: the condition jumps over it when true. -/
def elseOnly (ctx : Context) (w : Walk) (b : Branch) (position : Nat) (elseArm : NodeId) (target : Option TypedSlot) :
    Lower Unit := do
  let taken ← arm ctx w elseArm target (ctx.offer position b false)
  if !taken then drafting (b.resolve true (.address (← label)))

/-- The else arm after a then arm with code of its own, which jumps over it unless it never ends. -/
def bothArms (ctx : Context) (w : Walk) (b : Branch) (thenArm elseArm : NodeId) (target : Option TypedSlot) :
    Lower Unit := do
  let skip ← if (← ctx.node thenArm).type ≠ .unreachable then some <$> gotoPending else pure none
  drafting (b.resolve false (.address (← label)))
  let _ ← arm ctx w elseArm target none
  match skip with
  | some jump => drafting (Drafting.patch jump (.address (← label)))
  | none => pure ()

def conditional (ctx : Context) (w : Walk) (id condition thenArm elseArm : NodeId) (hint : Option TypedSlot) :
    Lower Visited := do
  let target ← ctx.demandedSlot id hint
  let b ← w.condition condition
  let position ← label
  let taken ← arm ctx w thenArm target (ctx.offer position b true)
  if taken then
    -- The then arm left by the condition's own jump, so false falls into the else arm.
    let _ ← arm ctx w elseArm target none
  else if (← label) = position then elseOnly ctx w b position elseArm target
  else bothArms ctx w b thenArm elseArm target
  return ⟨target, false⟩

end SlotCode.Lowering
