/-
  SlotCode.Lowering.State — the books that lowering keeps.

  Every node is untouched, underway or built. A built node remembers the slot of its
  value, until that slot goes back to the pool, and the region its code runs in. Readers
  of a value announce themselves (`alloc`) before they lower it and say when they are done
  (`release`); the slot goes back when no reader is pending and no read is still to come,
  unless the slot is borrowed: a hint of the consumer, a parameter or a variable.

  A region is a stretch of code that runs only on some paths: an arm, the body of a block
  or loop, the right operand of a short-circuit operator. The open regions form a stack.

  The numbers of regions, texts and call sites, like those of slots, have no end here; they
  are kept in 32 bits, so at most 2^32 of each are meant.
-/

import SlotCode.Code.Branch
import SlotCode.Code.Program
import SlotCode.Host.Environment
import SlotCode.Lowering.Error

namespace SlotCode

structure CompileOptions where
  /-- How deep nodes may be nested. -/
  maxDepth : Nat := 256
  /-- Whether an exit may take over the tail of the condition that it follows; otherwise every exit
      has a jump of its own. -/
  adoptTails : Bool := true
  deriving DecidableEq, Repr

namespace Lowering

abbrev Region := Nat

/-- The region that every path runs through. -/
def wholeFunction : Region := 0

inductive Progress where
  | untouched
  | underway
  | built (slot : Option TypedSlot) (region : Region)
  deriving DecidableEq, Repr

structure NodeState where
  progress : Progress := .untouched
  /-- The readers announced and not done. -/
  pending : Nat := 0
  borrowed : Bool := false
  deriving DecidableEq, Repr, Inhabited

/-- The open jumps that leave a block. -/
structure BlockFrame where
  block : BlockId
  breaks : List Patch
  deriving DecidableEq, Repr

structure LoopFrame where
  loop : LoopId
  header : Nat
  breaks : List Patch
  deriving DecidableEq, Repr

/-- What stays fixed: the function, what its names mean, and where parameters and variables live. -/
structure Context where
  function : Function
  env : Environment
  options : CompileOptions
  params : List TypedSlot
  vars : List TypedSlot

/-- The texts of a program in the order they came up, and the number of each. -/
structure TextTable where
  texts : Array String
  /-- The number of each text, newest first. -/
  numbers : List (String × Nat)
  /-- A text is found under its number, and the number under the text. -/
  inverse : ∀ text index, numbers.lookup text = some index ↔ texts[index]? = some text
  deriving Repr

namespace TextTable

def empty : TextTable := ⟨#[], [], by simp⟩

/-- A text that has no number yet gets the next one. -/
def add (t : TextTable) (text : String) (h : t.numbers.lookup text = none) : TextTable where
  texts := t.texts.push text
  numbers := (text, t.texts.size) :: t.numbers
  inverse other index := by
    have hnew : t.texts[index]? ≠ some text := fun hat => by simpa [h] using (t.inverse text index).2 hat
    rw [Array.getElem?_push, List.lookup_cons]
    by_cases hother : other = text
    · subst hother
      by_cases hindex : index = t.texts.size
      · simp [hindex]
      · simp [hindex, Ne.symm hindex, hnew]
    · have hne : (other == text) = false := by simpa using hother
      rw [hne]
      by_cases hindex : index = t.texts.size
      · simp [hindex, t.inverse, Ne.symm hother]
      · simp [hindex, t.inverse]

/-- The number of a text; equal texts share one. -/
def intern (t : TextTable) (text : String) : Nat × TextTable :=
  match h : t.numbers.lookup text with
  | some index => (index, t)
  | none => (t.texts.size, t.add text h)

end TextTable

structure State where
  demand : Demand
  pool : Pool
  draft : Draft := {}
  nodes : Array NodeState
  /-- The open blocks, innermost first. -/
  blocks : List BlockFrame := []
  /-- The open loops, innermost first. -/
  loops : List LoopFrame := []
  /-- The open regions, innermost first. -/
  regions : List Region := [wholeFunction]
  nextRegion : Region := wholeFunction + 1
  table : TextTable := .empty
  sites : Array CallSite := #[]
  deriving Repr

/-- The texts met so far. -/
def State.texts (s : State) : Array String := s.table.texts

def State.node (s : State) (id : NodeId) : NodeState := s.nodes.getD id {}

def State.setNode (s : State) (id : NodeId) (n : NodeState) : State :=
  { s with nodes := s.nodes.setIfInBounds id n }

/-- A step of lowering. -/
abbrev Lower := StateT State (Except BuildError)

def defect {α : Type} (d : Defect) : Lower α := throw (.internal d)

/-! ## Nodes -/

def Context.node (ctx : Context) (id : NodeId) : Lower Node :=
  match ctx.function.node? id with
  | some n => pure n
  | none => throw (.missing (.node id))

def nodeState (id : NodeId) : Lower NodeState := return (← get).node id

def setProgress (id : NodeId) (p : Progress) : Lower Unit :=
  modify fun s => s.setNode id { s.node id with progress := p }

def borrow (id : NodeId) : Lower Unit := modify fun s => s.setNode id { s.node id with borrowed := true }

def isDemanded (id : NodeId) : Lower Bool := return (← get).demand.isDemanded id

/-- Uses up one consumer of a node. -/
def consume (id : NodeId) (u : Usage) : Lower Unit := do
  let s ← get
  match s.demand.consume id u with
  | .ok (_, demand) => set { s with demand }
  | .error (.mismatch node usage) => defect (.countMismatch node usage)
  | .error (.missing node) => throw (.missing (.node node))

/-- The node's type has the partition that `expected` has. -/
def Context.expectType (ctx : Context) (id : NodeId) (expected : ValueType) : Lower Unit := do
  let found := (← ctx.node id).type
  if found.kind? ≠ expected.kind? then throw (.typeMismatch id (.unexpected expected found))

/-! ## Regions -/

def currentRegion : Lower Region := return (← get).regions.headD wholeFunction

def openRegion : Lower Region :=
  modifyGet fun s => (s.nextRegion, { s with regions := s.nextRegion :: s.regions, nextRegion := s.nextRegion + 1 })

def closeRegion (r : Region) : Lower Unit := do
  let s ← get
  match s.regions with
  | top :: rest => if top = r then set { s with regions := rest } else defect .regionOrder
  | [] => defect .regionOrder

/-- Lowers something in a region of its own. -/
def inRegion {α : Type} (act : Lower α) : Lower α := do
  let r ← openRegion
  let a ← act
  closeRegion r
  return a

/-! ## Slots -/

def acquire (k : Kind) : Lower TypedSlot :=
  modifyGet fun s =>
    let (slot, pool) := s.pool.acquire k
    (⟨k, slot⟩, { s with pool })

def releaseSlot (t : TypedSlot) : Lower Unit := do
  let s ← get
  match s.pool.release t.kind t.slot with
  | .ok pool => set { s with pool }
  | .error e => defect (.pool e)

/-- Announces a reader of a node's value. -/
def alloc (id : NodeId) : Lower Unit :=
  modify fun s => s.setNode id { s.node id with pending := (s.node id).pending + 1 }

/-- Gives the slot of a built node back. -/
def vacate (id : NodeId) : Lower Unit := do
  match (← nodeState id).progress with
  | .built (some slot) region =>
    releaseSlot slot
    setProgress id (.built none region)
  | _ => pure ()

/-- A reader is done; the last one gives the slot back. -/
def release (id : NodeId) : Lower Unit := do
  let n ← nodeState id
  if n.pending = 0 then defect (.overReleased id)
  else
    modify (·.setNode id { n with pending := n.pending - 1 })
    if n.pending = 1 ∧ (← get).demand.valuesLeft id = 0 ∧ n.borrowed = false then vacate id

/-- Where the node's value goes: the hinted slot if the node has one consumer only and the kinds
    agree, else a slot of its own. -/
def Context.resultSlot (ctx : Context) (id : NodeId) (hint : Option TypedSlot) : Lower TypedSlot := do
  match ctx.function.kind? id with
  | none => defect (.noValueType id)
  | some kind =>
    match hint with
    | some h =>
      if h.kind = kind ∧ (← get).demand.total id = 1 then
        borrow id
        return h
      else acquire kind
    | none => acquire kind

/-- A slot for the node's value if someone reads it. -/
def Context.demandedSlot (ctx : Context) (id : NodeId) (hint : Option TypedSlot) : Lower (Option TypedSlot) := do
  if ← isDemanded id then some <$> ctx.resultSlot id hint else return none

/-! ## Code -/

/-- Edits the code; an edit that fails is a defect. -/
def drafting {α : Type} (act : Drafting α) : Lower α := do
  let s ← get
  match act.run s.draft with
  | .ok a draft =>
    set { s with draft }
    return a
  | .error e _ => defect (.draft e)

def emit (i : Instruction) : Lower Unit := drafting (Drafting.add i)

def label : Lower Nat := drafting Drafting.label

/-- A jump to be patched later. -/
def gotoPending : Lower Patch := drafting (Drafting.addJump (.goto .pending))

/-- The number of a text constant. -/
def intern (text : String) : Lower Nat :=
  modifyGet fun s =>
    let (index, table) := s.table.intern text
    (index, { s with table })

def addSite (site : CallSite) : Lower Nat :=
  modifyGet fun s => (s.sites.size, { s with sites := s.sites.push site })

end Lowering

end SlotCode
