/-
  SlotCode.Graph.Demand — how often each node is consumed, and by whom its value is read.

  Every reference from a reachable parent is a consumer, and so is the caller of the
  function for its body. A consumer either reads the value or ignores it: an `effect`
  edge never reads, an `operand` always does, a `forward` edge reads when the parent is
  demanded, and nothing reads a node whose type has no values. The counts are used up
  one consumer at a time (`consume`), which fails, and then changes nothing, as soon as a
  consumer appears that was not counted.

  The counts have no end here. They are kept in 32 bits, so what is said of them is said of
  functions in which every node has fewer than 2^32 references.
-/

import SlotCode.Missing
import SlotCode.Graph.Order

namespace SlotCode

/-- How a consumer uses a node. -/
inductive Usage where
  | value
  | ignore
  deriving DecidableEq, Repr

def Usage.name : Usage → String
  | .value => "Value"
  | .ignore => "Ignore"

/-- The consumers counted for one node. -/
structure Tally where
  total : Nat := 0
  /-- The consumers that ignore the value. -/
  ignored : Nat := 0
  /-- Whether some consumer counted so far reads the value. -/
  read : Bool := false
  /-- Whether the node was read when its own edges were counted. -/
  demanded : Bool := false
  deriving DecidableEq, Repr, Inhabited

/-- The consumers of one node that have not come yet. -/
structure Left where
  consumers : Nat := 0
  values : Nat := 0
  deriving DecidableEq, Repr, Inhabited

structure Demand where
  tallies : Array Tally
  left : Array Left
  deriving Repr

inductive ConsumeError where
  /-- The node was consumed more often, or in another way, than was counted. -/
  | mismatch (node : NodeId) (usage : Usage)
  | missing (node : NodeId)
  deriving DecidableEq, Repr

/-! ## The analysis -/

/-- One more consumer, which reads the value or not. -/
def Tally.count (t : Tally) (reads : Bool) : Tally :=
  if reads then { t with total := t.total + 1, read := true }
  else { t with total := t.total + 1, ignored := t.ignored + 1 }

/-- Whether an edge reads its child. -/
def Function.reads (f : Function) (parentDemanded : Bool) (child : NodeId) (edge : Edge) : Bool :=
  (match edge with
    | .effect => false
    | .forward => parentDemanded
    | .operand => true) && (f.kind? child).isSome

/-- The caller reads the body when both the function and the body have values. -/
def Function.bodyRead (f : Function) : Bool := f.returnType.kind?.isSome && (f.kind? f.body).isSome

def countAt (ts : Array Tally) (id : NodeId) (reads : Bool) : Array Tally := ts.modify id (·.count reads)

/-- Settles whether a node is demanded, then counts the edges that leave it. -/
def Function.countEdges (f : Function) (ts : Array Tally) (id : NodeId) : Array Tally :=
  match f.node? id with
  | some n =>
    let demanded := (ts.getD id {}).read
    n.expr.edges.foldl (fun ts (child, edge) => countAt ts child (f.reads demanded child edge))
      (ts.modify id ({ · with demanded }))
  | none => ts

/-- The consumers of every node, parents counted before their children. -/
def Function.tallies (f : Function) : Array Tally :=
  f.order.foldl f.countEdges (countAt (Array.replicate f.nodes.size {}) f.body f.bodyRead)

namespace Demand

/-- Fails when the function names a node outside its arena. -/
def analyze (f : Function) : Except Missing Demand :=
  match f.order.find? (fun id => f.nodes.size ≤ id) with
  | some id => .error (.node id)
  | none => .ok ⟨f.tallies, f.tallies.map fun t => ⟨t.total, t.total - t.ignored⟩⟩

def tally (d : Demand) (id : NodeId) : Tally := d.tallies.getD id {}

def total (d : Demand) (id : NodeId) : Nat := (d.tally id).total

def ignored (d : Demand) (id : NodeId) : Nat := (d.tally id).ignored

def isDemanded (d : Demand) (id : NodeId) : Bool := (d.tally id).demanded

/-- The reads of the value that have not come yet. -/
def valuesLeft (d : Demand) (id : NodeId) : Nat := (d.left.getD id {}).values

end Demand

/-! ## Using the counts up -/

/-- `none` when no consumer of this usage is left. -/
def Left.take (l : Left) : Usage → Option Left
  | .value => if 0 < l.consumers ∧ 0 < l.values then some ⟨l.consumers - 1, l.values - 1⟩ else none
  | .ignore => if 0 < l.consumers ∧ l.values ≤ l.consumers - 1 then some ⟨l.consumers - 1, l.values⟩ else none

/-- Uses up one consumer of a node; gives how many are left. -/
def Demand.consume (d : Demand) (id : NodeId) (u : Usage) : Except ConsumeError (Nat × Demand) :=
  match d.left[id]? with
  | none => .error (.missing id)
  | some l =>
    match l.take u with
    | some l => .ok (l.consumers, { d with left := d.left.setIfInBounds id l })
    | none => .error (.mismatch id u)

end SlotCode
