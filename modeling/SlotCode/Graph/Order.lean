/-
  SlotCode.Graph.Order — the nodes reachable from a body, parents first.

  A depth-first walk enters each node once, visits its children in the order in which
  they run, and puts the node in front of all nodes finished before it. On a graph
  without cycles every node then stands before its children; on a cycle every node still
  stands in the list once.
-/

import SlotCode.Graph.Node

namespace SlotCode

/-- A walk so far: the nodes entered, and those finished, last finished first. -/
structure Trail where
  entered : Array Bool
  finished : List NodeId
  deriving Repr

/-- Walks from `id`. A path without repetition is no longer than the arena, so the bound never cuts
    one short when it starts at the arena's size. -/
def Trail.walk (f : Function) : Nat → Trail → NodeId → Trail
  | 0, t, _ => t
  | n + 1, t, id =>
    if t.entered.getD id false then t
    else
      let t := (f.children id).foldl (Trail.walk f n) { t with entered := t.entered.setIfInBounds id true }
      { t with finished := id :: t.finished }

/-- The reachable nodes. A position outside the arena stands in the list when some node names it. -/
def Function.order (f : Function) : List NodeId :=
  (Trail.walk f (f.nodes.size + 1) ⟨Array.replicate f.nodes.size false, []⟩ f.body).finished

end SlotCode
