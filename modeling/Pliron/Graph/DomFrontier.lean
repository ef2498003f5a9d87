/-
  Pliron.Graph.DomFrontier

  Dominance frontiers: where the dominance of a node ends.

  For each node with several predecessors, the walk up the dominator tree from
  each predecessor stops at the immediate dominator of the node, and the node is
  in the frontier of every node passed.
-/

import Pliron.Graph.Dominance

namespace Pliron

variable {α : Type} [DecidableEq α]

/-- Maps each node to its dominance frontier. -/
abbrev DomFrontierMap (α : Type) := HMap α (ISet α)

namespace DomFrontierMap

/-- Add `b` to the frontier of `runner`. -/
def insertAt (b : α) (res : DomFrontierMap α) (runner : α) : Option (DomFrontierMap α) := do
  let frontier ← res runner
  some (res.insert runner (frontier.insert b))

/-- Add `b` to the frontiers of the nodes on the way from its predecessor `p` up to `bIdom`. -/
def addPred (t : DomTree α) (b bIdom : α) (res : DomFrontierMap α) (p : α) :
    Option (DomFrontierMap α) := do
  let dominators ← t.dominators p
  (dominators.takeWhile (fun n => n ≠ bIdom)).foldlM (insertAt b) res

/-- Add `b` to the frontiers it is in. -/
def addNode (g : ControlFlowGraph α) (t : DomTree α) (res : DomFrontierMap α) (b : α) :
    Option (DomFrontierMap α) :=
  if ¬ t.contains b ∨ g.numPredecessors b < 2 then some res
  else do
    let parent ← t.idom b
    -- the entry has no immediate dominator
    let bIdom ← parent
    ((g.predecessors b).filter t.contains).foldlM (addPred t b bIdom) res

/-- Construct the dominance frontier map of `g`, given its dominator tree.  `none` is a panic of
    the source. -/
def new (g : ControlFlowGraph α) (t : DomTree α) : Option (DomFrontierMap α) :=
  g.nodes.foldlM (addNode g t) (HMap.ofList (g.nodes.map (fun n => (n, []))))

/-- The set of all nodes in the dominance frontier of `n`. -/
def frontier (map : DomFrontierMap α) (n : α) : Option (ISet α) := map n

end DomFrontierMap

end Pliron
