/-
  Pliron.Graph.ControlDependence

  Control dependence between the edges and the nodes of a control-flow graph:
  the construction by walks up the post-dominator tree, and the queries.

  A node `X` depends on the edge `(B, S)` if `X` post-dominates `S` and does not
  strictly post-dominate `B`.
-/

import Pliron.Graph.PostDominance
import Pliron.Lib.Worklist

namespace Pliron

open Pliron.Lib

variable {α : Type} [DecidableEq α]

/-- An edge, identified by its source and successor index. -/
structure CfgEdge (α : Type) where
  /-- The source of the edge. -/
  source : α
  /-- The index of the edge in the list of successors of the source. -/
  successorIndex : Nat
deriving DecidableEq, Repr

/-- Control dependence for a graph. -/
structure ControlDependence (α : Type) where
  /-- For each node one list of dependents per successor, in order. -/
  edgeDependents : IMap α (List (List α))
  /-- The controlling edges of each node, in construction order. -/
  controllingEdges : HMap α (List (CfgEdge α))

namespace ControlDependence

/-! ## The construction -/

/-- Walk up the tree from `runner` until `stop`: the nodes passed, and their controlling edges
    with `edge` added.  The walk panics if it passes the sentinel, which is `none`. -/
def walkUp (t : PDomTree α) (edge : CfgEdge α) (stop : Option α) :
    Nat → Option α → HMap α (List (CfgEdge α)) →
    Option (List α × HMap α (List (CfgEdge α)))
  | fuel, runner, controllingEdges =>
      if runner = stop then some ([], controllingEdges)
      else match fuel, runner with
        | fuel + 1, some node => do
            let edges ← controllingEdges node
            let controllingEdges := controllingEdges.insert node (edges ++ [edge])
            let runner ← t.ipdom node
            let (dependents, controllingEdges) ← walkUp t edge stop fuel runner controllingEdges
            some (node :: dependents, controllingEdges)
        | _, _ => none

/-- Compute the dependents of the edge to the successor of `source` at `successorIndex`. -/
def addEdge (g : ControlFlowGraph α) (t : PDomTree α) (source : α) (stop : Option α)
    (dependence : ControlDependence α) (successorIndex : Nat) : Option (ControlDependence α) := do
  let runner ← g.getSuccessor source successorIndex
  let (dependents, controllingEdges) ←
    walkUp t ⟨source, successorIndex⟩ stop (t.numNodes + 1) (some runner)
      dependence.controllingEdges
  guard (dependence.edgeDependents.containsKey source)
  some ⟨dependence.edgeDependents.modify source (fun lists => lists ++ [dependents]),
    controllingEdges⟩

/-- Compute the dependents of the edges of `source`. -/
def addSource (g : ControlFlowGraph α) (t : PDomTree α) (dependence : ControlDependence α)
    (source : α) : Option (ControlDependence α) := do
  let stop ← t.ipdom source
  (List.range (g.numSuccessors source)).foldlM (addEdge g t source stop) dependence

/-- Computes direct control dependence.  `none` is a panic of the source. -/
def computeControlDependence (g : ControlFlowGraph α) (t : PDomTree α) :
    Option (ControlDependence α) := do
  guard (∀ node ∈ g.nodes, t.contains node)
  let dependence : ControlDependence α := g.nodes.foldl
    (fun dependence node => ⟨dependence.edgeDependents.insert node [],
      dependence.controllingEdges.insert node []⟩)
    ⟨[], fun _ => none⟩
  guard (t.numNodes = dependence.edgeDependents.length)
  g.nodes.foldlM (addSource g t) dependence

/-! ## Queries -/

variable (d : ControlDependence α)

/-- Does the analysis contain `block`? -/
def contains (block : α) : Bool := d.edgeDependents.containsKey block

/-- The number of nodes of the graph. -/
def numNodes : Nat := d.edgeDependents.length

/-- The nodes directly dependent on an edge. -/
def dependentsOfEdge (source : α) (successorIndex : Nat) : Option (List α) := do
  let lists ← d.edgeDependents.get? source
  lists[successorIndex]?

/-- The edges that directly control `block`. -/
def directControllingEdges (block : α) : Option (List (CfgEdge α)) := d.controllingEdges block

/-- The distinct nodes that directly control `block`. -/
def directControllers (block : α) : Option (ISet α) := do
  let edges ← d.directControllingEdges block
  some (ISet.extend [] (edges.map CfgEdge.source))

/-- The distinct nodes directly dependent on `controller`. -/
def directDependents (controller : α) : Option (ISet α) := do
  let lists ← d.edgeDependents.get? controller
  some (ISet.extend [] lists.flatten)

/-- The direction of a transitive query. -/
inductive Direction where
  | controllers
  | dependents
deriving DecidableEq, Repr

/-- The direct controllers, or the direct dependents. -/
def direct (direction : Direction) (block : α) : Option (ISet α) :=
  match direction with
  | .controllers => d.directControllers block
  | .dependents => d.directDependents block

/-- Collects direct and indirect controllers or dependents of `start`.  The set is also the
    queue of nodes to be processed. -/
def transitiveNodes (start : α) (direction : Direction) : Option (ISet α) := do
  let reached ← d.direct direction start
  saturate (d.direct direction) d.numNodes 0 reached

/-- All nodes that control `block`, directly or through other nodes. -/
def transitiveControllers (block : α) : Option (ISet α) := d.transitiveNodes block .controllers

/-- All nodes controlled by `controller`, directly or through other nodes. -/
def transitiveDependents (controller : α) : Option (ISet α) :=
  d.transitiveNodes controller .dependents

/-- Is `dependent` directly control dependent on `controller`? -/
def isDirectlyControlDependent (dependent controller : α) : Option Bool := do
  guard (d.contains controller)
  let edges ← d.directControllingEdges dependent
  some (edges.any (fun edge => edge.source = controller))

/-- Is `dependent` directly or indirectly control dependent on `controller`?  The search goes
    through direct and indirect controllers, visiting each node at most once, and compares
    before it skips a visited node. -/
def isTransitivelyControlDependent (dependent controller : α) : Option Bool := do
  guard (d.contains controller)
  searchFor (fun block => (d.controllingEdges block).map (fun edges => edges.map CfgEdge.source))
    controller d.numNodes [dependent] [dependent]

end ControlDependence

end Pliron
