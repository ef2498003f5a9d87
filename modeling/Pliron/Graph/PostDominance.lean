/-
  Pliron.Graph.PostDominance

  The reverse of a control-flow graph, and the post-dominator tree.

  A graph may have several exits, or nodes from which no exit can be reached, so
  the reverse graph has a virtual entry, the sentinel.  Its successors are the
  pre-sentinels: one node of each strongly connected component that no edge
  leaves.  The post-dominator tree is the dominator tree of the reverse graph
  without the sentinel.
-/

import Pliron.Graph.Dominance

namespace Pliron

open Traversals

variable {α : Type} [DecidableEq α]

/-! ## Pre-sentinels -/

/-- Map each node to the index of its component. -/
def sccOf (sccs : List (Scc α)) : HMap α Nat :=
  HMap.ofList (sccs.zipIdx.flatMap (fun e => e.1.nodes.map (fun node => (node, e.2))))

/-- A component is a sink if all successors of its nodes are within it. -/
def isSinkScc (g : ControlFlowGraph α) (sccs : List (Scc α)) (e : Scc α × Nat) : Option Bool :=
  e.1.nodes.allM (fun node => (g.successors node).allM (fun succ => do
    let i ← sccOf sccs succ
    some (i = e.2)))

/-- Select the last node, in graph order, from each sink component. -/
def selectNodes (sccs : List (Scc α)) (isSink : List Bool) (nodes : List α)
    (selected : List (Option α)) : Option (List (Option α)) :=
  nodes.foldlM (fun selected node => do
      let scc ← sccOf sccs node
      if (← isSink[scc]?) then some (selected.set scc (some node)) else some selected)
    selected

/-- Finds the pre-sentinels of a graph. -/
def findPreSentinels (g : ControlFlowGraph α) : Option (List α) := do
  let sccs ← sccsInTopologicalOrder g
  let isSink ← sccs.zipIdx.mapM (isSinkScc g sccs)
  let selected ← selectNodes sccs isSink g.nodes (List.replicate sccs.length none)
  some selected.reduceOption

/-! ## The reverse graph -/

/-- A node of the reverse graph: either the sentinel or a node of the original graph. -/
inductive ReverseNode (α : Type) where
  /-- The virtual unified exit of the original graph. -/
  | sentinel
  /-- A node of the original graph. -/
  | real (node : α)
deriving DecidableEq, Repr

/-- The node of the original graph, or `none` for the sentinel. -/
def ReverseNode.intoReal : ReverseNode α → Option α
  | .sentinel => none
  | .real node => some node

/-- The reverse of a graph.  The sentinel forms the entry, with an edge to each
    pre-sentinel. -/
def reverseGraph (g : ControlFlowGraph α) (preSentinels : List α) :
    ControlFlowGraph (ReverseNode α) where
  successors
    | .sentinel => preSentinels.map .real
    | .real n => (g.predecessors n).map .real
  predecessors
    | .sentinel => []
    | .real n => (g.successors n).map .real ++ if n ∈ preSentinels then [.sentinel] else []
  entryNode := some .sentinel
  nodes := .sentinel :: g.nodes.map .real

/-! ## The post-dominator tree -/

/-- The post-dominator tree of a control-flow graph. -/
structure PDomTree (α : Type) where
  preSentinels : List α
  sentinelChildren : List α
  postDominatorsMap : IMap α (DomTreeNode α)
deriving DecidableEq, Repr

namespace Dominance

/-- Remove the sentinel from the tree: a node whose parent is the sentinel gets no parent. -/
def removeSentinel :
    IMap (ReverseNode α) (DomTreeNode (ReverseNode α)) → Option (IMap α (DomTreeNode α))
  | [] => some []
  | (.sentinel, _) :: map => removeSentinel map
  | (.real node, domNode) :: map => do
      let children ← domNode.children.mapM ReverseNode.intoReal
      let map ← removeSentinel map
      some ((node, ⟨domNode.parent.bind ReverseNode.intoReal, children⟩) :: map)

/-- Compute the post-dominator tree of `g`.  `none` is a panic of the source, such as the
    failed assertion that the pre-sentinels make every node reverse-reachable. -/
def computePostDominatorTree (g : ControlFlowGraph α) : Option (PDomTree α) := do
  let preSentinels := (← findPreSentinels g).eraseDups
  if preSentinels.isEmpty then some ⟨preSentinels, [], []⟩
  else do
    let reverseDomTree ← computeDominatorTree (reverseGraph g preSentinels)
    guard (reverseDomTree.dominatorsMap.length = g.nodes.length + 1)
    let children ← reverseDomTree.children .sentinel
    let sentinelChildren ← children.mapM ReverseNode.intoReal
    let postDominatorsMap ← removeSentinel reverseDomTree.dominatorsMap
    some ⟨preSentinels, sentinelChildren, postDominatorsMap⟩

end Dominance

namespace PDomTree

variable (t : PDomTree α)

/-- The walk of `post_dominates` from a node up the tree.  A node outside the tree panics. -/
def postDominatesLoop (postDominator : α) : Nat → Option α → Option Bool
  | _, none => some false
  | 0, some _ => none
  | fuel + 1, some node => do
      let domNode ← t.postDominatorsMap.get? node
      if node = postDominator then some true
      else postDominatesLoop postDominator fuel domNode.parent

/-- Does `postDominator` post-dominate `postDominatee`? -/
def postDominates (postDominator postDominatee : α) : Option Bool :=
  t.postDominatesLoop postDominator t.postDominatorsMap.length (some postDominatee)

/-- Does the tree contain `node`? -/
def contains (node : α) : Bool := t.postDominatorsMap.containsKey node

/-- The immediate post-dominator of a node of the tree; `none` is the sentinel. -/
def ipdom (node : α) : Option (Option α) :=
  (t.postDominatorsMap.get? node).map DomTreeNode.parent

/-- The number of nodes in the tree, not counting the sentinel. -/
def numNodes : Nat := t.postDominatorsMap.length

end PDomTree

end Pliron
