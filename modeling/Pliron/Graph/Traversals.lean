/-
  Pliron.Graph.Traversals

  Control-flow-graph traversals: the post-order walk of one component and the
  depth-first numbering of the nodes reachable from the entry.

  Both are loops over an explicit stack of (node, index of the next successor)
  pairs.  They are stated with the fuel that bounds the number of iterations,
  `walkFuel`, and each is a refinement of the search of `Pliron.Lib.Dfs`: the
  walk keeps that machine's lists directly, the numbering keeps two counters
  and an insertion-ordered map from nodes to numbers.
-/

import Pliron.Graph.Basic
import Pliron.Utils.Table

namespace Pliron

open Pliron.Lib

variable {α : Type} [DecidableEq α]

namespace Traversals

/-! ## Post-order walk -/

/-- The loop of `post_order_walk_component`. -/
def postOrderLoop (g : ControlFlowGraph α) :
    Nat → List (α × Nat) → List α → List α → List α × List α
  | 0, _, seenNodes, po => (seenNodes, po)
  | _ + 1, [], seenNodes, po => (seenNodes, po)
  | fuel + 1, (node, succIdx) :: stack, seenNodes, po =>
      match g.getSuccessor node succIdx with
      | some succ =>
          if succ ∈ seenNodes then
            postOrderLoop g fuel ((node, succIdx + 1) :: stack) seenNodes po
          else
            postOrderLoop g fuel ((succ, 0) :: (node, succIdx + 1) :: stack)
              (seenNodes ++ [succ]) po
      | none => postOrderLoop g fuel stack seenNodes (po ++ [node])

/-- The number of iterations a walk can take: one for each edge, one for each node. -/
def walkFuel (g : ControlFlowGraph α) : Nat :=
  (g.nodes.map (fun n => g.numSuccessors n + 1)).sum

/-- Append the nodes reachable from `node` and not seen yet to `po`, in post-order. -/
def postOrderWalkComponent (g : ControlFlowGraph α) (node : α) (seenNodes po : List α) :
    List α × List α :=
  if node ∈ seenNodes then (seenNodes, po)
  else postOrderLoop g (walkFuel g) [(node, 0)] (seenNodes ++ [node]) po

/-- Post-order of the nodes of each component, in the order of the components' first nodes. -/
def postOrderByComponent (g : ControlFlowGraph α) : List (List α) :=
  (g.nodes.foldl
    (fun acc node =>
      let (seen, po) := postOrderWalkComponent g node acc.1 []
      (seen, if po.isEmpty then acc.2 else acc.2 ++ [po]))
    ([], [])).2

/-- Reverse post-order of the nodes of each component. -/
def topologicalOrderByComponent (g : ControlFlowGraph α) : List (List α) :=
  (g.nodes.foldl
    (fun acc node =>
      let (seen, po) := postOrderWalkComponent g node acc.1 []
      (seen, if po.isEmpty then acc.2 else acc.2 ++ [po.reverse]))
    ([], [])).2

/-! ## Depth-first numbering -/

/-- The pre-order, post-order and reverse post-order numbers of a node. -/
structure DFSNumber where
  preOrderNumber : Nat
  postOrderNumber : Nat
  reversePostOrderNumber : Nat
deriving DecidableEq, Repr

/-- Edge kind in a depth-first traversal. -/
inductive DFSEdgeKind where
  | forward
  | back
  | cross
deriving DecidableEq, Repr

/-- A depth-first traversal: an insertion-ordered map from the nodes to their numbers. -/
structure DFSTraversal (α : Type) where
  tree : IMap α DFSNumber

namespace DFSTraversal

/-- The loop of `dfs_walk`, on the stack, the two counters and the map. -/
def dfsLoop (g : ControlFlowGraph α) :
    Nat → List (α × Nat) → Nat → Nat → IMap α DFSNumber → IMap α DFSNumber
  | 0, _, _, _, result => result
  | _ + 1, [], _, _, result => result
  | fuel + 1, (node, succIdx) :: stack, preOrder, postOrder, result =>
      match g.getSuccessor node succIdx with
      | some succ =>
          if result.containsKey succ then
            dfsLoop g fuel ((node, succIdx + 1) :: stack) preOrder postOrder result
          else
            dfsLoop g fuel ((succ, 0) :: (node, succIdx + 1) :: stack) (preOrder + 1) postOrder
              (result.insert succ ⟨preOrder, 0, 0⟩)
      | none =>
          dfsLoop g fuel stack preOrder (postOrder + 1)
            (result.modify node (fun n => { n with postOrderNumber := postOrder }))

/-- Number the nodes reachable from `node`. -/
def dfsWalk (g : ControlFlowGraph α) (node : α) : IMap α DFSNumber :=
  dfsLoop g (walkFuel g) [(node, 0)] 1 0 [(node, ⟨0, 0, 0⟩)]

/-- Perform a depth-first traversal of the graph from its entry node. -/
def new (g : ControlFlowGraph α) : DFSTraversal α :=
  let result := match g.entryNode with
    | some entry => dfsWalk g entry
    | none => []
  ⟨result.map (fun e =>
    (e.1, { e.2 with reversePostOrderNumber := result.length - 1 - e.2.postOrderNumber }))⟩

/-- The pre-order number of a node. -/
def preOrderNumber (t : DFSTraversal α) (node : α) : Option Nat :=
  (t.tree.get? node).map DFSNumber.preOrderNumber

/-- The post-order number of a node. -/
def postOrderNumber (t : DFSTraversal α) (node : α) : Option Nat :=
  (t.tree.get? node).map DFSNumber.postOrderNumber

/-- The reverse post-order number of a node. -/
def reversePostOrderNumber (t : DFSTraversal α) (node : α) : Option Nat :=
  (t.tree.get? node).map DFSNumber.reversePostOrderNumber

/-- The kind of an edge.  `none` is a failed assertion, or an unreachable node. -/
def edgeKind (t : DFSTraversal α) (source target : α) : Option DFSEdgeKind := do
  let fromPre ← t.preOrderNumber source
  let fromPost ← t.postOrderNumber source
  let toPre ← t.preOrderNumber target
  let toPost ← t.postOrderNumber target
  guard ((fromPre = toPre) ↔ (fromPost = toPost))
  if fromPre = toPre then
    some .back
  else if fromPre < toPre then
    guard (fromPost > toPost)
    some .forward
  else if fromPost < toPost then
    some .back
  else
    some .cross

/-- Place the nodes in a vector at the positions their numbers say. -/
def order (t : DFSTraversal α) (number : DFSNumber → Nat) : Option (List α) :=
  (t.tree.foldl (fun nodes e => nodes.set (number e.2) (some e.1))
    (List.replicate t.tree.length none)).mapM id

/-- The nodes reachable from the entry in post-order. -/
def postOrder (t : DFSTraversal α) : Option (List α) := t.order DFSNumber.postOrderNumber

/-- The nodes reachable from the entry in reverse post-order. -/
def reversePostOrder (t : DFSTraversal α) : Option (List α) :=
  t.order DFSNumber.reversePostOrderNumber

/-- The nodes reachable from the entry in pre-order. -/
def preOrder (t : DFSTraversal α) : Option (List α) := t.order DFSNumber.preOrderNumber

end DFSTraversal

/-! ## Strongly connected components -/

/-- A strongly connected component of a graph. -/
structure Scc (α : Type) where
  /-- The nodes in this component. -/
  nodes : List α
  /-- Is there a cycle within this component? -/
  isCyclic : Bool
deriving DecidableEq, Repr

/-- The variables of `sccs_in_topological_order`.  Of the two stacks the tops come first. -/
structure SccState (α : Type) where
  indexOf : HMap α Nat := fun _ => none
  lowlink : HMap α Nat := fun _ => none
  nextIndex : Nat := 0
  sccStack : List α := []
  onSccStack : List α := []
  sccs : List (Scc α) := []
  callStack : List (α × Nat) := []

namespace SccState

/-- First visit of a node. -/
def visit (st : SccState α) (node : α) : SccState α :=
  { st with
    indexOf := st.indexOf.insert node st.nextIndex
    lowlink := st.lowlink.insert node st.nextIndex
    nextIndex := st.nextIndex + 1
    sccStack := node :: st.sccStack
    onSccStack := st.onSccStack ++ [node]
    callStack := (node, 0) :: st.callStack }

/-- Pop the component of its root off a stack: the component, the stack and what is still on
    the stack. -/
def popComponent (node : α) : List α → List α → Option (List α × List α × List α)
  | [], _ => none
  | member :: sccStack, onSccStack =>
      let onSccStack := onSccStack.filter (fun n => n ≠ member)
      if member = node then some ([member], sccStack, onSccStack)
      else do
        let (nodes, sccStack, onSccStack) ← popComponent node sccStack onSccStack
        some (member :: nodes, sccStack, onSccStack)

/-- Pop the component of `node`, if it is the root of one. -/
def popIfRoot (g : ControlFlowGraph α) (st : SccState α) (node : α) (nodeLow : Nat) :
    Option (SccState α) := do
  if nodeLow = (← st.indexOf node) then
    let (nodes, sccStack, onSccStack) ← popComponent node st.sccStack st.onSccStack
    let first ← nodes[0]?
    let isCyclic := nodes.length > 1 || (g.successors first).contains first
    some { st with
      sccStack := sccStack
      onSccStack := onSccStack
      sccs := st.sccs ++ [⟨nodes, isCyclic⟩] }
  else some st

/-- Propagate a low link to the parent, which is on top of the call stack. -/
def propagate (st : SccState α) (nodeLow : Nat) : Option (SccState α) :=
  match st.callStack with
  | [] => some st
  | (parent, _) :: _ => do
      let parentLow ← st.lowlink parent
      some { st with lowlink := st.lowlink.insert parent (min parentLow nodeLow) }

/-- One iteration of the loop. -/
def step (g : ControlFlowGraph α) (st : SccState α) : Option (SccState α) :=
  match st.callStack with
  | [] => some st
  | (node, succIdx) :: callStack =>
      match g.getSuccessor node succIdx with
      | some succ =>
          let st := { st with callStack := (node, succIdx + 1) :: callStack }
          match st.indexOf succ with
          | some succIndex =>
              if succ ∈ st.onSccStack then do
                let nodeLow ← st.lowlink node
                some { st with lowlink := st.lowlink.insert node (min nodeLow succIndex) }
              else some st
          | none => some (st.visit succ)
      | none => do
          let nodeLow ← st.lowlink node
          let st ← popIfRoot g { st with callStack := callStack } node nodeLow
          st.propagate nodeLow

/-- The loop; `none` is a panic, or running out of fuel. -/
def loop (g : ControlFlowGraph α) : Nat → SccState α → Option (SccState α)
  | fuel, st =>
      if st.callStack.isEmpty then some st
      else match fuel with
        | 0 => none
        | fuel + 1 => do loop g fuel (← st.step g)

end SccState

/-- The strongly connected components of a graph in topological order. -/
def sccsInTopologicalOrder (g : ControlFlowGraph α) : Option (List (Scc α)) := do
  let st ← (g.entryNode.toList ++ g.nodes).foldlM
    (fun (st : SccState α) root =>
      if (st.indexOf root).isSome then some st
      else SccState.loop g (walkFuel g) ({ st with callStack := [] }.visit root))
    {}
  some st.sccs.reverse

end Traversals

end Pliron
