/-
  Pliron.Graph.Dominance

  The dominator tree of a control-flow graph.

  `computeDominatorTree` numbers the nodes reachable from the entry in reverse
  post-order, iterates `newIdom` over them until a sweep changes nothing, and
  turns the resulting array of parents into a tree.  A panic of the source
  (`unwrap` of an absent entry, a failed assertion) is `none`; so is running out
  of fuel, which is shown not to happen.
-/

import Pliron.Graph.TraversalSpec

namespace Pliron

variable {α : Type} [DecidableEq α]

/-- A node in the dominator tree. -/
structure DomTreeNode (α : Type) where
  /-- The immediate dominator. -/
  parent : Option α
  /-- The nodes that the node immediately dominates. -/
  children : List α
deriving DecidableEq, Repr

/-- The dominator tree of a control-flow graph. -/
structure DomTree (α : Type) where
  /-- An empty tree has no root. -/
  root : Option α
  dominatorsMap : IMap α (DomTreeNode α)
deriving DecidableEq, Repr

namespace Dominance

/-! ## The array of immediate dominators -/

/-- Entry `i` of the array, when `i` is in bounds and the entry is set. -/
def domAt (dom : List (Option Nat)) (i : Nat) : Option Nat := (dom[i]?).join

/-- The loop of `intersect`: the finger with the larger number climbs. -/
def intersectLoop (dom : List (Option Nat)) : Nat → Nat → Nat → Option Nat
  | fuel, finger1, finger2 =>
      if finger1 = finger2 then some finger1
      else match fuel with
        | 0 => none
        | fuel + 1 =>
            if finger1 > finger2 then do
              let finger1 ← domAt dom finger1
              intersectLoop dom fuel finger1 finger2
            else do
              let finger2 ← domAt dom finger2
              intersectLoop dom fuel finger1 finger2

/-- The nearest common ancestor of two nodes in the tree built so far. -/
def intersect (finger1 finger2 : Nat) (dom : List (Option Nat)) : Option Nat :=
  intersectLoop dom (finger1 + finger2) finger1 finger2

/-- The candidate for the immediate dominator of a node, from the numbers of its
    predecessors reachable from the entry. -/
def newIdom (dom : List (Option Nat)) (reachablePreds : List Nat) : Option Nat := do
  let pickedPred ← reachablePreds.find? (fun p => (domAt dom p).isSome)
  (reachablePreds.filter (fun p => p ≠ pickedPred)).foldlM
    (fun newIdom predIdx =>
      match domAt dom predIdx with
      | none => some newIdom
      | some _ => intersect predIdx newIdom dom)
    pickedPred

/-- One pass over the nodes: the array, and whether it was changed. -/
def domSweep (preds : Nat → List Nat) :
    List Nat → List (Option Nat) → Bool → Option (List (Option Nat) × Bool)
  | [], dom, changed => some (dom, changed)
  | i :: is, dom, changed => do
      let idom ← newIdom dom (preds i)
      if domAt dom i ≠ some idom then domSweep preds is (dom.set i (some idom)) true
      else domSweep preds is dom changed

/-- Repeat the pass until nothing changes. -/
def domLoop (preds : Nat → List Nat) (n : Nat) : Nat → List (Option Nat) →
    Option (List (Option Nat))
  | 0, _ => none
  | fuel + 1, dom => do
      let (dom, changed) ← domSweep preds (List.range' 1 (n - 1)) dom false
      if changed then domLoop preds n fuel dom else some dom

/-- The numbers of the predecessors of node `i` that are reachable from the entry. -/
def predIndices (g : ControlFlowGraph α) (rpo : List α) (i : Nat) : List Nat :=
  match rpo[i]? with
  | some node => (g.predecessors node).filterMap (fun p => rpo.idxOf? p)
  | none => []

/-! ## The tree -/

/-- Add node `i` to the tree and to the children of its parent. -/
def insertChild (rpo : List α) (dom : List (Option Nat)) (map : IMap α (DomTreeNode α))
    (i : Nat) : Option (IMap α (DomTreeNode α)) := do
  let childNode ← rpo[i]?
  let parentIdx ← domAt dom i
  let parentNode ← rpo[parentIdx]?
  let map := map.insert childNode ⟨some parentNode, []⟩
  guard (map.containsKey parentNode)
  some (map.modify parentNode (fun n => { n with children := n.children ++ [childNode] }))

/-- Compute the dominator tree of `g`.  Only the nodes reachable from the entry are in it. -/
def computeDominatorTree (g : ControlFlowGraph α) : Option (DomTree α) :=
  match g.entryNode with
  | none => some ⟨none, []⟩
  | some entryNode => do
      let rpo ← (Traversals.topologicalOrderByComponent g).head?
      guard (rpo.idxOf? entryNode = some 0)
      let dom ← domLoop (predIndices g rpo) rpo.length (rpo.length * rpo.length + 2)
        ((List.replicate rpo.length none).set 0 (some 0))
      let map ← (List.range' 1 (rpo.length - 1)).foldlM (insertChild rpo dom)
        [(entryNode, ⟨none, []⟩)]
      some ⟨some entryNode, map⟩

end Dominance

namespace DomTree

variable (t : DomTree α)

/-- The parent pointer of a node; a node outside the tree has none. -/
def parent (node : α) : Option α := (t.dominatorsMap.get? node).bind DomTreeNode.parent

/-- The loop of `dominates`. -/
def dominatesLoop (dominator : α) : Nat → Option α → Bool
  | 0, _ => false
  | _ + 1, none => false
  | fuel + 1, some node =>
      if node = dominator then true else dominatesLoop dominator fuel (t.parent node)

/-- Does `dominator` dominate `dominatee`?  Each node dominates itself.  An unreachable
    node has no other dominators. -/
def dominates (dominator dominatee : α) : Bool :=
  t.dominatesLoop dominator (t.dominatorsMap.length + 1) (some dominatee)

/-- Is `node` in the tree, that is, reachable from the entry node? -/
def contains (node : α) : Bool := t.dominatorsMap.containsKey node

/-- The immediate dominator of a node of the tree. -/
def idom (node : α) : Option (Option α) := (t.dominatorsMap.get? node).map DomTreeNode.parent

/-- The loop of `dominators`.  A node outside the tree panics. -/
def dominatorsLoop : Nat → Option α → Option (List α)
  | _, none => some []
  | 0, some _ => none
  | fuel + 1, some node => do
      let parent ← t.idom node
      let above ← dominatorsLoop fuel parent
      some (node :: above)

/-- The dominators of `node`, starting with `node` itself, then its immediate dominator, and so
    on up to the root. -/
def dominators (node : α) : Option (List α) :=
  t.dominatorsLoop (t.dominatorsMap.length + 1) (some node)

/-- The children of a node of the tree. -/
def children (node : α) : Option (List α) :=
  (t.dominatorsMap.get? node).map DomTreeNode.children

/-! ## Walking the tree -/

/-- An entry of the stack of the walk. -/
inductive Visit (α : Type) where
  | pre (node : α)
  | post (node : α)

/-- What a callback asks of the walk. -/
inductive WalkResult (β : Type) where
  | break (b : β)
  | skip
  | advance

/-- Depth-first walk of the tree, children in order: the state after it, and what a
    callback broke off with. -/
def walkLoop {σ β : Type} (preCallback postCallback : σ → α → σ × WalkResult β) :
    Nat → List (Visit α) → σ → Option (σ × Option β)
  | 0, _, _ => none
  | _ + 1, [], state => some (state, none)
  | fuel + 1, .pre node :: stack, state =>
      match preCallback state node with
      | (state, .break b) => some (state, some b)
      -- neither the children nor the visit after them
      | (state, .skip) => walkLoop preCallback postCallback fuel stack state
      | (state, .advance) =>
          match t.children node with
          | some children =>
              walkLoop preCallback postCallback fuel
                (children.map Visit.pre ++ .post node :: stack) state
          | none => none
  | fuel + 1, .post node :: stack, state =>
      match postCallback state node with
      | (state, .break b) => some (state, some b)
      | (state, _) => walkLoop preCallback postCallback fuel stack state

/-- Walk the tree from its root, each node's children in order. -/
def walk {σ β : Type} (state : σ) (preCallback postCallback : σ → α → σ × WalkResult β) :
    Option (σ × Option β) :=
  t.walkLoop preCallback postCallback (2 * t.dominatorsMap.length + 1)
    (t.root.toList.map Visit.pre) state

end DomTree

end Pliron
