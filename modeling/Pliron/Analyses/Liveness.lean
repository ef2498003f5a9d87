/-
  Pliron.Analyses.Liveness

  Liveness queries with back-edge target sets.

  `LivenessTq.new` numbers the blocks reachable from the entry of a region in
  reverse post-order and computes, for every block: the blocks it strictly
  dominates, the blocks it reaches without taking a back edge, and the set `Tq`
  of back-edge targets a query has to look at.  A set of blocks is a finite set
  of their numbers, iterated in ascending order.
-/

import Pliron.Graph.DomTreeSpec
import Pliron.Graph.Region
import Mathlib.Data.Finset.Basic
import Mathlib.Data.Finset.Lattice.Basic

namespace Pliron

open Traversals

/-- A set of block numbers. -/
abbrev BitSet := Finset Nat

namespace BitSet

/-- The members of a set of numbers below `n`, in ascending order. -/
def iter (n : Nat) (s : BitSet) : List Nat := (List.range n).filter (fun i => i ∈ s)

/-- Union of all `sets`. -/
def unionAll (sets : List BitSet) : BitSet := sets.foldr (fun s acc => s ∪ acc) ∅

/-- Entry `i` of a vector of sets.  Every index the code uses is in bounds. -/
def at' (sets : List BitSet) (i : Nat) : BitSet := sets.getD i ∅

end BitSet

open BitSet

/-- The precomputed liveness information of a region, with blocks of type `α`. -/
structure LivenessTq (α : Type) where
  /-- Is the control-flow graph reducible? -/
  isReducible : Bool
  /-- Strict dominator subtree for each block. -/
  sdomTree : List BitSet
  /-- Maps a block to its number. -/
  blockToIndex : IMap α Nat
  /-- For each block, the blocks reachable from it without taking a back edge. -/
  reducedReachability : List BitSet
  /-- For each block, the back-edge targets a query has to look at. -/
  tqSets : List BitSet
  /-- The blocks that are targets of back edges. -/
  backEdgeTargets : BitSet

namespace LivenessTq

variable {α : Type} [DecidableEq α]

/-! ## Precomputation -/

/-- The sub-tree of a block, once those of its children are known. -/
def sdomVisit (blockToIndex : IMap α Nat) (domTree : DomTree α) (sdomTree : List BitSet)
    (block : α) : Option (List BitSet) := do
  let blockIdx ← blockToIndex.get? block
  let childIndices ← (← domTree.children block).mapM blockToIndex.get?
  let subtree := unionAll (childIndices.map (at' sdomTree))
  some (sdomTree.set blockIdx (subtree ∪ childIndices.toFinset))

/-- Compute the strict dominator sub-tree for each node: a post-order walk visits all
    children before their parent. -/
def domTreeToSdomTree (blockToIndex : IMap α Nat) (domTree : DomTree α) :
    Option (List BitSet) := do
  let (sdomTree, _) ← domTree.walk (β := Unit)
    (some (List.replicate blockToIndex.length (∅ : BitSet)))
    (fun sdomTree _ => (sdomTree, .advance))
    (fun sdomTree block =>
      (sdomTree.bind (fun s => sdomVisit blockToIndex domTree s block), .advance))
  sdomTree

/-- What the scan of the edges collects. -/
structure EdgeSets where
  reducedSuccessors : List BitSet
  backEdgeTargets : BitSet
  backEdgesBySource : List (List Nat)
  isReducible : Bool

/-- Classify one edge. -/
def addEdge (dfs : DFSTraversal α) (blockToIndex : IMap α Nat) (sdomTree : List BitSet)
    (srcBlock : α) (srcIdx : Nat) (sets : EdgeSets) (succ : α) : Option EdgeSets := do
  let dstIdx ← blockToIndex.get? succ
  let edgeKind ← dfs.edgeKind srcBlock succ
  if edgeKind = .back then
    some { sets with
      backEdgesBySource :=
        sets.backEdgesBySource.set srcIdx (sets.backEdgesBySource.getD srcIdx [] ++ [dstIdx])
      backEdgeTargets := insert dstIdx sets.backEdgeTargets
      isReducible :=
        if dstIdx ≠ srcIdx ∧ srcIdx ∉ at' sdomTree dstIdx then false else sets.isReducible }
  else
    some { sets with
      reducedSuccessors :=
        sets.reducedSuccessors.set srcIdx (insert dstIdx (at' sets.reducedSuccessors srcIdx)) }

/-- Classify the edges of all blocks. -/
def collectEdges (g : ControlFlowGraph α) (dfs : DFSTraversal α) (blocks : IMap α Nat)
    (sdomTree : List BitSet) : Option EdgeSets :=
  blocks.foldlM
    (fun sets e =>
      (g.successors e.1).foldlM (addEdge dfs blocks sdomTree e.1 e.2) sets)
    { reducedSuccessors := List.replicate blocks.length ∅
      backEdgeTargets := ∅
      backEdgesBySource := List.replicate blocks.length []
      isReducible := true }

/-- Reduced reachability of all nodes, the last one first. -/
def computeReducedReachability (reducedSuccessors : List BitSet) : List BitSet :=
  let n := reducedSuccessors.length
  (List.range n).reverse.foldl
    (fun res node =>
      res.set node
        (insert node (unionAll ((iter n (at' reducedSuccessors node)).map (at' res)))))
    (List.replicate n ∅)

/-- The back-edge targets one step up from each node. -/
def computeTUpSets (reducedReachability : List BitSet) (backEdgesBySource : List (List Nat)) :
    List BitSet :=
  reducedReachability.map (fun rT =>
    (iter reducedReachability.length rT).foldl
      (fun tUp r => tUp ∪ (backEdgesBySource.getD r []).toFinset) ∅ \ rT)

/-- Phase 1: the sets of the back-edge targets, in DFS preorder. -/
def tqPhase1 (tUpSets : List BitSet) (backEdgeTargets : BitSet) (dfsPreorder : List Nat)
    (tqSets : List BitSet) : List BitSet :=
  (dfsPreorder.filter (fun t => t ∈ backEdgeTargets)).foldl
    (fun tqSets t =>
      tqSets.set t
        (insert t (unionAll ((iter tUpSets.length (at' tUpSets t)).map (at' tqSets)))))
    tqSets

/-- Phase 2: the sets of the back-edge sources, from their own back edges. -/
def tqPhase2 (backEdgesBySource : List (List Nat)) (dfsPreorder : List Nat)
    (tqSets : List BitSet) : List BitSet :=
  (dfsPreorder.filter (fun s => backEdgesBySource.getD s [] ≠ [])).foldl
    (fun tqSets s =>
      tqSets.set s
        (unionAll (at' tqSets s :: (backEdgesBySource.getD s []).map (at' tqSets))))
    tqSets

/-- Phase 3: the sets of the remaining nodes, from their reduced successors. -/
def tqPhase3 (reducedSuccessors : List BitSet) (computed : Nat → Bool)
    (dfsPostorder : List Nat) (tqSets : List BitSet) : List BitSet :=
  (dfsPostorder.filter (fun q => !computed q)).foldl
    (fun tqSets q =>
      tqSets.set q
        (unionAll ((iter reducedSuccessors.length (at' reducedSuccessors q)).map (at' tqSets))))
    tqSets

/-- Compute the back-edge target sets of all nodes. -/
def computeTqSets (tUpSets reducedSuccessors : List BitSet)
    (backEdgesBySource : List (List Nat)) (backEdgeTargets : BitSet)
    (dfsPreorder dfsPostorder : List Nat) : List BitSet :=
  let tqSets := List.replicate tUpSets.length ∅
  let tqSets := tqPhase1 tUpSets backEdgeTargets dfsPreorder tqSets
  let tqSets := tqPhase2 backEdgesBySource dfsPreorder tqSets
  -- `computed` after the first two phases
  let computed := fun v => decide (v ∈ backEdgeTargets) || (backEdgesBySource.getD v [] ≠ [])
  let tqSets := tqPhase3 reducedSuccessors computed dfsPostorder tqSets
  tqSets.mapIdx (fun v tv => insert v tv)

/-- Precompute the liveness information of a graph, given its dominator tree. -/
def new (g : ControlFlowGraph α) (domTree : DomTree α) : Option (LivenessTq α) := do
  let dfs := DFSTraversal.new g
  let blocks ← dfs.reversePostOrder
  let blockToIndex : IMap α Nat := blocks.zipIdx
  let sdomTree ← domTreeToSdomTree blockToIndex domTree
  let edges ← collectEdges g dfs blockToIndex sdomTree
  let reducedReachability := computeReducedReachability edges.reducedSuccessors
  let tUpSets := computeTUpSets reducedReachability edges.backEdgesBySource
  let dfsPreorder ← (← dfs.preOrder).mapM blockToIndex.get?
  let dfsPostorder ← blocks.reverse.mapM blockToIndex.get?
  let tqSets := computeTqSets tUpSets edges.reducedSuccessors edges.backEdgesBySource
    edges.backEdgeTargets dfsPreorder dfsPostorder
  some { isReducible := edges.isReducible
         sdomTree := sdomTree
         blockToIndex := blockToIndex
         reducedReachability := reducedReachability
         tqSets := tqSets
         backEdgeTargets := edges.backEdgeTargets }

/-! ## Queries on block numbers -/

variable (lv : LivenessTq α)

/-- The number of blocks reachable from the entry. -/
def numBlocks : Nat := lv.blockToIndex.length

/-- The number of a block reachable from the entry. -/
def blockIndex (block : α) : Option Nat := lv.blockToIndex.get? block

/-- Does `block` reach a block of `uses` without taking a back edge? -/
def reducedReaches (block : Nat) (uses : BitSet) : Bool :=
  decide (at' lv.reducedReachability block ∩ uses ≠ ∅)

/-- The node that `reduce` picks from the members of `tqa`. -/
def allDominator (tqa : BitSet) : Option Nat :=
  match iter lv.numBlocks tqa with
  | [] => none
  | t :: ts => some (ts.foldl
      (fun dom1 dom2 => if dom2 ∈ at' lv.sdomTree dom1 then dom1 else dom2) t)

/-- The live-in query, once definition, query and uses are block numbers. -/
def isLiveInAtIndex (defIdx queryIdx : Nat) (useBlocks : BitSet) : Option Bool :=
  if queryIdx ∉ at' lv.sdomTree defIdx ∨ useBlocks = ∅ then some false
  else
    let tqa := at' lv.tqSets queryIdx ∩ at' lv.sdomTree defIdx
    if lv.isReducible then
      (lv.allDominator tqa).map (fun t => lv.reducedReaches t useBlocks)
    else
      some ((iter lv.numBlocks tqa).any (fun t => lv.reducedReaches t useBlocks))

/-- The live-out query, once definition, query and uses are block numbers. -/
def isLiveOutOfIndex (defIdx queryIdx : Nat) (useBlocks : BitSet) : Bool :=
  if defIdx = queryIdx then (iter lv.numBlocks useBlocks).any (fun u => u ≠ queryIdx)
  else if queryIdx ∉ at' lv.sdomTree defIdx ∨ useBlocks = ∅ then false
  else
    let tqa := at' lv.tqSets queryIdx ∩ at' lv.sdomTree defIdx
    -- `q` is looked at separately unless it is a back-edge target: a use in `q` itself
    -- then only counts when a back edge leads to it
    if queryIdx ∈ tqa ∧ queryIdx ∉ lv.backEdgeTargets then
      lv.reducedReaches queryIdx (useBlocks.erase queryIdx) ||
        (iter lv.numBlocks (tqa.erase queryIdx)).any (fun t => lv.reducedReaches t useBlocks)
    else
      (iter lv.numBlocks tqa).any (fun t => lv.reducedReaches t useBlocks)

end LivenessTq

/-! ## Queries on the IR -/

namespace LivenessTq

variable (lv : LivenessTq BlockPtr) (ctx : Context) (region : RegionPtr)

/-- If all uses are analysable, the blocks of the region that contain uses. -/
def useBlocksInRegion (value : Value) : Option (Option BitSet) := do
  let uses ← ctx.valueUses value
  some (uses.foldlM
    (fun useBlocks u => do
      let userBlock ← ctx.opParentBlock u.userOp
      let ancestor ← ctx.findAncestorBlockOfBlockInRegion userBlock region
      match lv.blockIndex ancestor with
      | none => some useBlocks
      | some useIdx => some (insert useIdx useBlocks))
    (∅ : BitSet))

/-- Precompute the liveness information of a region. -/
def ofRegion : Option (LivenessTq BlockPtr) := do
  new (ctx.regionGraph region) (← Dominance.computeDominatorTree (ctx.regionGraph region))

/-- Is `value` live-in at `queryBlock`?  `none` is a failed assertion. -/
def isLiveInAtBlock (value : Value) (queryBlock : BlockPtr) : Option Bool := do
  let defBlock ← ctx.valueParentBlock value
  guard (ctx.blockParentRegion queryBlock = some region ∧
    ctx.blockParentRegion defBlock = some region)
  match lv.blockIndex defBlock, lv.blockIndex queryBlock with
  | some defIdx, some queryIdx =>
      match ← lv.useBlocksInRegion ctx region value with
      | none => some true
      | some useBlocks => lv.isLiveInAtIndex defIdx queryIdx useBlocks
  | _, _ => some false

/-- Is `value` live-out of `queryBlock`?  `none` is a failed assertion. -/
def isLiveOutOfBlock (value : Value) (queryBlock : BlockPtr) : Option Bool := do
  let defBlock ← ctx.valueParentBlock value
  guard (ctx.blockParentRegion queryBlock = some region ∧
    ctx.blockParentRegion defBlock = some region)
  match lv.blockIndex defBlock, lv.blockIndex queryBlock with
  | some defIdx, some queryIdx =>
      match ← lv.useBlocksInRegion ctx region value with
      | none => some true
      | some useBlocks => some (lv.isLiveOutOfIndex defIdx queryIdx useBlocks)
  | _, _ => some false

end LivenessTq

end Pliron
