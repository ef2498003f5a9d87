/-
  Pliron.Graph.LoopTree

  Natural loops and their loop tree.

  Loops are found in post-order of their headers.  The body of a loop is filled
  by walking backward from its latches; a finished inner loop is one unit of that
  walk, entered at its header.  Afterwards the lists are put in reverse
  post-order, and the inclusive block sets and the depths are computed by climbing
  the parent links.  A panic of the source is `none`.
-/

import Pliron.Graph.Dominance

namespace Pliron

open Traversals

variable {α : Type} [DecidableEq α]

/-- Identifies a loop within one loop tree. -/
abbrev LoopId := Nat

/-- An immediate child of a loop or of the loop tree root. -/
inductive LoopTreeNode (α : Type) where
  | block (node : α)
  | loop (id : LoopId)
deriving DecidableEq, Repr

instance {α : Type} [DecidableEq α] : LawfulBEq (LoopTreeNode α) := instLawfulBEq

/-- A natural loop and its position in the loop tree. -/
structure Loop (α : Type) where
  /-- The header block that dominates every block in the loop. -/
  header : α
  /-- The immediate enclosing loop, or `none` for a top-level loop. -/
  parent : Option LoopId
  /-- Blocks and subloops directly contained in the loop. -/
  contents : List (LoopTreeNode α)
  /-- Sources of back edges to the header block. -/
  latches : List α
  /-- All blocks in the loop and its subloops, with the header first. -/
  blocks : List α
  /-- The loop depth; top-level loops have depth one. -/
  depth : Nat
deriving DecidableEq, Repr

/-- The loop tree of a control-flow graph. -/
structure LoopTree (α : Type) where
  /-- Loops in construction order. -/
  loops : List (Loop α) := []
  /-- Loop ids in reverse post-order of their header blocks. -/
  loopOrder : List LoopId := []
  /-- Immediate children of the graph root. -/
  rootContents : List (LoopTreeNode α) := []
  /-- Maps blocks in loops to their innermost loop. -/
  blockParent : HMap α LoopId := fun _ => none

namespace LoopTree

/-! ## Dominator tree intervals -/

/-- The state of the walk that numbers the dominator tree. -/
structure IntervalsState (α : Type) where
  intervals : HMap α (Nat × Nat) := fun _ => none
  clock : Nat := 0

/-- Record the visit start time. -/
def IntervalsState.enter (state : IntervalsState α) (node : α) : IntervalsState α :=
  { intervals := state.intervals.insert node (state.clock, 0), clock := state.clock + 1 }

/-- Record the end time. -/
def IntervalsState.leave (state : IntervalsState α) (node : α) : Option (IntervalsState α) := do
  let (start, _) ← state.intervals node
  some { state with intervals := state.intervals.insert node (start, state.clock) }

/-- The intervals of a dominator tree: `a` dominates `b` if the interval of `a` has the start
    time of `b`. -/
def domIntervals (domTree : DomTree α) : Option (HMap α (Nat × Nat)) := do
  let (state, _) ← domTree.walk (σ := Option (IntervalsState α)) (β := Unit) (some {})
    (fun state node => (state.map (fun s => s.enter node), .advance))
    (fun state node => (state.bind (fun s => s.leave node), .advance))
  some (← state).intervals

/-! ## Loop bodies -/

variable (tree : LoopTree α)

/-- The innermost loop of a block. -/
def blockLoopParent (block : α) : Option LoopId := tree.blockParent block

/-- Climb the parent links from a loop to the outermost one. -/
def outermost : Nat → LoopId → Option LoopId
  | 0, _ => none
  | fuel + 1, id => do
      match (← tree.loops[id]?).parent with
      | some parent => outermost fuel parent
      | none => some id

/-- The outermost constructed loop containing `block`, or the block itself. -/
def loopAncestor (block : α) : Option (LoopTreeNode α) :=
  match tree.blockLoopParent block with
  | none => some (.block block)
  | some id => do some (.loop (← tree.outermost tree.loops.length id))

/-- The variables of the backward walk.  The end of the queue is its head. -/
structure BodyState (α : Type) where
  body : List (LoopTreeNode α) := []
  queue : List (LoopTreeNode α) := []

/-- Add the unit that contains `block` to the body and the queue. -/
def addToBody (st : BodyState α) (block : α) : Option (BodyState α) := do
  let ancestor ← tree.loopAncestor block
  if ancestor ∈ st.body then some st
  else some { body := st.body ++ [ancestor], queue := ancestor :: st.queue }

/-- The block by which a unit is entered. -/
def entryBlock : LoopTreeNode α → Option α
  | .block block => some block
  | .loop id => do some (← tree.loops[id]?).header

/-- The loop of `find_body`. -/
def bodyLoop (g : ControlFlowGraph α) (domTree : DomTree α) (header : α) :
    Nat → BodyState α → Option (List (LoopTreeNode α))
  | fuel, st =>
      match st.queue with
      | [] => some st.body
      | node :: queue => match fuel with
        | 0 => none
        | fuel + 1 => do
            let block ← tree.entryBlock node
            let st ← ((g.predecessors block).filter
              (fun pred => pred ≠ header && domTree.contains pred)).foldlM tree.addToBody
                { st with queue := queue }
            bodyLoop g domTree header fuel st

/-- Record loop `id` as the parent of a unit. -/
def setParent (id : LoopId) (tree : LoopTree α) : LoopTreeNode α → LoopTree α
  | .block block => { tree with blockParent := tree.blockParent.insert block id }
  | .loop child =>
      { tree with loops := tree.loops.modify child (fun l => { l with parent := some id }) }

/-- Walk backward from the latches, and set parent links. -/
def findBody (g : ControlFlowGraph α) (domTree : DomTree α) (header : α) (latches : List α) :
    Option (LoopTree α) := do
  let st ← (latches.filter (fun latch => latch ≠ header)).foldlM tree.addToBody {}
  let body ← tree.bodyLoop g domTree header (g.nodes.length + tree.loops.length) st
  let body := if .block header ∈ body then body else body ++ [.block header]
  let id := tree.loops.length
  let tree := body.foldl (setParent id) tree
  some { tree with
    loops := tree.loops ++ [{
      header := header, parent := none, contents := body, latches := latches,
      blocks := [header], depth := 0 }] }

/-- The predecessors of a header that it dominates. -/
def findLatches (g : ControlFlowGraph α) (intervals : HMap α (Nat × Nat)) (header : α) :
    Option (List α) := do
  let (headerStart, headerEnd) ← intervals header
  some ((g.predecessors header).filter (fun pred =>
    match intervals pred with
    | none => false
    | some (predStart, _) => headerStart ≤ predStart && predStart < headerEnd)).eraseDups

/-- Find the loop of one header, if it has one. -/
def findLoop (g : ControlFlowGraph α) (domTree : DomTree α) (intervals : HMap α (Nat × Nat))
    (tree : LoopTree α) (header : α) : Option (LoopTree α) := do
  let latches ← findLatches g intervals header
  if latches.isEmpty then some tree else tree.findBody g domTree header latches

/-! ## Orders, block sets and depths -/

/-- Sort by the position that each element has. -/
def sortByPosition {β : Type} (position : β → Option Nat) (l : List β) : Option (List β) := do
  let keyed ← l.mapM (fun b => do some ((← position b), b))
  some ((keyed.insertionSort (fun x y => x.1 ≤ y.1)).map Prod.snd)

/-- The position of a block, or of the header of a loop. -/
def childPosition (nodes : List α) : LoopTreeNode α → Option Nat
  | .block block => nodes.idxOf? block
  | .loop id => do nodes.idxOf? (← tree.loops[id]?).header

/-- Put the immediate children and the latches of a loop in reverse post-order. -/
def sortLoop (nodes : List α) (l : Loop α) : Option (Loop α) := do
  let contents ← sortByPosition (tree.childPosition nodes) l.contents
  let latches ← sortByPosition (fun node => nodes.idxOf? node) l.latches
  some { l with contents := contents, latches := latches }

/-- Add a block to a loop and every enclosing loop. -/
def addBlock (node : α) : Nat → Option LoopId → LoopTree α → Option (LoopTree α)
  | _, none, tree => some tree
  | 0, some _, _ => none
  | fuel + 1, some id, tree => do
      let l ← tree.loops[id]?
      let blocks := if node ∈ l.blocks then l.blocks else l.blocks ++ [node]
      addBlock node fuel l.parent { tree with loops := tree.loops.set id { l with blocks := blocks } }

/-- Add a block to its loops; one outside all loops is a child of the graph root. -/
def placeBlock (tree : LoopTree α) (node : α) : Option (LoopTree α) :=
  let parent := tree.blockLoopParent node
  let rootContents := if parent.isNone then tree.rootContents ++ [.block node]
    else tree.rootContents
  addBlock node tree.loops.length parent { tree with rootContents := rootContents }

/-- Count a loop and all its enclosing loops, given those counted already. -/
def countEnclosing : Nat → Option LoopId → Nat → Option Nat
  | _, none, depth => some depth
  | 0, some _, _ => none
  | fuel + 1, some id, depth => do
      countEnclosing fuel (← tree.loops[id]?).parent (depth + 1)

/-- Attach a top-level loop to the graph root, and compute the depth of a loop. -/
def placeLoop (tree : LoopTree α) (id : LoopId) : Option (LoopTree α) := do
  let l ← tree.loops[id]?
  let rootContents := if l.parent.isNone then tree.rootContents ++ [.loop id]
    else tree.rootContents
  let depth ← tree.countEnclosing tree.loops.length l.parent 1
  some { tree with
    rootContents := rootContents
    loops := tree.loops.set id { l with depth := depth } }

/-- What follows the search for the loops. -/
def finish (nodes : List α) : Option (LoopTree α) := do
  let headerPositions ← tree.loops.mapM (fun l => nodes.idxOf? l.header)
  let loopOrder ← sortByPosition (fun id => headerPositions[id]?) (List.range tree.loops.length)
  let loops ← tree.loops.mapM (tree.sortLoop nodes)
  let tree ← nodes.foldlM placeBlock { tree with loopOrder := loopOrder, loops := loops }
  let tree ← tree.loopOrder.foldlM placeLoop tree
  let rootContents ← sortByPosition (tree.childPosition nodes) tree.rootContents
  some { tree with rootContents := rootContents }

/-- Computes the natural-loop tree of a graph. -/
def computeLoopTree (g : ControlFlowGraph α) (domTree : DomTree α) : Option (LoopTree α) := do
  guard (domTree.root = g.entryNode)
  let intervals ← domIntervals domTree
  let dfs := DFSTraversal.new g
  let tree ← (← dfs.postOrder).foldlM (findLoop g domTree intervals) {}
  tree.finish (← dfs.reversePostOrder)

/-! ## Queries -/

/-- The immediate loop parent. -/
def loopParent (id : LoopId) : Option (Option LoopId) := (tree.loops[id]?).map Loop.parent

/-- The depth of a loop. -/
def loopDepth (id : LoopId) : Option Nat := (tree.loops[id]?).map Loop.depth

/-- The depth of a block's innermost loop, or zero for blocks not in any loop. -/
def blockLoopDepth (block : α) : Option Nat :=
  match tree.blockLoopParent block with
  | none => some 0
  | some id => tree.loopDepth id

end LoopTree

end Pliron
