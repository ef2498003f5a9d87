/-
  Pliron.IRBuild.Inserter

  Inserting and moving operations and blocks through the rewriter.

  The rewriter has an insertion point for operations.  A scope sets another one and restores the
  old one at its end.  The listener is modelled as the list of what it was told, with the context
  it was shown each time.  `none` is a panic.
-/

import Pliron.IRBuild.Rewriter

namespace Pliron

open Context

/-- Insertion point specification for inserting blocks. -/
inductive BlockInsertionPoint where
  | unset
  | set (point : InsertPoint BlockPtr RegionPtr)
deriving DecidableEq, Repr

/-- The insertion region, if the point is set. -/
def BlockInsertionPoint.getInsertionRegion (ctx : Context) :
    BlockInsertionPoint → Option RegionPtr
  | .unset => none
  | .set point => insertContainer ctx.blockParentRegion point

/-- What the listener is told when nothing is erased. -/
inductive PlacementEvent where
  | operationInserted (op : OpPtr)
  | blockInserted (block : BlockPtr)
  | operationUnlinking (op : OpPtr)
  | blockUnlinking (block : BlockPtr)
deriving DecidableEq, Repr

/-- A rewriter with its insertion point. -/
structure PlacingRewriter extends IRRewriter where
  opInsertionPoint : OpInsertionPoint := .unset
  placements : List (Context × PlacementEvent) := []

/-- The operation after `op` in its block. -/
def Context.getNext (ctx : Context) (op : OpPtr) : Option (Option OpPtr) := do
  let o ← ctx.operations op
  some (o.parentBlock.bind (fun block => (ctx.blockOps block)[(ctx.blockOps block).idxOf op + 1]?))

namespace PlacingRewriter

variable (st : PlacingRewriter)

def notify (event : PlacementEvent) : PlacingRewriter :=
  { st with placements := st.placements ++ [(st.ctx, event)] }

def changed (ctx : Context) : PlacingRewriter := { st with ctx := ctx, modified := true }

def setInsertionPoint (point : OpInsertionPoint) : PlacingRewriter :=
  { st with opInsertionPoint := point }

/-- Run with another insertion point, and restore the old one. -/
def withInsertionPoint {α : Type} (point : OpInsertionPoint)
    (body : PlacingRewriter → Option (α × PlacingRewriter)) : Option (α × PlacingRewriter) := do
  let (a, st') ← body (st.setInsertionPoint point)
  some (a, st'.setInsertionPoint st.opInsertionPoint)

/-- Insert an operation at the insertion point. -/
def insertOperation (op : OpPtr) : Option PlacingRewriter := do
  let ctx ← st.ctx.insertOperation op st.opInsertionPoint
  some ((st.changed ctx).notify (.operationInserted op))

/-- Insert a block. -/
def insertBlock (point : BlockInsertionPoint) (block : BlockPtr) : Option PlacingRewriter :=
  match point with
  | .unset => none
  | .set point => do
      let ctx ← st.ctx.linkBlock block point
      some ((st.changed ctx).notify (.blockInserted block))

/-- Create a new block and insert it.  The insertion point is then the end of the block. -/
def createBlock (point : BlockInsertionPoint) (label : Option String)
    (argTypes : List TypeHandle) : Option (BlockPtr × PlacingRewriter) := do
  let (block, ctx) ← st.ctx.newBlock label argTypes
  let st ← ({ st with ctx := ctx }).insertBlock point block
  some (block, st.setInsertionPoint (.set (.atBack block)))

def unlinkOperation (op : OpPtr) : Option PlacingRewriter := do
  let st := st.notify (.operationUnlinking op)
  some (st.changed (← st.ctx.unlinkOp op))

def unlinkBlock (block : BlockPtr) : Option PlacingRewriter := do
  let st := st.notify (.blockUnlinking block)
  some (st.changed (← st.ctx.unlinkBlock block))

/-- Move an operation to a new place. -/
def moveOperation (op : OpPtr) (newPoint : OpInsertionPoint) : Option PlacingRewriter := do
  let st ← st.unlinkOperation op
  let (_, st) ← st.withInsertionPoint newPoint (fun st => (st.insertOperation op).map (Prod.mk ()))
  some st

/-- Move a block to a new place. -/
def moveBlock (block : BlockPtr) (newPoint : BlockInsertionPoint) : Option PlacingRewriter := do
  let st ← st.unlinkBlock block
  st.insertBlock newPoint block

/-! ## Splitting blocks -/

/-- The first operation that a split moves; panics if the point is not set. -/
def firstSplitOp (position : OpInsertionPoint) : Option (Option OpPtr) :=
  match position with
  | .set (.atFront targetBlock) => (st.ctx.basicBlocks targetBlock).map (fun b => b.ops.head?)
  | .set (.atBack _) => some none
  | .set (.before op) => some (some op)
  | .set (.after op) => st.ctx.getNext op
  | .unset => none

/-- Move an operation and those after it to the end of a block. -/
def moveFrom (newBlock : BlockPtr) :
    Nat → PlacingRewriter → Option OpPtr → Option PlacingRewriter
  | _, st, none => some st
  | 0, _, some _ => none
  | fuel + 1, st, some currentOp => do
      let nextOp ← st.ctx.getNext currentOp
      let st ← st.moveOperation currentOp (.set (.atBack newBlock))
      moveFrom newBlock fuel st nextOp

/-- Split a block: the operations from a position on move to a new block after it. -/
def splitBlock (block : BlockPtr) (position : OpInsertionPoint) (newBlockLabel : Option String) :
    Option (BlockPtr × PlacingRewriter) :=
  st.withInsertionPoint .unset (fun st => do
    let b ← st.ctx.basicBlocks block
    let label := newBlockLabel.or (b.label.map (fun label => label ++ "_split"))
    let (newBlock, st) ← st.createBlock (.set (.after block)) label []
    let firstOp ← st.firstSplitOp position
    let st ← moveFrom newBlock (st.ctx.nextOp + 1) st firstOp
    some (newBlock, st))

/-! ## Inlining regions -/

/-- Move blocks, one after the other. -/
def moveBlocks : List BlockPtr → PlacingRewriter → BlockInsertionPoint → Option PlacingRewriter
  | [], st, _ => some st
  | block :: blocks, st, insertionPt => do
      let st ← st.moveBlock block insertionPt
      moveBlocks blocks st (.set (.after block))

/-- Move the blocks of a region to a place in another one. -/
def inlineRegion (srcRegion : RegionPtr) (destInsertionPoint : BlockInsertionPoint) :
    Option PlacingRewriter := do
  let destRegion ← destInsertionPoint.getInsertionRegion st.ctx
  guard (srcRegion ≠ destRegion)
  let r ← st.ctx.regions srcRegion
  moveBlocks r.blocks st destInsertionPoint

end PlacingRewriter

end Pliron
