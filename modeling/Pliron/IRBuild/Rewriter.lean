/-
  Pliron.IRBuild.Rewriter

  Erasing operations, blocks and regions through the rewriter.

  The rewriter erases what an entity contains itself, so that its listener hears
  of each of them, and then the entity.  The listener is modelled as the list of
  what it was told, with the context it was shown each time.  `none` is a panic:
  a failed assertion of one of the erasures, or an entity that does not exist.

  The three procedures call each other down the nesting, which is what the fuel
  bounds: any number above the number of nodes ever allocated is enough.
-/

import Pliron.Graph.PostOrder
import Pliron.IR.Mutate

namespace Pliron

open Traversals

/-- A rewriter with the context it works on. -/
structure IRRewriter where
  ctx : Context
  /-- What the listener was told to be about to be erased, and the context at that time. -/
  erasures : List (Context × IRNode) := []
  modified : Bool := false

namespace IRRewriter

/-- Tell the listener that a node is about to be erased. -/
def notifyErasure (st : IRRewriter) (node : IRNode) : IRRewriter :=
  { st with erasures := st.erasures ++ [(st.ctx, node)] }

/-- The context has changed. -/
def markModified (st : IRRewriter) (ctx : Context) : IRRewriter :=
  { st with ctx := ctx, modified := true }

mutual

/-- Erase an operation. -/
def eraseOperation : Nat → IRRewriter → OpPtr → Option IRRewriter
  | 0, _, _ => none
  | fuel + 1, st, op => do
      let o ← st.ctx.operations op
      let st ← o.regions.reverse.foldlM (eraseRegion fuel) st
      let st := st.notifyErasure (.operation op)
      some (st.markModified (← st.ctx.eraseOp op))

/-- Erase a basic block. -/
def eraseBlock : Nat → IRRewriter → BlockPtr → Option IRRewriter
  | 0, _, _ => none
  | fuel + 1, st, block => do
      let b ← st.ctx.basicBlocks block
      let st ← b.ops.reverse.foldlM (eraseOperation fuel) st
      let st := st.notifyErasure (.basicBlock block)
      some (st.markModified (← st.ctx.eraseBlock block))

/-- Erase a region: the operations of its blocks first, and then the blocks. -/
def eraseRegion : Nat → IRRewriter → RegionPtr → Option IRRewriter
  | 0, _, _ => none
  | fuel + 1, st, region => do
      let _ ← st.ctx.regions region
      let blocks := postOrder (st.ctx.regionGraph region)
      let st ← blocks.reverse.foldlM (fun st block => do
        let b ← st.ctx.basicBlocks block
        b.ops.reverse.foldlM (eraseOperation fuel) st) st
      let st ← blocks.foldlM (eraseBlock fuel) st
      let st := st.notifyErasure (.region region)
      let parentOp ← st.ctx.regionParentOp region
      let indexInParent ← (← st.ctx.operations parentOp).regions.idxOf? region
      some (st.markModified (← st.ctx.eraseRegion parentOp indexInParent))

end

/-- Erase a node. -/
def eraseNode (fuel : Nat) (st : IRRewriter) : IRNode → Option IRRewriter
  | .operation op => eraseOperation fuel st op
  | .basicBlock block => eraseBlock fuel st block
  | .region region => eraseRegion fuel st region

end IRRewriter

end Pliron
