/-
  Pliron.Opts.PhiPlacement

  Where mem2reg adds block arguments for a promoted allocation.

  What the operations of a block do with the slot is a list of accesses, in order.  An operation with
  uses in its regions loads, and then stores if one of these uses does; a terminator that carries the
  slot along a region edge loads at the end of its block.
-/

import Pliron.Graph.DomFrontierCorrect
import Pliron.Lib.PrunedFrontier

namespace Pliron

namespace Mem2Reg

variable {α : Type} [DecidableEq α]

/-- An access to the slot.  An eliminatable use counts as a load. -/
inductive Access where
  | load
  | store
deriving DecidableEq, Repr

/-- Summary of the accesses to a candidate within one of its user blocks. -/
structure CandidateUserBlockInfo where
  /-- The block stores to the candidate. -/
  hasStore : Bool := false
  /-- The block uses the candidate's value before storing to it. -/
  loadBeforeStore : Bool := false
deriving DecidableEq, Repr

/-- Record one access. -/
def CandidateUserBlockInfo.record (info : CandidateUserBlockInfo) :
    Access → CandidateUserBlockInfo
  | .load => if info.hasStore then info else { info with loadBeforeStore := true }
  | .store => { info with hasStore := true }

/-- The user blocks of a candidate: different blocks of the graph, with their accesses. -/
structure UserBlocks (g : ControlFlowGraph α) where
  accesses : IMap α (List Access)
  nodup : accesses.keys.Nodup
  mem_nodes : ∀ b ∈ accesses.keys, b ∈ g.nodes

/-- Map the user blocks to their summaries. -/
def UserBlocks.info {g : ControlFlowGraph α} (user : UserBlocks g) :
    IMap α CandidateUserBlockInfo :=
  user.accesses.map fun e => (e.1, e.2.foldl CandidateUserBlockInfo.record {})

/-- Propagate liveness backward through predecessors, stopping at defining blocks. -/
def liveInLoop (g : ControlFlowGraph α) (definingBlocks : ISet α) :
    Nat → List α → ISet α → Option (ISet α)
  | _, [], liveIn => some liveIn
  | 0, _ :: _, _ => none
  | fuel + 1, liveInBlock :: worklist, liveIn =>
    if liveInBlock ∈ liveIn then liveInLoop g definingBlocks fuel worklist liveIn
    else
      let preds := (g.predecessors liveInBlock).filter (· ∉ definingBlocks)
      liveInLoop g definingBlocks fuel (preds.reverse ++ worklist) (liveIn.insert liveInBlock)

/-- Compute the live-in blocks and the defining blocks of a candidate. -/
def computeCandidateLiveInAndDefiningBlocks (g : ControlFlowGraph α)
    (info : IMap α CandidateUserBlockInfo) : Option (ISet α × ISet α) := do
  let definingBlocks := (info.filter (fun e => e.2.hasStore)).map Prod.fst
  let seeds := (info.filter (fun e => e.2.loadBeforeStore)).map Prod.fst
  let liveIn ← liveInLoop g definingBlocks
    (seeds.length + (g.nodes.map g.numPredecessors).sum) seeds.reverse []
  some (liveIn, definingBlocks)

/-- Go over the dominance frontier of one block: the chosen blocks and the worklist. -/
def visitFrontier (liveIn definingBlocks : ISet α) :
    List α → ISet α → List α → ISet α × List α
  | [], phiBlocks, worklist => (phiBlocks, worklist)
  | dfBlock :: rest, phiBlocks, worklist =>
    -- prune early: only live-in blocks can host a useful phi
    if dfBlock ∉ liveIn then visitFrontier liveIn definingBlocks rest phiBlocks worklist
    else if dfBlock ∈ phiBlocks then visitFrontier liveIn definingBlocks rest phiBlocks worklist
    else
      visitFrontier liveIn definingBlocks rest (phiBlocks.insert dfBlock)
        (if dfBlock ∈ definingBlocks then worklist else dfBlock :: worklist)

/-- The loop of `compute_candidate_phi_blocks`. -/
def phiLoop (dfMap : DomFrontierMap α) (liveIn definingBlocks : ISet α) :
    Nat → List α → ISet α → Option (ISet α)
  | _, [], phiBlocks => some phiBlocks
  | 0, _ :: _, _ => none
  | fuel + 1, block :: worklist, phiBlocks => do
    let frontier ← dfMap.frontier block
    let (phiBlocks, worklist) := visitFrontier liveIn definingBlocks frontier phiBlocks worklist
    phiLoop dfMap liveIn definingBlocks fuel worklist phiBlocks

/-- Compute phi placement blocks for one candidate using liveness-pruned IDF. -/
def computeCandidatePhiBlocks (g : ControlFlowGraph α) (dfMap : DomFrontierMap α)
    (liveIn definingBlocks : ISet α) : Option (ISet α) :=
  phiLoop dfMap liveIn definingBlocks (definingBlocks.length + g.nodes.length)
    definingBlocks.reverse []

/-- The phi placement blocks of one candidate in a region. -/
def computePhiBlocksInRegion (g : ControlFlowGraph α) (user : UserBlocks g) :
    Option (ISet α) := do
  let domTree ← Dominance.computeDominatorTree g
  let dfMap ← DomFrontierMap.new g domTree
  let (liveIn, definingBlocks) ← computeCandidateLiveInAndDefiningBlocks g user.info
  computeCandidatePhiBlocks g dfMap liveIn definingBlocks

end Mem2Reg

end Pliron
