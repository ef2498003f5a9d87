/-
  Pliron.IRBuild.MatchRewrite

  Matching operations and rewriting them.

  The driver collects the operations that match and rewrites them one after the other.  After
  each rewrite it reads from the listener what was erased, and what was inserted: an inserted
  operation that matches is enqueued.

  A rewrite changes the IR through the rewriter, which tells the listener what it inserts and
  erases; other changes create operations and modify them in place.  `none` is a panic.
-/

import Pliron.Graph.MutableWalkers
import Pliron.IRBuild.Inserter
import Pliron.IR.DefUse
import Pliron.IR.Verify

namespace Pliron

open Context Walkers Pliron.Lib TreeWalk

/-! ## What a rewrite does -/

/-- A change that keeps all operations, and creates new ones at most. -/
structure Context.KeepsOps (ctx ctx' : Context) : Prop where
  allocated : ∀ op, ctx.isAllocated (.operation op) = true →
    ctx'.isAllocated (.operation op) = true
  created : ∀ op, ctx'.isAllocated (.operation op) = true →
    ctx.isAllocated (.operation op) = true ∨ (ctx.nextOp ≤ op.idx ∧ op.idx < ctx'.nextOp)
  nextOp : ctx.nextOp ≤ ctx'.nextOp

namespace PlacingRewriter

/-- What a rewrite does at a time: it calls the rewriter, or changes the IR in a way that erases
    nothing.  The IR is well-formed when a node is erased. -/
inductive RewriterStep : PlacingRewriter → PlacingRewriter → Prop
  | setInsertionPoint (st : PlacingRewriter) (point : OpInsertionPoint) :
      RewriterStep st (st.setInsertionPoint point)
  | insertOperation {st st' : PlacingRewriter} {op : OpPtr}
      (h : st.insertOperation op = some st') : RewriterStep st st'
  | insertBlock {st st' : PlacingRewriter} {point : BlockInsertionPoint} {block : BlockPtr}
      (h : st.insertBlock point block = some st') : RewriterStep st st'
  | unlinkOperation {st st' : PlacingRewriter} {op : OpPtr}
      (h : st.unlinkOperation op = some st') : RewriterStep st st'
  | unlinkBlock {st st' : PlacingRewriter} {block : BlockPtr}
      (h : st.unlinkBlock block = some st') : RewriterStep st st'
  | eraseNode {st : PlacingRewriter} {st' : IRRewriter} {node : IRNode} {fuel : Nat}
      (hwell : st.ctx.WellFormed) (huses : st.ctx.DefUse)
      (hnode : st.ctx.isAllocated node = true) (hfuel : st.ctx.nodeCount < fuel)
      (h : IRRewriter.eraseNode fuel st.toIRRewriter node = some st') :
      RewriterStep st { st with toIRRewriter := st' }
  | edit (st : PlacingRewriter) {ctx' : Context} (modified : Bool) (h : st.ctx.KeepsOps ctx') :
      RewriterStep st { st with ctx := ctx', modified := modified }

/-- A sequence of such steps. -/
def Rewrites : PlacingRewriter → PlacingRewriter → Prop := Relation.ReflTransGen RewriterStep

/-- The listener forgets what it was told. -/
def clearListener (st : PlacingRewriter) : PlacingRewriter :=
  { st with erasures := [], placements := [] }

/-- The operations that the listener was told to be erased. -/
def erasedOps (st : PlacingRewriter) : List OpPtr := st.erasures.filterMap (fun e => e.2.asOp)

end PlacingRewriter

/-- Interface for matching and rewriting operations.  `τ` is the state of the implementation; the
    answer of `isMatch` only depends on the IR. -/
structure MatchRewrite (τ ε : Type) where
  isMatch : Context → OpPtr → Bool
  rewrite : τ → PlacingRewriter → OpPtr → Option (Except ε (τ × PlacingRewriter))
  through : ∀ {own st op own' st'}, rewrite own st op = some (.ok (own', st')) →
    PlacingRewriter.Rewrites st st'

/-- Should new operations that match be enqueued to the front or back of the queue? -/
inductive EnqueueOrder where
  | enqueFront
  | enqueBack
deriving DecidableEq, Repr

/-- Configuration for the order of collecting and enqueuing operations. -/
structure RewriterOrder where
  collect : WalkConfig
  enque : EnqueueOrder

def EnqueueOrder.push (enque : EnqueueOrder) (toRewrite : List OpPtr) (op : OpPtr) : List OpPtr :=
  match enque with
  | .enqueFront => op :: toRewrite
  | .enqueBack => toRewrite ++ [op]

/-! ## The driver -/

/-- The driver between two iterations. -/
structure MatchDriver (τ : Type) where
  rewriter : PlacingRewriter
  own : τ
  toRewrite : List OpPtr
  erased : List OpPtr

namespace MatchRewrite

variable {τ ε : Type} (m : MatchRewrite τ ε) (order : RewriterOrder)

/-- The callback of the walker. -/
def walkerCallback (ctx : Context) (node : IRNode) (toRewrite : List OpPtr) :
    Reply Unit × List OpPtr :=
  (.advance, match node with
    | .operation op => if m.isMatch ctx op then toRewrite ++ [op] else toRewrite
    | _ => toRewrite)

/-- Collect all operations that match. -/
def start (ctx : Context) (own : τ) (root : OpPtr) : Option (MatchDriver τ) := do
  let (_, toRewrite) ← walkNode ctx order.collect (ofVisit (m.walkerCallback ctx))
    (ctx.nodeCount + 1) (.operation root) []
  some { rewriter := { ctx := ctx }, own := own, toRewrite := toRewrite, erased := [] }

/-- Enqueue an operation that the listener was told to be inserted, if it matches. -/
def processEvent (ctx : Context) (erased toRewrite : List OpPtr)
    (event : Context × PlacementEvent) : List OpPtr :=
  match event.2 with
  | .operationInserted newOp =>
      if newOp ∉ erased ∧ m.isMatch ctx newOp then order.enque.push toRewrite newOp else toRewrite
  | _ => toRewrite

/-- What the driver does after a rewrite: first it processes the erased operations, to avoid
    dereferencing them. -/
def processEvents (d : MatchDriver τ) (own : τ) (rewriter : PlacingRewriter)
    (toRewrite : List OpPtr) : MatchDriver τ :=
  let erased := d.erased ++ rewriter.erasedOps
  { rewriter := rewriter.clearListener
    own := own
    toRewrite := rewriter.placements.foldl (m.processEvent order rewriter.ctx erased) toRewrite
    erased := erased }

/-- Rewrite collected and newly added operations that match, until none is left. -/
def drive : Nat → MatchDriver τ → Option (Except ε (MatchDriver τ))
  | 0, _ => none
  | fuel + 1, d =>
      match d.toRewrite with
      | [] => some (.ok d)
      | op :: toRewrite =>
          if op ∈ d.erased then drive fuel { d with toRewrite := toRewrite }
          else do
            match ← m.rewrite d.own (d.rewriter.setInsertionPoint (.set (.before op))) op with
            | .error e => some (.error e)
            | .ok (own, rewriter) => drive fuel (m.processEvents order d own rewriter toRewrite)

/-- Collect all operations that match a pattern, and apply a rewrite to them.  The result says
    whether the IR was modified. -/
def applyMatchRewrite (fuel : Nat) (ctx : Context) (own : τ) (root : OpPtr) :
    Option (Except ε (Bool × MatchDriver τ)) := do
  match ← m.drive order fuel (← m.start order ctx own root) with
  | .error e => some (.error e)
  | .ok d => some (.ok (d.rewriter.modified, d))

end MatchRewrite

end Pliron
