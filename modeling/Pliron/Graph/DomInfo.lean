/-
  Pliron.Graph.DomInfo

  Dominance between values, operations and blocks across nested regions, with a
  cache of dominator trees.

  The cache is a state that only ever holds the tree of each region it knows, so
  that a query does not depend on it.  `none` is a failed `expect`.
-/

import Pliron.Graph.DomTreeSpec
import Pliron.Graph.Walkers

namespace Pliron

open Pliron.Lib

namespace Context

variable (ctx : Context)

/-- Does this region use SSA dominance? -/
def hasSsaDominance (region : RegionPtr) : Option Bool := do
  let parentOp ← ctx.operations (← ctx.regionParentOp region)
  match parentOp.concreteOp.regionKind with
  | none => some true
  | some kind => do
      let regionIdx ← parentOp.regions.idxOf? region
      some (kind regionIdx)

/-- The operations after `op` in its block. -/
def opsAfter (op : OpPtr) : List OpPtr :=
  match ctx.opParentBlock op with
  | none => []
  | some block => ((ctx.blockOps block).dropWhile (fun o => o ≠ op)).tail

/-- Does operation `a` strictly precede operation `b` in `a`'s block? -/
def strictlyPrecedesInBlock (a b : OpPtr) : Bool :=
  if ctx.opParentBlock a ≠ ctx.opParentBlock b ∨ a = b then false
  else decide (b ∈ ctx.opsAfter a)

end Context

/-- Caches dominance trees for multiple regions in a program. -/
abbrev DomInfo := IMap RegionPtr (DomTree BlockPtr)

namespace DomInfo

variable (ctx : Context)

/-- The dominator tree of a region, cached or computed. -/
def getDomTree (region : RegionPtr) : StateT DomInfo Option (DomTree BlockPtr) := do
  match (← get).get? region with
  | some tree => pure tree
  | none => do
      let tree ← StateT.lift (Dominance.computeDominatorTree (ctx.regionGraph region))
      modify (fun info => info.insert region tree)
      pure tree

/-- Does `a` strictly dominate `b`, or the operation around it in `a`'s region? -/
def opStrictlyDominatesOp (a b : OpPtr) : StateT DomInfo Option Bool :=
  match ctx.opParentBlock a with
  | none => pure false
  | some blockA => do
      let regionA ← StateT.lift (ctx.blockParentRegion blockA)
      let regionASsa ← StateT.lift (ctx.hasSsaDominance regionA)
      match ctx.findAncestorOpOfOpInRegion b regionA with
      | none => pure false
      | some b => do
          let blockB ← StateT.lift (ctx.opParentBlock b)
          if blockA = blockB then pure (!regionASsa || ctx.strictlyPrecedesInBlock a b)
          else do
            let tree ← getDomTree ctx regionA
            pure (tree.dominates blockA blockB)

/-- Does value `a` strictly dominate operation `b`?  A block argument is defined at the start
    of its block. -/
def valueStrictlyDominatesOp (a : Value) (b : OpPtr) : StateT DomInfo Option Bool :=
  match a.definingEntity with
  | .op op => opStrictlyDominatesOp ctx op b
  | .block aBlock =>
      match ctx.opParentBlock b with
      | none => pure false
      | some bParentBlock => do
          let aBlockRegion ← StateT.lift (ctx.blockParentRegion aBlock)
          match ctx.findAncestorBlockOfBlockInRegion bParentBlock aBlockRegion with
          | none => pure false
          | some bAncestor => do
              let tree ← getDomTree ctx aBlockRegion
              pure (tree.dominates aBlock bAncestor)

/-- Every cached tree is the tree of its region. -/
def Valid (info : DomInfo) : Prop :=
  ∀ region tree, info.get? region = some tree →
    Dominance.computeDominatorTree (ctx.regionGraph region) = some tree

variable {ctx}

/-- The cache is transparent. -/
theorem getDomTree_returns {region : RegionPtr} {tree : DomTree BlockPtr}
    (h : Dominance.computeDominatorTree (ctx.regionGraph region) = some tree) :
    Returns (Valid ctx) (getDomTree ctx region) tree := by
  intro info hinfo
  cases hget : info.get? region with
  | some tree' =>
      rw [← Option.some.inj ((hinfo region tree' hget).symm.trans h)]
      exact ⟨info, by simp [getDomTree, hget], hinfo⟩
  | none =>
      refine ⟨info.insert region tree, by simp [getDomTree, hget, h], fun r t hrt => ?_⟩
      rw [IMap.get?_insert] at hrt
      by_cases heq : region = r
      · rw [if_pos heq] at hrt
        rw [← heq, ← Option.some.inj hrt]
        exact h
      · rw [if_neg heq] at hrt
        exact hinfo r t hrt

end DomInfo

end Pliron
