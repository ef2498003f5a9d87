/-
  Pliron.Graph.Walkers

  Walks over the tree of operations, regions and blocks.

  The walkers of the source for operations, regions and blocks only differ in
  what a node contains and in which entry of the configuration applies, so they
  are one function here.  A callback runs on a state, and continues the walk or
  breaks it off.
-/

import Pliron.IR.Nesting
import Pliron.Lib.Check

namespace Pliron

open Pliron.Lib Relation

namespace Walkers

/-- Is the callback for a node called before or after its children are processed? -/
inductive Order where
  | preOrder
  | postOrder
deriving DecidableEq, Repr

/-- The order in which children nodes are walked over. -/
inductive Direction where
  | forward
  | reverse
deriving DecidableEq, Repr

/-- The order of visiting different kinds of nodes. -/
structure WalkConfig where
  regionsInOp : Order × Direction
  opsInBlock : Order × Direction
  blocksInRegion : Order × Direction

/-- `WALKCONFIG_PREORDER_FORWARD`. -/
def WalkConfig.preorderForward : WalkConfig where
  regionsInOp := (.preOrder, .forward)
  opsInBlock := (.preOrder, .forward)
  blocksInRegion := (.preOrder, .forward)

/-- The entry for the children of a node. -/
def WalkConfig.forNode (config : WalkConfig) : IRNode → Order × Direction
  | .operation _ => config.regionsInOp
  | .basicBlock _ => config.opsInBlock
  | .region _ => config.blocksInRegion

/-- How to continue an ongoing walk. -/
inductive WalkContinue where
  | advance
  | skip
deriving DecidableEq, Repr

variable {σ β : Type} (ctx : Context) (config : WalkConfig)
  (callback : IRNode → Check σ β WalkContinue)

/-- Visit a node and walk its children. -/
def walkNode : Nat → IRNode → Check σ β Unit
  | 0, _ => fun _ => none
  | fuel + 1, node =>
      let children := match (config.forNode node).2 with
        | .forward => ctx.childNodes node
        | .reverse => (ctx.childNodes node).reverse
      match (config.forNode node).1 with
      | .preOrder => do
          match ← callback node with
          | .skip => pure ()
          | .advance => children.forM (walkNode fuel)
      | .postOrder => do
          children.forM (walkNode fuel)
          let _ ← callback node
          pure ()

/-- Visit an operation and walk its regions. -/
def walkOp (root : OpPtr) : Check σ β Unit :=
  walkNode ctx config callback (ctx.nodeCount + 1) (.operation root)

/-! ## What a walk checks -/

variable {ctx} {inv : σ → Prop} {check : IRNode → Check σ β Unit} {P : IRNode → Prop}

/-- A walk with a callback that never skips checks what the callback checks at every node. -/
theorem walkNode_decides (hnest : ctx.WellNested)
    (hcheck : ∀ node, Decides inv (check node) (P node)) (fuel : Nat) :
    ∀ node, (∀ n k, stepsUp ctx.parentNode k n = some node → k < fuel) →
      Decides inv
        (walkNode ctx .preorderForward (fun n => do check n; pure .advance) fuel node)
        (∀ n, ctx.Inside node n → P n) := by
  induction fuel with
  | zero => exact fun node hfuel => absurd (hfuel node 0 rfl) (Nat.not_lt_zero 0)
  | succ fuel ih =>
      intro node hfuel
      have hchild : ∀ c ∈ ctx.childNodes node, Decides inv
          (walkNode ctx .preorderForward (fun n => do check n; pure .advance) fuel c)
          (∀ n, ctx.Inside c n → P n) := by
        intro c hc
        refine ih c (fun n k hk => Nat.lt_of_succ_lt_succ (hfuel n (k + 1) ?_))
        rw [stepsUp_succ, hk]
        exact (hnest.mem_childNodes node c).mp hc
      have hunfold : walkNode ctx .preorderForward (fun n => do check n; pure .advance)
          (fuel + 1) node = (check node >>= fun _ => (ctx.childNodes node).forM
            (walkNode ctx .preorderForward (fun n => do check n; pure .advance) fuel)) := by
        cases node <;> simp [walkNode, WalkConfig.forNode, WalkConfig.preorderForward]
      rw [hunfold]
      refine ((hcheck node).seq (Decides.forM hchild)).congr ?_
      constructor
      · rintro ⟨hnode, hrest⟩ n hn
        rcases ReflTransGen.cases_tail hn with rfl | ⟨c, hnc, hc⟩
        · exact hnode
        · exact hrest c ((hnest.mem_childNodes node c).mpr hc) n hnc
      · intro hall
        refine ⟨hall node (Above.refl node), fun c hc n hn => hall n ?_⟩
        exact hn.tail ((hnest.mem_childNodes node c).mp hc)

theorem walkOp_decides (hnest : ctx.WellNested)
    (hcheck : ∀ node, Decides inv (check node) (P node)) (root : OpPtr) :
    Decides inv (walkOp ctx .preorderForward (fun n => do check n; pure .advance) root)
      (∀ n, ctx.Inside (.operation root) n → P n) :=
  walkNode_decides hnest hcheck _ _
    (fun _ _ hk => Nat.lt_succ_of_le (hnest.isForest_node.steps_le hk))

end Walkers

end Pliron
