/-
  Pliron.Graph.MutableWalkers

  Walks whose callback may change the IR.

  The walkers read the children of a node from the context as they go: the regions of an
  operation by their indices, and the operations of a block and the blocks of a region by
  following the links, each time after the child was walked.  The state is the context and the
  state of the callback; `none` is a panic.

  `bound` limits the number of siblings and the fuel the depth.
-/

import Pliron.Graph.Walkers
import Pliron.Lib.TreeWalkRules

namespace Pliron

open Pliron.Lib TreeWalk

/-- The operation that a node is. -/
def IRNode.asOp : IRNode → Option OpPtr
  | .operation op => some op
  | _ => none

namespace Walkers

variable {τ β α : Type}

/-! ## Reading the context -/

/-- Read from the context. -/
def readCtx (f : Context → Option α) : Check (Context × τ) β α :=
  fun s => (f s.1).map (fun a => (.ok a, s))

/-- A list in the direction of a walk. -/
def directed (direction : Direction) (l : List α) : List α :=
  match direction with
  | .forward => l
  | .reverse => l.reverse

/-- The head, or the tail. -/
def firstIn (direction : Direction) (l : List α) : Option α := (directed direction l).head?

/-- The next element, or the previous one. -/
def nextIn [DecidableEq α] (direction : Direction) (l : List α) (x : α) : Option α :=
  (directed direction l)[(directed direction l).idxOf x + 1]?

/-- What follows a node in what contains it. -/
def nextSibling (direction : Direction) (node : IRNode) (ctx : Context) :
    Option (Option IRNode) :=
  match node with
  | .operation op => do
      let o ← ctx.operations op
      let next := o.parentBlock.bind (fun block => nextIn direction (ctx.blockOps block) op)
      some (next.map .operation)
  | .basicBlock block => do
      let b ← ctx.basicBlocks block
      let next := b.parentRegion.bind (fun region =>
        nextIn direction (ctx.regionBlocks region) block)
      some (next.map .basicBlock)
  | .region _ => none

/-- The first operation of a block, or the first block of a region. -/
def firstChild (direction : Direction) (node : IRNode) (ctx : Context) :
    Option (Option IRNode) :=
  match node with
  | .operation _ => none
  | .basicBlock block =>
      (ctx.basicBlocks block).map (fun b => (firstIn direction b.ops).map .operation)
  | .region region =>
      (ctx.regions region).map (fun r => (firstIn direction r.blocks).map .basicBlock)

/-! ## The walkers -/

/-- Walk a node and those that follow it. -/
def walkSiblings (walk : IRNode → Check (Context × τ) β Unit) (direction : Direction) :
    Nat → Option IRNode → Check (Context × τ) β Unit
  | _, none => pure ()
  | 0, some _ => fun _ => none
  | bound + 1, some node => do
      walk node
      let next ← readCtx (nextSibling direction node)
      walkSiblings walk direction bound next

/-- Walk the regions of an operation. -/
def walkRegions (walk : IRNode → Check (Context × τ) β Unit) (direction : Direction)
    (op : OpPtr) : Check (Context × τ) β Unit := do
  let numRegions ← readCtx (fun ctx => (ctx.operations op).map (fun o => o.regions.length))
  (directed direction (List.range numRegions)).forM (fun i => do
    -- "Region deleted during walk"
    let region ← readCtx (fun ctx => (ctx.operations op).bind (fun o => o.regions[i]?))
    walk (.region region))

def walkChildren (walk : IRNode → Check (Context × τ) β Unit) (direction : Direction)
    (bound : Nat) (node : IRNode) : Check (Context × τ) β Unit :=
  match node with
  | .operation op => walkRegions walk direction op
  | .basicBlock block => do
      let first ← readCtx (firstChild direction (.basicBlock block))
      walkSiblings walk direction bound first
  | .region region => do
      let first ← readCtx (firstChild direction (.region region))
      walkSiblings walk direction bound first

/-- Visit a node and walk its children. -/
def walkMutable (config : WalkConfig) (callback : IRNode → Check (Context × τ) β WalkContinue)
    (bound : Nat) : Nat → IRNode → Check (Context × τ) β Unit
  | 0, _ => fun _ => none
  | fuel + 1, node =>
      let direction := (config.forNode node).2
      match (config.forNode node).1 with
      | .preOrder => do
          match ← callback node with
          | .skip => pure ()
          | .advance => walkChildren (walkMutable config callback bound fuel) direction bound node
      | .postOrder => do
          walkChildren (walkMutable config callback bound fuel) direction bound node
          let _ ← callback node
          pure ()

/-- The walk of a root, in contexts with `bound` nodes at most. -/
def walk (config : WalkConfig) (callback : IRNode → Check (Context × τ) β WalkContinue)
    (bound : Nat) (root : IRNode) : Check (Context × τ) β Unit :=
  walkMutable config callback bound (bound + 1) root

/-- What a callback returns. -/
def answer : Reply β → Except β WalkContinue
  | .advance => .ok .advance
  | .skip => .ok .skip
  | .stop b => .error b

/-- A callback that always answers. -/
def ofVisit {ν σ : Type} (visit : ν → σ → Reply β × σ) (node : ν) : Check σ β WalkContinue :=
  fun s => some (answer (visit node s).1, (visit node s).2)

/-! ## Running them -/

/-- How a walk ends. -/
def ending : Option β → Except β Unit
  | none => .ok ()
  | some b => .error b

section Run

variable {σ α' : Type} {m : Check σ β α} {k : α → Check σ β α'} {s s' : σ}

theorem run_bind_ok {a : α} (h : m s = some (.ok a, s')) : (m >>= k) s = k a s' := by
  show (m s >>= fun p => _) = _
  rw [h]
  rfl

theorem run_bind_error {b : β} (h : m s = some (.error b, s')) :
    (m >>= k) s = some (.error b, s') := by
  show (m s >>= fun p => _) = _
  rw [h]
  rfl

theorem ofVisit_eq {ν : Type} {visit : ν → σ → Reply β × σ} {node : ν} {r : Reply β}
    (hv : visit node s = (r, s')) : ofVisit visit node s = some (answer r, s') := by
  rw [ofVisit, hv]

theorem run_readCtx {s : Context × τ} {f : Context → Option α} {a : α} (h : f s.1 = some a) :
    (readCtx f : Check (Context × τ) β α) s = some (.ok a, s) := by
  show (f s.1).map _ = _
  rw [h]
  rfl

end Run

end Walkers

end Pliron
