/-
  Pliron.Graph.Basic

  Control-flow graphs as the traversals and the dominance algorithms see them.

  The source abstracts over a trait with the successors and predecessors of a
  node, an optional entry node and the nodes in order.  `ControlFlowGraph` is
  that trait as a record of data; `Valid` is what the graph of a well-formed
  region promises beyond it.
-/

import Pliron.Lib.Dfs

namespace Pliron

open Pliron.Lib

/-- A control-flow graph with nodes of type `α`. -/
structure ControlFlowGraph (α : Type) where
  successors : α → List α
  predecessors : α → List α
  entryNode : Option α
  nodes : List α

namespace ControlFlowGraph

variable {α : Type} (g : ControlFlowGraph α)

/-- Number of successors of `node`. -/
def numSuccessors (node : α) : Nat := (g.successors node).length

/-- The `i`-th successor of `node`; `none` is the panic of the source. -/
def getSuccessor (node : α) (i : Nat) : Option α := (g.successors node)[i]?

/-- Number of predecessors of `node`. -/
def numPredecessors (node : α) : Nat := (g.predecessors node).length

/-- Control can pass from `u` to `v`. -/
def Edge (u v : α) : Prop := v ∈ g.successors u

instance [DecidableEq α] : DecidableRel g.Edge := fun u v =>
  inferInstanceAs (Decidable (v ∈ g.successors u))

/-- `v` can be reached from the entry node. -/
def Reachable (v : α) : Prop := ∃ r, g.entryNode = some r ∧ Reach g.Edge r v

/-- What any implementation of the interface promises: edges stay inside the graph, and the
    entry, if there is one, is a node. -/
structure Closed : Prop where
  succ_mem : ∀ n ∈ g.nodes, ∀ s ∈ g.successors n, s ∈ g.nodes
  entry_mem : ∀ r, g.entryNode = some r → r ∈ g.nodes

/-- What the region of a verified program promises about its graph: edges stay inside,
    predecessors are the converse of successors, and the entry is the first node. -/
structure Valid : Prop where
  succ_mem : ∀ n ∈ g.nodes, ∀ s ∈ g.successors n, s ∈ g.nodes
  mem_preds : ∀ n ∈ g.nodes, ∀ p ∈ g.nodes, p ∈ g.predecessors n ↔ n ∈ g.successors p
  entry : g.entryNode = g.nodes.head?

/-- A finite directed graph: moreover its nodes are distinct, and predecessors are nodes. -/
structure IsDigraph : Prop extends g.Valid where
  nodup : g.nodes.Nodup
  pred_mem : ∀ n ∈ g.nodes, ∀ p ∈ g.predecessors n, p ∈ g.nodes

variable {g}

theorem Closed.mem_of_reach (h : g.Closed) {u v : α} (hu : u ∈ g.nodes)
    (huv : Reach g.Edge u v) : v ∈ g.nodes :=
  huv.closed hu (fun x y hx hxy => h.succ_mem x hx y hxy)

theorem Valid.entry_mem (h : g.Valid) {r : α} (hr : g.entryNode = some r) : r ∈ g.nodes :=
  List.mem_of_head? (h.entry ▸ hr)

theorem Valid.closed (h : g.Valid) : g.Closed where
  succ_mem := h.succ_mem
  entry_mem _ hr := h.entry_mem hr

theorem Valid.mem_of_reach (h : g.Valid) {u v : α} (hu : u ∈ g.nodes)
    (huv : Reach g.Edge u v) : v ∈ g.nodes :=
  h.closed.mem_of_reach hu huv

theorem Reachable.tail {u v : α} (hu : g.Reachable u) (huv : g.Edge u v) : g.Reachable v := by
  obtain ⟨r, hr, hru⟩ := hu
  exact ⟨r, hr, hru.tail huv⟩

end ControlFlowGraph

/-- The graph given by the successors of each node, with node 0 as its entry. -/
def arenaGraph (succs : List (List Nat)) : ControlFlowGraph Nat where
  successors node := succs.getD node []
  predecessors node := (List.range succs.length).filter (fun p => node ∈ succs.getD p [])
  entryNode := (List.range succs.length).head?
  nodes := List.range succs.length

theorem arenaGraph_valid {succs : List (List Nat)}
    (h : ∀ l ∈ succs, ∀ s ∈ l, s < succs.length) : (arenaGraph succs).Valid where
  succ_mem n hn s hs := by
    have hn : n < succs.length := List.mem_range.mp hn
    refine List.mem_range.mpr (h succs[n] (List.getElem_mem hn) s ?_)
    simpa [arenaGraph, hn] using hs
  mem_preds n _ p hp := by
    have hp : p < succs.length := List.mem_range.mp hp
    simp [arenaGraph, hp]
  entry := rfl

theorem arenaGraph_isDigraph {succs : List (List Nat)}
    (h : ∀ l ∈ succs, ∀ s ∈ l, s < succs.length) : (arenaGraph succs).IsDigraph where
  toValid := arenaGraph_valid h
  nodup := List.nodup_range
  pred_mem _ _ _ hp := (List.mem_filter.mp hp).1

end Pliron
