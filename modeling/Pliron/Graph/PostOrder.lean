/-
  Pliron.Graph.PostOrder

  Post-order of all nodes of a graph, component by component.

  The walks of the components are one depth-first search that is started again at
  each node it has not seen.  The first component is the one of the entry node, so
  among the nodes that control can reach a dominator comes after what it
  dominates.
-/

import Pliron.Graph.TraversalSpec

namespace Pliron

open Pliron.Lib

variable {α : Type} [DecidableEq α]

namespace Traversals

/-- Compute post-order of the nodes in a graph. -/
def postOrder (g : ControlFlowGraph α) : List α := (postOrderByComponent g).flatten

variable {g : ControlFlowGraph α} {r u v : α} {s : DfsState α}

/-! ## One search, started again -/

/-- The search, started again at a node if it has not seen that yet. -/
def restart (g : ControlFlowGraph α) (s : DfsState α) (node : α) : DfsState α :=
  if node ∈ s.opened then s else (s.push node).run g.successors (walkFuel g)

/-- What was listed before a walk stays in front. -/
theorem postOrderLoop_append (fuel : Nat) (stack : List (α × Nat)) (seen front po : List α) :
    postOrderLoop g fuel stack seen (front ++ po) =
      ((postOrderLoop g fuel stack seen po).1, front ++ (postOrderLoop g fuel stack seen po).2) := by
  induction fuel generalizing stack seen po with
  | zero => rfl
  | succ fuel ih =>
      match stack with
      | [] => rfl
      | (node, i) :: stack =>
          simp only [postOrderLoop]
          cases hsucc : g.getSuccessor node i with
          | some succ =>
              simp only
              split
              · exact ih _ _ _
              · exact ih _ _ _
          | none =>
              simp only
              rw [List.append_assoc]
              exact ih _ _ _

/-- One walk continues the search. -/
theorem postOrderWalkComponent_eq (node : α) :
    ((postOrderWalkComponent g node s.opened []).1,
        s.closed ++ (postOrderWalkComponent g node s.opened []).2) =
      ((restart g s node).opened, (restart g s node).closed) := by
  unfold postOrderWalkComponent restart
  by_cases hmem : node ∈ s.opened
  · rw [if_pos hmem, if_pos hmem, List.append_nil]
  · rw [if_neg hmem, if_neg hmem, ← postOrderLoop_append, List.append_nil]
    exact postOrderLoop_eq_run (walkFuel g) (s.push node)

theorem postOrder_fold (nodes : List α) (comps : List (List α)) (hs : comps.flatten = s.closed) :
    (nodes.foldl (fun acc node =>
        let (seen, po) := postOrderWalkComponent g node acc.1 []
        (seen, if po.isEmpty then acc.2 else acc.2 ++ [po])) (s.opened, comps)).2.flatten =
      (nodes.foldl (restart g) s).closed := by
  induction nodes generalizing s comps with
  | nil => exact hs
  | cons node nodes ih =>
      rw [List.foldl_cons, List.foldl_cons]
      have hwalk := Prod.mk.inj (postOrderWalkComponent_eq (g := g) (s := s) node)
      simp only
      rw [hwalk.1]
      refine ih _ ?_
      rw [← hwalk.2, ← hs]
      split
      · next hnil => rw [List.isEmpty_iff.mp hnil, List.append_nil]
      · rw [List.flatten_append, List.flatten_singleton]

theorem postOrder_eq :
    postOrder g = (g.nodes.foldl (restart g) ⟨[], [], []⟩).closed :=
  postOrder_fold (s := ⟨[], [], []⟩) g.nodes [] rfl

/-! ## The invariant of the search -/

/-- A search that has ended, and only looked at nodes of the graph. -/
structure Searched (g : ControlFlowGraph α) (s : DfsState α) : Prop where
  inv : ∃ roots, (∀ r ∈ roots, r ∈ g.nodes) ∧ DfsInv g.successors roots s
  stack : s.stack = []

namespace Searched

theorem mem_closed (h : Searched g s) : v ∈ s.closed ↔ v ∈ s.opened := by
  obtain ⟨_, _, hinv⟩ := h.inv
  rw [hinv.mem_opened v]
  simp [DfsState.openNodes, h.stack]

theorem mem_nodes (hg : g.Closed) (h : Searched g s) (hv : v ∈ s.opened) : v ∈ g.nodes := by
  obtain ⟨roots, hroots, hinv⟩ := h.inv
  obtain ⟨r, hr, hrv⟩ := hinv.reach_of_opened hv
  exact hg.mem_of_reach (hroots r hr) hrv

theorem restart (hg : g.Closed) (h : Searched g s) (hv : v ∈ g.nodes) :
    Searched g (restart g s v) := by
  unfold Traversals.restart
  by_cases hmem : v ∈ s.opened
  · rw [if_pos hmem]
    exact h
  · rw [if_neg hmem]
    obtain ⟨roots, hroots, hinv⟩ := h.inv
    refine ⟨⟨v :: roots, ?_, (hinv.push h.stack hmem).run _⟩, ?_⟩
    · intro r hr
      rcases List.mem_cons.mp hr with rfl | hr
      · exact hv
      · exact hroots r hr
    · refine DfsState.run_stack hg.succ_mem ?_ (DfsState.remaining_push_le hv hmem)
      intro p hp
      rw [List.mem_singleton.mp hp]
      exact hv

end Searched

theorem mem_opened_restart (hv : v ∈ s.opened) (node : α) : v ∈ (restart g s node).opened := by
  unfold restart
  split
  · exact hv
  · exact DfsState.mem_opened_run _ (List.mem_append_left _ hv)

theorem self_mem_restart (node : α) : node ∈ (restart g s node).opened := by
  unfold restart
  split
  · next hmem => exact hmem
  · exact DfsState.mem_opened_run _ (List.mem_append_right _ (List.mem_singleton_self node))

theorem closed_prefix_step (succs : α → List α) : s.closed <+: (s.step succs).closed := by
  unfold DfsState.step
  split
  · exact List.prefix_rfl
  · split
    · split
      · exact List.prefix_rfl
      · exact List.prefix_rfl
    · exact List.prefix_append _ _

theorem closed_prefix_run (succs : α → List α) (fuel : Nat) :
    s.closed <+: (s.run succs fuel).closed := by
  induction fuel generalizing s with
  | zero => exact List.prefix_rfl
  | succ fuel ih =>
      unfold DfsState.run
      split
      · exact List.prefix_rfl
      · exact (closed_prefix_step succs).trans ih

theorem closed_prefix_restart (node : α) : s.closed <+: (restart g s node).closed := by
  unfold restart
  split
  · exact List.prefix_rfl
  · exact closed_prefix_run (s := s.push node) g.successors _

theorem foldl_restart (hg : g.Closed) {nodes : List α} (hnodes : ∀ v ∈ nodes, v ∈ g.nodes)
    (h : Searched g s) :
    Searched g (nodes.foldl (restart g) s) ∧
      (∀ v, v ∈ s.opened ∨ v ∈ nodes → v ∈ (nodes.foldl (restart g) s).opened) ∧
      s.closed <+: (nodes.foldl (restart g) s).closed := by
  induction nodes generalizing s with
  | nil => exact ⟨h, fun v hv => hv.resolve_right List.not_mem_nil, List.prefix_rfl⟩
  | cons node nodes ih =>
      rw [List.foldl_cons]
      obtain ⟨hend, hmem, hfront⟩ := ih (fun v hv => hnodes v (List.mem_cons_of_mem _ hv))
        (h.restart hg (hnodes node List.mem_cons_self))
      refine ⟨hend, ?_, (closed_prefix_restart node).trans hfront⟩
      rintro v (hv | hv)
      · exact hmem v (Or.inl (mem_opened_restart hv node))
      · rcases List.mem_cons.mp hv with rfl | hv
        · exact hmem v (Or.inl (self_mem_restart v))
        · exact hmem v (Or.inr hv)

theorem searched_nil : Searched g ⟨[], [], []⟩ :=
  ⟨⟨[], by simp, DfsInv.empty⟩, rfl⟩

/-! ## Post-order -/

section Closed

variable (hg : g.Closed)

include hg

theorem postOrder_nodup : (postOrder g).Nodup := by
  obtain ⟨hend, _⟩ := foldl_restart hg (fun _ hv => hv) searched_nil
  obtain ⟨_, _, hinv⟩ := hend.inv
  rw [postOrder_eq]
  exact hinv.closed_nodup

/-- Every node is listed. -/
theorem mem_postOrder : v ∈ postOrder g ↔ v ∈ g.nodes := by
  obtain ⟨hend, hmem, _⟩ := foldl_restart hg (fun _ hv => hv) searched_nil
  rw [postOrder_eq, hend.mem_closed]
  constructor
  · exact hend.mem_nodes hg
  · exact fun hv => hmem v (Or.inr hv)

end Closed

/-- The first component is what can be reached from the entry. -/
theorem search_prefix_postOrder (hg : g.Valid) (hr : g.entryNode = some r) :
    (search g r).closed <+: postOrder g := by
  have hhead := hg.entry ▸ hr
  obtain ⟨nodes, hnodes⟩ : ∃ nodes, g.nodes = r :: nodes := by
    cases hl : g.nodes with
    | nil => simp [hl] at hhead
    | cons a l =>
        rw [hl, List.head?_cons] at hhead
        exact ⟨l, by rw [Option.some.inj hhead]⟩
  have hfirst : restart g ⟨[], [], []⟩ r = search g r := if_neg List.not_mem_nil
  have hsearched := searched_nil.restart hg.closed (hg.entry_mem hr)
  rw [hfirst] at hsearched
  rw [postOrder_eq, hnodes, List.foldl_cons, hfirst]
  refine (foldl_restart hg.closed (fun v hv => ?_) hsearched).2.2
  rw [hnodes]
  exact List.mem_cons_of_mem _ hv

/-- A dominator comes after what it dominates. -/
theorem idxOf_lt_of_strictlyDominates (hg : g.Valid) (hr : g.entryNode = some r)
    (hv : Reach g.Edge r v) (hd : StrictlyDominates g.Edge r u v) :
    (postOrder g).idxOf v < (postOrder g).idxOf u := by
  have hrn := hg.entry_mem hr
  have hlt := ((search_isDfsOrder hg.closed hrn).lt_of_strictlyDominates hv hd).2
  have hu := (mem_search_closed hg.closed hrn).mpr (hd.1.reach hv).1
  have hv' := (mem_search_closed hg.closed hrn).mpr hv
  obtain ⟨rest, hrest⟩ := search_prefix_postOrder hg hr
  rw [← hrest, List.idxOf_append_of_mem hv', List.idxOf_append_of_mem hu]
  exact hlt

/-! ## Graphs with the same edges -/

section Congr

variable {g' : ControlFlowGraph α}

theorem postOrderLoop_congr (hg : g.Closed)
    (hsucc : ∀ n ∈ g.nodes, g'.successors n = g.successors n) (fuel : Nat)
    {stack : List (α × Nat)} (hstack : ∀ p ∈ stack, p.1 ∈ g.nodes) (seen po : List α) :
    postOrderLoop g' fuel stack seen po = postOrderLoop g fuel stack seen po := by
  induction fuel generalizing stack seen po with
  | zero => rfl
  | succ fuel ih =>
      match stack with
      | [] => rfl
      | (node, i) :: stack =>
          have hnode : node ∈ g.nodes := hstack (node, i) List.mem_cons_self
          have hrest : ∀ p ∈ stack, p.1 ∈ g.nodes :=
            fun p hp => hstack p (List.mem_cons_of_mem _ hp)
          have hget : g'.getSuccessor node i = g.getSuccessor node i := by
            rw [ControlFlowGraph.getSuccessor, hsucc node hnode, ControlFlowGraph.getSuccessor]
          simp only [postOrderLoop, hget]
          cases hs : g.getSuccessor node i with
          | none => exact ih hrest _ _
          | some succ =>
              have hmem : succ ∈ g.nodes := hg.succ_mem node hnode succ (List.mem_of_getElem? hs)
              simp only
              split
              · refine ih (fun p hp => ?_) _ _
                rcases List.mem_cons.mp hp with rfl | hp
                · exact hnode
                · exact hrest p hp
              · refine ih (fun p hp => ?_) _ _
                rcases List.mem_cons.mp hp with rfl | hp
                · exact hmem
                · rcases List.mem_cons.mp hp with rfl | hp
                  · exact hnode
                  · exact hrest p hp

/-- The order only depends on the nodes and their successors. -/
theorem postOrder_congr (hg : g.Closed) (hnodes : g'.nodes = g.nodes)
    (hsucc : ∀ n ∈ g.nodes, g'.successors n = g.successors n) : postOrder g' = postOrder g := by
  have hfuel : walkFuel g' = walkFuel g := by
    unfold walkFuel
    rw [hnodes]
    refine congrArg List.sum (List.map_congr_left (fun n hn => ?_))
    rw [ControlFlowGraph.numSuccessors, hsucc n hn, ControlFlowGraph.numSuccessors]
  have hwalk : ∀ node ∈ g.nodes, ∀ seen po,
      postOrderWalkComponent g' node seen po = postOrderWalkComponent g node seen po := by
    intro node hnode seen po
    unfold postOrderWalkComponent
    split
    · rfl
    · rw [hfuel]
      refine postOrderLoop_congr hg hsucc _ (fun p hp => ?_) _ _
      rw [List.mem_singleton.mp hp]
      exact hnode
  unfold postOrder postOrderByComponent
  rw [hnodes]
  refine congrArg (fun acc : List α × List (List α) => acc.2.flatten)
    (List.foldl_ext _ _ _ (fun acc node hnode => ?_))
  rw [hwalk node hnode]

end Congr

end Traversals

end Pliron
