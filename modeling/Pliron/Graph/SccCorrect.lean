/-
  Pliron.Graph.SccCorrect

  The strongly connected components, as a whole: they partition the nodes, two
  nodes share a component exactly when each reaches the other, no edge leads
  to an earlier component, and a component is marked cyclic exactly when it
  has a cycle.

  `Pliron.Graph.SccSpec` has the components and their order.  What is added
  here is the mark, which every step of the search keeps right.
-/

import Pliron.Graph.SccSpec

namespace Pliron

open Pliron.Lib Relation

variable {α : Type} [DecidableEq α]

namespace Traversals

variable {g : ControlFlowGraph α}

/-! ## The cyclic mark -/

/-- A component is marked from its length and the edges of its first node. -/
def Scc.Marked (g : ControlFlowGraph α) (C : Scc α) : Prop :=
  ∃ first, C.nodes[0]? = some first ∧
    C.isCyclic = (C.nodes.length > 1 || (g.successors first).contains first)

/-- The mark says whether there is a second node, or a loop on some node. -/
theorem Scc.Marked.isCyclic_iff {C : Scc α} (h : C.Marked g) :
    C.isCyclic = true ↔ 1 < C.nodes.length ∨ ∃ u ∈ C.nodes, g.Edge u u := by
  obtain ⟨first, hfirst, hmark⟩ := h
  rw [hmark, Bool.or_eq_true, decide_eq_true_eq, List.contains_iff_mem]
  constructor
  · rintro (hlen | hself)
    · exact Or.inl hlen
    · exact Or.inr ⟨first, List.mem_of_getElem? hfirst, hself⟩
  · rintro (hlen | ⟨u, hu, hself⟩)
    · exact Or.inl hlen
    · by_cases hlen : 1 < C.nodes.length
      · exact Or.inl hlen
      · right
        match hnodes : C.nodes with
        | [a] =>
            rw [hnodes, List.mem_singleton] at hu
            rw [hnodes, List.getElem?_cons_zero, Option.some.injEq] at hfirst
            rw [← hfirst, ← hu]
            exact hself
        | [] =>
            rw [hnodes] at hu
            exact absurd hu List.not_mem_nil
        | _ :: _ :: _ =>
            rw [hnodes] at hlen
            simp at hlen

namespace SccState

variable {st st' : SccState α}

/-- What popping a component adds to the list. -/
theorem popIfRoot_sccs {n : α} {low : Nat} (h : popIfRoot g st n low = some st') :
    st'.sccs = st.sccs ∨ ∃ C : Scc α, C.Marked g ∧ st'.sccs = st.sccs ++ [C] := by
  simp only [popIfRoot, Option.bind_eq_bind, Option.bind_eq_some_iff] at h
  obtain ⟨index, -, h⟩ := h
  by_cases hroot : low = index
  · rw [if_pos hroot] at h
    simp only [Option.bind_eq_some_iff, Option.some.injEq] at h
    obtain ⟨⟨nodes, stack, on⟩, -, first, hfirst, rfl⟩ := h
    exact Or.inr ⟨_, ⟨first, hfirst, rfl⟩, rfl⟩
  · rw [if_neg hroot, Option.some.injEq] at h
    exact Or.inl (h ▸ rfl)

theorem propagate_sccs {low : Nat} (h : st.propagate low = some st') : st'.sccs = st.sccs := by
  match hs : st.callStack with
  | [] =>
      simp only [propagate, hs, Option.some.injEq] at h
      rw [h]
  | (p, j) :: rest =>
      simp only [propagate, hs, Option.bind_eq_bind, Option.bind_eq_some_iff,
        Option.some.injEq] at h
      obtain ⟨parentLow, -, rfl⟩ := h
      rfl

/-- One iteration adds at most one component, rightly marked. -/
theorem step_sccs (h : st.step g = some st') :
    st'.sccs = st.sccs ∨ ∃ C : Scc α, C.Marked g ∧ st'.sccs = st.sccs ++ [C] := by
  rcases hs : st.callStack with _ | ⟨⟨n, i⟩, rest⟩
  · simp only [step, hs, Option.some.injEq] at h
    exact Or.inl (h ▸ rfl)
  · cases hv : g.getSuccessor n i with
    | some v =>
        left
        cases hindex : st.indexOf v with
        | some index =>
            simp only [step, hs, hv, hindex] at h
            by_cases hon : v ∈ st.onSccStack
            · simp only [if_pos hon, Option.bind_eq_bind, Option.bind_eq_some_iff,
                Option.some.injEq] at h
              obtain ⟨low, -, rfl⟩ := h
              rfl
            · rw [if_neg hon, Option.some.injEq] at h
              rw [← h]
        | none =>
            simp only [step, hs, hv, hindex, Option.some.injEq] at h
            rw [← h]
            rfl
    | none =>
        simp only [step, hs, hv, Option.bind_eq_bind, Option.bind_eq_some_iff] at h
        obtain ⟨low, -, st₁, hpop, hprop⟩ := h
        have hpopped := popIfRoot_sccs hpop
        rw [propagate_sccs hprop]
        exact hpopped

/-- All components found are rightly marked. -/
def Marked (g : ControlFlowGraph α) (st : SccState α) : Prop := ∀ C ∈ st.sccs, C.Marked g

theorem Marked.step (hm : st.Marked g) (h : st.step g = some st') : st'.Marked g := by
  rcases step_sccs h with hsame | ⟨C, hC, hadd⟩
  · rw [Marked, hsame]
    exact hm
  · intro D hD
    rw [hadd, List.mem_append, List.mem_singleton] at hD
    rcases hD with hD | rfl
    · exact hm D hD
    · exact hC

theorem Marked.loop (hm : st.Marked g) (fuel : Nat) (h : SccState.loop g fuel st = some st') :
    st'.Marked g := by
  induction fuel generalizing st with
  | zero =>
      unfold SccState.loop at h
      by_cases hs : st.callStack.isEmpty = true
      · rw [if_pos hs, Option.some.injEq] at h
        exact h ▸ hm
      · rw [if_neg hs] at h
        exact absurd h (by simp)
  | succ fuel ih =>
      unfold SccState.loop at h
      by_cases hs : st.callStack.isEmpty = true
      · rw [if_pos hs, Option.some.injEq] at h
        exact h ▸ hm
      · rw [if_neg hs] at h
        simp only [Option.bind_eq_bind, Option.bind_eq_some_iff] at h
        obtain ⟨st₁, hstep, hloop⟩ := h
        exact ih (hm.step hstep) hloop

/-- The search over a list of first nodes keeps the marks right. -/
theorem Marked.foldlM (hm : st.Marked g) (roots : List α)
    (h : roots.foldlM (fun (st : SccState α) root =>
        if (st.indexOf root).isSome then some st
        else SccState.loop g (walkFuel g) ({ st with callStack := [] }.visit root)) st =
      some st') : st'.Marked g := by
  induction roots generalizing st with
  | nil =>
      rw [List.foldlM_nil] at h
      exact Option.some.inj h ▸ hm
  | cons root roots ih =>
      rw [List.foldlM_cons, Option.bind_eq_bind, Option.bind_eq_some_iff] at h
      obtain ⟨st₁, hroot, hrest⟩ := h
      refine ih ?_ hrest
      by_cases hseen : (st.indexOf root).isSome = true
      · rw [if_pos hseen, Option.some.injEq] at hroot
        exact hroot ▸ hm
      · rw [if_neg hseen] at hroot
        have hvisit : ({ st with callStack := [] }.visit root).Marked g := hm
        exact hvisit.loop _ hroot

end SccState

/-! ## The components as a whole -/

/-- `sccs` is the condensation of `g` in topological order. -/
structure IsCondensation (g : ControlFlowGraph α) (sccs : List (Scc α)) : Prop where
  /-- No node is listed twice, in one component or in two. -/
  nodup : (sccs.map Scc.nodes).flatten.Nodup
  nonempty : ∀ C ∈ sccs, C.nodes ≠ []
  /-- All nodes are listed, and nothing else. -/
  cover : ∀ v, (∃ C ∈ sccs, v ∈ C.nodes) ↔ v ∈ g.nodes
  same : ∀ u ∈ g.nodes, ∀ v ∈ g.nodes,
    ((∃ C ∈ sccs, u ∈ C.nodes ∧ v ∈ C.nodes) ↔ Reach g.Edge u v ∧ Reach g.Edge v u)
  /-- Edges stay in their component or lead to a later one. -/
  order : ∀ (i j : Nat) (C D : Scc α), sccs[i]? = some C → sccs[j]? = some D →
    ∀ u ∈ C.nodes, ∀ v ∈ D.nodes, g.Edge u v → i ≤ j
  cyclic_iff : ∀ C ∈ sccs,
    (C.isCyclic = true ↔ 1 < C.nodes.length ∨ ∃ u ∈ C.nodes, g.Edge u u)
  cyclic_iff_cycle : ∀ C ∈ sccs, (C.isCyclic = true ↔ ∃ u ∈ C.nodes, TransGen g.Edge u u)

omit [DecidableEq α] in
/-- A component has a second node or a self loop exactly when a cycle runs through it. -/
theorem exists_cycle_iff {sccs : List (Scc α)} (h : AreSccs g.successors (sccs.map Scc.nodes))
    {C : Scc α} (hC : C ∈ sccs) : (1 < C.nodes.length ∨ ∃ u ∈ C.nodes, g.Edge u u) ↔
      ∃ u ∈ C.nodes, TransGen g.Edge u u := by
  have hC' : C.nodes ∈ sccs.map Scc.nodes := List.mem_map_of_mem hC
  constructor
  · rintro (hlen | ⟨u, hu, hself⟩)
    · have hnodup : C.nodes.Nodup := (List.nodup_flatten.mp h.nodup).1 _ hC'
      match hnodes : C.nodes with
      | a :: b :: rest =>
          rw [hnodes, List.nodup_cons] at hnodup
          have hab : a ≠ b := fun heq => hnodup.1 (heq ▸ List.mem_cons_self)
          have ha : a ∈ C.nodes := hnodes ▸ List.mem_cons_self
          have hb : b ∈ C.nodes := hnodes ▸ List.mem_cons_of_mem _ List.mem_cons_self
          have hforth : Reach g.Edge a b := h.connected _ hC' a ha b hb
          have hback : Reach g.Edge b a := h.connected _ hC' b hb a ha
          have hstep := (reflTransGen_iff_eq_or_transGen.mp hforth).resolve_left (Ne.symm hab)
          exact ⟨a, List.mem_cons_self, hstep.trans_left hback⟩
      | [a] => rw [hnodes] at hlen; simp at hlen
      | [] => rw [hnodes] at hlen; simp at hlen
    · exact ⟨u, hu, TransGen.single hself⟩
  · rintro ⟨u, hu, hcycle⟩
    by_cases hlen : 1 < C.nodes.length
    · exact Or.inl hlen
    · exact Or.inr ⟨u, hu, h.self_loop_of_transGen hC' hu (Nat.le_of_not_lt hlen) hcycle⟩

/-- The iterative search computes the condensation of every graph. -/
theorem sccsInTopologicalOrder_correct (hg : g.Closed) :
    ∃ sccs, sccsInTopologicalOrder g = some sccs ∧ IsCondensation g sccs := by
  obtain ⟨sccs, hsccs, hare, hmem⟩ := sccsInTopologicalOrder_spec hg
  have hmarked : ∀ C ∈ sccs, C.Marked g := by
    rw [sccsInTopologicalOrder, Option.bind_eq_bind, Option.bind_eq_some_iff] at hsccs
    obtain ⟨st, hfold, hst⟩ := hsccs
    have hm : st.Marked g := SccState.Marked.foldlM (fun _ hC => absurd hC (by simp)) _ hfold
    intro C hC
    rw [← Option.some.inj hst, List.mem_reverse] at hC
    exact hm C hC
  have hget : ∀ {i : Nat} {C : Scc α}, sccs[i]? = some C →
      (sccs.map Scc.nodes)[i]? = some C.nodes := by
    intro i C hi
    rw [List.getElem?_map, hi, Option.map_some]
  refine ⟨sccs, hsccs, hare.nodup, fun C hC => hare.nonempty _ (List.mem_map_of_mem hC),
    fun v => ?_, fun u hu v hv => ?_, fun i j C D hi hj u hu v hv huv => ?_,
    fun C hC => (hmarked C hC).isCyclic_iff, fun C hC => ?_⟩
  · rw [← hmem, List.mem_flatten]
    simp
  · -- two nodes are in one component when each reaches the other
    have hsame := hare.same_iff ((hmem u).mpr hu) ((hmem v).mpr hv)
    simp only [List.mem_map, exists_exists_and_eq_and] at hsame
    exact hsame
  · -- an edge does not lead to an earlier component
    exact hare.topo.le_of_reach hare.nodup (hget hi) (hget hj) hu hv ((Reach.refl u).tail huv)
  · rw [(hmarked C hC).isCyclic_iff]
    exact exists_cycle_iff hare hC

/-- Two nodes that reach each other, a loop, a repeated edge, and a node the entry misses. -/
theorem sccsInTopologicalOrder_correct_arena :
    (arenaGraph [[1], [2, 2], [1, 3], [3], [0]]).Closed ∧
      ∃ sccs, sccsInTopologicalOrder (arenaGraph [[1], [2, 2], [1, 3], [3], [0]]) = some sccs ∧
        IsCondensation (arenaGraph [[1], [2, 2], [1, 3], [3], [0]]) sccs :=
  ⟨(arenaGraph_valid (by decide)).closed,
    sccsInTopologicalOrder_correct (arenaGraph_valid (by decide)).closed⟩

example : sccsInTopologicalOrder (arenaGraph [[1], [2, 2], [1, 3], [3], [0]]) =
    some [⟨[4], false⟩, ⟨[0], false⟩, ⟨[2, 1], true⟩, ⟨[3], true⟩] := by decide +kernel

end Traversals

end Pliron
