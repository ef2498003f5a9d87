/-
  Pliron.Graph.PostDominanceSpec

  What the post-dominator tree answers.

  Every node reaches a component that no edge leaves, so the pre-sentinels make
  every node reverse-reachable from the sentinel.  A path of the reverse graph
  from the sentinel, read backwards, is a path of the graph in which every exit
  and every pre-sentinel has an edge to the sentinel.
-/

import Mathlib.Data.List.ReduceOption
import Pliron.Graph.PostDominance
import Pliron.Graph.DomTreeSpec
import Pliron.Graph.SccSpec

namespace Pliron

open Pliron.Lib Traversals

variable {α : Type} [DecidableEq α] {g : ControlFlowGraph α} {u v x y : α}

/-! ## Pre-sentinels -/

section PreSentinels

variable {sccs : List (Scc α)} {i : Nat}

omit [DecidableEq α] in
theorem map_fst_flatMap_zipIdx (sccs : List (Scc α)) (k : Nat) :
    ((sccs.zipIdx k).flatMap (fun e => e.1.nodes.map (fun node => (node, e.2)))).map Prod.fst =
      (sccs.map Scc.nodes).flatten := by
  induction sccs generalizing k with
  | nil => rfl
  | cons scc sccs ih =>
      have hfst : (Prod.fst ∘ fun node : α => (node, k)) = id := rfl
      rw [List.zipIdx_cons, List.flatMap_cons, List.map_append, ih, List.map_map, hfst,
        List.map_id, List.map_cons, List.flatten_cons]

/-- The map gives each node the component it is in. -/
theorem sccOf_eq_some_iff (h : (sccs.map Scc.nodes).flatten.Nodup) :
    sccOf sccs v = some i ↔ ∃ scc, sccs[i]? = some scc ∧ v ∈ scc.nodes := by
  rw [sccOf, HMap.ofList_eq_some_iff (by rwa [map_fst_flatMap_zipIdx])]
  simp only [List.mem_flatMap, List.mem_map, Prod.mk.injEq, Prod.exists,
    List.mk_mem_zipIdx_iff_getElem?]
  constructor
  · rintro ⟨scc, j, hj, w, hw, rfl, rfl⟩
    exact ⟨scc, hj, hw⟩
  · rintro ⟨scc, hi, hv⟩
    exact ⟨scc, i, hi, v, hv, rfl, rfl⟩

theorem exists_sccOf (h : (sccs.map Scc.nodes).flatten.Nodup)
    (hv : v ∈ (sccs.map Scc.nodes).flatten) :
    ∃ i scc, sccOf sccs v = some i ∧ sccs[i]? = some scc ∧ v ∈ scc.nodes := by
  obtain ⟨C, hC, hv⟩ := List.mem_flatten.mp hv
  obtain ⟨scc, hscc, rfl⟩ := List.mem_map.mp hC
  obtain ⟨i, hi⟩ := List.mem_iff_getElem?.mp hscc
  exact ⟨i, scc, (sccOf_eq_some_iff h).mpr ⟨scc, hi, hv⟩, hi, hv⟩

/-- No edge leaves the component. -/
def IsSink (g : ControlFlowGraph α) (nodes : List α) : Prop :=
  ∀ u ∈ nodes, ∀ v ∈ g.successors u, v ∈ nodes

instance : DecidablePred (IsSink g) := fun nodes =>
  inferInstanceAs (Decidable (∀ u ∈ nodes, ∀ v ∈ g.successors u, v ∈ nodes))

theorem isSinkScc_eq (h : (sccs.map Scc.nodes).flatten.Nodup)
    (hclosed : ∀ u ∈ (sccs.map Scc.nodes).flatten, ∀ v ∈ g.successors u,
      v ∈ (sccs.map Scc.nodes).flatten) {scc : Scc α} (hi : sccs[i]? = some scc) :
    isSinkScc g sccs (scc, i) = some (decide (IsSink g scc.nodes)) := by
  have hmem : ∀ u ∈ scc.nodes, u ∈ (sccs.map Scc.nodes).flatten := fun u hu =>
    List.mem_flatten.mpr ⟨_, List.mem_map_of_mem (List.mem_of_getElem? hi), hu⟩
  have hsucc : ∀ u ∈ scc.nodes, ∀ v ∈ g.successors u,
      ((sccOf sccs v).bind fun j => some (decide (j = i))) = some (decide (v ∈ scc.nodes)) := by
    intro u hu v hv
    obtain ⟨j, scc', hj, hscc', hv'⟩ := exists_sccOf h (hclosed u (hmem u hu) v hv)
    rw [hj, Option.bind_some, Option.some.injEq, decide_eq_decide]
    constructor
    · rintro rfl
      exact Option.some.inj (hscc'.symm.trans hi) ▸ hv'
    · intro hv''
      exact Option.some.inj (hj.symm.trans ((sccOf_eq_some_iff h).mpr ⟨scc, hi, hv''⟩))
  refine (allM_of_eq_some (fun u hu => allM_of_eq_some (hsucc u hu))).trans ?_
  rw [Option.some.injEq, Bool.eq_iff_iff]
  simp only [IsSink, List.all_eq_true, decide_eq_true_eq]
  exact decide_eq_true_iff.symm

/-- What the selection holds after some of the nodes. -/
structure Selected (g : ControlFlowGraph α) (sccs : List (Scc α)) (seen : List α)
    (selected : List (Option α)) : Prop where
  length : selected.length = sccs.length
  sound : ∀ (i : Nat) (v : α), selected[i]? = some (some v) →
    ∃ scc, sccs[i]? = some scc ∧ v ∈ scc.nodes ∧ IsSink g scc.nodes
  complete : ∀ v ∈ seen, ∀ (i : Nat) (scc : Scc α), sccs[i]? = some scc → v ∈ scc.nodes →
    IsSink g scc.nodes → ∃ w, selected[i]? = some (some w)

theorem selectNodes_spec (h : (sccs.map Scc.nodes).flatten.Nodup) {isSink : List Bool}
    (hsink : ∀ (i : Nat) (scc : Scc α), sccs[i]? = some scc →
      isSink[i]? = some (decide (IsSink g scc.nodes)))
    (nodes : List α) (hnodes : ∀ v ∈ nodes, v ∈ (sccs.map Scc.nodes).flatten) {seen : List α}
    {selected : List (Option α)} (hsel : Selected g sccs seen selected) :
    ∃ selected', selectNodes sccs isSink nodes selected = some selected' ∧
      Selected g sccs (seen ++ nodes) selected' := by
  induction nodes generalizing seen selected with
  | nil => exact ⟨selected, rfl, by simpa using hsel⟩
  | cons v nodes ih =>
      obtain ⟨i, scc, hi, hscc, hv⟩ := exists_sccOf h (hnodes v List.mem_cons_self)
      have hnodes' : ∀ v ∈ nodes, v ∈ (sccs.map Scc.nodes).flatten := fun w hw =>
        hnodes w (List.mem_cons_of_mem _ hw)
      have huniq : ∀ (j : Nat) (scc' : Scc α), sccs[j]? = some scc' → v ∈ scc'.nodes → j = i :=
        fun j scc' hj hv' =>
          Option.some.inj (((sccOf_eq_some_iff h).mpr ⟨scc', hj, hv'⟩).symm.trans hi)
      have hlt : i < selected.length := by
        rw [hsel.length]
        exact (List.getElem?_eq_some_iff.mp hscc).1
      by_cases hs : IsSink g scc.nodes
      · have hstep : Selected g sccs (seen ++ [v]) (selected.set i (some v)) := by
          refine ⟨by simpa using hsel.length, fun j w hj => ?_, fun w hw j scc' hj hw' hs' => ?_⟩
          · by_cases hji : i = j
            · subst hji
              rw [List.getElem?_set_self hlt, Option.some.injEq, Option.some.injEq] at hj
              exact ⟨scc, hscc, hj ▸ hv, hs⟩
            · rw [List.getElem?_set_ne hji] at hj
              exact hsel.sound j w hj
          · by_cases hji : i = j
            · subst hji
              exact ⟨v, List.getElem?_set_self hlt⟩
            · rw [List.getElem?_set_ne hji]
              rcases List.mem_append.mp hw with hw | hw
              · exact hsel.complete w hw j scc' hj hw' hs'
              · rw [List.mem_singleton.mp hw] at hw'
                exact absurd (huniq j scc' hj hw').symm hji
        obtain ⟨selected', hfold, h'⟩ := ih hnodes' hstep
        refine ⟨selected', ?_, by simpa using h'⟩
        simpa [selectNodes, hi, hsink i scc hscc, hs] using hfold
      · have hstep : Selected g sccs (seen ++ [v]) selected := by
          refine ⟨hsel.length, hsel.sound, fun w hw j scc' hj hw' hs' => ?_⟩
          rcases List.mem_append.mp hw with hw | hw
          · exact hsel.complete w hw j scc' hj hw' hs'
          · rw [List.mem_singleton.mp hw] at hw'
            obtain rfl := huniq j scc' hj hw'
            exact absurd (Option.some.inj (hj.symm.trans hscc) ▸ hs') hs
        obtain ⟨selected', hfold, h'⟩ := ih hnodes' hstep
        refine ⟨selected', ?_, by simpa using h'⟩
        simpa [selectNodes, hi, hsink i scc hscc, hs] using hfold

/-- The pre-sentinels are nodes, every exit is one, and every node reaches one. -/
theorem findPreSentinels_spec (hg : g.Valid) :
    ∃ pre, findPreSentinels g = some pre ∧ (∀ p ∈ pre, p ∈ g.nodes) ∧
      (∀ v ∈ g.nodes, g.successors v = [] → v ∈ pre) ∧
      ∀ v ∈ g.nodes, ∃ p ∈ pre, Reach g.Edge v p := by
  obtain ⟨sccs, hsccs, hare, hmem⟩ := sccsInTopologicalOrder_spec hg.closed
  have hclosed : ∀ u ∈ (sccs.map Scc.nodes).flatten, ∀ v ∈ g.successors u,
      v ∈ (sccs.map Scc.nodes).flatten := fun u hu v hv =>
    (hmem v).mpr (hg.succ_mem u ((hmem u).mp hu) v hv)
  have hisSink : ∀ e ∈ sccs.zipIdx,
      isSinkScc g sccs e = some (decide (IsSink g e.1.nodes)) := by
    rintro ⟨scc, i⟩ he
    exact isSinkScc_eq hare.nodup hclosed (List.mk_mem_zipIdx_iff_getElem?.mp he)
  have hmapM : sccs.zipIdx.mapM (isSinkScc g sccs) =
      some (sccs.map (fun scc => decide (IsSink g scc.nodes))) := by
    rw [mapM_of_isSome (fun e he => by rw [hisSink e he]; rfl), Option.some.injEq,
      List.filterMap_congr hisSink, List.filterMap_eq_map']
    conv_rhs => rw [← List.zipIdx_map_fst 0 sccs]
    rw [List.map_map]
    rfl
  have hinit : Selected g sccs [] (List.replicate sccs.length none) := by
    refine ⟨List.length_replicate, fun i v hi => ?_, by simp⟩
    rw [List.getElem?_replicate] at hi
    split at hi <;> simp at hi
  have hlookup : ∀ (i : Nat) (scc : Scc α), sccs[i]? = some scc →
      (sccs.map (fun scc => decide (IsSink g scc.nodes)))[i]? =
        some (decide (IsSink g scc.nodes)) := by
    intro i scc hi
    rw [List.getElem?_map, hi]
    rfl
  obtain ⟨selected, hselect, hsel⟩ := selectNodes_spec hare.nodup hlookup g.nodes
    (fun v hv => (hmem v).mpr hv) hinit
  -- each sink component has one node selected
  have hpick : ∀ {v : α} {i : Nat}, selected[i]? = some (some v) → v ∈ selected.reduceOption :=
    fun hi => List.reduceOption_mem_iff.mpr (List.mem_of_getElem? hi)
  have hsink : ∀ {i : Nat} {scc : Scc α} {v : α}, sccs[i]? = some scc → v ∈ scc.nodes →
      IsSink g scc.nodes → ∃ w ∈ selected.reduceOption, w ∈ scc.nodes := by
    intro i scc v hi hv hs
    have hvn : v ∈ g.nodes := (hmem v).mp
      (List.mem_flatten.mpr ⟨_, List.mem_map_of_mem (List.mem_of_getElem? hi), hv⟩)
    obtain ⟨w, hw⟩ := hsel.complete v (by simpa using hvn) i scc hi hv hs
    obtain ⟨scc', hi', hw', _⟩ := hsel.sound i w hw
    exact ⟨w, hpick hw, Option.some.inj (hi'.symm.trans hi) ▸ hw'⟩
  refine ⟨selected.reduceOption, by simp [findPreSentinels, hsccs, hmapM, hselect],
    fun p hp => ?_, fun v hv hexit => ?_, fun v hv => ?_⟩
  · obtain ⟨i, hi⟩ := List.mem_iff_getElem?.mp (List.reduceOption_mem_iff.mp hp)
    obtain ⟨scc, hscc, hps, _⟩ := hsel.sound i p hi
    exact (hmem p).mp
      (List.mem_flatten.mpr ⟨_, List.mem_map_of_mem (List.mem_of_getElem? hscc), hps⟩)
  · -- an exit is alone in its component
    obtain ⟨i, scc, _, hi, hvs⟩ := exists_sccOf hare.nodup ((hmem v).mpr hv)
    have halone : ∀ w ∈ scc.nodes, w = v := by
      intro w hw
      have hvw := hare.connected _ (List.mem_map_of_mem (List.mem_of_getElem? hi)) v hvs w hw
      rcases Relation.ReflTransGen.cases_head hvw with h | ⟨c, hc, _⟩
      · exact h.symm
      · rw [DfsInv.Edge, hexit] at hc
        exact absurd hc List.not_mem_nil
    obtain ⟨w, hw, hws⟩ := hsink hi hvs (fun u hu s hs => by
      rw [halone u hu, hexit] at hs
      exact absurd hs List.not_mem_nil)
    exact halone w hws ▸ hw
  · -- from every node some sink component can be reached
    obtain ⟨C, hC, hs, hreach⟩ := hare.topo.exists_sink hare.nonempty ((hmem v).mpr hv)
      hare.connected
    obtain ⟨scc, hscc, rfl⟩ := List.mem_map.mp hC
    obtain ⟨i, hi⟩ := List.mem_iff_getElem?.mp hscc
    obtain ⟨c, hc⟩ := List.exists_mem_of_ne_nil _ (hare.nonempty _ hC)
    obtain ⟨w, hw, hws⟩ := hsink hi hc hs
    exact ⟨w, hw, hreach w hws⟩

end PreSentinels

/-! ## The reverse graph -/

/-- The edges of the graph, and one from every exit and every pre-sentinel to the sentinel. -/
inductive ExitEdge (g : ControlFlowGraph α) (pre : List α) : ReverseNode α → ReverseNode α → Prop
  | edge {u v : α} (h : g.Edge u v) : ExitEdge g pre (.real u) (.real v)
  | exit {u : α} (h : g.successors u = []) : ExitEdge g pre (.real u) .sentinel
  | preSentinel {u : α} (h : u ∈ pre) : ExitEdge g pre (.real u) .sentinel

section Reverse

variable {pre : List α}

@[simp] theorem real_mem_nodes : .real v ∈ (reverseGraph g pre).nodes ↔ v ∈ g.nodes := by
  simp [reverseGraph]

@[simp] theorem sentinel_mem_nodes : .sentinel ∈ (reverseGraph g pre).nodes :=
  List.mem_cons_self

@[simp] theorem edge_sentinel_real : (reverseGraph g pre).Edge .sentinel (.real v) ↔ v ∈ pre := by
  simp [ControlFlowGraph.Edge, reverseGraph]

@[simp] theorem edge_real_real :
    (reverseGraph g pre).Edge (.real u) (.real v) ↔ v ∈ g.predecessors u := by
  simp [ControlFlowGraph.Edge, reverseGraph]

@[simp] theorem not_edge_to_sentinel {a : ReverseNode α} :
    ¬ (reverseGraph g pre).Edge a .sentinel := by
  cases a <;> simp [ControlFlowGraph.Edge, reverseGraph]

theorem reverseGraph_valid (hg : g.IsDigraph) (hpre : ∀ p ∈ pre, p ∈ g.nodes) :
    (reverseGraph g pre).Valid where
  succ_mem n hn s hs := by
    cases s with
    | sentinel => exact sentinel_mem_nodes
    | real v =>
        refine real_mem_nodes.mpr ?_
        cases n with
        | sentinel => exact hpre v (edge_sentinel_real.mp hs)
        | real u => exact hg.pred_mem u (real_mem_nodes.mp hn) v (edge_real_real.mp hs)
  mem_preds n hn p hp := by
    cases n with
    | sentinel => exact iff_of_false List.not_mem_nil not_edge_to_sentinel
    | real v =>
        cases p with
        | sentinel =>
            refine Iff.trans ?_ edge_sentinel_real.symm
            by_cases hv : v ∈ pre <;> simp [reverseGraph, hv]
        | real u =>
            refine Iff.trans ?_ (edge_real_real.trans
              (hg.mem_preds u (real_mem_nodes.mp hp) v (real_mem_nodes.mp hn))).symm
            by_cases hv : v ∈ pre <;> simp [reverseGraph, hv]
  entry := rfl

/-- An edge of the reverse graph, read backwards. -/
theorem exitEdge_of_edge (hg : g.IsDigraph) {a b : ReverseNode α}
    (ha : a ∈ (reverseGraph g pre).nodes) (hab : (reverseGraph g pre).Edge a b) :
    ExitEdge g pre b a := by
  cases b with
  | sentinel => exact absurd hab not_edge_to_sentinel
  | real v =>
      cases a with
      | sentinel => exact .preSentinel (edge_sentinel_real.mp hab)
      | real u =>
          have hu := real_mem_nodes.mp ha
          have hvu := edge_real_real.mp hab
          exact .edge ((hg.mem_preds u hu v (hg.pred_mem u hu v hvu)).mp hvu)

/-- An edge of the graph with its exits, read backwards. -/
theorem edge_of_exitEdge (hg : g.IsDigraph) (hexit : ∀ v ∈ g.nodes, g.successors v = [] → v ∈ pre)
    {a b : ReverseNode α} (ha : a ∈ (reverseGraph g pre).nodes) (hab : ExitEdge g pre a b) :
    (reverseGraph g pre).Edge b a := by
  cases hab with
  | @edge u v h =>
      have hu := real_mem_nodes.mp ha
      exact edge_real_real.mpr ((hg.mem_preds v (hg.succ_mem u hu v h) u hu).mpr h)
  | exit h => exact edge_sentinel_real.mpr (hexit _ (real_mem_nodes.mp ha) h)
  | preSentinel h => exact edge_sentinel_real.mpr h

/-- Every node from which a pre-sentinel can be reached is reverse-reachable. -/
theorem reach_sentinel (hg : g.IsDigraph) (hv : v ∈ g.nodes)
    (hreach : ∃ p ∈ pre, Reach g.Edge v p) :
    Reach (reverseGraph g pre).Edge .sentinel (.real v) := by
  obtain ⟨p, hp, hvp⟩ := hreach
  refine Reach.head (edge_sentinel_real.mpr hp) ?_
  clear hp
  induction hvp with
  | refl => exact Reach.refl _
  | @tail b c hvb hbc ih =>
      have hb := hg.mem_of_reach hv hvb
      have hcb := (hg.mem_preds c (hg.succ_mem b hb c hbc) b hb).mpr hbc
      exact Reach.head (edge_real_real.mpr hcb) ih

/-- Dominance in the reverse graph is what all paths to the sentinel have in common. -/
theorem reverse_dominates_iff (hg : g.IsDigraph) (hpre : ∀ p ∈ pre, p ∈ g.nodes)
    (hexit : ∀ v ∈ g.nodes, g.successors v = [] → v ∈ pre) (hy : y ∈ g.nodes) :
    Dominates (reverseGraph g pre).Edge .sentinel (.real x) (.real y) ↔
      ∀ path, Path (ExitEdge g pre) (.real y) .sentinel path → .real x ∈ path := by
  rw [← dominates_iff_forall_path]
  refine not_congr ⟨fun h => ?_, fun h => ?_⟩
  · have hmap := h.map (F := fun a b => ExitEdge g pre b a) id
      (fun a b ha hab => exitEdge_of_edge hg
        ((reverseGraph_valid hg hpre).mem_of_reach sentinel_mem_nodes ha) hab)
      (fun a _ hne => hne)
    exact hmap.reverse
  · have hnodes : ∀ {a}, Reach (ExitEdge g pre) (.real y) a → a ∈ (reverseGraph g pre).nodes := by
      intro a ha
      refine ha.closed (P := fun a => a ∈ (reverseGraph g pre).nodes) (real_mem_nodes.mpr hy) ?_
      intro b c hb hbc
      cases hbc with
      | @edge u v h => exact real_mem_nodes.mpr (hg.succ_mem u (real_mem_nodes.mp hb) v h)
      | exit _ => exact sentinel_mem_nodes
      | preSentinel _ => exact sentinel_mem_nodes
    have hmap := h.map (F := fun a b => (reverseGraph g pre).Edge b a) id
      (fun a b ha hab => edge_of_exitEdge hg hexit (hnodes ha) hab) (fun a _ hne => hne)
    exact hmap.reverse

end Reverse

/-! ## Removing the sentinel -/

namespace Dominance

variable {map : IMap (ReverseNode α) (DomTreeNode (ReverseNode α))}

omit [DecidableEq α] in
theorem filterMap_intoReal (nodes : List α) :
    (.sentinel :: nodes.map ReverseNode.real).filterMap ReverseNode.intoReal = nodes := by
  rw [List.filterMap_cons_none rfl, List.filterMap_map]
  exact List.filterMap_some

omit [DecidableEq α] in
theorem removeSentinel_isSome (map : IMap (ReverseNode α) (DomTreeNode (ReverseNode α)))
    (h : ∀ e ∈ map, e.1 ≠ .sentinel → ∀ c ∈ e.2.children, c.intoReal.isSome) :
    ∃ map', removeSentinel map = some map' := by
  induction map with
  | nil => exact ⟨[], rfl⟩
  | cons e map ih =>
      obtain ⟨map', hmap'⟩ := ih (fun e he => h e (List.mem_cons_of_mem _ he))
      obtain ⟨node, domNode⟩ := e
      cases node with
      | sentinel => exact ⟨map', hmap'⟩
      | real n =>
          have hc := mapM_of_isSome (h (.real n, domNode) List.mem_cons_self (by simp))
          refine ⟨(n, ⟨domNode.parent.bind ReverseNode.intoReal,
            domNode.children.filterMap ReverseNode.intoReal⟩) :: map', ?_⟩
          simp only [removeSentinel, hc, hmap', Option.bind_eq_bind, Option.bind_some]

/-- The map without the sentinel has the other nodes with their parents. -/
theorem get?_removeSentinel {map' : IMap α (DomTreeNode α)} (h : removeSentinel map = some map') :
    (map'.get? v).map DomTreeNode.parent =
      (map.get? (.real v)).map (fun n => n.parent.bind ReverseNode.intoReal) := by
  induction map generalizing map' with
  | nil =>
      obtain rfl := Option.some.inj h
      rfl
  | cons e map ih =>
      obtain ⟨node, domNode⟩ := e
      cases node with
      | sentinel =>
          rw [IMap.get?_cons, if_neg (by simp)]
          exact ih h
      | real n =>
          obtain ⟨children, _, h⟩ := Option.bind_eq_some_iff.mp h
          obtain ⟨map₁, hmap₁, h⟩ := Option.bind_eq_some_iff.mp h
          obtain rfl := Option.some.inj h
          rw [IMap.get?_cons, IMap.get?_cons]
          by_cases hn : n = v
          · simp [hn]
          · rw [if_neg hn, if_neg (fun heq => hn (ReverseNode.real.inj heq))]
            exact ih hmap₁

omit [DecidableEq α] in
theorem keys_removeSentinel {map' : IMap α (DomTreeNode α)} (h : removeSentinel map = some map') :
    map'.keys = map.keys.filterMap ReverseNode.intoReal := by
  induction map generalizing map' with
  | nil =>
      obtain rfl := Option.some.inj h
      rfl
  | cons e map ih =>
      obtain ⟨node, domNode⟩ := e
      cases node with
      | sentinel => exact ih h
      | real n =>
          obtain ⟨children, _, h⟩ := Option.bind_eq_some_iff.mp h
          obtain ⟨map₁, hmap₁, h⟩ := Option.bind_eq_some_iff.mp h
          obtain rfl := Option.some.inj h
          exact congrArg (n :: ·) (ih hmap₁)

end Dominance

/-! ## The tree -/

/-- `t` is the post-dominator tree of `g`: its links lead from each node to its immediate
    dominator in the reverse graph, `none` standing for the sentinel. -/
structure IsPDomTree (g : ControlFlowGraph α) (t : PDomTree α) : Prop where
  preSentinels_mem : ∀ p ∈ t.preSentinels, p ∈ g.nodes
  exits : ∀ v ∈ g.nodes, g.successors v = [] → v ∈ t.preSentinels
  reach : ∀ v ∈ g.nodes, Reach (reverseGraph g t.preSentinels).Edge .sentinel (.real v)
  keys : t.postDominatorsMap.keys.Perm g.nodes
  parent : ∃ rank : ReverseNode α → Nat, ∀ v ∈ g.nodes,
    rank (.real v) ≤ t.postDominatorsMap.length ∧
    ∃ q, (t.postDominatorsMap.get? v).map DomTreeNode.parent = some q.intoReal ∧
      StrictlyDominates (reverseGraph g t.preSentinels).Edge .sentinel q (.real v) ∧
      (∀ d, StrictlyDominates (reverseGraph g t.preSentinels).Edge .sentinel d (.real v) →
        Dominates (reverseGraph g t.preSentinels).Edge .sentinel d q) ∧
      rank q < rank (.real v)

namespace IsPDomTree

variable {t : PDomTree α} {q : ReverseNode α}

theorem length (h : IsPDomTree g t) : t.postDominatorsMap.length = g.nodes.length := by
  have hlen := h.keys.length_eq
  simpa [IMap.keys] using hlen

theorem mem_nodes_of_reach (h : IsPDomTree g t) (hg : g.IsDigraph)
    (hv : Reach (reverseGraph g t.preSentinels).Edge .sentinel (.real v)) : v ∈ g.nodes :=
  real_mem_nodes.mp
    ((reverseGraph_valid hg h.preSentinels_mem).mem_of_reach sentinel_mem_nodes hv)

/-- The walk up from a node finds the dominators of the node in the reverse graph. -/
theorem postDominatesLoop_spec (h : IsPDomTree g t) (hg : g.IsDigraph)
    {rank : ReverseNode α → Nat} (hrank : ∀ v ∈ g.nodes,
      ∃ q, (t.postDominatorsMap.get? v).map DomTreeNode.parent = some q.intoReal ∧
        StrictlyDominates (reverseGraph g t.preSentinels).Edge .sentinel q (.real v) ∧
        (∀ d, StrictlyDominates (reverseGraph g t.preSentinels).Edge .sentinel d (.real v) →
          Dominates (reverseGraph g t.preSentinels).Edge .sentinel d q) ∧
        rank q < rank (.real v)) (fuel : Nat) :
    ∀ y ∈ g.nodes, rank (.real y) ≤ fuel →
      ∃ b, t.postDominatesLoop x fuel (some y) = some b ∧
        (b = true ↔
          Dominates (reverseGraph g t.preSentinels).Edge .sentinel (.real x) (.real y)) := by
  induction fuel with
  | zero =>
      intro y hy hfuel
      obtain ⟨q, _, _, _, hlt⟩ := hrank y hy
      omega
  | succ fuel ih =>
      intro y hy hfuel
      obtain ⟨q, hq, hqy, hidom, hlt⟩ := hrank y hy
      obtain ⟨node, hnode, hparent⟩ := Option.map_eq_some_iff.mp hq
      simp only [PDomTree.postDominatesLoop, hnode, Option.bind_eq_bind, Option.bind_some]
      by_cases hyx : y = x
      · rw [if_pos hyx, ← hyx]
        exact ⟨true, rfl, iff_of_true rfl (Dominates.refl _)⟩
      · rw [if_neg hyx, hparent]
        have hiff : Dominates (reverseGraph g t.preSentinels).Edge .sentinel (.real x) q ↔
            Dominates (reverseGraph g t.preSentinels).Edge .sentinel (.real x) (.real y) :=
          ⟨fun hx => hx.trans hqy.1,
            fun hx => hidom _ ⟨hx, fun heq => hyx (ReverseNode.real.inj heq).symm⟩⟩
        cases q with
        | sentinel =>
            refine ⟨false, by cases fuel <;> rfl, iff_of_false (by simp) (fun hx => ?_)⟩
            exact hiff.mpr hx (Avoids.refl (by simp))
        | real z =>
            have hz : z ∈ g.nodes := h.mem_nodes_of_reach hg (hqy.1.reach (h.reach y hy)).1
            obtain ⟨b, hb, hbiff⟩ := ih z hz (by omega)
            exact ⟨b, hb, hbiff.trans hiff⟩

/-- The tree answers what all paths to the sentinel have in common. -/
theorem postDominates_spec (h : IsPDomTree g t) (hg : g.IsDigraph) (hy : y ∈ g.nodes) :
    ∃ b, t.postDominates x y = some b ∧
      (b = true ↔ ∀ path, Path (ExitEdge g t.preSentinels) (.real y) .sentinel path →
        .real x ∈ path) := by
  obtain ⟨rank, hrank⟩ := h.parent
  obtain ⟨b, hb, hiff⟩ := h.postDominatesLoop_spec (x := x) hg
    (fun v hv => (hrank v hv).2) _ y hy (hrank y hy).1
  exact ⟨b, hb, hiff.trans (reverse_dominates_iff hg h.preSentinels_mem h.exits hy)⟩

end IsPDomTree

/-! ## Correctness -/

namespace Dominance

/-- The pre-sentinels make every node reverse-reachable, so no assertion fails. -/
theorem computePostDominatorTree_spec (hg : g.IsDigraph) :
    ∃ pre t, findPreSentinels g = some pre ∧ computePostDominatorTree g = some t ∧
      t.preSentinels = pre.eraseDups ∧ IsPDomTree g t := by
  obtain ⟨pre, hfind, hpre, hexit, hreach⟩ := findPreSentinels_spec hg.toValid
  have hmem : ∀ v, v ∈ pre.eraseDups ↔ v ∈ pre := fun v => List.mem_eraseDups
  have hpre' : ∀ p ∈ pre.eraseDups, p ∈ g.nodes := fun p hp => hpre p ((hmem p).mp hp)
  have hexit' : ∀ v ∈ g.nodes, g.successors v = [] → v ∈ pre.eraseDups := fun v hv hs =>
    (hmem v).mpr (hexit v hv hs)
  have hall : ∀ v ∈ g.nodes,
      Reach (reverseGraph g pre.eraseDups).Edge .sentinel (.real v) := by
    intro v hv
    obtain ⟨p, hp, hvp⟩ := hreach v hv
    exact reach_sentinel hg hv ⟨p, (hmem p).mpr hp, hvp⟩
  by_cases hempty : pre.eraseDups.isEmpty = true
  · -- no pre-sentinel, so no node
    have hnone : ∀ v, v ∉ g.nodes := by
      intro v hv
      obtain ⟨p, hp, _⟩ := hreach v hv
      rw [List.isEmpty_iff.mp hempty] at hmem
      exact absurd ((hmem p).mpr hp) List.not_mem_nil
    have hnodes : g.nodes = [] := List.eq_nil_iff_forall_not_mem.mpr hnone
    refine ⟨pre, ⟨pre.eraseDups, [], []⟩, hfind, ?_, rfl, hpre', hexit', hall, ?_, fun _ => 0,
      fun v hv => absurd hv (hnone v)⟩
    · simp only [computePostDominatorTree, hfind, Option.bind_eq_bind, Option.bind_some,
        if_pos hempty]
    · rw [hnodes]
      exact List.Perm.refl _
  · -- the reversed graph has every node below the sentinel
    obtain ⟨t, ht, hspec⟩ := computeDominatorTree_spec (reverseGraph_valid hg hpre') rfl
    have hperm : t.dominatorsMap.keys.Perm (.sentinel :: g.nodes.map ReverseNode.real) := by
      refine (List.perm_ext_iff_of_nodup hspec.nodup ?_).mpr (fun v => ?_)
      · refine List.nodup_cons.mpr ⟨by simp, hg.nodup.map (fun a b h => ReverseNode.real.inj h)⟩
      · rw [hspec.mem_keys]
        constructor
        · exact (reverseGraph_valid hg hpre').mem_of_reach sentinel_mem_nodes
        · intro hv
          cases v with
          | sentinel => exact Reach.refl _
          | real v => exact hall v (by simpa using hv)
    have hlength : t.dominatorsMap.length = g.nodes.length + 1 := by
      have hlen := hperm.length_eq
      simpa [IMap.keys] using hlen
    -- the sentinel is the root, so it is the child of no node and can be taken off
    have hreal : ∀ v cs, t.children v = some cs → ∀ c ∈ cs, c.intoReal.isSome := by
      intro v cs hcs c hc
      have hne := hspec.ne_root_of_mem_children hcs hc
      cases c with
      | sentinel => exact absurd rfl hne
      | real _ => rfl
    obtain ⟨children, hchildren⟩ : ∃ cs, t.children .sentinel = some cs := by
      obtain ⟨cs, hcs, _⟩ := hspec.children .sentinel (Reach.refl _)
      exact ⟨cs, hcs⟩
    have hsentinel := mapM_of_isSome (hreal _ _ hchildren)
    obtain ⟨map, hmap⟩ := removeSentinel_isSome t.dominatorsMap (fun e he _ => by
      refine hreal e.1 e.2.children ?_
      rw [DomTree.children, IMap.get?_of_mem hspec.nodup he]
      rfl)
    have hkeys : map.keys.Perm g.nodes := by
      have hfilter := hperm.filterMap ReverseNode.intoReal
      rwa [← keys_removeSentinel hmap, filterMap_intoReal] at hfilter
    have hmaplength : map.length = g.nodes.length := by
      have hlen := hkeys.length_eq
      simpa [IMap.keys] using hlen
    refine ⟨pre, ⟨pre.eraseDups, children.filterMap ReverseNode.intoReal, map⟩, hfind, ?_, rfl,
      hpre', hexit', hall, hkeys, fun v => t.dominatorsMap.keys.idxOf v, fun v hv => ⟨?_, ?_⟩⟩
    · simp only [computePostDominatorTree, hfind, Option.bind_eq_bind, Option.bind_some,
        if_neg hempty, ht, hlength, guard, if_true, Option.pure_def, hchildren, hsentinel, hmap]
    · -- without the sentinel the indices still fit
      have hidx := List.idxOf_lt_length_of_mem ((hspec.mem_keys _).mpr (hall v hv))
      rw [hperm.length_eq, List.length_cons, List.length_map, ← hmaplength] at hidx
      exact Nat.le_of_lt_succ hidx
    · obtain ⟨q, hq, hqv, hidom, hlt⟩ := hspec.parent (.real v) (hall v hv) (by simp)
      obtain ⟨n, hn, hnq⟩ := Option.bind_eq_some_iff.mp hq
      refine ⟨q, ?_, hqv, hidom, hlt⟩
      rw [get?_removeSentinel hmap, hn, Option.map_some, hnq, Option.bind_some]

/-- The pre-sentinels make every node reverse-reachable, so no assertion fails, and the tree
    answers what all paths to the sentinel have in common. -/
theorem computePostDominatorTree_correct (hg : g.IsDigraph) :
    ∃ pre t, findPreSentinels g = some pre ∧ computePostDominatorTree g = some t ∧
      t.preSentinels = pre.eraseDups ∧
      (∀ v ∈ g.nodes, Reach (reverseGraph g t.preSentinels).Edge .sentinel (.real v)) ∧
      ∀ x ∈ g.nodes, ∀ y ∈ g.nodes, ∃ b, t.postDominates x y = some b ∧
        (b = true ↔ ∀ path, Path (ExitEdge g t.preSentinels) (.real y) .sentinel path →
          .real x ∈ path) := by
  obtain ⟨pre, t, hfind, ht, hpre, hspec⟩ := computePostDominatorTree_spec hg
  exact ⟨pre, t, hfind, ht, hpre, hspec.reach, fun x _ y hy => hspec.postDominates_spec hg hy⟩

/-- A graph with an exit, an infinite loop and an unreachable node. -/
def exitAndLoopGraph : ControlFlowGraph Nat :=
  arenaGraph [[1, 2], [3], [4], [], [2], [3]]

theorem computePostDominatorTree_correct_exitAndLoopGraph :
    (∀ path, Path (ExitEdge exitAndLoopGraph [4, 3]) (.real 2) .sentinel path →
      .real 4 ∈ path) ∧
    ¬ ∀ path, Path (ExitEdge exitAndLoopGraph [4, 3]) (.real 0) .sentinel path →
      .real 3 ∈ path := by
  obtain ⟨pre, t, _, ht, _, _, hquery⟩ :=
    computePostDominatorTree_correct (g := exitAndLoopGraph) (arenaGraph_isDigraph (by decide))
  have hqueries : (computePostDominatorTree exitAndLoopGraph).map (fun t =>
      (t.preSentinels, t.postDominates 4 2, t.postDominates 3 0)) =
        some ([4, 3], some true, some false) := by decide +kernel
  rw [ht, Option.map_some, Option.some.injEq, Prod.mk.injEq, Prod.mk.injEq] at hqueries
  obtain ⟨hpre, h42, h30⟩ := hqueries
  rw [hpre] at hquery
  constructor
  · obtain ⟨b, hb, hiff⟩ := hquery 4 (by decide) 2 (by decide)
    exact hiff.mp (Option.some.inj (hb.symm.trans h42))
  · obtain ⟨b, hb, hiff⟩ := hquery 3 (by decide) 0 (by decide)
    intro hall
    rw [hiff.mpr hall, h30] at hb
    exact absurd hb (by decide)

end Dominance

end Pliron
