/-
  Pliron.Graph.ControlDependenceCorrect

  Control dependence is what its definition says: a node depends on an edge
  exactly when it post-dominates the target and does not strictly post-dominate
  the source, the two maps are the inverse of each other, and the three
  transitive queries compute the transitive closure of direct dependence.
-/

import Pliron.Graph.ControlDependenceSpec

namespace Pliron

open Pliron.Lib Relation Dominance

variable {α : Type} [DecidableEq α] {g : ControlFlowGraph α} {t : PDomTree α} {u v x y : α}

/-! ## Post-dominance -/

/-- All paths from `y` to the sentinel pass `x`. -/
def PostDominates (g : ControlFlowGraph α) (preSentinels : List α) (x y : α) : Prop :=
  ∀ path, Path (ExitEdge g preSentinels) (.real y) .sentinel path → .real x ∈ path

/-- `x` post-dominates `y` and is not `y`. -/
def StrictlyPostDominates (g : ControlFlowGraph α) (preSentinels : List α) (x y : α) : Prop :=
  PostDominates g preSentinels x y ∧ x ≠ y

namespace IsPDomTree

theorem postDominates_iff (h : IsPDomTree g t) (hg : g.IsDigraph) (hy : y ∈ g.nodes) :
    Dominates (reverseGraph g t.preSentinels).Edge .sentinel (.real x) (.real y) ↔
      PostDominates g t.preSentinels x y :=
  reverse_dominates_iff hg h.preSentinels_mem h.exits hy

theorem strictlyPostDominates_iff (h : IsPDomTree g t) (hg : g.IsDigraph) (hy : y ∈ g.nodes) :
    StrictlyDominates (reverseGraph g t.preSentinels).Edge .sentinel (.real x) (.real y) ↔
      StrictlyPostDominates g t.preSentinels x y := by
  rw [StrictlyDominates, h.postDominates_iff hg hy, StrictlyPostDominates, ne_eq, ne_eq,
    ReverseNode.real.injEq]

end IsPDomTree

namespace ControlDependence

variable {d : ControlDependence α} {i : Nat}

/-! ## The two maps -/

/-- The nodes the walk of an edge passes are those the definition lists. -/
theorem mem_edgeNodes_iff (ht : IsPDomTree g t) (hg : g.IsDigraph) (hu : u ∈ g.nodes)
    (hi : g.getSuccessor u i = some v) : x ∈ edgeNodes g t u i ↔
      PostDominates g t.preSentinels x v ∧ ¬ StrictlyPostDominates g t.preSentinels x u := by
  have huv : g.Edge u v := List.mem_of_getElem? hi
  obtain ⟨l, hl, hmem⟩ := ht.climbTo_edge hg hu huv
  have hnodes : edgeNodes g t u i = l := by simp [edgeNodes, hi, hl]
  rw [hnodes, hmem, ht.postDominates_iff hg (hg.succ_mem u hu v huv),
    ht.strictlyPostDominates_iff hg hu]

/-- What the finished maps hold. -/
abbrev Finished (g : ControlFlowGraph α) (t : PDomTree α) (d : ControlDependence α) : Prop :=
  Built g t (fun v => if v ∈ g.nodes then g.numSuccessors v else 0) d

namespace Finished

theorem dependentsOfEdge_iff (h : Finished g t d) {l : List α} :
    d.dependentsOfEdge u i = some l ↔
      u ∈ g.nodes ∧ i < g.numSuccessors u ∧ l = edgeNodes g t u i := by
  by_cases hu : u ∈ g.nodes
  · rw [dependentsOfEdge, h.get?_edges hu]
    simp only [hu, if_true, Option.bind_eq_bind, Option.bind_some, List.getElem?_map,
      Option.map_eq_some_iff, List.getElem?_eq_some_iff, List.length_range, List.getElem_range,
      true_and]
    constructor
    · rintro ⟨_, ⟨hi, rfl⟩, rfl⟩
      exact ⟨hi, rfl⟩
    · rintro ⟨hi, rfl⟩
      exact ⟨i, ⟨hi, rfl⟩, rfl⟩
  · rw [dependentsOfEdge, h.edges, IMap.get?_map, if_neg hu]
    simp [hu]

/-- The maps are the inverse of each other. -/
theorem controlling_iff (h : Finished g t d) (hy : y ∈ g.nodes) :
    ∃ edges, d.directControllingEdges y = some edges ∧
      ∀ e, e ∈ edges ↔ ∃ l, d.dependentsOfEdge e.source e.successorIndex = some l ∧ y ∈ l := by
  obtain ⟨edges, hedges, hmem⟩ := h.controlling y hy
  refine ⟨edges, hedges, fun e => ?_⟩
  rw [hmem]
  constructor
  · rintro ⟨hsource, hi, hye⟩
    rw [if_pos hsource] at hi
    exact ⟨_, h.dependentsOfEdge_iff.mpr ⟨hsource, hi, rfl⟩, hye⟩
  · rintro ⟨l, hl, hyl⟩
    obtain ⟨hsource, hi, rfl⟩ := h.dependentsOfEdge_iff.mp hl
    exact ⟨hsource, by rwa [if_pos hsource], hyl⟩

end Finished

/-- Direct control dependence is exact, and the walks never pass the sentinel. -/
theorem computeControlDependence_correct (hg : g.IsDigraph) :
    ∃ t d, computePostDominatorTree g = some t ∧ computeControlDependence g t = some d ∧
      (∀ b ∈ g.nodes, ∀ (i : Nat) s, g.getSuccessor b i = some s →
        ∃ l, d.dependentsOfEdge b i = some l ∧
          ∀ x, x ∈ l ↔ PostDominates g t.preSentinels x s ∧
            ¬ StrictlyPostDominates g t.preSentinels x b) ∧
      ∀ x ∈ g.nodes, ∃ edges, d.directControllingEdges x = some edges ∧
        ∀ e, e ∈ edges ↔ ∃ l, d.dependentsOfEdge e.source e.successorIndex = some l ∧ x ∈ l := by
  obtain ⟨_, t, _, ht, _, htree⟩ := computePostDominatorTree_spec hg
  obtain ⟨d, hd, hbuilt⟩ := computeControlDependence_spec hg htree
  have hfinished : Finished g t d := hbuilt
  refine ⟨t, d, ht, hd, fun b hb i s hi => ?_, fun x hx => hfinished.controlling_iff hx⟩
  have hlt : i < g.numSuccessors b := (List.getElem?_eq_some_iff.mp hi).1
  exact ⟨_, hfinished.dependentsOfEdge_iff.mpr ⟨hb, hlt, rfl⟩,
    fun x => mem_edgeNodes_iff htree hg hb hi⟩

/-- A repeated edge, a self loop, a loop without an exit, and a branch. -/
theorem computeControlDependence_correct_arena :
    ∃ t d, computePostDominatorTree (arenaGraph [[1, 1, 2], [1, 3], [4], [], [2]]) = some t ∧
      computeControlDependence (arenaGraph [[1, 1, 2], [1, 3], [4], [], [2]]) t = some d ∧
      (d.dependentsOfEdge 0 0 = some [1, 3] ∧
        PostDominates (arenaGraph [[1, 1, 2], [1, 3], [4], [], [2]]) t.preSentinels 3 1) := by
  obtain ⟨t, d, ht, hd, hedges, -⟩ := computeControlDependence_correct
    (g := arenaGraph [[1, 1, 2], [1, 3], [4], [], [2]]) (arenaGraph_isDigraph (by decide))
  have hrun : ((computePostDominatorTree (arenaGraph [[1, 1, 2], [1, 3], [4], [], [2]])).bind
      (computeControlDependence (arenaGraph [[1, 1, 2], [1, 3], [4], [], [2]]))).bind
        (fun d => d.dependentsOfEdge 0 0) = some [1, 3] := by decide +kernel
  rw [ht, Option.bind_some, hd, Option.bind_some] at hrun
  obtain ⟨l, hl, hmem⟩ := hedges 0 (by decide) 0 1 rfl
  rw [hrun, Option.some.injEq] at hl
  exact ⟨t, d, ht, hd, hrun, ((hmem 3).mp (by rw [← hl]; decide)).1⟩

/-! ## Transitive dependence -/

/-- `dependent` is directly control dependent on `controller`. -/
def DependsOn (d : ControlDependence α) (dependent controller : α) : Prop :=
  d.isDirectlyControlDependent dependent controller = some true

/-- The walk of an edge stays in the graph. -/
theorem mem_nodes_of_mem_edgeNodes (ht : IsPDomTree g t) (hg : g.IsDigraph) (hu : u ∈ g.nodes)
    (hx : x ∈ edgeNodes g t u i) : x ∈ g.nodes := by
  match hi : g.getSuccessor u i with
  | none =>
      simp only [edgeNodes, hi, Option.bind_none, Option.getD_none] at hx
      exact absurd hx List.not_mem_nil
  | some v =>
      have huv : g.Edge u v := List.mem_of_getElem? hi
      have hv : v ∈ g.nodes := hg.succ_mem u hu v huv
      have hdom := ((mem_edgeNodes_iff ht hg hu hi).mp hx).1
      rw [← ht.postDominates_iff hg hv] at hdom
      exact ht.mem_nodes_of_reach hg (hdom.reach (ht.reach v hv)).1

namespace Finished

theorem contains_iff (h : Finished g t d) : d.contains v ↔ v ∈ g.nodes := by
  rw [contains, IMap.containsKey, h.edges, IMap.get?_map]
  by_cases hv : v ∈ g.nodes <;> simp [hv]

theorem numNodes_eq (h : Finished g t d) : d.numNodes = g.nodes.length := by
  rw [numNodes, h.edges, List.length_map]

/-- Direct dependence, in terms of the walks. -/
theorem dependsOn_iff (h : Finished g t d) : d.DependsOn x y ↔
    x ∈ g.nodes ∧ y ∈ g.nodes ∧ ∃ i, i < g.numSuccessors y ∧ x ∈ edgeNodes g t y i := by
  simp only [DependsOn, isDirectlyControlDependent, directControllingEdges, guard, h.contains_iff]
  by_cases hx : x ∈ g.nodes
  · obtain ⟨edges, hedges, hmem⟩ := h.controlling x hx
    by_cases hy : y ∈ g.nodes
    · simp only [hy, if_true, hedges, Option.bind_eq_bind, Option.pure_def, Option.bind_some,
        Option.some.injEq, List.any_eq_true, decide_eq_true_eq, hx, true_and]
      constructor
      · rintro ⟨e, he, rfl⟩
        obtain ⟨_, hi, hxe⟩ := (hmem e).mp he
        rw [if_pos hy] at hi
        exact ⟨_, hi, hxe⟩
      · rintro ⟨i, hi, hxi⟩
        exact ⟨⟨y, i⟩, (hmem _).mpr ⟨hy, by rwa [if_pos hy], hxi⟩, rfl⟩
    · simp [hy]
  · simp [hx, h.outside x hx]

theorem controllers_iff (h : Finished g t d) {edges : List (CfgEdge α)} (hx : x ∈ g.nodes)
    (hedges : d.controllingEdges x = some edges) :
    y ∈ edges.map CfgEdge.source ↔ d.DependsOn x y := by
  obtain ⟨edges', hedges', hmem⟩ := h.controlling x hx
  rw [hedges, Option.some.injEq] at hedges'
  subst hedges'
  rw [List.mem_map, h.dependsOn_iff]
  constructor
  · rintro ⟨e, he, rfl⟩
    obtain ⟨hsource, hi, hxe⟩ := (hmem e).mp he
    rw [if_pos hsource] at hi
    exact ⟨hx, hsource, _, hi, hxe⟩
  · rintro ⟨-, hy, i, hi, hxi⟩
    exact ⟨⟨y, i⟩, (hmem _).mpr ⟨hy, by rwa [if_pos hy], hxi⟩, rfl⟩

/-- The direct controllers, or dependents, of a node. -/
theorem direct_spec (h : Finished g t d) (ht : IsPDomTree g t) (hg : g.IsDigraph)
    (hx : x ∈ g.nodes) :
    (∃ vs, d.direct .controllers x = some vs ∧ vs.Nodup ∧ ∀ w, w ∈ vs ↔ d.DependsOn x w) ∧
      ∃ vs, d.direct .dependents x = some vs ∧ vs.Nodup ∧ ∀ w, w ∈ vs ↔ d.DependsOn w x := by
  constructor
  · obtain ⟨edges, hedges, -⟩ := h.controlling x hx
    refine ⟨ISet.extend [] (edges.map CfgEdge.source), ?_, ISet.nodup_extend List.nodup_nil,
      fun w => ?_⟩
    · simp only [direct, directControllers, directControllingEdges, hedges, Option.bind_eq_bind,
        Option.bind_some]
    · rw [ISet.mem_extend, ← h.controllers_iff hx hedges]
      simp
  · refine ⟨ISet.extend []
        ((List.range (g.numSuccessors x)).map (edgeNodes g t x)).flatten, ?_,
      ISet.nodup_extend List.nodup_nil, fun w => ?_⟩
    · simp only [direct, directDependents, h.get?_edges hx, if_pos hx, Option.bind_eq_bind,
        Option.bind_some]
    · rw [ISet.mem_extend, h.dependsOn_iff]
      simp only [List.not_mem_nil, false_or, List.mem_flatten, List.mem_map, List.mem_range,
        exists_exists_and_eq_and, hx, true_and]
      constructor
      · rintro ⟨i, hi, hw⟩
        exact ⟨mem_nodes_of_mem_edgeNodes ht hg hx hw, i, hi, hw⟩
      · exact fun hw => hw.2

/-- A saturation that starts with the direct successors of a node ends with what paths of at
    least one edge lead to. -/
theorem saturate_direct {E : α → α → Prop} {direction : Direction} (h : Finished g t d)
    (hE : ∀ x y, E x y → x ∈ g.nodes ∧ y ∈ g.nodes)
    (hdirect : ∀ v ∈ g.nodes, ∃ vs, d.direct direction v = some vs ∧ vs.Nodup ∧
      ∀ w, w ∈ vs ↔ E v w) (hx : x ∈ g.nodes) :
    ∃ all, d.transitiveNodes x direction = some all ∧ ∀ y, y ∈ all ↔ TransGen E x y := by
  obtain ⟨vs, hvs, hnodup, hmem⟩ := hdirect x hx
  have hinit : Saturating E g.nodes (fun s => E x s) 0 vs := by
    refine ⟨hnodup, fun v hv => (hE x v ((hmem v).mp hv)).2,
      fun v hv => ⟨v, (hmem v).mp hv, Reach.refl v⟩, fun s hs => (hmem s).mpr hs, ?_⟩
    exact fun j hj => absurd hj (Nat.not_lt_zero j)
  have hfuel : g.nodes.length ≤ 0 + d.numNodes := by
    rw [h.numNodes_eq]
    omega
  obtain ⟨all, hall, -, hspec⟩ := saturate_spec (fun v hv => by
      obtain ⟨ws, hws, -, hmem'⟩ := hdirect v hv
      exact ⟨ws, hws, hmem', fun w hw => (hE v w ((hmem' w).mp hw)).2⟩)
    hinit hfuel
  refine ⟨all, ?_, fun y => ?_⟩
  · simp only [transitiveNodes, hvs, Option.bind_eq_bind, Option.bind_some, hall]
  · rw [hspec, TransGen.head'_iff]
    rfl

/-- The search along controllers finds transitive dependence. -/
theorem isTransitivelyControlDependent_spec (h : Finished g t d) (hx : x ∈ g.nodes)
    (hy : y ∈ g.nodes) : ∃ b, d.isTransitivelyControlDependent x y = some b ∧
      (b = true ↔ TransGen d.DependsOn x y) := by
  have hinit : Searching d.DependsOn g.nodes x y [x] [x] := by
    refine ⟨List.nodup_singleton x, ?_, List.mem_singleton_self x, ?_, fun v hv => hv,
      fun v hv hnot => absurd hv hnot⟩
    · intro v hv
      exact List.mem_singleton.mp hv ▸ hx
    · intro v hv
      rw [List.mem_singleton.mp hv]
      exact Reach.refl x
  have hnext : ∀ v ∈ g.nodes, ∃ vs,
      (d.controllingEdges v).map (fun edges => edges.map CfgEdge.source) = some vs ∧
        (∀ w, w ∈ vs ↔ d.DependsOn v w) ∧ ∀ w ∈ vs, w ∈ g.nodes := by
    intro v hv
    obtain ⟨edges, hedges, -⟩ := h.controlling v hv
    refine ⟨edges.map CfgEdge.source, by rw [hedges, Option.map_some],
      fun w => h.controllers_iff hv hedges, fun w hw => ?_⟩
    exact (h.dependsOn_iff.mp ((h.controllers_iff hv hedges).mp hw)).2.1
  have hfuel : g.nodes.length + [x].length ≤ [x].length + d.numNodes := by
    rw [h.numNodes_eq, List.length_singleton]
    omega
  obtain ⟨b, hb, hiff⟩ := searchFor_spec hnext hinit hfuel
  refine ⟨b, ?_, hiff⟩
  simp only [isTransitivelyControlDependent, guard, if_pos (h.contains_iff.mpr hy),
    Option.bind_eq_bind, Option.pure_def, Option.bind_some]
  exact hb

end Finished

/-- The three transitive queries compute the transitive closure of direct dependence, and a
    node is in its own closure exactly when it lies on a cycle of direct dependence. -/
theorem transitiveDependence_correct (hg : g.IsDigraph) :
    ∃ t d, computePostDominatorTree g = some t ∧ computeControlDependence g t = some d ∧
      (∀ x ∈ g.nodes, ∀ c ∈ g.nodes, ∃ b controllers dependents,
        d.isTransitivelyControlDependent x c = some b ∧
        d.transitiveControllers x = some controllers ∧
        d.transitiveDependents c = some dependents ∧
        (b = true ↔ TransGen d.DependsOn x c) ∧
        (c ∈ controllers ↔ TransGen d.DependsOn x c) ∧
        (x ∈ dependents ↔ TransGen d.DependsOn x c)) ∧
      ∀ x ∈ g.nodes, ∃ controllers dependents,
        d.transitiveControllers x = some controllers ∧
        d.transitiveDependents x = some dependents ∧
        (x ∈ controllers ↔ ∃ y, d.DependsOn x y ∧ Reach d.DependsOn y x) ∧
        (x ∈ dependents ↔ ∃ y, d.DependsOn x y ∧ Reach d.DependsOn y x) := by
  obtain ⟨_, t, _, ht, _, htree⟩ := computePostDominatorTree_spec hg
  obtain ⟨d, hd, hbuilt⟩ := computeControlDependence_spec hg htree
  have h : Finished g t d := hbuilt
  have hnodes : ∀ x y, d.DependsOn x y → x ∈ g.nodes ∧ y ∈ g.nodes := by
    intro x y hxy
    obtain ⟨hx, hy, -⟩ := h.dependsOn_iff.mp hxy
    exact ⟨hx, hy⟩
  have hup : ∀ x ∈ g.nodes, ∃ all, d.transitiveControllers x = some all ∧
      ∀ y, y ∈ all ↔ TransGen d.DependsOn x y := fun x hx =>
    h.saturate_direct hnodes (fun v hv => (h.direct_spec htree hg hv).1) hx
  -- downwards the walk follows the reverse of the relation
  have hdown : ∀ x ∈ g.nodes, ∃ all, d.transitiveDependents x = some all ∧
      ∀ y, y ∈ all ↔ TransGen d.DependsOn y x := by
    intro x hx
    obtain ⟨all, hall, hmem⟩ := h.saturate_direct (E := fun x y => d.DependsOn y x)
      (fun x y hxy => (hnodes y x hxy).symm) (fun v hv => (h.direct_spec htree hg hv).2) hx
    refine ⟨all, hall, fun y => ?_⟩
    rw [hmem]
    exact transGen_swap
  refine ⟨t, d, ht, hd, fun x hx c hc => ?_, fun x hx => ?_⟩
  · obtain ⟨b, hb, hbiff⟩ := h.isTransitivelyControlDependent_spec hx hc
    obtain ⟨controllers, hcontrollers, hcmem⟩ := hup x hx
    obtain ⟨dependents, hdependents, hdmem⟩ := hdown c hc
    exact ⟨b, controllers, dependents, hb, hcontrollers, hdependents, hbiff, hcmem c, hdmem x⟩
  · -- a node is among its own when it lies on a cycle
    obtain ⟨controllers, hcontrollers, hcmem⟩ := hup x hx
    obtain ⟨dependents, hdependents, hdmem⟩ := hdown x hx
    refine ⟨controllers, dependents, hcontrollers, hdependents, ?_, ?_⟩
    · rw [hcmem, TransGen.head'_iff]
      rfl
    · rw [hdmem, TransGen.head'_iff]
      rfl

/-- In a loop with a branch, the head of the loop controls itself and what it guards. -/
theorem transitiveDependence_correct_arena :
    ∃ t d, computePostDominatorTree (arenaGraph [[1], [2, 4], [1, 3], [1], []]) = some t ∧
      computeControlDependence (arenaGraph [[1], [2, 4], [1, 3], [1], []]) t = some d ∧
      TransGen d.DependsOn 3 1 := by
  obtain ⟨t, d, ht, hd, hquery, -⟩ := transitiveDependence_correct
    (g := arenaGraph [[1], [2, 4], [1, 3], [1], []]) (arenaGraph_isDigraph (by decide))
  have hrun : ((computePostDominatorTree (arenaGraph [[1], [2, 4], [1, 3], [1], []])).bind
      (computeControlDependence (arenaGraph [[1], [2, 4], [1, 3], [1], []]))).bind
        (fun d => d.isTransitivelyControlDependent 3 1) = some true := by decide +kernel
  rw [ht, Option.bind_some, hd, Option.bind_some] at hrun
  obtain ⟨b, _, _, hb, _, _, hiff, _⟩ := hquery 3 (by decide) 1 (by decide)
  rw [hrun, Option.some.injEq] at hb
  exact ⟨t, d, ht, hd, hiff.mp hb.symm⟩

end ControlDependence

end Pliron
