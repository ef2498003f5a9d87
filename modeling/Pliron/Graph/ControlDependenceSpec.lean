/-
  Pliron.Graph.ControlDependenceSpec

  What the construction of control dependence computes.

  The immediate post-dominator of the source of an edge post-dominates its
  target, so the walk up from the target meets it and never passes the
  sentinel.  The walk passes the post-dominators of the target that do not
  strictly post-dominate the source.
-/

import Pliron.Graph.ControlDependence
import Pliron.Graph.PostDominanceSpec
import Pliron.Lib.Forest

namespace Pliron

open Pliron.Lib

variable {α : Type} [DecidableEq α] {g : ControlFlowGraph α} {t : PDomTree α} {u v x y : α}

/-! ## Walks up the post-dominator tree -/

namespace PDomTree

/-- The parent pointer of a node; a node outside the tree has none. -/
def parent (t : PDomTree α) (node : α) : Option α :=
  (t.postDominatorsMap.get? node).bind DomTreeNode.parent

end PDomTree

namespace IsPDomTree

theorem ipdom_eq (h : IsPDomTree g t) (hv : v ∈ g.nodes) : t.ipdom v = some (t.parent v) := by
  obtain ⟨rank, hrank⟩ := h.parent
  obtain ⟨-, q, hq, -⟩ := hrank v hv
  obtain ⟨node, hnode, -⟩ := Option.map_eq_some_iff.mp hq
  simp [PDomTree.ipdom, PDomTree.parent, hnode]

theorem contains_iff (h : IsPDomTree g t) : t.contains v ↔ v ∈ g.nodes := by
  rw [← h.keys.mem_iff, IMap.mem_keys_iff]
  rfl

theorem parent_of_not_mem (h : IsPDomTree g t) (hv : v ∉ g.nodes) : t.parent v = none := by
  rw [← h.keys.mem_iff, IMap.mem_keys_iff, Option.not_isSome_iff_eq_none] at hv
  simp [PDomTree.parent, hv]

/-- The links as parent pointers, with a rank that falls along them. -/
theorem exists_rank (h : IsPDomTree g t) (hg : g.IsDigraph) : ∃ rank : α → Nat,
    (∀ x y, t.parent x = some y → rank y < rank x) ∧ (∀ v ∈ g.nodes, rank v ≤ t.numNodes) ∧
    ∀ v ∈ g.nodes, ∃ q, t.parent v = q.intoReal ∧
      StrictlyDominates (reverseGraph g t.preSentinels).Edge .sentinel q (.real v) ∧
      (∀ d, StrictlyDominates (reverseGraph g t.preSentinels).Edge .sentinel d (.real v) →
        Dominates (reverseGraph g t.preSentinels).Edge .sentinel d q) ∧
      ∀ p, q = .real p → p ∈ g.nodes := by
  obtain ⟨rank, hrank⟩ := h.parent
  have hlink : ∀ v ∈ g.nodes, ∃ q, t.parent v = q.intoReal ∧
      StrictlyDominates (reverseGraph g t.preSentinels).Edge .sentinel q (.real v) ∧
      (∀ d, StrictlyDominates (reverseGraph g t.preSentinels).Edge .sentinel d (.real v) →
        Dominates (reverseGraph g t.preSentinels).Edge .sentinel d q) ∧
      rank q < rank (.real v) := by
    intro v hv
    obtain ⟨-, q, hq, hspec⟩ := hrank v hv
    obtain ⟨node, hnode, hparent⟩ := Option.map_eq_some_iff.mp hq
    exact ⟨q, by simp [PDomTree.parent, hnode, hparent], hspec⟩
  refine ⟨fun v => rank (.real v), fun x y hxy => ?_, fun v hv => (hrank v hv).1, fun v hv => ?_⟩
  · by_cases hx : x ∈ g.nodes
    · obtain ⟨q, hq, -, -, hlt⟩ := hlink x hx
      rw [hxy] at hq
      cases q with
      | sentinel => exact absurd hq (by simp [ReverseNode.intoReal])
      | real p =>
          rw [ReverseNode.intoReal, Option.some.injEq] at hq
          rw [hq]
          exact hlt
    · rw [h.parent_of_not_mem hx] at hxy
      exact absurd hxy (by simp)
  · obtain ⟨q, hq, hqv, hidom, -⟩ := hlink v hv
    refine ⟨q, hq, hqv, hidom, ?_⟩
    rintro p rfl
    exact h.mem_nodes_of_reach hg (hqv.1.reach (h.reach v hv)).1

/-- What lies above a node in the tree are its post-dominators. -/
theorem above_iff (h : IsPDomTree g t) (hg : g.IsDigraph) (hy : y ∈ g.nodes) :
    Above t.parent y x ↔
      Dominates (reverseGraph g t.preSentinels).Edge .sentinel (.real x) (.real y) := by
  obtain ⟨rank, hrank, -, hlink⟩ := h.exists_rank hg
  induction hn : rank y using Nat.strong_induction_on generalizing y with
  | _ n ih =>
      subst hn
      obtain ⟨q, hq, hqy, hidom, hqn⟩ := hlink y hy
      have hstrict := StrictlyDominates.iff_of_idom (d := .real x) hqy hidom (h.reach y hy)
      by_cases hxy : x = y
      · rw [hxy]
        exact iff_of_true (Above.refl y) (Dominates.refl _)
      · have hiff : Dominates (reverseGraph g t.preSentinels).Edge .sentinel (.real x) (.real y) ↔
            Dominates (reverseGraph g t.preSentinels).Edge .sentinel (.real x) q := by
          rw [← hstrict]
          exact ⟨fun hd => ⟨hd, fun heq => hxy (ReverseNode.real.inj heq)⟩, fun hd => hd.1⟩
        rw [hiff]
        cases q with
        | sentinel =>
            refine iff_of_false (fun hup => ?_) (fun hd => hd (Avoids.refl (by simp)))
            rcases hup.cases_head with heq | ⟨p, hp, -⟩
            · exact hxy heq.symm
            · rw [hq] at hp
              exact absurd hp (by simp [ReverseNode.intoReal])
        | real p =>
            have hp : t.parent y = some p := hq
            rw [← ih _ (hrank y p hp) (hqn p rfl) rfl]
            constructor
            · intro hup
              rcases hup.cases_head with heq | ⟨p', hp', hup⟩
              · exact absurd heq.symm hxy
              · rw [hp, Option.some.injEq] at hp'
                exact hp' ▸ hup
            · exact fun hup => Relation.ReflTransGen.head hp hup

/-- The walk up from the target of an edge to the immediate post-dominator of its source
    passes the post-dominators of the target that do not strictly post-dominate the source. -/
theorem climbTo_edge (h : IsPDomTree g t) (hg : g.IsDigraph) (hu : u ∈ g.nodes)
    (huv : g.Edge u v) : ∃ l, climbTo t.parent (t.parent u) (t.numNodes + 1) (some v) = some l ∧
      ∀ x, x ∈ l ↔
        Dominates (reverseGraph g t.preSentinels).Edge .sentinel (.real x) (.real v) ∧
        ¬ StrictlyDominates (reverseGraph g t.preSentinels).Edge .sentinel (.real x)
          (.real u) := by
  obtain ⟨rank, hrank, hbound, hlink⟩ := h.exists_rank hg
  have hv : v ∈ g.nodes := hg.succ_mem u hu v huv
  have hvu : (reverseGraph g t.preSentinels).Edge (.real v) (.real u) :=
    edge_real_real.mpr ((hg.mem_preds v hv u hu).mpr huv)
  obtain ⟨q, hq, hqu, hidom, hqn⟩ := hlink u hu
  have hstrict : ∀ x, StrictlyDominates (reverseGraph g t.preSentinels).Edge .sentinel (.real x)
      (.real u) ↔ Dominates (reverseGraph g t.preSentinels).Edge .sentinel (.real x) q := fun x =>
    StrictlyDominates.iff_of_idom hqu hidom (h.reach u hu)
  -- every path from the source over this edge meets the stop
  have hstop : ∀ p, t.parent u = some p → Above t.parent v p := by
    intro p hp
    rw [hp] at hq
    cases q with
    | sentinel => exact absurd hq (by simp [ReverseNode.intoReal])
    | real p' =>
        rw [ReverseNode.intoReal, Option.some.injEq] at hq
        rw [h.above_iff hg hv, hq]
        exact hqu.1.pred hvu (fun heq => hqu.2 heq.symm)
  obtain ⟨l, hl, hmem⟩ := climbTo_spec hrank (Nat.lt_succ_of_le (hbound v hv)) hstop
  refine ⟨l, hl, fun x => ?_⟩
  rw [hmem, h.above_iff hg hv, hstrict]
  refine and_congr_right (fun _ => ?_)
  cases q with
  | sentinel =>
      have hnone : t.parent u = none := hq
      rw [hnone]
      exact iff_of_true (by simp) (fun hd => hd (Avoids.refl (by simp)))
  | real p =>
      have hp : t.parent u = some p := hq
      simp only [hp, Option.some.injEq, forall_eq', h.above_iff hg (hqn p rfl)]

end IsPDomTree

/-! ## The construction -/

namespace ControlDependence

/-- The nodes that the walk for the edge of `source` at `i` passes. -/
def edgeNodes (g : ControlFlowGraph α) (t : PDomTree α) (source : α) (i : Nat) : List α :=
  ((g.getSuccessor source i).bind
    (fun v => climbTo t.parent (t.parent source) (t.numNodes + 1) (some v))).getD []

/-- The walk passes the nodes of the climb, and adds the edge to each of them. -/
theorem walkUp_spec (h : IsPDomTree g t) {edge : CfgEdge α} {stop : Option α} {fuel : Nat} :
    ∀ {runner : Option α} {l : List α} {controlling : HMap α (List (CfgEdge α))},
      climbTo t.parent stop fuel runner = some l → (∀ y ∈ l, y ∈ g.nodes) →
      (∀ y ∈ g.nodes, (controlling y).isSome) →
      ∃ controlling', walkUp t edge stop fuel runner controlling = some (l, controlling') ∧
        (∀ y ∉ g.nodes, controlling' y = controlling y) ∧
        ∀ y ∈ g.nodes, ∃ edges, controlling' y = some edges ∧
          ∀ e, e ∈ edges ↔ e ∈ (controlling y).getD [] ∨ (e = edge ∧ y ∈ l) := by
  induction fuel with
  | zero =>
      intro runner l controlling hclimb hl hsome
      unfold climbTo at hclimb
      by_cases hstop : runner = stop
      · rw [if_pos hstop, Option.some.injEq] at hclimb
        subst hclimb
        refine ⟨controlling, by unfold walkUp; rw [if_pos hstop], fun _ _ => rfl, fun y hy => ?_⟩
        obtain ⟨edges, hedges⟩ := Option.isSome_iff_exists.mp (hsome y hy)
        exact ⟨edges, hedges, by simp [hedges]⟩
      · rw [if_neg hstop] at hclimb
        exact absurd hclimb (by simp)
  | succ fuel ih =>
      intro runner l controlling hclimb hl hsome
      unfold climbTo at hclimb
      by_cases hstop : runner = stop
      · rw [if_pos hstop, Option.some.injEq] at hclimb
        subst hclimb
        refine ⟨controlling, by unfold walkUp; rw [if_pos hstop], fun _ _ => rfl, fun y hy => ?_⟩
        obtain ⟨edges, hedges⟩ := Option.isSome_iff_exists.mp (hsome y hy)
        exact ⟨edges, hedges, by simp [hedges]⟩
      · rw [if_neg hstop] at hclimb
        cases runner with
        | none => exact absurd hclimb (by simp)
        | some node =>
            obtain ⟨l', hclimb', rfl⟩ := Option.map_eq_some_iff.mp hclimb
            have hnode : node ∈ g.nodes := hl node List.mem_cons_self
            obtain ⟨edges, hedges⟩ := Option.isSome_iff_exists.mp (hsome node hnode)
            -- the map still has an entry for every node
            have hinsert : ∀ y ∈ g.nodes,
                (controlling.insert node (edges ++ [edge]) y).isSome := by
              intro y hy
              by_cases hyn : y = node
              · rw [hyn, HMap.insert_self]
                rfl
              · rw [HMap.insert_of_ne hyn]
                exact hsome y hy
            obtain ⟨controlling', hwalk, houtside, hmem⟩ := ih hclimb'
              (fun y hy => hl y (List.mem_cons_of_mem _ hy)) hinsert
            refine ⟨controlling', ?_, fun y hy => ?_, fun y hy => ?_⟩
            · unfold walkUp
              rw [if_neg hstop]
              simp only [hedges, h.ipdom_eq hnode, hwalk, Option.bind_eq_bind, Option.bind_some]
            · have hyn : y ≠ node := fun heq => hy (heq ▸ hnode)
              rw [houtside y hy, HMap.insert_of_ne hyn]
            · obtain ⟨edges', hedges', hmem'⟩ := hmem y hy
              refine ⟨edges', hedges', fun e => ?_⟩
              rw [hmem', List.mem_cons]
              -- the edge is noted at the runner, and then above it
              by_cases hyn : y = node
              · simp only [hyn, HMap.insert_self, hedges, Option.getD_some, List.mem_append,
                  List.mem_singleton, true_or, and_true]
                tauto
              · simp only [HMap.insert_of_ne hyn, hyn, false_or]

/-- What holds after the first `count v` edges of each node `v` were walked. -/
structure Built (g : ControlFlowGraph α) (t : PDomTree α) (count : α → Nat)
    (d : ControlDependence α) : Prop where
  edges : d.edgeDependents =
    g.nodes.map (fun v => (v, (List.range (count v)).map (edgeNodes g t v)))
  outside : ∀ y ∉ g.nodes, d.controllingEdges y = none
  controlling : ∀ y ∈ g.nodes, ∃ edges, d.controllingEdges y = some edges ∧
    ∀ e, e ∈ edges ↔ e.source ∈ g.nodes ∧ e.successorIndex < count e.source ∧
      y ∈ edgeNodes g t e.source e.successorIndex

namespace Built

variable {d : ControlDependence α} {count : α → Nat} {source : α} {i : Nat}

theorem get?_edges (h : Built g t count d) (hv : v ∈ g.nodes) :
    d.edgeDependents.get? v = some ((List.range (count v)).map (edgeNodes g t v)) := by
  rw [h.edges, IMap.get?_map, if_pos hv]

/-- One more edge of one node. -/
theorem addEdge (h : Built g t count d) (ht : IsPDomTree g t) (hg : g.IsDigraph)
    (hsource : source ∈ g.nodes) (hi : i < g.numSuccessors source) (hcount : count source = i) :
    ∃ d', ControlDependence.addEdge g t source (t.parent source) d i = some d' ∧
      Built g t (Function.update count source (i + 1)) d' := by
  have hget : g.getSuccessor source i = some (g.successors source)[i] :=
    List.getElem?_eq_getElem hi
  set v := (g.successors source)[i] with hvdef
  have hedge : g.Edge source v := List.getElem_mem hi
  obtain ⟨l, hl, hmem⟩ := ht.climbTo_edge hg hsource hedge
  have hnodes : edgeNodes g t source i = l := by simp [edgeNodes, hget, hl]
  have hln : ∀ y ∈ l, y ∈ g.nodes := by
    intro y hy
    have hdom := ((hmem y).mp hy).1
    exact ht.mem_nodes_of_reach hg (hdom.reach (ht.reach v (hg.succ_mem _ hsource _ hedge))).1
  have hsome : ∀ y ∈ g.nodes, (d.controllingEdges y).isSome := by
    intro y hy
    obtain ⟨edges, hedges, -⟩ := h.controlling y hy
    rw [hedges]
    rfl
  obtain ⟨controlling', hwalk, houtside, hcontrol⟩ :
      ∃ controlling', walkUp t ⟨source, i⟩ _ _ _ d.controllingEdges = some (l, controlling') ∧ _ :=
    walkUp_spec ht hl hln hsome
  have hcontains : d.edgeDependents.containsKey source := by
    rw [IMap.containsKey, h.get?_edges hsource]
    rfl
  refine ⟨⟨d.edgeDependents.modify source (fun lists => lists ++ [l]), controlling'⟩, ?_, ?_,
    fun y hy => (houtside y hy).trans (h.outside y hy), ?_⟩
  · simp only [ControlDependence.addEdge, hget, hwalk, guard, if_pos hcontains,
      Option.bind_eq_bind, Option.bind_some, Option.pure_def]
  · simp only [h.edges, IMap.modify, List.map_map]
    refine List.map_congr_left (fun w _ => ?_)
    by_cases hw : w = source
    · subst hw
      simp [Function.update_self, hcount, List.range_succ, hnodes]
    · simp [hw]
  · intro y hy
    obtain ⟨edges, hedges, hold⟩ := h.controlling y hy
    obtain ⟨edges', hedges', hnew⟩ := hcontrol y hy
    refine ⟨edges', hedges', fun e => ?_⟩
    rw [hnew, hedges, Option.getD_some, hold]
    obtain ⟨b, j⟩ := e
    by_cases hb : b = source
    · subst hb
      simp only [Function.update_self, hcount, CfgEdge.mk.injEq, true_and, hsource]
      constructor
      · rintro (⟨hj, hyj⟩ | ⟨rfl, hyl⟩)
        · exact ⟨by omega, hyj⟩
        · exact ⟨Nat.lt_succ_self j, hnodes ▸ hyl⟩
      · rintro ⟨hj, hyj⟩
        rcases Nat.lt_succ_iff_lt_or_eq.mp hj with hlt | rfl
        · exact Or.inl ⟨hlt, hyj⟩
        · exact Or.inr ⟨rfl, hnodes ▸ hyj⟩
    · simp [hb]

/-- The remaining edges of one node. -/
theorem addEdges (ht : IsPDomTree g t) (hg : g.IsDigraph) (hsource : source ∈ g.nodes) (m : Nat) :
    ∀ {i : Nat} {count : α → Nat} {d : ControlDependence α}, Built g t count d →
      count source = i → i + m = g.numSuccessors source →
      ∃ d', (List.range' i m).foldlM (ControlDependence.addEdge g t source (t.parent source)) d =
          some d' ∧ Built g t (Function.update count source (g.numSuccessors source)) d' := by
  induction m with
  | zero =>
      intro i count d h hcount hi
      refine ⟨d, rfl, ?_⟩
      rw [← hi, Nat.add_zero, ← hcount, Function.update_eq_self]
      exact h
  | succ m ih =>
      intro i count d h hcount hi
      obtain ⟨d₁, hd₁, h₁⟩ := h.addEdge ht hg hsource (by omega) hcount
      obtain ⟨d₂, hd₂, h₂⟩ := ih h₁ (Function.update_self _ _ _) (by omega)
      rw [Function.update_idem] at h₂
      refine ⟨d₂, ?_, h₂⟩
      rw [List.range'_succ, List.foldlM_cons, hd₁]
      exact hd₂

/-- All edges of the nodes of a list. -/
theorem addSources (ht : IsPDomTree g t) (hg : g.IsDigraph) (sources : List α) :
    ∀ {count : α → Nat} {d : ControlDependence α}, Built g t count d → sources.Nodup →
      (∀ s ∈ sources, s ∈ g.nodes ∧ count s = 0) →
      ∃ d', sources.foldlM (addSource g t) d = some d' ∧
        Built g t (fun v => if v ∈ sources then g.numSuccessors v else count v) d' := by
  induction sources with
  | nil => exact fun h _ _ => ⟨_, rfl, by simpa using h⟩
  | cons s sources ih =>
      intro count d h hnodup hsources
      rw [List.nodup_cons] at hnodup
      obtain ⟨hs, hcount⟩ := hsources s List.mem_cons_self
      obtain ⟨d₁, hd₁, h₁⟩ := addEdges ht hg hs (g.numSuccessors s) h hcount (Nat.zero_add _)
      have hrest : ∀ s' ∈ sources,
          s' ∈ g.nodes ∧ Function.update count s (g.numSuccessors s) s' = 0 := by
        intro s' hs'
        have hne : s' ≠ s := fun heq => hnodup.1 (heq ▸ hs')
        rw [Function.update_of_ne hne]
        exact hsources s' (List.mem_cons_of_mem _ hs')
      obtain ⟨d₂, hd₂, h₂⟩ := ih h₁ hnodup.2 hrest
      refine ⟨d₂, ?_, ?_⟩
      · rw [List.foldlM_cons, addSource, ht.ipdom_eq hs]
        simp only [Option.bind_eq_bind, Option.bind_some, List.range_eq_range', hd₁]
        exact hd₂
      · have hcounts : (fun v => if v ∈ s :: sources then g.numSuccessors v else count v) =
            fun v => if v ∈ sources then g.numSuccessors v
              else Function.update count s (g.numSuccessors s) v := by
          funext v
          by_cases hv : v ∈ sources
          · simp [hv]
          · by_cases hvs : v = s
            · simp [hvs]
            · simp [hv, hvs]
        rw [hcounts]
        exact h₂

end Built

/-- The maps at the start: no list for any edge, and no controlling edge for any node. -/
theorem init_built (nodes : List α) : ∀ {done : List α} {d : ControlDependence α},
    (done ++ nodes).Nodup → d.edgeDependents = done.map (fun v => (v, [])) →
    (∀ y, d.controllingEdges y = if y ∈ done then some [] else none) →
    ∃ d', nodes.foldl (fun dependence node => ⟨dependence.edgeDependents.insert node [],
        dependence.controllingEdges.insert node []⟩) d = d' ∧
      d'.edgeDependents = (done ++ nodes).map (fun v => (v, [])) ∧
      ∀ y, d'.controllingEdges y = if y ∈ done ++ nodes then some [] else none := by
  induction nodes with
  | nil => exact fun _ hedges hcontrol => ⟨_, rfl, by simpa using hedges, by simpa using hcontrol⟩
  | cons v nodes ih =>
      intro done d hnodup hedges hcontrol
      have hassoc : done ++ v :: nodes = (done ++ [v]) ++ nodes := by simp
      have hv : v ∉ done := by
        intro hv
        exact (List.nodup_append.mp hnodup).2.2 v hv v List.mem_cons_self rfl
      rw [hassoc] at hnodup ⊢
      refine ih hnodup ?_ (fun y => ?_)
      · have hkeys : v ∉ d.edgeDependents.keys := by
          rw [hedges, IMap.keys, List.map_map]
          simpa using hv
        show IMap.insert d.edgeDependents v [] = _
        rw [IMap.insert_of_not_mem hkeys, hedges, List.map_append]
        rfl
      · show HMap.insert d.controllingEdges v [] y = _
        by_cases hyv : y = v
        · rw [hyv, HMap.insert_self, if_pos (List.mem_append_right _ (List.mem_singleton_self v))]
        · rw [HMap.insert_of_ne hyv, hcontrol]
          simp [hyv]

/-- The construction never panics, and walks every edge. -/
theorem computeControlDependence_spec (hg : g.IsDigraph) (ht : IsPDomTree g t) :
    ∃ d, computeControlDependence g t = some d ∧
      Built g t (fun v => if v ∈ g.nodes then g.numSuccessors v else 0) d := by
  obtain ⟨d₀, hinit, hedges, hcontrol⟩ := @init_built α _ g.nodes [] ⟨[], fun _ => none⟩
    (by simpa using hg.nodup) rfl (by simp)
  have hbuilt : Built g t (fun _ => 0) d₀ := by
    refine ⟨by simpa using hedges, fun y hy => ?_, fun y hy => ⟨[], ?_, by simp⟩⟩
    · rw [hcontrol, List.nil_append, if_neg hy]
    · rw [hcontrol, List.nil_append, if_pos hy]
  obtain ⟨d, hfold, h⟩ := Built.addSources ht hg g.nodes hbuilt hg.nodup (fun s hs => ⟨hs, rfl⟩)
  refine ⟨d, ?_, h⟩
  have hcontains : ∀ node ∈ g.nodes, t.contains node := fun node hnode =>
    ht.contains_iff.mpr hnode
  have hlen : t.numNodes = d₀.edgeDependents.length := by
    rw [PDomTree.numNodes, ht.length, hedges]
    simp
  simp only [computeControlDependence, guard, if_pos hcontains, hinit, if_pos hlen,
    Option.bind_eq_bind, Option.pure_def, Option.bind_some]
  exact hfold

end ControlDependence

end Pliron
