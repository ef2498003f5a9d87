/-
  Pliron.Graph.LoopTreeCorrect

  The loop tree of a graph and its dominator tree is computed, and its loops,
  ancestors, innermost loops and depths are those of the natural loops.
-/

import Pliron.Graph.LoopFinishSpec

namespace Pliron

open Pliron.Lib Traversals Dominance Relation

variable {α : Type} [DecidableEq α]

namespace LoopTree

variable {g : ControlFlowGraph α} {r u : α} {t : DomTree α} {tree : LoopTree α}
  {i j k : Nat} {l l' : Loop α}

/-- Loop `k` is reached by climbing the parent links from loop `i`. -/
def Ancestor (tree : LoopTree α) (k i : Nat) : Prop :=
  TransGen (fun i k => tree.loopParent i = some (some k)) i k

/-- A loop that contains `u`, and whose header is in every loop that contains `u`. -/
def IsInnermost (tree : LoopTree α) (u : α) (i : Nat) : Prop :=
  ∃ l, tree.loops[i]? = some l ∧ u ∈ l.blocks ∧ ∀ l' ∈ tree.loops, u ∈ l'.blocks →
    l.header ∈ l'.blocks

omit [DecidableEq α] in
theorem loopParent_eq_some_some :
    tree.loopParent i = some (some k) ↔ ∃ l, tree.loops[i]? = some l ∧ l.parent = some k :=
  Option.map_eq_some_iff

namespace IsLoopTree

theorem mem_blocks (h : IsLoopTree g r tree) (hl : l ∈ tree.loops) :
    u ∈ l.blocks ↔ u = l.header ∨
      (Reach g.Edge r u ∧ ∃ p ∈ l.latches, Avoids g.Edge l.header u p) := by
  rw [h.blocks l hl]
  obtain ⟨_, hlatches⟩ := h.latches l hl
  constructor
  · intro hin
    cases hin with
    | header _ => exact Or.inl rfl
    | body hlatch hu hup => exact Or.inr ⟨hu, _, (hlatches _).mpr hlatch, hup⟩
  · rintro (rfl | ⟨hu, p, hp, hup⟩)
    · exact InLoop.self (h.isHeader l hl)
    · exact .body ((hlatches p).mp hp) hu hup

/-- The ancestors of a loop are the other loops that contain its header. -/
theorem ancestor_iff (h : IsLoopTree g r tree) (hk : tree.loops[k]? = some l')
    (hi : tree.loops[i]? = some l) : tree.Ancestor k i ↔ l.header ∈ l'.blocks ∧ k ≠ i := by
  rw [h.blocks l' (List.mem_of_getElem? hk)]
  constructor
  · intro hanc
    have key : ∀ lk, tree.loops[k]? = some lk →
        InLoop g.Edge r lk.header l.header ∧ i < k := by
      clear hk
      induction hanc with
      | single hp =>
          intro lk hk
          obtain ⟨m, hm, hp⟩ := loopParent_eq_some_some.mp hp
          obtain rfl := Option.some.inj (hi.symm.trans hm)
          obtain ⟨hlt, lk', hk', hin, _⟩ := h.parent_some _ _ _ hi hp
          obtain rfl := Option.some.inj (hk.symm.trans hk')
          exact ⟨hin, hlt⟩
      | tail _ hp ih =>
          intro lk hk
          obtain ⟨m, hm, hp⟩ := loopParent_eq_some_some.mp hp
          obtain ⟨hin, hlt⟩ := ih m hm
          obtain ⟨hlt', lk', hk', hin', _⟩ := h.parent_some _ _ _ hm hp
          obtain rfl := Option.some.inj (hk.symm.trans hk')
          exact ⟨hin'.trans hin, Nat.lt_trans hlt hlt'⟩
    obtain ⟨hin, hlt⟩ := key l' hk
    exact ⟨hin, Nat.ne_of_gt hlt⟩
  · rintro ⟨hin, hne⟩
    -- climb from `i`: the parent is inside every other loop around `i`
    have hclimb : ∀ n (i : Nat) l, tree.loops[i]? = some l → tree.loops.length = n + i →
        InLoop g.Edge r l'.header l.header → k ≠ i → tree.Ancestor k i := by
      intro n
      induction n using Nat.strong_induction_on with
      | _ n ih =>
          intro i l hi hn hin hne
          have hheader : l'.header ≠ l.header := fun heq => hne (h.eq_of_header_eq hk hi heq)
          cases hp : l.parent with
          | none =>
              exact absurd (h.parent_none l (List.mem_of_getElem? hi) hp l'
                (List.mem_of_getElem? hk) hin) hheader
          | some p =>
              obtain ⟨hlt, lp, hlp, _, hmin⟩ := h.parent_some i l p hi hp
              have hparent : tree.loopParent i = some (some p) :=
                loopParent_eq_some_some.mpr ⟨l, hi, hp⟩
              have hin' := hmin l' (List.mem_of_getElem? hk) hheader hin
              have hplt := (List.getElem?_eq_some_iff.mp hlp).1
              by_cases hkp : k = p
              · exact hkp ▸ TransGen.single hparent
              · exact TransGen.head hparent
                  (ih (n - (p - i)) (by omega) p lp hlp (by omega) hin' hkp)
    have hlt := (List.getElem?_eq_some_iff.mp hi).1
    exact hclimb (tree.loops.length - i) i l hi (by omega) hin hne

theorem blockLoopParent_eq_some (h : IsLoopTree g r tree) :
    tree.blockLoopParent u = some i ↔ tree.IsInnermost u i := by
  constructor
  · intro hu
    obtain ⟨l, hl, hin, hmin⟩ := h.block_some u i hu
    refine ⟨l, hl, (h.blocks l (List.mem_of_getElem? hl) u).mpr hin, fun l' hl' hu' => ?_⟩
    exact (h.blocks l' hl' _).mpr (hmin l' hl' ((h.blocks l' hl' u).mp hu'))
  · rintro ⟨l, hl, hu, hmin⟩
    have hmem := List.mem_of_getElem? hl
    cases hp : tree.blockParent u with
    | none => exact absurd ((h.blocks l hmem u).mp hu) (h.block_none u hp l hmem)
    | some j =>
        obtain ⟨m, hm, hin, hmin'⟩ := h.block_some u j hp
        have hmem' := List.mem_of_getElem? hm
        have hml := (h.blocks m hmem' _).mp (hmin m hmem' ((h.blocks m hmem' u).mpr hin))
        have hlm := hmin' l hmem ((h.blocks l hmem u).mp hu)
        rw [blockLoopParent, hp, h.eq_of_header_eq hm hl (hml.antisymm hlm)]

theorem blockLoopParent_eq_none (h : IsLoopTree g r tree) :
    tree.blockLoopParent u = none ↔ ∀ l ∈ tree.loops, u ∉ l.blocks := by
  constructor
  · intro hu l hl hul
    exact h.block_none u hu l hl ((h.blocks l hl u).mp hul)
  · intro hu
    cases hp : tree.blockLoopParent u with
    | none => rfl
    | some i =>
        obtain ⟨l, hl, hul, _⟩ := h.blockLoopParent_eq_some.mp hp
        exact absurd hul (hu l (List.mem_of_getElem? hl))

theorem blockLoopDepth_eq (h : IsLoopTree g r tree) (u : α) :
    tree.blockLoopDepth u = some (tree.numContaining u) := by
  cases hp : tree.blockLoopParent u with
  | none =>
      have hout := h.blockLoopParent_eq_none.mp hp
      have hzero : tree.numContaining u = 0 :=
        List.countP_eq_zero.mpr (fun l hl => by simpa using hout l hl)
      rw [blockLoopDepth, hp, hzero]
  | some i =>
      obtain ⟨l, hl, hul, hmin⟩ := h.blockLoopParent_eq_some.mp hp
      have hmem := List.mem_of_getElem? hl
      have heq : tree.numContaining u = tree.numContaining l.header := by
        refine List.countP_congr (fun l' hl' => ?_)
        rw [decide_eq_true_iff, decide_eq_true_iff]
        refine ⟨hmin l' hl', fun hheader => (h.blocks l' hl' u).mpr ?_⟩
        exact ((h.blocks l' hl' _).mp hheader).trans ((h.blocks l hmem u).mp hul)
      have hdepth : tree.loopDepth i = some l.depth := by rw [loopDepth, hl]; rfl
      simp only [blockLoopDepth, hp]
      rw [hdepth, h.depth l hmem, heq]

end IsLoopTree

theorem computeLoopTree_spec (hg : g.Valid) (hr : g.entryNode = some r) (ht : IsDomTree g r t) :
    ∃ tree, computeLoopTree g t = some tree ∧ IsLoopTree g r tree := by
  have hrn := hg.entry_mem hr
  obtain ⟨intervals, hintervals, hi⟩ := domIntervals_spec ht
  obtain ⟨found, hfound, hb⟩ := findLoops_spec hg hrn ht hi
  obtain ⟨tree, hfinish, htree⟩ := finish_spec hg hrn hb
  refine ⟨tree, ?_, htree⟩
  have hroot : t.root = g.entryNode := ht.root.trans hr.symm
  simp only [computeLoopTree, guard, if_pos hroot, hintervals, DFSTraversal.postOrder_new hg.closed hr,
    DFSTraversal.reversePostOrder_new hg.closed hr, Option.bind_eq_bind, Option.bind_some]
  exact (congrArg (fun o => o.bind (fun tree => tree.finish (rpo g r))) hfound).trans hfinish

/-- The loop tree is computed.  It has one loop for each target of an edge from a node that the
    target dominates; the blocks of the loop are its header and the reachable nodes that reach a
    latch without passing through the header.  The ancestors of a loop are the other loops that
    contain its header, and the innermost loop of a node has as its depth the number of loops
    that contain the node. -/
theorem computeLoopTree_correct (hg : g.Valid) (hr : g.entryNode = some r)
    (ht : computeDominatorTree g = some t) :
    ∃ tree, computeLoopTree g t = some tree ∧
      (tree.loops.map Loop.header).Nodup ∧
      (∀ h, h ∈ tree.loops.map Loop.header ↔
        ∃ p, g.Reachable p ∧ g.Edge p h ∧ Dominates g.Edge r h p) ∧
      (∀ l ∈ tree.loops, l.latches.Nodup ∧
        (∀ p, p ∈ l.latches ↔ g.Reachable p ∧ g.Edge p l.header ∧
          Dominates g.Edge r l.header p) ∧
        ∀ u, u ∈ l.blocks ↔ u = l.header ∨
          (g.Reachable u ∧ ∃ p ∈ l.latches, Avoids g.Edge l.header u p)) ∧
      (∀ (a b : Nat) la lb, tree.loops[a]? = some la → tree.loops[b]? = some lb →
        (tree.Ancestor a b ↔ lb.header ∈ la.blocks ∧ a ≠ b)) ∧
      (∀ u, (∀ i, tree.blockLoopParent u = some i ↔ tree.IsInnermost u i) ∧
        (tree.blockLoopParent u = none ↔ ∀ l ∈ tree.loops, u ∉ l.blocks) ∧
        tree.blockLoopDepth u = some (tree.numContaining u)) := by
  obtain ⟨t', ht', hdom⟩ := computeDominatorTree_spec hg hr
  obtain rfl := Option.some.inj (ht.symm.trans ht')
  obtain ⟨tree, hcompute, htree⟩ := computeLoopTree_spec hg hr hdom
  have hreach : ∀ u, g.Reachable u ↔ Reach g.Edge r u := by
    intro u
    refine ⟨?_, fun hu => ⟨r, hr, hu⟩⟩
    rintro ⟨r', hr', hu⟩
    exact Option.some.inj (hr'.symm.trans hr) ▸ hu
  -- the latches of a header, in the terms of the graph
  have hlatch : ∀ h p, Latch g.Edge r h p ↔
      g.Reachable p ∧ g.Edge p h ∧ Dominates g.Edge r h p := by
    intro h p
    rw [hreach]
    exact ⟨fun hl => ⟨hl.reach, hl.edge, hl.dominates⟩, fun hl => ⟨hl.1, hl.2.1, hl.2.2⟩⟩
  refine ⟨tree, hcompute, htree.headers_nodup, fun h => ?_, fun l hl => ?_,
    fun a b la lb ha hb => htree.ancestor_iff ha hb, fun u => ?_⟩
  · rw [htree.mem_headers, IsHeader]
    exact exists_congr (hlatch h)
  · obtain ⟨hnodup, hmem⟩ := htree.latches l hl
    refine ⟨hnodup, fun p => (hmem p).trans (hlatch l.header p), fun u => ?_⟩
    rw [hreach]
    exact htree.mem_blocks hl
  · exact ⟨fun i => htree.blockLoopParent_eq_some, htree.blockLoopParent_eq_none,
      htree.blockLoopDepth_eq u⟩

/-- Two nested loops, the inner one with two latches. -/
def nestedLoopsGraph : ControlFlowGraph Nat :=
  arenaGraph [[1], [2], [3, 4], [2], [2, 1, 5], []]

theorem computeLoopTree_correct_nestedLoopsGraph :
    Dominates nestedLoopsGraph.Edge 0 2 4 ∧ ¬ Avoids nestedLoopsGraph.Edge 2 1 3 := by
  have hvalid : nestedLoopsGraph.Valid := arenaGraph_valid (by decide)
  have hr : nestedLoopsGraph.entryNode = some 0 := rfl
  obtain ⟨t, ht, _⟩ := computeDominatorTree_spec hvalid hr
  obtain ⟨tree, htree, _, _, hloops, _⟩ := computeLoopTree_correct hvalid hr ht
  have hquery : ((computeDominatorTree nestedLoopsGraph).bind
      (computeLoopTree nestedLoopsGraph)).bind (fun tree => (tree.loops[0]?).map (fun l =>
        (l.header, l.latches, l.blocks))) = some (2, [4, 3], [2, 4, 3]) := by decide +kernel
  rw [ht, Option.bind_some, htree, Option.bind_some, Option.map_eq_some_iff] at hquery
  obtain ⟨l, hl, hfields⟩ := hquery
  obtain ⟨hheader, hlatches, hblocks⟩ :
      l.header = 2 ∧ l.latches = [4, 3] ∧ l.blocks = [2, 4, 3] := by
    simpa only [Prod.mk.injEq] using hfields
  obtain ⟨_, hlatch, hblock⟩ := hloops l (List.mem_of_getElem? hl)
  rw [hlatches, hheader] at hlatch
  rw [hlatches, hblocks, hheader] at hblock
  constructor
  · exact ((hlatch 4).mp (by decide)).2.2
  · intro hpath
    have hone : nestedLoopsGraph.Reachable 1 := ⟨0, rfl, Relation.ReflTransGen.single (by decide)⟩
    exact absurd ((hblock 1).mpr (Or.inr ⟨hone, 3, by decide, hpath⟩)) (by decide)

/-- Node 2 cannot be reached from the entry. -/
def unreachablePredGraph : ControlFlowGraph Nat := arenaGraph [[1], [0], [1]]

/-- An unreachable node is in no loop, though it reaches the latch without passing through the
    header. -/
theorem unreachablePred_not_mem_blocks :
    ∃ t tree l, computeDominatorTree unreachablePredGraph = some t ∧
      computeLoopTree unreachablePredGraph t = some tree ∧ l ∈ tree.loops ∧
      1 ∈ l.latches ∧ Avoids unreachablePredGraph.Edge l.header 2 1 ∧ 2 ∉ l.blocks := by
  have hvalid : unreachablePredGraph.Valid := arenaGraph_valid (by decide)
  obtain ⟨t, ht, hdom⟩ := computeDominatorTree_spec (g := unreachablePredGraph) hvalid rfl
  obtain ⟨tree, htree, _⟩ := computeLoopTree_spec hvalid rfl hdom
  have hquery : ((computeDominatorTree unreachablePredGraph).bind
      (computeLoopTree unreachablePredGraph)).bind (fun tree => (tree.loops[0]?).map (fun l =>
        (l.header, l.latches, l.blocks))) = some (0, [1], [0, 1]) := by decide +kernel
  rw [ht, Option.bind_some, htree, Option.bind_some, Option.map_eq_some_iff] at hquery
  obtain ⟨l, hl, hfields⟩ := hquery
  obtain ⟨hheader, hlatches, hblocks⟩ :
      l.header = 0 ∧ l.latches = [1] ∧ l.blocks = [0, 1] := by
    simpa only [Prod.mk.injEq] using hfields
  refine ⟨t, tree, l, ht, htree, List.mem_of_getElem? hl, ?_, ?_, ?_⟩
  · rw [hlatches]
    exact List.mem_singleton_self 1
  · rw [hheader]
    exact (Avoids.refl (by decide)).tail (by decide) (by decide)
  · rw [hblocks]
    decide

end LoopTree

end Pliron
