/-
  Pliron.Graph.DomTreeSpec

  The dominator tree of a graph, and what its queries answer.

  `IsDomTree g r t` says what the tree is for: its keys are the nodes reachable
  from `r`, the parent of a node is its immediate dominator, and the children
  are the converse of the parents.  `computeDominatorTree_spec` shows that the
  computed tree is one, by carrying the result of the iteration over the numbers
  to the graph.
-/

import Pliron.Graph.DominanceSpec
import Pliron.Lib.Forest

namespace Pliron

open Pliron.Lib

variable {α : Type} [DecidableEq α]

/-! ## Lists of distinct elements -/

section Nodup

variable {l : List α} {v : α} {i j : Nat}

theorem idxOf?_eq_some_iff_of_nodup (h : l.Nodup) : l.idxOf? v = some i ↔ l[i]? = some v := by
  rw [List.idxOf?_eq_some_iff]
  constructor
  · rintro ⟨hi, hv, _⟩
    exact List.getElem?_eq_some_iff.mpr ⟨hi, by simpa using hv⟩
  · intro hv
    obtain ⟨hi, hv⟩ := List.getElem?_eq_some_iff.mp hv
    refine ⟨hi, by simpa using hv, fun j hj heq => ?_⟩
    have hij := h.getElem_inj_iff.mp ((by simpa using heq : l[j] = v).trans hv.symm)
    omega

omit [DecidableEq α] in
theorem eq_of_getElem?_eq (h : l.Nodup) (hi : l[i]? = some v) (hj : l[j]? = some v) : i = j := by
  obtain ⟨_, hi⟩ := List.getElem?_eq_some_iff.mp hi
  obtain ⟨_, hj⟩ := List.getElem?_eq_some_iff.mp hj
  exact h.getElem_inj_iff.mp (hi.trans hj.symm)

theorem idxOf_eq_of_getElem? (h : l.Nodup) (hi : l[i]? = some v) : l.idxOf v = i :=
  eq_of_getElem?_eq h (List.getElem?_idxOf (List.mem_of_getElem? hi)) hi

end Nodup

namespace Dominance

open Traversals

variable {g : ControlFlowGraph α} {r u v : α}

/-! ## Reverse post-order numbers -/

/-- The nodes reachable from `r` in reverse post-order. -/
def rpo (g : ControlFlowGraph α) (r : α) : List α := (search g r).closed.reverse

theorem rpo_nodup : (rpo g r).Nodup := List.nodup_reverse.mpr search_inv.closed_nodup

theorem mem_rpo (hg : g.Valid) (hr : r ∈ g.nodes) : v ∈ rpo g r ↔ Reach g.Edge r v := by
  rw [rpo, List.mem_reverse, mem_search_closed hg.closed hr]

theorem length_rpo : (rpo g r).length = (search g r).closed.length := List.length_reverse

/-- The number of a node counts down from its post-order number. -/
theorem rpo_getElem?_post (hv : v ∈ (search g r).closed) :
    (rpo g r)[(search g r).closed.length - 1 - (search g r).post v]? = some v := by
  have hlt : (search g r).post v < (search g r).closed.length := idxOf_lt_length_of_mem hv
  rw [rpo, List.getElem?_reverse (by omega)]
  have heq : (search g r).closed.length - 1 -
      ((search g r).closed.length - 1 - (search g r).post v) = (search g r).post v := by
    omega
  rw [heq]
  exact List.getElem?_idxOf hv

theorem rpo_index_eq {i : Nat} (hi : (rpo g r)[i]? = some v) :
    i = (search g r).closed.length - 1 - (search g r).post v :=
  eq_of_getElem?_eq rpo_nodup hi (rpo_getElem?_post (List.mem_reverse.mp (List.mem_of_getElem? hi)))

/-- The entry comes first. -/
theorem rpo_zero (hg : g.Valid) (hr : r ∈ g.nodes) : (rpo g r)[0]? = some r := by
  have hrc : r ∈ (search g r).closed := (mem_search_closed hg.closed hr).mpr (Reach.refl r)
  have hne : 0 < (search g r).closed.length := List.length_pos_of_mem hrc
  obtain ⟨v, hv⟩ : ∃ v, (rpo g r)[0]? = some v :=
    ⟨_, List.getElem?_eq_getElem (by rw [length_rpo]; exact hne)⟩
  have hvr : Reach g.Edge r v := (mem_rpo hg hr).mp (List.mem_of_getElem? hv)
  have h0 := rpo_index_eq hv
  have hlt : (search g r).post r < (search g r).closed.length := idxOf_lt_length_of_mem hrc
  have hle := ((search_isDfsOrder hg.closed hr).root_ancestor hvr).2
  have heq : (search g r).post v = (search g r).post r := by omega
  rw [hv, (search_isDfsOrder hg.closed hr).post_inj hvr (Reach.refl r) heq]

/-- An edge between numbers is an edge of the graph between the nodes. -/
theorem indexEdge_iff (hg : g.Valid) (hr : r ∈ g.nodes) {p i : Nat}
    (hp : (rpo g r)[p]? = some u) (hi : (rpo g r)[i]? = some v) :
    IndexEdge (predIndices g (rpo g r)) (rpo g r).length p i ↔ g.Edge u v := by
  have hu : u ∈ g.nodes := hg.mem_of_reach hr ((mem_rpo hg hr).mp (List.mem_of_getElem? hp))
  have hv : v ∈ g.nodes := hg.mem_of_reach hr ((mem_rpo hg hr).mp (List.mem_of_getElem? hi))
  have hpl : p < (rpo g r).length := (List.getElem?_eq_some_iff.mp hp).1
  have hil : i < (rpo g r).length := (List.getElem?_eq_some_iff.mp hi).1
  have hmem : p ∈ predIndices g (rpo g r) i ↔ u ∈ g.predecessors v := by
    simp only [predIndices, hi, List.mem_filterMap, idxOf?_eq_some_iff_of_nodup rpo_nodup]
    constructor
    · rintro ⟨w, hw, hpw⟩
      exact Option.some.inj (hpw.symm.trans hp) ▸ hw
    · intro hu
      exact ⟨u, hu, hp⟩
  rw [IndexEdge, hmem, hg.mem_preds v hv u hu]
  exact ⟨fun h => h.2.2, fun h => ⟨hpl, hil, h⟩⟩

theorem hasSmallerPred_rpo (hg : g.Valid) (hr : r ∈ g.nodes) :
    HasSmallerPred (IndexEdge (predIndices g (rpo g r)) (rpo g r).length)
      (rpo g r).length := by
  intro i hi0 hil
  have hi : (rpo g r)[i]? = some (rpo g r)[i] := List.getElem?_eq_getElem hil
  set v := (rpo g r)[i] with hv
  have hvr : Reach g.Edge r v := (mem_rpo hg hr).mp (List.mem_of_getElem? hi)
  have hne : v ≠ r := by
    intro heq
    have h0 := eq_of_getElem?_eq rpo_nodup (heq ▸ hi) (rpo_zero hg hr)
    omega
  obtain ⟨p, hp, hpv, _, hpost, _⟩ := (search_isDfsOrder hg.closed hr).parent hvr hne
  have hpc : p ∈ (search g r).closed := (mem_search_closed hg.closed hr).mpr hp
  have hpi := rpo_getElem?_post hpc
  have hiv := rpo_index_eq hi
  have hlt : (search g r).post p < (search g r).closed.length := idxOf_lt_length_of_mem hpc
  exact ⟨_, by omega, (indexEdge_iff hg hr hpi hi).mpr hpv⟩

/-- Dominance between numbers is dominance between the nodes. -/
theorem index_dominates_iff (hg : g.Valid) (hr : r ∈ g.nodes) {x k : Nat}
    (hx : (rpo g r)[x]? = some u) (hk : (rpo g r)[k]? = some v) :
    Dominates (IndexEdge (predIndices g (rpo g r)) (rpo g r).length) 0 x k ↔
      Dominates g.Edge r u v := by
  have hat : ∀ {i : Nat} {w : α}, (rpo g r)[i]? = some w → ((rpo g r)[i]?).getD r = w :=
    fun h => by rw [h]; rfl
  have hzero := rpo_zero hg hr
  have hmem : ∀ {i : Nat}, i < (rpo g r).length → ∃ w, (rpo g r)[i]? = some w :=
    fun h => ⟨_, List.getElem?_eq_getElem h⟩
  have hlen : ∀ {i : Nat} {w : α}, (rpo g r)[i]? = some w → i < (rpo g r).length :=
    fun h => (List.getElem?_eq_some_iff.mp h).1
  refine not_congr ⟨fun h => ?_, fun h => ?_⟩
  · have hmap := h.map (F := g.Edge) (fun i => ((rpo g r)[i]?).getD r) ?_ ?_
    · simpa only [hat hx, hat hk, hat hzero] using hmap
    · intro i j _ hij
      obtain ⟨a, ha⟩ := hmem hij.1
      obtain ⟨b, hb⟩ := hmem hij.2.1
      simp only [hat ha, hat hb]
      exact (indexEdge_iff hg hr ha hb).mp hij
    · intro i hi hne heq
      have hil : i < (rpo g r).length := hi.closed (hlen hzero) (fun _ _ _ h => h.2.1)
      obtain ⟨a, ha⟩ := hmem hil
      simp only [hat ha, hat hx] at heq
      exact hne (eq_of_getElem?_eq rpo_nodup ha (heq ▸ hx))
  · have hmap := h.map (F := IndexEdge (predIndices g (rpo g r)) (rpo g r).length)
      (fun w => (rpo g r).idxOf w) ?_ ?_
    · simpa only [idxOf_eq_of_getElem? rpo_nodup hx, idxOf_eq_of_getElem? rpo_nodup hk,
        idxOf_eq_of_getElem? rpo_nodup hzero] using hmap
    · intro a b ha hab
      have ha' := List.getElem?_idxOf ((mem_rpo hg hr).mpr ha)
      have hb' := List.getElem?_idxOf ((mem_rpo hg hr).mpr (ha.tail hab))
      exact (indexEdge_iff hg hr ha' hb').mpr hab
    · intro a ha hne heq
      have ha' := (mem_rpo hg hr).mpr ha
      exact hne (eq_of_idxOf_eq ha' heq)

/-- The order the algorithm works with is that of the first component. -/
theorem topologicalOrderByComponent_head? (hg : g.Valid) (hr : g.entryNode = some r) :
    (topologicalOrderByComponent g).head? = some (rpo g r) := by
  have hkeep : ∀ (l : List α) (acc : List α × List (List α)), acc.2.head? = some (rpo g r) →
      (l.foldl (fun acc node =>
        ((postOrderWalkComponent g node acc.1 []).1,
          if (postOrderWalkComponent g node acc.1 []).2.isEmpty then acc.2
          else acc.2 ++ [(postOrderWalkComponent g node acc.1 []).2.reverse])) acc).2.head? =
            some (rpo g r) := by
    intro l
    induction l with
    | nil => exact fun acc h => h
    | cons a l ih =>
        intro acc h
        rw [List.foldl_cons]
        refine ih _ ?_
        simp only
        split
        · exact h
        · rw [List.head?_append, h]
          rfl
  have hentry := hg.entry
  rw [hr] at hentry
  obtain ⟨rest, hnodes⟩ := List.head?_eq_some_iff.mp hentry.symm
  rw [topologicalOrderByComponent, hnodes, List.foldl_cons]
  refine hkeep rest _ ?_
  rw [postOrderWalkComponent_eq_search]
  have hrc : r ∈ (search g r).closed :=
    (mem_search_closed hg.closed (hg.entry_mem hr)).mpr (Reach.refl r)
  have hne : (search g r).closed.isEmpty = false := by
    simpa using List.ne_nil_of_mem hrc
  simp [hne, rpo]

/-! ## Building the tree -/

section Build

variable {l : List α} {dom : List (Option Nat)} {map : IMap α (DomTreeNode α)} {k i j : Nat}

/-- The parent that the array gives to the `i`-th node. -/
def parentNode (l : List α) (dom : List (Option Nat)) (i : Nat) : Option α :=
  if i = 0 then none else (domAt dom i).bind (fun j => l[j]?)

/-- The nodes before the `k`-th whose parent is the `i`-th. -/
def childNodes (l : List α) (dom : List (Option Nat)) (k i : Nat) : List α :=
  ((List.range' 1 (k - 1)).filter (fun j => domAt dom j = some i)).filterMap (fun j => l[j]?)

/-- The tree after the first `k` nodes were added. -/
def TreeUpTo (l : List α) (dom : List (Option Nat)) (k : Nat)
    (map : IMap α (DomTreeNode α)) : Prop :=
  map.keys = l.take k ∧ ∀ i < k, ∀ v, l[i]? = some v →
    map.get? v = some ⟨parentNode l dom i, childNodes l dom k i⟩

omit [DecidableEq α] in
theorem childNodes_succ (hk : 0 < k) (hv : l[k]? = some v) :
    childNodes l dom (k + 1) i =
      childNodes l dom k i ++ if domAt dom k = some i then [v] else [] := by
  have hrange : List.range' 1 k = List.range' 1 (k - 1) ++ [k] := by
    have hconcat : List.range' 1 (k - 1 + 1) = List.range' 1 (k - 1) ++ [1 + 1 * (k - 1)] :=
      List.range'_concat
    rw [Nat.sub_add_cancel hk] at hconcat
    rw [hconcat]
    congr 2
    omega
  simp only [childNodes, Nat.add_sub_cancel, hrange, List.filter_append, List.filterMap_append]
  split <;> simp [*]

theorem insertChild_spec (hl : l.Nodup) (hk : 0 < k) (hv : l[k]? = some v)
    (hj : domAt dom k = some j) (hjk : j < k)
    (hlt : ∀ i c, 0 < i → domAt dom i = some c → c < i) (hmap : TreeUpTo l dom k map) :
    ∃ map', insertChild l dom map k = some map' ∧ TreeUpTo l dom (k + 1) map' := by
  obtain ⟨hkl, hvk⟩ := List.getElem?_eq_some_iff.mp hv
  obtain ⟨p, hp⟩ : ∃ p, l[j]? = some p := ⟨_, List.getElem?_eq_getElem (Nat.lt_trans hjk hkl)⟩
  have hpv : v ≠ p := by
    rintro rfl
    exact absurd (eq_of_getElem?_eq hl hv hp) (Nat.ne_of_gt hjk)
  have hvkeys : v ∉ map.keys := by
    rw [hmap.1]
    intro hm
    obtain ⟨i, hi, hiv⟩ := List.mem_take_iff_getElem.mp hm
    have hii : l[i]? = some v := hiv ▸ List.getElem?_eq_getElem (by omega)
    have := eq_of_getElem?_eq hl hii hv
    omega
  have hcontains : (map.insert v ⟨some p, []⟩).containsKey p = true := by
    rw [IMap.containsKey, IMap.get?_insert, if_neg hpv, hmap.2 j hjk p hp]
    rfl
  refine ⟨(map.insert v ⟨some p, []⟩).modify p
      (fun n => { n with children := n.children ++ [v] }),
    by simp [insertChild, hv, hj, hp, hcontains, guard], ?_, ?_⟩
  · rw [IMap.keys_modify, IMap.insert_of_not_mem hvkeys, IMap.keys, List.map_append]
    have htake : l.take (k + 1) = l.take k ++ [v] := by
      rw [List.take_add_one, hv]
      rfl
    rw [htake, ← hmap.1]
    rfl
  · intro i hi w hw
    rw [IMap.get?_modify, IMap.get?_insert]
    rcases Nat.lt_succ_iff_lt_or_eq.mp hi with hik | rfl
    · have hvw : v ≠ w := by
        rintro rfl
        exact absurd (eq_of_getElem?_eq hl hv hw) (Nat.ne_of_gt hik)
      rw [if_neg hvw, hmap.2 i hik w hw, childNodes_succ hk hv, hj]
      by_cases hij : j = i
      · have hpw : p = w := by
          rw [hij] at hp
          exact Option.some.inj (hp.symm.trans hw)
        rw [if_pos hpw, if_pos (by rw [hij])]
        rfl
      · have hpw : p ≠ w := by
          rintro rfl
          exact hij (eq_of_getElem?_eq hl hp hw)
        rw [if_neg hpw, if_neg (by simpa using hij), List.append_nil]
    · obtain rfl : v = w := Option.some.inj (hv.symm.trans hw)
      rw [if_neg (Ne.symm hpv), if_pos rfl]
      have hparent : parentNode l dom i = some p := by
        simp [parentNode, Nat.ne_of_gt hk, hj, hp]
      have hchildren : childNodes l dom (i + 1) i = [] := by
        have hempty : (List.range' 1 i).filter (fun j => domAt dom j = some i) = [] := by
          rw [List.filter_eq_nil_iff]
          intro m hm hmi
          obtain ⟨hm1, hmi'⟩ := List.mem_range'_1.mp hm
          have := hlt m i (by omega) (by simpa using hmi)
          omega
        simp [childNodes, hempty]
      rw [hparent, hchildren]

theorem foldlM_insertChild_spec (hl : l.Nodup)
    (hsome : ∀ i < l.length, (domAt dom i).isSome)
    (hlt : ∀ i c, 0 < i → domAt dom i = some c → c < i) :
    ∀ (len k : Nat) (map : IMap α (DomTreeNode α)), 0 < k → k + len = l.length →
      TreeUpTo l dom k map →
      ∃ map', (List.range' k len).foldlM (insertChild l dom) map = some map' ∧
        TreeUpTo l dom l.length map' := by
  intro len
  induction len with
  | zero =>
      intro k map _ hk hmap
      exact ⟨map, rfl, by simpa [← hk] using hmap⟩
  | succ len ih =>
      intro k map hk0 hk hmap
      have hkl : k < l.length := by omega
      obtain ⟨j, hj⟩ := Option.isSome_iff_exists.mp (hsome k hkl)
      obtain ⟨map', hmap', htree⟩ := insertChild_spec hl hk0 (List.getElem?_eq_getElem hkl) hj
        (hlt k j hk0 hj) hlt hmap
      obtain ⟨map'', hfold, htree'⟩ := ih (k + 1) map' (by omega) (by omega) htree
      refine ⟨map'', ?_, htree'⟩
      rw [List.range'_succ, List.foldlM_cons, hmap']
      exact hfold

end Build

end Dominance

/-! ## The specification -/

/-- `t` is the dominator tree of the nodes of `g` reachable from `r`. -/
structure IsDomTree (g : ControlFlowGraph α) (r : α) (t : DomTree α) : Prop where
  root : t.root = some r
  nodup : t.dominatorsMap.keys.Nodup
  mem_keys : ∀ v, v ∈ t.dominatorsMap.keys ↔ Reach g.Edge r v
  parent_root : t.parent r = none
  parent : ∀ v, Reach g.Edge r v → v ≠ r → ∃ p, t.parent v = some p ∧
    StrictlyDominates g.Edge r p v ∧
    (∀ d, StrictlyDominates g.Edge r d v → Dominates g.Edge r d p) ∧
    t.dominatorsMap.keys.idxOf p < t.dominatorsMap.keys.idxOf v
  children : ∀ v, Reach g.Edge r v → ∃ cs, t.children v = some cs ∧ cs.Nodup ∧
    ∀ c, c ∈ cs ↔ Reach g.Edge r c ∧ t.parent c = some v

namespace Dominance

open Traversals

variable {g : ControlFlowGraph α} {r : α}

/-- The array settled by the iteration yields the dominator tree. -/
theorem isDomTree_of_treeUpTo (hg : g.Valid) (hr : r ∈ g.nodes) {dom : List (Option Nat)}
    {map : IMap α (DomTreeNode α)}
    (hinv : DomInv (IndexEdge (predIndices g (rpo g r)) (rpo g r).length) (domAt dom)
      (rpo g r).length (rpo g r).length)
    (hset : ∀ i, 0 < i → i < (rpo g r).length →
      Settled (predIndices g (rpo g r)) dom (rpo g r).length i)
    (hmap : TreeUpTo (rpo g r) dom (rpo g r).length map) : IsDomTree g r ⟨some r, map⟩ := by
  have hkeys : map.keys = rpo g r := by rw [hmap.1, List.take_length]
  have hzero := rpo_zero hg hr
  have hindex : ∀ {v}, Reach g.Edge r v → ∃ k, k < (rpo g r).length ∧ (rpo g r)[k]? = some v := by
    intro v hv
    have hmem := (mem_rpo hg hr).mpr hv
    exact ⟨_, List.idxOf_lt_length_of_mem hmem, List.getElem?_idxOf hmem⟩
  have hparent : ∀ {k v}, (rpo g r)[k]? = some v →
      DomTree.parent ⟨some r, map⟩ v = parentNode (rpo g r) dom k := by
    intro k v hk
    rw [DomTree.parent, hmap.2 k (List.getElem?_eq_some_iff.mp hk).1 v hk]
    rfl
  -- the idoms are settled, so the ancestors of an index are its dominators
  have hfix : ∀ i, 0 < i → i < (rpo g r).length → ∀ j, domAt dom i = some j →
      IsNca (domAt dom) (fun p => IndexEdge (predIndices g (rpo g r)) (rpo g r).length p i ∧
        p < (rpo g r).length) j := by
    intro i hi hil j hj
    obtain ⟨c, hc, hnca⟩ := hset i hi hil
    rw [hj] at hc
    exact Option.some.inj hc ▸ hnca
  have hanc : ∀ {x k}, k < (rpo g r).length → (Anc (domAt dom) x k ↔
      Dominates (IndexEdge (predIndices g (rpo g r)) (rpo g r).length) 0 x k) :=
    fun hk => hinv.anc_iff_dominates (fun p k h => ⟨h.1, h.2.1⟩) hfix hk
  have hstep : ∀ {k}, 0 < k → k < (rpo g r).length → ∃ j, domAt dom k = some j ∧ j < k := by
    intro k hk hkl
    obtain ⟨j, hj⟩ := Option.isSome_iff_exists.mp ((hinv.some_iff k).mpr hkl)
    exact ⟨j, hj, hinv.lt_of_parent hk hj⟩
  refine ⟨rfl, hkeys ▸ rpo_nodup, fun v => by rw [hkeys, mem_rpo hg hr], ?_, ?_, ?_⟩
  · rw [hparent hzero]
    rfl
  · intro v hv hne
    obtain ⟨k, hkl, hk⟩ := hindex hv
    have hk0 : 0 < k := by
      rcases Nat.eq_zero_or_pos k with rfl | h
      · exact absurd (Option.some.inj (hk.symm.trans hzero)) hne
      · exact h
    obtain ⟨j, hj, hjk⟩ := hstep hk0 hkl
    have hp : (rpo g r)[j]? = some (rpo g r)[j] := List.getElem?_eq_getElem (by omega)
    refine ⟨(rpo g r)[j], ?_, ⟨?_, ?_⟩, ?_, ?_⟩
    · rw [hparent hk, parentNode, if_neg (Nat.ne_of_gt hk0), hj]
      exact hp
    · exact (index_dominates_iff hg hr hp hk).mp ((hanc hkl).mp (Anc.of_parent hj (Anc.refl j)))
    · intro heq
      rw [heq] at hp
      exact absurd (eq_of_getElem?_eq rpo_nodup hp hk) (Nat.ne_of_lt hjk)
    · -- a strict dominator of the node dominates its parent
      intro d hd
      obtain ⟨x, hxl, hx⟩ := hindex (hd.1.reach hv).1
      have hxk := (hanc hkl).mpr ((index_dominates_iff hg hr hx hk).mpr hd.1)
      have hne : x ≠ k := by
        rintro rfl
        exact hd.2 (Option.some.inj (hx.symm.trans hk))
      have hlt : x < k := lt_of_le_of_ne (hinv.chain.le_of_anc hxk) hne
      exact (index_dominates_iff hg hr hx hp).mp
        ((hanc (by omega)).mp (hxk.parent_of_lt hlt hj))
    · simp only [hkeys, idxOf_eq_of_getElem? rpo_nodup hp, idxOf_eq_of_getElem? rpo_nodup hk]
      exact hjk
  · intro v hv
    obtain ⟨i, hil, hi⟩ := hindex hv
    refine ⟨childNodes (rpo g r) dom (rpo g r).length i, ?_, ?_, ?_⟩
    · rw [DomTree.children, hmap.2 i hil v hi]
      rfl
    · refine List.Nodup.filterMap (fun a b c ha hb => ?_)
        (List.Nodup.filter _ List.nodup_range')
      exact eq_of_getElem?_eq rpo_nodup ha hb
    · intro c
      simp only [childNodes, List.mem_filterMap, List.mem_filter, List.mem_range'_1,
        decide_eq_true_eq]
      constructor
      · rintro ⟨k, ⟨⟨hk1, hkl⟩, hki⟩, hkc⟩
        refine ⟨(mem_rpo hg hr).mp (List.mem_of_getElem? hkc), ?_⟩
        rw [hparent hkc, parentNode, if_neg (by omega), hki]
        exact hi
      · rintro ⟨hc, hpc⟩
        obtain ⟨k, hkl, hk⟩ := hindex hc
        rw [hparent hk, parentNode] at hpc
        have hk0 : k ≠ 0 := by
          rintro rfl
          exact absurd hpc (by simp)
        rw [if_neg hk0] at hpc
        obtain ⟨j, hj, hjv⟩ := Option.bind_eq_some_iff.mp hpc
        rw [eq_of_getElem?_eq rpo_nodup hjv hi] at hj
        exact ⟨k, ⟨⟨by omega, by omega⟩, hj⟩, hk⟩

/-- The dominator tree of a valid graph is computed, and is its dominator tree. -/
theorem computeDominatorTree_spec (hg : g.Valid) (hr : g.entryNode = some r) :
    ∃ t, computeDominatorTree g = some t ∧ IsDomTree g r t := by
  have hrn := hg.entry_mem hr
  have hzero := rpo_zero hg hrn
  have hn : 0 < (rpo g r).length := (List.getElem?_eq_some_iff.mp hzero).1
  obtain ⟨dom, hdom, hlen, hinv, hset⟩ := domLoop_init hn (hasSmallerPred_rpo hg hrn)
  have hinit : TreeUpTo (rpo g r) dom 1 [(r, ⟨none, []⟩)] := by
    refine ⟨?_, ?_⟩
    · rw [List.take_add_one, hzero]
      rfl
    · intro i hi v hv
      obtain rfl : i = 0 := by omega
      rw [Option.some.inj (hv.symm.trans hzero)]
      simp [IMap.get?_cons, parentNode, childNodes]
  obtain ⟨map, hfold, hmap⟩ := foldlM_insertChild_spec rpo_nodup
    (fun i hi => (hinv.some_iff i).mpr hi) (fun i c hi hc => hinv.lt_of_parent hi hc)
    ((rpo g r).length - 1) 1 _ Nat.one_pos (by omega) hinit
  refine ⟨⟨some r, map⟩, ?_, isDomTree_of_treeUpTo hg hrn hinv hset hmap⟩
  have hidx : (rpo g r).idxOf? r = some 0 := (idxOf?_eq_some_iff_of_nodup rpo_nodup).mpr hzero
  simp [computeDominatorTree, hr, topologicalOrderByComponent_head? hg hr, hidx, hdom, hfold,
    guard]

end Dominance

/-! ## Queries -/

namespace IsDomTree

variable {g : ControlFlowGraph α} {r d u v : α} {t : DomTree α}

theorem contains_iff (h : IsDomTree g r t) : t.contains v ↔ Reach g.Edge r v := by
  rw [← h.mem_keys v, IMap.mem_keys_iff]
  rfl

theorem parent_of_not_reach (h : IsDomTree g r t) (hv : ¬ Reach g.Edge r v) :
    t.parent v = none := by
  rw [← h.mem_keys v, IMap.mem_keys_iff, Option.not_isSome_iff_eq_none] at hv
  rw [DomTree.parent, hv]
  rfl

/-- The root is nobody's child. -/
theorem ne_root_of_mem_children (h : IsDomTree g r t) {cs : List α} (hcs : t.children v = some cs)
    (hu : u ∈ cs) : u ≠ r := by
  have hv : Reach g.Edge r v := by
    rw [← h.mem_keys v, IMap.mem_keys_iff]
    obtain ⟨n, hn, _⟩ := Option.map_eq_some_iff.mp hcs
    rw [hn]
    rfl
  obtain ⟨cs', hcs', _, hmem⟩ := h.children v hv
  obtain rfl := Option.some.inj (hcs.symm.trans hcs')
  rintro rfl
  have hparent := ((hmem u).mp hu).2
  rw [h.parent_root] at hparent
  exact absurd hparent (by simp)

theorem dominatesLoop_iff (h : IsDomTree g r t) (fuel : Nat) :
    ∀ v, Reach g.Edge r v → t.dominatorsMap.keys.idxOf v + 1 < fuel →
      (t.dominatesLoop d fuel (some v) = true ↔ Dominates g.Edge r d v) := by
  induction fuel with
  | zero =>
      intro v _ hfuel
      exact absurd hfuel (Nat.not_lt_zero _)
  | succ fuel ih =>
      intro v hv hfuel
      unfold DomTree.dominatesLoop
      by_cases hvd : v = d
      · rw [if_pos hvd, ← hvd]
        exact iff_of_true rfl (Dominates.refl v)
      · rw [if_neg hvd]
        by_cases hvr : v = r
        · subst hvr
          rw [h.parent_root]
          refine iff_of_false ?_ (fun hd => hd (Avoids.refl hvd))
          cases fuel <;> simp [DomTree.dominatesLoop]
        · obtain ⟨p, hp, hpv, hidom, hlt⟩ := h.parent v hv hvr
          rw [hp, ih p (hpv.1.reach hv).1 (by omega)]
          exact ⟨fun hd => hd.trans hpv.1, fun hd => hidom d ⟨hd, fun heq => hvd heq.symm⟩⟩

/-- On the nodes reachable from the entry, `dominates` decides dominance. -/
theorem dominates_iff (h : IsDomTree g r t) (hv : Reach g.Edge r v) :
    t.dominates d v = true ↔ Dominates g.Edge r d v := by
  refine h.dominatesLoop_iff _ v hv ?_
  have hlt := List.idxOf_lt_length_of_mem ((h.mem_keys v).mpr hv)
  rw [IMap.keys, List.length_map] at hlt
  exact Nat.succ_lt_succ hlt

/-- An unreachable node has no other dominators. -/
theorem dominates_of_not_reach (h : IsDomTree g r t) (hv : ¬ Reach g.Edge r v) :
    t.dominates d v = true ↔ v = d := by
  unfold DomTree.dominates DomTree.dominatesLoop
  by_cases hvd : v = d
  · simp [hvd]
  · rw [if_neg hvd, h.parent_of_not_reach hv]
    refine iff_of_false ?_ hvd
    cases t.dominatorsMap.length <;> simp [DomTree.dominatesLoop]

/-- A node strictly dominates what its children dominate, and nothing else. -/
theorem strictlyDominates_iff (h : IsDomTree g r t) (hu : Reach g.Edge r u) :
    StrictlyDominates g.Edge r v u ↔ ∃ c, t.parent c = some v ∧ Reach g.Edge r c ∧
      Dominates g.Edge r c u := by
  constructor
  · intro hvu
    induction hn : t.dominatorsMap.keys.idxOf u using Nat.strong_induction_on generalizing u with
    | _ n ih =>
        subst hn
        obtain ⟨p, hp, hpu, hidom, hlt⟩ := h.parent u hu hvu.not_root
        by_cases hvp : v = p
        · exact ⟨u, hvp ▸ hp, hu, Dominates.refl u⟩
        · obtain ⟨c, hc, hcr, hcp⟩ := ih _ hlt (hpu.1.reach hu).1 ⟨hidom v hvu, hvp⟩ rfl
          exact ⟨c, hc, hcr, hcp.trans hpu.1⟩
  · rintro ⟨c, hc, hcr, hcu⟩
    have hne : c ≠ r := by
      rintro rfl
      rw [h.parent_root] at hc
      exact absurd hc (by simp)
    obtain ⟨p, hp, hpc, _⟩ := h.parent c hcr hne
    obtain rfl : p = v := Option.some.inj (hp.symm.trans hc)
    by_cases hcu' : c = u
    · exact hcu' ▸ hpc
    · exact hpc.trans ⟨hcu, hcu'⟩ hu

/-- The subtrees of two children do not overlap. -/
theorem eq_of_children (h : IsDomTree g r t) {c₁ c₂ : α} (hu : Reach g.Edge r u)
    (hc₁ : t.parent c₁ = some v) (hc₂ : t.parent c₂ = some v) (h₁ : Dominates g.Edge r c₁ u)
    (h₂ : Dominates g.Edge r c₂ u) : c₁ = c₂ := by
  have hr₁ := (h₁.reach hu).1
  have hr₂ := (h₂.reach hu).1
  -- one of the two would be between the other one and its parent
  have key : ∀ {a b}, t.parent a = some v → t.parent b = some v → Reach g.Edge r a →
      Reach g.Edge r b → Dominates g.Edge r a b → a = b := by
    intro a b ha hb har hbr hab
    by_contra hne
    have hbroot : b ≠ r := by
      rintro rfl
      rw [h.parent_root] at hb
      exact absurd hb (by simp)
    obtain ⟨p, hp, _, hidom, _⟩ := h.parent b hbr hbroot
    obtain rfl : p = v := Option.some.inj (hp.symm.trans hb)
    have hva : StrictlyDominates g.Edge r p a :=
      (h.strictlyDominates_iff har).mpr ⟨a, ha, har, Dominates.refl a⟩
    exact hva.2 (hva.1.antisymm (hidom a ⟨hab, hne⟩) (hva.1.reach har).1)
  rcases h₁.total h₂ hu with hle | hle
  · exact key hc₁ hc₂ hr₁ hr₂ hle
  · exact (key hc₂ hc₁ hr₂ hr₁ hle).symm

end IsDomTree

/-! ## Correctness -/

namespace IsDomTree

variable {g : ControlFlowGraph α} {r v : α} {t : DomTree α}

theorem idom_eq (h : IsDomTree g r t) (hv : Reach g.Edge r v) : t.idom v = some (t.parent v) := by
  rw [← h.mem_keys v, IMap.mem_keys_iff] at hv
  obtain ⟨n, hn⟩ := Option.isSome_iff_exists.mp hv
  simp [DomTree.idom, DomTree.parent, hn]

/-- The links to the immediate dominators lead to the root. -/
theorem above_root (h : IsDomTree g r t) (hv : Reach g.Edge r v) : Above t.parent v r := by
  induction hn : t.dominatorsMap.keys.idxOf v using Nat.strong_induction_on generalizing v with
  | _ n ih =>
      subst hn
      by_cases hvr : v = r
      · rw [hvr]
        exact Above.refl r
      · obtain ⟨p, hp, hpv, _, hlt⟩ := h.parent v hv hvr
        exact Relation.ReflTransGen.head hp (ih _ hlt (hpv.1.reach hv).1 rfl)

end IsDomTree

namespace Dominance

variable {g : ControlFlowGraph α} {r : α}

/-- The construction terminates without a panic; its answers are dominance, and the links to
    the immediate dominators form a tree of the reachable nodes with the entry as its root. -/
theorem computeDominatorTree_correct (hg : g.Valid) (hr : g.entryNode = some r) :
    ∃ t, computeDominatorTree g = some t ∧
      (∀ a b, g.Reachable a → g.Reachable b →
        (t.dominates a b = true ↔ ∀ path, Path g.Edge r b path → a ∈ path)) ∧
      (∀ v, t.contains v = true ↔ g.Reachable v) ∧
      t.root = some r ∧ t.idom r = some none ∧
      (∀ v, g.Reachable v → v ≠ r → ∃ p, t.idom v = some (some p) ∧ g.Reachable p ∧
        StrictlyDominates g.Edge r p v ∧
        ∀ d, StrictlyDominates g.Edge r d v → Dominates g.Edge r d p) ∧
      ∀ v, g.Reachable v → Above t.parent v r := by
  obtain ⟨t, ht, hspec⟩ := computeDominatorTree_spec hg hr
  have hreach : ∀ {v}, g.Reachable v ↔ Reach g.Edge r v := by
    intro v
    constructor
    · rintro ⟨r', hr', hv⟩
      obtain rfl := Option.some.inj (hr'.symm.trans hr)
      exact hv
    · exact fun hv => ⟨r, hr, hv⟩
  refine ⟨t, ht, fun a b _ hb => ?_, fun v => ?_, hspec.root, ?_, fun v hv hvr => ?_, fun v hv => ?_⟩
  · rw [hspec.dominates_iff (hreach.mp hb), dominates_iff_forall_path]
  · rw [hspec.contains_iff, hreach]
  · rw [hspec.idom_eq (Reach.refl r), hspec.parent_root]
  · obtain ⟨p, hp, hpv, hidom, _⟩ := hspec.parent v (hreach.mp hv) hvr
    refine ⟨p, ?_, hreach.mpr (hpv.1.reach (hreach.mp hv)).1, hpv, hidom⟩
    rw [hspec.idom_eq (hreach.mp hv), hp]
  · exact hspec.above_root (hreach.mp hv)

/-- An irreducible graph with a self loop, a duplicate edge and an unreachable node. -/
def irreducibleGraph : ControlFlowGraph Nat :=
  arenaGraph [[1, 2], [2, 1], [1, 3, 3], [], [3, 4]]

theorem computeDominatorTree_correct_irreducibleGraph :
    (∀ path, Path irreducibleGraph.Edge 0 3 path → 2 ∈ path) ∧
      ¬ ∀ path, Path irreducibleGraph.Edge 0 2 path → 1 ∈ path := by
  obtain ⟨t, ht, hdom, hcontains, _⟩ :=
    computeDominatorTree_correct (g := irreducibleGraph) (r := 0) (arenaGraph_valid (by decide)) rfl
  have hqueries : (computeDominatorTree irreducibleGraph).map (fun t =>
      (t.dominates 2 3, t.dominates 1 2, t.contains 1, t.contains 2, t.contains 3)) =
        some (true, false, true, true, true) := by decide
  rw [ht, Option.map_some, Option.some.injEq] at hqueries
  simp only [Prod.mk.injEq, hcontains] at hqueries
  obtain ⟨h23, h12, h1, h2, h3⟩ := hqueries
  refine ⟨(hdom 2 3 h2 h3).mp h23, fun hall => ?_⟩
  rw [(hdom 1 2 h1 h2).mpr hall] at h12
  cases h12

end Dominance

end Pliron
