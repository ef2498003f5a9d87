/-
  Pliron.Graph.TraversalCorrect

  The depth-first traversal of a graph, as a whole: the three numberings are
  permutations of the reachable nodes, the classification of edges never fails
  and finds exactly the edges to ancestors in the depth-first tree, and what is
  left without them is acyclic, with the reverse post-order as a topological
  order.
-/

import Pliron.Graph.TraversalSpec
import Pliron.Lib.DfsTree

namespace Pliron

open Pliron.Lib Relation

variable {α : Type} [DecidableEq α]

namespace Traversals

variable {g : ControlFlowGraph α} {r u v : α}

namespace DFSTraversal

/-- `p` is the parent of `v` in the depth-first tree: the walk from the entry discovers `v`
    as a successor of `p`. -/
def TreeEdge (g : ControlFlowGraph α) (p v : α) : Prop :=
  ∃ r, g.entryNode = some r ∧
    Lib.TreeEdge g.successors ((⟨[], [], []⟩ : DfsState α).push r) p v

/-- `number` counts the reachable nodes in the order of `nodes`, from 0. -/
structure IsNumbering (g : ControlFlowGraph α) (nodes : List α) (number : α → Option Nat) :
    Prop where
  nodup : nodes.Nodup
  mem_iff : ∀ v, v ∈ nodes ↔ g.Reachable v
  number_iff : ∀ (v : α) (i : Nat), number v = some i ↔ nodes[i]? = some v

/-- The edges between reachable nodes that are not classified as back edges. -/
def Remaining (g : ControlFlowGraph α) (u v : α) : Prop :=
  g.Reachable u ∧ g.Edge u v ∧ (new g).edgeKind u v ≠ some .back

/-- What the numbers of the reachable nodes of `g` say. -/
structure IsTraversal (g : ControlFlowGraph α) (t : DFSTraversal α) : Prop where
  pre : ∃ nodes, t.preOrder = some nodes ∧ IsNumbering g nodes t.preOrderNumber
  post : ∃ nodes, t.postOrder = some nodes ∧ IsNumbering g nodes t.postOrderNumber
  reversePost : ∃ nodes, t.reversePostOrder = some nodes ∧
    IsNumbering g nodes t.reversePostOrderNumber
  /-- No assertion fails, and the back edges are those to an ancestor or to the node itself. -/
  edgeKind : ∀ u v, g.Reachable u → g.Edge u v →
    ∃ kind, t.edgeKind u v = some kind ∧ (kind = .back ↔ Reach (TreeEdge g) v u)
  acyclic : ∀ u, ¬ TransGen (Remaining g) u u
  topological : ∀ u v, Remaining g u v →
    ∃ i j, t.reversePostOrderNumber u = some i ∧ t.reversePostOrderNumber v = some j ∧ i < j

/-! ## Numbers -/

omit [DecidableEq α] in
theorem reachable_iff (hr : g.entryNode = some r) : g.Reachable v ↔ Reach g.Edge r v := by
  constructor
  · rintro ⟨r', hr', hrv⟩
    rw [hr, Option.some.injEq] at hr'
    exact hr' ▸ hrv
  · exact fun hrv => ⟨r, hr, hrv⟩

/-- Nodes that were not discovered have no numbers. -/
theorem get?_new_of_not_reach (hg : g.Closed) (hr : g.entryNode = some r)
    (hv : ¬ Reach g.Edge r v) : (new g).tree.get? v = none := by
  rw [new_tree hg hr, IMap.get?_map, if_neg]
  rw [mem_search_opened hg (hg.entry_mem r hr)]
  exact hv

/-- Numbers that are positions in a list of the reachable nodes. -/
theorem isNumbering_of (hg : g.Closed) (hr : g.entryNode = some r) {nodes : List α}
    {number : DFSNumber → Nat} (hnodup : nodes.Nodup)
    (hmem : ∀ v, v ∈ nodes ↔ Reach g.Edge r v)
    (hnum : ∀ v n, (new g).tree.get? v = some n → nodes[number n]? = some v) :
    IsNumbering g nodes (fun v => ((new g).tree.get? v).map number) where
  nodup := hnodup
  mem_iff v := by rw [hmem, reachable_iff hr]
  number_iff v i := by
    by_cases hv : Reach g.Edge r v
    · have hget := get?_new hg hr hv
      have hat := hnum v _ hget
      simp only [hget, Option.map_some, Option.some.injEq]
      constructor
      · rintro rfl
        exact hat
      · intro hi
        obtain ⟨hlt, heq⟩ := List.getElem?_eq_some_iff.mp hat
        obtain ⟨hlt', heq'⟩ := List.getElem?_eq_some_iff.mp hi
        exact hnodup.getElem_inj_iff.mp (heq.trans heq'.symm)
    · simp only [get?_new_of_not_reach hg hr hv, Option.map_none]
      constructor
      · exact fun h => absurd h (by simp)
      · exact fun hi => absurd ((hmem v).mp (List.mem_of_getElem? hi)) hv

section Entry

variable (hg : g.Closed) (hr : g.entryNode = some r)

include hg hr

theorem preOrderNumber_isNumbering :
    IsNumbering g (search g r).opened (new g).preOrderNumber := by
  refine isNumbering_of hg hr search_inv.opened_nodup
    (fun v => mem_search_opened hg (hg.entry_mem r hr)) (fun v n hget => ?_)
  by_cases hv : Reach g.Edge r v
  · rw [get?_new hg hr hv, Option.some.injEq] at hget
    rw [← hget]
    exact List.getElem?_idxOf ((mem_search_opened hg (hg.entry_mem r hr)).mpr hv)
  · rw [get?_new_of_not_reach hg hr hv] at hget
    exact absurd hget (by simp)

theorem postOrderNumber_isNumbering :
    IsNumbering g (search g r).closed (new g).postOrderNumber := by
  refine isNumbering_of hg hr search_inv.closed_nodup
    (fun v => mem_search_closed hg (hg.entry_mem r hr)) (fun v n hget => ?_)
  by_cases hv : Reach g.Edge r v
  · rw [get?_new hg hr hv, Option.some.injEq] at hget
    rw [← hget]
    exact List.getElem?_idxOf ((mem_search_closed hg (hg.entry_mem r hr)).mpr hv)
  · rw [get?_new_of_not_reach hg hr hv] at hget
    exact absurd hget (by simp)

theorem reversePostOrderNumber_isNumbering :
    IsNumbering g (search g r).closed.reverse (new g).reversePostOrderNumber := by
  have hlen := search_length hg (hg.entry_mem r hr)
  refine isNumbering_of hg hr (List.nodup_reverse.mpr search_inv.closed_nodup)
    (fun v => ?_) (fun v n hget => ?_)
  · rw [List.mem_reverse, mem_search_closed hg (hg.entry_mem r hr)]
  · by_cases hv : Reach g.Edge r v
    · rw [get?_new hg hr hv, Option.some.injEq] at hget
      rw [← hget, hlen]
      have hvc := (mem_search_closed hg (hg.entry_mem r hr)).mpr hv
      have hlt : (search g r).post v < (search g r).closed.length := idxOf_lt_length_of_mem hvc
      show (search g r).closed.reverse[(search g r).closed.length - 1 - (search g r).post v]? =
        some v
      rw [List.getElem?_reverse (by omega)]
      have heq : (search g r).closed.length - 1 -
          ((search g r).closed.length - 1 - (search g r).post v) = (search g r).post v := by
        omega
      rw [heq]
      exact List.getElem?_idxOf hvc
    · rw [get?_new_of_not_reach hg hr hv] at hget
      exact absurd hget (by simp)

/-! ## Edges -/

/-- The two numbers of reachable nodes tell the ancestors in the depth-first tree. -/
theorem ancestor_iff_treeEdge (hu : Reach g.Edge r u) (hv : Reach g.Edge r v) :
    Ancestor (search g r).pre (search g r).post u v ↔ Reach (TreeEdge g) u v := by
  have hmem := hg.entry_mem r hr
  have hpush : DfsInv g.successors [r] ((⟨[], [], []⟩ : DfsState α).push r) :=
    DfsInv.empty.push rfl List.not_mem_nil
  have hiff := hpush.ancestor_iff rfl (walkFuel g) (search_stack hg hmem)
    ((mem_search_opened hg hmem).mpr hu) ((mem_search_opened hg hmem).mpr hv)
  rw [search, hiff]
  constructor
  · exact fun h => h.mono (fun x y hxy => ⟨r, hr, hxy⟩)
  · refine fun h => h.mono (fun x y hxy => ?_)
    obtain ⟨r', hr', hxy⟩ := hxy
    rw [hr, Option.some.injEq] at hr'
    exact hr' ▸ hxy

/-- An edge that is not a back edge leads to a node closed earlier. -/
theorem post_lt_of_remaining (h : Remaining g u v) :
    (search g r).post v < (search g r).post u := by
  obtain ⟨hu, huv, hnot⟩ := h
  rw [reachable_iff hr] at hu
  obtain ⟨kind, hkind, hback⟩ := edgeKind_new hg hr hu huv
  have hanc : ¬ Ancestor (search g r).pre (search g r).post v u := by
    intro hanc
    rw [hkind, hback.mpr hanc] at hnot
    exact hnot rfl
  exact (search_isDfsOrder hg (hg.entry_mem r hr)).post_lt_of_reducedEdge hu ⟨huv, hanc⟩

theorem remaining_topological (h : Remaining g u v) :
    ∃ i j, (new g).reversePostOrderNumber u = some i ∧
      (new g).reversePostOrderNumber v = some j ∧ i < j := by
  have hpost := post_lt_of_remaining hg hr h
  have hu : Reach g.Edge r u := (reachable_iff hr).mp h.1
  have hv : Reach g.Edge r v := hu.tail h.2.1
  have hlen := search_length hg (hg.entry_mem r hr)
  have hlt : (search g r).post u < (search g r).closed.length :=
    idxOf_lt_length_of_mem ((mem_search_closed hg (hg.entry_mem r hr)).mpr hu)
  refine ⟨(search g r).opened.length - 1 - (search g r).post u,
    (search g r).opened.length - 1 - (search g r).post v, ?_, ?_, ?_⟩
  · rw [reversePostOrderNumber, get?_new hg hr hu]
    rfl
  · rw [reversePostOrderNumber, get?_new hg hr hv]
    rfl
  · omega

end Entry

/-! ## The traversal as a whole -/

/-- A graph without an entry has no reachable nodes, and an empty traversal. -/
theorem new_of_no_entry (hr : g.entryNode = none) : IsTraversal g (new g) := by
  have hnone : ∀ {v}, ¬ g.Reachable v := by
    rintro v ⟨r, hr', _⟩
    rw [hr] at hr'
    exact absurd hr' (by simp)
  have htree : (new g).tree = [] := by simp [new, hr]
  have hempty : ∀ {number : DFSNumber → Nat}, IsNumbering g []
      (fun v => ((new g).tree.get? v).map number) := by
    intro number
    refine ⟨List.nodup_nil, fun v => ?_, fun v i => ?_⟩
    · simp [hnone]
    · simp [htree, IMap.get?]
  have horder : ∀ {number : DFSNumber → Nat}, (new g).order number = some [] := by
    intro number
    simp [order, htree]
  refine ⟨⟨[], horder, hempty⟩, ⟨[], horder, hempty⟩, ⟨[], horder, hempty⟩,
    fun u v hu _ => absurd hu hnone, fun u hu => ?_, fun u v huv => absurd huv.1 hnone⟩
  obtain ⟨w, huw, _⟩ := TransGen.head'_iff.mp hu
  exact hnone huw.1

/-- The depth-first traversal of every graph. -/
theorem dfsTraversal_correct (hg : g.Closed) : IsTraversal g (new g) := by
  match hr : g.entryNode with
  | none => exact new_of_no_entry hr
  | some r =>
      refine ⟨⟨_, preOrder_new hg hr, preOrderNumber_isNumbering hg hr⟩,
        ⟨_, postOrder_new hg hr, postOrderNumber_isNumbering hg hr⟩,
        ⟨_, reversePostOrder_new hg hr, reversePostOrderNumber_isNumbering hg hr⟩,
        fun u v hu huv => ?_, fun u hu => ?_, fun u v huv => remaining_topological hg hr huv⟩
      · rw [reachable_iff hr] at hu
        obtain ⟨kind, hkind, hback⟩ := edgeKind_new hg hr hu huv
        refine ⟨kind, hkind, ?_⟩
        rw [hback, ancestor_iff_treeEdge hg hr (hu.tail huv) hu]
      · -- post-order numbers fall along the remaining edges
        have hfall : ∀ {v}, TransGen (Remaining g) u v →
            (search g r).post v < (search g r).post u := by
          intro v huv
          induction huv with
          | single h => exact post_lt_of_remaining hg hr h
          | tail _ h ih => exact Nat.lt_trans (post_lt_of_remaining hg hr h) ih
        exact absurd (hfall hu) (Nat.lt_irrefl _)

/-- A loop, a repeated edge, a cycle, a cross edge, and a node the entry misses. -/
theorem dfsTraversal_correct_arena :
    (arenaGraph [[1, 3], [2, 2], [1, 2], [2], [0]]).Closed ∧
      IsTraversal (arenaGraph [[1, 3], [2, 2], [1, 2], [2], [0]])
        (new (arenaGraph [[1, 3], [2, 2], [1, 2], [2], [0]])) :=
  ⟨(arenaGraph_valid (by decide)).closed,
    dfsTraversal_correct (arenaGraph_valid (by decide)).closed⟩

end DFSTraversal

end Traversals

end Pliron
