/-
  Pliron.Graph.TraversalSpec

  What the traversals compute: both loops refine the search of `Pliron.Lib.Dfs`
  started at the entry node, so the post-order walk returns the nodes in the
  order in which that search closes them, and the numbers of a `DFSTraversal`
  are a depth-first order in the sense of `IsDfsOrder`.
-/

import Pliron.Graph.Traversals

namespace Pliron

open Pliron.Lib

variable {α : Type} [DecidableEq α]

namespace Traversals

variable {g : ControlFlowGraph α} {r u v : α}

/-! ## The search from the entry -/

/-- The finished depth-first search from `r`. -/
def search (g : ControlFlowGraph α) (r : α) : DfsState α :=
  ((⟨[], [], []⟩ : DfsState α).push r).run g.successors (walkFuel g)

theorem search_inv : DfsInv g.successors [r] (search g r) :=
  (DfsInv.empty.push rfl List.not_mem_nil).run _

theorem search_stack (hg : g.Closed) (hr : r ∈ g.nodes) : (search g r).stack = [] := by
  refine DfsState.run_stack hg.succ_mem ?_ (DfsState.remaining_push_le hr List.not_mem_nil)
  intro p hp
  rw [List.mem_singleton.mp hp]
  exact hr

theorem root_mem_search : r ∈ (search g r).opened :=
  DfsState.mem_opened_run _ (List.mem_append_right _ (List.mem_singleton_self r))

theorem search_isDfsOrder (hg : g.Closed) (hr : r ∈ g.nodes) :
    IsDfsOrder g.Edge r (search g r).pre (search g r).post :=
  search_inv.isDfsOrder (search_stack hg hr) root_mem_search

theorem mem_search_opened (hg : g.Closed) (hr : r ∈ g.nodes) :
    v ∈ (search g r).opened ↔ Reach g.Edge r v := by
  constructor
  · intro hv
    obtain ⟨r', hr', hrv⟩ := search_inv.reach_of_opened hv
    exact List.mem_singleton.mp hr' ▸ hrv
  · exact search_inv.opened_of_reach (search_stack hg hr) root_mem_search

theorem mem_search_closed (hg : g.Closed) (hr : r ∈ g.nodes) :
    v ∈ (search g r).closed ↔ Reach g.Edge r v := by
  rw [← mem_search_opened hg hr, search_inv.mem_opened v]
  simp [DfsState.openNodes, search_stack hg hr]

theorem search_length (hg : g.Closed) (hr : r ∈ g.nodes) :
    (search g r).opened.length = (search g r).closed.length := by
  refine ((List.perm_ext_iff_of_nodup search_inv.opened_nodup search_inv.closed_nodup).mpr
    (fun v => ?_)).length_eq
  rw [mem_search_opened hg hr, mem_search_closed hg hr]

/-! ## The post-order walk -/

theorem postOrderLoop_eq_run (fuel : Nat) (s : DfsState α) :
    postOrderLoop g fuel s.stack s.opened s.closed =
      ((s.run g.successors fuel).opened, (s.run g.successors fuel).closed) := by
  induction fuel generalizing s with
  | zero => rfl
  | succ fuel ih =>
      match hs : s.stack with
      | [] => simp only [postOrderLoop, DfsState.run, hs, if_true]
      | (n, i) :: rest =>
          have hne : s.stack ≠ [] := by simp [hs]
          simp only [DfsState.run, if_neg hne, postOrderLoop]
          match hv : (g.successors n)[i]? with
          | some v =>
              have hget : g.getSuccessor n i = some v := hv
              by_cases hmem : v ∈ s.opened
              · rw [DfsState.step_seen hs hv hmem, ← ih]
                simp only [hget, if_pos hmem]
              · rw [DfsState.step_open hs hv hmem, ← ih]
                simp only [hget, if_neg hmem]
          | none =>
              have hget : g.getSuccessor n i = none := hv
              rw [DfsState.step_close hs hv, ← ih]
              simp only [hget]

/-- The walk from a first node returns what the search opened and closed. -/
theorem postOrderWalkComponent_eq_search :
    postOrderWalkComponent g r [] [] = ((search g r).opened, (search g r).closed) := by
  unfold postOrderWalkComponent
  rw [if_neg List.not_mem_nil]
  exact postOrderLoop_eq_run (walkFuel g) ((⟨[], [], []⟩ : DfsState α).push r)

/-! ## The depth-first numbers -/

namespace DFSTraversal

/-- The map that goes with a state of the search. -/
def numbering (s : DfsState α) : IMap α DFSNumber :=
  s.opened.map (fun k => (k, ⟨s.pre k, if k ∈ s.closed then s.post k else 0, 0⟩))

theorem dfsLoop_eq_run (fuel : Nat) {roots : List α} {s : DfsState α}
    (h : DfsInv g.successors roots s) :
    dfsLoop g fuel s.stack s.opened.length s.closed.length (numbering s) =
      numbering (s.run g.successors fuel) := by
  induction fuel generalizing s with
  | zero => rfl
  | succ fuel ih =>
      match hs : s.stack with
      | [] => simp only [dfsLoop, DfsState.run, hs, if_true]
      | (n, i) :: rest =>
          have hne : s.stack ≠ [] := by simp [hs]
          have ih := ih h.step
          simp only [DfsState.run, if_neg hne, ← ih, dfsLoop]
          match hv : (g.successors n)[i]? with
          | some v =>
              have hget : g.getSuccessor n i = some v := hv
              have hlookup : (numbering s).containsKey v ↔ v ∈ s.opened := by
                unfold numbering IMap.containsKey
                rw [IMap.get?_map]
                split <;> simp [*]
              by_cases hmem : v ∈ s.opened
              · rw [DfsState.step_seen hs hv hmem]
                simp only [hget, if_pos (hlookup.mpr hmem)]
                rfl
              · rw [DfsState.step_open hs hv hmem]
                simp only [hget, if_neg (fun hl => hmem (hlookup.mp hl))]
                have hvc : v ∉ s.closed := fun hc => hmem (h.mem_opened_of_closed hc)
                have hkey : v ∉ (numbering s).keys := fun hk =>
                  hmem (hlookup.mp (IMap.mem_keys_iff.mp hk))
                rw [IMap.insert_of_not_mem hkey]
                congr 1
                · simp
                · simp only [numbering, DfsState.pre, DfsState.post, List.map_append,
                    List.map_cons, List.map_nil, if_neg hvc, idxOf_snoc_self hmem]
                  congr 1
                  exact List.map_congr_left (fun k hk => by rw [idxOf_snoc_of_mem hk])
          | none =>
              have hget : g.getSuccessor n i = none := hv
              have hn : n ∉ s.closed := h.not_closed n (by simp [DfsState.openNodes, hs])
              rw [DfsState.step_close hs hv]
              simp only [hget]
              congr 1
              · simp
              · simp only [IMap.modify, numbering, DfsState.pre, DfsState.post, List.map_map]
                refine List.map_congr_left (fun k _ => ?_)
                by_cases hkn : k = n
                · simp [hkn, idxOf_snoc_self hn]
                · by_cases hkc : k ∈ s.closed
                  · simp [hkn, hkc, List.idxOf_append_of_mem hkc]
                  · simp [hkn, hkc]

/-- The map after the whole traversal. -/
theorem new_tree (hg : g.Closed) (hr : g.entryNode = some r) :
    (new g).tree = (search g r).opened.map (fun k => (k,
      ⟨(search g r).pre k, (search g r).post k,
        (search g r).opened.length - 1 - (search g r).post k⟩)) := by
  have hwalk : dfsWalk g r = numbering (search g r) := by
    have hinit : DfsInv g.successors [r] ((⟨[], [], []⟩ : DfsState α).push r) :=
      DfsInv.empty.push rfl List.not_mem_nil
    have hrun := dfsLoop_eq_run (walkFuel g) hinit
    rw [search, ← hrun]
    simp [dfsWalk, DfsState.push, numbering, DfsState.pre]
  simp only [new, hr, hwalk, numbering, List.map_map, List.length_map]
  refine List.map_congr_left (fun k hk => ?_)
  have hkc : k ∈ (search g r).closed :=
    (mem_search_closed hg (hg.entry_mem r hr)).mpr ((mem_search_opened hg (hg.entry_mem r hr)).mp hk)
  simp [hkc]

section Numbers

variable (hg : g.Closed) (hr : g.entryNode = some r)

include hg hr

theorem get?_new (hv : Reach g.Edge r v) : (new g).tree.get? v =
    some ⟨(search g r).pre v, (search g r).post v,
      (search g r).opened.length - 1 - (search g r).post v⟩ := by
  rw [new_tree hg hr, IMap.get?_map, if_pos ((mem_search_opened hg (hg.entry_mem r hr)).mpr hv)]

theorem preOrderNumber_new (hv : Reach g.Edge r v) :
    (new g).preOrderNumber v = some ((search g r).pre v) := by
  rw [preOrderNumber, get?_new hg hr hv]
  rfl

theorem postOrderNumber_new (hv : Reach g.Edge r v) :
    (new g).postOrderNumber v = some ((search g r).post v) := by
  rw [postOrderNumber, get?_new hg hr hv]
  rfl

/-- No assertion of `edge_kind` fails, and it finds exactly the back edges. -/
theorem edgeKind_new (hu : Reach g.Edge r u) (huv : g.Edge u v) :
    ∃ kind, (new g).edgeKind u v = some kind ∧
      (kind = .back ↔ Ancestor (search g r).pre (search g r).post v u) := by
  have hv : Reach g.Edge r v := hu.tail huv
  have hdfs := search_isDfsOrder hg (hg.entry_mem r hr)
  have hiff : ((search g r).pre u = (search g r).pre v) ↔
      ((search g r).post u = (search g r).post v) :=
    ⟨fun h => hdfs.pre_inj hu hv h ▸ rfl, fun h => hdfs.post_inj hu hv h ▸ rfl⟩
  simp only [edgeKind, preOrderNumber_new hg hr hu, preOrderNumber_new hg hr hv,
    postOrderNumber_new hg hr hu, postOrderNumber_new hg hr hv, Option.bind_eq_bind,
    Option.bind_some, guard, if_pos hiff, Option.pure_def, Ancestor]
  rcases Nat.lt_trichotomy ((search g r).pre u) ((search g r).pre v) with hlt | heq | hgt
  · have hpost := hdfs.edge hu huv hlt
    rw [if_neg (Nat.ne_of_lt hlt), if_pos hlt, if_pos hpost]
    exact ⟨.forward, rfl, by simp; omega⟩
  · rw [if_pos heq]
    exact ⟨.back, rfl, by simp; omega⟩
  · rw [if_neg (Nat.ne_of_gt hgt), if_neg (Nat.not_lt_of_gt hgt)]
    have hne : (search g r).post u ≠ (search g r).post v := fun h =>
      absurd (hiff.mpr h) (Nat.ne_of_gt hgt)
    split
    · exact ⟨.back, rfl, by simp; omega⟩
    · exact ⟨.cross, rfl, by simp; omega⟩

end Numbers

/-! ## The three orders -/

/-- Placing each node at its number fills the vector with the order the numbers index. -/
theorem place_eq (o l : List α) (number : α → Nat) (hnodup : o.Nodup)
    (hmem : ∀ k, k ∈ l ↔ k ∈ o) (hnum : ∀ k ∈ l, o[number k]? = some k) :
    l.foldl (fun nodes k => nodes.set (number k) (some k)) (List.replicate o.length none) =
      o.map some := by
  have hfold : ∀ (l : List α) (acc : List (Option α)), acc.length = o.length →
      (∀ k ∈ l, o[number k]? = some k) → ∀ (i : Nat) (a : α), o[i]? = some a →
      (l.foldl (fun nodes k => nodes.set (number k) (some k)) acc)[i]? =
        if a ∈ l then some (some a) else acc[i]? := by
    intro l
    induction l with
    | nil => simp
    | cons k l ih =>
        intro acc hlen hnum i a hi
        have hk := hnum k List.mem_cons_self
        rw [List.foldl_cons, ih _ (by simpa using hlen)
          (fun k' hk' => hnum k' (List.mem_cons_of_mem _ hk')) i a hi]
        have hki : number k < acc.length := by
          rw [hlen]
          exact (List.getElem?_eq_some_iff.mp hk).1
        by_cases hal : a ∈ l
        · simp [hal]
        · by_cases hak : a = k
          · subst hak
            obtain ⟨hlt, hia⟩ := List.getElem?_eq_some_iff.mp hi
            obtain ⟨hlt', hka⟩ := List.getElem?_eq_some_iff.mp hk
            have heq : number a = i := (hnodup.getElem_inj_iff).mp (hka.trans hia.symm)
            simp [hal, heq, heq ▸ hki]
          · have hne : number k ≠ i := by
              rintro rfl
              exact hak (Option.some.inj (hi.symm.trans hk))
            simp [hal, hak, hne]
  refine List.ext_getElem? (fun i => ?_)
  rw [List.getElem?_map]
  cases hi : o[i]? with
  | some a =>
      rw [hfold l _ (by simp) hnum i a hi, if_pos ((hmem a).mpr (List.mem_of_getElem? hi))]
      rfl
  | none =>
      have hlen : ∀ (l : List α) (acc : List (Option α)),
          (l.foldl (fun nodes k => nodes.set (number k) (some k)) acc).length = acc.length := by
        intro l
        induction l with
        | nil => simp
        | cons k l ih =>
            intro acc
            rw [List.foldl_cons, ih, List.length_set]
      rw [Option.map_none, List.getElem?_eq_none_iff, hlen, List.length_replicate]
      exact List.getElem?_eq_none_iff.mp hi

omit [DecidableEq α] in
theorem mapM_id_map_some (o : List α) : (o.map some).mapM id = some o := by
  induction o with
  | nil => rfl
  | cons a o ih => rw [List.map_cons, List.mapM_cons, ih]; rfl

theorem order_eq {t : DFSTraversal α} {l o : List α} {f : α → DFSNumber}
    {number : DFSNumber → Nat} (ht : t.tree = l.map (fun k => (k, f k))) (hnodup : o.Nodup)
    (hlen : l.length = o.length) (hmem : ∀ k, k ∈ l ↔ k ∈ o)
    (hnum : ∀ k ∈ l, o[number (f k)]? = some k) : t.order number = some o := by
  have hplace := place_eq o l (fun k => number (f k)) hnodup hmem hnum
  rw [order, ht, List.foldl_map, List.length_map, hlen, hplace, mapM_id_map_some]

section Orders

variable (hg : g.Closed) (hr : g.entryNode = some r)

include hg hr

theorem postOrder_new : (new g).postOrder = some (search g r).closed := by
  refine order_eq (new_tree hg hr) search_inv.closed_nodup
    (search_length hg (hg.entry_mem r hr)) (fun k => ?_) (fun k hk => ?_)
  · rw [mem_search_opened hg (hg.entry_mem r hr), mem_search_closed hg (hg.entry_mem r hr)]
  · have hkc : k ∈ (search g r).closed :=
      (mem_search_closed hg (hg.entry_mem r hr)).mpr
        ((mem_search_opened hg (hg.entry_mem r hr)).mp hk)
    exact List.getElem?_idxOf hkc

theorem preOrder_new : (new g).preOrder = some (search g r).opened :=
  order_eq (new_tree hg hr) search_inv.opened_nodup rfl (fun _ => Iff.rfl)
    (fun _ hk => List.getElem?_idxOf hk)

theorem reversePostOrder_new :
    (new g).reversePostOrder = some (search g r).closed.reverse := by
  have hlen := search_length hg (hg.entry_mem r hr)
  refine order_eq (new_tree hg hr) (List.nodup_reverse.mpr search_inv.closed_nodup)
    (by simpa using hlen) (fun k => ?_) (fun k hk => ?_)
  · rw [List.mem_reverse, mem_search_opened hg (hg.entry_mem r hr),
      mem_search_closed hg (hg.entry_mem r hr)]
  · have hkc : k ∈ (search g r).closed :=
      (mem_search_closed hg (hg.entry_mem r hr)).mpr
        ((mem_search_opened hg (hg.entry_mem r hr)).mp hk)
    have hlt : (search g r).post k < (search g r).closed.length := idxOf_lt_length_of_mem hkc
    simp only [hlen]
    rw [List.getElem?_reverse (by omega)]
    have heq : (search g r).closed.length - 1 -
        ((search g r).closed.length - 1 - (search g r).post k) = (search g r).post k := by
      omega
    rw [heq]
    exact List.getElem?_idxOf hkc

end Orders

end DFSTraversal

end Traversals

end Pliron
