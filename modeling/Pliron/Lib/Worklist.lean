/-
  Pliron.Lib.Worklist

  Two worklists over a finite graph that is given by a lookup of each node's
  successors.

    * `saturate` extends an insertion-ordered set by the successors of each of
      its members in turn.  The set is also the queue.
    * `searchFor` pops nodes from a stack and stops at the first edge to its
      target, so it tells whether the target is the end of a path with at least
      one edge.

  A lookup that fails stops either worklist, and so does running out of fuel.
  Both end with fuel for one round per node.
-/

import Pliron.Lib.Digraph
import Pliron.Utils.Table

namespace Pliron.Lib

open Relation

variable {ν : Type} [DecidableEq ν]

/-! ## Saturating a set -/

/-- Extend the set by the successors of its members, from position `index` on. -/
def saturate (next : ν → Option (List ν)) : Nat → Nat → ISet ν → Option (ISet ν)
  | fuel, index, reached =>
      match reached[index]? with
      | none => some reached
      | some node =>
          match fuel with
          | 0 => none
          | fuel + 1 => do
              let more ← next node
              saturate next fuel (index + 1) (reached.extend more)

/-! ## Searching for a target -/

/-- Look through the successors of one node: `none` when the target is one of them, else the
    visited nodes and the stack, its top first, with the new ones added. -/
def scanFor (target : ν) : List ν → List ν → List ν → Option (List ν × List ν)
  | [], visited, pending => some (visited, pending)
  | v :: vs, visited, pending =>
      if v = target then none
      else if v ∈ visited then scanFor target vs visited pending
      else scanFor target vs (visited ++ [v]) (v :: pending)

/-- Does an edge to the target leave one of the nodes reached from the stack? -/
def searchFor (next : ν → Option (List ν)) (target : ν) : Nat → List ν → List ν → Option Bool
  | _, _, [] => some false
  | 0, _, _ :: _ => none
  | fuel + 1, visited, node :: pending => do
      let vs ← next node
      match scanFor target vs visited pending with
      | none => some true
      | some (visited, pending) => searchFor next target fuel visited pending

section Specs

variable {next : ν → Option (List ν)} {succs : ν → List ν} {nodes : List ν} {E : ν → ν → Prop}
  {s t u v w target : ν} {fuel index : Nat}

/-- What holds between two rounds of `saturate` for the nodes reached from `seeds`. -/
structure Saturating (E : ν → ν → Prop) (nodes : List ν) (P : ν → Prop) (index : Nat)
    (reached : ISet ν) : Prop where
  nodup : reached.Nodup
  mem_nodes : ∀ v ∈ reached, v ∈ nodes
  sound : ∀ v ∈ reached, ∃ s, P s ∧ Reach E s v
  seeds : ∀ s, P s → s ∈ reached
  closed : ∀ (j : Nat), j < index → ∀ v, reached[j]? = some v → ∀ w, E v w → w ∈ reached

/-- One round: the successors of the member at `index` are added. -/
theorem Saturating.step {P : ν → Prop} {reached : ISet ν} {more : List ν}
    (h : Saturating E nodes P index reached) (hnode : reached[index]? = some v)
    (hmore : ∀ w, w ∈ more ↔ E v w) (hnodes : ∀ w ∈ more, w ∈ nodes) :
    Saturating E nodes P (index + 1) (reached.extend more) where
  nodup := ISet.nodup_extend h.nodup
  mem_nodes w hw := by
    rcases ISet.mem_extend.mp hw with hw | hw
    · exact h.mem_nodes w hw
    · exact hnodes w hw
  sound w hw := by
    rcases ISet.mem_extend.mp hw with hw | hw
    · exact h.sound w hw
    · obtain ⟨s, hs, hsv⟩ := h.sound v (List.mem_of_getElem? hnode)
      exact ⟨s, hs, hsv.tail ((hmore w).mp hw)⟩
  seeds s hs := ISet.mem_extend.mpr (Or.inl (h.seeds s hs))
  closed j hj u hu w huw := by
    obtain ⟨rest, hrest⟩ := ISet.prefix_extend (s := reached) (l := more)
    have hlt : index < reached.length := (List.getElem?_eq_some_iff.mp hnode).1
    rw [← hrest, List.getElem?_append_left (by omega)] at hu
    rcases Nat.lt_succ_iff_lt_or_eq.mp hj with hlt | rfl
    · exact ISet.mem_extend.mpr (Or.inl (h.closed j hlt u hu w huw))
    · rw [hnode, Option.some.injEq] at hu
      exact ISet.mem_extend.mpr (Or.inr ((hmore w).mpr (hu ▸ huw)))

omit [DecidableEq ν] in
/-- A set with nothing left in its queue holds what the seeds reach. -/
theorem Saturating.mem_iff_of_end {P : ν → Prop} {reached : ISet ν}
    (h : Saturating E nodes P index reached) (hend : reached.length ≤ index) :
    v ∈ reached ↔ ∃ s, P s ∧ Reach E s v := by
  refine ⟨h.sound v, ?_⟩
  rintro ⟨s, hs, hsv⟩
  refine hsv.closed (h.seeds s hs) (fun x y hx hxy => ?_)
  obtain ⟨j, hj⟩ := List.getElem?_of_mem hx
  have hlt : j < reached.length := (List.getElem?_eq_some_iff.mp hj).1
  exact h.closed j (by omega) x hj y hxy

/-- Saturation ends with the nodes reached from the seeds. -/
theorem saturate_spec {P : ν → Prop} {reached : ISet ν} (hnext : ∀ v ∈ nodes, ∃ vs,
      next v = some vs ∧ (∀ w, w ∈ vs ↔ E v w) ∧ ∀ w ∈ vs, w ∈ nodes)
    (h : Saturating E nodes P index reached) (hfuel : nodes.length ≤ index + fuel) :
    ∃ all, saturate next fuel index reached = some all ∧ all.Nodup ∧
      ∀ v, v ∈ all ↔ ∃ s, P s ∧ Reach E s v := by
  induction fuel generalizing index reached with
  | zero =>
      have hlen : reached.length ≤ nodes.length := (h.nodup.subperm h.mem_nodes).length_le
      have hend : reached.length ≤ index := by omega
      refine ⟨reached, ?_, h.nodup, fun v => h.mem_iff_of_end hend⟩
      unfold saturate
      rw [List.getElem?_eq_none hend]
  | succ fuel ih =>
      match hnode : reached[index]? with
      | none =>
          have hend : reached.length ≤ index := List.getElem?_eq_none_iff.mp hnode
          refine ⟨reached, ?_, h.nodup, fun v => h.mem_iff_of_end hend⟩
          unfold saturate
          rw [hnode]
      | some v =>
          obtain ⟨more, hmore, hmem, hmoreNodes⟩ :=
            hnext v (h.mem_nodes v (List.mem_of_getElem? hnode))
          obtain ⟨all, hall, hspec⟩ := ih (h.step hnode hmem hmoreNodes) (by omega)
          refine ⟨all, ?_, hspec⟩
          unfold saturate
          simp only [hnode, hmore, Option.bind_eq_bind, Option.bind_some]
          exact hall

theorem scanFor_eq_none (vs visited pending : List ν) (h : target ∈ vs) :
    scanFor target vs visited pending = none := by
  induction vs generalizing visited pending with
  | nil => exact absurd h List.not_mem_nil
  | cons v vs ih =>
      unfold scanFor
      by_cases hv : v = target
      · rw [if_pos hv]
      · have hvs : target ∈ vs := (List.mem_cons.mp h).resolve_left (Ne.symm hv)
        rw [if_neg hv]
        by_cases hseen : v ∈ visited
        · rw [if_pos hseen, ih _ _ hvs]
        · rw [if_neg hseen, ih _ _ hvs]

/-- Without the target among them, the new nodes are visited and pushed. -/
theorem scanFor_spec (vs visited pending : List ν) (h : target ∉ vs) :
    ∃ fresh, scanFor target vs visited pending =
        some (visited ++ fresh, fresh.reverse ++ pending) ∧
      fresh.Nodup ∧ (∀ v ∈ fresh, v ∉ visited ∧ v ∈ vs) ∧
      ∀ v ∈ vs, v ∈ visited ∨ v ∈ fresh := by
  induction vs generalizing visited pending with
  | nil => exact ⟨[], by simp [scanFor], List.nodup_nil, by simp, by simp⟩
  | cons v vs ih =>
      rw [List.mem_cons, not_or] at h
      unfold scanFor
      rw [if_neg (Ne.symm h.1)]
      by_cases hseen : v ∈ visited
      · rw [if_pos hseen]
        obtain ⟨fresh, hscan, hnodup, hfresh, hall⟩ := ih visited pending h.2
        refine ⟨fresh, hscan, hnodup, fun w hw => ?_, fun w hw => ?_⟩
        · exact ⟨(hfresh w hw).1, List.mem_cons_of_mem _ (hfresh w hw).2⟩
        · rcases List.mem_cons.mp hw with rfl | hw
          · exact Or.inl hseen
          · exact hall w hw
      · rw [if_neg hseen]
        obtain ⟨fresh, hscan, hnodup, hfresh, hall⟩ := ih (visited ++ [v]) (v :: pending) h.2
        have hv : v ∉ fresh := fun hv => (hfresh v hv).1 (by simp)
        refine ⟨v :: fresh, ?_, List.nodup_cons.mpr ⟨hv, hnodup⟩, fun w hw => ?_, fun w hw => ?_⟩
        · rw [hscan]
          simp
        · rcases List.mem_cons.mp hw with rfl | hw
          · exact ⟨hseen, List.mem_cons_self⟩
          · have hw' := hfresh w hw
            exact ⟨fun hm => hw'.1 (List.mem_append_left _ hm), List.mem_cons_of_mem _ hw'.2⟩
        · rcases List.mem_cons.mp hw with rfl | hw
          · exact Or.inr List.mem_cons_self
          · rcases hall w hw with hm | hm
            · rcases List.mem_append.mp hm with hm | hm
              · exact Or.inl hm
              · rw [List.mem_singleton.mp hm]
                exact Or.inr List.mem_cons_self
            · exact Or.inr (List.mem_cons_of_mem _ hm)

/-- What holds between two rounds of `searchFor` from `start`. -/
structure Searching (E : ν → ν → Prop) (nodes : List ν) (start target : ν)
    (visited pending : List ν) : Prop where
  nodup : visited.Nodup
  mem_nodes : ∀ v ∈ visited, v ∈ nodes
  start_mem : start ∈ visited
  sound : ∀ v ∈ visited, Reach E start v
  pending_mem : ∀ v ∈ pending, v ∈ visited
  done : ∀ v ∈ visited, v ∉ pending → ∀ w, E v w → w ≠ target ∧ w ∈ visited

/-- One round that does not meet the target. -/
theorem Searching.step {visited pending vs fresh : List ν}
    (h : Searching E nodes s target visited (v :: pending)) (hvs : ∀ w, w ∈ vs ↔ E v w)
    (hnodes : ∀ w ∈ vs, w ∈ nodes) (htarget : target ∉ vs) (hnodup : fresh.Nodup)
    (hfresh : ∀ w ∈ fresh, w ∉ visited ∧ w ∈ vs) (hall : ∀ w ∈ vs, w ∈ visited ∨ w ∈ fresh) :
    Searching E nodes s target (visited ++ fresh) (fresh.reverse ++ pending) where
  nodup := List.nodup_append.mpr ⟨h.nodup, hnodup, by
    intro a ha b hb heq
    exact (hfresh b hb).1 (heq ▸ ha)⟩
  mem_nodes w hw := by
    rcases List.mem_append.mp hw with hw | hw
    · exact h.mem_nodes w hw
    · exact hnodes w (hfresh w hw).2
  start_mem := List.mem_append_left _ h.start_mem
  sound w hw := by
    rcases List.mem_append.mp hw with hw | hw
    · exact h.sound w hw
    · exact (h.sound v (h.pending_mem v List.mem_cons_self)).tail ((hvs w).mp (hfresh w hw).2)
  pending_mem w hw := by
    rw [List.mem_append, List.mem_reverse] at hw
    rcases hw with hw | hw
    · exact List.mem_append_right _ hw
    · exact List.mem_append_left _ (h.pending_mem w (List.mem_cons_of_mem _ hw))
  done u hu hnot w huw := by
    rw [List.mem_append, List.mem_reverse, not_or] at hnot
    have hu' : u ∈ visited := (List.mem_append.mp hu).resolve_right hnot.1
    by_cases huv : u = v
    · subst huv
      have hw : w ∈ vs := (hvs w).mpr huw
      refine ⟨fun heq => htarget (heq ▸ hw), ?_⟩
      rw [List.mem_append]
      exact hall w hw
    · have hup : u ∉ v :: pending := by
        rw [List.mem_cons, not_or]
        exact ⟨huv, hnot.2⟩
      obtain ⟨hne, hmem⟩ := h.done u hu' hup w huw
      exact ⟨hne, List.mem_append_left _ hmem⟩

omit [DecidableEq ν] in
/-- When the stack is empty, no edge from what is reached leads to the target. -/
theorem Searching.not_transGen {visited : List ν} (h : Searching E nodes s target visited []) :
    ¬ TransGen E s target := by
  intro hst
  obtain ⟨u, hsu, hut⟩ := TransGen.tail'_iff.mp hst
  have hreach : Reach E s u := hsu
  have hu : u ∈ visited := hreach.closed h.start_mem
    (fun x y hx hxy => (h.done x hx List.not_mem_nil y hxy).2)
  exact (h.done u hu List.not_mem_nil target hut).1 rfl

/-- The search finds out whether a path with at least one edge leads to the target. -/
theorem searchFor_spec {visited pending : List ν} (hnext : ∀ v ∈ nodes, ∃ vs,
      next v = some vs ∧ (∀ w, w ∈ vs ↔ E v w) ∧ ∀ w ∈ vs, w ∈ nodes)
    (h : Searching E nodes s target visited pending)
    (hfuel : nodes.length + pending.length ≤ visited.length + fuel) :
    ∃ b, searchFor next target fuel visited pending = some b ∧
      (b = true ↔ TransGen E s target) := by
  induction fuel generalizing visited pending with
  | zero =>
      have hlen : visited.length ≤ nodes.length := (h.nodup.subperm h.mem_nodes).length_le
      have hnil : pending = [] := List.length_eq_zero_iff.mp (by omega)
      subst hnil
      exact ⟨false, by unfold searchFor; rfl, iff_of_false (by simp) h.not_transGen⟩
  | succ fuel ih =>
      match pending with
      | [] => exact ⟨false, by unfold searchFor; rfl, iff_of_false (by simp) h.not_transGen⟩
      | v :: pending =>
          have hv : v ∈ visited := h.pending_mem v List.mem_cons_self
          obtain ⟨vs, hvs, hmem, hnodes⟩ := hnext v (h.mem_nodes v hv)
          by_cases htarget : target ∈ vs
          · refine ⟨true, ?_, iff_of_true rfl ?_⟩
            · unfold searchFor
              simp only [hvs, Option.bind_eq_bind, Option.bind_some, scanFor_eq_none vs _ _ htarget]
            · exact TransGen.tail' (h.sound v hv) ((hmem target).mp htarget)
          · obtain ⟨fresh, hscan, hnodup, hfresh, hall⟩ := scanFor_spec vs visited pending htarget
            obtain ⟨b, hb, hiff⟩ := ih (h.step hmem hnodes htarget hnodup hfresh hall) (by
              simp only [List.length_append, List.length_reverse, List.length_cons] at hfuel ⊢
              omega)
            refine ⟨b, ?_, hiff⟩
            unfold searchFor
            simp only [hvs, Option.bind_eq_bind, Option.bind_some, hscan]
            exact hb

end Specs

end Pliron.Lib
