/-
  Pliron.Lib.DfsTree

  The tree of a depth-first search: the parent of a node is the node whose
  successor it was when it was opened.  The two numbers that a finished search
  gives a node are enough to tell ancestors in that tree (`ancestor_iff`).

  The proof follows one tree edge from the step that makes it to the end of the
  search.  What is opened keeps its pre-order number, and which nodes enclose
  it is settled when it is opened (`encloses_run`), so the parent stays the
  innermost node that encloses its child.
-/

import Pliron.Lib.Dfs

namespace Pliron.Lib

variable {α : Type*} [DecidableEq α]

/-- `p` is the parent of `v` in the tree of the search from `s`: at some step `p` is on top of
    the stack, and its next successor is `v`, which was not opened before. -/
def TreeEdge (succs : α → List α) (s : DfsState α) (p v : α) : Prop :=
  ∃ k i rest, (s.run succs k).stack = (p, i) :: rest ∧ (succs p)[i]? = some v ∧
    v ∉ (s.run succs k).opened

namespace DfsState

variable {succs : α → List α} {s : DfsState α} {v : α}

/-! ## Runs -/

theorem run_of_nil (hs : s.stack = []) (k : Nat) : s.run succs k = s := by
  cases k with
  | zero => rfl
  | succ k => rw [run, if_pos hs]

/-- The last step of a run. -/
theorem run_succ (k : Nat) : s.run succs (k + 1) = (s.run succs k).step succs := by
  induction k generalizing s with
  | zero =>
      show (if s.stack = [] then s else s.step succs) = s.step succs
      by_cases hs : s.stack = []
      · rw [if_pos hs, step_nil hs]
      · rw [if_neg hs]
  | succ k ih =>
      by_cases hs : s.stack = []
      · rw [run_of_nil hs, run_of_nil hs, step_nil hs]
      · rw [run, if_neg hs, ih, run, if_neg hs]

theorem run_add (j k : Nat) : s.run succs (j + k) = (s.run succs j).run succs k := by
  induction k with
  | zero => rfl
  | succ k ih => rw [← Nat.add_assoc, run_succ, run_succ, ih]

/-- Nodes are only ever added to the list of opened nodes. -/
theorem opened_prefix_step : s.opened <+: (s.step succs).opened := by
  match hs : s.stack with
  | [] =>
      rw [step_nil hs]
  | (n, i) :: rest =>
      match hv : (succs n)[i]? with
      | some v =>
          by_cases hmem : v ∈ s.opened
          · rw [step_seen hs hv hmem]
          · rw [step_open hs hv hmem]
            exact List.prefix_append _ _
      | none =>
          rw [step_close hs hv]

theorem opened_prefix_run (k : Nat) : s.opened <+: (s.run succs k).opened := by
  induction k with
  | zero => exact List.prefix_rfl
  | succ k ih =>
      rw [run_succ]
      exact ih.trans opened_prefix_step

/-- The pre-order number of an opened node is final. -/
theorem pre_run (k : Nat) (hv : v ∈ s.opened) : (s.run succs k).pre v = s.pre v := by
  obtain ⟨more, hmore⟩ : s.opened <+: (s.run succs k).opened := opened_prefix_run k
  show (s.run succs k).opened.idxOf v = s.opened.idxOf v
  rw [← hmore, List.idxOf_append_of_mem hv]

/-- Nodes opened later have larger pre-order numbers. -/
theorem mem_opened_of_pre_lt {u : α} (k : Nat) (hv : v ∈ s.opened)
    (hlt : (s.run succs k).pre u < (s.run succs k).pre v) : u ∈ s.opened := by
  by_contra hu
  obtain ⟨more, hmore⟩ : s.opened <+: (s.run succs k).opened := opened_prefix_run k
  have hv' : s.opened.idxOf v < s.opened.length := List.idxOf_lt_length_of_mem hv
  rw [pre_run k hv] at hlt
  change (s.run succs k).opened.idxOf u < s.opened.idxOf v at hlt
  rw [← hmore, List.idxOf_append_of_notMem hu] at hlt
  omega

end DfsState

namespace DfsInv

variable {succs : α → List α} {roots : List α} {s : DfsState α} {n u v w r p : α}

/-! ## Enclosing nodes -/

theorem encloses_step (h : DfsInv succs roots s) (hu : u ∈ s.opened) (hw : w ∈ s.opened)
    (huw : s.pre u ≤ s.pre w) : (s.step succs).Encloses u w ↔ s.Encloses u w := by
  match hs : s.stack with
  | [] => rw [DfsState.step_nil hs]
  | (n, i) :: rest =>
      match hv : (succs n)[i]? with
      | some v =>
          by_cases hmem : v ∈ s.opened
          · rw [DfsState.step_seen hs hv hmem]
            simp only [DfsState.Encloses, DfsState.post, DfsState.openNodes, hs, List.map_cons]
          · have huv : u ≠ v := fun heq => hmem (heq ▸ hu)
            rw [DfsState.step_open hs hv hmem]
            simp only [DfsState.Encloses, DfsState.post, DfsState.openNodes, hs, List.map_cons,
              List.mem_cons, huv, false_or]
      | none =>
          rw [DfsState.step_close hs hv]
          exact h.encloses_close hs hu hw huw

/-- Which opened nodes enclose which is final. -/
theorem encloses_run (h : DfsInv succs roots s) (k : Nat) (hu : u ∈ s.opened)
    (hw : w ∈ s.opened) (huw : s.pre u ≤ s.pre w) :
    (s.run succs k).Encloses u w ↔ s.Encloses u w := by
  induction k with
  | zero => exact Iff.rfl
  | succ k ih =>
      rw [DfsState.run_succ, (h.run k).encloses_step (DfsState.mem_opened_run k hu)
        (DfsState.mem_opened_run k hw), ih]
      rw [DfsState.pre_run k hu, DfsState.pre_run k hw]
      exact huw

/-! ## The tree -/

/-- `p` is the innermost node that was open when `v` was opened. -/
structure Innermost (s : DfsState α) (p v : α) : Prop where
  opened : p ∈ s.opened
  pre_lt : s.pre p < s.pre v
  encloses : s.Encloses p v
  inner : ∀ u ∈ s.opened, s.pre u < s.pre v → s.Encloses u v → s.pre u ≤ s.pre p ∧ s.Encloses u p

/-- The parent is the innermost enclosing node, from the step it becomes the parent on. -/
theorem innermost_of_open (h : DfsInv succs roots s) {i : Nat} {rest : List (α × Nat)}
    (hs : s.stack = (p, i) :: rest) (hv : (succs p)[i]? = some v) (hmem : v ∉ s.opened)
    (k : Nat) : Innermost ((s.step succs).run succs k) p v := by
  have hpopen : p ∈ s.openNodes := by simp [DfsState.openNodes, hs]
  have hp : p ∈ s.opened := h.mem_opened_of_open hpopen
  have hvc : v ∉ s.closed := fun hc => hmem (h.mem_opened_of_closed hc)
  have h₁ : DfsInv succs roots (s.step succs) := h.step
  have hstep := DfsState.step_open hs hv hmem
  set t : DfsState α := s.step succs with ht
  have hopened : t.opened = s.opened ++ [v] := by rw [hstep]
  have hopenNodes : t.openNodes = v :: s.openNodes := by
    rw [hstep]
    simp [DfsState.openNodes, hs]
  have hclosed : t.closed = s.closed := by rw [hstep]
  have hpre : ∀ {u}, u ∈ s.opened → t.pre u = s.pre u := by
    intro u hu
    show t.opened.idxOf u = s.opened.idxOf u
    rw [hopened, idxOf_snoc_of_mem hu]
  have hprev : t.pre v = s.opened.length := by
    show t.opened.idxOf v = s.opened.length
    rw [hopened, idxOf_snoc_self hmem]
  have hvt : v ∈ t.opened := by
    rw [hopened]
    exact List.mem_append_right _ (List.mem_singleton_self v)
  have hlt : ∀ {u}, u ∈ s.opened → t.pre u < t.pre v := by
    intro u hu
    rw [hpre hu, hprev]
    exact idxOf_lt_length_of_mem hu
  have hkeep : ∀ {u}, u ∈ s.opened → u ∈ t.opened := fun hu => DfsState.mem_opened_step hu
  have hencv : ∀ {u}, u ∈ s.opened → (t.Encloses u v ↔ u ∈ s.openNodes) := by
    intro u hu
    have huv : u ≠ v := fun heq => hmem (heq ▸ hu)
    simp only [DfsState.Encloses, hopenNodes, hclosed, hvc, false_and, or_false, List.mem_cons,
      huv, false_or]
  refine ⟨DfsState.mem_opened_run k (hkeep hp), ?_, ?_, fun u _ hpreu henc => ?_⟩
  · rw [DfsState.pre_run k (hkeep hp), DfsState.pre_run k hvt]
    exact hlt hp
  · rw [h₁.encloses_run k (hkeep hp) hvt (Nat.le_of_lt (hlt hp)), hencv hp]
    exact hpopen
  · -- `u` was opened before `v`, and it encloses `v` because it is still open
    have hut : u ∈ t.opened := DfsState.mem_opened_of_pre_lt k hvt hpreu
    have hu : u ∈ s.opened := by
      rw [hopened, List.mem_append, List.mem_singleton] at hut
      rcases hut with hu | huv
      · exact hu
      · rw [huv] at hpreu
        exact absurd hpreu (Nat.lt_irrefl _)
    rw [h₁.encloses_run k hut hvt (Nat.le_of_lt (hlt hu)), hencv hu] at henc
    have hle : t.pre u ≤ t.pre p := by
      rw [hpre hu, hpre hp]
      exact h.pre_le_top hs henc
    rw [DfsState.pre_run k hut, DfsState.pre_run k (hkeep hp),
      h₁.encloses_run k hut (hkeep hp) hle]
    refine ⟨hle, Or.inl ?_⟩
    rw [hopenNodes]
    exact List.mem_cons_of_mem _ henc

/-- Every node opened by the search has a parent. -/
theorem exists_treeEdge (k : Nat) (hv : v ∈ (s.run succs k).opened) :
    v ∈ s.opened ∨ ∃ p, TreeEdge succs s p v := by
  induction k with
  | zero => exact Or.inl hv
  | succ k ih =>
      by_cases hmem : v ∈ (s.run succs k).opened
      · exact ih hmem
      · right
        rw [DfsState.run_succ] at hv
        match hs : (s.run succs k).stack with
        | [] =>
            rw [DfsState.step_nil hs] at hv
            exact absurd hv hmem
        | (n, i) :: rest =>
            match hi : (succs n)[i]? with
            | some w =>
                by_cases hw : w ∈ (s.run succs k).opened
                · rw [DfsState.step_seen hs hi hw] at hv
                  exact absurd hv hmem
                · rw [DfsState.step_open hs hi hw] at hv
                  have hvw : v = w := by
                    rcases List.mem_append.mp hv with hv | hv
                    · exact absurd hv hmem
                    · exact List.mem_singleton.mp hv
                  exact ⟨n, k, i, rest, hs, hvw ▸ hi, hmem⟩
            | none =>
                rw [DfsState.step_close hs hi] at hv
                exact absurd hv hmem

/-- In the finished search the parent is the innermost enclosing node. -/
theorem innermost_of_treeEdge (h : DfsInv succs roots s) (fuel : Nat)
    (hs : (s.run succs fuel).stack = []) (he : TreeEdge succs s p v) :
    Innermost (s.run succs fuel) p v := by
  obtain ⟨k, i, rest, hstack, hv, hmem⟩ := he
  have hk : k < fuel := by
    by_contra hle
    obtain ⟨d, rfl⟩ := Nat.exists_eq_add_of_le (Nat.le_of_not_lt hle)
    rw [DfsState.run_add, DfsState.run_of_nil hs, hs] at hstack
    exact absurd hstack (by simp)
  obtain ⟨d, rfl⟩ := Nat.exists_eq_add_of_le (Nat.succ_le_of_lt hk)
  rw [DfsState.run_add, DfsState.run_succ]
  exact (h.run k).innermost_of_open hstack hv hmem d

/-- Ancestors in the tree of a search from `r` are told by the two numbers. -/
theorem ancestor_iff (h : DfsInv succs [r] s) (hopened : s.opened = [r]) (fuel : Nat)
    (hs : (s.run succs fuel).stack = []) (hu : u ∈ (s.run succs fuel).opened)
    (hv : v ∈ (s.run succs fuel).opened) :
    Ancestor (s.run succs fuel).pre (s.run succs fuel).post u v ↔
      Reach (TreeEdge succs s) u v := by
  have hinv := h.run fuel
  set f : DfsState α := s.run succs fuel with hf
  have hopen : f.openNodes = [] := by simp [DfsState.openNodes, hs]
  have hcl : ∀ {v}, v ∈ f.opened → v ∈ f.closed := fun hv =>
    ((hinv.mem_opened _).mp hv).resolve_right (by simp [hopen])
  have henc : ∀ {u v}, v ∈ f.opened → (f.Encloses u v ↔ f.post v ≤ f.post u) := by
    intro u v hv
    simp [DfsState.Encloses, hopen, hcl hv]
  constructor
  · intro hanc
    induction hn : f.pre v using Nat.strong_induction_on generalizing v with
    | _ n ih =>
        subst hn
        by_cases huv : u = v
        · exact huv ▸ Reach.refl u
        · have hpre : f.pre u < f.pre v :=
            lt_of_le_of_ne hanc.1 (fun heq => huv (eq_of_idxOf_eq hu heq))
          -- `v` is not the root, since the root comes first in pre-order
          have hvr : v ∉ s.opened := by
            intro hmem
            have hroot : f.pre v = 0 := by
              rw [hf, DfsState.pre_run fuel hmem]
              rw [hopened, List.mem_singleton] at hmem
              simp [DfsState.pre, hopened, hmem]
            omega
          obtain ⟨p, hpv⟩ := (exists_treeEdge fuel hv).resolve_left hvr
          have hinner := h.innermost_of_treeEdge fuel hs hpv
          have hup := hinner.inner u hu hpre ((henc hv).mpr hanc.2)
          have hanc' : Ancestor f.pre f.post u p := ⟨hup.1, (henc hinner.opened).mp hup.2⟩
          exact (ih _ hinner.pre_lt hinner.opened hanc' rfl).tail hpv
  · intro hreach
    induction hreach with
    | refl => exact Ancestor.refl u
    | @tail p v hup hpv ih =>
        have hinner := h.innermost_of_treeEdge fuel hs hpv
        have hpanc : Ancestor f.pre f.post p v :=
          ⟨Nat.le_of_lt hinner.pre_lt, (henc hv).mp hinner.encloses⟩
        exact (ih hinner.opened).trans hpanc

end DfsInv

end Pliron.Lib
