/-
  Pliron.Lib.Tarjan

  Strongly connected components by one depth-first search, as a state machine
  over the search of `Pliron.Lib.Dfs`, and its invariant.

  Next to the search the state keeps the low link of each node, the stack of the
  nodes not assigned to a component yet, and the components found so far.  A node
  on that stack reaches the node its low link names, which is on the stack too
  and was opened before it, unless the node is still open.  So when a node is
  closed whose low link is its own number, everything above it on the stack can
  climb back to it, and nothing above it has an edge to what lies below.
-/

import Pliron.Lib.Dfs

namespace Pliron.Lib

open Function

variable {α : Type*} [DecidableEq α]

/-- The state of the search for strongly connected components.  The stack of unassigned nodes
    has its top first, and the components found last come first. -/
structure TarjanState (α : Type*) where
  dfs : DfsState α
  low : α → Nat
  sccStack : List α
  sccs : List (List α)

namespace TarjanState

variable (succs : α → List α) (s : TarjanState α)

/-- The low link of a closed node is handed to the node below it on the stack. -/
def propagate (n : α) (rest : List (α × Nat)) : α → Nat :=
  match rest with
  | [] => s.low
  | (p, _) :: _ => update s.low p (min (s.low p) (s.low n))

/-- The low links after the top node `n` has looked at `v`, which was seen before. -/
def seenLow (n v : α) : α → Nat :=
  if v ∈ s.sccStack then update s.low n (min (s.low n) (s.dfs.pre v)) else s.low

/-- One iteration: look at the next successor of the top node, or close it. -/
def step : TarjanState α :=
  match s.dfs.stack with
  | [] => s
  | (n, i) :: rest =>
      match (succs n)[i]? with
      | some v =>
          if v ∈ s.dfs.opened then
            { s with dfs := s.dfs.step succs, low := s.seenLow n v }
          else
            { s with
              dfs := s.dfs.step succs
              low := update s.low v s.dfs.opened.length
              sccStack := v :: s.sccStack }
      | none =>
          if s.low n = s.dfs.pre n then
            { dfs := s.dfs.step succs
              low := s.propagate n rest
              sccStack := (s.sccStack.dropWhile (fun u => u ≠ n)).tail
              sccs := (s.sccStack.takeWhile (fun u => u ≠ n) ++ [n]) :: s.sccs }
          else
            { s with dfs := s.dfs.step succs, low := s.propagate n rest }

/-- Iterate `step` until the stack is empty, at most `fuel` times. -/
def run : Nat → TarjanState α → TarjanState α
  | 0, s => s
  | fuel + 1, s => if s.dfs.stack = [] then s else run fuel (s.step succs)

/-- Start a search at a node not seen before. -/
def push (n : α) : TarjanState α where
  dfs := s.dfs.push n
  low := update s.low n s.dfs.opened.length
  sccStack := n :: s.sccStack
  sccs := s.sccs

variable {succs s} {n v : α} {i : Nat} {rest : List (α × Nat)}

theorem seenLow_self : s.seenLow n v n =
    if v ∈ s.sccStack then min (s.low n) (s.dfs.pre v) else s.low n := by
  unfold seenLow
  split
  · rw [update_self]
  · rfl

theorem seenLow_of_ne {u : α} (hu : u ≠ n) : s.seenLow n v u = s.low u := by
  unfold seenLow
  split
  · rw [update_of_ne hu]
  · rfl

theorem seenLow_le (s : TarjanState α) (n v u : α) : s.seenLow n v u ≤ s.low u := by
  by_cases hu : u = n
  · subst hu
    rw [seenLow_self]
    split
    · exact Nat.min_le_left _ _
    · exact Nat.le_refl _
  · rw [seenLow_of_ne hu]

theorem step_seen (hs : s.dfs.stack = (n, i) :: rest) (hv : (succs n)[i]? = some v)
    (hseen : v ∈ s.dfs.opened) : s.step succs =
      { s with dfs := { s.dfs with stack := (n, i + 1) :: rest }, low := s.seenLow n v } := by
  simp only [step, hs, hv, if_pos hseen, DfsState.step_seen hs hv hseen]

theorem step_open (hs : s.dfs.stack = (n, i) :: rest) (hv : (succs n)[i]? = some v)
    (hnew : v ∉ s.dfs.opened) : s.step succs =
      ⟨⟨(v, 0) :: (n, i + 1) :: rest, s.dfs.opened ++ [v], s.dfs.closed⟩,
        update s.low v s.dfs.opened.length, v :: s.sccStack, s.sccs⟩ := by
  simp only [step, hs, hv, if_neg hnew, DfsState.step_open hs hv hnew]

theorem step_close (hs : s.dfs.stack = (n, i) :: rest) (hv : (succs n)[i]? = none)
    (hlow : s.low n ≠ s.dfs.pre n) : s.step succs =
      { s with dfs := ⟨rest, s.dfs.opened, s.dfs.closed ++ [n]⟩, low := s.propagate n rest } := by
  simp only [step, hs, hv, if_neg hlow, DfsState.step_close hs hv]

theorem step_root (hs : s.dfs.stack = (n, i) :: rest) (hv : (succs n)[i]? = none)
    (hlow : s.low n = s.dfs.pre n) : s.step succs =
      ⟨⟨rest, s.dfs.opened, s.dfs.closed ++ [n]⟩, s.propagate n rest,
        (s.sccStack.dropWhile (fun u => u ≠ n)).tail,
        (s.sccStack.takeWhile (fun u => u ≠ n) ++ [n]) :: s.sccs⟩ := by
  simp only [step, hs, hv, if_pos hlow, DfsState.step_close hs hv]

/-- Next to the components the search does what `DfsState.step` does. -/
theorem step_dfs (s : TarjanState α) : (s.step succs).dfs = s.dfs.step succs := by
  unfold step
  match hs : s.dfs.stack with
  | [] => exact (DfsState.step_nil hs).symm
  | (n, i) :: rest =>
      simp only
      split <;> split <;> rfl

theorem run_dfs (fuel : Nat) (s : TarjanState α) :
    (s.run succs fuel).dfs = s.dfs.run succs fuel := by
  induction fuel generalizing s with
  | zero => rfl
  | succ fuel ih =>
      unfold run DfsState.run
      split
      · rfl
      · rw [ih, step_dfs]

end TarjanState

/-- The edges out of a component lead to components later in the list. -/
def TopoSorted (succs : α → List α) : List (List α) → Prop
  | [] => True
  | C :: Cs => (∀ u ∈ C, ∀ v ∈ succs u, v ∈ C ∨ v ∈ Cs.flatten) ∧ TopoSorted succs Cs

/-- What holds between two steps. -/
structure TarjanInv (succs : α → List α) (roots : List α) (s : TarjanState α) : Prop where
  dfs : DfsInv succs roots s.dfs
  sorted : s.sccStack.Pairwise (fun u v => s.dfs.pre v < s.dfs.pre u)
  mem_opened : ∀ v, v ∈ s.dfs.opened ↔ v ∈ s.sccStack ∨ v ∈ s.sccs.flatten
  nodup : (s.sccStack ++ s.sccs.flatten).Nodup
  open_mem : ∀ v ∈ s.dfs.openNodes, v ∈ s.sccStack
  reach_open : ∀ v ∈ s.dfs.openNodes, ∀ x ∈ s.dfs.opened, s.dfs.pre v ≤ s.dfs.pre x →
    Reach (DfsInv.Edge succs) v x
  low_le : ∀ v ∈ s.sccStack, s.low v ≤ s.dfs.pre v
  low_lt : ∀ v ∈ s.sccStack, v ∈ s.dfs.closed → s.low v < s.dfs.pre v
  low_reach : ∀ v ∈ s.sccStack, ∃ u ∈ s.sccStack, s.dfs.pre u = s.low v ∧
    Reach (DfsInv.Edge succs) v u
  low_closed : ∀ v ∈ s.sccStack, v ∈ s.dfs.closed → ∀ w ∈ succs v, w ∈ s.sccStack →
    s.low v ≤ s.dfs.pre w
  low_open : ∀ n i, (n, i) ∈ s.dfs.stack → ∀ j < i, ∀ w, (succs n)[j]? = some w →
    w ∈ s.sccStack → s.low n ≤ s.dfs.pre w
  /-- The low link of an open node covers those of what was closed above it. -/
  low_above : ∀ v ∈ s.dfs.openNodes, ∀ x ∈ s.sccStack, s.dfs.pre v < s.dfs.pre x →
    (∀ u ∈ s.dfs.openNodes, s.dfs.pre u ≤ s.dfs.pre x → s.dfs.pre u ≤ s.dfs.pre v) →
    s.low v ≤ s.low x
  connected : ∀ C ∈ s.sccs, ∀ u ∈ C, ∀ v ∈ C, Reach (DfsInv.Edge succs) u v
  nonempty : ∀ C ∈ s.sccs, C ≠ []
  topo : TopoSorted succs s.sccs

namespace TarjanInv

variable {succs : α → List α} {roots roots' : List α} {s : TarjanState α} {n v w x : α} {i : Nat}
  {rest : List (α × Nat)}

theorem empty (low : α → Nat) : TarjanInv succs [] ⟨⟨[], [], []⟩, low, [], []⟩ := by
  refine ⟨DfsInv.empty, ?_, ?_, ?_, ?_, ?_, ?_, ?_, ?_, ?_, ?_, ?_, ?_, ?_, trivial⟩ <;>
    simp [DfsState.openNodes]

theorem mem_opened_of_stack (h : TarjanInv succs roots s) (hv : v ∈ s.sccStack) :
    v ∈ s.dfs.opened := (h.mem_opened v).mpr (Or.inl hv)

omit [DecidableEq α] in
theorem top_mem (hs : s.dfs.stack = (n, i) :: rest) : n ∈ s.dfs.openNodes := by
  simp [DfsState.openNodes, hs]

/-! ## Looking at a node seen before -/

/-- Lowering the low link of the top node to the number of one of its successors. -/
theorem seen (h : TarjanInv succs roots s) (hs : s.dfs.stack = (n, i) :: rest)
    (hv : (succs n)[i]? = some v) (hseen : v ∈ s.dfs.opened) :
    TarjanInv succs roots (s.step succs) := by
  have hn : n ∈ s.sccStack := h.open_mem n (top_mem hs)
  have hle : ∀ u, s.seenLow n v u ≤ s.low u := s.seenLow_le n v
  have hne : ∀ {u}, u ≠ n → s.seenLow n v u = s.low u := s.seenLow_of_ne
  have hopen : DfsState.openNodes { s.dfs with stack := (n, i + 1) :: rest } =
      s.dfs.openNodes := by simp [DfsState.openNodes, hs]
  have hdfs := h.dfs.step
  rw [DfsState.step_seen hs hv hseen] at hdfs
  rw [TarjanState.step_seen hs hv hseen]
  refine ⟨hdfs, h.sorted, h.mem_opened, h.nodup, ?_, ?_, ?_, ?_, ?_, ?_, ?_, ?_, h.connected,
    h.nonempty, h.topo⟩
  · rw [hopen]
    exact h.open_mem
  · rw [hopen]
    exact h.reach_open
  · exact fun u hu => Nat.le_trans (hle u) (h.low_le u hu)
  · exact fun u hu hc => Nat.lt_of_le_of_lt (hle u) (h.low_lt u hu hc)
  · intro u hu
    by_cases hmin : u = n ∧ v ∈ s.sccStack ∧ s.dfs.pre v < s.low n
    · obtain ⟨rfl, hvs, hlt⟩ := hmin
      refine ⟨v, hvs, ?_, Reach.head (List.mem_of_getElem? hv) (Reach.refl v)⟩
      show s.dfs.pre v = s.seenLow u v u
      rw [TarjanState.seenLow_self, if_pos hvs, Nat.min_eq_right (Nat.le_of_lt hlt)]
    · have heq : s.seenLow n v u = s.low u := by
        by_cases hun : u = n
        · subst hun
          rw [TarjanState.seenLow_self]
          split
          · next hvs =>
              exact Nat.min_eq_left (Nat.le_of_not_lt (fun hlt => hmin ⟨rfl, hvs, hlt⟩))
          · rfl
        · exact hne hun
      simp only [heq]
      exact h.low_reach u hu
  · exact fun u hu hc w hw hws => Nat.le_trans (hle u) (h.low_closed u hu hc w hw hws)
  · intro m k hm j hj w hw hws
    rcases List.mem_cons.mp hm with heq | hm
    · obtain ⟨rfl, rfl⟩ := Prod.mk.inj heq
      rcases Nat.lt_succ_iff_lt_or_eq.mp hj with hj | rfl
      · exact Nat.le_trans (hle m) (h.low_open m i (by simp [hs]) j hj w hw hws)
      · obtain rfl := Option.some.inj (hv.symm.trans hw)
        show s.seenLow m v m ≤ s.dfs.pre v
        rw [TarjanState.seenLow_self, if_pos hws]
        exact Nat.min_le_right _ _
    · exact Nat.le_trans (hle m) (h.low_open m k (by simp [hs, hm]) j hj w hw hws)
  · rw [hopen]
    intro u hu x hx hlt hbetween
    -- the node above is not the top one, which is open
    have hxn : x ≠ n := by
      rintro rfl
      exact absurd (hbetween x (top_mem hs) (Nat.le_refl _)) (Nat.not_le_of_lt hlt)
    exact Nat.le_trans (hle u)
      (Nat.le_trans (h.low_above u hu x hx hlt hbetween) (Nat.le_of_eq (hne hxn).symm))

/-! ## Opening a node -/

/-- A node not seen before goes on both stacks. -/
theorem opening (h : TarjanInv succs roots s) (hv : v ∉ s.dfs.opened) {stack : List (α × Nat)}
    (hdfs : DfsInv succs roots' ⟨(v, 0) :: stack, s.dfs.opened ++ [v], s.dfs.closed⟩)
    (hopen : stack.map Prod.fst = s.dfs.openNodes)
    (hreach : ∀ u ∈ s.dfs.openNodes, Reach (DfsInv.Edge succs) u v)
    (hlow : ∀ n i, (n, i) ∈ stack → ∀ j < i, ∀ w, (succs n)[j]? = some w →
      w = v ∨ (w ∈ s.sccStack → s.low n ≤ s.dfs.pre w)) :
    TarjanInv succs roots' ⟨⟨(v, 0) :: stack, s.dfs.opened ++ [v], s.dfs.closed⟩,
      update s.low v s.dfs.opened.length, v :: s.sccStack, s.sccs⟩ := by
  have hvs : v ∉ s.sccStack := fun hmem => hv (h.mem_opened_of_stack hmem)
  have hpre : ∀ {u}, u ∈ s.dfs.opened → (s.dfs.opened ++ [v]).idxOf u = s.dfs.pre u :=
    fun hu => idxOf_snoc_of_mem hu
  have hprev : (s.dfs.opened ++ [v]).idxOf v = s.dfs.opened.length := idxOf_snoc_self hv
  have hlt : ∀ {u}, u ∈ s.dfs.opened → s.dfs.pre u < s.dfs.opened.length := fun hu =>
    idxOf_lt_length_of_mem hu
  have hS : ∀ {u}, u ∈ s.sccStack → u ∈ s.dfs.opened := fun hu => h.mem_opened_of_stack hu
  have hne : ∀ {u}, u ∈ s.dfs.opened → u ≠ v := by
    rintro u hu rfl
    exact hv hu
  -- the open nodes are the old ones and `v`, and old nodes keep their numbers
  have hopen' : ∀ u, u ∈ v :: stack.map Prod.fst ↔ u = v ∨ u ∈ s.dfs.openNodes := by
    intro u
    rw [List.mem_cons, hopen]
  have hoo : ∀ {u}, u ∈ s.dfs.openNodes → u ∈ s.dfs.opened := fun hu =>
    h.dfs.mem_opened_of_open hu
  have hcc : ∀ {u}, u ∈ s.dfs.closed → u ≠ v := fun hu => hne (h.dfs.mem_opened_of_closed hu)
  have hlowS : ∀ {u}, u ∈ s.sccStack → update s.low v s.dfs.opened.length u = s.low u :=
    fun hu => update_of_ne (hne (hS hu)) _ _
  refine ⟨hdfs, ?_, ?_, ?_, ?_, ?_, ?_, ?_, ?_, ?_, ?_, ?_, h.connected, h.nonempty, h.topo⟩
  all_goals simp only [DfsState.openNodes, DfsState.pre, List.map_cons]
  · refine List.pairwise_cons.mpr ⟨fun u hu => ?_, ?_⟩
    · rw [hpre (hS hu), hprev]
      exact hlt (hS hu)
    · refine h.sorted.imp_of_mem (fun {a b} ha hb hab => ?_)
      rwa [hpre (hS ha), hpre (hS hb)]
  · intro u
    rw [List.mem_append, List.mem_singleton, List.mem_cons, h.mem_opened]
    tauto
  · rw [List.cons_append, List.nodup_cons]
    refine ⟨fun hmem => hv ((h.mem_opened v).mpr (List.mem_append.mp hmem)), h.nodup⟩
  · intro u hu
    rcases (hopen' u).mp hu with rfl | hu
    · exact List.mem_cons_self
    · exact List.mem_cons_of_mem _ (h.open_mem u hu)
  · intro u hu x hx hle
    -- `v` has the largest number, so only itself is numbered from it on
    rcases (hopen' u).mp hu with rfl | hu <;> rcases List.mem_append.mp hx with hx | hx
    · rw [hprev, hpre hx] at hle
      exact absurd (hlt hx) (Nat.not_lt_of_le hle)
    · rw [List.mem_singleton.mp hx]
      exact Reach.refl _
    · rw [hpre (hoo hu), hpre hx] at hle
      exact h.reach_open u hu x hx hle
    · rw [List.mem_singleton.mp hx]
      exact hreach u hu
  · intro u hu
    rcases List.mem_cons.mp hu with rfl | hu
    · rw [update_self, hprev]
    · rw [hlowS hu, hpre (hS hu)]
      exact h.low_le u hu
  · intro u hu hc
    rcases List.mem_cons.mp hu with rfl | hu
    · exact absurd rfl (hcc hc)
    · rw [hlowS hu, hpre (hS hu)]
      exact h.low_lt u hu hc
  · intro u hu
    rcases List.mem_cons.mp hu with rfl | hu
    · exact ⟨u, List.mem_cons_self, by rw [update_self, hprev], Reach.refl u⟩
    · obtain ⟨w, hw, hpw, hreach⟩ := h.low_reach u hu
      exact ⟨w, List.mem_cons_of_mem _ hw, by rw [hlowS hu, hpre (hS hw), hpw], hreach⟩
  · intro u hu hc w hw hws
    have hu : u ∈ s.sccStack := (List.mem_cons.mp hu).resolve_left (hcc hc)
    have hws : w ∈ s.sccStack :=
      (List.mem_cons.mp hws).resolve_left (hne (h.dfs.closed_succs u hc w hw))
    rw [hlowS hu, hpre (hS hws)]
    exact h.low_closed u hu hc w hw hws
  · intro m k hm j hj w hw hws
    rcases List.mem_cons.mp hm with heq | hm
    · -- nothing of `v` has been followed yet
      obtain ⟨rfl, rfl⟩ := Prod.mk.inj heq
      exact absurd hj (Nat.not_lt_zero j)
    · have hmo : m ∈ s.dfs.openNodes := hopen ▸ List.mem_map_of_mem hm
      have hms := h.open_mem m hmo
      rw [hlowS hms]
      rcases List.mem_cons.mp hws with rfl | hws'
      · rw [hprev]
        exact Nat.le_trans (h.low_le m hms) (Nat.le_of_lt (hlt (hS hms)))
      · rw [hpre (hS hws')]
        rcases hlow m k hm j hj w hw with rfl | hlow
        · exact absurd hws' hvs
        · exact hlow hws'
  · intro u hu x hx hlt' hbetween
    rcases List.mem_cons.mp hx with rfl | hx'
    · -- the new node is open itself
      exact absurd (hbetween x List.mem_cons_self (Nat.le_refl _)) (Nat.not_le_of_lt hlt')
    · rcases (hopen' u).mp hu with rfl | hu'
      · rw [hprev, hpre (hS hx')] at hlt'
        exact absurd (hlt (hS hx')) (Nat.not_lt_of_lt hlt')
      · rw [hlowS (h.open_mem u hu'), hlowS hx']
        rw [hpre (hoo hu'), hpre (hS hx')] at hlt'
        refine h.low_above u hu' x hx' hlt' (fun y hy hyx => ?_)
        have hyu := hbetween y (List.mem_cons_of_mem _ (hopen ▸ hy))
        rw [hpre (hoo hy), hpre (hS hx'), hpre (hoo hu')] at hyu
        exact hyu hyx

/-- The top node opens one of its successors. -/
theorem opened (h : TarjanInv succs roots s) (hs : s.dfs.stack = (n, i) :: rest)
    (hv : (succs n)[i]? = some v) (hnew : v ∉ s.dfs.opened) :
    TarjanInv succs roots (s.step succs) := by
  have hdfs := h.dfs.step
  rw [DfsState.step_open hs hv hnew] at hdfs
  rw [TarjanState.step_open hs hv hnew]
  refine h.opening hnew hdfs (by simp [DfsState.openNodes, hs]) (fun u hu => ?_) ?_
  · have hun := h.reach_open u hu n (h.dfs.mem_opened_of_open (top_mem hs))
      (h.dfs.pre_le_top hs hu)
    exact hun.tail (List.mem_of_getElem? hv)
  · intro m k hm j hj w hw
    rcases List.mem_cons.mp hm with heq | hm
    · obtain ⟨rfl, rfl⟩ := Prod.mk.inj heq
      rcases Nat.lt_succ_iff_lt_or_eq.mp hj with hj | rfl
      · exact Or.inr (h.low_open m i (by simp [hs]) j hj w hw)
      · exact Or.inl (Option.some.inj (hw.symm.trans hv))
    · exact Or.inr (h.low_open m k (by simp [hs, hm]) j hj w hw)

theorem push (h : TarjanInv succs roots s) (hs : s.dfs.stack = []) (hv : v ∉ s.dfs.opened) :
    TarjanInv succs (v :: roots) (s.push v) := by
  have hnone : s.dfs.openNodes = [] := by simp [DfsState.openNodes, hs]
  exact h.opening hv (h.dfs.push hs hv) (by rw [hnone]; rfl) (by simp [hnone]) (by simp)

/-! ## Closing a node -/

/-- What lies above the top node on the stack of unassigned nodes is closed, and its low links
    are covered by that of the top node. -/
theorem above_top (h : TarjanInv succs roots s) (hs : s.dfs.stack = (n, i) :: rest)
    (hx : x ∈ s.sccStack) (hlt : s.dfs.pre n < s.dfs.pre x) :
    x ∈ s.dfs.closed ∧ s.low n ≤ s.low x :=
  ⟨h.dfs.closed_of_top_lt hs (h.mem_opened_of_stack hx) hlt,
    h.low_above n (top_mem hs) x hx hlt (fun _ hu _ => h.dfs.pre_le_top hs hu)⟩

/-- All successors of the top node were looked at. -/
theorem low_top (h : TarjanInv succs roots s) (hs : s.dfs.stack = (n, i) :: rest)
    (hv : (succs n)[i]? = none) (hw : w ∈ succs n) (hws : w ∈ s.sccStack) :
    s.low n ≤ s.dfs.pre w := by
  obtain ⟨j, hj, hjw⟩ := List.getElem_of_mem hw
  have hij : j < i := Nat.lt_of_lt_of_le hj (List.getElem?_eq_none_iff.mp hv)
  exact h.low_open n i (by simp [hs]) j hij w (by rw [List.getElem?_eq_getElem hj, hjw]) hws

/-- The node below the top one on the stack was opened last among those. -/
theorem pre_le_below (h : TarjanInv succs roots s) {p : α} {j : Nat} {rest' : List (α × Nat)}
    (hs : s.dfs.stack = (n, i) :: (p, j) :: rest') (hu : v ∈ ((p, j) :: rest').map Prod.fst) :
    s.dfs.pre v ≤ s.dfs.pre p := by
  have hsorted := h.dfs.sorted
  simp only [DfsState.openNodes, hs, List.map_cons, List.pairwise_cons] at hsorted
  rcases List.mem_cons.mp hu with rfl | hu
  · exact Nat.le_refl _
  · exact Nat.le_of_lt (hsorted.2.1 v hu)

theorem pre_lt_top (h : TarjanInv succs roots s) (hs : s.dfs.stack = (n, i) :: rest)
    (hu : v ∈ rest.map Prod.fst) : s.dfs.pre v < s.dfs.pre n := by
  have hsorted := h.dfs.sorted
  simp only [DfsState.openNodes, hs, List.map_cons, List.pairwise_cons] at hsorted
  exact hsorted.1 v hu

theorem propagate_le (n : α) (rest : List (α × Nat)) (u : α) : s.propagate n rest u ≤ s.low u := by
  unfold TarjanState.propagate
  rcases rest with _ | ⟨⟨p, j⟩, rest⟩
  · exact Nat.le_refl _
  · by_cases hu : u = p
    · subst hu
      simp
    · simp [hu]

theorem propagate_of_not_mem (hu : v ∉ rest.map Prod.fst) : s.propagate n rest v = s.low v := by
  unfold TarjanState.propagate
  rcases rest with _ | ⟨⟨p, j⟩, rest⟩
  · rfl
  · have hne : v ≠ p := fun heq => hu (by simp [heq])
    simp [hne]

/-- A closed node that is not the first of its component stays on the stack of unassigned
    nodes. -/
theorem closed (h : TarjanInv succs roots s) (hs : s.dfs.stack = (n, i) :: rest)
    (hv : (succs n)[i]? = none) (hlow : s.low n ≠ s.dfs.pre n) :
    TarjanInv succs roots (s.step succs) := by
  have hn : n ∈ s.sccStack := h.open_mem n (top_mem hs)
  have hlown : s.low n < s.dfs.pre n := lt_of_le_of_ne (h.low_le n hn) hlow
  have hle := propagate_le (s := s) n rest
  have hsub : ∀ {u}, u ∈ rest.map Prod.fst → u ∈ s.dfs.openNodes := fun hu => by
    simp only [DfsState.openNodes, hs, List.map_cons]
    exact List.mem_cons_of_mem _ hu
  have hdfs := h.dfs.step
  rw [DfsState.step_close hs hv] at hdfs
  rw [TarjanState.step_close hs hv hlow]
  refine ⟨hdfs, h.sorted, h.mem_opened, h.nodup, fun u hu => h.open_mem u (hsub hu),
    fun u hu => h.reach_open u (hsub hu), fun u hu => Nat.le_trans (hle u) (h.low_le u hu),
    fun u hu hc => ?_, fun u hu => ?_, fun u hu hc w hw hws => ?_, fun m k hm j hj w hw hws => ?_,
    fun u hu x hx hlt hbetween => ?_, h.connected, h.nonempty, h.topo⟩
  · refine Nat.lt_of_le_of_lt (hle u) ?_
    rcases List.mem_append.mp hc with hc | hc
    · exact h.low_lt u hu hc
    · rw [List.mem_singleton.mp hc]
      exact hlown
  · obtain ⟨w, hw, hpw, hreach⟩ := h.low_reach u hu
    by_cases heq : s.propagate n rest u = s.low u
    · exact ⟨w, hw, hpw.trans heq.symm, hreach⟩
    · -- the low link was handed down from `n`
      have hmem : u ∈ rest.map Prod.fst := by
        by_contra hmem
        exact heq (propagate_of_not_mem hmem)
      have hun := h.reach_open u (hsub hmem) n (h.mem_opened_of_stack hn)
        (Nat.le_of_lt (h.pre_lt_top hs hmem))
      obtain ⟨w', hw', hpw', hreach'⟩ := h.low_reach n hn
      refine ⟨w', hw', hpw'.trans ?_, hun.trans hreach'⟩
      rcases rest with _ | ⟨⟨p, j⟩, rest⟩
      · exact absurd rfl heq
      · by_cases hup : u = p
        · subst hup
          simp only [TarjanState.propagate, update_self] at heq ⊢
          omega
        · exact absurd (by simp [TarjanState.propagate, hup]) heq
  · refine Nat.le_trans (hle u) ?_
    rcases List.mem_append.mp hc with hc | hc
    · exact h.low_closed u hu hc w hw hws
    · obtain rfl := List.mem_singleton.mp hc
      exact h.low_top hs hv hw hws
  · exact Nat.le_trans (hle m) (h.low_open m k (by simp [hs, hm]) j hj w hw hws)
  · have hxr : x ∉ rest.map Prod.fst := fun hmem =>
      absurd (hbetween x hmem (Nat.le_refl _)) (Nat.not_le_of_lt hlt)
    refine Nat.le_trans ?_ (Nat.le_of_eq (propagate_of_not_mem hxr).symm)
    by_cases hnx : s.dfs.pre n ≤ s.dfs.pre x
    · -- then `u` is the node below `n`, which takes over its low link
      have hnx' : s.low n ≤ s.low x := by
        rcases Nat.eq_or_lt_of_le hnx with heq | hnlt
        · rw [eq_of_idxOf_eq (h.mem_opened_of_stack hn) heq]
        · exact (h.above_top hs hx hnlt).2
      rcases rest with _ | ⟨⟨p, j⟩, rest⟩
      · exact absurd hu List.not_mem_nil
      · have hp : p ∈ ((p, j) :: rest).map Prod.fst := by simp
        have hpu := hbetween p hp (Nat.le_trans (Nat.le_of_lt (h.pre_lt_top hs hp)) hnx)
        have hup := eq_of_idxOf_eq (h.dfs.mem_opened_of_open (hsub hp))
          (Nat.le_antisymm hpu (h.pre_le_below hs hu))
        subst hup
        refine Nat.le_trans ?_ hnx'
        simp [TarjanState.propagate]
    · refine Nat.le_trans (hle u) (h.low_above u (hsub hu) x hx hlt (fun y hy hyx => ?_))
      simp only [DfsState.openNodes, hs, List.map_cons] at hy
      rcases List.mem_cons.mp hy with rfl | hy
      · exact absurd hyx hnx
      · exact hbetween y hy hyx

/-! ## Closing the first node of a component -/

/-- Everything above the first node of a component climbs back to it. -/
theorem reach_root (h : TarjanInv succs roots s) (hs : s.dfs.stack = (n, i) :: rest)
    (hlow : s.low n = s.dfs.pre n) (hx : x ∈ s.sccStack) (hle : s.dfs.pre n ≤ s.dfs.pre x) :
    Reach (DfsInv.Edge succs) x n := by
  induction hk : s.dfs.pre x using Nat.strong_induction_on generalizing x with
  | _ k ih =>
      subst hk
      rcases Nat.eq_or_lt_of_le hle with heq | hlt
      · rw [← eq_of_idxOf_eq (h.mem_opened_of_stack (h.open_mem n (top_mem hs))) heq]
        exact Reach.refl n
      · obtain ⟨hc, hcover⟩ := h.above_top hs hx hlt
        obtain ⟨u, hu, hpu, hxu⟩ := h.low_reach x hx
        have hux := h.low_lt x hx hc
        exact hxu.trans (ih _ (by omega) hu (by omega) rfl)

/-- The edges of what lies above stay above, or lead to components found before. -/
theorem edge_above (h : TarjanInv succs roots s) (hs : s.dfs.stack = (n, i) :: rest)
    (hv : (succs n)[i]? = none) (hlow : s.low n = s.dfs.pre n) (hx : x ∈ s.sccStack)
    (hle : s.dfs.pre n ≤ s.dfs.pre x) (hw : w ∈ succs x) :
    (w ∈ s.sccStack ∧ s.dfs.pre n ≤ s.dfs.pre w) ∨ w ∈ s.sccs.flatten := by
  rcases Nat.eq_or_lt_of_le hle with heq | hlt
  · obtain rfl := eq_of_idxOf_eq (h.mem_opened_of_stack (h.open_mem n (top_mem hs))) heq
    obtain ⟨j, hj, hjw⟩ := List.getElem_of_mem hw
    have hij : j < i := Nat.lt_of_lt_of_le hj (List.getElem?_eq_none_iff.mp hv)
    have hseen := h.dfs.visited n i (by simp [hs]) j hij w (by
      rw [List.getElem?_eq_getElem hj, hjw])
    refine ((h.mem_opened w).mp hseen).imp (fun hws => ⟨hws, ?_⟩) id
    exact hlow ▸ h.low_top hs hv hw hws
  · obtain ⟨hc, hcover⟩ := h.above_top hs hx hlt
    refine ((h.mem_opened w).mp (h.dfs.closed_succs x hc w hw)).imp (fun hws => ⟨hws, ?_⟩) id
    have := h.low_closed x hx hc w hw hws
    omega

/-- The first node of a component takes everything above it off the stack. -/
theorem root (h : TarjanInv succs roots s) (hs : s.dfs.stack = (n, i) :: rest)
    (hv : (succs n)[i]? = none) (hlow : s.low n = s.dfs.pre n) :
    TarjanInv succs roots (s.step succs) := by
  have hn : n ∈ s.sccStack := h.open_mem n (top_mem hs)
  obtain ⟨a, b, hab, hna⟩ := List.eq_append_cons_of_mem hn
  have hna' : ∀ u ∈ a, decide (u ≠ n) = true := by
    intro u hu
    refine decide_eq_true (fun heq => ?_)
    rw [heq] at hu
    exact hna hu
  -- the stack is the new component, down to `n`, on top of the rest
  have htake : s.sccStack.takeWhile (fun u => u ≠ n) = a := by
    rw [hab, List.takeWhile_append_of_pos hna']
    simp
  have hdrop : (s.sccStack.dropWhile (fun u => u ≠ n)).tail = b := by
    rw [hab, List.dropWhile_append_of_pos hna']
    simp
  have hsorted := h.sorted
  rw [hab, List.pairwise_append, List.pairwise_cons] at hsorted
  have hS : ∀ {u}, u ∈ s.sccStack ↔ u ∈ a ++ [n] ∨ u ∈ b := by
    intro u
    rw [hab]
    simp [or_assoc]
  have hpa : ∀ u ∈ a ++ [n], s.dfs.pre n ≤ s.dfs.pre u := by
    intro u hu
    rcases List.mem_append.mp hu with hu | hu
    · exact Nat.le_of_lt (hsorted.2.2 u hu n List.mem_cons_self)
    · rw [List.mem_singleton.mp hu]
  have hpb : ∀ u ∈ b, s.dfs.pre u < s.dfs.pre n := hsorted.2.1.1
  -- the component holds exactly the stacked nodes numbered from `n` on
  have hmem : ∀ {u}, u ∈ s.sccStack → (s.dfs.pre n ≤ s.dfs.pre u ↔ u ∈ a ++ [n]) := by
    intro u hu
    refine ⟨fun hle => (hS.mp hu).resolve_right (fun hb => ?_), hpa u⟩
    exact absurd (hpb u hb) (Nat.not_lt_of_le hle)
  have hbelow : ∀ {u}, u ∈ s.sccStack → s.dfs.pre u < s.dfs.pre n → u ∈ b := fun hu hlt =>
    (hS.mp hu).resolve_left (fun ha => absurd (hpa _ ha) (Nat.not_le_of_lt hlt))
  have hbS : ∀ {u}, u ∈ b → u ∈ s.sccStack := fun hu => hS.mpr (Or.inr hu)
  have hsub : ∀ {u}, u ∈ rest.map Prod.fst → u ∈ s.dfs.openNodes := fun hu => by
    simp only [DfsState.openNodes, hs, List.map_cons]
    exact List.mem_cons_of_mem _ hu
  -- the parent of a root already has a lower lowlink, so passing it on changes nothing
  have hprop : s.propagate n rest = s.low := by
    unfold TarjanState.propagate
    rcases rest with _ | ⟨⟨p, j⟩, rest⟩
    · rfl
    · have hp : p ∈ ((p, j) :: rest).map Prod.fst := by simp
      have hlt := h.pre_lt_top hs hp
      have hle := h.low_le p (h.open_mem p (hsub hp))
      show update s.low p (min (s.low p) (s.low n)) = s.low
      rw [Nat.min_eq_left (by omega), update_eq_self]
  have hclosed : ∀ {u}, u ∈ b → u ∈ s.dfs.closed ++ [n] → u ∈ s.dfs.closed := by
    intro u hu hc
    rcases List.mem_append.mp hc with hc | hc
    · exact hc
    · rw [List.mem_singleton.mp hc] at hu
      exact absurd (hpb n hu) (Nat.lt_irrefl _)
  have hdfs := h.dfs.step
  rw [DfsState.step_close hs hv] at hdfs
  rw [TarjanState.step_root hs hv hlow, htake, hdrop, hprop]
  refine ⟨hdfs, hsorted.2.1.2, fun u => ?_, ?_, fun u hu => ?_, fun u hu => h.reach_open u (hsub hu),
    fun u hu => h.low_le u (hbS hu), fun u hu hc => h.low_lt u (hbS hu) (hclosed hu hc),
    fun u hu => ?_, fun u hu hc w hw hws => h.low_closed u (hbS hu) (hclosed hu hc) w hw (hbS hws),
    fun m k hm j hj w hw hws => h.low_open m k (by simp [hs, hm]) j hj w hw (hbS hws),
    fun u hu x hx hlt hbetween => ?_, ?_, ?_, ?_, h.topo⟩
  · rw [h.mem_opened, hS, List.flatten_cons, List.mem_append (s := a ++ [n])]
    tauto
  · have hperm : (b ++ ((a ++ [n]) :: s.sccs).flatten).Perm (s.sccStack ++ s.sccs.flatten) := by
      rw [hab, List.flatten_cons, ← List.append_assoc]
      refine List.Perm.append_right _ ?_
      refine List.perm_append_comm.trans ?_
      simp
    exact hperm.nodup_iff.mpr h.nodup
  · exact hbelow (h.open_mem u (hsub hu)) (h.pre_lt_top hs hu)
  · obtain ⟨w, hw, hpw, hreach⟩ := h.low_reach u (hbS hu)
    have hle := h.low_le u (hbS hu)
    have hlt := hpb u hu
    exact ⟨w, hbelow hw (by omega), hpw, hreach⟩
  · refine h.low_above u (hsub hu) x (hbS hx) hlt (fun y hy hyx => ?_)
    simp only [DfsState.openNodes, hs, List.map_cons] at hy
    rcases List.mem_cons.mp hy with rfl | hy
    · exact absurd (hpb x hx) (Nat.not_lt_of_le hyx)
    · exact hbetween y hy hyx
  · intro C hC u hu v hv'
    rcases List.mem_cons.mp hC with rfl | hC
    · -- every node of the component reaches its root, and the root reaches it
      have hun := h.reach_root hs hlow (hS.mpr (Or.inl hu)) (hpa u hu)
      have hnv := h.reach_open n (top_mem hs) v (h.mem_opened_of_stack (hS.mpr (Or.inl hv')))
        (hpa v hv')
      exact hun.trans hnv
    · exact h.connected C hC u hu v hv'
  · intro C hC
    rcases List.mem_cons.mp hC with rfl | hC
    · simp
    · exact h.nonempty C hC
  · intro u hu v hv'
    refine (h.edge_above hs hv hlow (hS.mpr (Or.inl hu)) (hpa u hu) hv').imp (fun hvs => ?_) id
    exact (hmem hvs.1).mp hvs.2

/-! ## Runs -/

/-- Every step keeps the invariant. -/
theorem step (h : TarjanInv succs roots s) : TarjanInv succs roots (s.step succs) := by
  match hs : s.dfs.stack with
  | [] =>
      rw [TarjanState.step, hs]
      exact h
  | (n, i) :: rest =>
      match hv : (succs n)[i]? with
      | some v =>
          by_cases hseen : v ∈ s.dfs.opened
          · exact h.seen hs hv hseen
          · exact h.opened hs hv hseen
      | none =>
          by_cases hlow : s.low n = s.dfs.pre n
          · exact h.root hs hv hlow
          · exact h.closed hs hv hlow

theorem run (h : TarjanInv succs roots s) (fuel : Nat) :
    TarjanInv succs roots (s.run succs fuel) := by
  induction fuel generalizing s with
  | zero => exact h
  | succ fuel ih =>
      unfold TarjanState.run
      split
      · exact h
      · exact ih h.step

/-- When the search is over, every node seen is in a component. -/
theorem sccStack_eq_nil (h : TarjanInv succs roots s) (hs : s.dfs.stack = []) :
    s.sccStack = [] := by
  refine List.eq_nil_iff_forall_not_mem.mpr (fun v hv => ?_)
  induction hk : s.dfs.pre v using Nat.strong_induction_on generalizing v with
  | _ k ih =>
      subst hk
      have hc := ((h.dfs.mem_opened v).mp (h.mem_opened_of_stack hv)).resolve_right
        (by simp [DfsState.openNodes, hs])
      obtain ⟨u, hu, hpu, _⟩ := h.low_reach v hv
      have hlt := h.low_lt v hv hc
      exact ih _ (by omega) u hu rfl

end TarjanInv

/-! ## The components -/

/-- `Cs` are the strongly connected components of the nodes they list, in topological order. -/
structure AreSccs (succs : α → List α) (Cs : List (List α)) : Prop where
  nodup : Cs.flatten.Nodup
  nonempty : ∀ C ∈ Cs, C ≠ []
  connected : ∀ C ∈ Cs, ∀ u ∈ C, ∀ v ∈ C, Reach (DfsInv.Edge succs) u v
  topo : TopoSorted succs Cs

namespace TopoSorted

variable {succs : α → List α} {Cs : List (List α)} {u v : α} {C : List α}

omit [DecidableEq α] in
/-- Everything reached is listed. -/
theorem mem_of_reach (h : TopoSorted succs Cs) (hu : u ∈ Cs.flatten)
    (huv : Reach (DfsInv.Edge succs) u v) : v ∈ Cs.flatten := by
  refine huv.closed hu (fun x y hx hxy => ?_)
  clear huv hu
  induction Cs with
  | nil => exact absurd hx (by simp)
  | cons C Cs ih =>
      rw [List.flatten_cons, List.mem_append] at hx ⊢
      rcases hx with hx | hx
      · exact h.1 x hx y hxy
      · exact Or.inr (ih h.2 hx)

omit [DecidableEq α] in
/-- Every node reaches a component that no edge leaves. -/
theorem exists_sink (h : TopoSorted succs Cs) (hne : ∀ C ∈ Cs, C ≠ []) (hu : u ∈ Cs.flatten)
    (hconn : ∀ C ∈ Cs, ∀ x ∈ C, ∀ y ∈ C, Reach (DfsInv.Edge succs) x y) :
    ∃ C ∈ Cs, (∀ x ∈ C, ∀ y ∈ succs x, y ∈ C) ∧ ∀ v ∈ C, Reach (DfsInv.Edge succs) u v := by
  induction Cs generalizing u with
  | nil => exact absurd hu (by simp)
  | cons C Cs ih =>
      have hrest : ∀ {v}, v ∈ Cs.flatten → Reach (DfsInv.Edge succs) u v →
          ∃ C' ∈ C :: Cs, (∀ x ∈ C', ∀ y ∈ succs x, y ∈ C') ∧
            ∀ w ∈ C', Reach (DfsInv.Edge succs) u w := by
        intro v hv huv
        obtain ⟨C', hC', hsink, hreach⟩ := ih h.2
          (fun D hD => hne D (List.mem_cons_of_mem _ hD)) hv
          (fun D hD => hconn D (List.mem_cons_of_mem _ hD))
        exact ⟨C', List.mem_cons_of_mem _ hC', hsink, fun w hw => huv.trans (hreach w hw)⟩
      rw [List.flatten_cons, List.mem_append] at hu
      rcases hu with hu | hu
      · by_cases hout : ∃ x ∈ C, ∃ y ∈ succs x, y ∉ C
        · obtain ⟨x, hx, y, hy, hyC⟩ := hout
          have hux := hconn C List.mem_cons_self u hu x hx
          exact hrest ((h.1 x hx y hy).resolve_left hyC) (hux.tail hy)
        · push Not at hout
          exact ⟨C, List.mem_cons_self, hout, hconn C List.mem_cons_self u hu⟩
      · exact hrest hu (Reach.refl u)

omit [DecidableEq α] in
/-- Nothing is reached in a component earlier in the list. -/
theorem le_of_reach (h : TopoSorted succs Cs) (hnodup : Cs.flatten.Nodup) {D : List α} {i j : Nat}
    (hi : Cs[i]? = some C) (hj : Cs[j]? = some D) (hu : u ∈ C) (hv : v ∈ D)
    (huv : Reach (DfsInv.Edge succs) u v) : i ≤ j := by
  induction Cs generalizing i j with
  | nil => exact absurd hi (by simp)
  | cons B Cs ih =>
      rw [List.flatten_cons, List.nodup_append] at hnodup
      match i, j with
      | 0, _ => exact Nat.zero_le _
      | i + 1, j + 1 =>
          rw [List.getElem?_cons_succ] at hi hj
          exact Nat.succ_le_succ (ih h.2 hnodup.2.1 hi hj)
      | i + 1, 0 =>
          -- the later components are closed under reachability, so `v` is listed twice
          rw [List.getElem?_cons_succ] at hi
          rw [List.getElem?_cons_zero, Option.some.injEq] at hj
          have hmem : u ∈ Cs.flatten := List.mem_flatten.mpr ⟨C, List.mem_of_getElem? hi, hu⟩
          have hlater : v ∈ Cs.flatten := h.2.mem_of_reach hmem huv
          exact absurd rfl (hnodup.2.2 v (hj ▸ hv) v hlater)

end TopoSorted

namespace AreSccs

variable {succs : α → List α} {Cs : List (List α)} {u v : α} {C : List α}

omit [DecidableEq α] in
/-- Components with nodes that reach each other are one component. -/
theorem eq_of_reach (h : AreSccs succs Cs) {D : List α} (hC : C ∈ Cs) (hD : D ∈ Cs)
    (hu : u ∈ C) (hv : v ∈ D) (huv : Reach (DfsInv.Edge succs) u v)
    (hvu : Reach (DfsInv.Edge succs) v u) : C = D := by
  obtain ⟨i, hi⟩ := List.getElem?_of_mem hC
  obtain ⟨j, hj⟩ := List.getElem?_of_mem hD
  have hij : i ≤ j := h.topo.le_of_reach h.nodup hi hj hu hv huv
  have hji : j ≤ i := h.topo.le_of_reach h.nodup hj hi hv hu hvu
  rw [Nat.le_antisymm hij hji] at hi
  exact Option.some.inj (hi.symm.trans hj)

omit [DecidableEq α] in
/-- Two listed nodes share a component when each reaches the other. -/
theorem same_iff (h : AreSccs succs Cs) (hu : u ∈ Cs.flatten) (hv : v ∈ Cs.flatten) :
    (∃ C ∈ Cs, u ∈ C ∧ v ∈ C) ↔
      Reach (DfsInv.Edge succs) u v ∧ Reach (DfsInv.Edge succs) v u := by
  constructor
  · rintro ⟨C, hC, huC, hvC⟩
    exact ⟨h.connected C hC u huC v hvC, h.connected C hC v hvC u huC⟩
  · intro ⟨huv, hvu⟩
    obtain ⟨C, hC, huC⟩ := List.mem_flatten.mp hu
    obtain ⟨D, hD, hvD⟩ := List.mem_flatten.mp hv
    have hCD : C = D := h.eq_of_reach hC hD huC hvD huv hvu
    exact ⟨C, hC, huC, hCD ▸ hvD⟩

omit [DecidableEq α] in
/-- A component of one node has a cycle through that node only if it is a self loop. -/
theorem self_loop_of_transGen (h : AreSccs succs Cs) (hC : C ∈ Cs) (hu : u ∈ C)
    (hlen : C.length ≤ 1) (hcycle : Relation.TransGen (DfsInv.Edge succs) u u) :
    DfsInv.Edge succs u u := by
  obtain ⟨w, huw, hwu⟩ := Relation.TransGen.head'_iff.mp hcycle
  have hu' : u ∈ Cs.flatten := List.mem_flatten.mpr ⟨C, hC, hu⟩
  have hreach : Reach (DfsInv.Edge succs) u w := (Reach.refl u).tail huw
  obtain ⟨D, hD, hwD⟩ := List.mem_flatten.mp (h.topo.mem_of_reach hu' hreach)
  have hwC : w ∈ C := by
    rw [h.eq_of_reach hC hD hu hwD hreach hwu]
    exact hwD
  have heq : w = u := by
    match C, hlen with
    | [a], _ =>
        rw [List.mem_singleton] at hu hwC
        rw [hwC, hu]
    | [], _ => exact absurd hu List.not_mem_nil
  rw [heq] at huw
  exact huw

end AreSccs

theorem TarjanInv.areSccs {succs : α → List α} {roots : List α} {s : TarjanState α}
    (h : TarjanInv succs roots s) (hs : s.dfs.stack = []) : AreSccs succs s.sccs where
  nodup := by
    have hnodup := h.nodup
    rwa [h.sccStack_eq_nil hs, List.nil_append] at hnodup
  nonempty := h.nonempty
  connected := h.connected
  topo := h.topo

end Pliron.Lib
