/-
  Pliron.Lib.Dfs

  Iterative depth-first search as a state machine, and its invariant.

  The state is the explicit stack of (node, index of the next successor) pairs
  together with the nodes opened so far and the nodes closed so far, in the
  order in which that happened.  The position of a node in the two lists is its
  pre-order and its post-order number.  Programs that keep counters, maps of
  numbers or a set of seen nodes instead refine this machine.

  `Encloses s u v` says that `v` was opened while `u` was open.  Once both nodes
  are open it never changes again, which is what makes the invariant short: a
  step only has to account for the node it opens or closes.
-/

import Pliron.Lib.DfsOrder

namespace Pliron.Lib

variable {α : Type*} [DecidableEq α]

/-- The state of an iterative depth-first search. -/
structure DfsState (α : Type*) where
  stack : List (α × Nat)
  opened : List α
  closed : List α

namespace DfsState

variable (succs : α → List α) (s : DfsState α)

/-- One iteration: look at the next successor of the top node, or close it. -/
def step : DfsState α :=
  match s.stack with
  | [] => s
  | (n, i) :: rest =>
      match (succs n)[i]? with
      | some v =>
          if v ∈ s.opened then { s with stack := (n, i + 1) :: rest }
          else { stack := (v, 0) :: (n, i + 1) :: rest, opened := s.opened ++ [v],
                 closed := s.closed }
      | none => { stack := rest, opened := s.opened, closed := s.closed ++ [n] }

/-- Iterate `step` until the stack is empty, at most `fuel` times. -/
def run : Nat → DfsState α → DfsState α
  | 0, s => s
  | fuel + 1, s => if s.stack = [] then s else run fuel (s.step succs)

/-- Start a search at `n` on top of what was seen before. -/
def push (n : α) : DfsState α :=
  { stack := [(n, 0)], opened := s.opened ++ [n], closed := s.closed }

/-- The pre-order number of a node. -/
def pre (n : α) : Nat := s.opened.idxOf n

/-- The post-order number of a node. -/
def post (n : α) : Nat := s.closed.idxOf n

/-- The nodes that are open: on the stack, the innermost first. -/
def openNodes : List α := s.stack.map Prod.fst

/-- `v` was opened while `u` was open (for nodes with `pre u ≤ pre v`). -/
def Encloses (u v : α) : Prop :=
  u ∈ s.openNodes ∨ (v ∈ s.closed ∧ s.post v ≤ s.post u)

/-- The number of steps still to be taken: one for each successor not looked at yet, and
    one for closing each node, over the nodes on the stack and those not opened. -/
def remaining (nodes : List α) : Nat :=
  (nodes.map (fun n => if n ∈ s.opened then 0 else (succs n).length + 1)).sum +
    (s.stack.map (fun p => (succs p.1).length - p.2 + 1)).sum

/-! ## The three kinds of step -/

variable {succs s} {n v : α} {i fuel : Nat} {rest : List (α × Nat)}

theorem step_seen (hs : s.stack = (n, i) :: rest) (hv : (succs n)[i]? = some v)
    (hmem : v ∈ s.opened) : s.step succs = { s with stack := (n, i + 1) :: rest } := by
  simp only [step, hs, hv, if_pos hmem]

theorem step_open (hs : s.stack = (n, i) :: rest) (hv : (succs n)[i]? = some v)
    (hmem : v ∉ s.opened) : s.step succs =
      { stack := (v, 0) :: (n, i + 1) :: rest, opened := s.opened ++ [v],
        closed := s.closed } := by
  simp only [step, hs, hv, if_neg hmem]

theorem step_close (hs : s.stack = (n, i) :: rest) (hv : (succs n)[i]? = none) :
    s.step succs = { stack := rest, opened := s.opened, closed := s.closed ++ [n] } := by
  simp only [step, hs, hv]

theorem step_nil (hs : s.stack = []) : s.step succs = s := by
  simp only [step, hs]

end DfsState

/-! ## Positions in a list that grows at its end -/

section Positions

variable {l : List α} {u v n : α}

theorem idxOf_snoc_of_mem (h : u ∈ l) : (l ++ [n]).idxOf u = l.idxOf u :=
  List.idxOf_append_of_mem h

theorem idxOf_snoc_self (h : n ∉ l) : (l ++ [n]).idxOf n = l.length := by
  rw [List.idxOf_append_of_notMem h]
  simp

theorem idxOf_lt_length_of_mem (h : u ∈ l) : l.idxOf u < l.length :=
  List.idxOf_lt_length_of_mem h

theorem eq_of_idxOf_eq (hu : u ∈ l) (h : l.idxOf u = l.idxOf v) : u = v :=
  (List.idxOf_inj hu).mp h

end Positions

namespace DfsState

variable {succs : α → List α} {s : DfsState α} {v : α}

/-! ## Termination -/

/-- Opening a node pays for its successors and for closing it. -/
theorem sum_opened_snoc_le (f : α → Nat) {opened nodes : List α} (hv : v ∈ nodes)
    (hvo : v ∉ opened) :
    (nodes.map (fun n => if n ∈ opened ++ [v] then 0 else f n)).sum + f v ≤
      (nodes.map (fun n => if n ∈ opened then 0 else f n)).sum := by
  have hmono : ∀ l : List α, (l.map (fun n => if n ∈ opened ++ [v] then 0 else f n)).sum ≤
      (l.map (fun n => if n ∈ opened then 0 else f n)).sum := by
    intro l
    refine List.sum_le_sum (fun a _ => ?_)
    by_cases ha : a ∈ opened
    · simp [ha]
    · by_cases hav : a = v <;> simp [ha, hav]
  induction nodes with
  | nil => exact absurd hv List.not_mem_nil
  | cons a l ih =>
      simp only [List.map_cons, List.sum_cons]
      by_cases hav : a = v
      · have hl := hmono l
        simp only [hav, List.mem_append, List.mem_singleton, or_true, if_true, if_neg hvo] at hl ⊢
        omega
      · have hl := ih ((List.mem_cons.mp hv).resolve_left (Ne.symm hav))
        have ha : a ∈ opened ++ [v] ↔ a ∈ opened := by simp [hav]
        simp only [ha]
        omega

/-- Nothing that was opened is forgotten. -/
theorem mem_opened_step (hv : v ∈ s.opened) : v ∈ (s.step succs).opened := by
  unfold step
  split
  · exact hv
  · split
    · split
      · exact hv
      · exact List.mem_append_left _ hv
    · exact hv

theorem mem_opened_run (fuel : Nat) (hv : v ∈ s.opened) : v ∈ (s.run succs fuel).opened := by
  induction fuel generalizing s with
  | zero => exact hv
  | succ fuel ih =>
      unfold run
      split
      · exact hv
      · exact ih (mem_opened_step hv)

/-- The stack stays inside a set of nodes closed under successors. -/
theorem step_stack_mem {nodes : List α} (hclosed : ∀ n ∈ nodes, ∀ v ∈ succs n, v ∈ nodes)
    (hmem : ∀ p ∈ s.stack, p.1 ∈ nodes) : ∀ p ∈ (s.step succs).stack, p.1 ∈ nodes := by
  unfold step
  match hstack : s.stack with
  | [] =>
      intro p hp
      exact hmem p (hstack ▸ hp)
  | (n, i) :: rest =>
      have hn : n ∈ nodes := hmem (n, i) (by simp [hstack])
      have hrest : ∀ p ∈ rest, p.1 ∈ nodes := fun p hp => hmem p (by simp [hstack, hp])
      match hv : (succs n)[i]? with
      | some v =>
          have hvn := hclosed n hn v (List.mem_of_getElem? hv)
          simp only [hv]
          split <;> simpa [hn, hvn] using hrest
      | none =>
          simpa [hv] using hrest

/-- Every step uses up one unit of the remaining work. -/
theorem remaining_step {nodes : List α} (hclosed : ∀ n ∈ nodes, ∀ v ∈ succs n, v ∈ nodes)
    (hmem : ∀ p ∈ s.stack, p.1 ∈ nodes) (hs : s.stack ≠ []) :
    (s.step succs).remaining succs nodes < s.remaining succs nodes := by
  match hstack : s.stack with
  | [] => exact absurd hstack hs
  | (n, i) :: rest =>
      match hv : (succs n)[i]? with
      | some v =>
          have hi : i < (succs n).length := (List.getElem?_eq_some_iff.mp hv).1
          by_cases hvo : v ∈ s.opened
          · rw [step_seen hstack hv hvo]
            simp only [remaining, hstack, List.map_cons, List.sum_cons]
            omega
          · rw [step_open hstack hv hvo]
            have hle := sum_opened_snoc_le (fun n => (succs n).length + 1)
              (hclosed n (hmem (n, i) (by simp [hstack])) v (List.mem_of_getElem? hv)) hvo
            simp only [remaining, hstack, List.map_cons, List.sum_cons] at hle ⊢
            omega
      | none =>
          rw [step_close hstack hv]
          simp only [remaining, hstack, List.map_cons, List.sum_cons]
          omega

/-- With enough fuel the search ends with an empty stack. -/
theorem run_stack {nodes : List α} {fuel : Nat}
    (hclosed : ∀ n ∈ nodes, ∀ v ∈ succs n, v ∈ nodes) (hmem : ∀ p ∈ s.stack, p.1 ∈ nodes)
    (hfuel : s.remaining succs nodes ≤ fuel) : (s.run succs fuel).stack = [] := by
  induction fuel generalizing s with
  | zero =>
      by_contra hs
      have hlt := remaining_step (s := s) hclosed hmem hs
      omega
  | succ fuel ih =>
      unfold run
      split
      · next hs => exact hs
      · next hs =>
          have hlt := remaining_step hclosed hmem hs
          exact ih (step_stack_mem hclosed hmem) (by omega)

/-- Starting at a node that was not opened takes no more than the edges and nodes left. -/
theorem remaining_push_le {nodes : List α} (hv : v ∈ nodes)
    (hvo : v ∉ s.opened) :
    (s.push v).remaining succs nodes ≤ (nodes.map (fun n => (succs n).length + 1)).sum := by
  have hle := sum_opened_snoc_le (fun n => (succs n).length + 1) hv hvo
  have hall : (nodes.map (fun n => if n ∈ s.opened then 0 else (succs n).length + 1)).sum ≤
      (nodes.map (fun n => (succs n).length + 1)).sum := by
    refine List.sum_le_sum (fun n _ => ?_)
    split <;> omega
  have heq : (s.push v).remaining succs nodes =
      (nodes.map (fun n => if n ∈ s.opened ++ [v] then 0 else (succs n).length + 1)).sum +
        ((succs v).length + 1) := rfl
  omega

end DfsState

/-! ## The invariant -/

/-- What holds between two steps of a depth-first search started at each of `roots`. -/
structure DfsInv (succs : α → List α) (roots : List α) (s : DfsState α) : Prop where
  opened_nodup : s.opened.Nodup
  closed_nodup : s.closed.Nodup
  mem_opened : ∀ v, v ∈ s.opened ↔ v ∈ s.closed ∨ v ∈ s.openNodes
  not_closed : ∀ v ∈ s.openNodes, v ∉ s.closed
  sorted : s.openNodes.Pairwise (fun u v => s.pre v < s.pre u)
  visited : ∀ n i, (n, i) ∈ s.stack → ∀ j < i, ∀ v, (succs n)[j]? = some v → v ∈ s.opened
  closed_succs : ∀ u ∈ s.closed, ∀ v ∈ succs u, v ∈ s.opened
  edge : ∀ u ∈ s.closed, ∀ v ∈ succs u, s.pre u < s.pre v →
    v ∈ s.closed ∧ s.post v < s.post u
  nest : ∀ u ∈ s.opened, ∀ v ∈ s.opened, ∀ w ∈ s.opened,
    s.pre u < s.pre v → ¬ s.Encloses u v → s.pre v ≤ s.pre w → ¬ s.Encloses u w
  parent : ∀ v ∈ s.opened, v ∉ roots → ∃ p ∈ s.opened, v ∈ succs p ∧
    s.pre p < s.pre v ∧ s.Encloses p v ∧
    ∀ u ∈ s.opened, s.pre u < s.pre v → s.Encloses u v → s.pre u ≤ s.pre p ∧ s.Encloses u p

namespace DfsInv

variable {succs : α → List α} {roots : List α} {s : DfsState α} {n u v w r : α} {i : Nat}
  {rest : List (α × Nat)}

theorem mem_opened_of_open (h : DfsInv succs roots s) (hu : u ∈ s.openNodes) : u ∈ s.opened :=
  (h.mem_opened u).mpr (Or.inr hu)

theorem mem_opened_of_closed (h : DfsInv succs roots s) (hu : u ∈ s.closed) : u ∈ s.opened :=
  (h.mem_opened u).mpr (Or.inl hu)

/-- The top of the stack was opened last among the open nodes. -/
theorem pre_le_top (h : DfsInv succs roots s) (hs : s.stack = (n, i) :: rest)
    (hu : u ∈ s.openNodes) : s.pre u ≤ s.pre n := by
  have hsorted := h.sorted
  simp only [DfsState.openNodes, hs, List.map_cons, List.pairwise_cons, List.mem_cons] at hsorted hu
  rcases hu with rfl | hu
  · exact Nat.le_refl _
  · exact Nat.le_of_lt (hsorted.1 u hu)

/-- What was opened after the top of the stack is closed. -/
theorem closed_of_top_lt (h : DfsInv succs roots s) (hs : s.stack = (n, i) :: rest)
    (hv : v ∈ s.opened) (hlt : s.pre n < s.pre v) : v ∈ s.closed := by
  rcases (h.mem_opened v).mp hv with hc | ho
  · exact hc
  · exact absurd (h.pre_le_top hs ho) (Nat.not_le_of_lt hlt)

/-- The start of a search: nothing seen yet. -/
theorem empty : DfsInv succs [] (⟨[], [], []⟩ : DfsState α) := by
  constructor <;> simp [DfsState.openNodes]

/-! ## Each step keeps the invariant -/

/-- Only the nodes on the stack, and which of their successors were looked at, matter. -/
theorem of_stack (h : DfsInv succs roots s) (stack : List (α × Nat))
    (hmap : stack.map Prod.fst = s.openNodes)
    (hvis : ∀ n i, (n, i) ∈ stack → ∀ j < i, ∀ v, (succs n)[j]? = some v → v ∈ s.opened) :
    DfsInv succs roots { s with stack := stack } := by
  have hopen : DfsState.openNodes { s with stack := stack } = s.openNodes := hmap
  have henc : ∀ u w, DfsState.Encloses { s with stack := stack } u w ↔ s.Encloses u w := by
    intro u w
    simp only [DfsState.Encloses, hopen, DfsState.post]
  refine ⟨h.opened_nodup, h.closed_nodup, ?_, ?_, ?_, hvis, h.closed_succs, h.edge, ?_, ?_⟩
  · intro w
    rw [hopen]
    exact h.mem_opened w
  · rw [hopen]
    exact h.not_closed
  · rw [hopen]
    exact h.sorted
  · intro a ha b hb c hc hab hnot hbc
    rw [henc] at hnot ⊢
    exact h.nest a ha b hb c hc hab hnot hbc
  · intro b hb hroot
    obtain ⟨p, hp, hpb, hpre, hpenc, hinner⟩ := h.parent b hb hroot
    refine ⟨p, hp, hpb, hpre, (henc p b).mpr hpenc, fun a ha hab haenc => ?_⟩
    rw [henc] at haenc ⊢
    exact hinner a ha hab haenc

/-- Opening a node: a root, or a successor of the top of the stack. -/
theorem open_node (h : DfsInv succs roots s) (hv : v ∉ s.opened)
    (hpar : v ∈ roots ∨ ∃ n i rest, s.stack = (n, i) :: rest ∧ v ∈ succs n) :
    DfsInv succs roots
      { stack := (v, 0) :: s.stack, opened := s.opened ++ [v], closed := s.closed } := by
  set s' : DfsState α :=
    { stack := (v, 0) :: s.stack, opened := s.opened ++ [v], closed := s.closed } with hs'
  have hopen : s'.openNodes = v :: s.openNodes := rfl
  have hpre : ∀ {u}, u ∈ s.opened → s'.pre u = s.pre u := fun hu => idxOf_snoc_of_mem hu
  have hprev : s'.pre v = s.opened.length := idxOf_snoc_self hv
  have hlt : ∀ {u}, u ∈ s.opened → s'.pre u < s'.pre v := fun hu => by
    rw [hpre hu, hprev]
    exact idxOf_lt_length_of_mem hu
  have hmem : ∀ {u}, u ∈ s'.opened → u ∈ s.opened ∨ u = v := fun hu => by
    simpa [hs'] using hu
  have hvc : v ∉ s.closed := fun hc => hv (h.mem_opened_of_closed hc)
  -- what an old node encloses does not change
  have henc : ∀ {u w}, u ∈ s.opened → (s'.Encloses u w ↔ s.Encloses u w) := by
    intro u w hu
    have huv : u ≠ v := fun heq => hv (heq ▸ hu)
    have huo : u ∈ s'.openNodes ↔ u ∈ s.openNodes := by simp [hopen, huv]
    exact or_congr huo Iff.rfl
  refine ⟨?_, h.closed_nodup, ?_, ?_, ?_, ?_, ?_, ?_, ?_, ?_⟩
  · exact List.nodup_append.mpr ⟨h.opened_nodup, List.nodup_singleton v, by
      intro a ha b hb heq
      exact hv (List.mem_singleton.mp hb ▸ heq ▸ ha)⟩
  · intro u
    rw [hopen, List.mem_cons]
    simp only [hs', List.mem_append, List.mem_singleton, h.mem_opened u]
    tauto
  · intro u hu
    rw [hopen, List.mem_cons] at hu
    rcases hu with rfl | hu
    · exact hvc
    · exact h.not_closed u hu
  · rw [hopen, List.pairwise_cons]
    refine ⟨fun u hu => hlt (h.mem_opened_of_open hu), ?_⟩
    refine h.sorted.imp_of_mem (fun {a b} ha hb hab => ?_)
    rw [hpre (h.mem_opened_of_open ha), hpre (h.mem_opened_of_open hb)]
    exact hab
  · intro m k hm j hj w hw
    -- no successor of `v` has been looked at
    rcases List.mem_cons.mp hm with heq | hm
    · obtain ⟨rfl, rfl⟩ := Prod.mk.inj heq
      exact absurd hj (Nat.not_lt_zero j)
    · exact List.mem_append_left _ (h.visited m k hm j hj w hw)
  · intro u hu w hw
    exact List.mem_append_left _ (h.closed_succs u hu w hw)
  · intro u hu w hw huw
    have hw' := h.closed_succs u hu w hw
    rw [hpre (h.mem_opened_of_closed hu), hpre hw'] at huw
    exact h.edge u hu w hw huw
  · intro a ha b hb c hc hab hnot hbc
    -- `v` is last in pre-order, so only the outer node `c` can be `v`
    rcases hmem hb with hbo | rfl
    · rcases hmem ha with hao | rfl
      · rw [henc hao] at hnot ⊢
        rcases hmem hc with hco | rfl
        · rw [hpre hao, hpre hbo] at hab
          rw [hpre hbo, hpre hco] at hbc
          exact h.nest a hao b hbo c hco hab hnot hbc
        · exact fun hac => hnot (Or.inl (hac.resolve_right (fun hc => hvc hc.1)))
      · exact absurd (hlt hbo) (Nat.not_lt_of_lt hab)
    · rcases hmem hc with hco | rfl
      · exact absurd (hlt hco) (Nat.not_lt_of_le hbc)
      · exact hnot
  · intro b hb hroot
    rcases hmem hb with hbo | rfl
    · obtain ⟨p, hp, hpb, hpp, hpenc, hinner⟩ := h.parent b hbo hroot
      refine ⟨p, List.mem_append_left _ hp, hpb, ?_, (henc hp).mpr hpenc, ?_⟩
      · rw [hpre hp, hpre hbo]
        exact hpp
      · intro a ha hab haenc
        rcases hmem ha with hao | rfl
        · rw [henc hao] at haenc ⊢
          rw [hpre hao, hpre hbo] at hab
          rw [hpre hao, hpre hp]
          exact hinner a hao hab haenc
        · exact absurd (hlt hbo) (Nat.not_lt_of_lt hab)
    · -- the parent of `v` is the top of the stack, the innermost open node
      obtain ⟨p, i, rest, hstack, hbp⟩ := hpar.resolve_left hroot
      have hpo : p ∈ s.openNodes := by
        simp [DfsState.openNodes, hstack]
      have hp := h.mem_opened_of_open hpo
      refine ⟨p, List.mem_append_left _ hp, hbp, hlt hp, (henc hp).mpr (Or.inl hpo), ?_⟩
      intro a ha hab haenc
      rcases hmem ha with hao | rfl
      · rw [henc hao] at haenc ⊢
        have hopened : a ∈ s.openNodes := haenc.resolve_right (fun hc => hvc hc.1)
        rw [hpre hao, hpre hp]
        exact ⟨h.pre_le_top hstack hopened, Or.inl hopened⟩
      · exact absurd hab (Nat.lt_irrefl _)

/-- Whether `u` encloses `w` is settled when `w` is opened: closing a node leaves it as it is. -/
theorem encloses_close (h : DfsInv succs roots s) (hs : s.stack = (n, i) :: rest)
    (hu : u ∈ s.opened) (hw : w ∈ s.opened) (huw : s.pre u ≤ s.pre w) :
    DfsState.Encloses { stack := rest, opened := s.opened, closed := s.closed ++ [n] } u w ↔
      s.Encloses u w := by
  set s' : DfsState α := { stack := rest, opened := s.opened, closed := s.closed ++ [n] } with hs'
  have hopen : s.openNodes = n :: s'.openNodes := by
    simp only [DfsState.openNodes, hs, List.map_cons, hs']
  have hn : n ∉ s.closed := h.not_closed n (hopen ▸ List.mem_cons_self)
  have hpost : ∀ {u}, u ∈ s.closed → s'.post u = s.post u := fun hu => idxOf_snoc_of_mem hu
  have hpostlt : ∀ {u}, u ∈ s.closed → s'.post u < s'.post n := fun hu => by
    have hpostn : s'.post n = s.closed.length := idxOf_snoc_self hn
    rw [hpost hu, hpostn]
    exact idxOf_lt_length_of_mem hu
  rcases (h.mem_opened u).mp hu with huc | huo
  · have huo : u ∉ s.openNodes := fun ho => h.not_closed u ho huc
    have huo' : u ∉ s'.openNodes := fun ho => huo (hopen ▸ List.mem_cons_of_mem _ ho)
    simp only [DfsState.Encloses, huo, huo', false_or]
    constructor
    · rintro ⟨hwc, hle⟩
      rcases List.mem_append.mp hwc with hwc | hwn
      · rw [hpost hwc, hpost huc] at hle
        exact ⟨hwc, hle⟩
      · rw [List.mem_singleton.mp hwn] at hle
        exact absurd (hpostlt huc) (Nat.not_lt_of_le hle)
    · rintro ⟨hwc, hle⟩
      exact ⟨List.mem_append_left _ hwc, by rw [hpost hwc, hpost huc]; exact hle⟩
  · refine iff_of_true ?_ (Or.inl huo)
    rw [hopen, List.mem_cons] at huo
    rcases huo with rfl | huo
    · rcases Nat.lt_or_eq_of_le huw with hlt | heq
      · have hwc := h.closed_of_top_lt hs hw hlt
        exact Or.inr ⟨List.mem_append_left _ hwc, Nat.le_of_lt (hpostlt hwc)⟩
      · rw [← eq_of_idxOf_eq hu heq]
        exact Or.inr ⟨List.mem_append_right _ (List.mem_singleton_self u), Nat.le_refl _⟩
    · exact Or.inl huo

/-- Closing the top of the stack once all its successors were looked at. -/
theorem close_node (h : DfsInv succs roots s) (hs : s.stack = (n, i) :: rest)
    (hi : (succs n)[i]? = none) :
    DfsInv succs roots { stack := rest, opened := s.opened, closed := s.closed ++ [n] } := by
  set s' : DfsState α := { stack := rest, opened := s.opened, closed := s.closed ++ [n] } with hs'
  have hopen : s.openNodes = n :: s'.openNodes := by
    simp only [DfsState.openNodes, hs, List.map_cons, hs']
  have hno : n ∈ s.openNodes := hopen ▸ List.mem_cons_self
  have hn : n ∉ s.closed := h.not_closed n hno
  have hsorted := h.sorted
  rw [hopen, List.pairwise_cons] at hsorted
  have hnrest : n ∉ s'.openNodes := fun hm => absurd (hsorted.1 n hm) (Nat.lt_irrefl _)
  have hpost : ∀ {u}, u ∈ s.closed → s'.post u = s.post u := fun hu => idxOf_snoc_of_mem hu
  have hpostn : s'.post n = s.closed.length := idxOf_snoc_self hn
  have hpostlt : ∀ {u}, u ∈ s.closed → s'.post u < s'.post n := fun hu => by
    rw [hpost hu, hpostn]
    exact idxOf_lt_length_of_mem hu
  -- all successors of the node have been opened
  have hsucc : ∀ v ∈ succs n, v ∈ s.opened := by
    intro v hv
    obtain ⟨j, hj, hjv⟩ := List.getElem_of_mem hv
    have hji : j < i := Nat.lt_of_lt_of_le hj (List.getElem?_eq_none_iff.mp hi)
    exact h.visited n i (by simp [hs]) j hji v (hjv ▸ List.getElem?_eq_getElem hj)
  have henc : ∀ {u w}, u ∈ s.opened → w ∈ s.opened → s.pre u ≤ s.pre w →
      (s'.Encloses u w ↔ s.Encloses u w) := fun hu hw huw => h.encloses_close hs hu hw huw
  refine ⟨h.opened_nodup, ?_, ?_, ?_, hsorted.2, ?_, ?_, ?_, ?_, ?_⟩
  · exact List.nodup_append.mpr ⟨h.closed_nodup, List.nodup_singleton n, by
      intro a ha b hb heq
      exact hn (List.mem_singleton.mp hb ▸ heq ▸ ha)⟩
  · intro u
    rw [h.mem_opened u, hopen, List.mem_cons]
    simp only [hs', List.mem_append, List.mem_singleton]
    tauto
  · intro u hu hc
    rcases List.mem_append.mp hc with hc | hc
    · exact h.not_closed u (hopen ▸ List.mem_cons_of_mem _ hu) hc
    · exact hnrest (List.mem_singleton.mp hc ▸ hu)
  · intro m k hm j hj w hw
    exact h.visited m k (hs ▸ List.mem_cons_of_mem _ hm) j hj w hw
  · intro u hu w hw
    rcases List.mem_append.mp hu with hu | hu
    · exact h.closed_succs u hu w hw
    · exact hsucc w (List.mem_singleton.mp hu ▸ hw)
  · intro u hu w hw huw
    rcases List.mem_append.mp hu with hu | hu
    · obtain ⟨hwc, hlt⟩ := h.edge u hu w hw huw
      exact ⟨List.mem_append_left _ hwc, by rw [hpost hwc, hpost hu]; exact hlt⟩
    · obtain rfl := List.mem_singleton.mp hu
      -- a later successor of the top is closed already
      have hwc := h.closed_of_top_lt hs (hsucc w hw) huw
      exact ⟨List.mem_append_left _ hwc, hpostlt hwc⟩
  · intro a ha b hb c hc hab hnot hbc
    rw [henc ha hb (Nat.le_of_lt hab)] at hnot
    rw [henc ha hc (Nat.le_trans (Nat.le_of_lt hab) hbc)]
    exact h.nest a ha b hb c hc hab hnot hbc
  · intro b hb hroot
    obtain ⟨p, hp, hpb, hpre, hpenc, hinner⟩ := h.parent b hb hroot
    refine ⟨p, hp, hpb, hpre, (henc hp hb (Nat.le_of_lt hpre)).mpr hpenc, ?_⟩
    intro a ha hab haenc
    rw [henc ha hb (Nat.le_of_lt hab)] at haenc
    obtain ⟨hap, hapenc⟩ := hinner a ha hab haenc
    exact ⟨hap, (henc ha hp hap).mpr hapenc⟩

/-- Every step keeps the invariant. -/
theorem step (h : DfsInv succs roots s) : DfsInv succs roots (s.step succs) := by
  match hs : s.stack with
  | [] =>
      rw [DfsState.step_nil hs]
      exact h
  | (n, i) :: rest =>
      have hbump : ∀ {s' : DfsState α}, DfsInv succs roots s' →
          ∀ front, s'.stack = front ++ (n, i) :: rest →
          (∀ v, (succs n)[i]? = some v → v ∈ s'.opened) →
          DfsInv succs roots { s' with stack := front ++ (n, i + 1) :: rest } := by
        intro s' h' front hs' hseen
        refine h'.of_stack _ (by simp [DfsState.openNodes, hs']) ?_
        intro m k hm j hj w hw
        rcases List.mem_append.mp hm with hm | hm
        · exact h'.visited m k (by rw [hs']; exact List.mem_append_left _ hm) j hj w hw
        · rcases List.mem_cons.mp hm with heq | hm
          · obtain ⟨rfl, rfl⟩ := Prod.mk.inj heq
            rcases Nat.lt_succ_iff_lt_or_eq.mp hj with hlt | rfl
            · exact h'.visited m i (by simp [hs']) j hlt w hw
            · exact hseen w hw
          · exact h'.visited m k (by simp [hs', hm]) j hj w hw
      match hv : (succs n)[i]? with
      | some v =>
          by_cases hmem : v ∈ s.opened
          · rw [DfsState.step_seen hs hv hmem]
            exact hbump h [] hs (fun w hw => Option.some.inj (hv.symm.trans hw) ▸ hmem)
          · rw [DfsState.step_open hs hv hmem]
            have hopen := h.open_node hmem
              (Or.inr ⟨n, i, rest, hs, List.mem_of_getElem? hv⟩)
            refine hbump hopen [(v, 0)] (by simp [hs]) (fun w hw => ?_)
            exact List.mem_append_right _ (by simp [Option.some.inj (hv.symm.trans hw)])
      | none =>
          rw [DfsState.step_close hs hv]
          exact h.close_node hs hv

theorem run (h : DfsInv succs roots s) (fuel : Nat) : DfsInv succs roots (s.run succs fuel) := by
  induction fuel generalizing s with
  | zero => exact h
  | succ fuel ih =>
      unfold DfsState.run
      split
      · exact h
      · exact ih h.step

/-- Starting a search at a node not seen yet makes it a root. -/
theorem push (h : DfsInv succs roots s) (hs : s.stack = []) (hr : r ∉ s.opened) :
    DfsInv succs (r :: roots) (s.push r) := by
  have h' : DfsInv succs (r :: roots) s :=
    { h with parent := fun v hv hroot => h.parent v hv (fun hm => hroot (List.mem_cons_of_mem _ hm)) }
  have hopen := h'.open_node hr (Or.inl List.mem_cons_self)
  rw [hs] at hopen
  exact hopen

/-! ## The finished search -/

/-- The edges of the graph given by successor lists. -/
def Edge (succs : α → List α) (u v : α) : Prop := v ∈ succs u

/-- What was opened is reachable from a root. -/
theorem reach_of_opened (h : DfsInv succs roots s) (hv : v ∈ s.opened) :
    ∃ r ∈ roots, Reach (Edge succs) r v := by
  induction hn : s.pre v using Nat.strong_induction_on generalizing v with
  | _ n ih =>
      subst hn
      by_cases hroot : v ∈ roots
      · exact ⟨v, hroot, Reach.refl v⟩
      · obtain ⟨p, hp, hpv, hlt, _⟩ := h.parent v hv hroot
        obtain ⟨r, hr, hrp⟩ := ih _ hlt hp rfl
        exact ⟨r, hr, hrp.tail hpv⟩

/-- What is reachable from a root was opened, once the stack is empty. -/
theorem opened_of_reach (h : DfsInv succs roots s) (hs : s.stack = []) (hr : r ∈ s.opened)
    (hrv : Reach (Edge succs) r v) : v ∈ s.opened := by
  refine hrv.closed hr (fun x y hx hxy => ?_)
  have hxc := ((h.mem_opened x).mp hx).resolve_right (by simp [DfsState.openNodes, hs])
  exact h.closed_succs x hxc y hxy

/-- The finished search numbers what is reachable from its root in depth-first order. -/
theorem isDfsOrder (h : DfsInv succs [r] s) (hs : s.stack = []) (hr : r ∈ s.opened) :
    IsDfsOrder (Edge succs) r s.pre s.post := by
  have hopen : s.openNodes = [] := by simp [DfsState.openNodes, hs]
  have hop : ∀ {v}, Reach (Edge succs) r v → v ∈ s.opened := fun hv =>
    h.opened_of_reach hs hr hv
  have hcl : ∀ {v}, Reach (Edge succs) r v → v ∈ s.closed := fun hv =>
    ((h.mem_opened _).mp (hop hv)).resolve_right (by simp [hopen])
  have hreach : ∀ {v}, v ∈ s.opened → Reach (Edge succs) r v := fun hv => by
    obtain ⟨r', hr', hrv⟩ := h.reach_of_opened hv
    exact List.mem_singleton.mp hr' ▸ hrv
  have henc : ∀ {u v}, Reach (Edge succs) r v → (s.Encloses u v ↔ s.post v ≤ s.post u) :=
    fun hv => by simp [DfsState.Encloses, hopen, hcl hv]
  have hpostinj : ∀ {u v}, Reach (Edge succs) r u → s.post u = s.post v → u = v :=
    fun hu heq => eq_of_idxOf_eq (hcl hu) heq
  refine ⟨fun hu _ heq => eq_of_idxOf_eq (hop hu) heq, fun hu _ heq => hpostinj hu heq,
    ?_, ?_, ?_, ?_⟩
  · intro u hu
    induction hn : s.pre u using Nat.strong_induction_on generalizing u with
    | _ n ih =>
        subst hn
        by_cases hur : u = r
        · rw [hur]
        · obtain ⟨p, hp, _, hlt, _⟩ := h.parent u (hop hu) (by simpa using hur)
          exact Nat.le_trans (ih _ hlt (hreach hp) rfl) (Nat.le_of_lt hlt)
  · intro u v hu huv hlt
    exact (h.edge u (hcl hu) v huv hlt).2
  · intro u v w hu hv hw huv hpost hvw
    have hnot : ¬ s.Encloses u v := fun henv =>
      absurd ((henc hv).mp henv) (Nat.not_le_of_lt hpost)
    have hnotw := h.nest u (hop hu) v (hop hv) w (hop hw) huv hnot hvw
    exact Nat.lt_of_not_le (fun hle => hnotw ((henc hw).mpr hle))
  · intro v hv hvr
    obtain ⟨p, hp, hpv, hlt, hpenc, hinner⟩ := h.parent v (hop hv) (by simpa using hvr)
    have hpr := hreach hp
    refine ⟨p, hpr, hpv, hlt, ?_, ?_⟩
    · refine lt_of_le_of_ne ((henc hv).mp hpenc) (fun heq => ?_)
      rw [hpostinj hv heq] at hlt
      exact Nat.lt_irrefl _ hlt
    · intro u hu huv hpost
      obtain ⟨hle, henu⟩ := hinner u (hop hu) huv ((henc hv).mpr (Nat.le_of_lt hpost))
      exact ⟨hle, (henc hpr).mp henu⟩

end DfsInv

end Pliron.Lib
