/-
  Pliron.Lib.DfsWalk

  Depth-first search written as a recursive walk, and the order it lists nodes in.

  `walk` appends what it finishes to a post-order; `depthFirstOrder` walks from each root in turn
  and lists each walk's nodes in reverse.  The main fact is about dominance: a node the root
  reaches is listed after all that dominate it.
-/

import Pliron.Lib.Dfs

namespace Pliron.Lib

open DfsInv (Edge)

variable {α : Type*}

/-! ## What a walk finds -/

/-- What was appended to the post-order by walking from `starts`. -/
structure Walked (succs : α → List α) (starts : List α) (visited : List α)
    (visited' found : List α) : Prop where
  mem_visited : ∀ x, x ∈ visited' ↔ x ∈ visited ∨ x ∈ found
  nodup : found.Nodup
  fresh : ∀ x ∈ found, x ∉ visited
  start_mem : ∀ x ∈ starts, x ∈ visited'
  succ_mem : ∀ x ∈ found, ∀ y ∈ succs x, y ∈ visited'
  reach : ∀ x ∈ found, ∃ r ∈ starts, Reach (Edge succs) r x
  /-- A node is reached by avoiding whatever did not finish after it. -/
  avoids : ∀ d l x l', found = l ++ x :: l' → d ∉ l' → d ≠ x →
    ∃ r ∈ starts, Avoids (Edge succs) d r x

namespace Walked

variable {succs : α → List α} {starts starts' visited visited' visited'' found found' : List α}
  {n : α}

theorem nil : Walked succs [] visited visited [] where
  mem_visited := fun x => by simp
  nodup := List.nodup_nil
  fresh := fun x hx => absurd hx List.not_mem_nil
  start_mem := fun x hx => absurd hx List.not_mem_nil
  succ_mem := fun x hx => absurd hx List.not_mem_nil
  reach := fun x hx => absurd hx List.not_mem_nil
  avoids := fun d l x l' h => absurd h (by simp)

theorem visited_mono (h : Walked succs starts visited visited' found) {x : α}
    (hx : x ∈ visited) : x ∈ visited' :=
  (h.mem_visited x).mpr (Or.inl hx)

/-- A start that was visited already adds nothing. -/
theorem skip (h : n ∈ visited) : Walked succs [n] visited visited [] where
  mem_visited := fun x => by simp
  nodup := List.nodup_nil
  fresh := fun x hx => absurd hx List.not_mem_nil
  start_mem := fun x hx => List.mem_singleton.mp hx ▸ h
  succ_mem := fun x hx => absurd hx List.not_mem_nil
  reach := fun x hx => absurd hx List.not_mem_nil
  avoids := fun d l x l' h => absurd h (by simp)

/-- One walk after the other. -/
theorem append (h : Walked succs starts visited visited' found)
    (h' : Walked succs starts' visited' visited'' found') :
    Walked succs (starts ++ starts') visited visited'' (found ++ found') where
  mem_visited := fun x => by
    rw [h'.mem_visited, h.mem_visited, List.mem_append, or_assoc]
  nodup := by
    apply List.Nodup.append h.nodup h'.nodup
    intro x hx hx'
    exact h'.fresh x hx' ((h.mem_visited x).mpr (Or.inr hx))
  fresh := fun x hx => by
    rcases List.mem_append.mp hx with hx | hx
    · exact h.fresh x hx
    · exact fun hv => h'.fresh x hx (h.visited_mono hv)
  start_mem := fun x hx => by
    rcases List.mem_append.mp hx with hx | hx
    · exact h'.visited_mono (h.start_mem x hx)
    · exact h'.start_mem x hx
  succ_mem := fun x hx y hy => by
    rcases List.mem_append.mp hx with hx | hx
    · exact h'.visited_mono (h.succ_mem x hx y hy)
    · exact h'.succ_mem x hx y hy
  reach := fun x hx => by
    rcases List.mem_append.mp hx with hx | hx
    · obtain ⟨r, hr, hrx⟩ := h.reach x hx
      exact ⟨r, List.mem_append_left _ hr, hrx⟩
    · obtain ⟨r, hr, hrx⟩ := h'.reach x hx
      exact ⟨r, List.mem_append_right _ hr, hrx⟩
  avoids := fun d l x l' hsplit hd hne => by
    rcases List.append_eq_append_iff.mp hsplit with ⟨m, hl, hm⟩ | ⟨m, hl, hm⟩
    · -- `x` was found by the second walk
      obtain ⟨r, hr, hrx⟩ := h'.avoids d m x l' hm hd hne
      exact ⟨r, List.mem_append_right _ hr, hrx⟩
    · cases m with
      | nil =>
          obtain ⟨r, hr, hrx⟩ := h'.avoids d [] x l' hm.symm hd hne
          exact ⟨r, List.mem_append_right _ hr, hrx⟩
      | cons y m =>
          obtain ⟨rfl, rfl⟩ := List.cons.inj hm
          obtain ⟨r, hr, hrx⟩ := h.avoids d l x m hl
            (fun hdm => hd (List.mem_append_left _ hdm)) hne
          exact ⟨r, List.mem_append_left _ hr, hrx⟩

/-- The walk from a node that was not visited: its successors' walks, then the node itself. -/
theorem finish (hn : n ∉ visited) (h : Walked succs (succs n) (n :: visited) visited' found) :
    Walked succs [n] visited visited' (found ++ [n]) where
  mem_visited := fun x => by
    rw [h.mem_visited, List.mem_cons, List.mem_append, List.mem_singleton]
    tauto
  nodup := by
    apply List.Nodup.append h.nodup (List.nodup_singleton n)
    intro x hx hxn
    exact h.fresh x hx (List.mem_singleton.mp hxn ▸ List.mem_cons_self)
  fresh := fun x hx => by
    rcases List.mem_append.mp hx with hx | hx
    · exact fun hv => h.fresh x hx (List.mem_cons_of_mem n hv)
    · exact List.mem_singleton.mp hx ▸ hn
  start_mem := fun x hx =>
    List.mem_singleton.mp hx ▸ h.visited_mono List.mem_cons_self
  succ_mem := fun x hx y hy => by
    rcases List.mem_append.mp hx with hx | hx
    · exact h.succ_mem x hx y hy
    · exact h.start_mem y (List.mem_singleton.mp hx ▸ hy)
  reach := fun x hx => by
    refine ⟨n, List.mem_singleton_self n, ?_⟩
    rcases List.mem_append.mp hx with hx | hx
    · obtain ⟨r, hr, hrx⟩ := h.reach x hx
      exact Reach.head hr hrx
    · obtain rfl := List.mem_singleton.mp hx
      exact Reach.refl x
  avoids := fun d l x l' hsplit hd hne => by
    refine ⟨n, List.mem_singleton_self n, ?_⟩
    rcases List.append_eq_append_iff.mp hsplit with ⟨m, hl, hm⟩ | ⟨m, hl, hm⟩
    · -- `x` is the node itself
      have hx : n = x := by
        cases m with
        | nil => exact (List.cons.inj hm).1
        | cons y m => exact absurd (List.cons.inj hm).2 (by simp)
      subst hx
      exact Avoids.refl (Ne.symm hne)
    · cases m with
      | nil =>
          obtain rfl : x = n := (List.cons.inj hm).1
          exact Avoids.refl (Ne.symm hne)
      | cons y m =>
          obtain ⟨rfl, rfl⟩ := List.cons.inj hm
          have hdn : n ≠ d := by
            rintro rfl
            exact hd (List.mem_append_right _ (List.mem_singleton_self n))
          obtain ⟨r, hr, hrx⟩ := h.avoids d l x m hl
            (fun hdm => hd (List.mem_append_left _ hdm)) hne
          exact Avoids.head hr hdn hrx

end Walked

/-- Between two roots, exactly the listed nodes are visited, and their successors are listed. -/
structure Listing (succs : α → List α) (s : List α × List α) : Prop where
  mem_iff : ∀ x, x ∈ s.1 ↔ x ∈ s.2
  nodup : s.2.Nodup
  succ_mem : ∀ x ∈ s.2, ∀ y ∈ succs x, y ∈ s.2

theorem Listing.empty {succs : α → List α} : Listing succs (([], []) : List α × List α) where
  mem_iff := fun _ => Iff.rfl
  nodup := List.nodup_nil
  succ_mem := fun _ hx => absurd hx List.not_mem_nil

/-! ## The walk -/

variable [DecidableEq α]

/-- Walk from a node: skip it when visited, else walk its successors and then append it.
    The state is the visited nodes and the post-order; fuel bounds the depth. -/
def walk (succs : α → List α) : Nat → α → List α × List α → List α × List α
  | 0, _, s => s
  | fuel + 1, n, s =>
      if n ∈ s.1 then s
      else
        let s' := (succs n).foldl (fun s c => walk succs fuel c s) (n :: s.1, s.2)
        (s'.1, s'.2 ++ [n])

/-- Walk from one root, unless it was visited; the walk's nodes are listed in reverse post-order. -/
def listRoot (succs : α → List α) (fuel : Nat) (s : List α × List α) (root : α) :
    List α × List α :=
  if root ∈ s.1 then s
  else
    let s' := walk succs fuel root (s.1, [])
    (s'.1, s.2 ++ s'.2.reverse)

/-- The nodes that the roots reach, listed walk by walk. -/
def depthFirstOrder (succs : α → List α) (fuel : Nat) (roots : List α) : List α :=
  (roots.foldl (listRoot succs fuel) ([], [])).2

/-- The nodes not visited yet, which is how deep a walk can still go. -/
def unvisited (nodes visited : List α) : Nat := (nodes.filter (· ∉ visited)).length

section Walk

variable {succs : α → List α} {nodes visited visited' : List α} {n : α} {fuel : Nat}

theorem unvisited_cons_lt (hn : n ∈ nodes) (hv : n ∉ visited) :
    unvisited nodes (n :: visited) < unvisited nodes visited := by
  have hsplit : nodes.filter (· ∉ n :: visited) =
      (nodes.filter (· ∉ visited)).filter (· ≠ n) := by
    rw [List.filter_filter]
    apply List.filter_congr
    intro x _
    simp [not_or]
  unfold unvisited
  rw [hsplit, List.length_filter_lt_length_iff_exists]
  exact ⟨n, List.mem_filter.mpr ⟨hn, by simpa using hv⟩, by simp⟩

theorem unvisited_mono (h : ∀ x ∈ visited, x ∈ visited') :
    unvisited nodes visited' ≤ unvisited nodes visited := by
  unfold unvisited
  apply List.Sublist.length_le
  apply List.monotone_filter_right
  intro x hx
  simp only [decide_eq_true_eq] at hx ⊢
  exact fun hm => hx (h x hm)

/-- The walks from a list of nodes, when each of them does what it should. -/
theorem foldl_walk {cs : List α}
    (hwalk : ∀ c ∈ cs, ∀ s : List α × List α, unvisited nodes s.1 < fuel →
      ∃ v found, walk succs fuel c s = (v, s.2 ++ found) ∧ Walked succs [c] s.1 v found)
    (s : List α × List α) (hfuel : unvisited nodes s.1 < fuel) :
    ∃ v found, cs.foldl (fun s c => walk succs fuel c s) s = (v, s.2 ++ found) ∧
      Walked succs cs s.1 v found := by
  induction cs generalizing s with
  | nil => exact ⟨s.1, [], by simp, Walked.nil⟩
  | cons c cs ih =>
      obtain ⟨v, found, hc, hfound⟩ := hwalk c List.mem_cons_self s hfuel
      have hfuel' : unvisited nodes v < fuel :=
        Nat.lt_of_le_of_lt (unvisited_mono fun x => hfound.visited_mono) hfuel
      obtain ⟨v', found', hcs, hfound'⟩ :=
        ih (fun c' hc' => hwalk c' (List.mem_cons_of_mem c hc')) (v, s.2 ++ found) hfuel'
      refine ⟨v', found ++ found', ?_, hfound.append hfound'⟩
      rw [List.foldl_cons, hc, hcs, List.append_assoc]

/-- A walk with enough fuel, on a set of nodes closed under successors. -/
theorem walk_spec (hclosed : ∀ n ∈ nodes, ∀ v ∈ succs n, v ∈ nodes) (hn : n ∈ nodes)
    (s : List α × List α) (hfuel : unvisited nodes s.1 < fuel) :
    ∃ v found, walk succs fuel n s = (v, s.2 ++ found) ∧ Walked succs [n] s.1 v found ∧
      (n ∉ s.1 → ∃ l, found = l ++ [n]) := by
  induction fuel generalizing n s with
  | zero => exact absurd hfuel (Nat.not_lt_zero _)
  | succ fuel ih =>
      unfold walk
      by_cases hv : n ∈ s.1
      · rw [if_pos hv]
        exact ⟨s.1, [], by simp, Walked.skip hv, fun h => absurd hv h⟩
      · rw [if_neg hv]
        have hlt := unvisited_cons_lt hn hv
        obtain ⟨v, found, hfold, hfound⟩ := @foldl_walk _ _ succs nodes _ _
          (fun c hc s' hs' => by
            obtain ⟨v, found, hw, hfound, _⟩ := ih (hclosed n hn c hc) s' hs'
            exact ⟨v, found, hw, hfound⟩)
          (n :: s.1, s.2) (Nat.lt_of_lt_of_le hlt (Nat.le_of_lt_succ hfuel))
        refine ⟨v, found ++ [n], ?_, Walked.finish hv hfound, fun _ => ⟨found, rfl⟩⟩
        show (((succs n).foldl _ (n :: s.1, s.2)).1, ((succs n).foldl _ (n :: s.1, s.2)).2 ++ [n]) = _
        rw [hfold, List.append_assoc]

end Walk

/-! ## The order -/

section Order

variable {succs : α → List α} {nodes roots : List α} {r d x y : α} {fuel : Nat}

theorem Listing.listRoot {s : List α × List α} (h : Listing succs s)
    (hclosed : ∀ n ∈ nodes, ∀ v ∈ succs n, v ∈ nodes) (hr : r ∈ nodes)
    (hfuel : nodes.length < fuel) :
    ∃ more, (Lib.listRoot succs fuel s r).2 = s.2 ++ more ∧
      Listing succs (Lib.listRoot succs fuel s r) ∧ r ∈ (Lib.listRoot succs fuel s r).2 ∧
      ∀ x ∈ more, Reach (Edge succs) r x := by
  unfold Lib.listRoot
  by_cases hv : r ∈ s.1
  · rw [if_pos hv]
    exact ⟨[], by simp, h, (h.mem_iff r).mp hv, fun x hx => absurd hx List.not_mem_nil⟩
  · rw [if_neg hv]
    have hunvisited : unvisited nodes s.1 < fuel :=
      Nat.lt_of_le_of_lt (List.length_filter_le _ _) hfuel
    obtain ⟨v, found, hw, hfound, _⟩ := walk_spec hclosed hr (s.1, []) hunvisited
    simp only [hw, List.nil_append]
    have hmem : ∀ x, x ∈ v ↔ x ∈ s.2 ++ found.reverse := by
      intro x
      rw [hfound.mem_visited, h.mem_iff, List.mem_append, List.mem_reverse]
    refine ⟨found.reverse, rfl, ⟨hmem, ?_, ?_⟩, ?_, ?_⟩
    · apply List.Nodup.append h.nodup (List.nodup_reverse.mpr hfound.nodup)
      intro x hx hx'
      exact hfound.fresh x (List.mem_reverse.mp hx') ((h.mem_iff x).mpr hx)
    · intro x hx y hy
      rcases List.mem_append.mp hx with hx | hx
      · exact List.mem_append_left _ (h.succ_mem x hx y hy)
      · exact (hmem y).mp (hfound.succ_mem x (List.mem_reverse.mp hx) y hy)
    · exact (hmem r).mp (hfound.start_mem r (List.mem_singleton_self r))
    · intro x hx
      obtain ⟨r', hr', hrx⟩ := hfound.reach x (List.mem_reverse.mp hx)
      exact List.mem_singleton.mp hr' ▸ hrx

theorem Listing.foldl {s : List α × List α} (h : Listing succs s)
    (hclosed : ∀ n ∈ nodes, ∀ v ∈ succs n, v ∈ nodes) (hroots : ∀ r ∈ roots, r ∈ nodes)
    (hfuel : nodes.length < fuel) :
    ∃ more, (roots.foldl (Lib.listRoot succs fuel) s).2 = s.2 ++ more ∧
      Listing succs (roots.foldl (Lib.listRoot succs fuel) s) ∧
      (∀ r ∈ roots, r ∈ s.2 ++ more) ∧ ∀ x ∈ more, ∃ r ∈ roots, Reach (Edge succs) r x := by
  induction roots generalizing s with
  | nil =>
      exact ⟨[], by simp, h, fun r hr => absurd hr List.not_mem_nil,
        fun x hx => absurd hx List.not_mem_nil⟩
  | cons r roots ih =>
      obtain ⟨found, heq, hlisting, hr, hfound⟩ :=
        h.listRoot hclosed (hroots r List.mem_cons_self) hfuel
      obtain ⟨more, hmore, hlisting', hmem, hreach⟩ :=
        ih hlisting (fun r' hr' => hroots r' (List.mem_cons_of_mem r hr'))
      have hall : (Lib.listRoot succs fuel s r).2 ++ more = s.2 ++ (found ++ more) := by
        rw [heq, List.append_assoc]
      refine ⟨found ++ more, hmore.trans hall, hlisting', ?_, ?_⟩
      · intro r' hr'
        rw [← hall]
        rcases List.mem_cons.mp hr' with rfl | hr'
        · exact List.mem_append_left _ hr
        · exact hmem r' hr'
      · intro x hx
        rcases List.mem_append.mp hx with hx | hx
        · exact ⟨r, List.mem_cons_self, hfound x hx⟩
        · obtain ⟨r', hr', hrx⟩ := hreach x hx
          exact ⟨r', List.mem_cons_of_mem r hr', hrx⟩

variable (hclosed : ∀ n ∈ nodes, ∀ v ∈ succs n, v ∈ nodes) (hroots : ∀ r ∈ roots, r ∈ nodes)
  (hfuel : nodes.length < fuel)

include hclosed hroots hfuel

/-- The order lists once each what the roots reach. -/
theorem depthFirstOrder_nodup : (depthFirstOrder succs fuel roots).Nodup := by
  obtain ⟨more, _, hlisting, _⟩ := Listing.empty.foldl hclosed hroots hfuel
  exact hlisting.nodup

theorem mem_depthFirstOrder :
    x ∈ depthFirstOrder succs fuel roots ↔ ∃ r ∈ roots, Reach (Edge succs) r x := by
  obtain ⟨more, heq, hlisting, hmem, hreach⟩ :=
    (@Listing.empty _ succs).foldl hclosed hroots hfuel
  have horder : depthFirstOrder succs fuel roots = more := heq
  have hlisting_succ := hlisting.succ_mem
  rw [horder]
  constructor
  · exact hreach x
  · rintro ⟨r, hr, hrx⟩
    refine hrx.closed (hmem r hr) fun a b ha hab => ?_
    rw [heq] at hlisting_succ
    exact hlisting_succ a ha b hab

/-- The order begins with the walk from the first root. -/
theorem depthFirstOrder_cons (hr : r ∈ nodes) :
    ∃ v found more, depthFirstOrder succs fuel (r :: roots) = (found ++ [r]).reverse ++ more ∧
      Walked succs [r] [] v (found ++ [r]) := by
  have hunvisited : unvisited nodes [] < fuel :=
    Nat.lt_of_le_of_lt (List.length_filter_le _ _) hfuel
  obtain ⟨v, found, hw, hfound, hlast⟩ := walk_spec hclosed hr ([], []) hunvisited
  obtain ⟨l, rfl⟩ := hlast List.not_mem_nil
  have hfirst : listRoot succs fuel ([], []) r = (v, (l ++ [r]).reverse) := by
    unfold listRoot
    rw [if_neg List.not_mem_nil, hw, List.nil_append]
    rfl
  obtain ⟨_, _, hlisting, _⟩ := Listing.empty.listRoot hclosed hr hfuel
  obtain ⟨more, hmore, _⟩ := hlisting.foldl hclosed hroots hfuel
  refine ⟨v, l, more, ?_, hfound⟩
  show (roots.foldl (listRoot succs fuel) (listRoot succs fuel ([], []) r)).2 = _
  rw [hmore, hfirst]

/-- The first root is listed first. -/
theorem depthFirstOrder_head (hr : r ∈ nodes) :
    ∃ rest, depthFirstOrder succs fuel (r :: roots) = r :: rest := by
  obtain ⟨_, found, more, heq, _⟩ := depthFirstOrder_cons hclosed hroots hfuel hr
  exact ⟨found.reverse ++ more, by rw [heq, List.reverse_append]; rfl⟩

/-- What the first root reaches makes up the front of the order. -/
theorem depthFirstOrder_front (hr : r ∈ nodes) :
    ∃ front more, depthFirstOrder succs fuel (r :: roots) = front ++ more ∧
      (∀ x, x ∈ front ↔ Reach (Edge succs) r x) ∧
      ∀ d b pre post, front = pre ++ b :: post → d ∉ pre → d ≠ b → Avoids (Edge succs) d r b := by
  obtain ⟨v, found, more, heq, hfound⟩ := depthFirstOrder_cons hclosed hroots hfuel hr
  have hv : ∀ y, y ∈ v ↔ y ∈ found ++ [r] := fun y => by
    rw [hfound.mem_visited]
    simp
  refine ⟨(found ++ [r]).reverse, more, heq, fun y => ?_, fun d b pre post hsplit hd hne => ?_⟩
  · rw [List.mem_reverse]
    constructor
    · intro hy
      obtain ⟨r', hr', hry⟩ := hfound.reach y hy
      exact List.mem_singleton.mp hr' ▸ hry
    · intro hy
      apply hy.closed (List.mem_append_right _ (List.mem_singleton_self r))
      exact fun a b ha hab => (hv b).mp (hfound.succ_mem a ha b hab)
  · have hsplit' : found ++ [r] = post.reverse ++ b :: pre.reverse := by
      have hrev := congrArg List.reverse hsplit
      rw [List.reverse_reverse] at hrev
      rw [hrev]
      simp
    obtain ⟨r', hr', hrx⟩ :=
      hfound.avoids d _ b _ hsplit' (fun h => hd (List.mem_reverse.mp h)) hne
    exact List.mem_singleton.mp hr' ▸ hrx

/-- A node the first root reaches is listed after all that dominate it. -/
theorem mem_of_dominates (hr : r ∈ nodes) {pre post : List α}
    (hsplit : depthFirstOrder succs fuel (r :: roots) = pre ++ x :: post)
    (hx : Reach (Edge succs) r x) (hdom : Dominates (Edge succs) r d x) (hne : d ≠ x) :
    d ∈ pre := by
  have hall : ∀ r' ∈ r :: roots, r' ∈ nodes := fun r' h =>
    (List.mem_cons.mp h).elim (fun h => h ▸ hr) (hroots r')
  have hnodup := depthFirstOrder_nodup hclosed hall hfuel
  obtain ⟨front, more, heq, hfront, havoid⟩ := depthFirstOrder_front hclosed hroots hfuel hr
  rw [heq] at hsplit hnodup
  have hxm : x ∉ more := List.disjoint_of_nodup_append hnodup ((hfront x).mpr hx)
  rcases List.append_eq_append_iff.mp hsplit with ⟨m, _, hm⟩ | ⟨m, hpre, hm⟩
  · exact absurd (hm ▸ List.mem_append_right m List.mem_cons_self) hxm
  · cases m with
    | nil => exact absurd ((show x :: post = more from hm) ▸ List.mem_cons_self) hxm
    | cons z m =>
        obtain ⟨rfl, _⟩ := List.cons.inj hm
        by_contra hd
        exact hdom (havoid d x pre m hpre hd hne)

end Order

end Pliron.Lib
