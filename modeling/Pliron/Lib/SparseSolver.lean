/-
  Pliron.Lib.SparseSolver

  Worklist solvers that lower the values of variables.

  A node is visited once it was reached.  A visit lowers values, in a meet semilattice, and
  reaches other nodes.  The users of a value that was lowered, and the nodes that are new, are
  queued for a visit.  So what a visit established holds until a value that it read changes,
  the visits are bounded by the number of nodes and the height of the values, and two finished
  runs that stay above each other end with the same values.
-/

import Mathlib.Data.List.Basic
import Mathlib.Logic.Function.Basic
import Mathlib.Logic.Relation
import Mathlib.Order.Lattice
import Mathlib.Tactic

namespace Pliron.Lib

open Function Relation

/-! ## Loops that can fail -/

section Loops

variable {σ α : Type} {R : σ → σ → Prop} {f : σ → α → Option σ} {l : List α} {s s' t : σ}

/-- What a loop does is what its steps do, in a preorder, and each step has its place in it. -/
theorem foldlM_steps (hrefl : ∀ s, R s s) (htrans : ∀ {a b c}, R a b → R b c → R a c)
    (hf : ∀ a ∈ l, ∀ s₁ s₂, R s s₁ → f s₁ a = some s₂ → R s₁ s₂)
    (h : l.foldlM f s = some s') :
    R s s' ∧ ∀ a ∈ l, ∃ s₁ s₂, R s s₁ ∧ f s₁ a = some s₂ ∧ R s₂ s' := by
  induction l generalizing s with
  | nil =>
      rw [List.foldlM_nil] at h
      obtain rfl := Option.some.inj h
      exact ⟨hrefl s, fun a ha => absurd ha List.not_mem_nil⟩
  | cons a l ih =>
      rw [List.foldlM_cons] at h
      obtain ⟨t, hstep, hrest⟩ := Option.bind_eq_some_iff.mp h
      have hst : R s t := hf a List.mem_cons_self s t (hrefl s) hstep
      have hl := ih (fun b hb s₁ s₂ hs₁ => hf b (List.mem_cons_of_mem _ hb) s₁ s₂
        (htrans hst hs₁)) hrest
      refine ⟨htrans hst hl.1, fun b hb => ?_⟩
      rcases List.mem_cons.mp hb with rfl | hb
      · exact ⟨s, t, hrefl s, hstep, hl.1⟩
      · obtain ⟨s₁, s₂, hs₁, hb', hs₂⟩ := hl.2 b hb
        exact ⟨s₁, s₂, htrans hst hs₁, hb', hs₂⟩

end Loops

/-! ## Stores and what visits do to them -/

/-- A value for each variable, the nodes reached so far, and those of them to be visited. -/
structure Store (V N L : Type) where
  val : V → L
  reached : List N
  queue : List N

namespace Store

variable {V N L : Type}

/-- Add a node to a queue, unless it is in the queue. -/
def enqueue [DecidableEq N] (queue : List N) (n : N) : List N :=
  if n ∈ queue then queue else queue ++ [n]

/-- Lower a variable to the meet of its value and another one. -/
def lower [DecidableEq V] [DecidableEq N] [SemilatticeInf L] [DecidableLE L] (users : V → List N)
    (v : V) (x : L) (s : Store V N L) : Store V N L :=
  if s.val v ≤ x then s
  else
    { s with
      val := update s.val v (s.val v ⊓ x)
      queue := ((users v).filter (fun n => decide (n ∈ s.reached))).foldl enqueue s.queue }

/-- Reach a node. -/
def reach [DecidableEq N] (n : N) (s : Store V N L) : Store V N L :=
  if n ∈ s.reached then s
  else { s with reached := s.reached ++ [n], queue := enqueue s.queue n }

/-- What a visit does to a store at a time: a value is lowered, or one of `nodes` is reached. -/
inductive Move [DecidableEq V] [DecidableEq N] [SemilatticeInf L] [DecidableLE L]
    (users : V → List N) (nodes : N → Prop) (s : Store V N L) : Store V N L → Prop where
  | lower (v : V) (x : L) : Move users nodes s (lower users v x s)
  | reach (n : N) (hn : nodes n) : Move users nodes s (reach n s)

/-- What a visit does to a store. -/
def Moves [DecidableEq V] [DecidableEq N] [SemilatticeInf L] [DecidableLE L]
    (users : V → List N) (nodes : N → Prop) : Store V N L → Store V N L → Prop :=
  ReflTransGen (Move users nodes)

/-- `s'` comes after `s`: what changed and what is new is queued. -/
structure Later [LE L] (users : V → List N) (s s' : Store V N L) : Prop where
  val_le : ∀ v, s'.val v ≤ s.val v
  reached : ∀ n ∈ s.reached, n ∈ s'.reached
  queue : ∀ n ∈ s.queue, n ∈ s'.queue
  newly : ∀ n ∈ s'.reached, n ∉ s.reached → n ∈ s'.queue
  changed : ∀ v n, s'.val v ≠ s.val v → n ∈ users v → n ∈ s'.reached → n ∈ s'.queue

/-- Only reached nodes are queued. -/
def QueueReached (s : Store V N L) : Prop := ∀ n ∈ s.queue, n ∈ s.reached

/-- `s` is above `F`: no value is lower, and no other node is reached. -/
def Above [LE L] (F s : Store V N L) : Prop :=
  (∀ v, F.val v ≤ s.val v) ∧ ∀ n ∈ s.reached, n ∈ F.reached

variable {users : V → List N} {nodes : N → Prop} {F s s' s'' : Store V N L} {v : V} {x : L} {n : N}

/-! ## Queues -/

section Queues

variable [DecidableEq N] {m : N}

theorem mem_enqueue {queue : List N} : m ∈ enqueue queue n ↔ m ∈ queue ∨ m = n := by
  unfold enqueue
  by_cases hn : n ∈ queue
  · rw [if_pos hn]
    constructor
    · exact Or.inl
    · rintro (hm | rfl)
      · exact hm
      · exact hn
  · rw [if_neg hn, List.mem_append, List.mem_singleton]

theorem mem_foldl_enqueue {l queue : List N} :
    m ∈ l.foldl enqueue queue ↔ m ∈ queue ∨ m ∈ l := by
  induction l generalizing queue with
  | nil => simp
  | cons a l ih => rw [List.foldl_cons, ih, mem_enqueue, List.mem_cons, or_assoc]

theorem length_enqueue_le (queue : List N) (n : N) :
    (enqueue queue n).length ≤ queue.length + 1 := by
  unfold enqueue
  by_cases hn : n ∈ queue
  · rw [if_pos hn]
    omega
  · rw [if_neg hn, List.length_append, List.length_singleton]

theorem length_foldl_enqueue_le (l queue : List N) :
    (l.foldl enqueue queue).length ≤ queue.length + l.length := by
  induction l generalizing queue with
  | nil => exact Nat.le_refl _
  | cons a l ih =>
      have ha := length_enqueue_le queue a
      have hl := ih (enqueue queue a)
      rw [List.foldl_cons, List.length_cons]
      omega

end Queues

/-! ## Later stores -/

namespace Later

section Order

variable [SemilatticeInf L]

theorem refl (s : Store V N L) : Later users s s where
  val_le _ := le_refl _
  reached _ hn := hn
  queue _ hn := hn
  newly _ hn hnot := absurd hn hnot
  changed _ _ hne := absurd rfl hne

theorem trans (h : Later users s s') (h' : Later users s' s'') : Later users s s'' where
  val_le v := (h'.val_le v).trans (h.val_le v)
  reached n hn := h'.reached n (h.reached n hn)
  queue n hn := h'.queue n (h.queue n hn)
  newly n hn hnot := by
    by_cases hn' : n ∈ s'.reached
    · exact h'.queue n (h.newly n hn' hnot)
    · exact h'.newly n hn hn'
  changed v n hne hu hn := by
    by_cases hn' : n ∈ s'.reached
    · by_cases hv : s'.val v = s.val v
      · exact h'.changed v n (fun heq => hne (heq.trans hv)) hu hn
      · exact h'.queue n (h.changed v n hv hu hn')
    · exact h'.newly n hn hn'

/-- Each of `vars` is the same, or one of `owners` is queued: each variable has a reached owner
    among its users. -/
theorem same_or_queued {vars : V → Prop} {owners : N → Prop} (hlater : Later users s s')
    (howner : ∀ v, vars v → s'.val v ≠ s.val v → ∃ n, owners n ∧ n ∈ users v ∧ n ∈ s'.reached) :
    (∀ v, vars v → s'.val v = s.val v) ∨ ∃ n, owners n ∧ n ∈ s'.queue := by
  by_cases hsame : ∀ v, vars v → s'.val v = s.val v
  · exact Or.inl hsame
  · simp only [not_forall] at hsame
    obtain ⟨v, hv, hne⟩ := hsame
    obtain ⟨n, hn, hu, hreached⟩ := howner v hv hne
    exact Or.inr ⟨n, hn, hlater.changed v n hne hu hreached⟩

end Order

variable [DecidableEq V] [DecidableEq N] [SemilatticeInf L] [DecidableLE L]

theorem lower (v : V) (x : L) (s : Store V N L) : Later users s (lower users v x s) := by
  unfold Store.lower
  by_cases hle : s.val v ≤ x
  · rw [if_pos hle]
    exact refl s
  · rw [if_neg hle]
    refine ⟨fun w => ?_, fun n hn => hn, fun n hn => ?_, fun n hn hnot => absurd hn hnot, ?_⟩
    · by_cases hw : w = v
      · subst hw
        show update s.val w (s.val w ⊓ x) w ≤ s.val w
        rw [update_self]
        exact inf_le_left
      · show update s.val v (s.val v ⊓ x) w ≤ s.val w
        rw [update_of_ne hw]
    · exact mem_foldl_enqueue.mpr (Or.inl hn)
    · intro w n hne hu hn
      have hw : w = v := by
        by_contra hw
        exact hne (update_of_ne hw _ _)
      subst hw
      exact mem_foldl_enqueue.mpr (Or.inr (List.mem_filter.mpr ⟨hu, decide_eq_true hn⟩))

omit [DecidableEq V] [DecidableLE L] in
theorem reach (n : N) (s : Store V N L) : Later users s (reach n s) := by
  unfold Store.reach
  by_cases hn : n ∈ s.reached
  · rw [if_pos hn]
    exact refl s
  · rw [if_neg hn]
    refine ⟨fun w => le_refl _, fun m hm => List.mem_append_left _ hm,
      fun m hm => mem_enqueue.mpr (Or.inl hm), fun m hm hnot => ?_,
      fun w m hne => absurd rfl hne⟩
    have hmn : m = n := (List.mem_append.mp hm).elim (fun h => absurd h hnot) List.mem_singleton.mp
    exact mem_enqueue.mpr (Or.inr hmn)

theorem of_moves (h : Moves users nodes s s') : Later users s s' := by
  induction h with
  | refl => exact refl s
  | tail _ hmove ih =>
      cases hmove with
      | lower v x => exact ih.trans (lower v x _)
      | reach n hn => exact ih.trans (reach n _)

end Later

/-! ## What a move leaves -/

section Moves

variable [DecidableEq V] [DecidableEq N] [SemilatticeInf L] [DecidableLE L]

theorem val_lower_le (v : V) (x : L) (s : Store V N L) : (lower users v x s).val v ≤ x := by
  unfold lower
  by_cases hle : s.val v ≤ x
  · rw [if_pos hle]
    exact hle
  · rw [if_neg hle]
    show update s.val v (s.val v ⊓ x) v ≤ x
    rw [update_self]
    exact inf_le_right

omit [DecidableEq V] [SemilatticeInf L] [DecidableLE L] in
theorem mem_reach (n : N) (s : Store V N L) : n ∈ (reach n s).reached := by
  unfold reach
  by_cases hn : n ∈ s.reached
  · rw [if_pos hn]
    exact hn
  · rw [if_neg hn]
    exact List.mem_append_right _ List.mem_cons_self

theorem QueueReached.moves (hs : s.QueueReached) (h : Moves users nodes s s') :
    s'.QueueReached := by
  induction h with
  | refl => exact hs
  | @tail a b _ hmove ih =>
      cases hmove with
      | lower v x =>
          unfold lower
          by_cases hle : a.val v ≤ x
          · rw [if_pos hle]
            exact ih
          · rw [if_neg hle]
            intro n hn
            rcases mem_foldl_enqueue.mp hn with hn | hn
            · exact ih n hn
            · exact of_decide_eq_true (List.mem_filter.mp hn).2
      | reach n _ =>
          unfold reach
          by_cases hn : n ∈ a.reached
          · rw [if_pos hn]
            exact ih
          · rw [if_neg hn]
            intro m hm
            rcases mem_enqueue.mp hm with hm | rfl
            · exact List.mem_append_left _ (ih m hm)
            · exact List.mem_append_right _ List.mem_cons_self

/-! ## What bounds a run from below -/

theorem Above.lower (hs : F.Above s) (hx : F.val v ≤ x) : F.Above (lower users v x s) := by
  unfold Store.lower
  by_cases hle : s.val v ≤ x
  · rw [if_pos hle]
    exact hs
  · rw [if_neg hle]
    refine ⟨fun w => ?_, hs.2⟩
    show F.val w ≤ update s.val v (s.val v ⊓ x) w
    by_cases hw : w = v
    · subst hw
      rw [update_self]
      exact le_inf (hs.1 w) hx
    · rw [update_of_ne hw]
      exact hs.1 w

omit [DecidableEq V] [DecidableLE L] in
theorem Above.reach (hs : F.Above s) (hn : n ∈ F.reached) : F.Above (reach n s) := by
  unfold Store.reach
  by_cases hreached : n ∈ s.reached
  · rw [if_pos hreached]
    exact hs
  · rw [if_neg hreached]
    refine ⟨hs.1, fun m hm => ?_⟩
    rcases List.mem_append.mp hm with hm | hm
    · exact hs.2 m hm
    · rw [List.mem_singleton.mp hm]
      exact hn

omit [DecidableEq V] [DecidableEq N] [DecidableLE L] in
/-- Two stores above each other have the same values and the same reached nodes. -/
theorem Above.antisymm (h : F.Above s) (h' : s.Above F) :
    F.val = s.val ∧ ∀ n, n ∈ F.reached ↔ n ∈ s.reached :=
  ⟨funext fun v => le_antisymm (h.1 v) (h'.1 v), fun n => ⟨h'.2 n, h.2 n⟩⟩

end Moves

/-! ## How much work is left -/

/-- A bound on the visits that are left: those queued, those of nodes not reached yet, and those
    of the users of each value for each time it can still be lowered. -/
def work [DecidableEq N] (users : V → List N) (nodes : List N) (vars : List V) (height : L → Nat)
    (s : Store V N L) : Nat :=
  s.queue.length + (nodes.filter (fun n => decide (n ∉ s.reached))).length +
    (vars.map (fun v => height (s.val v) * (users v).length)).sum

section Work

variable {nodes : List N} {vars : List V} {height : L → Nat}

theorem sum_map_add_le {f g : V → Nat} {c : Nat} {l : List V} (hle : ∀ w, g w ≤ f w)
    (hv : v ∈ l) (hc : g v + c ≤ f v) : (l.map g).sum + c ≤ (l.map f).sum := by
  induction l with
  | nil => exact absurd hv List.not_mem_nil
  | cons a l ih =>
      rw [List.map_cons, List.map_cons, List.sum_cons, List.sum_cons]
      have ha := hle a
      rcases List.mem_cons.mp hv with rfl | hv
      · have hl : (l.map g).sum ≤ (l.map f).sum := List.sum_le_sum (fun w _ => hle w)
        omega
      · have hl := ih hv
        omega

theorem length_filter_lt {p q : N → Bool} {l : List N} (himp : ∀ m, q m = true → p m = true)
    (hn : n ∈ l) (hp : p n = true) (hq : q n = false) :
    (l.filter q).length + 1 ≤ (l.filter p).length := by
  induction l with
  | nil => exact absurd hn List.not_mem_nil
  | cons a l ih =>
      rcases List.mem_cons.mp hn with rfl | hn
      · have hsub : (l.filter q).length ≤ (l.filter p).length :=
          (List.monotone_filter_right l himp).length_le
        rw [List.filter_cons_of_pos hp, List.filter_cons_of_neg (by rw [hq]; exact Bool.false_ne_true),
          List.length_cons]
        omega
      · have hl := ih hn
        by_cases hqa : q a = true
        · rw [List.filter_cons_of_pos hqa, List.filter_cons_of_pos (himp a hqa), List.length_cons,
            List.length_cons]
          omega
        · rw [List.filter_cons_of_neg hqa]
          have hle : (l.filter p).length ≤ ((a :: l).filter p).length :=
            ((List.sublist_cons_self a l).filter p).length_le
          omega

variable [DecidableEq N]

theorem work_reach_le (hn : n ∈ nodes) :
    work users nodes vars height (reach n s) ≤ work users nodes vars height s := by
  unfold reach
  by_cases hreached : n ∈ s.reached
  · rw [if_pos hreached]
  · rw [if_neg hreached]
    have hqueue := length_enqueue_le s.queue n
    have hless : (nodes.filter (fun m => decide (m ∉ s.reached ++ [n]))).length + 1 ≤
        (nodes.filter (fun m => decide (m ∉ s.reached))).length := by
      refine length_filter_lt (fun m hm => ?_) hn (decide_eq_true hreached) ?_
      · have hnot := of_decide_eq_true hm
        exact decide_eq_true (fun h => hnot (List.mem_append_left _ h))
      · exact decide_eq_false (fun h => h (List.mem_append_right _ List.mem_cons_self))
    unfold work
    dsimp only
    omega

variable [DecidableEq V] [SemilatticeInf L] [DecidableLE L]

theorem work_lower_le (hheight : ∀ x y : L, x < y → height x < height y)
    (hv : v ∈ vars ∨ s.val v ≤ x) :
    work users nodes vars height (lower users v x s) ≤ work users nodes vars height s := by
  unfold lower
  by_cases hle : s.val v ≤ x
  · rw [if_pos hle]
  · rw [if_neg hle]
    have hmem : v ∈ vars := hv.resolve_right hle
    have hlt : height (s.val v ⊓ x) < height (s.val v) := hheight _ _ (inf_lt_left.mpr hle)
    have hqueue := length_foldl_enqueue_le ((users v).filter (fun n => decide (n ∈ s.reached)))
      s.queue
    have hfilter := List.length_filter_le (fun n => decide (n ∈ s.reached)) (users v)
    have hsum : (vars.map (fun w =>
        height (update s.val v (s.val v ⊓ x) w) * (users w).length)).sum + (users v).length ≤
        (vars.map (fun w => height (s.val w) * (users w).length)).sum := by
      refine sum_map_add_le (fun w => ?_) hmem ?_
      · by_cases hw : w = v
        · subst hw
          rw [update_self]
          exact Nat.mul_le_mul_right _ hlt.le
        · rw [update_of_ne hw]
      · rw [update_self, ← Nat.succ_mul]
        exact Nat.mul_le_mul_right _ hlt
    unfold work
    dsimp only
    omega

/-- Only variables of the list can be lowered: the others have the least value. -/
def OnlyVars (vars : List V) (s : Store V N L) : Prop := ∀ v, v ∉ vars → ∀ x, s.val v ≤ x

omit [DecidableEq V] [DecidableEq N] [DecidableLE L] in
theorem OnlyVars.later (hs : s.OnlyVars vars) (h : Later users s s') : s'.OnlyVars vars :=
  fun v hv x => (h.val_le v).trans (hs v hv x)

theorem work_moves_le (hheight : ∀ x y : L, x < y → height x < height y) (hs : s.OnlyVars vars)
    (h : Moves users (· ∈ nodes) s s') :
    work users nodes vars height s' ≤ work users nodes vars height s := by
  induction h with
  | refl => exact Nat.le_refl _
  | @tail a b hmoves hmove ih =>
      have ha : a.OnlyVars vars := hs.later (Later.of_moves hmoves)
      cases hmove with
      | lower v x =>
          refine (work_lower_le hheight ?_).trans ih
          by_cases hv : v ∈ vars
          · exact Or.inl hv
          · exact Or.inr (ha v hv x)
      | reach n hn => exact (work_reach_le hn).trans ih

/-- A visit of a queued node leaves less work. -/
theorem work_visit_lt (hheight : ∀ x y : L, x < y → height x < height y) (hs : s.OnlyVars vars)
    (hn : n ∈ s.queue) (h : Moves users (· ∈ nodes) { s with queue := s.queue.erase n } s') :
    work users nodes vars height s' < work users nodes vars height s := by
  have hle := work_moves_le hheight (s := { s with queue := s.queue.erase n }) hs h
  have hlen := List.length_erase_of_mem hn
  have hpos := List.length_pos_of_mem hn
  unfold work at hle ⊢
  dsimp only at hle
  omega

end Work

end Store

end Pliron.Lib
