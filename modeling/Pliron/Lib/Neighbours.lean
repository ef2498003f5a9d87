/-
  Pliron.Lib.Neighbours

  The neighbours of an element of a list without duplicates, and what inserting and deleting does to
  them.
-/

import Mathlib.Data.List.Nodup
import Mathlib.Tactic

namespace Pliron.Lib

variable {α : Type} [DecidableEq α] {x m : α} {pre post l : List α}

/-- The element after another one. -/
def after (m : α) : List α → Option α
  | [] => none
  | a :: rest => if a = m then rest.head? else after m rest

/-- The element before another one. -/
def before (m : α) (l : List α) : Option α := after m l.reverse

/-- The elements of a list are those that a pointer leads to, step by step. -/
def Follows (step : α → Option α) : Option α → List α → Prop
  | start, [] => start = none
  | start, a :: rest => start = some a ∧ Follows step (step a) rest

omit [DecidableEq α] in
theorem Follows.start_eq {step : α → Option α} {start : Option α} (h : Follows step start l) :
    start = l.head? := by
  cases l with
  | nil => exact h
  | cons a rest => exact h.1

omit [DecidableEq α] in
/-- From an element of the list the pointer leads to the one after it: induction on what is in
    front of it. -/
theorem Follows.step_eq {step : α → Option α} {start : Option α}
    (h : Follows step start (pre ++ x :: post)) : step x = post.head? := by
  induction pre generalizing start with
  | nil => exact h.2.start_eq
  | cons a pre ih => exact ih h.2

theorem after_append_cons (h : m ∉ pre) : after m (pre ++ m :: post) = post.head? := by
  induction pre with
  | nil => exact if_pos rfl
  | cons a pre ih =>
      rw [List.mem_cons, not_or] at h
      rw [List.cons_append, after, if_neg (Ne.symm h.1), ih h.2]

/-- The last element of the first part is followed by the second part. -/
theorem after_of_getLast? (hnodup : (pre ++ post).Nodup) (h : pre.getLast? = some m) :
    after m (pre ++ post) = post.head? := by
  obtain ⟨front, rfl⟩ := List.getLast?_eq_some_iff.mp h
  rw [List.append_assoc, List.singleton_append] at hnodup ⊢
  refine after_append_cons fun hmem => ?_
  exact (List.disjoint_of_nodup_append hnodup) hmem List.mem_cons_self

omit [DecidableEq α] in
theorem getLast?_cons_eq_some_iff {a : α} (h : a ≠ m) :
    (a :: pre).getLast? = some m ↔ pre.getLast? = some m := by
  cases pre with
  | nil =>
      rw [List.getLast?_singleton, Option.some.injEq]
      exact iff_of_false h nofun
  | cons b pre => rw [List.getLast?_cons_cons]

/-- What follows what, after an insertion: induction on the list in front of the new element. -/
theorem after_insert (h : (pre ++ x :: post).Nodup) : after m (pre ++ x :: post) =
    if m = x then post.head? else if pre.getLast? = some m then some x
      else after m (pre ++ post) := by
  induction pre with
  | nil =>
      rw [List.nil_append, after]
      by_cases hm : m = x
      · rw [if_pos hm.symm, if_pos hm]
      · rw [if_neg (Ne.symm hm), if_neg hm]
        rfl
  | cons a pre ih =>
      rw [List.cons_append, List.nodup_cons] at h
      rw [List.cons_append, List.cons_append, after, after, ih h.2]
      by_cases ha : a = m
      · subst ha
        have hax : a ≠ x := by
          rintro rfl
          exact h.1 (List.mem_append_right _ List.mem_cons_self)
        rw [if_pos rfl, if_pos rfl, if_neg hax]
        cases pre with
        | nil =>
            rw [if_pos List.getLast?_singleton]
            rfl
        | cons b pre =>
            have hlast : ¬ (a :: b :: pre).getLast? = some a := by
              rw [List.getLast?_cons_cons]
              intro hlast
              exact h.1 (List.mem_append_left _ (List.mem_of_getLast? hlast))
            rw [if_neg hlast]
            rfl
      · rw [if_neg ha, if_neg ha]
        by_cases hm : m = x
        · rw [if_pos hm, if_pos hm]
        · rw [if_neg hm, if_neg hm]
          by_cases hlast : pre.getLast? = some m
          · rw [if_pos hlast, if_pos ((getLast?_cons_eq_some_iff ha).mpr hlast)]
          · rw [if_neg hlast, if_neg (mt (getLast?_cons_eq_some_iff ha).mp hlast)]

omit [DecidableEq α] in
theorem reverse_insert : (pre ++ x :: post).reverse = post.reverse ++ x :: pre.reverse := by
  rw [List.reverse_append, List.reverse_cons, List.append_assoc, List.singleton_append]

/-- What comes before what, after an insertion. -/
theorem before_insert (h : (pre ++ x :: post).Nodup) : before m (pre ++ x :: post) =
    if m = x then pre.getLast? else if post.head? = some m then some x
      else before m (pre ++ post) := by
  have hnodup : (post.reverse ++ x :: pre.reverse).Nodup := by
    rw [← reverse_insert]
    exact List.nodup_reverse.mpr h
  rw [before, before, reverse_insert, after_insert hnodup, List.head?_reverse, List.getLast?_reverse,
    List.reverse_append]

theorem before_of_head? (hnodup : (pre ++ post).Nodup) (h : post.head? = some m) :
    before m (pre ++ post) = pre.getLast? := by
  have hnodup' : (post.reverse ++ pre.reverse).Nodup := by
    rw [← List.reverse_append]
    exact List.nodup_reverse.mpr hnodup
  rw [before, List.reverse_append, after_of_getLast? hnodup' (by rw [List.getLast?_reverse, h]),
    List.head?_reverse]

/-- Pointers to the next element lead through the list: induction on what is left, `pre` being what
    was passed. -/
theorem follows_of_after {step : α → Option α} (pre : List α) (hnodup : (pre ++ l).Nodup)
    (hstep : ∀ a ∈ l, step a = after a (pre ++ l)) : Follows step l.head? l := by
  induction l generalizing pre with
  | nil => rfl
  | cons a rest ih =>
      have hmem : a ∉ pre := fun hmem =>
        (List.disjoint_of_nodup_append hnodup) hmem List.mem_cons_self
      refine ⟨rfl, ?_⟩
      rw [hstep a List.mem_cons_self, after_append_cons hmem]
      have happend : pre ++ a :: rest = pre ++ [a] ++ rest := by
        rw [List.append_assoc, List.singleton_append]
      rw [happend] at hnodup hstep
      exact ih (pre ++ [a]) hnodup fun b hb => hstep b (List.mem_cons_of_mem _ hb)

end Pliron.Lib
