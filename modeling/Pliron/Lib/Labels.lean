/-
  Pliron.Lib.Labels

  Labels kept by position beside a list.

  The labels are a list of their own, which may be shorter than the list they label: what it
  does not cover has no label.  When the list changes, the labels have to be shifted the same
  way.  `Labels` says that every element then still has the label that belongs to it.
-/

import Mathlib.Logic.Function.Basic
import Mathlib.Tactic

namespace Pliron.Lib

open Function

variable {ν ι : Type*}

/-- The label at a position. -/
def labelAt (labels : List (Option ι)) (i : Nat) : Option ι := labels[i]?.join

/-- Cover at least `n` positions. -/
def growTo (labels : List (Option ι)) (n : Nat) : List (Option ι) :=
  labels ++ List.replicate (n - labels.length) none

/-- The elements of `vals` have the labels of `m`. -/
structure Labels (vals : List ν) (labels : List (Option ι)) (m : ν → Option ι) : Prop where
  length_le : labels.length ≤ vals.length
  labelAt_eq : ∀ i v, vals[i]? = some v → labelAt labels i = m v

/-! ## Labels of changed lists -/

theorem length_growTo (labels : List (Option ι)) (n : Nat) :
    (growTo labels n).length = max labels.length n := by
  rw [growTo, List.length_append, List.length_replicate]
  omega

@[simp] theorem labelAt_nil (i : Nat) : labelAt ([] : List (Option ι)) i = none := rfl

theorem labelAt_of_length_le {labels : List (Option ι)} {i : Nat} (h : labels.length ≤ i) :
    labelAt labels i = none := by
  rw [labelAt, List.getElem?_eq_none h]
  rfl

/-- Positions that are added have no label. -/
@[simp] theorem labelAt_growTo (labels : List (Option ι)) (n i : Nat) :
    labelAt (growTo labels n) i = labelAt labels i := by
  by_cases hi : i < labels.length
  · rw [labelAt, growTo, List.getElem?_append_left hi]
    rfl
  · rw [labelAt_of_length_le (not_lt.mp hi), labelAt, growTo,
      List.getElem?_append_right (not_lt.mp hi), List.getElem?_replicate]
    split
    · rfl
    · rfl

theorem labelAt_set {labels : List (Option ι)} {idx : Nat} (hidx : idx < labels.length)
    (name : Option ι) (i : Nat) :
    labelAt (labels.set idx name) i = if i = idx then name else labelAt labels i := by
  rw [labelAt, List.getElem?_set]
  by_cases hi : i = idx
  · subst hi
    rw [if_pos rfl, if_pos hidx, if_pos rfl]
    rfl
  · rw [if_neg (Ne.symm hi), if_neg hi]
    rfl

theorem labelAt_insertIdx {labels : List (Option ι)} {idx : Nat} (hidx : idx ≤ labels.length)
    (name : Option ι) (i : Nat) :
    labelAt (labels.insertIdx idx name) i =
      if i < idx then labelAt labels i
      else if i = idx then name else labelAt labels (i - 1) := by
  rw [labelAt, List.getElem?_insertIdx]
  by_cases hlt : i < idx
  · rw [if_pos hlt, if_pos hlt]
    rfl
  · rw [if_neg hlt, if_neg hlt]
    by_cases hi : i = idx
    · rw [if_pos hi, if_pos hi, if_pos (hi.trans_le hidx)]
      rfl
    · rw [if_neg hi, if_neg hi]
      rfl

theorem labelAt_eraseIdx (labels : List (Option ι)) (idx i : Nat) :
    labelAt (labels.eraseIdx idx) i =
      if i < idx then labelAt labels i else labelAt labels (i + 1) := by
  rw [labelAt, List.getElem?_eraseIdx]
  by_cases hlt : i < idx
  · rw [if_pos hlt, if_pos hlt]
    rfl
  · rw [if_neg hlt, if_neg hlt]
    rfl

/-! ## What keeps the labels with their elements -/

namespace Labels

variable {vals : List ν} {labels labels' : List (Option ι)} {m : ν → Option ι} {v : ν}

/-- Only the labels at the positions count. -/
theorem congr (h : Labels vals labels m) (hlen : labels'.length ≤ vals.length)
    (heq : ∀ i, labelAt labels' i = labelAt labels i) : Labels vals labels' m where
  length_le := hlen
  labelAt_eq i v hv := (heq i).trans (h.labelAt_eq i v hv)

/-- What is not in the list may have any label. -/
theorem update_of_notMem [DecidableEq ν] (h : Labels vals labels m) (hv : v ∉ vals)
    (name : Option ι) : Labels vals labels (update m v name) where
  length_le := h.length_le
  labelAt_eq i u hu := by
    have hne : u ≠ v := fun heq => hv (heq ▸ List.mem_of_getElem? hu)
    rw [update_of_ne hne]
    exact h.labelAt_eq i u hu

theorem push (h : Labels vals labels m) (hv : m v = none) : Labels (vals ++ [v]) labels m where
  length_le := by
    rw [List.length_append]
    exact h.length_le.trans (Nat.le_add_right _ _)
  labelAt_eq i u hu := by
    by_cases hi : i < vals.length
    · rw [List.getElem?_append_left hi] at hu
      exact h.labelAt_eq i u hu
    · rw [List.getElem?_append_right (not_lt.mp hi)] at hu
      rw [List.mem_singleton.mp (List.mem_of_getElem? hu), hv]
      exact labelAt_of_length_le (h.length_le.trans (not_lt.mp hi))

theorem insert {idx : Nat} (h : Labels vals labels m) (hidx : idx ≤ vals.length)
    (hv : m v = none) :
    Labels (vals.insertIdx idx v) ((growTo labels idx).insertIdx idx none) m := by
  have hlen := length_growTo labels idx
  have hle : idx ≤ (growTo labels idx).length := by omega
  constructor
  · rw [List.length_insertIdx_of_le_length hle, List.length_insertIdx_of_le_length hidx, hlen]
    have := h.length_le
    omega
  · intro i u hu
    rw [labelAt_insertIdx hle, labelAt_growTo, labelAt_growTo]
    rw [List.getElem?_insertIdx] at hu
    by_cases hlt : i < idx
    · rw [if_pos hlt] at hu ⊢
      exact h.labelAt_eq i u hu
    · rw [if_neg hlt] at hu ⊢
      by_cases hi : i = idx
      · rw [if_pos hi, if_pos (hi.trans_le hidx)] at hu
        rw [if_pos hi, ← Option.some.inj hu, hv]
      · rw [if_neg hi] at hu ⊢
        exact h.labelAt_eq (i - 1) u hu

theorem erase (h : Labels vals labels m) (idx : Nat) :
    Labels (vals.eraseIdx idx) (labels.eraseIdx idx) m := by
  constructor
  · have := h.length_le
    rw [List.length_eraseIdx, List.length_eraseIdx]
    split <;> split <;> omega
  · intro i u hu
    rw [labelAt_eraseIdx]
    rw [List.getElem?_eraseIdx] at hu
    by_cases hlt : i < idx
    · rw [if_pos hlt] at hu ⊢
      exact h.labelAt_eq i u hu
    · rw [if_neg hlt] at hu ⊢
      exact h.labelAt_eq (i + 1) u hu

theorem set [DecidableEq ν] {idx : Nat} (h : Labels vals labels m) (hnodup : vals.Nodup)
    (hv : vals[idx]? = some v) (name : Option ι) :
    Labels vals ((growTo labels (idx + 1)).set idx name) (update m v name) := by
  have hlen := length_growTo labels (idx + 1)
  obtain ⟨hidx, _⟩ := List.getElem?_eq_some_iff.mp hv
  constructor
  · rw [List.length_set, hlen]
    have := h.length_le
    omega
  · intro i u hu
    rw [labelAt_set (by omega), labelAt_growTo]
    by_cases hi : i = idx
    · subst hi
      rw [if_pos rfl, ← Option.some.inj (hv.symm.trans hu), update_self]
    · have hne : u ≠ v := by
        intro heq
        subst heq
        exact hi ((List.getElem?_inj hidx hnodup).mp (hv.trans hu.symm)).symm
      rw [if_neg hi, update_of_ne hne]
      exact h.labelAt_eq i u hu

end Labels

end Pliron.Lib
