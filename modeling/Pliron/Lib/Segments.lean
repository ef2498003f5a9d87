/-
  Pliron.Lib.Segments

  Lists kept one after the other in a flat list.

  A list of segments is stored as its concatenation and the lengths of the segments.  An edit of
  one segment is an edit of the flat list at the position of the segment plus the index in it.
-/

import Mathlib.Data.List.SplitLengths
import Mathlib.Tactic

namespace Pliron.Lib.Segments

variable {α : Type*} {segs : List (List α)} {seg : List α} {i j : Nat}

/-- The position of a segment in the flat list. -/
def start (segs : List (List α)) (i : Nat) : Nat := (segs.take i).flatten.length

theorem start_eq_sum (segs : List (List α)) (i : Nat) :
    start segs i = ((segs.map List.length).take i).sum := by
  rw [start, List.length_flatten, List.map_take]

theorem start_succ (hseg : segs[i]? = some seg) :
    start segs (i + 1) = start segs i + seg.length := by
  rw [start, start, List.take_add_one, hseg, Option.toList_some, List.flatten_append,
    List.length_append, List.flatten_singleton]

/-- The flat list, cut around a segment. -/
theorem flatten_eq_cut (hseg : segs[i]? = some seg) :
    segs.flatten = (segs.take i).flatten ++ (seg ++ (segs.drop (i + 1)).flatten) := by
  obtain ⟨hi, hget⟩ := List.getElem?_eq_some_iff.mp hseg
  rw [← List.flatten_cons, ← List.flatten_append, ← hget, ← List.drop_eq_getElem_cons hi,
    List.take_append_drop]

theorem modify_eq_cut (f : List α → List α) (hseg : segs[i]? = some seg) :
    (segs.modify i f).flatten =
      (segs.take i).flatten ++ (f seg ++ (segs.drop (i + 1)).flatten) := by
  obtain ⟨hi, hget⟩ := List.getElem?_eq_some_iff.mp hseg
  have hmodify : segs.modify i f = segs.take i ++ f seg :: segs.drop (i + 1) := by
    rw [List.modify_eq_take_cons_drop hi, hget]
  rw [hmodify, List.flatten_append, List.flatten_cons]

/-- The elements of a segment are where they should be. -/
theorem getElem?_flatten (hseg : segs[i]? = some seg) (hj : j < seg.length) :
    segs.flatten[start segs i + j]? = seg[j]? := by
  rw [flatten_eq_cut hseg, start, List.getElem?_append_right (Nat.le_add_right _ _),
    Nat.add_sub_cancel_left, List.getElem?_append_left hj]

/-- A segment is a slice of the flat list. -/
theorem slice_flatten (hseg : segs[i]? = some seg) :
    (segs.flatten.drop (start segs i)).take seg.length = seg := by
  rw [flatten_eq_cut hseg, start, List.drop_left, List.take_left]

theorem insertIdx_append_right (a b : List α) (j : Nat) (x : α) :
    (a ++ b).insertIdx (a.length + j) x = a ++ b.insertIdx j x := by
  induction a with
  | nil => rw [List.nil_append, List.nil_append, List.length_nil, Nat.zero_add]
  | cons y a ih =>
      rw [List.cons_append, List.length_cons, Nat.add_right_comm, List.insertIdx_succ_cons, ih,
        List.cons_append]

theorem insertIdx_append_left (a b : List α) (hj : j ≤ a.length) (x : α) :
    (a ++ b).insertIdx j x = a.insertIdx j x ++ b := by
  induction a generalizing j with
  | nil =>
      obtain rfl := Nat.le_zero.mp hj
      rfl
  | cons y a ih =>
      cases j with
      | zero => rfl
      | succ j =>
          rw [List.cons_append, List.insertIdx_succ_cons, List.insertIdx_succ_cons,
            ih (Nat.le_of_succ_le_succ hj), List.cons_append]

theorem flatten_insertIdx (hseg : segs[i]? = some seg) (hj : j ≤ seg.length) (x : α) :
    segs.flatten.insertIdx (start segs i + j) x =
      (segs.modify i (fun s => s.insertIdx j x)).flatten := by
  rw [flatten_eq_cut hseg, modify_eq_cut _ hseg, start, insertIdx_append_right,
    insertIdx_append_left _ _ hj]

theorem flatten_eraseIdx (hseg : segs[i]? = some seg) (hj : j < seg.length) :
    segs.flatten.eraseIdx (start segs i + j) =
      (segs.modify i (fun s => s.eraseIdx j)).flatten := by
  rw [flatten_eq_cut hseg, modify_eq_cut _ hseg, start,
    List.eraseIdx_append_of_length_le (Nat.le_add_right _ _), Nat.add_sub_cancel_left,
    List.eraseIdx_append_of_lt_length hj]

/-- Reading a slice index by index. -/
theorem mapM_range'_eq_some {l : List α} {start n : Nat} (h : start + n ≤ l.length) :
    (List.range' start n).mapM (fun k => l[k]?) = some ((l.drop start).take n) := by
  induction n generalizing start with
  | zero => rfl
  | succ n ih =>
      have hlt : start < l.length := by omega
      rw [List.range'_succ, List.mapM_cons, ih (by omega), List.getElem?_eq_getElem hlt,
        List.drop_eq_getElem_cons hlt, List.take_succ_cons]
      rfl

/-- A flat list has segments of all lengths that add up to its own. -/
theorem exists_segments {sizes : List Nat} {l : List α} (h : sizes.sum = l.length) :
    ∃ segs : List (List α), segs.map List.length = sizes ∧ segs.flatten = l :=
  ⟨sizes.splitLengths l, List.map_splitLengths_length l sizes h.le,
    List.flatten_splitLengths l sizes h.ge⟩

end Pliron.Lib.Segments
