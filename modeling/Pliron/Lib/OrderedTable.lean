/-
  Pliron.Lib.OrderedTable

  Tables that keep their entries in insertion order, as lists.

  An entry is found by a test, and no two entries are the same by a test `same`.  A new entry
  goes to the end; the entry that is removed is replaced by the last one.  Maps have pairs as
  entries, which are the same if their keys are equal; sets have their elements.
-/

import Mathlib.Data.List.Basic
import Mathlib.Data.List.Perm.Basic
import Mathlib.Tactic

namespace Pliron.Lib.OrderedTable

variable {E V K : Type}

/-! ## Entries -/

/-- Remove the entry at an index, and put the last entry into the gap. -/
def swapRemove (l : List E) (i : Nat) : Option (E × List E) := do
  let e ← l[i]?
  let last ← l.getLast?
  some (e, (l.set i last).dropLast)

/-- Remove the first entry that passes a test. -/
def remove (is : E → Bool) (l : List E) : Option E × List E :=
  match (l.findIdx? is).bind (swapRemove l) with
  | some (e, l') => (some e, l')
  | none => (none, l)

/-- No two entries are the same. -/
def Distinct (same : E → E → Bool) (l : List E) : Prop := l.Pairwise (fun a b => same a b = false)

variable {same : E → E → Bool} {is : E → Bool} {l l' : List E} {e : E} {i : Nat}

theorem swapRemove_ne_none (hi : i < l.length) : ∃ l', swapRemove l i = some (l[i], l') := by
  have hne : l ≠ [] := List.ne_nil_of_length_pos (by omega)
  refine ⟨(l.set i (l.getLast hne)).dropLast, ?_⟩
  rw [swapRemove, List.getElem?_eq_getElem hi, List.getLast?_eq_some_getLast hne]
  rfl

/-- What is left are the other entries. -/
theorem swapRemove_perm (h : swapRemove l i = some (e, l')) : (e :: l').Perm l := by
  obtain ⟨e', he, h⟩ := Option.bind_eq_some_iff.mp h
  obtain ⟨last, hlast, h⟩ := Option.bind_eq_some_iff.mp h
  obtain ⟨rfl, rfl⟩ := Prod.mk.inj (Option.some.inj h)
  obtain ⟨front, rfl⟩ := List.getLast?_eq_some_iff.mp hlast
  obtain ⟨hi, rfl⟩ := List.getElem?_eq_some_iff.mp he
  by_cases hfront : i < front.length
  · obtain ⟨pre, post, hpre, _, hset⟩ : ∃ pre post, front = pre ++ front[i] :: post ∧
        pre.length = i ∧ front.set i last = pre ++ last :: post := List.exists_of_set hfront
    have hget : (front ++ [last])[i] = front[i] := List.getElem_append_left hfront
    rw [List.set_append_left _ _ hfront, List.dropLast_concat, hset, hget]
    calc (front[i] :: (pre ++ last :: post)).Perm (front[i] :: last :: (pre ++ post)) :=
          List.perm_middle.cons _
      _ |>.Perm (last :: front[i] :: (pre ++ post)) := List.Perm.swap _ _ _
      _ |>.Perm (last :: front) := by
          conv_rhs => rw [hpre]
          exact List.perm_middle.symm.cons _
      _ |>.Perm (front ++ [last]) := (List.perm_append_singleton last front).symm
  · have hlen : i = front.length := by
      rw [List.length_append, List.length_singleton] at hi
      omega
    subst hlen
    rw [List.set_append_right _ _ (Nat.le_refl _), Nat.sub_self, List.set_cons_zero,
      List.dropLast_concat, List.getElem_concat_length rfl]
    exact (List.perm_append_singleton last front).symm

/-- Removing an entry leaves the others distinct. -/
theorem distinct_swapRemove (hsymm : ∀ a b, same a b = same b a) (hl : Distinct same l)
    (h : swapRemove l i = some (e, l')) : Distinct same l' := by
  have hperm : (e :: l').Pairwise (fun a b => same a b = false) :=
    hl.perm (swapRemove_perm h).symm (fun {a b} hab => (hsymm b a).trans hab)
  exact (List.pairwise_cons.mp hperm).2

theorem distinct_remove (hsymm : ∀ a b, same a b = same b a) (hl : Distinct same l) :
    Distinct same (remove is l).2 := by
  rw [remove]
  cases hfind : (l.findIdx? is).bind (swapRemove l) with
  | none => exact hl
  | some r =>
      obtain ⟨i, _, hswap⟩ := Option.bind_eq_some_iff.mp hfind
      exact distinct_swapRemove hsymm hl hswap

/-- A new entry at the end. -/
theorem distinct_append (hl : Distinct same l) (hnew : ∀ a ∈ l, same a e = false) :
    Distinct same (l ++ [e]) := by
  refine List.pairwise_append.mpr ⟨hl, List.pairwise_singleton _ _, fun a ha b hb => ?_⟩
  rw [List.mem_singleton.mp hb]
  exact hnew a ha

/-- Entries that are replaced by the same ones stay distinct. -/
theorem distinct_map {f : E → E} (hf : ∀ a b, same (f a) (f b) = same a b)
    (hl : Distinct same l) : Distinct same (l.map f) :=
  List.pairwise_map.mpr (hl.imp (fun {a b} hab => (hf a b).trans hab))

/-- If every entry is the same as one of `l'`, then different ones are matched. -/
theorem exists_matching (hsymm : ∀ a b, same a b = same b a)
    (htrans : ∀ a b c, same a b = true → same b c = true → same a c = true)
    (hl : Distinct same l) (hcover : ∀ a ∈ l, ∃ b ∈ l', same a b = true) :
    ∃ bs rest, l'.Perm (bs ++ rest) ∧ List.Forall₂ (fun a b => same a b = true) l bs := by
  induction l generalizing l' with
  | nil => exact ⟨[], l', List.Perm.refl _, List.Forall₂.nil⟩
  | cons a l ih =>
      obtain ⟨ha, hl⟩ := List.pairwise_cons.mp hl
      obtain ⟨b, hb, hab⟩ := hcover a List.mem_cons_self
      obtain ⟨pre, post, rfl⟩ := List.append_of_mem hb
      have hcover : ∀ x ∈ l, ∃ y ∈ pre ++ post, same x y = true := by
        intro x hx
        obtain ⟨y, hy, hxy⟩ := hcover x (List.mem_cons_of_mem _ hx)
        refine ⟨y, ?_, hxy⟩
        -- `x` and `a` are different, so they are not both the same as `b`
        have hne : y ≠ b := by
          rintro rfl
          have hax := htrans a y x hab ((hsymm y x).trans hxy)
          rw [ha x hx] at hax
          exact absurd hax Bool.false_ne_true
        rw [List.mem_append, List.mem_cons] at hy
        rw [List.mem_append]
        tauto
      obtain ⟨bs, rest, hperm, hmatch⟩ := ih hl hcover
      exact ⟨b :: bs, rest, List.perm_middle.trans (hperm.cons b), List.Forall₂.cons hab hmatch⟩

/-- Of two tables of one length, if the first is in the second, then so is the second in the
    first. -/
theorem cover_symm (hsymm : ∀ a b, same a b = same b a)
    (htrans : ∀ a b c, same a b = true → same b c = true → same a c = true)
    (hl : Distinct same l) (hlen : l.length = l'.length)
    (hcover : ∀ a ∈ l, ∃ b ∈ l', same a b = true) : ∀ b ∈ l', ∃ a ∈ l, same a b = true := by
  intro b hb
  obtain ⟨bs, rest, hperm, hmatch⟩ := exists_matching hsymm htrans hl hcover
  have hbs := hmatch.length_eq
  have hall := hperm.length_eq
  rw [List.length_append] at hall
  have hrest : rest = [] := List.eq_nil_of_length_eq_zero (by omega)
  subst hrest
  rw [List.append_nil] at hperm
  obtain ⟨i, hi, rfl⟩ := List.mem_iff_getElem.mp (hperm.mem_iff.mp hb)
  exact ⟨l[i], List.getElem_mem _, hmatch.get (hbs ▸ hi) hi⟩

theorem length_le_of_cover (hsymm : ∀ a b, same a b = same b a)
    (htrans : ∀ a b c, same a b = true → same b c = true → same a c = true)
    (hl : Distinct same l) (hcover : ∀ a ∈ l, ∃ b ∈ l', same a b = true) :
    l.length ≤ l'.length := by
  obtain ⟨bs, rest, hperm, hmatch⟩ := exists_matching hsymm htrans hl hcover
  rw [hperm.length_eq, List.length_append, hmatch.length_eq]
  exact Nat.le_add_right _ _

/-! ## Maps -/

/-- Write the value of the entry at an index. -/
def setValue (l : List (K × V)) (i : Nat) (value : V) : List (K × V) :=
  l.modify i (fun e => (e.1, value))

/-- Insert a key with its value: a present key keeps its place, and is not replaced. -/
def insert [BEq K] (l : List (K × V)) (key : K) (value : V) : Option V × List (K × V) :=
  match l.findIdx? (fun e => e.1 == key) with
  | some i => ((l[i]?).map Prod.snd, setValue l i value)
  | none => (none, l ++ [(key, value)])

/-! ## Sets -/

/-- Add an element that is not present. -/
def insertNew [BEq E] (l : List E) (value : E) : Bool × List E :=
  if l.any (· == value) then (false, l) else (true, l ++ [value])

theorem distinct_insertNew [BEq E] (h : Distinct (· == ·) l) (value : E) :
    Distinct (· == ·) (insertNew l value).2 := by
  rw [insertNew]
  by_cases hany : l.any (· == value) = true
  · rw [if_pos hany]
    exact h
  · rw [if_neg hany]
    refine distinct_append h (fun a ha => ?_)
    rw [List.any_eq_true, not_exists] at hany
    exact Bool.eq_false_of_not_eq_true (fun heq => hany a ⟨ha, heq⟩)

end Pliron.Lib.OrderedTable
