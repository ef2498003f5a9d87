/-
  Pliron.Lib.Gather

  A loop that puts what it makes of each element into a collection.

  The loop goes over a list; for each element it fails, makes nothing, or makes
  a value, which it puts into the collection.  What a failure is does not depend
  on the collection.
-/

import Mathlib.Data.List.Basic
import Mathlib.Tactic.Common

namespace Pliron.Lib.Gather

variable {ε σ α β κ : Type}

/-- Put what is made of each element into the collection. -/
def gather (make : α → Except ε (Option β)) (put : σ → β → σ) (s : σ) (l : List α) : Except ε σ :=
  l.foldlM
    (fun s a => do
      match ← make a with
      | none => pure s
      | some b => pure (put s b))
    s

/-- What is made of an element, if it does not fail. -/
def made (make : α → Except ε (Option β)) (a : α) : Option β := (make a).toOption.join

variable {make : α → Except ε (Option β)} {put : σ → β → σ} {s s' : σ} {l : List α} {a : α}

theorem made_of_ok {o : Option β} (h : make a = .ok o) : made make a = o := by
  rw [made, h]
  rfl

theorem made_eq_some_iff {b : β} : made make a = some b ↔ make a = .ok (some b) := by
  unfold made
  cases h : make a with
  | error e => simp [Except.toOption]
  | ok o => simp [Except.toOption]

theorem gather_cons_of_ok {o : Option β} (h : make a = .ok o) :
    gather make put s (a :: l) = gather make put (o.elim s (put s)) l := by
  rw [gather, List.foldlM_cons, h]
  cases o <;> rfl

theorem gather_cons_of_error {e : ε} (h : make a = .error e) :
    gather make put s (a :: l) = .error e := by
  rw [gather, List.foldlM_cons, h]
  rfl

/-- The loop ends well if no element fails, and then all that is made is there. -/
theorem gather_eq_ok_iff :
    gather make put s l = .ok s' ↔
      (∀ a ∈ l, ∃ o, make a = .ok o) ∧ s' = (l.filterMap (made make)).foldl put s := by
  induction l generalizing s with
  | nil =>
      show Except.ok s = Except.ok s' ↔ _
      simp [eq_comm]
  | cons a l ih =>
      cases ha : make a with
      | error e =>
          rw [gather_cons_of_error ha]
          simp [ha]
      | ok o =>
          rw [gather_cons_of_ok ha, ih, List.filterMap_cons, made_of_ok ha, List.forall_mem_cons]
          have hok : ∃ o', make a = .ok o' := ⟨o, ha⟩
          cases o with
          | none => simp [hok]
          | some b => simp [hok]

/-- The loop fails at the first element that fails. -/
theorem gather_eq_error_iff {e : ε} :
    gather make put s l = .error e ↔
      ∃ before a after, l = before ++ a :: after ∧ (∀ b ∈ before, ∃ o, make b = .ok o) ∧
        make a = .error e := by
  induction l generalizing s with
  | nil =>
      show Except.ok s = Except.error e ↔ _
      simp
  | cons a l ih =>
      cases ha : make a with
      | error e' =>
          rw [gather_cons_of_error ha, Except.error.injEq]
          constructor
          · rintro rfl
            exact ⟨[], a, l, rfl, by simp, ha⟩
          · rintro ⟨before, a', after, hl, hbefore, ha'⟩
            cases before with
            | nil =>
                cases hl
                exact Except.error.inj (ha.symm.trans ha')
            | cons b before =>
                cases hl
                obtain ⟨o, ho⟩ := hbefore a List.mem_cons_self
                cases ha.symm.trans ho
      | ok o =>
          rw [gather_cons_of_ok ha, ih]
          constructor
          · rintro ⟨before, a', after, rfl, hbefore, ha'⟩
            refine ⟨a :: before, a', after, rfl, ?_, ha'⟩
            rw [List.forall_mem_cons]
            exact ⟨⟨o, ha⟩, hbefore⟩
          · rintro ⟨before, a', after, hl, hbefore, ha'⟩
            cases before with
            | nil =>
                cases hl
                cases ha.symm.trans ha'
            | cons b before =>
                cases hl
                exact ⟨before, a', after, rfl,
                  fun b hb => hbefore b (List.mem_cons_of_mem a hb), ha'⟩

/-- What is there in the end was there or was put there. -/
theorem mem_of_mem_foldl {put : List β → β → List β}
    (hput : ∀ {s b c}, c ∈ put s b → c ∈ s ∨ c = b) {s l : List β} {c : β}
    (h : c ∈ l.foldl put s) : c ∈ s ∨ c ∈ l := by
  induction l generalizing s with
  | nil => exact .inl h
  | cons b l ih =>
      rcases ih h with hmem | hmem
      · rcases hput hmem with hmem | rfl
        · exact .inl hmem
        · exact .inr List.mem_cons_self
      · exact .inr (List.mem_cons_of_mem b hmem)

/-- Putting values with distinct keys, each of which goes to the end if its key is new,
appends them. -/
theorem foldl_of_nodup {put : List β → β → List β} {key : β → κ}
    (hput : ∀ s b, key b ∉ s.map key → put s b = s ++ [b]) {s l : List β}
    (h : ((s ++ l).map key).Nodup) : l.foldl put s = s ++ l := by
  induction l generalizing s with
  | nil => exact (List.append_nil s).symm
  | cons b l ih =>
      have hmap : (s ++ b :: l).map key = s.map key ++ key b :: l.map key := by simp
      have hfresh : key b ∉ s.map key := by
        rw [hmap] at h
        intro hmem
        exact (List.nodup_append.mp h).2.2 _ hmem _ List.mem_cons_self rfl
      rw [List.foldl_cons, hput s b hfresh, ih (by simpa using h), List.append_assoc]
      rfl

end Pliron.Lib.Gather
