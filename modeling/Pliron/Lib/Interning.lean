/-
  Pliron.Lib.Interning

  Interning: one representative for each class of equal objects.

  The representatives are a list that only grows, and the position of a representative stands
  for the objects that are equal to it.  Which objects are equal is a test that is an
  equivalence.
-/

import Mathlib.Data.List.Basic
import Mathlib.Tactic

namespace Pliron.Lib.Interning

variable {α : Type} (eqv : α → α → Bool)

/-- The test for equality is an equivalence. -/
structure IsEquiv : Prop where
  refl : ∀ a, eqv a a = true
  symm : ∀ {a b}, eqv a b = true → eqv b a = true
  trans : ∀ {a b c}, eqv a b = true → eqv b c = true → eqv a c = true

/-- The position of the representative of an object. -/
def find? (reps : List α) (a : α) : Option Nat := reps.findIdx? (eqv a)

/-- The position of the representative of an object, and the representatives.  An object
    without a representative becomes one. -/
def intern (reps : List α) (a : α) : Nat × List α :=
  match find? eqv reps a with
  | some i => (i, reps)
  | none => (reps.length, reps ++ [a])

/-- No two representatives are equal. -/
def Distinct (reps : List α) : Prop :=
  ∀ (i j : Nat) a b, reps[i]? = some a → reps[j]? = some b → eqv a b = true → i = j

/-- The representatives of objects, each with the position it was given, in order. -/
structure Represents (reps : List α) (issued : List (α × Nat)) : Prop where
  distinct : Distinct eqv reps
  /-- The position of an object is that of an object that is equal to it. -/
  represented : ∀ p ∈ issued, ∃ r, reps[p.2]? = some r ∧ eqv p.1 r = true
  /-- A representative is the first object that was given its position. -/
  first : ∀ (i : Nat) r, reps[i]? = some r →
    ∃ front back, issued = front ++ (r, i) :: back ∧ ∀ p ∈ front, p.2 ≠ i

variable {eqv} {reps : List α} {issued : List (α × Nat)} {a b : α} {i j : Nat}

/-! ## Finding a representative -/

theorem find?_eq_some_iff (h : IsEquiv eqv) (hdistinct : Distinct eqv reps) :
    find? eqv reps a = some i ↔ ∃ r, reps[i]? = some r ∧ eqv a r = true := by
  rw [find?, List.findIdx?_eq_some_iff_getElem]
  constructor
  · rintro ⟨hi, hr, _⟩
    exact ⟨reps[i], List.getElem?_eq_getElem hi, hr⟩
  · rintro ⟨r, hr, har⟩
    obtain ⟨hi, rfl⟩ := List.getElem?_eq_some_iff.mp hr
    refine ⟨hi, har, fun j hj haj => ?_⟩
    have hj' : j < reps.length := by omega
    have heq : j = i := hdistinct j i _ _ (List.getElem?_eq_getElem hj') hr
      (h.trans (h.symm haj) har)
    omega

theorem find?_eq_none_iff : find? eqv reps a = none ↔ ∀ r ∈ reps, eqv a r = false := by
  rw [find?, List.findIdx?_eq_none_iff]

/-- The position that an object is given holds an object equal to it. -/
theorem getElem?_intern (h : IsEquiv eqv) (hdistinct : Distinct eqv reps) :
    ∃ r, (intern eqv reps a).2[(intern eqv reps a).1]? = some r ∧ eqv a r = true := by
  rw [intern]
  cases hfind : find? eqv reps a with
  | some i => exact (find?_eq_some_iff h hdistinct).mp hfind
  | none => exact ⟨a, List.getElem?_concat_length, h.refl a⟩

/-- The representatives keep their positions. -/
theorem getElem?_intern_of_some (hb : reps[i]? = some b) :
    (intern eqv reps a).2[i]? = some b := by
  rw [intern]
  cases find? eqv reps a with
  | some j => exact hb
  | none =>
      obtain ⟨hi, _⟩ := List.getElem?_eq_some_iff.mp hb
      show (reps ++ [a])[i]? = some b
      rw [List.getElem?_append_left hi]
      exact hb

/-- A new representative is at the end. -/
theorem getElem?_intern_cases (hb : (intern eqv reps a).2[i]? = some b) :
    reps[i]? = some b ∨
      (find? eqv reps a = none ∧ i = reps.length ∧ b = a ∧ (intern eqv reps a).1 = i) := by
  rw [intern] at hb ⊢
  cases hfind : find? eqv reps a with
  | some j =>
      rw [hfind] at hb
      exact .inl hb
  | none =>
      rw [hfind] at hb
      have hb : (reps ++ [a])[i]? = some b := hb
      by_cases hi : i < reps.length
      · rw [List.getElem?_append_left hi] at hb
        exact .inl hb
      · obtain ⟨hlt, _⟩ := List.getElem?_eq_some_iff.mp hb
        rw [List.length_append, List.length_singleton] at hlt
        have hlast : i = reps.length := by omega
        rw [hlast, List.getElem?_concat_length] at hb
        exact .inr ⟨rfl, hlast, (Option.some.inj hb).symm, hlast.symm⟩

theorem distinct_intern (h : IsEquiv eqv) (hdistinct : Distinct eqv reps) :
    Distinct eqv (intern eqv reps a).2 := by
  have hnew : ∀ {i : Nat} {c}, find? eqv reps a = none → reps[i]? = some c → eqv a c = true →
      False := by
    intro i c hnone hc hac
    rw [find?_eq_none_iff.mp hnone c (List.mem_of_getElem? hc)] at hac
    exact Bool.false_ne_true hac
  intro i j b c hb hc hbc
  rcases getElem?_intern_cases hb with hb' | ⟨hnone, hi, rfl, _⟩
  · rcases getElem?_intern_cases hc with hc' | ⟨hnone, _, rfl, _⟩
    · exact hdistinct i j b c hb' hc' hbc
    · exact (hnew hnone hb' (h.symm hbc)).elim
  · rcases getElem?_intern_cases hc with hc' | ⟨_, hj, _, _⟩
    · exact (hnew hnone hc' hbc).elim
    · rw [hi, hj]

/-! ## What positions say -/

namespace Represents

theorem empty : Represents eqv [] [] where
  distinct _ _ _ _ ha := absurd ha nofun
  represented _ hp := absurd hp List.not_mem_nil
  first _ _ hr := absurd hr nofun

/-- One more object is interned. -/
theorem step (h : IsEquiv eqv) (hreps : Represents eqv reps issued) (a : α) :
    Represents eqv (intern eqv reps a).2 (issued ++ [(a, (intern eqv reps a).1)]) where
  distinct := distinct_intern h hreps.distinct
  represented p hp := by
    rcases List.mem_append.mp hp with hp | hp
    · obtain ⟨r, hr, hpr⟩ := hreps.represented p hp
      exact ⟨r, getElem?_intern_of_some hr, hpr⟩
    · rw [List.mem_singleton.mp hp]
      exact getElem?_intern h hreps.distinct
  first i r hr := by
    rcases getElem?_intern_cases hr with hr | ⟨_, hi, rfl, heq⟩
    · obtain ⟨front, back, hissued, hfront⟩ := hreps.first i r hr
      refine ⟨front, back ++ [(a, (intern eqv reps a).1)], ?_, hfront⟩
      rw [hissued, List.append_assoc, List.cons_append]
    · refine ⟨issued, [], by rw [heq], fun p hp hpi => ?_⟩
      obtain ⟨r', hr', _⟩ := hreps.represented p hp
      obtain ⟨hlt, _⟩ := List.getElem?_eq_some_iff.mp hr'
      omega

/-- Two positions are equal exactly if the objects are. -/
theorem position_eq_iff (h : IsEquiv eqv) (hreps : Represents eqv reps issued)
    (ha : (a, i) ∈ issued) (hb : (b, j) ∈ issued) : i = j ↔ eqv a b = true := by
  obtain ⟨r, hr, har⟩ := hreps.represented _ ha
  obtain ⟨s, hs, hbs⟩ := hreps.represented _ hb
  constructor
  · rintro rfl
    obtain rfl : r = s := Option.some.inj (hr.symm.trans hs)
    exact h.trans har (h.symm hbs)
  · intro hab
    exact hreps.distinct i j r s hr hs (h.trans (h.symm har) (h.trans hab hbs))

/-- An object is found exactly if an equal one was interned. -/
theorem find?_eq_some_iff (h : IsEquiv eqv) (hreps : Represents eqv reps issued) :
    find? eqv reps a = some i ↔ ∃ b, (b, i) ∈ issued ∧ eqv a b = true := by
  rw [Interning.find?_eq_some_iff h hreps.distinct]
  constructor
  · rintro ⟨r, hr, har⟩
    obtain ⟨front, back, hissued, _⟩ := hreps.first i r hr
    exact ⟨r, hissued ▸ List.mem_append_right _ List.mem_cons_self, har⟩
  · rintro ⟨b, hb, hab⟩
    obtain ⟨r, hr, hbr⟩ := hreps.represented _ hb
    exact ⟨r, hr, h.trans hab hbr⟩

theorem find?_eq_none_iff (h : IsEquiv eqv) (hreps : Represents eqv reps issued) :
    find? eqv reps a = none ↔ ∀ p ∈ issued, eqv a p.1 = false := by
  constructor
  · intro hnone p hp
    by_contra hap
    have hsome := (hreps.find?_eq_some_iff h).mpr ⟨p.1, hp, Bool.eq_true_of_not_eq_false hap⟩
    rw [hnone] at hsome
    exact absurd hsome nofun
  · intro hall
    cases hfind : find? eqv reps a with
    | none => rfl
    | some i =>
        obtain ⟨b, hb, hab⟩ := (hreps.find?_eq_some_iff h).mp hfind
        rw [hall _ hb] at hab
        exact absurd hab Bool.false_ne_true

end Represents

end Pliron.Lib.Interning
