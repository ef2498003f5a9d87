/-
  Pliron.Lib.Schedule

  Schedules: lists of actions that are carried out one after the other.

  `Along P done l` says that each action of `l` finds what it needs: `P` holds of
  it and of all that was done before.  A procedure whose steps succeed exactly
  under such a condition runs through a schedule exactly if the condition holds
  along it, and a procedure that is built from others runs through the
  concatenation of their schedules.
-/

import Mathlib.Tactic.Common

namespace Pliron.Lib

variable {α β σ : Type*}

/-- Each action of the list finds `P` to hold of what was done before it. -/
def Along (P : List α → α → Prop) : List α → List α → Prop
  | _, [] => True
  | done, a :: l => P done a ∧ Along P (done ++ [a]) l

namespace Along

variable {P Q : List α → α → Prop} {done l l₁ l₂ : List α} {a : α}

theorem singleton_iff : Along P done [a] ↔ P done a := by
  show P done a ∧ True ↔ P done a
  rw [and_true]

theorem append_iff :
    Along P done (l₁ ++ l₂) ↔ Along P done l₁ ∧ Along P (done ++ l₁) l₂ := by
  induction l₁ generalizing done with
  | nil => simp [Along]
  | cons a l₁ ih =>
      show P done a ∧ Along P (done ++ [a]) (l₁ ++ l₂) ↔
        (P done a ∧ Along P (done ++ [a]) l₁) ∧ Along P (done ++ a :: l₁) l₂
      rw [ih, and_assoc, List.append_assoc, List.singleton_append]

/-- A concatenation of schedules, by the place of each. -/
theorem flatMap_iff {order : β → List α} {xs : List β} :
    Along P done (xs.flatMap order) ↔ ∀ front x back, xs = front ++ x :: back →
      Along P (done ++ front.flatMap order) (order x) := by
  induction xs generalizing done with
  | nil =>
      refine iff_of_true trivial (fun front x back h => ?_)
      exact absurd h (by simp)
  | cons y xs ih =>
      rw [List.flatMap_cons, append_iff, ih]
      constructor
      · rintro ⟨hy, hxs⟩ front x back h
        rcases List.cons_eq_append_iff.mp h with ⟨rfl, hcons⟩ | ⟨front, rfl, hxs'⟩
        · obtain ⟨rfl, rfl⟩ := List.cons.inj hcons
          simpa using hy
        · rw [List.flatMap_cons, ← List.append_assoc]
          exact hxs front x back hxs'
      · intro h
        refine ⟨by simpa using h [] y xs rfl, fun front x back hxs => ?_⟩
        rw [List.append_assoc, ← List.flatMap_cons]
        exact h (y :: front) x back (by rw [hxs, List.cons_append])

/-- The condition holds of an action, wherever it stands. -/
theorem of_mem (h : Along P done l) (ha : a ∈ l) :
    ∃ front back, l = front ++ a :: back ∧ P (done ++ front) a := by
  obtain ⟨front, back, rfl⟩ := List.append_of_mem ha
  exact ⟨front, back, rfl, (append_iff.mp h).2.1⟩

end Along

/-! ## Running a schedule -/

/-- A step succeeds under `Ok` and keeps an invariant about what was done, if it is taken when
    `Ready`. -/
structure Steps (step : σ → α → Option σ) (inv : List α → σ → Prop)
    (Ready Ok : List α → α → Prop) : Prop where
  succeeds : ∀ {done s a}, inv done s → Ready done a →
    ((∃ s', step s a = some s') ↔ Ok done a)
  keeps : ∀ {done s a s'}, inv done s → Ready done a → step s a = some s' →
    inv (done ++ [a]) s'

namespace Steps

variable {step : σ → α → Option σ} {inv : List α → σ → Prop} {Ready Ok : List α → α → Prop}
  {done l : List α} {s s' : σ}

theorem run_keeps (h : Steps step inv Ready Ok) (hs : inv done s) (hl : Along Ready done l)
    (hrun : l.foldlM step s = some s') : inv (done ++ l) s' := by
  induction l generalizing done s with
  | nil =>
      obtain rfl := Option.some.inj hrun
      rwa [List.append_nil]
  | cons a l ih =>
      rw [List.foldlM_cons] at hrun
      obtain ⟨s₁, hstep, hrun⟩ := Option.bind_eq_some_iff.mp hrun
      have hs₁ := ih (h.keeps hs hl.1 hstep) hl.2 hrun
      rwa [List.append_assoc, List.singleton_append] at hs₁

/-- The run gets through exactly if every step may be taken. -/
theorem run_iff (h : Steps step inv Ready Ok) (hs : inv done s) (hl : Along Ready done l) :
    (∃ s', l.foldlM step s = some s') ↔ Along Ok done l := by
  induction l generalizing done s with
  | nil => exact iff_of_true ⟨s, rfl⟩ trivial
  | cons a l ih =>
      rw [List.foldlM_cons]
      constructor
      · rintro ⟨s', hrun⟩
        obtain ⟨s₁, hstep, hrun⟩ := Option.bind_eq_some_iff.mp hrun
        exact ⟨(h.succeeds hs hl.1).mp ⟨s₁, hstep⟩,
          (ih (h.keeps hs hl.1 hstep) hl.2).mp ⟨s', hrun⟩⟩
      · rintro ⟨hok, hoks⟩
        obtain ⟨s₁, hstep⟩ := (h.succeeds hs hl.1).mpr hok
        obtain ⟨s', hrun⟩ := (ih (h.keeps hs hl.1 hstep) hl.2).mpr hoks
        exact ⟨s', Option.bind_eq_some_iff.mpr ⟨s₁, hstep, hrun⟩⟩

/-- Procedures that each run through a schedule run through the concatenation of these. -/
theorem foldlM_flatMap (h : Steps step inv Ready Ok) {run : σ → β → Option σ}
    {order : β → List α} {xs : List β} (hs : inv done s)
    (hready : Along Ready done (xs.flatMap order))
    (hrun : ∀ front x back, xs = front ++ x :: back → ∀ s',
      inv (done ++ front.flatMap order) s' → run s' x = (order x).foldlM step s') :
    xs.foldlM run s = (xs.flatMap order).foldlM step s := by
  induction xs generalizing done s with
  | nil => rfl
  | cons x xs ih =>
      have hx : run s x = (order x).foldlM step s := hrun [] x xs rfl s (by simpa using hs)
      rw [List.flatMap_cons, Along.append_iff] at hready
      rw [List.foldlM_cons, List.flatMap_cons, List.foldlM_append, hx]
      cases hstep : (order x).foldlM step s with
      | none => rfl
      | some s₁ =>
          refine ih (h.run_keeps hs hready.1 hstep) hready.2 (fun front y back hxs s' hs' => ?_)
          refine hrun (x :: front) y back (by rw [hxs, List.cons_append]) s' ?_
          rwa [List.flatMap_cons, ← List.append_assoc]

end Steps

end Pliron.Lib
