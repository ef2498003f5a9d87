/-
  Pliron.Lib.Triple

  Pre- and postconditions of programs with a state and errors.

  A triple has a postcondition for each way to end: with a value, and with an error.
-/

import Mathlib.Tactic.Common

namespace Pliron.Lib

/-- A program on states of type `σ` that may end with an error of type `ε`. -/
abbrev Prog (σ ε α : Type) := ExceptT ε (StateM σ) α

variable {σ ε α β : Type}

/-- Run a program and keep its error as a value. -/
def Prog.capture (m : Prog σ ε α) : Prog σ ε (Except ε α) := ExceptT.lift m.run

/-- From a state with `P`, the program ends with a value and `Q`, or with an error and `E`. -/
def Triple (P : σ → Prop) (m : Prog σ ε α) (Q : α → σ → Prop) (E : σ → Prop) : Prop :=
  ∀ s, P s →
    match m.run.run s with
    | (.ok a, s') => Q a s'
    | (.error _, s') => E s'

namespace Triple

variable {P P' : σ → Prop} {Q Q' : α → σ → Prop} {R : β → σ → Prop} {E E' : σ → Prop}
  {m : Prog σ ε α}

theorem conseq (h : Triple P m Q E) (hP : ∀ s, P' s → P s) (hQ : ∀ a s, Q a s → Q' a s)
    (hE : ∀ s, E s → E' s) : Triple P' m Q' E' := by
  intro s hs
  have hm := h s (hP s hs)
  split at hm
  · exact hQ _ _ hm
  · exact hE _ hm

/-- A triple may be proved for each initial state on its own. -/
theorem of_forall (h : ∀ s, P s → Triple (fun s' => s' = s) m Q E) : Triple P m Q E :=
  fun s hs => h s hs s rfl

theorem pure {a : α} (h : ∀ s, P s → Q a s) : Triple P (Pure.pure a : Prog σ ε α) Q E :=
  fun s hs => h s hs

theorem throw {e : ε} (h : ∀ s, P s → E s) : Triple P (throw e : Prog σ ε α) Q E :=
  fun s hs => h s hs

theorem get {Q : σ → σ → Prop} (h : ∀ s, P s → Q s s) : Triple P (get : Prog σ ε σ) Q E :=
  fun s hs => h s hs

theorem set {Q : PUnit → σ → Prop} {s' : σ} (h : ∀ s, P s → Q ⟨⟩ s') :
    Triple P (set s' : Prog σ ε PUnit) Q E :=
  fun s hs => h s hs

theorem modify {Q : PUnit → σ → Prop} {f : σ → σ} (h : ∀ s, P s → Q ⟨⟩ (f s)) :
    Triple P (modify f : Prog σ ε PUnit) Q E :=
  fun s hs => h s hs

/-- One program after the other. -/
theorem bind {f : α → Prog σ ε β} (hm : Triple P m Q E) (hf : ∀ a, Triple (Q a) (f a) R E) :
    Triple P (m >>= f) R E := by
  intro s hs
  have hms := hm s hs
  have hrun : (m >>= f).run.run s = match m.run.run s with
      | (.ok a, s') => (f a).run.run s'
      | (.error e, s') => (.error e, s') := by
    show (ExceptT.bindCont f (m.run.run s).1).run (m.run.run s).2 = _
    cases hr : m.run.run s with
    | mk r s' => cases r <;> rfl
  rw [hrun]
  split at hms
  · exact hf _ _ hms
  · exact hms

/-- A kept error no longer ends the program. -/
theorem capture {E' : σ → Prop} (hm : Triple P m Q E) :
    Triple P m.capture (fun r s => match r with | .ok a => Q a s | .error _ => E s) E' := by
  intro s hs
  have hms := hm s hs
  have hrun : m.capture.run.run s = (.ok (m.run.run s).1, (m.run.run s).2) := rfl
  rw [hrun]
  split at hms
  · next heq =>
      rw [heq]
      exact hms
  · next heq =>
      rw [heq]
      exact hms

/-- What every program of a fold preserves, the fold preserves. -/
theorem foldlM {γ : Type} {f : β → γ → Prog σ ε β} {l : List γ} {I : β → σ → Prop} {b : β}
    (h : ∀ b, ∀ x ∈ l, Triple (I b) (f b x) I E) : Triple (I b) (l.foldlM f b) I E := by
  induction l generalizing b with
  | nil => exact pure fun s hs => hs
  | cons x l ih =>
      rw [List.foldlM_cons]
      apply bind (h b x List.mem_cons_self)
      intro b'
      exact ih fun b y hy => h b y (List.mem_cons_of_mem x hy)

end Triple

end Pliron.Lib
