/-
  Pliron.Lib.Check

  Checks that decide a proposition.

  A check runs on a state that caches what it computes, and ends normally, with
  an error, or not at all.  It decides a proposition, for the states that satisfy
  an invariant, if it ends normally exactly when the proposition holds, and then
  in a state that satisfies the invariant again.
-/

import Mathlib.Tactic.Common

namespace Pliron.Lib

/-- A check on states of type `σ` that may fail with an error of type `ε`. -/
abbrev Check (σ ε α : Type) := ExceptT ε (StateT σ Option) α

variable {σ ε α : Type}

/-- The check succeeds exactly if `P` holds. -/
def Decides (inv : σ → Prop) (m : Check σ ε Unit) (P : Prop) : Prop :=
  ∀ s, inv s → (P → ∃ s', m.run.run s = some (.ok (), s') ∧ inv s') ∧
    (¬ P → ∀ s', m.run.run s ≠ some (.ok (), s'))

/-- The computation returns `a`. -/
def Returns (inv : σ → Prop) (m : StateT σ Option α) (a : α) : Prop :=
  ∀ s, inv s → ∃ s', m.run s = some (a, s') ∧ inv s'

namespace Decides

variable {inv : σ → Prop} {m k : Check σ ε Unit} {P Q : Prop}

theorem congr (h : Decides inv m P) (hPQ : P ↔ Q) : Decides inv m Q := by
  intro s hs
  rw [← hPQ]
  exact h s hs

theorem pure : Decides inv (Pure.pure () : Check σ ε Unit) True := by
  intro s hs
  exact ⟨fun _ => ⟨s, rfl, hs⟩, fun hn => absurd trivial hn⟩

theorem throw (e : ε) : Decides inv (MonadExcept.throw e : Check σ ε Unit) False := by
  intro s _
  exact ⟨fun hf => hf.elim, fun _ s' h => by cases h⟩

/-- A check that never ends normally. -/
theorem of_none (h : ∀ s, inv s → m.run.run s = none) : Decides inv m False := by
  intro s hs
  refine ⟨fun hf => hf.elim, fun _ s' hm => ?_⟩
  rw [h s hs] at hm
  cases hm

/-- One check after the other decides both. -/
theorem seq (hm : Decides inv m P) (hk : Decides inv k Q) :
    Decides inv (m >>= fun _ => k) (P ∧ Q) := by
  intro s hs
  obtain ⟨hyes, hno⟩ := hm s hs
  have hrun : (m >>= fun _ => k).run.run s = (m.run.run s).bind (fun p =>
      match p.1 with
      | .ok _ => k.run.run p.2
      | .error e => some (.error e, p.2)) := by
    simp only [ExceptT.run_bind, StateT.run_bind, Option.bind_eq_bind]
    refine congrArg _ (funext fun p => ?_)
    rcases p with ⟨e | u, s'⟩ <;> rfl
  rw [hrun]
  by_cases hP : P
  · obtain ⟨s', hs', hinv⟩ := hyes hP
    obtain ⟨hyes', hno'⟩ := hk s' hinv
    rw [hs']
    constructor
    · exact fun h => hyes' h.2
    · exact fun h => hno' (fun hQ => h ⟨hP, hQ⟩)
  · refine ⟨fun h => absurd h.1 hP, fun _ s'' => ?_⟩
    cases hms : m.run.run s with
    | none => simp
    | some p =>
        obtain ⟨e | u, s'⟩ := p
        · simp
        · exact absurd hms (hno hP s')

theorem forM {β : Type} {f : β → Check σ ε Unit} {R : β → Prop} {l : List β}
    (h : ∀ x ∈ l, Decides inv (f x) (R x)) : Decides inv (l.forM f) (∀ x ∈ l, R x) := by
  induction l with
  | nil => exact pure.congr (by simp)
  | cons x l ih =>
      have hx := h x List.mem_cons_self
      have hl := ih (fun y hy => h y (List.mem_cons_of_mem x hy))
      exact (seq hx hl).congr (by simp)

/-- A check on the value that a computation returns. -/
theorem bind_returns {c : StateT σ Option α} {a : α} {f : α → Check σ ε Unit}
    (hc : Returns inv c a) (hf : Decides inv (f a) P) :
    Decides inv (ExceptT.lift c >>= f) P := by
  intro s hs
  obtain ⟨s', hs', hinv⟩ := hc s hs
  have hrun : (ExceptT.lift c >>= f : Check σ ε Unit).run.run s = (f a).run.run s' := by
    simp [ExceptT.run_bind, StateT.run_bind, hs']
  rw [hrun]
  exact hf s' hinv

theorem bind_none {c : StateT σ Option α} {f : α → Check σ ε Unit}
    (hc : ∀ s, inv s → c.run s = none) :
    Decides inv (ExceptT.lift c >>= f) False := by
  refine of_none (fun s hs => ?_)
  simp [ExceptT.run_bind, StateT.run_bind, hc s hs]

end Decides

namespace Returns

variable {inv : σ → Prop} {β : Type}

theorem pure (a : α) : Returns inv (Pure.pure a : StateT σ Option α) a :=
  fun s hs => ⟨s, rfl, hs⟩

theorem bind {m : StateT σ Option α} {f : α → StateT σ Option β} {a : α} {b : β}
    (hm : Returns inv m a) (hf : Returns inv (f a) b) : Returns inv (m >>= f) b := by
  intro s hs
  obtain ⟨s', hs', hinv⟩ := hm s hs
  obtain ⟨s'', hs'', hinv'⟩ := hf s' hinv
  exact ⟨s'', by simp [StateT.run_bind, hs', hs''], hinv'⟩

theorem lift {o : Option α} {a : α} (h : o = some a) :
    Returns inv (StateT.lift o : StateT σ Option α) a := by
  intro s hs
  exact ⟨s, by simp [h], hs⟩

/-- A query that is only made when another one says yes. -/
theorem ite_and {m k : StateT σ Option Bool} {P Q : Prop}
    (hm : ∃ b, Returns inv m b ∧ (b = true ↔ P)) (hk : ∃ b, Returns inv k b ∧ (b = true ↔ Q)) :
    ∃ b, Returns inv (do if ← m then k else Pure.pure false) b ∧ (b = true ↔ P ∧ Q) := by
  obtain ⟨yes, hyes, hP⟩ := hm
  obtain ⟨b, hb, hQ⟩ := hk
  cases yes with
  | true =>
      refine ⟨b, .bind hyes hb, ?_⟩
      rw [hQ, and_iff_right (hP.mp rfl)]
  | false =>
      refine ⟨false, .bind hyes (.pure false), ?_⟩
      have hno : ¬ P := fun h => Bool.false_ne_true (hP.mpr h)
      simp [hno]

end Returns

end Pliron.Lib
