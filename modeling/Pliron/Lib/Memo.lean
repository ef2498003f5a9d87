/-
  Pliron.Lib.Memo

  Values that are computed from each other, and a store that remembers them.

  The computation for a key may ask for the values of other keys, and may fail.  Fuel bounds how
  deep the asking goes.  With or without a store of right values, it gives the same.
-/

import Mathlib.Tactic.Common

namespace Pliron.Lib.Memo

variable {K V E S : Type}

/-- A computation of a value that asks for the values of keys. -/
inductive Comp (K V E : Type) where
  | done (result : Except E V)
  | ask (key : K) (next : Except E V → Comp K V E)

/-! ## Without a store -/

/-- What a computation gives. -/
def Comp.eval (answer : K → Option (Except E V)) : Comp K V E → Option (Except E V)
  | done result => some result
  | ask key next => do (next (← answer key)).eval answer

/-- The value of a key. -/
def value (spec : K → Comp K V E) : Nat → K → Option (Except E V)
  | 0, _ => none
  | fuel + 1, key => (spec key).eval (value spec fuel)

variable {spec : K → Comp K V E}

theorem Comp.eval_mono {answer answer' : K → Option (Except E V)}
    (h : ∀ key r, answer key = some r → answer' key = some r) {c : Comp K V E} {r : Except E V}
    (heval : c.eval answer = some r) : c.eval answer' = some r := by
  induction c with
  | done result => exact heval
  | ask key next ih =>
      obtain ⟨a, ha, hnext⟩ := Option.bind_eq_some_iff.mp heval
      exact Option.bind_eq_some_iff.mpr ⟨a, h key a ha, ih a hnext⟩

theorem value_succ {fuel : Nat} {key : K} {r : Except E V} (h : value spec fuel key = some r) :
    value spec (fuel + 1) key = some r := by
  induction fuel generalizing key r with
  | zero => exact nomatch h
  | succ fuel ih => exact Comp.eval_mono (fun key r => ih) h

/-- More fuel gives the same. -/
theorem value_mono {fuel fuel' : Nat} (hle : fuel ≤ fuel') {key : K} {r : Except E V}
    (h : value spec fuel key = some r) : value spec fuel' key = some r := by
  induction hle with
  | refl => exact h
  | step _ ih => exact value_succ ih

theorem value_unique {fuel fuel' : Nat} {key : K} {r r' : Except E V}
    (h : value spec fuel key = some r) (h' : value spec fuel' key = some r') : r = r' := by
  have hmax := value_mono (Nat.le_max_left fuel fuel') h
  have hmax' := value_mono (Nat.le_max_right fuel fuel') h'
  exact Option.some.inj (hmax.symm.trans hmax')

/-! ## With a store -/

/-- A store of values. -/
structure Store (S K V : Type) [DecidableEq K] where
  get? : S → K → Option V
  insert : S → K → V → S
  get?_insert : ∀ s key v key',
    get? (insert s key v) key' = if key = key' then some v else get? s key'

/-- What a computation gives when its questions go to a store. -/
def Comp.run (answer : K → S → Option (Except E V × S)) :
    Comp K V E → S → Option (Except E V × S)
  | done result, s => some (result, s)
  | ask key next, s => do
      let (r, s) ← answer key s
      (next r).run answer s

variable [DecidableEq K]

/-- Look up the value of a key, computing and storing it if it is not there.  Errors are not
    stored. -/
def lookup (store : Store S K V) (spec : K → Comp K V E) :
    Nat → K → S → Option (Except E V × S)
  | 0, _, _ => none
  | fuel + 1, key, s =>
      match store.get? s key with
      | some v => some (.ok v, s)
      | none => do
          let (r, s) ← (spec key).run (lookup store spec fuel) s
          match r with
          | .ok v => some (.ok v, store.insert s key v)
          | .error e => some (.error e, s)

/-- Every stored value is the value of its key. -/
def Right (store : Store S K V) (spec : K → Comp K V E) (s : S) : Prop :=
  ∀ key v, store.get? s key = some v → ∃ fuel, value spec fuel key = some (.ok v)

variable {store : Store S K V}

theorem Right.insert {s : S} (h : Right store spec s) {key : K} {v : V} {fuel : Nat}
    (hvalue : value spec fuel key = some (.ok v)) : Right store spec (store.insert s key v) := by
  intro key' v' hget
  rw [store.get?_insert] at hget
  split at hget
  · next heq =>
      subst heq
      obtain rfl := Option.some.inj hget
      exact ⟨fuel, hvalue⟩
  · exact h key' v' hget

/-- A question to a right store is answered as without a store, and leaves it right. -/
def Answers (store : Store S K V) (spec : K → Comp K V E)
    (answer : K → S → Option (Except E V × S)) : Prop :=
  ∀ key s r s', Right store spec s → answer key s = some (r, s') →
    (∃ fuel, value spec fuel key = some r) ∧ Right store spec s'

theorem Comp.run_right {answer : K → S → Option (Except E V × S)}
    (hanswer : Answers store spec answer) {c : Comp K V E} {s s' : S} {r : Except E V}
    (hs : Right store spec s) (hrun : c.run answer s = some (r, s')) :
    (∃ fuel, c.eval (value spec fuel) = some r) ∧ Right store spec s' := by
  induction c generalizing s with
  | done result =>
      obtain ⟨rfl, rfl⟩ := Prod.mk.inj (Option.some.inj hrun)
      exact ⟨⟨0, rfl⟩, hs⟩
  | ask key next ih =>
      obtain ⟨⟨a, s₁⟩, ha, hnext⟩ := Option.bind_eq_some_iff.mp hrun
      obtain ⟨⟨fuel, hvalue⟩, hs₁⟩ := hanswer key s a s₁ hs ha
      obtain ⟨⟨fuel', heval⟩, hs'⟩ := ih a hs₁ hnext
      refine ⟨⟨max fuel fuel', Option.bind_eq_some_iff.mpr ⟨a, ?_, ?_⟩⟩, hs'⟩
      · exact value_mono (Nat.le_max_left fuel fuel') hvalue
      · exact Comp.eval_mono (fun key r => value_mono (Nat.le_max_right fuel fuel')) heval

/-- Looking up in a right store gives the value, and leaves the store right. -/
theorem lookup_answers (fuel : Nat) : Answers store spec (lookup store spec fuel) := by
  induction fuel with
  | zero => exact fun _ _ _ _ _ h => nomatch h
  | succ fuel ih =>
      intro key s r s' hs hlookup
      unfold lookup at hlookup
      split at hlookup
      · next v hget =>
          obtain ⟨rfl, rfl⟩ := Prod.mk.inj (Option.some.inj hlookup)
          exact ⟨hs key v hget, hs⟩
      · obtain ⟨⟨a, s₁⟩, hrun, hstore⟩ := Option.bind_eq_some_iff.mp hlookup
        obtain ⟨⟨fuel', heval⟩, hs₁⟩ := Comp.run_right ih hs hrun
        have hvalue : value spec (fuel' + 1) key = some a := heval
        cases a with
        | ok v =>
            obtain ⟨rfl, rfl⟩ := Prod.mk.inj (Option.some.inj hstore)
            exact ⟨⟨fuel' + 1, hvalue⟩, hs₁.insert hvalue⟩
        | error e =>
            obtain ⟨rfl, rfl⟩ := Prod.mk.inj (Option.some.inj hstore)
            exact ⟨⟨fuel' + 1, hvalue⟩, hs₁⟩

/-- A question with a value is answered by a right store. -/
def Complete (store : Store S K V) (spec : K → Comp K V E)
    (answer : K → S → Option (Except E V × S)) (expected : K → Option (Except E V)) : Prop :=
  ∀ key s r, Right store spec s → expected key = some r → ∃ s', answer key s = some (r, s')

theorem Comp.run_complete {answer : K → S → Option (Except E V × S)}
    {expected : K → Option (Except E V)} (hanswer : Answers store spec answer)
    (hcomplete : Complete store spec answer expected) {c : Comp K V E} {s : S} {r : Except E V}
    (hs : Right store spec s) (heval : c.eval expected = some r) :
    ∃ s', c.run answer s = some (r, s') := by
  induction c generalizing s with
  | done result =>
      obtain rfl := Option.some.inj heval
      exact ⟨s, rfl⟩
  | ask key next ih =>
      obtain ⟨a, ha, hnext⟩ := Option.bind_eq_some_iff.mp heval
      obtain ⟨s₁, hs₁⟩ := hcomplete key s a hs ha
      obtain ⟨-, hright⟩ := hanswer key s a s₁ hs hs₁
      obtain ⟨s', hrun⟩ := ih a hright hnext
      exact ⟨s', Option.bind_eq_some_iff.mpr ⟨(a, s₁), hs₁, hrun⟩⟩

/-- Looking up a key that has a value succeeds with the same fuel. -/
theorem lookup_complete (fuel : Nat) :
    Complete store spec (lookup store spec fuel) (value spec fuel) := by
  induction fuel with
  | zero => exact fun _ _ _ _ h => nomatch h
  | succ fuel ih =>
      intro key s r hs hvalue
      unfold lookup
      cases hget : store.get? s key with
      | some v =>
          obtain ⟨fuel', hv⟩ := hs key v hget
          obtain rfl := value_unique hvalue hv
          exact ⟨s, rfl⟩
      | none =>
          obtain ⟨s', hrun⟩ := Comp.run_complete (lookup_answers fuel) ih hs hvalue
          cases r with
          | ok v => exact ⟨store.insert s' key v, by simp only [hrun]; rfl⟩
          | error e => exact ⟨s', by simp only [hrun]; rfl⟩

end Pliron.Lib.Memo
