/-
  Pliron.Lib.Growing

  Programs whose state only grows.

  A program keeps an invariant and moves the state along a preorder.  What is stable along the
  preorder is framed: it holds after the program when it held before.
-/

import Pliron.Lib.Triple

namespace Pliron.Lib

variable {σ ε α β γ : Type}

/-- From every state with `I` and `P`, the program ends in a later state: with `I`, and `Q` of its
    value, or with an error and `E`. -/
def Keeps (I : σ → Prop) (R : σ → σ → Prop) (P : σ → Prop) (m : Prog σ ε α) (Q : α → σ → Prop)
    (E : σ → Prop) : Prop :=
  ∀ s, I s → P s → Triple (fun s' => s' = s) m (fun a s' => I s' ∧ R s s' ∧ Q a s')
    (fun s' => R s s' ∧ E s')

/-- Later states still have the property. -/
def Stable (R : σ → σ → Prop) (S : σ → Prop) : Prop := ∀ s s', R s s' → S s → S s'

theorem Stable.and {R : σ → σ → Prop} {S S' : σ → Prop} (h : Stable R S) (h' : Stable R S') :
    Stable R (fun s => S s ∧ S' s) := fun s s' hR hs => ⟨h s s' hR hs.1, h' s s' hR hs.2⟩

/-- The preorder that says nothing. -/
def Anywhere (_ _ : σ) : Prop := True

instance : Std.Refl (@Anywhere σ) := ⟨fun _ => trivial⟩

instance : IsTrans σ Anywhere := ⟨fun _ _ _ _ _ => trivial⟩

namespace Keeps

variable {I : σ → Prop} {R R' : σ → σ → Prop} {P S : σ → Prop} {Q Q' : α → σ → Prop}
  {T : β → σ → Prop} {E E' : σ → Prop} {m : Prog σ ε α}

theorem conseq (h : Keeps I R P m Q E) (hP : ∀ s, I s → S s → P s)
    (hQ : ∀ a s, I s → Q a s → Q' a s) (hE : ∀ s, E s → E' s) : Keeps I R S m Q' E' := by
  intro s hI hs
  apply (h s hI (hP s hI hs)).conseq (fun _ h => h) ?_ (fun s' hs' => ⟨hs'.1, hE s' hs'.2⟩)
  intro a s' hs'
  exact ⟨hs'.1, hs'.2.1, hQ a s' hs'.1 hs'.2.2⟩

/-- The same program, seen as moving further. -/
theorem weaken (h : Keeps I R P m Q E) (hR : ∀ s s', R s s' → R' s s') : Keeps I R' P m Q E := by
  intro s hI hs
  apply (h s hI hs).conseq (fun _ h => h) ?_ (fun s' hs' => ⟨hR s s' hs'.1, hs'.2⟩)
  intro a s' hs'
  exact ⟨hs'.1, hR s s' hs'.2.1, hs'.2.2⟩

/-- What is stable stays true. -/
theorem frame (h : Keeps I R P m Q E) (hS : Stable R S) :
    Keeps I R (fun s => P s ∧ S s) m (fun a s => Q a s ∧ S s) E := by
  intro s hI hs
  apply (h s hI hs.1).conseq (fun _ h => h) ?_ (fun _ h => h)
  intro a s' hs'
  exact ⟨hs'.1, hs'.2.1, hs'.2.2, hS s s' hs'.2.1 hs.2⟩

/-- The rule for a program whose run is known. -/
theorem of_run (h : ∀ s, I s → P s →
    match m.run.run s with
    | (.ok a, s') => I s' ∧ R s s' ∧ Q a s'
    | (.error _, s') => R s s' ∧ E s') : Keeps I R P m Q E := by
  intro s hI hs s' hs'
  rw [hs']
  exact h s hI hs

/-- A precondition may be used for each initial state on its own. -/
theorem of_forall (h : ∀ s, I s → P s → Keeps I R (fun s' => s' = s) m Q E) : Keeps I R P m Q E :=
  fun s hI hs => h s hI hs s hI rfl

/-- The final state is later than the initial one, also after an error. -/
theorem later {s₀ : σ} (h : Keeps I R (fun s => s = s₀) m Q E) :
    Keeps I R (fun s => s = s₀) m (fun a s => Q a s ∧ R s₀ s) (fun s => E s ∧ R s₀ s) := by
  rintro s hI rfl
  apply (h s hI rfl).conseq (fun _ h => h) ?_ (fun s' hs' => ⟨hs'.1, hs'.2, hs'.1⟩)
  intro a s' hs'
  exact ⟨hs'.1, hs'.2.1, hs'.2.2, hs'.2.1⟩

/-- A program that begins by reading the state. -/
theorem get_bind {f : σ → Prog σ ε α}
    (h : ∀ s₀, I s₀ → P s₀ → Keeps I R (fun s => s = s₀) (f s₀) Q E) :
    Keeps I R P (get >>= f) Q E := by
  intro s hI hs
  apply Triple.bind (Triple.get (Q := fun a s' => a = s ∧ s' = s) ?_) ?_
  · rintro _ rfl
    exact ⟨rfl, rfl⟩
  · rintro _ s' ⟨rfl, rfl⟩
    exact h _ hI hs _ hI rfl _ rfl

theorem throw [Std.Refl R] {e : ε} (h : ∀ s, I s → P s → E s) :
    Keeps I R P (throw e : Prog σ ε α) Q E := by
  intro s hI hs
  apply Triple.throw
  rintro _ rfl
  exact ⟨Std.Refl.refl _, h _ hI hs⟩

theorem pure [Std.Refl R] {a : α} (h : ∀ s, I s → P s → Q a s) :
    Keeps I R P (Pure.pure a : Prog σ ε α) Q E := by
  intro s hI hs
  apply Triple.pure
  rintro _ rfl
  exact ⟨hI, Std.Refl.refl _, h _ hI hs⟩

theorem modify {Q : PUnit → σ → Prop} {f : σ → σ}
    (h : ∀ s, I s → P s → I (f s) ∧ R s (f s) ∧ Q ⟨⟩ (f s)) :
    Keeps I R P (modify f : Prog σ ε PUnit) Q E := by
  intro s hI hs
  apply Triple.modify
  rintro _ rfl
  exact h _ hI hs

section Trans

variable [IsTrans σ R]

/-- One program after the other. -/
theorem bind {f : α → Prog σ ε β} (hm : Keeps I R P m Q E)
    (hf : ∀ a, Keeps I R (Q a) (f a) T E) : Keeps I R P (m >>= f) T E := by
  intro s hI hs
  apply Triple.bind (hm s hI hs)
  intro a s' hs'
  obtain ⟨hI', hR, hQ⟩ := hs'
  have := hf a s' hI' hQ s' rfl
  split at this
  · exact ⟨this.1, IsTrans.trans _ _ _ hR this.2.1, this.2.2⟩
  · exact ⟨IsTrans.trans _ _ _ hR this.1, this.2⟩

/-- The programs of a list, each giving a value with a stable property. -/
theorem mapM [Std.Refl R] {f : γ → Prog σ ε β} {l : List γ} {V : γ → β → σ → Prop}
    (hstable : ∀ x b, Stable R (V x b)) (hP : Stable R P)
    (h : ∀ x ∈ l, Keeps I R P (f x) (fun b s => V x b s) E) :
    Keeps I R P (l.mapM f) (fun bs s => List.Forall₂ (fun x b => V x b s) l bs) E := by
  induction l with
  | nil =>
      rw [List.mapM_nil]
      exact pure fun s _ _ => List.Forall₂.nil
  | cons x l ih =>
      rw [List.mapM_cons]
      apply bind ((h x List.mem_cons_self).frame hP |>.conseq (S := P)
        (fun s _ hs => ⟨hs, hs⟩) (fun _ _ _ h => h) (fun _ h => h))
      intro b
      have ih' := (ih fun y hy => h y (List.mem_cons_of_mem x hy)).frame (hstable x b)
      apply bind (ih'.conseq (fun s _ hs => ⟨hs.2, hs.1⟩) (fun _ _ _ h => h) (fun _ h => h))
      intro bs
      exact pure fun s _ hs => List.Forall₂.cons hs.2 hs.1

/-- What every program of a fold keeps, the fold keeps. -/
theorem foldlM [Std.Refl R] {f : β → γ → Prog σ ε β} {l : List γ} {b : β}
    {T : β → σ → Prop} (h : ∀ b, ∀ x ∈ l, Keeps I R (T b) (f b x) T E) :
    Keeps I R (T b) (l.foldlM f b) T E := by
  induction l generalizing b with
  | nil => exact pure fun s _ hs => hs
  | cons x l ih =>
      rw [List.foldlM_cons]
      apply bind (h b x List.mem_cons_self)
      intro b'
      exact ih fun b y hy => h b y (List.mem_cons_of_mem x hy)

/-- The programs of a list one after the other, with an invariant of what is done and what is
    left. -/
theorem forM [Std.Refl R] {f : γ → Prog σ ε PUnit} {l : List γ} {J : List γ → List γ → σ → Prop}
    (h : ∀ done x rest, l = done ++ x :: rest →
      Keeps I R (J done (x :: rest)) (f x) (fun _ => J (done ++ [x]) rest) E) :
    Keeps I R (J [] l) (l.forM f) (fun _ => J l []) E := by
  suffices hsuffix : ∀ rest done, l = done ++ rest →
      Keeps I R (J done rest) (rest.forM f) (fun _ => J l []) E from hsuffix l [] rfl
  intro rest
  induction rest with
  | nil =>
      intro done hsplit
      rw [List.append_nil] at hsplit
      subst hsplit
      exact pure fun s _ hs => hs
  | cons x rest ih =>
      intro done hsplit
      show Keeps I R _ (f x >>= fun _ => rest.forM f) _ E
      apply bind (h done x rest hsplit)
      intro _
      exact ih (done ++ [x]) (by rw [hsplit, List.append_assoc]; rfl)

end Trans

end Keeps

end Pliron.Lib
