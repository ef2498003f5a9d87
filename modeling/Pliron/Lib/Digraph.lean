/-
  Pliron.Lib.Digraph

  Reachability, avoiding paths and dominance in a directed graph given by its
  edge relation.  Nothing here names the compiler: the control-flow graphs of
  the development instantiate `E` with "is a successor of".

  A path that does not pass through `d` is `Avoids E d a b`: both ends differ
  from `d` and every edge taken enters a node other than `d`.  "Every path from
  `r` to `b` passes through `d`" is then the absence of such a path, which is
  how `Dominates` is stated.
-/

import Mathlib.Logic.Relation
import Mathlib.Tactic

namespace Pliron.Lib

open Relation

variable {α : Type*} {E : α → α → Prop} {a b c d r x y : α}

/-! ## Reachability -/

/-- There is a (possibly empty) path from `a` to `b`. -/
def Reach (E : α → α → Prop) (a b : α) : Prop := ReflTransGen E a b

namespace Reach

theorem refl (a : α) : Reach E a a := ReflTransGen.refl

theorem trans (h₁ : Reach E a b) (h₂ : Reach E b c) : Reach E a c := ReflTransGen.trans h₁ h₂

theorem tail (h₁ : Reach E a b) (h₂ : E b c) : Reach E a c := ReflTransGen.tail h₁ h₂

theorem head (h₁ : E a b) (h₂ : Reach E b c) : Reach E a c := ReflTransGen.head h₁ h₂

theorem mono {E' : α → α → Prop} (h : ∀ x y, E x y → E' x y) (hab : Reach E a b) :
    Reach E' a b :=
  ReflTransGen.mono h a b hab

/-- A set closed under edges contains everything reachable from its members. -/
theorem closed {P : α → Prop} (h : Reach E a b) (ha : P a)
    (hstep : ∀ x y, P x → E x y → P y) : P b := by
  induction h with
  | refl => exact ha
  | tail _ hbc ih => exact hstep _ _ ih hbc

end Reach

/-! ## Paths that avoid a node -/

/-- There is a path from `a` to `b` that does not pass through `d`. -/
def Avoids (E : α → α → Prop) (d a b : α) : Prop :=
  a ≠ d ∧ ReflTransGen (fun x y => E x y ∧ y ≠ d) a b

namespace Avoids

theorem refl (h : a ≠ d) : Avoids E d a a := ⟨h, ReflTransGen.refl⟩

theorem left_ne (h : Avoids E d a b) : a ≠ d := h.1

theorem right_ne (h : Avoids E d a b) : b ≠ d := by
  obtain ⟨ha, h⟩ := h
  induction h with
  | refl => exact ha
  | tail _ hbc _ => exact hbc.2

theorem tail (h₁ : Avoids E d a b) (h₂ : E b c) (hc : c ≠ d) : Avoids E d a c :=
  ⟨h₁.1, ReflTransGen.tail h₁.2 ⟨h₂, hc⟩⟩

theorem trans (h₁ : Avoids E d a b) (h₂ : Avoids E d b c) : Avoids E d a c :=
  ⟨h₁.1, ReflTransGen.trans h₁.2 h₂.2⟩

theorem head (h₁ : E a b) (ha : a ≠ d) (h₂ : Avoids E d b c) : Avoids E d a c :=
  ⟨ha, ReflTransGen.head ⟨h₁, h₂.1⟩ h₂.2⟩

theorem reach (h : Avoids E d a b) : Reach E a b :=
  ReflTransGen.mono (fun _ _ h => h.1) _ _ h.2

theorem mono {E' : α → α → Prop} (hE : ∀ x y, E x y → E' x y) (h : Avoids E d a b) :
    Avoids E' d a b :=
  ⟨h.1, ReflTransGen.mono (fun x y h => ⟨hE x y h.1, h.2⟩) _ _ h.2⟩

/-- An avoiding path read backwards. -/
theorem reverse (h : Avoids E d a b) : Avoids (fun x y => E y x) d b a := by
  obtain ⟨ha, h⟩ := h
  induction h with
  | refl => exact Avoids.refl ha
  | tail _ hbc ih => exact Avoids.head hbc.1 hbc.2 ih

/-- The first edge of a non-trivial avoiding path. -/
theorem cases_head (h : Avoids E d a b) : a = b ∨ ∃ c, E a c ∧ Avoids E d c b := by
  obtain ⟨_, h⟩ := h
  rcases ReflTransGen.cases_head h with rfl | ⟨c, hac, hcb⟩
  · exact Or.inl rfl
  · exact Or.inr ⟨c, hac.1, hac.2, hcb⟩

/-- A path either avoids `d` or passes through it. -/
theorem of_reach (h : Reach E a b) : Avoids E d a b ∨ (Reach E a d ∧ Reach E d b) := by
  induction h with
  | refl =>
      by_cases had : a = d
      · subst had
        exact Or.inr ⟨Reach.refl _, Reach.refl _⟩
      · exact Or.inl (Avoids.refl had)
  | @tail b c hab hbc ih =>
      rcases ih with ih | ⟨h₁, h₂⟩
      · by_cases hc : c = d
        · subst hc
          exact Or.inr ⟨Reach.tail hab hbc, Reach.refl _⟩
        · exact Or.inl (ih.tail hbc hc)
      · exact Or.inr ⟨h₁, h₂.tail hbc⟩

/-- Where `d` cannot be reached, every path avoids it. -/
theorem of_not_reach (h : Reach E a b) (hd : ¬ Reach E a d) : Avoids E d a b := by
  rcases of_reach (d := d) h with h | h
  · exact h
  · exact absurd h.1 hd

/-- A map that keeps edges carries avoiding paths over, if it tells `d` from what they
    visit. -/
theorem map {β : Type*} {F : β → β → Prop} (f : α → β) (h : Avoids E d a b)
    (hE : ∀ x y, Reach E a x → E x y → F (f x) (f y))
    (hf : ∀ x, Reach E a x → x ≠ d → f x ≠ f d) : Avoids F (f d) (f a) (f b) := by
  refine ⟨hf a (Reach.refl a) h.1, ?_⟩
  have hpath := h.2
  clear h
  induction hpath with
  | refl => exact ReflTransGen.refl
  | @tail x y hax hxy ih =>
      have hreach : Reach E a x := ReflTransGen.mono (fun _ _ h => h.1) _ _ hax
      exact ih.tail ⟨hE x y hreach hxy.1, hf y (hreach.tail hxy.1) hxy.2⟩

/-- Induction along an avoiding path, from its target back to its source. -/
theorem head_induction {P : α → Prop} (h : Avoids E d a b) (hb : P b)
    (hstep : ∀ x y, x ≠ d → E x y → Avoids E d y b → P y → P x) : P a := by
  obtain ⟨ha, h⟩ := h
  induction h using ReflTransGen.head_induction_on with
  | refl => exact hb
  | @head x y hxy hyb ih => exact hstep x y ha hxy.1 ⟨hxy.2, hyb⟩ (ih hxy.2)

end Avoids

/-! ## Dominance -/

/-- Every path from the root `r` to `b` passes through `d`. -/
def Dominates (E : α → α → Prop) (r d b : α) : Prop := ¬ Avoids E d r b

/-- `d` dominates `b` and differs from it. -/
def StrictlyDominates (E : α → α → Prop) (r d b : α) : Prop := Dominates E r d b ∧ d ≠ b

namespace Dominates

theorem refl (b : α) : Dominates E r b b := fun h => h.right_ne rfl

theorem root (b : α) : Dominates E r r b := fun h => h.left_ne rfl

/-- A set that holds the root and is only left through `d` has its complement dominated. -/
theorem of_closed {P : α → Prop} (hr : P r) (hstep : ∀ x y, P x → E x y → y ≠ d → P y)
    (hb : ¬ P b) : Dominates E r d b := by
  rintro ⟨_, h⟩
  refine hb ?_
  clear hb
  induction h with
  | refl => exact hr
  | @tail x y _ hxy ih => exact hstep x y ih hxy.1 hxy.2

/-- A dominator of a reachable node is reachable, and reaches the node. -/
theorem reach (h : Dominates E r d b) (hb : Reach E r b) : Reach E r d ∧ Reach E d b := by
  rcases Avoids.of_reach (d := d) hb with h' | h'
  · exact absurd h' h
  · exact h'

theorem trans (h₁ : Dominates E r a b) (h₂ : Dominates E r b c) : Dominates E r a c := by
  intro h
  rcases Avoids.of_reach (d := b) h.reach with h' | h'
  · exact h₂ h'
  · -- the avoiding path itself passes through `b`, and its prefix avoids `a`
    have key : ∀ x, Avoids E a r x → Avoids E b r x ∨ Avoids E a r b := by
      intro x hx
      obtain ⟨hra, hx⟩ := hx
      induction hx with
      | refl =>
          by_cases hrb : r = b
          · exact Or.inr (hrb ▸ Avoids.refl hra)
          · exact Or.inl (Avoids.refl hrb)
      | @tail y z hry hyz ih =>
          rcases ih with ih | ih
          · by_cases hzb : z = b
            · exact Or.inr (hzb ▸ ⟨hra, ReflTransGen.tail hry hyz⟩)
            · exact Or.inl (ih.tail hyz.1 hzb)
          · exact Or.inr ih
    rcases key c h with hc | hb
    · exact h₂ hc
    · exact h₁ hb

/-- A dominator of a node other than the node itself dominates its predecessors. -/
theorem pred (h : Dominates E r d b) (he : E a b) (hne : b ≠ d) : Dominates E r d a :=
  fun ha => h (ha.tail he hne)

/-- Two nodes that dominate each other and are reachable are equal. -/
theorem antisymm (h₁ : Dominates E r a b) (h₂ : Dominates E r b a) (ha : Reach E r a) :
    a = b := by
  by_contra hne
  -- the first of the two nodes met on a path from the root contradicts one side
  have key : ∀ x, Reach E r x →
      (Avoids E a r x ∧ Avoids E b r x) ∨ Avoids E a r b ∨ Avoids E b r a := by
    intro x hx
    induction hx with
    | refl =>
        by_cases hra : r = a
        · subst hra
          exact Or.inr (Or.inr (Avoids.refl hne))
        · by_cases hrb : r = b
          · subst hrb
            exact Or.inr (Or.inl (Avoids.refl hra))
          · exact Or.inl ⟨Avoids.refl hra, Avoids.refl hrb⟩
    | @tail y z _ hyz ih =>
        rcases ih with ⟨hya, hyb⟩ | ih
        · by_cases hza : z = a
          · subst hza
            exact Or.inr (Or.inr (hyb.tail hyz hne))
          · by_cases hzb : z = b
            · subst hzb
              exact Or.inr (Or.inl (hya.tail hyz hza))
            · exact Or.inl ⟨hya.tail hyz hza, hyb.tail hyz hzb⟩
        · exact Or.inr ih
  rcases key a ha with ⟨h, _⟩ | h | h
  · exact h.right_ne rfl
  · exact h₁ h
  · exact h₂ h

/-- The dominators of a reachable node form a chain. -/
theorem total (h₁ : Dominates E r a x) (h₂ : Dominates E r b x) (hx : Reach E r x) :
    Dominates E r a b ∨ Dominates E r b a := by
  by_cases hab : a = b
  · exact Or.inl (hab ▸ Dominates.refl a)
  -- whichever of the two was met last on a path to `x`, the other one is avoided since
  have key : (Avoids E a r x ∧ Avoids E b r x) ∨ Avoids E b a x ∨ Avoids E a b x := by
    clear h₁ h₂
    induction hx with
    | refl =>
        by_cases hra : r = a
        · subst hra
          exact Or.inr (Or.inl (Avoids.refl hab))
        · by_cases hrb : r = b
          · subst hrb
            exact Or.inr (Or.inr (Avoids.refl (Ne.symm hab)))
          · exact Or.inl ⟨Avoids.refl hra, Avoids.refl hrb⟩
    | @tail y z _ hyz ih =>
        by_cases hza : z = a
        · subst hza
          exact Or.inr (Or.inl (Avoids.refl hab))
        · by_cases hzb : z = b
          · subst hzb
            exact Or.inr (Or.inr (Avoids.refl (Ne.symm hab)))
          · rcases ih with ⟨ha, hb⟩ | ih | ih
            · exact Or.inl ⟨ha.tail hyz hza, hb.tail hyz hzb⟩
            · exact Or.inr (Or.inl (ih.tail hyz hzb))
            · exact Or.inr (Or.inr (ih.tail hyz hza))
  rcases key with ⟨h, _⟩ | h | h
  · exact absurd h h₁
  · exact Or.inr (fun hb => h₂ (hb.trans h))
  · exact Or.inl (fun ha => h₁ (ha.trans h))

end Dominates

namespace StrictlyDominates

theorem not_root (h : StrictlyDominates E r d b) : b ≠ r := by
  rintro rfl
  by_cases hd : d = b
  · exact h.2 hd
  · exact h.1 (Avoids.refl (Ne.symm hd))

theorem trans (h₁ : StrictlyDominates E r a b) (h₂ : StrictlyDominates E r b c)
    (hc : Reach E r c) : StrictlyDominates E r a c := by
  refine ⟨h₁.1.trans h₂.1, ?_⟩
  rintro rfl
  exact h₁.2 (h₁.1.antisymm h₂.1 hc)

/-- The strict dominators of a node are the dominators of its immediate dominator. -/
theorem iff_of_idom {q : α} (hq : StrictlyDominates E r q b)
    (hidom : ∀ d, StrictlyDominates E r d b → Dominates E r d q) (hb : Reach E r b) :
    StrictlyDominates E r d b ↔ Dominates E r d q := by
  refine ⟨hidom d, fun hd => ⟨hd.trans hq.1, ?_⟩⟩
  rintro rfl
  exact hq.2 (hq.1.antisymm hd (hq.1.reach hb).1)

/-- A path that avoids `d` and ends in a node dominated by `d` only visits nodes
    strictly dominated by `d`. -/
theorem of_avoids (hb : Dominates E r d b) (hyb : Avoids E d y b) :
    StrictlyDominates E r d y :=
  ⟨fun h => hb (h.trans hyb), fun h => hyb.left_ne h.symm⟩

end StrictlyDominates

/-! ## Paths as lists -/

/-- `l` lists the nodes of a path from `a` to `b`. -/
inductive Path (E : α → α → Prop) : α → α → List α → Prop
  | single (a : α) : Path E a a [a]
  | cons {a b c : α} {l : List α} (hab : E a b) (hl : Path E b c l) : Path E a c (a :: l)

namespace Path

variable {l : List α}

theorem avoids (h : Path E a b l) (hd : d ∉ l) : Avoids E d a b := by
  induction h with
  | single a =>
      rw [List.mem_singleton] at hd
      exact Avoids.refl (Ne.symm hd)
  | cons hab _ ih =>
      rw [List.mem_cons, not_or] at hd
      exact (ih hd.2).head hab (Ne.symm hd.1)

theorem exists_of_avoids (h : Avoids E d a b) : ∃ l, Path E a b l ∧ d ∉ l := by
  have hb := h.right_ne
  refine h.head_induction (P := fun x => ∃ l, Path E x b l ∧ d ∉ l)
    ⟨[b], .single b, by simp [hb.symm]⟩ ?_
  rintro x y hx hxy _ ⟨l, hl, hd⟩
  exact ⟨x :: l, .cons hxy hl, by simp [hx.symm, hd]⟩

end Path

/-- The dominators of a node are what all paths to it have in common. -/
theorem dominates_iff_forall_path : Dominates E r d b ↔ ∀ l, Path E r b l → d ∈ l := by
  constructor
  · intro h l hl
    by_contra hd
    exact h (hl.avoids hd)
  · intro h havoids
    obtain ⟨l, hl, hd⟩ := Path.exists_of_avoids havoids
    exact hd (h l hl)

end Pliron.Lib
