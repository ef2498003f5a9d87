/-
  Pliron.Lib.NaturalLoops

  The natural loops of a directed graph with a root.

  A latch of `h` is a reachable node with an edge to `h` that `h` dominates, and
  the loop of `h` holds `h` and what reaches a latch without passing through
  `h`.  Two loops are nested or disjoint, and the loop of a header inside another
  loop lies inside that loop.
-/

import Pliron.Lib.DfsOrder

namespace Pliron.Lib

open Relation

variable {α : Type*} {E : α → α → Prop} {r h h' l u v : α}

/-- After a strict dominator of `h'` was left for the last time, only `h'` leads on to what
    `h'` dominates. -/
theorem Avoids.of_strictlyDominates (hh : StrictlyDominates E r h h') (hu : Reach E r u)
    (hh'u : Dominates E r h' u) : Avoids E h h' u := by
  have hroot : Avoids E h' r h := by
    by_contra hdom
    exact hh.2 (hh.1.antisymm hdom (hh.1.reach (hh'u.reach hu).1).1)
  have key : Avoids E h' r u ∨ Avoids E h h' u := by
    clear hh'u
    induction hu with
    | refl =>
        exact Or.inl (Avoids.refl hroot.left_ne)
    | @tail x y _ hxy ih =>
        rcases ih with ih | ih
        · by_cases hy : y = h'
          · subst hy
            exact Or.inr (Avoids.refl (Ne.symm hh.2))
          · exact Or.inl (ih.tail hxy hy)
        · by_cases hy : y = h
          · exact Or.inl (hy ▸ hroot)
          · exact Or.inr (ih.tail hxy hy)
  exact key.resolve_left hh'u

/-- A source of a back edge to `h`. -/
structure Latch (E : α → α → Prop) (r h l : α) : Prop where
  reach : Reach E r l
  edge : E l h
  dominates : Dominates E r h l

/-- `h` is the target of a back edge. -/
def IsHeader (E : α → α → Prop) (r h : α) : Prop := ∃ l, Latch E r h l

/-- `u` is in the loop of `h`. -/
inductive InLoop (E : α → α → Prop) (r h : α) : α → Prop
  | header {l : α} (hl : Latch E r h l) : InLoop E r h h
  | body {l u : α} (hl : Latch E r h l) (hu : Reach E r u) (hul : Avoids E h u l) : InLoop E r h u

namespace InLoop

theorem isHeader (hu : InLoop E r h u) : IsHeader E r h := by
  cases hu with
  | header hl => exact ⟨_, hl⟩
  | body hl _ _ => exact ⟨_, hl⟩

theorem self (hh : IsHeader E r h) : InLoop E r h h := by
  obtain ⟨l, hl⟩ := hh
  exact .header hl

theorem reach (hu : InLoop E r h u) : Reach E r u := by
  cases hu with
  | header hl => exact hl.reach.tail hl.edge
  | body _ hu _ => exact hu

theorem of_latch (hl : Latch E r h l) : InLoop E r h l := by
  by_cases hlh : l = h
  · subst hlh
    exact self ⟨l, hl⟩
  · exact .body hl hl.reach (Avoids.refl hlh)

/-- The header dominates its loop. -/
theorem dominates (hu : InLoop E r h u) : Dominates E r h u := by
  cases hu with
  | header _ => exact Dominates.refl h
  | body hl _ hul => exact fun hru => hl.dominates (hru.trans hul)

theorem strictlyDominates (hu : InLoop E r h u) (hne : u ≠ h) : StrictlyDominates E r h u :=
  ⟨hu.dominates, Ne.symm hne⟩

/-- What has an edge to a node of the loop other than the header is in the loop. -/
theorem pred (hv : InLoop E r h v) (hne : v ≠ h) (hu : Reach E r u) (huv : E u v) :
    InLoop E r h u := by
  by_cases huh : u = h
  · subst huh
    exact self hv.isHeader
  · cases hv with
    | header _ => exact absurd rfl hne
    | body hl _ hvl => exact .body hl hu (hvl.head huv huh)

/-- The loop of a header inside a loop lies inside that loop. -/
theorem trans (hh : InLoop E r h h') (hu : InLoop E r h' u) : InLoop E r h u := by
  by_cases hne : h' = h
  · exact hne ▸ hu
  · cases hu with
    | header _ => exact hh
    | @body l _ hl hur hul =>
        -- from the latch back to `u`, never at `h`, which `h'` does not dominate
        have key : Reach E r u → InLoop E r h u := by
          refine hul.head_induction (P := fun x => Reach E r x → InLoop E r h x)
            (fun _ => hh.pred hne hl.reach hl.edge) ?_
          intro x y _ hxy hyl ih hx
          have hy : Reach E r y := hx.tail hxy
          have hyne : y ≠ h := by
            rintro rfl
            have hback : Dominates E r h' y := fun hry => hl.dominates (hry.trans hyl)
            exact hne (hback.antisymm hh.dominates hh.reach)
          exact (ih hy).pred hyne hx hxy
        exact key hur

/-- Of two loops with a common node, one has the header of the other. -/
theorem comparable (hu : InLoop E r h u) (hu' : InLoop E r h' u) :
    InLoop E r h h' ∨ InLoop E r h' h := by
  have key : ∀ {a b : α}, InLoop E r a u → InLoop E r b u → Dominates E r a b →
      InLoop E r a b := by
    intro a b ha hb hab
    by_cases hne : a = b
    · exact hne ▸ self ha.isHeader
    · have hba : Avoids E a b u := Avoids.of_strictlyDominates ⟨hab, hne⟩ ha.reach hb.dominates
      have hbr : Reach E r b := (hb.dominates.reach hb.reach).1
      cases ha with
      | header _ => exact absurd rfl hba.right_ne
      | body hl _ hul => exact .body hl hbr (hba.trans hul)
  exact (hu.dominates.total hu'.dominates hu.reach).imp (key hu hu') (key hu' hu)

theorem antisymm (hu : InLoop E r h h') (hu' : InLoop E r h' h) : h = h' :=
  hu.dominates.antisymm hu'.dominates hu'.reach

/-- A depth-first search closes the headers inside a loop before the header of the loop. -/
theorem post_lt {pre post : α → Nat} (hdfs : IsDfsOrder E r pre post) (hh : InLoop E r h h')
    (hne : h' ≠ h) : post h' < post h :=
  (hdfs.lt_of_strictlyDominates hh.reach (hh.strictlyDominates hne)).2

end InLoop

end Pliron.Lib
