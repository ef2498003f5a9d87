/-
  Pliron.Lib.DefUse

  Two-sided def-use chains.

  A user holds references, each with an identifier and the definition it refers
  to, and a definition holds the set of its uses, each a user with an identifier.
  `Consistent` says that the two sides describe the same relation.  The rules say
  how it survives when a reference is added, removed or redirected, and when
  definitions come and go.
-/

import Mathlib.Data.List.Nodup
import Mathlib.Data.List.Perm.Basic
import Mathlib.Logic.Function.Basic
import Mathlib.Tactic.Common

namespace Pliron.Lib

open Function

variable {O U D : Type*}

/-- References and uses describe the same relation, without duplicates.  `uses d` is `none`
    where nothing is defined. -/
structure Consistent (refs : O → List (U × D)) (uses : D → Option (List (O × U))) : Prop where
  /-- Every reference is recorded by the definition it refers to. -/
  recorded : ∀ o, ∀ r ∈ refs o, ∃ us, uses r.2 = some us ∧ (o, r.1) ∈ us
  /-- Every recorded use is a reference. -/
  refers : ∀ d us, uses d = some us → ∀ u ∈ us, (u.2, d) ∈ refs u.1
  ids_nodup : ∀ o, ((refs o).map Prod.fst).Nodup
  uses_nodup : ∀ d us, uses d = some us → us.Nodup

namespace Consistent

variable {refs refs' : O → List (U × D)} {uses : D → Option (List (O × U))} {o : O} {u : U}
  {d d' : D} {us us' : List (O × U)} {l l' : List (U × D)}

theorem empty : Consistent (fun _ : O => ([] : List (U × D))) (fun _ => none) :=
  ⟨by simp, by simp, by simp, by simp⟩

/-- The use sets are exactly the references. -/
theorem mem_iff (h : Consistent refs uses) (hd : uses d = some us) :
    (o, u) ∈ us ↔ (u, d) ∈ refs o := by
  constructor
  · exact fun hu => h.refers d us hd (o, u) hu
  · intro hr
    obtain ⟨us', hus', hu⟩ := h.recorded o (u, d) hr
    rwa [Option.some.inj (hd.symm.trans hus')]

/-- An identifier of a user refers to one definition. -/
theorem def_unique (h : Consistent refs uses) (hd : (u, d) ∈ refs o) (hd' : (u, d') ∈ refs o) :
    d = d' :=
  congrArg Prod.snd (List.inj_on_of_nodup_map (h.ids_nodup o) hd hd' rfl)

/-- The order of references does not matter. -/
theorem perm (h : Consistent refs uses) (hp : ∀ o, (refs' o).Perm (refs o)) :
    Consistent refs' uses where
  recorded o r hr := h.recorded o r ((hp o).mem_iff.mp hr)
  refers d us hd u hu := (hp u.1).mem_iff.mpr (h.refers d us hd u hu)
  ids_nodup o := ((hp o).map Prod.fst).nodup_iff.mpr (h.ids_nodup o)
  uses_nodup := h.uses_nodup

section Updates

variable [DecidableEq O] [DecidableEq D]

/-- A new reference is recorded by its definition. -/
theorem addRef (h : Consistent refs uses) (hd : uses d = some us)
    (hfresh : ∀ r ∈ refs o, r.1 ≠ u) (hl : l.Perm ((u, d) :: refs o)) :
    Consistent (update refs o l) (update uses d (some (us ++ [(o, u)]))) := by
  have hcons : Consistent (update refs o ((u, d) :: refs o))
      (update uses d (some (us ++ [(o, u)]))) := by
    refine ⟨?_, ?_, ?_, ?_⟩
    · intro o' r hr
      -- the new reference is recorded where it was added, the old ones where they were
      by_cases ho : o' = o
      · subst ho
        rw [update_self] at hr
        rcases List.mem_cons.mp hr with rfl | hr
        · exact ⟨_, update_self .., by simp⟩
        · obtain ⟨us', hus', hu⟩ := h.recorded o' r hr
          by_cases hrd : r.2 = d
          · refine ⟨us ++ [(o', u)], by rw [hrd, update_self], List.mem_append_left _ ?_⟩
            rw [hrd] at hus'
            rwa [Option.some.inj (hd.symm.trans hus')]
          · exact ⟨us', by rw [update_of_ne hrd, hus'], hu⟩
      · rw [update_of_ne ho] at hr
        obtain ⟨us', hus', hu⟩ := h.recorded o' r hr
        by_cases hrd : r.2 = d
        · refine ⟨us ++ [(o, u)], by rw [hrd, update_self], List.mem_append_left _ ?_⟩
          rw [hrd] at hus'
          rwa [Option.some.inj (hd.symm.trans hus')]
        · exact ⟨us', by rw [update_of_ne hrd, hus'], hu⟩
    · have hold : ∀ {o' u' d'}, (u', d') ∈ refs o' →
          (u', d') ∈ update refs o ((u, d) :: refs o) o' := by
        intro o' u' d' hr
        by_cases ho : o' = o
        · subst ho
          rw [update_self]
          exact List.mem_cons_of_mem _ hr
        · rwa [update_of_ne ho]
      intro d' us' hd' w hw
      by_cases heq : d' = d
      · subst heq
        rw [update_self] at hd'
        rw [← Option.some.inj hd', List.mem_append, List.mem_singleton] at hw
        rcases hw with hw | rfl
        · exact hold (h.refers d' us hd w hw)
        · rw [update_self]
          exact List.mem_cons_self
      · rw [update_of_ne heq] at hd'
        exact hold (h.refers d' us' hd' w hw)
    · intro o'
      by_cases ho : o' = o
      · subst ho
        rw [update_self, List.map_cons, List.nodup_cons]
        -- the identity is new to the one that refers, so no identity comes twice
        refine ⟨fun hmem => ?_, h.ids_nodup o'⟩
        obtain ⟨r, hr, hru⟩ := List.mem_map.mp hmem
        exact hfresh r hr hru
      · rw [update_of_ne ho]
        exact h.ids_nodup o'
    · intro d' us' hd'
      by_cases heq : d' = d
      · subst heq
        rw [update_self] at hd'
        rw [← Option.some.inj hd', List.nodup_append]
        refine ⟨h.uses_nodup d' us hd, by simp, ?_⟩
        intro w hw w' hw' heq
        have hr := h.refers d' us hd w hw
        rw [heq, List.mem_singleton.mp hw'] at hr
        exact hfresh _ hr rfl
      · rw [update_of_ne heq] at hd'
        exact h.uses_nodup d' us' hd'
  refine hcons.perm (fun o' => ?_)
  by_cases ho : o' = o
  · subst ho
    rw [update_self, update_self]
    exact hl
  · rw [update_of_ne ho, update_of_ne ho]

/-- A removed reference is removed from the uses of its definition. -/
theorem removeRef [DecidableEq U] (h : Consistent refs uses) (hd : uses d = some us)
    (hl : ((u, d) :: l).Perm (refs o)) :
    Consistent (update refs o l) (update uses d (some (us.erase (o, u)))) := by
  have hnodup : (((u, d) :: l).map Prod.fst).Nodup :=
    ((hl.map Prod.fst).nodup_iff).mpr (h.ids_nodup o)
  rw [List.map_cons, List.nodup_cons] at hnodup
  -- no reference that is left has the identity of the one that goes
  have hfresh : ∀ r ∈ l, r.1 ≠ u := fun r hr heq =>
    hnodup.1 (List.mem_map.mpr ⟨r, hr, heq⟩)
  have hmem : ∀ {r}, r ∈ refs o ↔ r = (u, d) ∨ r ∈ l := by
    intro r
    rw [← hl.mem_iff, List.mem_cons]
  have hus := h.uses_nodup d us hd
  refine ⟨?_, ?_, ?_, ?_⟩
  · intro o' r hr
    have hr' : r ∈ refs o' ∧ (o', r.1) ≠ (o, u) := by
      by_cases ho : o' = o
      · subst ho
        rw [update_self] at hr
        refine ⟨hmem.mpr (Or.inr hr), fun heq => hfresh r hr (congrArg Prod.snd heq)⟩
      · rw [update_of_ne ho] at hr
        exact ⟨hr, fun heq => ho (congrArg Prod.fst heq)⟩
    obtain ⟨us', hus', hu⟩ := h.recorded o' r hr'.1
    by_cases hrd : r.2 = d
    · rw [hrd] at hus'
      refine ⟨us.erase (o, u), by rw [hrd, update_self], ?_⟩
      rw [hus.mem_erase_iff]
      exact ⟨hr'.2, by rwa [Option.some.inj (hd.symm.trans hus')]⟩
    · exact ⟨us', by rw [update_of_ne hrd, hus'], hu⟩
  · intro d' us' hd' w hw
    have hw' : (w.2, d') ∈ refs w.1 ∧ (w.1 = o → (w.2, d') ≠ (u, d)) := by
      by_cases heq : d' = d
      · subst heq
        rw [update_self] at hd'
        rw [← Option.some.inj hd', hus.mem_erase_iff] at hw
        exact ⟨h.refers d' us hd w hw.2,
          fun ho hu => hw.1 (Prod.ext ho (congrArg Prod.fst hu))⟩
      · rw [update_of_ne heq] at hd'
        exact ⟨h.refers d' us' hd' w hw, fun _ hu => heq (congrArg Prod.snd hu)⟩
    -- a use that is left is still referred to
    by_cases ho : w.1 = o
    · rw [ho, update_self]
      rw [ho] at hw'
      exact (hmem.mp hw'.1).resolve_left (hw'.2 rfl)
    · rw [update_of_ne ho]
      exact hw'.1
  · intro o'
    by_cases ho : o' = o
    · subst ho
      rw [update_self]
      exact hnodup.2
    · rw [update_of_ne ho]
      exact h.ids_nodup o'
  · intro d' us' hd'
    by_cases heq : d' = d
    · subst heq
      rw [update_self] at hd'
      rw [← Option.some.inj hd']
      exact hus.erase _
    · rw [update_of_ne heq] at hd'
      exact h.uses_nodup d' us' hd'

/-- A redirected reference moves from the uses of one definition to those of another. -/
theorem moveRef [DecidableEq U] (h : Consistent refs uses) (hdd : d ≠ d') (hd : uses d = some us)
    (hd' : uses d' = some us') (hl : ((u, d) :: l).Perm (refs o))
    (hl' : l'.Perm ((u, d') :: l)) :
    Consistent (update refs o l')
      (update (update uses d' (some (us' ++ [(o, u)]))) d (some (us.erase (o, u)))) := by
  have hrem := h.removeRef hd hl
  have hnodup : (((u, d) :: l).map Prod.fst).Nodup :=
    ((hl.map Prod.fst).nodup_iff).mpr (h.ids_nodup o)
  rw [List.map_cons, List.nodup_cons] at hnodup
  have hadd := hrem.addRef (o := o) (u := u) (l := l')
    (by rw [update_of_ne (Ne.symm hdd)]; exact hd')
    (by
      rw [update_self]
      exact fun r hr heq => hnodup.1 (List.mem_map.mpr ⟨r, hr, heq⟩))
    (by rw [update_self]; exact hl')
  rwa [update_idem, update_comm hdd] at hadd

end Updates

/-- Definitions without uses can come and go, any number of them at once. -/
theorem of_unused (h : Consistent refs uses) {uses' : D → Option (List (O × U))}
    (hunused : ∀ d, uses' d = uses d ∨ ((uses d).getD [] = [] ∧ (uses' d).getD [] = [])) :
    Consistent refs uses' where
  recorded := by
    intro o r hr
    obtain ⟨us, hus, hu⟩ := h.recorded o r hr
    rcases hunused r.2 with heq | ⟨hnil, _⟩
    · exact ⟨us, heq.trans hus, hu⟩
    · rw [hus, Option.getD_some] at hnil
      rw [hnil] at hu
      exact absurd hu List.not_mem_nil
  refers := by
    intro d us hd w hw
    rcases hunused d with heq | ⟨_, hnil⟩
    · exact h.refers d us (heq.symm.trans hd) w hw
    · rw [hd, Option.getD_some] at hnil
      rw [hnil] at hw
      exact absurd hw List.not_mem_nil
  ids_nodup := h.ids_nodup
  uses_nodup := by
    intro d us hd
    rcases hunused d with heq | ⟨_, hnil⟩
    · exact h.uses_nodup d us (heq.symm.trans hd)
    · rw [hd, Option.getD_some] at hnil
      rw [hnil]
      exact List.nodup_nil

end Consistent

end Pliron.Lib
