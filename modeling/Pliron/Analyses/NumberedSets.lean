/-
  Pliron.Analyses.NumberedSets

  Sets of numbers that stand for sets of blocks.

  With the blocks in a list `l` without duplicates, `IsSetOf l s P` says that `s`
  holds exactly the numbers of the blocks that satisfy `P`, and `Represents` says
  so for a vector of sets, one for each block.  The operations on sets carry over
  to predicates.  `foldl_set_invariant` is the rule for the loops of the analysis,
  each of which fills in one entry after the other from entries that are final.
-/

import Pliron.Analyses.Liveness

namespace Pliron

open BitSet

namespace BitSet

variable {n i j : Nat} {s : BitSet} {sets : List BitSet}

@[simp] theorem mem_iter : i ∈ iter n s ↔ i < n ∧ i ∈ s := by
  simp [iter]

@[simp] theorem mem_unionAll : i ∈ unionAll sets ↔ ∃ s ∈ sets, i ∈ s := by
  induction sets with
  | nil => simp [unionAll]
  | cons s sets ih =>
      have hcons : unionAll (s :: sets) = s ∪ unionAll sets := rfl
      rw [hcons, Finset.mem_union, ih]
      simp

theorem at'_set_self (hi : i < sets.length) : at' (sets.set i s) i = s := by
  simp [at', List.getD_eq_getElem?_getD, hi]

theorem at'_set_ne (hij : i ≠ j) : at' (sets.set i s) j = at' sets j := by
  simp [at', List.getD_eq_getElem?_getD, List.getElem?_set_ne hij]

theorem at'_replicate : at' (List.replicate n ∅) i = ∅ := by
  by_cases hi : i < n <;> simp [at', List.getD_eq_getElem?_getD, hi]

theorem at'_map (f : BitSet → BitSet) (hi : i < sets.length) :
    at' (sets.map f) i = f (at' sets i) := by
  simp [at', List.getD_eq_getElem?_getD, hi]

theorem at'_mapIdx (f : Nat → BitSet → BitSet) (hi : i < sets.length) :
    at' (sets.mapIdx f) i = f i (at' sets i) := by
  simp [at', List.getD_eq_getElem?_getD, hi]

/-- The rule for a loop that fills in the entries of a vector in a given order. -/
theorem foldl_set_invariant (f : List BitSet → Nat → BitSet) (P : Nat → BitSet → Prop)
    (order : List Nat) (sets₀ : List BitSet) (hnodup : order.Nodup)
    (hlt : ∀ i ∈ order, i < sets₀.length)
    (hstep : ∀ done i rest sets, order = done ++ i :: rest → sets.length = sets₀.length →
      (∀ j ∈ done, P j (at' sets j)) → (∀ j, j ∉ done → at' sets j = at' sets₀ j) →
      P i (f sets i)) :
    (order.foldl (fun sets i => sets.set i (f sets i)) sets₀).length = sets₀.length ∧
      (∀ i ∈ order, P i (at' (order.foldl (fun sets i => sets.set i (f sets i)) sets₀) i)) ∧
      ∀ j, j ∉ order → at' (order.foldl (fun sets i => sets.set i (f sets i)) sets₀) j =
        at' sets₀ j := by
  have hgen : ∀ (rest done : List Nat) (sets : List BitSet), order = done ++ rest →
      sets.length = sets₀.length → (∀ j ∈ done, P j (at' sets j)) →
      (∀ j, j ∉ done → at' sets j = at' sets₀ j) →
      (rest.foldl (fun sets i => sets.set i (f sets i)) sets).length = sets₀.length ∧
        (∀ i ∈ order, P i (at' (rest.foldl (fun sets i => sets.set i (f sets i)) sets) i)) ∧
        ∀ j, j ∉ order → at' (rest.foldl (fun sets i => sets.set i (f sets i)) sets) j =
          at' sets₀ j := by
    intro rest
    induction rest with
    | nil =>
        intro done sets horder hlen hdone hother
        rw [List.append_nil] at horder
        subst horder
        exact ⟨hlen, hdone, hother⟩
    | cons i rest ih =>
        intro done sets horder hlen hdone hother
        have hi : i < sets.length := hlen ▸ hlt i (by simp [horder])
        have hidone : i ∉ done := by
          rw [horder] at hnodup
          exact fun h => (List.nodup_append.mp hnodup).2.2 i h i List.mem_cons_self rfl
        rw [List.foldl_cons]
        refine ih (done ++ [i]) _ (by simp [horder]) (by simpa using hlen) ?_ ?_
        · intro j hj
          rcases List.mem_append.mp hj with hj | hj
          · have hij : i ≠ j := fun heq => hidone (heq ▸ hj)
            rw [at'_set_ne hij]
            exact hdone j hj
          · rw [List.mem_singleton.mp hj, at'_set_self hi]
            exact hstep done i rest sets horder hlen hdone hother
        · intro j hj
          rw [List.mem_append, List.mem_singleton, not_or] at hj
          rw [at'_set_ne (Ne.symm hj.2)]
          exact hother j hj.1
  exact hgen order [] sets₀ rfl rfl (by simp) (fun _ _ => rfl)

end BitSet

variable {α : Type} {l : List α} {s s' : BitSet} {sets : List BitSet} {P P' : α → Prop}
  {R : α → α → Prop} {u v : α} {i j : Nat}

/-- `s` holds the numbers of the blocks that satisfy `P`. -/
def IsSetOf (l : List α) (s : BitSet) (P : α → Prop) : Prop :=
  ∀ j, j ∈ s ↔ ∃ v, l[j]? = some v ∧ P v

/-- `sets` holds, for each block `u`, the numbers of the blocks `v` with `R u v`. -/
def Represents (l : List α) (sets : List BitSet) (R : α → α → Prop) : Prop :=
  sets.length = l.length ∧ ∀ i u, l[i]? = some u → IsSetOf l (at' sets i) (R u)

namespace IsSetOf

theorem mem_iff (h : IsSetOf l s P) (hj : l[j]? = some v) : j ∈ s ↔ P v := by
  rw [h j]
  constructor
  · rintro ⟨w, hw, hP⟩
    exact Option.some.inj (hw.symm.trans hj) ▸ hP
  · exact fun hP => ⟨v, hj, hP⟩

theorem congr (h : IsSetOf l s P) (hP : ∀ v, v ∈ l → (P v ↔ P' v)) : IsSetOf l s P' := by
  intro j
  rw [h j]
  constructor
  · rintro ⟨v, hv, hPv⟩
    exact ⟨v, hv, (hP v (List.mem_of_getElem? hv)).mp hPv⟩
  · rintro ⟨v, hv, hPv⟩
    exact ⟨v, hv, (hP v (List.mem_of_getElem? hv)).mpr hPv⟩

theorem empty (hP : ∀ v ∈ l, ¬ P v) : IsSetOf l ∅ P := by
  intro j
  simp only [Finset.notMem_empty, false_iff, not_exists, not_and]
  exact fun v hv => hP v (List.mem_of_getElem? hv)

theorem union (h : IsSetOf l s P) (h' : IsSetOf l s' P') :
    IsSetOf l (s ∪ s') (fun v => P v ∨ P' v) := by
  intro j
  rw [Finset.mem_union, h j, h' j]
  constructor
  · rintro (⟨v, hv, hP⟩ | ⟨v, hv, hP⟩)
    · exact ⟨v, hv, Or.inl hP⟩
    · exact ⟨v, hv, Or.inr hP⟩
  · rintro ⟨v, hv, hP | hP⟩
    · exact Or.inl ⟨v, hv, hP⟩
    · exact Or.inr ⟨v, hv, hP⟩

theorem inter (h : IsSetOf l s P) (h' : IsSetOf l s' P') :
    IsSetOf l (s ∩ s') (fun v => P v ∧ P' v) := by
  intro j
  rw [Finset.mem_inter, h j, h' j]
  constructor
  · rintro ⟨⟨v, hv, hP⟩, w, hw, hP'⟩
    exact ⟨v, hv, hP, Option.some.inj (hw.symm.trans hv) ▸ hP'⟩
  · rintro ⟨v, hv, hP, hP'⟩
    exact ⟨⟨v, hv, hP⟩, v, hv, hP'⟩

theorem sdiff (h : IsSetOf l s P) (h' : IsSetOf l s' P') :
    IsSetOf l (s \ s') (fun v => P v ∧ ¬ P' v) := by
  intro j
  rw [Finset.mem_sdiff, h j]
  constructor
  · rintro ⟨⟨v, hv, hP⟩, hn⟩
    exact ⟨v, hv, hP, fun hP' => hn ((h'.mem_iff hv).mpr hP')⟩
  · rintro ⟨v, hv, hP, hn⟩
    exact ⟨⟨v, hv, hP⟩, fun hj => hn ((h'.mem_iff hv).mp hj)⟩

theorem insert (hl : l.Nodup) (hj : l[j]? = some v) (h : IsSetOf l s P) :
    IsSetOf l (Insert.insert j s) (fun w => w = v ∨ P w) := by
  intro k
  rw [Finset.mem_insert, h k]
  constructor
  · rintro (rfl | ⟨w, hw, hP⟩)
    · exact ⟨v, hj, Or.inl rfl⟩
    · exact ⟨w, hw, Or.inr hP⟩
  · rintro ⟨w, hw, rfl | hP⟩
    · exact Or.inl (eq_of_getElem?_eq hl hw hj)
    · exact Or.inr ⟨w, hw, hP⟩

theorem erase (hl : l.Nodup) (hj : l[j]? = some v) (h : IsSetOf l s P) :
    IsSetOf l (s.erase j) (fun w => w ≠ v ∧ P w) := by
  intro k
  rw [Finset.mem_erase, h k]
  constructor
  · rintro ⟨hk, w, hw, hP⟩
    refine ⟨w, hw, ?_, hP⟩
    rintro rfl
    exact hk (eq_of_getElem?_eq hl hw hj)
  · rintro ⟨w, hw, hne, hP⟩
    refine ⟨?_, w, hw, hP⟩
    rintro rfl
    exact hne (Option.some.inj (hw.symm.trans hj))

/-- A union over the members of a set. -/
theorem unionAll_map {f : Nat → BitSet} {Q : α → α → Prop} {n : Nat} (hn : n = l.length)
    (h : IsSetOf l s P) (hf : ∀ j v, l[j]? = some v → P v → IsSetOf l (f j) (Q v)) :
    IsSetOf l (unionAll ((iter n s).map f)) (fun w => ∃ v ∈ l, P v ∧ Q v w) := by
  intro k
  simp only [mem_unionAll, List.mem_map, mem_iter, exists_exists_and_eq_and]
  constructor
  · rintro ⟨j, ⟨_, hj⟩, hk⟩
    obtain ⟨v, hv, hP⟩ := (h j).mp hj
    obtain ⟨w, hw, hQ⟩ := (hf j v hv hP k).mp hk
    exact ⟨w, hw, v, List.mem_of_getElem? hv, hP, hQ⟩
  · rintro ⟨w, hw, v, hvl, hP, hQ⟩
    obtain ⟨j, hjl, rfl⟩ := List.getElem_of_mem hvl
    have hv : l[j]? = some l[j] := List.getElem?_eq_getElem hjl
    exact ⟨j, ⟨by omega, (h.mem_iff hv).mpr hP⟩, (hf j _ hv hP k).mpr ⟨w, hw, hQ⟩⟩

theorem ne_empty_iff (h : IsSetOf l s P) : s ≠ ∅ ↔ ∃ v ∈ l, P v := by
  rw [← Finset.nonempty_iff_ne_empty]
  constructor
  · rintro ⟨j, hj⟩
    obtain ⟨v, hv, hP⟩ := (h j).mp hj
    exact ⟨v, List.mem_of_getElem? hv, hP⟩
  · rintro ⟨v, hv, hP⟩
    obtain ⟨j, hj, rfl⟩ := List.getElem_of_mem hv
    exact ⟨j, (h.mem_iff (List.getElem?_eq_getElem hj)).mpr hP⟩

end IsSetOf

end Pliron
