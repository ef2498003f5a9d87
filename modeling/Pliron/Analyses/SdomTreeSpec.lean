/-
  Pliron.Analyses.SdomTreeSpec

  The strict dominator sub-trees that the walk of the dominator tree collects.

  The sub-trees of siblings are disjoint, so a later one does not disturb what an
  earlier one has stored.
-/

import Pliron.Analyses.NumberedSets
import Pliron.Graph.DomTreeWalk

namespace Pliron

open Pliron.Lib BitSet

variable {α : Type} [DecidableEq α]

/-! ## Numbering a list -/

section Numbering

variable {l : List α} {v : α} {i : Nat}

theorem get?_zipIdx (l : List α) (k : Nat) :
    IMap.get? (l.zipIdx k) v = (l.idxOf? v).map (fun i => i + k) := by
  induction l generalizing k with
  | nil => rfl
  | cons a l ih =>
      rw [List.zipIdx_cons, IMap.get?_cons, ih, List.idxOf?_cons]
      by_cases hav : a = v
      · simp [hav]
      · have hbeq : (a == v) = false := by simpa using hav
        rw [if_neg hav, hbeq, if_neg (by simp), Option.map_map]
        refine congrArg (fun f => Option.map f _) (funext (fun i => ?_))
        simp only [Function.comp_apply]
        omega

theorem get?_zipIdx_eq_some (hl : l.Nodup) (hv : l[i]? = some v) :
    IMap.get? l.zipIdx v = some i := by
  rw [get?_zipIdx, (idxOf?_eq_some_iff_of_nodup hl).mpr hv]
  rfl

theorem get?_zipIdx_eq_none (hv : v ∉ l) : IMap.get? l.zipIdx v = none := by
  rw [get?_zipIdx, List.idxOf?_eq_none_iff.mpr hv]
  rfl

theorem mapM_get?_zipIdx (hl : l.Nodup) {vs : List α} (hvs : ∀ v ∈ vs, v ∈ l) :
    vs.mapM (IMap.get? l.zipIdx) = some (vs.map (fun v => l.idxOf v)) := by
  induction vs with
  | nil => rfl
  | cons v vs ih =>
      have hv := List.getElem?_idxOf (hvs v List.mem_cons_self)
      rw [List.mapM_cons, get?_zipIdx_eq_some hl hv,
        ih (fun w hw => hvs w (List.mem_cons_of_mem _ hw))]
      rfl

end Numbering

namespace LivenessTq

variable {g : ControlFlowGraph α} {r v : α} {t : DomTree α} {l : List α}

/-! ## The walk -/

/-- What the sets hold after the sub-trees of `cs` were walked. -/
structure Walked (g : ControlFlowGraph α) (r : α) (l : List α) (cs : List α)
    (sets sets' : List BitSet) : Prop where
  length : sets'.length = l.length
  inside : ∀ i u, l[i]? = some u → (∃ c ∈ cs, Dominates g.Edge r c u) →
    IsSetOf l (at' sets' i) (StrictlyDominates g.Edge r u)
  outside : ∀ i u, l[i]? = some u → (∀ c ∈ cs, ¬ Dominates g.Edge r c u) →
    at' sets' i = at' sets i

section Walk

variable (h : IsDomTree g r t) (hl : l.Nodup) (hmem : ∀ v, v ∈ l ↔ Reach g.Edge r v)

include h hl hmem

/-- Visiting a node whose children are done stores its sub-tree. -/
theorem sdomVisit_spec {cs : List α} {i : Nat} {sets : List BitSet}
    (hcs : t.children v = some cs) (hi : l[i]? = some v)
    (hdone : ∀ c ∈ cs, IsSetOf l (at' sets (l.idxOf c)) (StrictlyDominates g.Edge r c)) :
    ∃ s, sdomVisit l.zipIdx t sets v = some (sets.set i s) ∧
      IsSetOf l s (StrictlyDominates g.Edge r v) := by
  have hv := (hmem v).mp (List.mem_of_getElem? hi)
  obtain ⟨_, hiff⟩ := h.mem_children_iff hcs hv
  refine ⟨unionAll ((cs.map (fun c => l.idxOf c)).map (at' sets)) ∪
    (cs.map (fun c => l.idxOf c)).toFinset, ?_, ?_⟩
  · simp only [sdomVisit, get?_zipIdx_eq_some hl hi, hcs, Option.bind_eq_bind, Option.bind_some,
      mapM_get?_zipIdx hl (fun c hc => (hmem c).mpr ((hiff c).mp hc).1)]
  · intro j
    simp only [Finset.mem_union, mem_unionAll, List.mem_map, exists_exists_and_eq_and,
      List.mem_toFinset]
    have hchild : ∀ {c}, c ∈ cs → l[l.idxOf c]? = some c := fun hc =>
      List.getElem?_idxOf ((hmem _).mpr ((hiff _).mp hc).1)
    constructor
    · rintro (⟨c, hc, hj⟩ | ⟨c, hc, rfl⟩)
      · obtain ⟨u, hu, hcu⟩ := (hdone c hc j).mp hj
        obtain ⟨hcr, hcp⟩ := (hiff c).mp hc
        exact ⟨u, hu, (h.strictlyDominates_iff ((hmem u).mp (List.mem_of_getElem? hu))).mpr
          ⟨c, hcp, hcr, hcu.1⟩⟩
      · exact ⟨c, hchild hc, h.strictlyDominates_child hcs hv hc⟩
    · rintro ⟨u, hu, hvu⟩
      obtain ⟨c, hcp, hcr, hcu⟩ := (h.strictlyDominates_iff
        ((hmem u).mp (List.mem_of_getElem? hu))).mp hvu
      have hc : c ∈ cs := (hiff c).mpr ⟨hcr, hcp⟩
      by_cases huc : c = u
      · subst huc
        exact Or.inr ⟨c, hc, eq_of_getElem?_eq hl (hchild hc) hu⟩
      · exact Or.inl ⟨c, hc, ((hdone c hc).mem_iff hu).mpr ⟨hcu, huc⟩⟩

/-- The effect of the walk on the sets, by sub-trees. -/
theorem sdom_walkRule : IsDomTree.WalkRule g r t (fun sets _ => sets)
    (fun sets block => sets.bind (fun s => sdomVisit l.zipIdx t s block))
    (fun cs s s' => ∀ sets, s = some sets → sets.length = l.length →
      ∃ sets', s' = some sets' ∧ Walked g r l cs sets sets') where
  nil := by
    rintro s sets rfl hlen
    refine ⟨sets, rfl, hlen, fun i u _ hc => ?_, fun _ _ _ _ => rfl⟩
    obtain ⟨c, hc, _⟩ := hc
    exact absurd hc List.not_mem_nil
  cons := by
    rintro c cs _ s₁ s₂ _ hdisj hW₁ hW₂ sets rfl hlen
    obtain ⟨sets₁, rfl, hwalked₁⟩ := hW₁ sets rfl hlen
    obtain ⟨sets₂, rfl, hwalked₂⟩ := hW₂ sets₁ rfl hwalked₁.length
    refine ⟨sets₂, rfl, hwalked₂.length, ?_, ?_⟩
    · rintro i u hu ⟨d, hd, hdu⟩
      rcases List.mem_cons.mp hd with rfl | hd
      · -- the sub-tree of the first child is not touched again
        have hur := (hmem u).mp (List.mem_of_getElem? hu)
        rw [hwalked₂.outside i u hu (fun e he heu => hdisj e he u hur ⟨hdu, heu⟩)]
        exact hwalked₁.inside i u hu ⟨d, List.mem_singleton_self d, hdu⟩
      · exact hwalked₂.inside i u hu ⟨d, hd, hdu⟩
    · intro i u hu hnot
      rw [hwalked₂.outside i u hu (fun d hd => hnot d (List.mem_cons_of_mem _ hd))]
      refine hwalked₁.outside i u hu (fun d hd => ?_)
      rw [List.mem_singleton.mp hd]
      exact hnot c List.mem_cons_self
  node := by
    rintro v cs _ s₁ hv hcs hW sets rfl hlen
    obtain ⟨sets₁, rfl, hwalked⟩ := hW sets rfl hlen
    obtain ⟨_, hiff⟩ := h.mem_children_iff hcs hv
    have hi : l[l.idxOf v]? = some v := List.getElem?_idxOf ((hmem v).mpr hv)
    have hilt : l.idxOf v < sets₁.length := by
      rw [hwalked.length]
      exact (List.getElem?_eq_some_iff.mp hi).1
    -- the children are done, so their sets are final
    have hdone : ∀ c ∈ cs, IsSetOf l (at' sets₁ (l.idxOf c)) (StrictlyDominates g.Edge r c) :=
      fun c hc => hwalked.inside _ c
        (List.getElem?_idxOf ((hmem c).mpr ((hiff c).mp hc).1)) ⟨c, hc, Dominates.refl c⟩
    obtain ⟨s, hvisit, hs⟩ := sdomVisit_spec h hl hmem hcs hi hdone
    have hinside : ∀ u, u ∈ l → (Dominates g.Edge r v u ↔
        u = v ∨ ∃ c ∈ cs, Dominates g.Edge r c u) := fun u hu =>
      h.dominates_iff_children hcs hv ((hmem u).mp hu)
    refine ⟨sets₁.set (l.idxOf v) s, by rw [Option.bind_some, hvisit],
      by simpa using hwalked.length, ?_, ?_⟩
    · rintro i u hu ⟨c, hc, hvu⟩
      rw [List.mem_singleton.mp hc] at hvu
      by_cases huv : u = v
      · subst huv
        rw [← idxOf_eq_of_getElem? hl hu, at'_set_self hilt]
        exact hs
      · -- below a child: the node only writes its own set
        have hne : l.idxOf v ≠ i := by
          rintro rfl
          exact huv (Option.some.inj (hu.symm.trans hi))
        rw [at'_set_ne hne]
        exact hwalked.inside i u hu
          (((hinside u (List.mem_of_getElem? hu)).mp hvu).resolve_left huv)
    · intro i u hu hnot
      have hvu := hnot v (List.mem_singleton_self v)
      have hne : l.idxOf v ≠ i := by
        rintro rfl
        rw [Option.some.inj (hu.symm.trans hi)] at hvu
        exact hvu (Dominates.refl v)
      rw [at'_set_ne hne]
      refine hwalked.outside i u hu (fun c hc hcu => hvu ?_)
      exact (hinside u (List.mem_of_getElem? hu)).mpr (Or.inr ⟨c, hc, hcu⟩)

/-- The sets computed are the strict dominator sub-trees. -/
theorem domTreeToSdomTree_spec :
    ∃ sets, domTreeToSdomTree l.zipIdx t = some sets ∧
      Represents l sets (StrictlyDominates g.Edge r) := by
  obtain ⟨s', hwalk, hW⟩ := (sdom_walkRule h hl hmem).walk_spec h Unit
    (some (List.replicate l.length (∅ : BitSet)))
  obtain ⟨sets, rfl, hwalked⟩ := hW _ rfl (by simp)
  refine ⟨sets, ?_, hwalked.length, fun i u hu => ?_⟩
  · rw [domTreeToSdomTree, List.length_zipIdx, hwalk]
    rfl
  · exact hwalked.inside i u hu ⟨r, List.mem_singleton_self r, Dominates.root u⟩

end Walk

end LivenessTq

end Pliron
