/-
  Pliron.Lib.PrunedFrontier

  Iterated dominance frontiers, and what is left of them when nodes are dropped on the way.

  A node is live when some path from it meets a use before a definition, so being live goes
  backwards along edges up to a definition.  Then dropping nodes that are not live, as soon as they
  turn up, loses no live node of the iterated frontier of the definitions: behind a dropped node
  there is another definition.
-/

import Pliron.Lib.Digraph

namespace Pliron.Lib

open Relation

variable {α : Type*} {E : α → α → Prop} {live defines : α → Prop} {r a b d p x y z : α}

/-- `b` is where the dominance of `a` ends. -/
def InDomFrontier (E : α → α → Prop) (r a b : α) : Prop :=
  (∃ p, Reach E r p ∧ E p b ∧ Dominates E r a p) ∧ ¬ StrictlyDominates E r a b

/-- `b` is in the iterated dominance frontier of the definitions. -/
def InIteratedFrontier (E : α → α → Prop) (r : α) (defines : α → Prop) (b : α) : Prop :=
  ∃ d, defines d ∧ TransGen (InDomFrontier E r) d b

/-- The same, by way of live nodes only. -/
def InPrunedFrontier (E : α → α → Prop) (r : α) (defines live : α → Prop) (b : α) : Prop :=
  ∃ d, defines d ∧ TransGen (fun a b => InDomFrontier E r a b ∧ live b) d b

/-- A use is met before a definition, on some path from the node. -/
def LiveBefore (E : α → α → Prop) (defines uses : α → Prop) (b : α) : Prop :=
  ∃ u, uses u ∧ ReflTransGen (fun x y => E x y ∧ ¬ defines x) b u

theorem LiveBefore.pred {uses : α → Prop} (h : LiveBefore E defines uses y) (hxy : E x y)
    (hx : ¬ defines x) : LiveBefore E defines uses x := by
  obtain ⟨u, hu, hyu⟩ := h
  exact ⟨u, hu, ReflTransGen.head ⟨hxy, hx⟩ hyu⟩

theorem InDomFrontier.reach (h : InDomFrontier E r a b) :
    Reach E r a ∧ Reach E r b ∧ TransGen E a b := by
  obtain ⟨⟨p, hp, hpb, hap⟩, -⟩ := h
  obtain ⟨hra, hreach⟩ := hap.reach hp
  exact ⟨hra, hp.tail hpb, TransGen.tail' hreach hpb⟩

/-- A chain of frontiers is a path. -/
theorem reach_of_iterated (h : TransGen (InDomFrontier E r) a b) :
    Reach E r a ∧ Reach E r b ∧ TransGen E a b := by
  induction h with
  | single hab => exact hab.reach
  | tail _ hbc ih => exact ⟨ih.1, hbc.reach.2.1, ih.2.2.trans hbc.reach.2.2⟩

/-- One edge: what dominates its source dominates its target strictly, or has it in its frontier. -/
theorem dominates_or_frontier (ha : Dominates E r a x) (hx : Reach E r x) (hxy : E x y) :
    StrictlyDominates E r a y ∨ InDomFrontier E r a y := by
  by_cases hay : StrictlyDominates E r a y
  · exact Or.inl hay
  · exact Or.inr ⟨⟨x, hx, hxy, ha⟩, hay⟩

/-- Along a path through live nodes below `y`, the start or a member of its pruned frontier keeps
    dominating: induction on the path. -/
theorem exists_dominator_of_path (hd : Reach E r d) (hyd : Dominates E r y d)
    (hpath : ReflTransGen (fun u v => E u v ∧ live v ∧ Dominates E r y v) d p) :
    Reach E r p ∧ ∃ w, (w = d ∨ TransGen (fun a b => InDomFrontier E r a b ∧ live b) d w) ∧
      Dominates E r y w ∧ Dominates E r w p := by
  induction hpath with
  | refl => exact ⟨hd, d, Or.inl rfl, hyd, Dominates.refl d⟩
  | @tail u v _ huv ih =>
      obtain ⟨hu, w, hw, hyw, hwu⟩ := ih
      refine ⟨hu.tail huv.1, ?_⟩
      rcases dominates_or_frontier hwu hu huv.1 with hdom | hin
      · exact ⟨w, hw, hyw, hdom.1⟩
      · -- the target is in the frontier, and takes over
        refine ⟨v, Or.inr ?_, huv.2.2, Dominates.refl v⟩
        rcases hw with rfl | hw
        · exact TransGen.single ⟨hin, huv.2.1⟩
        · exact TransGen.tail hw ⟨hin, huv.2.1⟩

/-- A path that leaves a node for good. -/
theorem exists_leaving (h : Reach E y p) (hne : y ≠ p) : ∃ c, E y c ∧ Avoids E y c p := by
  have hlast : p = y ∨ ∃ c, E y c ∧ Avoids E y c p := by
    clear hne
    induction h with
    | refl => exact Or.inl rfl
    | @tail u v _ huv ih =>
        by_cases hv : v = y
        · exact Or.inl hv
        · rcases ih with rfl | ⟨c, hyc, hcu⟩
          · exact Or.inr ⟨v, huv, Avoids.refl hv⟩
          · exact Or.inr ⟨c, hyc, hcu.tail huv hv⟩
  exact hlast.resolve_left (Ne.symm hne)

/-- A path from `y` to `p` that stays below `y` has a last definition, if the end is live but not
    the start: induction on the path, from its end. -/
theorem exists_last_definition
    (hlive : ∀ u v, E u v → live v → ¬ defines u → live u) (hyp : Dominates E r y p)
    (hp : Reach E r p) (hpx : E p x) (hx : live x) (hy : ¬ live y) (hydef : ¬ defines y) :
    ∃ d, defines d ∧ Reach E r d ∧ Dominates E r y d ∧
      ReflTransGen (fun u v => E u v ∧ live v ∧ Dominates E r y v) d p := by
  obtain ⟨hry, hyreach⟩ := hyp.reach hp
  have hne : y ≠ p := by
    rintro rfl
    exact hy (hlive y x hpx hx hydef)
  obtain ⟨c, hyc, hcy, hcp⟩ := exists_leaving hyreach hne
  -- all nodes of the path are reachable
  have hpath : ∀ z, ReflTransGen (fun u v => E u v ∧ v ≠ y) c z →
      Reach E r z ∧ ReflTransGen (fun u v => E u v ∧ v ≠ y ∧ Reach E r u) c z := by
    intro z hcz
    induction hcz with
    | refl => exact ⟨hry.tail hyc, ReflTransGen.refl⟩
    | tail _ huv ih => exact ⟨ih.1.tail huv.1, ih.2.tail ⟨huv.1, huv.2, ih.1⟩⟩
  have hdom : ∀ z, z ≠ y →
      ReflTransGen (fun u v => E u v ∧ v ≠ y ∧ Reach E r u) z p → Dominates E r y z := by
    intro z hz hzp
    have hav : Avoids E y z p := ⟨hz, ReflTransGen.mono (fun _ _ h => ⟨h.1, h.2.1⟩) _ _ hzp⟩
    exact (StrictlyDominates.of_avoids hyp hav).1
  have hback : ∀ z, ReflTransGen (fun u v => E u v ∧ v ≠ y ∧ Reach E r u) z p → z ≠ y →
      (live z ∧ ReflTransGen (fun u v => E u v ∧ live v ∧ Dominates E r y v) z p) ∨
      ∃ d, defines d ∧ Reach E r d ∧ Dominates E r y d ∧
        ReflTransGen (fun u v => E u v ∧ live v ∧ Dominates E r y v) d p := by
    intro z hzp
    induction hzp using ReflTransGen.head_induction_on with
    | refl =>
        intro _
        by_cases hdef : defines p
        · exact Or.inr ⟨p, hdef, hp, hyp, ReflTransGen.refl⟩
        · exact Or.inl ⟨hlive p x hpx hx hdef, ReflTransGen.refl⟩
    | @head z w hzw hwp ih =>
        intro hz
        rcases ih hzw.2.1 with ⟨hw, hwpath⟩ | hfound
        · have hzpath := ReflTransGen.head ⟨hzw.1, hw, hdom w hzw.2.1 hwp⟩ hwpath
          by_cases hdef : defines z
          · exact Or.inr ⟨z, hdef, hzw.2.2, hdom z hz (ReflTransGen.head hzw hwp), hzpath⟩
          · exact Or.inl ⟨hlive z w hzw.1 hw hdef, hzpath⟩
        · exact Or.inr hfound
  rcases hback c (hpath p hcp).2 hcy with ⟨hc, -⟩ | hfound
  · exact absurd (hlive y c hyc hc hydef) hy
  · exact hfound

/-- Dropping nodes that are not live on the way loses no live node. -/
theorem pruned_iff (hlive : ∀ u v, E u v → live v → ¬ defines u → live u) :
    InPrunedFrontier E r defines live x ↔ InIteratedFrontier E r defines x ∧ live x := by
  constructor
  · rintro ⟨d, hd, hdx⟩
    refine ⟨⟨d, hd, TransGen.mono (fun _ _ h => h.1) d x hdx⟩, ?_⟩
    obtain ⟨w, -, hwx⟩ := TransGen.tail'_iff.mp hdx
    exact hwx.2
  · rintro ⟨⟨d, hd, hdx⟩, hx⟩
    induction hdx with
    | single h => exact ⟨d, hd, TransGen.single ⟨h, hx⟩⟩
    | @tail y x hdy hyx ih =>
        by_cases hydef : defines y
        · exact ⟨y, hydef, TransGen.single ⟨hyx, hx⟩⟩
        · by_cases hy : live y
          · obtain ⟨d', hd', hdy'⟩ := ih hy
            exact ⟨d', hd', hdy'.tail ⟨hyx, hx⟩⟩
          · -- `y` was dropped: the chain from the last definition below it goes on to `x`
            obtain ⟨⟨p, hp, hpx, hyp⟩, hnot⟩ := hyx
            obtain ⟨d', hd', hrd, hyd, hpath⟩ :=
              exists_last_definition hlive hyp hp hpx hx hy hydef
            obtain ⟨-, w, hw, hyw, hwp⟩ := exists_dominator_of_path hrd hyd hpath
            refine ⟨d', hd', ?_⟩
            rcases dominates_or_frontier hwp hp hpx with hdom | hin
            · refine absurd ?_ hnot
              refine ⟨hyw.trans hdom.1, ?_⟩
              rintro rfl
              exact hdom.2 (hdom.1.antisymm hyw (hwp.reach hp).1)
            · rcases hw with rfl | hw
              · exact TransGen.single ⟨hin, hx⟩
              · exact TransGen.tail hw ⟨hin, hx⟩

/-- The root is in the iterated frontier of every node that a cycle leads back from. -/
theorem iterated_root (hd : Reach E r d) (hdr : TransGen E d r) :
    TransGen (InDomFrontier E r) d r := by
  obtain ⟨p, hdp, hpr⟩ := TransGen.tail'_iff.mp hdr
  have hpath : ReflTransGen (fun u v => E u v ∧ True ∧ Dominates E r r v) d p :=
    ReflTransGen.mono (fun _ v h => ⟨h, trivial, Dominates.root v⟩) _ _ hdp
  obtain ⟨hp, w, hw, -, hwp⟩ := exists_dominator_of_path hd (Dominates.root d) hpath
  have hin : InDomFrontier E r w r := ⟨⟨p, hp, hpr, hwp⟩, fun hs => hs.not_root rfl⟩
  rcases hw with rfl | hw
  · exact TransGen.single hin
  · exact TransGen.tail (TransGen.mono (fun _ _ h => h.1) _ _ hw) hin

end Pliron.Lib
