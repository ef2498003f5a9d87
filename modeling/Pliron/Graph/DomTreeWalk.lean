/-
  Pliron.Graph.DomTreeWalk

  A rule for the walk of the dominator tree.

  The walk is followed sub-tree by sub-tree.  `WalkRule` asks what one node does,
  given what its sub-trees did, and how the effects of siblings, whose sub-trees
  are disjoint, compose; `walk_spec` gives the effect of the whole walk.  The
  sizes of the sub-trees add up to the fuel.
-/

import Pliron.Graph.DomTreeSpec

namespace Pliron

open Pliron.Lib

variable {α : Type} [DecidableEq α]

/-! ## Counting disjoint sets -/

omit [DecidableEq α] in
theorem countP_or_of_disjoint (l : List α) (p q : α → Bool)
    (h : ∀ a ∈ l, ¬ (p a = true ∧ q a = true)) :
    l.countP (fun a => p a || q a) = l.countP p + l.countP q := by
  induction l with
  | nil => rfl
  | cons a l ih =>
      have ha := h a List.mem_cons_self
      have ih := ih (fun b hb => h b (List.mem_cons_of_mem _ hb))
      simp only [List.countP_cons, ih]
      cases hp : p a <;> cases hq : q a <;> simp_all <;> omega

omit [DecidableEq α] in
/-- The sizes of pairwise disjoint sets add up to the size of their union. -/
theorem countP_any_of_pairwise {β : Type} (l : List α) (p : β → α → Bool) (cs : List β)
    (h : cs.Pairwise (fun c d => ∀ a ∈ l, ¬ (p c a = true ∧ p d a = true))) :
    l.countP (fun a => cs.any (fun c => p c a)) = (cs.map (fun c => l.countP (p c))).sum := by
  induction cs with
  | nil => simp
  | cons c cs ih =>
      obtain ⟨hc, hcs⟩ := List.pairwise_cons.mp h
      simp only [List.any_cons, List.map_cons, List.sum_cons]
      rw [countP_or_of_disjoint, ih hcs]
      rintro a ha ⟨hca, hany⟩
      obtain ⟨d, hd, hda⟩ := List.any_eq_true.mp hany
      exact hc d hd a ha ⟨hca, hda⟩

namespace DomTree

/-- The number of nodes that `v` dominates. -/
def subtreeSize (t : DomTree α) (v : α) : Nat :=
  t.dominatorsMap.keys.countP (fun u => t.dominates v u)

end DomTree

namespace IsDomTree

variable {g : ControlFlowGraph α} {r u v : α} {t : DomTree α} {cs : List α}

/-! ## Sub-trees -/

theorem mem_children_iff (h : IsDomTree g r t) (hcs : t.children v = some cs)
    (hv : Reach g.Edge r v) :
    cs.Nodup ∧ ∀ c, c ∈ cs ↔ Reach g.Edge r c ∧ t.parent c = some v := by
  obtain ⟨cs', hcs', hnodup, hiff⟩ := h.children v hv
  rw [hcs] at hcs'
  obtain rfl := Option.some.inj hcs'
  exact ⟨hnodup, hiff⟩

/-- A node dominates itself and what its children dominate. -/
theorem dominates_iff_children (h : IsDomTree g r t) (hcs : t.children v = some cs)
    (hv : Reach g.Edge r v) (hu : Reach g.Edge r u) :
    Dominates g.Edge r v u ↔ u = v ∨ ∃ c ∈ cs, Dominates g.Edge r c u := by
  obtain ⟨_, hiff⟩ := h.mem_children_iff hcs hv
  constructor
  · intro hvu
    by_cases huv : u = v
    · exact Or.inl huv
    · obtain ⟨c, hcp, hcr, hcu⟩ := (h.strictlyDominates_iff hu).mp ⟨hvu, fun heq => huv heq.symm⟩
      exact Or.inr ⟨c, (hiff c).mpr ⟨hcr, hcp⟩, hcu⟩
  · rintro (rfl | ⟨c, hc, hcu⟩)
    · exact Dominates.refl u
    · obtain ⟨hcr, hcp⟩ := (hiff c).mp hc
      exact ((h.strictlyDominates_iff hu).mpr ⟨c, hcp, hcr, hcu⟩).1

theorem strictlyDominates_child (h : IsDomTree g r t) (hcs : t.children v = some cs)
    (hv : Reach g.Edge r v) {c : α} (hc : c ∈ cs) : StrictlyDominates g.Edge r v c := by
  obtain ⟨hcr, hcp⟩ := ((h.mem_children_iff hcs hv).2 c).mp hc
  exact (h.strictlyDominates_iff hcr).mpr ⟨c, hcp, hcr, Dominates.refl c⟩

/-- The sub-trees of the children are disjoint. -/
theorem children_pairwise (h : IsDomTree g r t) (hcs : t.children v = some cs)
    (hv : Reach g.Edge r v) : cs.Pairwise (fun c d => ∀ u, Reach g.Edge r u →
      ¬ (Dominates g.Edge r c u ∧ Dominates g.Edge r d u)) := by
  obtain ⟨hnodup, hiff⟩ := h.mem_children_iff hcs hv
  refine hnodup.imp_of_mem (fun {c d} hc hd hne u hu hboth => hne ?_)
  exact h.eq_of_children hu ((hiff c).mp hc).2 ((hiff d).mp hd).2 hboth.1 hboth.2

/-- A sub-tree is its root and the sub-trees of the children. -/
theorem subtreeSize_eq (h : IsDomTree g r t) (hcs : t.children v = some cs)
    (hv : Reach g.Edge r v) : t.subtreeSize v = (cs.map t.subtreeSize).sum + 1 := by
  have hsplit : ∀ u ∈ t.dominatorsMap.keys, (t.dominates v u ↔
      (decide (u = v) || cs.any (fun c => t.dominates c u)) = true) := by
    intro u hu
    have hur := (h.mem_keys u).mp hu
    rw [h.dominates_iff hur, h.dominates_iff_children hcs hv hur, Bool.or_eq_true,
      decide_eq_true_iff, List.any_eq_true]
    simp only [h.dominates_iff hur]
  have hdisj : ∀ u ∈ t.dominatorsMap.keys,
      ¬ (decide (u = v) = true ∧ cs.any (fun c => t.dominates c u) = true) := by
    rintro u hu ⟨huv, hany⟩
    obtain ⟨c, hc, hcu⟩ := List.any_eq_true.mp hany
    have hur := (h.mem_keys u).mp hu
    rw [decide_eq_true_iff] at huv
    rw [h.dominates_iff hur, huv] at hcu
    have hvc := h.strictlyDominates_child hcs hv hc
    exact hvc.2 (hvc.1.antisymm hcu hv)
  have hpair : cs.Pairwise (fun c d => ∀ u ∈ t.dominatorsMap.keys,
      ¬ (t.dominates c u = true ∧ t.dominates d u = true)) := by
    refine (h.children_pairwise hcs hv).imp (fun {c d} hcd u hu hboth => ?_)
    have hur := (h.mem_keys u).mp hu
    rw [h.dominates_iff hur, h.dominates_iff hur] at hboth
    exact hcd u hur hboth
  have hcount : t.dominatorsMap.keys.countP (fun u => decide (u = v)) = 1 := by
    rw [← List.count_eq_one_of_mem h.nodup ((h.mem_keys v).mpr hv), List.count_eq_countP]
    exact List.countP_congr (fun u _ => by simp)
  rw [DomTree.subtreeSize, List.countP_congr hsplit, countP_or_of_disjoint _ _ _ hdisj, hcount,
    countP_any_of_pairwise _ (fun c u => t.dominates c u) cs hpair]
  exact Nat.add_comm _ _

theorem subtreeSize_root (h : IsDomTree g r t) : t.subtreeSize r = t.dominatorsMap.length := by
  have hall : t.dominatorsMap.keys.countP (fun u => t.dominates r u) =
      t.dominatorsMap.keys.length := by
    refine List.countP_eq_length.mpr (fun u hu => ?_)
    exact (h.dominates_iff ((h.mem_keys u).mp hu)).mpr (Dominates.root u)
  rw [DomTree.subtreeSize, hall, IMap.keys, List.length_map]

/-! ## The walk -/

/-- `W cs s s'` is what walking the sub-trees of `cs` does to the state. -/
structure WalkRule (g : ControlFlowGraph α) (r : α) (t : DomTree α) {σ : Type}
    (pre post : σ → α → σ) (W : List α → σ → σ → Prop) : Prop where
  nil : ∀ s, W [] s s
  cons : ∀ c cs s s₁ s₂, Reach g.Edge r c →
    (∀ d ∈ cs, ∀ u, Reach g.Edge r u → ¬ (Dominates g.Edge r c u ∧ Dominates g.Edge r d u)) →
    W [c] s s₁ → W cs s₁ s₂ → W (c :: cs) s s₂
  node : ∀ v cs s s₁, Reach g.Edge r v → t.children v = some cs → W cs (pre s v) s₁ →
    W [v] s (post s₁ v)

namespace WalkRule

variable {σ β : Type} {pre post : σ → α → σ} {W : List α → σ → σ → Prop}

/-- The walk with callbacks that always go on. -/
abbrev loop (t : DomTree α) (β : Type) (pre post : σ → α → σ) (fuel : Nat)
    (stack : List (DomTree.Visit α)) (s : σ) : Option (σ × Option β) :=
  t.walkLoop (fun s v => (pre s v, .advance)) (fun s v => (post s v, .advance)) fuel stack s

/-- A row of sub-trees, when each of them can be walked. -/
theorem children (rule : WalkRule g r t pre post W)
    (hreach : ∀ c ∈ cs, Reach g.Edge r c)
    (hcs : cs.Pairwise (fun c d => ∀ u, Reach g.Edge r u →
      ¬ (Dominates g.Edge r c u ∧ Dominates g.Edge r d u)))
    (hwalk : ∀ c ∈ cs, ∀ fuel rest s, ∃ s',
      loop t β pre post (2 * t.subtreeSize c + fuel) (.pre c :: rest) s =
        loop t β pre post fuel rest s' ∧ W [c] s s') :
    ∀ fuel rest s, ∃ s',
      loop t β pre post (2 * (cs.map t.subtreeSize).sum + fuel)
        (cs.map DomTree.Visit.pre ++ rest) s = loop t β pre post fuel rest s' ∧ W cs s s' := by
  induction cs with
  | nil => exact fun fuel rest s => ⟨s, by simp, rule.nil s⟩
  | cons c cs ih =>
      intro fuel rest s
      obtain ⟨hc, hcs⟩ := List.pairwise_cons.mp hcs
      obtain ⟨s₁, hstep₁, hW₁⟩ := hwalk c List.mem_cons_self
        (2 * (cs.map t.subtreeSize).sum + fuel) (cs.map DomTree.Visit.pre ++ rest) s
      obtain ⟨s₂, hstep₂, hW₂⟩ := ih (fun d hd => hreach d (List.mem_cons_of_mem _ hd)) hcs
        (fun d hd => hwalk d (List.mem_cons_of_mem _ hd)) fuel rest s₁
      refine ⟨s₂, ?_, rule.cons c cs s s₁ s₂ (hreach c List.mem_cons_self) hc hW₁ hW₂⟩
      rw [← hstep₂, ← hstep₁, List.map_cons, List.sum_cons, List.map_cons, List.cons_append]
      congr 1
      omega

/-- The walk of the sub-tree of one node. -/
theorem subtree (rule : WalkRule g r t pre post W) (h : IsDomTree g r t) (n : Nat) :
    ∀ v, t.subtreeSize v = n → Reach g.Edge r v → ∀ fuel rest s, ∃ s',
      loop t β pre post (2 * t.subtreeSize v + fuel) (.pre v :: rest) s =
        loop t β pre post fuel rest s' ∧ W [v] s s' := by
  induction n using Nat.strong_induction_on with
  | _ n ih =>
      intro v hn hv fuel rest s
      obtain ⟨cs, hcs, _⟩ := h.children v hv
      obtain ⟨_, hiff⟩ := h.mem_children_iff hcs hv
      have hsize := h.subtreeSize_eq hcs hv
      have hwalk : ∀ c ∈ cs, ∀ fuel rest s, ∃ s',
          loop t β pre post (2 * t.subtreeSize c + fuel) (.pre c :: rest) s =
            loop t β pre post fuel rest s' ∧ W [c] s s' := by
        intro c hc
        have hle : t.subtreeSize c ≤ (cs.map t.subtreeSize).sum :=
          List.single_le_sum (by simp) _ (List.mem_map_of_mem hc)
        exact ih _ (by omega) c rfl ((hiff c).mp hc).1
      obtain ⟨s₁, hstep, hW⟩ := rule.children (fun c hc => ((hiff c).mp hc).1)
        (h.children_pairwise hcs hv) hwalk (fuel + 1) (.post v :: rest) (pre s v)
      refine ⟨post s₁ v, ?_, rule.node v cs s s₁ hv hcs hW⟩
      have hfuel : 2 * t.subtreeSize v + fuel =
          (2 * (cs.map t.subtreeSize).sum + (fuel + 1)) + 1 := by omega
      have hpre : loop t β pre post (2 * t.subtreeSize v + fuel) (.pre v :: rest) s =
          loop t β pre post (2 * (cs.map t.subtreeSize).sum + (fuel + 1))
            (cs.map DomTree.Visit.pre ++ .post v :: rest) (pre s v) := by
        rw [hfuel]
        simp only [loop, DomTree.walkLoop, hcs]
      rw [hpre, hstep]
      simp only [loop, DomTree.walkLoop]

/-- The whole walk has the effect of walking the sub-tree of the root. -/
theorem walk_spec (rule : WalkRule g r t pre post W) (h : IsDomTree g r t) (β : Type) (s : σ) :
    ∃ s', t.walk s (fun s v => (pre s v, .advance)) (fun s v => (post s v, .advance)) =
      some (s', (none : Option β)) ∧ W [r] s s' := by
  obtain ⟨s', hstep, hW⟩ := rule.subtree (β := β) h _ r rfl (Reach.refl r) 1 [] s
  refine ⟨s', ?_, hW⟩
  rw [h.subtreeSize_root] at hstep
  rw [DomTree.walk, h.root]
  exact hstep

end WalkRule

end IsDomTree

end Pliron
