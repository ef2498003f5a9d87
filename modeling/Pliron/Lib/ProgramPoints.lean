/-
  Pliron.Lib.ProgramPoints

  Dominance between the points of a control-flow graph of blocks.

  A point `(b, i)` lies before step `i` of block `b`, and `(b, len b)` at its end.
  Control moves from one point to the next within a block, and from the end of a
  block to the start of its successors.  Dominance of points comes down to
  dominance of blocks and the order of steps within one block.
-/

import Pliron.Lib.Digraph

namespace Pliron.Lib

open Relation

variable {α : Type*}

/-- Control moves from one point to another. -/
inductive PointStep (E : α → α → Prop) (len : α → Nat) : α × Nat → α × Nat → Prop where
  | next {b : α} {i : Nat} (hi : i < len b) : PointStep E len (b, i) (b, i + 1)
  | jump {b c : α} (he : E b c) : PointStep E len (b, len b) (c, 0)

namespace PointStep

variable {E : α → α → Prop} {len : α → Nat} {r a b : α} {i j k : Nat}

/-- A path of points that avoids a point of `a` stays out of `a`, or before that point. -/
theorem avoids_inv (hk : k ≤ len a) {p : α × Nat}
    (hp : Avoids (PointStep E len) (a, k) (r, 0) p) :
    Avoids E a r p.1 ∨ (p.1 = a ∧ p.2 < k) := by
  obtain ⟨hr, hp⟩ := hp
  induction hp with
  | refl =>
      by_cases hra : r = a
      · subst hra
        refine Or.inr ⟨rfl, Nat.pos_of_ne_zero (fun h0 => hr ?_)⟩
        rw [h0]
      · exact Or.inl (Avoids.refl hra)
  | tail _ hstep ih =>
      obtain ⟨hstep, hne⟩ := hstep
      cases hstep with
      | @next b i _ =>
          refine ih.imp id (fun hb => ⟨hb.1, ?_⟩)
          obtain ⟨rfl, hik⟩ := hb
          have hik' : i + 1 ≠ k := fun heq => hne (by rw [heq])
          omega
      | @jump b c he =>
          rcases ih with hav | ⟨rfl, hlt⟩
          · by_cases hca : c = a
            · subst hca
              refine Or.inr ⟨rfl, Nat.pos_of_ne_zero (fun h0 => hne ?_)⟩
              rw [h0]
            · exact Or.inl (hav.tail he hca)
          · exact absurd hk (Nat.not_le_of_lt hlt)

/-- A path of blocks that avoids `a` is a path of points that avoids the points of `a`. -/
theorem avoids_of_block (hb : Avoids E a r b) (hi : i ≤ len b) :
    Avoids (PointStep E len) (a, k) (r, 0) (b, i) := by
  have hne : ∀ {x : α} {n : Nat}, x ≠ a → ((x, n) : α × Nat) ≠ (a, k) := by
    intro x n hx heq
    exact hx (congrArg Prod.fst heq)
  have hwithin : ∀ {x : α} (n : Nat), x ≠ a → n ≤ len x →
      Avoids (PointStep E len) (a, k) (x, 0) (x, n) := by
    intro x n hx hn
    induction n with
    | zero => exact Avoids.refl (hne hx)
    | succ n ih => exact (ih (by omega)).tail (.next (by omega)) (hne hx)
  obtain ⟨hra, hpath⟩ := hb
  induction hpath generalizing i with
  | refl => exact hwithin i hra hi
  | @tail x y _ hxy ih =>
      obtain ⟨hxy, hya⟩ := hxy
      exact ((ih (Nat.le_refl (len x))).tail (.jump hxy) (hne hya)).trans (hwithin i hya hi)

/-- A node is reached for a first time. -/
theorem exists_first_visit (hb : Reach E r b) : r = b ∨ ∃ p, Avoids E b r p ∧ E p b := by
  induction hb using ReflTransGen.head_induction_on with
  | refl => exact Or.inl rfl
  | @head x y hxy _ ih =>
      by_cases hxb : x = b
      · exact Or.inl hxb
      · right
        rcases ih with rfl | ⟨p, hyp, hpb⟩
        · exact ⟨x, Avoids.refl hxb, hxy⟩
        · exact ⟨p, hyp.head hxy hxb, hpb⟩

/-- Between points of different blocks, dominance is that of the blocks. -/
theorem dominates_iff_of_ne (hab : a ≠ b) (hk : k ≤ len a) (hi : i ≤ len b) :
    Dominates (PointStep E len) (r, 0) (a, k) (b, i) ↔ Dominates E r a b := by
  constructor
  · exact fun hdom hav => hdom (avoids_of_block hav hi)
  · intro hdom hav
    rcases avoids_inv hk hav with hav | ⟨hba, _⟩
    · exact hdom hav
    · exact hab hba.symm

/-- Within a reachable block, the earlier points dominate. -/
theorem dominates_iff_of_eq (hb : Reach E r b) (hk : k ≤ len b) (hi : i ≤ len b) :
    Dominates (PointStep E len) (r, 0) (b, k) (b, i) ↔ k ≤ i := by
  constructor
  · intro hdom
    by_contra hlt
    refine hdom ?_
    have hne : ∀ {n : Nat}, n ≤ i → ((b, n) : α × Nat) ≠ (b, k) := by
      intro n hn heq
      have hnk : n = k := congrArg Prod.snd heq
      omega
    have hwithin : ∀ n, n ≤ i → Avoids (PointStep E len) (b, k) (b, 0) (b, n) := by
      intro n
      induction n with
      | zero => exact fun _ => Avoids.refl (hne (Nat.zero_le i))
      | succ n ih => exact fun hn => (ih (by omega)).tail (.next (by omega)) (hne hn)
    rcases exists_first_visit hb with rfl | ⟨p, hrp, hpb⟩
    · exact hwithin i (Nat.le_refl i)
    · exact ((avoids_of_block hrp (Nat.le_refl _)).tail (.jump hpb) (hne (Nat.zero_le i))).trans
        (hwithin i (Nat.le_refl i))
  · intro hki hav
    rcases avoids_inv hk hav with hav | ⟨_, hlt⟩
    · exact hav.right_ne rfl
    · exact absurd hki (Nat.not_le_of_lt hlt)

end PointStep

end Pliron.Lib
