/-
  Pliron.Lib.Meet

  Heights in a forest, and the lowest two nodes above two given ones that are in one group.

  As for climbs, the group of a node determines the node above it.  So nodes of one group are at one
  height, and two climbs that keep their heights equal meet every group that both pass.
-/

import Pliron.Lib.Forest

namespace Pliron.Lib

open Relation

variable {ν ρ : Type*}

/-- The node is `n` steps below a root. -/
def Height (parent : ν → Option ν) (x : ν) (n : Nat) : Prop :=
  ∃ r, stepsUp parent n x = some r ∧ parent r = none

section Height

variable {parent : ν → Option ν} {x y z : ν} {m n : Nat}

theorem Height.zero (h : parent x = none) : Height parent x 0 := ⟨x, rfl, h⟩

theorem Height.zero_iff : Height parent x 0 ↔ parent x = none := by
  constructor
  · rintro ⟨r, hr, hroot⟩
    rwa [Option.some.inj hr]
  · exact Height.zero

theorem Height.succ_iff : Height parent x (n + 1) ↔ ∃ p, parent x = some p ∧ Height parent p n := by
  constructor
  · rintro ⟨r, hr, hroot⟩
    obtain ⟨p, hp, hpr⟩ := Option.bind_eq_some_iff.mp hr
    exact ⟨p, hp, r, hpr, hroot⟩
  · rintro ⟨p, hp, r, hr, hroot⟩
    exact ⟨r, Option.bind_eq_some_iff.mpr ⟨p, hp, hr⟩, hroot⟩

theorem Height.of_parent {p : ν} (hp : parent x = some p) (h : Height parent x n) :
    ∃ k, n = k + 1 ∧ Height parent p k := by
  cases n with
  | zero =>
      rw [Height.zero_iff, hp] at h
      exact nomatch h
  | succ k =>
      obtain ⟨p', hp', hk⟩ := Height.succ_iff.mp h
      exact ⟨k, rfl, Option.some.inj (hp.symm.trans hp') ▸ hk⟩

theorem Height.unique (hm : Height parent x m) (hn : Height parent x n) : m = n := by
  induction m generalizing x n with
  | zero =>
      cases n with
      | zero => rfl
      | succ n =>
          obtain ⟨p, hp, -⟩ := Height.succ_iff.mp hn
          rw [Height.zero_iff, hp] at hm
          exact nomatch hm
  | succ m ih =>
      obtain ⟨p, hp, hm⟩ := Height.succ_iff.mp hm
      obtain ⟨k, rfl, hk⟩ := hn.of_parent hp
      rw [ih hm hk]

/-- Nodes with one parent are at one height. -/
theorem Height.congr (hxy : parent x = parent y) (hx : Height parent x n) : Height parent y n := by
  cases n with
  | zero => rwa [Height.zero_iff, ← hxy, ← Height.zero_iff]
  | succ n => rwa [Height.succ_iff, ← hxy, ← Height.succ_iff]

theorem IsForest.exists_height {number : ν → Nat} {bound : Nat}
    (hf : IsForest parent number bound) (x : ν) : ∃ n ≤ bound, Height parent x n := by
  by_contra hnot
  -- otherwise the climb goes on for more than `bound` steps
  have hsteps : ∀ n ≤ bound + 1, ∃ y, stepsUp parent n x = some y := by
    intro n
    induction n with
    | zero => exact fun _ => ⟨x, rfl⟩
    | succ n ih =>
        intro hn
        obtain ⟨y, hy⟩ := ih (by omega)
        cases hp : parent y with
        | none => exact absurd ⟨n, by omega, y, hy, hp⟩ hnot
        | some p => exact ⟨p, by rw [stepsUp_succ, hy]; exact hp⟩
  obtain ⟨y, hy⟩ := hsteps (bound + 1) (Nat.le_refl _)
  have hle := hf.steps_le hy
  omega

/-- Climbing goes up in height. -/
theorem Above.height_le (h : Above parent x y) (hx : Height parent x m) (hy : Height parent y n) :
    n ≤ m := by
  induction h generalizing n with
  | refl => exact Nat.le_of_eq (hy.unique hx)
  | @tail z y _ hzy ih =>
      obtain ⟨r, hr, hroot⟩ := hy
      have hz : Height parent z (n + 1) := Height.succ_iff.mpr ⟨y, hzy, r, hr, hroot⟩
      exact Nat.le_of_succ_le (ih hz)

theorem Above.eq_of_height (h : Above parent x y) (hx : Height parent x n)
    (hy : Height parent y n) : x = y := by
  rcases h.cases_head with heq | ⟨p, hp, hpy⟩
  · exact heq
  · obtain ⟨k, rfl, hk⟩ := hx.of_parent hp
    have hle := Above.height_le (show Above parent p y from hpy) hk hy
    omega

/-- The nodes above one node form a chain. -/
theorem Above.total (hxy : Above parent x y) (hxz : Above parent x z) :
    Above parent y z ∨ Above parent z y :=
  ReflTransGen.total_of_right_unique
    (fun _ _ _ hb hc => Option.some.inj (hb.symm.trans hc)) hxy hxz

/-- Of two nodes above one node, the lower one is below the other. -/
theorem Above.of_height_le (hxy : Above parent x y) (hxz : Above parent x z)
    (hy : Height parent y m) (hz : Height parent z n) (hle : n ≤ m) : Above parent y z := by
  induction hxy using ReflTransGen.head_induction_on with
  | refl => exact hxz
  | @head x p hp hpy ih =>
      rcases hxz.cases_head with heq | ⟨p', hp', hpz⟩
      · -- `z` is the start, and below `y`
        subst heq
        obtain ⟨k, rfl, hk⟩ := hz.of_parent hp
        have hle' := Above.height_le (show Above parent p y from hpy) hk hy
        omega
      · exact ih (Option.some.inj (hp.symm.trans hp') ▸ hpz)

/-- There is a node above at every height below one's own. -/
theorem Height.exists_above (h : Height parent x m) (hle : n ≤ m) :
    ∃ y, stepsUp parent (m - n) x = some y ∧ Height parent y n := by
  induction m generalizing x with
  | zero =>
      obtain rfl := Nat.le_zero.mp hle
      exact ⟨x, rfl, h⟩
  | succ m ih =>
      by_cases heq : n = m + 1
      · subst heq
        exact ⟨x, by rw [Nat.sub_self]; rfl, h⟩
      · obtain ⟨p, hp, hpm⟩ := Height.succ_iff.mp h
        obtain ⟨y, hy, hyn⟩ := ih hpm (by omega)
        refine ⟨y, ?_, hyn⟩
        rw [Nat.succ_sub (by omega), stepsUp, hp]
        exact hy

end Height

/-! ## The lowest common group -/

section Meet

variable (key : ν → Option ρ) (up : ρ → Option ν)

/-- `x` above `a` and `y` above `b` are in one group, and below all others that are. -/
structure IsMeet (a b x y : ν) : Prop where
  left : Above (fun z => (key z).bind up) a x
  right : Above (fun z => (key z).bind up) b y
  group : ∃ k, key x = some k ∧ key y = some k
  lowest : ∀ u v k, Above (fun z => (key z).bind up) a u → Above (fun z => (key z).bind up) b v →
    key u = some k → key v = some k →
      Above (fun z => (key z).bind up) x u ∧ Above (fun z => (key z).bind up) y v

/-- No group has members above both nodes. -/
def NoMeet (a b : ν) : Prop :=
  ∀ u v k, Above (fun z => (key z).bind up) a u → Above (fun z => (key z).bind up) b v →
    key u = some k → key v ≠ some k

variable {key up} {a b a' b' x y u v : ν} {m n : Nat} {k : ρ}

/-- Nodes of one group are at one height. -/
theorem Height.of_group (hx : key x = some k) (hy : key y = some k)
    (h : Height (fun z => (key z).bind up) x n) : Height (fun z => (key z).bind up) y n :=
  h.congr (by rw [hx, hy])

theorem IsMeet.symm (h : IsMeet key up a b x y) : IsMeet key up b a y x where
  left := h.right
  right := h.left
  group := by
    obtain ⟨k, hx, hy⟩ := h.group
    exact ⟨k, hy, hx⟩
  lowest u v k hu hv hku hkv := (h.lowest v u k hv hu hkv hku).symm

/-- Two nodes of one group meet where they are. -/
theorem IsMeet.self (hx : key x = some k) (hy : key y = some k) : IsMeet key up x y x y :=
  ⟨Above.refl x, Above.refl y, ⟨k, hx, hy⟩, fun _ _ _ hu hv _ _ => ⟨hu, hv⟩⟩

theorem NoMeet.symm (h : NoMeet key up a b) : NoMeet key up b a :=
  fun u v k hu hv hku hkv => h v u k hv hu hkv hku

section Forest

variable {number : ν → Nat} {bound : Nat}
  (hf : IsForest (fun z => (key z).bind up) number bound)

include hf

/-- What two nodes have in common above them is above a node as high as the lower one of them. -/
theorem above_of_group (hx : Above (fun z => (key z).bind up) a x)
    (hxn : Height (fun z => (key z).bind up) x n) (hb : Height (fun z => (key z).bind up) b n)
    (hu : Above (fun z => (key z).bind up) a u) (hv : Above (fun z => (key z).bind up) b v)
    (hku : key u = some k) (hkv : key v = some k) :
    Above (fun z => (key z).bind up) x u := by
  obtain ⟨d, -, hd⟩ := hf.exists_height v
  exact hx.of_height_le hu hxn (hd.of_group hkv hku) (hv.height_le hb hd)

/-- A climb to the group of the other node is a meet. -/
theorem IsMeet.of_left (hx : Above (fun z => (key z).bind up) a x) (hxk : key x = some k)
    (hbk : key b = some k) : IsMeet key up a b x b := by
  obtain ⟨n, -, hb⟩ := hf.exists_height b
  refine ⟨hx, Above.refl b, ⟨k, hxk, hbk⟩, fun u v k' hu hv hku hkv => ⟨?_, hv⟩⟩
  exact above_of_group hf hx (hb.of_group hbk hxk) hb hu hv hku hkv

/-- Climbing to the height of the other node passes no meet. -/
theorem IsMeet.of_climb (hx : Above (fun z => (key z).bind up) a x)
    (hxn : Height (fun z => (key z).bind up) x n) (hb : Height (fun z => (key z).bind up) b n)
    (h : IsMeet key up x b u v) : IsMeet key up a b u v where
  left := hx.trans h.left
  right := h.right
  group := h.group
  lowest u' v' k hu hv hku hkv :=
    h.lowest u' v' k (above_of_group hf hx hxn hb hu hv hku hkv) hv hku hkv

theorem NoMeet.of_climb (hx : Above (fun z => (key z).bind up) a x)
    (hxn : Height (fun z => (key z).bind up) x n) (hb : Height (fun z => (key z).bind up) b n)
    (h : NoMeet key up x b) : NoMeet key up a b :=
  fun u v k hu hv hku hkv =>
    h u v k (above_of_group hf hx hxn hb hu hv hku hkv) hv hku hkv

end Forest

/-- Two nodes at one height that are not in one group have nothing in common below their
    parents. -/
theorem above_parents (ha : Height (fun z => (key z).bind up) a n)
    (hb : Height (fun z => (key z).bind up) b n) (hne : key a ≠ key b)
    (hu : Above (fun z => (key z).bind up) a u) (hv : Above (fun z => (key z).bind up) b v)
    (hku : key u = some k) (hkv : key v = some k) :
    ∃ p q, (key a).bind up = some p ∧ (key b).bind up = some q ∧
      Above (fun z => (key z).bind up) p u ∧ Above (fun z => (key z).bind up) q v := by
  rcases hu.cases_head with rfl | ⟨p, hp, hpu⟩ <;> rcases hv.cases_head with rfl | ⟨q, hq, hqv⟩
  · exact absurd (hku.trans hkv.symm) hne
  · -- `v` would be lower than `b`, and as high as `a`
    obtain ⟨d, rfl, hd⟩ := hb.of_parent hq
    have hle := hqv.height_le hd (ha.of_group hku hkv)
    omega
  · obtain ⟨d, rfl, hd⟩ := ha.of_parent hp
    have hle := hpu.height_le hd (hb.of_group hkv hku)
    omega
  · exact ⟨p, q, hp, hq, hpu, hqv⟩

/-- A node under a node in no group is one step below a root. -/
theorem height_one {p : ν} (hx : key x = some k) (hp : up k = some p) (hpk : key p = none) :
    Height (fun z => (key z).bind up) x 1 :=
  Height.succ_iff.mpr ⟨p, by rw [hx]; exact hp, Height.zero (by rw [hpk]; rfl)⟩

/-- A climb leaves the groups at the topmost one. -/
theorem above_of_top {p : ν} (hax : Above (fun z => (key z).bind up) a x) (hx : key x = some k)
    (hp : up k = some p) (hpk : key p = none) (hau : Above (fun z => (key z).bind up) a u)
    (hu : key u ≠ none) : Above (fun z => (key z).bind up) u x := by
  rcases hau.total hax with hux | hxu
  · exact hux
  · rcases hxu.cases_head with rfl | ⟨p', hp', hpu⟩
    · exact Above.refl x
    · -- past the top there is only its root
      rw [hx, Option.bind_some, hp, Option.some.injEq] at hp'
      subst hp'
      rcases hpu.cases_head with rfl | ⟨q, hq, -⟩
      · exact absurd hpk hu
      · rw [hpk] at hq
        exact nomatch hq

/-- Two climbs that leave the groups at different ones have none in common. -/
theorem NoMeet.of_top {r s : ρ} {p q : ν} (hne : r ≠ s)
    (hax : Above (fun z => (key z).bind up) a x) (hx : key x = some r) (hp : up r = some p)
    (hpk : key p = none) (hby : Above (fun z => (key z).bind up) b y) (hy : key y = some s)
    (hq : up s = some q) (hqk : key q = none) : NoMeet key up a b := by
  intro u v k hau hbv hku hkv
  have hx1 := height_one hx hp hpk
  have hy1 := height_one hy hq hqk
  have hux := above_of_top hax hx hp hpk hau (by rw [hku]; nofun)
  have hvy := above_of_top hby hy hq hqk hbv (by rw [hkv]; nofun)
  have hxy : x ≠ y := by
    rintro rfl
    exact hne (Option.some.inj (hx.symm.trans hy))
  rcases hux.cases_head with rfl | ⟨p', hp', hpx⟩
  · have hvy' : v = y := hvy.eq_of_height (hx1.of_group hku hkv) hy1
    rw [hvy', hy] at hkv
    exact hne (Option.some.inj (hx.symm.trans (hku.trans hkv.symm)))
  · rcases hvy.cases_head with rfl | ⟨q', hq', hqy⟩
    · have hux' : u = x := hux.eq_of_height (hy1.of_group hkv hku) hx1
      rw [hux', hx] at hku
      exact hne (Option.some.inj (hku.trans (hkv.symm.trans hy)))
    · -- both tops are above one node, at one height
      simp only [hku, hkv, Option.bind_some] at hp' hq'
      obtain rfl := Option.some.inj (hp'.symm.trans hq')
      exact hxy ((hpx.of_height_le hqy hx1 hy1 (Nat.le_refl 1)).eq_of_height hx1 hy1)

end Meet

end Pliron.Lib
