/-
  Pliron.Utils.UnionFind

  The union-find over arbitrary values.

  Parents and member lists are two stores.  Every query compresses the path it climbs, and a
  union moves the members of the smaller set.  Both stores are abstracted by the function that
  gives each value its representative: queries keep it, and a union redirects one
  representative.
-/

import Mathlib.Logic.Relation
import Pliron.Utils.Table

namespace Pliron

open Relation

/-- A union-find structure over values of type `T`. -/
structure UnionFind (T : Type) where
  parent : HMap T T := fun _ => none
  /-- Members of each set, keyed by the set's representative. -/
  members : HMap T (List T) := fun _ => none

namespace UnionFind

variable {T : Type} [DecidableEq T]

/-! ## The operations -/

/-- Get the representative of `v`'s set, adding a singleton set if `v` is new.  The first
    argument bounds how far the recursion climbs. -/
def find : Nat → UnionFind T → T → Option (T × UnionFind T)
  | fuel, self, v =>
    match self.parent v with
    | none => some (v, ⟨self.parent.insert v v, self.members.insert v [v]⟩)
    | some p =>
      if p = v then some (v, self)
      else
        match fuel with
        | 0 => none
        | fuel + 1 => do
          let (root, self) ← find fuel self p
          -- Path compression.
          some (root, { self with parent := self.parent.insert v root })

/-- Merge the sets of `a` and `b`; panics if a representative has no list of members. -/
def union (fuel : Nat) (self : UnionFind T) (a b : T) : Option (UnionFind T) := do
  let (ra, self) ← self.find fuel a
  let (rb, self) ← self.find fuel b
  if ra = rb then some self
  else
    -- Union by size.
    let la ← self.members ra
    let lb ← self.members rb
    let (big, small) := if la.length ≥ lb.length then (ra, rb) else (rb, ra)
    let smallMembers ← self.members small
    let members := self.members.remove small
    let bigMembers ← members big
    some ⟨self.parent.insert small big, members.insert big (bigMembers ++ smallMembers)⟩

/-- Are `a` and `b` in the same set? -/
def inSameSet (fuel : Nat) (self : UnionFind T) (a b : T) : Option (Bool × UnionFind T) := do
  let (ra, self) ← self.find fuel a
  let (rb, self) ← self.find fuel b
  some (decide (ra = rb), self)

/-- All values in `v`'s set. -/
def setMembers (fuel : Nat) (self : UnionFind T) (v : T) : Option (List T × UnionFind T) := do
  let (root, self) ← self.find fuel v
  some (← self.members root, self)

/-- A call of one of the methods. -/
inductive Call (T : Type) where
  | find (v : T)
  | union (a b : T)
  | inSameSet (a b : T)
  | setMembers (v : T)
deriving DecidableEq, Repr

/-- The structure after a call. -/
def call (fuel : Nat) (self : UnionFind T) : Call T → Option (UnionFind T)
  | .find v => (self.find fuel v).map Prod.snd
  | .union a b => self.union fuel a b
  | .inSameSet a b => (self.inSameSet fuel a b).map Prod.snd
  | .setMembers v => (self.setMembers fuel v).map Prod.snd

/-- The structure after calls, one after the other. -/
def run (fuel : Nat) (calls : List (Call T)) : Option (UnionFind T) :=
  calls.foldlM (call fuel) {}

/-- `a` and `b` are connected by the unions among the calls. -/
def Connected (calls : List (Call T)) : T → T → Prop :=
  EqvGen (fun a b => Call.union a b ∈ calls)

/-! ## What the two stores represent -/

/-- The stores represent the sets given by `root`, and a value is at most `depth` parents below
    its representative. -/
structure Represents (uf : UnionFind T) (root : T → T) (depth : T → Nat) : Prop where
  unseen : ∀ v, uf.parent v = none → root v = v
  up : ∀ v p, uf.parent v = some p → root p = root v
  fixed : ∀ v, uf.parent v = some v → root v = v
  lower : ∀ v p, uf.parent v = some p → p ≠ v → depth p < depth v
  rooted : ∀ v, uf.parent v ≠ none → uf.parent (root v) = some (root v)
  idem : ∀ v, root (root v) = root v
  depth_zero : ∀ v, depth v = 0 ↔ root v = v
  members : ∀ r, uf.parent r = some r → ∃ l, uf.members r = some l ∧ l.Nodup ∧
    ∀ x, x ∈ l ↔ uf.parent x ≠ none ∧ root x = r

variable {self : UnionFind T} {root : T → T} {depth : T → Nat} {a b v : T} {fuel : Nat}

theorem insert_ne_none_iff {m : HMap T T} {k w x : T} :
    m.insert k w x ≠ none ↔ x = k ∨ m x ≠ none := by
  by_cases hx : x = k
  · subst hx
    rw [HMap.insert_self]
    exact ⟨fun _ => Or.inl rfl, fun _ => Option.some_ne_none w⟩
  · rw [HMap.insert_of_ne hx]
    exact ⟨Or.inr, fun hor => hor.resolve_left hx⟩

omit [DecidableEq T] in
theorem represents_empty : ({} : UnionFind T).Represents id (fun _ => 0) where
  unseen := fun _ _ => rfl
  up := nofun
  fixed := nofun
  lower := nofun
  rooted := fun _ h => absurd rfl h
  idem := fun _ => rfl
  depth_zero := fun _ => ⟨fun _ => rfl, fun _ => rfl⟩
  members := nofun

/-- A value seen for the first time is a set of its own. -/
theorem Represents.add (h : self.Represents root depth) (hv : self.parent v = none) :
    Represents ⟨self.parent.insert v v, self.members.insert v [v]⟩ root depth := by
  have hroot : root v = v := h.unseen v hv
  have hseen : ∀ x, self.parent.insert v v x ≠ none ↔ x = v ∨ self.parent x ≠ none :=
    fun x => insert_ne_none_iff
  refine ⟨fun x hx => ?_, fun x p hx => ?_, fun x hx => ?_, fun x p hx hne => ?_, fun x hx => ?_,
    h.idem, h.depth_zero, fun r hr => ?_⟩
  · have hnone : self.parent x = none := by
      by_contra hsome
      exact (hseen x).mpr (Or.inr hsome) hx
    exact h.unseen x hnone
  · rcases HMap.insert_eq_some_iff.mp hx with ⟨rfl, rfl⟩ | ⟨_, hx⟩
    · rfl
    · exact h.up x p hx
  · rcases HMap.insert_eq_some_iff.mp hx with ⟨rfl, _⟩ | ⟨_, hx⟩
    · exact hroot
    · exact h.fixed x hx
  · rcases HMap.insert_eq_some_iff.mp hx with ⟨rfl, rfl⟩ | ⟨_, hx⟩
    · exact absurd rfl hne
    · exact h.lower x p hx hne
  · show self.parent.insert v v (root x) = some (root x)
    rcases (hseen x).mp hx with rfl | hx
    · rw [hroot, HMap.insert_self]
    · have hr := h.rooted x hx
      have hne : root x ≠ v := by
        intro heq
        rw [heq, hv] at hr
        cases hr
      rw [HMap.insert_of_ne hne, hr]
  · rcases HMap.insert_eq_some_iff.mp hr with ⟨rfl, _⟩ | ⟨hne, hr⟩
    · refine ⟨[r], HMap.insert_self, List.nodup_singleton r, fun x => ?_⟩
      rw [List.mem_singleton]
      constructor
      · rintro rfl
        exact ⟨(hseen x).mpr (Or.inl rfl), hroot⟩
      · rintro ⟨hx, hroot'⟩
        rcases (hseen x).mp hx with rfl | hx
        · rfl
        · have hr' := h.rooted x hx
          rw [hroot', hv] at hr'
          cases hr'
    · obtain ⟨l, hl, hnodup, hmem⟩ := h.members r hr
      refine ⟨l, ?_, hnodup, fun x => ?_⟩
      · show self.members.insert v [v] r = some l
        rw [HMap.insert_of_ne hne, hl]
      · rw [hmem]
        constructor
        · rintro ⟨hx, hroot'⟩
          exact ⟨(hseen x).mpr (Or.inr hx), hroot'⟩
        · rintro ⟨hx, hroot'⟩
          rcases (hseen x).mp hx with rfl | hx
          · exact absurd (hroot'.symm.trans hroot) hne
          · exact ⟨hx, hroot'⟩

/-- Path compression keeps what is represented. -/
theorem Represents.compress (h : self.Represents root depth) (hv : self.parent v ≠ none)
    (hne : root v ≠ v) : Represents { self with parent := self.parent.insert v (root v) }
      root depth := by
  have hseen : ∀ x, self.parent.insert v (root v) x ≠ none ↔ self.parent x ≠ none := by
    intro x
    rw [insert_ne_none_iff]
    exact ⟨fun hor => hor.elim (fun heq => heq ▸ hv) id, Or.inr⟩
  refine ⟨fun x hx => ?_, fun x p hx => ?_, fun x hx => ?_, fun x p hx hxp => ?_, fun x hx => ?_,
    h.idem, h.depth_zero, fun r hr => ?_⟩
  · have hnone : self.parent x = none := by
      by_contra hsome
      exact (hseen x).mpr hsome hx
    exact h.unseen x hnone
  · rcases HMap.insert_eq_some_iff.mp hx with ⟨rfl, rfl⟩ | ⟨_, hx⟩
    · exact h.idem x
    · exact h.up x p hx
  · rcases HMap.insert_eq_some_iff.mp hx with ⟨rfl, heq⟩ | ⟨_, hx⟩
    · exact heq.symm
    · exact h.fixed x hx
  · rcases HMap.insert_eq_some_iff.mp hx with ⟨rfl, rfl⟩ | ⟨_, hx⟩
    · rw [(h.depth_zero (root x)).mpr (h.idem x)]
      exact Nat.pos_of_ne_zero (fun hzero => hne ((h.depth_zero x).mp hzero))
    · exact h.lower x p hx hxp
  · have hr := h.rooted x ((hseen x).mp hx)
    have hrv : root x ≠ v := fun heq => hne (h.fixed v (heq ▸ hr))
    show self.parent.insert v (root v) (root x) = some (root x)
    rw [HMap.insert_of_ne hrv, hr]
  · rcases HMap.insert_eq_some_iff.mp hr with ⟨rfl, heq⟩ | ⟨_, hr⟩
    · exact absurd heq.symm hne
    · obtain ⟨l, hl, hnodup, hmem⟩ := h.members r hr
      exact ⟨l, hl, hnodup, fun x => (hmem x).trans (and_congr_left' (hseen x).symm)⟩

/-- A value is found on first sight. -/
theorem Represents.find_unseen (h : self.Represents root depth) (hv : self.parent v = none) :
    ∃ self', self.find fuel v = some (root v, self') ∧ self'.Represents root depth ∧
      self'.parent v ≠ none ∧ ∀ x, self.parent x ≠ none → self'.parent x ≠ none := by
  refine ⟨_, ?_, h.add hv, insert_ne_none_iff.mpr (Or.inl rfl), fun x hx => ?_⟩
  · cases fuel <;> rw [UnionFind.find, hv, h.unseen v hv]
  · exact insert_ne_none_iff.mpr (Or.inr hx)

/-- A representative is found at once. -/
theorem Represents.find_root (h : self.Represents root depth) (hv : self.parent v = some v) :
    ∃ self', self.find fuel v = some (root v, self') ∧ self'.Represents root depth ∧
      self'.parent v ≠ none ∧ ∀ x, self.parent x ≠ none → self'.parent x ≠ none := by
  refine ⟨self, ?_, h, hv ▸ Option.some_ne_none v, fun x hx => hx⟩
  cases fuel <;> rw [UnionFind.find, hv, h.fixed v hv] <;> exact if_pos rfl

/-- `find` gives the representative, and forgets no value. -/
theorem Represents.find (h : self.Represents root depth) (hfuel : depth v ≤ fuel) :
    ∃ self', self.find fuel v = some (root v, self') ∧ self'.Represents root depth ∧
      self'.parent v ≠ none ∧ ∀ x, self.parent x ≠ none → self'.parent x ≠ none := by
  -- one parent further up the depth is smaller, and the fuel with it
  induction fuel generalizing v with
  | zero =>
      have hroot : root v = v := (h.depth_zero v).mp (Nat.le_zero.mp hfuel)
      by_cases hp : self.parent v = none
      · exact h.find_unseen hp
      · have hself := h.rooted v hp
        rw [hroot] at hself
        exact h.find_root hself
  | succ fuel ih =>
      cases hp : self.parent v with
      | none => exact h.find_unseen hp
      | some p =>
          by_cases hpv : p = v
          · exact h.find_root (hpv ▸ hp)
          · have hlower := h.lower v p hp hpv
            obtain ⟨self₁, hfind, h₁, _, hkeep⟩ := ih (v := p) (by omega)
            rw [h.up v p hp] at hfind
            have hv₁ : self₁.parent v ≠ none := hkeep v (hp ▸ Option.some_ne_none p)
            have hne : root v ≠ v := by
              intro heq
              have hzero := (h.depth_zero v).mpr heq
              omega
            refine ⟨_, ?_, h₁.compress hv₁ hne, insert_ne_none_iff.mpr (Or.inl rfl), fun x hx => ?_⟩
            · rw [UnionFind.find, hp]
              simp only [if_neg hpv, hfind, Option.bind_eq_bind, Option.bind_some]
            · exact insert_ne_none_iff.mpr (Or.inr (hkeep x hx))

/-! ## Unions -/

/-- The representatives after `small` has got the parent `big`. -/
def redirect (root : T → T) (big small x : T) : T := if root x = small then big else root x

/-- The set of `small` becomes part of the set of `big`. -/
theorem Represents.link (h : self.Represents root depth) {big small : T} {lb ls : List T}
    (hbig : self.parent big = some big) (hsmall : self.parent small = some small)
    (hne : big ≠ small) (hlb : self.members big = some lb) (hls : self.members small = some ls) :
    Represents ⟨self.parent.insert small big,
        (self.members.remove small).insert big (lb ++ ls)⟩
      (redirect root big small) (fun x => if root x = small then depth x + 1 else depth x) := by
  have hrbig : root big = big := h.fixed big hbig
  have hrsmall : root small = small := h.fixed small hsmall
  have hseen : ∀ x, self.parent.insert small big x ≠ none ↔ self.parent x ≠ none := by
    intro x
    rw [insert_ne_none_iff]
    exact ⟨fun hor => hor.elim (fun heq => heq ▸ hsmall ▸ Option.some_ne_none small) id, Or.inr⟩
  have hrdbig : redirect root big small big = big := by
    rw [redirect, hrbig, if_neg hne]
  have hrdsmall : redirect root big small small = big := if_pos hrsmall
  refine ⟨fun x hx => ?_, fun x p hx => ?_, fun x hx => ?_, fun x p hx hxp => ?_, fun x hx => ?_,
    fun x => ?_, fun x => ?_, fun r hr => ?_⟩
  · have hnone : self.parent x = none := by
      by_contra hsome
      exact (hseen x).mpr hsome hx
    have hxsmall : x ≠ small := by
      rintro rfl
      rw [hsmall] at hnone
      cases hnone
    rw [redirect, h.unseen x hnone, if_neg hxsmall]
  · -- the root of the smaller set now points to the other root
    rcases HMap.insert_eq_some_iff.mp hx with ⟨rfl, rfl⟩ | ⟨_, hx⟩
    · rw [hrdbig, hrdsmall]
    · rw [redirect, redirect, h.up x p hx]
  · rcases HMap.insert_eq_some_iff.mp hx with ⟨rfl, heq⟩ | ⟨hxsmall, hx⟩
    · exact absurd heq.symm hne
    · rw [redirect, h.fixed x hx, if_neg hxsmall]
  · rcases HMap.insert_eq_some_iff.mp hx with ⟨rfl, rfl⟩ | ⟨_, hx⟩
    · -- so the smaller set is one step deeper, and its root is no longer at depth zero
      show (if root p = x then _ else _) < if root x = x then _ else _
      rw [hrbig, if_neg hne, if_pos hrsmall, (h.depth_zero p).mpr hrbig]
      exact Nat.succ_pos _
    · have hlower := h.lower x p hx hxp
      show (if root p = small then _ else _) < if root x = small then _ else _
      rw [h.up x p hx]
      by_cases hr : root x = small
      · rw [if_pos hr, if_pos hr]
        omega
      · rw [if_neg hr, if_neg hr]
        exact hlower
  · show self.parent.insert small big (redirect root big small x) =
      some (redirect root big small x)
    by_cases hr : root x = small
    · rw [redirect, if_pos hr, HMap.insert_of_ne hne, hbig]
    · rw [redirect, if_neg hr, HMap.insert_of_ne hr]
      exact h.rooted x ((hseen x).mp hx)
  · by_cases hr : root x = small
    · rw [redirect, redirect, if_pos hr, hrbig, if_neg hne]
    · rw [redirect, redirect, if_neg hr, h.idem, if_neg hr]
  · show (if root x = small then depth x + 1 else depth x) = 0 ↔ _
    by_cases hr : root x = small
    · rw [redirect, if_pos hr, if_pos hr]
      constructor
      · intro hzero
        omega
      · rintro rfl
        exact absurd (hrbig.symm.trans hr) hne
    · rw [redirect, if_neg hr, if_neg hr]
      exact h.depth_zero x
  · rcases HMap.insert_eq_some_iff.mp hr with ⟨rfl, heq⟩ | ⟨hrsmall', hr⟩
    · exact absurd heq.symm hne
    · -- the merged root lists both sets; every other root lists what it did
      by_cases hrbig' : r = big
      · subst hrbig'
        obtain ⟨lb', hlb', hnb, hmb⟩ := h.members r hbig
        obtain ⟨ls', hls', hns, hms⟩ := h.members small hsmall
        obtain rfl := Option.some.inj (hlb.symm.trans hlb')
        obtain rfl := Option.some.inj (hls.symm.trans hls')
        refine ⟨lb ++ ls, HMap.insert_self, List.nodup_append.mpr ⟨hnb, hns, ?_⟩, fun x => ?_⟩
        · rintro x hxb y hys rfl
          exact hne (((hmb x).mp hxb).2.symm.trans ((hms x).mp hys).2)
        · rw [List.mem_append, hmb, hms, ← and_or_left, hseen]
          apply and_congr_right
          intro _
          by_cases hx : root x = small
          · rw [redirect, if_pos hx]
            exact ⟨fun _ => rfl, fun _ => Or.inr hx⟩
          · rw [redirect, if_neg hx]
            exact ⟨fun hor => hor.resolve_right hx, Or.inl⟩
      · obtain ⟨l, hl, hnodup, hmem⟩ := h.members r hr
        refine ⟨l, ?_, hnodup, fun x => ?_⟩
        · show (self.members.remove small).insert big (lb ++ ls) r = some l
          rw [HMap.insert_of_ne hrbig']
          exact HMap.remove_eq_some_iff.mpr ⟨hrsmall', hl⟩
        · rw [hmem, hseen]
          apply and_congr_right
          intro _
          by_cases hx : root x = small
          · rw [redirect, if_pos hx, hx]
            exact ⟨fun heq => absurd heq.symm hrsmall', fun heq => absurd heq.symm hrbig'⟩
          · rw [redirect, if_neg hx]

/-- `x` and `y` are in one set after the sets of `a` and `b` are merged. -/
def Merged (root : T → T) (a b x y : T) : Prop :=
  root x = root y ∨ root x = root a ∧ root y = root b ∨ root x = root b ∧ root y = root a

omit [DecidableEq T] in
theorem merged_symm {x y : T} : Merged root a b x y ↔ Merged root b a x y :=
  or_congr_right or_comm

theorem redirect_eq_iff (x y : T) :
    redirect root (root a) (root b) x = redirect root (root a) (root b) y ↔
      Merged root a b x y := by
  rw [Merged, redirect, redirect]
  by_cases hx : root x = root b
  · by_cases hy : root y = root b
    · rw [if_pos hx, if_pos hy]
      exact ⟨fun _ => Or.inl (hx.trans hy.symm), fun _ => rfl⟩
    · rw [if_pos hx, if_neg hy]
      constructor
      · exact fun heq => Or.inr (Or.inr ⟨hx, heq.symm⟩)
      · rintro (heq | ⟨_, hyb⟩ | ⟨_, hya⟩)
        · exact absurd (heq.symm.trans hx) hy
        · exact absurd hyb hy
        · exact hya.symm
  · by_cases hy : root y = root b
    · rw [if_neg hx, if_pos hy]
      constructor
      · exact fun heq => Or.inr (Or.inl ⟨heq, hy⟩)
      · rintro (heq | ⟨hxa, _⟩ | ⟨hxb, _⟩)
        · exact absurd (heq.trans hy) hx
        · exact hxa
        · exact absurd hxb hx
    · rw [if_neg hx, if_neg hy]
      constructor
      · exact Or.inl
      · rintro (heq | ⟨_, hyb⟩ | ⟨hxb, _⟩)
        · exact heq
        · exact absurd hyb hy
        · exact absurd hxb hx

/-- Merging two sets merges them, and no others. -/
theorem Represents.union (h : self.Represents root depth) (ha : depth a ≤ fuel)
    (hb : depth b ≤ fuel) :
    ∃ self' root' depth', self.union fuel a b = some self' ∧ self'.Represents root' depth' ∧
      (∀ x, depth' x ≤ depth x + 1) ∧ ∀ x y, root' x = root' y ↔ Merged root a b x y := by
  obtain ⟨uf₁, hfind₁, h₁, hseen₁, _⟩ := h.find ha
  obtain ⟨uf₂, hfind₂, h₂, hseen₂, hkeep₂⟩ := h₁.find hb
  have hra := h₂.rooted a (hkeep₂ a hseen₁)
  have hrb := h₂.rooted b hseen₂
  simp only [UnionFind.union, hfind₁, hfind₂, Option.bind_eq_bind, Option.bind_some]
  by_cases heq : root a = root b
  · rw [if_pos heq]
    refine ⟨uf₂, root, depth, rfl, h₂, fun x => Nat.le_succ _, fun x y => ?_⟩
    constructor
    · exact Or.inl
    · rintro (hxy | ⟨hx, hy⟩ | ⟨hx, hy⟩)
      · exact hxy
      · rw [hx, hy, heq]
      · rw [hx, hy, heq]
  · rw [if_neg heq]
    obtain ⟨la, hla, _⟩ := h₂.members _ hra
    obtain ⟨lb, hlb, _⟩ := h₂.members _ hrb
    have hbound : ∀ r x, (if root x = r then depth x + 1 else depth x) ≤ depth x + 1 := by
      intro r x
      split
      · exact Nat.le_refl _
      · exact Nat.le_succ _
    by_cases hsize : la.length ≥ lb.length
    · have hrest : uf₂.members.remove (root b) (root a) = some la :=
        HMap.remove_eq_some_iff.mpr ⟨heq, hla⟩
      refine ⟨_, _, _, ?_, h₂.link hra hrb heq hla hlb, hbound _, fun x y =>
        redirect_eq_iff x y⟩
      simp only [hla, hlb, Option.bind_some, if_pos hsize, hrest]
    · have hrest : uf₂.members.remove (root a) (root b) = some lb :=
        HMap.remove_eq_some_iff.mpr ⟨Ne.symm heq, hlb⟩
      refine ⟨_, _, _, ?_, h₂.link hrb hra (Ne.symm heq) hlb hla, hbound _, fun x y =>
        (redirect_eq_iff x y).trans merged_symm⟩
      simp only [hla, hlb, Option.bind_some, if_neg hsize, hrest]

/-! ## Queries -/

theorem Represents.inSameSet (h : self.Represents root depth) (ha : depth a ≤ fuel)
    (hb : depth b ≤ fuel) :
    ∃ self', self.inSameSet fuel a b = some (decide (root a = root b), self') ∧
      self'.Represents root depth := by
  obtain ⟨uf₁, hfind₁, h₁, _, _⟩ := h.find ha
  obtain ⟨uf₂, hfind₂, h₂, _, _⟩ := h₁.find hb
  refine ⟨uf₂, ?_, h₂⟩
  simp only [UnionFind.inSameSet, hfind₁, hfind₂, Option.bind_eq_bind, Option.bind_some]

theorem Represents.setMembers (h : self.Represents root depth) (hv : depth v ≤ fuel) :
    ∃ l self', self.setMembers fuel v = some (l, self') ∧ self'.Represents root depth ∧
      l.Nodup ∧ ∀ x, x ∈ l ↔ root x = root v := by
  obtain ⟨uf₁, hfind₁, h₁, hseen, _⟩ := h.find hv
  obtain ⟨l, hl, hnodup, hmem⟩ := h₁.members _ (h₁.rooted v hseen)
  refine ⟨l, uf₁, ?_, h₁, hnodup, fun x => ?_⟩
  · simp only [UnionFind.setMembers, hfind₁, hl, Option.bind_eq_bind, Option.bind_some]
  · rw [hmem]
    constructor
    · exact And.right
    · intro hx
      refine ⟨fun hnone => ?_, hx⟩
      -- a value never seen is its own representative, which the one of `v` is not
      have hself := h₁.unseen x hnone
      have hr := h₁.rooted v hseen
      rw [← hx, hself, hnone] at hr
      cases hr

/-! ## Runs -/

/-- What holds after calls: the sets are the classes connected by the unions, and no path is
    longer than the number of calls. -/
def Tracks (self : UnionFind T) (calls : List (Call T)) : Prop :=
  ∃ root depth, self.Represents root depth ∧ (∀ x, depth x ≤ calls.length) ∧
    ∀ x y, root x = root y ↔ Connected calls x y

omit [DecidableEq T] in
theorem Connected.mono {calls : List (Call T)} {x y : T} (c : Call T)
    (h : Connected calls x y) : Connected (calls ++ [c]) x y :=
  EqvGen.mono (fun _ _ hmem => List.mem_append_left _ hmem) _ _ h

omit [DecidableEq T] in
/-- The calls that are not unions connect nothing. -/
theorem connected_query {calls : List (Call T)} {c : Call T} (hc : ∀ a b, c ≠ .union a b)
    (x y : T) : Connected (calls ++ [c]) x y ↔ Connected calls x y := by
  refine ⟨fun h => EqvGen.mono (fun a b hmem => ?_) _ _ h, Connected.mono c⟩
  rcases List.mem_append.mp hmem with hmem | hmem
  · exact hmem
  · exact absurd (List.mem_singleton.mp hmem).symm (hc a b)

omit [DecidableEq T] in
/-- A union connects what is connected to one of its arguments with what is connected to the
    other. -/
theorem connected_union {calls : List (Call T)} (hroot : ∀ x y, root x = root y ↔
    Connected calls x y) {root' : T → T} (hroot' : ∀ x y, root' x = root' y ↔
    Merged root a b x y) (x y : T) :
    root' x = root' y ↔ Connected (calls ++ [.union a b]) x y := by
  have hnew : Connected (calls ++ [.union a b]) a b :=
    EqvGen.rel _ _ (List.mem_append_right _ (List.mem_singleton_self _))
  have hold : ∀ u w, root u = root w → Connected (calls ++ [.union a b]) u w :=
    fun u w huw => Connected.mono _ ((hroot u w).mp huw)
  constructor
  · intro heq
    rcases (hroot' x y).mp heq with hxy | ⟨hx, hy⟩ | ⟨hx, hy⟩
    · exact hold x y hxy
    · exact ((hold x a hx).trans _ _ _ hnew).trans _ _ _ ((hold y b hy).symm)
    · exact ((hold x b hx).trans _ _ _ (hnew.symm)).trans _ _ _ ((hold y a hy).symm)
  · intro hconn
    induction hconn with
    | rel u w hmem =>
        rcases List.mem_append.mp hmem with hmem | hmem
        · exact (hroot' u w).mpr (Or.inl ((hroot u w).mpr (EqvGen.rel _ _ hmem)))
        · obtain ⟨rfl, rfl⟩ := Call.union.inj (List.mem_singleton.mp hmem)
          exact (hroot' u w).mpr (Or.inr (Or.inl ⟨rfl, rfl⟩))
    | refl u => rfl
    | symm u w _ ih => exact ih.symm
    | trans u w z _ _ ih₁ ih₂ => exact ih₁.trans ih₂

/-- One call keeps track of the unions. -/
theorem Tracks.call {calls : List (Call T)} (h : self.Tracks calls) (hfuel : calls.length ≤ fuel)
    (c : Call T) : ∃ self', self.call fuel c = some self' ∧ self'.Tracks (calls ++ [c]) := by
  obtain ⟨root, depth, hrep, hdepth, hroot⟩ := h
  have hle : ∀ x, depth x ≤ fuel := fun x => (hdepth x).trans hfuel
  have hlength : (calls ++ [c]).length = calls.length + 1 := List.length_append
  -- a query represents what was represented
  have hquery : (∀ a b, c ≠ .union a b) → ∀ self' : UnionFind T, self'.Represents root depth →
      self'.Tracks (calls ++ [c]) := by
    intro hc self' hrep'
    refine ⟨root, depth, hrep', fun x => ?_, fun x y => ?_⟩
    · rw [hlength]
      exact Nat.le_succ_of_le (hdepth x)
    · rw [hroot, connected_query hc]
  cases c with
  | find v =>
      obtain ⟨self', hfind, hrep', _⟩ := hrep.find (hle v)
      refine ⟨self', ?_, hquery nofun self' hrep'⟩
      rw [UnionFind.call, hfind]
      rfl
  | union a b =>
      obtain ⟨self', root', depth', hunion, hrep', hdepth', hroot'⟩ := hrep.union (hle a) (hle b)
      refine ⟨self', hunion, root', depth', hrep', fun x => ?_, connected_union hroot hroot'⟩
      rw [hlength]
      have hx := hdepth x
      have hx' := hdepth' x
      omega
  | inSameSet a b =>
      obtain ⟨self', hsame, hrep'⟩ := hrep.inSameSet (hle a) (hle b)
      refine ⟨self', ?_, hquery nofun self' hrep'⟩
      rw [UnionFind.call, hsame]
      rfl
  | setMembers v =>
      obtain ⟨l, self', hmembers, hrep', _⟩ := hrep.setMembers (hle v)
      refine ⟨self', ?_, hquery nofun self' hrep'⟩
      rw [UnionFind.call, hmembers]
      rfl

omit [DecidableEq T] in
theorem tracks_empty : ({} : UnionFind T).Tracks [] := by
  refine ⟨id, fun _ => 0, represents_empty, fun _ => Nat.le_refl 0, fun x y => ?_⟩
  constructor
  · rintro rfl
    exact EqvGen.refl _
  · intro h
    induction h with
    | rel u w hmem => exact absurd hmem List.not_mem_nil
    | refl u => rfl
    | symm u w _ ih => exact ih.symm
    | trans u w z _ _ ih₁ ih₂ => exact ih₁.trans ih₂

/-- After any calls the structure tracks the unions among them. -/
theorem run_tracks {calls : List (Call T)} (hfuel : calls.length ≤ fuel) :
    ∃ self : UnionFind T, run fuel calls = some self ∧ self.Tracks calls := by
  induction calls using List.reverseRecOn with
  | nil => exact ⟨{}, rfl, tracks_empty⟩
  | append_singleton calls c ih =>
      rw [List.length_append, List.length_singleton] at hfuel
      have hshort : calls.length ≤ fuel := by omega
      obtain ⟨self, hrun, htracks⟩ := ih hshort
      obtain ⟨self', hcall, htracks'⟩ := htracks.call hshort c
      refine ⟨self', ?_, htracks'⟩
      have hrun' : calls.foldlM (UnionFind.call fuel) {} = some self := hrun
      rw [run, List.foldlM_append, hrun']
      exact (bind_pure _).trans hcall

/-- After any unions and queries, a query of one pair answers whether the unions connect it, and
    the members of a set are listed once each.  So no other union order, and no query made in
    between, gives another answer. -/
theorem unionFind_exact {calls : List (Call T)} (hfuel : calls.length ≤ fuel) :
    ∃ self : UnionFind T, run fuel calls = some self ∧
      (∀ a b, ∃ same self', self.inSameSet fuel a b = some (same, self') ∧
        (same = true ↔ Connected calls a b)) ∧
      (∀ v, ∃ l self', self.setMembers fuel v = some (l, self') ∧ l.Nodup ∧
        ∀ x, x ∈ l ↔ Connected calls v x) ∧
      ∀ calls' : List (Call T), calls'.length ≤ fuel →
        (∀ a b, Call.union a b ∈ calls' ↔ Call.union a b ∈ calls) →
        ∃ other : UnionFind T, run fuel calls' = some other ∧
          (∀ a b, (other.inSameSet fuel a b).map Prod.fst =
            (self.inSameSet fuel a b).map Prod.fst) ∧
          ∀ v, ∃ l l', (self.setMembers fuel v).map Prod.fst = some l ∧
            (other.setMembers fuel v).map Prod.fst = some l' ∧ l'.Perm l := by
  obtain ⟨self, hrun, root, depth, hrep, hdepth, hroot⟩ := run_tracks hfuel
  have hle : ∀ x, depth x ≤ fuel := fun x => (hdepth x).trans hfuel
  refine ⟨self, hrun, fun a b => ?_, fun v => ?_, fun calls' hfuel' hunions => ?_⟩
  · obtain ⟨self', hsame, _⟩ := hrep.inSameSet (hle a) (hle b)
    exact ⟨_, self', hsame, decide_eq_true_iff.trans (hroot a b)⟩
  · obtain ⟨l, self', hmembers, _, hnodup, hmem⟩ := hrep.setMembers (hle v)
    refine ⟨l, self', hmembers, hnodup, fun x => ?_⟩
    rw [hmem, eq_comm, hroot]
  · obtain ⟨other, hrun', root', depth', hrep', hdepth', hroot'⟩ := run_tracks hfuel'
    have hle' : ∀ x, depth' x ≤ fuel := fun x => (hdepth' x).trans hfuel'
    -- the sets only depend on which unions were asked for
    have hsets : ∀ x y, root' x = root' y ↔ root x = root y := by
      intro x y
      rw [hroot', hroot, Connected, Connected]
      simp only [hunions]
    refine ⟨other, hrun', fun a b => ?_, fun v => ?_⟩
    · obtain ⟨self', hsame, _⟩ := hrep.inSameSet (hle a) (hle b)
      obtain ⟨other', hsame', _⟩ := hrep'.inSameSet (hle' a) (hle' b)
      rw [hsame, hsame', Option.map_some, Option.map_some, decide_eq_decide.mpr (hsets a b)]
    · obtain ⟨l, self', hmembers, _, hnodup, hmem⟩ := hrep.setMembers (hle v)
      obtain ⟨l', other', hmembers', _, hnodup', hmem'⟩ := hrep'.setMembers (hle' v)
      refine ⟨l, l', by rw [hmembers]; rfl, by rw [hmembers']; rfl, ?_⟩
      refine (List.perm_ext_iff_of_nodup hnodup' hnodup).mpr (fun x => ?_)
      rw [hmem, hmem', hsets]

/-- Unions with queries in between; the last union joins two pairs. -/
def twoPairs : List (Call Nat) :=
  [.union 1 2, .inSameSet 2 1, .union 3 4, .setMembers 4, .find 7, .union 2 4]

theorem unionFind_exact_twoPairs :
    (run 6 twoPairs).bind (fun self => (self.setMembers 6 4).map Prod.fst) = some [1, 2, 3, 4] ∧
    ∃ self : UnionFind Nat, run 6 twoPairs = some self ∧
      (∃ same self', self.inSameSet 6 1 3 = some (same, self') ∧
        (same = true ↔ Connected twoPairs 1 3)) ∧
      ∃ l self', self.setMembers 6 4 = some (l, self') ∧ l.Nodup ∧
        ∀ x, x ∈ l ↔ Connected twoPairs 4 x := by
  refine ⟨by decide, ?_⟩
  have hlength : twoPairs.length ≤ 6 := by decide
  obtain ⟨self, hrun, hsame, hmembers, _⟩ := unionFind_exact hlength
  exact ⟨self, hrun, hsame 1 3, hmembers 4⟩

end UnionFind

end Pliron
