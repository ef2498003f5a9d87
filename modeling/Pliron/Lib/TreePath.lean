/-
  Pliron.Lib.TreePath

  Reading and replacing the part of a tree at a path.

  A node has a list of children, or it has none and is a leaf.  A path is a list of indices of
  children.
-/

import Mathlib.Data.List.Basic
import Mathlib.Tactic

namespace Pliron.Lib.TreePath

/-- The nodes of trees, and how a node is rebuilt with other children. -/
structure Nodes (N : Type) where
  children : N → Option (List N)
  rebuild : N → List N → N
  children_rebuild : ∀ n l l', children n = some l → children (rebuild n l') = some l'

variable {N : Type} (T : Nodes N)

/-- The part at a path. -/
def get : N → List Nat → Option N
  | n, [] => some n
  | n, i :: path => do
      let l ← T.children n
      let c ← l[i]?
      get c path

/-- Replace the part at a path, and rebuild the nodes above it. -/
def set : N → N → List Nat → Option N
  | _, v, [] => some v
  | n, v, i :: path => do
      let l ← T.children n
      let c ← l[i]?
      let c ← set c v path
      some (T.rebuild n (l.set i c))

/-- Two paths that go different ways at some node. -/
def Diverge (p q : List Nat) : Prop :=
  ∃ common i j p' q', p = common ++ i :: p' ∧ q = common ++ j :: q' ∧ i ≠ j

variable {T} {n v m c : N} {i : Nat} {p q r : List Nat}

theorem get_cons (n : N) (i : Nat) (p : List Nat) : get T n (i :: p) =
    (T.children n).bind (fun l => (l[i]?).bind (fun c => get T c p)) := rfl

theorem set_cons (n v : N) (i : Nat) (p : List Nat) : set T n v (i :: p) =
    (T.children n).bind (fun l => (l[i]?).bind (fun c => (set T c v p).map
      (fun c => T.rebuild n (l.set i c)))) := by
  simp only [set, Option.bind_eq_bind, Option.map_eq_bind]
  rfl

theorem get_cons_eq_some : get T n (i :: p) = some m ↔
    ∃ l c, T.children n = some l ∧ l[i]? = some c ∧ get T c p = some m := by
  simp only [get, Option.bind_eq_bind, Option.bind_eq_some_iff]
  tauto

theorem set_cons_eq_some : set T n v (i :: p) = some m ↔
    ∃ l c c', T.children n = some l ∧ l[i]? = some c ∧ set T c v p = some c' ∧
      m = T.rebuild n (l.set i c') := by
  constructor
  · intro h
    obtain ⟨l, hl, h⟩ := Option.bind_eq_some_iff.mp h
    obtain ⟨c, hc, h⟩ := Option.bind_eq_some_iff.mp h
    obtain ⟨c', hc', h⟩ := Option.bind_eq_some_iff.mp h
    exact ⟨l, c, c', hl, hc, hc', (Option.some.inj h).symm⟩
  · rintro ⟨l, c, c', hl, hc, hc', rfl⟩
    simp only [set, hl, hc, hc', Option.bind_eq_bind, Option.bind_some]

/-- The parts of the node that `set` rebuilds. -/
theorem get_rebuild {l : List N} (hl : T.children n = some l) (l' : List N) (i : Nat)
    (p : List Nat) : get T (T.rebuild n l') (i :: p) = (l'[i]?).bind (get T · p) := by
  rw [get, T.children_rebuild n l l' hl]
  rfl

/-- What was put at a path is read there. -/
theorem get_set_self (h : set T n v p = some m) : get T m p = some v := by
  induction p generalizing n m with
  | nil => exact h.symm
  | cons i p ih =>
      obtain ⟨l, c, c', hl, hc, hc', rfl⟩ := set_cons_eq_some.mp h
      obtain ⟨hi, _⟩ := List.getElem?_eq_some_iff.mp hc
      rw [get_rebuild hl, List.getElem?_set_self hi, Option.bind_some]
      exact ih hc'

/-- On the way to the path there is the old part, replaced along the rest of the path. -/
theorem get_set_prefix (h : set T n v (p ++ r) = some m) :
    ∃ c c', get T n p = some c ∧ set T c v r = some c' ∧ get T m p = some c' := by
  induction p generalizing n m with
  | nil => exact ⟨n, m, rfl, h, rfl⟩
  | cons i p ih =>
      obtain ⟨l, d, d', hl, hd, hd', rfl⟩ := set_cons_eq_some.mp h
      obtain ⟨c, c', hc, hset, hc'⟩ := ih hd'
      obtain ⟨hi, _⟩ := List.getElem?_eq_some_iff.mp hd
      refine ⟨c, c', get_cons_eq_some.mpr ⟨l, d, hl, hd, hc⟩, hset, ?_⟩
      rw [get_rebuild hl, List.getElem?_set_self hi, Option.bind_some]
      exact hc'

/-- Along a path that goes another way nothing changes. -/
theorem get_set_of_diverge (h : set T n v p = some m) (hq : Diverge p q) :
    get T m q = get T n q := by
  obtain ⟨common, i, j, p', q', rfl, rfl, hij⟩ := hq
  induction common generalizing n m with
  | nil =>
      obtain ⟨l, c, c', hl, _, _, rfl⟩ := set_cons_eq_some.mp h
      rw [List.nil_append, get_rebuild hl, List.getElem?_set_ne hij, get, hl]
      rfl
  | cons k common ih =>
      obtain ⟨l, c, c', hl, hc, hc', rfl⟩ := set_cons_eq_some.mp h
      obtain ⟨hk, _⟩ := List.getElem?_eq_some_iff.mp hc
      rw [List.cons_append, get_rebuild hl, List.getElem?_set_self hk, Option.bind_some, ih hc',
        get, hl]
      simp only [Option.bind_eq_bind, Option.bind_some, hc]

/-- A part can be replaced exactly if there is one. -/
theorem set_isSome : (∃ m, set T n v p = some m) ↔ (get T n p).isSome = true := by
  induction p generalizing n with
  | nil => exact ⟨fun _ => rfl, fun _ => ⟨v, rfl⟩⟩
  | cons i p ih =>
      rw [Option.isSome_iff_exists]
      constructor
      · rintro ⟨m, h⟩
        obtain ⟨l, c, c', hl, hc, hc', _⟩ := set_cons_eq_some.mp h
        obtain ⟨d, hd⟩ := Option.isSome_iff_exists.mp (ih.mp ⟨c', hc'⟩)
        exact ⟨d, get_cons_eq_some.mpr ⟨l, c, hl, hc, hd⟩⟩
      · rintro ⟨d, h⟩
        obtain ⟨l, c, hl, hc, hd⟩ := get_cons_eq_some.mp h
        obtain ⟨c', hc'⟩ := ih.mpr (Option.isSome_iff_exists.mpr ⟨d, hd⟩)
        exact ⟨_, set_cons_eq_some.mpr ⟨l, c, c', hl, hc, hc', rfl⟩⟩

/-- The node at the root keeps its number of children. -/
theorem children_set (h : set T n v p = some m) (hp : p ≠ []) :
    ∃ l l', T.children n = some l ∧ m = T.rebuild n l' ∧ T.children m = some l' ∧
      l'.length = l.length := by
  cases p with
  | nil => exact absurd rfl hp
  | cons i p =>
      obtain ⟨l, c, c', hl, _, _, rfl⟩ := set_cons_eq_some.mp h
      exact ⟨l, l.set i c', hl, rfl, T.children_rebuild n l _ hl, List.length_set⟩

/-- Of two paths one continues the other, or they go different ways. -/
theorem prefix_or_diverge (p q : List Nat) :
    p <+: q ∨ (∃ r, r ≠ [] ∧ p = q ++ r) ∨ Diverge p q := by
  induction p generalizing q with
  | nil => exact Or.inl List.nil_prefix
  | cons i p ih =>
      cases q with
      | nil => exact Or.inr (Or.inl ⟨i :: p, List.cons_ne_nil _ _, rfl⟩)
      | cons j q =>
          by_cases hij : i = j
          · subst hij
            obtain hpre | ⟨r, hr, rfl⟩ | ⟨common, k, k', p', q', rfl, rfl, hk⟩ := ih q
            · exact Or.inl (List.cons_prefix_cons.mpr ⟨rfl, hpre⟩)
            · exact Or.inr (Or.inl ⟨r, hr, rfl⟩)
            · exact Or.inr (Or.inr ⟨i :: common, k, k', p', q', rfl, rfl, hk⟩)
          · exact Or.inr (Or.inr ⟨[], i, j, p, q, rfl, rfl, hij⟩)

end Pliron.Lib.TreePath
