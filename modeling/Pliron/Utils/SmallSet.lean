/-
  Pliron.Utils.SmallSet

  Sets that are usually small.

  Like small maps: up to `N` elements inline, and beyond that a set of the `indexmap` library,
  which is a parameter.  `none` is a panic.
-/

import Pliron.Lib.OrderedTable

namespace Pliron

open Pliron.Lib OrderedTable

/-! ## The library -/

/-- The functions of `indexmap` on sets.  `Q` are the values to look up. -/
structure IndexSet (T Q : Type) where
  Set : Type
  withCapacityAndHasher : (capacity : Nat) → Set
  len : Set → Nat
  clear : Set → Set
  /-- The elements in iteration order. -/
  iter : Set → List T
  retain : Set → (T → Bool) → Set
  insert : Set → T → Bool × Set
  contains : Set → Q → Bool
  get : Set → Q → Option T
  swapRemove : Set → Q → Bool × Set

/-- The documented behaviour, if equality and hashing are lawful. -/
structure IndexSet.Documented {T Q : Type} [BEq T] (L : IndexSet T Q)
    (equivalent : Q → T → Bool) : Prop where
  iter_withCapacityAndHasher : ∀ n, L.iter (L.withCapacityAndHasher n) = []
  len : ∀ s, L.len s = (L.iter s).length
  iter_clear : ∀ s, L.iter (L.clear s) = []
  iter_retain : ∀ s f, L.iter (L.retain s f) = (L.iter s).filter f
  /-- A new value is inserted at the end; a present one is kept. -/
  insert : ∀ s v, (L.insert s v).1 = (insertNew (L.iter s) v).1 ∧
    L.iter (L.insert s v).2 = (insertNew (L.iter s) v).2
  contains : ∀ s q, L.contains s q = (L.iter s).any (equivalent q)
  get : ∀ s q, L.get s q = (L.iter s).find? (equivalent q)
  /-- The value is removed by swapping it with the last one and popping it off. -/
  swapRemove : ∀ s q, (L.swapRemove s q).1 = (remove (equivalent q) (L.iter s)).1.isSome ∧
    L.iter (L.swapRemove s q).2 = (remove (equivalent q) (L.iter s)).2

/-! ## Sets -/

variable {T Q : Type}

/-- Backing storage of a set: a flat array, or a hash table. -/
inductive SmallSet (L : IndexSet T Q) where
  | inline (v : List T)
  | spilled (set : L.Set)

namespace SmallSet

variable {L : IndexSet T Q}

/-- Creates an empty set. -/
def new : SmallSet L := .inline []

def len : SmallSet L → Nat
  | inline v => v.length
  | spilled s => L.len s

def isEmpty (s : SmallSet L) : Bool := s.len == 0

/-- Clears the set; a promoted set stays promoted. -/
def clear : SmallSet L → SmallSet L
  | inline _ => inline []
  | spilled s => spilled (L.clear s)

/-- Retains only the elements specified by the predicate. -/
def retain (f : T → Bool) : SmallSet L → SmallSet L
  | inline v => inline (v.filter f)
  | spilled s => spilled (L.retain s f)

/-- The elements in iteration order. -/
def iter : SmallSet L → List T
  | inline v => v
  | spilled set => L.iter set

variable [BEq T] (N : Nat) (equivalent : Q → T → Bool)

/-- Moves from inline storage to a hash table. -/
def promote (v : List T) : L.Set :=
  v.foldl (fun set x => (L.insert set x).2) (L.withCapacityAndHasher (v.length + 1))

/-- Adds a value to the set, and returns whether it was not present. -/
def insert (value : T) : SmallSet L → Bool × SmallSet L
  | inline v =>
      if v.any (· == value) then (false, inline v)
      else if v.length < N then (true, inline (v ++ [value]))
      else
        let (inserted, set) := L.insert (promote v) value
        (inserted, spilled set)
  | spilled set =>
      let (inserted, set) := L.insert set value
      (inserted, spilled set)

/-- The set contains a value. -/
def contains (value : Q) : SmallSet L → Bool
  | inline v => v.any (fun x => equivalent value x)
  | spilled set => L.contains set value

/-- The value in the set, if any, that is equal to the given value. -/
def get (value : Q) : SmallSet L → Option T
  | inline v => v.find? (fun x => equivalent value x)
  | spilled set => L.get set value

/-- Removes a value from the set, and returns whether it was present. -/
def remove (value : Q) : SmallSet L → Option (Bool × SmallSet L)
  | inline v =>
      match v.findIdx? (fun x => equivalent value x) with
      | some i => do
          let (_, v) ← swapRemove v i
          some (true, inline v)
      | none => some (false, inline v)
  | spilled set =>
      let (old, set) := L.swapRemove set value
      some (old, spilled set)

/-- Add values, in order. -/
def extend (s : SmallSet L) (values : List T) : SmallSet L :=
  values.foldl (fun s v => (s.insert N v).2) s

/-- The set that is collected from an iterator. -/
def fromIter (values : List T) : SmallSet L := extend N new values

/-- Equality of sets. -/
def eq {L : IndexSet T T} (s other : SmallSet L) : Bool :=
  s.len == other.len && s.iter.all (fun v => other.contains (· == ·) v)

end SmallSet

end Pliron
