/-
  Pliron.Utils.SmallTable

  Maps and sets that are usually small.

  Up to `N` entries are stored inline, in an array that is scanned; an insertion beyond that
  moves them to a hash table of the `indexmap` library.  The library is a parameter here:
  `IndexMap` and `IndexSet` have the functions that are used.  A mutable reference is the value
  it refers to with what writing it leaves behind.  `none` is a panic.
-/

import Pliron.Lib.OrderedTable

namespace Pliron

open Pliron.Lib OrderedTable

/-- A mutable reference to a `V` in an `X`. -/
structure RefMut (V X : Type) where
  value : V
  write : V → X

def RefMut.map {V X Y : Type} (r : RefMut V X) (f : X → Y) : RefMut V Y :=
  { value := r.value, write := fun v => f (r.write v) }

/-! ## The library -/

/-- The functions of `indexmap` on maps.  `Q` are the keys to look up. -/
structure IndexMap (K V Q : Type) where
  Map : Type
  OccupiedEntry : Type
  VacantEntry : Type
  withCapacityAndHasher : (capacity : Nat) → Map
  len : Map → Nat
  clear : Map → Map
  /-- The entries in iteration order. -/
  iter : Map → List (K × V)
  /-- Write every value. -/
  iterMut : Map → (K → V → V) → Map
  retain : Map → (K → V → Bool) → Map
  insert : Map → K → V → Option V × Map
  get : Map → Q → Option V
  getMut : Map → Q → Option (RefMut V Map)
  getKeyValue : Map → Q → Option (K × V)
  swapRemove : Map → Q → Option V × Map
  getIndexMut : Map → Nat → Option (RefMut V Map)
  entry : Map → K → OccupiedEntry ⊕ VacantEntry
  occupiedIndex : OccupiedEntry → Nat
  occupiedKey : OccupiedEntry → K
  occupiedGet : OccupiedEntry → V
  occupiedGetMut : OccupiedEntry → RefMut V OccupiedEntry
  occupiedIntoMut : OccupiedEntry → RefMut V Map
  occupiedSwapRemove : OccupiedEntry → V × Map
  /-- The map after the entry is dropped. -/
  occupiedDrop : OccupiedEntry → Map
  vacantKey : VacantEntry → K
  vacantInsert : VacantEntry → V → RefMut V Map
  vacantDrop : VacantEntry → Map

/-- A reference to the value at an index of the entries `l`. -/
structure RefMut.IsAt {K V X : Type} (r : RefMut V X) (iter : X → List (K × V))
    (l : List (K × V)) (i : Nat) : Prop where
  value : (l[i]?).map Prod.snd = some r.value
  write : ∀ v, iter (r.write v) = setValue l i v

/-- The documented behaviour, if equality and hashing are lawful. -/
structure IndexMap.Documented {K V Q : Type} [BEq K] (L : IndexMap K V Q)
    (equivalent : Q → K → Bool) : Prop where
  iter_withCapacityAndHasher : ∀ n, L.iter (L.withCapacityAndHasher n) = []
  len : ∀ m, L.len m = (L.iter m).length
  iter_clear : ∀ m, L.iter (L.clear m) = []
  iter_iterMut : ∀ m f, L.iter (L.iterMut m f) = (L.iter m).map (fun e => (e.1, f e.1 e.2))
  iter_retain : ∀ m f, L.iter (L.retain m f) = (L.iter m).filter (fun e => f e.1 e.2)
  /-- A new pair is inserted at the end; of a present key the value is replaced. -/
  insert : ∀ m k v, (L.insert m k v).1 = (OrderedTable.insert (L.iter m) k v).1 ∧
    L.iter (L.insert m k v).2 = (OrderedTable.insert (L.iter m) k v).2
  getKeyValue : ∀ m q, L.getKeyValue m q = (L.iter m).find? (fun e => equivalent q e.1)
  get : ∀ m q, L.get m q = ((L.iter m).find? (fun e => equivalent q e.1)).map Prod.snd
  getMut_some : ∀ m q i, (L.iter m).findIdx? (fun e => equivalent q e.1) = some i →
    ∃ r, L.getMut m q = some r ∧ r.IsAt L.iter (L.iter m) i
  getMut_none : ∀ m q, (L.iter m).findIdx? (fun e => equivalent q e.1) = none →
    L.getMut m q = none
  /-- The pair is removed by swapping it with the last one and popping it off. -/
  swapRemove : ∀ m q, (L.swapRemove m q).1 =
      (OrderedTable.remove (fun e => equivalent q e.1) (L.iter m)).1.map Prod.snd ∧
    L.iter (L.swapRemove m q).2 =
      (OrderedTable.remove (fun e => equivalent q e.1) (L.iter m)).2
  getIndexMut : ∀ m i, i < L.len m → ∃ r, L.getIndexMut m i = some r ∧
    r.IsAt L.iter (L.iter m) i
  entry_occupied : ∀ m k e, L.entry m k = .inl e →
    (L.iter m).findIdx? (fun e => e.1 == k) = some (L.occupiedIndex e) ∧
      L.iter (L.occupiedDrop e) = L.iter m
  entry_vacant : ∀ m k e, L.entry m k = .inr e →
    (L.iter m).findIdx? (fun e => e.1 == k) = none ∧
      L.iter (L.vacantDrop e) = L.iter m ∧ L.vacantKey e = k
  occupiedRead : ∀ e k v, (L.iter (L.occupiedDrop e))[L.occupiedIndex e]? = some (k, v) →
    L.occupiedKey e = k ∧ L.occupiedGet e = v ∧ (L.occupiedGetMut e).value = v
  occupiedGetMut : ∀ e v, L.occupiedIndex ((L.occupiedGetMut e).write v) = L.occupiedIndex e ∧
    L.iter (L.occupiedDrop ((L.occupiedGetMut e).write v)) =
      setValue (L.iter (L.occupiedDrop e)) (L.occupiedIndex e) v
  occupiedIntoMut : ∀ e, L.occupiedIndex e < (L.iter (L.occupiedDrop e)).length →
    (L.occupiedIntoMut e).IsAt L.iter (L.iter (L.occupiedDrop e)) (L.occupiedIndex e)
  occupiedSwapRemove : ∀ e a l,
    OrderedTable.swapRemove (L.iter (L.occupiedDrop e)) (L.occupiedIndex e) = some (a, l) →
      (L.occupiedSwapRemove e).1 = a.2 ∧ L.iter (L.occupiedSwapRemove e).2 = l
  vacantInsert : ∀ e v, (L.vacantInsert e v).IsAt L.iter
    (L.iter (L.vacantDrop e) ++ [(L.vacantKey e, v)]) (L.iter (L.vacantDrop e)).length

/-! ## Maps -/

variable {K V Q : Type}

/-- Backing storage of a map: a flat array, or a hash table. -/
inductive SmallMap (L : IndexMap K V Q) where
  | inline (v : List (K × V))
  | spilled (map : L.Map)

/-- A view into an occupied entry. -/
inductive OccupiedEntry (L : IndexMap K V Q) where
  | inline (vec : List (K × V)) (index : Nat)
  | spilled (e : L.OccupiedEntry)

/-- A view into a vacant entry. -/
inductive VacantEntry (L : IndexMap K V Q) where
  | inline (repr : SmallMap L) (key : K)
  | spilled (e : L.VacantEntry)

/-- A view into a single entry. -/
inductive SmallMapEntry (L : IndexMap K V Q) where
  | occupied (e : OccupiedEntry L)
  | vacant (e : VacantEntry L)

namespace SmallMap

variable {L : IndexMap K V Q}

/-- Creates an empty map. -/
def new : SmallMap L := .inline []

def len : SmallMap L → Nat
  | inline v => v.length
  | spilled m => L.len m

def isEmpty (m : SmallMap L) : Bool := m.len == 0

/-- Clears the map; a promoted map stays promoted. -/
def clear : SmallMap L → SmallMap L
  | inline _ => inline []
  | spilled m => spilled (L.clear m)

/-- Retains only the elements specified by the predicate. -/
def retain (f : K → V → Bool) : SmallMap L → SmallMap L
  | inline v => inline (v.filter (fun e => f e.1 e.2))
  | spilled m => spilled (L.retain m f)

/-- The key-value pairs in iteration order. -/
def iter : SmallMap L → List (K × V)
  | inline v => v
  | spilled map => L.iter map

/-- Write every value. -/
def iterMut (f : K → V → V) : SmallMap L → SmallMap L
  | inline v => inline (v.map (fun e => (e.1, f e.1 e.2)))
  | spilled map => spilled (L.iterMut map f)

variable [BEq K] (N : Nat) (equivalent : Q → K → Bool)

/-- Moves from inline storage to a hash table. -/
def promote (v : List (K × V)) : L.Map :=
  v.foldl (fun map e => (L.insert map e.1 e.2).2) (L.withCapacityAndHasher (v.length + 1))

/-- Inserts a key-value pair, and returns the old value.  A present key is not updated. -/
def insert (key : K) (value : V) : SmallMap L → Option (Option V × SmallMap L)
  | inline v =>
      match v.findIdx? (fun e => e.1 == key) with
      | some i => do
          let e ← v[i]?
          some (some e.2, inline (setValue v i value))
      | none =>
          if v.length < N then some (none, inline (v ++ [(key, value)]))
          else
            let (old, map) := L.insert (promote v) key value
            some (old, spilled map)
  | spilled map =>
      let (old, map) := L.insert map key value
      some (old, spilled map)

/-- The value corresponding to the key. -/
def get (key : Q) : SmallMap L → Option V
  | inline v => (v.find? (fun e => equivalent key e.1)).map Prod.snd
  | spilled map => L.get map key

/-- A mutable reference to the value corresponding to the key. -/
def getMut (key : Q) : SmallMap L → Option (Option (RefMut V (SmallMap L)))
  | inline v =>
      match v.findIdx? (fun e => equivalent key e.1) with
      | some i => do
          let e ← v[i]?
          some (some { value := e.2, write := fun value => inline (setValue v i value) })
      | none => some none
  | spilled map => some ((L.getMut map key).map (fun r => r.map spilled))

/-- The key-value pair corresponding to the key. -/
def getKeyValue (key : Q) : SmallMap L → Option (K × V)
  | inline v => v.find? (fun e => equivalent key e.1)
  | spilled map => L.getKeyValue map key

def containsKey (key : Q) (m : SmallMap L) : Bool := (m.get equivalent key).isSome

/-- Removes a key, and returns its value. -/
def remove (key : Q) : SmallMap L → Option (Option V × SmallMap L)
  | inline v =>
      match v.findIdx? (fun e => equivalent key e.1) with
      | some i => do
          let (e, v) ← OrderedTable.swapRemove v i
          some (some e.2, inline v)
      | none => some (none, inline v)
  | spilled map =>
      let (old, map) := L.swapRemove map key
      some (old, spilled map)

/-- The key's corresponding entry for in-place manipulation. -/
def entry (key : K) (m : SmallMap L) : SmallMapEntry L :=
  match m with
  | inline v =>
      match v.findIdx? (fun e => e.1 == key) with
      | some index => .occupied (.inline v index)
      | none => .vacant (.inline m key)
  | spilled map =>
      match L.entry map key with
      | .inl e => .occupied (.spilled e)
      | .inr e => .vacant (.spilled e)

/-- Insert pairs, in order. -/
def extend (m : SmallMap L) (pairs : List (K × V)) : Option (SmallMap L) :=
  pairs.foldlM (fun m e => do
    let (_, m) ← m.insert N e.1 e.2
    some m) m

/-- The map that is collected from an iterator. -/
def fromIter (pairs : List (K × V)) : Option (SmallMap L) := extend N new pairs

/-- Equality of maps. -/
def eq {L : IndexMap K V K} [BEq V] (m other : SmallMap L) : Bool :=
  m.len == other.len && m.iter.all (fun e => other.get (· == ·) e.1 == some e.2)

end SmallMap

/-! ## Entries -/

namespace OccupiedEntry

variable {L : IndexMap K V Q}

/-- The key in the entry. -/
def key : OccupiedEntry L → Option K
  | inline vec index => (vec[index]?).map Prod.fst
  | spilled e => some (L.occupiedKey e)

/-- The value in the entry. -/
def get : OccupiedEntry L → Option V
  | inline vec index => (vec[index]?).map Prod.snd
  | spilled e => some (L.occupiedGet e)

/-- A mutable reference to the value in the entry. -/
def getMut : OccupiedEntry L → Option (RefMut V (OccupiedEntry L))
  | inline vec index => (vec[index]?).map (fun e =>
      { value := e.2, write := fun value => inline (setValue vec index value) index })
  | spilled e => some ((L.occupiedGetMut e).map spilled)

/-- A mutable reference to the value in the map. -/
def intoMut : OccupiedEntry L → Option (RefMut V (SmallMap L))
  | inline vec index => (vec[index]?).map (fun e =>
      { value := e.2, write := fun value => .inline (setValue vec index value) })
  | spilled e => some ((L.occupiedIntoMut e).map .spilled)

/-- Sets the value of the entry, and returns the old value. -/
def insert (value : V) (e : OccupiedEntry L) : Option (V × OccupiedEntry L) :=
  e.getMut.map (fun r => (r.value, r.write value))

/-- Takes the value out of the entry. -/
def remove : OccupiedEntry L → Option (V × SmallMap L)
  | inline vec index => (OrderedTable.swapRemove vec index).map (fun p => (p.1.2, .inline p.2))
  | spilled e => some ((L.occupiedSwapRemove e).1, .spilled (L.occupiedSwapRemove e).2)

/-- The map after the entry is dropped. -/
def drop : OccupiedEntry L → SmallMap L
  | inline vec _ => .inline vec
  | spilled e => .spilled (L.occupiedDrop e)

end OccupiedEntry

namespace VacantEntry

variable {L : IndexMap K V Q} [BEq K] (N : Nat)

/-- The key that would be used when inserting. -/
def key : VacantEntry L → K
  | inline _ key => key
  | spilled e => L.vacantKey e

/-- Inserts the entry's key with a value, and returns a mutable reference to this. -/
def insert (value : V) : VacantEntry L → Option (RefMut V (SmallMap L))
  | inline (.inline v) key =>
      if v.length < N then
        some { value := value, write := fun value => .inline (v ++ [(key, value)]) }
      else do
        let map := (L.insert (SmallMap.promote v) key value).2
        guard (0 < L.len map)
        let r ← L.getIndexMut map (L.len map - 1)
        some (r.map .spilled)
  | inline (.spilled _) _ => none
  | spilled e => some ((L.vacantInsert e value).map .spilled)

/-- The map after the entry is dropped. -/
def drop : VacantEntry L → SmallMap L
  | inline repr _ => repr
  | spilled e => .spilled (L.vacantDrop e)

end VacantEntry

namespace SmallMapEntry

variable {L : IndexMap K V Q} [BEq K] (N : Nat)

/-- Access to an occupied entry before any potential inserts into the map. -/
def andModify (f : V → V) : SmallMapEntry L → Option (SmallMapEntry L)
  | occupied e => e.getMut.map (fun r => occupied (r.write (f r.value)))
  | vacant e => some (vacant e)

/-- This entry's key. -/
def key : SmallMapEntry L → Option K
  | occupied e => e.key
  | vacant e => some e.key

/-- Ensures a value is in the entry by inserting the default if empty. -/
def orInsertWith (default : Unit → V) : SmallMapEntry L → Option (RefMut V (SmallMap L))
  | occupied e => e.intoMut
  | vacant e => e.insert N (default ())

/-- Ensures a value is in the entry by inserting the default if empty. -/
def orInsert (default : V) : SmallMapEntry L → Option (RefMut V (SmallMap L))
  | occupied e => e.intoMut
  | vacant e => e.insert N default

end SmallMapEntry

end Pliron
