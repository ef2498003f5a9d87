/-
  Pliron.Utils.StorageUniquer

  Storing one copy of each object.

  A store owns objects and finds them by a 64-bit hash: objects of one hash are in one bucket,
  and are told apart by an equality that the caller provides.  The context has a store of types
  and one of other uniqued values.  Objects of different Rust types share a store; `R` are the
  Rust types and `V r` the values of a type `r`.  `none` is a panic.
-/

import Pliron.Utils.Table

namespace Pliron

/-! ## The store -/

/-- Store unique copy of objects. -/
structure UniqueStore (T : Type) where
  /-- The actual store, owning the objects. -/
  uniqueStore : List T := []
  /-- A hash index into the store. -/
  uniqueStoresMap : HMap UInt64 (List Nat) := fun _ => none

namespace UniqueStore

variable {T : Type} (store : UniqueStore T)

/-- Find an index whose object satisfies a test, among possible matches. -/
def findMatch (is : T → Bool) : List Nat → Option (Option Nat)
  | [] => some none
  | index :: possibleMatches => do
      let object ← store.uniqueStore[index]?
      if is object then some (some index) else findMatch is possibleMatches

/-- Get or create a unique copy of `t`, and return its index. -/
def getOrCreateUnique (t : T) (hash : UInt64) (eq : T → T → Bool) :
    Option (Nat × UniqueStore T) := do
  let newIndex := store.uniqueStore.length
  let uniqueStore := store.uniqueStore ++ [t]
  match store.uniqueStoresMap hash with
  | some possibleMatches =>
      match ← store.findMatch (eq t) possibleMatches with
      | some index => some (index, store)
      | none => some (newIndex, {
          uniqueStore := uniqueStore
          uniqueStoresMap :=
            store.uniqueStoresMap.insert hash (possibleMatches ++ [newIndex]) })
  | none => some (newIndex, {
      uniqueStore := uniqueStore
      uniqueStoresMap := store.uniqueStoresMap.insert hash [newIndex] })

/-- Get index to the stored object that satisfies `hash` and `is`. -/
def get (hash : UInt64) (is : T → Bool) : Option (Option Nat) :=
  match store.uniqueStoresMap hash with
  | some possibleMatches => store.findMatch is possibleMatches
  | none => some none

end UniqueStore

/-! ## Objects of any type -/

section Objects

variable {R : Type} [DecidableEq R] {V : R → Type} [∀ r, BEq (V r)]

/-- The object as a value of the given type, if it is one. -/
def downcastRef (r : R) (object : Σ r, V r) : Option (V r) :=
  if h : object.1 = r then some (h ▸ object.2) else none

/-- The equality by which `save` uniques a value of type `r`. -/
def eqSaved (r : R) (t₁ t₂ : Σ r, V r) : Bool := downcastRef r t₁ == downcastRef r t₂

/-- Is self equal to an other type?  The code that is derived for every type. -/
def eqType (self other : Σ r, V r) : Bool :=
  match downcastRef self.1 other with
  | some other => other == self.2
  | none => false

end Objects

/-! ## The stores of a context -/

/-- The two stores of a context. -/
inductive StoreKind where
  | typeStore
  | uniquedAnyStore
deriving DecidableEq, Repr

/-- The stores of a context. -/
structure UniquingContext {R : Type} (V : R → Type) where
  typeStore : UniqueStore (Σ r, V r) := {}
  uniquedAnyStore : UniqueStore (Σ r, V r) := {}

namespace UniquingContext

variable {R : Type} [DecidableEq R] {V : R → Type} [∀ r, BEq (V r)]
  (hash : (Σ r, V r) → UInt64) (ctx : UniquingContext V)

/-- Save a unique copy of an object and get a handle to the saved copy. -/
def save (t : Σ r, V r) : Option (Nat × UniquingContext V) := do
  let (index, store) ← ctx.uniquedAnyStore.getOrCreateUnique t (hash t) (eqSaved t.1)
  some (index, { ctx with uniquedAnyStore := store })

/-- Given a handle to a stored unique copy of an object, get a reference to the object itself. -/
def get (r : R) (key : Nat) : Option (V r) := do
  let object ← ctx.uniquedAnyStore.uniqueStore[key]?
  downcastRef r object

/-- Instantiate a type, returning a handle to it. -/
def instantiate (t : Σ r, V r) : Option (Nat × UniquingContext V) := do
  let (index, store) ← ctx.typeStore.getOrCreateUnique t (hash t) eqType
  some (index, { ctx with typeStore := store })

/-- Get a reference to the underlying type object. -/
def deref (handle : Nat) : Option (Σ r, V r) := ctx.typeStore.uniqueStore[handle]?

/-- Look a type up. -/
def getHandle (self : Σ r, V r) : Option (Option Nat) :=
  ctx.typeStore.get (hash self) (eqType self)

/-- Get a copyable handle to this type; panics if the type is not registered. -/
def getSelfHandle (self : Σ r, V r) : Option Nat := do ← ctx.getHandle hash self

end UniquingContext

end Pliron
