/-
  Pliron.Utils.StorageUniquerCorrect

  Uniquing is exact.

  Whatever hashes collide, a bucket holds the indices of all objects of its hash, so searching it
  finds the one stored object that is equal, if there is one.  A store therefore interns, and
  this is what any sequence of requests to a context relies on.
-/

import Pliron.Lib.Interning
import Pliron.Utils.StorageUniquer

namespace Pliron

open Pliron.Lib Interning

/-! ## The store interns -/

namespace UniqueStore

variable {T : Type} {store : UniqueStore T} {hashOf : T → UInt64} {eqv : T → T → Bool}
  {t : T} {is : T → Bool} {l : List Nat}

/-- The bucket of a hash holds the indices of the objects with that hash. -/
def Indexed (store : UniqueStore T) (hashOf : T → UInt64) : Prop :=
  ∀ hash i, (∃ l, store.uniqueStoresMap hash = some l ∧ i ∈ l) ↔
    ∃ t, store.uniqueStore[i]? = some t ∧ hashOf t = hash

theorem findMatch_eq (h : ∀ i ∈ l, ∃ t, store.uniqueStore[i]? = some t) :
    store.findMatch is l = some (l.find? (fun i => (store.uniqueStore[i]?).any is)) := by
  induction l with
  | nil => rfl
  | cons i l ih =>
      obtain ⟨t, ht⟩ := h i List.mem_cons_self
      rw [findMatch, ht, Option.bind_eq_bind, Option.bind_some,
        ih (fun j hj => h j (List.mem_cons_of_mem _ hj)), List.find?_cons, ht, Option.any_some]
      cases is t <;> rfl

/-- What a bucket finds is the index of the representative. -/
theorem findMatch_bucket (h : IsEquiv eqv) (hdistinct : Distinct eqv store.uniqueStore)
    (hindexed : store.Indexed hashOf) (hhash : ∀ a b, eqv a b = true → hashOf a = hashOf b)
    (hbucket : store.uniqueStoresMap (hashOf t) = some l) :
    store.findMatch (eqv t) l = some (find? eqv store.uniqueStore t) := by
  have hvalid : ∀ i ∈ l, ∃ u, store.uniqueStore[i]? = some u := by
    intro i hi
    obtain ⟨u, hu, _⟩ := (hindexed (hashOf t) i).mp ⟨l, hbucket, hi⟩
    exact ⟨u, hu⟩
  rw [findMatch_eq hvalid]
  congr 1
  cases hfind : l.find? (fun i => (store.uniqueStore[i]?).any (eqv t)) with
  | some i =>
      obtain ⟨u, hu⟩ := hvalid i (List.mem_of_find?_eq_some hfind)
      have hany := List.find?_some hfind
      simp only [hu, Option.any_some] at hany
      exact ((find?_eq_some_iff h hdistinct).mpr ⟨u, hu, hany⟩).symm
  | none =>
      cases hrep : find? eqv store.uniqueStore t with
      | none => rfl
      | some i =>
          obtain ⟨u, hu, htu⟩ := (find?_eq_some_iff h hdistinct).mp hrep
          obtain ⟨l', hl', hi⟩ := (hindexed (hashOf t) i).mpr ⟨u, hu, (hhash t u htu).symm⟩
          obtain rfl := Option.some.inj (hbucket.symm.trans hl')
          have hnot := List.find?_eq_none.mp hfind i hi
          simp only [hu, Option.any_some, htu] at hnot
          exact absurd trivial hnot

/-- Without a bucket there is no representative. -/
theorem find?_of_no_bucket (h : IsEquiv eqv) (hdistinct : Distinct eqv store.uniqueStore)
    (hindexed : store.Indexed hashOf) (hhash : ∀ a b, eqv a b = true → hashOf a = hashOf b)
    (hbucket : store.uniqueStoresMap (hashOf t) = none) :
    find? eqv store.uniqueStore t = none := by
  cases hrep : find? eqv store.uniqueStore t with
  | none => rfl
  | some i =>
      obtain ⟨u, hu, htu⟩ := (find?_eq_some_iff h hdistinct).mp hrep
      obtain ⟨l, hl, _⟩ := (hindexed (hashOf t) i).mpr ⟨u, hu, (hhash t u htu).symm⟩
      rw [hbucket] at hl
      exact absurd hl nofun

/-- Looking an object up finds its representative. -/
theorem get_eq (h : IsEquiv eqv) (hdistinct : Distinct eqv store.uniqueStore)
    (hindexed : store.Indexed hashOf) (hhash : ∀ a b, eqv a b = true → hashOf a = hashOf b) :
    store.get (hashOf t) (eqv t) = some (find? eqv store.uniqueStore t) := by
  rw [get]
  cases hbucket : store.uniqueStoresMap (hashOf t) with
  | some l => exact findMatch_bucket h hdistinct hindexed hhash hbucket
  | none => rw [find?_of_no_bucket h hdistinct hindexed hhash hbucket]

/-- A new object is put into the bucket of its hash. -/
theorem indexed_push (hindexed : store.Indexed hashOf) :
    Indexed { uniqueStore := store.uniqueStore ++ [t]
              uniqueStoresMap := store.uniqueStoresMap.insert (hashOf t)
                ((store.uniqueStoresMap (hashOf t)).getD [] ++ [store.uniqueStore.length]) }
      hashOf := by
  intro hash i
  have hold : ∀ u, store.uniqueStore[i]? = some u →
      (store.uniqueStore ++ [t])[i]? = some u := by
    intro u hu
    obtain ⟨hi, _⟩ := List.getElem?_eq_some_iff.mp hu
    rw [List.getElem?_append_left hi]
    exact hu
  have hcases : ∀ u, (store.uniqueStore ++ [t])[i]? = some u →
      store.uniqueStore[i]? = some u ∨ (i = store.uniqueStore.length ∧ u = t) := by
    intro u hu
    by_cases hi : i < store.uniqueStore.length
    · rw [List.getElem?_append_left hi] at hu
      exact .inl hu
    · obtain ⟨hlt, _⟩ := List.getElem?_eq_some_iff.mp hu
      rw [List.length_append, List.length_singleton] at hlt
      have hlast : i = store.uniqueStore.length := by omega
      rw [hlast, List.getElem?_concat_length] at hu
      exact .inr ⟨hlast, (Option.some.inj hu).symm⟩
  show (∃ l, store.uniqueStoresMap.insert (hashOf t) _ hash = some l ∧ i ∈ l) ↔
    ∃ u, (store.uniqueStore ++ [t])[i]? = some u ∧ hashOf u = hash
  constructor
  · rintro ⟨l, hl, hi⟩
    rcases HMap.insert_eq_some_iff.mp hl with ⟨rfl, rfl⟩ | ⟨_, hl⟩
    · -- an index in the bucket of the new object is an old one, or the last
      rcases List.mem_append.mp hi with hi | hi
      · cases hbucket : store.uniqueStoresMap (hashOf t) with
        | none =>
            rw [hbucket] at hi
            exact absurd hi List.not_mem_nil
        | some l =>
            rw [hbucket] at hi
            obtain ⟨u, hu, huhash⟩ := (hindexed (hashOf t) i).mp ⟨l, hbucket, hi⟩
            exact ⟨u, hold u hu, huhash⟩
      · rw [List.mem_singleton.mp hi]
        exact ⟨t, List.getElem?_concat_length, rfl⟩
    · obtain ⟨u, hu, huhash⟩ := (hindexed hash i).mp ⟨l, hl, hi⟩
      exact ⟨u, hold u hu, huhash⟩
  · rintro ⟨u, hu, rfl⟩
    have hinsert : ∃ l, store.uniqueStoresMap.insert (hashOf t)
        ((store.uniqueStoresMap (hashOf t)).getD [] ++ [store.uniqueStore.length]) (hashOf u) =
          some l ∧ (i ∈ (store.uniqueStoresMap (hashOf u)).getD [] ∨
            (hashOf u = hashOf t ∧ i = store.uniqueStore.length) → i ∈ l) := by
      -- only the bucket of the new object grows
      by_cases heq : hashOf u = hashOf t
      · rw [heq, HMap.insert_self]
        refine ⟨_, rfl, ?_⟩
        rintro (hi | ⟨_, rfl⟩)
        · exact List.mem_append_left _ hi
        · exact List.mem_append_right _ (List.mem_singleton_self _)
      · rw [HMap.insert_of_ne heq]
        rcases hcases u hu with hu | ⟨_, rfl⟩
        · obtain ⟨l, hl, hi⟩ := (hindexed (hashOf u) i).mpr ⟨u, hu, rfl⟩
          exact ⟨l, hl, fun _ => hi⟩
        · exact absurd rfl heq
    obtain ⟨l, hl, hmem⟩ := hinsert
    refine ⟨l, hl, hmem ?_⟩
    rcases hcases u hu with hu | ⟨hi, rfl⟩
    · obtain ⟨l', hl', hi⟩ := (hindexed (hashOf u) i).mpr ⟨u, hu, rfl⟩
      rw [hl']
      exact .inl hi
    · exact .inr ⟨rfl, hi⟩

/-- Storing an object interns it. -/
theorem getOrCreateUnique_spec (h : IsEquiv eqv) (hdistinct : Distinct eqv store.uniqueStore)
    (hindexed : store.Indexed hashOf) (hhash : ∀ a b, eqv a b = true → hashOf a = hashOf b)
    {eq : T → T → Bool} (heq : eq t = eqv t) :
    ∃ store', store.getOrCreateUnique t (hashOf t) eq =
        some ((intern eqv store.uniqueStore t).1, store') ∧
      store'.uniqueStore = (intern eqv store.uniqueStore t).2 ∧ store'.Indexed hashOf := by
  have hpush := indexed_push (t := t) hindexed
  rw [getOrCreateUnique, intern]
  cases hbucket : store.uniqueStoresMap (hashOf t) with
  | some l =>
      rw [hbucket] at hpush
      simp only [heq, findMatch_bucket h hdistinct hindexed hhash hbucket, Option.bind_eq_bind,
        Option.bind_some]
      cases find? eqv store.uniqueStore t with
      | some i => exact ⟨store, rfl, rfl, hindexed⟩
      | none => exact ⟨_, rfl, rfl, hpush⟩
  | none =>
      rw [hbucket] at hpush
      rw [find?_of_no_bucket h hdistinct hindexed hhash hbucket]
      exact ⟨_, rfl, rfl, hpush⟩

/-- Storing an object again changes nothing. -/
theorem getOrCreateUnique_of_find {i : Nat} (h : IsEquiv eqv)
    (hdistinct : Distinct eqv store.uniqueStore) (hindexed : store.Indexed hashOf)
    (hhash : ∀ a b, eqv a b = true → hashOf a = hashOf b) {eq : T → T → Bool} (heq : eq t = eqv t)
    (hfind : find? eqv store.uniqueStore t = some i) :
    store.getOrCreateUnique t (hashOf t) eq = some (i, store) := by
  rw [getOrCreateUnique]
  cases hbucket : store.uniqueStoresMap (hashOf t) with
  | some l =>
      simp only [heq, findMatch_bucket h hdistinct hindexed hhash hbucket, Option.bind_eq_bind,
        Option.bind_some, hfind]
  | none =>
      rw [find?_of_no_bucket h hdistinct hindexed hhash hbucket] at hfind
      cases hfind

end UniqueStore

/-! ## Equality of objects of any type -/

section Objects

variable {R : Type} [DecidableEq R] {V : R → Type} [∀ r, BEq (V r)]

/-- Two objects have the same Rust type and are equal. -/
inductive SameValue : (Σ r, V r) → (Σ r, V r) → Prop
  | mk {r : R} {a b : V r} (h : (a == b) = true) : SameValue ⟨r, a⟩ ⟨r, b⟩

omit [∀ r, BEq (V r)] in
theorem downcastRef_self (t : Σ r, V r) : downcastRef t.1 t = some t.2 := dif_pos rfl

variable [∀ r, EquivBEq (V r)] {t u : Σ r, V r}

theorem eqType_iff : eqType t u = true ↔ SameValue t u := by
  constructor
  · intro h
    obtain ⟨r, a⟩ := t
    obtain ⟨r', b⟩ := u
    by_cases hr : r' = r
    · subst hr
      have hb : (b == a) = true := by
        rw [eqType, downcastRef_self ⟨r', b⟩] at h
        exact h
      exact .mk (BEq.symm hb)
    · have hnone : downcastRef r (⟨r', b⟩ : Σ r, V r) = none := dif_neg hr
      rw [eqType, hnone] at h
      exact absurd h nofun
  · intro h
    cases h with
    | @mk r a b hab =>
        have hself : downcastRef r (⟨r, b⟩ : Σ r, V r) = some b := downcastRef_self ⟨r, b⟩
        rw [eqType, hself]
        exact BEq.symm hab

/-- Both equalities are the same. -/
theorem eqSaved_eq_eqType (t : Σ r, V r) : eqSaved t.1 t = eqType t := by
  funext u
  rw [eqSaved, eqType, downcastRef_self]
  cases downcastRef t.1 u with
  | none => rfl
  | some v =>
      show (t.2 == v) = (v == t.2)
      exact BEq.comm

theorem isEquiv_eqType : IsEquiv (eqType (V := V)) where
  refl t := eqType_iff.mpr (.mk (BEq.refl t.2))
  symm h := by
    cases eqType_iff.mp h with
    | mk hab => exact eqType_iff.mpr (.mk (BEq.symm hab))
  trans h h' := by
    cases eqType_iff.mp h with
    | mk hab =>
        cases eqType_iff.mp h' with
        | mk hbc => exact eqType_iff.mpr (.mk (BEq.trans hab hbc))

end Objects

/-! ## Requests to a context -/

/-- A request to save a value, or to instantiate a type. -/
structure UniquingRequest {R : Type} (V : R → Type) where
  kind : StoreKind
  object : Σ r, V r

namespace UniquingContext

variable {R : Type} [DecidableEq R] {V : R → Type} [∀ r, BEq (V r)]
  (hash : (Σ r, V r) → UInt64) (ctx : UniquingContext V)

def store : StoreKind → UniqueStore (Σ r, V r)
  | .typeStore => ctx.typeStore
  | .uniquedAnyStore => ctx.uniquedAnyStore

/-- The object that a handle denotes. -/
def object (kind : StoreKind) (key : Nat) : Option (Σ r, V r) :=
  (ctx.store kind).uniqueStore[key]?

def request (q : UniquingRequest V) : Option (Nat × UniquingContext V) :=
  match q.kind with
  | .typeStore => ctx.instantiate hash q.object
  | .uniquedAnyStore => ctx.save hash q.object

/-- Requests one after the other, with the handles they return. -/
def run : UniquingContext V → List (UniquingRequest V) →
    Option (List (UniquingRequest V × Nat) × UniquingContext V)
  | ctx, [] => some ([], ctx)
  | ctx, q :: qs => do
      let (key, ctx) ← ctx.request hash q
      let (issued, ctx) ← run ctx qs
      some ((q, key) :: issued, ctx)

/-- What holds of the handles that were issued. -/
structure UniquingExact (issued : List (UniquingRequest V × Nat)) : Prop where
  /-- Two handles are equal exactly if their values have the same type and are equal. -/
  handles : ∀ p ∈ issued, ∀ q ∈ issued, p.1.kind = q.1.kind →
    (p.2 = q.2 ↔ SameValue p.1.object q.1.object)
  /-- A handle denotes the first value that it was issued for. -/
  stored : ∀ p ∈ issued, ∃ t front back, ctx.object p.1.kind p.2 = some t ∧
    issued = front ++ (⟨p.1.kind, t⟩, p.2) :: back ∧
    ∀ q ∈ front, q.1.kind = p.1.kind → q.2 ≠ p.2
  /-- Storing what a handle denotes gives the handle, and leaves the context as it is. -/
  again : ∀ p ∈ issued, ∀ t, ctx.object p.1.kind p.2 = some t →
    ctx.request hash ⟨p.1.kind, t⟩ = some (p.2, ctx)
  /-- A value is read as what it was saved as. -/
  get : ∀ p ∈ issued, p.1.kind = .uniquedAnyStore → ∃ v, ctx.get p.1.object.1 p.2 = some v ∧
    ctx.object p.1.kind p.2 = some ⟨p.1.object.1, v⟩
  /-- The own handle of what a type handle denotes. -/
  selfHandle : ∀ p ∈ issued, p.1.kind = .typeStore → ∃ t, ctx.deref p.2 = some t ∧
    ctx.getSelfHandle hash t = some p.2
  /-- Looking a type up finds the handle of the stored equal one, or none. -/
  found : ∀ t, ∀ p ∈ issued, p.1.kind = .typeStore → SameValue t p.1.object →
    ctx.getHandle hash t = some (some p.2)
  notFound : ∀ t, (∀ p ∈ issued, p.1.kind = .typeStore → ¬ SameValue t p.1.object) →
    ctx.getHandle hash t = some none

/-- The objects of the requests to one store. -/
def ofKind (kind : StoreKind) (issued : List (UniquingRequest V × Nat)) :
    List ((Σ r, V r) × Nat) :=
  issued.filterMap (fun p => if p.1.kind = kind then some (p.1.object, p.2) else none)

/-- The stores intern what was requested. -/
structure Stores (issued : List (UniquingRequest V × Nat)) : Prop where
  represents : ∀ kind,
    Interning.Represents eqType (ctx.store kind).uniqueStore (ofKind kind issued)
  indexed : ∀ kind, (ctx.store kind).Indexed hash

variable {hash} {ctx} {ctx' : UniquingContext V} {issued : List (UniquingRequest V × Nat)}
  {q : UniquingRequest V} {p : UniquingRequest V × Nat} {kind : StoreKind} {key : Nat}
  {t : Σ r, V r}

omit [DecidableEq R] [∀ r, BEq (V r)] in
theorem mem_ofKind : (t, key) ∈ ofKind kind issued ↔ (⟨kind, t⟩, key) ∈ issued := by
  rw [ofKind, List.mem_filterMap]
  constructor
  · rintro ⟨⟨⟨kind', u⟩, key'⟩, hp, hsome⟩
    split at hsome
    · next hkind =>
        obtain ⟨rfl, rfl⟩ := Prod.mk.inj (Option.some.inj hsome)
        obtain rfl : kind' = kind := hkind
        exact hp
    · exact absurd hsome nofun
  · intro hp
    exact ⟨_, hp, if_pos rfl⟩

omit [DecidableEq R] [∀ r, BEq (V r)] in
theorem mem_ofKind_self (hp : p ∈ issued) : (p.1.object, p.2) ∈ ofKind p.1.kind issued :=
  mem_ofKind.mpr hp

omit [DecidableEq R] [∀ r, BEq (V r)] in
theorem ofKind_append (issued new : List (UniquingRequest V × Nat)) :
    ofKind kind (issued ++ new) = ofKind kind issued ++ ofKind kind new :=
  List.filterMap_append

variable [∀ r, EquivBEq (V r)] (hhash : ∀ t u, SameValue t u → hash t = hash u)

include hhash

theorem hash_eq (t u : Σ r, V r) (h : eqType t u = true) : hash t = hash u :=
  hhash t u (eqType_iff.mp h)

/-- One request interns its object, in its store. -/
theorem request_spec (h : Stores hash ctx issued) (q : UniquingRequest V) :
    ∃ ctx', ctx.request hash q =
        some ((intern eqType (ctx.store q.kind).uniqueStore q.object).1, ctx') ∧
      (ctx'.store q.kind).uniqueStore =
        (intern eqType (ctx.store q.kind).uniqueStore q.object).2 ∧
      (ctx'.store q.kind).Indexed hash ∧
      ∀ kind, kind ≠ q.kind → ctx'.store kind = ctx.store kind := by
  obtain ⟨kind, t⟩ := q
  cases kind with
  | typeStore =>
      obtain ⟨store', hstore, hobjects, hindexed⟩ := UniqueStore.getOrCreateUnique_spec
        isEquiv_eqType (h.represents .typeStore).distinct (h.indexed .typeStore) (hash_eq hhash)
        (t := t) (rfl : eqType t = eqType t)
      refine ⟨{ ctx with typeStore := store' }, ?_, hobjects, hindexed, ?_⟩
      · have hrun : ctx.typeStore.getOrCreateUnique t (hash t) eqType = _ := hstore
        show ctx.instantiate hash t = _
        rw [instantiate, hrun]
        rfl
      · intro kind hne
        cases kind with
        | typeStore => exact absurd rfl hne
        | uniquedAnyStore => rfl
  | uniquedAnyStore =>
      obtain ⟨store', hstore, hobjects, hindexed⟩ := UniqueStore.getOrCreateUnique_spec
        isEquiv_eqType (h.represents .uniquedAnyStore).distinct (h.indexed .uniquedAnyStore)
        (hash_eq hhash) (eqSaved_eq_eqType t)
      refine ⟨{ ctx with uniquedAnyStore := store' }, ?_, hobjects, hindexed, ?_⟩
      · have hrun : ctx.uniquedAnyStore.getOrCreateUnique t (hash t) (eqSaved t.1) = _ := hstore
        show ctx.save hash t = _
        rw [save, hrun]
        rfl
      · intro kind hne
        cases kind with
        | typeStore => rfl
        | uniquedAnyStore => exact absurd rfl hne

/-- What one request preserves. -/
theorem Stores.request (h : Stores hash ctx issued) (q : UniquingRequest V) :
    ∃ key ctx', ctx.request hash q = some (key, ctx') ∧
      Stores hash ctx' (issued ++ [(q, key)]) ∧
      ∀ kind i t, ctx.object kind i = some t → ctx'.object kind i = some t := by
  obtain ⟨ctx', hrun, hobjects, hindexed, hother⟩ := request_spec hhash h q
  refine ⟨_, ctx', hrun, ⟨fun kind => ?_, fun kind => ?_⟩, fun kind i t ht => ?_⟩
  · by_cases hkind : kind = q.kind
    · have hnew : ofKind kind [(q, (intern eqType (ctx.store q.kind).uniqueStore q.object).1)] =
          [(q.object, (intern eqType (ctx.store q.kind).uniqueStore q.object).1)] := by
        rw [ofKind, List.filterMap_cons, if_pos hkind.symm]
        rfl
      rw [ofKind_append, hnew, hkind, hobjects]
      exact (h.represents q.kind).step isEquiv_eqType q.object
    · have hnew : ofKind kind [(q, (intern eqType (ctx.store q.kind).uniqueStore q.object).1)] =
          [] := by
        rw [ofKind, List.filterMap_cons, if_neg (Ne.symm hkind)]
        rfl
      rw [ofKind_append, hnew, List.append_nil, hother kind hkind]
      exact h.represents kind
  · by_cases hkind : kind = q.kind
    · rw [hkind]
      exact hindexed
    · rw [hother kind hkind]
      exact h.indexed kind
  · by_cases hkind : kind = q.kind
    · subst hkind
      rw [object, hobjects]
      exact getElem?_intern_of_some ht
    · rw [object, hother kind hkind]
      exact ht

/-- What a sequence of requests preserves. -/
theorem Stores.run (h : Stores hash ctx issued) (qs : List (UniquingRequest V)) :
    ∃ new ctx', ctx.run hash qs = some (new, ctx') ∧ new.map Prod.fst = qs ∧
      Stores hash ctx' (issued ++ new) ∧
      ∀ kind i t, ctx.object kind i = some t → ctx'.object kind i = some t := by
  induction qs generalizing ctx issued with
  | nil => exact ⟨[], ctx, rfl, rfl, by rwa [List.append_nil], fun _ _ _ ht => ht⟩
  | cons q qs ih =>
      obtain ⟨key, ctx₁, hrequest, h₁, hkept₁⟩ := h.request hhash q
      obtain ⟨new, ctx₂, hrun, hnew, h₂, hkept₂⟩ := ih h₁
      refine ⟨(q, key) :: new, ctx₂, ?_, by rw [List.map_cons, hnew], ?_, ?_⟩
      · rw [UniquingContext.run, hrequest]
        simp only [Option.bind_eq_bind, Option.bind_some, hrun]
      · rw [List.append_assoc, List.singleton_append] at h₂
        exact h₂
      · exact fun kind i t ht => hkept₂ kind i t (hkept₁ kind i t ht)

/-- Looking a type up finds its representative. -/
theorem getHandle_eq (h : Stores hash ctx issued) (t : Σ r, V r) :
    ctx.getHandle hash t = some (find? eqType ctx.typeStore.uniqueStore t) :=
  UniqueStore.get_eq isEquiv_eqType (h.represents .typeStore).distinct (h.indexed .typeStore)
    (hash_eq hhash)

/-- Stores that intern are exact. -/
theorem Stores.exact (h : Stores hash ctx issued) : UniquingExact hash ctx issued where
  handles p hp q hq hkind := by
    have hp' := mem_ofKind_self hp
    rw [hkind] at hp'
    rw [(h.represents q.1.kind).position_eq_iff isEquiv_eqType hp' (mem_ofKind_self hq),
      eqType_iff]
  stored p hp := by
    obtain ⟨t, ht, _⟩ := (h.represents p.1.kind).represented _ (mem_ofKind_self hp)
    -- the first request of the kind with an equal object is the one that was stored
    obtain ⟨front, back, hissued, hfront⟩ := (h.represents p.1.kind).first _ _ ht
    rw [ofKind] at hissued
    obtain ⟨l₁, l₂, rfl, hl₁, hl₂⟩ := List.filterMap_eq_append_iff.mp hissued
    obtain ⟨l₃, x, l₄, rfl, hl₃, hx, hl₄⟩ := List.filterMap_eq_cons_iff.mp hl₂
    have hxeq : x = (⟨p.1.kind, t⟩, p.2) := by
      split at hx
      · next hkind =>
          obtain ⟨hobject, hkey⟩ := Prod.mk.inj (Option.some.inj hx)
          obtain ⟨⟨kind', u⟩, key'⟩ := x
          obtain rfl : kind' = p.1.kind := hkind
          obtain rfl : u = t := hobject
          rw [← hkey]
      · exact absurd hx nofun
    refine ⟨t, l₁ ++ l₃, l₄, ht, by rw [hxeq, List.append_assoc], fun q hq hkind => ?_⟩
    rcases List.mem_append.mp hq with hq | hq
    · refine hfront (q.1.object, q.2) ?_
      rw [← hl₁, List.mem_filterMap]
      exact ⟨q, hq, if_pos hkind⟩
    · exact absurd (hl₃ q hq) (by rw [if_pos hkind]; exact nofun)
  again p hp t ht := by
    obtain ⟨⟨kind, u⟩, key⟩ := p
    have hfind : find? eqType (ctx.store kind).uniqueStore t = some key :=
      (find?_eq_some_iff isEquiv_eqType (h.represents kind).distinct).mpr
        ⟨t, ht, isEquiv_eqType.refl t⟩
    -- types are found in a store of their own, all other objects in the one they share
    cases kind with
    | typeStore =>
        have hstore : ctx.typeStore.getOrCreateUnique t (hash t) eqType =
            some (key, ctx.typeStore) :=
          UniqueStore.getOrCreateUnique_of_find isEquiv_eqType (h.represents .typeStore).distinct
            (h.indexed .typeStore) (hash_eq hhash) rfl hfind
        show ctx.instantiate hash t = _
        rw [instantiate, hstore]
        rfl
    | uniquedAnyStore =>
        have hstore : ctx.uniquedAnyStore.getOrCreateUnique t (hash t) (eqSaved t.1) =
            some (key, ctx.uniquedAnyStore) :=
          UniqueStore.getOrCreateUnique_of_find isEquiv_eqType
            (h.represents .uniquedAnyStore).distinct (h.indexed .uniquedAnyStore) (hash_eq hhash)
            (eqSaved_eq_eqType t) hfind
        show ctx.save hash t = _
        rw [save, hstore]
        rfl
  get p hp hkind := by
    obtain ⟨t, ht, hpt⟩ := (h.represents p.1.kind).represented _ (mem_ofKind_self hp)
    obtain ⟨⟨kind, u⟩, key⟩ := p
    obtain rfl : kind = .uniquedAnyStore := hkind
    have hpt : eqType u t = true := hpt
    cases eqType_iff.mp hpt with
    | @mk r a b hab =>
        refine ⟨b, ?_, ht⟩
        have hobject : ctx.uniquedAnyStore.uniqueStore[key]? = some ⟨r, b⟩ := ht
        show ctx.get r key = some b
        rw [UniquingContext.get, hobject]
        exact downcastRef_self (⟨r, b⟩ : Σ r, V r)
  selfHandle p hp hkind := by
    obtain ⟨t, ht, _⟩ := (h.represents p.1.kind).represented _ (mem_ofKind_self hp)
    rw [hkind] at ht
    refine ⟨t, ht, ?_⟩
    have hfind : find? eqType ctx.typeStore.uniqueStore t = some p.2 :=
      (find?_eq_some_iff isEquiv_eqType (h.represents .typeStore).distinct).mpr
        ⟨t, ht, isEquiv_eqType.refl t⟩
    rw [getSelfHandle, getHandle_eq hhash h, hfind]
    rfl
  found t p hp hkind hsame := by
    have hmem := mem_ofKind_self hp
    rw [hkind] at hmem
    rw [getHandle_eq hhash h]
    exact congrArg some (((h.represents .typeStore).find?_eq_some_iff isEquiv_eqType).mpr
      ⟨p.1.object, hmem, eqType_iff.mpr hsame⟩)
  notFound t hnone := by
    rw [getHandle_eq hhash h]
    refine congrArg some (((h.represents .typeStore).find?_eq_none_iff isEquiv_eqType).mpr ?_)
    intro p hp
    by_contra htrue
    exact hnone (⟨.typeStore, p.1⟩, p.2) (mem_ofKind.mp hp) rfl
      (eqType_iff.mp (Bool.eq_true_of_not_eq_false htrue))

omit hhash [∀ r, EquivBEq (V r)] in
theorem stores_empty : Stores hash ({} : UniquingContext V) [] where
  represents kind := by
    cases kind with
    | typeStore => exact Interning.Represents.empty
    | uniquedAnyStore => exact Interning.Represents.empty
  indexed kind h i := by
    have hnone : ({} : UniquingContext V).store kind = {} := by cases kind <;> rfl
    rw [hnone]
    exact ⟨fun ⟨_, hl, _⟩ => absurd hl nofun, fun ⟨_, ht, _⟩ => absurd ht nofun⟩

/-- For every sequence of requests, however hashes collide, handles are equal exactly if their
    values are, and later requests leave the handles and what they denote alone. -/
theorem uniquing_exact (qs more : List (UniquingRequest V)) :
    ∃ issued ctx new ctx', run hash {} qs = some (issued, ctx) ∧ issued.map Prod.fst = qs ∧
      UniquingExact hash ctx issued ∧ ctx.run hash more = some (new, ctx') ∧
      new.map Prod.fst = more ∧ UniquingExact hash ctx' (issued ++ new) ∧
      ∀ kind key t, ctx.object kind key = some t → ctx'.object kind key = some t := by
  obtain ⟨issued, ctx, hrun, hissued, hstores, _⟩ := stores_empty.run hhash qs
  obtain ⟨new, ctx', hrun', hnew, hstores', hkept⟩ := hstores.run hhash more
  exact ⟨issued, ctx, new, ctx', hrun, hissued, hstores.exact hhash, hrun', hnew,
    hstores'.exact hhash, hkept⟩

end UniquingContext

namespace UniquingContext

/-- Requests of two types with one value, in both stores, whose hashes all collide. -/
def collidingRequests : List (UniquingRequest (fun _ : Bool => Nat)) :=
  [⟨.typeStore, ⟨true, 0⟩⟩, ⟨.typeStore, ⟨false, 0⟩⟩, ⟨.uniquedAnyStore, ⟨true, 0⟩⟩,
    ⟨.typeStore, ⟨true, 0⟩⟩]

theorem uniquing_exact_collisions :
    ∃ issued ctx new ctx', run (fun _ => 0) {} collidingRequests = some (issued, ctx) ∧
      issued.map Prod.fst = collidingRequests ∧ UniquingExact (fun _ => 0) ctx issued ∧
      ctx.run (fun _ => 0) collidingRequests = some (new, ctx') ∧
      new.map Prod.fst = collidingRequests ∧ UniquingExact (fun _ => 0) ctx' (issued ++ new) ∧
      ∀ kind key t, ctx.object kind key = some t → ctx'.object kind key = some t :=
  uniquing_exact (fun _ _ _ => rfl) collidingRequests collidingRequests

end UniquingContext

end Pliron
