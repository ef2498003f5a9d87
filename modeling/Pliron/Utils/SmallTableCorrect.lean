/-
  Pliron.Utils.SmallTableCorrect

  Small maps are one insertion-ordered map.

  Whatever the inline capacity is, a sequence of operations gives the results and the iteration
  order of one list of pairs.  Both representations scan or index the same list, and moving the
  pairs to the hash table keeps their order because the keys are distinct.
-/

import Pliron.Utils.SmallTable

namespace Pliron

open Pliron.Lib OrderedTable

variable {K V Q : Type}

/-! ## Operations on a map -/

/-- A use of an occupied entry. -/
inductive OccupiedUse (V : Type) where
  | key
  | get
  | getMut (f : V → V)
  | insert (value : V)

/-- How an occupied entry is consumed. -/
inductive OccupiedEnd (V : Type) where
  | drop
  | intoMut (f : V → V)
  | remove

/-- How a vacant entry is consumed. -/
inductive VacantEnd (V : Type) where
  | drop
  | insert (value : V) (f : V → V)

/-- What is done with an entry. -/
inductive EntryUse (V : Type) where
  | cases (uses : List (OccupiedUse V)) (occupied : OccupiedEnd V) (vacant : VacantEnd V)
  | orInsert (default : V) (f : V → V)
  | orInsertWith (default : Unit → V) (f : V → V)

/-- An operation on a map; what is written through a mutable reference is a function of the
    value. -/
inductive MapOp (K V Q : Type) where
  | insert (key : K) (value : V)
  | get (key : Q)
  | getMut (key : Q) (f : V → V)
  | getKeyValue (key : Q)
  | containsKey (key : Q)
  | remove (key : Q)
  | entry (key : K) (modifiers : List (V → V)) (use : EntryUse V)
  | iter
  | iterMut (f : K → V → V)
  | retain (f : K → V → Bool)
  | clear
  | len
  | isEmpty
  | extend (pairs : List (K × V))
  | fromIter (pairs : List (K × V))

/-- What an operation returns. -/
inductive MapResult (K V : Type) where
  | unit
  | value (value : Option V)
  | keyValue (pair : Option (K × V))
  | bool (b : Bool)
  | number (n : Nat)
  | entries (pairs : List (K × V))
  /-- The key of an entry, and what its uses return. -/
  | uses (seen : List (K ⊕ V))

namespace SmallMap

variable {L : IndexMap K V Q} [BEq K] (N : Nat) (equivalent : Q → K → Bool)

/-- One use of an occupied entry. -/
def useOccupied (e : OccupiedEntry L) : OccupiedUse V → Option ((K ⊕ V) × OccupiedEntry L)
  | .key => e.key.map (fun k => (.inl k, e))
  | .get => e.get.map (fun v => (.inr v, e))
  | .getMut f => e.getMut.map (fun r => (.inr r.value, r.write (f r.value)))
  | .insert value => (e.insert value).map (fun p => (.inr p.1, p.2))

def useAll : OccupiedEntry L → List (OccupiedUse V) → Option (List (K ⊕ V) × OccupiedEntry L)
  | e, [] => some ([], e)
  | e, use :: uses => do
      let (out, e) ← useOccupied e use
      let (outs, e) ← useAll e uses
      some (out :: outs, e)

def endOccupied (e : OccupiedEntry L) : OccupiedEnd V → Option (List (K ⊕ V) × SmallMap L)
  | .drop => some ([], e.drop)
  | .intoMut f => e.intoMut.map (fun r => ([.inr r.value], r.write (f r.value)))
  | .remove => e.remove.map (fun p => ([.inr p.1], p.2))

def endVacant (e : VacantEntry L) : VacantEnd V → Option (List (K ⊕ V) × SmallMap L)
  | .drop => some ([], e.drop)
  | .insert value f => (e.insert N value).map (fun r => ([.inr r.value], r.write (f r.value)))

/-- Use an entry. -/
def useEntry (e : SmallMapEntry L) : EntryUse V → Option (List (K ⊕ V) × SmallMap L)
  | .cases uses occupied vacant =>
      match e with
      | .occupied e => do
          let (outs, e) ← useAll e uses
          let (last, m) ← endOccupied e occupied
          some (outs ++ last, m)
      | .vacant e => endVacant N e vacant
  | .orInsert default f =>
      (e.orInsert N default).map (fun r => ([.inr r.value], r.write (f r.value)))
  | .orInsertWith default f =>
      (e.orInsertWith N default).map (fun r => ([.inr r.value], r.write (f r.value)))

/-- One operation. -/
def step (m : SmallMap L) : MapOp K V Q → Option (MapResult K V × SmallMap L)
  | .insert key value => (m.insert N key value).map (fun p => (.value p.1, p.2))
  | .get key => some (.value (m.get equivalent key), m)
  | .getMut key f => do
      match ← m.getMut equivalent key with
      | some r => some (.value (some r.value), r.write (f r.value))
      | none => some (.value none, m)
  | .getKeyValue key => some (.keyValue (m.getKeyValue equivalent key), m)
  | .containsKey key => some (.bool (m.containsKey equivalent key), m)
  | .remove key => (m.remove equivalent key).map (fun p => (.value p.1, p.2))
  | .entry key modifiers use => do
      let e ← modifiers.foldlM (fun e f => e.andModify f) (m.entry key)
      let k ← e.key
      let (outs, m) ← useEntry N e use
      some (.uses (.inl k :: outs), m)
  | .iter => some (.entries m.iter, m)
  | .iterMut f => some (.unit, m.iterMut f)
  | .retain f => some (.unit, m.retain f)
  | .clear => some (.unit, m.clear)
  | .len => some (.number m.len, m)
  | .isEmpty => some (.bool m.isEmpty, m)
  | .extend pairs => (m.extend N pairs).map (fun m => (.unit, m))
  | .fromIter pairs => (fromIter N pairs).map (fun m => (.unit, m))

/-- Operations one after the other. -/
def run : SmallMap L → List (MapOp K V Q) → Option (List (MapResult K V) × SmallMap L)
  | m, [] => some ([], m)
  | m, op :: ops => do
      let (result, m) ← m.step N equivalent op
      let (results, m) ← run m ops
      some (result :: results, m)

end SmallMap

/-! ## The insertion-ordered map, a list of pairs -/

namespace OrderedMap

variable [BEq K] (equivalent : Q → K → Bool)

/-- A use of an occupied entry only depends on its pair, and changes its value. -/
def useOccupied (e : K × V) : OccupiedUse V → (K ⊕ V) × V
  | .key => (.inl e.1, e.2)
  | .get => (.inr e.2, e.2)
  | .getMut f => (.inr e.2, f e.2)
  | .insert value => (.inr e.2, value)

def useAll (k : K) : V → List (OccupiedUse V) → List (K ⊕ V) × V
  | v, [] => ([], v)
  | v, use :: uses =>
      let (out, v) := useOccupied (k, v) use
      let (outs, v) := useAll k v uses
      (out :: outs, v)

/-- Consume the entry at index `i` with the value `v`. -/
def endOccupied (l : List (K × V)) (i : Nat) (v : V) :
    OccupiedEnd V → List (K ⊕ V) × List (K × V)
  | .drop => ([], l)
  | .intoMut f => ([.inr v], setValue l i (f v))
  | .remove => ([.inr v], ((swapRemove l i).map Prod.snd).getD l)

/-- Use the entry of a present key, at index `i`. -/
def useOccupiedEntry (l : List (K × V)) (i : Nat) (e : K × V) :
    EntryUse V → List (K ⊕ V) × List (K × V)
  | .cases uses occupied _ =>
      let (outs, v) := useAll e.1 e.2 uses
      let (last, l) := endOccupied (setValue l i v) i v occupied
      (outs ++ last, l)
  | .orInsert _ f => ([.inr e.2], setValue l i (f e.2))
  | .orInsertWith _ f => ([.inr e.2], setValue l i (f e.2))

/-- Use the entry of an absent key. -/
def useVacantEntry (l : List (K × V)) (key : K) : EntryUse V → List (K ⊕ V) × List (K × V)
  | .cases _ _ .drop => ([], l)
  | .cases _ _ (.insert value f) => ([.inr value], l ++ [(key, f value)])
  | .orInsert default f => ([.inr default], l ++ [(key, f default)])
  | .orInsertWith default f => ([.inr (default ())], l ++ [(key, f (default ()))])

/-- The entry that passes a test, with its index. -/
def lookup (is : K → Bool) (l : List (K × V)) : Option (Nat × (K × V)) := do
  let i ← l.findIdx? (fun e => is e.1)
  let e ← l[i]?
  some (i, e)

/-- One operation. -/
def step (l : List (K × V)) : MapOp K V Q → MapResult K V × List (K × V)
  | .insert key value =>
      let (old, l) := OrderedTable.insert l key value
      (.value old, l)
  | .get key => (.value ((lookup (equivalent key) l).map (fun p => p.2.2)), l)
  | .getMut key f =>
      match lookup (equivalent key) l with
      | some (i, e) => (.value (some e.2), setValue l i (f e.2))
      | none => (.value none, l)
  | .getKeyValue key => (.keyValue ((lookup (equivalent key) l).map Prod.snd), l)
  | .containsKey key => (.bool (lookup (equivalent key) l).isSome, l)
  | .remove key =>
      let (old, l) := OrderedTable.remove (fun e => equivalent key e.1) l
      (.value (old.map Prod.snd), l)
  | .entry key modifiers use =>
      match lookup (· == key) l with
      | some (i, e) =>
          let v := modifiers.foldl (fun v f => f v) e.2
          let (outs, l) := useOccupiedEntry (setValue l i v) i (e.1, v) use
          (.uses (.inl e.1 :: outs), l)
      | none =>
          let (outs, l) := useVacantEntry l key use
          (.uses (.inl key :: outs), l)
  | .iter => (.entries l, l)
  | .iterMut f => (.unit, l.map (fun e => (e.1, f e.1 e.2)))
  | .retain f => (.unit, l.filter (fun e => f e.1 e.2))
  | .clear => (.unit, [])
  | .len => (.number l.length, l)
  | .isEmpty => (.bool l.isEmpty, l)
  | .extend pairs => (.unit, pairs.foldl (fun l e => (OrderedTable.insert l e.1 e.2).2) l)
  | .fromIter pairs => (.unit, pairs.foldl (fun l e => (OrderedTable.insert l e.1 e.2).2) [])

/-- Operations one after the other. -/
def run : List (K × V) → List (MapOp K V Q) → List (MapResult K V) × List (K × V)
  | l, [] => ([], l)
  | l, op :: ops =>
      let (result, l) := step equivalent l op
      let (results, l) := run l ops
      (result :: results, l)

end OrderedMap

/-! ## Lists of pairs -/

section Lists

variable {l : List (K × V)} {is : K → Bool} {i : Nat} {e : K × V}

theorem lookup_of_findIdx? (is : K → Bool) (h : l.findIdx? (fun e => is e.1) = some i) :
    ∃ e, l[i]? = some e ∧ is e.1 = true ∧ OrderedMap.lookup is l = some (i, e) := by
  obtain ⟨hi, he, _⟩ := List.findIdx?_eq_some_iff_getElem.mp h
  refine ⟨l[i], List.getElem?_eq_getElem hi, he, ?_⟩
  rw [OrderedMap.lookup, h, Option.bind_eq_bind, Option.bind_some, List.getElem?_eq_getElem hi]
  rfl

theorem lookup_of_findIdx?_none (is : K → Bool) (h : l.findIdx? (fun e => is e.1) = none) :
    OrderedMap.lookup is l = none := by
  rw [OrderedMap.lookup, h]
  rfl

/-- The first pair that passes a test is the one at the first index. -/
theorem find?_eq_lookup : l.find? (fun e => is e.1) = (OrderedMap.lookup is l).map Prod.snd := by
  cases h : l.findIdx? (fun e => is e.1) with
  | none =>
      rw [lookup_of_findIdx?_none is h]
      refine List.find?_eq_none.mpr (fun e he => ?_)
      have hfalse := List.findIdx?_eq_none_iff.mp h e he
      rw [hfalse]
      exact Bool.false_ne_true
  | some i =>
      obtain ⟨e, he, _, hlookup⟩ := lookup_of_findIdx? is h
      rw [hlookup]
      obtain ⟨hi, htrue, hfirst⟩ := List.findIdx?_eq_some_iff_getElem.mp h
      obtain ⟨_, rfl⟩ := List.getElem?_eq_some_iff.mp he
      exact List.find?_eq_some_iff_getElem.mpr ⟨htrue, i, hi, rfl, fun j hj => by
        rw [Bool.not_eq_true']
        exact Bool.eq_false_of_not_eq_true (hfirst j hj)⟩

theorem getElem?_setValue_self (he : l[i]? = some e) (v : V) :
    (setValue l i v)[i]? = some (e.1, v) := by
  rw [setValue, List.getElem?_modify_eq, he]
  rfl

theorem setValue_setValue (l : List (K × V)) (i : Nat) (v w : V) :
    setValue (setValue l i v) i w = setValue l i w := by
  rw [setValue, setValue, List.modify_modify_eq]
  rfl

theorem setValue_self (he : l[i]? = some e) : setValue l i e.2 = l := by
  apply List.ext_getElem?
  intro j
  rw [setValue, List.getElem?_modify]
  by_cases hj : i = j
  · subst hj
    simp [he]
  · simp [hj]

variable [BEq K]

/-- Two pairs have equal keys. -/
def sameKey (a b : K × V) : Bool := a.1 == b.1

theorem distinct_setValue (h : Distinct sameKey l) (i : Nat) (v : V) :
    Distinct sameKey (setValue l i v) := by
  have hkeys : (setValue l i v).map Prod.fst = l.map Prod.fst := by
    apply List.ext_getElem?
    intro j
    rw [List.getElem?_map, List.getElem?_map, setValue, List.getElem?_modify]
    by_cases hj : i = j
    · subst hj
      cases l[i]? <;> simp
    · simp [hj]
  have hpair : ∀ m : List (K × V), Distinct sameKey m ↔
      (m.map Prod.fst).Pairwise (fun a b => (a == b) = false) := by
    intro m
    rw [List.pairwise_map]
    rfl
  rw [hpair, hkeys]
  exact (hpair l).mp h

theorem distinct_insert [EquivBEq K] (h : Distinct sameKey l) (key : K) (value : V) :
    Distinct sameKey (OrderedTable.insert l key value).2 := by
  rw [OrderedTable.insert]
  cases hfind : l.findIdx? (fun e => e.1 == key) with
  | some i => exact distinct_setValue h i value
  | none =>
      exact distinct_append h (fun a ha => List.findIdx?_eq_none_iff.mp hfind a ha)

theorem sameKey_comm [EquivBEq K] (a b : K × V) : sameKey a b = sameKey b a := BEq.comm

end Lists

/-! ## Each operation -/

/-- The index of an occupied entry. -/
def OccupiedEntry.index {L : IndexMap K V Q} : OccupiedEntry L → Nat
  | inline _ index => index
  | spilled e => L.occupiedIndex e

/-- An entry at an index of the pairs `l`. -/
structure OccupiedEntry.IsAt {L : IndexMap K V Q} (o : OccupiedEntry L) (l : List (K × V))
    (i : Nat) : Prop where
  iter : o.drop.iter = l
  index : o.index = i

/-- An entry of a key that is not in the pairs `l`. -/
structure VacantEntry.IsFor {L : IndexMap K V Q} (w : VacantEntry L) (l : List (K × V))
    (k : K) : Prop where
  iter : w.drop.iter = l
  key : w.key = k
  inline : ∀ repr k, w = .inline repr k → ∃ v, repr = .inline v

section Refinement

variable {L : IndexMap K V Q} [BEq K] {equivalent : Q → K → Bool} {l : List (K × V)}
  {m : SmallMap L} {o : OccupiedEntry L} {w : VacantEntry L} {i : Nat} {k : K} {v : V}
  (N : Nat) (hlib : L.Documented equivalent)

include hlib

omit [BEq K] hlib in
theorem setValue_concat (l : List (K × V)) (k : K) (v x : V) :
    setValue (l ++ [(k, v)]) l.length x = l ++ [(k, x)] := by
  rw [setValue, List.modify_eq_set_getElem?, List.getElem?_concat_length]
  exact List.set_append_right _ _ (Nat.le_refl _) |>.trans (by rw [Nat.sub_self]; rfl)

omit hlib in
theorem insert_of_absent (h : l.findIdx? (fun e => e.1 == k) = none) (v : V) :
    OrderedTable.insert l k v = (none, l ++ [(k, v)]) := by
  rw [OrderedTable.insert, h]

theorem iter_insert_of_absent (map : L.Map) (h : (L.iter map).findIdx? (fun e => e.1 == k) = none)
    (v : V) : (L.insert map k v).1 = none ∧
      L.iter (L.insert map k v).2 = L.iter map ++ [(k, v)] := by
  obtain ⟨hold, hiter⟩ := hlib.insert map k v
  rw [insert_of_absent h] at hold hiter
  exact ⟨hold, hiter⟩

/-- Moving the pairs to the hash table keeps their order. -/
theorem iter_promote [EquivBEq K] (h : Distinct sameKey l) :
    L.iter (SmallMap.promote (L := L) l) = l := by
  have hfold : ∀ (rest : List (K × V)) (map : L.Map), Distinct sameKey (L.iter map ++ rest) →
      L.iter (rest.foldl (fun map e => (L.insert map e.1 e.2).2) map) = L.iter map ++ rest := by
    intro rest
    induction rest with
    | nil => exact fun map _ => (List.append_nil _).symm
    | cons e rest ih =>
        intro map hmap
        have habsent : (L.iter map).findIdx? (fun a => a.1 == e.1) = none :=
          List.findIdx?_eq_none_iff.mpr
            (fun a ha => (List.pairwise_append.mp hmap).2.2 a ha e List.mem_cons_self)
        obtain ⟨_, hiter⟩ := iter_insert_of_absent hlib map habsent e.2
        have hcons : L.iter map ++ e :: rest = L.iter (L.insert map e.1 e.2).2 ++ rest := by
          rw [hiter, List.append_assoc]
          rfl
        rw [List.foldl_cons, hcons]
        exact ih _ (hcons ▸ hmap)
  have hempty := hlib.iter_withCapacityAndHasher (l.length + 1)
  rw [SmallMap.promote, hfold l _ (by rwa [hempty]), hempty, List.nil_append]

theorem insert_refines [EquivBEq K] (hl : m.iter = l) (h : Distinct sameKey l) (k : K) (v : V) :
    ∃ m', m.insert N k v = some ((OrderedTable.insert l k v).1, m') ∧
      m'.iter = (OrderedTable.insert l k v).2 := by
  cases m with
  | inline l' =>
      obtain rfl : l' = l := hl
      rw [SmallMap.insert]
      cases hfind : l'.findIdx? (fun e => e.1 == k) with
      | some i =>
          obtain ⟨e, he, _⟩ := lookup_of_findIdx? (· == k) hfind
          rw [OrderedTable.insert, hfind]
          simp only [he, Option.bind_eq_bind, Option.bind_some]
          exact ⟨_, rfl, rfl⟩
      | none =>
          rw [insert_of_absent hfind]
          by_cases hN : l'.length < N
          · simp only [if_pos hN]
            exact ⟨_, rfl, rfl⟩
          · have hpromote := iter_promote hlib h
            obtain ⟨hinsert, hiter⟩ := iter_insert_of_absent hlib (SmallMap.promote l')
              (hpromote.symm ▸ hfind) v
            simp only [if_neg hN]
            exact ⟨.spilled (L.insert (SmallMap.promote l') k v).2,
              congrArg some (Prod.ext hinsert rfl), hiter.trans (by rw [hpromote])⟩
  | spilled map =>
      obtain ⟨hold, hiter⟩ := hlib.insert map k v
      obtain rfl : L.iter map = l := hl
      exact ⟨.spilled (L.insert map k v).2, by rw [← hold]; rfl, hiter⟩

theorem extend_refines [EquivBEq K] (hl : m.iter = l) (h : Distinct sameKey l)
    (pairs : List (K × V)) : ∃ m', m.extend N pairs = some m' ∧
      m'.iter = pairs.foldl (fun l e => (OrderedTable.insert l e.1 e.2).2) l := by
  induction pairs generalizing m l with
  | nil => exact ⟨m, rfl, hl⟩
  | cons e pairs ih =>
      obtain ⟨m₁, hinsert, hiter⟩ := insert_refines N hlib hl h e.1 e.2
      obtain ⟨m', hrest, hiter'⟩ := ih hiter (distinct_insert h e.1 e.2)
      refine ⟨m', ?_, hiter'⟩
      rw [SmallMap.extend, List.foldlM_cons, hinsert]
      exact hrest

theorem getKeyValue_refines (hl : m.iter = l) (q : Q) :
    m.getKeyValue equivalent q = (OrderedMap.lookup (equivalent q) l).map Prod.snd := by
  cases m with
  | inline l' =>
      obtain rfl : l' = l := hl
      exact find?_eq_lookup
  | spilled map =>
      obtain rfl : L.iter map = l := hl
      exact (hlib.getKeyValue map q).trans find?_eq_lookup

theorem get_refines (hl : m.iter = l) (q : Q) :
    m.get equivalent q = (OrderedMap.lookup (equivalent q) l).map (fun p => p.2.2) := by
  have hfind : (l.find? (fun e => equivalent q e.1)).map Prod.snd =
      (OrderedMap.lookup (equivalent q) l).map (fun p => p.2.2) := by
    rw [find?_eq_lookup, Option.map_map]
    rfl
  cases m with
  | inline l' =>
      obtain rfl : l' = l := hl
      exact hfind
  | spilled map =>
      obtain rfl : L.iter map = l := hl
      exact (hlib.get map q).trans hfind

theorem len_refines (hl : m.iter = l) : m.len = l.length := by
  cases m with
  | inline l' => exact congrArg List.length hl
  | spilled map => exact (hlib.len map).trans (congrArg List.length hl)

/-- A reference to the value of a present key. -/
theorem getMut_refines (hl : m.iter = l) (q : Q) :
    match OrderedMap.lookup (equivalent q) l with
    | some (i, e) => ∃ r, m.getMut equivalent q = some (some r) ∧ r.value = e.2 ∧
        ∀ v, (r.write v).iter = setValue l i v
    | none => m.getMut equivalent q = some none := by
  cases hfind : l.findIdx? (fun e => equivalent q e.1) with
  | none =>
      rw [lookup_of_findIdx?_none (equivalent q) hfind]
      cases m with
      | inline l' =>
          obtain rfl : l' = l := hl
          simp only [SmallMap.getMut, hfind]
      | spilled map =>
          obtain rfl : L.iter map = l := hl
          simp only [SmallMap.getMut, hlib.getMut_none map q hfind, Option.map_none]
  | some i =>
      obtain ⟨e, he, _, hlookup⟩ := lookup_of_findIdx? (equivalent q) hfind
      rw [hlookup]
      cases m with
      | inline l' =>
          obtain rfl : l' = l := hl
          refine ⟨⟨e.2, fun v => .inline (setValue l' i v)⟩, ?_, rfl, fun v => rfl⟩
          simp only [SmallMap.getMut, hfind, he, Option.bind_eq_bind, Option.bind_some]
      | spilled map =>
          obtain rfl : L.iter map = l := hl
          obtain ⟨r, hr, hat⟩ := hlib.getMut_some map q i hfind
          refine ⟨r.map .spilled, by rw [SmallMap.getMut, hr]; rfl, ?_, hat.write⟩
          have hvalue := hat.value
          rw [he] at hvalue
          exact (Option.some.inj hvalue).symm

theorem remove_refines (hl : m.iter = l) (q : Q) :
    ∃ m', m.remove equivalent q = some
        ((OrderedTable.remove (fun e => equivalent q e.1) l).1.map Prod.snd, m') ∧
      m'.iter = (OrderedTable.remove (fun e => equivalent q e.1) l).2 := by
  cases m with
  | inline l' =>
      obtain rfl : l' = l := hl
      rw [SmallMap.remove, OrderedTable.remove]
      cases hfind : l'.findIdx? (fun e => equivalent q e.1) with
      | none => exact ⟨_, rfl, rfl⟩
      | some i =>
          obtain ⟨hi, _⟩ := List.findIdx?_eq_some_iff_getElem.mp hfind
          obtain ⟨l'', hswap⟩ := swapRemove_ne_none hi
          simp only [hswap, Option.bind_eq_bind, Option.bind_some]
          exact ⟨_, rfl, rfl⟩
  | spilled map =>
      obtain ⟨hold, hiter⟩ := hlib.swapRemove map q
      obtain rfl : L.iter map = l := hl
      exact ⟨.spilled (L.swapRemove map q).2, by rw [← hold]; rfl, hiter⟩

/-- Using an occupied entry only depends on its pair. -/
theorem useOccupied_refines (ho : o.IsAt l i) (hkv : l[i]? = some (k, v)) (use : OccupiedUse V) :
    ∃ o', SmallMap.useOccupied o use = some ((OrderedMap.useOccupied (k, v) use).1, o') ∧
      o'.IsAt (setValue l i (OrderedMap.useOccupied (k, v) use).2) i := by
  have hself : setValue l i v = l := setValue_self hkv
  obtain ⟨hiter, hindex⟩ := ho
  cases o with
  | inline vec index =>
      obtain rfl : vec = l := hiter
      obtain rfl : index = i := hindex
      cases use with
      | key =>
          refine ⟨.inline vec index, ?_, hself.symm, rfl⟩
          rw [SmallMap.useOccupied, OccupiedEntry.key, hkv]
          rfl
      | get =>
          refine ⟨.inline vec index, ?_, hself.symm, rfl⟩
          rw [SmallMap.useOccupied, OccupiedEntry.get, hkv]
          rfl
      | getMut f =>
          refine ⟨.inline (setValue vec index (f v)) index, ?_, rfl, rfl⟩
          rw [SmallMap.useOccupied, OccupiedEntry.getMut, hkv]
          rfl
      | insert value =>
          refine ⟨.inline (setValue vec index value) index, ?_, rfl, rfl⟩
          rw [SmallMap.useOccupied, OccupiedEntry.insert, OccupiedEntry.getMut, hkv]
          rfl
  | spilled e =>
      have hread : (L.iter (L.occupiedDrop e))[L.occupiedIndex e]? = some (k, v) := by
        have hdrop : L.iter (L.occupiedDrop e) = l := hiter
        have hat : L.occupiedIndex e = i := hindex
        rw [hdrop, hat]
        exact hkv
      obtain ⟨hkey, hget, hmut⟩ := hlib.occupiedRead e k v hread
      have hwrite : ∀ x, (OccupiedEntry.spilled ((L.occupiedGetMut e).write x)).IsAt
          (setValue l i x) i := by
        intro x
        obtain ⟨hidx, hset⟩ := hlib.occupiedGetMut e x
        have hset : ((OccupiedEntry.spilled ((L.occupiedGetMut e).write x)).drop).iter =
          setValue (L.iter (L.occupiedDrop e)) (L.occupiedIndex e) x := hset
        have hdrop : L.iter (L.occupiedDrop e) = l := hiter
        have hat : L.occupiedIndex e = i := hindex
        exact ⟨by rw [hset, hdrop, hat], hidx.trans hat⟩
      cases use with
      | key =>
          refine ⟨.spilled e, ?_, hiter.trans hself.symm, hindex⟩
          rw [SmallMap.useOccupied, OccupiedEntry.key, hkey]
          rfl
      | get =>
          refine ⟨.spilled e, ?_, hiter.trans hself.symm, hindex⟩
          rw [SmallMap.useOccupied, OccupiedEntry.get, hget]
          rfl
      | getMut f =>
          refine ⟨.spilled ((L.occupiedGetMut e).write (f v)), ?_, hwrite (f v)⟩
          rw [← hmut]
          rfl
      | insert value =>
          refine ⟨.spilled ((L.occupiedGetMut e).write value), ?_, hwrite value⟩
          rw [← hmut]
          rfl

theorem useAll_refines (ho : o.IsAt l i) (hkv : l[i]? = some (k, v))
    (uses : List (OccupiedUse V)) :
    ∃ o', SmallMap.useAll o uses = some ((OrderedMap.useAll k v uses).1, o') ∧
      o'.IsAt (setValue l i (OrderedMap.useAll k v uses).2) i := by
  induction uses generalizing o l v with
  | nil => exact ⟨o, rfl, by rw [OrderedMap.useAll, setValue_self hkv]; exact ho⟩
  | cons use uses ih =>
      obtain ⟨o₁, huse, ho₁⟩ := useOccupied_refines hlib ho hkv use
      obtain ⟨o', hall, ho'⟩ := ih ho₁ (getElem?_setValue_self hkv _)
      rw [setValue_setValue] at ho'
      refine ⟨o', ?_, ho'⟩
      rw [SmallMap.useAll, huse]
      simp only [Option.bind_eq_bind, Option.bind_some, hall]
      rfl

/-- Modifying an occupied entry before it is used. -/
theorem modifiers_occupied (ho : o.IsAt l i) (hkv : l[i]? = some (k, v))
    (modifiers : List (V → V)) :
    ∃ o', modifiers.foldlM (fun e f => SmallMapEntry.andModify f e) (.occupied o) =
        some (.occupied o') ∧
      o'.IsAt (setValue l i (modifiers.foldl (fun v f => f v) v)) i := by
  induction modifiers generalizing o l v with
  | nil => exact ⟨o, rfl, by rw [List.foldl_nil, setValue_self hkv]; exact ho⟩
  | cons f modifiers ih =>
      obtain ⟨o₁, huse, ho₁⟩ := useOccupied_refines hlib ho hkv (.getMut f)
      obtain ⟨o', hall, ho'⟩ := ih ho₁ (getElem?_setValue_self hkv _)
      rw [setValue_setValue] at ho'
      refine ⟨o', ?_, ho'⟩
      obtain ⟨r, hr, hout⟩ := Option.map_eq_some_iff.mp huse
      have hmodify : SmallMapEntry.andModify f (.occupied o) = some (.occupied o₁) := by
        rw [SmallMapEntry.andModify, hr, Option.map_some, ← (Prod.mk.inj hout).2]
      rw [List.foldlM_cons, hmodify]
      exact hall

omit [BEq K] hlib in
theorem modifiers_vacant (w : VacantEntry L) (modifiers : List (V → V)) :
    modifiers.foldlM (fun e f => SmallMapEntry.andModify f e) (.vacant w) =
      some (.vacant w) := by
  induction modifiers with
  | nil => rfl
  | cons f modifiers ih =>
      rw [List.foldlM_cons]
      exact ih

/-- A reference to the value in the map, of an occupied entry. -/
theorem intoMut_refines (ho : o.IsAt l i) (hkv : l[i]? = some (k, v)) :
    ∃ r, o.intoMut = some r ∧ r.value = v ∧ ∀ x, (r.write x).iter = setValue l i x := by
  obtain ⟨hiter, hindex⟩ := ho
  cases o with
  | inline vec index =>
      obtain rfl : vec = l := hiter
      obtain rfl : index = i := hindex
      exact ⟨⟨v, fun x => .inline (setValue vec index x)⟩, by rw [OccupiedEntry.intoMut, hkv]; rfl,
        rfl, fun x => rfl⟩
  | spilled e =>
      obtain rfl : L.iter (L.occupiedDrop e) = l := hiter
      obtain rfl : L.occupiedIndex e = i := hindex
      obtain ⟨hi, _⟩ := List.getElem?_eq_some_iff.mp hkv
      have hat := hlib.occupiedIntoMut e hi
      have hvalue := hat.value
      rw [hkv] at hvalue
      exact ⟨(L.occupiedIntoMut e).map .spilled, rfl, (Option.some.inj hvalue).symm, hat.write⟩

theorem endOccupied_refines (ho : o.IsAt l i) (hkv : l[i]? = some (k, v)) (last : OccupiedEnd V) :
    ∃ m', SmallMap.endOccupied o last = some ((OrderedMap.endOccupied l i v last).1, m') ∧
      m'.iter = (OrderedMap.endOccupied l i v last).2 := by
  cases last with
  | drop => exact ⟨o.drop, rfl, ho.iter⟩
  | intoMut f =>
      obtain ⟨r, hr, hvalue, hwrite⟩ := intoMut_refines hlib ho hkv
      refine ⟨r.write (f r.value), ?_, by rw [hwrite, hvalue]; rfl⟩
      rw [SmallMap.endOccupied, hr, ← hvalue]
      rfl
  | remove =>
      obtain ⟨hi, hkv'⟩ := List.getElem?_eq_some_iff.mp hkv
      obtain ⟨l', hswap⟩ := swapRemove_ne_none hi
      rw [hkv'] at hswap
      obtain ⟨hiter, hindex⟩ := ho
      cases o with
      | inline vec index =>
          obtain rfl : vec = l := hiter
          obtain rfl : index = i := hindex
          refine ⟨.inline l', ?_, by rw [OrderedMap.endOccupied, hswap]; rfl⟩
          rw [SmallMap.endOccupied, OccupiedEntry.remove, hswap]
          rfl
      | spilled e =>
          obtain rfl : L.iter (L.occupiedDrop e) = l := hiter
          obtain rfl : L.occupiedIndex e = i := hindex
          obtain ⟨hold, hiter'⟩ := hlib.occupiedSwapRemove e _ _ hswap
          refine ⟨.spilled (L.occupiedSwapRemove e).2, ?_, by
            rw [OrderedMap.endOccupied, hswap]
            exact hiter'⟩
          rw [SmallMap.endOccupied, OccupiedEntry.remove, hold]
          rfl

/-- Inserting through a vacant entry, across the switch too. -/
theorem vacantInsert_refines [EquivBEq K] (hw : w.IsFor l k) (h : Distinct sameKey l)
    (habsent : l.findIdx? (fun e => e.1 == k) = none) (v : V) :
    ∃ r, w.insert N v = some r ∧ r.value = v ∧ ∀ x, (r.write x).iter = l ++ [(k, x)] := by
  obtain ⟨hiter, hkey, hinline⟩ := hw
  cases w with
  | inline repr key =>
      obtain ⟨vec, rfl⟩ := hinline repr key rfl
      obtain rfl : vec = l := hiter
      obtain rfl : key = k := hkey
      rw [VacantEntry.insert]
      by_cases hN : vec.length < N
      · rw [if_pos hN]
        exact ⟨_, rfl, rfl, fun x => rfl⟩
      · rw [if_neg hN]
        have hpromote := iter_promote hlib h
        obtain ⟨_, hmap⟩ := iter_insert_of_absent hlib (SmallMap.promote vec)
          (hpromote.symm ▸ habsent) v
        rw [hpromote] at hmap
        have hlen : L.len (L.insert (SmallMap.promote vec) key v).2 = vec.length + 1 := by
          rw [hlib.len, hmap, List.length_append, List.length_singleton]
        obtain ⟨r, hr, hat⟩ := hlib.getIndexMut (L.insert (SmallMap.promote vec) key v).2
          vec.length (by omega)
        have hpos : 0 < L.len (L.insert (SmallMap.promote vec) key v).2 := by omega
        refine ⟨r.map .spilled, ?_, ?_, fun x => ?_⟩
        · simp only [guard, hlen, Nat.add_sub_cancel, hr]
          rfl
        · have hvalue := hat.value
          rw [hmap, List.getElem?_concat_length] at hvalue
          exact (Option.some.inj hvalue).symm
        · have hwrite := hat.write x
          rw [hmap, setValue_concat] at hwrite
          exact hwrite
  | spilled e =>
      obtain rfl : L.iter (L.vacantDrop e) = l := hiter
      obtain rfl : L.vacantKey e = k := hkey
      have hat := hlib.vacantInsert e v
      refine ⟨(L.vacantInsert e v).map .spilled, rfl, ?_, fun x => ?_⟩
      · have hvalue := hat.value
        rw [List.getElem?_concat_length] at hvalue
        exact (Option.some.inj hvalue).symm
      · exact (hat.write x).trans (setValue_concat _ _ _ _)

/-- Using an entry. -/
theorem entry_refines [EquivBEq K] (hl : m.iter = l) (h : Distinct sameKey l) (k : K)
    (modifiers : List (V → V)) (use : EntryUse V) :
    ∃ m', m.step N equivalent (.entry k modifiers use) =
        some ((OrderedMap.step equivalent l (.entry k modifiers use)).1, m') ∧
      m'.iter = (OrderedMap.step equivalent l (.entry k modifiers use)).2 := by
  cases hfind : l.findIdx? (fun e => e.1 == k) with
  | some i =>
      obtain ⟨⟨k', v⟩, he, _, hlookup⟩ := lookup_of_findIdx? (· == k) hfind
      -- the entry is occupied, at the index of the key
      have hentry : ∃ o, m.entry k = .occupied o ∧ o.IsAt l i := by
        cases m with
        | inline l' =>
            obtain rfl : l' = l := hl
            exact ⟨.inline l' i, by simp only [SmallMap.entry, hfind], rfl, rfl⟩
        | spilled map =>
            obtain rfl : L.iter map = l := hl
            cases hentry : L.entry map k with
            | inl e =>
                obtain ⟨hidx, hdrop⟩ := hlib.entry_occupied map k e hentry
                rw [hfind] at hidx
                exact ⟨.spilled e, by simp only [SmallMap.entry, hentry], hdrop,
                  (Option.some.inj hidx).symm⟩
            | inr e =>
                rw [(hlib.entry_vacant map k e hentry).1] at hfind
                cases hfind
      obtain ⟨o, ho, hat⟩ := hentry
      -- the modifiers act on the value at that index, and so does what uses the entry
      obtain ⟨o₁, hmodifiers, hat₁⟩ := modifiers_occupied hlib hat he modifiers
      have he₁ := getElem?_setValue_self he (modifiers.foldl (fun v f => f v) v)
      obtain ⟨_, hkey, _⟩ := useOccupied_refines hlib hat₁ he₁ .key
      obtain ⟨_, hkey, hout⟩ := Option.map_eq_some_iff.mp hkey
      have hkey : (SmallMapEntry.occupied o₁).key = some k' := by
        rw [SmallMapEntry.key, hkey, Sum.inl.inj (Prod.mk.inj hout).1]
      have huse : ∃ m', SmallMap.useEntry N (.occupied o₁) use =
          some ((OrderedMap.useOccupiedEntry (setValue l i (modifiers.foldl (fun v f => f v) v)) i
            (k', modifiers.foldl (fun v f => f v) v) use).1, m') ∧
          m'.iter = (OrderedMap.useOccupiedEntry (setValue l i
            (modifiers.foldl (fun v f => f v) v)) i
            (k', modifiers.foldl (fun v f => f v) v) use).2 := by
        cases use with
        | cases uses occupied vacant =>
            obtain ⟨o₂, hall, hat₂⟩ := useAll_refines hlib hat₁ he₁ uses
            obtain ⟨m', hlast, hiter⟩ := endOccupied_refines hlib hat₂
              (getElem?_setValue_self he₁ _) occupied
            refine ⟨m', ?_, hiter⟩
            rw [SmallMap.useEntry]
            simp only [hall, Option.bind_eq_bind, Option.bind_some, hlast]
            rfl
        | orInsert default f =>
            obtain ⟨r, hr, hvalue, hwrite⟩ := intoMut_refines hlib hat₁ he₁
            refine ⟨r.write (f r.value), ?_, by rw [hwrite, hvalue]; rfl⟩
            rw [SmallMap.useEntry, SmallMapEntry.orInsert, hr, ← hvalue]
            rfl
        | orInsertWith default f =>
            obtain ⟨r, hr, hvalue, hwrite⟩ := intoMut_refines hlib hat₁ he₁
            refine ⟨r.write (f r.value), ?_, by rw [hwrite, hvalue]; rfl⟩
            rw [SmallMap.useEntry, SmallMapEntry.orInsertWith, hr, ← hvalue]
            rfl
      obtain ⟨m', huse, hiter⟩ := huse
      refine ⟨m', ?_, ?_⟩
      · simp only [SmallMap.step, ho, hmodifiers, Option.bind_eq_bind, Option.bind_some, hkey, huse,
          OrderedMap.step, hlookup]
      · simp only [OrderedMap.step, hlookup]
        exact hiter
  | none =>
      have hlookup := lookup_of_findIdx?_none (· == k) hfind
      -- the entry is vacant, and the modifiers do nothing
      have hentry : ∃ w, m.entry k = .vacant w ∧ w.IsFor l k := by
        cases m with
        | inline l' =>
            obtain rfl : l' = l := hl
            refine ⟨.inline (.inline l') k, by simp only [SmallMap.entry, hfind], rfl, rfl, ?_⟩
            intro repr k' heq
            exact ⟨l', (VacantEntry.inline.inj heq).1.symm⟩
        | spilled map =>
            obtain rfl : L.iter map = l := hl
            cases hentry : L.entry map k with
            | inl e =>
                rw [(hlib.entry_occupied map k e hentry).1] at hfind
                cases hfind
            | inr e =>
                obtain ⟨_, hdrop, hkey⟩ := hlib.entry_vacant map k e hentry
                exact ⟨.spilled e, by simp only [SmallMap.entry, hentry], hdrop, hkey,
                  fun repr k heq => by cases heq⟩
      obtain ⟨w, hw, hfor⟩ := hentry
      have hkey : (SmallMapEntry.vacant w).key = some k := by
        rw [SmallMapEntry.key, hfor.key]
      have huse : ∃ m', SmallMap.useEntry N (.vacant w) use =
          some ((OrderedMap.useVacantEntry l k use).1, m') ∧
          m'.iter = (OrderedMap.useVacantEntry l k use).2 := by
        cases use with
        | cases uses occupied vacant =>
            cases vacant with
            | drop => exact ⟨w.drop, rfl, hfor.iter⟩
            | insert value f =>
                obtain ⟨r, hr, hvalue, hwrite⟩ := vacantInsert_refines N hlib hfor h hfind value
                refine ⟨r.write (f r.value), ?_, by rw [hwrite, hvalue]; rfl⟩
                rw [SmallMap.useEntry, SmallMap.endVacant, hr, ← hvalue]
                rfl
        | orInsert default f =>
            obtain ⟨r, hr, hvalue, hwrite⟩ := vacantInsert_refines N hlib hfor h hfind default
            refine ⟨r.write (f r.value), ?_, by rw [hwrite, hvalue]; rfl⟩
            rw [SmallMap.useEntry, SmallMapEntry.orInsert, hr, ← hvalue]
            rfl
        | orInsertWith default f =>
            obtain ⟨r, hr, hvalue, hwrite⟩ :=
              vacantInsert_refines N hlib hfor h hfind (default ())
            refine ⟨r.write (f r.value), ?_, by rw [hwrite, hvalue]; rfl⟩
            rw [SmallMap.useEntry, SmallMapEntry.orInsertWith, hr, OrderedMap.useVacantEntry,
              ← hvalue]
            rfl
      obtain ⟨m', huse, hiter⟩ := huse
      refine ⟨m', ?_, ?_⟩
      · simp only [SmallMap.step, hw, modifiers_vacant, Option.bind_eq_bind, Option.bind_some,
          hkey, huse, OrderedMap.step, hlookup]
      · simp only [OrderedMap.step, hlookup]
        exact hiter

/-- Each operation is the one on the list of pairs. -/
theorem step_refines [EquivBEq K] (hl : m.iter = l) (h : Distinct sameKey l)
    (op : MapOp K V Q) :
    ∃ m', m.step N equivalent op = some ((OrderedMap.step equivalent l op).1, m') ∧
      m'.iter = (OrderedMap.step equivalent l op).2 := by
  cases op with
  | insert key value =>
      obtain ⟨m', hinsert, hiter⟩ := insert_refines N hlib hl h key value
      exact ⟨m', by rw [SmallMap.step, hinsert]; rfl, hiter⟩
  | get key => exact ⟨m, by rw [SmallMap.step, get_refines hlib hl]; rfl, hl⟩
  | getMut key f =>
      have hmut := getMut_refines hlib hl key
      cases hlookup : OrderedMap.lookup (equivalent key) l with
      | none =>
          rw [hlookup] at hmut
          simp only [SmallMap.step, hmut, OrderedMap.step, hlookup]
          exact ⟨m, rfl, hl⟩
      | some p =>
          rw [hlookup] at hmut
          obtain ⟨r, hr, hvalue, hwrite⟩ := hmut
          simp only [SmallMap.step, hr, OrderedMap.step, hlookup, ← hvalue]
          exact ⟨r.write (f r.value), rfl, hwrite _⟩
  | getKeyValue key => exact ⟨m, by rw [SmallMap.step, getKeyValue_refines hlib hl]; rfl, hl⟩
  | containsKey key =>
      refine ⟨m, ?_, hl⟩
      rw [SmallMap.step, SmallMap.containsKey, get_refines hlib hl, Option.isSome_map]
      rfl
  | remove key =>
      obtain ⟨m', hremove, hiter⟩ := remove_refines hlib hl key
      exact ⟨m', by rw [SmallMap.step, hremove]; rfl, hiter⟩
  | entry key modifiers use => exact entry_refines N hlib hl h key modifiers use
  | iter => exact ⟨m, by rw [SmallMap.step, hl]; rfl, hl⟩
  | iterMut f =>
      refine ⟨m.iterMut f, rfl, ?_⟩
      cases m with
      | inline l' => exact congrArg _ hl
      | spilled map => exact (hlib.iter_iterMut map f).trans (congrArg _ hl)
  | retain f =>
      refine ⟨m.retain f, rfl, ?_⟩
      cases m with
      | inline l' => exact congrArg _ hl
      | spilled map => exact (hlib.iter_retain map f).trans (congrArg _ hl)
  | clear =>
      refine ⟨m.clear, rfl, ?_⟩
      cases m with
      | inline l' => rfl
      | spilled map => exact hlib.iter_clear map
  | len => exact ⟨m, by rw [SmallMap.step, len_refines hlib hl]; rfl, hl⟩
  | isEmpty =>
      refine ⟨m, ?_, hl⟩
      rw [SmallMap.step, SmallMap.isEmpty, len_refines hlib hl, OrderedMap.step]
      cases l with
      | nil => rfl
      | cons e l => rfl
  | extend pairs =>
      obtain ⟨m', hextend, hiter⟩ := extend_refines N hlib hl h pairs
      exact ⟨m', by rw [SmallMap.step, hextend]; rfl, hiter⟩
  | fromIter pairs =>
      obtain ⟨m', hextend, hiter⟩ :=
        extend_refines (m := .new) N hlib rfl List.Pairwise.nil pairs
      exact ⟨m', by rw [SmallMap.step, SmallMap.fromIter, hextend]; rfl, hiter⟩

end Refinement

/-! ## Runs -/

section Runs

variable [BEq K] [EquivBEq K] {equivalent : Q → K → Bool} {l : List (K × V)}

theorem distinct_endOccupied (h : Distinct sameKey l) (i : Nat) (v : V) (last : OccupiedEnd V) :
    Distinct sameKey (OrderedMap.endOccupied l i v last).2 := by
  cases last with
  | drop => exact h
  | intoMut f => exact distinct_setValue h i (f v)
  | remove =>
      rw [OrderedMap.endOccupied]
      cases hswap : swapRemove l i with
      | none => exact h
      | some p => exact distinct_swapRemove sameKey_comm h hswap

theorem distinct_useOccupiedEntry (h : Distinct sameKey l) (i : Nat) (e : K × V)
    (use : EntryUse V) : Distinct sameKey (OrderedMap.useOccupiedEntry l i e use).2 := by
  cases use with
  | cases uses occupied vacant => exact distinct_endOccupied (distinct_setValue h i _) i _ occupied
  | orInsert default f => exact distinct_setValue h i _
  | orInsertWith default f => exact distinct_setValue h i _

omit [EquivBEq K] in
theorem distinct_useVacantEntry (h : Distinct sameKey l) {key : K}
    (habsent : l.findIdx? (fun e => e.1 == key) = none) (use : EntryUse V) :
    Distinct sameKey (OrderedMap.useVacantEntry l key use).2 := by
  have happend : ∀ v : V, Distinct sameKey (l ++ [(key, v)]) := by
    intro v
    exact distinct_append h (fun a ha => List.findIdx?_eq_none_iff.mp habsent a ha)
  cases use with
  | cases uses occupied vacant =>
      cases vacant with
      | drop => exact h
      | insert value f => exact happend _
  | orInsert default f => exact happend _
  | orInsertWith default f => exact happend _

theorem distinct_extend (h : Distinct sameKey l) (pairs : List (K × V)) :
    Distinct sameKey (pairs.foldl (fun l e => (OrderedTable.insert l e.1 e.2).2) l) := by
  induction pairs generalizing l with
  | nil => exact h
  | cons e pairs ih => exact ih (distinct_insert h e.1 e.2)

/-- The keys stay distinct. -/
theorem step_distinct (h : Distinct sameKey l) (op : MapOp K V Q) :
    Distinct sameKey (OrderedMap.step equivalent l op).2 := by
  cases op with
  | insert key value => exact distinct_insert h key value
  | getMut key f =>
      cases hlookup : OrderedMap.lookup (equivalent key) l with
      | none => simp only [OrderedMap.step, hlookup]; exact h
      | some p => simp only [OrderedMap.step, hlookup]; exact distinct_setValue h _ _
  | remove key => exact distinct_remove sameKey_comm h
  | entry key modifiers use =>
      cases hfind : l.findIdx? (fun e => e.1 == key) with
      | none =>
          simp only [OrderedMap.step, lookup_of_findIdx?_none (· == key) hfind]
          exact distinct_useVacantEntry h hfind use
      | some i =>
          obtain ⟨e, _, _, hlookup⟩ := lookup_of_findIdx? (· == key) hfind
          simp only [OrderedMap.step, hlookup]
          exact distinct_useOccupiedEntry (distinct_setValue h i _) i _ use
  | iterMut f => exact distinct_map (fun _ _ => rfl) h
  | retain f => exact h.filter _
  | clear => exact List.Pairwise.nil
  | extend pairs => exact distinct_extend h pairs
  | fromIter pairs => exact distinct_extend List.Pairwise.nil pairs
  | get key => exact h
  | getKeyValue key => exact h
  | containsKey key => exact h
  | iter => exact h
  | len => exact h
  | isEmpty => exact h

theorem run_distinct (h : Distinct sameKey l) (ops : List (MapOp K V Q)) :
    Distinct sameKey (OrderedMap.run equivalent l ops).2 := by
  induction ops generalizing l with
  | nil => exact h
  | cons op ops ih => exact ih (step_distinct h op)

/-- Sequences of operations, from pairs with distinct keys. -/
theorem run_refines {L : IndexMap K V Q} (hlib : L.Documented equivalent) (N : Nat)
    {m : SmallMap L} (hl : m.iter = l) (h : Distinct sameKey l) (ops : List (MapOp K V Q)) :
    ∃ m', m.run N equivalent ops = some ((OrderedMap.run equivalent l ops).1, m') ∧
      m'.iter = (OrderedMap.run equivalent l ops).2 := by
  induction ops generalizing m l with
  | nil => exact ⟨m, rfl, hl⟩
  | cons op ops ih =>
      obtain ⟨m₁, hstep, hiter⟩ := step_refines N hlib hl h op
      obtain ⟨m', hrun, hiter'⟩ := ih hiter (step_distinct h op)
      refine ⟨m', ?_, hiter'⟩
      rw [SmallMap.run, hstep]
      simp only [Option.bind_eq_bind, Option.bind_some, hrun]
      rfl

end Runs

/-! ## Equality -/

/-- Two lists of pairs give equal values for equal keys. -/
def OrderedMap.Equal [BEq K] [BEq V] (l l' : List (K × V)) : Prop :=
  ∀ key : K, ((OrderedMap.lookup (key == ·) l').map (fun p => p.2.2) ==
    (OrderedMap.lookup (key == ·) l).map (fun p => p.2.2)) = true

section Equality

variable [BEq K] [EquivBEq K] {l l' : List (K × V)}

omit [BEq K] [EquivBEq K] in
theorem lookup_eq_some {is : K → Bool} {i : Nat} {e : K × V}
    (h : OrderedMap.lookup is l = some (i, e)) : e ∈ l ∧ is e.1 = true := by
  obtain ⟨j, hfind, h⟩ := Option.bind_eq_some_iff.mp h
  obtain ⟨e', he, h⟩ := Option.bind_eq_some_iff.mp h
  obtain ⟨rfl, rfl⟩ := Prod.mk.inj (Option.some.inj h)
  obtain ⟨hi, htrue, _⟩ := List.findIdx?_eq_some_iff_getElem.mp hfind
  obtain ⟨_, rfl⟩ := List.getElem?_eq_some_iff.mp he
  exact ⟨List.getElem_mem hi, htrue⟩

/-- With distinct keys the pair of a key is found. -/
theorem lookup_of_mem (h : Distinct sameKey l) {e : K × V} (he : e ∈ l) {key : K}
    (hkey : (key == e.1) = true) :
    (OrderedMap.lookup (key == ·) l).map (fun p => p.2.2) = some e.2 := by
  have hfound : l.find? (fun a => key == a.1) = some e := by
    obtain ⟨i, hi, rfl⟩ := List.mem_iff_getElem.mp he
    refine List.find?_eq_some_iff_getElem.mpr ⟨hkey, i, hi, rfl, fun j hj => ?_⟩
    have hdistinct : sameKey l[j] l[i] = false := List.pairwise_iff_getElem.mp h j i _ hi hj
    rw [Bool.not_eq_true']
    refine Bool.eq_false_of_not_eq_true (fun heq => ?_)
    have hsame : (l[j].1 == l[i].1) = true := BEq.trans (BEq.symm heq) hkey
    rw [show (l[j].1 == l[i].1) = false from hdistinct] at hsame
    exact absurd hsame Bool.false_ne_true
  rw [find?_eq_lookup] at hfound
  obtain ⟨p, hp, hpe⟩ := Option.map_eq_some_iff.mp hfound
  rw [hp, Option.map_some, hpe]

theorem lookup_congr {a b : K} (hab : (a == b) = true) :
    OrderedMap.lookup (a == ·) l = OrderedMap.lookup (b == ·) l := by
  have htests : (fun k => a == k) = (fun k => b == k) := by
    funext k
    exact BEq.congr_left hab
  rw [htests]

theorem sameKey_trans (a b c : K × V) (hab : sameKey a b = true) (hbc : sameKey b c = true) :
    sameKey a c = true := BEq.trans hab hbc

/-- Comparing the lengths and looking up every pair compares all keys. -/
theorem eq_iff_equal [BEq V] {L : IndexMap K V K} (hlib : L.Documented (· == ·))
    {m other : SmallMap L} (h : Distinct sameKey m.iter) (h' : Distinct sameKey other.iter) :
    m.eq other = true ↔ OrderedMap.Equal m.iter other.iter := by
  rw [SmallMap.eq, Bool.and_eq_true, beq_iff_eq, len_refines hlib rfl, len_refines hlib rfl,
    List.all_eq_true]
  simp only [get_refines hlib (rfl : other.iter = other.iter)]
  constructor
  · rintro ⟨hlen, hall⟩ key
    -- every key of the one is a key of the other
    have hcover : ∀ a ∈ m.iter, ∃ b ∈ other.iter, sameKey a b = true := by
      intro a ha
      cases hlookup : OrderedMap.lookup (a.1 == ·) other.iter with
      | none =>
          have ha := hall a ha
          rw [hlookup] at ha
          exact absurd ha Bool.false_ne_true
      | some p =>
          obtain ⟨hp, hkey⟩ := lookup_eq_some hlookup
          exact ⟨p.2, hp, hkey⟩
    cases hlookup : OrderedMap.lookup (key == ·) m.iter with
    | some p =>
        obtain ⟨hp, hkey⟩ := lookup_eq_some hlookup
        rw [lookup_congr hkey]
        exact hall p.2 hp
    | none =>
        cases hother : OrderedMap.lookup (key == ·) other.iter with
        | none => rfl
        | some p =>
            obtain ⟨hp, hkey⟩ := lookup_eq_some hother
            -- as they have the same number of keys, this holds the other way round
            obtain ⟨a, ha, hap⟩ := cover_symm sameKey_comm sameKey_trans h hlen hcover p.2 hp
            have hka : (key == a.1) = true := BEq.trans hkey (BEq.symm hap)
            have hfound := lookup_of_mem h ha hka
            rw [hlookup] at hfound
            exact absurd hfound nofun
  · intro hequal
    have hall : ∀ e ∈ m.iter, ((OrderedMap.lookup (e.1 == ·) other.iter).map (fun p => p.2.2) ==
        some e.2) = true := by
      intro e he
      have hkey := hequal e.1
      rw [lookup_of_mem h he BEq.rfl] at hkey
      exact hkey
    refine ⟨Nat.le_antisymm ?_ ?_, hall⟩
    · refine length_le_of_cover sameKey_comm sameKey_trans h (fun a ha => ?_)
      cases hlookup : OrderedMap.lookup (a.1 == ·) other.iter with
      | none =>
          have ha := hall a ha
          rw [hlookup] at ha
          exact absurd ha Bool.false_ne_true
      | some p =>
          obtain ⟨hp, hkey⟩ := lookup_eq_some hlookup
          exact ⟨p.2, hp, hkey⟩
    · refine length_le_of_cover sameKey_comm sameKey_trans h' (fun b hb => ?_)
      have hkey := hequal b.1
      rw [lookup_of_mem h' hb BEq.rfl] at hkey
      cases hlookup : OrderedMap.lookup (b.1 == ·) m.iter with
      | none =>
          rw [hlookup] at hkey
          exact absurd hkey Bool.false_ne_true
      | some p =>
          obtain ⟨hp, hkey⟩ := lookup_eq_some hlookup
          exact ⟨p.2, hp, hkey⟩

end Equality

end Pliron
