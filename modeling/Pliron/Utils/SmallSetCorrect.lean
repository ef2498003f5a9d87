/-
  Pliron.Utils.SmallSetCorrect

  Small sets are one insertion-ordered set, and with it the statement for both containers.
-/

import Pliron.Utils.SmallTableCorrect
import Pliron.Utils.SmallSet

namespace Pliron

open Pliron.Lib OrderedTable

variable {T Q : Type}

/-! ## Operations on a set -/

/-- An operation on a set. -/
inductive SetOp (T Q : Type) where
  | insert (value : T)
  | contains (value : Q)
  | get (value : Q)
  | remove (value : Q)
  | iter
  | retain (f : T → Bool)
  | clear
  | len
  | isEmpty
  | extend (values : List T)
  | fromIter (values : List T)

/-- What an operation returns. -/
inductive SetResult (T : Type) where
  | unit
  | bool (b : Bool)
  | value (value : Option T)
  | number (n : Nat)
  | elements (values : List T)

namespace SmallSet

variable {L : IndexSet T Q} [BEq T] (N : Nat) (equivalent : Q → T → Bool)

/-- One operation. -/
def step (s : SmallSet L) : SetOp T Q → Option (SetResult T × SmallSet L)
  | .insert value =>
      let (inserted, s) := s.insert N value
      some (.bool inserted, s)
  | .contains value => some (.bool (s.contains equivalent value), s)
  | .get value => some (.value (s.get equivalent value), s)
  | .remove value => (s.remove equivalent value).map (fun p => (.bool p.1, p.2))
  | .iter => some (.elements s.iter, s)
  | .retain f => some (.unit, s.retain f)
  | .clear => some (.unit, s.clear)
  | .len => some (.number s.len, s)
  | .isEmpty => some (.bool s.isEmpty, s)
  | .extend values => some (.unit, s.extend N values)
  | .fromIter values => some (.unit, fromIter N values)

/-- Operations one after the other. -/
def run : SmallSet L → List (SetOp T Q) → Option (List (SetResult T) × SmallSet L)
  | s, [] => some ([], s)
  | s, op :: ops => do
      let (result, s) ← s.step N equivalent op
      let (results, s) ← run s ops
      some (result :: results, s)

end SmallSet

/-! ## The insertion-ordered set, a list of elements -/

namespace OrderedSet

variable [BEq T] (equivalent : Q → T → Bool)

/-- One operation. -/
def step (l : List T) : SetOp T Q → SetResult T × List T
  | .insert value =>
      let (inserted, l) := insertNew l value
      (.bool inserted, l)
  | .contains value => (.bool (l.any (equivalent value)), l)
  | .get value => (.value (l.find? (equivalent value)), l)
  | .remove value =>
      let (old, l) := remove (equivalent value) l
      (.bool old.isSome, l)
  | .iter => (.elements l, l)
  | .retain f => (.unit, l.filter f)
  | .clear => (.unit, [])
  | .len => (.number l.length, l)
  | .isEmpty => (.bool l.isEmpty, l)
  | .extend values => (.unit, values.foldl (fun l v => (insertNew l v).2) l)
  | .fromIter values => (.unit, values.foldl (fun l v => (insertNew l v).2) [])

/-- Operations one after the other. -/
def run : List T → List (SetOp T Q) → List (SetResult T) × List T
  | l, [] => ([], l)
  | l, op :: ops =>
      let (result, l) := step equivalent l op
      let (results, l) := run l ops
      (result :: results, l)

/-- Two lists have equal elements. -/
def Equal (l l' : List T) : Prop := ∀ value : T, l'.any (value == ·) = l.any (value == ·)

end OrderedSet

/-! ## Each operation -/

section Refinement

variable {L : IndexSet T Q} [BEq T] {equivalent : Q → T → Bool} {l : List T} {s : SmallSet L}

/-- The elements stay distinct. -/
theorem set_step_distinct [EquivBEq T] (h : Distinct (· == ·) l) (op : SetOp T Q) :
    Distinct (· == ·) (OrderedSet.step equivalent l op).2 := by
  have hextend : ∀ (values : List T) (l : List T), Distinct (· == ·) l →
      Distinct (· == ·) (values.foldl (fun l v => (insertNew l v).2) l) := by
    intro values
    induction values with
    | nil => exact fun l h => h
    | cons v values ih => exact fun l h => ih _ (distinct_insertNew h v)
  cases op with
  | insert value => exact distinct_insertNew h value
  | remove value => exact distinct_remove (fun a b => BEq.comm) h
  | retain f => exact h.filter _
  | clear => exact List.Pairwise.nil
  | extend values => exact hextend values l h
  | fromIter values => exact hextend values [] List.Pairwise.nil
  | contains value => exact h
  | get value => exact h
  | iter => exact h
  | len => exact h
  | isEmpty => exact h

theorem set_run_distinct [EquivBEq T] (h : Distinct (· == ·) l) (ops : List (SetOp T Q)) :
    Distinct (· == ·) (OrderedSet.run equivalent l ops).2 := by
  induction ops generalizing l with
  | nil => exact h
  | cons op ops ih => exact ih (set_step_distinct h op)

variable (N : Nat) (hlib : L.Documented equivalent)

include hlib

/-- Moving the elements to the hash table keeps their order. -/
theorem iter_promote_set (h : Distinct (· == ·) l) :
    L.iter (SmallSet.promote (L := L) l) = l := by
  have hfold : ∀ (rest : List T) (set : L.Set), Distinct (· == ·) (L.iter set ++ rest) →
      L.iter (rest.foldl (fun set x => (L.insert set x).2) set) = L.iter set ++ rest := by
    intro rest
    induction rest with
    | nil => exact fun set _ => (List.append_nil _).symm
    | cons x rest ih =>
        intro set hset
        have habsent : (L.iter set).any (· == x) = false := by
          rw [List.any_eq_false]
          intro a ha
          have hdistinct : (a == x) = false :=
            (List.pairwise_append.mp hset).2.2 a ha x List.mem_cons_self
          rw [hdistinct]
          exact Bool.false_ne_true
        obtain ⟨_, hiter⟩ := hlib.insert set x
        rw [insertNew, habsent, if_neg Bool.false_ne_true] at hiter
        have hcons : L.iter set ++ x :: rest = L.iter (L.insert set x).2 ++ rest := by
          rw [hiter, List.append_assoc]
          rfl
        rw [List.foldl_cons, hcons]
        exact ih _ (hcons ▸ hset)
  have hempty := hlib.iter_withCapacityAndHasher (l.length + 1)
  rw [SmallSet.promote, hfold l _ (by rwa [hempty]), hempty, List.nil_append]

theorem set_insert_refines (hl : s.iter = l) (h : Distinct (· == ·) l) (v : T) :
    (s.insert N v).1 = (insertNew l v).1 ∧ (s.insert N v).2.iter = (insertNew l v).2 := by
  cases s with
  | inline l' =>
      obtain rfl : l' = l := hl
      rw [SmallSet.insert, insertNew]
      by_cases hany : l'.any (· == v) = true
      · rw [if_pos hany, if_pos hany]
        exact ⟨rfl, rfl⟩
      · rw [if_neg hany, if_neg hany]
        by_cases hN : l'.length < N
        · rw [if_pos hN]
          exact ⟨rfl, rfl⟩
        · rw [if_neg hN]
          obtain ⟨hold, hiter⟩ := hlib.insert (SmallSet.promote l') v
          rw [iter_promote_set hlib h, insertNew, if_neg hany] at hold hiter
          exact ⟨hold, hiter⟩
  | spilled set =>
      obtain rfl : L.iter set = l := hl
      exact hlib.insert set v

theorem set_extend_refines (hl : s.iter = l) (h : Distinct (· == ·) l) (values : List T) :
    (s.extend N values).iter = values.foldl (fun l v => (insertNew l v).2) l := by
  induction values generalizing s l with
  | nil => exact hl
  | cons v values ih =>
      exact ih (set_insert_refines N hlib hl h v).2 (distinct_insertNew h v)

theorem set_remove_refines (hl : s.iter = l) (q : Q) :
    ∃ s', s.remove equivalent q = some ((remove (equivalent q) l).1.isSome, s') ∧
      s'.iter = (remove (equivalent q) l).2 := by
  cases s with
  | inline l' =>
      obtain rfl : l' = l := hl
      rw [SmallSet.remove, remove]
      cases hfind : l'.findIdx? (fun x => equivalent q x) with
      | none => exact ⟨_, rfl, rfl⟩
      | some i =>
          obtain ⟨hi, _⟩ := List.findIdx?_eq_some_iff_getElem.mp hfind
          obtain ⟨l'', hswap⟩ := swapRemove_ne_none hi
          simp only [hswap, Option.bind_eq_bind, Option.bind_some]
          exact ⟨_, rfl, rfl⟩
  | spilled set =>
      obtain ⟨hold, hiter⟩ := hlib.swapRemove set q
      obtain rfl : L.iter set = l := hl
      exact ⟨.spilled (L.swapRemove set q).2, by rw [← hold]; rfl, hiter⟩

theorem set_contains_refines (hl : s.iter = l) (q : Q) :
    s.contains equivalent q = l.any (equivalent q) := by
  cases s with
  | inline l' => exact congrArg (List.any · _) hl
  | spilled set => exact (hlib.contains set q).trans (congrArg (List.any · _) hl)

theorem set_len_refines (hl : s.iter = l) : s.len = l.length := by
  cases s with
  | inline l' => exact congrArg List.length hl
  | spilled set => exact (hlib.len set).trans (congrArg List.length hl)

/-- Each operation is the one on the list of elements. -/
theorem set_step_refines (hl : s.iter = l) (h : Distinct (· == ·) l) (op : SetOp T Q) :
    ∃ s', s.step N equivalent op = some ((OrderedSet.step equivalent l op).1, s') ∧
      s'.iter = (OrderedSet.step equivalent l op).2 := by
  cases op with
  | insert value =>
      obtain ⟨hold, hiter⟩ := set_insert_refines N hlib hl h value
      exact ⟨(s.insert N value).2, congrArg (fun b => some (SetResult.bool b, _)) hold, hiter⟩
  | contains value =>
      exact ⟨s, by rw [SmallSet.step, set_contains_refines hlib hl]; rfl, hl⟩
  | get value =>
      refine ⟨s, ?_, hl⟩
      cases s with
      | inline l' =>
          obtain rfl : l' = l := hl
          rfl
      | spilled set =>
          obtain rfl : L.iter set = l := hl
          rw [SmallSet.step, SmallSet.get, hlib.get]
          rfl
  | remove value =>
      obtain ⟨s', hremove, hiter⟩ := set_remove_refines hlib hl value
      exact ⟨s', by rw [SmallSet.step, hremove]; rfl, hiter⟩
  | iter => exact ⟨s, by rw [SmallSet.step, hl]; rfl, hl⟩
  | retain f =>
      refine ⟨s.retain f, rfl, ?_⟩
      cases s with
      | inline l' => exact congrArg _ hl
      | spilled set => exact (hlib.iter_retain set f).trans (congrArg _ hl)
  | clear =>
      refine ⟨s.clear, rfl, ?_⟩
      cases s with
      | inline l' => rfl
      | spilled set => exact hlib.iter_clear set
  | len => exact ⟨s, by rw [SmallSet.step, set_len_refines hlib hl]; rfl, hl⟩
  | isEmpty =>
      refine ⟨s, ?_, hl⟩
      rw [SmallSet.step, SmallSet.isEmpty, set_len_refines hlib hl, OrderedSet.step]
      cases l with
      | nil => rfl
      | cons e l => rfl
  | extend values => exact ⟨s.extend N values, rfl, set_extend_refines N hlib hl h values⟩
  | fromIter values =>
      exact ⟨SmallSet.fromIter N values, rfl,
        set_extend_refines (s := .new) N hlib rfl List.Pairwise.nil values⟩

/-- Sequences of operations, from distinct elements. -/
theorem set_run_refines [EquivBEq T] (hl : s.iter = l) (h : Distinct (· == ·) l)
    (ops : List (SetOp T Q)) :
    ∃ s', s.run N equivalent ops = some ((OrderedSet.run equivalent l ops).1, s') ∧
      s'.iter = (OrderedSet.run equivalent l ops).2 := by
  induction ops generalizing s l with
  | nil => exact ⟨s, rfl, hl⟩
  | cons op ops ih =>
      obtain ⟨s₁, hstep, hiter⟩ := set_step_refines N hlib hl h op
      obtain ⟨s', hrun, hiter'⟩ := ih hiter (set_step_distinct h op)
      refine ⟨s', ?_, hiter'⟩
      rw [SmallSet.run, hstep]
      simp only [Option.bind_eq_bind, Option.bind_some, hrun]
      rfl

end Refinement

/-! ## Equality -/

/-- Comparing the lengths and looking up every element compares all values. -/
theorem set_eq_iff_equal [BEq T] [EquivBEq T] {L : IndexSet T T}
    (hlib : L.Documented (· == ·)) {s other : SmallSet L} (h : Distinct (· == ·) s.iter)
    (h' : Distinct (· == ·) other.iter) :
    s.eq other = true ↔ OrderedSet.Equal s.iter other.iter := by
  have hsymm : ∀ a b : T, (a == b) = (b == a) := fun a b => BEq.comm
  have htrans : ∀ a b c : T, (a == b) = true → (b == c) = true → (a == c) = true :=
    fun a b c hab hbc => BEq.trans hab hbc
  rw [SmallSet.eq, Bool.and_eq_true, beq_iff_eq, set_len_refines hlib rfl,
    set_len_refines hlib rfl, List.all_eq_true]
  simp only [set_contains_refines hlib (rfl : other.iter = other.iter), List.any_eq_true]
  constructor
  · rintro ⟨hlen, hall⟩ value
    rw [Bool.eq_iff_iff, List.any_eq_true, List.any_eq_true]
    constructor
    · rintro ⟨b, hb, hvalue⟩
      obtain ⟨a, ha, hab⟩ := cover_symm hsymm htrans h hlen hall b hb
      exact ⟨a, ha, htrans _ _ _ hvalue ((hsymm _ _).trans hab)⟩
    · rintro ⟨a, ha, hvalue⟩
      obtain ⟨b, hb, hab⟩ := hall a ha
      exact ⟨b, hb, htrans _ _ _ hvalue hab⟩
  · intro hequal
    have hfound : ∀ l : List T, ∀ a ∈ l, l.any (a == ·) = true := by
      intro l a ha
      exact List.any_eq_true.mpr ⟨a, ha, BEq.rfl⟩
    have hall : ∀ a ∈ s.iter, ∃ b ∈ other.iter, (a == b) = true := by
      intro a ha
      exact List.any_eq_true.mp ((hequal a).trans (hfound _ a ha))
    have hall' : ∀ b ∈ other.iter, ∃ a ∈ s.iter, (b == a) = true := by
      intro b hb
      exact List.any_eq_true.mp ((hequal b).symm.trans (hfound _ b hb))
    exact ⟨Nat.le_antisymm (length_le_of_cover hsymm htrans h hall)
      (length_le_of_cover hsymm htrans h' hall'), hall⟩

/-! ## Both containers -/

/-- Maps and sets of every inline capacity give the results and the iteration order of one
    insertion-ordered map or set, for every sequence of operations.  Equality of two of them
    compares what they hold, whatever their order and representation. -/
theorem smallTables_ordered {K V Q T R : Type} [BEq K] [EquivBEq K] [BEq V] [BEq T] [EquivBEq T]
    {L : IndexMap K V Q} {equivalent : Q → K → Bool} (hL : L.Documented equivalent)
    {LK : IndexMap K V K} (hLK : LK.Documented (· == ·))
    {S : IndexSet T R} {equivalent' : R → T → Bool} (hS : S.Documented equivalent')
    {ST : IndexSet T T} (hST : ST.Documented (· == ·)) :
    (∀ (N : Nat) (ops : List (MapOp K V Q)), ∃ m : SmallMap L,
      SmallMap.run N equivalent .new ops = some ((OrderedMap.run equivalent [] ops).1, m) ∧
      m.iter = (OrderedMap.run equivalent [] ops).2) ∧
    (∀ (N : Nat) (ops : List (SetOp T R)), ∃ s : SmallSet S,
      SmallSet.run N equivalent' .new ops = some ((OrderedSet.run equivalent' [] ops).1, s) ∧
      s.iter = (OrderedSet.run equivalent' [] ops).2) ∧
    (∀ (N N' : Nat) (ops ops' : List (MapOp K V K)) (m m' : SmallMap LK)
      (results results' : List (MapResult K V)),
      SmallMap.run N (· == ·) .new ops = some (results, m) →
      SmallMap.run N' (· == ·) .new ops' = some (results', m') →
      (m.eq m' = true ↔ OrderedMap.Equal (OrderedMap.run (· == ·) [] ops).2
        (OrderedMap.run (· == ·) [] ops').2)) ∧
    (∀ (N N' : Nat) (ops ops' : List (SetOp T T)) (s s' : SmallSet ST)
      (results results' : List (SetResult T)),
      SmallSet.run N (· == ·) .new ops = some (results, s) →
      SmallSet.run N' (· == ·) .new ops' = some (results', s') →
      (s.eq s' = true ↔ OrderedSet.Equal (OrderedSet.run (· == ·) [] ops).2
        (OrderedSet.run (· == ·) [] ops').2)) := by
  -- what a run holds is what the ordered table holds, for any number of inline entries
  have hmap : ∀ (N : Nat) (ops : List (MapOp K V K)) (m : SmallMap LK) results,
      SmallMap.run N (· == ·) .new ops = some (results, m) →
      m.iter = (OrderedMap.run (· == ·) [] ops).2 := by
    intro N ops m results hrun
    obtain ⟨m₁, hrun₁, hiter⟩ := run_refines hLK N (m := .new) rfl List.Pairwise.nil ops
    rw [hrun] at hrun₁
    rw [(Prod.mk.inj (Option.some.inj hrun₁)).2]
    exact hiter
  have hset : ∀ (N : Nat) (ops : List (SetOp T T)) (s : SmallSet ST) results,
      SmallSet.run N (· == ·) .new ops = some (results, s) →
      s.iter = (OrderedSet.run (· == ·) [] ops).2 := by
    intro N ops s results hrun
    obtain ⟨s₁, hrun₁, hiter⟩ := set_run_refines N hST (s := .new) rfl List.Pairwise.nil ops
    rw [hrun] at hrun₁
    rw [(Prod.mk.inj (Option.some.inj hrun₁)).2]
    exact hiter
  refine ⟨fun N ops => run_refines (m := .new) hL N rfl List.Pairwise.nil ops,
    fun N ops => set_run_refines (s := .new) N hS rfl List.Pairwise.nil ops, ?_, ?_⟩
  · intro N N' ops ops' m m' results results' hrun hrun'
    have hiter := hmap N ops m results hrun
    have hiter' := hmap N' ops' m' results' hrun'
    rw [← hiter, ← hiter']
    refine eq_iff_equal hLK ?_ ?_
    · rw [hiter]
      exact run_distinct List.Pairwise.nil ops
    · rw [hiter']
      exact run_distinct List.Pairwise.nil ops'
  · intro N N' ops ops' s s' results results' hrun hrun'
    have hiter := hset N ops s results hrun
    have hiter' := hset N' ops' s' results' hrun'
    rw [← hiter, ← hiter']
    refine set_eq_iff_equal hST ?_ ?_
    · rw [hiter]
      exact set_run_distinct List.Pairwise.nil ops
    · rw [hiter']
      exact set_run_distinct List.Pairwise.nil ops'

section Listed

/-- Hash maps of numbers as lists. -/
def listedMap : IndexMap Nat Nat Nat where
  Map := List (Nat × Nat)
  OccupiedEntry := List (Nat × Nat) × Nat
  VacantEntry := List (Nat × Nat) × Nat
  withCapacityAndHasher := fun _ => []
  len := List.length
  clear := fun _ => []
  iter := id
  iterMut := fun l f => l.map (fun e => (e.1, f e.1 e.2))
  retain := fun l f => l.filter (fun e => f e.1 e.2)
  insert := OrderedTable.insert
  get := fun l q => (l.find? (fun e => q == e.1)).map Prod.snd
  getMut := fun l q => (l.findIdx? (fun e => q == e.1)).map
    (fun i => ⟨((l[i]?).map Prod.snd).getD 0, setValue l i⟩)
  getKeyValue := fun l q => l.find? (fun e => q == e.1)
  swapRemove := fun l q =>
    ((remove (fun e => q == e.1) l).1.map Prod.snd, (remove (fun e => q == e.1) l).2)
  getIndexMut := fun l i => some ⟨((l[i]?).map Prod.snd).getD 0, setValue l i⟩
  entry := fun l k =>
    match l.findIdx? (fun e => e.1 == k) with
    | some i => .inl (l, i)
    | none => .inr (l, k)
  occupiedIndex := Prod.snd
  occupiedKey := fun e => ((e.1[e.2]?).map Prod.fst).getD 0
  occupiedGet := fun e => ((e.1[e.2]?).map Prod.snd).getD 0
  occupiedGetMut := fun e =>
    ⟨((e.1[e.2]?).map Prod.snd).getD 0, fun v => (setValue e.1 e.2 v, e.2)⟩
  occupiedIntoMut := fun e => ⟨((e.1[e.2]?).map Prod.snd).getD 0, setValue e.1 e.2⟩
  occupiedSwapRemove := fun e =>
    (((swapRemove e.1 e.2).map (fun p => p.1.2)).getD 0,
      ((swapRemove e.1 e.2).map Prod.snd).getD e.1)
  occupiedDrop := Prod.fst
  vacantKey := Prod.snd
  vacantInsert := fun e v => ⟨v, fun x => e.1 ++ [(e.2, x)]⟩
  vacantDrop := Prod.fst

theorem listedMap_documented : listedMap.Documented (· == ·) where
  iter_withCapacityAndHasher := fun _ => rfl
  len := fun _ => rfl
  iter_clear := fun _ => rfl
  iter_iterMut := fun _ _ => rfl
  iter_retain := fun _ _ => rfl
  insert := fun _ _ _ => ⟨rfl, rfl⟩
  getKeyValue := fun _ _ => rfl
  get := fun _ _ => rfl
  getMut_some := by
    intro (l : List (Nat × Nat)) q i h
    have h : l.findIdx? (fun e => q == e.1) = some i := h
    obtain ⟨hi, _⟩ := List.findIdx?_eq_some_iff_getElem.mp h
    refine ⟨⟨l[i].2, setValue l i⟩, ?_, ?_, fun _ => rfl⟩
    · simp only [listedMap]
      rw [h, Option.map_some, List.getElem?_eq_getElem hi]
      rfl
    · show (l[i]?).map Prod.snd = some l[i].2
      rw [List.getElem?_eq_getElem hi]
      rfl
  getMut_none := by
    intro (l : List (Nat × Nat)) q h
    have h : l.findIdx? (fun e => q == e.1) = none := h
    simp only [listedMap]
    rw [h]
    rfl
  swapRemove := fun _ _ => ⟨rfl, rfl⟩
  getIndexMut := by
    intro (l : List (Nat × Nat)) i hi
    have hi : i < l.length := hi
    refine ⟨_, rfl, ?_, fun _ => rfl⟩
    show (l[i]?).map Prod.snd = some (((l[i]?).map Prod.snd).getD 0)
    rw [List.getElem?_eq_getElem hi]
    rfl
  entry_occupied := by
    intro l k e h
    simp only [listedMap] at h ⊢
    split at h
    next i hfind =>
      obtain rfl := Sum.inl.inj h
      exact ⟨hfind, rfl⟩
    next => exact absurd h nofun
  entry_vacant := by
    intro l k e h
    simp only [listedMap] at h ⊢
    split at h
    next => exact absurd h nofun
    next hfind =>
      obtain rfl := Sum.inr.inj h
      exact ⟨hfind, rfl, rfl⟩
  occupiedRead := by
    intro e k v h
    have h : e.1[e.2]? = some (k, v) := h
    simp only [listedMap, h]
    exact ⟨rfl, rfl, rfl⟩
  occupiedGetMut := fun _ _ => ⟨rfl, rfl⟩
  occupiedIntoMut := by
    intro e h
    have h : e.2 < e.1.length := h
    refine ⟨?_, fun _ => rfl⟩
    show (e.1[e.2]?).map Prod.snd = some (((e.1[e.2]?).map Prod.snd).getD 0)
    rw [List.getElem?_eq_getElem h]
    rfl
  occupiedSwapRemove := by
    intro e a l h
    have h : swapRemove e.1 e.2 = some (a, l) := h
    simp only [listedMap, h]
    exact ⟨rfl, rfl⟩
  vacantInsert := by
    intro e v
    refine ⟨?_, fun x => (setValue_concat e.1 e.2 v x).symm⟩
    show ((e.1 ++ [(e.2, v)])[e.1.length]?).map Prod.snd = some v
    rw [List.getElem?_concat_length]
    rfl

/-- Hash sets of numbers as lists. -/
def listedSet : IndexSet Nat Nat where
  Set := List Nat
  withCapacityAndHasher := fun _ => []
  len := List.length
  clear := fun _ => []
  iter := id
  retain := fun l f => l.filter f
  insert := insertNew
  contains := fun l q => l.any (q == ·)
  get := fun l q => l.find? (q == ·)
  swapRemove := fun l q => ((remove (q == ·) l).1.isSome, (remove (q == ·) l).2)

theorem listedSet_documented : listedSet.Documented (· == ·) where
  iter_withCapacityAndHasher := fun _ => rfl
  len := fun _ => rfl
  iter_clear := fun _ => rfl
  iter_retain := fun _ _ => rfl
  insert := fun _ _ => ⟨rfl, rfl⟩
  contains := fun _ _ => rfl
  get := fun _ _ => rfl
  swapRemove := fun _ _ => ⟨rfl, rfl⟩

/-- A map that leaves its inline array through an entry, and then closes a gap. -/
theorem smallTables_ordered_switch : ∃ m : SmallMap listedMap,
    SmallMap.run 2 (· == ·) .new [.insert 1 10, .insert 2 20,
      .entry 3 [] (.orInsert 30 id), .remove 1, .iter] =
      some ([.value none, .value none, .uses [.inl 3, .inr 30], .value (some 10),
        .entries [(3, 30), (2, 20)]], m) ∧ m.iter = [(3, 30), (2, 20)] :=
  (smallTables_ordered listedMap_documented listedMap_documented listedSet_documented
    listedSet_documented).1 2 [.insert 1 10, .insert 2 20, .entry 3 [] (.orInsert 30 id),
      .remove 1, .iter]

end Listed

end Pliron
