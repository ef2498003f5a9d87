/-
  Pliron.Utils.Table

  Insertion-ordered maps, as the source's `IMap`: a list of key-value pairs with
  distinct keys.  Inserting a new key appends it, inserting a present key
  replaces its value in place.
-/

import Mathlib.Data.List.Basic
import Mathlib.Logic.Function.Basic
import Mathlib.Tactic

namespace Pliron

variable {α β : Type} [DecidableEq α]

/-! ## Traversals that do not fail -/

omit [DecidableEq α] in
theorem mapM_of_isSome {f : α → Option β} {l : List α} (h : ∀ a ∈ l, (f a).isSome) :
    l.mapM f = some (l.filterMap f) := by
  induction l with
  | nil => rfl
  | cons a l ih =>
      obtain ⟨b, hb⟩ := Option.isSome_iff_exists.mp (h a List.mem_cons_self)
      rw [List.mapM_cons, hb, ih (fun x hx => h x (List.mem_cons_of_mem _ hx)),
        List.filterMap_cons_some hb]
      rfl

omit [DecidableEq α] in
theorem mapM_forall₂ {f : α → Option β} {R : α → β → Prop} {l : List α}
    (h : ∀ a ∈ l, ∃ b, f a = some b ∧ R a b) : ∃ bs, l.mapM f = some bs ∧ List.Forall₂ R l bs := by
  induction l with
  | nil => exact ⟨[], rfl, .nil⟩
  | cons a l ih =>
      obtain ⟨b, hb, hR⟩ := h a List.mem_cons_self
      obtain ⟨bs, hbs, hall⟩ := ih (fun x hx => h x (List.mem_cons_of_mem _ hx))
      refine ⟨b :: bs, ?_, .cons hR hall⟩
      rw [List.mapM_cons, hb, hbs]
      rfl

omit [DecidableEq α] in
theorem map_eq_of_forall₂ {γ : Type} {f : α → γ} {f' : β → γ} {l : List α} {bs : List β}
    (h : List.Forall₂ (fun a b => f' b = f a) l bs) : bs.map f' = l.map f := by
  induction h with
  | nil => rfl
  | cons hab _ ih => rw [List.map_cons, List.map_cons, hab, ih]

omit [DecidableEq α] in
theorem getElem?_of_forall₂ {R : α → β → Prop} {l : List α} {bs : List β} {i : Nat} {b : β}
    (h : List.Forall₂ R l bs) (hb : bs[i]? = some b) : ∃ a, l[i]? = some a ∧ R a b := by
  obtain ⟨hi, rfl⟩ := List.getElem?_eq_some_iff.mp hb
  have hi' : i < l.length := h.length_eq ▸ hi
  exact ⟨l[i], List.getElem?_eq_getElem hi', h.get hi' hi⟩

omit [DecidableEq α] in
theorem exists_of_forall₂ {R : α → β → Prop} {l : List α} {bs : List β} {a : α}
    (h : List.Forall₂ R l bs) (ha : a ∈ l) : ∃ b, R a b := by
  obtain ⟨i, hi, rfl⟩ := List.getElem_of_mem ha
  have hi' : i < bs.length := h.length_eq ▸ hi
  exact ⟨bs[i], h.get hi hi'⟩

omit [DecidableEq α] in
theorem forall₂_iff_getElem? {R : α → β → Prop} {l : List α} {bs : List β} :
    List.Forall₂ R l bs ↔
      bs.length = l.length ∧
        ∀ (i : Nat) (a : α) (b : β), l[i]? = some a → bs[i]? = some b → R a b := by
  rw [List.forall₂_iff_get, eq_comm]
  apply and_congr_right
  intro hlen
  constructor
  · intro h i a b ha hb
    obtain ⟨hi, rfl⟩ := List.getElem?_eq_some_iff.mp ha
    obtain ⟨hi', rfl⟩ := List.getElem?_eq_some_iff.mp hb
    exact h i hi hi'
  · intro h i hi hi'
    exact h i l[i] bs[i] (List.getElem?_eq_getElem hi) (List.getElem?_eq_getElem hi')

omit [DecidableEq α] in
theorem allM_of_eq_some {p : α → Option Bool} {q : α → Bool} {l : List α}
    (h : ∀ a ∈ l, p a = some (q a)) : l.allM p = some (l.all q) := by
  induction l with
  | nil => rfl
  | cons a l ih =>
      rw [List.allM_cons, h a List.mem_cons_self, ih (fun x hx => h x (List.mem_cons_of_mem _ hx)),
        List.all_cons]
      cases q a <;> rfl

/-- A set collected in insertion order has no element twice. -/
theorem nodup_eraseDups (l : List α) : l.eraseDups.Nodup := by
  induction hn : l.length using Nat.strong_induction_on generalizing l with
  | _ n ih =>
      cases l with
      | nil => exact List.nodup_nil
      | cons a l =>
          rw [List.eraseDups_cons, List.nodup_cons]
          have hle := List.length_filter_le (fun b => !b == a) l
          rw [List.length_cons] at hn
          exact ⟨by simp [List.mem_eraseDups], ih _ (by omega) _ rfl⟩

/-! ## Hash maps -/

/-- A hash map, whose order nothing depends on. -/
abbrev HMap (α β : Type) := α → Option β

/-- Insert a key with its value. -/
def HMap.insert (m : HMap α β) (key : α) (value : β) : HMap α β :=
  Function.update m key (some value)

/-- Remove a key. -/
def HMap.remove (m : HMap α β) (key : α) : HMap α β := Function.update m key none

namespace HMap

variable {m : HMap α β} {k v : α} {b b' : β}

@[simp] theorem insert_self : m.insert k b k = some b := Function.update_self _ _ _

theorem insert_of_ne (h : v ≠ k) : m.insert k b v = m v := Function.update_of_ne h _ _

theorem insert_eq_some_iff : m.insert k b v = some b' ↔ (v = k ∧ b' = b) ∨ (v ≠ k ∧ m v = some b') := by
  by_cases h : v = k
  · subst h
    simp [eq_comm]
  · simp [insert_of_ne h, h]

theorem remove_eq_some_iff : m.remove k v = some b ↔ v ≠ k ∧ m v = some b := by
  by_cases h : v = k
  · subst h
    simp [remove]
  · simp [remove, h]

/-- Inserting what a key has already changes nothing. -/
theorem insert_eq_self (h : m k = some b) : m.insert k b = m := Function.update_eq_self_iff.mpr h.symm

/-- The map collected from pairs; a later pair replaces an earlier one. -/
def ofList (l : List (α × β)) : HMap α β := l.foldl (fun m e => m.insert e.1 e.2) (fun _ => none)

theorem ofList_concat (l : List (α × β)) (k : α) (b : β) :
    ofList (l ++ [(k, b)]) = (ofList l).insert k b := by
  rw [ofList, List.foldl_append]
  rfl

/-- The map has no pair that is not in the list. -/
theorem mem_of_ofList {l : List (α × β)} (h : ofList l k = some b) : (k, b) ∈ l := by
  induction l using List.reverseRecOn with
  | nil => cases h
  | append_singleton l e ih =>
      rw [ofList_concat, insert_eq_some_iff] at h
      rcases h with ⟨rfl, rfl⟩ | ⟨-, h⟩
      · exact List.mem_append_right l (List.mem_singleton.mpr rfl)
      · exact List.mem_append_left [e] (ih h)

/-- With no key twice, the map has just the pairs of the list. -/
theorem ofList_eq_some_iff {l : List (α × β)} (h : (l.map Prod.fst).Nodup) :
    ofList l k = some b ↔ (k, b) ∈ l := by
  induction l using List.reverseRecOn with
  | nil => simp [ofList]
  | append_singleton l e ih =>
      obtain ⟨k', b'⟩ := e
      rw [List.map_append, List.nodup_append] at h
      rw [ofList_concat, List.mem_append, List.mem_singleton, Prod.mk.injEq]
      by_cases hk : k = k'
      · subst hk
        have hnot : (k, b) ∉ l := fun hm =>
          h.2.2 k (List.mem_map_of_mem hm) k (by simp) rfl
        simp [hnot, eq_comm]
      · rw [insert_of_ne hk, ih h.1]
        simp [hk]

end HMap

/-! ## Insertion-ordered maps -/

/-- An insertion-ordered map. -/
abbrev IMap (α β : Type) := List (α × β)

namespace IMap

/-- The value of a key. -/
def get? (m : IMap α β) (key : α) : Option β := (m.find? (fun e => e.1 = key)).map Prod.snd

/-- Apply a function to the value of a key. -/
def modify (m : IMap α β) (key : α) (f : β → β) : IMap α β :=
  m.map (fun e => if e.1 = key then (e.1, f e.2) else e)

/-- Insert a key with its value. -/
def insert (m : IMap α β) (key : α) (value : β) : IMap α β :=
  if (m.get? key).isSome then m.modify key (fun _ => value) else m ++ [(key, value)]

/-- Remove a key. -/
def remove (m : IMap α β) (key : α) : IMap α β := m.filter (fun e => e.1 ≠ key)

/-- The keys, in insertion order. -/
def keys (m : IMap α β) : List α := m.map Prod.fst

/-- Does the map have a value for this key? -/
def containsKey (m : IMap α β) (key : α) : Bool := (m.get? key).isSome

variable {m : IMap α β} {k v : α} {f : β → β} {b : β}

@[simp] theorem get?_nil : get? ([] : IMap α β) k = none := rfl

theorem get?_cons {e : α × β} : get? (e :: m) k = if e.1 = k then some e.2 else get? m k := by
  unfold get?
  by_cases h : e.1 = k <;> simp [h]

theorem get?_map (l : List α) (f : α → β) :
    get? (l.map (fun k => (k, f k))) v = if v ∈ l then some (f v) else none := by
  induction l with
  | nil => rfl
  | cons a l ih =>
      rw [List.map_cons, get?_cons, ih]
      by_cases hav : a = v
      · simp [hav]
      · simp [hav, Ne.symm hav]

theorem get?_append_singleton :
    get? (m ++ [(k, b)]) v = (get? m v).or (if k = v then some b else none) := by
  induction m with
  | nil => simp [get?_cons]
  | cons e m ih =>
      rw [List.cons_append, get?_cons, get?_cons, ih]
      split <;> rfl

theorem get?_modify :
    get? (m.modify k f) v = if k = v then (get? m v).map f else get? m v := by
  induction m with
  | nil => simp [modify]
  | cons e m ih =>
      unfold modify at ih ⊢
      rw [List.map_cons, get?_cons, get?_cons, ih]
      by_cases hek : e.1 = k
      · by_cases hkv : k = v <;> simp [hek, hkv]
      · by_cases hev : e.1 = v
        · have hkv : k ≠ v := fun hkv => hek (hev.trans hkv.symm)
          rw [if_neg hek, if_pos hev, if_pos hev, if_neg hkv]
        · simp [hek, hev]

theorem mem_keys_iff : v ∈ m.keys ↔ (get? m v).isSome := by
  induction m with
  | nil => simp [keys]
  | cons e m ih =>
      rw [get?_cons]
      unfold keys at ih ⊢
      by_cases hev : e.1 = v
      · simp [hev]
      · simp [hev, Ne.symm hev, ih]

theorem get?_of_mem (h : m.keys.Nodup) (hm : (k, b) ∈ m) : get? m k = some b := by
  induction m with
  | nil => exact absurd hm List.not_mem_nil
  | cons e m ih =>
      obtain ⟨hk, hnodup⟩ := List.nodup_cons.mp h
      rw [get?_cons]
      rcases List.mem_cons.mp hm with rfl | hm
      · rw [if_pos rfl]
      · have hne : e.1 ≠ k := by
          rintro rfl
          exact hk (List.mem_map.mpr ⟨(e.1, b), hm, rfl⟩)
        rw [if_neg hne]
        exact ih hnodup hm

@[simp] theorem keys_modify : (m.modify k f).keys = m.keys := by
  unfold keys modify
  rw [List.map_map]
  refine List.map_congr_left (fun e _ => ?_)
  simp only [Function.comp_apply]
  split <;> rfl

theorem insert_of_not_mem (h : k ∉ m.keys) : m.insert k b = m ++ [(k, b)] := by
  rw [mem_keys_iff] at h
  rw [insert, if_neg h]

theorem get?_insert : get? (m.insert k b) v = if k = v then some b else get? m v := by
  unfold insert
  split
  · next h =>
      rw [get?_modify]
      by_cases hkv : k = v
      · subst hkv
        obtain ⟨b', hb'⟩ := Option.isSome_iff_exists.mp h
        simp [hb']
      · simp [hkv]
  · next h =>
      rw [get?_append_singleton]
      by_cases hkv : k = v
      · subst hkv
        simp [Option.not_isSome_iff_eq_none.mp h]
      · simp [hkv]

theorem get?_filter (p : α → Bool) :
    get? (m.filter (fun e => p e.1)) v = if p v then get? m v else none := by
  induction m with
  | nil => simp
  | cons e m ih =>
      rw [List.filter_cons, get?_cons]
      by_cases hev : e.1 = v
      · rw [hev, if_pos rfl]
        by_cases hv : p v = true
        · rw [if_pos hv, if_pos hv, get?_cons, if_pos hev]
        · rw [if_neg hv, if_neg hv, ih, if_neg hv]
      · rw [if_neg hev]
        split
        · rw [get?_cons, if_neg hev, ih]
        · exact ih

theorem nodup_keys_insert (h : m.keys.Nodup) : (m.insert k b).keys.Nodup := by
  by_cases hk : k ∈ m.keys
  · rw [insert, if_pos (mem_keys_iff.mp hk), keys_modify]
    exact h
  · rw [insert_of_not_mem hk, keys, List.map_append, List.nodup_append]
    refine ⟨h, List.nodup_singleton k, fun a ha c hc => ?_⟩
    rintro rfl
    rw [List.map_singleton, List.mem_singleton] at hc
    exact hk (by rwa [hc] at ha)

end IMap

/-! ## Insertion-ordered sets -/

/-- An insertion-ordered set. -/
abbrev ISet (α : Type) := List α

namespace ISet

/-- Insert a value; a value that is there keeps its place. -/
def insert (s : ISet α) (value : α) : ISet α := if value ∈ s then s else s ++ [value]

/-- Insert values, in order. -/
def extend (s : ISet α) (values : List α) : ISet α := values.foldl insert s

variable {s : ISet α} {v w : α} {l : List α}

theorem mem_insert : w ∈ s.insert v ↔ w ∈ s ∨ w = v := by
  rw [insert]
  by_cases hv : v ∈ s
  · rw [if_pos hv]
    constructor
    · exact Or.inl
    · rintro (hw | rfl)
      · exact hw
      · exact hv
  · rw [if_neg hv, List.mem_append, List.mem_singleton]

theorem mem_extend : w ∈ s.extend l ↔ w ∈ s ∨ w ∈ l := by
  induction l generalizing s with
  | nil => simp [extend]
  | cons v l ih =>
      show w ∈ (s.insert v).extend l ↔ _
      rw [ih, mem_insert, List.mem_cons, or_assoc]

theorem nodup_extend (hs : s.Nodup) : (s.extend l).Nodup := by
  induction l generalizing s with
  | nil => exact hs
  | cons v l ih =>
      refine ih ?_
      rw [insert]
      by_cases hv : v ∈ s
      · rwa [if_pos hv]
      · rw [if_neg hv]
        exact List.nodup_append.mpr ⟨hs, List.nodup_singleton v, by
          intro a ha b hb heq
          rw [List.mem_singleton] at hb
          exact hv (hb ▸ heq ▸ ha)⟩

/-- What is there keeps its place. -/
theorem prefix_extend : s <+: s.extend l := by
  induction l generalizing s with
  | nil => exact List.prefix_rfl
  | cons v l ih =>
      refine List.IsPrefix.trans ?_ ih
      rw [insert]
      by_cases hv : v ∈ s
      · rw [if_pos hv]
      · rw [if_neg hv]
        exact List.prefix_append _ _

end ISet

end Pliron
