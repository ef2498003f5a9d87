/-
  Pliron.Utils.Legaliser

  Identifiers for names, without collisions.

  `Legaliser.legalise` remembers which name got which identifier, and appends counters until an
  identifier is not taken.  Which characters are alphabetic, beyond ASCII, is a parameter.
-/

import Pliron.Utils.Table

namespace Pliron

/-- Does a string satisfy `[a-zA-Z_][a-zA-Z0-9_]*`? -/
def isValidIdentifier (s : String) : Bool :=
  match s.toList with
  | [] => false
  | c :: rest => (c.isAlpha || c == '_') && rest.all (fun c => c.isAlphanum || c == '_')

/-- The maps between source names and identifiers. -/
structure Legaliser where
  strToId : HMap String String := fun _ => none
  revStrToId : IMap String String := []
  counter : Nat := 0

namespace Legaliser

variable (isAlphabetic : Char → Bool)

/-- Replace illegal characters with underscores. -/
def replaceIllegalChars (name : String) : String :=
  if isValidIdentifier name then name
  else
    match name.toList with
    | [] => "_"
    | first :: rest =>
      String.ofList ((if isAlphabetic first then first else '_') ::
        rest.map (fun c => if c.isAlphanum then c else '_'))

/-- The name with the counter appended. -/
def suffixed (legalName : String) (counter : Nat) : String :=
  legalName ++ "_" ++ Nat.repr counter

/-- Append counters until the identifier is not taken.  There are at most as many attempts as the
    first argument says. -/
def makeUnique (revStrToId : IMap String String) (legalName : String) :
    Nat → String → Nat → String × Nat
  | 0, unique, counter => (unique, counter)
  | fuel + 1, unique, counter =>
    if revStrToId.containsKey unique then
      makeUnique revStrToId legalName fuel (suffixed legalName counter) (counter + 1)
    else (unique, counter)

/-- Get a legal identifier for a name. -/
def legalise (l : Legaliser) (name : String) : String × Legaliser :=
  match l.strToId name with
  | some id => (id, l)
  | none =>
    let legalName := replaceIllegalChars isAlphabetic name
    let (unique, counter) :=
      makeUnique l.revStrToId legalName (l.revStrToId.length + 1) legalName l.counter
    (unique, ⟨l.strToId.insert name unique, l.revStrToId.insert unique name, counter⟩)

/-- Legalise names in order. -/
def legaliseAll (l : Legaliser) (names : List String) : Legaliser :=
  names.foldl (fun l name => (l.legalise isAlphabetic name).2) l

/-! ## Fresh identifiers -/

theorem repr_inj {i j : Nat} (h : Nat.repr i = Nat.repr j) : i = j := by
  have hdigits : Nat.toDigits 10 i = Nat.toDigits 10 j := String.ofList_injective h
  rw [← Nat.ofDigitChars_ten_toDigits (n := i), hdigits, Nat.ofDigitChars_ten_toDigits]

theorem suffixed_inj {legalName : String} {i j : Nat}
    (h : suffixed legalName i = suffixed legalName j) : i = j := by
  unfold suffixed at h
  exact repr_inj ((String.append_right_inj _).mp h)

theorem suffixed_ne {legalName : String} {i : Nat} : suffixed legalName i ≠ legalName := by
  intro h
  have hlen := congrArg String.length h
  simp only [suffixed, String.length_append] at hlen
  have hone : "_".length = 1 := rfl
  omega

/-- The attempts differ, so that with more of them than identifiers are taken, the result is not
    taken: induction on the attempts that are left, `tried` being those that were taken. -/
theorem makeUnique_fresh {revStrToId : IMap String String} {legalName : String} (fuel : Nat)
    {unique : String} {counter : Nat} {tried : List String} (hnodup : tried.Nodup)
    (htaken : ∀ s ∈ tried, s ∈ revStrToId.keys) (hnew : unique ∉ tried)
    (hlater : ∀ i, counter ≤ i → suffixed legalName i ∉ unique :: tried)
    (hfuel : revStrToId.length < tried.length + fuel) :
    (makeUnique revStrToId legalName fuel unique counter).1 ∉ revStrToId.keys := by
  induction fuel generalizing unique counter tried with
  | zero =>
      have hle : tried.length ≤ revStrToId.keys.length := (hnodup.subperm htaken).length_le
      rw [IMap.keys, List.length_map] at hle
      omega
  | succ fuel ih =>
      unfold makeUnique
      by_cases hmem : revStrToId.containsKey unique = true
      · rw [if_pos hmem]
        refine ih (List.nodup_cons.mpr ⟨hnew, hnodup⟩) ?_ (hlater counter le_rfl) ?_ ?_
        · intro s hs
          rcases List.mem_cons.mp hs with rfl | hs
          · exact IMap.mem_keys_iff.mpr hmem
          · exact htaken s hs
        · intro i hi hs
          rcases List.mem_cons.mp hs with heq | hs
          · have := suffixed_inj heq
            omega
          · exact hlater i (by omega) hs
        · rw [List.length_cons]
          omega
      · rw [if_neg hmem]
        exact fun hkey => hmem (IMap.mem_keys_iff.mp hkey)

theorem makeUnique_not_mem (revStrToId : IMap String String) (legalName : String) (counter : Nat) :
    (makeUnique revStrToId legalName (revStrToId.length + 1) legalName counter).1 ∉
      revStrToId.keys := by
  refine makeUnique_fresh _ List.nodup_nil nofun List.not_mem_nil (fun i _ hmem => ?_) (by simp)
  exact suffixed_ne (List.mem_singleton.mp hmem)

/-! ## No collisions -/

/-- The two maps are each other's inverse. -/
def Consistent (l : Legaliser) : Prop :=
  ∀ name id, l.strToId name = some id ↔ l.revStrToId.get? id = some name

/-- What one legaliser knows, the other knows too. -/
def Extends (l l' : Legaliser) : Prop :=
  ∀ name id, l.strToId name = some id → l'.strToId name = some id

variable {isAlphabetic} {l l' : Legaliser} {name : String} {names : List String}

theorem consistent_default : Consistent {} := fun _ _ => ⟨nofun, nofun⟩

/-- Different names have different identifiers. -/
theorem Consistent.inj {name' id : String} (h : l.Consistent) (hid : l.strToId name = some id)
    (hid' : l.strToId name' = some id) : name = name' :=
  Option.some.inj (((h name id).mp hid).symm.trans ((h name' id).mp hid'))

theorem Extends.refl (l : Legaliser) : l.Extends l := fun _ _ h => h

theorem Extends.trans {l'' : Legaliser} (h : l.Extends l') (h' : l'.Extends l'') : l.Extends l'' :=
  fun name id hid => h' name id (h name id hid)

/-- A name that has its identifier already changes nothing. -/
theorem legalise_of_known {id : String} (hid : l.strToId name = some id) :
    l.legalise isAlphabetic name = (id, l) := by
  unfold legalise
  rw [hid]

/-- The name has its identifier afterwards, and all others keep theirs. -/
theorem legalise_spec (isAlphabetic : Char → Bool) (name : String) (h : l.Consistent) :
    (l.legalise isAlphabetic name).2.Consistent ∧ l.Extends (l.legalise isAlphabetic name).2 ∧
      (l.legalise isAlphabetic name).2.strToId name = some (l.legalise isAlphabetic name).1 := by
  match hname : l.strToId name with
  | some id =>
      rw [legalise_of_known hname]
      exact ⟨h, Extends.refl l, hname⟩
  | none =>
      have hfresh := makeUnique_not_mem l.revStrToId (replaceIllegalChars isAlphabetic name) l.counter
      unfold legalise
      rw [hname]
      dsimp only
      generalize (makeUnique l.revStrToId (replaceIllegalChars isAlphabetic name)
        (l.revStrToId.length + 1) (replaceIllegalChars isAlphabetic name) l.counter).1 = unique at *
      have hnone : l.revStrToId.get? unique = none := by
        rw [IMap.mem_keys_iff, Bool.not_eq_true, Option.isSome_eq_false_iff,
          Option.isNone_iff_eq_none] at hfresh
        exact hfresh
      refine ⟨fun name' id => ?_, fun name' id hid => ?_, HMap.insert_self⟩
      · show l.strToId.insert name unique name' = some id ↔
          (l.revStrToId.insert unique name).get? id = some name'
        rw [HMap.insert_eq_some_iff, IMap.get?_insert]
        by_cases hid : unique = id
        · subst hid
          rw [if_pos rfl, Option.some.injEq]
          constructor
          · rintro (⟨rfl, -⟩ | ⟨-, hname'⟩)
            · rfl
            · rw [h, hnone] at hname'
              exact nomatch hname'
          · rintro rfl
            exact Or.inl ⟨rfl, rfl⟩
        · rw [if_neg hid, ← h]
          constructor
          · rintro (⟨-, rfl⟩ | ⟨-, hname'⟩)
            · exact absurd rfl hid
            · exact hname'
          · intro hname'
            refine Or.inr ⟨?_, hname'⟩
            rintro rfl
            rw [hname] at hname'
            exact nomatch hname'
      · have hne : name' ≠ name := by
          rintro rfl
          rw [hname] at hid
          exact nomatch hid
        exact (HMap.insert_of_ne hne).trans hid

theorem legaliseAll_append (l : Legaliser) (names names' : List String) :
    l.legaliseAll isAlphabetic (names ++ names') =
      (l.legaliseAll isAlphabetic names).legaliseAll isAlphabetic names' :=
  List.foldl_append ..

/-- Names in order: induction on the names. -/
theorem legaliseAll_spec (isAlphabetic : Char → Bool) (names : List String) (h : l.Consistent) :
    (l.legaliseAll isAlphabetic names).Consistent ∧
      l.Extends (l.legaliseAll isAlphabetic names) ∧
      ∀ name ∈ names, ∃ id, (l.legaliseAll isAlphabetic names).strToId name = some id := by
  induction names generalizing l with
  | nil => exact ⟨h, Extends.refl l, nofun⟩
  | cons name names ih =>
      obtain ⟨hcons, hext, hid⟩ := legalise_spec isAlphabetic name h
      obtain ⟨hcons', hext', hids⟩ := ih hcons
      refine ⟨hcons', hext.trans hext', fun name' hname' => ?_⟩
      rcases List.mem_cons.mp hname' with rfl | hname'
      · exact ⟨_, hext' _ _ hid⟩
      · exact hids name' hname'

/-- Names that have their identifiers already change nothing. -/
theorem legaliseAll_of_known (h : ∀ name ∈ names, ∃ id, l.strToId name = some id) :
    l.legaliseAll isAlphabetic names = l := by
  induction names with
  | nil => rfl
  | cons name names ih =>
      obtain ⟨id, hid⟩ := h name List.mem_cons_self
      show (l.legalise isAlphabetic name).2.legaliseAll isAlphabetic names = l
      rw [legalise_of_known hid]
      exact ih fun name' hname' => h name' (List.mem_cons_of_mem _ hname')

end Legaliser

end Pliron
