/-
  Pliron.Utils.LegaliserCorrect

  What a sequence of calls of `Legaliser.legalise` gives.

  Different names get different identifiers, and each leads back to its name.  The identifiers are
  valid except for names that start with a letter beyond ASCII: that letter is kept.
-/

import Pliron.Utils.Identifier

namespace Pliron

namespace Legaliser

/-- Get the source name of an identifier. -/
def sourceName (l : Legaliser) (id : String) : Option String := l.revStrToId.get? id

/-- Legalise names in order, with the identifier of each. -/
def legaliseEach (isAlphabetic : Char → Bool) (l : Legaliser) :
    List String → List String × Legaliser
  | [] => ([], l)
  | name :: names =>
    let (id, l) := l.legalise isAlphabetic name
    let (ids, l) := legaliseEach isAlphabetic l names
    (id :: ids, l)

/-- The search for a free identifier ends: after some number of attempts the identifier is not
    taken, and more attempts change nothing. -/
def SearchEnds (isAlphabetic : Char → Bool) (l : Legaliser) (name : String) : Prop :=
  ∃ attempts, ∀ fuel ≥ attempts,
    (makeUnique l.revStrToId (replaceIllegalChars isAlphabetic name) fuel
      (replaceIllegalChars isAlphabetic name) l.counter).1 ∉ l.revStrToId.keys ∧
    makeUnique l.revStrToId (replaceIllegalChars isAlphabetic name) fuel
      (replaceIllegalChars isAlphabetic name) l.counter =
    makeUnique l.revStrToId (replaceIllegalChars isAlphabetic name) attempts
      (replaceIllegalChars isAlphabetic name) l.counter

variable {isAlphabetic : Char → Bool} {l : Legaliser} {name : String} {names : List String}

theorem legaliseEach_length : (legaliseEach isAlphabetic l names).1.length = names.length := by
  induction names generalizing l with
  | nil => rfl
  | cons name names ih => exact congrArg (· + 1) ih

theorem legaliseEach_snd :
    (legaliseEach isAlphabetic l names).2 = l.legaliseAll isAlphabetic names := by
  induction names generalizing l with
  | nil => rfl
  | cons name names ih => exact ih

/-- Each name has its identifier in the end: induction on the names. -/
theorem legaliseEach_known (h : l.Consistent) {p : String × String}
    (hp : p ∈ names.zip (legaliseEach isAlphabetic l names).1) :
    (l.legaliseAll isAlphabetic names).strToId p.1 = some p.2 := by
  induction names generalizing l with
  | nil => exact nomatch hp
  | cons name names ih =>
      obtain ⟨hcons, -, hid⟩ := legalise_spec isAlphabetic name h
      rcases List.mem_cons.mp hp with rfl | hp
      · exact (legaliseAll_spec isAlphabetic names hcons).2.1 _ _ hid
      · exact ih hcons hp

/-- Once the identifier is not taken, more attempts change nothing: induction on the attempts. -/
theorem makeUnique_of_not_mem {revStrToId : IMap String String} {legalName : String}
    {attempts fuel : Nat} (hle : attempts ≤ fuel) {unique : String} {counter : Nat}
    (h : (makeUnique revStrToId legalName attempts unique counter).1 ∉ revStrToId.keys) :
    makeUnique revStrToId legalName fuel unique counter =
      makeUnique revStrToId legalName attempts unique counter := by
  induction attempts generalizing fuel unique counter with
  | zero =>
      have hmem : ¬ revStrToId.containsKey unique = true := fun hmem => h (IMap.mem_keys_iff.mpr hmem)
      cases fuel with
      | zero => rfl
      | succ fuel => exact if_neg hmem
  | succ attempts ih =>
      obtain ⟨fuel, rfl⟩ := Nat.exists_eq_add_of_lt (show 0 < fuel by omega)
      rw [Nat.zero_add] at hle ⊢
      rw [makeUnique] at h ⊢
      rw [makeUnique]
      by_cases hmem : revStrToId.containsKey unique = true
      · rw [if_pos hmem] at h ⊢
        rw [if_pos hmem]
        exact ih (by omega) h
      · rw [if_neg hmem, if_neg hmem]

theorem searchEnds (isAlphabetic : Char → Bool) (l : Legaliser) (name : String) :
    SearchEnds isAlphabetic l name := by
  have hfree := makeUnique_not_mem l.revStrToId (replaceIllegalChars isAlphabetic name) l.counter
  refine ⟨l.revStrToId.length + 1, fun fuel hfuel => ?_⟩
  have heq := makeUnique_of_not_mem hfuel hfree
  exact ⟨heq ▸ hfree, heq⟩

/-! ## Valid identifiers -/

/-- An identifier made of a legal name: the name itself, or the name with a counter. -/
def MadeOf (legalName id : String) : Prop := id = legalName ∨ ∃ i, id = suffixed legalName i

theorem makeUnique_madeOf {revStrToId : IMap String String} {legalName : String} (fuel : Nat)
    {unique : String} {counter : Nat} (h : MadeOf legalName unique) :
    MadeOf legalName (makeUnique revStrToId legalName fuel unique counter).1 := by
  induction fuel generalizing unique counter with
  | zero => exact h
  | succ fuel ih =>
      rw [makeUnique]
      by_cases hmem : revStrToId.containsKey unique = true
      · rw [if_pos hmem]
        exact ih (Or.inr ⟨counter, rfl⟩)
      · rw [if_neg hmem]
        exact h

/-- Every identifier of the legaliser is made of its cleaned name. -/
def AllMade (isAlphabetic : Char → Bool) (l : Legaliser) : Prop :=
  ∀ name id, l.strToId name = some id → MadeOf (replaceIllegalChars isAlphabetic name) id

theorem allMade_legalise (h : AllMade isAlphabetic l) (name : String) :
    AllMade isAlphabetic (l.legalise isAlphabetic name).2 := by
  match hname : l.strToId name with
  | some id =>
      rw [legalise_of_known hname]
      exact h
  | none =>
      unfold legalise
      rw [hname]
      intro name' id hid
      rcases HMap.insert_eq_some_iff.mp hid with ⟨rfl, rfl⟩ | ⟨-, hid⟩
      · exact makeUnique_madeOf _ (Or.inl rfl)
      · exact h name' id hid

theorem allMade_legaliseAll (h : AllMade isAlphabetic l) (names : List String) :
    AllMade isAlphabetic (l.legaliseAll isAlphabetic names) := by
  induction names generalizing l with
  | nil => exact h
  | cons name names ih => exact ih (allMade_legalise h name)

theorem exists_of_isValidIdentifier {s : String} (h : isValidIdentifier s = true) :
    ∃ c rest, s = String.ofList (c :: rest) := by
  cases hs : s.toList with
  | nil =>
      rw [isValidIdentifier, hs] at h
      cases h
  | cons c rest => exact ⟨c, rest, by rw [← hs, String.ofList_toList]⟩

/-- The counter has only digits. -/
theorem all_repr (i : Nat) : (Nat.repr i).toList.all isIdentChar = true := by
  rw [Nat.repr, String.toList_ofList, List.all_eq_true]
  intro c hc
  have hdigit : c.isDigit = true := Nat.isDigit_of_mem_toDigits (by decide) (by decide) hc
  rw [isIdentChar, Char.isAlphanum, hdigit, Bool.or_true, Bool.true_or]

theorem isValidIdentifier_suffixed {c : Char} {rest : List Char} (i : Nat) :
    isValidIdentifier (suffixed (String.ofList (c :: rest)) i) =
      isValidIdentifier (String.ofList (c :: rest)) := by
  have heq : suffixed (String.ofList (c :: rest)) i =
      String.ofList (c :: (rest ++ '_' :: (Nat.repr i).toList)) := by
    apply String.toList_inj.mp
    rw [suffixed, String.toList_append, String.toList_append, String.toList_ofList,
      String.toList_ofList]
    simp
  have hunder : isIdentChar '_' = true := rfl
  rw [heq, isValidIdentifier_cons, isValidIdentifier_cons, List.all_append, List.all_cons, hunder,
    all_repr, Bool.and_true, Bool.and_true]

/-- A cleaned name is no identifier only when it starts with a letter that is none of ASCII. -/
theorem replaceIllegalChars_spec (u : UnicodeTables) (name : String) :
    ∃ c rest, replaceIllegalChars u.isAlphabetic name = String.ofList (c :: rest) ∧
      (isValidIdentifier (String.ofList (c :: rest)) = true ↔
        ∀ d, name.toList.head? = some d → u.isAlphabetic d = true → d.isAlpha = true) := by
  unfold replaceIllegalChars
  by_cases hvalid : isValidIdentifier name = true
  · rw [if_pos hvalid]
    obtain ⟨c, rest, rfl⟩ := exists_of_isValidIdentifier hvalid
    refine ⟨c, rest, rfl, iff_of_true hvalid fun d hd hletter => ?_⟩
    rw [String.toList_ofList] at hd
    obtain rfl := Option.some.inj hd
    rw [isValidIdentifier_cons, Bool.and_eq_true, isIdentStart, Bool.or_eq_true] at hvalid
    rcases hvalid.1 with halpha | hunder
    · exact halpha
    · rw [beq_iff_eq.mp hunder, UnicodeTables.isAlphabetic] at hletter
      cases hletter
  · rw [if_neg hvalid]
    cases hname : name.toList with
    | nil => exact ⟨'_', [], rfl, iff_of_true rfl fun d hd => by cases hd⟩
    | cons d more =>
        have hall : (more.map (fun c => if c.isAlphanum then c else '_')).all isIdentChar = true := by
          rw [List.all_map, List.all_eq_true]
          intro c _
          show isIdentChar (if c.isAlphanum then c else '_') = true
          by_cases hc : c.isAlphanum = true
          · rw [if_pos hc, isIdentChar, hc, Bool.true_or]
          · rw [if_neg hc]
            rfl
        refine ⟨_, _, rfl, ?_⟩
        rw [isValidIdentifier_cons, hall, Bool.and_true]
        have hhead : (∀ d', (d :: more).head? = some d' → u.isAlphabetic d' = true →
            d'.isAlpha = true) ↔ (u.isAlphabetic d = true → d.isAlpha = true) := by
          constructor
          · exact fun h => h d rfl
          · rintro h d' hd'
            obtain rfl := Option.some.inj hd'
            exact h
        rw [hhead]
        by_cases hletter : u.isAlphabetic d = true
        · rw [if_pos hletter, isIdentStart, Bool.or_eq_true]
          constructor
          · rintro (halpha | hunder)
            · exact fun _ => halpha
            · rw [beq_iff_eq.mp hunder, UnicodeTables.isAlphabetic] at hletter
              cases hletter
          · exact fun h => Or.inl (h hletter)
        · rw [if_neg hletter]
          exact iff_of_true rfl fun h => absurd h hletter

/-- An identifier made of a name is valid if the name does not start with a letter beyond ASCII. -/
theorem MadeOf.valid_iff {u : UnicodeTables} {id : String}
    (h : MadeOf (replaceIllegalChars u.isAlphabetic name) id) :
    isValidIdentifier id = true ↔
      ∀ d, name.toList.head? = some d → u.isAlphabetic d = true → d.isAlpha = true := by
  obtain ⟨c, rest, heq, hiff⟩ := replaceIllegalChars_spec u name
  rw [heq] at h
  rw [← hiff]
  rcases h with rfl | ⟨i, rfl⟩
  · rfl
  · rw [isValidIdentifier_suffixed]

/-! ## A sequence of calls -/

/-- The identifiers are valid, the same for the same names and no others, and lead back to the names;
    and every search ends. -/
structure GoodNames (isAlphabetic : Char → Bool) (names : List String) : Prop where
  length : (legaliseEach isAlphabetic {} names).1.length = names.length
  valid : ∀ id ∈ (legaliseEach isAlphabetic {} names).1, isValidIdentifier id = true
  injective : ∀ p ∈ names.zip (legaliseEach isAlphabetic {} names).1,
    ∀ q ∈ names.zip (legaliseEach isAlphabetic {} names).1, p.1 = q.1 ↔ p.2 = q.2
  source : ∀ p ∈ names.zip (legaliseEach isAlphabetic {} names).1,
    (legaliseEach isAlphabetic {} names).2.sourceName p.2 = some p.1
  search : ∀ before name after, names = before ++ name :: after →
    SearchEnds isAlphabetic (legaliseEach isAlphabetic {} before).2 name

/-- Everything holds of every sequence of names exactly when no name starts with a letter beyond
    ASCII. -/
theorem goodNames_iff (u : UnicodeTables) (names : List String) :
    GoodNames u.isAlphabetic names ↔ ∀ name ∈ names, ∀ c, name.toList.head? = some c →
      u.isAlphabetic c = true → c.isAlpha = true := by
  have hcons := legaliseAll_spec u.isAlphabetic names consistent_default
  have hmade : AllMade u.isAlphabetic (({} : Legaliser).legaliseAll u.isAlphabetic names) :=
    allMade_legaliseAll (fun _ _ hid => absurd hid.symm (Option.some_ne_none _)) names
  -- an identifier is valid when its first character is one that identifiers may begin with
  have hvalid : ∀ p ∈ names.zip (legaliseEach u.isAlphabetic {} names).1,
      (isValidIdentifier p.2 = true ↔ ∀ c, p.1.toList.head? = some c →
        u.isAlphabetic c = true → c.isAlpha = true) :=
    fun p hp => (hmade _ _ (legaliseEach_known consistent_default hp)).valid_iff
  constructor
  · intro h name hname
    obtain ⟨i, hi, rfl⟩ := List.getElem_of_mem hname
    have hi' : i < (legaliseEach u.isAlphabetic {} names).1.length := h.length ▸ hi
    have hp : (names[i], (legaliseEach u.isAlphabetic {} names).1[i]) ∈
        names.zip (legaliseEach u.isAlphabetic {} names).1 :=
      List.mem_iff_getElem.mpr ⟨i, by rw [List.length_zip]; omega, List.getElem_zip⟩
    exact (hvalid _ hp).mp (h.valid _ (List.getElem_mem hi'))
  · intro h
    refine ⟨legaliseEach_length, fun id hid => ?_, fun p hp q hq => ?_, fun p hp => ?_,
      fun _ _ _ _ => searchEnds _ _ _⟩
    · obtain ⟨i, hi, rfl⟩ := List.getElem_of_mem hid
      have hi' : i < names.length := legaliseEach_length (l := {}) ▸ hi
      have hp : (names[i], (legaliseEach u.isAlphabetic {} names).1[i]) ∈
          names.zip (legaliseEach u.isAlphabetic {} names).1 :=
        List.mem_iff_getElem.mpr ⟨i, by rw [List.length_zip]; omega, List.getElem_zip⟩
      exact (hvalid _ hp).mpr (h _ (List.getElem_mem hi'))
    · have hp' := legaliseEach_known consistent_default hp
      have hq' := legaliseEach_known consistent_default hq
      -- equal names get the identifier that is remembered for them
      constructor
      · intro heq
        rw [heq, hq'] at hp'
        exact (Option.some.inj hp').symm
      · intro heq
        rw [heq] at hp'
        exact hcons.1.inj hp' hq'
    · rw [sourceName, legaliseEach_snd]
      exact (hcons.1 _ _).mp (legaliseEach_known consistent_default hp)

/-- A letter beyond ASCII at the start of a name is kept, and the result is no identifier. -/
theorem not_goodNames_letter : ¬ GoodNames (UnicodeTables.isAlphabetic
    ⟨fun c => c == 'é', fun _ => false⟩) ["é."] := by
  intro h
  exact absurd (h.valid "é_" (by decide +kernel)) (by decide +kernel)

end Legaliser

end Pliron
