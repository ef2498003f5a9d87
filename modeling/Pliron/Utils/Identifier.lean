/-
  Pliron.Utils.Identifier

  Which texts are identifiers: what the parser accepts and what the legaliser makes.

  An identifier is ASCII, but both decide about letters with the Unicode tables of the standard
  library, which are a parameter here.
-/

import Pliron.Utils.Legaliser

namespace Pliron

/-! ## Characters -/

/-- The tables that say which characters beyond ASCII are letters, and which are numbers. -/
structure UnicodeTables where
  alphabetic : Char → Bool
  numeric : Char → Bool

namespace UnicodeTables

variable (u : UnicodeTables)

/-- `char::is_alphabetic`. -/
def isAlphabetic (c : Char) : Bool := c.isAlpha || (decide (127 < c.toNat) && u.alphabetic c)

/-- `char::is_alphanumeric`. -/
def isAlphanumeric (c : Char) : Bool :=
  c.isAlphanum || (decide (127 < c.toNat) && (u.alphabetic c || u.numeric c))

end UnicodeTables

/-- The first character of an identifier. -/
def isIdentStart (c : Char) : Bool := c.isAlpha || c == '_'

/-- Any other character of an identifier. -/
def isIdentChar (c : Char) : Bool := c.isAlphanum || c == '_'

theorem isValidIdentifier_cons (c : Char) (rest : List Char) :
    isValidIdentifier (String.ofList (c :: rest)) = (isIdentStart c && rest.all isIdentChar) := by
  rw [isValidIdentifier, String.toList_ofList]
  rfl

theorem isIdentChar_of_isIdentStart {c : Char} (h : isIdentStart c = true) :
    isIdentChar c = true := by
  rw [isIdentStart, Bool.or_eq_true] at h
  rw [isIdentChar, Bool.or_eq_true]
  refine h.imp (fun halpha => ?_) id
  rw [Char.isAlphanum, halpha, Bool.true_or]

/-! ## The parser -/

/-- How a run of the parser ends. -/
inductive IdentParse where
  | ok (id : String) (rest : List Char)
  | error
  | panicked
deriving DecidableEq, Repr

/-- Parse a letter or an underscore, and then letters, digits and underscores.  The text is converted
    to an identifier, which is expected not to fail. -/
def parseIdentifier (u : UnicodeTables) : List Char → IdentParse
  | [] => .error
  | c :: rest =>
    if u.isAlphabetic c || c == '_' then
      let more := rest.takeWhile (fun c => u.isAlphanumeric c || c == '_')
      let str := String.ofList (c :: more)
      if isValidIdentifier str then
        .ok str (rest.dropWhile (fun c => u.isAlphanumeric c || c == '_'))
      else .panicked
    else .error

/-- The longest prefix that is an identifier. -/
def identifierPrefix : List Char → IdentParse
  | [] => .error
  | c :: rest =>
    if isIdentStart c then
      .ok (String.ofList (c :: rest.takeWhile isIdentChar)) (rest.dropWhile isIdentChar)
    else .error

theorem isIdentStart_le {u : UnicodeTables} {c : Char} (h : isIdentStart c = true) :
    (u.isAlphabetic c || c == '_') = true := by
  rw [isIdentStart, Bool.or_eq_true] at h
  rw [UnicodeTables.isAlphabetic, Bool.or_eq_true, Bool.or_eq_true]
  exact h.imp Or.inl id

theorem isIdentChar_le {u : UnicodeTables} {c : Char} (h : isIdentChar c = true) :
    (u.isAlphanumeric c || c == '_') = true := by
  rw [isIdentChar, Bool.or_eq_true] at h
  rw [UnicodeTables.isAlphanumeric, Bool.or_eq_true, Bool.or_eq_true]
  exact h.imp Or.inl id

/-- Two classes of characters, one within the other, that stop at the same place: induction on the
    text. -/
theorem takeWhile_eq_of_stop {p q : Char → Bool} (hpq : ∀ c, p c = true → q c = true)
    (s : List Char) (h : ∀ c, (s.dropWhile p).head? = some c → q c = false) :
    s.takeWhile q = s.takeWhile p ∧ s.dropWhile q = s.dropWhile p := by
  induction s with
  | nil => exact ⟨rfl, rfl⟩
  | cons c rest ih =>
      by_cases hc : p c = true
      · rw [List.dropWhile_cons_of_pos hc] at h
        obtain ⟨htake, hdrop⟩ := ih h
        rw [List.takeWhile_cons_of_pos hc, List.takeWhile_cons_of_pos (hpq c hc), htake,
          List.dropWhile_cons_of_pos hc, List.dropWhile_cons_of_pos (hpq c hc), hdrop]
        exact ⟨rfl, rfl⟩
      · rw [List.dropWhile_cons_of_neg hc] at h
        have hq : ¬ q c = true := by
          rw [h c rfl]
          exact Bool.false_ne_true
        rw [List.takeWhile_cons_of_neg hc, List.takeWhile_cons_of_neg hq,
          List.dropWhile_cons_of_neg hc, List.dropWhile_cons_of_neg hq]
        exact ⟨rfl, rfl⟩

/-- Where the larger class goes on, it takes a character that is not in the smaller one. -/
theorem not_all_takeWhile {p q : Char → Bool} (hpq : ∀ c, p c = true → q c = true)
    (s : List Char) {c : Char} (hc : (s.dropWhile p).head? = some c) (hq : q c = true) :
    (s.takeWhile q).all p = false := by
  induction s with
  | nil => exact nomatch hc
  | cons d rest ih =>
      by_cases hd : p d = true
      · rw [List.dropWhile_cons_of_pos hd] at hc
        rw [List.takeWhile_cons_of_pos (hpq d hd), List.all_cons, ih hc, Bool.and_false]
      · rw [List.dropWhile_cons_of_neg hd] at hc
        obtain rfl := Option.some.inj hc
        rw [List.takeWhile_cons_of_pos hq, List.all_cons, Bool.eq_false_iff.mpr hd, Bool.false_and]

/-- The parser accepts the longest identifier, and does not panic, exactly when neither the first
    character nor the one after that identifier is a letter or a number beyond ASCII. -/
theorem parseIdentifier_iff (u : UnicodeTables) (s : List Char) :
    parseIdentifier u s = identifierPrefix s ↔
      ∀ c rest, s = c :: rest →
        (isIdentStart c = false → u.isAlphabetic c = false) ∧
          (isIdentStart c = true → ∀ d, (rest.dropWhile isIdentChar).head? = some d →
            u.isAlphanumeric d = false) := by
  cases s with
  | nil => exact ⟨fun _ _ _ h => (nomatch h), fun _ => rfl⟩
  | cons c rest =>
      have hall : (∀ c' rest', c :: rest = c' :: rest' →
          (isIdentStart c' = false → u.isAlphabetic c' = false) ∧
            (isIdentStart c' = true → ∀ d, (rest'.dropWhile isIdentChar).head? = some d →
              u.isAlphanumeric d = false)) ↔
          (isIdentStart c = false → u.isAlphabetic c = false) ∧
            (isIdentStart c = true → ∀ d, (rest.dropWhile isIdentChar).head? = some d →
              u.isAlphanumeric d = false) := by
        constructor
        · exact fun h => h c rest rfl
        · rintro h c' rest' heq
          obtain ⟨rfl, rfl⟩ := List.cons.inj heq
          exact h
      rw [hall, parseIdentifier, identifierPrefix]
      by_cases hc : isIdentStart c = true
      · rw [if_pos (isIdentStart_le hc), if_pos hc]
        dsimp only
        by_cases hstop : ∀ d, (rest.dropWhile isIdentChar).head? = some d →
            (u.isAlphanumeric d || d == '_') = false
        · -- no letter beyond ASCII follows, so the source takes the same characters
          obtain ⟨htake, hdrop⟩ := takeWhile_eq_of_stop
            (q := fun d => u.isAlphanumeric d || d == '_') (fun _ => isIdentChar_le) rest hstop
          have hvalid : isValidIdentifier (String.ofList (c :: rest.takeWhile isIdentChar)) =
              true := by
            rw [isValidIdentifier_cons, hc, List.all_takeWhile, Bool.and_true]
          rw [htake, hdrop, if_pos hvalid]
          refine iff_of_true rfl ⟨fun h => (nomatch h.symm.trans hc), fun _ d hd => ?_⟩
          exact (Bool.or_eq_false_iff.mp (hstop d hd)).1
        · -- the source takes a letter that no identifier has, and then refuses the text
          push Not at hstop
          obtain ⟨d, hd, hq⟩ := hstop
          rw [Bool.ne_false_iff] at hq
          have hvalid : ¬ isValidIdentifier (String.ofList (c :: rest.takeWhile
              fun d => u.isAlphanumeric d || d == '_')) = true := by
            rw [isValidIdentifier_cons,
              not_all_takeWhile (fun _ => isIdentChar_le) rest hd hq, Bool.and_false]
            exact Bool.false_ne_true
          rw [if_neg hvalid]
          refine iff_of_false nofun fun h => ?_
          have hnot := List.head?_dropWhile_not isIdentChar rest
          rw [hd] at hnot
          have hunder : (d == '_') = false := (Bool.or_eq_false_iff.mp hnot).2
          rw [h.2 hc d hd, hunder] at hq
          exact nomatch hq
      · have hc' := Bool.eq_false_iff.mpr hc
        rw [if_neg hc]
        -- the same for the first character: the source takes any letter
        by_cases hu : u.isAlphabetic c = true
        · have hvalid : ¬ isValidIdentifier (String.ofList (c :: rest.takeWhile
              fun d => u.isAlphanumeric d || d == '_')) = true := by
            rw [isValidIdentifier_cons, hc', Bool.false_and]
            exact Bool.false_ne_true
          have hletter : (u.isAlphabetic c || c == '_') = true := by
            rw [hu, Bool.true_or]
          rw [if_pos hletter]
          dsimp only
          rw [if_neg hvalid]
          exact iff_of_false nofun fun h => nomatch (h.1 hc').symm.trans hu
        · have hu' := Bool.eq_false_iff.mpr hu
          have hletter : ¬ (u.isAlphabetic c || c == '_') = true := by
            rw [hu', (Bool.or_eq_false_iff.mp hc').2]
            exact Bool.false_ne_true
          rw [if_neg hletter]
          exact iff_of_true rfl ⟨fun _ => hu', fun h => absurd h hc⟩

/-- A single letter beyond ASCII is taken, and is no identifier. -/
theorem parseIdentifier_panics :
    parseIdentifier ⟨fun c => c == 'é', fun _ => false⟩ ['é'] = .panicked ∧
      identifierPrefix ['é'] = .error := by
  decide +kernel

end Pliron
