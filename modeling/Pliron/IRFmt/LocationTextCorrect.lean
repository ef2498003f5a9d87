/-
  Pliron.IRFmt.LocationTextCorrect

  Locations parse back from their text.
-/

import Mathlib.Data.List.TakeWhile
import Pliron.IRFmt.LocationText

namespace Pliron.Text

open Pliron.Lib.Combine Pliron.Lib.Combine.Parser

variable {Attr : Type}

/-! ## White space -/

/-- The text does not begin with white space. -/
def NoSpace (s : List Char) : Prop := ∀ c ∈ s.head?, isWhitespace c = false

/-- The text does not begin with a digit. -/
def NoDigit (s : List Char) : Prop := ∀ c ∈ s.head?, c.isDigit = false

section Spaces

variable {A : Type} {p : TextParser A} {a : A} {s rest : List Char}

theorem dropWhile_of_noSpace (h : NoSpace s) : s.dropWhile isWhitespace = s := by
  cases s with
  | nil => rfl
  | cons c s => rw [List.dropWhile_cons, h c rfl, if_neg Bool.false_ne_true]

theorem noSpace_dropWhile (s : List Char) : NoSpace (s.dropWhile isWhitespace) := by
  induction s with
  | nil => exact nofun
  | cons c s ih =>
      rw [List.dropWhile_cons]
      by_cases h : isWhitespace c = true
      · rw [if_pos h]
        exact ih
      · rw [if_neg h]
        intro c' hc'
        rw [← Option.some.inj hc']
        exact Bool.eq_false_of_not_eq_true h

theorem reads_spaces (s : List Char) :
    Reads spaces s (s.takeWhile isWhitespace) (s.dropWhile isWhitespace) := by
  have hread : Reads spaces (s.takeWhile isWhitespace ++ s.dropWhile isWhitespace)
      (s.takeWhile isWhitespace) (s.dropWhile isWhitespace) :=
    Reads.many_satisfy _ (fun c hc => List.mem_takeWhile_imp hc) (noSpace_dropWhile s)
  rwa [List.takeWhile_append_dropWhile] at hread

theorem reads_spaced (h : Reads p (s.dropWhile isWhitespace) a rest) :
    Reads (spaced p) s a (rest.dropWhile isWhitespace) :=
  ((reads_spaces s).withRight h).skip (reads_spaces rest)

/-- White space is skipped where there is none. -/
theorem reads_skip_spaces (h : Reads p s a rest) (hrest : NoSpace rest) :
    Reads (p.skip spaces) s a rest := by
  have hskip := h.skip (reads_spaces rest)
  rwa [dropWhile_of_noSpace hrest] at hskip

/-- Punctuation that is followed by a space. -/
theorem reads_punctuation {c : Char} (hc : isWhitespace c = false) (h : NoSpace rest) :
    Reads (spaced (char c)) (c :: ' ' :: rest) c rest := by
  have hdrop : (c :: ' ' :: rest).dropWhile isWhitespace = c :: ' ' :: rest :=
    dropWhile_of_noSpace (fun c' hc' => by rw [← Option.some.inj hc']; exact hc)
  have hspace : (' ' :: rest).dropWhile isWhitespace = rest := dropWhile_of_noSpace h
  have hread := reads_spaced (p := char c) (s := c :: ' ' :: rest) (by
    rw [hdrop]
    exact Reads.token)
  rwa [hspace] at hread

end Spaces

/-! ## Numbers -/

section Numbers

variable {n : Nat} {i : Int} {rest : List Char}

theorem isDigit_of_mem {c : Char} (h : c ∈ Nat.toDigits 10 n) : c.isDigit = true :=
  Nat.isDigit_of_mem_toDigits (by decide) (by decide) h

/-- The digits of a number begin with a digit. -/
theorem head_toDigits (n : Nat) (rest : List Char) :
    ∃ c, (Nat.toDigits 10 n ++ rest).head? = some c ∧ c.isDigit = true := by
  cases h : Nat.toDigits 10 n with
  | nil => exact absurd h Nat.toDigits_ne_nil
  | cons c digits =>
      refine ⟨c, rfl, isDigit_of_mem (n := n) ?_⟩
      rw [h]
      exact List.mem_cons_self

theorem isWhitespace_of_isDigit {c : Char} (h : c.isDigit = true) : isWhitespace c = false := by
  rw [Char.isDigit, Bool.and_eq_true, decide_eq_true_eq, decide_eq_true_eq] at h
  obtain ⟨hlo, hhi⟩ := h
  have hlo : 48 ≤ c.toNat := hlo
  have hhi : c.toNat ≤ 57 := hhi
  simp only [isWhitespace, Bool.or_eq_false_iff, Bool.and_eq_false_iff, decide_eq_false_iff_not,
    beq_eq_false_iff_ne]
  omega

/-- The codes of the letters of ASCII. -/
theorem range_of_isAlpha {c : Char} (h : c.isAlpha = true) :
    65 ≤ c.toNat ∧ c.toNat ≤ 90 ∨ 97 ≤ c.toNat ∧ c.toNat ≤ 122 := by
  have hcases : c.isUpper = true ∨ c.isLower = true := Bool.or_eq_true_iff.mp h
  rcases hcases with hupper | hlower
  · left
    exact of_decide_eq_true hupper
  · right
    have hand : (decide (c.val ≥ 97) && decide (c.val ≤ 122)) = true := hlower
    rw [Bool.and_eq_true, decide_eq_true_eq, decide_eq_true_eq] at hand
    exact hand

theorem isWhitespace_of_isAlpha {c : Char} (h : c.isAlpha = true) : isWhitespace c = false := by
  have hrange := range_of_isAlpha h
  simp only [isWhitespace, Bool.or_eq_false_iff, Bool.and_eq_false_iff, decide_eq_false_iff_not,
    beq_eq_false_iff_ne]
  omega

theorem noSpace_printInt (i : Int) (rest : List Char) : NoSpace (printInt i ++ rest) := by
  intro c hc
  cases i with
  | ofNat n =>
      obtain ⟨c', hc', hdigit⟩ := head_toDigits n rest
      rw [printInt, hc'] at hc
      rw [← Option.some.inj hc]
      exact isWhitespace_of_isDigit hdigit
  | negSucc n =>
      rw [← Option.some.inj hc]
      decide

theorem reads_digits (hrest : NoDigit rest) :
    Reads (many1 digit) (Nat.toDigits 10 n ++ rest) (Nat.toDigits 10 n) rest :=
  Reads.many1_satisfy Nat.toDigits_ne_nil (fun _ hc => isDigit_of_mem hc) hrest

/-- The sign and the digits of an integer. -/
def numberParts : Int → Option Char × List Char
  | .ofNat n => (none, Nat.toDigits 10 n)
  | .negSucc n => (some '-', Nat.toDigits 10 (n + 1))

/-- The sign and the digits of every integer are read back. -/
theorem reads_number (i : Int) (hrest : NoDigit rest) :
    Reads numberAsStringParse (printInt i ++ rest) (numberParts i) rest := by
  cases i with
  | ofNat n =>
      have hsign : Rejects ((char '+').or (char '-')) (Nat.toDigits 10 n ++ rest) := by
        obtain ⟨c, hc, hdigit⟩ := head_toDigits n rest
        refine Rejects.or (Rejects.token ?_) (Rejects.token ?_)
        · intro c' hc'
          rw [hc] at hc'
          rintro rfl
          rw [Option.some.inj hc'] at hdigit
          exact absurd hdigit (by decide)
        · intro c' hc'
          rw [hc] at hc'
          rintro rfl
          rw [Option.some.inj hc'] at hdigit
          exact absurd hdigit (by decide)
      exact (Reads.optional_none hsign).andThen (reads_digits hrest).map
  | negSucc n =>
      have hsign : Reads ((char '+').or (char '-')) ('-' :: (Nat.toDigits 10 (n + 1) ++ rest)) '-'
          (Nat.toDigits 10 (n + 1) ++ rest) :=
        Reads.or_right (Rejects.token (fun c hc => by rw [← Option.some.inj hc]; decide))
          Reads.token
      exact hsign.optional_some.andThen (reads_digits hrest).map

/-- Every 32-bit integer is read back. -/
theorem reads_printInt (hi : IsI32 i) (hrest : NoDigit rest) :
    Reads i32Parse (printInt i ++ rest) i rest := by
  refine (reads_number i hrest).convert ?_
  cases i with
  | ofNat n =>
      rw [numberParts, i32FromStr, Nat.ofDigitChars_ten_toDigits]
      exact if_pos hi
  | negSucc n =>
      rw [numberParts, i32FromStr, Nat.ofDigitChars_ten_toDigits]
      exact if_pos hi

end Numbers

/-! ## Source positions -/

/-- Both numbers are 32-bit integers. -/
def PositionInRange (pos : SourcePosition) : Prop := IsI32 pos.line ∧ IsI32 pos.column

theorem noDigit_cons {c : Char} {s : List Char} (h : c.isDigit = false) : NoDigit (c :: s) := by
  intro c' hc'
  rw [← Option.some.inj hc']
  exact h

theorem noSpace_cons {c : Char} {s : List Char} (h : isWhitespace c = false) :
    NoSpace (c :: s) := by
  intro c' hc'
  rw [← Option.some.inj hc']
  exact h

section Positions

variable {pos : SourcePosition} {src : Source} {rest : List Char} (nonPrintable : Char → Bool)

theorem reads_position (hpos : PositionInRange pos) (hrest : NoDigit rest) :
    Reads positionParse (printPosition pos ++ rest) pos rest := by
  have hline : Reads ((string Keyword.line).skip (spaced (char ':')))
      (Keyword.line ++ ':' :: ' ' :: (printInt pos.line ++ ',' :: ' ' :: (Keyword.column ++
        ':' :: ' ' :: (printInt pos.column ++ rest)))) ()
      (printInt pos.line ++ ',' :: ' ' :: (Keyword.column ++
        ':' :: ' ' :: (printInt pos.column ++ rest))) :=
    (Reads.tokens Keyword.line).skip (reads_punctuation (by decide) (noSpace_printInt _ _))
  have hcomma : Reads (i32Parse.skip (spaced (char ',')))
      (printInt pos.line ++ ',' :: ' ' :: (Keyword.column ++
        ':' :: ' ' :: (printInt pos.column ++ rest))) pos.line
      (Keyword.column ++ ':' :: ' ' :: (printInt pos.column ++ rest)) :=
    (reads_printInt hpos.1 (noDigit_cons (by decide))).skip
      (reads_punctuation (by decide) (noSpace_cons (by decide)))
  have hcolumn : Reads ((string Keyword.column).skip (spaced (char ':')))
      (Keyword.column ++ ':' :: ' ' :: (printInt pos.column ++ rest)) ()
      (printInt pos.column ++ rest) :=
    (Reads.tokens Keyword.column).skip (reads_punctuation (by decide) (noSpace_printInt _ _))
  simp only [printPosition, List.append_assoc, List.cons_append]
  exact hline.andThen (hcomma.andThen (hcolumn.andThen (reads_printInt hpos.2 hrest).map))

theorem reads_source : Reads sourceParse (printSource nonPrintable src ++ rest) src rest := by
  cases src with
  | file path => exact (reads_quoted nonPrintable path rest).map.or_left
  | inMemory =>
      refine Reads.or_right (Rejects.between (Rejects.token ?_)).map.map
        (Reads.tokens Keyword.inMemory).map
      intro c hc
      rw [← Option.some.inj hc]
      decide

theorem reads_srcPos (hpos : PositionInRange pos) (hrest : NoDigit rest) :
    Reads (@srcPosParser Attr)
      (printSource nonPrintable src ++ ':' :: ' ' :: (printPosition pos ++ rest))
      (.srcPos src pos) rest := by
  have hstart : NoSpace (printPosition pos ++ rest) := by
    rw [printPosition, List.append_assoc, List.append_assoc]
    exact noSpace_cons (by decide)
  exact ((reads_source nonPrintable).skip (reads_punctuation (by decide) hstart)).andThen
    (reads_position hpos hrest).map

end Positions

/-! ## Each form of a location -/

/-- What the parser leaves of the text after a location: a call site ignores the white space
    after its closing parenthesis. -/
def leftover : Location Attr → List Char → List Char
  | .callSite _ _, rest => rest.dropWhile isWhitespace
  | _, rest => rest

theorem leftover_of_noSpace {rest : List Char} (loc : Location Attr) (h : NoSpace rest) :
    leftover loc rest = rest := by
  cases loc with
  | callSite callee caller => exact dropWhile_of_noSpace h
  | srcPos src pos => rfl
  | fused metadata locations => rfl
  | named name childLoc => rfl
  | unknown => rfl

theorem dropWhile_leftover (loc : Location Attr) (rest : List Char) :
    (leftover loc rest).dropWhile isWhitespace = rest.dropWhile isWhitespace := by
  cases loc with
  | callSite callee caller => exact dropWhile_of_noSpace (noSpace_dropWhile rest)
  | srcPos src pos => rfl
  | fused metadata locations => rfl
  | named name childLoc => rfl
  | unknown => rfl

/-- Attributes parse back from their text, up to the `>` after them; the text begins with the
    name of the attribute. -/
structure AttrsParseBack (attrText : Attr → List Char) (attrParse : TextParser Attr) : Prop where
  reads : ∀ attr rest, Reads attrParse (attrText attr ++ '>' :: rest) attr ('>' :: rest)
  noSpace : ∀ attr rest, NoSpace (attrText attr ++ '>' :: rest)

section Forms

variable {nonPrintable : Char → Bool} {attrText : Attr → List Char} {attrParse : TextParser Attr}
  {location : TextParser (Location Attr)}

/-- A location does not begin with white space. -/
theorem noSpace_print (loc : Location Attr) (rest : List Char) :
    NoSpace (print nonPrintable attrText loc ++ rest) := by
  cases loc with
  | srcPos src pos =>
      cases src with
      | file path => exact noSpace_cons (c := quote) (by decide)
      | inMemory => exact noSpace_cons (c := '<') (by decide)
  | fused metadata locations =>
      rw [print, List.append_assoc, List.append_assoc, List.append_assoc]
      exact noSpace_cons (c := 'f') (by decide)
  | named name childLoc =>
      rw [print, List.append_assoc, List.append_assoc]
      exact noSpace_cons (c := 'n') (by decide)
  | callSite callee caller =>
      rw [print, List.append_assoc, List.append_assoc, List.append_assoc]
      exact noSpace_cons (c := 'c') (by decide)
  | unknown => exact noSpace_cons (c := '?') (by decide)

/-- The location is parsed from its text, and up to white space the parser stops where the text
    ends. -/
def ReadsLocation (nonPrintable : Char → Bool) (attrText : Attr → List Char)
    (location : TextParser (Location Attr)) (loc : Location Attr) : Prop :=
  ∀ rest, NoDigit rest →
    Reads location (print nonPrintable attrText loc ++ rest) loc (leftover loc rest)

theorem ReadsLocation.before {loc : Location Attr} {c : Char}
    (h : ReadsLocation nonPrintable attrText location loc) (rest : List Char)
    (hdigit : c.isDigit = false) (hspace : isWhitespace c = false) :
    Reads location (print nonPrintable attrText loc ++ c :: rest) loc (c :: rest) := by
  have hread := h (c :: rest) (noDigit_cons hdigit)
  rwa [leftover_of_noSpace loc (noSpace_cons hspace)] at hread

theorem reads_named (name : String) {childLoc : Location Attr} (rest : List Char)
    (hchild : ReadsLocation nonPrintable attrText location childLoc) :
    Reads (namedParser location)
      (print nonPrintable attrText (.named name childLoc) ++ rest) (.named name childLoc) rest := by
  have hname : Reads ((string Keyword.name).skip (spaced (char ':')))
      (Keyword.name ++ ':' :: ' ' :: (quoted nonPrintable name ++ ',' :: ' ' ::
        (Keyword.loc ++ ':' :: ' ' :: '(' :: (print nonPrintable attrText childLoc ++
          ')' :: rest)))) ()
      (quoted nonPrintable name ++ ',' :: ' ' :: (Keyword.loc ++ ':' :: ' ' :: '(' ::
        (print nonPrintable attrText childLoc ++ ')' :: rest))) :=
    (Reads.tokens Keyword.name).skip
      (reads_punctuation (by decide) (noSpace_cons (c := quote) (by decide)))
  have hquoted : Reads (quotedStringParse.skip (spaced (char ',')))
      (quoted nonPrintable name ++ ',' :: ' ' :: (Keyword.loc ++ ':' :: ' ' :: '(' ::
        (print nonPrintable attrText childLoc ++ ')' :: rest))) name
      (Keyword.loc ++ ':' :: ' ' :: '(' :: (print nonPrintable attrText childLoc ++
        ')' :: rest)) :=
    (reads_quoted nonPrintable name _).skip
      (reads_punctuation (by decide) (noSpace_cons (c := 'l') (by decide)))
  have hloc : Reads ((string Keyword.loc).skip (spaced (char ':')))
      (Keyword.loc ++ ':' :: ' ' :: '(' :: (print nonPrintable attrText childLoc ++
        ')' :: rest)) () ('(' :: (print nonPrintable attrText childLoc ++ ')' :: rest)) :=
    (Reads.tokens Keyword.loc).skip (reads_punctuation (by decide) (noSpace_cons (by decide)))
  have hparens : Reads (between (char '(') (char ')') location)
      ('(' :: (print nonPrintable attrText childLoc ++ ')' :: rest)) childLoc rest :=
    Reads.token.between (hchild.before _ (by decide) (by decide)) Reads.token
  have htext : print nonPrintable attrText (.named name childLoc) ++ rest =
      Keyword.name ++ ':' :: ' ' :: (quoted nonPrintable name ++ ',' :: ' ' ::
        (Keyword.loc ++ ':' :: ' ' :: '(' :: (print nonPrintable attrText childLoc ++
          ')' :: rest))) := by
    rw [print]
    simp only [List.append_assoc, List.cons_append, List.nil_append]
  rw [htext]
  exact hname.andThen (hquoted.andThen (hloc.andThen hparens.map))

theorem reads_callsite {callee caller : Location Attr} (rest : List Char)
    (hcallee : ReadsLocation nonPrintable attrText location callee)
    (hcaller : ReadsLocation nonPrintable attrText location caller) :
    Reads (callsiteParser location)
      (print nonPrintable attrText (.callSite callee caller) ++ rest) (.callSite callee caller)
      (rest.dropWhile isWhitespace) := by
  -- the text after the callee
  have hopen : Reads (spaced (char '('))
      ('(' :: (print nonPrintable attrText callee ++ ' ' :: (Keyword.atCaller ++ ' ' ::
        (print nonPrintable attrText caller ++ ')' :: rest)))) '('
      (print nonPrintable attrText callee ++ ' ' :: (Keyword.atCaller ++ ' ' ::
        (print nonPrintable attrText caller ++ ')' :: rest))) := by
    have hread := reads_spaced (p := char '(') (s := '(' :: (print nonPrintable attrText callee ++
      ' ' :: (Keyword.atCaller ++ ' ' :: (print nonPrintable attrText caller ++ ')' :: rest)))) (by
        rw [dropWhile_of_noSpace (noSpace_cons (by decide))]
        exact Reads.token)
    rwa [dropWhile_of_noSpace (noSpace_print callee _)] at hread
  have hfirst := hcallee (' ' :: (Keyword.atCaller ++ ' ' ::
    (print nonPrintable attrText caller ++ ')' :: rest))) (noDigit_cons (by decide))
  have hat : Reads (spaced (string Keyword.atCaller))
      (leftover callee (' ' :: (Keyword.atCaller ++ ' ' ::
        (print nonPrintable attrText caller ++ ')' :: rest)))) ()
      (print nonPrintable attrText caller ++ ')' :: rest) := by
    have hdrop : (leftover callee (' ' :: (Keyword.atCaller ++ ' ' ::
        (print nonPrintable attrText caller ++ ')' :: rest)))).dropWhile isWhitespace =
        Keyword.atCaller ++ ' ' :: (print nonPrintable attrText caller ++ ')' :: rest) := by
      rw [dropWhile_leftover]
      exact dropWhile_of_noSpace (noSpace_cons (c := 'a') (by decide))
    have hspace : (' ' :: (print nonPrintable attrText caller ++ ')' :: rest)).dropWhile
        isWhitespace = print nonPrintable attrText caller ++ ')' :: rest :=
      dropWhile_of_noSpace (noSpace_print caller _)
    have hread := reads_spaced (p := string Keyword.atCaller)
      (s := leftover callee (' ' :: (Keyword.atCaller ++
        ' ' :: (print nonPrintable attrText caller ++ ')' :: rest)))) (by
        rw [hdrop]
        exact Reads.tokens Keyword.atCaller)
    rwa [hspace] at hread
  have hsecond := hcaller.before (c := ')') rest (by decide) (by decide)
  have hclose : Reads (spaced (char ')')) (')' :: rest) ')' (rest.dropWhile isWhitespace) := by
    refine reads_spaced ?_
    rw [dropWhile_of_noSpace (noSpace_cons (by decide))]
    exact Reads.token
  have htext : print nonPrintable attrText (.callSite callee caller) ++ rest =
      Keyword.callsite ++ '(' :: (print nonPrintable attrText callee ++ ' ' :: (Keyword.atCaller ++
        ' ' :: (print nonPrintable attrText caller ++ ')' :: rest))) := by
    rw [print]
    simp only [List.append_assoc, List.cons_append, List.nil_append]
  rw [htext]
  exact (Reads.tokens Keyword.callsite).withRight
    (hopen.between ((hfirst.skip hat).andThen hsecond.map) hclose)

/-- What begins with another character than a location is rejected. -/
def RejectsClosing (location : TextParser (Location Attr)) : Prop :=
  ∀ rest, Rejects location (']' :: rest)

/-- After a location of a list there is a comma or the closing bracket. -/
theorem printTail_head (nonPrintable : Char → Bool) (attrText : Attr → List Char)
    (locations : List (Location Attr)) (rest : List Char) :
    ∃ c s, printTail nonPrintable attrText locations ++ ']' :: rest = c :: s ∧
      c.isDigit = false ∧ isWhitespace c = false := by
  cases locations with
  | nil => exact ⟨']', rest, by rw [printTail]; rfl, by decide, by decide⟩
  | cons l ls => exact ⟨',', _, by rw [printTail]; rfl, by decide, by decide⟩

theorem reads_item {loc : Location Attr} (h : ReadsLocation nonPrintable attrText location loc)
    (locations : List (Location Attr)) (rest : List Char) :
    Reads (location.skip spaces) (print nonPrintable attrText loc ++
      (printTail nonPrintable attrText locations ++ ']' :: rest)) loc
      (printTail nonPrintable attrText locations ++ ']' :: rest) := by
  obtain ⟨c, s, hs, hdigit, hspace⟩ := printTail_head nonPrintable attrText locations rest
  rw [hs]
  exact reads_skip_spaces (h.before _ hdigit hspace) (noSpace_cons hspace)

/-- The locations after the first one, up to the closing bracket. -/
theorem reads_printTail {locations : List (Location Attr)} (rest : List Char)
    (hall : ∀ loc ∈ locations, ReadsLocation nonPrintable attrText location loc) :
    Reads (many (((char ',').skip spaces).withRight (location.skip spaces)))
      (printTail nonPrintable attrText locations ++ ']' :: rest) locations (']' :: rest) := by
  induction locations with
  | nil =>
      rw [printTail]
      refine Reads.many_nil (Rejects.token (fun c hc => ?_)).skip.withRight
      rw [← Option.some.inj hc]
      decide
  | cons loc locations ih =>
      have hread := reads_item (hall loc List.mem_cons_self) locations rest
      have hsep : Reads ((char ',').skip spaces)
          (',' :: ' ' :: (print nonPrintable attrText loc ++
            (printTail nonPrintable attrText locations ++ ']' :: rest))) ','
          (print nonPrintable attrText loc ++
            (printTail nonPrintable attrText locations ++ ']' :: rest)) := by
        have hspaces := reads_spaces (' ' :: (print nonPrintable attrText loc ++
          (printTail nonPrintable attrText locations ++ ']' :: rest)))
        have hdrop : (' ' :: (print nonPrintable attrText loc ++
            (printTail nonPrintable attrText locations ++ ']' :: rest))).dropWhile isWhitespace =
            print nonPrintable attrText loc ++
              (printTail nonPrintable attrText locations ++ ']' :: rest) :=
          dropWhile_of_noSpace (noSpace_print loc _)
        rw [hdrop] at hspaces
        exact Reads.token.skip hspaces
      have htext : printTail nonPrintable attrText (loc :: locations) ++ ']' :: rest =
          ',' :: ' ' :: (print nonPrintable attrText loc ++
            (printTail nonPrintable attrText locations ++ ']' :: rest)) := by
        rw [printTail]
        simp only [List.append_assoc, List.cons_append]
      rw [htext]
      refine Reads.many_cons (hsep.withRight hread) ?_
        (ih (fun l hl => hall l (List.mem_cons_of_mem _ hl)))
      simp only [List.length_cons, List.length_append]
      omega

/-- A list of locations in brackets. -/
theorem reads_brackets {locations : List (Location Attr)} (rest : List Char)
    (hall : ∀ loc ∈ locations, ReadsLocation nonPrintable attrText location loc)
    (hclosing : RejectsClosing location) :
    Reads (delimitedListParser '[' ']' ',' location)
      ('[' :: (printList nonPrintable attrText locations ++ ']' :: rest)) locations rest := by
  have hclose : Reads (spaces.withRight (char ']')) (']' :: rest) ']' rest := by
    have hspaces := reads_spaces (']' :: rest)
    rw [dropWhile_of_noSpace (noSpace_cons (by decide))] at hspaces
    exact hspaces.withRight Reads.token
  cases locations with
  | nil =>
      rw [printList]
      refine (reads_skip_spaces Reads.token (noSpace_cons (by decide))).between ?_ hclose
      exact Reads.sepBy_nil (hclosing rest).skip
  | cons loc locations =>
      have hread := reads_item (hall loc List.mem_cons_self) locations rest
      have htail := reads_printTail rest (fun l hl => hall l (List.mem_cons_of_mem loc hl))
      rw [printList, List.append_assoc]
      exact (reads_skip_spaces Reads.token (noSpace_print loc _)).between
        (Reads.sepBy_cons hread htail) hclose

theorem reads_fused (hattrs : AttrsParseBack attrText attrParse) (metadata : Option Attr)
    {locations : List (Location Attr)} (rest : List Char)
    (hall : ∀ loc ∈ locations, ReadsLocation nonPrintable attrText location loc)
    (hclosing : RejectsClosing location) :
    Reads (fusedParser attrParse location)
      (print nonPrintable attrText (.fused metadata locations) ++ rest)
      (.fused metadata locations) rest := by
  have hlist := reads_brackets rest hall hclosing
  have hmetadata : Reads (optional (between (char '<') (char '>') (spaced attrParse)))
      (printMetadata attrText metadata ++
        '[' :: (printList nonPrintable attrText locations ++ ']' :: rest)) metadata
      ('[' :: (printList nonPrintable attrText locations ++ ']' :: rest)) := by
    cases metadata with
    | none =>
        refine Reads.optional_none (Rejects.between (Rejects.token (fun c hc => ?_)))
        rw [← Option.some.inj hc]
        decide
    | some attr =>
        have hattr := hattrs.reads attr
          ('[' :: (printList nonPrintable attrText locations ++ ']' :: rest))
        have hspaced := reads_spaced (p := attrParse) (s := attrText attr ++ '>' ::
          '[' :: (printList nonPrintable attrText locations ++ ']' :: rest)) (by
            rw [dropWhile_of_noSpace (hattrs.noSpace attr _)]
            exact hattr)
        rw [dropWhile_of_noSpace (noSpace_cons (by decide))] at hspaced
        rw [printMetadata, List.cons_append, List.cons_append, List.append_assoc]
        exact (Reads.token.between hspaced Reads.token).optional_some
  have hstart : NoSpace (printMetadata attrText metadata ++
      '[' :: (printList nonPrintable attrText locations ++ ']' :: rest)) := by
    cases metadata with
    | none => exact noSpace_cons (by decide)
    | some attr =>
        rw [printMetadata, List.cons_append, List.cons_append, List.append_assoc]
        exact noSpace_cons (by decide)
  have hfused : Reads ((string Keyword.fused).skip spaces)
      (Keyword.fused ++ (printMetadata attrText metadata ++
        '[' :: (printList nonPrintable attrText locations ++ ']' :: rest))) ()
      (printMetadata attrText metadata ++
        '[' :: (printList nonPrintable attrText locations ++ ']' :: rest)) :=
    reads_skip_spaces (Reads.tokens Keyword.fused) hstart
  have htext : print nonPrintable attrText (.fused metadata locations) ++ rest =
      Keyword.fused ++ (printMetadata attrText metadata ++
        '[' :: (printList nonPrintable attrText locations ++ ']' :: rest)) := by
    rw [print]
    simp only [List.append_assoc, List.cons_append, List.nil_append]
  rw [htext]
  exact hfused.withRight (hmetadata.andThen hlist.map)

end Forms

/-! ## Locations -/

mutual

/-- All lines and columns are 32-bit integers. -/
def InRange : Location Attr → Prop
  | .srcPos _ pos => PositionInRange pos
  | .fused _ locations => AllInRange locations
  | .named _ childLoc => InRange childLoc
  | .callSite callee caller => InRange callee ∧ InRange caller
  | .unknown => True

def AllInRange : List (Location Attr) → Prop
  | [] => True
  | loc :: locations => InRange loc ∧ AllInRange locations

end

section Rejections

variable {location : TextParser (Location Attr)} {attrParse : TextParser Attr} {c : Char}
  {s : List Char}

theorem rejects_char {c' : Char} (h : c ≠ c') : Rejects (char c') (c :: s) := by
  refine Rejects.token (fun t ht => ?_)
  rw [← Option.some.inj ht]
  exact h

theorem rejects_srcPos (hquote : c ≠ quote) (hmemory : c ≠ '<') :
    Rejects (@srcPosParser Attr) (c :: s) := by
  have hquoted : Rejects (quotedStringParse.map Source.file) (c :: s) :=
    (rejects_char hquote).between.map.map
  have hkeyword : Rejects ((string Keyword.inMemory).map (fun _ => Source.inMemory)) (c :: s) :=
    (rejects_char hmemory).withRight.map
  exact (hquoted.or hkeyword).skip.andThen

theorem rejects_fused (h : c ≠ 'f') : Rejects (fusedParser attrParse location) (c :: s) :=
  (rejects_char h).withRight.skip.withRight

theorem rejects_named (h : c ≠ 'n') : Rejects (namedParser location) (c :: s) :=
  (rejects_char h).withRight.skip.andThen

theorem rejects_callsite (h : c ≠ 'c') : Rejects (callsiteParser location) (c :: s) :=
  (rejects_char h).withRight.withRight

/-- A list of locations ends at the closing bracket. -/
theorem rejectsClosing_parseFuel (fuel : Nat) :
    RejectsClosing (parseFuel attrParse (fuel + 1)) := by
  intro rest
  have hunknown : Rejects (@unknownParser Attr) (']' :: rest) :=
    (rejects_char (by decide)).map
  exact ((((rejects_srcPos (by decide) (by decide)).or (rejects_fused (by decide))).or
    (rejects_named (by decide))).or (rejects_callsite (by decide))).or hunknown

end Rejections

section RoundTrip

variable {nonPrintable : Char → Bool} {attrText : Attr → List Char} {attrParse : TextParser Attr}

theorem inRange_of_mem {locations : List (Location Attr)} {loc : Location Attr}
    (h : AllInRange locations) (hloc : loc ∈ locations) : InRange loc := by
  induction locations with
  | nil => exact absurd hloc List.not_mem_nil
  | cons l ls ih =>
      rw [AllInRange] at h
      obtain rfl | hmem := List.mem_cons.mp hloc
      · exact h.1
      · exact ih h.2 hmem

/-- The text of a list contains that of each location. -/
theorem length_print_of_mem (nonPrintable : Char → Bool) (attrText : Attr → List Char)
    {locations : List (Location Attr)} {loc : Location Attr}
    (hloc : loc ∈ locations) :
    (print nonPrintable attrText loc).length ≤
      (printList nonPrintable attrText locations).length := by
  have htail : ∀ ls : List (Location Attr), loc ∈ ls →
      (print nonPrintable attrText loc).length ≤
        (printTail nonPrintable attrText ls).length := by
    intro ls hls
    induction ls with
    | nil => exact absurd hls List.not_mem_nil
    | cons l ls ih =>
        rw [printTail, List.length_append, List.length_cons, List.length_cons]
        obtain rfl | hmem := List.mem_cons.mp hls
        · omega
        · have hle := ih hmem
          omega
  cases locations with
  | nil => exact absurd hloc List.not_mem_nil
  | cons l ls =>
      rw [printList, List.length_append]
      obtain rfl | hmem := List.mem_cons.mp hloc
      · omega
      · have hle := htail ls hmem
        omega

/-- By induction on the fuel: the text of each nested location is shorter. -/
theorem reads_parseFuel (hattrs : AttrsParseBack attrText attrParse) (fuel : Nat)
    {loc : Location Attr} (hrange : InRange loc)
    (hlen : (print nonPrintable attrText loc).length < fuel) :
    ReadsLocation nonPrintable attrText (parseFuel attrParse fuel) loc := by
  induction fuel generalizing loc with
  | zero => exact absurd hlen (Nat.not_lt_zero _)
  | succ fuel ih =>
      intro rest hrest
      cases loc with
      | srcPos src pos =>
          rw [InRange] at hrange
          rw [print, List.append_assoc]
          exact (reads_srcPos nonPrintable hrange hrest).or_left.or_left.or_left.or_left
      | fused metadata locations =>
          rw [InRange] at hrange
          rw [print] at hlen
          simp only [List.length_append, List.length_cons, List.length_nil] at hlen
          obtain ⟨fuel, rfl⟩ : ∃ m, fuel = m + 1 := ⟨fuel - 1, by
            have hpos : Keyword.fused.length = 5 := rfl
            omega⟩
          -- a part is shorter than the whole, so the fuel is enough for it
          have hfused := reads_fused hattrs metadata rest
            (fun l hl => ih (inRange_of_mem hrange hl) (by
              have hle := length_print_of_mem nonPrintable attrText hl
              omega))
            (rejectsClosing_parseFuel fuel)
          obtain ⟨s, hs⟩ : ∃ s, print nonPrintable attrText (.fused metadata locations) ++ rest =
              'f' :: s := by
            rw [print, List.append_assoc, List.append_assoc, List.append_assoc]
            exact ⟨_, rfl⟩
          -- the first letter tells the forms apart
          rw [hs] at hfused ⊢
          exact (Reads.or_right (rejects_srcPos (by decide) (by decide))
            hfused).or_left.or_left.or_left
      | named name childLoc =>
          rw [InRange] at hrange
          rw [print] at hlen
          simp only [List.length_append, List.length_cons, List.length_nil] at hlen
          have hnamed := reads_named name rest (ih hrange (by omega))
          obtain ⟨s, hs⟩ : ∃ s, print nonPrintable attrText (.named name childLoc) ++ rest =
              'n' :: s := by
            rw [print, List.append_assoc, List.append_assoc]
            exact ⟨_, rfl⟩
          rw [hs] at hnamed ⊢
          exact (Reads.or_right ((rejects_srcPos (by decide) (by decide)).or
            (rejects_fused (by decide))) hnamed).or_left.or_left
      | callSite callee caller =>
          rw [InRange] at hrange
          rw [print] at hlen
          simp only [List.length_append, List.length_cons, List.length_nil] at hlen
          have hcallsite := reads_callsite rest (ih hrange.1 (by omega))
            (ih hrange.2 (by omega))
          obtain ⟨s, hs⟩ : ∃ s, print nonPrintable attrText (.callSite callee caller) ++ rest =
              'c' :: s := by
            rw [print, List.append_assoc, List.append_assoc, List.append_assoc]
            exact ⟨_, rfl⟩
          rw [hs] at hcallsite ⊢
          exact (Reads.or_right (((rejects_srcPos (by decide) (by decide)).or
            (rejects_fused (by decide))).or (rejects_named (by decide))) hcallsite).or_left
      | unknown =>
          rw [print]
          exact Reads.or_right ((((rejects_srcPos (by decide) (by decide)).or
            (rejects_fused (by decide))).or (rejects_named (by decide))).or
            (rejects_callsite (by decide))) Reads.token.map

/-- Every location is parsed from its text.  What follows the text must not continue a number
    that the text ends with, and the parser stops there, but after a call site white space is
    skipped. -/
theorem location_roundTrip (hattrs : AttrsParseBack attrText attrParse) {loc : Location Attr}
    (hrange : InRange loc) :
    (∃ c, parse attrParse (print nonPrintable attrText loc) = some (.ok c loc [])) ∧
    (∀ rest, NoDigit rest → ∃ c, parse attrParse (print nonPrintable attrText loc ++ rest) =
      some (.ok c loc (leftover loc rest))) ∧
    (∀ rest, NoSpace rest → leftover loc rest = rest) := by
  have hreads : ∀ rest, NoDigit rest → ∃ c,
      parse attrParse (print nonPrintable attrText loc ++ rest) =
        some (.ok c loc (leftover loc rest)) := by
    intro rest hrest
    refine reads_parseFuel hattrs _ hrange ?_ rest hrest
    rw [List.length_append]
    omega
  refine ⟨?_, hreads, fun rest => leftover_of_noSpace loc⟩
  have hend := hreads [] nofun
  rwa [List.append_nil,
    leftover_of_noSpace loc (fun _ hc => absurd hc (Option.not_mem_none _))] at hend

/-- A call site, one of whose locations is fused and has metadata. -/
theorem location_roundTrip_callSite :
    ∃ c, parse (fun s => ((string ['m']).map (fun _ => ())) s)
      (print (fun _ => false) (fun _ : Unit => ['m'])
        (.callSite (.fused (some ()) [.unknown, .named "f(" .unknown])
          (.srcPos (.file "a.c") ⟨-1, 2⟩))) =
      some (.ok c (.callSite (.fused (some ()) [.unknown, .named "f(" .unknown])
        (.srcPos (.file "a.c") ⟨-1, 2⟩)) []) := by
  have hattrs : AttrsParseBack (fun _ : Unit => ['m'])
      (fun s => ((string ['m']).map (fun _ => ())) s) :=
    ⟨fun _ _ => (Reads.tokens ['m']).map, fun _ _ => noSpace_cons (by decide)⟩
  have hrange : InRange (.callSite (.fused (some ()) [.unknown, .named "f(" .unknown])
      (.srcPos (.file "a.c") ⟨-1, 2⟩)) := by
    simp only [InRange, AllInRange, PositionInRange, and_self, true_and]
    exact ⟨by decide, by decide⟩
  exact (location_roundTrip hattrs hrange).1

end RoundTrip

end Pliron.Text
