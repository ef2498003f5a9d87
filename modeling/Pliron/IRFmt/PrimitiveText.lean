/-
  Pliron.IRFmt.PrimitiveText

  The text of integers, booleans and identifiers, and what their parsers read.

  Letters and numbers beyond ASCII are those of the standard library's tables, a parameter.
-/

import Pliron.IRFmt.LocationTextCorrect
import Pliron.Utils.Identifier
import Pliron.Utils.LegaliserCorrect

namespace Pliron.Text

open Pliron.Lib.Combine Pliron.Lib.Combine.Parser

/-! ## Integers -/

/-- The integer types that are parsed; `usize` has 64 bits. -/
inductive IntType where
  | usize
  | u64
  | u32
  | u16
  | u8
  | i64
  | i32
  | i16
  | i8
deriving DecidableEq, Repr

namespace IntType

def signed : IntType → Bool
  | .i64 | .i32 | .i16 | .i8 => true
  | .usize | .u64 | .u32 | .u16 | .u8 => false

def bits : IntType → Nat
  | .usize | .u64 | .i64 => 64
  | .u32 | .i32 => 32
  | .u16 | .i16 => 16
  | .u8 | .i8 => 8

def min (t : IntType) : Int := if t.signed then -2 ^ (t.bits - 1) else 0

def max (t : IntType) : Int := if t.signed then 2 ^ (t.bits - 1) - 1 else 2 ^ t.bits - 1

/-- Is it a number of the type? -/
def Has (t : IntType) (n : Int) : Prop := t.min ≤ n ∧ n ≤ t.max

instance (t : IntType) (n : Int) : Decidable (t.Has n) := inferInstanceAs (Decidable (_ ∧ _))

/-- The number that a sign and digits stand for; an unsigned type has no `-`. -/
def fromStr (t : IntType) (number : Option Char × List Char) : Except TextErr Int :=
  let magnitude : Int := Nat.ofDigitChars 10 number.2 0
  if number.1 = some '-' then
    if t.signed ∧ t.Has (-magnitude) then .ok (-magnitude) else .error .invalidNumber
  else if t.Has magnitude then .ok magnitude else .error .invalidNumber

end IntType

/-- Parse a number of an integer type. -/
def intParse (t : IntType) : TextParser Int := numberAsStringParse.convert t.fromStr

/-! ## Booleans and identifiers -/

def printBool : Bool → List Char
  | true => ['t', 'r', 'u', 'e']
  | false => ['f', 'a', 'l', 's', 'e']

/-- Choose between `true` and `false`. -/
def boolParse : TextParser Bool :=
  ((string (printBool true)).map (fun _ => true)).or
    ((string (printBool false)).map (fun _ => false))

/-- Parse an identifier; a panic is a parser that does not return. -/
def identifierParse (u : UnicodeTables) : TextParser String := fun s =>
  match parseIdentifier u s with
  | .ok id rest => some (.ok true id rest)
  | .error => some (.err false .unexpected)
  | .panicked => none

/-! ## Integers are read back -/

section Integers

variable {t : IntType} {n : Int} {s rest : List Char}

/-- The digits of a sign and digits, with the sign as text. -/
def numberText (number : Option Char × List Char) : List Char := number.1.toList ++ number.2

theorem fromStr_numberParts (hn : t.Has n) : t.fromStr (numberParts n) = .ok n := by
  cases n with
  | ofNat n =>
      rw [numberParts, IntType.fromStr, Nat.ofDigitChars_ten_toDigits]
      dsimp only
      rw [if_neg (by decide)]
      exact if_pos hn
  | negSucc n =>
      have hsigned : t.signed = true := by
        by_contra hs
        have hlo := hn.1
        rw [IntType.min, if_neg hs] at hlo
        exact absurd hlo (by omega)
      rw [numberParts, IntType.fromStr, Nat.ofDigitChars_ten_toDigits]
      dsimp only
      rw [if_pos rfl]
      exact if_pos ⟨hsigned, hn⟩

/-- Every number of the type is read back. -/
theorem reads_int (hn : t.Has n) (hrest : NoDigit rest) :
    Reads (intParse t) (printInt n ++ rest) n rest :=
  (reads_number n hrest).convert (fromStr_numberParts hn)

/-- What the parser of numbers has read. -/
theorem of_numberAsString {number : Option Char × List Char}
    (h : Reads numberAsStringParse s number rest) :
    s = numberText number ++ rest ∧ (∀ c ∈ number.1, c = '+' ∨ c = '-') ∧
      number.2 ≠ [] ∧ (∀ c ∈ number.2, c.isDigit = true) ∧ NoDigit rest := by
  obtain ⟨sign, rest₁, hsign, hdigits⟩ := h.of_andThen
  obtain ⟨digits, hmany, rfl⟩ := hdigits.of_map
  obtain ⟨c, more, rest₂, rfl, hc, hmore⟩ := hmany.of_many1
  obtain ⟨rfl, hcdigit⟩ := hc.of_satisfy
  obtain ⟨rfl, hall, hstop⟩ := hmore.of_satisfy
  have hdigit : ∀ d ∈ c :: more, d.isDigit = true := by
    intro d hd
    obtain rfl | hd := List.mem_cons.mp hd
    · exact hcdigit
    · exact hall d hd
  obtain hsome | ⟨_, hnone⟩ := hsign.of_or
  · obtain ⟨sign', hread, rfl⟩ := hsome.of_map
    obtain hplus | ⟨_, hminus⟩ := hread.of_or
    · obtain ⟨rfl, heq⟩ := hplus.of_satisfy
      exact ⟨rfl, fun d hd => Or.inl (Option.some.inj hd ▸ eq_of_beq heq), List.cons_ne_nil _ _,
        hdigit, hstop⟩
    · obtain ⟨rfl, heq⟩ := hminus.of_satisfy
      exact ⟨rfl, fun d hd => Or.inr (Option.some.inj hd ▸ eq_of_beq heq), List.cons_ne_nil _ _,
        hdigit, hstop⟩
  · obtain ⟨rfl, rfl⟩ := hnone.of_value
    exact ⟨rfl, nofun, List.cons_ne_nil _ _, hdigit, hstop⟩

/-- What is read is a number of the type. -/
theorem has_of_int (h : Reads (intParse t) s n rest) : t.Has n := by
  obtain ⟨number, _, hnumber⟩ := h.of_convert
  rw [IntType.fromStr] at hnumber
  split_ifs at hnumber with hsign hhas hhas
  · rw [← Except.ok.inj hnumber]
    exact hhas.2
  · rw [← Except.ok.inj hnumber]
    exact hhas

/-- An index into a table, as `u32`. -/
def u32Parse : TextParser Nat := (intParse .u32).map Int.toNat

theorem lt_of_u32 {id : Nat} (h : Reads u32Parse s id rest) : id < 2 ^ 32 := by
  obtain ⟨n, hread, rfl⟩ := h.of_map
  have hle : n ≤ 2 ^ 32 - 1 := (has_of_int hread).2
  omega

theorem reads_u32 {id : Nat} (hid : id < 2 ^ 32) (hrest : NoDigit rest) :
    Reads u32Parse (Nat.toDigits 10 id ++ rest) id rest := by
  have hhas : IntType.Has .u32 (Int.ofNat id) := by
    refine ⟨Int.natCast_nonneg id, ?_⟩
    show (id : Int) ≤ 2 ^ 32 - 1
    omega
  exact (reads_int hhas hrest).map

end Integers

/-! ## Where the text of an integer goes on -/

section Digits

variable {m : Nat} {n : Int} {t : IntType} {ds s more rest : List Char}

theorem eq_zero_of_ofDigitChars (hds : ∀ c ∈ ds, c.isDigit = true)
    (h : Nat.ofDigitChars 10 ds 0 = 0) : ∀ c ∈ ds, c = '0' := by
  induction ds with
  | nil => exact fun c hc => absurd hc List.not_mem_nil
  | cons d ds ih =>
      rw [List.forall_mem_cons] at hds ⊢
      rw [Nat.ofDigitChars_cons, Nat.ofDigitChars_eq_ofDigitChars_zero, Nat.add_eq_zero_iff] at h
      have hpos : 0 < 10 ^ ds.length := Nat.pow_pos (by omega)
      have hd : d.toNat - '0'.toNat = 0 := by
        rcases Nat.mul_eq_zero.mp h.1 with hpow | hval
        · omega
        · omega
      refine ⟨?_, ih hds.2 h.2⟩
      have hdigit := hds.1
      rw [Char.isDigit, Bool.and_eq_true, decide_eq_true_eq, decide_eq_true_eq] at hdigit
      have hlo : 48 ≤ d.toNat := hdigit.1
      have hzero : '0'.toNat = 48 := rfl
      apply Char.toNat_inj.mp
      omega

/-- Digits that are added to a number change it, unless all of it is zero. -/
theorem zero_of_ofDigitChars_append (hds : ∀ c ∈ ds, c.isDigit = true) (hne : ds ≠ [])
    (h : Nat.ofDigitChars 10 (Nat.toDigits 10 m ++ ds) 0 = m) : m = 0 ∧ ∀ c ∈ ds, c = '0' := by
  rw [Nat.ofDigitChars_append, Nat.ofDigitChars_ten_toDigits,
    Nat.ofDigitChars_eq_ofDigitChars_zero] at h
  have hlen : 0 < ds.length := List.length_pos_iff.mpr hne
  have hpow : 10 ≤ 10 ^ ds.length := Nat.le_self_pow (by omega) 10
  have hmul : 10 * m ≤ 10 ^ ds.length * m := Nat.mul_le_mul_right m hpow
  have hm : m = 0 := by omega
  exact ⟨hm, eq_zero_of_ofDigitChars hds (by omega)⟩

/-- No number other than zero begins with a zero. -/
theorem head_toDigits_ne (hm : 0 < m) : (Nat.toDigits 10 m).head? ≠ some '0' := by
  induction m using Nat.strongRecOn with
  | ind m ih =>
      by_cases hlt : m < 10
      · rw [Nat.toDigits_of_lt_base hlt]
        have hall : ∀ d : Fin 10, 0 < d.val → [Nat.digitChar d.val].head? ≠ some '0' := by decide
        exact hall ⟨m, hlt⟩ hm
      · have hhead := ih (m / 10) (by omega) (by omega)
        rw [Nat.toDigits_of_base_le (by omega) (by omega)]
        cases hdigits : Nat.toDigits 10 (m / 10) with
        | nil => exact absurd hdigits Nat.toDigits_ne_nil
        | cons c digits =>
            rw [hdigits] at hhead
            exact hhead

/-- Digits that go on to a character that is none. -/
theorem digits_append_cases {digits : List Char} (hrest : NoDigit rest)
    (h : Nat.toDigits 10 m ++ more = digits ++ rest) :
    ∃ ds, digits = Nat.toDigits 10 m ++ ds ∧ more = ds ++ rest := by
  rcases List.append_eq_append_iff.mp h with ⟨ds, hds, hmore⟩ | ⟨ds, hds, hrest'⟩
  · exact ⟨ds, hds, hmore⟩
  · cases ds with
    | nil =>
        rw [List.append_nil] at hds
        rw [List.nil_append] at hrest'
        exact ⟨[], by rw [hds, List.append_nil], by rw [hrest', List.nil_append]⟩
    | cons c ds =>
        have hc : c ∈ Nat.toDigits 10 m := by
          rw [hds]
          exact List.mem_append_right _ List.mem_cons_self
        have hnot := hrest c (by rw [hrest']; rfl)
        rw [isDigit_of_mem hc] at hnot
        cases hnot

/-- The magnitude of a number that is read. -/
theorem natAbs_of_fromStr {sign : Option Char} {digits : List Char}
    (h : t.fromStr (sign, digits) = .ok n) : Nat.ofDigitChars 10 digits 0 = n.natAbs := by
  unfold IntType.fromStr at h
  dsimp only at h
  split_ifs at h with hminus hhas hhas
  · rw [← Except.ok.inj h, Int.natAbs_neg, Int.natAbs_natCast]
  · rw [← Except.ok.inj h, Int.natAbs_natCast]

/-- A number that is read from its text ends there, but for a zero before zeros. -/
theorem of_int (h : Reads (intParse t) (printInt n ++ more) n rest) :
    (NoDigit more ∧ rest = more) ∨
      (n = 0 ∧ ∃ zeros, zeros ≠ [] ∧ (∀ c ∈ zeros, c = '0') ∧ more = zeros ++ rest ∧
        NoDigit rest) := by
  obtain ⟨⟨sign, digits⟩, hread, hnumber⟩ := h.of_convert
  obtain ⟨htext, hsign, hne, hdigits, hrest⟩ := of_numberAsString hread
  have habs := natAbs_of_fromStr hnumber
  -- the digits of the number, and the digits that follow them
  have hds : ∃ ds, digits = Nat.toDigits 10 n.natAbs ++ ds ∧ more = ds ++ rest := by
    cases sign with
    | none =>
        cases n with
        | ofNat m => exact digits_append_cases hrest htext
        | negSucc m =>
            obtain ⟨c, digits', rfl⟩ := List.exists_cons_of_ne_nil hne
            have hc : '-' = c := (List.cons.inj htext).1
            have hdigit := hdigits c List.mem_cons_self
            rw [← hc] at hdigit
            cases hdigit
    | some c =>
        cases n with
        | ofNat m =>
            obtain ⟨d, hd, hdigit⟩ := head_toDigits m more
            have hc : d = c := by
              rw [show Nat.toDigits 10 m ++ more = c :: (digits ++ rest) from htext] at hd
              exact (Option.some.inj hd).symm
            rw [hc] at hdigit
            rcases hsign c rfl with rfl | rfl <;> cases hdigit
        | negSucc m => exact digits_append_cases hrest (List.cons.inj htext).2
  obtain ⟨ds, rfl, rfl⟩ := hds
  by_cases hempty : ds = []
  · subst hempty
    exact .inl ⟨hrest, rfl⟩
  · obtain ⟨hzero, hzeros⟩ := zero_of_ofDigitChars_append
      (fun c hc => hdigits c (List.mem_append_right _ hc)) hempty habs
    exact .inr ⟨Int.natAbs_eq_zero.mp hzero, ds, hempty, hzeros, rfl, hrest⟩

/-- The text begins with a sign and a zero. -/
def SignZero (s : List Char) : Prop :=
  ∃ sign more, s = sign :: '0' :: more ∧ (sign = '+' ∨ sign = '-')

/-- Where no digit begins, zero has a sign. -/
theorem signZero_of_int (h : Reads (intParse t) s 0 rest) (hs : NoDigit s) : SignZero s := by
  obtain ⟨⟨sign, digits⟩, hread, hnumber⟩ := h.of_convert
  obtain ⟨rfl, hsign, hne, hdigits, -⟩ := of_numberAsString hread
  obtain ⟨d, digits, rfl⟩ := List.exists_cons_of_ne_nil hne
  have hzero : d = '0' :=
    eq_zero_of_ofDigitChars hdigits (natAbs_of_fromStr hnumber) d List.mem_cons_self
  cases sign with
  | none =>
      have hnot := hs d rfl
      rw [hdigits d List.mem_cons_self] at hnot
      cases hnot
  | some c => exact ⟨c, digits ++ rest, by rw [← hzero]; rfl, hsign c rfl⟩

theorem not_signZero_printInt (n : Int) (rest : List Char) : ¬ SignZero (printInt n ++ rest) := by
  rintro ⟨sign, more, heq, hsign⟩
  cases n with
  | ofNat m =>
      obtain ⟨c, hc, hdigit⟩ := head_toDigits m rest
      rw [show Nat.toDigits 10 m ++ rest = _ from heq] at hc
      rw [← Option.some.inj hc] at hdigit
      rcases hsign with rfl | rfl <;> cases hdigit
  | negSucc m =>
      have htail : Nat.toDigits 10 (m + 1) ++ rest = '0' :: more := (List.cons.inj heq).2
      apply head_toDigits_ne (Nat.succ_pos m)
      cases hdigits : Nat.toDigits 10 (m + 1) with
      | nil => exact absurd hdigits Nat.toDigits_ne_nil
      | cons c digits =>
          rw [hdigits] at htail
          exact congrArg some (List.cons.inj htail).1

/-- Only the text of zero begins with a zero. -/
theorem zero_of_printInt (h : printInt n ++ more = '0' :: rest) : n = 0 ∧ more = rest := by
  cases n with
  | negSucc m => cases (List.cons.inj h).1
  | ofNat m =>
      by_cases hm : m = 0
      · subst hm
        exact ⟨rfl, (List.cons.inj h).2⟩
      · exfalso
        apply head_toDigits_ne (Nat.pos_of_ne_zero hm)
        have h : Nat.toDigits 10 m ++ more = '0' :: rest := h
        cases hdigits : Nat.toDigits 10 m with
        | nil => exact absurd hdigits Nat.toDigits_ne_nil
        | cons c digits =>
            rw [hdigits] at h
            exact congrArg some (List.cons.inj h).1

theorem not_signZero_of_ne {c : Char} (hplus : c ≠ '+') (hminus : c ≠ '-') :
    ¬ SignZero (c :: rest) := by
  rintro ⟨sign, more, heq, hsign⟩
  rw [← (List.cons.inj heq).1] at hsign
  rcases hsign with rfl | rfl
  · exact hplus rfl
  · exact hminus rfl

end Digits

/-! ## Booleans and identifiers are read back -/

section Words

variable {u : UnicodeTables} {s rest : List Char} {b : Bool} {id : String}

theorem reads_bool : Reads boolParse (printBool b ++ rest) b rest := by
  cases b with
  | true => exact (Reads.tokens (printBool true)).map.or_left
  | false =>
      refine Reads.or_right (Rejects.tokens (fun c hc => ?_)).map
        (Reads.tokens (printBool false)).map
      rw [← Option.some.inj hc]
      decide

/-- Does a character go on with a word? -/
def isWordChar (u : UnicodeTables) (c : Char) : Bool := u.isAlphanumeric c || c == '_'

/-- The text does not begin with a character that goes on with a word. -/
def NoWord (u : UnicodeTables) (s : List Char) : Prop := ∀ c ∈ s.head?, isWordChar u c = false

theorem isWordChar_of_isIdentChar {c : Char} (h : isIdentChar c = true) :
    isWordChar u c = true := isIdentChar_le h

/-- An identifier is read back where no letter, number or underscore follows. -/
theorem reads_identifier (hid : isValidIdentifier id = true) (hrest : NoWord u rest) :
    Reads (identifierParse u) (id.toList ++ rest) id rest := by
  obtain ⟨c, more, rfl⟩ := Legaliser.exists_of_isValidIdentifier hid
  have hvalid := hid
  rw [isValidIdentifier_cons, Bool.and_eq_true, List.all_eq_true] at hid
  have hmore : ∀ d ∈ more, isWordChar u d = true := fun d hd =>
    isWordChar_of_isIdentChar (hid.2 d hd)
  have htake : (more ++ rest).takeWhile (isWordChar u) = more := by
    rw [List.takeWhile_append_of_pos hmore]
    cases rest with
    | nil => rw [List.takeWhile_nil, List.append_nil]
    | cons d rest =>
        rw [List.takeWhile_cons_of_neg (by rw [hrest d rfl]; exact Bool.false_ne_true),
          List.append_nil]
  have hdrop : (more ++ rest).dropWhile (isWordChar u) = rest := by
    rw [List.dropWhile_append_of_pos hmore]
    cases rest with
    | nil => rfl
    | cons d rest =>
        exact List.dropWhile_cons_of_neg (by rw [hrest d rfl]; exact Bool.false_ne_true)
  refine ⟨true, ?_⟩
  rw [String.toList_ofList, List.cons_append, identifierParse, parseIdentifier,
    if_pos (isIdentStart_le hid.1)]
  dsimp only
  rw [show (fun c => u.isAlphanumeric c || c == '_') = isWordChar u from rfl, htake, hdrop,
    if_pos hvalid]

/-- What the parser of identifiers has read. -/
theorem of_identifier (h : Reads (identifierParse u) s id rest) :
    isValidIdentifier id = true ∧ s = id.toList ++ rest ∧ NoWord u rest := by
  obtain ⟨c', h⟩ := h
  cases s with
  | nil => cases h
  | cons c s =>
      rw [identifierParse, parseIdentifier] at h
      by_cases hstart : (u.isAlphabetic c || c == '_') = true
      · rw [if_pos hstart] at h
        dsimp only at h
        by_cases hvalid : isValidIdentifier (String.ofList (c :: s.takeWhile
            fun c => u.isAlphanumeric c || c == '_')) = true
        · rw [if_pos hvalid] at h
          obtain ⟨_, rfl, rfl⟩ := Reply.ok.inj (Option.some.inj h)
          refine ⟨hvalid, ?_, fun d hd => ?_⟩
          · rw [String.toList_ofList, List.cons_append, List.takeWhile_append_dropWhile]
          · have hnot := List.head?_dropWhile_not (fun c => u.isAlphanumeric c || c == '_') s
            rw [Option.mem_def.mp hd] at hnot
            exact hnot
        · rw [if_neg hvalid] at h
          cases h
      · rw [if_neg hstart] at h
        cases h

/-- A parser of identifiers rejects what does not begin with a letter or an underscore. -/
theorem rejects_identifier {c : Char} (hc : u.isAlphabetic c = false) (hunder : c ≠ '_') :
    Rejects (identifierParse u) (c :: s) := by
  refine ⟨.unexpected, ?_⟩
  rw [identifierParse, parseIdentifier, if_neg]
  rw [hc, beq_false_of_ne hunder]
  exact Bool.false_ne_true

end Words

end Pliron.Text
