/-
  Pliron.IRFmt.QuotedString

  Quoted strings, as text: the printer writes the `Debug` form of a string, and the parser has
  its own table of escapes.
-/

import Pliron.Lib.Combine

namespace Pliron.Text

open Pliron.Lib.Combine Parser

/-! ## Characters -/

def quote : Char := '\x22'

def backslash : Char := '\x5c'

def openBrace : Char := '\x7b'

def closeBrace : Char := '\x7d'

/-- Why parsing text fails. -/
inductive TextErr where
  /-- The input is not what the syntax asks for. -/
  | unexpected
  | invalidUnicodeEscape (digits : List Char)
  | unexpectedEscape (c : Char)
  /-- A number that its type does not have. -/
  | invalidNumber
  /-- An error that the parser of a type reports. -/
  | custom (message : String)
deriving DecidableEq

/-- The message of an error. -/
def TextErr.display : TextErr → String
  | .unexpected => "Unexpected input"
  | .invalidUnicodeEscape digits =>
      "Invalid unicode escape " ++
        String.ofList (backslash :: 'u' :: openBrace :: digits ++ [closeBrace])
  | .unexpectedEscape c => "Unexpected escaped character " ++ String.ofList [backslash, c]
  | .invalidNumber => "Invalid number"
  | .custom message => message

abbrev TextParser (A : Type) := Parser Char TextErr A

def char (c : Char) : TextParser Char := token .unexpected c

/-- The value of a hexadecimal digit. -/
def hexDigitValue (c : Char) : Option Nat :=
  if c.isDigit then some (c.toNat - '0'.toNat)
  else if 'a' ≤ c ∧ c ≤ 'f' then some (c.toNat - 'a'.toNat + 10)
  else if 'A' ≤ c ∧ c ≤ 'F' then some (c.toNat - 'A'.toNat + 10)
  else none

def hexDigit : TextParser Char := satisfy .unexpected (fun c => (hexDigitValue c).isSome)

/-- The number that hexadecimal digits stand for, if it fits into 32 bits. -/
def u32FromHex (digits : List Char) : Option Nat :=
  digits.foldlM (fun n c => do
    let d ← hexDigitValue c
    if n * 16 + d < 2 ^ 32 then some (n * 16 + d) else none) 0

/-- The Unicode scalar value of a number. -/
def charFromU32 (n : Nat) : Option Char :=
  if n < 0xd800 ∨ 0xdfff < n ∧ n < 0x110000 then some (Char.ofNat n) else none

/-! ## The printer -/

/-- A character as `Debug` writes it inside a string.  Which characters are not printable, or
    extend a grapheme, is a parameter. -/
def escapeDebug (nonPrintable : Char → Bool) (c : Char) : List Char :=
  if c = '\x00' then [backslash, '0']
  else if c = '\t' then [backslash, 't']
  else if c = '\r' then [backslash, 'r']
  else if c = '\n' then [backslash, 'n']
  else if c = backslash ∨ c = quote then [backslash, c]
  else if nonPrintable c then
    backslash :: 'u' :: openBrace :: Nat.toDigits 16 c.toNat ++ [closeBrace]
  else [c]

/-- Print a string as a quoted string. -/
def quoted (nonPrintable : Char → Bool) (s : String) : List Char :=
  quote :: s.toList.flatMap (escapeDebug nonPrintable) ++ [quote]

/-! ## The parser -/

/-- The escaped characters that are handled. -/
def unescape (c : Char) : Except TextErr Char :=
  if c = backslash then .ok backslash
  else if c = quote then .ok quote
  else if c = '\x27' then .ok '\x27'
  else if c = '0' then .ok '\x00'
  else if c = 'n' then .ok '\n'
  else if c = 'r' then .ok '\r'
  else if c = 't' then .ok '\t'
  else .error (.unexpectedEscape c)

/-- The character of a unicode escape. -/
def unicodeEscape (digits : List Char) : Except TextErr Char :=
  match (u32FromHex digits).bind charFromU32 with
  | some c => .ok c
  | none => .error (.invalidUnicodeEscape digits)

/-- A character that is preceded by a backslash. -/
def escapedChar : TextParser Char :=
  ((char backslash).withRight (satisfy .unexpected (fun _ => true))).andThen (fun c =>
    if c = 'u' then
      (between (char openBrace) (char closeBrace) (many1 hexDigit)).andThen
        (fun digits => result (unicodeEscape digits))
    else result (unescape c))

/-- Parse a quoted string: a double-quoted string that may contain escaped characters. -/
def quotedStringParse : TextParser String :=
  (between (char quote) (char quote)
    (many (escapedChar.or (satisfy .unexpected (· != quote))))).map String.ofList

/-! ## Escapes -/

theorem hexDigitValue_digitChar {d : Nat} (hd : d < 16) :
    hexDigitValue (Nat.digitChar d) = some d := by
  have hall : ∀ d : Fin 16, hexDigitValue (Nat.digitChar d) = some d.val := by decide
  exact hall ⟨d, hd⟩

theorem u32FromHex_append (digits : List Char) (c : Char) : u32FromHex (digits ++ [c]) =
    (u32FromHex digits).bind (fun n => (hexDigitValue c).bind (fun d =>
      if n * 16 + d < 2 ^ 32 then some (n * 16 + d) else none)) := by
  rw [u32FromHex, List.foldlM_append]
  simp only [List.foldlM_cons, List.foldlM_nil, Option.bind_eq_bind, Option.pure_def,
    Option.bind_fun_some]
  rfl

/-- The digits of a number are read back. -/
theorem u32FromHex_toDigits (n : Nat) (hn : n < 2 ^ 32) :
    u32FromHex (Nat.toDigits 16 n) = some n := by
  induction n using Nat.strongRecOn with
  | ind n ih =>
      by_cases hlt : n < 16
      · rw [Nat.toDigits_of_lt_base hlt, ← List.nil_append [n.digitChar], u32FromHex_append,
          hexDigitValue_digitChar hlt]
        simp only [u32FromHex, List.foldlM_nil, Option.pure_def, Option.bind_some, Nat.zero_mul,
          Nat.zero_add, if_pos hn]
      · have hdiv : n / 16 < n := Nat.div_lt_self (by omega) (by decide)
        rw [Nat.toDigits_of_base_le (by decide) (by omega), u32FromHex_append,
          ih (n / 16) hdiv (by omega), hexDigitValue_digitChar (Nat.mod_lt _ (by decide))]
        have hsplit : n / 16 * 16 + n % 16 = n := by omega
        simp only [Option.bind_some, hsplit, if_pos hn]

theorem isSome_hexDigitValue_of_mem {n : Nat} {c : Char} (h : c ∈ Nat.toDigits 16 n) :
    (hexDigitValue c).isSome = true := by
  induction n using Nat.strongRecOn with
  | ind n ih =>
      by_cases hlt : n < 16
      · rw [Nat.toDigits_of_lt_base hlt, List.mem_singleton] at h
        rw [h, hexDigitValue_digitChar hlt]
        rfl
      · have hdiv : n / 16 < n := Nat.div_lt_self (by omega) (by decide)
        rw [Nat.toDigits_of_base_le (by decide) (by omega), List.mem_append,
          List.mem_singleton] at h
        obtain h | rfl := h
        · exact ih (n / 16) hdiv h
        · rw [hexDigitValue_digitChar (Nat.mod_lt _ (by decide))]
          rfl

theorem charFromU32_toNat (c : Char) : charFromU32 c.toNat = some c := by
  have hvalid : c.toNat < 0xd800 ∨ 0xdfff < c.toNat ∧ c.toNat < 0x110000 := c.valid
  rw [charFromU32, if_pos hvalid, Char.ofNat_toNat]

theorem unicodeEscape_toDigits (c : Char) : unicodeEscape (Nat.toDigits 16 c.toNat) = .ok c := by
  have hlt : c.toNat < 2 ^ 32 := c.val.toNat_lt
  rw [unicodeEscape, u32FromHex_toDigits _ hlt, Option.bind_some, charFromU32_toNat]

/-- A backslash, and a character other than `u`. -/
theorem reads_escaped {c c' : Char} {rest : List Char} (hu : c ≠ 'u')
    (hc : unescape c = .ok c') : Reads escapedChar (backslash :: c :: rest) c' rest := by
  refine (Reads.token.withRight (Reads.satisfy rfl)).andThen ?_
  rw [if_neg hu, hc]
  exact Reads.result

theorem reads_unicodeEscape {c : Char} {rest : List Char} : Reads escapedChar
    (backslash :: 'u' :: openBrace :: Nat.toDigits 16 c.toNat ++ closeBrace :: rest) c rest := by
  refine (Reads.token.withRight (Reads.satisfy rfl)).andThen ?_
  rw [if_pos rfl]
  have hdigits : Reads (many1 hexDigit) (Nat.toDigits 16 c.toNat ++ closeBrace :: rest)
      (Nat.toDigits 16 c.toNat) (closeBrace :: rest) := by
    refine Reads.many1_satisfy Nat.toDigits_ne_nil
      (fun d hd => isSome_hexDigitValue_of_mem hd) ?_
    intro d hd
    rw [← Option.some.inj hd]
    rfl
  refine (Reads.token.between hdigits Reads.token).andThen ?_
  rw [unicodeEscape_toDigits]
  exact Reads.result

/-- Each character that is written is read. -/
theorem reads_escapeDebug (nonPrintable : Char → Bool) (c : Char) (rest : List Char) :
    Reads (escapedChar.or (satisfy .unexpected (· != quote)))
      (escapeDebug nonPrintable c ++ rest) c rest := by
  rw [escapeDebug]
  split_ifs with h0 ht hr hn hself hnon
  · exact (reads_escaped (by decide) (by rw [h0]; rfl)).or_left
  · exact (reads_escaped (by decide) (by rw [ht]; rfl)).or_left
  · exact (reads_escaped (by decide) (by rw [hr]; rfl)).or_left
  · exact (reads_escaped (by decide) (by rw [hn]; rfl)).or_left
  · obtain rfl | rfl := hself
    · exact (reads_escaped (by decide) rfl).or_left
    · exact (reads_escaped (by decide) rfl).or_left
  · rw [List.append_assoc]
    exact reads_unicodeEscape.or_left
  · rw [not_or] at hself
    refine Reads.or_right (Rejects.token ?_).withRight.andThen (Reads.satisfy ?_)
    · intro c' hc'
      rw [← Option.some.inj hc']
      exact hself.1
    · exact bne_iff_ne.mpr hself.2

theorem escapeDebug_ne_nil (nonPrintable : Char → Bool) (c : Char) :
    escapeDebug nonPrintable c ≠ [] := by
  rw [escapeDebug]
  split_ifs <;> exact List.cons_ne_nil _ _

/-! ## Quoted strings -/

/-- A string whose characters are written one by one, as they are read, is read back. -/
theorem reads_quotedWith {escape : Char → List Char}
    (hread : ∀ c rest, Reads (escapedChar.or (satisfy .unexpected (· != quote)))
      (escape c ++ rest) c rest) (hne : ∀ c, escape c ≠ []) (s : String) (rest : List Char) :
    Reads quotedStringParse (quote :: s.toList.flatMap escape ++ [quote] ++ rest) s rest := by
  have hchars : ∀ cs : List Char, Reads (many (escapedChar.or (satisfy .unexpected (· != quote))))
      (cs.flatMap escape ++ quote :: rest) cs (quote :: rest) := by
    intro cs
    induction cs with
    | nil =>
        refine Reads.many_nil (Rejects.or (Rejects.token ?_).withRight.andThen
          (Rejects.satisfy ?_))
        · intro c hc
          rw [← Option.some.inj hc]
          decide
        · intro c hc
          rw [← Option.some.inj hc]
          rfl
    | cons c cs ih =>
        have hc := hread c (cs.flatMap escape ++ quote :: rest)
        have hpos := List.length_pos_of_ne_nil (hne c)
        rw [List.flatMap_cons, List.append_assoc]
        refine Reads.many_cons hc ?_ ih
        simp only [List.length_append]
        omega
  have htext : quote :: s.toList.flatMap escape ++ [quote] ++ rest =
      quote :: (s.toList.flatMap escape ++ quote :: rest) := by
    rw [List.cons_append, List.cons_append, List.append_assoc]
    rfl
  have hstring : Reads quotedStringParse
      (quote :: (s.toList.flatMap escape ++ quote :: rest)) (String.ofList s.toList) rest :=
    (Reads.token.between (hchars s.toList) Reads.token).map
  rw [String.ofList_toList] at hstring
  rw [htext]
  exact hstring

theorem reads_quoted (nonPrintable : Char → Bool) (s : String) (rest : List Char) :
    Reads quotedStringParse (quoted nonPrintable s ++ rest) s rest :=
  reads_quotedWith (reads_escapeDebug nonPrintable) (escapeDebug_ne_nil nonPrintable) s rest

theorem advances_quotedStringParse : Advances quotedStringParse := by
  have hescaped : Advances escapedChar := by
    refine (Advances.satisfy.withRight Advances.satisfy.returns).andThen (fun c => ?_)
    by_cases hu : c = 'u'
    · rw [if_pos hu]
      exact (Advances.satisfy.between Advances.satisfy.many1.returns
        Advances.satisfy.returns).returns.andThen (fun _ => Returns.result)
    · rw [if_neg hu]
      exact Returns.result
  exact (Advances.satisfy.between (Returns.many (hescaped.or Advances.satisfy))
    Advances.satisfy.returns).map

/-- Every string is read back from its quoted text, whatever follows, and the parser returns a
    string or an error for every input. -/
theorem quotedString_roundTrip (nonPrintable : Char → Bool) :
    (∀ (s : String) (rest : List Char), ∃ committed,
      quotedStringParse (quoted nonPrintable s ++ rest) = some (.ok committed s rest)) ∧
    (∀ input : List Char,
      (∃ committed s rest, quotedStringParse input = some (.ok committed s rest)) ∨
      (∃ committed e, quotedStringParse input = some (.err committed e))) := by
  refine ⟨reads_quoted nonPrintable, fun input => ?_⟩
  obtain ⟨reply, hreply, _⟩ := advances_quotedStringParse input
  cases reply with
  | ok c s rest => exact Or.inl ⟨c, s, rest, hreply⟩
  | err c e => exact Or.inr ⟨c, e, hreply⟩

end Pliron.Text
