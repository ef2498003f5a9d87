/-
  Pliron.IRFmt.DerivedFormatText

  The text of values in their default format, and the values that are read back
  from it.

  Fields without names are printed with nothing between them, so the text of an
  integer may go on in the next integer, and that of a name in the next word.
-/

import Pliron.IRFmt.DerivedFormatRuns
import Pliron.IRFmt.FormatStringCorrect

namespace Pliron.Derive

open Pliron.Text Pliron.Lib.Combine Pliron.Lib.Combine.Parser

/-! ## The types of the language -/

mutual

/-- Are the fields of the type, and those of its parts, as the language has them? -/
def Ty.Formed : Ty → Prop
  | .struct fields => Shaped fields.idents ∧ fields.Formed
  | .enum variants => variants.Formed
  | _ => True

def Fields.Formed : Fields → Prop
  | .nil => True
  | .cons _ ty rest => ty.Formed ∧ rest.Formed

def Variants.Formed : Variants → Prop
  | .nil => True
  | .cons _ fields rest => Shaped fields.idents ∧ fields.Formed ∧ rest.Formed

end

/-- The value is read back from its text, alone or where a space, a comma or a closing bracket
follows, and nothing but white space is consumed after it. -/
def ParsesBack (u : UnicodeTables) (nonPrintable : Char → Bool) (ty : Ty) (v : Value) : Prop :=
  ∀ rest : List Char, (∀ c ∈ rest.head?, c ∈ [' ', ',', ')', ']', closeBrace, '>']) →
    ∃ ws rest', rest = ws ++ rest' ∧ AllSpace ws ∧
      Reads (parser u ty) (print nonPrintable ty v ++ rest) v rest'

/-! ## Where a text goes on in the next one -/

/-- What a text begins with. -/
inductive Start where
  | digit
  /-- A letter or an underscore. -/
  | letter
  | mark
deriving DecidableEq, Repr

/-- What the text of a value begins with, if it is not empty. -/
def Value.start : Value → Option Start
  | .int n => if 0 ≤ n then some .digit else some .mark
  | .bool _ | .identifier _ | .variant _ _ => some .letter
  | .string _ | .struct (_ :: _) => some .mark
  | .struct [] => none

/-- What the texts of values begin with. -/
def startOf (vs : List Value) : Option Start := vs.findSome? Value.start

/-- Is the end of the value seen where such a text follows? -/
def Value.CanPrecede : Value → Option Start → Prop
  | .int _, some .digit => False
  | .identifier _, some .digit | .identifier _, some .letter => False
  | .variant _ [], some .digit | .variant _ [], some .letter => False
  | _, _ => True

mutual

/-- No two fields of the value run into each other. -/
def Apart : Ty → Value → Prop
  | .struct fields, .struct vs => ApartFields fields vs
  | .enum variants, .variant name vs => ApartVariant variants name vs
  | _, _ => True

def ApartFields : Fields → List Value → Prop
  | .cons ident ty rest, v :: vs =>
      Apart ty v ∧ (ident.isNamed ∨ v.CanPrecede (startOf vs)) ∧ ApartFields rest vs
  | _, _ => True

def ApartVariant : Variants → String → List Value → Prop
  | .nil, _, _ => True
  | .cons name' fields rest, name, vs =>
      if name' = name then ApartFields fields vs else ApartVariant rest name vs

end

mutual

/-- The names of variants in the value are identifiers of the format. -/
def ValidVariants : Ty → Value → Prop
  | .struct fields, .struct vs => ValidFields fields vs
  | .enum variants, .variant name vs =>
      isValidIdentifier name = true ∧ ValidVariant variants name vs
  | _, _ => True

def ValidFields : Fields → List Value → Prop
  | .cons _ ty rest, v :: vs => ValidVariants ty v ∧ ValidFields rest vs
  | _, _ => True

def ValidVariant : Variants → String → List Value → Prop
  | .nil, _, _ => True
  | .cons name' fields rest, name, vs =>
      if name' = name then ValidFields fields vs else ValidVariant rest name vs

end

/-! ## Keys -/

section Keys

variable {u : UnicodeTables}

theorem keys_fieldParsers (fields : Fields) : (fieldParsers u fields).keys = fields.idents :=
  match fields with
  | .nil => rfl
  | .cons ident _ rest => congrArg (ident :: ·) (keys_fieldParsers rest)

theorem keys_fieldTexts (nonPrintable : Char → Bool) {fields : Fields} {vs : List Value}
    (h : HasFields fields vs) : (fieldTexts nonPrintable fields vs).keys = fields.idents :=
  match fields, vs, h with
  | .nil, [], _ => rfl
  | .cons ident _ _, _ :: _, h => congrArg (ident :: ·) (keys_fieldTexts nonPrintable h.2)

end Keys

/-! ## Heads of texts -/

section Heads

variable (u : UnicodeTables)

/-- Is it a character of this kind? -/
def Start.Is : Start → Char → Prop
  | .digit, c => c.isDigit = true
  | .letter, c => isIdentStart c = true
  | .mark, c => isWordChar u c = false ∧ isWhitespace c = false ∧ c ≠ '+'

/-- The text begins like this. -/
def Begins : Option Start → List Char → Prop
  | none, text => text = []
  | some start, text => ∃ c text', text = c :: text' ∧ start.Is u c

variable {u}

theorem isWordChar_of_isIdentStart {c : Char} (h : isIdentStart c = true) :
    isWordChar u c = true := isWordChar_of_isIdentChar (isIdentChar_of_isIdentStart h)

theorem isDigit_of_isWordChar {c : Char} (h : isWordChar u c = false) : c.isDigit = false := by
  by_contra hdigit
  rw [isWordChar_of_isDigit (Bool.eq_true_of_not_eq_false hdigit)] at h
  cases h

theorem isDigit_of_isIdentStart {c : Char} (h : isIdentStart c = true) : c.isDigit = false := by
  rw [isIdentStart, Bool.or_eq_true, beq_iff_eq] at h
  rcases h with halpha | rfl
  · have hrange := range_of_isAlpha halpha
    rw [Char.isDigit, Bool.and_eq_false_iff, decide_eq_false_iff_not, decide_eq_false_iff_not]
    show ¬ 48 ≤ c.toNat ∨ ¬ c.toNat ≤ 57
    omega
  · decide

theorem isWhitespace_of_isIdentStart {c : Char} (h : isIdentStart c = true) :
    isWhitespace c = false := by
  rw [isIdentStart, Bool.or_eq_true, beq_iff_eq] at h
  rcases h with halpha | rfl
  · exact isWhitespace_of_isAlpha halpha
  · decide

theorem Start.Is.isWhitespace_eq {start : Start} {c : Char} (h : start.Is u c) :
    isWhitespace c = false := by
  cases start with
  | digit => exact isWhitespace_of_isDigit h
  | letter => exact isWhitespace_of_isIdentStart h
  | mark => exact h.2.1

theorem Begins.append {start start' : Option Start} {text text' : List Char}
    (h : Begins u start text) (h' : Begins u start' text') :
    Begins u (start.or start') (text ++ text') := by
  cases start with
  | none =>
      rw [show text = [] from h]
      exact h'
  | some start =>
      obtain ⟨c, more, rfl, hc⟩ := h
      exact ⟨c, more ++ text', rfl, hc⟩

theorem Begins.noSpace {start : Option Start} {text rest : List Char} (h : Begins u start text)
    (hrest : NoSpace rest) : NoSpace (text ++ rest) := by
  cases start with
  | none =>
      rw [show text = [] from h]
      exact hrest
  | some start =>
      obtain ⟨c, more, rfl, hc⟩ := h
      exact noSpace_cons hc.isWhitespace_eq

end Heads

/-! ## Heads of the texts of values -/

section Texts

variable {u : UnicodeTables} {nonPrintable : Char → Bool} {fields : Fields} {vs : List Value}

theorem begins_identifier {id : String} (h : isValidIdentifier id = true) :
    Begins u (some .letter) id.toList := by
  obtain ⟨c, more, rfl⟩ := Legaliser.exists_of_isValidIdentifier h
  rw [isValidIdentifier_cons, Bool.and_eq_true] at h
  rw [String.toList_ofList]
  exact ⟨c, more, rfl, h.1⟩

theorem begins_printInt (n : Int) :
    Begins u (if 0 ≤ n then some .digit else some .mark) (printInt n) := by
  cases n with
  | ofNat n =>
      obtain ⟨c, hc, hdigit⟩ := head_toDigits n []
      rw [List.append_nil] at hc
      rw [if_pos (show (0 : Int) ≤ Int.ofNat n from Int.natCast_nonneg n)]
      exact ⟨c, _, (List.cons_head?_tail hc).symm, hdigit⟩
  | negSucc n =>
      rw [if_neg (by omega)]
      exact ⟨'-', _, rfl, rfl, by decide, by decide⟩

theorem fieldTexts_eq_nil_iff (h : HasFields fields vs) :
    fieldTexts nonPrintable fields vs = [] ↔ vs = [] := by
  cases fields with
  | nil =>
      cases vs with
      | nil => exact iff_of_true rfl rfl
      | cons v vs => exact h.elim
  | cons ident ty rest =>
      cases vs with
      | nil => exact h.elim
      | cons v vs => exact iff_of_false (List.cons_ne_nil _ _) (List.cons_ne_nil _ _)

/-- The text of the fields of a struct or of a variant. -/
theorem structText_eq (hshaped : Shaped fields.idents) (h : HasFields fields vs) :
    buildFormat (fieldTexts nonPrintable fields vs) (canonicalFormatForStructs fields.idents) =
      if vs = [] then []
      else (brackets fields.idents).1 ::
        (fieldsText 0 (fieldTexts nonPrintable fields vs) ++ [(brackets fields.idents).2]) := by
  have hkeys := keys_fieldTexts nonPrintable h
  have hnodup : (fieldTexts nonPrintable fields vs).keys.Nodup := hkeys ▸ hshaped.nodup
  have heq := buildFormat_eq hnodup
  rw [hkeys] at heq
  rw [heq]
  by_cases hvs : vs = []
  · rw [if_pos hvs, if_pos ((fieldTexts_eq_nil_iff h).mpr hvs)]
  · rw [if_neg hvs, if_neg (fun hnil => hvs ((fieldTexts_eq_nil_iff h).mp hnil))]

/-- The brackets are marks. -/
theorem brackets_are (u : UnicodeTables) (idents : List FieldIdent) :
    Start.mark.Is u (brackets idents).1 ∧ Start.mark.Is u (brackets idents).2 := by
  unfold brackets
  by_cases hnamed : idents.any FieldIdent.isNamed
  · rw [if_pos hnamed]
    exact ⟨⟨rfl, by decide, by decide⟩, ⟨rfl, by decide, by decide⟩⟩
  · rw [if_neg hnamed]
    exact ⟨⟨rfl, by decide, by decide⟩, ⟨rfl, by decide, by decide⟩⟩

/-- What the text of a value begins with. -/
theorem begins_print (nonPrintable : Char → Bool) {ty : Ty} {v : Value}
    (hformed : ty.Formed) (h : HasTy ty v)
    (hvalid : ValidVariants ty v) : Begins u v.start (print nonPrintable ty v) := by
  cases ty with
  | int t =>
      cases v with
      | int n => exact begins_printInt n
      | _ => exact h.elim
  | bool =>
      cases v with
      | bool b => cases b <;> exact ⟨_, _, rfl, rfl⟩
      | _ => exact h.elim
  | string =>
      cases v with
      | string s => exact ⟨quote, _, rfl, rfl, by decide, by decide⟩
      | _ => exact h.elim
  | identifier =>
      cases v with
      | identifier id => exact begins_identifier h
      | _ => exact h.elim
  | struct fields =>
      cases v with
      | struct vs =>
          show Begins u _ (buildFormat (fieldTexts nonPrintable fields vs) _)
          rw [structText_eq hformed.1 h]
          cases vs with
          | nil => exact rfl
          | cons v vs => exact ⟨_, _, rfl, (brackets_are u fields.idents).1⟩
      | _ => exact h.elim
  | enum variants =>
      cases v with
      | variant name vs =>
          obtain ⟨c, more, htext, hc⟩ := begins_identifier (u := u) hvalid.1
          refine ⟨c, more ++ variantText nonPrintable variants name vs, ?_, hc⟩
          rw [print, htext]
          rfl
      | _ => exact h.elim

/-- What the texts of fields without names begin with. -/
theorem begins_fieldsText {fields : Fields} {vs : List Value} {i : Nat}
    (hformed : fields.Formed) (h : HasFields fields vs)
    (hvalid : ValidFields fields vs) (hun : ∀ ident ∈ fields.idents, ident.isNamed = false) :
    Begins u (startOf vs) (fieldsText i (fieldTexts nonPrintable fields vs)) :=
  match fields, vs, hformed, h, hvalid, hun with
  | .nil, [], _, _, _, _ => rfl
  | .cons (.named _) _ _, _ :: _, _, _, _, hun => absurd (hun _ List.mem_cons_self) nofun
  | .cons (.unnamed _) _ _, v :: vs, hformed, h, hvalid, hun => by
      have hstart : startOf (v :: vs) = v.start.or (startOf vs) := by
        rw [startOf, List.findSome?_cons]
        cases v.start <;> rfl
      rw [hstart]
      exact (begins_print _ hformed.1 h.1 hvalid.1).append
        (begins_fieldsText hformed.2 h.2 hvalid.2
          (fun ident hident => hun ident (List.mem_cons_of_mem _ hident)))

end Texts

/-! ## The end of a value -/

section Ends

variable (u : UnicodeTables)

/-- The text does not go on with the last word of the value. -/
def Value.EndsAt : Value → List Char → Prop
  | .int _, rest => NoDigit rest
  | .identifier _, rest | .variant _ [], rest => NoWord u rest
  | _, _ => True

variable {u} {start : Option Start} {text rest : List Char} {c : Char}

theorem noDigit_iff (h : Begins u start text) (hc : Start.mark.Is u c) :
    NoDigit (text ++ c :: rest) ↔ start ≠ some .digit := by
  cases start with
  | none =>
      rw [show text = [] from h]
      exact iff_of_true (noDigit_cons (isDigit_of_isWordChar hc.1)) nofun
  | some start =>
      obtain ⟨d, more, rfl, hd⟩ := h
      cases start with
      | digit =>
          refine iff_of_false (fun hno => ?_) (fun hne => hne rfl)
          have hnot : d.isDigit = false := hno d rfl
          rw [show d.isDigit = true from hd] at hnot
          cases hnot
      | letter => exact iff_of_true (noDigit_cons (isDigit_of_isIdentStart hd)) nofun
      | mark => exact iff_of_true (noDigit_cons (isDigit_of_isWordChar hd.1)) nofun

theorem noWord_cons (h : isWordChar u c = false) : NoWord u (c :: rest) := by
  intro d hd
  rwa [← Option.some.inj hd]

theorem noWord_iff (h : Begins u start text) (hc : Start.mark.Is u c) :
    NoWord u (text ++ c :: rest) ↔ start ≠ some .digit ∧ start ≠ some .letter := by
  have hnot : ∀ {d : Char} {s : List Char}, isWordChar u d = true → ¬ NoWord u (d :: s) := by
    intro d s hd hno
    rw [hno d rfl] at hd
    cases hd
  cases start with
  | none =>
      rw [show text = [] from h]
      exact iff_of_true (noWord_cons hc.1) ⟨nofun, nofun⟩
  | some start =>
      obtain ⟨d, more, rfl, hd⟩ := h
      cases start with
      | digit => exact iff_of_false (hnot (isWordChar_of_isDigit hd)) (fun hne => hne.1 rfl)
      | letter => exact iff_of_false (hnot (isWordChar_of_isIdentStart hd)) (fun hne => hne.2 rfl)
      | mark => exact iff_of_true (noWord_cons hd.1) ⟨nofun, nofun⟩

/-- A value ends where its text does. -/
theorem endsAt_iff {v : Value} (h : Begins u start text) (hc : Start.mark.Is u c) :
    v.EndsAt u (text ++ c :: rest) ↔ v.CanPrecede start := by
  cases v with
  | int n =>
      show NoDigit _ ↔ _
      rw [noDigit_iff h hc]
      rcases start with _ | _ | _ | _ <;> simp [Value.CanPrecede]
  | identifier id =>
      show NoWord u _ ↔ _
      rw [noWord_iff h hc]
      rcases start with _ | _ | _ | _ <;> simp [Value.CanPrecede]
  | variant name fields =>
      cases fields with
      | nil =>
          show NoWord u _ ↔ _
          rw [noWord_iff h hc]
          rcases start with _ | _ | _ | _ <;> simp [Value.CanPrecede]
      | cons v vs => exact iff_of_true trivial trivial
  | _ => exact iff_of_true trivial trivial

end Ends

/-! ## Literals -/

section Literals

variable {lit : String} {lits : List String} {s s' rest : List Char}

/-- A text without white space. -/
def Solid (s : List Char) : Prop := ∀ c ∈ s, isWhitespace c = false

theorem trim_of_solid (h : Solid s) : trim s = s := by
  have hdrop : ∀ {t : List Char}, Solid t → t.dropWhile isWhitespace = t := by
    intro t ht
    apply dropWhile_of_noSpace
    exact fun c hc => ht c (List.mem_of_mem_head? hc)
  have hrev : Solid s.reverse := fun c hc => h c (List.mem_reverse.mp hc)
  rw [trim, hdrop h, hdrop hrev, List.reverse_reverse]

theorem Solid.noSpace (h : Solid s) (hrest : NoSpace rest) : NoSpace (s ++ rest) := by
  cases s with
  | nil => exact hrest
  | cons c s => exact noSpace_cons (h c List.mem_cons_self)

theorem reads_litParse (rest : List Char) (h : Solid lit.toList) :
    Reads (litParse lit) (lit.toList ++ rest) () (rest.dropWhile isWhitespace) := by
  rw [litParse, trim_of_solid h]
  cases htext : lit.toList with
  | nil =>
      have hread := reads_spaced (p := string []) (s := rest)
        (Reads.value (a := ()) (s := rest.dropWhile isWhitespace))
      rwa [dropWhile_of_noSpace (noSpace_dropWhile rest)] at hread
  | cons c text =>
      apply reads_spaced
      rw [htext] at h
      rw [List.cons_append, dropWhile_of_noSpace (noSpace_cons (h c List.mem_cons_self))]
      exact Reads.tokens (c :: text)

/-- Literals are read as they are written. -/
theorem litsRead (h : ∀ lit ∈ lits, Solid lit.toList) (hrest : NoSpace rest) :
    LitsRead lits (litsText lits ++ rest) rest := by
  induction lits with
  | nil => exact .nil
  | cons lit lits ih =>
      rw [List.forall_mem_cons] at h
      have hsolid : Solid (litsText lits) := by
        intro c hc
        obtain ⟨lit', hlit', hc⟩ := List.mem_flatMap.mp hc
        exact h.2 lit' hlit' c hc
      have hread := reads_litParse (litsText lits ++ rest) h.1
      rw [dropWhile_of_noSpace (hsolid.noSpace hrest)] at hread
      rw [litsText, List.flatMap_cons, List.append_assoc]
      exact .cons hread (ih h.2)

theorem LitsRead.unique {s₁ s₂ : List Char} (h : LitsRead lits s s₁) (h' : LitsRead lits s s₂) :
    s₁ = s₂ := by
  induction h with
  | nil =>
      cases h'
      rfl
  | cons hlit _ ih =>
      cases h' with
      | cons hlit' hlits' =>
          obtain ⟨-, rfl⟩ := hlit.unique hlit'
          exact ih hlits'

/-- Fields of one kind: names without white space, or positions. -/
def Uniform (idents : List FieldIdent) : Prop :=
  (∀ ident ∈ idents, ∃ name, ident = .named name ∧ Solid name.toList) ∨
    ∀ ident ∈ idents, ident.isNamed = false

theorem Shaped.uniform {idents : List FieldIdent} (h : Shaped idents) : Uniform idents := by
  rcases h with ⟨names, rfl, -, hsolid⟩ | hrange
  · left
    intro ident hident
    obtain ⟨name, hname, rfl⟩ := List.mem_map.mp hident
    exact ⟨name, rfl, hsolid name hname⟩
  · right
    intro ident hident
    rw [hrange] at hident
    obtain ⟨index, -, rfl⟩ := List.mem_map.mp hident
    rfl

theorem Uniform.tail {ident : FieldIdent} {idents : List FieldIdent}
    (h : Uniform (ident :: idents)) : Uniform idents :=
  h.imp (fun h ident hident => h ident (List.mem_cons_of_mem _ hident))
    (fun h ident hident => h ident (List.mem_cons_of_mem _ hident))

theorem Uniform.solid {i : Nat} {ident : FieldIdent} {idents : List FieldIdent}
    (h : Uniform (ident :: idents)) : ∀ lit ∈ fieldLits i ident, Solid lit.toList := by
  intro lit hlit
  cases ident with
  | unnamed index => cases hlit
  | named name =>
      have hname : Solid name.toList := by
        rcases h with h | h
        · obtain ⟨name', heq, hsolid⟩ := h _ List.mem_cons_self
          cases heq
          exact hsolid
        · cases h _ List.mem_cons_self
      rcases List.mem_append.mp hlit with hcomma | hlit
      · by_cases hi : i > 0
        · rw [if_pos hi, List.mem_singleton] at hcomma
          rw [hcomma]
          exact List.forall_mem_singleton.mpr (by decide)
        · rw [if_neg hi] at hcomma
          cases hcomma
      · rcases List.mem_cons.mp hlit with rfl | hlit
        · exact hname
        · rw [List.mem_singleton] at hlit
          rw [hlit]
          exact List.forall_mem_singleton.mpr (by decide)

end Literals

/-! ## What follows a field -/

section Follows

variable {u : UnicodeTables} {nonPrintable : Char → Bool}

/-- What follows a field, and when the end of its value is seen. -/
theorem after_field {ident : FieldIdent} {fields : Fields} {v : Value} {vs : List Value} {i : Nat}
    (huniform : Uniform (ident :: fields.idents)) (hformed : fields.Formed)
    (h : HasFields fields vs) (hvalid : ValidFields fields vs) :
    ∃ start, Begins u start (fieldsText (i + 1) (fieldTexts nonPrintable fields vs)) ∧
      (v.CanPrecede start ↔ ident.isNamed = true ∨ v.CanPrecede (startOf vs)) ∧
      (start = some .digit → ident.isNamed = false ∧ start = startOf vs) := by
  rcases huniform with hnamed | hun
  · obtain ⟨name, rfl, -⟩ := hnamed _ List.mem_cons_self
    cases fields with
    | nil =>
        refine ⟨none, ?_, ?_, fun hstart => by cases hstart⟩
        · cases vs <;> rfl
        · cases v <;> simp [Value.CanPrecede, FieldIdent.isNamed]
    | cons ident' ty rest =>
        obtain ⟨name', rfl, -⟩ := hnamed ident' (List.mem_cons_of_mem _ List.mem_cons_self)
        cases vs with
        | nil => exact h.elim
        | cons v' vs =>
            have hcomma : ∃ text, fieldsText (i + 1) (fieldTexts nonPrintable
                (.cons (.named name') ty rest) (v' :: vs)) = ',' :: text := by
              rw [fieldTexts, fieldsText, fieldLits, if_pos (Nat.succ_pos i)]
              exact ⟨_, rfl⟩
            obtain ⟨text, htext⟩ := hcomma
            refine ⟨some .mark, ?_, ?_, fun hstart => by cases hstart⟩
            · exact ⟨',', text, htext, rfl, by decide, by decide⟩
            · cases v <;> simp [Value.CanPrecede, FieldIdent.isNamed]
  · have hident := hun _ List.mem_cons_self
    refine ⟨startOf vs, ?_, ?_, fun _ => ⟨hident, rfl⟩⟩
    · exact begins_fieldsText hformed h hvalid
        (fun ident hident => hun ident (List.mem_cons_of_mem _ hident))
    · rw [hident]
      simp

theorem noSpace_fieldsText {fields : Fields} {vs : List Value} {i : Nat} {c : Char}
    {rest : List Char} (hc : Start.mark.Is u c) (huniform : Uniform fields.idents)
    (hformed : fields.Formed) (h : HasFields fields vs) (hvalid : ValidFields fields vs) :
    NoSpace (fieldsText i (fieldTexts nonPrintable fields vs) ++ c :: rest) := by
  have hmark : NoSpace (c :: rest) := noSpace_cons hc.2.1
  cases fields with
  | nil => cases vs <;> exact hmark
  | cons ident ty fields =>
      cases vs with
      | nil => exact h.elim
      | cons v vs =>
          obtain ⟨start, hbegins, -, -⟩ :=
            after_field (u := u) (v := v) (i := i) huniform hformed.2 h.2 hvalid.2
          have hsolid : Solid (litsText (fieldLits i ident)) := by
            intro d hd
            obtain ⟨lit, hlit, hd⟩ := List.mem_flatMap.mp hd
            exact huniform.solid lit hlit d hd
          rw [fieldTexts, fieldsText, List.append_assoc, List.append_assoc]
          apply hsolid.noSpace
          apply (begins_print (u := u) nonPrintable hformed.1 h.1 hvalid.1).noSpace
          exact hbegins.noSpace hmark

/-- What follows the name of a variant. -/
theorem begins_variantText (nonPrintable : Char → Bool) {variants : Variants} {name : String}
    {vs : List Value}
    (hformed : variants.Formed) (h : HasVariant variants name vs) :
    Begins u (if vs = [] then none else some .mark) (variantText nonPrintable variants name vs) :=
  match variants, hformed, h with
  | .cons name' fields rest, hformed, h => by
      rw [HasVariant] at h
      rw [variantText]
      by_cases hname : name' = name
      · rw [if_pos hname] at h ⊢
        rw [structText_eq hformed.1 h]
        by_cases hvs : vs = []
        · rw [if_pos hvs, if_pos hvs]
          rfl
        · rw [if_neg hvs, if_neg hvs]
          exact ⟨_, _, rfl, (brackets_are u fields.idents).1⟩
      · rw [if_neg hname] at h ⊢
        exact begins_variantText nonPrintable hformed.2.2 h

end Follows

/-! ## Values that are read back -/

section Reading

variable {u : UnicodeTables} {nonPrintable : Char → Bool}

/-- White space after a text is all that is consumed after it. -/
theorem reads_of_noSpace {p : TextParser Value} {s rest : List Char} {v : Value}
    (h : ∃ ws rest', rest = ws ++ rest' ∧ AllSpace ws ∧ Reads p s v rest')
    (hrest : NoSpace rest) : Reads p s v rest := by
  obtain ⟨ws, rest', rfl, hws, hread⟩ := h
  cases ws with
  | nil => exact hread
  | cons c ws =>
      have hno := hrest c rfl
      rw [hws c List.mem_cons_self] at hno
      cases hno

/-- Fields that are read one after the other are read with what is around them. -/
theorem reads_structText {fields : Fields} {vs : List Value} (rest : List Char)
    (hshaped : Shaped fields.idents) (h : HasFields fields vs)
    (hread : ∀ c rest, Start.mark.Is u c →
      FieldsRead 0 (fieldParsers u fields) (fieldsText 0 (fieldTexts nonPrintable fields vs) ++
        c :: rest) vs (c :: rest))
    (hhead : NoSpace (fieldsText 0 (fieldTexts nonPrintable fields vs) ++
      (brackets fields.idents).2 :: rest)) :
    Reads (parseFields (fieldParsers u fields))
      (buildFormat (fieldTexts nonPrintable fields vs) (canonicalFormatForStructs fields.idents) ++
        rest) vs (if vs = [] then rest else rest.dropWhile isWhitespace) := by
  have hkeys := keys_fieldParsers (u := u) fields
  have hbrackets := brackets_are u fields.idents
  rw [reads_parseFields_iff (hkeys ▸ hshaped), structText_eq hshaped h, hkeys]
  have hnil : fieldParsers u fields = [] ↔ vs = [] := by
    rw [← List.length_eq_zero_iff, ← List.length_eq_zero_iff,
      (hread ')' [] ⟨rfl, by decide, by decide⟩).length_eq]
  by_cases hvs : vs = []
  · rw [if_pos (hnil.mpr hvs), if_pos hvs, if_pos hvs]
    exact ⟨hvs, rfl⟩
  · rw [if_neg (fun hps => hvs (hnil.mp hps)), if_neg hvs, if_neg hvs]
    have hsolid : ∀ c, Start.mark.Is u c → Solid (String.singleton c).toList := by
      intro c hc d hd
      rw [String.toList_singleton, List.mem_singleton] at hd
      rw [hd]
      exact hc.2.1
    have hopen := reads_litParse (fieldsText 0 (fieldTexts nonPrintable fields vs) ++
      (brackets fields.idents).2 :: rest) (hsolid _ hbrackets.1)
    have hclose := reads_litParse rest (hsolid _ hbrackets.2)
    rw [dropWhile_of_noSpace hhead] at hopen
    rw [String.toList_singleton] at hopen hclose
    refine ⟨_, _, ?_, hread _ rest hbrackets.2, hclose⟩
    rw [List.cons_append, List.append_assoc]
    exact hopen

theorem ends_of_value {vs : List Value} {rest : List Char} {p : TextParser (List Value)}
    {s : List Char} (h : Reads p s vs (if vs = [] then rest else rest.dropWhile isWhitespace)) :
    ∃ ws rest', rest = ws ++ rest' ∧ AllSpace ws ∧ Reads p s vs rest' := by
  by_cases hvs : vs = []
  · rw [if_pos hvs] at h
    exact ⟨[], rest, rfl, allSpace_nil, h⟩
  · rw [if_neg hvs] at h
    exact ⟨rest.takeWhile isWhitespace, rest.dropWhile isWhitespace,
      List.takeWhile_append_dropWhile.symm, allSpace_takeWhile rest, h⟩

mutual

/-- A value whose fields are apart is read back where its text ends. -/
theorem reads_print (ty : Ty) (v : Value) (rest : List Char) (hformed : ty.Formed)
    (h : HasTy ty v) (hvalid : ValidVariants ty v) (hapart : Apart ty v)
    (hend : v.EndsAt u rest) :
    ∃ ws rest', rest = ws ++ rest' ∧ AllSpace ws ∧
      Reads (parser u ty) (print nonPrintable ty v ++ rest) v rest' := by
  match ty, v, hformed, h, hvalid, hapart, hend with
  | .int t, .int n, _, h, _, _, hend =>
      exact ⟨[], rest, rfl, allSpace_nil, (reads_int h hend).map⟩
  | .bool, .bool b, _, _, _, _, _ => exact ⟨[], rest, rfl, allSpace_nil, reads_bool.map⟩
  | .string, .string s, _, _, _, _, _ =>
      exact ⟨[], rest, rfl, allSpace_nil, (reads_quoted nonPrintable s rest).map⟩
  | .identifier, .identifier id, _, h, _, _, hend =>
      exact ⟨[], rest, rfl, allSpace_nil, (reads_identifier h hend).map⟩
  | .struct fields, .struct vs, hformed, h, hvalid, hapart, _ =>
      have huniform := hformed.1.uniform
      obtain ⟨ws, rest', hrest, hws, hread⟩ := ends_of_value
        (reads_structText rest hformed.1 h
          (fun c rest hc =>
            reads_fieldsText fields 0 vs c rest hc huniform hformed.2 h hvalid hapart)
          (noSpace_fieldsText (brackets_are u fields.idents).2 huniform hformed.2 h hvalid))
      exact ⟨ws, rest', hrest, hws, hread.map⟩
  | .enum variants, .variant name vs, hformed, h, hvalid, hapart, hend =>
      obtain ⟨p, hp, ws, rest', hrest, hws, hread⟩ :=
        reads_variantText variants name vs rest hformed h hvalid.2 hapart
      have hbegins := begins_variantText (u := u) nonPrintable hformed h
      have hword : NoWord u (variantText nonPrintable variants name vs ++ rest) := by
        cases vs with
        | nil =>
            rw [show variantText nonPrintable variants name [] = [] from hbegins]
            exact hend
        | cons v vs =>
            obtain ⟨c, text, htext, hc⟩ := hbegins
            rw [htext]
            exact noWord_cons hc.1
      refine ⟨ws, rest', hrest, hws, ?_⟩
      rw [print, List.append_assoc]
      refine (reads_identifier hvalid.1 hword).andThen ?_
      rw [hp]
      exact hread.map

/-- Fields that are apart are read back. -/
theorem reads_fieldsText (fields : Fields) (i : Nat) (vs : List Value) (c : Char)
    (rest : List Char) (hc : Start.mark.Is u c) (huniform : Uniform fields.idents)
    (hformed : fields.Formed) (h : HasFields fields vs) (hvalid : ValidFields fields vs)
    (hapart : ApartFields fields vs) :
    FieldsRead i (fieldParsers u fields)
      (fieldsText i (fieldTexts nonPrintable fields vs) ++ c :: rest) vs (c :: rest) := by
  match fields, vs, huniform, hformed, h, hvalid, hapart with
  | .nil, [], _, _, _, _, _ => exact .nil
  | .cons ident ty fields, v :: vs, huniform, hformed, h, hvalid, hapart =>
      obtain ⟨start, hbegins, hprecede, -⟩ :=
        after_field (u := u) (v := v) (i := i) huniform hformed.2 h.2 hvalid.2
      have hspace : NoSpace (fieldsText (i + 1) (fieldTexts nonPrintable fields vs) ++ c :: rest) :=
        hbegins.noSpace (noSpace_cons hc.2.1)
      have hend : v.EndsAt u
          (fieldsText (i + 1) (fieldTexts nonPrintable fields vs) ++ c :: rest) :=
        (endsAt_iff hbegins hc).mpr (hprecede.mpr hapart.2.1)
      have hv := reads_of_noSpace
        (reads_print ty v _ hformed.1 h.1 hvalid.1 hapart.1 hend) hspace
      have hlits := litsRead (huniform.solid (i := i))
        ((begins_print (u := u) nonPrintable hformed.1 h.1 hvalid.1).noSpace
          hspace)
      have hvs := reads_fieldsText fields (i + 1) vs c rest hc huniform.tail hformed.2 h.2 hvalid.2
        hapart.2.2
      rw [fieldTexts, fieldsText, List.append_assoc, List.append_assoc]
      exact .cons hlits hv hvs

/-- What follows the name of a variant is read back. -/
theorem reads_variantText (variants : Variants) (name : String) (vs : List Value)
    (rest : List Char) (hformed : variants.Formed) (h : HasVariant variants name vs)
    (hvalid : ValidVariant variants name vs) (hapart : ApartVariant variants name vs) :
    ∃ p, (variantParsers u variants).get? name = some p ∧
      ∃ ws rest', rest = ws ++ rest' ∧ AllSpace ws ∧
        Reads p (variantText nonPrintable variants name vs ++ rest) vs rest' := by
  match variants, hformed, h, hvalid, hapart with
  | .cons name' fields variants, hformed, h, hvalid, hapart =>
      rw [HasVariant] at h
      rw [ValidVariant] at hvalid
      rw [ApartVariant] at hapart
      rw [variantParsers, IMap.get?_cons, variantText]
      by_cases hname : name' = name
      · rw [if_pos hname] at h hvalid hapart
        rw [if_pos hname, if_pos hname]
        refine ⟨_, rfl, ?_⟩
        have huniform := hformed.1.uniform
        by_cases hempty : fields.idents.isEmpty
        · cases fields with
          | cons ident ty fields => cases hempty
          | nil =>
              cases vs with
              | cons v vs => exact h.elim
              | nil => exact ⟨[], rest, rfl, allSpace_nil, Reads.value⟩
        · rw [if_neg hempty]
          exact ends_of_value (reads_structText rest hformed.1 h
            (fun c rest hc =>
              reads_fieldsText fields 0 vs c rest hc huniform hformed.2.1 h hvalid hapart)
            (noSpace_fieldsText (brackets_are u fields.idents).2 huniform hformed.2.1 h
              hvalid))
      · rw [if_neg hname] at h hvalid hapart
        rw [if_neg hname, if_neg hname]
        exact reads_variantText variants name vs rest hformed.2.2 h hvalid hapart

end

end Reading

end Pliron.Derive
