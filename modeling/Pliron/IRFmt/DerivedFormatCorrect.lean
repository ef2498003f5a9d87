/-
  Pliron.IRFmt.DerivedFormatCorrect

  The values that are read back from their default format are those whose fields
  do not run into each other.

  What is read is the value, so every name of a variant was an identifier of the
  format.  Then the texts are aligned: each field ends where its text does, but
  for a zero that also takes the zeros after it, and after which the next field
  cannot be zero.
-/

import Pliron.IRFmt.DerivedFormatText

namespace Pliron.Derive

open Pliron.Text Pliron.Lib.Combine Pliron.Lib.Combine.Parser

section Names

variable {u : UnicodeTables}

/-! ## The names of variants -/

theorem validFields_nil (fields : Fields) : ValidFields fields [] := by
  cases fields <;> trivial

theorem validFields_of_reads {fields : Fields} {vs : List Value} {s rest : List Char}
    (hshaped : Shaped fields.idents)
    (hfields : ∀ {i s rest}, FieldsRead i (fieldParsers u fields) s vs rest →
      ValidFields fields vs)
    (hread : Reads (parseFields (fieldParsers u fields)) s vs rest) : ValidFields fields vs := by
  rw [reads_parseFields_iff (keys_fieldParsers (u := u) fields ▸ hshaped)] at hread
  split at hread
  · rw [hread.1]
    exact validFields_nil fields
  · obtain ⟨s₁, s₂, -, hvs, -⟩ := hread
    exact hfields hvs

mutual

/-- A value that is read has names of variants that are identifiers. -/
theorem valid_of_reads (ty : Ty) (v : Value) (s rest : List Char) (hformed : ty.Formed)
    (h : HasTy ty v) (hread : Reads (parser u ty) s v rest) : ValidVariants ty v := by
  match ty, v, hformed, h, hread with
  | .int _, .int _, _, _, _ => trivial
  | .bool, .bool _, _, _, _ => trivial
  | .string, .string _, _, _, _ => trivial
  | .identifier, .identifier _, _, _, _ => trivial
  | .struct fields, .struct vs, hformed, h, hread =>
      obtain ⟨vs', hvs, heq⟩ := hread.of_map
      obtain rfl := Value.struct.inj heq
      exact validFields_of_reads hformed.1
        (fun hfields => valid_of_fieldsRead fields _ vs _ _ hformed.2 h hfields) hvs
  | .enum variants, .variant name vs, hformed, h, hread =>
      obtain ⟨id, s₁, hid, hmore⟩ := hread.of_andThen
      cases hp : (variantParsers u variants).get? id with
      | none =>
          rw [hp] at hmore
          obtain ⟨c, hmore⟩ := hmore
          cases hmore
      | some p =>
          rw [hp] at hmore
          obtain ⟨vs', hvs, heq⟩ := hmore.of_map
          obtain ⟨rfl, rfl⟩ := Value.variant.inj heq
          exact ⟨(of_identifier hid).1,
            valid_of_variantRead variants name vs p _ _ hformed h hp hvs⟩

theorem valid_of_fieldsRead (fields : Fields) (i : Nat) (vs : List Value) (s rest : List Char)
    (hformed : fields.Formed) (h : HasFields fields vs)
    (hread : FieldsRead i (fieldParsers u fields) s vs rest) : ValidFields fields vs := by
  match fields, vs, hformed, h, hread with
  | .nil, [], _, _, _ => trivial
  | .cons ident ty fields, v :: vs, hformed, h, hread =>
      cases hread with
      | cons _ hv hvs =>
          exact ⟨valid_of_reads ty v _ _ hformed.1 h.1 hv,
            valid_of_fieldsRead fields (i + 1) vs _ _ hformed.2 h.2 hvs⟩

theorem valid_of_variantRead (variants : Variants) (name : String) (vs : List Value)
    (p : TextParser (List Value)) (s rest : List Char) (hformed : variants.Formed)
    (h : HasVariant variants name vs) (hp : (variantParsers u variants).get? name = some p)
    (hread : Reads p s vs rest) : ValidVariant variants name vs := by
  match variants, hformed, h, hp with
  | .cons name' fields variants, hformed, h, hp =>
      rw [HasVariant] at h
      rw [ValidVariant]
      rw [variantParsers, IMap.get?_cons] at hp
      by_cases hname : name' = name
      · rw [if_pos hname] at h hp ⊢
        by_cases hempty : fields.idents.isEmpty
        · rw [if_pos hempty] at hp
          obtain rfl := Option.some.inj hp
          obtain ⟨rfl, -⟩ := hread.of_value
          exact validFields_nil fields
        · rw [if_neg hempty] at hp
          obtain rfl := Option.some.inj hp
          exact validFields_of_reads hformed.1
            (fun hfields => valid_of_fieldsRead fields _ vs _ _ hformed.2.1 h hfields) hread
      · rw [if_neg hname] at h hp ⊢
        exact valid_of_variantRead variants name vs p s rest hformed.2.2 h hp hread

end

end Names

/-! ## A zero that takes the zeros after it -/

section Zeros

variable {u : UnicodeTables} {nonPrintable : Char → Bool}

theorem int_of_start {ty : Ty} {v : Value} (h : HasTy ty v) (hstart : v.start = some .digit) :
    ∃ t n, ty = .int t ∧ v = .int n := by
  cases v with
  | int n =>
      cases ty with
      | int t => exact ⟨t, n, rfl, rfl⟩
      | _ => exact h.elim
  | struct vs => cases vs <;> cases hstart
  | _ => cases hstart

theorem struct_of_start {ty : Ty} {v : Value} (h : HasTy ty v) (hstart : v.start = none) :
    ty = .struct .nil ∧ v = .struct [] := by
  cases v with
  | int n =>
      rw [Value.start] at hstart
      split at hstart <;> cases hstart
  | struct vs =>
      cases vs with
      | cons v vs => cases hstart
      | nil =>
          cases ty with
          | struct fields =>
              cases fields with
              | nil => exact ⟨rfl, rfl⟩
              | cons ident ty fields => exact h.elim
          | _ => exact h.elim
  | _ => cases hstart

/-- No value has a text with a sign and a zero in front. -/
theorem not_signZero_print {ty : Ty} {v : Value} (hformed : ty.Formed) (h : HasTy ty v)
    (hvalid : ValidVariants ty v) (hne : v.start ≠ none) (rest : List Char) :
    ¬ SignZero (print nonPrintable ty v ++ rest) := by
  have hbegins := begins_print (u := ⟨fun _ => false, fun _ => false⟩) nonPrintable hformed h hvalid
  cases v with
  | int n =>
      cases ty with
      | int t => exact not_signZero_printInt n rest
      | _ => exact h.elim
  | string s =>
      cases ty with
      | string => exact not_signZero_of_ne (by decide) (by decide)
      | _ => exact h.elim
  | struct vs =>
      cases ty with
      | struct fields =>
          cases vs with
          | nil => exact absurd rfl hne
          | cons v vs =>
              rw [print, structText_eq hformed.1 h, if_neg (List.cons_ne_nil _ _), brackets]
              by_cases hnamed : fields.idents.any FieldIdent.isNamed
              · rw [if_pos hnamed]
                exact not_signZero_of_ne (by decide) (by decide)
              · rw [if_neg hnamed]
                exact not_signZero_of_ne (by decide) (by decide)
      | _ => exact h.elim
  | _ =>
      -- a letter
      obtain ⟨c, more, htext, hc⟩ := hbegins
      rw [htext]
      apply not_signZero_of_ne
      · rintro rfl
        cases hc
      · rintro rfl
        cases hc

/-- After zeros no sign and zero follows. -/
theorem not_signZero_after (fields : Fields) (vs : List Value) (i : Nat) (c : Char)
    (rest zeros s : List Char) (hc : Start.mark.Is u c) (hminus : c ≠ '-')
    (hun : ∀ ident ∈ fields.idents, ident.isNamed = false) (hformed : fields.Formed)
    (h : HasFields fields vs) (hvalid : ValidFields fields vs)
    (hzeros : ∀ c ∈ zeros, c = '0') (hs : NoDigit s)
    (heq : fieldsText i (fieldTexts nonPrintable fields vs) ++ c :: rest = zeros ++ s) :
    ¬ SignZero s := by
  match fields, vs, hun, hformed, h, hvalid, heq with
  | .nil, [], _, _, _, _, heq =>
      cases zeros with
      | nil =>
          rw [← show c :: rest = s from heq]
          exact not_signZero_of_ne hc.2.2 hminus
      | cons z zeros =>
          have hz : c = '0' := (List.cons.inj heq).1.trans (hzeros z List.mem_cons_self)
          have hdigit := isDigit_of_isWordChar hc.1
          rw [hz] at hdigit
          cases hdigit
  | .cons (.named _) _ _, _ :: _, hun, _, _, _, _ => exact absurd (hun _ List.mem_cons_self) nofun
  | .cons (.unnamed index) ty fields, v :: vs, hun, hformed, h, hvalid, heq =>
      have hun' : ∀ ident ∈ fields.idents, ident.isNamed = false :=
        fun ident hident => hun ident (List.mem_cons_of_mem _ hident)
      have heq : print nonPrintable ty v ++
          (fieldsText (i + 1) (fieldTexts nonPrintable fields vs) ++ c :: rest) = zeros ++ s := by
        rw [← heq, ← List.append_assoc]
        rfl
      have hbegins := begins_print (u := u) nonPrintable hformed.1 h.1 hvalid.1
      cases zeros with
      | nil =>
          by_cases hstart : v.start = none
          · -- a field without text: look at the one after it
            rw [hstart] at hbegins
            rw [show print nonPrintable ty v = [] from hbegins] at heq
            exact not_signZero_after fields vs (i + 1) c rest [] s hc hminus hun' hformed.2 h.2
              hvalid.2 hzeros hs heq
          · rw [← show _ = s from heq]
            exact not_signZero_print hformed.1 h.1 hvalid.1 hstart _
      | cons z zeros =>
          obtain rfl := hzeros z List.mem_cons_self
          cases hstart : v.start with
          | none =>
              rw [hstart] at hbegins
              rw [show print nonPrintable ty v = [] from hbegins] at heq
              exact not_signZero_after fields vs (i + 1) c rest _ s hc hminus hun' hformed.2 h.2
                hvalid.2 hzeros hs heq
          | some start =>
              rw [hstart] at hbegins
              obtain ⟨d, more, htext, hd⟩ := hbegins
              have hd0 : d = '0' := by
                rw [htext] at heq
                exact (List.cons.inj heq).1
              subst hd0
              cases start with
              | letter => cases hd
              | mark => cases isDigit_of_isWordChar hd.1
              | digit =>
                  obtain ⟨t, n, rfl, rfl⟩ := int_of_start h.1 hstart
                  obtain ⟨-, hrest⟩ := zero_of_printInt heq
                  -- a zero that is printed: the next field goes on after it
                  exact not_signZero_after fields vs (i + 1) c rest zeros s hc hminus hun'
                    hformed.2 h.2 hvalid.2 (fun c hc => hzeros c (List.mem_cons_of_mem _ hc)) hs
                    hrest

/-- A zero that takes zeros from the fields after it leaves nothing for the first of them. -/
theorem not_zeros_of_fieldsRead (fields : Fields) (vs : List Value) (i : Nat) (c : Char)
    (rest zeros s s' : List Char) (hc : Start.mark.Is u c) (hminus : c ≠ '-')
    (hun : ∀ ident ∈ fields.idents, ident.isNamed = false) (hformed : fields.Formed)
    (h : HasFields fields vs) (hvalid : ValidFields fields vs) (hne : zeros ≠ [])
    (hzeros : ∀ c ∈ zeros, c = '0') (hs : NoDigit s)
    (heq : fieldsText i (fieldTexts nonPrintable fields vs) ++ c :: rest = zeros ++ s)
    (hread : FieldsRead i (fieldParsers u fields) s vs s') : False := by
  obtain ⟨z, zeros', rfl⟩ := List.exists_cons_of_ne_nil hne
  obtain rfl := hzeros z List.mem_cons_self
  have hafter := not_signZero_after fields vs i c rest _ s hc hminus hun hformed h hvalid hzeros hs
    heq
  match fields, vs, hun, hformed, h, hvalid, heq, hread with
  | .nil, [], _, _, _, _, heq, _ =>
      have hz : c = '0' := (List.cons.inj heq).1
      have hdigit := isDigit_of_isWordChar hc.1
      rw [hz] at hdigit
      cases hdigit
  | .cons (.named _) _ _, _ :: _, hun, _, _, _, _, _ =>
      exact absurd (hun _ List.mem_cons_self) nofun
  | .cons (.unnamed index) ty fields, v :: vs, hun, hformed, h, hvalid, heq, hread =>
      have heq : print nonPrintable ty v ++
          (fieldsText (i + 1) (fieldTexts nonPrintable fields vs) ++ c :: rest) =
            '0' :: (zeros' ++ s) := by
        rw [← List.append_assoc]
        exact heq
      have hbegins := begins_print (u := u) nonPrintable hformed.1 h.1 hvalid.1
      cases hread with
      | cons hlits hv hvs =>
          cases hlits
          cases hstart : v.start with
          | none =>
              rw [hstart] at hbegins
              rw [show print nonPrintable ty v = [] from hbegins] at heq
              obtain ⟨rfl, rfl⟩ := struct_of_start h.1 hstart
              -- the field has no text, and nothing is read of it
              obtain ⟨vs', hnil, -⟩ := hv.of_map
              have hshaped : Shaped (IMap.keys (fieldParsers u .nil)) := hformed.1.1
              have hsame := (reads_parseFields_iff hshaped).mp hnil
              rw [if_pos (show fieldParsers u .nil = [] from rfl)] at hsame
              obtain ⟨-, rfl⟩ := hsame
              exact not_zeros_of_fieldsRead fields vs (i + 1) c rest _ _ s' hc hminus
                (fun ident hident => hun ident (List.mem_cons_of_mem _ hident)) hformed.2 h.2
                hvalid.2 hne hzeros hs heq hvs
          | some start =>
              rw [hstart] at hbegins
              obtain ⟨d, more, htext, hd⟩ := hbegins
              have hd0 : d = '0' := by
                rw [htext] at heq
                exact (List.cons.inj heq).1
              subst hd0
              cases start with
              | letter => cases hd
              | mark => cases isDigit_of_isWordChar hd.1
              | digit =>
                  obtain ⟨t, n, rfl, rfl⟩ := int_of_start h.1 hstart
                  obtain ⟨rfl, -⟩ := zero_of_printInt heq
                  obtain ⟨n, hzero, hn⟩ := hv.of_map
                  obtain rfl := Value.int.inj hn
                  exact hafter (signZero_of_int hzero hs)

end Zeros

/-! ## Fields that are read do not run into each other -/

section Apartness

variable {u : UnicodeTables} {nonPrintable : Char → Bool}

/-- Zero has taken the zeros after it. -/
def TakesZeros (v : Value) (more rest : List Char) : Prop :=
  v = .int 0 ∧ ∃ zeros, zeros ≠ [] ∧ (∀ c ∈ zeros, c = '0') ∧ more = zeros ++ rest ∧ NoDigit rest

/-- What the parser of a struct has read of its text. -/
theorem fieldsRead_of_structText {fields : Fields} {vs : List Value} {more rest : List Char}
    (hshaped : Shaped fields.idents) (hformed : fields.Formed) (h : HasFields fields vs)
    (hvalid : ValidFields fields vs)
    (hread : Reads (parseFields (fieldParsers u fields))
      (buildFormat (fieldTexts nonPrintable fields vs) (canonicalFormatForStructs fields.idents) ++
        more) vs rest) :
    (vs = [] ∧ rest = more) ∨
      ∃ s₂, FieldsRead 0 (fieldParsers u fields)
          (fieldsText 0 (fieldTexts nonPrintable fields vs) ++ (brackets fields.idents).2 :: more)
          vs s₂ ∧
        Reads (litParse (String.singleton (brackets fields.idents).2)) s₂ () rest := by
  have hkeys := keys_fieldParsers (u := u) fields
  have hbrackets := brackets_are u fields.idents
  rw [reads_parseFields_iff (hkeys ▸ hshaped), structText_eq hshaped h, hkeys] at hread
  by_cases hps : fieldParsers u fields = []
  · rw [if_pos hps] at hread
    obtain ⟨hvs, hrest⟩ := hread
    rw [if_pos hvs] at hrest
    exact .inl ⟨hvs, hrest⟩
  · rw [if_neg hps] at hread
    obtain ⟨s₁, s₂, hopen, hvs, hclose⟩ := hread
    have hne : vs ≠ [] := by
      rintro rfl
      exact hps (List.length_eq_zero_iff.mp hvs.length_eq.symm)
    rw [if_neg hne, List.cons_append, List.append_assoc] at hopen
    have hsolid : Solid (String.singleton (brackets fields.idents).1).toList := by
      intro d hd
      rw [String.toList_singleton, List.mem_singleton] at hd
      rw [hd]
      exact hbrackets.1.2.1
    have hexact := reads_litParse (fieldsText 0 (fieldTexts nonPrintable fields vs) ++
      (brackets fields.idents).2 :: more) hsolid
    rw [String.toList_singleton, dropWhile_of_noSpace
      (noSpace_fieldsText hbrackets.2 hshaped.uniform hformed h hvalid)] at hexact
    obtain ⟨-, rfl⟩ := hexact.unique hopen
    exact .inr ⟨s₂, hvs, hclose⟩

/-- The white space after a closing bracket is skipped. -/
theorem space_of_reads_close {idents : List FieldIdent} {more rest : List Char}
    (hread : Reads (litParse (String.singleton (brackets idents).2))
      ((brackets idents).2 :: more) () rest) :
    ∃ ws, AllSpace ws ∧ more = ws ++ rest := by
  have hclose := (brackets_are ⟨fun _ => false, fun _ => false⟩ idents).2
  have hsolid : Solid (String.singleton (brackets idents).2).toList := by
    intro d hd
    rw [String.toList_singleton, List.mem_singleton] at hd
    rw [hd]
    exact hclose.2.1
  have hexact := reads_litParse more hsolid
  rw [String.toList_singleton] at hexact
  obtain ⟨-, rfl⟩ := hexact.unique hread
  exact ⟨more.takeWhile isWhitespace, allSpace_takeWhile more,
    List.takeWhile_append_dropWhile.symm⟩

theorem brackets_ne_minus (idents : List FieldIdent) : (brackets idents).2 ≠ '-' := by
  unfold brackets
  by_cases hnamed : idents.any FieldIdent.isNamed
  · rw [if_pos hnamed]
    decide
  · rw [if_neg hnamed]
    decide

theorem apartFields_nil (fields : Fields) : ApartFields fields [] := by
  cases fields <;> trivial

mutual

/-- A value that is read from its text has fields that are apart, and ends there, but for a
zero before zeros. -/
theorem apart_of_reads (ty : Ty) (v : Value) (more rest : List Char) (hformed : ty.Formed)
    (h : HasTy ty v) (hvalid : ValidVariants ty v)
    (hread : Reads (parser u ty) (print nonPrintable ty v ++ more) v rest) :
    Apart ty v ∧ ((v.EndsAt u more ∧ ∃ ws, AllSpace ws ∧ more = ws ++ rest) ∨
      TakesZeros v more rest) := by
  match ty, v, hformed, h, hvalid, hread with
  | .int t, .int n, _, _, _, hread =>
      obtain ⟨n', hn, heq⟩ := hread.of_map
      obtain rfl := Value.int.inj heq
      refine ⟨trivial, ?_⟩
      rcases of_int hn with ⟨hstop, rfl⟩ | ⟨rfl, hzeros⟩
      · exact .inl ⟨hstop, [], allSpace_nil, rfl⟩
      · exact .inr ⟨rfl, hzeros⟩
  | .bool, .bool b, _, _, _, hread =>
      obtain ⟨-, rfl⟩ := reads_bool.map.unique hread
      exact ⟨trivial, .inl ⟨trivial, [], allSpace_nil, rfl⟩⟩
  | .string, .string s, _, _, _, hread =>
      obtain ⟨-, rfl⟩ := (reads_quoted nonPrintable s more).map.unique hread
      exact ⟨trivial, .inl ⟨trivial, [], allSpace_nil, rfl⟩⟩
  | .identifier, .identifier id, _, _, _, hread =>
      obtain ⟨id', hid, heq⟩ := hread.of_map
      obtain rfl := Value.identifier.inj heq
      obtain ⟨-, htext, hstop⟩ := of_identifier hid
      obtain rfl := List.append_cancel_left htext
      exact ⟨trivial, .inl ⟨hstop, [], allSpace_nil, rfl⟩⟩
  | .struct fields, .struct vs, hformed, h, hvalid, hread =>
      obtain ⟨vs', hvs, heq⟩ := hread.of_map
      obtain rfl := Value.struct.inj heq
      rcases fieldsRead_of_structText hformed.1 hformed.2 h hvalid hvs with
        ⟨rfl, rfl⟩ | ⟨s₂, hfields, hclose⟩
      · exact ⟨apartFields_nil fields, .inl ⟨trivial, [], allSpace_nil, rfl⟩⟩
      · obtain ⟨hapart, rfl⟩ := apart_of_fieldsRead fields 0 vs _ more s₂
          (brackets_are u fields.idents).2 (brackets_ne_minus fields.idents) hformed.1.uniform
          hformed.2 h hvalid hfields
        exact ⟨hapart, .inl ⟨trivial, space_of_reads_close hclose⟩⟩
  | .enum variants, .variant name vs, hformed, h, hvalid, hread =>
      obtain ⟨id, s₁, hid, hmore⟩ := hread.of_andThen
      cases hp : (variantParsers u variants).get? id with
      | none =>
          rw [hp] at hmore
          obtain ⟨c, hmore⟩ := hmore
          cases hmore
      | some p =>
          rw [hp] at hmore
          obtain ⟨vs', hvs, heq⟩ := hmore.of_map
          obtain ⟨rfl, rfl⟩ := Value.variant.inj heq
          obtain ⟨-, htext, hstop⟩ := of_identifier hid
          rw [print, List.append_assoc] at htext
          obtain rfl := List.append_cancel_left htext
          obtain ⟨hapart, hspace⟩ :=
            apart_of_variantRead variants name vs p more rest hformed h hvalid.2 hp hvs
          refine ⟨hapart, .inl ⟨?_, hspace⟩⟩
          cases vs with
          | cons v vs => trivial
          | nil =>
              have hbegins := begins_variantText (u := u) nonPrintable hformed h
              rw [show variantText nonPrintable variants name [] = [] from hbegins] at hstop
              exact hstop

/-- Fields that are read from their texts are apart. -/
theorem apart_of_fieldsRead (fields : Fields) (i : Nat) (vs : List Value) (c : Char)
    (more s : List Char) (hc : Start.mark.Is u c) (hminus : c ≠ '-')
    (huniform : Uniform fields.idents) (hformed : fields.Formed) (h : HasFields fields vs)
    (hvalid : ValidFields fields vs)
    (hread : FieldsRead i (fieldParsers u fields)
      (fieldsText i (fieldTexts nonPrintable fields vs) ++ c :: more) vs s) :
    ApartFields fields vs ∧ s = c :: more := by
  match fields, vs, huniform, hformed, h, hvalid, hread with
  | .nil, [], _, _, _, _, hread =>
      cases hread
      exact ⟨trivial, rfl⟩
  | .cons ident ty fields, v :: vs, huniform, hformed, h, hvalid, hread =>
      obtain ⟨start, hbegins, hprecede, hdigit⟩ :=
        after_field (u := u) (v := v) (i := i) huniform hformed.2 h.2 hvalid.2
      have hspace : NoSpace (fieldsText (i + 1) (fieldTexts nonPrintable fields vs) ++ c :: more) :=
        hbegins.noSpace (noSpace_cons hc.2.1)
      -- what stands in front of the field is read in one way only
      have hlits := litsRead (huniform.solid (i := i))
        ((begins_print (u := u) nonPrintable hformed.1 h.1 hvalid.1).noSpace hspace)
      rw [fieldTexts, fieldsText, List.append_assoc, List.append_assoc] at hread
      cases hread with
      | cons hlits' hv hvs =>
          obtain rfl := hlits.unique hlits'
          obtain ⟨hapart, ⟨hend, ws, hws, hrest⟩ | ⟨rfl, zeros, hne, hzeros, hmore, hstop⟩⟩ :=
            apart_of_reads ty v _ _ hformed.1 h.1 hvalid.1 hv
          · -- the field ends where its text does
            have hnil : ws = [] := by
              cases ws with
              | nil => rfl
              | cons d ws =>
                  have hno := hspace d (by rw [hrest]; rfl)
                  rw [hws d List.mem_cons_self] at hno
                  cases hno
            subst hnil
            rw [List.nil_append] at hrest
            subst hrest
            obtain ⟨haparts, hs⟩ := apart_of_fieldsRead fields (i + 1) vs c more s hc hminus
              huniform.tail hformed.2 h.2 hvalid.2 hvs
            exact ⟨⟨hapart, hprecede.mp ((endsAt_iff hbegins hc).mp hend), haparts⟩, hs⟩
          · -- zero has taken zeros
            exfalso
            -- so a digit follows, which only an unnamed field can start with
            have hstart : start = some .digit := by
              obtain ⟨z, zeros, rfl⟩ := List.exists_cons_of_ne_nil hne
              obtain rfl := hzeros z List.mem_cons_self
              cases start with
              | none =>
                  rw [show fieldsText _ _ = [] from hbegins] at hmore
                  have hdigit := isDigit_of_isWordChar hc.1
                  rw [(List.cons.inj hmore).1] at hdigit
                  cases hdigit
              | some start =>
                  obtain ⟨d, text, htext, hd⟩ := hbegins
                  rw [htext] at hmore
                  rw [(List.cons.inj hmore).1] at hd
                  cases start with
                  | digit => rfl
                  | letter => cases hd
                  | mark => cases isDigit_of_isWordChar hd.1
            have hun : ∀ ident' ∈ fields.idents, ident'.isNamed = false := by
              intro ident' hident'
              rcases huniform with hnamed | hun
              · obtain ⟨name, rfl, -⟩ := hnamed ident List.mem_cons_self
                cases (hdigit hstart).1
              · exact hun ident' (List.mem_cons_of_mem _ hident')
            -- and the fields after it cannot be read any more
            exact not_zeros_of_fieldsRead fields vs (i + 1) c more zeros _ s hc hminus hun
              hformed.2 h.2 hvalid.2 hne hzeros hstop hmore hvs

/-- What follows the name of a variant is apart. -/
theorem apart_of_variantRead (variants : Variants) (name : String) (vs : List Value)
    (p : TextParser (List Value)) (more rest : List Char) (hformed : variants.Formed)
    (h : HasVariant variants name vs) (hvalid : ValidVariant variants name vs)
    (hp : (variantParsers u variants).get? name = some p)
    (hread : Reads p (variantText nonPrintable variants name vs ++ more) vs rest) :
    ApartVariant variants name vs ∧ ∃ ws, AllSpace ws ∧ more = ws ++ rest := by
  match variants, hformed, h, hvalid, hp, hread with
  | .cons name' fields variants, hformed, h, hvalid, hp, hread =>
      rw [HasVariant] at h
      rw [ValidVariant] at hvalid
      rw [ApartVariant]
      rw [variantParsers, IMap.get?_cons] at hp
      rw [variantText] at hread
      by_cases hname : name' = name
      · rw [if_pos hname] at h hvalid hp hread ⊢
        by_cases hempty : fields.idents.isEmpty
        · rw [if_pos hempty] at hp
          obtain rfl := Option.some.inj hp
          obtain ⟨rfl, rfl⟩ := hread.of_value
          rw [structText_eq hformed.1 h, if_pos rfl]
          exact ⟨apartFields_nil fields, [], allSpace_nil, rfl⟩
        · rw [if_neg hempty] at hp
          obtain rfl := Option.some.inj hp
          rcases fieldsRead_of_structText hformed.1 hformed.2.1 h hvalid hread with
            ⟨rfl, rfl⟩ | ⟨s₂, hfields, hclose⟩
          · exact ⟨apartFields_nil fields, [], allSpace_nil, rfl⟩
          · obtain ⟨hapart, rfl⟩ := apart_of_fieldsRead fields 0 vs _ more s₂
              (brackets_are u fields.idents).2 (brackets_ne_minus fields.idents)
              hformed.1.uniform hformed.2.1 h hvalid hfields
            exact ⟨hapart, space_of_reads_close hclose⟩
      · rw [if_neg hname] at h hvalid hp hread ⊢
        exact apart_of_variantRead variants name vs p more rest hformed.2.2 h hvalid hp hread

end

end Apartness

/-! ## The values that are read back -/

/-- Alone, and where a space, a comma or a closing bracket follows, every value ends. -/
theorem endsAt_of_follows (u : UnicodeTables) (v : Value) {rest : List Char}
    (h : ∀ c ∈ rest.head?, c ∈ [' ', ',', ')', ']', closeBrace, '>']) : v.EndsAt u rest := by
  have hmark : ∀ c ∈ [' ', ',', ')', ']', closeBrace, '>'], isWordChar u c = false := by
    intro c hc
    simp only [List.mem_cons, List.not_mem_nil, or_false] at hc
    rcases hc with rfl | rfl | rfl | rfl | rfl | rfl <;> rfl
  have hword : NoWord u rest := fun c hc => hmark c (h c hc)
  cases v with
  | int n => exact fun c hc => isDigit_of_isWordChar (hword c hc)
  | identifier id => exact hword
  | variant name vs =>
      cases vs with
      | nil => exact hword
      | cons v vs => trivial
  | _ => trivial

/-- A value that is read back has fields that do not run into each other. -/
theorem apart_of_parsesBack {u : UnicodeTables} {nonPrintable : Char → Bool} {ty : Ty} {v : Value}
    (hformed : ty.Formed) (h : HasTy ty v) (hback : ParsesBack u nonPrintable ty v) :
    ValidVariants ty v ∧ Apart ty v := by
  obtain ⟨ws, rest, -, -, hread⟩ := hback [] nofun
  have hvalid := valid_of_reads ty v _ _ hformed h hread
  exact ⟨hvalid, (apart_of_reads ty v [] rest hformed h hvalid hread).1⟩

/-- A value is read back from its default format exactly if the names of its variants are
identifiers of the format and no two of its fields run into each other. -/
theorem derived_parsesBack (u : UnicodeTables) (nonPrintable : Char → Bool) {ty : Ty} {v : Value}
    (hformed : ty.Formed) (h : HasTy ty v) :
    ParsesBack u nonPrintable ty v ↔ ValidVariants ty v ∧ Apart ty v := by
  constructor
  · exact apart_of_parsesBack hformed h
  · rintro ⟨hvalid, hapart⟩ rest hrest
    exact reads_print ty v rest hformed h hvalid hapart (endsAt_of_follows u v hrest)

/-- No letters and no numbers beyond ASCII. -/
def asciiTables : UnicodeTables := ⟨fun _ => false, fun _ => false⟩

/-- A pair of numbers. -/
def pairTy : Ty :=
  .struct (.cons (.unnamed 0) (.int .u64) (.cons (.unnamed 1) (.int .u64) .nil))

def onePair : Value := .struct [.int 1, .int 2]

theorem pairTy_formed : pairTy.Formed := ⟨.inr rfl, trivial, trivial, trivial⟩

theorem hasTy_onePair : HasTy pairTy onePair := by
  have hone : IntType.Has .u64 1 := by decide
  have htwo : IntType.Has .u64 2 := by decide
  exact ⟨hone, htwo, trivial⟩

/-- A span that may be empty, with a label that is a number and a string. -/
def spanTy : Ty :=
  .enum (.cons "Empty" .nil
    (.cons "Span" (.cons (.named "start") (.int .u64)
      (.cons (.named "label") (.struct (.cons (.unnamed 0) (.int .i64)
        (.cons (.unnamed 1) .string .nil))) .nil)) .nil))

def labelled : Value := .variant "Span" [.int 1, .struct [.int (-2), .string "x"]]

theorem spanTy_formed : spanTy.Formed := by
  have hletters : ["start", "label"].all (fun name => name.toList.all (!isWhitespace ·)) := rfl
  have hspan : Shaped [.named "start", .named "label"] :=
    .inl ⟨["start", "label"], rfl, by decide, by
      simpa only [List.all_eq_true, Bool.not_eq_true'] using hletters⟩
  have hlabel : Shaped [.unnamed 0, .unnamed 1] := .inr rfl
  exact ⟨.inr rfl, trivial, hspan, ⟨trivial, ⟨hlabel, trivial, trivial, trivial⟩, trivial⟩, trivial⟩

theorem hasTy_labelled : HasTy spanTy labelled := by
  have hone : IntType.Has .u64 1 := by decide
  have htwo : IntType.Has .i64 (-2) := by decide
  exact ⟨hone, ⟨htwo, trivial, trivial⟩, trivial⟩

/-- The labelled span is read back, and the pair is not. -/
theorem derived_parsesBack_labelled :
    print (fun _ => false) spanTy labelled =
        "Span\x7bstart=1,label=(-2\"x\")\x7d".toList ∧
      ParsesBack asciiTables (fun _ => false) spanTy labelled ∧
      ¬ ParsesBack asciiTables (fun _ => false) pairTy onePair := by
  refine ⟨by decide, ?_, ?_⟩
  · refine (derived_parsesBack asciiTables _ spanTy_formed hasTy_labelled).mpr ⟨?_, ?_⟩
    · exact ⟨rfl, trivial, ⟨trivial, trivial, trivial⟩, trivial⟩
    · have hlabel : Apart
          (.struct (.cons (.unnamed 0) (.int .i64) (.cons (.unnamed 1) .string .nil)))
          (.struct [.int (-2), .string "x"]) :=
        ⟨trivial, .inr trivial, trivial, .inr trivial, trivial⟩
      exact ⟨trivial, .inl rfl, hlabel, .inl rfl, trivial⟩
  · rw [derived_parsesBack asciiTables _ pairTy_formed hasTy_onePair]
    rintro ⟨-, -, hnamed | hprecede, -⟩
    · cases hnamed
    · exact hprecede

/-- The numbers of a pair are printed with nothing between them. -/
theorem pair_runsTogether :
    print (fun _ => false) pairTy onePair = ['(', '1', '2', ')'] ∧
      ¬ ParsesBack asciiTables (fun _ => false) pairTy onePair := by
  refine ⟨rfl, fun hback => ?_⟩
  obtain ⟨-, -, hrun, -⟩ := apart_of_parsesBack pairTy_formed hasTy_onePair hback
  rcases hrun with hnamed | hprecede
  · cases hnamed
  · exact hprecede

end Pliron.Derive
