/-
  Pliron.IRFmt.DerivedFormatRuns

  What the parser and the printer do with a default format: the fields one after
  the other, with the same literals before each of them.
-/

import Pliron.IRFmt.DerivedFormat

namespace Pliron.Derive

open Pliron.Text Pliron.Lib.Combine Pliron.Lib.Combine.Parser

/-! ## The elements of a default format -/

/-- The literals before the `i`th field. -/
def fieldLits (i : Nat) : FieldIdent → List String
  | .named field => (if i > 0 then [","] else []) ++ [field, "="]
  | .unnamed _ => []

/-- The variable of a field. -/
def fieldVar : FieldIdent → Elem
  | .named field => .var field
  | .unnamed index => .unnamedVar index

theorem fieldElems_eq (i : Nat) (ident : FieldIdent) :
    fieldElems i ident = (fieldLits i ident).map .lit ++ [fieldVar ident] := by
  cases ident with
  | unnamed index => rfl
  | named field =>
      by_cases hi : i > 0
      · simp [fieldElems, fieldLits, fieldVar, hi]
      · simp [fieldElems, fieldLits, fieldVar, hi]

/-- The elements of fields, from the `i`th one on. -/
def fieldsElems (i : Nat) (idents : List FieldIdent) : List Elem :=
  (idents.zipIdx i).flatMap (fun (field, i) => fieldElems i field)

@[simp] theorem fieldsElems_nil (i : Nat) : fieldsElems i [] = [] := rfl

@[simp] theorem fieldsElems_cons (i : Nat) (ident : FieldIdent) (idents : List FieldIdent) :
    fieldsElems i (ident :: idents) =
      (fieldLits i ident).map .lit ++ fieldVar ident :: fieldsElems (i + 1) idents := by
  show fieldElems i ident ++ fieldsElems (i + 1) idents = _
  rw [fieldElems_eq, List.append_assoc]
  rfl

/-- The characters around the fields. -/
def brackets (idents : List FieldIdent) : Char × Char :=
  if idents.any FieldIdent.isNamed then (openBrace, closeBrace) else ('(', ')')

theorem canonicalFormat_cons (ident : FieldIdent) (idents : List FieldIdent) :
    (canonicalFormatForStructs (ident :: idents)).elems =
      .lit (String.singleton (brackets (ident :: idents)).1) ::
        (fieldsElems 0 (ident :: idents) ++
          [.lit (String.singleton (brackets (ident :: idents)).2)]) := by
  have hne : (Format.mk (fieldsElems 0 (ident :: idents))).isEmpty = false := by
    rw [fieldsElems_cons, Format.isEmpty, List.isEmpty_eq_false_iff]
    exact List.append_ne_nil_of_right_ne_nil _ (List.cons_ne_nil _ _)
  show (if (Format.mk (fieldsElems 0 (ident :: idents))).isEmpty then _ else _ : Format).elems = _
  rw [hne, if_neg Bool.false_ne_true]
  unfold brackets
  by_cases hnamed : (ident :: idents).any FieldIdent.isNamed
  · rw [if_pos hnamed, if_pos hnamed]
    rfl
  · rw [if_neg hnamed, if_neg hnamed]
    rfl

/-! ## Fields as the language has them -/

/-- The fields all have names, which are distinct and without white space, or all have
positions. -/
def Shaped (idents : List FieldIdent) : Prop :=
  (∃ names : List String, idents = names.map .named ∧ names.Nodup ∧
    ∀ name ∈ names, ∀ c ∈ name.toList, isWhitespace c = false) ∨
  idents = (List.range idents.length).map .unnamed

theorem Shaped.nodup {idents : List FieldIdent} (h : Shaped idents) : idents.Nodup := by
  rcases h with ⟨names, rfl, hnodup, -⟩ | hrange
  · exact hnodup.map (fun a b hab => FieldIdent.named.inj hab)
  · rw [hrange]
    exact List.nodup_range.map (fun a b hab => FieldIdent.unnamed.inj hab)

/-- The field is found where the parser looks for it. -/
def Resolves (parsers : IMap FieldIdent (TextParser Value)) (ident : FieldIdent)
    (p : TextParser Value) : Prop :=
  match ident with
  | .named name => parsers.get? (.named name) = some p
  | .unnamed index => parsers[index]? = some (.unnamed index, p)

theorem Shaped.resolves {parsers : IMap FieldIdent (TextParser Value)} (h : Shaped parsers.keys)
    {e : FieldIdent × TextParser Value} (he : e ∈ parsers) : Resolves parsers e.1 e.2 := by
  obtain ⟨ident, p⟩ := e
  cases ident with
  | named name => exact IMap.get?_of_mem h.nodup he
  | unnamed index =>
      obtain ⟨j, hj, hget⟩ := List.getElem_of_mem he
      have hkey : parsers.keys[j]? = some (.unnamed index) := by
        rw [IMap.keys, List.getElem?_map, List.getElem?_eq_getElem hj, hget]
        rfl
      rcases h with ⟨names, hnames, -⟩ | hrange
      · rw [hnames, List.getElem?_map] at hkey
        obtain ⟨name, -, hname⟩ := Option.map_eq_some_iff.mp hkey
        cases hname
      · rw [hrange, List.getElem?_map, List.getElem?_range (by simpa [IMap.keys] using hj)] at hkey
        have hindex : j = index := FieldIdent.unnamed.inj (Option.some.inj hkey)
        subst hindex
        show parsers[j]? = _
        rw [List.getElem?_eq_getElem hj, hget]

/-! ## The parser -/

/-- Literals are read, one after the other. -/
inductive LitsRead : List String → List Char → List Char → Prop where
  | nil {s : List Char} : LitsRead [] s s
  | cons {lit : String} {lits : List String} {s s' s'' : List Char}
      (hlit : Reads (litParse lit) s () s') (hlits : LitsRead lits s' s'') :
      LitsRead (lit :: lits) s s''

/-- Fields are read, from the `i`th one on. -/
inductive FieldsRead :
    Nat → IMap FieldIdent (TextParser Value) → List Char → List Value → List Char → Prop where
  | nil {i : Nat} {s : List Char} : FieldsRead i [] s [] s
  | cons {i : Nat} {ident : FieldIdent} {p : TextParser Value}
      {ps : IMap FieldIdent (TextParser Value)} {s s₁ s₂ s₃ : List Char} {v : Value}
      {vs : List Value} (hlits : LitsRead (fieldLits i ident) s s₁) (hv : Reads p s₁ v s₂)
      (hvs : FieldsRead (i + 1) ps s₂ vs s₃) : FieldsRead i ((ident, p) :: ps) s (v :: vs) s₃

section Runs

variable {parsers ps : IMap FieldIdent (TextParser Value)} {elems : List Elem}
  {bound env : IMap FieldIdent Value} {s rest : List Char} {i : Nat}

theorem FieldsRead.length_eq {vs : List Value} (h : FieldsRead i ps s vs rest) :
    vs.length = ps.length := by
  induction h with
  | nil => rfl
  | cons _ _ _ ih => rw [List.length_cons, List.length_cons, ih]

theorem reads_lits_iff {lits : List String} :
    Reads (parseElems parsers (lits.map .lit ++ elems) bound) s env rest ↔
      ∃ s₁, LitsRead lits s s₁ ∧ Reads (parseElems parsers elems bound) s₁ env rest := by
  induction lits generalizing s with
  | nil =>
      constructor
      · exact fun h => ⟨s, .nil, h⟩
      · rintro ⟨s₁, hnil, h⟩
        cases hnil
        exact h
  | cons lit lits ih =>
      show Reads ((litParse lit).withRight (parseElems parsers (lits.map .lit ++ elems) bound))
        s env rest ↔ _
      constructor
      · intro h
        obtain ⟨_, s', hlit, hmore⟩ := h.of_withRight
        obtain ⟨s₁, hlits, hread⟩ := ih.mp hmore
        exact ⟨s₁, .cons hlit hlits, hread⟩
      · rintro ⟨s₁, hcons, hread⟩
        cases hcons with
        | cons hlit hlits => exact hlit.withRight (ih.mpr ⟨s₁, hlits, hread⟩)

theorem reads_var_iff {ident : FieldIdent} {p : TextParser Value}
    (hp : Resolves parsers ident p) :
    Reads (parseElems parsers (fieldVar ident :: elems) bound) s env rest ↔
      ∃ v s₁, Reads p s v s₁ ∧
        Reads (parseElems parsers elems ((ident, v) :: bound)) s₁ env rest := by
  have helem : parseElems parsers (fieldVar ident :: elems) bound =
      p.andThen (fun v => parseElems parsers elems ((ident, v) :: bound)) := by
    cases ident with
    | named name =>
        show parseElems parsers (.var name :: elems) bound = _
        rw [parseElems, show parsers.get? (.named name) = some p from hp]
    | unnamed index =>
        show parseElems parsers (.unnamedVar index :: elems) bound = _
        rw [parseElems, show parsers[index]? = some (.unnamed index, p) from hp]
  rw [helem]
  constructor
  · exact fun h => h.of_andThen
  · rintro ⟨v, s₁, hv, hmore⟩
    exact hv.andThen hmore

/-- The elements of fields read the fields, and bind them. -/
theorem reads_fields_iff (hps : ∀ e ∈ ps, Resolves parsers e.1 e.2) :
    Reads (parseElems parsers (fieldsElems i ps.keys ++ elems) bound) s env rest ↔
      ∃ vs s₁, FieldsRead i ps s vs s₁ ∧
        Reads (parseElems parsers elems ((ps.keys.zip vs).reverse ++ bound)) s₁ env rest := by
  induction ps generalizing i s bound with
  | nil =>
      constructor
      · exact fun h => ⟨[], s, .nil, h⟩
      · rintro ⟨vs, s₁, hnil, h⟩
        cases hnil
        exact h
  | cons e ps ih =>
      obtain ⟨ident, p⟩ := e
      rw [List.forall_mem_cons] at hps
      have helems : fieldsElems i (IMap.keys ((ident, p) :: ps)) ++ elems =
          (fieldLits i ident).map .lit ++
            (fieldVar ident :: (fieldsElems (i + 1) (IMap.keys ps) ++ elems)) := by
        show fieldsElems i (ident :: IMap.keys ps) ++ elems = _
        rw [fieldsElems_cons, List.append_assoc]
        rfl
      rw [helems, reads_lits_iff]
      constructor
      · rintro ⟨s₁, hlits, hread⟩
        obtain ⟨v, s₂, hv, hmore⟩ := (reads_var_iff hps.1).mp hread
        obtain ⟨vs, s₃, hvs, hrest⟩ := (ih hps.2).mp hmore
        refine ⟨v :: vs, s₃, .cons hlits hv hvs, ?_⟩
        simpa [IMap.keys] using hrest
      · rintro ⟨vs, s₃, hcons, hrest⟩
        cases hcons with
        | @cons _ _ _ _ _ s₁ s₂ _ v vs hlits hv hvs =>
            refine ⟨s₁, hlits, (reads_var_iff hps.1).mpr ⟨v, s₂, hv, ?_⟩⟩
            refine (ih hps.2).mpr ⟨vs, s₃, hvs, ?_⟩
            simpa [IMap.keys] using hrest

theorem mapM_get?_zip {idents : List FieldIdent} {vs : List Value} (hnodup : idents.Nodup)
    (hlen : vs.length = idents.length) :
    idents.mapM (fun ident => IMap.get? ((idents.zip vs).reverse) ident) = some vs := by
  have hkeys : (IMap.keys (idents.zip vs).reverse).Nodup := by
    rw [IMap.keys, List.map_reverse, List.map_fst_zip (by omega), List.nodup_reverse]
    exact hnodup
  have hall : ∀ e ∈ idents.zip vs, IMap.get? ((idents.zip vs).reverse) e.1 = some e.2 :=
    fun e he => IMap.get?_of_mem hkeys (List.mem_reverse.mpr he)
  suffices h : ∀ (g : FieldIdent → Option Value) (idents : List FieldIdent) (vs : List Value),
      vs.length = idents.length → (∀ e ∈ idents.zip vs, g e.1 = some e.2) →
      idents.mapM g = some vs from h _ idents vs hlen hall
  intro g idents vs hlen hg
  induction idents generalizing vs with
  | nil =>
      rw [List.length_eq_zero_iff.mp hlen]
      rfl
  | cons ident idents ih =>
      cases vs with
      | nil => cases hlen
      | cons v vs =>
          rw [List.zip_cons_cons, List.forall_mem_cons] at hg
          rw [List.mapM_cons, hg.1, ih vs (Nat.succ.inj hlen) hg.2]
          rfl

/-- What a struct's parser reads. -/
theorem reads_parseFields_iff (h : Shaped parsers.keys) {vs : List Value} :
    Reads (parseFields parsers) s vs rest ↔
      if parsers = [] then vs = [] ∧ rest = s
      else ∃ s₁ s₂, Reads (litParse (String.singleton (brackets parsers.keys).1)) s () s₁ ∧
        FieldsRead 0 parsers s₁ vs s₂ ∧
        Reads (litParse (String.singleton (brackets parsers.keys).2)) s₂ () rest := by
  by_cases hnil : parsers = []
  · subst hnil
    rw [if_pos rfl]
    constructor
    · intro hread
      obtain ⟨env, s₁, helems, hbuild⟩ := hread.of_andThen
      obtain ⟨rfl, rfl⟩ := helems.of_value
      exact hbuild.of_value
    · rintro ⟨rfl, rfl⟩
      exact Reads.value.andThen Reads.value
  · rw [if_neg hnil]
    obtain ⟨ident, idents, hkeys⟩ : ∃ ident idents, parsers.keys = ident :: idents := by
      apply List.exists_cons_of_ne_nil
      intro hkeys
      exact hnil (List.map_eq_nil_iff.mp hkeys)
    have hformat : (canonicalFormatForStructs parsers.keys).elems =
        [String.singleton (brackets parsers.keys).1].map Elem.lit ++
          (fieldsElems 0 parsers.keys ++
            ([String.singleton (brackets parsers.keys).2].map Elem.lit ++ [])) := by
      rw [hkeys, canonicalFormat_cons]
      rfl
    have hbuild : ∀ (vs : List Value), vs.length = parsers.length →
        buildObject parsers.keys ((parsers.keys.zip vs).reverse ++ []) = value vs := by
      intro vs hlen
      rw [List.append_nil, buildObject, mapM_get?_zip h.nodup (by simpa [IMap.keys] using hlen)]
    rw [parseFields, hformat]
    constructor
    · intro hread
      obtain ⟨env, s₃, helems, hobject⟩ := hread.of_andThen
      obtain ⟨s₁, hopen, helems⟩ := reads_lits_iff.mp helems
      obtain ⟨vs', s₂, hfields, helems⟩ := (reads_fields_iff (fun e he => h.resolves he)).mp helems
      obtain ⟨s₄, hclose, hend⟩ := reads_lits_iff.mp helems
      obtain ⟨rfl, rfl⟩ := hend.of_value
      rw [hbuild vs' hfields.length_eq] at hobject
      obtain ⟨rfl, rfl⟩ := hobject.of_value
      cases hopen with
      | cons hopen hnil =>
          cases hnil
          cases hclose with
          | cons hclose hnil =>
              cases hnil
              exact ⟨s₁, s₂, hopen, hfields, hclose⟩
    · rintro ⟨s₁, s₂, hopen, hfields, hclose⟩
      have hend : Reads (parseElems parsers [] ((parsers.keys.zip vs).reverse ++ [])) rest
          ((parsers.keys.zip vs).reverse ++ []) rest := Reads.value
      have helems := reads_lits_iff.mpr ⟨s₁, .cons hopen .nil,
        (reads_fields_iff (fun e he => h.resolves he)).mpr ⟨vs, s₂, hfields,
          reads_lits_iff.mpr ⟨rest, .cons hclose .nil, hend⟩⟩⟩
      refine helems.andThen ?_
      rw [hbuild vs hfields.length_eq]
      exact Reads.value

end Runs

/-! ## The printer -/

/-- The text of literals. -/
def litsText (lits : List String) : List Char := lits.flatMap String.toList

/-- The text of fields, from the `i`th one on. -/
def fieldsText : Nat → IMap FieldIdent (List Char) → List Char
  | _, [] => []
  | i, (ident, text) :: texts => litsText (fieldLits i ident) ++ (text ++ fieldsText (i + 1) texts)

section Texts

variable {all texts : IMap FieldIdent (List Char)}

theorem flatMap_lits (lits : List String) :
    (lits.map Elem.lit).flatMap (buildElem all) = litsText lits := by
  rw [List.flatMap_map]
  rfl

theorem flatMap_fieldsElems {i : Nat} (h : ∀ e ∈ texts, all.get? e.1 = some e.2) :
    (fieldsElems i texts.keys).flatMap (buildElem all) = fieldsText i texts := by
  induction texts generalizing i with
  | nil => rfl
  | cons e texts ih =>
      obtain ⟨ident, text⟩ := e
      rw [List.forall_mem_cons] at h
      have hvar : buildElem all (fieldVar ident) = text := by
        cases ident with
        | named name => exact congrArg (Option.getD · []) h.1
        | unnamed index => exact congrArg (Option.getD · []) h.1
      show (fieldsElems i (ident :: IMap.keys texts)).flatMap (buildElem all) = _
      rw [fieldsElems_cons, List.flatMap_append, flatMap_lits, List.flatMap_cons, hvar, ih h.2]
      rfl

/-- What a struct's printer writes. -/
theorem buildFormat_eq (h : texts.keys.Nodup) :
    buildFormat texts (canonicalFormatForStructs texts.keys) =
      if texts = [] then []
      else (brackets texts.keys).1 :: (fieldsText 0 texts ++ [(brackets texts.keys).2]) := by
  cases texts with
  | nil => rfl
  | cons e texts =>
      obtain ⟨ident, text⟩ := e
      have hkeys : IMap.keys ((ident, text) :: texts) = ident :: IMap.keys texts := rfl
      rw [if_neg (List.cons_ne_nil _ _), buildFormat, hkeys, canonicalFormat_cons,
        List.flatMap_cons, List.flatMap_append, ← hkeys,
        flatMap_fieldsElems (fun e he => IMap.get?_of_mem h he)]
      simp [buildElem]

end Texts

end Pliron.Derive
