/-
  Pliron.LLVM.AttributeListsCorrect

  Which attributes of LLVM survive their import and export, and the entries of
  the dialect's lists survive export and import.

  An attribute and its entry determine one another, so each list survives as
  long as no two of its attributes get one name in the dialect: a string
  attribute may have the name of an enum attribute.  String attributes that are
  not UTF-8, or have no name, end the conversion in a panic.
-/

import Pliron.Lib.Gather
import Pliron.LLVM.AttributeLists

namespace Pliron.LlvmAttrs

open Lib.Gather

/-! ## Strings -/

section Strings

variable {E : Type} {bytes : ByteArray} {s : String}

theorem fromUTF8?_toUTF8 (s : String) : String.fromUTF8? s.toUTF8 = some s := by
  unfold String.fromUTF8?
  exact dif_pos s.isValidUTF8

theorem toUTF8_of_fromUTF8? (h : String.fromUTF8? bytes = some s) : s.toUTF8 = bytes := by
  unfold String.fromUTF8? at h
  split at h
  · cases h
    rfl
  · cases h

theorem toUTF8_injective {s s' : String} (h : s.toUTF8 = s'.toUTF8) : s = s' := by
  have hs := fromUTF8?_toUTF8 s
  rw [h, fromUTF8?_toUTF8] at hs
  exact (Option.some.inj hs).symm

theorem sizedCstrToString_eq_ok_iff :
    sizedCstrToString (E := E) bytes = .ok s ↔ bytes = s.toUTF8 := by
  unfold sizedCstrToString
  constructor
  · intro h
    split at h
    · next s' hs' =>
        cases h
        exact (toUTF8_of_fromUTF8? hs').symm
    · cases h
  · rintro rfl
    rw [fromUTF8?_toUTF8]

end Strings

/-! ## Lists of the dialect -/

namespace LlvmAttributesAttr

variable {P : Type} {attrs : LlvmAttributesAttr P} {name : String} {value : LlvmAttrValue P}

/-- Setting leaves the names that are there, and adds its own if it is new. -/
theorem names_set :
    (attrs.set name value).map Prod.fst =
      if name ∈ attrs.map Prod.fst then attrs.map Prod.fst else attrs.map Prod.fst ++ [name] := by
  induction attrs with
  | nil => rfl
  | cons entry attrs ih =>
      rw [set]
      by_cases hname : entry.1 = name
      · rw [if_pos hname]
        simp [hname]
      · rw [if_neg hname, List.map_cons, ih]
        by_cases hmem : name ∈ attrs.map Prod.fst
        · rw [if_pos hmem, List.map_cons, if_pos (List.mem_cons_of_mem _ hmem)]
        · have hnot : name ∉ (entry :: attrs).map Prod.fst := by
            rw [List.map_cons, List.mem_cons, not_or]
            exact ⟨Ne.symm hname, hmem⟩
          rw [if_neg hmem, if_neg hnot]
          rfl

theorem nodup_set (h : (attrs.map Prod.fst).Nodup) :
    ((attrs.set name value).map Prod.fst).Nodup := by
  rw [names_set]
  by_cases hmem : name ∈ attrs.map Prod.fst
  · rwa [if_pos hmem]
  · rw [if_neg hmem, ← List.concat_eq_append]
    exact h.concat hmem

theorem set_of_not_mem (h : name ∉ attrs.map Prod.fst) :
    attrs.set name value = attrs ++ [(name, value)] := by
  induction attrs with
  | nil => rfl
  | cons entry attrs ih =>
      rw [List.map_cons, List.mem_cons, not_or] at h
      rw [set, if_neg (Ne.symm h.1), ih h.2]
      rfl

theorem mem_of_mem_set {e : String × LlvmAttrValue P} (h : e ∈ attrs.set name value) :
    e ∈ attrs ∨ e = (name, value) := by
  induction attrs with
  | nil => exact .inr (List.mem_singleton.mp h)
  | cons entry attrs ih =>
      rw [set] at h
      split at h
      · next hname =>
          rcases List.mem_cons.mp h with rfl | hmem
          · exact .inr (by rw [hname])
          · exact .inl (List.mem_cons_of_mem _ hmem)
      · rcases List.mem_cons.mp h with rfl | hmem
        · exact .inl List.mem_cons_self
        · exact (ih hmem).imp (List.mem_cons_of_mem _) id

/-- No list that is built has a name twice. -/
theorem nodup_build (edits : List (Edit P)) : ((build edits).map Prod.fst).Nodup := by
  have hstep : ∀ (attrs : LlvmAttributesAttr P) (edit : Edit P), (attrs.map Prod.fst).Nodup →
      ((attrs.edit edit).map Prod.fst).Nodup := by
    intro attrs edit h
    cases edit with
    | set name value => exact nodup_set h
    | remove name => exact h.sublist (List.filter_sublist.map Prod.fst)
  suffices h : ∀ attrs : LlvmAttributesAttr P, (attrs.map Prod.fst).Nodup →
      ((edits.foldl edit attrs).map Prod.fst).Nodup from h [] List.nodup_nil
  induction edits with
  | nil => exact fun attrs h => h
  | cons e edits ih => exact fun attrs h => ih _ (hstep attrs e h)

/-- Set the attribute of an entry. -/
def setEntry (attrs : LlvmAttributesAttr P) (e : String × LlvmAttrValue P) :
    LlvmAttributesAttr P :=
  attrs.set e.1 e.2

variable {l : LlvmAttributesAttr P}

/-- Setting what has distinct names gives just that. -/
theorem foldl_set_of_nodup (h : (l.map Prod.fst).Nodup) :
    l.foldl setEntry [] = l :=
  foldl_of_nodup (fun _ _ => set_of_not_mem) h

theorem nodup_foldl_set (h : (attrs.map Prod.fst).Nodup) :
    ((l.foldl setEntry attrs).map Prod.fst).Nodup := by
  induction l generalizing attrs with
  | nil => exact h
  | cons e l ih => exact ih (nodup_set h)

theorem mem_of_mem_foldl_set {e : String × LlvmAttrValue P} (h : e ∈ l.foldl setEntry attrs) :
    e ∈ attrs ∨ e ∈ l := mem_of_mem_foldl mem_of_mem_set h

end LlvmAttributesAttr

/-! ## An attribute and its entry -/

variable (K : EnumAttributeKinds)

namespace LLVMAttribute

variable {E L P R : Type} (T : TypeConversion E L P)

/-- Does the dialect keep this attribute? -/
def Kept : LLVMAttribute L R → Bool
  | enum kind _ | type kind _ => (llvmEnumAttributeInfo K kind).isSome
  | range _ _ => false
  | string _ _ => true

/-- The name of an attribute, in bytes. -/
def name : LLVMAttribute L R → Option ByteArray
  | enum kind _ | type kind _ | range kind _ =>
      (llvmEnumAttributeInfo K kind).map (fun info => info.1.toUTF8)
  | string kind _ => some kind

/-- Are the texts of this attribute UTF-8? -/
def Readable : LLVMAttribute L R → Prop
  | string kind value => (String.fromUTF8? kind).isSome ∧ (String.fromUTF8? value).isSome
  | _ => True

/-- Is this an attribute of a known kind with a type that has no counterpart? -/
def Unconvertible : LLVMAttribute L R → Prop
  | type kind ty => (llvmEnumAttributeInfo K kind).isSome ∧ ∃ e, T.fromLlvm ty = .error e
  | _ => False

theorem name_of_key {a b : LLVMAttribute L R} (h : a.key = b.key) : a.name K = b.name K := by
  cases a <;> cases b <;> cases h <;> rfl

end LLVMAttribute

section Entries

variable {E L P R : Type} {T : TypeConversion E L P} {a : LLVMAttribute L R}
  {e : String × LlvmAttrValue P} {f : Failure E}

theorem TypeConversion.convertFrom_eq_ok_iff {ty : L} {ty' : P} :
    T.convertFrom ty = .ok ty' ↔ T.fromLlvm ty = .ok ty' := by
  unfold convertFrom
  cases T.fromLlvm ty <;> simp

theorem TypeConversion.convertTo_eq_ok_iff {ty : P} {ty' : L} :
    T.convertTo ty = .ok ty' ↔ T.toLlvm ty = .ok ty' := by
  unfold convertTo
  cases T.toLlvm ty <;> simp

/-- An attribute of LLVM and an entry that say the same. -/
inductive Corresponds (T : TypeConversion E L P) :
    LLVMAttribute L R → String × LlvmAttrValue P → Prop where
  | unit {kind : Nat} {name : String} (info : llvmEnumAttributeInfo K kind = some (name, .enum)) :
      Corresponds T (.enum kind 0) (name, .unit)
  | int {kind : Nat} {name : String} (value : UInt64)
      (info : llvmEnumAttributeInfo K kind = some (name, .int)) :
      Corresponds T (.enum kind value) (name, .int value)
  | type {kind : Nat} {name : String} {ty : L} {ty' : P}
      (info : llvmEnumAttributeInfo K kind = some (name, .type))
      (convert : T.fromLlvm ty = .ok ty') :
      Corresponds T (.type kind ty) (name, .type ty')
  | str (kind value : String) :
      Corresponds T (.string kind.toUTF8 value.toUTF8) (kind, .str value)

variable {K}

/-- They have one name. -/
theorem Corresponds.name_eq (h : Corresponds K T a e) : a.name K = some e.1.toUTF8 := by
  cases h with
  | unit info => exact congrArg (Option.map _) info
  | int value info => exact congrArg (Option.map _) info
  | type info _ => exact congrArg (Option.map _) info
  | str => rfl

theorem Corresponds.kept (h : Corresponds K T a e) : a.Kept K = true := by
  cases h with
  | unit info => exact congrArg Option.isSome info
  | int value info => exact congrArg Option.isSome info
  | type info _ => exact congrArg Option.isSome info
  | str => rfl

theorem Corresponds.convert_eq (h : Corresponds K T a e) :
    convertLlvmAttribute K T a = .ok (some e) := by
  cases h with
  | unit info =>
      rw [convertLlvmAttribute, info]
      rfl
  | int value info =>
      rw [convertLlvmAttribute, info]
      rfl
  | type info hty =>
      rw [convertLlvmAttribute, info]
      show (T.convertFrom _ >>= fun ty => pure (some (_, LlvmAttrValue.type ty))) = _
      rw [TypeConversion.convertFrom_eq_ok_iff.mpr hty]
      rfl
  | str kind value =>
      have hkind := (sizedCstrToString_eq_ok_iff (E := E)).mpr (Eq.refl kind.toUTF8)
      have hvalue := (sizedCstrToString_eq_ok_iff (E := E)).mpr (Eq.refl value.toUTF8)
      rw [convertLlvmAttribute, hkind, hvalue]
      rfl

/-- Nothing but its entry is made of an attribute that LLVM may hold. -/
theorem corresponds_of_convert (hheld : a.Held K) (h : convertLlvmAttribute K T a = .ok (some e)) :
    Corresponds K T a e := by
  cases a with
  | string kind value =>
      rw [convertLlvmAttribute] at h
      cases hkind : sizedCstrToString (E := E) kind with
      | error f =>
          rw [hkind] at h
          cases h
      | ok kind' =>
          cases hvalue : sizedCstrToString (E := E) value with
          | error f =>
              rw [hkind, hvalue] at h
              cases h
          | ok value' =>
              rw [hkind, hvalue] at h
              cases h
              rw [sizedCstrToString_eq_ok_iff] at hkind hvalue
              rw [hkind, hvalue]
              exact .str kind' value'
  | range kind r => cases h
  | type kind ty =>
      rw [convertLlvmAttribute] at h
      cases hinfo : llvmEnumAttributeInfo K kind with
      | none =>
          rw [hinfo] at h
          cases h
      | some info =>
          have hkind : info.2 = .type := (kindForName_of_info K hinfo).2.symm.trans hheld
          rw [hinfo] at h
          cases hty : T.convertFrom ty with
          | error f =>
              rw [hty] at h
              cases h
          | ok ty' =>
              rw [hty] at h
              cases h
              exact .type (by rw [hinfo, ← hkind]) (TypeConversion.convertFrom_eq_ok_iff.mp hty)
  | enum kind value =>
      rw [convertLlvmAttribute] at h
      cases hinfo : llvmEnumAttributeInfo K kind with
      | none =>
          rw [hinfo] at h
          cases h
      | some info =>
          obtain ⟨name, valueKind⟩ := info
          have hkind : K.valueKind kind = valueKind := (kindForName_of_info K hinfo).2
          subst hkind
          rw [hinfo] at h
          rcases hheld with ⟨henum, rfl⟩ | hint
          · rw [henum] at h hinfo
            cases h
            exact .unit hinfo
          · rw [hint] at h hinfo
            cases h
            exact .int value hinfo

/-- Only what the dialect has no place for is dropped. -/
theorem kept_of_convert {o : Option (String × LlvmAttrValue P)}
    (h : convertLlvmAttribute K T a = .ok o) : a.Kept K = o.isSome := by
  cases a with
  | string kind value =>
      rw [convertLlvmAttribute] at h
      cases hkind : sizedCstrToString (E := E) kind with
      | error f =>
          rw [hkind] at h
          cases h
      | ok kind' =>
          cases hvalue : sizedCstrToString (E := E) value with
          | error f =>
              rw [hkind, hvalue] at h
              cases h
          | ok value' =>
              rw [hkind, hvalue] at h
              cases h
              rfl
  | range kind r =>
      cases h
      rfl
  | type kind ty =>
      rw [convertLlvmAttribute] at h
      rw [LLVMAttribute.Kept]
      cases hinfo : llvmEnumAttributeInfo K kind with
      | none =>
          rw [hinfo] at h
          cases h
          rfl
      | some info =>
          rw [hinfo] at h
          cases hty : T.convertFrom ty with
          | error f =>
              rw [hty] at h
              cases h
          | ok ty' =>
              rw [hty] at h
              cases h
              rfl
  | enum kind value =>
      rw [convertLlvmAttribute] at h
      rw [LLVMAttribute.Kept]
      cases hinfo : llvmEnumAttributeInfo K kind with
      | none =>
          rw [hinfo] at h
          cases h
          rfl
      | some info =>
          rw [hinfo] at h
          obtain ⟨name, valueKind⟩ := info
          cases valueKind <;> cases h <;> rfl

/-- The conversion of an attribute fails only on its texts and its type. -/
theorem convert_eq_error_iff :
    convertLlvmAttribute K T a = .error f ↔
      (¬ a.Readable ∧ f = .panicked) ∨
        ∃ kind ty err, a = .type kind ty ∧ (llvmEnumAttributeInfo K kind).isSome ∧
          T.fromLlvm ty = .error err ∧ f = .conversion err := by
  cases a with
  | string kind value =>
      rw [convertLlvmAttribute, sizedCstrToString, sizedCstrToString, LLVMAttribute.Readable]
      cases String.fromUTF8? kind with
      | none => simp [bind, Except.bind, eq_comm (a := f)]
      | some kind' =>
          cases String.fromUTF8? value with
          | none => simp [bind, Except.bind, eq_comm (a := f)]
          | some value' => simp [bind, Except.bind, pure, Except.pure]
  | range kind r => simp [convertLlvmAttribute, LLVMAttribute.Readable, pure, Except.pure]
  | type kind ty =>
      rw [convertLlvmAttribute, TypeConversion.convertFrom]
      cases hinfo : llvmEnumAttributeInfo K kind with
      | none => simp [LLVMAttribute.Readable, pure, Except.pure, hinfo]
      | some info =>
          cases hty : T.fromLlvm ty with
          | error err =>
              simp [LLVMAttribute.Readable, bind, Except.bind, hinfo, hty, eq_comm (a := f)]
          | ok ty' =>
              simp [LLVMAttribute.Readable, bind, Except.bind, pure, Except.pure, hty]
  | enum kind value =>
      rw [convertLlvmAttribute]
      cases llvmEnumAttributeInfo K kind with
      | none => simp [LLVMAttribute.Readable, pure, Except.pure]
      | some info =>
          obtain ⟨name, valueKind⟩ := info
          cases valueKind <;> simp [LLVMAttribute.Readable, pure, Except.pure]

/-! ## An entry and its attribute -/

theorem createAttribute_of_empty (h : e.1 = "") :
    createAttribute (R := R) K T e = .error .panicked := by
  obtain ⟨name, value⟩ := e
  subst h
  cases value <;> rfl

theorem createAttribute_of_info {name name' : String} {kind : Nat} {valueKind : LlvmAttrValueKind}
    {value : LlvmAttrValue P} (hstr : ∀ s, value ≠ .str s) (hname : name ≠ "")
    (hkind : K.kindForName name = some kind)
    (hinfo : llvmEnumAttributeInfo K kind = some (name', valueKind)) :
    createAttribute (R := R) K T (name, value) = createOfKind T name kind valueKind value := by
  rw [createAttribute, llvmEnumAttributeKind, if_neg hname, hkind]
  · simp only [bind, Except.bind, Option.bind_some, hinfo, Option.map_some]
  · exact hstr

theorem createAttribute_of_unknown {name : String} {value : LlvmAttrValue P}
    (hstr : ∀ s, value ≠ .str s) (hname : name ≠ "")
    (hkind : ∀ kind ∈ K.kindForName name, llvmEnumAttributeInfo K kind = none) :
    createAttribute (R := R) K T (name, value) = .ok none := by
  rw [createAttribute, llvmEnumAttributeKind, if_neg hname]
  · cases hk : K.kindForName name with
    | none => rfl
    | some kind =>
        simp only [bind, Except.bind, Option.bind_some, hkind kind hk, Option.map_none]
        rfl
  · exact hstr

theorem Corresponds.create_eq (h : Corresponds K T a e) (hname : e.1 ≠ "") :
    createAttribute K T e = .ok (some a) := by
  cases h with
  | unit info =>
      rw [createAttribute_of_info (by simp) hname (kindForName_of_info K info).1 info]
      rfl
  | int value info =>
      rw [createAttribute_of_info (by simp) hname (kindForName_of_info K info).1 info]
      rfl
  | type info hty =>
      have hconvert := TypeConversion.convertTo_eq_ok_iff.mpr (T.toLlvm_of_fromLlvm hty)
      rw [createAttribute_of_info (by simp) hname (kindForName_of_info K info).1 info, createOfKind,
        hconvert]
      rfl
  | str kind value =>
      rw [createAttribute, llvmCreateStringAttribute, if_neg hname]
      rfl

theorem corresponds_of_createOfKind {name : String} {kind : Nat} {valueKind : LlvmAttrValueKind}
    {value : LlvmAttrValue P} (hinfo : llvmEnumAttributeInfo K kind = some (name, valueKind))
    (h : createOfKind T name kind valueKind value = .ok (some a)) :
    Corresponds K T a (name, value) := by
  unfold createOfKind at h
  split at h
  · cases h
    exact .unit hinfo
  · cases h
    exact .int _ hinfo
  · next ty =>
      cases hty : T.convertTo ty with
      | error f =>
          rw [hty] at h
          cases h
      | ok ty' =>
          rw [hty] at h
          cases h
          exact .type hinfo (T.fromLlvm_of_toLlvm (TypeConversion.convertTo_eq_ok_iff.mp hty))
  all_goals cases h

/-- Nothing but its attribute is made of an entry. -/
theorem corresponds_of_create (h : createAttribute K T e = .ok (some a)) :
    Corresponds K T a e := by
  obtain ⟨name, value⟩ := e
  have hname : name ≠ "" := by
    rintro rfl
    cases (createAttribute_of_empty rfl).symm.trans h
  by_cases hstr : ∃ s, value = .str s
  · obtain ⟨s, rfl⟩ := hstr
    rw [createAttribute, llvmCreateStringAttribute, if_neg hname] at h
    cases h
    exact .str name s
  · have hstr : ∀ s, value ≠ .str s := fun s hs => hstr ⟨s, hs⟩
    by_cases hknown : ∀ kind ∈ K.kindForName name, llvmEnumAttributeInfo K kind = none
    · rw [createAttribute_of_unknown hstr hname hknown] at h
      cases h
    · push Not at hknown
      obtain ⟨kind, hkind, hinfo⟩ := hknown
      obtain ⟨⟨name', valueKind⟩, hinfo⟩ := Option.ne_none_iff_exists'.mp hinfo
      -- the table's name of the kind is this name
      have hname' : name' = name := K.injective (kindForName_of_info K hinfo).1 hkind
      subst hname'
      rw [createAttribute_of_info hstr hname hkind hinfo] at h
      exact corresponds_of_createOfKind hinfo h

end Entries

/-! ## Import, then export -/

section Lists

variable {E L P R : Type} (T : TypeConversion E L P)

/-- The attributes come back, without those the dialect drops, or an error is reported. -/
def Survives (attrs : List (LLVMAttribute L R)) : Prop :=
  match (do addFunctionAttributes K T (← convertLlvmAttributes K T attrs) [] :
      Except (Failure E) (List (LLVMAttribute L R))) with
  | .ok out => out.Perm (attrs.filter (fun a => a.Kept K))
  | .error f => f ≠ .panicked

/-- A type that has no counterpart ends the import before a text that is not UTF-8 does. -/
def FailsOnType (attrs : List (LLVMAttribute L R)) : Prop :=
  ∃ before a after, attrs = before ++ a :: after ∧ (∀ b ∈ before, b.Readable) ∧
    a.Unconvertible K T

/-- Strings are UTF-8, string attributes have names, and no two attributes that are kept
have one name. -/
structure Apart (attrs : List (LLVMAttribute L R)) : Prop where
  readable : ∀ a ∈ attrs, a.Readable
  named : ∀ value, .string "".toUTF8 value ∉ attrs
  apart : ∀ a ∈ attrs, ∀ b ∈ attrs, a.Kept K → b.Kept K → a.name K = b.name K → a = b

/-- A list of the dialect whose export neither fails nor drops an attribute is imported
with the same entries, in whatever order LLVM lists its attributes. -/
def ImportsBack (R : Type) (m : LlvmAttributesAttr P) : Prop :=
  ∀ out : List (LLVMAttribute L R), addFunctionAttributes K T m [] = .ok out →
    (∀ e ∈ m, createAttribute (R := R) K T e ≠ .ok none) →
    ∀ attrs, attrs.Perm out → ∃ m', convertLlvmAttributes K T attrs = .ok m' ∧ m'.Perm m

variable {K T} {attrs : List (LLVMAttribute L R)} {m : LlvmAttributesAttr P}

theorem convertLlvmAttributes_eq :
    convertLlvmAttributes K T attrs =
      gather (convertLlvmAttribute K T) LlvmAttributesAttr.setEntry [] attrs := by
  unfold convertLlvmAttributes gather
  congr 1
  funext converted attr
  rcases convertLlvmAttribute K T attr with f | _ | e <;> rfl

theorem addFunctionAttributes_eq :
    addFunctionAttributes K T m attrs = gather (createAttribute K T) addAttribute attrs m := by
  unfold addFunctionAttributes gather
  congr 1
  funext value entry
  rcases createAttribute K T entry with f | _ | a <;> rfl

/-- The entries of an import come from its attributes. -/
theorem corresponds_of_mem (h : HeldAtIndex K attrs) (hm : convertLlvmAttributes K T attrs = .ok m)
    {e : String × LlvmAttrValue P} (he : e ∈ m) : ∃ a ∈ attrs, Corresponds K T a e := by
  rw [convertLlvmAttributes_eq, gather_eq_ok_iff] at hm
  rw [hm.2] at he
  rcases LlvmAttributesAttr.mem_of_mem_foldl_set he with hnil | hmem
  · cases hnil
  · obtain ⟨a, ha, hmade⟩ := List.mem_filterMap.mp hmem
    exact ⟨a, ha, corresponds_of_convert (h.held a ha) (made_eq_some_iff.mp hmade)⟩

theorem nodup_of_convert (hm : convertLlvmAttributes K T attrs = .ok m) :
    (m.map Prod.fst).Nodup := by
  rw [convertLlvmAttributes_eq, gather_eq_ok_iff] at hm
  rw [hm.2]
  exact LlvmAttributesAttr.nodup_foldl_set List.nodup_nil

/-- The export of what was imported reports no error. -/
theorem panicked_of_export (h : HeldAtIndex K attrs) (hm : convertLlvmAttributes K T attrs = .ok m)
    {f : Failure E} (hf : addFunctionAttributes (R := R) K T m [] = .error f) : f = .panicked := by
  rw [addFunctionAttributes_eq, gather_eq_error_iff] at hf
  obtain ⟨before, e, after, rfl, -, he⟩ := hf
  obtain ⟨a, -, hcorr⟩ := corresponds_of_mem h hm (List.mem_append_right _ List.mem_cons_self)
  by_cases hname : e.1 = ""
  · rw [createAttribute_of_empty hname] at he
    cases he
    rfl
  · -- an entry made of an attribute makes that attribute again
    cases (hcorr.create_eq hname).symm.trans he

/-- What comes back of distinct attributes has distinct names and texts. -/
theorem apart_of_export (hm : convertLlvmAttributes K T attrs = .ok m)
    {out : List (LLVMAttribute L R)} (hout : addFunctionAttributes K T m [] = .ok out)
    (hperm : out.Perm (attrs.filter (fun a => a.Kept K))) : Apart K attrs := by
  have hok := (gather_eq_ok_iff.mp (convertLlvmAttributes_eq ▸ hm)).1
  rw [addFunctionAttributes_eq, gather_eq_ok_iff] at hout
  -- every attribute that is kept is made of an entry
  have hentry : ∀ a ∈ attrs, a.Kept K → ∃ e ∈ m, createAttribute K T e = .ok (some a) := by
    intro a ha hkept
    have hmem : a ∈ out := hperm.mem_iff.mpr (List.mem_filter.mpr ⟨ha, hkept⟩)
    rw [hout.2] at hmem
    rcases mem_of_mem_foldl mem_of_mem_addAttribute hmem with hnil | hmem
    · cases hnil
    · obtain ⟨e, he, hmade⟩ := List.mem_filterMap.mp hmem
      exact ⟨e, he, made_eq_some_iff.mp hmade⟩
  constructor
  · intro a ha
    obtain ⟨o, ho⟩ := hok a ha
    by_contra hread
    cases ho.symm.trans (convert_eq_error_iff.mpr (.inl ⟨hread, rfl⟩))
  · intro value hmem
    obtain ⟨e, -, he⟩ := hentry _ hmem rfl
    have hname := (corresponds_of_create he).name_eq
    have hempty : e.1 = "" := toUTF8_injective (Option.some.inj hname).symm
    cases (createAttribute_of_empty hempty).symm.trans he
  · intro a ha b hb hkept hkept' hname
    obtain ⟨e, hem, he⟩ := hentry a ha hkept
    obtain ⟨e', hem', he'⟩ := hentry b hb hkept'
    rw [(corresponds_of_create he).name_eq, (corresponds_of_create he').name_eq] at hname
    have heq : e = e' := by
      apply List.inj_on_of_nodup_map (nodup_of_convert hm) hem hem'
      exact toUTF8_injective (Option.some.inj hname)
    subst heq
    exact Option.some.inj (Except.ok.inj (he.symm.trans he'))

/-- With distinct names, the entries come in the order of the attributes. -/
theorem convert_of_apart (h : HeldAtIndex K attrs) (hapart : Apart K attrs)
    (hm : convertLlvmAttributes K T attrs = .ok m) :
    m = attrs.filterMap (made (convertLlvmAttribute K T)) := by
  rw [convertLlvmAttributes_eq, gather_eq_ok_iff] at hm
  rw [hm.2]
  apply LlvmAttributesAttr.foldl_set_of_nodup
  rw [List.Nodup, List.pairwise_map, List.pairwise_filterMap]
  have hnodup : attrs.Pairwise (· ≠ ·) := h.nodup.of_map
  apply hnodup.imp_of_mem
  intro a b ha hb hne e he e' he' hname
  have hcorr := corresponds_of_convert (h.held a ha) (made_eq_some_iff.mp he)
  have hcorr' := corresponds_of_convert (h.held b hb) (made_eq_some_iff.mp he')
  apply hne
  apply hapart.apart a ha b hb hcorr.kept hcorr'.kept
  rw [hcorr.name_eq, hcorr'.name_eq, hname]

/-- With distinct names and texts, what is kept comes back. -/
theorem export_of_apart (h : HeldAtIndex K attrs) (hapart : Apart K attrs)
    (hm : convertLlvmAttributes K T attrs = .ok m) :
    addFunctionAttributes K T m [] = .ok (attrs.filter (fun a => a.Kept K)) := by
  have hok := (gather_eq_ok_iff.mp (convertLlvmAttributes_eq ▸ hm)).1
  have hmade : ∀ a ∈ attrs, ∀ e, made (convertLlvmAttribute K T) a = some e →
      createAttribute K T e = .ok (some a) := by
    intro a ha e he
    have hcorr := corresponds_of_convert (h.held a ha) (made_eq_some_iff.mp he)
    apply hcorr.create_eq
    intro hempty
    -- the table has no name that is empty
    cases hcorr with
    | unit info => exact name_ne_of_info K info hempty
    | int value info => exact name_ne_of_info K info hempty
    | type info _ => exact name_ne_of_info K info hempty
    | str kind value =>
        have hkind : kind = "" := hempty
        rw [hkind] at ha
        exact hapart.named value.toUTF8 ha
  rw [addFunctionAttributes_eq, gather_eq_ok_iff, convert_of_apart h hapart hm]
  constructor
  · intro e he
    obtain ⟨a, ha, hae⟩ := List.mem_filterMap.mp he
    exact ⟨some a, hmade a ha e hae⟩
  · have hback : (attrs.filterMap (made (convertLlvmAttribute K T))).filterMap
        (made (createAttribute K T)) = attrs.filter (fun a => a.Kept K) := by
      rw [List.filterMap_filterMap, ← List.filterMap_eq_filter]
      apply List.filterMap_congr
      intro a ha
      obtain ⟨o, ho⟩ := hok a ha
      rw [Option.guard, kept_of_convert ho, made_of_ok ho]
      cases o with
      | none => rfl
      | some e => exact made_of_ok (hmade a ha e (made_of_ok ho))
    rw [hback]
    symm
    apply foldl_of_nodup (fun _ _ => addAttribute_of_not_mem)
    exact h.nodup.sublist (List.filter_sublist.map LLVMAttribute.key)

theorem conversion_of_failsOnType (h : FailsOnType K T attrs) :
    ∃ err, convertLlvmAttributes K T attrs = .error (.conversion err) := by
  obtain ⟨before, a, after, rfl, hbefore, ha⟩ := h
  rw [convertLlvmAttributes_eq]
  suffices hrun : ∀ converted, ∃ err, gather (convertLlvmAttribute K T)
      LlvmAttributesAttr.setEntry converted (before ++ a :: after) = .error (.conversion err) from
    hrun []
  induction before with
  | nil =>
      intro converted
      cases a with
      | type kind ty =>
          obtain ⟨hinfo, err, hty⟩ := ha
          exact ⟨err, gather_cons_of_error
            (convert_eq_error_iff.mpr (.inr ⟨kind, ty, err, rfl, hinfo, hty, rfl⟩))⟩
      | _ => cases ha
  | cons b before ih =>
      intro converted
      rw [List.forall_mem_cons] at hbefore
      rw [List.cons_append]
      cases hb : convertLlvmAttribute K T b with
      | ok o =>
          rw [gather_cons_of_ok hb]
          exact ih hbefore.2 _
      | error f =>
          rcases convert_eq_error_iff.mp hb with ⟨hread, -⟩ | ⟨_, _, err, _, _, _, rfl⟩
          · exact absurd hbefore.1 hread
          · exact ⟨err, gather_cons_of_error hb⟩

/-- An import that reports an error met a type that has no counterpart. -/
theorem failsOnType_of_error {f : Failure E} (hf : convertLlvmAttributes K T attrs = .error f)
    (hpanic : f ≠ .panicked) : FailsOnType K T attrs := by
  rw [convertLlvmAttributes_eq, gather_eq_error_iff] at hf
  obtain ⟨before, a, after, hattrs, hbefore, ha⟩ := hf
  refine ⟨before, a, after, hattrs, ?_, ?_⟩
  · intro b hb
    obtain ⟨o, ho⟩ := hbefore b hb
    by_contra hread
    cases ho.symm.trans (convert_eq_error_iff.mpr (.inl ⟨hread, rfl⟩))
  · rcases convert_eq_error_iff.mp ha with ⟨-, hf⟩ | ⟨kind, ty, err, rfl, hinfo, hty, -⟩
    · exact absurd hf hpanic
    · exact ⟨hinfo, err, hty⟩

/-- An import of texts that are UTF-8 does not panic. -/
theorem not_panicked_of_readable {f : Failure E} (hread : ∀ a ∈ attrs, a.Readable)
    (hf : convertLlvmAttributes K T attrs = .error f) : f ≠ .panicked := by
  rw [convertLlvmAttributes_eq, gather_eq_error_iff] at hf
  obtain ⟨before, a, after, rfl, -, ha⟩ := hf
  rcases convert_eq_error_iff.mp ha with ⟨hnot, -⟩ | ⟨_, _, err, _, _, _, rfl⟩
  · exact absurd (hread a (List.mem_append_right _ List.mem_cons_self)) hnot
  · exact nofun

/-- Which attributes of LLVM survive. -/
theorem survives_iff (h : HeldAtIndex K attrs) :
    Survives K T attrs ↔ FailsOnType K T attrs ∨ Apart K attrs := by
  unfold Survives
  cases hm : convertLlvmAttributes K T attrs with
  | error f =>
      show f ≠ .panicked ↔ _
      constructor
      · exact fun hpanic => .inl (failsOnType_of_error hm hpanic)
      · rintro (hfails | hapart)
        · obtain ⟨err, herr⟩ := conversion_of_failsOnType hfails
          cases hm.symm.trans herr
          exact nofun
        · exact not_panicked_of_readable hapart.readable hm
  | ok m =>
      show (match addFunctionAttributes (R := R) K T m [] with
        | .ok out => out.Perm (attrs.filter (fun a => a.Kept K))
        | .error f => f ≠ .panicked) ↔ _
      constructor
      · intro hout
        right
        cases hexport : addFunctionAttributes (R := R) K T m [] with
        | error f =>
            rw [hexport] at hout
            exact absurd (panicked_of_export h hm hexport) hout
        | ok out =>
            rw [hexport] at hout
            exact apart_of_export hm hexport hout
      · rintro (hfails | hapart)
        · obtain ⟨err, herr⟩ := conversion_of_failsOnType hfails
          cases hm.symm.trans herr
        · rw [export_of_apart h hapart hm]

/-! ## Export, then import -/

/-- A list with no name twice comes back. -/
theorem importsBack_of_nodup (h : (m.map Prod.fst).Nodup) : ImportsBack K T R m := by
  intro out hout hdrop attrs hperm
  rw [addFunctionAttributes_eq, gather_eq_ok_iff] at hout
  -- each entry and what is made of it correspond
  have hcreate : ∀ e ∈ m, ∃ a, createAttribute (R := R) K T e = .ok (some a) := by
    intro e he
    obtain ⟨o, ho⟩ := hout.1 e he
    cases o with
    | none => exact absurd ho (hdrop e he)
    | some a => exact ⟨a, ho⟩
  have hkeys : ((m.filterMap (made (createAttribute (R := R) K T))).map
      LLVMAttribute.key).Nodup := by
    rw [List.Nodup, List.pairwise_map, List.pairwise_filterMap]
    apply (List.pairwise_map.mp h).imp
    intro e e' hne a ha a' ha' hkey
    have hname := LLVMAttribute.name_of_key K hkey
    rw [(corresponds_of_create (made_eq_some_iff.mp ha)).name_eq,
      (corresponds_of_create (made_eq_some_iff.mp ha')).name_eq] at hname
    exact hne (toUTF8_injective (Option.some.inj hname))
  have hout : out = m.filterMap (made (createAttribute K T)) := by
    rw [hout.2]
    exact foldl_of_nodup (fun _ _ => addAttribute_of_not_mem) hkeys
  have hback : out.filterMap (made (convertLlvmAttribute K T)) = m := by
    rw [hout, List.filterMap_filterMap]
    calc m.filterMap _ = m.filterMap some := by
          apply List.filterMap_congr
          intro e he
          obtain ⟨a, ha⟩ := hcreate e he
          rw [made_of_ok ha]
          exact made_of_ok (corresponds_of_create ha).convert_eq
      _ = m := List.filterMap_some
  have hentries : (attrs.filterMap (made (convertLlvmAttribute K T))).Perm m :=
    hback ▸ hperm.filterMap _
  refine ⟨attrs.filterMap (made (convertLlvmAttribute K T)), ?_, hentries⟩
  rw [convertLlvmAttributes_eq, gather_eq_ok_iff]
  constructor
  · intro a ha
    have hmem := hperm.mem_iff.mp ha
    rw [hout] at hmem
    obtain ⟨e, -, he⟩ := List.mem_filterMap.mp hmem
    exact ⟨some e, (corresponds_of_create (made_eq_some_iff.mp he)).convert_eq⟩
  · symm
    apply LlvmAttributesAttr.foldl_set_of_nodup
    exact ((hentries.map Prod.fst).nodup_iff).mpr h

variable (T)

/-- The attributes of LLVM survive exactly if a type is reported before any text fails, or
texts, names and types are fine and no string attribute has the name of another attribute;
the lists of the dialect survive. -/
theorem attributes_roundTrip {attrs : List (LLVMAttribute L R)} (h : HeldAtIndex K attrs)
    (edits : List (LlvmAttributesAttr.Edit P)) :
    (Survives K T attrs ↔ FailsOnType K T attrs ∨ Apart K attrs) ∧
      ImportsBack K T R (LlvmAttributesAttr.build edits) :=
  ⟨survives_iff h, importsBack_of_nodup (LlvmAttributesAttr.nodup_build edits)⟩

end Lists

/-! ## A string attribute with the name of an enum attribute -/

/-- An LLVM that knows two kinds. -/
def twoKinds : EnumAttributeKinds where
  kindForName name :=
    if name = "nounwind" then some 1 else if name = "alignstack" then some 2 else none
  valueKind kind := if kind = 2 then .int else .enum
  injective := by
    intro name name' kind h h'
    grind
  agrees := by decide

/-- Types that are their own counterparts. -/
def sameTypes : TypeConversion Empty Unit Unit where
  fromLlvm := .ok
  toLlvm := .ok
  toLlvm_of_fromLlvm := by
    intro ty ty' h
    rfl
  fromLlvm_of_toLlvm := by
    intro ty ty' h
    rfl

theorem info_nounwind : llvmEnumAttributeInfo twoKinds 1 = some ("nounwind", .enum) := by
  decide +kernel

/-- `nounwind` and a string attribute of that name. -/
def nounwindTwice : List (LLVMAttribute Unit Unit) :=
  [.enum 1 0, .string "nounwind".toUTF8 "".toUTF8]

theorem heldAtIndex_nounwindTwice : HeldAtIndex twoKinds nounwindTwice where
  held := by
    intro a ha
    rcases List.mem_pair.mp ha with rfl | rfl
    · exact .inl ⟨rfl, rfl⟩
    · trivial
  nodup := by simp [nounwindTwice, LLVMAttribute.key]

/-- The string attribute takes the place of the enum attribute. -/
theorem nounwindTwice_lost : ¬ Survives twoKinds sameTypes nounwindTwice := by
  rw [survives_iff heldAtIndex_nounwindTwice]
  rintro (⟨before, a, after, hattrs, -, ha⟩ | hapart)
  · cases a with
    | type kind ty =>
        obtain ⟨-, err, -⟩ := ha
        exact err.elim
    | _ => exact ha
  · have hname : (LLVMAttribute.enum 1 0 : LLVMAttribute Unit Unit).name twoKinds =
        some "nounwind".toUTF8 := by
      rw [LLVMAttribute.name, info_nounwind]
      rfl
    have hsame := hapart.apart (.enum 1 0) List.mem_cons_self
      (.string "nounwind".toUTF8 "".toUTF8) (List.mem_cons_of_mem _ List.mem_cons_self)
      (congrArg Option.isSome info_nounwind) rfl hname
    cases hsame

theorem attributes_roundTrip_twice :
    HeldAtIndex twoKinds nounwindTwice ∧
      (Survives twoKinds sameTypes nounwindTwice ↔
        FailsOnType twoKinds sameTypes nounwindTwice ∨ Apart twoKinds nounwindTwice) ∧
      ImportsBack twoKinds sameTypes Unit
        (LlvmAttributesAttr.build [.set "nounwind" .unit, .set "alignstack" (.int 16)]) :=
  ⟨heldAtIndex_nounwindTwice, attributes_roundTrip sameTypes heldAtIndex_nounwindTwice _⟩

end Pliron.LlvmAttrs
