/-
  Pliron.LLVM.AttributeLists

  The attributes LLVM holds at one index of a function or a call, their list
  in the LLVM dialect, and the conversion of one to the other.

  LLVM keys its attributes by their kind id or, for string attributes, by
  their name; the dialect's list has one name space for both.  What LLVM says
  of its kinds, and the conversion of types, are parameters.
-/

import Mathlib
import Pliron.Utils.Table

namespace Pliron.LlvmAttrs

/-! ## The kinds of enum attributes -/

/-- The kind of value held by an LLVM enum attribute. -/
inductive LlvmAttrValueKind where
  | enum
  | int
  | type
  | constantRange
  | constantRangeList
deriving DecidableEq, Repr

/-- Every enum attribute that LLVM defines, with its value kind. -/
def llvmEnumAttributes : List (String × LlvmAttrValueKind) :=
  [("align", .int), ("alignstack", .int), ("allocalign", .enum), ("allockind", .int),
    ("allocptr", .enum), ("allocsize", .int), ("alwaysinline", .enum), ("builtin", .enum),
    ("byref", .type), ("byval", .type), ("captures", .int), ("cold", .enum),
    ("convergent", .enum), ("coro_elide_safe", .enum), ("coro_only_destroy_when_complete", .enum),
    ("dead_on_return", .int), ("dead_on_unwind", .enum), ("denormal_fpenv", .int),
    ("dereferenceable", .int), ("dereferenceable_or_null", .int),
    ("disable_sanitizer_instrumentation", .enum), ("elementtype", .type), ("flatten", .enum),
    ("fn_ret_thunk_extern", .enum), ("hot", .enum), ("hybrid_patchable", .enum),
    ("immarg", .enum), ("inalloca", .type), ("initializes", .constantRangeList),
    ("inlinehint", .enum), ("inreg", .enum), ("jumptable", .enum), ("memory", .int),
    ("minsize", .enum), ("mustprogress", .enum), ("naked", .enum), ("nest", .enum),
    ("noalias", .enum), ("nobuiltin", .enum), ("nocallback", .enum), ("nocf_check", .enum),
    ("nocreateundeforpoison", .enum), ("nodivergencesource", .enum), ("noduplicate", .enum),
    ("noext", .enum), ("nofpclass", .int), ("nofree", .enum), ("noimplicitfloat", .enum),
    ("noinline", .enum), ("noipa", .enum), ("nomerge", .enum), ("nonlazybind", .enum),
    ("nonnull", .enum), ("nooutline", .enum), ("noprofile", .enum), ("norecurse", .enum),
    ("noredzone", .enum), ("noreturn", .enum), ("nosanitize_bounds", .enum),
    ("nosanitize_coverage", .enum), ("nosync", .enum), ("noundef", .enum), ("nounwind", .enum),
    ("null_pointer_is_valid", .enum), ("optdebug", .enum), ("optforfuzzing", .enum),
    ("optnone", .enum), ("optsize", .enum), ("preallocated", .type), ("presplitcoroutine", .enum),
    ("range", .constantRange), ("readnone", .enum), ("readonly", .enum), ("returned", .enum),
    ("returns_twice", .enum), ("safestack", .enum), ("sanitize_address", .enum),
    ("sanitize_alloc_token", .enum), ("sanitize_hwaddress", .enum), ("sanitize_memory", .enum),
    ("sanitize_memtag", .enum), ("sanitize_numerical_stability", .enum),
    ("sanitize_realtime", .enum), ("sanitize_realtime_blocking", .enum),
    ("sanitize_thread", .enum), ("sanitize_type", .enum), ("shadowcallstack", .enum),
    ("signext", .enum), ("skipprofile", .enum), ("speculatable", .enum),
    ("speculative_load_hardening", .enum), ("sret", .type), ("ssp", .enum), ("sspreq", .enum),
    ("sspstrong", .enum), ("strictfp", .enum), ("swiftasync", .enum), ("swifterror", .enum),
    ("swiftself", .enum), ("uwtable", .int), ("vscale_range", .int), ("willreturn", .enum),
    ("writable", .enum), ("writeonly", .enum), ("zeroext", .enum)]

/-- What LLVM says of the kinds of its enum attributes: ids and names correspond
one to one, and the values are those of the table. -/
structure EnumAttributeKinds where
  /-- The kind id of a name. -/
  kindForName : String → Option Nat
  /-- What the attributes of a kind hold. -/
  valueKind : Nat → LlvmAttrValueKind
  injective : ∀ {name name' : String} {kind : Nat},
    kindForName name = some kind → kindForName name' = some kind → name = name'
  agrees : ∀ e ∈ llvmEnumAttributes, ∀ kind ∈ kindForName e.1, valueKind kind = e.2

variable (K : EnumAttributeKinds)

/-- The kind ids of the table's names that LLVM defines. -/
def llvmEnumAttributeKindInfo : HMap Nat (String × LlvmAttrValueKind) :=
  HMap.ofList (llvmEnumAttributes.filterMap
    (fun e => (K.kindForName e.1).map (fun kind => (kind, (e.1, e.2)))))

/-- The name and value kind of the enum attribute of a kind id. -/
def llvmEnumAttributeInfo (kind : Nat) : Option (String × LlvmAttrValueKind) :=
  llvmEnumAttributeKindInfo K kind

theorem mem_of_info {kind : Nat} {info : String × LlvmAttrValueKind}
    (h : llvmEnumAttributeInfo K kind = some info) :
    info ∈ llvmEnumAttributes ∧ K.kindForName info.1 = some kind := by
  have hmem := HMap.mem_of_ofList h
  obtain ⟨e, he, heq⟩ := List.mem_filterMap.mp hmem
  obtain ⟨kind', hkind, hpair⟩ := Option.map_eq_some_iff.mp heq
  cases hpair
  exact ⟨he, hkind⟩

/-- What the table says of a kind id is so. -/
theorem kindForName_of_info {kind : Nat} {name : String} {valueKind : LlvmAttrValueKind}
    (h : llvmEnumAttributeInfo K kind = some (name, valueKind)) :
    K.kindForName name = some kind ∧ K.valueKind kind = valueKind := by
  have hmem := mem_of_info K h
  exact ⟨hmem.2, K.agrees _ hmem.1 kind hmem.2⟩

theorem name_ne_of_info {kind : Nat} {name : String} {valueKind : LlvmAttrValueKind}
    (h : llvmEnumAttributeInfo K kind = some (name, valueKind)) : name ≠ "" := by
  have hnames : ∀ e ∈ llvmEnumAttributes, e.1 ≠ "" := by decide
  exact hnames _ (mem_of_info K h).1

/-! ## LLVM's attributes -/

/-- An attribute of LLVM, over types `L` and ranges `R`.  An enum attribute with no
value has the value zero; the texts of a string attribute are bytes. -/
inductive LLVMAttribute (L R : Type) where
  | enum (kind : Nat) (value : UInt64)
  | type (kind : Nat) (ty : L)
  | range (kind : Nat) (range : R)
  | string (kind value : ByteArray)

/-- What LLVM tells attributes apart by. -/
inductive AttributeKey where
  | enum (kind : Nat)
  | string (kind : ByteArray)
deriving DecidableEq

namespace LLVMAttribute

variable {L R : Type}

def key : LLVMAttribute L R → AttributeKey
  | enum kind _ | type kind _ | range kind _ => .enum kind
  | string kind _ => .string kind

/-- May LLVM hold this attribute? -/
def Held : LLVMAttribute L R → Prop
  | enum kind value => (K.valueKind kind = .enum ∧ value = 0) ∨ K.valueKind kind = .int
  | type kind _ => K.valueKind kind = .type
  | range kind _ => K.valueKind kind = .constantRange ∨ K.valueKind kind = .constantRangeList
  | string _ _ => True

end LLVMAttribute

/-- The attributes LLVM may hold at one index, in any order. -/
structure HeldAtIndex {L R : Type} (attrs : List (LLVMAttribute L R)) : Prop where
  held : ∀ a ∈ attrs, a.Held K
  nodup : (attrs.map LLVMAttribute.key).Nodup

/-- Add an attribute at an index; it replaces the one with its key. -/
def addAttribute {L R : Type} (attrs : List (LLVMAttribute L R)) (a : LLVMAttribute L R) :
    List (LLVMAttribute L R) :=
  attrs.filter (fun b => b.key ≠ a.key) ++ [a]

theorem addAttribute_of_not_mem {L R : Type} {attrs : List (LLVMAttribute L R)}
    {a : LLVMAttribute L R} (h : a.key ∉ attrs.map LLVMAttribute.key) :
    addAttribute attrs a = attrs ++ [a] := by
  have hfilter : attrs.filter (fun b => b.key ≠ a.key) = attrs := by
    apply List.filter_eq_self.mpr
    intro b hb
    have hne : b.key ≠ a.key := fun heq => h (heq ▸ List.mem_map_of_mem hb)
    simp [hne]
  rw [addAttribute, hfilter]

theorem mem_of_mem_addAttribute {L R : Type} {attrs : List (LLVMAttribute L R)}
    {a b : LLVMAttribute L R} (h : b ∈ addAttribute attrs a) : b ∈ attrs ∨ b = a :=
  (List.mem_append.mp h).imp List.mem_of_mem_filter List.mem_singleton.mp

/-! ## The list of attributes in the dialect -/

/-- The value of one LLVM attribute, over types `P`. -/
inductive LlvmAttrValue (P : Type) where
  | unit
  | int (value : UInt64)
  | type (ty : P)
  | str (value : String)
deriving DecidableEq

/-- LLVM attributes at one attribute index. -/
abbrev LlvmAttributesAttr (P : Type) := List (String × LlvmAttrValue P)

namespace LlvmAttributesAttr

variable {P : Type}

/-- Set the attribute of a name, replacing any existing value. -/
def set : LlvmAttributesAttr P → String → LlvmAttrValue P → LlvmAttributesAttr P
  | [], name, value => [(name, value)]
  | entry :: rest, name, value =>
      if entry.1 = name then (entry.1, value) :: rest else entry :: set rest name value

/-- Remove the attribute of a name, if it is present. -/
def remove (attrs : LlvmAttributesAttr P) (name : String) : LlvmAttributesAttr P :=
  attrs.filter (fun entry => entry.1 ≠ name)

/-- An edit of a list. -/
inductive Edit (P : Type) where
  | set (name : String) (value : LlvmAttrValue P)
  | remove (name : String)

def edit (attrs : LlvmAttributesAttr P) : Edit P → LlvmAttributesAttr P
  | .set name value => attrs.set name value
  | .remove name => attrs.remove name

/-- The list that a sequence of edits builds. -/
def build (edits : List (Edit P)) : LlvmAttributesAttr P := edits.foldl edit []

end LlvmAttributesAttr

/-! ## Conversion -/

/-- The conversion of types, which converts back faithfully. -/
structure TypeConversion (E L P : Type) where
  fromLlvm : L → Except E P
  toLlvm : P → Except E L
  toLlvm_of_fromLlvm : ∀ {ty : L} {ty' : P}, fromLlvm ty = .ok ty' → toLlvm ty' = .ok ty
  fromLlvm_of_toLlvm : ∀ {ty : L} {ty' : P}, toLlvm ty' = .ok ty → fromLlvm ty = .ok ty'

/-- How a conversion fails: with an error, or by a panic. -/
inductive Failure (E : Type) where
  | conversion (error : E)
  | valueKindMismatch (name : String) (valueKind : LlvmAttrValueKind)
  | panicked

variable {E L P R : Type} (T : TypeConversion E L P)

/-- A string of LLVM, which has to be UTF-8. -/
def sizedCstrToString (bytes : ByteArray) : Except (Failure E) String :=
  match String.fromUTF8? bytes with
  | some s => .ok s
  | none => .error .panicked

/-- Convert a type from LLVM. -/
def TypeConversion.convertFrom (ty : L) : Except (Failure E) P :=
  match T.fromLlvm ty with
  | .ok ty' => .ok ty'
  | .error e => .error (.conversion e)

/-- Convert a type to LLVM. -/
def TypeConversion.convertTo (ty : P) : Except (Failure E) L :=
  match T.toLlvm ty with
  | .ok ty' => .ok ty'
  | .error e => .error (.conversion e)

/-- The entry of an attribute, unless it is dropped. -/
def convertLlvmAttribute :
    LLVMAttribute L R → Except (Failure E) (Option (String × LlvmAttrValue P))
  | .string kind value => do
      let name ← sizedCstrToString kind
      let value ← sizedCstrToString value
      pure (some (name, .str value))
  | .type kind ty =>
      match llvmEnumAttributeInfo K kind with
      -- an unknown kind id
      | none => pure none
      | some (name, _) => do
          let ty ← T.convertFrom ty
          pure (some (name, .type ty))
  | .enum kind value =>
      match llvmEnumAttributeInfo K kind with
      | none => pure none
      | some (name, valueKind) =>
          if valueKind = .int then pure (some (name, .int value)) else pure (some (name, .unit))
  -- no value of the dialect holds a range
  | .range _ _ => pure none

/-- Convert LLVM's attributes to a list of the dialect. -/
def convertLlvmAttributes (attrs : List (LLVMAttribute L R)) :
    Except (Failure E) (LlvmAttributesAttr P) :=
  attrs.foldlM
    (fun converted attr => do
      match ← convertLlvmAttribute K T attr with
      | none => pure converted
      | some (name, value) => pure (converted.set name value))
    []

/-- Create a string attribute, whose kind may not be empty. -/
def llvmCreateStringAttribute (kind value : String) : Except (Failure E) (LLVMAttribute L R) :=
  if kind = "" then .error .panicked else .ok (.string kind.toUTF8 value.toUTF8)

/-- The kind id of a name, which may not be empty. -/
def llvmEnumAttributeKind (name : String) : Except (Failure E) (Option Nat) :=
  if name = "" then .error .panicked else .ok (K.kindForName name)

/-- The attribute of a kind, whose value has to be what the kind holds. -/
def createOfKind (name : String) (kind : Nat) :
    LlvmAttrValueKind → LlvmAttrValue P → Except (Failure E) (Option (LLVMAttribute L R))
  | .enum, .unit => pure (some (.enum kind 0))
  | .int, .int value => pure (some (.enum kind value))
  | .type, .type ty => do
      let ty ← T.convertTo ty
      pure (some (.type kind ty))
  | .constantRange, _ | .constantRangeList, _ => pure none
  | valueKind, _ => .error (.valueKindMismatch name valueKind)

/-- The attribute of an entry, unless it is dropped. -/
def createAttribute : String × LlvmAttrValue P → Except (Failure E) (Option (LLVMAttribute L R))
  | (name, .str s) => do
      let attr ← llvmCreateStringAttribute name s
      pure (some attr)
  | (name, attrValue) => do
      -- both LLVM and the table must know the name
      let kind ← llvmEnumAttributeKind K name
      let info := kind.bind (fun kind =>
        (llvmEnumAttributeInfo K kind).map (fun info => (kind, info.2)))
      match info with
      | none => pure none
      | some (kind, valueKind) => createOfKind T name kind valueKind attrValue

/-- Add the attributes of a list to a value of LLVM that has these attributes. -/
def addFunctionAttributes (attrs : LlvmAttributesAttr P) (value : List (LLVMAttribute L R)) :
    Except (Failure E) (List (LLVMAttribute L R)) :=
  attrs.foldlM
    (fun value entry => do
      match ← createAttribute K T entry with
      | none => pure value
      | some attr => pure (addAttribute value attr))
    value

end Pliron.LlvmAttrs
