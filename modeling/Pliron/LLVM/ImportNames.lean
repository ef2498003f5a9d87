/-
  Pliron.LLVM.ImportNames

  The names that the import of an LLVM module gives to global objects and struct types.

  Code is given by what its conversion comes to, in order: types, names of labels and values, and
  references to global objects.  Types that have no conversion are left out.
-/

import Pliron.Utils.Legaliser

namespace Pliron.ImportNames

/-! ## Types -/

/-- Types without parts. -/
inductive ScalarType where
  | integer (width : Nat)
  | pointer (addressSpace : Nat)
  | void
  | half
  | bfloat
  | float
  | double
deriving DecidableEq, Repr

mutual

/-- A type of LLVM. -/
inductive LLVMType where
  | scalar (ty : ScalarType)
  | array (elem : LLVMType) (len : Nat)
  | vector (elem : LLVMType) (len : Nat) (scalable : Bool)
  | function (ret : LLVMType) (params : LLVMTypes) (isVarArg : Bool)
  | struct (fields : LLVMTypes) (isPacked : Bool)
  | namedStruct (name : String) (fields : LLVMTypes) (isPacked : Bool)
  /-- A named struct without a body. -/
  | bodiless (name : String)
deriving DecidableEq, Repr

/-- A list of types. -/
inductive LLVMTypes where
  | nil
  | cons (ty : LLVMType) (rest : LLVMTypes)
deriving DecidableEq, Repr

end

mutual

/-- A type of the LLVM dialect.  A named struct is its name; its body is in the type store. -/
inductive TypeHandle where
  | scalar (ty : ScalarType)
  | array (elem : TypeHandle) (len : Nat)
  | vector (elem : TypeHandle) (len : Nat) (scalable : Bool)
  | func (ret : TypeHandle) (params : TypeHandles) (isVarArg : Bool)
  | struct (fields : TypeHandles) (isPacked : Bool)
  | namedStruct (name : String)
deriving DecidableEq, Repr

/-- A list of types of the LLVM dialect. -/
inductive TypeHandles where
  | nil
  | cons (ty : TypeHandle) (rest : TypeHandles)
deriving DecidableEq, Repr

end

/-- The named structs of the context, each with its body once that is set. -/
abbrev TypeStore := HMap String (Option (TypeHandles × Bool))

/-- Why a struct type is refused. -/
inductive StructErr where
  | existingMismatch (name : String)
deriving DecidableEq, Repr

/-- Get or create a named struct. -/
def getNamed (structs : TypeStore) (name : String) (body : Option (TypeHandles × Bool)) :
    Except StructErr TypeStore :=
  match body, structs name with
  | none, none => .ok (structs.insert name none)
  | none, some _ => .ok structs
  | some body, some (some existingBody) =>
    if existingBody ≠ body then .error (.existingMismatch name) else .ok structs
  | some body, _ => .ok (structs.insert name (some body))

/-! ## Conversion of types -/

/-- The maps of a conversion, for global objects `o`, and the type store. -/
structure State (o : Type) where
  typeCache : HMap LLVMType TypeHandle := fun _ => none
  idLegaliser : Legaliser := {}
  symbolNames : HMap o String := fun _ => none
  structs : TypeStore

variable {o : Type}

/-- Look up a type in the cache, or convert it and remember the result. -/
def cached (ty : LLVMType) (s : State o)
    (convert : State o → Except StructErr (TypeHandle × State o)) :
    Except StructErr (TypeHandle × State o) :=
  match s.typeCache ty with
  | some handle => .ok (handle, s)
  | none => do
    let (handle, s) ← convert s
    return (handle, { s with typeCache := s.typeCache.insert ty handle })

/-- Legalise a name with the conversion's legaliser. -/
def legalise (isAlphabetic : Char → Bool) (name : String) (s : State o) : String × State o :=
  ((s.idLegaliser.legalise isAlphabetic name).1,
    { s with idLegaliser := (s.idLegaliser.legalise isAlphabetic name).2 })

mutual

/-- Convert a type. -/
def convertType (isAlphabetic : Char → Bool) :
    LLVMType → State o → Except StructErr (TypeHandle × State o)
  | .scalar ty, s => cached (.scalar ty) s fun s => return (.scalar ty, s)
  | .array elem len, s => cached (.array elem len) s fun s => do
    let (elem, s) ← convertType isAlphabetic elem s
    return (.array elem len, s)
  | .vector elem len scalable, s => cached (.vector elem len scalable) s fun s => do
    let (elem, s) ← convertType isAlphabetic elem s
    return (.vector elem len scalable, s)
  | .function ret params isVarArg, s => cached (.function ret params isVarArg) s fun s => do
    let (ret, s) ← convertType isAlphabetic ret s
    let (params, s) ← convertTypes isAlphabetic params s
    return (.func ret params isVarArg, s)
  | .struct fields isPacked, s => cached (.struct fields isPacked) s fun s => do
    let (fields, s) ← convertTypes isAlphabetic fields s
    return (.struct fields isPacked, s)
  | .namedStruct name fields isPacked, s => cached (.namedStruct name fields isPacked) s fun s => do
    -- The name is legalised before the fields are converted.
    let (id, s) := legalise isAlphabetic name s
    let (fields, s) ← convertTypes isAlphabetic fields s
    let structs ← getNamed s.structs id (some (fields, isPacked))
    return (.namedStruct id, { s with structs := structs })
  | .bodiless name, s => cached (.bodiless name) s fun s => do
    let (id, s) := legalise isAlphabetic name s
    let structs ← getNamed s.structs id none
    return (.namedStruct id, { s with structs := structs })

/-- Convert types in order. -/
def convertTypes (isAlphabetic : Char → Bool) :
    LLVMTypes → State o → Except StructErr (TypeHandles × State o)
  | .nil, s => return (.nil, s)
  | .cons ty rest, s => do
    let (ty, s) ← convertType isAlphabetic ty s
    let (rest, s) ← convertTypes isAlphabetic rest s
    return (.cons ty rest, s)

end

/-! ## Modules -/

/-- What the conversion of code comes to. -/
inductive Mention (o : Type) where
  | type (ty : LLVMType)
  /-- The name of a label or of the result of an instruction. -/
  | label (name : String)
  /-- A global object as a constant of an initializer or of metadata. -/
  | symbolAddr (val : o)
  /-- The address of a global object. -/
  | addressOf (val : o)
  | call (callee : o)
  | blockAddress (function : o)
deriving DecidableEq, Repr

/-- A global variable. -/
structure Global (o : Type) where
  val : o
  valueType : LLVMType
  /-- The initializer and the metadata. -/
  mentions : List (Mention o)

/-- A function. -/
structure Function (o : Type) where
  val : o
  functionType : LLVMType
  /-- The attributes, the metadata and the body. -/
  mentions : List (Mention o)

/-- A reference to a global object, or a type, in the imported module. -/
inductive Emitted (o : Type) where
  | symbol (val : o) (name : String)
  | type (ty : LLVMType) (handle : TypeHandle)
deriving DecidableEq, Repr

/-- What LLVM reports of names: `llvm_get_value_name`, empty for a global object without a name, and
    `llvm_lookup_intrinsic_id`. -/
structure LLVMNames (o : Type) where
  valueName : o → String
  isIntrinsic : String → Bool

section Code

variable [DecidableEq o] (isAlphabetic : Char → Bool) (names : LLVMNames o)

/-- The symbol name of a global object, legalised and remembered when seen first. -/
def legalizedSymbolName (val : o) (s : State o) : String × State o :=
  match s.symbolNames val with
  | some name => (name, s)
  | none =>
    let (name, s) := legalise isAlphabetic (names.valueName val) s
    (name, { s with symbolNames := s.symbolNames.insert val name })

/-- Note down the symbol names of global objects. -/
def noteSymbolNames (vals : List o) (s : State o) : State o :=
  vals.foldl (fun s val => (legalizedSymbolName isAlphabetic names val s).2) s

/-- A reference to a global object by its legalised name. -/
def reference (val : o) (s : State o) : List (Emitted o) × State o :=
  let (name, s) := legalise isAlphabetic (names.valueName val) s
  ([.symbol val name], s)

/-- Convert what code comes to. -/
def convertMention : Mention o → State o → Except StructErr (List (Emitted o) × State o)
  | .type ty, s => do
    let (handle, s) ← convertType isAlphabetic ty s
    return ([.type ty handle], s)
  | .label name, s => return ([], (legalise isAlphabetic name s).2)
  | .symbolAddr val, s =>
    match s.symbolNames val with
    | none => return ([], s)
    | some name => return ([.symbol val name], s)
  | .addressOf val, s => return reference isAlphabetic names val s
  | .call callee, s =>
    if names.isIntrinsic (names.valueName callee) then return ([], s)
    else return reference isAlphabetic names callee s
  | .blockAddress function, s => return reference isAlphabetic names function s

/-- Convert code. -/
def convertMentions : List (Mention o) → State o → Except StructErr (List (Emitted o) × State o)
  | [], s => return ([], s)
  | mention :: rest, s => do
    let (emitted, s) ← convertMention isAlphabetic names mention s
    let (more, s) ← convertMentions rest s
    return (emitted ++ more, s)

/-- An operation with its symbol, and what it refers to. -/
abbrev Converted (o : Type) := (o × String) × List (Emitted o)

/-- Convert a global variable.  Its value type is converted with a conversion context of its own. -/
def convertGlobal (global : Global o) (s : State o) :
    Except StructErr (Converted o × State o) := do
  let (name, s) := legalizedSymbolName isAlphabetic names global.val s
  let (ty, fresh) ← convertType isAlphabetic global.valueType ({ structs := s.structs } : State o)
  let (emitted, s) ←
    convertMentions isAlphabetic names global.mentions { s with structs := fresh.structs }
  return (((global.val, name), .type global.valueType ty :: emitted), s)

/-- Convert a function. -/
def convertFunction (function : Function o) (s : State o) :
    Except StructErr (Converted o × State o) := do
  let (name, s) := legalizedSymbolName isAlphabetic names function.val s
  let (ty, s) ← convertType isAlphabetic function.functionType s
  let (emitted, s) ← convertMentions isAlphabetic names function.mentions s
  return (((function.val, name), .type function.functionType ty :: emitted), s)

/-- Convert global objects in order. -/
def convertAll {α : Type} (convert : α → State o → Except StructErr (Converted o × State o)) :
    List α → State o → Except StructErr (List (Converted o) × State o)
  | [], s => return ([], s)
  | a :: rest, s => do
    let (op, s) ← convert a s
    let (ops, s) ← convertAll convert rest s
    return (op :: ops, s)

end Code

mutual

/-- The named structs in a type, with their names: LLVM has one of each name. -/
def LLVMType.namedStructs : LLVMType → List (String × LLVMType)
  | .scalar _ => []
  | .array elem _ => elem.namedStructs
  | .vector elem _ _ => elem.namedStructs
  | .function ret params _ => ret.namedStructs ++ params.namedStructs
  | .struct fields _ => fields.namedStructs
  | .namedStruct name fields isPacked =>
    (name, .namedStruct name fields isPacked) :: fields.namedStructs
  | .bodiless name => [(name, .bodiless name)]

/-- The named structs in types. -/
def LLVMTypes.namedStructs : LLVMTypes → List (String × LLVMType)
  | .nil => []
  | .cons ty rest => ty.namedStructs ++ rest.namedStructs

end

/-- The types that a mention mentions. -/
def Mention.types : Mention o → List LLVMType
  | .type ty => [ty]
  | _ => []

/-- An LLVM module.  Named global objects have different names, and so have named structs. -/
structure LLVMModule (o : Type) extends LLVMNames o where
  identifier : String
  globals : List (Global o)
  functions : List (Function o)
  /-- The module's named metadata. -/
  metadata : List (Mention o)
  nodup : (globals.map Global.val ++ functions.map Function.val).Nodup
  valueName_inj : ∀ v ∈ globals.map Global.val ++ functions.map Function.val,
    ∀ w ∈ globals.map Global.val ++ functions.map Function.val,
      valueName v = valueName w → valueName v ≠ "" → v = w
  structs_unique : ∀ name ty ty',
    (name, ty) ∈ (globals.map Global.valueType ++ functions.map Function.functionType ++
      (globals.flatMap Global.mentions ++ functions.flatMap Function.mentions ++
        metadata).flatMap Mention.types).flatMap LLVMType.namedStructs →
    (name, ty') ∈ (globals.map Global.valueType ++ functions.map Function.functionType ++
      (globals.flatMap Global.mentions ++ functions.flatMap Function.mentions ++
        metadata).flatMap Mention.types).flatMap LLVMType.namedStructs → ty = ty'

/-- The functions that are no intrinsics. -/
def LLVMModule.converted (m : LLVMModule o) : List (Function o) :=
  m.functions.filter (fun function => !m.isIntrinsic (m.valueName function.val))

/-- What the import makes of a module: the operations with their symbols, their references and
    types, and the type store. -/
structure Imported (o : Type) where
  name : String
  ops : List (Converted o)
  metadata : List (Emitted o)
  structs : TypeStore

/-- Import a module into a context. -/
def convertModule [DecidableEq o] (isAlphabetic : Char → Bool) (m : LLVMModule o)
    (structs : TypeStore) : Except StructErr (Imported o) := do
  let (name, s) := legalise isAlphabetic m.identifier ({ structs := structs } : State o)
  -- Every global object is noted down up front, for references from metadata.
  let s := noteSymbolNames isAlphabetic m.toLLVMNames (m.globals.map Global.val) s
  let s := noteSymbolNames isAlphabetic m.toLLVMNames (m.converted.map Function.val) s
  let (globals, s) ← convertAll (convertGlobal isAlphabetic m.toLLVMNames) m.globals s
  let (functions, s) ← convertAll (convertFunction isAlphabetic m.toLLVMNames) m.converted s
  let (metadata, s) ← convertMentions isAlphabetic m.toLLVMNames m.metadata s
  return ⟨name, globals ++ functions, metadata, s.structs⟩

end Pliron.ImportNames
