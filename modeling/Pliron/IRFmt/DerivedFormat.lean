/-
  Pliron.IRFmt.DerivedFormat

  The default formats of structs and enums, and the printers and parsers that are
  derived from them.

  Fields are of integer, boolean, string and identifier types, or of types with
  derived formats again.  The code that is generated for a format is what the
  functions here do with its elements; a format that refers to a field that is
  not there, for which no code is generated, is a parser that does not return.
-/

import Pliron.IRFmt.FormatString
import Pliron.Utils.Table

namespace Pliron.Derive

open Pliron.Text Pliron.Lib.Combine Pliron.Lib.Combine.Parser

/-! ## Default formats -/

/-- Field identifier of a struct or of a variant. -/
inductive FieldIdent where
  | named (name : String)
  | unnamed (index : Nat)
deriving DecidableEq, Repr

def FieldIdent.isNamed : FieldIdent → Bool
  | .named _ => true
  | .unnamed _ => false

namespace Format

/-- Is there no element? -/
def isEmpty (format : Format) : Bool := format.elems.isEmpty

/-- Put an element before and one after the others. -/
def enclose (format : Format) (opening closing : Elem) : Format :=
  ⟨opening :: format.elems ++ [closing]⟩

end Format

/-- The elements of the `i`th field. -/
def fieldElems (i : Nat) : FieldIdent → List Elem
  | .named field =>
      (if i > 0 then [.lit ","] else []) ++ [.lit field, .lit "=", .var field]
  | .unnamed index => [.unnamedVar index]

/-- A canonical syntax for a struct of these fields. -/
def canonicalFormatForStructs (fields : List FieldIdent) : Format :=
  let format : Format := ⟨fields.zipIdx.flatMap (fun (field, i) => fieldElems i field)⟩
  if format.isEmpty then format
  else if fields.any FieldIdent.isNamed then format.enclose (.lit "\x7b") (.lit "\x7d")
  else format.enclose (.lit "(") (.lit ")")

/-! ## Types and values -/

mutual

/-- The types of fields. -/
inductive Ty where
  | int (t : IntType)
  | bool
  | string
  | identifier
  | struct (fields : Fields)
  | enum (variants : Variants)

/-- The fields of a struct or of a variant, in order. -/
inductive Fields where
  | nil
  | cons (ident : FieldIdent) (ty : Ty) (rest : Fields)

/-- The variants of an enum, in order. -/
inductive Variants where
  | nil
  | cons (name : String) (fields : Fields) (rest : Variants)

end

/-- A value; the fields of a struct or of a variant are in the order of their declaration. -/
inductive Value where
  | int (n : Int)
  | bool (b : Bool)
  | string (s : String)
  | identifier (id : String)
  | struct (fields : List Value)
  | variant (name : String) (fields : List Value)

def Fields.idents : Fields → List FieldIdent
  | .nil => []
  | .cons ident _ rest => ident :: rest.idents

mutual

/-- Is it a value of the type? -/
def HasTy : Ty → Value → Prop
  | .int t, .int n => t.Has n
  | .bool, .bool _ => True
  | .string, .string _ => True
  | .identifier, .identifier id => isValidIdentifier id = true
  | .struct fields, .struct vs => HasFields fields vs
  | .enum variants, .variant name vs => HasVariant variants name vs
  | _, _ => False

def HasFields : Fields → List Value → Prop
  | .nil, [] => True
  | .cons _ ty rest, v :: vs => HasTy ty v ∧ HasFields rest vs
  | _, _ => False

def HasVariant : Variants → String → List Value → Prop
  | .nil, _, _ => False
  | .cons name' fields rest, name, vs =>
      if name' = name then HasFields fields vs else HasVariant rest name vs

end

/-! ## The derived printer -/

section Printer

variable (nonPrintable : Char → Bool)

/-- Print an element; fields are given with their text. -/
def buildElem (texts : IMap FieldIdent (List Char)) : Elem → List Char
  | .lit lit => lit.toList
  | .var name => (texts.get? (.named name)).getD []
  | .unnamedVar index => (texts.get? (.unnamed index)).getD []
  | .directive _ _ => []

/-- Print the elements of a format, one after the other. -/
def buildFormat (texts : IMap FieldIdent (List Char)) (format : Format) : List Char :=
  format.elems.flatMap (buildElem texts)

mutual

/-- Print a value of a type. -/
def print : Ty → Value → List Char
  | .int _, .int n => printInt n
  | .bool, .bool b => printBool b
  | .string, .string s => quoted nonPrintable s
  | .identifier, .identifier id => id.toList
  | .struct fields, .struct vs =>
      buildFormat (fieldTexts fields vs) (canonicalFormatForStructs fields.idents)
  | .enum variants, .variant name vs => name.toList ++ variantText variants name vs
  | _, _ => []

/-- The text of each field. -/
def fieldTexts : Fields → List Value → IMap FieldIdent (List Char)
  | .cons ident ty rest, v :: vs => (ident, print ty v) :: fieldTexts rest vs
  | _, _ => []

/-- What is printed after the name of a variant. -/
def variantText : Variants → String → List Value → List Char
  | .nil, _, _ => []
  | .cons name' fields rest, name, vs =>
      if name' = name then
        buildFormat (fieldTexts fields vs) (canonicalFormatForStructs fields.idents)
      else variantText rest name vs

end

end Printer

/-! ## The derived parser -/

/-- The text without the white space around it. -/
def trim (s : List Char) : List Char :=
  ((s.dropWhile isWhitespace).reverse.dropWhile isWhitespace).reverse

/-- Parse a literal. -/
def litParse (lit : String) : TextParser Unit := spaced (string (trim lit.toList))

/-- Parse the elements of a format.  Each field has a parser; what is parsed is bound to the field
    it is for. -/
def parseElems (parsers : IMap FieldIdent (TextParser Value)) :
    List Elem → IMap FieldIdent Value → TextParser (IMap FieldIdent Value)
  | [], bound => value bound
  | .lit lit :: elems, bound => (litParse lit).withRight (parseElems parsers elems bound)
  | .var name :: elems, bound =>
      match parsers.get? (.named name) with
      | some p => p.andThen (fun v => parseElems parsers elems ((.named name, v) :: bound))
      | none => fun _ => none
  | .unnamedVar index :: elems, bound =>
      match parsers[index]? with
      | some (_, p) => p.andThen (fun v => parseElems parsers elems ((.unnamed index, v) :: bound))
      | none => fun _ => none
  | .directive _ _ :: _, _ => fun _ => none

/-- The object that is built from what its fields are bound to. -/
def buildObject (idents : List FieldIdent) (bound : IMap FieldIdent Value) :
    TextParser (List Value) :=
  match idents.mapM (fun ident => bound.get? ident) with
  | some vs => value vs
  | none => fun _ => none

/-- Parse the fields of a struct, with the default format. -/
def parseFields (parsers : IMap FieldIdent (TextParser Value)) : TextParser (List Value) :=
  (parseElems parsers (canonicalFormatForStructs parsers.keys).elems []).andThen
    (buildObject parsers.keys)

section Parser

variable (u : UnicodeTables)

mutual

/-- Parse a value of a type. -/
def parser : Ty → TextParser Value
  | .int t => (intParse t).map .int
  | .bool => boolParse.map .bool
  | .string => quotedStringParse.map .string
  | .identifier => (identifierParse u).map .identifier
  | .struct fields => (parseFields (fieldParsers fields)).map .struct
  | .enum variants =>
      (identifierParse u).andThen (fun name =>
        match (variantParsers variants).get? name with
        | some p => p.map (.variant name)
        | none => result (.error (.custom ("Invalid variant name: " ++ name))))

/-- The parser of each field. -/
def fieldParsers : Fields → IMap FieldIdent (TextParser Value)
  | .nil => []
  | .cons ident ty rest => (ident, parser ty) :: fieldParsers rest

/-- What is parsed after the name of each variant. -/
def variantParsers : Variants → IMap String (TextParser (List Value))
  | .nil => []
  | .cons name fields rest =>
      (name, if fields.idents.isEmpty then value [] else parseFields (fieldParsers fields)) ::
        variantParsers rest

end

end Parser

end Pliron.Derive
