/-
  Pliron.LLVM.MetadataText

  The text of metadata attributes: tables of nodes, attachments and named lists of nodes.

  The attributes of constants are a parameter: their names, the printers of their contents and the
  parsers that are registered for them.  Locations of errors are left out.
-/

import Pliron.IRFmt.ListText
import Pliron.IRFmt.PrimitiveText
import Pliron.LLVM.MetadataTable

namespace Pliron.Metadata

open Pliron.Text Pliron.Lib.Combine Pliron.Lib.Combine.Parser

variable {A : Type}

/-! ## Attributes of constants -/

/-- A combination of the name of an attribute and its dialect. -/
structure AttrId where
  dialect : String
  name : String
deriving DecidableEq, Repr

/-- The attributes that a context knows. -/
structure AttrSyntax (A : Type) where
  /-- The dialects that are registered. -/
  dialects : String → Bool
  /-- The parsers of the attributes that are registered. -/
  parsers : AttrId → Option (TextParser A)
  attrId : A → AttrId
  /-- Print what follows the name of the attribute. -/
  contents : PrintState → A → List Char
  /-- Does the attribute implement `TypedAttrInterface`? -/
  isTyped : A → Bool

namespace AttrId

def display (id : AttrId) : List Char := id.dialect.toList ++ '.' :: id.name.toList

end AttrId

namespace AttrSyntax

variable (u : UnicodeTables) (known : AttrSyntax A)

/-- Print the name of the attribute, followed by the attribute itself. -/
def fmtAttrObj (state : PrintState) (attr : A) : List Char :=
  (known.attrId attr).display ++ ' ' :: known.contents state attr

def dialectNameParse : TextParser String :=
  (identifierParse u).andThen (fun name => result
    (if known.dialects name then .ok name
      else .error (.custom ("Unregistered dialect " ++ name))))

def attrIdParse : TextParser AttrId :=
  ((known.dialectNameParse u).skip (char '.')).andThen (fun dialect =>
    (identifierParse u).map (fun name => ⟨dialect, name⟩))

/-- Parse the name of an attribute, followed by its contents. -/
def attrObjParse : TextParser A :=
  (spaced (known.attrIdParse u)).andThen (fun id =>
    match known.parsers id with
    | some p => p
    | none => result (.error (.custom ("Unregistered attribute " ++ String.ofList id.display))))

/-- Parse an attribute with the interface `TypedAttrInterface`. -/
def attrInterfaceObjParse : TextParser A :=
  (known.attrObjParse u).convert (fun attr =>
    if known.isTyped attr then .ok attr
    else .error (.custom (String.ofList (known.attrId attr).display ++
      " does not implement the attribute interface " ++
      "dyn pliron::builtin::attr_interfaces::TypedAttrInterface")))

end AttrSyntax

/-! ## Operands -/

def nullKeyword : List Char := ['n', 'u', 'l', 'l']

def distinctKeyword : List Char := ['d', 'i', 's', 't', 'i', 'n', 'c', 't']

/-- A character as `writeMdQuoted` writes it. -/
def escapeMd (c : Char) : List Char :=
  if c = backslash ∨ c = quote then [backslash, c] else [c]

/-- Write a quoted string, escaping what the quoted string parser un-escapes. -/
def writeMdQuoted (s : String) : List Char := quote :: s.toList.flatMap escapeMd ++ [quote]

/-- A reference to a node. -/
def nodeRef (id : MdNodeId) : List Char := '#' :: Nat.toDigits 10 id

def nodeRefParse : TextParser MdNodeId := (char '#').withRight u32Parse

namespace MdOperandAttr

variable (u : UnicodeTables) (known : AttrSyntax A)

def fmt (state : PrintState) : MdOperandAttr A → List Char
  | .null => nullKeyword
  | .string s => '!' :: writeMdQuoted s
  | .node id => nodeRef id
  | .constant attr => known.fmtAttrObj state attr

/-- The keyword of a null operand, unless a letter or a number follows. -/
def nullParse : TextParser (MdOperandAttr A) :=
  (attempt ((Text.string nullKeyword).skip
    (notFollowedBy .unexpected (satisfy .unexpected u.isAlphanumeric)))).map (fun _ => .null)

def parse : TextParser (MdOperandAttr A) :=
  (((nullParse u).or ((char '!').withRight (quotedStringParse.map .string))).or
    (nodeRefParse.map .node)).or ((known.attrInterfaceObjParse u).map .constant)

end MdOperandAttr

/-! ## Nodes -/

namespace MdNodeAttr

variable (u : UnicodeTables) (known : AttrSyntax A)

def fmt (state : PrintState) (node : MdNodeAttr A) : List Char :=
  (if node.distinct then distinctKeyword ++ [' '] else []) ++
    ('!' :: openBrace :: iterWithSep commaSpace (MdOperandAttr.fmt known state) node.operands ++
      [closeBrace])

def parse : TextParser (MdNodeAttr A) :=
  (optional (attempt ((string distinctKeyword).skip spaces))).andThen (fun distinct =>
    ((char '!').withRight (between ((char openBrace).skip spaces)
      (spaces.withRight (char closeBrace)) (listParser ',' (MdOperandAttr.parse u known)))).map
      (fun operands => ⟨distinct.isSome, operands⟩))

end MdNodeAttr

/-! ## Tables -/

/-- The text between a name and what it stands for. -/
def equals : List Char := [' ', '=', ' ']

/-- Parse what stands before an equals sign, and the sign. -/
def beforeEquals {B : Type} (p : TextParser B) : TextParser B :=
  ((p.skip spaces).skip (char '=')).skip spaces

namespace MdTableAttr

variable (u : UnicodeTables) (known : AttrSyntax A)

/-- The nodes and the ids they can be referred to by. -/
def iter (table : MdTableAttr A) : List (MdNodeId × MdNodeAttr A) :=
  table.zipIdx.map (fun entry => (asMdNodeId entry.2, entry.1))

def fmtEntry (state : PrintState) (entry : MdNodeId × MdNodeAttr A) : List Char :=
  nodeRef entry.1 ++ equals ++ entry.2.fmt known state

/-- Print an entry per line. -/
def fmt (state : PrintState) (table : MdTableAttr A) : List Char :=
  '[' :: table.iter.flatMap (fun entry =>
      (if entry.1 = 0 then [] else [',']) ++ indentedNl state.indent ++
        fmtEntry known state.indent entry) ++
    (if table.isEmpty then [] else indentedNl state) ++ [']']

/-- The message for an entry that is out of order. -/
def outOfOrder (id : MdNodeId) : TextErr :=
  .custom ("Metadata table entry " ++ toString id ++
    " is out of order; entries must be #0, #1, ... in order")

/-- Add the entries that have been parsed to the table, each under the next id. -/
def pushEntries (table : MdTableAttr A) :
    List (MdNodeId × MdNodeAttr A) → Except TextErr (MdTableAttr A)
  | [] => .ok table
  | (id, node) :: entries =>
      if id ≠ table.length then .error (outOfOrder id)
      else pushEntries (table.push node).2 entries

def entryParse : TextParser (MdNodeId × MdNodeAttr A) :=
  (beforeEquals nodeRefParse).andThen (fun id =>
    (MdNodeAttr.parse u known).map (fun node => (id, node)))

def entriesParse : TextParser (List (MdNodeId × MdNodeAttr A)) :=
  delimitedListParser '[' ']' ',' (entryParse u known)

def parse : TextParser (MdTableAttr A) := (entriesParse u known).convert (pushEntries [])

end MdTableAttr

/-! ## Attachments and named lists -/

namespace MdAttachmentsAttr

def fmtEntry (entry : String × MdNodeId) : List Char :=
  writeMdQuoted entry.1 ++ equals ++ nodeRef entry.2

def fmt (attachments : MdAttachmentsAttr) : List Char :=
  '[' :: iterWithSep commaSpace fmtEntry attachments ++ [']']

def entryParse : TextParser (String × MdNodeId) :=
  (beforeEquals quotedStringParse).andThen (fun kind =>
    nodeRefParse.map (fun node => (kind, node)))

def parse : TextParser MdAttachmentsAttr := delimitedListParser '[' ']' ',' entryParse

end MdAttachmentsAttr

namespace NamedMdAttr

def fmtNodes (nodes : List MdNodeId) : List Char :=
  '[' :: iterWithSep commaSpace nodeRef nodes ++ [']']

def fmtEntry (entry : String × List MdNodeId) : List Char :=
  writeMdQuoted entry.1 ++ equals ++ fmtNodes entry.2

def fmt (named : NamedMdAttr) : List Char :=
  '[' :: iterWithSep commaSpace fmtEntry named ++ [']']

def nodesParse : TextParser (List MdNodeId) := delimitedListParser '[' ']' ',' nodeRefParse

def entryParse : TextParser (String × List MdNodeId) :=
  (beforeEquals quotedStringParse).andThen (fun name =>
    nodesParse.map (fun nodes => (name, nodes)))

def parse : TextParser NamedMdAttr := delimitedListParser '[' ']' ',' entryParse

end NamedMdAttr

end Pliron.Metadata
