/-
  Pliron.IRFmt.Outlined

  Printer and parser for outlined attributes and locations.

  While the IR is printed, every operation and block that has a location or an
  outlined attribute is given the next index, and `!index` is printed with it.
  After the top-level operation, the outlined section has one entry for each of
  these indices, followed by one for each attribute that is printed once.  The
  parser notes the indices down, and fills in the entries of the section.

  The syntax that an operation prints before its regions belongs to its dialect:
  `Dialects` has its printer and its parser.  Operands, successors and labels are
  part of that text; what they refer to, which the parser finds out by name, makes
  no difference to attributes and locations.  The names of results and arguments
  do, as the parser keeps them in an attribute.
-/

import Pliron.IR.GivenNames
import Pliron.IRFmt.Location
import Pliron.Utils.Table

namespace Pliron

variable {Attr : Type}

/-! ## The IR -/

/-- Attributes by name, in insertion order. -/
structure AttributeDict (Attr : Type) where
  entries : IMap Identifier Attr := []
  nodup : entries.keys.Nodup := by exact List.nodup_nil

namespace AttributeDict

def get? (d : AttributeDict Attr) (name : Identifier) : Option Attr := d.entries.get? name

def insert (d : AttributeDict Attr) (name : Identifier) (attr : Attr) : AttributeDict Attr :=
  ⟨d.entries.insert name attr, IMap.nodup_keys_insert d.nodup⟩

def remove (d : AttributeDict Attr) (name : Identifier) : AttributeDict Attr :=
  ⟨d.entries.remove name, d.nodup.sublist (List.filter_sublist.map _)⟩

/-- Clone, but skip the attributes that are outlined. -/
def cloneSkipOutlined (shouldOutline : Attr → Bool) (d : AttributeDict Attr) :
    AttributeDict Attr :=
  ⟨d.entries.filter (fun e => !shouldOutline e.2), d.nodup.sublist (List.filter_sublist.map _)⟩

/-- The attributes that are outlined. -/
def outlined (shouldOutline : Attr → Bool) (d : AttributeDict Attr) : IMap Identifier Attr :=
  d.entries.filter (fun e => shouldOutline e.2)

end AttributeDict

/-- A result of an operation, or an argument of a block, with the text of its type. -/
structure TypedValue where
  valUid : Nat
  ty : String
deriving DecidableEq, Repr

/-- A unique (within the context) ID. -/
def TypedValue.id (value : TypedValue) : Identifier := "v" ++ toString value.valUid

/-- What an operation, or a block, holds: the text of its own syntax before and after its
    attributes, its results or arguments, its attributes, and its location. -/
structure Node (Attr : Type) where
  head : String := ""
  type : String := ""
  values : List TypedValue := []
  attributes : AttributeDict Attr := {}
  loc : Location Attr := .unknown

/-- An item that may have something to record in the outlined section. -/
inductive OutlinedItem where
  | op (op : OpPtr)
  | block (block : BlockPtr)
deriving DecidableEq, Repr

/-- The operations and blocks of a context. -/
structure IR (Attr : Type) where
  node : OutlinedItem → Node Attr := fun _ => {}
  nextValue : Nat := 0
  nextOp : Nat := 0
  nextBlock : Nat := 0

inductive Kind where
  | op
  | block
  | region
deriving DecidableEq, Repr

/-- A sequence of operations with their regions, of blocks with their operations, or of regions
    with their blocks. -/
inductive Forest : Kind → Type
  | nil {k : Kind} : Forest k
  | op (ptr : OpPtr) (regions : Forest .region) (next : Forest .op) : Forest .op
  | block (ptr : BlockPtr) (ops : Forest .op) (next : Forest .block) : Forest .block
  | region (blocks : Forest .block) (next : Forest .region) : Forest .region

/-- What is asked of attributes: which of them are outlined, which of these are printed once, and
    which are given names. -/
structure AttrInterfaces (Attr : Type) where
  shouldOutline : Attr → Bool
  isPrintOnce : Attr → Bool
  givenNames : Attr → Option GivenNamesAttr
  ofGivenNames : GivenNamesAttr → Attr

/-- What the text of an operation says, up to its regions. -/
structure ParsedOp (Attr : Type) where
  head : String
  type : String
  resultTypes : List String
  attributes : AttributeDict Attr

/-- What the dialects provide: their attributes, and the syntax of operations between their results
    and their regions.  The parser is told how many results there are. -/
structure Dialects (Attr : Type) extends AttrInterfaces Attr where
  printOp : Node Attr → List (Token Attr)
  parseOp : Nat → List (Token Attr) → Option (ParsedOp Attr × List (Token Attr))

/-! ## Attribute dictionaries -/

namespace AttributeDict

def printEntries : IMap Identifier Attr → List (Token Attr)
  | [] => []
  | [(name, attr)] => [.ident name, .sym ":", .attr attr]
  | (name, attr) :: es => [.ident name, .sym ":", .attr attr, .sym ","] ++ printEntries es

def print (d : AttributeDict Attr) : List (Token Attr) :=
  .sym "[" :: (printEntries d.entries ++ [.sym "]"])

/-- One or more entries. -/
def parseEntries (d : AttributeDict Attr) :
    List (Token Attr) → Except ParseErr (AttributeDict Attr × List (Token Attr))
  | .ident name :: .sym ":" :: .attr attr :: .sym "," :: toks =>
      parseEntries (d.insert name attr) toks
  | .ident name :: .sym ":" :: .attr attr :: toks => .ok (d.insert name attr, toks)
  | _ => .error .unexpected

def parse : List (Token Attr) → Except ParseErr (AttributeDict Attr × List (Token Attr))
  | .sym "[" :: .sym "]" :: toks => .ok ({}, toks)
  | .sym "[" :: toks => do
      let (d, toks) ← parseEntries {} toks
      let toks ← expect ["]"] toks
      .ok (d, toks)
  | _ => .error .unexpected

end AttributeDict

/-! ## Given names -/

def attrKeyGivenNames : Identifier := "builtin_given_names"

/-- A unique name; concatenation of name and id. -/
def uniqueName (givenName : Option Identifier) (id : Identifier) : Identifier :=
  match givenName with
  | some givenName => givenName ++ "_" ++ id
  | none => id

namespace AttrInterfaces

variable (d : AttrInterfaces Attr)

/-- The given name of a value, by its index. -/
def getName (attributes : AttributeDict Attr) (idx : Nat) : Option Identifier :=
  getNameFromAttrMap ((attributes.get? attrKeyGivenNames).bind d.givenNames) idx

/-- Set the given name of a value; panics if another attribute is in place of the names. -/
def setName (attributes : AttributeDict Attr) (idx : Nat) (name : Option Identifier) :
    Option (AttributeDict Attr) := do
  let entry ← match attributes.get? attrKeyGivenNames with
    | some attr => (d.givenNames attr).map some
    | none => some none
  match setNameInAttrMap entry idx name with
  | some givenNames => some (attributes.insert attrKeyGivenNames (d.ofGivenNames givenNames))
  | none => some (attributes.remove attrKeyGivenNames)

/-- The names that the results of an operation, or the arguments of a block, are printed with. -/
def valueNames (node : Node Attr) : List Identifier :=
  node.values.zipIdx.map (fun (value, idx) => uniqueName (d.getName node.attributes idx) value.id)

end AttrInterfaces

/-! ## Printing -/

namespace Outlined

/-- Print a list, with a comma between any two. -/
def iterWithSep {α : Type} (item : α → List (Token Attr)) : List α → List (Token Attr)
  | [] => []
  | [x] => item x
  | x :: xs => item x ++ .sym "," :: iterWithSep item xs

variable (d : Dialects Attr) (ir : IR Attr)

/-- Print an operation up to its regions: `res_1, ..., res_n = `, and its own syntax. -/
def printOpHead (node : Node Attr) : List (Token Attr) :=
  let results := iterWithSep (fun name => [.ident name]) (d.valueNames node)
  (if node.values.isEmpty then [] else results ++ [.sym "="]) ++ d.printOp node

def printArg (arg : Identifier × String) : List (Token Attr) :=
  [.ident arg.1, .sym ":", .text arg.2]

/-- The arguments of a block. -/
def printArgs (node : Node Attr) : List (Token Attr) :=
  .sym "(" :: (iterWithSep printArg ((d.valueNames node).zip (node.values.map TypedValue.ty)) ++
    [.sym ")"])

/-- Has an item a location or an outlined attribute? -/
def hasOutline (item : OutlinedItem) : Bool :=
  !(ir.node item).loc.isUnknown ||
    (ir.node item).attributes.entries.any (fun e => d.shouldOutline e.2)

/-- Print a reference to the entry of an item, and note the item down. -/
def preprintOutline (item : OutlinedItem) (items : List OutlinedItem) :
    List (Token Attr) × List OutlinedItem :=
  if hasOutline d ir item then ([.sym "!", .index items.length], items ++ [item]) else ([], items)

def preprintOutlineOperation (op : OpPtr) (items : List OutlinedItem) :
    List (Token Attr) × List OutlinedItem := preprintOutline d ir (.op op) items

def preprintOutlineBlock (block : BlockPtr) (items : List OutlinedItem) :
    List (Token Attr) × List OutlinedItem := preprintOutline d ir (.block block) items

/-- The attributes of a block that are printed inline. -/
def printInlineAttrs (attributes : AttributeDict Attr) : List (Token Attr) :=
  let inlineAttrs := attributes.cloneSkipOutlined d.shouldOutline
  if inlineAttrs.entries.isEmpty then [] else inlineAttrs.print

/-- Print operations, blocks or regions, given the items noted down before. -/
def print : {k : Kind} → Forest k → List OutlinedItem → List (Token Attr) × List OutlinedItem
  | _, .nil, items => ([], items)
  | _, .op ptr regions next, items =>
      let (regionToks, items) := print regions items
      let (mark, items) := preprintOutlineOperation d ir ptr items
      let (nextToks, items) := print next items
      let sep := match next with
        | .nil => []
        | _ => [.sym ";"]
      (printOpHead d (ir.node (.op ptr)) ++ (regionToks ++ (mark ++ (sep ++ nextToks))), items)
  | _, .block ptr ops next, items =>
      let node := ir.node (.block ptr)
      let (mark, items) := preprintOutlineBlock d ir ptr items
      let (opToks, items) := print ops items
      let (nextToks, items) := print next items
      ([.sym "^", .text node.head] ++ (printArgs d node ++ (printInlineAttrs d node.attributes ++
        (mark ++ .sym ":" :: (opToks ++ nextToks)))), items)
  | _, .region blocks next, items =>
      let (blockToks, items) := print blocks items
      let (nextToks, items) := print next items
      (.sym "\x7b" :: (blockToks ++ .sym "\x7d" :: nextToks), items)

/-- An outlined attribute, or a reference to an entry that has it. -/
inductive AttrOrOutlineEntryRef (Attr : Type) where
  | attr (attr : Attr)
  | outlineEntryRef (outindex : Nat)

inductive OutlineEntry (Attr : Type) where
  | printOnceAttr (attr : Attr)
  | locAndOutlinedAttrs (loc : Option (Location Attr))
      (attrs : List (Identifier × AttrOrOutlineEntryRef Attr))

/-- The state of writing the section: the attributes printed once with their indices, and the
    next index. -/
structure OnceState (Attr : Type) where
  printOnceAttrs : IMap Attr Nat := []
  nextIndex : Nat

variable [DecidableEq Attr]

def printAttrOrRef : AttrOrOutlineEntryRef Attr → List (Token Attr)
  | .attr attr => [.attr attr]
  | .outlineEntryRef outindex => [.sym "!", .index outindex]

def printNamedAttr (attr : Identifier × AttrOrOutlineEntryRef Attr) : List (Token Attr) :=
  .ident attr.1 :: .sym "=" :: printAttrOrRef attr.2

def printLoc : Option (Location Attr) → List (Token Attr)
  | none => []
  | some loc => [.sym "@", .sym "["] ++ (loc.print ++ [.sym "]", .sym ","])

def printEntry : OutlineEntry Attr → List (Token Attr)
  | .printOnceAttr attr => [.attr attr]
  | .locAndOutlinedAttrs loc attrs =>
      printLoc loc ++ .sym "[" :: (iterWithSep printNamedAttr attrs ++ [.sym "]"])

def printEntries : List (Nat × OutlineEntry Attr) → List (Token Attr)
  | [] => []
  | (outindex, entry) :: es =>
      [.sym "!", .index outindex, .sym "="] ++ (printEntry entry ++ printEntries es)

end Outlined

end Pliron
