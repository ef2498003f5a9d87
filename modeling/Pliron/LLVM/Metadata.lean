/-
  Pliron.LLVM.Metadata

  Importing the metadata of an LLVM module.

  Every tuple becomes an entry of the module's metadata table, under an id that is reserved before
  its operands are converted.  Kinds of attachments are given by their names, the conversion of a
  constant is a parameter, and warnings are left out.
-/

import Pliron.Utils.Table

namespace Pliron.Metadata

/-! ## Metadata of the LLVM dialect -/

/-- Index of a node in the module's metadata table. -/
abbrev MdNodeId := Nat

/-- An operand of a metadata node; `A` are the attributes of constants. -/
inductive MdOperandAttr (A : Type) where
  | null
  | string (s : String)
  | node (id : MdNodeId)
  | constant (attr : A)
deriving DecidableEq, Repr

/-- A metadata node. -/
structure MdNodeAttr (A : Type) where
  distinct : Bool
  operands : List (MdOperandAttr A)
deriving DecidableEq, Repr

namespace MdNodeAttr

variable {A : Type}

/-- A uniqued tuple. -/
def newTuple (operands : List (MdOperandAttr A)) : MdNodeAttr A := ⟨false, operands⟩

/-- A `distinct` tuple. -/
def newDistinctTuple (operands : List (MdOperandAttr A)) : MdNodeAttr A := ⟨true, operands⟩

end MdNodeAttr

/-- The module's table of metadata nodes. -/
abbrev MdTableAttr (A : Type) := List (MdNodeAttr A)

namespace MdTableAttr

variable {A : Type}

/-- Reserve an id for a node whose operands are not known yet. -/
def reserve (table : MdTableAttr A) : MdNodeId × MdTableAttr A :=
  (table.length, table ++ [MdNodeAttr.newTuple []])

end MdTableAttr

/-- The nodes attached to an operation, by kind. -/
abbrev MdAttachmentsAttr := IMap String MdNodeId

/-- The module's named lists of nodes. -/
abbrev NamedMdAttr := IMap String (List MdNodeId)

/-- Append a node to the list under a name, creating the list if needed. -/
def NamedMdAttr.push (named : NamedMdAttr) (name : String) (node : MdNodeId) : NamedMdAttr :=
  if named.containsKey name then named.modify name (fun nodes => nodes ++ [node])
  else named.insert name [node]

/-! ## Metadata of LLVM -/

/-- What LLVM calls the kinds of metadata, as far as the import tells them apart. -/
inductive LLVMMetadataKind where
  | mdString
  | mdTuple
  | constantAsMetadata
  | other
deriving DecidableEq, Repr

/-- The metadata of an LLVM module.  Constants convert to attributes `A`, or not at all, or fail
    with an error `ε`. -/
structure LLVMMetadata (μ A ε : Type) where
  kind : μ → LLVMMetadataKind
  /-- `llvm_get_md_node_operands`, with `none` the null operand. -/
  nodeOperands : μ → List (Option μ)
  /-- `llvm_get_md_string`: not every string is UTF-8. -/
  mdString : μ → Option String
  /-- `const_llvm_value_to_attr` -/
  constToAttr : μ → Except ε (Option A)
  uniqued : μ → Bool
  /-- `llvm_md_node_in_module`: the uniqued node with these operands. -/
  mdNodeInModule : List (Option μ) → μ
  mdNodeInModule_eq : ∀ md, mdNodeInModule (nodeOperands md) = md ↔ uniqued md = true
  /-- There are finitely many tuples. -/
  tuples : List μ
  mem_tuples : ∀ md, kind md = .mdTuple → md ∈ tuples

/-- The uses of metadata in an LLVM module: what is attached to each of its instructions and
    global objects, in the order of their conversion, and its named lists. -/
structure LLVMModule (μ : Type) where
  attachments : List (List (String × μ))
  named : List (String × List μ)

/-! ## Import -/

variable {μ A ε : Type} [DecidableEq μ]

/-- How an import ends early. -/
inductive Failure (ε : Type) where
  | err (e : ε)
  /-- Not the end of the recursion within the given depth. -/
  | diverged
deriving DecidableEq, Repr

/-- The state of the conversion. -/
structure MdConversionContext (μ A : Type) where
  /-- The id of each node seen, or `none` for a node that is dropped. -/
  nodeMap : HMap μ (Option MdNodeId)
  table : MdTableAttr A

/-- The state before anything is converted. -/
def MdConversionContext.empty : MdConversionContext μ A := ⟨fun _ => none, []⟩

/-- The result of one step of the import, with the state after it. -/
abbrev Result (μ A ε α : Type) := Except (Failure ε) (α × MdConversionContext μ A)

section Nodes

variable (g : LLVMMetadata μ A ε)
  (convertNode : μ → MdConversionContext μ A → Result μ A ε (Option MdNodeId))

/-- Convert one operand.  The result is `none` for an operand that cannot be represented. -/
def convertMdOperand (operand : Option μ) (cctx : MdConversionContext μ A) :
    Result μ A ε (Option (MdOperandAttr A)) :=
  match operand with
  | none => .ok (some .null, cctx)
  | some md =>
    match g.kind md with
    | .mdString => .ok ((g.mdString md).map .string, cctx)
    | .mdTuple =>
      match convertNode md cctx with
      | .ok (id, cctx) => .ok (id.map .node, cctx)
      | .error e => .error e
    | .constantAsMetadata =>
      match g.constToAttr md with
      | .ok attr => .ok (attr.map .constant, cctx)
      | .error e => .error (.err e)
    | .other => .ok (none, cctx)

/-- The loop over the operands of a node, which ends at the first that cannot be represented. -/
def convertMdOperands (cctx : MdConversionContext μ A) :
    List (Option μ) → Result μ A ε (Option (List (MdOperandAttr A)))
  | [] => .ok (some [], cctx)
  | operand :: rest =>
    match convertMdOperand g convertNode operand cctx with
    | .error e => .error e
    | .ok (none, cctx) => .ok (none, cctx)
    | .ok (some operand, cctx) =>
      match convertMdOperands cctx rest with
      | .error e => .error e
      | .ok (operands, cctx) => .ok (operands.map (operand :: ·), cctx)

end Nodes

/-- Convert a metadata node, and everything it refers to, into entries of the table.  The first
    argument bounds how deep the recursion goes. -/
def convertMdNode (g : LLVMMetadata μ A ε) :
    Nat → μ → MdConversionContext μ A → Result μ A ε (Option MdNodeId)
  | fuel, md, cctx =>
    match cctx.nodeMap md with
    | some id => .ok (id, cctx)
    | none =>
      if g.kind md ≠ .mdTuple then
        .ok (none, { cctx with nodeMap := cctx.nodeMap.insert md none })
      else
        match fuel with
        | 0 => .error .diverged
        | fuel + 1 =>
          -- The id is there before the operands are: nodes commonly refer to themselves.
          let (id, table) := MdTableAttr.reserve cctx.table
          match convertMdOperands g (convertMdNode g fuel)
              ⟨cctx.nodeMap.insert md (some id), table⟩ (g.nodeOperands md) with
          | .error e => .error e
          | .ok (none, cctx) =>
            .ok (none, { cctx with nodeMap := cctx.nodeMap.insert md none })
          | .ok (some operands, cctx) =>
            let distinct := decide (g.mdNodeInModule (g.nodeOperands md) ≠ md)
            let node := if distinct then MdNodeAttr.newDistinctTuple operands
              else MdNodeAttr.newTuple operands
            .ok (some id, { cctx with table := cctx.table.set id node })

section Module

variable (g : LLVMMetadata μ A ε) (fuel : Nat)

/-- The attachments of one operation. -/
def convertMdAttachments (cctx : MdConversionContext μ A) (attachments : MdAttachmentsAttr) :
    List (String × μ) → Result μ A ε MdAttachmentsAttr
  | [] => .ok (attachments, cctx)
  | (kind, md) :: entries =>
    -- Debug data converts to locations.
    if kind = "dbg" then convertMdAttachments cctx attachments entries
    else
      match convertMdNode g fuel md cctx with
      | .error e => .error e
      | .ok (none, cctx) => convertMdAttachments cctx attachments entries
      | .ok (some node, cctx) => convertMdAttachments cctx (attachments.insert kind node) entries

/-- The attachments of every operation. -/
def convertAllAttachments (cctx : MdConversionContext μ A) :
    List (List (String × μ)) → Result μ A ε (List MdAttachmentsAttr)
  | [] => .ok ([], cctx)
  | entries :: rest =>
    match convertMdAttachments g fuel cctx [] entries with
    | .error e => .error e
    | .ok (attachments, cctx) =>
      match convertAllAttachments cctx rest with
      | .error e => .error e
      | .ok (all, cctx) => .ok (attachments :: all, cctx)

/-- The operands of one named list. -/
def convertNamedOperands (cctx : MdConversionContext μ A) (named : NamedMdAttr) (name : String) :
    List μ → Result μ A ε NamedMdAttr
  | [] => .ok (named, cctx)
  | md :: operands =>
    match convertMdNode g fuel md cctx with
    | .error e => .error e
    | .ok (none, cctx) => convertNamedOperands cctx named name operands
    | .ok (some node, cctx) => convertNamedOperands cctx (named.push name node) name operands

/-- The module's named metadata. -/
def convertNamedMetadata (cctx : MdConversionContext μ A) (named : NamedMdAttr) :
    List (String × List μ) → Result μ A ε NamedMdAttr
  | [] => .ok (named, cctx)
  | (name, operands) :: rest =>
    match convertNamedOperands g fuel cctx named name operands with
    | .error e => .error e
    | .ok (named, cctx) => convertNamedMetadata cctx named rest

end Module

/-- What the import puts on the operations of the module, and on the module itself.  An empty
    attribute is not put. -/
structure Imported (A : Type) where
  attachments : List (Option MdAttachmentsAttr)
  namedMd : Option NamedMdAttr
  mdTable : Option (MdTableAttr A)
deriving DecidableEq, Repr

/-- A list, unless it is empty. -/
def unlessEmpty {α : Type} (l : List α) : Option (List α) := if l.isEmpty then none else some l

/-- Import the metadata of a module: the attachments first, the named metadata last. -/
def convertModuleMetadata (g : LLVMMetadata μ A ε) (m : LLVMModule μ) :
    Result μ A ε (Imported A) :=
  match convertAllAttachments g g.tuples.length .empty m.attachments with
  | .error e => .error e
  | .ok (all, cctx) =>
    match convertNamedMetadata g g.tuples.length cctx [] m.named with
    | .error e => .error e
    | .ok (named, cctx) =>
      .ok (⟨all.map unlessEmpty, unlessEmpty named, unlessEmpty cctx.table⟩, cctx)

end Pliron.Metadata
