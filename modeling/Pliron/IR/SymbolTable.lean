/-
  Pliron.IR.SymbolTable

  Symbol tables.

  A `SymbolTable` maps the names of the symbols in the body of its operation to
  the operations that define them, and inserting and erasing go to the body too.
  `none` is a panic of the source; an error that is returned comes with the state
  that it leaves behind.
-/

import Pliron.IR.Mutate
import Pliron.Utils.Table

namespace Pliron

namespace Context

variable (ctx : Context)

/-- The attribute that holds the name of a symbol. -/
def attrKeySymName : Identifier := "builtin_sym_name"

/-- The name of the symbol that an operation defines, if it is a symbol at all. -/
def getSymbolName (op : OpPtr) : Option Identifier := do
  let o ← ctx.operations op
  guard o.concreteOp.isSymbol
  match ← IMap.get? o.attributes attrKeySymName with
  | .identifier name => some name
  | .other _ => none

/-- Set the name of the symbol that an operation defines. -/
def setSymbolName (op : OpPtr) (name : Identifier) : Option Context := do
  let o ← ctx.operations op
  some (ctx.setOp op { o with
    attributes := IMap.insert o.attributes attrKeySymName (.identifier name) })

/-- The single body block in a region. -/
def getBody (op : OpPtr) (regionIdx : Nat) : Option BlockPtr := do
  let region ← (← ctx.operations op).regions[regionIdx]?
  (← ctx.regions region).blocks.head?

end Context

/-- A utility to look up and update symbols in a symbol table operation. -/
structure SymbolTable where
  symbolTableOp : OpPtr
  symbolTable : HMap Identifier OpPtr

inductive SymbolTableErr where
  | symbolRedefined (name : Identifier)
  | symbolOpAlreadyInAnotherTable (name : Identifier)
  | insertionPointNotInSameTable
  | symbolOpNotInTableOp
deriving DecidableEq, Repr

/-- The message of an error. -/
def SymbolTableErr.display : SymbolTableErr → String
  | .symbolRedefined name => "Symbol redefined: " ++ name
  | .symbolOpAlreadyInAnotherTable _ =>
      "Symbol Op cannot be inserted as it is already in another symbol table"
  | .insertionPointNotInSameTable =>
      "Insertion point must already be inside the same symbol table"
  | .symbolOpNotInTableOp => "Symbol op does not belong to the symbol table op"

namespace SymbolTable

/-- Record the symbol that an operation of the body defines, if it defines one. -/
def newEntry (ctx : Context) (symbolTable : HMap Identifier OpPtr) (op : OpPtr) :
    Option (HMap Identifier OpPtr) := do
  let o ← ctx.operations op
  if o.concreteOp.isSymbol then
    let sym ← ctx.getSymbolName op
    -- it is the job of the verifier to have caught a redefinition
    if (symbolTable sym).isSome then none else some (symbolTable.insert sym op)
  else some symbolTable

/-- Create a new symbol table from a symbol table operation. -/
def new (ctx : Context) (symbolTableOp : OpPtr) : Option SymbolTable := do
  let tableOpsBlock ← ctx.getBody symbolTableOp 0
  let symbolTable ← (ctx.blockOps tableOpsBlock).foldlM (newEntry ctx) (fun _ => none)
  some ⟨symbolTableOp, symbolTable⟩

variable (st : SymbolTable) (ctx : Context)

/-- The part of `insert` that follows the check for a redefinition. -/
def insertIR (symbolOp : OpPtr) (symbolName : Identifier)
    (insertPt : Option Context.OpInsertionPoint) : Option (Except SymbolTableErr Unit × Context) :=
  match ctx.parentOp symbolOp with
  | some symbolOpParent =>
      if st.symbolTableOp ≠ symbolOpParent then
        some (.error (.symbolOpAlreadyInAnotherTable symbolName), ctx)
      else some (.ok (), ctx)
  | none =>
      match insertPt with
      | some insertPt => do
          let insertBlock ← ctx.getInsertionBlock insertPt
          let _ ← ctx.basicBlocks insertBlock
          if ctx.blockParentOp insertBlock = some st.symbolTableOp then
            some (.ok (), ← ctx.insertOperation symbolOp insertPt)
          else some (.error .insertionPointNotInSameTable, ctx)
      | none => do
          -- at the end, before the terminator if one exists
          let block ← ctx.getBody st.symbolTableOp 0
          match ctx.terminator block with
          | some terminator => some (.ok (), ← ctx.linkOp symbolOp (.before terminator))
          | none => some (.ok (), ← ctx.linkOp symbolOp (.atBack block))

/-- Insert a new symbol into the table, and its operation into the table's operation. -/
def insert (symbolOp : OpPtr) (insertPt : Option Context.OpInsertionPoint) :
    Option (Except SymbolTableErr Unit × SymbolTable × Context) := do
  let symbolName ← ctx.getSymbolName symbolOp
  let prevOp := st.symbolTable symbolName
  let st := { st with symbolTable := st.symbolTable.insert symbolName symbolOp }
  match prevOp with
  | some _ => some (.error (.symbolRedefined symbolName), st, ctx)
  | none => do
      let (result, ctx) ← st.insertIR ctx symbolOp symbolName insertPt
      some (result, st, ctx)

/-- Remove a symbol from the table; its operation is unlinked, but not erased. -/
def remove (symbolOp : OpPtr) : Option (Except SymbolTableErr Unit × SymbolTable × Context) := do
  let _ ← ctx.operations symbolOp
  if ctx.parentOp symbolOp = some st.symbolTableOp then
    let symbol ← ctx.getSymbolName symbolOp
    let ctx ← ctx.unlinkOp symbolOp
    some (.ok (), { st with symbolTable := st.symbolTable.remove symbol }, ctx)
  else some (.error .symbolOpNotInTableOp, st, ctx)

/-- Remove a symbol from the table, and erase it. -/
def erase (symbolOp : OpPtr) : Option (Except SymbolTableErr Unit × SymbolTable × Context) := do
  match ← st.remove ctx symbolOp with
  | (.error e, st, ctx) => some (.error e, st, ctx)
  | (.ok (), st, ctx) => some (.ok (), st, ← ctx.eraseOp symbolOp)

/-- The symbol with the given name. -/
def lookup (symbolName : Identifier) : Option OpPtr := st.symbolTable symbolName

end SymbolTable

end Pliron
