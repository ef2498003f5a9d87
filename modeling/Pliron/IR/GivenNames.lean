/-
  Pliron.IR.GivenNames

  Given names of operation results and block arguments.

  The names are kept by position, in an attribute of the operation or block that is there only
  when some name is.  `NamedContext` is a context with these attributes, by the entity they
  belong to.  The functions that insert and remove values shift the names as well, so that a
  value keeps the name it was last given.
-/

import Pliron.IR.DefUseCreate
import Pliron.Lib.Labels

namespace Pliron

open Pliron.Lib Function

/-! ## The attribute -/

/-- The given names of the results of an operation, or of the arguments of a block. -/
structure GivenNamesAttr where
  names : List (Option Identifier) := []
deriving DecidableEq, Repr

namespace GivenNamesAttr

/-- Are all names set to `none`? -/
def areAllNamesUnset (self : GivenNamesAttr) : Bool := self.names.all Option.isNone

/-- Get the name at `idx`. -/
def getName (self : GivenNamesAttr) (idx : Nat) : Option Identifier := self.names[idx]?.join

/-- Set the name at `idx`. -/
def setName (self : GivenNamesAttr) (idx : Nat) (name : Option Identifier) : GivenNamesAttr :=
  ⟨(growTo self.names (idx + 1)).set idx name⟩

/-- Insert a name at `idx`, moving everything currently at `idx` to the right. -/
def insertName (self : GivenNamesAttr) (idx : Nat) (name : Option Identifier) : GivenNamesAttr :=
  ⟨(growTo self.names idx).insertIdx idx name⟩

/-- Remove a name at `idx`, moving everything currently after `idx` to the left. -/
def removeName (self : GivenNamesAttr) (idx : Nat) : GivenNamesAttr :=
  if idx < self.names.length then ⟨self.names.eraseIdx idx⟩ else self

end GivenNamesAttr

/-- Write a name with `write` to the entry of the given names in an attribute dictionary.  There
    is no attribute without a name. -/
def writeNameInAttrMap
    (write : GivenNamesAttr → Nat → Option Identifier → GivenNamesAttr)
    (entry : Option GivenNamesAttr) (idx : Nat) (name : Option Identifier) :
    Option GivenNamesAttr :=
  match entry with
  | some givenNames =>
      let givenNames := write givenNames idx name
      if name.isNone && givenNames.areAllNamesUnset then none else some givenNames
  | none => if name.isSome then some (write {} idx name) else none

def setNameInAttrMap := writeNameInAttrMap GivenNamesAttr.setName

def insertNameInAttrMap := writeNameInAttrMap GivenNamesAttr.insertName

def removeNameFromAttrMap (entry : Option GivenNamesAttr) (idx : Nat) : Option GivenNamesAttr :=
  match entry with
  | some givenNames =>
      let givenNames := givenNames.removeName idx
      if givenNames.areAllNamesUnset then none else some givenNames
  | none => none

def getNameFromAttrMap (entry : Option GivenNamesAttr) (idx : Nat) : Option Identifier := do
  (← entry).getName idx

/-! ## Contexts with names -/

/-- A context, and the given names of the values of its operations and blocks. -/
structure NamedContext where
  ctx : Context
  givenNames : DefiningEntity → Option GivenNamesAttr := fun _ => none

namespace NamedContext

variable (s : NamedContext)

/-- Change the given names of an entity. -/
def setGivenNames (entity : DefiningEntity) (entry : Option GivenNamesAttr) : NamedContext :=
  { s with givenNames := update s.givenNames entity entry }

/-- Set the name of a result or an argument; panics if the index is out of range. -/
def setEntityName (entity : DefiningEntity) (idx : Nat) (name : Option Identifier) :
    Option NamedContext := do
  let l ← s.ctx.valueDefs entity
  guard (idx < l.length)
  some (s.setGivenNames entity (setNameInAttrMap (s.givenNames entity) idx name))

/-- Insert a name of a result or an argument; panics if the index is out of range. -/
def insertEntityName (entity : DefiningEntity) (idx : Nat) (name : Option Identifier) :
    Option NamedContext := do
  let l ← s.ctx.valueDefs entity
  guard (idx ≤ l.length)
  some (s.setGivenNames entity (insertNameInAttrMap (s.givenNames entity) idx name))

/-- Remove the name of a result or an argument; panics if the index is out of range. -/
def removeEntityName (entity : DefiningEntity) (idx : Nat) : Option NamedContext := do
  let l ← s.ctx.valueDefs entity
  guard (idx < l.length)
  some (s.setGivenNames entity (removeNameFromAttrMap (s.givenNames entity) idx))

def setOperationResultName (op : OpPtr) (resIdx : Nat) (name : Option Identifier) :
    Option NamedContext :=
  s.setEntityName (.op op) resIdx name

def insertOperationResultName (op : OpPtr) (resIdx : Nat) (name : Option Identifier) :
    Option NamedContext :=
  s.insertEntityName (.op op) resIdx name

def removeOperationResultName (op : OpPtr) (resIdx : Nat) : Option NamedContext :=
  s.removeEntityName (.op op) resIdx

def getOperationResultName (op : OpPtr) (resIdx : Nat) : Option Identifier :=
  getNameFromAttrMap (s.givenNames (.op op)) resIdx

def setBlockArgName (block : BlockPtr) (argIdx : Nat) (name : Option Identifier) :
    Option NamedContext :=
  s.setEntityName (.block block) argIdx name

def insertBlockArgName (block : BlockPtr) (argIdx : Nat) (name : Option Identifier) :
    Option NamedContext :=
  s.insertEntityName (.block block) argIdx name

def removeBlockArgName (block : BlockPtr) (argIdx : Nat) : Option NamedContext :=
  s.removeEntityName (.block block) argIdx

def getBlockArgName (block : BlockPtr) (argIdx : Nat) : Option Identifier :=
  getNameFromAttrMap (s.givenNames (.block block)) argIdx

/-! ## The values of operations and blocks -/

/-- The index of a value in its defining entity; panics if that does not define it. -/
def findIndex (value : Value) : Option Nat := do
  let l ← s.ctx.valueDefs value.definingEntity
  l.findIdx? (fun d => d.valUid = value.valUid)

/-- Set this value's name. -/
def setName (value : Value) (name : Option Identifier) : Option NamedContext := do
  let index ← s.findIndex value
  match value.definingEntity with
  | .op op => s.setOperationResultName op index name
  | .block block => s.setBlockArgName block index name

/-- The given name of this value. -/
def givenName (value : Value) : Option (Option Identifier) := do
  let index ← s.findIndex value
  match value.definingEntity with
  | .op op => some (s.getOperationResultName op index)
  | .block block => some (s.getBlockArgName block index)

/-- Add a new value to the end of an entity's values. -/
def pushValue (entity : DefiningEntity) (ty : TypeHandle) : Option NamedContext := do
  let ctx ← s.ctx.pushValue entity ty
  some { s with ctx := ctx }

/-- Insert a new value at an index of an entity's values. -/
def insertValue (entity : DefiningEntity) (idx : Nat) (ty : TypeHandle) : Option NamedContext := do
  let ctx ← s.ctx.insertValue entity idx ty
  let s := { s with ctx := ctx }
  s.insertEntityName entity idx none

/-- Remove an unused value; panics if it has uses. -/
def removeValue (entity : DefiningEntity) (idx : Nat) : Option NamedContext := do
  -- the names change after the check that the value has no uses
  let ctx ← s.ctx.removeValue entity idx
  let s ← s.removeEntityName entity idx
  some { s with ctx := ctx }

def popValue (entity : DefiningEntity) : Option NamedContext := do
  let l ← s.ctx.valueDefs entity
  guard (0 < l.length)
  s.removeValue entity (l.length - 1)

def pushResult (this : OpPtr) (ty : TypeHandle) : Option NamedContext := s.pushValue (.op this) ty

def insertResult (this : OpPtr) (resIdx : Nat) (ty : TypeHandle) : Option NamedContext :=
  s.insertValue (.op this) resIdx ty

def removeResult (this : OpPtr) (resIdx : Nat) : Option NamedContext :=
  s.removeValue (.op this) resIdx

def popResult (this : OpPtr) : Option NamedContext := s.popValue (.op this)

def pushArgument (block : BlockPtr) (ty : TypeHandle) : Option NamedContext :=
  s.pushValue (.block block) ty

def insertArgument (block : BlockPtr) (argIdx : Nat) (ty : TypeHandle) : Option NamedContext :=
  s.insertValue (.block block) argIdx ty

def removeArgument (block : BlockPtr) (argIdx : Nat) : Option NamedContext :=
  s.removeValue (.block block) argIdx

def popArgument (block : BlockPtr) : Option NamedContext := s.popValue (.block block)

end NamedContext

end Pliron
