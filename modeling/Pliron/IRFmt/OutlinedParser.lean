/-
  Pliron.IRFmt.OutlinedParser

  Parsing the IR with its outlined section.

  A parser takes the tokens left, and returns those it leaves.  Where an operation
  or a block is parsed, its location is where its text was; an entry of the
  outlined section overwrites that.
-/

import Pliron.IRFmt.Outlined

namespace Pliron

variable {Attr : Type}

/-! ## State -/

namespace IR

/-- Write to an operation or a block. -/
def modify (ir : IR Attr) (item : OutlinedItem) (f : Node Attr → Node Attr) : IR Attr :=
  { ir with node := Function.update ir.node item (f (ir.node item)) }

def setLoc (ir : IR Attr) (item : OutlinedItem) (loc : Location Attr) : IR Attr :=
  ir.modify item (fun node => { node with loc := loc })

/-- New values of these types. -/
def newValues (ir : IR Attr) (types : List String) : List TypedValue :=
  (types.zipIdx ir.nextValue).map (fun (ty, uid) => ⟨uid, ty⟩)

def newOp (ir : IR Attr) (node : Node Attr) (resultTypes : List String) : OpPtr × IR Attr :=
  let op : OpPtr := ⟨ir.nextOp⟩
  let node := { node with values := ir.newValues resultTypes }
  (op, { ir.modify (.op op) (fun _ => node) with
    nextOp := ir.nextOp + 1, nextValue := ir.nextValue + resultTypes.length })

def newBlock (ir : IR Attr) (node : Node Attr) (argTypes : List String) : BlockPtr × IR Attr :=
  let block : BlockPtr := ⟨ir.nextBlock⟩
  let node := { node with values := ir.newValues argTypes }
  (block, { ir.modify (.block block) (fun _ => node) with
    nextBlock := ir.nextBlock + 1, nextValue := ir.nextValue + argTypes.length })

end IR

namespace Outlined

/-- The state used to parse outlined attributes and locations. -/
structure OutlineParseState where
  /-- Maps an outline item number to the operation it refers to. -/
  outindexOpMap : IMap Nat OpPtr := []
  /-- Maps an outline item number to the block it refers to. -/
  outindexBlockMap : IMap Nat BlockPtr := []

structure ParseState (Attr : Type) where
  ir : IR Attr := {}
  outline : Option OutlineParseState := none

/-- Where the text comes from, and the position in it when a number of tokens is left. -/
structure Input where
  src : Source
  pos : Nat → SourcePosition

/-- The current location. -/
def Input.loc (input : Input) (toks : List (Token Attr)) : Location Attr :=
  .srcPos input.src (input.pos toks.length)

/-! ## The outline index of an operation or a block -/

def registerOpForOutline (st : ParseState Attr) (outindex : Nat) (op : OpPtr) :
    Except ParseErr (ParseState Attr) :=
  let outline := st.outline.getD {}
  let prev := outline.outindexOpMap.get? outindex
  let outline := { outline with outindexOpMap := outline.outindexOpMap.insert outindex op }
  if prev.isSome then .error (.duplicateOutlineIndex outindex)
  else .ok { st with outline := some outline }

def registerBlockForOutline (st : ParseState Attr) (outindex : Nat) (block : BlockPtr) :
    Except ParseErr (ParseState Attr) :=
  let outline := st.outline.getD {}
  let prev := outline.outindexBlockMap.get? outindex
  let outline := { outline with
    outindexBlockMap := outline.outindexBlockMap.insert outindex block }
  if prev.isSome then .error (.duplicateOutlineIndex outindex)
  else .ok { st with outline := some outline }

/-- An outline index, if there is one. -/
def parseOutindex : List (Token Attr) → Except ParseErr (Option Nat × List (Token Attr))
  | .sym "!" :: .index outindex :: toks => .ok (some outindex, toks)
  | .sym "!" :: _ => .error .unexpected
  | toks => .ok (none, toks)

/-- An operation was just parsed: note its outline index down, if it has one. -/
def postparseOutline (op : OpPtr) (toks : List (Token Attr)) (st : ParseState Attr) :
    Except ParseErr (List (Token Attr) × ParseState Attr) := do
  let (outindex, toks) ← parseOutindex toks
  match outindex with
  | some outindex => .ok (toks, ← registerOpForOutline st outindex op)
  | none => .ok (toks, st)

/-! ## Lists -/

/-- One or more items, with a comma between any two; the first number is fuel. -/
def listLoop {α : Type} (item : List (Token Attr) → Except ParseErr (α × List (Token Attr))) :
    Nat → List (Token Attr) → Except ParseErr (List α × List (Token Attr))
  | 0, _ => .error .unexpected
  | fuel + 1, toks => do
      let (x, toks) ← item toks
      match toks with
      | .sym "," :: toks => do
          let (xs, toks) ← listLoop item fuel toks
          .ok (x :: xs, toks)
      | toks => .ok ([x], toks)

def listParser {α : Type} (item : List (Token Attr) → Except ParseErr (α × List (Token Attr)))
    (toks : List (Token Attr)) : Except ParseErr (List α × List (Token Attr)) :=
  listLoop item toks.length toks

/-- A list between delimiters, which may be empty. -/
def delimitedListParser {α : Type} (opening closing : String)
    (item : List (Token Attr) → Except ParseErr (α × List (Token Attr)))
    (toks : List (Token Attr)) : Except ParseErr (List α × List (Token Attr)) := do
  let toks ← expect [opening] toks
  match expect [closing] toks with
  | .ok toks => .ok ([], toks)
  | .error _ => do
      let (xs, toks) ← listParser item toks
      let toks ← expect [closing] toks
      .ok (xs, toks)

/-! ## The names of results and arguments -/

section Names

variable (d : AttrInterfaces Attr)

/-- Set the name of a result or an argument; panics if the index is out of `bound`. -/
def setValueName (bound : String) (item : OutlinedItem) (idx : Nat) (name : Option Identifier)
    (ir : IR Attr) : Except ParseErr (IR Attr) :=
  if idx < (ir.node item).values.length then
    match d.setName (ir.node item).attributes idx name with
    | some attributes => .ok (ir.modify item (fun node => { node with attributes := attributes }))
    | none => .error (.panicked "Existing attribute entry for given names incorrect")
  else .error (.panicked ("assertion failed: " ++ bound))

def setOperationResultName (op : OpPtr) : Nat → Option Identifier → IR Attr →
    Except ParseErr (IR Attr) := setValueName d "res_idx < num_results" (.op op)

def setBlockArgName (block : BlockPtr) : Nat → Option Identifier → IR Attr →
    Except ParseErr (IR Attr) := setValueName d "arg_idx < num_args" (.block block)

/-- Set the names of the values from an index on. -/
def setNames (set : Nat → Option Identifier → IR Attr → Except ParseErr (IR Attr)) :
    Nat → List Identifier → IR Attr → Except ParseErr (IR Attr)
  | _, [], ir => .ok ir
  | idx, name :: names, ir => do
      let ir ← set idx (some name) ir
      setNames set (idx + 1) names ir

/-- Set the names of the results of an operation that was just parsed.  That operands can refer to
    the results by these names from now on is left out. -/
def processParsedSsaDefs (results : List Identifier) (op : OpPtr) (ir : IR Attr) :
    Except ParseErr (IR Attr) :=
  if results.length = (ir.node (.op op)).values.length then
    setNames (setOperationResultName d op) 0 results ir
  else
    .error (.panicked "Error processing parsed SSA definitions. Result count mismatch")

end Names

/-! ## Operations, blocks and regions -/

def parseName : List (Token Attr) → Except ParseErr (Identifier × List (Token Attr))
  | .ident name :: toks => .ok (name, toks)
  | _ => .error .unexpected

/-- The results `res_1, ..., res_n = `, if they are there. -/
def parseResults (toks : List (Token Attr)) : List Identifier × List (Token Attr) :=
  match listParser parseName toks with
  | .ok (results, .sym "=" :: toks) => (results, toks)
  | _ =>
      match toks with
      | .sym "=" :: toks => ([], toks)
      | toks => ([], toks)

/-- An argument of a block: `name: type`. -/
def parseArg : List (Token Attr) → Except ParseErr ((Identifier × String) × List (Token Attr))
  | .ident name :: .sym ":" :: .text ty :: toks => .ok ((name, ty), toks)
  | _ => .error .unexpected

/-- The optional attributes of a block. -/
def parseInlineAttrs : List (Token Attr) → Except ParseErr (AttributeDict Attr × List (Token Attr))
  | .sym "[" :: toks => AttributeDict.parse (.sym "[" :: toks)
  | toks => .ok ({}, toks)

/-- The parts of the header of a block: `^label(args) [attrs] !index :`. -/
structure BlockHeader (Attr : Type) where
  head : String
  args : List (Identifier × String)
  attributes : AttributeDict Attr
  outindex : Option Nat

def parseBlockHeader : List (Token Attr) →
    Except ParseErr (BlockHeader Attr × List (Token Attr))
  | .sym "^" :: .text head :: toks => do
      let (args, toks) ← delimitedListParser "(" ")" parseArg toks
      let (attributes, toks) ← parseInlineAttrs toks
      let (outindex, toks) ← parseOutindex toks
      let toks ← expect [":"] toks
      .ok (⟨head, args, attributes, outindex⟩, toks)
  | _ => .error .unexpected

variable (d : Dialects Attr) (input : Input)

/-- An operation up to its regions: its results, and its own syntax. -/
def parseOpHead (toks : List (Token Attr)) :
    Option (List Identifier × ParsedOp Attr × List (Token Attr)) :=
  let (results, toks) := parseResults toks
  (d.parseOp results.length toks).map (fun (parsed, toks) => (results, parsed, toks))

mutual

/-- Parse an operation, and look for its outline index. -/
def parseOp : Nat → List (Token Attr) → ParseState Attr →
    Except ParseErr (OpPtr × Forest .region × List (Token Attr) × ParseState Attr)
  | 0, _, _ => .error .unexpected
  | fuel + 1, toks, st => do
      let loc := input.loc toks
      match parseOpHead d toks with
      | none => .error .unexpected
      | some (results, parsed, toks) => do
          let (op, ir) := st.ir.newOp
            { head := parsed.head, type := parsed.type, attributes := parsed.attributes }
            parsed.resultTypes
          let ir ← processParsedSsaDefs d.toAttrInterfaces results op ir
          let (regions, toks, st) ← parse fuel .region false toks { st with ir := ir }
          let (toks, st) ← postparseOutline op toks { st with ir := st.ir.setLoc (.op op) loc }
          .ok (op, regions, toks, st)

/-- Parse operations separated by semicolons, blocks or regions; if `required`, at least one
    operation. -/
def parse : Nat → (k : Kind) → (required : Bool) → List (Token Attr) → ParseState Attr →
    Except ParseErr (Forest k × List (Token Attr) × ParseState Attr)
  | 0, _, _, _, _ => .error .unexpected
  | fuel + 1, .op, required, toks, st =>
      if (parseOpHead d toks).isNone && !required then .ok (.nil, toks, st)
      else do
        let (op, regions, toks, st) ← parseOp fuel toks st
        match toks with
        -- a `;` promises a further operation
        | .sym ";" :: toks => do
            let (next, toks, st) ← parse fuel .op true toks st
            .ok (.op op regions next, toks, st)
        | toks => .ok (.op op regions .nil, toks, st)
  | fuel + 1, .block, _, toks, st =>
      match toks with
      | .sym "^" :: _ => do
          let loc := input.loc toks
          let (header, toks) ← parseBlockHeader toks
          let (block, ir) := st.ir.newBlock
            { head := header.head, attributes := header.attributes, loc := loc }
            (header.args.map Prod.snd)
          -- the arguments are named before the operations are read
          let ir ← setNames (setBlockArgName d.toAttrInterfaces block) 0
            (header.args.map Prod.fst) ir
          let st := { st with ir := ir }
          let st ← match header.outindex with
            | some outindex => registerBlockForOutline st outindex block
            | none => .ok st
          let (ops, toks, st) ← parse fuel .op false toks st
          let (next, toks, st) ← parse fuel .block false toks st
          .ok (.block block ops next, toks, st)
      | toks => .ok (.nil, toks, st)
  | fuel + 1, .region, _, toks, st =>
      match toks with
      | .sym "\x7b" :: toks => do
          let (blocks, toks, st) ← parse fuel .block false toks st
          let toks ← expect ["\x7d"] toks
          let (next, toks, st) ← parse fuel .region false toks st
          .ok (.region blocks next, toks, st)
      | toks => .ok (.nil, toks, st)

end

/-! ## The outlined section -/

/-- A named attribute, or a reference to one. -/
def parseNamedAttr : List (Token Attr) →
    Except ParseErr ((Identifier × AttrOrOutlineEntryRef Attr) × List (Token Attr))
  | .ident name :: .sym "=" :: .attr attr :: toks => .ok ((name, .attr attr), toks)
  | .ident name :: .sym "=" :: .sym "!" :: .index outindex :: toks =>
      .ok ((name, .outlineEntryRef outindex), toks)
  | _ => .error .unexpected

def parseOptionalLoc (fuel : Nat) : List (Token Attr) →
    Except ParseErr (Option (Location Attr) × List (Token Attr))
  | .sym "@" :: .sym "[" :: toks => do
      let (loc, toks) ← Location.parse fuel toks
      let toks ← expect ["]", ","] toks
      .ok (some loc, toks)
  | toks => .ok (none, toks)

def parseEntry (fuel : Nat) : List (Token Attr) →
    Except ParseErr (OutlineEntry Attr × List (Token Attr))
  | .attr attr :: toks => .ok (.printOnceAttr attr, toks)
  | toks => do
      let (loc, toks) ← parseOptionalLoc fuel toks
      let (attrs, toks) ← delimitedListParser "[" "]" parseNamedAttr toks
      .ok (.locAndOutlinedAttrs loc attrs, toks)

/-- The entries of the section. -/
def parseEntries : Nat → List (Token Attr) →
    Except ParseErr (List (Nat × OutlineEntry Attr) × List (Token Attr))
  | 0, _ => .error .unexpected
  | fuel + 1, toks =>
      match toks with
      | .sym "!" :: .index outindex :: .sym "=" :: toks => do
          let (entry, toks) ← parseEntry fuel toks
          let (entries, toks) ← parseEntries fuel toks
          .ok ((outindex, entry) :: entries, toks)
      | .sym "!" :: _ => .error .unexpected
      | toks => .ok ([], toks)

end Outlined

end Pliron
