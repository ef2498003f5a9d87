/-
  Pliron.IRFmt.Location

  Source locations, their text, and the parser of that text.

  Text is a list of tokens: white space, and the spelling of numbers, identifiers
  and quoted strings, are not modelled.  An attribute is one token, as its printer
  and its parser belong to the dialect that defines it.
-/

import Pliron.IR.Context

namespace Pliron

/-! ## Tokens -/

inductive Token (Attr : Type) where
  /-- Punctuation or a keyword. -/
  | sym (s : String)
  /-- The text of an operation's or a block's own syntax. -/
  | text (s : String)
  | ident (name : Identifier)
  | str (s : String)
  | int (n : Int)
  | index (n : Nat)
  | attr (a : Attr)
deriving DecidableEq, Repr

variable {Attr : Type}

/-- Why parsing fails. -/
inductive ParseErr where
  /-- The input is not what the syntax asks for. -/
  | unexpected
  | duplicateOutlineIndex (outindex : Nat)
  | noPrintOnceAttr (outindex : Nat)
  | noOperationOrBlock (outindex : Nat)
  /-- Not an error: an assertion or an `expect` fails. -/
  | panicked (message : String)
deriving DecidableEq, Repr

/-- The message of an error of the outlined section, or of a panic. -/
def ParseErr.display : ParseErr → String
  | .unexpected => "Error parsing outline entries"
  | .duplicateOutlineIndex outindex => "Duplicate outline index: " ++ toString outindex
  | .noPrintOnceAttr outindex => "No PrintOnceAttr found for outline index: " ++ toString outindex
  | .noOperationOrBlock outindex =>
      "No operation or block found for outline index: " ++ toString outindex
  | .panicked message => message

/-- Consume the given symbols. -/
def expect : List String → List (Token Attr) → Except ParseErr (List (Token Attr))
  | [], toks => .ok toks
  | s :: ss, .sym s' :: toks => if s = s' then expect ss toks else .error .unexpected
  | _ :: _, _ => .error .unexpected

@[simp] theorem expect_append (ss : List String) (toks : List (Token Attr)) :
    expect ss (ss.map Token.sym ++ toks) = .ok toks := by
  induction ss with
  | nil => rfl
  | cons s ss ih => simp [expect, ih]

/-! ## Locations -/

/-- Where is the source program? -/
inductive Source where
  | file (path : String)
  | inMemory
deriving DecidableEq, Repr

structure SourcePosition where
  line : Int
  column : Int
deriving DecidableEq, Repr

/-- A combination of program source locations. -/
inductive Location (Attr : Type) where
  | srcPos (src : Source) (pos : SourcePosition)
  | fused (metadata : Option Attr) (locations : List (Location Attr))
  | named (name : String) (childLoc : Location Attr)
  | callSite (callee caller : Location Attr)
  | unknown

namespace Location

def isUnknown : Location Attr → Bool
  | .unknown => true
  | _ => false

def printSource : Source → List (Token Attr)
  | .file path => [.str path]
  | .inMemory => [.sym "<in-memory>"]

def printPos (pos : SourcePosition) : List (Token Attr) :=
  [.sym "line", .sym ":", .int pos.line, .sym ",", .sym "column", .sym ":", .int pos.column]

def printMetadata : Option Attr → List (Token Attr)
  | none => []
  | some attr => [.sym "<", .attr attr, .sym ">"]

mutual

def print : Location Attr → List (Token Attr)
  | .srcPos src pos => printSource src ++ .sym ":" :: printPos pos
  | .fused metadata locations =>
      .sym "fused" :: (printMetadata metadata ++ .sym "[" :: (printList locations ++ [.sym "]"]))
  | .named name childLoc =>
      [.sym "name", .sym ":", .str name, .sym ",", .sym "loc", .sym ":", .sym "("] ++
        (print childLoc ++ [.sym ")"])
  | .callSite callee caller =>
      [.sym "callsite", .sym "("] ++ (print callee ++ .sym "at" :: (print caller ++ [.sym ")"]))
  | .unknown => [.sym "?"]

/-- Locations, separated by commas. -/
def printList : List (Location Attr) → List (Token Attr)
  | [] => []
  | [loc] => print loc
  | loc :: locs => print loc ++ .sym "," :: printList locs

end

def parsePos : List (Token Attr) → Except ParseErr (SourcePosition × List (Token Attr))
  | .sym "line" :: .sym ":" :: .int line :: .sym "," :: .sym "column" :: .sym ":" ::
      .int column :: toks => .ok (⟨line, column⟩, toks)
  | _ => .error .unexpected

def parseMetadata : List (Token Attr) → Except ParseErr (Option Attr × List (Token Attr))
  | .sym "<" :: .attr attr :: .sym ">" :: toks => .ok (some attr, toks)
  | .sym "<" :: _ => .error .unexpected
  | toks => .ok (none, toks)

mutual

def parse : Nat → List (Token Attr) → Except ParseErr (Location Attr × List (Token Attr))
  | 0, _ => .error .unexpected
  | fuel + 1, toks =>
      match toks with
      | .str path :: .sym ":" :: toks => do
          let (pos, toks) ← parsePos toks
          .ok (.srcPos (.file path) pos, toks)
      | .sym "<in-memory>" :: .sym ":" :: toks => do
          let (pos, toks) ← parsePos toks
          .ok (.srcPos .inMemory pos, toks)
      | .sym "fused" :: toks => do
          let (metadata, toks) ← parseMetadata toks
          let toks ← expect ["["] toks
          let (locations, toks) ← parseList fuel toks
          let toks ← expect ["]"] toks
          .ok (.fused metadata locations, toks)
      | .sym "name" :: .sym ":" :: .str name :: .sym "," :: .sym "loc" :: .sym ":" :: .sym "(" ::
          toks => do
          let (childLoc, toks) ← parse fuel toks
          let toks ← expect [")"] toks
          .ok (.named name childLoc, toks)
      | .sym "callsite" :: .sym "(" :: toks => do
          let (callee, toks) ← parse fuel toks
          let toks ← expect ["at"] toks
          let (caller, toks) ← parse fuel toks
          let toks ← expect [")"] toks
          .ok (.callSite callee caller, toks)
      | .sym "?" :: toks => .ok (.unknown, toks)
      | _ => .error .unexpected

/-- One or more locations, separated by commas. -/
def parseList1 : Nat → List (Token Attr) →
    Except ParseErr (List (Location Attr) × List (Token Attr))
  | 0, _ => .error .unexpected
  | fuel + 1, toks => do
      let (loc, toks) ← parse fuel toks
      match toks with
      | .sym "," :: toks => do
          let (locs, toks) ← parseList1 fuel toks
          .ok (loc :: locs, toks)
      | toks => .ok ([loc], toks)

/-- The locations in brackets. -/
def parseList : Nat → List (Token Attr) →
    Except ParseErr (List (Location Attr) × List (Token Attr))
  | 0, _ => .error .unexpected
  | fuel + 1, toks =>
      match toks with
      | .sym "]" :: _ => .ok ([], toks)
      | toks => parseList1 fuel toks

end

/-! ## Round trip -/

mutual

def size : Location Attr → Nat
  | .srcPos _ _ => 1
  | .fused _ locations => sizeList locations + 2
  | .named _ childLoc => size childLoc + 1
  | .callSite callee caller => size callee + size caller + 1
  | .unknown => 1

def sizeList : List (Location Attr) → Nat
  | [] => 1
  | loc :: locs => size loc + sizeList locs + 1

end

theorem parseMetadata_print (metadata : Option Attr) {rest : List (Token Attr)} :
    parseMetadata (printMetadata metadata ++ .sym "[" :: rest) =
      .ok (metadata, .sym "[" :: rest) := by
  cases metadata <;> rfl

/-- No location starts with a closing bracket. -/
theorem print_ne_close (loc : Location Attr) (rest tail : List (Token Attr)) :
    loc.print ++ rest ≠ .sym "]" :: tail := by
  cases loc with
  | srcPos src pos => cases src <;> simp [print, printSource]
  | fused metadata locations => simp [print]
  | named name childLoc => simp [print]
  | callSite callee caller => simp [print]
  | unknown => simp [print]

mutual

theorem parse_print (loc : Location Attr) (fuel : Nat) (rest : List (Token Attr))
    (h : loc.size ≤ fuel) : parse fuel (loc.print ++ rest) = .ok (loc, rest) := by
  match loc, fuel, h with
  | .srcPos (.file path) pos, fuel + 1, _ => rfl
  | .srcPos .inMemory pos, fuel + 1, _ => rfl
  | .fused metadata locations, fuel + 1, h =>
      have hlist := parseList_print locations fuel rest (by simp only [size] at h; omega)
      simp only [print, List.cons_append, List.append_assoc, List.nil_append, parse,
        parseMetadata_print]
      simp only [bind, Except.bind, expect, if_pos, hlist]
  | .named name childLoc, fuel + 1, h =>
      have hchild := parse_print childLoc fuel (.sym ")" :: rest) (by simp only [size] at h; omega)
      simp only [print, List.cons_append, List.append_assoc, List.nil_append, parse, hchild]
      rfl
  | .callSite callee caller, fuel + 1, h =>
      simp only [size] at h
      have hcallee := parse_print callee fuel (.sym "at" :: (caller.print ++ .sym ")" :: rest))
        (by omega)
      have hcaller := parse_print caller fuel (.sym ")" :: rest) (by omega)
      simp only [print, List.cons_append, List.append_assoc, List.nil_append, parse, hcallee]
      simp only [bind, Except.bind, expect, if_pos, hcaller]
  | .unknown, fuel + 1, _ => rfl

theorem parseList_print (locs : List (Location Attr)) (fuel : Nat) (rest : List (Token Attr))
    (h : sizeList locs < fuel) :
    parseList fuel (printList locs ++ .sym "]" :: rest) = .ok (locs, .sym "]" :: rest) := by
  match locs, fuel, h with
  | [], fuel + 1, _ => rfl
  | loc :: locs, fuel + 1, h =>
      have hone := parseList1_print loc locs fuel rest (by omega)
      rw [parseList]
      · exact hone
      · intro tail htail
        cases locs with
        | nil => exact print_ne_close loc _ tail htail
        | cons loc' locs =>
            simp only [printList, List.append_assoc] at htail
            exact print_ne_close loc _ tail htail

theorem parseList1_print (loc : Location Attr) (locs : List (Location Attr)) (fuel : Nat)
    (rest : List (Token Attr)) (h : sizeList (loc :: locs) ≤ fuel) :
    parseList1 fuel (printList (loc :: locs) ++ .sym "]" :: rest) =
      .ok (loc :: locs, .sym "]" :: rest) := by
  match locs, fuel, h with
  | [], fuel + 1, h =>
      have hloc := parse_print loc fuel (.sym "]" :: rest) (by simp only [sizeList] at h; omega)
      simp only [printList, parseList1, hloc]
      rfl
  | loc' :: locs, fuel + 1, h =>
      simp only [sizeList] at h
      have hloc := parse_print loc fuel
        (.sym "," :: (printList (loc' :: locs) ++ .sym "]" :: rest)) (by omega)
      have hlocs := parseList1_print loc' locs fuel rest (by simp only [sizeList]; omega)
      simp only [printList, List.cons_append, List.append_assoc, parseList1, hloc]
      simp only [bind, Except.bind]
      rw [hlocs]

end

end Location

end Pliron
