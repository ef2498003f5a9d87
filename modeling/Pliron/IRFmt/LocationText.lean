/-
  Pliron.IRFmt.LocationText

  Source locations as text, with its white space, numbers and quoted strings.

  The paths of files are kept by value, as a context's keys for them depend on what it has
  interned.  The printer and the parser of attributes are parameters.
-/

import Pliron.IRFmt.QuotedString
import Pliron.IRFmt.Location

namespace Pliron.Text

open Pliron.Lib.Combine Parser

variable {Attr : Type}

/-! ## Keywords -/

namespace Keyword

def line : List Char := ['l', 'i', 'n', 'e']

def column : List Char := ['c', 'o', 'l', 'u', 'm', 'n']

def fused : List Char := ['f', 'u', 's', 'e', 'd']

def name : List Char := ['n', 'a', 'm', 'e']

def loc : List Char := ['l', 'o', 'c']

def callsite : List Char := ['c', 'a', 'l', 'l', 's', 'i', 't', 'e']

def atCaller : List Char := ['a', 't']

def inMemory : List Char := ['<', 'i', 'n', '-', 'm', 'e', 'm', 'o', 'r', 'y', '>']

end Keyword

/-! ## White space and numbers -/

/-- The white space of Unicode. -/
def isWhitespace (c : Char) : Bool :=
  (0x9 ≤ c.toNat && c.toNat ≤ 0xd) || c.toNat == 0x20 || c.toNat == 0x85 || c.toNat == 0xa0 ||
    c.toNat == 0x1680 || (0x2000 ≤ c.toNat && c.toNat ≤ 0x200a) || c.toNat == 0x2028 ||
    c.toNat == 0x2029 || c.toNat == 0x202f || c.toNat == 0x205f || c.toNat == 0x3000

def spaces : TextParser (List Char) := many (satisfy .unexpected isWhitespace)

/-- Ignore white space before and after. -/
def spaced {A : Type} (p : TextParser A) : TextParser A := (spaces.withRight p).skip spaces

def string (s : List Char) : TextParser Unit := tokens .unexpected s

def digit : TextParser Char := satisfy .unexpected Char.isDigit

/-- Parse a decimal number: an optional `+` or `-` followed by digits. -/
def numberAsStringParse : TextParser (Option Char × List Char) :=
  (optional ((char '+').or (char '-'))).andThen (fun sign =>
    (many1 digit).map (fun digits => (sign, digits)))

/-- Is it a 32-bit integer? -/
def IsI32 (n : Int) : Prop := -2 ^ 31 ≤ n ∧ n < 2 ^ 31

instance (n : Int) : Decidable (IsI32 n) := inferInstanceAs (Decidable (_ ∧ _))

/-- The integer that a sign and digits stand for. -/
def i32FromStr (number : Option Char × List Char) : Except TextErr Int :=
  let magnitude : Int := Nat.ofDigitChars 10 number.2 0
  let n := if number.1 = some '-' then -magnitude else magnitude
  if IsI32 n then .ok n else .error .invalidNumber

/-- Parse a number: an optional `+` or `-` followed by digits. -/
def i32Parse : TextParser Int :=
  ((optional ((char '+').or (char '-'))).andThen (fun sign =>
    (many1 digit).map (fun digits => (sign, digits)))).convert i32FromStr

def printInt : Int → List Char
  | .ofNat n => Nat.toDigits 10 n
  | .negSucc n => '-' :: Nat.toDigits 10 (n + 1)

/-! ## The printer -/

section Printer

variable (nonPrintable : Char → Bool) (attrText : Attr → List Char)

def printSource : Source → List Char
  | .file path => quoted nonPrintable path
  | .inMemory => Keyword.inMemory

def printPosition (pos : SourcePosition) : List Char :=
  Keyword.line ++ ':' :: ' ' :: printInt pos.line ++ ',' :: ' ' ::
    (Keyword.column ++ ':' :: ' ' :: printInt pos.column)

def printMetadata : Option Attr → List Char
  | none => []
  | some metadata => '<' :: attrText metadata ++ ['>']

mutual

def print : Location Attr → List Char
  | .srcPos src pos => printSource nonPrintable src ++ ':' :: ' ' :: printPosition pos
  | .fused metadata locations =>
      Keyword.fused ++ printMetadata attrText metadata ++ '[' :: printList locations ++ [']']
  | .named name childLoc =>
      Keyword.name ++ ':' :: ' ' :: quoted nonPrintable name ++ ',' :: ' ' ::
        (Keyword.loc ++ ':' :: ' ' :: '(' :: print childLoc ++ [')'])
  | .callSite callee caller =>
      Keyword.callsite ++ '(' :: print callee ++ ' ' :: (Keyword.atCaller ++ ' ' :: print caller) ++
        [')']
  | .unknown => ['?']

/-- Locations, separated by commas. -/
def printList : List (Location Attr) → List Char
  | [] => []
  | loc :: locs => print loc ++ printTail locs

/-- The locations after the first one. -/
def printTail : List (Location Attr) → List Char
  | [] => []
  | loc :: locs => ',' :: ' ' :: print loc ++ printTail locs

end

end Printer

/-! ## The parser -/

def sourceParse : TextParser Source :=
  (quotedStringParse.map Source.file).or ((string Keyword.inMemory).map (fun _ => .inMemory))

def positionParse : TextParser SourcePosition :=
  ((string Keyword.line).skip (spaced (char ':'))).andThen (fun _ =>
    (i32Parse.skip (spaced (char ','))).andThen (fun line =>
      ((string Keyword.column).skip (spaced (char ':'))).andThen (fun _ =>
        i32Parse.map (fun column => ⟨line, column⟩))))

/-- Parse a list of objects. -/
def listParser {A : Type} (sep : Char) (p : TextParser A) : TextParser (List A) :=
  sepBy (p.skip spaces) ((char sep).skip spaces)

/-- Parse a delimited list of objects. -/
def delimitedListParser {A : Type} (opening closing sep : Char) (p : TextParser A) :
    TextParser (List A) :=
  between ((char opening).skip spaces) (spaces.withRight (char closing)) (listParser sep p)

section Parser

variable (attrParse : TextParser Attr)

def srcPosParser : TextParser (Location Attr) :=
  (sourceParse.skip (spaced (char ':'))).andThen (fun src =>
    positionParse.map (fun pos => .srcPos src pos))

def fusedParser (location : TextParser (Location Attr)) : TextParser (Location Attr) :=
  ((string Keyword.fused).skip spaces).withRight
    ((optional (between (char '<') (char '>') (spaced attrParse))).andThen (fun metadata =>
      (delimitedListParser '[' ']' ',' location).map (fun locations => .fused metadata locations)))

def namedParser (location : TextParser (Location Attr)) : TextParser (Location Attr) :=
  ((string Keyword.name).skip (spaced (char ':'))).andThen (fun _ =>
    (quotedStringParse.skip (spaced (char ','))).andThen (fun name =>
      ((string Keyword.loc).skip (spaced (char ':'))).andThen (fun _ =>
        (between (char '(') (char ')') location).map (fun childLoc => .named name childLoc))))

def callsiteParser (location : TextParser (Location Attr)) : TextParser (Location Attr) :=
  (string Keyword.callsite).withRight (between (spaced (char '(')) (spaced (char ')'))
    ((location.skip (spaced (string Keyword.atCaller))).andThen (fun callee =>
      location.map (fun caller => .callSite callee caller))))

def unknownParser : TextParser (Location Attr) := (char '?').map (fun _ => .unknown)

/-- Parse a location, with at most `fuel` nested ones on the way. -/
def parseFuel : Nat → TextParser (Location Attr)
  | 0 => fun _ => none
  | fuel + 1 =>
      (((srcPosParser.or (fusedParser attrParse (parseFuel fuel))).or
        (namedParser (parseFuel fuel))).or (callsiteParser (parseFuel fuel))).or unknownParser

/-- Parse a location. -/
def parse : TextParser (Location Attr) := fun s => parseFuel attrParse (s.length + 1) s

end Parser

end Pliron.Text
