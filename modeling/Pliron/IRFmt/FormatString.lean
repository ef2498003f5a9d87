/-
  Pliron.IRFmt.FormatString

  Format strings and their parser.

  Positions of elements are left out.  Letters and numbers beyond ASCII are those of the standard
  library's tables, a parameter.
-/

import Pliron.IRFmt.ListText
import Pliron.IRFmt.PrimitiveText

namespace Pliron.Derive

open Pliron.Text Pliron.Lib.Combine Pliron.Lib.Combine.Parser

/-! ## Formats -/

/-- A single element term in a format string. -/
inductive Elem where
  /-- A custom string enclosed in backticks, with its escapes as they are written. -/
  | lit (lit : String)
  | var (name : String)
  | unnamedVar (index : Nat)
  | directive (name : String) (args : List Elem)

/-- A parsed format string: a sequence of literals, variables and directives. -/
structure Format where
  elems : List Elem

/-! ## The parser -/

def backtick : Char := '\x60'

def isLitChar (c : Char) : Bool := c != backtick && c != backslash

/-- The characters that may follow a backslash in a literal. -/
def isEscape (c : Char) : Bool :=
  c == backtick || c == 'n' || c == 'r' || c == 't' || c == backslash

/-- The text of a literal: characters, and escapes that are kept as they are written. -/
def litBody : TextParser (List Char) :=
  (many (((satisfy .unexpected isLitChar).map (fun c => [c])).or
    ((char backslash).withRight ((satisfy .unexpected isEscape).map (fun c => [backslash, c]))))).map
    List.flatten

def parseLit : TextParser Elem :=
  (between (char backtick) (char backtick) litBody).map (fun s => .lit (String.ofList s))

/-- The number that a text stands for, if it fits into 64 bits. -/
def usizeFromStr (s : List Char) : Option Nat :=
  if s.all Char.isDigit = true ∧ Nat.ofDigitChars 10 s 0 < 2 ^ 64 then
    some (Nat.ofDigitChars 10 s 0)
  else none

/-- A variable is unnamed if it is a number. -/
def varOf (s : List Char) : Elem :=
  match usizeFromStr s with
  | some n => .unnamedVar n
  | none => .var (String.ofList s)

section Parser

variable (u : UnicodeTables)

def parseVar : TextParser Elem :=
  ((char '$').withRight (many1 (satisfy .unexpected (isWordChar u)))).map varOf

/-- The characters of the name of a directive. -/
def isDirectiveChar (c : Char) : Bool := isWordChar u c || c == '-'

/-- Parse a directive, with the parser of its arguments. -/
def parseDirective (elem : TextParser Elem) : TextParser Elem :=
  ((many1 (satisfy .unexpected (isDirectiveChar u))).skip spaces).andThen (fun name =>
    (optional (between (char '(') (char ')') (sepBy elem (char ',')))).map (fun args =>
      .directive (String.ofList name) (args.getD [])))

/-- Parse an element, with at most `fuel` nested ones on the way. -/
def parseFmtElemFuel : Nat → TextParser Elem
  | 0 => fun _ => none
  | fuel + 1 =>
      (spaces.withRight
        ((parseLit.or (parseVar u)).or (parseDirective u (parseFmtElemFuel fuel)))).skip spaces

def parseFmtElem : TextParser Elem := fun s => parseFmtElemFuel u (s.length + 1) s

def parseFmtElems : TextParser (List Elem) := many (parseFmtElem u)

/-- Parse a format string; what the parser of elements leaves is ignored. -/
def parse (input : String) : Option (Except TextErr Format) := do
  match ← parseFmtElems u input.toList with
  | .ok _ elems _ => some (.ok ⟨elems⟩)
  | .err _ e => some (.error e)

end Parser

/-! ## The grammar -/

/-- The text of a literal. -/
inductive IsLitBody : List Char → Prop where
  | nil : IsLitBody []
  | plain {c : Char} {s : List Char} (hc : isLitChar c = true) (hs : IsLitBody s) :
      IsLitBody (c :: s)
  | escape {c : Char} {s : List Char} (hc : isEscape c = true) (hs : IsLitBody s) :
      IsLitBody (backslash :: c :: s)

/-- What can stand in a format string. -/
inductive Symbol where
  /-- One element, with white space around it. -/
  | elem
  /-- A sequence of elements. -/
  | elems
  /-- The arguments of a directive, up to the closing parenthesis. -/
  | args
  /-- The arguments after the first one. -/
  | moreArgs

section Grammar

variable (u : UnicodeTables)

/-- No character follows that can go on with the name of a directive. -/
def NoDirective (s : List Char) : Prop := ∀ c ∈ s.head?, isDirectiveChar u c = false

/-- The words that can stand for variables, each with the variable, and for the names of
    directives. -/
structure Words where
  var : List Char → Elem → Prop
  directive : List Char → Prop

/-- A letter or an underscore, and then characters of the given kind. -/
def BeginsWithLetter (more : Char → Bool) (word : List Char) : Prop :=
  ∃ c rest, word = c :: rest ∧ (u.isAlphabetic c = true ∨ c = '_') ∧ ∀ d ∈ rest, more d = true

def IsIdentifier (word : List Char) : Prop := BeginsWithLetter u (isWordChar u) word

/-- The names of directives are identifiers in which hyphens may stand. -/
def IsDirectiveName (word : List Char) : Prop := BeginsWithLetter u (isDirectiveChar u) word

def IsNumber (word : List Char) : Prop := word ≠ [] ∧ ∀ c ∈ word, c.isDigit = true

/-- The documented words: a variable is an identifier or a number. -/
def documented : Words where
  var word e := (IsIdentifier u word ∧ e = .var (String.ofList word)) ∨
    (IsNumber word ∧ e = .unnamedVar (Nat.ofDigitChars 10 word 0))
  directive := IsDirectiveName u

/-- Any words: a number of 64 bits is an unnamed variable, and everything else a name. -/
def loose : Words where
  var word e := word ≠ [] ∧ (∀ c ∈ word, isWordChar u c = true) ∧ e = varOf word
  directive name := name ≠ [] ∧ ∀ c ∈ name, isDirectiveChar u c = true

/-- The documented grammar, over the given words: the first text is that of the elements, up to
    the second one.

    Words reach as far as they can, and so does the white space after an element; no word begins
    with white space. -/
inductive Written (w : Words) : Symbol → List Char → List Elem → List Char → Prop where
  | lit {ws body ws' rest : List Char} (hws : AllSpace ws) (hbody : IsLitBody body)
      (hws' : AllSpace ws') (hrest : NoSpace rest) :
      Written w .elem (ws ++ backtick :: (body ++ backtick :: (ws' ++ rest)))
        [.lit (String.ofList body)] rest
  | var {ws word ws' rest : List Char} {e : Elem} (hws : AllSpace ws) (hvar : w.var word e)
      (hend : NoWord u (ws' ++ rest)) (hws' : AllSpace ws') (hrest : NoSpace rest) :
      Written w .elem (ws ++ '$' :: (word ++ (ws' ++ rest))) [e] rest
  | directive {ws name ws' rest : List Char} (hws : AllSpace ws) (hname : w.directive name)
      (hstart : NoSpace name) (hend : NoDirective u (ws' ++ rest))
      (hws' : AllSpace ws') (hrest : NoSpace rest) (hopen : rest.head? ≠ some '(') :
      Written w .elem (ws ++ (name ++ (ws' ++ rest))) [.directive (String.ofList name) []] rest
  | directiveArgs {ws name ws₁ s ws' rest : List Char} {args : List Elem} (hws : AllSpace ws)
      (hname : w.directive name) (hstart : NoSpace name)
      (hend : NoDirective u (ws₁ ++ '(' :: s)) (hws₁ : AllSpace ws₁)
      (hargs : Written w .args s args (')' :: (ws' ++ rest)))
      (hws' : AllSpace ws') (hrest : NoSpace rest) :
      Written w .elem (ws ++ (name ++ (ws₁ ++ '(' :: s))) [.directive (String.ofList name) args]
        rest
  | noArgs {rest : List Char} : Written w .args (')' :: rest) [] (')' :: rest)
  | args {s s' rest : List Char} {e : Elem} {es : List Elem} (helem : Written w .elem s [e] s')
      (hmore : Written w .moreArgs s' es rest) : Written w .args s (e :: es) rest
  | noMoreArgs {rest : List Char} : Written w .moreArgs (')' :: rest) [] (')' :: rest)
  | moreArgs {s s' rest : List Char} {e : Elem} {es : List Elem}
      (helem : Written w .elem s [e] s') (hmore : Written w .moreArgs s' es rest) :
      Written w .moreArgs (',' :: s) (e :: es) rest
  | noElems {rest : List Char} : Written w .elems rest [] rest
  | elems {s s' rest : List Char} {e : Elem} {es : List Elem} (helem : Written w .elem s [e] s')
      (hmore : Written w .elems s' es rest) : Written w .elems s (e :: es) rest

/-- No element can begin here. -/
def Stops (s : List Char) : Prop :=
  ∀ c ∈ s.head?, isWhitespace c = false ∧ c ≠ backtick ∧ c ≠ '$' ∧ isDirectiveChar u c = false

/-- The words of an element, and of its arguments, are documented ones. -/
inductive Documented : Elem → Prop where
  | lit (lit : String) : Documented (.lit lit)
  | var {name : String} (hname : IsIdentifier u name.toList) : Documented (.var name)
  | unnamedVar (index : Nat) : Documented (.unnamedVar index)
  | directive {name : String} {args : List Elem} (hname : IsDirectiveName u name.toList)
      (hargs : ∀ e ∈ args, Documented e) : Documented (.directive name args)

end Grammar

end Pliron.Derive
