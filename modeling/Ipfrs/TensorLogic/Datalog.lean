/-
Ipfrs.TensorLogic.Datalog — the parser of Datalog texts (`datalog.rs`).

The parser keeps its input and a position in bytes. Every look at the input is a slice,
which panics where no character begins; `Halt` tells this from an `Err` of the parser, and
from a run with too few rounds for its loops. The state after an `Err` is kept: a parser can
be asked for another statement. The Unicode tables are those of the standard library.
-/
import Ipfrs.Lib.Cursor
import Ipfrs.Lib.DebugText
import Ipfrs.TensorLogic.Ir

namespace Ipfrs.TensorLogic

open Ipfrs.Lib

/-- The Unicode properties of a character. -/
class CharTables where
  isAlphanumeric : Char → Bool
  isUppercase : Char → Bool
  isLowercase : Char → Bool
  isWhitespace : Char → Bool

/-- What is documented of them: the values for ASCII, and how the properties exclude each
other. -/
class CharTables.Lawful [CharTables] : Prop where
  alphanumeric_ascii : ∀ c : Char, c.toNat < 128 →
    CharTables.isAlphanumeric c = c.isAlphanum
  uppercase_ascii : ∀ c : Char, c.toNat < 128 → CharTables.isUppercase c = c.isUpper
  lowercase_ascii : ∀ c : Char, c.toNat < 128 → CharTables.isLowercase c = c.isLower
  whitespace_ascii : ∀ c : Char, c.toNat < 128 →
    CharTables.isWhitespace c = (c == ' ' || decide (9 ≤ c.toNat ∧ c.toNat ≤ 13))
  not_whitespace : ∀ c, CharTables.isAlphanumeric c = true → CharTables.isWhitespace c = false
  not_uppercase : ∀ c, CharTables.isLowercase c = true → CharTables.isUppercase c = false

/-- `ParseError`. -/
structure ParseError where
  message : String
  position : Nat
  deriving DecidableEq

/-- Why a computation has no value. -/
inductive Halt where
  | error (e : ParseError)
  /-- A slice that begins or ends inside a character, or past the end. -/
  | panic
  | unfinished
  deriving DecidableEq

/-- `DatalogParser`. -/
structure DatalogParser where
  input : List Char
  position : Nat
  deriving DecidableEq

/-- `Statement`. -/
inductive Statement where
  | fact (predicate : Predicate)
  | rule (rule : Rule)
  | query (predicate : Predicate)

/-- A computation on a parser. -/
def Parse (α : Type) : Type := DatalogParser → Except Halt α × DatalogParser

namespace Parse

variable {α β : Type}

instance : Monad Parse where
  pure a := fun p => (.ok a, p)
  bind m f := fun p => match m p with
    | (.ok a, p') => f a p'
    | (.error h, p') => (.error h, p')

def halt (h : Halt) : Parse α := fun p => (.error h, p)

def position : Parse Nat := fun p => (.ok p.position, p)

/-- `Err`, at the position of the parser. -/
def fail (message : String) : Parse α := fun p =>
  (.error (.error { message, position := p.position }), p)

/-- `&self.input[start..stop]`. -/
def slice (start stop : Nat) : Parse (List Char) := fun p =>
  match sliceBytes p.input start stop with
  | some text => (.ok text, p)
  | none => (.error .panic, p)

def peekChar : Parse (Option Char) := fun p =>
  match dropBytes p.input p.position with
  | some rest => (.ok rest.head?, p)
  | none => (.error .panic, p)

def peekStr (n : Nat) : Parse (Option (List Char)) := fun p =>
  if p.position + n ≤ byteLength p.input then (some <$> slice p.position (p.position + n)) p
  else (.ok none, p)

def moveBy (n : Nat) : Parse Unit := fun p => (.ok (), { p with position := p.position + n })

def advance : Parse Unit := do
  match ← peekChar with
  | some ch => moveBy ch.utf8Size
  | none => pure ()

def advanceIf (condition : Bool) : Parse Unit := if condition then advance else pure ()

/-- Advance while the next character has a property. -/
def advanceWhile (property : Char → Bool) : Nat → Parse Unit
  | 0 => halt .unfinished
  | rounds + 1 => do
      match ← peekChar with
      | some ch =>
        if property ch then do
          advance
          advanceWhile property rounds
        else pure ()
      | none => pure ()

/-- The rest of a line, its end included. -/
def skipComment : Nat → Parse Unit
  | 0 => halt .unfinished
  | rounds + 1 => do
      match ← peekChar with
      | some ch => do
          advance
          if ch = '\n' then pure () else skipComment rounds
      | none => pure ()

variable [CharTables]

def skipWhitespace : Nat → Parse Unit
  | 0 => halt .unfinished
  | rounds + 1 => do
      match ← peekChar with
      | some ch =>
        if CharTables.isWhitespace ch then do
          advance
          skipWhitespace rounds
        else if ch = '%' then do
          skipComment (rounds + 1)
          skipWhitespace rounds
        else pure ()
      | none => pure ()

def expectChar (expected : Char) (rounds : Nat) : Parse Unit := do
  skipWhitespace rounds
  match ← peekChar with
  | none => fail ("Expected '" ++ expected.toString ++ "' but found end of input")
  | some ch =>
    if ch = expected then advance
    else fail ("Expected '" ++ expected.toString ++ "' but found '" ++ ch.toString ++ "'")

def isIdentifierChar (ch : Char) : Bool := CharTables.isAlphanumeric ch || ch == '_'

def parseIdentifier (rounds : Nat) : Parse String := do
  let start ← position
  advanceWhile isIdentifierChar rounds
  let stop ← position
  if stop = start then fail "Expected identifier"
  else do
    let text ← slice start stop
    pure (String.ofList text)

omit [CharTables] in
/-- The characters up to the closing quote; nothing is escaped. -/
def parseString (rounds : Nat) : Parse String := do
  let start ← position
  advanceWhile (fun ch => ch != '"') rounds
  let stop ← position
  let text ← slice start stop
  pure (String.ofList text)

omit [CharTables] in
def parseNumber (rounds : Nat) : Parse Int64 := do
  let start ← position
  advanceIf ((← peekChar) == some '-')
  advanceWhile Char.isDigit rounds
  let stop ← position
  let text ← slice start stop
  match parseI64 text with
  | some value => pure value
  | none => halt (.error { message := "Invalid number", position := start })

/-- The loop of `parse_term_list` and `parse_predicate_list`: items with commas between. -/
def parseItems {α : Type} (item : Parse α) : Nat → Parse (List α)
  | 0 => halt .unfinished
  | rounds + 1 => do
      let a ← item
      skipWhitespace rounds
      if (← peekChar) = some ',' then do
        advance
        skipWhitespace rounds
        let rest ← parseItems item rounds
        pure (a :: rest)
      else pure [a]

/-- `term` is `parse_term`. -/
def parseTermList (term : Parse Term) (rounds : Nat) : Parse (List Term) := do
  if (← peekChar) = some ')' then pure []
  else parseItems term rounds

def parseTerm : Nat → Parse Term
  | 0 => halt .unfinished
  | rounds + 1 => do
      skipWhitespace rounds
      match ← peekChar with
      | none => fail "Unexpected end of input"
      | some ch =>
        if ch = '?' || CharTables.isUppercase ch then do
          advanceIf (ch == '?')
          let name ← parseIdentifier rounds
          pure (.var name)
        else if ch = '"' then do
          advance
          let value ← parseString rounds
          expectChar '"' rounds
          pure (.const (.string value))
        else if ch.isDigit || ch = '-' then do
          let value ← parseNumber rounds
          pure (.const (.int value))
        else if CharTables.isLowercase ch then do
          let name ← parseIdentifier rounds
          skipWhitespace rounds
          if (← peekChar) = some '(' then do
            advance
            skipWhitespace rounds
            let args ← parseTermList (parseTerm rounds) rounds
            skipWhitespace rounds
            expectChar ')' rounds
            pure (.func name args)
          else pure (.const (.string name))
        else fail ("Unexpected character: '" ++ ch.toString ++ "'")

def parsePredicate (rounds : Nat) : Parse Predicate := do
  let name ← parseIdentifier rounds
  skipWhitespace rounds
  expectChar '(' rounds
  skipWhitespace rounds
  let args ← parseTermList (parseTerm rounds) rounds
  skipWhitespace rounds
  expectChar ')' rounds
  pure { name, args }

def parsePredicateList (rounds : Nat) : Parse (List Predicate) :=
  parseItems (parsePredicate rounds) rounds

def parseQuery (rounds : Nat) : Parse Statement := do
  advance
  expectChar '-' rounds
  skipWhitespace rounds
  let predicate ← parsePredicate rounds
  skipWhitespace rounds
  expectChar '.' rounds
  pure (.query predicate)

/-- What follows the head of a fact or a rule. -/
def parseAfterHead (head : Predicate) (rounds : Nat) : Parse Statement := do
  if (← peekChar) = some '.' then do
    advance
    pure (.fact head)
  else if (← peekStr 2) = some [':', '-'] then do
    advance
    advance
    skipWhitespace rounds
    let body ← parsePredicateList rounds
    skipWhitespace rounds
    expectChar '.' rounds
    pure (.rule { head, body })
  else fail "Expected '.' or ':-'"

def parseStatement (rounds : Nat) : Parse Statement := do
  skipWhitespace rounds
  if (← peekChar) = some '?' then parseQuery rounds
  else do
    let head ← parsePredicate rounds
    skipWhitespace rounds
    parseAfterHead head rounds

end Parse

/-- `DatalogParser::new`. -/
def DatalogParser.new (input : String) : DatalogParser := { input := input.toList, position := 0 }

variable [CharTables]

/-- The statement of a text, if it is of one kind. -/
def parseAs {α : Type} (kind : Statement → Option α) (expected : String) (rounds : Nat)
    (input : String) : Except Halt α :=
  match (Parse.parseStatement rounds (DatalogParser.new input)).1 with
  | .error h => .error h
  | .ok statement =>
    match kind statement with
    | some a => .ok a
    | none => .error (.error { message := expected, position := 0 })

def parseFact : Nat → String → Except Halt Predicate :=
  parseAs (fun | .fact fact => some fact | _ => none) "Expected a fact"

def parseRule : Nat → String → Except Halt Rule :=
  parseAs (fun | .rule rule => some rule | _ => none) "Expected a rule"

def parseQuery : Nat → String → Except Halt Predicate :=
  parseAs (fun | .query query => some query | _ => none) "Expected a query"

end Ipfrs.TensorLogic

/-! ## The texts of terms and rules (`ir.rs`)

`Display` of a variable marks it, that of a string constant quotes it without escapes, and
that of a boolean is the bare word. `readBack` is what such a text means to the parser of
`Datalog`, for which a bare word is a string. -/

namespace Ipfrs.TensorLogic

open Ipfrs.Core Ipfrs.Lib DebugText.Printer

/-- Texts with `, ` between two of them. -/
def commaSpaced : List (List Char) → List Char
  | [] => []
  | text :: rest => text ++ rest.flatMap (',' :: ' ' :: ·)

def Constant.display : Constant → List Char
  | .string s => '"' :: (s.toList ++ ['"'])
  | .int i => intText i.toInt
  | .bool b => boolText b
  | .float s => s.toList

section

variable [CidStream]

mutual

def Term.display : Term → List Char
  | .var v => '?' :: v.toList
  | .const c => c.display
  | .func name args => name.toList ++ '(' :: (commaSpaced (Term.allDisplay args) ++ [')'])
  | .ref r => '@' :: (CidStream.display r.cid).toList

def Term.allDisplay : List Term → List (List Char)
  | [] => []
  | t :: ts => t.display :: Term.allDisplay ts

end

def Predicate.display (p : Predicate) : List Char :=
  p.name.toList ++ '(' :: (commaSpaced (p.args.map Term.display) ++ [')'])

def Rule.display (rule : Rule) : List Char :=
  rule.head.display ++
    ((if rule.body.isEmpty then []
      else ' ' :: ':' :: '-' :: ' ' :: commaSpaced (rule.body.map Predicate.display)) ++ ['.'])

/-- `to_string`. -/
def Rule.toString (rule : Rule) : String := String.ofList rule.display

theorem Term.allDisplay_eq_map (ts : List Term) : Term.allDisplay ts = ts.map Term.display := by
  induction ts with
  | nil => rfl
  | cons t ts ih => simp [Term.allDisplay, ih]

end

/-! ## What is read back -/

def Constant.readBack : Constant → Constant
  | .bool b => .string (String.ofList (boolText b))
  | c => c

mutual

/-- A term with the words of its booleans for the booleans. -/
def Term.readBack : Term → Term
  | .const c => .const c.readBack
  | .func name args => .func name (Term.allReadBack args)
  | .var v => .var v
  | .ref r => .ref r

def Term.allReadBack : List Term → List Term
  | [] => []
  | t :: ts => t.readBack :: Term.allReadBack ts

end

def Predicate.readBack (p : Predicate) : Predicate :=
  { p with args := p.args.map Term.readBack }

def Rule.readBack (rule : Rule) : Rule where
  head := rule.head.readBack
  body := rule.body.map Predicate.readBack

theorem Term.allReadBack_eq_map (ts : List Term) : Term.allReadBack ts = ts.map Term.readBack := by
  induction ts with
  | nil => rfl
  | cons t ts ih => simp [Term.allReadBack, ih]

mutual

/-- A boolean is in the term, at some depth. -/
def Term.hasBoolean : Term → Bool
  | .const (.bool _) => true
  | .const _ => false
  | .func _ args => Term.anyBoolean args
  | .var _ | .ref _ => false

def Term.anyBoolean : List Term → Bool
  | [] => false
  | t :: ts => t.hasBoolean || Term.anyBoolean ts

end

def Predicate.hasBoolean (p : Predicate) : Bool := p.args.any Term.hasBoolean

def Rule.hasBoolean (rule : Rule) : Bool :=
  rule.head.hasBoolean || rule.body.any Predicate.hasBoolean

/-! ## Rules of the grammar -/

section

variable [CharTables]

/-- A name of the grammar. -/
def IsIdentifier (name : String) : Prop :=
  name.toList ≠ [] ∧ ∀ c ∈ name.toList, Parse.isIdentifierChar c = true

/-- A string without quotes and backslashes, an integer or a boolean. -/
def Constant.Printable : Constant → Prop
  | .string s => ∀ c ∈ s.toList, c ≠ '"' ∧ c ≠ '\\'
  | .int _ => True
  | .bool _ => True
  | .float _ => False

/-- A term of such constants, with identifiers for names. -/
inductive Term.Printable : Term → Prop where
  | var {v} : IsIdentifier v → Term.Printable (.var v)
  | const {c : Constant} : c.Printable → Term.Printable (.const c)
  | func {name args} : IsIdentifier name → (∀ t ∈ args, Term.Printable t) →
      Term.Printable (.func name args)

def Predicate.Printable (p : Predicate) : Prop :=
  IsIdentifier p.name ∧ ∀ t ∈ p.args, t.Printable

def Rule.Printable (rule : Rule) : Prop :=
  rule.head.Printable ∧ ∀ p ∈ rule.body, p.Printable

/-- A name that begins with a lower-case letter. -/
def BeginsLowercase (name : String) : Prop :=
  ∀ c ∈ name.toList.head?, CharTables.isLowercase c = true

/-- Every function in the term has such a name. -/
inductive Term.LowercaseFunctions : Term → Prop where
  | var {v} : Term.LowercaseFunctions (.var v)
  | const {c} : Term.LowercaseFunctions (.const c)
  | func {name args} : BeginsLowercase name → (∀ t ∈ args, Term.LowercaseFunctions t) →
      Term.LowercaseFunctions (.func name args)
  | ref {r} : Term.LowercaseFunctions (.ref r)

def Predicate.LowercaseFunctions (p : Predicate) : Prop :=
  ∀ t ∈ p.args, t.LowercaseFunctions

def Rule.LowercaseFunctions (rule : Rule) : Prop :=
  rule.head.LowercaseFunctions ∧ ∀ p ∈ rule.body, p.LowercaseFunctions

end

end Ipfrs.TensorLogic
