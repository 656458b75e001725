/-
Ipfrs.TensorLogic.SymbolicText — printing expressions and parsing them
(`symbolic_expression_simplifier.rs`).

Decimals are read exactly. The Unicode tables and the text of numbers that are no integers
are left open (`SesText`).
-/
import Ipfrs.Lib.DebugText
import Ipfrs.TensorLogic.Symbolic
import Mathlib.Algebra.Order.Floor.Ring

namespace Ipfrs.TensorLogic.Symbolic

open Ipfrs.Lib.DebugText.Printer

/-- What the standard library knows of characters, and how it writes a number. -/
class SesText (F : Type) where
  isWhitespace : Char → Bool
  isAlphabetic : Char → Bool
  isNumeric : Char → Bool
  /-- `str::to_lowercase`. -/
  toLowercase : String → String
  displayF64 : F → String
  debugF64 : F → String
  debugStr : String → String

/-! ## Printing -/

inductive Precedence
  | lowest
  | addSub
  | mulDiv
  | unary
  | pow
  deriving DecidableEq

def Precedence.rank : Precedence → Nat
  | .lowest => 0
  | .addSub => 1
  | .mulDiv => 2
  | .unary => 3
  | .pow => 4

def parenIf (s : String) (myPrec parentPrec : Precedence) : String :=
  if myPrec.rank < parentPrec.rank then "(" ++ s ++ ")" else s

section Print

variable {F : Type} [Field F] [LinearOrder F] [FloorRing F] [SesText F]

def infixStr : SesExpr F → Precedence → String
  | .num v, _ =>
    if Int.fract v = 0 ∧ |v| < 10 ^ 15 then String.ofList (intText ⌊v⌋) else SesText.displayF64 v
  | .var name, _ => name
  | .add l r, parentPrec =>
    parenIf (infixStr l .addSub ++ " + " ++ infixStr r .addSub) .addSub parentPrec
  | .sub l r, parentPrec =>
    parenIf (infixStr l .addSub ++ " - " ++ infixStr r .mulDiv) .addSub parentPrec
  | .mul l r, parentPrec =>
    parenIf (infixStr l .mulDiv ++ " * " ++ infixStr r .mulDiv) .mulDiv parentPrec
  | .div l r, parentPrec =>
    parenIf (infixStr l .mulDiv ++ " / " ++ infixStr r .unary) .mulDiv parentPrec
  | .pow b exp, parentPrec =>
    parenIf (infixStr b .unary ++ " ^ " ++ infixStr exp .pow) .pow parentPrec
  | .neg inner, parentPrec => parenIf ("-" ++ infixStr inner .unary) .unary parentPrec
  | .abs inner, _ => "|" ++ infixStr inner .lowest ++ "|"
  | .sqrt inner, _ => "sqrt(" ++ infixStr inner .lowest ++ ")"
  | .sin inner, _ => "sin(" ++ infixStr inner .lowest ++ ")"
  | .cos inner, _ => "cos(" ++ infixStr inner .lowest ++ ")"
  | .exp inner, _ => "exp(" ++ infixStr inner .lowest ++ ")"
  | .ln inner, _ => "ln(" ++ infixStr inner .lowest ++ ")"

/-- `to_string`. -/
def SesExpr.toText (e : SesExpr F) : String := infixStr e .lowest

end Print

/-! ## Tokens -/

inductive Token (F : Type)
  | num (v : F)
  | ident (name : String)
  | plus
  | minus
  | star
  | slash
  | caret
  | lParen
  | rParen
  | pipe
  deriving DecidableEq

/-- `{:?}`. -/
def Token.debug {F : Type} [SesText F] : Token F → String
  | .num v => "Num(" ++ SesText.debugF64 v ++ ")"
  | .ident name => "Ident(" ++ SesText.debugStr F name ++ ")"
  | .plus => "Plus"
  | .minus => "Minus"
  | .star => "Star"
  | .slash => "Slash"
  | .caret => "Caret"
  | .lParen => "LParen"
  | .rParen => "RParen"
  | .pipe => "Pipe"

/-- The digits, with a point among them or not. -/
def decimal (F : Type) [Field F] (mantissa : List Char) : Option F :=
  let whole := mantissa.takeWhile Char.isDigit
  match mantissa.dropWhile Char.isDigit with
  | [] => if whole = [] then none else some (Nat.ofDigitChars 10 whole 0)
  | '.' :: fraction =>
    if whole ++ fraction = [] ∨ !fraction.all Char.isDigit then none
    else some (Nat.ofDigitChars 10 (whole ++ fraction) 0 / 10 ^ fraction.length)
  | _ => none

def isExponentMark (c : Char) : Bool := c == 'e' || c == 'E'

/-- A sign that may be there, and what follows it. -/
def splitSign : List Char → List Char × List Char
  | c :: cs => if c = '+' ∨ c = '-' then ([c], cs) else ([], c :: cs)
  | [] => ([], [])

/-- `str::parse::<f64>` of what `tokenize` takes for a number. -/
def parseF64 (F : Type) [Field F] (text : List Char) : Option F :=
  let mantissa := text.takeWhile (!isExponentMark ·)
  match text.dropWhile (!isExponentMark ·) with
  | [] => decimal F mantissa
  | _ :: exponent =>
    let (sign, digits) := splitSign exponent
    if digits = [] ∨ !digits.all Char.isDigit then none
    else
      let n := Nat.ofDigitChars 10 digits 0
      (decimal F mantissa).map fun v => if sign = ['-'] then v / 10 ^ n else v * 10 ^ n

def isNumberChar (c : Char) : Bool := c.isDigit || c == '.'

/-- The text of a number, and what follows it. -/
def splitNumber (cs : List Char) : List Char × List Char :=
  let digits := cs.takeWhile isNumberChar
  match cs.dropWhile isNumberChar with
  | c :: rest =>
    if isExponentMark c then
      let (sign, rest) := splitSign rest
      (digits ++ c :: sign ++ rest.takeWhile Char.isDigit, rest.dropWhile Char.isDigit)
    else (digits, c :: rest)
  | [] => (digits, [])

section Tokenize

variable (F : Type) [Field F] [SesText F]

def isAlphanumeric (c : Char) : Bool := SesText.isAlphabetic F c || SesText.isNumeric F c

def isIdentChar (c : Char) : Bool := isAlphanumeric F c || c == '_'

/-- A digit, or a point before a digit. -/
def startsNumber (c : Char) (cs : List Char) : Bool :=
  c.isDigit || c == '.' && cs.head?.any Char.isDigit

def startsIdent (c : Char) : Bool := SesText.isAlphabetic F c || c == '_'

def symbol : Char → Option (Token F)
  | '+' => some .plus
  | '-' => some .minus
  | '*' => some .star
  | '/' => some .slash
  | '^' => some .caret
  | '(' => some .lParen
  | ')' => some .rParen
  | '|' => some .pipe
  | _ => none

theorem length_splitSign (cs : List Char) : (splitSign cs).2.length ≤ cs.length := by
  cases cs with
  | nil => exact le_rfl
  | cons c cs =>
    rw [splitSign]
    split
    · exact Nat.le_succ _
    · exact le_rfl

theorem length_splitNumber {c : Char} (h : isNumberChar c) (cs : List Char) :
    (splitNumber (c :: cs)).2.length ≤ cs.length := by
  have hdrop := (List.dropWhile_suffix isNumberChar (l := cs)).length_le
  rw [splitNumber, List.dropWhile_cons_of_pos h]
  split
  · next d rest hrest =>
    rw [hrest, List.length_cons] at hdrop
    split
    · have hdigits := (List.dropWhile_suffix Char.isDigit (l := (splitSign rest).2)).length_le
      exact (hdigits.trans (length_splitSign rest)).trans (by omega)
    · exact hdrop
  · exact Nat.zero_le _

theorem isNumberChar_of_startsNumber {c : Char} {cs : List Char} (h : startsNumber c cs) :
    isNumberChar c := by
  rw [startsNumber, Bool.or_eq_true, Bool.and_eq_true] at h
  rw [isNumberChar, Bool.or_eq_true]
  exact h.imp_right And.left

omit [Field F] in
theorem isIdentChar_of_startsIdent {c : Char} (h : startsIdent F c) : isIdentChar F c := by
  rw [startsIdent, Bool.or_eq_true] at h
  rw [isIdentChar, isAlphanumeric, Bool.or_eq_true, Bool.or_eq_true]
  exact h.imp_left .inl

def tokenize : List Char → Except SesError (List (Token F))
  | [] => .ok []
  | c :: cs =>
    if SesText.isWhitespace F c then tokenize cs
    else if hnumber : startsNumber c cs then
      have := length_splitNumber (isNumberChar_of_startsNumber hnumber) cs
      let text := (splitNumber (c :: cs)).1
      match parseF64 F text with
      | none => .error (.parseError ("invalid number: " ++ String.ofList text))
      | some v => return .num v :: (← tokenize (splitNumber (c :: cs)).2)
    else if hident : startsIdent F c then
      have : ((c :: cs).dropWhile (isIdentChar F)).length ≤ cs.length := by
        rw [List.dropWhile_cons_of_pos (isIdentChar_of_startsIdent F hident)]
        exact (List.dropWhile_suffix _).length_le
      let name := String.ofList ((c :: cs).takeWhile (isIdentChar F))
      return .ident name :: (← tokenize ((c :: cs).dropWhile (isIdentChar F)))
    else
      match symbol F c with
      | none => .error (.parseError ("unexpected character: '" ++ c.toString ++ "'"))
      | some token => return token :: (← tokenize cs)
  termination_by cs => cs.length

end Tokenize

/-! ## The parser -/

section Parser

variable {F : Type} [LinearOrder F] [SesText F]

/-- What is parsed from tokens, with the tokens after it. -/
abbrev Parsed (α : Type) (ts : List (Token F)) : Type :=
  Except SesError (α × {rest : List (Token F) // rest.length < ts.length})

def expect (expected : Token F) : (ts : List (Token F)) → Parsed Unit ts
  | t :: ts =>
    if t = expected then .ok ((), ⟨ts, Nat.lt_succ_self _⟩)
    else .error (.parseError ("expected " ++ expected.debug ++ ", got " ++ t.debug))
  | [] => .error (.parseError ("expected " ++ expected.debug ++ ", got EOF"))

variable (F) in
/-- A function by its name. -/
def functionCall (name : String) (arg : SesExpr F) : Except SesError (SesExpr F) :=
  match SesText.toLowercase F name with
  | "sin" => .ok (.sin arg)
  | "cos" => .ok (.cos arg)
  | "exp" => .ok (.exp arg)
  | "ln" | "log" => .ok (.ln arg)
  | "sqrt" => .ok (.sqrt arg)
  | "abs" => .ok (.abs arg)
  | "neg" => .ok (.neg arg)
  | other => .error (.parseError ("unknown function: " ++ other))

mutual

def parseExpr (ts : List (Token F)) : Parsed (SesExpr F) ts := parseAdditive ts
  termination_by (ts.length, 5)

def parseAdditive (ts : List (Token F)) : Parsed (SesExpr F) ts := do
  let (lhs, ⟨rest, h⟩) ← parseMultiplicative ts
  let (e, ⟨rest', h'⟩) ← additiveLoop lhs rest
  return (e, ⟨rest', by omega⟩)
  termination_by (ts.length, 4)

/-- The loop of `parse_additive`. -/
def additiveLoop (lhs : SesExpr F) : (ts : List (Token F)) →
    Except SesError (SesExpr F × {rest : List (Token F) // rest.length ≤ ts.length})
  | .plus :: ts => do
      let (rhs, ⟨rest, h⟩) ← parseMultiplicative ts
      let (e, ⟨rest', h'⟩) ← additiveLoop (.add lhs rhs) rest
      return (e, ⟨rest', by simp only [List.length_cons]; omega⟩)
  | .minus :: ts => do
      let (rhs, ⟨rest, h⟩) ← parseMultiplicative ts
      let (e, ⟨rest', h'⟩) ← additiveLoop (.sub lhs rhs) rest
      return (e, ⟨rest', by simp only [List.length_cons]; omega⟩)
  | ts => return (lhs, ⟨ts, le_rfl⟩)
  termination_by ts => (ts.length, 0)

def parseMultiplicative (ts : List (Token F)) : Parsed (SesExpr F) ts := do
  let (lhs, ⟨rest, h⟩) ← parsePower ts
  let (e, ⟨rest', h'⟩) ← multiplicativeLoop lhs rest
  return (e, ⟨rest', by omega⟩)
  termination_by (ts.length, 3)

/-- The loop of `parse_multiplicative`. -/
def multiplicativeLoop (lhs : SesExpr F) : (ts : List (Token F)) →
    Except SesError (SesExpr F × {rest : List (Token F) // rest.length ≤ ts.length})
  | .star :: ts => do
      let (rhs, ⟨rest, h⟩) ← parsePower ts
      let (e, ⟨rest', h'⟩) ← multiplicativeLoop (.mul lhs rhs) rest
      return (e, ⟨rest', by simp only [List.length_cons]; omega⟩)
  | .slash :: ts => do
      let (rhs, ⟨rest, h⟩) ← parsePower ts
      let (e, ⟨rest', h'⟩) ← multiplicativeLoop (.div lhs rhs) rest
      return (e, ⟨rest', by simp only [List.length_cons]; omega⟩)
  | ts => return (lhs, ⟨ts, le_rfl⟩)
  termination_by ts => (ts.length, 0)

def parsePower (ts : List (Token F)) : Parsed (SesExpr F) ts := do
  match ← parseUnary ts with
  | (base, ⟨.caret :: rest, h⟩) =>
    have : rest.length < ts.length := (Nat.lt_succ_self _).trans h
    let (exp, ⟨rest', h'⟩) ← parsePower rest
    return (.pow base exp, ⟨rest', h'.trans this⟩)
  | (base, rest) => return (base, rest)
  termination_by (ts.length, 2)

def parseUnary : (ts : List (Token F)) → Parsed (SesExpr F) ts
  | .minus :: ts => do
      let (inner, ⟨rest, h⟩) ← parseUnary ts
      return (.neg inner, ⟨rest, Nat.lt_succ_of_lt h⟩)
  | ts => parseAtom ts
  termination_by ts => (ts.length, 1)

def parseAtom : (ts : List (Token F)) → Parsed (SesExpr F) ts
  | .num v :: ts => .ok (.num v, ⟨ts, Nat.lt_succ_self _⟩)
  | .ident name :: .lParen :: ts => do
      let (arg, ⟨rest, h⟩) ← parseExpr ts
      let ((), ⟨rest', h'⟩) ← expect .rParen rest
      let e ← functionCall F name arg
      return (e, ⟨rest', by simp only [List.length_cons]; omega⟩)
  | .ident name :: ts => .ok (.var name, ⟨ts, Nat.lt_succ_self _⟩)
  | .lParen :: ts => do
      let (inner, ⟨rest, h⟩) ← parseExpr ts
      let ((), ⟨rest', h'⟩) ← expect .rParen rest
      return (inner, ⟨rest', by simp only [List.length_cons]; omega⟩)
  | .pipe :: ts => do
      let (inner, ⟨rest, h⟩) ← parseExpr ts
      let ((), ⟨rest', h'⟩) ← expect .pipe rest
      return (.abs inner, ⟨rest', by simp only [List.length_cons]; omega⟩)
  | t :: _ => .error (.parseError ("unexpected token: " ++ t.debug))
  | [] => .error (.parseError "unexpected end of input")
  termination_by ts => (ts.length, 0)

end

def parse [Field F] (s : String) : Except SesError (SesExpr F) := do
  let tokens ← tokenize F s.toList
  let (expr, ⟨rest, _⟩) ← parseExpr tokens
  if rest = [] then return expr
  else
    .error (.parseError
      ("unexpected token at position " ++ toString (tokens.length - rest.length)))

end Parser

end Ipfrs.TensorLogic.Symbolic
