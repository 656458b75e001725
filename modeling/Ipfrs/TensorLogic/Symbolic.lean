/-
Ipfrs.TensorLogic.Symbolic — expressions, their values and their simplification
(`symbolic_expression_simplifier.rs`).

Numbers are those of an ordered field, so arithmetic is exact and every number is finite;
the other functions of `f64` are those of an `Elementary`. The simplifier is what its
built-in rules make of an expression; the history, the statistics and custom rules are left
out, and a function that only reads them with it.
-/
import Mathlib.Algebra.Order.Field.Basic

namespace Ipfrs.TensorLogic.Symbolic

inductive SesError
  | unboundVariable (name : String)
  | mathDomainError (text : String)
  | parseError (text : String)
  | divisionByZero
  deriving DecidableEq

inductive SesExpr (F : Type)
  | num (v : F)
  | var (name : String)
  | add (l r : SesExpr F)
  | sub (l r : SesExpr F)
  | mul (l r : SesExpr F)
  | div (l r : SesExpr F)
  | pow (base exp : SesExpr F)
  | neg (inner : SesExpr F)
  | abs (inner : SesExpr F)
  | sqrt (inner : SesExpr F)
  | sin (inner : SesExpr F)
  | cos (inner : SesExpr F)
  | exp (inner : SesExpr F)
  | ln (inner : SesExpr F)
  deriving DecidableEq

/-- The functions of `f64` besides its arithmetic. -/
structure Elementary (F : Type) where
  powf : F → F → F
  sqrt : F → F
  sin : F → F
  cos : F → F
  exp : F → F
  ln : F → F

/-! ## Values -/

section Evaluate

variable {F : Type} [Field F] [LinearOrder F] (fn : Elementary F) (vars : String → Option F)

def evaluateInner : SesExpr F → Except SesError F
  | .num v => .ok v
  | .var name => (vars name).elim (.error (.unboundVariable name)) .ok
  | .add l r => do return (← evaluateInner l) + (← evaluateInner r)
  | .sub l r => do return (← evaluateInner l) - (← evaluateInner r)
  | .mul l r => do return (← evaluateInner l) * (← evaluateInner r)
  | .div l r => do
      let denom ← evaluateInner r
      if denom = 0 then .error .divisionByZero
      return (← evaluateInner l) / denom
  | .pow b e => do
      let base ← evaluateInner b
      let exp ← evaluateInner e
      return fn.powf base exp
  | .neg inner => do return -(← evaluateInner inner)
  | .abs inner => do return |← evaluateInner inner|
  | .sqrt inner => do
      let v ← evaluateInner inner
      if v < 0 then .error (.mathDomainError "sqrt of negative number")
      return fn.sqrt v
  | .sin inner => do return fn.sin (← evaluateInner inner)
  | .cos inner => do return fn.cos (← evaluateInner inner)
  | .exp inner => do return fn.exp (← evaluateInner inner)
  | .ln inner => do
      let v ← evaluateInner inner
      if v ≤ 0 then .error (.mathDomainError "ln of non-positive number")
      return fn.ln v

end Evaluate

/-! ## Rules -/

section Rules

variable {F : Type} [Field F] [LinearOrder F]

/-- The numeral `2` has one reading in every field. -/
scoped instance atLeastTwo_two : Nat.AtLeastTwo 2 := ⟨le_refl 2⟩

def isZero : SesExpr F → Bool
  | .num v => v = 0
  | _ => false

def isOne : SesExpr F → Bool
  | .num v => v = 1
  | _ => false

def isTwo : SesExpr F → Bool
  | .num v => v = 2
  | _ => false

def isNum : SesExpr F → Bool
  | .num _ => true
  | _ => false

/-- `is_constant`: no variables. -/
def isConstant : SesExpr F → Bool
  | .num _ => true
  | .var _ => false
  | .add l r | .sub l r | .mul l r | .div l r | .pow l r => isConstant l && isConstant r
  | .neg i | .abs i | .sqrt i | .sin i | .cos i | .exp i | .ln i => isConstant i

def exprsEqual (a b : SesExpr F) : Bool := a = b

def isSinSquared : SesExpr F → Bool
  | .pow (.sin _) exp => isTwo exp
  | _ => false

def isCosSquared : SesExpr F → Bool
  | .pow (.cos _) exp => isTwo exp
  | _ => false

/-- Check if the expression is of the form `sin(x)^2 + cos(x)^2`. -/
def isSin2PlusCos2 : SesExpr F → Bool
  | .add l r => isSinSquared l && isCosSquared r || isCosSquared l && isSinSquared r
  | _ => false

/-- `SesRewriteRule`. -/
structure SesRewriteRule (F : Type) where
  name : String
  pattern : String
  applies : SesExpr F → Bool
  transform : SesExpr F → SesExpr F

def addZeroRight : SesRewriteRule F where
  name := "add_zero_right"
  pattern := "x + 0 => x"
  applies
    | .add _ r => isZero r
    | _ => false
  transform
    | .add l r => if isZero r then l else .add l r
    | e => e

def addZeroLeft : SesRewriteRule F where
  name := "add_zero_left"
  pattern := "0 + x => x"
  applies
    | .add l _ => isZero l
    | _ => false
  transform
    | .add l r => if isZero l then r else .add l r
    | e => e

def subZero : SesRewriteRule F where
  name := "sub_zero"
  pattern := "x - 0 => x"
  applies
    | .sub _ r => isZero r
    | _ => false
  transform
    | .sub l r => if isZero r then l else .sub l r
    | e => e

def zeroSub : SesRewriteRule F where
  name := "zero_sub"
  pattern := "0 - x => -x"
  applies
    | .sub l _ => isZero l
    | _ => false
  transform
    | .sub l r => if isZero l then .neg r else .sub l r
    | e => e

def mulOneRight : SesRewriteRule F where
  name := "mul_one_right"
  pattern := "x * 1 => x"
  applies
    | .mul _ r => isOne r
    | _ => false
  transform
    | .mul l r => if isOne r then l else .mul l r
    | e => e

def mulOneLeft : SesRewriteRule F where
  name := "mul_one_left"
  pattern := "1 * x => x"
  applies
    | .mul l _ => isOne l
    | _ => false
  transform
    | .mul l r => if isOne l then r else .mul l r
    | e => e

def mulZeroRight : SesRewriteRule F where
  name := "mul_zero_right"
  pattern := "x * 0 => 0"
  applies
    | .mul _ r => isZero r
    | _ => false
  transform
    | .mul _ r => if isZero r then .num 0 else .mul (.num 0) r
    | e => e

def mulZeroLeft : SesRewriteRule F where
  name := "mul_zero_left"
  pattern := "0 * x => 0"
  applies
    | .mul l _ => isZero l
    | _ => false
  transform
    | .mul l _ => if isZero l then .num 0 else .mul l (.num 0)
    | e => e

def divOne : SesRewriteRule F where
  name := "div_one"
  pattern := "x / 1 => x"
  applies
    | .div _ r => isOne r
    | _ => false
  transform
    | .div l r => if isOne r then l else .div l r
    | e => e

/-- The denominator is not the literal zero. -/
def zeroDiv : SesRewriteRule F where
  name := "zero_div"
  pattern := "0 / x => 0 (x != 0)"
  applies
    | .div l r => isZero l && !isZero r
    | _ => false
  transform
    | .div l r => if isZero l && !isZero r then .num 0 else .div l r
    | e => e

def powOne : SesRewriteRule F where
  name := "pow_one"
  pattern := "x ^ 1 => x"
  applies
    | .pow _ r => isOne r
    | _ => false
  transform
    | .pow b r => if isOne r then b else .pow b r
    | e => e

def powZero : SesRewriteRule F where
  name := "pow_zero"
  pattern := "x ^ 0 => 1"
  applies
    | .pow _ r => isZero r
    | _ => false
  transform
    | .pow _ r => if isZero r then .num 1 else .pow (.num 0) r
    | e => e

def onePow : SesRewriteRule F where
  name := "one_pow"
  pattern := "1 ^ x => 1"
  applies
    | .pow b _ => isOne b
    | _ => false
  transform
    | .pow b _ => if isOne b then .num 1 else .pow b (.num 0)
    | e => e

def doubleNeg : SesRewriteRule F where
  name := "double_neg"
  pattern := "--x => x"
  applies
    | .neg (.neg _) => true
    | _ => false
  transform
    | .neg (.neg inner) => inner
    | e => e

def subSelf : SesRewriteRule F where
  name := "sub_self"
  pattern := "x - x => 0"
  applies
    | .sub l r => exprsEqual l r
    | _ => false
  transform
    | .sub l r => if exprsEqual l r then .num 0 else .sub l r
    | e => e

def divSelf : SesRewriteRule F where
  name := "div_self"
  pattern := "x / x => 1"
  applies
    | .div l r => exprsEqual l r && !isZero l
    | _ => false
  transform
    | .div l r => if exprsEqual l r && !isZero l then .num 1 else .div l r
    | e => e

def sqrtSq : SesRewriteRule F where
  name := "sqrt_sq"
  pattern := "sqrt(x^2) => |x|"
  applies
    | .sqrt (.pow _ exp) => isTwo exp
    | _ => false
  transform
    | .sqrt (.pow base exp) => if isTwo exp then .abs base else .sqrt (.pow base exp)
    | e => e

def expLn : SesRewriteRule F where
  name := "exp_ln"
  pattern := "exp(ln(x)) => x"
  applies
    | .exp (.ln _) => true
    | _ => false
  transform
    | .exp (.ln x) => x
    | e => e

def lnExp : SesRewriteRule F where
  name := "ln_exp"
  pattern := "ln(exp(x)) => x"
  applies
    | .ln (.exp _) => true
    | _ => false
  transform
    | .ln (.exp x) => x
    | e => e

def lnOne : SesRewriteRule F where
  name := "ln_one"
  pattern := "ln(1) => 0"
  applies
    | .ln inner => isOne inner
    | _ => false
  transform
    | .ln inner => if isOne inner then .num 0 else .ln inner
    | e => e

def expZero : SesRewriteRule F where
  name := "exp_zero"
  pattern := "exp(0) => 1"
  applies
    | .exp inner => isZero inner
    | _ => false
  transform
    | .exp inner => if isZero inner then .num 1 else .exp inner
    | e => e

def sqrtZero : SesRewriteRule F where
  name := "sqrt_zero"
  pattern := "sqrt(0) => 0"
  applies
    | .sqrt inner => isZero inner
    | _ => false
  transform
    | .sqrt inner => if isZero inner then .num 0 else .sqrt inner
    | e => e

def sqrtOne : SesRewriteRule F where
  name := "sqrt_one"
  pattern := "sqrt(1) => 1"
  applies
    | .sqrt inner => isOne inner
    | _ => false
  transform
    | .sqrt inner => if isOne inner then .num 1 else .sqrt inner
    | e => e

def negZero : SesRewriteRule F where
  name := "neg_zero"
  pattern := "-0 => 0"
  applies
    | .neg inner => isZero inner
    | _ => false
  transform
    | .neg inner => if isZero inner then .num 0 else .neg inner
    | e => e

/-- Nothing compares the two arguments. -/
def sin2Cos2 : SesRewriteRule F where
  name := "sin2_cos2"
  pattern := "sin(x)^2 + cos(x)^2 => 1"
  applies := isSin2PlusCos2
  transform e := if isSin2PlusCos2 e then .num 1 else e

def mulSelfToPow2 : SesRewriteRule F where
  name := "mul_self_to_pow2"
  pattern := "x * x => x^2"
  applies
    | .mul l r => exprsEqual l r && !isNum l
    | _ => false
  transform
    | .mul l r => if exprsEqual l r && !isNum l then .pow l (.num 2) else .mul l r
    | e => e

def addSelf : SesRewriteRule F where
  name := "add_self"
  pattern := "x + x => 2*x"
  applies
    | .add l r => exprsEqual l r && !isNum l
    | _ => false
  transform
    | .add l r => if exprsEqual l r && !isNum l then .mul (.num 2) l else .add l r
    | e => e

/-- `register_builtin_rules`. -/
def builtinRules : List (SesRewriteRule F) :=
  [addZeroRight, addZeroLeft, subZero, zeroSub, mulOneRight, mulOneLeft, mulZeroRight, mulZeroLeft,
    divOne, zeroDiv, powOne, powZero, onePow, doubleNeg, subSelf, divSelf, sqrtSq, expLn, lnExp,
    lnOne, expZero, sqrtZero, sqrtOne, negZero, sin2Cos2, mulSelfToPow2, addSelf]

end Rules

/-! ## The simplifier -/

structure SesSimplifierConfig where
  maxPasses : Nat := 32
  enableConstantFolding : Bool := true
  enableAlgebraicRules : Bool := true
  enableTrigRules : Bool := true
  deriving DecidableEq

section Simplify

variable {F : Type} [Field F] [LinearOrder F] (fn : Elementary F) (config : SesSimplifierConfig)

/-- `fold_constants`, if it is enabled. -/
def foldConstants (e : SesExpr F) : SesExpr F :=
  if config.enableConstantFolding && isConstant e then
    match evaluateInner fn (fun _ => none) e with
    | .ok v => .num v
    | .error _ => e
  else e

/-- The rules that `apply_rules` skips. -/
def skips (rule : SesRewriteRule F) : Bool :=
  rule.name.startsWith "sin2_cos2" && !config.enableTrigRules
    || !config.enableAlgebraicRules && !rule.name.startsWith "constant"

/-- The first matching rule. -/
def firstRule (e : SesExpr F) : Option (SesRewriteRule F) :=
  builtinRules.find? fun rule => !skips config rule && rule.applies e

def applyRules (e : SesExpr F) : SesExpr F :=
  match firstRule config e with
  | some rule => rule.transform e
  | none => e

/-- `one_pass` once the children are done. -/
def finishNode (e : SesExpr F) : SesExpr F := applyRules config (foldConstants fn config e)

/-- `recurse_children`, with `one_pass` of each child. -/
def recurseChildren : SesExpr F → SesExpr F
  | .add l r => .add (finishNode fn config (recurseChildren l))
      (finishNode fn config (recurseChildren r))
  | .sub l r => .sub (finishNode fn config (recurseChildren l))
      (finishNode fn config (recurseChildren r))
  | .mul l r => .mul (finishNode fn config (recurseChildren l))
      (finishNode fn config (recurseChildren r))
  | .div l r => .div (finishNode fn config (recurseChildren l))
      (finishNode fn config (recurseChildren r))
  | .pow b e => .pow (finishNode fn config (recurseChildren b))
      (finishNode fn config (recurseChildren e))
  | .neg inner => .neg (finishNode fn config (recurseChildren inner))
  | .abs inner => .abs (finishNode fn config (recurseChildren inner))
  | .sqrt inner => .sqrt (finishNode fn config (recurseChildren inner))
  | .sin inner => .sin (finishNode fn config (recurseChildren inner))
  | .cos inner => .cos (finishNode fn config (recurseChildren inner))
  | .exp inner => .exp (finishNode fn config (recurseChildren inner))
  | .ln inner => .ln (finishNode fn config (recurseChildren inner))
  | .num v => .num v
  | .var name => .var name

def onePass (e : SesExpr F) : SesExpr F := finishNode fn config (recurseChildren fn config e)

/-- The loop of `simplify`, with a number of passes left. -/
def simplifyLoop : Nat → SesExpr F → SesExpr F
  | 0, current => current
  | passes + 1, beforePass =>
    let current := onePass fn config beforePass
    if exprsEqual current beforePass then current else simplifyLoop passes current

/-- The limit is looked at after a pass. -/
def simplify (e : SesExpr F) : SesExpr F := simplifyLoop fn config (max config.maxPasses 1) e

end Simplify

end Ipfrs.TensorLogic.Symbolic
