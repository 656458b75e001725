/-
Ipfrs.Lib.Ieee754 — IEEE 754 values as bit patterns.

`f32ToF64` is the widening conversion. It is exact: every binary32 value is a
binary64 value. A subnormal binary32 number is normal in binary64, so its
leading bit is shifted into the hidden position first; a NaN keeps its sign and
payload and is made quiet.

`f64ToF32` and `intToF64` round to nearest, ties to even. A rounded significand
that overflows carries into the exponent field, which is the next representable
value, up to infinity.

An operation on binary32 values takes the exact result, or the exact result cut off far
below the last place with one sticky bit for the rest, and rounds it once to nearest, ties
to even (`roundF32`). Infinities, signed zeros and NaN are as IEEE 754 has them; the NaN
that an operation makes is the default quiet one.
-/
import Mathlib.Algebra.Group.Int.Defs
import Mathlib.Algebra.Group.Nat.Defs

namespace Ipfrs.Lib

/-- Shift `f` left until bit `top` is set, counting the shifts down from `e`. At
most `top` shifts are needed for a non-zero `f`. -/
def normalize (top : UInt64) : Nat → UInt64 → Int → UInt64 × Int
  | 0, f, e => (f, e)
  | n + 1, f, e => if f &&& top = 0 then normalize top n (f <<< 1) (e - 1) else (f, e)

/-- A binary64 pattern from its sign bit, biased exponent and fraction. -/
def packF64 (sign exp frac : UInt64) : UInt64 := (sign <<< 63) ||| (exp <<< 52) ||| frac

/-- Widen a binary32 pattern. -/
def f32ToF64 (bits : UInt32) : UInt64 :=
  let sign := ((bits >>> 31) &&& 1).toUInt64
  let exp := ((bits >>> 23) &&& 0xff).toNat
  let frac := (bits &&& 0x7fffff).toUInt64
  if exp = 0 then
    if frac = 0 then packF64 sign 0 0
    else
      let (f, e) := normalize 0x800000 23 frac (-126)
      packF64 sign (UInt64.ofNat (e + 1023).toNat) ((f &&& 0x7fffff) <<< 29)
  else if exp = 255 then
    if frac = 0 then packF64 sign 0x7ff 0
    else packF64 sign 0x7ff ((0x8000000000000 : UInt64) ||| (frac <<< 29))
  else packF64 sign (UInt64.ofNat (exp + (1023 - 127))) (frac <<< 29)

-- 1.0, the smallest subnormal 2^-149, and negative infinity
example : f32ToF64 0x3f800000 = 0x3ff0000000000000 := by decide
example : f32ToF64 0x00000001 = 0x36a0000000000000 := by decide
example : f32ToF64 0xff800000 = 0xfff0000000000000 := by decide

/-- `m / 2^k` rounded to nearest, ties to even. -/
def roundShift (m k : Nat) : Nat :=
  let q := m / 2 ^ k
  let r := m % 2 ^ k
  if 2 * r > 2 ^ k ∨ (2 * r = 2 ^ k ∧ q % 2 = 1) then q + 1 else q

/-- Narrow a binary64 pattern. -/
def f64ToF32 (bits : UInt64) : UInt32 :=
  let sign := (bits >>> 63).toNat
  let exp := ((bits >>> 52) &&& 0x7ff).toNat
  let frac := (bits &&& 0xfffffffffffff).toNat
  let magnitude :=
    if exp = 0x7ff then
      -- a NaN keeps the top of its payload and is made quiet
      if frac = 0 then 0x7f800000 else 0x7fc00000 + (frac / 2 ^ 29) % 0x400000
    else if exp ≥ 1023 + 128 then 0x7f800000
    else if exp ≥ 1023 - 126 then
      (exp - (1023 - 127)) * 2 ^ 23 + (roundShift (2 ^ 52 + frac) 29 - 2 ^ 23)
    else if exp = 0 then 0
    else roundShift (2 ^ 52 + frac) (29 + ((1023 - 126) - exp))
  UInt32.ofNat (sign * 2 ^ 31 + magnitude)

/-- The binary64 value nearest to an integer. -/
def intToF64 (n : Int) : UInt64 :=
  let a := n.natAbs
  let sign := if n < 0 then 1 else 0
  let magnitude :=
    if a = 0 then 0
    else
      let e := Nat.log2 a
      let m := if e ≤ 52 then a * 2 ^ (52 - e) else roundShift a (e - 52)
      (e + 1023) * 2 ^ 52 + (m - 2 ^ 52)
  UInt64.ofNat (sign * 2 ^ 63 + magnitude)

-- 1.0, a tie that rounds to even, a value below the normal range, -3
example : f64ToF32 0x3ff0000000000000 = 0x3f800000 := by decide
example : f64ToF32 0x3ff0000010000000 = 0x3f800000 := by decide
example : f64ToF32 0x36a0000000000000 = 0x00000001 := by decide
example : intToF64 (-3) = 0xc008000000000000 := by decide

/-! ## Operations on binary32 values -/

namespace F32

def inf : UInt32 := 0x7f800000

def nan : UInt32 := 0x7fc00000

def one : UInt32 := 0x3f800000

def negOne : UInt32 := 0xbf800000

def isNeg (x : UInt32) : Bool := x >>> 31 = 1

/-- The pattern without its sign bit. -/
def abs (x : UInt32) : UInt32 := x &&& 0x7fffffff

def isNan (x : UInt32) : Bool := abs x > inf

def isInf (x : UInt32) : Bool := abs x = inf

def isZero (x : UInt32) : Bool := abs x = 0

def withSign (neg : Bool) (x : UInt32) : UInt32 := if neg then x ||| 0x80000000 else x

/-- A finite magnitude as `m * 2^e`. -/
def parts (x : UInt32) : Nat × Int :=
  let exp := ((abs x) >>> 23).toNat
  let frac := (x &&& 0x7fffff).toNat
  if exp = 0 then (frac, -149) else (2 ^ 23 + frac, (exp : Int) - 150)

/-- `m * 2^k` for `k` of either sign, rounded. -/
def scale (m : Nat) (k : Int) : Nat :=
  if 0 ≤ k then m * 2 ^ k.toNat else roundShift m (-k).toNat

/-- The binary32 value nearest to `m * 2^e`. -/
def roundF32 (neg : Bool) (m : Nat) (e : Int) : UInt32 :=
  let magnitude :=
    if m = 0 then 0
    else
      let top := (Nat.log2 m : Int) + e
      if -126 ≤ top then
        -- 24 significant bits; a carry out of them goes into the exponent field
        (top + 127).toNat * 2 ^ 23 + (scale m (e + 23 - top) - 2 ^ 23)
      else scale m (e + 149)
  withSign neg (if magnitude < 0x7f800000 then UInt32.ofNat magnitude else inf)

/-- Addition of finite values. -/
def addFinite (x y : UInt32) : UInt32 :=
  let (mx, ex) := parts x
  let (my, ey) := parts y
  let e := min ex ey
  let sx : Int := (mx * 2 ^ (ex - e).toNat : Nat)
  let sy : Int := (my * 2 ^ (ey - e).toNat : Nat)
  let s := (if isNeg x then -sx else sx) + (if isNeg y then -sy else sy)
  if s = 0 then withSign (isNeg x && isNeg y) 0 else roundF32 (s < 0) s.natAbs e

/-- `x + y`. -/
def add (x y : UInt32) : UInt32 :=
  if isNan x || isNan y then nan
  else if isInf x then (if isInf y && isNeg x != isNeg y then nan else x)
  else if isInf y then y
  else addFinite x y

/-- `x * y`. -/
def mul (x y : UInt32) : UInt32 :=
  let neg := isNeg x != isNeg y
  if isNan x || isNan y then nan
  else if isInf x || isInf y then (if isZero x || isZero y then nan else withSign neg inf)
  else
    let (mx, ex) := parts x
    let (my, ey) := parts y
    roundF32 neg (mx * my) (ex + ey)

/-- `x / y`. The quotient is taken to at least 26 bits. -/
def div (x y : UInt32) : UInt32 :=
  let neg := isNeg x != isNeg y
  if isNan x || isNan y then nan
  else if isInf x then (if isInf y then nan else withSign neg inf)
  else if isInf y then withSign neg 0
  else if isZero y then (if isZero x then nan else withSign neg inf)
  else
    let (mx, ex) := parts x
    let (my, ey) := parts y
    let n := mx * 2 ^ 50
    roundF32 neg (2 * (n / my) + (if n % my = 0 then 0 else 1)) (ex - ey - 51)

/-- The integer square root of `n` by its bits, the highest first, on top of `r`. -/
def sqrtBits (n : Nat) : Nat → Nat → Nat
  | 0, r => r
  | b + 1, r => if (r + 2 ^ b) * (r + 2 ^ b) ≤ n then sqrtBits n b (r + 2 ^ b) else sqrtBits n b r

/-- `x.sqrt()`. The root is taken to at least 30 bits. -/
def sqrt (x : UInt32) : UInt32 :=
  if isNan x then nan
  else if isZero x then x
  else if isNeg x then nan
  else if isInf x then x
  else
    let (m, e) := parts x
    let (m, e) := if e % 2 = 0 then (m, e) else (2 * m, e - 1)
    let n := m * 2 ^ 60
    let r := sqrtBits n 43 0
    roundF32 false (2 * r + (if r * r = n then 0 else 1)) (e / 2 - 31)

/-- `x > 0.0`. -/
def isPos (x : UInt32) : Bool := !isNeg x && !isZero x && !isNan x

-- 1/3, 0.1 + 0.2, the root of 2, the smallest subnormal halved
example : div one 0x40400000 = 0x3eaaaaab := by decide
example : add 0x3dcccccd 0x3e4ccccd = 0x3e99999a := by decide
example : sqrt 0x40000000 = 0x3fb504f3 := by decide
example : mul 0x00000001 0x3f000000 = 0 := by decide

end F32

end Ipfrs.Lib
