/-
Ipfrs.Lib.FloatInteger — the integers among binary64 values.

A finite binary64 value is `significand * 2 ^ scale / 2 ^ 1075`, with a sign. From these
fields come what a program asks of a float before it takes it for an integer: whether it has
a fractional part, whether it is below `2 ^ 63`, and its truncation. An integer goes to a
float and back unchanged exactly if its binary digits below the first 53 are 0
(`f64ToI64_intToF64_iff`).
-/
import Ipfrs.Lib.Ieee754
import Mathlib.Algebra.Order.Ring.Nat
import Mathlib.Data.Nat.Log

namespace Ipfrs.Lib

/-! ## Fields -/

def exponentField (bits : UInt64) : Nat := bits.toNat / 2 ^ 52 % 2048

def fractionField (bits : UInt64) : Nat := bits.toNat % 2 ^ 52

def isNegativeF64 (bits : UInt64) : Bool := bits.toNat / 2 ^ 63 = 1

/-- `f64::is_nan`. -/
def isNanF64 (bits : UInt64) : Bool := exponentField bits = 2047 && fractionField bits ≠ 0

/-- 0.0 or -0.0. -/
def isZeroF64 (bits : UInt64) : Bool := exponentField bits = 0 && fractionField bits = 0

def negZeroF64 : UInt64 := 0x8000000000000000

/-- `==`: a NaN equals nothing, and the two zeros are equal. -/
def eqF64 (a b : UInt64) : Bool :=
  !isNanF64 a && !isNanF64 b && (a == b || (isZeroF64 a && isZeroF64 b))

/-- The fraction with the hidden bit of a normal value. -/
def significand (bits : UInt64) : Nat :=
  if exponentField bits = 0 then fractionField bits else 2 ^ 52 + fractionField bits

def scale (bits : UInt64) : Nat := max (exponentField bits) 1

/-- `x.fract() == 0.0`: false of infinities, whose fractional part is no number. -/
def fractIsZero (bits : UInt64) : Bool :=
  exponentField bits ≠ 2047 && significand bits % 2 ^ (1075 - scale bits) = 0

/-- `x.abs() < i64::MAX as f64`: the bound is `2 ^ 63`. -/
def absBelowI64 (bits : UInt64) : Bool := exponentField bits < 1023 + 63

/-- The magnitude of a finite value without what follows the point. -/
def truncMagnitude (bits : UInt64) : Nat :=
  significand bits * 2 ^ (scale bits - 1075) / 2 ^ (1075 - scale bits)

/-- `x as i64`: towards 0, at most to the ends of the range, and 0 for a NaN. -/
def f64ToI64 (bits : UInt64) : Int :=
  if exponentField bits = 2047 && fractionField bits ≠ 0 then 0
  else if absBelowI64 bits then
    if isNegativeF64 bits then -(truncMagnitude bits : Int) else truncMagnitude bits
  else if isNegativeF64 bits then -2 ^ 63 else 2 ^ 63 - 1

example : fractIsZero 0x4045000000000000 = true ∧ f64ToI64 0x4045000000000000 = 42 := by decide
example : fractIsZero 0x3ff8000000000000 = false := by decide

theorem significand_lt (bits : UInt64) : significand bits < 2 ^ 53 := by
  have hfrac : fractionField bits < 2 ^ 52 := Nat.mod_lt _ (Nat.two_pow_pos 52)
  unfold significand
  split <;> omega

theorem truncMagnitude_lt {bits : UInt64} (h : absBelowI64 bits = true) :
    truncMagnitude bits < 2 ^ 63 := by
  have hexp : exponentField bits < 1023 + 63 := of_decide_eq_true h
  have hscale : scale bits - 1075 ≤ 10 := by
    unfold scale
    omega
  have hpow : 2 ^ (scale bits - 1075) ≤ 2 ^ 10 := Nat.pow_le_pow_right (by decide) hscale
  calc truncMagnitude bits
      ≤ significand bits * 2 ^ (scale bits - 1075) := Nat.div_le_self _ _
    _ ≤ significand bits * 2 ^ 10 := Nat.mul_le_mul_left _ hpow
    _ < 2 ^ 53 * 2 ^ 10 := Nat.mul_lt_mul_of_pos_right (significand_lt bits) (by decide)
    _ = 2 ^ 63 := by decide

/-- A cast is in range. -/
theorem f64ToI64_range (bits : UInt64) : -2 ^ 63 ≤ f64ToI64 bits ∧ f64ToI64 bits < 2 ^ 63 := by
  unfold f64ToI64
  split
  · decide
  · split
    · next hbelow =>
      have hlt := truncMagnitude_lt hbelow
      split <;> omega
    · split <;> decide

/-! ## Rounding -/

theorem roundShift_mul_eq_iff {a k : Nat} : roundShift a k * 2 ^ k = a ↔ 2 ^ k ∣ a := by
  constructor
  · intro h
    exact ⟨roundShift a k, by rw [Nat.mul_comm, h]⟩
  · rintro ⟨q, rfl⟩
    have hpos : 0 < 2 ^ k := Nat.two_pow_pos k
    have hround : roundShift (2 ^ k * q) k = q := by
      simp only [roundShift, Nat.mul_mod_right, Nat.mul_div_cancel_left q hpos]
      rw [if_neg (by omega)]
    rw [hround, Nat.mul_comm]

/-- A number of `53 + k` binary digits is rounded to 53 of them, or to the next power. -/
theorem roundShift_bounds {a k : Nat} (hlow : 2 ^ (52 + k) ≤ a) (hhigh : a < 2 ^ (53 + k)) :
    2 ^ 52 ≤ roundShift a k ∧ roundShift a k ≤ 2 ^ 53 := by
  have hpos : 0 < 2 ^ k := Nat.two_pow_pos k
  have hge : 2 ^ 52 ≤ a / 2 ^ k := by
    rw [Nat.le_div_iff_mul_le hpos, ← Nat.pow_add]
    exact hlow
  have hlt : a / 2 ^ k < 2 ^ 53 := by
    rw [Nat.div_lt_iff_lt_mul hpos, ← Nat.pow_add]
    exact hhigh
  simp only [roundShift]
  split <;> omega

/-- The 53 digits that are kept of a number. -/
def keptDigits (a : Nat) : Nat :=
  if Nat.log2 a ≤ 52 then a * 2 ^ (52 - Nat.log2 a) else roundShift a (Nat.log2 a - 52)

theorem keptDigits_bounds {a : Nat} (ha : a ≠ 0) : 2 ^ 52 ≤ keptDigits a ∧ keptDigits a ≤ 2 ^ 53 ∧
      (Nat.log2 a ≤ 52 → keptDigits a < 2 ^ 53) := by
  have hlow : 2 ^ Nat.log2 a ≤ a := Nat.log2_self_le ha
  have hhigh : a < 2 ^ (Nat.log2 a + 1) := Nat.lt_log2_self
  unfold keptDigits
  split
  · next he =>
    have hsplit : (2 : Nat) ^ 52 = 2 ^ Nat.log2 a * 2 ^ (52 - Nat.log2 a) := by
      rw [← Nat.pow_add, Nat.add_sub_cancel' he]
    have hsplit' : (2 : Nat) ^ 53 = 2 ^ (Nat.log2 a + 1) * 2 ^ (52 - Nat.log2 a) := by
      rw [← Nat.pow_add]
      congr 1
      omega
    have hlt : a * 2 ^ (52 - Nat.log2 a) < 2 ^ 53 := by
      rw [hsplit']
      exact Nat.mul_lt_mul_of_pos_right hhigh (Nat.two_pow_pos _)
    refine ⟨?_, Nat.le_of_lt hlt, fun _ => hlt⟩
    rw [hsplit]
    exact Nat.mul_le_mul_right _ hlow
  · next he =>
    have hk : 52 + (Nat.log2 a - 52) = Nat.log2 a := by omega
    obtain ⟨hge, hle⟩ := roundShift_bounds (a := a) (k := Nat.log2 a - 52)
      (by rw [hk]; exact hlow) (by rw [show 53 + (Nat.log2 a - 52) = Nat.log2 a + 1 by omega]
                                   exact hhigh)
    exact ⟨hge, hle, fun h => absurd h he⟩

/-- The integer nearest to `a` among the floats. -/
def nearest (a : Nat) : Nat :=
  keptDigits a * 2 ^ (Nat.log2 a - 52) / 2 ^ (52 - Nat.log2 a)

theorem nearest_eq_iff {a : Nat} : nearest a = a ↔ 2 ^ (Nat.log2 a - 52) ∣ a := by
  unfold nearest keptDigits
  split
  · next he =>
    have hzero : Nat.log2 a - 52 = 0 := by omega
    rw [hzero, pow_zero, Nat.mul_one, Nat.mul_div_cancel _ (Nat.two_pow_pos _)]
    simp
  · next he =>
    have hzero : 52 - Nat.log2 a = 0 := by omega
    rw [hzero, pow_zero, Nat.div_one]
    exact roundShift_mul_eq_iff

/-! ## From integers -/

theorem intToF64_toNat {n : Int} (hn : n ≠ 0) (hlog : Nat.log2 n.natAbs ≤ 63) :
    (intToF64 n).toNat = (if n < 0 then 1 else 0) * 2 ^ 63
      + (Nat.log2 n.natAbs + 1023) * 2 ^ 52 + (keptDigits n.natAbs - 2 ^ 52) := by
  have hne : n.natAbs ≠ 0 := Int.natAbs_ne_zero.mpr hn
  obtain ⟨hge, hle, -⟩ := keptDigits_bounds hne
  unfold intToF64
  simp only [if_neg hne]
  rw [UInt64.toNat_ofNat', Nat.mod_eq_of_lt, ← Nat.add_assoc]
  · rfl
  · change _ + (_ + (keptDigits n.natAbs - 2 ^ 52)) < _
    split <;> omega

/-- The fields of the float of an integer: a carry of the rounding goes into the exponent. -/
theorem fields_intToF64 {n : Int} (hn : n ≠ 0) (hlog : Nat.log2 n.natAbs ≤ 63) :
    isNegativeF64 (intToF64 n) = decide (n < 0) ∧ (if keptDigits n.natAbs = 2 ^ 53 then
        exponentField (intToF64 n) = Nat.log2 n.natAbs + 1024 ∧ fractionField (intToF64 n) = 0
      else exponentField (intToF64 n) = Nat.log2 n.natAbs + 1023 ∧
        fractionField (intToF64 n) = keptDigits n.natAbs - 2 ^ 52) := by
  have hbits := intToF64_toNat hn hlog
  obtain ⟨hge, hle, -⟩ := keptDigits_bounds (Int.natAbs_ne_zero.mpr hn)
  unfold isNegativeF64 exponentField fractionField
  rw [hbits]
  generalize Nat.log2 n.natAbs = e at hlog ⊢
  generalize keptDigits n.natAbs = m at hge hle ⊢
  constructor
  · by_cases hneg : n < 0
    · simp only [hneg, if_true, decide_true, decide_eq_true_eq]
      omega
    · simp only [hneg, if_false, decide_false, decide_eq_false_iff_not]
      omega
  · split
    · split <;> omega
    · split <;> omega

theorem integral_intToF64 {n : Int} (hn : n ≠ 0) (hlog : Nat.log2 n.natAbs ≤ 63) :
    fractIsZero (intToF64 n) = true ∧ truncMagnitude (intToF64 n) = nearest n.natAbs := by
  obtain ⟨hge, hle, hsmall⟩ := keptDigits_bounds (Int.natAbs_ne_zero.mpr hn)
  have hkept : Nat.log2 n.natAbs ≤ 52 →
      keptDigits n.natAbs % 2 ^ (52 - Nat.log2 n.natAbs) = 0 := by
    intro he
    rw [keptDigits, if_pos he]
    exact Nat.mul_mod_left _ _
  obtain ⟨-, hfields⟩ := fields_intToF64 hn hlog
  unfold fractIsZero truncMagnitude nearest significand scale
  generalize Nat.log2 n.natAbs = e at *
  generalize keptDigits n.natAbs = m at *
  split at hfields
  · next hm =>
    obtain ⟨hexp, hfrac⟩ := hfields
    have he : 53 ≤ e := by omega
    have hdown : 1075 - (e + 1024) = 0 := by omega
    have hzero : 52 - e = 0 := by omega
    have hup : e + 1024 - 1075 = e - 52 + 1 :=
      (Nat.add_sub_add_right e 1024 51).trans (by omega)
    rw [hexp, hfrac, hm, if_neg (show ¬ e + 1024 = 0 by omega),
      Nat.max_eq_left (show 1 ≤ e + 1024 by omega), hdown, hzero, hup]
    refine ⟨?_, by rw [Nat.pow_succ]; omega⟩
    rw [Bool.and_eq_true, decide_eq_true_eq, decide_eq_true_eq, pow_zero, Nat.mod_one]
    exact ⟨by omega, rfl⟩
  · obtain ⟨hexp, hfrac⟩ := hfields
    have hdown : 1075 - (e + 1023) = 52 - e := by omega
    have hup : e + 1023 - 1075 = e - 52 := Nat.add_sub_add_right e 1023 52
    have hsig : 2 ^ 52 + (m - 2 ^ 52) = m := by omega
    rw [hexp, hfrac, if_neg (show ¬ e + 1023 = 0 by omega),
      Nat.max_eq_left (show 1 ≤ e + 1023 by omega), hdown, hup, hsig]
    refine ⟨?_, rfl⟩
    rw [Bool.and_eq_true, decide_eq_true_eq, decide_eq_true_eq]
    refine ⟨by omega, ?_⟩
    by_cases he : e ≤ 52
    · exact hkept he
    · have hzero : 52 - e = 0 := by omega
      rw [hzero, pow_zero, Nat.mod_one]

theorem log2_natAbs_le {n : Int} (hn : -2 ^ 63 ≤ n ∧ n < 2 ^ 63) : Nat.log2 n.natAbs ≤ 63 := by
  rcases Nat.eq_zero_or_pos n.natAbs with h | h
  · rw [h]
    decide
  · have hlt : n.natAbs < 2 ^ 64 := by omega
    have hlog := (Nat.log2_lt (by omega)).mpr hlt
    omega

/-- The float 0 is the integer 0. -/
theorem integral_zero : fractIsZero (intToF64 0) = true ∧ absBelowI64 (intToF64 0) = true ∧
    f64ToI64 (intToF64 0) = 0 := by
  have hbits : intToF64 0 = 0 := by decide
  have hsig : significand 0 = 0 := by decide
  have htrunc : truncMagnitude 0 = 0 := by
    rw [truncMagnitude, hsig, Nat.zero_mul, Nat.zero_div]
  have hexp : exponentField 0 = 0 := by decide
  rw [hbits]
  refine ⟨?_, by decide, ?_⟩
  · rw [fractIsZero, hsig, Nat.zero_mod, hexp]
    rfl
  · simp [f64ToI64, htrunc, hexp, absBelowI64]

theorem fractIsZero_intToF64 {n : Int} (hn : -2 ^ 63 ≤ n ∧ n < 2 ^ 63) :
    fractIsZero (intToF64 n) = true := by
  by_cases hzero : n = 0
  · subst hzero
    exact integral_zero.1
  · exact (integral_intToF64 hzero (log2_natAbs_le hn)).1

/-- **There and back**: a 64-bit integer is again found behind its float exactly if its
digits after the first 53 are 0 and it is not the least one. -/
theorem f64ToI64_intToF64_iff {n : Int} (hn : -2 ^ 63 ≤ n ∧ n < 2 ^ 63) :
    (absBelowI64 (intToF64 n) = true ∧ f64ToI64 (intToF64 n) = n)
      ↔ 2 ^ (Nat.log2 n.natAbs - 52) ∣ n.natAbs ∧ n ≠ -2 ^ 63 := by
  by_cases hzero : n = 0
  · subst hzero
    exact iff_of_true ⟨integral_zero.2.1, integral_zero.2.2⟩ ⟨by simp, by decide⟩
  have hlog := log2_natAbs_le hn
  obtain ⟨-, htrunc⟩ := integral_intToF64 hzero hlog
  obtain ⟨hneg, hfields⟩ := fields_intToF64 hzero hlog
  have hlow : 2 ^ Nat.log2 n.natAbs ≤ n.natAbs :=
    Nat.log2_self_le (Int.natAbs_ne_zero.mpr hzero)
  have hfinite : exponentField (intToF64 n) ≠ 2047 := by
    split at hfields <;> omega
  have hvalue : absBelowI64 (intToF64 n) = true →
      (f64ToI64 (intToF64 n) = n ↔ nearest n.natAbs = n.natAbs) := by
    intro hbelow
    unfold f64ToI64
    rw [hneg, htrunc, hbelow]
    simp only [hfinite, decide_false, Bool.false_and, Bool.false_eq_true, if_false, if_true,
      decide_eq_true_eq]
    split <;> omega
  have hnear : nearest n.natAbs = n.natAbs → n ≠ -2 ^ 63 → absBelowI64 (intToF64 n) = true := by
    intro hexact hne
    have hexp : exponentField (intToF64 n) < 1023 + 63 := by
      split at hfields
      · next hm =>
        -- a carry gives the next power of 2
        have hlt : n.natAbs < 2 ^ (Nat.log2 n.natAbs + 1) := Nat.lt_log2_self
        have he : 52 < Nat.log2 n.natAbs := by
          by_contra hle
          have hsmall := (keptDigits_bounds (Int.natAbs_ne_zero.mpr hzero)).2.2 (by omega)
          omega
        have hpow : 2 ^ (Nat.log2 n.natAbs + 1) = 2 ^ 53 * 2 ^ (Nat.log2 n.natAbs - 52) := by
          rw [← Nat.pow_add]
          congr 1
          omega
        rw [nearest, hm, show 52 - Nat.log2 n.natAbs = 0 by omega, pow_zero, Nat.div_one,
          ← hpow] at hexact
        omega
      · have hlt : Nat.log2 n.natAbs < 63 := by
          by_contra hge
          have heq : Nat.log2 n.natAbs = 63 := by omega
          rw [heq] at hlow
          omega
        omega
    exact decide_eq_true hexp
  have hmin : absBelowI64 (intToF64 n) = true → n ≠ -2 ^ 63 := by
    rintro hbelow rfl
    revert hbelow
    decide
  rw [← nearest_eq_iff]
  constructor
  · rintro ⟨hbelow, hback⟩
    exact ⟨(hvalue hbelow).mp hback, hmin hbelow⟩
  · rintro ⟨hexact, hne⟩
    have hbelow := hnear hexact hne
    exact ⟨hbelow, (hvalue hbelow).mpr hexact⟩

end Ipfrs.Lib
