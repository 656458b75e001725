/-
Ipfrs.Lib.Widening — widening a binary32 value loses nothing.

Both formats are a sign, a biased exponent and a fraction. The lemmas read the
fields of a pattern off its value, and `packF64` puts fields together. A normal
number keeps its significand, `29` places higher. A subnormal one is shifted up
until it is normal (`normalize_spec`) and narrowing shifts it down by as much, so no
place is rounded away: `f64ToF32_f32ToF64`, for everything but a NaN, whose payload
is changed.
-/
import Ipfrs.Lib.Ieee754
import Mathlib.Data.Nat.Bitwise

namespace Ipfrs.Lib

/-! ## Fields -/

/-- The sign, the exponent and the fraction of a binary32 pattern. -/
def signF32 (w : UInt32) : Nat := w.toNat / 2 ^ 31
def expF32 (w : UInt32) : Nat := w.toNat / 2 ^ 23 % 2 ^ 8
def fracF32 (w : UInt32) : Nat := w.toNat % 2 ^ 23

theorem toNat_eq_fields (w : UInt32) :
    w.toNat = signF32 w * 2 ^ 31 + expF32 w * 2 ^ 23 + fracF32 w := by
  unfold signF32 expF32 fracF32
  omega

theorem signF32_lt (w : UInt32) : signF32 w < 2 := by
  have h := w.toNat_lt
  unfold signF32
  omega

theorem expF32_lt (w : UInt32) : expF32 w < 256 := Nat.mod_lt _ (by decide)

theorem fracF32_lt (w : UInt32) : fracF32 w < 2 ^ 23 := Nat.mod_lt _ (by decide)

theorem toNat_sign (w : UInt32) : (((w >>> 31) &&& 1).toUInt64).toNat = signF32 w := by
  have h := signF32_lt w
  simp only [UInt32.toNat_toUInt64, UInt32.toNat_and, UInt32.toNat_shiftRight]
  rw [show (1 : UInt32).toNat = 2 ^ 1 - 1 from rfl, Nat.and_two_pow_sub_one_eq_mod,
    Nat.shiftRight_eq_div_pow]
  exact Nat.mod_eq_of_lt h

theorem toNat_exp (w : UInt32) : ((w >>> 23) &&& 0xff).toNat = expF32 w := by
  simp only [UInt32.toNat_and, UInt32.toNat_shiftRight]
  rw [show (0xff : UInt32).toNat = 2 ^ 8 - 1 from rfl, Nat.and_two_pow_sub_one_eq_mod,
    Nat.shiftRight_eq_div_pow]
  rfl

theorem toNat_frac (w : UInt32) : ((w &&& 0x7fffff).toUInt64).toNat = fracF32 w := by
  simp only [UInt32.toNat_toUInt64, UInt32.toNat_and]
  rw [show (0x7fffff : UInt32).toNat = 2 ^ 23 - 1 from rfl, Nat.and_two_pow_sub_one_eq_mod]
  rfl

/-- A pattern is its fields, one behind the other. -/
theorem toNat_packF64 {sign exp frac : UInt64} (hsign : sign.toNat < 2)
    (hexp : exp.toNat < 2 ^ 11) (hfrac : frac.toNat < 2 ^ 52) : (packF64 sign exp frac).toNat
      = sign.toNat * 2 ^ 63 + exp.toNat * 2 ^ 52 + frac.toNat := by
  have he : exp.toNat * 2 ^ 52 < 2 ^ 63 := by omega
  have he' : exp.toNat * 2 ^ 52 < 2 ^ 64 := Nat.lt_trans he (by decide)
  have hs : sign.toNat * 2 ^ 63 < 2 ^ 64 :=
    Nat.mul_lt_mul_of_pos_right hsign (Nat.two_pow_pos 63)
  simp only [packF64, UInt64.toNat_or, UInt64.toNat_shiftLeft]
  rw [show (63 : UInt64).toNat % 64 = 63 from rfl, show (52 : UInt64).toNat % 64 = 52 from rfl,
    Nat.shiftLeft_eq, Nat.shiftLeft_eq, Nat.mod_eq_of_lt hs, Nat.mod_eq_of_lt he',
    ← Nat.shiftLeft_eq, ← Nat.shiftLeft_add_eq_or_of_lt he, Nat.shiftLeft_eq]
  rw [show sign.toNat * 2 ^ 63 + exp.toNat * 2 ^ 52
    = (sign.toNat * 2 ^ 11 + exp.toNat) * 2 ^ 52 by omega, ← Nat.shiftLeft_eq,
    ← Nat.shiftLeft_add_eq_or_of_lt hfrac]

/-! ## Narrowing by fields -/

/-- The pattern of the magnitude that narrowing gives. -/
def narrowMagnitude (exp frac : Nat) : Nat :=
  if exp = 0x7ff then
    if frac = 0 then 0x7f800000 else 0x7fc00000 + (frac / 2 ^ 29) % 0x400000
  else if exp ≥ 1023 + 128 then 0x7f800000
  else if exp ≥ 1023 - 126 then
    (exp - (1023 - 127)) * 2 ^ 23 + (roundShift (2 ^ 52 + frac) 29 - 2 ^ 23)
  else if exp = 0 then 0
  else roundShift (2 ^ 52 + frac) (29 + ((1023 - 126) - exp))

theorem f64ToF32_packF64 {sign exp frac : UInt64} (hsign : sign.toNat < 2)
    (hexp : exp.toNat < 2 ^ 11) (hfrac : frac.toNat < 2 ^ 52) : f64ToF32 (packF64 sign exp frac)
      = UInt32.ofNat (sign.toNat * 2 ^ 31 + narrowMagnitude exp.toNat frac.toNat) := by
  have hpack := toNat_packF64 hsign hexp hfrac
  have hsign' : (packF64 sign exp frac >>> 63).toNat = sign.toNat := by
    rw [UInt64.toNat_shiftRight, hpack, show (63 : UInt64).toNat % 64 = 63 from rfl,
      Nat.shiftRight_eq_div_pow]
    omega
  have hexp' : ((packF64 sign exp frac >>> 52) &&& 0x7ff).toNat = exp.toNat := by
    rw [UInt64.toNat_and, UInt64.toNat_shiftRight, hpack,
      show (52 : UInt64).toNat % 64 = 52 from rfl, Nat.shiftRight_eq_div_pow,
      show (0x7ff : UInt64).toNat = 2 ^ 11 - 1 from rfl, Nat.and_two_pow_sub_one_eq_mod]
    omega
  have hfrac' : (packF64 sign exp frac &&& 0xfffffffffffff).toNat = frac.toNat := by
    rw [UInt64.toNat_and, hpack, show (0xfffffffffffff : UInt64).toNat = 2 ^ 52 - 1 from rfl,
      Nat.and_two_pow_sub_one_eq_mod]
    omega
  simp only [f64ToF32, hsign', hexp', hfrac']
  rfl

/-- A number whose places below the cut are zero is not rounded. -/
theorem roundShift_mul (m k : Nat) : roundShift (m * 2 ^ k) k = m := by
  have hdiv : m * 2 ^ k / 2 ^ k = m := Nat.mul_div_cancel m (Nat.two_pow_pos k)
  have hmod : m * 2 ^ k % 2 ^ k = 0 := Nat.mul_mod_left m (2 ^ k)
  have hpos := Nat.two_pow_pos k
  simp only [roundShift, hdiv, hmod]
  rw [if_neg (by omega)]

/-! ## Normalising -/

/-- The leading bit of a number below `2^24` is set exactly from `2^23` on. -/
theorem and_top_eq_zero {f : UInt64} (h : f.toNat < 2 ^ 24) :
    f &&& 0x800000 = 0 ↔ f.toNat < 2 ^ 23 := by
  rw [← UInt64.toNat_inj, UInt64.toNat_and, show (0x800000 : UInt64).toNat = 2 ^ 23 from rfl,
    Nat.and_two_pow]
  simp [Nat.testBit_eq_decide_div_mod_eq]
  omega

/-- Normalising shifts up to the leading bit and counts the places. -/
theorem normalize_spec : ∀ (n : Nat) (f : UInt64) (e : Int),
    f.toNat < 2 ^ 24 → 2 ^ 23 ≤ f.toNat * 2 ^ n →
    ∃ k : Nat, k ≤ n ∧ (normalize 0x800000 n f e).1.toNat = f.toNat * 2 ^ k ∧
      (normalize 0x800000 n f e).2 = e - k ∧
      2 ^ 23 ≤ f.toNat * 2 ^ k ∧ f.toNat * 2 ^ k < 2 ^ 24
  | 0, f, e, hlt, hle => ⟨0, Nat.le_refl 0, by simp [normalize], by simp [normalize],
      hle, by omega⟩
  | n + 1, f, e, hlt, hle => by
    by_cases htop : f &&& 0x800000 = 0
    · have hsmall := (and_top_eq_zero hlt).mp htop
      have hshift : (f <<< 1).toNat = f.toNat * 2 := by
        rw [UInt64.toNat_shiftLeft, show (1 : UInt64).toNat % 64 = 1 from rfl,
          Nat.shiftLeft_eq]
        omega
      have hle' : 2 ^ 23 ≤ (f <<< 1).toNat * 2 ^ n := by
        rw [hshift, Nat.mul_assoc, ← Nat.pow_succ']
        exact hle
      obtain ⟨k, hk, hvalue, hexp, hlow, hhigh⟩ :=
        normalize_spec n (f <<< 1) (e - 1) (by omega) hle'
      rw [hshift, Nat.mul_assoc, ← Nat.pow_succ'] at hvalue hlow hhigh
      refine ⟨k + 1, by omega, ?_, ?_, hlow, hhigh⟩
      · rw [normalize, if_pos htop, hvalue]
      · rw [normalize, if_pos htop, hexp]
        omega
    · have hbig : 2 ^ 23 ≤ f.toNat := by
        have := mt (and_top_eq_zero hlt).mpr htop
        omega
      exact ⟨0, Nat.zero_le _, by simp [normalize, htop], by simp [normalize, htop],
        by omega, by omega⟩

/-! ## The round trip -/

theorem narrowMagnitude_normal {exp frac : Nat} (hexp : 0 < exp) (hmax : exp < 255)
    (hfrac : frac < 2 ^ 23) :
    narrowMagnitude (exp + (1023 - 127)) (frac * 2 ^ 29) = exp * 2 ^ 23 + frac := by
  have hround : roundShift (2 ^ 52 + frac * 2 ^ 29) 29 = 2 ^ 23 + frac := by
    rw [show 2 ^ 52 + frac * 2 ^ 29 = (2 ^ 23 + frac) * 2 ^ 29 by omega]
    exact roundShift_mul _ 29
  rw [narrowMagnitude, if_neg (by omega), if_neg (by omega), if_pos (by omega), hround]
  omega

/-- A subnormal number that was shifted up by `k` places. -/
theorem narrowMagnitude_subnormal {k frac : Nat} (hk : 0 < k) (hmax : k ≤ 23)
    (hlow : 2 ^ 23 ≤ frac * 2 ^ k) :
    narrowMagnitude (897 - k) ((frac * 2 ^ k - 2 ^ 23) * 2 ^ 29) = frac := by
  have hshift : 2 ^ 52 + (frac * 2 ^ k - 2 ^ 23) * 2 ^ 29 = frac * 2 ^ (29 + k) := by
    rw [Nat.pow_add, Nat.mul_comm (2 ^ 29), ← Nat.mul_assoc]
    omega
  rw [narrowMagnitude, if_neg (by omega), if_neg (by omega), if_neg (by omega),
    if_neg (by omega), hshift, show 29 + (1023 - 126 - (897 - k)) = 29 + k by omega]
  exact roundShift_mul frac (29 + k)

theorem isNan_iff (w : UInt32) : F32.isNan w = true ↔ expF32 w = 255 ∧ fracF32 w ≠ 0 := by
  have habs : (F32.abs w).toNat = w.toNat % 2 ^ 31 := by
    rw [F32.abs, UInt32.toNat_and, show (0x7fffffff : UInt32).toNat = 2 ^ 31 - 1 from rfl,
      Nat.and_two_pow_sub_one_eq_mod]
  have hfields := toNat_eq_fields w
  have hexp := expF32_lt w
  have hfrac := fracF32_lt w
  rw [F32.isNan, decide_eq_true_iff, gt_iff_lt, UInt32.lt_iff_toNat_lt, habs,
    show F32.inf.toNat = 255 * 2 ^ 23 from rfl]
  omega

theorem frac_eq_zero_iff (w : UInt32) : (w &&& 0x7fffff).toUInt64 = 0 ↔ fracF32 w = 0 := by
  rw [← UInt64.toNat_inj, toNat_frac]
  rfl

theorem toNat_shiftLeft_29 {f : UInt64} (h : f.toNat < 2 ^ 23) :
    (f <<< 29).toNat = f.toNat * 2 ^ 29 := by
  rw [UInt64.toNat_shiftLeft, show (29 : UInt64).toNat % 64 = 29 from rfl, Nat.shiftLeft_eq]
  omega

section

variable {w : UInt32}

/-- A number of exponent 0 keeps its fraction as its magnitude. -/
theorem f64ToF32_f32ToF64_subnormal (hexp : expF32 w = 0) :
    f64ToF32 (f32ToF64 w) = UInt32.ofNat (signF32 w * 2 ^ 31 + fracF32 w) := by
  have hsign : (((w >>> 31) &&& 1).toUInt64).toNat < 2 := by
    rw [toNat_sign]
    exact signF32_lt w
  have hlt := fracF32_lt w
  by_cases hzero : fracF32 w = 0
  · have hfrac := (frac_eq_zero_iff w).mpr hzero
    simp only [f32ToF64, toNat_exp, hexp, hfrac, if_true]
    rw [f64ToF32_packF64 hsign (by decide) (by decide), toNat_sign, hzero]
    rfl
  · have hfrac := mt (frac_eq_zero_iff w).mp hzero
    obtain ⟨k, hk, hvalue, hcount, hlow, hhigh⟩ :=
      normalize_spec 23 ((w &&& 0x7fffff).toUInt64) (-126)
        (by rw [toNat_frac]; omega) (by rw [toNat_frac]; omega)
    rw [toNat_frac] at hvalue hlow hhigh
    have hkpos : 0 < k := by
      rcases Nat.eq_zero_or_pos k with rfl | h
      · omega
      · exact h
    simp only [f32ToF64, toNat_exp, hexp, hfrac, if_true, if_false]
    rw [hcount, show (-126 - (k : Int) + 1023).toNat = 897 - k by omega]
    have hexp64 : (UInt64.ofNat (897 - k)).toNat = 897 - k :=
      UInt64.toNat_ofNat_of_lt' (show _ < 2 ^ 64 by omega)
    have hmask : ((normalize 0x800000 23 (w &&& 0x7fffff).toUInt64 (-126)).1
        &&& 0x7fffff).toNat = fracF32 w * 2 ^ k - 2 ^ 23 := by
      rw [UInt64.toNat_and, hvalue, show (0x7fffff : UInt64).toNat = 2 ^ 23 - 1 from rfl,
        Nat.and_two_pow_sub_one_eq_mod]
      omega
    have hfrac64 := toNat_shiftLeft_29 (f := (normalize 0x800000 23
      (w &&& 0x7fffff).toUInt64 (-126)).1 &&& 0x7fffff) (by omega)
    rw [hmask] at hfrac64
    rw [f64ToF32_packF64 hsign (by omega) (by omega), toNat_sign, hexp64, hfrac64,
      narrowMagnitude_subnormal hkpos hk hlow]

theorem f64ToF32_f32ToF64_normal (hexp : 0 < expF32 w) (hmax : expF32 w < 255) :
    f64ToF32 (f32ToF64 w)
      = UInt32.ofNat (signF32 w * 2 ^ 31 + (expF32 w * 2 ^ 23 + fracF32 w)) := by
  have hsign : (((w >>> 31) &&& 1).toUInt64).toNat < 2 := by
    rw [toNat_sign]
    exact signF32_lt w
  have hlt := fracF32_lt w
  have hexp64 : (UInt64.ofNat (expF32 w + (1023 - 127))).toNat = expF32 w + (1023 - 127) :=
    UInt64.toNat_ofNat_of_lt' (show _ < 2 ^ 64 by omega)
  have hfrac64 := toNat_shiftLeft_29 (f := (w &&& 0x7fffff).toUInt64) (by rwa [toNat_frac])
  rw [toNat_frac] at hfrac64
  simp only [f32ToF64, toNat_exp]
  rw [if_neg (by omega), if_neg (by omega), f64ToF32_packF64 hsign (by omega) (by omega),
    toNat_sign, hexp64, hfrac64, narrowMagnitude_normal hexp hmax hlt]

theorem f64ToF32_f32ToF64_inf (hexp : expF32 w = 255) (hfrac : fracF32 w = 0) :
    f64ToF32 (f32ToF64 w) = UInt32.ofNat (signF32 w * 2 ^ 31 + 255 * 2 ^ 23) := by
  have hsign : (((w >>> 31) &&& 1).toUInt64).toNat < 2 := by
    rw [toNat_sign]
    exact signF32_lt w
  simp only [f32ToF64, toNat_exp, hexp, (frac_eq_zero_iff w).mpr hfrac, if_true]
  rw [if_neg (by decide), f64ToF32_packF64 hsign (by decide) (by decide), toNat_sign]
  rfl

end

/-- **Widening and narrowing again gives the value back**, for every pattern that is
not a NaN. -/
theorem f64ToF32_f32ToF64 {w : UInt32} (hnan : F32.isNan w = false) :
    f64ToF32 (f32ToF64 w) = w := by
  have hexp := expF32_lt w
  have hwhole : w = UInt32.ofNat
      (signF32 w * 2 ^ 31 + (expF32 w * 2 ^ 23 + fracF32 w)) := by
    rw [← Nat.add_assoc, ← toNat_eq_fields, UInt32.ofNat_toNat]
  by_cases hzero : expF32 w = 0
  · rw [f64ToF32_f32ToF64_subnormal hzero]
    simpa [hzero] using hwhole.symm
  · by_cases hmax : expF32 w = 255
    · have hfrac : fracF32 w = 0 := by
        have hnot := mt (isNan_iff w).mpr (by simp [hnan])
        simpa [hmax] using hnot
      rw [f64ToF32_f32ToF64_inf hmax hfrac]
      simpa [hmax, hfrac] using hwhole.symm
    · rw [f64ToF32_f32ToF64_normal (by omega) (by omega)]
      exact hwhole.symm

end Ipfrs.Lib
