/-
Ipfrs.Lib.BitWords — a list of 64-bit words as a set of bits.

`setBit` sets one bit and `hasBit` reads one. A bit reads as set right after it was
set, and setting another one keeps it (`hasBit_setBit_self`, `hasBit_setBit`); so a
sequence of bits reads as set after each of them was set (`hasBit_foldl_setBit`).
-/
import Mathlib.Data.List.Basic

namespace Ipfrs.Lib.BitWords

/-- The word with only bit `i % 64`. -/
def mask (i : Nat) : UInt64 := 1 <<< UInt64.ofNat (i % 64)

def setBit (words : List UInt64) (i : Nat) : List UInt64 :=
  words.modify (i / 64) (fun w => w ||| mask i)

/-- A bit beyond the words is not set. -/
def hasBit (words : List UInt64) (i : Nat) : Bool :=
  match words[i / 64]? with
  | some w => w &&& mask i ≠ 0
  | none => false

theorem mask_ne_zero (i : Nat) : mask i ≠ 0 := by
  intro h
  have hbit := congrArg (fun w => w.toBitVec.getLsbD (i % 64)) h
  have hlt := Nat.mod_lt i (show 64 > 0 by decide)
  simp [mask] at hbit
  omega

theorem or_and_self (w m : UInt64) : (w ||| m) &&& m = m := by
  apply UInt64.toBitVec_inj.mp
  ext i hi
  simp only [UInt64.toBitVec_and, UInt64.toBitVec_or, BitVec.getElem_and, BitVec.getElem_or]
  cases w.toBitVec[i] <;> cases m.toBitVec[i] <;> rfl

theorem or_and_ne_zero {w m n : UInt64} (h : w &&& n ≠ 0) : (w ||| m) &&& n ≠ 0 := by
  intro hzero
  apply h
  have hand : ((w ||| m) &&& n) &&& w = w &&& n := by
    apply UInt64.toBitVec_inj.mp
    ext i hi
    simp only [UInt64.toBitVec_and, UInt64.toBitVec_or, BitVec.getElem_and, BitVec.getElem_or]
    cases w.toBitVec[i] <;> cases m.toBitVec[i] <;> cases n.toBitVec[i] <;> rfl
  rw [← hand, hzero]
  simp

@[simp] theorem length_setBit (words : List UInt64) (i : Nat) :
    (setBit words i).length = words.length := by
  simp [setBit]

theorem hasBit_setBit_self {words : List UInt64} {i : Nat} (h : i / 64 < words.length) :
    hasBit (setBit words i) i = true := by
  simp [hasBit, setBit, h, or_and_self, mask_ne_zero]

theorem hasBit_setBit {words : List UInt64} {j : Nat} (i : Nat) (h : hasBit words j = true) :
    hasBit (setBit words i) j = true := by
  rw [hasBit] at h ⊢
  cases hword : words[j / 64]? with
  | none =>
    rw [hword] at h
    cases h
  | some w =>
    rw [hword] at h
    rw [setBit, List.getElem?_modify, hword]
    by_cases hij : i / 64 = j / 64
    · simpa [hij] using or_and_ne_zero (by simpa using h)
    · simpa [hij] using h

/-- Setting bits keeps those that are set. -/
theorem hasBit_foldl_setBit_of_hasBit {j : Nat} : ∀ {is : List Nat} {words : List UInt64},
    hasBit words j = true → hasBit (is.foldl setBit words) j = true
  | [], _, h => h
  | i :: is, words, h => by
    rw [List.foldl_cons]
    exact hasBit_foldl_setBit_of_hasBit (hasBit_setBit i h)

/-- Bits that are set one after the other are all set in the end. -/
theorem hasBit_foldl_setBit {j : Nat} : ∀ {is : List Nat} {words : List UInt64},
    (∀ i ∈ is, i / 64 < words.length) → j ∈ is → hasBit (is.foldl setBit words) j = true
  | i :: is, words, hlt, hj => by
    rw [List.foldl_cons]
    rcases List.mem_cons.mp hj with rfl | hj
    · exact hasBit_foldl_setBit_of_hasBit (hasBit_setBit_self (hlt j List.mem_cons_self))
    · apply hasBit_foldl_setBit _ hj
      intro k hk
      rw [length_setBit]
      exact hlt k (List.mem_cons_of_mem _ hk)

end Ipfrs.Lib.BitWords
