/-
Ipfrs.Lib.Fnv — the FNV-1a hashes of 64 and of 32 bits.

A hash goes over the bytes: each is added to the hash so far with `xor`, and the result is
multiplied by a prime, modulo the width. The 64-bit prime has an inverse modulo `2^64`, so
one step is injective in the hash so far (`step_left`) and, the hash being fixed, in its
byte (`step_right`). A data in which one byte is changed therefore has another hash
(`hash_set_ne`): the two runs differ after that byte, and no later step brings them
together again (`hashFrom_injective`).

`hashFrom` takes the value to start from, since some users seed the hash.
-/
import Mathlib.Data.List.Basic

namespace Ipfrs.Lib.Fnv

def prime : UInt64 := 0x100000001b3

def offset : UInt64 := 0xcbf29ce484222325

/-- One byte more. -/
def step (h : UInt64) (b : UInt8) : UInt64 := (h ^^^ b.toUInt64) * prime

def hashFrom (h : UInt64) (data : List UInt8) : UInt64 := data.foldl step h

/-- FNV-1a, 64 bits. -/
def hash (data : List UInt8) : UInt64 := hashFrom offset data

/-- FNV-1a, 32 bits. -/
def hash32 (data : List UInt8) : UInt32 :=
  data.foldl (fun h b => (h ^^^ b.toUInt32) * 16777619) 2166136261

/-! ## One changed byte -/

theorem prime_inverse : prime * 14886173955864302971 = 1 := by decide

theorem xor_of_step_eq {h h' : UInt64} {b b' : UInt8} (heq : step h b = step h' b') :
    h ^^^ b.toUInt64 = h' ^^^ b'.toUInt64 := by
  have hmul := congrArg (fun x : UInt64 => x * 14886173955864302971) heq
  simp only [step, UInt64.mul_assoc, prime_inverse, UInt64.mul_one] at hmul
  exact hmul

theorem step_left {h h' : UInt64} {b : UInt8} (heq : step h b = step h' b) : h = h' := by
  have hxor := congrArg (fun x => x ^^^ b.toUInt64) (xor_of_step_eq heq)
  simpa [UInt64.xor_assoc] using hxor

theorem step_right {h : UInt64} {b b' : UInt8} (heq : step h b = step h b') : b = b' := by
  have hxor := congrArg (fun x => h ^^^ x) (xor_of_step_eq heq)
  exact UInt8.toUInt64_inj.mp (by simpa [← UInt64.xor_assoc] using hxor)

theorem hashFrom_injective (bs : List UInt8) {h h' : UInt64}
    (heq : hashFrom h bs = hashFrom h' bs) : h = h' := by
  induction bs generalizing h h' with
  | nil => exact heq
  | cons b bs ih => exact step_left (ih heq)

/-- Every step is injective in the hash so far and in its byte, so one changed byte changes
the hash. -/
theorem hash_set_ne {bs : List UInt8} {i : Nat} {b : UInt8} (hi : i < bs.length)
    (hb : bs[i]? ≠ some b) : hash (bs.set i b) ≠ hash bs := by
  intro heq
  have hold : bs = bs.take i ++ bs[i] :: bs.drop (i + 1) := by
    rw [List.getElem_cons_drop, List.take_append_drop]
  have hset : bs.set i b = bs.take i ++ b :: bs.drop (i + 1) := by
    rw [List.set_eq_take_append_cons_drop, if_pos hi]
  have hfold : (bs.take i ++ b :: bs.drop (i + 1)).foldl step offset
      = (bs.take i ++ bs[i] :: bs.drop (i + 1)).foldl step offset := by
    rw [← hset, ← hold]
    exact heq
  rw [List.foldl_append, List.foldl_append] at hfold
  have hbyte := step_right (hashFrom_injective _ hfold)
  exact hb (by rw [List.getElem?_eq_getElem hi, hbyte])

end Ipfrs.Lib.Fnv
