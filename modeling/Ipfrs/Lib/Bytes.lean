/-
Ipfrs.Lib.Bytes — integers and text as byte lists.

Three views every binary codec needs, over `List UInt8`:

* a natural number in `w` bytes, little-endian (`leBytes`, `leNat`) or
  big-endian (`beBytes`, `beNat`). Writing reduces modulo `256 ^ w`, so the
  writers are total and a truncating cast is the same function;
* a string as its UTF-8 bytes (`utf8`), with the validating reader
  `ofUtf8?`. A `String` IS a validated byte array here, so the two are
  inverse by construction;
* a number as a varint (`Varint.write`, `Varint.read`).
-/
import Mathlib.Data.String.Basic

namespace Ipfrs.Lib

/-! ## Numbers in a fixed number of bytes -/

/-- The low `w` bytes of `n`, least significant first. -/
def leBytes : Nat → Nat → List UInt8
  | 0, _ => []
  | w + 1, n => UInt8.ofNat (n % 256) :: leBytes w (n / 256)

/-- The number whose bytes, least significant first, are given. -/
def leNat : List UInt8 → Nat
  | [] => 0
  | b :: bs => b.toNat + 256 * leNat bs

/-- The low `w` bytes of `n`, most significant first. -/
def beBytes (w n : Nat) : List UInt8 := (leBytes w n).reverse

/-- The number whose bytes, most significant first, are given. -/
def beNat (bs : List UInt8) : Nat := leNat bs.reverse

theorem toNat_ofNat_mod (n : Nat) : (UInt8.ofNat (n % 256)).toNat = n % 256 := by
  simp

@[simp] theorem length_leBytes (w n : Nat) : (leBytes w n).length = w := by
  induction w generalizing n with
  | zero => rfl
  | succ w ih => simp [leBytes, ih]

@[simp] theorem length_beBytes (w n : Nat) : (beBytes w n).length = w := by
  simp [beBytes]

/-- Reading back what was written gives the number modulo the width. -/
theorem leNat_leBytes (w n : Nat) : leNat (leBytes w n) = n % 256 ^ w := by
  induction w generalizing n with
  | zero => simp [leBytes, leNat, Nat.mod_one]
  | succ w ih =>
    rw [leBytes, leNat, ih, toNat_ofNat_mod, Nat.pow_succ', Nat.mod_mul]

theorem leNat_lt (bs : List UInt8) : leNat bs < 256 ^ bs.length := by
  induction bs with
  | nil => simp [leNat]
  | cons b bs ih =>
    have hb : b.toNat < 256 := b.toNat_lt
    rw [leNat, List.length_cons, Nat.pow_succ']
    omega

/-- Writing the number a byte list denotes gives the byte list back. -/
theorem leBytes_leNat (bs : List UInt8) : leBytes bs.length (leNat bs) = bs := by
  induction bs with
  | nil => rfl
  | cons b bs ih =>
    have hb : b.toNat < 256 := b.toNat_lt
    have hmod : (b.toNat + 256 * leNat bs) % 256 = b.toNat := by omega
    have hdiv : (b.toNat + 256 * leNat bs) / 256 = leNat bs := by omega
    rw [List.length_cons, leBytes, leNat, hmod, hdiv, ih]
    simp

theorem beNat_beBytes (w n : Nat) : beNat (beBytes w n) = n % 256 ^ w := by
  simp [beNat, beBytes, leNat_leBytes]

theorem beNat_beBytes_of_lt {w n : Nat} (h : n < 256 ^ w) : beNat (beBytes w n) = n := by
  rw [beNat_beBytes, Nat.mod_eq_of_lt h]

theorem leNat_leBytes_of_lt {w n : Nat} (h : n < 256 ^ w) : leNat (leBytes w n) = n := by
  rw [leNat_leBytes, Nat.mod_eq_of_lt h]

theorem beNat_lt (bs : List UInt8) : beNat bs < 256 ^ bs.length := by
  have h := leNat_lt bs.reverse
  simpa [beNat] using h

theorem beBytes_beNat (bs : List UInt8) : beBytes bs.length (beNat bs) = bs := by
  have h := leBytes_leNat bs.reverse
  rw [List.length_reverse] at h
  rw [beBytes, beNat, h, List.reverse_reverse]

/-! ## Text as bytes -/

/-- The UTF-8 bytes of a string. -/
def utf8 (s : String) : List UInt8 := s.toUTF8.data.toList

/-- The string a byte list spells, if it is valid UTF-8. -/
def ofUtf8? (bs : List UInt8) : Option String := String.fromUTF8? ⟨bs.toArray⟩

/-- Every string is recovered from its bytes. -/
@[simp] theorem ofUtf8?_utf8 (s : String) : ofUtf8? (utf8 s) = some s := by
  have hbytes : (⟨(utf8 s).toArray⟩ : ByteArray) = s.toByteArray := by
    simp [utf8]
  rw [ofUtf8?, hbytes, String.fromUTF8?, dif_pos s.isValidUTF8]
  rfl

/-- An accepted byte list is exactly the UTF-8 of the string it spells. -/
theorem utf8_of_ofUtf8? {bs : List UInt8} {s : String} (h : ofUtf8? bs = some s) : utf8 s = bs := by
  rw [ofUtf8?, String.fromUTF8?] at h
  split at h
  · cases h
    simp [utf8, String.fromUTF8]
  · cases h

/-! ## Varints

Unsigned LEB128: seven bits a byte, least significant group first, the high bit set on
every byte but the last. The writer recurses on the number of groups it may still emit, so
it computes by structural recursion; `128 ^ (w + 1)` bounds what `w + 1` groups can hold.
-/

namespace Varint

/-- Write `n` in at most `w + 1` groups. -/
def write : Nat → Nat → List UInt8
  | 0, n => [UInt8.ofNat n]
  | w + 1, n =>
    if n < 128 then [UInt8.ofNat n]
    else UInt8.ofNat (n % 128 + 128) :: write w (n / 128)

/-- Read one number and return what follows it. -/
def read : List UInt8 → Option (Nat × List UInt8)
  | [] => none
  | b :: rest =>
    if b.toNat < 128 then some (b.toNat, rest)
    else match read rest with
    | some (m, rest) => some (b.toNat - 128 + 128 * m, rest)
    | none => none

/-- Reading what was written gives the number back and leaves the suffix. -/
theorem read_write (rest : List UInt8) :
    ∀ (w n : Nat), n < 128 ^ (w + 1) → read (write w n ++ rest) = some (n, rest)
  | 0, n, h => by
    have hn : n < 128 := by simpa using h
    simp [write, read, UInt8.toNat_ofNat_of_lt' (show n < 256 by omega), hn]
  | w + 1, n, h => by
    rw [write]
    split
    · next hn => simp [read, UInt8.toNat_ofNat_of_lt' (show n < 256 by omega), hn]
    · next hn =>
      have hdiv : n / 128 < 128 ^ (w + 1) :=
        Nat.div_lt_of_lt_mul (by rw [Nat.pow_succ'] at h; exact h)
      have hb := UInt8.toNat_ofNat_of_lt' (show n % 128 + 128 < 256 by omega)
      have hbig : ¬ n % 128 + 128 < 128 := by omega
      have hval : n % 128 + 128 - 128 + 128 * (n / 128) = n := by omega
      rw [List.cons_append, read, hb, if_neg hbig, read_write rest w (n / 128) hdiv]
      simp only [hval]

/-- A number takes at least one byte. -/
theorem read_shorter : ∀ {input rest : List UInt8} {n : Nat},
    read input = some (n, rest) → rest.length < input.length
  | [], _, _, h => by cases h
  | b :: input, rest, n, h => by
    rw [read] at h
    split at h
    · cases h
      simp
    · split at h
      · next hread =>
        cases h
        have ih := read_shorter hread
        simp only [List.length_cons]
        omega
      · cases h

theorem length_write_le : ∀ (w n : Nat), (write w n).length ≤ w + 1
  | 0, n => by simp [write]
  | w + 1, n => by
    have := length_write_le w (n / 128)
    rw [write]
    split <;> simp only [List.length_cons, List.length_nil] <;> omega

end Varint

/-! ## The lexicographic order of byte strings, against the orders of what the bytes stand for

`Below a b` says that `a` and `b` first differ at a byte where `a` is smaller:
unlike `a < b` it also excludes that `a` is a prefix of `b`, so it survives any
two suffixes. Two encodings are monotone for it: big-endian numbers of one width
(`below_beBytes`) and UTF-8 (`utf8_lt_utf8`, the order of `String` being the
order of code points). -/

/-- The two strings first differ at a byte, and `a` has the smaller one there. -/
def Below (a b : List UInt8) : Prop :=
  ∃ p x y a' b', a = p ++ x :: a' ∧ b = p ++ y :: b' ∧ x < y

theorem below_cons {x y : UInt8} (h : x < y) (a b : List UInt8) : Below (x :: a) (y :: b) :=
  ⟨[], x, y, a, b, rfl, rfl, h⟩

namespace Below

variable {a b : List UInt8}

theorem append (h : Below a b) (s t : List UInt8) : Below (a ++ s) (b ++ t) := by
  obtain ⟨p, x, y, a', b', rfl, rfl, hxy⟩ := h
  exact ⟨p, x, y, a' ++ s, b' ++ t, by simp, by simp, hxy⟩

theorem append_left (h : Below a b) (p : List UInt8) : Below (p ++ a) (p ++ b) := by
  obtain ⟨q, x, y, a', b', rfl, rfl, hxy⟩ := h
  exact ⟨p ++ q, x, y, a', b', by simp, by simp, hxy⟩

theorem lt (h : Below a b) : a < b := by
  obtain ⟨p, x, y, a', b', rfl, rfl, hxy⟩ := h
  induction p with
  | nil => exact List.Lex.rel hxy
  | cons z p ih => exact List.Lex.cons ih

end Below

/-! ## Big-endian numbers -/

theorem beBytes_succ (w n : Nat) :
    beBytes (w + 1) n = beBytes w (n / 256) ++ [UInt8.ofNat (n % 256)] := by
  simp [beBytes, leBytes]

/-- Numbers of one width compare as their bytes do. -/
theorem below_beBytes (w : Nat) {n m : Nat} (hm : m < 256 ^ w) (h : n < m) :
    Below (beBytes w n) (beBytes w m) := by
  induction w generalizing n m with
  | zero => simp at hm; omega
  | succ w ih =>
    rw [beBytes_succ, beBytes_succ]
    have hq : m / 256 < 256 ^ w := by
      rw [Nat.pow_succ] at hm
      exact Nat.div_lt_of_lt_mul (by omega)
    by_cases hdiv : n / 256 < m / 256
    · exact (ih hq hdiv).append _ _
    · have heq : n / 256 = m / 256 := by omega
      rw [heq]
      refine (below_cons ?_ [] []).append_left _
      rw [UInt8.lt_iff_toNat_lt, toNat_ofNat_mod, toNat_ofNat_mod]
      omega

/-! ## UTF-8 -/

theorem utf8_ofList (cs : List Char) :
    utf8 (String.ofList cs) = cs.flatMap String.utf8EncodeChar := by
  simp [utf8, List.utf8Encode]

theorem utf8_eq_flatMap (s : String) : utf8 s = s.toList.flatMap String.utf8EncodeChar := by
  rw [← utf8_ofList, String.ofList_toList]

/-- Two strings compare by their first byte, and by the rest where that agrees. -/
theorem below_ofNat_cons {x y : Nat} (hx : x < 256) (hy : y < 256) {a b : List UInt8}
    (h : x < y ∨ x = y ∧ Below a b) : Below (UInt8.ofNat x :: a) (UInt8.ofNat y :: b) := by
  rcases h with hlt | ⟨rfl, hab⟩
  · refine below_cons ?_ a b
    rw [UInt8.lt_iff_toNat_lt, UInt8.toNat_ofNat_of_lt' hx, UInt8.toNat_ofNat_of_lt' hy]
    exact hlt
  · exact hab.append_left [UInt8.ofNat x]

/-- The last `k` bytes of a code point: six bits each, behind the mark `10`. -/
def continuation : Nat → Nat → List UInt8
  | 0, _ => []
  | k + 1, v => UInt8.ofNat (v / 64 ^ k % 64 + 0x80) :: continuation k v

theorem below_continuation (k : Nat) {v w : Nat} (h : v % 64 ^ k < w % 64 ^ k) :
    Below (continuation k v) (continuation k w) := by
  induction k with
  | zero => simp [Nat.mod_one] at h
  | succ k ih =>
    have hv : v % 64 ^ (k + 1) = v % 64 ^ k + 64 ^ k * (v / 64 ^ k % 64) := by
      rw [Nat.pow_succ, Nat.mod_mul]
    have hw : w % 64 ^ (k + 1) = w % 64 ^ k + 64 ^ k * (w / 64 ^ k % 64) := by
      rw [Nat.pow_succ, Nat.mod_mul]
    have hmod : w % 64 ^ k < 64 ^ k := Nat.mod_lt _ (Nat.pow_pos (by decide))
    refine below_ofNat_cons (by omega) (by omega) ?_
    rcases Nat.lt_trichotomy (v / 64 ^ k % 64) (w / 64 ^ k % 64) with hlt | heq | hgt
    · exact .inl (by omega)
    · rw [hv, hw, heq] at h
      exact .inr ⟨by omega, ih (by omega)⟩
    · have hle := Nat.mul_le_mul_left (64 ^ k) (Nat.succ_le_of_lt hgt)
      rw [Nat.mul_succ] at hle
      omega

/-- The lead byte of a code point of `k + 1` bytes carries the bits above the
continuation. -/
theorem below_lead (k mark : Nat) {v w : Nat} (hv : v / 64 ^ k + mark < 256)
    (hw : w / 64 ^ k + mark < 256) (h : v < w) :
    Below (UInt8.ofNat (v / 64 ^ k + mark) :: continuation k v)
      (UInt8.ofNat (w / 64 ^ k + mark) :: continuation k w) := by
  refine below_ofNat_cons hv hw ?_
  have hle : v / 64 ^ k ≤ w / 64 ^ k := Nat.div_le_div_right (Nat.le_of_lt h)
  rcases Nat.lt_or_eq_of_le hle with hlt | heq
  · exact .inl (by omega)
  · refine .inr ⟨by omega, below_continuation k ?_⟩
    have hdv := Nat.div_add_mod v (64 ^ k)
    have hdw := Nat.div_add_mod w (64 ^ k)
    rw [heq] at hdv
    omega

/-- The continuation length and the lead mark of a code point. -/
def utf8Form (v : Nat) : Nat × Nat :=
  if v ≤ 0x7f then (0, 0)
  else if v ≤ 0x7ff then (1, 0xc0)
  else if v ≤ 0xffff then (2, 0xe0)
  else (3, 0xf0)

/-- The lead byte. -/
def utf8Lead (v : Nat) : Nat := v / 64 ^ (utf8Form v).1 + (utf8Form v).2

theorem char_toNat_lt (c : Char) : c.toNat < 0x110000 := by
  have hc : c.toNat.isValidChar := c.valid
  rcases hc with h | h <;> omega

theorem utf8EncodeChar_eq (c : Char) : String.utf8EncodeChar c =
      UInt8.ofNat (utf8Lead c.toNat) :: continuation (utf8Form c.toNat).1 c.toNat := by
  have hc := char_toNat_lt c
  unfold String.utf8EncodeChar utf8Lead utf8Form
  simp only [Char.toNat_val]
  by_cases h1 : c.toNat ≤ 0x7f
  · simp [h1, continuation]
  · simp only [h1, if_false]
    by_cases h2 : c.toNat ≤ 0x7ff
    · have hlead : c.toNat / 64 % 0x20 = c.toNat / 64 := by omega
      simp [h2, continuation, hlead]
    · simp only [h2, if_false]
      by_cases h3 : c.toNat ≤ 0xffff
      · have hlead : c.toNat / 4096 % 0x10 = c.toNat / 4096 := by omega
        simp [h3, continuation, hlead]
      · have hlead : c.toNat / 262144 % 0x08 = c.toNat / 262144 := by omega
        simp [h3, continuation, hlead]

/-- A lead byte is its mark and fewer bits than separate it from the next mark. -/
theorem utf8Lead_cases {v : Nat} (hv : v < 0x110000) :
    v ≤ 0x7f ∧ utf8Form v = (0, 0) ∧ utf8Lead v < 0x80 ∨
    0x7f < v ∧ v ≤ 0x7ff ∧ utf8Form v = (1, 0xc0) ∧ 0xc0 ≤ utf8Lead v ∧ utf8Lead v < 0xe0 ∨
    0x7ff < v ∧ v ≤ 0xffff ∧ utf8Form v = (2, 0xe0) ∧ 0xe0 ≤ utf8Lead v ∧ utf8Lead v < 0xf0 ∨
    0xffff < v ∧ utf8Form v = (3, 0xf0) ∧ 0xf0 ≤ utf8Lead v ∧ utf8Lead v < 0x100 := by
  unfold utf8Lead utf8Form
  by_cases h1 : v ≤ 0x7f
  · simp [h1]; omega
  · by_cases h2 : v ≤ 0x7ff
    · simp [h1, h2]; omega
    · by_cases h3 : v ≤ 0xffff
      · simp [h1, h2, h3]; omega
      · simp [h1, h2, h3]; omega

theorem utf8Lead_lt {v : Nat} (hv : v < 0x110000) : utf8Lead v < 256 := by
  have h := utf8Lead_cases hv
  omega

theorem utf8Lead_lt_of_form_ne {v w : Nat} (hw : w < 0x110000) (h : v < w)
    (hne : utf8Form v ≠ utf8Form w) : utf8Lead v < utf8Lead w := by
  rcases utf8Lead_cases (v := v) (by omega) with ⟨_, hv, _⟩ | ⟨_, _, hv, _⟩ | ⟨_, _, hv, _⟩ |
      ⟨_, hv, _⟩ <;>
    rcases utf8Lead_cases hw with ⟨_, hw, _⟩ | ⟨_, _, hw, _⟩ | ⟨_, _, hw, _⟩ | ⟨_, hw, _⟩ <;>
      first
        | exact absurd (hv.trans hw.symm) hne
        | omega

/-- Code points compare as their encodings do: a wider one has a larger first
byte, and in one width the payload bits stand most significant first. -/
theorem below_utf8EncodeChar {c d : Char} (h : c < d) :
    Below (String.utf8EncodeChar c) (String.utf8EncodeChar d) := by
  have hlt : c.toNat < d.toNat := h
  have hc := utf8Lead_lt (char_toNat_lt c)
  have hd := utf8Lead_lt (char_toNat_lt d)
  rw [utf8EncodeChar_eq, utf8EncodeChar_eq]
  by_cases hform : utf8Form c.toNat = utf8Form d.toNat
  · unfold utf8Lead at hc hd ⊢
    rw [hform] at hc ⊢
    exact below_lead _ _ hc hd hlt
  · have hlead := utf8Lead_lt_of_form_ne (char_toNat_lt d) hlt hform
    exact below_ofNat_cons hc hd (.inl hlead)

theorem flatMap_utf8_lt {cs ds : List Char} (h : cs < ds) :
    cs.flatMap String.utf8EncodeChar < ds.flatMap String.utf8EncodeChar := by
  induction h with
  | nil =>
    rename_i d ds
    obtain ⟨x, xs, hx⟩ := List.exists_cons_of_ne_nil (String.utf8EncodeChar_ne_nil (c := d))
    simp only [List.flatMap_nil, List.flatMap_cons, hx]
    exact List.Lex.nil
  | cons _ ih =>
    simp only [List.flatMap_cons]
    exact List.append_left_lt ih
  | rel hcd =>
    simp only [List.flatMap_cons]
    exact ((below_utf8EncodeChar hcd).append _ _).lt

/-- The order of strings is the order of their UTF-8 bytes. -/
theorem utf8_lt_utf8 {s t : String} (h : s < t) : utf8 s < utf8 t := by
  rw [utf8_eq_flatMap, utf8_eq_flatMap]
  exact flatMap_utf8_lt (String.lt_iff_toList_lt.mp h)

end Ipfrs.Lib
