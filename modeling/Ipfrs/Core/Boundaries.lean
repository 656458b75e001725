/-
Ipfrs.Core.Boundaries — where content-defined chunks end, and the hash that ends them.

The boundary loop keeps the distance from the last boundary at or below the maximum,
because it is looked at with every byte and grows by one: a forced boundary ends a
chunk of exactly the maximal length. So the positions `find_boundaries` returns go up,
end at the end of the data, and lie between the two bounds apart (`ScanInv`). The
bounds are computed as `target_size / 4` and `target_size * 4`, and the product wraps;
for a target that large the maximum can be below the minimum.
-/
import Ipfrs.Core.ChunkingTheorems
import Ipfrs.Lib.RollingHash

namespace Ipfrs.Core

open Ipfrs.Lib

namespace RabinChunker

/-- A round ends no chunk and stays below one of the bounds, or ends one of at least the
minimal length. -/
theorem scanByte_cases (r : RabinChunker) (s : Scan) (i : Nat) (byte : UInt8) :
    ((r.scanByte s i byte).boundaries = s.boundaries ∧
      (r.scanByte s i byte).lastBoundary = s.lastBoundary ∧
      (i - s.lastBoundary < r.minSize ∨ i - s.lastBoundary < r.maxSize)) ∨
    ((r.scanByte s i byte).boundaries = s.boundaries ++ [i] ∧
      (r.scanByte s i byte).lastBoundary = i ∧ r.minSize ≤ i - s.lastBoundary) := by
  unfold scanByte
  dsimp only
  split
  · next hmin =>
    split
    · exact .inr ⟨rfl, rfl, hmin⟩
    · next hmax =>
      split
      · exact .inr ⟨rfl, rfl, hmin⟩
      · exact .inl ⟨rfl, rfl, .inr (not_le.mp hmax)⟩
  · next hmin => exact .inl ⟨rfl, rfl, .inl (not_le.mp hmin)⟩

/-- **The invariant of the boundary loop** before position `i`. -/
structure ScanInv (r : RabinChunker) (i : Nat) (s : Scan) : Prop where
  increasing : s.boundaries.Pairwise (· < ·)
  below : ∀ b ∈ s.boundaries, b ≤ s.lastBoundary
  last : s.boundaries.getLastD 0 = s.lastBoundary
  bounded : ∀ n ∈ pieceLengths 0 s.boundaries, r.minSize ≤ n ∧ n ≤ r.maxSize
  le : s.lastBoundary ≤ i
  reach : i - s.lastBoundary ≤ r.maxSize

namespace ScanInv

variable {r : RabinChunker}

theorem start (r : RabinChunker) (window : List UInt8) : ScanInv r 0 { window } where
  increasing := List.Pairwise.nil
  below := by simp
  last := rfl
  bounded := by simp [pieceLengths]
  le := Nat.le_refl 0
  reach := by simp

theorem step {i : Nat} {s : Scan} (h : ScanInv r i s) (hmin : 1 ≤ r.minSize)
    (hle : r.minSize ≤ r.maxSize) (byte : UInt8) : ScanInv r (i + 1) (r.scanByte s i byte) := by
  have hreach := h.reach
  have hlast := h.le
  rcases r.scanByte_cases s i byte with ⟨hb, hl, hlt⟩ | ⟨hb, hl, hsize⟩
  · refine ⟨?_, ?_, ?_, ?_, ?_, ?_⟩
    · rw [hb]
      exact h.increasing
    · rw [hb, hl]
      exact h.below
    · rw [hb, hl]
      exact h.last
    · rw [hb]
      exact h.bounded
    · omega
    · omega
  · refine ⟨?_, ?_, ?_, ?_, ?_, ?_⟩
    · rw [hb]
      refine List.pairwise_append.mpr ⟨h.increasing, List.pairwise_singleton _ _, ?_⟩
      intro b hmem c hc
      have hbelow := h.below b hmem
      have hci := List.mem_singleton.mp hc
      omega
    · rw [hb, hl]
      intro b hmem
      rcases List.mem_append.mp hmem with hmem | hmem
      · exact (h.below b hmem).trans h.le
      · exact (List.mem_singleton.mp hmem).le
    · simp [hb, hl]
    · rw [hb, pieceLengths_append_singleton, h.last]
      intro n hn
      rcases List.mem_append.mp hn with hn | hn
      · exact h.bounded n hn
      · rw [List.mem_singleton.mp hn]
        exact ⟨hsize, hreach⟩
    · omega
    · omega

/-- The loop keeps it. -/
theorem run (hmin : 1 ≤ r.minSize) (hle : r.minSize ≤ r.maxSize) (bytes : List UInt8) :
    ∀ {i : Nat} {s : Scan}, ScanInv r i s → ScanInv r (i + bytes.length) (r.scan i bytes s) := by
  induction bytes with
  | nil => exact fun h => h
  | cons byte rest ih =>
    intro i s h
    have := ih (h.step hmin hle byte)
    rwa [List.length_cons, Nat.add_comm rest.length, ← Nat.add_assoc]

end ScanInv

/-- The positions go up and end at the end of the data, every chunk but the last is
between the two bounds long, and the last one is not empty and not longer than the
maximum. -/
structure Partitions (r : RabinChunker) (data : List UInt8) (boundaries : List Nat) :
    Prop where
  increasing : boundaries.Pairwise (· < ·)
  last : boundaries.getLast? = some data.length
  inner : ∀ n ∈ (pieceLengths 0 boundaries).dropLast, r.minSize ≤ n ∧ n ≤ r.maxSize
  final : ∀ n ∈ (pieceLengths 0 boundaries).getLast?, 1 ≤ n ∧ n ≤ r.maxSize

variable {data : List UInt8} {boundaries : List Nat}

/-- One chunk. -/
theorem partitions_singleton {r : RabinChunker} (hdata : data ≠ []) (h : data.length ≤ r.maxSize) :
    Partitions r data [data.length] where
  increasing := List.pairwise_singleton _ _
  last := rfl
  inner := by simp [pieceLengths]
  final := by
    have hpos := List.length_pos_of_ne_nil hdata
    simp only [pieceLengths, List.getLast?_singleton, Option.mem_some_iff]
    omega

theorem findBoundaries_partitions {r : RabinChunker} (hmin : 1 ≤ r.minSize)
    (hle : r.minSize ≤ r.maxSize) (hdata : data ≠ []) :
    Partitions r data (r.findBoundaries data) := by
  have hpos : 0 < data.length := List.length_pos_of_ne_nil hdata
  unfold findBoundaries
  split
  · exact partitions_singleton hdata (by omega)
  · have hinv := ScanInv.run hmin hle data (ScanInv.start r (List.replicate r.windowSize 0))
    have hlt := scan_lastBoundary_lt r data 0 { window := List.replicate r.windowSize 0 }
      (by omega : 0 + data.length ≤ data.length) hpos
    rw [Nat.zero_add] at hinv
    simp only [if_pos hlt]
    refine ⟨?_, List.getLast?_concat, ?_, ?_⟩
    · refine List.pairwise_append.mpr ⟨hinv.increasing, List.pairwise_singleton _ _, ?_⟩
      intro b hmem c hc
      rw [List.mem_singleton.mp hc]
      exact lt_of_le_of_lt (hinv.below b hmem) hlt
    · rw [pieceLengths_append_singleton, List.dropLast_concat]
      exact hinv.bounded
    · rw [pieceLengths_append_singleton, List.getLast?_concat, hinv.last]
      intro n hn
      have hreach := hinv.reach
      rw [Option.mem_some_iff] at hn
      omega

/-- Where the bounds have crossed, only one chunk can keep to them. -/
theorem Partitions.length_le {r : RabinChunker} (h : Partitions r data boundaries)
    (hlt : r.maxSize < r.minSize) : data.length ≤ r.maxSize := by
  obtain ⟨init, hinit⟩ := List.getLast?_eq_some_iff.mp h.last
  have hinner := h.inner
  have hfinal := h.final
  rw [hinit, pieceLengths_append_singleton] at hinner hfinal
  rw [List.dropLast_concat] at hinner
  rw [List.getLast?_concat] at hfinal
  cases init with
  | nil => simpa using (hfinal _ rfl).2
  | cons b init =>
    have := hinner (b - 0) List.mem_cons_self
    omega

/-- No chunk is empty. -/
theorem Partitions.pos {r : RabinChunker} (h : Partitions r data boundaries)
    (hmin : 1 ≤ r.minSize) : ∀ n ∈ pieceLengths 0 boundaries, 1 ≤ n := by
  intro n hn
  have hne := List.ne_nil_of_mem hn
  rw [← List.dropLast_concat_getLast hne, List.mem_append] at hn
  rcases hn with hn | hn
  · exact hmin.trans (h.inner n hn).1
  · rw [List.mem_singleton] at hn
    exact (h.final n (by rw [hn, List.getLast?_eq_some_getLast hne]; rfl)).1

/-- No chunk ends past the data. -/
theorem Partitions.le_length {r : RabinChunker} (h : Partitions r data boundaries) :
    ∀ b ∈ boundaries, b ≤ data.length := by
  obtain ⟨init, hinit⟩ := List.getLast?_eq_some_iff.mp h.last
  have hup := h.increasing
  rw [hinit] at hup ⊢
  intro b hb
  rcases List.mem_append.mp hb with hb | hb
  · exact ((List.pairwise_append.mp hup).2.2 b hb _ (List.mem_singleton_self _)).le
  · exact (List.mem_singleton.mp hb).le

/-- **The bounds of the chunks.** For a target of at least `MIN_CHUNK_SIZE` the positions
keep to the bounds if the target's fourfold fits into 64 bits, and otherwise exactly if
the wrapped maximum is not below the minimum or not below the length of the data. -/
theorem findBoundaries_partitions_iff (targetSize : Nat) (htarget : minChunkSize ≤ targetSize)
    (data : List UInt8) (hdata : data ≠ []) :
    (targetSize < 2 ^ 62 → Partitions (new targetSize) data ((new targetSize).findBoundaries data))
    ∧ (Partitions (new targetSize) data ((new targetSize).findBoundaries data) ↔
      targetSize / 4 ≤ targetSize * 4 % 2 ^ 64 ∨ data.length ≤ targetSize * 4 % 2 ^ 64) := by
  have hmin : 1 ≤ (new targetSize).minSize := by
    show 1 ≤ targetSize / 4
    unfold minChunkSize at htarget
    omega
  have hfits : (new targetSize).minSize ≤ (new targetSize).maxSize →
      Partitions (new targetSize) data ((new targetSize).findBoundaries data) :=
    fun hle => findBoundaries_partitions hmin hle hdata
  constructor
  · intro hlt
    refine hfits ?_
    show targetSize / 4 ≤ targetSize * 4 % 2 ^ 64
    rw [Nat.mod_eq_of_lt (by omega)]
    omega
  · constructor
    · intro h
      by_cases hle : (new targetSize).minSize ≤ (new targetSize).maxSize
      · exact .inl hle
      · exact .inr (h.length_le (not_le.mp hle))
    · intro h
      by_cases hle : (new targetSize).minSize ≤ (new targetSize).maxSize
      · exact hfits hle
      · -- the data is one chunk, below the minimum
        have hlen : data.length ≤ (new targetSize).maxSize := h.resolve_left hle
        rw [findBoundaries, if_pos (by omega)]
        exact partitions_singleton hdata hlen

/-- 5000 zeros are more than one chunk may hold. -/
theorem findBoundaries_partitions_iff_zeros :
    let boundaries := (new minChunkSize).findBoundaries (List.replicate 5000 0)
    Partitions (new minChunkSize) (List.replicate 5000 0) boundaries ∧ 2 ≤ boundaries.length := by
  intro boundaries
  have h : Partitions (new minChunkSize) (List.replicate 5000 0) boundaries :=
    (findBoundaries_partitions_iff minChunkSize (Nat.le_refl _) (List.replicate 5000 0)
      (List.cons_ne_nil _ _)).1 (by decide)
  refine ⟨h, ?_⟩
  have hlast := h.last
  have hfinal := h.final
  rw [List.length_replicate] at hlast
  match boundaries, hlast, hfinal with
  | [_], rfl, hfinal => exact absurd (hfinal 5000 rfl).2 (by decide)
  | _ :: _ :: _, _, _ => exact Nat.le_add_left _ _

/-- With a target of 2^62 the maximum wraps to zero, and one byte is too long a chunk. -/
theorem not_partitions_of_wrap :
    ¬ ∀ targetSize, minChunkSize ≤ targetSize → targetSize < 2 ^ 64 → ∀ data : List UInt8,
      data ≠ [] → Partitions (new targetSize) data ((new targetSize).findBoundaries data) := by
  intro h
  have hone := (h (2 ^ 62) (by decide) (by decide) [0] (by simp)).length_le (by
    show asU64 (2 ^ 62 * 4) < 2 ^ 62 / 4
    decide)
  have hmax : (new (2 ^ 62)).maxSize = 0 := by
    show asU64 (2 ^ 62 * 4) = 0
    decide
  rw [hmax] at hone
  simp at hone

end RabinChunker

/-! ## What the hash of the boundary loop depends on

`out_table` shifts the byte that leaves the window as often as it has been shifted since
it entered, so the byte cancels, but it folds in the polynomial with every shift. The sum
of these, one and the same for every byte, is added to the hash in every step and nothing
takes it out again. The hash is that of the window plus a drift that depends on how many
bytes were read since the hash was last reset (`Rolled`), with period 64. -/

theorem getElem_rotateLeft1 (x : UInt64) (i : Nat) (hi : i < 64) :
    (rotateLeft1 x).toBitVec[i] = if i = 0 then x.toBitVec[63] else x.toBitVec[i - 1] := by
  have hleft : (x <<< 1).toBitVec[i] = (if i = 0 then false else x.toBitVec[i - 1]) := by
    rw [UInt64.toBitVec_shiftLeft]
    show (x.toBitVec <<< (1 : Nat))[i] = _
    rw [BitVec.getElem_shiftLeft]
    by_cases h0 : i = 0
    · simp [h0]
    · simp [h0, show ¬ i < 1 by omega]
  have hright : (x >>> 63).toBitVec[i] = (if i = 0 then x.toBitVec[63] else false) := by
    rw [UInt64.toBitVec_shiftRight]
    show (x.toBitVec >>> (63 : Nat))[i] = _
    rw [BitVec.getElem_ushiftRight]
    by_cases h0 : i = 0
    · simp [h0]
    · simp [h0, show 64 ≤ 63 + i by omega]
  rw [rotateLeft1, UInt64.toBitVec_or, BitVec.getElem_or, hleft, hright]
  by_cases h0 : i = 0
  · simp [h0]
  · simp [h0]

theorem rotateLeft1_xor (x y : UInt64) :
    rotateLeft1 (x ^^^ y) = rotateLeft1 x ^^^ rotateLeft1 y := by
  apply UInt64.toBitVec_inj.mp
  ext i hi
  rw [UInt64.toBitVec_xor, BitVec.getElem_xor]
  simp only [getElem_rotateLeft1 _ i hi, UInt64.toBitVec_xor, BitVec.getElem_xor]
  split
  · rfl
  · rfl

theorem eq_zero_of_rotateLeft1 {x : UInt64} (h : rotateLeft1 x = 0) : x = 0 := by
  apply UInt64.toBitVec_inj.mp
  ext i hi
  have hbit := getElem_rotateLeft1 x ((i + 1) % 64) (Nat.mod_lt _ (by decide))
  rw [h] at hbit
  by_cases hlast : i = 63
  · subst hlast
    simpa using hbit.symm
  · have hmod : (i + 1) % 64 = i + 1 := Nat.mod_eq_of_lt (by omega)
    simpa [hmod] using hbit.symm

theorem xorLaws : RollingHash.Laws (· ^^^ ·) (0 : UInt64) rotateLeft1 where
  assoc := UInt64.xor_assoc
  comm := UInt64.xor_comm
  xor_self := fun _ => UInt64.xor_self
  xor_zero := fun _ => UInt64.xor_zero
  shift_xor := rotateLeft1_xor

namespace RabinChunker

/-- The hash of the bytes of a window. -/
def windowHash (window : List UInt8) : UInt64 :=
  RollingHash.hash (· ^^^ ·) 0 rotateLeft1 inTable window

/-- What a constant adds to the hash in `n` steps. -/
def drift (k : UInt64) (n : Nat) : UInt64 := RollingHash.drift (· ^^^ ·) 0 rotateLeft1 k n

/-- What `out_table` folds in besides the byte. -/
def polynomialSum (r : RabinChunker) : UInt64 := drift r.polynomial r.windowSize

theorem windowHash_roll (out byte : UInt8) (rest : List UInt8) (k : UInt64) (n : Nat) :
    rotateLeft1 (windowHash (out :: rest) ^^^ drift k n)
        ^^^ (rotateLeft1^[rest.length + 1] (inTable out) ^^^ k) ^^^ inTable byte
      = windowHash (rest ++ [byte]) ^^^ drift k (n + 1) :=
  RollingHash.xor_roll xorLaws out byte rest k n

theorem outTable_eq (r : RabinChunker) (byte : UInt8) :
    r.outTable byte = rotateLeft1^[r.windowSize] (inTable byte) ^^^ r.polynomialSum :=
  RollingHash.iterate_shift_xor_const xorLaws _ _ _

/-! ## The loop -/

/-- Whether the round at position `i` resets the hash. -/
def resets (r : RabinChunker) (s : Scan) (i : Nat) : Bool :=
  decide (r.minSize ≤ i - s.lastBoundary) && decide (r.maxSize ≤ i - s.lastBoundary)

/-- The bytes read since the last reset, `since` of them before position `i`. -/
def sinceReset (r : RabinChunker) : Nat → List UInt8 → Scan → List UInt8 → List UInt8
  | _, [], _, since => since
  | i, byte :: rest, s, since =>
    r.sinceReset (i + 1) rest (r.scanByte s i byte)
      (if r.resets s i then [] else since ++ [byte])

/-- The variables before the first byte. -/
def init (r : RabinChunker) : Scan := { window := List.replicate r.windowSize 0 }

/-- The window, its oldest byte first. -/
def Scan.contents (s : Scan) : List UInt8 := s.window.rotate s.windowPos

/-- A round resets the window and the hash, or pushes the byte into both. -/
theorem scanByte_hash (r : RabinChunker) (s : Scan) (i : Nat) (byte : UInt8) :
    (r.resets s i = true ∧ (r.scanByte s i byte).hash = 0 ∧
      (r.scanByte s i byte).window = List.replicate r.windowSize 0 ∧
      (r.scanByte s i byte).windowPos = 0) ∨ (r.resets s i = false ∧ (r.scanByte s i byte).hash
        = rotateLeft1 s.hash ^^^ r.outTable (s.window.getD s.windowPos 0) ^^^ inTable byte ∧
      (r.scanByte s i byte).window = s.window.set s.windowPos byte ∧
      (r.scanByte s i byte).windowPos = (s.windowPos + 1) % r.windowSize) := by
  unfold scanByte
  dsimp only
  split
  · next hmin =>
    split
    · next hmax => exact .inl ⟨by simp [resets, hmin, hmax], rfl, rfl, rfl⟩
    · next hmax =>
      have hno : r.resets s i = false := by simp [resets, hmax]
      split
      · exact .inr ⟨hno, rfl, rfl, rfl⟩
      · exact .inr ⟨hno, rfl, rfl, rfl⟩
  · next hmin => exact .inr ⟨by simp [resets, hmin], rfl, rfl, rfl⟩

/-- **The invariant of the window**: it holds the last bytes since the reset, behind zeros
if these are fewer, and the hash is theirs plus the drift of that many steps. -/
structure Rolled (r : RabinChunker) (s : Scan) (since : List UInt8) : Prop where
  length : s.window.length = r.windowSize
  pos : s.windowPos < r.windowSize
  contents : s.contents = (List.replicate r.windowSize 0 ++ since).drop since.length
  hash : s.hash = windowHash s.contents ^^^ drift r.polynomialSum since.length

namespace Rolled

variable {r : RabinChunker}

/-- Zeros hash to zero. -/
theorem windowHash_replicate (n : Nat) : windowHash (List.replicate n 0) = 0 := by
  induction n with
  | zero => rfl
  | succ n ih =>
    rw [List.replicate_succ', windowHash, RollingHash.hash_concat]
    show rotateLeft1 (windowHash (List.replicate n 0)) ^^^ inTable 0 = 0
    rw [ih]
    decide

theorem zeros (hpos : 0 < r.windowSize) {s : Scan} (hhash : s.hash = 0)
    (hwindow : s.window = List.replicate r.windowSize 0) (hwindowPos : s.windowPos = 0) :
    Rolled r s [] := by
  have hcontents : s.contents = List.replicate r.windowSize 0 := by
    rw [Scan.contents, hwindowPos, List.rotate_zero, hwindow]
  refine ⟨by simp [hwindow], by omega, by simp [hcontents], ?_⟩
  rw [hhash, hcontents, windowHash_replicate]
  exact (UInt64.xor_zero).symm

theorem init (hpos : 0 < r.windowSize) : Rolled r r.init [] := zeros hpos rfl rfl rfl

theorem step {s : Scan} {since : List UInt8} (h : Rolled r s since) (i : Nat) (byte : UInt8) :
    Rolled r (r.scanByte s i byte) (if r.resets s i then [] else since ++ [byte]) := by
  have hlt : s.windowPos < s.window.length := by
    rw [h.length]
    exact h.pos
  have hpos : 0 < r.windowSize := Nat.lt_of_le_of_lt (Nat.zero_le _) h.pos
  rcases r.scanByte_hash s i byte with ⟨hr, hhash, hw, hp⟩ | ⟨hr, hhash, hw, hp⟩
  · rw [if_pos hr]
    exact zeros hpos hhash hw hp
  · rw [if_neg (by simp [hr])]
    -- the oldest byte is the one at the position that is written
    obtain ⟨rest, hcons⟩ : ∃ rest, s.contents = s.window[s.windowPos] :: rest :=
      ⟨_, RollingHash.rotate_eq_cons hlt⟩
    have hnext : (r.scanByte s i byte).contents = rest ++ [byte] := by
      rw [Scan.contents, hw, hp, ← h.length, RollingHash.rotate_set hlt byte]
      exact congrArg (fun l => List.tail l ++ [byte]) hcons
    have hlen : rest.length + 1 = r.windowSize := by
      rw [← h.length, ← List.length_rotate s.window s.windowPos]
      exact (congrArg List.length hcons).symm
    have hdrop : rest = (List.replicate r.windowSize 0 ++ since).drop (since.length + 1) := by
      rw [← List.tail_drop, ← h.contents, hcons, List.tail_cons]
    refine ⟨by rw [hw, List.length_set, h.length], by rw [hp]; exact Nat.mod_lt _ hpos, ?_, ?_⟩
    · rw [hnext, hdrop, List.length_append, List.length_singleton, ← List.append_assoc]
      refine (List.drop_append_of_le_length ?_).symm
      rw [List.length_append, List.length_replicate]
      omega
    · have hout : s.window.getD s.windowPos 0 = s.window[s.windowPos] := by
        simp [hlt]
      rw [hhash, hnext, hout, outTable_eq, h.hash, hcons, ← hlen, List.length_append]
      exact windowHash_roll _ _ _ _ _

theorem run (bytes : List UInt8) : ∀ {i : Nat} {s : Scan} {since : List UInt8},
    Rolled r s since → Rolled r (r.scan i bytes s) (r.sinceReset i bytes s since) := by
  induction bytes with
  | nil => exact fun h => h
  | cons byte rest ih => exact fun h => ih (h.step _ byte)

/-- With a window's worth of bytes since the reset, the window holds the last ones. -/
theorem contents_eq {s : Scan} {since : List UInt8} (h : Rolled r s since)
    (hlen : r.windowSize ≤ since.length) :
    s.contents = since.drop (since.length - r.windowSize) := by
  rw [h.contents, List.drop_append, List.length_replicate,
    List.drop_of_length_le (by simpa using hlen), List.nil_append]

end Rolled

/-- The bytes since the reset are the end of what was read. -/
theorem sinceReset_suffix (r : RabinChunker) (bytes : List UInt8) :
    ∀ (i : Nat) (s : Scan) (since : List UInt8),
      r.sinceReset i bytes s since <:+ since ++ bytes := by
  induction bytes with
  | nil => simp [sinceReset]
  | cons byte rest ih =>
    intro i s since
    rw [sinceReset]
    split
    · refine (ih _ _ []).trans ?_
      rw [List.nil_append]
      exact ⟨since ++ [byte], by simp⟩
    · have := ih (i + 1) (r.scanByte s i byte) (since ++ [byte])
      rwa [List.append_assoc] at this

/-! ## Two prefixes -/

/-- The variables after a prefix of the data. -/
def afterPrefix (r : RabinChunker) (front : List UInt8) : Scan := r.scan 0 front r.init

/-- The bytes of a prefix that were read since the last reset. -/
def bytesSinceReset (r : RabinChunker) (front : List UInt8) : List UInt8 :=
  r.sinceReset 0 front r.init []

/-- After a window's worth of bytes the hash is that of the last ones, plus the drift. -/
theorem hash_afterPrefix {r : RabinChunker} (hpos : 0 < r.windowSize) {front : List UInt8}
    (hlen : r.windowSize ≤ (r.bytesSinceReset front).length) :
    (r.afterPrefix front).hash = windowHash (front.drop (front.length - r.windowSize))
      ^^^ drift r.polynomialSum (r.bytesSinceReset front).length := by
  have hrolled : Rolled r (r.afterPrefix front) (r.bytesSinceReset front) :=
    (Rolled.init hpos).run front
  obtain ⟨before, hbefore⟩ := r.sinceReset_suffix front 0 r.init []
  rw [List.nil_append] at hbefore
  have hlast : front.drop (front.length - r.windowSize)
      = (r.bytesSinceReset front).drop ((r.bytesSinceReset front).length - r.windowSize) := by
    have hend : ∀ (n : Nat) (since : List UInt8), n ≤ since.length →
        (before ++ since).drop ((before ++ since).length - n)
          = since.drop (since.length - n) := by
      intro n since hn
      rw [List.length_append, Nat.add_sub_assoc hn, List.drop_append,
        List.drop_of_length_le (Nat.le_add_right _ _), List.nil_append, Nat.add_sub_cancel_left]
    have h := hend r.windowSize _ hlen
    rwa [show before ++ r.bytesSinceReset front = front from hbefore] at h
  rw [hrolled.hash, hrolled.contents_eq hlen, hlast]

/-- The sum of the polynomials drifts with period 64. -/
theorem drift_polynomialSum_eq_iff (targetSize n m : Nat) :
    drift (new targetSize).polynomialSum n = drift (new targetSize).polynomialSum m ↔
      n % 64 = m % 64 := by
  have hreturn : drift (drift 0x3DA3358B4DC173 48) 64 = 0 := by decide +kernel
  have hfirst : ∀ d < 64, 0 < d → drift (drift 0x3DA3358B4DC173 48) d ≠ 0 := by decide +kernel
  exact RollingHash.drift_eq_iff xorLaws (by decide) hreturn (fun d hpos hlt => hfirst d hlt hpos)
    (fun x => eq_zero_of_rotateLeft1) n m

/-- **When the hash is content-defined.** After two prefixes that end in the same window,
each with at least a window's worth of bytes since the last reset, the hashes agree
exactly if the numbers of bytes since then agree modulo 64. -/
theorem hash_eq_iff (targetSize : Nat) (front front' : List UInt8)
    (hlen : (new targetSize).windowSize ≤ ((new targetSize).bytesSinceReset front).length)
    (hlen' : (new targetSize).windowSize ≤ ((new targetSize).bytesSinceReset front').length)
    (hlast : front.drop (front.length - (new targetSize).windowSize)
      = front'.drop (front'.length - (new targetSize).windowSize)) :
    ((new targetSize).afterPrefix front).hash = ((new targetSize).afterPrefix front').hash ↔
      ((new targetSize).bytesSinceReset front).length % 64
        = ((new targetSize).bytesSinceReset front').length % 64 := by
  have hpos : 0 < (new targetSize).windowSize := by
    show 0 < 48
    decide
  rw [hash_afterPrefix hpos hlen, hash_afterPrefix hpos hlen', hlast]
  exact (RollingHash.Laws.xor_right_inj xorLaws).trans (drift_polynomialSum_eq_iff _ _ _)

/-- Nothing is reset within the first `n` bytes while `n` is below the minimum. -/
theorem bytesSinceReset_short {r : RabinChunker} (front : List UInt8)
    (h : front.length ≤ r.minSize) : r.bytesSinceReset front = front := by
  have hrun : ∀ (bytes : List UInt8) (i : Nat) (s : Scan) (since : List UInt8),
      i + bytes.length ≤ r.minSize → r.sinceReset i bytes s since = since ++ bytes := by
    intro bytes
    induction bytes with
    | nil => simp [sinceReset]
    | cons byte rest ih =>
      intro i s since hle
      rw [List.length_cons] at hle
      have hno : r.resets s i = false := by
        simp [resets, show ¬ r.minSize ≤ i - s.lastBoundary by omega]
      rw [sinceReset, if_neg (by simp [hno]), ih _ _ _ (by omega)]
      simp
  exact hrun front 0 _ [] (by omega)

theorem length_bytesSinceReset_zeros {n : Nat} (hn : n ≤ 256) :
    ((new minChunkSize).bytesSinceReset (List.replicate n 0)).length = n := by
  rw [bytesSinceReset_short _ (by rw [List.length_replicate]; exact hn), List.length_replicate]

/-- Two runs of zeros, 64 bytes apart. -/
theorem hash_eq_iff_zeros : ((new minChunkSize).afterPrefix (List.replicate 48 0)).hash
      = ((new minChunkSize).afterPrefix (List.replicate 112 0)).hash := by
  refine (hash_eq_iff minChunkSize _ _ ?_ ?_ ?_).mpr ?_
  · exact (length_bytesSinceReset_zeros (by decide : 48 ≤ 256)).ge
  · rw [length_bytesSinceReset_zeros (by decide : 112 ≤ 256)]
    show 48 ≤ 112
    decide
  · show List.drop (_ - 48) _ = List.drop (_ - 48) _
    simp
  · rw [length_bytesSinceReset_zeros (by decide : 48 ≤ 256),
      length_bytesSinceReset_zeros (by decide : 112 ≤ 256)]

/-- After 48 zero bytes and after 49 the window is the same and the hash is not. -/
theorem not_hash_eq : ¬ ∀ (targetSize : Nat) (front front' : List UInt8),
      (new targetSize).windowSize ≤ ((new targetSize).bytesSinceReset front).length →
      (new targetSize).windowSize ≤ ((new targetSize).bytesSinceReset front').length →
      front.drop (front.length - (new targetSize).windowSize)
        = front'.drop (front'.length - (new targetSize).windowSize) →
      ((new targetSize).afterPrefix front).hash = ((new targetSize).afterPrefix front').hash := by
  intro h
  have hpos : 0 < (new minChunkSize).windowSize := by
    show 0 < 48
    decide
  have hfirst : (new minChunkSize).windowSize
      ≤ ((new minChunkSize).bytesSinceReset (List.replicate 48 0)).length :=
    (length_bytesSinceReset_zeros (by decide : 48 ≤ 256)).ge
  have hsecond : (new minChunkSize).windowSize
      ≤ ((new minChunkSize).bytesSinceReset (List.replicate 49 0)).length := by
    rw [length_bytesSinceReset_zeros (by decide : 49 ≤ 256)]
    show 48 ≤ 49
    decide
  have hlast : (List.replicate 48 (0 : UInt8)).drop
        ((List.replicate 48 (0 : UInt8)).length - (new minChunkSize).windowSize)
      = (List.replicate 49 (0 : UInt8)).drop
        ((List.replicate 49 (0 : UInt8)).length - (new minChunkSize).windowSize) := by
    show List.drop (_ - 48) _ = List.drop (_ - 48) _
    simp
  have hsame := h minChunkSize _ _ hfirst hsecond hlast
  rw [hash_afterPrefix hpos hfirst, hash_afterPrefix hpos hsecond, hlast,
    RollingHash.Laws.xor_right_inj xorLaws, drift_polynomialSum_eq_iff,
    length_bytesSinceReset_zeros (by decide : 48 ≤ 256),
    length_bytesSinceReset_zeros (by decide : 49 ≤ 256)] at hsame
  cases hsame

end RabinChunker

end Ipfrs.Core
