/-
Ipfrs.Core.Compression — block compression (`compression.rs`).

The codecs are two crates outside the repository; `CompressionCrates` is what
they provide, and `CompressionCrates.Lawful` what their documentation promises of
the sizes a block may have: decompressing what was compressed gives the data
back, given room for it, and a Zstandard decoder refuses what does not start with
a frame's magic number. An LZ4 payload of this module starts with the size of a
block, which is far below both magic numbers.
-/
import Ipfrs.Core.Block

namespace Ipfrs.Core

open Ipfrs.Lib

/-- `CompressionAlgorithm`. -/
inductive CompressionAlgorithm where
  | none
  | zstd
  | lz4
  deriving DecidableEq, Repr

/-- What the `oxiarc_zstd` and `oxiarc_lz4` crates provide, with their error
texts. -/
class CompressionCrates where
  /-- `oxiarc_zstd::compress_with_level`. -/
  zstdCompress : List UInt8 → Int → Except String (List UInt8)
  /-- `oxiarc_zstd::decompress`. -/
  zstdDecompress : List UInt8 → Except String (List UInt8)
  /-- `oxiarc_lz4::compress`. -/
  lz4Compress : List UInt8 → Except String (List UInt8)
  /-- `oxiarc_lz4::decompress`, with a bound on the output. -/
  lz4Decompress : List UInt8 → Nat → Except String (List UInt8)

section

variable [CompressionCrates]

/-- `compress_zstd`: the level 0-9 spread over 1-22. -/
def compressZstd (data : List UInt8) (level : Nat) : Except Error (List UInt8) :=
  let zstdLevel : Int := if level = 0 then 1 else 1 + ((level * 21 / 9 : Nat) : Int)
  match CompressionCrates.zstdCompress data zstdLevel with
  | .ok compressed => .ok compressed
  | .error e => .error (.internal ("Zstd compression failed: " ++ e))

/-- `decompress_zstd`. -/
def decompressZstd (data : List UInt8) : Except Error (List UInt8) :=
  match CompressionCrates.zstdDecompress data with
  | .ok decompressed => .ok decompressed
  | .error e => .error (.internal ("Zstd decompression failed: " ++ e))

/-- `compress_lz4`: the original size in four bytes, then the frame. -/
def compressLz4 (data : List UInt8) (_level : Nat) : Except Error (List UInt8) :=
  match CompressionCrates.lz4Compress data with
  | .ok payload => .ok (leBytes 4 data.length ++ payload)
  | .error e => .error (.internal ("LZ4 compression failed: " ++ e))

/-- `decompress_lz4`. -/
def decompressLz4 (data : List UInt8) : Except Error (List UInt8) :=
  if data.length < 4 then
    .error (.internal "LZ4 block too short (missing original size header)")
  else
    let origSize := leNat (data.take 4)
    let maxOutput := max (origSize * 2) (origSize + 64)
    match CompressionCrates.lz4Decompress (data.drop 4) maxOutput with
    | .ok decompressed => .ok decompressed
    | .error e => .error (.internal ("LZ4 decompression failed: " ++ e))

/-- `compress`. The level is checked whatever the algorithm. -/
def compress (data : List UInt8) (algorithm : CompressionAlgorithm) (level : Nat) :
    Except Error (List UInt8) :=
  if level > 9 then
    .error (.invalidInput ("Invalid compression level " ++ toString level ++ ", must be 0-9"))
  else match algorithm with
  | .none => .ok data
  | .zstd => compressZstd data level
  | .lz4 => compressLz4 data level

/-- `decompress`. -/
def decompress (data : List UInt8) (algorithm : CompressionAlgorithm) :
    Except Error (List UInt8) :=
  match algorithm with
  | .none => .ok data
  | .zstd => decompressZstd data
  | .lz4 => decompressLz4 data

/-- A size a block may have. -/
def BlockSized (data : List UInt8) : Prop :=
  minBlockSize ≤ data.length ∧ data.length ≤ maxBlockSize

/-- The crates on data of a block's size: both formats round-trip, a compressed
form is a byte vector, and Zstandard refuses an LZ4 payload behind its size. -/
class CompressionCrates.Lawful : Prop where
  zstd : ∀ (data : List UInt8) (level : Int), BlockSized data → 1 ≤ level → level ≤ 22 →
    ∃ c, CompressionCrates.zstdCompress data level = .ok c ∧ c.length < 2 ^ 62 ∧
      CompressionCrates.zstdDecompress c = .ok data
  lz4 : ∀ data : List UInt8, BlockSized data →
    ∃ c, CompressionCrates.lz4Compress data = .ok c ∧ c.length < 2 ^ 62 ∧
      (∀ room, data.length ≤ room → CompressionCrates.lz4Decompress c room = .ok data) ∧
      ∃ e, CompressionCrates.zstdDecompress (leBytes 4 data.length ++ c) = .error e

/-- What a reader does that does not know the algorithm: Zstandard first, LZ4 where
that fails. -/
def decompressAny (data : List UInt8) : Except Error (List UInt8) :=
  match decompress data .zstd with
  | .ok decompressed => .ok decompressed
  | .error _ => decompress data .lz4

theorem decompressAny_compressZstd [CompressionCrates.Lawful] {data : List UInt8}
    (hsize : BlockSized data) {level : Nat} (hlevel : level ≤ 9) :
    ∃ c, compressZstd data level = .ok c ∧ c.length < 2 ^ 63 ∧ decompressAny c = .ok data := by
  have hspread : (1 : Int) ≤ (if level = 0 then 1 else 1 + ((level * 21 / 9 : Nat) : Int)) ∧
      (if level = 0 then 1 else 1 + ((level * 21 / 9 : Nat) : Int)) ≤ 22 := by
    split <;> omega
  obtain ⟨c, hc, hlen, hback⟩ := CompressionCrates.Lawful.zstd data _ hsize hspread.1 hspread.2
  refine ⟨c, ?_, by omega, ?_⟩
  · simp only [compressZstd, hc]
  · simp only [decompressAny, decompress, decompressZstd, hback]

theorem decompressAny_compressLz4 [CompressionCrates.Lawful] {data : List UInt8}
    (hsize : BlockSized data) (level : Nat) :
    ∃ c, compressLz4 data level = .ok c ∧ c.length < 2 ^ 63 ∧ decompressAny c = .ok data := by
  obtain ⟨c, hc, hlen, hback, e, he⟩ := CompressionCrates.Lawful.lz4 data hsize
  have hhead : (leBytes 4 data.length).length = 4 := length_leBytes 4 _
  have horig : leNat (leBytes 4 data.length) = data.length := by
    have hmax : maxBlockSize < 256 ^ 4 := by decide
    exact leNat_leBytes_of_lt (Nat.lt_of_le_of_lt hsize.2 hmax)
  refine ⟨leBytes 4 data.length ++ c, ?_, ?_, ?_⟩
  · simp only [compressLz4, hc]
  · simp only [List.length_append, hhead]; omega
  · have hroom : data.length ≤ max (data.length * 2) (data.length + 64) := by omega
    have hlz4 : decompressLz4 (leBytes 4 data.length ++ c) = .ok data := by
      rw [decompressLz4, if_neg (by simp [hhead])]
      simp only [List.take_left' hhead, List.drop_left' hhead, horig, hback _ hroom]
    simp only [decompressAny, decompress, decompressZstd, he, hlz4]

/-- **Compressed data is read back** without knowing the algorithm. -/
theorem decompressAny_compress [CompressionCrates.Lawful] {data : List UInt8}
    (hsize : BlockSized data) {algorithm : CompressionAlgorithm} (halg : algorithm ≠ .none)
    {level : Nat} (hlevel : level ≤ 9) :
    ∃ c, compress data algorithm level = .ok c ∧ c.length < 2 ^ 63 ∧
      decompressAny c = .ok data := by
  have hok : ¬ level > 9 := by omega
  cases algorithm with
  | none => exact absurd rfl halg
  | zstd => simpa [compress, hok] using decompressAny_compressZstd hsize hlevel
  | lz4 => simpa [compress, hok] using decompressAny_compressLz4 hsize level

end

end Ipfrs.Core

/-! ## The Zstandard and LZ4 frame formats with stored data, as an instance of `CompressionCrates`

Both formats can carry a block uncompressed. This module writes and reads such
frames, so that the assumptions of `CompressionCrates.Lawful` are seen to hold of
the two formats and a concrete run can be evaluated. A reader that meets a
compressed block refuses it. -/

namespace Ipfrs.Core.StoredFrames

open Ipfrs.Lib

/-- The largest block of a Zstandard frame: 128 KiB. -/
def zstdBlockMax : Nat := 131072

def zstdMagic : List UInt8 := [0x28, 0xb5, 0x2f, 0xfd]

/-- A raw block: 21 bits of size, the type 0 and the last-block bit, then the data. -/
def rawBlock (last : Nat) (data : List UInt8) : List UInt8 :=
  leBytes 3 (data.length * 8 + last) ++ data

def rawBlocks : Nat → List UInt8 → List UInt8
  | 0, data => rawBlock 1 data
  | fuel + 1, data =>
    if data.length ≤ zstdBlockMax then rawBlock 1 data
    else rawBlock 0 (data.take zstdBlockMax) ++ rawBlocks fuel (data.drop zstdBlockMax)

def readRawBlocks : Nat → List UInt8 → Option (List UInt8)
  | 0, _ => none
  | fuel + 1, b =>
    let head := leNat (b.take 3)
    let body := b.drop 3
    if b.length < 3 ∨ head / 2 % 4 ≠ 0 ∨ body.length < head / 8 then none
    else if head % 2 = 1 then if body.length = head / 8 then some body else none
    else match readRawBlocks fuel (body.drop (head / 8)) with
    | some rest => some (body.take (head / 8) ++ rest)
    | none => none

/-- A frame with a four-byte content size and raw blocks. -/
def zstdFrame (data : List UInt8) : List UInt8 :=
  zstdMagic ++ 0xa0 :: (leBytes 4 data.length ++ rawBlocks data.length data)

def readZstdFrame (b : List UInt8) : Except String (List UInt8) :=
  if b.take 4 = zstdMagic ∧ b.length ≥ 9 then
    match readRawBlocks b.length (b.drop 9) with
    | some data => .ok data
    | none => .error "corrupted block"
  else .error "invalid magic number"

/-- Magic number, flags, block maximum of 4 MiB and the header's checksum. -/
def lz4Header : List UInt8 := [0x04, 0x22, 0x4d, 0x18, 0x60, 0x70, 0x73]

/-- A frame with one uncompressed block (the high bit of its size is set) and the
end mark. -/
def lz4Frame (data : List UInt8) : List UInt8 :=
  lz4Header ++ (leBytes 4 (data.length + 2 ^ 31) ++ (data ++ [0, 0, 0, 0]))

def readLz4Frame (b : List UInt8) (room : Nat) : Except String (List UInt8) :=
  let size := leNat ((b.drop 7).take 4) - 2 ^ 31
  if b.take 7 = lz4Header ∧ b.length = size + 15 ∧ size ≤ room then
    .ok ((b.drop 11).take size)
  else .error "corrupted frame"

/-- The two formats with stored data. Scoped: only a concrete run opens it. -/
scoped instance crates : CompressionCrates where
  zstdCompress data _ := .ok (zstdFrame data)
  zstdDecompress := readZstdFrame
  lz4Compress data := .ok (lz4Frame data)
  lz4Decompress := readLz4Frame

/-! ## Zstandard -/

theorem leNat_rawBlock_head {n : Nat} (hn : n < 2 ^ 21) {last : Nat} (hlast : last ≤ 1) :
    leNat (leBytes 3 (n * 8 + last)) = n * 8 + last :=
  leNat_leBytes_of_lt (by omega)

theorem readRawBlocks_last {data : List UInt8} (h : data.length < 2 ^ 21) (fuel : Nat) :
    readRawBlocks (fuel + 1) (rawBlock 1 data) = some data := by
  have hhead := leNat_rawBlock_head h (Nat.le_refl 1)
  have hlen : (leBytes 3 (data.length * 8 + 1)).length = 3 := length_leBytes 3 _
  have htype : ¬ (data.length * 8 + 1) / 2 % 4 ≠ 0 := by omega
  have hsize : (data.length * 8 + 1) / 8 = data.length := by omega
  have hlast : (data.length * 8 + 1) % 2 = 1 := by omega
  simp [readRawBlocks, rawBlock, List.take_left' hlen, List.drop_left' hlen, hhead, htype, hsize,
    hlast]

theorem readRawBlocks_more {data : List UInt8} (h : data.length < 2 ^ 21) (rest : List UInt8)
    (fuel : Nat) : readRawBlocks (fuel + 1) (rawBlock 0 data ++ rest)
      = (readRawBlocks fuel rest).map (data ++ ·) := by
  have hhead := leNat_rawBlock_head h (Nat.zero_le 1)
  have hlen : (leBytes 3 (data.length * 8 + 0)).length = 3 := length_leBytes 3 _
  have htype : ¬ (data.length * 8 + 0) / 2 % 4 ≠ 0 := by omega
  have hsize : (data.length * 8 + 0) / 8 = data.length := by omega
  have hlast : ¬ (data.length * 8 + 0) % 2 = 1 := by omega
  rw [rawBlock, List.append_assoc, readRawBlocks]
  simp only [List.take_left' hlen, List.drop_left' hlen, hhead, htype, hsize, hlast]
  cases hrest : readRawBlocks fuel rest with
  | none => simp [hrest]
  | some r => simp [hrest]

theorem readRawBlocks_rawBlocks : ∀ (n fuel : Nat) (data : List UInt8), data.length ≤ n →
    (rawBlocks n data).length ≤ fuel → readRawBlocks fuel (rawBlocks n data) = some data
  | 0, fuel, data, hn, hfuel => by
    cases fuel with
    | zero => simp [rawBlocks, rawBlock] at hfuel
    | succ fuel => exact readRawBlocks_last (by omega) fuel
  | n + 1, fuel, data, hn, hfuel => by
    cases fuel with
    | zero =>
      rw [rawBlocks] at hfuel
      split at hfuel <;> simp [rawBlock] at hfuel
    | succ fuel =>
      rw [rawBlocks] at hfuel ⊢
      have hmax : zstdBlockMax < 2 ^ 21 := by decide
      split
      · next hle => exact readRawBlocks_last (by omega) fuel
      · next hgt =>
        rw [if_neg hgt] at hfuel
        have htake : (data.take zstdBlockMax).length < 2 ^ 21 := by
          rw [List.length_take]; omega
        have hpos : 0 < zstdBlockMax := by decide
        have hrest : (rawBlocks n (data.drop zstdBlockMax)).length ≤ fuel := by
          simp only [rawBlock, List.length_append, length_leBytes] at hfuel
          omega
        rw [readRawBlocks_more htake, readRawBlocks_rawBlocks n fuel _
          (by rw [List.length_drop]; omega) hrest]
        simp

theorem readZstdFrame_zstdFrame (data : List UInt8) :
    readZstdFrame (zstdFrame data) = .ok data := by
  have hread := readRawBlocks_rawBlocks data.length (zstdFrame data).length data (Nat.le_refl _)
    (by simp [zstdFrame, zstdMagic]; omega)
  have htake : (zstdFrame data).take 4 = zstdMagic := rfl
  have hdrop : (zstdFrame data).drop 9 = rawBlocks data.length data := by
    simp [zstdFrame, zstdMagic, leBytes]
  have hlen : (zstdFrame data).length ≥ 9 := by simp [zstdFrame, zstdMagic]
  rw [readZstdFrame, if_pos ⟨htake, hlen⟩, hdrop, hread]

/-- The size of a block is not the magic number of a frame. -/
theorem readZstdFrame_size (data c : List UInt8) (hsize : BlockSized data) :
    readZstdFrame (leBytes 4 data.length ++ c) = .error "invalid magic number" := by
  have hne : leBytes 4 data.length ≠ zstdMagic := by
    intro h
    have hval := congrArg leNat h
    have hmax : maxBlockSize < leNat zstdMagic := by decide
    have hlt : data.length < 256 ^ 4 := Nat.lt_of_le_of_lt hsize.2 (by decide)
    rw [leNat_leBytes_of_lt hlt] at hval
    have := hsize.2
    omega
  have htake : (leBytes 4 data.length ++ c).take 4 = leBytes 4 data.length :=
    List.take_left' (length_leBytes 4 _)
  rw [readZstdFrame, if_neg]
  rw [htake]
  exact fun h => hne h.1

theorem length_rawBlocks_le : ∀ (n : Nat) (data : List UInt8),
    (rawBlocks n data).length ≤ data.length + 3 * (n + 1)
  | 0, data => by simp [rawBlocks, rawBlock]; omega
  | n + 1, data => by
    have ih := length_rawBlocks_le n (data.drop zstdBlockMax)
    rw [rawBlocks]
    split
    · simp [rawBlock]; omega
    · simp only [rawBlock, List.length_append, length_leBytes, List.length_take,
        List.length_drop] at ih ⊢
      omega

/-! ## LZ4 -/

theorem readLz4Frame_lz4Frame {data : List UInt8} (hsize : BlockSized data) {room : Nat}
    (hroom : data.length ≤ room) : readLz4Frame (lz4Frame data) room = .ok data := by
  have hlt : data.length + 2 ^ 31 < 256 ^ 4 := by
    have hmax : maxBlockSize + 2 ^ 31 < 256 ^ 4 := by decide
    have := hsize.2
    omega
  have htake : (lz4Frame data).take 7 = lz4Header := rfl
  have hdrop : (lz4Frame data).drop 7
      = leBytes 4 (data.length + 2 ^ 31) ++ (data ++ [0, 0, 0, 0]) := rfl
  have hdrop' : (lz4Frame data).drop 11 = data ++ [0, 0, 0, 0] := by
    simp [lz4Frame, lz4Header, leBytes]
  have hlen : (lz4Frame data).length = data.length + 15 := by
    simp [lz4Frame, lz4Header]; omega
  have hval : leNat (((lz4Frame data).drop 7).take 4) - 2 ^ 31 = data.length := by
    rw [hdrop, List.take_left' (length_leBytes 4 _), leNat_leBytes_of_lt hlt]
    omega
  rw [readLz4Frame, hval, if_pos ⟨htake, hlen, hroom⟩, hdrop', List.take_left' rfl]

/-- Stored frames meet what the archive relies on. -/
scoped instance crates_lawful : CompressionCrates.Lawful where
  zstd data _ hsize _ _ := by
    refine ⟨zstdFrame data, rfl, ?_, readZstdFrame_zstdFrame data⟩
    have hmax : maxBlockSize < 2 ^ 22 := by decide
    have hlen := length_rawBlocks_le data.length data
    have := hsize.2
    simp only [zstdFrame, zstdMagic, List.length_append, List.length_cons, List.length_nil,
      length_leBytes]
    omega
  lz4 data hsize := by
    refine ⟨lz4Frame data, rfl, ?_, fun _ hroom => readLz4Frame_lz4Frame hsize hroom,
      _, readZstdFrame_size data _ hsize⟩
    have hmax : maxBlockSize < 2 ^ 22 := by decide
    have := hsize.2
    simp only [lz4Frame, lz4Header, List.length_append, List.length_cons, List.length_nil,
      length_leBytes]
    omega

end Ipfrs.Core.StoredFrames
