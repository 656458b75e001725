/-
Ipfrs.Core.Car — content-addressable archives (`car.rs`).

A writer appends to a byte vector, which never fails, so `CarWriter.writer` is the
bytes written so far; a reader is the bytes not yet read. A header is a varint
length and a DAG-CBOR map; a block is a varint length, the CID, one flag byte and
the data, compressed when the flag is 1. The flag does not say which algorithm was
used, and an archive without flags is accepted too: the reader takes a first byte
that is neither 0 nor 1 as data.

`read_all_blocks` is a loop that ends at the end of the input. Every block it
reads takes at least one byte, so the model recurses on the bytes there are; with
none left `read_block` is at the end of the input (`readLoop_eq` is the
source's loop). Allocation is not modelled: a length the machine cannot grant
aborts the process where the model goes on to the read that fails.
-/
import Ipfrs.Core.Compression
import Ipfrs.Core.DagCbor

namespace Ipfrs.Core

open Ipfrs.Lib

/-- `CAR_VERSION`. -/
def carVersion : Nat := 1

/-- `MAX_VARINT_SIZE`. -/
def maxVarintSize : Nat := 10

/-! ## Varints -/

/-- The loop of `write_varint`, with the room left in its ten-byte buffer. A `u64`
never fills it (`readVarint_writeVarint`); a write past it would panic. -/
def writeVarintLoop : Nat → Nat → List UInt8
  | 0, _ => []
  | room + 1, value =>
    let byte := value % 128
    let value := value / 128
    if value = 0 then [UInt8.ofNat byte]
    else UInt8.ofNat (byte + 128) :: writeVarintLoop room value

/-- `write_varint`: the bytes it appends for a `u64`. -/
def writeVarint (value : Nat) : List UInt8 := writeVarintLoop maxVarintSize value

/-- `Read::read_exact` on a byte slice, through `From<io::Error>`. -/
def readExactIo (n : Nat) (input : List UInt8) : Except Error (List UInt8 × List UInt8) :=
  if n ≤ input.length then .ok (input.take n, input.drop n)
  else .error (.io "failed to fill whole buffer")

/-- The loop of `read_varint_opt`, with the rounds it has left. -/
def readVarintLoop : Nat → Nat → Nat → List UInt8 → Except Error (Option Nat × List UInt8)
  | 0, _, _, _ => .error (.deserialization "Varint exceeds maximum size")
  | _ + 1, shift, _, [] =>
    -- the end of the input is an end only in front of a number
    if shift = 0 then .ok (none, []) else .error (.io "failed to fill whole buffer")
  | rounds + 1, shift, result, byte :: input =>
    -- a shift of a u64 drops the bits above the 64
    let result := result ||| ((byte.toNat % 128) <<< shift) % 2 ^ 64
    if byte.toNat < 128 then .ok (some result, input)
    else if shift + 7 ≥ 64 then .error (.deserialization "Varint too large")
    else readVarintLoop rounds (shift + 7) result input

/-- `read_varint_opt`. -/
def readVarintOpt (input : List UInt8) : Except Error (Option Nat × List UInt8) :=
  readVarintLoop maxVarintSize 0 0 input

/-- `read_varint`. -/
def readVarint (input : List UInt8) : Except Error (Nat × List UInt8) := do
  match ← readVarintOpt input with
  | (some value, input) => .ok (value, input)
  | (none, _) => .error (.deserialization "Unexpected EOF reading varint")

/-! ## The header -/

/-- `CarHeader`. -/
structure CarHeader where
  version : Nat
  roots : List Cid
  deriving DecidableEq

/-- `CarHeader::new`. -/
def CarHeader.new (roots : List Cid) : CarHeader := { version := carVersion, roots }

/-- The map a header is written as. -/
def CarHeader.toIpld (h : CarHeader) : Ipld :=
  .map (SortedAssoc.ofEntries
    [("version", .integer h.version), ("roots", .list (h.roots.map Ipld.link))])

/-- One element of the `roots` list. -/
def headerRoot : Ipld → Except Error Cid
  | .link c => .ok c
  | _ => .error (.deserialization "Invalid root CID in header")

section

variable [CidCrate]

/-- `CarHeader::encode`. -/
def CarHeader.encode (h : CarHeader) : Except Error (List UInt8) := h.toIpld.toDagCbor

/-- `CarHeader::decode`. -/
def CarHeader.decode (data : List UInt8) : Except Error CarHeader := do
  match ← Ipld.fromDagCbor data with
  | .map m =>
    match Ipld.field m "version" with
    | some (.integer v) =>
      -- an i128 cast to u64
      let version := (v % 2 ^ 64).toNat
      if version ≠ carVersion then
        .error (.deserialization ("Unsupported CAR version: " ++ toString version))
      else match Ipld.field m "roots" with
      | some (.list items) => do
          let roots ← items.mapM headerRoot
          .ok { version, roots }
      | _ => .error (.deserialization "CAR header missing roots")
    | _ => .error (.deserialization "CAR header missing version")
  | _ => .error (.deserialization "CAR header must be a map")

end

/-! ## Writing -/

/-- `CarCompressionStats`. -/
structure CarCompressionStats where
  blocksProcessed : Nat := 0
  uncompressedBytes : Nat := 0
  compressedBytes : Nat := 0
  blocksCompressed : Nat := 0
  deriving DecidableEq

/-- `CarWriter`, over a byte vector. The level is an `i32`. -/
structure CarWriter where
  writer : List UInt8
  headerWritten : Bool
  compression : Option (CompressionAlgorithm × Int)
  stats : CarCompressionStats
  deriving DecidableEq

/-- An `i32` cast to `u8`. -/
def asU8 (level : Int) : Nat := (level % 256).toNat

section

variable [CidCrate] [CompressionCrates]

/-- `CarWriter::write_header`. -/
def CarWriter.writeHeader (w : CarWriter) (header : CarHeader) : Except Error CarWriter := do
  let headerBytes ← header.encode
  .ok { w with
    writer := w.writer ++ writeVarint (asU64 headerBytes.length) ++ headerBytes
    headerWritten := true }

/-- `CarWriter::new_with_options`, over an empty vector. -/
def CarWriter.newWithOptions (roots : List Cid)
    (compression : Option (CompressionAlgorithm × Int)) : Except Error CarWriter :=
  CarWriter.writeHeader { writer := [], headerWritten := false, compression, stats := {} }
    (CarHeader.new roots)

/-- The data a block is written with, and whether it is marked as compressed. -/
def CarWriter.payload (compression : Option (CompressionAlgorithm × Int))
    (data : List UInt8) : Except Error (List UInt8 × Bool) :=
  match compression with
  | some (algorithm, level) => do
      let compressed ← compress data algorithm (asU8 level)
      .ok (compressed, decide (algorithm ≠ .none))
  | none => .ok (data, false)

/-- `CarWriter::write_block`. -/
def CarWriter.writeBlock (w : CarWriter) (block : Block) : Except Error CarWriter := do
  if !w.headerWritten then
    throw (.invalidData "CAR header not written")
  let cidBytes := CidCrate.toBytes block.cid
  let (finalData, wasCompressed) ← CarWriter.payload w.compression block.data
  let totalLen := cidBytes.length + 1 + finalData.length
  .ok { w with
    writer := w.writer ++ writeVarint (asU64 totalLen) ++ cidBytes
      ++ [if wasCompressed then 1 else 0] ++ finalData
    stats := {
      blocksProcessed := w.stats.blocksProcessed + 1
      uncompressedBytes := w.stats.uncompressedBytes + block.data.length
      compressedBytes := w.stats.compressedBytes + finalData.length
      blocksCompressed := w.stats.blocksCompressed + if wasCompressed then 1 else 0 } }

/-- An archive: a writer with its header, then the blocks one by one. -/
def writeCar (roots : List Cid) (compression : Option (CompressionAlgorithm × Int))
    (blocks : List Block) : Except Error CarWriter := do
  let w ← CarWriter.newWithOptions roots compression
  blocks.foldlM CarWriter.writeBlock w

end

/-! ## Reading -/

/-- `CarReader`: the bytes not yet read, and the header. -/
structure CarReader where
  reader : List UInt8
  header : CarHeader
  deriving DecidableEq

section

variable [CidCrate] [CidStream] [CompressionCrates]

/-- `CarReader::new`. -/
def CarReader.new (reader : List UInt8) : Except Error CarReader := do
  let (headerLen, reader) ← readVarint reader
  let (headerBytes, reader) ← readExactIo headerLen reader
  let header ← CarHeader.decode headerBytes
  .ok { reader, header }

/-- `read_block` once the bytes of the block are there. -/
def parseBlock (blockBytes : List UInt8) : Except Error Block := do
  match CidStream.readBytes blockBytes with
  | .error e => .error (.cid ("Failed to parse CID: " ++ e))
  | .ok (cid, cursor) =>
    match cursor with
    | [] => .error (.deserialization "Empty block data")
    | flag :: rest => do
        -- a byte that is no flag is data
        let rawData := if flag = 0 ∨ flag = 1 then rest else flag :: rest
        let finalData ← if flag = 1 then decompressAny rawData else .ok rawData
        let block ← Block.new finalData
        if block.cid ≠ cid then
          .error (.invalidData ("Block CID mismatch: expected " ++ CidStream.display cid
            ++ ", got " ++ CidStream.display block.cid))
        else .ok block

/-- `CarReader::read_block`: `none` at the end of the input. -/
def CarReader.readBlock (r : CarReader) : Except Error (Option Block × CarReader) := do
  match ← readVarintOpt r.reader with
  | (none, reader) => .ok (none, { r with reader })
  | (some totalLen, reader) => do
      let (blockBytes, reader) ← readExactIo totalLen reader
      let block ← parseBlock blockBytes
      .ok (some block, { r with reader })

/-- The loop of `read_all_blocks`, with a bound on the blocks still to come. -/
def CarReader.readLoop : Nat → CarReader → List Block → Except Error (List Block × CarReader)
  | 0, r, blocks => .ok (blocks, r)
  | fuel + 1, r, blocks => do
      match ← r.readBlock with
      | (none, r) => .ok (blocks, r)
      | (some block, r) => CarReader.readLoop fuel r (blocks ++ [block])

/-- `CarReader::read_all_blocks`. -/
def CarReader.readAllBlocks (r : CarReader) : Except Error (List Block × CarReader) :=
  CarReader.readLoop r.reader.length r []

end

end Ipfrs.Core
