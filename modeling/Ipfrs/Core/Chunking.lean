/-
Ipfrs.Core.Chunking — splitting a file into blocks under a Merkle DAG
(`chunking.rs`).

`Chunker::chunk` cuts the data into leaves, fixed-size or content-defined, and
then builds nodes level by level until one link is left. A call returns a value,
returns an error, or does not return: `none` is a panic (a chunk size or a node
width of zero) or a level loop that the given rounds did not end (a node width of
one never shortens a level).

Sizes are `u64` and `usize` on a 64-bit target. `target_size * 4` and the sum of
link sizes wrap as they do in a release build. The floating-point parts are
Lean's `Float`, the same IEEE operations: the boundary mask is taken from a
`log2`, and the statistics report a percentage.
-/
import Ipfrs.Core.Block
import Ipfrs.Core.DagCbor
import Ipfrs.Lib.Loop
import Mathlib.Algebra.Ring.Nat

namespace Ipfrs.Core

open Ipfrs.Lib

/-! ## Configuration -/

/-- `DEFAULT_CHUNK_SIZE`: 256 KiB. -/
def defaultChunkSize : Nat := 256 * 1024

/-- `MIN_CHUNK_SIZE`: 1 KiB. -/
def minChunkSize : Nat := 1024

/-- `MAX_CHUNK_SIZE`: 1 MiB. -/
def maxChunkSize : Nat := 1024 * 1024

/-- `MAX_LINKS_PER_NODE`. -/
def maxLinksPerNode : Nat := 174

/-- `ChunkingStrategy`. -/
inductive ChunkingStrategy where
  | fixedSize
  | contentDefined
  deriving DecidableEq, Repr

/-- `ChunkingConfig`, with its defaults. -/
structure ChunkingConfig where
  chunkSize : Nat := defaultChunkSize
  strategy : ChunkingStrategy := .fixedSize
  maxLinksPerNode : Nat := Ipfrs.Core.maxLinksPerNode
  deriving DecidableEq, Repr

namespace ChunkingConfig

/-- The bounds check of the three constructors, with the name of what it checks. -/
def checkSize (what : String) (size : Nat) : Except Error Unit :=
  if size < minChunkSize then
    .error (.invalidInput (what ++ " " ++ toString size ++ " is below minimum "
      ++ toString minChunkSize))
  else if size > maxChunkSize then
    .error (.invalidInput (what ++ " " ++ toString size ++ " exceeds maximum "
      ++ toString maxChunkSize))
  else .ok ()

/-- `ChunkingConfig::with_chunk_size`. -/
def withChunkSize (chunkSize : Nat) : Except Error ChunkingConfig := do
  checkSize "Chunk size" chunkSize
  .ok { chunkSize }

/-- `ChunkingConfig::content_defined_with_size`. -/
def contentDefinedWithSize (targetSize : Nat) : Except Error ChunkingConfig := do
  checkSize "Target chunk size" targetSize
  .ok { chunkSize := targetSize, strategy := .contentDefined }

/-- `ChunkingConfigBuilder`. -/
structure Builder where
  chunkSize : Option Nat := none
  strategy : Option ChunkingStrategy := none
  maxLinksPerNode : Option Nat := none

/-- `ChunkingConfigBuilder::build`: the node width is not checked. -/
def Builder.build (b : Builder) : Except Error ChunkingConfig := do
  let chunkSize := b.chunkSize.getD defaultChunkSize
  let strategy := b.strategy.getD .fixedSize
  let maxLinksPerNode := b.maxLinksPerNode.getD Ipfrs.Core.maxLinksPerNode
  checkSize "Chunk size" chunkSize
  .ok { chunkSize, strategy, maxLinksPerNode }

end ChunkingConfig

/-! ## Content-defined boundaries -/

/-- `RabinChunker`. -/
structure RabinChunker where
  targetSize : Nat
  minSize : Nat
  maxSize : Nat
  polynomial : UInt64
  windowSize : Nat
  mask : UInt64

/-- `u64::rotate_left(1)`. -/
def rotateLeft1 (x : UInt64) : UInt64 := (x <<< 1) ||| (x >>> 63)

namespace RabinChunker

/-- `RabinChunker::new`. -/
def new (targetSize : Nat) : RabinChunker :=
  let maskBits := ((UInt64.ofNat targetSize).toFloat.log2.floor).toUInt32
  { targetSize
    minSize := targetSize / 4
    maxSize := asU64 (targetSize * 4)
    polynomial := 0x3DA3358B4DC173
    windowSize := 48
    mask := ((1 : UInt64) <<< maskBits.toUInt64) - 1 }

/-- `out_table`. -/
def outTable (r : RabinChunker) (byte : UInt8) : UInt64 :=
  Nat.iterate (fun val => rotateLeft1 val ^^^ r.polynomial) r.windowSize byte.toUInt64

/-- `in_table`. -/
def inTable (byte : UInt8) : UInt64 := byte.toUInt64

/-- The variables of the boundary loop. -/
structure Scan where
  boundaries : List Nat := []
  hash : UInt64 := 0
  window : List UInt8
  windowPos : Nat := 0
  lastBoundary : Nat := 0

/-- One round of the boundary loop, at position `i`. -/
def scanByte (r : RabinChunker) (s : Scan) (i : Nat) (byte : UInt8) : Scan :=
  let outByte := s.window.getD s.windowPos 0
  let window := s.window.set s.windowPos byte
  let windowPos := (s.windowPos + 1) % r.windowSize
  let hash := rotateLeft1 s.hash ^^^ r.outTable outByte ^^^ inTable byte
  let chunkSize := i - s.lastBoundary
  if chunkSize ≥ r.minSize then
    if chunkSize ≥ r.maxSize then
      { boundaries := s.boundaries ++ [i]
        hash := 0
        window := List.replicate r.windowSize 0
        windowPos := 0
        lastBoundary := i }
    else if hash &&& r.mask = 0 then
      { boundaries := s.boundaries ++ [i], hash, window, windowPos, lastBoundary := i }
    else { s with hash, window, windowPos }
  else { s with hash, window, windowPos }

/-- The boundary loop over the bytes from position `i` on. -/
def scan (r : RabinChunker) : Nat → List UInt8 → Scan → Scan
  | _, [], s => s
  | i, byte :: rest, s => r.scan (i + 1) rest (r.scanByte s i byte)

/-- `find_boundaries`: the end positions of the chunks. -/
def findBoundaries (r : RabinChunker) (data : List UInt8) : List Nat :=
  if data.length ≤ r.minSize then [data.length]
  else
    let s := r.scan 0 data { window := List.replicate r.windowSize 0 }
    if s.lastBoundary < data.length then s.boundaries ++ [data.length] else s.boundaries

end RabinChunker

/-! ## DAG nodes -/

/-- `DagLink`. -/
structure DagLink where
  cid : Cid
  size : Nat
  name : Option String := none
  deriving DecidableEq

/-- `DagNode`. -/
structure DagNode where
  links : List DagLink
  totalSize : Nat
  data : Option (List UInt8) := none

/-- `DagNode::intermediate`. -/
def DagNode.intermediate (links : List DagLink) : DagNode :=
  { links, totalSize := asU64 (links.map DagLink.size).sum }

/-- The map of one link, its entries inserted in the source's order. -/
def DagLink.toIpld (link : DagLink) : Ipld :=
  .map (SortedAssoc.ofEntries (
    [("cid", .link link.cid), ("size", .integer link.size)]
      ++ link.name.toList.map (fun name => ("name", .string name))))

/-- `DagNode::to_ipld`. -/
def DagNode.toIpld (node : DagNode) : Ipld :=
  .map (SortedAssoc.ofEntries (
    [("links", .list (node.links.map DagLink.toIpld)), ("totalSize", .integer node.totalSize)]
      ++ node.data.toList.map (fun data => ("data", .bytes data))))

/-! ## The chunker -/

/-- `DeduplicationStats`. -/
structure DeduplicationStats where
  totalChunks : Nat
  uniqueChunks : Nat
  reusedChunks : Nat
  spaceSavingsPercent : Float
  totalDataSize : Nat
  deduplicatedSize : Nat

/-- `ChunkedFile`. -/
structure ChunkedFile where
  rootCid : Cid
  blocks : List Block
  totalSize : Nat
  chunkCount : Nat
  dedupStats : Option DeduplicationStats

/-- The chunk slices of a strategy; `none` is a panic. -/
def chunkSlices (config : ChunkingConfig) (data : List UInt8) : Option (List (List UInt8)) :=
  match config.strategy with
  | .fixedSize => chunks config.chunkSize data
  | .contentDefined => cut data 0 ((RabinChunker.new config.chunkSize).findBoundaries data)

/-- What the leaf loop collects: blocks, links, and the size first seen under each
CID. -/
structure Leaves where
  blocks : List Block := []
  links : List DagLink := []
  seenCids : List (Cid × Nat) := []

/-- `seen_cids.entry(cid).or_insert(size)`. -/
def orInsert (cid : Cid) (size : Nat) (seen : List (Cid × Nat)) : List (Cid × Nat) :=
  if seen.any (fun e => e.1 == cid) then seen else seen ++ [(cid, size)]

section

variable [CidCrate]

/-- The loop over the chunk slices. -/
def buildLeaves : List (List UInt8) → Leaves → Except Error Leaves
  | [], leaves => .ok leaves
  | chunk :: rest, leaves => do
      let block ← Block.new chunk
      buildLeaves rest
        { blocks := leaves.blocks ++ [block]
          links := leaves.links ++ [{ cid := block.cid, size := chunk.length }]
          seenCids := orInsert block.cid chunk.length leaves.seenCids }

/-- One node over a group of links: the link to it, and its block. -/
def buildNode (group : List DagLink) : Except Error (DagLink × Block) := do
  let node := DagNode.intermediate group
  let nodeBytes ← node.toIpld.toDagCbor
  if nodeBytes.length > maxBlockSize then
    .error (.internal "DAG node too large, reduce max_links_per_node")
  else
    let block ← Block.build { codec := codecDagCbor } nodeBytes
    .ok ({ cid := block.cid, size := node.totalSize }, block)

/-- The loop over the groups of one level. -/
def buildLevel : List (List DagLink) → Except Error (List DagLink × List Block)
  | [] => .ok ([], [])
  | group :: rest => do
      let (link, block) ← buildNode group
      let (links, blocks) ← buildLevel rest
      .ok (link :: links, block :: blocks)

/-- One round of the level loop: the blocks so far and the links of the level. -/
def levelBody (maxLinks : Nat) (s : List Block × List DagLink) :
    (List Block × List DagLink) ⊕ Option (Except Error (Cid × List Block)) :=
  if s.2.length > 1 then
    match chunks maxLinks s.2 with
    | none => .inr none
    | some groups =>
      match buildLevel groups with
      | .error e => .inr (some (.error e))
      | .ok (links, blocks) => .inl (s.1 ++ blocks, links)
  else
    match s.2 with
    | [] => .inr none
    | link :: _ => .inr (some (.ok (link.cid, s.1)))

/-- The statistics of a chunked file. -/
def dedupStats (dataLength chunkCount : Nat) (seen : List (Cid × Nat)) : DeduplicationStats :=
  let deduplicatedSize := (seen.map Prod.snd).sum
  { totalChunks := chunkCount
    uniqueChunks := seen.length
    reusedChunks := chunkCount - seen.length
    spaceSavingsPercent :=
      if dataLength > 0 then
        ((UInt64.ofNat (dataLength - deduplicatedSize)).toFloat
          / (UInt64.ofNat dataLength).toFloat) * 100.0
      else 0.0
    totalDataSize := dataLength
    deduplicatedSize }

/-- `Chunker::chunk`, with `rounds` rounds for the level loop. -/
def chunk (rounds : Nat) (config : ChunkingConfig) (data : List UInt8) :
    Option (Except Error ChunkedFile) :=
  if data.isEmpty then some (.error (.invalidInput "Cannot chunk empty data"))
  else if data.length ≤ config.chunkSize then
    -- a small file is one raw block
    match Block.new data with
    | .error e => some (.error e)
    | .ok block =>
      some (.ok
        { rootCid := block.cid
          blocks := [block]
          totalSize := data.length
          chunkCount := 1
          dedupStats := some
            { totalChunks := 1
              uniqueChunks := 1
              reusedChunks := 0
              spaceSavingsPercent := 0.0
              totalDataSize := data.length
              deduplicatedSize := data.length } })
  else
    match chunkSlices config data with
    | none => none
    | some slices =>
      match buildLeaves slices {} with
      | .error e => some (.error e)
      | .ok leaves =>
        match (Loop.run (levelBody config.maxLinksPerNode) rounds
            (leaves.blocks, leaves.links)).join with
        | none => none
        | some (.error e) => some (.error e)
        | some (.ok (rootCid, blocks)) =>
          some (.ok
            { rootCid
              blocks
              totalSize := data.length
              chunkCount := slices.length
              dedupStats := some
                (dedupStats data.length slices.length leaves.seenCids) })

end

end Ipfrs.Core
