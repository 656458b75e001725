/-
Ipfrs.Core.Manifest — content manifests and their Merkle tree (`manifest.rs`).

The nodes of a tree are the hex strings of the source, stored level by level with the
leaves first. `proof_for` indexes into them; an index out of bounds panics, which is the
outer `none` of `proofFor`. The index arithmetic is that of the source.

A manifest sorts its entries with a stable sort by path and chunk index, so entries that
agree in both stay in the order they came in. Two manifests are compared through maps from
CIDs to entries.
-/
import Ipfrs.Core.MerkleBatch
import Ipfrs.Lib.SortedAssoc
import Mathlib.Data.Prod.Lex
import Mathlib.Data.UInt

namespace Ipfrs.Core

open Ipfrs.Lib

/-! ## Hashes -/

/-- `fnv1a_64`, the same function as in `merkle_batch.rs`. -/
def fnv1a64 (data : List UInt8) : UInt64 := fnv1a data

/-- `fnv1a_hex`: `{:016x}`. -/
def fnv1aHex (data : List UInt8) : String :=
  String.ofList ((List.range 16).map
    (fun i => Nat.digitChar ((fnv1a64 data).toNat / 16 ^ (15 - i) % 16)))

/-- `combine_hashes`. -/
def combineHashes (left right : String) : String := fnv1aHex (utf8 left ++ utf8 right)

/-! ## The tree -/

/-- `MerkleTree`. -/
structure MerkleTree where
  leaves : List String
  nodes : List String
  deriving DecidableEq

namespace MerkleTree

/-- The inner loop of `build`: `i` goes over the current level in steps of two. -/
def nextLevel : List String → List String
  | left :: right :: rest => combineHashes left right :: nextLevel rest
  | [last] => [combineHashes last last]
  | [] => []

/-- The outer loop of `build`, with a number of rounds that suffices. -/
def buildLoop : Nat → List String → List String → List String
  | 0, allNodes, _ => allNodes
  | rounds + 1, allNodes, currentLevel =>
    if currentLevel.length > 1 then
      buildLoop rounds (allNodes ++ nextLevel currentLevel) (nextLevel currentLevel)
    else allNodes

def leafHash (cid : String) : String := fnv1aHex (utf8 cid)

def build (cids : List String) : MerkleTree :=
  if cids.isEmpty then { leaves := [], nodes := [] }
  else
    let leafHashes := cids.map leafHash
    { leaves := cids, nodes := buildLoop cids.length leafHashes leafHashes }

def root (tree : MerkleTree) : Option String := tree.nodes.getLast?

/-- The loop of `proof_for`, with a number of rounds that suffices: the siblings from a
level on. -/
def proofLoop (nodes : List String) : Nat → Nat → Nat → Nat → Option (List String)
  | 0, _, _, _ => some []
  | rounds + 1, levelStart, levelSize, currentIndex =>
    if levelSize > 1 then
      let siblingIndex :=
        if currentIndex % 2 = 0 then min (currentIndex + 1) (levelSize - 1)
        else currentIndex - 1
      match nodes[levelStart + siblingIndex]? with
      | none => none
      | some sibling =>
        (proofLoop nodes rounds (levelStart + levelSize) ((levelSize + 1) / 2)
          (currentIndex / 2)).map (sibling :: ·)
    else some []

/-- `proof_for`: `none` where it panics. -/
def proofFor (tree : MerkleTree) (index : Nat) : Option (Option (List String)) :=
  let n := tree.leaves.length
  if n = 0 ∨ index ≥ n then some none
  else (proofLoop tree.nodes n 0 n index).map some

/-- The loop of `verify_proof`. -/
def verifyLoop : String → Nat → List String → String
  | currentHash, _, [] => currentHash
  | currentHash, currentIndex, sibling :: rest =>
    verifyLoop
      (if currentIndex % 2 = 0 then combineHashes currentHash sibling
        else combineHashes sibling currentHash)
      (currentIndex / 2) rest

def verifyProof (leaf : String) (index : Nat) (proof : List String) (root : String) : Bool :=
  verifyLoop (leafHash leaf) index proof == root

end MerkleTree

/-! ## Manifests -/

/-- `ManifestEntry`. -/
structure ManifestEntry where
  path : String
  cid : String
  sizeBytes : UInt64
  chunkIndex : UInt32
  isFinalChunk : Bool
  deriving DecidableEq

/-- `ContentManifest`. -/
structure ContentManifest where
  manifestId : String
  entries : List ManifestEntry
  rootCid : String
  totalSizeBytes : UInt64
  createdAtMs : UInt64
  deriving DecidableEq

namespace ContentManifest

/-- The order of `sort_by`: by path, then by chunk index. -/
def sortKey (e : ManifestEntry) : Lex (String × Nat) := toLex (e.path, e.chunkIndex.toNat)

/-- The stable `sort_by`. -/
def sortEntries (entries : List ManifestEntry) : List ManifestEntry :=
  entries.insertionSort (fun a b => sortKey a ≤ sortKey b)

/-- `new`, at a time given by the clock. The sum of the sizes wraps, as it does where
overflow is not checked. -/
def new (now : UInt64) (entries : List ManifestEntry) : ContentManifest :=
  let entries := sortEntries entries
  let sortedCids := (entries.map ManifestEntry.cid).insertionSort (· ≤ ·)
  let orderedCids := entries.map ManifestEntry.cid
  { manifestId := fnv1aHex (utf8 (String.join sortedCids))
    entries
    rootCid := (MerkleTree.build orderedCids).root.getD ""
    totalSizeBytes := (entries.map ManifestEntry.sizeBytes).sum
    createdAtMs := now }

/-- `get_entries_for_path`. -/
def getEntriesForPath (m : ContentManifest) (path : String) : List ManifestEntry :=
  m.entries.filter (fun e => e.path == path)

def isCompleteForPath (m : ContentManifest) (path : String) : Bool :=
  let pathEntries := m.getEntriesForPath path
  if pathEntries.isEmpty then false
  else
    match pathEntries.filter ManifestEntry.isFinalChunk with
    | [final] =>
      let maxIndex := final.chunkIndex.toNat
      let expectedCount := maxIndex + 1
      if pathEntries.length ≠ expectedCount then false
      else
        let indices := pathEntries.map (fun e => e.chunkIndex.toNat)
        (List.range expectedCount).all (fun idx => indices.contains idx)
    | _ => false

end ContentManifest

/-! ## Comparison -/

structure ManifestDiff where
  added : List ManifestEntry
  removed : List ManifestEntry
  deriving DecidableEq

namespace ManifestDiff

/-- The entries of a manifest, collected into a `BTreeMap` by CID. -/
def byCid (m : ContentManifest) : List (String × ManifestEntry) :=
  SortedAssoc.ofEntries (m.entries.map (fun e => (e.cid, e)))

def diff (old new : ContentManifest) : ManifestDiff :=
  let oldCids := byCid old
  let newCids := byCid new
  { added := (newCids.filter (fun e => !(SortedAssoc.get? oldCids e.1).isSome)).map Prod.snd
    removed := (oldCids.filter (fun e => !(SortedAssoc.get? newCids e.1).isSome)).map Prod.snd }

end ManifestDiff

end Ipfrs.Core
