/-
Ipfrs.Core.MerkleBatch — inclusion proofs for several leaves of one Merkle tree
(`merkle_batch.rs`).

The leaves are padded with zero hashes to a power of two, so every level above one node
has an even number of them. A proof lists the hashes of the siblings that cannot be
computed, level by level and from left to right; the prover leaves out an entry
`(level, hash)` that the list has already. The verifier walks over the same positions and
takes one entry for each.

A `BTreeSet` of positions is the list of its elements in ascending order. The maps of the
verifier are association lists; where the source goes over a map in no fixed order, what
it inserts has distinct keys.
-/
import Ipfrs.Lib.Bytes
import Ipfrs.Lib.Fnv
import Mathlib.Data.List.AList
import Mathlib.Data.List.Sort

namespace Ipfrs.Core

open Ipfrs.Lib

/-- `MerkleError`. -/
inductive MerkleError where
  | emptyTree
  | leafIndexOutOfBounds (index treeSize : Nat)
  | invalidProof (reason : String)
  | duplicateLeaf (index : Nat)
  deriving DecidableEq

/-- `BatchProof`. -/
structure BatchProof where
  leafIndices : List Nat
  siblingHashes : List (Nat × UInt64)
  root : UInt64
  deriving DecidableEq

/-- `fnv1a`. -/
def fnv1a (data : List UInt8) : UInt64 := Fnv.hash data

/-- `MerkleBatchProver`. -/
structure MerkleBatchProver where
  leaves : List UInt64
  deriving DecidableEq

/-- The loop of `next_power_of_two`, with a number of rounds that suffices. -/
def doubleUntil (n : Nat) : Nat → Nat → Nat
  | 0, p => p
  | rounds + 1, p => if p < n then doubleUntil n rounds (p * 2) else p

/-- `next_power_of_two`. -/
def nextPowerOfTwo (n : Nat) : Nat := if n ≤ 1 then 1 else doubleUntil n n 1

/-- `BTreeSet::insert`. -/
def insertPos (pos : Nat) (s : List Nat) : List Nat :=
  if pos ∈ s then s else s.orderedInsert (· ≤ ·) pos

/-- `collect` into a `BTreeSet`. -/
def collectPos (l : List Nat) : List Nat := l.foldl (fun s pos => insertPos pos s) []

/-- The position of the other child of the same parent. -/
def siblingPos (pos : Nat) : Nat := if pos % 2 = 0 then pos + 1 else pos - 1

namespace MerkleBatchProver

/-! ## The tree -/

def leafHash (data : List UInt8) : UInt64 := fnv1a data

def combine (left right : UInt64) : UInt64 :=
  fnv1a (leBytes 8 left.toNat ++ leBytes 8 right.toNat)

/-- The map over `level.chunks(2)`. -/
def parents : List UInt64 → List UInt64
  | left :: right :: rest => combine left right :: parents rest
  | [_] => [] -- `pair[1]` of a lone node; a level of more than one is even
  | [] => []

/-- `build_tree` from a level on, with a number of rounds that suffices. -/
def buildLevels : Nat → List UInt64 → List (List UInt64)
  | 0, level => [level]
  | rounds + 1, level =>
    if level.length > 1 then level :: buildLevels rounds (parents level) else [level]

/-- The leaf level, padded to `size`. -/
def paddedLeaves (leaves : List UInt64) (size : Nat) : List UInt64 :=
  (List.range size).map (fun i => leaves.getD i 0)

/-- `build_tree`. -/
def buildTree (leaves : List UInt64) (size : Nat) : List (List UInt64) :=
  buildLevels size (paddedLeaves leaves size)

def new (data : List (List UInt8)) : Except MerkleError MerkleBatchProver :=
  if data.isEmpty then .error .emptyTree else .ok { leaves := data.map leafHash }

def treeSize (prover : MerkleBatchProver) : Nat := nextPowerOfTwo prover.leaves.length

/-- The loop of `root`, with a number of rounds that suffices. -/
def rootLoop : Nat → List UInt64 → List UInt64
  | 0, level => level
  | rounds + 1, level => if level.length > 1 then rootLoop rounds (parents level) else level

def root (prover : MerkleBatchProver) : UInt64 :=
  (rootLoop prover.treeSize (paddedLeaves prover.leaves prover.treeSize)).getD 0 0

/-! ## Proving -/

/-- One round of the loop over the covered positions of a level. -/
def proveStep (level : Nat) (levelNodes : List UInt64) (covered : List Nat)
    (state : List Nat × List (Nat × UInt64)) (pos : Nat) : List Nat × List (Nat × UInt64) :=
  let nextCovered := insertPos (pos / 2) state.1
  if siblingPos pos ∈ covered then (nextCovered, state.2)
  else
    let entry := (level, levelNodes.getD (siblingPos pos) 0)
    (nextCovered, if entry ∈ state.2 then state.2 else state.2 ++ [entry])

/-- The loop over the levels below the root. -/
def proveLevels : Nat → List (List UInt64) → List Nat → List (Nat × UInt64) →
    List (Nat × UInt64)
  | _, [], _, siblingHashes => siblingHashes
  | level, levelNodes :: rest, covered, siblingHashes =>
    let (nextCovered, siblingHashes) :=
      covered.foldl (proveStep level levelNodes covered) ([], siblingHashes)
    proveLevels (level + 1) rest nextCovered siblingHashes

/-- The first of two equal neighbours. -/
def firstRepeat : List Nat → Option Nat
  | a :: b :: rest => if a = b then some a else firstRepeat (b :: rest)
  | _ => none

def proveBatch (prover : MerkleBatchProver) (indices : List Nat) :
    Except MerkleError BatchProof :=
  let n := prover.leaves.length
  let sorted := indices.insertionSort (· ≤ ·)
  match sorted.find? (fun idx => n ≤ idx) with
  | some idx => .error (.leafIndexOutOfBounds idx n)
  | none =>
    match firstRepeat sorted with
    | some idx => .error (.duplicateLeaf idx)
    | none =>
      let tree := buildTree prover.leaves prover.treeSize
      let height := tree.length - 1
      .ok
        { leafIndices := sorted
          siblingHashes := proveLevels 0 (tree.take height) (collectPos sorted) []
          root := prover.root }

/-! ## Verifying -/

/-- `HashMap<(usize, usize), u64>`: hashes by level and position. -/
abbrev Known := AList (fun _ : Nat × Nat => UInt64)

/-- `HashMap<usize, u64>`: hashes of a level by position. -/
abbrev LevelKnown := AList (fun _ : Nat => UInt64)

/-- The leaf hashes. -/
def knownLeaves (leafIndices : List Nat) (dataItems : List (List UInt8)) : Known :=
  (leafIndices.zip dataItems).foldl (fun known e => known.insert (0, e.1) (leafHash e.2)) ∅

/-- The loop over the covered positions of a level, with what is left of the entries. -/
def pullLevel (level : Nat) (covered : List Nat) :
    List Nat → List Nat × List (Nat × UInt64) × Known →
      Except MerkleError (List Nat × List (Nat × UInt64) × Known)
  | [], state => .ok state
  | pos :: rest, (nextCovered, entries, known) =>
    let nextCovered := insertPos (pos / 2) nextCovered
    if siblingPos pos ∈ covered then pullLevel level covered rest (nextCovered, entries, known)
    else
      match entries with
      | [] => .error (.invalidProof "not enough sibling hashes in proof")
      | (_, hash) :: entries =>
        pullLevel level covered rest
          (nextCovered, entries, known.insert (level, siblingPos pos) hash)

/-- The loop over the levels below the root, `height` of them from `level` on. -/
def pullLevels : Nat → Nat → List Nat → List (Nat × UInt64) → Known → Except MerkleError Known
  | 0, _, _, _, known => .ok known
  | height + 1, level, covered, entries, known =>
    match pullLevel level covered covered ([], entries, known) with
    | .error e => .error e
    | .ok (nextCovered, entries, known) =>
      pullLevels height (level + 1) nextCovered entries known

/-- Adding the hashes known at a level. -/
def addLevel (known : Known) (level : Nat) (current : LevelKnown) : LevelKnown :=
  known.entries.foldl
    (fun current e => if e.1.1 = level then current.insert e.1.2 e.2 else current) current

/-- One round of the loop over the known positions: the next level and the parents that
are done. -/
def parentStep (current : LevelKnown) (state : LevelKnown × List Nat) (pos : Nat) :
    LevelKnown × List Nat :=
  let parent := pos / 2
  if parent ∈ state.2 then state
  else
    match current.lookup (parent * 2), current.lookup (parent * 2 + 1) with
    | some left, some right => (state.1.insert parent (combine left right), parent :: state.2)
    | _, _ => state

/-- The parents that can be computed. -/
def nextLevel (current : LevelKnown) : LevelKnown :=
  ((current.keys.insertionSort (· ≤ ·)).foldl (parentStep current) (∅, [])).1

/-- The loop that goes up, `height` levels from `level` on. -/
def propagate (known : Known) : Nat → Nat → LevelKnown → LevelKnown
  | 0, _, current => current
  | height + 1, level, current =>
    propagate known height (level + 1) (nextLevel (addLevel known level current))

def verifyBatch (prover : MerkleBatchProver) (proof : BatchProof)
    (dataItems : List (List UInt8)) : Except MerkleError Bool :=
  if dataItems.length ≠ proof.leafIndices.length then
    .error (.invalidProof (s!"data_items length {dataItems.length} does not match "
      ++ s!"leaf_indices length {proof.leafIndices.length}"))
  else
    -- `size.trailing_zeros()` of a power of two
    let height := prover.treeSize.log2
    let known := knownLeaves proof.leafIndices dataItems
    match pullLevels height 0 (collectPos proof.leafIndices) proof.siblingHashes known with
    | .error e => .error e
    | .ok known =>
      match (propagate known height 0 (addLevel known 0 ∅)).lookup 0 with
      | some root => .ok (root == proof.root)
      | none => .error (.invalidProof "could not reconstruct root from proof")

end MerkleBatchProver

end Ipfrs.Core
