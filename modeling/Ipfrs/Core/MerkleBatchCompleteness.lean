/-
Ipfrs.Core.MerkleBatchCompleteness — when the proof of a batch verifies.

The levels of the tree are the nodes over the padded leaves (`getD_buildLevels`), so the
prover's entries are the needed nodes less the repeated ones, and the verifier with all of
them computes the root. With one entry less it runs out: the proof verifies exactly if the
needed nodes of each level have different hashes.
-/
import Ipfrs.Core.MerkleBatchTheorems

namespace Ipfrs.Core

open Ipfrs.Lib

/-! ## The size of the tree -/

theorem doubleUntil_eq (n : Nat) : ∀ rounds p : Nat, ∃ j, doubleUntil n rounds p = p * 2 ^ j
  | 0, p => ⟨0, by simp [doubleUntil]⟩
  | rounds + 1, p => by
    rw [doubleUntil]
    split
    · obtain ⟨j, hj⟩ := doubleUntil_eq n rounds (p * 2)
      exact ⟨j + 1, by rw [hj, pow_succ, Nat.mul_comm (2 ^ j), Nat.mul_assoc]⟩
    · exact ⟨0, by simp⟩

theorem le_doubleUntil (n : Nat) : ∀ rounds p : Nat,
    n ≤ p * 2 ^ rounds → n ≤ doubleUntil n rounds p
  | 0, p, h => by simpa [doubleUntil] using h
  | rounds + 1, p, h => by
    rw [doubleUntil]
    split
    · refine le_doubleUntil n rounds (p * 2) ?_
      rwa [pow_succ, Nat.mul_comm (2 ^ rounds), ← Nat.mul_assoc] at h
    · omega

/-- The size is a power of two, and all leaves fit. -/
theorem nextPowerOfTwo_eq (n : Nat) : ∃ k, nextPowerOfTwo n = 2 ^ k ∧ n ≤ 2 ^ k := by
  unfold nextPowerOfTwo
  split
  · exact ⟨0, rfl, by omega⟩
  · obtain ⟨k, hk⟩ := doubleUntil_eq n n 1
    have hle := le_doubleUntil n n 1 (by simpa using Nat.le_of_lt Nat.lt_two_pow_self)
    rw [Nat.one_mul] at hk
    exact ⟨k, hk, hk ▸ hle⟩

namespace MerkleBatchProver

/-! ## The levels of the tree -/

theorem length_parents (level : List UInt64) : (parents level).length = level.length / 2 := by
  induction level using parents.induct with
  | case1 left right rest ih =>
    simp only [parents, List.length_cons, ih]
    omega
  | case2 => simp [parents]
  | case3 => simp [parents]

theorem getD_parents (level : List UInt64) (p : Nat) (h : p * 2 + 1 < level.length) :
    (parents level).getD p 0 = combine (level.getD (p * 2) 0) (level.getD (p * 2 + 1) 0) := by
  induction level using parents.induct generalizing p with
  | case1 left right rest ih =>
    cases p with
    | zero => simp [parents]
    | succ p =>
      simp only [List.length_cons] at h
      simpa [parents, Nat.succ_mul] using ih p (by omega)
  | case2 => simp at h
  | case3 => simp at h

/-- A node over the parents is a node one level higher. -/
theorem node_parents {level : List UInt64} {k l p : Nat} (hlen : level.length = 2 ^ (k + 1))
    (hl : l ≤ k) (hp : p < 2 ^ (k - l)) :
    MerkleTree.node combine (fun i => (parents level).getD i 0) l p
      = MerkleTree.node combine (fun i => level.getD i 0) (l + 1) p := by
  rw [Nat.add_comm l 1, ← MerkleTree.node_node]
  refine MerkleTree.node_congr combine l p (fun i hi => ?_)
  have hi' : i < 2 ^ k := by
    rw [← hi, Nat.div_lt_iff_lt_mul (Nat.two_pow_pos l), ← pow_add, Nat.sub_add_cancel hl] at hp
    exact hp
  rw [getD_parents level i (by rw [hlen, pow_succ]; omega)]
  rfl

theorem length_parents_of_pow {level : List UInt64} {k : Nat}
    (hlen : level.length = 2 ^ (k + 1)) : (parents level).length = 2 ^ k := by
  rw [length_parents, hlen, pow_succ, Nat.mul_div_cancel _ (by decide)]

theorem one_lt_length {level : List UInt64} {k : Nat} (hlen : level.length = 2 ^ (k + 1)) :
    level.length > 1 := by
  have := Nat.two_pow_pos k
  rw [hlen, pow_succ]
  omega

theorem length_buildLevels : ∀ {k rounds : Nat} {level : List UInt64},
    level.length = 2 ^ k → k ≤ rounds → (buildLevels rounds level).length = k + 1
  | 0, 0, _, _, _ => rfl
  | 0, rounds + 1, level, hlen, _ => by simp [buildLevels, hlen]
  | k + 1, rounds + 1, level, hlen, hle => by
    rw [buildLevels, if_pos (one_lt_length hlen), List.length_cons,
      length_buildLevels (length_parents_of_pow hlen) (by omega)]

/-- The levels hold the nodes. -/
theorem getD_buildLevels : ∀ {k rounds : Nat} {level : List UInt64},
    level.length = 2 ^ k → k ≤ rounds → ∀ {l p : Nat}, l ≤ k → p < 2 ^ (k - l) →
      ((buildLevels rounds level).getD l []).getD p 0
        = MerkleTree.node combine (fun i => level.getD i 0) l p
  | _, 0, level, _, hle, 0, p, _, _ => rfl
  | _, 0, level, _, hle, l + 1, p, hl, _ => absurd hl (by omega)
  | 0, rounds + 1, level, hlen, _, l, p, hl, _ => by
    obtain rfl : l = 0 := by omega
    simp [buildLevels, hlen, MerkleTree.node]
  | k + 1, rounds + 1, level, hlen, hle, 0, p, _, _ => by
    rw [buildLevels, if_pos (one_lt_length hlen)]
    rfl
  | k + 1, rounds + 1, level, hlen, hle, l + 1, p, hl, hp => by
    rw [Nat.add_sub_add_right] at hp
    rw [buildLevels, if_pos (one_lt_length hlen), List.getD_cons_succ,
      getD_buildLevels (length_parents_of_pow hlen) (by omega) (by omega) hp,
      node_parents hlen (by omega) hp]

/-- The loop of `root` ends with the node at the top. -/
theorem getD_rootLoop : ∀ {k rounds : Nat} {level : List UInt64},
    level.length = 2 ^ k → k ≤ rounds →
      (rootLoop rounds level).getD 0 0
        = MerkleTree.node combine (fun i => level.getD i 0) k 0
  | 0, 0, _, _, _ => rfl
  | 0, rounds + 1, level, hlen, _ => by simp [rootLoop, hlen, MerkleTree.node]
  | k + 1, rounds + 1, level, hlen, hle => by
    rw [rootLoop, if_pos (one_lt_length hlen),
      getD_rootLoop (length_parents_of_pow hlen) (by omega),
      node_parents hlen (Nat.le_refl k) (by simp)]

@[simp] theorem length_paddedLeaves (leaves : List UInt64) (size : Nat) :
    (paddedLeaves leaves size).length = size := by
  simp [paddedLeaves]

/-- The hash of the node at a position of a level. -/
def nodeHash (prover : MerkleBatchProver) (level pos : Nat) : UInt64 :=
  MerkleTree.node combine (fun i => (paddedLeaves prover.leaves prover.treeSize).getD i 0)
    level pos

/-- The number of levels below the root. -/
def height (prover : MerkleBatchProver) : Nat := prover.treeSize.log2

theorem treeSize_eq (prover : MerkleBatchProver) : prover.treeSize = 2 ^ prover.height := by
  obtain ⟨k, hk, -⟩ := nextPowerOfTwo_eq prover.leaves.length
  rw [height, treeSize, hk, Nat.log2_two_pow]

theorem length_leaves_le (prover : MerkleBatchProver) :
    prover.leaves.length ≤ 2 ^ prover.height := by
  obtain ⟨k, hk, hle⟩ := nextPowerOfTwo_eq prover.leaves.length
  rwa [height, treeSize, hk, Nat.log2_two_pow]

theorem height_le_treeSize (prover : MerkleBatchProver) : prover.height ≤ prover.treeSize := by
  rw [treeSize_eq]
  exact Nat.le_of_lt Nat.lt_two_pow_self

theorem root_eq (prover : MerkleBatchProver) : prover.root = prover.nodeHash prover.height 0 :=
  getD_rootLoop ((length_paddedLeaves _ _).trans prover.treeSize_eq) prover.height_le_treeSize

theorem nodeHash_succ (prover : MerkleBatchProver) (level pos : Nat) :
    prover.nodeHash (level + 1) pos
      = combine (prover.nodeHash level (pos * 2)) (prover.nodeHash level (pos * 2 + 1)) :=
  rfl

theorem nodeHash_leaf {prover : MerkleBatchProver} {i : Nat} (hi : i < prover.leaves.length) :
    prover.nodeHash 0 i = prover.leaves.getD i 0 := by
  have hsize : i < prover.treeSize := by
    have := prover.length_leaves_le
    rw [treeSize_eq]
    omega
  simp [nodeHash, MerkleTree.node, paddedLeaves, hsize]

/-! ## What the verifier computes -/

theorem isCovered_collectPos (l : List Nat) : IsCovered (· ∈ l) 0 (collectPos l) := by
  intro p
  rw [mem_collectPos, MerkleTree.covered_zero]

section

variable {prover : MerkleBatchProver} {proof : BatchProof} {dataItems : List (List UInt8)}

/-- The root covers the leaves. -/
theorem covered_height (hne : proof.leafIndices ≠ [])
    (hlt : ∀ i ∈ proof.leafIndices, i < prover.leaves.length) :
    MerkleTree.Covered (· ∈ proof.leafIndices) prover.height 0 := by
  obtain ⟨i, hi⟩ := List.exists_mem_of_ne_nil _ hne
  exact ⟨i, hi, Nat.div_eq_of_lt ((hlt i hi).trans_le prover.length_leaves_le)⟩

/-- The needed positions of the leaves of a proof. -/
def neededPositions (prover : MerkleBatchProver) (proof : BatchProof) : List (Nat × Nat) :=
  neededFrom prover.height 0 (collectPos proof.leafIndices)

theorem mem_neededPositions {level pos : Nat} : (level, pos) ∈ prover.neededPositions proof ↔
      level < prover.height ∧ MerkleTree.Needed (· ∈ proof.leafIndices) level pos := by
  rw [neededPositions, (isCovered_collectPos proof.leafIndices).mem_neededFrom]
  simp

/-- What is known once the items and the entries of the proof are placed. -/
def claimed (prover : MerkleBatchProver) (proof : BatchProof) (dataItems : List (List UInt8)) :
    Known :=
  placeAll (knownLeaves proof.leafIndices dataItems) (prover.neededPositions proof)
    proof.siblingHashes

variable (prover) in
/-- The hash of a leaf of the proof is that of an item given for it. -/
theorem claimed_leaf (hlen : dataItems.length = proof.leafIndices.length) {i : Nat}
    (hi : i ∈ proof.leafIndices) : ∃ e ∈ proof.leafIndices.zip dataItems, e.1 = i ∧
      (prover.claimed proof dataItems).lookup (0, i) = some (leafHash e.2) := by
  have hnot : (0, i) ∉ prover.neededPositions proof := by
    simp [mem_neededPositions, MerkleTree.Needed, hi]
  rw [claimed, lookup_placeAll_of_notMem hnot, knownLeaves_eq]
  have hmem : (0, i) ∈ proof.leafIndices.map (fun i => (0, i)) := List.mem_map_of_mem hi
  obtain ⟨e, he, heq, hlookup⟩ := exists_lookup_placeAll hmem ∅
    (show _ ≤ (dataItems.map (fun item => (0, leafHash item))).length by simp [hlen])
  rw [List.zip_map, List.mem_map] at he
  obtain ⟨e', he', rfl⟩ := he
  exact ⟨e', he', (Prod.mk.inj heq).2, hlookup⟩

variable (prover) in
theorem claimed_leaf_map (item : Nat → List UInt8) {i : Nat} (hi : i ∈ proof.leafIndices) :
    (prover.claimed proof (proof.leafIndices.map item)).lookup (0, i)
      = some (leafHash (item i)) := by
  obtain ⟨e, he, heq, hlookup⟩ := claimed_leaf prover (List.length_map item) hi
  rw [← List.map_prod_left_eq_zip] at he
  obtain ⟨i', -, rfl⟩ := List.mem_map.mp he
  rw [hlookup, ← heq]

theorem claimed_needed
    (hentries : (prover.neededPositions proof).length ≤ proof.siblingHashes.length)
    {level pos : Nat} (hlevel : level < prover.height)
    (h : MerkleTree.Needed (· ∈ proof.leafIndices) level pos) :
    ∃ hash, (prover.claimed proof dataItems).lookup (level, pos) = some hash := by
  obtain ⟨e, -, -, hlookup⟩ :=
    exists_lookup_placeAll (mem_neededPositions.mpr ⟨hlevel, h⟩) _ hentries
  exact ⟨_, hlookup⟩

theorem claimed_covered {level pos : Nat}
    (h : MerkleTree.Covered (· ∈ proof.leafIndices) (level + 1) pos) :
    (prover.claimed proof dataItems).lookup (level + 1, pos) = none := by
  have hnot : (level + 1, pos) ∉ prover.neededPositions proof := by
    rw [mem_neededPositions]
    exact fun hneeded => hneeded.2.1 h
  rw [claimed, lookup_placeAll_of_notMem hnot, knownLeaves_eq, lookup_placeAll_of_notMem]
  · exact AList.lookup_empty _
  · simp

/-- The verifier accepts exactly if there is an item for each leaf, at least one leaf, an
entry for each needed position, and the hash at the top is the root of the proof. -/
theorem verifyBatch_eq_true_iff (hlt : ∀ i ∈ proof.leafIndices, i < prover.leaves.length) :
    prover.verifyBatch proof dataItems = .ok true ↔
      dataItems.length = proof.leafIndices.length ∧ proof.leafIndices ≠ [] ∧
        (prover.neededPositions proof).length ≤ proof.siblingHashes.length ∧
        knownHash (prover.claimed proof dataItems) prover.height 0 = proof.root := by
  have hheight : prover.treeSize.log2 = prover.height := rfl
  by_cases hlen : dataItems.length = proof.leafIndices.length
  · by_cases hentries :
        (neededFrom prover.height 0 (collectPos proof.leafIndices)).length
          ≤ proof.siblingHashes.length
    · by_cases hne : proof.leafIndices = []
      · have hitems : dataItems = [] := List.length_eq_zero_iff.mp (by rw [hlen, hne]; rfl)
        have hempty := lookup_propagate_empty prover.height 0 (addLevel ∅ 0 ∅)
          (fun p => by simp [lookup_addLevel]) 0
        simp [verifyBatch, hne, hitems, hheight, pullLevels_eq, collectPos, neededFrom_nil,
          placeAll, knownLeaves, hempty]
      · have hzero : ∀ p, MerkleTree.Covered (· ∈ proof.leafIndices) 0 p →
            (addLevel (prover.claimed proof dataItems) 0 ∅).lookup p
              = some (knownHash (prover.claimed proof dataItems) 0 p) := by
          intro p hp
          obtain ⟨e, -, -, hlookup⟩ :=
            claimed_leaf prover hlen ((MerkleTree.covered_zero p).mp hp)
          simp [lookup_addLevel, hlookup, knownHash]
        have hfinal := lookup_propagate (fun l p => claimed_needed hentries)
          (fun l p => claimed_covered) prover.height 0 _ (Nat.zero_add _) hzero 0
          (covered_height hne hlt)
        rw [claimed, neededPositions] at hfinal
        simp [verifyBatch, hlen, hheight, pullLevels_eq, hentries, hfinal, hne, claimed,
          neededPositions]
    · simp [verifyBatch, hlen, hheight, pullLevels_eq, hentries, neededPositions]
  · simp [verifyBatch, hlen]

end

/-! ## The proof -/

theorem firstRepeat_eq_none : ∀ {l : List Nat}, l.Nodup → firstRepeat l = none
  | [], _ => rfl
  | [_], _ => rfl
  | a :: b :: rest, h => by
    obtain ⟨hnot, hrest⟩ := List.nodup_cons.mp h
    have hne : a ≠ b := fun hab => hnot (by simp [hab])
    rw [firstRepeat, if_neg hne, firstRepeat_eq_none hrest]

section

variable {prover : MerkleBatchProver} {indices : List Nat}

/-- The needed positions with their hashes. -/
def neededEntries (prover : MerkleBatchProver) (indices : List Nat) : List (Nat × UInt64) :=
  (neededFrom prover.height 0 (collectPos indices)).map
    (fun e => (e.1, prover.nodeHash e.1 e.2))

/-- The proof of distinct indices in range. -/
theorem proveBatch_eq (hnodup : indices.Nodup)
    (hlt : ∀ i ∈ indices, i < prover.leaves.length) :
    prover.proveBatch indices = .ok
      { leafIndices := indices.insertionSort (· ≤ ·)
        siblingHashes :=
          pushAll [] (prover.neededEntries (indices.insertionSort (· ≤ ·)))
        root := prover.root } := by
  have hperm := List.perm_insertionSort (· ≤ ·) indices
  generalize hsorted : indices.insertionSort (· ≤ ·) = sorted at hperm
  have hlt' : ∀ i ∈ sorted, i < 2 ^ prover.height :=
    fun i hi => (hlt i (hperm.mem_iff.mp hi)).trans_le prover.length_leaves_le
  have hfind : sorted.find? (fun idx => prover.leaves.length ≤ idx) = none := by
    simpa using fun i hi => hlt i (hperm.mem_iff.mp hi)
  have hlen : (paddedLeaves prover.leaves prover.treeSize).length = 2 ^ prover.height :=
    (length_paddedLeaves _ _).trans prover.treeSize_eq
  have hlevels : (buildTree prover.leaves prover.treeSize).length = prover.height + 1 :=
    length_buildLevels hlen prover.height_le_treeSize
  have htake : ((buildTree prover.leaves prover.treeSize).take prover.height).length
      = prover.height := by
    rw [List.length_take, hlevels]
    omega
  have hentries : proveLevels 0 ((buildTree prover.leaves prover.treeSize).take prover.height)
      (collectPos sorted) [] = pushAll [] (prover.neededEntries sorted) := by
    rw [proveLevels_eq prover.nodeHash, htake, neededEntries]
    intro e he
    rw [htake] at he
    obtain ⟨-, hlevel, hneeded⟩ := (isCovered_collectPos sorted).mem_neededFrom.mp he
    rw [Nat.zero_add] at hlevel
    have hpos := hneeded.lt hlt' hlevel
    have hget : ((buildTree prover.leaves prover.treeSize).take prover.height).getD e.1 []
        = (buildTree prover.leaves prover.treeSize).getD e.1 [] := by
      simp [hlevel]
    refine ⟨Nat.zero_le _, ?_⟩
    rw [Nat.sub_zero, hget]
    exact getD_buildLevels hlen prover.height_le_treeSize (Nat.le_of_lt hlevel) hpos
  simp only [proveBatch, hsorted, hfind, firstRepeat_eq_none (hperm.nodup_iff.mpr hnodup),
    hlevels, Nat.add_sub_cancel, hentries]

/-- At the needed positions the prover's entries are its nodes. -/
theorem knownHash_claimed_needed {proof : BatchProof} {dataItems : List (List UInt8)}
    (hentries : proof.siblingHashes = prover.neededEntries proof.leafIndices) {level pos : Nat}
    (hlevel : level < prover.height) (h : MerkleTree.Needed (· ∈ proof.leafIndices) level pos) :
    knownHash (prover.claimed proof dataItems) level pos = prover.nodeHash level pos := by
  refine knownHash_of_lookup ?_
  rw [claimed, hentries, neededEntries, ← neededPositions,
    lookup_placeAll (fun e => prover.nodeHash e.1 e.2),
    if_pos (mem_neededPositions.mpr ⟨hlevel, h⟩)]

/-- With the prover's entries and items for its leaves the verifier computes its nodes. -/
theorem knownHash_claimed {proof : BatchProof} {dataItems : List (List UInt8)}
    (hlt : ∀ i ∈ proof.leafIndices, i < prover.leaves.length)
    (hleaf : ∀ i ∈ proof.leafIndices, (prover.claimed proof dataItems).lookup (0, i)
      = some (prover.leaves.getD i 0))
    (hentries : proof.siblingHashes = prover.neededEntries proof.leafIndices) :
    ∀ (level pos : Nat), level ≤ prover.height →
      MerkleTree.Covered (· ∈ proof.leafIndices) level pos →
      knownHash (prover.claimed proof dataItems) level pos = prover.nodeHash level pos
  | 0, pos, _, hcov => by
    have hpos := (MerkleTree.covered_zero pos).mp hcov
    rw [knownHash_of_lookup (hleaf pos hpos), nodeHash_leaf (hlt pos hpos)]
  | level + 1, pos, hle, hcov => by
    have hboth : ∀ p, MerkleTree.Covered (· ∈ proof.leafIndices) level p
        ∨ MerkleTree.Needed (· ∈ proof.leafIndices) level p →
        knownHash (prover.claimed proof dataItems) level p = prover.nodeHash level p := by
      intro p hp
      rcases hp with hp | hp
      · exact knownHash_claimed hlt hleaf hentries level p (Nat.le_of_succ_le hle) hp
      · exact knownHash_claimed_needed hentries hle hp
    obtain ⟨hleft, hright⟩ := (MerkleTree.covered_succ_iff level pos).mp hcov
    rw [knownHash_succ (claimed_covered hcov), hboth _ hleft, hboth _ hright, nodeHash_succ]

/-- So it accepts them with the prover's root. -/
theorem verifyBatch_neededEntries {proof : BatchProof} {dataItems : List (List UInt8)}
    (hlen : dataItems.length = proof.leafIndices.length)
    (hne : proof.leafIndices ≠ []) (hlt : ∀ i ∈ proof.leafIndices, i < prover.leaves.length)
    (hleaf : ∀ i ∈ proof.leafIndices, (prover.claimed proof dataItems).lookup (0, i)
      = some (prover.leaves.getD i 0))
    (hentries : proof.siblingHashes = prover.neededEntries proof.leafIndices)
    (hroot : proof.root = prover.root) : prover.verifyBatch proof dataItems = .ok true := by
  have htop := covered_height hne hlt
  refine (verifyBatch_eq_true_iff hlt).mpr ⟨hlen, hne, ?_, ?_⟩
  · simp [hentries, neededEntries, neededPositions]
  · rw [knownHash_claimed hlt hleaf hentries _ _ (Nat.le_refl _) htop, hroot, root_eq]

/-- With fewer entries it runs out of them. -/
theorem verifyBatch_short {proof : BatchProof} {dataItems : List (List UInt8)}
    (hlen : proof.siblingHashes.length < (prover.neededEntries proof.leafIndices).length) :
    prover.verifyBatch proof dataItems ≠ .ok true := by
  rw [neededEntries, List.length_map] at hlen
  have hheight : prover.treeSize.log2 = prover.height := rfl
  simp only [verifyBatch, hheight, pullLevels_eq, if_neg (Nat.not_le.mpr hlen)]
  split
  · simp
  · simp

/-- No two needed nodes of a level have the same hash. -/
def DistinctNeeded (prover : MerkleBatchProver) (indices : List Nat) : Prop :=
  ∀ level p p', level < prover.height →
    MerkleTree.Needed (· ∈ indices) level p → MerkleTree.Needed (· ∈ indices) level p' →
    prover.nodeHash level p = prover.nodeHash level p' → p = p'

theorem nodup_neededEntries_iff :
    (prover.neededEntries indices).Nodup ↔ prover.DistinctNeeded indices := by
  have hcov := isCovered_collectPos indices
  rw [neededEntries,
    List.nodup_map_iff_inj_on (hcov.nodup_neededFrom (nodup_collectPos indices))]
  constructor
  · intro h level p p' hlevel hp hp' heq
    have hmem : ∀ p, MerkleTree.Needed (· ∈ indices) level p →
        (level, p) ∈ neededFrom prover.height 0 (collectPos indices) :=
      fun p hp => hcov.mem_neededFrom.mpr ⟨Nat.zero_le _, by omega, hp⟩
    have hpair := h (level, p) (hmem p hp) (level, p') (hmem p' hp') (by simp [heq])
    exact (Prod.mk.inj hpair).2
  · intro h e he e' he' heq
    obtain ⟨-, hlevel, hneeded⟩ := hcov.mem_neededFrom.mp he
    obtain ⟨-, -, hneeded'⟩ := hcov.mem_neededFrom.mp he'
    obtain ⟨hfst, hhash⟩ := Prod.mk.inj heq
    rw [← hfst] at hneeded' hhash
    exact Prod.ext hfst (h e.1 e.2 e'.2 (by omega) hneeded hneeded' hhash)

end

/-- **Completeness of batch proofs**: the proof of a batch verifies exactly if no two
needed nodes of one level have the same hash. -/
theorem proveBatch_verifies_iff (data : List (List UInt8)) (indices : List Nat)
    (hdata : data ≠ []) (hne : indices ≠ []) (hnodup : indices.Nodup)
    (hlt : ∀ i ∈ indices, i < data.length) :
    (∃ prover proof, new data = .ok prover ∧ prover.proveBatch indices = .ok proof ∧
      prover.verifyBatch proof (proof.leafIndices.map (fun i => data.getD i [])) = .ok true) ↔
    DistinctNeeded { leaves := data.map leafHash } indices := by
  let prover : MerkleBatchProver := { leaves := data.map leafHash }
  have hnew : new data = .ok prover := by
    rw [new, if_neg (by simpa using hdata)]
  have hperm := List.perm_insertionSort (· ≤ ·) indices
  have hprove : prover.proveBatch indices = .ok _ :=
    proveBatch_eq hnodup (by simpa [prover] using hlt)
  have hiff : DistinctNeeded prover (indices.insertionSort (· ≤ ·))
      ↔ DistinctNeeded prover indices := by
    simp only [DistinctNeeded, hperm.mem_iff]
  rw [← hiff, ← nodup_neededEntries_iff]
  have hpush := pushAll_eq_iff (prover.neededEntries (indices.insertionSort (· ≤ ·))) []
    List.nodup_nil
  rw [List.nil_append, List.length_nil, Nat.zero_add] at hpush
  constructor
  · intro h
    obtain ⟨prover', proof, hnew', hprove', hverify⟩ := h
    obtain rfl : prover = prover' := Except.ok.inj (hnew.symm.trans hnew')
    obtain rfl := Except.ok.inj (hprove.symm.trans hprove')
    by_contra hdup
    exact verifyBatch_short (hpush.2 hdup) hverify
  · intro hdistinct
    have hmem : ∀ i ∈ indices.insertionSort (· ≤ ·), i < data.length :=
      fun i hi => hlt i (hperm.mem_iff.mp hi)
    refine ⟨prover, _, hnew, hprove,
      verifyBatch_neededEntries (by simp) ?_ ?_ ?_ (hpush.1 hdistinct) rfl⟩
    · intro hnil
      exact hne (List.perm_nil.mp (hperm.symm.trans (List.Perm.of_eq hnil)))
    · simpa [prover] using hmem
    · intro i hi
      rw [claimed_leaf_map prover (fun i => data.getD i []) hi]
      simp [prover, hmem i hi]

/-- The first and the last of five leaves, in the other order. -/
theorem proveBatch_verifies_iff_pair :
    let data : List (List UInt8) := [[97], [98], [99], [100], [101]]
    ∃ prover proof, new data = .ok prover ∧ prover.proveBatch [4, 0] = .ok proof ∧
      prover.verifyBatch proof (proof.leafIndices.map (fun i => data.getD i [])) = .ok true :=
  (proveBatch_verifies_iff [[97], [98], [99], [100], [101]] [4, 0] (by decide) (by decide)
    (by decide) (by decide)).mpr (nodup_neededEntries_iff.mp (by decide))

/-- The leaves beside the first and the third are equal, and one hash is left out. -/
theorem not_proveBatch_verifies :
    ¬ ∀ (data : List (List UInt8)) (indices : List Nat), data ≠ [] → indices ≠ [] →
      indices.Nodup → (∀ i ∈ indices, i < data.length) →
      ∃ prover proof, new data = .ok prover ∧ prover.proveBatch indices = .ok proof ∧
        prover.verifyBatch proof (proof.leafIndices.map (fun i => data.getD i [])) = .ok true := by
  intro h
  obtain ⟨prover, proof, hnew, hprove, hverify⟩ :=
    h [[97], [98], [99], [98]] [0, 2] (by decide) (by decide) (by decide) (by decide)
  obtain rfl := Except.ok.inj hnew
  have hshort : MerkleBatchProver.proveBatch { leaves := [[97], [98], [99], [98]].map leafHash }
      [0, 2] = .ok
        { leafIndices := [0, 2]
          siblingHashes := [(0, leafHash [98])]
          root := MerkleBatchProver.root { leaves := [[97], [98], [99], [98]].map leafHash } } := by
    decide
  obtain rfl := Except.ok.inj (hshort.symm.trans hprove)
  exact verifyBatch_short (by decide) hverify

end MerkleBatchProver

end Ipfrs.Core
