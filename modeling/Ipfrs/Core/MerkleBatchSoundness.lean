/-
Ipfrs.Core.MerkleBatchSoundness — what the verification of a batch proves.

The verifier compares what it computes with the root that the proof carries, not with the
root of its own tree. Without collisions a proof that carries the prover's root binds the
hash at every covered position (`knownHash_of_root`), so the item that decides the hash of
a leaf has that hash. That is the last item given for the leaf: an earlier one for the
same leaf is overwritten. With another root anything is accepted: every list of items has
a root for which it verifies (`exists_root_iff`).
-/
import Ipfrs.Core.MerkleBatchCompleteness

namespace Ipfrs.Core.MerkleBatchProver

open Ipfrs.Lib

/-- The items have the hashes of the leaves at the indices. -/
def Matches (prover : MerkleBatchProver) (leafIndices : List Nat)
    (dataItems : List (List UInt8)) : Prop :=
  dataItems.map leafHash = leafIndices.map (fun i => prover.leaves.getD i 0)

/-- The pairs combined in the tree. -/
def treePairs (prover : MerkleBatchProver) : Set (UInt64 × UInt64) :=
  {pair | ∃ level pos, level < prover.height ∧ pos < 2 ^ (prover.height - (level + 1)) ∧
    pair = (prover.nodeHash level (pos * 2), prover.nodeHash level (pos * 2 + 1))}

/-- The pairs that the verifier combines on the way to the root. -/
def verifierPairs (prover : MerkleBatchProver) (proof : BatchProof)
    (dataItems : List (List UInt8)) : Set (UInt64 × UInt64) :=
  {pair | ∃ level pos, level < prover.height ∧
    MerkleTree.Covered (· ∈ proof.leafIndices) (level + 1) pos ∧
    pair = (knownHash (prover.claimed proof dataItems) level (pos * 2),
      knownHash (prover.claimed proof dataItems) level (pos * 2 + 1))}

/-- No two of the pairs have the same combination. -/
def CombineFree (pairs : Set (UInt64 × UInt64)) : Prop :=
  Set.InjOn (fun pair => combine pair.1 pair.2) pairs

section

variable {prover : MerkleBatchProver} {proof : BatchProof} {dataItems : List (List UInt8)}

theorem covered_lt_height (hlt : ∀ i ∈ proof.leafIndices, i < prover.leaves.length) :
    ∀ i, i ∈ proof.leafIndices → i < 2 ^ prover.height :=
  fun i hi => (hlt i hi).trans_le prover.length_leaves_le

/-! ## The prover's root -/

variable {pairs : Set (UInt64 × UInt64)} {leafIndices : List Nat}

/-- **A proof with the prover's root** binds every covered hash. -/
theorem knownHash_of_root (hfree : CombineFree pairs) (htree : prover.treePairs ⊆ pairs)
    (hverifier : prover.verifierPairs proof dataItems ⊆ pairs)
    (hlt : ∀ i ∈ proof.leafIndices, i < prover.leaves.length)
    (hroot : knownHash (prover.claimed proof dataItems) prover.height 0 = prover.root)
    {level pos : Nat} (hle : level ≤ prover.height)
    (hcov : MerkleTree.Covered (· ∈ proof.leafIndices) level pos) :
    knownHash (prover.claimed proof dataItems) level pos = prover.nodeHash level pos := by
  rw [root_eq] at hroot
  refine MerkleTree.eq_of_eq_top (covered_lt_height hlt)
    (fun l q hq => knownHash_succ (claimed_covered hq)) (fun l q _ => prover.nodeHash_succ l q)
    (fun l q hl hq heq => ?_) hroot (prover.height - level) level pos (by omega) hcov
  have hpos := hq.lt (covered_lt_height hlt) hl
  exact Prod.mk.inj (hfree (hverifier ⟨l, q, hl, hq, rfl⟩) (htree ⟨l, q, hl, hpos, rfl⟩) heq)

/-- For every leaf of an accepted proof some item given for it has its hash. -/
theorem exists_item_of_accepted (hfree : CombineFree pairs) (htree : prover.treePairs ⊆ pairs)
    (hverifier : prover.verifierPairs proof dataItems ⊆ pairs)
    (hlt : ∀ i ∈ proof.leafIndices, i < prover.leaves.length) (hroot : proof.root = prover.root)
    (hverify : prover.verifyBatch proof dataItems = .ok true) {i : Nat}
    (hi : i ∈ proof.leafIndices) : ∃ e ∈ proof.leafIndices.zip dataItems, e.1 = i ∧
      leafHash e.2 = prover.leaves.getD i 0 := by
  obtain ⟨hlen, -, -, htop⟩ := (verifyBatch_eq_true_iff hlt).mp hverify
  obtain ⟨e, he, heq, hlookup⟩ := claimed_leaf prover hlen hi
  have hbound := knownHash_of_root hfree htree hverifier hlt (htop.trans hroot)
    (Nat.zero_le _) ((MerkleTree.covered_zero i).mpr hi)
  rw [knownHash_of_lookup hlookup, nodeHash_leaf (hlt i hi)] at hbound
  exact ⟨e, he, heq, hbound⟩

theorem matches_of_zip (hlen : dataItems.length = leafIndices.length)
    (h : ∀ e ∈ leafIndices.zip dataItems, leafHash e.2 = prover.leaves.getD e.1 0) :
    prover.Matches leafIndices dataItems := by
  refine List.ext_getElem (by simp [hlen]) (fun n hn hn' => ?_)
  rw [List.length_map] at hn hn'
  have hzip : n < (leafIndices.zip dataItems).length := by
    rw [List.length_zip]
    omega
  have hmem := h _ (List.getElem_mem hzip)
  simpa using hmem

/-- Soundness: items that agree wherever they are given for the same leaf. -/
theorem matches_of_accepted (hfree : CombineFree pairs) (htree : prover.treePairs ⊆ pairs)
    (hverifier : prover.verifierPairs proof dataItems ⊆ pairs)
    (hlt : ∀ i ∈ proof.leafIndices, i < prover.leaves.length) (hroot : proof.root = prover.root)
    (hsame : ∀ e ∈ proof.leafIndices.zip dataItems, ∀ e' ∈ proof.leafIndices.zip dataItems,
      e.1 = e'.1 → leafHash e.2 = leafHash e'.2)
    (hverify : prover.verifyBatch proof dataItems = .ok true) :
    prover.Matches proof.leafIndices dataItems := by
  obtain ⟨hlen, -⟩ := (verifyBatch_eq_true_iff hlt).mp hverify
  refine matches_of_zip hlen (fun e he => ?_)
  obtain ⟨e', he', heq, hhash⟩ := exists_item_of_accepted hfree htree hverifier hlt hroot
    hverify (List.of_mem_zip he).1
  rw [hsame e he e' he' heq.symm, hhash]

/-- Distinct leaves have one item each. -/
theorem same_of_nodup (hnodup : leafIndices.Nodup) (hlen : dataItems.length = leafIndices.length)
    {e e' : Nat × List UInt8} (he : e ∈ leafIndices.zip dataItems)
    (he' : e' ∈ leafIndices.zip dataItems) (heq : e.1 = e'.1) : e = e' := by
  have hkeys : ((leafIndices.zip dataItems).map Prod.fst).Nodup := by
    rwa [List.map_fst_zip (Nat.le_of_eq hlen.symm)]
  exact List.inj_on_of_nodup_map hkeys he he' heq

/-! ## Repeated leaves -/

/-- Items of which the last one given for a leaf is `right` and any other one `wrong`. -/
def lastItems (right wrong : Nat → List UInt8) : List Nat → List (List UInt8)
  | [] => []
  | i :: rest => (if i ∈ rest then wrong i else right i) :: lastItems right wrong rest

variable {right wrong : Nat → List UInt8}

@[simp] theorem length_lastItems (leafIndices : List Nat) :
    (lastItems right wrong leafIndices).length = leafIndices.length := by
  induction leafIndices with
  | nil => rfl
  | cons i rest ih => simp [lastItems, ih]

/-- The verifier goes by the right ones. -/
theorem lookup_lastItems {i : Nat} (hi : i ∈ leafIndices) :
    (knownLeaves leafIndices (lastItems right wrong leafIndices)).lookup (0, i)
      = some (leafHash (right i)) := by
  rw [knownLeaves_eq]
  generalize (∅ : Known) = known
  induction leafIndices generalizing known with
  | nil => cases hi
  | cons j rest ih =>
    by_cases hrest : i ∈ rest
    · exact ih hrest _
    · obtain rfl : i = j := by simpa [hrest] using hi
      have hnot : (0, i) ∉ rest.map (fun i => (0, i)) := by simpa using hrest
      simp only [lastItems, if_neg hrest, List.map_cons]
      exact (lookup_placeAll_of_notMem hnot _ _).trans (AList.lookup_insert known)

/-- If a leaf is repeated, one of them is wrong. -/
theorem exists_wrong_of_not_nodup (hwrong : ∀ i, leafHash (wrong i) ≠ prover.leaves.getD i 0)
    (h : ¬ leafIndices.Nodup) :
    ¬ prover.Matches leafIndices (lastItems right wrong leafIndices) := by
  induction leafIndices with
  | nil => exact absurd List.nodup_nil h
  | cons i rest ih =>
    intro hmatches
    rw [Matches, lastItems, List.map_cons, List.map_cons, List.cons.injEq] at hmatches
    by_cases hi : i ∈ rest
    · rw [if_pos hi] at hmatches
      exact hwrong i hmatches.1
    · exact ih (fun hrest => h (List.nodup_cons.mpr ⟨hi, hrest⟩)) hmatches.2

/-- An item with another hash. -/
def otherItem (hash : UInt64) : List UInt8 := if leafHash [] = hash then [0] else []

theorem leafHash_otherItem (hash : UInt64) : leafHash (otherItem hash) ≠ hash := by
  unfold otherItem
  split
  · next h =>
    rw [← h]
    decide
  · next h => exact h

/-- With the prover's own entries and root, the last items alone decide. -/
theorem accepts_lastItems (hne : leafIndices ≠ [])
    (hlt : ∀ i ∈ leafIndices, i < prover.leaves.length)
    (hright : ∀ i ∈ leafIndices, leafHash (right i) = prover.leaves.getD i 0) :
    let proof : BatchProof := ⟨leafIndices, prover.neededEntries leafIndices, prover.root⟩
    prover.verifierPairs proof (lastItems right wrong leafIndices) ⊆ prover.treePairs ∧
      prover.verifyBatch proof (lastItems right wrong leafIndices) = .ok true := by
  intro proof
  have hleaf : ∀ i ∈ leafIndices,
      (prover.claimed proof (lastItems right wrong leafIndices)).lookup (0, i)
        = some (prover.leaves.getD i 0) := by
    intro i hi
    have hnot : (0, i) ∉ prover.neededPositions proof := by
      simp [mem_neededPositions, MerkleTree.Needed, proof, hi]
    rw [claimed, lookup_placeAll_of_notMem hnot, lookup_lastItems hi, hright i hi]
  constructor
  · rintro pair ⟨level, pos, hlevel, hcov, rfl⟩
    have hnode : ∀ p, MerkleTree.Covered (· ∈ leafIndices) level p
        ∨ MerkleTree.Needed (· ∈ leafIndices) level p →
        knownHash (prover.claimed proof (lastItems right wrong leafIndices)) level p
          = prover.nodeHash level p := by
      intro p hp
      rcases hp with hp | hp
      · exact knownHash_claimed hlt hleaf rfl level p (Nat.le_of_lt hlevel) hp
      · exact knownHash_claimed_needed rfl hlevel hp
    obtain ⟨hleft, hright'⟩ := (MerkleTree.covered_succ_iff level pos).mp hcov
    refine ⟨level, pos, hlevel, hcov.lt (covered_lt_height hlt) hlevel, ?_⟩
    rw [hnode _ hleft, hnode _ hright']
  · exact verifyBatch_neededEntries (length_lastItems _) hne hlt hleaf rfl rfl

/-! ## Other roots -/

/-- **Any items are accepted** with a root made for them. -/
theorem exists_root_iff {siblingHashes : List (Nat × UInt64)}
    (hlt : ∀ i ∈ leafIndices, i < prover.leaves.length) :
    (∃ root, prover.verifyBatch ⟨leafIndices, siblingHashes, root⟩ dataItems = .ok true) ↔
      dataItems.length = leafIndices.length ∧ leafIndices ≠ [] ∧
        (prover.neededPositions ⟨leafIndices, siblingHashes, 0⟩).length ≤ siblingHashes.length := by
  constructor
  · intro h
    obtain ⟨root, hverify⟩ := h
    obtain ⟨hlen, hne, hentries, -⟩ := (verifyBatch_eq_true_iff hlt).mp hverify
    exact ⟨hlen, hne, hentries⟩
  · intro h
    obtain ⟨hlen, hne, hentries⟩ := h
    exact ⟨knownHash (prover.claimed ⟨leafIndices, siblingHashes, 0⟩ dataItems) prover.height 0,
      (verifyBatch_eq_true_iff hlt).mpr ⟨hlen, hne, hentries, rfl⟩⟩

/-- So the items of an accepted proof are right only where there are none. -/
theorem sound_any_root_iff (hlt : ∀ i ∈ leafIndices, i < prover.leaves.length) :
    (∀ siblingHashes root dataItems,
        prover.verifyBatch ⟨leafIndices, siblingHashes, root⟩ dataItems = .ok true →
        prover.Matches leafIndices dataItems) ↔ leafIndices = [] := by
  constructor
  · intro hsound
    by_contra hne
    let items := leafIndices.map (fun i => otherItem (prover.leaves.getD i 0))
    let siblingHashes : List (Nat × UInt64) :=
      List.replicate (neededFrom prover.height 0 (collectPos leafIndices)).length (0, 0)
    have haccepted : ∃ root,
        prover.verifyBatch ⟨leafIndices, siblingHashes, root⟩ items = .ok true :=
      (exists_root_iff hlt).mpr ⟨List.length_map _, hne, by
        simp [neededPositions, siblingHashes]⟩
    obtain ⟨root, hverify⟩ := haccepted
    have hmatches := hsound siblingHashes root items hverify
    obtain ⟨i, hi⟩ := List.exists_mem_of_ne_nil _ hne
    rw [Matches, List.map_map, List.map_inj_left] at hmatches
    exact leafHash_otherItem _ (hmatches i hi)
  · intro hnil siblingHashes root dataItems hverify
    exact absurd hnil ((verifyBatch_eq_true_iff hlt).mp hverify).2.1

end

/-- **Soundness of batch proofs.** With the prover's own root and no collision the accepted
items have the hashes of their leaves, whatever the sibling hashes, exactly if no leaf is
repeated (or one of them is the hash of nothing, and no items are accepted). With any root
they need not, unless there are no leaves. -/
theorem verifyBatch_sound_iff (prover : MerkleBatchProver) (leafIndices : List Nat)
    (hlt : ∀ i ∈ leafIndices, i < prover.leaves.length) (pairs : Set (UInt64 × UInt64))
    (hfree : CombineFree pairs) (htree : prover.treePairs ⊆ pairs) : ((∀ siblingHashes dataItems,
        prover.verifierPairs ⟨leafIndices, siblingHashes, prover.root⟩ dataItems ⊆ pairs →
        prover.verifyBatch ⟨leafIndices, siblingHashes, prover.root⟩ dataItems = .ok true →
        prover.Matches leafIndices dataItems) ↔
      leafIndices.Nodup ∨ ∃ i ∈ leafIndices, ∀ item, leafHash item ≠ prover.leaves.getD i 0) ∧
    ((∀ siblingHashes root dataItems,
        prover.verifyBatch ⟨leafIndices, siblingHashes, root⟩ dataItems = .ok true →
        prover.Matches leafIndices dataItems) ↔ leafIndices = []) := by
  refine ⟨⟨fun hsound => ?_, fun hcond siblingHashes dataItems hpairs hverify => ?_⟩,
    sound_any_root_iff hlt⟩
  · by_contra hnot
    obtain ⟨hdup, hhashed⟩ := not_or.mp hnot
    push Not at hhashed
    choose! right hright using hhashed
    have hne : leafIndices ≠ [] := fun hnil => hdup (hnil ▸ List.nodup_nil)
    obtain ⟨hpairs, hverify⟩ := accepts_lastItems hne hlt hright
    exact exists_wrong_of_not_nodup (fun i => leafHash_otherItem (prover.leaves.getD i 0)) hdup
      (hsound _ _ (hpairs.trans htree) hverify)
  · rcases hcond with hnodup | ⟨i, hi, hnone⟩
    · obtain ⟨hlen, -⟩ := (verifyBatch_eq_true_iff hlt).mp hverify
      refine matches_of_accepted hfree htree hpairs hlt rfl (fun e he e' he' heq => ?_) hverify
      rw [same_of_nodup hnodup hlen he he' heq]
    · obtain ⟨e, -, -, hhash⟩ := exists_item_of_accepted hfree htree hpairs hlt rfl hverify hi
      exact absurd hhash (hnone e.2)

/-! ## Two leaves -/

/-- The tree of `a` and `b`. -/
def pairProver : MerkleBatchProver := { leaves := [[97], [98]].map leafHash }

theorem height_pairProver : pairProver.height = 1 := by decide

theorem treePairs_pairProver : pairProver.treePairs ⊆ {(leafHash [97], leafHash [98])} := by
  intro pair h
  obtain ⟨level, pos, hlevel, hpos, rfl⟩ := h
  rw [height_pairProver] at hlevel hpos
  obtain rfl : level = 0 := by omega
  obtain rfl : pos = 0 := by simpa using hpos
  have hleft : pairProver.nodeHash 0 0 = leafHash [97] := nodeHash_leaf (by decide)
  have hright : pairProver.nodeHash 0 1 = leafHash [98] := nodeHash_leaf (by decide)
  rw [Nat.zero_mul, Nat.zero_add, hleft, hright]
  rfl

/-- The pair of the tree and one with an item `x` that is not in it. -/
def samplePairs : Set (UInt64 × UInt64) :=
  {(leafHash [97], leafHash [98]), (leafHash [120], leafHash [98])}

theorem combineFree_samplePairs : CombineFree samplePairs := by
  have hne : combine (leafHash [97]) (leafHash [98]) ≠ combine (leafHash [120]) (leafHash [98]) :=
    by decide
  rintro p (rfl | rfl) q (rfl | rfl) heq
  · rfl
  · exact absurd heq hne
  · exact absurd heq.symm hne
  · rfl

theorem treePairs_subset_samplePairs : pairProver.treePairs ⊆ samplePairs :=
  treePairs_pairProver.trans (by simp [samplePairs])

/-- One item for the first leaf, combined to a pair of the sample. -/
theorem verifierPairs_pairProver {proof : BatchProof} {dataItems : List (List UInt8)}
    (hindices : proof.leafIndices = [0])
    (hpair : (knownHash (pairProver.claimed proof dataItems) 0 0,
      knownHash (pairProver.claimed proof dataItems) 0 1) ∈ samplePairs) :
    pairProver.verifierPairs proof dataItems ⊆ samplePairs := by
  intro pair h
  obtain ⟨level, pos, hlevel, hcov, rfl⟩ := h
  rw [height_pairProver] at hlevel
  obtain rfl : level = 0 := by omega
  have hpos : pos < 2 ^ (1 - (0 + 1)) := hcov.lt (by simp [hindices]) (Nat.le_refl 1)
  obtain rfl : pos = 0 := by simpa using hpos
  exact hpair

/-- The proof for the first leaf. -/
def pairProof : BatchProof :=
  { leafIndices := [0]
    siblingHashes := [(0, leafHash [98])]
    root := pairProver.root }

theorem verifyBatch_sound_iff_pair : pairProver.Matches [0] [[97]] := by
  have hpair : (knownHash (pairProver.claimed pairProof [[97]]) 0 0,
      knownHash (pairProver.claimed pairProof [[97]]) 0 1)
      = (leafHash [97], leafHash [98]) := by decide
  exact (verifyBatch_sound_iff pairProver [0] (by decide) samplePairs combineFree_samplePairs
    treePairs_subset_samplePairs).1.mpr (.inl (by decide)) pairProof.siblingHashes [[97]]
    (verifierPairs_pairProver rfl (hpair ▸ .inl rfl)) (by decide)

/-- A proof for `x` with a root made for it. -/
def forgedProof : BatchProof :=
  { leafIndices := [0]
    siblingHashes := [(0, leafHash [98])]
    root := combine (leafHash [120]) (leafHash [98]) }

/-- It is accepted in the tree of `a` and `b`, with no collision anywhere. -/
theorem not_verifyBatch_sound :
    ¬ ∀ (prover : MerkleBatchProver) (proof : BatchProof) (dataItems : List (List UInt8))
        (hashed : Set (List UInt8)) (pairs : Set (UInt64 × UInt64)),
      (∀ i ∈ proof.leafIndices, i < prover.leaves.length) →
      Set.InjOn leafHash hashed → (∀ item ∈ dataItems, item ∈ hashed) →
      (∀ leaf ∈ prover.leaves, ∃ item ∈ hashed, leafHash item = leaf) →
      CombineFree pairs → prover.treePairs ⊆ pairs → prover.verifierPairs proof dataItems ⊆ pairs →
      prover.verifyBatch proof dataItems = .ok true →
      prover.Matches proof.leafIndices dataItems := by
  intro h
  have hleaf : Set.InjOn leafHash {[97], [98], [120]} := by
    have hdistinct : ([[97], [98], [120]].map leafHash).Nodup := by decide
    intro a ha b hb heq
    exact List.inj_on_of_nodup_map hdistinct (by simpa using ha) (by simpa using hb) heq
  have hpair : (knownHash (pairProver.claimed forgedProof [[120]]) 0 0,
      knownHash (pairProver.claimed forgedProof [[120]]) 0 1)
      = (leafHash [120], leafHash [98]) := by decide
  have hmatches := h pairProver forgedProof [[120]] {[97], [98], [120]} samplePairs
    (by decide) hleaf (by simp) (by simp [pairProver]) combineFree_samplePairs
    treePairs_subset_samplePairs (verifierPairs_pairProver rfl (hpair ▸ .inr rfl))
    (by decide)
  exact absurd hmatches (by rw [Matches]; decide)

end Ipfrs.Core.MerkleBatchProver
