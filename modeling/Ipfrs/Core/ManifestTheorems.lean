/-
Ipfrs.Core.ManifestTheorems — proofs, binding and order of manifests.

The build loop stores the levels of `PairedLevels` one after the other, and `proof_for`
reads the path of a leaf out of them, so the path leads to the root. The root determines
the list of CIDs only up to the duplication of last nodes: it determines the list with the
duplicates written out (`padded`). A manifest depends on the order of its entries exactly
if two different ones agree in path and chunk index.
-/
import Ipfrs.Core.Manifest
import Ipfrs.Lib.MerkleTree

namespace Ipfrs.Core

open Ipfrs.Lib

namespace MerkleTree

/-! ## The tree -/

theorem nextLevel_eq (level : List String) :
    nextLevel level = PairedLevels.up combineHashes level := by
  induction level using nextLevel.induct with
  | case1 left right rest ih => simp [nextLevel, ih, PairedLevels.up, PairedLevels.pairs]
  | case2 last | case3 => simp [nextLevel, PairedLevels.up, PairedLevels.pairs]

/-- The nodes are the levels one after the other. -/
theorem buildLoop_eq : ∀ (rounds : Nat) (done level : List String),
    buildLoop rounds (done ++ level) level = done ++ PairedLevels.flat combineHashes rounds level
  | 0, done, level => rfl
  | rounds + 1, done, level => by
    rw [buildLoop, PairedLevels.flat]
    by_cases h : 1 < level.length
    · rw [if_pos h, if_pos h, nextLevel_eq, buildLoop_eq rounds, List.append_assoc]
    · rw [if_neg h, if_neg h]

theorem nodes_build {cids : List String} (h : cids ≠ []) :
    (build cids).nodes = PairedLevels.flat combineHashes cids.length (cids.map leafHash) := by
  have hloop := buildLoop_eq cids.length [] (cids.map leafHash)
  simp only [List.nil_append] at hloop
  simp [build, h, hloop]

theorem root_build (cids : List String) :
    (build cids).root = PairedLevels.top combineHashes cids.length (cids.map leafHash) := by
  by_cases h : cids = []
  · subst h
    rfl
  · rw [root, nodes_build h, PairedLevels.getLast?_flat]

/-! ## Proofs -/

theorem verifyLoop_eq (hash : String) (index : Nat) (proof : List String) :
    verifyLoop hash index proof = PairedLevels.climb combineHashes hash index proof := by
  induction proof generalizing hash index with
  | nil => rfl
  | cons sibling rest ih => rw [verifyLoop, PairedLevels.climb, ih]

/-- Reading the siblings out of the nodes never leaves them. -/
theorem proofLoop_eq : ∀ (rounds : Nat) (done level : List String) (index : Nat),
    index < level.length →
      proofLoop (done ++ PairedLevels.flat combineHashes rounds level) rounds done.length
          level.length index
        = some (PairedLevels.path combineHashes rounds level index)
  | 0, _, _, _, _ => rfl
  | rounds + 1, done, level, index, hindex => by
    rw [proofLoop, PairedLevels.path, PairedLevels.flat]
    by_cases h : 1 < level.length
    · have hsib : (PairedLevels.siblingIndex level.length index) < level.length :=
        PairedLevels.siblingIndex_lt hindex
      have hnode : (done ++ (level ++ PairedLevels.flat combineHashes rounds
            (PairedLevels.up combineHashes level)))[done.length
              + PairedLevels.siblingIndex level.length index]?
          = level[PairedLevels.siblingIndex level.length index]? := by
        rw [List.getElem?_append_right (by omega), Nat.add_sub_cancel_left,
          List.getElem?_append_left hsib]
      have hrest := proofLoop_eq rounds (done ++ level)
        (PairedLevels.up combineHashes level) (index / 2)
        (by rw [PairedLevels.length_up]; omega)
      rw [List.length_append, PairedLevels.length_up, List.append_assoc] at hrest
      rw [if_pos h, if_pos h, if_pos h]
      simp only [PairedLevels.siblingIndex] at hnode
      simp only [hnode, hrest]
      rw [← PairedLevels.siblingIndex, List.getElem?_eq_getElem hsib]
      rfl
    · rw [if_neg h, if_neg h]

/-- **Completeness of Merkle proofs**: `proof_for` stays in bounds, and its proof leads
from the leaf to the root. -/
theorem proofFor_verifies (cids : List String) (index : Nat) (h : index < cids.length) :
    ∃ proof root, (build cids).proofFor index = some (some proof) ∧
      (build cids).root = some root ∧ verifyProof cids[index] index proof root = true := by
  have hne : cids ≠ [] := by
    intro hnil
    simp [hnil] at h
  have hleaf : (cids.map leafHash)[index]? = some (leafHash cids[index]) := by
    simp [h]
  have htop := PairedLevels.climb_path combineHashes cids.length (cids.map leafHash) index _
    (by simp) hleaf
  have hproof := proofLoop_eq cids.length [] (cids.map leafHash) index (by simpa using h)
  rw [List.nil_append, ← nodes_build hne, List.length_map] at hproof
  have hleaves : (build cids).leaves = cids := by
    simp [build, hne]
  refine ⟨PairedLevels.path combineHashes cids.length (cids.map leafHash) index, _, ?_,
    (root_build cids).trans htop, ?_⟩
  · have hrange : ¬ (cids.length = 0 ∨ index ≥ cids.length) := by omega
    rw [List.length_nil] at hproof
    simp only [proofFor, hleaves, if_neg hrange, hproof, Option.map_some]
  · rw [verifyProof, verifyLoop_eq, beq_self_eq_true]

theorem proofFor_verifies_three :
    ∃ proof root, (build ["a", "b", "c"]).proofFor 2 = some (some proof) ∧
      (build ["a", "b", "c"]).root = some root ∧ verifyProof "c" 2 proof root = true :=
  proofFor_verifies ["a", "b", "c"] 2 (by decide)

/-! ## Binding -/

/-- What `combine_hashes` is called with while the tree is built. -/
def nodeInputs (cids : List String) : List (String × String) :=
  PairedLevels.inputs combineHashes cids.length (cids.map leafHash)

/-- No two of the strings hashed for the two trees have one hash. -/
def NoCollision (cids cids' : List String) : Prop :=
  PairTree.CollisionFree leafHash combineHashes (· ∈ cids ++ cids')
    (· ∈ nodeInputs cids ++ nodeInputs cids')

instance (cids cids' : List String) : Decidable (NoCollision cids cids') :=
  decidable_of_iff
    ((∀ a ∈ cids ++ cids', ∀ b ∈ cids ++ cids', leafHash a = leafHash b → a = b) ∧
      (∀ p ∈ nodeInputs cids ++ nodeInputs cids', ∀ q ∈ nodeInputs cids ++ nodeInputs cids',
        combineHashes p.1 p.2 = combineHashes q.1 q.2 → p = q) ∧
      ∀ a ∈ cids ++ cids', ∀ p ∈ nodeInputs cids ++ nodeInputs cids',
        leafHash a ≠ combineHashes p.1 p.2)
    ⟨fun h => ⟨fun a b ha hb => h.1 a ha b hb, fun p q hp hq => h.2.1 p hp q hq,
        fun a p ha hp => h.2.2 a ha p hp⟩,
      fun h => ⟨fun a ha b hb => h.leaf a b ha hb, fun p hp q hq => h.node p q hp hq,
        fun a ha p hp => h.leaf_ne_node a p ha hp⟩⟩

/-- The list with the duplicates written out: what the tree would be over with lists for
hashes. -/
def padded (cids : List String) : List String :=
  (PairedLevels.top (· ++ ·) cids.length (cids.map (fun c => [c]))).getD []

theorem root_eq_hash (cids : List String) : (build cids).root
      = (PairTree.ofList cids.length cids).map (PairTree.hash leafHash combineHashes) := by
  rw [root_build, PairTree.hash_ofList]

theorem padded_eq (cids : List String) :
    padded cids = ((PairTree.ofList cids.length cids).map PairTree.leaves).getD [] := by
  rw [padded, PairTree.leaves_ofList]

theorem hashedFrom {cids l : List String} {P : String × String → Prop} {t : PairTree String}
    (hmem : ∀ c ∈ cids, c ∈ l) (hP : ∀ p ∈ nodeInputs cids, P p)
    (ht : PairTree.ofList cids.length cids = some t) :
    t.HashedFrom leafHash combineHashes (· ∈ l) P := by
  have hmap : (cids.map PairTree.leaf).map (PairTree.hash leafHash combineHashes)
      = cids.map leafHash := by
    rw [List.map_map]
    rfl
  refine PairTree.hashedFrom_top cids.length (fun t ht => ?_) ?_ ht
  · obtain ⟨c, hc, rfl⟩ := List.mem_map.mp ht
    exact hmem c hc
  · rwa [hmap]

/-- The tree is the same if the root is. -/
theorem ofList_eq_of_root_eq {cids cids' : List String} (hfree : NoCollision cids cids')
    (h : (build cids).root = (build cids').root) :
    PairTree.ofList cids.length cids = PairTree.ofList cids'.length cids' := by
  rw [root_eq_hash, root_eq_hash] at h
  cases ht : PairTree.ofList cids.length cids with
  | none =>
    rw [ht] at h
    exact (Option.map_eq_none_iff.mp h.symm).symm
  | some t =>
    rw [ht] at h
    obtain ⟨t', ht', hhash⟩ := Option.map_eq_some_iff.mp h.symm
    have hfrom := hashedFrom (l := cids ++ cids')
      (P := (· ∈ nodeInputs cids ++ nodeInputs cids'))
      (fun c hc => List.mem_append_left _ hc) (fun p hp => List.mem_append_left _ hp) ht
    have hfrom' := hashedFrom (l := cids ++ cids')
      (P := (· ∈ nodeInputs cids ++ nodeInputs cids'))
      (fun c hc => List.mem_append_right _ hc) (fun p hp => List.mem_append_right _ hp) ht'
    rw [ht', PairTree.hash_inj hfree hfrom' hfrom hhash]

theorem ofList_eq_of_padded_eq {cids cids' : List String} (h : padded cids = padded cids') :
    PairTree.ofList cids.length cids = PairTree.ofList cids'.length cids' := by
  rw [padded_eq, padded_eq] at h
  have hne : ∀ {cids : List String} {t : PairTree String},
      PairTree.ofList cids.length cids = some t → t.leaves ≠ [] := by
    intro cids t ht hnil
    obtain ⟨k, hk⟩ := PairTree.perfect_ofList ht
    have hlen := hk.length_leaves
    have := Nat.two_pow_pos k
    rw [hnil, List.length_nil] at hlen
    omega
  cases ht : PairTree.ofList cids.length cids with
  | none =>
    cases ht' : PairTree.ofList cids'.length cids' with
    | none => rfl
    | some t' =>
      rw [ht, ht'] at h
      exact absurd h.symm (hne ht')
  | some t =>
    cases ht' : PairTree.ofList cids'.length cids' with
    | none =>
      rw [ht, ht'] at h
      exact absurd h (hne ht)
    | some t' =>
      rw [ht, ht'] at h
      rw [PairTree.leaves_inj (PairTree.perfect_ofList ht) (PairTree.perfect_ofList ht') h]

/-- Writing out duplicates only appends. -/
theorem prefix_padded (cids : List String) : cids <+: padded cids := by
  by_cases h : cids = []
  · simp [h]
  · have hne : cids.map (fun c => [c]) ≠ [] := by simpa using h
    obtain ⟨v, hv⟩ := PairedLevels.top_eq_some (· ++ ·) cids.length hne
    have hprefix := PairedLevels.flatten_prefix_top cids.length (by simp) hv
    rw [← List.flatMap_def, List.flatMap_singleton'] at hprefix
    rwa [padded, hv]

/-- **What the root binds**: the list with its duplicates written out. -/
theorem root_eq_iff (cids cids' : List String) (hfree : NoCollision cids cids') :
    ((build cids).root = (build cids').root ↔ padded cids = padded cids') ∧
      ((build cids).root = (build cids').root → cids.length = cids'.length → cids = cids') := by
  have hpadded : (build cids).root = (build cids').root → padded cids = padded cids' := by
    intro h
    rw [padded_eq, padded_eq, ofList_eq_of_root_eq hfree h]
  refine ⟨⟨hpadded, fun h => ?_⟩, fun h hlen => ?_⟩
  · rw [root_eq_hash, root_eq_hash, ofList_eq_of_padded_eq h]
  · have hprefix := prefix_padded cids
    rw [hpadded h] at hprefix
    exact (List.prefix_of_prefix_length_le hprefix (prefix_padded cids')
      (Nat.le_of_eq hlen)).eq_of_length hlen

theorem root_eq_iff_pair :
    ((build ["a", "b"]).root = (build ["b", "a"]).root
        ↔ padded ["a", "b"] = padded ["b", "a"]) ∧
      ((build ["a", "b"]).root = (build ["b", "a"]).root →
        ["a", "b"].length = ["b", "a"].length → ["a", "b"] = ["b", "a"]) :=
  root_eq_iff ["a", "b"] ["b", "a"] (by decide)

/-- Three leaves have the root of the four with the last one twice. -/
theorem root_not_binding : ¬ ∀ cids cids' : List String, NoCollision cids cids' →
      (build cids).root = (build cids').root → cids = cids' := by
  intro h
  have heq := h ["a", "b", "c"] ["a", "b", "c", "c"] (by decide +kernel)
    (by decide +kernel)
  simp at heq

/-- No two of the strings hashed for the tree and for a check of a proof have one hash. -/
def NoForgery (cids : List String) (cid : String) (index : Nat) (proof : List String) : Prop :=
  PairTree.CollisionFree leafHash combineHashes (· ∈ cid :: cids)
    (· ∈ PairedLevels.climbed combineHashes (leafHash cid) index proof ++ nodeInputs cids)

instance (cids : List String) (cid : String) (index : Nat) (proof : List String) :
    Decidable (NoForgery cids cid index proof) :=
  inferInstanceAs (Decidable (PairTree.CollisionFree leafHash combineHashes (· ∈ cid :: cids)
    (· ∈ PairedLevels.climbed combineHashes (leafHash cid) index proof ++ nodeInputs cids)))

/-- **Soundness of Merkle proofs**: a proof that verifies, of any length and for any index, has
one hash for each level, and the CID stands at that index of the list with its duplicates, read
modulo their number. -/
theorem verifyProof_sound {cids : List String} {cid : String} {index : Nat} {proof : List String}
    {root : String} (hroot : (build cids).root = some root)
    (hfree : NoForgery cids cid index proof) (h : verifyProof cid index proof root = true) :
    (padded cids).length = 2 ^ proof.length ∧ (padded cids)[index % 2 ^ proof.length]? = some cid
      ∧ ∀ hlt : index < cids.length, cids[index] = cid := by
  rw [root_eq_hash] at hroot
  obtain ⟨t, ht, rfl⟩ := Option.map_eq_some_iff.mp hroot
  obtain ⟨k, hk⟩ := PairTree.perfect_ofList ht
  have hleaves : padded cids = t.leaves := by rw [padded_eq, ht, Option.map_some, Option.getD_some]
  have hfrom := hashedFrom (l := cid :: cids) (P := (· ∈ PairedLevels.climbed combineHashes
      (leafHash cid) index proof ++ nodeInputs cids))
    (fun c hc => List.mem_cons_of_mem _ hc) (fun p hp => List.mem_append_right _ hp) ht
  rw [verifyProof, beq_iff_eq, verifyLoop_eq] at h
  obtain ⟨rfl, hget⟩ := PairTree.climb_sound hfree List.mem_cons_self proof hk hfrom
    (fun p hp => List.mem_append_left _ hp) h
  have hlength := hk.length_leaves
  rw [← hleaves] at hget hlength
  refine ⟨hlength, hget, fun hlt => ?_⟩
  have hlen := (prefix_padded cids).length_le
  rw [Nat.mod_eq_of_lt (by omega)] at hget
  exact ((prefix_padded cids).getElem hlt).trans (List.getElem?_eq_some_iff.mp hget).2

/-- An index beyond the list verifies: it is the duplicate of the last leaf. -/
theorem verifyProof_sound_three : (padded ["a", "b", "c"])[3 % 2 ^ 2]? = some "c" :=
  have hroot : (build ["a", "b", "c"]).root = some (verifyLoop (leafHash "c") 3
      [leafHash "c", combineHashes (leafHash "a") (leafHash "b")]) := by
    decide +kernel
  (verifyProof_sound hroot (by decide +kernel) (beq_self_eq_true _)).2.1

end MerkleTree

namespace ContentManifest

/-! ## Order -/

theorem sortKey_eq_iff {a b : ManifestEntry} :
    sortKey a = sortKey b ↔ a.path = b.path ∧ a.chunkIndex = b.chunkIndex := by
  simp [sortKey, UInt32.toNat_inj]

/-- **Order independence**: every order of the entries gives one manifest exactly if
entries that agree in path and chunk index are equal. -/
theorem new_perm_iff (entries : List ManifestEntry) :
    (∀ other : List ManifestEntry, other.Perm entries → ∀ now now' : UInt64,
      (new now other).manifestId = (new now' entries).manifestId ∧
        (new now other).rootCid = (new now' entries).rootCid ∧
        (new now other).totalSizeBytes = (new now' entries).totalSizeBytes ∧
        (new now other).entries = (new now' entries).entries) ↔
    ∀ a ∈ entries, ∀ b ∈ entries, a.path = b.path → a.chunkIndex = b.chunkIndex → a = b := by
  have hsort := StableSort.sortBy_perm_iff sortKey entries
  simp only [sortKey_eq_iff, and_imp] at hsort
  rw [← hsort]
  constructor
  · intro h other hperm
    exact (h other hperm 0 0).2.2.2
  · intro h other hperm now now'
    have hentries : sortEntries other = sortEntries entries := h other hperm
    simp [new, hentries]

/-- Two entries with one path and index: the root depends on their order. -/
theorem not_new_perm :
    ¬ ∀ entries other : List ManifestEntry, other.Perm entries → ∀ now now' : UInt64,
      (new now other).manifestId = (new now' entries).manifestId ∧
        (new now other).rootCid = (new now' entries).rootCid ∧
        (new now other).totalSizeBytes = (new now' entries).totalSizeBytes ∧
        (new now other).entries = (new now' entries).entries := by
  intro h
  have hroot := (h [⟨"p", "a", 1, 0, true⟩, ⟨"p", "b", 1, 0, true⟩]
    [⟨"p", "b", 1, 0, true⟩, ⟨"p", "a", 1, 0, true⟩] (List.Perm.swap _ _ _) 0 0).2.1
  revert hroot
  decide

/-! ## Completeness -/

/-- The indices are `0..=max`, each once. -/
theorem perm_range_iff {indices : List Nat} {n : Nat} : indices.Perm (List.range n) ↔
      indices.length = n ∧ (List.range n).all (fun i => indices.contains i) = true := by
  simp only [List.all_eq_true, List.contains_iff_mem]
  constructor
  · intro h
    exact ⟨by simpa using h.length_eq, fun i hi => h.mem_iff.mpr hi⟩
  · rintro ⟨hlen, hmem⟩
    have hsub := List.subperm_of_subset List.nodup_range hmem
    exact (hsub.perm_of_length_le (by simp [hlen])).symm

/-- What `is_complete_for_path` checks: one final entry, and the indices up to its own. -/
theorem isCompleteForPath_eq_true {m : ContentManifest} {path : String} :
    m.isCompleteForPath path = true ↔ ∃ final,
      (m.getEntriesForPath path).filter ManifestEntry.isFinalChunk = [final] ∧
      ((m.getEntriesForPath path).map (fun e => e.chunkIndex.toNat)).Perm
        (List.range (final.chunkIndex.toNat + 1)) := by
  simp only [perm_range_iff, List.length_map, isCompleteForPath]
  cases hentries : m.getEntriesForPath path with
  | nil => simp
  | cons e es =>
    rw [← hentries, hentries, List.isEmpty_cons, if_neg (by decide), ← hentries]
    split
    · next final hfinal => simp [hfinal]
    · next hother =>
      constructor
      · intro h
        cases h
      · rintro ⟨final, hfinal, -⟩
        exact absurd hfinal (hother final)

/-- The chunk indices of a path. -/
def chunkIndices (m : ContentManifest) (path : String) : List Nat :=
  (m.getEntriesForPath path).map (fun e => e.chunkIndex.toNat)

theorem countP_entries (m : ContentManifest) (path : String) (i : UInt32) :
    m.entries.countP (fun e => e.path = path ∧ e.chunkIndex = i)
      = (m.chunkIndices path).count i.toNat := by
  rw [chunkIndices, getEntriesForPath, List.count_eq_countP, List.countP_map, List.countP_filter]
  refine List.countP_congr (fun e _ => ?_)
  simp [UInt32.toNat_inj, and_comm]

/-- The indices are `0..=k`, each in one entry. -/
theorem chunkIndices_perm_iff {m : ContentManifest} {path : String} {k : UInt32} :
    (m.chunkIndices path).Perm (List.range (k.toNat + 1)) ↔
      ∀ i : UInt32, m.entries.countP (fun e => e.path = path ∧ e.chunkIndex = i)
        = if i ≤ k then 1 else 0 := by
  have hle : ∀ i : UInt32, i.toNat < k.toNat + 1 ↔ i ≤ k := fun i => by
    rw [Nat.lt_succ_iff, UInt32.le_iff_toNat_le]
  simp only [countP_entries]
  constructor
  · intro h i
    rw [h.count_eq, List.count_range]
    simp only [hle]
  · intro h
    refine List.perm_iff_count.mpr (fun n => ?_)
    rw [List.count_range]
    by_cases hn : n < 2 ^ 32
    · obtain ⟨i, rfl⟩ : ∃ i : UInt32, i.toNat = n := ⟨UInt32.ofNat n, UInt32.toNat_ofNat_of_lt' hn⟩
      rw [h i]
      simp only [hle]
    · have hk := k.toNat_lt
      rw [if_neg (by omega), List.count_eq_zero, chunkIndices]
      intro hmem
      obtain ⟨e, _, he⟩ := List.mem_map.mp hmem
      have hlt := e.chunkIndex.toNat_lt
      omega

/-- With every index in one entry, the final entry is alone exactly if its index singles it
out. -/
theorem filter_final_iff {entries : List ManifestEntry} {k : UInt32}
    (honce : (entries.map (fun e => e.chunkIndex.toNat)).Perm (List.range (k.toNat + 1))) :
    (∃ final, entries.filter ManifestEntry.isFinalChunk = [final] ∧ final.chunkIndex = k) ↔
      ∀ e ∈ entries, e.isFinalChunk = true ↔ e.chunkIndex = k := by
  have hnodup : (entries.map (fun e => e.chunkIndex.toNat)).Nodup :=
    honce.nodup_iff.mpr List.nodup_range
  constructor
  · rintro ⟨final, hfilter, rfl⟩ e he
    have hfinal : final ∈ entries ∧ final.isFinalChunk = true :=
      List.mem_filter.mp (hfilter ▸ List.mem_singleton_self final)
    constructor
    · intro h
      have hmem : e ∈ [final] := hfilter ▸ List.mem_filter.mpr ⟨he, h⟩
      rw [List.mem_singleton.mp hmem]
    · intro h
      have heq : e = final := List.inj_on_of_nodup_map hnodup he hfinal.1 (by rw [h])
      rw [heq]
      exact hfinal.2
  · intro h
    have hfilter : entries.filter ManifestEntry.isFinalChunk
        = entries.filter (fun e => e.chunkIndex = k) :=
      List.filter_congr (fun e he => by rw [Bool.eq_iff_iff, h e he, decide_eq_true_iff])
    have hone : (entries.filter (fun e => e.chunkIndex = k)).length = 1 := by
      have hcount := honce.count_eq k.toNat
      rw [List.count_range, if_pos (Nat.lt_succ_self _), List.count_eq_countP, List.countP_map,
        List.countP_eq_length_filter] at hcount
      rw [← hcount]
      refine congrArg List.length (List.filter_congr (fun e _ => ?_))
      rw [Bool.eq_iff_iff, decide_eq_true_iff, Function.comp_apply, beq_iff_eq]
      exact UInt32.toNat_inj.symm
    obtain ⟨final, hfinal⟩ := List.length_eq_one_iff.mp hone
    refine ⟨final, hfilter.trans hfinal, ?_⟩
    have hmem := List.mem_filter.mp (hfinal ▸ List.mem_singleton_self final)
    exact of_decide_eq_true hmem.2

/-- **Completeness** of a path: its indices are `0..=k`, each in one entry, and the entry
with index `k` is the only one marked final. -/
theorem isCompleteForPath_iff (m : ContentManifest) (path : String) :
    m.isCompleteForPath path = true ↔ ∃ k : UInt32,
      (∀ i : UInt32, m.entries.countP (fun e => e.path = path ∧ e.chunkIndex = i)
        = if i ≤ k then 1 else 0) ∧
      ∀ e ∈ m.entries, e.path = path → (e.isFinalChunk = true ↔ e.chunkIndex = k) := by
  have hmem : ∀ k : UInt32, (∀ e ∈ m.entries, e.path = path →
      (e.isFinalChunk = true ↔ e.chunkIndex = k)) ↔
      ∀ e ∈ m.getEntriesForPath path, e.isFinalChunk = true ↔ e.chunkIndex = k := by
    intro k
    simp only [getEntriesForPath, List.mem_filter, beq_iff_eq, and_imp]
  simp only [← chunkIndices_perm_iff, hmem, isCompleteForPath_eq_true]
  constructor
  · rintro ⟨final, hfilter, honce⟩
    exact ⟨final.chunkIndex, honce, (filter_final_iff honce).mp ⟨final, hfilter, rfl⟩⟩
  · rintro ⟨k, honce, hfinal⟩
    obtain ⟨final, hfilter, rfl⟩ := (filter_final_iff honce).mpr hfinal
    exact ⟨final, hfilter, honce⟩

end ContentManifest

namespace ManifestDiff

/-! ## Comparison -/

/-- The entries of a manifest whose CID is in no entry of another. -/
def onlyIn (m other : ContentManifest) : List ManifestEntry :=
  m.entries.filter (fun e => e.cid ∉ other.entries.map ManifestEntry.cid)

theorem contains_byCid (m : ContentManifest) (cid : String) :
    (SortedAssoc.get? (byCid m) cid).isSome ↔ cid ∈ m.entries.map ManifestEntry.cid := by
  rw [byCid, SortedAssoc.exists_get?_ofEntries, List.map_map]
  rfl

/-- What is kept of the map of a manifest is `onlyIn`, if no CID in it repeats. -/
theorem kept_perm_iff (m other : ContentManifest) :
    (((byCid m).filter (fun e => !(SortedAssoc.get? (byCid other) e.1).isSome)).map
        Prod.snd).Perm (onlyIn m other) ↔ ((onlyIn m other).map ManifestEntry.cid).Nodup := by
  let absent : String → Bool := fun cid => !(SortedAssoc.get? (byCid other) cid).isSome
  let keyed : ManifestEntry → String × ManifestEntry := fun e => (e.cid, e)
  have hentries : (m.entries.map keyed).filter (fun e => absent e.1)
      = (onlyIn m other).map keyed := by
    rw [List.filter_map, onlyIn]
    congr 1
    refine List.filter_congr (fun e _ => ?_)
    have hiff : (absent e.cid = true) ↔ e.cid ∉ other.entries.map ManifestEntry.cid := by
      rw [← contains_byCid]
      simp [absent]
    rw [Bool.eq_iff_iff, decide_eq_true_iff]
    exact hiff
  -- a kept pair is an entry with its CID
  have hpairs : (((byCid m).filter (fun e => absent e.1)).map Prod.snd).map keyed
      = (byCid m).filter (fun e => absent e.1) := by
    have hkey : ∀ e ∈ (byCid m).filter (fun e => absent e.1), keyed e.2 = id e := by
      intro e he
      obtain ⟨entry, -, rfl⟩ := List.mem_map.mp
        (SortedAssoc.mem_of_mem_ofEntries (List.mem_of_mem_filter he))
      rfl
    rw [List.map_map]
    exact (List.map_congr_left hkey).trans (List.map_id _)
  have hiff := SortedAssoc.filter_ofEntries_perm_iff absent (m.entries.map keyed)
  rw [hentries, List.map_map] at hiff
  refine Iff.trans ⟨fun hperm => ?_, fun hperm => ?_⟩ hiff
  · have hmap := hperm.map keyed
    rw [hpairs] at hmap
    exact hmap
  · have hmap := hperm.map Prod.snd
    have hsnd : ((onlyIn m other).map keyed).map Prod.snd = onlyIn m other := by
      simp [keyed, Function.comp_def]
    rw [hsnd] at hmap
    exact hmap

/-- **Comparison** is exact, with multiplicity, exactly if no CID that is in one manifest
only is in two of its entries. -/
theorem diff_exact_iff (old new : ContentManifest) :
    ((diff old new).added.Perm (onlyIn new old) ∧ (diff old new).removed.Perm (onlyIn old new))
      ↔ ((onlyIn new old).map ManifestEntry.cid).Nodup ∧
        ((onlyIn old new).map ManifestEntry.cid).Nodup :=
  and_congr (kept_perm_iff new old) (kept_perm_iff old new)

/-- Two paths with the same chunk: one of them is lost. -/
theorem not_diff_exact : ¬ ∀ old new : ContentManifest, (diff old new).added.Perm (onlyIn new old) ∧
        (diff old new).removed.Perm (onlyIn old new) := by
  intro h
  have hadded := (h (ContentManifest.new 0 []) (ContentManifest.new 0
    [⟨"a", "c", 1, 0, true⟩, ⟨"b", "c", 1, 0, true⟩])).1.length_eq
  revert hadded
  decide

end ManifestDiff

end Ipfrs.Core
