/-
Ipfrs.Core.ChunkingTheorems — what the chunker builds.

`Spans blocks d links bytes` says that a level of links spells `bytes`: every
link leads, through blocks of `blocks`, to leaves that are all exactly `d` nodes
below it, and the leaves joined from left to right are `bytes`. The level loop
keeps it, with one more node per round (`levelBody_spans`), because grouping the
links of a level changes neither their order nor their depth. So the root of a
chunked file spells the whole data (`chunk_spans`), whatever the node width and
however ragged the last group of each level.
-/
import Ipfrs.Core.Chunking
import Ipfrs.Core.DagCborStrict
import Mathlib.Algebra.Order.BigOperators.Group.List

namespace Ipfrs.Core

open Ipfrs.Lib

/-! ## Cutting the data -/

theorem scanByte_lastBoundary (r : RabinChunker) (s : RabinChunker.Scan) (i : Nat) (byte : UInt8) :
    (r.scanByte s i byte).lastBoundary = i ∨
      (r.scanByte s i byte).lastBoundary = s.lastBoundary := by
  unfold RabinChunker.scanByte
  dsimp only
  split
  · split
    · exact .inl rfl
    · split
      · exact .inl rfl
      · exact .inr rfl
  · exact .inr rfl

/-- The boundary loop places every boundary before the end of the data. -/
theorem scan_lastBoundary_lt (r : RabinChunker) {n : Nat} (bytes : List UInt8) :
    ∀ (i : Nat) (s : RabinChunker.Scan), i + bytes.length ≤ n → s.lastBoundary < n →
      (r.scan i bytes s).lastBoundary < n := by
  induction bytes with
  | nil =>
    intro i s _ hs
    exact hs
  | cons byte rest ih =>
    intro i s hi hs
    rw [List.length_cons] at hi
    refine ih (i + 1) _ (by omega) ?_
    rcases scanByte_lastBoundary r s i byte with h | h
    · rw [h]; omega
    · rw [h]; exact hs

/-- The last boundary is the end of the data. -/
theorem findBoundaries_getLastD (r : RabinChunker) {data : List UInt8} (hdata : data ≠ []) :
    (r.findBoundaries data).getLastD 0 = data.length := by
  have hpos : 0 < data.length := List.length_pos_of_ne_nil hdata
  unfold RabinChunker.findBoundaries
  split
  · rfl
  · have hlt := scan_lastBoundary_lt r data 0 { window := List.replicate r.windowSize 0 }
      (by omega : 0 + data.length ≤ data.length) hpos
    simp [hlt]

/-- Either strategy cuts the data into pieces that join to it. -/
theorem flatten_of_chunkSlices {config : ChunkingConfig} {data : List UInt8}
    {slices : List (List UInt8)} (h : chunkSlices config data = some slices)
    (hdata : data ≠ []) : slices.flatten = data := by
  unfold chunkSlices at h
  split at h
  · exact flatten_of_chunks h
  · exact flatten_of_cut h (findBoundaries_getLastD _ hdata)

/-! ## The node over a group of links -/

/-- The value of the node over a group. -/
def groupIpld (group : List DagLink) : Ipld := (DagNode.intermediate group).toIpld

/-- The fields the reader looks up in a link. -/
theorem toIpld_cid (link : DagLink) :
    ∃ m, link.toIpld = .map m ∧ Ipld.field m "cid" = some (.link link.cid) := by
  refine ⟨_, rfl, ?_⟩
  cases link.name with
  | none | some name => simp [Ipld.field, SortedAssoc.ofEntries, SortedAssoc.get?_insert]

/-- The fields the reader looks up in a node over a group. -/
theorem groupIpld_fields (group : List DagLink) :
    ∃ m, groupIpld group = .map m ∧ Ipld.field m "data" = none ∧
      Ipld.field m "links" = some (.list (group.map DagLink.toIpld)) ∧
      Ipld.field m "totalSize"
        = some (.integer (asU64 (group.map DagLink.size).sum)) := by
  refine ⟨_, rfl, ?_⟩
  simp [Ipld.field, SortedAssoc.ofEntries, SortedAssoc.get?_insert, SortedAssoc.get?,
    DagNode.intermediate]

/-- A node over links with `u64` sizes is shaped. -/
theorem groupIpld_shaped {group : List DagLink} (hsize : ∀ l ∈ group, l.size < 2 ^ 64) :
    (groupIpld group).Shaped Ipld.CborInt := by
  have hint : ∀ {n : Nat}, n < 2 ^ 64 → (Ipld.integer n).Shaped Ipld.CborInt := by
    intro n hn
    exact .integer _ (by unfold Ipld.CborInt; omega)
  refine .ofEntries (fun e he => ?_)
  simp only [DagNode.intermediate, Option.toList_none, List.map_nil, List.append_nil,
    List.mem_cons, List.not_mem_nil, or_false] at he
  rcases he with rfl | rfl
  · refine .list _ (fun v hv => ?_)
    obtain ⟨l, hl, rfl⟩ := List.mem_map.mp hv
    refine .ofEntries (fun e he => ?_)
    simp only [List.mem_append, List.mem_cons, List.not_mem_nil, or_false, List.mem_map] at he
    rcases he with (rfl | rfl) | ⟨name, _, rfl⟩
    · exact .link _
    · exact hint (hsize l hl)
    · exact .string _
  · exact hint (asU64_lt _)

/-! ## Levels -/

section

variable [CidCrate]

/-- A level of links spells `bytes`: each link is `d` nodes above its leaves, and
its recorded size is the size of what it spells. -/
inductive Spans (blocks : List Block) : Nat → List DagLink → List UInt8 → Prop where
  | nil (d) : Spans blocks d [] []
  | leaf {link : DagLink} {links : List DagLink} {block : Block} {rest : List UInt8}
      (hmem : block ∈ blocks) (hcid : block.cid = link.cid)
      (hcodec : block.cid.codec = codecRaw) (hsize : link.size = block.data.length)
      (hrest : Spans blocks 0 links rest) :
      Spans blocks 0 (link :: links) (block.data ++ rest)
  | node {d : Nat} {link : DagLink} {links group : List DagLink} {block : Block}
      {bytes rest : List UInt8}
      (hmem : block ∈ blocks) (hcid : block.cid = link.cid)
      (hcodec : block.cid.codec = codecDagCbor)
      (hdata : block.data = cborBytes (groupIpld group))
      (hwf : (groupIpld group).Wf Ipld.CborInt) (hsize : link.size = bytes.length)
      (hgroup : Spans blocks d group bytes) (hrest : Spans blocks (d + 1) links rest) :
      Spans blocks (d + 1) (link :: links) (bytes ++ rest)

namespace Spans

variable {blocks : List Block} {d : Nat} {links : List DagLink} {bytes : List UInt8}

theorem mono {blocks' : List Block} (hsub : ∀ b ∈ blocks, b ∈ blocks')
    (h : Spans blocks d links bytes) : Spans blocks' d links bytes := by
  induction h with
  | nil d => exact .nil d
  | leaf hmem hcid hcodec hsize _ ih => exact .leaf (hsub _ hmem) hcid hcodec hsize ih
  | node hmem hcid hcodec hdata hwf hsize _ _ ihg ih =>
    exact .node (hsub _ hmem) hcid hcodec hdata hwf hsize ihg ih

/-- Levels of one depth join. -/
theorem append {l l' : List DagLink} {b b' : List UInt8} (h : Spans blocks d l b)
    (h' : Spans blocks d l' b') : Spans blocks d (l ++ l') (b ++ b') := by
  induction h with
  | nil d => exact h'
  | leaf hmem hcid hcodec hsize _ ih =>
    rw [List.append_assoc]
    exact .leaf hmem hcid hcodec hsize (ih h')
  | node hmem hcid hcodec hdata hwf hsize hgroup _ _ ih =>
    rw [List.append_assoc]
    exact .node hmem hcid hcodec hdata hwf hsize hgroup (ih h')

/-- A level splits where its links do. -/
theorem split {l' : List DagLink} :
    ∀ {l : List DagLink} {bytes : List UInt8}, Spans blocks d (l ++ l') bytes →
      ∃ b b', bytes = b ++ b' ∧ Spans blocks d l b ∧ Spans blocks d l' b' := by
  intro l
  induction l with
  | nil =>
    intro bytes h
    exact ⟨[], bytes, rfl, .nil d, h⟩
  | cons link links ih =>
    intro bytes h
    cases h with
    | leaf hmem hcid hcodec hsize hrest =>
      obtain ⟨b, b', rfl, hl, hl'⟩ := ih hrest
      exact ⟨_, b', (List.append_assoc _ _ _).symm,
        .leaf hmem hcid hcodec hsize hl, hl'⟩
    | node hmem hcid hcodec hdata hwf hsize hgroup hrest =>
      obtain ⟨b, b', rfl, hl, hl'⟩ := ih hrest
      exact ⟨_, b', (List.append_assoc _ _ _).symm,
        .node hmem hcid hcodec hdata hwf hsize hgroup hl, hl'⟩

/-- The recorded sizes add up to what the level spells. -/
theorem sum_size (h : Spans blocks d links bytes) :
    (links.map DagLink.size).sum = bytes.length := by
  induction h with
  | nil d => rfl
  | leaf _ _ _ hsize _ ih => simp [ih, hsize]
  | node _ _ _ _ _ hsize _ _ _ ih => simp [ih, hsize]

theorem size_le (h : Spans blocks d links bytes) {l : DagLink} (hl : l ∈ links) :
    l.size ≤ bytes.length := by
  rw [← h.sum_size]
  exact List.le_sum_of_mem (List.mem_map_of_mem hl)

end Spans

/-! ## Building the levels -/

/-- The leaf loop keeps the blocks it has. -/
theorem buildLeaves_blocks (slices : List (List UInt8)) :
    ∀ {leaves leaves' : Leaves}, buildLeaves slices leaves = .ok leaves' →
      ∀ b ∈ leaves.blocks, b ∈ leaves'.blocks := by
  induction slices with
  | nil =>
    intro leaves leaves' h b hb
    cases h
    exact hb
  | cons chunk rest ih =>
    intro leaves leaves' h b hb
    obtain ⟨block, _, h⟩ := bind_eq_ok.mp h
    exact ih h b (List.mem_append_left _ hb)

/-- The leaf loop: the links it adds are leaves that spell the slices. -/
theorem buildLeaves_spans {all : List Block} (slices : List (List UInt8)) :
    ∀ {leaves leaves' : Leaves} {bytes : List UInt8},
      buildLeaves slices leaves = .ok leaves' → (∀ b ∈ leaves'.blocks, b ∈ all) →
      Spans all 0 leaves.links bytes → Spans all 0 leaves'.links (bytes ++ slices.flatten) := by
  induction slices with
  | nil =>
    intro leaves leaves' bytes h _ hspans
    cases h
    simpa using hspans
  | cons chunk rest ih =>
    intro leaves leaves' bytes h hall hspans
    obtain ⟨block, hblock, h⟩ := bind_eq_ok.mp h
    obtain ⟨_, rfl⟩ := Block.new_eq_ok.mp hblock
    have hkept := buildLeaves_blocks rest h
    have hmem := hall _ (hkept _ (List.mem_append_right _ (List.mem_singleton_self _)))
    have hleaf : Spans all 0 [{ cid := cidOf codecRaw chunk, size := chunk.length }]
        (chunk ++ []) := .leaf hmem rfl rfl rfl (.nil 0)
    have h' := ih h hall (hspans.append hleaf)
    simpa using h'

/-- A node over a group is one link, one node further up. -/
theorem buildNode_spans {all : List Block} {d : Nat} {group : List DagLink} {link : DagLink}
    {block : Block} {bytes : List UInt8} (h : buildNode group = .ok (link, block))
    (hmem : block ∈ all) (hspans : Spans all d group bytes) (hlen : bytes.length < 2 ^ 64) :
    Spans all (d + 1) [link] bytes := by
  unfold buildNode at h
  obtain ⟨nodeBytes, hbytes, h⟩ := bind_eq_ok.mp h
  rw [toDagCbor_eq] at hbytes
  cases hbytes
  split at h
  · cases h
  · next hfits =>
    obtain ⟨b, hb, h⟩ := bind_eq_ok.mp h
    cases h
    obtain ⟨_, rfl⟩ := Block.build_eq_ok.mp hb
    have hwf : (groupIpld group).Wf Ipld.CborInt := by
      refine (groupIpld_shaped (fun l hl => ?_)).wf ?_
      · exact Nat.lt_of_le_of_lt (hspans.size_le hl) hlen
      · have hmax : maxBlockSize < 2 ^ 64 := by decide
        exact Nat.lt_of_le_of_lt (Nat.not_lt.mp hfits) hmax
    have hsize : (DagNode.intermediate group).totalSize = bytes.length := by
      show asU64 (group.map DagLink.size).sum = bytes.length
      rw [hspans.sum_size, asU64_of_lt hlen]
    rw [← List.append_nil bytes]
    exact .node hmem rfl rfl rfl hwf hsize hspans (.nil _)

/-- One level over the groups of the level below spells the same bytes. -/
theorem buildLevel_spans {all : List Block} {d : Nat} (groups : List (List DagLink)) :
    ∀ {links : List DagLink} {blocks : List Block} {bytes : List UInt8},
      buildLevel groups = .ok (links, blocks) → (∀ b ∈ blocks, b ∈ all) →
      Spans all d groups.flatten bytes → bytes.length < 2 ^ 64 → Spans all (d + 1) links bytes := by
  induction groups with
  | nil =>
    intro links blocks bytes h _ hspans _
    cases h
    cases hspans
    exact .nil _
  | cons group rest ih =>
    intro links blocks bytes h hall hspans hlen
    obtain ⟨⟨link, block⟩, hnode, h⟩ := bind_eq_ok.mp h
    obtain ⟨⟨links', blocks'⟩, hrest, h⟩ := bind_eq_ok.mp h
    cases h
    rw [List.flatten_cons] at hspans
    obtain ⟨b, b', rfl, hgroup, htail⟩ := hspans.split
    rw [List.length_append] at hlen
    have hhead := buildNode_spans hnode (hall _ List.mem_cons_self) hgroup (by omega)
    have htail' := ih hrest (fun b hb => hall b (List.mem_cons_of_mem _ hb)) htail (by omega)
    exact hhead.append htail'

/-- **The invariant of the level loop**: the current level spells the data. -/
def LevelInv (data : List UInt8) (s : List Block × List DagLink) : Prop :=
  ∃ d, Spans s.1 d s.2 data

/-- What one more round of the level loop does. -/
theorem levelBody_again {maxLinks : Nat} {s s' : List Block × List DagLink}
    (h : levelBody maxLinks s = .inl s') :
    s.2.length > 1 ∧ ∃ groups links blocks, chunks maxLinks s.2 = some groups ∧
      buildLevel groups = .ok (links, blocks) ∧ s' = (s.1 ++ blocks, links) := by
  unfold levelBody at h
  split at h
  · next hmore =>
    split at h
    · cases h
    · next groups hgroups =>
      split at h
      · cases h
      · next links blocks hlevel =>
        cases h
        exact ⟨hmore, groups, links, blocks, hgroups, hlevel, rfl⟩
  · split at h
    · cases h
    · cases h

theorem levelBody_spans {data : List UInt8} (hlen : data.length < 2 ^ 64) {maxLinks : Nat}
    (s s' : List Block × List DagLink) (hinv : LevelInv data s)
    (h : levelBody maxLinks s = .inl s') : LevelInv data s' := by
  obtain ⟨d, hspans⟩ := hinv
  obtain ⟨_, groups, links, blocks, hgroups, hlevel, rfl⟩ := levelBody_again h
  rw [← flatten_of_chunks hgroups] at hspans
  refine ⟨d + 1, buildLevel_spans groups hlevel ?_ (hspans.mono ?_) hlen⟩
  · intro b hb
    exact List.mem_append_right _ hb
  · intro b hb
    exact List.mem_append_left _ hb

/-- The level loop is left with a single link, the root. -/
theorem levelBody_root {maxLinks : Nat} {s : List Block × List DagLink} {cid : Cid}
    {blocks : List Block} (h : levelBody maxLinks s = .inr (some (.ok (cid, blocks)))) :
    ∃ link, s = (blocks, [link]) ∧ link.cid = cid := by
  obtain ⟨bs, links⟩ := s
  unfold levelBody at h
  split at h
  · split at h
    · cases h
    · split at h
      · cases h
      · cases h
  · next hle =>
    cases links with
    | nil => cases h
    | cons link rest =>
      have hrest : rest = [] := by
        simp only [List.length_cons] at hle
        exact List.length_eq_zero_iff.mp (by omega)
      subst hrest
      cases h
      exact ⟨link, rfl, rfl⟩

/-- **What `chunk` returns**: for a small file the raw block of the data, otherwise
what the level loop leaves over the leaves of the slices. -/
theorem chunk_cases {rounds : Nat} {config : ChunkingConfig} {data : List UInt8}
    {file : ChunkedFile} (h : chunk rounds config data = some (.ok file)) : data ≠ [] ∧
    ((data.length ≤ config.chunkSize ∧ ∃ block, Block.new data = .ok block ∧
        file.rootCid = block.cid ∧ file.blocks = [block] ∧ file.chunkCount = 1 ∧
        ∃ stats, file.dedupStats = some stats ∧ stats.uniqueChunks = 1 ∧ stats.reusedChunks = 0) ∨
      (¬ data.length ≤ config.chunkSize ∧ ∃ slices leaves,
        chunkSlices config data = some slices ∧ buildLeaves slices {} = .ok leaves ∧
        Loop.run (levelBody config.maxLinksPerNode) rounds (leaves.blocks, leaves.links)
          = some (some (.ok (file.rootCid, file.blocks))) ∧ file.chunkCount = slices.length ∧
        file.dedupStats = some (dedupStats data.length slices.length leaves.seenCids))) := by
  unfold chunk at h
  split at h
  · cases h
  · next hne =>
    refine ⟨by simpa using hne, ?_⟩
    split at h
    · next hsmall =>
      split at h
      · cases h
      · next block hblock =>
        cases h
        exact .inl ⟨hsmall, block, hblock, rfl, rfl, rfl, _, rfl, rfl, rfl⟩
    · next hbig =>
      split at h
      · cases h
      · next slices hslices =>
        split at h
        · cases h
        · next leaves hleaves =>
          split at h
          · cases h
          · cases h
          · next rootCid blocks hrun =>
            cases h
            exact .inr ⟨hbig, slices, leaves, hslices, hleaves,
              Option.join_eq_some_iff.mp hrun, rfl, rfl⟩

/-- **What a chunked file is**: its root spells the data through its blocks, at
some depth. -/
theorem chunk_spans {rounds : Nat} {config : ChunkingConfig} {data : List UInt8}
    {file : ChunkedFile} (hlen : data.length < 2 ^ 64)
    (h : chunk rounds config data = some (.ok file)) :
    ∃ d link, link.cid = file.rootCid ∧ Spans file.blocks d [link] data := by
  obtain ⟨hdata, hcase⟩ := chunk_cases h
  rcases hcase with ⟨_, block, hblock, hroot, hblocks, _⟩ |
      ⟨_, slices, leaves, hslices, hleaves, hrun, _⟩
  · obtain ⟨_, rfl⟩ := Block.new_eq_ok.mp hblock
    refine ⟨0, { cid := cidOf codecRaw data, size := data.length }, hroot.symm, ?_⟩
    have hleaf : Spans [{ cid := cidOf codecRaw data, data }] 0
        [{ cid := cidOf codecRaw data, size := data.length }] (data ++ []) :=
      .leaf List.mem_cons_self rfl rfl rfl (.nil 0)
    rw [hblocks]
    simpa using hleaf
  · have hstart : LevelInv data (leaves.blocks, leaves.links) := by
      have hspans := buildLeaves_spans slices hleaves (fun b hb => hb) (Spans.nil 0)
      rw [flatten_of_chunkSlices hslices hdata] at hspans
      exact ⟨0, hspans⟩
    obtain ⟨s, hinv, hleft⟩ := Loop.run_inv (levelBody_spans hlen) hstart hrun
    obtain ⟨link, rfl, hcid⟩ := levelBody_root hleft
    obtain ⟨d, hspans⟩ := hinv
    exact ⟨d, link, hcid, hspans⟩

end

end Ipfrs.Core
