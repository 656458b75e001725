/-
Ipfrs.Core.CarChunked — chunked files in archives.

The archive reader rebuilds every block with `Block::new`, so with the raw codec.
The chunker's interior nodes are DAG-CBOR blocks: their CID names another codec
and the reader refuses them. An archive of a chunked file is therefore readable
exactly when the file has no interior node, that is when it is one chunk.
-/
import Ipfrs.Core.CarTheorems
import Ipfrs.Core.Streaming

namespace Ipfrs.Core

open Ipfrs.Lib

/-- The chunker makes one leaf of the data and no node: a small file, or one that
its strategy cuts into a single slice. -/
def SingleChunk (config : ChunkingConfig) (data : List UInt8) : Prop :=
  data.length ≤ config.chunkSize ∨ (chunkSlices config data).map List.length = some 1

section

variable [CidCrate]

/-! ## The blocks of a chunked file -/

theorem blockSized_of_build {codec : UInt64} {data : List UInt8} {b : Block}
    (h : Block.build { codec } data = .ok b) : BlockSized b.data ∧ b.cid.codec = codec := by
  obtain ⟨hsize, rfl⟩ := Block.build_eq_ok.mp h
  exact ⟨hsize, rfl⟩

theorem buildLeaves_sized : ∀ (slices : List (List UInt8)) {leaves leaves' : Leaves},
    buildLeaves slices leaves = .ok leaves' → (∀ b ∈ leaves.blocks, BlockSized b.data) →
    (∀ b ∈ leaves'.blocks, BlockSized b.data) ∧
      leaves'.links.length = leaves.links.length + slices.length
  | [], leaves, leaves', h, hsized => by
    cases h
    exact ⟨hsized, by simp⟩
  | slice :: rest, leaves, leaves', h, hsized => by
    obtain ⟨block, hblock, h⟩ := bind_eq_ok.mp h
    have hall : ∀ b ∈ leaves.blocks ++ [block], BlockSized b.data := by
      intro b hb
      rcases List.mem_append.mp hb with hb | hb
      · exact hsized b hb
      · rw [List.mem_singleton.mp hb]
        exact (blockSized_of_build hblock).1
    obtain ⟨hsized', hlen⟩ := buildLeaves_sized rest h hall
    refine ⟨hsized', ?_⟩
    simp only [List.length_append, List.length_cons, List.length_nil] at hlen ⊢
    omega

theorem buildNode_block {group : List DagLink} {link : DagLink} {block : Block}
    (h : buildNode group = .ok (link, block)) :
    BlockSized block.data ∧ block.cid.codec = codecDagCbor := by
  unfold buildNode at h
  obtain ⟨nodeBytes, _, h⟩ := bind_eq_ok.mp h
  split at h
  · cases h
  · obtain ⟨b, hb, h⟩ := bind_eq_ok.mp h
    cases h
    exact blockSized_of_build hb

theorem buildLevel_blocks : ∀ (groups : List (List DagLink)) {links : List DagLink}
    {blocks : List Block}, buildLevel groups = .ok (links, blocks) →
    blocks.length = groups.length ∧
      ∀ b ∈ blocks, BlockSized b.data ∧ b.cid.codec = codecDagCbor
  | [], links, blocks, h => by
    cases h
    simp
  | group :: rest, links, blocks, h => by
    obtain ⟨⟨link, block⟩, hnode, h⟩ := bind_eq_ok.mp h
    obtain ⟨⟨links', blocks'⟩, hrest, h⟩ := bind_eq_ok.mp h
    cases h
    obtain ⟨hlen, hall⟩ := buildLevel_blocks rest hrest
    refine ⟨by simp [hlen], ?_⟩
    intro b hb
    rcases List.mem_cons.mp hb with rfl | hb
    · exact buildNode_block hnode
    · exact hall b hb

/-- **The invariant of the level loop** for a file of several chunks: a single link
is left only above a node. -/
structure Levels (s : List Block × List DagLink) : Prop where
  sized : ∀ b ∈ s.1, BlockSized b.data
  node : s.2.length > 1 ∨ ∃ b ∈ s.1, b.cid.codec = codecDagCbor

theorem levelBody_levels {maxLinks : Nat} (s s' : List Block × List DagLink) (hinv : Levels s)
    (h : levelBody maxLinks s = .inl s') : Levels s' := by
  obtain ⟨hmore, groups, links, blocks, hgroups, hlevel, rfl⟩ := levelBody_again h
  obtain ⟨hlen, hall⟩ := buildLevel_blocks groups hlevel
  have hne : groups ≠ [] := chunks_ne_nil (List.ne_nil_of_length_pos (by omega)) hgroups
  obtain ⟨b, hb⟩ := List.exists_mem_of_length_pos (hlen ▸ List.length_pos_of_ne_nil hne)
  refine ⟨?_, .inr ⟨b, List.mem_append_right _ hb, (hall b hb).2⟩⟩
  intro b hb
  rcases List.mem_append.mp hb with hb | hb
  · exact hinv.sized b hb
  · exact (hall b hb).1

/-- A level of one link is left at once. -/
theorem run_levelBody_single {maxLinks rounds : Nat} {blocks blocks' : List Block}
    {link : DagLink} {cid : Cid}
    (h : Loop.run (levelBody maxLinks) rounds (blocks, [link]) = some (some (.ok (cid, blocks')))) :
    cid = link.cid ∧ blocks' = blocks := by
  have hleave : levelBody maxLinks (blocks, [link]) = .inr (some (.ok (link.cid, blocks))) := by
    simp [levelBody]
  cases rounds with
  | zero => cases h
  | succ rounds =>
    rw [Loop.run_leave hleave] at h
    cases h
    exact ⟨rfl, rfl⟩

/-- **The blocks of a chunked file**: each has a block's size; a file of one chunk is
the raw block of its data, and any other has a node. -/
theorem chunk_blocks {rounds : Nat} {config : ChunkingConfig} {data : List UInt8}
    {file : ChunkedFile} (h : chunk rounds config data = some (.ok file)) :
    (∀ b ∈ file.blocks, BlockSized b.data) ∧ (SingleChunk config data →
      ∃ b, Block.new data = .ok b ∧ file.blocks = [b] ∧ file.rootCid = b.cid) ∧
    (¬ SingleChunk config data → ∃ b ∈ file.blocks, b.cid.codec = codecDagCbor) := by
  obtain ⟨hdata, hcase⟩ := chunk_cases h
  rcases hcase with ⟨hsmall, block, hblock, hroot, hblocks, _⟩ |
      ⟨hbig, slices, leaves, hslices, hleaves, hrun, _⟩
  · rw [hblocks]
    refine ⟨?_, fun _ => ⟨block, hblock, rfl, hroot⟩, fun hsingle => absurd (.inl hsmall) hsingle⟩
    intro b hb
    rw [List.mem_singleton.mp hb]
    exact (blockSized_of_build hblock).1
  · have hflat := flatten_of_chunkSlices hslices hdata
    obtain ⟨hsized, hlen⟩ := buildLeaves_sized slices hleaves (by simp)
    rw [List.length_nil, Nat.zero_add] at hlen
    by_cases hone : slices.length = 1
    · obtain ⟨slice, rfl⟩ := List.length_eq_one_iff.mp hone
      have hslice : slice = data := by simpa using hflat
      subst hslice
      obtain ⟨block, hblock, hleaves⟩ := bind_eq_ok.mp hleaves
      cases hleaves
      obtain ⟨hroot, hblocks⟩ := run_levelBody_single hrun
      rw [hblocks]
      refine ⟨hsized, fun _ => ⟨block, hblock, rfl, hroot⟩, ?_⟩
      intro hsingle
      exact absurd (.inr (by simp [hslices])) hsingle
    · have hmore : slices.length > 1 := by
        have hne : slices ≠ [] := by
          rintro rfl
          exact hdata hflat.symm
        have := List.length_pos_of_ne_nil hne
        omega
      have hstart : Levels (leaves.blocks, leaves.links) := ⟨hsized, .inl (hlen ▸ hmore)⟩
      obtain ⟨s, hinv, hleft⟩ := Loop.run_inv levelBody_levels hstart hrun
      obtain ⟨link, rfl, _⟩ := levelBody_root hleft
      refine ⟨hinv.sized, ?_, ?_⟩
      · rintro (hsmall | hcount)
        · exact absurd hsmall hbig
        · rw [hslices] at hcount
          exact absurd (Option.some.inj hcount) hone
      · intro _
        rcases hinv.node with hlink | hnode
        · simp at hlink
        · exact hnode

variable [CidStream]

/-! ## Reading the archive -/

theorem rebuild_codec {block b : Block} (h : rebuild block = .ok b) :
    block.cid.codec = codecRaw := by
  obtain ⟨hnew, hcid⟩ := rebuild_eq_ok.mp h
  rw [← hcid]
  exact (blockSized_of_build hnew).2

theorem mapM_rebuild_codec : ∀ {blocks bs : List Block}, blocks.mapM rebuild = .ok bs →
    ∀ b ∈ blocks, b.cid.codec = codecRaw
  | [], _, _, b, hb => by cases hb
  | block :: blocks, bs, h, b, hb => by
    rw [List.mapM_cons] at h
    obtain ⟨b', hb', h⟩ := bind_eq_ok.mp h
    obtain ⟨bs', hbs, _⟩ := bind_eq_ok.mp h
    rcases List.mem_cons.mp hb with rfl | hb
    · exact rebuild_codec hb'
    · exact mapM_rebuild_codec hbs b hb

end

/-- A head is at most nine bytes. -/
theorem length_cborHead_le (majorType : UInt8) (n : Nat) : (cborHead majorType n).length ≤ 9 := by
  unfold cborHead encodeCborLength
  repeat' split
  all_goals simp

theorem length_textBytes_le (s : String) : (textBytes s).length ≤ 9 + (utf8 s).length := by
  have h := length_cborHead_le 3 (asU64 (utf8 s).length)
  simp only [textBytes, List.length_append]
  omega

/-- The header of an archive with one root fits its length field. -/
theorem length_header_single [CidCrate] [CidCrate.Lawful] (root : Cid) {b : List UInt8}
    (h : (CarHeader.new [root]).encode = .ok b) : b.length < 2 ^ 64 := by
  rw [encode_new] at h
  cases h
  have hcid := CidCrate.Lawful.length_toBytes_lt root
  have hmap := length_cborHead_le 5 (asU64 2)
  have hlist := length_cborHead_le 4 (asU64 1)
  have htag := length_cborHead_le 6 cidTag
  have hbytes := length_cborHead_le 2 (asU64 (0x00 :: CidCrate.toBytes root).length)
  have hversion := length_cborHead_le 0 (asU64 (1 : Int).toNat)
  have hkey := length_textBytes_le "roots"
  have hkey' := length_textBytes_le "version"
  have hshort : (utf8 "roots").length = 5 ∧ (utf8 "version").length = 7 := by decide
  have hint : intHead 1 = cborHead 0 (asU64 (1 : Int).toNat) := rfl
  simp only [headerEntries, List.map_cons, List.map_nil, cborBytes, cborEntries, cborItems,
    List.length_append, List.length_cons, List.length_nil, Nat.reduceAdd, hint] at hbytes ⊢
  omega

/-- An archive of a chunked file that can be read at all is of a single chunk. -/
theorem singleChunk_of_readAllBlocks [CidCrate] [CidCrate.Lawful] [CidStream] [CidStream.Lawful]
    [CompressionCrates] [CompressionCrates.Lawful] {rounds : Nat} {config : ChunkingConfig}
    {data : List UInt8} {file : ChunkedFile} (hchunk : chunk rounds config data = some (.ok file))
    {compression : Option (CompressionAlgorithm × Int)} {w : CarWriter}
    (hw : writeCar [file.rootCid] compression file.blocks = .ok w) {r r' : CarReader}
    {blocks : List Block} (hnew : CarReader.new w.writer = .ok r)
    (hread : r.readAllBlocks = .ok (blocks, r')) : SingleChunk config data := by
  obtain ⟨hsized, _, hnode⟩ := chunk_blocks hchunk
  obtain ⟨r₁, hnew', _, hall⟩ := readAllBlocks_writeCar
    (fun _ h => length_header_single _ h) hsized hw
  rw [hnew] at hnew'
  cases hnew'
  rw [hall] at hread
  obtain ⟨bs, hbs, _⟩ := bind_eq_ok.mp hread
  by_contra hmore
  obtain ⟨b, hb, hcodec⟩ := hnode hmore
  have hraw := mapM_rebuild_codec hbs b hb
  rw [hcodec] at hraw
  exact absurd hraw (by decide)

/-- **Exactly which chunked files survive an archive.** Writing the file's blocks
succeeds at every accepted level, and the archive reads back as these blocks, from
which the data is read again, if and only if the file is a single chunk. -/
theorem readAllBlocks_chunk_iff [CidCrate] [CidCrate.Lawful] [CidStream] [CidStream.Lawful]
    [CompressionCrates] [CompressionCrates.Lawful] (rounds : Nat) (config : ChunkingConfig)
    (data : List UInt8) (file : ChunkedFile) (hchunk : chunk rounds config data = some (.ok file))
    (compression : Option (CompressionAlgorithm × Int)) :
    (LevelOk compression → ∃ w, writeCar [file.rootCid] compression file.blocks = .ok w) ∧
    ∀ w, writeCar [file.rootCid] compression file.blocks = .ok w →
      ((∃ r r', CarReader.new w.writer = .ok r ∧ r.readAllBlocks = .ok (file.blocks, r') ∧
          ∀ rounds', readChunkedFile rounds'
            (({} : MemoryBlockFetcher).addBlocks file.blocks).fetch file.rootCid
              = some (.ok data)) ↔ SingleChunk config data) := by
  obtain ⟨hsized, hsingle, _⟩ := chunk_blocks hchunk
  refine ⟨fun hlevel => writeCar_ok hlevel hsized, ?_⟩
  intro w hw
  constructor
  · intro h
    obtain ⟨r, r', hnew, hread, _⟩ := h
    exact singleChunk_of_readAllBlocks hchunk hw hnew hread
  · intro h
    obtain ⟨r, hnew, _, hall⟩ := readAllBlocks_writeCar
      (fun _ h => length_header_single _ h) hsized hw
    obtain ⟨b, hblock, hblocks, hroot⟩ := hsingle h
    obtain ⟨_, rfl⟩ := Block.new_eq_ok.mp hblock
    have hmap : file.blocks.mapM rebuild = .ok file.blocks := by
      refine mapM_rebuild ?_
      intro b' hb'
      rw [hblocks] at hb'
      rw [List.mem_singleton.mp hb']
      exact hblock
    rw [hmap, ok_bind] at hall
    refine ⟨r, _, hnew, hall, ?_⟩
    intro rounds'
    have hfetch : (({} : MemoryBlockFetcher).addBlocks file.blocks).fetch file.rootCid
        = .ok { cid := cidOf codecRaw data, data } := by
      rw [hblocks, hroot]
      simp [MemoryBlockFetcher.addBlocks, MemoryBlockFetcher.addBlock, MemoryBlockFetcher.fetch]
    simp [readChunkedFile, hfetch, cidOf, Cid.newV1]

/-- The data of the sample is a single chunk of 5 bytes, or three of 2. -/
def sampleWhole : ChunkingConfig := { chunkSize := 5 }

open scoped CidFormat StoredFrames in
theorem readAllBlocks_chunk_iff_sample :
    ∃ file w, chunk 1 sampleWhole [1, 2, 3, 4, 5] = some (.ok file) ∧
      writeCar [file.rootCid] none file.blocks = .ok w ∧
      ∃ r r', CarReader.new w.writer = .ok r ∧ r.readAllBlocks = .ok (file.blocks, r') := by
  have hok : (match chunk 1 sampleWhole [1, 2, 3, 4, 5] with
      | some (.ok _) => true
      | some (.error _) => false
      | none => false) = true := by decide
  split at hok
  · next file hfile =>
    have h := readAllBlocks_chunk_iff 1 sampleWhole [1, 2, 3, 4, 5] file hfile none
    obtain ⟨w, hw⟩ := h.1 trivial
    obtain ⟨r, r', hnew, hread, _⟩ := (h.2 w hw).mpr (.inl (by decide))
    exact ⟨file, w, hfile, hw, r, r', hnew, hread⟩
  · cases hok
  · cases hok

open scoped CidFormat StoredFrames in
/-- A file of three chunks and its archive: the reader refuses the first node. -/
theorem readAllBlocks_chunk_nodes :
    ¬ ∀ (rounds : Nat) (config : ChunkingConfig) (data : List UInt8) (file : ChunkedFile),
      chunk rounds config data = some (.ok file) →
      ∀ w, writeCar [file.rootCid] none file.blocks = .ok w →
        ∃ r r', CarReader.new w.writer = .ok r ∧ r.readAllBlocks = .ok (file.blocks, r') := by
  intro h
  obtain ⟨file, hfile, _⟩ := sampleFile_exists
  have hlevel : LevelOk none := trivial
  obtain ⟨w, hw⟩ : ∃ w, writeCar [file.rootCid] none file.blocks = .ok w :=
    writeCar_ok hlevel (chunk_blocks hfile).1
  obtain ⟨r, r', hnew, hread⟩ := h 3 sampleConfig _ file hfile w hw
  have hsingle := singleChunk_of_readAllBlocks hfile hw hnew hread
  unfold SingleChunk at hsingle
  exact absurd hsingle (by decide)

end Ipfrs.Core
