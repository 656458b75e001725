/-
Ipfrs.Core.ChunkTotality — for which data `Chunker::chunk` returns a file.

The configuration is checked for its chunk size only. The level loop comes to an end if a
node takes two links or more; every level is built if the encoding of each of its nodes
fits into a block. What a node takes depends on the sizes in its links alone, because a
CID of a block is 36 bytes long (`length_cborBytes_groupIpld`), so the sizes of the
chunks decide it for all levels (`NodesFit`). The chunks themselves fit unless they are
content-defined: those can be four times as long as the target.
-/
import Ipfrs.Core.Boundaries
import Ipfrs.Core.ParallelChunking

namespace Ipfrs.Core

open Ipfrs.Lib

/-! ## The length of a node -/

/-- The number of bytes of the head for a number. -/
def headLength (n : Nat) : Nat :=
  if n < 24 then 1 else if n < 256 then 2 else if n < 65536 then 3
  else if n < 4294967296 then 5 else 9

theorem length_cborHead (majorType : UInt8) (n : Nat) :
    (cborHead majorType n).length = headLength n := by
  unfold cborHead encodeCborLength headLength
  split
  · rfl
  · split
    · rfl
    · split
      · rfl
      · split
        · rfl
        · rfl

theorem headLength_le (n : Nat) : headLength n ≤ 9 := by
  unfold headLength
  split
  · decide
  · split
    · decide
    · split
      · decide
      · split
        · decide
        · decide

/-- The length of the encoding of a node, given the sizes in its links. -/
def nodeLength (sizes : List Nat) : Nat :=
  17 + headLength sizes.length + (sizes.map (fun size => 51 + headLength size)).sum
    + headLength sizes.sum

theorem nodeLength_le (sizes : List Nat) : nodeLength sizes ≤ 35 + 60 * sizes.length := by
  have hlen := headLength_le sizes.length
  have htotal := headLength_le sizes.sum
  have hsum : (sizes.map (fun size => 51 + headLength size)).sum ≤ 60 * sizes.length := by
    clear hlen htotal
    induction sizes with
    | nil => simp
    | cons size sizes ih =>
      have := headLength_le size
      simp only [List.map_cons, List.sum_cons, List.length_cons]
      omega
  unfold nodeLength
  omega

/-- A CID of a block in its binary form: three one-byte varints, a length byte and the
32 bytes of a SHA2-256 digest. -/
class CidCrate.BlockCids [CidCrate] : Prop where
  length_toBytes_cidOf : ∀ codec, codec = codecRaw ∨ codec = codecDagCbor →
    ∀ data, (CidCrate.toBytes (cidOf codec data)).length = 36

section

variable [CidCrate]

/-- A link as the chunker makes it: to a block, without a name. -/
def DagLink.Plain (link : DagLink) : Prop :=
  link.name = none ∧
    ∃ codec data, (codec = codecRaw ∨ codec = codecDagCbor) ∧ link.cid = cidOf codec data

theorem cborItems_eq_flatMap (items : List Ipld) : cborItems items = items.flatMap cborBytes := by
  induction items with
  | nil => rfl
  | cons item items ih => rw [cborItems, ih, List.flatMap_cons]

variable [CidCrate.BlockCids]

theorem DagLink.Plain.length_cborBytes {link : DagLink} (h : link.Plain)
    (hsize : link.size < 2 ^ 64) : (cborBytes link.toIpld).length = 51 + headLength link.size := by
  obtain ⟨hname, codec, data, hcodec, hcid⟩ := h
  have hlen := CidCrate.BlockCids.length_toBytes_cidOf codec hcodec data
  have hmap : link.toIpld = .map [("cid", .link link.cid), ("size", .integer link.size)] := by
    have hkeys : "cid" < "size" := by decide
    rw [DagLink.toIpld, hname]
    exact congrArg Ipld.map
      (SortedAssoc.ofEntries_of_sorted (by simpa [SortedAssoc.Sorted] using hkeys))
  have hint : intHead (link.size : Int) = cborHead 0 link.size := by
    rw [intHead, if_pos (by omega), Int.toNat_natCast, asU64_of_lt hsize]
  rw [hmap, cborBytes, cborEntries, cborEntries, cborEntries, cborBytes, cborBytes, hint, hcid]
  simp only [List.length_append, length_cborHead, textBytes, List.length_cons, List.length_nil,
    hlen]
  show headLength 2 + (headLength 3 + 3 + (headLength 42 + (headLength 37 + (36 + 1))
    + (headLength 4 + 4 + (headLength link.size + 0)))) = _
  have hheads : headLength 2 = 1 ∧ headLength 3 = 1 ∧ headLength 42 = 2 ∧ headLength 37 = 2 ∧
    headLength 4 = 1 := by decide
  omega

/-- **The length of a node** over plain links is a matter of their sizes. -/
theorem length_cborBytes_groupIpld {group : List DagLink} (h : ∀ link ∈ group, link.Plain)
    (hsum : (group.map DagLink.size).sum < 2 ^ 64) (hlen : group.length < 2 ^ 64) :
    (cborBytes (groupIpld group)).length = nodeLength (group.map DagLink.size) := by
  have hsize : ∀ link ∈ group, link.size < 2 ^ 64 := fun link hl =>
    (List.le_sum_of_mem (List.mem_map_of_mem hl)).trans_lt hsum
  have hmap : groupIpld group = .map [("links", .list (group.map DagLink.toIpld)),
      ("totalSize", .integer (group.map DagLink.size).sum)] := by
    have hkeys : "links" < "totalSize" := by decide
    rw [groupIpld, DagNode.toIpld, DagNode.intermediate, asU64_of_lt hsum]
    exact congrArg Ipld.map
      (SortedAssoc.ofEntries_of_sorted (by simpa [SortedAssoc.Sorted] using hkeys))
  have hint : intHead ((group.map DagLink.size).sum : Int)
      = cborHead 0 (group.map DagLink.size).sum := by
    rw [intHead, if_pos (by omega), Int.toNat_natCast, asU64_of_lt hsum]
  have hitems : (cborItems (group.map DagLink.toIpld)).length
      = ((group.map DagLink.size).map (fun size => 51 + headLength size)).sum := by
    rw [cborItems_eq_flatMap, List.length_flatMap, List.map_map, List.map_map]
    refine congrArg List.sum (List.map_congr_left (fun link hl => ?_))
    exact (h link hl).length_cborBytes (hsize link hl)
  rw [hmap, cborBytes, cborEntries, cborEntries, cborEntries, cborBytes, cborBytes, hint]
  simp only [List.length_append, length_cborHead, textBytes, List.length_map, List.length_nil,
    hitems, asU64_of_lt hlen]
  show headLength 2 + (headLength 5 + 5 + (headLength group.length + _
    + (headLength 9 + 9 + (headLength _ + 0)))) = _
  have hheads : headLength 2 = 1 ∧ headLength 5 = 1 ∧ headLength 9 = 1 := by decide
  simp only [nodeLength, List.length_map]
  omega

end

/-! ## The sizes of the levels -/

/-- The sizes of the level above. -/
def levelAbove (width : Nat) (sizes : List Nat) : List Nat :=
  (chunksOf width sizes.length sizes).map List.sum

/-- The nodes over each level that needs any fit into blocks. -/
def NodesFit (width : Nat) (sizes : List Nat) : Prop :=
  ∀ level, 1 < ((levelAbove width)^[level] sizes).length →
    ∀ group ∈ chunksOf width ((levelAbove width)^[level] sizes).length
        ((levelAbove width)^[level] sizes),
      nodeLength group ≤ maxBlockSize

theorem nodesFit_iff (width : Nat) {sizes : List Nat} (h : 1 < sizes.length) :
    NodesFit width sizes ↔
      (∀ group ∈ chunksOf width sizes.length sizes, nodeLength group ≤ maxBlockSize) ∧
        NodesFit width (levelAbove width sizes) := by
  constructor
  · intro hfit
    exact ⟨hfit 0 h, fun level => hfit (level + 1)⟩
  · intro hfit level hmany
    cases level with
    | zero => exact hfit.1
    | succ level => exact hfit.2 level hmany

theorem nodesFit_of_length_le_one (width : Nat) {sizes : List Nat} (h : sizes.length ≤ 1) :
    NodesFit width sizes := by
  have hle : ∀ level, ((levelAbove width)^[level] sizes).length ≤ 1 := by
    intro level
    induction level with
    | zero => exact h
    | succ level ih =>
      rw [Function.iterate_succ_apply', levelAbove, List.length_map]
      exact (length_chunksOf_le_fuel _ _ _).trans ih
  intro level hmany
  exact absurd (hle level) (by omega)

/-- Nodes of that many links always fit. -/
theorem nodesFit_of_le {width : Nat} (hpos : 0 < width) (hwidth : width ≤ 34951)
    (sizes : List Nat) : NodesFit width sizes := by
  intro level _ group hgroup
  have hlen := (length_of_mem_chunksOf hpos _ _ group hgroup).2
  have hle := nodeLength_le group
  unfold maxBlockSize
  omega

theorem sum_levelAbove {width : Nat} (hpos : 0 < width) (sizes : List Nat) :
    (levelAbove width sizes).sum = sizes.sum := by
  rw [levelAbove, ← List.sum_flatten, flatten_chunksOf hpos _ _ (Nat.le_refl _)]

/-! ## Building -/

section

variable [CidCrate]

/-- A raw block is built from one byte up to the maximal size. -/
theorem Block.exists_new {data : List UInt8} :
    (∃ block, Block.new data = .ok block) ↔ 1 ≤ data.length ∧ data.length ≤ maxBlockSize := by
  constructor
  · exact fun ⟨_, h⟩ => (Block.new_eq_ok.mp h).1
  · exact fun h => ⟨_, Block.new_eq_ok.mpr ⟨h, rfl⟩⟩

theorem buildLeaves_exists : ∀ (slices : List (List UInt8)) (leaves : Leaves),
    (∃ leaves', buildLeaves slices leaves = .ok leaves') ↔
      ∀ slice ∈ slices, 1 ≤ slice.length ∧ slice.length ≤ maxBlockSize
  | [], leaves => by simp [buildLeaves]
  | slice :: slices, leaves => by
    rw [List.forall_mem_cons, ← Block.exists_new]
    constructor
    · intro h
      obtain ⟨leaves', h⟩ := h
      obtain ⟨block, hblock, h⟩ := bind_eq_ok.mp h
      exact ⟨⟨block, hblock⟩, (buildLeaves_exists slices _).mp ⟨_, h⟩⟩
    · intro h
      obtain ⟨⟨block, hblock⟩, h⟩ := h
      obtain ⟨leaves', h⟩ := (buildLeaves_exists slices
        { blocks := leaves.blocks ++ [block]
          links := leaves.links ++ [{ cid := block.cid, size := slice.length }]
          seenCids := orInsert block.cid slice.length leaves.seenCids }).mpr h
      exact ⟨leaves', bind_eq_ok.mpr ⟨block, hblock, h⟩⟩

theorem links_of_buildLeaves : ∀ (slices : List (List UInt8)) {leaves leaves' : Leaves},
    buildLeaves slices leaves = .ok leaves' →
    leaves'.links = leaves.links ++
      slices.map (fun slice => { cid := cidOf codecRaw slice, size := slice.length })
  | [], leaves, leaves', h => by
    cases h
    simp
  | slice :: slices, leaves, leaves', h => by
    obtain ⟨block, hblock, h⟩ := bind_eq_ok.mp h
    obtain ⟨_, rfl⟩ := Block.new_eq_ok.mp hblock
    simp [links_of_buildLeaves slices h]

variable {width : Nat} {links : List DagLink}

/-- The level loop with more than one link builds a level. -/
theorem levelBody_many (hpos : 0 < width) (blocks : List Block) (h : 1 < links.length) :
    (∀ e, buildLevel (chunksOf width links.length links) = .error e →
      levelBody width (blocks, links) = .inr (some (.error e))) ∧
    ∀ links' blocks', buildLevel (chunksOf width links.length links) = .ok (links', blocks') →
      levelBody width (blocks, links) = .inl (blocks ++ blocks', links') := by
  have hchunks : chunks width links = some (chunksOf width links.length links) :=
    if_neg (Nat.pos_iff_ne_zero.mp hpos)
  constructor
  · intro e hlevel
    simp only [levelBody, if_pos h, hchunks, hlevel]
  · intro links' blocks' hlevel
    simp only [levelBody, if_pos h, hchunks, hlevel]

/-- Nodes of fewer than two links never get the level loop to one link. -/
theorem levelBody_narrow (hnarrow : width < 2) {blocks : List Block} (h : 1 < links.length)
    (r : Cid × List Block) : ¬ Loop.Leaves (levelBody width) (blocks, links) (some (.ok r)) := by
  intro hleaves
  obtain ⟨rounds, hrun⟩ := hleaves
  have hkeeps : ∀ s s' : List Block × List DagLink, 1 < s.2.length →
      levelBody width s = .inl s' → 1 < s'.2.length := by
    intro s s' hs hb
    obtain ⟨_, groups, links', blocks', hgroups, hlevel, rfl⟩ := levelBody_again hb
    rw [length_of_buildLevel hlevel]
    unfold chunks at hgroups
    split at hgroups
    · cases hgroups
    · cases hgroups
      have hone : width = 1 := by omega
      rwa [hone, length_chunksOf_one _ _ (Nat.le_refl _)]
  obtain ⟨s, hs, hleft⟩ := Loop.run_inv hkeeps h hrun
  obtain ⟨link, rfl, _⟩ := levelBody_root hleft
  simp at hs

/-- What is known of the links of a level. -/
structure Level (links : List DagLink) : Prop where
  plain : ∀ link ∈ links, link.Plain
  sum_lt : (links.map DagLink.size).sum < 2 ^ 64
  length_lt : links.length < 2 ^ 64

theorem Level.group {group : List DagLink} (h : Level links) {groups : List (List DagLink)}
    (hgroups : groups.flatten = links) (hmem : group ∈ groups) : Level group := by
  have hsub : group.Sublist links := hgroups ▸ List.sublist_flatten_of_mem hmem
  exact ⟨fun link hl => h.plain link (hsub.subset hl),
    (hsub.map DagLink.size).sum_le_sum (fun _ _ => Nat.zero_le _) |>.trans_lt h.sum_lt,
    hsub.length_le.trans_lt h.length_lt⟩

theorem buildNode_ok {group : List DagLink} (h : Level group) {link : DagLink} {block : Block}
    (hok : buildNode group = .ok (link, block)) :
    link.Plain ∧ link.size = (group.map DagLink.size).sum := by
  unfold buildNode at hok
  obtain ⟨nodeBytes, hbytes, hok⟩ := bind_eq_ok.mp hok
  split at hok
  · cases hok
  · obtain ⟨b, hb, hok⟩ := bind_eq_ok.mp hok
    obtain ⟨_, rfl⟩ := Block.build_eq_ok.mp hb
    cases hok
    exact ⟨⟨rfl, codecDagCbor, nodeBytes, .inr rfl, rfl⟩, asU64_of_lt h.sum_lt⟩

variable [CidCrate.BlockCids]

theorem buildNode_exists {group : List DagLink} (h : Level group) :
    (∃ r, buildNode group = .ok r) ↔ nodeLength (group.map DagLink.size) ≤ maxBlockSize := by
  have hlen := length_cborBytes_groupIpld h.plain h.sum_lt h.length_lt
  have hne := List.length_pos_of_ne_nil (cborBytes_ne_nil (groupIpld group))
  have hbytes : (DagNode.intermediate group).toIpld.toDagCbor = .ok (cborBytes (groupIpld group)) :=
    toDagCbor_eq _
  unfold buildNode
  dsimp only
  rw [hbytes, ok_bind, hlen]
  split
  · next hbig =>
    constructor
    · exact fun ⟨_, h⟩ => by cases h
    · intro hle
      omega
  · next hfits =>
    refine ⟨fun _ => not_lt.mp hfits, fun _ => ?_⟩
    have hblock : Block.build { codec := codecDagCbor } (cborBytes (groupIpld group))
        = .ok { cid := cidOf codecDagCbor (cborBytes (groupIpld group))
                data := cborBytes (groupIpld group) } :=
      Block.build_eq_ok.mpr ⟨⟨hne, hlen ▸ not_lt.mp hfits⟩, rfl⟩
    rw [hblock, ok_bind]
    exact ⟨_, rfl⟩

/-- A level is built if all its nodes fit. -/
theorem buildLevel_exists : ∀ {groups : List (List DagLink)}, (∀ group ∈ groups, Level group) →
    ((∃ r, buildLevel groups = .ok r) ↔
      ∀ group ∈ groups, nodeLength (group.map DagLink.size) ≤ maxBlockSize)
  | [], _ => by simp [buildLevel]
  | group :: groups, h => by
    obtain ⟨hgroup, hgroups⟩ := List.forall_mem_cons.mp h
    rw [List.forall_mem_cons, ← buildNode_exists hgroup, ← buildLevel_exists hgroups]
    constructor
    · intro h
      obtain ⟨r, h⟩ := h
      obtain ⟨node, hnode, h⟩ := bind_eq_ok.mp h
      obtain ⟨rest, hrest, _⟩ := bind_eq_ok.mp h
      exact ⟨⟨node, hnode⟩, rest, hrest⟩
    · intro h
      obtain ⟨⟨node, hnode⟩, rest, hrest⟩ := h
      exact ⟨_, bind_eq_ok.mpr ⟨node, hnode, bind_eq_ok.mpr ⟨rest, hrest, rfl⟩⟩⟩

omit [CidCrate.BlockCids] in
/-- The links of a level that was built. -/
theorem buildLevel_ok : ∀ {groups : List (List DagLink)}, (∀ group ∈ groups, Level group) →
    ∀ {links : List DagLink} {blocks : List Block}, buildLevel groups = .ok (links, blocks) →
      (∀ link ∈ links, link.Plain) ∧
        links.map DagLink.size = groups.map (fun group => (group.map DagLink.size).sum)
  | [], _, links, blocks, h => by
    cases h
    simp
  | group :: groups, hlevel, links, blocks, h => by
    obtain ⟨hgroup, hgroups⟩ := List.forall_mem_cons.mp hlevel
    obtain ⟨⟨link, block⟩, hnode, h⟩ := bind_eq_ok.mp h
    obtain ⟨⟨links', blocks'⟩, hrest, h⟩ := bind_eq_ok.mp h
    cases h
    obtain ⟨hplain, hsize⟩ := buildNode_ok hgroup hnode
    obtain ⟨hplain', hsize'⟩ := buildLevel_ok hgroups hrest
    exact ⟨List.forall_mem_cons.mpr ⟨hplain, hplain'⟩, by simp [hsize, hsize']⟩

omit [CidCrate.BlockCids] in
/-- A level that was built is a level with the sizes of the level above, and shorter. -/
theorem buildLevel_level (hwide : 2 ≤ width) (hmany : 1 < links.length) (h : Level links)
    {links' : List DagLink} {blocks : List Block}
    (hbuild : buildLevel (chunksOf width links.length links) = .ok (links', blocks)) :
    Level links' ∧ links'.map DagLink.size = levelAbove width (links.map DagLink.size) ∧
      links' ≠ [] ∧ links'.length < links.length := by
  have hchunks : chunks width links = some (chunksOf width links.length links) :=
    if_neg (by omega)
  have hgroups := flatten_of_chunks hchunks
  obtain ⟨hplain, hsize⟩ := buildLevel_ok (fun group hg => h.group hgroups hg) hbuild
  have habove : links'.map DagLink.size = levelAbove width (links.map DagLink.size) := by
    rw [hsize, levelAbove, List.length_map, chunksOf_map, List.map_map]
    rfl
  have hlen := length_of_buildLevel hbuild
  have hlt := length_lt_of_chunks hwide hmany hchunks
  have hpos := List.length_pos_of_ne_nil
    (chunks_ne_nil (List.ne_nil_of_length_pos (by omega)) hchunks)
  refine ⟨⟨hplain, ?_, ?_⟩, habove, List.ne_nil_of_length_pos (hlen ▸ hpos), hlen ▸ hlt⟩
  · rw [habove, sum_levelAbove (by omega)]
    exact h.sum_lt
  · have := h.length_lt
    omega

/-- A level is built if the groups of its sizes fit. -/
theorem Level.build_exists (hwide : 2 ≤ width) (h : Level links) :
    (∃ r, buildLevel (chunksOf width links.length links) = .ok r) ↔
      ∀ group ∈ chunksOf width (links.map DagLink.size).length (links.map DagLink.size),
        nodeLength group ≤ maxBlockSize := by
  have hgroups := flatten_chunksOf (by omega : 0 < width) links.length links (Nat.le_refl _)
  rw [buildLevel_exists (fun group hg => h.group hgroups hg), List.length_map, chunksOf_map]
  simp

/-- **When the level loop returns**: at once with one link, and otherwise if nodes take at
least two links and fit on every level. -/
theorem levelLoop_returns_iff : ∀ (n : Nat) (blocks : List Block)
    {links : List DagLink}, links.length = n → links ≠ [] → Level links →
    ((∃ r, Loop.Leaves (levelBody width) (blocks, links) (some (.ok r))) ↔
      links.length = 1 ∨ 2 ≤ width ∧ NodesFit width (links.map DagLink.size)) := by
  intro n
  induction n using Nat.strong_induction_on with
  | _ n ih =>
    intro blocks links hn hne hlevel
    have hpos := List.length_pos_of_ne_nil hne
    by_cases hone : links.length = 1
    · obtain ⟨link, rfl⟩ := List.length_eq_one_iff.mp hone
      exact iff_of_true ⟨(link.cid, blocks), Loop.Leaves.leave rfl⟩ (.inl rfl)
    · have hmany : 1 < links.length := by omega
      rw [or_iff_right hone]
      by_cases hnarrow : width < 2
      · exact iff_of_false (fun ⟨r, h⟩ => levelBody_narrow hnarrow hmany r h) (by omega)
      · have hwide : 2 ≤ width := by omega
        obtain ⟨herror, hagain⟩ := levelBody_many (by omega : 0 < width) blocks hmany
        rw [nodesFit_iff width (by simpa using hmany), ← hlevel.build_exists hwide]
        cases hbuild : buildLevel (chunksOf width links.length links) with
        | error e => simp [Loop.leaves_iff_of_leave (herror e hbuild)]
        | ok built =>
          obtain ⟨links', blocks'⟩ := built
          obtain ⟨hlevel', habove, hne', hlt⟩ := buildLevel_level hwide hmany hlevel hbuild
          have hrec := ih links'.length (hn ▸ hlt) (blocks ++ blocks') rfl hne' hlevel'
          simp only [Loop.leaves_iff_of_again (hagain links' blocks' hbuild)]
          rw [hrec, habove]
          constructor
          · intro h
            refine ⟨hwide, ⟨_, rfl⟩, ?_⟩
            rcases h with hroot | h
            · refine nodesFit_of_length_le_one width ?_
              rw [← habove, List.length_map, hroot]
            · exact h.2
          · exact fun h => .inr ⟨hwide, h.2.2⟩

end

/-! ## The chunker -/

/-- The chunks fit into blocks, and there is one of them, or nodes take two links or more
and those over each level fit into blocks. -/
def Chunkable (config : ChunkingConfig) (data : List UInt8) : Prop :=
  data.length ≤ config.chunkSize ∨
    ∃ slices, chunkSlices config data = some slices ∧
      (∀ slice ∈ slices, slice.length ≤ maxBlockSize) ∧
      (slices.length = 1 ∨ 2 ≤ config.maxLinksPerNode ∧
        NodesFit config.maxLinksPerNode (slices.map List.length))

/-- The chunks of a checked configuration are not empty, and no longer than the chunk
size if they are of fixed size. -/
theorem chunkSlices_exists {config : ChunkingConfig} (hmin : minChunkSize ≤ config.chunkSize)
    (hmax : config.chunkSize ≤ maxChunkSize) {data : List UInt8} (hdata : data ≠ []) :
    ∃ slices, chunkSlices config data = some slices ∧ (∀ slice ∈ slices, 1 ≤ slice.length) ∧
      (config.strategy = .fixedSize → ∀ slice ∈ slices, slice.length ≤ config.chunkSize) := by
  have hpos : 0 < config.chunkSize := Nat.lt_of_lt_of_le (by decide) hmin
  unfold chunkSlices
  cases hstrategy : config.strategy with
  | fixedSize =>
    refine ⟨chunksOf config.chunkSize data.length data, if_neg (by omega), ?_, fun _ => ?_⟩
    · exact fun slice hs => (length_of_mem_chunksOf hpos _ _ slice hs).1
    · exact fun slice hs => (length_of_mem_chunksOf hpos _ _ slice hs).2
  | contentDefined =>
    have hbounds : minChunkSize = 1024 ∧ maxChunkSize = 1048576 := by decide
    have hparts : (RabinChunker.new config.chunkSize).Partitions data
        ((RabinChunker.new config.chunkSize).findBoundaries data) := by
      refine RabinChunker.findBoundaries_partitions ?_ ?_ hdata
      · show 1 ≤ config.chunkSize / 4
        omega
      · show config.chunkSize / 4 ≤ config.chunkSize * 4 % 2 ^ 64
        rw [Nat.mod_eq_of_lt (by omega)]
        omega
    have hlen := hparts.pos (by show 1 ≤ config.chunkSize / 4; omega)
    obtain ⟨slices, hcut, hslices⟩ :=
      cut_of_increasing (pairwise_of_pieceLengths hlen) hparts.le_length
    refine ⟨slices, hcut, fun slice hs => hlen _ ?_, fun h => by cases h⟩
    rw [← hslices]
    exact List.mem_map_of_mem hs

/-- What the builder accepts is within the bounds. -/
theorem ChunkingConfig.Builder.bounds_of_build {b : ChunkingConfig.Builder}
    {config : ChunkingConfig} (h : b.build = .ok config) :
    minChunkSize ≤ config.chunkSize ∧ config.chunkSize ≤ maxChunkSize := by
  obtain ⟨_, hsize, h⟩ := bind_eq_ok.mp h
  cases h
  unfold checkSize at hsize
  split at hsize
  · cases hsize
  · split at hsize
    · cases hsize
    · exact ⟨not_lt.mp ‹_›, not_lt.mp ‹_›⟩

/-- Fixed-size chunks under nodes of a width that always fits. -/
theorem chunkable_of_fixedSize {config : ChunkingConfig} (hmin : minChunkSize ≤ config.chunkSize)
    (hmax : config.chunkSize ≤ maxChunkSize) (hstrategy : config.strategy = .fixedSize)
    (hwide : 2 ≤ config.maxLinksPerNode) (hwidth : config.maxLinksPerNode ≤ 34951)
    {data : List UInt8} (hdata : data ≠ []) : Chunkable config data := by
  obtain ⟨slices, hslices, _, hle⟩ := chunkSlices_exists hmin hmax hdata
  have hbounds : maxChunkSize ≤ maxBlockSize := by decide
  refine .inr ⟨slices, hslices, fun slice hs => ?_, .inr ⟨hwide, ?_⟩⟩
  · have := hle hstrategy slice hs
    omega
  · exact nodesFit_of_le (by omega) hwidth _

section

variable [CidCrate]

/-- The leaf loop returns if the chunks fit, and its links are a level with their sizes. -/
theorem buildLeaves_level {data : List UInt8} (hlt : data.length < 2 ^ 64)
    {slices : List (List UInt8)} (hflat : slices.flatten = data)
    (hdata : data ≠ []) (hpos : ∀ slice ∈ slices, 1 ≤ slice.length) {leaves : Leaves}
    (h : buildLeaves slices {} = .ok leaves) :
    Level leaves.links ∧ leaves.links ≠ [] ∧ leaves.links.length = slices.length ∧
      leaves.links.map DagLink.size = slices.map List.length := by
  have hlinks := links_of_buildLeaves slices h
  rw [show ({} : Leaves).links = [] from rfl, List.nil_append] at hlinks
  have hsize : leaves.links.map DagLink.size = slices.map List.length := by
    rw [hlinks, List.map_map]
    rfl
  have hsum : (slices.map List.length).sum = data.length := by
    rw [← hflat, List.length_flatten]
  have hcount : leaves.links.length = slices.length := by rw [hlinks, List.length_map]
  have hne : slices ≠ [] := by
    intro hnil
    rw [hnil] at hflat
    exact hdata hflat.symm
  refine ⟨⟨?_, by rw [hsize, hsum]; exact hlt, ?_⟩, List.ne_nil_of_length_pos
    (hcount ▸ List.length_pos_of_ne_nil hne), hcount, hsize⟩
  · rw [hlinks]
    intro link hl
    obtain ⟨slice, _, rfl⟩ := List.mem_map.mp hl
    exact ⟨rfl, codecRaw, slice, .inl rfl, rfl⟩
  · have hle : slices.length ≤ (slices.map List.length).sum := by
      simpa using List.length_le_sum_of_one_le (slices.map List.length) (by simpa using hpos)
    omega

variable [CidCrate.BlockCids]

/-- **When `chunk` returns a file** for a configuration within the bounds. -/
theorem chunk_returns_iff {config : ChunkingConfig} (hmin : minChunkSize ≤ config.chunkSize)
    (hmax : config.chunkSize ≤ maxChunkSize) {data : List UInt8} (hdata : data ≠ [])
    (hlt : data.length < 2 ^ 64) :
    (∃ rounds file, chunk rounds config data = some (.ok file)) ↔ Chunkable config data := by
  have hlen := List.length_pos_of_ne_nil hdata
  have hbounds : maxChunkSize ≤ maxBlockSize := by decide
  by_cases hsmall : data.length ≤ config.chunkSize
  · obtain ⟨block, hblock⟩ := Block.exists_new.mpr ⟨hlen, by omega⟩
    refine iff_of_true ⟨0, ?_⟩ (.inl hsmall)
    simp [chunk, hdata, hsmall, hblock]
  · rw [Chunkable, or_iff_right hsmall]
    obtain ⟨slices, hslices, hpos, _⟩ := chunkSlices_exists hmin hmax hdata
    have hflat := flatten_of_chunkSlices hslices hdata
    have hleaves := buildLeaves_exists slices {}
    constructor
    · intro h
      obtain ⟨rounds, file, hfile⟩ := h
      obtain ⟨_, ⟨hle, _⟩ | ⟨_, slices', leaves, hslices', hbuild, hrun, _⟩⟩ := chunk_cases hfile
      · exact absurd hle hsmall
      · cases hslices.symm.trans hslices'
        obtain ⟨hlevel, hne, hcount, hsize⟩ := buildLeaves_level hlt hflat hdata hpos hbuild
        have hloop := (levelLoop_returns_iff _ _ rfl hne hlevel).mp ⟨_, rounds, hrun⟩
        rw [hsize, hcount] at hloop
        exact ⟨slices, hslices, fun slice hs => (hleaves.mp ⟨leaves, hbuild⟩ slice hs).2, hloop⟩
    · intro h
      obtain ⟨slices', hslices', hfit, hnodes⟩ := h
      cases hslices.symm.trans hslices'
      obtain ⟨leaves, hbuild⟩ := hleaves.mpr (fun slice hs => ⟨hpos slice hs, hfit slice hs⟩)
      obtain ⟨hlevel, hne, hcount, hsize⟩ := buildLeaves_level hlt hflat hdata hpos hbuild
      rw [← hsize, ← hcount] at hnodes
      obtain ⟨⟨cid, blocks⟩, rounds, hrun⟩ := (levelLoop_returns_iff _ leaves.blocks
        rfl hne hlevel).mpr hnodes
      refine ⟨rounds, ?_⟩
      simp [chunk, hdata, hsmall, hslices, hbuild, hrun]

/-- **Chunking succeeds** on a configuration that the builder accepts exactly for the
chunkable data. -/
theorem chunk_succeeds_iff (b : ChunkingConfig.Builder) (config : ChunkingConfig)
    (hbuild : b.build = .ok config) (data : List UInt8) (hdata : data ≠ [])
    (hlt : data.length < 2 ^ 64) :
    (∃ rounds file, chunk rounds config data = some (.ok file)) ↔ Chunkable config data := by
  obtain ⟨hmin, hmax⟩ := ChunkingConfig.Builder.bounds_of_build hbuild
  exact chunk_returns_iff hmin hmax hdata hlt

end

section Sample

open scoped CidFormat

instance blockCids : CidCrate.BlockCids where
  length_toBytes_cidOf := by
    intro codec hcodec data
    have hdigest : (CidCrate.digest .sha256 data).digest.length = 32 := Sha256.length_hash data
    have hcode : (CidCrate.digest .sha256 data).code = 0x12 := rfl
    show (CidFormat.toBytes (Cid.newV1 codec _)).length = 36
    rcases hcodec with rfl | rfl
    · simp only [CidFormat.toBytes, Cid.newV1, List.length_append, hdigest, hcode]
      decide
    · simp only [CidFormat.toBytes, Cid.newV1, List.length_append, hdigest, hcode]
      decide

/-- One byte more than the default chunk size. -/
def pastOneChunk : List UInt8 := List.replicate 262145 0

theorem length_pastOneChunk : pastOneChunk.length = 262145 := List.length_replicate

theorem pastOneChunk_ne_nil : pastOneChunk ≠ [] :=
  List.ne_nil_of_length_pos (by rw [length_pastOneChunk]; decide)

/-- With the defaults they are two chunks under one node. -/
theorem chunk_succeeds_iff_pastOneChunk :
    ∃ rounds file, chunk rounds {} pastOneChunk = some (.ok file) := by
  refine (chunk_succeeds_iff {} {} rfl _ pastOneChunk_ne_nil
    (by rw [length_pastOneChunk]; decide)).mpr ?_
  exact chunkable_of_fixedSize (by decide) (by decide) rfl (by decide) (by decide)
    pastOneChunk_ne_nil

/-- With one link per node the level over two chunks has two links again, and so on. -/
theorem chunk_never_returns :
    ¬ ∀ (b : ChunkingConfig.Builder) (config : ChunkingConfig), b.build = .ok config →
      ∀ data : List UInt8, data ≠ [] → data.length < 2 ^ 64 →
        ∃ rounds file, chunk rounds config data = some (.ok file) := by
  intro h
  have hlt : pastOneChunk.length < 2 ^ 64 := by rw [length_pastOneChunk]; decide
  have hreturns := h { maxLinksPerNode := some 1 } { maxLinksPerNode := 1 } rfl _
    pastOneChunk_ne_nil hlt
  rcases (chunk_returns_iff (by decide) (by decide) pastOneChunk_ne_nil hlt).mp hreturns with
    hsmall | ⟨slices, hslices, _, hone | ⟨hwide, _⟩⟩
  · rw [length_pastOneChunk] at hsmall
    revert hsmall
    decide
  · -- a single slice would be all of the data, and too long
    obtain ⟨slices', hslices', _, hle⟩ := chunkSlices_exists
      (show minChunkSize ≤ ({ maxLinksPerNode := 1 } : ChunkingConfig).chunkSize by decide)
      (by decide) pastOneChunk_ne_nil
    cases hslices.symm.trans hslices'
    obtain ⟨slice, rfl⟩ := List.length_eq_one_iff.mp hone
    have hflat := flatten_of_chunkSlices hslices pastOneChunk_ne_nil
    have hslice := hle rfl slice (List.mem_singleton_self _)
    rw [List.flatten_cons, List.flatten_nil, List.append_nil] at hflat
    rw [hflat, length_pastOneChunk] at hslice
    revert hslice
    decide
  · revert hwide
    decide

end Sample

end Ipfrs.Core
