/-
Ipfrs.Core.ParallelChunking — chunking with worker threads (`parallel_chunking.rs`),
against the chunker of `chunking.rs`.

The parallel chunker computes the chunk ranges first, hashes the ranges, and links
the chunks level by level. Its nodes are not those of `Chunker::chunk`: a link
carries the name `chunk-i` and no size, and a node no total size. Its statistics
do not look for repeated chunks. What the two have in common is the cut of the
data, so the leaves, and with them the whole file when it is a single chunk.

The workers of one level are independent and their results are collected in
order, so a level is a map; which of several errors `collect` reports is the
scheduler's choice, here the first. Durations and metrics are left out.
-/
import Ipfrs.Core.ChunkingTheorems

namespace Ipfrs.Core

open Ipfrs.Lib

/-! ## The parallel chunker -/

/-- `ParallelChunkingConfig`, with its defaults. -/
structure ParallelChunkingConfig where
  chunkSize : Nat := defaultChunkSize
  strategy : ChunkingStrategy := .fixedSize
  maxLinksPerNode : Nat := Ipfrs.Core.maxLinksPerNode
  hashAlgorithm : HashAlgorithm := .sha256
  numThreads : Option Nat := none

/-- `ParallelChunkingConfig::with_chunk_size`: the upper bound is the block size. -/
def ParallelChunkingConfig.withChunkSize (chunkSize : Nat) :
    Except Error ParallelChunkingConfig :=
  if chunkSize < minChunkSize then
    .error (.invalidInput ("Chunk size " ++ toString chunkSize ++ " is below minimum "
      ++ toString minChunkSize))
  else if chunkSize > maxBlockSize then
    .error (.invalidInput ("Chunk size " ++ toString chunkSize ++ " exceeds maximum "
      ++ toString maxBlockSize))
  else .ok { chunkSize }

/-- `ParallelChunkingResult`. -/
structure ParallelChunkingResult where
  rootCid : Cid
  chunkCount : Nat
  totalBytes : Nat
  dedupStats : DeduplicationStats
  chunkCids : List Cid
  dagNodes : List DagNode

/-- One round of the range loop. The end of a slice is below `2 ^ 63`, so the sum
does not wrap. -/
def rangesBody (chunkSize dataLen : Nat) (s : Nat × List (Nat × Nat)) :
    (Nat × List (Nat × Nat)) ⊕ List (Nat × Nat) :=
  if s.1 < dataLen then
    let stop := min (s.1 + chunkSize) dataLen
    .inl (stop, s.2 ++ [(s.1, stop)])
  else .inr s.2

/-- `calculate_chunk_ranges`; a chunk size of zero never ends the loop. -/
def calculateChunkRanges (rounds chunkSize dataLen : Nat) : Option (List (Nat × Nat)) :=
  Loop.run (rangesBody chunkSize dataLen) rounds (0, [])

section

variable [CidCrate] [CidStream]

/-- The leaf of a range: its CID and length. -/
def chunkRange (data : List UInt8) (range : Nat × Nat) : Except Error (Cid × Nat) := do
  let block ← Block.new ((data.take range.2).drop range.1)
  .ok (block.cid, block.data.length)

/-- The leaf of a range in a worker, which reports an error as `InvalidData`. -/
def chunkRangeWorker (data : List UInt8) (range : Nat × Nat) : Except Error (Cid × Nat) :=
  (chunkRange data range).mapError (fun e => .invalidData e.display)

/-- The parent node of a group: no sizes are recorded. -/
def parentNode (group : List Cid) : DagNode :=
  { links := group.zipIdx.map (fun e =>
      { cid := e.1, size := 0, name := some ("chunk-" ++ toString e.2) })
    totalSize := 0 }

/-- The worker over one group of a level. -/
def buildParent (group : List Cid) : Except Error (Cid × DagNode) := do
  let node := parentNode group
  let cbor ← node.toIpld.toDagCbor.mapError (fun e => .serialization e.display)
  let block ← (Block.new cbor).mapError (fun e => .invalidData e.display)
  .ok (block.cid, node)

/-- `DagBuildResult`. -/
structure DagBuildResult where
  rootCid : Cid
  nodes : List DagNode

/-- One round of the level loop: the CIDs of the level and the nodes so far. -/
def parentsBody (maxLinks : Nat) (s : List Cid × List DagNode) :
    (List Cid × List DagNode) ⊕ Option (Except Error DagBuildResult) :=
  if s.1.length > 1 then
    match chunks maxLinks s.1 with
    | none => .inr none
    | some groups =>
      match groups.mapM buildParent with
      | .error e => .inr (some (.error e))
      | .ok parents => .inl (parents.map Prod.fst, s.2 ++ parents.map Prod.snd)
  else
    match s.1 with
    | [] => .inr none
    | rootCid :: _ => .inr (some (.ok { rootCid, nodes := s.2 }))

/-- `build_dag_parallel`. -/
def buildDagParallel (rounds maxLinks : Nat) (chunks : List (Cid × Nat)) :
    Option (Except Error DagBuildResult) :=
  match chunks with
  | [] => some (.error (.invalidInput "no chunks to build DAG from"))
  | [chunk] => some (.ok { rootCid := chunk.1, nodes := [] })
  | chunks => (Loop.run (parentsBody maxLinks) rounds (chunks.map Prod.fst, [])).join

/-- What both paths return over the leaves: every chunk is counted as unique. -/
def parallelResult (dataLen : Nat) (leaves : List (Cid × Nat)) (dag : DagBuildResult) :
    ParallelChunkingResult :=
  { rootCid := dag.rootCid
    chunkCount := leaves.length
    totalBytes := dataLen
    dedupStats :=
      { totalChunks := leaves.length
        uniqueChunks := leaves.length
        reusedChunks := 0
        spaceSavingsPercent := 0.0
        totalDataSize := dataLen
        deduplicatedSize := dataLen }
    chunkCids := leaves.map Prod.fst
    dagNodes := dag.nodes }

/-- The body of `chunk_parallel` and `chunk_sequential`, which differ in how a leaf
reports an error. -/
def chunkRanges (leaf : Nat × Nat → Except Error (Cid × Nat)) (rounds : Nat)
    (config : ParallelChunkingConfig) (data : List UInt8) :
    Option (Except Error ParallelChunkingResult) :=
  match calculateChunkRanges rounds config.chunkSize data.length with
  | none => none
  | some ranges =>
    match ranges.mapM leaf with
    | .error e => some (.error e)
    | .ok leaves =>
      match buildDagParallel rounds config.maxLinksPerNode leaves with
      | none => none
      | some (.error e) => some (.error e)
      | some (.ok dag) => some (.ok (parallelResult data.length leaves dag))

/-- `chunk_sequential`. -/
def chunkSequential (rounds : Nat) (config : ParallelChunkingConfig) (data : List UInt8) :
    Option (Except Error ParallelChunkingResult) :=
  chunkRanges (chunkRange data) rounds config data

/-- `chunk_parallel`, with `rounds` rounds for each loop. -/
def chunkParallel (rounds : Nat) (config : ParallelChunkingConfig) (data : List UInt8) :
    Option (Except Error ParallelChunkingResult) :=
  if data.length < 1000000 then chunkSequential rounds config data
  else chunkRanges (chunkRangeWorker data) rounds config data

end

/-! ## The cut of the data -/

/-- The bytes of a range. -/
def sliceOf (data : List UInt8) (range : Nat × Nat) : List UInt8 :=
  (data.take range.2).drop range.1

/-- From an offset on, the ranges cut what is left into chunks. -/
theorem run_rangesBody {size : Nat} (hsize : 0 < size) (data : List UInt8) :
    ∀ (rounds fuel offset : Nat) {acc ranges : List (Nat × Nat)},
      Loop.run (rangesBody size data.length) rounds (offset, acc) = some ranges →
      (data.drop offset).length ≤ fuel →
      ∃ rest, ranges = acc ++ rest ∧
        rest.map (sliceOf data) = chunksOf size fuel (data.drop offset)
  | 0, fuel, offset, acc, ranges, h, _ => by cases h
  | rounds + 1, fuel, offset, acc, ranges, h, hfuel => by
    by_cases hlt : offset < data.length
    · rw [Loop.run_again (show rangesBody size data.length (offset, acc) = _ from
        if_pos hlt)] at h
      have hdrop : data.drop (min (offset + size) data.length)
          = (data.drop offset).drop size := by
        rw [List.drop_drop]
        rcases Nat.le_total (offset + size) data.length with hle | hle
        · rw [Nat.min_eq_left hle]
        · rw [Nat.min_eq_right hle, List.drop_length, List.drop_of_length_le hle]
      have htake : sliceOf data (offset, min (offset + size) data.length)
          = (data.drop offset).take size := by
        rw [sliceOf, List.drop_take, List.take_eq_take_iff, List.length_drop]
        omega
      cases hcons : data.drop offset with
      | nil =>
        rw [List.drop_eq_nil_iff] at hcons
        omega
      | cons a l =>
        rw [hcons] at hdrop htake hfuel
        cases fuel with
        | zero => simp at hfuel
        | succ fuel =>
          obtain ⟨rest, rfl, hrest⟩ := run_rangesBody hsize data rounds fuel _ h (by
            rw [hdrop, List.length_drop]
            simp only [List.length_cons] at hfuel ⊢
            omega)
          refine ⟨(offset, min (offset + size) data.length) :: rest, by simp, ?_⟩
          rw [List.map_cons, hrest, hdrop, htake, chunksOf]
    · rw [Loop.run_leave (show rangesBody size data.length (offset, acc) = _ from
        if_neg hlt)] at h
      cases h
      refine ⟨[], by simp, ?_⟩
      rw [List.drop_of_length_le (Nat.not_lt.mp hlt)]
      cases fuel <;> rfl

/-- The ranges are the cut that `slice::chunks` makes. -/
theorem map_calculateChunkRanges {size rounds : Nat} (hsize : 0 < size) {data : List UInt8}
    {ranges : List (Nat × Nat)} (h : calculateChunkRanges rounds size data.length = some ranges) :
    chunks size data = some (ranges.map (sliceOf data)) := by
  obtain ⟨rest, hranges, hrest⟩ := run_rangesBody hsize data rounds data.length 0 h (by simp)
  rw [List.nil_append] at hranges
  rw [chunks, if_neg (Nat.pos_iff_ne_zero.mp hsize), hranges, hrest, List.drop_zero]

/-- The ranges of a file are computed. -/
theorem calculateChunkRanges_isSome {size rounds dataLen : Nat} (hsize : 0 < size)
    (hrounds : dataLen < rounds) : ∃ ranges,
    calculateChunkRanges rounds size dataLen = some ranges := by
  obtain ⟨rounds, rfl⟩ : ∃ m, rounds = m + 1 := ⟨rounds - 1, by omega⟩
  have hstep : ∀ s s' : Nat × List (Nat × Nat), True → rangesBody size dataLen s = .inl s' →
      True ∧ dataLen - s'.1 < dataLen - s.1 := by
    intro s s' _ hb
    unfold rangesBody at hb
    split at hb
    · cases hb
      exact ⟨trivial, by dsimp only; omega⟩
    · cases hb
  exact Loop.run_of_measure (fun _ => True) (fun s : Nat × List (Nat × Nat) => dataLen - s.1)
    hstep rounds trivial (by show dataLen - 0 ≤ rounds; omega)

section

variable [CidCrate]

variable {data : List UInt8} {maxLinks rounds : Nat} {config : ParallelChunkingConfig}
  {result : ParallelChunkingResult}

theorem chunkRange_fst {range : Nat × Nat} {leaf : Cid × Nat}
    (h : chunkRange data range = .ok leaf) : leaf.1 = cidOf codecRaw (sliceOf data range) := by
  obtain ⟨block, hblock, h⟩ := bind_eq_ok.mp h
  cases h
  obtain ⟨_, rfl⟩ := Block.new_eq_ok.mp hblock
  rfl

/-! ## The leaves of `Chunker::chunk` -/

/-- The leaf loop appends the raw block of each slice. -/
theorem buildLeaves_eq : ∀ (slices : List (List UInt8)) {leaves leaves' : Leaves},
    buildLeaves slices leaves = .ok leaves' →
    leaves'.blocks = leaves.blocks ++
      slices.map (fun chunk => { cid := cidOf codecRaw chunk, data := chunk }) ∧
    leaves'.seenCids = slices.foldl
      (fun seen chunk => orInsert (cidOf codecRaw chunk) chunk.length seen) leaves.seenCids
  | [], leaves, leaves', h => by
    cases h
    simp
  | chunk :: rest, leaves, leaves', h => by
    obtain ⟨block, hblock, h⟩ := bind_eq_ok.mp h
    obtain ⟨_, rfl⟩ := Block.new_eq_ok.mp hblock
    obtain ⟨hblocks, hseen⟩ := buildLeaves_eq rest h
    exact ⟨by simp [hblocks], hseen⟩

theorem length_buildLeaves : ∀ (slices : List (List UInt8)) {leaves leaves' : Leaves},
    buildLeaves slices leaves = .ok leaves' →
    leaves'.links.length = leaves.links.length + slices.length
  | [], leaves, leaves', h => by
    cases h
    rfl
  | chunk :: rest, leaves, leaves', h => by
    obtain ⟨block, _, h⟩ := bind_eq_ok.mp h
    have hrest := length_buildLeaves rest h
    simp only [List.length_append, List.length_cons, List.length_nil] at hrest ⊢
    omega

/-- Chunks with CIDs not seen before are all recorded. -/
theorem length_seenCids : ∀ (slices : List (List UInt8)) (seen : List (Cid × Nat)),
    (seen.map Prod.fst ++ slices.map (cidOf codecRaw)).Nodup →
    (slices.foldl (fun seen chunk => orInsert (cidOf codecRaw chunk) chunk.length seen)
      seen).length = seen.length + slices.length
  | [], seen, _ => by simp
  | chunk :: rest, seen, hnodup => by
    have hnew : ¬ (seen.any (fun e => e.1 == cidOf codecRaw chunk) = true) := by
      intro hany
      obtain ⟨e, he, heq⟩ := List.any_eq_true.mp hany
      have hmem : cidOf codecRaw chunk ∈ seen.map Prod.fst :=
        eq_of_beq heq ▸ List.mem_map_of_mem he
      exact (List.nodup_append.mp hnodup).2.2 _ hmem _ (by simp) rfl
    rw [List.foldl_cons, orInsert, if_neg hnew, length_seenCids rest _ (by simpa using hnodup)]
    simp only [List.length_append, List.length_cons, List.length_nil]
    omega

/-- The level loop only appends blocks. -/
theorem run_levelBody_prefix {blocks : List Block} {links : List DagLink} {cid : Cid}
    {blocks' : List Block}
    (h : Loop.run (levelBody maxLinks) rounds (blocks, links) = some (some (.ok (cid, blocks')))) :
    ∃ nodes, blocks' = blocks ++ nodes := by
  have hstep : ∀ s s' : List Block × List DagLink, (∃ nodes, s.1 = blocks ++ nodes) →
      levelBody maxLinks s = .inl s' → ∃ nodes, s'.1 = blocks ++ nodes := by
    intro s s' hs hb
    obtain ⟨nodes, hnodes⟩ := hs
    obtain ⟨_, _, _, more, _, _, rfl⟩ := levelBody_again hb
    exact ⟨nodes ++ more, by simp [hnodes]⟩
  obtain ⟨s, hinv, hleft⟩ := Loop.run_inv hstep ⟨[], by simp⟩ h
  obtain ⟨link, rfl, _⟩ := levelBody_root hleft
  exact hinv

/-! ## The level loops end -/

theorem length_of_buildLevel : ∀ {groups : List (List DagLink)} {links : List DagLink}
    {blocks : List Block}, buildLevel groups = .ok (links, blocks) →
    links.length = groups.length
  | [], links, blocks, h => by
    cases h
    rfl
  | group :: rest, links, blocks, h => by
    obtain ⟨⟨link, block⟩, _, h⟩ := bind_eq_ok.mp h
    obtain ⟨⟨links', blocks'⟩, hrest, h⟩ := bind_eq_ok.mp h
    cases h
    simp [length_of_buildLevel hrest]

/-- With nodes of two or more links, the level loop ends. -/
theorem run_levelBody_isSome (hlinks : 2 ≤ maxLinks) {s : List Block × List DagLink}
    (hne : s.2 ≠ []) (hrounds : s.2.length < rounds) :
    ((Loop.run (levelBody maxLinks) rounds s).join).isSome := by
  refine Loop.run_join_isSome (fun s : List Block × List DagLink => s.2 ≠ [])
    (fun s => s.2.length) ?_ ?_ hne hrounds
  · intro s s' hs hb
    obtain ⟨hmore, groups, links, blocks, hgroups, hlevel, rfl⟩ := levelBody_again hb
    have hlen : links.length = groups.length := length_of_buildLevel hlevel
    have hpos := List.length_pos_of_ne_nil (chunks_ne_nil hs hgroups)
    have hlt := length_lt_of_chunks hlinks hmore hgroups
    exact ⟨List.ne_nil_of_length_pos (hlen ▸ hpos), hlen ▸ hlt⟩
  · intro s r hs hb
    unfold levelBody at hb
    split at hb
    · split at hb
      · next hnone => exact absurd hnone (chunks_ne_none (by omega) _)
      · split at hb
        · cases hb
          rfl
        · cases hb
    · split at hb
      · next hnil => exact absurd hnil hs
      · cases hb
        rfl

variable [CidStream]

/-- With nodes of two or more links, the loop over the parents ends. -/
theorem run_parentsBody_isSome (hlinks : 2 ≤ maxLinks) {s : List Cid × List DagNode}
    (hne : s.1 ≠ []) (hrounds : s.1.length < rounds) :
    ((Loop.run (parentsBody maxLinks) rounds s).join).isSome := by
  refine Loop.run_join_isSome (fun s : List Cid × List DagNode => s.1 ≠ [])
    (fun s => s.1.length) ?_ ?_ hne hrounds
  · intro s s' hs hb
    unfold parentsBody at hb
    split at hb
    · next hmore =>
      split at hb
      · cases hb
      · next groups hgroups =>
        split at hb
        · cases hb
        · next parents hparents =>
          cases hb
          have hlen := congrArg List.length (map_of_mapM_ok (g := fun _ => ())
            (k := fun _ => ()) (fun _ _ _ => rfl) hparents)
          have hpos := List.length_pos_of_ne_nil (chunks_ne_nil hs hgroups)
          have hlt := length_lt_of_chunks hlinks hmore hgroups
          simp only [List.length_map] at hlen
          simp only [ne_eq, List.map_eq_nil_iff, List.length_map, hlen]
          exact ⟨List.ne_nil_of_length_pos (hlen ▸ hpos), hlt⟩
    · split at hb
      · cases hb
      · cases hb
  · intro s r hs hb
    unfold parentsBody at hb
    split at hb
    · split at hb
      · next hnone => exact absurd hnone (chunks_ne_none (by omega) _)
      · split at hb
        · cases hb
          rfl
        · cases hb
    · split at hb
      · next hnil => exact absurd hnil hs
      · cases hb
        rfl

/-! ## Both chunkers -/

/-- What the two parallel paths share: leaves of the chunks in order, and the DAG over
them. -/
theorem chunkRanges_cases {leaf : Nat × Nat → Except Error (Cid × Nat)}
    (hsize : 0 < config.chunkSize)
    (hleaf : ∀ range e, leaf range = .ok e → e.1 = cidOf codecRaw (sliceOf data range))
    (h : chunkRanges leaf rounds config data = some (.ok result)) :
    ∃ slices leaves dag, chunks config.chunkSize data = some slices ∧
      leaves.map Prod.fst = slices.map (cidOf codecRaw) ∧
      buildDagParallel rounds config.maxLinksPerNode leaves = some (.ok dag) ∧
      result = parallelResult data.length leaves dag := by
  unfold chunkRanges at h
  split at h
  · cases h
  · next ranges hranges =>
    split at h
    · cases h
    · next leaves hleaves =>
      split at h
      · cases h
      · cases h
      · next dag hdag =>
        cases h
        refine ⟨_, leaves, dag, map_calculateChunkRanges hsize hranges, ?_, hdag, rfl⟩
        rw [map_of_mapM_ok hleaf hleaves, List.map_map]
        rfl

/-- **What `chunk_parallel` returns.** -/
theorem chunkParallel_cases (hsize : 0 < config.chunkSize)
    (h : chunkParallel rounds config data = some (.ok result)) :
    ∃ slices leaves dag, chunks config.chunkSize data = some slices ∧
      leaves.map Prod.fst = slices.map (cidOf codecRaw) ∧
      buildDagParallel rounds config.maxLinksPerNode leaves = some (.ok dag) ∧
      result = parallelResult data.length leaves dag := by
  unfold chunkParallel at h
  split at h
  · exact chunkRanges_cases hsize (fun _ _ he => chunkRange_fst he) h
  · exact chunkRanges_cases hsize (fun _ _ he => chunkRange_fst (mapError_eq_ok.mp he)) h

theorem buildDagParallel_isSome (hwide : 2 ≤ maxLinks) {leaves : List (Cid × Nat)}
    (hrounds : leaves.length < rounds) : (buildDagParallel rounds maxLinks leaves).isSome := by
  unfold buildDagParallel
  split
  · rfl
  · rfl
  · next hnil _ =>
    refine run_parentsBody_isSome hwide ?_ ?_
    · simpa using hnil
    · simp only [List.length_map]
      omega

theorem chunkRanges_isSome (hpos : 0 < config.chunkSize) (hwide : 2 ≤ config.maxLinksPerNode)
    (hrounds : data.length < rounds) (leaf : Nat × Nat → Except Error (Cid × Nat)) :
    (chunkRanges leaf rounds config data).isSome := by
  obtain ⟨ranges, hranges⟩ := calculateChunkRanges_isSome hpos hrounds
  have hlen := length_le_of_chunks (map_calculateChunkRanges hpos hranges)
  rw [List.length_map] at hlen
  unfold chunkRanges
  rw [hranges]
  dsimp only
  split
  · rfl
  · next leaves hleaves =>
    have hcount := congrArg List.length (map_of_mapM_ok (g := fun _ => ())
      (k := fun _ => ()) (fun _ _ _ => rfl) hleaves)
    simp only [List.length_map] at hcount
    have hdag := buildDagParallel_isSome hwide (show leaves.length < rounds by omega)
    split
    · next hnone => simp [hnone] at hdag
    · rfl
    · rfl

/-- `chunk_parallel` returns when chunks are not empty and nodes take two links. -/
theorem chunkParallel_isSome (hpos : 0 < config.chunkSize) (hwide : 2 ≤ config.maxLinksPerNode)
    (hrounds : data.length < rounds) : (chunkParallel rounds config data).isSome := by
  unfold chunkParallel chunkSequential
  split
  · exact chunkRanges_isSome hpos hwide hrounds _
  · exact chunkRanges_isSome hpos hwide hrounds _

omit [CidStream] in
/-- So does `chunk`. -/
theorem chunk_isSome {config : ChunkingConfig} (hstrategy : config.strategy = .fixedSize)
    (hpos : 0 < config.chunkSize) (hwide : 2 ≤ config.maxLinksPerNode)
    (hrounds : data.length < rounds) : (chunk rounds config data).isSome := by
  unfold chunk
  split
  · rfl
  · next hdata =>
    split
    · split
      · rfl
      · rfl
    · have hslices : chunkSlices config data = chunks config.chunkSize data := by
        simp [chunkSlices, hstrategy]
      rw [hslices]
      split
      · next hnone => exact absurd hnone (chunks_ne_none hpos _)
      · next slices hchunks =>
        split
        · rfl
        · next leaves hleaves =>
          have hlen : leaves.links.length = slices.length := by
            simpa using length_buildLeaves slices hleaves
          have hle := length_le_of_chunks hchunks
          have hne := chunks_ne_nil (by simpa using hdata) hchunks
          have hrun := run_levelBody_isSome (s := (leaves.blocks, leaves.links))
            hwide (List.ne_nil_of_length_pos (hlen ▸ List.length_pos_of_ne_nil hne))
            (by show leaves.links.length < rounds; omega)
          split
          · next hnone => simp [hnone] at hrun
          · rfl
          · rfl

/-- A single chunk is the root of its DAG. -/
theorem rootCid_of_length_le (hpos : 0 < config.chunkSize) (hdata : data ≠ [])
    (hle : data.length ≤ config.chunkSize)
    (h : chunkParallel rounds config data = some (.ok result)) :
    result.chunkCids = [cidOf codecRaw data] ∧ result.chunkCount = 1 ∧
      result.rootCid = cidOf codecRaw data := by
  obtain ⟨slices, leaves, dag, hslices, hcids, hdag, rfl⟩ := chunkParallel_cases hpos h
  have hone : slices = [data] := by
    rw [chunks, if_neg (Nat.pos_iff_ne_zero.mp hpos)] at hslices
    have hlen := Nat.succ_pred_eq_of_pos (List.length_pos_of_ne_nil hdata)
    rw [← hlen, Nat.succ_eq_add_one, chunksOf_of_length_le hdata hle] at hslices
    simpa using hslices.symm
  rw [hone] at hcids
  obtain ⟨leaf, rfl, hleaf⟩ : ∃ leaf, leaves = [leaf] ∧ leaf.1 = cidOf codecRaw data := by
    simpa [List.map_eq_cons_iff] using hcids
  cases hdag
  simp [parallelResult, hleaf]

/-- **What the two chunkers share.** For every fixed chunk size and node width the two
configurations accept: with nodes of two or more links both return, and whenever
both return a result they made the same chunks, in the same order and number. A file
of one chunk has the same root, and a file without repeated chunks the same counts
of unique and reused chunks. -/
theorem chunkParallel_agrees (config : ParallelChunkingConfig) (seqConfig : ChunkingConfig)
    (hstrategy : seqConfig.strategy = .fixedSize) (hsize : config.chunkSize = seqConfig.chunkSize)
    (hlinks : config.maxLinksPerNode = seqConfig.maxLinksPerNode)
    (hmin : minChunkSize ≤ config.chunkSize) (data : List UInt8) (hdata : data ≠ []) :
    (2 ≤ config.maxLinksPerNode → ∀ rounds, data.length < rounds →
      (chunkParallel rounds config data).isSome ∧ (chunk rounds seqConfig data).isSome) ∧
    ∀ rounds result file, chunkParallel rounds config data = some (.ok result) →
      chunk rounds seqConfig data = some (.ok file) → result.chunkCount = file.chunkCount ∧
      result.chunkCids = (file.blocks.take file.chunkCount).map Block.cid ∧
      (data.length ≤ config.chunkSize → result.rootCid = file.rootCid) ∧
      (result.chunkCids.Nodup → ∃ stats, file.dedupStats = some stats ∧
        result.dedupStats.uniqueChunks = stats.uniqueChunks ∧
        result.dedupStats.reusedChunks = stats.reusedChunks) := by
  have hpos : 0 < config.chunkSize := Nat.lt_of_lt_of_le (by decide) hmin
  refine ⟨?_, ?_⟩
  · intro hwide rounds hrounds
    exact ⟨chunkParallel_isSome hpos hwide hrounds,
      chunk_isSome hstrategy (hsize ▸ hpos) (hlinks ▸ hwide) hrounds⟩
  · intro rounds result file hpar hseq
    obtain ⟨_, hsmall | hbig⟩ := chunk_cases hseq
    · obtain ⟨hle, block, hblock, hroot, hblocks, hcount, stats, hstats, hunique, hreused⟩ := hsmall
      obtain ⟨_, rfl⟩ := Block.new_eq_ok.mp hblock
      obtain ⟨hcids, hone, hroot'⟩ := rootCid_of_length_le hpos hdata (hsize ▸ hle) hpar
      obtain ⟨_, leaves, _, _, _, _, rfl⟩ := chunkParallel_cases hpos hpar
      refine ⟨by rw [hone, hcount], by simp [hcids, hblocks, hcount], ?_, ?_⟩
      · intro _
        rw [hroot', hroot]
      · intro _
        exact ⟨stats, hstats, hone.trans hunique.symm, hreused.symm⟩
    · obtain ⟨hgt, slices, leaves, hslices, hleaves, hrun, hcount, hstats⟩ := hbig
      obtain ⟨slices', leaves', dag, hslices', hcids, _, rfl⟩ := chunkParallel_cases hpos hpar
      -- both cut the data into the same slices
      have hsame : slices' = slices := by
        simp only [chunkSlices, hstrategy] at hslices
        rw [hsize, hslices] at hslices'
        simpa using hslices'.symm
      subst hsame
      obtain ⟨hblocks, hseen⟩ := buildLeaves_eq _ hleaves
      obtain ⟨nodes, hfile⟩ := run_levelBody_prefix hrun
      have hlen : leaves'.length = slices'.length := by
        simpa using congrArg List.length hcids
      refine ⟨hlen.trans hcount.symm, ?_, ?_, ?_⟩
      · have htake : file.blocks.take file.chunkCount = leaves.blocks := by
          rw [hfile, hcount]
          refine List.take_left' ?_
          simp [hblocks]
        rw [htake, hblocks]
        simpa [parallelResult, Function.comp_def] using hcids
      · intro hle
        exact absurd (hsize ▸ hle) hgt
      · intro hnodup
        have hunique : leaves.seenCids.length = slices'.length := by
          rw [hseen, length_seenCids _ _ (by simpa [parallelResult, hcids] using hnodup)]
          simp
        exact ⟨_, hstats, by simp [parallelResult, dedupStats, hunique, hlen],
          by simp [parallelResult, dedupStats, hunique]⟩

end

/-- Two chunks of the smallest size, under one node. -/
def twoChunks : ParallelChunkingConfig := { chunkSize := 1024, maxLinksPerNode := 2 }

/-- The same settings for `Chunker`. -/
def twoChunksSeq : ChunkingConfig := { chunkSize := 1024, maxLinksPerNode := 2 }

open scoped CidFormat in
/-- Two different chunks: the same leaves and counts. -/
theorem chunkParallel_agrees_sample : ∃ result file,
      chunkParallel 1026 twoChunks (List.replicate 1024 0 ++ [1]) = some (.ok result) ∧
      chunk 1026 twoChunksSeq (List.replicate 1024 0 ++ [1]) = some (.ok file) ∧
      result.chunkCids = (file.blocks.take file.chunkCount).map Block.cid ∧
      ∃ stats, file.dedupStats = some stats ∧
        result.dedupStats.uniqueChunks = stats.uniqueChunks := by
  have hrun : (match chunkParallel 1026 twoChunks (List.replicate 1024 0 ++ [1]),
      chunk 1026 twoChunksSeq (List.replicate 1024 0 ++ [1]) with
      | some (.ok result), some (.ok _) => decide result.chunkCids.Nodup
      | some (.ok _), some (.error _) => false
      | some (.ok _), none => false
      | some (.error _), _ => false
      | none, _ => false) = true := by decide +kernel
  split at hrun
  · next result file hpar hseq =>
    obtain ⟨_, hagree⟩ := chunkParallel_agrees twoChunks twoChunksSeq rfl rfl rfl (by decide)
      (List.replicate 1024 0 ++ [1]) (List.append_ne_nil_of_right_ne_nil _ (by simp))
    obtain ⟨_, hcids, _, hstats⟩ := hagree 1026 result file hpar hseq
    obtain ⟨stats, hsome, hunique, _⟩ := hstats (of_decide_eq_true hrun)
    exact ⟨result, file, hpar, hseq, hcids, stats, hsome, hunique⟩
  · cases hrun
  · cases hrun
  · cases hrun
  · cases hrun

open scoped CidFormat in
/-- Two chunks of zeros: the roots differ, and one chunk is reused by one count and by
none for the other. -/
theorem chunkParallel_repeated_chunk :
    ¬ ∀ (config : ParallelChunkingConfig) (seqConfig : ChunkingConfig),
      seqConfig.strategy = .fixedSize → config.chunkSize = seqConfig.chunkSize →
      config.maxLinksPerNode = seqConfig.maxLinksPerNode →
      minChunkSize ≤ config.chunkSize → config.chunkSize ≤ maxChunkSize →
      ∀ data : List UInt8, data ≠ [] → ∀ rounds result file,
        chunkParallel rounds config data = some (.ok result) →
        chunk rounds seqConfig data = some (.ok file) → result.rootCid = file.rootCid ∧
        result.chunkCids = (file.blocks.take file.chunkCount).map Block.cid ∧
        file.dedupStats.map DeduplicationStats.uniqueChunks = some result.dedupStats.uniqueChunks ∧
        file.dedupStats.map DeduplicationStats.reusedChunks
          = some result.dedupStats.reusedChunks := by
  intro h
  have hdata : List.replicate 2048 (0 : UInt8) ≠ [] :=
    List.ne_nil_of_length_pos (by rw [List.length_replicate]; decide)
  have hrun : (match chunkParallel 3 twoChunks (List.replicate 2048 0),
      chunk 3 twoChunksSeq (List.replicate 2048 0) with
      | some (.ok result), some (.ok file) =>
        decide (result.rootCid ≠ file.rootCid ∧ result.dedupStats.reusedChunks = 0 ∧
          file.dedupStats.map DeduplicationStats.reusedChunks = some 1)
      | some (.ok _), some (.error _) => false
      | some (.ok _), none => false
      | some (.error _), _ => false
      | none, _ => false) = true := by decide +kernel
  split at hrun
  · next result file hpar hseq =>
    have hroot := (h twoChunks twoChunksSeq rfl rfl rfl (by decide) (by decide)
      (List.replicate 2048 0) hdata 3 result file hpar hseq).1
    exact (of_decide_eq_true hrun).1 hroot
  · cases hrun
  · cases hrun
  · cases hrun
  · cases hrun

end Ipfrs.Core
