/-
Ipfrs.Core.Streaming — reading a chunked file back (`streaming.rs`).

`read_chunked_file` walks the DAG breadth-first with a queue of decoded nodes;
`DagChunkStream` keeps a list of pending links and puts a node's links in front.
The fetcher is a function from identifiers to blocks; `MemoryBlockFetcher` is the
map of the source, and loading a list of blocks into it keeps the last block of
each identifier.
-/
import Ipfrs.Core.ChunkingTheorems
import Ipfrs.Core.DagCborTheorems

namespace Ipfrs.Core

open Ipfrs.Lib

/-- `BlockFetcher::fetch`. -/
abbrev BlockFetcher := Cid → Except Error Block

/-- `MemoryBlockFetcher`: an association list, the latest block first. -/
structure MemoryBlockFetcher where
  blocks : List Block := []

/-- `add_block`. -/
def MemoryBlockFetcher.addBlock (f : MemoryBlockFetcher) (block : Block) : MemoryBlockFetcher :=
  { blocks := block :: f.blocks }

/-- `add_blocks`. -/
def MemoryBlockFetcher.addBlocks (f : MemoryBlockFetcher) (blocks : List Block) :
    MemoryBlockFetcher :=
  blocks.foldl MemoryBlockFetcher.addBlock f

/-- `MemoryBlockFetcher::fetch`. -/
def MemoryBlockFetcher.fetch (f : MemoryBlockFetcher) : BlockFetcher := fun cid =>
  match f.blocks.find? (fun b => b.cid == cid) with
  | some block => .ok block
  | none => .error (.blockNotFound cid)

/-- The queue of nodes still to be visited, and the bytes read so far. -/
structure ReadState where
  queue : List Ipld
  result : List UInt8

section

variable [CidCrate]

/-- The loop over a node's links: leaf data is appended, a child node is queued,
and an entry without a `cid` link is skipped. -/
def readLinks (fetch : BlockFetcher) : List Ipld → ReadState → Except Error ReadState
  | [], s => .ok s
  | .map linkMap :: rest, s =>
    match Ipld.field linkMap "cid" with
    | some (.link cid) => do
        let block ← fetch cid
        if block.cid.codec = codecRaw then
          readLinks fetch rest { s with result := s.result ++ block.data }
        else do
          let child ← Ipld.fromDagCbor block.data
          readLinks fetch rest { s with queue := s.queue ++ [child] }
    | _ => readLinks fetch rest s
  | _ :: rest, s => readLinks fetch rest s

/-- One round of the queue loop. -/
def readBody (fetch : BlockFetcher) (s : ReadState) : ReadState ⊕ Except Error (List UInt8) :=
  match s.queue with
  | [] => .inr (.ok s.result)
  | .map map :: queue =>
    let result :=
      match Ipld.field map "data" with
      | some (.bytes data) => s.result ++ data
      | _ => s.result
    match Ipld.field map "links" with
    | some (.list links) =>
      match readLinks fetch links { queue, result } with
      | .ok s' => .inl s'
      | .error e => .inr (.error e)
    | _ => .inl { queue, result }
  | _ :: queue => .inl { s with queue }

/-- `read_chunked_file`, with `rounds` rounds for the queue loop. -/
def readChunkedFile (rounds : Nat) (fetch : BlockFetcher) (rootCid : Cid) :
    Option (Except Error (List UInt8)) :=
  match fetch rootCid with
  | .error e => some (.error e)
  | .ok rootBlock =>
    if rootBlock.cid.codec = codecRaw then some (.ok rootBlock.data)
    else
      match Ipld.fromDagCbor rootBlock.data with
      | .error e => some (.error e)
      | .ok root => Loop.run (readBody fetch) rounds { queue := [root], result := [] }

/-! ## The chunk stream -/

/-- The entry of a `links` list, if it has a `cid` link and an integer `size`, which
is cast to `u64`. -/
def newLink : Ipld → Option DagLink
  | .map linkMap =>
    match Ipld.field linkMap "cid", Ipld.field linkMap "size" with
    | some (.link cid), some (.integer size) => some { cid, size := (size % 2 ^ 64).toNat }
    | _, _ => none
  | _ => none

/-- One round of the loop of `next_chunk`: the pending links, or what the call
returns with the links it leaves. -/
def nextChunkBody (fetch : BlockFetcher) (pendingLinks : List DagLink) :
    List DagLink ⊕ (Option (Except Error (List UInt8)) × List DagLink) :=
  match pendingLinks with
  | [] => .inr (none, [])
  | link :: pendingLinks =>
    match fetch link.cid with
    | .error e => .inr (some (.error e), pendingLinks)
    | .ok block =>
      if block.cid.codec = codecRaw then .inr (some (.ok block.data), pendingLinks)
      else
        match Ipld.fromDagCbor block.data with
        | .error e => .inr (some (.error e), pendingLinks)
        | .ok (.map map) =>
          let pendingLinks :=
            match Ipld.field map "links" with
            | some (.list links) => links.filterMap newLink ++ pendingLinks
            | _ => pendingLinks
          match Ipld.field map "data" with
          | some (.bytes data) => .inr (some (.ok data), pendingLinks)
          | _ => .inl pendingLinks
        | .ok _ => .inl pendingLinks

/-- `DagChunkStream::next_chunk`, with `rounds` rounds for its loop. -/
def nextChunk (rounds : Nat) (fetch : BlockFetcher) (pendingLinks : List DagLink) :
    Option (Option (Except Error (List UInt8)) × List DagLink) :=
  Loop.run (nextChunkBody fetch) rounds pendingLinks

/-- The chunks of a stream joined: `next_chunk` is called until it returns `None` or
an error, at most `calls` times. -/
def joinChunks (rounds : Nat) (fetch : BlockFetcher) :
    Nat → List DagLink → List UInt8 → Option (Except Error (List UInt8))
  | 0, _, _ => none
  | calls + 1, pendingLinks, read =>
    match nextChunk rounds fetch pendingLinks with
    | none => none
    | some (none, _) => some (.ok read)
    | some (some (.error e), _) => some (.error e)
    | some (some (.ok chunk), pendingLinks) =>
      joinChunks rounds fetch calls pendingLinks (read ++ chunk)

end

/-! ## Reading a chunked file gives its data back

The reader visits nodes in the order of its queue, so while it works through one
level it appends the next level behind it. `readLevel_nodes` empties the front of
the queue of one level of nodes and finds the level below, in order, at its end;
`readLevel_leaves` does the same on the lowest level, where the links are leaves
and their data is appended to the result. Breadth-first order is the order of the
data because no level holds both kinds: all leaves of a chunked file are equally
deep (`Spans`). Induction on the depth then reads the whole file. -/

theorem blocks_addBlocks (blocks : List Block) :
    ∀ f : MemoryBlockFetcher, (f.addBlocks blocks).blocks = blocks.reverse ++ f.blocks := by
  induction blocks with
  | nil =>
    intro f
    rfl
  | cons b rest ih =>
    intro f
    show ((f.addBlock b).addBlocks rest).blocks = _
    rw [ih (f.addBlock b)]
    simp [MemoryBlockFetcher.addBlock]

/-- A fetcher loaded with blocks that do not collide returns each of them. -/
theorem fetch_addBlocks {blocks : List Block} (hfree : CollisionFree blocks) {b : Block}
    (hb : b ∈ blocks) : (({} : MemoryBlockFetcher).addBlocks blocks).fetch b.cid = .ok b := by
  have hfree' : CollisionFree blocks.reverse := hfree.mono (fun _ h => List.mem_reverse.mp h)
  unfold MemoryBlockFetcher.fetch
  rw [blocks_addBlocks, List.append_nil, hfree'.find? (List.mem_reverse.mpr hb)]

section

variable [CidCrate]

variable {fetch : BlockFetcher} {blocks : List Block}

/-- The fetcher returns every block of the list. -/
def Serves (fetch : BlockFetcher) (blocks : List Block) : Prop :=
  ∀ b ∈ blocks, fetch b.cid = .ok b

/-! ## One node -/

/-- Links to leaves: their data is appended. -/
theorem readLinks_leaves (hserve : Serves fetch blocks) {links : List DagLink}
    {bytes : List UInt8} (h : Spans blocks 0 links bytes) :
    ∀ s : ReadState, readLinks fetch (links.map DagLink.toIpld) s
      = .ok { s with result := s.result ++ bytes } := by
  generalize hd : 0 = d at h
  induction h with
  | nil d =>
    intro s
    simp [readLinks]
  | @leaf link links block rest hmem hcid hcodec hsize hrest ih =>
    intro s
    obtain ⟨m, hm, hfield⟩ := toIpld_cid link
    rw [List.map_cons, hm, readLinks, hfield, ← hcid]
    simp only [hserve block hmem, ok_bind, hcodec, if_true]
    rw [ih rfl]
    simp
  | node => cases hd

/-- A visited node has its links read and no data of its own. -/
theorem readBody_group (group : List DagLink) (queue : List Ipld) (result : List UInt8)
    {s' : ReadState} (h : readLinks fetch (group.map DagLink.toIpld) { queue, result } = .ok s') :
    readBody fetch { queue := groupIpld group :: queue, result } = .inl s' := by
  obtain ⟨m, hm, hdata, hlinks, _⟩ := groupIpld_fields group
  simp only [readBody, hm, hdata, hlinks, h]

/-! ## One level -/

/-- The lowest level: its nodes at the front of the queue are read into the
result. -/
theorem readLevel_leaves (hserve : Serves fetch blocks) {r : Except Error (List UInt8)}
    (groups : List (List DagLink)) :
    ∀ (queue : List Ipld) (result bytes : List UInt8), Spans blocks 0 groups.flatten bytes →
      Loop.Leaves (readBody fetch) { queue, result := result ++ bytes } r →
      Loop.Leaves (readBody fetch) { queue := groups.map groupIpld ++ queue, result } r := by
  induction groups with
  | nil =>
    intro queue result bytes hspans hr
    cases hspans
    simpa using hr
  | cons group rest ih =>
    intro queue result bytes hspans hr
    rw [List.flatten_cons] at hspans
    obtain ⟨b, b', rfl, hgroup, hrest⟩ := hspans.split
    refine .again (readBody_group group _ result (readLinks_leaves hserve hgroup _)) ?_
    refine ih queue (result ++ b) b' hrest ?_
    rw [List.append_assoc]
    exact hr

variable [CidCrate.Lawful]

/-- Links to nodes: the nodes are queued, and they spell the same bytes. -/
theorem readLinks_nodes (hserve : Serves fetch blocks) {d : Nat} {links : List DagLink}
    {bytes : List UInt8} (h : Spans blocks (d + 1) links bytes) :
    ∃ groups : List (List DagLink), Spans blocks d groups.flatten bytes ∧
      ∀ s : ReadState, readLinks fetch (links.map DagLink.toIpld) s
        = .ok { s with queue := s.queue ++ groups.map groupIpld } := by
  generalize hd : d + 1 = d' at h
  induction h with
  | nil d' =>
    refine ⟨[], .nil d, ?_⟩
    intro s
    simp [readLinks]
  | leaf => cases hd
  | @node d'' link links group block bytes rest hmem hcid hcodec hdata hwf _ hgroup _ _ ih =>
    cases hd
    obtain ⟨groups, hspans, hread⟩ := ih rfl
    refine ⟨group :: groups, hgroup.append hspans, ?_⟩
    intro s
    obtain ⟨m, hm, hfield⟩ := toIpld_cid link
    have hnotraw : ¬ block.cid.codec = codecRaw := by rw [hcodec]; decide
    rw [List.map_cons, hm, readLinks, hfield, ← hcid]
    simp only [hserve block hmem, ok_bind, hnotraw, if_false, hdata,
      fromDagCbor_cborBytes hwf]
    rw [hread]
    simp

/-- A higher level: its nodes at the front of the queue give way to the level
below at its end. -/
theorem readLevel_nodes (hserve : Serves fetch blocks) {d : Nat} {r : Except Error (List UInt8)}
    (groups : List (List DagLink)) :
    ∀ (queue : List Ipld) (result bytes : List UInt8),
      Spans blocks (d + 1) groups.flatten bytes →
      ∃ below : List (List DagLink), Spans blocks d below.flatten bytes ∧
        (Loop.Leaves (readBody fetch) { queue := queue ++ below.map groupIpld, result } r →
          Loop.Leaves (readBody fetch) { queue := groups.map groupIpld ++ queue, result } r) := by
  induction groups with
  | nil =>
    intro queue result bytes hspans
    cases hspans
    exact ⟨[], .nil d, by simp⟩
  | cons group rest ih =>
    intro queue result bytes hspans
    rw [List.flatten_cons] at hspans
    obtain ⟨b, b', rfl, hgroup, hrest⟩ := hspans.split
    obtain ⟨first, hfirst, hread⟩ := readLinks_nodes hserve hgroup
    obtain ⟨below, hbelow, hleave⟩ := ih (queue ++ first.map groupIpld) result b' hrest
    refine ⟨first ++ below, ?_, ?_⟩
    · rw [List.flatten_append]
      exact hfirst.append hbelow
    · intro hr
      rw [List.map_append, ← List.append_assoc] at hr
      have hnext := hleave hr
      rw [← List.append_assoc] at hnext
      exact .again (readBody_group group _ result (hread _)) hnext

/-! ## The whole file -/

/-- A queue that holds one level of nodes is read to the bytes it spells. -/
theorem readBody_leaves (hserve : Serves fetch blocks) (d : Nat) :
    ∀ (groups : List (List DagLink)) (bytes : List UInt8),
      Spans blocks d groups.flatten bytes →
      Loop.Leaves (readBody fetch) { queue := groups.map groupIpld, result := [] }
        (.ok bytes) := by
  induction d with
  | zero =>
    intro groups bytes hspans
    have h := readLevel_leaves hserve groups [] [] bytes hspans (.leave rfl)
    simpa using h
  | succ d ih =>
    intro groups bytes hspans
    obtain ⟨below, hbelow, hleave⟩ := readLevel_nodes hserve groups [] [] bytes hspans
    have h := hleave (by simpa using ih below bytes hbelow)
    simpa using h

/-- The reader returns what a root spells, with enough rounds. -/
theorem readChunkedFile_of_spans (hserve : Serves fetch blocks) {d : Nat} {link : DagLink}
    {bytes : List UInt8} (h : Spans blocks d [link] bytes) :
    ∃ n, ∀ rounds, n ≤ rounds → readChunkedFile rounds fetch link.cid = some (.ok bytes) := by
  cases h with
  | @leaf _ _ block _ hmem hcid hcodec _ hrest =>
    cases hrest
    refine ⟨0, fun rounds _ => ?_⟩
    simp [readChunkedFile, ← hcid, hserve block hmem, hcodec]
  | @node d _ _ group block bytes _ hmem hcid hcodec hdata hwf _ hgroup hrest =>
    cases hrest
    have hspans : Spans blocks d [group].flatten (bytes ++ []) := by simpa using hgroup
    obtain ⟨n, hn⟩ := readBody_leaves hserve d [group] _ hspans
    have hnotraw : ¬ block.cid.codec = codecRaw := by rw [hcodec]; decide
    refine ⟨n, fun rounds hle => ?_⟩
    simp only [readChunkedFile, ← hcid, hserve block hmem, hnotraw, if_false, hdata,
      fromDagCbor_cborBytes hwf]
    exact Loop.run_mono hn hle

/-- A node at the root records the size of the data. -/
theorem totalSize_of_spans {d : Nat} {link : DagLink} {bytes : List UInt8}
    (h : Spans blocks d [link] bytes) (hlen : bytes.length < 2 ^ 64)
    (hserve : Serves fetch blocks) {root : Block} (hroot : fetch link.cid = .ok root)
    (hcodec : root.cid.codec = codecDagCbor) :
    ∃ m, Ipld.fromDagCbor root.data = .ok (.map m) ∧
      Ipld.field m "totalSize" = some (.integer bytes.length) := by
  cases h with
  | @leaf _ _ block _ hmem hcid hraw _ _ =>
    rw [← hcid, hserve block hmem] at hroot
    cases hroot
    rw [hraw] at hcodec
    exact absurd hcodec (by decide)
  | @node d _ _ group block bytes _ hmem hcid _ hdata hwf _ hgroup hrest =>
    cases hrest
    rw [← hcid, hserve block hmem] at hroot
    cases hroot
    obtain ⟨m, hm, _, _, htotal⟩ := groupIpld_fields group
    refine ⟨m, ?_, ?_⟩
    · rw [hdata, fromDagCbor_cborBytes hwf, hm]
    · rw [List.append_nil] at hlen ⊢
      rw [htotal, hgroup.sum_size, asU64_of_lt hlen]

end

/-- **A chunked file reads back.** Whatever the configuration, if chunking returned
a file and its blocks do not collide, loading them into a fetcher and reading the
root returns the data, and a DAG-CBOR root records its size. -/
theorem readChunkedFile_chunk [CidCrate] [CidCrate.Lawful] (rounds : Nat)
    (config : ChunkingConfig) (data : List UInt8) (hlen : data.length < 2 ^ 64)
    (file : ChunkedFile) (hchunk : chunk rounds config data = some (.ok file))
    (hfree : CollisionFree file.blocks) :
    (∃ n, ∀ rounds', n ≤ rounds' →
      readChunkedFile rounds' (({} : MemoryBlockFetcher).addBlocks file.blocks).fetch
        file.rootCid = some (.ok data)) ∧
    ∀ root, (({} : MemoryBlockFetcher).addBlocks file.blocks).fetch file.rootCid = .ok root →
      root.cid.codec = codecDagCbor →
      ∃ m, Ipld.fromDagCbor root.data = .ok (.map m) ∧
        Ipld.field m "totalSize" = some (.integer data.length) := by
  obtain ⟨d, link, hcid, hspans⟩ := chunk_spans hlen hchunk
  have hserve : Serves (({} : MemoryBlockFetcher).addBlocks file.blocks).fetch file.blocks :=
    fun b hb => fetch_addBlocks hfree hb
  rw [← hcid]
  exact ⟨readChunkedFile_of_spans hserve hspans,
    fun root hroot hcodec => totalSize_of_spans hspans hlen hserve hroot hcodec⟩

/-- Three leaves, the last one short, under two nodes and a root. -/
def sampleConfig : ChunkingConfig := { chunkSize := 2, maxLinksPerNode := 2 }

open scoped CidFormat in
/-- The sample file, with the blocks it is read from. -/
theorem sampleFile_exists : ∃ file, chunk 3 sampleConfig [1, 2, 3, 4, 5] = some (.ok file) ∧
      CollisionFree file.blocks := by
  have hok : (match chunk 3 sampleConfig [1, 2, 3, 4, 5] with
      | some (.ok file) => decide (file.blocks.length = 6 ∧ CollisionFree file.blocks)
      | some (.error _) => false
      | none => false) = true := by decide +kernel
  split at hok
  · next file hfile => exact ⟨file, hfile, (of_decide_eq_true hok).2⟩
  · cases hok
  · cases hok

open scoped CidFormat in
theorem readChunkedFile_chunk_sample :
    ∃ file, chunk 3 sampleConfig [1, 2, 3, 4, 5] = some (.ok file) ∧ CollisionFree file.blocks ∧
      ∃ n, ∀ rounds, n ≤ rounds →
        readChunkedFile rounds (({} : MemoryBlockFetcher).addBlocks file.blocks).fetch
          file.rootCid = some (.ok [1, 2, 3, 4, 5]) := by
  obtain ⟨file, hchunk, hfree⟩ := sampleFile_exists
  exact ⟨file, hchunk, hfree,
    (readChunkedFile_chunk 3 sampleConfig [1, 2, 3, 4, 5] (by decide) file hchunk hfree).1⟩

end Ipfrs.Core
