/-
Ipfrs.Core.StreamingOrder — the two DAG readers deliver the same bytes in two
different orders.

The blocks under a link unfold into a tree (`Unfolds`): a raw block is a leaf, a
DAG-CBOR block a node with its `data` field and its links. `DagChunkStream` reads
that tree depth-first (`joinChunks_unfolds`). `read_chunked_file` reads it level by
level (`readChunkedFile_unfolds`): a node waits in the queue until everything queued
before it is read, while a leaf is read at once, with the node that links to it. So
the two agree exactly where taking the pieces of data level by level spells the same
bytes as taking them depth-first, and always do where the levels never fall along the
depth-first order, as in the trees of the chunker.
-/
import Ipfrs.Core.Streaming
import Ipfrs.Lib.Forest
import Mathlib.Data.Set.Finite.List

namespace Ipfrs.Core

open Ipfrs.Lib

/-! ## Unfolding a DAG -/

/-- The `data` field of a node. -/
def nodeData (map : List (String × Ipld)) : List UInt8 :=
  match Ipld.field map "data" with
  | some (.bytes data) => data
  | _ => []

theorem nodeData_of_bytes {map : List (String × Ipld)} {data : List UInt8}
    (h : Ipld.field map "data" = some (.bytes data)) : nodeData map = data := by
  simp [nodeData, h]

theorem nodeData_of_not_bytes {map : List (String × Ipld)}
    (h : ∀ data, Ipld.field map "data" = some (.bytes data) → False) : nodeData map = [] := by
  unfold nodeData
  split
  · next data hdata => exact (h data hdata).elim
  · rfl

/-- A node with its data and its links: a map with a `links` list, every entry of
which is a map with a `cid` and a `size`. -/
def nodeOf : Ipld → Option (List UInt8 × List DagLink)
  | .map map =>
    match Ipld.field map "links" with
    | some (.list items) => (items.mapM newLink).map (fun links => (nodeData map, links))
    | _ => none
  | _ => none

theorem nodeOf_eq_some {v : Ipld} {data : List UInt8} {links : List DagLink}
    (h : nodeOf v = some (data, links)) :
    ∃ map items, v = .map map ∧ Ipld.field map "links" = some (.list items) ∧
      items.mapM newLink = some links ∧ nodeData map = data := by
  unfold nodeOf at h
  split at h
  · next map =>
    split at h
    · next items hitems =>
      obtain ⟨links', hlinks, hpair⟩ := Option.map_eq_some_iff.mp h
      cases hpair
      exact ⟨map, items, rfl, hitems, hlinks, rfl⟩
    · cases h
  · cases h

theorem newLink_eq_some {item : Ipld} {link : DagLink} (h : newLink item = some link) :
    ∃ linkMap, item = .map linkMap ∧ Ipld.field linkMap "cid" = some (.link link.cid) := by
  unfold newLink at h
  split at h
  · next linkMap =>
    split at h
    · next cid size hcid _ =>
      cases h
      exact ⟨linkMap, rfl, hcid⟩
    · cases h
  · cases h

theorem filterMap_of_mapM : ∀ {items : List Ipld} {links : List DagLink},
    items.mapM newLink = some links → items.filterMap newLink = links
  | [], links, h => by
    cases h
    rfl
  | item :: items, links, h => by
    rw [List.mapM_cons] at h
    obtain ⟨link, hlink, h⟩ := Option.bind_eq_some_iff.mp h
    obtain ⟨links', hlinks, h⟩ := Option.bind_eq_some_iff.mp h
    cases h
    rw [List.filterMap_cons, hlink, filterMap_of_mapM hlinks]

section

variable [CidCrate]

/-- The tree under each of a row of links. -/
inductive Unfolds (fetch : BlockFetcher) : List Cid → Forest UInt8 → Prop where
  | nil : Unfolds fetch [] .nil
  | leaf {c : Cid} {cs : List Cid} {block : Block} {rest : Forest UInt8}
      (hfetch : fetch c = .ok block) (hraw : block.cid.codec = codecRaw)
      (hrest : Unfolds fetch cs rest) : Unfolds fetch (c :: cs) (.leaf block.data rest)
  | node {c : Cid} {cs : List Cid} {block : Block} {v : Ipld} {data : List UInt8}
      {links : List DagLink} {children rest : Forest UInt8}
      (hfetch : fetch c = .ok block) (hcodec : block.cid.codec ≠ codecRaw)
      (hdecode : Ipld.fromDagCbor block.data = .ok v) (hnode : nodeOf v = some (data, links))
      (hchildren : Unfolds fetch (links.map DagLink.cid) children)
      (hrest : Unfolds fetch cs rest) : Unfolds fetch (c :: cs) (.node data children rest)

theorem Unfolds.append {fetch : BlockFetcher} {cs ds : List Cid} {f g : Forest UInt8}
    (hf : Unfolds fetch cs f) (hg : Unfolds fetch ds g) :
    Unfolds fetch (cs ++ ds) (f.append g) := by
  induction hf with
  | nil => exact hg
  | leaf hfetch hraw _ ih => exact .leaf hfetch hraw ih
  | node hfetch hcodec hdecode hnode hchildren _ _ ih =>
    exact .node hfetch hcodec hdecode hnode hchildren ih

/-! ## The stream reads depth-first -/

variable {fetch : BlockFetcher}

/-- With enough rounds and calls the stream delivers these bytes and ends. -/
def Drains (fetch : BlockFetcher) (pendingLinks : List DagLink) (bytes : List UInt8) : Prop :=
  ∃ n, ∀ rounds calls, n ≤ rounds → n ≤ calls → ∀ read,
    joinChunks rounds fetch calls pendingLinks read = some (.ok (read ++ bytes))

namespace Drains

variable {pending pending' : List DagLink} {bytes : List UInt8}

theorem nil : Drains fetch [] [] := by
  refine ⟨1, ?_⟩
  intro rounds calls hr hc read
  obtain ⟨r, rfl⟩ := Nat.exists_eq_add_of_le' hr
  obtain ⟨c, rfl⟩ := Nat.exists_eq_add_of_le' hc
  simp [joinChunks, nextChunk, Loop.run, nextChunkBody]

/-- A round that returns a chunk delivers it in front. -/
theorem chunk {c : List UInt8} (hbody : nextChunkBody fetch pending = .inr (some (.ok c), pending'))
    (h : Drains fetch pending' bytes) : Drains fetch pending (c ++ bytes) := by
  obtain ⟨n, hn⟩ := h
  refine ⟨n + 1, ?_⟩
  intro rounds calls hr hc read
  obtain ⟨r, rfl⟩ := Nat.exists_eq_add_of_le' (Nat.le_of_add_left_le hr)
  obtain ⟨k, rfl⟩ := Nat.exists_eq_add_of_le' (Nat.le_of_add_left_le hc)
  have hnext : nextChunk (r + 1) fetch pending = some (some (.ok c), pending') :=
    Loop.run_leave hbody r
  rw [joinChunks, hnext]
  simp [hn (r + 1) k (by omega) (by omega)]

/-- A round that only expands a node delivers nothing. -/
theorem again (hbody : nextChunkBody fetch pending = .inl pending')
    (h : Drains fetch pending' bytes) : Drains fetch pending bytes := by
  obtain ⟨n, hn⟩ := h
  refine ⟨n + 1, ?_⟩
  intro rounds calls hr hc read
  obtain ⟨r, rfl⟩ := Nat.exists_eq_add_of_le' (Nat.le_of_add_left_le hr)
  obtain ⟨k, rfl⟩ := Nat.exists_eq_add_of_le' (Nat.le_of_add_left_le hc)
  have hstep : nextChunk (r + 1) fetch pending = nextChunk r fetch pending' :=
    Loop.run_again hbody r
  have hjoin := hn r (k + 1) (by omega) (by omega) read
  cases hnext : nextChunk r fetch pending' with
  | none =>
    rw [joinChunks, hnext] at hjoin
    cases hjoin
  | some x =>
    have hmore : nextChunk (r + 1) fetch pending' = some x :=
      Loop.run_mono hnext (Nat.le_succ r)
    have hsame : joinChunks (r + 1) fetch (k + 1) pending read
        = joinChunks (r + 1) fetch (k + 1) pending' read := by
      rw [joinChunks, joinChunks, hstep, hnext, hmore]
    rw [hsame]
    exact hn (r + 1) (k + 1) (by omega) (by omega) read

end Drains

/-- One round on a node: its links go in front, and its data is a chunk if it has any. -/
theorem nextChunkBody_node {link : DagLink} (pending : List DagLink) {links : List DagLink}
    {block : Block} {v : Ipld} {data : List UInt8} (hfetch : fetch link.cid = .ok block)
    (hcodec : block.cid.codec ≠ codecRaw) (hdecode : Ipld.fromDagCbor block.data = .ok v)
    (hnode : nodeOf v = some (data, links)) :
    nextChunkBody fetch (link :: pending) = .inr (some (.ok data), links ++ pending) ∨
      (data = [] ∧ nextChunkBody fetch (link :: pending) = .inl (links ++ pending)) := by
  obtain ⟨map, items, rfl, hlinks, hitems, rfl⟩ := nodeOf_eq_some hnode
  have hfilter := filterMap_of_mapM hitems
  simp only [nextChunkBody, hfetch, hcodec, if_false, hdecode, hlinks, hfilter]
  split
  · next data hdata =>
    rw [nodeData_of_bytes hdata]
    exact .inl rfl
  · next hdata => exact .inr ⟨nodeData_of_not_bytes hdata, rfl⟩

/-- **The stream is depth-first**: on a row of links it delivers the trees one after
another, a node's data before what is under it. -/
theorem drains_unfolds : ∀ (n : Nat) (pending : List DagLink) {f : Forest UInt8},
    Unfolds fetch (pending.map DagLink.cid) f → f.size ≤ n → Drains fetch pending f.depthFirst := by
  intro n
  induction n with
  | zero =>
    intro pending f h hn
    cases pending with
    | nil =>
      cases h
      exact .nil
    | cons link pending =>
      cases h with
      | leaf hfetch hraw hrest => simp [Forest.size] at hn
      | node hfetch hcodec hdecode hnode hchildren hrest => simp [Forest.size] at hn
  | succ n ih =>
    intro pending f h hn
    cases pending with
    | nil =>
      cases h
      exact .nil
    | cons link pending =>
      cases h with
      | @leaf _ _ block rest hfetch hraw hrest =>
        simp only [Forest.size] at hn
        have hbody : nextChunkBody fetch (link :: pending)
            = .inr (some (.ok block.data), pending) := by
          simp [nextChunkBody, hfetch, hraw]
        exact (ih pending hrest (by omega)).chunk hbody
      | @node _ _ block v data links children rest hfetch hcodec hdecode hnode hchildren
          hrest =>
          simp only [Forest.size] at hn
          have hrow : Drains fetch (links ++ pending) (children.append rest).depthFirst := by
            refine ih _ ?_ (by rw [Forest.size_append]; omega)
            rw [List.map_append]
            exact hchildren.append hrest
          rw [Forest.depthFirst_append] at hrow
          rcases nextChunkBody_node pending hfetch hcodec hdecode hnode with
            hbody | ⟨rfl, hbody⟩
          · exact hrow.chunk hbody
          · exact hrow.again hbody

/-! ## The file reader goes level by level -/

/-- A queued value is this node. -/
def QueueNode (fetch : BlockFetcher) (v : Ipld) (x : List UInt8 × Forest UInt8) : Prop :=
  ∃ links, nodeOf v = some (x.1, links) ∧ Unfolds fetch (links.map DagLink.cid) x.2

/-- The links of one node: leaves are read, nodes are queued. -/
theorem readLinks_unfolds : ∀ {items : List Ipld} {links : List DagLink} {f : Forest UInt8},
    items.mapM newLink = some links → Unfolds fetch (links.map DagLink.cid) f → ∀ s : ReadState,
    ∃ queued, readLinks fetch items s
        = .ok { queue := s.queue ++ queued, result := s.result ++ f.leaves } ∧
      List.Forall₂ (QueueNode fetch) queued f.nodes
  | [], links, f, hitems, hf, s => by
    cases hitems
    cases hf
    exact ⟨[], by simp [readLinks, Forest.leaves], .nil⟩
  | item :: items, links, f, hitems, hf, s => by
    rw [List.mapM_cons] at hitems
    obtain ⟨link, hlink, hitems⟩ := Option.bind_eq_some_iff.mp hitems
    obtain ⟨links', hlinks, hitems⟩ := Option.bind_eq_some_iff.mp hitems
    cases hitems
    obtain ⟨linkMap, rfl, hcid⟩ := newLink_eq_some hlink
    cases hf with
    | @leaf _ _ block rest hfetch hraw hrest =>
      obtain ⟨queued, hread, hqueued⟩ := readLinks_unfolds hlinks hrest
        { s with result := s.result ++ block.data }
      refine ⟨queued, ?_, hqueued⟩
      simp [readLinks, hcid, hfetch, hraw, hread, Forest.leaves]
    | @node _ _ block v data links₁ children rest hfetch hcodec hdecode hnode hchildren hrest =>
      obtain ⟨queued, hread, hqueued⟩ := readLinks_unfolds hlinks hrest
        { s with queue := s.queue ++ [v] }
      refine ⟨v :: queued, ?_, .cons ⟨links₁, hnode, hchildren⟩ hqueued⟩
      simp [readLinks, hcid, hfetch, hcodec, hdecode, hread, Forest.leaves]

/-- One round on a queued node reads its data and its leaves and queues its nodes. -/
theorem readBody_node {v : Ipld} {x : List UInt8 × Forest UInt8} (hx : QueueNode fetch v x)
    (queue : List Ipld) (result : List UInt8) :
    ∃ queued, readBody fetch { queue := v :: queue, result }
        = .inl { queue := queue ++ queued, result := result ++ (x.1 ++ x.2.leaves) } ∧
      List.Forall₂ (QueueNode fetch) queued x.2.nodes := by
  obtain ⟨data, children⟩ := x
  obtain ⟨links, hnode, hchildren⟩ := hx
  obtain ⟨map, items, rfl, hlinks, hitems, rfl⟩ := nodeOf_eq_some hnode
  obtain ⟨queued, hread, hqueued⟩ := readLinks_unfolds hitems hchildren
    { queue, result := result ++ nodeData map }
  refine ⟨queued, ?_, hqueued⟩
  cases hdata : Ipld.field map "data" with
  | none =>
    rw [nodeData_of_not_bytes (by simp [hdata])] at hread ⊢
    simp only [List.append_nil] at hread
    simp [readBody, hlinks, hdata, hread]
  | some w =>
    cases w with
    | bytes data =>
      rw [nodeData_of_bytes hdata] at hread ⊢
      simp [readBody, hlinks, hdata, hread]
    | _ =>
      rw [nodeData_of_not_bytes (by simp [hdata])] at hread ⊢
      simp only [List.append_nil] at hread
      simp [readBody, hlinks, hdata, hread]

/-- A row of nodes at the front of the queue: they are read one after another, and
the nodes under them stand at the end. -/
theorem leaves_row {row : List Ipld} {xs : List (List UInt8 × Forest UInt8)}
    (hrow : List.Forall₂ (QueueNode fetch) row xs) :
    ∀ (queue : List Ipld) (result : List UInt8),
      ∃ below, List.Forall₂ (QueueNode fetch) below (Forest.nextRow xs) ∧
        ∀ r, Loop.Leaves (readBody fetch)
            { queue := queue ++ below, result := result ++ Forest.rowBytes xs } r →
          Loop.Leaves (readBody fetch) { queue := row ++ queue, result } r := by
  induction hrow with
  | nil =>
    intro queue result
    exact ⟨[], .nil, fun r h => by simpa [Forest.rowBytes] using h⟩
  | @cons v x row xs hx _ ih =>
    intro queue result
    obtain ⟨queued, hbody, hqueued⟩ := readBody_node hx (row ++ queue) result
    obtain ⟨below, hbelow, hleave⟩ := ih (queue ++ queued) (result ++ (x.1 ++ x.2.leaves))
    refine ⟨queued ++ below, List.rel_append hqueued hbelow, fun r h => ?_⟩
    refine Loop.Leaves.again hbody ?_
    rw [List.append_assoc]
    refine hleave r ?_
    simpa [Forest.rowBytes] using h

/-- **The queue is read level by level.** -/
theorem leaves_queue : ∀ (n l : Nat) {row : List Ipld} {xs : List (List UInt8 × Forest UInt8)}
    (result : List UInt8), List.Forall₂ (QueueNode fetch) row xs → Forest.rowSize xs ≤ n →
    Loop.Leaves (readBody fetch) { queue := row, result }
      (.ok (result ++ levels l n (Forest.rowPieces l xs))) := by
  intro n
  induction n with
  | zero =>
    intro l row xs result hrow hsize
    have hnil := Forest.eq_nil_of_rowSize (Nat.le_zero.mp hsize)
    subst hnil
    cases hrow
    exact Loop.Leaves.leave (by simp [readBody, Forest.rowPieces, levels_nil])
  | succ n ih =>
    intro l row xs result hrow hsize
    have hnext := Forest.rowSize_nextRow xs
    cases hxs : xs with
    | nil =>
      subst hxs
      cases hrow
      exact Loop.Leaves.leave (by simp [readBody, Forest.rowPieces, levels_nil])
    | cons x xs' =>
      obtain ⟨below, hbelow, hleave⟩ := leaves_row hrow [] result
      rw [← hxs, Forest.levels_rowPieces, ← List.append_assoc]
      have hrest := ih (l + 1) (result ++ Forest.rowBytes xs) hbelow (by
        rw [hxs, List.length_cons] at hnext
        rw [hxs] at hsize ⊢
        omega)
      simpa using hleave _ (by simpa using hrest)

/-! ## The two readers on one root -/

theorem joinChunks_unfolds (link : DagLink) {f : Forest UInt8} (h : Unfolds fetch [link.cid] f) :
    ∃ n, ∀ rounds calls, n ≤ rounds → n ≤ calls →
      joinChunks rounds fetch calls [link] [] = some (.ok f.depthFirst) := by
  obtain ⟨n, hn⟩ := drains_unfolds f.size [link] h (Nat.le_refl _)
  exact ⟨n, fun rounds calls hr hc => by simpa using hn rounds calls hr hc []⟩

theorem readChunkedFile_unfolds {root : Cid} {f : Forest UInt8} (h : Unfolds fetch [root] f) :
    ∃ n, ∀ rounds, n ≤ rounds →
      readChunkedFile rounds fetch root = some (.ok (levelOrder (f.pieces 0))) := by
  cases h with
  | @leaf _ _ block rest hfetch hraw hrest =>
    cases hrest
    refine ⟨0, fun rounds _ => ?_⟩
    simp [readChunkedFile, hfetch, hraw, levelOrder, levelBound, levels, Forest.pieces, dataAt]
  | @node _ _ block v data links children rest hfetch hcodec hdecode hnode hchildren hrest =>
    cases hrest
    have hrow : List.Forall₂ (QueueNode fetch) [v] [(data, children)] :=
      .cons ⟨links, hnode, hchildren⟩ .nil
    -- the root is the one node of level 1
    have hpieces : (Forest.node data children .nil).pieces 0
        = Forest.rowPieces 1 [(data, children)] := by
      simp [Forest.pieces, Forest.rowPieces]
    have hlow : ∀ p ∈ Forest.rowPieces 1 [(data, children)], 0 + 1 ≤ p.1 := by
      intro p hp
      simp only [Forest.rowPieces, List.flatMap_cons, List.flatMap_nil, List.append_nil] at hp
      rcases List.mem_cons.mp hp with rfl | hp
      · exact Nat.le_refl 1
      · exact Forest.le_of_mem_pieces hp
    obtain ⟨n, hsize, hbound⟩ : ∃ n, Forest.rowSize [(data, children)] ≤ n ∧
        levelBound (Forest.rowPieces 1 [(data, children)]) ≤ n :=
      ⟨_, Nat.le_max_left _ _, Nat.le_max_right _ _⟩
    have horder : levels 1 n (Forest.rowPieces 1 [(data, children)])
        = levelOrder (Forest.rowPieces 1 [(data, children)]) := by
      have hskip := levels_skip 1 n hlow
      rw [← hskip]
      refine levels_eq_levelOrder ?_
      intro p hp
      have := lt_levelBound hp
      omega
    obtain ⟨rounds, hrun⟩ := leaves_queue n 1 [] hrow hsize
    rw [List.nil_append, horder, ← hpieces] at hrun
    refine ⟨rounds, fun rounds' hle => ?_⟩
    simp only [readChunkedFile, hfetch, hcodec, if_false, hdecode]
    exact Loop.run_mono hrun hle

end

/-! ## Acyclic sets of blocks -/

/-- A fetcher over a set of blocks. -/
def blockFetcher (blocks : List Block) : BlockFetcher :=
  (({} : MemoryBlockFetcher).addBlocks blocks).fetch

section

variable [CidCrate]

/-- One block links to another. -/
def LinksTo (blocks : List Block) (c d : Cid) : Prop :=
  ∃ block v data links, blockFetcher blocks c = .ok block ∧ block.cid.codec ≠ codecRaw ∧
    Ipld.fromDagCbor block.data = .ok v ∧ nodeOf v = some (data, links) ∧
    d ∈ links.map DagLink.cid

/-- An acyclic set of blocks: every block that is not raw is a node whose links lead
to blocks of the set, and no block leads to itself. -/
structure BlockDag (blocks : List Block) : Prop where
  node : ∀ b ∈ blocks, b.cid.codec ≠ codecRaw → ∃ v data links,
    Ipld.fromDagCbor b.data = .ok v ∧ nodeOf v = some (data, links) ∧
      ∀ l ∈ links, ∃ b' ∈ blocks, b'.cid = l.cid
  acyclic : ∀ c, ¬ Relation.TransGen (LinksTo blocks) c c

omit [CidCrate] in
/-- Every CID of the set is served by a block of the set. -/
theorem blockFetcher_of_mem {blocks : List Block} {b : Block} (hb : b ∈ blocks) :
    ∃ b' ∈ blocks, b'.cid = b.cid ∧ blockFetcher blocks b.cid = .ok b' := by
  unfold blockFetcher MemoryBlockFetcher.fetch
  rw [blocks_addBlocks, List.append_nil]
  cases hfind : blocks.reverse.find? (fun b' => b'.cid == b.cid) with
  | none =>
    have hnone := List.find?_eq_none.mp hfind b (List.mem_reverse.mpr hb)
    simp at hnone
  | some b' =>
    have hmem := List.mem_reverse.mp (List.mem_of_find?_eq_some hfind)
    exact ⟨b', hmem, by simpa using List.find?_some hfind, rfl⟩

omit [CidCrate] in
/-- What the set serves is one of its blocks, under its own CID. -/
theorem mem_of_blockFetcher {blocks : List Block} {c : Cid} {b : Block}
    (h : blockFetcher blocks c = .ok b) : b ∈ blocks ∧ b.cid = c := by
  unfold blockFetcher MemoryBlockFetcher.fetch at h
  rw [blocks_addBlocks, List.append_nil] at h
  split at h
  · next b' hfind =>
    cases h
    exact ⟨List.mem_reverse.mp (List.mem_of_find?_eq_some hfind),
      by simpa using List.find?_some hfind⟩
  · cases h

/-- Links that lead to smaller blocks unfold together. -/
theorem unfolds_row {fetch : BlockFetcher} : ∀ {cs : List Cid},
    (∀ c ∈ cs, ∃ f, Unfolds fetch [c] f) → ∃ f, Unfolds fetch cs f
  | [], _ => ⟨_, .nil⟩
  | c :: cs, h => by
    obtain ⟨f, hf⟩ := h c List.mem_cons_self
    obtain ⟨g, hg⟩ := unfolds_row (fun d hd => h d (List.mem_cons_of_mem _ hd))
    exact ⟨_, hf.append hg⟩

/-- Reading downwards along links ends: the set is finite and no block leads to
itself. -/
theorem BlockDag.wellFounded {blocks : List Block} (h : BlockDag blocks) :
    WellFounded (fun c d : {c : Cid // c ∈ blocks.map Block.cid} =>
      Relation.TransGen (LinksTo blocks) d.1 c.1) := by
  have htrans : IsTrans {c : Cid // c ∈ blocks.map Block.cid}
      (fun c d => Relation.TransGen (LinksTo blocks) d.1 c.1) :=
    ⟨fun _ _ _ hab hbc => hbc.trans hab⟩
  have hirrefl : Std.Irrefl (fun c d : {c : Cid // c ∈ blocks.map Block.cid} =>
      Relation.TransGen (LinksTo blocks) d.1 c.1) :=
    ⟨fun c => h.acyclic c.1⟩
  have hfinite : Finite {c : Cid // c ∈ blocks.map Block.cid} :=
    (List.finite_toSet (blocks.map Block.cid)).to_subtype
  exact Finite.wellFounded_of_trans_of_irrefl _

/-- **An acyclic set of blocks unfolds** from every one of its CIDs. -/
theorem BlockDag.unfolds {blocks : List Block} (h : BlockDag blocks)
    (c : {c : Cid // c ∈ blocks.map Block.cid}) : ∃ f, Unfolds (blockFetcher blocks) [c.1] f := by
  induction c using h.wellFounded.induction with
  | _ c ih =>
    obtain ⟨c, hc⟩ := c
    obtain ⟨b₀, hb₀, rfl⟩ := List.mem_map.mp hc
    obtain ⟨b, hb, hcid, hfetch⟩ := blockFetcher_of_mem hb₀
    by_cases hraw : b.cid.codec = codecRaw
    · exact ⟨_, .leaf hfetch hraw .nil⟩
    · obtain ⟨v, data, links, hdecode, hnode, hclosed⟩ := h.node b hb hraw
      have hchildren : ∃ f, Unfolds (blockFetcher blocks) (links.map DagLink.cid) f := by
        refine unfolds_row ?_
        intro d hd
        obtain ⟨l, hl, rfl⟩ := List.mem_map.mp hd
        obtain ⟨b', hb', hb'l⟩ := hclosed l hl
        have hmem : l.cid ∈ blocks.map Block.cid := hb'l ▸ List.mem_map_of_mem hb'
        exact ih ⟨l.cid, hmem⟩ (.single ⟨b, v, data, links, hfetch, hraw, hdecode, hnode, hd⟩)
      obtain ⟨children, hchildren⟩ := hchildren
      exact ⟨_, .node hfetch hraw hdecode hnode hchildren .nil⟩

end

/-- **When the two readers agree.** From every root of an acyclic set of blocks both
readers return. What the stream delivers is what the file reader returns if and only
if the pieces of data spell the same bytes level by level as depth-first, and this is
so whenever no piece with data comes, depth-first, after one of a deeper level. -/
theorem joinChunks_eq_readChunkedFile_iff [CidCrate] (blocks : List Block)
    (h : BlockDag blocks) (link : DagLink) (hroot : ∃ b ∈ blocks, b.cid = link.cid) :
    ∃ f, Unfolds (blockFetcher blocks) [link.cid] f ∧
      ∃ n, ∀ rounds calls rounds', n ≤ rounds → n ≤ calls → n ≤ rounds' → ∃ streamed read,
          joinChunks rounds (blockFetcher blocks) calls [link] [] = some (.ok streamed) ∧
          readChunkedFile rounds' (blockFetcher blocks) link.cid = some (.ok read) ∧
          (streamed = read ↔ levelOrder (f.pieces 0) = (f.pieces 0).flatMap Prod.snd) ∧
          ((nonempty (f.pieces 0)).Pairwise (fun p q => p.1 ≤ q.1) → streamed = read) := by
  obtain ⟨b, hb, hcid⟩ := hroot
  obtain ⟨f, hf⟩ := h.unfolds ⟨link.cid, hcid ▸ List.mem_map_of_mem hb⟩
  obtain ⟨n₁, hstream⟩ := joinChunks_unfolds link hf
  obtain ⟨n₂, hread⟩ := readChunkedFile_unfolds hf
  refine ⟨f, hf, max n₁ n₂, ?_⟩
  intro rounds calls rounds' hr hc hr'
  refine ⟨_, _, hstream rounds calls (by omega) (by omega), hread rounds' (by omega), ?_, ?_⟩
  · rw [Forest.flatMap_pieces]
    exact eq_comm
  · intro hlevels
    rw [levelOrder_of_nonempty_sorted hlevels, Forest.flatMap_pieces]

/-! ## A tree with leaves at two depths -/

theorem newLink_toIpld (link : DagLink) (hsize : link.size < 2 ^ 64) (hname : link.name = none) :
    newLink link.toIpld = some link := by
  obtain ⟨cid, size, name⟩ := link
  cases hname
  have hlt : size < 2 ^ 64 := hsize
  simp [DagLink.toIpld, newLink, Ipld.field, SortedAssoc.ofEntries, SortedAssoc.get?_insert]
  omega

theorem mapM_newLink : ∀ {links : List DagLink},
    (∀ l ∈ links, l.size < 2 ^ 64 ∧ l.name = none) →
    (links.map DagLink.toIpld).mapM newLink = some links
  | [], _ => rfl
  | l :: links, h => by
    obtain ⟨hsize, hname⟩ := h l List.mem_cons_self
    have hrest := mapM_newLink (fun l' hl' => h l' (List.mem_cons_of_mem _ hl'))
    simp [List.mapM_cons, newLink_toIpld l hsize hname, hrest]

/-- A node of the chunker is a node to both readers. -/
theorem nodeOf_groupIpld {links : List DagLink} (h : ∀ l ∈ links, l.size < 2 ^ 64 ∧ l.name = none) :
    nodeOf (groupIpld links) = some ([], links) := by
  obtain ⟨m, hm, hdata, hlinks, _⟩ := groupIpld_fields links
  have hnone : nodeData m = [] := nodeData_of_not_bytes (by simp [hdata])
  simp [hm, nodeOf, hlinks, mapM_newLink h, hnone]

/-- Along links that lower a rank nothing leads to itself. -/
theorem acyclic_of_rank {R : Cid → Cid → Prop} (rank : Cid → Nat)
    (h : ∀ c d, R c d → rank d < rank c) (c : Cid) : ¬ Relation.TransGen R c c := by
  have hlower : ∀ {c d}, Relation.TransGen R c d → rank d < rank c := by
    intro c d hcd
    induction hcd with
    | single hstep => exact h _ _ hstep
    | tail _ hstep ih => exact Nat.lt_trans (h _ _ hstep) ih
  exact fun hcc => Nat.lt_irrefl _ (hlower hcc)

namespace TwoDepths

open scoped CidFormat

/-- A raw leaf. -/
def leaf (data : List UInt8) : Block := { cid := cidOf codecRaw data, data }

/-- A node over blocks. -/
def node (links : List DagLink) : Block :=
  { cid := cidOf codecDagCbor (cborBytes (groupIpld links))
    data := cborBytes (groupIpld links) }

def link (b : Block) : DagLink := { cid := b.cid, size := b.data.length }

def deep : Block := leaf [1]
def shallow : Block := leaf [2]
def inner : Block := node [link deep]
def root : Block := node [link inner, link shallow]

/-- A root over a node with a leaf, and a second leaf. -/
def blocks : List Block := [deep, shallow, inner, root]

theorem collisionFree : CollisionFree blocks := by decide +kernel

theorem fetch_mem {b : Block} (hb : b ∈ blocks) : blockFetcher blocks b.cid = .ok b :=
  fetch_addBlocks collisionFree hb

theorem sizes_lt : deep.data.length < 2 ^ 64 ∧ shallow.data.length < 2 ^ 64 ∧
    inner.data.length < 2 ^ 64 ∧ root.data.length < 2 ^ 64 := by decide +kernel

theorem inner_links : ∀ l ∈ [link deep], l.size < 2 ^ 64 ∧ l.name = none := by
  intro l hl
  rw [List.mem_singleton.mp hl]
  exact ⟨sizes_lt.1, rfl⟩

theorem root_links : ∀ l ∈ [link inner, link shallow], l.size < 2 ^ 64 ∧ l.name = none := by
  intro l hl
  simp only [List.mem_cons, List.not_mem_nil, or_false] at hl
  rcases hl with rfl | rfl
  · exact ⟨sizes_lt.2.2.1, rfl⟩
  · exact ⟨sizes_lt.2.1, rfl⟩

theorem decode_node {links : List DagLink} (h : ∀ l ∈ links, l.size < 2 ^ 64 ∧ l.name = none)
    (hlen : (node links).data.length < 2 ^ 64) :
    Ipld.fromDagCbor (node links).data = .ok (groupIpld links) :=
  fromDagCbor_cborBytes ((groupIpld_shaped fun l hl => (h l hl).1).wf hlen)

theorem decode_inner : Ipld.fromDagCbor inner.data = .ok (groupIpld [link deep]) :=
  decode_node inner_links sizes_lt.2.2.1

theorem decode_root : Ipld.fromDagCbor root.data = .ok (groupIpld [link inner, link shallow]) :=
  decode_node root_links sizes_lt.2.2.2

/-- What the root unfolds to. -/
def tree : Forest UInt8 := .node [] (.node [] (.leaf [1] .nil) (.leaf [2] .nil)) .nil

theorem unfolds_root : Unfolds (blockFetcher blocks) [root.cid] tree := by
  have hdeep : deep ∈ blocks := by simp [blocks]
  have hshallow : shallow ∈ blocks := by simp [blocks]
  have hinner : inner ∈ blocks := by simp [blocks]
  have hroot : root ∈ blocks := by simp [blocks]
  refine .node (fetch_mem hroot) (by decide) decode_root (nodeOf_groupIpld root_links) ?_ .nil
  refine .node (fetch_mem hinner) (by decide) decode_inner (nodeOf_groupIpld inner_links) ?_ ?_
  · exact .leaf (fetch_mem hdeep) rfl .nil
  · exact .leaf (fetch_mem hshallow) rfl .nil

/-- How far a CID is above the leaves. -/
def rank (c : Cid) : Nat := if c = root.cid then 2 else if c = inner.cid then 1 else 0

theorem rank_lt : rank deep.cid < rank inner.cid ∧ rank inner.cid < rank root.cid ∧
    rank shallow.cid < rank root.cid := by decide +kernel

theorem dag : BlockDag blocks where
  node b hb hcodec := by
    simp only [blocks, List.mem_cons, List.not_mem_nil, or_false] at hb
    rcases hb with rfl | rfl | rfl | rfl
    · exact absurd rfl hcodec
    · exact absurd rfl hcodec
    · refine ⟨_, _, _, decode_inner, nodeOf_groupIpld inner_links, ?_⟩
      intro l hl
      rw [List.mem_singleton.mp hl]
      exact ⟨deep, by simp [blocks], rfl⟩
    · refine ⟨_, _, _, decode_root, nodeOf_groupIpld root_links, ?_⟩
      intro l hl
      simp only [List.mem_cons, List.not_mem_nil, or_false] at hl
      rcases hl with rfl | rfl
      · exact ⟨inner, by simp [blocks], rfl⟩
      · exact ⟨shallow, by simp [blocks], rfl⟩
  acyclic := by
    refine acyclic_of_rank rank ?_
    rintro c d ⟨b, v, data, links, hfetch, hcodec, hdecode, hnode, hd⟩
    obtain ⟨hb, rfl⟩ := mem_of_blockFetcher hfetch
    simp only [blocks, List.mem_cons, List.not_mem_nil, or_false] at hb
    rcases hb with rfl | rfl | rfl | rfl
    · exact absurd rfl hcodec
    · exact absurd rfl hcodec
    · rw [decode_inner] at hdecode
      cases hdecode
      rw [nodeOf_groupIpld inner_links] at hnode
      cases hnode
      simp only [List.map_cons, List.map_nil, List.mem_cons, List.not_mem_nil, or_false] at hd
      rw [hd]
      exact rank_lt.1
    · rw [decode_root] at hdecode
      cases hdecode
      rw [nodeOf_groupIpld root_links] at hnode
      cases hnode
      simp only [List.map_cons, List.map_nil, List.mem_cons, List.not_mem_nil, or_false] at hd
      rcases hd with rfl | rfl
      · exact rank_lt.2.1
      · exact rank_lt.2.2

end TwoDepths

open scoped CidFormat in
theorem joinChunks_eq_readChunkedFile_iff_sample :
    ∃ f, Unfolds (blockFetcher TwoDepths.blocks) [TwoDepths.root.cid] f ∧
      ∃ n, ∀ rounds calls rounds', n ≤ rounds → n ≤ calls → n ≤ rounds' → ∃ streamed read,
          joinChunks rounds (blockFetcher TwoDepths.blocks) calls
            [TwoDepths.link TwoDepths.root] [] = some (.ok streamed) ∧
          readChunkedFile rounds' (blockFetcher TwoDepths.blocks) TwoDepths.root.cid
            = some (.ok read) ∧ (streamed = read ↔
            levelOrder (f.pieces 0) = (f.pieces 0).flatMap Prod.snd) ∧
          ((nonempty (f.pieces 0)).Pairwise (fun p q => p.1 ≤ q.1) → streamed = read) :=
  joinChunks_eq_readChunkedFile_iff TwoDepths.blocks TwoDepths.dag
    (TwoDepths.link TwoDepths.root) ⟨TwoDepths.root, by simp [TwoDepths.blocks], rfl⟩

open scoped CidFormat in
/-- The stream delivers `1, 2`; the file reader returns `2, 1`. -/
theorem readChunkedFile_breadth_first :
    ¬ ∀ (blocks : List Block) (link : DagLink), BlockDag blocks → (∃ b ∈ blocks, b.cid = link.cid) →
      ∃ n, ∀ rounds calls rounds', n ≤ rounds → n ≤ calls → n ≤ rounds' →
        joinChunks rounds (blockFetcher blocks) calls [link] []
          = readChunkedFile rounds' (blockFetcher blocks) link.cid := by
  intro h
  obtain ⟨n, hn⟩ := h TwoDepths.blocks (TwoDepths.link TwoDepths.root) TwoDepths.dag
    ⟨TwoDepths.root, by simp [TwoDepths.blocks], rfl⟩
  obtain ⟨n₁, hstream⟩ := joinChunks_unfolds (TwoDepths.link TwoDepths.root)
    TwoDepths.unfolds_root
  obtain ⟨n₂, hread⟩ := readChunkedFile_unfolds TwoDepths.unfolds_root
  have hsame := hn (n + n₁) (n + n₁) (n + n₂) (by omega) (by omega) (by omega)
  have hread' : readChunkedFile (n + n₂) (blockFetcher TwoDepths.blocks)
      (TwoDepths.link TwoDepths.root).cid = some (.ok (levelOrder (TwoDepths.tree.pieces 0))) :=
    hread (n + n₂) (by omega)
  rw [hstream (n + n₁) (n + n₁) (by omega) (by omega), hread'] at hsame
  have hbytes : TwoDepths.tree.depthFirst = levelOrder (TwoDepths.tree.pieces 0) :=
    Except.ok.inj (Option.some.inj hsame)
  exact absurd hbytes (by decide)

end Ipfrs.Core
