/-
Ipfrs.Storage.Dedup — blocks stored as chunks, each chunk once (`dedup.rs`).

A put cuts its block into chunks where the bytes say so and goes through them in order:
a chunk in the index is counted once more, another one is put into the store below and
then entered with count one, with an await point before and after the store's work. The
manifest of the block comes last. A delete takes the manifest away, counts its chunks
down at once, and then removes those at zero one by one, again around an await point.

The statistics are left out, and so are the sizes that only they read.
-/
import Ipfrs.Storage.BlockStore
import Ipfrs.Lib.Interleaving
import Ipfrs.Lib.Pooled

namespace Ipfrs.Storage

open Ipfrs.Core Ipfrs.Lib
open Ipfrs.Lib.Interleaving (Machine Pool Turn)
open Ipfrs.Knowledge (ColdStore)

/-! ## The chunker -/

structure ChunkingConfig where
  minChunkSize : Nat
  targetChunkSize : Nat
  maxChunkSize : Nat
  hashMask : UInt32
  min_pos : 0 < minChunkSize
  min_le_target : minChunkSize ≤ targetChunkSize
  target_le_max : targetChunkSize ≤ maxChunkSize

namespace ChunkingConfig

def default : ChunkingConfig where
  minChunkSize := 256 * 1024
  targetChunkSize := 1024 * 1024
  maxChunkSize := 4 * 1024 * 1024
  hashMask := 0xFFFF
  min_pos := by decide
  min_le_target := by decide
  target_le_max := by decide

def small : ChunkingConfig where
  minChunkSize := 64 * 1024
  targetChunkSize := 256 * 1024
  maxChunkSize := 1024 * 1024
  hashMask := 0x3FFF
  min_pos := by decide
  min_le_target := by decide
  target_le_max := by decide

def large : ChunkingConfig where
  minChunkSize := 1024 * 1024
  targetChunkSize := 4 * 1024 * 1024
  maxChunkSize := 16 * 1024 * 1024
  hashMask := 0x1FFFF
  min_pos := by decide
  min_le_target := by decide
  target_le_max := by decide

end ChunkingConfig

namespace Chunker

variable (config : ChunkingConfig)

/-- The mask of the smaller chunks, then that of the larger ones. -/
def mask (ncLevel idx : Nat) : UInt64 :=
  if idx < ncLevel then config.hashMask.toUInt64 else (config.hashMask >>> 1).toUInt64

/-- The loop of `find_boundary` over the bytes from `idx` on. -/
def scan (ncLevel : Nat) : Nat → UInt64 → List UInt8 → Option Nat
  | _, _, [] => none
  | idx, hash, byte :: bytes =>
    let hash := (hash * 0x01000193) ^^^ byte.toUInt64
    if hash &&& mask config ncLevel idx = 0 then some (idx + 1)
    else scan ncLevel (idx + 1) hash bytes

def findBoundary (data : List UInt8) : Nat :=
  let maxScan := if config.maxChunkSize ≤ data.length then config.maxChunkSize else data.length
  let minSize := if config.minChunkSize ≤ data.length then config.minChunkSize else data.length
  let ncLevel := minSize + (config.targetChunkSize - minSize) / 4
  (scan config ncLevel minSize 0 ((data.take maxScan).drop minSize)).getD maxScan

/-- The loop of `chunk` over the data from `start` on; each round takes a byte at least. -/
def chunkLoop : Nat → List UInt8 → List (List UInt8)
  | 0, _ => []
  | fuel + 1, data =>
    if data = [] then []
    else if data.length ≤ config.minChunkSize then [data]
    else
      let boundary := findBoundary config data
      data.take boundary :: chunkLoop fuel (data.drop boundary)

def chunk (data : List UInt8) : List (List UInt8) :=
  if data.length ≤ config.minChunkSize then [data] else chunkLoop config data.length data

variable {config}

theorem scan_bounds {ncLevel : Nat} : ∀ {idx : Nat} {hash : UInt64} {bytes : List UInt8} {n : Nat},
    scan config ncLevel idx hash bytes = some n → idx < n ∧ n ≤ idx + bytes.length
  | _, _, [], _, h => by cases h
  | idx, hash, byte :: bytes, n, h => by
    simp only [scan] at h
    rw [List.length_cons]
    split at h
    · cases h
      omega
    · have := scan_bounds h
      omega

theorem findBoundary_bounds {data : List UInt8} (h : config.minChunkSize < data.length) :
    0 < findBoundary config data ∧ findBoundary config data ≤ data.length := by
  have hmin := config.min_pos
  have hmax := config.min_le_target.trans config.target_le_max
  simp only [findBoundary]
  cases hscan : scan config _ _ 0 _ with
  | none =>
    rw [Option.getD_none]
    split <;> omega
  | some n =>
    have hn := scan_bounds hscan
    rw [List.length_drop, List.length_take] at hn
    rw [Option.getD_some]
    omega

theorem chunkLoop_flatten : ∀ {fuel : Nat} {data : List UInt8}, data.length ≤ fuel →
    (chunkLoop config fuel data).flatten = data
  | 0, data, h => by rw [List.eq_nil_of_length_eq_zero (Nat.le_zero.mp h)]; rfl
  | fuel + 1, data, h => by
    rw [chunkLoop]
    split
    · next hempty => rw [hempty, List.flatten_nil]
    · split
      · simp
      · next hlong =>
        have hbounds := findBoundary_bounds (Nat.lt_of_not_le hlong)
        rw [List.flatten_cons, chunkLoop_flatten, List.take_append_drop]
        rw [List.length_drop]
        omega

theorem chunkLoop_ne_nil : ∀ {fuel : Nat} {data chunk : List UInt8},
    chunk ∈ chunkLoop config fuel data → chunk ≠ []
  | 0, _, _, h => by cases h
  | fuel + 1, data, chunk, h => by
    rw [chunkLoop] at h
    split at h
    · cases h
    · next hne =>
      split at h
      · rwa [List.mem_singleton.mp h]
      · next hlong =>
        have hbounds := findBoundary_bounds (Nat.lt_of_not_le hlong)
        rcases List.mem_cons.mp h with rfl | h
        · rw [Ne, List.take_eq_nil_iff]
          rintro (hzero | hnil)
          · omega
          · exact hne hnil
        · exact chunkLoop_ne_nil h

variable (config) in
/-- The chunks make up the data. -/
theorem chunk_flatten (data : List UInt8) : (chunk config data).flatten = data := by
  rw [chunk]
  split
  · simp
  · exact chunkLoop_flatten (Nat.le_refl _)

theorem chunk_ne_nil {data piece : List UInt8} (hdata : data ≠ []) (h : piece ∈ chunk config data) :
    piece ≠ [] := by
  rw [chunk] at h
  split at h
  · rwa [List.mem_singleton.mp h]
  · exact chunkLoop_ne_nil h

/-- The chunks of a block are blocks themselves. -/
theorem new_of_mem_chunk [CidCrate] {b : Block} (hb : Block.new b.data = .ok b) {piece : List UInt8}
    (h : piece ∈ chunk config b.data) :
    Block.new piece = .ok { cid := cidOf codecRaw piece, data := piece } := by
  obtain ⟨⟨hmin, hmax⟩, -⟩ := Block.new_eq_ok.mp hb
  have hdata : b.data ≠ [] := by
    intro hempty
    rw [hempty] at hmin
    cases hmin
  refine Block.new_eq_ok.mpr ⟨⟨?_, ?_⟩, rfl⟩
  · exact List.length_pos_iff.mpr (chunk_ne_nil hdata h)
  · refine Nat.le_trans ?_ hmax
    rw [← chunk_flatten config b.data]
    exact (List.sublist_flatten_of_mem h).length_le

end Chunker

/-! ## The store and its calls -/

structure ChunkMeta where
  cid : Cid
  refCount : Nat
  deriving DecidableEq

structure BlockManifest where
  chunks : List Cid
  deriving DecidableEq

abbrev ChunkIndex := AList (fun _ : Cid => ChunkMeta)

structure DedupBlockStore (C : Type) where
  inner : C
  config : ChunkingConfig
  chunkIndex : ChunkIndex
  manifests : AList (fun _ : Cid => BlockManifest)

inductive DedupCall
  | put (b : Block)
  | get (cid : Cid)
  | delete (cid : Cid)
  deriving DecidableEq

inductive DedupAnswer
  | done
  | block (r : Option Block)
  deriving DecidableEq

/-- A call is at one of its await points, before or after the work of the store below;
or the code has returned, or it has failed with an error of the store below. A put has
`done` behind it and `rest` before it. -/
inductive DedupTask
  | putting (b : Block) (done : List Cid) (chunk : Block) (rest : List (List UInt8))
  | stored (b : Block) (done : List Cid) (chunk : Block) (rest : List (List UInt8))
  | reading (cid chunk : Cid) (rest : List Cid) (data : List UInt8)
  | deleting (cid chunk : Cid) (rest : List Cid)
  | deleted (cid : Cid) (rest : List Cid)
  | returned (call : DedupCall) (a : Except Error DedupAnswer)
  | failed (call : DedupCall) (e : Error)
  deriving DecidableEq

namespace DedupTask

def call : DedupTask → DedupCall
  | putting b _ _ _ => .put b
  | stored b _ _ _ => .put b
  | reading cid _ _ _ => .get cid
  | deleting cid _ _ => .delete cid
  | deleted cid _ => .delete cid
  | returned call _ => call
  | failed call _ => call

def isOver : DedupTask → Bool
  | returned _ _ => true
  | failed _ _ => true
  | _ => false

end DedupTask

namespace DedupBlockStore

variable {C : Type}

def new (inner : C) (config : ChunkingConfig) : DedupBlockStore C :=
  { inner, config, chunkIndex := ∅, manifests := ∅ }

/-- The rest of the loop of `put`, up to the next await point of `store_chunk`. -/
def storeChunks [CidCrate] (b : Block) : List Cid → List (List UInt8) → DedupBlockStore C →
    DedupTask × DedupBlockStore C
  | done, [], s =>
    (.returned (.put b) (.ok .done),
      { s with manifests := s.manifests.insert b.cid { chunks := done } })
  | done, piece :: rest, s =>
    match Block.new piece with
    | .error e => (.returned (.put b) (.error e), s)
    | .ok chunk =>
      match s.chunkIndex.lookup chunk.cid with
      | some entry =>
        storeChunks b (done ++ [entry.cid]) rest
          { s with
            chunkIndex :=
              s.chunkIndex.insert chunk.cid { entry with refCount := entry.refCount + 1 } }
      | none => (.putting b done chunk rest, s)

/-- `reconstruct_block` from the next chunk on, up to its await point. -/
def reconstruct [CidCrate] (cid : Cid) (chunks : List Cid) (data : List UInt8) : DedupTask :=
  match chunks with
  | [] => .returned (.get cid) ((Block.new data).map (fun b => .block (some b)))
  | chunk :: rest => .reading cid chunk rest data

/-- The first loop of `decrement_chunk_refs`: the index counted down and `to_delete`. -/
def release : List Cid → ChunkIndex → ChunkIndex × List Cid
  | [], index => (index, [])
  | c :: cids, index =>
    match index.lookup c with
    | none => release cids index
    | some entry =>
      let refCount := entry.refCount - 1
      let r := release cids (index.insert c { entry with refCount })
      (r.1, if refCount = 0 then c :: r.2 else r.2)

/-- The rest of the second loop, up to its next await point. -/
def removeChunks (cid : Cid) : List Cid → DedupBlockStore C → DedupTask × DedupBlockStore C
  | [], s => (.returned (.delete cid) (.ok .done), s)
  | c :: rest, s =>
    match s.chunkIndex.lookup c with
    | none => removeChunks cid rest s
    | some _ => (.deleting cid c rest, { s with chunkIndex := s.chunkIndex.erase c })

/-- Up to the first await point. -/
def start [CidCrate] (call : DedupCall) (s : DedupBlockStore C) : DedupTask × DedupBlockStore C :=
  match call with
  | .put b =>
    match s.manifests.lookup b.cid with
    | some _ => (.returned call (.ok .done), s)
    | none => storeChunks b [] (Chunker.chunk s.config b.data) s
  | .get cid =>
    match s.manifests.lookup cid with
    | none => (.returned call (.ok (.block none)), s)
    | some manifest => (reconstruct cid manifest.chunks [], s)
  | .delete cid =>
    match s.manifests.lookup cid with
    | none => (.returned call (.ok .done), s)
    | some manifest =>
      let r := release manifest.chunks s.chunkIndex
      removeChunks cid r.2 { s with manifests := s.manifests.erase cid, chunkIndex := r.1 }

/-- The work of the store below, and what the task does with its answer. -/
def asks {α : Type} (t : DedupTask) (m : EStateM Error C α) (next : α → DedupTask)
    (s : DedupBlockStore C) : DedupTask × DedupBlockStore C :=
  match m s.inner with
  | .ok a inner => (next a, { s with inner })
  | .error e inner => (.failed t.call e, { s with inner })

def resume [BlockStore C] [CidCrate] (t : DedupTask) (s : DedupBlockStore C) :
    DedupTask × DedupBlockStore C :=
  match t with
  | .putting b done chunk rest =>
    asks t (ColdStore.put chunk) (fun _ => .stored b done chunk rest) s
  | .stored b done chunk rest =>
    storeChunks b (done ++ [chunk.cid]) rest
      { s with
        chunkIndex := s.chunkIndex.insert chunk.cid { cid := chunk.cid, refCount := 1 } }
  | .reading cid chunk rest data =>
    asks t (ColdStore.get chunk) (fun r =>
      match r with
      | some b => reconstruct cid rest (data ++ b.data)
      | none => .returned (.get cid) (.error (.blockNotFound chunk))) s
  | .deleting cid chunk rest => asks t (ColdStore.delete chunk) (fun _ => .deleted cid rest) s
  | .deleted cid rest => removeChunks cid rest s
  | .returned _ _ | .failed _ _ => (t, s)

def machine [BlockStore C] [CidCrate] : Machine (DedupBlockStore C) DedupCall DedupTask where
  start := start
  resume := resume

end DedupBlockStore

end Ipfrs.Storage
