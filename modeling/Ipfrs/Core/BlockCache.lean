/-
Ipfrs.Core.BlockCache — the LRU cache for blocks (`block_cache.rs`).

Every method takes the lock, so the cache is a state that calls change one after the
other. The recency of a block is the length of `lru_list` when it was last used. Where the
least recent block is looked for the map is iterated over in no fixed order: `HashOrder`
gives one for each content and each number of evictions so far, so that no two evictions
need iterate alike. `min_by_key` takes the first of several minima.

The statistics are counters without an upper bound.
-/
import Ipfrs.Core.Block
import Mathlib.Data.List.AList
import Mathlib.Data.List.MinMax

namespace Ipfrs.Core

/-- `CacheEntry`. -/
structure CacheEntry where
  block : Block
  size : Nat
  lastAccessIndex : Nat
  deriving DecidableEq

/-- `CacheStats`. -/
structure CacheStats where
  hits : Nat := 0
  misses : Nat := 0
  evictions : Nat := 0
  deriving DecidableEq

/-- `HashMap<Cid, CacheEntry>`. -/
abbrev CacheBlocks := AList (fun _ : Cid => CacheEntry)

/-- An iteration over the map. -/
abbrev CacheIteration := List (Sigma (fun _ : Cid => CacheEntry))

/-- The order in which the map is iterated over. -/
structure HashOrder where
  order : CacheBlocks → Nat → CacheIteration
  perm : ∀ blocks n, (order blocks n).Perm blocks.entries

/-- `BlockCacheInner`. -/
structure BlockCache where
  blocks : CacheBlocks
  lruList : List Cid
  maxSizeBytes : Nat
  maxBlocks : Option Nat
  currentSize : Nat
  stats : CacheStats

namespace BlockCache

def new (maxSizeBytes : Nat) (maxBlocks : Option Nat) : BlockCache where
  blocks := ∅
  lruList := []
  maxSizeBytes
  maxBlocks
  currentSize := 0
  stats := {}

def len (c : BlockCache) : Nat := c.blocks.keys.length

def size (c : BlockCache) : Nat := c.currentSize

def contains (c : BlockCache) (cid : Cid) : Bool := decide (cid ∈ c.blocks)

/-- `would_exceed_limits`. -/
def wouldExceedLimits (c : BlockCache) (additionalSize : Nat) : Bool :=
  let sizeExceeded := decide (c.currentSize + additionalSize > c.maxSizeBytes)
  let countExceeded :=
    match c.maxBlocks with
    | some max => decide (c.len ≥ max)
    | none => false
  sizeExceeded || countExceeded

/-- The block `evict_lru` takes when it iterates over the map in the given order. -/
def lruCid (c : BlockCache) (iteration : CacheIteration) : Option Cid :=
  if c.lruList.isEmpty then none
  else (iteration.argmin (fun e => e.2.lastAccessIndex)).map Sigma.fst

/-- The cache without a block. `position` finds the first place in `lru_list` only. -/
def take (c : BlockCache) (cid : Cid) (entry : CacheEntry) : BlockCache :=
  { c with
    blocks := c.blocks.erase cid
    currentSize := c.currentSize - entry.size
    lruList := c.lruList.erase cid }

/-- `evict_lru`. -/
def evictLru (c : BlockCache) (iteration : CacheIteration) : BlockCache :=
  match c.lruCid iteration with
  | none => c
  | some cid =>
    match c.blocks.lookup cid with
    | none => c
    | some entry =>
      let c := { c with stats := { c.stats with evictions := c.stats.evictions + 1 } }
      c.take cid entry

/-- `update_access`. -/
def updateAccess (c : BlockCache) (cid : Cid) : BlockCache :=
  match c.blocks.lookup cid with
  | none => c
  | some entry =>
    { c with
      blocks := c.blocks.insert cid { entry with lastAccessIndex := c.lruList.length }
      lruList := c.lruList ++ [cid] }

variable (hashing : HashOrder)

/-- The iteration of the next eviction. -/
def iteration (c : BlockCache) : CacheIteration := hashing.order c.blocks c.stats.evictions

/-- The loop of `insert`, with a number of rounds that suffices. -/
def evictLoop (size : Nat) : Nat → BlockCache → BlockCache
  | 0, c => c
  | rounds + 1, c =>
    if c.wouldExceedLimits size && !c.blocks.keys.isEmpty then
      evictLoop size rounds (c.evictLru (c.iteration hashing))
    else c

/-- The end of `insert`. -/
def insertNew (c : BlockCache) (block : Block) : BlockCache :=
  { c with
    blocks := c.blocks.insert block.cid
      { block, size := block.data.length, lastAccessIndex := c.lruList.length }
    lruList := c.lruList ++ [block.cid]
    currentSize := c.currentSize + block.data.length }

def insert (c : BlockCache) (block : Block) : BlockCache :=
  if c.contains block.cid then c.updateAccess block.cid
  else (evictLoop hashing block.data.length c.len c).insertNew block

def get (c : BlockCache) (cid : Cid) : Option Block × BlockCache :=
  match c.blocks.lookup cid with
  | some entry =>
    let c := { c with stats := { c.stats with hits := c.stats.hits + 1 } }
    (some entry.block, c.updateAccess cid)
  | none => (none, { c with stats := { c.stats with misses := c.stats.misses + 1 } })

def remove (c : BlockCache) (cid : Cid) : Option Block × BlockCache :=
  match c.blocks.lookup cid with
  | some entry => (some entry.block, c.take cid entry)
  | none => (none, c)

def clear (c : BlockCache) : BlockCache :=
  { c with blocks := ∅, lruList := [], currentSize := 0 }

/-- A call. -/
inductive Op where
  | insert (block : Block)
  | get (cid : Cid)
  | contains (cid : Cid)
  | remove (cid : Cid)
  | clear

/-- The cache after a call. -/
def apply (c : BlockCache) : Op → BlockCache
  | .insert block => c.insert hashing block
  | .get cid => (c.get cid).2
  | .contains _ => c
  | .remove cid => (c.remove cid).2
  | .clear => c.clear

/-- The cache after a sequence of calls. -/
def run (c : BlockCache) (ops : List Op) : BlockCache := ops.foldl (apply hashing) c

end BlockCache

end Ipfrs.Core
