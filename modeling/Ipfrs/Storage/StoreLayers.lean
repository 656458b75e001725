/-
Ipfrs.Storage.StoreLayers — the three wrappers answer as the store below them, and where
they do not.

A rebuild clears the filter before it lists the store, so a listing that fails leaves a
filter that denies what the store holds; a tiered write caches its block before the
store has taken it, so a write that fails leaves a block that the store does not hold.
Otherwise every answer is the answer of the store.
-/
import Ipfrs.Storage.Bloom
import Ipfrs.Storage.BlockCache
import Ipfrs.Storage.TieredCache

namespace Ipfrs.Storage

open Ipfrs.Core Ipfrs.Lib
open Ipfrs.Lib.Service (Meets Answered)
open Ipfrs.Knowledge.ColdStore.Faithful (lookup)

/-- Right answers of a wrapper around the store in a part of its state. -/
abbrev RightAt {C W : Type} [BlockStore C] [BlockStore.Faithful C] (store : W → C) (s : W) :
    Request → Answer → Prop :=
  Content.Right (lookup (store s))

section

variable {C Rep RepT : Type} [CidCrate] [BlockStore C] [BlockStore.Faithful C]
  {lru : Lru Rep Cid (List UInt8)} {lruT : Lru RepT Cid Block}

/-- Whatever calls of the store fail, the answers are the store's, if a rebuild that fails
is one of an empty store and a tiered write that fails is one of a block that the store
holds. -/
theorem layers_answered (hl : lru.Lawful) (hf : lru.Forgets) (hlT : lruT.Lawful)
    (hfT : lruT.Forgets) (pushing : lruT.Pushing) (dataOf : Cid → List UInt8) (rs : List Request) :
    (∀ s : BloomBlockStore C, BloomBlockStore.Start s →
      Meets BloomBlockStore.perform BloomBlockStore.Rebuilds rs s →
      Answered BloomBlockStore.perform (RightAt BloomBlockStore.store) rs s) ∧
    (∀ (inner : C) (config : CacheConfig), Content.Named dataOf (lookup inner) →
      Meets (CachedBlockStore.perform lru) (fun _ => CachedBlockStore.Honest dataOf) rs
        (CachedBlockStore.new lru inner config) →
      Answered (CachedBlockStore.perform lru) (RightAt CachedBlockStore.inner) rs
        (CachedBlockStore.new lru inner config)) ∧
    (∀ (store : C) (l1Capacity l2Capacity : Nat), Content.Named dataOf (lookup store) →
      Meets (TieredCachedBlockStore.perform lruT pushing)
        (TieredCachedBlockStore.Safe pushing dataOf) rs
        (TieredCachedBlockStore.new lruT store l1Capacity l2Capacity) →
      Answered (TieredCachedBlockStore.perform lruT pushing)
        (RightAt TieredCachedBlockStore.store) rs
        (TieredCachedBlockStore.new lruT store l1Capacity l2Capacity)) := by
  refine ⟨?_, ?_, ?_⟩
  · intro s hstart hmeets
    exact BloomBlockStore.answered hstart hmeets
  · intro inner config hnamed hmeets
    exact CachedBlockStore.answered hl hf config hnamed hmeets
  · intro store l1Capacity l2Capacity hnamed hmeets
    exact TieredCachedBlockStore.answered hlT hfT l1Capacity l2Capacity hnamed hmeets

end

/-! ## One block and one fault -/

namespace LayerSample

open scoped CidFormat

def block : Block := { cid := cidOf codecRaw [1], data := [1] }

/-- A store that holds the block, and some of whose calls fail. -/
def held (faults : List Bool) : FaultyStore := { blocks := [block], faults }

def config : BloomConfig := { numHashes := 3, numBits := 100, numBits_pos := by decide }

/-- Bounded maps by recency. -/
def dataLru : Lru (Recency Cid (List UInt8)) Cid (List UInt8) := recency Cid (List UInt8)

def blockLru : Lru (Recency Cid Block) Cid Block := recency Cid Block

/-- The filter is rebuilt once; a second rebuild fails. -/
def filtered : BloomBlockStore FaultyStore :=
  finalState
    (BloomBlockStore.rebuildFilter (BloomBlockStore.withConfig (held [false, true]) config))

theorem filtered_start : BloomBlockStore.Start filtered :=
  BloomBlockStore.Start.rebuilt (held [false, true]) config filtered rfl

def cached : CachedBlockStore FaultyStore (Recency Cid (List UInt8)) :=
  CachedBlockStore.new dataLru (held [true]) { l1Capacity := 1, maxBlockBytes := 10 }

def tiered (store : FaultyStore) : TieredCachedBlockStore FaultyStore (Recency Cid Block) :=
  TieredCachedBlockStore.new blockLru store 1 1

theorem held_named (faults : List Bool) : Content.Named (fun _ => [1]) (lookup (held faults)) := by
  intro cid data h
  obtain ⟨b, hb, rfl⟩ := Option.map_eq_some_iff.mp h
  have hmem : b ∈ [block] := List.mem_of_find?_eq_some hb
  rw [List.mem_singleton] at hmem
  rw [hmem]
  rfl

/-- A read after a write of the block that fails below. -/
theorem layers_answered_block : Answered BloomBlockStore.perform (RightAt BloomBlockStore.store)
        [.put block, .get block.cid] filtered ∧
      Answered (CachedBlockStore.perform dataLru) (RightAt CachedBlockStore.inner)
        [.put block, .get block.cid] cached ∧
      Answered (TieredCachedBlockStore.perform blockLru (recencyPushing Cid Block))
        (RightAt TieredCachedBlockStore.store) [.put block, .get block.cid]
        (tiered (held [true])) := by
  obtain ⟨hbloom, hcached, htiered⟩ :=
    layers_answered (C := FaultyStore) (recency_lawful Cid (List UInt8))
      (recency_forgets Cid (List UInt8)) (recency_lawful Cid Block) (recency_forgets Cid Block)
      (recencyPushing Cid Block) (fun _ => [1]) [.put block, .get block.cid]
  refine ⟨?_, ?_, ?_⟩
  · exact hbloom filtered filtered_start ⟨trivial, trivial, trivial⟩
  · exact hcached _ _ (held_named [true]) ⟨rfl, trivial, trivial⟩
  · exact htiered _ 1 1 (held_named [true]) ⟨⟨rfl, .inr (by decide +kernel)⟩, trivial, trivial⟩

/-- After a rebuild that failed the filter denies a block that the store holds, and after a
write that failed the tiers answer with a block that it does not hold. -/
theorem not_layers_answered : ¬ Answered BloomBlockStore.perform (RightAt BloomBlockStore.store)
        [.rebuildFilter, .get block.cid] filtered ∧
      ¬ Answered (TieredCachedBlockStore.perform blockLru (recencyPushing Cid Block))
        (RightAt TieredCachedBlockStore.store) [.put block, .get block.cid]
        (tiered { blocks := [], faults := [true] }) := by
  constructor
  · intro h
    have hrun : (match BloomBlockStore.perform (.get block.cid)
        (Service.after BloomBlockStore.perform [.rebuildFilter] filtered) with
      | .ok a _ => decide (a = .block none)
      | .error _ _ => false) = true := by decide +kernel
    split at hrun
    · next a s' hs' =>
      have hright := h [.rebuildFilter] (.get block.cid) [] a s' rfl hs' (.block (some block))
        (by decide +kernel)
      rw [of_decide_eq_true hrun] at hright
      cases hright
    · cases hrun
  · intro h
    have hrun : (match TieredCachedBlockStore.perform blockLru (recencyPushing Cid Block)
        (.get block.cid) (Service.after (TieredCachedBlockStore.perform blockLru
          (recencyPushing Cid Block)) [.put block] (tiered { blocks := [], faults := [true] })) with
      | .ok a _ => decide (a = .block (some block))
      | .error _ _ => false) = true := by decide +kernel
    split at hrun
    · next a s' hs' =>
      have hright := h [.put block] (.get block.cid) [] a s' rfl hs' (.block none)
        (by decide)
      rw [of_decide_eq_true hrun] at hright
      cases hright
    · cases hrun

end LayerSample

end Ipfrs.Storage
