/-
Ipfrs.Storage.BlockCache — a cache in front of a store (`CachedBlockStore` of `cache.rs`).

A write goes to the store first and then into the cache, if the block is small enough; a
read that misses the cache asks the store and fills the cache; a delete empties the
cache first. The cache is any bounded map that forgets what it is told to forget. Its
keys are identifiers: they are printed in the source, and no two print alike.

The counters of `CacheStats` are left out: no answer depends on them.
-/
import Ipfrs.Storage.BlockStore
import Ipfrs.Lib.Lru
import Ipfrs.Lib.Pooled

namespace Ipfrs.Storage

open Ipfrs.Core Ipfrs.Lib
open Ipfrs.Knowledge (ColdStore)
open Ipfrs.Knowledge.ColdStore.Faithful (lookup)

structure CacheConfig where
  l1Capacity : ℕ+
  maxBlockBytes : Nat

structure CachedBlockStore (C Rep : Type) where
  inner : C
  cache : Rep
  maxBlockBytes : Nat

namespace CachedBlockStore

section Parts

variable {C Rep : Type} (lru : Lru Rep Cid (List UInt8))

/-! ## What is done under the lock of the cache -/

def new (inner : C) (config : CacheConfig) : CachedBlockStore C Rep :=
  { inner, cache := lru.new config.l1Capacity, maxBlockBytes := config.maxBlockBytes }

def l1Insert (cid : Cid) (data : List UInt8) (s : CachedBlockStore C Rep) :
    CachedBlockStore C Rep :=
  { s with cache := lru.put s.cache cid data }

/-- A block goes into the cache if it fits. -/
def promote (s : CachedBlockStore C Rep) (b : Block) : CachedBlockStore C Rep :=
  if b.data.length ≤ s.maxBlockBytes then l1Insert lru b.cid b.data s else s

def l1Peek (cid : Cid) (s : CachedBlockStore C Rep) :
    Option (List UInt8) × CachedBlockStore C Rep :=
  let (hit, cache) := lru.get s.cache cid
  (hit, { s with cache })

/-- All lookups of a batch under one lock. -/
def l1PeekMany : List Cid → CachedBlockStore C Rep →
    List (Option (List UInt8)) × CachedBlockStore C Rep
  | [], s => ([], s)
  | cid :: cids, s =>
    let (hit, s) := l1Peek lru cid s
    let (hits, s) := l1PeekMany cids s
    (hit :: hits, s)

def contains (s : CachedBlockStore C Rep) (cid : Cid) : Bool := (lru.lookup s.cache cid).isSome

def invalidate (cid : Cid) (s : CachedBlockStore C Rep) : CachedBlockStore C Rep :=
  { s with cache := (lru.pop s.cache cid).2 }

/-- The map that `clear` leaves is as new. -/
def clearCache (s : CachedBlockStore C Rep) : CachedBlockStore C Rep :=
  { s with cache := lru.new (lru.cap s.cache) }

/-- The block of a hit. -/
def hitBlock (x : Cid × Option (List UInt8)) : Option Block :=
  x.2.map (fun data => { cid := x.1, data })

/-- What a batch did not find, with the places. -/
def misses (cids : List Cid) (hits : List (Option (List UInt8))) :
    List ((Cid × Option (List UInt8)) × Nat) :=
  PutBack.rest (fun x => x.2.isNone) (cids.zip hits)

/-- The fetched blocks go into the cache one after the other. -/
def fill (pairs : List (Nat × Option Block)) (s : CachedBlockStore C Rep) :
    CachedBlockStore C Rep :=
  (pairs.filterMap Prod.snd).foldl (promote lru) s

end Parts

/-! ## The operations -/

section Operations

variable {C Rep : Type} [BlockStore C] (lru : Lru Rep Cid (List UInt8))

omit [BlockStore C] in
/-- A call of the store below. -/
def below {α : Type} (m : EStateM Error C α) : EStateM Error (CachedBlockStore C Rep) α :=
  zoom CachedBlockStore.inner (fun inner s => { s with inner }) m

def put (b : Block) : EStateM Error (CachedBlockStore C Rep) Unit := do
  below (ColdStore.put b)
  modify (fun s => promote lru s b)

def putMany (blocks : List Block) : EStateM Error (CachedBlockStore C Rep) Unit := do
  below (BlockStore.putMany blocks)
  modify (fun s => blocks.foldl (promote lru) s)

def get (cid : Cid) : EStateM Error (CachedBlockStore C Rep) (Option Block) := do
  match ← modifyGet (l1Peek lru cid) with
  | some data => pure (some { cid, data })
  | none =>
    match ← below (ColdStore.get cid) with
    | some b => do
      modify (fun s =>
        if b.data.length ≤ s.maxBlockBytes then l1Insert lru cid b.data s else s)
      pure (some b)
    | none => pure none

def getMany (cids : List Cid) : EStateM Error (CachedBlockStore C Rep) (List (Option Block)) := do
  let hits ← modifyGet (l1PeekMany lru cids)
  let results := (cids.zip hits).map hitBlock
  let missed := misses cids hits
  if missed.isEmpty then pure results
  else do
    let fetched ← below (BlockStore.getMany (missed.map (fun x => x.1.1)))
    let pairs := (missed.map Prod.snd).zip fetched
    modify (fill lru pairs)
    pure (PutBack.putBack results (pairs.map (fun x => (x.1, x.2.map some))))

def has (cid : Cid) : EStateM Error (CachedBlockStore C Rep) Bool := do
  let s ← MonadState.get
  if contains lru s cid then pure true else below (BlockStore.has cid)

def hasMany (cids : List Cid) : EStateM Error (CachedBlockStore C Rep) (List Bool) := do
  let s ← MonadState.get
  let results := cids.map (contains lru s)
  let missed := PutBack.rest (fun cid => !contains lru s cid) cids
  if missed.isEmpty then pure results
  else do
    let storeResults ← below (BlockStore.hasMany (missed.map Prod.fst))
    pure (PutBack.putBack results ((missed.map Prod.snd).zip (storeResults.map some)))

def delete (cid : Cid) : EStateM Error (CachedBlockStore C Rep) Unit := do
  modify (invalidate lru cid)
  below (ColdStore.delete cid)

def deleteMany (cids : List Cid) : EStateM Error (CachedBlockStore C Rep) Unit := do
  modify (fun s => cids.foldl (fun s cid => invalidate lru cid s) s)
  below (BlockStore.deleteMany cids)

def perform : Request → EStateM Error (CachedBlockStore C Rep) Answer
  | .put b => do put lru b; pure .done
  | .putMany blocks => do putMany lru blocks; pure .done
  | .get cid => do pure (.block (← get lru cid))
  | .getMany cids => do pure (.blocks (← getMany lru cids))
  | .has cid => do pure (.present (← has lru cid))
  | .hasMany cids => do pure (.presents (← hasMany lru cids))
  | .delete cid => do delete lru cid; pure .done
  | .deleteMany cids => do deleteMany lru cids; pure .done
  | .rebuildFilter => pure .done
  | .clearCache => do modify (clearCache lru); pure .done

end Operations

/-! ## Its answers -/

section Answers

variable {C Rep : Type} [BlockStore C] [BlockStore.Faithful C] {lru : Lru Rep Cid (List UInt8)}
  {dataOf : Cid → List UInt8} {s : CachedBlockStore C Rep}

/-- What is cached the store holds, and identifiers name what it holds. -/
structure Coherent (lru : Lru Rep Cid (List UInt8)) (dataOf : Cid → List UInt8)
    (s : CachedBlockStore C Rep) : Prop where
  cached : lru.All (fun cid data => lookup s.inner cid = some data) s.cache
  named : Content.Named dataOf (lookup s.inner)

namespace Coherent

theorem hit (hs : Coherent lru dataOf s) {cid : Cid} {data : List UInt8}
    (h : lru.lookup s.cache cid = some data) :
    Content.get (lookup s.inner) cid = some { cid, data } := by
  rw [Content.get, hs.cached cid data h, Option.map_some]

/-- A cache with the same entries. -/
theorem of_lookup (hs : Coherent lru dataOf s) {cache : Rep}
    (h : ∀ cid, lru.lookup cache cid = lru.lookup s.cache cid) :
    Coherent lru dataOf { s with cache } := by
  refine ⟨fun cid data hc => ?_, hs.named⟩
  rw [h] at hc
  exact hs.cached cid data hc

/-- Another state of the store with the same map. -/
theorem of_inner (hs : Coherent lru dataOf s) {inner : C} (h : lookup inner = lookup s.inner) :
    Coherent lru dataOf { s with inner } := by
  refine ⟨fun cid data hc => ?_, ?_⟩
  · rw [h]
    exact hs.cached cid data hc
  · rw [h]
    exact hs.named

theorem promote (hs : Coherent lru dataOf s) (hl : lru.Lawful) {b : Block}
    (hb : lookup s.inner b.cid = some b.data) :
    Coherent lru dataOf (CachedBlockStore.promote lru s b) := by
  unfold CachedBlockStore.promote
  split
  · exact ⟨hs.cached.put hl hb (fun _ _ _ h => h), hs.named⟩
  · exact hs

end Coherent

omit [BlockStore C] [BlockStore.Faithful C] in
theorem promote_inner (b : Block) : (promote lru s b).inner = s.inner := by
  unfold promote
  split <;> rfl

/-- Blocks that the store holds may go into the cache. -/
theorem foldl_promote (hl : lru.Lawful) : ∀ (blocks : List Block) {s : CachedBlockStore C Rep},
    Coherent lru dataOf s → (∀ b ∈ blocks, lookup s.inner b.cid = some b.data) →
      Coherent lru dataOf (blocks.foldl (promote lru) s)
        ∧ (blocks.foldl (promote lru) s).inner = s.inner
  | [], _, hs, _ => ⟨hs, rfl⟩
  | b :: blocks, s, hs, hb => by
    rw [List.forall_mem_cons] at hb
    rw [List.foldl_cons, ← promote_inner (s := s) b]
    refine foldl_promote hl blocks (hs.promote hl hb.1) (fun b' hb' => ?_)
    rw [promote_inner]
    exact hb.2 b' hb'

omit [BlockStore C] [BlockStore.Faithful C] in
/-- The lookups of a batch find what single ones find, and change no entry. -/
theorem l1PeekMany_spec (hl : lru.Lawful) : ∀ (cids : List Cid) (s : CachedBlockStore C Rep),
    ∃ cache, l1PeekMany lru cids s = (cids.map (lru.lookup s.cache), { s with cache })
      ∧ ∀ cid, lru.lookup cache cid = lru.lookup s.cache cid
  | [], s => ⟨s.cache, rfl, fun _ => rfl⟩
  | cid :: cids, s => by
    obtain ⟨cache, hrun, hsame⟩ := l1PeekMany_spec hl cids (l1Peek lru cid s).2
    have htouched : lru.lookup (l1Peek lru cid s).2.cache = lru.lookup s.cache :=
      funext (hl.lookup_get s.cache cid)
    refine ⟨cache, ?_, fun c => ?_⟩
    · show ((l1Peek lru cid s).1 :: (l1PeekMany lru cids (l1Peek lru cid s).2).1,
        (l1PeekMany lru cids (l1Peek lru cid s).2).2) = _
      rw [hrun, htouched]
      rfl
    · rw [hsame, htouched]

theorem below_reads {α : Type} {m : EStateM Error C α} {g : Content → α}
    (hm : ∀ c, Ends m c (fun a c' => a = g (lookup c) ∧ lookup c' = lookup c)
      (fun c' => lookup c' = lookup c)) :
    Reads (@CachedBlockStore.inner C Rep) (Coherent lru dataOf) (below m) g :=
  Reads.zoom (fun _ _ => rfl) (fun _ _ hs hc => hs.of_inner hc) hm

theorem get_reads (hl : lru.Lawful) (cid : Cid) :
    Reads CachedBlockStore.inner (Coherent (C := C) lru dataOf) (get lru cid)
      (fun m => Content.get m cid) := by
  intro s hs
  apply Ends.modifyGet_bind
  have hpeek : Coherent lru dataOf (l1Peek lru cid s).2 := hs.of_lookup (hl.lookup_get s.cache cid)
  cases hit : lru.lookup s.cache cid with
  | some data =>
    rw [show (l1Peek lru cid s).1 = some data from hit]
    exact Ends.pure ⟨(hs.hit hit).symm, rfl, hpeek⟩
  | none =>
    rw [show (l1Peek lru cid s).1 = none from hit]
    refine Ends.bind (P := fun r s' => r = Content.get (lookup s.inner) cid
        ∧ Same CachedBlockStore.inner (Coherent lru dataOf) s s')
      (below_reads (g := fun m => Content.get m cid) (Storage.get_ends cid) _ hpeek) ?_
    rintro r s' ⟨hr, hsame⟩
    cases r with
    | none => exact Ends.pure ⟨hr, hsame⟩
    | some b =>
      obtain ⟨rfl, hheld⟩ := Content.get_eq_some hr.symm
      rw [← hsame.1] at hheld
      refine Ends.modify_bind (Ends.pure ⟨hr, ?_⟩)
      show Same _ _ s (promote lru s' b)
      refine ⟨?_, hsame.2.promote hl hheld⟩
      rw [promote_inner]
      exact hsame.1

theorem has_reads (cid : Cid) :
    Reads CachedBlockStore.inner (Coherent (C := C) lru dataOf) (has lru cid)
      (fun m => Content.has m cid) := by
  intro s hs
  apply Ends.get_bind
  cases hit : lru.lookup s.cache cid with
  | some data =>
    rw [show contains lru s cid = true by rw [contains, hit, Option.isSome_some]]
    refine Ends.pure ⟨?_, rfl, hs⟩
    show true = (lookup s.inner cid).isSome
    rw [hs.cached cid data hit, Option.isSome_some]
  | none =>
    rw [show contains lru s cid = false by rw [contains, hit, Option.isSome_none]]
    exact below_reads (g := fun m => Content.has m cid) (Storage.has_ends cid) s hs

theorem hasMany_reads (cids : List Cid) :
    Reads CachedBlockStore.inner (Coherent (C := C) lru dataOf) (hasMany lru cids)
      (fun m => cids.map (Content.has m)) := by
  intro s hs
  apply Ends.get_bind
  have hanswer : cids.map (fun cid => if (!contains lru s cid) = true then
        (some (Content.has (lookup s.inner) cid)).getD (contains lru s cid)
        else contains lru s cid)
      = cids.map (Content.has (lookup s.inner)) := by
    apply List.map_congr_left
    intro cid _
    cases hit : lru.lookup s.cache cid with
    | some data => simp [contains, Content.has, hit, hs.cached cid data hit]
    | none => simp [contains, hit]
  rw [← PutBack.putBack_rest] at hanswer
  dsimp only
  split
  · rename_i hempty
    rw [List.isEmpty_iff] at hempty
    rw [hempty] at hanswer
    exact Ends.pure ⟨hanswer, rfl, hs⟩
  · let rest := (PutBack.rest (fun cid => !contains lru s cid) cids).map Prod.fst
    refine Ends.bind (below_reads (g := fun m => rest.map (Content.has m))
      (Storage.hasMany_ends rest) s hs) ?_
    rintro r s' ⟨rfl, hsame⟩
    rw [List.map_map]
    exact Ends.pure ⟨hanswer, hsame⟩

omit [BlockStore C] [BlockStore.Faithful C] in
/-- Hits and fetched blocks together are what the map holds. -/
theorem putBack_fetched {m : Content} {look : Cid → Option (List UInt8)}
    (hlook : ∀ cid data, look cid = some data → m.get cid = some { cid, data }) (cids : List Cid) :
    PutBack.putBack ((cids.zip (cids.map look)).map hitBlock)
        ((((misses cids (cids.map look)).map Prod.snd).zip
            (((misses cids (cids.map look)).map (fun x => x.1.1)).map m.get)).map
          (fun x => (x.1, x.2.map some))) = cids.map m.get := by
  have hzip : cids.zip (cids.map look) = cids.map (fun cid => (cid, look cid)) := by
    have h := @List.zip_map' Cid Cid (Option (List UInt8)) id look cids
    rwa [List.map_id] at h
  have hvalues : (((misses cids (cids.map look)).map Prod.snd).zip
        (((misses cids (cids.map look)).map (fun x => x.1.1)).map m.get)).map
          (fun x => (x.1, x.2.map some))
      = ((misses cids (cids.map look)).map Prod.snd).zip
          (((misses cids (cids.map look)).map Prod.fst).map (fun x => (m.get x.1).map some)) := by
    simp [List.zip_map']
  rw [hvalues, misses, PutBack.putBack_rest, hzip, List.map_map]
  apply List.map_congr_left
  intro cid _
  cases hit : look cid with
  | some data => simp [hit, hitBlock, hlook cid data hit]
  | none => cases hget : m.get cid <;> simp [hit, hitBlock, hget]

/-- What a batch fetched the store holds. -/
theorem held_of_fetched {m : Content} {places : List Nat} {cids : List Cid} :
    ∀ b ∈ (places.zip (cids.map m.get)).filterMap Prod.snd, m b.cid = some b.data := by
  intro b hb
  obtain ⟨x, hx, hxb⟩ := List.mem_filterMap.mp hb
  obtain ⟨cid, -, hcid⟩ := List.mem_map.mp (List.of_mem_zip hx).2
  exact (Content.get_eq_some (hcid.trans hxb)).2

theorem getMany_reads (hl : lru.Lawful) (cids : List Cid) :
    Reads CachedBlockStore.inner (Coherent (C := C) lru dataOf) (getMany lru cids)
      (fun m => cids.map (Content.get m)) := by
  intro s hs
  obtain ⟨cache, hrun, hsame⟩ := l1PeekMany_spec hl cids s
  apply Ends.modifyGet_bind
  rw [hrun]
  have hpeek : Coherent lru dataOf { s with cache } := hs.of_lookup hsame
  have hanswer := putBack_fetched (fun cid data h => hs.hit h) cids
  dsimp only
  split
  · rename_i hempty
    rw [List.isEmpty_iff] at hempty
    rw [hempty] at hanswer
    exact Ends.pure ⟨hanswer, rfl, hpeek⟩
  · let rest := (misses cids (cids.map (lru.lookup s.cache))).map (fun x => x.1.1)
    refine Ends.bind (P := fun r s' => r = rest.map (Content.get (lookup s.inner))
        ∧ Same CachedBlockStore.inner (Coherent lru dataOf) s s')
      (below_reads (g := fun m => rest.map (Content.get m)) (Storage.getMany_ends rest) _
        hpeek) ?_
    rintro r s' ⟨rfl, hsame⟩
    let places := (misses cids (cids.map (lru.lookup s.cache))).map Prod.snd
    have hheld : ∀ b ∈ (places.zip (rest.map (Content.get (lookup s.inner)))).filterMap Prod.snd,
        lookup s'.inner b.cid = some b.data := by
      intro b hb
      rw [hsame.1]
      exact held_of_fetched b hb
    obtain ⟨hfilled, hinner⟩ := foldl_promote hl _ hsame.2 hheld
    exact Ends.modify_bind (Ends.pure
      ⟨hanswer, (congrArg lookup hinner).trans hsame.1, hfilled⟩)

theorem put_ends (hl : lru.Lawful) {b : Block} (hb : b.data = dataOf b.cid)
    (hs : Coherent lru dataOf s) :
    Ends (put lru b) s (fun _ s' => Coherent lru dataOf s') (Coherent lru dataOf) := by
  refine Ends.bind (P := fun _ s' => Coherent lru dataOf s' ∧ lookup s'.inner b.cid = some b.data)
    (Ends.zoom ((Storage.put_ends b s.inner).conseq ?_ (fun c hc => hs.of_inner hc))) ?_
  · intro _ c hc
    refine ⟨⟨?_, ?_⟩, ?_⟩
    · exact hs.cached.mono (fun cid data h => hc ▸ hs.named.sub_update hb cid data h)
    · exact hc ▸ hs.named.update hb
    · show lookup c b.cid = some b.data
      rw [hc, Function.update_self]
  · rintro _ s' ⟨hs', hheld⟩
    exact Ends.modify (hs'.promote hl hheld)

theorem putMany_ends (hl : lru.Lawful) {blocks : List Block}
    (hb : ∀ b ∈ blocks, b.data = dataOf b.cid) (hs : Coherent lru dataOf s) :
    Ends (putMany lru blocks) s (fun _ s' => Coherent lru dataOf s') (Coherent lru dataOf) := by
  refine Ends.bind (P := fun _ s' => Coherent lru dataOf s'
      ∧ ∀ b ∈ blocks, lookup s'.inner b.cid = some b.data)
    (Ends.zoom ((Storage.putMany_ends blocks s.inner).conseq ?_ (fun c hc => hs.of_inner hc))) ?_
  · intro _ c hc
    refine ⟨⟨?_, ?_⟩, ?_⟩
    · exact hs.cached.mono (fun cid data h => hc ▸ hs.named.sub_putAll blocks hb cid data h)
    · exact hc ▸ hs.named.putAll blocks hb
    · exact hc ▸ hs.named.putAll_of_mem blocks hb
  · rintro _ s' ⟨hs', hheld⟩
    exact Ends.modify (foldl_promote hl blocks hs' hheld).1

theorem delete_ends (hl : lru.Lawful) (hf : lru.Forgets) (cid : Cid) (hs : Coherent lru dataOf s) :
    Ends (delete lru cid) s (fun _ s' => Coherent lru dataOf s') (Coherent lru dataOf) := by
  have hgone := hs.cached.pop_ne hl hf cid
  apply Ends.modify_bind
  refine Ends.zoom ((Storage.delete_ends cid s.inner).conseq ?_ ?_)
  · intro _ c hc
    refine ⟨hgone.mono (fun k data h => ?_), ?_⟩
    · show lookup c k = some data
      rw [hc, Function.update_of_ne h.1]
      exact h.2
    · exact hc ▸ hs.named.delete cid
  · intro c hc
    exact Coherent.of_inner (s := invalidate lru cid s)
      ⟨hgone.mono (fun _ _ h => h.2), hs.named⟩ hc

omit [BlockStore C] [BlockStore.Faithful C] in
/-- Nothing is left of the keys that are taken out. -/
theorem foldl_invalidate (hl : lru.Lawful) (hf : lru.Forgets) {P : Cid → List UInt8 → Prop} :
    ∀ (cids : List Cid) {s : CachedBlockStore C Rep}, lru.All P s.cache →
      lru.All (fun k data => k ∉ cids ∧ P k data)
          (cids.foldl (fun s cid => invalidate lru cid s) s).cache
        ∧ (cids.foldl (fun s cid => invalidate lru cid s) s).inner = s.inner
  | [], _, h => ⟨h.mono (fun _ _ hp => ⟨List.not_mem_nil, hp⟩), rfl⟩
  | cid :: cids, s, h => by
    obtain ⟨hrest, hinner⟩ := foldl_invalidate hl hf cids (s := invalidate lru cid s)
      (h.pop_ne hl hf cid)
    refine ⟨hrest.mono (fun k data hk => ⟨?_, hk.2.2⟩), hinner⟩
    rw [List.mem_cons, not_or]
    exact ⟨hk.2.1, hk.1⟩

theorem deleteMany_ends (hl : lru.Lawful) (hf : lru.Forgets) (cids : List Cid)
    (hs : Coherent lru dataOf s) : Ends (deleteMany lru cids) s (fun _ s' => Coherent lru dataOf s')
      (Coherent lru dataOf) := by
  obtain ⟨hgone, hinner⟩ := foldl_invalidate hl hf cids hs.cached
  apply Ends.modify_bind
  refine Ends.zoom ((Storage.deleteMany_ends cids _).conseq ?_ ?_)
  · intro _ c hc
    rw [hinner] at hc
    refine ⟨hgone.mono (fun k data h => ?_), ?_⟩
    · show lookup c k = some data
      rw [hc, Content.deleteAll_of_notMem cids h.1]
      exact h.2
    · exact hc ▸ hs.named.deleteAll cids
  · intro c hc
    rw [hinner] at hc
    refine ⟨hgone.mono (fun k data h => ?_), ?_⟩
    · show lookup c k = some data
      rw [hc]
      exact h.2
    · exact hc ▸ hs.named

/-- A block that is put is the one its identifier names. -/
def Honest (dataOf : Cid → List UInt8) : Request → Prop
  | .put b => b.data = dataOf b.cid
  | .putMany blocks => ∀ b ∈ blocks, b.data = dataOf b.cid
  | _ => True

/-- Each request is answered as the store would, and the cache still holds what the store
holds. -/
theorem perform_ends (hl : lru.Lawful) (hf : lru.Forgets) (s : CachedBlockStore C Rep)
    (r : Request) (hs : Coherent lru dataOf s) (hcond : Honest dataOf r) : Ends (perform lru r) s
      (fun a s' => Content.Right (lookup s.inner) r a ∧ Coherent lru dataOf s')
      (Coherent lru dataOf) := by
  cases r with
  | put b => exact Ends.answers_done (put_ends hl hcond hs) (fun _ => rfl)
  | putMany blocks => exact Ends.answers_done (putMany_ends hl hcond hs) (fun _ => rfl)
  | get cid => exact (get_reads hl cid).answers hs rfl
  | getMany cids => exact (getMany_reads hl cids).answers hs rfl
  | has cid => exact (has_reads cid).answers hs rfl
  | hasMany cids => exact (hasMany_reads cids).answers hs rfl
  | delete cid => exact Ends.answers_done (delete_ends hl hf cid hs) (fun _ => rfl)
  | deleteMany cids => exact Ends.answers_done (deleteMany_ends hl hf cids hs) (fun _ => rfl)
  | rebuildFilter => exact Ends.pure ⟨(fun _ hb => by cases hb), hs⟩
  | clearCache =>
    refine Ends.modify_bind (Ends.pure ⟨(fun _ hb => by cases hb), ?_, hs.named⟩)
    exact Lru.All.new hl _

/-- Every answer of the wrapper is the answer of the store below. -/
theorem answered (hl : lru.Lawful) (hf : lru.Forgets) {inner : C} (config : CacheConfig)
    (hnamed : Content.Named dataOf (lookup inner)) {rs : List Request}
    (hmeets : Service.Meets (perform lru) (fun _ => Honest dataOf) rs (new lru inner config)) :
    Service.Answered (perform lru) (fun s => Content.Right (lookup s.inner)) rs
      (new lru inner config) :=
  Service.answered_of_step (perform_ends hl hf) rs _ ⟨Lru.All.new hl _, hnamed⟩ hmeets

end Answers

end CachedBlockStore

end Ipfrs.Storage
