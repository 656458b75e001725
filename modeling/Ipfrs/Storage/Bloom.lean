/-
Ipfrs.Storage.Bloom — the Bloom filter and the store that asks it first (`bloom.rs`).

A filter never denies what was inserted into it. The wrapper inserts before it puts, so
it answers as the store below does, as long as the filter knows every block of the
store (`Coherent`); `rebuild_filter` clears the filter before it lists the store.

`usize` is 64 bits wide. A configuration has at least one bit: with none an insertion
divides by zero.
-/
import Ipfrs.Storage.BlockStore
import Ipfrs.Lib.BitWords
import Ipfrs.Lib.Pooled
import Ipfrs.Lib.Fnv

namespace Ipfrs.Storage

open Ipfrs.Core Ipfrs.Lib
open Ipfrs.Knowledge (ColdStore)
open Ipfrs.Knowledge.ColdStore.Faithful (lookup)

/-! ## The filter -/

structure BloomConfig where
  numHashes : Nat
  numBits : Nat
  numBits_pos : 0 < numBits

/-- FNV-1a with a seed. -/
def fnv1aHashWithSeed (data : List UInt8) (seed : UInt64) : UInt64 := Fnv.hashFrom seed data

def fnv1aHash (data : List UInt8) : UInt64 := Fnv.hash data

structure BloomFilter where
  config : BloomConfig
  bits : List UInt64
  count : Nat
  length_bits : bits.length = (config.numBits + 63) / 64

namespace BloomFilter

def withConfig (config : BloomConfig) : BloomFilter :=
  { config, bits := List.replicate ((config.numBits + 63) / 64) 0, count := 0
    length_bits := List.length_replicate }

/-- Double hashing. -/
def computeHashes (config : BloomConfig) (data : List UInt8) : List UInt64 :=
  let h1 := fnv1aHash data
  let h2 := fnv1aHashWithSeed data 0x811c9dc5
  (List.range config.numHashes).map (fun i => h1 + UInt64.ofNat i * h2)

def bitIndices (config : BloomConfig) (data : List UInt8) : List Nat :=
  (computeHashes config data).map (fun hash => hash.toNat % config.numBits)

theorem length_foldl_setBit : ∀ (is : List Nat) (words : List UInt64),
    (is.foldl BitWords.setBit words).length = words.length
  | [], _ => rfl
  | i :: is, words => by
    rw [List.foldl_cons, length_foldl_setBit is, BitWords.length_setBit]

def insert (f : BloomFilter) (data : List UInt8) : BloomFilter :=
  { f with
    bits := (bitIndices f.config data).foldl BitWords.setBit f.bits
    count := f.count + 1
    length_bits := by rw [length_foldl_setBit, f.length_bits] }

def contains (f : BloomFilter) (data : List UInt8) : Bool :=
  (bitIndices f.config data).all (BitWords.hasBit f.bits)

def clear (f : BloomFilter) : BloomFilter :=
  { f with
    bits := f.bits.map (fun _ => 0)
    count := 0
    length_bits := by rw [List.length_map, f.length_bits] }

section

variable [CidCrate]

def insertCid (f : BloomFilter) (cid : Cid) : BloomFilter := f.insert (CidCrate.toBytes cid)

def containsCid (f : BloomFilter) (cid : Cid) : Bool := f.contains (CidCrate.toBytes cid)

end

theorem bitIndex_lt (f : BloomFilter) {data : List UInt8} {i : Nat}
    (hi : i ∈ bitIndices f.config data) : i / 64 < f.bits.length := by
  obtain ⟨hash, -, rfl⟩ := List.mem_map.mp hi
  have hlt := Nat.mod_lt hash.toNat f.config.numBits_pos
  rw [f.length_bits]
  omega

/-- A filter knows what was inserted last. -/
theorem contains_insert_self (f : BloomFilter) (data : List UInt8) :
    (f.insert data).contains data = true := by
  apply List.all_eq_true.mpr
  intro i hi
  exact BitWords.hasBit_foldl_setBit (fun j hj => f.bitIndex_lt hj) hi

/-- An insertion never makes a filter deny what it knew. -/
theorem contains_insert {f : BloomFilter} {data : List UInt8} (data' : List UInt8)
    (h : f.contains data = true) : (f.insert data').contains data = true := by
  apply List.all_eq_true.mpr
  intro i hi
  exact BitWords.hasBit_foldl_setBit_of_hasBit (List.all_eq_true.mp h i hi)

section

variable [CidCrate]

theorem containsCid_insertCid {f : BloomFilter} {cid cid' : Cid}
    (h : cid = cid' ∨ f.containsCid cid = true) : (f.insertCid cid').containsCid cid = true := by
  rcases h with rfl | h
  · exact f.contains_insert_self _
  · exact contains_insert _ h

/-- A filter knows every identifier of a list inserted into it. -/
theorem containsCid_foldl : ∀ {cids : List Cid} {f : BloomFilter} {cid : Cid},
    cid ∈ cids ∨ f.containsCid cid = true →
      (cids.foldl insertCid f).containsCid cid = true
  | [], _, _, h => h.resolve_left (by simp)
  | c :: cids, f, cid, h => by
    rw [List.foldl_cons]
    apply containsCid_foldl
    rcases h with h | h
    · rcases List.mem_cons.mp h with rfl | h
      · exact .inr (containsCid_insertCid (.inl rfl))
      · exact .inl h
    · exact .inr (containsCid_insertCid (.inr h))

end

end BloomFilter

/-! ## The store -/

structure BloomBlockStore (C : Type) where
  store : C
  filter : BloomFilter

namespace BloomBlockStore

variable {C : Type} [BlockStore C] [CidCrate]

omit [BlockStore C] [CidCrate] in
def withConfig (store : C) (config : BloomConfig) : BloomBlockStore C :=
  { store, filter := BloomFilter.withConfig config }

omit [BlockStore C] [CidCrate] in
/-- A call of the store below. -/
def below {α : Type} (m : EStateM Error C α) : EStateM Error (BloomBlockStore C) α :=
  zoom BloomBlockStore.store (fun store s => { s with store }) m

def rebuildFilter : EStateM Error (BloomBlockStore C) Unit := do
  modify (fun s => { s with filter := s.filter.clear })
  let cids ← below ColdStore.listCids
  modify (fun s => { s with filter := cids.foldl BloomFilter.insertCid s.filter })

def put (b : Block) : EStateM Error (BloomBlockStore C) Unit := do
  modify (fun s => { s with filter := s.filter.insertCid b.cid })
  below (ColdStore.put b)

def putMany (blocks : List Block) : EStateM Error (BloomBlockStore C) Unit := do
  modify (fun s => { s with filter := (blocks.map Block.cid).foldl BloomFilter.insertCid s.filter })
  below (BlockStore.putMany blocks)

def get (cid : Cid) : EStateM Error (BloomBlockStore C) (Option Block) := do
  let s ← MonadState.get
  if !s.filter.containsCid cid then pure none else below (ColdStore.get cid)

/-- The default of the trait. -/
def getMany (cids : List Cid) : EStateM Error (BloomBlockStore C) (List (Option Block)) :=
  eachInOrder get cids

def has (cid : Cid) : EStateM Error (BloomBlockStore C) Bool := do
  let s ← MonadState.get
  if !s.filter.containsCid cid then pure false else below (BlockStore.has cid)

def hasMany (cids : List Cid) : EStateM Error (BloomBlockStore C) (List Bool) := do
  let s ← MonadState.get
  let toCheck := PutBack.rest s.filter.containsCid cids
  let results := cids.map (fun _ => false)
  if toCheck.isEmpty then pure results
  else do
    let storeResults ← below (BlockStore.hasMany (toCheck.map Prod.fst))
    pure (PutBack.putBack results ((toCheck.map Prod.snd).zip (storeResults.map some)))

omit [CidCrate] in
def delete (cid : Cid) : EStateM Error (BloomBlockStore C) Unit := below (ColdStore.delete cid)

omit [CidCrate] in
def deleteMany (cids : List Cid) : EStateM Error (BloomBlockStore C) Unit :=
  below (BlockStore.deleteMany cids)

/-! ## Its answers -/

def perform : Request → EStateM Error (BloomBlockStore C) Answer
  | .put b => do put b; pure .done
  | .putMany blocks => do putMany blocks; pure .done
  | .get cid => do pure (.block (← get cid))
  | .getMany cids => do pure (.blocks (← getMany cids))
  | .has cid => do pure (.present (← has cid))
  | .hasMany cids => do pure (.presents (← hasMany cids))
  | .delete cid => do delete cid; pure .done
  | .deleteMany cids => do deleteMany cids; pure .done
  | .rebuildFilter => do rebuildFilter; pure .done
  | .clearCache => pure .done

variable [BlockStore.Faithful C]

/-- The filter knows every block of the store. -/
def Coherent (s : BloomBlockStore C) : Prop :=
  ∀ cid, Content.has (lookup s.store) cid = true → s.filter.containsCid cid = true

variable {s : BloomBlockStore C}

theorem Coherent.has_eq_false (hs : s.Coherent) {cid : Cid} (h : s.filter.containsCid cid = false) :
    Content.has (lookup s.store) cid = false := by
  by_contra hheld
  rw [Bool.not_eq_false] at hheld
  rw [hs cid hheld] at h
  cases h

/-- Another state of the store, of which the filter has been told what is new. -/
theorem Coherent.told (hs : s.Coherent) {c : C} (cids : List Cid)
    (h : ∀ cid, Content.has (lookup c) cid = true →
      cid ∈ cids ∨ Content.has (lookup s.store) cid = true) :
    ({ store := c, filter := cids.foldl BloomFilter.insertCid s.filter } :
      BloomBlockStore C).Coherent := by
  intro cid hcid
  apply BloomFilter.containsCid_foldl
  rcases h cid hcid with hmem | hheld
  · exact .inl hmem
  · exact .inr (hs cid hheld)

theorem below_reads {α : Type} {m : EStateM Error C α} {g : Content → α}
    (hm : ∀ c, Ends m c (fun a c' => a = g (lookup c) ∧ lookup c' = lookup c)
      (fun c' => lookup c' = lookup c)) : Reads BloomBlockStore.store Coherent (below m) g :=
  Reads.zoom (fun _ _ => rfl)
    (fun _ _ hs hc => hs.told [] (fun cid h => .inr (by rwa [← hc]))) hm

theorem get_reads (cid : Cid) :
    Reads BloomBlockStore.store Coherent (get (C := C) cid) (fun m => Content.get m cid) := by
  intro s hs
  apply Ends.get_bind
  cases hc : s.filter.containsCid cid with
  | true => exact below_reads (g := fun m => Content.get m cid) (Storage.get_ends cid) s hs
  | false => exact Ends.pure ⟨(Content.get_eq_none (hs.has_eq_false hc)).symm, rfl, hs⟩

theorem getMany_reads (cids : List Cid) :
    Reads BloomBlockStore.store Coherent (getMany (C := C) cids)
      (fun m => cids.map (Content.get m)) :=
  Reads.eachInOrder get_reads cids

theorem has_reads (cid : Cid) :
    Reads BloomBlockStore.store Coherent (has (C := C) cid) (fun m => Content.has m cid) := by
  intro s hs
  apply Ends.get_bind
  cases hc : s.filter.containsCid cid with
  | true => exact below_reads (g := fun m => Content.has m cid) (Storage.has_ends cid) s hs
  | false => exact Ends.pure ⟨(hs.has_eq_false hc).symm, rfl, hs⟩

theorem hasMany_reads (cids : List Cid) :
    Reads BloomBlockStore.store Coherent (hasMany (C := C) cids)
      (fun m => cids.map (Content.has m)) := by
  intro s hs
  apply Ends.get_bind
  have hanswer : cids.map (fun cid => if s.filter.containsCid cid then
        (some (Content.has (lookup s.store) cid)).getD false else false)
      = cids.map (Content.has (lookup s.store)) := by
    apply List.map_congr_left
    intro cid _
    cases hc : s.filter.containsCid cid with
    | true => rfl
    | false => exact (hs.has_eq_false hc).symm
  rw [← PutBack.putBack_rest] at hanswer
  dsimp only
  split
  · rename_i hempty
    rw [List.isEmpty_iff] at hempty
    rw [hempty] at hanswer
    exact Ends.pure ⟨hanswer, rfl, hs⟩
  · let rest := (PutBack.rest s.filter.containsCid cids).map Prod.fst
    refine Ends.bind (below_reads (g := fun m => rest.map (Content.has m))
      (Storage.hasMany_ends rest) s hs) ?_
    rintro r s' ⟨rfl, hsame⟩
    rw [List.map_map]
    exact Ends.pure ⟨hanswer, hsame⟩

/-- A call below that adds nothing but what the filter has been told. -/
theorem Coherent.told_ends {α : Type} {m : EStateM Error C α} (hs : s.Coherent) (cids : List Cid)
    (hm : Ends m s.store
      (fun _ c => ∀ cid, Content.has (lookup c) cid = true →
        cid ∈ cids ∨ Content.has (lookup s.store) cid = true)
      (fun c => lookup c = lookup s.store)) :
    Ends (below m) { s with filter := cids.foldl BloomFilter.insertCid s.filter }
      (fun _ s' => s'.Coherent) Coherent := by
  refine Ends.zoom (hm.conseq (fun _ _ hc => hs.told cids hc) (fun c hc => ?_))
  exact hs.told cids (fun cid h => .inr (by rwa [← hc]))

theorem put_ends (b : Block) (hs : s.Coherent) :
    Ends (put b) s (fun _ s' => s'.Coherent) Coherent := by
  apply Ends.modify_bind
  refine hs.told_ends [b.cid] ((Storage.put_ends b s.store).conseq ?_ (fun _ h => h))
  intro _ c hc cid h
  rw [hc] at h
  exact (Content.has_update h).imp_left List.mem_singleton.mpr

theorem putMany_ends (blocks : List Block) (hs : s.Coherent) :
    Ends (putMany blocks) s (fun _ s' => s'.Coherent) Coherent := by
  apply Ends.modify_bind
  refine hs.told_ends (blocks.map Block.cid)
    ((Storage.putMany_ends blocks s.store).conseq ?_ (fun _ h => h))
  intro _ c hc cid h
  rw [hc] at h
  exact (Content.has_putAll_iff blocks).mp h

theorem delete_ends (cid : Cid) (hs : s.Coherent) :
    Ends (delete cid) s (fun _ s' => s'.Coherent) Coherent := by
  refine hs.told_ends [] ((Storage.delete_ends cid s.store).conseq ?_ (fun _ h => h))
  intro _ c hc cid h
  rw [hc] at h
  exact .inr (Content.has_update_none h)

theorem deleteMany_ends (cids : List Cid) (hs : s.Coherent) :
    Ends (deleteMany cids) s (fun _ s' => s'.Coherent) Coherent := by
  refine hs.told_ends [] ((Storage.deleteMany_ends cids s.store).conseq ?_ (fun _ h => h))
  intro _ c hc cid h
  rw [hc] at h
  exact .inr (Content.has_deleteAll cids h)

/-- A filter built from a complete list knows the store, whatever it knew before. -/
theorem rebuildFilter_ends (s : BloomBlockStore C) : Ends rebuildFilter s (fun _ s' => s'.Coherent)
      (fun s' => s'.filter = s.filter.clear ∧ lookup s'.store = lookup s.store) := by
  apply Ends.modify_bind
  refine Ends.bind (P := fun l s' => ∀ cid, Content.has (lookup s'.store) cid = true → cid ∈ l)
    (Ends.zoom ((Storage.listCids_ends s.store).conseq ?_ ?_)) ?_
  · intro l c hl cid hcid
    rw [hl.2] at hcid
    exact (hl.1 cid).mpr hcid
  · intro c hc
    exact ⟨rfl, hc⟩
  · intro l s' hl
    refine Ends.modify (fun cid hcid => ?_)
    exact BloomFilter.containsCid_foldl (.inl (hl cid hcid))

/-- The filter forgets nothing, or there is nothing to forget: a rebuild lists the store,
or fails over an empty store, or the filter has no hash functions. -/
def Rebuilds (s : BloomBlockStore C) : Request → Prop
  | .rebuildFilter =>
    (∃ l c, ColdStore.listCids s.store = .ok l c) ∨ lookup s.store = (fun _ => none)
      ∨ s.filter.config.numHashes = 0
  | _ => True

omit [BlockStore C] [BlockStore.Faithful C] in
/-- A filter without hash functions knows everything. -/
theorem containsCid_of_numHashes {f : BloomFilter} (h : f.config.numHashes = 0) (cid : Cid) :
    f.containsCid cid = true := by
  rw [BloomFilter.containsCid, BloomFilter.contains, BloomFilter.bitIndices,
    BloomFilter.computeHashes, h]
  rfl

omit [BlockStore.Faithful C] in
theorem rebuildFilter_ok {l : List Cid} {c : C} (h : ColdStore.listCids s.store = .ok l c) :
    rebuildFilter s
      = .ok () { store := c, filter := l.foldl BloomFilter.insertCid s.filter.clear } := by
  have hbelow : below ColdStore.listCids { s with filter := s.filter.clear }
      = .ok l { store := c, filter := s.filter.clear } := by
    rw [below, zoom, h]
  exact run_bind_ok hbelow

theorem rebuildFilter_coherent (hcond : s.Rebuilds .rebuildFilter) :
    Ends rebuildFilter s (fun _ s' => s'.Coherent) Coherent := by
  rcases hcond with ⟨l, c, hlist⟩ | hempty | hnone
  · have hends := rebuildFilter_ends s
    unfold Ends at hends ⊢
    rw [rebuildFilter_ok hlist] at hends ⊢
    exact hends
  · refine (rebuildFilter_ends s).conseq (fun _ _ h => h) (fun s' h cid hcid => ?_)
    rw [h.2, hempty] at hcid
    cases hcid
  · refine (rebuildFilter_ends s).conseq (fun _ _ h => h) (fun s' h cid hcid => ?_)
    apply containsCid_of_numHashes
    rw [h.1]
    exact hnone

/-- Under the condition each request is answered as the store would and the filter still
knows the store. -/
theorem perform_ends (s : BloomBlockStore C) (r : Request) (hs : s.Coherent)
    (hcond : s.Rebuilds r) : Ends (perform r) s
      (fun a s' => Content.Right (lookup s.store) r a ∧ s'.Coherent) Coherent := by
  cases r with
  | put b => exact Ends.answers_done (put_ends b hs) (fun _ => rfl)
  | putMany blocks => exact Ends.answers_done (putMany_ends blocks hs) (fun _ => rfl)
  | get cid => exact (get_reads cid).answers hs rfl
  | getMany cids => exact (getMany_reads cids).answers hs rfl
  | has cid => exact (has_reads cid).answers hs rfl
  | hasMany cids => exact (hasMany_reads cids).answers hs rfl
  | delete cid => exact Ends.answers_done (delete_ends cid hs) (fun _ => rfl)
  | deleteMany cids => exact Ends.answers_done (deleteMany_ends cids hs) (fun _ => rfl)
  | rebuildFilter => exact Ends.answers_done (rebuildFilter_coherent hcond) (fun _ => rfl)
  | clearCache => exact Ends.pure ⟨(fun _ hb => by cases hb), hs⟩

/-- A new filter over an empty store, or over any store once it has been rebuilt. -/
inductive Start : BloomBlockStore C → Prop
  | empty (store : C) (config : BloomConfig) (h : lookup store = (fun _ => none)) :
      Start (withConfig store config)
  | rebuilt (store : C) (config : BloomConfig) (s : BloomBlockStore C)
      (h : rebuildFilter (withConfig store config) = .ok () s) : Start s

theorem Start.coherent (h : Start s) : s.Coherent := by
  cases h with
  | empty store config hempty =>
    intro cid hcid
    rw [show lookup (withConfig store config).store = fun _ => none from hempty] at hcid
    cases hcid
  | rebuilt store config s h => exact (rebuildFilter_ends (withConfig store config)).of_ok h

/-- Every answer of the wrapper is the answer of the store below. -/
theorem answered (h : Start s) {rs : List Request} (hmeets : Service.Meets perform Rebuilds rs s) :
    Service.Answered perform (fun s => Content.Right (lookup s.store)) rs s :=
  Service.answered_of_step perform_ends rs s h.coherent hmeets

end BloomBlockStore

end Ipfrs.Storage
