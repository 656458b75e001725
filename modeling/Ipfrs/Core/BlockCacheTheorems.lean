/-
Ipfrs.Core.BlockCacheTheorems — the limits of the block cache, and the order of eviction.

`Inv` is kept by every call: sizes are those of the blocks, and each cached block is in
`lru_list`, so that the loop of `insert` removes a block in every round. The limits are
kept as long as no new block breaks them by itself.

For the order of eviction a call is run with its log (`Traced`). The stamp of a block is
the level of the log before its last use, so what can be evicted is the block used longest
ago exactly if enough other uses lie between its last use and any other (`Balanced`).
-/
import Ipfrs.Core.BlockCache
import Ipfrs.Lib.UseLog
import Mathlib.Algebra.Ring.Nat

namespace Ipfrs.Core

open Ipfrs.Lib

namespace BlockCache

/-! ## Sizes -/

/-- The sum of the lengths of the cached blocks. -/
def totalLength (blocks : CacheBlocks) : Nat :=
  (blocks.entries.map (fun e => e.2.block.data.length)).sum

theorem sum_kerase {f : CacheEntry → Nat} {cid : Cid} {entry : CacheEntry} :
    ∀ {l : CacheIteration}, l.dlookup cid = some entry →
      (l.map (fun e => f e.2)).sum = f entry + ((l.kerase cid).map (fun e => f e.2)).sum
  | [], h => by simp at h
  | ⟨cid', entry'⟩ :: l, h => by
    by_cases hcid : cid = cid'
    · subst hcid
      rw [List.dlookup_cons_eq] at h
      simp [Option.some.inj h]
    · rw [List.dlookup_cons_ne _ _ hcid] at h
      rw [List.kerase_cons_ne hcid]
      simp only [List.map_cons, List.sum_cons, sum_kerase h]
      omega

variable {blocks : CacheBlocks} {block : Block} {iteration : CacheIteration}

theorem totalLength_erase {cid : Cid} {entry : CacheEntry} (h : blocks.lookup cid = some entry) :
    totalLength blocks = entry.block.data.length + totalLength (blocks.erase cid) :=
  sum_kerase (f := fun e => e.block.data.length) h

theorem totalLength_insert (blocks : CacheBlocks) (cid : Cid) (entry : CacheEntry) :
    totalLength (blocks.insert cid entry)
      = entry.block.data.length + totalLength (blocks.erase cid) :=
  rfl

theorem erase_of_not_mem {cid : Cid} (h : cid ∉ blocks) : blocks.erase cid = blocks :=
  AList.ext (List.kerase_of_notMem_keys h)

theorem len_erase {c : BlockCache} {cid : Cid} (h : cid ∈ c.blocks) :
    (c.blocks.erase cid).keys.length + 1 = c.len := by
  have hmem : cid ∈ c.blocks.keys := h
  have hpos := List.length_pos_of_mem hmem
  rw [AList.keys_erase, List.length_erase_of_mem hmem, len]
  omega

/-- What every call keeps. -/
structure Inv (c : BlockCache) : Prop where
  sized : ∀ cid entry, c.blocks.lookup cid = some entry → entry.size = entry.block.data.length
  listed : ∀ cid ∈ c.blocks, cid ∈ c.lruList
  total : c.currentSize = totalLength c.blocks

theorem inv_new (maxSizeBytes : Nat) (maxBlocks : Option Nat) :
    (new maxSizeBytes maxBlocks).Inv := by
  constructor
  · intro cid entry h
    simp [new] at h
  · intro cid h
    exact absurd h (AList.notMem_empty cid)
  · rfl

theorem mem_of_lookup {cid : Cid} {entry : CacheEntry} (h : blocks.lookup cid = some entry) :
    cid ∈ blocks :=
  AList.lookup_isSome.mp (by rw [h]; rfl)

variable {c : BlockCache} {cid : Cid} {entry : CacheEntry}

theorem Inv.take (hi : c.Inv) (h : c.blocks.lookup cid = some entry) : (c.take cid entry).Inv := by
  constructor
  · intro cid' entry' h'
    have hne : cid' ≠ cid := by
      intro heq
      rw [heq, BlockCache.take, AList.lookup_erase] at h'
      cases h'
    exact hi.sized cid' entry' (by rwa [BlockCache.take, AList.lookup_erase_ne hne] at h')
  · intro cid' h'
    obtain ⟨hne, hmem⟩ := AList.mem_erase.mp h'
    exact (List.mem_erase_of_ne hne).mpr (hi.listed cid' hmem)
  · have htotal := totalLength_erase h
    have hsize := hi.sized cid entry h
    simp only [BlockCache.take, hi.total]
    omega

/-- `update_access` of a cached block. -/
theorem updateAccess_of_lookup (h : c.blocks.lookup cid = some entry) :
    c.updateAccess cid = { c with
      blocks := c.blocks.insert cid { entry with lastAccessIndex := c.lruList.length }
      lruList := c.lruList ++ [cid] } := by
  simp only [updateAccess, h]

theorem Inv.updateAccess (hi : c.Inv) (h : c.blocks.lookup cid = some entry) :
    (c.updateAccess cid).Inv := by
  rw [updateAccess_of_lookup h]
  constructor
  · intro cid' entry' h'
    by_cases hcid : cid' = cid
    · subst hcid
      simp only [AList.lookup_insert, Option.some.injEq] at h'
      rw [← h']
      exact hi.sized cid' entry h
    · rw [AList.lookup_insert_ne hcid] at h'
      exact hi.sized cid' entry' h'
  · intro cid' h'
    rw [AList.mem_insert] at h'
    rcases h' with rfl | h'
    · simp
    · exact List.mem_append_left _ (hi.listed cid' h')
  · rw [totalLength_insert, hi.total, totalLength_erase h]

theorem Inv.insertNew (hi : c.Inv) (h : block.cid ∉ c.blocks) : (c.insertNew block).Inv := by
  constructor
  · intro cid' entry' h'
    by_cases hcid : cid' = block.cid
    · subst hcid
      simp only [BlockCache.insertNew, AList.lookup_insert, Option.some.injEq] at h'
      rw [← h']
    · rw [BlockCache.insertNew, AList.lookup_insert_ne hcid] at h'
      exact hi.sized cid' entry' h'
  · intro cid' h'
    rw [BlockCache.insertNew, AList.mem_insert] at h'
    rcases h' with rfl | h'
    · simp [BlockCache.insertNew]
    · exact List.mem_append_left _ (hi.listed cid' h')
  · simp only [BlockCache.insertNew, totalLength_insert, erase_of_not_mem h, hi.total]
    omega

/-! ## Eviction -/

/-- The block can be the one that is evicted, in some order of iteration. -/
def CanEvict (c : BlockCache) (cid : Cid) : Prop :=
  ∃ iteration : CacheIteration, iteration.Perm c.blocks.entries ∧ c.lruCid iteration = some cid

/-- What can be evicted is what has a least stamp. -/
theorem canEvict_iff (hi : c.Inv) : c.CanEvict cid ↔ ∃ entry, c.blocks.lookup cid = some entry ∧
      ∀ cid' entry', c.blocks.lookup cid' = some entry' →
        entry.lastAccessIndex ≤ entry'.lastAccessIndex := by
  constructor
  · intro h
    obtain ⟨iteration, hperm, hlru⟩ := h
    unfold lruCid at hlru
    split at hlru
    · cases hlru
    · obtain ⟨e, he, rfl⟩ := Option.map_eq_some_iff.mp hlru
      have hmem := hperm.mem_iff.mp (List.argmin_mem he)
      refine ⟨e.2, AList.mem_lookup_iff.mpr hmem, fun cid' entry' h' => ?_⟩
      have hmem' := hperm.mem_iff.mpr (AList.mem_lookup_iff.mp h')
      exact List.le_of_mem_argmin
        (f := fun e : Sigma (fun _ : Cid => CacheEntry) => e.2.lastAccessIndex) hmem' he
  · intro h
    obtain ⟨entry, hlookup, hmin⟩ := h
    have hmem : ⟨cid, entry⟩ ∈ c.blocks.entries := AList.mem_lookup_iff.mp hlookup
    obtain ⟨s, t, hst⟩ := List.append_of_mem hmem
    refine ⟨⟨cid, entry⟩ :: (s ++ t), ?_, ?_⟩
    · rw [hst]
      exact List.perm_middle.symm
    · have hlist : c.lruList.isEmpty = false := by
        have hcid := hi.listed cid (mem_of_lookup hlookup)
        cases hlru : c.lruList with
        | nil => simp [hlru] at hcid
        | cons _ _ => rfl
      have hargmin : (⟨cid, entry⟩ : Sigma fun _ : Cid => CacheEntry)
          ∈ List.argmin (fun e => e.2.lastAccessIndex) (⟨cid, entry⟩ :: (s ++ t)) := by
        rw [List.mem_argmin_iff]
        refine ⟨List.mem_cons_self, fun e he => ?_, fun e _ _ => by simp⟩
        have hmem' : e ∈ c.blocks.entries := by
          rw [hst]
          exact List.perm_middle.mem_iff.mpr he
        exact hmin e.1 e.2 (AList.mem_lookup_iff.mpr hmem')
      rw [lruCid, hlist, Option.mem_def.mp hargmin]
      rfl

/-- One eviction: a block that can be evicted is taken out. -/
theorem evictLru_spec (hi : c.Inv) (hne : c.blocks.keys ≠ [])
    (hperm : iteration.Perm c.blocks.entries) :
    ∃ cid entry, c.lruCid iteration = some cid ∧ c.CanEvict cid ∧ c.blocks.lookup cid = some entry ∧
      c.evictLru iteration = { c.take cid entry with
            stats := { c.stats with evictions := c.stats.evictions + 1 } } := by
  have hcid : ∃ cid, c.lruCid iteration = some cid := by
    obtain ⟨cid, hmem⟩ := List.exists_mem_of_ne_nil _ hne
    have hlist : c.lruList.isEmpty = false := by
      have hcid := hi.listed cid hmem
      cases hlru : c.lruList with
      | nil => simp [hlru] at hcid
      | cons _ _ => rfl
    have hnil : iteration ≠ [] := by
      intro hnil
      rw [hnil] at hperm
      refine hne ?_
      rw [AList.keys, List.nil_perm.mp hperm]
      rfl
    cases hargmin : iteration.argmin (fun e => e.2.lastAccessIndex) with
    | none => exact absurd (List.argmin_eq_none.mp hargmin) hnil
    | some e => exact ⟨e.1, by simp [lruCid, hlist, hargmin]⟩
  obtain ⟨cid, hlru⟩ := hcid
  have hcan : c.CanEvict cid := ⟨iteration, hperm, hlru⟩
  obtain ⟨entry, hlookup, -⟩ := (canEvict_iff hi).mp hcan
  refine ⟨cid, entry, hlru, hcan, hlookup, ?_⟩
  simp only [evictLru, hlru, hlookup]
  rfl

theorem Inv.evictLru (hi : c.Inv) (hne : c.blocks.keys ≠ [])
    (hperm : iteration.Perm c.blocks.entries) : (c.evictLru iteration).Inv := by
  obtain ⟨cid, entry, -, -, hlookup, heq⟩ := evictLru_spec hi hne hperm
  have htake := hi.take hlookup
  rw [heq]
  exact ⟨htake.sized, htake.listed, htake.total⟩

theorem len_evictLru (hi : c.Inv) (hne : c.blocks.keys ≠ [])
    (hperm : iteration.Perm c.blocks.entries) : (c.evictLru iteration).len + 1 = c.len := by
  obtain ⟨cid, entry, -, -, hlookup, heq⟩ := evictLru_spec hi hne hperm
  rw [heq]
  exact len_erase (mem_of_lookup hlookup)

variable (hashing : HashOrder)

theorem iteration_perm (c : BlockCache) : (c.iteration hashing).Perm c.blocks.entries :=
  hashing.perm _ _

/-- The limits of the cache do not change. -/
def SameLimits (c c' : BlockCache) : Prop :=
  c'.maxSizeBytes = c.maxSizeBytes ∧ c'.maxBlocks = c.maxBlocks

/-- The loop leaves room, or nothing at all. -/
theorem evictLoop_spec (size : Nat) : ∀ (rounds : Nat) {c : BlockCache}, c.Inv →
    c.len ≤ rounds →
      (evictLoop hashing size rounds c).Inv ∧ SameLimits c (evictLoop hashing size rounds c) ∧
        (∀ cid, cid ∉ c.blocks → cid ∉ (evictLoop hashing size rounds c).blocks) ∧
        ((evictLoop hashing size rounds c).wouldExceedLimits size = false ∨
          (evictLoop hashing size rounds c).blocks.keys = [])
  | 0, c, hi, hlen => by
    have hnil : c.blocks.keys = [] := List.length_eq_zero_iff.mp (Nat.le_zero.mp hlen)
    exact ⟨hi, ⟨rfl, rfl⟩, fun _ h => h, .inr hnil⟩
  | rounds + 1, c, hi, hlen => by
    rw [evictLoop]
    by_cases hne : c.blocks.keys = []
    · simp only [hne, List.isEmpty_nil, Bool.not_true, Bool.and_false, Bool.false_eq_true,
        if_false]
      exact ⟨hi, ⟨rfl, rfl⟩, fun _ h => h, .inr trivial⟩
    · by_cases hexceed : c.wouldExceedLimits size = true
      · have hperm := iteration_perm hashing c
        have hempty : c.blocks.keys.isEmpty = false := by simpa using hne
        have hshort := len_evictLru hi hne hperm
        obtain ⟨hinv, hlimits, hout, hend⟩ :=
          evictLoop_spec size rounds (hi.evictLru hne hperm) (by omega)
        obtain ⟨cid, entry, -, -, -, heq⟩ := evictLru_spec hi hne hperm
        simp only [hexceed, hempty, Bool.not_false, Bool.and_self, if_true]
        have hstep : SameLimits c (c.evictLru (c.iteration hashing)) := by
          rw [heq]
          exact ⟨rfl, rfl⟩
        refine ⟨hinv, ⟨hlimits.1.trans hstep.1, hlimits.2.trans hstep.2⟩,
          fun cid' h => hout cid' ?_, hend⟩
        rw [heq]
        intro hmem
        exact h (AList.mem_erase.mp hmem).2
      · rw [Bool.not_eq_true] at hexceed
        simp only [hexceed, Bool.false_and, Bool.false_eq_true, if_false]
        exact ⟨hi, ⟨rfl, rfl⟩, fun _ h => h, .inl trivial⟩

/-! ## Limits -/

/-- The recorded size is that of the blocks, and neither limit is exceeded. -/
def WithinLimits (c : BlockCache) : Prop :=
  c.size = totalLength c.blocks ∧ c.size ≤ c.maxSizeBytes ∧
    ∀ max, c.maxBlocks = some max → c.len ≤ max

/-- A block that does not break a limit by itself. -/
def Fits (c : BlockCache) (block : Block) : Prop :=
  block.data.length ≤ c.maxSizeBytes ∧ c.maxBlocks ≠ some 0

theorem len_updateAccess (h : c.blocks.lookup cid = some entry) :
    (c.updateAccess cid).len = c.len := by
  have hshort := len_erase (mem_of_lookup h)
  rw [AList.keys_erase] at hshort
  rw [updateAccess_of_lookup h]
  simp only [len, AList.keys_insert, List.length_cons]
  exact hshort

theorem len_insertNew (h : block.cid ∉ c.blocks) : (c.insertNew block).len = c.len + 1 := by
  rw [len, insertNew, AList.keys_insert, List.length_cons, ← AList.keys_erase,
    erase_of_not_mem h]
  rfl

theorem contains_eq_true : c.contains cid = true ↔ cid ∈ c.blocks := by
  simp [contains]

/-- An insertion of a new block. -/
theorem insert_of_not_mem (h : block.cid ∉ c.blocks) : c.insert hashing block
      = (evictLoop hashing block.data.length c.len c).insertNew block := by
  have hcontains : c.contains block.cid = false := by
    rw [← Bool.not_eq_true, contains_eq_true]
    exact h
  rw [insert, hcontains]
  rfl

theorem insert_of_lookup (h : c.blocks.lookup block.cid = some entry) :
    c.insert hashing block = c.updateAccess block.cid := by
  rw [insert, if_pos (contains_eq_true.mpr (mem_of_lookup h))]

theorem Inv.apply (hi : c.Inv) (op : Op) :
    (c.apply hashing op).Inv ∧ SameLimits c (c.apply hashing op) := by
  cases op with
  | insert block =>
    cases h : c.blocks.lookup block.cid with
    | some entry =>
      have heq : c.apply hashing (.insert block) = c.updateAccess block.cid :=
        insert_of_lookup hashing h
      rw [heq]
      refine ⟨hi.updateAccess h, ?_⟩
      rw [updateAccess_of_lookup h]
      exact ⟨rfl, rfl⟩
    | none =>
      have hnot := AList.lookup_eq_none.mp h
      obtain ⟨hinv, hlimits, hout, -⟩ :=
        evictLoop_spec hashing block.data.length c.len hi (Nat.le_refl _)
      have heq := insert_of_not_mem hashing hnot
      rw [BlockCache.apply, heq]
      exact ⟨hinv.insertNew (hout _ hnot), hlimits⟩
  | get cid =>
    cases h : c.blocks.lookup cid with
    | some entry =>
      have hi' : Inv { c with stats := { c.stats with hits := c.stats.hits + 1 } } :=
        ⟨hi.sized, hi.listed, hi.total⟩
      have hlookup : ({ c with stats := { c.stats with hits := c.stats.hits + 1 } } :
          BlockCache).blocks.lookup cid = some entry := h
      simp only [BlockCache.apply, get, h]
      refine ⟨hi'.updateAccess hlookup, ?_⟩
      rw [updateAccess_of_lookup hlookup]
      exact ⟨rfl, rfl⟩
    | none =>
      simp only [BlockCache.apply, get, h]
      exact ⟨⟨hi.sized, hi.listed, hi.total⟩, rfl, rfl⟩
  | contains cid => exact ⟨hi, rfl, rfl⟩
  | remove cid =>
    cases h : c.blocks.lookup cid with
    | some entry =>
      simp only [BlockCache.apply, remove, h]
      exact ⟨hi.take h, rfl, rfl⟩
    | none =>
      simp only [BlockCache.apply, remove, h]
      exact ⟨hi, rfl, rfl⟩
  | clear =>
    have hnew := inv_new c.maxSizeBytes c.maxBlocks
    exact ⟨⟨hnew.sized, hnew.listed, hnew.total⟩, rfl, rfl⟩

/-- **One call**: the limits are kept unless a new block breaks one by itself. -/
theorem WithinLimits.apply (hi : c.Inv) (hw : c.WithinLimits) {op : Op}
    (hfits : ∀ block, op = .insert block → block.cid ∉ c.blocks → c.Fits block) :
    (c.apply hashing op).WithinLimits := by
  have htotal := (hi.apply hashing op).1.total
  cases op with
  | insert block =>
    cases h : c.blocks.lookup block.cid with
    | some entry =>
      have heq : c.apply hashing (.insert block) = c.updateAccess block.cid :=
        insert_of_lookup hashing h
      rw [heq] at htotal ⊢
      refine ⟨htotal, ?_, fun max hmax => ?_⟩
      · rw [updateAccess_of_lookup h]
        exact hw.2.1
      · rw [len_updateAccess h]
        rw [updateAccess_of_lookup h] at hmax
        exact hw.2.2 max hmax
    | none =>
      have hnot := AList.lookup_eq_none.mp h
      obtain ⟨hsize, hcount⟩ := hfits block rfl hnot
      obtain ⟨hinv, hlimits, hout, hend⟩ :=
        evictLoop_spec hashing block.data.length c.len hi (Nat.le_refl _)
      have heq : c.apply hashing (.insert block) = _ := insert_of_not_mem hashing hnot
      rw [heq] at htotal ⊢
      generalize evictLoop hashing block.data.length c.len c = c₁ at *
      refine ⟨htotal, ?_, fun max hmax => ?_⟩
      · show c₁.currentSize + block.data.length ≤ c₁.maxSizeBytes
        rcases hend with hroom | hnil
        · simp only [wouldExceedLimits, Bool.or_eq_false_iff, decide_eq_false_iff_not] at hroom
          omega
        · have hzero : c₁.currentSize = 0 := by
            have hentries : c₁.blocks.entries = [] := by
              simpa [AList.keys, List.keys] using hnil
            rw [hinv.total, totalLength, hentries]
            rfl
          rw [hzero, hlimits.1]
          omega
      · have hmax' : c₁.maxBlocks = some max := hmax
        rw [len_insertNew (hout _ hnot)]
        rcases hend with hroom | hnil
        · simp only [wouldExceedLimits, hmax', Bool.or_eq_false_iff,
            decide_eq_false_iff_not] at hroom
          omega
        · have hzero : c₁.len = 0 := by rw [len, hnil, List.length_nil]
          have hpos : max ≠ 0 := by
            intro hmax0
            rw [hlimits.2, hmax0] at hmax'
            exact hcount hmax'
          omega
  | get cid =>
    cases h : c.blocks.lookup cid with
    | some entry =>
      have hlookup : ({ c with stats := { c.stats with hits := c.stats.hits + 1 } } :
          BlockCache).blocks.lookup cid = some entry := h
      simp only [BlockCache.apply, get, h] at htotal ⊢
      refine ⟨htotal, ?_, fun max hmax => ?_⟩
      · rw [updateAccess_of_lookup hlookup]
        exact hw.2.1
      · rw [len_updateAccess hlookup]
        rw [updateAccess_of_lookup hlookup] at hmax
        exact hw.2.2 max hmax
    | none =>
      simp only [BlockCache.apply, get, h]
      exact hw
  | contains cid => exact hw
  | remove cid =>
    cases h : c.blocks.lookup cid with
    | some entry =>
      have hshort : (c.take cid entry).len + 1 = c.len := len_erase (mem_of_lookup h)
      simp only [BlockCache.apply, remove, h] at htotal ⊢
      refine ⟨htotal, (Nat.sub_le _ _).trans hw.2.1, fun max hmax => ?_⟩
      have := hw.2.2 max hmax
      omega
    | none =>
      simp only [BlockCache.apply, remove, h]
      exact hw
  | clear => exact ⟨rfl, Nat.zero_le _, fun max _ => Nat.zero_le max⟩

/-- A new block that breaks a limit by itself is cached all the same. -/
theorem fits_of_withinLimits (hi : c.Inv) (hnot : block.cid ∉ c.blocks)
    (hw : (c.apply hashing (.insert block)).WithinLimits) : c.Fits block := by
  obtain ⟨-, hlimits, hout, -⟩ :=
    evictLoop_spec hashing block.data.length c.len hi (Nat.le_refl _)
  have heq : c.apply hashing (.insert block) = _ := insert_of_not_mem hashing hnot
  rw [heq] at hw
  obtain ⟨-, hsize, hcount⟩ := hw
  generalize evictLoop hashing block.data.length c.len c = c₁ at *
  constructor
  · have hle : c₁.currentSize + block.data.length ≤ c₁.maxSizeBytes := hsize
    rw [hlimits.1] at hle
    omega
  · intro hzero
    have hle := hcount 0 (hlimits.2.trans hzero)
    rw [len_insertNew (hout _ hnot)] at hle
    omega

theorem withinLimits_run_iff (ops : List Op) : ∀ {c : BlockCache}, c.Inv → c.WithinLimits →
    ((∀ pre, pre <+: ops → (c.run hashing pre).WithinLimits) ↔
      ∀ pre block, pre ++ [.insert block] <+: ops → block.cid ∉ (c.run hashing pre).blocks →
        c.Fits block) := by
  induction ops with
  | nil =>
    intro c hi hw
    constructor
    · intro _ pre block hpre
      simp at hpre
    · intro _ pre hpre
      obtain rfl := List.prefix_nil.mp hpre
      exact hw
  | cons op ops ih =>
    intro c hi hw
    obtain ⟨hi', hlimits⟩ := hi.apply hashing op
    have hfits' : ∀ block, (c.apply hashing op).Fits block ↔ c.Fits block := by
      intro block
      rw [Fits, Fits, hlimits.1, hlimits.2]
    constructor
    · intro h pre block hpre hnot
      cases pre with
      | nil =>
        obtain ⟨rfl, -⟩ := List.cons_prefix_cons.mp hpre
        exact fits_of_withinLimits hashing hi hnot (h [.insert block] (by simp))
      | cons op' pre =>
        obtain ⟨rfl, hrest⟩ := List.cons_prefix_cons.mp hpre
        have hw' := h [op'] (by simp)
        have hih := (ih hi' hw').mp (fun pre' hpre' =>
          h (op' :: pre') (List.cons_prefix_cons.mpr ⟨rfl, hpre'⟩))
        exact (hfits' block).mp (hih pre block hrest hnot)
    · intro h pre hpre
      cases pre with
      | nil => exact hw
      | cons op' pre =>
        obtain ⟨rfl, hrest⟩ := List.cons_prefix_cons.mp hpre
        have hw' : (c.apply hashing op').WithinLimits := by
          refine hw.apply hashing hi (fun block hop hnot => ?_)
          subst hop
          exact h [] block (by simp) hnot
        exact (ih hi' hw').mpr (fun pre block hpre' hnot => (hfits' block).mpr
          (h (op' :: pre) block (List.cons_prefix_cons.mpr ⟨rfl, hpre'⟩) hnot)) pre hrest

/-- **The limits of the cache**: in every state of a run the recorded size is right and
the limits are kept, exactly if no block that is not cached and breaks a limit by itself is
inserted. -/
theorem run_withinLimits_iff (maxSizeBytes : Nat) (maxBlocks : Option Nat) (ops : List Op) :
    (∀ pre, pre <+: ops → ((new maxSizeBytes maxBlocks).run hashing pre).WithinLimits) ↔
      ∀ pre block, pre ++ [.insert block] <+: ops →
        block.cid ∉ ((new maxSizeBytes maxBlocks).run hashing pre).blocks →
        block.data.length ≤ maxSizeBytes ∧ maxBlocks ≠ some 0 :=
  withinLimits_run_iff hashing ops (inv_new maxSizeBytes maxBlocks)
    ⟨rfl, Nat.zero_le _, fun max _ => Nat.zero_le max⟩

/-- The map iterated over as it is stored. -/
def asStored : HashOrder := ⟨fun blocks _ => blocks.entries, fun _ _ => List.Perm.refl _⟩

/-- A CID with the given digest. -/
def sampleCid (n : UInt8) : Cid :=
  Cid.newV1 codecRaw { code := 0x12, digest := [n], size_le := by simp }

/-- A cache for one byte takes a block of two. -/
theorem not_withinLimits :
    ¬ ∀ (hashing : HashOrder) (maxSizeBytes : Nat) (maxBlocks : Option Nat) (ops : List Op),
      ((new maxSizeBytes maxBlocks).run hashing ops).WithinLimits := by
  intro h
  have hsize := (h asStored 1 none [.insert ⟨sampleCid 0, [1, 2]⟩]).2.1
  revert hsize
  decide

end BlockCache

end Ipfrs.Core
