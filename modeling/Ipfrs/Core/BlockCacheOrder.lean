/-
Ipfrs.Core.BlockCacheOrder — in which order the block cache evicts.

A traced call does what the call does (`traced_cache`) and keeps the log of uses and drops
and the states in which a block was evicted. In these states the stamp of every cached
block is the level of the log before its last use (`Logged`); so what can be evicted is the
block used longest ago exactly if there are no more drops than uses between its last use
and the last use of any other cached block (`canEvict_lru_iff`).
-/
import Ipfrs.Core.BlockCacheTheorems

namespace Ipfrs.Core

open Ipfrs.Lib

namespace BlockCache

/-- A state in which a block was evicted. -/
structure Eviction where
  cache : BlockCache
  log : List (UseEvent Cid)
  evicted : Cid

/-- A cache with its log, the latest event first, and its evictions. -/
structure Traced where
  cache : BlockCache
  log : List (UseEvent Cid) := []
  evictions : List Eviction := []

variable (hashing : HashOrder)

/-- One eviction, with its trace. -/
def tracedEvict (t : Traced) : Traced :=
  let cache := t.cache.evictLru (t.cache.iteration hashing)
  match t.cache.lruCid (t.cache.iteration hashing) with
  | some cid =>
    { cache
      log := .drop cid :: t.log
      evictions := { cache := t.cache, log := t.log, evicted := cid } :: t.evictions }
  | none => { t with cache }

/-- `evictLoop`, with its trace. -/
def tracedLoop (size : Nat) : Nat → Traced → Traced
  | 0, t => t
  | rounds + 1, t =>
    if t.cache.wouldExceedLimits size && !t.cache.blocks.keys.isEmpty then
      tracedLoop size rounds (tracedEvict hashing t)
    else t

/-- A call, with its trace. -/
def traced (t : Traced) (op : Op) : Traced :=
  match op with
  | .insert block =>
    if t.cache.contains block.cid then
      { t with
        cache := t.cache.apply hashing op
        log := .use block.cid :: t.log }
    else
      let t := tracedLoop hashing block.data.length t.cache.len t
      { t with cache := t.cache.insertNew block, log := .use block.cid :: t.log }
  | .get cid =>
    { t with
      cache := t.cache.apply hashing op
      log := if t.cache.contains cid then .use cid :: t.log else t.log }
  | .contains _ => t
  | .remove cid =>
    { t with
      cache := t.cache.apply hashing op
      log := if t.cache.contains cid then .drop cid :: t.log else t.log }
  | .clear => { t with cache := t.cache.apply hashing op, log := .clear :: t.log }

/-- A sequence of calls, with its trace. -/
def tracedRun (t : Traced) (ops : List Op) : Traced := ops.foldl (traced hashing) t

theorem tracedEvict_cache (t : Traced) :
    (tracedEvict hashing t).cache = t.cache.evictLru (t.cache.iteration hashing) := by
  unfold tracedEvict
  split
  · rfl
  · rfl

theorem tracedLoop_cache (size : Nat) : ∀ (rounds : Nat) (t : Traced),
    (tracedLoop hashing size rounds t).cache = evictLoop hashing size rounds t.cache
  | 0, _ => rfl
  | rounds + 1, t => by
    rw [tracedLoop, evictLoop]
    split
    · rw [tracedLoop_cache size rounds, tracedEvict_cache]
    · rfl

/-- The trace changes nothing. -/
theorem traced_cache (t : Traced) (op : Op) :
    (traced hashing t op).cache = t.cache.apply hashing op := by
  cases op with
  | insert block =>
    simp only [traced]
    split
    · rfl
    · next h =>
      have hnot : block.cid ∉ t.cache.blocks := fun hmem => h (contains_eq_true.mpr hmem)
      have heq : t.cache.apply hashing (.insert block) = _ := insert_of_not_mem hashing hnot
      rw [heq, ← tracedLoop_cache]
  | get cid => rfl
  | contains cid => rfl
  | remove cid => rfl
  | clear => rfl

theorem tracedRun_cache (ops : List Op) : ∀ t : Traced,
    (tracedRun hashing t ops).cache = t.cache.run hashing ops := by
  induction ops with
  | nil => exact fun _ => rfl
  | cons op ops ih =>
    intro t
    have hstep := ih (traced hashing t op)
    rw [traced_cache] at hstep
    exact hstep

/-! ## The log -/

/-- The state a log leads to: stamps are levels of the log. -/
structure Logged (c : BlockCache) (log : List (UseEvent Cid)) : Prop where
  inv : c.Inv
  level : (c.lruList.length : Int) = UseLog.level log
  live : ∀ cid ∈ c.blocks, UseLog.Live cid log
  stamp : ∀ cid entry, c.blocks.lookup cid = some entry →
    (entry.lastAccessIndex : Int) = UseLog.stamp cid log

variable {c : BlockCache} {log : List (UseEvent Cid)} {cid : Cid} {entry : CacheEntry}

theorem logged_new (maxSizeBytes : Nat) (maxBlocks : Option Nat) :
    (new maxSizeBytes maxBlocks).Logged [] where
  inv := inv_new maxSizeBytes maxBlocks
  level := rfl
  live cid h := absurd h (AList.notMem_empty cid)
  stamp cid entry h := by simp [new] at h

/-- The statistics do not matter. -/
theorem Logged.withStats (hl : c.Logged log) (stats : CacheStats) : Logged { c with stats } log :=
  ⟨⟨hl.inv.sized, hl.inv.listed, hl.inv.total⟩, hl.level, hl.live, hl.stamp⟩

theorem Logged.take (hl : c.Logged log) (h : c.blocks.lookup cid = some entry) :
    (c.take cid entry).Logged (.drop cid :: log) where
  inv := hl.inv.take h
  level := by
    have hmem := hl.inv.listed cid (mem_of_lookup h)
    have hpos := List.length_pos_of_mem hmem
    have hlevel := hl.level
    simp only [BlockCache.take, List.length_erase_of_mem hmem, UseLog.level]
    omega
  live cid' h' := (hl.live cid' (AList.mem_erase.mp h').2).cons (by simp)
  stamp cid' entry' h' := by
    have hne : cid' ≠ cid := (AList.mem_erase.mp (mem_of_lookup h')).1
    rw [BlockCache.take, AList.lookup_erase_ne hne] at h'
    rw [UseLog.stamp_cons_of_ne (by simp)]
    exact hl.stamp cid' entry' h'

/-- A use: the block is stored with the length of the list. -/
theorem Logged.use (hl : c.Logged log) {c' : BlockCache} (hinv : c'.Inv)
    (hlist : c'.lruList = c.lruList ++ [cid])
    (hself : ∃ entry, c'.blocks.lookup cid = some entry ∧
      entry.lastAccessIndex = c.lruList.length)
    (hother : ∀ cid', cid' ≠ cid → c'.blocks.lookup cid' = c.blocks.lookup cid') :
    c'.Logged (.use cid :: log) where
  inv := hinv
  level := by
    have hlevel := hl.level
    simp only [hlist, List.length_append, List.length_singleton, UseLog.level]
    omega
  live cid' h' := by
    by_cases hcid : cid' = cid
    · rw [hcid]
      exact UseLog.live_use cid log
    · refine (hl.live cid' ?_).cons (by simp)
      rw [← AList.lookup_isSome, ← hother cid' hcid]
      exact AList.lookup_isSome.mpr h'
  stamp cid' entry' h' := by
    by_cases hcid : cid' = cid
    · subst hcid
      obtain ⟨entry, hentry, hindex⟩ := hself
      obtain rfl := Option.some.inj (hentry.symm.trans h')
      rw [hindex, UseLog.stamp_use]
      exact hl.level
    · rw [hother cid' hcid] at h'
      rw [UseLog.stamp_cons_of_ne (by simpa using fun heq => hcid heq.symm)]
      exact hl.stamp cid' entry' h'

theorem Logged.updateAccess (hl : c.Logged log) (h : c.blocks.lookup cid = some entry) :
    (c.updateAccess cid).Logged (.use cid :: log) := by
  refine hl.use (hl.inv.updateAccess h) ?_ ?_ ?_
  · rw [updateAccess_of_lookup h]
  · rw [updateAccess_of_lookup h]
    exact ⟨_, AList.lookup_insert _, rfl⟩
  · intro cid' hne
    rw [updateAccess_of_lookup h]
    exact AList.lookup_insert_ne hne

theorem Logged.insertNew (hl : c.Logged log) {block : Block} (h : block.cid ∉ c.blocks) :
    (c.insertNew block).Logged (.use block.cid :: log) :=
  hl.use (hl.inv.insertNew h) rfl ⟨_, AList.lookup_insert _, rfl⟩
    (fun _ hne => AList.lookup_insert_ne hne)

/-- What is kept of a trace: the state follows the log, and so did those of the
evictions. -/
structure Traced.Inv (t : Traced) : Prop where
  logged : t.cache.Logged t.log
  evictions : ∀ e ∈ t.evictions, e.cache.Logged e.log ∧ e.cache.CanEvict e.evicted

theorem Traced.Inv.evict {t : Traced} (h : t.Inv) (hne : t.cache.blocks.keys ≠ []) :
    (tracedEvict hashing t).Inv := by
  obtain ⟨cid, entry, hlru, hcan, hlookup, heq⟩ :=
    evictLru_spec h.logged.inv hne (iteration_perm hashing t.cache)
  simp only [tracedEvict, hlru, heq]
  refine ⟨(h.logged.take hlookup).withStats _, fun e he => ?_⟩
  rcases List.mem_cons.mp he with rfl | he
  · exact ⟨h.logged, hcan⟩
  · exact h.evictions e he

theorem Traced.Inv.loop (size : Nat) : ∀ (rounds : Nat) {t : Traced}, t.Inv →
    (tracedLoop hashing size rounds t).Inv
  | 0, _, h => h
  | rounds + 1, t, h => by
    rw [tracedLoop]
    split
    · next hexceed =>
      have hne : t.cache.blocks.keys ≠ [] := by
        intro hnil
        simp [hnil] at hexceed
      exact Traced.Inv.loop size rounds (h.evict hashing hne)
    · exact h

/-- **One call** keeps the trace. -/
theorem Traced.Inv.traced {t : Traced} (h : t.Inv) (op : Op) :
    (BlockCache.traced hashing t op).Inv := by
  cases op with
  | insert block =>
    simp only [BlockCache.traced]
    cases hlookup : t.cache.blocks.lookup block.cid with
    | some entry =>
      have hcontains := contains_eq_true.mpr (mem_of_lookup hlookup)
      have heq : t.cache.apply hashing (.insert block) = t.cache.updateAccess block.cid :=
        insert_of_lookup hashing hlookup
      rw [if_pos hcontains, heq]
      exact ⟨h.logged.updateAccess hlookup, h.evictions⟩
    | none =>
      have hnot := AList.lookup_eq_none.mp hlookup
      have hout := (evictLoop_spec hashing block.data.length t.cache.len h.logged.inv
        (Nat.le_refl _)).2.2.1 _ hnot
      rw [← tracedLoop_cache] at hout
      have hloop := h.loop hashing block.data.length t.cache.len
      rw [if_neg (fun hcontains => hnot (contains_eq_true.mp hcontains))]
      exact ⟨hloop.logged.insertNew hout, hloop.evictions⟩
  | get cid =>
    cases hlookup : t.cache.blocks.lookup cid with
    | some entry =>
      have hcontains := contains_eq_true.mpr (mem_of_lookup hlookup)
      simp only [BlockCache.traced, hcontains, if_true, apply, get, hlookup]
      exact ⟨(h.logged.withStats _).updateAccess hlookup, h.evictions⟩
    | none =>
      have hnot := AList.lookup_eq_none.mp hlookup
      have hcontains : ¬ t.cache.contains cid = true :=
        fun hcontains => hnot (contains_eq_true.mp hcontains)
      simp only [BlockCache.traced, if_neg hcontains, apply, get, hlookup]
      exact ⟨h.logged.withStats _, h.evictions⟩
  | contains cid => exact h
  | remove cid =>
    cases hlookup : t.cache.blocks.lookup cid with
    | some entry =>
      have hcontains := contains_eq_true.mpr (mem_of_lookup hlookup)
      simp only [BlockCache.traced, hcontains, if_true, apply, remove, hlookup]
      exact ⟨h.logged.take hlookup, h.evictions⟩
    | none =>
      have hnot := AList.lookup_eq_none.mp hlookup
      have hcontains : ¬ t.cache.contains cid = true :=
        fun hcontains => hnot (contains_eq_true.mp hcontains)
      simp only [BlockCache.traced, if_neg hcontains, apply, remove, hlookup]
      exact h
  | clear =>
    refine ⟨⟨(h.logged.inv.apply hashing .clear).1, rfl, fun cid hcid => ?_,
      fun cid entry hentry => ?_⟩, h.evictions⟩
    · exact absurd hcid (AList.notMem_empty cid)
    · simp [BlockCache.traced, apply, clear] at hentry

theorem Traced.Inv.run (ops : List Op) : ∀ {t : Traced}, t.Inv → (tracedRun hashing t ops).Inv := by
  induction ops with
  | nil => exact fun h => h
  | cons op ops ih => exact fun h => ih (h.traced hashing op)

/-! ## The block used longest ago -/

/-- The block is cached, and no other cached block was used longer ago. -/
def LeastRecent (c : BlockCache) (log : List (UseEvent Cid)) (cid : Cid) : Prop :=
  cid ∈ c.blocks ∧ ∀ cid' ∈ c.blocks, UseLog.age cid' log ≤ UseLog.age cid log

/-- Between the last use of the block used longest ago and the last use of any other cached
block, blocks were not dropped more often than used. -/
def Balanced (c : BlockCache) (log : List (UseEvent Cid)) : Prop :=
  ∀ cid cid', c.LeastRecent log cid → cid' ∈ c.blocks → cid' ≠ cid →
    UseLog.drops (UseLog.between cid cid' log) ≤ UseLog.uses (UseLog.between cid cid' log)

instance (c : BlockCache) (log : List (UseEvent Cid)) (cid : Cid) :
    Decidable (c.LeastRecent log cid) :=
  inferInstanceAs (Decidable (cid ∈ c.blocks ∧
    ∀ cid' ∈ c.blocks.keys, UseLog.age cid' log ≤ UseLog.age cid log))

theorem LeastRecent.unique (hl : c.Logged log) {cid cid' : Cid} (h : c.LeastRecent log cid)
    (h' : c.LeastRecent log cid') : cid = cid' :=
  UseLog.eq_of_age_eq (hl.live cid h.1).1 (hl.live cid' h'.1).1
    (Nat.le_antisymm (h'.2 cid h.1) (h.2 cid' h'.1))

theorem exists_leastRecent (hne : c.blocks.keys ≠ []) : ∃ cid, c.LeastRecent log cid := by
  cases hmax : c.blocks.keys.argmax (fun cid => UseLog.age cid log) with
  | none => exact absurd (List.argmax_eq_none.mp hmax) hne
  | some cid =>
    exact ⟨cid, List.argmax_mem hmax, fun cid' h' =>
      List.le_of_mem_argmax (f := fun cid => UseLog.age cid log) h' hmax⟩

/-- The stamp of the block used longest ago is below that of another exactly if the log
between the two is balanced. -/
theorem LeastRecent.stamp_lt_iff (hl : c.Logged log) (h : c.LeastRecent log cid) {cid' : Cid}
    (h' : cid' ∈ c.blocks) (hne : cid' ≠ cid) {entry entry' : CacheEntry}
    (hentry : c.blocks.lookup cid = some entry) (hentry' : c.blocks.lookup cid' = some entry') :
    entry.lastAccessIndex < entry'.lastAccessIndex ↔
      UseLog.drops (UseLog.between cid cid' log) ≤ UseLog.uses (UseLog.between cid cid' log) := by
  have hlive := hl.live cid h.1
  have hage : UseLog.age cid' log < UseLog.age cid log := by
    refine lt_of_le_of_ne (h.2 cid' h') (fun heq => hne ?_)
    exact UseLog.eq_of_age_eq (hl.live cid' h').1 hlive.1 heq
  rw [← UseLog.stamp_lt_stamp_iff hlive hage, ← hl.stamp cid entry hentry,
    ← hl.stamp cid' entry' hentry']
  omega

/-- **What can be evicted** is the block used longest ago exactly if the log is balanced. -/
theorem canEvict_lru_iff (hl : c.Logged log) :
    (∀ cid, c.CanEvict cid → c.LeastRecent log cid) ↔ c.Balanced log := by
  constructor
  · intro h cid cid' hleast hmem hne
    obtain ⟨entry, hentry⟩ := Option.isSome_iff_exists.mp (AList.lookup_isSome.mpr hleast.1)
    obtain ⟨entry', hentry'⟩ := Option.isSome_iff_exists.mp (AList.lookup_isSome.mpr hmem)
    rw [← hleast.stamp_lt_iff hl hmem hne hentry hentry']
    by_contra hle
    -- a block with a least stamp other than the least recent one
    obtain ⟨low, -, -, hcan, -, -⟩ := evictLru_spec hl.inv
      (List.ne_nil_of_mem (a := cid) hleast.1) (List.Perm.refl c.blocks.entries)
    obtain ⟨lowEntry, hlow, hmin⟩ := (canEvict_iff hl.inv).mp hcan
    have heq : low = cid := (h low hcan).unique hl hleast
    subst heq
    obtain rfl := Option.some.inj (hlow.symm.trans hentry)
    have hcan' : c.CanEvict cid' :=
      (canEvict_iff hl.inv).mpr ⟨entry', hentry', fun cid'' entry'' h'' =>
        (Nat.le_of_not_lt hle).trans (hmin cid'' entry'' h'')⟩
    exact hne ((h cid' hcan').unique hl hleast)
  · intro h cid hcan
    obtain ⟨entry, hentry, hmin⟩ := (canEvict_iff hl.inv).mp hcan
    have hmem := mem_of_lookup hentry
    obtain ⟨least, hleast⟩ : ∃ least, c.LeastRecent log least :=
      exists_leastRecent (List.ne_nil_of_mem (a := cid) hmem)
    by_cases heq : cid = least
    · rw [heq]
      exact hleast
    · obtain ⟨leastEntry, hleastEntry⟩ :=
        Option.isSome_iff_exists.mp (AList.lookup_isSome.mpr hleast.1)
      have hlt := (hleast.stamp_lt_iff hl hmem heq hleastEntry hentry).mpr
        (h least cid hleast hmem heq)
      have := hmin least leastEntry hleastEntry
      omega

/-- **The order of eviction**: what is evicted is a block that can be evicted; and in every
state in which a block is evicted each such block is the one used longest ago, exactly if in
each of these states the log is balanced. -/
theorem evictions_lru_iff (maxSizeBytes : Nat) (maxBlocks : Option Nat) (ops : List Op) :
    (∀ e ∈ (tracedRun hashing { cache := new maxSizeBytes maxBlocks } ops).evictions,
      e.cache.CanEvict e.evicted) ∧
    ((∀ e ∈ (tracedRun hashing { cache := new maxSizeBytes maxBlocks } ops).evictions,
        ∀ cid, e.cache.CanEvict cid → e.cache.LeastRecent e.log cid) ↔
      ∀ e ∈ (tracedRun hashing { cache := new maxSizeBytes maxBlocks } ops).evictions,
        e.cache.Balanced e.log) := by
  have hinit : Traced.Inv { cache := new maxSizeBytes maxBlocks } :=
    ⟨logged_new maxSizeBytes maxBlocks, by simp⟩
  have hrun := (hinit.run hashing ops).evictions
  refine ⟨fun e he => (hrun e he).2, ?_⟩
  constructor
  · exact fun h e he => (canEvict_lru_iff (hrun e he).1).mp (h e he)
  · exact fun h e he => (canEvict_lru_iff (hrun e he).1).mpr (h e he)

/-- Three blocks at most: after `a` is used again and two blocks are removed, a new block is
stamped lower than `a` and evicted before it. -/
def sampleCalls : List Op :=
  [.insert ⟨sampleCid 0, [0]⟩, .insert ⟨sampleCid 1, [1]⟩, .insert ⟨sampleCid 2, [2]⟩,
    .get (sampleCid 0), .remove (sampleCid 1), .remove (sampleCid 2),
    .insert ⟨sampleCid 3, [3]⟩, .insert ⟨sampleCid 4, [4]⟩, .insert ⟨sampleCid 5, [5]⟩]

theorem not_evictions_lru :
    ¬ ∀ (hashing : HashOrder) (maxSizeBytes : Nat) (maxBlocks : Option Nat) (ops : List Op),
      ∀ e ∈ (tracedRun hashing { cache := new maxSizeBytes maxBlocks } ops).evictions,
        e.cache.LeastRecent e.log e.evicted := by
  intro h
  have hsample := h asStored 100 (some 3) sampleCalls
  revert hsample
  decide

end BlockCache

end Ipfrs.Core
