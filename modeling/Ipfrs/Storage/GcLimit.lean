/-
Ipfrs.Storage.GcLimit — how many blocks a collection deletes, and what a dry run reports.

The blocks that no pin reaches are taken in the order of the listing. A dry run stops at
the limit. A real run compares the limit with what is deleted, and that is counted when a
batch is: without batches all unreached blocks are deleted, with them a multiple of the
batch size (`sweepPhase_sweeps`). So the limit is honoured, and a dry run tells what the
real one does, exactly if there is no limit, or no more blocks than that, or the batches
make it up (`collect_honoured_iff`).
-/
import Ipfrs.Storage.GcTheorems
import Mathlib.Data.Set.Card

namespace Ipfrs.Storage

open Ipfrs.Core Ipfrs.Lib
open Ipfrs.Knowledge (ColdStore MemoryBlockStore sizeIn)
open Ipfrs.Knowledge.ColdStore.Faithful (lookup)

/-! ## Deletions -/

section

variable {C : Type} [ColdStore C]

/-- Calls succeed, and a listing names a block once. -/
structure Reliable (C : Type) [ColdStore C] : Prop where
  get : ∀ (cid : Cid) (store : C), ∃ block store', ColdStore.get cid store = .ok block store'
  delete : Deletes C
  listCids : ∀ store : C, ∃ all store', ColdStore.listCids store = .ok all store' ∧ all.Nodup

variable [ColdStore.Faithful C]

/-- The counters of `result'` are those of `result` and these blocks. -/
structure Counts (store : C) (cids : List Cid) (result result' : GcResult) : Prop where
  collected : result'.blocksCollected = result.blocksCollected + cids.length
  freed : result'.bytesFreed = result.bytesFreed + (cids.map (sizeIn (lookup store))).sum

/-- These blocks are gone and counted, and no others. -/
structure Swept (cids : List Cid) (result : GcResult) (store : C) (result' : GcResult)
    (store' : C) : Prop where
  blocks : ∀ cid, lookup store' cid = if cid ∈ cids then none else lookup store cid
  counts : Counts store cids result result'

theorem Counts.of_eq {store : C} {result result' : GcResult}
    (hcollected : result'.blocksCollected = result.blocksCollected)
    (hfreed : result'.bytesFreed = result.bytesFreed) : Counts store [] result result' :=
  ⟨hcollected, by simpa using hfreed⟩

theorem Swept.of_eq {store store' : C} {result result' : GcResult}
    (hsame : lookup store' = lookup store)
    (hcollected : result'.blocksCollected = result.blocksCollected)
    (hfreed : result'.bytesFreed = result.bytesFreed) : Swept [] result store result' store' :=
  ⟨fun cid => by rw [hsame, if_neg List.not_mem_nil], Counts.of_eq hcollected hfreed⟩

theorem Counts.trans {cids cids' : List Cid} {result result' result'' : GcResult}
    {store store' : C} (h : Counts store cids result result')
    (hsizes : ∀ c ∈ cids', lookup store' c = lookup store c)
    (h' : Counts store' cids' result' result'') : Counts store (cids ++ cids') result result'' := by
  have hmap : cids'.map (sizeIn (lookup store')) = cids'.map (sizeIn (lookup store)) :=
    List.map_congr_left (fun c hc => by rw [sizeIn, sizeIn, hsizes c hc])
  constructor
  · rw [h'.collected, h.collected, List.length_append, Nat.add_assoc]
  · rw [h'.freed, h.freed, hmap, List.map_append, List.sum_append, Nat.add_assoc]

/-- What is swept afterwards had its size from the start. -/
theorem Swept.trans {cids cids' : List Cid} {result result' result'' : GcResult}
    {store store' store'' : C} (h : Swept cids result store result' store')
    (h' : Swept cids' result' store' result'' store'') (hdisjoint : ∀ c ∈ cids', c ∉ cids) :
    Swept (cids ++ cids') result store result'' store'' where
  blocks cid := by
    rw [h'.blocks, h.blocks]
    by_cases hcid : cid ∈ cids <;> by_cases hcid' : cid ∈ cids' <;> simp [hcid, hcid']
  counts := h.counts.trans (fun c hc => by rw [h.blocks, if_neg (hdisjoint c hc)]) h'.counts

theorem heldSize_spec (hR : Reliable C) (cid : Cid) (store : C) : Ends (heldSize cid) store
      (fun size store' => size.getD 0 = sizeIn (lookup store) cid ∧ lookup store' = lookup store)
      (fun _ => False) := by
  unfold Ends heldSize
  obtain ⟨block, store', hget⟩ := hR.get cid store
  obtain ⟨hblock, hsame⟩ := ColdStore.Faithful.get_ok hget
  rw [hget]
  refine ⟨?_, hsame⟩
  rw [sizeIn, ← hblock, Option.map_map]
  rfl

variable [CidStream]

theorem deleteOne_spec (hR : Reliable C) (result : GcResult) (cid : Cid) (store : C) :
    Ends (deleteOne result cid) store
      (fun result' store' =>
        result' = { result with blocksCollected := result.blocksCollected + 1 }
          ∧ lookup store' = Function.update (lookup store) cid none)
      (fun _ => False) := by
  unfold Ends deleteOne
  obtain ⟨store', hdelete⟩ := hR.delete cid store
  rw [hdelete]
  exact ⟨rfl, ColdStore.Faithful.delete_ok hdelete⟩

theorem deleteBatch_sweeps (hR : Reliable C) : ∀ {cids : List Cid}, cids.Nodup →
    ∀ (result : GcResult) (store : C),
      Ends (deleteBatch cids result) store (Swept cids result store) (fun _ => False)
  | [], _, _, _ => Swept.of_eq rfl rfl rfl
  | cid :: rest, hnodup, result, store => by
    obtain ⟨hcid, hrest⟩ := List.nodup_cons.mp hnodup
    refine (heldSize_spec hR cid store).bind ?_
    rintro size store₁ ⟨hsize, hsame⟩
    refine (deleteOne_spec hR (addFreed result size) cid store₁).bind ?_
    rintro result₂ store₂ ⟨rfl, hgone⟩
    refine (deleteBatch_sweeps hR hrest _ store₂).conseq ?_ (fun _ h => h)
    intro result₃ store₃ hswept
    have hone : Swept [cid] result store
        { addFreed result size with
          blocksCollected := (addFreed result size).blocksCollected + 1 } store₂ := by
      refine ⟨fun c => ?_, rfl, ?_⟩
      · rw [hgone, hsame]
        by_cases hc : c = cid
        · simp [hc]
        · simp [hc]
      · simp [addFreed, hsize]
    refine hone.trans hswept (fun c hc hmem => ?_)
    rw [List.mem_singleton.mp hmem] at hc
    exact hcid hc

end

/-! ## The loop -/

section

variable [CidCrate] [CidStream] {C : Type} [ColdStore C] [ColdStore.Faithful C]

omit [CidStream] in
/-- The listed blocks that are not marked. -/
def garbage (marked : List (List UInt8)) (all : List Cid) : List Cid :=
  all.filter (fun cid => !marked.contains (CidCrate.toBytes cid))

omit [CidStream] in
theorem garbage_of_mem {marked : List (List UInt8)} {cid : Cid}
    (hmarked : CidCrate.toBytes cid ∈ marked) (rest : List Cid) :
    garbage marked (cid :: rest) = garbage marked rest :=
  List.filter_cons_of_neg (by simpa using hmarked)

omit [CidStream] in
theorem garbage_of_not_mem {marked : List (List UInt8)} {cid : Cid}
    (hmarked : CidCrate.toBytes cid ∉ marked) (rest : List Cid) :
    garbage marked (cid :: rest) = cid :: garbage marked rest :=
  List.filter_cons_of_pos (by simpa using hmarked)

omit [ColdStore.Faithful C] in
/-- One round of the loop, if nothing stops it. -/
theorem sweepLoop_idle (config : GcConfig) (marked : List (List UInt8)) (cid : Cid)
    (rest : List Cid) (state : Sweeping) :
    (sweepLoop config Watch.idle marked (cid :: rest) state : EStateM Error C Sweeping) =
      if config.maxBlocksPerRun > 0 ∧ state.result.blocksCollected ≥ config.maxBlocksPerRun then
        pure { state with
          result := { state.result with interrupted := true }, look := state.look + 2 }
      else if CidCrate.toBytes cid ∈ marked then
        sweepLoop config Watch.idle marked rest { state with look := state.look + 2 }
      else (gatherBlock config { state with look := state.look + 2 } cid >>= finishBatch config)
        >>= sweepLoop config Watch.idle marked rest := by
  rw [sweepLoop, bind_assoc]
  simp [Watch.idle, GcConfig.shouldStop]

/-- How many blocks a batch has, in an incremental run. -/
def GcConfig.batch (config : GcConfig) : Nat := max config.batchSize 1

/-- What a real run keeps: whole batches are deleted, and nothing is gathered behind the
limit. -/
structure Gathering (config : GcConfig) (state : Sweeping) : Prop where
  counted : state.batchCount = state.toDelete.length
  idle : config.incremental = false → state.result.blocksCollected = 0
  short : config.incremental = true → state.toDelete.length < config.batch
  batches : config.incremental = true → config.batch ∣ state.result.blocksCollected
  within : config.incremental = true → 0 < config.maxBlocksPerRun →
    state.result.blocksCollected < config.maxBlocksPerRun + config.batch
  pending : config.incremental = true → 0 < config.maxBlocksPerRun → state.toDelete ≠ [] →
    state.result.blocksCollected < config.maxBlocksPerRun

/-- What the loop does to a listing: the gathered and the unmarked blocks are deleted or
gathered, or the limit is reached at the end of a batch. -/
def Sweeps (config : GcConfig) (gathered : List Cid) (state : Sweeping) (store : C)
    (state' : Sweeping) (store' : C) : Prop :=
  Gathering config state' ∧ ∃ swept, Swept swept state.result store state'.result store'
    ∧ (swept ++ state'.toDelete = gathered
      ∨ 0 < config.maxBlocksPerRun ∧ config.incremental = true
        ∧ config.maxBlocksPerRun ≤ state'.result.blocksCollected
        ∧ state'.toDelete = [] ∧ swept <+: gathered)

omit [CidCrate] in
/-- Gathering an unmarked block, and deleting the batch if it is full. -/
theorem gather_sweeps (hR : Reliable C) {config : GcConfig} (hreal : config.dryRun = false)
    {state : Sweeping} (hstate : Gathering config state) (hbelow : 0 < config.maxBlocksPerRun →
      state.result.blocksCollected < config.maxBlocksPerRun)
    {cid : Cid} (hnodup : (state.toDelete ++ [cid]).Nodup) (store : C) :
    Ends (gatherBlock config state cid >>= finishBatch config) store
      (fun state' store' => Gathering config state' ∧
        ∃ swept, Swept swept state.result store state'.result store'
          ∧ swept ++ state'.toDelete = state.toDelete ++ [cid]) (fun _ => False) := by
  have hgather : gatherBlock config state cid = (pure { state with
      toDelete := state.toDelete ++ [cid], batchCount := state.batchCount + 1 }
      : EStateM Error C Sweeping) := by
    rw [gatherBlock, if_neg (by simp [hreal])]
  rw [hgather, pure_bind, finishBatch]
  dsimp only
  by_cases hfull : config.incremental = true ∧ state.batchCount + 1 ≥ config.batchSize
  · rw [if_pos hfull, if_pos ⟨hreal, by simp⟩]
    obtain ⟨hinc, hsize⟩ := hfull
    refine (deleteBatch_sweeps hR hnodup state.result store).bind (fun result' store' hswept => ?_)
    have hbatch : state.toDelete.length + 1 = config.batch := by
      have hshort := hstate.short hinc
      have hcounted := hstate.counted
      simp only [GcConfig.batch] at hshort ⊢
      omega
    have hcollected : result'.blocksCollected = state.result.blocksCollected + config.batch := by
      rw [hswept.counts.collected, ← hbatch, List.length_append, List.length_singleton]
    refine ⟨⟨rfl, fun h => ?_, fun _ => ?_, fun _ => ?_, fun _ hlimit => ?_, fun _ _ h => ?_⟩,
      _, hswept, List.append_nil _⟩
    · rw [hinc] at h
      cases h
    · simp [GcConfig.batch]
    · rw [hcollected]
      exact Nat.dvd_add (hstate.batches hinc) (Nat.dvd_refl _)
    · have hlt := hbelow hlimit
      rw [hcollected]
      omega
    · exact absurd rfl h
  · rw [if_neg hfull]
    refine ⟨⟨?_, hstate.idle, fun hinc => ?_, hstate.batches, hstate.within,
      fun _ hlimit _ => hbelow hlimit⟩, [], Swept.of_eq rfl rfl rfl, rfl⟩
    · rw [hstate.counted, List.length_append, List.length_singleton]
    · have hsize : ¬ state.batchCount + 1 ≥ config.batchSize := fun h => hfull ⟨hinc, h⟩
      rw [hstate.counted] at hsize
      rw [List.length_append, List.length_singleton, GcConfig.batch]
      omega

theorem sweepLoop_sweeps (hR : Reliable C) {config : GcConfig} (hreal : config.dryRun = false)
    (marked : List (List UInt8)) : ∀ (all : List Cid) {state : Sweeping} (store : C),
      Gathering config state → (state.toDelete ++ garbage marked all).Nodup →
      Ends (sweepLoop config Watch.idle marked all state) store
        (Sweeps config (state.toDelete ++ garbage marked all) state store) (fun _ => False)
  | [], state, store, hstate, _ =>
    ⟨hstate, [], Swept.of_eq rfl rfl rfl, .inl (List.append_nil _).symm⟩
  | cid :: rest, state, store, hstate, hnodup => by
    rw [sweepLoop_idle]
    by_cases hlimit : config.maxBlocksPerRun > 0
        ∧ state.result.blocksCollected ≥ config.maxBlocksPerRun
    · rw [if_pos hlimit]
      have hinc : config.incremental = true := by
        by_contra hno
        have hzero := hstate.idle (by simpa using hno)
        omega
      have hempty : state.toDelete = [] := by
        by_contra hsome
        have hlt := hstate.pending hinc hlimit.1 hsome
        omega
      exact ⟨⟨hstate.counted, hstate.idle, hstate.short, hstate.batches, hstate.within,
        hstate.pending⟩, [], Swept.of_eq rfl rfl rfl, .inr ⟨hlimit.1, hinc, hlimit.2, hempty,
        List.nil_prefix⟩⟩
    · rw [if_neg hlimit]
      have hstate' : Gathering config { state with look := state.look + 2 } :=
        ⟨hstate.counted, hstate.idle, hstate.short, hstate.batches, hstate.within,
          hstate.pending⟩
      by_cases hmarked : CidCrate.toBytes cid ∈ marked
      · rw [if_pos hmarked]
        rw [garbage_of_mem hmarked] at hnodup ⊢
        exact sweepLoop_sweeps hR hreal marked rest store hstate' hnodup
      · rw [if_neg hmarked]
        rw [garbage_of_not_mem hmarked, List.append_cons] at hnodup ⊢
        have hbelow : 0 < config.maxBlocksPerRun →
            state.result.blocksCollected < config.maxBlocksPerRun :=
          fun hpos => Nat.lt_of_not_ge (fun hge => hlimit ⟨hpos, hge⟩)
        refine (gather_sweeps hR hreal hstate' hbelow hnodup.of_append_left store).bind ?_
        rintro state₁ store₁ ⟨hstate₁, swept₁, hswept₁, hgathered⟩
        rw [← hgathered] at hnodup ⊢
        rw [List.append_assoc] at hnodup ⊢
        refine (sweepLoop_sweeps hR hreal marked rest store₁ hstate₁
          hnodup.of_append_right).conseq ?_ (fun _ h => h)
        rintro state₂ store₂ ⟨hstate₂, swept₂, hswept₂, hcase⟩
        refine ⟨hstate₂, swept₁ ++ swept₂, hswept₁.trans hswept₂ ?_, ?_⟩
        · have hpre : swept₂ <+: state₁.toDelete ++ garbage marked rest := by
            rcases hcase with hall | ⟨-, -, -, -, hpre⟩
            · exact ⟨_, hall⟩
            · exact hpre
          intro c hc hmem
          exact (List.disjoint_of_nodup_append hnodup) hmem (hpre.subset hc)
        · rcases hcase with hall | ⟨hpos, hinc, hreached, hnone, hpre⟩
          · exact .inl (by rw [List.append_assoc, hall])
          · exact .inr ⟨hpos, hinc, hreached, hnone,
              (List.prefix_append_right_inj swept₁).mpr hpre⟩

/-- How many of `n` unmarked blocks a real run deletes is told by these. -/
structure Extent (config : GcConfig) (n k : Nat) : Prop where
  all_or_reached : k = n ∨ 0 < config.maxBlocksPerRun ∧ config.incremental = true
    ∧ config.maxBlocksPerRun ≤ k ∧ config.batch ∣ k
  exact : 0 < config.maxBlocksPerRun → config.incremental = true →
    config.batch ∣ config.maxBlocksPerRun → k ≤ config.maxBlocksPerRun

/-- **A real sweep** deletes the first of the unmarked blocks. -/
theorem sweepPhase_sweeps (hR : Reliable C) {config : GcConfig} (hreal : config.dryRun = false)
    (marking : Marking) {result : GcResult} (hnone : result.blocksCollected = 0)
    {store store₁ : C} {all : List Cid} (hlist : ColdStore.listCids store = .ok all store₁)
    (hnodup : all.Nodup) : Ends (sweepPhase config Watch.idle marking result) store
      (fun result' store' => ∃ swept, Swept swept result store result' store'
        ∧ swept <+: garbage marking.marked all
        ∧ Extent config (garbage marking.marked all).length swept.length) (fun _ => False) := by
  obtain ⟨-, hsame⟩ := ColdStore.Faithful.listCids_ok hlist
  unfold Ends sweepPhase
  rw [run_bind_ok hlist]
  change Ends _ store₁ _ _
  have hgarbage : (garbage marking.marked all).Nodup := hnodup.filter _
  have hstart : Gathering config
      { result := { result with blocksScanned := all.length }
        toDelete := [], batchCount := 0, look := marking.look } := by
    refine ⟨rfl, fun _ => hnone, fun _ => ?_, fun _ => ?_, fun _ hpos => ?_, fun _ _ h => ?_⟩
    · simp [GcConfig.batch]
    · simp [hnone]
    · simp only [hnone]
      omega
    · exact absurd rfl h
  refine (sweepLoop_sweeps hR hreal marking.marked all store₁ hstart
    (by simpa using hgarbage)).bind ?_
  rintro state store₂ ⟨hstate, swept, hswept, hcase⟩
  rw [List.nil_append] at hcase
  have hpre : swept ++ state.toDelete <+: garbage marking.marked all := by
    rcases hcase with hall | ⟨-, -, -, hempty, hpre⟩
    · exact ⟨[], by rw [hall, List.append_nil]⟩
    · rwa [hempty, List.append_nil]
  have hboth : (swept ++ state.toDelete).Nodup := hgarbage.sublist hpre.sublist
  have hcollected : state.result.blocksCollected = swept.length := by
    rw [hswept.counts.collected]
    simp [hnone]
  have hextent : Extent config (garbage marking.marked all).length
      (swept ++ state.toDelete).length := by
    constructor
    · rcases hcase with hall | ⟨hpos, hinc, hreached, hempty, -⟩
      · exact .inl (by rw [hall])
      · refine .inr ⟨hpos, hinc, ?_⟩
        rw [hempty, List.append_nil, ← hcollected]
        exact ⟨hreached, hstate.batches hinc⟩
    · intro hpos hinc hdvd
      have hshort := hstate.short hinc
      obtain ⟨j, hj⟩ := hdvd
      obtain ⟨i, hi⟩ := hstate.batches hinc
      rw [List.length_append, ← hcollected]
      by_cases hempty : state.toDelete = []
      · have hwithin := hstate.within hinc hpos
        have hle : i ≤ j := by
          rw [hi, hj, ← Nat.mul_succ] at hwithin
          exact Nat.le_of_lt_succ (Nat.lt_of_mul_lt_mul_left hwithin)
        have hmul := Nat.mul_le_mul_left config.batch hle
        rw [hempty, List.length_nil]
        omega
      · have hpending := hstate.pending hinc hpos hempty
        have hlt : i + 1 ≤ j := by
          rw [hi, hj] at hpending
          exact Nat.lt_of_mul_lt_mul_left hpending
        have hmul := Nat.mul_le_mul_left config.batch hlt
        rw [Nat.mul_succ] at hmul
        omega
  have hresult : ∀ {result' : GcResult} {store' : C},
      Swept (swept ++ state.toDelete) { result with blocksScanned := all.length } store₁ result'
        store' → Swept (swept ++ state.toDelete) result store result' store' := by
    intro result' store' h
    have hstart' : Swept [] result store { result with blocksScanned := all.length } store₁ :=
      Swept.of_eq hsame rfl rfl
    exact hstart'.trans h (fun c _ => List.not_mem_nil)
  split
  · refine (deleteBatch_sweeps hR hboth.of_append_right state.result store₂).conseq ?_
      (fun _ h => h)
    intro result' store' hrest
    refine ⟨_, hresult (hswept.trans hrest (fun c hc hmem => ?_)), hpre, hextent⟩
    exact List.disjoint_of_nodup_append hboth hmem hc
  · next hdone =>
    have hempty : state.toDelete = [] := by
      by_contra hsome
      exact hdone ⟨hreal, by simpa using hsome⟩
    refine ⟨_, hresult ?_, hpre, hextent⟩
    rw [hempty, List.append_nil]
    exact hswept

omit [CidCrate] in
/-- Counting an unmarked block. -/
theorem gather_counts (hR : Reliable C) {config : GcConfig} (hdry : config.dryRun = true)
    (state : Sweeping) (cid : Cid) (store : C) :
    Ends (gatherBlock config state cid >>= finishBatch config) store
      (fun state' store' => lookup store' = lookup store ∧ state'.toDelete = state.toDelete
        ∧ Counts store [cid] state.result state'.result) (fun _ => False) := by
  rw [gatherBlock, if_pos hdry, bind_assoc]
  refine (heldSize_spec hR cid store).bind ?_
  rintro size store₁ ⟨hsize, hsame⟩
  rw [pure_bind, finishBatch]
  split
  · rw [if_neg (by simp [hdry])]
    exact ⟨hsame, rfl, rfl, by simp [addFreed, hsize]⟩
  · exact ⟨hsame, rfl, rfl, by simp [addFreed, hsize]⟩

/-- A dry run counts the first of the unmarked blocks, up to the limit. -/
theorem sweepLoop_counts (hR : Reliable C) {config : GcConfig} (hdry : config.dryRun = true)
    (marked : List (List UInt8)) : ∀ (all : List Cid) (state : Sweeping) (store : C),
      state.toDelete = [] →
      (0 < config.maxBlocksPerRun → state.result.blocksCollected ≤ config.maxBlocksPerRun) →
      Ends (sweepLoop config Watch.idle marked all state) store
        (fun state' store' => lookup store' = lookup store ∧ state'.toDelete = []
          ∧ ∃ counted, Counts store counted state.result state'.result
            ∧ counted <+: garbage marked all
            ∧ (counted = garbage marked all
              ∨ 0 < config.maxBlocksPerRun
                ∧ config.maxBlocksPerRun ≤ state'.result.blocksCollected)
            ∧ (0 < config.maxBlocksPerRun →
              state'.result.blocksCollected ≤ config.maxBlocksPerRun))
        (fun _ => False)
  | [], state, store, hempty, hle =>
    ⟨rfl, hempty, [], Counts.of_eq rfl rfl, List.nil_prefix, .inl rfl, hle⟩
  | cid :: rest, state, store, hempty, hle => by
    rw [sweepLoop_idle]
    by_cases hlimit : config.maxBlocksPerRun > 0
        ∧ state.result.blocksCollected ≥ config.maxBlocksPerRun
    · rw [if_pos hlimit]
      exact ⟨rfl, hempty, [], Counts.of_eq rfl rfl, List.nil_prefix, .inr hlimit, hle⟩
    · rw [if_neg hlimit]
      by_cases hmarked : CidCrate.toBytes cid ∈ marked
      · rw [if_pos hmarked]
        rw [garbage_of_mem hmarked]
        exact sweepLoop_counts hR hdry marked rest _ store hempty hle
      · rw [if_neg hmarked]
        rw [garbage_of_not_mem hmarked]
        refine (gather_counts hR hdry _ cid store).bind ?_
        rintro state₁ store₁ ⟨hsame, hkept, hone⟩
        have hbelow : 0 < config.maxBlocksPerRun →
            state₁.result.blocksCollected ≤ config.maxBlocksPerRun := by
          intro hpos
          have hlt : ¬ state.result.blocksCollected ≥ config.maxBlocksPerRun :=
            fun hge => hlimit ⟨hpos, hge⟩
          rw [hone.collected, List.length_singleton]
          exact Nat.lt_of_not_ge hlt
        refine (sweepLoop_counts hR hdry marked rest state₁ store₁ (hkept.trans hempty)
          hbelow).conseq ?_ (fun _ h => h)
        rintro state' store' ⟨hsame', hempty', counted, hcounts, hpre, hcase, hle'⟩
        refine ⟨hsame'.trans hsame, hempty', cid :: counted,
          hone.trans (fun c _ => congrFun hsame c) hcounts,
          List.prefix_cons_iff.mpr (.inr ⟨counted, rfl, hpre⟩), ?_, hle'⟩
        exact hcase.imp_left (fun hall => by rw [hall])

/-- **A dry sweep** tells what is to be deleted, and deletes nothing. -/
theorem sweepPhase_counts (hR : Reliable C) {config : GcConfig} (hdry : config.dryRun = true)
    (marking : Marking) {result : GcResult} (hnone : result.blocksCollected = 0)
    {store store₁ : C} {all : List Cid} (hlist : ColdStore.listCids store = .ok all store₁) :
    Ends (sweepPhase config Watch.idle marking result) store
      (fun result' store' => lookup store' = lookup store ∧ ∃ counted,
        Counts store counted result result' ∧ counted <+: garbage marking.marked all
          ∧ (counted = garbage marking.marked all
            ∨ 0 < config.maxBlocksPerRun ∧ config.maxBlocksPerRun ≤ counted.length)
          ∧ (0 < config.maxBlocksPerRun → counted.length ≤ config.maxBlocksPerRun))
      (fun _ => False) := by
  obtain ⟨-, hsame⟩ := ColdStore.Faithful.listCids_ok hlist
  unfold Ends sweepPhase
  rw [run_bind_ok hlist]
  change Ends _ store₁ _ _
  refine (sweepLoop_counts hR hdry marking.marked all _ store₁ rfl ?_).bind ?_
  · intro _
    simp [hnone]
  · rintro state store₂ ⟨hsame', -, counted, hcounts, hpre, hcase, hle⟩
    rw [if_neg (by simp [hdry])]
    have hstart : Counts store [] result { result with blocksScanned := all.length } :=
      Counts.of_eq rfl rfl
    have hlength : state.result.blocksCollected = counted.length := by
      rw [hcounts.collected]
      simp [hnone]
    rw [hlength] at hcase hle
    exact ⟨hsame'.trans hsame, counted, hstart.trans (fun c _ => congrFun hsame c) hcounts,
      hpre, hcase, hle⟩

end

/-! ## Collecting -/

section

variable [CidCrate] [CidCrate.Lawful] [CidStream] {C : Type} [ColdStore C] [ColdStore.Faithful C]
  {m : PinManager} {linkResolver : LinkResolver}
  {entries : List (Sigma fun _ : List UInt8 => PinInfo)}

omit [ColdStore.Faithful C] [CidCrate] [CidCrate.Lawful] [CidStream] in
/-- What a listing of the store gives. -/
def listed (store : C) : List Cid :=
  match ColdStore.listCids store with
  | .ok all _ => all
  | .error _ _ => []

open Classical in
/-- The listed blocks that no pin reaches over followed links. -/
noncomputable def unreached (m : PinManager) (linkResolver : LinkResolver) (store : C) :
    List Cid :=
  (listed store).filter (fun cid => ¬ m.Followed linkResolver cid)

/-- The listed blocks that are not there any more. -/
def lost (store store' : C) : List Cid :=
  (listed store).filter (fun cid => (lookup store' cid).isNone)

/-- Limit and dry run keep their word: in all runs from one state, whatever the order of the
pins, and there are such runs if the pins reach finitely many blocks. -/
structure Honoured (m : PinManager) (linkResolver : LinkResolver) (config : GcConfig)
    (store : C) : Prop where
  returns : {cid | m.Followed linkResolver cid}.Finite →
    ∀ dryRun entries, entries.Perm m.pins.entries → ∃ rounds r,
      collect rounds linkResolver { config with dryRun } Watch.idle entries store = some r
  limit : 0 < config.maxBlocksPerRun → ∀ dryRun rounds entries r, entries.Perm m.pins.entries →
    collect rounds linkResolver { config with dryRun } Watch.idle entries store = some r →
      (lost store (finalState r)).length ≤ config.maxBlocksPerRun
  unchanged : ∀ rounds entries r, entries.Perm m.pins.entries →
    collect rounds linkResolver { config with dryRun := true } Watch.idle entries store = some r →
      lookup (finalState r) = lookup store
  reports : ∀ rounds entries dry rounds' entries' real,
    entries.Perm m.pins.entries → entries'.Perm m.pins.entries →
    collect rounds linkResolver { config with dryRun := true } Watch.idle entries store = some dry →
    collect rounds' linkResolver { config with dryRun := false } Watch.idle entries' store
      = some real →
      ∃ d store₁ r store₂, dry = .ok d store₁ ∧ real = .ok r store₂
        ∧ d.blocksCollected = r.blocksCollected ∧ d.bytesFreed = r.bytesFreed

variable {rounds : Nat} {config : GcConfig} {store : C} {r : EStateM.Result Error C GcResult}

omit [ColdStore.Faithful C] in
/-- A run that returns has marked exactly what the pins reach, and swept. -/
theorem collect_idle (hperm : entries.Perm m.pins.entries)
    (h : collect rounds linkResolver config Watch.idle entries store = some r) :
    ∃ marking result, (∀ cid, CidCrate.toBytes cid ∈ marking.marked ↔ m.Followed linkResolver cid)
      ∧ result.blocksCollected = 0 ∧ result.bytesFreed = 0
      ∧ r = sweepPhase config Watch.idle marking result store := by
  unfold collect at h
  split at h
  · cases h
  · next e hmark =>
    obtain ⟨pins, hlist, -⟩ := m.listPins_ok hperm
    rw [markPhase, hlist] at hmark
    obtain ⟨marking, -, hmarking⟩ := Option.map_eq_some_iff.mp hmark
    cases hmarking
  · next marking hmark =>
    have hexact := (markPhase_ok hperm hmark).2.resolve_right (by
      rintro ⟨_, hcancel, _⟩
      exact Bool.false_ne_true hcancel)
    have hgoes : config.shouldStop Watch.idle marking.look = false := by
      simp [GcConfig.shouldStop, Watch.idle]
    rw [hgoes] at h
    cases h
    exact ⟨{ marking with look := marking.look + 1 }, _, hexact, rfl, rfl, rfl⟩

omit [ColdStore.Faithful C] in
theorem finite_of_collect (hperm : entries.Perm m.pins.entries)
    (h : collect rounds linkResolver config Watch.idle entries store = some r) :
    {cid | m.Followed linkResolver cid}.Finite := by
  obtain ⟨marking, -, hexact, -⟩ := collect_idle hperm h
  refine ((List.finite_toSet marking.marked).preimage toBytes_injective.injOn).subset ?_
  exact fun cid hcid => (hexact cid).mpr hcid

omit [ColdStore.Faithful C] in
theorem collect_returns (hperm : entries.Perm m.pins.entries)
    (hfinite : {cid | m.Followed linkResolver cid}.Finite) (config : GcConfig) (store : C) :
    ∃ rounds r, collect rounds linkResolver config Watch.idle entries store = some r := by
  obtain ⟨rounds, marking, hmark⟩ := markPhase_returns Watch.idle hperm hfinite
  have hgoes : config.shouldStop Watch.idle marking.look = false := by
    simp [GcConfig.shouldStop, Watch.idle]
  exact ⟨rounds, _, by rw [collect, hmark]; dsimp only; rw [hgoes]; rfl⟩

omit [ColdStore.Faithful C] [CidCrate.Lawful] [CidStream] in
theorem garbage_listed {marked : List (List UInt8)} (store : C)
    (hexact : ∀ cid, CidCrate.toBytes cid ∈ marked ↔ m.Followed linkResolver cid) :
    garbage marked (listed store) = unreached m linkResolver store :=
  List.filter_congr (fun cid _ => by simp [hexact cid])

omit [CidCrate] [CidCrate.Lawful] [CidStream] in
/-- Each block swept is lost, and no other. -/
theorem lost_of_swept (hR : Reliable C) {cids : List Cid} {result result' : GcResult} {store' : C}
    (hswept : Swept cids result store result' store') (hnodup : cids.Nodup)
    (hlisted : ∀ cid ∈ cids, cid ∈ listed store) : (lost store store').length = cids.length := by
  obtain ⟨all, store₁, hlist, hall⟩ := hR.listCids store
  have heq : listed store = all := by rw [listed, hlist]
  have hheld := (ColdStore.Faithful.listCids_ok hlist).1
  rw [lost, heq]
  refine List.Perm.length_eq ((List.perm_ext_iff_of_nodup (hall.filter _) hnodup).mpr ?_)
  intro cid
  rw [List.mem_filter, hswept.blocks]
  by_cases hcid : cid ∈ cids
  · simp [hcid, heq ▸ hlisted cid hcid]
  · rw [if_neg hcid]
    refine iff_of_false ?_ hcid
    rintro ⟨hmem, hnone⟩
    simp_all

/-- What a real run that returns has done. -/
theorem collect_sweeps (hR : Reliable C) (hperm : entries.Perm m.pins.entries)
    (hreal : config.dryRun = false)
    (h : collect rounds linkResolver config Watch.idle entries store = some r) :
    ∃ result store' swept, r = .ok result store' ∧ Swept swept {} store result store'
      ∧ swept <+: unreached m linkResolver store
      ∧ Extent config (unreached m linkResolver store).length swept.length := by
  obtain ⟨marking, result, hexact, hcollected, hfreed, rfl⟩ := collect_idle hperm h
  obtain ⟨all, store₁, hlist, hnodup⟩ := hR.listCids store
  have hall : all = listed store := by rw [listed, hlist]
  have hspec := sweepPhase_sweeps hR hreal marking hcollected hlist hnodup
  rw [hall, garbage_listed store hexact] at hspec
  obtain ⟨result', store', hrun, swept, ⟨hblocks, hcounts⟩, hpre, hextent⟩ := hspec.exists_ok
  refine ⟨result', store', swept, hrun, ⟨hblocks, ?_, ?_⟩, hpre, hextent⟩
  · rw [hcounts.collected, hcollected]
  · rw [hcounts.freed, hfreed]

/-- What a dry run that returns has counted. -/
theorem collect_counts (hR : Reliable C) (hperm : entries.Perm m.pins.entries)
    (hdry : config.dryRun = true)
    (h : collect rounds linkResolver config Watch.idle entries store = some r) :
    ∃ result store' counted, r = .ok result store' ∧ lookup store' = lookup store
      ∧ Counts store counted {} result ∧ counted <+: unreached m linkResolver store
      ∧ (counted = unreached m linkResolver store
        ∨ 0 < config.maxBlocksPerRun ∧ config.maxBlocksPerRun ≤ counted.length)
      ∧ (0 < config.maxBlocksPerRun → counted.length ≤ config.maxBlocksPerRun) := by
  obtain ⟨marking, result, hexact, hcollected, hfreed, rfl⟩ := collect_idle hperm h
  obtain ⟨all, store₁, hlist, -⟩ := hR.listCids store
  have hall : all = listed store := by rw [listed, hlist]
  have hspec := sweepPhase_counts hR hdry marking hcollected hlist
  rw [hall, garbage_listed store hexact] at hspec
  obtain ⟨result', store', hrun, hsame, counted, hcounts, hrest⟩ := hspec.exists_ok
  refine ⟨result', store', counted, hrun, hsame, ⟨?_, ?_⟩, hrest⟩
  · rw [hcounts.collected, hcollected]
  · rw [hcounts.freed, hfreed]

omit [ColdStore.Faithful C] [CidCrate.Lawful] [CidStream] in
theorem unreached_listed (m : PinManager) (linkResolver : LinkResolver) (hR : Reliable C)
    (store : C) : (unreached m linkResolver store).Nodup
      ∧ ∀ cid ∈ unreached m linkResolver store, cid ∈ listed store := by
  obtain ⟨all, store₁, hlist, hnodup⟩ := hR.listCids store
  have hall : listed store = all := by rw [listed, hlist]
  refine ⟨?_, fun cid hcid => (List.mem_filter.mp hcid).1⟩
  rw [unreached, hall]
  exact hnodup.filter _

omit [CidCrate] [CidCrate.Lawful] [CidStream] [ColdStore C] [ColdStore.Faithful C] in
/-- A real run deletes as many blocks as a dry run counts, and no more than the limit. -/
theorem Extent.of_kept {n k : Nat} (h : Extent config n k) (hle : k ≤ n)
    (hkept : config.maxBlocksPerRun = 0 ∨ n ≤ config.maxBlocksPerRun
      ∨ config.incremental = true ∧ config.batch ∣ config.maxBlocksPerRun)
    (hpos : 0 < config.maxBlocksPerRun) : k = min n config.maxBlocksPerRun := by
  rcases hkept with hzero | hfew | ⟨hinc, hdvd⟩
  · omega
  · rcases h.all_or_reached with hall | ⟨-, -, hreached, -⟩
    · omega
    · omega
  · have hexact := h.exact hpos hinc hdvd
    rcases h.all_or_reached with hall | ⟨-, -, hreached, -⟩
    · omega
    · omega

/-- **Limit and dry run**: a run deletes no more blocks than it may and a dry run reports what
the real one does, exactly if there is no limit, or no more blocks than that are unreached, or
whole batches make it up (or marking never ends). -/
theorem collect_honoured_iff (hR : Reliable C) (m : PinManager) (linkResolver : LinkResolver)
    (config : GcConfig) (store : C) : Honoured m linkResolver config store ↔
      config.maxBlocksPerRun = 0 ∨ (unreached m linkResolver store).length ≤ config.maxBlocksPerRun
        ∨ (config.incremental = true ∧ config.batch ∣ config.maxBlocksPerRun)
        ∨ ¬ {cid | m.Followed linkResolver cid}.Finite := by
  obtain ⟨hnodup, hlisted⟩ := unreached_listed m linkResolver hR store
  constructor
  · intro h
    by_contra hnot
    simp only [not_or, not_not] at hnot
    obtain ⟨hzero, hmany, hbatch, hfinite⟩ := hnot
    obtain ⟨rounds, r, hrun⟩ := h.returns hfinite false _ (List.Perm.refl m.pins.entries)
    obtain ⟨result, store', swept, rfl, hswept, hpre, hextent⟩ :=
      collect_sweeps hR (List.Perm.refl _) rfl hrun
    have hle := h.limit (Nat.pos_of_ne_zero hzero) false rounds _ _ (List.Perm.refl _) hrun
    rw [finalState_ok, lost_of_swept hR hswept (hnodup.sublist hpre.sublist)
      (fun cid hcid => hlisted cid (hpre.subset hcid))] at hle
    rcases hextent.all_or_reached with hall | ⟨-, hinc, hreached, hdvd⟩
    · exact hmany (hall ▸ hle)
    · have hsame : swept.length = config.maxBlocksPerRun := Nat.le_antisymm hle hreached
      exact hbatch ⟨hinc, hsame ▸ hdvd⟩
  · intro hcond
    have hkept : ∀ {rounds : Nat} {dryRun : Bool} {entries} {r},
        entries.Perm m.pins.entries → collect rounds linkResolver { config with dryRun }
          Watch.idle entries store = some r →
        config.maxBlocksPerRun = 0
          ∨ (unreached m linkResolver store).length ≤ config.maxBlocksPerRun
          ∨ config.incremental = true ∧ config.batch ∣ config.maxBlocksPerRun := by
      intro rounds dryRun entries r hperm hrun
      rcases hcond with h | h | h | h
      · exact .inl h
      · exact .inr (.inl h)
      · exact .inr (.inr h)
      · exact absurd (finite_of_collect hperm hrun) h
    constructor
    · exact fun hfinite dryRun entries hperm => collect_returns hperm hfinite _ store
    · intro hpos dryRun rounds entries r hperm hrun
      cases dryRun with
      | true =>
        obtain ⟨result, store', counted, rfl, hsame, -⟩ := collect_counts hR hperm rfl hrun
        have hswept : Swept [] result store result store' := Swept.of_eq hsame rfl rfl
        rw [finalState_ok, lost_of_swept hR hswept List.nodup_nil (by simp)]
        exact Nat.zero_le _
      | false =>
        obtain ⟨result, store', swept, rfl, hswept, hpre, hextent⟩ :=
          collect_sweeps hR hperm rfl hrun
        have hcount := hextent.of_kept hpre.length_le (hkept hperm hrun) hpos
        rw [finalState_ok, lost_of_swept hR hswept (hnodup.sublist hpre.sublist)
          (fun cid hcid => hlisted cid (hpre.subset hcid)), hcount]
        exact Nat.min_le_right _ _
    · intro rounds entries r hperm hrun
      obtain ⟨result, store', counted, rfl, hsame, -⟩ := collect_counts hR hperm rfl hrun
      exact hsame
    · intro rounds entries dry rounds' entries' real hperm hperm' hdry hreal
      obtain ⟨d, store₁, counted, rfl, -, hcounts, hcounted, hcase, hle⟩ :=
        collect_counts hR hperm rfl hdry
      obtain ⟨r, store₂, swept, rfl, hswept, hpre, hextent⟩ :=
        collect_sweeps hR hperm' rfl hreal
      have hlength : counted.length = swept.length := by
        have hshort := hcounted.length_le
        have hshort' := hpre.length_le
        by_cases hpos : 0 < config.maxBlocksPerRun
        · rw [hextent.of_kept hshort' (hkept hperm hdry) hpos]
          have hlimit := hle hpos
          rcases hcase with rfl | ⟨-, hreached⟩
          · dsimp only at hlimit ⊢
            omega
          · dsimp only at hlimit hreached ⊢
            omega
        · have hall := hcase.resolve_right (fun h => hpos h.1)
          have hall' := hextent.all_or_reached.resolve_right (fun h => hpos h.1)
          rw [hall, hall']
      have hsame : counted = swept := by
        rw [List.prefix_iff_eq_take.mp hcounted, List.prefix_iff_eq_take.mp hpre, hlength]
      refine ⟨d, store₁, r, store₂, rfl, rfl, ?_, ?_⟩
      · rw [hcounts.collected, hswept.counts.collected, hlength]
      · rw [hcounts.freed, hswept.counts.freed, hsame]

end

/-! ## Two blocks and a limit of one -/

open scoped CidFormat

theorem reliable_memory : Reliable MemoryBlockStore where
  get _ _ := ⟨_, _, rfl⟩
  delete := deletes_memory
  listCids _ := ⟨_, _, rfl, List.nodup_dedup _⟩

private def twoBlocks : MemoryBlockStore :=
  { blocks := [1, 2].map (fun b => { cid := cidOf codecRaw [b], data := [b] }) }

private theorem twoBlocks_listed : (listed twoBlocks).length = 2 := by decide +kernel

private theorem new_followed (linkResolver : LinkResolver) (cid : Cid) :
    ¬ PinManager.new.Followed linkResolver cid := by
  rintro ⟨root, hpinned, -⟩
  cases hpinned

private theorem twoBlocks_unreached :
    (unreached PinManager.new (fun _ => .ok []) twoBlocks).length = 2 := by
  rw [← twoBlocks_listed, unreached, List.filter_eq_self.mpr]
  exact fun cid _ => by simpa using new_followed _ cid

theorem collect_honoured_iff_two :
    Honoured PinManager.new (fun _ => .ok []) { maxBlocksPerRun := 2, batchSize := 0 } twoBlocks :=
  (collect_honoured_iff reliable_memory _ _ _ _).mpr
    (.inr (.inl (Nat.le_of_eq twoBlocks_unreached)))

/-- Without batches both are deleted. -/
theorem not_collect_honoured :
    ¬ Honoured PinManager.new (fun _ => .ok []) { maxBlocksPerRun := 1 } twoBlocks := by
  intro h
  have hfinite : {cid | PinManager.new.Followed (fun _ => .ok []) cid}.Finite := by
    have hempty : {cid | PinManager.new.Followed (fun _ => .ok []) cid} = ∅ :=
      Set.eq_empty_of_forall_notMem (fun cid => new_followed _ cid)
    rw [hempty]
    exact Set.finite_empty
  obtain ⟨rounds, r, hrun⟩ := h.returns hfinite false _ (List.Perm.refl _)
  obtain ⟨result, store', swept, rfl, hswept, hpre, hextent⟩ :=
    collect_sweeps reliable_memory (List.Perm.refl _) rfl hrun
  obtain ⟨hnodup, hlisted⟩ := unreached_listed PinManager.new (fun _ => .ok [])
    reliable_memory twoBlocks
  have hle := h.limit (by decide) false rounds _ _ (List.Perm.refl _) hrun
  rw [finalState_ok, lost_of_swept reliable_memory hswept (hnodup.sublist hpre.sublist)
    (fun cid hcid => hlisted cid (hpre.subset hcid))] at hle
  rcases hextent.all_or_reached with hall | ⟨-, hinc, -⟩
  · rw [hall, twoBlocks_unreached] at hle
    exact absurd hle (by decide)
  · cases hinc

end Ipfrs.Storage
