/-
Ipfrs.Storage.BlockFragments — blocks put together from fragments (`block_fragment_store.rs`).

A fragment says of how many its block has, and nothing compares what it says with what the
first fragment of the block said. An index that is taken stays taken, by a fragment with a
wrong checksum too. Blocks are put together rightly as long as neither happens
(`assembles_rightly`).

The maps list their entries in some order, which only the choice between equally old
entries depends on. The texts of the errors, the counts and the statistics are left out.
-/
import Ipfrs.Lib.Fnv
import Mathlib.Data.List.AList
import Mathlib.Data.Fintype.Card
import Mathlib.Data.List.MinMax

namespace Ipfrs.Storage

open Ipfrs.Lib

/-- FNV-1a 32-bit checksum (lower 32 bits of the 64-bit digest). -/
def bfsFnv1a32 (data : List UInt8) : UInt32 := (Fnv.hash data).toUInt32

structure FragmentId where
  blockCid : String
  index : UInt32
  deriving DecidableEq

structure BfsFragment where
  id : FragmentId
  data : List UInt8
  totalFragments : UInt32
  checksum : UInt32
  deriving DecidableEq

def BfsFragment.new (blockCid : String) (index : UInt32) (data : List UInt8)
    (totalFragments : UInt32) : BfsFragment :=
  { id := { blockCid, index }, data, totalFragments, checksum := bfsFnv1a32 data }

inductive FragmentSetState
  | incomplete (received total : UInt32)
  | complete
  | corrupted (badIndices : List UInt32)
  deriving DecidableEq

/-- `HashMap<u32, BfsFragment>`. -/
abbrev FragmentMap := AList (fun _ : UInt32 => BfsFragment)

structure FragmentSet where
  blockCid : String
  totalFragments : UInt32
  fragments : FragmentMap
  createdAt : UInt64
  lastUpdated : UInt64
  deriving DecidableEq

structure AssembledBlock where
  cid : String
  data : List UInt8
  fragmentCount : UInt32
  assembledAt : UInt64
  deriving DecidableEq

inductive FragmentError
  | duplicateFragment (blockCid : String) (index : UInt32)
  | indexOutOfRange (index total : UInt32)
  | blockNotFound (blockCid : String)
  | assemblyIncomplete (received total : UInt32)
  | checksumMismatch (index : UInt32)
  | storeFull
  deriving DecidableEq

/-- `verify_fragment`. -/
def verifyFragment (fragment : BfsFragment) : Bool :=
  bfsFnv1a32 fragment.data == fragment.checksum

theorem verifyFragment_new (blockCid : String) (index : UInt32) (data : List UInt8)
    (totalFragments : UInt32) :
    verifyFragment (BfsFragment.new blockCid index data totalFragments) :=
  beq_self_eq_true _

namespace FragmentSet

def new (blockCid : String) (totalFragments : UInt32) (now : UInt64) : FragmentSet :=
  { blockCid, totalFragments, fragments := ∅, createdAt := now, lastUpdated := now }

/-- `fragments.len() as u32`. -/
def received (set : FragmentSet) : UInt32 := UInt32.ofNat set.fragments.entries.length

def isComplete (set : FragmentSet) : Bool := set.received == set.totalFragments

/-- `verify_set`. -/
def badIndices (set : FragmentSet) : List UInt32 :=
  ((set.fragments.entries.filter fun e => !verifyFragment e.2).map Sigma.fst).mergeSort

theorem badIndices_eq_nil {set : FragmentSet} :
    set.badIndices = [] ↔ ∀ e ∈ set.fragments.entries, verifyFragment e.2 := by
  rw [badIndices, ← List.length_eq_zero_iff, List.length_mergeSort, List.length_map,
    List.length_eq_zero_iff, List.filter_eq_nil_iff]
  simp

def state (set : FragmentSet) : FragmentSetState :=
  if set.isComplete then
    if set.badIndices = [] then .complete else .corrupted set.badIndices
  else .incomplete set.received set.totalFragments

/-- `0..set.total_fragments`, which is sorted as it is. -/
def indices (set : FragmentSet) : List UInt32 :=
  (List.range set.totalFragments.toNat).map UInt32.ofNat

/-- The loop of `assemble_internal`. -/
def collect (set : FragmentSet) (blockCid : String) :
    List UInt32 → List UInt8 → Except FragmentError (List UInt8)
  | [], data => .ok data
  | idx :: rest, data =>
    match set.fragments.lookup idx with
    | none => .error (.blockNotFound blockCid)
    | some fragment =>
      if !verifyFragment fragment then .error (.checksumMismatch idx)
      else set.collect blockCid rest (data ++ fragment.data)

/-- What `store_fragment` makes of a set when it takes a fragment. -/
def put (set : FragmentSet) (fragment : BfsFragment) (now : UInt64) : FragmentSet :=
  { set with
    fragments := set.fragments.insert fragment.id.index fragment
    lastUpdated := now }

theorem state_eq_complete {set : FragmentSet} :
    set.state = .complete ↔ set.isComplete ∧ ∀ e ∈ set.fragments.entries, verifyFragment e.2 := by
  rw [state, ← badIndices_eq_nil]
  split
  · next hcomplete =>
    split
    · next hnil => exact iff_of_true rfl ⟨hcomplete, hnil⟩
    · next hbad => exact iff_of_false (by rintro ⟨⟩) fun h => hbad h.2
  · next hcomplete => exact iff_of_false (by rintro ⟨⟩) fun h => hcomplete h.1

theorem lookup_put {set : FragmentSet} {fragment : BfsFragment} {now : UInt64} {i : UInt32} :
    (set.put fragment now).fragments.lookup i
      = if i = fragment.id.index then some fragment else set.fragments.lookup i := by
  rw [put]
  split
  · next h => rw [h, AList.lookup_insert]
  · next h => rw [AList.lookup_insert_ne h]

/-- The fragments that `assemble_internal` joins, one for each index. -/
theorem collect_eq_ok {set : FragmentSet} {blockCid : String} : ∀ {indices : List UInt32}
    {data out : List UInt8}, set.collect blockCid indices data = .ok out ↔
      ∃ parts : List BfsFragment, indices.map set.fragments.lookup = parts.map some
        ∧ (∀ part ∈ parts, verifyFragment part)
        ∧ out = data ++ (parts.map BfsFragment.data).flatten
  | [], data, out => by
    rw [collect, List.map_nil]
    constructor
    · rintro ⟨⟩
      exact ⟨[], rfl, by simp, by simp⟩
    · rintro ⟨parts, hparts, -, rfl⟩
      rw [List.map_eq_nil_iff.mp hparts.symm]
      simp
  | idx :: rest, data, out => by
    rw [collect, List.map_cons]
    cases hidx : set.fragments.lookup idx with
    | none =>
      constructor
      · rintro ⟨⟩
      · rintro ⟨_ | ⟨part, parts⟩, hparts, -⟩ <;> cases hparts
    | some fragment =>
      dsimp only
      cases hverify : verifyFragment fragment with
      | false =>
        rw [if_pos (by rfl)]
        constructor
        · rintro ⟨⟩
        · rintro ⟨_ | ⟨part, parts⟩, hparts, hall, -⟩
          · cases hparts
          · obtain ⟨hpart, -⟩ := List.cons_eq_cons.mp hparts
            have := hall part (List.mem_cons_self ..)
            rw [← Option.some.inj hpart, hverify] at this
            cases this
      | true =>
        rw [if_neg (by simp), collect_eq_ok]
        constructor
        · rintro ⟨parts, hparts, hall, rfl⟩
          refine ⟨fragment :: parts, by rw [hparts, List.map_cons], ?_, by simp⟩
          exact List.forall_mem_cons.mpr ⟨hverify, hall⟩
        · rintro ⟨_ | ⟨part, parts⟩, hparts, hall, rfl⟩
          · cases hparts
          · obtain ⟨hpart, hrest⟩ := List.cons_eq_cons.mp hparts
            cases hpart
            exact ⟨parts, hrest, (List.forall_mem_cons.mp hall).2, by simp⟩

theorem length_entries (set : FragmentSet) :
    set.fragments.entries.length = (set.fragments.keys.map UInt32.toNat).length := by
  rw [List.length_map, AList.keys, List.keys, List.length_map]

section Bounded

variable {set : FragmentSet}

theorem subperm_range (hlt : ∀ i ∈ set.fragments, i < set.totalFragments) :
    (set.fragments.keys.map UInt32.toNat).Subperm (List.range set.totalFragments.toNat) := by
  refine List.subperm_of_subset ?_ ?_
  · exact set.fragments.keys_nodup.map fun i j h => UInt32.toNat_inj.mp h
  · intro n hn
    obtain ⟨i, hi, rfl⟩ := List.mem_map.mp hn
    exact List.mem_range.mpr (UInt32.lt_iff_toNat_lt.mp (hlt i hi))

theorem length_le (hlt : ∀ i ∈ set.fragments, i < set.totalFragments) :
    set.fragments.entries.length ≤ set.totalFragments.toNat := by
  rw [length_entries]
  simpa using (subperm_range hlt).length_le

theorem isComplete_iff (hlt : ∀ i ∈ set.fragments, i < set.totalFragments) :
    set.isComplete ↔ set.totalFragments.toNat ≤ set.fragments.entries.length := by
  have hle := length_le hlt
  have hbound := set.totalFragments.toNat_lt
  rw [isComplete, beq_iff_eq, received, ← UInt32.toNat_inj, UInt32.toNat_ofNat',
    Nat.mod_eq_of_lt (by omega)]
  omega

/-- As many indices below the total as the total says are all of them. -/
theorem mem_of_full (hlt : ∀ i ∈ set.fragments, i < set.totalFragments)
    (hfull : set.totalFragments.toNat ≤ set.fragments.entries.length) {i : UInt32}
    (hi : i < set.totalFragments) : i ∈ set.fragments := by
  have hperm := (subperm_range hlt).perm_of_length_le (by
    rwa [List.length_range, ← length_entries])
  have hmem := hperm.mem_iff.mpr (List.mem_range.mpr (UInt32.lt_iff_toNat_lt.mp hi))
  obtain ⟨j, hj, heq⟩ := List.mem_map.mp hmem
  rwa [← UInt32.toNat_inj.mp heq]

/-- With every index below the total there are as many fragments. -/
theorem le_length_of_mem (hall : ∀ i < set.totalFragments, i ∈ set.fragments) :
    set.totalFragments.toNat ≤ set.fragments.entries.length := by
  have hsub : List.range set.totalFragments.toNat ⊆ set.fragments.keys.map UInt32.toNat := by
    intro n hn
    have hlt := List.mem_range.mp hn
    have heq : (UInt32.ofNat n).toNat = n := by
      rw [UInt32.toNat_ofNat', Nat.mod_eq_of_lt (hlt.trans set.totalFragments.toNat_lt)]
    refine List.mem_map.mpr ⟨UInt32.ofNat n, hall _ ?_, heq⟩
    rwa [UInt32.lt_iff_toNat_lt, heq]
  rw [length_entries]
  simpa using (List.subperm_of_subset List.nodup_range hsub).length_le

end Bounded

end FragmentSet

structure BlockFragmentStore where
  sets : AList (fun _ : String => FragmentSet)
  assembled : AList (fun _ : String => AssembledBlock)
  maxPending : Nat
  maxAssembled : Nat

namespace BlockFragmentStore

def new (maxPending maxAssembled : Nat) : BlockFragmentStore :=
  { sets := ∅, assembled := ∅, maxPending, maxAssembled }

def evictOldestPending (s : BlockFragmentStore) : BlockFragmentStore :=
  match s.sets.entries.argmin fun e => e.2.createdAt.toNat with
  | none => s
  | some e => { s with sets := s.sets.erase e.1 }

def evictOldestAssembled (s : BlockFragmentStore) : BlockFragmentStore :=
  match s.assembled.entries.argmin fun e => e.2.assembledAt.toNat with
  | none => s
  | some e => { s with assembled := s.assembled.erase e.1 }

def assembleInternal (s : BlockFragmentStore) (blockCid : String) (now : UInt64) :
    Except FragmentError AssembledBlock :=
  match s.sets.lookup blockCid with
  | none => .error (.blockNotFound blockCid)
  | some set =>
    if !set.isComplete then .error (.assemblyIncomplete set.received set.totalFragments)
    else do
      let data ← set.collect blockCid set.indices []
      .ok { cid := blockCid, data, fragmentCount := set.totalFragments, assembledAt := now }

/-- The set of a block, opened if it has none. -/
def openSet (s : BlockFragmentStore) (blockCid : String) (total : UInt32) (now : UInt64) :
    Except FragmentError FragmentSet × BlockFragmentStore :=
  match s.sets.lookup blockCid with
  | some set => (.ok set, s)
  | none =>
    let s := if s.maxPending ≤ s.sets.entries.length then s.evictOldestPending else s
    if s.maxPending ≤ s.sets.entries.length then (.error .storeFull, s)
    else
      let set := FragmentSet.new blockCid total now
      (.ok set, { s with sets := s.sets.insert blockCid set })

/-- An assembled block takes the place of its set. -/
def keep (s : BlockFragmentStore) (blockCid : String) (block : AssembledBlock) :
    BlockFragmentStore :=
  let s := if s.maxAssembled ≤ s.assembled.entries.length then s.evictOldestAssembled else s
  { s with assembled := s.assembled.insert blockCid block, sets := s.sets.erase blockCid }

/-- The end of `store_fragment`, with the fragment in the set. -/
def settle (s : BlockFragmentStore) (blockCid : String) (set : FragmentSet) (now : UInt64) :
    Except FragmentError FragmentSetState × BlockFragmentStore :=
  if set.isComplete then
    match s.assembleInternal blockCid now with
    | .ok block => (.ok .complete, s.keep blockCid block)
    -- The set is left in place for potential repair.
    | .error (.checksumMismatch index) => (.ok (.corrupted [index]), s)
    | .error e => (.error e, s)
  else (.ok set.state, s)

def storeFragment (s : BlockFragmentStore) (fragment : BfsFragment) (now : UInt64) :
    Except FragmentError FragmentSetState × BlockFragmentStore :=
  let blockCid := fragment.id.blockCid
  let index := fragment.id.index
  let total := fragment.totalFragments
  if total = 0 ∨ total ≤ index then (.error (.indexOutOfRange index total), s)
  else if (s.assembled.lookup blockCid).isSome then (.ok .complete, s)
  else
    match s.openSet blockCid total now with
    | (.error e, s) => (.error e, s)
    | (.ok set, s) =>
      if (set.fragments.lookup index).isSome then
        (.error (.duplicateFragment blockCid index), s)
      else
        let set := set.put fragment now
        let s := { s with sets := s.sets.insert blockCid set }
        s.settle blockCid set now

def getState (s : BlockFragmentStore) (blockCid : String) : Option FragmentSetState :=
  if (s.assembled.lookup blockCid).isSome then some .complete
  else (s.sets.lookup blockCid).map FragmentSet.state

def getAssembledBlock (s : BlockFragmentStore) (blockCid : String) : Option AssembledBlock :=
  s.assembled.lookup blockCid

/-- A call of `store_fragment`: a fragment and the time. -/
abbrev Call := BfsFragment × UInt64

def storeAll (s : BlockFragmentStore) : List Call → BlockFragmentStore
  | [] => s
  | (fragment, now) :: calls => (s.storeFragment fragment now).2.storeAll calls

/-- The set of a fragment's block, a new one if it has none. -/
def opened (s : BlockFragmentStore) (fragment : BfsFragment) (now : UInt64) : FragmentSet :=
  (s.sets.lookup fragment.id.blockCid).getD
    (FragmentSet.new fragment.id.blockCid fragment.totalFragments now)

/-! ## Runs -/

/-- The fragment gets past every check of `store_fragment`, so its set takes it. -/
def accepts (s : BlockFragmentStore) (fragment : BfsFragment) : Bool :=
  fragment.id.index < fragment.totalFragments
    && (s.assembled.lookup fragment.id.blockCid).isNone
    && ((s.sets.lookup fragment.id.blockCid).all fun set =>
      (set.fragments.lookup fragment.id.index).isNone)

/-- The fragments that a run takes. -/
def accepted (s : BlockFragmentStore) : List Call → List BfsFragment
  | [] => []
  | (fragment, now) :: calls =>
    let rest := (s.storeFragment fragment now).2.accepted calls
    if s.accepts fragment then fragment :: rest else rest

/-- The states of a run and the fragments they meet are as `P` says. -/
def Throughout (P : BlockFragmentStore → BfsFragment → Prop) (s : BlockFragmentStore) :
    List Call → Prop
  | [] => True
  | (fragment, now) :: calls =>
    P s fragment ∧ (s.storeFragment fragment now).2.Throughout P calls

instance decidableThroughout {P : BlockFragmentStore → BfsFragment → Prop}
    [∀ s f, Decidable (P s f)] (s : BlockFragmentStore) :
    ∀ calls, Decidable (s.Throughout P calls)
  | [] => .isTrue trivial
  | (f, now) :: calls =>
    have : Decidable ((s.storeFragment f now).2.Throughout P calls) :=
      decidableThroughout _ calls
    inferInstanceAs (Decidable (P s f ∧ (s.storeFragment f now).2.Throughout P calls))

/-- The limits are not reached. -/
def Room (s : BlockFragmentStore) (fragment : BfsFragment) : Prop :=
  (s.sets.lookup fragment.id.blockCid = none → s.sets.entries.length < s.maxPending)
    ∧ s.assembled.entries.length < s.maxAssembled

instance (s : BlockFragmentStore) (fragment : BfsFragment) : Decidable (Room s fragment) :=
  inferInstanceAs (Decidable (_ ∧ _))

/-- The block is the concatenation of taken fragments, all of one total. -/
def MadeOf (fragments : List BfsFragment) (cid : String) (block : AssembledBlock) : Prop :=
  ∃ parts : List BfsFragment,
    parts.length = block.fragmentCount.toNat
      ∧ block.data = (parts.map BfsFragment.data).flatten
      ∧ ∀ i part, parts[i]? = some part → part ∈ fragments
        ∧ part.id = { blockCid := cid, index := UInt32.ofNat i }
        ∧ part.totalFragments = block.fragmentCount

/-- Every fragment of a block has been offered, with one total and matching checksums. -/
def Offered (calls : List Call) (cid : String) (total : UInt32) : Prop :=
  0 < total ∧ ∀ i < total, ∃ call ∈ calls, call.1.id = { blockCid := cid, index := i }
    ∧ call.1.totalFragments = total ∧ verifyFragment call.1

/-- A fragment that is not late: its block has to be put together yet. -/
def Awaited (s : BlockFragmentStore) (fragment : BfsFragment) : Prop :=
  fragment.id.index < fragment.totalFragments
    ∧ s.assembled.lookup fragment.id.blockCid = none

instance (s : BlockFragmentStore) (fragment : BfsFragment) : Decidable (Awaited s fragment) :=
  inferInstanceAs (Decidable (_ ∧ _))

/-- What the code does not check. A fragment that is taken has a matching checksum; a
fragment with a matching checksum has the total of its set. -/
structure Fits (s : BlockFragmentStore) (fragment : BfsFragment) : Prop where
  checksum : s.accepts fragment → verifyFragment fragment
  total : ∀ set, Awaited s fragment → s.sets.lookup fragment.id.blockCid = some set →
    verifyFragment fragment → fragment.totalFragments = set.totalFragments

instance (s : BlockFragmentStore) (fragment : BfsFragment) : Decidable (Fits s fragment) :=
  decidable_of_iff ((s.accepts fragment → verifyFragment fragment)
    ∧ ∀ set ∈ s.sets.lookup fragment.id.blockCid, Awaited s fragment →
      verifyFragment fragment → fragment.totalFragments = set.totalFragments)
    ⟨fun h => ⟨h.1, fun set hawaited hset => h.2 set hset hawaited⟩,
      fun h => ⟨h.1, fun set hset hawaited => h.2 set hawaited hset⟩⟩

/-! ## One call -/

section Step

variable {s : BlockFragmentStore} {fragment : BfsFragment} {now : UInt64}

variable (now) in
theorem accepts_iff : s.accepts fragment ↔ Awaited s fragment
    ∧ (s.opened fragment now).fragments.lookup fragment.id.index = none := by
  rw [accepts, Awaited, opened]
  cases hset : s.sets.lookup fragment.id.blockCid with
  | none => simp [FragmentSet.new]
  | some set => simp

theorem not_outOfRange_iff {index total : UInt32} :
    ¬ (total = 0 ∨ total ≤ index) ↔ index < total := by
  rw [← UInt32.toNat_inj, UInt32.le_iff_toNat_le, UInt32.lt_iff_toNat_lt, UInt32.toNat_zero]
  omega

variable (now) in
theorem openSet_eq (hroom : Room s fragment) : ∃ sets,
    s.openSet fragment.id.blockCid fragment.totalFragments now
      = (.ok (s.opened fragment now), { s with sets })
    ∧ (∀ set, sets.insert fragment.id.blockCid set = s.sets.insert fragment.id.blockCid set)
    ∧ ((s.opened fragment now).fragments ≠ ∅ → sets = s.sets) := by
  rw [openSet, opened]
  cases hset : s.sets.lookup fragment.id.blockCid with
  | some set => exact ⟨s.sets, rfl, fun _ => rfl, fun _ => rfl⟩
  | none =>
    have hlen : ¬ s.maxPending ≤ s.sets.entries.length := Nat.not_le.mpr (hroom.1 hset)
    refine ⟨s.sets.insert fragment.id.blockCid
      (FragmentSet.new fragment.id.blockCid fragment.totalFragments now), ?_,
      fun _ => AList.insert_insert _, fun h => absurd rfl h⟩
    simp only [if_neg hlen, Option.getD_none]

theorem keep_eq {blockCid : String} {block : AssembledBlock} {set : FragmentSet}
    (hroom : s.assembled.entries.length < s.maxAssembled) :
    keep { s with sets := s.sets.insert blockCid set } blockCid block
      = { s with
          assembled := s.assembled.insert blockCid block
          sets := s.sets.erase blockCid } := by
  have herase : (s.sets.insert blockCid set).erase blockCid = s.sets.erase blockCid :=
    AList.ext (List.kerase_cons_eq rfl)
  simp only [keep, if_neg (Nat.not_le.mpr hroom), herase]

/-- What is left of the call once the set has the fragment. -/
theorem settle_cases {blockCid : String} {set : FragmentSet}
    (hroom : s.assembled.entries.length < s.maxAssembled) :
    (settle { s with sets := s.sets.insert blockCid set } blockCid set now).2
          = { s with sets := s.sets.insert blockCid set }
        ∧ (set.isComplete → ∀ data, set.collect blockCid set.indices [] ≠ .ok data)
      ∨ ∃ data, set.isComplete ∧ set.collect blockCid set.indices [] = .ok data
        ∧ (settle { s with sets := s.sets.insert blockCid set } blockCid set now).2 = { s with
            assembled := s.assembled.insert blockCid
              { cid := blockCid, data, fragmentCount := set.totalFragments, assembledAt := now }
            sets := s.sets.erase blockCid } := by
  have hinternal : set.isComplete →
      assembleInternal { s with sets := s.sets.insert blockCid set } blockCid now
        = (set.collect blockCid set.indices []).map fun data =>
          { cid := blockCid, data, fragmentCount := set.totalFragments, assembledAt := now } := by
    intro hcomplete
    rw [assembleInternal, AList.lookup_insert]
    simp only [hcomplete]
    cases set.collect blockCid set.indices [] <;> rfl
  rw [settle]
  by_cases hcomplete : set.isComplete
  · rw [if_pos hcomplete, hinternal hcomplete]
    cases hcollect : set.collect blockCid set.indices [] with
    | ok data =>
      exact .inr ⟨data, hcomplete, rfl, keep_eq hroom⟩
    | error e =>
      refine .inl ⟨?_, fun _ data h => by cases h⟩
      cases e <;> rfl
  · rw [if_neg hcomplete]
    exact .inl ⟨rfl, fun h => absurd h hcomplete⟩

variable (now) in
/-- What a call does to the store when the limits are not reached. -/
theorem storeFragment_cases (hroom : Room s fragment) :
    ¬ s.accepts fragment ∧ (s.storeFragment fragment now).2 = s
    ∨ s.accepts fragment ∧ ∃ set, set = (s.opened fragment now).put fragment now
      ∧ ((s.storeFragment fragment now).2
            = { s with sets := s.sets.insert fragment.id.blockCid set }
          ∧ (set.isComplete → ∀ data,
              set.collect fragment.id.blockCid set.indices [] ≠ .ok data)
        ∨ ∃ data, set.isComplete
          ∧ set.collect fragment.id.blockCid set.indices [] = .ok data
          ∧ (s.storeFragment fragment now).2
            = { s with
                assembled := s.assembled.insert fragment.id.blockCid
                  { cid := fragment.id.blockCid, data,
                    fragmentCount := set.totalFragments, assembledAt := now }
                sets := s.sets.erase fragment.id.blockCid }) := by
  rw [accepts_iff now, storeFragment, Awaited]
  by_cases hrange : fragment.id.index < fragment.totalFragments
  · simp only [if_neg (not_outOfRange_iff.mpr hrange)]
    cases hassembled : s.assembled.lookup fragment.id.blockCid with
    | some block => exact .inl ⟨by simp, by simp⟩
    | none =>
      obtain ⟨sets, hopen, hinsert, hsame⟩ := openSet_eq now hroom
      simp only [hopen]
      cases htaken : (s.opened fragment now).fragments.lookup fragment.id.index with
      | some other =>
        refine .inl ⟨fun h => (by cases h.2), ?_⟩
        have hne : (s.opened fragment now).fragments ≠ ∅ := by
          rintro hempty
          rw [hempty, AList.lookup_empty] at htaken
          cases htaken
        rw [hsame hne]
        rfl
      | none =>
        refine .inr ⟨⟨⟨hrange, by simp⟩, by simp⟩, _, rfl, ?_⟩
        simp only [hinsert]
        exact settle_cases hroom.2
  · exact .inl ⟨fun h => hrange h.1.1, by
      simp only [if_pos (not_not.mp (mt not_outOfRange_iff.mp hrange))]⟩

end Step

/-! ## What the store has of a block -/

/-- A set of a block against the fragments that were offered and those taken. -/
structure Pending (taken offered : List BfsFragment) (cid : String) (set : FragmentSet) :
    Prop where
  held : ∀ i f, set.fragments.lookup i = some f → f ∈ taken ∧ f.id = { blockCid := cid, index := i }
    ∧ f.totalFragments = set.totalFragments ∧ verifyFragment f ∧ i < set.totalFragments
  covers : ∀ f ∈ offered, f.id.blockCid = cid → f.id.index < f.totalFragments →
    verifyFragment f → f.totalFragments = set.totalFragments ∧ f.id.index ∈ set.fragments

namespace Pending

variable {taken offered : List BfsFragment} {cid : String} {set : FragmentSet}

theorem lt (h : Pending taken offered cid set) : ∀ i ∈ set.fragments, i < set.totalFragments := by
  intro i hi
  obtain ⟨f, hf⟩ := Option.isSome_iff_exists.mp (AList.lookup_isSome.mpr hi)
  exact (h.held i f hf).2.2.2.2

theorem put {f : BfsFragment} (now : UInt64) (h : Pending taken offered f.id.blockCid set)
    (htotal : f.totalFragments = set.totalFragments) (hverify : verifyFragment f)
    (hrange : f.id.index < f.totalFragments) :
    Pending (taken ++ [f]) (offered ++ [f]) f.id.blockCid (set.put f now) where
  held := by
    intro i g hg
    rw [FragmentSet.lookup_put] at hg
    split at hg
    · next hi =>
      cases hg
      subst hi
      exact ⟨List.mem_append_right _ (List.mem_singleton_self _), rfl, htotal, hverify,
        htotal ▸ hrange⟩
    · obtain ⟨hmem, hrest⟩ := h.held i g hg
      exact ⟨List.mem_append_left _ hmem, hrest⟩
  covers := by
    intro g hg hcid hlt hgood
    have hins : ∀ i, i ∈ (set.put f now).fragments ↔ i = f.id.index ∨ i ∈ set.fragments :=
      fun i => AList.mem_insert set.fragments
    rw [hins]
    rcases List.mem_append.mp hg with hg | hg
    · obtain ⟨heq, hmem⟩ := h.covers g hg hcid hlt hgood
      exact ⟨heq, .inr hmem⟩
    · cases List.mem_singleton.mp hg
      exact ⟨htotal, .inl rfl⟩

theorem grow {f : BfsFragment} {taken' : List BfsFragment} (h : Pending taken offered cid set)
    (hsub : ∀ g ∈ taken, g ∈ taken') (hf : f.id.blockCid = cid →
      f.id.index < f.totalFragments → verifyFragment f →
        f.totalFragments = set.totalFragments ∧ f.id.index ∈ set.fragments) :
    Pending taken' (offered ++ [f]) cid set where
  held i g hg := by
    obtain ⟨hmem, hrest⟩ := h.held i g hg
    exact ⟨hsub g hmem, hrest⟩
  covers g hg := by
    rcases List.mem_append.mp hg with hg | hg
    · exact h.covers g hg
    · rw [List.mem_singleton.mp hg]
      exact hf

/-- With every index there, the set can be joined. -/
theorem exists_collect (h : Pending taken offered cid set) (hcomplete : set.isComplete)
    (blockCid : String) : ∃ data, set.collect blockCid set.indices [] = .ok data := by
  have hfull := (FragmentSet.isComplete_iff h.lt).mp hcomplete
  have hmem : ∀ i ∈ set.indices, ∃ f, set.fragments.lookup i = some f := by
    intro i hi
    obtain ⟨n, hn, rfl⟩ := List.mem_map.mp hi
    have hlt : UInt32.ofNat n < set.totalFragments := by
      have hbound := set.totalFragments.toNat_lt
      rw [UInt32.lt_iff_toNat_lt, UInt32.toNat_ofNat', Nat.mod_eq_of_lt]
      · exact List.mem_range.mp hn
      · exact Nat.lt_trans (List.mem_range.mp hn) hbound
    exact Option.isSome_iff_exists.mp
      (AList.lookup_isSome.mpr (FragmentSet.mem_of_full h.lt hfull hlt))
  choose part hpart using hmem
  refine ⟨_, FragmentSet.collect_eq_ok.mpr
    ⟨set.indices.attach.map fun i => part i.1 i.2, ?_, ?_, rfl⟩⟩
  · rw [List.map_map]
    conv_lhs => rw [← List.attach_map_subtype_val set.indices, List.map_map]
    exact List.map_congr_left fun i _ => hpart i.1 i.2
  · intro f hf
    obtain ⟨i, -, rfl⟩ := List.mem_map.mp hf
    exact (h.held _ _ (hpart i.1 i.2)).2.2.2.1

theorem madeOf {data : List UInt8} {now : UInt64} (h : Pending taken offered cid set)
    (hcollect : set.collect cid set.indices [] = .ok data) : MadeOf taken cid
      { cid, data, fragmentCount := set.totalFragments, assembledAt := now } := by
  obtain ⟨parts, hparts, -, hdata⟩ := FragmentSet.collect_eq_ok.mp hcollect
  refine ⟨parts, ?_, hdata, ?_⟩
  · have hlen := congrArg List.length hparts
    simpa [FragmentSet.indices] using hlen.symm
  · intro i part hi
    have hat : (set.indices.map set.fragments.lookup)[i]? = some (some part) := by
      rw [hparts, List.getElem?_map, hi, Option.map_some]
    rw [FragmentSet.indices, List.map_map, List.getElem?_map, Option.map_eq_some_iff] at hat
    obtain ⟨n, hn, hlookup⟩ := hat
    obtain ⟨hlt, rfl⟩ := List.getElem?_eq_some_iff.mp hn
    rw [List.getElem_range] at hlookup
    obtain ⟨hmem, hid, htotal, -⟩ := h.held _ _ hlookup
    exact ⟨hmem, hid, htotal⟩

end Pending

theorem MadeOf.mono {taken taken' : List BfsFragment} {cid : String} {block : AssembledBlock}
    (h : MadeOf taken cid block) (hsub : ∀ f ∈ taken, f ∈ taken') : MadeOf taken' cid block := by
  obtain ⟨parts, hlen, hdata, hparts⟩ := h
  refine ⟨parts, hlen, hdata, fun i part hi => ?_⟩
  obtain ⟨hmem, hrest⟩ := hparts i part hi
  exact ⟨hsub part hmem, hrest⟩

/-- The store against the fragments that were offered and those taken. -/
structure Inv (taken offered : List BfsFragment) (s : BlockFragmentStore) : Prop where
  pending : ∀ cid set, s.sets.lookup cid = some set →
    Pending taken offered cid set ∧ ¬ set.isComplete ∧ s.assembled.lookup cid = none
  fresh : ∀ cid, s.sets.lookup cid = none → s.assembled.lookup cid = none →
    ∀ f ∈ offered, f.id.blockCid = cid → f.id.index < f.totalFragments → ¬ verifyFragment f
  whole : ∀ cid block, s.assembled.lookup cid = some block → MadeOf taken cid block

namespace Inv

variable {taken offered : List BfsFragment} {s : BlockFragmentStore} {f : BfsFragment}
  {now : UInt64}

theorem new (maxPending maxAssembled : Nat) : Inv [] [] (new maxPending maxAssembled) where
  pending _ _ h := by cases h
  fresh _ _ _ _ hf := by cases hf
  whole _ _ h := by cases h

variable (now) in
/-- The set that a call finds or opens, and the total of the fragment. -/
theorem opened (h : Inv taken offered s) (hfits : Fits s f) (haccepts : s.accepts f) :
    Pending taken offered f.id.blockCid (s.opened f now)
      ∧ f.totalFragments = (s.opened f now).totalFragments := by
  obtain ⟨hawaited, -⟩ := (accepts_iff now).mp haccepts
  rw [BlockFragmentStore.opened]
  cases hset : s.sets.lookup f.id.blockCid with
  | some set =>
    exact ⟨(h.pending _ set hset).1,
      hfits.total set hawaited hset (hfits.checksum haccepts)⟩
  | none =>
    refine ⟨⟨fun i g hg => (by cases hg), fun g hg hcid hlt hverify => ?_⟩, rfl⟩
    exact absurd hverify (h.fresh _ hset hawaited.2 g hg hcid hlt)

/-- A fragment that is not taken. -/
theorem reject (h : Inv taken offered s) (hfits : Fits s f) (haccepts : ¬ s.accepts f) :
    Inv taken (offered ++ [f]) s where
  pending cid set hset := by
    obtain ⟨hpending, hincomplete, hassembled⟩ := h.pending cid set hset
    refine ⟨hpending.grow (fun _ hg => hg) ?_, hincomplete, hassembled⟩
    rintro rfl hlt hverify
    have hawaited : Awaited s f := ⟨hlt, hassembled⟩
    refine ⟨hfits.total set hawaited hset hverify, ?_⟩
    by_contra hfree
    refine haccepts ((accepts_iff 0).mpr ⟨hawaited, ?_⟩)
    rw [BlockFragmentStore.opened, hset]
    exact AList.lookup_eq_none.mpr hfree
  fresh cid hset hassembled g hg := by
    rcases List.mem_append.mp hg with hg | hg
    · exact h.fresh cid hset hassembled g hg
    · cases List.mem_singleton.mp hg
      rintro rfl hlt -
      refine haccepts ((accepts_iff 0).mpr ⟨⟨hlt, hassembled⟩, ?_⟩)
      rw [BlockFragmentStore.opened, hset]
      rfl
  whole := h.whole

/-- A fragment that is taken by a set which is not complete with it. -/
theorem insert {set : FragmentSet} (h : Inv taken offered s) (hawaited : Awaited s f)
    (hset : Pending (taken ++ [f]) (offered ++ [f]) f.id.blockCid set)
    (hincomplete : ¬ set.isComplete) :
    Inv (taken ++ [f]) (offered ++ [f])
      { s with sets := s.sets.insert f.id.blockCid set } where
  pending cid set' hset' := by
    by_cases hcid : cid = f.id.blockCid
    · subst hcid
      rw [AList.lookup_insert] at hset'
      cases hset'
      exact ⟨hset, hincomplete, hawaited.2⟩
    · rw [AList.lookup_insert_ne hcid] at hset'
      obtain ⟨hpending, hrest⟩ := h.pending cid set' hset'
      exact ⟨hpending.grow (fun _ hg => List.mem_append_left _ hg)
        fun heq => absurd heq.symm hcid, hrest⟩
  fresh cid hnone hassembled g hg hg' := by
    have hcid : cid ≠ f.id.blockCid := by
      rintro rfl
      rw [AList.lookup_insert] at hnone
      cases hnone
    rw [AList.lookup_insert_ne hcid] at hnone
    rcases List.mem_append.mp hg with hg | hg
    · exact h.fresh cid hnone hassembled g hg hg'
    · cases List.mem_singleton.mp hg
      exact absurd hg'.symm hcid
  whole cid block hblock := (h.whole cid block hblock).mono fun _ hg => List.mem_append_left _ hg

/-- A fragment that makes its block whole. -/
theorem assemble {block : AssembledBlock} (h : Inv taken offered s)
    (hblock : MadeOf (taken ++ [f]) f.id.blockCid block) :
    Inv (taken ++ [f]) (offered ++ [f]) { s with
      assembled := s.assembled.insert f.id.blockCid block
      sets := s.sets.erase f.id.blockCid } where
  pending cid set hset := by
    have hcid : cid ≠ f.id.blockCid := by
      rintro rfl
      rw [AList.lookup_erase] at hset
      cases hset
    rw [AList.lookup_erase_ne hcid] at hset
    obtain ⟨hpending, hrest⟩ := h.pending cid set hset
    rw [AList.lookup_insert_ne hcid]
    exact ⟨hpending.grow (fun _ hg => List.mem_append_left _ hg)
      fun heq => absurd heq.symm hcid, hrest⟩
  fresh cid hnone hassembled g hg hg' := by
    have hcid : cid ≠ f.id.blockCid := by
      rintro rfl
      rw [AList.lookup_insert] at hassembled
      cases hassembled
    rw [AList.lookup_erase_ne hcid] at hnone
    rw [AList.lookup_insert_ne hcid] at hassembled
    rcases List.mem_append.mp hg with hg | hg
    · exact h.fresh cid hnone hassembled g hg hg'
    · cases List.mem_singleton.mp hg
      exact absurd hg'.symm hcid
  whole cid block' hblock' := by
    by_cases hcid : cid = f.id.blockCid
    · subst hcid
      rw [AList.lookup_insert] at hblock'
      cases hblock'
      exact hblock
    · rw [AList.lookup_insert_ne hcid] at hblock'
      exact (h.whole cid block' hblock').mono fun _ hg => List.mem_append_left _ hg

variable (now) in
theorem storeFragment (h : Inv taken offered s) (hroom : Room s f) (hfits : Fits s f) :
    Inv (if s.accepts f then taken ++ [f] else taken) (offered ++ [f])
      (s.storeFragment f now).2 := by
  rcases storeFragment_cases now hroom with
    ⟨haccepts, hs⟩ | ⟨haccepts, set, hset, ⟨hs, hcollect⟩ | ⟨data, hcomplete, hcollect, hs⟩⟩
  · rw [hs, if_neg haccepts]
    exact h.reject hfits haccepts
  all_goals
    obtain ⟨hawaited, -⟩ := (accepts_iff now).mp haccepts
    obtain ⟨hopened, htotal⟩ := h.opened now hfits haccepts
    have hpending := hset ▸ hopened.put now htotal (hfits.checksum haccepts) hawaited.1
    rw [hs, if_pos haccepts]
  · refine h.insert hawaited hpending fun hcomplete => ?_
    obtain ⟨data, hdata⟩ := hpending.exists_collect hcomplete f.id.blockCid
    exact hcollect hcomplete data hdata
  · exact h.assemble (hpending.madeOf hcollect)

theorem storeAll : ∀ {calls : List Call} {taken offered : List BfsFragment}
    {s : BlockFragmentStore}, Inv taken offered s → s.Throughout Room calls →
      s.Throughout Fits calls →
        Inv (taken ++ s.accepted calls) (offered ++ calls.map Prod.fst) (s.storeAll calls)
  | [], _, _, _, h, _, _ => by simpa [accepted, BlockFragmentStore.storeAll] using h
  | (f, now) :: calls, taken, offered, s, h, hroom, hfits => by
    have hstep := (h.storeFragment now hroom.1 hfits.1).storeAll hroom.2 hfits.2
    rw [List.append_assoc] at hstep
    rw [accepted, BlockFragmentStore.storeAll, List.map_cons]
    split at hstep
    · next haccepts => simpa [haccepts] using hstep
    · next haccepts => simpa [haccepts] using hstep

end Inv

/-- Fragments assemble rightly in a run. -/
structure AssemblesRightly (maxPending maxAssembled : Nat) (calls : List Call) : Prop where
  faithful : ∀ cid, ((new maxPending maxAssembled).storeAll calls).getState cid = some .complete →
    ∃ block, ((new maxPending maxAssembled).storeAll calls).getAssembledBlock cid = some block
      ∧ MadeOf ((new maxPending maxAssembled).accepted calls) cid block
  whole : ∀ cid total, Offered calls cid total →
    ((new maxPending maxAssembled).storeAll calls).getState cid = some .complete

theorem Inv.lookup_of_getState {taken offered : List BfsFragment} {s : BlockFragmentStore}
    {cid : String} (h : Inv taken offered s) (hstate : s.getState cid = some .complete) :
    ∃ block, s.assembled.lookup cid = some block := by
  rw [getState] at hstate
  split at hstate
  · next hsome => exact Option.isSome_iff_exists.mp hsome
  · obtain ⟨set, hset, hcomplete⟩ := Option.map_eq_some_iff.mp hstate
    have hincomplete := (h.pending cid set hset).2.1
    rw [FragmentSet.state, if_neg hincomplete] at hcomplete
    cases hcomplete

/-- With all its fragments offered, a block is not waited for any more. -/
theorem Inv.getState_of_offered {taken offered : List BfsFragment} {s : BlockFragmentStore}
    {cid : String} {total : UInt32} (h : Inv taken offered s) (hpos : 0 < total)
    (hall : ∀ i < total, ∃ f ∈ offered, f.id = { blockCid := cid, index := i }
      ∧ f.totalFragments = total ∧ verifyFragment f) :
    s.getState cid = some .complete := by
  rw [getState]
  cases hassembled : s.assembled.lookup cid with
  | some block => rfl
  | none =>
    exfalso
    have hoffered : ∀ i < total, ∃ f ∈ offered, f.id.blockCid = cid ∧ f.id.index = i
        ∧ f.id.index < f.totalFragments ∧ f.totalFragments = total ∧ verifyFragment f := by
      intro i hi
      obtain ⟨f, hf, hid, htotal, hverify⟩ := hall i hi
      exact ⟨f, hf, by rw [hid], by rw [hid], by rw [hid, htotal]; exact hi, htotal, hverify⟩
    cases hset : s.sets.lookup cid with
    | none =>
      obtain ⟨f, hf, hcid, -, hlt, -, hverify⟩ := hoffered 0 hpos
      exact h.fresh cid hset hassembled f hf hcid hlt hverify
    | some set =>
      obtain ⟨hpending, hincomplete, -⟩ := h.pending cid set hset
      have htotal : set.totalFragments = total := by
        obtain ⟨f, hf, hcid, -, hlt, htotal, hverify⟩ := hoffered 0 hpos
        exact (hpending.covers f hf hcid hlt hverify).1.symm.trans htotal
      refine hincomplete ((FragmentSet.isComplete_iff hpending.lt).mpr ?_)
      refine FragmentSet.le_length_of_mem fun i hi => ?_
      obtain ⟨f, hf, hcid, rfl, hlt, -, hverify⟩ := hoffered i (htotal ▸ hi)
      exact (hpending.covers f hf hcid hlt hverify).2

theorem assembles_rightly (maxPending maxAssembled : Nat) (calls : List Call)
    (hroom : (new maxPending maxAssembled).Throughout Room calls)
    (hfits : (new maxPending maxAssembled).Throughout Fits calls) :
    AssemblesRightly maxPending maxAssembled calls := by
  have hinv := (Inv.new maxPending maxAssembled).storeAll hroom hfits
  rw [List.nil_append, List.nil_append] at hinv
  constructor
  · intro cid hstate
    obtain ⟨block, hblock⟩ := hinv.lookup_of_getState hstate
    exact ⟨block, hblock, hinv.whole cid block hblock⟩
  · intro cid total hoffered
    refine hinv.getState_of_offered hoffered.1 fun i hi => ?_
    obtain ⟨call, hcall, hrest⟩ := hoffered.2 i hi
    exact ⟨call.1, List.mem_map_of_mem hcall, hrest⟩

/-- Two fragments in reverse order, one of them once more with a wrong checksum. -/
def reversed : List Call :=
  [(BfsFragment.new "a" 1 [2] 2, 0), ({ BfsFragment.new "a" 1 [2] 2 with checksum := 0 }, 1),
    (BfsFragment.new "a" 0 [1] 2, 2)]

theorem assembles_rightly_reversed : AssemblesRightly 1 1 reversed := by
  refine assembles_rightly 1 1 reversed ?_ ?_
  · decide
  · decide

/-- Two fragments of different totals. -/
def mixed : List Call := [(BfsFragment.new "a" 0 [1] 2, 0), (BfsFragment.new "a" 1 [2] 9, 1)]

/-- The one fragment of a block with a wrong checksum, and once more with the right one. -/
def resent : List Call :=
  [({ BfsFragment.new "a" 0 [1] 1 with checksum := 0 }, 0), (BfsFragment.new "a" 0 [1] 1, 1)]

theorem not_assemblesRightly : ((new 8 8).Throughout Room mixed ∧ ¬ AssemblesRightly 8 8 mixed)
    ∧ (new 8 8).Throughout Room resent ∧ ¬ AssemblesRightly 8 8 resent := by
  refine ⟨⟨by decide, fun h => ?_⟩, by decide, fun h => ?_⟩
  · obtain ⟨block, hblock, parts, hlen, -, hparts⟩ := h.faithful "a" (by decide)
    have hcount : block.fragmentCount = 2 := by
      have heq : (((new 8 8).storeAll mixed).getAssembledBlock "a").map
        AssembledBlock.fragmentCount = some 2 := by decide
      rw [hblock] at heq
      exact Option.some.inj heq
    have hone : 1 < parts.length := by
      rw [hlen, hcount]
      decide
    obtain ⟨hmem, hid, htotal⟩ := hparts 1 parts[1] (List.getElem?_eq_getElem hone)
    have hall : ∀ f ∈ (new 8 8).accepted mixed, f.id.index = 1 → f.totalFragments = 9 := by decide
    have hnine := hall _ hmem (by rw [hid]; rfl)
    rw [htotal, hcount] at hnine
    cases hnine
  · have hstate := h.whole "a" 1 ⟨by decide, fun i hi => ?_⟩
    · rw [getState, if_neg (by decide)] at hstate
      obtain ⟨set, hset, hcomplete⟩ := Option.map_eq_some_iff.mp hstate
      cases hset
      revert hcomplete
      rw [FragmentSet.state_eq_complete]
      decide
    · obtain rfl : i = 0 := by
        rw [UInt32.lt_iff_toNat_lt] at hi
        exact UInt32.toNat_inj.mp (Nat.lt_one_iff.mp hi)
      exact ⟨_, List.mem_cons_of_mem _ (List.mem_singleton_self _), by decide, by decide,
        verifyFragment_new ..⟩

end BlockFragmentStore

end Ipfrs.Storage
