/-
Ipfrs.Network.Fragmentation — splitting a message into fragments and putting it together
again (`packet_fragmentation_assembler.rs`).

Fragment counts and indices are natural numbers; `as u32` is a remainder. Left out are the
log, the statistics and the times, which neither direction reads.
-/
import Mathlib.Data.List.AList
import Mathlib.Algebra.Order.Floor.Div
import Ipfrs.Lib.Fnv
import Ipfrs.Lib.Loop

namespace Ipfrs.Network

abbrev PfaMessageId := UInt64

def fnv1a64 (data : List UInt8) : UInt64 := Lib.Fnv.hash data

def fnv1a32 (data : List UInt8) : UInt32 := (fnv1a64 data &&& 0xFFFFFFFF).toUInt32

structure PfaAssemblerConfig where
  mtu : Nat := 1400
  maxFragments : Nat := 4096
  checksumEnabled : Bool := true

structure PfaFragment where
  msgId : PfaMessageId
  fragmentIndex : Nat
  totalFragments : Nat
  offset : Nat
  data : List UInt8
  checksum : UInt32
  deriving DecidableEq

structure PfaReassemblyBuffer where
  msgId : PfaMessageId
  received : List (Option PfaFragment)
  totalFragments : Nat
  receivedCount : Nat

namespace PfaReassemblyBuffer

def new (msgId : PfaMessageId) (totalFragments : Nat) : PfaReassemblyBuffer :=
  { msgId, received := List.replicate totalFragments none, totalFragments, receivedCount := 0 }

def isComplete (buf : PfaReassemblyBuffer) : Bool := buf.receivedCount = buf.totalFragments

theorem isComplete_iff (buf : PfaReassemblyBuffer) :
    buf.isComplete ↔ buf.receivedCount = buf.totalFragments := decide_eq_true_iff

end PfaReassemblyBuffer

inductive PfaReceiveResult
  | buffered
  | duplicate
  | assembled (data : List UInt8)
  | error (text : String)
  deriving DecidableEq

structure PacketFragmentationAssembler where
  config : PfaAssemblerConfig
  buffers : AList (fun _ : PfaMessageId => PfaReassemblyBuffer)

namespace PacketFragmentationAssembler

def new (config : PfaAssemblerConfig) : PacketFragmentationAssembler := { config, buffers := ∅ }

/-! ## Fragmentation -/

/-- The loop of `fragment` from index `idx` on, with `n` fragments to go. -/
def fragmentLoop (config : PfaAssemblerConfig) (msgId : PfaMessageId) (data : List UInt8)
    (totalFragments : Nat) : Nat → Nat → Nat → List PfaFragment
  | 0, _, _ => []
  | n + 1, idx, offset =>
    let fin := min (offset + max config.mtu 1) data.length
    let payload := (data.take fin).drop offset
    let checksum := if config.checksumEnabled then fnv1a32 payload else 0
    ⟨msgId, idx, totalFragments, offset, payload, checksum⟩
      :: fragmentLoop config msgId data totalFragments n (idx + 1) fin

/-- The number of fragments that `data` needs. -/
def fragmentCount (config : PfaAssemblerConfig) (data : List UInt8) : Nat :=
  (data.length + max config.mtu 1 - 1) / max config.mtu 1

def fragment (config : PfaAssemblerConfig) (msgId : PfaMessageId) (data : List UInt8) :
    Except String (List PfaFragment) :=
  if data.isEmpty then .ok []
  else
    let totalFragments := fragmentCount config data % 2 ^ 32
    if config.maxFragments < totalFragments then
      .error (s!"message requires {totalFragments} fragments but max_fragments is "
        ++ s!"{config.maxFragments}")
    else .ok (fragmentLoop config msgId data totalFragments totalFragments 0 0)

/-! ## Reception -/

def verifyChecksumStatic (fragment : PfaFragment) : Bool :=
  fnv1a32 fragment.data = fragment.checksum

/-- The slots from `idx` on as pairs of index and data. -/
def indexed : Nat → List (Option PfaFragment) → Except String (List (Nat × List UInt8))
  | _, [] => .ok []
  | idx, none :: _ => .error s!"missing fragment at slot {idx}"
  | idx, some frag :: slots => do
    let rest ← indexed (idx + 1) slots
    return (frag.fragmentIndex, frag.data) :: rest

def assembleBuffer (buf : PfaReassemblyBuffer) : Except String (List UInt8) := do
  let slots ← indexed 0 buf.received
  return ((slots.insertionSort fun a b => a.1 ≤ b.1).map Prod.snd).flatten

/-- The part of `receive_fragment` that has found its buffer. -/
def storeFragment (asm : PacketFragmentationAssembler) (buf : PfaReassemblyBuffer)
    (fragment : PfaFragment) : PfaReceiveResult × PacketFragmentationAssembler :=
  if buf.totalFragments ≠ fragment.totalFragments then
    (.error (s!"total_fragments mismatch: buffer expects {buf.totalFragments} but fragment says "
      ++ s!"{fragment.totalFragments}"), asm)
  else if buf.received.length ≤ fragment.fragmentIndex then
    (.error (s!"fragment_index {fragment.fragmentIndex} out of buffer range "
      ++ s!"{buf.received.length}"), asm)
  else if (buf.received[fragment.fragmentIndex]?.join).isSome then (.duplicate, asm)
  else
    let buf := { buf with
      received := buf.received.set fragment.fragmentIndex (some fragment)
      receivedCount := buf.receivedCount + 1 }
    if buf.isComplete then
      let asm := { asm with buffers := asm.buffers.erase fragment.msgId }
      match assembleBuffer buf with
      | .ok data => (.assembled data, asm)
      | .error text => (.error text, asm)
    else (.buffered, { asm with buffers := asm.buffers.insert fragment.msgId buf })

def receiveFragment (asm : PacketFragmentationAssembler) (fragment : PfaFragment) :
    PfaReceiveResult × PacketFragmentationAssembler :=
  if asm.config.checksumEnabled && !verifyChecksumStatic fragment then
    (.error (s!"checksum mismatch for msg_id={fragment.msgId} "
      ++ s!"fragment_index={fragment.fragmentIndex}"), asm)
  else if fragment.totalFragments = 0 then (.error "total_fragments must be > 0", asm)
  else if fragment.totalFragments ≤ fragment.fragmentIndex then
    (.error (s!"fragment_index {fragment.fragmentIndex} out of range "
      ++ s!"(total={fragment.totalFragments})"), asm)
  else if asm.config.maxFragments < fragment.totalFragments then
    (.error (s!"total_fragments {fragment.totalFragments} exceeds max_fragments "
      ++ s!"{asm.config.maxFragments}"), asm)
  else
    let buf := (asm.buffers.lookup fragment.msgId).getD
      (.new fragment.msgId fragment.totalFragments)
    storeFragment { asm with buffers := asm.buffers.insert fragment.msgId buf } buf fragment

/-- What fragments that arrive one after the other yield, each with its message. -/
def receiveAll : PacketFragmentationAssembler → List PfaFragment →
    List (PfaMessageId × PfaReceiveResult)
  | _, [] => []
  | asm, fragment :: fragments =>
    let (result, asm) := receiveFragment asm fragment
    (fragment.msgId, result) :: receiveAll asm fragments

end PacketFragmentationAssembler

structure Message where
  id : PfaMessageId
  data : List UInt8
  deriving DecidableEq

/-- The messages that are returned. -/
def assembledMessages (results : List (PfaMessageId × PfaReceiveResult)) : List Message :=
  results.filterMap fun
    | (id, .assembled data) => some ⟨id, data⟩
    | _ => none

/-! ## Which messages arrive

Fragments of several messages arrive in any order and any number of times. A message is
assembled whenever its fragments are complete, and then its buffer is gone: how often it is
assembled is how often its fragments are collected (`Ipfrs.Lib.rounds`). -/

open Ipfrs.Lib

namespace PacketFragmentationAssembler

variable {config : PfaAssemblerConfig} {msgId : PfaMessageId} {data : List UInt8}

/-- What `receive_fragment` relies on in the fragments of one message. -/
structure Fragmented (config : PfaAssemblerConfig) (msgId : PfaMessageId)
    (fragments : List PfaFragment) : Prop where
  index : fragments.map PfaFragment.fragmentIndex = List.range fragments.length
  msgId_eq : ∀ f ∈ fragments, f.msgId = msgId
  total_eq : ∀ f ∈ fragments, f.totalFragments = fragments.length
  length_le : fragments.length ≤ config.maxFragments
  checksum : ∀ f ∈ fragments, config.checksumEnabled → verifyChecksumStatic f

section Loop

variable (config msgId data) (totalFragments : Nat)

theorem length_fragmentLoop : ∀ n idx offset,
    (fragmentLoop config msgId data totalFragments n idx offset).length = n
  | 0, _, _ => rfl
  | n + 1, idx, offset => by rw [fragmentLoop, List.length_cons, length_fragmentLoop n]

theorem index_fragmentLoop : ∀ n idx offset,
    (fragmentLoop config msgId data totalFragments n idx offset).map PfaFragment.fragmentIndex
      = List.range' idx n
  | 0, _, _ => rfl
  | n + 1, idx, offset => by
    rw [fragmentLoop, List.map_cons, index_fragmentLoop n, List.range'_succ]

theorem mem_fragmentLoop {f : PfaFragment} : ∀ {n idx offset},
    f ∈ fragmentLoop config msgId data totalFragments n idx offset →
      f.msgId = msgId ∧ f.totalFragments = totalFragments
        ∧ (config.checksumEnabled → verifyChecksumStatic f)
  | 0, _, _, h => by cases h
  | n + 1, idx, offset, h => by
    rw [fragmentLoop] at h
    cases h with
    | head =>
      refine ⟨rfl, rfl, fun hchecksum => ?_⟩
      simp [verifyChecksumStatic, hchecksum]
    | tail _ h => exact mem_fragmentLoop h

theorem data_fragmentLoop : ∀ n idx {offset}, offset ≤ data.length →
    ((fragmentLoop config msgId data totalFragments n idx offset).map PfaFragment.data).flatten
      = (data.take (offset + n * max config.mtu 1)).drop offset
  | 0, _, offset, _ => by simp [fragmentLoop]
  | n + 1, idx, offset, hle => by
    have hsucc : (n + 1) * max config.mtu 1 = n * max config.mtu 1 + max config.mtu 1 :=
      Nat.succ_mul ..
    rw [fragmentLoop, List.map_cons, List.flatten_cons, data_fragmentLoop n _ (by omega)]
    -- Past the end of the data both bounds take all of it.
    have hrest : data.take (min (offset + max config.mtu 1) data.length + n * max config.mtu 1)
        = data.take (offset + (n + 1) * max config.mtu 1) := by
      rw [List.take_eq_take_iff]
      omega
    have hpayload : data.take (min (offset + max config.mtu 1) data.length)
        = (data.take (offset + (n + 1) * max config.mtu 1)).take
            (min (offset + max config.mtu 1) data.length) := by
      rw [List.take_take, List.take_eq_take_iff]
      omega
    rw [hrest, hpayload, List.drop_take, ← Nat.add_sub_cancel' (m := offset)
      (n := min (offset + max config.mtu 1) data.length) (by omega), Nat.add_sub_cancel_left,
      List.drop_take_append_drop]

end Loop

theorem fragment_fragmented {fragments : List PfaFragment}
    (h : fragment config msgId data = .ok fragments) : Fragmented config msgId fragments := by
  rw [fragment] at h
  split at h
  · cases h
    exact ⟨rfl, by simp, by simp, Nat.zero_le _, by simp⟩
  · simp only at h
    split at h
    · cases h
    · next hle =>
      cases h
      refine ⟨?_, fun f hf => (mem_fragmentLoop _ _ _ _ hf).1, fun f hf => ?_, ?_,
        fun f hf => (mem_fragmentLoop _ _ _ _ hf).2.2⟩
      · rw [index_fragmentLoop, length_fragmentLoop, List.range_eq_range']
      · rw [length_fragmentLoop, (mem_fragmentLoop _ _ _ _ hf).2.1]
      · rw [length_fragmentLoop]
        exact not_lt.mp hle

namespace Fragmented

variable {fragments : List PfaFragment} (hfrag : Fragmented config msgId fragments)
include hfrag

theorem index_getElem {i : Nat} {f : PfaFragment} (h : fragments[i]? = some f) :
    f.fragmentIndex = i := by
  have hlt : i < fragments.length := (List.getElem?_eq_some_iff.mp h).1
  have hmap := congrArg (·[i]?) hfrag.index
  simpa [h, List.getElem?_range hlt] using hmap

theorem getElem_index {f : PfaFragment} (h : f ∈ fragments) :
    fragments[f.fragmentIndex]? = some f := by
  obtain ⟨i, hi⟩ := List.mem_iff_getElem?.mp h
  rwa [hfrag.index_getElem hi]

theorem nodup : fragments.Nodup := by
  refine List.Nodup.of_map PfaFragment.fragmentIndex ?_
  rw [hfrag.index]
  exact List.nodup_range

end Fragmented

/-! ## Collecting the fragments of a message -/

/-- The buffer of a message with `n` fragments, a new one if it has none. -/
def bufferOf (asm : PacketFragmentationAssembler) (msgId : PfaMessageId) (n : Nat) :
    PfaReassemblyBuffer :=
  (asm.buffers.lookup msgId).getD (.new msgId n)

/-- The buffer that holds those fragments of a message that are in `got`. -/
def bufferWith (msgId : PfaMessageId) (fragments : List PfaFragment) (got : Finset PfaFragment) :
    PfaReassemblyBuffer :=
  { msgId
    received := fragments.map fun f => if f ∈ got then some f else none
    totalFragments := fragments.length
    receivedCount := (fragments.toFinset ∩ got).card }

/-- `got` is what has arrived of a message since it was last assembled. -/
structure Tracks (config : PfaAssemblerConfig) (msgId : PfaMessageId)
    (fragments : List PfaFragment) (got : Finset PfaFragment)
    (asm : PacketFragmentationAssembler) : Prop where
  config_eq : asm.config = config
  buffer_eq : asm.bufferOf msgId fragments.length = bufferWith msgId fragments got
  incomplete : ¬ fragments.toFinset ⊆ got

theorem bufferWith_empty (msgId : PfaMessageId) (fragments : List PfaFragment) :
    bufferWith msgId fragments ∅ = .new msgId fragments.length := by
  simp [bufferWith, PfaReassemblyBuffer.new, List.map_const']

section Collecting

variable {fragments : List PfaFragment} {got : Finset PfaFragment} {f : PfaFragment}
  {asm : PacketFragmentationAssembler}

theorem Tracks.new (hne : fragments ≠ []) :
    Tracks config msgId fragments ∅ (PacketFragmentationAssembler.new config) := by
  refine ⟨rfl, (bufferWith_empty ..).symm, fun hsub => ?_⟩
  rw [Finset.subset_empty, List.toFinset_eq_empty_iff] at hsub
  exact hne hsub

/-- A buffer is complete when everything has arrived. -/
theorem isComplete_bufferWith (hfrag : Fragmented config msgId fragments) :
    (bufferWith msgId fragments got).isComplete ↔ fragments.toFinset ⊆ got := by
  have hcard := List.toFinset_card_of_nodup hfrag.nodup
  rw [PfaReassemblyBuffer.isComplete_iff, bufferWith, ← hcard, ← Finset.inter_eq_left]
  constructor
  · exact fun h => Finset.eq_of_subset_of_card_le Finset.inter_subset_left h.ge
  · intro h
    rw [h]

/-- A fragment is put into its slot. -/
theorem bufferWith_insert (hfrag : Fragmented config msgId fragments) (hf : f ∈ fragments)
    (hnew : f ∉ got) :
    { bufferWith msgId fragments got with
        received := (bufferWith msgId fragments got).received.set f.fragmentIndex (some f)
        receivedCount := (bufferWith msgId fragments got).receivedCount + 1 }
      = bufferWith msgId fragments (insert f got) := by
  have hcard : (fragments.toFinset ∩ insert f got).card
      = (fragments.toFinset ∩ got).card + 1 := by
    rw [Finset.inter_insert_of_mem (List.mem_toFinset.mpr hf),
      Finset.card_insert_of_notMem (fun h => hnew (Finset.mem_inter.mp h).2)]
  have hset : (fragments.map fun g => if g ∈ got then some g else none).set f.fragmentIndex (some f)
      = fragments.map fun g => if g ∈ insert f got then some g else none := by
    refine List.ext_getElem? fun i => ?_
    rw [List.getElem?_set]
    split
    · next heq =>
      have hget := hfrag.getElem_index hf
      obtain ⟨hlt, hslot⟩ := List.getElem?_eq_some_iff.mp hget
      subst heq
      simp [hlt, hslot]
    · next hne =>
      cases hget : fragments[i]? with
      | none => simp [hget]
      | some g =>
        have hg : g ≠ f := fun h => hne (h ▸ hfrag.index_getElem hget)
        simp [hget, hg]
  simp [bufferWith, hcard, hset]

theorem indexed_map_some : ∀ (idx : Nat) (fragments : List PfaFragment),
    indexed idx (fragments.map some) = .ok (fragments.map fun f => (f.fragmentIndex, f.data))
  | _, [] => rfl
  | idx, f :: fragments => by
    rw [List.map_cons, indexed, indexed_map_some]
    rfl

/-- A complete buffer assembles to the data of the fragments. -/
theorem assembleBuffer_bufferWith (hfrag : Fragmented config msgId fragments)
    (hall : fragments.toFinset ⊆ got) : assembleBuffer (bufferWith msgId fragments got)
      = .ok (fragments.map PfaFragment.data).flatten := by
  have hreceived : (fragments.map fun f => if f ∈ got then some f else none)
      = fragments.map some := by
    refine List.map_congr_left fun f hf => if_pos (hall (List.mem_toFinset.mpr hf))
  have hsorted : (fragments.map fun f => (f.fragmentIndex, f.data)).Pairwise
      fun a b => a.1 ≤ b.1 := by
    rw [List.pairwise_map]
    have hrange := List.pairwise_map.mp (hfrag.index ▸ List.pairwise_le_range)
    exact hrange
  rw [assembleBuffer, bufferWith, hreceived, indexed_map_some]
  simp only [bind, Except.bind, hsorted.insertionSort_eq, List.map_map]
  rfl

/-- Fragments of other messages leave a buffer as it is. -/
theorem receiveFragment_other (asm : PacketFragmentationAssembler) (n : Nat)
    (hid : f.msgId ≠ msgId) : (receiveFragment asm f).2.config = asm.config
      ∧ (receiveFragment asm f).2.bufferOf msgId n = asm.bufferOf msgId n := by
  simp only [receiveFragment]
  split_ifs
  iterate 4 exact ⟨rfl, rfl⟩
  simp only [storeFragment]
  have hne := hid.symm
  split_ifs
  · simp [bufferOf, AList.lookup_insert_ne hne]
  · simp [bufferOf, AList.lookup_insert_ne hne]
  · simp [bufferOf, AList.lookup_insert_ne hne]
  · split
    · simp [bufferOf, AList.lookup_erase_ne hne, AList.lookup_insert_ne hne]
    · simp [bufferOf, AList.lookup_erase_ne hne, AList.lookup_insert_ne hne]
  · simp [bufferOf, AList.lookup_insert_ne hne]

/-- A fragment of the message finds its buffer. -/
theorem receiveFragment_own (hfrag : Fragmented config msgId fragments) (hf : f ∈ fragments)
    (ht : Tracks config msgId fragments got asm) :
    receiveFragment asm f = storeFragment
      { asm with buffers := asm.buffers.insert msgId (bufferWith msgId fragments got) }
      (bufferWith msgId fragments got) f := by
  have hlt := (List.getElem?_eq_some_iff.mp (hfrag.getElem_index hf)).1
  have hchecksum : ¬ (asm.config.checksumEnabled && !verifyChecksumStatic f) = true := by
    rw [ht.config_eq, Bool.and_eq_true, Bool.not_eq_true']
    exact fun h => absurd (hfrag.checksum f hf h.1) (by simp [h.2])
  have hle := hfrag.length_le
  rw [← ht.config_eq] at hle
  simp only [receiveFragment]
  rw [if_neg hchecksum, hfrag.msgId_eq f hf, hfrag.total_eq f hf, if_neg (by omega),
    if_neg (by omega), if_neg (by omega), ← ht.buffer_eq]
  rfl

theorem storeFragment_bufferWith (hfrag : Fragmented config msgId fragments) (hf : f ∈ fragments) :
    storeFragment asm (bufferWith msgId fragments got) f
      = if f ∈ got then (.duplicate, asm)
        else if fragments.toFinset ⊆ insert f got then
          (.assembled (fragments.map PfaFragment.data).flatten,
            { asm with buffers := asm.buffers.erase msgId })
        else (.buffered, { asm with
          buffers := asm.buffers.insert msgId (bufferWith msgId fragments (insert f got)) }) := by
  have hget := hfrag.getElem_index hf
  have hlt := (List.getElem?_eq_some_iff.mp hget).1
  have hslot : ((bufferWith msgId fragments got).received[f.fragmentIndex]?.join).isSome
      ↔ f ∈ got := by
    by_cases h : f ∈ got <;> simp [bufferWith, hget, h]
  have htotal : (bufferWith msgId fragments got).totalFragments = f.totalFragments :=
    (hfrag.total_eq f hf).symm
  have hlength : f.fragmentIndex < (bufferWith msgId fragments got).received.length := by
    simpa [bufferWith] using hlt
  simp only [storeFragment]
  rw [if_neg (not_not.mpr htotal), if_neg (not_le.mpr hlength)]
  split
  · next h => rw [if_pos (hslot.mp h)]
  · next h =>
    have hnew := hslot.not.mp h
    rw [if_neg hnew, bufferWith_insert hfrag hf hnew, hfrag.msgId_eq f hf]
    split
    · next hcomplete =>
      have hall := (isComplete_bufferWith hfrag).mp hcomplete
      rw [if_pos hall, assembleBuffer_bufferWith hfrag hall]
    · next hcomplete => rw [if_neg ((isComplete_bufferWith hfrag).not.mp hcomplete)]

/-- A fragment completes its message, or is one more that has arrived. -/
theorem tracks_receiveFragment (hfrag : Fragmented config msgId fragments)
    (ht : Tracks config msgId fragments got asm) (hf : f.msgId = msgId → f ∈ fragments) :
    if fragments.toFinset ⊆ insert f got then
      f.msgId = msgId
        ∧ (receiveFragment asm f).1 = .assembled (fragments.map PfaFragment.data).flatten
        ∧ Tracks config msgId fragments ∅ (receiveFragment asm f).2 else
      (f.msgId = msgId → ∀ data, (receiveFragment asm f).1 ≠ .assembled data)
        ∧ Tracks config msgId fragments (insert f got) (receiveFragment asm f).2 := by
  by_cases hid : f.msgId = msgId
  · have hf := hf hid
    rw [receiveFragment_own hfrag hf ht, storeFragment_bufferWith hfrag hf]
    by_cases hgot : f ∈ got
    · rw [Finset.insert_eq_of_mem hgot, if_neg ht.incomplete, if_pos hgot]
      refine ⟨fun _ _ h => (by cases h), ht.config_eq, ?_, ht.incomplete⟩
      simp [bufferOf]
    · rw [if_neg hgot]
      split
      · refine ⟨hid, rfl, ht.config_eq, ?_, ?_⟩
        · simp [bufferOf, bufferWith_empty]
        · rw [Finset.subset_empty, List.toFinset_eq_empty_iff]
          exact List.ne_nil_of_mem hf
      · next hall =>
        refine ⟨fun _ _ h => (by cases h), ht.config_eq, ?_, hall⟩
        simp [bufferOf]
  · have hout : f ∉ fragments := fun hf => hid (hfrag.msgId_eq f hf)
    have hinsert (g : PfaFragment) (hg : g ∈ fragments) : g ∈ insert f got ↔ g ∈ got := by
      have hne : g ≠ f := fun h => hout (h ▸ hg)
      simp [hne]
    have hall : ¬ fragments.toFinset ⊆ insert f got := fun hsub => ht.incomplete fun g hg =>
      (hinsert g (List.mem_toFinset.mp hg)).mp (hsub hg)
    obtain ⟨hconfig, hbuffer⟩ := receiveFragment_other asm fragments.length hid
    rw [if_neg hall]
    refine ⟨fun h => absurd h hid, hconfig.trans ht.config_eq, hbuffer.trans ?_, hall⟩
    have hslots : (fragments.map fun g => if g ∈ insert f got then some g else none)
        = fragments.map fun g => if g ∈ got then some g else none :=
      List.map_congr_left fun g hg => if_congr (hinsert g hg) rfl rfl
    rw [ht.buffer_eq, bufferWith, bufferWith, hslots,
      Finset.inter_insert_of_notMem (by simpa using hout)]

/-- A message is assembled as often as its fragments are collected. -/
theorem filter_receiveAll (hfrag : Fragmented config msgId fragments) :
    ∀ {arrivals : List PfaFragment} {got : Finset PfaFragment}
      {asm : PacketFragmentationAssembler}, Tracks config msgId fragments got asm →
      (∀ f ∈ arrivals, f.msgId = msgId → f ∈ fragments) →
        (assembledMessages (receiveAll asm arrivals)).filter (·.id = msgId)
          = List.replicate (rounds fragments.toFinset got arrivals)
              ⟨msgId, (fragments.map PfaFragment.data).flatten⟩
  | [], _, _, _, _ => rfl
  | f :: arrivals, got, asm, ht, hf => by
    have hstep := tracks_receiveFragment hfrag ht (hf f List.mem_cons_self)
    have harrivals := fun g hg => hf g (List.mem_cons_of_mem f hg)
    simp only [receiveAll, rounds]
    split at hstep
    · next hall =>
      obtain ⟨hid, hresult, ht'⟩ := hstep
      rw [if_pos hall, List.replicate_succ, ← filter_receiveAll hfrag ht' harrivals, hresult]
      simp [assembledMessages, hid]
    · next hall =>
      obtain ⟨hresult, ht'⟩ := hstep
      rw [if_neg hall, ← filter_receiveAll hfrag ht' harrivals]
      cases h : (receiveFragment asm f).1 with
      | assembled data =>
        have hid : f.msgId ≠ msgId := fun hid => hresult hid data h
        simp [assembledMessages, hid]
      | _ => simp [assembledMessages]

end Collecting

theorem mem_assembledMessages {asm : PacketFragmentationAssembler} {arrivals : List PfaFragment}
    {m : Message} (h : m ∈ assembledMessages (receiveAll asm arrivals)) :
    ∃ f ∈ arrivals, f.msgId = m.id := by
  induction arrivals generalizing asm with
  | nil => cases h
  | cons f arrivals ih =>
    simp only [receiveAll, assembledMessages, List.filterMap_cons] at h
    split at h
    · obtain ⟨g, hg, hid⟩ := ih h
      exact ⟨g, List.mem_cons_of_mem f hg, hid⟩
    · next heq =>
      cases h with
      | head =>
        refine ⟨f, List.mem_cons_self, ?_⟩
        split at heq
        · next hpair =>
          cases heq
          exact congrArg Prod.fst hpair
        · cases heq
      | tail _ h =>
        obtain ⟨g, hg, hid⟩ := ih h
        exact ⟨g, List.mem_cons_of_mem f hg, hid⟩

end PacketFragmentationAssembler

/-! ## Traffic -/

open PacketFragmentationAssembler

theorem le_fragmentCount_mul (config : PfaAssemblerConfig) (data : List UInt8) :
    data.length ≤ fragmentCount config data * max config.mtu 1 := by
  have hpos : 0 < max config.mtu 1 := by omega
  have hdiv := Nat.div_add_mod' (data.length + max config.mtu 1 - 1) (max config.mtu 1)
  have hmod := Nat.mod_lt (data.length + max config.mtu 1 - 1) hpos
  rw [fragmentCount]
  omega

theorem mul_lt_of_lt_fragmentCount {config : PfaAssemblerConfig} {data : List UInt8} {n : Nat}
    (h : n < fragmentCount config data) : n * max config.mtu 1 < data.length := by
  have hmul := (Nat.le_div_iff_mul_le (show 0 < max config.mtu 1 by omega)).mp h
  rw [Nat.succ_mul] at hmul
  omega

/-- The data of the fragments is the message, if the count fits into 32 bits. -/
theorem data_fragments {config : PfaAssemblerConfig} {m : Message} {fragments : List PfaFragment}
    (h : fragment config m.id m.data = .ok fragments) :
    (fragments.map PfaFragment.data).flatten = m.data ↔ fragmentCount config m.data < 2 ^ 32 := by
  rw [fragment] at h
  split at h
  · next hempty =>
    cases h
    have hnil : m.data = [] := List.isEmpty_iff.mp hempty
    have hcount : fragmentCount config m.data < 2 ^ 32 := by
      rw [fragmentCount, hnil, List.length_nil, Nat.div_eq_of_lt (by omega)]
      omega
    rw [hnil] at hcount ⊢
    exact ⟨fun _ => hcount, fun _ => rfl⟩
  · simp only at h
    split at h
    · cases h
    · cases h
      rw [data_fragmentLoop _ _ _ _ _ _ (Nat.zero_le _), List.drop_zero, Nat.zero_add,
        List.take_eq_self_iff]
      constructor
      · intro hle
        by_contra hcount
        have hnarrow : fragmentCount config m.data % 2 ^ 32 < fragmentCount config m.data := by
          omega
        have hlt := mul_lt_of_lt_fragmentCount hnarrow
        omega
      · intro hcount
        rw [Nat.mod_eq_of_lt hcount]
        exact le_fragmentCount_mul config m.data

/-- Accepted messages with distinct identifiers, and fragments of them that arrive. -/
structure Traffic (config : PfaAssemblerConfig) where
  messages : List Message
  ids_nodup : (messages.map Message.id).Nodup
  fragments : Message → List PfaFragment
  fragment_eq : ∀ m ∈ messages, fragment config m.id m.data = .ok (fragments m)
  arrivals : List PfaFragment
  sent : ∀ f ∈ arrivals, ∃ m ∈ messages, f ∈ fragments m

namespace Traffic

variable {config : PfaAssemblerConfig} (t : Traffic config)

/-- All fragments of the message are there. -/
def Arrives (m : Message) (arrivals : List PfaFragment) : Prop :=
  ∀ f ∈ t.fragments m, f ∈ arrivals

instance (m : Message) (arrivals : List PfaFragment) : Decidable (t.Arrives m arrivals) :=
  inferInstanceAs (Decidable (∀ f ∈ t.fragments m, f ∈ arrivals))

/-- Up to their order, the messages returned are those of which all fragments arrive. -/
def DeliversOnce : Prop :=
  (assembledMessages (receiveAll (.new config) t.arrivals)).Perm
    (t.messages.filter (t.Arrives · t.arrivals))

variable {t} {m : Message}

theorem fragmented (hm : m ∈ t.messages) : Fragmented config m.id (t.fragments m) :=
  fragment_fragmented (t.fragment_eq m hm)

theorem mem_fragments_of_arrivals (hm : m ∈ t.messages) :
    ∀ f ∈ t.arrivals, f.msgId = m.id → f ∈ t.fragments m := by
  intro f hf hid
  obtain ⟨m', hm', hsent⟩ := t.sent f hf
  have hid' : m'.id = m.id := ((fragmented hm').msgId_eq f hsent).symm.trans hid
  rwa [List.inj_on_of_nodup_map t.ids_nodup hm' hm hid'] at hsent

theorem filter_id_eq_singleton {m : Message} : ∀ {messages : List Message},
    (messages.map Message.id).Nodup → m ∈ messages → messages.filter (·.id = m.id) = [m]
  | m' :: messages, hnodup, hm => by
    rw [List.map_cons, List.nodup_cons] at hnodup
    cases hm with
    | head =>
      rw [List.filter_cons_of_pos (by simp), List.filter_eq_nil_iff.mpr]
      intro m' hm' hid
      exact hnodup.1 (of_decide_eq_true hid ▸ List.mem_map_of_mem hm')
    | tail _ hm =>
      have hne : m'.id ≠ m.id := fun hid => hnodup.1 (hid ▸ List.mem_map_of_mem hm)
      rw [List.filter_cons_of_neg (by simpa using hne), filter_id_eq_singleton hnodup.2 hm]

/-- Message by message: it is returned once or never. -/
theorem deliversOnce_iff_filter : t.DeliversOnce ↔ ∀ m ∈ t.messages,
    (assembledMessages (receiveAll (.new config) t.arrivals)).filter (·.id = m.id)
      = if t.Arrives m t.arrivals then [m] else [] := by
  have hcomplete (m : Message) (hm : m ∈ t.messages) :
      (t.messages.filter (t.Arrives · t.arrivals)).filter (·.id = m.id)
        = if t.Arrives m t.arrivals then [m] else [] := by
    rw [List.filter_comm, filter_id_eq_singleton t.ids_nodup hm, List.filter_singleton]
    simp
  constructor
  · intro h m hm
    have hperm := h.filter (·.id = m.id)
    rw [hcomplete m hm] at hperm
    by_cases harrives : t.Arrives m t.arrivals
    · rw [if_pos harrives] at hperm ⊢
      exact List.perm_singleton.mp hperm
    · rw [if_neg harrives] at hperm ⊢
      exact List.perm_nil.mp hperm
  · intro h
    refine List.perm_iff_count.mpr fun a => ?_
    by_cases ha : ∃ m ∈ t.messages, a.id = m.id
    · obtain ⟨m, hm, hid⟩ := ha
      have hfilter := (h m hm).trans (hcomplete m hm).symm
      rw [← List.count_filter (p := fun b : Message => b.id = m.id) (by simpa using hid), hfilter,
        List.count_filter (by simpa using hid)]
    · rw [List.count_eq_zero_of_not_mem, List.count_eq_zero_of_not_mem]
      · exact fun hmem => ha ⟨a, (List.mem_filter.mp hmem).1, rfl⟩
      · intro hmem
        obtain ⟨f, hf, hid⟩ := mem_assembledMessages hmem
        obtain ⟨m, hm, hsent⟩ := t.sent f hf
        exact ha ⟨m, hm, hid.symm.trans ((fragmented hm).msgId_eq f hsent)⟩

theorem arrives_iff {arrivals : List PfaFragment} :
    t.Arrives m arrivals ↔ (t.fragments m).toFinset ⊆ arrivals.toFinset := by
  simp [Arrives, Finset.subset_iff]

theorem data_ne_nil (hm : m ∈ t.messages) (h : t.fragments m ≠ []) : m.data ≠ [] := by
  intro hdata
  have heq := t.fragment_eq m hm
  rw [fragment, if_pos (List.isEmpty_iff.mpr hdata)] at heq
  exact h (Except.ok.inj heq).symm

/-- Exactly the traffic is delivered in which every message that arrives has data, is not cut
into 2^32 or more fragments, and does not arrive a second time after it has arrived. -/
theorem deliversOnce_iff (t : Traffic config) : t.DeliversOnce ↔
    ∀ m ∈ t.messages, t.Arrives m t.arrivals → m.data ≠ [] ∧ fragmentCount config m.data < 2 ^ 32
        ∧ ¬ ∃ first rest, t.arrivals = first ++ rest ∧ t.Arrives m first ∧ t.Arrives m rest := by
  rw [deliversOnce_iff_filter]
  refine forall₂_congr fun m hm => ?_
  by_cases hne : t.fragments m = []
  · -- Nothing of the message ever arrives, and it has no data or too much.
    have harrives : t.Arrives m t.arrivals := by simp [Arrives, hne]
    rw [if_pos harrives]
    constructor
    · intro h
      have hmem : m ∈ [m] := List.mem_singleton_self m
      rw [← h] at hmem
      obtain ⟨f, hf, hid⟩ := mem_assembledMessages (List.mem_filter.mp hmem).1
      have hsent := mem_fragments_of_arrivals hm f hf hid
      rw [hne] at hsent
      cases hsent
    · intro h
      obtain ⟨hdata, hcount, -⟩ := h harrives
      have hflat := (data_fragments (t.fragment_eq m hm)).mpr hcount
      rw [hne] at hflat
      exact absurd hflat.symm hdata
  · have hall : (t.fragments m).toFinset.Nonempty := by
      simpa [Finset.nonempty_iff_ne_empty] using hne
    rw [filter_receiveAll (fragmented hm) (.new hne) (mem_fragments_of_arrivals hm)]
    by_cases harrives : t.Arrives m t.arrivals
    · have hwhole : (⟨m.id, ((t.fragments m).map PfaFragment.data).flatten⟩ : Message) = m
          ↔ fragmentCount config m.data < 2 ^ 32 := by
        rw [← data_fragments (t.fragment_eq m hm)]
        exact ⟨fun h => congrArg Message.data h, fun h => by rw [h]⟩
      have honce := rounds_eq_one_iff (l := t.arrivals) hall
      simp only [← arrives_iff, harrives, true_and] at honce
      rw [if_pos harrives, ← honce, ← hwhole, eq_comm, List.eq_replicate_iff]
      simp [harrives, data_ne_nil hm hne, and_comm, eq_comm]
    · have hnever := (rounds_eq_zero_iff hall).mpr (arrives_iff.not.mp harrives)
      simp [hnever, harrives]

/-- A message of one fragment, which arrives twice. -/
def twice : Traffic {} where
  messages := [⟨1, [7]⟩]
  ids_nodup := by decide
  fragments _ := [⟨1, 0, 1, 0, [7], fnv1a32 [7]⟩]
  fragment_eq := by decide
  arrivals := [⟨1, 0, 1, 0, [7], fnv1a32 [7]⟩, ⟨1, 0, 1, 0, [7], fnv1a32 [7]⟩]
  sent := by decide

theorem not_deliversOnce : ¬ twice.DeliversOnce := by
  rw [DeliversOnce]
  decide

end Traffic

end Ipfrs.Network
