/-
Ipfrs.Transport.Erasure — a block cut into data shards with parity shards (`erasure.rs`).

Sizes are natural numbers; only the sum of the shard counts is taken as a `usize`, which
wraps. `decode` counts: with as many data shards as the configuration has it joins them in
index order, whichever they are, and with another number of them it fails or, given more
shards than that, returns nothing as if it were the data.
-/
import Ipfrs.Lib.SortedAssoc
import Ipfrs.Lib.Tiling

namespace Ipfrs.Transport

open Ipfrs.Lib

inductive ErasureError
  | invalidParams (text : String)
  | insufficientShards (available need : Nat)
  | shardSizeMismatch (expected got : Nat)
  | decodingFailed (text : String)
  deriving DecidableEq

structure ErasureConfig where
  dataShards : Nat
  parityShards : Nat
  deriving DecidableEq

def ErasureConfig.new (dataShards parityShards : UInt64) : Except ErasureError ErasureConfig :=
  if dataShards = 0 then .error (.invalidParams "Data shards must be > 0")
  else if parityShards = 0 then .error (.invalidParams "Parity shards must be > 0")
  else if dataShards + parityShards > 256 then
    .error (.invalidParams "Total shards must be <= 256")
  else .ok { dataShards := dataShards.toNat, parityShards := parityShards.toNat }

structure Shard where
  index : Nat
  data : List UInt8
  isParity : Bool
  deriving DecidableEq

def Shard.size (s : Shard) : Nat := s.data.length

namespace Erasure

/-- `usize::div_ceil`. -/
def divCeil (a b : Nat) : Nat := a / b + if a % b = 0 then 0 else 1

def shardSize (config : ErasureConfig) (data : List UInt8) : Nat :=
  divCeil data.length config.dataShards

/-- The data, resized with zeros to whole shards. -/
def paddedData (config : ErasureConfig) (data : List UInt8) : List UInt8 :=
  data ++ List.replicate (shardSize config data * config.dataShards - data.length) 0

/-- The bytes of a data shard. -/
def dataShard (config : ErasureConfig) (data : List UInt8) (i : Nat) : List UInt8 :=
  ((paddedData config data).drop (i * shardSize config data)).take (shardSize config data)

/-- A data shard is added to a parity shard with its weight. -/
def addShard (config : ErasureConfig) (data : List UInt8) (p : Nat) (parity : List UInt8)
    (i : Nat) : List UInt8 :=
  let weight := UInt8.ofNat ((i + p + 1) % 256)
  List.zipWith (fun q byte => q ^^^ byte * weight) parity (dataShard config data i)

/-- The bytes of a parity shard. -/
def parityShard (config : ErasureConfig) (data : List UInt8) (p : Nat) : List UInt8 :=
  (List.range config.dataShards).foldl (addShard config data p)
    (List.replicate (shardSize config data) 0)

/-- `SimpleErasureEncoder::encode`. -/
def encode (config : ErasureConfig) (data : List UInt8) : Except ErasureError (List Shard) :=
  let shards := (List.range config.dataShards).map fun i =>
    { index := i, data := dataShard config data i, isParity := false }
  let parity := (List.range config.parityShards).map fun p =>
    { index := config.dataShards + p, data := parityShard config data p, isParity := true }
  .ok (shards ++ parity)

/-- `SimpleErasureEncoder::decode`. -/
def decode (config : ErasureConfig) (shards : List Shard) (originalSize : Nat) :
    Except ErasureError (List UInt8) :=
  if shards.length < config.dataShards then
    .error (.insufficientShards shards.length config.dataShards)
  else
    let expected := (shards.head?.map Shard.size).getD 0
    match shards.find? (fun s => s.size ≠ expected) with
    | some s => .error (.shardSizeMismatch expected s.size)
    | none =>
      let dataShards := shards.filter (fun s => !s.isParity)
      let parityShards := shards.filter (fun s => s.isParity)
      if dataShards.length = config.dataShards then
        .ok (((StableSort.sortBy Shard.index dataShards).flatMap Shard.data).take originalSize)
      else if dataShards.length + parityShards.length < config.dataShards then
        .error (.insufficientShards (dataShards.length + parityShards.length) config.dataShards)
      else if dataShards.length + parityShards.length = config.dataShards then
        .error (.decodingFailed "Recovery not fully implemented in simple encoder")
      else .ok []

/-! ## Shards -/

theorem length_le_padded {a b : Nat} (hb : 0 < b) : a ≤ divCeil a b * b := by
  have hdiv := Nat.div_add_mod a b
  have hmod := Nat.mod_lt a hb
  unfold divCeil
  split
  · next h => rw [Nat.add_zero, Nat.mul_comm]; omega
  · next h => rw [Nat.add_mul, Nat.one_mul, Nat.mul_comm]; omega

variable {config : ErasureConfig} {data : List UInt8}

theorem length_paddedData (hk : 0 < config.dataShards) :
    (paddedData config data).length = shardSize config data * config.dataShards := by
  have hle : data.length ≤ shardSize config data * config.dataShards := length_le_padded hk
  rw [paddedData, List.length_append, List.length_replicate]
  omega

theorem length_dataShard {i : Nat} (hi : i < config.dataShards) :
    (dataShard config data i).length = shardSize config data := by
  have hk : 0 < config.dataShards := Nat.zero_lt_of_lt hi
  have hle : (i + 1) * shardSize config data ≤ config.dataShards * shardSize config data :=
    Nat.mul_le_mul_right _ hi
  have hpadded : (paddedData config data).length = shardSize config data * config.dataShards :=
    length_paddedData hk
  rw [Nat.mul_comm] at hpadded
  rw [Nat.add_mul, Nat.one_mul] at hle
  rw [dataShard, List.length_take, List.length_drop]
  omega

theorem length_parityShard (p : Nat) :
    (parityShard config data p).length = shardSize config data := by
  have hfold : ∀ (is : List Nat) (parity : List UInt8), (∀ i ∈ is, i < config.dataShards) →
      parity.length = shardSize config data →
      (is.foldl (addShard config data p) parity).length = shardSize config data := by
    intro is
    induction is with
    | nil => exact fun _ _ h => h
    | cons i is ih =>
      intro parity his hlen
      refine ih _ (fun j hj => his j (List.mem_cons_of_mem _ hj)) ?_
      rw [addShard, List.length_zipWith, hlen, length_dataShard (his i List.mem_cons_self),
        Nat.min_self]
  exact hfold _ _ (fun i hi => List.mem_range.mp hi) List.length_replicate

variable {all shards : List Shard}

/-- Every shard has one size, and a data shard has the bytes of its index. -/
theorem mem_encode (h : encode config data = .ok all) {s : Shard} (hs : s ∈ all) :
    s.size = shardSize config data ∧
      (s.isParity = false → s.index < config.dataShards
        ∧ s.data = dataShard config data s.index) := by
  cases h
  rcases List.mem_append.mp hs with hs | hs
  · obtain ⟨i, hi, rfl⟩ := List.mem_map.mp hs
    have hlt := List.mem_range.mp hi
    exact ⟨length_dataShard hlt, fun _ => ⟨hlt, rfl⟩⟩
  · obtain ⟨p, hp, rfl⟩ := List.mem_map.mp hs
    exact ⟨length_parityShard p, fun h => by cases h⟩

/-! ## Decoding -/

/-- The data shards of a list, in index order. -/
def sortedData (shards : List Shard) : List Shard :=
  StableSort.sortBy Shard.index (shards.filter fun s => !s.isParity)

theorem mem_sortedData {s : Shard} : s ∈ sortedData shards ↔ s ∈ shards ∧ s.isParity = false := by
  rw [sortedData, (StableSort.perm_sortBy Shard.index _).mem_iff, List.mem_filter]
  simp

theorem length_sortedData (shards : List Shard) :
    (sortedData shards).length = (shards.filter fun s => !s.isParity).length :=
  (StableSort.perm_sortBy Shard.index _).length_eq

/-- What is decoded depends on two counts: of the shards, and of the data shards. -/
theorem decode_eq (hall : encode config data = .ok all) (hdrawn : ∀ s ∈ shards, s ∈ all) (n : Nat) :
    decode config shards n =
      if shards.length < config.dataShards then
        .error (.insufficientShards shards.length config.dataShards)
      else if (sortedData shards).length = config.dataShards then
        .ok (((sortedData shards).flatMap Shard.data).take n)
      else if shards.length = config.dataShards then
        .error (.decodingFailed "Recovery not fully implemented in simple encoder")
      else .ok [] := by
  have hsize : ∀ s ∈ shards, s.size = shardSize config data :=
    fun s hs => (mem_encode hall (hdrawn s hs)).1
  have hfind : shards.find? (fun s => s.size ≠ (shards.head?.map Shard.size).getD 0) = none := by
    refine List.find?_eq_none.mpr fun s hs => ?_
    cases shards with
    | nil => cases hs
    | cons first rest => simp [hsize s hs, hsize first List.mem_cons_self]
  have hcount : (sortedData shards).length
      + (shards.filter fun s => s.isParity).length = shards.length := by
    rw [length_sortedData, ← List.countP_eq_length_filter, ← List.countP_eq_length_filter,
      List.length_eq_countP_add_countP (fun s : Shard => s.isParity), Nat.add_comm]
    simp
  unfold decode
  split
  · rfl
  · next hlen =>
    simp only [hfind, ← length_sortedData, hcount]
    split
    · rfl
    · rfl

/-- In index order the data shards of the list begin with the pieces of the data, one by
one; of a list with each data shard once they are those shards (`inPlace_of_nodup`). -/
def InPlace (config : ErasureConfig) (data : List UInt8) (shards : List Shard) : Prop :=
  ∀ j i, ((sortedData shards).map Shard.index)[j]? = some i →
    (data.drop (j * shardSize config data)).take (shardSize config data)
      <+: dataShard config data i

theorem joined_eq_iff (hall : encode config data = .ok all) (hdrawn : ∀ s ∈ shards, s ∈ all)
    (hcount : (sortedData shards).length = config.dataShards) (hk : 0 < config.dataShards) :
    ((sortedData shards).flatMap Shard.data).take data.length = data
      ↔ InPlace config data shards := by
  have hmem : ∀ s ∈ sortedData shards, s.size = shardSize config data
      ∧ s.data = dataShard config data s.index := fun s hs => by
    obtain ⟨hs, hdata⟩ := mem_sortedData.mp hs
    obtain ⟨hsize, hbytes⟩ := mem_encode hall (hdrawn s hs)
    exact ⟨hsize, (hbytes hdata).2⟩
  have hlen : data.length ≤ ((sortedData shards).map Shard.data).length
      * shardSize config data := by
    rw [List.length_map, hcount, Nat.mul_comm]
    exact length_le_padded hk
  rw [List.flatMap_def, take_flatten_eq_iff (c := shardSize config data) ?_ hlen]
  · unfold InPlace
    simp only [List.getElem?_map, Option.map_eq_some_iff]
    constructor
    · rintro h j i ⟨s, hs, rfl⟩
      have hrow := h j s.data ⟨s, hs, rfl⟩
      rwa [(hmem s (List.mem_of_getElem? hs)).2] at hrow
    · rintro h j row ⟨s, hs, rfl⟩
      rw [(hmem s (List.mem_of_getElem? hs)).2]
      exact h j s.index ⟨s, hs, rfl⟩
  · intro row hrow
    obtain ⟨s, hs, rfl⟩ := List.mem_map.mp hrow
    exact (hmem s hs).1

/-- Each data shard once: its index is its place. -/
theorem inPlace_of_nodup (hall : encode config data = .ok all) (hdrawn : ∀ s ∈ shards, s ∈ all)
    (hcount : (sortedData shards).length = config.dataShards)
    (hnodup : ((shards.filter fun s => !s.isParity).map Shard.index).Nodup) :
    InPlace config data shards := by
  have hperm : ((sortedData shards).map Shard.index).Perm (List.range config.dataShards) := by
    have hnodup' : ((sortedData shards).map Shard.index).Nodup :=
      (((StableSort.perm_sortBy Shard.index _).map Shard.index).nodup_iff).mpr hnodup
    refine (List.subperm_of_subset hnodup' fun i hi => ?_).perm_of_length_le ?_
    · obtain ⟨s, hs, rfl⟩ := List.mem_map.mp hi
      obtain ⟨hs, hdata⟩ := mem_sortedData.mp hs
      exact List.mem_range.mpr ((mem_encode hall (hdrawn s hs)).2 hdata).1
    · rw [List.length_map, hcount, List.length_range]
  have hsorted : ((sortedData shards).map Shard.index).Pairwise (· ≤ ·) :=
    List.pairwise_map.mpr (StableSort.pairwise_sortBy Shard.index _)
  have hrange : (sortedData shards).map Shard.index = List.range config.dataShards :=
    hperm.eq_of_pairwise' hsorted List.pairwise_le_range
  intro j i hi
  rw [hrange] at hi
  obtain ⟨hj, hget⟩ := List.getElem?_eq_some_iff.mp hi
  have hij : i = j := by simpa using hget.symm
  subst hij
  rw [dataShard, paddedData, List.drop_append, List.take_append]
  exact List.prefix_append _ _

/-- What is asked of a decoder: what it returns is the data, and it returns something if
every data shard is there. -/
structure Faithful (config : ErasureConfig) (data : List UInt8) (all shards : List Shard) :
    Prop where
  right : ∀ d, decode config shards data.length = .ok d → d = data
  returns : (∀ s ∈ all, s.isParity = false → s ∈ shards) →
    ∃ d, decode config shards data.length = .ok d

/-- Too few shards, or as many data shards as there are with the bytes for their places, or
another number of data shards where the decoder fails or the data is empty. -/
def Decodable (config : ErasureConfig) (data : List UInt8) (shards : List Shard) : Prop :=
  shards.length < config.dataShards ∨
    ((sortedData shards).length = config.dataShards ∧ InPlace config data shards) ∨
    ((sortedData shards).length ≠ config.dataShards
      ∧ (shards.length = config.dataShards ∨ data = []))

theorem new_pos {dataShards parityShards : UInt64} {config : ErasureConfig}
    (h : ErasureConfig.new dataShards parityShards = .ok config) : 0 < config.dataShards := by
  unfold ErasureConfig.new at h
  split at h
  · cases h
  · next hne =>
    split at h
    · cases h
    · split at h
      · cases h
      · cases h
        exact Nat.pos_of_ne_zero fun hzero => hne (UInt64.toNat_inj.mp hzero)

/-- A list with every data shard has as many shards as there are data shards, and as many
data shards. -/
theorem count_of_every (hall : encode config data = .ok all)
    (hevery : ∀ s ∈ all, s.isParity = false → s ∈ shards) :
    config.dataShards ≤ (sortedData shards).length := by
  have hsubset : List.range config.dataShards ⊆ (sortedData shards).map Shard.index := by
    intro i hi
    cases hall
    refine List.mem_map.mpr
      ⟨⟨i, dataShard config data i, false⟩, mem_sortedData.mpr ⟨?_, rfl⟩, rfl⟩
    exact hevery _ (List.mem_append_left _ (List.mem_map.mpr ⟨i, hi, rfl⟩)) rfl
  have hle := (List.subperm_of_subset List.nodup_range hsubset).length_le
  rwa [List.length_range, List.length_map] at hle

/-- **When decoding is right**: for a configuration that is accepted and any list of shards
of some data, exactly if the list is `Decodable`. -/
theorem faithful_iff {dataShards parityShards : UInt64} {config : ErasureConfig}
    (hnew : ErasureConfig.new dataShards parityShards = .ok config) {data : List UInt8}
    {all shards : List Shard} (hall : encode config data = .ok all)
    (hdrawn : ∀ s ∈ shards, s ∈ all) :
    Faithful config data all shards ↔ Decodable config data shards := by
  have hk := new_pos hnew
  have hdecode := decode_eq hall hdrawn data.length
  have hle : (sortedData shards).length ≤ shards.length := by
    rw [length_sortedData]
    exact List.length_filter_le _ _
  unfold Decodable
  by_cases hshort : shards.length < config.dataShards
  · rw [if_pos hshort] at hdecode
    refine ⟨fun _ => .inl hshort, fun _ => ⟨fun d hd => ?_, fun hevery => ?_⟩⟩
    · rw [hdecode] at hd
      cases hd
    · have := count_of_every hall hevery
      omega
  · rw [if_neg hshort] at hdecode
    by_cases hcount : (sortedData shards).length = config.dataShards
    · rw [if_pos hcount] at hdecode
      have hjoined := joined_eq_iff hall hdrawn hcount hk
      constructor
      · intro h
        exact .inr (.inl ⟨hcount, hjoined.mp (h.right _ hdecode)⟩)
      · rintro (h | ⟨-, h⟩ | ⟨h, -⟩)
        · exact absurd h hshort
        · refine ⟨fun d hd => ?_, fun _ => ⟨_, hdecode⟩⟩
          rw [hdecode] at hd
          cases hd
          exact hjoined.mpr h
        · exact absurd hcount h
    · rw [if_neg hcount] at hdecode
      by_cases hfull : shards.length = config.dataShards
      · rw [if_pos hfull] at hdecode
        refine ⟨fun _ => .inr (.inr ⟨hcount, .inl hfull⟩),
          fun _ => ⟨fun d hd => ?_, fun hevery => ?_⟩⟩
        · rw [hdecode] at hd
          cases hd
        · have := count_of_every hall hevery
          omega
      · rw [if_neg hfull] at hdecode
        constructor
        · intro h
          exact .inr (.inr ⟨hcount, .inr (h.right _ hdecode).symm⟩)
        · rintro (h | ⟨h, -⟩ | ⟨-, h | h⟩)
          · exact absurd h hshort
          · exact absurd h hcount
          · exact absurd h hfull
          · refine ⟨fun d hd => ?_, fun _ => ⟨_, hdecode⟩⟩
            rw [hdecode] at hd
            cases hd
            exact h.symm

/-- The shards of two bytes: two of data and one of parity. -/
def twoBytes : List Shard :=
  [⟨0, [1], false⟩, ⟨1, [2], false⟩, ⟨2, [5], true⟩]

theorem encode_twoBytes :
    encode { dataShards := 2, parityShards := 1 } [1, 2] = .ok twoBytes := by decide

/-- Both data shards and the parity shard, out of order, are decoded rightly. -/
theorem faithful_iff_reversed :
    Faithful { dataShards := 2, parityShards := 1 } [1, 2] twoBytes
      [⟨1, [2], false⟩, ⟨2, [5], true⟩, ⟨0, [1], false⟩] :=
  (faithful_iff (rfl : ErasureConfig.new 2 1 = .ok { dataShards := 2, parityShards := 1 })
    encode_twoBytes (by decide)).mpr
    (.inr (.inl ⟨by decide, inPlace_of_nodup encode_twoBytes (by decide) (by decide)
      (by decide)⟩))

/-- Both data shards and one of them again: nothing is returned as the data. -/
theorem not_faithful :
    ¬ ∀ (dataShards parityShards : UInt64) (config : ErasureConfig) (data : List UInt8)
        (all shards : List Shard),
        ErasureConfig.new dataShards parityShards = .ok config → encode config data = .ok all →
        (∀ s ∈ shards, s ∈ all) → Faithful config data all shards := by
  intro h
  have hf := h 2 1 { dataShards := 2, parityShards := 1 } [1, 2] twoBytes
    [⟨0, [1], false⟩, ⟨1, [2], false⟩, ⟨0, [1], false⟩] rfl encode_twoBytes (by decide)
  exact absurd (hf.right [] (by decide)) (by decide)

end Erasure

end Ipfrs.Transport
