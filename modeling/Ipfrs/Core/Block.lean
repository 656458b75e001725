/-
Ipfrs.Core.Block — content-addressed blocks (`block.rs`).

A block is its identifier and its data. The constructors check the size and
derive the identifier; `Block::from_parts` takes both as they are, so the type
itself promises nothing about their relation.
-/
import Ipfrs.Core.Cid
import Ipfrs.Lib.Outcome

namespace Ipfrs.Core

open Ipfrs.Lib

/-- `MAX_BLOCK_SIZE`: 2 MiB. -/
def maxBlockSize : Nat := 2 * 1024 * 1024

/-- `MIN_BLOCK_SIZE`. -/
def minBlockSize : Nat := 1

/-- `Block`. -/
structure Block where
  cid : Cid
  data : List UInt8
  deriving DecidableEq

/-- No two of the blocks share an identifier without sharing their data. -/
def CollisionFree (blocks : List Block) : Prop :=
  ∀ b ∈ blocks, ∀ b' ∈ blocks, b.cid = b'.cid → b.data = b'.data

instance (blocks : List Block) : Decidable (CollisionFree blocks) :=
  inferInstanceAs (Decidable (∀ b ∈ blocks, ∀ b' ∈ blocks, b.cid = b'.cid → b.data = b'.data))

theorem CollisionFree.mono {blocks blocks' : List Block} (h : CollisionFree blocks')
    (hsub : ∀ b ∈ blocks, b ∈ blocks') : CollisionFree blocks :=
  fun b hb b' hb' => h b (hsub b hb) b' (hsub b' hb')

/-- Without collisions, looking a block up by its identifier finds that block. -/
theorem CollisionFree.find? {blocks : List Block} (h : CollisionFree blocks) {b : Block}
    (hb : b ∈ blocks) : blocks.find? (fun b' => b'.cid == b.cid) = some b := by
  cases hfind : blocks.find? (fun b' => b'.cid == b.cid) with
  | none =>
    have hnone := List.find?_eq_none.mp hfind b hb
    simp at hnone
  | some b' =>
    have hcid : b'.cid = b.cid := by simpa using List.find?_some hfind
    have hdata := h b' (List.mem_of_find?_eq_some hfind) b hb hcid
    cases b
    cases b'
    simp_all

/-- `Block::validate_size`. -/
def Block.validateSize (size : Nat) : Except Error Unit :=
  if size < minBlockSize then
    .error (.invalidData ("Block size " ++ toString size ++ " is below minimum "
      ++ toString minBlockSize))
  else if size > maxBlockSize then
    .error (.invalidData ("Block size " ++ toString size ++ " exceeds maximum "
      ++ toString maxBlockSize ++ " (2 MiB)"))
  else .ok ()

theorem Block.validateSize_eq_ok {size : Nat} :
    Block.validateSize size = .ok () ↔ minBlockSize ≤ size ∧ size ≤ maxBlockSize := by
  unfold Block.validateSize
  split
  · constructor
    · intro h; cases h
    · intro h; omega
  · split
    · constructor
      · intro h; cases h
      · intro h; omega
    · constructor
      · intro _; omega
      · intro _; rfl

variable [CidCrate]

/-- `BlockBuilder::build`, with the builder's CID settings. -/
def Block.build (cidBuilder : CidBuilder) (data : List UInt8) : Except Error Block := do
  Block.validateSize data.length
  let cid ← cidBuilder.build data
  .ok { cid, data }

/-- `Block::new`: the default settings, so the raw codec. -/
def Block.new (data : List UInt8) : Except Error Block := Block.build {} data

/-- A version-1 SHA2-256 builder succeeds exactly on the sizes a block may have. -/
theorem Block.build_eq_ok {codec : UInt64} {data : List UInt8} {b : Block} :
    Block.build { codec } data = .ok b ↔ (minBlockSize ≤ data.length ∧ data.length ≤ maxBlockSize) ∧
        b = { cid := cidOf codec data, data } := by
  unfold Block.build
  constructor
  · intro h
    obtain ⟨_, hsize, h⟩ := bind_eq_ok.mp h
    rw [build_default, ok_bind] at h
    cases h
    exact ⟨Block.validateSize_eq_ok.mp hsize, rfl⟩
  · rintro ⟨hsize, rfl⟩
    rw [Block.validateSize_eq_ok.mpr hsize, ok_bind, build_default, ok_bind]

theorem Block.new_eq_ok {data : List UInt8} {b : Block} : Block.new data = .ok b ↔
      (minBlockSize ≤ data.length ∧ data.length ≤ maxBlockSize) ∧
        b = { cid := cidOf codecRaw data, data } :=
  Block.build_eq_ok

/-- What a builder made `Block::new` makes too exactly if its settings are the default ones. -/
theorem Block.new_eq_of_build_iff [CidCrate.Sha256Coded] {builder : CidBuilder} {b : Block}
    (h : Block.build builder b.data = .ok b) : Block.new b.data = .ok b ↔ builder = {} := by
  constructor
  · intro hnew
    obtain ⟨-, hraw⟩ := Block.new_eq_ok.mp hnew
    obtain ⟨_, -, h⟩ := bind_eq_ok.mp h
    obtain ⟨cid, hcid, h⟩ := bind_eq_ok.mp h
    have hsame : cid = cidOf codecRaw b.data :=
      (congrArg Block.cid (Except.ok.inj h)).trans (congrArg Block.cid hraw)
    obtain ⟨version, codec, hashAlgorithm⟩ := builder
    cases version with
    | v0 =>
      have hversion : cid.version = .v0 := by
        simp only [CidBuilder.build] at hcid
        split at hcid
        · cases hcid
        · split at hcid
          · next c hc =>
            cases hcid
            exact Cid.version_newV0 hc
          · cases hcid
      rw [hsame] at hversion
      cases hversion
    | v1 =>
      have hv1 : Cid.newV1 codec (CidCrate.digest hashAlgorithm b.data) = cid := by
        cases hcid
        rfl
      rw [hsame, cidOf, Cid.newV1, Cid.newV1, Cid.mk.injEq] at hv1
      obtain ⟨-, hcodec, hhash⟩ := hv1
      have hcode : (CidCrate.digest hashAlgorithm b.data).code = 0x12 := by
        rw [hhash]
        exact (CidCrate.Sha256Coded.code_digest _ _).mpr rfl
      rw [(CidCrate.Sha256Coded.code_digest _ _).mp hcode, hcodec]
  · rintro rfl
    exact h

end Ipfrs.Core
