/-
Ipfrs.Core.Cid — content identifiers, their builder, and the error type of
`ipfrs-core` (`cid.rs`, `error.rs`).

A `Cid` is the record the `cid` crate keeps: a version, a codec and a
multihash. The crate's constructors refuse a version-0 identifier that is not
dag-pb over a 32-byte SHA2-256 digest, and a `Multihash<64>` holds at most 64
digest bytes; both facts are fields here, so no other value exists.

The parts of the two crates whose code is not in the repository are the class
`CidCrate`: the binary form of a CID and the hash functions. What the codecs
rely on is `CidCrate.Lawful`: the binary form round-trips and is a Rust byte
vector. Nothing is assumed about the hash functions here; a development that
needs blocks with different bytes to have different CIDs says so about the
blocks of its own run.
-/
import Ipfrs.Lib.Sha256
import Ipfrs.Lib.Slices

namespace Ipfrs.Core

/-! ## Identifiers -/

/-- `HashAlgorithm` of `cid.rs`. -/
inductive HashAlgorithm where
  | sha256
  | sha512
  | sha3_256
  | sha3_512
  | blake2b256
  | blake2b512
  | blake2s256
  | blake3
  deriving DecidableEq, Repr

/-- `cid::Version`. -/
inductive Version where
  | v0
  | v1
  deriving DecidableEq, Repr

/-- `Multihash<64>`: a hash code and at most 64 digest bytes. -/
structure Multihash where
  code : UInt64
  digest : List UInt8
  size_le : digest.length ≤ 64
  deriving DecidableEq

/-- Codec constants of `cid::codec`. -/
def codecRaw : UInt64 := 0x55
def codecDagCbor : UInt64 := 0x71
def codecDagPb : UInt64 := 0x70

/-- A content identifier. A version-0 identifier is dag-pb over a 32-byte
SHA2-256 digest by construction. -/
structure Cid where
  version : Version
  codec : UInt64
  hash : Multihash
  v0_ok : version = .v0 →
    codec = codecDagPb ∧ hash.code = 0x12 ∧ hash.digest.length = 32
  deriving DecidableEq

/-! ## Errors -/

/-- `error.rs`: the unified error type. `BlockNotFound` carries the identifier
itself where the source carries its printed form. -/
inductive Error where
  | io (msg : String)
  | blockNotFound (cid : Cid)
  | cid (msg : String)
  | serialization (msg : String)
  | deserialization (msg : String)
  | network (msg : String)
  | storage (msg : String)
  | encryption (msg : String)
  | invalidData (msg : String)
  | invalidInput (msg : String)
  | notFound (msg : String)
  | protocol (msg : String)
  | notImplemented (msg : String)
  | internal (msg : String)
  | initialization (msg : String)
  | verification (msg : String)
  deriving DecidableEq

/-! ## The external crates -/

/-- What the `cid` and `multihash-codetable` crates provide. -/
class CidCrate where
  /-- `Cid::to_bytes`. -/
  toBytes : Cid → List UInt8
  /-- `Cid::try_from(&[u8])`, with the crate's error text. -/
  tryFrom : List UInt8 → Except String Cid
  /-- `Code::digest` for the code of an algorithm. -/
  digest : HashAlgorithm → List UInt8 → Multihash

/-- The documented behaviour of the binary form: reading what was written gives
the identifier back, and what is written is a byte vector. -/
class CidCrate.Lawful [CidCrate] : Prop where
  tryFrom_toBytes : ∀ c : Cid, CidCrate.tryFrom (CidCrate.toBytes c) = .ok c
  length_toBytes_lt : ∀ c : Cid, (CidCrate.toBytes c).length < 2 ^ 63

/-- Of the hash functions only SHA2-256 has its code. -/
class CidCrate.Sha256Coded [CidCrate] : Prop where
  code_digest : ∀ (a : HashAlgorithm) (data : List UInt8),
    (CidCrate.digest a data).code = 0x12 ↔ a = .sha256

/-- What an archive uses of the `cid` crate besides: a CID read from the front of a
reader, and the printed form. -/
class CidStream where
  /-- `Cid::read_bytes`: the CID and what the reader has left. -/
  readBytes : List UInt8 → Except String (Cid × List UInt8)
  /-- `Display`. -/
  display : Cid → String

/-- The binary form is self-delimiting. -/
class CidStream.Lawful [CidCrate] [CidStream] : Prop where
  readBytes_toBytes : ∀ (c : Cid) (rest : List UInt8),
    CidStream.readBytes (CidCrate.toBytes c ++ rest) = .ok (c, rest)

/-- `Error::to_string`. -/
def Error.display [CidStream] : Error → String
  | .io msg => "IO error: " ++ msg
  | .blockNotFound c => "Block not found: " ++ CidStream.display c
  | .cid msg => "CID error: " ++ msg
  | .serialization msg => "Serialization error: " ++ msg
  | .deserialization msg => "Deserialization error: " ++ msg
  | .network msg => "Network error: " ++ msg
  | .storage msg => "Storage error: " ++ msg
  | .encryption msg => "Encryption error: " ++ msg
  | .invalidData msg => "Invalid data: " ++ msg
  | .invalidInput msg => "Invalid input: " ++ msg
  | .notFound msg => "Not found: " ++ msg
  | .protocol msg => "Protocol error: " ++ msg
  | .notImplemented msg => "Not implemented: " ++ msg
  | .internal msg => "Internal error: " ++ msg
  | .initialization msg => "Initialization error: " ++ msg
  | .verification msg => "Verification error: " ++ msg

/-! ## Building -/

/-- `Cid::new_v0`: only a 32-byte SHA2-256 multihash has a version-0 form. -/
def Cid.newV0 (hash : Multihash) : Except String Cid :=
  if h : hash.code = 0x12 ∧ hash.digest.length = 32 then
    .ok { version := .v0, codec := codecDagPb, hash, v0_ok := fun _ => ⟨rfl, h.1, h.2⟩ }
  else .error "invalid CIDv0 multihash"

theorem Cid.version_newV0 {hash : Multihash} {c : Cid} (h : Cid.newV0 hash = .ok c) :
    c.version = .v0 := by
  unfold Cid.newV0 at h
  split at h
  · cases h
    rfl
  · cases h

/-- `Cid::new_v1`. -/
def Cid.newV1 (codec : UInt64) (hash : Multihash) : Cid :=
  { version := .v1, codec, hash, v0_ok := fun h => by cases h }

/-- `CidBuilder`. -/
structure CidBuilder where
  version : Version := .v1
  codec : UInt64 := codecRaw
  hashAlgorithm : HashAlgorithm := .sha256
  deriving DecidableEq

variable [CidCrate]

/-- `CidBuilder::build`. -/
def CidBuilder.build (b : CidBuilder) (data : List UInt8) : Except Error Cid :=
  let hash := CidCrate.digest b.hashAlgorithm data
  match b.version with
  | .v0 =>
    if b.hashAlgorithm ≠ .sha256 then
      .error (.invalidInput "CIDv0 requires SHA2-256 hash algorithm")
    else
      match Cid.newV0 hash with
      | .ok c => .ok c
      | .error e => .error (.cid ("Failed to create CIDv0: " ++ e))
  | .v1 => .ok (Cid.newV1 b.codec hash)

/-- `CidBuilder::build_dag_cbor`. -/
def CidBuilder.buildDagCbor (b : CidBuilder) (data : List UInt8) : Except Error Cid :=
  { b with codec := codecDagCbor }.build data

/-- The identifier a version-1 SHA2-256 builder gives: a total function, since
only version 0 can be refused. -/
def cidOf (codec : UInt64) (data : List UInt8) : Cid :=
  Cid.newV1 codec (CidCrate.digest .sha256 data)

@[simp] theorem build_default (codec : UInt64) (data : List UInt8) :
    ({ codec } : CidBuilder).build data = .ok (cidOf codec data) := rfl

@[simp] theorem buildDagCbor_default (data : List UInt8) :
    ({} : CidBuilder).buildDagCbor data = .ok (cidOf codecDagCbor data) := rfl

end Ipfrs.Core

/-! ## The CID binary form and SHA2-256, as an instance of `CidCrate`

`CidCrate` leaves the binary form of a CID and the hash functions open. This
module gives the documented ones, so that the assumptions of `CidCrate.Lawful`
are seen to hold of them and a concrete run can be evaluated: a version-0 CID is
its bare multihash, a version-1 CID is four varints (version, codec, hash code,
digest size) and the digest, and reading ignores what follows the digest. Of the
hash functions only SHA2-256 is written out, the default of `CidBuilder`; the
others give an empty digest. -/

namespace Ipfrs.Core.CidFormat

open Ipfrs.Lib

/-- A varint of at most ten groups, enough for 64 bits. -/
def uvarint (n : Nat) : List UInt8 := Varint.write 9 n

theorem read_uvarint (n : UInt64) (rest : List UInt8) :
    Varint.read (uvarint n.toNat ++ rest) = some (n.toNat, rest) :=
  Varint.read_write rest 9 n.toNat (Nat.lt_trans n.toNat_lt (by decide))

/-- `Cid::to_bytes`. -/
def toBytes (c : Cid) : List UInt8 :=
  match c.version with
  | .v0 => 0x12 :: 0x20 :: c.hash.digest
  | .v1 => uvarint 1 ++ (uvarint c.codec.toNat ++ (uvarint c.hash.code.toNat ++
      (uvarint c.hash.digest.length ++ c.hash.digest)))

/-- A multihash of `size` digest bytes at the start of `rest`. -/
def readMultihash (code size : Nat) (rest : List UInt8) : Option Multihash :=
  if h : size ≤ 64 ∧ size ≤ rest.length then
    some { code := UInt64.ofNat code, digest := rest.take size,
           size_le := by simp [h.1] }
  else none

/-- A version-1 CID after its version varint. -/
def readV1 (b : List UInt8) : Option Cid := do
  let (codec, b) ← Varint.read b
  let (code, b) ← Varint.read b
  let (size, b) ← Varint.read b
  let hash ← readMultihash code size b
  some (Cid.newV1 (UInt64.ofNat codec) hash)

/-- `Cid::try_from(&[u8])`. -/
def tryFrom (b : List UInt8) : Except String Cid :=
  match b with
  | 0x12 :: 0x20 :: digest =>
    match readMultihash 0x12 32 digest with
    | some hash => Cid.newV0 hash
    | none => .error "failed to fill whole buffer"
  | _ =>
    match Varint.read b with
    | some (1, b) =>
      match readV1 b with
      | some c => .ok c
      | none => .error "failed to fill whole buffer"
    | _ => .error "Unrecognized CID version"

/-- `Code::digest`. -/
def digest : HashAlgorithm → List UInt8 → Multihash
  | .sha256, data =>
    { code := 0x12, digest := Sha256.hash data, size_le := by simp [Sha256.length_hash] }
  | _, _ => { code := 0, digest := [], size_le := by simp }

/-- The documented binary form with SHA2-256. Scoped: only a concrete run opens it. -/
scoped instance crate : CidCrate where
  toBytes := toBytes
  tryFrom := tryFrom
  digest := digest

theorem readMultihash_append (h : Multihash) (rest : List UInt8) :
    readMultihash h.code.toNat h.digest.length (h.digest ++ rest) = some h := by
  have hsize : h.digest.length ≤ 64 ∧ h.digest.length ≤ (h.digest ++ rest).length :=
    ⟨h.size_le, by simp⟩
  rw [readMultihash, dif_pos hsize]
  obtain ⟨code, digest, hle⟩ := h
  simp

/-- Reading takes the bytes of the identifier and no others. -/
theorem tryFrom_toBytes_append (c : Cid) (rest : List UInt8) :
    tryFrom (toBytes c ++ rest) = .ok c := by
  obtain ⟨version, codec, hash, hv0⟩ := c
  have hread := readMultihash_append hash rest
  cases version with
  | v0 =>
    obtain ⟨rfl, hcode, hlen⟩ := hv0 rfl
    rw [hcode, hlen] at hread
    have hread' : readMultihash 0x12 32 (hash.digest ++ rest) = some hash := hread
    simp only [toBytes, tryFrom, List.cons_append, hread', Cid.newV0, hcode, hlen, and_self,
      dif_pos]
  | v1 =>
    have hsize : hash.digest.length < 2 ^ 64 := by have := hash.size_le; omega
    have hlenv : ∀ rest, Varint.read (uvarint hash.digest.length ++ rest)
        = some (hash.digest.length, rest) := fun rest =>
      Varint.read_write rest 9 _ (Nat.lt_trans hsize (by decide))
    have hv1 : readV1 (uvarint codec.toNat ++ (uvarint hash.code.toNat ++
        (uvarint hash.digest.length ++ (hash.digest ++ rest))))
        = some (Cid.newV1 codec hash) := by
      simp [readV1, read_uvarint, hlenv, hread]
    have hone : uvarint 1 = [0x01] := by decide
    simp only [toBytes, tryFrom, hone, List.append_assoc, List.cons_append, List.nil_append]
    rw [Varint.read]
    simp [hv1, Cid.newV1]

theorem tryFrom_toBytes (c : Cid) : tryFrom (toBytes c) = .ok c := by
  have h := tryFrom_toBytes_append c []
  rwa [List.append_nil] at h

theorem length_toBytes_lt (c : Cid) : (toBytes c).length < 2 ^ 63 := by
  have hd := c.hash.size_le
  unfold toBytes
  split
  · simp only [List.length_cons]; omega
  · have h1 := Varint.length_write_le 9 1
    have h2 := Varint.length_write_le 9 c.codec.toNat
    have h3 := Varint.length_write_le 9 c.hash.code.toNat
    have h4 := Varint.length_write_le 9 c.hash.digest.length
    simp only [uvarint, List.length_append]
    omega

/-- The documented binary form meets what the codecs rely on. -/
scoped instance crate_lawful : CidCrate.Lawful where
  tryFrom_toBytes := tryFrom_toBytes
  length_toBytes_lt := length_toBytes_lt

scoped instance crate_coded : CidCrate.Sha256Coded where
  code_digest a data := by
    cases a with
    | sha256 => exact iff_of_true rfl rfl
    | _ => exact iff_of_false (show (0 : UInt64) ≠ 0x12 by decide) (by decide)

/-! ## Streams and printing -/

/-- `Cid::read_bytes`. -/
def readBytes (b : List UInt8) : Except String (Cid × List UInt8) :=
  match tryFrom b with
  | .ok c => .ok (c, b.drop (toBytes c).length)
  | .error e => .error e

/-- The bits of a byte string, most significant first. -/
def bits (b : List UInt8) : List Bool :=
  b.flatMap (fun x => (List.range 8).map (fun i => x.toNat.testBit (7 - i)))

/-- The character of a group of at most five bits, padded with zeros on the right. -/
def base32Char (group : List Bool) : Char :=
  let value := (group ++ List.replicate (5 - group.length) false).foldl
    (fun n bit => 2 * n + bit.toNat) 0
  "abcdefghijklmnopqrstuvwxyz234567".toList.getD value 'a'

/-- The base-58 digits of a number, least significant first, with a bound on their
number. -/
def base58Chars : Nat → Nat → List Char
  | 0, _ => []
  | fuel + 1, n =>
    if n = 0 then []
    else "123456789ABCDEFGHJKLMNPQRSTUVWXYZabcdefghijkmnopqrstuvwxyz".toList.getD (n % 58) '1'
      :: base58Chars fuel (n / 58)

/-- `Display`: version 0 in base 58, version 1 in base 32 behind its multibase
letter. A version-0 CID starts with a byte that is not zero. -/
def display (c : Cid) : String :=
  match c.version with
  | .v0 => String.ofList (base58Chars 64 (beNat (toBytes c))).reverse
  | .v1 =>
    let groups := chunksOf 5 (8 * (toBytes c).length) (bits (toBytes c))
    String.ofList ('b' :: groups.map base32Char)

scoped instance stream : CidStream where
  readBytes := readBytes
  display := display

scoped instance stream_lawful : CidStream.Lawful where
  readBytes_toBytes c rest := by
    show readBytes (toBytes c ++ rest) = .ok (c, rest)
    simp [readBytes, tryFrom_toBytes_append]

end Ipfrs.Core.CidFormat
