/-
Ipfrs.Core.DagCbor — the DAG-CBOR codec of `ipld.rs`: `encode_dag_cbor`,
`decode_dag_cbor` and their helpers.

The encoder threads the output buffer as the source does. A length or an integer
reaches `encode_cbor_length` through an `as u64` cast, which is a reduction
modulo `2^64` (`asU64`); for an integer outside `-2^64 ..= 2^64 - 1` that cast
loses bits and the source still returns `Ok`.

The decoder reads from a byte slice and returns what it left unread. It calls
itself once per nesting level, and every call reads at least one byte, so the
recursion runs on a `fuel` that starts at the number of bytes available:
`decode_dag_cbor` at fuel 0 has nothing left to read, which is the end-of-input
error. The two loops (`for _ in 0..len`) are recursions on the announced length.

Allocation is left out: `vec![0u8; len]` and `Vec::with_capacity(len)` abort
the process for a length the machine cannot grant, where the model goes on to
the read that fails. `DagCborAllocation` has the lengths that are asked for.
-/
import Ipfrs.Core.Ipld
import Ipfrs.Lib.Ieee754
import Ipfrs.Lib.Outcome

namespace Ipfrs.Core

open Ipfrs.Lib

/-! ## Encoding -/

/-- The CBOR tag of a CID link. -/
def cidTag : Nat := 42

/-- A cast to `u64`. -/
def asU64 (n : Nat) : Nat := n % 2 ^ 64

/-- `encode_cbor_length`: the shortest head of a major type and a `u64`. -/
def encodeCborLength (majorType : UInt8) (length : Nat) (buffer : List UInt8) : List UInt8 :=
  let mt := majorType <<< 5
  if length < 24 then buffer ++ [mt ||| UInt8.ofNat length]
  else if length < 256 then buffer ++ [mt ||| 24, UInt8.ofNat length]
  else if length < 65536 then buffer ++ (mt ||| 25) :: beBytes 2 length
  else if length < 4294967296 then buffer ++ (mt ||| 26) :: beBytes 4 length
  else buffer ++ (mt ||| 27) :: beBytes 8 length

/-- `encode_cbor_tag`. -/
def encodeCborTag (tag : Nat) (buffer : List UInt8) : List UInt8 :=
  encodeCborLength 6 tag buffer

/-- `encode_cbor_integer`: never fails, whatever the size of the value. -/
def encodeCborInteger (value : Int) (buffer : List UInt8) : Except Error (List UInt8) :=
  if value ≥ 0 then .ok (encodeCborLength 0 (asU64 value.toNat) buffer)
  else .ok (encodeCborLength 1 (asU64 (-1 - value).toNat) buffer)

variable [CidCrate]

mutual

/-- `encode_dag_cbor`. -/
def encodeDagCbor : Ipld → List UInt8 → Except Error (List UInt8)
  | .null, buffer => .ok (buffer ++ [0xf6])
  | .bool b, buffer => .ok (buffer ++ [if b then 0xf5 else 0xf4])
  | .integer i, buffer => encodeCborInteger i buffer
  | .float f, buffer => .ok (buffer ++ 0xfb :: beBytes 8 f.toNat)
  | .string s, buffer =>
    .ok (encodeCborLength 3 (asU64 (utf8 s).length) buffer ++ utf8 s)
  | .bytes b, buffer => .ok (encodeCborLength 2 (asU64 b.length) buffer ++ b)
  | .list items, buffer =>
    encodeItems items (encodeCborLength 4 (asU64 items.length) buffer)
  | .map entries, buffer =>
    encodeEntries entries (encodeCborLength 5 (asU64 entries.length) buffer)
  | .link c, buffer =>
    -- the CID bytes behind the multibase identity byte 0x00
    let prefixed := 0x00 :: CidCrate.toBytes c
    .ok (encodeCborLength 2 (asU64 prefixed.length) (encodeCborTag cidTag buffer)
      ++ prefixed)

/-- The loop over a list's items. -/
def encodeItems : List Ipld → List UInt8 → Except Error (List UInt8)
  | [], buffer => .ok buffer
  | item :: rest, buffer => do
      let buffer ← encodeDagCbor item buffer
      encodeItems rest buffer

/-- The loop over a map's entries, in key order. -/
def encodeEntries : List (String × Ipld) → List UInt8 → Except Error (List UInt8)
  | [], buffer => .ok buffer
  | (key, value) :: rest, buffer => do
      let buffer := encodeCborLength 3 (asU64 (utf8 key).length) buffer ++ utf8 key
      let buffer ← encodeDagCbor value buffer
      encodeEntries rest buffer

end

/-- `Ipld::to_dag_cbor`. -/
def Ipld.toDagCbor (v : Ipld) : Except Error (List UInt8) := encodeDagCbor v []

/-! ## Decoding -/

/-- `Read::read_exact` on a byte slice, with the source's error text. -/
def readExact (what : String) (n : Nat) (input : List UInt8) :
    Except Error (List UInt8 × List UInt8) :=
  if n ≤ input.length then .ok (input.take n, input.drop n)
  else .error (.deserialization ("Failed to read " ++ what ++ ": failed to fill whole buffer"))

/-- `decode_cbor_uint`: the value of a head, in any of its five widths. -/
def decodeCborUint (additionalInfo : Nat) (input : List UInt8) :
    Except Error (Nat × List UInt8) :=
  if additionalInfo ≤ 23 then .ok (additionalInfo, input)
  else match additionalInfo with
  | 24 => do
      let (buf, input) ← readExact "u8" 1 input
      .ok (beNat buf, input)
  | 25 => do
      let (buf, input) ← readExact "u16" 2 input
      .ok (beNat buf, input)
  | 26 => do
      let (buf, input) ← readExact "u32" 4 input
      .ok (beNat buf, input)
  | 27 => do
      let (buf, input) ← readExact "u64" 8 input
      .ok (beNat buf, input)
  | _ => .error (.deserialization
      ("Invalid additional info for integer: " ++ toString additionalInfo))

/-- `f16_to_f64`. -/
def f16ToF64 (bits : UInt16) : UInt64 :=
  let sign := ((bits >>> 15) &&& 1).toUInt64
  let exp := ((bits >>> 10) &&& 0x1f).toNat
  let frac := (bits &&& 0x3ff).toUInt64
  if exp = 0 then
    if frac = 0 then sign <<< 63
    else
      let (f, e) := normalize 0x400 10 frac (-14)
      packF64 sign (UInt64.ofNat (e + 1023).toNat) ((f &&& 0x3ff) <<< 42)
  else if exp = 31 then
    if frac = 0 then packF64 sign 0x7ff 0
    else packF64 sign 0x7ff (frac <<< 42)
  else packF64 sign (UInt64.ofNat (exp + (1023 - 15))) (frac <<< 42)

/-- The loop of the array branch. -/
def decodeItems (decode : List UInt8 → Except Error (Ipld × List UInt8)) :
    Nat → List UInt8 → Except Error (List Ipld × List UInt8)
  | 0, input => .ok ([], input)
  | n + 1, input => do
      let (item, input) ← decode input
      let (items, input) ← decodeItems decode n input
      .ok (item :: items, input)

/-- The loop of the map branch: a later entry for a key replaces an earlier one. -/
def decodeEntries (decode : List UInt8 → Except Error (Ipld × List UInt8)) :
    Nat → List UInt8 → List (String × Ipld) → Except Error (List (String × Ipld) × List UInt8)
  | 0, input, map => .ok (map, input)
  | n + 1, input, map => do
      let (key, input) ← decode input
      match key with
      | .string s => do
          let (value, input) ← decode input
          decodeEntries decode n input (SortedAssoc.insert s value map)
      | _ => .error (.deserialization "Map keys must be strings in IPLD")

/-- The tag-42 branch: a byte string, its identity byte dropped if there is one,
read as a CID. -/
def decodeLink (content : Ipld) : Except Error Ipld :=
  match content with
  | .bytes b =>
    let b := if b.head? = some 0x00 then b.tail else b
    match CidCrate.tryFrom b with
    | .ok c => .ok (.link c)
    | .error e => .error (.deserialization ("Invalid CID: " ++ e))
  | _ => .error (.deserialization "CID tag must wrap bytes")

/-- Major type 7: the simple values and the three float widths. -/
def decodeSimple (additionalInfo : Nat) (input : List UInt8) :
    Except Error (Ipld × List UInt8) :=
  match additionalInfo with
  | 20 => .ok (.bool false, input)
  | 21 => .ok (.bool true, input)
  | 22 => .ok (.null, input)
  | 25 => do
      let (b, input) ← readExact "f16" 2 input
      .ok (.float (f16ToF64 (UInt16.ofNat (beNat b))), input)
  | 26 => do
      let (b, input) ← readExact "f32" 4 input
      .ok (.float (f32ToF64 (UInt32.ofNat (beNat b))), input)
  | 27 => do
      let (b, input) ← readExact "f64" 8 input
      .ok (.float (UInt64.ofNat (beNat b)), input)
  | _ => .error (.deserialization ("Unknown simple value: " ++ toString additionalInfo))

/-- `decode_dag_cbor` after its first byte: one branch per major type. -/
def decodeMajor (decode : List UInt8 → Except Error (Ipld × List UInt8))
    (majorType additionalInfo : Nat) (input : List UInt8) : Except Error (Ipld × List UInt8) :=
  match majorType with
  | 0 => do
      let (value, input) ← decodeCborUint additionalInfo input
      .ok (.integer value, input)
  | 1 => do
      let (value, input) ← decodeCborUint additionalInfo input
      .ok (.integer (-1 - value), input)
  | 2 => do
      let (len, input) ← decodeCborUint additionalInfo input
      let (b, input) ← readExact "bytes" len input
      .ok (.bytes b, input)
  | 3 => do
      let (len, input) ← decodeCborUint additionalInfo input
      let (b, input) ← readExact "string" len input
      match ofUtf8? b with
      | some s => .ok (.string s, input)
      | none => .error (.deserialization "Invalid UTF-8")
  | 4 => do
      let (len, input) ← decodeCborUint additionalInfo input
      let (items, input) ← decodeItems decode len input
      .ok (.list items, input)
  | 5 => do
      let (len, input) ← decodeCborUint additionalInfo input
      let (entries, input) ← decodeEntries decode len input []
      .ok (.map entries, input)
  | 6 => do
      let (tag, input) ← decodeCborUint additionalInfo input
      let (content, input) ← decode input
      -- an unknown tag is dropped and its content taken as it is
      if tag = cidTag then
        let v ← decodeLink content
        .ok (v, input)
      else .ok (content, input)
  | 7 => decodeSimple additionalInfo input
  | n => .error (.deserialization ("Unknown CBOR major type: " ++ toString n))

/-- `decode_dag_cbor`, with what it leaves unread. -/
def decodeDagCbor : Nat → List UInt8 → Except Error (Ipld × List UInt8)
  | 0, _ => .error (.deserialization "Failed to read CBOR: failed to fill whole buffer")
  | _ + 1, [] => .error (.deserialization "Failed to read CBOR: failed to fill whole buffer")
  | fuel + 1, firstByte :: input =>
    decodeMajor (decodeDagCbor fuel) (firstByte >>> 5).toNat (firstByte &&& 0x1f).toNat input

/-- The decoder on a whole slice, with the unread rest. -/
def runDagCbor (input : List UInt8) : Except Error (Ipld × List UInt8) :=
  decodeDagCbor input.length input

/-- `Ipld::from_dag_cbor`: what the decoder leaves unread is ignored. -/
def Ipld.fromDagCbor (data : List UInt8) : Except Error Ipld := do
  let (v, _) ← runDagCbor data
  .ok v

end Ipfrs.Core
