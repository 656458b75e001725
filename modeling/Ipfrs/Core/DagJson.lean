/-
Ipfrs.Core.DagJson — the DAG-JSON codec of `ipld.rs`.

`Json` is `serde_json::Value`: an object is the iteration order of its
`BTreeMap`, as in `Ipld.map`. Printing and parsing a `Value`, multibase and the
text form of a CID are other crates' and stay parameters, with `Externals` for
what the codec relies on at the parts of one value.

JSON has no links, bytes or wide integers. A link is `{"/": "<cid>"}`, bytes are
`{"/": {"bytes": "<base64>"}}`, and an integer outside `i64` is the string of its
digits.
-/
import Ipfrs.Core.Ipld
import Ipfrs.Lib.Ieee754
import Ipfrs.Lib.Outcome

namespace Ipfrs.Core

open Ipfrs.Lib

/-! ## `serde_json` values -/

/-- `serde_json::Number`: a non-negative integer, a negative one, a finite float. -/
inductive JsonNumber where
  | posInt (n : UInt64)
  | negInt (i : Int)
  | float (bits : UInt64)
  deriving DecidableEq

/-- `serde_json::Value`. -/
inductive Json where
  | null
  | bool (b : Bool)
  | number (n : JsonNumber)
  | string (s : String)
  | array (items : List Json)
  | object (entries : List (String × Json))

/-- The range of `i64`. -/
def I64 (i : Int) : Prop := -2 ^ 63 ≤ i ∧ i ≤ 2 ^ 63 - 1

instance (i : Int) : Decidable (I64 i) := inferInstanceAs (Decidable (_ ∧ _))

/-- Neither a NaN nor an infinity. -/
def isFinite (bits : UInt64) : Bool := (bits >>> 52) &&& 0x7ff != 0x7ff

namespace JsonNumber

/-- `Number::from(i64)`. -/
def ofI64 (i : Int) : JsonNumber :=
  if i < 0 then .negInt i else .posInt (UInt64.ofNat i.toNat)

/-- `Number::from_f64`. -/
def fromF64 (bits : UInt64) : Option JsonNumber :=
  if isFinite bits then some (.float bits) else none

/-- `Number::as_i64`. -/
def asI64 : JsonNumber → Option Int
  | .posInt n => if n.toNat ≤ 2 ^ 63 - 1 then some n.toNat else none
  | .negInt i => some i
  | .float _ => none

/-- `Number::as_f64`. -/
def asF64 : JsonNumber → Option UInt64
  | .posInt n => some (intToF64 n.toNat)
  | .negInt i => some (intToF64 i)
  | .float bits => some bits

theorem asI64_ofI64 {i : Int} (h : I64 i) : (ofI64 i).asI64 = some i := by
  unfold I64 at h
  by_cases hneg : i < 0
  · simp [ofI64, hneg, asI64]
  · have hsmall : i.toNat < 2 ^ 64 := by omega
    have hback : (UInt64.ofNat i.toNat).toNat = i.toNat := by
      rw [UInt64.toNat_ofNat', Nat.mod_eq_of_lt hsmall]
    have hle : i.toNat ≤ 2 ^ 63 - 1 := by omega
    simp only [ofI64, if_neg hneg, asI64, hback, if_pos hle]
    congr 1
    omega

end JsonNumber

/-! ## The external crates -/

/-- `serde_json::to_string_pretty` and `from_str` on values, with the crate's error
texts. -/
class JsonCrate where
  toStringPretty : Json → Except String String
  fromStr : String → Except String Json

/-- `multibase`: encoding in base 64, with the prefix letter, and decoding by the
prefix letter, which is returned with the data. -/
class MultibaseCrate where
  encodeBase64 : List UInt8 → String
  decode : String → Except String (Char × List UInt8)

/-- `FromStr` for a CID, with the crate's error text. Its printed form is
`CidStream.display`. -/
class CidFromStr where
  parse : String → Except String Cid

variable [JsonCrate] [MultibaseCrate] [CidStream] [CidFromStr]

/-! ## Encoding -/

/-- The data of a base-64 text, without the prefix letter. -/
def base64Data (b : List UInt8) : String :=
  String.ofList ((MultibaseCrate.encodeBase64 b).toList.drop 1)

mutual

/-- `ipld_to_dag_json`. -/
def ipldToDagJson : Ipld → Except Error Json
  | .null => .ok .null
  | .bool b => .ok (.bool b)
  | .integer i =>
    if I64 i then .ok (.number (JsonNumber.ofI64 i))
    else .ok (.string (toString i))
  | .float f =>
    match JsonNumber.fromF64 f with
    | some n => .ok (.number n)
    | none => .error (.serialization "Cannot encode NaN/Inf as JSON")
  | .string s => .ok (.string s)
  | .bytes b =>
    let inner := SortedAssoc.insert "bytes" (Json.string (base64Data b)) []
    .ok (.object (SortedAssoc.insert "/" (.object inner) []))
  | .list items => do
      let arr ← itemsToDagJson items
      pure (.array arr)
  | .map entries => do
      let obj ← entriesToDagJson entries []
      pure (.object obj)
  | .link cid => .ok (.object (SortedAssoc.insert "/" (.string (CidStream.display cid)) []))

/-- The items of a list, up to the first one that fails. -/
def itemsToDagJson : List Ipld → Except Error (List Json)
  | [] => pure []
  | v :: rest => do
      let j ← ipldToDagJson v
      let js ← itemsToDagJson rest
      pure (j :: js)

/-- The loop over a map's entries, which fills `obj`. -/
def entriesToDagJson : List (String × Ipld) → List (String × Json) →
    Except Error (List (String × Json))
  | [], obj => pure obj
  | (k, v) :: rest, obj => do
      let j ← ipldToDagJson v
      entriesToDagJson rest (SortedAssoc.insert k j obj)

end

/-- `Ipld::to_dag_json`. -/
def Ipld.toDagJson (v : Ipld) : Except Error String := do
  let jsonValue ← ipldToDagJson v
  (JsonCrate.toStringPretty jsonValue).mapError
    fun e => .serialization ("Failed to serialize DAG-JSON: " ++ e)

/-! ## Decoding -/

/-- The text under `"/"` as a link. -/
def linkOfText (cidStr : String) : Except Error Ipld :=
  match CidFromStr.parse cidStr with
  | .ok cid => .ok (.link cid)
  | .error e => .error (.deserialization ("Invalid CID: " ++ e))

/-- The text under `"bytes"` as bytes. -/
def bytesOfText (bytesStr : String) : Except Error Ipld :=
  match MultibaseCrate.decode ("m" ++ bytesStr) with
  | .ok (_, decoded) => .ok (.bytes decoded)
  | .error e => .error (.deserialization ("Invalid base64 bytes: " ++ e))

/-- A link or bytes from the value under a lone `"/"`. -/
def slashValueForm : Json → Option (Except Error Ipld)
  | .string cidStr => some (linkOfText cidStr)
  | .object inner =>
    match SortedAssoc.get? inner "bytes" with
    | some (.string bytesStr) => some (bytesOfText bytesStr)
    | _ => none
  | _ => none

/-- The branch for an object that has a `"/"` entry and no other. An object of
neither shape is a regular map. -/
def slashForm (obj : List (String × Json)) : Option (Except Error Ipld) :=
  match SortedAssoc.get? obj "/" with
  | some slashValue => if obj.length = 1 then slashValueForm slashValue else none
  | none => none

mutual

/-- `dag_json_to_ipld`. -/
def dagJsonToIpld : Json → Except Error Ipld
  | .null => .ok .null
  | .bool b => .ok (.bool b)
  | .number n =>
    match n.asI64 with
    | some i => .ok (.integer i)
    | none =>
      match n.asF64 with
      | some f => .ok (.float f)
      | none => .error (.deserialization "Invalid number")
  | .string s => .ok (.string s)
  | .array arr => do
      let list ← itemsToIpld arr
      pure (.list list)
  | .object obj =>
    match slashForm obj with
    | some special => special
    | none => do
        let map ← entriesToIpld obj []
        pure (.map map)

def itemsToIpld : List Json → Except Error (List Ipld)
  | [] => pure []
  | j :: rest => do
      let v ← dagJsonToIpld j
      let vs ← itemsToIpld rest
      pure (v :: vs)

def entriesToIpld : List (String × Json) → List (String × Ipld) →
    Except Error (List (String × Ipld))
  | [], map => pure map
  | (k, j) :: rest, map => do
      let v ← dagJsonToIpld j
      entriesToIpld rest (SortedAssoc.insert k v map)

end

/-- `Ipld::from_dag_json`. -/
def Ipld.fromDagJson (json : String) : Except Error Ipld := do
  let jsonValue ← (JsonCrate.fromStr json).mapError
    fun e => .deserialization ("Failed to parse DAG-JSON: " ++ e)
  dagJsonToIpld jsonValue

end Ipfrs.Core
