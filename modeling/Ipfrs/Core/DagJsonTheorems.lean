/-
Ipfrs.Core.DagJsonTheorems — which values come back from their DAG-JSON text.

`Ipld.json` is what the encoder builds, without the failures. An integer outside
`i64` comes back as a string. A map whose only key is `"/"` is read as a link or as
bytes when its value is rendered as a string, or as an object with a string under
`"bytes"`. `JsonSafe` excludes both, at every depth, and nothing else:
`fromDagJson_toDagJson_iff`.
-/
import Ipfrs.Core.DagJson

namespace Ipfrs.Core

open Ipfrs.Lib

/-! ## The condition -/

/-- The values that a lone `"/"` is not read back from: a string, and a map that holds
a string under `"bytes"`. -/
def reservedUnderSlash : Ipld → Bool
  | .string _ => true
  | .map inner =>
    match Ipld.field inner "bytes" with
    | some (.string _) => true
    | _ => false
  | _ => false

/-- The maps that look like a link or like bytes in DAG-JSON. -/
def readsAsSpecial (m : List (String × Ipld)) : Bool :=
  match Ipld.field m "/" with
  | some v => m.length = 1 && reservedUnderSlash v
  | none => false

/-- Every integer fits `i64` and no map looks like a link or like bytes. -/
inductive JsonSafe : Ipld → Prop where
  | null : JsonSafe .null
  | bool (b) : JsonSafe (.bool b)
  | integer (i) (h : I64 i) : JsonSafe (.integer i)
  | float (f) : JsonSafe (.float f)
  | string (s) : JsonSafe (.string s)
  | bytes (b) : JsonSafe (.bytes b)
  | list (l) (items : ∀ v ∈ l, JsonSafe v) : JsonSafe (.list l)
  | map (m) (plain : readsAsSpecial m = false) (values : ∀ e ∈ m, JsonSafe e.2) :
      JsonSafe (.map m)
  | link (c) : JsonSafe (.link c)

/-! ## What the encoder builds -/

section

variable [MultibaseCrate] [CidStream]

mutual

/-- The JSON value of a value whose floats are finite. -/
def Ipld.json : Ipld → Json
  | .null => .null
  | .bool b => .bool b
  | .integer i => if I64 i then .number (JsonNumber.ofI64 i) else .string (toString i)
  | .float f => .number (.float f)
  | .string s => .string s
  | .bytes b => .object [("/", .object [("bytes", .string (base64Data b))])]
  | .list items => .array (jsonItems items)
  | .map entries => .object (jsonEntries entries)
  | .link cid => .object [("/", .string (CidStream.display cid))]

def jsonItems : List Ipld → List Json
  | [] => []
  | v :: rest => v.json :: jsonItems rest

def jsonEntries : List (String × Ipld) → List (String × Json)
  | [] => []
  | (k, v) :: rest => (k, v.json) :: jsonEntries rest

end

theorem jsonItems_eq (l : List Ipld) : jsonItems l = l.map Ipld.json := by
  induction l with
  | nil => rfl
  | cons v rest ih => simp [jsonItems, ih]

theorem jsonEntries_eq : ∀ m : List (String × Ipld),
    jsonEntries m = m.map (fun e => (e.1, e.2.json))
  | [] => rfl
  | _ :: rest => by simp [jsonEntries, jsonEntries_eq rest]

theorem itemsToDagJson_ok : ∀ {l : List Ipld} {js : List Json},
    (∀ v ∈ l, ∀ j, ipldToDagJson v = .ok j → j = v.json) →
    itemsToDagJson l = .ok js → js = l.map Ipld.json
  | [], _, _, h => by
    cases h
    rfl
  | v :: rest, js, hl, h => by
    rw [itemsToDagJson] at h
    obtain ⟨j, hj, h⟩ := bind_eq_ok.mp h
    obtain ⟨tail, htail, h⟩ := bind_eq_ok.mp h
    cases h
    rw [hl v List.mem_cons_self j hj,
      itemsToDagJson_ok (fun w hw => hl w (List.mem_cons_of_mem v hw)) htail, List.map_cons]

theorem entriesToDagJson_ok : ∀ {m : List (String × Ipld)} {acc obj : List (String × Json)},
    (∀ e ∈ m, ∀ j, ipldToDagJson e.2 = .ok j → j = e.2.json) →
    entriesToDagJson m acc = .ok obj →
    obj = (m.map (fun e => (e.1, e.2.json))).foldl
      (fun acc e => SortedAssoc.insert e.1 e.2 acc) acc
  | [], _, _, _, h => by
    cases h
    rfl
  | e :: rest, acc, obj, hm, h => by
    rw [entriesToDagJson] at h
    obtain ⟨j, hj, h⟩ := bind_eq_ok.mp h
    rw [hm e List.mem_cons_self j hj] at h
    have hrest : ∀ e' ∈ rest, ∀ j, ipldToDagJson e'.2 = .ok j → j = e'.2.json :=
      fun e' he => hm e' (List.mem_cons_of_mem e he)
    simpa using entriesToDagJson_ok hrest h

/-- The encoder, where it succeeds, builds `Ipld.json`. -/
theorem ipldToDagJson_ok {p : Int → Prop} {v : Ipld} (hv : v.Shaped p) (j : Json)
    (h : ipldToDagJson v = .ok j) : j = v.json := by
  induction hv generalizing j with
  | null => cases h; rfl
  | bool b => cases h; rfl
  | integer i _ =>
    rw [ipldToDagJson] at h
    rw [Ipld.json]
    split at h
    · next hi =>
      cases h
      rw [if_pos hi]
    · next hi =>
      cases h
      rw [if_neg hi]
  | float f =>
    rw [ipldToDagJson, JsonNumber.fromF64] at h
    split at h
    · next n hn =>
      split at hn
      · cases hn
        cases h
        rfl
      · cases hn
    · cases h
  | string s => cases h; rfl
  | bytes b => cases h; rfl
  | list l _ ih =>
    rw [ipldToDagJson] at h
    obtain ⟨arr, harr, h⟩ := bind_eq_ok.mp h
    cases h
    rw [Ipld.json, jsonItems_eq, itemsToDagJson_ok ih harr]
  | map m sorted _ ih =>
    rw [ipldToDagJson] at h
    obtain ⟨obj, hobj, h⟩ := bind_eq_ok.mp h
    cases h
    have hsorted := SortedAssoc.sorted_map_values Ipld.json sorted
    rw [Ipld.json, jsonEntries_eq, entriesToDagJson_ok ih hobj]
    exact congrArg Json.object (SortedAssoc.ofEntries_of_sorted hsorted)
  | link c => cases h; rfl

end

/-! ## What the decoder reads -/

section

variable [MultibaseCrate] [CidStream] [CidFromStr]

/-- The items come back exactly when each of them does. -/
theorem itemsToIpld_iff (l : List Ipld) :
    itemsToIpld (l.map Ipld.json) = .ok l ↔ ∀ v ∈ l, dagJsonToIpld v.json = .ok v := by
  induction l with
  | nil => simp [itemsToIpld, pure, Except.pure]
  | cons v rest ih =>
    rw [List.map_cons, itemsToIpld, List.forall_mem_cons, ← ih]
    constructor
    · intro h
      obtain ⟨w, hw, h⟩ := bind_eq_ok.mp h
      obtain ⟨tail, htail, h⟩ := bind_eq_ok.mp h
      cases h
      exact ⟨hw, htail⟩
    · intro h
      simp [h.1, h.2, pure, Except.pure]

/-- An entry of an object and the entry of a map it is read as. -/
def ReadsAs (e : String × Json) (v : String × Ipld) : Prop :=
  v.1 = e.1 ∧ dagJsonToIpld e.2 = .ok v.2

omit [CidStream] in
/-- The loop over the entries inserts what they are read as. -/
theorem entriesToIpld_iff : ∀ {obj : List (String × Json)} {acc m : List (String × Ipld)},
    entriesToIpld obj acc = .ok m ↔
      ∃ vs, List.Forall₂ ReadsAs obj vs ∧
        m = vs.foldl (fun acc e => SortedAssoc.insert e.1 e.2 acc) acc
  | [], acc, m => by
    constructor
    · intro h
      cases h
      exact ⟨[], .nil, rfl⟩
    · intro h
      obtain ⟨vs, hvs, hm⟩ := h
      cases hvs
      exact congrArg Except.ok hm.symm
  | (k, j) :: rest, acc, m => by
    rw [entriesToIpld]
    constructor
    · intro h
      obtain ⟨v, hv, h⟩ := bind_eq_ok.mp h
      obtain ⟨vs, hvs, hm⟩ := entriesToIpld_iff.mp h
      exact ⟨(k, v) :: vs, .cons ⟨rfl, hv⟩ hvs, hm⟩
    · intro h
      obtain ⟨vs, hvs, hm⟩ := h
      cases hvs with
      | cons hhead htail =>
        obtain ⟨hkey, hv⟩ := hhead
        rw [hv, ok_bind]
        dsimp only at hkey
        rw [List.foldl_cons, hkey] at hm
        exact entriesToIpld_iff.mpr ⟨_, htail, hm⟩

omit [CidStream] in
theorem ReadsAs.keys {obj : List (String × Json)} {vs : List (String × Ipld)}
    (h : List.Forall₂ ReadsAs obj vs) : vs.map Prod.fst = obj.map Prod.fst := by
  induction h with
  | nil => rfl
  | cons hhead _ ih => rw [List.map_cons, List.map_cons, hhead.1, ih]

/-- The entries of an ordered map come back exactly when each of them does. -/
theorem entriesToIpld_json_iff {m : List (String × Ipld)} (sorted : SortedAssoc.Sorted m) :
    entriesToIpld (m.map (fun e => (e.1, e.2.json))) [] = .ok m ↔
      ∀ e ∈ m, dagJsonToIpld e.2.json = .ok e.2 := by
  have hsame : List.Forall₂ ReadsAs (m.map (fun e => (e.1, e.2.json))) m ↔
      ∀ e ∈ m, dagJsonToIpld e.2.json = .ok e.2 := by
    rw [List.forall₂_map_left_iff, List.forall₂_same]
    simp [ReadsAs]
  rw [← hsame, entriesToIpld_iff]
  constructor
  · intro h
    obtain ⟨vs, hvs, hm⟩ := h
    have hsorted : SortedAssoc.Sorted vs := by
      rw [SortedAssoc.Sorted, ← List.pairwise_map (f := Prod.fst) (R := (· < ·)),
        ReadsAs.keys hvs, List.map_map, List.pairwise_map]
      exact sorted
    have hself := SortedAssoc.ofEntries_of_sorted hsorted
    rw [SortedAssoc.ofEntries, ← hm] at hself
    rw [← hself] at hvs
    exact hvs
  · intro h
    exact ⟨m, h, (SortedAssoc.ofEntries_of_sorted sorted).symm⟩

/-! ## The reserved forms -/

omit [CidStream] in
theorem slashValueForm_ne_map {j : Json} {special : Except Error Ipld}
    (h : slashValueForm j = some special) (m : List (String × Ipld)) : special ≠ .ok (.map m) := by
  unfold slashValueForm at h
  split at h
  · cases h
    unfold linkOfText
    split <;> simp
  · split at h
    · cases h
      unfold bytesOfText
      split <;> simp
    · cases h
  · cases h

omit [CidStream] in
/-- No regular map comes out of the branch for links and bytes. -/
theorem slashForm_ne_map {obj : List (String × Json)} {special : Except Error Ipld}
    (h : slashForm obj = some special) (m : List (String × Ipld)) : special ≠ .ok (.map m) := by
  unfold slashForm at h
  split at h
  · split at h
    · exact slashValueForm_ne_map h m
    · cases h
  · cases h

/-- The value under a lone `"/"` is taken for a link or for bytes exactly when it is
reserved. -/
theorem slashValueForm_json_iff {v : Ipld} (hv : JsonSafe v) :
    slashValueForm v.json = none ↔ reservedUnderSlash v = false := by
  cases hv with
  | null | bool b | float f | string s | list l items =>
    simp [Ipld.json, slashValueForm, reservedUnderSlash]
  | integer i h => simp [Ipld.json, slashValueForm, reservedUnderSlash, h]
  | bytes b | link c => simp [Ipld.json, slashValueForm, reservedUnderSlash, SortedAssoc.get?]
  | map m plain values =>
    rw [Ipld.json, jsonEntries_eq, slashValueForm, reservedUnderSlash,
      SortedAssoc.get?_map_values, Ipld.field]
    cases hw : SortedAssoc.get? m "bytes" with
    | none => simp
    | some w =>
      have hsafe := values _ (SortedAssoc.mem_of_get? hw)
      cases hsafe with
      | integer i h => simp [Ipld.json, h]
      | _ => simp [Ipld.json]

theorem slashForm_json_iff {m : List (String × Ipld)} (values : ∀ e ∈ m, JsonSafe e.2) :
    slashForm (m.map (fun e => (e.1, e.2.json))) = none ↔ readsAsSpecial m = false := by
  rw [slashForm, readsAsSpecial, SortedAssoc.get?_map_values, Ipld.field, List.length_map]
  cases hw : SortedAssoc.get? m "/" with
  | none => simp
  | some v =>
    have hiff := slashValueForm_json_iff (values _ (SortedAssoc.mem_of_get? hw))
    by_cases hlen : m.length = 1
    · simp [hlen, hiff]
    · simp [hlen]

/-! ## The round trip -/

/-- What the codec relies on of multibase and of the CID crate, asked of the bytes and
links of one value: their text forms are read back. -/
inductive TextForms : Ipld → Prop where
  | null : TextForms .null
  | bool (b) : TextForms (.bool b)
  | integer (i) : TextForms (.integer i)
  | float (f) : TextForms (.float f)
  | string (s) : TextForms (.string s)
  | bytes (b) (base64 : ∃ data, MultibaseCrate.encodeBase64 b = "m" ++ data ∧
      MultibaseCrate.decode ("m" ++ data) = .ok ('m', b)) : TextForms (.bytes b)
  | list (l) (items : ∀ v ∈ l, TextForms v) : TextForms (.list l)
  | map (m) (values : ∀ e ∈ m, TextForms e.2) : TextForms (.map m)
  | link (c) (text : CidFromStr.parse (CidStream.display c) = .ok c) : TextForms (.link c)

omit [CidStream] [CidFromStr] in
theorem bytesOfText_base64Data {b : List UInt8} (h : ∃ data,
    MultibaseCrate.encodeBase64 b = "m" ++ data ∧
      MultibaseCrate.decode ("m" ++ data) = .ok ('m', b)) :
    bytesOfText (base64Data b) = .ok (.bytes b) := by
  obtain ⟨data, hencode, hdecode⟩ := h
  have hdata : base64Data b = data := by
    have hm : ("m" : String).toList = ['m'] := by decide
    simp [base64Data, hencode, String.toList_append, hm]
  simp [bytesOfText, hdata, hdecode]

/-- A value comes back from its JSON value exactly when it is `JsonSafe`. -/
theorem dagJsonToIpld_json_iff {p : Int → Prop} {v : Ipld} (hv : v.Shaped p) :
    TextForms v → (dagJsonToIpld v.json = .ok v ↔ JsonSafe v) := by
  induction hv with
  | null => exact fun _ => ⟨fun _ => .null, fun _ => rfl⟩
  | bool b => exact fun _ => ⟨fun _ => .bool b, fun _ => rfl⟩
  | integer i _ =>
    intro _
    by_cases hi : I64 i
    · refine ⟨fun _ => .integer i hi, fun _ => ?_⟩
      simp [Ipld.json, hi, dagJsonToIpld, JsonNumber.asI64_ofI64 hi]
    · constructor
      · intro h
        simp [Ipld.json, hi, dagJsonToIpld] at h
      · intro h
        cases h with
        | integer _ hi' => exact absurd hi' hi
  | float f => exact fun _ => ⟨fun _ => .float f, fun _ => rfl⟩
  | string s => exact fun _ => ⟨fun _ => .string s, fun _ => rfl⟩
  | bytes b =>
    intro htext
    cases htext with
    | bytes _ base64 =>
      refine ⟨fun _ => .bytes b, fun _ => ?_⟩
      simp [Ipld.json, dagJsonToIpld, slashForm, slashValueForm, SortedAssoc.get?,
        bytesOfText_base64Data base64]
  | list l _ ih =>
    intro htext
    cases htext with
    | list _ items =>
      have hitems : itemsToIpld (l.map Ipld.json) = .ok l ↔ ∀ v ∈ l, JsonSafe v := by
        rw [itemsToIpld_iff]
        exact forall₂_congr fun v hv => ih v hv (items v hv)
      rw [Ipld.json, jsonItems_eq, dagJsonToIpld]
      constructor
      · intro h
        obtain ⟨l', hl', h⟩ := bind_eq_ok.mp h
        cases h
        exact .list l (hitems.mp hl')
      · intro h
        cases h with
        | list _ safe => rw [hitems.mpr safe, ok_bind]; rfl
  | map m sorted _ ih =>
    intro htext
    cases htext with
    | map _ values =>
      have hentries : entriesToIpld (m.map (fun e => (e.1, e.2.json))) [] = .ok m ↔
          ∀ e ∈ m, JsonSafe e.2 := by
        rw [entriesToIpld_json_iff sorted]
        exact forall₂_congr fun e he => ih e he (values e he)
      rw [Ipld.json, jsonEntries_eq, dagJsonToIpld]
      constructor
      · intro h
        split at h
        · next special hspecial => exact absurd h (slashForm_ne_map hspecial m)
        · next hnone =>
          obtain ⟨m', hm', h⟩ := bind_eq_ok.mp h
          cases h
          have safe := hentries.mp hm'
          exact .map m ((slashForm_json_iff safe).mp hnone) safe
      · intro h
        cases h with
        | map _ plain safe =>
          simp only [(slashForm_json_iff safe).mpr plain]
          rw [hentries.mpr safe, ok_bind]
          rfl
  | link c =>
    intro htext
    cases htext with
    | link _ text =>
      refine ⟨fun _ => .link c, fun _ => ?_⟩
      simp [Ipld.json, dagJsonToIpld, slashForm, slashValueForm, SortedAssoc.get?,
        linkOfText, text]

end

/-- **DAG-JSON round trip, and when it fails.** A value that a Rust program can hold,
encoded without an error, is read back from its text exactly when every integer in it
fits `i64` and no map in it looks like a link or like bytes. -/
theorem Ipld.fromDagJson_toDagJson_iff [JsonCrate] [MultibaseCrate] [CidStream] [CidFromStr]
    (v : Ipld) (hv : v.Shaped Ipld.I128) (texts : TextForms v)
    (printed : ∀ j text, ipldToDagJson v = .ok j → JsonCrate.toStringPretty j = .ok text →
      JsonCrate.fromStr text = .ok j) {text : String} (h : v.toDagJson = .ok text) :
    Ipld.fromDagJson text = .ok v ↔ JsonSafe v := by
  obtain ⟨j, hj, h⟩ := bind_eq_ok.mp h
  have hparse := printed j text hj (mapError_eq_ok.mp h)
  have hread : Ipld.fromDagJson text = dagJsonToIpld v.json := by
    rw [Ipld.fromDagJson, mapError_eq_ok.mpr hparse, ok_bind, ipldToDagJson_ok hv j hj]
  rw [hread, dagJsonToIpld_json_iff hv texts]

/-! ## Samples -/

namespace DagJsonSample

open scoped CidFormat

def base64Alphabet : List Char :=
  "ABCDEFGHIJKLMNOPQRSTUVWXYZabcdefghijklmnopqrstuvwxyz0123456789+/".toList

/-- The value of bits, most significant first. -/
def ofBits (bits : List Bool) : Nat := bits.foldl (fun n bit => 2 * n + bit.toNat) 0

/-- The character of a group of at most six bits, padded with zeros on the right. -/
def base64Char (group : List Bool) : Char :=
  base64Alphabet.getD (ofBits (group ++ List.replicate (6 - group.length) false)) 'A'

/-- The whole bytes of a string of bits. -/
def bytesOfBits (bits : List Bool) : List UInt8 :=
  ((chunksOf 8 bits.length bits).filter (fun g => g.length == 8)).map
    (fun g => UInt8.ofNat (ofBits g))

/-- The bytes of characters that stand for `width` bits each. -/
def bytesOfChars (alphabet : List Char) (width : Nat) (text : List Char) : List UInt8 :=
  bytesOfBits (text.flatMap fun c =>
    (List.range width).map (fun i => (alphabet.idxOf c).testBit (width - 1 - i)))

/-- Base 64 without padding. -/
scoped instance : MultibaseCrate where
  encodeBase64 b :=
    String.ofList ('m' :: (chunksOf 6 (8 * b.length) (CidFormat.bits b)).map base64Char)
  decode text :=
    match text.toList with
    | 'm' :: data => .ok ('m', bytesOfChars base64Alphabet 6 data)
    | _ => .error "Unknown base code"

/-- CIDs of version 1, which are printed in base 32. -/
scoped instance : CidFromStr where
  parse text :=
    match text.toList with
    | 'b' :: data =>
      CidCrate.tryFrom (bytesOfChars "abcdefghijklmnopqrstuvwxyz234567".toList 5 data)
    | _ => .error "Failed to parse multihash"

def cid : Cid := .newV1 codecRaw { code := 0, digest := [7, 8], size_le := by decide }

/-- A map whose only key is `"/"`, which is no link because its value is a list. -/
def value : Ipld := .map [("/", .list [.integer (-5), .bytes [1, 2, 3, 4], .link cid])]

/-- `value` as it is printed. -/
def valueText : String := "\n".intercalate
  ["\x7b",
   "  \"/\": [",
   "    -5,",
   "    \x7b",
   "      \"/\": \x7b",
   "        \"bytes\": \"AQIDBA\"",
   "      \x7d",
   "    \x7d,",
   "    \x7b",
   "      \"/\": \"bafkqaaqhba\"",
   "    \x7d",
   "  ]",
   "\x7d"]

/-- A map that holds the text of a CID under `"/"`. -/
def lookalike : Ipld := .map [("/", .string "bafkqaaqhba")]

def lookalikeText : String := "\x7b\n  \"/\": \"bafkqaaqhba\"\n\x7d"

/-- A text in quotes. -/
def quote (s : String) : String :=
  let escape := fun c => if c = '"' ∨ c = '\\' then ['\\', c] else [c]
  String.ofList ('"' :: (s.toList.flatMap escape ++ ['"']))

mutual

/-- Pretty printing, two spaces a level, of values without floats and control
characters. -/
def pretty (pad : String) : Json → Except String String
  | .null => .ok "null"
  | .bool b => .ok (toString b)
  | .number (.posInt n) => .ok (toString n.toNat)
  | .number (.negInt i) => .ok (toString i)
  | .number (.float _) => .error "a float"
  | .string s => .ok (quote s)
  | .array items => do
      let lines ← prettyItems (pad ++ "  ") items
      pure (if lines.isEmpty then "[]"
        else "[\n" ++ ",\n".intercalate lines ++ "\n" ++ pad ++ "]")
  | .object entries => do
      let lines ← prettyEntries (pad ++ "  ") entries
      pure (if lines.isEmpty then "\x7b\x7d"
        else "\x7b\n" ++ ",\n".intercalate lines ++ "\n" ++ pad ++ "\x7d")

def prettyItems (pad : String) : List Json → Except String (List String)
  | [] => pure []
  | j :: rest => do
      let line ← pretty pad j
      let lines ← prettyItems pad rest
      pure ((pad ++ line) :: lines)

def prettyEntries (pad : String) : List (String × Json) → Except String (List String)
  | [] => pure []
  | (k, j) :: rest => do
      let line ← pretty pad j
      let lines ← prettyEntries pad rest
      pure ((pad ++ quote k ++ ": " ++ line) :: lines)

end

/-- The JSON crate, which reads the texts of the two samples. -/
scoped instance : JsonCrate where
  toStringPretty := pretty ""
  fromStr text :=
    if text = valueText then .ok value.json
    else if text = lookalikeText then .ok lookalike.json
    else .error "expected value"

theorem value_shaped : value.Shaped Ipld.I128 := by
  refine .map _ (by decide) ?_
  intro e he
  rw [List.mem_singleton.mp he]
  refine .list _ ?_
  intro v hv
  simp only [List.mem_cons, List.not_mem_nil, or_false] at hv
  rcases hv with rfl | rfl | rfl
  · exact .integer _ (by decide)
  · exact .bytes _
  · exact .link _

theorem value_texts : TextForms value := by
  refine .map _ ?_
  intro e he
  rw [List.mem_singleton.mp he]
  refine .list _ ?_
  intro v hv
  simp only [List.mem_cons, List.not_mem_nil, or_false] at hv
  rcases hv with rfl | rfl | rfl
  · exact .integer _
  · exact .bytes _ ⟨"AQIDBA", by decide⟩
  · exact .link _ (by decide)

theorem value_encoded : ipldToDagJson value = .ok value.json := rfl

theorem print_value : JsonCrate.toStringPretty value.json = .ok valueText := by decide +kernel

theorem print_lookalike : JsonCrate.toStringPretty lookalike.json = .ok lookalikeText := by decide

theorem parse_valueText : JsonCrate.fromStr valueText = .ok value.json := rfl

theorem parse_lookalikeText : JsonCrate.fromStr lookalikeText = .ok lookalike.json := rfl

theorem value_safe : JsonSafe value := by
  refine .map _ rfl ?_
  intro e he
  rw [List.mem_singleton.mp he]
  refine .list _ ?_
  intro v hv
  simp only [List.mem_cons, List.not_mem_nil, or_false] at hv
  rcases hv with rfl | rfl | rfl
  · exact .integer _ (by decide)
  · exact .bytes _
  · exact .link _

/-- The texts of a sample are read back. -/
theorem read_sample {v : Ipld} {text : String} (hv : v.Shaped Ipld.I128)
    (hprint : JsonCrate.toStringPretty v.json = .ok text)
    (hparse : JsonCrate.fromStr text = .ok v.json) :
    ∀ j text, ipldToDagJson v = .ok j → JsonCrate.toStringPretty j = .ok text →
      JsonCrate.fromStr text = .ok j := by
  intro j text' hj h
  rw [ipldToDagJson_ok hv j hj, hprint] at h
  rw [ipldToDagJson_ok hv j hj, ← Except.ok.inj h, hparse]

theorem sample_text {v : Ipld} {text : String} (hencode : ipldToDagJson v = .ok v.json)
    (hprint : JsonCrate.toStringPretty v.json = .ok text) : v.toDagJson = .ok text := by
  rw [Ipld.toDagJson, hencode, ok_bind, hprint]
  rfl

theorem fromDagJson_valueText : Ipld.fromDagJson valueText = .ok value :=
  (Ipld.fromDagJson_toDagJson_iff value value_shaped value_texts
    (read_sample value_shaped print_value parse_valueText)
    (sample_text value_encoded print_value)).mpr value_safe

theorem lookalike_shaped : lookalike.Shaped Ipld.I128 := by
  refine .map _ (by decide) ?_
  intro e he
  rw [List.mem_singleton.mp he]
  exact .string _

theorem lookalike_texts : TextForms lookalike := by
  refine .map _ ?_
  intro e he
  rw [List.mem_singleton.mp he]
  exact .string _

/-- The map comes back as a link. -/
theorem fromDagJson_loses_lookalike :
    ¬ ∀ (v : Ipld) (text : String), v.Shaped Ipld.I128 → TextForms v →
      (∀ j text, ipldToDagJson v = .ok j → JsonCrate.toStringPretty j = .ok text →
        JsonCrate.fromStr text = .ok j) →
      v.toDagJson = .ok text → Ipld.fromDagJson text = .ok v := by
  intro h
  have hback := h lookalike lookalikeText lookalike_shaped lookalike_texts
    (read_sample lookalike_shaped print_lookalike parse_lookalikeText)
    (sample_text rfl print_lookalike)
  have hlink : linkOfText "bafkqaaqhba" = .ok (.link cid) := by
    have hcid : CidFromStr.parse "bafkqaaqhba" = .ok cid := by decide
    rw [linkOfText, hcid]
  have hread : Ipld.fromDagJson lookalikeText = .ok (.link cid) := hlink
  rw [hread] at hback
  cases hback

end DagJsonSample

end Ipfrs.Core
