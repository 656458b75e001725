/-
Ipfrs.Knowledge.Node — typed knowledge nodes and their IPLD form (`node.rs`).

Strings are normalised before hashing by two functions of Rust's standard
library, `str::trim` and `str::to_lowercase`. Their Unicode tables are left open
as the class `RustText`; nothing in the development depends on them.

An `f32` is its bit pattern. The field accessors keep the texts of the source's
errors, so a failed decode names the field.
-/
import Ipfrs.Knowledge.Store
import Ipfrs.Core.DagCborTheorems
import Ipfrs.Lib.Widening

namespace Ipfrs.Knowledge

open Ipfrs.Core Ipfrs.Lib

/-- The text functions of the standard library. -/
class RustText where
  /-- `str::trim`. -/
  trim : String → String
  /-- `str::to_lowercase`. -/
  toLowercase : String → String

/-! The text functions on ASCII text. -/

namespace AsciiText

def isWhitespace (c : Char) : Bool := c.val == 32 || (9 ≤ c.val && c.val ≤ 13)

scoped instance : RustText where
  trim s :=
    String.ofList ((s.toList.dropWhile isWhitespace).reverse.dropWhile isWhitespace).reverse
  toLowercase s := String.ofList (s.toList.map Char.toLower)

end AsciiText

/-- `EntityId`: 32 bytes. -/
structure EntityId where
  bytes : List UInt8
  size_eq : bytes.length = 32
  deriving DecidableEq

/-- `EntityId::of`. -/
def EntityId.of [RustText] (kind name : String) : EntityId where
  bytes := Sha256.hash (utf8 kind ++ [0] ++ utf8 (RustText.toLowercase (RustText.trim name)))
  size_eq := Sha256.length_hash _

/-- `HypothesisStatus`. -/
inductive HypothesisStatus where
  | opened
  | supported
  | refuted
  deriving DecidableEq, Repr

/-- `HypothesisStatus::as_str`. -/
def HypothesisStatus.asStr : HypothesisStatus → String
  | .opened => "open"
  | .supported => "supported"
  | .refuted => "refuted"

/-- `HypothesisStatus::parse`. -/
def HypothesisStatus.parse (s : String) : HypothesisStatus :=
  if s = "supported" then .supported
  else if s = "refuted" then .refuted
  else .opened

/-- `BTreeMap<String, String>`. -/
abbrev StringMap := { m : List (String × String) // SortedAssoc.Sorted m }

/-- `KnowledgeNode`. -/
inductive KnowledgeNode where
  | entity (id : EntityId) (kind name : String) (aliases : List String) (attrs : StringMap)
      (observations : List Cid)
  | concept (name definition : String) (broader related : List Cid)
  | relation (subject : Cid) (predicate : String) (object : Cid) (evidence : List Cid)
      (weight : UInt32)
  | evidence (source : Cid) (span : Option (UInt64 × UInt64)) (extractedBy : String)
      (proof : Option Cid)
  | observation (about : Cid) (statement : String) (ts : UInt64) (agent : String)
  | hypothesis (claim : String) (supports refutes : List Cid) (status : HypothesisStatus)
      (proof : Option Cid)
  deriving DecidableEq

/-! ## Encoding -/

/-- `KnowledgeNode::links`. -/
def linkList (cids : List Cid) : Ipld := .list (cids.map .link)

/-- `KnowledgeNode::type_name`. -/
def KnowledgeNode.typeName : KnowledgeNode → String
  | .entity .. => "Entity"
  | .concept .. => "Concept"
  | .relation .. => "Relation"
  | .evidence .. => "Evidence"
  | .observation .. => "Observation"
  | .hypothesis .. => "Hypothesis"

/-- The fields of a node after `@type`, in the order the source inserts them. -/
def KnowledgeNode.fields : KnowledgeNode → List (String × Ipld)
  | .entity id kind name aliases attrs observations =>
    [("id", .bytes id.bytes), ("kind", .string kind), ("name", .string name),
      ("aliases", .list (aliases.map .string)),
      ("attrs", .map (SortedAssoc.ofEntries (attrs.1.map (fun e => (e.1, .string e.2))))),
      ("observations", linkList observations)]
  | .concept name definition broader related =>
    [("name", .string name), ("definition", .string definition),
      ("broader", linkList broader), ("related", linkList related)]
  | .relation subject predicate object evidenceCids weight =>
    [("subject", .link subject), ("predicate", .string predicate), ("object", .link object),
      ("evidence", linkList evidenceCids), ("weight", .float (f32ToF64 weight))]
  | .evidence source span extractedBy proof =>
    [("source", .link source)]
      ++ span.toList.map (fun s =>
        ("span", .list [.integer s.1.toNat, .integer s.2.toNat]))
      ++ [("extracted_by", .string extractedBy)]
      ++ proof.toList.map (fun p => ("proof", .link p))
  | .observation about statement ts agent =>
    [("about", .link about), ("statement", .string statement), ("ts", .integer ts.toNat),
      ("agent", .string agent)]
  | .hypothesis claim supports refutes status proof =>
    [("claim", .string claim), ("supports", linkList supports),
      ("refutes", linkList refutes), ("status", .string status.asStr)]
      ++ proof.toList.map (fun p => ("proof", .link p))

/-- `KnowledgeNode::to_ipld`. -/
def KnowledgeNode.toIpld (node : KnowledgeNode) : Ipld :=
  .map (SortedAssoc.ofEntries (("@type", .string node.typeName) :: node.fields))

/-- A value as a DAG-CBOR block: `to_dag_cbor` and `build_dag_cbor`. -/
def encodeBlock [CidCrate] (v : Ipld) : Except KError (Cid × List UInt8) := do
  let bytes ← mapCore v.toDagCbor
  let cid ← mapCore (({} : CidBuilder).buildDagCbor bytes)
  .ok (cid, bytes)

/-- `KnowledgeNode::encode`. -/
def KnowledgeNode.encode [CidCrate] (node : KnowledgeNode) : Except KError (Cid × List UInt8) :=
  encodeBlock node.toIpld

/-! ## Field accessors -/

abbrev IpldMap := List (String × Ipld)

def asMap : Ipld → Except KError IpldMap
  | .map m => .ok m
  | _ => .error (.decode "expected IPLD map")

def fieldOf (m : IpldMap) (k : String) : Except KError Ipld :=
  match Ipld.field m k with
  | some v => .ok v
  | none => .error (.decode ("missing field '" ++ k ++ "'"))

def gstr (m : IpldMap) (k : String) : Except KError String := do
  match ← fieldOf m k with
  | .string s => .ok s
  | _ => .error (.decode ("field '" ++ k ++ "' not a string"))

def gint (m : IpldMap) (k : String) : Except KError Int := do
  match ← fieldOf m k with
  | .integer n => .ok n
  | _ => .error (.decode ("field '" ++ k ++ "' not an integer"))

def gfloat (m : IpldMap) (k : String) : Except KError UInt64 := do
  match ← fieldOf m k with
  | .float x => .ok x
  | .integer n => .ok (intToF64 n)
  | _ => .error (.decode ("field '" ++ k ++ "' not a float"))

def gbytes (m : IpldMap) (k : String) : Except KError (List UInt8) := do
  match ← fieldOf m k with
  | .bytes b => .ok b
  | _ => .error (.decode ("field '" ++ k ++ "' not bytes"))

def glink (m : IpldMap) (k : String) : Except KError Cid := do
  match (← fieldOf m k).asLink with
  | some c => .ok c
  | none => .error (.decode ("field '" ++ k ++ "' not a link"))

def glinkOpt (m : IpldMap) (k : String) : Option Cid := (Ipld.field m k).bind Ipld.asLink

/-- `.iter().map(f).collect::<Result<_, _>>()`: stops at the first error. -/
def collectOk {α β : Type} (f : α → Except KError β) : List α → Except KError (List β)
  | [] => .ok []
  | a :: rest => do
      let b ← f a
      let bs ← collectOk f rest
      .ok (b :: bs)

def glinks (m : IpldMap) (k : String) : Except KError (List Cid) := do
  match ← fieldOf m k with
  | .list l => collectOk (fun v => match v.asLink with
      | some c => .ok c
      | none => .error (.decode ("'" ++ k ++ "' has non-link"))) l
  | _ => .error (.decode ("field '" ++ k ++ "' not a list"))

def gstrlist (m : IpldMap) (k : String) : Except KError (List String) := do
  match ← fieldOf m k with
  | .list l => collectOk (fun v => match v with
      | .string s => .ok s
      | _ => .error (.decode ("'" ++ k ++ "' has non-string"))) l
  | _ => .error (.decode ("field '" ++ k ++ "' not a list"))

def gstrmap (m : IpldMap) (k : String) : Except KError StringMap := do
  match ← fieldOf m k with
  | .map mm => do
      let entries ← collectOk (fun e => match e.2 with
        | .string s => .ok (e.1, s)
        | _ => .error (.decode ("attr '" ++ e.1 ++ "' not a string"))) mm
      .ok ⟨SortedAssoc.ofEntries entries, SortedAssoc.sorted_ofEntries entries⟩
  | _ => .error (.decode ("field '" ++ k ++ "' not a map"))

/-- A cast from `i128` to `u64`. -/
def intAsU64 (n : Int) : UInt64 := UInt64.ofNat (n % 2 ^ 64).toNat

def gspan (m : IpldMap) : Except KError (Option (UInt64 × UInt64)) :=
  match Ipld.field m "span" with
  | none => .ok none
  | some (.list [a, b]) => do
      let a ← match a with
        | .integer n => .ok (intAsU64 n)
        | _ => .error (.decode "span[0]")
      let b ← match b with
        | .integer n => .ok (intAsU64 n)
        | _ => .error (.decode "span[1]")
      .ok (some (a, b))
  | _ => .error (.decode "span must be a 2-element list")

/-! ## Decoding -/

/-- A 32-byte array from a byte vector, or the given error. -/
def toEntityId (b : List UInt8) (msg : String) : Except KError EntityId :=
  if h : b.length = 32 then .ok ⟨b, h⟩ else .error (.decode msg)

/-- `KnowledgeNode::from_ipld`. -/
def KnowledgeNode.fromIpld (ipld : Ipld) : Except KError KnowledgeNode := do
  let m ← asMap ipld
  let ty ← gstr m "@type"
  if ty = "Entity" then do
    let idBytes ← gbytes m "id"
    let id ← toEntityId idBytes "Entity.id must be 32 bytes"
    .ok (.entity id (← gstr m "kind") (← gstr m "name") (← gstrlist m "aliases")
      (← gstrmap m "attrs") (← glinks m "observations"))
  else if ty = "Concept" then do
    .ok (.concept (← gstr m "name") (← gstr m "definition") (← glinks m "broader")
      (← glinks m "related"))
  else if ty = "Relation" then do
    .ok (.relation (← glink m "subject") (← gstr m "predicate") (← glink m "object")
      (← glinks m "evidence") (f64ToF32 (← gfloat m "weight")))
  else if ty = "Evidence" then do
    .ok (.evidence (← glink m "source") (← gspan m) (← gstr m "extracted_by")
      (glinkOpt m "proof"))
  else if ty = "Observation" then do
    .ok (.observation (← glink m "about") (← gstr m "statement") (intAsU64 (← gint m "ts"))
      (← gstr m "agent"))
  else if ty = "Hypothesis" then do
    .ok (.hypothesis (← gstr m "claim") (← glinks m "supports") (← glinks m "refutes")
      (.parse (← gstr m "status")) (glinkOpt m "proof"))
  else .error (.decode ("unknown node @type '" ++ ty ++ "'"))

/-- `KnowledgeNode::decode`. -/
def KnowledgeNode.decode [CidCrate] (bytes : List UInt8) : Except KError KnowledgeNode := do
  let ipld ← mapCore (Ipld.fromDagCbor bytes)
  KnowledgeNode.fromIpld ipld

/-! ## Values as blocks, and what a stored node decodes to

`ipldBlock v` is the block a value is stored as. A block that fits in memory
decodes to its value (`fromDagCbor_ipldBlock`). An entity decodes to itself; a
relation to itself up to its weight, which goes through binary64 and back. -/

theorem collectOk_map {α β : Type} {f : β → Except KError α} {g : α → β}
    (h : ∀ a, f (g a) = .ok a) (l : List α) : collectOk f (l.map g) = .ok l := by
  induction l with
  | nil => rfl
  | cons a l ih => simp [collectOk, h, ih]

/-! ## Blocks -/

section

variable [CidCrate]

/-- The block a value is stored as. -/
def ipldBlock (v : Ipld) : Block :=
  { cid := cidOf codecDagCbor (cborBytes v), data := cborBytes v }

theorem encodeBlock_eq (v : Ipld) :
    encodeBlock v = .ok ((ipldBlock v).cid, (ipldBlock v).data) := by
  simp [encodeBlock, toDagCbor_eq, ipldBlock]

/-- Storing a value puts its block. -/
theorem putEncoded_run {S : Type} [BlockStore S] (v : Ipld) (s : S) : putEncoded (encodeBlock v) s
      = .ok (ipldBlock v).cid (BlockStore.put s (ipldBlock v).cid (ipldBlock v).data) := by
  rw [encodeBlock_eq]
  rfl

theorem fromDagCbor_ipldBlock [CidCrate.Lawful] {v : Ipld} (hv : v.Shaped Ipld.CborInt)
    (hsize : (ipldBlock v).data.length < 2 ^ 64) : Ipld.fromDagCbor (ipldBlock v).data = .ok v :=
  fromDagCbor_cborBytes (hv.wf hsize)

end

/-! ## The form of a node -/

theorem linkList_shaped (cids : List Cid) : (linkList cids).Shaped Ipld.CborInt := by
  refine .list _ ?_
  intro v hv
  obtain ⟨c, _, rfl⟩ := List.mem_map.mp hv
  exact .link c

theorem uint64_cborInt (n : UInt64) : Ipld.CborInt n.toNat := by
  have h := n.toNat_lt
  unfold Ipld.CborInt
  omega

/-- Every node is a value the codec represents. -/
theorem toIpld_shaped (node : KnowledgeNode) : node.toIpld.Shaped Ipld.CborInt := by
  refine .ofEntries ?_
  intro e he
  rcases List.mem_cons.mp he with rfl | he
  · exact .string _
  cases node with
  | entity id kind name aliases attrs observations =>
    simp only [KnowledgeNode.fields, List.mem_cons, List.not_mem_nil, or_false] at he
    rcases he with rfl | rfl | rfl | rfl | rfl | rfl
    · exact .bytes _
    · exact .string _
    · exact .string _
    · refine .list _ ?_
      intro v hv
      obtain ⟨s, _, rfl⟩ := List.mem_map.mp hv
      exact .string s
    · refine .ofEntries ?_
      intro a ha
      obtain ⟨s, _, rfl⟩ := List.mem_map.mp ha
      exact .string _
    · exact linkList_shaped _
  | concept name definition broader related =>
    simp only [KnowledgeNode.fields, List.mem_cons, List.not_mem_nil, or_false] at he
    rcases he with rfl | rfl | rfl | rfl
    · exact .string _
    · exact .string _
    · exact linkList_shaped _
    · exact linkList_shaped _
  | relation subject predicate object evidenceCids weight =>
    simp only [KnowledgeNode.fields, List.mem_cons, List.not_mem_nil, or_false] at he
    rcases he with rfl | rfl | rfl | rfl | rfl
    · exact .link _
    · exact .string _
    · exact .link _
    · exact linkList_shaped _
    · exact .float _
  | evidence source span extractedBy proof =>
    simp only [KnowledgeNode.fields, List.mem_append, List.mem_cons, List.not_mem_nil, or_false,
      List.mem_map] at he
    rcases he with ((rfl | ⟨s, _, rfl⟩) | rfl) | ⟨p, _, rfl⟩
    · exact .link _
    · refine .list _ ?_
      intro v hv
      simp only [List.mem_cons, List.not_mem_nil, or_false] at hv
      rcases hv with rfl | rfl
      · exact .integer _ (uint64_cborInt _)
      · exact .integer _ (uint64_cborInt _)
    · exact .string _
    · exact .link _
  | observation about statement ts agent =>
    simp only [KnowledgeNode.fields, List.mem_cons, List.not_mem_nil, or_false] at he
    rcases he with rfl | rfl | rfl | rfl
    · exact .link _
    · exact .string _
    · exact .integer _ (uint64_cborInt _)
    · exact .string _
  | hypothesis claim supports refutes status proof =>
    simp only [KnowledgeNode.fields, List.mem_append, List.mem_cons, List.not_mem_nil, or_false,
      List.mem_map] at he
    rcases he with (rfl | rfl | rfl | rfl) | ⟨p, _, rfl⟩
    · exact .string _
    · exact linkList_shaped _
    · exact linkList_shaped _
    · exact .string _
    · exact .link _

/-! ## Decoding what was encoded -/

section

variable {m : IpldMap} {k : String}

theorem glinks_linkList {cids : List Cid} (h : Ipld.field m k = some (linkList cids)) :
    glinks m k = .ok cids := by
  simp only [glinks, fieldOf, h, ok_bind, linkList]
  refine collectOk_map ?_ cids
  intro c
  rfl

theorem gstrlist_strings {strings : List String}
    (h : Ipld.field m k = some (.list (strings.map .string))) : gstrlist m k = .ok strings := by
  simp only [gstrlist, fieldOf, h, ok_bind]
  refine collectOk_map ?_ strings
  intro s
  rfl

theorem gstrmap_strings {attrs : StringMap} (h : Ipld.field m k = some
      (.map (SortedAssoc.ofEntries (attrs.1.map (fun e => (e.1, Ipld.string e.2)))))) :
    gstrmap m k = .ok attrs := by
  have hsorted : SortedAssoc.Sorted (attrs.1.map (fun e => (e.1, Ipld.string e.2))) :=
    List.pairwise_map.mpr attrs.2
  simp only [gstrmap, fieldOf, h, ok_bind, SortedAssoc.ofEntries_of_sorted hsorted]
  refine bind_eq_ok.mpr ⟨attrs.1, ?_, ?_⟩
  · refine collectOk_map ?_ attrs.1
    intro e
    rfl
  · simp only [SortedAssoc.ofEntries_of_sorted attrs.2]

end

theorem field_ofEntries (l : List (String × Ipld)) (k : String) :
    Ipld.field (SortedAssoc.ofEntries l) k = (l.reverse.find? (fun e => e.1 == k)).map Prod.snd :=
  SortedAssoc.get?_ofEntries l k

theorem fromIpld_entity (id : EntityId) (kind name : String) (aliases : List String)
    (attrs : StringMap) (observations : List Cid) :
    KnowledgeNode.fromIpld (KnowledgeNode.entity id kind name aliases attrs observations).toIpld
      = .ok (.entity id kind name aliases attrs observations) := by
  have hid := id.size_eq
  simp only [KnowledgeNode.toIpld, KnowledgeNode.fromIpld, KnowledgeNode.typeName,
    KnowledgeNode.fields, asMap, ok_bind]
  rw [glinks_linkList (field_ofEntries _ _), gstrmap_strings (field_ofEntries _ _),
    gstrlist_strings (field_ofEntries _ _)]
  simp [gstr, gbytes, fieldOf, field_ofEntries, toEntityId, hid]

theorem fromIpld_relation (subject : Cid) (predicate : String) (object : Cid)
    (evidence : List Cid) (weight : UInt32) :
    KnowledgeNode.fromIpld (KnowledgeNode.relation subject predicate object evidence weight).toIpld
      = .ok (.relation subject predicate object evidence (f64ToF32 (f32ToF64 weight))) := by
  have hevidence : glinks (SortedAssoc.ofEntries [("@type", .string "Relation"),
      ("subject", .link subject), ("predicate", .string predicate), ("object", .link object),
      ("evidence", linkList evidence), ("weight", .float (f32ToF64 weight))]) "evidence"
      = .ok evidence := glinks_linkList (field_ofEntries _ _)
  simp [KnowledgeNode.toIpld, KnowledgeNode.fromIpld, KnowledgeNode.typeName,
    KnowledgeNode.fields, asMap, hevidence, gstr, glink, gfloat, fieldOf, field_ofEntries]

section

variable [CidCrate] [CidCrate.Lawful]

/-- A stored node decodes to what its value is read as. -/
theorem decode_ipldBlock {node node' : KnowledgeNode}
    (hsize : (ipldBlock node.toIpld).data.length < 2 ^ 64)
    (hread : KnowledgeNode.fromIpld node.toIpld = .ok node') :
    KnowledgeNode.decode (ipldBlock node.toIpld).data = .ok node' := by
  rw [KnowledgeNode.decode, fromDagCbor_ipldBlock (toIpld_shaped node) hsize]
  exact hread

end

/-! ## Every node decodes to itself

`fromIpld_toIpld` reads each kind of node back field by field. Two fields are cast on
the way: a `u64` goes through `i128` (`intAsU64_toNat`), and the weight of a relation
through binary64 (`f64ToF32_f32ToF64`), which keeps every weight but a NaN. The
status of a hypothesis is parsed by a function with a default, which is not taken on
the texts that are written (`parse_asStr`). -/

/-- The weight of a relation is not a NaN. -/
def KnowledgeNode.hasNanWeight : KnowledgeNode → Bool
  | .relation _ _ _ _ weight => F32.isNan weight
  | _ => false

theorem intAsU64_toNat (n : UInt64) : intAsU64 n.toNat = n := by
  have h := n.toNat_lt
  have hmod : ((n.toNat : Int) % 2 ^ 64).toNat = n.toNat := by omega
  rw [intAsU64, hmod, UInt64.ofNat_toNat]

theorem parse_asStr (status : HypothesisStatus) : HypothesisStatus.parse status.asStr = status := by
  cases status <;> rfl

theorem fromIpld_concept (name definition : String) (broader related : List Cid) :
    KnowledgeNode.fromIpld (KnowledgeNode.concept name definition broader related).toIpld
      = .ok (.concept name definition broader related) := by
  simp only [KnowledgeNode.toIpld, KnowledgeNode.fromIpld, KnowledgeNode.typeName,
    KnowledgeNode.fields, asMap, ok_bind]
  rw [glinks_linkList (k := "broader") (field_ofEntries _ _),
    glinks_linkList (k := "related") (field_ofEntries _ _)]
  simp [gstr, fieldOf, field_ofEntries]

theorem fromIpld_observation (about : Cid) (statement : String) (ts : UInt64) (agent : String) :
    KnowledgeNode.fromIpld (KnowledgeNode.observation about statement ts agent).toIpld
      = .ok (.observation about statement ts agent) := by
  simp [KnowledgeNode.toIpld, KnowledgeNode.fromIpld, KnowledgeNode.typeName,
    KnowledgeNode.fields, asMap, gstr, glink, gint, fieldOf, field_ofEntries, intAsU64_toNat]

theorem fromIpld_evidence (source : Cid) (span : Option (UInt64 × UInt64))
    (extractedBy : String) (proof : Option Cid) :
    KnowledgeNode.fromIpld (KnowledgeNode.evidence source span extractedBy proof).toIpld
      = .ok (.evidence source span extractedBy proof) := by
  cases span <;> cases proof <;>
    simp [KnowledgeNode.toIpld, KnowledgeNode.fromIpld, KnowledgeNode.typeName,
      KnowledgeNode.fields, asMap, gstr, glink, glinkOpt, gspan, fieldOf, field_ofEntries,
      intAsU64_toNat]

theorem fromIpld_hypothesis (claim : String) (supports refutes : List Cid)
    (status : HypothesisStatus) (proof : Option Cid) :
    KnowledgeNode.fromIpld (KnowledgeNode.hypothesis claim supports refutes status proof).toIpld
      = .ok (.hypothesis claim supports refutes status proof) := by
  cases proof
  all_goals
    simp only [KnowledgeNode.toIpld, KnowledgeNode.fromIpld, KnowledgeNode.typeName,
      KnowledgeNode.fields, asMap, ok_bind]
    rw [glinks_linkList (k := "supports") (field_ofEntries _ _),
      glinks_linkList (k := "refutes") (field_ofEntries _ _)]
    simp [gstr, glinkOpt, fieldOf, field_ofEntries, parse_asStr]

/-- A node is read back from its IPLD form. -/
theorem fromIpld_toIpld {node : KnowledgeNode} (hnan : node.hasNanWeight = false) :
    KnowledgeNode.fromIpld node.toIpld = .ok node := by
  cases node with
  | entity id kind name aliases attrs observations =>
    exact fromIpld_entity id kind name aliases attrs observations
  | concept name definition broader related =>
    exact fromIpld_concept name definition broader related
  | relation subject predicate object evidence weight =>
    rw [fromIpld_relation, f64ToF32_f32ToF64 hnan]
  | evidence source span extractedBy proof =>
    exact fromIpld_evidence source span extractedBy proof
  | observation about statement ts agent =>
    exact fromIpld_observation about statement ts agent
  | hypothesis claim supports refutes status proof =>
    exact fromIpld_hypothesis claim supports refutes status proof

section

variable [CidCrate]

theorem KnowledgeNode.encode_eq (node : KnowledgeNode) :
    node.encode = .ok ((ipldBlock node.toIpld).cid, (ipldBlock node.toIpld).data) :=
  encodeBlock_eq node.toIpld

variable [CidCrate.Lawful]

/-- **Knowledge nodes round-trip.** A node whose weight, if it has one, is not a NaN
encodes, its bytes decode to the same node, and no other such node has these bytes.
That the bytes are those of a vector is all that is asked of their number. -/
theorem KnowledgeNode.encode_decodes {node : KnowledgeNode} (hnan : node.hasNanWeight = false)
    (hsize : ∀ cid bytes, node.encode = .ok (cid, bytes) → bytes.length < 2 ^ 64) :
    ∃ cid bytes, node.encode = .ok (cid, bytes) ∧ KnowledgeNode.decode bytes = .ok node ∧
      ∀ other : KnowledgeNode, other.hasNanWeight = false → other ≠ node →
        ∀ cid' bytes', other.encode = .ok (cid', bytes') → bytes' ≠ bytes := by
  have hlen := hsize _ _ node.encode_eq
  have hdecode := decode_ipldBlock hlen (fromIpld_toIpld hnan)
  refine ⟨_, _, node.encode_eq, hdecode, ?_⟩
  intro other hnan' hne cid' bytes' hencode hbytes
  rw [other.encode_eq] at hencode
  cases hencode
  have hdecode' := decode_ipldBlock (by rw [hbytes]; exact hlen) (fromIpld_toIpld hnan')
  rw [hbytes, hdecode] at hdecode'
  exact hne (Except.ok.inj hdecode').symm

end

section

open scoped CidFormat

/-- A relation whose weight is the smallest positive `f32`. -/
def faintRelation : KnowledgeNode :=
  .relation (cidOf codecRaw [1]) "knows" (cidOf codecRaw [2]) [cidOf codecRaw [3]] 1

theorem faintRelation_encode_decodes : ∃ cid bytes, faintRelation.encode = .ok (cid, bytes) ∧
      KnowledgeNode.decode bytes = .ok faintRelation ∧
      ∀ other : KnowledgeNode, other.hasNanWeight = false → other ≠ faintRelation →
        ∀ cid' bytes', other.encode = .ok (cid', bytes') → bytes' ≠ bytes := by
  refine KnowledgeNode.encode_decodes (by decide) ?_
  intro cid bytes h
  rw [faintRelation.encode_eq] at h
  cases h
  have hlen : (ipldBlock faintRelation.toIpld).data.length < 1000 := by decide +kernel
  omega

end

end Ipfrs.Knowledge
