/-
Ipfrs.Knowledge.Vector — the vector index over the graph (`vector.rs`).

An embedding is a list of `f32` bit patterns. `VectorIndex` carries the length of
its embeddings as a field: `VectorIndex::add` asserts it, `decode` checks it.
Search over the index is not modelled.
-/
import Ipfrs.Knowledge.Node

namespace Ipfrs.Knowledge

open Ipfrs.Core Ipfrs.Lib

/-- `DEFAULT_DIM`. -/
def defaultDim : Nat := 256

/-! ## Embedding -/

/-- `slice::windows`. -/
def windows {α : Type} (n : Nat) (l : List α) : List (List α) :=
  (List.range (l.length + 1 - n)).map (fun i => (l.drop i).take n)

/-- FNV-1a over the code points of a trigram. -/
def trigramHash (w : List Char) : UInt64 :=
  w.foldl (fun h c => (h ^^^ c.val.toUInt64) * 0x1000000001b3) 0xcbf29ce484222325

/-- One round of `embed`: the sign is the top bit of the hash. -/
def addTrigram (dim : Nat) (v : List UInt32) (w : List Char) : List UInt32 :=
  let h := trigramHash w
  let idx := (h % UInt64.ofNat dim).toNat
  let sign := if (h >>> 63) &&& 1 = 1 then F32.negOne else F32.one
  v.modify idx (fun x => F32.add x sign)

/-- The Euclidean norm, summed from the left. -/
def magnitude (v : List UInt32) : UInt32 :=
  F32.sqrt (v.foldl (fun s x => F32.add s (F32.mul x x)) 0)

/-- `embed`. -/
def embed [RustText] (text : String) (dim : Nat) : List UInt32 :=
  let normalized := RustText.toLowercase (RustText.trim text)
  let chars := (" " ++ normalized ++ " ").toList
  let v := (windows 3 chars).foldl (addTrigram dim) (List.replicate dim 0)
  let mag := magnitude v
  if F32.isPos mag then v.map (fun x => F32.div x mag) else v

theorem length_embed [RustText] (text : String) (dim : Nat) : (embed text dim).length = dim := by
  have hfold : ∀ (ws : List (List Char)) (v : List UInt32),
      (ws.foldl (addTrigram dim) v).length = v.length := by
    intro ws
    induction ws with
    | nil => exact fun v => rfl
    | cons w ws ih =>
      intro v
      rw [List.foldl_cons, ih, addTrigram, List.length_modify]
  unfold embed
  simp only
  split
  · rw [List.length_map, hfold, List.length_replicate]
  · rw [hfold, List.length_replicate]

/-! ## The index -/

/-- `VectorIndex`. -/
@[ext]
structure VectorIndex where
  dim : Nat
  entries : List (Cid × List UInt32)
  length_eq : ∀ e ∈ entries, e.2.length = dim

namespace VectorIndex

/-- `VectorIndex::new`. -/
def new (dim : Nat) : VectorIndex where
  dim
  entries := []
  length_eq := by simp

/-- `VectorIndex::add`. -/
def add (ix : VectorIndex) (target : Cid) (emb : List UInt32) (h : emb.length = ix.dim) :
    VectorIndex where
  dim := ix.dim
  entries := ix.entries ++ [(target, emb)]
  length_eq := by
    intro e he
    rcases List.mem_append.mp he with he | he
    · exact ix.length_eq e he
    · rw [List.mem_singleton.mp he]
      exact h

/-- `VectorIndex::remove`. -/
def remove (ix : VectorIndex) (target : Cid) : VectorIndex where
  dim := ix.dim
  entries := ix.entries.filter (fun e => e.1 != target)
  length_eq e he := ix.length_eq e (List.mem_filter.mp he).1

/-- `VectorIndex::upsert`. -/
def upsert (ix : VectorIndex) (target : Cid) (emb : List UInt32) (h : emb.length = ix.dim) :
    VectorIndex :=
  (ix.remove target).add target emb h

/-- `upsert` of an embedded text. -/
def upsertText [RustText] (ix : VectorIndex) (target : Cid) (text : String) : VectorIndex :=
  ix.upsert target (embed text ix.dim) (length_embed text ix.dim)

/-- `VectorIndex::add_text`. -/
def addText [RustText] (ix : VectorIndex) (target : Cid) (text : String) : VectorIndex :=
  ix.add target (embed text ix.dim) (length_embed text ix.dim)

/-! ## Persistence -/

/-- The bytes of an embedding: `f32::to_le_bytes` of each component. -/
def embeddingBytes (emb : List UInt32) : List UInt8 := emb.flatMap (fun x => leBytes 4 x.toNat)

/-- `chunks_exact(4)` and `f32::from_le_bytes`. -/
def embeddingOfBytes : List UInt8 → List UInt32
  | a :: b :: c :: d :: rest => UInt32.ofNat (leNat [a, b, c, d]) :: embeddingOfBytes rest
  | _ => []

def entryToIpld (e : Cid × List UInt32) : Ipld :=
  .map (SortedAssoc.ofEntries [("c", .link e.1), ("v", .bytes (embeddingBytes e.2))])

def fields (ix : VectorIndex) : List (String × Ipld) :=
  [("@type", .string "vindex"), ("dim", .integer ix.dim),
    ("entries", .list (ix.entries.map entryToIpld))]

/-- `VectorIndex::to_ipld`. -/
def toIpld (ix : VectorIndex) : Ipld := .map (SortedAssoc.ofEntries ix.fields)

/-- `VectorIndex::encode`. -/
def encode [CidCrate] (ix : VectorIndex) : Except KError (Cid × List UInt8) :=
  encodeBlock ix.toIpld

/-- `VectorIndex::store`. -/
def store [CidCrate] {S : Type} [BlockStore S] (ix : VectorIndex) : EStateM KError S Cid :=
  putEncoded ix.encode

/-- One entry of `VectorIndex::decode`. -/
def entryFromIpld (dim : Nat) :
    Ipld → Except KError { e : Cid × List UInt32 // e.2.length = dim }
  | .map m =>
    match (Ipld.field m "c").bind Ipld.asLink with
    | none => .error (.decode "vindex entry missing cid")
    | some cid =>
      match Ipld.field m "v" with
      | some (.bytes b) =>
        if h : (embeddingOfBytes b).length = dim then .ok ⟨(cid, embeddingOfBytes b), h⟩
        else .error (.decode "vindex entry vector length != dim")
      | _ => .error (.decode "vindex entry missing vec")
  | _ => .error (.decode "vindex entry not a map")

/-- The `dim` of `VectorIndex::decode`: a divisor and an allocation size. -/
def dimFromIpld : Option Ipld → Except KError Nat
  | some (.integer n) =>
    if 1 ≤ n ∧ n ≤ 65536 then .ok n.toNat
    else .error (.decode "vindex dim out of range")
  | _ => .error (.decode "vindex missing dim")

/-- `VectorIndex::decode`. -/
def decode [CidCrate] (bytes : List UInt8) : Except KError VectorIndex := do
  let ipld ← mapCore (Ipld.fromDagCbor bytes)
  match ipld with
  | .map m => do
      let dim ← dimFromIpld (Ipld.field m "dim")
      match Ipld.field m "entries" with
      | some (.list l) => do
          let entries ← collectOk (entryFromIpld dim) l
          .ok { dim, entries := entries.map Subtype.val
                length_eq := by
                  intro e he
                  obtain ⟨e', _, rfl⟩ := List.mem_map.mp he
                  exact e'.2 }
      | _ => .error (.decode "vindex missing entries")
  | _ => .error (.decode "vindex not a map")

end VectorIndex

/-! ## Texts -/

/-- `node_text`. -/
def nodeText : KnowledgeNode → Option String
  | .entity _ _ name aliases attrs _ =>
    let t := aliases.foldl (fun t a => t ++ " " ++ a) name
    some (attrs.1.foldl (fun t e => t ++ " " ++ e.2) t)
  | .concept name definition _ _ => some (name ++ " " ++ definition)
  | .observation _ statement _ _ => some statement
  | .hypothesis claim _ _ _ _ => some claim
  | .relation _ predicate _ _ _ => some predicate
  | .evidence .. => none

/-- `block_text`. -/
def blockText [CidCrate] (bytes : List UInt8) : Option String :=
  match KnowledgeNode.decode bytes with
  | .ok node => nodeText node
  | .error _ =>
    match Ipld.fromDagCbor bytes with
    | .ok (.string s) => some s
    | _ => none

end Ipfrs.Knowledge

/-! ## The index as a map, and its block

Entries are read through membership: `remove` and `upsert` change the entries of
one target, and keep at most one entry per target. An index whose dimension is in
the accepted range is read back from its block with its entries in order. -/

namespace Ipfrs.Knowledge.VectorIndex

open Ipfrs.Core Ipfrs.Lib

variable {ix : VectorIndex} {target : Cid} {emb : List UInt32} {e : Cid × List UInt32}

/-- At most one entry per target. -/
def Distinct (ix : VectorIndex) : Prop := (ix.entries.map Prod.fst).Nodup

theorem mem_remove : e ∈ (ix.remove target).entries ↔ e.1 ≠ target ∧ e ∈ ix.entries := by
  simp [remove, and_comm]

theorem mem_add {h : emb.length = ix.dim} :
    e ∈ (ix.add target emb h).entries ↔ e = (target, emb) ∨ e ∈ ix.entries := by
  simp [add, or_comm]

theorem mem_upsert {h : emb.length = ix.dim} : e ∈ (ix.upsert target emb h).entries ↔
      e = (target, emb) ∨ (e.1 ≠ target ∧ e ∈ ix.entries) :=
  mem_add.trans (or_congr Iff.rfl mem_remove)

theorem Distinct.remove (hd : ix.Distinct) (target : Cid) : (ix.remove target).Distinct := by
  unfold Distinct VectorIndex.remove
  exact (List.filter_sublist.map Prod.fst).nodup hd

theorem Distinct.add (hd : ix.Distinct) (h : emb.length = ix.dim)
    (hnew : ∀ e ∈ ix.entries, e.1 ≠ target) : (ix.add target emb h).Distinct := by
  unfold Distinct VectorIndex.add
  rw [List.map_append, List.nodup_append]
  refine ⟨hd, List.nodup_singleton _, ?_⟩
  intro a ha b hb
  obtain ⟨e, he, rfl⟩ := List.mem_map.mp ha
  rw [List.mem_singleton.mp hb]
  exact hnew e he

theorem Distinct.upsert (hd : ix.Distinct) (h : emb.length = ix.dim) :
    (ix.upsert target emb h).Distinct := by
  refine (hd.remove target).add h ?_
  intro e he
  exact (mem_remove.mp he).1

section

variable [RustText] {text : String}

theorem mem_addText :
    e ∈ (ix.addText target text).entries ↔ e = (target, embed text ix.dim) ∨ e ∈ ix.entries :=
  mem_add

theorem mem_upsertText : e ∈ (ix.upsertText target text).entries ↔
      e = (target, embed text ix.dim) ∨ (e.1 ≠ target ∧ e ∈ ix.entries) :=
  mem_upsert

theorem Distinct.addText (hd : ix.Distinct) (hnew : ∀ e ∈ ix.entries, e.1 ≠ target) :
    (ix.addText target text).Distinct :=
  hd.add _ hnew

theorem Distinct.upsertText (hd : ix.Distinct) : (ix.upsertText target text).Distinct :=
  hd.upsert _

end

/-! ## The block -/

theorem embeddingOfBytes_embeddingBytes (emb : List UInt32) :
    embeddingOfBytes (embeddingBytes emb) = emb := by
  induction emb with
  | nil => rfl
  | cons x rest ih =>
    have hx : leNat (leBytes 4 x.toNat) = x.toNat :=
      leNat_leBytes_of_lt (by simpa using x.toNat_lt)
    show UInt32.ofNat (leNat (leBytes 4 x.toNat)) :: embeddingOfBytes (embeddingBytes rest) = _
    rw [hx, ih, UInt32.ofNat_toNat]

theorem entryFromIpld_entryToIpld {dim : Nat} (e : { e : Cid × List UInt32 // e.2.length = dim }) :
    entryFromIpld dim (entryToIpld e.1) = .ok e := by
  obtain ⟨⟨cid, emb⟩, h⟩ := e
  simp [entryToIpld, entryFromIpld, field_ofEntries, embeddingOfBytes_embeddingBytes, h]

/-- The dimensions `decode` accepts. -/
def DimOk (ix : VectorIndex) : Prop := 1 ≤ ix.dim ∧ ix.dim ≤ 65536

theorem toIpld_shaped (h : ix.DimOk) : ix.toIpld.Shaped Ipld.CborInt := by
  refine .ofEntries ?_
  intro e he
  simp only [fields, List.mem_cons, List.not_mem_nil, or_false] at he
  rcases he with rfl | rfl | rfl
  · exact .string _
  · refine .integer _ ?_
    have hle := h.2
    unfold Ipld.CborInt
    omega
  · refine .list _ ?_
    intro v hv
    obtain ⟨a, _, rfl⟩ := List.mem_map.mp hv
    refine .ofEntries ?_
    intro f hf
    simp only [List.mem_cons, List.not_mem_nil, or_false] at hf
    rcases hf with rfl | rfl
    · exact .link _
    · exact .bytes _

theorem decode_ipldBlock [CidCrate] [CidCrate.Lawful] (h : ix.DimOk)
    (hsize : (ipldBlock ix.toIpld).data.length < 2 ^ 64) :
    VectorIndex.decode (ipldBlock ix.toIpld).data = .ok ix := by
  have hdim : dimFromIpld (some (.integer ix.dim)) = .ok ix.dim := by
    have h1 := h.1
    have h2 := h.2
    have hrange : (1 : Int) ≤ ix.dim ∧ (ix.dim : Int) ≤ 65536 := by omega
    simp [dimFromIpld, hrange]
  -- the entries with the proof of their length, as the decoder makes them
  have hentries : collectOk (entryFromIpld ix.dim) (ix.entries.map entryToIpld)
      = .ok (ix.entries.attachWith _ ix.length_eq) := by
    have hmap : ix.entries.map entryToIpld
        = (ix.entries.attachWith _ ix.length_eq).map (fun e => entryToIpld e.1) := by
      rw [List.map_attachWith]
      simp
    rw [hmap]
    exact collectOk_map entryFromIpld_entryToIpld _
  have hfieldDim : Ipld.field (SortedAssoc.ofEntries ix.fields) "dim"
      = some (.integer ix.dim) := field_ofEntries _ _
  have hfieldEntries : Ipld.field (SortedAssoc.ofEntries ix.fields) "entries"
      = some (.list (ix.entries.map entryToIpld)) := field_ofEntries _ _
  rw [VectorIndex.decode, fromDagCbor_ipldBlock (toIpld_shaped h) hsize]
  simp only [mapCore_ok, ok_bind, toIpld, hfieldDim, hdim, hfieldEntries, hentries]
  congr 1
  exact VectorIndex.ext rfl (List.attachWith_map_subtype_val ix.length_eq)

end Ipfrs.Knowledge.VectorIndex
