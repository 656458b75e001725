/-
Ipfrs.Knowledge.GraphModel — what a knowledge graph is, and what its blocks hold.

`GraphModel` is the graph without a store: a map from ids to entities and, for
each known subject, a list of relations. `Refines h index edges a` connects the
levels: under the two roots, the blocks `h` hold the model `a`. Under it every
read of the graph is a read of the model. It only asks that blocks are present, so
it holds of every earlier pair of roots too.

`Sound h` is the assumption all of this is under: no two different blocks share a
CID, and each block fits in memory.
-/
import Ipfrs.Knowledge.Graph
import Ipfrs.Knowledge.HamtMap

namespace Ipfrs.Knowledge

open Ipfrs.Core Ipfrs.Lib
open BlockStore.Faithful (history)

/-- The blocks of a run, as the code relies on them. -/
structure Sound (h : List Block) : Prop where
  free : CollisionFree h
  sized : ∀ b ∈ h, b.data.length < 2 ^ 64

instance (h : List Block) : Decidable (Sound h) :=
  decidable_of_iff (CollisionFree h ∧ ∀ b ∈ h, b.data.length < 2 ^ 64)
    ⟨fun hs => ⟨hs.1, hs.2⟩, fun hs => ⟨hs.free, hs.sized⟩⟩

theorem Sound.mono {h h' : List Block} (hs : Sound h') (hsub : ∀ b ∈ h, b ∈ h') : Sound h :=
  ⟨hs.free.mono hsub, fun b hb => hs.sized b (hsub b hb)⟩

/-! ## The model -/

/-- A relation, as `add_relation` stores it. -/
structure RelationSpec where
  subject : Cid
  predicate : String
  object : Cid
  evidence : List Cid
  weight : UInt32
  deriving DecidableEq

def RelationSpec.node (r : RelationSpec) : KnowledgeNode :=
  .relation r.subject r.predicate r.object r.evidence r.weight

/-- The node a stored relation is read as: the weight has been through binary64. -/
def RelationSpec.readNode (r : RelationSpec) : KnowledgeNode :=
  .relation r.subject r.predicate r.object r.evidence (f64ToF32 (f32ToF64 r.weight))

/-- A knowledge graph: each entity under its own id, relations only of known
subjects. -/
structure GraphModel [RustText] where
  entities : EntityId → Option EntitySpec
  relations : EntityId → List RelationSpec
  keyed : ∀ id spec, entities id = some spec → EntityId.of spec.kind spec.name = id
  known : ∀ id, relations id ≠ [] → (entities id).isSome

namespace GraphModel

variable [RustText]

def empty : GraphModel where
  entities _ := none
  relations _ := []
  keyed := by simp
  known := by simp

/-- Add or replace an entity. -/
def setEntity (a : GraphModel) (spec : EntitySpec) : GraphModel where
  entities := Function.update a.entities (EntityId.of spec.kind spec.name) (some spec)
  relations := a.relations
  keyed := by
    intro id spec' h
    by_cases hid : id = EntityId.of spec.kind spec.name
    · subst hid
      rw [Function.update_self] at h
      cases h
      rfl
    · rw [Function.update_of_ne hid] at h
      exact a.keyed id spec' h
  known := by
    intro id h
    by_cases hid : id = EntityId.of spec.kind spec.name
    · subst hid
      simp
    · rw [Function.update_of_ne hid]
      exact a.known id h

/-- Append a relation of a known subject. -/
def addRelation (a : GraphModel) (id : EntityId) (r : RelationSpec)
    (h : (a.entities id).isSome) : GraphModel where
  entities := a.entities
  relations := Function.update a.relations id (a.relations id ++ [r])
  keyed := a.keyed
  known := by
    intro id' h'
    by_cases hid : id' = id
    · subst hid
      exact h
    · rw [Function.update_of_ne hid] at h'
      exact a.known id' h'

/-- The evidence some relation of the graph cites. -/
def Cited (a : GraphModel) (ev : Cid) : Prop := ∃ id, ∃ r ∈ a.relations id, ev ∈ r.evidence

end GraphModel

/-! ## Its blocks -/

section

variable [CidCrate]

def relationBlock (r : RelationSpec) : Block := ipldBlock r.node.toIpld

def listBlock (rs : List RelationSpec) : Block :=
  ipldBlock (linkList (rs.map (fun r => (relationBlock r).cid)))

variable [RustText]

def entityBlock (spec : EntitySpec) : Block := ipldBlock (KnowledgeGraph.entityNode spec).toIpld

def GraphModel.indexMap (a : GraphModel) (id : EntityId) : Option Cid :=
  (a.entities id).map (fun spec => (entityBlock spec).cid)

def GraphModel.edgeMap (a : GraphModel) (id : EntityId) : Option Cid :=
  if a.relations id = [] then none else some (listBlock (a.relations id)).cid

/-- Under the two roots, the blocks `h` hold the model. -/
structure Refines (h : List Block) (index edges : Cid) (a : GraphModel) : Prop where
  index : Hamt.Represents h index a.indexMap
  edges : Hamt.Represents h edges a.edgeMap
  entity : ∀ id spec, a.entities id = some spec → entityBlock spec ∈ h
  relation : ∀ id, ∀ r ∈ a.relations id, relationBlock r ∈ h
  list : ∀ id, a.relations id ≠ [] → listBlock (a.relations id) ∈ h

theorem Refines.mono {h h' : List Block} (hsub : ∀ b ∈ h, b ∈ h') {index edges : Cid}
    {a : GraphModel} (hr : Refines h index edges a) : Refines h' index edges a where
  index := hr.index.mono hsub
  edges := hr.edges.mono hsub
  entity id spec hspec := hsub _ (hr.entity id spec hspec)
  relation id r hr' := hsub _ (hr.relation id r hr')
  list id hne := hsub _ (hr.list id hne)

/-! ## Reading -/

open KnowledgeGraph

variable [CidCrate.Lawful] {S : Type} [BlockStore S] [BlockStore.Faithful S]

omit [CidCrate] [RustText] [CidCrate.Lawful] in
theorem relationList_linkList (cids : List Cid) : relationList (linkList cids) = .ok cids := by
  have hlink : Ipld.asLink ∘ Ipld.link = some := rfl
  rw [linkList, relationList, List.filterMap_map, hlink, List.filterMap_some]

omit [RustText] in
theorem decode_relationBlock {r : RelationSpec} (h : (relationBlock r).data.length < 2 ^ 64) :
    KnowledgeNode.decode (relationBlock r).data = .ok r.readNode :=
  decode_ipldBlock h (fromIpld_relation _ _ _ _ _)

theorem decode_entityBlock {spec : EntitySpec} (h : (entityBlock spec).data.length < 2 ^ 64) :
    KnowledgeNode.decode (entityBlock spec).data = .ok (entityNode spec) :=
  decode_ipldBlock h (fromIpld_entity _ _ _ _ _ _)

omit [RustText] [CidCrate] [CidCrate.Lawful] in
theorem get_of_history {s : S} (hs : Sound (history s)) {b : Block} (hb : b ∈ history s) :
    BlockStore.get s b.cid = some b.data :=
  (get_eq_some_iff hs.free).mpr hb

omit [RustText] in
theorem getNode_relation {s : S} (hs : Sound (history s)) {r : RelationSpec}
    (hb : relationBlock r ∈ history s) : getNode s (relationBlock r).cid = .ok r.readNode := by
  rw [getNode, get_of_history hs hb]
  exact decode_relationBlock (hs.sized _ hb)

theorem getNode_entity {s : S} (hs : Sound (history s)) {spec : EntitySpec}
    (hb : entityBlock spec ∈ history s) :
    getNode s (entityBlock spec).cid = .ok (entityNode spec) := by
  rw [getNode, get_of_history hs hb]
  exact decode_entityBlock (hs.sized _ hb)

/-- Different entities have different CIDs. -/
theorem entityBlock_injective {h : List Block} (hs : Sound h) {spec spec' : EntitySpec}
    (hb : entityBlock spec ∈ h) (hb' : entityBlock spec' ∈ h)
    (hcid : (entityBlock spec).cid = (entityBlock spec').cid) :
    entityNode spec = entityNode spec' := by
  have hdata := hs.free _ hb _ hb' hcid
  have hd := decode_entityBlock (hs.sized _ hb)
  rw [hdata, decode_entityBlock (hs.sized _ hb')] at hd
  exact (Except.ok.inj hd).symm

variable {kg : KnowledgeGraph S} {a : GraphModel}

theorem entityCid_eq (hs : Sound (history kg.store))
    (hr : Refines (history kg.store) kg.index kg.edges a) (id : EntityId) :
    kg.entityCid id = .ok (a.indexMap id) :=
  Hamt.get_of_represents hs.free hr.index id

theorem getEntity_eq (hs : Sound (history kg.store))
    (hr : Refines (history kg.store) kg.index kg.edges a) (id : EntityId) :
    kg.getEntity id = .ok ((a.entities id).map entityNode) := by
  rw [getEntity, entityCid_eq hs hr, ok_bind, GraphModel.indexMap]
  cases hspec : a.entities id with
  | none => rfl
  | some spec =>
    simp only [Option.map_some, getNode_entity hs (hr.entity id spec hspec), ok_bind]

theorem relationCids_eq (hs : Sound (history kg.store))
    (hr : Refines (history kg.store) kg.index kg.edges a) (id : EntityId) :
    kg.relationCids id = .ok ((a.relations id).map (fun r => (relationBlock r).cid)) := by
  rw [relationCids, Hamt.get_of_represents hs.free hr.edges id, ok_bind, GraphModel.edgeMap]
  by_cases hnil : a.relations id = []
  · simp [hnil]
  · have hb := hr.list id hnil
    have hdecode : Ipld.fromDagCbor (listBlock (a.relations id)).data
        = .ok (linkList ((a.relations id).map (fun r => (relationBlock r).cid))) :=
      fromDagCbor_ipldBlock (linkList_shaped _) (hs.sized _ hb)
    simp only [if_neg hnil, get_of_history hs hb, hdecode, mapCore_ok, ok_bind,
      relationList_linkList]

theorem relationsOf_eq (hs : Sound (history kg.store))
    (hr : Refines (history kg.store) kg.index kg.edges a) (id : EntityId) : kg.relationsOf id
      = .ok ((a.relations id).map (fun r => ((relationBlock r).cid, r.readNode))) := by
  have hread : ∀ rs : List RelationSpec, (∀ r ∈ rs, relationBlock r ∈ history kg.store) →
      collectOk (fun c => do
        let node ← getNode kg.store c
        .ok (c, node)) (rs.map (fun r => (relationBlock r).cid))
      = .ok (rs.map (fun r => ((relationBlock r).cid, r.readNode))) := by
    intro rs
    induction rs with
    | nil => exact fun _ => rfl
    | cons r rs ih =>
      intro hall
      have hhead := getNode_relation hs (hall r List.mem_cons_self)
      have htail := ih (fun r' hr' => hall r' (List.mem_cons_of_mem _ hr'))
      simp only [List.map_cons, collectOk, hhead, ok_bind, htail]
  rw [relationsOf, relationCids_eq hs hr, ok_bind]
  exact hread _ (hr.relation id)

/-- The listing of a graph has each of its entities once. -/
theorem entityIds_of_refines (hs : Sound (history kg.store))
    (hr : Refines (history kg.store) kg.index kg.edges a) :
    ∃ ids n, ids.Nodup ∧ (∀ id, id ∈ ids ↔ (a.entities id).isSome) ∧
      ∀ rounds ≥ n, kg.entityIds rounds = some (.ok ids) := by
  obtain ⟨l, ⟨hnodup, hmem⟩, hleaves⟩ := Hamt.entries_of_represents (S := S) hr.index
  obtain ⟨n, hn⟩ := hleaves kg.store kg.index hs.free hr.index
  refine ⟨l.map Prod.fst, n, hnodup, ?_, ?_⟩
  · intro id
    constructor
    · intro h
      obtain ⟨⟨id', cid⟩, he, rfl⟩ := List.mem_map.mp h
      obtain ⟨spec, hspec, _⟩ := Option.map_eq_some_iff.mp ((hmem _ _).mp he)
      rw [hspec]
      rfl
    · intro h
      obtain ⟨spec, hspec⟩ := Option.isSome_iff_exists.mp h
      have hindex : a.indexMap id = some (entityBlock spec).cid := by
        rw [GraphModel.indexMap, hspec]
        rfl
      exact List.mem_map.mpr ⟨_, (hmem id _).mpr hindex, rfl⟩
  · intro rounds hrounds
    have hentries : Hamt.entries rounds kg.store kg.index = some (.ok l) :=
      Loop.run_mono hn hrounds
    rw [entityIds, hentries]
    rfl

end

end Ipfrs.Knowledge
