/-
Ipfrs.Knowledge.Graph — the knowledge graph over a block store (`graph.rs`), and
the index built from it (`index_graph` of `vector.rs`).

The mutating operations run over the whole graph as `EStateM`, since `&mut self`
keeps what was changed when a call fails. The bridge to `petgraph` is in
`Ipfrs.Knowledge.Petgraph`; search is not modelled.
-/
import Ipfrs.Knowledge.Hamt
import Ipfrs.Knowledge.Vector

namespace Ipfrs.Knowledge

open Ipfrs.Core Ipfrs.Lib

/-- `EntitySpec`. -/
structure EntitySpec where
  kind : String
  name : String
  aliases : List String := []
  attrs : StringMap := ⟨[], SortedAssoc.sorted_nil⟩
  deriving DecidableEq

/-- `KnowledgeGraph`. -/
structure KnowledgeGraph (S : Type) where
  store : S
  index : Cid
  edges : Cid
  prev : Option Cid
  vindex : VectorIndex

/-- A program over the graph's store. -/
def onStore {S α : Type} (m : EStateM KError S α) : EStateM KError (KnowledgeGraph S) α :=
  fun kg =>
    match m kg.store with
    | .ok a store => .ok a { kg with store }
    | .error e store => .error e { kg with store }

namespace KnowledgeGraph

variable [CidCrate] {S : Type} [BlockStore S]

/-! ## Opening -/

/-- `KnowledgeGraph::new`. -/
def new (store : S) : Except KError (KnowledgeGraph S) :=
  match (do
    let index ← Hamt.empty
    let edges ← Hamt.empty
    pure (index, edges) : EStateM KError S (Cid × Cid)) store with
  | .ok (index, edges) store =>
    .ok { store, index, edges, prev := none, vindex := VectorIndex.new defaultDim }
  | .error e _ => .error e

/-- A link field of the head. -/
def headLink (m : IpldMap) (k : String) : Except KError Cid :=
  match (Ipld.field m k).bind Ipld.asLink with
  | some cid => .ok cid
  | none => .error (.decode ("head missing " ++ k))

/-- The index a head names; a head without one has an empty index. -/
def headVindex (store : S) (m : IpldMap) : Except KError VectorIndex :=
  match (Ipld.field m "vindex").bind Ipld.asLink with
  | some vc =>
    match BlockStore.get store vc with
    | some vb => VectorIndex.decode vb
    | none => .error (.notFound "vindex" (some vc))
  | none => .ok (VectorIndex.new defaultDim)

/-- `KnowledgeGraph::open`. -/
def openHead (store : S) (head : Cid) : Except KError (KnowledgeGraph S) :=
  match BlockStore.get store head with
  | none => .error (.notFound "head" (some head))
  | some bytes => do
      let ipld ← mapCore (Ipld.fromDagCbor bytes)
      match ipld with
      | .map m => do
          let index ← headLink m "index"
          let edges ← headLink m "edges"
          let vindex ← headVindex store m
          .ok { store, index, edges, prev := some head, vindex }
      | _ => .error (.decode "head not a map")

/-! ## Reading -/

/-- `get_node`. -/
def getNode (store : S) (cid : Cid) : Except KError KnowledgeNode :=
  match BlockStore.get store cid with
  | some bytes => KnowledgeNode.decode bytes
  | none => .error (.notFound "node" (some cid))

/-- `entity_cid`. -/
def entityCid (kg : KnowledgeGraph S) (id : EntityId) : Except KError (Option Cid) :=
  Hamt.get kg.store kg.index id

/-- `get_entity`. -/
def getEntity (kg : KnowledgeGraph S) (id : EntityId) : Except KError (Option KnowledgeNode) := do
  match ← kg.entityCid id with
  | some cid => do
      let node ← getNode kg.store cid
      .ok (some node)
  | none => .ok none

/-- The links of a list of relations. -/
def relationList (ipld : Ipld) : Except KError (List Cid) :=
  match ipld with
  | .list l => .ok (l.filterMap Ipld.asLink)
  | _ => .error (.decode "rel list not a list")

/-- `relation_cids`. -/
def relationCids (kg : KnowledgeGraph S) (id : EntityId) : Except KError (List Cid) := do
  match ← Hamt.get kg.store kg.edges id with
  | none => .ok []
  | some listCid =>
    match BlockStore.get kg.store listCid with
    | none => .error (.notFound "rel list" none)
    | some bytes => do
        let ipld ← mapCore (Ipld.fromDagCbor bytes)
        relationList ipld

/-- `relations_of`. -/
def relationsOf (kg : KnowledgeGraph S) (id : EntityId) :
    Except KError (List (Cid × KnowledgeNode)) := do
  let cids ← kg.relationCids id
  collectOk (fun c => do
    let node ← getNode kg.store c
    .ok (c, node)) cids

/-- `entity_ids`, with `rounds` rounds for the listing. -/
def entityIds (rounds : Nat) (kg : KnowledgeGraph S) : Option (Except KError (List EntityId)) :=
  (Hamt.entries rounds kg.store kg.index).map (fun r => r.map (fun l => l.map Prod.fst))

/-- The text of the source of an evidence node, if there is one. -/
def evidenceText (store : S) (ev : Cid) : Option String :=
  match getNode store ev with
  | .ok (.evidence source _ _ _) => (BlockStore.get store source).bind blockText
  | _ => none

/-! ## Changing -/

/-- `put_node`. -/
def putNode (node : KnowledgeNode) : EStateM KError (KnowledgeGraph S) Cid :=
  onStore (putEncoded node.encode)

variable [RustText]

/-- The node `add_entity` stores. -/
def entityNode (spec : EntitySpec) : KnowledgeNode :=
  .entity (.of spec.kind spec.name) spec.kind spec.name spec.aliases spec.attrs []

/-- The index without the stale embedding, if there is one. -/
def evict (previous : Option Cid) (ix : VectorIndex) : VectorIndex :=
  match previous with
  | some old => ix.remove old
  | none => ix

/-- The index after an entity's node has replaced the one before. -/
def reindexEntity (previous : Option Cid) (cid : Cid) (node : KnowledgeNode) (ix : VectorIndex) :
    VectorIndex :=
  match nodeText node with
  | some text => (evict previous ix).upsertText cid text
  | none => evict previous ix

/-- `add_entity`. -/
def addEntity (spec : EntitySpec) : EStateM KError (KnowledgeGraph S) EntityId := do
  let id := EntityId.of spec.kind spec.name
  let previous ← readM (fun kg => kg.entityCid id)
  let node := entityNode spec
  let cid ← putNode node
  let kg ← MonadState.get
  let index ← onStore (Hamt.insert kg.index id cid)
  modify (fun kg => { kg with index, vindex := reindexEntity previous cid node kg.vindex })
  pure id

/-- An entity an operation needs. -/
def requireEntity (id : EntityId) (missing : String) (kg : KnowledgeGraph S) :
    Except KError Cid := do
  match ← kg.entityCid id with
  | some cid => .ok cid
  | none => .error (.graph missing)

/-- One evidence of `add_relation`: its text is indexed under its own CID. -/
def citeEvidence (store : S) (ix : VectorIndex) (ev : Cid) : VectorIndex :=
  match evidenceText store ev with
  | some text => ix.upsertText ev text
  | none => ix

/-- The end of `add_relation`: the subject's relation list with one more CID. -/
def appendRelation (subject : EntityId) (relCid : Cid) :
    EStateM KError (KnowledgeGraph S) Unit := do
  let list ← readM (fun kg => kg.relationCids subject)
  let listCid ← onStore (putEncoded (encodeBlock (linkList (list ++ [relCid]))))
  let kg ← MonadState.get
  let edges ← onStore (Hamt.insert kg.edges subject listCid)
  modify (fun kg => { kg with edges })

/-- `add_relation`. -/
def addRelation (subject : EntityId) (predicate : String) (object : EntityId) (weight : UInt32)
    (evidence : List Cid) : EStateM KError (KnowledgeGraph S) Cid := do
  let subjCid ← readM (requireEntity subject "subject entity not found")
  let objCid ← readM (requireEntity object "object entity not found")
  modify (fun kg => { kg with vindex := evidence.foldl (citeEvidence kg.store) kg.vindex })
  let relCid ← putNode (.relation subjCid predicate objCid evidence weight)
  appendRelation subject relCid
  pure relCid

/-- The value of a head. -/
def headIpld (index edges vindex : Cid) (prev : Option Cid) : Ipld :=
  .map (SortedAssoc.ofEntries
    ([("@type", .string "KnowledgeRoot"), ("version", .integer 1), ("index", .link index),
        ("edges", .link edges), ("vindex", .link vindex)]
      ++ prev.toList.map (fun p => ("prev", .link p))))


/-- `commit`. -/
def commit : EStateM KError (KnowledgeGraph S) Cid := do
  let kg ← MonadState.get
  let vcid ← onStore kg.vindex.store
  let cid ← onStore (putEncoded (encodeBlock (headIpld kg.index kg.edges vcid kg.prev)))
  modify (fun kg => { kg with prev := some cid })
  pure cid

/-! ## Indexing from scratch -/

/-- The index so far and the evidence seen. -/
structure IndexState where
  ix : VectorIndex
  seenEv : List Cid := []

/-- One evidence of `index_graph`. -/
def indexEvidence (store : S) (st : IndexState) (ev : Cid) : IndexState :=
  if ev ∈ st.seenEv then st
  else
    { seenEv := ev :: st.seenEv
      ix := match evidenceText store ev with
        | some text => st.ix.addText ev text
        | none => st.ix }

/-- One relation of `index_graph`. -/
def indexRelation (store : S) (st : IndexState) (rel : Cid × KnowledgeNode) : IndexState :=
  match rel.2 with
  | .relation _ _ _ evidence _ => evidence.foldl (indexEvidence store) st
  | _ => st

/-- The entity part of a round of `index_graph`. -/
def indexEntity (kg : KnowledgeGraph S) (ix : VectorIndex) (id : EntityId) :
    Except KError VectorIndex := do
  match ← kg.getEntity id with
  | none => .ok ix
  | some node =>
    match nodeText node with
    | none => .ok ix
    | some text =>
      match ← kg.entityCid id with
      | some cid => .ok (ix.addText cid text)
      | none => .error (.graph "indexed entity has a cid")

/-- The rounds of `index_graph`. -/
def indexIds (kg : KnowledgeGraph S) : List EntityId → IndexState → Except KError IndexState
  | [], st => .ok st
  | id :: ids, st => do
      let ix ← indexEntity kg st.ix id
      let rels ← kg.relationsOf id
      indexIds kg ids (rels.foldl (indexRelation kg.store) { st with ix })

/-- `index_graph`, with `rounds` rounds for the listing of the entities. -/
def indexGraph (rounds : Nat) (kg : KnowledgeGraph S) (dim : Nat) :
    Option (Except KError VectorIndex) :=
  (kg.entityIds rounds).map (fun r => do
    let ids ← r
    let st ← indexIds kg ids { ix := VectorIndex.new dim }
    .ok st.ix)

end KnowledgeGraph

end Ipfrs.Knowledge
