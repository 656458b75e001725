/-
Ipfrs.Knowledge.GraphTheorems — the operations of the graph refine the model.

Each operation is given as what it does to a graph that refines a model: the graph
refines the changed model, no block is lost, and the vector index is what the
operation makes of it. Failures are named: only `add_relation` fails, on a missing
entity, and then nothing has changed. A committed head is read back as the graph
it was made from (`openHead_of_committed`).
-/
import Ipfrs.Knowledge.GraphModel

namespace Ipfrs.Knowledge

open Ipfrs.Core Ipfrs.Lib
open BlockStore.Faithful (history)

namespace KnowledgeGraph

section

variable {S α : Type} [BlockStore S] [BlockStore.Faithful S] {H : List Block}

/-- The blocks written so far. -/
def log (kg : KnowledgeGraph S) : List Block := history kg.store

/-- A program over the store leaves the rest of the graph alone. -/
theorem onStore_triple {m : EStateM KError S α} {kg : KnowledgeGraph S} {Q : α → S → Prop}
    (h : Triple history H m kg.store Q (fun _ _ => False)) :
    Triple log H (onStore m) kg (fun a kg' => ∃ s, kg' = { kg with store := s } ∧ Q a s)
      (fun _ _ => False) := by
  unfold Triple onStore at *
  cases hrun : m kg.store with
  | ok a s =>
    rw [hrun] at h
    exact fun hlog => ⟨s, rfl, h hlog⟩
  | error e s =>
    rw [hrun] at h
    exact fun hlog => h hlog

/-- The store with the block of a value. -/
def putIpld [CidCrate] (kg : KnowledgeGraph S) (v : Ipld) : KnowledgeGraph S :=
  { kg with store := BlockStore.put kg.store (ipldBlock v).cid (ipldBlock v).data }

omit [BlockStore.Faithful S] in
theorem onStore_putEncoded_run [CidCrate] (v : Ipld) (kg : KnowledgeGraph S) :
    onStore (putEncoded (encodeBlock v)) kg = .ok (ipldBlock v).cid (kg.putIpld v) := by
  unfold onStore
  rw [putEncoded_run]
  rfl

theorem log_putIpld [CidCrate] (v : Ipld) (kg : KnowledgeGraph S) :
    (kg.putIpld v).log = ipldBlock v :: kg.log :=
  BlockStore.Faithful.history_put _ _ _

theorem mem_log_putIpld [CidCrate] (v : Ipld) (kg : KnowledgeGraph S) :
    ipldBlock v ∈ (kg.putIpld v).log := by
  rw [log_putIpld]
  exact List.mem_cons_self

theorem log_subset_putIpld [CidCrate] (v : Ipld) (kg : KnowledgeGraph S) :
    ∀ b ∈ kg.log, b ∈ (kg.putIpld v).log := by
  intro b hb
  rw [log_putIpld]
  exact List.mem_cons_of_mem _ hb

omit [BlockStore.Faithful S] in
theorem putNode_run [CidCrate] (node : KnowledgeNode) (kg : KnowledgeGraph S) :
    putNode node kg = .ok (ipldBlock node.toIpld).cid (kg.putIpld node.toIpld) :=
  onStore_putEncoded_run _ kg

end

section

variable [CidCrate] [RustText] {S : Type} [BlockStore S] [BlockStore.Faithful S]

/-! ## The operations change the store only by puts -/

section

variable {I : S → Prop} (hI : PutClosed I)
include hI

/-- A property of the store, as one of the graph. -/
def OfStore (I : S → Prop) (kg : KnowledgeGraph S) : Prop := I kg.store

omit [CidCrate] [RustText] [BlockStore S] [BlockStore.Faithful S] hI in
theorem onStore_keeps {α : Type} {m : EStateM KError S α} (hm : Keeps I m) :
    Keeps (OfStore I) (onStore m) := by
  intro kg hkg
  have hkg' := hm kg.store hkg
  unfold onStore
  cases hrun : m kg.store with
  | ok a s => rwa [hrun] at hkg'
  | error e s => rwa [hrun] at hkg'

omit [CidCrate] [RustText] [BlockStore S] [BlockStore.Faithful S] hI in
theorem modify_keeps {f : KnowledgeGraph S → KnowledgeGraph S}
    (hf : ∀ kg, (f kg).store = kg.store) :
    Keeps (OfStore I) (modify f : EStateM KError (KnowledgeGraph S) Unit) := by
  refine Keeps.modify ?_
  intro kg hkg
  show I (f kg).store
  rw [hf]
  exact hkg

omit [RustText] [BlockStore.Faithful S] in
theorem putNode_keeps (node : KnowledgeNode) :
    Keeps (OfStore I) (putNode node : EStateM KError (KnowledgeGraph S) Cid) :=
  onStore_keeps (putEncoded_keeps hI _)

omit [BlockStore.Faithful S] in
theorem addEntity_keeps (spec : EntitySpec) :
    Keeps (OfStore I) (addEntity spec : EStateM KError (KnowledgeGraph S) EntityId) := by
  refine Keeps.bind (Keeps.readM _) (fun previous => ?_)
  refine Keeps.bind (putNode_keeps hI _) (fun cid => Keeps.bind Keeps.get (fun kg => ?_))
  refine Keeps.bind (onStore_keeps (Hamt.insert_keeps hI _ _ _)) (fun index => ?_)
  exact Keeps.bind (modify_keeps (fun _ => rfl)) (fun _ => Keeps.pure _)

omit [RustText] [BlockStore.Faithful S] in
theorem appendRelation_keeps (subject : EntityId) (relCid : Cid) :
    Keeps (OfStore I) (appendRelation subject relCid : EStateM KError (KnowledgeGraph S) Unit) := by
  refine Keeps.bind (Keeps.readM _) (fun list => ?_)
  refine Keeps.bind (onStore_keeps (putEncoded_keeps hI _)) (fun listCid => ?_)
  refine Keeps.bind Keeps.get (fun kg => ?_)
  refine Keeps.bind (onStore_keeps (Hamt.insert_keeps hI _ _ _)) (fun edges => ?_)
  exact modify_keeps (fun _ => rfl)

omit [BlockStore.Faithful S] in
theorem addRelation_keeps (subject : EntityId) (predicate : String) (object : EntityId)
    (weight : UInt32) (evidence : List Cid) :
    Keeps (OfStore I) (addRelation subject predicate object weight evidence :
      EStateM KError (KnowledgeGraph S) Cid) := by
  refine Keeps.bind (Keeps.readM _) (fun subjCid => Keeps.bind (Keeps.readM _) (fun objCid => ?_))
  refine Keeps.bind (modify_keeps (fun _ => rfl)) (fun _ => ?_)
  refine Keeps.bind (putNode_keeps hI _) (fun relCid => ?_)
  exact Keeps.bind (appendRelation_keeps hI _ _) (fun _ => Keeps.pure _)

omit [RustText] [BlockStore.Faithful S] in
theorem commit_keeps : Keeps (OfStore I) (commit : EStateM KError (KnowledgeGraph S) Cid) := by
  refine Keeps.bind Keeps.get (fun kg => ?_)
  refine Keeps.bind (onStore_keeps (putEncoded_keeps hI _)) (fun vcid => ?_)
  refine Keeps.bind (onStore_keeps (putEncoded_keeps hI _)) (fun cid => ?_)
  exact Keeps.bind (modify_keeps (fun _ => rfl)) (fun _ => Keeps.pure _)

end

omit [CidCrate] [RustText] in
/-- So no operation loses a block. -/
theorem grows_of_keeps {α : Type} {m : EStateM KError (KnowledgeGraph S) α}
    (h : ∀ I : S → Prop, PutClosed I → Keeps (OfStore I) m) : Grows log m :=
  fun b => h _ (putClosed_mem b)

/-! ## Entities -/

variable [CidCrate.Lawful] {H : List Block} {kg : KnowledgeGraph S} {a : GraphModel}

omit [BlockStore S] [BlockStore.Faithful S] [CidCrate.Lawful] in
theorem indexMap_setEntity (a : GraphModel) (spec : EntitySpec) : (a.setEntity spec).indexMap
      = Function.update a.indexMap (EntityId.of spec.kind spec.name)
          (some (entityBlock spec).cid) := by
  funext id
  by_cases hid : id = EntityId.of spec.kind spec.name
  · subst hid
    simp [GraphModel.indexMap, GraphModel.setEntity]
  · simp [GraphModel.indexMap, GraphModel.setEntity, hid]

omit [CidCrate.Lawful] in
/-- The blocks of a model with one more entity. -/
theorem refines_setEntity {h h' : List Block} {index index' edges : Cid} {spec : EntitySpec}
    (hr : Refines h index edges a) (hsub : ∀ b ∈ h, b ∈ h') (hb : entityBlock spec ∈ h')
    (hindex : Hamt.Represents h' index' (a.setEntity spec).indexMap) :
    Refines h' index' edges (a.setEntity spec) where
  index := hindex
  edges := hr.edges.mono hsub
  entity id spec' hspec := by
    by_cases hid : id = EntityId.of spec.kind spec.name
    · subst hid
      simp only [GraphModel.setEntity, Function.update_self] at hspec
      cases hspec
      exact hb
    · simp only [GraphModel.setEntity, Function.update_of_ne hid] at hspec
      exact hsub _ (hr.entity id spec' hspec)
  relation id r hr' := hsub _ (hr.relation id r hr')
  list id hne := hsub _ (hr.list id hne)

/-- **`add_entity`** sets the entity of its id. -/
theorem addEntity_triple (hH : Sound H) (hr : Refines kg.log kg.index kg.edges a)
    (spec : EntitySpec) : Triple log H (addEntity spec) kg
      (fun id kg' => id = EntityId.of spec.kind spec.name ∧
        Refines kg'.log kg'.index kg'.edges (a.setEntity spec) ∧
        kg'.vindex = reindexEntity (a.indexMap id) (entityBlock spec).cid (entityNode spec)
          kg.vindex ∧ ∀ b ∈ kg.log, b ∈ kg'.log) (fun _ _ => False) := by
  refine Triple.start (grows_of_keeps (fun _ hI => addEntity_keeps hI spec)) (fun hbound => ?_)
  have hs : Sound kg.log := hH.mono hbound
  refine Triple.step (readM_ok (entityCid_eq hs hr _)) ?_
  refine Triple.step (putNode_run _ kg) (Triple.step rfl ?_)
  have hsub := log_subset_putIpld (entityNode spec).toIpld kg
  refine Triple.bind (onStore_triple (Hamt.insert_triple hH.free (hr.index.mono hsub) _ _))
    (fun _ => grows_of_keeps (fun _ _ =>
      Keeps.bind (modify_keeps (fun _ => rfl)) (fun _ => Keeps.pure _))) ?_
  rintro index _ _ ⟨s, rfl, hrep, hsub'⟩
  refine Triple.of_ok rfl (fun _ => ?_)
  have hall : ∀ b ∈ kg.log, b ∈ history s := fun b hb => hsub' b (hsub b hb)
  refine ⟨rfl, refines_setEntity hr hall (hsub' _ (mem_log_putIpld _ _)) ?_, rfl, hall⟩
  rw [indexMap_setEntity]
  exact hrep

/-! ## Relations -/

omit [BlockStore S] [BlockStore.Faithful S] [CidCrate.Lawful] in
theorem edgeMap_addRelation (a : GraphModel) (id : EntityId) (r : RelationSpec)
    (hk : (a.entities id).isSome) : (a.addRelation id r hk).edgeMap
      = Function.update a.edgeMap id (some (listBlock (a.relations id ++ [r])).cid) := by
  funext id'
  by_cases hid : id' = id
  · subst hid
    simp [GraphModel.edgeMap, GraphModel.addRelation]
  · simp [GraphModel.edgeMap, GraphModel.addRelation, hid]

omit [CidCrate.Lawful] in
/-- The blocks of a model with one more relation. -/
theorem refines_addRelation {h h' : List Block} {index edges edges' : Cid} {id : EntityId}
    {r : RelationSpec} (hk : (a.entities id).isSome) (hr : Refines h index edges a)
    (hsub : ∀ b ∈ h, b ∈ h') (hb : relationBlock r ∈ h')
    (hlist : listBlock (a.relations id ++ [r]) ∈ h')
    (hedges : Hamt.Represents h' edges' (a.addRelation id r hk).edgeMap) :
    Refines h' index edges' (a.addRelation id r hk) where
  index := hr.index.mono hsub
  edges := hedges
  entity id' spec hspec := hsub _ (hr.entity id' spec hspec)
  relation id' r' hr' := by
    by_cases hid : id' = id
    · subst hid
      simp only [GraphModel.addRelation, Function.update_self, List.mem_append,
        List.mem_singleton] at hr'
      rcases hr' with hr' | rfl
      · exact hsub _ (hr.relation id' r' hr')
      · exact hb
    · simp only [GraphModel.addRelation, Function.update_of_ne hid] at hr'
      exact hsub _ (hr.relation id' r' hr')
  list id' hne := by
    by_cases hid : id' = id
    · subst hid
      simp only [GraphModel.addRelation, Function.update_self]
      exact hlist
    · simp only [GraphModel.addRelation, Function.update_of_ne hid] at hne ⊢
      exact hsub _ (hr.list id' hne)

theorem appendRelation_triple (hH : Sound H) (hr : Refines kg.log kg.index kg.edges a)
    {id : EntityId} (hk : (a.entities id).isSome) {r : RelationSpec}
    (hb : relationBlock r ∈ kg.log) : Triple log H (appendRelation id (relationBlock r).cid) kg
      (fun _ kg' => Refines kg'.log kg'.index kg'.edges (a.addRelation id r hk) ∧
        kg'.vindex = kg.vindex ∧ ∀ b ∈ kg.log, b ∈ kg'.log) (fun _ _ => False) := by
  refine Triple.start (grows_of_keeps (fun _ hI => appendRelation_keeps hI id _)) (fun hbound => ?_)
  have hs : Sound kg.log := hH.mono hbound
  refine Triple.step (readM_ok (relationCids_eq hs hr id)) ?_
  have hcids : (a.relations id).map (fun r => (relationBlock r).cid) ++ [(relationBlock r).cid]
      = (a.relations id ++ [r]).map (fun r => (relationBlock r).cid) := by
    simp
  rw [hcids]
  refine Triple.step (onStore_putEncoded_run _ kg) (Triple.step rfl ?_)
  have hsub := log_subset_putIpld
    (linkList ((a.relations id ++ [r]).map (fun r => (relationBlock r).cid))) kg
  refine Triple.bind (onStore_triple (Hamt.insert_triple hH.free (hr.edges.mono hsub) _ _))
    (fun _ => grows_of_keeps (fun _ _ => modify_keeps (fun _ => rfl))) ?_
  rintro edges _ _ ⟨s, rfl, hrep, hsub'⟩
  refine Triple.of_ok rfl (fun _ => ?_)
  have hall : ∀ b ∈ kg.log, b ∈ history s := fun b hb => hsub' b (hsub b hb)
  refine ⟨refines_addRelation hk hr hall (hall _ hb) (hsub' _ (mem_log_putIpld _ _)) ?_, rfl,
    hall⟩
  rw [edgeMap_addRelation]
  exact hrep

theorem requireEntity_eq (hs : Sound kg.log) (hr : Refines kg.log kg.index kg.edges a)
    (id : EntityId) (missing : String) :
    requireEntity id missing kg = (match a.indexMap id with
      | some cid => .ok cid
      | none => .error (.graph missing)) := by
  have hcid := entityCid_eq hs hr id
  cases hindex : a.indexMap id with
  | none | some cid =>
    rw [hindex] at hcid
    simp only [requireEntity, hcid, ok_bind]

omit [CidCrate.Lawful] in
theorem known_of_indexMap {id : EntityId} {cid : Cid} (h : a.indexMap id = some cid) :
    (a.entities id).isSome := by
  rw [GraphModel.indexMap] at h
  obtain ⟨spec, hspec, _⟩ := Option.map_eq_some_iff.mp h
  rw [hspec]
  rfl

/-- **`add_relation`** of two known entities appends to the subject's relations one
between the blocks the entities are stored in. -/
theorem addRelation_known_triple (hH : Sound H) (hr : Refines kg.log kg.index kg.edges a)
    {subject object : EntityId} {subjCid objCid : Cid} (hsubj : a.indexMap subject = some subjCid)
    (hobj : a.indexMap object = some objCid) (predicate : String) (weight : UInt32)
    (evidence : List Cid) : Triple log H (addRelation subject predicate object weight evidence) kg
      (fun _ kg' => Refines kg'.log kg'.index kg'.edges
          (a.addRelation subject ⟨subjCid, predicate, objCid, evidence, weight⟩
            (known_of_indexMap hsubj)) ∧
        kg'.vindex = evidence.foldl (citeEvidence kg.store) kg.vindex ∧ ∀ b ∈ kg.log, b ∈ kg'.log)
      (fun _ _ => False) := by
  refine Triple.start (grows_of_keeps (fun _ hI => addRelation_keeps hI _ _ _ _ _))
    (fun hbound => ?_)
  have hs : Sound kg.log := hH.mono hbound
  have hsubject := requireEntity_eq hs hr subject "subject entity not found"
  have hobject := requireEntity_eq hs hr object "object entity not found"
  rw [hsubj] at hsubject
  rw [hobj] at hobject
  refine Triple.step (readM_ok hsubject) ?_
  refine Triple.step (readM_ok hobject) (Triple.step rfl ?_)
  refine Triple.step (putNode_run _ _) ?_
  -- the graph with the evidence indexed and the relation's node stored
  let r : RelationSpec := ⟨subjCid, predicate, objCid, evidence, weight⟩
  let kg₁ : KnowledgeGraph S :=
    { kg with vindex := evidence.foldl (citeEvidence kg.store) kg.vindex }
  have hsub : ∀ b ∈ kg.log, b ∈ (kg₁.putIpld r.node.toIpld).log :=
    log_subset_putIpld _ kg₁
  have hk := known_of_indexMap hsubj
  have happend := appendRelation_triple hH (hr.mono hsub) hk (mem_log_putIpld _ kg₁)
  refine Triple.bind happend (fun _ => Grows.pure _) ?_
  rintro _ kg' _ ⟨hr', hvindex, hsub'⟩
  exact Triple.pure ⟨hr', hvindex, fun b hb => hsub' b (hsub b hb)⟩

/-- **`add_relation`** appends to the subject's relations, or fails on a missing
entity and changes nothing. -/
theorem addRelation_triple (hH : Sound H) (hr : Refines kg.log kg.index kg.edges a)
    (subject : EntityId) (predicate : String) (object : EntityId) (weight : UInt32)
    (evidence : List Cid) : Triple log H (addRelation subject predicate object weight evidence) kg
      (fun _ kg' => ∃ subjCid objCid hk, a.indexMap object = some objCid ∧
        Refines kg'.log kg'.index kg'.edges
          (a.addRelation subject ⟨subjCid, predicate, objCid, evidence, weight⟩ hk) ∧
        kg'.vindex = evidence.foldl (citeEvidence kg.store) kg.vindex ∧ ∀ b ∈ kg.log, b ∈ kg'.log)
      (fun _ kg' => kg' = kg) := by
  refine Triple.start (grows_of_keeps (fun _ hI => addRelation_keeps hI _ _ _ _ _))
    (fun hbound => ?_)
  have hs : Sound kg.log := hH.mono hbound
  have hsubject := requireEntity_eq hs hr subject "subject entity not found"
  have hobject := requireEntity_eq hs hr object "object entity not found"
  cases hsubj : a.indexMap subject with
  | none =>
    rw [hsubj] at hsubject
    exact Triple.fail (readM_error hsubject) rfl
  | some subjCid =>
    cases hobj : a.indexMap object with
    | none =>
      rw [hsubj] at hsubject
      rw [hobj] at hobject
      exact Triple.step (readM_ok hsubject) (Triple.fail (readM_error hobject) rfl)
    | some objCid =>
      refine (addRelation_known_triple hH hr hsubj hobj predicate weight evidence).conseq
        ?_ (fun _ _ h => h.elim)
      rintro _ kg' ⟨hr', hvindex, hsub⟩
      exact ⟨_, _, _, rfl, hr', hvindex, hsub⟩

end

/-! ## Heads -/

section

variable [CidCrate]

def vindexBlock (ix : VectorIndex) : Block := ipldBlock ix.toIpld

def headBlock (index edges : Cid) (ix : VectorIndex) (prev : Option Cid) : Block :=
  ipldBlock (headIpld index edges (vindexBlock ix).cid prev)

/-- The blocks `h` hold a head for two roots and an index. -/
def Committed (h : List Block) (head index edges : Cid) (ix : VectorIndex) : Prop :=
  ∃ prev, head = (headBlock index edges ix prev).cid ∧ headBlock index edges ix prev ∈ h ∧
    vindexBlock ix ∈ h

theorem Committed.mono {h h' : List Block} (hsub : ∀ b ∈ h, b ∈ h') {head index edges : Cid}
    {ix : VectorIndex} (hc : Committed h head index edges ix) :
    Committed h' head index edges ix := by
  obtain ⟨prev, hhead, hb, hv⟩ := hc
  exact ⟨prev, hhead, hsub _ hb, hsub _ hv⟩

omit [CidCrate] in
theorem headIpld_shaped (index edges vcid : Cid) (prev : Option Cid) :
    (headIpld index edges vcid prev).Shaped Ipld.CborInt := by
  refine .ofEntries ?_
  intro e he
  simp only [List.mem_append, List.mem_cons, List.not_mem_nil, or_false, List.mem_map] at he
  rcases he with (rfl | rfl | rfl | rfl | rfl) | ⟨p, _, rfl⟩
  · exact .string _
  · exact .integer _ (by decide)
  · exact .link _
  · exact .link _
  · exact .link _
  · exact .link _

variable {S : Type} [BlockStore S] [BlockStore.Faithful S]

/-- **`commit`** stores a head for the graph as it is. -/
theorem commit_spec (kg : KnowledgeGraph S) :
    ∃ head s, commit kg = .ok head { kg with store := s, prev := some head } ∧
      Committed (history s) head kg.index kg.edges kg.vindex ∧ ∀ b ∈ kg.log, b ∈ history s := by
  let kg₁ := kg.putIpld kg.vindex.toIpld
  let kg₂ := kg₁.putIpld (headIpld kg.index kg.edges (vindexBlock kg.vindex).cid kg.prev)
  refine ⟨(headBlock kg.index kg.edges kg.vindex kg.prev).cid, kg₂.store, ?_, ?_, ?_⟩
  · have hvindex : onStore kg.vindex.store kg = .ok (vindexBlock kg.vindex).cid kg₁ :=
      onStore_putEncoded_run _ kg
    have hhead := onStore_putEncoded_run
      (headIpld kg.index kg.edges (vindexBlock kg.vindex).cid kg.prev) kg₁
    have hget : (MonadState.get : EStateM KError (KnowledgeGraph S) _) kg = .ok kg kg := rfl
    rw [commit, run_bind_ok hget, run_bind_ok hvindex, run_bind_ok hhead]
    rfl
  · exact ⟨kg.prev, rfl, mem_log_putIpld _ kg₁,
      log_subset_putIpld _ kg₁ _ (mem_log_putIpld _ kg)⟩
  · intro b hb
    exact log_subset_putIpld _ kg₁ b (log_subset_putIpld _ kg b hb)

omit [CidCrate] in
theorem headLink_eq {m : IpldMap} {k : String} {cid : Cid}
    (h : Ipld.field m k = some (.link cid)) : headLink m k = .ok cid := by
  rw [headLink, h]
  rfl

/-- A committed head is read back as the graph it was made from. -/
theorem openHead_of_committed [CidCrate.Lawful] {s : S} (hs : Sound (history s))
    {head index edges : Cid} {ix : VectorIndex} (hdim : ix.DimOk)
    (hc : Committed (history s) head index edges ix) :
    openHead s head = .ok { store := s, index, edges, prev := some head, vindex := ix } := by
  obtain ⟨prev, rfl, hb, hv⟩ := hc
  have hdecode : Ipld.fromDagCbor (headBlock index edges ix prev).data
      = .ok (headIpld index edges (vindexBlock ix).cid prev) :=
    fromDagCbor_ipldBlock (headIpld_shaped _ _ _ _) (hs.sized _ hb)
  have hvindex : VectorIndex.decode (vindexBlock ix).data = .ok ix :=
    VectorIndex.decode_ipldBlock hdim (hs.sized _ hv)
  rw [openHead, get_of_history hs hb]
  simp only [hdecode, mapCore_ok, ok_bind, headIpld]
  cases prev with
  | none | some p =>
    rw [headLink_eq (field_ofEntries _ _), headLink_eq (field_ofEntries _ _)]
    simp [headVindex, field_ofEntries, get_of_history hs hv, hvindex]

/-- **`new`** is the empty graph. -/
theorem new_spec [RustText] (s₀ : S) :
    ∃ kg : KnowledgeGraph S, new s₀ = .ok kg ∧ kg.vindex = VectorIndex.new defaultDim ∧
      Refines kg.log kg.index kg.edges GraphModel.empty := by
  obtain ⟨index, s₁, hindex, hrep, _⟩ := (Hamt.empty_triple s₀).succeeds (fun _ hb => hb)
  obtain ⟨edges, s₂, hedges, hrep', hsub⟩ := (Hamt.empty_triple s₁).succeeds (fun _ hb => hb)
  refine ⟨⟨s₂, index, edges, none, VectorIndex.new defaultDim⟩, ?_, rfl, ?_⟩
  · rw [new, run_bind_ok hindex, run_bind_ok hedges]
    rfl
  · exact {
      index := hrep.mono hsub
      edges := hrep'
      entity := by
        intro id spec h
        cases h
      relation := by
        intro id r h
        cases h
      list := by
        intro id h
        exact absurd rfl h }

end

end KnowledgeGraph

end Ipfrs.Knowledge
