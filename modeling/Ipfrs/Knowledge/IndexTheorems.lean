/-
Ipfrs.Knowledge.IndexTheorems — the maintained index and the rebuilt one.

`Indexes s a ents cited ix` says what an index holds: the embeddings of the
entities in `ents` and of the sources of the evidence in `cited`, one for each
target. Both ways of building an index are steps that widen the two sets: the
graph's own index covers all of the model after each operation (`indexes_setEntity`,
`indexes_cite`), and `index_graph` reaches the same cover entity by entity
(`indexIds_covers`).
-/
import Ipfrs.Knowledge.GraphTheorems

namespace Ipfrs.Knowledge

open Ipfrs.Core Ipfrs.Lib
open BlockStore.Faithful (history)
open KnowledgeGraph

section

variable [CidCrate] {S : Type} [BlockStore S]

/-- An evidence node is in the store, and so is the source it names. -/
def citable (s : S) (ev : Cid) : Bool :=
  match BlockStore.get s ev with
  | none => false
  | some bytes =>
    match KnowledgeNode.decode bytes with
    | .ok (.evidence source _ _ _) => BlockStore.has s source
    | _ => true

variable [BlockStore.Faithful S] {s s' : S}

omit [CidCrate] in
/-- What a store returns, a store with more blocks returns too. -/
theorem get_stable (hs : Sound (history s')) (hsub : ∀ b ∈ history s, b ∈ history s') {cid : Cid}
    {bytes : List UInt8} (h : BlockStore.get s cid = some bytes) :
    BlockStore.get s' cid = some bytes :=
  (get_eq_some_iff hs.free).mpr (hsub _ ((get_eq_some_iff (hs.mono hsub).free).mp h))

/-- The text of evidence that could be cited does not change. -/
theorem citable_stable (hs : Sound (history s')) (hsub : ∀ b ∈ history s, b ∈ history s')
    {ev : Cid} (h : citable s ev) : citable s' ev ∧ evidenceText s' ev = evidenceText s ev := by
  cases hbytes : BlockStore.get s ev with
  | none =>
    rw [citable, hbytes] at h
    cases h
  | some bytes =>
    have hbytes' := get_stable hs hsub hbytes
    simp only [citable, evidenceText, getNode, hbytes, hbytes'] at h ⊢
    cases hdecode : KnowledgeNode.decode bytes with
    | error e => exact ⟨rfl, rfl⟩
    | ok node =>
      cases node with
      | evidence source span extractedBy proof =>
        rw [hdecode] at h
        obtain ⟨data, hdata⟩ := Option.isSome_iff_exists.mp h
        have hdata' := get_stable hs hsub hdata
        refine ⟨?_, ?_⟩
        · show (BlockStore.get s' source).isSome = true
          rw [hdata']
          rfl
        · show (BlockStore.get s' source).bind blockText
            = (BlockStore.get s source).bind blockText
          rw [hdata, hdata']
      | entity => exact ⟨rfl, rfl⟩
      | concept => exact ⟨rfl, rfl⟩
      | relation => exact ⟨rfl, rfl⟩
      | observation => exact ⟨rfl, rfl⟩
      | hypothesis => exact ⟨rfl, rfl⟩

end

/-! ## What an index holds -/

section

variable [CidCrate] [RustText] {S : Type} [BlockStore S]

/-- The text of an entity. -/
def entityText (spec : EntitySpec) : String :=
  spec.attrs.1.foldl (fun t e => t ++ " " ++ e.2)
    (spec.aliases.foldl (fun t a => t ++ " " ++ a) spec.name)

omit [CidCrate] in
theorem nodeText_entityNode (spec : EntitySpec) :
    nodeText (entityNode spec) = some (entityText spec) := rfl

/-- An entry for an entity of `ents`. -/
def EntityEntry (a : GraphModel) (ents : EntityId → Prop) (dim : Nat) (c : Cid)
    (emb : List UInt32) : Prop :=
  ∃ id spec, ents id ∧ a.entities id = some spec ∧ c = (entityBlock spec).cid ∧
    emb = embed (entityText spec) dim

/-- An entry for an evidence node. -/
def EvidenceEntry (s : S) (dim : Nat) (c : Cid) (emb : List UInt32) : Prop :=
  ∃ text, evidenceText s c = some text ∧ emb = embed text dim

structure Indexes (s : S) (a : GraphModel) (ents : EntityId → Prop) (cited : Cid → Prop)
    (ix : VectorIndex) : Prop where
  mem_iff : ∀ c emb, (c, emb) ∈ ix.entries ↔
    EntityEntry a ents ix.dim c emb ∨ (cited c ∧ EvidenceEntry s ix.dim c emb)
  distinct : ix.Distinct

variable {s s' : S} {a : GraphModel} {ents ents' : EntityId → Prop} {cited cited' : Cid → Prop}
  {ix ix' : VectorIndex}

theorem Indexes.congr (h : Indexes s a ents cited ix)
    (hents : ∀ id, (a.entities id).isSome → (ents id ↔ ents' id))
    (hcited : ∀ c, cited c ↔ cited' c) : Indexes s a ents' cited' ix := by
  refine ⟨?_, h.distinct⟩
  intro c emb
  rw [h.mem_iff, hcited c]
  refine or_congr_left ?_
  constructor
  · rintro ⟨id, spec, hid, hspec, hc⟩
    exact ⟨id, spec, (hents id (by rw [hspec]; rfl)).mp hid, hspec, hc⟩
  · rintro ⟨id, spec, hid, hspec, hc⟩
    exact ⟨id, spec, (hents id (by rw [hspec]; rfl)).mpr hid, hspec, hc⟩

/-- Indexes of the same sets and dimension have the same entries. -/
theorem Indexes.same_entries (h : Indexes s a ents cited ix) (h' : Indexes s a ents cited ix')
    (hdim : ix.dim = ix'.dim) (e : Cid × List UInt32) : e ∈ ix.entries ↔ e ∈ ix'.entries := by
  obtain ⟨c, emb⟩ := e
  rw [h.mem_iff, h'.mem_iff, hdim]

theorem indexes_new (s : S) (a : GraphModel) (dim : Nat) :
    Indexes s a (fun _ => False) (fun _ => False) (VectorIndex.new dim) where
  mem_iff := by
    intro c emb
    simp [VectorIndex.new, EntityEntry]
  distinct := List.nodup_nil

variable [BlockStore.Faithful S]

/-- Later blocks do not change the entries of evidence that could be cited. -/
theorem Indexes.mono (h : Indexes s a ents cited ix) (hs : Sound (history s'))
    (hsub : ∀ b ∈ history s, b ∈ history s') (hcit : ∀ c, cited c → citable s c) :
    Indexes s' a ents cited ix := by
  refine ⟨?_, h.distinct⟩
  intro c emb
  rw [h.mem_iff]
  refine or_congr_right (and_congr_right (fun hc => ?_))
  rw [EvidenceEntry, EvidenceEntry, (citable_stable hs hsub (hcit c hc)).2]

variable [CidCrate.Lawful]

variable {spec : EntitySpec} {c ev : Cid} {text : String}

/-- The CID of an entity is not that of an evidence node. -/
theorem evidenceText_entity (hs : Sound (history s)) (hb : entityBlock spec ∈ history s) :
    evidenceText s (entityBlock spec).cid = none := by
  rw [evidenceText, getNode_entity hs hb]
  rfl

theorem ne_of_evidenceText (hs : Sound (history s)) (hb : entityBlock spec ∈ history s)
    (htext : evidenceText s c = some text) : c ≠ (entityBlock spec).cid := by
  rintro rfl
  rw [evidenceText_entity hs hb] at htext
  cases htext

/-- An entry for an entity is not one for evidence. -/
theorem not_entityEntry (hs : Sound (history s))
    (hstored : ∀ id spec, a.entities id = some spec → entityBlock spec ∈ history s)
    (htext : evidenceText s c = some text) {dim : Nat} {emb : List UInt32} :
    ¬ EntityEntry a ents dim c emb := by
  rintro ⟨id, spec, _, hspec, hc, _⟩
  exact ne_of_evidenceText hs (hstored id spec hspec) htext hc

/-- Entities with different ids have different CIDs. -/
theorem entity_cid_ne {h : List Block} (hs : Sound h) {spec' : EntitySpec}
    (hb : entityBlock spec ∈ h) (hb' : entityBlock spec' ∈ h)
    (hid : EntityId.of spec.kind spec.name ≠ EntityId.of spec'.kind spec'.name) :
    (entityBlock spec).cid ≠ (entityBlock spec').cid := by
  intro hcid
  have hnode := entityBlock_injective hs hb hb' hcid
  rw [entityNode, entityNode, KnowledgeNode.entity.injEq] at hnode
  exact hid hnode.1

/-! ## Entries for one target -/

omit [BlockStore.Faithful S] [CidCrate.Lawful] in
/-- Evidence without a text has no entry. -/
theorem Indexes.cite_silent (h : Indexes s a ents cited ix) (htext : evidenceText s ev = none) :
    Indexes s a ents (fun c => cited c ∨ c = ev) ix := by
  refine ⟨?_, h.distinct⟩
  intro c emb
  rw [h.mem_iff]
  refine or_congr_right ?_
  constructor
  · rintro ⟨hc, he⟩
    exact ⟨.inl hc, he⟩
  · rintro ⟨hc | rfl, he⟩
    · exact ⟨hc, he⟩
    · obtain ⟨text, htext', _⟩ := he
      simp [htext] at htext'

/-- Evidence with a text is added. -/
theorem Indexes.add_evidence (hs : Sound (history s))
    (hstored : ∀ id spec, a.entities id = some spec → entityBlock spec ∈ history s)
    (h : Indexes s a ents cited ix) (htext : evidenceText s ev = some text) (hnew : ¬ cited ev) :
    Indexes s a ents (fun c => cited c ∨ c = ev) (ix.addText ev text) := by
  refine ⟨?_, h.distinct.addText ?_⟩
  · intro c emb
    show _ ↔ EntityEntry a ents ix.dim c emb ∨ (cited c ∨ c = ev) ∧ EvidenceEntry s ix.dim c emb
    rw [VectorIndex.mem_addText, h.mem_iff, Prod.mk.injEq]
    constructor
    · rintro (⟨rfl, rfl⟩ | he | ⟨hc, he⟩)
      · exact .inr ⟨.inr rfl, text, htext, rfl⟩
      · exact .inl he
      · exact .inr ⟨.inl hc, he⟩
    · rintro (he | ⟨hc | rfl, he⟩)
      · exact .inr (.inl he)
      · exact .inr (.inr ⟨hc, he⟩)
      · obtain ⟨text', htext', hemb⟩ := he
        rw [htext] at htext'
        cases htext'
        exact .inl ⟨rfl, hemb⟩
  · rintro ⟨c, emb⟩ hmem rfl
    rcases (h.mem_iff c emb).mp hmem with he | ⟨hc, _⟩
    · exact not_entityEntry hs hstored htext he
    · exact hnew hc

/-- Evidence with a text is removed. -/
theorem Indexes.remove_evidence (hs : Sound (history s))
    (hstored : ∀ id spec, a.entities id = some spec → entityBlock spec ∈ history s)
    (h : Indexes s a ents cited ix) (htext : evidenceText s ev = some text) :
    Indexes s a ents (fun c => cited c ∧ c ≠ ev) (ix.remove ev) := by
  refine ⟨?_, h.distinct.remove ev⟩
  intro c emb
  show _ ↔ EntityEntry a ents ix.dim c emb ∨ (cited c ∧ c ≠ ev) ∧ EvidenceEntry s ix.dim c emb
  rw [VectorIndex.mem_remove, h.mem_iff]
  constructor
  · rintro ⟨hne, he | ⟨hc, he⟩⟩
    · exact .inl he
    · exact .inr ⟨⟨hc, hne⟩, he⟩
  · rintro (he | ⟨⟨hc, hne⟩, he⟩)
    · refine ⟨?_, .inl he⟩
      rintro rfl
      exact not_entityEntry hs hstored htext he
    · exact ⟨hne, .inr ⟨hc, he⟩⟩

/-- An entity is added. -/
theorem Indexes.add_entity (hs : Sound (history s))
    (hstored : ∀ id spec, a.entities id = some spec → entityBlock spec ∈ history s)
    (h : Indexes s a ents cited ix) {id : EntityId} (hspec : a.entities id = some spec)
    (hid : ¬ ents id) :
    Indexes s a (fun id' => ents id' ∨ id' = id) cited
      (ix.addText (entityBlock spec).cid (entityText spec)) := by
  have hb := hstored id spec hspec
  refine ⟨?_, h.distinct.addText ?_⟩
  · intro c emb
    show _ ↔ EntityEntry a (fun id' => ents id' ∨ id' = id) ix.dim c emb ∨
      cited c ∧ EvidenceEntry s ix.dim c emb
    rw [VectorIndex.mem_addText, h.mem_iff, Prod.mk.injEq]
    constructor
    · rintro (⟨rfl, rfl⟩ | ⟨id', spec', he, hrest⟩ | he)
      · exact .inl ⟨id, spec, .inr rfl, hspec, rfl, rfl⟩
      · exact .inl ⟨id', spec', .inl he, hrest⟩
      · exact .inr he
    · rintro (⟨id', spec', he | rfl, hspec', hrest⟩ | he)
      · exact .inr (.inl ⟨id', spec', he, hspec', hrest⟩)
      · rw [hspec] at hspec'
        cases hspec'
        exact .inl hrest
      · exact .inr (.inr he)
  · rintro ⟨c, emb⟩ hmem rfl
    rcases (h.mem_iff _ emb).mp hmem with ⟨id', spec', he, hspec', hc, _⟩ | ⟨_, text, htext, _⟩
    · refine entity_cid_ne hs hb (hstored id' spec' hspec') ?_ hc
      rw [a.keyed id spec hspec, a.keyed id' spec' hspec']
      rintro rfl
      exact hid he
    · exact ne_of_evidenceText hs hb htext rfl

/-! ## The maintained index -/

/-- One evidence is cited. -/
theorem indexes_citeEvidence (hs : Sound (history s))
    (hstored : ∀ id spec, a.entities id = some spec → entityBlock spec ∈ history s)
    (h : Indexes s a ents cited ix) (ev : Cid) :
    Indexes s a ents (fun c => cited c ∨ c = ev) (citeEvidence s ix ev) ∧
      (citeEvidence s ix ev).dim = ix.dim := by
  unfold citeEvidence
  cases htext : evidenceText s ev with
  | none => exact ⟨h.cite_silent htext, rfl⟩
  | some text =>
    -- an upsert: what stood under the evidence's CID is removed first
    have hremoved := h.remove_evidence hs hstored htext
    have hadded := hremoved.add_evidence hs hstored htext (by simp)
    refine ⟨hadded.congr (fun _ _ => Iff.rfl) ?_, rfl⟩
    intro c
    by_cases hc : c = ev
    · simp [hc]
    · simp [hc]

/-- All evidence of a relation is cited. -/
theorem indexes_cite (hs : Sound (history s))
    (hstored : ∀ id spec, a.entities id = some spec → entityBlock spec ∈ history s)
    (evidence : List Cid) : ∀ {cited : Cid → Prop} {ix : VectorIndex}, Indexes s a ents cited ix →
      Indexes s a ents (fun c => cited c ∨ c ∈ evidence) (evidence.foldl (citeEvidence s) ix) ∧
        (evidence.foldl (citeEvidence s) ix).dim = ix.dim := by
  induction evidence with
  | nil =>
    intro cited ix h
    exact ⟨h.congr (fun _ _ => Iff.rfl) (by simp), rfl⟩
  | cons ev evidence ih =>
    intro cited ix h
    obtain ⟨hstep, hdim⟩ := indexes_citeEvidence hs hstored h ev
    obtain ⟨hrest, hdim'⟩ := ih hstep
    refine ⟨hrest.congr (fun _ _ => Iff.rfl) ?_, hdim'.trans hdim⟩
    intro c
    rw [List.mem_cons, or_assoc]

omit [CidCrate.Lawful] in
/-- The entity entries of a model with one entity set. -/
theorem entityEntry_setEntity {dim : Nat} {emb : List UInt32} :
    EntityEntry (a.setEntity spec) (fun _ => True) dim c emb ↔
      (c = (entityBlock spec).cid ∧ emb = embed (entityText spec) dim) ∨
        EntityEntry a (fun id => id ≠ EntityId.of spec.kind spec.name) dim c emb := by
  constructor
  · rintro ⟨id, spec', _, hspec, hc, hemb⟩
    by_cases hid : id = EntityId.of spec.kind spec.name
    · subst hid
      simp only [GraphModel.setEntity, Function.update_self] at hspec
      cases hspec
      exact .inl ⟨hc, hemb⟩
    · simp only [GraphModel.setEntity, Function.update_of_ne hid] at hspec
      exact .inr ⟨id, spec', hid, hspec, hc, hemb⟩
  · rintro (⟨hc, hemb⟩ | ⟨id, spec', hid, hspec, hc, hemb⟩)
    · exact ⟨EntityId.of spec.kind spec.name, spec, trivial, Function.update_self _ _ _, hc, hemb⟩
    · exact ⟨id, spec', trivial, by simpa [GraphModel.setEntity, hid] using hspec, hc, hemb⟩

/-- The entries without the entity of one id are those under other CIDs. -/
theorem indexes_evict (hs : Sound (history s))
    (hstored : ∀ id spec, a.entities id = some spec → entityBlock spec ∈ history s)
    (h : Indexes s a (fun _ => True) cited ix) (id : EntityId) :
    Indexes s a (fun id' => id' ≠ id) cited (evict (a.indexMap id) ix) ∧
      (evict (a.indexMap id) ix).dim = ix.dim := by
  rw [GraphModel.indexMap]
  cases hold : a.entities id with
  | none =>
    refine ⟨h.congr ?_ (fun _ => Iff.rfl), rfl⟩
    intro id' hid'
    refine iff_of_true trivial ?_
    rintro rfl
    rw [hold] at hid'
    cases hid'
  | some old =>
    refine ⟨⟨?_, h.distinct.remove _⟩, rfl⟩
    intro c emb
    show (c, emb) ∈ (ix.remove (entityBlock old).cid).entries ↔ _
    rw [VectorIndex.mem_remove, h.mem_iff]
    have hb := hstored id old hold
    constructor
    · rintro ⟨hne, ⟨id', spec, _, hspec, hc, hemb⟩ | he⟩
      · refine .inl ⟨id', spec, ?_, hspec, hc, hemb⟩
        rintro rfl
        rw [hold] at hspec
        cases hspec
        exact hne hc
      · exact .inr he
    · rintro (⟨id', spec, hid, hspec, rfl, hemb⟩ | ⟨hcited, text, htext, hemb⟩)
      · refine ⟨?_, .inl ⟨id', spec, trivial, hspec, rfl, hemb⟩⟩
        refine entity_cid_ne hs (hstored id' spec hspec) hb ?_
        rw [a.keyed id' spec hspec, a.keyed id old hold]
        exact hid
      · exact ⟨ne_of_evidenceText hs hb htext, .inr ⟨hcited, text, htext, hemb⟩⟩

/-- **Replacing an entity** in the maintained index. -/
theorem indexes_setEntity (hs : Sound (history s))
    (hstored : ∀ id spec, a.entities id = some spec → entityBlock spec ∈ history s)
    (h : Indexes s a (fun _ => True) cited ix) (hb : entityBlock spec ∈ history s) :
    Indexes s (a.setEntity spec) (fun _ => True) cited
        (reindexEntity (a.indexMap (EntityId.of spec.kind spec.name)) (entityBlock spec).cid
          (entityNode spec) ix) ∧
      (reindexEntity (a.indexMap (EntityId.of spec.kind spec.name)) (entityBlock spec).cid
        (entityNode spec) ix).dim = ix.dim := by
  obtain ⟨h', hdim⟩ := indexes_evict hs hstored h (EntityId.of spec.kind spec.name)
  have hre : reindexEntity (a.indexMap (EntityId.of spec.kind spec.name)) (entityBlock spec).cid
      (entityNode spec) ix
      = (evict (a.indexMap (EntityId.of spec.kind spec.name)) ix).upsertText
          (entityBlock spec).cid (entityText spec) := rfl
  rw [hre]
  refine ⟨⟨?_, h'.distinct.upsertText⟩, hdim⟩
  intro c emb
  rw [VectorIndex.mem_upsertText, h'.mem_iff, Prod.mk.injEq, entityEntry_setEntity, or_assoc]
  refine or_congr_right ⟨fun he => he.2, fun he => ⟨?_, he⟩⟩
  rcases he with ⟨id', spec', hid, hspec, rfl, _⟩ | ⟨_, text, htext, _⟩
  · refine entity_cid_ne hs (hstored id' spec' hspec) hb ?_
    rw [a.keyed id' spec' hspec]
    exact hid
  · exact ne_of_evidenceText hs hb htext

omit [BlockStore S] [BlockStore.Faithful S] [CidCrate] [CidCrate.Lawful] in
theorem cited_addRelation {id : EntityId} {r : RelationSpec} {hk : (a.entities id).isSome} :
    (a.addRelation id r hk).Cited ev ↔ a.Cited ev ∨ ev ∈ r.evidence := by
  constructor
  · rintro ⟨id', r', hr', hev⟩
    by_cases hid : id' = id
    · subst hid
      simp only [GraphModel.addRelation, Function.update_self, List.mem_append,
        List.mem_singleton] at hr'
      rcases hr' with hr' | rfl
      · exact .inl ⟨id', r', hr', hev⟩
      · exact .inr hev
    · simp only [GraphModel.addRelation, Function.update_of_ne hid] at hr'
      exact .inl ⟨id', r', hr', hev⟩
  · rintro (⟨id', r', hr', hev⟩ | hev)
    · refine ⟨id', r', ?_, hev⟩
      by_cases hid : id' = id
      · subst hid
        simp [GraphModel.addRelation, hr']
      · simpa [GraphModel.addRelation, hid] using hr'
    · exact ⟨id, r, by simp [GraphModel.addRelation], hev⟩

/-! ## The rebuilt index -/

/-- A state of `index_graph` whose index covers `ents` and the evidence seen. -/
def Covers (s : S) (a : GraphModel) (ents : EntityId → Prop) (st : IndexState) : Prop :=
  Indexes s a ents (fun c => c ∈ st.seenEv) st.ix

/-- One evidence is indexed. -/
theorem indexEvidence_covers (hs : Sound (history s))
    (hstored : ∀ id spec, a.entities id = some spec → entityBlock spec ∈ history s)
    {st : IndexState} (h : Covers s a ents st) (ev : Cid) :
    Covers s a ents (indexEvidence s st ev) ∧
      (∀ c, c ∈ (indexEvidence s st ev).seenEv ↔ c ∈ st.seenEv ∨ c = ev) ∧
      (indexEvidence s st ev).ix.dim = st.ix.dim := by
  unfold indexEvidence
  split
  · next hseen =>
    refine ⟨h, ?_, rfl⟩
    intro c
    refine ⟨.inl, ?_⟩
    rintro (hc | rfl)
    · exact hc
    · exact hseen
  · next hseen =>
    have hcons : ∀ c, c ∈ st.seenEv ∨ c = ev ↔ c ∈ ev :: st.seenEv := by
      intro c
      rw [List.mem_cons, or_comm]
    cases htext : evidenceText s ev with
    | none =>
      exact ⟨(h.cite_silent htext).congr (fun _ _ => Iff.rfl) hcons, fun c => (hcons c).symm,
        rfl⟩
    | some text =>
      exact ⟨(h.add_evidence hs hstored htext hseen).congr (fun _ _ => Iff.rfl) hcons,
        fun c => (hcons c).symm, rfl⟩

/-- The evidence of a relation is indexed. -/
theorem indexEvidences_covers (hs : Sound (history s))
    (hstored : ∀ id spec, a.entities id = some spec → entityBlock spec ∈ history s)
    (evidence : List Cid) : ∀ {st : IndexState}, Covers s a ents st →
      Covers s a ents (evidence.foldl (indexEvidence s) st) ∧
        (∀ c, c ∈ (evidence.foldl (indexEvidence s) st).seenEv ↔ c ∈ st.seenEv ∨ c ∈ evidence) ∧
        (evidence.foldl (indexEvidence s) st).ix.dim = st.ix.dim := by
  induction evidence with
  | nil =>
    intro st h
    exact ⟨h, by simp, rfl⟩
  | cons ev evidence ih =>
    intro st h
    obtain ⟨hstep, hseen, hdim⟩ := indexEvidence_covers hs hstored h ev
    obtain ⟨hrest, hseen', hdim'⟩ := ih hstep
    refine ⟨hrest, ?_, hdim'.trans hdim⟩
    intro c
    rw [List.foldl_cons, hseen' c, hseen c, List.mem_cons, or_assoc]

/-- The relations of an entity are indexed. -/
theorem indexRelations_covers (hs : Sound (history s))
    (hstored : ∀ id spec, a.entities id = some spec → entityBlock spec ∈ history s)
    (rs : List RelationSpec) : ∀ {st : IndexState}, Covers s a ents st →
      ∃ st', (rs.map (fun r => ((relationBlock r).cid, r.readNode))).foldl (indexRelation s) st
          = st' ∧ Covers s a ents st' ∧
        (∀ c, c ∈ st'.seenEv ↔ c ∈ st.seenEv ∨ ∃ r ∈ rs, c ∈ r.evidence) ∧
        st'.ix.dim = st.ix.dim := by
  induction rs with
  | nil =>
    intro st h
    exact ⟨st, rfl, h, by simp, rfl⟩
  | cons r rs ih =>
    intro st h
    obtain ⟨hstep, hseen, hdim⟩ := indexEvidences_covers hs hstored r.evidence h
    obtain ⟨st', hst', hrest, hseen', hdim'⟩ := ih hstep
    refine ⟨st', hst', hrest, ?_, hdim'.trans hdim⟩
    intro c
    rw [hseen' c, hseen c, or_assoc]
    simp

variable {kg : KnowledgeGraph S}

/-- An entity is indexed. -/
theorem indexEntity_covers (hs : Sound kg.log) (hr : Refines kg.log kg.index kg.edges a)
    {cited : Cid → Prop} {ix : VectorIndex} (h : Indexes kg.store a ents cited ix) {id : EntityId}
    (hid : ¬ ents id) : ∃ ix', indexEntity kg ix id = .ok ix' ∧
      Indexes kg.store a (fun id' => ents id' ∨ id' = id) cited ix' ∧ ix'.dim = ix.dim := by
  rw [indexEntity, getEntity_eq hs hr, ok_bind]
  cases hspec : a.entities id with
  | none =>
    refine ⟨ix, rfl, h.congr ?_ (fun _ => Iff.rfl), rfl⟩
    intro id' hid'
    refine ⟨.inl, ?_⟩
    rintro (he | rfl)
    · exact he
    · rw [hspec] at hid'
      cases hid'
  | some spec =>
    refine ⟨ix.addText (entityBlock spec).cid (entityText spec), ?_,
      h.add_entity hs hr.entity hspec hid, rfl⟩
    simp only [Option.map_some, nodeText_entityNode, entityCid_eq hs hr, ok_bind,
      GraphModel.indexMap, hspec]

/-- **`index_graph`** over a list of ids covers those ids and the evidence of their
relations. -/
theorem indexIds_covers (hs : Sound kg.log) (hr : Refines kg.log kg.index kg.edges a)
    (ids : List EntityId) : ∀ {ents : EntityId → Prop} {st : IndexState}, ids.Nodup →
      (∀ id ∈ ids, ¬ ents id) → Covers kg.store a ents st → ∃ st', indexIds kg ids st = .ok st' ∧
        Covers kg.store a (fun id => ents id ∨ id ∈ ids) st' ∧ (∀ c, c ∈ st'.seenEv ↔
          c ∈ st.seenEv ∨ ∃ id ∈ ids, ∃ r ∈ a.relations id, c ∈ r.evidence) ∧
        st'.ix.dim = st.ix.dim := by
  induction ids with
  | nil =>
    intro ents st _ _ h
    exact ⟨st, rfl, h.congr (by simp) (fun _ => Iff.rfl), by simp, rfl⟩
  | cons id ids ih =>
    intro ents st hnodup hnew h
    obtain ⟨hid, hnodup'⟩ := List.nodup_cons.mp hnodup
    obtain ⟨ix, hix, hcov, hdim⟩ := indexEntity_covers hs hr h (hnew id List.mem_cons_self)
    have hcov' : Covers kg.store a (fun id' => ents id' ∨ id' = id) { st with ix } := hcov
    obtain ⟨st₁, hst₁, hcov₁, hseen₁, hdim₁⟩ :=
      indexRelations_covers hs hr.entity (a.relations id) hcov'
    have hnew' : ∀ id' ∈ ids, ¬ (ents id' ∨ id' = id) := by
      rintro id' hid' (he | rfl)
      · exact hnew id' (List.mem_cons_of_mem _ hid') he
      · exact hid hid'
    obtain ⟨st', hst', hcov', hseen', hdim'⟩ := ih hnodup' hnew' hcov₁
    refine ⟨st', ?_, hcov'.congr ?_ (fun _ => Iff.rfl), ?_, ?_⟩
    · rw [indexIds, hix, ok_bind, relationsOf_eq hs hr, ok_bind, hst₁]
      exact hst'
    · intro id' _
      rw [List.mem_cons, or_assoc]
    · intro c
      rw [hseen' c, hseen₁ c, or_assoc]
      simp
    · rw [hdim', hdim₁]
      exact hdim

/-- **The rebuilt index** covers the whole graph. -/
theorem indexGraph_indexes (hs : Sound kg.log) (hr : Refines kg.log kg.index kg.edges a)
    (dim : Nat) : ∃ n, ∀ rounds ≥ n, ∃ ix, indexGraph rounds kg dim = some (.ok ix) ∧
      Indexes kg.store a (fun _ => True) a.Cited ix ∧ ix.dim = dim := by
  obtain ⟨l, n, hnodup, hmem, hlist⟩ := entityIds_of_refines hs hr
  refine ⟨n, ?_⟩
  intro rounds hrounds
  have hstart : Covers kg.store a (fun _ => False) { ix := VectorIndex.new dim } :=
    (indexes_new kg.store a dim).congr (fun _ _ => Iff.rfl) (by simp)
  obtain ⟨st, hst, hcov, hseen, hdim⟩ := indexIds_covers hs hr l hnodup (fun _ _ => id) hstart
  refine ⟨st.ix, ?_, hcov.congr ?_ ?_, hdim⟩
  · rw [indexGraph, hlist rounds hrounds, Option.map_some, ok_bind, hst]
    rfl
  · intro id hid
    exact iff_of_true (.inr ((hmem id).mpr hid)) trivial
  · intro c
    rw [hseen c]
    constructor
    · rintro (hc | ⟨id, _, r, hr', hc⟩)
      · cases hc
      · exact ⟨id, r, hr', hc⟩
    · rintro ⟨id, r, hr', hc⟩
      exact .inr ⟨id, (hmem id).mpr (a.known id (List.ne_nil_of_mem hr')), r, hr', hc⟩

end

end Ipfrs.Knowledge
