/-
Ipfrs.Knowledge.Petgraph — the bridge between the knowledge graph and `petgraph`
(`graph.rs`).

`petgraph` is another crate. `DiGraphCrate` has the part of `DiGraph` that the bridge
uses, and `DiGraphCrate.Lawful` what its documentation says of it: indices count up
from 0, nodes and edges keep the order in which they were added, and a graph that is
at the largest index of `u32` panics on the next one, which the laws leave open.
-/
import Ipfrs.Knowledge.GraphTheorems

namespace Ipfrs.Knowledge

open Ipfrs.Core Ipfrs.Lib

/-- The most nodes, and the most edges, of a graph with `u32` indices. -/
def maxIndex : Nat := 2 ^ 32 - 1

/-- `petgraph::graph::DiGraph`. -/
class DiGraphCrate (G : Type → Type → Type) where
  /-- `DiGraph::new`. -/
  new {N E : Type} : G N E
  /-- `add_node`: the graph and the index of the node. -/
  addNode {N E : Type} : G N E → N → G N E × Nat
  /-- `add_edge`, without the index it returns. -/
  addEdge {N E : Type} : G N E → Nat → Nat → E → G N E
  /-- `g[ni]` for `ni` in `node_indices()`. -/
  nodes {N E : Type} : G N E → List N
  /-- `edge_endpoints(e)` and `g[e]` for `e` in `edge_indices()`. -/
  edges {N E : Type} : G N E → List (Nat × Nat × E)

namespace DiGraphCrate

/-- The documented behaviour. -/
class Lawful (G : Type → Type → Type) [DiGraphCrate G] : Prop where
  nodes_new {N E : Type} : nodes (new : G N E) = []
  edges_new {N E : Type} : edges (new : G N E) = []
  index_addNode {N E : Type} (g : G N E) (n : N) (room : (nodes g).length < maxIndex) :
    (addNode g n).2 = (nodes g).length
  nodes_addNode {N E : Type} (g : G N E) (n : N) (room : (nodes g).length < maxIndex) :
    nodes (addNode g n).1 = nodes g ++ [n]
  edges_addNode {N E : Type} (g : G N E) (n : N) (room : (nodes g).length < maxIndex) :
    edges (addNode g n).1 = edges g
  nodes_addEdge {N E : Type} (g : G N E) (a b : Nat) (e : E) (ha : a < (nodes g).length)
    (hb : b < (nodes g).length) (room : (edges g).length < maxIndex) :
    nodes (addEdge g a b e) = nodes g
  edges_addEdge {N E : Type} (g : G N E) (a b : Nat) (e : E) (ha : a < (nodes g).length)
    (hb : b < (nodes g).length) (room : (edges g).length < maxIndex) :
    edges (addEdge g a b e) = edges g ++ [(a, b, e)]
  endpoints {N E : Type} (g : G N E) : ∀ e ∈ edges g,
    e.1 < (nodes g).length ∧ e.2.1 < (nodes g).length
  length_nodes_le {N E : Type} (g : G N E) : (nodes g).length ≤ maxIndex
  length_edges_le {N E : Type} (g : G N E) : (edges g).length ≤ maxIndex

end DiGraphCrate

/-- The identity of the entity a spec describes. -/
def EntitySpec.id [RustText] (spec : EntitySpec) : EntityId := .of spec.kind spec.name

namespace KnowledgeGraph

variable [CidCrate] {S : Type} [BlockStore S] {G : Type → Type → Type} [DiGraphCrate G]

/-! ## Export -/

/-- The nodes of the exported graph, and the index of each id, the latest first. -/
def exportNodes : List EntityId → G EntityId String → List (EntityId × Nat) →
    G EntityId String × List (EntityId × Nat)
  | [], g, idx => (g, idx)
  | id :: ids, g, idx =>
    let (g, ni) := DiGraphCrate.addNode g id
    exportNodes ids g ((id, ni) :: idx)

/-- One relation of the subject `id`. -/
def exportRelation (kg : KnowledgeGraph S) (idx : List (EntityId × Nat)) (id : EntityId)
    (g : G EntityId String) (rel : Cid × KnowledgeNode) : Except KError (G EntityId String) :=
  match rel.2 with
  | .relation _ predicate object _ _ => do
      match ← getNode kg.store object with
      | .entity oid _ _ _ _ _ =>
        match idx.lookup id, idx.lookup oid with
        | some a, some b => .ok (DiGraphCrate.addEdge g a b predicate)
        | _, _ => .ok g
      | _ => .ok g
  | _ => .ok g

/-- The edges of the exported graph, subject by subject. -/
def exportEdges (kg : KnowledgeGraph S) (idx : List (EntityId × Nat)) :
    List EntityId → G EntityId String → Except KError (G EntityId String)
  | [], g => .ok g
  | id :: ids, g => do
      let rels ← kg.relationsOf id
      let g ← rels.foldlM (exportRelation kg idx id) g
      exportEdges kg idx ids g

/-- `export_petgraph`, with `rounds` rounds for the listing of the entities. -/
def exportPetgraph (rounds : Nat) (kg : KnowledgeGraph S) :
    Option (Except KError (G EntityId String)) :=
  (kg.entityIds rounds).map (fun r => do
    let ids ← r
    let (g, idx) := exportNodes ids DiGraphCrate.new []
    exportEdges kg idx ids g)

/-! ## Import -/

variable [RustText]

/-- The ids of the nodes, by index. -/
def importNodes : List EntitySpec → EStateM KError (KnowledgeGraph S) (List EntityId)
  | [] => pure []
  | spec :: specs => do
      let id ← addEntity spec
      let ids ← importNodes specs
      pure (id :: ids)

/-- The relations of the edges. Every edge has its nodes; without them the source
panics. -/
def importEdges (ids : List EntityId) :
    List (Nat × Nat × String) → EStateM KError (KnowledgeGraph S) Unit
  | [] => pure ()
  | (a, b, label) :: rest => do
      match ids[a]?, ids[b]? with
      | some subject, some object => do
          let _ ← addRelation subject label object F32.one []
          importEdges ids rest
      | _, _ => throw (.graph "no such node")

/-- What `import_petgraph` does to a fresh graph. -/
def importInto (g : G EntitySpec String) : EStateM KError (KnowledgeGraph S) Unit := do
  let ids ← importNodes (DiGraphCrate.nodes g)
  importEdges ids (DiGraphCrate.edges g)

/-- `import_petgraph`: the result and the graph it was built in, which an error drops. -/
def importPetgraph (store : S) (g : G EntitySpec String) : Except KError (KnowledgeGraph S) :=
  match new store with
  | .error e => .error e
  | .ok kg =>
    match importInto g kg with
    | .ok _ kg => .ok kg
    | .error e _ => .error e

end KnowledgeGraph

/-! ## Importing and exporting again

A graph that is imported and exported again keeps its nodes and, between any two of
them, its labels.

`Imported specs edges a` says which model the import has built: the specs under their
ids, and under each subject one relation for each edge from it, in order. One added
relation continues it (`Imported.addRelation`). The export writes one node for each
listed id and, for each subject, the edges of its relations; `labelsBetween` of what
it writes for one subject is that of the imported edges from it. -/

open BlockStore.Faithful (history)

namespace KnowledgeGraph

section

variable [CidCrate] [RustText]

/-- An edge of the graph and the relation it is stored as. -/
def StoredAs (ids : List EntityId) (a : GraphModel) (e : Nat × Nat × String)
    (r : RelationSpec) : Prop :=
  r.predicate = e.2.2 ∧ ∃ object, ids[e.2.1]? = some object ∧ a.indexMap object = some r.object

/-- The model of a graph with these nodes and edges. -/
structure Imported (specs : List EntitySpec) (edges : List (Nat × Nat × String))
    (a : GraphModel) : Prop where
  entities : ∀ id, a.entities id = specs.find? (fun spec => spec.id == id)
  relations : ∀ id, List.Forall₂ (StoredAs (specs.map EntitySpec.id) a)
    (edges.filter (fun e => (specs.map EntitySpec.id)[e.1]? == some id)) (a.relations id)

omit [CidCrate] in
theorem relations_foldl_setEntity (specs : List EntitySpec) : ∀ a : GraphModel,
    (specs.foldl GraphModel.setEntity a).relations = a.relations := by
  induction specs with
  | nil => exact fun _ => rfl
  | cons spec specs ih => exact fun a => ih (a.setEntity spec)

omit [CidCrate] in
/-- Setting entities with different ids, one after the other. -/
theorem entities_foldl_setEntity (id : EntityId) : ∀ (specs : List EntitySpec) (a : GraphModel),
    (specs.map EntitySpec.id).Nodup →
    (specs.foldl GraphModel.setEntity a).entities id
      = (specs.find? (fun spec => spec.id == id)).or (a.entities id)
  | [], _, _ => rfl
  | spec :: specs, a, h => by
    rw [List.map_cons, List.nodup_cons] at h
    rw [List.foldl_cons, entities_foldl_setEntity id specs _ h.2]
    by_cases hid : spec.id = id
    · have hnone : specs.find? (fun spec => spec.id == id) = none := by
        rw [List.find?_eq_none]
        intro spec' hspec' heq
        rw [beq_iff_eq] at heq
        exact h.1 (List.mem_map.mpr ⟨spec', hspec', heq.trans hid.symm⟩)
      have hset : (a.setEntity spec).entities id = some spec := by
        rw [← hid]
        exact Function.update_self _ _ _
      simp [hnone, hset, hid]
    · have hset : (a.setEntity spec).entities id = a.entities id :=
        Function.update_of_ne (Ne.symm hid) _ _
      simp [hset, hid]

theorem imported_nodes {specs : List EntitySpec} (h : (specs.map EntitySpec.id).Nodup) :
    Imported specs [] (specs.foldl GraphModel.setEntity GraphModel.empty) where
  entities id := by
    rw [entities_foldl_setEntity id specs _ h]
    simp [GraphModel.empty]
  relations id := by
    rw [relations_foldl_setEntity]
    exact .nil

variable {specs : List EntitySpec} {edges : List (Nat × Nat × String)} {a : GraphModel}

omit [CidCrate] in
theorem find?_of_mem (hnodup : (specs.map EntitySpec.id).Nodup) {spec : EntitySpec}
    (h : spec ∈ specs) : specs.find? (fun s => s.id == spec.id) = some spec := by
  induction specs with
  | nil => cases h
  | cons s specs ih =>
    rw [List.map_cons, List.nodup_cons] at hnodup
    rw [List.find?_cons]
    rcases List.mem_cons.mp h with rfl | h
    · simp
    · have hne : s.id ≠ spec.id := fun heq => hnodup.1 (heq ▸ List.mem_map_of_mem h)
      rw [beq_false_of_ne hne]
      exact ih hnodup.2 h

/-- The block of a node that has an index. -/
theorem Imported.indexMap (h : Imported specs edges a) (hnodup : (specs.map EntitySpec.id).Nodup)
    {i : Nat} {id : EntityId} (hid : (specs.map EntitySpec.id)[i]? = some id) :
    ∃ spec ∈ specs, spec.id = id ∧ a.indexMap id = some (entityBlock spec).cid := by
  rw [List.getElem?_map] at hid
  obtain ⟨spec, hspec, rfl⟩ := Option.map_eq_some_iff.mp hid
  have hmem := List.mem_of_getElem? hspec
  refine ⟨spec, hmem, rfl, ?_⟩
  rw [GraphModel.indexMap, h.entities, find?_of_mem hnodup hmem]
  rfl

/-- One more edge. -/
theorem Imported.addRelation (h : Imported specs edges a) {i j : Nat}
    {subject object : EntityId} (hsubject : (specs.map EntitySpec.id)[i]? = some subject)
    (hobject : (specs.map EntitySpec.id)[j]? = some object) (r : RelationSpec)
    (hobj : a.indexMap object = some r.object) (hk : (a.entities subject).isSome) :
    Imported specs (edges ++ [(i, j, r.predicate)]) (a.addRelation subject r hk) where
  entities := h.entities
  relations id := by
    have hbefore := h.relations id
    rw [List.filter_append]
    by_cases hid : id = subject
    · subst hid
      have hone : ([(i, j, r.predicate)] : List (Nat × Nat × String)).filter
          (fun e => (specs.map EntitySpec.id)[e.1]? == some id) = [(i, j, r.predicate)] := by
        simp only [List.filter_cons, hsubject]
        simp
      simp only [GraphModel.addRelation, Function.update_self, hone]
      exact List.rel_append hbefore (.cons ⟨rfl, object, hobject, hobj⟩ .nil)
    · have hnone : ([(i, j, r.predicate)] : List (Nat × Nat × String)).filter
          (fun e => (specs.map EntitySpec.id)[e.1]? == some id) = [] := by
        simp only [List.filter_cons, hsubject]
        simp [Ne.symm hid]
      simp only [GraphModel.addRelation, Function.update_of_ne hid, hnone, List.append_nil]
      exact hbefore

end

/-! ## Importing -/

section

variable [CidCrate] [RustText] {S : Type} [BlockStore S]

theorem importNodes_keeps {I : S → Prop} (hI : PutClosed I) (specs : List EntitySpec) :
    Keeps (OfStore I) (importNodes specs : EStateM KError (KnowledgeGraph S) (List EntityId)) := by
  induction specs with
  | nil => exact Keeps.pure _
  | cons spec specs ih =>
    exact Keeps.bind (addEntity_keeps hI spec) (fun _ => Keeps.bind ih (fun _ => Keeps.pure _))

theorem importEdges_keeps {I : S → Prop} (hI : PutClosed I) (ids : List EntityId)
    (edges : List (Nat × Nat × String)) :
    Keeps (OfStore I) (importEdges ids edges : EStateM KError (KnowledgeGraph S) Unit) := by
  induction edges with
  | nil => exact Keeps.pure _
  | cons e edges ih =>
    rw [importEdges]
    split
    · exact Keeps.bind (addRelation_keeps hI _ _ _ _ _) (fun _ => ih)
    · exact Keeps.throw _

variable [BlockStore.Faithful S] [CidCrate.Lawful] {H : List Block}

theorem importNodes_triple (hH : Sound H) (specs : List EntitySpec) :
    ∀ {kg : KnowledgeGraph S} {a : GraphModel}, Refines kg.log kg.index kg.edges a →
      Triple log H (importNodes specs) kg (fun ids kg' => ids = specs.map EntitySpec.id ∧
          Refines kg'.log kg'.index kg'.edges (specs.foldl GraphModel.setEntity a))
        (fun _ _ => False) := by
  induction specs with
  | nil => exact fun hr => Triple.pure ⟨rfl, hr⟩
  | cons spec specs ih =>
    intro kg a hr
    refine Triple.bind (addEntity_triple hH hr spec) (fun _ => grows_of_keeps (fun _ hI =>
      Keeps.bind (importNodes_keeps hI specs) (fun _ => Keeps.pure _))) ?_
    rintro id kg₁ _ ⟨rfl, hr₁, -, -⟩
    refine Triple.bind (ih hr₁) (fun _ => Grows.pure _) ?_
    rintro ids kg₂ _ ⟨rfl, hr₂⟩
    exact Triple.pure ⟨rfl, hr₂⟩

theorem importEdges_triple (hH : Sound H) {specs : List EntitySpec}
    (hnodup : (specs.map EntitySpec.id).Nodup) (edges : List (Nat × Nat × String)) :
    ∀ {done : List (Nat × Nat × String)} {kg : KnowledgeGraph S} {a : GraphModel},
      (∀ e ∈ edges, e.1 < specs.length ∧ e.2.1 < specs.length) →
      Refines kg.log kg.index kg.edges a → Imported specs done a →
      Triple log H (importEdges (specs.map EntitySpec.id) edges) kg
        (fun _ kg' => ∃ a', Refines kg'.log kg'.index kg'.edges a' ∧
          Imported specs (done ++ edges) a') (fun _ _ => False) := by
  induction edges with
  | nil =>
    intro done kg a _ hr himported
    refine Triple.pure ⟨a, hr, ?_⟩
    rwa [List.append_nil]
  | cons e edges ih =>
    intro done kg a hbounds hr himported
    obtain ⟨i, j, label⟩ := e
    obtain ⟨hi, hj⟩ := hbounds _ List.mem_cons_self
    have hsubject : (specs.map EntitySpec.id)[i]? = some specs[i].id := by simp [hi]
    have hobject : (specs.map EntitySpec.id)[j]? = some specs[j].id := by simp [hj]
    obtain ⟨spec, _, _, hsubj⟩ := himported.indexMap hnodup hsubject
    obtain ⟨spec', _, _, hobj⟩ := himported.indexMap hnodup hobject
    let r : RelationSpec :=
      ⟨(entityBlock spec).cid, label, (entityBlock spec').cid, [], F32.one⟩
    simp only [importEdges, hsubject, hobject]
    refine Triple.bind (addRelation_known_triple hH hr hsubj hobj label F32.one [])
      (fun _ => grows_of_keeps (fun _ hI => importEdges_keeps hI _ edges)) ?_
    rintro _ kg₁ _ ⟨hr₁, -, -⟩
    have himported₁ := himported.addRelation hsubject hobject r hobj (known_of_indexMap hsubj)
    refine (ih (fun e he => hbounds e (List.mem_cons_of_mem _ he)) hr₁ himported₁).conseq
      ?_ (fun _ _ h => h)
    rintro _ kg₂ ⟨a', hr₂, himported₂⟩
    refine ⟨a', hr₂, ?_⟩
    rwa [List.append_assoc] at himported₂

variable {G : Type → Type → Type} [DiGraphCrate G] [DiGraphCrate.Lawful G]

open DiGraphCrate in
/-- **The import** succeeds and builds the graph's model. -/
theorem importPetgraph_spec (s₀ : S) (g : G EntitySpec String)
    (hdistinct : ((nodes g).map EntitySpec.id).Nodup)
    (hs : ∀ kg₀, new s₀ = .ok kg₀ → Sound (log (finalState (importInto g kg₀)))) :
    ∃ kg a, importPetgraph s₀ g = .ok kg ∧ Sound kg.log ∧
      Refines kg.log kg.index kg.edges a ∧ Imported (nodes g) (DiGraphCrate.edges g) a := by
  obtain ⟨kg₀, hnew, -, hr₀⟩ := new_spec s₀
  have hH := hs kg₀ hnew
  have hbounds := Lawful.endpoints g
  have htriple : Triple log (log (finalState (importInto g kg₀))) (importInto g) kg₀
      (fun _ kg' => ∃ a', Refines kg'.log kg'.index kg'.edges a' ∧
        Imported (nodes g) ([] ++ DiGraphCrate.edges g) a') (fun _ _ => False) := by
    refine Triple.bind (importNodes_triple hH (nodes g) hr₀)
      (fun _ => grows_of_keeps (fun _ hI => importEdges_keeps hI _ _)) ?_
    rintro ids kg₁ _ ⟨rfl, hr₁⟩
    exact importEdges_triple hH hdistinct _ hbounds hr₁ (imported_nodes hdistinct)
  obtain ⟨_, kg, hrun, a, hr, himported⟩ := htriple.succeeds (fun _ hb => hb)
  rw [hrun] at hH
  refine ⟨kg, a, ?_, hH, hr, himported⟩
  rw [importPetgraph, hnew]
  simp only [hrun]

end

/-! ## Labels between two nodes -/

/-- The labels of the edges from node `i` to node `j`, in order. -/
def labelsBetween (edges : List (Nat × Nat × String)) (i j : Nat) : List String :=
  (edges.filter (fun e => e.1 == i && e.2.1 == j)).map (fun e => e.2.2)

theorem labelsBetween_append (edges edges' : List (Nat × Nat × String)) (i j : Nat) :
    labelsBetween (edges ++ edges') i j = labelsBetween edges i j ++ labelsBetween edges' i j := by
  simp [labelsBetween]

/-- An edge `n` between nodes of `l` that stands for the edge `e` between nodes of
`ids`, from the node with the id `id`. -/
structure SameEdge (ids l : List EntityId) (id : EntityId) (e n : Nat × Nat × String) :
    Prop where
  source : ids[e.1]? = some id
  source' : l[n.1]? = some id
  target : ids[e.2.1]? = l[n.2.1]?
  bound : e.2.1 < ids.length
  label : n.2.2 = e.2.2

/-- A position of a list without repetitions is known by what stands there. -/
theorem getElem?_inj_of_nodup {l : List EntityId} (h : l.Nodup) {i j : Nat} {id : EntityId}
    (hi : l[i]? = some id) (hj : l[j]? = some id) : i = j := by
  obtain ⟨hlt, _⟩ := List.getElem?_eq_some_iff.mp hi
  exact (List.getElem?_inj hlt h).mp (hi.trans hj.symm)

theorem labelsBetween_sameEdges {ids l : List EntityId} {id x y : EntityId} {i j i' j' : Nat}
    (hids : ids.Nodup) (hl : l.Nodup) (hi : ids[i]? = some x) (hj : ids[j]? = some y)
    (hi' : l[i']? = some x) (hj' : l[j']? = some y) {es ns : List (Nat × Nat × String)}
    (h : List.Forall₂ (SameEdge ids l id) es ns) :
    labelsBetween ns i' j' = labelsBetween es i j := by
  induction h with
  | nil => rfl
  | @cons e n es ns hen _ ih =>
    have hsource : n.1 = i' ↔ e.1 = i := by
      constructor
      · rintro rfl
        rw [hen.source'] at hi'
        exact getElem?_inj_of_nodup hids hen.source (hi.trans hi'.symm)
      · rintro rfl
        rw [hen.source] at hi
        exact getElem?_inj_of_nodup hl hen.source' (hi'.trans hi.symm)
    have htarget : n.2.1 = j' ↔ e.2.1 = j := by
      constructor
      · rintro rfl
        exact getElem?_inj_of_nodup hids (hen.target.trans hj') hj
      · rintro rfl
        exact getElem?_inj_of_nodup hl (hen.target.symm.trans hj) hj'
    simp only [labelsBetween, List.filter_cons, beq_eq_decide, hsource, htarget] at ih ⊢
    split
    · rw [List.map_cons, List.map_cons, hen.label, ih]
    · exact ih

/-- The edges from a node are those between it and its targets. -/
theorem labelsBetween_filter {ids : List EntityId} {i j : Nat} {x id : EntityId}
    (hi : ids[i]? = some x) (edges : List (Nat × Nat × String)) :
    labelsBetween (edges.filter (fun e => ids[e.1]? == some id)) i j
      = if x = id then labelsBetween edges i j else [] := by
  have hsource : ∀ e : Nat × Nat × String, e.1 = i → ids[e.1]? = some x := by
    intro e he
    rw [he, hi]
  rw [labelsBetween, List.filter_filter]
  split
  · next hid =>
    subst hid
    rw [labelsBetween]
    congr 1
    apply List.filter_congr
    intro e _
    by_cases he : e.1 = i
    · simp [he, hi]
    · simp [he]
  · next hid =>
    rw [List.map_eq_nil_iff, List.filter_eq_nil_iff]
    intro e _ h
    simp only [Bool.and_eq_true, beq_iff_eq] at h
    obtain ⟨⟨he, _⟩, hsrc⟩ := h
    rw [hsource e he] at hsrc
    exact hid (Option.some.inj hsrc)

/-- The edges from the nodes still to be exported. -/
def edgesFrom (ids todo : List EntityId) (edges : List (Nat × Nat × String)) : Nat :=
  edges.countP (fun e => todo.any (fun id => ids[e.1]? == some id))

theorem edgesFrom_cons {ids todo : List EntityId} {id : EntityId} (h : id ∉ todo)
    (edges : List (Nat × Nat × String)) : edgesFrom ids (id :: todo) edges
      = (edges.filter (fun e => ids[e.1]? == some id)).length + edgesFrom ids todo edges := by
  induction edges with
  | nil => rfl
  | cons e edges ih =>
    unfold edgesFrom at ih ⊢
    rw [List.countP_cons, List.countP_cons, List.filter_cons, ih]
    by_cases hid : ids[e.1]? = some id
    · have hnot : todo.any (fun id' => ids[e.1]? == some id') = false := by
        rw [List.any_eq_false]
        intro id' hmem heq
        rw [beq_iff_eq, hid] at heq
        exact h (Option.some.inj heq ▸ hmem)
      rw [List.any_cons, hnot, hid]
      simp
      omega
    · rw [List.any_cons, beq_eq_false_iff_ne.mpr hid, Bool.false_or]
      simp
      omega

/-! ## Exporting -/

section

variable {G : Type → Type → Type} [DiGraphCrate G] [DiGraphCrate.Lawful G]

open DiGraphCrate (nodes addNode addEdge Lawful)

/-- The index of every node. -/
def Indexes (idx : List (EntityId × Nat)) (l : List EntityId) : Prop :=
  ∀ id k, idx.lookup id = some k ↔ l[k]? = some id

theorem Indexes.append {idx : List (EntityId × Nat)} {l : List EntityId} (h : Indexes idx l)
    {id : EntityId} (hid : id ∉ l) : Indexes ((id, l.length) :: idx) (l ++ [id]) := by
  intro id' k
  rw [List.lookup_cons]
  by_cases hsame : id' = id
  · subst hsame
    rw [beq_self_eq_true]
    constructor
    · intro hk
      cases hk
      simp
    · intro hk
      by_cases hlt : k < l.length
      · rw [List.getElem?_append_left hlt] at hk
        exact absurd (List.mem_of_getElem? hk) hid
      · have hbound := (List.getElem?_eq_some_iff.mp hk).1
        rw [List.length_append, List.length_singleton] at hbound
        have hk : k = l.length := by omega
        rw [hk]
  · rw [beq_false_of_ne hsame]
    show idx.lookup id' = some k ↔ _
    rw [h]
    by_cases hlt : k < l.length
    · rw [List.getElem?_append_left hlt]
    · rw [List.getElem?_eq_none (by omega), List.getElem?_append_right (by omega)]
      cases hsub : k - l.length with
      | zero => simp [Ne.symm hsame]
      | succ n => simp

theorem exportNodes_spec : ∀ (ids : List EntityId) (g : G EntityId String)
    (idx : List (EntityId × Nat)), Indexes idx (nodes g) → (nodes g ++ ids).Nodup →
    (nodes g ++ ids).length ≤ maxIndex →
    nodes (exportNodes ids g idx).1 = nodes g ++ ids ∧
      DiGraphCrate.edges (exportNodes ids g idx).1 = DiGraphCrate.edges g ∧
      Indexes (exportNodes ids g idx).2 (nodes g ++ ids)
  | [], g, idx, h, _, _ => by simpa [exportNodes] using h
  | id :: ids, g, idx, h, hnodup, hle => by
    have hroom : (nodes g).length < maxIndex := by
      rw [List.length_append, List.length_cons] at hle
      omega
    have hid : id ∉ nodes g := by
      intro hmem
      exact (List.nodup_append.mp hnodup).2.2 id hmem id List.mem_cons_self rfl
    have hsplit : nodes g ++ id :: ids = nodes g ++ [id] ++ ids := by simp
    have hnodes := Lawful.nodes_addNode g id hroom
    rw [hsplit] at hnodup hle ⊢
    rw [← hnodes] at hnodup hle ⊢
    have hidx : Indexes ((id, (addNode g id).2) :: idx) (nodes (addNode g id).1) := by
      rw [Lawful.index_addNode g id hroom, hnodes]
      exact h.append hid
    have hrest := exportNodes_spec ids (addNode g id).1 _ hidx hnodup hle
    rw [Lawful.edges_addNode g id hroom] at hrest
    exact hrest

section

variable [CidCrate] [CidCrate.Lawful] [RustText] {S : Type} [BlockStore S]
  [BlockStore.Faithful S] {kg : KnowledgeGraph S} {a : GraphModel}
  {idx : List (EntityId × Nat)} {l : List EntityId}

omit [DiGraphCrate.Lawful G] in
/-- A relation between two listed entities is exported as an edge between their nodes. -/
theorem exportRelation_ok (hs : Sound kg.log) (hr : Refines kg.log kg.index kg.edges a)
    (hidx : Indexes idx l) {r : RelationSpec} {id object : EntityId} {i j : Nat}
    (hi : l[i]? = some id) (hj : l[j]? = some object) (hobject : a.indexMap object = some r.object)
    (g : G EntityId String) : exportRelation kg idx id g ((relationBlock r).cid, r.readNode)
      = .ok (addEdge g i j r.predicate) := by
  obtain ⟨spec, hspec, hcid⟩ := Option.map_eq_some_iff.mp hobject
  have hnode := getNode_entity hs (hr.entity object spec hspec)
  rw [hcid] at hnode
  simp only [exportRelation, RelationSpec.readNode, hnode, ok_bind, entityNode,
    a.keyed object spec hspec, (hidx id i).mpr hi, (hidx object j).mpr hj]

/-- The relations of one subject are exported as the edges they stand for. -/
theorem exportRelations_ok (hs : Sound kg.log) (hr : Refines kg.log kg.index kg.edges a)
    (hidx : Indexes idx l) {ids : List EntityId} (hlisted : ∀ id ∈ ids, id ∈ l) {id : EntityId}
    {i : Nat} (hi : l[i]? = some id) {es : List (Nat × Nat × String)} {rs : List RelationSpec}
    (h : List.Forall₂ (StoredAs ids a) es rs) :
    ∀ g : G EntityId String, (∀ e ∈ es, ids[e.1]? = some id) → nodes g = l →
      (DiGraphCrate.edges g).length + es.length ≤ maxIndex →
      ∃ g', (rs.map (fun r => ((relationBlock r).cid, r.readNode))).foldlM
          (exportRelation kg idx id) g = .ok g' ∧ nodes g' = l ∧
        ∃ ns, DiGraphCrate.edges g' = DiGraphCrate.edges g ++ ns ∧
          List.Forall₂ (SameEdge ids l id) es ns := by
  induction h with
  | nil => exact fun g _ hnodes _ => ⟨g, rfl, hnodes, [], by simp, .nil⟩
  | @cons e r es rs her _ ih =>
    intro g hsource hnodes hroom
    obtain ⟨hpred, object, htarget, hobject⟩ := her
    obtain ⟨j, hj⟩ := List.mem_iff_getElem?.mp (hlisted object (List.mem_of_getElem? htarget))
    rw [List.length_cons] at hroom
    have hilt : i < (nodes g).length := by
      rw [hnodes]
      exact (List.getElem?_eq_some_iff.mp hi).1
    have hjlt : j < (nodes g).length := by
      rw [hnodes]
      exact (List.getElem?_eq_some_iff.mp hj).1
    have hnodes' := Lawful.nodes_addEdge g i j r.predicate hilt hjlt (by omega)
    have hedges' := Lawful.edges_addEdge g i j r.predicate hilt hjlt (by omega)
    obtain ⟨g', hrun, hl, ns, hns, hsame⟩ := ih (addEdge g i j r.predicate)
      (fun e he => hsource e (List.mem_cons_of_mem _ he)) (hnodes'.trans hnodes)
      (by rw [hedges', List.length_append, List.length_singleton]; omega)
    refine ⟨g', ?_, hl, (i, j, r.predicate) :: ns, ?_, .cons ?_ hsame⟩
    · rw [List.map_cons, List.foldlM_cons, exportRelation_ok hs hr hidx hi hj hobject, ok_bind]
      exact hrun
    · rw [hns, hedges', List.append_assoc, List.singleton_append]
    · exact {
        source := hsource e List.mem_cons_self
        source' := hi
        target := htarget.trans hj.symm
        bound := (List.getElem?_eq_some_iff.mp htarget).1
        label := hpred }

/-- The export of the subjects in `todo`. Between two nodes it adds the labels of the
imported graph, if it exports the first of them. -/
theorem exportEdges_ok (hs : Sound kg.log) (hr : Refines kg.log kg.index kg.edges a)
    (hidx : Indexes idx l) (hl : l.Nodup) {specs : List EntitySpec}
    {es : List (Nat × Nat × String)} (himported : Imported specs es a)
    (hids : (specs.map EntitySpec.id).Nodup)
    (hlisted : ∀ id ∈ specs.map EntitySpec.id, id ∈ l) :
    ∀ (todo : List EntityId) (g : G EntityId String), todo.Nodup → (∀ id ∈ todo, id ∈ l) →
      nodes g = l →
      (DiGraphCrate.edges g).length + edgesFrom (specs.map EntitySpec.id) todo es ≤ maxIndex →
      ∃ g', exportEdges kg idx todo g = .ok g' ∧ nodes g' = l ∧
        ∀ (i j i' j' : Nat) (x y : EntityId), (specs.map EntitySpec.id)[i]? = some x →
          (specs.map EntitySpec.id)[j]? = some y → l[i']? = some x → l[j']? = some y →
          labelsBetween (DiGraphCrate.edges g') i' j'
            = labelsBetween (DiGraphCrate.edges g) i' j'
              ++ if x ∈ todo then labelsBetween es i j else []
  | [], g, _, _, hnodes, _ => ⟨g, rfl, hnodes, by simp⟩
  | id :: todo, g, hnodup, hmem, hnodes, hroom => by
    rw [List.nodup_cons] at hnodup
    rw [edgesFrom_cons hnodup.1] at hroom
    obtain ⟨k, hk⟩ := List.mem_iff_getElem?.mp (hmem id List.mem_cons_self)
    obtain ⟨g₁, hrun₁, hnodes₁, ns, hns, hsame⟩ :=
      exportRelations_ok hs hr hidx hlisted hk (himported.relations id) g
        (fun e he => by simpa using (List.mem_filter.mp he).2) hnodes (by omega)
    have hlength := hsame.length_eq
    obtain ⟨g₂, hrun₂, hnodes₂, hlabels⟩ :=
      exportEdges_ok hs hr hidx hl himported hids hlisted todo g₁ hnodup.2
        (fun id' hid' => hmem id' (List.mem_cons_of_mem _ hid')) hnodes₁
        (by rw [hns, List.length_append]; omega)
    refine ⟨g₂, ?_, hnodes₂, ?_⟩
    · rw [exportEdges, relationsOf_eq hs hr, ok_bind, hrun₁, ok_bind, hrun₂]
    · intro i j i' j' x y hi hj hi' hj'
      rw [hlabels i j i' j' x y hi hj hi' hj', hns, labelsBetween_append,
        labelsBetween_sameEdges hids hl hi hj hi' hj' hsame, labelsBetween_filter hi,
        List.append_assoc]
      by_cases hx : x = id
      · subst hx
        simp [hnodup.1]
      · simp [hx]

/-- The ids a graph lists are those of the imported nodes. -/
theorem entityIds_imported (hs : Sound kg.log) (hr : Refines kg.log kg.index kg.edges a)
    {specs : List EntitySpec} {es : List (Nat × Nat × String)} (himported : Imported specs es a)
    (hids : (specs.map EntitySpec.id).Nodup) : ∃ l n, l.Perm (specs.map EntitySpec.id) ∧
      ∀ rounds ≥ n, kg.entityIds rounds = some (.ok l) := by
  obtain ⟨l, n, hnodup, hmem, hlist⟩ := entityIds_of_refines hs hr
  refine ⟨l, n, ?_, hlist⟩
  rw [List.perm_ext_iff_of_nodup hnodup hids]
  intro id
  rw [hmem, himported.entities, List.find?_isSome]
  simp

end

/-- Two graphs with the same nodes, up to their order, and between any two nodes the
same labels. -/
structure SameStructure [RustText] (g : G EntitySpec String) (out : G EntityId String) :
    Prop where
  nodes : (nodes out).Perm ((nodes g).map EntitySpec.id)
  labels : ∀ (i j i' j' : Nat) (source target : EntitySpec),
    (DiGraphCrate.nodes g)[i]? = some source → (DiGraphCrate.nodes g)[j]? = some target →
    (DiGraphCrate.nodes out)[i']? = some source.id →
    (DiGraphCrate.nodes out)[j']? = some target.id →
    labelsBetween (DiGraphCrate.edges out) i' j' = labelsBetween (DiGraphCrate.edges g) i j

/-- **The petgraph round trip.** A graph whose nodes have different identities is
imported, and the export of the result has one node for each of its nodes and, between
any two of them, the same labels as often and even in the same order. -/
theorem export_importPetgraph [CidCrate] [CidCrate.Lawful] [RustText] {S : Type} [BlockStore S]
    [BlockStore.Faithful S] (s₀ : S) (g : G EntitySpec String)
    (hdistinct : ((nodes g).map EntitySpec.id).Nodup)
    (hs : ∀ kg₀, new s₀ = .ok kg₀ → Sound (log (finalState (importInto g kg₀)))) :
    ∃ kg, importPetgraph s₀ g = .ok kg ∧ ∃ (out : G EntityId String) (n : Nat),
        (∀ rounds ≥ n, kg.exportPetgraph rounds = some (.ok out)) ∧ SameStructure g out := by
  obtain ⟨kg, a, hrun, hsound, hr, himported⟩ := importPetgraph_spec s₀ g hdistinct hs
  obtain ⟨l, n, hperm, hlist⟩ := entityIds_imported hsound hr himported hdistinct
  have hl : l.Nodup := hperm.nodup_iff.mpr hdistinct
  have hlength : l.length ≤ maxIndex := by
    rw [hperm.length_eq, List.length_map]
    exact Lawful.length_nodes_le g
  obtain ⟨hnodes, hedges, hidx⟩ := exportNodes_spec l (DiGraphCrate.new : G EntityId String) []
    (by rw [Lawful.nodes_new]; simp [Indexes]) (by rwa [Lawful.nodes_new])
    (by rwa [Lawful.nodes_new])
  rw [Lawful.nodes_new, List.nil_append] at hnodes hidx
  rw [Lawful.edges_new] at hedges
  have hroom : edgesFrom ((nodes g).map EntitySpec.id) l (DiGraphCrate.edges g) ≤ maxIndex :=
    le_trans List.countP_le_length (Lawful.length_edges_le g)
  obtain ⟨out, hout, hnodes', hlabels⟩ := exportEdges_ok hsound hr hidx hl himported hdistinct
    (fun id hid => hperm.mem_iff.mpr hid) l _ hl (fun _ h => h) hnodes
    (by rw [hedges]; simpa using hroom)
  refine ⟨kg, hrun, out, n, ?_, ?_, ?_⟩
  · intro rounds hrounds
    rw [exportPetgraph, hlist rounds hrounds, Option.map_some, ok_bind]
    exact congrArg some hout
  · rw [hnodes']
    exact hperm
  · intro i j i' j' source target hi hj hi' hj'
    rw [hnodes'] at hi' hj'
    rw [hlabels i j i' j' source.id target.id (by rw [List.getElem?_map, hi]; rfl)
      (by rw [List.getElem?_map, hj]; rfl) hi' hj', hedges, if_pos (List.mem_of_getElem? hi')]
    rfl

end

end KnowledgeGraph

/-! ## A graph as its lists -/

/-- A `DiGraph` that is its nodes and its edges. -/
structure ListGraph (N E : Type) where
  nodes : List N
  edges : List (Nat × Nat × E)
  endpoints : ∀ e ∈ edges, e.1 < nodes.length ∧ e.2.1 < nodes.length
  length_nodes_le : nodes.length ≤ maxIndex
  length_edges_le : edges.length ≤ maxIndex

namespace ListGraph

variable {N E : Type}

def addNode (g : ListGraph N E) (n : N) (room : g.nodes.length < maxIndex) : ListGraph N E where
  nodes := g.nodes ++ [n]
  edges := g.edges
  endpoints e he := by
    have := g.endpoints e he
    simp only [List.length_append, List.length_singleton]
    omega
  length_nodes_le := by
    rw [List.length_append, List.length_singleton]
    exact room
  length_edges_le := g.length_edges_le

def addEdge (g : ListGraph N E) (a b : Nat) (e : E) (ha : a < g.nodes.length)
    (hb : b < g.nodes.length) (room : g.edges.length < maxIndex) : ListGraph N E where
  nodes := g.nodes
  edges := g.edges ++ [(a, b, e)]
  endpoints e' he := by
    rcases List.mem_append.mp he with he | he
    · exact g.endpoints e' he
    · rw [List.mem_singleton.mp he]
      exact ⟨ha, hb⟩
  length_nodes_le := g.length_nodes_le
  length_edges_le := by
    rw [List.length_append, List.length_singleton]
    exact room

/-- Where the crate panics, the graph is left as it is. -/
scoped instance crate : DiGraphCrate ListGraph where
  new := ⟨[], [], by simp, Nat.zero_le _, Nat.zero_le _⟩
  addNode g n :=
    if room : g.nodes.length < maxIndex then (g.addNode n room, g.nodes.length)
    else (g, g.nodes.length)
  addEdge g a b e :=
    if h : a < g.nodes.length ∧ b < g.nodes.length ∧ g.edges.length < maxIndex then
      g.addEdge a b e h.1 h.2.1 h.2.2
    else g
  nodes := nodes
  edges := edges

theorem crate_addNode (g : ListGraph N E) (n : N) (room : g.nodes.length < maxIndex) :
    DiGraphCrate.addNode g n = (g.addNode n room, g.nodes.length) := dif_pos room

theorem crate_addEdge (g : ListGraph N E) (a b : Nat) (e : E) (ha : a < g.nodes.length)
    (hb : b < g.nodes.length) (room : g.edges.length < maxIndex) :
    DiGraphCrate.addEdge g a b e = g.addEdge a b e ha hb room := dif_pos ⟨ha, hb, room⟩

scoped instance crate_lawful : DiGraphCrate.Lawful ListGraph where
  nodes_new := rfl
  edges_new := rfl
  index_addNode g n room := by rw [crate_addNode g n room]; rfl
  nodes_addNode g n room := by rw [crate_addNode g n room]; rfl
  edges_addNode g n room := by rw [crate_addNode g n room]; rfl
  nodes_addEdge g a b e ha hb room := by rw [crate_addEdge g a b e ha hb room]; rfl
  edges_addEdge g a b e ha hb room := by rw [crate_addEdge g a b e ha hb room]; rfl
  endpoints := endpoints
  length_nodes_le := length_nodes_le
  length_edges_le := length_edges_le

end ListGraph

open scoped CidFormat AsciiText ListGraph

/-- Two entities, two edges of one label between them, and a loop. -/
def sampleGraph : ListGraph EntitySpec String where
  nodes := [{ kind := "person", name := "Ada" }, { kind := "machine", name := "Engine" }]
  edges := [(0, 1, "designed"), (0, 0, "is"), (0, 1, "designed")]
  endpoints := by decide
  length_nodes_le := by decide
  length_edges_le := by decide

theorem export_importPetgraph_sample :
    ∃ kg, KnowledgeGraph.importPetgraph ({} : MemStore) sampleGraph = .ok kg ∧
      ∃ (out : ListGraph EntityId String) (n : Nat),
        (∀ rounds ≥ n, kg.exportPetgraph rounds = some (.ok out)) ∧
          KnowledgeGraph.SameStructure sampleGraph out := by
  refine KnowledgeGraph.export_importPetgraph ({} : MemStore) sampleGraph (by decide +kernel) ?_
  intro kg₀ hnew
  have hsound : (match KnowledgeGraph.new ({} : MemStore) with
      | .ok kg₀ => decide (Sound (KnowledgeGraph.log
          (finalState (KnowledgeGraph.importInto sampleGraph kg₀))))
      | .error _ => false) = true := by decide +kernel
  rw [hnew] at hsound
  exact of_decide_eq_true hsound

end Ipfrs.Knowledge
