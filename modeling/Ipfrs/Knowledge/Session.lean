/-
Ipfrs.Knowledge.Session — runs of a knowledge graph.

`Op` is a call on a graph, `applyAll` a sequence of them: a failed call keeps what
it changed. `apply_effect` says once what each call does to the model and to the
index; every property of runs is taken from it. A session also commits and reopens
heads, as `open(kg.store().clone(), head)` does.
-/
import Ipfrs.Knowledge.IndexTheorems

namespace Ipfrs.Knowledge

open Ipfrs.Core Ipfrs.Lib
open BlockStore.Faithful (history)
open KnowledgeGraph

/-- A call on a graph; `putBlock` is a put through `store_mut`. -/
inductive Op where
  | addEntity (spec : EntitySpec)
  | addRelation (subject : EntityId) (predicate : String) (object : EntityId) (weight : UInt32)
      (evidence : List Cid)
  | putNode (node : KnowledgeNode)
  | putBlock (cid : Cid) (bytes : List UInt8)
  | commit

section

variable [CidCrate] [RustText] {S : Type} [BlockStore S]

/-- The call, with the head it returns if it is a commit. -/
def Op.call : Op → EStateM KError (KnowledgeGraph S) (Option Cid)
  | .addEntity spec => do
      let _ ← KnowledgeGraph.addEntity spec
      pure none
  | .addRelation subject predicate object weight evidence => do
      let _ ← KnowledgeGraph.addRelation subject predicate object weight evidence
      pure none
  | .putNode node => do
      let _ ← KnowledgeGraph.putNode node
      pure none
  | .putBlock cid bytes => do
      onStore (Knowledge.putBlock cid bytes)
      pure none
  | .commit => do
      let head ← KnowledgeGraph.commit
      pure (some head)

/-- The graph after a call. -/
def Op.apply (op : Op) (kg : KnowledgeGraph S) : KnowledgeGraph S := finalState (op.call kg)

/-- The graph after a sequence of calls. -/
def applyAll (ops : List Op) (kg : KnowledgeGraph S) : KnowledgeGraph S :=
  ops.foldl (fun kg op => op.apply kg) kg

/-! ## What calls keep -/

theorem Op.call_keeps {I : S → Prop} (hI : PutClosed I) (op : Op) :
    Keeps (OfStore I) (op.call : EStateM KError (KnowledgeGraph S) (Option Cid)) := by
  cases op with
  | addEntity spec => exact Keeps.bind (addEntity_keeps hI spec) (fun _ => Keeps.pure _)
  | addRelation subject predicate object weight evidence =>
    exact Keeps.bind (addRelation_keeps hI _ _ _ _ _) (fun _ => Keeps.pure _)
  | putNode node => exact Keeps.bind (putNode_keeps hI node) (fun _ => Keeps.pure _)
  | putBlock cid bytes =>
    refine Keeps.bind (onStore_keeps (Keeps.modify ?_)) (fun _ => Keeps.pure _)
    intro s hs
    exact hI s cid bytes hs
  | commit => exact Keeps.bind (commit_keeps hI) (fun _ => Keeps.pure _)

theorem applyAll_keeps {I : S → Prop} (hI : PutClosed I) (ops : List Op) :
    ∀ {kg : KnowledgeGraph S}, I kg.store → I (applyAll ops kg).store := by
  induction ops with
  | nil =>
    intro kg h
    exact h
  | cons op ops ih =>
    intro kg h
    exact ih (op.call_keeps hI kg h)

variable [BlockStore.Faithful S]

theorem log_subset_apply (op : Op) (kg : KnowledgeGraph S) : ∀ b ∈ kg.log, b ∈ (op.apply kg).log :=
  fun b => op.call_keeps (putClosed_mem b) kg

theorem log_subset_applyAll (ops : List Op) (kg : KnowledgeGraph S) :
    ∀ b ∈ kg.log, b ∈ (applyAll ops kg).log :=
  fun b hb => applyAll_keeps (putClosed_mem b) ops hb

/-! ## What a call does -/

/-- What a call makes of the model `a` and of the index. -/
inductive Effect (kg kg' : KnowledgeGraph S) (a : GraphModel) : Op → GraphModel → Prop
  | entity (spec : EntitySpec) (stored : entityBlock spec ∈ kg'.log)
      (vindex : kg'.vindex = reindexEntity (a.indexMap (EntityId.of spec.kind spec.name))
        (entityBlock spec).cid (entityNode spec) kg.vindex) :
      Effect kg kg' a (.addEntity spec) (a.setEntity spec)
  | relation (subject : EntityId) (predicate : String) (object : EntityId) (weight : UInt32)
      (r : RelationSpec) (known : (a.entities subject).isSome)
      (vindex : kg'.vindex = r.evidence.foldl (citeEvidence kg.store) kg.vindex) :
      Effect kg kg' a (.addRelation subject predicate object weight r.evidence)
        (a.addRelation subject r known)
  | same (op : Op) (vindex : kg'.vindex = kg.vindex) : Effect kg kg' a op a

variable [CidCrate.Lawful] {kg : KnowledgeGraph S} {a : GraphModel}

/-- **One call**: the graph refines the model the call makes. -/
theorem apply_effect (op : Op) (hs : Sound (op.apply kg).log)
    (hr : Refines kg.log kg.index kg.edges a) : ∃ a', Effect kg (op.apply kg) a op a' ∧
      Refines (op.apply kg).log (op.apply kg).index (op.apply kg).edges a' := by
  cases op with
  | addEntity spec =>
    have hfinal : Op.apply (.addEntity spec) kg = finalState (addEntity spec kg) :=
      finalState_bind_pure _ _ _
    rw [hfinal] at hs ⊢
    obtain ⟨id, kg', hrun, rfl, hr', hvindex, -⟩ :=
      (addEntity_triple hs hr spec).succeeds (fun _ hb => hb)
    rw [hrun]
    exact ⟨_, .entity spec (hr'.entity _ spec (Function.update_self _ _ _)) hvindex, hr'⟩
  | addRelation subject predicate object weight evidence =>
    have hfinal : Op.apply (.addRelation subject predicate object weight evidence) kg
        = finalState (addRelation subject predicate object weight evidence kg) :=
      finalState_bind_pure _ _ _
    rw [hfinal] at hs ⊢
    have htriple := addRelation_triple hs hr subject predicate object weight evidence
      (fun _ hb => hb)
    cases hrun : addRelation subject predicate object weight evidence kg with
    | ok cid kg' =>
      rw [hrun] at htriple
      obtain ⟨subjCid, objCid, hk, -, hr', hvindex, -⟩ := htriple
      let r : RelationSpec := ⟨subjCid, predicate, objCid, evidence, weight⟩
      exact ⟨_, .relation subject predicate object weight r hk hvindex, hr'⟩
    | error e kg' =>
      rw [hrun] at htriple
      obtain rfl : kg' = kg := htriple
      exact ⟨a, .same _ rfl, hr⟩
  | putNode node =>
    have happly : Op.apply (.putNode node) kg = kg.putIpld node.toIpld := by
      rw [Op.apply, Op.call, run_bind_ok (putNode_run node kg)]
      rfl
    rw [happly]
    exact ⟨a, .same _ rfl, hr.mono (log_subset_putIpld _ kg)⟩
  | putBlock cid bytes =>
    exact ⟨a, .same _ rfl, hr.mono (log_subset_apply (.putBlock cid bytes) kg)⟩
  | commit =>
    obtain ⟨head, s, hcommit, -, hsub⟩ := commit_spec kg
    have happly : Op.apply .commit kg = { kg with store := s, prev := some head } := by
      rw [Op.apply, Op.call, run_bind_ok hcommit]
      rfl
    rw [happly]
    exact ⟨a, .same _ rfl, hr.mono hsub⟩

omit [BlockStore.Faithful S] [CidCrate.Lawful] in
theorem dim_citeEvidence (s : S) (evidence : List Cid) :
    ∀ ix : VectorIndex, (evidence.foldl (citeEvidence s) ix).dim = ix.dim := by
  induction evidence with
  | nil => exact fun _ => rfl
  | cons ev evidence ih =>
    intro ix
    rw [List.foldl_cons, ih, citeEvidence]
    cases evidenceText s ev with
    | none => rfl
    | some text => rfl

omit [CidCrate.Lawful] in
/-- No call changes the dimension of the index. -/
theorem Effect.dim_eq {kg' : KnowledgeGraph S} {op : Op} {a' : GraphModel}
    (h : Effect kg kg' a op a') : kg'.vindex.dim = kg.vindex.dim := by
  cases h with
  | entity spec _ hvindex =>
    rw [hvindex, reindexEntity, nodeText_entityNode]
    cases a.indexMap (EntityId.of spec.kind spec.name) with
    | none => rfl
    | some old => rfl
  | relation subject predicate object weight r _ hvindex => rw [hvindex, dim_citeEvidence]
  | same _ hvindex => rw [hvindex]

/-- **A sequence of calls**: the graph refines some model throughout. -/
theorem applyAll_refines (ops : List Op) : ∀ {kg : KnowledgeGraph S} {a : GraphModel},
    Sound (applyAll ops kg).log → Refines kg.log kg.index kg.edges a →
      ∃ a', Refines (applyAll ops kg).log (applyAll ops kg).index (applyAll ops kg).edges a' ∧
        (applyAll ops kg).vindex.dim = kg.vindex.dim := by
  induction ops with
  | nil =>
    intro kg a _ hr
    exact ⟨a, hr, rfl⟩
  | cons op ops ih =>
    intro kg a hs hr
    have hs' : Sound (op.apply kg).log := hs.mono (log_subset_applyAll ops _)
    obtain ⟨a₁, heffect, hr₁⟩ := apply_effect op hs' hr
    obtain ⟨a', hr', hdim⟩ := ih hs hr₁
    exact ⟨a', hr', hdim.trans heffect.dim_eq⟩

end

/-! ## Sessions -/

/-- A step of a session. -/
inductive Step where
  | call (op : Op)
  | reopen (head : Cid)

/-- A graph and the heads its commits returned. -/
structure Session (S : Type) where
  graph : KnowledgeGraph S
  heads : List Cid := []

/-- The head a call returned. -/
def issued {S : Type} : EStateM.Result KError (KnowledgeGraph S) (Option Cid) → List Cid
  | .ok (some head) _ => [head]
  | _ => []

section

variable [CidCrate] [RustText] {S : Type} [BlockStore S]

/-- One step: a call, or opening a head on the same blocks. -/
def Session.step (s : Session S) : Step → Session S
  | .call op => { graph := op.apply s.graph, heads := issued (op.call s.graph) ++ s.heads }
  | .reopen head =>
    match openHead s.graph.store head with
    | .ok graph => { s with graph }
    | .error _ => s

def Session.run (s : Session S) (steps : List Step) : Session S := steps.foldl Session.step s

omit [RustText] in
/-- Opening a head leaves the store as it is. -/
theorem store_openHead {store : S} {head : Cid} {kg : KnowledgeGraph S}
    (h : openHead store head = .ok kg) : kg.store = store := by
  unfold openHead at h
  split at h
  · cases h
  · obtain ⟨ipld, _, h⟩ := bind_eq_ok.mp h
    split at h
    · obtain ⟨index, _, h⟩ := bind_eq_ok.mp h
      obtain ⟨edges, _, h⟩ := bind_eq_ok.mp h
      obtain ⟨vindex, _, h⟩ := bind_eq_ok.mp h
      cases h
      rfl
    · cases h

theorem Session.store_reopen (s : Session S) (head : Cid) :
    (s.step (.reopen head)).graph.store = s.graph.store := by
  cases hopen : openHead s.graph.store head with
  | ok graph =>
    simp only [Session.step, hopen]
    exact store_openHead hopen
  | error e => simp only [Session.step, hopen]

variable [BlockStore.Faithful S]

theorem Session.log_subset_step (s : Session S) (step : Step) :
    ∀ b ∈ s.graph.log, b ∈ (s.step step).graph.log := by
  cases step with
  | call op => exact log_subset_apply op s.graph
  | reopen head =>
    intro b hb
    rw [log, s.store_reopen head]
    exact hb

theorem Session.log_subset_run (steps : List Step) : ∀ s : Session S,
    ∀ b ∈ s.graph.log, b ∈ (s.run steps).graph.log := by
  induction steps with
  | nil => exact fun _ _ hb => hb
  | cons step steps ih =>
    intro s b hb
    exact ih (s.step step) b (s.log_subset_step step b hb)

end

/-! ## The maintained index over whole sessions

`Current` says that an index is the index of a model: it is kept by every call
whose evidence can be cited (`Current.apply`), and it holds of every head the
session has committed, so opening one keeps it too. A current index and the index
built from scratch have the same entries, whatever the session did
(`run_vindex_eq_indexGraph`). -/

section

variable [CidCrate] [RustText] {S : Type} [BlockStore S]

/-- A step that cites only evidence which is in the store with its source, and opens
only heads of the session. -/
def Step.permitted (s : Session S) : Step → Bool
  | .call (.addRelation _ _ _ _ evidence) => evidence.all (citable s.graph.store)
  | .call _ => true
  | .reopen head => decide (head ∈ s.heads)

/-- Every step is permitted where it is taken. -/
def Session.permits (s : Session S) : List Step → Bool
  | [] => true
  | step :: steps => step.permitted s && (s.step step).permits steps

variable [BlockStore.Faithful S]

/-- The index `ix` is the index of the model under the two roots. -/
structure Current (s : S) (index edges : Cid) (ix : VectorIndex) (a : GraphModel) : Prop where
  refines : Refines (history s) index edges a
  dim : ix.dim = defaultDim
  indexes : Indexes s a (fun _ => True) a.Cited ix
  citable : ∀ c, a.Cited c → citable s c

theorem Current.mono {s s' : S} {index edges : Cid} {ix : VectorIndex} {a : GraphModel}
    (h : Current s index edges ix a) (hs : Sound (history s'))
    (hsub : ∀ b ∈ history s, b ∈ history s') : Current s' index edges ix a where
  refines := h.refines.mono hsub
  dim := h.dim
  indexes := h.indexes.mono hs hsub h.citable
  citable c hc := (citable_stable hs hsub (h.citable c hc)).1

theorem Current.dimOk {s : S} {index edges : Cid} {ix : VectorIndex} {a : GraphModel}
    (h : Current s index edges ix a) : ix.DimOk := by
  rw [VectorIndex.DimOk, h.dim]
  decide

variable [CidCrate.Lawful] {kg : KnowledgeGraph S} {a : GraphModel}

/-- The index after a call is the index of the model after it. -/
theorem Effect.indexes {kg' : KnowledgeGraph S} {op : Op} {a' : GraphModel}
    (heffect : Effect kg kg' a op a') (hs : Sound kg'.log) (hsub : ∀ b ∈ kg.log, b ∈ kg'.log)
    (h : Current kg.store kg.index kg.edges kg.vindex a)
    (hop : ∀ subject predicate object weight evidence,
      op = .addRelation subject predicate object weight evidence →
        ∀ ev ∈ evidence, citable kg.store ev) :
    Indexes kg'.store a' (fun _ => True) a'.Cited kg'.vindex ∧
      ∀ c, a'.Cited c → citable kg'.store c := by
  have h' := h.mono hs hsub
  cases heffect with
  | entity spec hstored hvindex =>
    rw [hvindex]
    exact ⟨(indexes_setEntity hs h'.refines.entity h'.indexes hstored).1, h'.citable⟩
  | relation subject predicate object weight r hk hvindex =>
    rw [hvindex]
    -- the evidence is read in the store before the call, and is stable from then on
    have hcited : ∀ c, a.Cited c ∨ c ∈ r.evidence → citable kg.store c := by
      rintro c (hc | hc)
      · exact h.citable c hc
      · exact hop _ _ _ _ _ rfl c hc
    have hindexes := (indexes_cite (hs.mono hsub) h.refines.entity r.evidence h.indexes).1
    have hcited' : ∀ c, a.Cited c ∨ c ∈ r.evidence ↔ (a.addRelation subject r hk).Cited c :=
      fun c => cited_addRelation.symm
    have hindexes' := (hindexes.mono hs hsub hcited).congr (fun _ _ => Iff.rfl) hcited'
    refine ⟨⟨hindexes'.mem_iff, hindexes'.distinct⟩, ?_⟩
    intro c hc
    exact (citable_stable hs hsub (hcited c (cited_addRelation.mp hc))).1
  | same _ hvindex =>
    rw [hvindex]
    exact ⟨h'.indexes, h'.citable⟩

/-- **One call** keeps the index current. -/
theorem Current.apply (h : Current kg.store kg.index kg.edges kg.vindex a) (op : Op)
    (hs : Sound (op.apply kg).log) (hop : ∀ subject predicate object weight evidence,
      op = .addRelation subject predicate object weight evidence →
        ∀ ev ∈ evidence, Knowledge.citable kg.store ev) :
    ∃ a', Current (op.apply kg).store (op.apply kg).index (op.apply kg).edges
      (op.apply kg).vindex a' := by
  obtain ⟨a', heffect, hr⟩ := apply_effect op hs h.refines
  obtain ⟨hindexes, hcited⟩ := heffect.indexes hs (log_subset_apply op kg) h hop
  exact ⟨a', hr, heffect.dim_eq.trans h.dim, hindexes, hcited⟩

omit [CidCrate] [RustText] [BlockStore S] [BlockStore.Faithful S] [CidCrate.Lawful] in
theorem issued_bind_none {α : Type} (m : EStateM KError (KnowledgeGraph S) α) :
    issued ((m >>= fun _ => pure none) kg) = [] := by
  cases hrun : m kg with
  | ok x kg' =>
    rw [run_bind_ok hrun]
    rfl
  | error e kg' =>
    rw [run_bind_error hrun]
    rfl

omit [CidCrate.Lawful] in
/-- Only a commit returns a head, and that head is of the graph before it. -/
theorem committed_of_issued {op : Op} {head : Cid} (h : head ∈ issued (op.call kg)) :
    Committed (op.apply kg).log head kg.index kg.edges kg.vindex := by
  cases op with
  | commit =>
    obtain ⟨head', s, hcommit, hc, -⟩ := commit_spec kg
    have hcall : Op.call .commit kg
        = .ok (some head') { kg with store := s, prev := some head' } :=
      run_bind_ok hcommit
    rw [hcall] at h
    rw [Op.apply, hcall]
    obtain rfl : head = head' := List.mem_singleton.mp h
    exact hc
  | addEntity spec | putNode spec =>
    rw [Op.call, issued_bind_none] at h
    cases h
  | addRelation subject predicate object weight evidence =>
    rw [Op.call, issued_bind_none] at h
    cases h
  | putBlock cid bytes =>
    rw [Op.call, issued_bind_none] at h
    cases h

/-! ## The invariant of a session -/

/-- The graph's index is current, and so is the index of every head. -/
structure Session.Inv (s : Session S) : Prop where
  graph : ∃ a, Current s.graph.store s.graph.index s.graph.edges s.graph.vindex a
  heads : ∀ head ∈ s.heads, ∃ index edges ix a, Committed s.graph.log head index edges ix ∧
    Current s.graph.store index edges ix a

/-- **One step** keeps the invariant. -/
theorem Session.Inv.step {s : Session S} (h : s.Inv) {step : Step}
    (hs : Sound (s.step step).graph.log) (hperm : step.permitted s) : (s.step step).Inv := by
  have hsub := s.log_subset_step step
  cases step with
  | call op =>
    obtain ⟨a, hcurrent⟩ := h.graph
    refine ⟨hcurrent.apply op hs ?_, ?_⟩
    · rintro subject predicate object weight evidence rfl
      exact List.all_eq_true.mp hperm
    · intro head hhead
      rcases List.mem_append.mp hhead with hnew | hold
      · exact ⟨_, _, _, a, committed_of_issued hnew, hcurrent.mono hs hsub⟩
      · obtain ⟨index, edges, ix, a', hc, hcurrent'⟩ := h.heads head hold
        exact ⟨index, edges, ix, a', hc.mono hsub, hcurrent'.mono hs hsub⟩
  | reopen head =>
    obtain ⟨index, edges, ix, a, hc, hcurrent⟩ := h.heads head (of_decide_eq_true hperm)
    have hopen := openHead_of_committed (hs.mono hsub) hcurrent.dimOk hc
    simp only [Session.step, hopen] at hs hsub ⊢
    exact ⟨⟨a, hcurrent⟩, h.heads⟩

/-- **Every session** keeps the invariant. -/
theorem Session.Inv.run (steps : List Step) : ∀ {s : Session S}, s.Inv →
    Sound (s.run steps).graph.log → s.permits steps → (s.run steps).Inv := by
  induction steps with
  | nil =>
    intro s h _ _
    exact h
  | cons step steps ih =>
    intro s h hs hperm
    obtain ⟨hstep, hrest⟩ := Bool.and_eq_true_iff.mp hperm
    exact ih (h.step (hs.mono (log_subset_run steps _)) hstep) hs hrest

omit [CidCrate.Lawful] in
theorem Session.inv_new {s₀ : S} {kg : KnowledgeGraph S} (h : new s₀ = .ok kg) :
    Session.Inv { graph := kg } := by
  obtain ⟨kg', hnew, hvindex, hr⟩ := new_spec s₀
  obtain rfl : kg = kg' := Except.ok.inj (h.symm.trans hnew)
  have huncited : ∀ c, ¬ GraphModel.empty.Cited c := by
    rintro c ⟨id, r, hr', _⟩
    cases hr'
  refine ⟨⟨GraphModel.empty, hr, by rw [hvindex]; rfl, ?_, ?_⟩, ?_⟩
  · rw [hvindex]
    refine (indexes_new _ _ _).congr ?_ ?_
    · intro id hid
      cases hid
    · intro c
      exact iff_of_false id (huncited c)
  · intro c hc
    exact absurd hc (huncited c)
  · intro head hhead
    cases hhead

/-- **Incremental indexing is re-indexing.** -/
theorem run_vindex_eq_indexGraph {s₀ : S} {kg₀ : KnowledgeGraph S} (hnew : new s₀ = .ok kg₀)
    (steps : List Step) (hperm : Session.permits { graph := kg₀ } steps)
    (hs : Sound (Session.run { graph := kg₀ } steps).graph.log) :
    let kg := (Session.run { graph := kg₀ } steps).graph
    ∃ n, ∀ rounds ≥ n, ∃ ix, indexGraph rounds kg kg.vindex.dim = some (.ok ix) ∧
      (∀ e, e ∈ kg.vindex.entries ↔ e ∈ ix.entries) ∧ kg.vindex.Distinct ∧ ix.Distinct := by
  intro kg
  obtain ⟨a, hcurrent⟩ := ((Session.inv_new hnew).run steps hs hperm).graph
  obtain ⟨n, hn⟩ := indexGraph_indexes hs hcurrent.refines kg.vindex.dim
  refine ⟨n, ?_⟩
  intro rounds hrounds
  obtain ⟨ix, hix, hindexes, hdim⟩ := hn rounds hrounds
  exact ⟨ix, hix, hcurrent.indexes.same_entries hindexes hdim.symm, hcurrent.indexes.distinct,
    hindexes.distinct⟩

end

open scoped CidFormat AsciiText

/-- A source, evidence that names it, and two versions of an entity. -/
def sampleSource : Block := ipldBlock (.string "a b")

def sampleEvidence : KnowledgeNode := .evidence sampleSource.cid none "" none

def sampleEntity : EntitySpec := { kind := "p", name := "Ada" }

def sampleReplacement : EntitySpec := { kind := "p", name := " ada" }

/-- The entity is cited, replaced, and replaced back. -/
def sampleSteps : List Step :=
  [.call (.addEntity sampleEntity),
    .call (.putBlock sampleSource.cid sampleSource.data),
    .call (.putNode sampleEvidence),
    .call (.addRelation (.of "p" "Ada") "is" (.of "p" "Ada") F32.one
      [(ipldBlock sampleEvidence.toIpld).cid]),
    .call (.addEntity sampleReplacement),
    .call (.addEntity sampleEntity)]

theorem run_vindex_eq_indexGraph_sample :
    ∃ kg₀, new ({} : MemStore) = .ok kg₀ ∧
      Session.permits { graph := kg₀ } sampleSteps = true ∧
      Sound (Session.run { graph := kg₀ } sampleSteps).graph.log ∧
      ∃ rounds ix, indexGraph rounds (Session.run { graph := kg₀ } sampleSteps).graph
          (Session.run { graph := kg₀ } sampleSteps).graph.vindex.dim = some (.ok ix) ∧
        ∀ e, e ∈ (Session.run { graph := kg₀ } sampleSteps).graph.vindex.entries
          ↔ e ∈ ix.entries := by
  have hrun : (match new ({} : MemStore) with
      | .ok kg₀ => Session.permits { graph := kg₀ } sampleSteps &&
          decide (Sound (Session.run { graph := kg₀ } sampleSteps).graph.log)
      | .error _ => false) = true := by decide +kernel
  split at hrun
  · next kg₀ hnew =>
    obtain ⟨hperm, hs⟩ := Bool.and_eq_true_iff.mp hrun
    have hs := of_decide_eq_true hs
    obtain ⟨n, hn⟩ := run_vindex_eq_indexGraph hnew sampleSteps hperm hs
    obtain ⟨ix, hix, hsame, _⟩ := hn n le_rfl
    exact ⟨kg₀, hnew, hperm, hs, n, ix, hix, hsame⟩
  · cases hrun

end Ipfrs.Knowledge
