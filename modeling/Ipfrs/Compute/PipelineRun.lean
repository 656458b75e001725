/-
Ipfrs.Compute.PipelineRun — what a pipeline of sound stages computes.

A stage is sound for a set of values when, given those of its inputs, it publishes those of
its outputs (`SoundStage`). A pipeline of sound stages, each of whose inputs is there from
the start or published before, ends with the values of all outputs (`executePipeline_spec`).
-/
import Ipfrs.Compute.Pipeline

namespace Ipfrs.Compute

variable {S F : Type}

/-! ## Maps of wire tensors -/

namespace WireMap

def keys (m : WireMap S) : List String := m.map Prod.fst

theorem lookup_filter (m : WireMap S) (id id' : String) :
    List.lookup id' (m.filter (fun e => e.1 ≠ id)) = if id' = id then none else m.lookup id' := by
  induction m with
  | nil => simp
  | cons e rest ih =>
    obtain ⟨k, t⟩ := e
    by_cases hk : k = id
    · rw [List.filter_cons_of_neg (by simpa using hk), ih, List.lookup_cons]
      by_cases hid : id' = id
      · simp [hid]
      · have hne : (id' == k) = false := by simpa [hk] using hid
        simp [hid, hne]
    · rw [List.filter_cons_of_pos (by simpa using hk), List.lookup_cons, List.lookup_cons, ih]
      by_cases hid : id' = id
      · have hne : (id == k) = false := by
          rw [beq_eq_false_iff_ne]
          exact fun h => hk h.symm
        rw [hid, hne]
      · simp [hid]

theorem lookup_insert (m : WireMap S) (id id' : String) (t : WireTensor S) :
    List.lookup id' (m.insert id t) = if id' = id then some t else m.lookup id' := by
  rw [insert, List.lookup_append, lookup_filter]
  by_cases hid : id' = id
  · simp [hid]
  · have hne : (id' == id) = false := by simpa using hid
    simp [hid, List.lookup_cons, hne]

theorem keys_insert_nodup {m : WireMap S} (h : m.keys.Nodup) (id : String) (t : WireTensor S) :
    (m.insert id t).keys.Nodup := by
  rw [keys, insert, List.map_append, List.nodup_append]
  refine ⟨h.sublist (List.Sublist.map _ List.filter_sublist), by simp, ?_⟩
  intro a ha b hb
  obtain ⟨e, he, rfl⟩ := List.mem_map.mp ha
  rw [List.map_singleton, List.mem_singleton] at hb
  rw [hb]
  simpa using (List.mem_filter.mp he).2

theorem lookup_extend {new : WireMap S} (hnew : new.keys.Nodup) (m : WireMap S) (id : String) :
    List.lookup id (m.extend new) = (List.lookup id new).or (m.lookup id) := by
  induction new generalizing m with
  | nil => rfl
  | cons e rest ih =>
    obtain ⟨k, t⟩ := e
    obtain ⟨hk, hrest⟩ := List.nodup_cons.mp hnew
    rw [extend, List.foldl_cons]
    change List.lookup id ((m.insert k t).extend rest) = _
    rw [ih hrest, lookup_insert, List.lookup_cons]
    by_cases hid : id = k
    · have hnone : List.lookup id rest = none := by
        rw [List.lookup_eq_none_iff]
        intro p hp
        rw [hid, bne_iff_ne]
        rintro rfl
        exact hk (List.mem_map.mpr ⟨p, hp, rfl⟩)
      simp [hid, hid ▸ hnone]
    · have hne : (id == k) = false := by simpa using hid
      simp [hid, hne]

/-- Inserting what is known of each of a list of keys. -/
theorem foldlM_insert {f : String → Option (WireTensor S)}
    {step : WireMap S → String → Except Fault (WireMap S)}
    (hstep : ∀ m id t, f id = some t → step m id = .ok (m.insert id t)) {ids : List String}
    (hsome : ∀ id ∈ ids, (f id).isSome) (m : WireMap S) (hm : m.keys.Nodup) :
    ∃ out, ids.foldlM step m = .ok out ∧ out.keys.Nodup ∧
      ∀ id, List.lookup id out = if id ∈ ids then f id else m.lookup id := by
  induction ids generalizing m with
  | nil => exact ⟨m, rfl, hm, fun id => by simp⟩
  | cons k rest ih =>
    obtain ⟨t, ht⟩ := Option.isSome_iff_exists.mp (hsome k List.mem_cons_self)
    obtain ⟨out, hout, hnodup, hlookup⟩ :=
      ih (fun id hid => hsome id (List.mem_cons_of_mem _ hid)) (m.insert k t)
        (keys_insert_nodup hm k t)
    refine ⟨out, ?_, hnodup, ?_⟩
    · rw [List.foldlM_cons, hstep m k t ht]
      exact hout
    · intro id
      rw [hlookup id, lookup_insert]
      by_cases hid : id = k
      · simp [hid, ht]
      · simp [hid]

end WireMap

/-! ## One stage -/

/-- The map holds these values, where they are. -/
def Holds (D : Env S) (m : WireMap S) (ids : String → Prop) : Prop :=
  ∀ id, ids id → (D id).isSome ∧ m.lookup id = (D id).map WireTensor.fromNum

theorem fromNum_injective : Function.Injective (@WireTensor.fromNum S) := by
  rintro ⟨data, shape, valid⟩ ⟨data', shape', valid'⟩ h
  cases h
  rfl

/-- What comes off the wire: every entry, where each was put on it. -/
theorem mapM_intoNum {m : WireMap S}
    (h : ∀ e ∈ m, ∃ t, e.2 = WireTensor.fromNum t) :
    ∃ l : List (String × NumTensor S),
      m.mapM (fun e => do pure (e.1, ← e.2.intoNum)) = (.ok l : Except Fault _) ∧
      ∀ id, (List.lookup id l).map WireTensor.fromNum = m.lookup id := by
  induction m with
  | nil => exact ⟨[], rfl, fun id => rfl⟩
  | cons e rest ih =>
    obtain ⟨l, hl, hlookup⟩ := ih (fun e he => h e (List.mem_cons_of_mem _ he))
    obtain ⟨t, ht⟩ := h e List.mem_cons_self
    refine ⟨(e.1, t) :: l, ?_, ?_⟩
    · rw [List.mapM_cons, ht, WireTensor.intoNum_fromNum, hl]
      rfl
    · intro id
      rw [List.lookup_cons, List.lookup_cons, ht]
      cases id == e.1 with
      | true => rfl
      | false => exact hlookup id

theorem mem_of_keys_nodup {m : WireMap S} (h : m.keys.Nodup) {e : String × WireTensor S}
    (he : e ∈ m) : List.lookup e.1 m = some e.2 := by
  induction m with
  | nil => cases he
  | cons x rest ih =>
    obtain ⟨hx, hrest⟩ := List.nodup_cons.mp h
    rw [List.lookup_cons]
    rcases List.mem_cons.mp he with rfl | he
    · simp
    · have hne : (e.1 == x.1) = false := by
        rw [beq_eq_false_iff_ne]
        intro heq
        exact hx (heq ▸ List.mem_map_of_mem he)
      rw [hne]
      exact ih hrest he

section

variable [F32 S] [F64 F] [Casts S F]

/-- Given the values of its inputs, the stage's graph computes those of its outputs. -/
structure SoundStage (D : Env S) (stage : PipelineStage F) : Prop where
  execute : ∀ (σ : Shuffle) (inputs : Env S), (∀ id ∈ stage.inputIds, inputs id = D id) →
    ∃ env, stage.graph.execute σ inputs = .ok env ∧ ∀ id ∈ stage.outputIds, env id = D id
  outputs : ∀ id ∈ stage.outputIds, (D id).isSome

/-- Any peer runs the request as `run_stage` does, its hash maps in any order. -/
def Faithful (transport : String → StageRequest S F → Except Fault (StageResponse S)) : Prop :=
  ∀ peer req, ∃ σ, transport peer req = executeStage σ req

variable {transport : String → StageRequest S F → Except Fault (StageResponse S)}
  {D : Env S} {stage : PipelineStage F} {env : WireMap S}

theorem runStage_spec (h : SoundStage D stage) (σ : Shuffle) {inputs : WireMap S}
    (hkeys : inputs.keys.Nodup) (hinputs : ∀ id, List.lookup id inputs =
      if id ∈ stage.inputIds then (D id).map WireTensor.fromNum else none) :
    ∃ outputs, runStage σ ⟨stage.graph, inputs, stage.outputIds⟩ = .ok outputs ∧
      outputs.keys.Nodup ∧ ∀ id, List.lookup id outputs =
        if id ∈ stage.outputIds then (D id).map WireTensor.fromNum else none := by
  have hentries : ∀ e ∈ inputs, ∃ t, e.2 = WireTensor.fromNum t := by
    intro e he
    have hlookup := mem_of_keys_nodup hkeys he
    rw [hinputs] at hlookup
    split at hlookup
    · obtain ⟨t, -, ht⟩ := Option.map_eq_some_iff.mp hlookup
      exact ⟨t, ht.symm⟩
    · cases hlookup
  obtain ⟨l, hl, hlookup⟩ := mapM_intoNum hentries
  have hbound : ∀ id ∈ stage.inputIds, List.lookup id l = D id := by
    intro id hid
    apply Option.map_injective fromNum_injective
    rw [hlookup, hinputs, if_pos hid]
  obtain ⟨values, hexec, hvalues⟩ := h.execute σ (fun id => List.lookup id l) hbound
  have hstep : ∀ (m : WireMap S) id t, (values id).map WireTensor.fromNum = some t →
      publish values m id = .ok (m.insert id t) := by
    intro m id t ht
    obtain ⟨x, hx, rfl⟩ := Option.map_eq_some_iff.mp ht
    rw [publish, hx]
  have hsome : ∀ id ∈ stage.outputIds, ((values id).map WireTensor.fromNum).isSome := by
    intro id hid
    rw [Option.isSome_map, hvalues id hid]
    exact h.outputs id hid
  obtain ⟨out, hout, hnodup, hlook⟩ := WireMap.foldlM_insert hstep hsome [] List.nodup_nil
  refine ⟨out, ?_, hnodup, ?_⟩
  · rw [runStage, hl]
    change (do
      let env ← stage.graph.execute σ (fun id => List.lookup id l)
      stage.outputIds.foldlM (publish env) []) = _
    rw [hexec]
    exact hout
  · intro id
    rw [hlook id]
    by_cases hid : id ∈ stage.outputIds
    · rw [if_pos hid, if_pos hid, hvalues id hid]
    · rw [if_neg hid, if_neg hid, List.lookup_nil]

/-- A sound stage whose inputs are there adds its outputs to the environment. -/
theorem pipelineStep_spec (htransport : Faithful transport) (h : SoundStage D stage) (i : Nat)
    (hin : Holds D env (· ∈ stage.inputIds)) :
    ∃ env', pipelineStep transport env i stage = .ok env' ∧ ∀ id, List.lookup id env' =
        if id ∈ stage.outputIds then (D id).map WireTensor.fromNum else List.lookup id env := by
  have hpull : ∀ (m : WireMap S) id t, List.lookup id env = some t →
      pull env i stage m id = .ok (m.insert id t) := by
    intro m id t ht
    rw [pull, ht]
  have hsome : ∀ id ∈ stage.inputIds, (List.lookup id env).isSome := by
    intro id hid
    obtain ⟨hD, hlookup⟩ := hin id hid
    rw [hlookup, Option.isSome_map]
    exact hD
  obtain ⟨inputs, hinputs, hkeys, hlookup⟩ :=
    WireMap.foldlM_insert hpull hsome [] List.nodup_nil
  obtain ⟨σ, hσ⟩ := htransport stage.peer ⟨stage.graph, inputs, stage.outputIds⟩
  have hlookup' : ∀ id, List.lookup id inputs =
      if id ∈ stage.inputIds then (D id).map WireTensor.fromNum else none := by
    intro id
    rw [hlookup id]
    by_cases hid : id ∈ stage.inputIds
    · rw [if_pos hid, if_pos hid, (hin id hid).2]
    · rw [if_neg hid, if_neg hid, List.lookup_nil]
  obtain ⟨out, hout, hnodup, houtLookup⟩ := runStage_spec h σ hkeys hlookup'
  refine ⟨env.extend out, ?_, ?_⟩
  · simp [pipelineStep, hinputs, hσ, executeStage, hout, bind, Except.bind, StageResponse.ok,
      pure, Except.pure]
  · intro id
    rw [WireMap.lookup_extend hnodup, houtLookup]
    by_cases hid : id ∈ stage.outputIds
    · obtain ⟨t, ht⟩ := Option.isSome_iff_exists.mp (h.outputs id hid)
      simp [hid, ht]
    · simp [hid]

/-! ## All stages -/

/-- Each stage finds its inputs: there from the start, or published before. -/
def Ready : (String → Prop) → List (PipelineStage F) → Prop
  | _, [] => True
  | there, stage :: rest =>
    (∀ id ∈ stage.inputIds, there id) ∧ Ready (fun id => there id ∨ id ∈ stage.outputIds) rest

theorem pipelineFrom_spec (htransport : Faithful transport) {stages : List (PipelineStage F)}
    (hsound : ∀ stage ∈ stages, SoundStage D stage) {there : String → Prop}
    (hready : Ready there stages) (henv : Holds D env there) (i : Nat) :
    ∃ env', pipelineFrom transport i stages env = .ok env' ∧
      Holds D env' (fun id => there id ∨ ∃ stage ∈ stages, id ∈ stage.outputIds) := by
  induction stages generalizing there env i with
  | nil => exact ⟨env, rfl, fun id hid => henv id (by simpa using hid)⟩
  | cons stage rest ih =>
    have hstage := hsound stage List.mem_cons_self
    obtain ⟨env₁, hstep, hlookup⟩ :=
      pipelineStep_spec htransport hstage i (fun id hid => henv id (hready.1 id hid))
    have henv₁ : Holds D env₁ (fun id => there id ∨ id ∈ stage.outputIds) := by
      intro id hid
      rw [hlookup id]
      by_cases hout : id ∈ stage.outputIds
      · exact ⟨hstage.outputs id hout, if_pos hout⟩
      · rw [if_neg hout]
        exact henv id (hid.resolve_right hout)
    obtain ⟨env', hrun, henv'⟩ :=
      ih (fun s hs => hsound s (List.mem_cons_of_mem _ hs)) hready.2 henv₁ (i + 1)
    refine ⟨env', ?_, ?_⟩
    · rw [pipelineFrom, hstep]
      exact hrun
    · intro id hid
      refine henv' id ?_
      simpa [or_assoc] using hid

/-- **Pipelines.** Sound stages whose inputs are there in time end with the values of all
outputs. -/
theorem executePipeline_spec (htransport : Faithful transport)
    {stages : List (PipelineStage F)} (hsound : ∀ stage ∈ stages, SoundStage D stage)
    {there : String → Prop} (hready : Ready there stages) {initial : WireMap S}
    (hinitial : Holds D initial there) : ∃ env, executePipeline stages transport initial = .ok env ∧
      Holds D env (fun id => there id ∨ ∃ stage ∈ stages, id ∈ stage.outputIds) :=
  pipelineFrom_spec htransport hsound hready hinitial 0

end

end Ipfrs.Compute
