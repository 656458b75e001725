/-
Ipfrs.Compute.PipelineTheorems — a planned pipeline computes what the graph computes.

A stage is fed from the start with graph inputs, and otherwise with what a stage before it
publishes: planned stages are ready in order (`ready_of_plan`). So the pipeline ends with
the values of the graph (`planPipeline_correct`). Contiguous chunks for distinct peers can
always be ordered, by the places of the peers (`planPipelineContiguous_isOk`).
-/
import Ipfrs.Compute.PipelinePlan

namespace Ipfrs.Compute

open Ipfrs.Lib Ipfrs.Lib.Topo

variable {S F : Type}

theorem Ready.mono {P Q : String → Prop} {stages : List (PipelineStage F)} (h : Ready P stages)
    (hPQ : ∀ id, P id → Q id) : Ready Q stages := by
  induction stages generalizing P Q with
  | nil => trivial
  | cons stage rest ih =>
    exact ⟨fun id hid => hPQ id (h.1 id hid),
      ih h.2 (fun id hid => hid.imp_left (hPQ id))⟩

namespace ComputationGraph

variable {g : ComputationGraph F} {placement : String → Option String}
  {topo : List String} {s : Boundaries}

/-- A stage is fed graph inputs and what the stages that it uses publish. -/
theorem boundary_source (hclosed : g.Closed) (hplaced : g.Placed placement)
    (hs : g.Bounds placement s) {p b : String} (hb : b ∈ atKey s.boundary p) :
    b ∈ g.inputs ∨ ∃ q ∈ sourcesOf s p, b ∈ atKey s.outputs q := by
  obtain ⟨n, hn, hp, hfed⟩ := hs.mem_boundary.mp hb
  by_cases hin : b ∈ g.inputs
  · exact .inl hin
  · right
    have hbn : b ∈ n.inputs ∧ placement b ≠ some p := by
      rcases hfed with ⟨-, hin'⟩ | ⟨hbn, hin' | hne⟩
      · exact absurd hin' hin
      · exact absurd hin' hin
      · exact ⟨hbn, hne⟩
    obtain ⟨q, hq⟩ := Option.isSome_iff_exists.mp (hplaced b (hclosed n hn b hbn.1))
    have hqp : q ≠ p := by
      intro h
      exact hbn.2 (h ▸ hq)
    refine ⟨q, ?_, ?_⟩
    · exact mem_sourcesOf.mpr (hs.mem_edges.mpr ⟨n, hn, hp, hqp, b, hbn.1, hin, hq⟩)
    · refine hs.mem_outputs.mpr ⟨n, hn, hq, .inr ⟨hbn.1, hin, ?_⟩⟩
      intro h
      rw [hp] at h
      exact hqp (Option.some.inj h).symm

/-- The stages of a part of the order, with the stages `done` before it. -/
theorem ready_of_plan (hclosed : g.Closed) (hperm : topo.Perm g.ids)
    (hsorted : Sorted g.needs [] topo) (hplaced : g.Placed placement)
    (hs : g.Bounds placement s) {done order : List String}
    (horder : Sorted (sourcesOf s) done order) {stages : List (PipelineStage F)}
    (hstages : order.mapM (g.assembleStage placement topo s) = .ok stages) :
    Ready (fun id => id ∈ g.inputs ∨ ∃ p ∈ done, id ∈ atKey s.outputs p) stages := by
  induction order generalizing done stages with
  | nil =>
    cases hstages
    trivial
  | cons p rest ih =>
    rw [List.mapM_cons] at hstages
    obtain ⟨stage, hstage, hstages⟩ := bind_eq_ok.mp hstages
    obtain ⟨later, hlater, hstages⟩ := bind_eq_ok.mp hstages
    cases hstages
    obtain ⟨stage', hstage', hin, hout, -⟩ := assemble_graph hclosed hperm hsorted hs p
    rw [hstage] at hstage'
    cases hstage'
    refine ⟨?_, (ih horder.2 hlater).mono ?_⟩
    · intro id hid
      rw [hin] at hid
      rcases boundary_source hclosed hplaced hs hid with hinput | ⟨q, hq, hpub⟩
      · exact .inl hinput
      · exact .inr ⟨q, horder.1 q hq, hpub⟩
    · intro id hid
      rw [hout]
      rcases hid with hinput | ⟨q, hq, hpub⟩
      · exact .inl (.inl hinput)
      · rcases List.mem_cons.mp hq with rfl | hq
        · exact .inr hpub
        · exact .inl (.inr ⟨q, hq, hpub⟩)

theorem mem_stages_of_mapM {f : String → Except Fault (PipelineStage F)}
    {order : List String} {stages : List (PipelineStage F)} (h : order.mapM f = .ok stages) :
    (∀ stage ∈ stages, ∃ p ∈ order, f p = .ok stage) ∧
      ∀ p ∈ order, ∃ stage ∈ stages, f p = .ok stage := by
  induction order generalizing stages with
  | nil =>
    cases h
    simp
  | cons p rest ih =>
    rw [List.mapM_cons] at h
    obtain ⟨stage, hstage, h⟩ := bind_eq_ok.mp h
    obtain ⟨later, hlater, h⟩ := bind_eq_ok.mp h
    cases h
    obtain ⟨hto, hfrom⟩ := ih hlater
    constructor
    · simp only [List.forall_mem_cons, List.exists_mem_cons_iff]
      exact ⟨.inl hstage, fun st hst => .inr (hto st hst)⟩
    · simp only [List.forall_mem_cons, List.exists_mem_cons_iff]
      exact ⟨.inl hstage, fun q hq => .inr (hfrom q hq)⟩

section

variable [F32 S] [F64 F] [Casts S F] {inputs D : Env S}

/-- A planned pipeline over a faithful transport ends with the values of the graph. -/
theorem planPipeline_correct {σ σ₁ : Shuffle} {stages : List (PipelineStage F)}
    {transport : String → StageRequest S F → Except Fault (StageResponse S)}
    {initial : WireMap S} (hvalid : g.Valid) (hleaves : g.LeafInputs)
    (hplan : g.planPipeline σ placement = .ok stages) (hexec : g.execute σ₁ inputs = .ok D)
    (hinitial : ∀ id, List.lookup id initial = (inputs id).map WireTensor.fromNum)
    (htransport : Faithful transport) : ∃ env, executePipeline stages transport initial = .ok env ∧
      ∀ o ∈ g.outputs, ∃ t, D o = some t ∧ List.lookup o env = some (WireTensor.fromNum t) := by
  obtain ⟨hD, htotal⟩ := (execute_eq_ok_iff hvalid.closed hvalid.acyclic σ₁).mp hexec
  obtain ⟨topo, s, order, hperm, hsorted, hplaced, hs, horder, horderSorted, hstages⟩ :=
    planPipeline_eq_ok hvalid.closed hplan
  obtain ⟨hto, hfrom⟩ := mem_stages_of_mapM hstages
  have hassembled := fun p =>
    assemble_sound hvalid.closed hleaves hperm hsorted hs hD htotal p
  have hsound : ∀ stage ∈ stages, SoundStage D stage := by
    intro stage hmem
    obtain ⟨p, -, hp⟩ := hto stage hmem
    obtain ⟨stage', hstage', -, -, hsound⟩ := hassembled p
    rw [hp] at hstage'
    cases hstage'
    exact hsound
  have hready := ready_of_plan hvalid.closed hperm hsorted hplaced hs horderSorted hstages
  have hstart : Holds D initial
      (fun id => id ∈ g.inputs ∨ ∃ p ∈ ([] : List String), id ∈ atKey s.outputs p) := by
    intro id hid
    have hin : id ∈ g.inputs := by simpa using hid
    obtain ⟨n, hn, rfl, hleaf⟩ := (hleaves id).mp hin
    have hval := hD.1 n hn
    rw [numeric.leaf hleaf] at hval
    rw [hinitial, hval]
    exact ⟨hval ▸ htotal n.id (id_mem hn), rfl⟩
  obtain ⟨env, hrun, henv⟩ := executePipeline_spec htransport hsound hready hstart
  refine ⟨env, hrun, ?_⟩
  intro o ho
  obtain ⟨n, hn, rfl⟩ := mem_ids.mp (hvalid.outputs o ho)
  obtain ⟨p, hp⟩ := Option.isSome_iff_exists.mp (hplaced n.id (id_mem hn))
  obtain ⟨stage, hstage, hpstage⟩ :=
    hfrom p (horder.mem_iff.mpr ((mem_stagesOf hperm).mpr ⟨n, hn, hp⟩))
  obtain ⟨stage', hstage', -, hout, -⟩ := hassembled p
  rw [hpstage] at hstage'
  cases hstage'
  have hpub : n.id ∈ stage.outputIds := by
    rw [hout]
    exact hs.mem_outputs.mpr ⟨n, hn, hp, .inl ⟨rfl, ho⟩⟩
  obtain ⟨hsome, hlookup⟩ := henv n.id (.inr ⟨stage, hstage, hpub⟩)
  obtain ⟨t, ht⟩ := Option.isSome_iff_exists.mp hsome
  exact ⟨t, ht, by rw [hlookup, ht, Option.map_some]⟩

end

/-! ## Contiguous chunks -/

theorem mem_owners {peers : List String} (hne : peers ≠ []) {n : Nat} {p : String}
    (hp : p ∈ owners peers n) : p ∈ peers := by
  rw [owners, List.mem_append, List.mem_flatMap] at hp
  rcases hp with ⟨e, he, hpe⟩ | hlast
  · rw [(List.mem_replicate.mp hpe).2]
    exact (List.mem_zipIdx' he).2 ▸ List.getElem_mem _
  · rw [(List.mem_replicate.mp hlast).2, List.getLastD_eq_getLast?,
      List.getLast?_eq_some_getLast hne, Option.getD_some]
    exact List.getLast_mem hne

theorem peers_pairwise {peers : List String} (hnodup : peers.Nodup) :
    peers.Pairwise (fun p q => peers.idxOf p ≤ peers.idxOf q) := by
  rw [List.pairwise_iff_getElem]
  intro i j hi hj hij
  rw [hnodup.idxOf_getElem, hnodup.idxOf_getElem]
  exact Nat.le_of_lt hij

/-- The peers come in order. -/
theorem owners_pairwise {peers : List String} (hnodup : peers.Nodup) (hne : peers ≠ [])
    (n : Nat) : (owners peers n).Pairwise (fun p q => peers.idxOf p ≤ peers.idxOf q) := by
  have hlast : ∀ p ∈ peers, peers.idxOf p ≤ peers.idxOf (peers.getLastD "") := by
    intro p hp
    have hlt := List.idxOf_lt_length_iff.mpr hp
    rw [List.getLastD_eq_getLast?, List.getLast?_eq_some_getLast hne, Option.getD_some,
      List.getLast_eq_getElem, hnodup.idxOf_getElem]
    omega
  rw [owners, List.pairwise_append]
  refine ⟨?_, ?_, ?_⟩
  · rw [List.pairwise_flatMap]
    constructor
    · intro e _
      exact List.pairwise_replicate.mpr (.inr (Nat.le_refl _))
    · have hpairs : peers.zipIdx.Pairwise
          (fun a b => peers.idxOf a.1 ≤ peers.idxOf b.1) := by
        have hmap : (peers.zipIdx.map Prod.fst).Pairwise
            (fun p q => peers.idxOf p ≤ peers.idxOf q) := by
          rw [List.zipIdx_map_fst]
          exact peers_pairwise hnodup
        rwa [List.pairwise_map] at hmap
      refine hpairs.imp ?_
      intro a b hab x hx y hy
      rw [(List.mem_replicate.mp hx).2, (List.mem_replicate.mp hy).2]
      exact hab
  · exact List.pairwise_replicate.mpr (.inr (Nat.le_refl _))
  · intro p hp q hq
    rw [(List.mem_replicate.mp hq).2]
    exact hlast p (mem_owners hne (n := n) (List.mem_append_left _ hp))

theorem lookup_zip {l o : List String} {x : String} (hx : x ∈ l) :
    List.lookup x (l.zip o) = o[l.idxOf x]? := by
  induction l generalizing o with
  | nil => cases hx
  | cons y rest ih =>
    cases o with
    | nil => simp
    | cons z o =>
      rw [List.zip_cons_cons, List.lookup_cons, List.idxOf_cons]
      by_cases hxy : x = y
      · simp [hxy]
      · have hne : (x == y) = false := by simpa using hxy
        have hne' : (y == x) = false := by simpa using Ne.symm hxy
        rw [hne, hne']
        exact ih ((List.mem_cons.mp hx).resolve_left hxy)

/-- Chunks of a sorted order, one for each of some distinct peers, can be planned. -/
theorem planPipelineContiguous_isOk {peers : List String} (hvalid : g.Valid)
    (hnodup : peers.Nodup) (hne : peers ≠ []) (σ σ' : Shuffle) :
    ∃ stages, g.planPipelineContiguous σ σ' peers = .ok stages := by
  obtain ⟨topo, hsort⟩ := (topologicalSort_isOk_iff σ).mpr hvalid.acyclic
  obtain ⟨hperm, hsorted⟩ := topologicalSort_eq_ok hsort
  have hlen : topo.length ≤ (owners peers topo.length).length := by
    rw [owners, List.length_append, List.length_replicate]
    omega
  have hplace : ∀ id ∈ g.ids, ∃ h : topo.idxOf id < (owners peers topo.length).length,
      List.lookup id (topo.zip (owners peers topo.length)) =
        some ((owners peers topo.length)[topo.idxOf id]) := by
    intro id hid
    have hmem : id ∈ topo := hperm.mem_iff.mpr hid
    have hlt : topo.idxOf id < (owners peers topo.length).length :=
      Nat.lt_of_lt_of_le (List.idxOf_lt_length_iff.mpr hmem) hlen
    exact ⟨hlt, by rw [lookup_zip hmem, List.getElem?_eq_getElem hlt]⟩
  have hplaced : g.Placed
      (fun id => List.lookup id (topo.zip (owners peers topo.length))) := by
    intro id hid
    obtain ⟨_, h⟩ := hplace id hid
    exact Option.isSome_of_eq_some h
  have hrank : ∀ n ∈ g.nodes, ∀ p q,
      g.Crosses (fun id => List.lookup id (topo.zip (owners peers topo.length))) n (p, q) →
        peers.idxOf p < peers.idxOf q := by
    intro n hn p q hcross
    obtain ⟨hq, hpq, op, hop, -, hp⟩ := hcross
    have hopId := hvalid.closed n hn op hop
    have hbefore : topo.idxOf op < topo.idxOf n.id :=
      hsorted.ranks (hperm.nodup_iff.mpr g.distinct) n.id (hperm.mem_iff.mpr (id_mem hn)) op
        (by rwa [hvalid.closed.needs hn])
    obtain ⟨hlt, hplace₁⟩ := hplace op hopId
    obtain ⟨hlt', hplace₂⟩ := hplace n.id (id_mem hn)
    have hpeq := Option.some.inj (hplace₁.symm.trans hp)
    have hqeq := Option.some.inj (hplace₂.symm.trans hq)
    have hle := List.pairwise_iff_getElem.mp (owners_pairwise hnodup hne topo.length) _ _
      hlt hlt' hbefore
    rw [hpeq, hqeq] at hle
    have hpmem : p ∈ peers := mem_owners hne (hpeq ▸ List.getElem_mem hlt)
    refine Nat.lt_of_le_of_ne hle (fun heq => hpq ?_)
    exact (List.idxOf_inj hpmem).mp heq
  obtain ⟨stages, hstages⟩ :=
    @planPipeline_isOk F g _ σ' hvalid.closed hvalid.acyclic hplaced _ hrank
  refine ⟨stages, ?_⟩
  rw [planPipelineContiguous, if_neg hne, hsort]
  exact hstages

section

variable [F32 S] [F64 F] [Casts S F]

/-- **Distributed execution.** A pipeline planned for any placement, over a transport that
runs the stages faithfully, succeeds where local execution does and has the same tensor for
every output; and contiguous chunks for distinct peers never make a cycle of stages. -/
theorem pipeline_correct {σ₀ : Shuffle} (hvalid : g.validate σ₀ = .ok ()) (hleaves : g.LeafInputs) :
    (∀ (σ σ₁ : Shuffle) (placement : String → Option String)
      (stages : List (PipelineStage F)) (inputs D : Env S) (initial : WireMap S)
      (transport : String → StageRequest S F → Except Fault (StageResponse S)),
      g.planPipeline σ placement = .ok stages → g.execute σ₁ inputs = .ok D →
      (∀ id, List.lookup id initial = (inputs id).map WireTensor.fromNum) → Faithful transport →
      ∃ env, executePipeline stages transport initial = .ok env ∧
        ∀ o ∈ g.outputs, ∃ t, D o = some t ∧ List.lookup o env = some (WireTensor.fromNum t)) ∧
    (∀ (σ σ' : Shuffle) (peers : List String), peers.Nodup →
      g.planPipelineContiguous σ σ' peers ≠ .error (.err cyclicStages)) := by
  have hv := (validate_eq_ok_iff σ₀).mp hvalid
  constructor
  · intro σ σ₁ placement stages inputs D initial transport hplan hexec hinitial htransport
    exact planPipeline_correct hv hleaves hplan hexec hinitial htransport
  · intro σ σ' peers hnodup
    by_cases hne : peers = []
    · have hempty : g.planPipelineContiguous σ σ' peers =
          .error (.err (.invalidGraph "plan_pipeline_contiguous: no peers")) := by
        rw [planPipelineContiguous, if_pos hne]
        rfl
      rw [hempty]
      simp [cyclicStages]
    · obtain ⟨stages, hstages⟩ := planPipelineContiguous_isOk hv hnodup hne σ σ'
      rw [hstages]
      simp

end

/-- The difference of two inputs, and its square. -/
def differenceSquared : ComputationGraph Int where
  nodes := [⟨"a", .input "a", [], none⟩, ⟨"b", .input "b", [], none⟩,
    ⟨"d", .sub, ["a", "b"], none⟩, ⟨"s", .mul, ["d", "d"], none⟩]
  distinct := by decide
  inputs := ["a", "b"]
  outputs := ["s", "d"]

/-- The first peer owns one input and the square, the second the rest. -/
def splitPlacement (id : String) : Option String :=
  if id = "a" ∨ id = "s" then some "p" else some "q"

/-- The square is published after the difference comes back. -/
theorem pipeline_correct_split :
    ∃ stages env, differenceSquared.planPipeline inOrder splitPlacement = .ok stages ∧
      executePipeline stages (fun _ req => executeStage inOrder req)
        [("a", ⟨[5], [1]⟩), ("b", ⟨[3], [1]⟩)] = .ok env ∧
      List.lookup "s" env = some ⟨[(4 : Int)], [1]⟩ := by
  have hvalid : differenceSquared.validate inOrder = .ok () := by decide
  have hleaves : differenceSquared.LeafInputs := by
    intro id
    constructor
    · intro hid
      have hor : id = "a" ∨ id = "b" := by simpa [differenceSquared] using hid
      rcases hor with rfl | rfl
      · exact ⟨_, List.mem_cons_self, rfl, rfl⟩
      · exact ⟨_, List.mem_cons_of_mem _ List.mem_cons_self, rfl, rfl⟩
    · rintro ⟨n, hn, rfl, hleaf⟩
      revert n
      decide
  let inputs : Env Int :=
    fun id => if id = "a" then some (scalar 5) else if id = "b" then some (scalar 3) else none
  have hplanned : (differenceSquared.planPipeline inOrder splitPlacement).toOption.isSome := by
    decide
  have hran : (differenceSquared.execute inOrder inputs).toOption.bind (fun D => D "s") =
      some (scalar 4) := by decide
  obtain ⟨stages, hplan⟩ := Option.isSome_iff_exists.mp hplanned
  obtain ⟨D, hexec, hs⟩ := Option.bind_eq_some_iff.mp hran
  have hinitial : ∀ id, List.lookup id [("a", ⟨[(5 : Int)], [1]⟩), ("b", ⟨[3], [1]⟩)] =
      (inputs id).map WireTensor.fromNum := by
    intro id
    by_cases ha : id = "a"
    · subst ha
      decide
    · by_cases hb : id = "b"
      · subst hb
        decide
      · have ha' : (id == "a") = false := by simpa using ha
        have hb' : (id == "b") = false := by simpa using hb
        simp [inputs, ha, hb, ha', hb', List.lookup_cons]
  obtain ⟨env, hrun, hout⟩ := (pipeline_correct hvalid hleaves).1 inOrder inOrder
    splitPlacement stages inputs D _ (fun _ req => executeStage inOrder req)
    (Dataflow.toOption_eq_some.mp hplan) (Dataflow.toOption_eq_some.mp hexec) hinitial
    (fun _ _ => ⟨inOrder, rfl⟩)
  obtain ⟨t, ht, hlookup⟩ := hout "s" (by decide)
  rw [hs] at ht
  refine ⟨stages, env, Dataflow.toOption_eq_some.mp hplan, hrun, ?_⟩
  rw [hlookup, ← Option.some.inj ht]
  rfl

end ComputationGraph

end Ipfrs.Compute
