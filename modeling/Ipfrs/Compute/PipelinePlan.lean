/-
Ipfrs.Compute.PipelinePlan — what the planner builds.

The first loop finds the boundary of each stage and the edges between stages
(`boundaries_spec`). Each stage is assembled into a graph of its own nodes and of
placeholders, on which the values of the whole graph are the denotation
(`assemble_sound`). A plan lists the stages in an order of their edges
(`planPipeline_eq_ok`), and there is one wherever the edges can be ranked
(`planPipeline_isOk`).
-/
import Ipfrs.Compute.PipelineRun

namespace Ipfrs.Compute

open Ipfrs.Lib Ipfrs.Lib.Topo

variable {S F : Type}

/-! ## The first loop -/

theorem mem_pushUnique {pushes : Pushes} {key val : String} {e : String × String} :
    e ∈ pushUnique pushes key val ↔ e ∈ pushes ∨ e = (key, val) := by
  unfold pushUnique
  split
  · next h =>
    constructor
    · exact .inl
    · rintro (he | rfl)
      · exact he
      · exact h
  · simp

theorem mem_atKey {pushes : Pushes} {key val : String} :
    val ∈ atKey pushes key ↔ (key, val) ∈ pushes := by
  simp [atKey]

/-- What a step adds to each of the three. -/
structure Adds (B O E : String × String → Prop) (s s' : Boundaries) : Prop where
  boundary : ∀ e, e ∈ s'.boundary ↔ e ∈ s.boundary ∨ B e
  outputs : ∀ e, e ∈ s'.outputs ↔ e ∈ s.outputs ∨ O e
  edges : ∀ e, e ∈ s'.edges ↔ e ∈ s.edges ∨ E e

theorem foldlM_adds {α : Type} {f : Boundaries → α → Except Fault Boundaries}
    {B O E : α → String × String → Prop} {l : List α}
    (h : ∀ x ∈ l, ∀ s, ∃ s', f s x = .ok s' ∧ Adds (B x) (O x) (E x) s s') (s : Boundaries) :
    ∃ s', l.foldlM f s = .ok s' ∧
      Adds (fun e => ∃ x ∈ l, B x e) (fun e => ∃ x ∈ l, O x e) (fun e => ∃ x ∈ l, E x e) s s' := by
  induction l generalizing s with
  | nil => exact ⟨s, rfl, ⟨by simp, by simp, by simp⟩⟩
  | cons x rest ih =>
    obtain ⟨s₁, hs₁, hadds₁⟩ := h x List.mem_cons_self s
    obtain ⟨s', hs', hadds'⟩ := ih (fun y hy => h y (List.mem_cons_of_mem _ hy)) s₁
    refine ⟨s', ?_, ?_⟩
    · rw [List.foldlM_cons, hs₁]
      exact hs'
    · constructor
      · intro e
        rw [hadds'.boundary, hadds₁.boundary]
        simp [or_assoc]
      · intro e
        rw [hadds'.outputs, hadds₁.outputs]
        simp [or_assoc]
      · intro e
        rw [hadds'.edges, hadds₁.edges]
        simp [or_assoc]

namespace ComputationGraph

variable {g : ComputationGraph F} {placement : String → Option String}

theorem planOperand_adds (stage : String) {op : String} (hplaced : (placement op).isSome)
    (s : Boundaries) : ∃ s', g.planOperand placement stage s op = .ok s' ∧
      Adds (fun e => e.1 = stage ∧ e.2 = op ∧ (op ∈ g.inputs ∨ placement op ≠ some stage))
        (fun e => e.2 = op ∧ op ∉ g.inputs ∧ placement op = some e.1 ∧ e.1 ≠ stage)
        (fun e => e.2 = stage ∧ op ∉ g.inputs ∧ placement op = some e.1 ∧ e.1 ≠ stage) s s' := by
  obtain ⟨prod, hprod⟩ := Option.isSome_iff_exists.mp hplaced
  unfold planOperand
  by_cases hin : op ∈ g.inputs
  · rw [if_pos hin]
    refine ⟨_, rfl, ⟨fun e => ?_, fun e => ?_, fun e => ?_⟩⟩
    · rw [mem_pushUnique]
      simp [hin, Prod.ext_iff]
    · simp [hin]
    · simp [hin]
  · rw [if_neg hin, hprod]
    dsimp only
    by_cases hstage : prod = stage
    · rw [if_pos hstage]
      refine ⟨_, rfl, ⟨fun e => ?_, fun e => ?_, fun e => ?_⟩⟩
      · simp [hin, hstage]
      · simp only [Option.some.injEq, hstage]
        grind
      · simp only [Option.some.injEq, hstage]
        grind
    · rw [if_neg hstage]
      refine ⟨_, rfl, ⟨fun e => ?_, fun e => ?_, fun e => ?_⟩⟩
      · rw [mem_pushUnique]
        simp [hstage, Prod.ext_iff]
      · rw [mem_pushUnique]
        simp only [Prod.ext_iff, Option.some.injEq]
        grind
      · rw [mem_pushUnique]
        simp only [Prod.ext_iff, Option.some.injEq]
        grind

/-- A stage is fed a graph input that it owns or uses, and any operand from elsewhere. -/
def Feeds (g : ComputationGraph F) (placement : String → Option String) (n : GraphNode F)
    (e : String × String) : Prop :=
  placement n.id = some e.1 ∧
    ((e.2 = n.id ∧ e.2 ∈ g.inputs) ∨
      (e.2 ∈ n.inputs ∧ (e.2 ∈ g.inputs ∨ placement e.2 ≠ some e.1)))

/-- A stage publishes the graph outputs that it owns, and what other stages use. -/
def Publishes (g : ComputationGraph F) (placement : String → Option String)
    (n : GraphNode F) (e : String × String) : Prop :=
  placement e.2 = some e.1 ∧
    ((e.2 = n.id ∧ e.2 ∈ g.outputs) ∨
      (e.2 ∈ n.inputs ∧ e.2 ∉ g.inputs ∧ placement n.id ≠ some e.1))

/-- One stage uses what another publishes. -/
def Crosses (g : ComputationGraph F) (placement : String → Option String) (n : GraphNode F)
    (e : String × String) : Prop :=
  placement n.id = some e.2 ∧ e.1 ≠ e.2 ∧
    ∃ op ∈ n.inputs, op ∉ g.inputs ∧ placement op = some e.1

theorem planOwn_adds (stage : String) (s : Boundaries) (id : String) :
    Adds (fun e => e.1 = stage ∧ e.2 = id ∧ id ∈ g.inputs)
      (fun e => e.1 = stage ∧ e.2 = id ∧ id ∈ g.outputs) (fun _ => False)
      s (g.planOwn stage s id) := by
  unfold planOwn
  refine ⟨fun e => ?_, fun e => ?_, fun e => ?_⟩
  · by_cases h : id ∈ g.inputs
    · simp [h, mem_pushUnique, Prod.ext_iff]
    · simp [h]
  · by_cases h : id ∈ g.outputs
    · simp [h, mem_pushUnique, Prod.ext_iff]
    · simp [h]
  · simp

theorem planNode_adds {n : GraphNode F} (hn : n ∈ g.nodes) (hplaced : (placement n.id).isSome)
    (hinputs : ∀ op ∈ n.inputs, (placement op).isSome) (s : Boundaries) :
    ∃ s', g.planNode placement s n.id = .ok s' ∧
      Adds (g.Feeds placement n) (g.Publishes placement n) (g.Crosses placement n) s s' := by
  obtain ⟨stage, hstage⟩ := Option.isSome_iff_exists.mp hplaced
  unfold planNode
  rw [get_id hn, hstage]
  dsimp only
  have hown := g.planOwn_adds stage s n.id
  obtain ⟨s', hs', hadds⟩ := foldlM_adds
    (fun op hop => g.planOperand_adds stage (hinputs op hop)) (g.planOwn stage s n.id)
  refine ⟨s', hs', ⟨fun e => ?_, fun e => ?_, fun e => ?_⟩⟩
  · rw [hadds.boundary, hown.boundary, or_assoc, Feeds, hstage]
    grind
  · rw [hadds.outputs, hown.outputs, or_assoc, Publishes, hstage]
    grind
  · rw [hadds.edges, hown.edges, or_assoc, Crosses, hstage]
    grind

/-- Every node has a peer. -/
def Placed (g : ComputationGraph F) (placement : String → Option String) : Prop :=
  ∀ id ∈ g.ids, (placement id).isSome

/-- What the first loop finds. -/
def Bounds (g : ComputationGraph F) (placement : String → Option String) (s : Boundaries) :
    Prop :=
  Adds (fun e => ∃ n ∈ g.nodes, g.Feeds placement n e)
    (fun e => ∃ n ∈ g.nodes, g.Publishes placement n e)
    (fun e => ∃ n ∈ g.nodes, g.Crosses placement n e)
    { boundary := [], outputs := [], edges := [] } s

variable {own topo : List String} {p : String} {s : Boundaries}

theorem exists_id_iff (hperm : topo.Perm g.ids) (P : GraphNode F → Prop) :
    (∃ id ∈ topo, ∃ n ∈ g.nodes, n.id = id ∧ P n) ↔ ∃ n ∈ g.nodes, P n := by
  constructor
  · rintro ⟨_, -, n, hn, -, hP⟩
    exact ⟨n, hn, hP⟩
  · rintro ⟨n, hn, hP⟩
    exact ⟨n.id, hperm.mem_iff.mpr (id_mem hn), n, hn, rfl, hP⟩

theorem exists_same_id_iff {n : GraphNode F} (hn : n ∈ g.nodes) (P : GraphNode F → Prop) :
    (∃ m ∈ g.nodes, m.id = n.id ∧ P m) ↔ P n := by
  constructor
  · rintro ⟨m, hm, hid, hP⟩
    exact List.inj_on_of_nodup_map g.distinct hm hn hid ▸ hP
  · exact fun hP => ⟨n, hn, rfl, hP⟩

theorem boundaries_spec (hclosed : g.Closed) (hplaced : g.Placed placement)
    (hperm : topo.Perm g.ids) :
    ∃ s, topo.foldlM (g.planNode placement) { boundary := [], outputs := [], edges := [] } =
      .ok s ∧ g.Bounds placement s := by
  have hstep : ∀ id ∈ topo, ∀ s, ∃ s', g.planNode placement s id = .ok s' ∧
      Adds (fun e => ∃ n ∈ g.nodes, n.id = id ∧ g.Feeds placement n e)
        (fun e => ∃ n ∈ g.nodes, n.id = id ∧ g.Publishes placement n e)
        (fun e => ∃ n ∈ g.nodes, n.id = id ∧ g.Crosses placement n e) s s' := by
    intro id hid s
    obtain ⟨n, hn, rfl⟩ := mem_ids.mp (hperm.mem_iff.mp hid)
    obtain ⟨s', hs', hadds⟩ := planNode_adds hn (hplaced n.id (id_mem hn))
      (fun op hop => hplaced op (hclosed n hn op hop)) s
    refine ⟨s', hs', ⟨fun e => ?_, fun e => ?_, fun e => ?_⟩⟩
    · rw [hadds.boundary, exists_same_id_iff hn]
    · rw [hadds.outputs, exists_same_id_iff hn]
    · rw [hadds.edges, exists_same_id_iff hn]
  obtain ⟨s, hs, hadds⟩ := foldlM_adds hstep { boundary := [], outputs := [], edges := [] }
  refine ⟨s, hs, ⟨fun e => ?_, fun e => ?_, fun e => ?_⟩⟩
  · rw [hadds.boundary, exists_id_iff hperm]
  · rw [hadds.outputs, exists_id_iff hperm]
  · rw [hadds.edges, exists_id_iff hperm]

/-! ## The graph of a stage -/

/-- The nodes of a graph are those of some identifiers. -/
def Made (sub : ComputationGraph F) (nodeOf : String → GraphNode F) (P : String → Prop) :
    Prop :=
  ∀ n, n ∈ sub.nodes ↔ ∃ id, P id ∧ n = nodeOf id

variable {sub : ComputationGraph F} {nodeOf : String → GraphNode F} {P : String → Prop}

theorem Made.mem_ids (h : Made sub nodeOf P) (hid : ∀ id, (nodeOf id).id = id) {v : String} :
    v ∈ sub.ids ↔ P v := by
  rw [ComputationGraph.mem_ids]
  constructor
  · rintro ⟨n, hn, rfl⟩
    obtain ⟨id, hP, rfl⟩ := (h n).mp hn
    rwa [hid]
  · exact fun hP => ⟨nodeOf v, (h _).mpr ⟨v, hP, rfl⟩, hid v⟩

theorem Made.addNode (h : Made sub nodeOf P) (hid : ∀ id, (nodeOf id).id = id) {v : String}
    (hinputs : ∀ i ∈ (nodeOf v).inputs, P i) :
    ∃ sub', sub.addNode (nodeOf v) = .ok sub' ∧ Made sub' nodeOf (fun id => P id ∨ id = v) := by
  refine ⟨sub.insert (nodeOf v), ?_, ?_⟩
  · rw [ComputationGraph.addNode]
    have hnone : (nodeOf v).inputs.find?
        (fun i => !sub.containsKey i && !sub.inputs.contains i) = none := by
      rw [List.find?_eq_none]
      intro i hi
      simp [containsKey_iff.mpr ((h.mem_ids hid).mpr (hinputs i hi))]
    rw [hnone]
  · intro n
    rw [mem_insert, h n, hid]
    constructor
    · rintro (⟨⟨id, hP, rfl⟩, -⟩ | rfl)
      · exact ⟨id, .inl hP, rfl⟩
      · exact ⟨v, .inr rfl, rfl⟩
    · rintro ⟨id, hP, rfl⟩
      by_cases hv : id = v
      · exact .inr (by rw [hv])
      · exact .inl ⟨⟨id, hP.resolve_right hv, rfl⟩, by rwa [hid]⟩

theorem Made.congr {Q : String → Prop} (h : Made sub nodeOf P) (hPQ : ∀ id, P id ↔ Q id) :
    Made sub nodeOf Q := by
  intro n
  simp only [h n, hPQ]

/-- A node the stage owns, or a placeholder. -/
def stageNode (g : ComputationGraph F) (own : List String) (id : String) : GraphNode F :=
  if id ∈ own then (g.get id).getD (placeholder id) else placeholder id

theorem stageNode_id (own : List String) (id : String) : (g.stageNode own id).id = id := by
  unfold stageNode
  split
  · cases hget : g.get id with
    | none => rfl
    | some n => exact (get_eq_some.mp hget).2
  · rfl

theorem stageNode_own {n : GraphNode F} (hn : n ∈ g.nodes) (hown : n.id ∈ own) :
    g.stageNode own n.id = n := by
  rw [stageNode, if_pos hown, get_id hn, Option.getD_some]

theorem addPlaceholders_run (bvec : List String) (h : Made sub (g.stageNode own) P) :
    ∃ sub', bvec.foldlM (addPlaceholders own) sub = .ok sub' ∧
      Made sub' (g.stageNode own) (fun id => P id ∨ (id ∈ bvec ∧ id ∉ own)) := by
  induction bvec generalizing sub P with
  | nil => exact ⟨sub, rfl, h.congr (by simp)⟩
  | cons b rest ih =>
    by_cases hown : b ∈ own
    · obtain ⟨sub', hsub', hmade⟩ := ih h
      refine ⟨sub', ?_, hmade.congr ?_⟩
      · rw [List.foldlM_cons, addPlaceholders, if_pos hown]
        exact hsub'
      · intro id
        grind
    · have hnode : g.stageNode own b = placeholder b := if_neg hown
      obtain ⟨sub₁, hsub₁, hmade₁⟩ :=
        h.addNode (stageNode_id own) (v := b) (by simp [hnode, placeholder, GraphNode.new])
      have hmark : Made (sub₁.markInput b) (g.stageNode own) (fun id => P id ∨ id = b) := by
        intro n
        rw [nodes_markInput]
        exact hmade₁ n
      obtain ⟨sub', hsub', hmade⟩ := ih hmark
      refine ⟨sub', ?_, hmade.congr ?_⟩
      · rw [List.foldlM_cons, addPlaceholders, if_neg hown, ← hnode, hsub₁]
        exact hsub'
      · intro id
        grind

/-- The nodes of a stage, in sorted order: each finds its inputs. -/
theorem addOwn_run {there : String → Prop} (hclosed : g.Closed)
    (howns : ∀ id ∈ g.ids, id ∈ own ↔ placement id = some p)
    (hthere : ∀ n ∈ g.nodes, placement n.id = some p → ∀ i ∈ n.inputs,
      placement i ≠ some p → there i) {done rest : List String} (hrest : ∀ id ∈ rest, id ∈ g.ids)
    (hsorted : Sorted g.needs done rest)
    (h : Made sub (g.stageNode own) (fun id => there id ∨ (id ∈ done ∧ placement id = some p))) :
    ∃ sub', (rest.filter (fun id => placement id = some p)).foldlM g.addOwn sub = .ok sub' ∧
      Made sub' (g.stageNode own)
        (fun id => there id ∨ ((id ∈ done ∨ id ∈ rest) ∧ placement id = some p)) := by
  induction rest generalizing sub done with
  | nil => exact ⟨sub, rfl, h.congr (by simp)⟩
  | cons v rest ih =>
    obtain ⟨n, hn, rfl⟩ := mem_ids.mp (hrest v List.mem_cons_self)
    have hrest' : ∀ id ∈ rest, id ∈ g.ids :=
      fun id hid => hrest id (List.mem_cons_of_mem _ hid)
    by_cases hp : placement n.id = some p
    · have hnode := stageNode_own hn ((howns n.id (id_mem hn)).mpr hp)
      have hinputs : ∀ i ∈ (g.stageNode own n.id).inputs,
          there i ∨ (i ∈ done ∧ placement i = some p) := by
        intro i hi
        rw [hnode] at hi
        by_cases hip : placement i = some p
        · exact .inr ⟨hsorted.1 i (by rwa [hclosed.needs hn]), hip⟩
        · exact .inl (hthere n hn hp i hi hip)
      obtain ⟨sub₁, hsub₁, hmade₁⟩ := h.addNode (stageNode_id own) hinputs
      have hnext : Made sub₁ (g.stageNode own)
          (fun id => there id ∨ (id ∈ n.id :: done ∧ placement id = some p)) :=
        hmade₁.congr (fun id => by grind)
      obtain ⟨sub', hsub', hmade⟩ := ih hrest' hsorted.2 hnext
      refine ⟨sub', ?_, hmade.congr (fun id => by grind)⟩
      have hadd : g.addOwn sub n.id = .ok sub₁ := by
        rw [addOwn, get_id hn]
        rw [hnode] at hsub₁
        simp [hsub₁, liftGraph, Except.mapError]
      rw [List.filter_cons_of_pos (by simpa using hp), List.foldlM_cons, hadd]
      exact hsub'
    · have hnext : Made sub (g.stageNode own)
          (fun id => there id ∨ (id ∈ n.id :: done ∧ placement id = some p)) :=
        h.congr (fun id => by grind)
      obtain ⟨sub', hsub', hmade⟩ := ih hrest' hsorted.2 hnext
      refine ⟨sub', ?_, hmade.congr (fun id => by grind)⟩
      rw [List.filter_cons_of_neg (by simpa using hp)]
      exact hsub'

/-- A graph of own nodes and placeholders, over the values of the whole graph. -/
structure StageGraph (g : ComputationGraph F) (sub : ComputationGraph F) (own : List String)
    (P : String → Prop) : Prop where
  made : Made sub (g.stageNode own) P
  owned : ∀ id ∈ own, id ∈ g.ids
  closed : ∀ n ∈ g.nodes, n.id ∈ own → ∀ i ∈ n.inputs, P i

/-- Exactly the leaves are graph inputs. -/
def LeafInputs (g : ComputationGraph F) : Prop :=
  ∀ id, id ∈ g.inputs ↔ ∃ n ∈ g.nodes, n.id = id ∧ n.op.isLeaf = true

theorem Bounds.mem_boundary (h : g.Bounds placement s) {b : String} :
    b ∈ atKey s.boundary p ↔ ∃ n ∈ g.nodes, g.Feeds placement n (p, b) := by
  rw [mem_atKey, h.boundary]
  simp

theorem Bounds.mem_outputs (h : g.Bounds placement s) {o : String} :
    o ∈ atKey s.outputs p ↔ ∃ n ∈ g.nodes, g.Publishes placement n (p, o) := by
  rw [mem_atKey, h.outputs]
  simp

theorem assemble_graph (hclosed : g.Closed) (hperm : topo.Perm g.ids)
    (hsorted : Sorted g.needs [] topo) (hs : g.Bounds placement s) (p : String) :
    ∃ stage, g.assembleStage placement topo s p = .ok stage ∧
      stage.inputIds = atKey s.boundary p ∧ stage.outputIds = atKey s.outputs p ∧
      StageGraph g stage.graph (ownNodes placement topo p)
        (fun id => id ∈ atKey s.boundary p ∨ id ∈ ownNodes placement topo p) := by
  let own := ownNodes placement topo p
  let there : String → Prop := fun id => id ∈ atKey s.boundary p ∧ id ∉ own
  have hown : ∀ id, id ∈ own ↔ id ∈ g.ids ∧ placement id = some p := by
    intro id
    simp [own, ownNodes, hperm.mem_iff]
  have hfed : ∀ n ∈ g.nodes, placement n.id = some p → ∀ i ∈ n.inputs,
      placement i ≠ some p → i ∈ atKey s.boundary p :=
    fun n hn hp i hi hip => hs.mem_boundary.mpr ⟨n, hn, hp, .inr ⟨hi, .inr hip⟩⟩
  have hthere : ∀ n ∈ g.nodes, placement n.id = some p → ∀ i ∈ n.inputs,
      placement i ≠ some p → there i := by
    intro n hn hp i hi hip
    refine ⟨hfed n hn hp i hi hip, ?_⟩
    rw [hown]
    exact fun h => hip h.2
  have hempty : Made (ComputationGraph.new : ComputationGraph F) (g.stageNode own)
      (fun _ => False) := by
    intro n
    simp [ComputationGraph.new]
  obtain ⟨sub₁, hsub₁, hmade₁⟩ := addPlaceholders_run (atKey s.boundary p) hempty
  have hstart : Made sub₁ (g.stageNode own)
      (fun id => there id ∨ (id ∈ ([] : List String) ∧ placement id = some p)) :=
    hmade₁.congr (fun id => by simp [there])
  obtain ⟨sub₂, hsub₂, hmade₂⟩ := addOwn_run hclosed
    (fun id hid => by rw [hown]; exact and_iff_right hid) hthere
    (fun id hid => hperm.mem_iff.mp hid) hsorted hstart
  let sub₃ := ((atKey s.boundary p).filter (fun bid => bid ∈ own)).foldl markInput sub₂
  let sub₄ := (atKey s.outputs p).foldl markOutput sub₃
  have hnodes : sub₄.nodes = sub₂.nodes := by
    rw [nodes_foldl_mark (fun g id => nodes_markOutput id),
      nodes_foldl_mark (fun g id => nodes_markInput id)]
  refine ⟨⟨p, sub₄, atKey s.boundary p, atKey s.outputs p⟩, ?_, rfl, rfl, ?_, ?_, ?_⟩
  · have hown₂ : own.foldlM g.addOwn sub₁ = .ok sub₂ := hsub₂
    simp [assembleStage, own, hsub₁, hown₂, bind, Except.bind, pure, Except.pure, sub₃, sub₄]
  · intro n
    rw [hnodes, hmade₂ n]
    refine exists_congr (fun id => and_congr_left (fun _ => ?_))
    have hmem : (id ∈ topo ∧ placement id = some p) ↔ id ∈ own := by simp [own, ownNodes]
    simp only [List.not_mem_nil, false_or, hmem, there]
    tauto
  · exact fun id hid => ((hown id).mp hid).1
  · intro n hn hmem i hi
    have hp := ((hown n.id).mp hmem).2
    by_cases hip : placement i = some p
    · exact .inr ((hown i).mpr ⟨hclosed n hn i hi, hip⟩)
    · exact .inl (hfed n hn hp i hi hip)

section

variable [F32 S] [F64 F] [Casts S F] {inputs D : Env S}

/-- Bound to the values of the whole graph at its leaves, it has them at every node. -/
theorem StageGraph.execute (h : StageGraph g sub own P) (hclosed : g.Closed)
    (hacyclic : g.Acyclic) (hD : numeric.Means g inputs D) (htotal : ∀ v, P v → (D v).isSome)
    {bound : Env S} (hplaceholder : ∀ v, P v → v ∉ own → bound v = D v)
    (hleaf : ∀ n ∈ g.nodes, n.id ∈ own → n.op.isLeaf = true → bound n.id = D n.id) (σ : Shuffle) :
    ∃ env, sub.execute σ bound = .ok env ∧ ∀ v, P v → env v = D v := by
  have hids : ∀ v, v ∈ sub.ids ↔ P v := fun v => h.made.mem_ids (stageNode_id own)
  have hnode : ∀ n ∈ sub.nodes, P n.id ∧
      ((n ∈ g.nodes ∧ n.id ∈ own) ∨ (n = placeholder n.id ∧ n.id ∉ own)) := by
    intro n hn
    obtain ⟨id, hP, rfl⟩ := (h.made n).mp hn
    rw [stageNode_id]
    refine ⟨hP, ?_⟩
    by_cases hown : id ∈ own
    · obtain ⟨m, hm, rfl⟩ := mem_ids.mp (h.owned id hown)
      rw [stageNode_own hm hown]
      exact .inl ⟨hm, hown⟩
    · exact .inr ⟨if_neg hown, hown⟩
  have hsubClosed : sub.Closed := by
    intro n hn i hi
    rw [hids]
    rcases (hnode n hn).2 with ⟨hng, hown⟩ | ⟨hph, -⟩
    · exact h.closed n hng hown i hi
    · rw [hph] at hi
      cases hi
  have hsubAcyclic : sub.Acyclic := by
    obtain ⟨rank, hrank⟩ := hacyclic
    refine ⟨rank, ?_⟩
    intro v hv u hu
    obtain ⟨n, hn, rfl⟩ := mem_ids.mp hv
    rw [hsubClosed.needs hn] at hu
    rcases (hnode n hn).2 with ⟨hng, -⟩ | ⟨hph, -⟩
    · exact hrank n.id (id_mem hng) u (by rwa [hclosed.needs hng])
    · rw [hph] at hu
      cases hu
  obtain ⟨hvalue, -⟩ := hD
  have hdenotes : numeric.Means sub bound (fun v => if v ∈ sub.ids then D v else none) := by
    refine ⟨?_, fun v hv => if_neg hv⟩
    intro n hn
    dsimp only
    rw [if_pos (id_mem hn)]
    rcases (hnode n hn).2 with ⟨hng, hown⟩ | ⟨hph, hown⟩
    · rw [hvalue n hng]
      refine numeric.congr rfl ?_ ?_
      · intro hop
        have hval := hvalue n hng
        rw [numeric.leaf hop] at hval
        rw [hleaf n hng hown hop, hval]
      · refine List.map_congr_left (fun i hi => ?_)
        rw [if_pos ((hids i).mpr (h.closed n hng hown i hi))]
    · rw [numeric.leaf (by rw [hph]; rfl), hplaceholder n.id (hnode n hn).1 hown]
  refine ⟨_, (execute_eq_ok_iff hsubClosed hsubAcyclic σ).mpr ⟨hdenotes, ?_⟩, ?_⟩
  · intro v hv
    rw [if_pos hv]
    exact htotal v ((hids v).mp hv)
  · intro v hv
    exact if_pos ((hids v).mpr hv)

/-- The stage of a peer is sound for the values of the whole graph. -/
theorem assemble_sound {topo : List String} {s : Boundaries} (hclosed : g.Closed)
    (hleaves : g.LeafInputs) (hperm : topo.Perm g.ids)
    (hsorted : Sorted g.needs [] topo) (hs : g.Bounds placement s)
    (hD : numeric.Means g inputs D) (htotal : ∀ v ∈ g.ids, (D v).isSome) (p : String) :
    ∃ stage, g.assembleStage placement topo s p = .ok stage ∧
      stage.inputIds = atKey s.boundary p ∧ stage.outputIds = atKey s.outputs p ∧
      SoundStage D stage := by
  obtain ⟨stage, hstage, hin, hout, hgraph⟩ := assemble_graph hclosed hperm hsorted hs p
  have hown : ∀ id, id ∈ ownNodes placement topo p ↔ id ∈ g.ids ∧ placement id = some p := by
    intro id
    simp [ownNodes, hperm.mem_iff]
  have hranks := hsorted.ranks (hperm.nodup_iff.mpr g.distinct)
  have hacyclic : g.Acyclic := ⟨_, fun v hv => hranks v (hperm.mem_iff.mpr hv)⟩
  have hboundary : ∀ b ∈ atKey s.boundary p, b ∈ g.ids := by
    intro b hb
    obtain ⟨n, hn, -, hfeed⟩ := hs.mem_boundary.mp hb
    rcases hfeed with ⟨rfl, -⟩ | ⟨hbi, -⟩
    · exact id_mem hn
    · exact hclosed n hn b hbi
  have houtputs : ∀ o ∈ atKey s.outputs p, o ∈ ownNodes placement topo p := by
    intro o ho
    obtain ⟨n, hn, hop, hpub⟩ := hs.mem_outputs.mp ho
    rw [hown]
    rcases hpub with ⟨rfl, -⟩ | ⟨hoi, -⟩
    · exact ⟨id_mem hn, hop⟩
    · exact ⟨hclosed n hn o hoi, hop⟩
  refine ⟨stage, hstage, hin, hout, ⟨?_, ?_⟩⟩
  · intro σ bound hbound
    rw [hin] at hbound
    rw [hout]
    have hplaceholder : ∀ v, v ∈ atKey s.boundary p ∨ v ∈ ownNodes placement topo p →
        v ∉ ownNodes placement topo p → bound v = D v :=
      fun v hv hnot => hbound v (hv.resolve_right hnot)
    have hleaf : ∀ n ∈ g.nodes, n.id ∈ ownNodes placement topo p → n.op.isLeaf = true →
        bound n.id = D n.id := by
      intro n hn hmem hop
      refine hbound n.id (hs.mem_boundary.mpr ⟨n, hn, ((hown n.id).mp hmem).2, .inl ⟨rfl, ?_⟩⟩)
      exact (hleaves n.id).mpr ⟨n, hn, rfl, hop⟩
    have hall : ∀ v, v ∈ atKey s.boundary p ∨ v ∈ ownNodes placement topo p →
        (D v).isSome := by
      rintro v (hv | hv)
      · exact htotal v (hboundary v hv)
      · exact htotal v ((hown v).mp hv).1
    obtain ⟨env, hexec, hvals⟩ :=
      hgraph.execute hclosed hacyclic hD hall hplaceholder hleaf σ
    exact ⟨env, hexec, fun o ho => hvals o (.inr (houtputs o ho))⟩
  · intro o ho
    rw [hout] at ho
    exact htotal o ((hown o).mp (houtputs o ho)).1

end

/-! ## The order of the stages -/

theorem mem_appearances_foldl {l seen : List String} :
    p ∈ l.foldl (fun seen p => if p ∈ seen then seen else seen ++ [p]) seen ↔ p ∈ seen ∨ p ∈ l := by
  induction l generalizing seen with
  | nil => simp
  | cons q rest ih =>
    rw [List.foldl_cons, ih]
    by_cases hq : q ∈ seen
    · rw [if_pos hq]
      grind
    · rw [if_neg hq]
      grind

theorem mem_appearances {l : List String} : p ∈ appearances l ↔ p ∈ l := by
  rw [appearances, mem_appearances_foldl]
  simp

theorem appearances_nodup (l : List String) : (appearances l).Nodup := by
  have hall : ∀ (l seen : List String), seen.Nodup →
      (l.foldl (fun seen p => if p ∈ seen then seen else seen ++ [p]) seen).Nodup := by
    intro l
    induction l with
    | nil => exact fun _ h => h
    | cons q rest ih =>
      intro seen hseen
      rw [List.foldl_cons]
      apply ih
      split
      · exact hseen
      · next hq => exact List.nodup_append.mpr ⟨hseen, by simp, by grind⟩
  exact hall l [] List.nodup_nil

theorem count_atKey (edges : Pushes) (u v : String) :
    (atKey edges u).count v = ((edges.filter (fun e => e.2 = v)).map Prod.fst).count u := by
  induction edges with
  | nil => rfl
  | cons e rest ih =>
    obtain ⟨a, b⟩ := e
    unfold atKey at ih ⊢
    by_cases ha : a = u
    · by_cases hb : b = v
      · simp [ha, hb, ih]
      · simp [ha, hb, ih]
    · by_cases hb : b = v
      · simp [ha, hb, ih]
      · simp [ha, hb, ih]

theorem mem_sourcesOf {q : String} : p ∈ sourcesOf s q ↔ (p, q) ∈ s.edges := by
  simp [sourcesOf]

theorem mem_stagesOf (hperm : topo.Perm g.ids) :
    p ∈ stagesOf placement topo ↔ ∃ n ∈ g.nodes, placement n.id = some p := by
  rw [stagesOf, mem_appearances, List.mem_filterMap]
  constructor
  · rintro ⟨id, hid, hp⟩
    obtain ⟨n, hn, rfl⟩ := mem_ids.mp (hperm.mem_iff.mp hid)
    exact ⟨n, hn, hp⟩
  · rintro ⟨n, hn, hp⟩
    exact ⟨n.id, hperm.mem_iff.mpr (id_mem hn), hp⟩

theorem Bounds.mem_edges (h : g.Bounds placement s) {q : String} :
    (p, q) ∈ s.edges ↔ ∃ n ∈ g.nodes, g.Crosses placement n (p, q) := by
  rw [h.edges]
  simp

theorem stage_links (hclosed : g.Closed) (hperm : topo.Perm g.ids) (hs : g.Bounds placement s) :
    Links (stagesOf placement topo) (sourcesOf s) (atKey s.edges) where
  nodup := appearances_nodup _
  closed := by
    intro q hq p hp
    obtain ⟨n, hn, -, -, op, hop, -, hplaced⟩ := hs.mem_edges.mp (mem_sourcesOf.mp hp)
    obtain ⟨m, hm, hid⟩ := mem_ids.mp (hclosed n hn op hop)
    exact (mem_stagesOf hperm).mpr ⟨m, hm, hid ▸ hplaced⟩
  succ_mem := by
    intro p q hq
    obtain ⟨n, hn, hplaced, -⟩ := hs.mem_edges.mp (mem_atKey.mp hq)
    exact (mem_stagesOf hperm).mpr ⟨n, hn, hplaced⟩
  count_eq := fun p q _ => count_atKey s.edges p q

/-- A plan, where the nodes are placed and the stages can be ordered. -/
theorem planPipeline_eq {σ : Shuffle} (hsort : g.topologicalSort σ = .ok topo)
    (hplaced : g.Placed placement)
    (hs : topo.foldlM (g.planNode placement) { boundary := [], outputs := [], edges := [] } =
      .ok s) :
    g.planPipeline σ placement =
      if (Topo.sort (sourcesOf s) (atKey s.edges) (stagesOf placement topo)).length ≠
          (stagesOf placement topo).length then .error (.err cyclicStages)
      else (Topo.sort (sourcesOf s) (atKey s.edges) (stagesOf placement topo)).mapM
        (g.assembleStage placement topo s) := by
  have hfind : topo.find? (fun id => (placement id).isNone) = none := by
    rw [List.find?_eq_none]
    intro id hid
    have hsome := hplaced id ((topologicalSort_eq_ok hsort).1.mem_iff.mp hid)
    simpa [Option.isSome_iff_ne_none] using hsome
  unfold planPipeline
  rw [hsort]
  simp only [liftGraph, Except.mapError, ok_bind, hfind, hs]
  split
  · rfl
  · rfl

/-- What a plan consists of. -/
theorem planPipeline_eq_ok {σ : Shuffle} {stages : List (PipelineStage F)}
    (hclosed : g.Closed) (h : g.planPipeline σ placement = .ok stages) :
    ∃ topo s order, topo.Perm g.ids ∧ Sorted g.needs [] topo ∧ g.Placed placement ∧
      g.Bounds placement s ∧ order.Perm (stagesOf placement topo) ∧ Sorted (sourcesOf s) [] order ∧
      order.mapM (g.assembleStage placement topo s) = .ok stages := by
  obtain ⟨topo, hsort, hplaced⟩ :
      ∃ topo, g.topologicalSort σ = .ok topo ∧ g.Placed placement := by
    unfold planPipeline at h
    obtain ⟨topo, hlift, h⟩ := bind_eq_ok.mp h
    have hsort := mapError_eq_ok.mp hlift
    refine ⟨topo, hsort, ?_⟩
    intro id hid
    cases hfind : topo.find? (fun id => (placement id).isNone) with
    | some id' =>
      rw [hfind] at h
      cases h
    | none =>
      have hnot := List.find?_eq_none.mp hfind id
        ((topologicalSort_eq_ok hsort).1.mem_iff.mpr hid)
      simpa [Option.isSome_iff_ne_none] using hnot
  obtain ⟨hperm, hsorted⟩ := topologicalSort_eq_ok hsort
  obtain ⟨s, hs, hbounds⟩ := boundaries_spec hclosed hplaced hperm
  rw [planPipeline_eq hsort hplaced hs] at h
  split at h
  · cases h
  · next hlen =>
    have hlinks := stage_links hclosed hperm hbounds
    obtain ⟨horder, horderSorted⟩ :=
      sort_sorted hlinks (List.Perm.refl _) (not_not.mp hlen)
    exact ⟨topo, s, _, hperm, hsorted, hplaced, hbounds, horder, horderSorted, h⟩

/-- A plan exists where the peers can be ranked along the edges between stages. -/
theorem planPipeline_isOk {σ : Shuffle} (hclosed : g.Closed) (hacyclic : g.Acyclic)
    (hplaced : g.Placed placement) {rank : String → Nat}
    (hrank : ∀ n ∈ g.nodes, ∀ p q, g.Crosses placement n (p, q) → rank p < rank q) :
    ∃ stages, g.planPipeline σ placement = .ok stages := by
  obtain ⟨topo, hsort⟩ := (topologicalSort_isOk_iff σ).mpr hacyclic
  obtain ⟨hperm, hsorted⟩ := topologicalSort_eq_ok hsort
  obtain ⟨s, hs, hbounds⟩ := boundaries_spec hclosed hplaced hperm
  have hlinks := stage_links hclosed hperm hbounds
  have hranks : Ranks (sourcesOf s) (stagesOf placement topo) rank := by
    intro q _ p hp
    obtain ⟨n, hn, hcross⟩ := hbounds.mem_edges.mp (mem_sourcesOf.mp hp)
    exact hrank n hn p q hcross
  have hlen := sort_complete hlinks (List.Perm.refl _) hranks
  have hmap : ∀ order : List String,
      ∃ stages, order.mapM (g.assembleStage placement topo s) = .ok stages := by
    intro order
    induction order with
    | nil => exact ⟨[], rfl⟩
    | cons p rest ih =>
      obtain ⟨stages, hstages⟩ := ih
      obtain ⟨stage, hstage, -⟩ := assemble_graph hclosed hperm hsorted hbounds p
      refine ⟨stage :: stages, ?_⟩
      rw [List.mapM_cons, hstage, hstages]
      rfl
  rw [planPipeline_eq hsort hplaced hs, if_neg (not_not.mpr hlen)]
  exact hmap _

end ComputationGraph

end Ipfrs.Compute
