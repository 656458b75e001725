/-
Ipfrs.Compute.Subgraph — the part of a graph that some outputs need
(`extract_subgraph` of `computation_graph.rs`).

A queue of identifiers is followed backwards along operands; what it visits is copied, with
the inputs among it and the requested outputs. The queue runs empty, and the copy of a valid
graph is valid, holds exactly the ancestors of the outputs, and computes the values that the
whole graph computes (`extractSubgraph_spec`).
-/
import Ipfrs.Compute.Execute
import Ipfrs.Lib.Loop
import Ipfrs.Lib.Worklist

namespace Ipfrs.Compute

open Ipfrs.Lib

variable {F : Type}

/-- The visited set and the queue of the backward search. -/
structure BackwardSearch where
  visited : List String
  queue : List String

namespace ComputationGraph

/-- The inputs of the node of an identifier, if there is one. -/
def inputsOf (g : ComputationGraph F) (id : String) : List String :=
  match g.get id with
  | some node => node.inputs
  | none => []

/-- One round of the search. -/
def searchBody (g : ComputationGraph F) (s : BackwardSearch) : BackwardSearch ⊕ List String :=
  match s.queue with
  | [] => .inr s.visited
  | id :: queue =>
    if id ∈ s.visited then .inl { s with queue }
    else
      let visited := id :: s.visited
      .inl { visited, queue := queue ++ (g.inputsOf id).filter (fun i => i ∉ visited) }

def markVisited (visited : List String) (sub : ComputationGraph F) (id : String) :
    ComputationGraph F :=
  if id ∈ visited then sub.markInput id else sub

def copyNode (g sub : ComputationGraph F) (id : String) : ComputationGraph F :=
  match g.get id with
  | some node => sub.insert node
  | none => sub

/-- The graph made of what was visited. -/
def assemble (g : ComputationGraph F) (σ : Shuffle) (outputIds visited : List String) :
    ComputationGraph F :=
  let subgraph := g.inputs.foldl (markVisited visited) new
  let subgraph := (σ.order visited).foldl g.copyNode subgraph
  outputIds.foldl markOutput subgraph

/-- `extract_subgraph`, the search given a number of rounds. -/
def extractSubgraph (g : ComputationGraph F) (σ : Shuffle) (rounds : Nat)
    (outputIds : List String) : Option (ComputationGraph F) :=
  (Loop.run g.searchBody rounds { visited := [], queue := outputIds }).map
    (g.assemble σ outputIds)

variable {g sub : ComputationGraph F} {outputIds visited : List String}

/-! ## The search -/

/-- The visited identifiers and the queue are those of a search along operands. -/
def Searching (g : ComputationGraph F) (outputIds : List String) (s : BackwardSearch) : Prop :=
  Worklist.Inv g.inputsOf outputIds s.visited s.queue

theorem searching_init (g : ComputationGraph F) (outputIds : List String) :
    g.Searching outputIds { visited := [], queue := outputIds } :=
  .init (fun _ => Iff.rfl)

theorem inputsOf_id {node : GraphNode F} (h : node ∈ g.nodes) :
    g.inputsOf node.id = node.inputs := by
  rw [inputsOf, get_id h]

theorem inputsOf_of_notMem {id : String} (h : id ∉ g.ids) : g.inputsOf id = [] := by
  rw [inputsOf, get_eq_none.mpr h]

/-- A round keeps the invariant and lowers what is pending. -/
theorem Searching.step {s s' : BackwardSearch} (h : g.Searching outputIds s)
    (hb : g.searchBody s = .inl s') : g.Searching outputIds s' ∧
      Worklist.pending g.inputsOf g.ids s'.visited s'.queue
        < Worklist.pending g.inputsOf g.ids s.visited s.queue := by
  obtain ⟨visited, queue⟩ := s
  unfold Searching at h ⊢
  cases queue with
  | nil => cases hb
  | cons id queue =>
    simp only [searchBody] at hb
    split at hb
    · next hseen =>
      cases hb
      exact ⟨h.skip hseen, Worklist.pending_skip _⟩
    · next hseen =>
      cases hb
      refine ⟨h.visitNew ?_ ?_ ?_, Worklist.pending_visit hseen inputsOf_of_notMem ?_⟩
      · intro y hy
        rcases List.mem_append.mp hy with hy | hy
        · exact .inr hy
        · exact .inl (List.mem_of_mem_filter hy)
      · exact fun y hy => List.mem_append_left _ hy
      · intro y hy
        by_cases hy' : y ∈ id :: visited
        · exact .inl hy'
        · refine .inr (List.mem_append_right _ (List.mem_filter.mpr ⟨hy, ?_⟩))
          simpa using hy'
      · have hle := List.length_filter_le (fun i => decide (i ∉ id :: visited))
          (g.inputsOf id)
        rw [List.length_append]
        omega

/-- **The search** ends, with what the outputs reach. -/
theorem search_returns (g : ComputationGraph F) (outputIds : List String) :
    ∃ n visited, (∀ rounds ≥ n, Loop.run g.searchBody rounds
        { visited := [], queue := outputIds } = some visited) ∧
      ∀ id, id ∈ visited ↔ Worklist.Reach g.inputsOf outputIds id := by
  obtain ⟨visited, hrun⟩ := Loop.run_of_measure (g.Searching outputIds)
    (fun s => Worklist.pending g.inputsOf g.ids s.visited s.queue)
    (fun _ _ h hb => h.step hb) _ (g.searching_init outputIds) (Nat.le_refl _)
  refine ⟨_, visited, fun rounds hrounds => Loop.run_mono hrun hrounds, fun id => ?_⟩
  obtain ⟨s, hinv, hleave⟩ := Loop.run_inv (fun _ _ h hb => (Searching.step h hb).1)
    (g.searching_init outputIds) hrun
  obtain ⟨seen, queue⟩ := s
  cases queue with
  | nil =>
    cases hleave
    exact Worklist.Inv.done hinv
  | cons id queue =>
    simp only [searchBody] at hleave
    split at hleave
    · cases hleave
    · cases hleave

/-! ## What is copied -/

theorem mem_markInput {id i : String} :
    i ∈ (sub.markInput id).inputs ↔ i ∈ sub.inputs ∨ i = id := by
  unfold markInput
  split
  · next h =>
    rw [List.contains_iff_mem] at h
    constructor
    · exact .inl
    · rintro (hi | rfl)
      · exact hi
      · exact h
  · simp

theorem mem_markOutput {id i : String} :
    i ∈ (sub.markOutput id).outputs ↔ i ∈ sub.outputs ∨ i = id := by
  unfold markOutput
  split
  · next h =>
    rw [List.contains_iff_mem] at h
    constructor
    · exact .inl
    · rintro (hi | rfl)
      · exact hi
      · exact h
  · simp

theorem mem_inputs_markVisited (l : List String) {i : String} :
    i ∈ (l.foldl (markVisited visited) sub).inputs ↔ i ∈ sub.inputs ∨ (i ∈ l ∧ i ∈ visited) := by
  induction l generalizing sub with
  | nil => simp
  | cons id l ih =>
    rw [List.foldl_cons, ih, markVisited]
    split
    · next hid =>
      rw [mem_markInput, List.mem_cons]
      constructor
      · rintro ((hi | rfl) | hi)
        · exact .inl hi
        · exact .inr ⟨.inl rfl, hid⟩
        · exact .inr ⟨.inr hi.1, hi.2⟩
      · rintro (hi | ⟨rfl | hi, hv⟩)
        · exact .inl (.inl hi)
        · exact .inl (.inr rfl)
        · exact .inr ⟨hi, hv⟩
    · next hid =>
      rw [List.mem_cons]
      constructor
      · exact Or.imp_right (fun hi => ⟨.inr hi.1, hi.2⟩)
      · rintro (hi | ⟨rfl | hi, hv⟩)
        · exact .inl hi
        · exact absurd hv hid
        · exact .inr ⟨hi, hv⟩

theorem nodes_markVisited (l : List String) :
    (l.foldl (markVisited visited) sub).nodes = sub.nodes :=
  nodes_foldl_mark (fun g id => by
    unfold markVisited
    split
    · exact nodes_markInput id
    · rfl) l sub

theorem outputs_markVisited (l : List String) :
    (l.foldl (markVisited visited) sub).outputs = sub.outputs := by
  induction l generalizing sub with
  | nil => rfl
  | cons id l ih =>
    rw [List.foldl_cons, ih, markVisited]
    split
    · unfold markInput
      split <;> rfl
    · rfl

theorem inputs_copyNode (l : List String) : (l.foldl g.copyNode sub).inputs = sub.inputs ∧
      (l.foldl g.copyNode sub).outputs = sub.outputs := by
  induction l generalizing sub with
  | nil => exact ⟨rfl, rfl⟩
  | cons id l ih =>
    rw [List.foldl_cons, ih.1, ih.2, copyNode]
    cases g.get id with
    | none => exact ⟨rfl, rfl⟩
    | some node => exact ⟨rfl, rfl⟩

theorem mem_nodes_copyNode (l : List String) {node : GraphNode F}
    (hsub : ∀ n ∈ sub.nodes, n ∈ g.nodes) : node ∈ (l.foldl g.copyNode sub).nodes
      ↔ node ∈ sub.nodes ∨ (node ∈ g.nodes ∧ node.id ∈ l) := by
  induction l generalizing sub with
  | nil => simp
  | cons id l ih =>
    rw [List.foldl_cons, copyNode, List.mem_cons]
    cases hget : g.get id with
    | none =>
      have hnone : node ∈ g.nodes → node.id ≠ id := by
        rintro hnode rfl
        rw [get_id hnode] at hget
        cases hget
      rw [ih hsub]
      constructor
      · exact Or.imp_right (fun h => ⟨h.1, .inr h.2⟩)
      · rintro (h | ⟨hnode, hid | hid⟩)
        · exact .inl h
        · exact absurd hid (hnone hnode)
        · exact .inr ⟨hnode, hid⟩
    | some found =>
      obtain ⟨hfound, rfl⟩ := get_eq_some.mp hget
      have hsame : ∀ n ∈ g.nodes, n.id = found.id → n = found :=
        fun n hn hid => List.inj_on_of_nodup_map g.distinct hn hfound hid
      have hinsert : ∀ n ∈ (sub.insert found).nodes, n ∈ g.nodes := by
        intro n hn
        rcases mem_insert.mp hn with hn | rfl
        · exact hsub n hn.1
        · exact hfound
      rw [ih hinsert, mem_insert]
      constructor
      · rintro ((h | rfl) | h)
        · exact .inl h.1
        · exact .inr ⟨hfound, .inl rfl⟩
        · exact .inr ⟨h.1, .inr h.2⟩
      · rintro (h | ⟨hnode, hid | hid⟩)
        · by_cases hid : node.id = found.id
          · exact .inl (.inr (hsame node (hsub node h) hid))
          · exact .inl (.inl ⟨h, hid⟩)
        · exact .inl (.inr (hsame node hnode hid))
        · exact .inr ⟨hnode, hid⟩

theorem mem_outputs_markOutput (l : List String) {i : String} :
    i ∈ (l.foldl markOutput sub).outputs ↔ i ∈ sub.outputs ∨ i ∈ l := by
  induction l generalizing sub with
  | nil => simp
  | cons id l ih => rw [List.foldl_cons, ih, mem_markOutput, List.mem_cons, or_assoc]

theorem inputs_markOutput (l : List String) : (l.foldl markOutput sub).inputs = sub.inputs := by
  induction l generalizing sub with
  | nil => rfl
  | cons id l ih =>
    rw [List.foldl_cons, ih]
    unfold markOutput
    split <;> rfl

/-- What is visited is what the copy holds. -/
theorem assemble_spec (g : ComputationGraph F) (σ : Shuffle) (outputIds visited : List String) :
    (∀ node, node ∈ (g.assemble σ outputIds visited).nodes ↔ node ∈ g.nodes ∧ node.id ∈ visited) ∧
    (∀ i, i ∈ (g.assemble σ outputIds visited).inputs ↔ i ∈ g.inputs ∧ i ∈ visited) ∧
    ∀ i, i ∈ (g.assemble σ outputIds visited).outputs ↔ i ∈ outputIds := by
  have hnodes : (g.inputs.foldl (markVisited visited) (new : ComputationGraph F)).nodes = [] :=
    nodes_markVisited g.inputs
  refine ⟨fun node => ?_, fun i => ?_, fun i => ?_⟩
  · rw [assemble, nodes_foldl_mark (fun g id => nodes_markOutput id),
      mem_nodes_copyNode _ (by simp [hnodes]), hnodes, (σ.perm visited).mem_iff]
    simp
  · rw [assemble, inputs_markOutput, (inputs_copyNode _).1, mem_inputs_markVisited]
    simp [new]
  · rw [assemble, mem_outputs_markOutput, (inputs_copyNode _).2, outputs_markVisited]
    simp [new]

/-! ## The extracted graph -/

/-- What some outputs rest on, themselves included. -/
def Ancestor (g : ComputationGraph F) (outputIds : List String) (id : String) : Prop :=
  ∃ o ∈ outputIds, Relation.ReflTransGen g.Operand id o

theorem operand_iff_inputsOf {u v : String} : g.Operand u v ↔ u ∈ g.inputsOf v := by
  constructor
  · rintro ⟨node, hnode, rfl, hu⟩
    rwa [inputsOf_id hnode]
  · intro hu
    by_cases hv : v ∈ g.ids
    · obtain ⟨node, hnode, rfl⟩ := mem_ids.mp hv
      exact ⟨node, hnode, rfl, by rwa [inputsOf_id hnode] at hu⟩
    · rw [inputsOf_of_notMem hv] at hu
      cases hu

theorem reach_iff_ancestor {id : String} :
    Worklist.Reach g.inputsOf outputIds id ↔ g.Ancestor outputIds id := by
  have hswap : (fun a b => b ∈ g.inputsOf a) = Function.swap g.Operand := by
    funext a b
    exact propext operand_iff_inputsOf.symm
  unfold Worklist.Reach Ancestor
  simp only [hswap, Relation.reflTransGen_swap]

theorem Ancestor.operand {u v : String} (hv : g.Ancestor outputIds v) (huv : g.Operand u v) :
    g.Ancestor outputIds u := by
  obtain ⟨o, ho, hpath⟩ := hv
  exact ⟨o, ho, hpath.head huv⟩

/-- Operands of nodes are nodes, so the ancestors of nodes are. -/
theorem Closed.ancestor (hclosed : g.Closed) (houtputs : ∀ o ∈ outputIds, o ∈ g.ids)
    {id : String} (h : g.Ancestor outputIds id) : id ∈ g.ids := by
  obtain ⟨o, ho, hpath⟩ := h
  induction hpath using Relation.ReflTransGen.head_induction_on with
  | refl => exact houtputs o ho
  | head huv _ _ =>
    obtain ⟨node, hnode, -, hu⟩ := huv
    exact hclosed node hnode _ hu

/-- A graph that holds the ancestors of some outputs, as `g` does. -/
structure Extracted (g : ComputationGraph F) (outputIds : List String)
    (sub : ComputationGraph F) : Prop where
  nodes : ∀ node, node ∈ sub.nodes ↔ node ∈ g.nodes ∧ g.Ancestor outputIds node.id
  inputs : ∀ i, i ∈ sub.inputs ↔ i ∈ g.inputs ∧ g.Ancestor outputIds i
  outputs : ∀ i, i ∈ sub.outputs ↔ i ∈ outputIds

/-- The part of an assignment that a graph reads. -/
def restrict {V : Type} (sub : ComputationGraph F) (assignment : String → Option V)
    (id : String) : Option V :=
  if id ∈ sub.ids then assignment id else none

section

variable (h : Extracted g outputIds sub)
include h

theorem Extracted.mem_ids (hclosed : g.Closed) (houtputs : ∀ o ∈ outputIds, o ∈ g.ids)
    {id : String} : id ∈ sub.ids ↔ g.Ancestor outputIds id := by
  rw [ComputationGraph.mem_ids]
  constructor
  · rintro ⟨node, hnode, rfl⟩
    exact ((h.nodes node).mp hnode).2
  · intro hid
    obtain ⟨node, hnode, rfl⟩ := ComputationGraph.mem_ids.mp (hclosed.ancestor houtputs hid)
    exact ⟨node, (h.nodes node).mpr ⟨hnode, hid⟩, rfl⟩

theorem Extracted.closed (hclosed : g.Closed) (houtputs : ∀ o ∈ outputIds, o ∈ g.ids) :
    sub.Closed := by
  intro node hnode i hi
  obtain ⟨hmem, hid⟩ := (h.nodes node).mp hnode
  exact (h.mem_ids hclosed houtputs).mpr (hid.operand ⟨node, hmem, rfl, hi⟩)

theorem Extracted.valid (hg : g.Valid) (houtputs : ∀ o ∈ outputIds, o ∈ g.ids) :
    sub.Valid where
  inputs i hi := (h.mem_ids hg.closed houtputs).mpr ((h.inputs i).mp hi).2
  outputs i hi := (h.mem_ids hg.closed houtputs).mpr ⟨i, (h.outputs i).mp hi, .refl⟩
  closed := h.closed hg.closed houtputs
  arity node hnode := hg.arity node ((h.nodes node).mp hnode).1
  acyclic := by
    obtain ⟨rank, hrank⟩ := hg.acyclic
    refine ⟨rank, fun v hv u hu => ?_⟩
    obtain ⟨node, hnode, rfl⟩ := ComputationGraph.mem_ids.mp hv
    have hmem := ((h.nodes node).mp hnode).1
    rw [(h.closed hg.closed houtputs).needs hnode] at hu
    exact hrank node.id (id_mem hmem) u (by rwa [hg.closed.needs hmem])

/-- The values of the whole graph are values of the part. -/
theorem Extracted.means {V : Type} {sem : Semantics F V} {bound env : String → Option V}
    (hclosed : g.Closed) (houtputs : ∀ o ∈ outputIds, o ∈ g.ids) (hmeans : sem.Means g bound env) :
    sem.Means sub (sub.restrict bound) (sub.restrict env) := by
  refine ⟨fun node hnode => ?_, fun v hv => if_neg hv⟩
  have hmem := ((h.nodes node).mp hnode).1
  have hvals : node.inputs.map env = node.inputs.map (sub.restrict env) := by
    refine List.map_congr_left (fun i hi => ?_)
    exact (if_pos (h.closed hclosed houtputs node hnode i hi)).symm
  have hbound : bound node.id = sub.restrict bound node.id := (if_pos (id_mem hnode)).symm
  rw [restrict, if_pos (id_mem hnode), hmeans.1 node hmem]
  exact sem.congr rfl (fun _ => hbound) hvals

end

/-- **Subgraphs**: extraction ends, and the graph it gives of a valid graph is valid, holds
the ancestors of the outputs, and has the values of the whole graph: under every pure
semantics, and in every run of the whole graph that succeeds. -/
theorem extractSubgraph_spec {S : Type} [F32 S] [F64 F] [Casts S F] (g : ComputationGraph F)
    {σ : Shuffle} (hvalid : g.validate σ = .ok ()) {outputIds : List String}
    (houtputs : ∀ o ∈ outputIds, o ∈ g.ids) (τ : Shuffle) :
    ∃ n sub, (∀ rounds ≥ n, g.extractSubgraph τ rounds outputIds = some sub) ∧
      (∀ ρ, sub.validate ρ = .ok ()) ∧
      (∀ node, node ∈ sub.nodes ↔ node ∈ g.nodes ∧ g.Ancestor outputIds node.id) ∧
      (∀ id, id ∈ sub.ids ↔ g.Ancestor outputIds id) ∧
      (∀ i, i ∈ sub.inputs ↔ i ∈ g.inputs ∧ g.Ancestor outputIds i) ∧
      (∀ i, i ∈ sub.outputs ↔ i ∈ outputIds) ∧
      (∀ (V : Type) (sem : Semantics F V) (bound env env' : String → Option V),
        sem.Means g bound env → sem.Means sub (sub.restrict bound) env' →
          ∀ o ∈ outputIds, env' o = env o) ∧
      ∀ (inputs env : Env S) (ρ ρ' : Shuffle), g.execute ρ inputs = .ok env →
        ∃ env', sub.execute ρ' (sub.restrict inputs) = .ok env' ∧
          ∀ o ∈ outputIds, env' o = env o := by
  have hg := (validate_eq_ok_iff σ).mp hvalid
  obtain ⟨n, visited, hrun, hvisited⟩ := g.search_returns outputIds
  obtain ⟨hnodes, hinputs, houts⟩ := g.assemble_spec τ outputIds visited
  have hextracted : Extracted g outputIds (g.assemble τ outputIds visited) := by
    refine ⟨fun node => ?_, fun i => ?_, houts⟩
    · rw [hnodes, hvisited, reach_iff_ancestor]
    · rw [hinputs, hvisited, reach_iff_ancestor]
  have hsub := hextracted.valid hg houtputs
  have hids : ∀ {o}, o ∈ outputIds → o ∈ (g.assemble τ outputIds visited).ids :=
    fun ho => (hextracted.mem_ids hg.closed houtputs).mpr ⟨_, ho, .refl⟩
  refine ⟨n, g.assemble τ outputIds visited, ?_, fun ρ => (validate_eq_ok_iff ρ).mpr hsub,
    hextracted.nodes, fun id => hextracted.mem_ids hg.closed houtputs, hextracted.inputs,
    houts, ?_, ?_⟩
  · intro rounds hrounds
    rw [extractSubgraph, hrun rounds hrounds]
    rfl
  · intro V sem bound env env' hmeans hmeans' o ho
    have hpart := hextracted.means hg.closed houtputs hmeans
    rw [hmeans'.unique hsub.closed hsub.acyclic hpart]
    exact if_pos (hids ho)
  · intro inputs env ρ ρ' hexec
    obtain ⟨hmeans, hsome⟩ := (execute_eq_ok_iff hg.closed hg.acyclic ρ).mp hexec
    refine ⟨restrict (g.assemble τ outputIds visited) env, ?_, fun o ho => if_pos (hids ho)⟩
    refine (execute_eq_ok_iff hsub.closed hsub.acyclic ρ').mpr
      ⟨hextracted.means hg.closed houtputs hmeans, fun v hv => ?_⟩
    rw [restrict, if_pos hv]
    obtain ⟨node, hnode, rfl⟩ := ComputationGraph.mem_ids.mp hv
    exact hsome _ (id_mem ((hextracted.nodes node).mp hnode).1)

/-- A sum of an input and a constant, and an exponential that it does not need. -/
def sumAndExp : ComputationGraph Int where
  nodes := [{ (GraphNode.new "s" .add) with inputs := ["x", "c"] },
    { (GraphNode.new "t" .exp) with inputs := ["x"] },
    GraphNode.new "x" (.input "x"), GraphNode.new "c" (.constant "c")]
  distinct := by decide
  inputs := ["x"]
  outputs := ["s", "t"]

theorem extractSubgraph_spec_sum :
    ∃ n sub, (∀ rounds ≥ n, sumAndExp.extractSubgraph inOrder rounds ["s"] = some sub) ∧
      "x" ∈ sub.ids ∧
      ∀ inputs env : Env Int, sumAndExp.execute inOrder inputs = .ok env →
        ∃ env', sub.execute inOrder (sub.restrict inputs) = .ok env' ∧ env' "s" = env "s" := by
  have hvalid : sumAndExp.validate inOrder = .ok () := by decide
  have houtputs : ∀ o ∈ ["s"], o ∈ sumAndExp.ids := by decide
  obtain ⟨n, sub, hrun, -, -, hids, -, -, -, hexec⟩ :=
    extractSubgraph_spec (S := Int) sumAndExp hvalid houtputs inOrder
  have hx : sumAndExp.Operand "x" "s" := ⟨_, List.mem_cons_self, rfl, by decide⟩
  refine ⟨n, sub, hrun, (hids "x").mpr ⟨"s", List.mem_cons_self, .single hx⟩, ?_⟩
  intro inputs env h
  obtain ⟨env', hrun', hvals⟩ := hexec inputs env inOrder inOrder h
  exact ⟨env', hrun', hvals "s" List.mem_cons_self⟩

end ComputationGraph

end Ipfrs.Compute
