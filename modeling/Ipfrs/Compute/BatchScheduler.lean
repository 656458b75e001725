/-
Ipfrs.Compute.BatchScheduler — batches of nodes that can run in parallel
(`BatchScheduler::create_batches` of `computation_graph.rs`).

The nodes are taken in sorted order; the level of one is 0 if it is listed as an input, and
else one more than the highest level of its operands. On an acyclic graph whose listed
inputs have no operands each node is in one batch, and its operands are in earlier ones
(`createBatches_spec`).
-/
import Ipfrs.Compute.TensorGraph

namespace Ipfrs.Compute

open Ipfrs.Lib

variable {F : Type}

structure ExecutionBatch where
  nodeIds : List String
  level : Nat
  deriving DecidableEq, Repr

namespace ExecutionBatch

def new (level : Nat) : ExecutionBatch := { nodeIds := [], level }

def addNode (b : ExecutionBatch) (nodeId : String) : ExecutionBatch :=
  { b with nodeIds := b.nodeIds ++ [nodeId] }

end ExecutionBatch

namespace BatchScheduler

/-- The batches so far, and `node_to_level`. -/
structure Scheduling where
  batches : List ExecutionBatch
  nodeToLevel : String → Option Nat

/-- So many rounds of the loop that appends an empty batch. -/
def pushBatches : Nat → List ExecutionBatch → List ExecutionBatch
  | 0, batches => batches
  | n + 1, batches => pushBatches n (batches ++ [.new batches.length])

def levelOf (graph : ComputationGraph F) (nodeToLevel : String → Option Nat) (nodeId : String) :
    Nat :=
  let maxInputLevel := match graph.get nodeId with
    | some node => ((node.inputs.filterMap nodeToLevel).max?).getD 0
    | none => 0
  if graph.inputs.contains nodeId then 0 else maxInputLevel + 1

/-- One node of the sorted list. -/
def assignLevel (graph : ComputationGraph F) (s : Scheduling) (nodeId : String) : Scheduling :=
  let level := levelOf graph s.nodeToLevel nodeId
  -- `while batches.len() <= level`
  let batches := pushBatches (level + 1 - s.batches.length) s.batches
  { batches := batches.modify level (fun b => b.addNode nodeId)
    nodeToLevel := Function.update s.nodeToLevel nodeId (some level) }

def createBatches (graph : ComputationGraph F) (σ : Shuffle) :
    Except GraphError (List ExecutionBatch) :=
  match graph.topologicalSort σ with
  | .error e => .error e
  | .ok sorted =>
    .ok (sorted.foldl (assignLevel graph) { batches := [], nodeToLevel := fun _ => none }).batches

/-! ## The batches -/

theorem length_pushBatches (n : Nat) (batches : List ExecutionBatch) :
    (pushBatches n batches).length = batches.length + n := by
  induction n generalizing batches with
  | zero => rfl
  | succ n ih =>
    rw [pushBatches, ih, List.length_append, List.length_singleton]
    omega

/-- The new batches are empty, and each bears its place as its level. -/
theorem getElem?_pushBatches (n : Nat) (batches : List ExecutionBatch) (i : Nat) :
    (pushBatches n batches)[i]? = if i < batches.length then batches[i]?
      else if i < batches.length + n then some (.new i) else none := by
  induction n generalizing batches with
  | zero =>
    rw [pushBatches]
    split
    · rfl
    · next h =>
      rw [if_neg (by omega)]
      exact List.getElem?_eq_none (by omega)
  | succ n ih =>
    rw [pushBatches, ih, List.length_append, List.length_singleton]
    by_cases hlt : i < batches.length
    · rw [if_pos (by omega), if_pos hlt, List.getElem?_append_left hlt]
    · by_cases heq : i = batches.length
      · subst heq
        rw [if_pos (by omega), if_neg hlt, if_pos (by omega)]
        simp
      · rw [if_neg (by omega), if_neg hlt]
        congr 1
        rw [eq_iff_iff]
        omega

theorem flatMap_pushBatches (n : Nat) (batches : List ExecutionBatch) :
    (pushBatches n batches).flatMap ExecutionBatch.nodeIds
      = batches.flatMap ExecutionBatch.nodeIds := by
  induction n generalizing batches with
  | zero => rfl
  | succ n ih =>
    rw [pushBatches, ih, List.flatMap_append]
    simp [ExecutionBatch.new]

/-- Adding to one batch adds to all. -/
theorem flatMap_modify {batches : List ExecutionBatch} {level : Nat}
    (hlevel : level < batches.length) (id : String) :
    ((batches.modify level (fun b => b.addNode id)).flatMap ExecutionBatch.nodeIds).Perm
      (id :: batches.flatMap ExecutionBatch.nodeIds) := by
  induction batches generalizing level with
  | nil => cases hlevel
  | cons b batches ih =>
    cases level with
    | zero =>
      rw [List.modify_zero_cons, List.flatMap_cons, List.flatMap_cons]
      simp only [ExecutionBatch.addNode, List.append_assoc, List.singleton_append]
      exact List.perm_middle
    | succ level =>
      rw [List.modify_succ_cons, List.flatMap_cons, List.flatMap_cons]
      have hrest := ih (Nat.lt_of_succ_lt_succ hlevel)
      exact (hrest.append_left b.nodeIds).trans List.perm_middle

variable {graph : ComputationGraph F}

/-- What holds after the nodes `done`: they are what the batches hold, each in the batch of
its level, and above its operands. -/
structure Scheduled (graph : ComputationGraph F) (done : List String) (s : Scheduling) :
    Prop where
  batched : (s.batches.flatMap ExecutionBatch.nodeIds).Perm done
  level : ∀ (i : Nat) (b : ExecutionBatch), s.batches[i]? = some b → b.level = i
  placed : ∀ (i : Nat) (b : ExecutionBatch), s.batches[i]? = some b →
    ∀ id ∈ b.nodeIds, s.nodeToLevel id = some i
  known : ∀ id, (s.nodeToLevel id).isSome ↔ id ∈ done
  needs_done : ∀ {v}, v ∈ done → ∀ {u}, u ∈ graph.needs v → u ∈ done
  above : ∀ v ∈ done, ∀ u ∈ graph.needs v, ∀ i j, s.nodeToLevel v = some i →
    s.nodeToLevel u = some j → j < i

theorem Scheduled.init :
    Scheduled graph [] { batches := [], nodeToLevel := fun _ => none } where
  batched := List.Perm.refl _
  level i b h := by simp at h
  placed i b h := by simp at h
  known id := by simp
  needs_done hv := by cases hv
  above v hv := by cases hv

/-- Listed inputs have no operands. -/
def InputsFirst (graph : ComputationGraph F) : Prop :=
  ∀ node ∈ graph.nodes, node.id ∈ graph.inputs → node.inputs = []

/-- The level of a node is above those of its operands. -/
theorem lt_levelOf (hclosed : graph.Closed) (hinputs : InputsFirst graph)
    {nodeToLevel : String → Option Nat} {v u : String} (hu : u ∈ graph.needs v) {j : Nat}
    (hj : nodeToLevel u = some j) : j < levelOf graph nodeToLevel v := by
  obtain ⟨node, hnode, rfl⟩ := ComputationGraph.mem_ids.mp (ComputationGraph.mem_ids_of_needs hu)
  rw [hclosed.needs hnode] at hu
  have hlisted : graph.inputs.contains node.id = false := by
    rw [← Bool.not_eq_true, List.contains_iff_mem]
    intro hmem
    rw [hinputs node hnode hmem] at hu
    cases hu
  have hmem : j ∈ node.inputs.filterMap nodeToLevel := List.mem_filterMap.mpr ⟨u, hu, hj⟩
  cases hmax : (node.inputs.filterMap nodeToLevel).max? with
  | none =>
    rw [List.max?_eq_none_iff] at hmax
    rw [hmax] at hmem
    cases hmem
  | some m =>
    have hle : j ≤ m := (List.max?_eq_some_iff.mp hmax).2 j hmem
    simp only [levelOf, ComputationGraph.get_id hnode, hmax, Option.getD_some, hlisted,
      Bool.false_eq_true, if_false]
    omega

variable {done : List String} {s : Scheduling}

/-- One node more. -/
theorem Scheduled.step (hclosed : graph.Closed) (hinputs : InputsFirst graph)
    (h : Scheduled graph done s) {v : String} (hv : v ∉ done)
    (hneeds : ∀ u ∈ graph.needs v, u ∈ done) :
    Scheduled graph (v :: done) (assignLevel graph s v) := by
  let level := levelOf graph s.nodeToLevel v
  let batches := pushBatches (level + 1 - s.batches.length) s.batches
  have hlength : level < batches.length := by
    simp only [batches, length_pushBatches]
    omega
  have hbatches : (assignLevel graph s v).batches
      = batches.modify level (fun b => b.addNode v) := rfl
  have hlevels : (assignLevel graph s v).nodeToLevel
      = Function.update s.nodeToLevel v (some level) := rfl
  have hget : ∀ {i : Nat} {b : ExecutionBatch},
      (assignLevel graph s v).batches[i]? = some b →
      ∃ b', batches[i]? = some b' ∧ b = if level = i then b'.addNode v else b' := by
    intro i b hb
    rw [hbatches, List.getElem?_modify, Option.map_eq_map, Option.map_eq_some_iff] at hb
    obtain ⟨b', hb', rfl⟩ := hb
    exact ⟨b', hb', rfl⟩
  -- a batch is one from before, or a new one
  have hold : ∀ {i : Nat} {b : ExecutionBatch}, batches[i]? = some b →
      s.batches[i]? = some b ∨ b = .new i := by
    intro i b hb
    simp only [batches, getElem?_pushBatches] at hb
    split at hb
    · exact .inl hb
    · split at hb
      · exact .inr (Option.some.inj hb).symm
      · cases hb
  have hfresh : ∀ {id : String}, id ∈ done → id ≠ v := by
    rintro id hid rfl
    exact hv hid
  have hbefore : ∀ {x u : String}, x ∈ v :: done → u ∈ graph.needs x → u ∈ done := by
    intro x u hx hu
    rcases List.mem_cons.mp hx with rfl | hx
    · exact hneeds u hu
    · exact h.needs_done hx hu
  constructor
  · rw [hbatches]
    refine (flatMap_modify hlength v).trans (List.Perm.cons v ?_)
    rw [flatMap_pushBatches]
    exact h.batched
  · intro i b hb
    obtain ⟨b', hb', rfl⟩ := hget hb
    have hlevel : b'.level = i := by
      rcases hold hb' with hs | rfl
      · exact h.level i b' hs
      · rfl
    split
    · exact hlevel
    · exact hlevel
  · intro i b hb id hid
    rw [hlevels]
    obtain ⟨b', hb', rfl⟩ := hget hb
    have hplaced : id ∈ b'.nodeIds → Function.update s.nodeToLevel v (some level) id = some i := by
      intro hid
      rcases hold hb' with hs | rfl
      · have hplace := h.placed i b' hs id hid
        have hdone : id ∈ done := (h.known id).mp (by rw [hplace]; rfl)
        rw [Function.update_of_ne (hfresh hdone), hplace]
      · cases hid
    split at hid
    · next heq =>
      rcases List.mem_append.mp hid with hid | hid
      · exact hplaced hid
      · rw [List.mem_singleton.mp hid, Function.update_self, heq]
    · exact hplaced hid
  · intro id
    rw [hlevels]
    by_cases hid : id = v
    · subst hid
      simp
    · rw [Function.update_of_ne hid, h.known]
      simp [hid]
  · intro x hx u hu
    exact List.mem_cons_of_mem _ (hbefore hx hu)
  · intro x hx u hu i j hi hj
    rw [hlevels] at hi hj
    have hudone := hbefore hx hu
    rw [Function.update_of_ne (hfresh hudone)] at hj
    rcases List.mem_cons.mp hx with rfl | hx
    · rw [Function.update_self, Option.some.injEq] at hi
      rw [← hi]
      exact lt_levelOf hclosed hinputs hu hj
    · rw [Function.update_of_ne (hfresh hx)] at hi
      exact h.above x hx u hu i j hi hj

theorem Scheduled.run (hclosed : graph.Closed) (hinputs : InputsFirst graph)
    {sorted : List String} (hnodup : sorted.Nodup) (h : Scheduled graph done s)
    (hsorted : Topo.Sorted graph.needs done sorted) (hdone : ∀ v ∈ sorted, v ∉ done) :
    Scheduled graph (sorted.reverse ++ done) (sorted.foldl (assignLevel graph) s) := by
  induction sorted generalizing done s with
  | nil => exact h
  | cons v sorted ih =>
    obtain ⟨hv, hrest⟩ := List.nodup_cons.mp hnodup
    obtain ⟨hneeds, htail⟩ := hsorted
    have hnext := h.step hclosed hinputs (hdone v List.mem_cons_self) hneeds
    rw [List.foldl_cons, List.reverse_cons, List.append_assoc]
    refine ih hrest hnext htail (fun u hu => ?_)
    rw [List.singleton_append, List.mem_cons, not_or]
    exact ⟨fun heq => hv (heq ▸ hu), hdone u (List.mem_cons_of_mem _ hu)⟩

/-- A node of a level that is known is in the batch of that level. -/
theorem Scheduled.exists_batch (h : Scheduled graph done s) {id : String} {i : Nat}
    (hi : s.nodeToLevel id = some i) : ∃ b, s.batches[i]? = some b ∧ id ∈ b.nodeIds := by
  have hid : id ∈ done := (h.known id).mp (by rw [hi]; rfl)
  obtain ⟨b, hb, hmem⟩ := List.mem_flatMap.mp (h.batched.mem_iff.mpr hid)
  obtain ⟨j, hj⟩ := List.getElem?_of_mem hb
  have hplace := h.placed j b hj id hmem
  rw [hi, Option.some.injEq] at hplace
  exact ⟨b, hplace ▸ hj, hmem⟩

/-- What a node rests on, directly or not, is at a lower level. -/
theorem Scheduled.lower (h : Scheduled graph done s) (hclosed : graph.Closed) {u v : String}
    (hpath : Relation.TransGen graph.Operand u v) {i : Nat} (hi : s.nodeToLevel v = some i) :
    ∃ j < i, s.nodeToLevel u = some j := by
  have hone : ∀ {u v : String} {i : Nat}, graph.Operand u v → s.nodeToLevel v = some i →
      ∃ j < i, s.nodeToLevel u = some j := by
    intro u v i huv hi
    have hneed : u ∈ graph.needs v := hclosed.operand_iff.mp huv
    have hv : v ∈ done := (h.known v).mp (by rw [hi]; rfl)
    obtain ⟨j, hj⟩ := Option.isSome_iff_exists.mp ((h.known u).mpr (h.needs_done hv hneed))
    exact ⟨j, h.above v hv u hneed i j hi hj, hj⟩
  induction hpath generalizing i with
  | single huv => exact hone huv hi
  | tail _ hlast ih =>
    obtain ⟨j, hji, hj⟩ := hone hlast hi
    obtain ⟨k, hkj, hk⟩ := ih hj
    exact ⟨k, by omega, hk⟩

/-- **Batches**: on a valid graph whose listed inputs have no operands, each node is in one
batch, once, the operands of a node are in earlier batches, and no node of a batch depends
on another. -/
theorem createBatches_spec (graph : ComputationGraph F) (σ : Shuffle)
    (hvalid : graph.validate σ = .ok ()) (hinputs : InputsFirst graph) :
    ∃ batches, createBatches graph σ = .ok batches ∧
      (batches.flatMap ExecutionBatch.nodeIds).Perm graph.ids ∧
      (∀ node ∈ graph.nodes, ∃! i : Nat, ∃ b : ExecutionBatch,
        batches[i]? = some b ∧ node.id ∈ b.nodeIds) ∧
      (∀ (i : Nat) (b : ExecutionBatch), batches[i]? = some b → b.level = i ∧
        ∀ v ∈ b.nodeIds, ∀ u, graph.Operand u v →
          ∃ j < i, ∃ c : ExecutionBatch, batches[j]? = some c ∧ u ∈ c.nodeIds) ∧
      ∀ b ∈ batches, ∀ u ∈ b.nodeIds, ∀ v ∈ b.nodeIds, ¬ Relation.TransGen graph.Operand u v := by
  have hgraph := (ComputationGraph.validate_eq_ok_iff σ).mp hvalid
  obtain ⟨sorted, hsort⟩ := (ComputationGraph.topologicalSort_isOk_iff σ).mpr hgraph.acyclic
  obtain ⟨hperm, hsorted⟩ := ComputationGraph.topologicalSort_eq_ok hsort
  have hnodup : sorted.Nodup := hperm.nodup_iff.mpr graph.distinct
  have hend := Scheduled.init.run hgraph.closed hinputs hnodup hsorted (by simp)
  rw [List.append_nil] at hend
  have hcreate : createBatches graph σ = .ok
      (sorted.foldl (assignLevel graph)
        { batches := [], nodeToLevel := fun _ => none }).batches := by
    rw [createBatches, hsort]
  have hknown : ∀ {id : String}, id ∈ graph.ids → id ∈ sorted.reverse := by
    intro id hid
    rw [List.mem_reverse]
    exact hperm.mem_iff.mpr hid
  refine ⟨_, hcreate, ?_, ?_, ?_, ?_⟩
  · exact hend.batched.trans ((List.reverse_perm sorted).trans hperm)
  · intro node hnode
    have hid := (hend.known node.id).mpr (hknown (ComputationGraph.id_mem hnode))
    obtain ⟨i, hi⟩ := Option.isSome_iff_exists.mp hid
    refine ⟨i, hend.exists_batch hi, ?_⟩
    rintro j ⟨b, hb, hmem⟩
    have hj := hend.placed j b hb node.id hmem
    rw [hi, Option.some.injEq] at hj
    exact hj.symm
  · intro i b hb
    refine ⟨hend.level i b hb, fun v hv u huv => ?_⟩
    obtain ⟨j, hji, hj⟩ := hend.lower hgraph.closed (.single huv) (hend.placed i b hb v hv)
    exact ⟨j, hji, hend.exists_batch hj⟩
  · intro b hb u hu v hv hpath
    obtain ⟨i, hi⟩ := List.getElem?_of_mem hb
    obtain ⟨j, hji, hj⟩ := hend.lower hgraph.closed hpath (hend.placed i b hi v hv)
    rw [hend.placed i b hi u hu, Option.some.injEq] at hj
    omega

/-- A sum of an input and of a constant that is not listed as an input. -/
def summed : ComputationGraph Unit where
  nodes := [{ (GraphNode.new "s" .add) with inputs := ["x", "c"] },
    GraphNode.new "x" (.input "x"), GraphNode.new "c" (.constant "c")]
  distinct := by decide
  inputs := ["x"]
  outputs := ["s"]

theorem createBatches_spec_summed :
    ∃ batches, createBatches summed ⟨id, List.Perm.refl⟩ = .ok batches ∧
      (batches.flatMap ExecutionBatch.nodeIds).Perm ["s", "x", "c"] := by
  have hvalid : summed.validate ⟨id, List.Perm.refl⟩ = .ok () := by decide
  have hinputs : InputsFirst summed := by
    unfold InputsFirst
    decide
  obtain ⟨batches, hcreate, hperm, -⟩ := createBatches_spec summed _ hvalid hinputs
  exact ⟨batches, hcreate, hperm⟩

end BatchScheduler

end Ipfrs.Compute
