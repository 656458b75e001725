/-
Ipfrs.Compute.TensorGraph — computation graphs: operations and their text, nodes, sorting,
validation and subgraphs (`computation_graph.rs`).

The nodes of a graph are a hash map from their identifiers: a list without repetitions, in
the order of the map's iteration. Sorting iterates over a second hash map, built on the
way, whose order is independent: `Shuffle` is any order of the keys. Node metadata, graph
metadata and the graph's CID are read by no function here and left out. Floats in an
operation are of a type `F` with its `Debug` text.
-/
import Ipfrs.Lib.DebugText
import Ipfrs.Lib.Topo

namespace Ipfrs.Compute

open Ipfrs.Lib Ipfrs.Lib.DebugText

inductive GraphError where
  | nodeNotFound (id : String)
  | circularDependency
  | invalidGraph (msg : String)
  | typeMismatch (expected actual : String)
  | shapeMismatch (msg : String)
  | missingInput (msg : String)
  | executionError (msg : String)
  deriving DecidableEq, Repr

def GraphError.display : GraphError → String
  | .nodeNotFound id => "Node not found: " ++ id
  | .circularDependency => "Circular dependency detected"
  | .invalidGraph msg => "Invalid graph structure: " ++ msg
  | .typeMismatch expected actual => "Type mismatch: expected " ++ expected ++ ", got " ++ actual
  | .shapeMismatch msg => "Shape mismatch: " ++ msg
  | .missingInput msg => "Missing input: " ++ msg
  | .executionError msg => "Execution error: " ++ msg

/-! ## Operations -/

/-- Of the standard library: the `Debug` text of an `f64`, and the characters a quoted
string shows as they are. -/
class DebugTable (F : Type) where
  float : Printer F
  shown : Char → Bool

inductive TensorOp (F : Type) where
  | input (name : String)
  | constant (valueCid : String)
  | matMul
  | add
  | mul
  | sub
  | div
  | einsum (subscripts : String)
  | reshape (shape : List Int)
  | transpose (axes : List Nat)
  | reduceSum (axes : List Nat) (keepdims : Bool)
  | reduceMean (axes : List Nat) (keepdims : Bool)
  | reLU
  | tanh
  | sigmoid
  | gelu
  | siLU
  | softmax (axis : Int)
  | layerNorm (normalizedShape : List Nat) (eps : F)
  | batchNorm (eps momentum : F)
  | dropout (p : F)
  | exp
  | log
  | pow (exponent : F)
  | sqrt
  | concat (axis : Nat)
  | split (axis : Nat) (sections : List Nat)
  | gather (axis : Nat)
  | scatter (axis : Nat)
  | slice (start stop strides : List Int)
  | pad (padding : List (Nat × Nat)) (mode : String)
  | fusedLinear
  | fusedAddReLU
  | fusedBatchNormReLU (eps momentum : F)
  | fusedLayerNormDropout (normalizedShape : List Nat) (eps dropoutP : F)
  deriving DecidableEq

namespace TensorOp

variable {F : Type}

def numInputs : TensorOp F → Nat
  | input _ | constant _ => 0
  | reLU | tanh | sigmoid | gelu | siLU | softmax _ | layerNorm _ _ | batchNorm _ _
  | dropout _ | exp | log | pow _ | sqrt | reshape _ | transpose _ | reduceSum _ _
  | reduceMean _ _ | slice _ _ _ | pad _ _ => 1
  | matMul | add | mul | sub | div | gather _ | scatter _ | fusedAddReLU => 2
  | einsum _ => 2
  | concat _ | split _ _ => 1
  | fusedLinear => 3
  | fusedBatchNormReLU _ _ => 1
  | fusedLayerNormDropout _ _ _ => 1

/-- An `Input` or a `Constant`: its value is bound from outside. -/
def isLeaf : TensorOp F → Bool
  | input _ | constant _ => true
  | _ => false

end TensorOp

/-! ## Graphs -/

structure GraphNode (F : Type) where
  id : String
  op : TensorOp F
  inputs : List String
  outputShape : Option (List Nat)
  deriving DecidableEq

def GraphNode.new {F : Type} (id : String) (op : TensorOp F) : GraphNode F :=
  { id, op, inputs := [], outputShape := none }

structure ComputationGraph (F : Type) where
  nodes : List (GraphNode F)
  distinct : (nodes.map GraphNode.id).Nodup
  inputs : List String
  outputs : List String

/-- The order in which a hash map gives its keys. -/
structure Shuffle where
  order : List String → List String
  perm : ∀ l, (order l).Perm l

namespace ComputationGraph

variable {F : Type}

def new : ComputationGraph F :=
  { nodes := [], distinct := List.nodup_nil, inputs := [], outputs := [] }

def ids (g : ComputationGraph F) : List String := g.nodes.map GraphNode.id

def get (g : ComputationGraph F) (id : String) : Option (GraphNode F) :=
  g.nodes.find? (fun n => n.id = id)

def containsKey (g : ComputationGraph F) (id : String) : Bool := (g.get id).isSome

/-- `nodes.insert(node.id, node)`. -/
def insert (g : ComputationGraph F) (node : GraphNode F) : ComputationGraph F where
  nodes := g.nodes.filter (fun n => n.id ≠ node.id) ++ [node]
  distinct := by
    rw [List.map_append, List.nodup_append]
    refine ⟨g.distinct.sublist (List.Sublist.map _ List.filter_sublist), by simp, ?_⟩
    intro a ha b hb
    obtain ⟨n, hn, rfl⟩ := List.mem_map.mp ha
    rw [List.map_singleton, List.mem_singleton] at hb
    rw [hb]
    simpa using (List.mem_filter.mp hn).2
  inputs := g.inputs
  outputs := g.outputs

def addNode (g : ComputationGraph F) (node : GraphNode F) :
    Except GraphError (ComputationGraph F) :=
  match node.inputs.find? (fun i => !g.containsKey i && !g.inputs.contains i) with
  | some i => .error (.nodeNotFound i)
  | none => .ok (g.insert node)

def markInput (g : ComputationGraph F) (id : String) : ComputationGraph F :=
  if g.inputs.contains id then g else { g with inputs := g.inputs ++ [id] }

def markOutput (g : ComputationGraph F) (id : String) : ComputationGraph F :=
  if g.outputs.contains id then g else { g with outputs := g.outputs ++ [id] }

/-! ## Sorting -/

/-- The inputs of a node that are nodes. -/
def needs (g : ComputationGraph F) (id : String) : List String :=
  match g.get id with
  | some node => node.inputs.filter g.containsKey
  | none => []

/-- `adj_list`: the nodes that use one, each as often as it does. -/
def consumersOf (g : ComputationGraph F) (id : String) : List String :=
  g.nodes.flatMap (fun n =>
    ((n.inputs.filter g.containsKey).filter (fun i => i = id)).map (fun _ => n.id))

/-- Kahn's algorithm; the seeds come in the order of the map of in-degrees. -/
def topologicalSort (g : ComputationGraph F) (σ : Shuffle) : Except GraphError (List String) :=
  let result := Topo.sort g.needs g.consumersOf (σ.order g.ids)
  if result.length ≠ g.nodes.length then .error .circularDependency else .ok result

/-! ## Validation -/

/-- The checks of one node. -/
def validateNode (g : ComputationGraph F) (node : GraphNode F) : Except GraphError Unit :=
  match node.inputs.find? (fun i => !g.containsKey i && !g.inputs.contains i) with
  | some i =>
    .error (.nodeNotFound ("Node " ++ node.id ++ " references non-existent input " ++ i))
  | none =>
    let expected := node.op.numInputs
    if node.inputs.length ≠ expected ∧ expected > 0 then
      .error (.invalidGraph ("Node " ++ node.id ++ " expects " ++ toString expected
        ++ " inputs but has " ++ toString node.inputs.length))
    else .ok ()

def validate (g : ComputationGraph F) (σ : Shuffle) : Except GraphError Unit :=
  match g.inputs.find? (fun i => !g.containsKey i) with
  | some i => .error (.nodeNotFound ("Input node " ++ i ++ " not found"))
  | none =>
    match g.outputs.find? (fun i => !g.containsKey i) with
    | some i => .error (.nodeNotFound ("Output node " ++ i ++ " not found"))
    | none => do
      g.nodes.forM g.validateNode
      let _ ← g.topologicalSort σ
      pure ()

end ComputationGraph

/-! ## The text of an operation, and the signature of a node

Common subexpressions are found by text: the `Debug` form of the operation, a colon, and
that of the list of inputs. The text determines both (`signature_inj`). -/

open Ipfrs.Lib.DebugText Ipfrs.Lib.DebugText.Printer

variable {F : Type}

namespace TensorOp

/-- A field of a printed operation. -/
def named {α : Type} (key : String) (p : Printer α)
    (hkey : ∃ c l, key.toList = c :: l ∧ isStop c = false := by exact ⟨_, _, rfl, rfl⟩) :
    Printer α :=
  field key hkey p

def debugName : TensorOp F → String
  | input _ => "Input"
  | constant _ => "Constant"
  | matMul => "MatMul"
  | add => "Add"
  | mul => "Mul"
  | sub => "Sub"
  | div => "Div"
  | einsum _ => "Einsum"
  | reshape _ => "Reshape"
  | transpose _ => "Transpose"
  | reduceSum _ _ => "ReduceSum"
  | reduceMean _ _ => "ReduceMean"
  | reLU => "ReLU"
  | tanh => "Tanh"
  | sigmoid => "Sigmoid"
  | gelu => "GELU"
  | siLU => "SiLU"
  | softmax _ => "Softmax"
  | layerNorm _ _ => "LayerNorm"
  | batchNorm _ _ => "BatchNorm"
  | dropout _ => "Dropout"
  | exp => "Exp"
  | log => "Log"
  | pow _ => "Pow"
  | sqrt => "Sqrt"
  | concat _ => "Concat"
  | split _ _ => "Split"
  | gather _ => "Gather"
  | scatter _ => "Scatter"
  | slice _ _ _ => "Slice"
  | pad _ _ => "Pad"
  | fusedLinear => "FusedLinear"
  | fusedAddReLU => "FusedAddReLU"
  | fusedBatchNormReLU _ _ => "FusedBatchNormReLU"
  | fusedLayerNormDropout _ _ _ => "FusedLayerNormDropout"

variable [DebugTable F]

/-- A string field. -/
def str (F : Type) [DebugTable F] : Printer String := string (DebugTable.shown F)

/-- A float field. -/
def flt (F : Type) [DebugTable F] : Printer F := DebugTable.float

/-- What follows the name: the fields in braces, where there are any. -/
def debugFields : TensorOp F → List Char
  | input name => fields (named "name" (str F)) name
  | constant valueCid => fields (named "value_cid" (str F)) valueCid
  | einsum subscripts => fields (named "subscripts" (str F)) subscripts
  | reshape shape => fields (named "shape" (list int)) shape
  | transpose axes => fields (named "axes" (list nat)) axes
  | reduceSum axes keepdims =>
    fields (both (named "axes" (list nat)) (named "keepdims" bool)) (axes, keepdims)
  | reduceMean axes keepdims =>
    fields (both (named "axes" (list nat)) (named "keepdims" bool)) (axes, keepdims)
  | softmax axis => fields (named "axis" int) axis
  | layerNorm normalizedShape eps =>
    fields (both (named "normalized_shape" (list nat)) (named "eps" (flt F)))
      (normalizedShape, eps)
  | batchNorm eps momentum =>
    fields (both (named "eps" (flt F)) (named "momentum" (flt F))) (eps, momentum)
  | dropout p => fields (named "p" (flt F)) p
  | pow exponent => fields (named "exponent" (flt F)) exponent
  | concat axis => fields (named "axis" nat) axis
  | split axis sections =>
    fields (both (named "axis" nat) (named "sections" (list nat))) (axis, sections)
  | gather axis => fields (named "axis" nat) axis
  | scatter axis => fields (named "axis" nat) axis
  | slice start stop strides =>
    fields (both (named "start" (list int)) (both (named "end" (list int))
      (named "strides" (list int)))) (start, stop, strides)
  | pad padding mode =>
    fields (both (named "padding" (list (pair nat nat))) (named "mode" (str F)))
      (padding, mode)
  | fusedBatchNormReLU eps momentum =>
    fields (both (named "eps" (flt F)) (named "momentum" (flt F))) (eps, momentum)
  | fusedLayerNormDropout normalizedShape eps dropoutP =>
    fields (both (named "normalized_shape" (list nat)) (both (named "eps" (flt F))
      (named "dropout_p" (flt F)))) (normalizedShape, eps, dropoutP)
  | matMul | add | mul | sub | div | reLU | tanh | sigmoid | gelu | siLU | exp | log | sqrt
  | fusedLinear | fusedAddReLU => []

def debug (op : TensorOp F) : List Char := op.debugName.toList ++ op.debugFields

/-- Names are told apart from what follows by a space or a colon. -/
def endsName (c : Char) : Bool := c == ' ' || c == ':'

omit [DebugTable F] in
theorem debugName_chars (op : TensorOp F) : ∀ c ∈ op.debugName.toList, endsName c = false := by
  have hall : op.debugName.toList.all (fun c => !endsName c) = true := by
    cases op <;> simp only [debugName] <;> decide
  intro c hc
  simpa using List.all_eq_true.mp hall c hc

/-- The fields begin with a space, if there are any. -/
theorem debugFields_head (op : TensorOp F) (r : List Char) :
    ∃ c l, op.debugFields ++ ':' :: r = c :: l ∧ endsName c = true := by
  cases op <;> exact ⟨_, _, rfl, rfl⟩

theorem debugName_eq {op op' : TensorOp F} {r s : List Char}
    (h : op.debug ++ ':' :: r = op'.debug ++ ':' :: s) :
    op.debugName = op'.debugName ∧ op.debugFields ++ ':' :: r = op'.debugFields ++ ':' :: s := by
  obtain ⟨c, l, hr, hc⟩ := debugFields_head op r
  obtain ⟨d, m, hs, hd⟩ := debugFields_head op' s
  rw [debug, debug, List.append_assoc, List.append_assoc, hr, hs] at h
  obtain ⟨hname, hrest⟩ :=
    append_inj_of_stop endsName (debugName_chars op) (debugName_chars op') hc hd h
  rw [hr, hs]
  exact ⟨String.toList_inj.mp hname, hrest⟩

/-- The text of an operation determines it. -/
theorem debug_inj {op op' : TensorOp F} {r s : List Char}
    (h : op.debug ++ ':' :: r = op'.debug ++ ':' :: s) : op = op' ∧ r = s := by
  obtain ⟨hname, hfields⟩ := debugName_eq h
  cases op <;> cases op' <;> simp only [debugName, String.reduceEq] at hname
  all_goals first
    | exact ⟨rfl, (List.cons.inj hfields).2⟩
    | (obtain ⟨hval, hrest⟩ := fields_inj _ hfields
       simp_all)

end TensorOp

variable [DebugTable F]

/-- `format!("{:?}:{:?}", node.op, node.inputs)`. -/
def GraphNode.signature (node : GraphNode F) : List Char :=
  node.op.debug ++ ':' :: (list (TensorOp.str F)).text node.inputs

/-- Nodes of one signature have the same operation on the same inputs. -/
theorem signature_inj {n m : GraphNode F} (h : n.signature = m.signature) :
    n.op = m.op ∧ n.inputs = m.inputs := by
  obtain ⟨hop, hinputs⟩ := TensorOp.debug_inj h
  have hstop : (list (TensorOp.str F)).text n.inputs ++ [','] =
      (list (TensorOp.str F)).text m.inputs ++ [','] := by rw [hinputs]
  exact ⟨hop, ((list (TensorOp.str F)).delimited (atStop_cons rfl _) (atStop_cons rfl _)
    hstop).1⟩

end Ipfrs.Compute

/-! ## Which graphs sort and validate

A graph is `Acyclic` when its nodes can be ranked above the nodes they need. Sorting
succeeds exactly on these graphs, whatever the order of the hash maps
(`topologicalSort_isOk_iff`). A graph validates exactly if its lists name nodes, its nodes
have as many inputs as their operations expect, all of them nodes, and it is acyclic
(`validate_eq_ok_iff`). -/

namespace Ipfrs.Compute.ComputationGraph

open Ipfrs.Lib.Topo

variable {F : Type} {g : ComputationGraph F}

variable {id u v : String} {node : GraphNode F}

theorem get_eq_some : g.get id = some node ↔ node ∈ g.nodes ∧ node.id = id := by
  constructor
  · intro h
    exact ⟨List.mem_of_find?_eq_some h, by simpa using List.find?_some h⟩
  · rintro ⟨hmem, rfl⟩
    cases hget : g.get node.id with
    | none =>
      have hnone := List.find?_eq_none.mp hget node hmem
      simp at hnone
    | some other =>
      have hother : other ∈ g.nodes := List.mem_of_find?_eq_some hget
      have hid : other.id = node.id := by simpa using List.find?_some hget
      rw [List.inj_on_of_nodup_map g.distinct hother hmem hid]

theorem get_id (h : node ∈ g.nodes) : g.get node.id = some node :=
  get_eq_some.mpr ⟨h, rfl⟩

theorem get_eq_none : g.get id = none ↔ id ∉ g.ids := by
  simp [get, ids]

theorem containsKey_iff : g.containsKey id = true ↔ id ∈ g.ids := by
  rw [containsKey, ← not_iff_not, ← get_eq_none]
  simp

theorem mem_ids : id ∈ g.ids ↔ ∃ node ∈ g.nodes, node.id = id := by
  simp [ids]

theorem id_mem (h : node ∈ g.nodes) : node.id ∈ g.ids :=
  List.mem_map_of_mem h

theorem needs_id (h : node ∈ g.nodes) : g.needs node.id = node.inputs.filter g.containsKey := by
  rw [needs, get_id h]

/-- All inputs of nodes are nodes. -/
def Closed (g : ComputationGraph F) : Prop :=
  ∀ node ∈ g.nodes, ∀ i ∈ node.inputs, i ∈ g.ids

theorem Closed.needs (h : g.Closed) (hmem : node ∈ g.nodes) : g.needs node.id = node.inputs := by
  rw [needs_id hmem, List.filter_eq_self]
  exact fun i hi => containsKey_iff.mpr (h node hmem i hi)

/-! ## Building -/

theorem mem_insert {n : GraphNode F} :
    n ∈ (g.insert node).nodes ↔ (n ∈ g.nodes ∧ n.id ≠ node.id) ∨ n = node := by
  simp [insert]

@[simp] theorem nodes_markInput (id : String) : (g.markInput id).nodes = g.nodes := by
  unfold markInput
  split <;> rfl

@[simp] theorem nodes_markOutput (id : String) : (g.markOutput id).nodes = g.nodes := by
  unfold markOutput
  split <;> rfl

theorem nodes_foldl_mark {mark : ComputationGraph F → String → ComputationGraph F}
    (h : ∀ g id, (mark g id).nodes = g.nodes) (l : List String) (g : ComputationGraph F) :
    (l.foldl mark g).nodes = g.nodes := by
  induction l generalizing g with
  | nil => rfl
  | cons id rest ih => rw [List.foldl_cons, ih, h]

/-! ## Orders of the needs -/

theorem needs_mem_ids (h : u ∈ g.needs v) : u ∈ g.ids := by
  unfold ComputationGraph.needs at h
  split at h
  · exact containsKey_iff.mp (List.mem_filter.mp h).2
  · cases h

theorem mem_ids_of_needs (h : u ∈ g.needs v) : v ∈ g.ids := by
  by_contra hv
  rw [ComputationGraph.needs, get_eq_none.mpr hv] at h
  cases h

theorem count_consumersOf (u : String) (hmem : node ∈ g.nodes) :
    (g.consumersOf u).count node.id = (node.inputs.filter g.containsKey).count u := by
  have hcount : ∀ l : List (GraphNode F), (l.map GraphNode.id).Nodup → node ∈ l →
      (l.flatMap (fun n => ((n.inputs.filter g.containsKey).filter (fun i => i = u)).map
        (fun _ => n.id))).count node.id = (node.inputs.filter g.containsKey).count u := by
    intro l
    induction l with
    | nil => simp
    | cons n rest ih =>
      intro hnodup hnode
      rw [List.map_cons, List.nodup_cons] at hnodup
      rw [List.flatMap_cons, List.count_append, List.map_const', List.count_replicate]
      rcases List.mem_cons.mp hnode with rfl | hnode
      · have hrest : (rest.flatMap (fun n =>
            ((n.inputs.filter g.containsKey).filter (fun i => i = u)).map
              (fun _ => n.id))).count node.id = 0 := by
          refine List.count_eq_zero.mpr (fun hmem' => hnodup.1 ?_)
          obtain ⟨m, hm, hxm⟩ := List.mem_flatMap.mp hmem'
          obtain ⟨_, -, hid⟩ := List.mem_map.mp hxm
          exact hid ▸ List.mem_map_of_mem hm
        rw [hrest, if_pos (by simp), List.count_eq_length_filter]
        simp [Bool.beq_eq_decide_eq]
      · have hne : n.id ≠ node.id := fun h => hnodup.1 (h ▸ List.mem_map_of_mem hnode)
        rw [ih hnodup.2 hnode, if_neg (by simpa using hne), Nat.zero_add]
  exact hcount g.nodes g.distinct hmem

theorem links (g : ComputationGraph F) : Links g.ids g.needs g.consumersOf where
  nodup := g.distinct
  closed := fun _ _ _ hu => needs_mem_ids hu
  succ_mem := by
    intro u v hv
    obtain ⟨n, hn, hvn⟩ := List.mem_flatMap.mp hv
    obtain ⟨_, -, rfl⟩ := List.mem_map.mp hvn
    exact id_mem hn
  count_eq := by
    intro u v hv
    obtain ⟨node, hmem, rfl⟩ := List.mem_map.mp hv
    rw [count_consumersOf u hmem, needs_id hmem]

/-- The nodes can be ranked above those that they need. -/
def Acyclic (g : ComputationGraph F) : Prop := ∃ rank, Ranks g.needs g.ids rank

/-- `v` has the operand `u`. -/
def Operand (g : ComputationGraph F) (u v : String) : Prop :=
  ∃ node ∈ g.nodes, node.id = v ∧ u ∈ node.inputs

/-- No node depends on itself. -/
def NoCycle (g : ComputationGraph F) : Prop := ∀ v, ¬ Relation.TransGen g.Operand v v

theorem Closed.operand_iff (hclosed : g.Closed) : g.Operand u v ↔ u ∈ g.needs v := by
  constructor
  · rintro ⟨node, hnode, rfl, hu⟩
    rwa [hclosed.needs hnode]
  · intro hu
    obtain ⟨node, hnode, rfl⟩ := mem_ids.mp (mem_ids_of_needs hu)
    exact ⟨node, hnode, rfl, by rwa [hclosed.needs hnode] at hu⟩

theorem Closed.noCycle_iff (hclosed : g.Closed) : g.NoCycle ↔ g.Acyclic := by
  have hiff : g.NoCycle ↔ Lib.Topo.NoCycle g.needs := by
    unfold NoCycle Lib.Topo.NoCycle
    rw [show g.Operand = fun u v => u ∈ g.needs v from
      funext fun u => funext fun v => propext hclosed.operand_iff]
  rw [hiff]
  constructor
  · exact fun h => h.ranks (fun _ _ _ hu => needs_mem_ids hu)
  · rintro ⟨rank, hrank⟩
    exact hrank.noCycle (fun _ _ hu => mem_ids_of_needs hu)

theorem topologicalSort_eq_ok {σ : Shuffle} {order : List String}
    (h : g.topologicalSort σ = .ok order) : order.Perm g.ids ∧ Sorted g.needs [] order := by
  unfold topologicalSort at h
  dsimp only at h
  split at h
  · cases h
  · next hlen =>
    cases h
    refine sort_sorted g.links (σ.perm g.ids) ?_
    simpa [ids] using hlen

/-- **Sorting** succeeds exactly if the graph is acyclic. -/
theorem topologicalSort_isOk_iff (σ : Shuffle) :
    (∃ order, g.topologicalSort σ = .ok order) ↔ g.Acyclic := by
  constructor
  · rintro ⟨order, h⟩
    obtain ⟨hperm, hsorted⟩ := topologicalSort_eq_ok h
    have hranks := hsorted.ranks (hperm.nodup_iff.mpr g.distinct)
    exact ⟨order.idxOf, fun v hv => hranks v (hperm.mem_iff.mpr hv)⟩
  · rintro ⟨rank, hrank⟩
    have hlen := sort_complete g.links (σ.perm g.ids) hrank
    rw [ids, List.length_map] at hlen
    exact ⟨_, if_neg (fun h => h hlen)⟩

/-! ## What validation asks -/

/-- What validation asks of the inputs of one node. -/
def Arity (node : GraphNode F) : Prop :=
  0 < node.op.numInputs → node.inputs.length = node.op.numInputs

/-- A graph that validates. -/
structure Valid (g : ComputationGraph F) : Prop where
  inputs : ∀ i ∈ g.inputs, i ∈ g.ids
  outputs : ∀ i ∈ g.outputs, i ∈ g.ids
  closed : g.Closed
  arity : ∀ node ∈ g.nodes, Arity node
  acyclic : g.Acyclic

theorem validateNode_eq_ok : g.validateNode node = .ok () ↔
      (∀ i ∈ node.inputs, i ∈ g.ids ∨ i ∈ g.inputs) ∧ Arity node := by
  unfold validateNode
  cases hfind : node.inputs.find? (fun i => !g.containsKey i && !g.inputs.contains i) with
  | some i =>
    have hi := List.find?_some hfind
    have hmem := List.mem_of_find?_eq_some hfind
    rw [Bool.and_eq_true, Bool.not_eq_true', Bool.not_eq_true', ← Bool.not_eq_true,
      ← Bool.not_eq_true, containsKey_iff, List.contains_iff_mem] at hi
    constructor
    · intro h
      cases h
    · intro h
      exact absurd (h.1 i hmem) (by tauto)
  | none =>
    have hall : ∀ i ∈ node.inputs, i ∈ g.ids ∨ i ∈ g.inputs := by
      intro i hi
      have hnot := List.find?_eq_none.mp hfind i hi
      rw [Bool.and_eq_true, Bool.not_eq_true', Bool.not_eq_true', ← Bool.not_eq_true,
        ← Bool.not_eq_true, containsKey_iff, List.contains_iff_mem] at hnot
      tauto
    dsimp only
    split
    · next h => simp [Arity, h.2, h.1]
    · next h =>
      simp only [true_iff]
      refine ⟨hall, fun hpos => ?_⟩
      by_contra hne
      exact h ⟨hne, hpos⟩

theorem forM_validateNode {l : List (GraphNode F)} :
    l.forM g.validateNode = .ok () ↔ ∀ node ∈ l, g.validateNode node = .ok () := by
  induction l with
  | nil => simp [List.forM, pure, Except.pure]
  | cons node rest ih =>
    rw [List.forall_mem_cons, ← ih, List.forM]
    cases g.validateNode node with
    | error e => simp [bind, Except.bind]
    | ok u => simp [bind, Except.bind]

theorem find_missing_eq_none {l : List String} :
    l.find? (fun i => !g.containsKey i) = none ↔ ∀ i ∈ l, i ∈ g.ids := by
  simp [List.find?_eq_none, containsKey_iff]

/-- **Validation** succeeds exactly on the valid graphs. -/
theorem validate_eq_ok_iff (σ : Shuffle) : g.validate σ = .ok () ↔ g.Valid := by
  have hstruct : g.Valid ↔ g.inputs.find? (fun i => !g.containsKey i) = none ∧
      g.outputs.find? (fun i => !g.containsKey i) = none ∧
      g.nodes.forM g.validateNode = .ok () ∧ ∃ order, g.topologicalSort σ = .ok order := by
    rw [find_missing_eq_none, find_missing_eq_none, forM_validateNode,
      topologicalSort_isOk_iff]
    constructor
    · intro h
      exact ⟨h.inputs, h.outputs, fun node hnode => validateNode_eq_ok.mpr
        ⟨fun i hi => .inl (h.closed node hnode i hi), h.arity node hnode⟩, h.acyclic⟩
    · rintro ⟨hin, hout, hnodes, hacyclic⟩
      have hnode := fun node hnode => validateNode_eq_ok.mp (hnodes node hnode)
      exact ⟨hin, hout, fun node hmem i hi => ((hnode node hmem).1 i hi).elim id (hin i),
        fun node hmem => (hnode node hmem).2, hacyclic⟩
  rw [hstruct]
  unfold validate
  cases g.inputs.find? (fun i => !g.containsKey i) with
  | some i => simp
  | none =>
    cases g.outputs.find? (fun i => !g.containsKey i) with
    | some i => simp
    | none =>
      cases g.nodes.forM g.validateNode with
      | error e => simp [bind, Except.bind]
      | ok u =>
        cases g.topologicalSort σ with
        | error e => simp [bind, Except.bind]
        | ok order => simp [bind, Except.bind, pure, Except.pure]

end Ipfrs.Compute.ComputationGraph
