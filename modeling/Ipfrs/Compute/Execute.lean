/-
Ipfrs.Compute.Execute — what a graph computes, over any values.

A semantics gives a node its value: the bound one for an `Input` or a `Constant`, and for
any other a function of its operation and of the values of its inputs. On a closed acyclic
graph each node then has one value (`Means.unique`, `exists_means`). Nothing is said about
the order in which nodes are evaluated, so a rewritten graph can be compared with the graph
before it.
-/
import Ipfrs.Lib.Dataflow
import Ipfrs.Compute.Tensor

namespace Ipfrs.Compute

open Ipfrs.Lib

variable {F V : Type}

/-- The value of a node, or none, from what is bound to leaves and from the values of other
nodes. -/
structure Semantics (F V : Type) where
  value : (String → Option V) → GraphNode F → (String → Option V) → Option V
  congr : ∀ {bound bound' env env' : String → Option V} {node node' : GraphNode F},
    node.op = node'.op → (node.op.isLeaf = true → bound node.id = bound' node'.id) →
    node.inputs.map env = node'.inputs.map env' → value bound node env = value bound' node' env'
  leaf : ∀ {bound env : String → Option V} {node : GraphNode F}, node.op.isLeaf = true →
    value bound node env = bound node.id

namespace Semantics

/-- Every node has the value computed from those of the others, or none. -/
def Means (sem : Semantics F V) (g : ComputationGraph F) (bound env : String → Option V) :
    Prop :=
  (∀ node ∈ g.nodes, env node.id = sem.value bound node env) ∧ ∀ v, v ∉ g.ids → env v = none

variable {sem : Semantics F V} {g : ComputationGraph F} {bound env env' : String → Option V}

/-- The value at an identifier, as a computation. -/
def evalAt (sem : Semantics F V) (g : ComputationGraph F) (bound : String → Option V)
    (id : String) (env : String → Option V) : Except Unit V :=
  match (g.get id).bind (fun node => sem.value bound node env) with
  | some x => .ok x
  | none => .error ()

theorem evalAt_toOption {node : GraphNode F} (h : node ∈ g.nodes) :
    (sem.evalAt g bound node.id env).toOption = sem.value bound node env := by
  rw [evalAt, ComputationGraph.get_id h, Option.bind_some]
  cases sem.value bound node env <;> rfl

theorem denotes_iff : Dataflow.Denotes (sem.evalAt g bound) g.ids env ↔ sem.Means g bound env := by
  constructor
  · intro h
    refine ⟨fun node hnode => ?_, h.outside⟩
    rw [h.value node.id (ComputationGraph.id_mem hnode), evalAt_toOption hnode]
  · intro h
    refine ⟨fun v hv => ?_, h.2⟩
    obtain ⟨node, hnode, rfl⟩ := ComputationGraph.mem_ids.mp hv
    rw [evalAt_toOption hnode]
    exact h.1 node hnode

theorem localEval (hclosed : g.Closed) : Dataflow.LocalEval (sem.evalAt g bound) g.ids g.needs := by
  intro v hv env env' h
  obtain ⟨node, hnode, rfl⟩ := ComputationGraph.mem_ids.mp hv
  rw [hclosed.needs hnode] at h
  have hvalue : sem.value bound node env = sem.value bound node env' :=
    sem.congr rfl (fun _ => rfl) (List.map_congr_left h)
  rw [evalAt, evalAt, ComputationGraph.get_id hnode, Option.bind_some, Option.bind_some, hvalue]

theorem Means.unique (hclosed : g.Closed) (hacyclic : g.Acyclic)
    (h : sem.Means g bound env) (h' : sem.Means g bound env') : env = env' := by
  obtain ⟨rank, hrank⟩ := hacyclic
  exact Dataflow.Denotes.unique (denotes_iff.mpr h) (denotes_iff.mpr h') (localEval hclosed)
    (fun _ _ _ hu => ComputationGraph.needs_mem_ids hu) hrank

theorem exists_means (sem : Semantics F V) (hclosed : g.Closed) (hacyclic : g.Acyclic)
    (bound : String → Option V) : ∃ env, sem.Means g bound env := by
  obtain ⟨order, hsort⟩ :=
    (ComputationGraph.topologicalSort_isOk_iff ⟨id, List.Perm.refl⟩).mpr hacyclic
  obtain ⟨hperm, hsorted⟩ := ComputationGraph.topologicalSort_eq_ok hsort
  have hnodup := hperm.nodup_iff.mpr g.distinct
  have hlocal : Dataflow.LocalEval (sem.evalAt g bound) order g.needs :=
    fun v hv => localEval hclosed v (hperm.mem_iff.mp hv)
  have hden := Dataflow.exists_denotes hlocal hsorted hnodup
  exact ⟨_, denotes_iff.mp ⟨fun v hv => hden.value v (hperm.mem_iff.mpr hv),
    fun v hv => hden.outside v (fun hmem => hv (hperm.mem_iff.mp hmem))⟩⟩

end Semantics

/-! ## Running a graph on tensors (`numeric_exec.rs`)

Each node is evaluated in sorted order; the first failure ends the run. A run succeeds
exactly if the graph has a value for every node, and ends with these values
(`execute_eq_ok_iff`): the order of the hash maps does not matter to the result. -/

open Ipfrs.Lib Ipfrs.Lib.Dataflow

variable {S F : Type}

/-- A map from identifiers to tensors. -/
abbrev Env (S : Type) := String → Option (NumTensor S)

def operand (node : GraphNode F) (env : Env S) (i : Nat) : Except Fault (NumTensor S) :=
  match node.inputs[i]? with
  | none =>
    .error (.err (.executionError (node.id ++ ": missing operand #" ++ toString i)))
  | some id =>
    match env id with
    | none => .error (.err (.nodeNotFound id))
    | some x => .ok x

section

variable [F32 S] [F64 F] [Casts S F]

def evalNode (inputs : Env S) (node : GraphNode F) (env : Env S) : Except Fault (NumTensor S) :=
  match node.op with
  | .input _ | .constant _ =>
    match inputs node.id with
    | some x => .ok x
    | none => .error (.err (.missingInput node.id))
  | .add => do elemOpBinary .add (← operand node env 0) (← operand node env 1)
  | .sub => do elemOpBinary .subtract (← operand node env 0) (← operand node env 1)
  | .mul => do elemOpBinary .multiply (← operand node env 0) (← operand node env 1)
  | .div => do elemOpBinary .divide (← operand node env 0) (← operand node env 1)
  | .matMul => do matMul (← operand node env 0) (← operand node env 1)
  | .reLU => do elemOp .relu (← operand node env 0)
  | .tanh => do elemOp .tanh (← operand node env 0)
  | .sigmoid => do elemOp .sigmoid (← operand node env 0)
  | .gelu => do elemOp .gelu (← operand node env 0)
  | .siLU => do elemOp .silu (← operand node env 0)
  | .exp => do elemOp .exp (← operand node env 0)
  | .log => do elemOp .log (← operand node env 0)
  | .sqrt => do elemOp .sqrt (← operand node env 0)
  | .reduceSum axes keepdims => do
      let a ← operand node env 0
      applyKeepdims (← reduceNd .sum a axes) a.shape.length axes keepdims
  | .reduceMean axes keepdims => do
      let a ← operand node env 0
      applyKeepdims (← reduceNd .mean a axes) a.shape.length axes keepdims
  | .softmax axis => do softmaxOp (← operand node env 0) axis
  | .layerNorm normalizedShape eps => do layerNormOp (← operand node env 0) normalizedShape eps
  | .pow exponent => do
      pure ((← operand node env 0).unary (fun x => F32.powf x (Casts.narrow exponent)))
  | .reshape shape => do reshape (← operand node env 0) shape
  | .transpose axes => do transpose (← operand node env 0) axes
  | .einsum _ | .batchNorm _ _ | .dropout _ | .concat _ | .split _ _ | .gather _ | .scatter _
  | .slice _ _ _ | .pad _ _ | .fusedLinear | .fusedAddReLU | .fusedBatchNormReLU _ _
  | .fusedLayerNormDropout _ _ _ =>
    .error (.err (.executionError ("op not supported by numeric executor yet: "
      ++ String.ofList node.op.debug)))

namespace ComputationGraph

def evalAt (g : ComputationGraph F) (inputs : Env S) (id : String) (env : Env S) :
    Except Fault (NumTensor S) :=
  match g.get id with
  | none => .error (.err (.nodeNotFound id))
  | some node => evalNode inputs node env

def execute (g : ComputationGraph F) (σ : Shuffle) (inputs : Env S) :
    Except Fault (Env S) :=
  match g.topologicalSort σ with
  | .error e => .error (.err e)
  | .ok order => run (g.evalAt inputs) order (fun _ => none)

end ComputationGraph

/-- The keys in the order of the list. -/
def inOrder : Shuffle := ⟨id, List.Perm.refl⟩

/-- A tensor of one element. -/
def scalar (x : Int) : NumTensor Int := ⟨[x], [1], rfl⟩

/-! ## The value of a node -/

theorem toOption_bind {ε α β : Type} (x : Except ε α) (f : α → Except ε β) :
    (x >>= f).toOption = x.toOption.bind (fun a => (f a).toOption) := by
  cases x <;> rfl

omit [F32 S] [F64 F] [Casts S F] in
theorem operand_toOption (node : GraphNode F) (env : Env S) (i : Nat) :
    (operand node env i).toOption = node.inputs[i]?.bind env := by
  unfold operand
  cases node.inputs[i]? with
  | none => rfl
  | some id =>
    dsimp only [Option.bind_some]
    cases env id <;> rfl

/-- A node's value depends on its operation, on the values of its inputs, and, for an
`Input` or a `Constant`, on what is bound to its identifier. -/
theorem evalNode_congr {inputs inputs' env env' : Env S} {node node' : GraphNode F}
    (hop : node.op = node'.op) (hbound : node.op.isLeaf = true → inputs node.id = inputs' node'.id)
    (hvals : node.inputs.map env = node'.inputs.map env') :
    (evalNode inputs node env).toOption = (evalNode inputs' node' env').toOption := by
  have hoperand : ∀ i, (operand node env i).toOption = (operand node' env' i).toOption := by
    intro i
    have hget := congrArg (fun l => l[i]?) hvals
    simp only [List.getElem?_map] at hget
    rw [operand_toOption, operand_toOption]
    cases h : node.inputs[i]? with
    | none =>
      cases h' : node'.inputs[i]? with
      | none => rfl
      | some v => simp [h, h'] at hget
    | some u =>
      cases h' : node'.inputs[i]? with
      | none => simp [h, h'] at hget
      | some v => simpa [h, h'] using hget
  unfold evalNode
  rw [← hop]
  cases h : node.op with
  | input name | constant cid =>
    rw [h] at hbound
    rw [hbound rfl]
    cases inputs' node'.id <;> rfl
  | _ => simp only [toOption_bind, hoperand]; try rfl

theorem evalNode_local {inputs env env' : Env S} {node : GraphNode F}
    (h : ∀ u ∈ node.inputs, env u = env' u) :
    evalNode inputs node env = evalNode inputs node env' := by
  have hoperand : ∀ i, operand node env i = operand node env' i := by
    intro i
    unfold operand
    cases hget : node.inputs[i]? with
    | none => rfl
    | some u => simp only [h u (List.mem_of_getElem? hget)]
  unfold evalNode
  simp only [hoperand]

/-- A leaf has the tensor bound to it. -/
theorem evalNode_leaf {inputs env : Env S} {node : GraphNode F} (h : node.op.isLeaf = true) :
    (evalNode inputs node env).toOption = inputs node.id := by
  unfold evalNode
  cases hop : node.op with
  | input name | constant cid => cases inputs node.id <;> rfl
  | _ =>
    rw [hop] at h
    cases h

/-- The semantics of tensors. -/
def numeric : Semantics F (NumTensor S) where
  value inputs node env := (evalNode inputs node env).toOption
  congr := evalNode_congr
  leaf := evalNode_leaf

/-! ## Runs -/

namespace ComputationGraph

variable {g : ComputationGraph F} {inputs env : Env S}

theorem evalAt_id {node : GraphNode F} (h : node ∈ g.nodes) (env : Env S) :
    g.evalAt inputs node.id env = evalNode inputs node env := by
  rw [evalAt, get_id h]

theorem denotes_iff_means :
    Dataflow.Denotes (g.evalAt inputs) g.ids env ↔ numeric.Means g inputs env := by
  constructor
  · intro h
    refine ⟨fun node hnode => ?_, h.outside⟩
    rw [h.value node.id (id_mem hnode), evalAt_id hnode]
    rfl
  · intro h
    refine ⟨fun v hv => ?_, h.2⟩
    obtain ⟨node, hnode, rfl⟩ := mem_ids.mp hv
    rw [evalAt_id hnode]
    exact h.1 node hnode

theorem localEval (hclosed : g.Closed) : LocalEval (g.evalAt inputs) g.ids g.needs := by
  intro v hv env env' h
  obtain ⟨node, hnode, rfl⟩ := mem_ids.mp hv
  rw [evalAt_id hnode, evalAt_id hnode]
  rw [hclosed.needs hnode] at h
  exact evalNode_local h

/-- **Execution.** On a closed acyclic graph a run ends in the values of the graph, if every
node has one, and fails otherwise. -/
theorem execute_eq_ok_iff (hclosed : g.Closed) (hacyclic : g.Acyclic) (σ : Shuffle) :
    g.execute σ inputs = .ok env ↔ numeric.Means g inputs env ∧ ∀ v ∈ g.ids, (env v).isSome := by
  obtain ⟨order, hsort⟩ := (topologicalSort_isOk_iff σ).mpr hacyclic
  obtain ⟨hperm, hsorted⟩ := topologicalSort_eq_ok hsort
  rw [execute, hsort, ← denotes_iff_means]
  exact run_eq_ok_iff hperm g.distinct (localEval hclosed)
    (fun _ _ _ hu => needs_mem_ids hu) hsorted

end ComputationGraph

end

end Ipfrs.Compute
