/-
Ipfrs.Compute.Pipeline — running a graph in stages on several peers
(`distributed/wire.rs`, `distributed/transport.rs`, `distributed/planner.rs`).

A map from identifiers to lists of identifiers, with the set that keeps them unique, is one
list of pairs. A map of wire tensors is a list of pairs with distinct keys. An index into a
map panics where the key is missing.
-/
import Ipfrs.Compute.Execute
import Ipfrs.Lib.Outcome

namespace Ipfrs.Compute

open Ipfrs.Lib

variable {S F : Type}

/-! ## Wire format -/

structure WireTensor (S : Type) where
  data : List S
  shape : List Nat
  deriving DecidableEq

namespace WireTensor

def fromNum (t : NumTensor S) : WireTensor S := { data := t.data, shape := t.shape }

def intoNum (t : WireTensor S) : Except Fault (NumTensor S) := NumTensor.new t.data t.shape

/-- A tensor comes back from the wire. -/
theorem intoNum_fromNum (t : NumTensor S) : (fromNum t).intoNum = .ok t := by
  simp [intoNum, fromNum, NumTensor.new, t.valid]

end WireTensor

abbrev WireMap (S : Type) := List (String × WireTensor S)

namespace WireMap

def insert (m : WireMap S) (id : String) (t : WireTensor S) : WireMap S :=
  m.filter (fun e => e.1 ≠ id) ++ [(id, t)]

def extend (m new : WireMap S) : WireMap S := new.foldl (fun m e => m.insert e.1 e.2) m

end WireMap

structure StageRequest (S F : Type) where
  graph : ComputationGraph F
  inputs : WireMap S
  outputs : List String

structure StageResponse (S : Type) where
  outputs : WireMap S
  error : Option String

def StageResponse.ok (outputs : WireMap S) : StageResponse S := { outputs, error := none }

def StageResponse.err (msg : String) : StageResponse S := { outputs := [], error := some msg }

section

variable [F32 S] [F64 F] [Casts S F]

/-- Put the value of a requested node into the answer. -/
def publish (env : Env S) (outputs : WireMap S) (id : String) : Except Fault (WireMap S) :=
  match env id with
  | none => .error (.err (.nodeNotFound id))
  | some t => .ok (outputs.insert id (.fromNum t))

def runStage (σ : Shuffle) (req : StageRequest S F) : Except Fault (WireMap S) := do
  let inputs ← req.inputs.mapM (fun e => do pure (e.1, ← e.2.intoNum))
  let env ← req.graph.execute σ (fun id => List.lookup id inputs)
  req.outputs.foldlM (publish env) []

/-- An error becomes part of the response; a panic does not. -/
def executeStage (σ : Shuffle) (req : StageRequest S F) : Except Fault (StageResponse S) :=
  match runStage σ req with
  | .ok outputs => .ok (.ok outputs)
  | .error (.err e) => .ok (.err e.display)
  | .error .panic => .error .panic

end

/-! ## Transport -/

structure PipelineStage (F : Type) where
  peer : String
  graph : ComputationGraph F
  inputIds : List String
  outputIds : List String

/-- Take an input of a stage from the environment. -/
def pull (env : WireMap S) (i : Nat) (stage : PipelineStage F) (inputs : WireMap S)
    (id : String) : Except Fault (WireMap S) :=
  match env.lookup id with
  | none =>
    .error (.err (.missingInput ("stage " ++ toString i ++ " (peer " ++ stage.peer
      ++ "): activation '" ++ id ++ "' not yet available")))
  | some val => .ok (inputs.insert id val)

/-- One stage. -/
def pipelineStep (transport : String → StageRequest S F → Except Fault (StageResponse S))
    (env : WireMap S) (i : Nat) (stage : PipelineStage F) : Except Fault (WireMap S) := do
  let inputs ← stage.inputIds.foldlM (pull env i stage) []
  let req : StageRequest S F :=
    { graph := stage.graph, inputs, outputs := stage.outputIds }
  let resp ← transport stage.peer req
  match resp.error with
  | some err =>
    throw (.err (.executionError ("stage " ++ toString i ++ " (peer " ++ stage.peer
      ++ ") failed: " ++ err)))
  | none => pure (env.extend resp.outputs)

/-- The stages from the one of index `i`. -/
def pipelineFrom (transport : String → StageRequest S F → Except Fault (StageResponse S)) :
    Nat → List (PipelineStage F) → WireMap S → Except Fault (WireMap S)
  | _, [], env => .ok env
  | i, stage :: rest, env => do
      pipelineFrom transport (i + 1) rest (← pipelineStep transport env i stage)

def executePipeline (stages : List (PipelineStage F))
    (transport : String → StageRequest S F → Except Fault (StageResponse S))
    (initial : WireMap S) : Except Fault (WireMap S) :=
  pipelineFrom transport 0 stages initial

/-! ## Planner -/

/-- A unique list at each key, as one list of pairs. -/
abbrev Pushes := List (String × String)

def pushUnique (pushes : Pushes) (key val : String) : Pushes :=
  if (key, val) ∈ pushes then pushes else pushes ++ [(key, val)]

/-- The list at a key. -/
def atKey (pushes : Pushes) (key : String) : List String :=
  (pushes.filter (fun e => e.1 = key)).map Prod.snd

/-- What the first loop collects: the inputs and outputs of each stage, and the edges from
producing to consuming stages. -/
structure Boundaries where
  boundary : Pushes
  outputs : Pushes
  edges : Pushes

namespace ComputationGraph

/-- One operand of a node on `stage`. -/
def planOperand (g : ComputationGraph F) (placement : String → Option String) (stage : String)
    (s : Boundaries) (op : String) : Except Fault Boundaries :=
  if op ∈ g.inputs then .ok { s with boundary := pushUnique s.boundary stage op }
  else
    match placement op with
    | none => .error .panic
    | some prod =>
      if prod = stage then .ok s
      else
        .ok {
          boundary := pushUnique s.boundary stage op
          outputs := pushUnique s.outputs prod op
          edges := pushUnique s.edges prod stage }

/-- A graph output is published by its stage, a graph input fed to it. -/
def planOwn (g : ComputationGraph F) (stage : String) (s : Boundaries) (id : String) :
    Boundaries where
  boundary := if id ∈ g.inputs then pushUnique s.boundary stage id else s.boundary
  outputs := if id ∈ g.outputs then pushUnique s.outputs stage id else s.outputs
  edges := s.edges

def planNode (g : ComputationGraph F) (placement : String → Option String) (s : Boundaries)
    (id : String) : Except Fault Boundaries :=
  match g.get id, placement id with
  | some node, some stage =>
    node.inputs.foldlM (g.planOperand placement stage) (g.planOwn stage s id)
  | _, _ => .error .panic

/-- The placeholder of an activation from elsewhere. -/
def placeholder (id : String) : GraphNode F := GraphNode.new id (.input id)

def liftGraph {α : Type} (r : Except GraphError α) : Except Fault α := r.mapError .err

/-- A placeholder for each boundary input that the stage does not own. -/
def addPlaceholders (own : List String) (sub : ComputationGraph F) (bid : String) :
    Except Fault (ComputationGraph F) :=
  if bid ∈ own then .ok sub
  else do
    let sub ← liftGraph (sub.addNode (placeholder bid))
    pure (sub.markInput bid)

/-- A node the stage owns. -/
def addOwn (g sub : ComputationGraph F) (id : String) : Except Fault (ComputationGraph F) :=
  match g.get id with
  | none => .error .panic
  | some node => liftGraph (sub.addNode node)

/-- The nodes that a stage owns. -/
def ownNodes (placement : String → Option String) (topo : List String) (p : String) :
    List String :=
  topo.filter (fun id => placement id = some p)

def assembleStage (g : ComputationGraph F) (placement : String → Option String)
    (topo : List String) (s : Boundaries) (stage : String) :
    Except Fault (PipelineStage F) := do
  let own := ownNodes placement topo stage
  let bvec := atKey s.boundary stage
  let ovec := atKey s.outputs stage
  let sub ← bvec.foldlM (addPlaceholders own) ComputationGraph.new
  let sub ← own.foldlM g.addOwn sub
  let sub := (bvec.filter (fun bid => bid ∈ own)).foldl markInput sub
  let sub := ovec.foldl markOutput sub
  pure { peer := stage, graph := sub, inputIds := bvec, outputIds := ovec }

/-- The distinct peers, in the order in which they first appear. -/
def appearances (peers : List String) : List String :=
  peers.foldl (fun seen p => if p ∈ seen then seen else seen ++ [p]) []

/-- The peers of the nodes. -/
def stagesOf (placement : String → Option String) (topo : List String) : List String :=
  appearances (topo.filterMap placement)

/-- The stages whose outputs a stage uses. -/
def sourcesOf (s : Boundaries) (stage : String) : List String :=
  (s.edges.filter (fun e => e.2 = stage)).map Prod.fst

def cyclicStages : GraphError :=
  .invalidGraph "plan_pipeline: placement induces a cyclic stage graph"

def planPipeline (g : ComputationGraph F) (σ : Shuffle) (placement : String → Option String) :
    Except Fault (List (PipelineStage F)) := do
  let topo ← liftGraph (g.topologicalSort σ)
  match topo.find? (fun id => (placement id).isNone) with
  | some id =>
    throw (.err (.invalidGraph ("plan_pipeline: node '" ++ id ++ "' has no placement")))
  | none =>
    let stageOrder := stagesOf placement topo
    let s ← topo.foldlM (g.planNode placement) { boundary := [], outputs := [], edges := [] }
    let order := Topo.sort (sourcesOf s) (atKey s.edges) stageOrder
    if order.length ≠ stageOrder.length then throw (.err cyclicStages)
    order.mapM (g.assembleStage placement topo s)

/-- The peer of each place in the order: so many places to each peer, and any left to the
last. -/
def owners (peers : List String) (n : Nat) : List String :=
  let base := n / peers.length
  let rem := n % peers.length
  (peers.zipIdx.flatMap (fun e => List.replicate (base + if e.2 < rem then 1 else 0) e.1))
    ++ List.replicate n (peers.getLastD "")

def planPipelineContiguous (g : ComputationGraph F) (σ σ' : Shuffle) (peers : List String) :
    Except Fault (List (PipelineStage F)) := do
  if peers = [] then
    throw (.err (.invalidGraph "plan_pipeline_contiguous: no peers"))
  let topo ← liftGraph (g.topologicalSort σ)
  g.planPipeline σ' (fun id => (topo.zip (owners peers topo.length)).lookup id)

end ComputationGraph

end Ipfrs.Compute
