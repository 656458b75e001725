/-
Ipfrs.Compute.TopologicalSort — the loops of `topological_sort` (`computation_graph.rs`).

The two hash maps are filled node by node, an entry for each operand that is a node; the
queue loop then counts the in-degrees down. A count below 0 would be a panic. There is none,
and the loops compute what `topologicalSort` says (`sortLoops_eq`), so that the sort is
exact (`sortLoops_exact`): it succeeds if no node depends on itself, and lists each node
once, after its operands.
-/
import Ipfrs.Compute.TensorGraph
import Ipfrs.Lib.Loop

namespace Ipfrs.Compute

open Ipfrs.Lib

variable {F : Type}

/-- The maps `in_degree` and `adj_list`; `none` is a key that is not there. -/
structure SortMaps where
  inDegree : String → Option Nat
  adjList : String → Option (List String)

namespace SortMaps

def empty : SortMaps := { inDegree := fun _ => none, adjList := fun _ => none }

/-- The entries of a node, made if they are not there. -/
def addNode (m : SortMaps) (id : String) : SortMaps where
  inDegree := Function.update m.inDegree id (some ((m.inDegree id).getD 0))
  adjList := Function.update m.adjList id (some ((m.adjList id).getD []))

/-- The node `id` has the operand `input`. -/
def addEdge (m : SortMaps) (id input : String) : SortMaps where
  inDegree := Function.update m.inDegree id (some ((m.inDegree id).getD 0 + 1))
  adjList := Function.update m.adjList input (some ((m.adjList input).getD [] ++ [id]))

end SortMaps

/-- The state of the queue loop. -/
structure SortState where
  inDegree : String → Option Nat
  queue : List String
  result : List String

/-- Count one open operand of a neighbor down, and queue it at 0; `none` if the count is 0
already. -/
def releaseNeighbor (s : (String → Option Nat) × List String) (neighbor : String) :
    Option ((String → Option Nat) × List String) :=
  match s.1 neighbor with
  | none => some s
  | some 0 => none
  | some (deg + 1) =>
    some (Function.update s.1 neighbor (some deg),
      if deg = 0 then s.2 ++ [neighbor] else s.2)

/-- One round of the queue loop; it is left with the list, or with `none` at a panic. -/
def sortBody (adjList : String → Option (List String)) (s : SortState) :
    SortState ⊕ Option (List String) :=
  match s.queue with
  | [] => .inr (some s.result)
  | id :: queue =>
    match ((adjList id).getD []).foldlM releaseNeighbor (s.inDegree, queue) with
    | none => .inr none
    | some (inDegree, queue) => .inl { inDegree, queue, result := s.result ++ [id] }

namespace ComputationGraph

def addOperands (g : ComputationGraph F) (m : SortMaps) (node : GraphNode F) : SortMaps :=
  node.inputs.foldl (fun m input => if g.containsKey input then m.addEdge node.id input else m)
    (m.addNode node.id)

def sortMaps (g : ComputationGraph F) : SortMaps :=
  g.nodes.foldl g.addOperands .empty

/-- `topological_sort`, the loop given a number of rounds. -/
def sortLoops (g : ComputationGraph F) (σ : Shuffle) (rounds : Nat) :
    Option (Option (Except GraphError (List String))) :=
  let maps := g.sortMaps
  let start : SortState :=
    { inDegree := maps.inDegree
      queue := (σ.order g.ids).filter (fun id => maps.inDegree id = some 0), result := [] }
  (Loop.run (sortBody maps.adjList) rounds start).map (fun left => left.map (fun result =>
    if result.length ≠ g.nodes.length then .error .circularDependency else .ok result))

variable {g : ComputationGraph F}

/-! ## The maps -/

theorem addEdges_inDegree (m : SortMaps) (id : String) (inputs : List String) (v : String) :
    (inputs.foldl (fun m input => if g.containsKey input then m.addEdge id input else m)
        m).inDegree v = if v = id ∧ inputs.filter g.containsKey ≠ [] then
          some ((m.inDegree id).getD 0 + (inputs.filter g.containsKey).length)
        else m.inDegree v := by
  induction inputs generalizing m with
  | nil => simp
  | cons input inputs ih =>
    rw [List.foldl_cons, ih]
    by_cases hkey : g.containsKey input = true
    · by_cases hv : v = id
      · subst hv
        by_cases hrest : inputs.filter g.containsKey = []
        · simp [hkey, hrest, SortMaps.addEdge]
        · simp [hkey, hrest, SortMaps.addEdge]
          omega
      · simp [hkey, hv, SortMaps.addEdge]
    · simp [hkey]

theorem addEdges_adjList (m : SortMaps) (id : String) (inputs : List String) (u : String) :
    ((inputs.foldl (fun m input => if g.containsKey input then m.addEdge id input else m)
        m).adjList u).getD [] = (m.adjList u).getD []
        ++ ((inputs.filter g.containsKey).filter (fun i => i = u)).map (fun _ => id) := by
  induction inputs generalizing m with
  | nil => simp
  | cons input inputs ih =>
    rw [List.foldl_cons, ih]
    by_cases hkey : g.containsKey input = true
    · by_cases hu : input = u
      · subst hu
        simp [hkey, SortMaps.addEdge]
      · simp [hkey, hu, Ne.symm hu, SortMaps.addEdge]
    · simp [hkey]

theorem addOperands_inDegree (m : SortMaps) (node : GraphNode F) (v : String) :
    (g.addOperands m node).inDegree v = if v = node.id then
          some ((m.inDegree v).getD 0 + (node.inputs.filter g.containsKey).length)
        else m.inDegree v := by
  rw [addOperands, addEdges_inDegree]
  by_cases hv : v = node.id
  · subst hv
    by_cases hnil : node.inputs.filter g.containsKey = []
    · simp [hnil, SortMaps.addNode]
    · simp [hnil, SortMaps.addNode]
  · simp [hv, SortMaps.addNode]

theorem addOperands_adjList (m : SortMaps) (node : GraphNode F) (u : String) :
    ((g.addOperands m node).adjList u).getD [] = (m.adjList u).getD []
        ++ ((node.inputs.filter g.containsKey).filter (fun i => i = u)).map (fun _ => node.id) := by
  rw [addOperands, addEdges_adjList]
  by_cases hu : u = node.id
  · subst hu
    simp [SortMaps.addNode]
  · simp [SortMaps.addNode, hu]

theorem foldl_addOperands_of_notMem {l : List (GraphNode F)} {v : String}
    (hv : v ∉ l.map GraphNode.id) (m : SortMaps) :
    (l.foldl g.addOperands m).inDegree v = m.inDegree v := by
  induction l generalizing m with
  | nil => rfl
  | cons node l ih =>
    rw [List.map_cons, List.mem_cons, not_or] at hv
    rw [List.foldl_cons, ih hv.2, addOperands_inDegree, if_neg hv.1]

theorem foldl_addOperands_inDegree {l : List (GraphNode F)} {node : GraphNode F}
    (hl : (l.map GraphNode.id).Nodup) (hnode : node ∈ l) (m : SortMaps) :
    (l.foldl g.addOperands m).inDegree node.id
      = some ((m.inDegree node.id).getD 0 + (node.inputs.filter g.containsKey).length) := by
  induction l generalizing m with
  | nil => cases hnode
  | cons n l ih =>
    rw [List.map_cons, List.nodup_cons] at hl
    rw [List.foldl_cons]
    rcases List.mem_cons.mp hnode with rfl | hmem
    · rw [foldl_addOperands_of_notMem hl.1, addOperands_inDegree, if_pos rfl]
    · have hne : node.id ≠ n.id := fun heq => hl.1 (heq ▸ List.mem_map_of_mem hmem)
      rw [ih hl.2 hmem, addOperands_inDegree, if_neg hne]

theorem foldl_addOperands_adjList (l : List (GraphNode F)) (m : SortMaps) (u : String) :
    ((l.foldl g.addOperands m).adjList u).getD [] = (m.adjList u).getD [] ++ l.flatMap (fun n =>
          ((n.inputs.filter g.containsKey).filter (fun i => i = u)).map (fun _ => n.id)) := by
  induction l generalizing m with
  | nil => simp
  | cons n l ih => rw [List.foldl_cons, ih, addOperands_adjList, List.flatMap_cons,
      List.append_assoc]

/-- Counts of nodes, as a map with an entry for each node. -/
def counts (g : ComputationGraph F) (inDegree : String → Nat) (v : String) : Option Nat :=
  if v ∈ g.ids then some (inDegree v) else none

/-- Each node is counted with as many operands as it has nodes among its inputs. -/
theorem sortMaps_inDegree (g : ComputationGraph F) :
    g.sortMaps.inDegree = g.counts (fun v => (g.needs v).length) := by
  funext v
  unfold counts
  split
  · next hv =>
    obtain ⟨node, hnode, rfl⟩ := mem_ids.mp hv
    dsimp only
    rw [sortMaps, foldl_addOperands_inDegree g.distinct hnode, needs_id hnode]
    simp [SortMaps.empty]
  · next hv => exact foldl_addOperands_of_notMem hv _

theorem sortMaps_adjList (g : ComputationGraph F) (u : String) :
    (g.sortMaps.adjList u).getD [] = g.consumersOf u := by
  rw [sortMaps, foldl_addOperands_adjList]
  rfl

/-! ## The queue loop -/

/-- The state of the loop for a state of the algorithm. -/
def sortState (g : ComputationGraph F) (s : Topo.State String) : SortState :=
  { inDegree := g.counts s.inDegree, queue := s.queue, result := s.listed }

theorem foldlM_releaseNeighbor {ns : List String} (hns : ∀ n ∈ ns, n ∈ g.ids)
    (s : (String → Nat) × List String) (hcount : ∀ v, ns.count v ≤ s.1 v) :
    ns.foldlM releaseNeighbor (g.counts s.1, s.2)
      = some (g.counts (Topo.release ns s).1, (Topo.release ns s).2) := by
  induction ns generalizing s with
  | nil => rfl
  | cons n ns ih =>
    obtain ⟨inDegree, queue⟩ := s
    obtain ⟨hn, hrest⟩ := List.forall_mem_cons.mp hns
    have hpos := hcount n
    rw [List.count_cons_self] at hpos
    dsimp only at hpos hcount ⊢
    obtain ⟨deg, hdeg⟩ : ∃ deg, inDegree n = deg + 1 := ⟨inDegree n - 1, by omega⟩
    have hupdate : Function.update (g.counts inDegree) n (some deg)
        = g.counts (Function.update inDegree n deg) := by
      funext v
      by_cases hv : v = n
      · subst hv
        simp [counts, hn]
      · simp [counts, Function.update_of_ne hv]
    have hstep : releaseNeighbor (g.counts inDegree, queue) n
        = some (g.counts (Function.update inDegree n deg),
            if deg = 0 then queue ++ [n] else queue) := by
      rw [← hupdate]
      simp [releaseNeighbor, counts, hn, hdeg]
    rw [List.foldlM_cons, hstep]
    simp only [Topo.release, hdeg, Nat.add_sub_cancel]
    refine ih hrest (Function.update inDegree n deg, _) (fun v => ?_)
    have hv := hcount v
    by_cases hvn : v = n
    · subst hvn
      rw [List.count_cons_self] at hv
      dsimp only
      rw [Function.update_self]
      omega
    · rw [List.count_cons_of_ne (Ne.symm hvn)] at hv
      dsimp only
      rwa [Function.update_of_ne hvn]

/-- The loop ends without a panic, with what the algorithm lists. -/
theorem run_sortBody {n : Nat} {s : Topo.State String} (hinv : Topo.Inv g.ids g.needs s)
    (hlen : g.ids.length ≤ n + s.listed.length) {rounds : Nat} (hrounds : n < rounds) :
    Loop.run (sortBody g.sortMaps.adjList) rounds (g.sortState s)
      = some (some (Topo.kahn g.consumersOf n s).listed) := by
  induction n generalizing s rounds with
  | zero =>
    have hqueue : s.queue = [] := hinv.queue_eq_nil (by omega)
    obtain ⟨r, rfl⟩ : ∃ r, rounds = r + 1 := ⟨rounds - 1, by omega⟩
    have hleave : sortBody g.sortMaps.adjList (g.sortState s) = .inr (some s.listed) := by
      simp [sortBody, sortState, hqueue]
    rw [Loop.run_leave hleave, Topo.kahn]
  | succ n ih =>
    obtain ⟨r, rfl⟩ : ∃ r, rounds = r + 1 := ⟨rounds - 1, by omega⟩
    cases hqueue : s.queue with
    | nil =>
      have hleave : sortBody g.sortMaps.adjList (g.sortState s) = .inr (some s.listed) := by
        simp [sortBody, sortState, hqueue]
      rw [Loop.run_leave hleave, Topo.kahn, hqueue]
    | cons v queue =>
      have hrelease := foldlM_releaseNeighbor (g.links.succ_mem v) (s.inDegree, queue)
        (hinv.count_le g.links hqueue)
      have hagain : sortBody g.sortMaps.adjList (g.sortState s)
          = .inl (g.sortState
              { inDegree := (Topo.release (g.consumersOf v) (s.inDegree, queue)).1
                queue := (Topo.release (g.consumersOf v) (s.inDegree, queue)).2
                listed := s.listed ++ [v] }) := by
        dsimp only at hrelease
        simp only [sortBody, sortState, hqueue, sortMaps_adjList, hrelease]
      rw [Loop.run_again hagain, Topo.kahn, hqueue]
      refine ih (hinv.round g.links hqueue) ?_ (by omega)
      simp only [List.length_append, List.length_singleton]
      omega

/-- **The loops** compute what `topologicalSort` says, in one round more than nodes. -/
theorem sortLoops_eq (g : ComputationGraph F) (σ : Shuffle) {rounds : Nat}
    (hrounds : g.nodes.length < rounds) :
    g.sortLoops σ rounds = some (some (g.topologicalSort σ)) := by
  have hseeds : (σ.order g.ids).Perm g.ids := σ.perm g.ids
  have hlen : (σ.order g.ids).length = g.ids.length := hseeds.length_eq
  have hids : g.ids.length = g.nodes.length := List.length_map _
  have hrun := run_sortBody (Topo.Inv.init g.links hseeds)
    (n := (σ.order g.ids).length) (by simp [hlen]) (show _ < rounds by omega)
  have hqueue : (σ.order g.ids).filter (fun id => g.sortMaps.inDegree id = some 0)
      = (σ.order g.ids).filter (fun id => (g.needs id).length = 0) := by
    refine List.filter_congr (fun id hid => ?_)
    simp [sortMaps_inDegree, counts, hseeds.mem_iff.mp hid]
  unfold sortLoops
  dsimp only
  rw [hqueue, sortMaps_inDegree]
  unfold sortState at hrun
  rw [hrun]
  rfl

/-! ## Exactness -/

/-- **The sort is exact**: with enough rounds it ends, in `Ok` exactly if no node depends on
itself, and then with each node once, after its operands. -/
theorem sortLoops_exact (g : ComputationGraph F) (hclosed : g.Closed) (σ : Shuffle) :
    ∃ result : Except GraphError (List String),
      (∀ rounds, g.nodes.length < rounds → g.sortLoops σ rounds = some (some result)) ∧
      ((∃ order, result = .ok order) ↔ g.NoCycle) ∧
      (¬ g.NoCycle → result = .error .circularDependency) ∧ ∀ order, result = .ok order →
        order.Perm g.ids ∧ (∀ node ∈ g.nodes, order.count node.id = 1) ∧
        ∀ u v, g.Operand u v → order.idxOf u < order.idxOf v := by
  refine ⟨g.topologicalSort σ, fun _ hrounds => sortLoops_eq g σ hrounds, ?_, ?_, ?_⟩
  · rw [hclosed.noCycle_iff, topologicalSort_isOk_iff]
  · intro hcycle
    rw [hclosed.noCycle_iff, ← topologicalSort_isOk_iff σ] at hcycle
    unfold topologicalSort at hcycle ⊢
    dsimp only at hcycle ⊢
    split
    · rfl
    · next hlen =>
      rw [if_neg hlen] at hcycle
      exact absurd ⟨_, rfl⟩ hcycle
  · intro order hok
    obtain ⟨hperm, hsorted⟩ := topologicalSort_eq_ok hok
    have hnodup : order.Nodup := hperm.nodup_iff.mpr g.distinct
    refine ⟨hperm, fun node hnode => ?_, fun u v huv => ?_⟩
    · exact List.count_eq_one_of_mem hnodup (hperm.mem_iff.mpr (id_mem hnode))
    · have hneed : u ∈ g.needs v := hclosed.operand_iff.mp huv
      exact hsorted.ranks hnodup v (hperm.mem_iff.mpr (mem_ids_of_needs hneed)) u hneed

/-- Two nodes, one using the other twice. -/
def doubled : ComputationGraph Unit where
  nodes := [{ (GraphNode.new "s" .add) with inputs := ["x", "x"] },
    GraphNode.new "x" (.input "x")]
  distinct := by decide
  inputs := ["x"]
  outputs := ["s"]

theorem sortLoops_exact_doubled :
    ∃ result : Except GraphError (List String),
      doubled.sortLoops ⟨id, List.Perm.refl⟩ 3 = some (some result) ∧
      ∀ order, result = .ok order → order.idxOf "x" < order.idxOf "s" := by
  obtain ⟨result, hrun, -, -, hsorted⟩ :=
    sortLoops_exact doubled (by unfold Closed; decide) ⟨id, List.Perm.refl⟩
  refine ⟨result, hrun 3 (by decide), fun order hok => (hsorted order hok).2.2 _ _ ?_⟩
  exact ⟨_, List.mem_cons_self, rfl, List.mem_cons_self⟩

end ComputationGraph

end Ipfrs.Compute
