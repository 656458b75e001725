/-
Ipfrs.Compute.Cse — common-subexpression elimination (`optimize_cse`).

In sorted order, a node of a signature seen before is redirected to the first node of that
signature: every use of it becomes a use of that one. The node itself stays. The pass as a
whole renames the inputs of the nodes (`optimizeCse_eq`). It preserves the values of a run
if the bound nodes that it merges, where used, are bound to the same tensor
(`outputValues_optimizeCse`); it does not look at what they are bound to.
-/
import Ipfrs.Compute.Execute

namespace Ipfrs.Compute

open Ipfrs.Lib Ipfrs.Lib.Topo

variable {S F V : Type}

namespace ComputationGraph

/-- Change the inputs of every node. -/
def mapInputs (g : ComputationGraph F) (ρ : String → String) : ComputationGraph F where
  nodes := g.nodes.map (fun n => { n with inputs := n.inputs.map ρ })
  distinct := by
    rw [List.map_map]
    exact g.distinct
  inputs := g.inputs
  outputs := g.outputs

/-- Replace one node by another wherever it is used. -/
def redirect (g : ComputationGraph F) (nodeId existingId : String) : ComputationGraph F :=
  g.mapInputs (fun input => if input = nodeId then existingId else input)

/-- How often a node is used. -/
def uses (g : ComputationGraph F) (nodeId : String) : Nat :=
  total (g.nodes.map (fun n => n.inputs.count nodeId))

end ComputationGraph

/-- The graph, the first node of each signature, and the number of inputs replaced. -/
structure CseState (F : Type) where
  graph : ComputationGraph F
  exprMap : List (List Char × String)
  optimizedCount : Nat

section

variable [DebugTable F]

def cseStep (s : CseState F) (nodeId : String) : CseState F :=
  match s.graph.get nodeId with
  | none => s
  | some node =>
    match s.exprMap.lookup node.signature with
    | some existingId =>
      { s with
        graph := s.graph.redirect nodeId existingId
        optimizedCount := s.optimizedCount + s.graph.uses nodeId }
    | none => { s with exprMap := (node.signature, nodeId) :: s.exprMap }

def ComputationGraph.optimizeCse (g : ComputationGraph F) (σ : Shuffle) :
    ComputationGraph F × Nat :=
  match g.topologicalSort σ with
  | .error _ => (g, 0)
  | .ok sorted =>
    let s := sorted.foldl cseStep { graph := g, exprMap := [], optimizedCount := 0 }
    (s.graph, s.optimizedCount)

end

namespace ComputationGraph

variable {g : ComputationGraph F}

/-! ## Renaming inputs -/

@[simp] theorem ids_mapInputs (ρ : String → String) : (g.mapInputs ρ).ids = g.ids := by
  simp [ids, mapInputs]

theorem mem_mapInputs {ρ : String → String} {node : GraphNode F} : node ∈ (g.mapInputs ρ).nodes ↔
      ∃ n ∈ g.nodes, { n with inputs := n.inputs.map ρ } = node := by
  simp [mapInputs]

theorem mapInputs_mapInputs (ρ τ : String → String) :
    (g.mapInputs ρ).mapInputs τ = g.mapInputs (τ ∘ ρ) := by
  simp [mapInputs]

theorem mapInputs_id : g.mapInputs id = g := by
  simp [mapInputs]

theorem get_mapInputs {ρ : String → String} {node : GraphNode F} (h : node ∈ g.nodes) :
    (g.mapInputs ρ).get node.id = some { node with inputs := node.inputs.map ρ } :=
  get_eq_some.mpr ⟨mem_mapInputs.mpr ⟨node, h, rfl⟩, rfl⟩

/-! ## Congruence -/

/-- The two nodes compute the same operation, from the bound nodes up. -/
inductive Congruent (g : ComputationGraph F) : String → String → Prop where
  | refl (v : String) : Congruent g v v
  | node {n m : GraphNode F} (hn : n ∈ g.nodes) (hm : m ∈ g.nodes) (hop : n.op = m.op)
      (hlen : n.inputs.length = m.inputs.length)
      (hinputs : ∀ (i : Nat) (u v : String), n.inputs[i]? = some u → m.inputs[i]? = some v →
        Congruent g u v) : Congruent g n.id m.id

theorem Congruent.symm {u v : String} (h : g.Congruent u v) : g.Congruent v u := by
  induction h with
  | refl v => exact .refl v
  | node hn hm hop hlen _ ih =>
    exact .node hm hn hop.symm hlen.symm (fun i u v hu hv => ih i v u hv hu)

theorem Congruent.trans {u v w : String} (h : g.Congruent u v) (h' : g.Congruent v w) :
    g.Congruent u w := by
  induction h generalizing w with
  | refl v => exact h'
  | @node n m hn hm hop hlen hinputs ih =>
    generalize hv : m.id = v at h'
    cases h' with
    | refl v => exact hv ▸ .node hn hm hop hlen hinputs
    | @node m' k hm' hk hop' hlen' hinputs' =>
      have hmm : m = m' := List.inj_on_of_nodup_map g.distinct hm hm' hv
      subst hmm
      refine .node hn hk (hop.trans hop') (hlen.trans hlen') ?_
      intro i a c ha hc
      have hi : i < m.inputs.length := by
        rw [← hlen]
        exact (List.getElem?_eq_some_iff.mp ha).1
      have hb := List.getElem?_eq_getElem hi
      exact ih i a _ ha hb (hinputs' i _ c hb hc)

theorem Congruent.op_eq {n m : GraphNode F} (h : g.Congruent n.id m.id) (hn : n ∈ g.nodes)
    (hm : m ∈ g.nodes) : n.op = m.op := by
  generalize hu : n.id = u at h
  generalize hv : m.id = v at h
  cases h with
  | refl w =>
    rw [List.inj_on_of_nodup_map g.distinct hn hm (hu.trans hv.symm)]
  | @node n' m' hn' hm' hop hlen hinputs =>
    rw [List.inj_on_of_nodup_map g.distinct hn hn' hu,
      List.inj_on_of_nodup_map g.distinct hm hm' hv, hop]

/-- Some node uses it. -/
def Used (g : ComputationGraph F) (v : String) : Prop := ∃ node ∈ g.nodes, v ∈ node.inputs

/-! ## The pass -/

section

variable [DebugTable F]

/-- The signature of a node after renaming. -/
def signatureUnder (ρ : String → String) (node : GraphNode F) : List Char :=
  { node with inputs := node.inputs.map ρ }.signature

theorem signatureUnder_congr {ρ τ : String → String} {node : GraphNode F}
    (h : ∀ u ∈ node.inputs, ρ u = τ u) : signatureUnder ρ node = signatureUnder τ node := by
  rw [signatureUnder, signatureUnder, List.map_congr_left h]

theorem signatureUnder_inj {ρ : String → String} {n m : GraphNode F}
    (h : signatureUnder ρ n = signatureUnder ρ m) : n.op = m.op ∧ n.inputs.map ρ = m.inputs.map ρ :=
  signature_inj h

/-- After the nodes of `done`: the graph is the first one renamed by `ρ`, which maps each
node to the first one of its signature. -/
structure CseInv (g : ComputationGraph F) (rank : String → Nat) (done : List String)
    (s : CseState F) (ρ : String → String) : Prop where
  graph : s.graph = g.mapInputs ρ
  outside : ∀ u, u ∉ done → ρ u = u
  earlier : ∀ u ∈ done, ρ u ∈ done ∧ rank (ρ u) ≤ rank u
  below : ∀ n ∈ g.nodes, n.id ∈ done → ∀ u ∈ n.inputs, u ∈ done
  found : ∀ n ∈ g.nodes, n.id ∈ done → s.exprMap.lookup (signatureUnder ρ n) = some (ρ n.id)
  known : ∀ sig v, s.exprMap.lookup sig = some v →
    ∃ n ∈ g.nodes, n.id = v ∧ v ∈ done ∧ signatureUnder ρ n = sig
  congruent : ∀ u, g.Congruent (ρ u) u

theorem CseInv.init (g : ComputationGraph F) (rank : String → Nat) :
    CseInv g rank [] { graph := g, exprMap := [], optimizedCount := 0 } id where
  graph := mapInputs_id.symm
  outside := fun _ _ => rfl
  earlier := by simp
  below := by simp
  found := by simp
  known := by simp
  congruent := .refl

variable {rank : String → Nat} {done : List String} {s : CseState F} {ρ : String → String}

/-- Nodes with the same renamed inputs are congruent, where their operations agree. -/
theorem CseInv.congruent_of_signature (h : CseInv g rank done s ρ) {n m : GraphNode F}
    (hn : n ∈ g.nodes) (hm : m ∈ g.nodes) (hsig : signatureUnder ρ n = signatureUnder ρ m) :
    g.Congruent n.id m.id := by
  obtain ⟨hop, hinputs⟩ := signatureUnder_inj hsig
  have hlen : n.inputs.length = m.inputs.length := by
    simpa using congrArg List.length hinputs
  refine .node hn hm hop hlen ?_
  intro i u v hu hv
  have hget := congrArg (fun l => l[i]?) hinputs
  simp only [List.getElem?_map, hu, hv, Option.map_some, Option.some.injEq] at hget
  have huv : g.Congruent (ρ u) v := hget ▸ h.congruent v
  exact (h.congruent u).symm.trans huv

theorem cseStep_new {node : GraphNode F} {id : String} (hget : s.graph.get id = some node)
    (h : s.exprMap.lookup node.signature = none) :
    cseStep s id = { s with exprMap := (node.signature, id) :: s.exprMap } := by
  simp [cseStep, hget, h]

theorem cseStep_known {node : GraphNode F} {id existing : String}
    (hget : s.graph.get id = some node)
    (h : s.exprMap.lookup node.signature = some existing) :
    cseStep s id =
      { s with
        graph := s.graph.redirect id existing
        optimizedCount := s.optimizedCount + s.graph.uses id } := by
  simp [cseStep, hget, h]

/-- A node of a new signature stays. -/
theorem CseInv.step_new (h : CseInv g rank done s ρ) {node : GraphNode F}
    (hnode : node ∈ g.nodes) (hdone : node.id ∉ done) (hinputs : ∀ u ∈ node.inputs, u ∈ done)
    (hlookup : s.exprMap.lookup (signatureUnder ρ node) = none) :
    CseInv g rank (done ++ [node.id])
      { s with exprMap := (signatureUnder ρ node, node.id) :: s.exprMap } ρ where
  graph := h.graph
  outside := fun u hu => h.outside u (fun hmem => hu (List.mem_append_left _ hmem))
  earlier := by
    intro u hu
    rcases List.mem_append.mp hu with hu | hu
    · exact ⟨List.mem_append_left _ (h.earlier u hu).1, (h.earlier u hu).2⟩
    · rw [List.mem_singleton.mp hu, h.outside node.id hdone]
      simp
  below := by
    intro n hn hmem u hu
    refine List.mem_append_left _ ?_
    rcases List.mem_append.mp hmem with hmem | hmem
    · exact h.below n hn hmem u hu
    · have heq := List.inj_on_of_nodup_map g.distinct hn hnode (List.mem_singleton.mp hmem)
      exact hinputs u (heq ▸ hu)
  found := by
    intro n hn hmem
    rw [List.lookup_cons]
    rcases List.mem_append.mp hmem with hmem | hmem
    · have hold := h.found n hn hmem
      have hne : (signatureUnder ρ n == signatureUnder ρ node) = false := by
        rw [beq_eq_false_iff_ne]
        intro heq
        rw [heq, hlookup] at hold
        cases hold
      rw [hne]
      exact hold
    · have heq := List.inj_on_of_nodup_map g.distinct hn hnode (List.mem_singleton.mp hmem)
      rw [heq, beq_self_eq_true, h.outside node.id hdone]
  known := by
    intro sig v hv
    rw [List.lookup_cons] at hv
    cases heq : sig == signatureUnder ρ node with
    | true =>
      rw [heq] at hv
      exact ⟨node, hnode, Option.some.inj hv, by simp [← Option.some.inj hv],
        (beq_iff_eq.mp heq).symm⟩
    | false =>
      rw [heq] at hv
      obtain ⟨n, hn, hid, hmem, hsig⟩ := h.known sig v hv
      exact ⟨n, hn, hid, List.mem_append_left _ hmem, hsig⟩
  congruent := h.congruent

/-- A node of a known signature is mapped to the first one. -/
theorem CseInv.step_known (h : CseInv g rank done s ρ) {node : GraphNode F}
    (hnode : node ∈ g.nodes) (hdone : node.id ∉ done) (hinputs : ∀ u ∈ node.inputs, u ∈ done)
    (hrank : ∀ u ∈ done, rank u < rank node.id) {existing : String}
    (hlookup : s.exprMap.lookup (signatureUnder ρ node) = some existing) :
    CseInv g rank (done ++ [node.id])
      { s with
        graph := s.graph.redirect node.id existing
        optimizedCount := s.optimizedCount + s.graph.uses node.id }
      (Function.update ρ node.id existing) := by
  obtain ⟨first, hfirst, hfirstId, hexisting, hsig⟩ := h.known _ _ hlookup
  have hagree : ∀ u ∈ done, Function.update ρ node.id existing u = ρ u := by
    intro u hu
    have hne : u ≠ node.id := by
      rintro rfl
      exact hdone hu
    exact Function.update_of_ne hne _ _
  have hbelow : ∀ n ∈ g.nodes, n.id ∈ done ++ [node.id] → ∀ u ∈ n.inputs, u ∈ done := by
    intro n hn hmem
    rcases List.mem_append.mp hmem with hmem | hmem
    · exact h.below n hn hmem
    · rw [List.inj_on_of_nodup_map g.distinct hn hnode (List.mem_singleton.mp hmem)]
      exact hinputs
  refine {
    graph := ?_
    outside := ?_
    earlier := ?_
    below := fun n hn hmem u hu => List.mem_append_left _ (hbelow n hn hmem u hu)
    found := ?_
    known := ?_
    congruent := ?_ }
  · change s.graph.redirect node.id existing = _
    rw [h.graph, redirect, mapInputs_mapInputs]
    congr 1
    funext u
    by_cases hu : u = node.id
    · simp [hu, h.outside node.id hdone]
    · have hne : ρ u ≠ node.id := by
        intro heq
        by_cases hmem : u ∈ done
        · exact hdone (heq ▸ (h.earlier u hmem).1)
        · exact hu ((h.outside u hmem).symm.trans heq)
      simp [hu, hne]
  · intro u hu
    rw [List.mem_append, not_or] at hu
    rw [Function.update_of_ne (by simpa using hu.2), h.outside u hu.1]
  · intro u hu
    rcases List.mem_append.mp hu with hu | hu
    · rw [hagree u hu]
      exact ⟨List.mem_append_left _ (h.earlier u hu).1, (h.earlier u hu).2⟩
    · rw [List.mem_singleton.mp hu, Function.update_self]
      exact ⟨List.mem_append_left _ hexisting, Nat.le_of_lt (hrank existing hexisting)⟩
  · intro n hn hmem
    rw [signatureUnder_congr (fun u hu => hagree u (hbelow n hn hmem u hu))]
    rcases List.mem_append.mp hmem with hmem | hmem
    · rw [hagree _ hmem]
      exact h.found n hn hmem
    · rw [List.inj_on_of_nodup_map g.distinct hn hnode (List.mem_singleton.mp hmem),
        Function.update_self]
      exact hlookup
  · intro sig v hv
    obtain ⟨n, hn, hid, hmem, hsig⟩ := h.known sig v hv
    refine ⟨n, hn, hid, List.mem_append_left _ hmem, ?_⟩
    rw [signatureUnder_congr (fun u hu => hagree u (h.below n hn (hid ▸ hmem) u hu)), hsig]
  · intro u
    by_cases hu : u = node.id
    · rw [hu, Function.update_self, ← hfirstId]
      exact h.congruent_of_signature hfirst hnode hsig
    · rw [Function.update_of_ne hu]
      exact h.congruent u

theorem CseInv.step (h : CseInv g rank done s ρ) {node : GraphNode F} (hnode : node ∈ g.nodes)
    (hdone : node.id ∉ done) (hinputs : ∀ u ∈ node.inputs, u ∈ done)
    (hrank : ∀ u ∈ done, rank u < rank node.id) :
    ∃ ρ', CseInv g rank (done ++ [node.id]) (cseStep s node.id) ρ' := by
  have hget : s.graph.get node.id = some { node with inputs := node.inputs.map ρ } := by
    rw [h.graph]
    exact get_mapInputs hnode
  cases hlookup : s.exprMap.lookup (signatureUnder ρ node) with
  | none =>
    rw [cseStep_new hget hlookup]
    exact ⟨ρ, h.step_new hnode hdone hinputs hlookup⟩
  | some existing =>
    rw [cseStep_known hget hlookup]
    exact ⟨_, h.step_known hnode hdone hinputs hrank hlookup⟩

/-- The rest of a sorted order. -/
theorem CseInv.run {order : List String} (hclosed : g.Closed) (hperm : order.Perm g.ids)
    (rest : List String) (horder : done ++ rest = order) (hsorted : Sorted g.needs done rest)
    (h : CseInv g order.idxOf done s ρ) :
    ∃ ρ', CseInv g order.idxOf order (rest.foldl cseStep s) ρ' := by
  have hnodup : order.Nodup := hperm.nodup_iff.mpr g.distinct
  induction rest generalizing done s ρ with
  | nil =>
    rw [List.append_nil] at horder
    exact ⟨ρ, horder ▸ h⟩
  | cons v rest ih =>
    have hv : v ∈ order := horder ▸ List.mem_append_right _ List.mem_cons_self
    obtain ⟨node, hnode, rfl⟩ := mem_ids.mp (hperm.mem_iff.mp hv)
    have hsplit : (done ++ node.id :: rest).Nodup := horder ▸ hnodup
    have hdone : node.id ∉ done := by
      intro hmem
      exact (List.nodup_append.mp hsplit).2.2 _ hmem _ List.mem_cons_self rfl
    have hinputs := hsorted.1
    rw [hclosed.needs hnode] at hinputs
    have hrank : ∀ u ∈ done, order.idxOf u < order.idxOf node.id := by
      intro u hu
      rw [← horder, List.idxOf_append_of_mem hu, List.idxOf_append_of_notMem hdone]
      have hlt := List.idxOf_lt_length_iff.mpr hu
      omega
    obtain ⟨ρ', h'⟩ := h.step hnode hdone hinputs hrank
    have hsorted' : Sorted g.needs (done ++ [node.id]) rest := by
      refine hsorted.2.mono ?_
      intro u hu
      simpa [or_comm] using hu
    exact ih (by simpa using horder) hsorted' h'

/-- Congruent nodes have one first node. -/
theorem CseInv.first_eq (h : CseInv g rank done s ρ) {u v : String} (huv : g.Congruent u v)
    (hu : u ∈ done) (hv : v ∈ done) : ρ u = ρ v := by
  induction huv with
  | refl v => rfl
  | @node n m hn hm hop hlen hinputs ih =>
    have hmap : n.inputs.map ρ = m.inputs.map ρ := by
      refine List.ext_getElem (by simpa using hlen) ?_
      intro i hi hi'
      rw [List.length_map] at hi hi'
      rw [List.getElem_map, List.getElem_map]
      exact ih i _ _ (List.getElem?_eq_getElem hi) (List.getElem?_eq_getElem hi')
        (h.below n hn hu _ (List.getElem_mem hi)) (h.below m hm hv _ (List.getElem_mem hi'))
    have hsig : signatureUnder ρ n = signatureUnder ρ m := by
      rw [signatureUnder, signatureUnder, GraphNode.signature, GraphNode.signature, hop, hmap]
    have hfound := h.found n hn hu
    rw [hsig, h.found m hm hv] at hfound
    exact (Option.some.inj hfound).symm

end

/-! ## What it preserves -/

/-- A used `Input` or `Constant` is bound to the tensor that the first node congruent to it,
in this order, is bound to. -/
def MergedBound (g : ComputationGraph F) (order : List String)
    (inputs : String → Option V) : Prop :=
  ∀ n ∈ g.nodes, n.op.isLeaf = true → g.Used n.id → ∀ k ∈ g.nodes, g.Congruent k.id n.id →
    (∀ j ∈ g.nodes, g.Congruent j.id n.id → order.idxOf k.id ≤ order.idxOf j.id) →
    inputs k.id = inputs n.id

section

variable [DebugTable F] {order : List String} {s : CseState F} {ρ : String → String}
  {sem : Semantics F V} {inputs D : String → Option V}

/-- Where the bound nodes agree, a used node has the value of the first of its signature. -/
theorem CseInv.value (h : CseInv g order.idxOf order s ρ) (hclosed : g.Closed)
    (hperm : order.Perm g.ids) (hrank : Ranks g.needs g.ids order.idxOf)
    (hbound : g.MergedBound order inputs) (hD : sem.Means g inputs D) :
    ∀ u, g.Used u → D (ρ u) = D u := by
  obtain ⟨hvalue, -⟩ := hD
  have hall : ∀ r u, g.Used u → order.idxOf u = r → D (ρ u) = D u := by
    intro r
    induction r using Nat.strongRecOn with
    | ind r ih =>
      intro u hused hur
      obtain ⟨user, huser, hu⟩ := hused
      obtain ⟨n, hn, rfl⟩ := mem_ids.mp (hclosed user huser u hu)
      have hmem : ∀ m ∈ g.nodes, m.id ∈ order :=
        fun m hm => hperm.mem_iff.mpr (id_mem hm)
      obtain ⟨k, hk, hkid, -, hsig⟩ := h.known _ _ (h.found n hn (hmem n hn))
      obtain ⟨hop, hinputs⟩ := signatureUnder_inj hsig
      have hkn : order.idxOf k.id ≤ order.idxOf n.id := by
        rw [hkid]
        exact (h.earlier n.id (hmem n hn)).2
      have hbelow : ∀ m ∈ g.nodes, order.idxOf m.id ≤ r →
          m.inputs.map D = (m.inputs.map ρ).map D := by
        intro m hm hle
        rw [List.map_map]
        refine List.map_congr_left ?_
        intro w hw
        have hlt := hrank m.id (id_mem hm) w (by rwa [hclosed.needs hm])
        dsimp only at hlt
        exact (ih _ (by omega) w ⟨m, hm, hw⟩ rfl).symm
      have hvals : k.inputs.map D = n.inputs.map D := by
        rw [hbelow k hk (by omega), hbelow n hn (by omega), hinputs]
      have hleaf : k.op.isLeaf = true → inputs k.id = inputs n.id := by
        intro hk'
        refine hbound n hn (hop ▸ hk') ⟨user, huser, hu⟩ k hk
          (h.congruent_of_signature hk hn hsig) ?_
        intro j hj hjn
        have hfirst := h.first_eq hjn (hmem j hj) (hmem n hn)
        rw [hkid, ← hfirst]
        exact (h.earlier j.id (hmem j hj)).2
      rw [← hkid, hvalue k hk, hvalue n hn]
      exact sem.congr hop hleaf hvals
  exact fun u hu => hall _ u hu rfl

omit [DebugTable F] in
/-- Renaming used nodes to nodes of the same value keeps the values. -/
theorem means_mapInputs (hD : sem.Means g inputs D)
    (hval : ∀ u, g.Used u → D (ρ u) = D u) : sem.Means (g.mapInputs ρ) inputs D := by
  obtain ⟨hvalue, hout⟩ := hD
  refine ⟨?_, fun v hv => hout v (by rwa [ids_mapInputs] at hv)⟩
  intro node hnode
  obtain ⟨n, hn, rfl⟩ := mem_mapInputs.mp hnode
  rw [hvalue n hn]
  refine sem.congr rfl (fun _ => rfl) ?_
  rw [List.map_map]
  exact List.map_congr_left (fun u hu => (hval u ⟨n, hn, hu⟩).symm)

end

/-- Renaming nodes to earlier ones keeps the graph closed and acyclic. -/
theorem closed_mapInputs (hclosed : g.Closed) {ρ : String → String}
    (hids : ∀ u ∈ g.ids, ρ u ∈ g.ids) : (g.mapInputs ρ).Closed := by
  intro node hnode i hi
  obtain ⟨n, hn, rfl⟩ := mem_mapInputs.mp hnode
  obtain ⟨u, hu, rfl⟩ := List.mem_map.mp hi
  rw [ids_mapInputs]
  exact hids u (hclosed n hn u hu)

theorem acyclic_mapInputs (hclosed : g.Closed) {ρ : String → String} {rank : String → Nat}
    (hids : ∀ u ∈ g.ids, ρ u ∈ g.ids) (hrank : Ranks g.needs g.ids rank)
    (hle : ∀ u ∈ g.ids, rank (ρ u) ≤ rank u) : (g.mapInputs ρ).Acyclic := by
  refine ⟨rank, ?_⟩
  intro v hv u hu
  obtain ⟨node, hnode, rfl⟩ := mem_ids.mp hv
  obtain ⟨n, hn, rfl⟩ := mem_mapInputs.mp hnode
  rw [(closed_mapInputs hclosed hids).needs hnode] at hu
  obtain ⟨w, hw, rfl⟩ := List.mem_map.mp hu
  have hlt := hrank n.id (id_mem hn) w (by rwa [hclosed.needs hn])
  exact Nat.lt_of_le_of_lt (hle w (hclosed n hn w hw)) hlt

section

variable [DebugTable F]

/-- The pass renames the inputs of the nodes, each to the first node of its signature. -/
theorem optimizeCse_eq {σ : Shuffle} {order : List String} (hclosed : g.Closed)
    (hsort : g.topologicalSort σ = .ok order) :
    ∃ s ρ, CseInv g order.idxOf order s ρ ∧ (g.optimizeCse σ).1 = g.mapInputs ρ := by
  obtain ⟨hperm, hsorted⟩ := topologicalSort_eq_ok hsort
  obtain ⟨ρ, h⟩ := (CseInv.init g order.idxOf).run hclosed hperm order rfl hsorted
  refine ⟨_, ρ, h, ?_⟩
  rw [optimizeCse, hsort, ← h.graph]

end

section

variable [DebugTable F] {order : List String}

/-- The graph after the pass, and that it can be run. -/
theorem optimizeCse_spec {σ : Shuffle} (hv : g.Valid) (hsort : g.topologicalSort σ = .ok order) :
    ∃ s ρ, CseInv g order.idxOf order s ρ ∧ (g.optimizeCse σ).1 = g.mapInputs ρ ∧
      Ranks g.needs g.ids order.idxOf ∧ order.Perm g.ids ∧
      (g.mapInputs ρ).Closed ∧ (g.mapInputs ρ).Acyclic := by
  obtain ⟨hperm, hsorted⟩ := topologicalSort_eq_ok hsort
  have hrank : Ranks g.needs g.ids order.idxOf := fun v hvmem =>
    hsorted.ranks (hperm.nodup_iff.mpr g.distinct) v (hperm.mem_iff.mpr hvmem)
  obtain ⟨s, ρ, h, hgraph⟩ := optimizeCse_eq hv.closed hsort
  have hids : ∀ u ∈ g.ids, ρ u ∈ g.ids :=
    fun u hu => hperm.mem_iff.mp (h.earlier u (hperm.mem_iff.mpr hu)).1
  exact ⟨s, ρ, h, hgraph, hrank, hperm, closed_mapInputs hv.closed hids,
    acyclic_mapInputs hv.closed hids hrank
      (fun u hu => (h.earlier u (hperm.mem_iff.mpr hu)).2)⟩

/-- The pass keeps a graph valid. -/
theorem valid_optimizeCse (σ : Shuffle) (hv : g.Valid) : (g.optimizeCse σ).1.Valid := by
  obtain ⟨order, hsort⟩ := (topologicalSort_isOk_iff σ).mpr hv.acyclic
  obtain ⟨s, ρ, -, hgraph, -, -, hclosed, hacyclic⟩ := optimizeCse_spec hv hsort
  rw [hgraph]
  refine ⟨?_, ?_, hclosed, ?_, hacyclic⟩
  · rw [ids_mapInputs]
    exact hv.inputs
  · rw [ids_mapInputs]
    exact hv.outputs
  · intro node hnode hpos
    obtain ⟨n, hn, rfl⟩ := mem_mapInputs.mp hnode
    rw [List.length_map]
    exact hv.arity n hn hpos

/-- If the merged nodes agree, every node has its value after the pass. -/
theorem means_optimizeCse {sem : Semantics F V} {inputs D : String → Option V} {σ : Shuffle}
    (hv : g.Valid) (hsort : g.topologicalSort σ = .ok order)
    (hbound : g.MergedBound order inputs) (hD : sem.Means g inputs D) :
    sem.Means (g.optimizeCse σ).1 inputs D := by
  obtain ⟨s, ρ, h, hgraph, hrank, hperm, -⟩ := optimizeCse_spec hv hsort
  rw [hgraph]
  exact means_mapInputs hD (h.value hv.closed hperm hrank hbound hD)

theorem CseInv.first_id {s : CseState F} {ρ : String → String}
    (h : CseInv g order.idxOf order s ρ) (hperm : order.Perm g.ids) {n k : GraphNode F}
    (hn : n ∈ g.nodes) (hk : k ∈ g.nodes) (hkn : g.Congruent k.id n.id)
    (hfirst : ∀ j ∈ g.nodes, g.Congruent j.id n.id → order.idxOf k.id ≤ order.idxOf j.id) :
    ρ n.id = k.id := by
  have hnmem : n.id ∈ order := hperm.mem_iff.mpr (id_mem hn)
  have hkmem : k.id ∈ order := hperm.mem_iff.mpr (id_mem hk)
  obtain ⟨hρmem, -⟩ := h.earlier n.id hnmem
  obtain ⟨j, hj, hjid⟩ := mem_ids.mp (hperm.mem_iff.mp hρmem)
  have hle : order.idxOf k.id ≤ order.idxOf j.id := hfirst j hj (hjid ▸ h.congruent n.id)
  have hge := (h.earlier k.id hkmem).2
  rw [h.first_eq hkn hkmem hnmem] at hge
  rw [hjid] at hle
  exact (List.idxOf_inj hρmem).mp (Nat.le_antisymm hge hle)

/-- Every node reads the values that it read before. -/
def SameReads (g g' : ComputationGraph F) (D D' : String → Option V) : Prop :=
  ∀ node ∈ g.nodes, ∀ node', g'.get node.id = some node' →
    node'.inputs.map D' = node.inputs.map D

/-- The nodes read the same values after the pass exactly if the merged nodes agree. -/
theorem sameReads_optimizeCse_iff (sem : Semantics F V) {inputs : String → Option V}
    {σ : Shuffle} (hv : g.Valid) (hsort : g.topologicalSort σ = .ok order) :
    (∀ D D', sem.Means g inputs D → sem.Means (g.optimizeCse σ).1 inputs D' →
      SameReads g (g.optimizeCse σ).1 D D') ↔ g.MergedBound order inputs := by
  obtain ⟨s, ρ, h, hgraph, hrank, hperm, hclosed, hacyclic⟩ := optimizeCse_spec hv hsort
  rw [hgraph]
  constructor
  · intro hreads n hn hleaf hused k hk hkn hfirst
    obtain ⟨user, huser, hu⟩ := hused
    obtain ⟨D, hD⟩ := sem.exists_means hv.closed hv.acyclic inputs
    obtain ⟨D', hD'⟩ := sem.exists_means hclosed hacyclic inputs
    have hread := hreads D D' hD hD' user huser _ (get_mapInputs huser)
    rw [List.map_map] at hread
    have hval : D' (ρ n.id) = D n.id := List.map_inj_left.mp hread n.id hu
    have hkleaf : k.op.isLeaf = true := by rwa [hkn.op_eq hk hn]
    have hk' : D' k.id = inputs k.id :=
      (hD'.1 _ (mem_mapInputs.mpr ⟨k, hk, rfl⟩)).trans (sem.leaf hkleaf)
    rw [h.first_id hperm hn hk hkn hfirst, hk', hD.1 n hn, sem.leaf hleaf] at hval
    exact hval
  · intro hbound D D' hD hD' node hnode node' hget
    have hval := h.value hv.closed hperm hrank hbound hD
    rw [get_mapInputs hnode] at hget
    rw [← Option.some.inj hget, hD'.unique hclosed hacyclic (means_mapInputs hD hval),
      List.map_map]
    exact List.map_congr_left (fun u hu => hval u ⟨node, hnode, hu⟩)

end

/-! ## Runs before and after -/

/-- The values of the outputs after a run. -/
def outputValues [F32 S] [F64 F] [Casts S F] (g : ComputationGraph F) (σ : Shuffle)
    (inputs : Env S) : Except Fault (List (Option (NumTensor S))) := do
  let env ← g.execute σ inputs
  pure (g.outputs.map env)

variable [F32 S] [F64 F] [Casts S F] {inputs : Env S} {order : List String}

/-- If the merged nodes agree, the graph after the pass succeeds on the same inputs as the
one before, with the same values. -/
theorem execute_optimizeCse {σ : Shuffle} (hv : g.Valid)
    (hsort : g.topologicalSort σ = .ok order) (hbound : g.MergedBound order inputs)
    (σ₁ σ₂ : Shuffle) :
    ((g.optimizeCse σ).1.execute σ₁ inputs).toOption = (g.execute σ₂ inputs).toOption := by
  obtain ⟨s, ρ, -, hgraph, -, -, hclosed, hacyclic⟩ := optimizeCse_spec hv hsort
  obtain ⟨D, hD⟩ := numeric.exists_means hv.closed hv.acyclic inputs
  have hD' := means_optimizeCse hv hsort hbound hD
  rw [hgraph] at hD' ⊢
  refine Option.ext (fun env => ?_)
  rw [Dataflow.toOption_eq_some, Dataflow.toOption_eq_some,
    execute_eq_ok_iff hclosed hacyclic, execute_eq_ok_iff hv.closed hv.acyclic, ids_mapInputs]
  constructor
  · rintro ⟨henv, htotal⟩
    exact ⟨henv.unique hclosed hacyclic hD' ▸ hD, htotal⟩
  · rintro ⟨henv, htotal⟩
    exact ⟨henv.unique hv.closed hv.acyclic hD ▸ hD', htotal⟩

/-- **Common subexpressions.** If the used nodes that are merged with another are bound to
its tensor, a run of the optimized graph succeeds with the same values as one of the graph
before, in whichever orders the hash maps iterate; and exactly then does every node read
the tensors that it read before. -/
theorem outputValues_optimizeCse {σ₀ σ : Shuffle} (hvalid : g.validate σ₀ = .ok ())
    (hsort : g.topologicalSort σ = .ok order) : (g.MergedBound order inputs → ∀ σ₁ σ₂ : Shuffle,
      ((g.optimizeCse σ).1.outputValues σ₁ inputs).toOption = (g.outputValues σ₂ inputs).toOption) ∧
    ((∀ D D', numeric.Means g inputs D → numeric.Means (g.optimizeCse σ).1 inputs D' →
      SameReads g (g.optimizeCse σ).1 D D') ↔ g.MergedBound order inputs) := by
  have hv := (validate_eq_ok_iff σ₀).mp hvalid
  refine ⟨?_, sameReads_optimizeCse_iff numeric hv hsort⟩
  intro hbound σ₁ σ₂
  obtain ⟨s, ρ, -, hgraph, -⟩ := optimizeCse_spec hv hsort
  have houtputs : (g.optimizeCse σ).1.outputs = g.outputs := by
    rw [hgraph]
    rfl
  rw [outputValues, outputValues, toOption_bind, toOption_bind,
    execute_optimizeCse hv hsort hbound σ₁ σ₂, houtputs]

/-- Two `Input` nodes of one name, and their difference. -/
def twoOfOneName : ComputationGraph Int where
  nodes := [⟨"a", .input "x", [], none⟩, ⟨"b", .input "x", [], none⟩,
    ⟨"d", .sub, ["a", "b"], none⟩]
  distinct := by decide
  inputs := ["a", "b"]
  outputs := ["d"]

example : (twoOfOneName.optimizeCse inOrder).1.nodes.map GraphNode.inputs =
    [[], [], ["a", "a"]] := by decide

theorem outputValues_optimizeCse_sameTensor :
    ((twoOfOneName.optimizeCse inOrder).1.outputValues inOrder
        (fun _ => some (scalar 5))).toOption =
      (twoOfOneName.outputValues inOrder (fun _ => some (scalar 5))).toOption := by
  have hvalid : twoOfOneName.validate inOrder = .ok () := by decide
  have hsort : twoOfOneName.topologicalSort inOrder = .ok ["a", "b", "d"] := by decide
  exact (outputValues_optimizeCse hvalid hsort).1 (fun _ _ _ _ _ _ _ _ => rfl) inOrder inOrder

/-- Bound to different tensors, the difference becomes that of the first with itself. -/
theorem not_outputValues_optimizeCse :
    ¬ ∀ (g : ComputationGraph Int) (σ₀ σ σ₁ σ₂ : Shuffle) (inputs : Env Int),
      g.validate σ₀ = .ok () → ((g.optimizeCse σ).1.outputValues σ₁ inputs).toOption =
          (g.outputValues σ₂ inputs).toOption := by
  intro h
  have heq := h twoOfOneName inOrder inOrder inOrder inOrder
    (fun id => if id = "a" then some (scalar 5) else some (scalar 3)) (by decide)
  revert heq
  decide

/-- **The pass keeps graphs valid**, with their ids and outputs, for any orders of the maps. -/
theorem validate_optimizeCse {σ₀ : Shuffle} (hvalid : g.validate σ₀ = .ok ()) (σ σ₁ : Shuffle) :
    (g.optimizeCse σ).1.validate σ₁ = .ok () ∧ (g.optimizeCse σ).1.ids = g.ids
      ∧ (g.optimizeCse σ).1.outputs = g.outputs := by
  have hv := (validate_eq_ok_iff σ₀).mp hvalid
  obtain ⟨order, hsort⟩ := (topologicalSort_isOk_iff σ).mpr hv.acyclic
  obtain ⟨s, ρ, -, hgraph, -⟩ := optimizeCse_spec hv hsort
  refine ⟨(validate_eq_ok_iff σ₁).mpr (valid_optimizeCse σ hv), ?_, ?_⟩
  · rw [hgraph, ids_mapInputs]
  · rw [hgraph]
    rfl

theorem validate_optimizeCse_sameName :
    (twoOfOneName.optimizeCse inOrder).1.validate inOrder = .ok () :=
  (validate_optimizeCse (by decide : twoOfOneName.validate inOrder = .ok ()) _ _).1

end ComputationGraph

end Ipfrs.Compute
