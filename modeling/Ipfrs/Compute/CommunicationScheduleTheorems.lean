/-
Ipfrs.Compute.CommunicationScheduleTheorems — a schedule is complete and ordered.

The transfers of a schedule are the triples that an edge between two partitions makes, each
once. The queue loop is Kahn's algorithm with a level for each partition: a partition that was
taken from the queue is below all its consumers, and stays so, since whatever raises it later
would have to come before it. Without a cycle every partition is taken.
-/
import Ipfrs.Compute.CommunicationSchedule
import Ipfrs.Lib.Topo

namespace Ipfrs.Compute

open Ipfrs.Lib

/-! ## Transfers -/

/-- An edge from a node of one partition to a node of another: the source partition, the
destination partition and the source node. -/
def Makes (owner : Nat → Option Nat) (e : GraphEdge) (key : Nat × Nat × Nat) : Prop :=
  owner e.fromNode = some key.1 ∧ owner e.toNode = some key.2.1 ∧ key.1 ≠ key.2.1 ∧
    key.2.2 = e.fromNode

/-- The triples with a cross-partition edge. -/
def Crosses (owner : Nat → Option Nat) (edges : List GraphEdge) (key : Nat × Nat × Nat) : Prop :=
  ∃ e ∈ edges, Makes owner e key

theorem crosses_cons {owner : Nat → Option Nat} {e : GraphEdge} {edges : List GraphEdge}
    {key : Nat × Nat × Nat} :
    Crosses owner (e :: edges) key ↔ Makes owner e key ∨ Crosses owner edges key := by
  simp [Crosses]

/-- One round: an edge that makes no transfer changes nothing, another adds its transfer. -/
theorem collectEdge_cases (owner : Nat → Option Nat) (c : Collected) (e : GraphEdge) :
    ((∀ key, ¬ Makes owner e key) ∧ collectEdge owner c e = c) ∨
    ∃ f t, (∀ key, Makes owner e key ↔ key = (f, t, e.fromNode)) ∧
      collectEdge owner c e =
        { transferBytes := c.transferBytes.alter (f, t, e.fromNode)
            (fun old => max (old.getD 0) e.dataBytes)
          partEdges := c.partEdges.alter (f, t) (fun _ => ()) } := by
  unfold collectEdge
  cases hfrom : owner e.fromNode with
  | none => exact .inl ⟨fun key h => by simp [Makes, hfrom] at h, rfl⟩
  | some f =>
    cases hto : owner e.toNode with
    | none => exact .inl ⟨fun key h => by simp [Makes, hto] at h, rfl⟩
    | some t =>
      by_cases hne : f = t
      · refine .inl ⟨?_, by simp [hne]⟩
        rintro key ⟨hf, ht, hkey, -⟩
        rw [hfrom, Option.some.injEq] at hf
        rw [hto, Option.some.injEq] at ht
        exact hkey (by rw [← hf, ← ht, hne])
      · refine .inr ⟨f, t, ?_, by simp [hne]⟩
        rintro ⟨f', t', n⟩
        constructor
        · rintro ⟨hf, ht, -, hn⟩
          rw [hfrom, Option.some.injEq] at hf
          rw [hto, Option.some.injEq] at ht
          rw [hf, ht, ← hn]
        · intro heq
          cases heq
          exact ⟨hfrom, hto, hne, rfl⟩

theorem mem_keys_foldl_collectEdge (owner : Nat → Option Nat) :
    ∀ (edges : List GraphEdge) (c : Collected),
      (∀ key, key ∈ (edges.foldl (collectEdge owner) c).transferBytes.keys ↔
        Crosses owner edges key ∨ key ∈ c.transferBytes.keys) ∧
      ∀ f t, (f, t) ∈ (edges.foldl (collectEdge owner) c).partEdges.keys ↔
        (∃ n, Crosses owner edges (f, t, n)) ∨ (f, t) ∈ c.partEdges.keys
  | [], c => by simp [Crosses]
  | e :: edges, c => by
    obtain ⟨htransfers, hedges⟩ := mem_keys_foldl_collectEdge owner edges (collectEdge owner c e)
    rw [List.foldl_cons]
    simp only [crosses_cons, exists_or]
    rcases collectEdge_cases owner c e with ⟨hnone, hc⟩ | ⟨f, t, hmakes, hc⟩
    · rw [hc] at htransfers hedges ⊢
      simp [hnone, htransfers, hedges]
    · rw [hc] at htransfers hedges ⊢
      constructor
      · intro key
        rw [htransfers, EntryMap.mem_keys_alter, hmakes, or_assoc, or_left_comm]
      · intro f' t'
        have hedge : (∃ n, Makes owner e (f', t', n)) ↔ (f', t') = (f, t) := by
          simp only [hmakes, Prod.mk.injEq]
          exact ⟨fun ⟨_, hf, ht, _⟩ => ⟨hf, ht⟩, fun ⟨hf, ht⟩ => ⟨_, hf, ht, rfl⟩⟩
        rw [hedges, EntryMap.mem_keys_alter, hedge, or_assoc, or_left_comm]

/-- The collected transfers are those that some edge makes. -/
theorem mem_transfers {owner : Nat → Option Nat} {edges : List GraphEdge} {key : Nat × Nat × Nat} :
    key ∈ (collect owner edges).transferBytes.keys ↔ Crosses owner edges key := by
  rw [collect, (mem_keys_foldl_collectEdge owner edges _).1 key]
  simp [EntryMap.keys, EntryMap.empty]

theorem mem_partEdges {owner : Nat → Option Nat} {edges : List GraphEdge} {f t : Nat} :
    (f, t) ∈ (collect owner edges).partEdges.keys ↔ ∃ n, Crosses owner edges (f, t, n) := by
  rw [collect, (mem_keys_foldl_collectEdge owner edges _).2 f t]
  simp [EntryMap.keys, EntryMap.empty]

/-! ## The partition graph -/

/-- The partitions that a partition needs, and those that need it. -/
def producers (partEdges : List (Nat × Nat)) (v : Nat) : List Nat :=
  (partEdges.filter (fun e => e.2 = v)).map Prod.fst

def consumers (partEdges : List (Nat × Nat)) (u : Nat) : List Nat :=
  (partEdges.filter (fun e => e.1 = u)).map Prod.snd

theorem mem_producers {partEdges : List (Nat × Nat)} {u v : Nat} :
    u ∈ producers partEdges v ↔ (u, v) ∈ partEdges := by
  simp [producers]

theorem mem_consumers {partEdges : List (Nat × Nat)} {u v : Nat} :
    v ∈ consumers partEdges u ↔ (u, v) ∈ partEdges := by
  simp [consumers]

namespace PartitionMaps

theorem foldl_addEdge (partEdges : List (Nat × Nat)) (m : PartitionMaps) (v : Nat) :
    (((partEdges.foldl addEdge m).indeg.get? v).getD 0
      = (m.indeg.get? v).getD 0 + (producers partEdges v).length) ∧
    (((partEdges.foldl addEdge m).adj.get? v).getD []
      = (m.adj.get? v).getD [] ++ consumers partEdges v) ∧
    (v ∈ (partEdges.foldl addEdge m).indeg.keys ↔
      (∃ e ∈ partEdges, v = e.1 ∨ v = e.2) ∨ v ∈ m.indeg.keys) := by
  induction partEdges generalizing m with
  | nil => simp [producers, consumers]
  | cons e partEdges ih =>
    obtain ⟨hindeg, hadj, hkeys⟩ := ih (m.addEdge e)
    rw [List.foldl_cons]
    refine ⟨?_, ?_, ?_⟩
    · have hstep : ((m.addEdge e).indeg.get? v).getD 0
          = (m.indeg.get? v).getD 0 + if e.2 = v then 1 else 0 := by
        simp only [addEdge, EntryMap.get?_alter]
        by_cases h1 : v = e.1 <;> by_cases h2 : v = e.2 <;> simp_all [eq_comm]
      rw [hindeg, hstep]
      by_cases h2 : e.2 = v
      · simp [producers, h2]
        omega
      · simp [producers, h2]
    · have hstep : ((m.addEdge e).adj.get? v).getD []
          = (m.adj.get? v).getD [] ++ if e.1 = v then [e.2] else [] := by
        simp only [addEdge, EntryMap.get?_alter]
        by_cases h1 : v = e.1 <;> by_cases h2 : v = e.2 <;> simp_all [eq_comm]
      rw [hadj, hstep]
      by_cases h1 : e.1 = v
      · simp [consumers, h1]
      · simp [consumers, h1]
    · rw [hkeys, addEdge]
      simp only [EntryMap.mem_keys_alter, List.mem_cons, exists_eq_or_imp]
      constructor
      · rintro (h | h | h | h)
        · exact .inl (.inr h)
        · exact .inl (.inl (.inl h))
        · exact .inl (.inl (.inr h))
        · exact .inr h
      · rintro ((h | h) | h)
        · rcases h with h | h
          · exact .inr (.inl h)
          · exact .inr (.inr (.inl h))
        · exact .inl h
        · exact .inr (.inr (.inr h))

/-- The partitions start without producers and consumers. -/
theorem foldl_addPartition (partitions : List Partition) (m : PartitionMaps) (v : Nat)
    (hindeg : (m.indeg.get? v).getD 0 = 0) (hadj : (m.adj.get? v).getD [] = []) :
    (((partitions.foldl addPartition m).indeg.get? v).getD 0 = 0) ∧
    ((partitions.foldl addPartition m).adj.get? v).getD [] = [] := by
  induction partitions generalizing m with
  | nil => exact ⟨hindeg, hadj⟩
  | cons p partitions ih =>
    rw [List.foldl_cons]
    refine ih (m.addPartition p) ?_ ?_
    · rw [addPartition, EntryMap.get?_alter]
      split
      · next hv =>
        subst hv
        exact hindeg
      · exact hindeg
    · rw [addPartition, EntryMap.get?_alter]
      split
      · next hv =>
        subst hv
        exact hadj
      · exact hadj

variable (partitions : List Partition) (partEdges : List (Nat × Nat))

theorem build_spec (v : Nat) :
    (((build partitions partEdges).indeg.get? v).getD 0 = (producers partEdges v).length) ∧
    (((build partitions partEdges).adj.get? v).getD [] = consumers partEdges v) ∧
    ((∃ e ∈ partEdges, v = e.1 ∨ v = e.2) → v ∈ (build partitions partEdges).indeg.keys) := by
  obtain ⟨hindeg₀, hadj₀⟩ := foldl_addPartition partitions { indeg := .empty, adj := .empty } v
    rfl rfl
  obtain ⟨hindeg, hadj, hkeys⟩ := foldl_addEdge partEdges
    (partitions.foldl addPartition { indeg := .empty, adj := .empty }) v
  refine ⟨?_, ?_, fun h => hkeys.mpr (.inl h)⟩
  · rw [build, hindeg, hindeg₀, Nat.zero_add]
  · rw [build, hadj, hadj₀, List.nil_append]

theorem get?_indeg {v : Nat} : (build partitions partEdges).indeg.get? v
      = if v ∈ (build partitions partEdges).indeg.keys then some (producers partEdges v).length
        else none := by
  have hdegree := (build_spec partitions partEdges v).1
  split
  · next hv =>
    obtain ⟨d, hd⟩ := Option.isSome_iff_exists.mp (EntryMap.isSome_get?.mpr hv)
    rw [hd] at hdegree ⊢
    exact congrArg some hdegree
  · next hv => exact EntryMap.get?_of_not_mem hv

theorem links : Topo.Links (build partitions partEdges).indeg.keys (producers partEdges)
    (consumers partEdges) where
  nodup := (build partitions partEdges).indeg.nodup
  closed v _ u hu :=
    (build_spec partitions partEdges u).2.2 ⟨_, mem_producers.mp hu, .inl rfl⟩
  succ_mem u v hv :=
    (build_spec partitions partEdges v).2.2 ⟨_, mem_consumers.mp hv, .inr rfl⟩
  count_eq u v _ := by
    simp only [consumers, producers, List.count_eq_countP, List.countP_map, List.countP_filter]
    refine List.countP_congr (fun e _ => ?_)
    simp [and_comm]

end PartitionMaps

/-! ## The queue loop -/

/-- The level of a partition, 0 if it has none. -/
def LevelState.levelOf (l : LevelState) (v : Nat) : Nat := (l.level.get? v).getD 0

/-- The counts and the queue of the algorithm, in the maps of the loop. -/
structure Counts (nodes : List Nat) (l : LevelState) (inDegree : Nat → Nat)
    (queue : List Nat) : Prop where
  indeg : ∀ v, l.workingIndeg.get? v = if v ∈ nodes then some (inDegree v) else none
  queue : l.queue = queue
  known : ∀ v ∈ nodes, (l.level.get? v).isSome = true

section

variable {nodes : List Nat} {l : LevelState}

/-- One neighbour. -/
theorem relax_counts {inDegree : Nat → Nat} {queue : List Nat} (h : Counts nodes l inDegree queue)
    (lu : Nat) {v : Nat} (hv : v ∈ nodes) (hpos : 0 < inDegree v) : ∃ l', relax lu l v = some l' ∧
      Counts nodes l' (Function.update inDegree v (inDegree v - 1))
        (if inDegree v - 1 = 0 then queue ++ [v] else queue) ∧ l'.processed = l.processed ∧
      ∀ w, l'.levelOf w = if w = v then max (l.levelOf v) (lu + 1) else l.levelOf w := by
  obtain ⟨d, hd⟩ : ∃ d, inDegree v = d + 1 := ⟨inDegree v - 1, by omega⟩
  have hget : l.workingIndeg.get? v = some (d + 1) := by rw [h.indeg, if_pos hv, hd]
  rw [relax]
  simp only [hget]
  refine ⟨_, rfl, ⟨?_, ?_, ?_⟩, rfl, ?_⟩
  · intro w
    rw [EntryMap.get?_alter]
    by_cases hw : w = v
    · subst hw
      rw [if_pos rfl, if_pos hv, Function.update_self, hd, Nat.add_sub_cancel]
    · rw [if_neg hw, h.indeg, Function.update_of_ne hw]
  · rw [hd, Nat.add_sub_cancel, h.queue]
  · intro w hw
    rw [EntryMap.get?_alter]
    split
    · rfl
    · exact h.known w hw
  · intro w
    simp only [LevelState.levelOf, EntryMap.get?_alter]
    split
    · rfl
    · rfl

/-- The neighbours of a partition at level `lu`, each raised above it. -/
theorem foldlM_relax (lu : Nat) :
    ∀ {ns : List Nat} {l : LevelState} {s : (Nat → Nat) × List Nat},
      (∀ n ∈ ns, n ∈ nodes) → Counts nodes l s.1 s.2 → (∀ v, ns.count v ≤ s.1 v) →
      ∃ l', ns.foldlM (relax lu) l = some l' ∧
        Counts nodes l' (Topo.release ns s).1 (Topo.release ns s).2 ∧
        l'.processed = l.processed ∧
        ∀ w, l'.levelOf w = if w ∈ ns then max (l.levelOf w) (lu + 1) else l.levelOf w
  | [], l, s, _, h, _ => ⟨l, rfl, h, rfl, fun w => by simp⟩
  | n :: ns, l, s, hns, h, hcount => by
    obtain ⟨hn, hrest⟩ := List.forall_mem_cons.mp hns
    have hpos := hcount n
    rw [List.count_cons_self] at hpos
    obtain ⟨l₁, hrelax, hcounts, hprocessed, hlevel⟩ := relax_counts h lu hn (by omega)
    have hcount₁ : ∀ v, ns.count v ≤ Function.update s.1 n (s.1 n - 1) v := by
      intro v
      have hv := hcount v
      by_cases hvn : v = n
      · subst hvn
        rw [Function.update_self]
        omega
      · rw [List.count_cons_of_ne (Ne.symm hvn)] at hv
        rwa [Function.update_of_ne hvn]
    obtain ⟨l', hfold, hcounts', hprocessed', hlevel'⟩ :=
      foldlM_relax lu (s := (_, _)) hrest hcounts hcount₁
    refine ⟨l', ?_, hcounts', hprocessed'.trans hprocessed, ?_⟩
    · rw [List.foldlM_cons, hrelax]
      exact hfold
    · intro w
      rw [hlevel', hlevel]
      by_cases hwn : w = n
      · subst hwn
        simp
      · simp [hwn]

variable {needs succs : Nat → List Nat}

/-- The state of the loop for a state of the algorithm: what was taken from the queue is below
its consumers. -/
structure Tracks (nodes : List Nat) (succs : Nat → List Nat) (l : LevelState)
    (s : Topo.State Nat) : Prop where
  counts : Counts nodes l s.inDegree s.queue
  processed : l.processed = s.listed.length
  above : ∀ u ∈ s.listed, ∀ v ∈ succs u, l.levelOf u < l.levelOf v

variable {adj : EntryMap Nat (List Nat)}

/-- What was taken before, or is taken now, is no consumer of what is taken now: it would have
come later. -/
theorem not_mem_succs (hL : Topo.Links nodes needs succs) {s : Topo.State Nat}
    (hinv : Topo.Inv nodes needs s) {u : Nat} {queue : List Nat} (hqueue : s.queue = u :: queue)
    {w : Nat} (hw : w ∈ s.listed ++ [u]) : w ∉ succs u := by
  intro hwu
  have hmem : w ∈ s.listed ++ s.queue := by
    rw [hqueue]
    rcases List.mem_append.mp hw with hw | hw
    · exact List.mem_append_left _ hw
    · exact List.mem_append_right _ (List.mem_singleton.mp hw ▸ List.mem_cons_self)
  have hwn : w ∈ nodes := hinv.subset w hmem
  have hopen := hinv.count w hwn
  rw [hinv.zero w hmem, eq_comm, List.countP_eq_zero] at hopen
  have hneed : u ∈ needs w := by
    rw [← List.count_pos_iff, ← hL.count_eq u w hwn, List.count_pos_iff]
    exact hwu
  have hlisted : u ∈ s.listed := by simpa using hopen u hneed
  have hnodup := hinv.nodup
  rw [hqueue] at hnodup
  exact (List.nodup_append.mp hnodup).2.2 u hlisted u List.mem_cons_self rfl

/-- One round. -/
theorem Tracks.round (hL : Topo.Links nodes needs succs)
    (hadj : ∀ u, (adj.get? u).getD [] = succs u) {s : Topo.State Nat}
    (hinv : Topo.Inv nodes needs s) (h : Tracks nodes succs l s) {u : Nat} {queue : List Nat}
    (hqueue : s.queue = u :: queue) :
    ∃ l', levelBody adj l = .inl l' ∧
      Tracks nodes succs l'
        { inDegree := (Topo.release (succs u) (s.inDegree, queue)).1
          queue := (Topo.release (succs u) (s.inDegree, queue)).2
          listed := s.listed ++ [u] } := by
  have hu : u ∈ nodes := hinv.subset u (by simp [hqueue])
  obtain ⟨lu, hlu⟩ := Option.isSome_iff_exists.mp (h.counts.known u hu)
  have hlevelu : l.levelOf u = lu := by rw [LevelState.levelOf, hlu, Option.getD_some]
  have hcounts : Counts nodes { l with queue, processed := l.processed + 1 } s.inDegree queue :=
    { h.counts with queue := rfl }
  obtain ⟨l', hfold, hcounts', hprocessed, hlevel⟩ :=
    foldlM_relax lu (s := (s.inDegree, queue)) (hL.succ_mem u) hcounts (hinv.count_le hL hqueue)
  refine ⟨l', ?_, hcounts', ?_, ?_⟩
  · rw [levelBody, h.counts.queue, hqueue]
    simp only [hlu, hadj, hfold]
  · rw [hprocessed, h.processed, List.length_append, List.length_singleton]
  · intro w hw v hv
    rw [hlevel w, if_neg (not_mem_succs hL hinv hqueue hw), hlevel v]
    change l.levelOf w < if v ∈ succs u then max (l.levelOf v) (lu + 1) else l.levelOf v
    rcases List.mem_append.mp hw with hw | hw
    · have hwv := h.above w hw v hv
      split
      · exact Nat.lt_of_lt_of_le hwv (Nat.le_max_left _ _)
      · exact hwv
    · rw [List.mem_singleton] at hw
      subst hw
      rw [if_pos hv, hlevelu]
      exact Nat.lt_of_lt_of_le (Nat.lt_succ_self lu) (Nat.le_max_right _ _)

/-- The loop ends without a panic, in the state of the algorithm. -/
theorem run_levelBody (hL : Topo.Links nodes needs succs)
    (hadj : ∀ u, (adj.get? u).getD [] = succs u) :
    ∀ {n : Nat} {l : LevelState} {s : Topo.State Nat}, Topo.Inv nodes needs s →
      Tracks nodes succs l s → nodes.length ≤ n + s.listed.length →
      ∃ l', Loop.run (levelBody adj) (n + 1) l = some (some l') ∧
        Tracks nodes succs l' (Topo.kahn succs n s)
  | 0, l, s, hinv, h, hlen => by
    have hqueue : s.queue = [] := hinv.queue_eq_nil (by omega)
    have hleave : levelBody adj l = .inr (some l) := by
      rw [levelBody, h.counts.queue, hqueue]
    exact ⟨l, Loop.run_leave hleave 0, h⟩
  | n + 1, l, s, hinv, h, hlen => by
    rw [Topo.kahn]
    cases hqueue : s.queue with
    | nil =>
      have hleave : levelBody adj l = .inr (some l) := by
        rw [levelBody, h.counts.queue, hqueue]
      exact ⟨l, Loop.run_leave hleave _, h⟩
    | cons u queue =>
      obtain ⟨l₁, hagain, h₁⟩ := h.round hL hadj hinv hqueue
      rw [Loop.run_again hagain]
      refine run_levelBody hL hadj (hinv.round hL hqueue) h₁ ?_
      simp only [List.length_append, List.length_singleton]
      omega

end

/-! ## Layers -/

theorem isSome_foldl_zero (keys : List Nat) :
    ∀ v ∈ keys, ((keys.foldl (fun level p => level.alter p (fun _ => 0))
      (EntryMap.empty : EntryMap Nat Nat)).get? v).isSome = true := by
  intro v hv
  rw [EntryMap.isSome_get?, EntryMap.mem_keys_foldl_alter]
  exact .inl (by simpa using hv)

section

variable (orders : ScheduleOrders) (partitions : List Partition) (partEdges : List (Nat × Nat))

/-- The queue at the start: the partitions without producers. -/
theorem start_queue :
    ((orders.partitions (PartitionMaps.build partitions partEdges).indeg.entries).filter
        (fun e => e.2 = 0)).map Prod.fst
      = ((orders.partitions (PartitionMaps.build partitions partEdges).indeg.entries).map
          Prod.fst).filter (fun v => (producers partEdges v).length = 0) := by
  rw [List.filter_map]
  refine congrArg (List.map Prod.fst) (List.filter_congr (fun e he => ?_))
  have hmem := (orders.partitions_perm _).mem_iff.mp he
  have hdegree := PartitionMaps.build_spec partitions partEdges e.1
  rw [EntryMap.get?_of_mem hmem, Option.getD_some] at hdegree
  rw [Function.comp_apply, ← hdegree.1]

/-- **The layering**: it is computed without a panic, and without a cycle every edge leads to a
higher level. -/
theorem levels_spec :
    ∃ level, levels orders (PartitionMaps.build partitions partEdges) = some level ∧
      (Topo.NoCycle (producers partEdges) → ∀ e ∈ partEdges,
        (level.get? e.1).getD 0 < (level.get? e.2).getD 0) := by
  have hL := PartitionMaps.links partitions partEdges
  have hseeds : ((orders.partitions
      (PartitionMaps.build partitions partEdges).indeg.entries).map Prod.fst).Perm
      (PartitionMaps.build partitions partEdges).indeg.keys :=
    (orders.partitions_perm _).map Prod.fst
  have hsize : (PartitionMaps.build partitions partEdges).indeg.size
      = (PartitionMaps.build partitions partEdges).indeg.keys.length := (List.length_map _).symm
  have hinit := Topo.Inv.init hL hseeds
  have htracks : Tracks (PartitionMaps.build partitions partEdges).indeg.keys
      (consumers partEdges)
      { level := (PartitionMaps.build partitions partEdges).indeg.keys.foldl
          (fun level p => level.alter p (fun _ => 0)) .empty
        workingIndeg := (PartitionMaps.build partitions partEdges).indeg
        queue := ((orders.partitions
          (PartitionMaps.build partitions partEdges).indeg.entries).filter
            (fun e => e.2 = 0)).map Prod.fst
        processed := 0 }
      { inDegree := fun v => (producers partEdges v).length
        queue := ((orders.partitions
          (PartitionMaps.build partitions partEdges).indeg.entries).map Prod.fst).filter
            (fun v => (producers partEdges v).length = 0)
        listed := [] } :=
    { counts :=
        { indeg := fun v => PartitionMaps.get?_indeg partitions partEdges
          queue := start_queue orders partitions partEdges
          known := isSome_foldl_zero _ }
      processed := rfl
      above := fun u hu => absurd hu List.not_mem_nil }
  obtain ⟨l', hrun, h'⟩ := run_levelBody hL
    (fun u => (PartitionMaps.build_spec partitions partEdges u).2.1) hinit htracks
    (Nat.le_add_right _ _)
  refine ⟨cycleFallback l' (PartitionMaps.build partitions partEdges).indeg.size, ?_, ?_⟩
  · rw [levels, hsize]
    simp only [hrun]
  · intro hcycle e he
    obtain ⟨rank, hrank⟩ := hcycle.ranks hL.closed
    have hall := Topo.sort_complete hL hseeds hrank
    have hperm := (Topo.sort_sorted hL hseeds hall).1
    rw [Topo.sort, hseeds.length_eq] at hall hperm
    rw [cycleFallback, h'.processed, if_neg (by rw [hall, hsize]; omega)]
    have hfrom := (PartitionMaps.build_spec partitions partEdges e.1).2.2 ⟨e, he, .inl rfl⟩
    exact h'.above e.1 (hperm.mem_iff.mpr hfrom) e.2 (mem_consumers.mpr he)

end

/-! ## Stages -/

/-- The transfer of an entry. -/
def transferOf (e : (Nat × Nat × Nat) × Nat) : DataTransfer :=
  { fromPartition := e.1.1, toPartition := e.1.2.1, nodeId := e.1.2.2, dataBytes := e.2 }

/-- The level of a transfer's source partition. -/
def stageOf (level : EntryMap Nat Nat) (t : DataTransfer) : Nat :=
  (level.get? t.fromPartition).getD 0

theorem foldl_addTransfer (level : EntryMap Nat Nat) (l : List ((Nat × Nat × Nat) × Nat)) :
    (l.foldl (addTransfer level) (0, .empty)).2
      = EntryMap.group (stageOf level) (l.map transferOf) := by
  have hfold : ∀ (l : List ((Nat × Nat × Nat) × Nat)) (s : Nat × EntryMap Nat (List DataTransfer)),
      (l.foldl (addTransfer level) s).2
        = (l.map transferOf).foldl (fun m t => m.alter (stageOf level t)
            (fun old => old.getD [] ++ [t])) s.2 := by
    intro l
    induction l with
    | nil => intro s; rfl
    | cons e l ih =>
      intro s
      rw [List.foldl_cons, ih]
      rfl
  exact hfold l _

/-- The stages of a schedule: the transfers of each level, the lower levels first. -/
def stagesOf (level : EntryMap Nat Nat) (transfers : List DataTransfer) :
    List CommunicationStage :=
  ((EntryMap.group (stageOf level) transfers).keys.insertionSort (· ≤ ·)).mapIdx
    (fun newId oldId => { stageId := newId,
                          transfers := sortTransfers
                            (((EntryMap.group (stageOf level) transfers).get? oldId).getD []) })

section

variable {level : EntryMap Nat Nat} {transfers : List DataTransfer}

/-- A stage is the transfers of one level. -/
theorem mem_stagesOf {stage : CommunicationStage} (h : stage ∈ stagesOf level transfers) :
    ∃ old, ((EntryMap.group (stageOf level) transfers).keys.insertionSort (· ≤ ·))[stage.stageId]?
        = some old ∧ ∀ t ∈ stage.transfers, t ∈ transfers ∧ stageOf level t = old := by
  obtain ⟨i, hi, rfl⟩ := List.mem_mapIdx.mp h
  refine ⟨_, List.getElem?_eq_getElem hi, fun t ht => ?_⟩
  have hmem := (List.perm_insertionSort _ _).mem_iff.mp ht
  rw [EntryMap.getD_get?_group, List.mem_filter] at hmem
  exact ⟨hmem.1, of_decide_eq_true hmem.2⟩

/-- A transfer of a lower level is in an earlier stage. -/
theorem stageId_lt {s s' : CommunicationStage} (hs : s ∈ stagesOf level transfers)
    (hs' : s' ∈ stagesOf level transfers) {x y : DataTransfer} (hx : x ∈ s.transfers)
    (hy : y ∈ s'.transfers) (hlt : stageOf level x < stageOf level y) : s.stageId < s'.stageId := by
  obtain ⟨old, hold, hall⟩ := mem_stagesOf hs
  obtain ⟨old', hold', hall'⟩ := mem_stagesOf hs'
  rw [(hall x hx).2, (hall' y hy).2] at hlt
  by_contra hge
  obtain ⟨hi, rfl⟩ := List.getElem?_eq_some_iff.mp hold
  obtain ⟨hi', rfl⟩ := List.getElem?_eq_some_iff.mp hold'
  have hsorted := List.pairwise_insertionSort (· ≤ ·)
    (EntryMap.group (stageOf level) transfers).keys
  rcases Nat.eq_or_lt_of_le (Nat.not_lt.mp hge) with heq | hlt'
  · simp only [heq] at hlt
    exact Nat.lt_irrefl _ hlt
  · exact absurd (List.pairwise_iff_getElem.mp hsorted _ _ hi' hi hlt') (Nat.not_le.mpr hlt)

/-- The stages hold the transfers, each where it belongs. -/
theorem perm_stagesOf :
    ((stagesOf level transfers).flatMap CommunicationStage.transfers).Perm transfers := by
  have hids := List.perm_insertionSort (· ≤ ·) (EntryMap.group (stageOf level) transfers).keys
  have hmap : (stagesOf level transfers).map CommunicationStage.transfers
      = ((EntryMap.group (stageOf level) transfers).keys.insertionSort (· ≤ ·)).map
          (fun old => sortTransfers (transfers.filter (fun t => stageOf level t = old))) := by
    refine List.ext_getElem (by simp [stagesOf]) (fun i h h' => ?_)
    simp [stagesOf, EntryMap.getD_get?_group]
  rw [List.flatMap_def, hmap, ← List.flatMap_def]
  refine (List.Perm.flatMap_left _ (fun old _ => List.perm_insertionSort _ _)).trans ?_
  refine EntryMap.perm_filters (hids.nodup_iff.mpr (EntryMap.nodup_keys _)) (fun t ht => ?_)
  rw [hids.mem_iff, EntryMap.mem_keys_group]
  exact List.mem_map_of_mem ht

theorem stageIds_stagesOf : (stagesOf level transfers).map CommunicationStage.stageId
      = List.range (stagesOf level transfers).length := by
  refine List.ext_getElem (by simp) (fun i h h' => ?_)
  simp [stagesOf]

end

/-! ## The schedule -/

section

variable (orders : ScheduleOrders) (partitions : List Partition) (edges : List GraphEdge)

/-- The edges of the partition graph, and the transfers, in the order of their iteration. -/
def partEdgesOf : List (Nat × Nat) :=
  orders.edges (collect (nodeToPartition partitions) edges).partEdges.keys

def transfersOf : List DataTransfer :=
  (orders.transfers (collect (nodeToPartition partitions) edges).transferBytes.entries).map
    transferOf

theorem buildCommunicationSchedule_eq {level : EntryMap Nat Nat}
    (h : levels orders (PartitionMaps.build partitions (partEdgesOf orders partitions edges))
      = some level) : ∃ totalBytes, buildCommunicationSchedule orders partitions edges
      = some { stages := stagesOf level (transfersOf orders partitions edges), totalBytes } := by
  refine ⟨((orders.transfers
    (collect (nodeToPartition partitions) edges).transferBytes.entries).foldl
      (addTransfer level) (0, .empty)).1, ?_⟩
  unfold partEdgesOf at h
  rw [buildCommunicationSchedule]
  simp only [h, foldl_addTransfer]
  rfl

/-- The keys of the transfers are those of the collected map, each once. -/
theorem perm_keys_transfersOf : ((transfersOf orders partitions edges).map DataTransfer.key).Perm
      (collect (nodeToPartition partitions) edges).transferBytes.keys := by
  rw [transfersOf, List.map_map]
  exact (orders.transfers_perm _).map Prod.fst

/-- The partition graph: an edge for each two partitions with a cross-partition edge. -/
def PartitionEdge (f t : Nat) : Prop := ∃ n, Crosses (nodeToPartition partitions) edges (f, t, n)

theorem mem_partEdgesOf {f t : Nat} :
    (f, t) ∈ partEdgesOf orders partitions edges ↔ PartitionEdge partitions edges f t := by
  rw [partEdgesOf, (orders.edges_perm _).mem_iff]
  exact mem_partEdges

theorem noCycle_producers (h : ∀ p, ¬ Relation.TransGen (PartitionEdge partitions edges) p p) :
    Topo.NoCycle (producers (partEdgesOf orders partitions edges)) := fun p hp =>
  h p (Relation.TransGen.mono (fun _ _ huv =>
    (mem_partEdgesOf orders partitions edges).mp (mem_producers.mp huv)) _ _ hp)

end

/-- **A schedule is complete and ordered.** Each triple with a cross-partition edge is in one
transfer, and no other triple in any; the stages are numbered as they come; and if the partition
graph has no cycle, each transfer into a partition is in an earlier stage than each transfer
out of it. -/
theorem buildCommunicationSchedule_spec (orders : ScheduleOrders) (partitions : List Partition)
    (edges : List GraphEdge) :
    ∃ schedule, buildCommunicationSchedule orders partitions edges = some schedule ∧
      (∀ key, Crosses (nodeToPartition partitions) edges key →
        ((schedule.stages.flatMap CommunicationStage.transfers).map DataTransfer.key).count key
          = 1) ∧ (∀ key, ¬ Crosses (nodeToPartition partitions) edges key →
        ((schedule.stages.flatMap CommunicationStage.transfers).map DataTransfer.key).count key
          = 0) ∧
      schedule.stages.map CommunicationStage.stageId = List.range schedule.stages.length ∧
      ((∀ p, ¬ Relation.TransGen (PartitionEdge partitions edges) p p) →
        ∀ s ∈ schedule.stages, ∀ s' ∈ schedule.stages, ∀ x ∈ s.transfers, ∀ y ∈ s'.transfers,
          x.toPartition = y.fromPartition → s.stageId < s'.stageId) := by
  obtain ⟨level, hlevels, hlevel⟩ := levels_spec orders partitions
    (partEdgesOf orders partitions edges)
  obtain ⟨totalBytes, hbuild⟩ := buildCommunicationSchedule_eq orders partitions edges hlevels
  have hkeys : (((stagesOf level (transfersOf orders partitions edges)).flatMap
      CommunicationStage.transfers).map DataTransfer.key).Perm
      (collect (nodeToPartition partitions) edges).transferBytes.keys :=
    (perm_stagesOf.map DataTransfer.key).trans (perm_keys_transfersOf orders partitions edges)
  refine ⟨_, hbuild, ?_, ?_, stageIds_stagesOf, ?_⟩
  · intro key hkey
    rw [hkeys.count_eq, (EntryMap.nodup_keys _).count, if_pos (mem_transfers.mpr hkey)]
  · intro key hkey
    rw [hkeys.count_eq, List.count_eq_zero]
    exact fun h => hkey (mem_transfers.mp h)
  · intro hacyclic s hs s' hs' x hx y hy hxy
    obtain ⟨old, -, hall⟩ := mem_stagesOf hs
    have hmem : x.key ∈ (collect (nodeToPartition partitions) edges).transferBytes.keys :=
      (perm_keys_transfersOf orders partitions edges).mem_iff.mp
        (List.mem_map_of_mem (hall x hx).1)
    have hlt := hlevel (noCycle_producers orders partitions edges hacyclic)
      (x.fromPartition, x.toPartition)
      ((mem_partEdgesOf orders partitions edges).mpr ⟨x.nodeId, mem_transfers.mp hmem⟩)
    refine stageId_lt hs hs' hx hy ?_
    rw [stageOf, stageOf, ← hxy]
    exact hlt

/-- Four partitions of a node each, the first needed by two that the last one needs. -/
def diamond : List Partition := [⟨0, [10]⟩, ⟨1, [11]⟩, ⟨2, [12]⟩, ⟨3, [13]⟩]

def diamondEdges : List GraphEdge := [⟨10, 11, 8⟩, ⟨10, 12, 8⟩, ⟨11, 13, 4⟩, ⟨12, 13, 4⟩]

theorem partitionEdge_diamond {f t : Nat} (h : PartitionEdge diamond diamondEdges f t) : f < t := by
  obtain ⟨n, e, he, hf, ht, -, -⟩ := h
  have hall : diamondEdges.all (fun e => decide (∀ f ∈ nodeToPartition diamond e.fromNode,
      ∀ t ∈ nodeToPartition diamond e.toNode, f < t)) = true := by decide
  have hlt := of_decide_eq_true (List.all_eq_true.mp hall e he)
  exact hlt f hf t ht

theorem buildCommunicationSchedule_diamond : ∃ schedule, buildCommunicationSchedule
        ⟨id, fun _ => .refl _, id, fun _ => .refl _, id, fun _ => .refl _⟩ diamond diamondEdges
        = some schedule ∧
      ∀ s ∈ schedule.stages, ∀ s' ∈ schedule.stages, ∀ x ∈ s.transfers, ∀ y ∈ s'.transfers,
        x.toPartition = y.fromPartition → s.stageId < s'.stageId := by
  obtain ⟨schedule, hbuild, -, -, -, hordered⟩ := buildCommunicationSchedule_spec
    ⟨id, fun _ => .refl _, id, fun _ => .refl _, id, fun _ => .refl _⟩ diamond diamondEdges
  have hlt : ∀ {f t}, Relation.TransGen (PartitionEdge diamond diamondEdges) f t → f < t := by
    intro f t h
    induction h with
    | single h => exact partitionEdge_diamond h
    | tail _ h ih => exact Nat.lt_trans ih (partitionEdge_diamond h)
  exact ⟨schedule, hbuild, hordered (fun p h => Nat.lt_irrefl p (hlt h))⟩

end Ipfrs.Compute
