/-
Ipfrs.Lib.Topo — sorting the nodes of a directed graph.

A list is `Sorted` when each node comes after what it needs, and a graph can be sorted
when some rank falls along the needs (`Ranks`), which is so if it has no cycle
(`NoCycle.ranks`). `kahn` sorts with a count of open needs
for each node and a queue of the nodes whose count is 0; it is given a number of rounds,
and the number of nodes is enough. What it lists is sorted (`sort_sorted`), and it lists
every node when the graph has a rank (`sort_complete`), whatever the order of the queue at
the start.
-/
import Mathlib.Data.List.Nodup
import Mathlib.Data.List.Count
import Mathlib.Logic.Relation

namespace Ipfrs.Lib.Topo

variable {α : Type}

/-- Each node of the list comes after what it needs, given the nodes `done` before. -/
def Sorted (needs : α → List α) : List α → List α → Prop
  | _, [] => True
  | done, v :: rest => (∀ u ∈ needs v, u ∈ done) ∧ Sorted needs (v :: done) rest

/-- A rank that falls along the needs of the nodes of a list. -/
def Ranks (needs : α → List α) (nodes : List α) (rank : α → Nat) : Prop :=
  ∀ v ∈ nodes, ∀ u ∈ needs v, rank u < rank v

variable {needs : α → List α}

theorem Sorted.mono {done done' l : List α} (h : Sorted needs done l)
    (hsub : ∀ u ∈ done, u ∈ done') : Sorted needs done' l := by
  induction l generalizing done done' with
  | nil => trivial
  | cons v rest ih =>
    refine ⟨fun u hu => hsub u (h.1 u hu), ih h.2 ?_⟩
    intro u hu
    rcases List.mem_cons.mp hu with rfl | hu
    · exact List.mem_cons_self
    · exact List.mem_cons_of_mem _ (hsub u hu)

/-- A node whose needs are met can come last. -/
theorem Sorted.snoc {done l : List α} {v : α} (h : Sorted needs done l)
    (hv : ∀ u ∈ needs v, u ∈ done ∨ u ∈ l) : Sorted needs done (l ++ [v]) := by
  induction l generalizing done with
  | nil => exact ⟨fun u hu => (hv u hu).resolve_right List.not_mem_nil, trivial⟩
  | cons w rest ih =>
    refine ⟨h.1, ih h.2 ?_⟩
    intro u hu
    rcases hv u hu with hdone | hl
    · exact .inl (List.mem_cons_of_mem _ hdone)
    · rcases List.mem_cons.mp hl with rfl | hrest
      · exact .inl List.mem_cons_self
      · exact .inr hrest

/-- The needs of a node in a sorted list come before it. -/
theorem Sorted.needs_mem {done l : List α} (h : Sorted needs done l) {v u : α} (hv : v ∈ l)
    (hu : u ∈ needs v) : u ∈ done ∨ u ∈ l := by
  induction l generalizing done with
  | nil => cases hv
  | cons w rest ih =>
    rcases List.mem_cons.mp hv with rfl | hv
    · exact .inl (h.1 u hu)
    · rcases ih h.2 hv with hdone | hrest
      · rcases List.mem_cons.mp hdone with rfl | hdone
        · exact .inr List.mem_cons_self
        · exact .inl hdone
      · exact .inr (List.mem_cons_of_mem _ hrest)

/-! ## Cycles -/

/-- No node needs itself, directly or through others. -/
def NoCycle (needs : α → List α) : Prop :=
  ∀ v, ¬ Relation.TransGen (fun u v => u ∈ needs v) v v

/-- A rank rules out cycles. -/
theorem Ranks.noCycle {nodes : List α} {rank : α → Nat} (h : Ranks needs nodes rank)
    (hnodes : ∀ v, ∀ u ∈ needs v, v ∈ nodes) : NoCycle needs := by
  have hlt : ∀ u v, Relation.TransGen (fun u v => u ∈ needs v) u v → rank u < rank v := by
    intro u v hpath
    induction hpath with
    | single huv => exact h _ (hnodes _ _ huv) _ huv
    | tail _ hlast ih => exact Nat.lt_trans ih (h _ (hnodes _ _ hlast) _ hlast)
  exact fun v hv => Nat.lt_irrefl _ (hlt v v hv)

open Classical in
/-- Without cycles, the number of nodes below a node is a rank. -/
theorem NoCycle.ranks {nodes : List α} (h : NoCycle needs)
    (hclosed : ∀ v ∈ nodes, ∀ u ∈ needs v, u ∈ nodes) : ∃ rank, Ranks needs nodes rank := by
  let below : α → α → Prop := Relation.TransGen (fun u v => u ∈ needs v)
  refine ⟨fun v => (nodes.filter (fun w => below w v)).length, fun v hv u hu => ?_⟩
  have hnested : nodes.filter (fun w => below w u)
      = (nodes.filter (fun w => below w v)).filter (fun w => below w u) := by
    rw [List.filter_filter]
    refine List.filter_congr (fun w _ => ?_)
    have hunder : below w u → below w v := fun hw => hw.tail hu
    by_cases hw : below w u <;> simp [hw, hunder]
  have hmem : u ∈ nodes.filter (fun w => below w v) :=
    List.mem_filter.mpr ⟨hclosed v hv u hu, by simpa using Relation.TransGen.single hu⟩
  dsimp only
  rw [hnested]
  exact List.length_filter_lt_length_iff_exists.mpr ⟨u, hmem, by simpa using h u⟩

open Classical in
/-- Without cycles some node of a list needs none of the list. -/
theorem NoCycle.exists_ready {l : List α} (h : NoCycle needs) (hl : l ≠ []) :
    ∃ v ∈ l, ∀ u ∈ needs v, u ∉ l := by
  let within : α → List α := fun v => (needs v).filter (fun u => u ∈ l)
  have hwithin : ∀ {u v}, u ∈ within v ↔ u ∈ needs v ∧ u ∈ l := by
    intro u v
    simp [within]
  have hcycle : NoCycle within :=
    fun v hv => h v (Relation.TransGen.mono (fun _ _ huv => (hwithin.mp huv).1) _ _ hv)
  obtain ⟨rank, hrank⟩ : ∃ rank, Ranks within l rank :=
    hcycle.ranks (fun v _ u hu => (hwithin.mp hu).2)
  by_contra hnone
  push Not at hnone
  have hall : ∀ n, ∀ v ∈ l, rank v ≠ n := by
    intro n
    induction n using Nat.strongRecOn with
    | ind n ih =>
      rintro v hv rfl
      obtain ⟨u, hu, hul⟩ := hnone v hv
      exact ih (rank u) (hrank v hv u (hwithin.mpr ⟨hu, hul⟩)) u hul rfl
  obtain ⟨v, hv⟩ := List.exists_mem_of_ne_nil l hl
  exact hall (rank v) v hv rfl

section

variable [DecidableEq α]

/-- In a sorted list without repetitions a node's place is a rank. -/
theorem Sorted.idxOf_lt {done l : List α} (h : Sorted needs done l) (hl : l.Nodup)
    (hdone : ∀ u ∈ done, u ∉ l) {v u : α} (hv : v ∈ l) (hu : u ∈ needs v) (hul : u ∈ l) :
    l.idxOf u < l.idxOf v := by
  induction l generalizing done with
  | nil => cases hv
  | cons w rest ih =>
    obtain ⟨hw, hrest⟩ := List.nodup_cons.mp hl
    by_cases hvw : v = w
    · subst hvw
      exact absurd hul (hdone u (h.1 u hu))
    · have hv' : v ∈ rest := (List.mem_cons.mp hv).resolve_left hvw
      rw [List.idxOf_cons_ne _ (Ne.symm hvw)]
      by_cases huw : u = w
      · subst huw
        simp
      · have hu' : u ∈ rest := (List.mem_cons.mp hul).resolve_left huw
        rw [List.idxOf_cons_ne _ (Ne.symm huw)]
        refine Nat.succ_lt_succ (ih h.2 hrest ?_ hv' hu')
        intro x hx
        rcases List.mem_cons.mp hx with rfl | hx
        · exact hw
        · exact fun hmem => hdone x hx (List.mem_cons_of_mem _ hmem)

theorem Sorted.ranks {l : List α} (h : Sorted needs [] l) (hl : l.Nodup) :
    Ranks needs l l.idxOf := by
  intro v hv u hu
  have hul : u ∈ l := (h.needs_mem hv hu).resolve_left List.not_mem_nil
  exact h.idxOf_lt hl (by simp) hv hu hul

/-! ## Kahn's algorithm -/

/-- The counts of open needs, the queue, and the nodes listed so far. -/
structure State (α : Type) where
  inDegree : α → Nat
  queue : List α
  listed : List α

/-- Lower the count of each of the nodes, and queue those that get to 0. -/
def release : List α → (α → Nat) × List α → (α → Nat) × List α
  | [], s => s
  | n :: ns, s =>
    release ns (Function.update s.1 n (s.1 n - 1),
      if s.1 n - 1 = 0 then s.2 ++ [n] else s.2)

/-- At most so many rounds; `succs` gives for a node those that need it, each as often as
it does. -/
def kahn (succs : α → List α) : Nat → State α → State α
  | 0, s => s
  | rounds + 1, s =>
    match s.queue with
    | [] => s
    | v :: queue =>
      let released := release (succs v) (s.inDegree, queue)
      kahn succs rounds
        { inDegree := released.1, queue := released.2, listed := s.listed ++ [v] }

theorem release_inDegree (ns : List α) (s : (α → Nat) × List α) (v : α) :
    (release ns s).1 v = s.1 v - ns.count v := by
  induction ns generalizing s with
  | nil => simp [release]
  | cons n ns ih =>
    rw [release, ih, List.count_cons]
    by_cases hvn : v = n
    · subst hvn
      simp
      omega
    · simp [Function.update_of_ne hvn, Ne.symm hvn]

theorem mem_release_queue {ns : List α} {s : (α → Nat) × List α}
    (hcount : ∀ v, ns.count v ≤ s.1 v) (v : α) :
    v ∈ (release ns s).2 ↔ v ∈ s.2 ∨ (v ∈ ns ∧ s.1 v = ns.count v) := by
  induction ns generalizing s with
  | nil => simp [release]
  | cons n ns ih =>
    have hn := hcount n
    rw [List.count_cons_self] at hn
    have hcount' : ∀ v, ns.count v ≤ Function.update s.1 n (s.1 n - 1) v := by
      intro v
      by_cases hvn : v = n
      · subst hvn
        rw [Function.update_self]
        omega
      · have hv := hcount v
        rw [List.count_cons_of_ne (Ne.symm hvn)] at hv
        rwa [Function.update_of_ne hvn]
    rw [release, ih hcount']
    by_cases hvn : v = n
    · subst hvn
      by_cases hlast : s.1 v - 1 = 0
      · have hone : s.1 v = ns.count v + 1 := by omega
        rw [if_pos hlast]
        refine iff_of_true (.inl (by simp)) (.inr ⟨List.mem_cons_self, ?_⟩)
        rw [List.count_cons_self, hone]
      · have hmem : s.1 v - 1 = ns.count v → v ∈ ns := by
          intro heq
          exact List.count_pos_iff.mp (by omega)
        have hiff : s.1 v - 1 = ns.count v ↔ s.1 v = ns.count v + 1 := by omega
        simp only [hlast, if_false, Function.update_self, List.count_cons_self, List.mem_cons,
          true_or, true_and, ← hiff]
        exact or_congr_right ⟨And.right, fun heq => ⟨hmem heq, heq⟩⟩
    · have hqueue : v ∈ (if s.1 n - 1 = 0 then s.2 ++ [n] else s.2) ↔ v ∈ s.2 := by
        split
        · simp [hvn]
        · rfl
      rw [hqueue, List.count_cons_of_ne (Ne.symm hvn)]
      simp [hvn]

theorem nodup_release_queue {ns : List α} {s : (α → Nat) × List α}
    (hcount : ∀ v, ns.count v ≤ s.1 v) (hs : s.2.Nodup) (hzero : ∀ v ∈ s.2, s.1 v = 0) :
    (release ns s).2.Nodup := by
  induction ns generalizing s with
  | nil => exact hs
  | cons n ns ih =>
    have hn := hcount n
    rw [List.count_cons_self] at hn
    have hfresh : n ∉ s.2 := fun hmem => by
      have hz := hzero n hmem
      omega
    rw [release]
    apply ih
    · intro v
      by_cases hvn : v = n
      · subst hvn
        dsimp only
        rw [Function.update_self]
        omega
      · have hv := hcount v
        rw [List.count_cons_of_ne (Ne.symm hvn)] at hv
        dsimp only
        rwa [Function.update_of_ne hvn]
    · dsimp only
      split
      · exact List.nodup_append.mpr ⟨hs, List.nodup_singleton _, by
          intro a ha b hb
          rw [List.mem_singleton.mp hb]
          exact fun heq => hfresh (heq ▸ ha)⟩
      · exact hs
    · intro v hv
      dsimp only at hv ⊢
      by_cases hvn : v = n
      · subst hvn
        rw [Function.update_self]
        split at hv
        · next hz => exact hz
        · exact absurd hv hfresh
      · rw [Function.update_of_ne hvn]
        split at hv
        · have hmem := List.mem_append.mp hv
          exact hzero v (hmem.resolve_right (by simpa using hvn))
        · exact hzero v hv

/-! ### A run -/

/-- The nodes are distinct, need only each other, and `succs` is the converse of
`needs`, with multiplicities. -/
structure Links (nodes : List α) (needs succs : α → List α) : Prop where
  nodup : nodes.Nodup
  closed : ∀ v ∈ nodes, ∀ u ∈ needs v, u ∈ nodes
  succ_mem : ∀ u, ∀ v ∈ succs u, v ∈ nodes
  count_eq : ∀ u v, v ∈ nodes → (succs u).count v = (needs v).count u

/-- The count of a node is that of its needs that are not listed yet, and it is queued
when this gets to 0. -/
structure Inv (nodes : List α) (needs : α → List α) (s : State α) : Prop where
  nodup : (s.listed ++ s.queue).Nodup
  subset : ∀ v ∈ s.listed ++ s.queue, v ∈ nodes
  count : ∀ v ∈ nodes, s.inDegree v = (needs v).countP (fun u => u ∉ s.listed)
  ready : ∀ v ∈ nodes, s.inDegree v = 0 → v ∈ s.listed ++ s.queue
  zero : ∀ v ∈ s.listed ++ s.queue, s.inDegree v = 0
  sorted : Sorted needs [] s.listed

variable {nodes : List α} {succs : α → List α}

/-- The state before the first round, from any order of the nodes. -/
theorem Inv.init {seeds : List α} (hL : Links nodes needs succs) (hseeds : seeds.Perm nodes) :
    Inv nodes needs
      { inDegree := fun v => (needs v).length
        queue := seeds.filter (fun v => (needs v).length = 0), listed := [] } where
  nodup := (hseeds.nodup_iff.mpr hL.nodup).filter _
  subset := by
    intro v hv
    exact hseeds.mem_iff.mp (List.mem_of_mem_filter hv)
  count := by simp
  ready := by
    intro v hv hzero
    exact List.mem_filter.mpr ⟨hseeds.mem_iff.mpr hv, by simpa using hzero⟩
  zero := by
    intro v hv
    simpa using (List.mem_filter.mp hv).2
  sorted := trivial

/-- Listing a node takes it out of the open needs. -/
theorem countP_snoc {v : α} {listed l : List α} (hv : v ∉ listed) :
    l.countP (fun u => u ∉ listed ++ [v]) + l.count v = l.countP (fun u => u ∉ listed) := by
  induction l with
  | nil => rfl
  | cons a l ih =>
    by_cases hav : a = v
    · subst hav
      rw [List.countP_cons_of_neg (by simp), List.countP_cons_of_pos (by simpa using hv),
        List.count_cons_self]
      omega
    · rw [List.count_cons_of_ne hav]
      by_cases ha : a ∈ listed
      · rw [List.countP_cons_of_neg (by simp [ha]), List.countP_cons_of_neg (by simpa using ha),
          ih]
      · rw [List.countP_cons_of_pos (by simp [ha, hav]),
          List.countP_cons_of_pos (by simpa using ha)]
        omega

/-- Listing the head of the queue lowers the counts of the nodes that need it. -/
theorem Inv.count_fall {v : α} {queue : List α} {s : State α} (hL : Links nodes needs succs)
    (h : Inv nodes needs s) (hqueue : s.queue = v :: queue) : ∀ x ∈ nodes,
      (needs x).countP (fun u => u ∉ s.listed ++ [v]) + (succs v).count x = s.inDegree x := by
  have hnodup := h.nodup
  rw [hqueue] at hnodup
  have hfresh : v ∉ s.listed := by
    intro hl
    exact (List.nodup_append.mp hnodup).2.2 v hl v List.mem_cons_self rfl
  intro x hx
  rw [h.count x hx, hL.count_eq v x hx, countP_snoc hfresh]

theorem Inv.count_le {v : α} {queue : List α} {s : State α} (hL : Links nodes needs succs)
    (h : Inv nodes needs s) (hqueue : s.queue = v :: queue) (x : α) :
    (succs v).count x ≤ s.inDegree x := by
  by_cases hx : x ∈ nodes
  · have hfall := h.count_fall hL hqueue x hx
    omega
  · have hnot : x ∉ succs v := fun hs => hx (hL.succ_mem v x hs)
    rw [List.count_eq_zero_of_not_mem hnot]
    exact Nat.zero_le _

/-- When all nodes are listed, the queue is empty. -/
theorem Inv.queue_eq_nil {s : State α} (h : Inv nodes needs s)
    (hlen : nodes.length ≤ s.listed.length) : s.queue = [] := by
  have hsub : (s.listed ++ s.queue).length ≤ nodes.length :=
    (List.subperm_of_subset h.nodup h.subset).length_le
  rw [List.length_append] at hsub
  exact List.eq_nil_of_length_eq_zero (by omega)

/-- One round. -/
theorem Inv.round {v : α} {queue : List α} {s : State α} (hL : Links nodes needs succs)
    (h : Inv nodes needs s) (hqueue : s.queue = v :: queue) :
    let released := release (succs v) (s.inDegree, queue)
    Inv nodes needs
      { inDegree := released.1, queue := released.2, listed := s.listed ++ [v] } := by
  have hfall := h.count_fall hL hqueue
  have hle := h.count_le hL hqueue
  obtain ⟨hnodup, hsubset, hcount, hready, hzero, hsorted⟩ := h
  rw [hqueue] at hnodup hsubset hready hzero
  have hmem : ∀ x, x ∈ s.listed ++ v :: queue ↔ x ∈ (s.listed ++ [v]) ++ queue := by simp
  have hsplit : ((s.listed ++ [v]) ++ queue).Nodup := by simpa using hnodup
  have hv : v ∈ nodes := hsubset v (by simp)
  have hvzero : s.inDegree v = 0 := hzero v (by simp)
  have hqzero : ∀ x ∈ queue, s.inDegree x = 0 := fun x hx => hzero x (by simp [hx])
  have hmemq := mem_release_queue (s := (s.inDegree, queue)) hle
  -- a node whose count falls to 0 was not queued before
  have hnew : ∀ x, x ∈ succs v → s.inDegree x = (succs v).count x →
      x ∉ (s.listed ++ [v]) ++ queue := by
    intro x hx heq hold
    have hz := hzero x ((hmem x).mpr hold)
    have hpos := List.count_pos_iff.mpr hx
    omega
  refine ⟨?_, ?_, ?_, ?_, ?_, ?_⟩
  · refine List.nodup_append.mpr ⟨?_, nodup_release_queue hle ?_ hqzero, ?_⟩
    · exact (List.nodup_append.mp hsplit).1
    · exact (List.nodup_cons.mp (List.nodup_append.mp hnodup).2.1).2
    · intro a ha b hb heq
      subst heq
      rcases (hmemq a).mp hb with hq | ⟨hs, heq⟩
      · exact (List.nodup_append.mp hsplit).2.2 a ha a hq rfl
      · exact hnew a hs heq (List.mem_append_left _ ha)
  · intro x hx
    rcases List.mem_append.mp hx with hl | hq
    · exact hsubset x ((hmem x).mpr (List.mem_append_left _ hl))
    · rcases (hmemq x).mp hq with hq | ⟨hs, -⟩
      · exact hsubset x ((hmem x).mpr (List.mem_append_right _ hq))
      · exact hL.succ_mem v x hs
  · intro x hx
    have hx' := hfall x hx
    dsimp only
    rw [release_inDegree]
    dsimp only
    omega
  · intro x hx hxzero
    dsimp only at hxzero ⊢
    rw [release_inDegree] at hxzero
    dsimp only at hxzero
    have hx' := hle x
    by_cases hold : s.inDegree x = 0
    · rcases List.mem_append.mp ((hmem x).mp (hready x hx hold)) with hl | hq
      · exact List.mem_append_left _ hl
      · exact List.mem_append_right _ ((hmemq x).mpr (.inl hq))
    · have hpos : 0 < (succs v).count x := by omega
      have heq : s.inDegree x = (succs v).count x := by omega
      exact List.mem_append_right _
        ((hmemq x).mpr (.inr ⟨List.count_pos_iff.mp hpos, heq⟩))
  · intro x hx
    dsimp only
    rw [release_inDegree]
    dsimp only
    rcases List.mem_append.mp hx with hl | hq
    · have hz := hzero x ((hmem x).mpr (List.mem_append_left _ hl))
      omega
    · rcases (hmemq x).mp hq with hq | ⟨-, heq⟩
      · have hz := hqzero x hq
        omega
      · dsimp only at heq
        omega
  · refine hsorted.snoc ?_
    intro u hu
    have hopen := hcount v hv
    rw [hvzero, eq_comm, List.countP_eq_zero] at hopen
    exact .inr (by simpa using hopen u hu)

/-- With enough rounds the queue runs empty. -/
theorem kahn_inv (hL : Links nodes needs succs) :
    ∀ {rounds : Nat} {s : State α}, Inv nodes needs s →
      nodes.length ≤ rounds + s.listed.length →
      Inv nodes needs (kahn succs rounds s) ∧ (kahn succs rounds s).queue = []
  | 0, s, h, hlen => ⟨h, h.queue_eq_nil (by omega)⟩
  | rounds + 1, s, h, hlen => by
    rw [kahn]
    cases hqueue : s.queue with
    | nil => exact ⟨h, hqueue⟩
    | cons v queue =>
      refine kahn_inv hL (h.round hL hqueue) ?_
      simp only [List.length_append, List.length_singleton]
      omega

variable {seeds : List α}

/-- What `kahn` lists of a graph, the queue filled in the order of `seeds`. -/
def sort (needs succs : α → List α) (seeds : List α) : List α :=
  (kahn succs seeds.length
    { inDegree := fun v => (needs v).length
      queue := seeds.filter (fun v => (needs v).length = 0), listed := [] }).listed

theorem sort_inv (hL : Links nodes needs succs) (hseeds : seeds.Perm nodes) :
    ∃ s, Inv nodes needs s ∧ s.queue = [] ∧ s.listed = sort needs succs seeds := by
  have hlen : nodes.length ≤ seeds.length + ([] : List α).length := by
    rw [hseeds.length_eq]
    exact Nat.le_refl _
  obtain ⟨hinv, hqueue⟩ := kahn_inv hL (Inv.init hL hseeds) hlen
  exact ⟨_, hinv, hqueue, rfl⟩

/-- If as many are listed as there are nodes, it is the nodes, sorted. -/
theorem sort_sorted (hL : Links nodes needs succs) (hseeds : seeds.Perm nodes)
    (hlen : (sort needs succs seeds).length = nodes.length) :
    (sort needs succs seeds).Perm nodes ∧ Sorted needs [] (sort needs succs seeds) := by
  obtain ⟨s, hinv, hqueue, hlisted⟩ := sort_inv hL hseeds
  have hnodup := hinv.nodup
  have hsubset := hinv.subset
  rw [hqueue, List.append_nil] at hnodup hsubset
  rw [← hlisted] at hlen ⊢
  exact ⟨(List.subperm_of_subset hnodup hsubset).perm_of_length_le (by omega), hinv.sorted⟩

/-- A graph with a rank is listed in full. -/
theorem sort_complete (hL : Links nodes needs succs) (hseeds : seeds.Perm nodes)
    {rank : α → Nat} (hrank : Ranks needs nodes rank) :
    (sort needs succs seeds).length = nodes.length := by
  obtain ⟨s, hinv, hqueue, hlisted⟩ := sort_inv hL hseeds
  obtain ⟨hnodup, hsubset, hcount, hready, -, -⟩ := hinv
  rw [hqueue, List.append_nil] at hnodup hsubset hready
  have hall : ∀ n, ∀ v ∈ nodes, rank v = n → v ∈ s.listed := by
    intro n
    induction n using Nat.strongRecOn with
    | ind n ih =>
      intro v hv hvn
      refine hready v hv ?_
      rw [hcount v hv, List.countP_eq_zero]
      intro u hu
      have hlt := hrank v hv u hu
      simpa using ih (rank u) (by omega) u (hL.closed v hv u hu) rfl
  have hperm : s.listed.Perm nodes :=
    (List.perm_ext_iff_of_nodup hnodup hL.nodup).mpr
      (fun v => ⟨hsubset v, fun hv => hall _ v hv rfl⟩)
  rw [← hlisted, hperm.length_eq]

end

end Ipfrs.Lib.Topo
