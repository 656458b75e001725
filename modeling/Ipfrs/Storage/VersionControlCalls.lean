/-
Ipfrs.Storage.VersionControlCalls — what a call answers, and what it leaves when it fails.

A walk over parents answers in a store that holds a commit with all its ancestors, and
then exactly (`ancestry_exact`). A merge joins HEAD and what is merged. If that is behind
HEAD already there is nothing to join, but only HEAD itself is noticed: a three-way merge
of an older commit makes a commit with the older root (`merge_monotone_iff`). A call that
writes HEAD, the current branch or the table before it has called the store does not take
that back when the store fails (`atomic_iff`).
-/
import Ipfrs.Storage.BlockStore
import Ipfrs.Storage.VersionControlTheorems
import Ipfrs.Lib.Worklist

namespace Ipfrs.Storage.Vcs

open Ipfrs.Core Ipfrs.Lib
open Ipfrs.Knowledge (ColdStore MemoryBlockStore)
open Journaled (history)

/-! ## Ancestry -/

section

variable {C : Type} [ColdStore C] [Journaled C] [CidCrate] [CidStream] [Oxicode]

/-- A set of commits that are stored with all their parents, in a store whose reads
succeed. -/
structure CommitGraph (store : C) (graph : Cid → Prop) : Prop where
  reads : ∀ c : C, history c = history store → ∀ a, graph a → ∃ r c', ColdStore.get a c = .ok r c'
  stored : ∀ a, graph a → ∃ b c, (history store).find? (fun b => b.cid == a) = some b
    ∧ Commit.fromBlock b = .ok c
  closed : ∀ a, graph a → ∀ p ∈ parentsOf (history store) a, graph p

variable {store : C} {graph : Cid → Prop}

omit [CidCrate] [CidStream] in
theorem CommitGraph.reaches (hG : CommitGraph store graph) {a p : Cid} (ha : graph a)
    (h : Reaches (history store) a p) : graph p := by
  induction h with
  | refl => exact ha
  | tail _ hstep ih => exact hG.closed _ ih _ hstep

omit [CidCrate] in
theorem CommitGraph.load (hG : CommitGraph store graph) (what : String) {cid : Cid}
    (hcid : graph cid) {c : C} (hc : history c = history store) :
    ∃ commit c', loadCommit what cid c = .ok commit c' ∧ history c' = history store
      ∧ commit.parents = parentsOf (history store) cid := by
  obtain ⟨r, c', hget⟩ := hG.reads c hc cid hcid
  obtain ⟨b, commit, hfind, hfrom⟩ := hG.stored cid hcid
  obtain ⟨hr, hhist⟩ := Journaled.get_ok hget
  rw [hc, hfind] at hr
  subst hr
  refine ⟨commit, c', ?_, hhist.trans hc, ?_⟩
  · have hload : loadCommit what cid c = _ := run_bind_ok hget
    rw [hload]
    simp only [hfrom, liftExcept]
    rfl
  · rw [parentsOf, hfind]
    simp only [hfrom]

omit [CidCrate] [CidStream] [Journaled C] [ColdStore C] in
theorem reach_iff_reaches (blocks : List Block) (a p : Cid) :
    Worklist.Reach (parentsOf blocks) [a] p ↔ Reaches blocks a p := by
  constructor
  · rintro ⟨r, hr, hpath⟩
    rw [List.mem_singleton.mp hr] at hpath
    exact hpath
  · intro hpath
    exact ⟨a, List.mem_singleton.mpr rfl, hpath⟩

omit [CidCrate] [CidStream] in
theorem parentsOf_eq_nil {blocks : List Block} {a : Cid} (h : a ∉ blocks.map Block.cid) :
    parentsOf blocks a = [] := by
  have hnone : blocks.find? (fun b => b.cid == a) = none := by
    rw [List.find?_eq_none]
    intro b hb heq
    exact h (List.mem_map.mpr ⟨b, hb, by simpa using heq⟩)
  rw [parentsOf, hnone]

/-- What a walk from `start` keeps: its search, the store's blocks, and that no commit
visited stops it. -/
structure Walking {ρ : Type} (store : C) (start : Cid) (stop : Cid → Option ρ)
    (w : VersionControl.Walk C) : Prop where
  blocks : history w.store = history store
  search : Worklist.Inv (parentsOf (history store)) [start] w.visited w.queue
  passed : ∀ c ∈ w.visited, stop c = none

omit [CidCrate] [CidStream] in
/-- The rounds that are left to a walk. -/
def remaining (store : C) (w : VersionControl.Walk C) : Nat :=
  Worklist.pending (parentsOf (history store)) ((history store).map Block.cid) w.visited w.queue

/-- What a walk from `start` answers: the result at a commit that stops it, or that of all
commits reached, none of which does. -/
def Answers {ρ : Type} (blocks : List Block) (start : Cid) (stop : Cid → Option ρ)
    (finish : List Cid → ρ) (r : ρ) : Prop :=
  (∃ c, Reaches blocks start c ∧ stop c = some r)
    ∨ ∃ visited, r = finish visited ∧ (∀ c, c ∈ visited ↔ Reaches blocks start c)
      ∧ ∀ c, Reaches blocks start c → stop c = none

section Walk

variable {ρ : Type} {start : Cid} {stop : Cid → Option ρ}
  {w : VersionControl.Walk C}

omit [CidCrate] in
/-- One round: on with the walk, closer to its end, or an answer. -/
theorem walkBody_step (finish : List Cid → ρ) (hG : CommitGraph store graph) (hstart : graph start)
    (hw : Walking store start stop w) :
    (∃ w', VersionControl.walkBody stop finish w = .inl w' ∧ Walking store start stop w'
        ∧ remaining store w' < remaining store w)
      ∨ ∃ r c', VersionControl.walkBody stop finish w = .inr (.ok r c')
        ∧ history c' = history store ∧ Answers (history store) start stop finish r := by
  obtain ⟨visited, queue, c⟩ := w
  obtain ⟨hblocks, hsearch, hpassed⟩ := hw
  dsimp only at hblocks hsearch hpassed
  cases queue with
  | nil =>
    have hall : ∀ a, a ∈ visited ↔ Reaches (history store) start a := fun a =>
      hsearch.done.trans (reach_iff_reaches _ _ _)
    exact .inr ⟨_, c, rfl, hblocks, .inr ⟨visited, rfl, hall,
      fun a ha => hpassed a ((hall a).mpr ha)⟩⟩
  | cons cid queue =>
    have hreach : Reaches (history store) start cid :=
      (reach_iff_reaches _ _ _).mp (hsearch.sound cid (.inr List.mem_cons_self))
    simp only [VersionControl.walkBody]
    by_cases hvisited : cid ∈ visited
    · rw [if_pos hvisited]
      exact .inl ⟨_, rfl, ⟨hblocks, hsearch.skip hvisited, hpassed⟩,
        Worklist.pending_skip _⟩
    · rw [if_neg hvisited]
      cases hstop : stop cid with
      | some r => exact .inr ⟨r, c, rfl, hblocks, .inl ⟨cid, hreach, hstop⟩⟩
      | none =>
        obtain ⟨commit, c', hload, hhist, hparents⟩ :=
          hG.load "Commit not found: " (hG.reaches hstart hreach) hblocks
        have hfrontier : ∀ y, y ∈ commit.parents.reverse ++ queue
            ↔ y ∈ parentsOf (history store) cid ∨ y ∈ queue := by
          intro y
          rw [List.mem_append, List.mem_reverse, hparents]
        refine .inl ⟨_, by rw [hload], ⟨hhist, hsearch.visit hfrontier, ?_⟩, ?_⟩
        · exact List.forall_mem_cons.mpr ⟨hstop, hpassed⟩
        · apply Worklist.pending_visit hvisited parentsOf_eq_nil
          rw [List.length_append, List.length_reverse, hparents]

omit [CidCrate] in
/-- With enough rounds a walk answers. -/
theorem walk_answers (hG : CommitGraph store graph) (hstart : graph start) (stop : Cid → Option ρ)
    (finish : List Cid → ρ) {c : C} (hc : history c = history store) :
    ∃ n r c', (∀ m, n ≤ m → Loop.run (VersionControl.walkBody stop finish) m
          { visited := [], queue := [start], store := c } = some (.ok r c'))
      ∧ history c' = history store ∧ Answers (history store) start stop finish r := by
  have hinit : Walking store start stop { visited := [], queue := [start], store := c } :=
    ⟨hc, Worklist.Inv.init (fun _ => Iff.rfl), by simp⟩
  have hstep : ∀ w w' : VersionControl.Walk C, Walking store start stop w →
      VersionControl.walkBody stop finish w = .inl w' →
        Walking store start stop w' ∧ remaining store w' < remaining store w := by
    intro w w' hw hbody
    rcases walkBody_step finish hG hstart hw with ⟨w'', hgo, hw'', hlt⟩ | ⟨r, c', hleave, -⟩
    · rw [hbody] at hgo
      cases hgo
      exact ⟨hw'', hlt⟩
    · rw [hbody] at hleave
      cases hleave
  obtain ⟨n, r, hr⟩ : ∃ n r, Loop.run (VersionControl.walkBody stop finish) n
      { visited := [], queue := [start], store := c } = some r :=
    ⟨_, Loop.run_of_measure _ (remaining store) hstep _ hinit (Nat.le_refl _)⟩
  obtain ⟨w, hw, hleave⟩ := Loop.run_inv (fun s s' hs hb => (hstep s s' hs hb).1) hinit hr
  rcases walkBody_step finish hG hstart hw with ⟨w', hgo, -⟩ | ⟨answer, c', hleft, hhist, hans⟩
  · rw [hgo] at hleave
    cases hleave
  · rw [hleft] at hleave
    cases hleave
    exact ⟨n, answer, c', fun m hm => Loop.run_mono hr hm, hhist, hans⟩

end Walk

omit [CidCrate] [Journaled C] in
theorem ancestorBody_eq_walkBody (ancestor : Cid) :
    VersionControl.ancestorBody (C := C) ancestor
      = VersionControl.walkBody (fun cid => if cid = ancestor then some true else none)
          (fun _ => false) := by
  funext ⟨visited, queue, c⟩
  cases queue with
  | nil => rfl
  | cons cid queue =>
    simp only [VersionControl.ancestorBody, VersionControl.walkBody]
    by_cases heq : cid = ancestor
    · simp only [if_pos heq]
    · simp only [if_neg heq]

omit [CidCrate] in
/-- `is_ancestor` answers, with what can be reached. -/
theorem isAncestor_exact (hG : CommitGraph store graph) {d : Cid} (hd : graph d) (a : Cid) :
    ∃ n found c', (∀ m, n ≤ m → VersionControl.isAncestor m a d store = some (.ok found c'))
      ∧ (found = true ↔ Reaches (history store) d a) := by
  by_cases hsame : a = d
  · refine ⟨0, true, store, fun m _ => ?_, ?_⟩
    · rw [VersionControl.isAncestor, if_pos hsame]
    · exact iff_of_true rfl (hsame ▸ Relation.ReflTransGen.refl)
  · obtain ⟨n, found, c', hrun, -, hans⟩ := walk_answers hG hd
      (fun cid => if cid = a then some true else none) (fun _ => false) rfl
    refine ⟨n, found, c', fun m hm => ?_, ?_⟩
    · rw [VersionControl.isAncestor, if_neg hsame, ancestorBody_eq_walkBody, hrun m hm]
    · rcases hans with ⟨c, hreach, hstop⟩ | ⟨_, rfl, -, hall⟩
      · obtain ⟨hc, hfound⟩ : c = a ∧ found = true := by
          simpa [eq_comm] using hstop
        exact iff_of_true hfound (hc ▸ hreach)
      · refine iff_of_false Bool.false_ne_true (fun hreach => ?_)
        simpa using hall a hreach

omit [CidCrate] in
/-- `find_common_ancestor` answers, with a commit that both reach if there is one. -/
theorem findCommonAncestor_exact (hG : CommitGraph store graph) {a b : Cid} (ha : graph a)
    (hb : graph b) :
    ∃ n r c', (∀ m, n ≤ m → VersionControl.findCommonAncestor m a b store = some (.ok r c'))
      ∧ (∀ c, r = some c → Reaches (history store) a c ∧ Reaches (history store) b c)
      ∧ (r = none ↔ ¬ ∃ c, Reaches (history store) a c ∧ Reaches (history store) b c) := by
  obtain ⟨n, ancestors, c₁, hrun₁, hhist, hans⟩ :=
    walk_answers hG ha (fun _ => none) id rfl
  have hmem : ∀ c, c ∈ ancestors ↔ Reaches (history store) a c := by
    rcases hans with ⟨_, -, hstop⟩ | ⟨visited, rfl, hvisited, -⟩
    · cases hstop
    · exact hvisited
  obtain ⟨n', r, c', hrun₂, -, hans⟩ := walk_answers hG hb
    (fun cid => if cid ∈ ancestors then some (some cid) else none) (fun _ => none) hhist
  refine ⟨max n n', r, c', fun m hm => ?_, ?_⟩
  · rw [VersionControl.findCommonAncestor, hrun₁ m (by omega)]
    exact hrun₂ m (by omega)
  · rcases hans with ⟨c, hreach, hstop⟩ | ⟨_, rfl, -, hall⟩
    · obtain ⟨hc, rfl⟩ : c ∈ ancestors ∧ some c = r := by simpa using hstop
      have hboth := And.intro ((hmem c).mp hc) hreach
      refine ⟨fun c' heq => Option.some.inj heq ▸ hboth, ?_⟩
      exact iff_of_false (Option.some_ne_none c) (not_not.mpr ⟨c, hboth⟩)
    · refine ⟨fun c heq => (by cases heq), iff_of_true rfl ?_⟩
      rintro ⟨c, hac, hbc⟩
      simpa [hmem, hac] using hall c hbc

omit [CidCrate] in
/-- Both queries answer, and exactly: `is_ancestor` what can be reached, and
`find_common_ancestor` a commit that both reach if there is one. -/
theorem ancestry_exact (hG : CommitGraph store graph) {a b : Cid} (ha : graph a) (hb : graph b)
    (x : Cid) :
    (∃ n found c', (∀ m, n ≤ m → VersionControl.isAncestor m x a store = some (.ok found c'))
        ∧ (found = true ↔ Reaches (history store) a x)) ∧ ∃ n r c', (∀ m, n ≤ m →
            VersionControl.findCommonAncestor m a b store = some (.ok r c'))
        ∧ (∀ c, r = some c → Reaches (history store) a c ∧ Reaches (history store) b c)
        ∧ (r = none ↔ ¬ ∃ c, Reaches (history store) a c ∧ Reaches (history store) b c) :=
  ⟨isAncestor_exact hG ha x, findCommonAncestor_exact hG ha hb⟩

end

namespace Undone

open scoped CidFormat
open Sample (cid author codeOf lawful_codeOf)

def joining : Commit :=
  { parents := [cid 1, cid 0], root := cid 8, message := "merge", author, timestamp := 3,
    metadata := [] }

/-- A first commit, one after it, and the merge of the first into that. -/
def commits : List Commit :=
  [{ parents := [], root := cid 8, message := "old", author, timestamp := 1, metadata := [] },
    { parents := [cid 0], root := cid 9, message := "new", author, timestamp := 2, metadata := [] },
    joining]

scoped instance oxicode : Oxicode := codeOf commits

scoped instance : Oxicode.Lawful := lawful_codeOf commits (by decide)

def stored (n : UInt8) : Block := { cid := cid n, data := [n] }

theorem cid_ne : cid 8 ≠ cid 9 ∧ cid 1 ≠ cid 0 ∧ cid 2 ≠ cid 0 ∧ cid 2 ≠ cid 1 := by
  decide +kernel

theorem collisionFree : CollisionFree [stored 2, stored 1, stored 0] := by
  obtain ⟨-, h₁₀, h₂₀, h₂₁⟩ := cid_ne
  have hnodup : ([stored 2, stored 1, stored 0].map Block.cid).Nodup := by
    simp [stored, h₁₀, h₂₀, h₂₁]
  exact fun b hb b' hb' h => congrArg Block.data (List.inj_on_of_nodup_map hnodup hb hb' h)

theorem find_stored {blocks : List Block} {n : UInt8} (hn : stored n ∈ blocks)
    (hsub : ∀ b ∈ blocks, b ∈ [stored 2, stored 1, stored 0]) :
    blocks.find? (fun b => b.cid == cid n) = some (stored n) :=
  (collisionFree.mono hsub).find? hn

theorem parentsOf_stored {blocks : List Block} {n : UInt8} {c : Commit}
    (hn : stored n ∈ blocks) (hsub : ∀ b ∈ blocks, b ∈ [stored 2, stored 1, stored 0])
    (hc : Commit.fromBlock (stored n) = .ok c) : parentsOf blocks (cid n) = c.parents := by
  rw [parentsOf, find_stored hn hsub]
  simp only [hc]

/-- With the merge, two ways lead to the first commit. -/
def merged : MemoryBlockStore := { blocks := [stored 2, stored 1, stored 0] }

theorem merged_graph : CommitGraph merged (fun a => a ∈ [cid 0, cid 1, cid 2]) where
  reads c _ a _ := ⟨_, c, rfl⟩
  stored a ha := by
    have hfind : ∀ {n : UInt8}, stored n ∈ merged.blocks →
        merged.blocks.find? (fun b => b.cid == cid n) = some (stored n) :=
      fun hn => find_stored hn (fun _ h => h)
    simp only [List.mem_cons, List.not_mem_nil, or_false] at ha
    rcases ha with rfl | rfl | rfl
    · exact ⟨stored 0, _, hfind (by simp [merged]), rfl⟩
    · exact ⟨stored 1, _, hfind (by simp [merged]), rfl⟩
    · exact ⟨stored 2, _, hfind (by simp [merged]), rfl⟩
  closed a ha p hp := by
    have hparents : ∀ {n : UInt8} {c : Commit}, stored n ∈ merged.blocks →
        Commit.fromBlock (stored n) = .ok c → parentsOf (history merged) (cid n) = c.parents :=
      fun hn hc => parentsOf_stored hn (fun _ h => h) hc
    simp only [List.mem_cons, List.not_mem_nil, or_false] at ha
    rcases ha with rfl | rfl | rfl
    · rw [hparents (by simp [merged]) rfl] at hp
      cases hp
    · rw [hparents (by simp [merged]) rfl] at hp
      simp [List.mem_singleton.mp hp]
    · rw [hparents (by simp [merged]) rfl] at hp
      rcases List.mem_cons.mp hp with rfl | hp
      · simp
      · simp [List.mem_singleton.mp hp]

theorem ancestry_exact_merged : (∃ n found c', (∀ m, n ≤ m →
          VersionControl.isAncestor m (cid 0) (cid 2) merged = some (.ok found c'))
        ∧ (found = true ↔ Reaches (history merged) (cid 2) (cid 0))) ∧ ∃ n r c', (∀ m, n ≤ m →
            VersionControl.findCommonAncestor m (cid 2) (cid 1) merged = some (.ok r c'))
        ∧ (∀ c, r = some c →
          Reaches (history merged) (cid 2) c ∧ Reaches (history merged) (cid 1) c) ∧ (r = none ↔
          ¬ ∃ c, Reaches (history merged) (cid 2) c ∧ Reaches (history merged) (cid 1) c) :=
  ancestry_exact merged_graph (by simp) (by simp) (cid 0)

end Undone

/-! ## Merging -/

section

variable {C : Type} [ColdStore C] [CidCrate] [CidStream] [Oxicode]

omit [CidCrate] in
theorem history_loadCommit [Journaled C] {what : String} {cid : Cid} {c : C}
    {r : EStateM.Result Error C Commit} (h : loadCommit what cid c = r) :
    history (finalState r) = history c := by
  obtain ⟨c', hhist, ⟨-, commit, hload, -⟩ | ⟨e, hload⟩⟩ := loadCommit_cases what cid c
  · rw [← h, hload]
    exact hhist
  · rw [← h, hload]
    exact hhist

omit [ColdStore C] [CidCrate] [CidStream] [Oxicode] in
theorem onStore_ok {α : Type} {m : EStateM Error C α} {s : VersionControl C} {a : α} {store : C}
    (h : m s.store = .ok a store) : onStore m s = .ok a { s with store } := by
  rw [onStore, h]

omit [ColdStore C] [CidCrate] [CidStream] [Oxicode] in
theorem onStore_error {α : Type} {m : EStateM Error C α} {s : VersionControl C} {e : Error}
    {store : C} (h : m s.store = .error e store) : onStore m s = .error e { s with store } := by
  rw [onStore, h]

omit [CidStream] in
theorem storeCommit_run (c : Commit) (s : VersionControl C) :
    (∃ block store, c.toBlock = .ok block ∧ ColdStore.put block s.store = .ok () store
        ∧ VersionControl.storeCommit c s = .ok block.cid { s with store })
      ∨ ((∀ block store, c.toBlock = .ok block → ColdStore.put block s.store ≠ .ok () store)
        ∧ ∃ e store, VersionControl.storeCommit c s = .error e { s with store }
          ∧ ∀ [Journaled C], history store = history s.store) := by
  rw [VersionControl.storeCommit, Commit.finalize]
  cases hblock : c.toBlock with
  | error e => exact .inr ⟨fun _ _ h => (by cases h), e, s.store, rfl, rfl⟩
  | ok block =>
    rw [ok_bind, run_bind_ok (run_liftExcept_ok _), run_bind_ok (run_liftExcept_ok _)]
    cases hput : ColdStore.put block s.store with
    | ok a store => exact .inl ⟨block, store, rfl, hput, run_bind_ok (onStore_ok hput)⟩
    | error e store =>
      refine .inr ⟨fun block' store' hb hp => ?_, e, store,
        run_bind_error (onStore_error hput), Journaled.put_error hput⟩
      cases hb
      rw [hput] at hp
      cases hp

/-- The two commits are loaded, and the commit that merges them is put. -/
def StoresMerge (head branchCid : Cid) (message : String) (author : Author)
    (strategy : MergeStrategy) (timestamp : UInt64) (c : C) (block : Block) (c' : C) : Prop :=
  ∃ headCommit c₁ branchCommit c₂,
    loadCommit "HEAD commit not found: " head c = .ok headCommit c₁
      ∧ loadCommit "Branch commit not found: " branchCid c₁ = .ok branchCommit c₂
      ∧ ({ parents := [head, branchCid]
           root := if strategy = .ours then headCommit.root else branchCommit.root
           message, author, timestamp, metadata := [] } : Commit).toBlock = .ok block
      ∧ ColdStore.put block c₂ = .ok () c'

/-- The merge is stored and becomes HEAD and the tip, or all but the store is as before. -/
theorem mergeCommit_cases (head branchCid : Cid) (message : String) (author : Author)
    (strategy : MergeStrategy) (timestamp : UInt64) (s : VersionControl C) :
    (strategy ≠ .fastForward ∧ ∃ block store,
        StoresMerge head branchCid message author strategy timestamp s.store block store
          ∧ VersionControl.mergeCommit head branchCid message author strategy timestamp s
            = .ok (.mergeCommit block.cid) { s with
                store, head := some block.cid
                refsCache := Function.update s.refsCache s.currentBranch (some block.cid) })
      ∨ ((strategy ≠ .fastForward → ∀ block store,
          ¬ StoresMerge head branchCid message author strategy timestamp s.store block store)
        ∧ ∃ e store, VersionControl.mergeCommit head branchCid message author strategy timestamp s
            = .error e { s with store } ∧ ∀ [Journaled C], history store = history s.store) := by
  rw [VersionControl.mergeCommit]
  by_cases hstrategy : strategy = .fastForward
  · rw [if_pos hstrategy]
    exact .inr ⟨fun h => absurd hstrategy h, _, s.store, rfl, rfl⟩
  · rw [if_neg hstrategy]
    dsimp only
    cases hload₁ : loadCommit "HEAD commit not found: " head s.store with
    | error e c₁ =>
      rw [run_bind_error (onStore_error hload₁)]
      refine .inr ⟨fun _ => ?_, e, c₁, rfl, history_loadCommit hload₁⟩
      rintro block store ⟨_, _, _, _, h₁, -⟩
      rw [hload₁] at h₁
      cases h₁
    | ok headCommit c₁ =>
      rw [run_bind_ok (onStore_ok hload₁)]
      cases hload₂ : loadCommit "Branch commit not found: " branchCid c₁ with
      | error e c₂ =>
        rw [run_bind_error (onStore_error (s := { s with store := c₁ }) hload₂)]
        refine .inr ⟨fun _ => ?_, e, c₂, rfl,
          (history_loadCommit hload₂).trans (history_loadCommit hload₁)⟩
        rintro block store ⟨_, _, _, _, h₁, h₂, -⟩
        rw [hload₁] at h₁
        cases h₁
        rw [hload₂] at h₂
        cases h₂
      | ok branchCommit c₂ =>
        rw [run_bind_ok (onStore_ok (s := { s with store := c₁ }) hload₂)]
        rcases storeCommit_run
          { parents := [head, branchCid]
            root := if strategy = .ours then headCommit.root else branchCommit.root
            message, author, timestamp, metadata := [] } { s with store := c₂ }
          with ⟨block, store, hblock, hput, hrun⟩ | ⟨hnone, e, store, hrun, hhist⟩
        · rw [run_bind_ok hrun]
          exact .inl ⟨hstrategy, block, store,
            ⟨headCommit, c₁, branchCommit, c₂, hload₁, hload₂, hblock, hput⟩, rfl⟩
        · rw [run_bind_error hrun]
          refine .inr ⟨fun _ => ?_, e, store, rfl,
            hhist.trans ((history_loadCommit hload₂).trans (history_loadCommit hload₁))⟩
          rintro block store' ⟨_, _, _, _, h₁, h₂, hblock, hput⟩
          rw [hload₁] at h₁
          cases h₁
          rw [hload₂] at h₂
          cases h₂
          exact hnone block store' hblock hput

end

/-! ## Merging what is merged -/

section

variable {C : Type} [ColdStore C] [Journaled C] [CidCrate] [CidStream] [Oxicode]

omit [Journaled C] [ColdStore C] [CidCrate] [CidStream] in
/-- The root of the commit stored under `a`. -/
def rootOf (blocks : List Block) (a : Cid) : Option Cid :=
  match blocks.find? (fun b => b.cid == a) with
  | none => none
  | some b =>
    match Commit.fromBlock b with
    | .ok c => some c.root
    | .error _ => none

omit [CidCrate] in
theorem rootOf_load {what : String} {cid : Cid} {c c' : C} {commit : Commit}
    (h : loadCommit what cid c = .ok commit c') : rootOf (history c) cid = some commit.root := by
  obtain ⟨_, -, ⟨b, commit', hload, hfind, hfrom⟩ | ⟨e, hload⟩⟩ := loadCommit_cases what cid c
  · rw [hload] at h
    cases h
    rw [rootOf, hfind]
    simp only [hfrom]
  · rw [hload] at h
    cases h

omit [Journaled C] [ColdStore C] [CidStream] in
theorem rootOf_stored [Oxicode.Lawful] {c : Commit} {b : Block} {blocks : List Block}
    (h : c.toBlock = .ok b) : rootOf (b :: blocks) b.cid = some c.root := by
  obtain ⟨metadata, hfrom⟩ := fromBlock_toBlock h
  have hfind : (b :: blocks).find? (fun b' => b'.cid == b.cid) = some b :=
    List.find?_cons_of_pos (beq_self_eq_true _)
  rw [rootOf, hfind]
  simp only [hfrom]

/-- What is merged already leaves the root at HEAD, unless a side is asked for, and what is
not is joined to HEAD. -/
structure Monotone (branchCid : Cid) (strategy : MergeStrategy) (s : VersionControl C)
    (r : EStateM.Result Error (VersionControl C) MergeResult) : Prop where
  upToDate : ∀ head, s.head = some head → Reaches (history s.store) head branchCid →
    strategy ≠ .ours → strategy ≠ .theirs →
      (finalState r).head.bind (rootOf (history (finalState r).store))
        = rootOf (history s.store) head
  joins : ∀ head, s.head = some head → ¬ Reaches (history s.store) head branchCid →
    ∀ result s', r = .ok result s' → ∃ head', s'.head = some head'
      ∧ Reaches (history s'.store) head' head ∧ Reaches (history s'.store) head' branchCid

/-- A three-way merge of a commit behind HEAD with another root, on a store that serves it. -/
def Undoes (rounds : Nat) (branchCid : Cid) (message : String) (author : Author)
    (strategy : MergeStrategy) (timestamp : UInt64) (s : VersionControl C) : Prop :=
  strategy = .threeWay ∧ ∃ head, s.head = some head ∧ head ≠ branchCid
    ∧ Reaches (history s.store) head branchCid
    ∧ rootOf (history s.store) branchCid ≠ rootOf (history s.store) head
    ∧ ∃ found c block c', VersionControl.isAncestor rounds head branchCid s.store
          = some (.ok found c)
        ∧ StoresMerge head branchCid message author strategy timestamp c block c'

omit [CidCrate] [CidStream] in
theorem Monotone.of_error {branchCid : Cid} {strategy : MergeStrategy} {s s' : VersionControl C}
    {e : Error} (hhead : s'.head = s.head) (hhist : history s'.store = history s.store) :
    Monotone branchCid strategy s (.error e s') where
  upToDate head h _ _ _ := by
    show s'.head.bind (rootOf (history s'.store)) = _
    rw [hhead, h, hhist]
    rfl
  joins _ _ _ _ _ h := by cases h

/-- A merge commit joins the two, and its root is that of HEAD for `ours` only. -/
theorem monotone_mergeCommit_iff [Oxicode.Lawful] {rounds : Nat} {head branchCid : Cid}
    {message : String} {author : Author} {strategy : MergeStrategy} {timestamp : UInt64}
    {s : VersionControl C} {found : Bool} {store : C}
    {r : EStateM.Result Error (VersionControl C) MergeResult} (hhead : s.head = some head)
    (hne : head ≠ branchCid)
    (hanc : VersionControl.isAncestor rounds head branchCid s.store = some (.ok found store))
    (h : VersionControl.mergeCommit head branchCid message author strategy timestamp
      { s with store } = r) (hfree : CollisionFree (history (finalState r).store)) :
    Monotone branchCid strategy s r
      ↔ ¬ Undoes rounds branchCid message author strategy timestamp s := by
  have hstore : history store = history s.store := (isAncestor_spec hanc).1
  rcases mergeCommit_cases head branchCid message author strategy timestamp { s with store }
    with ⟨hstrategy, block, c', hstores, hrun⟩ | ⟨hnone, e, c', hrun, hhist⟩
  · rw [hrun] at h
    subst h
    obtain ⟨headCommit, c₁, branchCommit, c₂, hload₁, hload₂, hblock, hput⟩ := id hstores
    have hhist₁ : history c₁ = history s.store := (history_loadCommit hload₁).trans hstore
    have hhist₂ : history c₂ = history s.store := (history_loadCommit hload₂).trans hhist₁
    have hnew : history c' = block :: history s.store := hhist₂ ▸ Journaled.put_ok hput
    have hparents : ∀ p ∈ [head, branchCid], Reaches (history c') block.cid p :=
      reaches_parents hblock hfree (hnew ▸ List.mem_cons_self)
    have hroot : rootOf (history c') block.cid
        = some (if strategy = .ours then headCommit.root else branchCommit.root) := by
      rw [hnew]
      exact rootOf_stored hblock
    have hbranch : rootOf (history s.store) branchCid = some branchCommit.root := by
      rw [← hhist₁]
      exact rootOf_load hload₂
    have hjoins : ∀ head', s.head = some head' →
        Reaches (history c') block.cid head' ∧ Reaches (history c') block.cid branchCid := by
      intro head' hs
      rw [hhead] at hs
      cases hs
      exact ⟨hparents head (by simp), hparents branchCid (by simp)⟩
    constructor
    · rintro ⟨hup, -⟩ ⟨rfl, head', hs, -, hfwd, hroots, -⟩
      have hkept : rootOf (history c') block.cid = rootOf (history s.store) head' :=
        hup head' hs hfwd (by decide) (by decide)
      rw [hroot, if_neg (by decide), ← hbranch] at hkept
      exact hroots hkept
    · intro hnot
      constructor
      · intro head' hs hfwd hours htheirs
        have hthree : strategy = .threeWay := by
          cases strategy with
          | fastForward => exact absurd rfl hstrategy
          | threeWay => rfl
          | ours => exact absurd rfl hours
          | theirs => exact absurd rfl htheirs
        have hsame : rootOf (history s.store) branchCid = rootOf (history s.store) head' := by
          by_contra hroots
          rw [hhead] at hs
          cases hs
          exact hnot ⟨hthree, head, hhead, hne, hfwd, hroots, found, store, block, c', hanc,
            hstores⟩
        show rootOf (history c') block.cid = _
        rw [hroot, if_neg hours, ← hbranch, hsame]
      · intro head' hs _ result s' hr
        cases hr
        exact ⟨block.cid, rfl, hjoins head' hs⟩
  · rw [hrun] at h
    subst h
    refine iff_of_true (Monotone.of_error rfl (hhist.trans hstore)) ?_
    rintro ⟨rfl, head', hs, -, -, -, found', c, block, c'', hanc', hstores⟩
    rw [hhead] at hs
    cases hs
    rw [hanc] at hanc'
    cases hanc'
    exact hnone (by decide) block c'' hstores

omit [Journaled C] in
theorem merge_of_not_ancestor {rounds : Nat} {head branchCid : Cid} {message : String}
    {author : Author} {strategy : MergeStrategy} {timestamp : UInt64} {s : VersionControl C}
    {store : C} (hhead : s.head = some head) (hne : head ≠ branchCid)
    (hanc : VersionControl.isAncestor rounds head branchCid s.store = some (.ok false store)) :
    VersionControl.merge rounds branchCid message author strategy timestamp s
      = some (VersionControl.mergeCommit head branchCid message author strategy timestamp
          { s with store }) := by
  rw [VersionControl.merge, hhead]
  simp only [if_neg hne, hanc]

/-- A merge leaves the root at HEAD or joins the two, exactly if it is not a three-way merge
of a commit behind HEAD. -/
theorem merge_monotone_iff [Oxicode.Lawful] {rounds : Nat} {branchCid : Cid} {message : String}
    {author : Author} {strategy : MergeStrategy} {timestamp : UInt64} {s : VersionControl C}
    {r : EStateM.Result Error (VersionControl C) MergeResult}
    (h : VersionControl.merge rounds branchCid message author strategy timestamp s = some r)
    (hfree : CollisionFree (history (finalState r).store))
    (hacyclic : ∀ a b, Reaches (history s.store) a b → Reaches (history s.store) b a → a = b) :
    Monotone branchCid strategy s r
      ↔ ¬ Undoes rounds branchCid message author strategy timestamp s := by
  rw [VersionControl.merge] at h
  cases hhead : s.head with
  | none =>
    refine iff_of_true ⟨fun _ hs => ?_, fun _ hs => ?_⟩ ?_
    · rw [hhead] at hs
      cases hs
    · rw [hhead] at hs
      cases hs
    · rintro ⟨-, head, hs, -⟩
      rw [hhead] at hs
      cases hs
  | some head =>
    rw [hhead] at h
    dsimp only at h
    by_cases hsame : head = branchCid
    · rw [if_pos hsame] at h
      cases h
      refine iff_of_true ⟨fun head' hs _ _ _ => ?_, fun head' hs hno => ?_⟩ ?_
      · show s.head.bind _ = _
        rw [hs]
        rfl
      · rw [hhead] at hs
        cases hs
        exact absurd (hsame ▸ Relation.ReflTransGen.refl) hno
      · rintro ⟨-, head', hs, hne, -⟩
        rw [hhead] at hs
        cases hs
        exact hne hsame
    · rw [if_neg hsame] at h
      cases hanc : VersionControl.isAncestor rounds head branchCid s.store with
      | none =>
        rw [hanc] at h
        cases h
      | some answer =>
        obtain ⟨hhist, hreach⟩ := isAncestor_spec hanc
        rw [hanc] at h
        cases answer with
        | error e store =>
          cases h
          refine iff_of_true (Monotone.of_error hhead.symm hhist) ?_
          rintro ⟨-, head', hs, -, -, -, _, _, _, _, hanc', -⟩
          rw [hhead] at hs
          cases hs
          rw [hanc] at hanc'
          cases hanc'
        | ok found store =>
          have hstore : history store = history s.store := hhist
          cases found with
          | true =>
            cases h
            have hback := hreach store rfl
            have hnot : ∀ head', s.head = some head' →
                ¬ Reaches (history s.store) head' branchCid := by
              intro head' hs hfwd
              rw [hhead] at hs
              cases hs
              exact hsame (hacyclic _ _ hfwd hback)
            refine iff_of_true ⟨fun head' hs hfwd => absurd hfwd (hnot head' hs), ?_⟩ ?_
            · rintro head' hs - result s' hr
              cases hr
              rw [hhead] at hs
              cases hs
              refine ⟨branchCid, rfl, ?_, Relation.ReflTransGen.refl⟩
              show Reaches (history store) branchCid head
              rwa [hstore]
            · rintro ⟨-, head', hs, -, hfwd, -⟩
              exact hnot head' hs hfwd
          | false =>
            dsimp only at h
            rw [← hhead] at h
            exact monotone_mergeCommit_iff hhead hsame hanc (Option.some.inj h) hfree

end

namespace Undone

open scoped CidFormat
open Sample (cid author)

/-- The second commit is HEAD, and the first is behind it. -/
def ahead : VersionControl MemoryBlockStore :=
  { VersionControl.new { blocks := [stored 1, stored 0] } with head := some (cid 1) }

theorem ahead_sub : ∀ b ∈ history ahead.store, b ∈ [stored 2, stored 1, stored 0] :=
  fun _ h => List.mem_cons_of_mem _ h

theorem ahead_parentIn {a p : Cid} (h : ParentIn (history ahead.store) a p) :
    a = cid 1 ∧ p = cid 0 := by
  obtain ⟨b, c, hfind, hfrom, hp⟩ := parentIn_iff.mp h
  have hb : b ∈ [stored 1, stored 0] := List.mem_of_find?_eq_some hfind
  have hcid : b.cid = a := by simpa using List.find?_some hfind
  simp only [List.mem_cons, List.not_mem_nil, or_false] at hb
  rcases hb with rfl | rfl
  · cases hfrom
    exact ⟨hcid.symm, List.mem_singleton.mp hp⟩
  · cases hfrom
    cases hp

theorem ahead_reaches {a b : Cid} (h : Reaches (history ahead.store) a b) :
    a = b ∨ a = cid 1 ∧ b = cid 0 := by
  induction h with
  | refl => exact .inl rfl
  | tail _ hstep ih =>
    obtain ⟨hb, hc⟩ := ahead_parentIn hstep
    rcases ih with rfl | ⟨-, hb'⟩
    · exact .inr ⟨hb, hc⟩
    · exact absurd (hb.symm.trans hb') cid_ne.2.1

theorem ahead_acyclic (a b : Cid) (h : Reaches (history ahead.store) a b)
    (h' : Reaches (history ahead.store) b a) : a = b := by
  rcases ahead_reaches h with heq | ⟨ha, hb⟩
  · exact heq
  · rcases ahead_reaches h' with heq | ⟨hb', -⟩
    · exact heq.symm
    · exact absurd (hb'.symm.trans hb) cid_ne.2.1

theorem ahead_load (what : String) {n : UInt8} {c : Commit}
    (hn : stored n ∈ [stored 1, stored 0]) (hc : Commit.fromBlock (stored n) = .ok c) :
    loadCommit what (cid n) ahead.store = .ok c ahead.store := by
  have hget : ColdStore.get (cid n) ahead.store = .ok (some (stored n)) ahead.store := by
    rw [← find_stored hn ahead_sub]
    rfl
  rw [show loadCommit what (cid n) ahead.store = _ from run_bind_ok hget]
  simp only [hc, liftExcept]
  rfl

theorem ahead_isAncestor :
    VersionControl.isAncestor 2 (cid 1) (cid 0) ahead.store = some (.ok false ahead.store) := by
  have hne := cid_ne.2.1
  have hload := ahead_load "Commit not found: " (n := 0) (by simp) rfl
  rw [VersionControl.isAncestor, if_neg hne]
  simp [Loop.run, VersionControl.ancestorBody, hload, hne.symm]

theorem ahead_stores : StoresMerge (cid 1) (cid 0) "merge" author .threeWay 3 ahead.store
    (stored 2) merged := by
  have hfind : commits.findIdx? (fun c => c == joining) = some 2 := by decide +kernel
  have hencode : Oxicode.encodeCommit joining = .ok [2] := by
    simp only [Oxicode.encodeCommit, hfind]
    rfl
  refine ⟨_, _, _, _, ahead_load _ (n := 1) (by simp) rfl, ahead_load _ (n := 0) (by simp) rfl,
    ?_, rfl⟩
  show joining.toBlock = _
  have hnew : Block.new [2] = .ok (stored 2) := Block.new_eq_ok.mpr ⟨by decide, rfl⟩
  rw [Commit.toBlock, hencode]
  exact hnew

theorem ahead_run : VersionControl.merge 2 (cid 0) "merge" author .threeWay 3 ahead
    = some (.ok (.mergeCommit (cid 2)) { ahead with
        store := merged, head := some (cid 2)
        refsCache := Function.update ahead.refsCache "main" (some (cid 2)) }) := by
  rw [merge_of_not_ancestor rfl cid_ne.2.1 ahead_isAncestor]
  obtain ⟨headCommit, c₁, branchCommit, c₂, h₁, h₂, hblock, hput⟩ := ahead_stores
  rcases mergeCommit_cases (cid 1) (cid 0) "merge" author .threeWay 3 ahead
    with ⟨-, block, c', ⟨_, _, _, _, h₁', h₂', hblock', hput'⟩, hrun⟩ | ⟨hnone, -⟩
  · rw [h₁] at h₁'
    cases h₁'
    rw [h₂] at h₂'
    cases h₂'
    rw [hblock] at hblock'
    cases hblock'
    rw [hput] at hput'
    cases hput'
    exact congrArg some hrun
  · exact absurd ⟨headCommit, c₁, branchCommit, c₂, h₁, h₂, hblock, hput⟩
      (hnone (by decide) (stored 2) merged)

theorem merge_monotone_iff_ahead :
    ∃ r, VersionControl.merge 2 (cid 0) "merge" author .threeWay 3 ahead = some r
      ∧ (Monotone (cid 0) .threeWay ahead r
        ↔ ¬ Undoes 2 (cid 0) "merge" author .threeWay 3 ahead) :=
  ⟨_, ahead_run, merge_monotone_iff ahead_run collisionFree ahead_acyclic⟩

/-- Merging the commit behind HEAD makes a commit with its root. -/
theorem not_merge_monotone :
    ∃ r, VersionControl.merge 2 (cid 0) "merge" author .threeWay 3 ahead = some r
      ∧ Reaches (history ahead.store) (cid 1) (cid 0) ∧ ¬ Monotone (cid 0) .threeWay ahead r := by
  have hback : Reaches (history ahead.store) (cid 1) (cid 0) := by
    refine Relation.ReflTransGen.single ?_
    have hmem : stored 1 ∈ history ahead.store := List.mem_cons_self
    rw [ParentIn, parentsOf_stored hmem ahead_sub rfl]
    exact List.mem_singleton.mpr rfl
  refine ⟨_, ahead_run, hback, fun h => ?_⟩
  have hroots := h.upToDate (cid 1) rfl hback (by decide) (by decide)
  have hnew : rootOf (history merged) (cid 2) = some (cid 8) := by
    have hfind : (history merged).find? (fun b => b.cid == cid 2) = some (stored 2) :=
      find_stored List.mem_cons_self (fun _ h => h)
    rw [rootOf, hfind]
    rfl
  have hold : rootOf (history ahead.store) (cid 1) = some (cid 9) :=
    rootOf_load (ahead_load "" (n := 1) (by simp) rfl)
  simp only [finalState, Option.bind_some, hnew, hold] at hroots
  exact cid_ne.1 (Option.some.inj hroots)

end Undone

/-! ## Failed calls -/

section

variable {C : Type} [ColdStore C] [CidCrate] [CidStream] [Oxicode]

/-- If the call failed, HEAD, the current branch and the refs are as in `s`. -/
def Traceless {α : Type} (s : VersionControl C) :
    EStateM.Result Error (VersionControl C) α → Prop
  | .ok _ _ => True
  | .error _ s' =>
    s'.head = s.head ∧ s'.currentBranch = s.currentBranch ∧ s'.refsCache = s.refsCache

/-- The ref cannot be encoded, or the store does not take its block. -/
def RefLost (store : C) (ref : Ref) : Prop :=
  (∃ e, ref.toBlock = .error e)
    ∨ ∃ block e store', ref.toBlock = .ok block ∧ ColdStore.put block store = .error e store'

namespace Call

/-- The call leaves no trace if it fails. -/
def Atomic (s : VersionControl C) : Call → Prop
  | .commit root message author metadata timestamp =>
    Traceless s (VersionControl.commit root message author metadata timestamp s)
  | .checkout cid => Traceless s (VersionControl.checkout cid s)
  | .checkoutRef name => Traceless s (VersionControl.checkoutRef name s)
  | .createBranch name => Traceless s (VersionControl.createBranch name s)
  | .createTag name => Traceless s (VersionControl.createTag name s)
  | .merge branchCid message author strategy timestamp =>
    ∀ rounds r,
      VersionControl.merge rounds branchCid message author strategy timestamp s = some r →
        Traceless s r
  | .mergeBranch name message author strategy timestamp =>
    ∀ rounds r,
      VersionControl.mergeBranch rounds name message author strategy timestamp s = some r →
        Traceless s r
  | .storeBlock block => Traceless s (onStore (ColdStore.put block) s)

/-- A commit is stored and its ref is lost; a branch is checked out whose commit cannot be
loaded; a ref is created and lost: each where the state was not so already. -/
def LeavesTrace (s : VersionControl C) : Call → Prop
  | .commit root message author metadata timestamp =>
    ∃ block store,
      ({ parents := s.head.toList, root, message, author, timestamp, metadata } : Commit).toBlock
          = .ok block
        ∧ ColdStore.put block s.store = .ok () store
        ∧ RefLost store { name := s.currentBranch, commit := block.cid, refType := .branch }
        ∧ ¬ (s.head = some block.cid ∧ s.refsCache s.currentBranch = some block.cid)
  | .checkoutRef name =>
    ∃ commit e store, s.refsCache name = some commit
      ∧ VersionControl.looksLikeTag name = false ∧ name ≠ s.currentBranch
      ∧ loadCommit "Commit not found: " commit s.store = .error e store
  | .createBranch name =>
    ∃ head, s.head = some head ∧ s.refsCache name ≠ some head
      ∧ RefLost s.store { name, commit := head, refType := .branch }
  | .createTag name =>
    ∃ head, s.head = some head ∧ s.refsCache name ≠ some head
      ∧ RefLost s.store { name, commit := head, refType := .tag }
  | _ => False

end Call

omit [CidStream] in
/-- A ref that is lost is in the table nevertheless. -/
theorem updateRef_cases (name : String) (commit : Cid) (refType : RefType) (s : VersionControl C) :
    (¬ RefLost s.store { name, commit, refType }
        ∧ ∃ s', VersionControl.updateRef name commit refType s = .ok () s')
      ∨ (RefLost s.store { name, commit, refType }
        ∧ ∃ e store, VersionControl.updateRef name commit refType s = .error e { s with
              store, refsCache := Function.update s.refsCache name (some commit) }) := by
  rw [VersionControl.updateRef, run_bind_ok (run_modify _ s), RefLost]
  cases hblock : Ref.toBlock { name, commit, refType } with
  | error e => exact .inr ⟨.inl ⟨e, rfl⟩, e, s.store, rfl⟩
  | ok block =>
    rw [run_bind_ok (run_liftExcept_ok block)]
    cases hput : ColdStore.put block s.store with
    | ok a store =>
      refine .inl ⟨?_, _, onStore_ok hput⟩
      rintro (⟨e, he⟩ | ⟨block', e, store', hb, hp⟩)
      · cases he
      · cases hb
        rw [hput] at hp
        cases hp
    | error e store =>
      exact .inr ⟨.inr ⟨block, e, store, rfl, hput⟩, e, store, onStore_error hput⟩

omit [CidStream] in
/-- What a call that ends with a ref leaves when it fails. -/
theorem traceless_updateRef_iff (name : String) (commit : Cid) (refType : RefType)
    (s t : VersionControl C) (hbranch : t.currentBranch = s.currentBranch) :
    Traceless s (VersionControl.updateRef name commit refType t)
      ↔ ¬ (RefLost t.store { name, commit, refType }
        ∧ ¬ (t.head = s.head ∧ Function.update t.refsCache name (some commit) = s.refsCache)) := by
  rcases updateRef_cases name commit refType t with ⟨hnot, s', hrun⟩ | ⟨hlost, e, store, hrun⟩
  · rw [hrun]
    exact iff_of_true trivial (fun h => hnot h.1)
  · rw [hrun]
    simp [Traceless, hlost, hbranch]

omit [ColdStore C] [CidCrate] [CidStream] [Oxicode] in
theorem traceless_bind_pure {α β : Type} (s t : VersionControl C)
    (x : EStateM Error (VersionControl C) α) (f : α → β) :
    Traceless s ((x >>= fun a => pure (f a)) t) ↔ Traceless s (x t) := by
  cases hx : x t with
  | ok a t' => rw [run_bind_ok hx]; exact Iff.rfl
  | error e t' => rw [run_bind_error hx]; exact Iff.rfl

omit [ColdStore C] [CidCrate] [CidStream] [Oxicode] in
/-- A failed call of the store leaves no trace here. -/
theorem onStore_cases {α : Type} (m : EStateM Error C α) (s : VersionControl C) :
    (∃ a store, m s.store = .ok a store ∧ onStore m s = .ok a { s with store })
      ∨ ∃ e store, m s.store = .error e store ∧ onStore m s = .error e { s with store } := by
  cases h : m s.store with
  | ok a store => exact .inl ⟨a, store, rfl, onStore_ok h⟩
  | error e store => exact .inr ⟨e, store, rfl, onStore_error h⟩

omit [ColdStore C] [CidCrate] [CidStream] [Oxicode] in
theorem traceless_onStore {α : Type} (m : EStateM Error C α) (s : VersionControl C) :
    Traceless s (onStore m s) := by
  rcases onStore_cases m s with ⟨a, store, -, hrun⟩ | ⟨e, store, -, hrun⟩
  · rw [hrun]
    trivial
  · rw [hrun]
    exact ⟨rfl, rfl, rfl⟩

omit [CidCrate] in
theorem traceless_checkout (s : VersionControl C) (cid : Cid) :
    Traceless s (VersionControl.checkout cid s) := by
  rw [VersionControl.checkout]
  rcases onStore_cases (loadCommit "Commit not found: " cid) s
    with ⟨c, store, -, hrun⟩ | ⟨e, store, -, hrun⟩
  · rw [run_bind_ok hrun]
    trivial
  · rw [run_bind_error hrun]
    exact ⟨rfl, rfl, rfl⟩

theorem traceless_mergeCommit (s : VersionControl C) (store : C) (head branchCid : Cid)
    (message : String) (author : Author) (strategy : MergeStrategy) (timestamp : UInt64) :
    Traceless s (VersionControl.mergeCommit head branchCid message author strategy timestamp
      { s with store }) := by
  rcases mergeCommit_cases head branchCid message author strategy timestamp { s with store }
    with ⟨-, block, store', -, hrun⟩ | ⟨-, e, store', hrun, -⟩
  · rw [hrun]
    trivial
  · rw [hrun]
    exact ⟨rfl, rfl, rfl⟩

/-- A merge moves HEAD and the ref when nothing can fail any more. -/
theorem traceless_merge {rounds : Nat} {branchCid : Cid} {message : String} {author : Author}
    {strategy : MergeStrategy} {timestamp : UInt64} {s : VersionControl C}
    {r : EStateM.Result Error (VersionControl C) MergeResult}
    (h : VersionControl.merge rounds branchCid message author strategy timestamp s = some r) :
    Traceless s r := by
  unfold VersionControl.merge at h
  split at h
  · cases h
    exact ⟨rfl, rfl, rfl⟩
  · split at h
    · cases h
      trivial
    · split at h
      · cases h
      · cases h
        exact ⟨rfl, rfl, rfl⟩
      · cases h
        trivial
      · cases h
        exact traceless_mergeCommit ..

omit [CidStream] in
theorem traceless_createRef_iff (refType : RefType) (name : String) (s : VersionControl C) :
    Traceless s (VersionControl.createRef refType name s)
      ↔ ¬ ∃ head, s.head = some head ∧ s.refsCache name ≠ some head
        ∧ RefLost s.store { name, commit := head, refType } := by
  rw [VersionControl.createRef, run_bind_ok (run_get _)]
  cases hhead : s.head with
  | none => exact iff_of_true ⟨rfl, rfl, rfl⟩ (by rintro ⟨head, h, -⟩; cases h)
  | some head =>
    rw [traceless_updateRef_iff name head refType s s rfl, not_iff_not]
    simp only [true_and, Function.update_eq_self_iff]
    constructor
    · rintro ⟨hlost, hne⟩
      exact ⟨head, rfl, fun h => hne h.symm, hlost⟩
    · rintro ⟨head', heq, hne, hlost⟩
      cases heq
      exact ⟨hlost, fun h => hne h.symm⟩

omit [ColdStore C] [CidCrate] [CidStream] [Oxicode] in
theorem getRef_cases (name : String) (s : VersionControl C) :
    (s.refsCache name = none ∧ ∃ e, VersionControl.getRef name s = .error e s)
      ∨ ∃ commit, s.refsCache name = some commit ∧ VersionControl.getRef name s
          = .ok { name, commit,
                  refType := if VersionControl.looksLikeTag name then .tag else .branch } s := by
  rw [VersionControl.getRef, run_bind_ok (run_get _)]
  cases href : s.refsCache name with
  | none => exact .inl ⟨rfl, _, rfl⟩
  | some commit => exact .inr ⟨commit, rfl, rfl⟩

theorem traceless_commit_iff (root : Cid) (message : String) (author : Author)
    (metadata : List (String × String)) (timestamp : UInt64) (s : VersionControl C) :
    Traceless s (VersionControl.commit root message author metadata timestamp s)
      ↔ ¬ Call.LeavesTrace s (.commit root message author metadata timestamp) := by
  rw [VersionControl.commit, run_bind_ok (run_get _)]
  simp only [Call.LeavesTrace]
  rcases storeCommit_run
    { parents := s.head.toList, root, message, author, timestamp, metadata } s
    with ⟨block, store, hblock, hput, hrun⟩ | ⟨hnone, e, store, hrun, -⟩
  · rw [run_bind_ok hrun, run_bind_ok (run_modify _ _), traceless_bind_pure _ _ _ (fun _ => _),
      traceless_updateRef_iff s.currentBranch block.cid .branch s
        { s with store, head := some block.cid } rfl, not_iff_not]
    simp only [Function.update_eq_self_iff]
    constructor
    · rintro ⟨hlost, hnew⟩
      exact ⟨block, store, hblock, hput, hlost, fun h => hnew ⟨h.1.symm, h.2.symm⟩⟩
    · rintro ⟨block', store', hblock', hput', hlost, hnew⟩
      rw [hblock] at hblock'
      cases hblock'
      rw [hput] at hput'
      cases hput'
      exact ⟨hlost, fun h => hnew ⟨h.1.symm, h.2.symm⟩⟩
  · rw [run_bind_error hrun]
    refine iff_of_true ⟨rfl, rfl, rfl⟩ ?_
    rintro ⟨block, store, hblock, hput, -⟩
    exact hnone block store hblock hput

theorem traceless_checkoutRef_iff (name : String) (s : VersionControl C) :
    Traceless s (VersionControl.checkoutRef name s) ↔ ¬ Call.LeavesTrace s (.checkoutRef name) := by
  rw [VersionControl.checkoutRef]
  simp only [Call.LeavesTrace]
  rcases getRef_cases name s with ⟨hnone, e, hget⟩ | ⟨commit, href, hget⟩
  · rw [run_bind_error hget]
    refine iff_of_true ⟨rfl, rfl, rfl⟩ ?_
    rintro ⟨commit, e, store, href, -⟩
    rw [hnone] at href
    cases href
  · rw [run_bind_ok hget]
    cases htag : VersionControl.looksLikeTag name with
    | true =>
      refine iff_of_true (traceless_checkout s commit) ?_
      rintro ⟨-, -, -, -, hbranch, -⟩
      cases hbranch
    | false =>
      simp only [Bool.false_eq_true, if_false, if_true, run_bind_ok (run_modify _ s), href,
        Option.some.injEq, true_and]
      rw [VersionControl.checkout]
      rcases onStore_cases (loadCommit "Commit not found: " commit)
        { s with currentBranch := name } with ⟨c, store, hload, hrun⟩ | ⟨e, store, hload, hrun⟩
      · rw [run_bind_ok hrun]
        refine iff_of_true trivial ?_
        rintro ⟨commit', e, store', rfl, -, hfailed⟩
        rw [hload] at hfailed
        cases hfailed
      · rw [run_bind_error hrun]
        simp only [Traceless, and_true, true_and]
        constructor
        · rintro hsame ⟨-, -, -, -, hne, -⟩
          exact hne hsame
        · intro hno
          by_contra hne
          exact hno ⟨commit, e, store, rfl, hne, hload⟩

/-- A failed call leaves HEAD, the current branch and the refs as they were, exactly if it
is none of those that change them before they can fail. -/
theorem atomic_iff (s : VersionControl C) (call : Call) : call.Atomic s ↔ ¬ call.LeavesTrace s := by
  cases call with
  | commit root message author metadata timestamp =>
    exact traceless_commit_iff root message author metadata timestamp s
  | checkout cid =>
    exact iff_of_true (traceless_checkout s cid) id
  | checkoutRef name => exact traceless_checkoutRef_iff name s
  | createBranch name => exact traceless_createRef_iff .branch name s
  | createTag name => exact traceless_createRef_iff .tag name s
  | merge branchCid message author strategy timestamp =>
    exact iff_of_true (fun rounds r h => traceless_merge h) id
  | mergeBranch name message author strategy timestamp =>
    refine iff_of_true (fun rounds r h => ?_) id
    rw [VersionControl.mergeBranch] at h
    rcases getRef_cases name s with ⟨-, e, hget⟩ | ⟨commit, -, hget⟩
    · rw [hget] at h
      cases h
      exact ⟨rfl, rfl, rfl⟩
    · rw [hget] at h
      exact traceless_merge h
  | storeBlock block =>
    exact iff_of_true (traceless_onStore (ColdStore.put block) s) id

end

section

open scoped CidFormat
open Sample

/-- The next call of the store fails. -/
private def failingNext : VersionControl FaultyStore :=
  { VersionControl.new { blocks := [], faults := [true] } with head := some (cid 0) }

/-- The branch is there although `create_branch` has failed. -/
theorem not_atomic_createBranch : ¬ (Call.createBranch "b").Atomic failingNext := by
  intro h
  have hrefs : Function.update (fun _ => none) "b" (some (cid 0)) = fun _ => none := h.2.2
  cases congrFun hrefs "b"

end

end Ipfrs.Storage.Vcs
