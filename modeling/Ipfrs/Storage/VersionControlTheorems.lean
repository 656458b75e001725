/-
Ipfrs.Storage.VersionControlTheorems — what a history of calls keeps.

Blocks are never lost, so what a commit reaches stays reachable from it
(`Reaches.mono`). A call moves at most one ref, to a commit from which its sources can
be reached: HEAD for a commit, a branch or a tag, both sides for a merge
(`Moves`). A commit is lost when the tip moved away from is among neither these nor
what another ref reaches, and a tag moves when it is the current branch.
-/
import Ipfrs.Storage.VersionControl

namespace Ipfrs.Storage.Vcs

open Ipfrs.Core Ipfrs.Lib
open Ipfrs.Knowledge (ColdStore MemoryBlockStore)
open Journaled (history)

/-! ## Reachability -/

section Reach

variable [Oxicode]

/-- The parents of the commit stored under `a`, none if there is no such commit. -/
def parentsOf (blocks : List Block) (a : Cid) : List Cid :=
  match blocks.find? (fun b => b.cid == a) with
  | none => []
  | some b =>
    match Commit.fromBlock b with
    | .ok c => c.parents
    | .error _ => []

def ParentIn (blocks : List Block) (a p : Cid) : Prop := p ∈ parentsOf blocks a

def Reaches (blocks : List Block) : Cid → Cid → Prop := Relation.ReflTransGen (ParentIn blocks)

theorem parentIn_iff {blocks : List Block} {a p : Cid} : ParentIn blocks a p
      ↔ ∃ b c, blocks.find? (fun b => b.cid == a) = some b ∧ Commit.fromBlock b = .ok c
        ∧ p ∈ c.parents := by
  rw [ParentIn, parentsOf]
  cases blocks.find? (fun b => b.cid == a) with
  | none => simp
  | some b => cases hc : Commit.fromBlock b <;> simp [hc]

theorem parentIn_of_mem {blocks : List Block} (hfree : CollisionFree blocks) {b : Block}
    {c : Commit} {p : Cid} (hb : b ∈ blocks) (hc : Commit.fromBlock b = .ok c)
    (hp : p ∈ c.parents) : ParentIn blocks b.cid p :=
  parentIn_iff.mpr ⟨b, c, hfree.find? hb, hc, hp⟩

theorem ParentIn.mono {blocks blocks' : List Block} (hfree : CollisionFree blocks')
    (hsub : ∀ b ∈ blocks, b ∈ blocks') {a p : Cid} (h : ParentIn blocks a p) :
    ParentIn blocks' a p := by
  obtain ⟨b, c, hfind, hc, hp⟩ := parentIn_iff.mp h
  have hcid : b.cid = a := by simpa using List.find?_some hfind
  subst hcid
  exact parentIn_of_mem hfree (hsub b (List.mem_of_find?_eq_some hfind)) hc hp

theorem Reaches.mono {blocks blocks' : List Block} (hfree : CollisionFree blocks')
    (hsub : ∀ b ∈ blocks, b ∈ blocks') {a p : Cid} (h : Reaches blocks a p) : Reaches blocks' a p :=
  Relation.ReflTransGen.mono (fun _ _ => ParentIn.mono hfree hsub) _ _ h

/-- What is closed under parents is not left. -/
theorem Reaches.mem_of_closed {blocks : List Block} {S : List Cid} {a p : Cid}
    (h : Reaches blocks a p) (hclosed : ∀ b ∈ S, ∀ q ∈ parentsOf blocks b, q ∈ S) (ha : a ∈ S) :
    p ∈ S := by
  induction h with
  | refl => exact ha
  | tail _ hstep ih => exact hclosed _ ih _ hstep

end Reach

section

variable {C : Type} [ColdStore C] [Journaled C] [CidCrate] [CidStream] [Oxicode]

/-! ## What the parts of a call do -/

/-- The store of `s'` has all the blocks of the store of `s`. -/
def Kept (s s' : VersionControl C) : Prop := ∀ b ∈ history s.store, b ∈ history s'.store

variable {s s' : VersionControl C}

omit [CidCrate] [CidStream] [Oxicode] in
theorem Kept.of_eq (h : history s'.store = history s.store) : Kept s s' := by
  intro b hb
  rwa [h]

omit [CidCrate] [CidStream] [Oxicode] in
theorem Kept.trans {s'' : VersionControl C} (h : Kept s s') (h' : Kept s' s'') : Kept s s'' :=
  fun b hb => h' b (h b hb)

omit [CidCrate] [CidStream] [Oxicode] in
theorem put_cases (b : Block) (s : VersionControl C) :
    ∃ store, (onStore (ColdStore.put b) s = .ok () { s with store }
          ∧ history store = b :: history s.store)
      ∨ ∃ e, onStore (ColdStore.put b) s = .error e { s with store }
          ∧ history store = history s.store := by
  cases h : ColdStore.put b s.store with
  | ok a store => exact ⟨store, .inl ⟨by rw [onStore, h], Journaled.put_ok h⟩⟩
  | error e store => exact ⟨store, .inr ⟨e, by rw [onStore, h], Journaled.put_error h⟩⟩

omit [CidCrate] in
theorem loadCommit_cases (what : String) (cid : Cid) (store : C) :
    ∃ store', history store' = history store ∧ ((∃ b c, loadCommit what cid store = .ok c store'
            ∧ (history store).find? (fun b => b.cid == cid) = some b ∧ Commit.fromBlock b = .ok c)
          ∨ ∃ e, loadCommit what cid store = .error e store') := by
  cases h : ColdStore.get cid store with
  | error e store' =>
    exact ⟨store', Journaled.get_error h, .inr ⟨e, run_bind_error h⟩⟩
  | ok r store' =>
    obtain ⟨hr, hhist⟩ := Journaled.get_ok h
    refine ⟨store', hhist, ?_⟩
    have hload : loadCommit what cid store = _ := run_bind_ok h
    rw [hload]
    cases r with
    | none => exact .inr ⟨_, rfl⟩
    | some b =>
      cases hc : Commit.fromBlock b with
      | ok c => exact .inl ⟨b, c, by simp only [hc, liftExcept]; rfl, hr.symm, hc⟩
      | error e => exact .inr ⟨e, by simp only [hc, liftExcept]; rfl⟩

omit [CidCrate] in
theorem onStore_load_cases (what : String) (cid : Cid) (s : VersionControl C) :
    ∃ store, history store = history s.store
      ∧ ((∃ c, onStore (loadCommit what cid) s = .ok c { s with store })
          ∨ ∃ e, onStore (loadCommit what cid) s = .error e { s with store }) := by
  obtain ⟨store, hhist, ⟨b, c, hload, -, -⟩ | ⟨e, hload⟩⟩ := loadCommit_cases what cid s.store
  · exact ⟨store, hhist, .inl ⟨c, by rw [onStore, hload]⟩⟩
  · exact ⟨store, hhist, .inr ⟨e, by rw [onStore, hload]⟩⟩

/-- Nothing of `s` is lost from the store, and the table is `refs`. -/
def Frame (s : VersionControl C) (refs : String → Option Cid) (s' : VersionControl C) : Prop :=
  Kept s s' ∧ s'.refsCache = refs

omit [CidCrate] [CidStream] [Oxicode] in
theorem Frame.refl (s : VersionControl C) : Frame s s.refsCache s := ⟨Kept.of_eq rfl, rfl⟩

omit [CidCrate] [CidStream] [Oxicode] in
theorem keeps_put (s : VersionControl C) (refs : String → Option Cid) (b : Block) :
    Keeps (Frame s refs) (onStore (ColdStore.put b)) := by
  rintro t ⟨hkept, hrefs⟩
  obtain ⟨store, ⟨hput, hhist⟩ | ⟨e, hput, hhist⟩⟩ := put_cases b t
  · rw [hput]
    refine ⟨fun b hb => ?_, hrefs⟩
    show b ∈ history store
    rw [hhist]
    exact List.mem_cons_of_mem _ (hkept b hb)
  · rw [hput]
    exact ⟨hkept.trans (Kept.of_eq hhist), hrefs⟩

omit [CidCrate] in
theorem keeps_load (s : VersionControl C) (refs : String → Option Cid) (what : String)
    (cid : Cid) : Keeps (Frame s refs) (onStore (loadCommit what cid)) := by
  rintro t ⟨hkept, hrefs⟩
  obtain ⟨store, hhist, ⟨c, hload⟩ | ⟨e, hload⟩⟩ := onStore_load_cases what cid t
  · rw [hload]
    exact ⟨hkept.trans (Kept.of_eq hhist), hrefs⟩
  · rw [hload]
    exact ⟨hkept.trans (Kept.of_eq hhist), hrefs⟩

omit [CidStream] in
theorem updateRef_spec (name : String) (commit : Cid) (refType : RefType) {t : VersionControl C}
    (h : Kept s t) :
    Frame s (Function.update t.refsCache name (some commit))
      (finalState (VersionControl.updateRef name commit refType t)) := by
  rw [VersionControl.updateRef, run_bind_ok (run_modify _ t)]
  exact Keeps.bind (Keeps.lift _) (fun b => keeps_put s _ b) _ ⟨h, rfl⟩

/-! ## What a call does -/

/-- The table is as before, or one ref has moved to a commit that reaches `sources`. -/
def Moves (s s' : VersionControl C) (name : String) (sources : List Cid) : Prop :=
  s'.refsCache = s.refsCache
    ∨ ∃ target, s'.refsCache = Function.update s.refsCache name (some target)
        ∧ ∀ a ∈ sources, Reaches (history s'.store) target a

omit [CidStream] in
theorem fromBlock_toBlock [Oxicode.Lawful] {c : Commit} {b : Block} (hb : c.toBlock = .ok b) :
    ∃ metadata, Commit.fromBlock b = .ok { c with metadata } := by
  rw [Commit.toBlock] at hb
  obtain ⟨bytes, henc, hnew⟩ := bind_eq_ok.mp hb
  obtain ⟨-, rfl⟩ := Block.new_eq_ok.mp hnew
  obtain ⟨metadata, -, hdec⟩ := Oxicode.Lawful.decode_encode c bytes (mapError_eq_ok.mp henc)
  refine ⟨metadata, ?_⟩
  rw [Commit.fromBlock, hdec]
  rfl

omit [CidStream] in
/-- A new commit reaches its parents. -/
theorem reaches_parents [Oxicode.Lawful] {c : Commit} {b : Block} {blocks : List Block}
    (hb : c.toBlock = .ok b) (hfree : CollisionFree blocks) (hmem : b ∈ blocks) :
    ∀ p ∈ c.parents, Reaches blocks b.cid p := by
  intro p hp
  obtain ⟨metadata, hfrom⟩ := fromBlock_toBlock hb
  exact Relation.ReflTransGen.single (parentIn_of_mem hfree hmem hfrom hp)

section

omit [Journaled C] [CidCrate] [CidStream] [Oxicode] [ColdStore C]

@[simp] theorem run_liftExcept_ok {α : Type} {s : VersionControl C} (a : α) :
    (liftExcept (.ok a : Except Error α) : EStateM Error (VersionControl C) α) s = .ok a s := rfl

end

omit [CidStream] in
theorem storeCommit_cases (c : Commit) (s : VersionControl C) : ∃ store, (∃ b, c.toBlock = .ok b
          ∧ VersionControl.storeCommit c s = .ok b.cid { s with store }
          ∧ history store = b :: history s.store)
      ∨ ∃ e, VersionControl.storeCommit c s = .error e { s with store }
          ∧ history store = history s.store := by
  rw [VersionControl.storeCommit]
  cases hblock : c.toBlock with
  | error e =>
    refine ⟨s.store, .inr ⟨e, ?_, rfl⟩⟩
    rw [Commit.finalize, hblock]
    rfl
  | ok b =>
    have hfin : c.finalize = .ok b.cid := by rw [Commit.finalize, hblock, ok_bind]
    rw [hfin, run_bind_ok (run_liftExcept_ok _), run_bind_ok (run_liftExcept_ok _)]
    obtain ⟨store, ⟨hput, hhist⟩ | ⟨e, hput, hhist⟩⟩ := put_cases b s
    · exact ⟨store, .inl ⟨b, rfl, run_bind_ok hput, hhist⟩⟩
    · exact ⟨store, .inr ⟨e, run_bind_error hput, hhist⟩⟩

omit [CidStream] in
theorem commit_spec [Oxicode.Lawful] (root : Cid) (message : String) (author : Author)
    (metadata : List (String × String)) (timestamp : UInt64)
    (hs' : finalState (VersionControl.commit root message author metadata timestamp s) = s')
    (hfree : CollisionFree (history s'.store)) :
    Kept s s' ∧ Moves s s' s.currentBranch s.head.toList := by
  rw [VersionControl.commit, run_bind_ok (run_get _)] at hs'
  obtain ⟨store, ⟨b, hblock, hrun, hhist⟩ | ⟨e, hrun, hhist⟩⟩ := storeCommit_cases
    { parents := s.head.toList, root, message, author, timestamp, metadata } s
  · rw [run_bind_ok hrun, run_bind_ok (run_modify _ _), finalState_bind_pure _ (fun _ => b.cid)]
      at hs'
    obtain ⟨hkept, hrefs⟩ := updateRef_spec s.currentBranch b.cid .branch
      (Kept.of_eq (s := { s with store, head := some b.cid }) rfl)
    rw [hs'] at hkept hrefs
    have hblocks : ∀ x ∈ b :: history s.store, x ∈ history s'.store := by
      intro x hx
      rw [← hhist] at hx
      exact hkept x hx
    exact ⟨fun x hx => hblocks x (List.mem_cons_of_mem _ hx), .inr ⟨b.cid, hrefs,
      reaches_parents hblock hfree (hblocks b List.mem_cons_self)⟩⟩
  · rw [run_bind_error hrun] at hs'
    subst hs'
    exact ⟨Kept.of_eq hhist, .inl rfl⟩

omit [CidCrate] in
theorem keeps_checkout (s : VersionControl C) (refs : String → Option Cid) (cid : Cid) :
    Keeps (Frame s refs) (VersionControl.checkout cid) := by
  have hmod : Keeps (Frame s refs) (modify (fun s => { s with head := some cid })
      : EStateM Error (VersionControl C) Unit) := Keeps.modify (fun _ h => h)
  rw [VersionControl.checkout]
  exact Keeps.bind (keeps_load s refs _ cid) (fun _ => Keeps.bind hmod (fun _ => Keeps.pure _))

omit [CidCrate] in
theorem keeps_checkoutRef (s : VersionControl C) (refs : String → Option Cid) (name : String) :
    Keeps (Frame s refs) (VersionControl.checkoutRef name) := by
  have hget : Keeps (Frame s refs) (VersionControl.getRef name) := by
    intro t ht
    rw [VersionControl.getRef, run_bind_ok (run_get _)]
    cases t.refsCache name <;> exact ht
  have hmod : Keeps (Frame s refs) (modify (fun s => { s with currentBranch := name })
      : EStateM Error (VersionControl C) Unit) := Keeps.modify (fun _ h => h)
  rw [VersionControl.checkoutRef]
  refine Keeps.bind hget (fun ref => ?_)
  by_cases hbranch : ref.refType = .branch
  · rw [if_pos hbranch]
    exact Keeps.bind hmod (fun _ => keeps_checkout s refs ref.commit)
  · rw [if_neg hbranch]
    exact keeps_checkout s refs ref.commit

omit [CidStream] in
theorem createRef_spec (refType : RefType) (name : String) (s : VersionControl C) :
    Kept s (finalState (VersionControl.createRef refType name s))
      ∧ Moves s (finalState (VersionControl.createRef refType name s)) name s.head.toList := by
  rw [VersionControl.createRef, run_bind_ok (run_get _)]
  cases hhead : s.head with
  | none => exact ⟨Kept.of_eq rfl, .inl rfl⟩
  | some head =>
    obtain ⟨hkept, hrefs⟩ := updateRef_spec name head refType (Kept.of_eq (s := s) rfl)
    refine ⟨hkept, .inr ⟨head, hrefs, ?_⟩⟩
    intro a ha
    rw [List.mem_singleton.mp ha]
    exact Relation.ReflTransGen.refl

/-- The commits in the queue can be reached from where the walk began. -/
def WalkInv (store : C) (descendant : Cid) (w : VersionControl.Walk C) : Prop :=
  history w.store = history store ∧ ∀ cid ∈ w.queue, Reaches (history store) descendant cid

omit [CidCrate] in
/-- One round keeps the invariant, and `true` is answered at the ancestor only. -/
theorem ancestorBody_spec {store : C} (ancestor : Cid) {descendant : Cid}
    {w : VersionControl.Walk C} (h : WalkInv store descendant w) :
    match VersionControl.ancestorBody ancestor w with
    | .inl w' => WalkInv store descendant w'
    | .inr r => history (finalState r) = history store
        ∧ ∀ store', r = .ok true store' → Reaches (history store) descendant ancestor := by
  obtain ⟨visited, queue, st⟩ := w
  obtain ⟨hstore, hqueue⟩ := h
  cases queue with
  | nil => exact ⟨hstore, fun _ hr => by cases hr⟩
  | cons cid queue =>
    have hcid := hqueue cid List.mem_cons_self
    have hrest : ∀ c ∈ queue, Reaches (history store) descendant c :=
      fun c hc => hqueue c (List.mem_cons_of_mem _ hc)
    rw [VersionControl.ancestorBody]
    by_cases hvisited : cid ∈ visited
    · simp only [hvisited, if_true]
      exact ⟨hstore, hrest⟩
    · by_cases hanc : cid = ancestor
      · dsimp only
        rw [if_neg hvisited, if_pos hanc]
        exact ⟨hstore, fun _ _ => hanc ▸ hcid⟩
      · dsimp only
        rw [if_neg hvisited, if_neg hanc]
        obtain ⟨st', hhist, ⟨b, c, hload, hfind, hfrom⟩ | ⟨e, hload⟩⟩ :=
          loadCommit_cases "Commit not found: " cid st
        · rw [hload]
          refine ⟨hhist.trans hstore, ?_⟩
          intro p hp
          rcases List.mem_append.mp hp with hp | hp
          · rw [hstore] at hfind
            exact hcid.tail (parentIn_iff.mpr ⟨b, c, hfind, hfrom, List.mem_reverse.mp hp⟩)
          · exact hrest p hp
        · rw [hload]
          exact ⟨hhist.trans hstore, fun _ hr => by cases hr⟩

omit [CidCrate] in
/-- `is_ancestor` answers `true` only if the ancestor can be reached. -/
theorem isAncestor_spec {rounds : Nat} {ancestor descendant : Cid} {store : C}
    {r : EStateM.Result Error C Bool}
    (h : VersionControl.isAncestor rounds ancestor descendant store = some r) :
    history (finalState r) = history store
      ∧ ∀ store', r = .ok true store' → Reaches (history store) descendant ancestor := by
  rw [VersionControl.isAncestor] at h
  split at h
  · next heq =>
    cases h
    exact ⟨rfl, fun _ _ => heq ▸ Relation.ReflTransGen.refl⟩
  · have hstep : ∀ w w', WalkInv store descendant w →
        VersionControl.ancestorBody ancestor w = .inl w' → WalkInv store descendant w' := by
      intro w w' hw hbody
      have hspec := ancestorBody_spec ancestor hw
      rwa [hbody] at hspec
    have hinit : WalkInv store descendant { visited := [], queue := [descendant], store } :=
      ⟨rfl, fun cid hcid => List.mem_singleton.mp hcid ▸ Relation.ReflTransGen.refl⟩
    obtain ⟨w, hw, hleave⟩ := Loop.run_inv hstep hinit h
    have hspec := ancestorBody_spec ancestor hw
    rwa [hleave] at hspec

theorem mergeCommit_spec [Oxicode.Lawful] (head branchCid : Cid) (message : String)
    (author : Author) (strategy : MergeStrategy) (timestamp : UInt64)
    (hs' : finalState (VersionControl.mergeCommit head branchCid message author strategy timestamp
      s) = s') (hfree : CollisionFree (history s'.store)) :
    Kept s s' ∧ Moves s s' s.currentBranch [head, branchCid]
      ∧ (strategy = .fastForward → s'.refsCache = s.refsCache) := by
  rw [VersionControl.mergeCommit] at hs'
  by_cases hstrategy : strategy = .fastForward
  · rw [if_pos hstrategy] at hs'
    subst hs'
    exact ⟨Kept.of_eq rfl, .inl rfl, fun _ => rfl⟩
  · rw [if_neg hstrategy] at hs'
    dsimp only at hs'
    obtain ⟨st₁, hhist₁, ⟨headCommit, hload₁⟩ | ⟨e, hload₁⟩⟩ :=
      onStore_load_cases "HEAD commit not found: " head s
    · rw [run_bind_ok hload₁] at hs'
      obtain ⟨st₂, hhist₂, ⟨branchCommit, hload₂⟩ | ⟨e, hload₂⟩⟩ :=
        onStore_load_cases "Branch commit not found: " branchCid { s with store := st₁ }
      · rw [run_bind_ok hload₂] at hs'
        obtain ⟨store, ⟨b, hblock, hrun, hhist⟩ | ⟨e, hrun, hhist⟩⟩ := storeCommit_cases
          { parents := [head, branchCid]
            root := if strategy = .ours then headCommit.root else branchCommit.root
            message, author, timestamp, metadata := [] } { s with store := st₂ }
        · rw [run_bind_ok hrun] at hs'
          subst hs'
          have hblocks : history store = b :: history s.store := by
            rw [hhist, hhist₂, hhist₁]
          refine ⟨fun x hx => ?_, .inr ⟨b.cid, rfl, ?_⟩, fun h => absurd h hstrategy⟩
          · show x ∈ history store
            rw [hblocks]
            exact List.mem_cons_of_mem _ hx
          · have hmem : b ∈ history store := by
              rw [hblocks]
              exact List.mem_cons_self
            exact reaches_parents hblock hfree hmem
        · rw [run_bind_error hrun] at hs'
          subst hs'
          exact ⟨Kept.of_eq (hhist.trans (hhist₂.trans hhist₁)), .inl rfl, fun _ => rfl⟩
      · rw [run_bind_error hload₂] at hs'
        subst hs'
        exact ⟨Kept.of_eq (hhist₂.trans hhist₁), .inl rfl, fun _ => rfl⟩
    · rw [run_bind_error hload₁] at hs'
      subst hs'
      exact ⟨Kept.of_eq hhist₁, .inl rfl, fun _ => rfl⟩

/-- What `merge` may do: nothing, or a move of the current branch to a commit that reaches
HEAD and what was merged. -/
theorem merge_spec [Oxicode.Lawful] {rounds : Nat} {branchCid : Cid} {message : String}
    {author : Author} {strategy : MergeStrategy} {timestamp : UInt64}
    {r : EStateM.Result Error (VersionControl C) MergeResult}
    (h : VersionControl.merge rounds branchCid message author strategy timestamp s = some r)
    (hfree : CollisionFree (history (finalState r).store)) : Kept s (finalState r)
      ∧ Moves s (finalState r) s.currentBranch (branchCid :: s.head.toList)
      ∧ (s.head = some branchCid → (finalState r).refsCache = s.refsCache)
      ∧ (strategy = .fastForward →
        (∀ head, s.head = some head → ¬ Reaches (history s.store) branchCid head) →
          (finalState r).refsCache = s.refsCache) := by
  rw [VersionControl.merge] at h
  cases hhead : s.head with
  | none =>
    rw [hhead] at h
    cases h
    exact ⟨Kept.of_eq rfl, .inl rfl, fun _ => rfl, fun _ _ => rfl⟩
  | some head =>
    rw [hhead] at h
    dsimp only at h
    by_cases hsame : head = branchCid
    · rw [if_pos hsame] at h
      cases h
      exact ⟨Kept.of_eq rfl, .inl rfl, fun _ => rfl, fun _ _ => rfl⟩
    · rw [if_neg hsame] at h
      have hne : some head ≠ some branchCid := fun heq => hsame (Option.some.inj heq)
      cases hanc : VersionControl.isAncestor rounds head branchCid s.store with
      | none =>
        rw [hanc] at h
        cases h
      | some answer =>
        obtain ⟨hhist, hreach⟩ := isAncestor_spec hanc
        rw [hanc] at h
        cases answer with
        | error e store =>
          cases h
          exact ⟨Kept.of_eq hhist, .inl rfl, fun _ => rfl, fun _ _ => rfl⟩
        | ok found store =>
          cases found with
          | true =>
            cases h
            have hbranch := hreach store rfl
            refine ⟨Kept.of_eq hhist, .inr ⟨branchCid, rfl, ?_⟩,
              fun heq => absurd heq hne, fun _ hno => absurd hbranch (hno head rfl)⟩
            have hstore : history store = history s.store := hhist
            intro a ha
            show Reaches (history store) branchCid a
            rw [hstore]
            rcases List.mem_cons.mp ha with rfl | ha
            · exact Relation.ReflTransGen.refl
            · rw [List.mem_singleton.mp ha]
              exact hbranch
          | false =>
            cases h
            obtain ⟨hkept, hmoves, hff⟩ := mergeCommit_spec head branchCid message author
              strategy timestamp rfl hfree
            have hstart : Kept s { s with store } := Kept.of_eq hhist
            refine ⟨hstart.trans hkept, ?_, fun heq => absurd heq hne, fun hs _ => hff hs⟩
            rcases hmoves with hrefs | ⟨target, hrefs, htarget⟩
            · exact .inl hrefs
            · refine .inr ⟨target, hrefs, fun a ha => htarget a ?_⟩
              rcases List.mem_cons.mp ha with rfl | ha
              · simp
              · simp [List.mem_singleton.mp ha]

/-! ## Runs -/

inductive Call where
  | commit (root : Cid) (message : String) (author : Author) (metadata : List (String × String))
      (timestamp : UInt64)
  | checkout (cid : Cid)
  | checkoutRef (name : String)
  | createBranch (name : String)
  | createTag (name : String)
  | merge (branchCid : Cid) (message : String) (author : Author) (strategy : MergeStrategy)
      (timestamp : UInt64)
  | mergeBranch (name message : String) (author : Author) (strategy : MergeStrategy)
      (timestamp : UInt64)
  /-- A block that another client puts in the store. -/
  | storeBlock (block : Block)

namespace Call

/-- The state after a call that returns, with success or an error. -/
def after (rounds : Nat) (s : VersionControl C) : Call → Option (VersionControl C)
  | .commit root message author metadata timestamp =>
    some (finalState (VersionControl.commit root message author metadata timestamp s))
  | .checkout cid => some (finalState (VersionControl.checkout cid s))
  | .checkoutRef name => some (finalState (VersionControl.checkoutRef name s))
  | .createBranch name => some (finalState (VersionControl.createBranch name s))
  | .createTag name => some (finalState (VersionControl.createTag name s))
  | .merge branchCid message author strategy timestamp =>
    (VersionControl.merge rounds branchCid message author strategy timestamp s).map finalState
  | .mergeBranch name message author strategy timestamp =>
    (VersionControl.mergeBranch rounds name message author strategy timestamp s).map finalState
  | .storeBlock block => some (finalState (onStore (ColdStore.put block) s))

def Returns (call : Call) (s s' : VersionControl C) : Prop :=
  ∃ rounds, call.after rounds s = some s'

/-- The name is given to `create_branch` or `create_tag`. -/
def Creates (name : String) : Call → Prop
  | .createBranch name' => name = name'
  | .createTag name' => name = name'
  | _ => False

/-- A merge of `branchCid` is up to date, or refused for not being a fast-forward. -/
def Idle (s : VersionControl C) (branchCid : Cid) (strategy : MergeStrategy) : Prop :=
  s.head = some branchCid
    ∨ strategy = .fastForward
      ∧ ∀ head, s.head = some head → ¬ Reaches (history s.store) branchCid head

/-- The call is one to move the ref `name`. -/
def Writes (s : VersionControl C) (name : String) : Call → Prop
  | .commit .. => name = s.currentBranch
  | .merge branchCid _ _ strategy _ => name = s.currentBranch ∧ ¬ Idle s branchCid strategy
  | .mergeBranch name' _ _ strategy _ =>
    name = s.currentBranch ∧ ∃ branchCid, s.refsCache name' = some branchCid
      ∧ ¬ Idle s branchCid strategy
  | call => call.Creates name

/-- The commits that a ref moved by the call leads back to. -/
def sources (s : VersionControl C) : Call → List Cid
  | .merge branchCid _ _ _ _ => branchCid :: s.head.toList
  | .mergeBranch name _ _ _ _ => (s.refsCache name).toList ++ s.head.toList
  | _ => s.head.toList

/-- A tip that the call is to move away from is among what its sources or another ref
reach. -/
def KeepsTip (s : VersionControl C) (call : Call) : Prop :=
  ∀ name tip, call.Writes s name → s.refsCache name = some tip →
    (∃ a ∈ call.sources s, Reaches (history s.store) a tip)
      ∨ ∃ other a, other ≠ name ∧ s.refsCache other = some a ∧ Reaches (history s.store) a tip

end Call

/-- Reachable from some ref. -/
def Reachable (s : VersionControl C) (cid : Cid) : Prop :=
  ∃ name tip, s.refsCache name = some tip ∧ Reaches (history s.store) tip cid

/-- Calls one after the other, each made in a state with `P`. -/
inductive Run (P : VersionControl C → Call → Prop) :
    VersionControl C → List Call → VersionControl C → Prop
  | nil (s : VersionControl C) : Run P s [] s
  | cons {s t s' : VersionControl C} {call : Call} {calls : List Call} (hcall : call.Returns s t)
      (hstate : P s call) (hrest : Run P t calls s') : Run P s (call :: calls) s'

/-- The table is unchanged, or the call has moved one ref to a commit that reaches its
sources. -/
def Call.Moved (call : Call) (s s' : VersionControl C) : Prop :=
  s'.refsCache = s.refsCache
    ∨ ∃ name target, call.Writes s name
      ∧ s'.refsCache = Function.update s.refsCache name (some target)
      ∧ ∀ a ∈ call.sources s, Reaches (history s'.store) target a

omit [CidCrate] [CidStream] in
theorem Moves.moved (call : Call) {name : String} (h : Moves s s' name (call.sources s))
    (hwrites : call.Writes s name) : call.Moved s s' := by
  rcases h with hrefs | ⟨target, hrefs, hreach⟩
  · exact .inl hrefs
  · exact .inr ⟨name, target, hwrites, hrefs, hreach⟩

/-- A merge that moves a ref is not idle. -/
theorem merge_moved [Oxicode.Lawful] {rounds : Nat} {branchCid : Cid} {message : String}
    {author : Author} {strategy : MergeStrategy} {timestamp : UInt64}
    (h : (VersionControl.merge rounds branchCid message author strategy timestamp s).map finalState
      = some s') (hfree : CollisionFree (history s'.store)) :
    Kept s s' ∧ (s'.refsCache = s.refsCache ∨ (¬ Call.Idle s branchCid strategy
        ∧ Moves s s' s.currentBranch (branchCid :: s.head.toList))) := by
  obtain ⟨r, hr, rfl⟩ := Option.map_eq_some_iff.mp h
  obtain ⟨hkept, hmoves, hsame, hff⟩ := merge_spec hr hfree
  refine ⟨hkept, ?_⟩
  by_cases hidle : Call.Idle s branchCid strategy
  · rcases hidle with hhead | ⟨hstrategy, hno⟩
    · exact .inl (hsame hhead)
    · exact .inl (hff hstrategy hno)
  · exact .inr ⟨hidle, hmoves⟩

/-- What any call may do. -/
theorem Call.Returns.spec [Oxicode.Lawful] {call : Call} (h : call.Returns s s')
    (hfree : CollisionFree (history s'.store)) : Kept s s' ∧ call.Moved s s' := by
  obtain ⟨rounds, h⟩ := h
  cases call with
  | commit root message author metadata timestamp =>
    obtain ⟨hkept, hmoves⟩ :=
      commit_spec root message author metadata timestamp (Option.some.inj h) hfree
    exact ⟨hkept, hmoves.moved (.commit root message author metadata timestamp) rfl⟩
  | checkout cid =>
    cases h
    obtain ⟨hkept, hrefs⟩ := keeps_checkout s s.refsCache cid s (Frame.refl s)
    exact ⟨hkept, .inl hrefs⟩
  | checkoutRef name =>
    cases h
    obtain ⟨hkept, hrefs⟩ := keeps_checkoutRef s s.refsCache name s (Frame.refl s)
    exact ⟨hkept, .inl hrefs⟩
  | createBranch name =>
    cases h
    obtain ⟨hkept, hmoves⟩ := createRef_spec .branch name s
    exact ⟨hkept, hmoves.moved (.createBranch name) rfl⟩
  | createTag name =>
    cases h
    obtain ⟨hkept, hmoves⟩ := createRef_spec .tag name s
    exact ⟨hkept, hmoves.moved (.createTag name) rfl⟩
  | merge branchCid message author strategy timestamp =>
    obtain ⟨hkept, hrefs | ⟨hidle, hmoves⟩⟩ := merge_moved h hfree
    · exact ⟨hkept, .inl hrefs⟩
    · exact ⟨hkept, hmoves.moved (.merge branchCid message author strategy timestamp)
        ⟨rfl, hidle⟩⟩
  | mergeBranch name message author strategy timestamp =>
    rw [Call.after, VersionControl.mergeBranch, VersionControl.getRef,
      run_bind_ok (run_get _)] at h
    cases href : s.refsCache name with
    | none =>
      rw [href] at h
      cases h
      exact ⟨Kept.of_eq rfl, .inl rfl⟩
    | some branchCid =>
      rw [href] at h
      obtain ⟨hkept, hrefs | ⟨hidle, hmoves⟩⟩ := merge_moved h hfree
      · exact ⟨hkept, .inl hrefs⟩
      · have hsources : (Call.mergeBranch name message author strategy timestamp).sources s
            = branchCid :: s.head.toList := by
          rw [Call.sources, href]
          rfl
        rw [← hsources] at hmoves
        exact ⟨hkept, hmoves.moved _ ⟨rfl, branchCid, href, hidle⟩⟩
  | storeBlock block =>
    cases h
    obtain ⟨hkept, hrefs⟩ := keeps_put s s.refsCache block s (Frame.refl s)
    exact ⟨hkept, .inl hrefs⟩

/-- A call that keeps the tip it moves keeps every reachable commit. -/
theorem Call.Returns.reachable [Oxicode.Lawful] {call : Call} (h : call.Returns s s')
    (hfree : CollisionFree (history s'.store)) (hkeeps : call.KeepsTip s) {cid : Cid}
    (hcid : Reachable s cid) : Reachable s' cid := by
  obtain ⟨hkept, hmoved⟩ := h.spec hfree
  obtain ⟨name₀, tip, href, hreach⟩ := hcid
  rcases hmoved with hrefs | ⟨name, target, hwrites, hrefs, htarget⟩
  · exact ⟨name₀, tip, by rw [hrefs, href], hreach.mono hfree hkept⟩
  · by_cases hname : name₀ = name
    · subst hname
      rcases hkeeps name₀ tip hwrites href with ⟨a, ha, hatip⟩ | ⟨other, a, hother, haref, hatip⟩
      · refine ⟨name₀, target, by rw [hrefs, Function.update_self], ?_⟩
        exact (htarget a ha).trans (Reaches.mono hfree hkept (hatip.trans hreach))
      · refine ⟨other, a, by rw [hrefs, Function.update_of_ne hother, haref], ?_⟩
        exact Reaches.mono hfree hkept (hatip.trans hreach)
    · exact ⟨name₀, tip, by rw [hrefs, Function.update_of_ne hname, href],
        hreach.mono hfree hkept⟩

theorem Call.Returns.ref_eq [Oxicode.Lawful] {call : Call} (h : call.Returns s s')
    (hfree : CollisionFree (history s'.store)) {name : String} (hname : ¬ call.Writes s name) :
    s'.refsCache name = s.refsCache name := by
  rcases (h.spec hfree).2 with hrefs | ⟨name', target, hwrites, hrefs, -⟩
  · rw [hrefs]
  · have hne : name ≠ name' := fun heq => hname (heq ▸ hwrites)
    rw [hrefs, Function.update_of_ne hne]

variable {calls : List Call}

theorem Run.kept [Oxicode.Lawful] {P : VersionControl C → Call → Prop} (h : Run P s calls s')
    (hfree : CollisionFree (history s'.store)) : Kept s s' := by
  induction h with
  | nil s => exact Kept.of_eq rfl
  | cons hcall _ _ ih =>
    have hrest := ih hfree
    exact (hcall.spec (hfree.mono hrest)).1.trans hrest

theorem Run.reachable [Oxicode.Lawful] (h : Run (fun s call => call.KeepsTip s) s calls s')
    (hfree : CollisionFree (history s'.store)) {cid : Cid} (hcid : Reachable s cid) :
    Reachable s' cid := by
  induction h with
  | nil s => exact hcid
  | cons hcall hkeeps hrest ih =>
    exact ih hfree (hcall.reachable (hfree.mono (hrest.kept hfree)) hkeeps hcid)

theorem Run.ref_eq [Oxicode.Lawful] {name : String}
    (h : Run (fun s call => ¬ call.Writes s name) s calls s')
    (hfree : CollisionFree (history s'.store)) : s'.refsCache name = s.refsCache name := by
  induction h with
  | nil s => rfl
  | cons hcall hnot hrest ih =>
    rw [ih hfree, hcall.ref_eq (hfree.mono (hrest.kept hfree)) hnot]

omit [Journaled C] in
theorem Run.weaken {P Q : VersionControl C → Call → Prop} (h : Run P s calls s')
    (hPQ : ∀ s, ∀ call ∈ calls, P s call → Q s call) : Run Q s calls s' := by
  induction h with
  | nil s => exact .nil s
  | cons hcall hP hrest ih =>
    exact .cons hcall (hPQ _ _ List.mem_cons_self hP)
      (ih (fun s call hc => hPQ s call (List.mem_cons_of_mem _ hc)))

/-- **Every commit once reachable stays so if each call keeps the tip it moves, and a name
keeps its commit if no call but those that create it moves it.** -/
theorem run_keeps [Oxicode.Lawful] {s s' : VersionControl C} {calls : List Call}
    (hfree : CollisionFree (history s'.store)) : (Run (fun s call => call.KeepsTip s) s calls s' →
        ∀ cid, Reachable s cid → Reachable s' cid)
      ∧ ∀ name, Run (fun s call => call.Writes s name → call.Creates name) s calls s' →
        (∀ call ∈ calls, ¬ call.Creates name) → s'.refsCache name = s.refsCache name := by
  constructor
  · intro h cid hcid
    exact h.reachable hfree hcid
  · intro name h hcreates
    exact (h.weaken (fun _ call hcall hwrites h => hcreates call hcall (hwrites h))).ref_eq hfree

end

/-! ## Two histories -/

namespace Sample

open scoped CidFormat

/-- The identifier of the block with one byte. -/
def cid (n : UInt8) : Cid := cidOf codecRaw [n]

def author : Author := { name := "a", email := "a@b" }

/-- A first commit, and two that have it as parent. The code below writes the place in
this list. -/
def commits : List Commit :=
  [{ parents := [], root := cid 9, message := "first", author, timestamp := 1, metadata := [] },
    { parents := [cid 0], root := cid 9, message := "second", author, timestamp := 2,
      metadata := [] },
    { parents := [cid 0], root := cid 9, message := "third", author, timestamp := 3,
      metadata := [] }]

/-- Commits are written as their places in a list. -/
@[reducible] def codeOf (commits : List Commit) : Oxicode where
  encodeCommit c :=
    match commits.findIdx? (fun c' => c' == c) with
    | some i => .ok [UInt8.ofNat i]
    | none => .error "no code"
  decodeCommit bytes :=
    match bytes with
    | [n] =>
      match commits[n.toNat]? with
      | some c => .ok c
      | none => .error "no commit"
    | _ => .error "no commit"
  encodeRef r := .ok (255 :: utf8 r.name)

scoped instance oxicode : Oxicode := codeOf commits

theorem commits_of_findIdx {commits : List Commit} {c : Commit} {i : Nat}
    (h : commits.findIdx? (fun c' => c' == c) = some i) :
    i < commits.length ∧ commits[i]? = some c := by
  obtain ⟨hi, hc, -⟩ := List.findIdx?_eq_some_iff_getElem.mp h
  refine ⟨hi, ?_⟩
  rw [List.getElem?_eq_getElem hi, eq_of_beq hc]

theorem lawful_codeOf (commits : List Commit) (hlen : commits.length ≤ 256) :
    @Oxicode.Lawful (codeOf commits) := by
  refine @Oxicode.Lawful.mk (codeOf commits) (fun c bytes h => ?_)
  refine ⟨c.metadata, List.Perm.refl _, ?_⟩
  simp only [Oxicode.encodeCommit] at h
  split at h
  · next i hfind =>
    cases h
    obtain ⟨hi, hget⟩ := commits_of_findIdx hfind
    have hsmall : (UInt8.ofNat i).toNat = i := by
      rw [UInt8.toNat_ofNat']
      exact Nat.mod_eq_of_lt (by omega)
    simp [Oxicode.decodeCommit, hsmall, hget]
  · cases h

scoped instance : Oxicode.Lawful := lawful_codeOf commits (by decide)

def start : VersionControl MemoryBlockStore := VersionControl.new {}

def commit (message : String) (timestamp : UInt64) : Call :=
  .commit (cid 9) message author [] timestamp

/-- Calls from any state, whatever they find. -/
abbrev AnyRun := Run (C := MemoryBlockStore) (fun _ _ => True)

/-- The first commit, tagged. -/
def tagged : VersionControl MemoryBlockStore :=
  let s := finalState (VersionControl.commit (cid 9) "first" author [] 1 start)
  finalState (VersionControl.createTag "v1" s)

/-- The second commit after that. -/
def grown : VersionControl MemoryBlockStore :=
  finalState (VersionControl.commit (cid 9) "second" author [] 2 tagged)

theorem run_keeps_grown :
    (∀ cid, Reachable tagged cid → Reachable grown cid)
      ∧ grown.refsCache "v1" = tagged.refsCache "v1" := by
  have hfree : CollisionFree (history grown.store) := by decide +kernel
  have hbranch : tagged.currentBranch = "main" := by decide +kernel
  have hhead : tagged.head = some (cid 0) := by decide +kernel
  have hmain : tagged.refsCache "main" = some (cid 0) := by decide +kernel
  have hkeeps : (commit "second" 2).KeepsTip tagged := by
    rintro name tip hwrites htip
    have hname : name = tagged.currentBranch := hwrites
    rw [hname, hbranch, hmain] at htip
    refine .inl ⟨cid 0, ?_, ?_⟩
    · show cid 0 ∈ tagged.head.toList
      rw [hhead]
      exact List.mem_singleton.mpr rfl
    · rw [← Option.some.inj htip]
      exact Relation.ReflTransGen.refl
  have hwrites : (commit "second" 2).Writes tagged "v1" → (commit "second" 2).Creates "v1" := by
    intro h
    have hname : "v1" = tagged.currentBranch := h
    rw [hbranch] at hname
    exact absurd hname (by decide)
  have hkept := @run_keeps _ _ _ _ _ _ _ tagged grown [commit "second" 2] hfree
  exact ⟨hkept.1 (.cons ⟨0, rfl⟩ hkeeps (.nil _)),
    hkept.2 "v1" (.cons ⟨0, rfl⟩ hwrites (.nil _)) (by simp [commit, Call.Creates])⟩

/-- The second commit is the tip, the first is checked out and committed to. -/
def forked : VersionControl MemoryBlockStore :=
  let s := finalState (VersionControl.checkout (cid 0) grown)
  finalState (VersionControl.commit (cid 9) "third" author [] 3 s)

theorem forked_lost : ¬ Reachable forked (cid 1) := by
  rintro ⟨name, tip, href, hreach⟩
  have hmain : forked.refsCache "main" = some (cid 2) := by decide +kernel
  have htag : forked.refsCache "v1" = some (cid 0) := by decide +kernel
  have hfree : CollisionFree (history forked.store) := by decide +kernel
  -- No other name was ever written.
  have hother : name ≠ "main" → name ≠ "v1" → forked.refsCache name = none := by
    intro hne hne'
    have hcommit : ∀ (s : VersionControl MemoryBlockStore) (message : String) (t : UInt64),
        s.currentBranch = "main" → ¬ (commit message t).Writes s name := by
      intro s message t hbranch hwrites
      exact hne (hbranch ▸ (show name = s.currentBranch from hwrites))
    have hrun : Run (fun s call => ¬ call.Writes s name) start
        [commit "first" 1, .createTag "v1", commit "second" 2, .checkout (cid 0),
          commit "third" 3] forked :=
      .cons ⟨0, rfl⟩ (hcommit _ _ _ rfl) (.cons ⟨0, rfl⟩ hne'
        (.cons ⟨0, rfl⟩ (hcommit tagged _ _ (by decide +kernel)) (.cons ⟨0, rfl⟩ id
          (.cons ⟨0, rfl⟩ (hcommit _ _ _ (by decide +kernel)) (.nil _)))))
    rw [hrun.ref_eq hfree]
    rfl
  have hclosed : ∀ b ∈ [cid 0, cid 2], ∀ q ∈ parentsOf (history forked.store) b,
      q ∈ [cid 0, cid 2] := by
    decide +kernel
  have htip : tip ∈ [cid 0, cid 2] := by
    by_cases hname : name = "main"
    · rw [hname, hmain] at href
      simp [← Option.some.inj href]
    · by_cases hname' : name = "v1"
      · rw [hname', htag] at href
        simp [← Option.some.inj href]
      · rw [hother hname hname'] at href
        cases href
  have hmem := hreach.mem_of_closed hclosed htip
  revert hmem
  decide +kernel

/-- A commit on a tag that was checked out moves the tag, and a commit on an older commit
that was checked out leaves the tip unreachable. -/
theorem not_run_keeps :
    (∃ s s', AnyRun start [commit "first" 1, .createTag "v1"] s
        ∧ AnyRun s [.checkoutRef "v1", commit "second" 2] s'
        ∧ s.refsCache "v1" = some (cid 0) ∧ s'.refsCache "v1" = some (cid 1))
      ∧ ∃ s s', AnyRun start [commit "first" 1, .createTag "v1", commit "second" 2] s
        ∧ AnyRun s [.checkout (cid 0), commit "third" 3] s'
        ∧ Reachable s (cid 1) ∧ ¬ Reachable s' (cid 1) := by
  constructor
  · refine ⟨_, _, .cons ⟨0, rfl⟩ trivial (.cons ⟨0, rfl⟩ trivial (.nil _)),
      .cons ⟨0, rfl⟩ trivial (.cons ⟨0, rfl⟩ trivial (.nil _)), ?_, ?_⟩
    · decide +kernel
    · decide +kernel
  · refine ⟨grown, forked,
      .cons ⟨0, rfl⟩ trivial (.cons ⟨0, rfl⟩ trivial (.cons ⟨0, rfl⟩ trivial (.nil _))),
      .cons ⟨0, rfl⟩ trivial (.cons ⟨0, rfl⟩ trivial (.nil _)), ⟨"main", cid 1, ?_, ?_⟩,
      forked_lost⟩
    · decide +kernel
    · exact Relation.ReflTransGen.refl

end Sample

end Ipfrs.Storage.Vcs
