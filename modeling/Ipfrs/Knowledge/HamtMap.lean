/-
Ipfrs.Knowledge.HamtMap — the HAMT refines a finite map.

`Represents h root m` connects the levels: the blocks `h` hold, under `root`, a
well-formed trie whose entries are those of the map `m`. The operations keep it
(`empty_triple`, `insert_triple`), reads under it are reads of `m`
(`get_of_represents`, `entries_of_represents`), and it determines the root
(`Represents.root_unique`). Since it only asks that blocks are present, it holds
of every root ever returned.
-/
import Ipfrs.Knowledge.HamtTheorems

namespace Ipfrs.Knowledge.Hamt

open Ipfrs.Core Ipfrs.Lib
open BlockStore.Faithful (history)

/-- A map has one trie. -/
theorem node_unique {m : EntityId → Option Cid} {node node' : PureNode}
    (hok : Trie.NodeOk nibble 63 0 node) (hok' : Trie.NodeOk nibble 63 0 node')
    (hmem : ∀ k v, (k, v) ∈ Trie.entries node ↔ m k = some v)
    (hmem' : ∀ k v, (k, v) ∈ Trie.entries node' ↔ m k = some v) : node = node' := by
  refine hok.eq_of_mem_iff hok' ?_
  rintro ⟨k, v⟩
  rw [hmem, hmem']

section

variable [CidCrate]

/-- Under `root`, the blocks of `h` hold the map `m`. -/
def Represents (h : List Block) (root : Cid) (m : EntityId → Option Cid) : Prop :=
  ∃ node : PureNode, Trie.NodeOk nibble 63 0 node ∧ NodeStored h node ∧ root = rootOf node ∧
    ∀ k v, (k, v) ∈ Trie.entries node ↔ m k = some v

variable {root : Cid} {m : EntityId → Option Cid}

theorem Represents.mono {h h' : List Block} (hsub : ∀ b ∈ h, b ∈ h') (hrep : Represents h root m) :
    Represents h' root m := by
  obtain ⟨node, hok, hstored, hroot, hmem⟩ := hrep
  exact ⟨node, hok, hstored.mono hsub, hroot, hmem⟩

/-- The map determines the root, whatever the store. -/
theorem Represents.root_unique {h h' : List Block} {root' : Cid} (hrep : Represents h root m)
    (hrep' : Represents h' root' m) : root = root' := by
  obtain ⟨node, hok, _, rfl, hmem⟩ := hrep
  obtain ⟨node', hok', _, rfl, hmem'⟩ := hrep'
  rw [node_unique hok hok' hmem hmem']

variable {S : Type} [BlockStore S] [BlockStore.Faithful S] {H : List Block}

theorem empty_triple (s : S) : Triple history H empty s
      (fun root s' => Represents (history s') root (fun _ => none) ∧
        ∀ b ∈ history s, b ∈ history s') (fun _ _ => False) := by
  have hvacant : (emptySlots : Slots) = slotsOf Trie.vacant := rfl
  rw [empty, hvacant]
  have hstored : ∀ i, Stored (history s) (Trie.vacant i) := fun _ => trivial
  refine (nodeToCid_triple hstored).conseq ?_ (fun _ _ h => h)
  rintro _ s' ⟨rfl, hstored, hsub⟩
  refine ⟨⟨_, Trie.nodeOk_vacant _ _, hstored, rfl, ?_⟩, hsub⟩
  intro k v
  simp

variable [CidCrate.Lawful]

/-- **Insertion** sets the key's value, and keeps every block written before. -/
theorem insert_triple (hH : CollisionFree H) {s : S} (hrep : Represents (history s) root m)
    (key : EntityId) (val : Cid) :
    Triple history H (insert root key val) s
      (fun root' s' => Represents (history s') root' (Function.update m key (some val)) ∧
        ∀ b ∈ history s, b ∈ history s') (fun _ _ => False) := by
  obtain ⟨node, hok, hstored, rfl, hmem⟩ := hrep
  obtain ⟨node', hins, hok', hsets⟩ := Trie.insert_spec 63 0 node key val hok eq_of_nibbles
    (fun _ _ j hj => absurd hj (Nat.not_lt_zero j))
  refine Triple.bind (loadM_triple hH hstored.1) (fun slots => insertSlots_grows _ _ _ _) ?_
  rintro _ _ _ ⟨rfl, rfl⟩
  refine (insertSlots_simulates hH maxDepth le_rfl node node' key val _ hins hstored.2).conseq ?_
    (fun _ _ h => h)
  rintro _ s' ⟨rfl, hstored', hsub⟩
  refine ⟨⟨node', hok', hstored', rfl, ?_⟩, hsub⟩
  intro k v
  rw [hsets (k, v), hmem k v]
  by_cases hk : k = key
  · subst hk
    simp [eq_comm]
  · simp [hk]

/-- **Lookup** reads the map. -/
theorem get_of_represents {s : S} (hfree : CollisionFree (history s))
    (hrep : Represents (history s) root m) (key : EntityId) : get s root key = .ok (m key) := by
  obtain ⟨node, hok, hstored, rfl, hmem⟩ := hrep
  rw [get, getFrom_of_stored hfree key maxDepth node le_rfl hstored]
  congr 1
  refine Option.ext (fun v => ?_)
  show Trie.find nibble (63 + 1) 0 node key = some v ↔ m key = some v
  rw [Trie.find_eq_some_iff 63 0 node key v hok, hmem key v]

/-- `l` lists each key of `m` once, with its value. -/
def Lists (l : List (EntityId × Cid)) (m : EntityId → Option Cid) : Prop :=
  (l.map Prod.fst).Nodup ∧ ∀ k v, (k, v) ∈ l ↔ m k = some v

/-- **The listing** lists the map, in an order that is the same in every store. -/
theorem entries_of_represents {h : List Block} (hrep : Represents h root m) :
    ∃ l, Lists l m ∧ ∀ (s : S) (root' : Cid), CollisionFree (history s) →
      Represents (history s) root' m →
        Loop.Leaves (entriesBody s) { stack := [root'] } (.ok l) := by
  obtain ⟨node, hok, _, _, hmem⟩ := hrep
  obtain ⟨l, hperm, hleaves⟩ := entries_of_stored (S := S) _ [node] [] (le_refl _)
  have hperm : l.Perm (Trie.entries node) := by simpa using hperm
  refine ⟨l, ⟨(hperm.map Prod.fst).nodup_iff.mpr hok.nodup_keys, ?_⟩, ?_⟩
  · intro k v
    rw [hperm.mem_iff, hmem]
  · rintro s _ hfree ⟨node', hok', hstored, rfl, hmem'⟩
    rw [← node_unique hok hok' hmem hmem'] at hstored ⊢
    refine hleaves s hfree ?_
    intro n hn
    rw [List.mem_singleton.mp hn]
    exact hstored

end

/-! ## Runs -/

/-- `insert` for each pair in order, each on the root the one before returned. -/
def insertAll [CidCrate] {S : Type} [BlockStore S] :
    List (EntityId × Cid) → Cid → EStateM KError S Cid
  | [], root => pure root
  | (k, v) :: rest, root => do
      let root' ← insert root k v
      insertAll rest root'

/-- A sequence of `insert` calls from `empty`. -/
def runInserts [CidCrate] {S : Type} [BlockStore S] (kvs : List (EntityId × Cid)) :
    EStateM KError S Cid := do
  let root ← empty
  insertAll kvs root

/-- The value of the last pair with a key. -/
def lastValue (kvs : List (EntityId × Cid)) (k : EntityId) : Option Cid :=
  (kvs.reverse.find? (fun e => e.1 == k)).map Prod.snd

theorem lastValue_append (pre post : List (EntityId × Cid)) (k : EntityId) :
    lastValue (pre ++ post) k = (lastValue post k).or (lastValue pre k) := by
  rw [lastValue, List.reverse_append, List.find?_append]
  cases h : post.reverse.find? (fun e => e.1 == k) with
  | none => simp [lastValue, h]
  | some e => simp [lastValue, h]

theorem lastValue_singleton (key k : EntityId) (val : Cid) :
    lastValue [(key, val)] k = if key = k then some val else none := by
  by_cases hk : key = k
  · simp [lastValue, hk]
  · simp [lastValue, hk]

/-- Setting a key is one more pair. -/
theorem lastValue_snoc (kvs : List (EntityId × Cid)) (key : EntityId) (val : Cid) :
    lastValue (kvs ++ [(key, val)]) = Function.update (lastValue kvs) key (some val) := by
  funext k
  rw [lastValue_append, lastValue_singleton]
  by_cases hk : k = key
  · subst hk
    simp
  · simp [hk, Ne.symm hk]

section

variable [CidCrate] {S : Type} [BlockStore S]

theorem runInserts_append (pre post : List (EntityId × Cid)) (s : S) :
    runInserts (pre ++ post) s = (runInserts pre >>= insertAll post) s := by
  have hall : ∀ (pre : List (EntityId × Cid)) (root : Cid),
      (insertAll (pre ++ post) root : EStateM KError S Cid)
        = insertAll pre root >>= insertAll post := by
    intro pre
    induction pre with
    | nil =>
      intro root
      exact (pure_bind _ _).symm
    | cons e pre ih =>
      intro root
      simp only [List.cons_append, insertAll, ih, bind_assoc]
  simp only [runInserts, hall, bind_assoc]

variable [BlockStore.Faithful S]

theorem insertAll_grows (kvs : List (EntityId × Cid)) : ∀ root : Cid,
    Grows history (insertAll kvs root : EStateM KError S Cid) := by
  induction kvs with
  | nil => exact fun root => Grows.pure root
  | cons e rest ih => exact fun root => Grows.bind (insert_grows _ _ _) ih

variable {H : List Block} [CidCrate.Lawful]

/-- **A run of insertions** from a root that holds what was inserted before. -/
theorem insertAll_triple (hH : CollisionFree H) (kvs : List (EntityId × Cid)) :
    ∀ (done : List (EntityId × Cid)) (s : S) (root : Cid),
      Represents (history s) root (lastValue done) → Triple history H (insertAll kvs root) s
        (fun root' s' => Represents (history s') root' (lastValue (done ++ kvs)) ∧
          ∀ b ∈ history s, b ∈ history s') (fun _ _ => False) := by
  induction kvs with
  | nil =>
    intro done s root hrep
    refine Triple.pure ⟨?_, fun b hb => hb⟩
    rw [List.append_nil]
    exact hrep
  | cons e rest ih =>
    intro done s root hrep
    obtain ⟨k, v⟩ := e
    refine Triple.bind (insert_triple hH hrep k v) (fun root' => insertAll_grows rest root') ?_
    rintro root' s' _ ⟨hrep', hsub⟩
    rw [← lastValue_snoc] at hrep'
    refine (ih _ _ _ hrep').conseq ?_ (fun _ _ h => h)
    rintro root'' s'' ⟨hrep'', hsub'⟩
    rw [List.append_assoc] at hrep''
    exact ⟨hrep'', fun b hb => hsub' b (hsub b hb)⟩

theorem runInserts_triple (hH : CollisionFree H) (kvs : List (EntityId × Cid)) (s : S) :
    Triple history H (runInserts kvs) s
      (fun root s' => Represents (history s') root (lastValue kvs)) (fun _ _ => False) := by
  refine Triple.bind (empty_triple s) (fun root => insertAll_grows kvs root) ?_
  rintro root s' _ ⟨hrep, _⟩
  refine (insertAll_triple hH kvs [] s' root hrep).conseq ?_ (fun _ _ h => h)
  rintro root' s'' ⟨hrep', _⟩
  exact hrep'

/-- What a root answers in a store: lookups give the last value inserted, and the
listing gives `l`. -/
structure Answers (s : S) (root : Cid) (kvs l : List (EntityId × Cid)) : Prop where
  get_eq : ∀ k, get s root k = .ok (lastValue kvs k)
  entries_eq : ∃ n, ∀ rounds ≥ n, entries rounds s root = some (.ok l)

theorem answers_of_represents {h : List Block} {root : Cid} {kvs : List (EntityId × Cid)}
    (hrep : Represents h root (lastValue kvs)) :
    ∃ l, Lists l (lastValue kvs) ∧ ∀ s : S, CollisionFree (history s) →
      Represents (history s) root (lastValue kvs) → Answers s root kvs l := by
  obtain ⟨l, hlists, hleaves⟩ := entries_of_represents (S := S) hrep
  refine ⟨l, hlists, ?_⟩
  intro s hfree hrep'
  refine ⟨get_of_represents hfree hrep', ?_⟩
  obtain ⟨n, hn⟩ := hleaves s root hfree hrep'
  exact ⟨n, fun rounds hr => Loop.run_mono hn hr⟩

/-- **The HAMT is a finite map.** Every sequence of insertions from `empty`
succeeds. After each of its first parts the root returned so far answers every
lookup with the last value inserted and lists each key once, and it still does so,
with the same list, in the store at the end. -/
theorem runInserts_finite_map (kvs : List (EntityId × Cid)) (s₀ : S)
    (hfree : CollisionFree (history (finalState (runInserts kvs s₀)))) :
    ∃ root s', runInserts kvs s₀ = .ok root s' ∧
      (∃ l, Lists l (lastValue kvs) ∧ Answers s' root kvs l) ∧ ∀ pre post, kvs = pre ++ post →
        ∃ root₁ s₁ l, runInserts pre s₀ = .ok root₁ s₁ ∧ insertAll post root₁ s₁ = .ok root s' ∧
          Lists l (lastValue pre) ∧ Answers s₁ root₁ pre l ∧ Answers s' root₁ pre l := by
  obtain ⟨root, s', hrun, hrep⟩ :=
    (runInserts_triple hfree kvs s₀).succeeds (fun _ hb => hb)
  rw [hrun, finalState_ok] at hfree
  obtain ⟨l, hlists, hanswers⟩ := answers_of_represents (S := S) hrep
  refine ⟨root, s', hrun, ⟨l, hlists, hanswers s' hfree hrep⟩, ?_⟩
  rintro pre post rfl
  rw [runInserts_append] at hrun
  -- the run of the first part ends in a store the rest only adds to
  cases hpre : (runInserts pre : EStateM KError S Cid) s₀ with
  | error e s₁ =>
    rw [run_bind_error hpre] at hrun
    cases hrun
  | ok root₁ s₁ =>
    rw [run_bind_ok hpre] at hrun
    have hsub : ∀ b ∈ history s₁, b ∈ history s' := by
      intro b hb
      have hb' := insertAll_grows post root₁ b s₁ hb
      rwa [hrun] at hb'
    have hrep₁ := runInserts_triple hfree pre s₀ (by rw [hpre]; exact hsub)
    rw [hpre] at hrep₁
    obtain ⟨l₁, hlists₁, hanswers₁⟩ := answers_of_represents (S := S) hrep₁
    exact ⟨root₁, s₁, l₁, rfl, hrun, hlists₁, hanswers₁ s₁ (hfree.mono hsub) hrep₁,
      hanswers₁ s' hfree (hrep₁.mono hsub)⟩

end

/-- An id that starts with the given byte. -/
def sampleId (b : UInt8) : EntityId := ⟨b :: List.replicate 31 0, by simp⟩

open scoped CidFormat in
/-- Two ids that share their first nibble; the first is set twice. -/
def samplePairs : List (EntityId × Cid) :=
  [(sampleId 0x1a, cidOf codecRaw [1]), (sampleId 0x1b, cidOf codecRaw [2]),
    (sampleId 0x1a, cidOf codecRaw [2])]

open scoped CidFormat in
theorem samplePairs_collisionFree :
    CollisionFree (history (finalState (runInserts samplePairs ({} : MemStore)))) := by
  decide +kernel

open scoped CidFormat in
theorem runInserts_finite_map_sample :
    CollisionFree (history (finalState (runInserts samplePairs ({} : MemStore)))) ∧
    ∃ root s', runInserts samplePairs ({} : MemStore) = .ok root s' ∧
      get s' root (sampleId 0x1a) = .ok (some (cidOf codecRaw [2])) ∧
      get s' root (sampleId 0x1c) = .ok none := by
  refine ⟨samplePairs_collisionFree, ?_⟩
  obtain ⟨root, s', hrun, ⟨l, _, hanswers⟩, _⟩ :=
    runInserts_finite_map samplePairs ({} : MemStore) samplePairs_collisionFree
  refine ⟨root, s', hrun, ?_, ?_⟩
  · rw [hanswers.get_eq]
    rfl
  · rw [hanswers.get_eq]
    rfl

/-- **The root is canonical.** Two sequences of insertions with the same last
values return the same root, over any two stores. -/
theorem runInserts_root_unique [CidCrate] [CidCrate.Lawful] {S T : Type} [BlockStore S]
    [BlockStore.Faithful S] [BlockStore T] [BlockStore.Faithful T]
    (kvs kvs' : List (EntityId × Cid)) (s₀ : S) (t₀ : T)
    (hfree : CollisionFree (history (finalState (runInserts kvs s₀))))
    (hfree' : CollisionFree (history (finalState (runInserts kvs' t₀))))
    (hsame : ∀ k, lastValue kvs k = lastValue kvs' k) :
    ∃ root s' t', runInserts kvs s₀ = .ok root s' ∧ runInserts kvs' t₀ = .ok root t' := by
  obtain ⟨root, s', hrun, hrep⟩ :=
    (runInserts_triple hfree kvs s₀).succeeds (fun _ hb => hb)
  obtain ⟨root', t', hrun', hrep'⟩ :=
    (runInserts_triple hfree' kvs' t₀).succeeds (fun _ hb => hb)
  rw [funext hsame] at hrep
  rw [← hrep.root_unique hrep'] at hrun'
  exact ⟨root, s', t', hrun, hrun'⟩

open scoped CidFormat in
theorem samplePairs_drop_collisionFree :
    CollisionFree (history (finalState (runInserts (samplePairs.drop 1) ({} : MemStore)))) := by
  decide +kernel

open scoped CidFormat in
/-- The overwritten pair makes no difference. -/
theorem runInserts_root_unique_sample :
    ∃ root s' t', runInserts samplePairs ({} : MemStore) = .ok root s' ∧
      runInserts (samplePairs.drop 1) ({} : MemStore) = .ok root t' := by
  refine runInserts_root_unique (S := MemStore) (T := MemStore) samplePairs (samplePairs.drop 1) {}
    {} samplePairs_collisionFree samplePairs_drop_collisionFree ?_
  intro k
  have hsplit : lastValue samplePairs k
      = (lastValue (samplePairs.drop 1) k).or (lastValue (samplePairs.take 1) k) :=
    lastValue_append (samplePairs.take 1) (samplePairs.drop 1) k
  rw [hsplit]
  by_cases hk : sampleId 0x1a = k
  · subst hk
    rfl
  · have hnone : lastValue (samplePairs.take 1) k = none :=
      (lastValue_singleton _ _ _).trans (if_neg hk)
    rw [hnone, Option.or_none]

end Ipfrs.Knowledge.Hamt
