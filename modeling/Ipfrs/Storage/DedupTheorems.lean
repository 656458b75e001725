/-
Ipfrs.Storage.DedupTheorems — when deduplicated blocks stay readable and counts exact.

A chunk's count is the number of times that manifests and puts under way name it, and
the chunk is in the store below as long as it is counted. Three gaps break this: between
a put's look at the index and its entry there, between a delete's count and its removal
of the chunk, and after a failure of the store below, from which no call recovers what
it had done.
-/
import Ipfrs.Storage.Dedup
import Ipfrs.Storage.StoreLayers
import Mathlib.Algebra.Group.Pi.Lemmas

namespace Ipfrs.Storage

open Ipfrs.Core Ipfrs.Lib
open Ipfrs.Lib.Interleaving (Machine Pool Turn)
open Ipfrs.Lib.Pooled
open Ipfrs.Knowledge (ColdStore)
open Ipfrs.Knowledge.ColdStore.Faithful (lookup)

/-! ## What a call holds -/

/-- What a call may have to do with a chunk: it has counted it for a manifest to come, or
stored it and not yet entered it; it is about to delete it from the store, or to look
whether it should. -/
inductive Role
  | counted
  | stored
  | deleting
  | removing
  deriving DecidableEq

abbrev Holdings := Role → Multiset Cid

def DedupTask.held : Role → DedupTask → List Cid
  | .counted, .putting _ done _ _ => done
  | .counted, .stored _ done _ _ => done
  | .stored, .stored _ _ chunk _ => [chunk.cid]
  | .deleting, .deleting _ chunk _ => [chunk]
  | .removing, .deleting _ _ rest => rest
  | .removing, .deleted _ rest => rest
  | _, _ => []

def DedupTask.holdings (t : DedupTask) : Holdings := fun role => ↑(t.held role)

/-- Chunks held in one role. -/
def holding (role : Role) (cids : List Cid) : Holdings := Pi.single role ↑cids

/-- What the tasks hold together. -/
def holdings (tasks : List DedupTask) : Holdings := fun role => pooled (DedupTask.held role) tasks

@[simp] theorem holding_same (role : Role) (cids : List Cid) : holding role cids role = ↑cids :=
  Pi.single_eq_same role _

theorem holding_of_ne {role role' : Role} (hne : role' ≠ role) (cids : List Cid) :
    holding role cids role' = 0 :=
  Pi.single_eq_of_ne hne _

@[simp] theorem holding_nil (role : Role) : holding role [] = 0 := Pi.single_zero role

theorem holding_append (role : Role) (cids cids' : List Cid) :
    holding role (cids ++ cids') = holding role cids + holding role cids' := by
  rw [holding, ← Multiset.coe_add, Pi.single_add]
  rfl

/-- What each task holds, role by role. -/
theorem DedupTask.holdings_eq (t : DedupTask) :
    t.holdings = holding .counted (t.held .counted) + holding .stored (t.held .stored)
      + holding .deleting (t.held .deleting) + holding .removing (t.held .removing) := by
  funext role
  cases role <;> simp [DedupTask.holdings, holding]

theorem holdings_append (tasks : List DedupTask) (t : DedupTask) :
    holdings (tasks ++ [t]) = t.holdings + holdings tasks := by
  funext role
  rw [holdings, pooled_append, pooled_cons, pooled_nil, add_zero, add_comm]
  rfl

theorem exists_holdings_set {tasks : List DedupTask} {i : Nat} {t : DedupTask}
    (h : tasks[i]? = some t) : ∃ others, holdings tasks = t.holdings + others
      ∧ ∀ u, holdings (tasks.set i u) = u.holdings + others := by
  choose others hold hnew using fun role => exists_pooled_set h (DedupTask.held role)
  exact ⟨others, funext hold, fun u => funext (fun role => hnew role u)⟩

namespace ChunkIndex

variable {index : ChunkIndex} {c : Cid} {entry : ChunkMeta}

/-- The count of a chunk, zero if it has none. -/
def refs (index : ChunkIndex) (c : Cid) : Nat := (index.lookup c).elim 0 ChunkMeta.refCount

/-- The entries are those of their own chunks. -/
def Own (index : ChunkIndex) : Prop := ∀ c entry, index.lookup c = some entry → entry.cid = c

theorem refs_of_lookup (h : index.lookup c = some entry) : index.refs c = entry.refCount := by
  rw [refs, h, Option.elim_some]

theorem refs_of_notMem (h : c ∉ index) : index.refs c = 0 := by
  rw [refs, AList.lookup_eq_none.mpr h, Option.elim_none]

theorem mem_of_lookup (h : index.lookup c = some entry) : c ∈ index :=
  AList.lookup_isSome.mp (by rw [h]; rfl)

theorem refs_insert (c' : Cid) :
    refs (index.insert c entry) c' = if c' = c then entry.refCount else index.refs c' := by
  by_cases h : c' = c
  · subst h
    simp [refs]
  · simp [refs, h]

theorem Own.insert (hown : Own index) (hcid : entry.cid = c) : Own (index.insert c entry) := by
  intro c' entry' h
  by_cases hc : c' = c
  · subst hc
    rw [AList.lookup_insert] at h
    cases h
    exact hcid
  · rw [AList.lookup_insert_ne hc] at h
    exact hown c' entry' h

end ChunkIndex

namespace DedupBlockStore

variable {C : Type}

/-- The chunks of the stored manifests, each as often as they name it. -/
def occurrences (s : DedupBlockStore C) : Multiset Cid :=
  entriesHold BlockManifest.chunks s.manifests

/-- The chunks make up the block with the identifier, which is one. -/
def Describes [CidCrate] (dataOf : Cid → List UInt8) (cid : Cid) (chunks : List Cid) : Prop :=
  chunks.flatMap dataOf = dataOf cid ∧ Block.new (dataOf cid) = .ok { cid, data := dataOf cid }

/-- What is known of a chunk: its entry, how often manifests and puts under way name it,
how many calls hold it in the other roles, and what the store below has. -/
structure Account where
  entry : Option ChunkMeta
  named : Nat
  stored : Nat
  deleting : Nat
  removing : Nat
  data : Option (List UInt8)

namespace Account

def refs (a : Account) : Nat := a.entry.elim 0 ChunkMeta.refCount

/-- The count is exact, and the store below has what is counted and little else. -/
structure Sound (dataOf : Cid → List UInt8) (initial : Content) (c : Cid) (a : Account) : Prop where
  own : ∀ entry, a.entry = some entry → entry.cid = c
  balanced : a.refs = a.named
  zero : a.entry ≠ none → a.refs = 0 → 0 < a.removing
  kept : a.entry ≠ none ∨ 0 < a.stored → a.data = some (dataOf c)
  only : a.data ≠ none → initial c ≠ none ∨ a.entry ≠ none ∨ 0 < a.stored ∨ 0 < a.deleting

end Account

section Sound

variable [BlockStore C] [BlockStore.Faithful C] [CidCrate]

def account (s : DedupBlockStore C) (h : Holdings) (c : Cid) : Account where
  entry := s.chunkIndex.lookup c
  named := (s.occurrences + h .counted).count c
  stored := (h .stored).count c
  deleting := (h .deleting).count c
  removing := (h .removing).count c
  data := lookup s.inner c

structure Sound (dataOf : Cid → List UInt8) (initial : Content) (s : DedupBlockStore C)
    (h : Holdings) : Prop where
  accounts : ∀ c, (account s h c).Sound dataOf initial c
  manifests : ∀ cid m, s.manifests.lookup cid = some m → Describes dataOf cid m.chunks

variable {dataOf : Cid → List UInt8} {initial : Content} {s : DedupBlockStore C} {h : Holdings}

/-- A chunk that is counted is stored. -/
theorem Sound.stored_of_counted (hs : Sound dataOf initial s h) {c : Cid}
    (hc : c ∈ s.occurrences) : lookup s.inner c = some (dataOf c) := by
  refine (hs.accounts c).kept (.inl (fun hnone => ?_))
  have hbalanced := (hs.accounts c).balanced
  have hpos := Multiset.count_pos.mpr hc
  simp only [account] at hnone
  simp only [Account.refs, account, hnone, Option.elim_none, Multiset.count_add] at hbalanced
  omega

/-! ### One chunk at a time -/

variable {s' : DedupBlockStore C} {h' : Holdings} {c : Cid} {entry : ChunkMeta}

/-- Only one account changes, and it is sound. -/
theorem Sound.change (hs : Sound dataOf initial s h) (hm : s'.manifests = s.manifests) (c : Cid)
    (hc : (account s' h' c).Sound dataOf initial c)
    (helse : ∀ c' ≠ c, account s' h' c' = account s h c') : Sound dataOf initial s' h' := by
  refine ⟨fun c' => ?_, fun cid m hlookup => hs.manifests cid m (by rwa [← hm])⟩
  by_cases heq : c' = c
  · subst heq
    exact hc
  · rw [helse c' heq]
    exact hs.accounts c'

/-- A chunk of the index is counted once more. -/
theorem Sound.share (hs : Sound dataOf initial s h) (hc : s.chunkIndex.lookup c = some entry) :
    Sound dataOf initial
      { s with
        chunkIndex := s.chunkIndex.insert c { entry with refCount := entry.refCount + 1 } }
      (holding .counted [c] + h) := by
  refine hs.change rfl c ?_ (fun c' hne => by simp [account, hne, holding_of_ne, occurrences])
  obtain ⟨hown, hbalanced, -, hkept, -⟩ := hs.accounts c
  simp only [account, Account.refs, hc, Option.elim_some, Multiset.count_add]
    at hown hbalanced hkept
  refine ⟨?_, ?_, ?_, ?_, ?_⟩ <;> simp [account, Account.refs, occurrences, holding_of_ne]
  · exact hown entry rfl
  · simp only [occurrences] at hbalanced
    omega
  · exact hkept (.inl (by simp))

/-- A stored chunk is entered, with count one. -/
theorem Sound.enter (hs : Sound dataOf initial s (holding .stored [c] + h))
    (hc : c ∉ s.chunkIndex) :
    Sound dataOf initial
      { s with chunkIndex := s.chunkIndex.insert c { cid := c, refCount := 1 } }
      (holding .counted [c] + h) := by
  have hnone := AList.lookup_eq_none.mpr hc
  refine hs.change rfl c ?_ (fun c' hne => by simp [account, hne, holding_of_ne, occurrences])
  obtain ⟨-, hbalanced, -, hkept, -⟩ := hs.accounts c
  simp [account, Account.refs, hnone, holding_of_ne] at hbalanced hkept
  refine ⟨?_, ?_, ?_, ?_, ?_⟩ <;> simp [account, Account.refs, occurrences, holding_of_ne]
  · have hnamed : Multiset.count c s.occurrences = 0 := by omega
    have hcounted : Multiset.count c (h .counted) = 0 := by omega
    exact ⟨Multiset.count_eq_zero.mp hnamed, Multiset.count_eq_zero.mp hcounted⟩
  · exact hkept

/-- The manifest of a block takes over the chunks that its put has counted. -/
theorem Sound.finish {cid : Cid} {done : List Cid}
    (hs : Sound dataOf initial s (holding .counted done + h))
    (hnone : s.manifests.lookup cid = none) (hdone : Describes dataOf cid done) :
    Sound dataOf initial { s with manifests := s.manifests.insert cid { chunks := done } } h := by
  refine ⟨fun c => ?_, fun cid' m hlookup => ?_⟩
  · have hsame : account { s with manifests := s.manifests.insert cid { chunks := done } } h c
        = account s (holding .counted done + h) c := by
      simp only [account, occurrences, entriesHold_insert hnone, Pi.add_apply, holding_same,
        Multiset.count_add]
      simp [holding_of_ne]
      omega
    rw [hsame]
    exact hs.accounts c
  · by_cases heq : cid' = cid
    · subst heq
      rw [AList.lookup_insert] at hlookup
      cases hlookup
      exact hdone
    · rw [AList.lookup_insert_ne heq] at hlookup
      exact hs.manifests cid' m hlookup

/-- The store below does something that its map does not show. -/
theorem Sound.same (hs : Sound dataOf initial s h) {inner : C}
    (hsame : lookup inner = lookup s.inner) : Sound dataOf initial { s with inner } h := by
  refine ⟨fun c => ?_, hs.manifests⟩
  have haccount : account { s with inner } h c = account s h c := by
    simp [account, hsame, occurrences]
  rw [haccount]
  exact hs.accounts c

/-- A chunk is put into the store below. -/
theorem Sound.put (hs : Sound dataOf initial s h) {inner : C}
    (hput : lookup inner = Function.update (lookup s.inner) c (some (dataOf c))) :
    Sound dataOf initial { s with inner } (holding .stored [c] + h) := by
  refine hs.change rfl c ?_
    (fun c' hne => by simp [account, hne, hput, holding_of_ne, occurrences])
  obtain ⟨hown, hbalanced, hzero, -, -⟩ := hs.accounts c
  refine ⟨hown, ?_, ?_, ?_, ?_⟩
  · simpa [account, Account.refs, occurrences, holding_of_ne] using hbalanced
  · simpa [account, Account.refs, holding_of_ne] using hzero
  · simp [account, hput]
  · simp [account]

/-- An uncounted chunk is taken out of the index, to be deleted. -/
theorem Sound.remove (hs : Sound dataOf initial s (holding .removing [c] + h))
    (hzero : s.chunkIndex.refs c = 0) :
    Sound dataOf initial { s with chunkIndex := s.chunkIndex.erase c }
      (holding .deleting [c] + h) := by
  refine hs.change rfl c ?_ (fun c' hne => by simp [account, hne, holding_of_ne, occurrences])
  obtain ⟨-, hbalanced, -, hkept, -⟩ := hs.accounts c
  refine ⟨?_, ?_, ?_, ?_, ?_⟩ <;> simp [account, Account.refs, holding_of_ne]
  · rw [show Account.refs _ = s.chunkIndex.refs c from rfl, hzero] at hbalanced
    simp [account, holding_of_ne] at hbalanced
    exact hbalanced
  · intro hstored
    refine hkept (.inr ?_)
    simpa [account, holding_of_ne] using hstored

/-- A chunk that the index lacks need not be removed. -/
theorem Sound.skip (hs : Sound dataOf initial s (holding .removing [c] + h))
    (hc : c ∉ s.chunkIndex) : Sound dataOf initial s h := by
  have hnone := AList.lookup_eq_none.mpr hc
  refine hs.change rfl c ?_ (fun c' hne => by simp [account, hne, holding_of_ne])
  obtain ⟨hown, hbalanced, -, hkept, honly⟩ := hs.accounts c
  refine ⟨hown, ?_, ?_, ?_, ?_⟩
  · simpa [account, Account.refs, holding_of_ne] using hbalanced
  · simp [account, hnone]
  · simpa [account, hnone, holding_of_ne] using hkept
  · simpa [account, hnone, holding_of_ne] using honly

/-- The store below deletes a chunk that is not wanted again. -/
theorem Sound.delete (hs : Sound dataOf initial s (holding .deleting [c] + h)) {inner : C}
    (hdelete : lookup inner = Function.update (lookup s.inner) c none)
    (hc : c ∉ s.chunkIndex) (hstored : c ∉ h .stored) :
    Sound dataOf initial { s with inner } h := by
  have hnone := AList.lookup_eq_none.mpr hc
  refine hs.change rfl c ?_
    (fun c' hne => by simp [account, hne, hdelete, holding_of_ne, occurrences])
  obtain ⟨-, hbalanced, -, -, -⟩ := hs.accounts c
  refine ⟨?_, ?_, ?_, ?_, ?_⟩
  · simp [account, hnone]
  · simpa [account, Account.refs, occurrences, holding_of_ne] using hbalanced
  · simp [account, hnone]
  · simp [account, hnone, Multiset.count_eq_zero.mpr hstored]
  · simp [account, hdelete]

/-! ### Counting down -/

omit [BlockStore C] [BlockStore.Faithful C] [CidCrate] in
/-- Counting down keeps the entries, and lists those that come to zero. -/
theorem release_spec : ∀ (cids : List Cid) (index : ChunkIndex), index.Own →
    (release cids index).1.Own ∧
      (∀ c, c ∈ (release cids index).1 ↔ c ∈ index) ∧
      (∀ c, (release cids index).1.refs c = index.refs c - cids.count c) ∧
      ∀ c, c ∈ (release cids index).2 ↔ c ∈ index ∧ c ∈ cids ∧ index.refs c ≤ cids.count c
  | [], index, hown => by simp [release, hown]
  | c :: cids, index, hown => by
    cases hc : index.lookup c with
    | none =>
      have hnot := AList.lookup_eq_none.mp hc
      have hzero := ChunkIndex.refs_of_notMem hnot
      obtain ⟨hown', hmem, hrefs, hlist⟩ := release_spec cids index hown
      simp only [release, hc]
      refine ⟨hown', hmem, fun c' => ?_, fun c' => ?_⟩
      · rw [hrefs, List.count_cons]
        split <;> grind
      · rw [hlist, List.count_cons]
        grind
    | some entry =>
      have hin := ChunkIndex.mem_of_lookup hc
      obtain ⟨hown', hmem, hrefs, hlist⟩ := release_spec cids
        (index.insert c { entry with refCount := entry.refCount - 1 })
        (hown.insert (hown c entry hc))
      simp only [release, hc]
      refine ⟨hown', fun c' => ?_, fun c' => ?_, fun c' => ?_⟩
      · rw [hmem, AList.mem_insert]
        grind
      · rw [hrefs, ChunkIndex.refs_insert, List.count_cons]
        have := ChunkIndex.refs_of_lookup hc
        grind
      · have hrefs' := ChunkIndex.refs_of_lookup hc
        have := hlist c'
        rw [AList.mem_insert, ChunkIndex.refs_insert] at this
        rw [List.count_cons]
        grind

/-- The chunks of a manifest are counted down when it is taken away. -/
theorem Sound.release {cid : Cid} {m : BlockManifest} (hs : Sound dataOf initial s h)
    (hm : s.manifests.lookup cid = some m) :
    Sound dataOf initial
      { s with
        manifests := s.manifests.erase cid
        chunkIndex := (release m.chunks s.chunkIndex).1 }
      (holding .removing (DedupBlockStore.release m.chunks s.chunkIndex).2 + h) := by
  have hown : s.chunkIndex.Own := fun c entry hc => (hs.accounts c).own entry hc
  obtain ⟨hown', hmem, hrefs, hlist⟩ := release_spec m.chunks s.chunkIndex hown
  have hnamed := entriesHold_erase BlockManifest.chunks hm
  refine ⟨fun c => ?_, fun cid' m' hlookup => ?_⟩
  · obtain ⟨-, hbalanced, hzero, hkept, honly⟩ := hs.accounts c
    have hentry : (DedupBlockStore.release m.chunks s.chunkIndex).1.lookup c ≠ none
        ↔ s.chunkIndex.lookup c ≠ none := by
      rw [Ne, Ne, AList.lookup_eq_none, AList.lookup_eq_none, not_not, not_not, hmem]
    rw [show Account.refs _ = s.chunkIndex.refs c from rfl] at hbalanced hzero
    simp only [account, occurrences, hnamed, Multiset.count_add, Multiset.coe_count] at hbalanced
    refine ⟨fun entry hc => hown' c entry hc, ?_, fun hin hrefs0 => ?_, ?_, ?_⟩
    · rw [show Account.refs _ = (DedupBlockStore.release m.chunks s.chunkIndex).1.refs c from rfl,
        hrefs, hbalanced]
      simp [account, occurrences, holding_of_ne]
      omega
    · rw [show Account.refs _ = (DedupBlockStore.release m.chunks s.chunkIndex).1.refs c from rfl,
        hrefs] at hrefs0
      have hc := hentry.mp hin
      have hremoving : 0 < (h .removing).count c
          ∨ 0 < (DedupBlockStore.release m.chunks s.chunkIndex).2.count c := by
        by_cases hrefs' : s.chunkIndex.refs c = 0
        · exact .inl (hzero hc hrefs')
        · have hcount : 0 < m.chunks.count c := by omega
          refine .inr (List.count_pos_iff.mpr ((hlist c).mpr ⟨?_, ?_, by omega⟩))
          · rwa [Ne, AList.lookup_eq_none, not_not] at hc
          · exact List.count_pos_iff.mp hcount
      simp only [account, Pi.add_apply, holding_same, Multiset.count_add, Multiset.coe_count]
      omega
    · intro hin
      refine hkept (hin.imp hentry.mp (fun hstored => ?_))
      simpa [account, holding_of_ne] using hstored
    · intro hdata
      rcases honly hdata with hinit | hin | hrest
      · exact .inl hinit
      · exact .inr (.inl (hentry.mpr hin))
      · refine .inr (.inr ?_)
        simpa [account, holding_of_ne] using hrest
  · by_cases heq : cid' = cid
    · subst heq
      rw [AList.lookup_erase] at hlookup
      cases hlookup
    · rw [AList.lookup_erase_ne heq] at hlookup
      exact hs.manifests cid' m' hlookup

/-! ## One turn -/

/-- A block as `Block::new` makes it, none of whose identifiers collides. -/
structure Made (dataOf : Cid → List UInt8) (config : ChunkingConfig) (b : Block) : Prop where
  new : Block.new b.data = .ok b
  data : b.data = dataOf b.cid
  pieces : ∀ piece ∈ Chunker.chunk config b.data, piece = dataOf (cidOf codecRaw piece)

/-- What is still to be stored: blocks, and with what is counted they make up the block. -/
structure Pieces (dataOf : Cid → List UInt8) (b : Block) (done : List Cid)
    (rest : List (List UInt8)) : Prop where
  describes : Block.new (dataOf b.cid) = .ok { cid := b.cid, data := dataOf b.cid }
  whole : done.flatMap dataOf ++ rest.flatten = dataOf b.cid
  blocks : ∀ piece ∈ rest, Block.new piece = .ok { cid := cidOf codecRaw piece, data := piece }
  named : ∀ piece ∈ rest, piece = dataOf (cidOf codecRaw piece)

omit [BlockStore C] [BlockStore.Faithful C] in
theorem Made.pieces_chunk {config : ChunkingConfig} {b : Block} (hb : Made dataOf config b) :
    Pieces dataOf b [] (Chunker.chunk config b.data) where
  describes := by
    rw [← hb.data]
    exact hb.new
  whole := by rw [List.flatMap_nil, List.nil_append, Chunker.chunk_flatten, hb.data]
  blocks _ h := Chunker.new_of_mem_chunk hb.new h
  named := hb.pieces

/-- A task that holds what its call needs. -/
def RightTask (dataOf : Cid → List UInt8) : DedupTask → Prop
  | .putting b done chunk rest => Pieces dataOf b done (chunk.data :: rest)
      ∧ chunk.cid = cidOf codecRaw chunk.data
  | .stored b done chunk rest => Pieces dataOf b done (chunk.data :: rest)
      ∧ chunk.cid = cidOf codecRaw chunk.data
  | _ => True

/-- What a turn of a call leaves behind, where the other calls hold `h`. -/
structure Turned (dataOf : Cid → List UInt8) (initial : Content) (s : DedupBlockStore C)
    (h : Holdings) (call : DedupCall) (r : DedupTask × DedupBlockStore C) : Prop where
  sound : Sound dataOf initial r.2 (r.1.holdings + h)
  right : RightTask dataOf r.1
  call_eq : r.1.call = call
  config_eq : r.2.config = s.config
  manifests : ∀ cid m, call ≠ .delete cid → s.manifests.lookup cid = some m →
    r.2.manifests.lookup cid = some m
  acked : ∀ b a, r.1 = .returned (.put b) (.ok a) → r.2.manifests.lookup b.cid ≠ none

omit [BlockStore C] [BlockStore.Faithful C] in
theorem Pieces.next {b : Block} {done : List Cid} {piece : List UInt8} {rest : List (List UInt8)}
    (hp : Pieces dataOf b done (piece :: rest)) :
    Pieces dataOf b (done ++ [cidOf codecRaw piece]) rest where
  describes := hp.describes
  whole := by
    have hpiece := hp.named piece List.mem_cons_self
    rw [← hp.whole, List.flatMap_append, List.flatMap_singleton, ← hpiece, List.flatten_cons,
      List.append_assoc]
  blocks piece' h := hp.blocks piece' (List.mem_cons_of_mem _ h)
  named piece' h := hp.named piece' (List.mem_cons_of_mem _ h)

/-- A put goes on to its next await point, or to its end if the block has no manifest. -/
theorem storeChunks_turned {b : Block} : ∀ (rest : List (List UInt8)) {done : List Cid}
    {s : DedupBlockStore C}, Sound dataOf initial s (holding .counted done + h) →
      Pieces dataOf b done rest →
        ((∀ piece ∈ rest, cidOf codecRaw piece ∈ s.chunkIndex) →
          s.manifests.lookup b.cid = none) →
        Turned dataOf initial s h (.put b) (storeChunks b done rest s)
  | [], done, s, hs, hp, hnone => by
    have hnone' := hnone (by simp)
    have hwhole := hp.whole
    rw [List.flatten_nil, List.append_nil] at hwhole
    refine ⟨?_, trivial, rfl, rfl, fun cid m _ hm => ?_, fun b' a hb => ?_⟩
    · have hfinish := hs.finish hnone' ⟨hwhole, hp.describes⟩
      simpa [storeChunks, DedupTask.holdings_eq, DedupTask.held] using hfinish
    · have hne : cid ≠ b.cid := by
        rintro rfl
        rw [hm] at hnone'
        cases hnone'
      rw [storeChunks, AList.lookup_insert_ne hne, hm]
    · cases hb
      simp [storeChunks]
  | piece :: rest, done, s, hs, hp, hnone => by
    rw [storeChunks, hp.blocks piece List.mem_cons_self]
    cases hc : s.chunkIndex.lookup (cidOf codecRaw piece) with
    | none =>
      simp only [hc]
      refine ⟨?_, ⟨hp, rfl⟩, rfl, rfl, fun _ _ _ hm => hm, fun _ _ hb => by cases hb⟩
      simpa [DedupTask.holdings_eq, DedupTask.held] using hs
    | some entry =>
      obtain ⟨cid, refCount⟩ := entry
      obtain rfl : cid = cidOf codecRaw piece := (hs.accounts _).own _ hc
      simp only [hc]
      have hshare := hs.share hc
      rw [← add_assoc, add_comm (holding .counted [_]), ← holding_append] at hshare
      have hin := ChunkIndex.mem_of_lookup hc
      have hturned := storeChunks_turned rest hshare hp.next
        (fun hall => hnone (fun piece' h' => ?_))
      · exact ⟨hturned.sound, hturned.right, hturned.call_eq, hturned.config_eq,
          hturned.manifests, hturned.acked⟩
      · rcases List.mem_cons.mp h' with rfl | h'
        · exact hin
        · rcases (AList.mem_insert _).mp (hall piece' h') with heq | hin'
          · rwa [heq]
          · exact hin'

/-- A delete goes on to its next await point; the chunk that it takes out is uncounted. -/
theorem removeChunks_turned (cid : Cid) : ∀ (rest : List Cid),
    Sound dataOf initial s (holding .removing rest + h) →
      (∀ c, rest.find? (fun c => decide (c ∈ s.chunkIndex)) = some c → s.chunkIndex.refs c = 0) →
        Turned dataOf initial s h (.delete cid) (removeChunks cid rest s)
  | [], hs, _ => by
    refine ⟨?_, trivial, rfl, rfl, fun _ _ _ hm => hm, fun _ _ hb => by cases hb⟩
    simpa [removeChunks, DedupTask.holdings_eq, DedupTask.held] using hs
  | c :: rest, hs, hzero => by
    rw [← List.singleton_append, holding_append, add_assoc] at hs
    rw [removeChunks]
    cases hc : s.chunkIndex.lookup c with
    | none =>
      have hnot := AList.lookup_eq_none.mp hc
      refine removeChunks_turned cid rest (hs.skip hnot) (fun c' hc' => hzero c' ?_)
      rw [List.find?_cons_of_neg (by simpa using hnot)]
      exact hc'
    | some entry =>
      have hin := ChunkIndex.mem_of_lookup hc
      refine ⟨?_, trivial, rfl, rfl, fun _ _ _ hm => hm, fun _ _ hb => by cases hb⟩
      have hremove := hs.remove (hzero c (List.find?_cons_of_pos (by simpa using hin)))
      rw [← add_assoc] at hremove
      simpa [DedupTask.holdings_eq, DedupTask.held] using hremove

/-- A put that the store below fails has counted nothing yet; one that enters its chunk
is the first to do so, and if this is its last turn the block has no manifest. A chunk is
taken out of the index while uncounted, and it is deleted without a failure and while
it is neither in the index again nor stored for it. -/
def SafeTask (s : DedupBlockStore C) (h : Holdings) : DedupTask → Prop
  | .putting _ done chunk _ => endsWell (ColdStore.put chunk s.inner) = false → done = []
  | .stored b _ chunk rest => chunk.cid ∉ s.chunkIndex ∧
      ((∀ piece ∈ rest, cidOf codecRaw piece = chunk.cid ∨ cidOf codecRaw piece ∈ s.chunkIndex) →
        b.cid ∉ s.manifests)
  | .deleting _ chunk _ => endsWell (ColdStore.delete chunk s.inner) = true ∧
      chunk ∉ s.chunkIndex ∧ chunk ∉ h .stored
  | .deleted _ rest =>
    ∀ c ∈ rest.find? (fun c => decide (c ∈ s.chunkIndex)), s.chunkIndex.refs c = 0
  | _ => True

/-- A task that holds no chunk: a get, or a call that is over. -/
def holdsNothing : DedupTask → Bool
  | .reading _ _ _ _ => true
  | .returned _ _ => true
  | .failed _ _ => true
  | _ => false

/-- A turn after which the task holds nothing and the manifests are what they were. -/
theorem Turned.idle {t : DedupTask} {s' : DedupBlockStore C} (hs : Sound dataOf initial s' h)
    (ht : holdsNothing t = true) (hconfig : s'.config = s.config)
    (hmanifests : s'.manifests = s.manifests)
    (hacked : ∀ b a, t = .returned (.put b) (.ok a) → s.manifests.lookup b.cid ≠ none) :
    Turned dataOf initial s h t.call (t, s') := by
  have hholdings : t.holdings = 0 := by
    funext role
    cases t <;> cases ht <;> cases role <;> rfl
  refine ⟨?_, ?_, rfl, hconfig, fun cid m _ hm => by rwa [hmanifests], fun b a hb => ?_⟩
  · rwa [hholdings, zero_add]
  · cases t <;> trivial
  · rw [hmanifests]
    exact hacked b a hb

omit [BlockStore C] [BlockStore.Faithful C] in
/-- A get goes on to its next await point or returns. -/
theorem reconstruct_spec (cid : Cid) (chunks : List Cid) (data : List UInt8) :
    holdsNothing (reconstruct cid chunks data) = true
      ∧ (reconstruct cid chunks data).call = .get cid := by
  cases chunks <;> exact ⟨rfl, rfl⟩

omit [BlockStore C] [BlockStore.Faithful C] in
theorem storeChunks_call (b : Block) : ∀ (rest : List (List UInt8)) (done : List Cid)
    (s : DedupBlockStore C), (storeChunks b done rest s).1.call = .put b
  | [], _, _ => rfl
  | piece :: rest, done, s => by
    rw [storeChunks.eq_def]
    dsimp only
    split
    · rfl
    · split
      · exact storeChunks_call b rest _ _
      · rfl

omit [BlockStore C] [BlockStore.Faithful C] [CidCrate] in
theorem removeChunks_call (cid : Cid) : ∀ (rest : List Cid) (s : DedupBlockStore C),
    (removeChunks cid rest s).1.call = .delete cid
  | [], _ => rfl
  | c :: rest, s => by
    rw [removeChunks]
    split
    · exact removeChunks_call cid rest s
    · rfl

omit [BlockStore C] [BlockStore.Faithful C] in
theorem start_call (call : DedupCall) (s : DedupBlockStore C) : (start call s).1.call = call := by
  cases call with
  | put b =>
    simp only [start]
    split
    · rfl
    · exact storeChunks_call b _ _ _
  | get cid =>
    simp only [start]
    split
    · rfl
    · exact (reconstruct_spec cid _ _).2
  | delete cid =>
    simp only [start]
    split
    · rfl
    · exact removeChunks_call cid _ _

omit [BlockStore.Faithful C] in
theorem resume_call (t : DedupTask) (s : DedupBlockStore C) : (resume t s).1.call = t.call := by
  cases t with
  | stored b done chunk rest => exact storeChunks_call b rest _ _
  | deleted cid rest => exact removeChunks_call cid rest s
  | returned | failed => rfl
  | putting | deleting =>
    simp only [resume, asks]
    split <;> rfl
  | reading cid chunk rest data =>
    simp only [resume, asks]
    split
    · split
      · exact (reconstruct_spec cid rest _).2
      · rfl
    · rfl

/-- A get's turn. -/
theorem Turned.get {t : DedupTask} {cid : Cid} {s' : DedupBlockStore C}
    (hs : Sound dataOf initial s' h) (ht : holdsNothing t = true) (hcall : t.call = .get cid)
    (hconfig : s'.config = s.config) (hmanifests : s'.manifests = s.manifests) :
    Turned dataOf initial s h (.get cid) (t, s') := by
  rw [← hcall]
  refine Turned.idle hs ht hconfig hmanifests (fun b a hb => ?_)
  rw [hb] at hcall
  cases hcall

theorem start_turned (call : DedupCall) (hs : Sound dataOf initial s h)
    (hmade : ∀ b, call = .put b → Made dataOf s.config b) :
    Turned dataOf initial s h call (start call s) := by
  cases call with
  | put b =>
    simp only [start]
    cases hm : s.manifests.lookup b.cid with
    | some m =>
      refine Turned.idle (t := .returned (.put b) (.ok .done)) hs rfl rfl rfl ?_
      intro b' a hb
      cases hb
      simp [hm]
    | none =>
      refine storeChunks_turned _ ?_ (hmade b rfl).pieces_chunk (fun _ => hm)
      rwa [holding_nil, zero_add]
  | get cid =>
    simp only [start]
    cases s.manifests.lookup cid with
    | none => exact Turned.get hs rfl rfl rfl rfl
    | some m =>
      obtain ⟨hnothing, hcall⟩ := reconstruct_spec cid m.chunks []
      exact Turned.get hs hnothing hcall rfl rfl
  | delete cid =>
    simp only [start]
    cases hm : s.manifests.lookup cid with
    | none =>
      refine Turned.idle (t := .returned (.delete cid) (.ok .done)) hs rfl rfl rfl ?_
      exact fun b a hb => by cases hb
    | some m =>
      have hown : s.chunkIndex.Own := fun c entry hc => (hs.accounts c).own entry hc
      obtain ⟨-, hmem, hrefs, hlist⟩ := release_spec m.chunks s.chunkIndex hown
      have hturned := removeChunks_turned cid _ (hs.release hm) (fun c hc => ?_)
      · refine ⟨hturned.sound, hturned.right, hturned.call_eq, hturned.config_eq,
          fun cid' m' hne hm' => hturned.manifests cid' m' hne ?_, hturned.acked⟩
        rw [AList.lookup_erase_ne, hm']
        rintro rfl
        exact hne rfl
      · have hin := (hlist c).mp (List.mem_of_find?_eq_some hc)
        rw [hrefs]
        omega

theorem resume_turned {t : DedupTask} (hs : Sound dataOf initial s (t.holdings + h))
    (hright : RightTask dataOf t) (hsafe : SafeTask s (t.holdings + h) t)
    (hover : t.isOver = false) : Turned dataOf initial s h t.call (resume t s) := by
  cases t with
  | putting b done chunk rest =>
    have hheld : (DedupTask.putting b done chunk rest).holdings = holding .counted done := by
      simp [DedupTask.holdings_eq, DedupTask.held]
    have hput := put_ends chunk s.inner
    simp only [Ends] at hput
    rw [hheld] at hs
    simp only [resume, asks]
    cases hrun : ColdStore.put chunk s.inner with
    | ok a inner =>
      rw [hrun] at hput
      refine ⟨?_, hright, rfl, rfl, fun _ _ _ hm => hm, fun _ _ hb => by cases hb⟩
      have hdata : chunk.data = dataOf chunk.cid := by
        rw [hright.2]
        exact hright.1.named chunk.data List.mem_cons_self
      have hput' : lookup inner
          = Function.update (lookup s.inner) chunk.cid (some (dataOf chunk.cid)) := by
        rw [← hdata]
        exact hput
      have hstored := hs.put hput'
      rw [← add_assoc, add_comm (holding .stored _)] at hstored
      simpa [DedupTask.holdings_eq, DedupTask.held] using hstored
    | error e inner =>
      rw [hrun] at hput
      have hdone := hsafe (by rw [hrun]; rfl)
      rw [hdone, holding_nil, zero_add] at hs
      refine Turned.idle (t := .failed (.put b) e) (hs.same hput) rfl rfl rfl ?_
      exact fun _ _ hb => by cases hb
  | stored b done chunk rest =>
    have hheld : (DedupTask.stored b done chunk rest).holdings
        = holding .counted done + holding .stored [chunk.cid] := by
      simp [DedupTask.holdings_eq, DedupTask.held]
    rw [hheld, add_comm (holding .counted done), add_assoc] at hs
    have henter := hs.enter hsafe.1
    rw [← add_assoc, add_comm (holding .counted [_]), ← holding_append] at henter
    have hnext := hright.1.next
    rw [← hright.2] at hnext
    have hturned := storeChunks_turned rest henter hnext (fun hall => ?_)
    · exact ⟨hturned.sound, hturned.right, hturned.call_eq, hturned.config_eq,
        hturned.manifests, hturned.acked⟩
    · refine AList.lookup_eq_none.mpr (hsafe.2 (fun piece hpiece => ?_))
      exact (AList.mem_insert _).mp (hall piece hpiece)
  | reading cid chunk rest data =>
    have hheld : (DedupTask.reading cid chunk rest data).holdings = 0 := by
      simp [DedupTask.holdings_eq, DedupTask.held]
    have hget := get_ends chunk s.inner
    simp only [Ends] at hget
    rw [hheld, zero_add] at hs
    simp only [resume, asks]
    cases hrun : ColdStore.get chunk s.inner with
    | ok r inner =>
      rw [hrun] at hget
      cases r with
      | none => exact Turned.get (hs.same hget.2) rfl rfl rfl rfl
      | some b =>
        obtain ⟨hnothing, hcall⟩ := reconstruct_spec cid rest (data ++ b.data)
        exact Turned.get (hs.same hget.2) hnothing hcall rfl rfl
    | error e inner =>
      rw [hrun] at hget
      exact Turned.get (hs.same hget) rfl rfl rfl rfl
  | deleting cid chunk rest =>
    have hheld : (DedupTask.deleting cid chunk rest).holdings
        = holding .deleting [chunk] + holding .removing rest := by
      simp [DedupTask.holdings_eq, DedupTask.held]
    obtain ⟨hok, hnot, hstored⟩ := hsafe
    have hdelete := delete_ends chunk s.inner
    simp only [Ends] at hdelete
    rw [hheld, add_assoc] at hs
    rw [Pi.add_apply, Multiset.mem_add, not_or] at hstored
    simp only [resume, asks]
    cases hrun : ColdStore.delete chunk s.inner with
    | ok a inner =>
      rw [hrun] at hdelete
      refine ⟨?_, trivial, rfl, rfl, fun _ _ _ hm => hm, fun _ _ hb => by cases hb⟩
      have hdelete' : lookup inner = Function.update (lookup s.inner) chunk none := hdelete
      have hdeleted := hs.delete hdelete' hnot (by simpa [holding_of_ne] using hstored.2)
      simpa [DedupTask.holdings_eq, DedupTask.held] using hdeleted
    | error e inner =>
      rw [hrun] at hok
      cases hok
  | deleted cid rest =>
    have hheld : (DedupTask.deleted cid rest).holdings = holding .removing rest := by
      simp [DedupTask.holdings_eq, DedupTask.held]
    rw [hheld] at hs
    exact removeChunks_turned cid rest hs (fun c hc => hsafe c hc)
  | returned | failed => cases hover

end Sound

/-! ## Runs -/

section Runs

variable [BlockStore C] [BlockStore.Faithful C] [CidCrate]

def NoDelete (cid : Cid) (p : Pool (DedupBlockStore C) DedupTask) : Prop :=
  DedupCall.delete cid ∉ p.tasks.map DedupTask.call

/-- No call is running. -/
def Quiet (p : Pool (DedupBlockStore C) DedupTask) : Prop := ∀ t ∈ p.tasks, t.isOver = true

/-- The index has the chunks of the manifests with the number of their occurrences, and the
store below has nothing else but what it had at first. -/
structure CountsExact (initial : Content) (s : DedupBlockStore C) : Prop where
  indexed : ∀ c ∈ s.occurrences, c ∈ s.chunkIndex
  counts : ∀ c entry, s.chunkIndex.lookup c = some entry →
    entry.refCount = s.occurrences.count c
  absent : ∀ c, c ∉ s.occurrences →
    c ∉ s.chunkIndex ∧ (lookup s.inner c ≠ none → initial c ≠ none)

/-- A get that begins after the put of a block has returned, and answers without a failure
of the store below, answers with the block, unless a delete of it has begun; and when no
call is running the counts are exact. -/
def Deduplicates (p : Pool (DedupBlockStore C) DedupTask) (turns : List (Turn DedupCall)) : Prop :=
  (∀ before after, turns = before ++ after →
    let now := machine.run p before
    let later := machine.run p turns
    ∀ (i : Nat) b, now.tasks[i]? = some (.returned (.put b) (.ok .done)) → NoDelete b.cid later →
      ∀ (j : Nat) r, now.tasks.length ≤ j → later.tasks[j]? = some (.returned (.get b.cid) r) →
        r = .ok (.block (some b))) ∧
    (Quiet (machine.run p turns) →
      CountsExact (lookup p.shared.inner) (machine.run p turns).shared)

/-- The blocks of the puts are made as they should. -/
def MadeTurn (dataOf : Cid → List UInt8) (config : ChunkingConfig) : Turn DedupCall → Prop
  | .call (.put b) => Made dataOf config b
  | _ => True

def SafeTurn (p : Pool (DedupBlockStore C) DedupTask) : Turn DedupCall → Prop
  | .call _ => True
  | .resume i => ∀ t ∈ p.tasks[i]?, SafeTask p.shared (holdings p.tasks) t

variable {dataOf : Cid → List UInt8} {initial : Content} {config : ChunkingConfig}
  {p : Pool (DedupBlockStore C) DedupTask} {turn : Turn DedupCall}

/-- What every safe turn keeps. -/
structure Exact (dataOf : Cid → List UInt8) (initial : Content) (config : ChunkingConfig)
    (p : Pool (DedupBlockStore C) DedupTask) : Prop where
  config_eq : p.shared.config = config
  sound : Sound dataOf initial p.shared (holdings p.tasks)
  made : ∀ u ∈ p.tasks, ∀ b, u.call = .put b → Made dataOf config b
  right : ∀ u ∈ p.tasks, RightTask dataOf u
  acked : ∀ b a, DedupTask.returned (.put b) (.ok a) ∈ p.tasks → NoDelete b.cid p →
    p.shared.manifests.lookup b.cid ≠ none

/-- A turn changes nothing, or one task `r.1` turns while the others hold what they held. -/
structure Turns (dataOf : Cid → List UInt8) (initial : Content) (config : ChunkingConfig)
    (p p' : Pool (DedupBlockStore C) DedupTask) (h : Holdings)
    (r : DedupTask × DedupBlockStore C) : Prop where
  turned : Turned dataOf initial p.shared h r.1.call r
  made : ∀ b, r.1.call = .put b → Made dataOf config b
  shared : p'.shared = r.2
  holdings : Storage.holdings p'.tasks = r.1.holdings + h
  mem : r.1 ∈ p'.tasks
  old : ∀ u ∈ p'.tasks, u ∈ p.tasks ∨ u = r.1

theorem Exact.turns (hp : Exact dataOf initial config p)
    (hmade : MadeTurn dataOf config turn) (hsafe : SafeTurn p turn) :
    machine.step p turn = p ∨ ∃ h r, Turns dataOf initial config p (machine.step p turn) h r := by
  cases turn with
  | call k =>
    have hmade' : ∀ b, k = .put b → Made dataOf config b := by
      rintro b rfl
      exact hmade
    have hturned := start_turned k hp.sound (hp.config_eq ▸ hmade')
    refine .inr ⟨holdings p.tasks, start k p.shared, ?_, fun b hb => ?_, rfl,
      holdings_append _ _, by simp [Machine.step, machine], fun u hu => ?_⟩
    · rwa [hturned.call_eq]
    · rw [hturned.call_eq] at hb
      exact hmade' b hb
    · simpa [Machine.step, machine] using hu
  | resume i =>
    cases ht : p.tasks[i]? with
    | none => exact .inl (Machine.step_resume_none ht)
    | some t =>
      have hmem := List.mem_of_getElem? ht
      have hset := Machine.step_resume (m := machine (C := C)) ht
      cases hover : t.isOver with
      | true =>
        have hsame : resume t p.shared = (t, p.shared) := by
          cases t <;> first | rfl | cases hover
        refine .inl ?_
        rw [hset, show machine.resume t p.shared = (t, p.shared) from hsame]
        obtain ⟨hlt, rfl⟩ := List.getElem?_eq_some_iff.mp ht
        rw [List.set_getElem_self]
      | false =>
        obtain ⟨others, hold, hnew⟩ := exists_holdings_set ht
        have hsound := hp.sound
        have hsafe' := hsafe t ht
        rw [hold] at hsound hsafe'
        have hturned := resume_turned hsound (hp.right t hmem) hsafe' hover
        refine .inr ⟨others, resume t p.shared, ?_, fun b hb => ?_, by rw [hset]; rfl,
          by rw [hset]; exact hnew _, ?_, fun u hu => ?_⟩
        · rwa [hturned.call_eq]
        · rw [hturned.call_eq] at hb
          exact hp.made t hmem b hb
        · exact List.mem_of_getElem? ((Machine.getElem?_resume ht).mpr (.inl ⟨rfl, rfl⟩))
        · obtain ⟨j, hj⟩ := List.mem_iff_getElem?.mp hu
          rcases (Machine.getElem?_resume ht).mp hj with ⟨-, rfl⟩ | ⟨-, hold⟩
          · exact .inr rfl
          · exact .inl (List.mem_of_getElem? hold)

omit [BlockStore.Faithful C] in
theorem NoDelete.of_step {cid : Cid} (hno : NoDelete cid (machine.step p turn)) : NoDelete cid p :=
  fun h => hno ((Machine.labels_prefix_step resume_call p turn).subset h)

/-- The manifest of a block that no call deletes stays. -/
theorem Turns.manifests {p' : Pool (DedupBlockStore C) DedupTask} {h : Holdings}
    {r : DedupTask × DedupBlockStore C} (ht : Turns dataOf initial config p p' h r) {cid : Cid}
    {m : BlockManifest} (hno : NoDelete cid p') (hm : p.shared.manifests.lookup cid = some m) :
    p'.shared.manifests.lookup cid = some m := by
  rw [ht.shared]
  refine ht.turned.manifests cid m (fun hcall => hno ?_) hm
  rw [← hcall]
  exact List.mem_map_of_mem ht.mem

theorem Exact.step (hp : Exact dataOf initial config p) (hmade : MadeTurn dataOf config turn)
    (hsafe : SafeTurn p turn) : Exact dataOf initial config (machine.step p turn) := by
  rcases hp.turns hmade hsafe with hsame | ⟨h, r, ht⟩
  · rwa [hsame]
  refine ⟨?_, ?_, fun u hu b hb => ?_, fun u hu => ?_, fun b a hu hno => ?_⟩
  · rw [ht.shared, ht.turned.config_eq, hp.config_eq]
  · rw [ht.shared, ht.holdings]
    exact ht.turned.sound
  · rcases ht.old u hu with hold | rfl
    · exact hp.made u hold b hb
    · exact ht.made b hb
  · rcases ht.old u hu with hold | rfl
    · exact hp.right u hold
    · exact ht.turned.right
  · rcases ht.old _ hu with hold | hr
    · obtain ⟨m, hm⟩ := Option.ne_none_iff_exists'.mp (hp.acked b a hold hno.of_step)
      rw [ht.manifests hno hm]
      exact Option.some_ne_none m
    · rw [ht.shared]
      exact ht.turned.acked b a hr.symm

/-! ### What a get reads -/

/-- A get that has read a part of the chunks, the rest of which it is to read. -/
def ReadRight (dataOf : Cid → List UInt8) (cid : Cid) (chunks : List Cid) : DedupTask → Prop
  | .reading _ chunk rest data =>
    data ++ (chunk :: rest).flatMap dataOf = dataOf cid ∧ ∀ c ∈ chunk :: rest, c ∈ chunks
  | .returned _ a => a = .ok (.block (some { cid, data := dataOf cid }))
  | _ => True

omit [BlockStore C] [BlockStore.Faithful C] in
theorem reconstruct_right {cid : Cid} {chunks rest : List Cid} {data : List UInt8}
    (hblock : Block.new (dataOf cid) = .ok { cid, data := dataOf cid })
    (hwhole : data ++ rest.flatMap dataOf = dataOf cid) (hin : ∀ c ∈ rest, c ∈ chunks) :
    ReadRight dataOf cid chunks (reconstruct cid rest data) := by
  cases rest with
  | cons c rest => exact ⟨hwhole, hin⟩
  | nil =>
    rw [List.flatMap_nil, List.append_nil] at hwhole
    rw [reconstruct, ReadRight, hwhole, hblock]
    rfl

theorem resume_read {cid : Cid} {m : BlockManifest} {t : DedupTask} {s : DedupBlockStore C}
    {h : Holdings} (hs : Sound dataOf initial s h) (hm : s.manifests.lookup cid = some m)
    (hcall : t.call = .get cid) (ht : ReadRight dataOf cid m.chunks t) :
    ReadRight dataOf cid m.chunks (resume t s).1 := by
  cases t with
  | putting | stored | deleting | deleted => cases hcall
  | returned | failed => exact ht
  | reading cid' chunk rest data =>
    cases hcall
    obtain ⟨hwhole, hin⟩ := ht
    have hget := get_ends chunk s.inner
    simp only [Ends] at hget
    simp only [resume, asks]
    cases hrun : ColdStore.get chunk s.inner with
    | error e inner => trivial
    | ok r inner =>
      rw [hrun] at hget
      have hstored := hs.stored_of_counted
        (mem_entriesHold BlockManifest.chunks hm (hin chunk List.mem_cons_self))
      have hr : r = some { cid := chunk, data := dataOf chunk } := by
        rw [hget.1, Content.get, hstored, Option.map_some]
      rw [hr]
      refine reconstruct_right (hs.manifests _ m hm).2 ?_ (fun c hc => ?_)
      · rw [← hwhole, List.flatMap_cons, List.append_assoc]
      · exact hin c (List.mem_cons_of_mem _ hc)

/-- From an acknowledgement on: the manifest stays and the gets that begin now read it. -/
structure Acked (dataOf : Cid → List UInt8) (initial : Content) (config : ChunkingConfig)
    (n : Nat) (cid : Cid) (p : Pool (DedupBlockStore C) DedupTask) : Prop where
  exact : Exact dataOf initial config p
  reads : NoDelete cid p → ∃ m, p.shared.manifests.lookup cid = some m ∧
    ∀ j u, n ≤ j → p.tasks[j]? = some u → u.call = .get cid → ReadRight dataOf cid m.chunks u

theorem Acked.step {n : Nat} {cid : Cid} (hp : Acked dataOf initial config n cid p)
    (hmade : MadeTurn dataOf config turn) (hsafe : SafeTurn p turn) :
    Acked dataOf initial config n cid (machine.step p turn) := by
  refine ⟨hp.exact.step hmade hsafe, fun hno => ?_⟩
  obtain ⟨m, hm, hreads⟩ := hp.reads hno.of_step
  refine ⟨m, ?_, fun j u hj hu hcall => ?_⟩
  · rcases hp.exact.turns hmade hsafe with hsame | ⟨h, r, ht⟩
    · rwa [hsame]
    · exact ht.manifests hno hm
  · rcases Machine.getElem?_step hu with hold | ⟨k, -, -, rfl⟩ | ⟨t, -, ht, rfl⟩
    · exact hreads j u hj hold hcall
    · have hk : k = .get cid := (start_call k p.shared).symm.trans hcall
      subst hk
      show ReadRight dataOf cid m.chunks (start (.get cid) p.shared).1
      simp only [start, hm]
      obtain ⟨hwhole, hblock⟩ := hp.exact.sound.manifests cid m hm
      exact reconstruct_right hblock (by rwa [List.nil_append]) (fun c hc => hc)
    · have hcall' : t.call = .get cid := (resume_call t p.shared).symm.trans hcall
      exact resume_read hp.exact.sound hm hcall' (hreads j t hj ht hcall')

/-! ### When no call is running -/

theorem Exact.counts (hp : Exact dataOf initial config p) (hquiet : Quiet p) :
    CountsExact initial p.shared := by
  have hnone : ∀ role, holdings p.tasks role = 0 := by
    intro role
    refine pooled_eq_zero (fun t ht => ?_)
    have hover := hquiet t ht
    cases t <;> cases hover <;> cases role <;> rfl
  have haccount := hp.sound.accounts
  simp only [account, hnone, add_zero, Multiset.count_zero] at haccount
  refine ⟨fun c hc => ?_, fun c entry hc => ?_, fun c hc => ?_⟩
  · have hbalanced := (haccount c).balanced
    by_contra hnot
    have hpos := Multiset.count_pos.mpr hc
    simp only [Account.refs, AList.lookup_eq_none.mpr hnot, Option.elim_none] at hbalanced
    omega
  · have hbalanced := (haccount c).balanced
    simpa only [Account.refs, hc, Option.elim_some] using hbalanced
  · have hentry : p.shared.chunkIndex.lookup c = none := by
      by_contra hin
      refine absurd ((haccount c).zero hin ?_) (Nat.lt_irrefl 0)
      rw [(haccount c).balanced]
      exact Multiset.count_eq_zero.mpr hc
    refine ⟨AList.lookup_eq_none.mp hentry, fun hdata => ?_⟩
    simpa [hentry] using (haccount c).only hdata

/-! ### Runs -/

/-- In every run whose turns are safe the blocks stay readable and the counts exact. -/
theorem deduplicates (inner : C) (turns : List (Turn DedupCall))
    (hmade : ∀ turn ∈ turns, MadeTurn dataOf config turn)
    (hmeets : machine.Meets SafeTurn turns { shared := new inner config, tasks := [] }) :
    Deduplicates { shared := new inner config, tasks := [] } turns := by
  have hall := Machine.Meets.and hmade hmeets
  have hkeeps : ∀ (p : Pool (DedupBlockStore C) DedupTask) (turn : Turn DedupCall),
      Exact dataOf (lookup inner) config p → MadeTurn dataOf config turn ∧ SafeTurn p turn →
        Exact dataOf (lookup inner) config (machine.step p turn) :=
    fun _ _ hp hturn => hp.step hturn.1 hturn.2
  have hnew : Exact dataOf (lookup inner) config { shared := new inner config, tasks := [] } := by
    refine ⟨rfl, ⟨fun c => ⟨?_, ?_, ?_, ?_, fun h => .inl h⟩, ?_⟩, ?_, ?_, ?_⟩ <;>
      simp [new, account, Account.refs, occurrences, entriesHold, holdings]
  refine ⟨?_, fun hquiet => (Machine.step_induction hkeeps turns _ hnew hall).counts hquiet⟩
  rintro before after rfl now later i b hreturned hno j r hj hread
  obtain ⟨hbefore, hafter⟩ := Machine.meets_append.mp hall
  have hnow := Machine.step_induction hkeeps before _ hnew hbefore
  have hacked : Acked dataOf (lookup inner) config now.tasks.length b.cid now := by
    refine ⟨hnow, fun hno' => ?_⟩
    obtain ⟨m, hm⟩ := Option.ne_none_iff_exists'.mp
      (hnow.acked b .done (List.mem_of_getElem? hreturned) hno')
    refine ⟨m, hm, fun k u hk hu _ => ?_⟩
    rw [List.getElem?_eq_none hk] at hu
    cases hu
  have hackedKeeps : ∀ (p : Pool (DedupBlockStore C) DedupTask) (turn : Turn DedupCall),
      Acked dataOf (lookup inner) config now.tasks.length b.cid p →
        MadeTurn dataOf config turn ∧ SafeTurn p turn →
          Acked dataOf (lookup inner) config now.tasks.length b.cid (machine.step p turn) :=
    fun _ _ hp hturn => hp.step hturn.1 hturn.2
  have hlater : Acked dataOf (lookup inner) config now.tasks.length b.cid later := by
    have h := Machine.step_induction hackedKeeps after now hacked hafter
    rwa [← Machine.run_append] at h
  obtain ⟨m, -, hreads⟩ := hlater.reads hno
  have hr : r = .ok (.block (some { cid := b.cid, data := dataOf b.cid })) :=
    hreads j _ hj hread rfl
  rw [hr, ← (hnow.made _ (List.mem_of_getElem? hreturned) b rfl).data]

end Runs

/-! ## Blocks of single bytes -/

section Decide

variable [BlockStore C] [CidCrate]

instance (dataOf : Cid → List UInt8) (config : ChunkingConfig) (b : Block) :
    Decidable (Made dataOf config b) :=
  decidable_of_iff (Block.new b.data = .ok b ∧ b.data = dataOf b.cid ∧
      ∀ piece ∈ Chunker.chunk config b.data, piece = dataOf (cidOf codecRaw piece))
    ⟨fun h => ⟨h.1, h.2.1, h.2.2⟩, fun h => ⟨h.new, h.data, h.pieces⟩⟩

instance (dataOf : Cid → List UInt8) (config : ChunkingConfig) : (turn : Turn DedupCall) →
    Decidable (MadeTurn dataOf config turn)
  | .call (.put _) => inferInstanceAs (Decidable (Made _ _ _))
  | .call (.get _) | .call (.delete _) | .resume _ => .isTrue trivial

instance (cid : Cid) (p : Pool (DedupBlockStore C) DedupTask) : Decidable (NoDelete cid p) :=
  inferInstanceAs (Decidable (DedupCall.delete cid ∉ p.tasks.map DedupTask.call))

instance (p : Pool (DedupBlockStore C) DedupTask) : Decidable (Quiet p) :=
  inferInstanceAs (Decidable (∀ t ∈ p.tasks, t.isOver = true))

instance (s : DedupBlockStore C) (h : Holdings) : (t : DedupTask) → Decidable (SafeTask s h t)
  | .putting _ done _ _ => inferInstanceAs (Decidable (_ = false → done = []))
  | .stored _ _ _ _ => inferInstanceAs (Decidable (_ ∉ _ ∧ (_ → _ ∉ _)))
  | .deleting _ _ _ => inferInstanceAs (Decidable (_ = true ∧ _ ∉ _ ∧ _ ∉ _))
  | .deleted _ rest =>
    inferInstanceAs (Decidable (∀ c ∈ rest.find? (fun c => decide (c ∈ s.chunkIndex)), _ = 0))
  | .reading _ _ _ _ | .returned _ _ | .failed _ _ => .isTrue trivial

instance (p : Pool (DedupBlockStore C) DedupTask) : (turn : Turn DedupCall) →
    Decidable (SafeTurn p turn)
  | .call _ => .isTrue trivial
  | .resume i => inferInstanceAs (Decidable (∀ t ∈ p.tasks[i]?, _))

end Decide

end DedupBlockStore

namespace LayerSample

open DedupBlockStore
open scoped CidFormat

def byteChunks : ChunkingConfig where
  minChunkSize := 1
  targetChunkSize := 1
  maxChunkSize := 1
  hashMask := 0
  min_pos := by decide
  min_le_target := by decide
  target_le_max := by decide

def blockOf (data : List UInt8) : Block := { cid := cidOf codecRaw data, data }

/-- The data of three identifiers. -/
def dataOf (cid : Cid) : List UInt8 :=
  if cid = cidOf codecRaw [1, 2] then [1, 2] else if cid = cidOf codecRaw [2] then [2] else [1]

def deduplicating (faults : List Bool) : Pool (DedupBlockStore FaultyStore) DedupTask :=
  { shared := DedupBlockStore.new { blocks := [], faults } byteChunks, tasks := [] }

/-- Two blocks that share a chunk; each call runs to its end before the next begins. -/
def inTurn : List (Turn DedupCall) :=
  [.call (.put (blockOf [1])), .resume 0, .resume 0, .call (.put (blockOf [1, 2])), .resume 1,
    .resume 1, .call (.delete (blockOf [1]).cid), .call (.get (blockOf [1, 2]).cid), .resume 3,
    .resume 3, .call (.delete (blockOf [1, 2]).cid), .resume 4, .resume 4, .resume 4, .resume 4]

theorem deduplicates_inTurn : Deduplicates (deduplicating []) inTurn :=
  @deduplicates FaultyStore _ _ _ dataOf byteChunks { blocks := [], faults := [] } inTurn
    (by decide +kernel) (by decide +kernel)

/-- Two puts store their common chunk at once, and the second sets its count back to one:
the delete of one block takes the chunk from the other. And a put that fails at its second
chunk has counted its first for good. -/
theorem not_deduplicates : ¬ Deduplicates (deduplicating [])
        ([.call (.put (blockOf [1])), .call (.put (blockOf [1, 2])), .resume 0, .resume 0,
          .resume 1, .resume 1, .resume 1, .resume 1]
          ++ [.call (.delete (blockOf [1]).cid), .resume 2, .resume 2,
            .call (.get (blockOf [1, 2]).cid), .resume 3]) ∧
      ¬ Deduplicates (deduplicating [false, true])
        [.call (.put (blockOf [1, 2])), .resume 0, .resume 0, .resume 0] := by
  refine ⟨fun h => ?_, fun h => ?_⟩
  · have hread := h.1 _ _ rfl 1 (blockOf [1, 2]) (by decide +kernel) (by decide +kernel) 3
      (.error (.blockNotFound (blockOf [1]).cid)) (by decide +kernel) (by decide +kernel)
    cases hread
  · have habsent := ((h.2 (by decide +kernel)).absent (blockOf [1]).cid (by decide +kernel)).1
    revert habsent
    decide +kernel

end LayerSample

end Ipfrs.Storage
