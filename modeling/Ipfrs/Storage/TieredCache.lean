/-
Ipfrs.Storage.TieredCache — a hot and a warm cache in front of a store
(`TieredBlockCache` and `TieredCachedBlockStore` of `cache.rs`).

What the hot tier displaces goes to the warm one; a hit in the warm tier is copied to the
hot one. A write goes into the cache first and then to the store, so a write that fails
there leaves its block in the cache. The batch operations are the defaults of the trait.

The counters of the tiers are left out: no answer depends on them.
-/
import Ipfrs.Storage.BlockStore
import Ipfrs.Lib.Lru

namespace Ipfrs.Storage

open Ipfrs.Core Ipfrs.Lib
open Ipfrs.Knowledge (ColdStore)
open Ipfrs.Knowledge.ColdStore.Faithful (lookup)

structure TieredBlockCache (Rep : Type) where
  l1Cache : Rep
  l2Cache : Rep

namespace TieredBlockCache

variable {Rep : Type} (lru : Lru Rep Cid Block)

/-- A capacity of zero stands for the default. -/
def capacityOr (default : ℕ+) (n : Nat) : ℕ+ := if h : 0 < n then ⟨n, h⟩ else default

def new (l1Capacity l2Capacity : Nat) : TieredBlockCache Rep :=
  { l1Cache := lru.new (capacityOr (Nat.toPNat' 100) l1Capacity)
    l2Cache := lru.new (capacityOr (Nat.toPNat' 1000) l2Capacity) }

def get (cid : Cid) (t : TieredBlockCache Rep) : Option Block × TieredBlockCache Rep :=
  let (hit1, l1Cache) := lru.get t.l1Cache cid
  match hit1 with
  | some b => (some b, { t with l1Cache })
  | none =>
    let (hit2, l2Cache) := lru.get t.l2Cache cid
    match hit2 with
    | some b => (some b, { l1Cache := lru.put l1Cache cid b, l2Cache })
    | none => (none, { l1Cache, l2Cache })

def put (pushing : lru.Pushing) (b : Block) (t : TieredBlockCache Rep) : TieredBlockCache Rep :=
  let (evicted, l1Cache) := pushing.push t.l1Cache b.cid b
  match evicted with
  | some e => { l1Cache, l2Cache := lru.put t.l2Cache e.1 e.2 }
  | none => { t with l1Cache }

def remove (cid : Cid) (t : TieredBlockCache Rep) : TieredBlockCache Rep :=
  { l1Cache := (lru.pop t.l1Cache cid).2, l2Cache := (lru.pop t.l2Cache cid).2 }

/-! ## What the tiers hold -/

/-- Every entry of both tiers has the property. -/
def All (P : Cid → Block → Prop) (t : TieredBlockCache Rep) : Prop :=
  lru.All P t.l1Cache ∧ lru.All P t.l2Cache

variable {lru} {P Q : Cid → Block → Prop} {t : TieredBlockCache Rep}

namespace All

theorem new (hl : lru.Lawful) (l1Capacity l2Capacity : Nat) :
    All lru P (TieredBlockCache.new lru l1Capacity l2Capacity) :=
  ⟨Lru.All.new hl _, Lru.All.new hl _⟩

theorem mono (h : All lru P t) (himp : ∀ cid b, P cid b → Q cid b) : All lru Q t :=
  ⟨h.1.mono himp, h.2.mono himp⟩

/-- What is found has the property, and looking for it changes no tier for the worse. -/
theorem get (hl : lru.Lawful) (h : All lru P t) (cid : Cid) :
    (∀ b, (TieredBlockCache.get lru cid t).1 = some b → P cid b)
      ∧ All lru P (TieredBlockCache.get lru cid t).2 := by
  cases hit1 : (lru.get t.l1Cache cid).1 with
  | some b =>
    simp only [TieredBlockCache.get, hit1]
    refine ⟨fun b' hb' => ?_, h.1.get hl cid, h.2⟩
    cases hb'
    exact h.1 cid b hit1
  | none =>
    cases hit2 : (lru.get t.l2Cache cid).1 with
    | some b =>
      simp only [TieredBlockCache.get, hit1, hit2]
      have hb := h.2 cid b hit2
      refine ⟨fun b' hb' => ?_, (h.1.get hl cid).put hl hb (fun _ _ _ hp => hp),
        h.2.get hl cid⟩
      cases hb'
      exact hb
    | none =>
      simp only [TieredBlockCache.get, hit1, hit2]
      exact ⟨(fun _ hb' => by cases hb'), h.1.get hl cid, h.2.get hl cid⟩

/-- The displaced entry is one of the hot tier. -/
theorem put (hl : lru.Lawful) (pushing : lru.Pushing) (h : All lru P t) {b : Block}
    (hb : P b.cid b) : All lru P (TieredBlockCache.put lru pushing b t) := by
  have hl1 : lru.All P (pushing.push t.l1Cache b.cid b).2 := by
    rw [pushing.snd_push]
    exact h.1.put hl hb (fun _ _ _ hp => hp)
  cases he : (pushing.push t.l1Cache b.cid b).1 with
  | none =>
    simp only [TieredBlockCache.put, he]
    exact ⟨hl1, h.2⟩
  | some e =>
    simp only [TieredBlockCache.put, he]
    have hgone := h.1 e.1 e.2 (pushing.fst_push _ _ _ e he)
    exact ⟨hl1, h.2.put hl hgone (fun _ _ _ hp => hp)⟩

theorem remove (hl : lru.Lawful) (hf : lru.Forgets) (h : All lru P t) (cid : Cid) :
    All lru (fun k b => k ≠ cid ∧ P k b) (TieredBlockCache.remove lru cid t) :=
  ⟨h.1.pop_ne hl hf cid, h.2.pop_ne hl hf cid⟩

end All

end TieredBlockCache

/-! ## The store -/

structure TieredCachedBlockStore (C Rep : Type) where
  store : C
  cache : TieredBlockCache Rep

namespace TieredCachedBlockStore

section Operations

variable {C Rep : Type} [BlockStore C] (lru : Lru Rep Cid Block) (pushing : lru.Pushing)

omit [BlockStore C] in
def new (store : C) (l1Capacity l2Capacity : Nat) : TieredCachedBlockStore C Rep :=
  { store, cache := TieredBlockCache.new lru l1Capacity l2Capacity }

omit [BlockStore C] in
/-- A call of the store below. -/
def below {α : Type} (m : EStateM Error C α) : EStateM Error (TieredCachedBlockStore C Rep) α :=
  zoom TieredCachedBlockStore.store (fun store s => { s with store }) m

omit [BlockStore C] in
def cacheGet (cid : Cid) (s : TieredCachedBlockStore C Rep) :
    Option Block × TieredCachedBlockStore C Rep :=
  let (hit, cache) := s.cache.get lru cid
  (hit, { s with cache })

omit [BlockStore C] in
def cachePut (b : Block) (s : TieredCachedBlockStore C Rep) : TieredCachedBlockStore C Rep :=
  { s with cache := s.cache.put lru pushing b }

def put (b : Block) : EStateM Error (TieredCachedBlockStore C Rep) Unit := do
  modify (cachePut lru pushing b)
  below (ColdStore.put b)

def get (cid : Cid) : EStateM Error (TieredCachedBlockStore C Rep) (Option Block) := do
  match ← modifyGet (cacheGet lru cid) with
  | some b => pure (some b)
  | none =>
    match ← below (ColdStore.get cid) with
    | some b => do
      modify (cachePut lru pushing b)
      pure (some b)
    | none => pure none

def has (cid : Cid) : EStateM Error (TieredCachedBlockStore C Rep) Bool := do
  match ← modifyGet (cacheGet lru cid) with
  | some _ => pure true
  | none => below (BlockStore.has cid)

def delete (cid : Cid) : EStateM Error (TieredCachedBlockStore C Rep) Unit := do
  modify (fun s => { s with cache := s.cache.remove lru cid })
  below (ColdStore.delete cid)

def putMany (blocks : List Block) : EStateM Error (TieredCachedBlockStore C Rep) Unit :=
  forEach (put lru pushing) blocks

def getMany (cids : List Cid) :
    EStateM Error (TieredCachedBlockStore C Rep) (List (Option Block)) :=
  eachInOrder (get lru pushing) cids

def hasMany (cids : List Cid) : EStateM Error (TieredCachedBlockStore C Rep) (List Bool) :=
  eachInOrder (has lru) cids

def deleteMany (cids : List Cid) : EStateM Error (TieredCachedBlockStore C Rep) Unit :=
  forEach (delete lru) cids

def perform : Request → EStateM Error (TieredCachedBlockStore C Rep) Answer
  | .put b => do put lru pushing b; pure .done
  | .putMany blocks => do putMany lru pushing blocks; pure .done
  | .get cid => do pure (.block (← get lru pushing cid))
  | .getMany cids => do pure (.blocks (← getMany lru pushing cids))
  | .has cid => do pure (.present (← has lru cid))
  | .hasMany cids => do pure (.presents (← hasMany lru cids))
  | .delete cid => do delete lru cid; pure .done
  | .deleteMany cids => do deleteMany lru cids; pure .done
  | .rebuildFilter => pure .done
  | .clearCache => pure .done

end Operations

/-! ## Its answers -/

section Answers

variable {C Rep : Type} [BlockStore C] [BlockStore.Faithful C] {lru : Lru Rep Cid Block}
  {pushing : lru.Pushing} {dataOf : Cid → List UInt8} {s : TieredCachedBlockStore C Rep}

/-- An entry that a map holds. -/
def Held (m : Content) (cid : Cid) (b : Block) : Prop := b.cid = cid ∧ m cid = some b.data

/-- What is cached the store holds, and identifiers name what it holds. -/
structure Coherent (lru : Lru Rep Cid Block) (dataOf : Cid → List UInt8)
    (s : TieredCachedBlockStore C Rep) : Prop where
  cached : s.cache.All lru (Held (lookup s.store))
  named : Content.Named dataOf (lookup s.store)

omit [BlockStore C] [BlockStore.Faithful C] in
theorem Held.get {m : Content} {cid : Cid} {b : Block} (h : Held m cid b) : m.get cid = some b := by
  rw [Content.get, h.2, Option.map_some, ← h.1]

/-- Another state of the store with the same map. -/
theorem Coherent.of_store (hs : Coherent lru dataOf s) {store : C}
    (h : lookup store = lookup s.store) : Coherent lru dataOf { s with store } := by
  refine ⟨?_, ?_⟩
  · show s.cache.All lru (Held (lookup store))
    rw [h]
    exact hs.cached
  · exact h ▸ hs.named

theorem Coherent.cacheGet (hs : Coherent lru dataOf s) (hl : lru.Lawful) (cid : Cid) :
    Coherent lru dataOf (TieredCachedBlockStore.cacheGet lru cid s).2 :=
  ⟨(hs.cached.get hl cid).2, hs.named⟩

theorem below_reads {α : Type} {m : EStateM Error C α} {g : Content → α}
    (hm : ∀ c, Ends m c (fun a c' => a = g (lookup c) ∧ lookup c' = lookup c)
      (fun c' => lookup c' = lookup c)) :
    Reads (@TieredCachedBlockStore.store C Rep) (Coherent lru dataOf) (below m) g :=
  Reads.zoom (fun _ _ => rfl) (fun _ _ hs hc => hs.of_store hc) hm

theorem get_reads (hl : lru.Lawful) (cid : Cid) :
    Reads TieredCachedBlockStore.store (Coherent (C := C) lru dataOf) (get lru pushing cid)
      (fun m => Content.get m cid) := by
  intro s hs
  apply Ends.modifyGet_bind
  have hpeek := hs.cacheGet hl cid
  cases hit : (s.cache.get lru cid).1 with
  | some b =>
    rw [show (cacheGet lru cid s).1 = some b from hit]
    exact Ends.pure ⟨((hs.cached.get hl cid).1 b hit).get.symm, rfl, hpeek⟩
  | none =>
    rw [show (cacheGet lru cid s).1 = none from hit]
    refine Ends.bind (P := fun r s' => r = Content.get (lookup s.store) cid
        ∧ Same TieredCachedBlockStore.store (Coherent lru dataOf) s s')
      (below_reads (g := fun m => Content.get m cid) (Storage.get_ends cid) _ hpeek) ?_
    rintro r s' ⟨hr, hsame⟩
    cases r with
    | none => exact Ends.pure ⟨hr, hsame⟩
    | some b =>
      have hheld := (Content.get_eq_some hr.symm).2
      rw [← hsame.1] at hheld
      exact Ends.modify_bind (Ends.pure ⟨hr, hsame.1,
        hsame.2.cached.put hl pushing ⟨rfl, hheld⟩, hsame.2.named⟩)

theorem has_reads (hl : lru.Lawful) (cid : Cid) :
    Reads TieredCachedBlockStore.store (Coherent (C := C) lru dataOf) (has lru cid)
      (fun m => Content.has m cid) := by
  intro s hs
  apply Ends.modifyGet_bind
  have hpeek := hs.cacheGet hl cid
  cases hit : (s.cache.get lru cid).1 with
  | some b =>
    rw [show (cacheGet lru cid s).1 = some b from hit]
    refine Ends.pure ⟨?_, rfl, hpeek⟩
    show true = (lookup s.store cid).isSome
    rw [((hs.cached.get hl cid).1 b hit).2, Option.isSome_some]
  | none =>
    rw [show (cacheGet lru cid s).1 = none from hit]
    exact below_reads (g := fun m => Content.has m cid) (Storage.has_ends cid) _ hpeek

/-- A block that may be put: the one its identifier names, and if the call of the store
fails, then one that the store holds already. -/
def Stores (dataOf : Cid → List UInt8) (s : TieredCachedBlockStore C Rep) (b : Block) : Prop :=
  b.data = dataOf b.cid
    ∧ ((∃ c, ColdStore.put b s.store = .ok () c) ∨ lookup s.store b.cid = some b.data)

theorem put_ends (hl : lru.Lawful) {b : Block} (hs : Coherent lru dataOf s)
    (hb : Stores dataOf s b) :
    Ends (put lru pushing b) s (fun _ s' => Coherent lru dataOf s') (Coherent lru dataOf) := by
  -- the block is in the cache before the store has answered
  apply Ends.modify_bind
  apply Ends.zoom
  rw [show (cachePut lru pushing b s).store = s.store from rfl]
  have hput := Storage.put_ends b s.store
  unfold Ends at hput ⊢
  cases hrun : ColdStore.put b s.store with
  | ok _ c =>
    rw [hrun] at hput
    have hall : s.cache.All lru (Held (lookup c)) := hs.cached.mono (fun cid b' h =>
      ⟨h.1, hput ▸ hs.named.sub_update hb.1 cid b'.data h.2⟩)
    have hheld : lookup c b.cid = some b.data := by rw [hput, Function.update_self]
    exact ⟨hall.put hl pushing ⟨rfl, hheld⟩, hput ▸ hs.named.update hb.1⟩
  | error e c =>
    rw [hrun] at hput
    rcases hb.2 with ⟨c', hok⟩ | hheld
    · rw [hrun] at hok
      cases hok
    · exact Coherent.of_store (s := cachePut lru pushing b s)
        ⟨hs.cached.put hl pushing ⟨rfl, hheld⟩, hs.named⟩ hput

theorem delete_ends (hl : lru.Lawful) (hf : lru.Forgets) (cid : Cid) (hs : Coherent lru dataOf s) :
    Ends (delete lru cid) s (fun _ s' => Coherent lru dataOf s') (Coherent lru dataOf) := by
  have hgone := hs.cached.remove hl hf cid
  apply Ends.modify_bind
  refine Ends.zoom ((Storage.delete_ends cid s.store).conseq ?_ ?_)
  · intro _ c hc
    refine ⟨hgone.mono (fun k b h => ⟨h.2.1, ?_⟩), hc ▸ hs.named.delete cid⟩
    show lookup c k = some b.data
    rw [hc, Function.update_of_ne h.1]
    exact h.2.2
  · intro c hc
    exact Coherent.of_store (s := { s with cache := s.cache.remove lru cid })
      ⟨hgone.mono (fun _ _ h => h.2), hs.named⟩ hc

/-- Every block that is put may be put when its turn comes. -/
def Safe (pushing : lru.Pushing) (dataOf : Cid → List UInt8)
    (s : TieredCachedBlockStore C Rep) : Request → Prop
  | .put b => Stores dataOf s b
  | .putMany blocks => EachMeets (put lru pushing) (Stores dataOf) blocks s
  | _ => True

/-- Each request is answered as the store would, and the cache still holds what the store
holds. -/
theorem perform_ends (hl : lru.Lawful) (hf : lru.Forgets) (s : TieredCachedBlockStore C Rep)
    (r : Request) (hs : Coherent lru dataOf s) (hcond : Safe pushing dataOf s r) :
    Ends (perform lru pushing r) s
      (fun a s' => Content.Right (lookup s.store) r a ∧ Coherent lru dataOf s')
      (Coherent lru dataOf) := by
  cases r with
  | put b => exact Ends.answers_done (put_ends hl hs hcond) (fun _ => rfl)
  | putMany blocks =>
    exact Ends.answers_done
      (Ends.forEach (fun _ _ ht hb => put_ends hl ht hb) blocks s hs hcond) (fun _ => rfl)
  | get cid => exact (get_reads hl cid).answers hs rfl
  | getMany cids => exact (Reads.eachInOrder (get_reads hl) cids).answers hs rfl
  | has cid => exact (has_reads hl cid).answers hs rfl
  | hasMany cids => exact (Reads.eachInOrder (has_reads hl) cids).answers hs rfl
  | delete cid => exact Ends.answers_done (delete_ends hl hf cid hs) (fun _ => rfl)
  | deleteMany cids =>
    exact Ends.answers_done
      (Ends.forEach (fun _ cid ht _ => delete_ends hl hf cid ht) cids s hs
        (eachMeets_of_forall (fun _ _ => trivial) cids s)) (fun _ => rfl)
  | rebuildFilter | clearCache => exact Ends.pure ⟨(fun _ hb => by cases hb), hs⟩

/-- Every answer of the wrapper is the answer of the store below. -/
theorem answered (hl : lru.Lawful) (hf : lru.Forgets) {store : C} (l1Capacity l2Capacity : Nat)
    (hnamed : Content.Named dataOf (lookup store)) {rs : List Request}
    (hmeets : Service.Meets (perform lru pushing) (Safe pushing dataOf) rs
      (new lru store l1Capacity l2Capacity)) :
    Service.Answered (perform lru pushing) (fun s => Content.Right (lookup s.store)) rs
      (new lru store l1Capacity l2Capacity) :=
  Service.answered_of_step (perform_ends hl hf) rs _
    ⟨TieredBlockCache.All.new hl _ _, hnamed⟩ hmeets

end Answers

end TieredCachedBlockStore

end Ipfrs.Storage
