/-
Ipfrs.Storage.Coalesce — a store that gathers its writes (`coalesce.rs`), and its calls
when they take turns.

A write goes into the map of pending blocks; a flush takes all of them out under the
lock and then writes them to the store, with an await point between. A read looks at the
pending map and then asks the store; a delete empties the pending map of its identifier
and then asks the store. The background task does no more than flush now and then, so
its flush is a `flush_writes` that may begin at any time.

The times and the counters that no call reads are left out. `values` is the order in
which the hash map gives its blocks to the flush of a number.
-/
import Ipfrs.Storage.BlockStore
import Ipfrs.Lib.Interleaving

namespace Ipfrs.Storage

open Ipfrs.Core Ipfrs.Lib
open Ipfrs.Lib.Interleaving (Machine Pool Turn)
open Ipfrs.Knowledge (ColdStore)
open Ipfrs.Knowledge.ColdStore.Faithful (lookup)

/-! ## The pending map -/

/-- Blocks under their own identifiers. -/
structure Pending where
  blocks : List Block
  nodup : (blocks.map Block.cid).Nodup

namespace Pending

def empty : Pending := { blocks := [], nodup := List.nodup_nil }

def get (p : Pending) (cid : Cid) : Option Block := p.blocks.find? (fun b => b.cid = cid)

def remove (cid : Cid) (p : Pending) : Pending where
  blocks := p.blocks.filter (fun b => b.cid ≠ cid)
  nodup := (p.nodup.sublist (List.filter_sublist.map _))

def insert (p : Pending) (b : Block) : Pending where
  blocks := b :: (remove b.cid p).blocks
  nodup := by
    rw [List.map_cons, List.nodup_cons]
    refine ⟨fun h => ?_, (remove b.cid p).nodup⟩
    obtain ⟨b', hb', hcid⟩ := List.mem_map.mp h
    simp [remove, hcid] at hb'

/-- Some pending block has the identifier. -/
def Has (p : Pending) (cid : Cid) : Prop := ∃ b ∈ p.blocks, b.cid = cid

theorem get_eq_some {p : Pending} {cid : Cid} {b : Block} (h : p.get cid = some b) :
    b ∈ p.blocks ∧ b.cid = cid :=
  ⟨List.mem_of_find?_eq_some h, by simpa using List.find?_some h⟩

theorem get_eq_none {p : Pending} {cid : Cid} : p.get cid = none ↔ ¬ p.Has cid := by
  rw [get, List.find?_eq_none]
  simp [Has]

theorem mem_remove {p : Pending} {cid : Cid} {b : Block} :
    b ∈ (remove cid p).blocks ↔ b ∈ p.blocks ∧ b.cid ≠ cid := by
  simp [remove]

theorem mem_insert {p : Pending} {b b' : Block} :
    b' ∈ (insert p b).blocks ↔ b' = b ∨ (b' ∈ p.blocks ∧ b'.cid ≠ b.cid) := by
  rw [insert, List.mem_cons, mem_remove]

theorem has_insert {p : Pending} {b : Block} {cid : Cid} :
    (insert p b).Has cid ↔ b.cid = cid ∨ p.Has cid := by
  constructor
  · rintro ⟨b', hb', rfl⟩
    rcases mem_insert.mp hb' with rfl | ⟨hb', -⟩
    · exact .inl rfl
    · exact .inr ⟨b', hb', rfl⟩
  · intro h
    by_cases hc : b.cid = cid
    · exact ⟨b, mem_insert.mpr (.inl rfl), hc⟩
    · obtain ⟨b', hb', rfl⟩ := h.resolve_left hc
      exact ⟨b', mem_insert.mpr (.inr ⟨hb', fun heq => hc heq.symm⟩), rfl⟩

theorem has_remove {p : Pending} {cid cid' : Cid} :
    (remove cid p).Has cid' ↔ cid' ≠ cid ∧ p.Has cid' := by
  constructor
  · rintro ⟨b, hb, rfl⟩
    exact ⟨(mem_remove.mp hb).2, b, (mem_remove.mp hb).1, rfl⟩
  · rintro ⟨hne, b, hb, rfl⟩
    exact ⟨b, mem_remove.mpr ⟨hb, hne⟩, rfl⟩

end Pending

/-! ## The store and its calls -/

structure CoalescingBlockStore (C : Type) where
  inner : C
  maxBatchSize : Nat
  pending : Pending
  totalFlushes : Nat

inductive CoalesceCall
  | get (cid : Cid)
  | has (cid : Cid)
  | put (b : Block)
  | putMany (blocks : List Block)
  | delete (cid : Cid)
  | flushWrites
  deriving DecidableEq

inductive CoalesceAnswer
  | done
  | block (r : Option Block)
  | present (r : Bool)
  | flushed (count : Nat)
  deriving DecidableEq

/-- A call waits for the store, or it has returned. A flush has taken its blocks. -/
inductive CoalesceTask
  | getAsking (cid : Cid)
  | hasAsking (cid : Cid)
  | deleteAsking (cid : Cid)
  | flushing (call : CoalesceCall) (blocks : List Block)
  | returned (call : CoalesceCall) (a : Except Error CoalesceAnswer)
  deriving DecidableEq

namespace CoalesceTask

def call : CoalesceTask → CoalesceCall
  | getAsking cid => .get cid
  | hasAsking cid => .has cid
  | deleteAsking cid => .delete cid
  | flushing call _ => call
  | returned call _ => call

end CoalesceTask

namespace CoalescingBlockStore

variable {C : Type}

def new (inner : C) (maxBatchSize : Nat) : CoalescingBlockStore C :=
  { inner, maxBatchSize, pending := Pending.empty, totalFlushes := 0 }

/-- A flush is asked for its count only by `flush_writes`. -/
def flushAnswer (call : CoalesceCall) (count : Nat) : CoalesceAnswer :=
  match call with
  | .flushWrites => .flushed count
  | _ => .done

variable (values : Nat → List Block → List Block)

/-- `flush_pending` up to its await point. -/
def flushPending (call : CoalesceCall) (s : CoalescingBlockStore C) :
    CoalesceTask × CoalescingBlockStore C :=
  if s.pending.blocks.isEmpty then (.returned call (.ok (flushAnswer call 0)), s)
  else
    (.flushing call (values s.totalFlushes s.pending.blocks),
      { s with pending := Pending.empty, totalFlushes := s.totalFlushes + 1 })

/-- Blocks go into the pending map, and a full map is flushed. -/
def write (call : CoalesceCall) (blocks : List Block) (s : CoalescingBlockStore C) :
    CoalesceTask × CoalescingBlockStore C :=
  let s := { s with pending := blocks.foldl Pending.insert s.pending }
  if s.maxBatchSize ≤ s.pending.blocks.length then flushPending values call s
  else (.returned call (.ok .done), s)

/-- Up to the await point. -/
def start (call : CoalesceCall) (s : CoalescingBlockStore C) :
    CoalesceTask × CoalescingBlockStore C :=
  match call with
  | .get cid =>
    match s.pending.get cid with
    | some b => (.returned call (.ok (.block (some b))), s)
    | none => (.getAsking cid, s)
  | .has cid =>
    match s.pending.get cid with
    | some _ => (.returned call (.ok (.present true)), s)
    | none => (.hasAsking cid, s)
  | .put b => write values call [b] s
  | .putMany blocks => write values call blocks s
  | .delete cid => (.deleteAsking cid, { s with pending := s.pending.remove cid })
  | .flushWrites => flushPending values call s

/-- The call of the store, after which there is nothing left to do. -/
def asks {α : Type} (call : CoalesceCall) (m : EStateM Error C α) (answer : α → CoalesceAnswer)
    (s : CoalescingBlockStore C) : CoalesceTask × CoalescingBlockStore C :=
  match m s.inner with
  | .ok a inner => (.returned call (.ok (answer a)), { s with inner })
  | .error e inner => (.returned call (.error e), { s with inner })

def resume [BlockStore C] (t : CoalesceTask) (s : CoalescingBlockStore C) :
    CoalesceTask × CoalescingBlockStore C :=
  match t with
  | .getAsking cid => asks t.call (ColdStore.get cid) .block s
  | .hasAsking cid => asks t.call (BlockStore.has cid) .present s
  | .deleteAsking cid => asks t.call (ColdStore.delete cid) (fun _ => .done) s
  | .flushing call blocks =>
    asks call (BlockStore.putMany blocks) (fun _ => flushAnswer call blocks.length) s
  | .returned _ _ => (t, s)

def machine [BlockStore C] : Machine (CoalescingBlockStore C) CoalesceCall CoalesceTask where
  start := start values
  resume := resume

end CoalescingBlockStore

end Ipfrs.Storage
