/-
Ipfrs.Transport.WantList — the wants of a peer, by priority (`want_list.rs`).

A want is in a map under its CID, and what decides its turn is once more in a heap. A want
that is removed or gets another priority leaves its heap entry behind: `pop` passes over an
entry whose version is not the one that the map has.

An instant is its number of nanoseconds, and each look at the clock is an argument. The heap
is any one that gives away one of its greatest entries. The version counter does not wrap;
it grows by at most one with each want added or changed (`runSteps_frame`).
-/
import Ipfrs.Lib.PriorityQueue
import Ipfrs.Transport.Session

namespace Ipfrs.Transport

open Ipfrs.Core

/-- `Duration::from_secs`. -/
def fromSecs (n : Nat) : Nat := n * 1000000000

/-- `From<Priority> for i32`. -/
def Priority.toInt : Priority → Int
  | .low => 0
  | .normal => 50
  | .high => 100
  | .urgent => 200
  | .critical => 300

structure WantListConfig where
  maxWants : Nat := 1024
  defaultTimeout : Nat := fromSecs 30
  deriving DecidableEq

structure WantEntry where
  cid : Cid
  priority : Int
  createdAt : Nat
  expiresAt : Nat
  retryCount : Nat
  lastAttempt : Option Nat
  sendDontHave : Bool
  deadline : Option Nat
  tag : Option String
  deriving DecidableEq

namespace WantEntry

def new (now : Nat) (cid : Cid) (priority : Int) (timeout : Nat) : WantEntry where
  cid
  priority
  createdAt := now
  expiresAt := now + timeout
  retryCount := 0
  lastAttempt := none
  sendDontHave := false
  deadline := none
  tag := none

/-- `effective_priority`; the clock is looked at only if there is a deadline. -/
def effectivePriority (entry : WantEntry) (now : Nat) : Int :=
  match entry.deadline with
  | none => entry.priority
  | some deadline =>
    if deadline ≤ now then max entry.priority Priority.critical.toInt
    else
      let timeLeft := deadline - now
      if timeLeft < fromSecs 1 then max entry.priority Priority.urgent.toInt
      else if timeLeft < fromSecs 5 then max entry.priority Priority.high.toInt
      else entry.priority

theorem effectivePriority_of_deadline {entry : WantEntry} (h : entry.deadline = none)
    (now : Nat) : entry.effectivePriority now = entry.priority := by
  rw [effectivePriority, h]

end WantEntry

structure HeapEntry where
  cid : Cid
  priority : Int
  createdAt : Nat
  version : Nat
  deriving DecidableEq

namespace HeapEntry

/-- Higher priority first, then earlier creation time. -/
def cmp (a b : HeapEntry) : Ordering :=
  (compare a.priority b.priority).then (compare b.createdAt a.createdAt)

def le (a b : HeapEntry) : Prop := a.cmp b ≠ .gt

theorem le_iff {a b : HeapEntry} :
    a.le b ↔ a.priority < b.priority ∨ a.priority = b.priority ∧ b.createdAt ≤ a.createdAt := by
  rw [le, cmp, Ne, Ordering.then_eq_gt, compare_gt_iff_gt, compare_gt_iff_gt, compare_eq_iff_eq]
  omega

/-- The heap that gives away the first of the greatest entries. -/
def firstGreatest : Lib.Heap le :=
  Lib.Heap.first
    (fun a b c hab hbc => by
      rw [le_iff] at *
      omega)
    (fun a b => by
      rw [le_iff, le_iff]
      omega)
    (fun a b => b.cmp a = .gt)
    (fun a b => by rw [decide_eq_true_iff, le, not_not])

end HeapEntry

structure WantList where
  heap : List HeapEntry
  entries : AList (fun _ : Cid => WantEntry × Nat)
  versionCounter : Nat
  config : WantListConfig

namespace WantList

def new (config : WantListConfig) : WantList where
  heap := []
  entries := ∅
  versionCounter := 0
  config

def contains (w : WantList) (cid : Cid) : Bool := decide (cid ∈ w.entries)

def get (w : WantList) (cid : Cid) : Option WantEntry :=
  (w.entries.lookup cid).map Prod.fst

def len (w : WantList) : Nat := w.entries.keys.length

def isEmpty (w : WantList) : Bool := w.entries.keys.isEmpty

/-- Uses lazy deletion: the heap keeps its entry. -/
def remove (w : WantList) (cid : Cid) : Option WantEntry × WantList :=
  (w.get cid, { w with entries := w.entries.erase cid })

def clear (w : WantList) : WantList := { w with heap := [], entries := ∅ }

variable (H : Lib.Heap HeapEntry.le)

/-- A want in the map and, with the next version, in the heap. -/
def insert (w : WantList) (entry : WantEntry) (cid : Cid) (priority : Int) : WantList :=
  let version := w.versionCounter + 1
  { w with
    versionCounter := version
    entries := w.entries.insert cid (entry, version)
    heap := H.push ⟨cid, priority, entry.createdAt, version⟩ w.heap }

def add (w : WantList) (now : Nat) (entry : WantEntry) : Bool × WantList :=
  if w.contains entry.cid then (false, w)
  else if w.config.maxWants ≤ w.len then (false, w)
  else (true, w.insert H entry entry.cid (entry.effectivePriority now))

def addSimple (w : WantList) (now : Nat) (cid : Cid) (priority : Int) : Bool × WantList :=
  w.add H now (WantEntry.new now cid priority w.config.defaultTimeout)

def updatePriority (w : WantList) (cid : Cid) (newPriority : Int) : Bool × WantList :=
  match w.get cid with
  | some entry => (true, w.insert H { entry with priority := newPriority } cid newPriority)
  | none => (false, w)

def pop (w : WantList) : Option WantEntry × WantList :=
  match _ : H.pop w.heap with
  | none => (none, w)
  | some (heapEntry, rest) =>
    let left := { w with heap := rest }
    match left.entries.lookup heapEntry.cid with
    | some (_, version) =>
      if version = heapEntry.version then left.remove heapEntry.cid
      -- the want has another priority by now
      else left.pop
    -- the want is removed by now
    | none => left.pop
termination_by w.heap.length
decreasing_by all_goals
  have hlength := (H.pop_eq_some ‹H.pop w.heap = _›).1.length_eq
  rw [List.length_cons] at hlength
  simp only [hlength, Nat.lt_succ_self]

/-! ## Batches -/

/-- One round of the batches that count how often they succeed. -/
def countBody {α : Type} (f : WantList → α → Bool × WantList) (state : Nat × WantList) (a : α) :
    Nat × WantList :=
  let result := f state.2 a
  (if result.1 then state.1 + 1 else state.1, result.2)

/-- Their loop. -/
def countEach {α : Type} (f : WantList → α → Bool × WantList) (w : WantList) (batch : List α) :
    Nat × WantList :=
  batch.foldl (countBody f) (0, w)

/-- Each want of a batch has its own look at the clock. -/
def addBatch (w : WantList) (entries : List (Nat × Cid × Int)) : Nat × WantList :=
  w.countEach (fun w (now, cid, priority) => w.addSimple H now cid priority) entries

def addBatchSamePriority (w : WantList) (cids : List (Nat × Cid)) (priority : Int) :
    Nat × WantList :=
  w.countEach (fun w (now, cid) => w.addSimple H now cid priority) cids

def updatePrioritiesBatch (w : WantList) (updates : List (Cid × Int)) : Nat × WantList :=
  w.countEach (fun w (cid, priority) => w.updatePriority H cid priority) updates

/-- One round of `remove_batch`. -/
def removeBody (state : List WantEntry × WantList) (cid : Cid) : List WantEntry × WantList :=
  let result := state.2.remove cid
  (state.1 ++ result.1.toList, result.2)

def removeBatch (w : WantList) (cids : List Cid) : List WantEntry × WantList :=
  cids.foldl removeBody ([], w)

/-! ## Calls -/

/-- A call for one want, or for all. -/
inductive Step
  | add (now : Nat) (entry : WantEntry)
  | addSimple (now : Nat) (cid : Cid) (priority : Int)
  | remove (cid : Cid)
  | updatePriority (cid : Cid) (newPriority : Int)
  | pop
  | clear
  deriving DecidableEq

inductive Call
  | step (s : Step)
  | addBatch (entries : List (Nat × Cid × Int))
  | addBatchSamePriority (cids : List (Nat × Cid)) (priority : Int)
  | removeBatch (cids : List Cid)
  | updatePrioritiesBatch (updates : List (Cid × Int))
  deriving DecidableEq

inductive Answer
  | done (b : Bool)
  | entry (e : Option WantEntry)
  | count (n : Nat)
  | entries (l : List WantEntry)
  | unit
  deriving DecidableEq

def Step.perform (w : WantList) : Step → Answer × WantList
  | .add now entry => (w.add H now entry).map .done id
  | .addSimple now cid priority => (w.addSimple H now cid priority).map .done id
  | .remove cid => (w.remove cid).map .entry id
  | .updatePriority cid newPriority => (w.updatePriority H cid newPriority).map .done id
  | .pop => (w.pop H).map .entry id
  | .clear => (.unit, w.clear)

def Call.perform (w : WantList) : Call → Answer × WantList
  | .step s => s.perform H w
  | .addBatch entries => (w.addBatch H entries).map .count id
  | .addBatchSamePriority cids priority => (w.addBatchSamePriority H cids priority).map .count id
  | .removeBatch cids => (w.removeBatch cids).map .entries id
  | .updatePrioritiesBatch updates => (w.updatePrioritiesBatch H updates).map .count id

def run (w : WantList) (calls : List Call) : WantList :=
  calls.foldl (fun w call => (call.perform H w).2) w

end WantList

end Ipfrs.Transport
