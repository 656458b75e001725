/-
Ipfrs.Storage.WalReplay — the replay engine of the in-memory write-ahead log.

The log is a bounded queue of entries with consecutive sequence numbers. A replay
rebuilds a key-value store from a window of it: entries without a transaction take
effect where they stand, those of a transaction are buffered and take effect at its
Commit, and are thrown away at its Rollback.

The maps of the source are functions here; `usize` is 64 bits wide.
-/
import Ipfrs.Lib.Bytes
import Ipfrs.Lib.Fnv
import Ipfrs.Lib.KeyedWrites

namespace Ipfrs.Storage.WalReplay

open Ipfrs.Lib

/-- The FNV-1a 32-bit hash. -/
def fnv1a32Bytes (data : List UInt8) : UInt32 := Fnv.hash32 data

inductive WalEntryType where
  | put
  | delete
  | checkpoint
  | begin
  | commit
  | rollback
  deriving DecidableEq, Repr

structure WalEntry where
  sequence : UInt64
  entryType : WalEntryType
  key : String
  value : Option (List UInt8)
  transactionId : Option UInt64
  checksum : UInt32
  deriving DecidableEq, Repr

namespace WalEntry

def computeChecksum (seq : UInt64) (key : String) (value : Option (List UInt8)) : UInt32 :=
  fnv1a32Bytes (leBytes 8 seq.toNat ++ utf8 key ++ value.getD [])

def isValid (e : WalEntry) : Bool := e.checksum == computeChecksum e.sequence e.key e.value

end WalEntry

inductive ReplayPolicy where
  | full
  | sinceCheckpoint
  | sinceSequence (minSeq : UInt64)
  | lastN (n : Nat)
  deriving DecidableEq, Repr

structure ReplayStats where
  entriesRead : Nat
  entriesApplied : Nat
  entriesSkipped : Nat
  checkpointsFound : Nat
  invalidEntries : Nat
  finalSequence : UInt64
  deriving DecidableEq, Repr

def ReplayStats.default : ReplayStats :=
  { entriesRead := 0, entriesApplied := 0, entriesSkipped := 0, checkpointsFound := 0,
    invalidEntries := 0, finalSequence := 0 }

abbrev Store := String → Option (List UInt8)

structure ReplayState where
  store : Store
  sequence : UInt64
  activeTransactions : UInt64 → Option (List WalEntry)
  committedCount : Nat
  rolledBackCount : Nat

def ReplayState.default : ReplayState :=
  { store := fun _ => none, sequence := 0, activeTransactions := fun _ => none,
    committedCount := 0, rolledBackCount := 0 }

structure StorageWALReplay where
  entries : List WalEntry
  maxEntries : UInt64
  nextSequence : UInt64
  checkpointSequences : List UInt64
  deriving DecidableEq, Repr

/-! ## Appending -/

/-- The arguments of one `append`. -/
structure Request where
  entryType : WalEntryType
  key : String
  value : Option (List UInt8)
  txId : Option UInt64
  deriving DecidableEq, Repr

namespace StorageWALReplay

def new (maxEntries : UInt64) : StorageWALReplay :=
  { entries := [], maxEntries := max maxEntries 1, nextSequence := 1, checkpointSequences := [] }

/-- The entry an `append` makes. -/
def entryOf (log : StorageWALReplay) (r : Request) : WalEntry :=
  { sequence := log.nextSequence, entryType := r.entryType, key := r.key, value := r.value,
    transactionId := r.txId,
    checksum := WalEntry.computeChecksum log.nextSequence r.key r.value }

/-- The oldest entry is dropped when the queue is full. -/
def evict (log : StorageWALReplay) : StorageWALReplay :=
  if log.entries.length ≥ log.maxEntries.toNat then
    match log.entries with
    | [] => log
    | evicted :: rest =>
      { log with
        entries := rest
        checkpointSequences := log.checkpointSequences.filter (fun s => s ≠ evicted.sequence) }
  else log

def append (log : StorageWALReplay) (r : Request) : WalEntry × StorageWALReplay :=
  let entry := log.entryOf r
  let evicted := { log with nextSequence := log.nextSequence + 1 }.evict
  (entry, { evicted with
    checkpointSequences :=
      if r.entryType = .checkpoint then evicted.checkpointSequences ++ [entry.sequence]
      else evicted.checkpointSequences
    entries := evicted.entries ++ [entry] })

def appendAll (log : StorageWALReplay) (rs : List Request) : StorageWALReplay :=
  rs.foldl (fun l r => (l.append r).2) log

end StorageWALReplay

/-! ## Replaying -/

/-- A Put with a value or a Delete on the store; a Put without a value does nothing. -/
def applyData (store : Store) (e : WalEntry) : Store :=
  match e.entryType with
  | .put =>
    match e.value with
    | some v => Function.update store e.key (some v)
    | none => store
  | .delete => Function.update store e.key none
  | .checkpoint => store
  | .begin => store
  | .commit => store
  | .rollback => store

/-- The bookkeeping every applied entry ends with. -/
def markApplied (e : WalEntry) (state : ReplayState) (stats : ReplayStats) :
    ReplayState × ReplayStats :=
  ({ state with sequence := e.sequence },
    { stats with entriesApplied := stats.entriesApplied + 1, finalSequence := e.sequence })

/-- `active_transactions.entry(tx_id).or_default().push(entry)`. -/
def bufferEntry (state : ReplayState) (txId : UInt64) (e : WalEntry) : ReplayState :=
  { state with
    activeTransactions := Function.update state.activeTransactions txId
      (some ((state.activeTransactions txId).getD [] ++ [e])) }

/-- The loop body of `replay`. -/
def replayEntry (acc : ReplayState × ReplayStats) (e : WalEntry) : ReplayState × ReplayStats :=
  let state := acc.1
  let stats := acc.2
  if !e.isValid then (state, { stats with invalidEntries := stats.invalidEntries + 1 })
  else
    match e.entryType with
    | .checkpoint =>
      markApplied e state { stats with checkpointsFound := stats.checkpointsFound + 1 }
    | .begin =>
      match e.transactionId with
      | some txId =>
        markApplied e { state with
          activeTransactions := Function.update state.activeTransactions txId
            (some ((state.activeTransactions txId).getD [])) } stats
      | none => markApplied e state stats
    | .commit =>
      match e.transactionId with
      | some txId =>
        match state.activeTransactions txId with
        | some buffered =>
          markApplied e { state with
            activeTransactions := Function.update state.activeTransactions txId none
            store := buffered.foldl applyData state.store
            committedCount := state.committedCount + 1 } stats
        | none => markApplied e state stats
      | none => markApplied e state stats
    | .rollback =>
      match e.transactionId with
      | some txId =>
        markApplied e { state with
          activeTransactions := Function.update state.activeTransactions txId none
          rolledBackCount := state.rolledBackCount + 1 } stats
      | none => markApplied e state stats
    | .put =>
      match e.transactionId with
      | some txId => markApplied e (bufferEntry state txId e) stats
      | none => markApplied e { state with store := applyData state.store e } stats
    | .delete =>
      match e.transactionId with
      | some txId => markApplied e (bufferEntry state txId e) stats
      | none => markApplied e { state with store := applyData state.store e } stats

namespace StorageWALReplay

/-- The last checkpoint still in the queue. -/
def startSeq (log : StorageWALReplay) : UInt64 :=
  (log.checkpointSequences.reverse.find?
    (fun s => log.entries.any (fun e => e.sequence = s))).getD 0

/-- The entries a policy replays, with the counters set before the loop. -/
def window (log : StorageWALReplay) : ReplayPolicy → List WalEntry × ReplayStats
  | .full => (log.entries, { ReplayStats.default with entriesRead := log.entries.length })
  | .sinceCheckpoint =>
    let skipCount := (log.entries.filter (fun e => e.sequence < log.startSeq)).length
    (log.entries.filter (fun e => e.sequence ≥ log.startSeq),
      { ReplayStats.default with
        entriesSkipped := skipCount, entriesRead := log.entries.length - skipCount })
  | .sinceSequence minSeq =>
    let skipCount := (log.entries.filter (fun e => e.sequence < minSeq)).length
    (log.entries.filter (fun e => e.sequence ≥ minSeq),
      { ReplayStats.default with
        entriesSkipped := skipCount, entriesRead := log.entries.length - skipCount })
  | .lastN n =>
    let skipCount := log.entries.length - n
    let take := min log.entries.length n
    ((log.entries.drop skipCount).take take,
      { ReplayStats.default with entriesSkipped := skipCount, entriesRead := take })

def replay (log : StorageWALReplay) (policy : ReplayPolicy) : ReplayState × ReplayStats :=
  (log.window policy).1.foldl replayEntry (ReplayState.default, (log.window policy).2)

/-- The changes a replay makes to its store, made to `base` instead. -/
def replayOver (log : StorageWALReplay) (policy : ReplayPolicy) (base : Store) : Store :=
  ((log.window policy).1.foldl replayEntry
    ({ ReplayState.default with store := base }, (log.window policy).2)).1.store

end StorageWALReplay

/-- A log that `append` built without eviction, split at its last checkpoint. -/
structure CheckpointedLog where
  maxEntries : UInt64
  before : List Request
  checkpoint : Request
  after : List Request
  isCheckpoint : checkpoint.entryType = .checkpoint
  isLast : ∀ r ∈ after, r.entryType ≠ .checkpoint
  fits : (before ++ checkpoint :: after).length ≤ (max maxEntries 1).toNat

namespace CheckpointedLog

def requests (c : CheckpointedLog) : List Request := c.before ++ c.checkpoint :: c.after

def log (c : CheckpointedLog) : StorageWALReplay :=
  (StorageWALReplay.new c.maxEntries).appendAll c.requests

/-- The log when the checkpoint was taken. -/
def earlier (c : CheckpointedLog) : StorageWALReplay :=
  (StorageWALReplay.new c.maxEntries).appendAll c.before

/-- The changes since the checkpoint, on the store of a full replay of the entries
before it, give the store of a full replay. -/
def Agrees (c : CheckpointedLog) : Prop :=
  c.log.replayOver .sinceCheckpoint (c.earlier.replay .full).1.store
    = (c.log.replay .full).1.store

end CheckpointedLog

/-- Every log built without eviction that contains a checkpoint is one of these. -/
theorem exists_checkpointedLog {maxEntries : UInt64} {rs : List Request}
    (hcheckpoint : ∃ r ∈ rs, r.entryType = .checkpoint)
    (hfits : rs.length ≤ (max maxEntries 1).toNat) :
    ∃ c : CheckpointedLog, c.maxEntries = maxEntries ∧ c.requests = rs := by
  obtain ⟨before, cp, after, hsplit, hcp, hlast⟩ :
      ∃ before cp after, rs = before ++ cp :: after ∧ cp.entryType = .checkpoint
        ∧ ∀ r ∈ after, r.entryType ≠ .checkpoint := by
    induction rs with
    | nil =>
      obtain ⟨r, hr, -⟩ := hcheckpoint
      cases hr
    | cons a rs ih =>
      by_cases hrest : ∃ r ∈ rs, r.entryType = .checkpoint
      · have hlen : rs.length ≤ (max maxEntries 1).toNat :=
          Nat.le_trans (Nat.le_succ _) hfits
        obtain ⟨before, cp, after, hsplit, hcp, hlast⟩ := ih hrest hlen
        exact ⟨a :: before, cp, after, by rw [hsplit, List.cons_append], hcp, hlast⟩
      · obtain ⟨r, hr, hty⟩ := hcheckpoint
        have hra : r = a :=
          (List.mem_cons.mp hr).resolve_right (fun hin => hrest ⟨r, hin, hty⟩)
        exact ⟨[], a, rs, rfl, hra ▸ hty, fun r hr hty => hrest ⟨r, hr, hty⟩⟩
  subst hsplit
  exact ⟨⟨maxEntries, before, cp, after, hcp, hlast, hfits⟩, rfl, rfl⟩

end Ipfrs.Storage.WalReplay
