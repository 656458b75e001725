/-
Ipfrs.Storage.WriteAheadLog — the binary write-ahead log: standalone and
transactional writes, checkpoints, truncation, recovery and replay.

The log keeps its entries twice: as a list and as the segment buffer with their
encodings. A call that fails keeps what it had already done, so each call returns
its result and the log it leaves. The time of a write is the clock's, so a call
takes the readings it makes as arguments.

`history` is a ghost: the list of every entry ever appended. No operation reads
it; it is what a replay of the untruncated log would be given.

Counters wrap at 2^64, as they do in a release build. The `sync_on_write` flag of
the configuration is read by nothing and is left out.
-/
import Ipfrs.Storage.WalEntry
import Mathlib.Data.List.Dedup

namespace Ipfrs.Storage

inductive TxState where
  | active
  | committed
  | rolledBack
  deriving DecidableEq, Repr

structure Transaction where
  txId : UInt64
  entries : List WalEntry
  state : TxState
  deriving DecidableEq, Repr

def Transaction.new (txId : UInt64) : Transaction := { txId, entries := [], state := .active }

/-- A limit of 0 means none. -/
structure WalConfig where
  maxSegmentSize : Nat
  maxEntriesPerSegment : Nat
  checkpointInterval : Nat
  deriving DecidableEq, Repr

def WalConfig.default : WalConfig :=
  { maxSegmentSize := 64 * 1024 * 1024, maxEntriesPerSegment := 100000,
    checkpointInterval := 10000 }

structure WalStats where
  totalEntries : UInt64
  totalBytes : UInt64
  activeTransactions : Nat
  segmentsCount : Nat
  lastCheckpointSeq : UInt64
  deriving DecidableEq, Repr

structure WalWriteAheadLog where
  segment : List UInt8
  entries : List WalEntry
  /-- The transaction records, at most one for an id. -/
  transactions : List Transaction
  nextSeq : UInt64
  nextTxId : UInt64
  config : WalConfig
  stats : WalStats
  lastCheckpointSeq : UInt64
  writesSinceCheckpoint : Nat
  /-- Ghost: every entry ever appended. -/
  history : List WalEntry
  deriving DecidableEq, Repr

/-- The concatenation of the encodings. -/
def encodeAll (entries : List WalEntry) : List UInt8 := entries.flatMap WalEntry.encode

namespace WalWriteAheadLog

def new (config : WalConfig) : WalWriteAheadLog :=
  { segment := [], entries := [], transactions := [], nextSeq := 1, nextTxId := 1, config,
    stats := { totalEntries := 0, totalBytes := 0, activeTransactions := 0, segmentsCount := 1,
               lastCheckpointSeq := 0 },
    lastCheckpointSeq := 0, writesSinceCheckpoint := 0, history := [] }

/-- The log after `alloc_seq`; the number is `nextSeq` before it. -/
def allocSeq (w : WalWriteAheadLog) : WalWriteAheadLog := { w with nextSeq := w.nextSeq + 1 }

def allocTxId (w : WalWriteAheadLog) : WalWriteAheadLog := { w with nextTxId := w.nextTxId + 1 }

/-- The entry at the end of the segment and of the list. -/
def pushEntry (w : WalWriteAheadLog) (entry : WalEntry) : WalWriteAheadLog :=
  { w with
    segment := w.segment ++ entry.encode
    stats := { w.stats with
      totalEntries := w.stats.totalEntries + 1
      totalBytes := w.stats.totalBytes + UInt64.ofNat entry.encode.length }
    entries := w.entries ++ [entry]
    history := w.history ++ [entry] }

def appendEntry (w : WalWriteAheadLog) (entry : WalEntry) : Except WalError WalWriteAheadLog :=
  if w.config.maxSegmentSize > 0
      ∧ w.segment.length + entry.encode.length > w.config.maxSegmentSize then
    .error .segmentFull
  else if w.config.maxEntriesPerSegment > 0
      ∧ w.entries.length ≥ w.config.maxEntriesPerSegment then
    .error .segmentFull
  else .ok (w.pushEntry entry)

/-- The entry a call is about to append, with the sequence number it allocated. -/
def entryOf (w : WalWriteAheadLog) (txId : UInt64) (op : WalOpType) (key value : List UInt8)
    (now : UInt64) : WalEntry :=
  { seqNum := w.nextSeq, txId, opType := op, key, value, timestamp := now, checksum := 0 }

/-- The ids of the transactions that are still open. -/
def activeTxIds (w : WalWriteAheadLog) : List UInt64 :=
  (w.transactions.filter (fun t => t.state = .active)).map Transaction.txId

/-- The record of a transaction, if it is there and open. -/
def activeTx (w : WalWriteAheadLog) (txId : UInt64) : Option Transaction :=
  match w.transactions.find? (fun t => t.txId = txId) with
  | some tx => if tx.state ≠ .active then none else some tx
  | none => none

/-- `transactions.get_mut(&tx_id)` and a change of the record. -/
def updateTx (w : WalWriteAheadLog) (txId : UInt64) (f : Transaction → Transaction) :
    WalWriteAheadLog :=
  { w with transactions := w.transactions.map (fun t => if t.txId = txId then f t else t) }

/-- `stats.active_transactions` counted again. -/
def recount (w : WalWriteAheadLog) : WalWriteAheadLog :=
  { w with stats := { w.stats with activeTransactions := w.activeTxIds.length } }

/-- What a checkpoint keeps: entries after the previous checkpoint and entries of
open transactions. -/
def retains (w : WalWriteAheadLog) (e : WalEntry) : Bool :=
  w.lastCheckpointSeq < e.seqNum || decide (e.txId ∈ w.activeTxIds)

/-- Drop what `keep` refuses and build the segment again. -/
def rebuild (w : WalWriteAheadLog) (keep : WalEntry → Bool) : WalWriteAheadLog :=
  { w with entries := w.entries.filter keep, segment := encodeAll (w.entries.filter keep) }

def checkpoint (w : WalWriteAheadLog) (now : UInt64) :
    Except WalError UInt64 × WalWriteAheadLog :=
  let seq := w.nextSeq
  match w.allocSeq.appendEntry (w.entryOf 0 .checkpoint [] [] now) with
  | .error e => (.error e, w.allocSeq)
  | .ok w' =>
    let kept := w'.rebuild w'.retains
    (.ok seq, { kept with
      lastCheckpointSeq := seq
      stats := { kept.stats with lastCheckpointSeq := seq }
      writesSinceCheckpoint := 0 })

/-- `self.writes_since_checkpoint += 1`. -/
def countWrite (w : WalWriteAheadLog) : WalWriteAheadLog :=
  { w with writesSinceCheckpoint := w.writesSinceCheckpoint + 1 }

/-- A standalone write. The second clock reading is the automatic checkpoint's. -/
def write (w : WalWriteAheadLog) (key value : List UInt8) (op : WalOpType) (now later : UInt64) :
    Except WalError UInt64 × WalWriteAheadLog :=
  let seq := w.nextSeq
  match w.allocSeq.appendEntry (w.entryOf 0 op key value now) with
  | .error e => (.error e, w.allocSeq)
  | .ok w' =>
    let counted := w'.countWrite
    if counted.config.checkpointInterval > 0
        ∧ counted.writesSinceCheckpoint ≥ counted.config.checkpointInterval then
      match counted.checkpoint later with
      | (.error e, w'') => (.error e, w'')
      | (.ok _, w'') => (.ok seq, w'')
    else (.ok seq, counted)

/-- A full segment does not stop a transaction from being opened. -/
def beginTransaction (w : WalWriteAheadLog) (now : UInt64) : UInt64 × WalWriteAheadLog :=
  let txId := w.nextTxId
  let allocated := w.allocTxId.allocSeq
  let appended :=
    match allocated.appendEntry (w.entryOf txId .begin [] [] now) with
    | .error _ => allocated
    | .ok w' => w'
  let opened :=
    { appended with
      transactions := Transaction.new txId
        :: appended.transactions.filter (fun t => t.txId ≠ txId) }
  (txId, opened.recount)

def writeTx (w : WalWriteAheadLog) (txId : UInt64) (key value : List UInt8) (op : WalOpType)
    (now : UInt64) : Except WalError UInt64 × WalWriteAheadLog :=
  match w.activeTx txId with
  | none => (.error (.transactionNotFound txId), w)
  | some _ =>
    let entry := w.entryOf txId op key value now
    match w.allocSeq.appendEntry entry with
    | .error e => (.error e, w.allocSeq)
    | .ok w' =>
      (.ok w.nextSeq, w'.updateTx txId (fun t => { t with entries := t.entries ++ [entry] }))

/-- The end of a transaction: its marker and its new state. -/
def endTransaction (w : WalWriteAheadLog) (txId : UInt64) (op : WalOpType) (state : TxState)
    (now : UInt64) : Except WalError Unit × WalWriteAheadLog :=
  match w.activeTx txId with
  | none => (.error (.transactionNotFound txId), w)
  | some _ =>
    match w.allocSeq.appendEntry (w.entryOf txId op [] [] now) with
    | .error e => (.error e, w.allocSeq)
    | .ok w' => (.ok (), (w'.updateTx txId (fun t => { t with state := state })).recount)

def commitTransaction (w : WalWriteAheadLog) (txId now : UInt64) :
    Except WalError Unit × WalWriteAheadLog :=
  w.endTransaction txId .commit .committed now

def rollbackTransaction (w : WalWriteAheadLog) (txId now : UInt64) :
    Except WalError Unit × WalWriteAheadLog :=
  w.endTransaction txId .rollback .rolledBack now

def truncateBefore (w : WalWriteAheadLog) (seqNum : UInt64) : Nat × WalWriteAheadLog :=
  let kept := w.rebuild (fun e => seqNum ≤ e.seqNum)
  let removed := w.entries.length - kept.entries.length
  if removed > 0 then (removed, kept) else (removed, { w with entries := kept.entries })

def exportSegment (w : WalWriteAheadLog) : List UInt8 := w.segment

theorem appendEntry_eq_ok {w w' : WalWriteAheadLog} {entry : WalEntry}
    (h : w.appendEntry entry = .ok w') : w' = w.pushEntry entry := by
  unfold appendEntry at h
  split at h
  · cases h
  · split at h
    · cases h
    · cases h
      rfl

end WalWriteAheadLog

/-! ## Calls -/

/-- A call of the public interface, with the clock readings it makes. -/
inductive WalCall where
  | write (key value : List UInt8) (op : WalOpType) (now later : UInt64)
  | beginTransaction (now : UInt64)
  | writeTx (txId : UInt64) (key value : List UInt8) (op : WalOpType) (now : UInt64)
  | commitTransaction (txId now : UInt64)
  | rollbackTransaction (txId now : UInt64)
  | checkpoint (now : UInt64)
  | truncateBefore (seqNum : UInt64)
  deriving DecidableEq, Repr

namespace WalWriteAheadLog

/-- One call: whether it failed, and the log it leaves. -/
def step (w : WalWriteAheadLog) : WalCall → Except WalError Unit × WalWriteAheadLog
  | .write key value op now later =>
    ((w.write key value op now later).1.map (fun _ => ()), (w.write key value op now later).2)
  | .beginTransaction now => (.ok (), (w.beginTransaction now).2)
  | .writeTx txId key value op now =>
    ((w.writeTx txId key value op now).1.map (fun _ => ()), (w.writeTx txId key value op now).2)
  | .commitTransaction txId now => w.commitTransaction txId now
  | .rollbackTransaction txId now => w.rollbackTransaction txId now
  | .checkpoint now => ((w.checkpoint now).1.map (fun _ => ()), (w.checkpoint now).2)
  | .truncateBefore seqNum => (.ok (), (w.truncateBefore seqNum).2)

/-- The log after a sequence of calls, failed ones included. -/
def run (w : WalWriteAheadLog) (calls : List WalCall) : WalWriteAheadLog :=
  calls.foldl (fun w c => (w.step c).2) w

end WalWriteAheadLog

/-! ## Recovery -/

/-- Totals of a recovery scan. -/
structure RecoveryResult where
  entriesRecovered : Nat
  transactionsRecovered : Nat
  entriesReplayed : Nat
  partialTxDiscarded : Nat
  lastSeqNum : UInt64
  deriving DecidableEq, Repr

/-- The scanning loop of `recover`, for at most the given number of rounds. A byte
that does not start the magic is skipped; the first entry that does not decode
ends the scan. Each round moves on by at least one byte. -/
def scan (data : List UInt8) : Nat → Nat → List WalEntry → List WalEntry
  | 0, _, all => all
  | rounds + 1, pos, all =>
    if pos < data.length then
      if pos + 4 ≤ data.length ∧ (data.drop pos).take 4 ≠ walMagic then
        scan data rounds (pos + 1) all
      else
        match WalEntry.decode data pos with
        | .ok (entry, consumed) => scan data rounds (pos + consumed) (all ++ [entry])
        | .error _ => all
    else all

/-- The entries `recover` decodes. -/
def scanEntries (data : List UInt8) : List WalEntry := scan data data.length 0 []

/-- The transactions with an entry of the given operation. -/
def txsWith (op : WalOpType) (entries : List WalEntry) : List UInt64 :=
  (entries.filter (fun e => e.txId ≠ 0 ∧ e.opType = op)).map WalEntry.txId

/-- Put or Delete, standalone or of a committed transaction. -/
def isReplayed (committed : List UInt64) (e : WalEntry) : Bool :=
  e.opType.isData && (e.txId == 0 || decide (e.txId ∈ committed))

def summarize (all : List WalEntry) : RecoveryResult :=
  let committed := txsWith .commit all
  let rolledBack := txsWith .rollback all
  let seen := ((all.filter (fun e => e.txId ≠ 0)).map WalEntry.txId).dedup
  let partialIds := seen.filter (fun id => id ∉ committed ∧ id ∉ rolledBack)
  { entriesRecovered := all.length
    transactionsRecovered := seen.length
    entriesReplayed := (all.filter (isReplayed committed)).length
    partialTxDiscarded := (all.filter (fun e => e.txId ≠ 0 ∧ e.txId ∈ partialIds)).length
    lastSeqNum := (all.map WalEntry.seqNum).max?.getD 0 }

def recover (data : List UInt8) : Except WalError RecoveryResult :=
  .ok (summarize (scanEntries data))

/-! ## Replay -/

/-- `handler` is called on every replayed entry in order; the count is returned. -/
def replay {σ : Type} (entries : List WalEntry) (handler : σ → WalEntry → σ) (s : σ) : σ × Nat :=
  let committed := txsWith .commit entries
  let replayed := entries.filter (isReplayed committed)
  (replayed.foldl handler s, replayed.length)

end Ipfrs.Storage
