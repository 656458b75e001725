/-
Ipfrs.Storage.TransactionLog — the transaction log and its incremental replay.

Ids are given out at `begin` and committed transactions are kept in the order of their
commits. `replay_committed` answers with those of a larger id than the caller's, in
that order, so a caller that goes by the largest id it has misses a transaction begun
before that one and committed after it.

The map of the active transactions is a function here.
-/
import Ipfrs.Lib.Cursor

namespace Ipfrs.Storage.TransactionLog

open Ipfrs.Lib

inductive TxError where
  | transactionNotFound (id : UInt64)
  | transactionNotActive (id : UInt64)
  | transactionAlreadyEnded (id : UInt64)
  deriving DecidableEq, Repr

inductive TxOperation where
  | put (key : String) (value : List UInt8) (prevValue : Option (List UInt8))
  | delete (key : String) (prevValue : List UInt8)
  | batchPut (entries : List (String × List UInt8))
  deriving DecidableEq, Repr

inductive TransactionStatus where
  | active
  | committed
  | rolledBack
  | aborted
  deriving DecidableEq, Repr

structure Transaction where
  id : UInt64
  operations : List TxOperation
  status : TransactionStatus
  startedAt : UInt64
  endedAt : Option UInt64
  deriving DecidableEq, Repr

namespace Transaction

def new (id startedAt : UInt64) : Transaction :=
  { id, operations := [], status := .active, startedAt, endedAt := none }

def isActive (tx : Transaction) : Bool := tx.status = .active

end Transaction

structure StorageTransactionLog where
  transactions : List Transaction
  active : UInt64 → Option Transaction
  nextId : UInt64
  maxCommitted : UInt64
  committedCount : UInt64
  rolledBackCount : UInt64

namespace StorageTransactionLog

def new (maxCommitted : UInt64) : StorageTransactionLog :=
  { transactions := [], active := fun _ => none, nextId := 1, maxCommitted,
    committedCount := 0, rolledBackCount := 0 }

def begin (log : StorageTransactionLog) (now : UInt64) : UInt64 × StorageTransactionLog :=
  let id := log.nextId
  (id, { log with
    nextId := log.nextId + 1
    active := Function.update log.active id (some (Transaction.new id now)) })

def append (log : StorageTransactionLog) (txId : UInt64) (op : TxOperation) :
    Except TxError StorageTransactionLog :=
  match log.active txId with
  | none => .error (.transactionNotFound txId)
  | some tx =>
    if !tx.isActive then .error (.transactionNotActive txId)
    else .ok { log with
      active := Function.update log.active txId
        (some { tx with operations := tx.operations ++ [op] }) }

/-- The lookup that `commit`, `rollback` and `abort` begin with. -/
def take (log : StorageTransactionLog) (txId : UInt64) : Except TxError Transaction :=
  match log.active txId with
  | none => .error (.transactionNotFound txId)
  | some tx => if !tx.isActive then .error (.transactionAlreadyEnded txId) else .ok tx

/-- The transaction as it is kept after its commit. -/
def commitOf (tx : Transaction) (now : UInt64) : Transaction :=
  { tx with status := .committed, endedAt := some now }

/-- The oldest transaction goes when the deque is full; nothing is kept at a limit of 0. -/
def retain (log : StorageTransactionLog) (tx : Transaction) : List Transaction :=
  let room :=
    if 0 < log.maxCommitted ∧ log.maxCommitted.toNat ≤ log.transactions.length then
      log.transactions.tail
    else log.transactions
  if 0 < log.maxCommitted then room ++ [tx] else room

/-- The committed transaction is returned with the log, for `Session.committed`. -/
def commit (log : StorageTransactionLog) (txId now : UInt64) :
    Except TxError (Transaction × StorageTransactionLog) :=
  match log.take txId with
  | .error e => .error e
  | .ok tx => .ok (commitOf tx now, { log with
      active := Function.update log.active txId none
      committedCount := log.committedCount + 1
      transactions := log.retain (commitOf tx now) })

/-- The operations in reverse order, for the caller to undo. -/
def rollback (log : StorageTransactionLog) (txId : UInt64) :
    Except TxError (List TxOperation × StorageTransactionLog) :=
  match log.take txId with
  | .error e => .error e
  | .ok tx => .ok (tx.operations.reverse, { log with
      active := Function.update log.active txId none
      rolledBackCount := log.rolledBackCount + 1 })

def abort (log : StorageTransactionLog) (txId : UInt64) : Except TxError StorageTransactionLog :=
  match log.take txId with
  | .error e => .error e
  | .ok _ => .ok { log with active := Function.update log.active txId none }

def replayCommitted (log : StorageTransactionLog) (sinceId : UInt64) : List Transaction :=
  log.transactions.filter (fun tx => tx.id > sinceId)

end StorageTransactionLog

/-! ## A consumer of the log -/

inductive Call where
  | begin (now : UInt64)
  | append (txId : UInt64) (op : TxOperation)
  | commit (txId now : UInt64)
  | rollback (txId now : UInt64)
  | abort (txId now : UInt64)
  | poll
  deriving DecidableEq, Repr

/-- The log, what was committed to it so far, and a consumer with what it received and
the largest id of it. -/
structure Session where
  log : StorageTransactionLog
  committed : List Transaction
  received : List Transaction
  largest : UInt64

namespace Session

def new (maxCommitted : UInt64) : Session :=
  { log := StorageTransactionLog.new maxCommitted, committed := [], received := [], largest := 0 }

def answer (s : Session) : List Transaction := s.log.replayCommitted s.largest

def larger (largest : UInt64) (tx : Transaction) : UInt64 :=
  if largest < tx.id then tx.id else largest

def step (s : Session) : Call → Session
  | .begin now => { s with log := (s.log.begin now).2 }
  | .append txId op =>
    match s.log.append txId op with
    | .ok log => { s with log }
    | .error _ => s
  | .commit txId now =>
    match s.log.commit txId now with
    | .ok (tx, log) => { s with log, committed := s.committed ++ [tx] }
    | .error _ => s
  | .rollback txId _ =>
    match s.log.rollback txId with
    | .ok (_, log) => { s with log }
    | .error _ => s
  | .abort txId _ =>
    match s.log.abort txId with
    | .ok log => { s with log }
    | .error _ => s
  | .poll =>
    { s with received := s.received ++ s.answer, largest := s.answer.foldl larger s.largest }

def run (s : Session) (calls : List Call) : Session := calls.foldl step s

/-- The answer of a poll is in ascending order, and after it the consumer has received
every committed transaction once. -/
def Complete (s : Session) : Prop :=
  s.answer.Pairwise (fun a b => a.id < b.id) ∧ (s.received ++ s.answer).Perm s.committed

/-- The transactions were committed in ascending order of their ids, from 1. -/
def InOrder (s : Session) : Prop :=
  (∀ tx ∈ s.committed, 0 < tx.id) ∧ s.committed.Pairwise (fun a b => a.id < b.id)

instance (s : Session) : Decidable s.Complete := inferInstanceAs (Decidable (_ ∧ _))

instance (s : Session) : Decidable s.InOrder := inferInstanceAs (Decidable (_ ∧ _))

end Session

/-- Every poll of the calls finds the session in a state with `P`. -/
def AtPolls (P : Session → Prop) (maxCommitted : UInt64) (calls : List Call) : Prop :=
  ∀ before after, calls = before ++ .poll :: after → P ((Session.new maxCommitted).run before)

/-! ## What the calls do -/

/-- The id of a transaction, as a number. -/
def rank (tx : Transaction) : Nat := tx.id.toNat

theorem StorageTransactionLog.replayCommitted_eq (log : StorageTransactionLog) (sinceId : UInt64) :
    log.replayCommitted sinceId = Cursor.newer rank sinceId.toNat log.transactions := by
  apply List.filter_congr
  intro tx _
  exact decide_eq_decide.mpr UInt64.lt_iff_toNat_lt

/-- Below its limit a log keeps every committed transaction. -/
theorem StorageTransactionLog.retain_of_lt {log : StorageTransactionLog} {tx : Transaction}
    (h : log.transactions.length < log.maxCommitted.toNat) :
    log.retain tx = log.transactions ++ [tx] := by
  have hpos : 0 < log.maxCommitted := by
    rw [UInt64.lt_iff_toNat_lt]
    simp only [UInt64.toNat_zero]
    omega
  simp [retain, hpos, Nat.not_le.mpr h]

theorem StorageTransactionLog.commit_eq_ok {log log' : StorageTransactionLog} {txId now : UInt64}
    {tx : Transaction} (h : log.commit txId now = .ok (tx, log')) :
    log'.transactions = log.retain tx ∧ log'.maxCommitted = log.maxCommitted := by
  rw [commit] at h
  split at h
  · cases h
  · cases h
    exact ⟨rfl, rfl⟩

namespace Session

/-- A call that commits nothing and polls nothing. -/
def Untouched (s s' : Session) : Prop :=
  s'.log.transactions = s.log.transactions ∧ s'.log.maxCommitted = s.log.maxCommitted
    ∧ s'.committed = s.committed ∧ s'.received = s.received ∧ s'.largest = s.largest

/-- A commit that succeeds. -/
def Commits (s s' : Session) : Prop :=
  ∃ tx, s'.log.transactions = s.log.retain tx ∧ s'.log.maxCommitted = s.log.maxCommitted
    ∧ s'.committed = s.committed ++ [tx] ∧ s'.received = s.received ∧ s'.largest = s.largest

theorem step_cases (s : Session) (c : Call) :
    c = .poll ∨ Commits s (s.step c) ∨ Untouched s (s.step c) := by
  cases c with
  | begin now => exact .inr (.inr ⟨rfl, rfl, rfl, rfl, rfl⟩)
  | append txId op =>
    refine .inr (.inr ?_)
    rw [step, StorageTransactionLog.append]
    cases s.log.active txId with
    | none => exact ⟨rfl, rfl, rfl, rfl, rfl⟩
    | some tx => cases hact : tx.isActive <;> simp [Untouched, hact]
  | commit txId now =>
    right
    cases h : s.log.commit txId now with
    | error e => exact .inr (by simp [step, h, Untouched])
    | ok out =>
      obtain ⟨tx, log⟩ := out
      obtain ⟨hkept, hmax⟩ := StorageTransactionLog.commit_eq_ok h
      refine .inl ⟨tx, ?_⟩
      simp [step, h, hkept, hmax]
  | rollback txId now =>
    refine .inr (.inr ?_)
    rw [step, StorageTransactionLog.rollback]
    cases s.log.take txId <;> exact ⟨rfl, rfl, rfl, rfl, rfl⟩
  | abort txId now =>
    refine .inr (.inr ?_)
    rw [step, StorageTransactionLog.abort]
    cases s.log.take txId <;> exact ⟨rfl, rfl, rfl, rfl, rfl⟩
  | poll => exact .inl rfl

theorem committed_prefix_step (s : Session) (c : Call) : s.committed <+: (s.step c).committed := by
  rcases step_cases s c with rfl | ⟨tx, -, -, hcommitted, -⟩ | ⟨-, -, hcommitted, -⟩
  · exact List.prefix_refl _
  · exact ⟨[tx], hcommitted.symm⟩
  · exact hcommitted ▸ List.prefix_refl _

/-! ## A consumer that is not behind -/

/-- The log has every committed transaction as long as they fit, and the consumer has
the first of them, in ascending order, and their largest id. -/
structure Reads (maxCommitted : UInt64) (s : Session) : Prop where
  limit : s.log.maxCommitted = maxCommitted
  retained : s.committed.length ≤ maxCommitted.toNat → s.log.transactions = s.committed
  behind : s.received <+: s.committed
  ascending : Cursor.Ascending rank 0 s.received
  largest : s.largest.toNat = Cursor.advance rank 0 s.received

theorem reads_new (maxCommitted : UInt64) : Reads maxCommitted (new maxCommitted) :=
  ⟨rfl, fun _ => rfl, List.prefix_refl _, Cursor.ascending_nil 0, rfl⟩

theorem inOrder_iff_ascending (s : Session) : s.InOrder ↔ Cursor.Ascending rank 0 s.committed := by
  simp [InOrder, Cursor.Ascending, rank, UInt64.lt_iff_toNat_lt]

theorem toNat_foldl_larger (l : List Transaction) (largest : UInt64) :
    (l.foldl larger largest).toNat = Cursor.advance rank largest.toNat l := by
  induction l generalizing largest with
  | nil => rfl
  | cons tx l ih =>
    have hlarger : (larger largest tx).toNat
        = if largest.toNat < rank tx then rank tx else largest.toNat := by
      by_cases hlt : largest < tx.id
      · rw [larger, rank, if_pos hlt, if_pos (UInt64.lt_iff_toNat_lt.mp hlt)]
      · rw [larger, rank, if_neg hlt, if_neg (fun h => hlt (UInt64.lt_iff_toNat_lt.mpr h))]
    rw [List.foldl_cons, ih, hlarger]
    rfl

theorem Reads.answer_eq {maxCommitted : UInt64} {s : Session} (h : Reads maxCommitted s)
    (hfits : s.committed.length ≤ maxCommitted.toNat) :
    s.answer = Cursor.newer rank (Cursor.advance rank 0 s.received) s.committed := by
  rw [answer, StorageTransactionLog.replayCommitted_eq, h.retained hfits, h.largest]

/-- A consumer that is not behind is brought up to date exactly if all commits were in
order. -/
theorem Reads.complete_iff {maxCommitted : UInt64} {s : Session} (h : Reads maxCommitted s)
    (hfits : s.committed.length ≤ maxCommitted.toNat) : s.Complete ↔ s.InOrder := by
  obtain ⟨fresh, hfresh⟩ := h.behind
  have hiff := @Cursor.upToDate_iff _ rank 0 s.received fresh h.ascending
  rw [hfresh] at hiff
  rw [inOrder_iff_ascending, ← hiff, Complete, h.answer_eq hfits]
  simp [rank, UInt64.lt_iff_toNat_lt]

theorem Reads.step {maxCommitted : UInt64} {s : Session} (h : Reads maxCommitted s) (c : Call)
    (hfits : (s.step c).committed.length ≤ maxCommitted.toNat) (hpoll : c = .poll → s.InOrder) :
    Reads maxCommitted (s.step c) := by
  have hbefore : s.committed.length ≤ maxCommitted.toNat :=
    Nat.le_trans (committed_prefix_step s c).length_le hfits
  rcases step_cases s c with rfl | ⟨tx, htxs, hmax, hcommitted, hreceived, hlargest⟩
    | ⟨htxs, hmax, hcommitted, hreceived, hlargest⟩
  · have hup := (h.complete_iff hbefore).mpr (hpoll rfl)
    obtain ⟨fresh, hfresh⟩ := h.behind
    have hall : s.received ++ s.answer = s.committed := by
      have hanswer := h.answer_eq hbefore
      have hlen := hup.2.length_eq
      rw [← hfresh, Cursor.newer_append] at hanswer
      rw [← hfresh, List.length_append, List.length_append, Nat.add_left_cancel_iff,
        hanswer] at hlen
      have hfilter : Cursor.newer rank (Cursor.advance rank 0 s.received) fresh = fresh :=
        List.filter_sublist.eq_of_length hlen
      rw [hanswer, hfilter, hfresh]
    refine ⟨h.limit, h.retained, ?_, ?_, ?_⟩
    · show s.received ++ s.answer <+: s.committed
      exact hall ▸ List.prefix_refl _
    · show Cursor.Ascending rank 0 (s.received ++ s.answer)
      rw [hall]
      exact (inOrder_iff_ascending s).mp (hpoll rfl)
    · show (s.answer.foldl larger s.largest).toNat = Cursor.advance rank 0 (s.received ++ s.answer)
      rw [toNat_foldl_larger, h.largest, ← Cursor.advance_append]
  · refine ⟨hmax.trans h.limit, fun _ => ?_, ?_, hreceived ▸ h.ascending, ?_⟩
    · rw [hcommitted, List.length_append, List.length_singleton] at hfits
      have hroom : s.log.transactions.length < s.log.maxCommitted.toNat := by
        rw [h.retained hbefore, h.limit]
        omega
      rw [htxs, StorageTransactionLog.retain_of_lt hroom, hcommitted, h.retained hbefore]
    · rw [hreceived, hcommitted]
      exact h.behind.trans (List.prefix_append _ _)
    · rw [hlargest, hreceived, h.largest]
  · refine ⟨hmax.trans h.limit, fun _ => ?_, ?_, hreceived ▸ h.ascending, ?_⟩
    · rw [htxs, hcommitted, h.retained hbefore]
    · rw [hreceived, hcommitted]
      exact h.behind
    · rw [hlargest, hreceived, h.largest]

theorem run_concat (s : Session) (calls : List Call) (c : Call) :
    s.run (calls ++ [c]) = (s.run calls).step c := by
  rw [run, List.foldl_append]
  rfl

end Session

theorem atPolls_iff_take (P : Session → Prop) (maxCommitted : UInt64) (calls : List Call) :
    AtPolls P maxCommitted calls ↔ ∀ i < calls.length, calls[i]? = some .poll →
        P ((Session.new maxCommitted).run (calls.take i)) := by
  constructor
  · intro h i hi hpoll
    have hget : calls[i] = .poll := by simpa [List.getElem?_eq_getElem hi] using hpoll
    apply h (calls.take i) (calls.drop (i + 1))
    rw [← hget, List.getElem_cons_drop, List.take_append_drop]
  · rintro h before after rfl
    have hi := h before.length (by simp) (by simp)
    rwa [List.take_left] at hi

instance (P : Session → Prop) [DecidablePred P] (maxCommitted : UInt64) (calls : List Call) :
    Decidable (AtPolls P maxCommitted calls) :=
  decidable_of_iff _ (atPolls_iff_take P maxCommitted calls).symm

theorem atPolls_nil (P : Session → Prop) (maxCommitted : UInt64) : AtPolls P maxCommitted [] := by
  intro before after h
  simp at h

theorem atPolls_concat (P : Session → Prop) (maxCommitted : UInt64) (calls : List Call) (c : Call) :
    AtPolls P maxCommitted (calls ++ [c]) ↔ AtPolls P maxCommitted calls
        ∧ (c = .poll → P ((Session.new maxCommitted).run calls)) := by
  constructor
  · intro h
    refine ⟨fun before after hsplit => h before (after ++ [c]) ?_, fun hc => h calls [] ?_⟩
    · rw [hsplit, List.append_assoc, List.cons_append]
    · rw [hc]
  · rintro ⟨hcalls, hlast⟩ before after hsplit
    rcases List.eq_nil_or_concat' after with rfl | ⟨init, d, rfl⟩
    · obtain ⟨rfl, hc⟩ := List.append_inj' hsplit rfl
      exact hlast (List.cons.inj hc).1
    · rw [← List.cons_append, ← List.append_assoc] at hsplit
      exact hcalls before init (List.append_inj' hsplit rfl).1

namespace Session

/-- Before its first commit out of order that a poll could see, the consumer is not
behind. -/
theorem reads_run {maxCommitted : UInt64} (calls : List Call)
    (hfits : ((new maxCommitted).run calls).committed.length ≤ maxCommitted.toNat)
    (hpolls : AtPolls InOrder maxCommitted calls) :
    Reads maxCommitted ((new maxCommitted).run calls) := by
  induction calls using List.reverseRecOn with
  | nil => exact reads_new maxCommitted
  | append_singleton calls c ih =>
    rw [run_concat] at hfits ⊢
    obtain ⟨hcalls, hlast⟩ := (atPolls_concat InOrder maxCommitted calls c).mp hpolls
    have hbefore := Nat.le_trans (committed_prefix_step _ c).length_le hfits
    exact (ih hbefore hcalls).step c hfits hlast

end Session

/-- **A consumer receives every committed transaction once, in ascending order, exactly
when no poll finds a commit out of order.** -/
theorem polls_complete_iff (maxCommitted : UInt64) (calls : List Call)
    (hfits : ((Session.new maxCommitted).run calls).committed.length ≤ maxCommitted.toNat) :
    AtPolls Session.Complete maxCommitted calls ↔ AtPolls Session.InOrder maxCommitted calls := by
  induction calls using List.reverseRecOn with
  | nil => exact iff_of_true (atPolls_nil _ _) (atPolls_nil _ _)
  | append_singleton calls c ih =>
    rw [Session.run_concat] at hfits
    have hbefore := Nat.le_trans (Session.committed_prefix_step _ c).length_le hfits
    rw [atPolls_concat, atPolls_concat, ih hbefore]
    refine and_congr_right (fun hcalls => ?_)
    rw [(Session.reads_run calls hbefore hcalls).complete_iff hbefore]

/-- Two transactions committed in order, with a poll after each. -/
theorem polls_complete_inOrder :
    AtPolls Session.Complete 10 [.begin 0, .begin 0, .commit 1 1, .poll, .commit 2 2, .poll] := by
  exact (polls_complete_iff 10 _ (by decide)).mpr (by decide)

/-- The second transaction is committed first. A poll between the commits makes the
consumer miss the other one, a poll after both answers with 2 before 1. -/
theorem not_polls_complete_overlapping : ¬ AtPolls Session.Complete 10
        [.begin 0, .begin 0, .commit 2 1, .poll, .commit 1 2, .poll]
      ∧ ¬ AtPolls Session.Complete 10 [.begin 0, .begin 0, .commit 2 1, .commit 1 2, .poll] := by
  decide

end Ipfrs.Storage.TransactionLog
