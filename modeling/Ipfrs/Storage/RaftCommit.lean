/-
Ipfrs.Storage.RaftCommit — what a follower commits and applies, against the log of its
leader.

A follower's log is a list spliced with slices of the leader's log, and matches it
(`Follows`). The commit index is bounded by the length of the follower's log, not by
the last entry of the request: entries beyond the slice that the leader does not have
are committed with it. `CommitsLeaders` says when a request does not do that; a run of
such requests, in any order and with repetitions, commits and applies the leader's
entries only.

An accepted request of consecutive entries stands in the log at its indices, whoever
sends it. Applying counts an entry before the store has taken it, so an entry whose call
of the store fails is skipped, and the store is what the log gives up to `last_applied`
exactly if nothing was left to do for the skipped ones (`replayedThroughout_iff`).
-/
import Ipfrs.Lib.Splice
import Ipfrs.Storage.BlockStore
import Ipfrs.Storage.Raft

namespace Ipfrs.Storage.Raft

open Ipfrs.Core Ipfrs.Lib.Splice

/-- A leader's log with its commit index. -/
structure LeaderLog where
  entries : List LogEntry
  commit : Nat
  commit_le : commit ≤ entries.length
  /-- Entries are numbered from 1. -/
  numbered : ∀ i e, entries[i]? = some e → e.index = i + 1

/-- The node's log matches the leader's, and is the leader's up to its commit index. -/
structure Follows (l : LeaderLog) (n : RaftNode) : Prop where
  matching : Matching LogEntry.term n.log l.entries
  commit_le : n.commitIndex ≤ l.commit
  agrees : n.log.take n.commitIndex = l.entries.take n.commitIndex

/-- The request carries a slice of the leader's log, the term of the entry before it
and the leader's commit index. -/
structure CutFrom (l : LeaderLog) (r : AppendEntriesRequest) : Prop where
  prev_le : r.prevLogIndex ≤ l.entries.length
  prev_term : 0 < r.prevLogIndex →
    l.entries[r.prevLogIndex - 1]?.map LogEntry.term = some r.prevLogTerm
  slice : ∃ k, r.entries = (l.entries.drop r.prevLogIndex).take k
  commit_eq : r.leaderCommit = l.commit

/-- The request is refused, or its slice conflicts with the log, or the entries beyond
the slice that come to be committed are the leader's. -/
def CommitsLeaders (l : LeaderLog) (n : RaftNode) (r : AppendEntriesRequest) : Prop :=
  r.term < n.currentTerm ∨ (n.refusal r).isSome = true
    ∨ (∃ i < r.prevLogIndex + r.entries.length, r.prevLogIndex ≤ i
        ∧ Conflict LogEntry.term n.log l.entries i)
    ∨ ∀ i < min l.commit n.log.length, r.prevLogIndex + r.entries.length ≤ i →
        n.log[i]? = l.entries[i]?

instance (l : LeaderLog) (n : RaftNode) (r : AppendEntriesRequest) :
    Decidable (CommitsLeaders l n r) :=
  inferInstanceAs (Decidable (_ ∨ _ ∨ _ ∨ _))

namespace RaftNode

variable {n : RaftNode} {l : LeaderLog} {r : AppendEntriesRequest}

/-! ## The appending loop -/

theorem appendOne_eq_spliceOne (log : List LogEntry) {e : LogEntry} {i : Nat}
    (he : e.index = i + 1) : appendOne log e = spliceOne LogEntry.term log i e := by
  have hpos : position e = i := by simp [position, he]
  rw [appendOne, hpos, spliceOne]
  cases log[i]? <;> rfl

/-- On numbered entries the appending loop is the splice. -/
theorem foldl_appendOne_eq_splice (log : List LogEntry) (i : Nat) (entries : List LogEntry)
    (h : ∀ j e, entries[j]? = some e → e.index = i + j + 1) :
    entries.foldl appendOne log = splice LogEntry.term log i entries := by
  induction entries generalizing log i with
  | nil => rfl
  | cons e es ih =>
    rw [List.foldl_cons, splice, appendOne_eq_spliceOne log (h 0 e rfl)]
    apply ih
    intro j x hx
    have hindex := h (j + 1) x hx
    omega

theorem foldl_appendOne_eq (hcut : CutFrom l r) (log : List LogEntry) :
    r.entries.foldl appendOne log = splice LogEntry.term log r.prevLogIndex
          ((l.entries.drop r.prevLogIndex).take r.entries.length) := by
  obtain ⟨k, hk⟩ := hcut.slice
  have hslice : (l.entries.drop r.prevLogIndex).take r.entries.length = r.entries := by
    rw [hk, List.length_take, ← List.take_take, List.take_length]
  rw [hslice]
  apply foldl_appendOne_eq_splice
  intro j e he
  rw [hk, List.getElem?_take] at he
  split at he
  · rw [List.getElem?_drop] at he
    exact l.numbered _ e he
  · cases he

theorem slice_length_le (hcut : CutFrom l r) :
    r.prevLogIndex + r.entries.length ≤ l.entries.length := by
  obtain ⟨k, hk⟩ := hcut.slice
  have hle := hcut.prev_le
  rw [hk, List.length_take, List.length_drop]
  omega

/-! ## What an accepted request leaves -/

/-- The entry before the slice is there with its term, so the log is the leader's up to
the slice. -/
theorem take_prev (hm : Matching LogEntry.term n.log l.entries) (hcut : CutFrom l r)
    (hnone : n.refusal r = none) : r.prevLogIndex ≤ n.log.length
      ∧ n.log.take r.prevLogIndex = l.entries.take r.prevLogIndex := by
  by_cases hpos : 0 < r.prevLogIndex
  · rw [refusal, if_pos hpos] at hnone
    cases hget : n.log[r.prevLogIndex - 1]? with
    | none =>
      rw [hget] at hnone
      cases hnone
    | some prev =>
      rw [hget] at hnone
      have hterm : prev.term = r.prevLogTerm := by
        by_contra hne
        simp [hne] at hnone
      obtain ⟨e, he, heq⟩ := Option.map_eq_some_iff.mp (hcut.prev_term hpos)
      have htake := hm _ prev e hget he (hterm.trans heq.symm)
      rw [Nat.sub_add_cancel hpos] at htake
      have hlt := (List.getElem?_eq_some_iff.mp hget).1
      exact ⟨by omega, htake⟩
  · have hzero : r.prevLogIndex = 0 := by omega
    simp [hzero]

theorem refusal_updateTerm (term : Term) (leader : Option NodeId) :
    { n.updateTerm term with currentLeader := leader }.refusal r = n.refusal r := by
  unfold updateTerm
  split <;> rfl

/-- The log and the commit index after a request. -/
theorem handleAppendEntries_log (n : RaftNode) (r : AppendEntriesRequest) :
    let n' := (n.handleAppendEntries r).2
    if r.term < n.currentTerm ∨ (n.refusal r).isSome = true then
      n'.log = n.log ∧ n'.commitIndex = n.commitIndex
    else n'.log = (n.accept r).log ∧ n'.commitIndex = (n.accept r).commitIndex := by
  have hlog : (n.updateTerm r.term).log = n.log := by unfold updateTerm; split <;> rfl
  have hcommit : (n.updateTerm r.term).commitIndex = n.commitIndex := by
    unfold updateTerm; split <;> rfl
  rw [handleAppendEntries]
  by_cases hterm : r.term < n.currentTerm
  · simp [hterm]
  · simp only [hterm, if_false, false_or, refusal_updateTerm]
    cases hrefuse : n.refusal r with
    | some i => simp [hlog, hcommit]
    | none => simp [accept, hlog, hcommit]

/-- The commit index moves to the leader's, as far as the log goes. -/
theorem accept_commitIndex (hf : Follows l n) (hcut : CutFrom l r) :
    (n.accept r).commitIndex = min l.commit (n.accept r).log.length
      ∨ (n.accept r).commitIndex = n.commitIndex ∧ n.commitIndex = l.commit := by
  have hle := hf.commit_le
  simp only [accept, hcut.commit_eq]
  split
  · exact .inl rfl
  · exact .inr ⟨rfl, by omega⟩

/-- An accepted slice makes the log a beginning of the leader's, or leaves it. -/
theorem accept_log (hf : Follows l n) (hcut : CutFrom l r) (hnone : n.refusal r = none) :
    let m := r.prevLogIndex + r.entries.length
    ((n.accept r).log = l.entries.take m
        ∧ (n.log.length ≤ m ∨ ∃ i < m, r.prevLogIndex ≤ i
          ∧ Conflict LogEntry.term n.log l.entries i))
      ∨ (n.accept r).log = n.log
        ∧ ∀ i < m, r.prevLogIndex ≤ i → ¬ Conflict LogEntry.term n.log l.entries i := by
  obtain ⟨hprev, htake⟩ := take_prev hf.matching hcut hnone
  have hlen := slice_length_le hcut
  have hlog : (n.accept r).log = splice LogEntry.term n.log r.prevLogIndex
      ((l.entries.drop r.prevLogIndex).take r.entries.length) := foldl_appendOne_eq hcut n.log
  by_cases hchange : n.log.length ≤ r.prevLogIndex + r.entries.length
      ∨ ∃ j, r.prevLogIndex ≤ j ∧ j < r.prevLogIndex + r.entries.length
        ∧ Conflict LogEntry.term n.log l.entries j
  · refine .inl ⟨hlog.trans (splice_eq_take hf.matching hprev hlen htake hchange), ?_⟩
    exact hchange.imp_right (fun ⟨j, hj, hlt, hc⟩ => ⟨j, hlt, hj, hc⟩)
  · obtain ⟨hlong, hsame⟩ := not_or.mp hchange
    have hclean : ∀ j, r.prevLogIndex ≤ j → j < r.prevLogIndex + r.entries.length →
        ¬ Conflict LogEntry.term n.log l.entries j :=
      fun j hj hlt hc => hsame ⟨j, hj, hlt, hc⟩
    exact .inr ⟨hlog.trans (splice_eq_self (by omega) hlen hclean),
      fun i hi hle => hclean i hle hi⟩

end RaftNode

section Step

variable {n : RaftNode} {l : LeaderLog} {r : AppendEntriesRequest}

/-- A log that is a beginning of the leader's agrees with it up to any commit index
inside it. -/
theorem agrees_of_take {log : List LogEntry} {m k : Nat} (h : log = l.entries.take m)
    (hk : k ≤ log.length) : log.take k = l.entries.take k := by
  have hm : k ≤ m := by
    rw [h, List.length_take] at hk
    omega
  rw [h, List.take_take, Nat.min_eq_left hm]

/-- The log is no longer than its agreement with the leader's. -/
theorem Follows.commit_le_length (hf : Follows l n) : n.commitIndex ≤ n.log.length := by
  have hle := l.commit_le
  have hcommit := hf.commit_le
  have hlen := congrArg List.length hf.agrees
  rw [List.length_take, List.length_take] at hlen
  omega

/-- A slice that ends the log or conflicts with it reaches past the commit index. -/
theorem Follows.commit_le_of_change (hf : Follows l n) {m : Nat}
    (h : n.log.length ≤ m ∨ ∃ i < m, r.prevLogIndex ≤ i
      ∧ Conflict LogEntry.term n.log l.entries i) : n.commitIndex ≤ m := by
  rcases h with hshort | ⟨i, hi, -, hc⟩
  · exact Nat.le_trans hf.commit_le_length hshort
  · by_contra hlt
    have hsame : n.log[i]? = l.entries[i]? := getElem?_eq_of_take_eq hf.agrees (by omega)
    exact hc.2 (congrArg (Option.map LogEntry.term) hsame)

/-- Where the log stays as it was, the new commit index stands for the entries beyond
the slice. -/
theorem agrees_iff_of_same (hf : Follows l n) {k m : Nat}
    (hk : k = min l.commit n.log.length ∨ k = n.commitIndex ∧ n.commitIndex = l.commit)
    (hm : ∀ i < min m n.log.length, n.log[i]? = l.entries[i]?) : n.log.take k = l.entries.take k
      ↔ ∀ i < min l.commit n.log.length, m ≤ i → n.log[i]? = l.entries[i]? := by
  have hlength := hf.commit_le_length
  have hmin : k = min l.commit n.log.length := by omega
  subst hmin
  constructor
  · intro htake i hi _
    exact getElem?_eq_of_take_eq htake hi
  · intro hbeyond
    apply take_eq_of_getElem?
    intro i hi
    by_cases him : i < m
    · exact hm i (by omega)
    · exact hbeyond i hi (by omega)

/-- The entries of the slice that were there already are the leader's. -/
theorem getElem?_eq_of_no_conflict (hf : Follows l n) (hcut : CutFrom l r)
    (hnone : n.refusal r = none)
    (hclean : ∀ i < r.prevLogIndex + r.entries.length, r.prevLogIndex ≤ i →
      ¬ Conflict LogEntry.term n.log l.entries i) :
    ∀ i < min (r.prevLogIndex + r.entries.length) n.log.length, n.log[i]? = l.entries[i]? := by
  intro i hi
  have hlen := RaftNode.slice_length_le hcut
  by_cases hprev : i < r.prevLogIndex
  · exact getElem?_eq_of_take_eq (RaftNode.take_prev hf.matching hcut hnone).2 hprev
  · have htake := hf.matching.take_eq (i := i) (by omega) (by omega)
      (hclean i (by omega) (by omega))
    exact getElem?_eq_of_take_eq htake (Nat.lt_succ_self i)

/-- What one request does: the node's log is the leader's up to the new commit index
exactly when the request commits the leader's entries. -/
theorem agrees_iff_commitsLeaders (hf : Follows l n) (hcut : CutFrom l r) :
    let n' := (n.handleAppendEntries r).2
    n'.log.take n'.commitIndex = l.entries.take n'.commitIndex ↔ CommitsLeaders l n r := by
  have hafter := RaftNode.handleAppendEntries_log n r
  dsimp only at hafter ⊢
  split at hafter
  · next hrefused =>
    rw [hafter.1, hafter.2]
    refine iff_of_true hf.agrees ?_
    rcases hrefused with hterm | hrefuse
    · exact .inl hterm
    · exact .inr (.inl hrefuse)
  · next haccepted =>
    obtain ⟨hterm, hrefuse⟩ := not_or.mp haccepted
    have hnone : n.refusal r = none := Option.not_isSome_iff_eq_none.mp hrefuse
    have hcommit := RaftNode.accept_commitIndex hf hcut
    rw [hafter.1, hafter.2]
    rcases RaftNode.accept_log hf hcut hnone with ⟨hlog, hchange⟩ | ⟨hlog, hclean⟩
    · have hle := hf.commit_le_of_change hchange
      have hlength := RaftNode.slice_length_le hcut
      have hlen := congrArg List.length hlog
      rw [List.length_take] at hlen
      refine iff_of_true (agrees_of_take hlog (by omega)) ?_
      rcases hchange with hshort | hconflict
      · exact .inr (.inr (.inr (fun i hi hmi => by omega)))
      · exact .inr (.inr (.inl hconflict))
    · rw [hlog] at hcommit ⊢
      rw [agrees_iff_of_same hf hcommit (getElem?_eq_of_no_conflict hf hcut hnone hclean)]
      constructor
      · exact fun h => .inr (.inr (.inr h))
      · rintro (h | h | ⟨i, hi, hle, hc⟩ | h)
        · exact absurd h hterm
        · exact absurd h hrefuse
        · exact absurd hc (hclean i hi hle)
        · exact h

/-- After a request that commits the leader's entries the node still follows. -/
theorem Follows.handleAppendEntries (hf : Follows l n) (hcut : CutFrom l r)
    (hok : CommitsLeaders l n r) : Follows l (n.handleAppendEntries r).2 := by
  have hagrees := (agrees_iff_commitsLeaders hf hcut).mpr hok
  have hafter := RaftNode.handleAppendEntries_log n r
  dsimp only at hafter
  split at hafter
  · exact ⟨hafter.1 ▸ hf.matching, hafter.2 ▸ hf.commit_le, hagrees⟩
  · next haccepted =>
    have hnone := Option.not_isSome_iff_eq_none.mp (not_or.mp haccepted).2
    refine ⟨?_, ?_, hagrees⟩
    · rw [hafter.1]
      rcases RaftNode.accept_log hf hcut hnone with ⟨hlog, -⟩ | ⟨hlog, -⟩
      · rw [hlog]
        exact matching_take _
      · rw [hlog]
        exact hf.matching
    · have hle := hf.commit_le
      have hcommit := RaftNode.accept_commitIndex hf hcut
      rw [hafter.2]
      omega

end Step

/-! ## Applying -/

namespace RaftNode

variable {σ ε : Type} (exec : σ → Command → Except ε σ)

/-- What is applied is the log's entry at its index, and past what was applied before. -/
theorem mem_applyLoop {count : Nat} {n : RaftNode} {store : σ} {k : Nat} {e : LogEntry}
    (h : (k, e) ∈ (applyLoop exec count n store).2.2.2) :
    n.lastApplied < k ∧ k ≤ n.lastApplied + count ∧ n.log[k - 1]? = some e := by
  induction count generalizing n store with
  | zero => simp [applyLoop] at h
  | succ count ih =>
    rw [applyLoop] at h
    dsimp only at h
    split at h
    · simp at h
    · next entry hentry =>
      have hfirst : (k, e) = (n.lastApplied + 1, entry) →
          n.lastApplied < k ∧ k ≤ n.lastApplied + (count + 1) ∧ n.log[k - 1]? = some e := by
        rintro ⟨⟩
        exact ⟨by omega, by omega, hentry⟩
      split at h
      · exact hfirst (List.mem_singleton.mp h)
      · rcases List.mem_cons.mp h with heq | hrest
        · exact hfirst heq
        · obtain ⟨hlow, hhigh, hget⟩ := ih hrest
          dsimp only at hlow hhigh hget
          exact ⟨by omega, by omega, hget⟩

/-- Applying moves `last_applied` only. -/
theorem applyLoop_node (count : Nat) (n : RaftNode) (store : σ) :
    ∃ k, (applyLoop exec count n store).2.1 = { n with lastApplied := k } := by
  induction count generalizing n store with
  | zero => exact ⟨n.lastApplied, rfl⟩
  | succ count ih =>
    rw [applyLoop]
    dsimp only
    split
    · exact ⟨_, rfl⟩
    · split
      · exact ⟨_, rfl⟩
      · next store' _ =>
        obtain ⟨k, hk⟩ := ih { n with lastApplied := n.lastApplied + 1 } store'
        exact ⟨k, hk⟩

end RaftNode

/-! ## Runs -/

section Run

variable {σ ε : Type} (exec : σ → Command → Except ε σ) (l : LeaderLog)

/-- What the node does in its event loop on behalf of its leader. -/
inductive Activity where
  | append (r : AppendEntriesRequest)
  | applyCommitted
  deriving DecidableEq, Repr

def act (s : RaftNode × σ) : Activity → RaftNode × σ
  | .append r => ((s.1.handleAppendEntries r).2, s.2)
  | .applyCommitted =>
    let applied := s.1.applyCommittedEntries exec s.2
    (applied.2.1, applied.2.2.1)

/-- The log is the leader's up to the commit index, and so is all that applying would
hand to the store. -/
def CommittedOnly (s : RaftNode × σ) : Prop :=
  s.1.log.take s.1.commitIndex = l.entries.take s.1.commitIndex
    ∧ ∀ p ∈ (s.1.applyCommittedEntries exec s.2).2.2.2,
        0 < p.1 ∧ l.entries[p.1 - 1]? = some p.2

/-- Every state after a step of the run is safe. -/
def CommittedThroughout : RaftNode × σ → List Activity → Prop
  | _, [] => True
  | s, a :: rest =>
    CommittedOnly exec l (act exec s a) ∧ CommittedThroughout (act exec s a) rest

/-- Every request of the run commits the leader's entries when it is handled. -/
def CommitsLeadersThroughout : RaftNode × σ → List Activity → Prop
  | _, [] => True
  | s, .append r :: rest =>
    CommitsLeaders l s.1 r ∧ CommitsLeadersThroughout (act exec s (.append r)) rest
  | s, .applyCommitted :: rest => CommitsLeadersThroughout (act exec s .applyCommitted) rest

variable {exec l}

theorem committedOnly_iff (s : RaftNode × σ) : CommittedOnly exec l s
      ↔ s.1.log.take s.1.commitIndex = l.entries.take s.1.commitIndex := by
  refine ⟨And.left, fun h => ⟨h, ?_⟩⟩
  rintro ⟨k, e⟩ hmem
  obtain ⟨hlow, hhigh, hget⟩ := RaftNode.mem_applyLoop exec hmem
  have hk : k - 1 < s.1.commitIndex := by omega
  exact ⟨by omega, (getElem?_eq_of_take_eq h hk) ▸ hget⟩

theorem Follows.applyCommitted {s : RaftNode × σ} (hf : Follows l s.1) :
    Follows l (act exec s .applyCommitted).1 := by
  obtain ⟨k, hk⟩ := RaftNode.applyLoop_node exec (s.1.commitIndex - s.1.lastApplied) s.1 s.2
  have hnode : (act exec s .applyCommitted).1 = { s.1 with lastApplied := k } := hk
  rw [hnode]
  exact ⟨hf.matching, hf.commit_le, hf.agrees⟩

/-- A follower in any run of requests cut from its leader's log, in any order and
repeated, with applying in between: it commits and applies the leader's entries only,
exactly when no request commits others. -/
theorem committedThroughout_iff {s : RaftNode × σ} {run : List Activity}
    (hf : Follows l s.1) (hcut : ∀ r, .append r ∈ run → CutFrom l r) :
    CommittedThroughout exec l s run ↔ CommitsLeadersThroughout exec l s run := by
  induction run generalizing s with
  | nil => exact Iff.rfl
  | cons a rest ih =>
    have hrest : ∀ r, .append r ∈ rest → CutFrom l r :=
      fun r hr => hcut r (List.mem_cons_of_mem _ hr)
    cases a with
    | append r =>
      have hr : CutFrom l r := hcut r List.mem_cons_self
      rw [CommittedThroughout, CommitsLeadersThroughout, committedOnly_iff]
      have hstep : (act exec s (.append r)).1.log.take (act exec s (.append r)).1.commitIndex
          = l.entries.take (act exec s (.append r)).1.commitIndex
            ↔ CommitsLeaders l s.1 r := agrees_iff_commitsLeaders hf hr
      rw [hstep]
      exact and_congr_right (fun hok => ih (hf.handleAppendEntries hr hok) hrest)
    | applyCommitted =>
      have hnext : Follows l (act exec s .applyCommitted).1 := hf.applyCommitted
      rw [CommittedThroughout, CommitsLeadersThroughout, committedOnly_iff, ih hnext hrest]
      exact and_iff_right hnext.agrees

end Run

/-! ## A follower with a stale entry -/

/-- A store that keeps the commands it is given. -/
private def keepCommands (store : List Command) (c : Command) : Except Unit (List Command) :=
  .ok (store ++ [c])

private def leaderOfTwo : LeaderLog where
  entries := [⟨1, 1, .noOp⟩, ⟨2, 2, .put [1] [2]⟩]
  commit := 2
  commit_le := by decide
  numbered := by
    intro i e he
    match i with
    | 0 | 1 => cases he; rfl
    | _ + 2 => cases he

/-- It has an uncommitted entry of term 1 where the leader has one of term 2. -/
private def staleFollower : RaftNode :=
  { RaftNode.new ⟨1⟩ with
    currentTerm := 2, commitIndex := 1, log := [⟨1, 1, .noOp⟩, ⟨1, 2, .delete [7]⟩] }

private theorem staleFollower_follows : Follows leaderOfTwo staleFollower where
  matching := by
    intro i x y hx hy hterm
    match i with
    | 0 => rfl
    | 1 =>
      cases hx
      cases hy
      exact absurd hterm (by decide)
    | _ + 2 => cases hx
  commit_le := by decide
  agrees := by decide

/-- The first `k` entries after the first, as the leader sends them. -/
private def sliceAfterOne (k : Nat) : AppendEntriesRequest :=
  { term := 2, leaderId := ⟨2⟩, prevLogIndex := 1, prevLogTerm := 1,
    entries := (leaderOfTwo.entries.drop 1).take k, leaderCommit := 2 }

private theorem sliceAfterOne_cutFrom (k : Nat) : CutFrom leaderOfTwo (sliceAfterOne k) where
  prev_le := Nat.le_succ 1
  prev_term := fun _ => rfl
  slice := ⟨k, rfl⟩
  commit_eq := rfl

/-- The slice replaces the stale entry before it is committed; it is sent twice. -/
theorem committedThroughout_iff_staleFollower :
    CommittedThroughout keepCommands leaderOfTwo (staleFollower, [])
        [.append (sliceAfterOne 1), .applyCommitted, .append (sliceAfterOne 1)] := by
  apply (committedThroughout_iff staleFollower_follows ?_).mpr
  · simp only [CommitsLeadersThroughout]
    decide
  · intro r hr
    have hslice : r = sliceAfterOne 1 := by simpa using hr
    rw [hslice]
    exact sliceAfterOne_cutFrom 1

/-- An empty slice with the leader's commit index: the stale entry is committed, and
applied. -/
theorem not_committedOnly_heartbeat :
    Follows leaderOfTwo staleFollower ∧ CutFrom leaderOfTwo (sliceAfterOne 0)
      ∧ ¬ CommittedOnly keepCommands leaderOfTwo
          (act keepCommands (staleFollower, []) (.append (sliceAfterOne 0))) := by
  refine ⟨staleFollower_follows, sliceAfterOne_cutFrom 0, ?_⟩
  rw [committedOnly_iff]
  decide

/-! ## What a request installs -/

/-- Entries are numbered by their places, from 1. -/
def Numbered (log : List LogEntry) : Prop := ∀ i e, log[i]? = some e → e.index = i + 1

namespace RaftNode

variable {n : RaftNode} {r : AppendEntriesRequest}

/-- A request is accepted only where the log reaches its previous index. -/
theorem prevLogIndex_le (h : n.refusal r = none) : r.prevLogIndex ≤ n.log.length := by
  by_cases hpos : 0 < r.prevLogIndex
  · rw [refusal, if_pos hpos] at h
    cases hget : n.log[r.prevLogIndex - 1]? with
    | none => simp [hget] at h
    | some prev =>
      have hlt := (List.getElem?_eq_some_iff.mp hget).1
      omega
  · omega

/-- The answer says whether the request was refused. -/
theorem handleAppendEntries_success (n : RaftNode) (r : AppendEntriesRequest) :
    (n.handleAppendEntries r).1.success = true
      ↔ ¬ (r.term < n.currentTerm ∨ (n.refusal r).isSome = true) := by
  rw [handleAppendEntries]
  by_cases hterm : r.term < n.currentTerm
  · simp [hterm]
  · simp only [hterm, if_false, false_or, refusal_updateTerm]
    cases n.refusal r <;> simp

/-- A successful request with consecutive entries stands in the log, term by term, behind
what was there before it; a refused one changes neither the log nor the commit index. -/
theorem handleAppendEntries_installs (hlog : Numbered n.log)
    (hentries : ∀ j e, r.entries[j]? = some e → e.index = r.prevLogIndex + j + 1) :
    let answer := (n.handleAppendEntries r).1
    let n' := (n.handleAppendEntries r).2
    (answer.success = true →
        (∀ j e, r.entries[j]? = some e → ∃ e', n'.log[r.prevLogIndex + j]? = some e'
          ∧ e'.term = e.term ∧ e'.index = e.index)
        ∧ n'.log.take r.prevLogIndex = n.log.take r.prevLogIndex
        ∧ Numbered n'.log)
      ∧ (answer.success = false → n'.log = n.log ∧ n'.commitIndex = n.commitIndex) := by
  have hafter := handleAppendEntries_log n r
  have hsuccess := handleAppendEntries_success n r
  dsimp only at hafter ⊢
  split at hafter
  · next hrefused =>
    refine ⟨fun h => absurd hrefused (hsuccess.mp h), fun _ => hafter⟩
  · next haccepted =>
    have hprev : r.prevLogIndex ≤ n.log.length :=
      prevLogIndex_le (Option.not_isSome_iff_eq_none.mp (not_or.mp haccepted).2)
    have hlog' : (n.accept r).log = splice LogEntry.term n.log r.prevLogIndex r.entries :=
      foldl_appendOne_eq_splice n.log r.prevLogIndex r.entries hentries
    have hnumbered : Numbered (splice LogEntry.term n.log r.prevLogIndex r.entries) :=
      forall_splice (P := fun i (e : LogEntry) => e.index = i + 1) hprev hlog hentries
    rw [hafter.1, hlog']
    refine ⟨fun _ => ⟨?_, take_splice hprev, hnumbered⟩, fun hfailed => ?_⟩
    · intro j e he
      have hterm : (splice LogEntry.term n.log r.prevLogIndex r.entries)[r.prevLogIndex
          + j]?.map LogEntry.term = some e.term := map_key_splice hprev he
      obtain ⟨e', he', hterm⟩ := Option.map_eq_some_iff.mp hterm
      refine ⟨e', he', hterm, ?_⟩
      rw [hnumbered _ e' he', hentries j e he]
    · rw [hsuccess.mpr haccepted] at hfailed
      cases hfailed

end RaftNode

private theorem numbered_two {a b : LogEntry} (ha : a.index = 1) (hb : b.index = 2) :
    Numbered [a, b] := by
  intro i e he
  match i with
  | 0 => cases he; exact ha
  | 1 => cases he; exact hb
  | _ + 2 => cases he

/-- The stale entry gives way to the leader's, and one more entry follows it. -/
theorem handleAppendEntries_installs_staleFollower :
    let n' := (staleFollower.handleAppendEntries
      { sliceAfterOne 1 with entries := [⟨2, 2, .put [1] [2]⟩, ⟨2, 3, .noOp⟩] }).2
    (∃ e, n'.log[1]? = some e ∧ e.term = 2 ∧ e.index = 2) ∧ Numbered n'.log := by
  have hinstalls := RaftNode.handleAppendEntries_installs
    (n := staleFollower)
    (r := { sliceAfterOne 1 with entries := [⟨2, 2, .put [1] [2]⟩, ⟨2, 3, .noOp⟩] })
    (numbered_two rfl rfl) (by
      intro j e he
      match j with
      | 0 | 1 => cases he; rfl
      | _ + 2 => cases he)
  obtain ⟨hentries, -, hnumbered⟩ := hinstalls.1 (by decide)
  exact ⟨hentries 0 _ rfl, hnumbered⟩

/-! ## Applying to a store that fails -/

section Failures

variable [CidCrate]

/-- What a command does to the blocks of the store; one whose identifier cannot be read is
skipped. -/
def Command.effect (m : Content) : Command → Content
  | .put cidBytes data =>
    match CidCrate.tryFrom cidBytes with
    | .ok cid => Function.update m cid (some data)
    | .error _ => m
  | .delete cidBytes =>
    match CidCrate.tryFrom cidBytes with
    | .ok cid => Function.update m cid none
    | .error _ => m
  | .noOp => m

/-- The command makes a call of the store. -/
def Command.callsStore : Command → Bool
  | .put cidBytes _ => (CidCrate.tryFrom cidBytes).toOption.isSome
  | .delete cidBytes => (CidCrate.tryFrom cidBytes).toOption.isSome
  | .noOp => false

/-- Nothing is left to do for the command: the block of a put is there with its data, that
of a delete is not. -/
def Command.Done (m : Content) (c : Command) : Prop := c.effect m = m

/-- The blocks of the store, with the answers its next calls give: an error, or `none` for
success. Past the answers all calls succeed. -/
abbrev AnsweringStore (ε : Type) := Content × List (Option ε)

/-- A command on the store; a failed call leaves the blocks as they are. -/
def Command.exec {ε : Type} (store : AnsweringStore ε) (c : Command) :
    Except ε (AnsweringStore ε) :=
  if c.callsStore then
    match store.2 with
    | some e :: _ => .error e
    | answers => .ok (c.effect store.1, answers.tail)
  else .ok store

/-- One call of `apply_committed_entries` in which the store gives these answers. -/
def applyCall {ε : Type} (s : RaftNode × Content) (answers : List (Option ε)) :
    RaftNode × Content :=
  let applied := s.1.applyCommittedEntries Command.exec (s.2, answers)
  (applied.2.1, applied.2.2.1.1)

/-- The commands of these entries applied in order. -/
def replayLog (m : Content) (entries : List LogEntry) : Content :=
  entries.foldl (fun m e => e.command.effect m) m

/-- The store is the result of the entries up to `last_applied`. -/
def Replayed (start : Content) (s : RaftNode × Content) : Prop :=
  s.2 = replayLog start (s.1.log.take s.1.lastApplied)

/-- So it is after every call of the run. -/
def ReplayedThroughout {ε : Type} (start : Content) :
    RaftNode × Content → List (List (Option ε)) → Prop
  | _, [] => True
  | s, answers :: rest =>
    Replayed start (applyCall s answers) ∧ ReplayedThroughout start (applyCall s answers) rest

/-- The commands that make calls of the store, of the entries to be applied. -/
def storeCalls (entries : List LogEntry) : List Command :=
  (entries.map LogEntry.command).filter Command.callsStore

/-- The call of the store that fails first, if any, is for a command with nothing left to
do. -/
def FailsHarmlessly {ε : Type} (m : Content) (entries : List LogEntry)
    (answers : List (Option ε)) : Prop :=
  ∀ j c, answers.findIdx? Option.isSome = some j → (storeCalls entries)[j]? = some c →
    c.Done (((storeCalls entries).take j).foldl Command.effect m)

/-- Every call of the run meets no failure, or a harmless one. -/
def HarmlessThroughout {ε : Type} :
    RaftNode × Content → List (List (Option ε)) → Prop
  | _, [] => True
  | s, answers :: rest =>
    FailsHarmlessly s.2 ((s.1.log.take s.1.commitIndex).drop s.1.lastApplied) answers
      ∧ HarmlessThroughout (applyCall s answers) rest

variable {ε : Type} {start m : Content}

theorem Command.effect_of_not_callsStore {c : Command} (h : c.callsStore = false) (m : Content) :
    c.effect m = m := by
  cases c with
  | put cidBytes data | delete cidBytes =>
    simp only [callsStore] at h
    simp only [effect]
    cases hread : CidCrate.tryFrom cidBytes with
    | ok cid => simp [hread, Except.toOption] at h
    | error e => rfl
  | noOp => rfl

theorem replayLog_concat (m : Content) (entries : List LogEntry) (e : LogEntry) :
    replayLog m (entries ++ [e]) = e.command.effect (replayLog m entries) := by
  simp [replayLog]

variable {e : LogEntry} {entries : List LogEntry} {answers : List (Option ε)}

/-- One more entry applied. -/
theorem Replayed.succ {n : RaftNode} (h : Replayed start (n, m))
    (he : n.log[n.lastApplied]? = some e) (m' : Content) :
    Replayed start ({ n with lastApplied := n.lastApplied + 1 }, m')
      ↔ m' = e.command.effect m := by
  obtain ⟨hlt, hget⟩ := List.getElem?_eq_some_iff.mp he
  unfold Replayed at h ⊢
  dsimp only at h ⊢
  rw [List.take_succ_eq_append_getElem hlt, hget, replayLog_concat, ← h]

theorem storeCalls_cons (e : LogEntry) (entries : List LogEntry) : storeCalls (e :: entries)
      = if e.command.callsStore then e.command :: storeCalls entries else storeCalls entries := by
  rw [storeCalls, List.map_cons, List.filter_cons]
  rfl

theorem failsHarmlessly_skip (h : e.command.callsStore = false) :
    FailsHarmlessly m (e :: entries) answers ↔ FailsHarmlessly m entries answers := by
  rw [FailsHarmlessly, FailsHarmlessly, storeCalls_cons, h]
  rfl

theorem failsHarmlessly_fail {error : ε} (h : e.command.callsStore = true) :
    FailsHarmlessly m (e :: entries) (some error :: answers) ↔ e.command.Done m := by
  rw [FailsHarmlessly, storeCalls_cons, if_pos h, List.findIdx?_cons, Option.isSome_some,
    if_pos rfl]
  constructor
  · intro hall
    exact hall 0 e.command rfl rfl
  · intro hdone j c hj hc
    cases hj
    cases hc
    exact hdone

/-- A call that succeeds moves on to the rest of the answers. -/
theorem failsHarmlessly_succeed (h : e.command.callsStore = true)
    (hfirst : ∀ error rest, answers ≠ some error :: rest) : FailsHarmlessly m (e :: entries) answers
      ↔ FailsHarmlessly (e.command.effect m) entries answers.tail := by
  cases answers with
  | nil => simp [FailsHarmlessly]
  | cons answer rest =>
    cases answer with
    | some error => exact absurd rfl (hfirst error rest)
    | none =>
      rw [FailsHarmlessly, FailsHarmlessly, storeCalls_cons, if_pos h, List.findIdx?_cons,
        Option.isSome_none, if_neg Bool.false_ne_true, List.tail_cons]
      constructor
      · intro hall j c hj hc
        exact hall (j + 1) c (by rw [hj]; rfl) hc
      · intro hall j c hj hc
        obtain ⟨k, hk, rfl⟩ := Option.map_eq_some_iff.mp hj
        exact hall k c hk hc

/-- The loop leaves the store with the entries up to `last_applied` exactly if its failing
call, if any, is harmless. -/
theorem applyLoop_replayed_iff (count : Nat) {n : RaftNode} (answers : List (Option ε))
    (h : Replayed start (n, m)) :
    let applied := RaftNode.applyLoop Command.exec count n (m, answers)
    Replayed start (applied.2.1, applied.2.2.1.1)
      ↔ FailsHarmlessly m ((n.log.drop n.lastApplied).take count) answers := by
  induction count generalizing n m answers with
  | zero =>
    refine iff_of_true h ?_
    intro j c _ hc
    simp [storeCalls] at hc
  | succ count ih =>
    rw [RaftNode.applyLoop]
    simp only [Nat.add_sub_cancel]
    cases hget : n.log[n.lastApplied]? with
    | none =>
      -- past the end of the log there is nothing more to replay
      have hlen := List.getElem?_eq_none_iff.mp hget
      have htake : n.log.take (n.lastApplied + 1) = n.log.take n.lastApplied := by
        rw [List.take_of_length_le hlen, List.take_of_length_le (by omega)]
      refine iff_of_true ?_ ?_
      · unfold Replayed at h ⊢
        dsimp only at h ⊢
        rw [htake, h]
      · intro j c _ hc
        simp [List.drop_of_length_le hlen, storeCalls] at hc
    | some e =>
      obtain ⟨hlt, he⟩ := List.getElem?_eq_some_iff.mp hget
      rw [List.drop_eq_getElem_cons hlt, he, List.take_succ_cons]
      dsimp only
      by_cases hcalls : e.command.callsStore = true
      · by_cases hfail : ∃ error rest, answers = some error :: rest
        · obtain ⟨error, rest, rfl⟩ := hfail
          rw [Command.exec, if_pos hcalls, failsHarmlessly_fail hcalls]
          exact (h.succ hget m).trans eq_comm
        · have hfirst : ∀ error rest, answers ≠ some error :: rest :=
            fun error rest heq => hfail ⟨error, rest, heq⟩
          have hexec : Command.exec (m, answers) e.command
              = .ok (e.command.effect m, answers.tail) := by
            rw [Command.exec, if_pos hcalls]
            split
            · next heq => exact absurd heq (hfirst _ _)
            · rfl
          rw [hexec, failsHarmlessly_succeed hcalls hfirst]
          exact ih answers.tail ((h.succ hget _).mpr rfl)
      · have hskip : e.command.callsStore = false := Bool.eq_false_iff.mpr hcalls
        rw [Command.exec, if_neg hcalls, failsHarmlessly_skip hskip]
        have hsame := e.command.effect_of_not_callsStore hskip m
        exact ih answers ((h.succ hget m).mpr hsame.symm)

/-- Repeated calls keep the store at what the log gives up to `last_applied`, exactly if
every failure they meet is harmless. -/
theorem replayedThroughout_iff {s : RaftNode × Content} {calls : List (List (Option ε))}
    (h : Replayed start s) : ReplayedThroughout start s calls ↔ HarmlessThroughout s calls := by
  induction calls generalizing s with
  | nil => exact Iff.rfl
  | cons answers rest ih =>
    have hcall : Replayed start (applyCall s answers)
        ↔ FailsHarmlessly s.2 ((s.1.log.take s.1.commitIndex).drop s.1.lastApplied) answers := by
      rw [List.drop_take]
      exact applyLoop_replayed_iff _ answers h
    rw [ReplayedThroughout, HarmlessThroughout, ← hcall]
    exact and_congr_right ih

end Failures

/-! ## A store that fails once -/

section OneFailure

open scoped CidFormat

/-- The identifier of the empty identity hash. -/
private def identityCid : Cid :=
  { version := .v1, codec := codecRaw
    hash := { code := 0, digest := [], size_le := Nat.zero_le 64 }
    v0_ok := fun h => by cases h }

private theorem tryFrom_identity : CidCrate.tryFrom [1, 0x55, 0, 0] = .ok identityCid := by decide

/-- A deletion and a put of one block, both committed. -/
private def twoCommitted : RaftNode :=
  { RaftNode.new ⟨1⟩ with
    commitIndex := 2
    log := [⟨1, 1, .delete [1, 0x55, 0, 0]⟩, ⟨1, 2, .put [1, 0x55, 0, 0] [7]⟩] }

/-- The deletion fails, of a block that is not there; the next call applies the put. -/
theorem replayedThroughout_iff_deletion :
    ReplayedThroughout (fun _ => none) (twoCommitted, fun _ => none) [[some ()], []] := by
  apply (replayedThroughout_iff (by rfl)).mpr
  refine ⟨?_, ?_, trivial⟩
  · intro j c hj hc
    cases hj
    cases hc
    simp [Command.Done, Command.effect, tryFrom_identity]
  · intro j c hj hc
    cases hj

/-- A put alone, whose store call fails: it is not retried by the next call. -/
theorem not_replayedThroughout_put :
    ¬ ReplayedThroughout (fun _ => none)
      ({ twoCommitted with commitIndex := 1, log := [⟨1, 1, .put [1, 0x55, 0, 0] [7]⟩] },
        fun _ => none) [[some ()], []] := by
  rintro ⟨-, hnext, -⟩
  have hblock := congrFun hnext identityCid
  revert hblock
  decide

end OneFailure

end Ipfrs.Storage.Raft
