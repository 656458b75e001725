/-
Ipfrs.Storage.Raft — one Raft node: its message handlers, the application of
committed entries, and the election timer.

The handlers hold the lock of the persistent state throughout, so each is one step.
The election timer writes the role, the term and the vote in three separate critical
sections, so each of these is a step of its own, and messages come between them.

Terms are 64-bit and wrap; log indices are positions and stay natural numbers. The
time of the last heartbeat is not modelled: the timer may fire whenever it is checked.
Peers, channels and the leader's replication state are read by none of these.
-/
import Mathlib.Data.List.Basic
import Mathlib.Algebra.Group.Nat.Defs

namespace Ipfrs.Storage.Raft

structure NodeId where
  id : UInt64
  deriving DecidableEq, Repr

abbrev Term := UInt64

inductive NodeState where
  | follower
  | candidate
  | leader
  deriving DecidableEq, Repr

inductive Command where
  | put (cidBytes data : List UInt8)
  | delete (cidBytes : List UInt8)
  | noOp
  deriving DecidableEq, Repr

structure LogEntry where
  term : Term
  index : Nat
  command : Command
  deriving DecidableEq, Repr

structure AppendEntriesRequest where
  term : Term
  leaderId : NodeId
  prevLogIndex : Nat
  prevLogTerm : Term
  entries : List LogEntry
  leaderCommit : Nat
  deriving DecidableEq, Repr

structure AppendEntriesResponse where
  term : Term
  success : Bool
  conflictIndex : Option Nat
  deriving DecidableEq, Repr

structure RequestVoteRequest where
  term : Term
  candidateId : NodeId
  lastLogIndex : Nat
  lastLogTerm : Term
  deriving DecidableEq, Repr

structure RequestVoteResponse where
  term : Term
  voteGranted : Bool
  deriving DecidableEq, Repr

structure RaftNode where
  id : NodeId
  state : NodeState
  currentTerm : Term
  votedFor : Option NodeId
  commitIndex : Nat
  lastApplied : Nat
  log : List LogEntry
  currentLeader : Option NodeId
  deriving DecidableEq, Repr

namespace RaftNode

def new (id : NodeId) : RaftNode :=
  { id, state := .follower, currentTerm := 0, votedFor := none, commitIndex := 0,
    lastApplied := 0, log := [], currentLeader := none }

/-- A message of a higher term starts that term with no vote cast. -/
def updateTerm (n : RaftNode) (term : Term) : RaftNode :=
  if term > n.currentTerm then
    { n with currentTerm := term, votedFor := none, state := .follower }
  else n

/-! ## Append entries -/

/-- The first index of the conflicting term, scanning back from the end of the log. -/
def conflictStart (log : List LogEntry) (term : Term) (index : Nat) : Nat :=
  ((log.reverse.takeWhile (fun e => e.term = term)).getLast?.map LogEntry.index).getD index

/-- `(entry.index.0 - 1) as usize`; the subtraction wraps at 0. -/
def position (e : LogEntry) : Nat := if e.index = 0 then 2 ^ 64 - 1 else e.index - 1

/-- One round of the appending loop: push past the end, skip an entry of equal term,
truncate and push at a conflict. -/
def appendOne (log : List LogEntry) (e : LogEntry) : List LogEntry :=
  match log[position e]? with
  | none => log ++ [e]
  | some old => if old.term ≠ e.term then log.take (position e) ++ [e] else log

/-- The conflict index of a refusal: the log does not hold the entry before the new
ones, with its term. -/
def refusal (n : RaftNode) (r : AppendEntriesRequest) : Option Nat :=
  if r.prevLogIndex > 0 then
    match n.log[r.prevLogIndex - 1]? with
    | none => some n.log.length
    | some prev =>
      if prev.term ≠ r.prevLogTerm then some (conflictStart n.log prev.term r.prevLogIndex)
      else none
  else none

/-- The new entries and the commit index, once the request is accepted. -/
def accept (n : RaftNode) (r : AppendEntriesRequest) : RaftNode :=
  let log := r.entries.foldl appendOne n.log
  { n with
    log
    commitIndex :=
      if r.leaderCommit > n.commitIndex then min r.leaderCommit log.length else n.commitIndex }

def handleAppendEntries (n : RaftNode) (r : AppendEntriesRequest) :
    AppendEntriesResponse × RaftNode :=
  if r.term < n.currentTerm then
    ({ term := n.currentTerm, success := false, conflictIndex := none }, n)
  else
    let n := { n.updateTerm r.term with currentLeader := some r.leaderId }
    match n.refusal r with
    | some conflictIndex =>
      ({ term := n.currentTerm, success := false, conflictIndex := some conflictIndex }, n)
    | none => ({ term := n.currentTerm, success := true, conflictIndex := none }, n.accept r)

/-! ## Votes -/

/-- The candidate's log is at least as up to date as this node's. -/
def logOk (n : RaftNode) (r : RequestVoteRequest) : Bool :=
  let lastLogTerm := (n.log.getLast?.map LogEntry.term).getD 0
  r.lastLogTerm > lastLogTerm
    ∨ (r.lastLogTerm = lastLogTerm ∧ r.lastLogIndex ≥ n.log.length)

def handleRequestVote (n : RaftNode) (r : RequestVoteRequest) : RequestVoteResponse × RaftNode :=
  if r.term < n.currentTerm then ({ term := n.currentTerm, voteGranted := false }, n)
  else
    let n := n.updateTerm r.term
    if (n.votedFor = none ∨ n.votedFor = some r.candidateId) ∧ n.logOk r = true then
      ({ term := n.currentTerm, voteGranted := true },
        { n with votedFor := some r.candidateId })
    else ({ term := n.currentTerm, voteGranted := false }, n)

/-! ## Applying committed entries -/

/-- Where `apply_committed_entries` stops: all done, an error of the store, or an
index outside the log (a panic). -/
inductive Stop (ε : Type) where
  | done
  | failed (error : ε)
  | outOfLog
  deriving DecidableEq, Repr

/-- The loop for `count` more entries, with the store's own commands as a parameter.
The entries handed to the store are returned with their indices. -/
def applyLoop {σ ε : Type} (exec : σ → Command → Except ε σ) :
    Nat → RaftNode → σ → Stop ε × RaftNode × σ × List (Nat × LogEntry)
  | 0, n, store => (.done, n, store, [])
  | count + 1, n, store =>
    let n := { n with lastApplied := n.lastApplied + 1 }
    match n.log[n.lastApplied - 1]? with
    | none => (.outOfLog, n, store, [])
    | some entry =>
      match exec store entry.command with
      | .error e => (.failed e, n, store, [(n.lastApplied, entry)])
      | .ok store =>
        let rest := applyLoop exec count n store
        (rest.1, rest.2.1, rest.2.2.1, (n.lastApplied, entry) :: rest.2.2.2)

def applyCommittedEntries {σ ε : Type} (exec : σ → Command → Except ε σ) (n : RaftNode)
    (store : σ) : Stop ε × RaftNode × σ × List (Nat × LogEntry) :=
  applyLoop exec (n.commitIndex - n.lastApplied) n store

end RaftNode

/-! ## The node with its election timer -/

/-- How far the timer is in an election. -/
inductive TimerPhase where
  /-- Asleep. -/
  | idle
  /-- It has seen a timeout and that the node is not the leader. -/
  | timedOut
  /-- It has written the role. -/
  | candidate
  /-- It has incremented the term. -/
  | incremented
  deriving DecidableEq, Repr

/-- A node, its timer, and the candidates it has supported so far with their terms. -/
structure Running where
  node : RaftNode
  timer : TimerPhase
  supports : List (Term × NodeId)
  deriving DecidableEq, Repr

inductive Event where
  | requestVote (r : RequestVoteRequest)
  | appendEntries (r : AppendEntriesRequest)
  /-- The timer wakes up and reads the role, a timeout after the last heartbeat. -/
  | timeout
  /-- `*state.write() = Candidate`. -/
  | writeState
  /-- `persistent.write().current_term.increment()`. -/
  | writeTerm
  /-- `persistent.write().voted_for = Some(id)`. -/
  | writeVote
  deriving DecidableEq, Repr

namespace Running

def new (id : NodeId) : Running := { node := RaftNode.new id, timer := .idle, supports := [] }

/-- One step; `none` where the timer is not at that point of its loop. -/
def step (s : Running) : Event → Option Running
  | .requestVote r =>
    let answer := s.node.handleRequestVote r
    some { s with
      node := answer.2
      supports :=
        if answer.1.voteGranted then (answer.2.currentTerm, r.candidateId) :: s.supports
        else s.supports }
  | .appendEntries r => some { s with node := (s.node.handleAppendEntries r).2 }
  | .timeout =>
    if s.timer = .idle ∧ s.node.state ≠ .leader then some { s with timer := .timedOut } else none
  | .writeState =>
    if s.timer = .timedOut then
      some { s with node := { s.node with state := .candidate }, timer := .candidate }
    else none
  | .writeTerm =>
    if s.timer = .candidate then
      some { s with
        node := { s.node with currentTerm := s.node.currentTerm + 1 }, timer := .incremented }
    else none
  | .writeVote =>
    if s.timer = .incremented then
      some { node := { s.node with votedFor := some s.node.id }, timer := .idle,
             supports := (s.node.currentTerm, s.node.id) :: s.supports }
    else none

end Running

/-! ## One candidate a term, and what the timer does to it

The recorded vote belongs to the current term: whoever the node supported in it is
`votedFor` (`VoteInv`). Message handlers keep that, since they raise the term and clear
the vote in one step. The timer raises the term first and records its own vote later,
so in between the recorded vote is that of an older term, and a vote granted then is
overwritten. A run in which no vote for another candidate is granted between the two
writes, and no increment wraps the term, is safe. -/

/-- The request is not of an older term, this node has no vote in its term for
another candidate, and the candidate's log is up to date. -/
def Grants (n : RaftNode) (r : RequestVoteRequest) : Prop :=
  n.currentTerm ≤ r.term
    ∧ (n.currentTerm < r.term ∨ n.votedFor = none ∨ n.votedFor = some r.candidateId)
    ∧ n.logOk r = true

instance (n : RaftNode) (r : RequestVoteRequest) : Decidable (Grants n r) :=
  inferInstanceAs (Decidable (_ ∧ _ ∧ _))

namespace RaftNode

variable {n : RaftNode}

theorem updateTerm_of_lt {term : Term} (h : n.currentTerm < term) :
    n.updateTerm term = { n with currentTerm := term, votedFor := none, state := .follower } :=
  if_pos h

theorem updateTerm_of_not_lt {term : Term} (h : ¬ n.currentTerm < term) : n.updateTerm term = n :=
  if_neg h

theorem logOk_updateTerm (term : Term) (r : RequestVoteRequest) :
    (n.updateTerm term).logOk r = n.logOk r := by
  unfold updateTerm
  split <;> rfl

/-- A granted request: the node is in its term and has recorded the candidate. -/
theorem handleRequestVote_of_grants {r : RequestVoteRequest} (h : Grants n r) :
    n.handleRequestVote r = ({ term := r.term, voteGranted := true },
      { n.updateTerm r.term with currentTerm := r.term, votedFor := some r.candidateId }) := by
  obtain ⟨hle, hvote, hlog⟩ := h
  rw [handleRequestVote, if_neg (UInt64.not_lt.mpr hle)]
  dsimp only
  by_cases hlt : n.currentTerm < r.term
  · rw [logOk_updateTerm, updateTerm_of_lt hlt, if_pos ⟨.inl rfl, hlog⟩]
  · have heq : n.currentTerm = r.term := UInt64.le_antisymm hle (UInt64.not_lt.mp hlt)
    rw [logOk_updateTerm, updateTerm_of_not_lt hlt, if_pos ⟨hvote.resolve_left hlt, hlog⟩, heq]

/-- A refused request: the node has at most moved to its term. -/
theorem handleRequestVote_of_not_grants {r : RequestVoteRequest} (h : ¬ Grants n r) :
    (n.handleRequestVote r).1.voteGranted = false
      ∧ (n.handleRequestVote r).2 = n.updateTerm r.term := by
  rw [handleRequestVote]
  split
  · next hlt =>
    have hnot : ¬ n.currentTerm < r.term := UInt64.not_lt.mpr (UInt64.le_of_lt hlt)
    exact ⟨rfl, (updateTerm_of_not_lt hnot).symm⟩
  · next hnot =>
    dsimp only
    split
    · next hgrant =>
      rw [logOk_updateTerm] at hgrant
      refine absurd ⟨UInt64.not_lt.mp hnot, ?_, hgrant.2⟩ h
      by_cases hlt : n.currentTerm < r.term
      · exact .inl hlt
      · rw [updateTerm_of_not_lt hlt] at hgrant
        exact .inr hgrant.1
    · exact ⟨rfl, rfl⟩

/-- Of the persistent state, appending entries changes what `updateTerm` changes. -/
theorem handleAppendEntries_votes (n : RaftNode) (r : AppendEntriesRequest) :
    (n.handleAppendEntries r).2.currentTerm = (n.updateTerm r.term).currentTerm
      ∧ (n.handleAppendEntries r).2.votedFor = (n.updateTerm r.term).votedFor
      ∧ (n.handleAppendEntries r).2.id = (n.updateTerm r.term).id := by
  unfold handleAppendEntries
  split
  · next hlt =>
    have hnot : ¬ n.currentTerm < r.term := UInt64.not_lt.mpr (UInt64.le_of_lt hlt)
    rw [updateTerm_of_not_lt hnot]
    simp
  · dsimp only
    split <;> simp [accept]

end RaftNode

/-! ## Runs -/

/-- The states reached by steps that each meet `P`. -/
inductive Reaches (P : Running → Event → Prop) : Running → Running → Prop where
  | refl (s : Running) : Reaches P s s
  | tail {s s' s'' : Running} {e : Event} (h : Reaches P s s') (hP : P s' e)
      (hstep : s'.step e = some s'') : Reaches P s s''

/-- No increment wraps the term, and between the timer's increment and its vote no
vote for another candidate is granted. -/
def KeepsVote (s : Running) : Event → Prop
  | .requestVote r => s.timer = .incremented → Grants s.node r → r.candidateId = s.node.id
  | .appendEntries _ => True
  | .timeout => True
  | .writeState => True
  | .writeTerm => s.node.currentTerm.toNat + 1 < 2 ^ 64
  | .writeVote => True

/-- Nobody else has been supported in the same term. -/
def OneCandidate (s : Running) : Prop :=
  ∀ t x y, (t, x) ∈ s.supports → (t, y) ∈ s.supports → x = y

/-- The recorded vote is the one of the current term; while the timer is between its
two writes, only the node itself has been supported in that term. -/
structure VoteInv (s : Running) : Prop where
  past : ∀ t x, (t, x) ∈ s.supports → t ≤ s.node.currentTerm
  recorded : s.timer ≠ .incremented → ∀ x, (s.node.currentTerm, x) ∈ s.supports →
    s.node.votedFor = some x
  own : s.timer = .incremented → ∀ x, (s.node.currentTerm, x) ∈ s.supports → x = s.node.id
  unique : OneCandidate s

namespace VoteInv

variable {s : Running}

theorem new (id : NodeId) : VoteInv (Running.new id) where
  past := by simp [Running.new]
  recorded := by simp [Running.new]
  own := by simp [Running.new]
  unique := by simp [OneCandidate, Running.new]

/-- A node with the term and the vote that `updateTerm` leaves. -/
theorem updateTerm (h : VoteInv s) (term : Term) {n : RaftNode}
    (hterm : n.currentTerm = (s.node.updateTerm term).currentTerm)
    (hvote : n.votedFor = (s.node.updateTerm term).votedFor)
    (hid : n.id = (s.node.updateTerm term).id) : VoteInv { s with node := n } := by
  by_cases hlt : s.node.currentTerm < term
  · rw [RaftNode.updateTerm_of_lt hlt] at hterm hvote hid
    have hnone : ∀ x, (n.currentTerm, x) ∉ s.supports := by
      intro x hx
      rw [hterm] at hx
      exact UInt64.not_le.mpr hlt (h.past term x hx)
    exact {
      past := fun t x hx => by
        rw [hterm]
        exact UInt64.le_of_lt (UInt64.lt_of_le_of_lt (h.past t x hx) hlt)
      recorded := fun _ x hx => absurd hx (hnone x)
      own := fun _ x hx => absurd hx (hnone x)
      unique := h.unique }
  · rw [RaftNode.updateTerm_of_not_lt hlt] at hterm hvote hid
    exact {
      past := fun t x hx => hterm ▸ h.past t x hx
      recorded := fun ht x hx => hvote ▸ h.recorded ht x (hterm ▸ hx)
      own := fun ht x hx => hid ▸ h.own ht x (hterm ▸ hx)
      unique := h.unique }

/-- Supporting a candidate in the current term, when nobody else was supported in it. -/
theorem support (h : VoteInv s) {n : RaftNode} {x : NodeId} {timer : TimerPhase}
    (hle : s.node.currentTerm ≤ n.currentTerm)
    (hfree : ∀ y, (n.currentTerm, y) ∈ s.supports → y = x)
    (hvote : n.votedFor = some x) (hown : timer = .incremented → x = n.id) :
    VoteInv { node := n, timer := timer, supports := (n.currentTerm, x) :: s.supports } := by
  have hsame : ∀ y, (n.currentTerm, y) ∈ (n.currentTerm, x) :: s.supports → y = x := by
    intro y hy
    rcases List.mem_cons.mp hy with heq | hy
    · exact (Prod.mk.inj heq).2
    · exact hfree y hy
  constructor
  · intro t y hy
    rcases List.mem_cons.mp hy with heq | hy
    · rw [(Prod.mk.inj heq).1]
      exact UInt64.le_refl _
    · exact UInt64.le_trans (h.past t y hy) hle
  · intro _ y hy
    rw [hsame y hy]
    exact hvote
  · intro ht y hy
    rw [hsame y hy]
    exact hown ht
  · intro t y z hy hz
    by_cases ht : t = n.currentTerm
    · subst ht
      rw [hsame y hy, hsame z hz]
    · have hrest : ∀ w, (t, w) ∈ (n.currentTerm, x) :: s.supports → (t, w) ∈ s.supports := by
        intro w hw
        exact (List.mem_cons.mp hw).resolve_left (fun heq => ht (Prod.mk.inj heq).1)
      exact h.unique t y z (hrest y hy) (hrest z hz)

/-- Who was supported in the term of a request that is granted outside the timer's
critical stretch. -/
theorem eq_of_grants (h : VoteInv s) (ht : s.timer ≠ .incremented) {r : RequestVoteRequest}
    (hg : Grants s.node r) {y : NodeId} (hy : (r.term, y) ∈ s.supports) : y = r.candidateId := by
  obtain ⟨hle, hvote, -⟩ := hg
  have heq : s.node.currentTerm = r.term := UInt64.le_antisymm hle (h.past _ _ hy)
  have hrec := h.recorded ht y (heq ▸ hy)
  rcases hvote with hlt | hnone | hsome
  · rw [heq] at hlt
    exact absurd hlt (UInt64.lt_irrefl _)
  · rw [hrec] at hnone
    cases hnone
  · rw [hrec] at hsome
    exact Option.some.inj hsome

theorem requestVote (h : VoteInv s) {r : RequestVoteRequest}
    (hk : KeepsVote s (.requestVote r)) {s' : Running}
    (hstep : s.step (.requestVote r) = some s') : VoteInv s' := by
  simp only [Running.step, Option.some.injEq] at hstep
  subst hstep
  by_cases hg : Grants s.node r
  · rw [RaftNode.handleRequestVote_of_grants hg]
    have hfree : ∀ y, (r.term, y) ∈ s.supports → y = r.candidateId := by
      intro y hy
      by_cases ht : s.timer = .incremented
      · have heq : s.node.currentTerm = r.term := UInt64.le_antisymm hg.1 (h.past _ _ hy)
        rw [hk ht hg]
        exact h.own ht y (heq ▸ hy)
      · exact h.eq_of_grants ht hg hy
    have hid : (s.node.updateTerm r.term).id = s.node.id := by
      unfold RaftNode.updateTerm
      split <;> rfl
    exact h.support hg.1 hfree rfl (fun ht => (hk ht hg).trans hid.symm)
  · obtain ⟨hresp, hnode⟩ := RaftNode.handleRequestVote_of_not_grants hg
    rw [hresp, hnode]
    exact h.updateTerm r.term rfl rfl rfl

theorem toNat_add_one {t : Term} (ht : t.toNat + 1 < 2 ^ 64) : (t + 1).toNat = t.toNat + 1 := by
  rw [UInt64.toNat_add]
  exact Nat.mod_eq_of_lt ht

theorem lt_add_one {t : Term} (ht : t.toNat + 1 < 2 ^ 64) : t < t + 1 := by
  rw [UInt64.lt_iff_toNat_lt, toNat_add_one ht]
  exact Nat.lt_succ_self _

/-- The invariant survives every step that meets the condition. -/
theorem step (h : VoteInv s) {e : Event} (hk : KeepsVote s e) {s' : Running}
    (hstep : s.step e = some s') : VoteInv s' := by
  cases e with
  | requestVote r => exact h.requestVote hk hstep
  | appendEntries r =>
    simp only [Running.step, Option.some.injEq] at hstep
    subst hstep
    obtain ⟨hterm, hvote, hid⟩ := s.node.handleAppendEntries_votes r
    exact h.updateTerm r.term hterm hvote hid
  | timeout =>
    simp only [Running.step] at hstep
    split at hstep
    · next hidle =>
      cases hstep
      have ht : s.timer ≠ .incremented := by simp [hidle.1]
      exact ⟨h.past, fun _ => h.recorded ht, by simp, h.unique⟩
    · cases hstep
  | writeState =>
    simp only [Running.step] at hstep
    split at hstep
    · next htimer =>
      cases hstep
      have ht : s.timer ≠ .incremented := by simp [htimer]
      exact ⟨h.past, fun _ => h.recorded ht, by simp, h.unique⟩
    · cases hstep
  | writeTerm =>
    simp only [Running.step] at hstep
    split at hstep
    · cases hstep
      have hlt : s.node.currentTerm < s.node.currentTerm + 1 := lt_add_one hk
      have hnone : ∀ x, (s.node.currentTerm + 1, x) ∉ s.supports :=
        fun x hx => UInt64.not_le.mpr hlt (h.past _ x hx)
      exact ⟨fun t x hx => UInt64.le_trans (h.past t x hx) (UInt64.le_of_lt hlt),
        fun _ x hx => absurd hx (hnone x), fun _ x hx => absurd hx (hnone x), h.unique⟩
    · cases hstep
  | writeVote =>
    simp only [Running.step] at hstep
    split at hstep
    · next htimer =>
      cases hstep
      have hidle : TimerPhase.idle = .incremented → s.node.id = s.node.id := fun _ => rfl
      exact h.support (n := { s.node with votedFor := some s.node.id })
        (UInt64.le_refl _) (h.own htimer) rfl hidle
    · cases hstep

theorem reaches {s' : Running} (hrun : Reaches KeepsVote s s') (h : VoteInv s) : VoteInv s' := by
  induction hrun with
  | refl => exact h
  | tail _ hk hstep ih => exact ih.step hk hstep

end VoteInv

/-! ## Terms -/

theorem currentTerm_le_updateTerm (n : RaftNode) (term : Term) :
    n.currentTerm ≤ (n.updateTerm term).currentTerm := by
  unfold RaftNode.updateTerm
  split
  · next h => exact UInt64.le_of_lt h
  · exact UInt64.le_refl _

theorem currentTerm_le_step {s s' : Running} {e : Event} (hk : KeepsVote s e)
    (hstep : s.step e = some s') : s.node.currentTerm ≤ s'.node.currentTerm := by
  cases e with
  | requestVote r =>
    simp only [Running.step, Option.some.injEq] at hstep
    subst hstep
    by_cases hg : Grants s.node r
    · rw [RaftNode.handleRequestVote_of_grants hg]
      exact hg.1
    · rw [(RaftNode.handleRequestVote_of_not_grants hg).2]
      exact currentTerm_le_updateTerm ..
  | appendEntries r =>
    simp only [Running.step, Option.some.injEq] at hstep
    subst hstep
    rw [(s.node.handleAppendEntries_votes r).1]
    exact currentTerm_le_updateTerm ..
  | timeout | writeState | writeVote =>
    simp only [Running.step] at hstep
    split at hstep <;> cases hstep
    exact UInt64.le_refl _
  | writeTerm =>
    simp only [Running.step] at hstep
    split at hstep <;> cases hstep
    exact UInt64.le_of_lt (VoteInv.lt_add_one hk)

theorem currentTerm_le_reaches {s s' : Running} (hrun : Reaches KeepsVote s s') :
    s.node.currentTerm ≤ s'.node.currentTerm := by
  induction hrun with
  | refl => exact UInt64.le_refl _
  | tail _ hk hstep ih => exact UInt64.le_trans ih (currentTerm_le_step hk hstep)

/-! ## Vote safety -/

/-- In a run whose steps keep the vote, the term never decreases and no two candidates
are supported in one term. -/
theorem votes_safe (id : NodeId) {s s' : Running} (hrun : Reaches KeepsVote (Running.new id) s)
    (hrest : Reaches KeepsVote s s') : s.node.currentTerm ≤ s'.node.currentTerm ∧ OneCandidate s' :=
  ⟨currentTerm_le_reaches hrest, ((VoteInv.new id).reaches hrun |>.reaches hrest).unique⟩

/-- A request of node 3 in term 1, with an empty log. -/
private def requestOfThree : RequestVoteRequest :=
  { term := 1, candidateId := ⟨3⟩, lastLogIndex := 0, lastLogTerm := 0 }

private theorem step_run {P : Running → Event → Prop} {s s' : Running} (e : Event)
    (hrun : Reaches P s s') (hP : P s' e) (hsome : (s'.step e).isSome = true) :
    Reaches P s ((s'.step e).get hsome) :=
  hrun.tail hP (Option.some_get hsome).symm

/-- The request comes before the increment, and once more after the timer's vote: node 1
supports node 3 in term 1 and itself in term 2. -/
theorem votes_safe_request_before_increment : ∃ s, s.supports = [(2, ⟨1⟩), (1, ⟨3⟩)]
      ∧ (Running.new ⟨1⟩).node.currentTerm ≤ s.node.currentTerm ∧ OneCandidate s := by
  have hidle : Reaches KeepsVote (Running.new ⟨1⟩) (Running.new ⟨1⟩) := .refl _
  have htimeout := step_run .timeout hidle trivial rfl
  have hstate := step_run .writeState htimeout trivial rfl
  have hvote := step_run (.requestVote requestOfThree) hstate
    (fun ht => absurd ht (by decide)) rfl
  have hterm := step_run .writeTerm hvote (by unfold KeepsVote; decide) rfl
  have hown := step_run .writeVote hterm trivial rfl
  have hagain := step_run (.requestVote requestOfThree) hown (fun ht => absurd ht (by decide)) rfl
  exact ⟨_, by decide, votes_safe ⟨1⟩ hidle hagain⟩

/-- The request comes between the increment and the vote: node 1 supports node 3 and
itself in term 1. -/
theorem not_oneCandidate_request_between :
    ∃ s, Reaches (fun _ _ => True) (Running.new ⟨1⟩) s ∧ ¬ OneCandidate s := by
  have hidle : Reaches (fun _ _ => True) (Running.new ⟨1⟩) (Running.new ⟨1⟩) := .refl _
  have htimeout := step_run .timeout hidle trivial rfl
  have hstate := step_run .writeState htimeout trivial rfl
  have hterm := step_run .writeTerm hstate trivial rfl
  have hvote := step_run (.requestVote requestOfThree) hterm trivial rfl
  have hown := step_run .writeVote hvote trivial rfl
  refine ⟨_, hown, fun hone => ?_⟩
  exact absurd (hone 1 ⟨1⟩ ⟨3⟩ (by decide) (by decide)) (by decide)

end Ipfrs.Storage.Raft
