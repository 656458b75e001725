/-
Ipfrs.Transport.SessionLocks — the locks that the calls of a session take.

A session has its state and its statistics behind a lock each. Here the calls are written
with their guards: a guard in an expression is dropped at the end of its statement, one in
a `let` at the end of its block. A call without its guards is `Session.perform`, where a
call that blocks is one that does not return (`perform_locked`).

`mark_received` leaves the block with the guard of the statistics before it completes the
session; `mark_failed` does not, and the event of the completion reads the statistics.
-/
import Ipfrs.Lib.Interleaving
import Ipfrs.Transport.Session

namespace Ipfrs.Transport

open Ipfrs.Core Ipfrs.Lib

/-- The two `RwLock`s of a session. -/
inductive SessionLock
  | state
  | stats
  deriving DecidableEq

abbrev LockedSession := Locking SessionLock Session

namespace LockedSession

open Locking

/-- `Session::state`. -/
def state : LockedSession SessionState :=
  withLock .state .read do
    let s ← read
    pure s.state

/-- `self.stats.read().clone()`. -/
def stats : LockedSession SessionStats :=
  withLock .stats .read do
    let s ← read
    pure s.stats

/-- An event on the channel, if there is one; what it carries is evaluated only then. -/
def sendEvent (event : LockedSession SessionEvent) : LockedSession Unit := do
  let s ← read
  if s.events.isSome then
    let event ← event
    update (Session.send event)

def transitionState (newState : SessionState) : LockedSession Unit := do
  withLock .state .write (update fun s => { s with state := newState })
  if newState = .completed then
    sendEvent do
      let s ← read
      let stats ← stats
      pure (.completed s.id stats)

def addBlock (cid : Cid) (priority : Option Priority) :
    LockedSession (Except SessionError Unit) := do
  let s ← read
  let state ← state
  if state ≠ .active then pure (.error (.closed s.id))
  else
    let request := { cid, priority := priority.getD s.config.defaultPriority }
    update fun s => { s with blocks := s.blocks.insert cid request }
    withLock .stats .write
      (update fun s => { s with stats := { s.stats with totalBlocks := s.stats.totalBlocks + 1 } })
    pure (.ok ())

/-- `stats.is_complete() && self.state() == SessionState::Active`. -/
def shouldComplete : LockedSession Bool := do
  let s ← read
  if s.stats.isComplete then
    let state ← state
    pure (state = .active)
  else pure false

def completeIf (complete : Bool) : LockedSession Unit :=
  if complete then transitionState .completed else pure ()

/-- `BlockReceived`, and `Progress` if it is wanted. -/
def sendReceived (cid : Cid) (size : Nat) : LockedSession Unit := do
  let s ← read
  sendEvent (pure (.blockReceived s.id cid size))
  if s.config.progressNotifications then
    sendEvent do
      let stats ← stats
      pure (.progress s.id stats)

def markReceived (cid : Cid) (data : List UInt8) : LockedSession (Except SessionError Unit) := do
  let s ← read
  match s.blocks.lookup cid with
  | none => pure (.error (.blockNotInSession cid))
  | some block =>
    let block := { block with completed := true, size := some data.length }
    update fun s => { s with blocks := s.blocks.insert cid block }
    let complete ← withLock .stats .write do
      update fun s => { s with
        stats := { s.stats with
          blocksReceived := s.stats.blocksReceived + 1
          bytesTransferred := s.stats.bytesTransferred + data.length } }
      shouldComplete
    completeIf complete
    sendReceived cid data.length
    pure (.ok ())

def markFailed (cid : Cid) (error : String) : LockedSession (Except SessionError Unit) := do
  let s ← read
  match s.blocks.lookup cid with
  | none => pure (.error (.blockNotInSession cid))
  | some _ =>
    withLock .stats .write do
      update fun s => { s with
        stats := { s.stats with blocksFailed := s.stats.blocksFailed + 1 } }
      let complete ← shouldComplete
      completeIf complete
    let s ← read
    sendEvent (pure (.blockFailed s.id cid error))
    pure (.ok ())

def pause : LockedSession Unit := transitionState .paused

def resume : LockedSession Unit := transitionState .active

def cancel : LockedSession Unit := do
  transitionState .cancelled
  let s ← read
  sendEvent (pure (.cancelled s.id))

def perform : SessionCall → LockedSession (Except SessionError Unit)
  | .addBlock cid priority => addBlock cid priority
  | .markReceived cid data => markReceived cid data
  | .markFailed cid error => markFailed cid error
  | .pause => do
      pause
      pure (.ok ())
  | .resume => do
      resume
      pure (.ok ())
  | .cancel => do
      cancel
      pure (.ok ())

/-! ## What a call does -/

variable {held : List (SessionLock × Access)} {s : Session}

theorem state_run (h : held.lookup .state = none) : state ⟨held, s⟩ = .ok s.state ⟨held, s⟩ :=
  withLock_ok h rfl

theorem stats_run (h : held.lookup .stats = none) : stats ⟨held, s⟩ = .ok s.stats ⟨held, s⟩ :=
  withLock_ok h rfl

theorem stats_blocked {access : Access} (h : held.lookup .stats = some access) :
    stats ⟨held, s⟩ = .error { lock := .stats, held := access, wanted := .read } ⟨held, s⟩ :=
  withLock_held _ h

theorem send_without_channel {event : SessionEvent} (h : s.events = none) :
    Session.send event s = s := by
  cases s
  simp_all [Session.send]

theorem sendEvent_run {event : LockedSession SessionEvent} {e : SessionEvent}
    (h : event ⟨held, s⟩ = .ok e ⟨held, s⟩) :
    sendEvent event ⟨held, s⟩ = .ok () ⟨held, Session.send e s⟩ := by
  unfold sendEvent
  rw [run_bind_ok (read_run _)]
  cases hev : s.events with
  | none =>
    rw [send_without_channel hev]
    rfl
  | some events =>
    simp only [Option.isSome_some, if_true]
    rw [run_bind_ok h]
    rfl

theorem sendEvent_silent (event : LockedSession SessionEvent) (h : s.events = none) :
    sendEvent event ⟨held, s⟩ = .ok () ⟨held, s⟩ := by
  unfold sendEvent
  rw [run_bind_ok (read_run _)]
  simp only [h]
  rfl

theorem sendEvent_blocked {event : LockedSession SessionEvent} {b : Blocked SessionLock}
    (hev : s.events.isSome) (h : event ⟨held, s⟩ = .error b ⟨held, s⟩) :
    sendEvent event ⟨held, s⟩ = .error b ⟨held, s⟩ := by
  unfold sendEvent
  rw [run_bind_ok (read_run _)]
  simp only [hev, if_true]
  rw [run_bind_error h]

variable {newState : SessionState} {s' : Session} {answer : Except SessionError Unit}

/-- The state is written, and the event of a completion reads the statistics. -/
theorem transitionState_run (hstate : held.lookup .state = none)
    (h : Session.transitionState (held.lookup .stats).isSome newState s = some s') :
    transitionState newState ⟨held, s⟩ = .ok () ⟨held, s'⟩ := by
  have hwrite : withLock .state .write (update fun s => { s with state := newState }) ⟨held, s⟩
      = .ok () ⟨held, { s with state := newState }⟩ := withLock_ok hstate rfl
  unfold transitionState
  rw [run_bind_ok hwrite]
  simp only [Session.transitionState] at h
  split at h
  · next hdone =>
    rw [if_pos hdone]
    split at h
    · cases h
    · next hfree =>
      cases h
      cases hev : s.events with
      | none =>
        rw [send_without_channel rfl]
        exact sendEvent_silent _ rfl
      | some events =>
        have hstats : held.lookup .stats = none := by
          cases hl : held.lookup .stats with
          | none => rfl
          | some access => simp [hl, hev] at hfree
        refine sendEvent_run ?_
        rw [run_bind_ok (read_run _), run_bind_ok (stats_run hstats)]
        rfl
  · next hdone =>
    cases h
    rw [if_neg hdone]
    rfl

theorem transitionState_blocked {access : Access} (hstate : held.lookup .state = none)
    (hstats : held.lookup .stats = some access)
    (h : Session.transitionState true newState s = none) :
    transitionState newState ⟨held, s⟩
      = .error { lock := .stats, held := access, wanted := .read }
          ⟨held, { s with state := newState }⟩ := by
  have hwrite : withLock .state .write (update fun s => { s with state := newState }) ⟨held, s⟩
      = .ok () ⟨held, { s with state := newState }⟩ := withLock_ok hstate rfl
  unfold transitionState
  rw [run_bind_ok hwrite]
  simp only [Session.transitionState] at h
  split at h
  · next hdone =>
    rw [if_pos hdone]
    refine sendEvent_blocked ?_ ?_
    · by_contra hev
      simp [hev] at h
    · rw [run_bind_ok (read_run _), run_bind_error (stats_blocked hstats)]
  · cases h

theorem shouldComplete_run (hstate : held.lookup .state = none) :
    shouldComplete ⟨held, s⟩ = .ok (s.stats.isComplete && s.state = .active) ⟨held, s⟩ := by
  unfold shouldComplete
  rw [run_bind_ok (read_run _)]
  cases hdone : s.stats.isComplete with
  | true =>
    simp only [if_true]
    rw [run_bind_ok (state_run hstate)]
    rfl
  | false => rfl

theorem completeIf_run {complete : Bool} (hstate : held.lookup .state = none)
    (h : Session.completeIf complete (held.lookup .stats).isSome s = some s') :
    completeIf complete ⟨held, s⟩ = .ok () ⟨held, s'⟩ := by
  cases complete with
  | true => exact transitionState_run hstate h
  | false =>
    cases h
    rfl

theorem completeIf_blocked {complete : Bool} {access : Access}
    (hstate : held.lookup .state = none) (hstats : held.lookup .stats = some access)
    (h : Session.completeIf complete true s = none) :
    completeIf complete ⟨held, s⟩
      = .error { lock := .stats, held := access, wanted := .read }
          ⟨held, { s with state := .completed }⟩ := by
  cases complete with
  | true => exact transitionState_blocked hstate hstats h
  | false => cases h

theorem sendReceived_run (cid : Cid) (size : Nat) (hstats : held.lookup .stats = none) :
    sendReceived cid size ⟨held, s⟩ = .ok () ⟨held, Session.sendReceived cid size s⟩ := by
  unfold sendReceived Session.sendReceived
  rw [run_bind_ok (read_run _), run_bind_ok (sendEvent_run (run_pure _ _))]
  have hconfig : ∀ e, (Session.send e s).config = s.config := fun _ => rfl
  by_cases hprogress : s.config.progressNotifications = true
  · dsimp only
    rw [hconfig, if_pos hprogress, if_pos hprogress]
    refine sendEvent_run ?_
    rw [run_bind_ok (stats_run hstats)]
    rfl
  · dsimp only
    rw [hconfig, if_neg hprogress, if_neg hprogress]
    rfl

theorem addBlock_run (cid : Cid) (priority : Option Priority) : addBlock cid priority ⟨[], s⟩
      = .ok (Session.addBlock cid priority s).1 ⟨[], (Session.addBlock cid priority s).2⟩ := by
  unfold addBlock Session.addBlock
  rw [run_bind_ok (read_run _), run_bind_ok (state_run rfl)]
  by_cases hactive : s.state = .active
  · rw [if_neg (not_not.mpr hactive), if_neg (not_not.mpr hactive)]
    rw [run_bind_ok (update_run _ _), run_bind_ok (withLock_ok rfl (update_run _ _))]
    rfl
  · rw [if_pos hactive, if_pos hactive]
    rfl

theorem markReceived_run {cid : Cid} {data : List UInt8}
    (h : Session.markReceived cid data s = some (answer, s')) :
    markReceived cid data ⟨[], s⟩ = .ok answer ⟨[], s'⟩ := by
  unfold markReceived
  rw [run_bind_ok (read_run _)]
  unfold Session.markReceived at h
  dsimp only
  split at h
  · next hcid =>
    cases h
    rw [hcid]
    rfl
  · next block hcid =>
    obtain ⟨s₁, hcomplete, h⟩ := Option.bind_eq_some_iff.mp h
    cases h
    rw [hcid]
    dsimp only
    rw [run_bind_ok (update_run _ _), run_bind_ok (withLock_ok rfl
      ((run_bind_ok (update_run _ _)).trans (shouldComplete_run rfl)))]
    rw [run_bind_ok (completeIf_run rfl hcomplete), run_bind_ok (sendReceived_run _ _ rfl)]
    rfl

theorem markFailed_run {cid : Cid} {error : String}
    (h : Session.markFailed cid error s = some (answer, s')) :
    markFailed cid error ⟨[], s⟩ = .ok answer ⟨[], s'⟩ := by
  unfold markFailed
  rw [run_bind_ok (read_run _)]
  unfold Session.markFailed at h
  dsimp only
  split at h
  · next hcid =>
    cases h
    rw [hcid]
    rfl
  · next block hcid =>
    obtain ⟨s₁, hcomplete, h⟩ := Option.bind_eq_some_iff.mp h
    cases h
    rw [hcid]
    dsimp only
    rw [run_bind_ok (withLock_ok rfl ((run_bind_ok (update_run _ _)).trans
      ((run_bind_ok (shouldComplete_run rfl)).trans (completeIf_run rfl hcomplete))))]
    rw [run_bind_ok (read_run _), run_bind_ok (sendEvent_run (run_pure _ _))]
    rfl

theorem markFailed_blocked {cid : Cid} {error : String}
    (h : Session.markFailed cid error s = none) : ∃ t, markFailed cid error ⟨[], s⟩
      = .error { lock := .stats, held := .write, wanted := .read } t := by
  unfold markFailed
  rw [run_bind_ok (read_run _)]
  unfold Session.markFailed at h
  dsimp only
  split at h
  · cases h
  · next block hcid =>
    rw [hcid]
    dsimp only
    have hcomplete := Option.bind_eq_none_iff.mp h
    have hnone := Option.eq_none_iff_forall_ne_some.mpr
      (fun s' hs' => Option.some_ne_none _ (hcomplete s' hs'))
    exact ⟨_, run_bind_error (withLock_blocked rfl ((run_bind_ok (update_run _ _)).trans
      ((run_bind_ok (shouldComplete_run rfl)).trans (completeIf_blocked rfl rfl hnone))))⟩

/-- Without the guard of the statistics a completion returns. -/
theorem completeIf_returns (complete : Bool) (s : Session) :
    ∃ s', Session.completeIf complete false s = some s' := by
  cases complete with
  | true => exact ⟨_, rfl⟩
  | false => exact ⟨s, rfl⟩

theorem markReceived_returns (cid : Cid) (data : List UInt8) (s : Session) :
    Session.markReceived cid data s ≠ none := by
  intro h
  unfold Session.markReceived at h
  split at h
  · cases h
  · obtain ⟨s', hs'⟩ := completeIf_returns _ _
    cases Option.bind_eq_none_iff.mp h s' hs'

/-- A transition to a state that is not the end. -/
theorem transitionState_open (h : newState ≠ .completed) :
    transitionState newState ⟨[], s⟩ = .ok () ⟨[], { s with state := newState }⟩ :=
  transitionState_run rfl (by simp only [Session.transitionState, if_neg h])

theorem cancel_run : cancel ⟨[], s⟩
      = .ok () ⟨[], Session.send (.cancelled s.id) { s with state := .cancelled }⟩ := by
  unfold cancel
  rw [run_bind_ok (transitionState_open (by decide)), run_bind_ok (read_run _)]
  exact sendEvent_run (run_pure _ _)

/-- **A call with its locks is the call**, and where it does not return it asks for the
statistics while it is writing them. -/
theorem perform_locked (call : SessionCall) (s : Session) :
    (∀ answer s', s.perform call = some (answer, s') → perform call ⟨[], s⟩ = .ok answer ⟨[], s'⟩)
      ∧ (s.perform call = none → ∃ t, perform call ⟨[], s⟩
          = .error { lock := .stats, held := .write, wanted := .read } t) := by
  cases call with
  | addBlock cid priority =>
    refine ⟨fun answer s' h => ?_, fun h => by cases h⟩
    have hpair : Session.addBlock cid priority s = (answer, s') := Option.some.inj h
    have hrun := addBlock_run (s := s) cid priority
    rwa [hpair] at hrun
  | markReceived cid data =>
    exact ⟨fun answer s' h => markReceived_run h,
      fun h => absurd h (markReceived_returns cid data s)⟩
  | markFailed cid error => exact ⟨fun answer s' h => markFailed_run h, markFailed_blocked⟩
  | pause | resume =>
    refine ⟨fun answer s' h => ?_, fun h => by cases h⟩
    cases h
    exact run_bind_ok (transitionState_open (by decide))
  | cancel =>
    refine ⟨fun answer s' h => ?_, fun h => by cases h⟩
    cases h
    exact run_bind_ok cancel_run

/-! ## Runs -/

/-- The call runs to its end, and gives back every lock. -/
def Returns (s : Session) (call : SessionCall) : Prop :=
  ∃ answer s', perform call ⟨[], s⟩ = .ok answer ⟨[], s'⟩

/-- The call settles the last outstanding block of an active session as failed, and there
is a channel for the event of the completion. -/
def FailsLast (s : Session) : SessionCall → Prop
  | .markFailed cid _ =>
    s.events.isSome ∧ s.state = .active ∧ cid ∈ s.blocks
      ∧ s.stats.totalBlocks ≤ s.stats.blocksReceived + s.stats.blocksFailed + 1
  | _ => False

theorem completeIf_eq_none_iff {complete : Bool} {s : Session} :
    Session.completeIf complete true s = none ↔ complete = true ∧ s.events.isSome := by
  cases complete with
  | true => simp [Session.completeIf, Session.transitionState, Option.isSome_iff_ne_none]
  | false => simp [Session.completeIf]

theorem markFailed_eq_none_iff (cid : Cid) (error : String) (s : Session) :
    Session.markFailed cid error s = none ↔ FailsLast s (.markFailed cid error) := by
  unfold Session.markFailed FailsLast
  split
  · next hcid =>
    have hmem : cid ∉ s.blocks := AList.lookup_eq_none.mp hcid
    simp [hmem]
  · next block hcid =>
    have hmem : cid ∈ s.blocks := AList.lookup_isSome.mp (by rw [hcid]; rfl)
    have hbind : ∀ (o : Option Session) (f : Session → Except SessionError Unit × Session),
        (o >>= fun s => some (f s)) = none ↔ o = none := by
      intro o f
      cases o <;> simp
    dsimp only
    rw [hbind, completeIf_eq_none_iff]
    simp only [SessionStats.isComplete, Bool.and_eq_true, decide_eq_true_eq, hmem, true_and,
      Nat.add_assoc]
    tauto

theorem returns_iff (s : Session) (call : SessionCall) : Returns s call ↔ ¬ FailsLast s call := by
  have hlocked := perform_locked call s
  have hnone : s.perform call = none ↔ FailsLast s call := by
    cases call with
    | markFailed cid error => exact markFailed_eq_none_iff cid error s
    | markReceived cid data =>
      exact ⟨fun h => markReceived_returns cid data s h, fun h => h.elim⟩
    | _ => exact ⟨fun h => absurd h (Option.some_ne_none _), fun h => h.elim⟩
  rw [← hnone]
  constructor
  · rintro ⟨answer, s', hrun⟩ h
    obtain ⟨t, hblocked⟩ := hlocked.2 h
    rw [hrun] at hblocked
    cases hblocked
  · intro h
    obtain ⟨⟨answer, s'⟩, hs'⟩ := Option.ne_none_iff_exists'.mp h
    exact ⟨answer, s', hlocked.1 answer s' hs'⟩

/-- A call that runs to its end gives back what it took. -/
theorem gives_back {s : Session} {call : SessionCall} {t : Thread SessionLock Session}
    (h : perform call ⟨[], s⟩ = .ok answer t) : ∃ s', t = ⟨[], s'⟩ := by
  cases hs : s.perform call with
  | none =>
    obtain ⟨_, hblocked⟩ := (perform_locked call s).2 hs
    rw [h] at hblocked
    cases hblocked
  | some r =>
    have hrun := (perform_locked call s).1 r.1 r.2 hs
    rw [h] at hrun
    cases hrun
    exact ⟨r.2, rfl⟩

/-- One call after another. -/
def runCalls : List SessionCall → LockedSession Unit
  | [] => pure ()
  | call :: calls => do
      let _ ← perform call
      runCalls calls

theorem runCalls_return_iff : ∀ (calls : List SessionCall) (s : Session),
    (∃ s', runCalls calls ⟨[], s⟩ = .ok () ⟨[], s'⟩) ↔
      ∀ before call after s', calls = before ++ call :: after →
        runCalls before ⟨[], s⟩ = .ok () ⟨[], s'⟩ → ¬ FailsLast s' call
  | [], s => ⟨by simp, fun _ => ⟨s, rfl⟩⟩
  | call :: calls, s => by
    constructor
    · rintro ⟨last, hrun⟩ before call' after s' heq hbefore
      obtain ⟨answer, t, hcall, hrest⟩ := run_bind_eq_ok hrun
      obtain ⟨s₁, rfl⟩ := gives_back hcall
      cases before with
      | nil =>
        obtain ⟨rfl, rfl⟩ := List.cons.inj heq
        cases hbefore
        exact (returns_iff s call).mp ⟨answer, s₁, hcall⟩
      | cons first before =>
        obtain ⟨rfl, rfl⟩ := List.cons.inj heq
        rw [runCalls, run_bind_ok hcall] at hbefore
        exact (runCalls_return_iff _ s₁).mp ⟨last, hrest⟩ before call' after s' rfl hbefore
    · intro h
      have hfirst := h [] call calls s rfl rfl
      obtain ⟨answer, s₁, hcall⟩ := (returns_iff s call).mpr hfirst
      obtain ⟨last, hlast⟩ := (runCalls_return_iff calls s₁).mpr
        (fun before call' after s' heq hbefore => by
          refine h (call :: before) call' after s' (by rw [heq]; rfl) ?_
          rw [runCalls, run_bind_ok hcall, hbefore])
      exact ⟨last, by rw [runCalls, run_bind_ok hcall, hlast]⟩

/-- **When the calls of a session block**: a call runs to its end exactly if it does not
settle the last block as failed with a channel attached, and so does every run. -/
theorem calls_return_iff (s : Session) (call : SessionCall) (id : SessionId)
    (config : SessionConfig) (channel : Bool) (calls : List SessionCall) :
    (Returns s call ↔ ¬ FailsLast s call) ∧
      ((∃ s', runCalls calls ⟨[], Session.new id config channel⟩ = .ok () ⟨[], s'⟩) ↔
        ∀ before call after s, calls = before ++ call :: after →
          runCalls before ⟨[], Session.new id config channel⟩ = .ok () ⟨[], s⟩ →
          ¬ FailsLast s call) :=
  ⟨returns_iff s call, runCalls_return_iff calls (Session.new id config channel)⟩

open History.Sample in
/-- One block is added and fails: with a channel the second call never returns. -/
theorem not_calls_return :
    ¬ ∀ (id : SessionId) (config : SessionConfig) (channel : Bool) (calls : List SessionCall),
        ∃ s', runCalls calls ⟨[], Session.new id config channel⟩ = .ok () ⟨[], s'⟩ := by
  intro h
  have hrun := h 1 {} true [.addBlock first none, .markFailed first "timeout"]
  refine (runCalls_return_iff _ _).mp hrun [.addBlock first none] _ [] _ rfl rfl ?_
  exact ⟨rfl, rfl, (AList.mem_insert _).mpr (.inl rfl), Nat.le_refl _⟩

end LockedSession

end Ipfrs.Transport
