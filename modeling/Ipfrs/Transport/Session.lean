/-
Ipfrs.Transport.Session — a session of block requests (`session.rs`).

Whether a session is complete is decided by counters: one for the blocks added, one for
those received and one for those failed. `pause`, `resume` and `cancel` set the state
whatever it was.

`mark_failed` completes a session while it holds the lock of the statistics, which the
event of the completion reads: with an event channel that call never returns (`none`).
Times, and what depends on them, are left out.
-/
import Ipfrs.Core.Cid
import Mathlib.Data.List.AList
import Mathlib.Data.List.Perm.Subperm

namespace Ipfrs.Transport

open Ipfrs.Core

abbrev SessionId := UInt64

/-- `BlockNotInSession` carries the identifier where the source carries its text. -/
inductive SessionError
  | closed (id : SessionId)
  | blockNotInSession (cid : Cid)
  deriving DecidableEq

inductive SessionState
  | active
  | paused
  | completing
  | completed
  | cancelled
  deriving DecidableEq

/-- `Priority` of `want_list.rs`. -/
inductive Priority
  | low
  | normal
  | high
  | urgent
  | critical
  deriving DecidableEq

structure SessionConfig where
  defaultPriority : Priority := .normal
  progressNotifications : Bool := true
  deriving DecidableEq

structure SessionStats where
  totalBlocks : Nat := 0
  blocksReceived : Nat := 0
  blocksFailed : Nat := 0
  bytesTransferred : Nat := 0
  deriving DecidableEq

def SessionStats.isComplete (stats : SessionStats) : Bool :=
  stats.totalBlocks ≤ stats.blocksReceived + stats.blocksFailed

structure BlockRequest where
  cid : Cid
  priority : Priority
  completed : Bool := false
  size : Option Nat := none
  deriving DecidableEq

inductive SessionEvent
  | started (id : SessionId)
  | blockReceived (id : SessionId) (cid : Cid) (size : Nat)
  | blockFailed (id : SessionId) (cid : Cid) (error : String)
  | progress (id : SessionId) (stats : SessionStats)
  | completed (id : SessionId) (stats : SessionStats)
  | cancelled (id : SessionId)
  deriving DecidableEq

/-- A session; without an event channel it has no list of events. -/
structure Session where
  id : SessionId
  config : SessionConfig
  state : SessionState
  blocks : AList (fun _ : Cid => BlockRequest)
  stats : SessionStats
  events : Option (List SessionEvent)

inductive SessionCall
  | addBlock (cid : Cid) (priority : Option Priority)
  | markReceived (cid : Cid) (data : List UInt8)
  | markFailed (cid : Cid) (error : String)
  | pause
  | resume
  | cancel
  deriving DecidableEq

namespace Session

def send (event : SessionEvent) (s : Session) : Session :=
  { s with events := s.events.map (fun events => events ++ [event]) }

def new (id : SessionId) (config : SessionConfig) (channel : Bool) : Session :=
  send (.started id)
    { id, config, state := .active, blocks := ∅, stats := {},
      events := if channel then some [] else none }

@[simp] theorem state_send (event : SessionEvent) (s : Session) : (send event s).state = s.state :=
  rfl

@[simp] theorem blocks_send (event : SessionEvent) (s : Session) :
    (send event s).blocks = s.blocks := rfl

@[simp] theorem stats_send (event : SessionEvent) (s : Session) : (send event s).stats = s.stats :=
  rfl

/-- `transition_state`, where the caller holds the lock of the statistics or not. -/
def transitionState (locked : Bool) (newState : SessionState) (s : Session) : Option Session :=
  let s := { s with state := newState }
  if newState = .completed then
    if locked && s.events.isSome then none else some (send (.completed s.id s.stats) s)
  else some s

theorem transitionState_eq_some {locked : Bool} {newState : SessionState} {s s' : Session}
    (h : transitionState locked newState s = some s') :
    s'.state = newState ∧ s'.blocks = s.blocks ∧ s'.stats = s.stats := by
  simp only [transitionState] at h
  split at h
  · split at h
    · cases h
    · cases h
      exact ⟨rfl, rfl, rfl⟩
  · cases h
    exact ⟨rfl, rfl, rfl⟩

/-- The session completes if it should. -/
def completeIf (shouldComplete locked : Bool) (s : Session) : Option Session :=
  if shouldComplete then transitionState locked .completed s else some s

theorem completeIf_eq_some {shouldComplete locked : Bool} {s s' : Session}
    (h : completeIf shouldComplete locked s = some s') :
    s'.state = (if shouldComplete then .completed else s.state) ∧ s'.blocks = s.blocks
      ∧ s'.stats = s.stats := by
  cases shouldComplete with
  | true => exact transitionState_eq_some h
  | false =>
    cases h
    exact ⟨rfl, rfl, rfl⟩

/-- `BlockReceived`, and `Progress` if it is wanted. -/
def sendReceived (cid : Cid) (size : Nat) (s : Session) : Session :=
  let s := send (.blockReceived s.id cid size) s
  if s.config.progressNotifications then send (.progress s.id s.stats) s else s

theorem sendReceived_same (cid : Cid) (size : Nat) (s : Session) :
    (sendReceived cid size s).state = s.state ∧ (sendReceived cid size s).blocks = s.blocks
      ∧ (sendReceived cid size s).stats = s.stats := by
  simp only [sendReceived]
  split <;> exact ⟨rfl, rfl, rfl⟩

def addBlock (cid : Cid) (priority : Option Priority) (s : Session) :
    Except SessionError Unit × Session :=
  if s.state ≠ .active then (.error (.closed s.id), s)
  else
    let request := { cid, priority := priority.getD s.config.defaultPriority }
    (.ok (),
      { s with
        blocks := s.blocks.insert cid request
        stats := { s.stats with totalBlocks := s.stats.totalBlocks + 1 } })

def markReceived (cid : Cid) (data : List UInt8) (s : Session) :
    Option (Except SessionError Unit × Session) :=
  match s.blocks.lookup cid with
  | none => some (.error (.blockNotInSession cid), s)
  | some block => do
    let stats :=
      { s.stats with
        blocksReceived := s.stats.blocksReceived + 1
        bytesTransferred := s.stats.bytesTransferred + data.length }
    let shouldComplete := stats.isComplete && s.state = .active
    let block := { block with completed := true, size := some data.length }
    let s := { s with stats, blocks := s.blocks.insert cid block }
    let s ← completeIf shouldComplete false s
    some (.ok (), sendReceived cid data.length s)

def markFailed (cid : Cid) (error : String) (s : Session) :
    Option (Except SessionError Unit × Session) :=
  match s.blocks.lookup cid with
  | none => some (.error (.blockNotInSession cid), s)
  | some _ => do
    let stats := { s.stats with blocksFailed := s.stats.blocksFailed + 1 }
    let shouldComplete := stats.isComplete && s.state = .active
    let s := { s with stats }
    let s ← completeIf shouldComplete true s
    some (.ok (), send (.blockFailed s.id cid error) s)

def pause (s : Session) : Option Session := transitionState false .paused s

def resume (s : Session) : Option Session := transitionState false .active s

def cancel (s : Session) : Option Session :=
  (transitionState false .cancelled s).map (send (.cancelled s.id))

/-- A call's answer, and `none` for a call that does not return. -/
def perform (call : SessionCall) (s : Session) : Option (Except SessionError Unit × Session) :=
  match call with
  | .addBlock cid priority => some (addBlock cid priority s)
  | .markReceived cid data => markReceived cid data s
  | .markFailed cid error => markFailed cid error s
  | .pause => (pause s).map (fun s => (.ok (), s))
  | .resume => (resume s).map (fun s => (.ok (), s))
  | .cancel => (cancel s).map (fun s => (.ok (), s))

end Session

/-! ## Histories -/

def SessionCall.adds : SessionCall → List Cid
  | addBlock cid _ => [cid]
  | _ => []

def SessionCall.settles : SessionCall → List Cid
  | markReceived cid _ => [cid]
  | markFailed cid _ => [cid]
  | _ => []

/-- A session with the blocks added, and those received or failed, by calls that returned
without an error. -/
structure History where
  session : Session
  added : List Cid
  settled : List Cid

namespace History

open Session (completeIf_eq_some sendReceived_same transitionState_eq_some state_send
  blocks_send stats_send)

def new (id : SessionId) (config : SessionConfig) (channel : Bool) : History :=
  { session := Session.new id config channel, added := [], settled := [] }

def record (h : History) (call : SessionCall) : Except SessionError Unit × Session → History
  | (.ok _, session) =>
    { session, added := h.added ++ call.adds, settled := h.settled ++ call.settles }
  | (.error _, session) => { h with session }

def step (h : History) (call : SessionCall) : Option History :=
  (h.session.perform call).map (h.record call)

/-- The history after some calls, if each of them returns. -/
def run (h : History) : List SessionCall → Option History
  | [] => some h
  | call :: calls => (h.step call).bind (fun h => run h calls)

/-- Some block is neither received nor failed. -/
def Outstanding (h : History) : Prop := ∃ cid ∈ h.added, cid ∉ h.settled

def isOver (h : History) : Prop := h.session.state = .completed ∨ h.session.state = .cancelled

/-- Completed with nothing outstanding, active with something, if anything was added. -/
structure StateRight (h : History) : Prop where
  completed : h.session.state = .completed → ¬ h.Outstanding
  active : h.session.state = .active → h.added ≠ [] → h.Outstanding

/-- After every call the state is right, and once it is final it stays. -/
def CompletesExactly (h : History) (calls : List SessionCall) : Prop :=
  ∀ before mid after, calls = before ++ mid ++ after →
    ∀ h₁, h.run before = some h₁ → h₁.StateRight ∧
      (h₁.isOver → ∀ h₂, h₁.run mid = some h₂ → h₂.session.state = h₁.session.state)

/-- A block is added once and settled once while the session is not over; a session that is
over is not paused, resumed or, if completed, cancelled; and one with nothing outstanding
is not resumed. -/
def SafeCall (h : History) : SessionCall → Prop
  | .addBlock cid _ => h.session.state = .active → cid ∉ h.added
  | .markReceived cid _ => ¬ h.isOver → cid ∈ h.added → cid ∉ h.settled
  | .markFailed cid _ => ¬ h.isOver → cid ∈ h.added → cid ∉ h.settled
  | .pause => ¬ h.isOver
  | .resume => ¬ h.isOver ∧ (h.added ≠ [] → h.Outstanding)
  | .cancel => h.session.state ≠ .completed

/-- Each call is safe in the state that it finds. -/
def Safe (h : History) : List SessionCall → Prop
  | [] => True
  | call :: calls => h.SafeCall call ∧ ∀ h' ∈ h.step call, Safe h' calls

theorem CompletesExactly.stateRight {h : History} {calls : List SessionCall}
    (hc : h.CompletesExactly calls) : ∀ h₁ ∈ h.run calls, h₁.StateRight :=
  fun h₁ hrun => (hc calls [] [] (by simp) h₁ hrun).1

theorem CompletesExactly.stays {h : History} {before mid : List SessionCall}
    (hc : h.CompletesExactly (before ++ mid)) : ∀ h₁ ∈ h.run before, h₁.isOver →
      ∀ h₂ ∈ h₁.run mid, h₂.session.state = h₁.session.state :=
  fun h₁ hrun hover h₂ hrun₂ => (hc before mid [] (by simp) h₁ hrun).2 hover h₂ hrun₂

theorem Safe.of_append {h h' : History} : ∀ {calls calls' : List SessionCall},
    h.Safe (calls ++ calls') → h.run calls = some h' → h'.Safe calls'
  | [], _, hsafe, hrun => by
    cases hrun
    exact hsafe
  | call :: calls, calls', hsafe, hrun => by
    rw [run] at hrun
    obtain ⟨h₁, hstep, hrun⟩ := Option.bind_eq_some_iff.mp hrun
    exact Safe.of_append (hsafe.2 h₁ hstep) hrun

theorem Safe.append_left {h : History} : ∀ {calls calls' : List SessionCall},
    h.Safe (calls ++ calls') → h.Safe calls
  | [], _, _ => trivial
  | _ :: _, _, hsafe => ⟨hsafe.1, fun h' hstep => Safe.append_left (hsafe.2 h' hstep)⟩

/-! ## What a call does -/

/-- All that a call that returns can do: nothing, count a block, count a settled block
(and complete), or set the state. -/
inductive Steps (h : History) : SessionCall → History → Prop
  | refused (call : SessionCall)
      (hcall : ∀ cid p, call = .addBlock cid p → h.session.state ≠ .active)
      (hmark : ∀ cid ∈ call.settles, cid ∉ h.session.blocks)
      (hset : call.adds ≠ [] ∨ call.settles ≠ []) : Steps h call h
  | added (cid : Cid) (p : Option Priority) (s : Session) (hactive : h.session.state = .active)
      (hstate : s.state = .active) (hblocks : ∀ c, c ∈ s.blocks ↔ c = cid ∨ c ∈ h.session.blocks)
      (htotal : s.stats.totalBlocks = h.session.stats.totalBlocks + 1)
      (hdone : s.stats.blocksReceived + s.stats.blocksFailed
        = h.session.stats.blocksReceived + h.session.stats.blocksFailed) :
      Steps h (.addBlock cid p) { session := s, added := h.added ++ [cid], settled := h.settled }
  | settled (call : SessionCall) (cid : Cid) (s : Session) (hcall : call.settles = [cid])
      (hadds : call.adds = []) (hin : cid ∈ h.session.blocks)
      (hblocks : ∀ c, c ∈ s.blocks ↔ c ∈ h.session.blocks)
      (htotal : s.stats.totalBlocks = h.session.stats.totalBlocks)
      (hdone : s.stats.blocksReceived + s.stats.blocksFailed
        = h.session.stats.blocksReceived + h.session.stats.blocksFailed + 1)
      (hstate : s.state = if s.stats.isComplete && h.session.state = .active then .completed
        else h.session.state) :
      Steps h call { session := s, added := h.added, settled := h.settled ++ [cid] }
  | moved (call : SessionCall) (state : SessionState) (s : Session)
      (hcall : (call, state) ∈ [(.pause, .paused), (.resume, .active), (.cancel, .cancelled)])
      (hstate : s.state = state) (hblocks : s.blocks = h.session.blocks)
      (hstats : s.stats = h.session.stats) : Steps h call { h with session := s }

theorem steps_of_step {h h' : History} {call : SessionCall} (hstep : h.step call = some h') :
    Steps h call h' := by
  rw [step] at hstep
  cases call with
  | addBlock cid p =>
    simp only [Session.perform, Session.addBlock, Option.map_some, Option.some.injEq] at hstep
    split at hstep
    · next hactive =>
      subst hstep
      exact Steps.refused _ (fun _ _ _ => hactive) (by simp [SessionCall.settles])
        (.inl (by simp [SessionCall.adds]))
    · next hactive =>
      rw [ne_eq, not_not] at hactive
      subst hstep
      simp only [record, SessionCall.adds, SessionCall.settles, List.append_nil]
      exact Steps.added cid p _ hactive hactive (fun c => AList.mem_insert _) rfl rfl
  | markReceived cid data =>
    simp only [Session.perform, Session.markReceived] at hstep
    cases hlookup : h.session.blocks.lookup cid with
    | none =>
      simp only [hlookup, Option.map_some, Option.some.injEq] at hstep
      subst hstep
      refine Steps.refused _ (by simp) ?_ (.inr (by simp [SessionCall.settles]))
      simpa [SessionCall.settles] using AList.lookup_eq_none.mp hlookup
    | some block =>
      have hin : cid ∈ h.session.blocks := AList.lookup_isSome.mp (by rw [hlookup]; rfl)
      simp only [hlookup, Option.map_eq_some_iff, Option.bind_eq_some_iff, bind,
        Option.some.injEq] at hstep
      obtain ⟨_, ⟨s, hs, rfl⟩, rfl⟩ := hstep
      obtain ⟨hstate, hblocks, hstats⟩ := completeIf_eq_some hs
      obtain ⟨hstate', hblocks', hstats'⟩ := sendReceived_same cid data.length s
      simp only [record, SessionCall.adds, SessionCall.settles, List.append_nil]
      refine Steps.settled _ cid _ rfl rfl hin (fun c => ?_) ?_ ?_ ?_
      · rw [hblocks', hblocks, AList.mem_insert]
        exact ⟨fun hc => hc.elim (fun heq => heq ▸ hin) id, .inr⟩
      · rw [hstats', hstats]
      · rw [hstats', hstats]
        dsimp only
        omega
      · rw [hstate', hstate, hstats', hstats]
  | markFailed cid error =>
    simp only [Session.perform, Session.markFailed] at hstep
    cases hlookup : h.session.blocks.lookup cid with
    | none =>
      simp only [hlookup, Option.map_some, Option.some.injEq] at hstep
      subst hstep
      refine Steps.refused _ (by simp) ?_ (.inr (by simp [SessionCall.settles]))
      simpa [SessionCall.settles] using AList.lookup_eq_none.mp hlookup
    | some block =>
      have hin : cid ∈ h.session.blocks := AList.lookup_isSome.mp (by rw [hlookup]; rfl)
      simp only [hlookup, Option.map_eq_some_iff, Option.bind_eq_some_iff, bind,
        Option.some.injEq] at hstep
      obtain ⟨_, ⟨s, hs, rfl⟩, rfl⟩ := hstep
      obtain ⟨hstate, hblocks, hstats⟩ := completeIf_eq_some hs
      simp only [record, SessionCall.adds, SessionCall.settles, List.append_nil]
      refine Steps.settled _ cid _ rfl rfl hin (fun c => ?_) ?_ ?_ ?_
      · rw [blocks_send, hblocks]
      · rw [stats_send, hstats]
      · rw [stats_send, hstats]
        dsimp only
        omega
      · rw [state_send, hstate, stats_send, hstats]
  | pause =>
    simp only [Session.perform, Session.pause, Option.map_eq_some_iff] at hstep
    obtain ⟨_, ⟨s, hs, rfl⟩, rfl⟩ := hstep
    obtain ⟨hstate, hblocks, hstats⟩ := transitionState_eq_some hs
    simp only [record, SessionCall.adds, SessionCall.settles, List.append_nil]
    exact Steps.moved .pause .paused s (by simp) hstate hblocks hstats
  | resume =>
    simp only [Session.perform, Session.resume, Option.map_eq_some_iff] at hstep
    obtain ⟨_, ⟨s, hs, rfl⟩, rfl⟩ := hstep
    obtain ⟨hstate, hblocks, hstats⟩ := transitionState_eq_some hs
    simp only [record, SessionCall.adds, SessionCall.settles, List.append_nil]
    exact Steps.moved .resume .active s (by simp) hstate hblocks hstats
  | cancel =>
    simp only [Session.perform, Session.cancel, Option.map_eq_some_iff] at hstep
    obtain ⟨_, ⟨_, ⟨s, hs, rfl⟩, rfl⟩, rfl⟩ := hstep
    obtain ⟨hstate, hblocks, hstats⟩ := transitionState_eq_some hs
    simp only [record, SessionCall.adds, SessionCall.settles, List.append_nil]
    exact Steps.moved .cancel .cancelled _ (by simp) hstate hblocks hstats

/-! ## Counters and sets -/

/-- Of a list without repetitions another one has all if it is not shorter. -/
theorem all_mem_iff {added settled : List Cid} (hadded : added.Nodup) (hsettled : settled.Nodup)
    (hsub : ∀ c ∈ settled, c ∈ added) :
    added.length ≤ settled.length ↔ ∀ c ∈ added, c ∈ settled := by
  constructor
  · intro hlen c hc
    have hperm := (hsettled.subperm hsub).perm_of_length_le hlen
    exact hperm.mem_iff.mpr hc
  · intro hall
    exact (hadded.subperm hall).length_le

/-- What safe calls keep: the counters are those of the sets until the session is over. -/
structure Tracked (h : History) : Prop where
  blocks : ∀ c, c ∈ h.session.blocks ↔ c ∈ h.added
  settled : ∀ c ∈ h.settled, c ∈ h.added
  added_nodup : ¬ h.isOver → h.added.Nodup
  settled_nodup : ¬ h.isOver → h.settled.Nodup
  total : ¬ h.isOver → h.session.stats.totalBlocks = h.added.length
  done : ¬ h.isOver →
    h.session.stats.blocksReceived + h.session.stats.blocksFailed = h.settled.length
  right : h.StateRight

theorem not_outstanding_iff {h : History} : ¬ h.Outstanding ↔ ∀ c ∈ h.added, c ∈ h.settled := by
  simp [Outstanding]

theorem tracked_new (id : SessionId) (config : SessionConfig) (channel : Bool) :
    Tracked (new id config channel) := by
  refine ⟨?_, ?_, ?_, ?_, ?_, ?_, ⟨?_, ?_⟩⟩ <;>
    simp [new, Session.new, Session.send, Outstanding]

theorem Tracked.step {h h' : History} {call : SessionCall} (ht : Tracked h)
    (hsafe : h.SafeCall call) (hstep : h.step call = some h') : Tracked h' := by
  cases steps_of_step hstep with
  | refused => exact ht
  | added cid p s hactive hstate hblocks htotal hdone =>
    have hover : ¬ h.isOver := by simp [isOver, hactive]
    have hnew := hsafe hactive
    refine ⟨fun c => ?_, fun c hc => ?_, fun _ => ?_, fun _ => ht.settled_nodup hover,
      fun _ => ?_, fun _ => ?_, ⟨fun hc => ?_, fun _ _ => ?_⟩⟩
    · rw [hblocks, ht.blocks, List.mem_append, List.mem_singleton, or_comm]
    · exact List.mem_append_left _ (ht.settled c hc)
    · rw [List.nodup_append]
      refine ⟨ht.added_nodup hover, List.nodup_singleton cid, ?_⟩
      rintro c hc _ hcid rfl
      exact hnew (List.mem_singleton.mp hcid ▸ hc)
    · rw [htotal, ht.total hover, List.length_append, List.length_singleton]
    · rw [hdone, ht.done hover]
    · rw [hstate] at hc
      cases hc
    · exact ⟨cid, by simp, fun hc => hnew (ht.settled cid hc)⟩
  | settled _ cid s hcall hadds hin hblocks htotal hdone hstate =>
    have hcid := (ht.blocks cid).mp hin
    have hnew : ¬ h.isOver → cid ∉ h.settled := by
      cases call <;> cases hcall <;> exact fun hover => hsafe hover hcid
    have hsub : ∀ c ∈ h.settled ++ [cid], c ∈ h.added := by
      intro c hc
      rcases List.mem_append.mp hc with hc | hc
      · exact ht.settled c hc
      · rwa [List.mem_singleton.mp hc]
    have hnodup : ¬ h.isOver → (h.settled ++ [cid]).Nodup := by
      intro hover
      rw [List.nodup_append]
      refine ⟨ht.settled_nodup hover, List.nodup_singleton cid, ?_⟩
      rintro c hc _ hc' rfl
      exact hnew hover (List.mem_singleton.mp hc' ▸ hc)
    -- while the session runs, the counters tell whether anything is outstanding
    have hcomplete : ¬ h.isOver →
        (s.stats.isComplete = true ↔ ∀ c ∈ h.added, c ∈ h.settled ++ [cid]) := by
      intro hover
      rw [← all_mem_iff (ht.added_nodup hover) (hnodup hover) hsub, SessionStats.isComplete,
        decide_eq_true_iff, htotal, hdone, ht.total hover, ht.done hover, List.length_append,
        List.length_singleton]
    have hrunning : ¬ (s.state = .completed ∨ s.state = .cancelled) → ¬ h.isOver := by
      rintro hnot (hover | hover) <;> rw [hover] at hstate <;> simp at hstate
      · exact hnot (.inl hstate)
      · exact hnot (.inr hstate)
    refine ⟨fun c => ?_, hsub, fun hover => ht.added_nodup (hrunning hover),
      fun hover => hnodup (hrunning hover), fun hover => ?_, fun hover => ?_,
      ⟨fun hc => ?_, fun hc hne => ?_⟩⟩
    · rw [hblocks, ht.blocks]
    · rw [htotal, ht.total (hrunning hover)]
    · rw [hdone, ht.done (hrunning hover), List.length_append, List.length_singleton]
    · rw [not_outstanding_iff]
      rw [hc] at hstate
      split at hstate
      · next hshould =>
        rw [Bool.and_eq_true, decide_eq_true_iff] at hshould
        exact (hcomplete (by simp [isOver, hshould.2])).mp hshould.1
      · intro c hcadded
        have hall := not_outstanding_iff.mp (ht.right.completed hstate.symm)
        exact List.mem_append_left _ (hall c hcadded)
    · have hactive : s.state = .active := hc
      have hover : ¬ h.isOver := hrunning (by simp [hactive])
      rw [hactive] at hstate
      split at hstate
      · cases hstate
      · next hshould =>
        by_contra hnone
        refine hshould ?_
        rw [Bool.and_eq_true, decide_eq_true_iff]
        exact ⟨(hcomplete hover).mpr (not_outstanding_iff.mp hnone), hstate.symm⟩
  | moved _ state s hcall hstate hblocks hstats =>
    simp only [List.mem_cons, List.not_mem_nil, or_false, Prod.mk.injEq] at hcall
    have hover : ¬ (s.state = .completed ∨ s.state = .cancelled) → ¬ h.isOver := by
      intro hrunning
      rcases hcall with ⟨rfl, rfl⟩ | ⟨rfl, rfl⟩ | ⟨rfl, rfl⟩
      · exact hsafe
      · exact hsafe.1
      · exact absurd (.inr hstate) hrunning
    refine ⟨fun c => ?_, ht.settled, fun h => ht.added_nodup (hover h),
      fun h => ht.settled_nodup (hover h), fun h => ?_, fun h => ?_, ⟨fun hc => ?_, fun hc => ?_⟩⟩
    · rw [← ht.blocks, ← hblocks]
    · rw [hstats, ht.total (hover h)]
    · rw [hstats, ht.done (hover h)]
    · rw [show s.state = _ from hstate] at hc
      rcases hcall with ⟨-, rfl⟩ | ⟨-, rfl⟩ | ⟨-, rfl⟩ <;> cases hc
    · rw [show s.state = _ from hstate] at hc
      rcases hcall with ⟨-, rfl⟩ | ⟨rfl, rfl⟩ | ⟨-, rfl⟩
      · cases hc
      · exact hsafe.2
      · cases hc

/-- A session that is over stays as it is. -/
theorem state_of_over {h h' : History} {call : SessionCall} (hover : h.isOver)
    (hsafe : h.SafeCall call) (hstep : h.step call = some h') :
    h'.session.state = h.session.state := by
  cases steps_of_step hstep with
  | refused => rfl
  | added cid p s hactive =>
    rcases hover with hstate | hstate <;> rw [hactive] at hstate <;> cases hstate
  | settled _ cid s _ _ _ _ _ _ hstate =>
    rw [hstate, if_neg]
    rcases hover with hover | hover <;> simp [hover]
  | moved _ state s hcall hstate =>
    simp only [List.mem_cons, List.not_mem_nil, or_false, Prod.mk.injEq] at hcall
    rcases hcall with ⟨rfl, rfl⟩ | ⟨rfl, rfl⟩ | ⟨rfl, rfl⟩
    · exact absurd hover hsafe
    · exact absurd hover hsafe.1
    · rw [hstate, hover.resolve_left hsafe]

/-! ## Runs -/

theorem Tracked.run {h h' : History} : ∀ {calls : List SessionCall}, Tracked h → h.Safe calls →
    h.run calls = some h' → Tracked h'
  | [], ht, _, hrun => by
    cases hrun
    exact ht
  | call :: calls, ht, hsafe, hrun => by
    rw [History.run] at hrun
    obtain ⟨h₁, hstep, hrun⟩ := Option.bind_eq_some_iff.mp hrun
    exact Tracked.run (ht.step hsafe.1 hstep) (hsafe.2 h₁ hstep) hrun

theorem state_of_run {h h' : History} : ∀ {calls : List SessionCall}, h.isOver → h.Safe calls →
    h.run calls = some h' → h'.session.state = h.session.state
  | [], _, _, hrun => by
    cases hrun
    rfl
  | call :: calls, hover, hsafe, hrun => by
    rw [History.run] at hrun
    obtain ⟨h₁, hstep, hrun⟩ := Option.bind_eq_some_iff.mp hrun
    have hstate := state_of_over hover hsafe.1 hstep
    have hover₁ : h₁.isOver := by rwa [isOver, hstate]
    rw [state_of_run hover₁ (hsafe.2 h₁ hstep) hrun, hstate]

/-- In every run of safe calls a session completes exactly. -/
theorem completes_exactly (id : SessionId) (config : SessionConfig) (channel : Bool)
    (calls : List SessionCall) (hsafe : (new id config channel).Safe calls) :
    (new id config channel).CompletesExactly calls := by
  rintro before mid after rfl h₁ hrun
  have hrest := Safe.of_append (Safe.append_left hsafe) hrun
  have hbefore := Safe.append_left (Safe.append_left hsafe)
  exact ⟨((tracked_new id config channel).run hbefore hrun).right,
    fun hover h₂ hrun₂ => state_of_run hover hrest hrun₂⟩

/-! ## Two blocks -/

instance (h : History) : Decidable h.Outstanding :=
  inferInstanceAs (Decidable (∃ cid ∈ h.added, cid ∉ h.settled))

instance (h : History) : Decidable h.isOver :=
  inferInstanceAs (Decidable (_ ∨ _))

instance (h : History) : Decidable h.StateRight :=
  decidable_of_iff ((h.session.state = .completed → ¬ h.Outstanding) ∧
      (h.session.state = .active → h.added ≠ [] → h.Outstanding))
    ⟨fun hr => ⟨hr.1, hr.2⟩, fun hr => ⟨hr.completed, hr.active⟩⟩

instance (h : History) : (call : SessionCall) → Decidable (h.SafeCall call)
  | .addBlock _ _ => inferInstanceAs (Decidable (_ = _ → _ ∉ _))
  | .markReceived _ _ | .markFailed _ _ => inferInstanceAs (Decidable (¬ _ → _ ∈ _ → _ ∉ _))
  | .pause => inferInstanceAs (Decidable (¬ _))
  | .resume => inferInstanceAs (Decidable (¬ _ ∧ (_ → _)))
  | .cancel => inferInstanceAs (Decidable (_ ≠ _))

instance instDecidableSafe : (h : History) → (calls : List SessionCall) → Decidable (h.Safe calls)
  | _, [] => .isTrue trivial
  | h, call :: calls =>
    have : ∀ h' : History, Decidable (h'.Safe calls) := fun h' => instDecidableSafe h' calls
    inferInstanceAs (Decidable (h.SafeCall call ∧ ∀ h' ∈ h.step call, h'.Safe calls))

namespace Sample

open scoped CidFormat

def first : Cid := cidOf codecRaw [1]

def second : Cid := cidOf codecRaw [2]

def fresh : History := new 1 {} true

/-- Two blocks, a pause in between, and a delivery after the end. -/
theorem completes_exactly_paused : fresh.CompletesExactly
      [.addBlock first none, .addBlock second (some .high), .pause, .markReceived first [1],
        .resume, .markReceived second [2], .markReceived first [1]] :=
  completes_exactly 1 {} true _ (by decide +kernel)

/-- A block delivered twice completes the session, a block added twice keeps it active, a
session resumed with nothing outstanding is active, and one that is completed is paused. -/
theorem not_completes_exactly : ¬ fresh.CompletesExactly
        [.addBlock first none, .addBlock second none, .markReceived first [1],
          .markReceived first [1]] ∧ ¬ fresh.CompletesExactly
        [.addBlock first none, .addBlock first none, .markReceived first [1]] ∧
      ¬ fresh.CompletesExactly [.addBlock first none, .pause, .markReceived first [1], .resume] ∧
      ¬ fresh.CompletesExactly ([.addBlock first none, .markReceived first [1]] ++ [.pause]) := by
  refine ⟨fun h => ?_, fun h => ?_, fun h => ?_, fun h => ?_⟩
  · exact absurd h.stateRight (by decide +kernel)
  · exact absurd h.stateRight (by decide +kernel)
  · exact absurd h.stateRight (by decide +kernel)
  · exact absurd h.stays (by decide +kernel)

end Sample

end History

end Ipfrs.Transport
