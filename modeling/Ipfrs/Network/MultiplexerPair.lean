/-
Ipfrs.Network.MultiplexerPair — two multiplexers over two links that keep the order.

The two sides call their multiplexers in any order; a frame that one side dequeues is
received by the other as its encoding. Every stream is delivered as long as no side opens a
stream under an identifier that one of them already uses (`intact_run`).
-/
import Ipfrs.Network.MultiplexerTheorems

namespace Ipfrs.Network

open Ipfrs.Lib

inductive Side
  | left
  | right
  deriving DecidableEq

def Side.other : Side → Side
  | .left => .right
  | .right => .left

inductive MuxCall
  | openStream (priority : StreamPriority)
  | openStreamWithPriority (priorityRaw : UInt8)
  | send (id : StreamId) (data : List UInt8) (now : UInt64)
  | updateWindow (id : StreamId) (increment : UInt32)
  | closeStream (id : StreamId)
  | dequeueFrame
  | receiveEvents
  | drainRecvBuffer (id : StreamId)

/-- Two multiplexers, for each of them the frames it has dequeued that the other has not
received, and what has happened: the bytes that `send` has taken and `drain_recv_buffer` has
returned, and the errors of receiving. -/
structure MuxPair where
  mux : Side → StreamMultiplexer
  link : Side → List StreamFrame
  sent : Side → StreamId → List UInt8
  drained : Side → StreamId → List UInt8
  errors : List MuxError

namespace MuxPair

def new (config : MultiplexerConfig) : MuxPair :=
  { mux := fun _ => .new config, link := fun _ => [], sent := fun _ _ => [],
    drained := fun _ _ => [], errors := [] }

def setMux (s : MuxPair) (x : Side) (mux : StreamMultiplexer) : MuxPair :=
  { s with mux := Function.update s.mux x mux }

/-- More bytes on a stream. -/
def appendAt (bytes : Side → StreamId → List UInt8) (x : Side) (id : StreamId)
    (data : List UInt8) : Side → StreamId → List UInt8 :=
  Function.update bytes x (Function.update (bytes x) id (bytes x id ++ data))

/-- A frame arrives at `x` as its bytes. -/
def receive (s : MuxPair) (x : Side) (frame : StreamFrame) : MuxPair :=
  match StreamFrame.decode frame.encode with
  | .error e => { s with errors := s.errors ++ [e] }
  | .ok frame =>
    match (s.mux x).receiveEvents frame with
    | (.error e, mux) => { s.setMux x mux with errors := s.errors ++ [e] }
    | (.ok _, mux) => s.setMux x mux

def step (s : MuxPair) (x : Side) : MuxCall → MuxPair
  | .openStream priority => s.setMux x ((s.mux x).openStream priority).2
  | .openStreamWithPriority priorityRaw =>
    s.setMux x ((s.mux x).openStreamWithPriority priorityRaw).2
  | .send id data now =>
    match (s.mux x).send id data now with
    | (.error _, mux) => s.setMux x mux
    | (.ok _, mux) => { s.setMux x mux with sent := appendAt s.sent x id data }
  | .updateWindow id increment => s.setMux x ((s.mux x).updateWindow id increment).2
  | .closeStream id => s.setMux x ((s.mux x).closeStream id).2
  | .dequeueFrame =>
    match (s.mux x).dequeueFrame with
    | (none, mux) => s.setMux x mux
    | (some frame, mux) =>
      { s.setMux x mux with link := Function.update s.link x (s.link x ++ [frame]) }
  | .receiveEvents =>
    match s.link x.other with
    | [] => s
    | frame :: frames => receive { s with link := Function.update s.link x.other frames } x frame
  | .drainRecvBuffer id =>
    match (s.mux x).drainRecvBuffer id with
    | (.error _, mux) => s.setMux x mux
    | (.ok payloads, mux) =>
      { s.setMux x mux with drained := appendAt s.drained x id payloads.flatten }

def run (s : MuxPair) (calls : List (Side × MuxCall)) : MuxPair :=
  calls.foldl (fun s call => s.step call.1 call.2) s

/-- No frame was refused, and what was drained at one side was sent at the other, in order. -/
structure Intact (s : MuxPair) : Prop where
  errors_eq : s.errors = []
  prefix_sent : ∀ x id, s.drained x id <+: s.sent x.other id

end MuxPair

/-! ## The invariant -/

theorem Side.other_other (x : Side) : x.other.other = x := by cases x <;> rfl

theorem Side.other_ne (x : Side) : x.other ≠ x := by cases x <;> decide

namespace MuxPair

open StreamMultiplexer

variable {s : MuxPair} {x : Side}

structure Sound (s : MuxPair) : Prop where
  direction : ∀ x, Direction (s.mux x) (s.mux x.other) (s.link x) (s.sent x) (s.drained x.other)
  ordered : ∀ x, (s.mux x).Ordered
  errors_eq : s.errors = []

theorem Sound.intact (h : s.Sound) : s.Intact where
  errors_eq := h.errors_eq
  prefix_sent x id := by
    have hcarried := (h.direction x.other).carried id
    rw [x.other_other] at hcarried
    exact hcarried.prefix_sent

theorem sound_new (config : MultiplexerConfig) : (new config).Sound where
  direction x := by
    refine ⟨fun id => ⟨rfl, rfl, rfl⟩, fun frame hframe => ?_⟩
    cases hframe
  ordered x := ⟨.nil, by simp [new, StreamMultiplexer.new], by simp [new, StreamMultiplexer.new]⟩
  errors_eq := rfl

/-- Both directions as `x` sees them. -/
theorem Sound.of_side (x : Side)
    (hout : Direction (s.mux x) (s.mux x.other) (s.link x) (s.sent x) (s.drained x.other))
    (hin : Direction (s.mux x.other) (s.mux x) (s.link x.other) (s.sent x.other) (s.drained x))
    (hord : (s.mux x).Ordered) (hord' : (s.mux x.other).Ordered) (herr : s.errors = []) :
    s.Sound := by
  refine ⟨fun y => ?_, fun y => ?_, herr⟩
  · cases x <;> cases y <;> assumption
  · cases x <;> cases y <;> assumption

theorem Sound.incoming (h : s.Sound) (x : Side) :
    Direction (s.mux x.other) (s.mux x) (s.link x.other) (s.sent x.other) (s.drained x) := by
  have hin := h.direction x.other
  rwa [x.other_other] at hin

/-- Only the multiplexer of `x` changes. -/
theorem Sound.setMux {mux : StreamMultiplexer} (h : s.Sound) (hord : mux.Ordered)
    (hout : Direction mux (s.mux x.other) (s.link x) (s.sent x) (s.drained x.other))
    (hin : Direction (s.mux x.other) mux (s.link x.other) (s.sent x.other) (s.drained x)) :
    (s.setMux x mux).Sound := by
  refine .of_side x ?_ ?_ ?_ ?_ h.errors_eq
  · simpa [MuxPair.setMux, x.other_ne] using hout
  · simpa [MuxPair.setMux, x.other_ne] using hin
  · simpa [MuxPair.setMux] using hord
  · simpa [MuxPair.setMux, x.other_ne] using h.ordered x.other

theorem setMux_self (s : MuxPair) (x : Side) : s.setMux x (s.mux x) = s := by
  rw [MuxPair.setMux, Function.update_eq_self]

/-- A stream is opened under an identifier that neither side uses. -/
theorem Sound.openStream (h : s.Sound) (priority : StreamPriority)
    (hnew : (s.mux x).streams.lookup (s.mux x).nextStreamId = none)
    (hnew' : (s.mux x.other).streams.lookup (s.mux x).nextStreamId = none)
    (hroom : (s.mux x).HasRoom 1) : (s.setMux x ((s.mux x).openStream priority).2).Sound := by
  obtain heq | ⟨frame, hopens⟩ := openStream_spec (s.mux x) priority
  · rwa [heq, setMux_self]
  · have hsend : (s.mux x).sendSeqOf (s.mux x).nextStreamId = none := by
      rw [sendSeqOf, hnew, Option.map_none]
    have hrecv : (s.mux x).receivedBy (s.mux x).nextStreamId = none := by
      rw [receivedBy, hnew, Option.map_none]
    have hsend' : (s.mux x.other).sendSeqOf (s.mux x).nextStreamId = none := by
      rw [sendSeqOf, hnew', Option.map_none]
    have hrecv' : (s.mux x.other).receivedBy (s.mux x).nextStreamId = none := by
      rw [receivedBy, hnew', Option.map_none]
    have hweight : (s.mux x).weightOf (s.mux x).nextStreamId = none := by
      rw [weightOf, hnew, Option.map_none]
    refine h.setMux (hopens.ordered (h.ordered x) hweight hroom) ?_ ?_
    · exact (h.direction x).opened hsend hrecv' hopens.sendSeqOf hopens.queued hopens.streamId
        hopens.opening
    · exact (h.incoming x).opened_by_receiver hsend' hrecv hopens.receivedBy

theorem Sound.closeStream (h : s.Sound) (id : StreamId) (hroom : (s.mux x).HasRoom 1) :
    (s.setMux x ((s.mux x).closeStream id).2).Sound := by
  obtain heq | ⟨m, frame, hpush, hdata⟩ := closeStream_spec (s.mux x) id
  · rwa [heq, setMux_self]
  · refine h.setMux (hpush.ordered (h.ordered x) hroom) ?_ ?_
    · have hout := (h.direction x).pushed hpush.sendSeq hpush.sendSeqOf hpush.queued hpush.streamId
        hpush.numbered (by rw [hdata]; exact Nat.two_pow_pos 32)
      rwa [hdata, List.append_nil, Function.update_eq_self] at hout
    · exact (h.incoming x).congr_receiver hpush.receivedBy

theorem Sound.updateWindow (h : s.Sound) (id : StreamId) (increment : UInt32) :
    (s.setMux x ((s.mux x).updateWindow id increment).2).Sound := by
  obtain ⟨hkeeps, hrecv⟩ := updateWindow_spec (s.mux x) id increment
  exact h.setMux (hkeeps.ordered (h.ordered x))
    ((h.direction x).congr_sender hkeeps.sendSeqOf hkeeps.queued)
    ((h.incoming x).congr_receiver hrecv)

theorem Sound.send (h : s.Sound) (id : StreamId) (data : List UInt8) (now : UInt64)
    (hroom : (s.mux x).HasRoom ((s.mux x).chunksFor data).length) :
    (s.step x (.send id data now)).Sound := by
  rw [step]
  obtain ⟨e, heq⟩ | ⟨hsend, hlt, heq⟩ := send_spec (s.mux x) id data now
  · rw [heq]
    simpa only [setMux_self] using h
  · have hshort (chunk : List UInt8) (hchunk : chunk ∈ (s.mux x).chunksFor data) :
        chunk.length < 2 ^ 32 := by
      have hle := (List.sublist_flatten_of_mem hchunk).length_le
      rw [flatten_chunksFor] at hle
      omega
    obtain ⟨mux', hchunks, hord, hrecv, hout⟩ :=
      (h.direction x).sendChunks now hsend (h.ordered x) hroom hshort
    rw [heq mux' hchunks]
    rw [flatten_chunksFor] at hout
    refine .of_side x ?_ ?_ ?_ ?_ h.errors_eq
    · simpa [MuxPair.setMux, appendAt, x.other_ne] using hout
    · simpa [MuxPair.setMux, appendAt, x.other_ne] using (h.incoming x).congr_receiver hrecv
    · simpa [MuxPair.setMux] using hord
    · simpa [MuxPair.setMux, x.other_ne] using h.ordered x.other

/-- A frame goes onto the link. -/
theorem Sound.dequeueFrame (h : s.Sound) : (s.step x .dequeueFrame).Sound := by
  rw [step]
  obtain hnone | ⟨pf, rest, hpop, hsome⟩ := dequeueFrame_eq (s.mux x)
  · rw [hnone]
    simpa only [setMux_self] using h
  · rw [hsome]
    have hsub := (mem_of_popMax hpop).2
    have hord := h.ordered x
    refine .of_side x ?_ ?_ ?_ ?_ h.errors_eq
    · simpa [MuxPair.setMux, x.other_ne] using (h.direction x).dequeued hord hpop
    · have hin : Direction (s.mux x.other) { s.mux x with sendQueue := rest } (s.link x.other)
          (s.sent x.other) (s.drained x) := (h.incoming x).congr_receiver rfl
      simpa [MuxPair.setMux, x.other_ne] using hin
    · simp only [MuxPair.setMux, Function.update_self]
      exact ⟨hord.sorted.sublist hsub, fun pf hpf => hord.below pf (hsub.subset hpf),
        fun pf hpf => hord.weight pf (hsub.subset hpf)⟩
    · simpa [MuxPair.setMux, x.other_ne] using h.ordered x.other

theorem Sound.drainRecvBuffer (h : s.Sound) (id : StreamId) :
    (s.step x (.drainRecvBuffer id)).Sound := by
  rw [step]
  obtain ⟨e, heq⟩ | ⟨payloads, mux', n, heq, hkeeps, hrecv, hrecv'⟩ :=
    drainRecvBuffer_spec (s.mux x) id
  · rw [heq]
    simpa only [setMux_self] using h
  · rw [heq]
    refine .of_side x ?_ ?_ ?_ ?_ h.errors_eq
    · simpa [MuxPair.setMux, appendAt, x.other_ne] using
        (h.direction x).congr_sender hkeeps.sendSeqOf hkeeps.queued
    · simpa [MuxPair.setMux, appendAt, x.other_ne] using (h.incoming x).drain hrecv hrecv'
    · simpa [MuxPair.setMux] using hkeeps.ordered (h.ordered x)
    · simpa [MuxPair.setMux, x.other_ne] using h.ordered x.other

/-- The next frame is accepted. -/
theorem Sound.receiveEvents (h : s.Sound)
    (hroomy : ∀ frame ∈ (s.link x.other).head?, (s.mux x).Roomy frame) :
    (s.step x .receiveEvents).Sound := by
  rw [step]
  cases hlink : s.link x.other with
  | nil => exact h
  | cons frame frames =>
    have hin := h.incoming x
    rw [hlink] at hin
    have hroomy := hroomy frame (by rw [hlink, List.head?_cons, Option.mem_def])
    have hcarried := hin.carried_head
    simp only [receive]
    rw [StreamFrame.decode_encode (hin.short frame List.mem_cons_self)]
    simp only
    by_cases hsyn : frame.isSyn
    · obtain ⟨hnew, hsome, hcarried'⟩ := hcarried.received_syn hsyn
      obtain ⟨events, mux', heq, hsend, hrecv, hqueued, hord⟩ :=
        receiveEvents_syn hsyn hnew hroomy
      rw [isSome_sendSeqOf] at hsome
      have hnone : (s.mux x).sendSeqOf frame.streamId = none := by
        rw [← Option.not_isSome_iff_eq_none, isSome_sendSeqOf, hnew]
        exact Bool.false_ne_true
      have hrest := hin.tail (by rwa [hrecv, Function.update_self])
        (fun i hi => by rw [hrecv, Function.update_of_ne hi])
      rw [heq]
      refine .of_side x ?_ ?_ ?_ ?_ h.errors_eq
      · simpa [MuxPair.setMux, x.other_ne, Ne.symm x.other_ne] using
          (h.direction x).accepted hnone hsome hsend hqueued
      · simpa [MuxPair.setMux, x.other_ne] using hrest
      · simpa [MuxPair.setMux] using hord (h.ordered x)
      · simpa [MuxPair.setMux, x.other_ne] using h.ordered x.other
    · obtain ⟨n, buffered, hrecv, hframe, hcarried'⟩ := hcarried.received hsyn
      obtain ⟨events, mux', heq, hkeeps, hrecv'⟩ := receiveEvents_numbered hrecv hframe hroomy
      have hrest := hin.tail (by rwa [hrecv', Function.update_self])
        (fun i hi => by rw [hrecv', Function.update_of_ne hi])
      rw [heq]
      refine .of_side x ?_ ?_ ?_ ?_ h.errors_eq
      · simpa [MuxPair.setMux, x.other_ne, Ne.symm x.other_ne] using
          (h.direction x).congr_sender hkeeps.sendSeqOf hkeeps.queued
      · simpa [MuxPair.setMux, x.other_ne] using hrest
      · simpa [MuxPair.setMux] using hkeeps.ordered (h.ordered x)
      · simpa [MuxPair.setMux, x.other_ne] using h.ordered x.other

/-- The tables of streams and the buffers have room for what a call needs. -/
def Roomy (s : MuxPair) (x : Side) : MuxCall → Prop
  | .receiveEvents => ∀ frame ∈ (s.link x.other).head?, (s.mux x).Roomy frame
  | _ => True

/-- A stream is opened under an identifier that neither side uses, and frames are queued
under numbers that have not been used. -/
def Fresh (s : MuxPair) (x : Side) : MuxCall → Prop
  | .openStream _ | .openStreamWithPriority _ =>
    (s.mux x).streams.lookup (s.mux x).nextStreamId = none
      ∧ (s.mux x.other).streams.lookup (s.mux x).nextStreamId = none ∧ (s.mux x).HasRoom 1
  | .send _ data _ => (s.mux x).HasRoom ((s.mux x).chunksFor data).length
  | .closeStream _ => (s.mux x).HasRoom 1
  | _ => True

/-- Each call meets a condition in the state that it finds. -/
def Meets (P : MuxPair → Side → MuxCall → Prop) : MuxPair → List (Side × MuxCall) → Prop
  | _, [] => True
  | s, (x, call) :: calls => P s x call ∧ Meets P (s.step x call) calls

theorem Sound.step (h : s.Sound) {call : MuxCall} (hroomy : s.Roomy x call)
    (hfresh : s.Fresh x call) : (s.step x call).Sound := by
  cases call with
  | openStream priority => exact h.openStream priority hfresh.1 hfresh.2.1 hfresh.2.2
  | openStreamWithPriority raw =>
    exact h.openStream (priorityFromU8 raw) hfresh.1 hfresh.2.1 hfresh.2.2
  | send id data now => exact h.send id data now hfresh
  | updateWindow id increment => exact h.updateWindow id increment
  | closeStream id => exact h.closeStream id hfresh
  | dequeueFrame => exact h.dequeueFrame
  | receiveEvents => exact h.receiveEvents hroomy
  | drainRecvBuffer id => exact h.drainRecvBuffer id

theorem Sound.run : ∀ {calls : List (Side × MuxCall)} {s : MuxPair}, s.Sound →
    Meets Roomy s calls → Meets Fresh s calls → (s.run calls).Sound
  | [], _, h, _, _ => h
  | (_, _) :: _, _, h, ⟨hroomy, hmeets⟩, ⟨hfresh, hmeets'⟩ =>
    (h.step hroomy hfresh).run hmeets hmeets'

/-- In every run in which streams and queue numbers are fresh, everything is delivered. -/
theorem intact_run (config : MultiplexerConfig) (calls : List (Side × MuxCall))
    (hroomy : Meets Roomy (new config) calls) (hfresh : Meets Fresh (new config) calls) :
    ((new config).run calls).Intact :=
  ((sound_new config).run hroomy hfresh).intact

/-- Two streams, the later one first in the queue, and data in both directions. -/
theorem intact_run_twoStreams : ((new {}).run [(.left, .openStream .normal),
    (.left, .openStream .high), (.left, .send 1 [7, 8] 0), (.left, .send 2 [9] 0),
    (.left, .dequeueFrame), (.left, .dequeueFrame), (.right, .receiveEvents),
    (.right, .receiveEvents), (.right, .send 2 [6] 0), (.left, .dequeueFrame),
    (.left, .dequeueFrame), (.right, .receiveEvents), (.right, .receiveEvents),
    (.right, .dequeueFrame), (.left, .receiveEvents), (.right, .drainRecvBuffer 1),
    (.left, .drainRecvBuffer 2)]).Intact :=
  intact_run {} _ (by simp only [Meets, Roomy]; decide)
    (by simp only [Meets, Fresh]; decide)

/-- Both sides open their first stream, and the right one receives the left one's. -/
theorem not_intact_run : ∃ calls, Meets Roomy (new {}) calls ∧ ¬ ((new {}).run calls).Intact := by
  refine ⟨[(.left, .openStream .normal), (.right, .openStream .normal), (.left, .dequeueFrame),
    (.right, .receiveEvents)], ?_, fun h => ?_⟩
  · simp only [Meets, Roomy]
    decide
  · have herr := h.errors_eq
    revert herr
    decide

end MuxPair

end Ipfrs.Network
