/-
Ipfrs.Network.Multiplexer — logical streams over one connection
(`stream_multiplexer.rs`).

The send queue is the list of its frames in the order in which they were pushed; `pop` takes
the greatest by the source's order. Statistics are left out, and with them the times, except
for the timestamp of a frame.
-/
import Ipfrs.Lib.Bytes
import Ipfrs.Lib.PriorityQueue
import Ipfrs.Lib.Slices
import Mathlib.Data.List.AList

namespace Ipfrs.Network

open Ipfrs.Lib

abbrev StreamId := UInt32

def flagFin : UInt8 := 1
def flagRst : UInt8 := 2
def flagSyn : UInt8 := 4

inductive StreamPriority
  | background
  | low
  | normal
  | high
  | critical
  deriving DecidableEq

namespace StreamPriority

def weight : StreamPriority → Nat
  | .critical => 8
  | .high => 4
  | .normal => 2
  | .low => 1
  | .background => 0

end StreamPriority

def priorityFromU8 (p : UInt8) : StreamPriority :=
  if p = 0 then .background
  else if p ≤ 63 then .low
  else if p ≤ 127 then .normal
  else if p ≤ 191 then .high
  else .critical

inductive StreamState
  | opening
  | open
  | halfClosed
  | closed
  | reset
  deriving DecidableEq

inductive MuxError
  | maxStreamsReached
  | streamNotFound (id : StreamId)
  | streamNotOpen (id : StreamId)
  | windowExhausted (id : StreamId)
  | sequenceError (expected got : UInt64)
  | frameTooLarge (length : Nat)
  | bufferOverflow (id : StreamId)
  | streamAlreadyOpen (id : StreamId)
  deriving DecidableEq

inductive MuxEvent
  | streamOpened (id : StreamId)
  | streamClosed (id : StreamId)
  | streamReset (id : StreamId)
  | frameReceived (id : StreamId)
  | sendBufferFull (id : StreamId)
  | idleStreamExpired (id : StreamId)
  deriving DecidableEq

/-! ## Frames -/

structure StreamFrame where
  streamId : StreamId
  sequence : UInt64
  data : List UInt8
  flags : UInt8
  timestamp : UInt64
  deriving DecidableEq

namespace StreamFrame

def isFin (frame : StreamFrame) : Bool := frame.flags &&& flagFin ≠ 0
def isRst (frame : StreamFrame) : Bool := frame.flags &&& flagRst ≠ 0
def isSyn (frame : StreamFrame) : Bool := frame.flags &&& flagSyn ≠ 0

def headerLen : Nat := 25

def encode (frame : StreamFrame) : List UInt8 :=
  leBytes 4 frame.streamId.toNat ++ leBytes 8 frame.sequence.toNat
    ++ leBytes 4 frame.data.length ++ [frame.flags] ++ leBytes 8 frame.timestamp.toNat
    ++ frame.data

def decode (data : List UInt8) : Except MuxError StreamFrame :=
  if data.length < headerLen then .error (.frameTooLarge data.length)
  else
    let payloadLen := leNat ((data.drop 12).take 4)
    if data.length < headerLen + payloadLen then .error (.frameTooLarge data.length)
    else .ok {
      streamId := .ofNat (leNat (data.take 4))
      sequence := .ofNat (leNat ((data.drop 4).take 8))
      data := (data.drop headerLen).take payloadLen
      flags := (data[16]?).getD 0
      timestamp := .ofNat (leNat ((data.drop 17).take 8)) }

end StreamFrame

/-! ## The multiplexer -/

structure LogicalStream where
  priority : StreamPriority
  state : StreamState
  sendWindow : UInt32
  sendSeq : UInt64
  recvSeq : UInt64
  recvBuffer : List (List UInt8)
  recvBufferMax : Nat

structure MultiplexerConfig where
  maxStreams : Nat := 256
  defaultWindowSize : UInt32 := 65536
  maxFrameSize : Nat := 16384
  enablePriority : Bool := true
  recvBufferCapacity : Nat := 256

structure PrioritizedFrame where
  priorityWeight : Nat
  sequence : UInt64
  frame : StreamFrame

namespace PrioritizedFrame

/-- `cmp` is `Less`: a lower weight, or the same weight and a higher sequence number. -/
def less (a b : PrioritizedFrame) : Bool :=
  a.priorityWeight < b.priorityWeight
    || (a.priorityWeight = b.priorityWeight && b.sequence < a.sequence)

end PrioritizedFrame

structure StreamMultiplexer where
  config : MultiplexerConfig
  streams : AList (fun _ : StreamId => LogicalStream)
  sendQueue : List PrioritizedFrame
  nextStreamId : UInt32
  enqueueSeq : UInt64

namespace StreamMultiplexer

def new (config : MultiplexerConfig) : StreamMultiplexer :=
  { config, streams := ∅, sendQueue := [], nextStreamId := 1, enqueueSeq := 0 }

/-- What writing through `get_mut`, or inserting, does. -/
def setStream (mux : StreamMultiplexer) (id : StreamId) (stream : LogicalStream) :
    StreamMultiplexer :=
  { mux with streams := mux.streams.insert id stream }

def weight (mux : StreamMultiplexer) (priority : StreamPriority) : Nat :=
  if mux.config.enablePriority then priority.weight else 0

/-- A frame is pushed with the next number of the queue. -/
def enqueue (mux : StreamMultiplexer) (priority : StreamPriority) (frame : StreamFrame) :
    StreamMultiplexer :=
  { mux with
    sendQueue := mux.sendQueue ++ [⟨mux.weight priority, mux.enqueueSeq, frame⟩]
    enqueueSeq := mux.enqueueSeq + 1 }

def enqueueControl (mux : StreamMultiplexer) (streamId : StreamId) (flags : UInt8)
    (sequence : UInt64) (priority : StreamPriority) (now : UInt64) : StreamMultiplexer :=
  mux.enqueue priority { streamId, sequence, data := [], flags, timestamp := now }

def openStream (mux : StreamMultiplexer) (priority : StreamPriority) :
    Except MuxError StreamId × StreamMultiplexer :=
  if mux.config.maxStreams ≤ mux.streams.entries.length then (.error .maxStreamsReached, mux)
  else
    let id := mux.nextStreamId
    let stream : LogicalStream :=
      { priority, state := .open, sendWindow := mux.config.defaultWindowSize, sendSeq := 1,
        recvSeq := 0, recvBuffer := [], recvBufferMax := mux.config.recvBufferCapacity }
    let mux := { mux.setStream id stream with nextStreamId := id + 1 }
    (.ok id, mux.enqueueControl id flagSyn 0 priority 0)

def openStreamWithPriority (mux : StreamMultiplexer) (priorityRaw : UInt8) :
    Except MuxError StreamId × StreamMultiplexer :=
  mux.openStream (priorityFromU8 priorityRaw)

def closeStream (mux : StreamMultiplexer) (id : StreamId) :
    Except MuxError Unit × StreamMultiplexer :=
  match mux.streams.lookup id with
  | none => (.error (.streamNotFound id), mux)
  | some stream =>
    if stream.state = .closed ∨ stream.state = .reset then (.error (.streamNotOpen id), mux)
    else
      let closing := { stream with sendSeq := stream.sendSeq + 1, state := .halfClosed }
      (.ok (), (mux.setStream id closing).enqueueControl id flagFin stream.sendSeq
        stream.priority 0)

/-- One round of the loop of `send`. -/
def sendChunk (id : StreamId) (now : UInt64) (mux : StreamMultiplexer) (chunk : List UInt8) :
    Except MuxError StreamMultiplexer :=
  match mux.streams.lookup id with
  | none => .error (.streamNotFound id)
  | some stream =>
    let sending := { stream with
      sendSeq := stream.sendSeq + 1
      sendWindow := .ofNat (stream.sendWindow.toNat - chunk.length) }
    .ok ((mux.setStream id sending).enqueue stream.priority
      { streamId := id, sequence := stream.sendSeq, data := chunk, flags := 0, timestamp := now })

/-- The loop of `send`. -/
def sendChunks (id : StreamId) (now : UInt64) :
    List (List UInt8) → StreamMultiplexer → Except MuxError Unit × StreamMultiplexer
  | [], mux => (.ok (), mux)
  | chunk :: chunks, mux =>
    match sendChunk id now mux chunk with
    | .error e => (.error e, mux)
    | .ok mux => sendChunks id now chunks mux

def send (mux : StreamMultiplexer) (id : StreamId) (data : List UInt8) (now : UInt64) :
    Except MuxError Nat × StreamMultiplexer :=
  match mux.streams.lookup id with
  | none => (.error (.streamNotFound id), mux)
  | some stream =>
    if stream.state ≠ .open then (.error (.streamNotOpen id), mux)
    else if stream.sendWindow.toNat < data.length then (.error (.windowExhausted id), mux)
    else
      let (result, mux) :=
        sendChunks id now (chunksOf (max mux.config.maxFrameSize 1) data.length data) mux
      (result.map fun _ => data.length, mux)

def receiveEvents (mux : StreamMultiplexer) (frame : StreamFrame) :
    Except MuxError (List MuxEvent) × StreamMultiplexer :=
  let id := frame.streamId
  if frame.isSyn then
    if (mux.streams.lookup id).isSome then (.error (.streamAlreadyOpen id), mux)
    else if mux.config.maxStreams ≤ mux.streams.entries.length then
      (.error .maxStreamsReached, mux)
    else
      let stream : LogicalStream :=
        { priority := .normal, state := .open, sendWindow := mux.config.defaultWindowSize,
          sendSeq := 0, recvSeq := 1, recvBuffer := [],
          recvBufferMax := mux.config.recvBufferCapacity }
      (.ok [.streamOpened id], mux.setStream id stream)
  else
    match mux.streams.lookup id with
    | none => (.error (.streamNotFound id), mux)
    | some stream =>
      if frame.isRst then
        (.ok [.streamReset id], mux.setStream id { stream with state := .reset })
      else if frame.sequence ≠ stream.recvSeq then
        (.error (.sequenceError stream.recvSeq frame.sequence), mux)
      else
        let stream := { stream with recvSeq := stream.recvSeq + 1 }
        if frame.isFin then
          let state := if stream.state = .halfClosed then .closed else .halfClosed
          (.ok [.streamClosed id], mux.setStream id { stream with state })
        else if frame.data ≠ [] then
          if stream.recvBufferMax ≤ stream.recvBuffer.length then
            (.ok [.sendBufferFull id], mux.setStream id stream)
          else
            let stream := { stream with recvBuffer := stream.recvBuffer ++ [frame.data] }
            (.ok [.frameReceived id], mux.setStream id stream)
        else (.ok [.frameReceived id], mux.setStream id stream)

def drainRecvBuffer (mux : StreamMultiplexer) (id : StreamId) :
    Except MuxError (List (List UInt8)) × StreamMultiplexer :=
  match mux.streams.lookup id with
  | none => (.error (.streamNotFound id), mux)
  | some stream =>
    (.ok stream.recvBuffer, mux.setStream id { stream with recvBuffer := [] })

def dequeueFrame (mux : StreamMultiplexer) : Option StreamFrame × StreamMultiplexer :=
  match popMax PrioritizedFrame.less mux.sendQueue with
  | none => (none, mux)
  | some (pf, rest) => (some pf.frame, { mux with sendQueue := rest })

def updateWindow (mux : StreamMultiplexer) (id : StreamId) (increment : UInt32) :
    Bool × StreamMultiplexer :=
  match mux.streams.lookup id with
  | none => (false, mux)
  | some stream =>
    let sendWindow := .ofNat (min (stream.sendWindow.toNat + increment.toNat) (2 ^ 32 - 1))
    (true, mux.setStream id { stream with sendWindow })

end StreamMultiplexer

end Ipfrs.Network
