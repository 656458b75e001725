/-
Ipfrs.Network.MultiplexerTheorems — what two multiplexers deliver.

Seen from one stream in one direction, the frames that are queued or under way are a list
(`pending`) at whose end the sender puts frames and from whose head the receiver takes them:
the priorities only mix the lists of different streams. `Carried` is the invariant of one
such list; each call changes it by one of a few moves.
-/
import Ipfrs.Network.Multiplexer

namespace Ipfrs.Network

open Ipfrs.Lib

theorem map_lookup_insert {β γ : Type} (streams : AList (fun _ : StreamId => β)) (id : StreamId)
    (b : β) (g : β → γ) : (fun i => ((streams.insert id b).lookup i).map g)
      = Function.update (fun i => (streams.lookup i).map g) id (some (g b)) := by
  funext i
  by_cases hi : i = id
  · rw [hi, AList.lookup_insert, Function.update_self, Option.map_some]
  · rw [AList.lookup_insert_ne hi, Function.update_of_ne hi]

namespace StreamFrame

theorem decode_encode {frame : StreamFrame} (h : frame.data.length < 2 ^ 32) :
    decode frame.encode = .ok frame := by
  have hencode : frame.encode = leBytes 4 frame.streamId.toNat ++ (leBytes 8 frame.sequence.toNat
      ++ (leBytes 4 frame.data.length
        ++ (frame.flags :: (leBytes 8 frame.timestamp.toNat ++ frame.data)))) := by
    simp [encode]
  have hlen : frame.encode.length = headerLen + frame.data.length := by
    simp [hencode, headerLen]
    omega
  have htake : frame.encode.take 4 = leBytes 4 frame.streamId.toNat := by
    rw [hencode, List.take_left' (length_leBytes ..)]
  have hdrop₄ : frame.encode.drop 4 = leBytes 8 frame.sequence.toNat
      ++ (leBytes 4 frame.data.length
        ++ (frame.flags :: (leBytes 8 frame.timestamp.toNat ++ frame.data))) := by
    rw [hencode, List.drop_left' (length_leBytes ..)]
  have hdrop₁₂ : frame.encode.drop 12 = leBytes 4 frame.data.length
      ++ (frame.flags :: (leBytes 8 frame.timestamp.toNat ++ frame.data)) := by
    rw [show 12 = 4 + 8 from rfl, ← List.drop_drop, hdrop₄, List.drop_left' (length_leBytes ..)]
  have hdrop₁₆ : frame.encode.drop 16
      = frame.flags :: (leBytes 8 frame.timestamp.toNat ++ frame.data) := by
    rw [show 16 = 12 + 4 from rfl, ← List.drop_drop, hdrop₁₂, List.drop_left' (length_leBytes ..)]
  have hdrop₁₇ : frame.encode.drop 17 = leBytes 8 frame.timestamp.toNat ++ frame.data := by
    rw [show 17 = 16 + 1 from rfl, ← List.drop_drop, hdrop₁₆, List.drop_one, List.tail_cons]
  have hdrop₂₅ : frame.encode.drop headerLen = frame.data := by
    rw [show headerLen = 17 + 8 from rfl, ← List.drop_drop, hdrop₁₇,
      List.drop_left' (length_leBytes ..)]
  have hflags : frame.encode[16]? = some frame.flags := by
    rw [← List.head?_drop, hdrop₁₆, List.head?_cons]
  have hpayload : leNat ((frame.encode.drop 12).take 4) = frame.data.length := by
    rw [hdrop₁₂, List.take_left' (length_leBytes ..), leNat_leBytes_of_lt (by omega)]
  rw [decode, if_neg (by omega)]
  simp only [hpayload]
  rw [if_neg (by omega), htake, hdrop₄, hdrop₁₇, hdrop₂₅, hflags,
    List.take_left' (length_leBytes ..), List.take_left' (length_leBytes ..), List.take_length,
    leNat_leBytes_of_lt frame.streamId.toNat_lt, leNat_leBytes_of_lt frame.sequence.toNat_lt,
    leNat_leBytes_of_lt frame.timestamp.toNat_lt]
  simp

end StreamFrame

/-! ## One stream in one direction -/

/-- The frame that opens a stream. -/
structure IsOpening (frame : StreamFrame) : Prop where
  isSyn : frame.isSyn
  sequence : frame.sequence = 0
  data : frame.data = []

/-- A frame with this number on an open stream. -/
structure IsNumbered (n : UInt64) (frame : StreamFrame) : Prop where
  sequence : frame.sequence = n
  not_syn : ¬ frame.isSyn
  not_rst : ¬ frame.isRst
  fin : frame.isFin → frame.data = []

def Numbered : UInt64 → List StreamFrame → Prop
  | _, [] => True
  | n, frame :: frames => IsNumbered n frame ∧ Numbered (n + 1) frames

theorem numbered_append_singleton {frame : StreamFrame} : ∀ {n : UInt64} {frames},
    Numbered n frames → IsNumbered (n + .ofNat frames.length) frame →
      Numbered n (frames ++ [frame])
  | n, [], _, h => by simpa [Numbered] using h
  | n, _ :: frames, ⟨hhead, hrest⟩, h => by
    refine ⟨hhead, numbered_append_singleton hrest ?_⟩
    rwa [List.length_cons, UInt64.ofNat_add, UInt64.add_comm (.ofNat _), ← UInt64.add_assoc] at h

/-- The sender's next number (if it has the stream), the receiver's next number and its
buffered bytes (if it has the stream), the frames on the way, the bytes sent and drained. -/
def Carried (send : Option UInt64) (recv : Option (UInt64 × List UInt8))
    (pending : List StreamFrame) (sent drained : List UInt8) : Prop :=
  match send, recv with
  | none, none => pending = [] ∧ sent = [] ∧ drained = []
  | none, some (n, buffered) =>
    n = 0 ∧ buffered = [] ∧ pending = [] ∧ sent = [] ∧ drained = []
  | some m, none => ∃ syn frames, pending = syn :: frames ∧ IsOpening syn ∧ Numbered 1 frames
      ∧ m = 1 + .ofNat frames.length ∧ sent = frames.flatMap StreamFrame.data ∧ drained = []
  | some m, some (n, buffered) => Numbered n pending ∧ m = n + .ofNat pending.length
      ∧ sent = drained ++ buffered ++ pending.flatMap StreamFrame.data

namespace Carried

variable {send : Option UInt64} {recv : Option (UInt64 × List UInt8)}
  {pending : List StreamFrame} {sent drained : List UInt8} {frame : StreamFrame}

theorem opened (h : Carried none none pending sent drained) (hsyn : IsOpening frame) :
    Carried (some 1) none (pending ++ [frame]) sent drained := by
  obtain ⟨rfl, rfl, rfl⟩ := h
  exact ⟨frame, [], rfl, hsyn, trivial, by simp, rfl, rfl⟩

theorem opened_by_receiver (h : Carried none none pending sent drained) :
    Carried none (some (0, [])) pending sent drained :=
  ⟨rfl, rfl, h⟩

theorem accepted (h : Carried none recv pending sent drained) (hrecv : recv.isSome) :
    Carried (some 0) recv pending sent drained := by
  cases recv with
  | none => cases hrecv
  | some recv =>
    obtain ⟨hn, hbuffered, rfl, rfl, rfl⟩ := h
    exact ⟨trivial, by simp [hn], by simp [hbuffered]⟩

theorem pushed {m : UInt64} (h : Carried (some m) recv pending sent drained)
    (hframe : IsNumbered m frame) :
    Carried (some (m + 1)) recv (pending ++ [frame]) (sent ++ frame.data) drained := by
  cases recv with
  | none =>
    obtain ⟨syn, frames, rfl, hsyn, hframes, rfl, rfl, rfl⟩ := h
    refine ⟨syn, frames ++ [frame], rfl, hsyn, numbered_append_singleton hframes hframe, ?_,
      ?_, rfl⟩
    · rw [List.length_append, UInt64.ofNat_add, UInt64.add_assoc]
      rfl
    · simp
  | some recv =>
    obtain ⟨hframes, rfl, rfl⟩ := h
    refine ⟨numbered_append_singleton hframes hframe, ?_, ?_⟩
    · rw [List.length_append, UInt64.ofNat_add, UInt64.add_assoc]
      rfl
    · simp

/-- The opening frame finds a receiver without the stream. -/
theorem received_syn (h : Carried send recv (frame :: pending) sent drained)
    (hsyn : frame.isSyn) : recv = none ∧ send.isSome
      ∧ Carried send (some (1, [])) pending sent drained := by
  cases send with
  | none => cases recv <;> simp [Carried] at h
  | some m =>
    cases recv with
    | none =>
      obtain ⟨syn, frames, heq, -, hframes, hm, hsent, rfl⟩ := h
      cases heq
      exact ⟨rfl, rfl, hframes, hm, by simpa using hsent⟩
    | some recv => exact absurd hsyn h.1.1.not_syn

/-- Any other frame finds a receiver that waits for it. -/
theorem received (h : Carried send recv (frame :: pending) sent drained)
    (hsyn : ¬ frame.isSyn) : ∃ n buffered, recv = some (n, buffered) ∧ IsNumbered n frame
      ∧ Carried send (some (n + 1, buffered ++ frame.data)) pending sent drained := by
  cases send with
  | none => cases recv <;> simp [Carried] at h
  | some m =>
    cases recv with
    | none =>
      obtain ⟨syn, frames, heq, hopening, -⟩ := h
      cases heq
      exact absurd hopening.isSyn hsyn
    | some recv =>
      obtain ⟨⟨hframe, hframes⟩, hm, hsent⟩ := h
      refine ⟨recv.1, recv.2, rfl, hframe, hframes, ?_, by simpa using hsent⟩
      rw [hm, List.length_cons, UInt64.ofNat_add, UInt64.add_comm (.ofNat _),
        ← UInt64.add_assoc]
      rfl

theorem drain {n : UInt64} {buffered : List UInt8}
    (h : Carried send (some (n, buffered)) pending sent drained) :
    Carried send (some (n, [])) pending sent (drained ++ buffered) := by
  cases send with
  | none =>
    obtain ⟨rfl, rfl, rfl, rfl, rfl⟩ := h
    exact ⟨rfl, rfl, rfl, rfl, rfl⟩
  | some m =>
    obtain ⟨hframes, hm, rfl⟩ := h
    exact ⟨hframes, hm, by simp⟩

theorem prefix_sent (h : Carried send recv pending sent drained) : drained <+: sent := by
  cases send with
  | none => cases recv <;> simp_all [Carried]
  | some m =>
    cases recv with
    | none =>
      obtain ⟨_, _, -, -, -, -, -, rfl⟩ := h
      exact List.nil_prefix
    | some recv =>
      obtain ⟨-, -, rfl⟩ := h
      rw [List.append_assoc]
      exact List.prefix_append _ _

end Carried

/-! ## One multiplexer -/

namespace StreamMultiplexer

/-- The number that the stream sends next. -/
def sendSeqOf (mux : StreamMultiplexer) (id : StreamId) : Option UInt64 :=
  (mux.streams.lookup id).map LogicalStream.sendSeq

/-- The number that the stream receives next, and the bytes it has buffered. -/
def receivedBy (mux : StreamMultiplexer) (id : StreamId) : Option (UInt64 × List UInt8) :=
  (mux.streams.lookup id).map fun stream => (stream.recvSeq, stream.recvBuffer.flatten)

/-- The weight of the stream's frames. -/
def weightOf (mux : StreamMultiplexer) (id : StreamId) : Option Nat :=
  (mux.streams.lookup id).map fun stream => mux.weight stream.priority

/-- The frames that are queued. -/
def queued (mux : StreamMultiplexer) : List StreamFrame :=
  mux.sendQueue.map PrioritizedFrame.frame

/-- The queue's numbers grow, and each frame has the weight of its stream. -/
structure Ordered (mux : StreamMultiplexer) : Prop where
  sorted : mux.sendQueue.Pairwise fun a b => a.sequence < b.sequence
  below : ∀ pf ∈ mux.sendQueue, pf.sequence < mux.enqueueSeq
  weight : ∀ pf ∈ mux.sendQueue, mux.weightOf pf.frame.streamId = some pf.priorityWeight

variable {mux mux' : StreamMultiplexer} {id i : StreamId} {stream stream' : LogicalStream}

section SetStream

variable (mux : StreamMultiplexer) (id : StreamId) (stream : LogicalStream)

theorem sendSeqOf_setStream : (mux.setStream id stream).sendSeqOf
    = Function.update mux.sendSeqOf id (some stream.sendSeq) := map_lookup_insert ..

theorem receivedBy_setStream : (mux.setStream id stream).receivedBy
    = Function.update mux.receivedBy id (some (stream.recvSeq, stream.recvBuffer.flatten)) :=
  map_lookup_insert ..

theorem weightOf_setStream : (mux.setStream id stream).weightOf
    = Function.update mux.weightOf id (some (mux.weight stream.priority)) := map_lookup_insert ..

end SetStream

theorem Ordered.setStream (h : mux.Ordered)
    (hweight : ∀ w, mux.weightOf id = some w → w = mux.weight stream.priority) :
    (mux.setStream id stream).Ordered := by
  refine ⟨h.sorted, h.below, fun pf hpf => ?_⟩
  have hold := h.weight pf hpf
  rw [weightOf_setStream]
  by_cases hid : pf.frame.streamId = id
  · rw [hid] at hold ⊢
    rw [Function.update_self, hweight _ hold]
  · rwa [Function.update_of_ne hid]

/-- A frame put on a queue whose number does not wrap. -/
theorem Ordered.enqueue {priority : StreamPriority} {frame : StreamFrame} (h : mux.Ordered)
    (hroom : mux.enqueueSeq.toNat + 1 < 2 ^ 64)
    (hweight : mux.weightOf frame.streamId = some (mux.weight priority)) :
    (mux.enqueue priority frame).Ordered := by
  have hnext : (mux.enqueueSeq + 1).toNat = mux.enqueueSeq.toNat + 1 := by
    rw [UInt64.toNat_add, UInt64.toNat_one, Nat.mod_eq_of_lt hroom]
  refine ⟨?_, fun pf hpf => ?_, fun pf hpf => ?_⟩
  · refine List.pairwise_append.mpr ⟨h.sorted, List.pairwise_singleton _ _, fun a ha b hb => ?_⟩
    cases List.mem_singleton.mp hb
    exact h.below a ha
  · rw [UInt64.lt_iff_toNat_lt]
    show _ < (mux.enqueueSeq + 1).toNat
    obtain hpf | hpf := List.mem_append.mp hpf
    · have hbelow := UInt64.lt_iff_toNat_lt.mp (h.below pf hpf)
      omega
    · cases List.mem_singleton.mp hpf
      show mux.enqueueSeq.toNat < _
      omega
  · obtain hpf | hpf := List.mem_append.mp hpf
    · exact h.weight pf hpf
    · cases List.mem_singleton.mp hpf
      exact hweight

/-- Of one stream, no frame is greater than the one before it. -/
theorem Ordered.fifo (h : mux.Ordered) (id : StreamId) :
    mux.sendQueue.Pairwise fun a b => decide (a.frame.streamId = id) →
      decide (b.frame.streamId = id) → a.less b = false := by
  refine h.sorted.imp_of_mem fun {a b} ha hb hlt hida hidb => ?_
  have hweight : a.priorityWeight = b.priorityWeight := by
    have hwa := h.weight a ha
    have hwb := h.weight b hb
    rw [of_decide_eq_true hida] at hwa
    rw [of_decide_eq_true hidb, hwa] at hwb
    exact Option.some.inj hwb
  simp [PrioritizedFrame.less, hweight, UInt64.le_of_lt hlt]

theorem dequeueFrame_eq (mux : StreamMultiplexer) : mux.dequeueFrame = (none, mux) ∨ ∃ pf rest,
      popMax PrioritizedFrame.less mux.sendQueue = some (pf, rest)
        ∧ mux.dequeueFrame = (some pf.frame, { mux with sendQueue := rest }) := by
  rw [dequeueFrame]
  split
  · exact .inl rfl
  · next pf rest h => exact .inr ⟨pf, rest, h, rfl⟩

/-- The frames of a stream leave the queue in the order in which they entered. -/
theorem filter_queued {pf : PrioritizedFrame} {rest : List PrioritizedFrame} (h : mux.Ordered)
    (hpop : popMax PrioritizedFrame.less mux.sendQueue = some (pf, rest)) (id : StreamId) :
    mux.queued.filter (·.streamId = id) = [pf.frame].filter (·.streamId = id)
        ++ (rest.map PrioritizedFrame.frame).filter (·.streamId = id) := by
  have hfilter := congrArg (List.map PrioritizedFrame.frame) (filter_popMax (h.fifo id) hpop)
  rw [List.map_append] at hfilter
  rw [queued, List.filter_map, List.filter_map,
    show [pf.frame] = [pf].map PrioritizedFrame.frame from rfl, List.filter_map]
  exact hfilter

end StreamMultiplexer

/-! ## What the calls do to a multiplexer -/

namespace StreamMultiplexer

variable {mux mux' : StreamMultiplexer} {id : StreamId} {stream : LogicalStream}

/-- The queue's counter does not wrap within `n` frames. -/
def HasRoom (mux : StreamMultiplexer) (n : Nat) : Prop := mux.enqueueSeq.toNat + n < 2 ^ 64

instance (n : Nat) : Decidable (mux.HasRoom n) :=
  inferInstanceAs (Decidable (_ < _))

/-- A stream is opened and its first frame queued. -/
structure Opens (mux mux' : StreamMultiplexer) (id : StreamId) (frame : StreamFrame) : Prop where
  sendSeqOf : mux'.sendSeqOf = Function.update mux.sendSeqOf id (some 1)
  receivedBy : mux'.receivedBy = Function.update mux.receivedBy id (some (0, []))
  queued : mux'.queued = mux.queued ++ [frame]
  streamId : frame.streamId = id
  opening : IsOpening frame
  ordered : mux.Ordered → mux.weightOf id = none → mux.HasRoom 1 → mux'.Ordered

/-- A frame with the stream's next number is queued. -/
structure Pushes (mux mux' : StreamMultiplexer) (id : StreamId) (m : UInt64)
    (frame : StreamFrame) : Prop where
  sendSeq : mux.sendSeqOf id = some m
  sendSeqOf : mux'.sendSeqOf = Function.update mux.sendSeqOf id (some (m + 1))
  receivedBy : mux'.receivedBy = mux.receivedBy
  queued : mux'.queued = mux.queued ++ [frame]
  streamId : frame.streamId = id
  numbered : IsNumbered m frame
  enqueueSeq : mux'.enqueueSeq = mux.enqueueSeq + 1
  ordered : mux.Ordered → mux.HasRoom 1 → mux'.Ordered

theorem sendSeqOf_of_lookup (h : mux.streams.lookup id = some stream) :
    mux.sendSeqOf id = some stream.sendSeq := by rw [sendSeqOf, h, Option.map_some]

theorem receivedBy_of_lookup (h : mux.streams.lookup id = some stream) :
    mux.receivedBy id = some (stream.recvSeq, stream.recvBuffer.flatten) := by
  rw [receivedBy, h, Option.map_some]

theorem weightOf_of_lookup (h : mux.streams.lookup id = some stream) :
    mux.weightOf id = some (mux.weight stream.priority) := by rw [weightOf, h, Option.map_some]

theorem isSome_sendSeqOf (mux : StreamMultiplexer) (id : StreamId) :
    (mux.sendSeqOf id).isSome = (mux.receivedBy id).isSome := by
  simp [sendSeqOf, receivedBy]

theorem queued_enqueue (mux : StreamMultiplexer) (priority : StreamPriority)
    (frame : StreamFrame) : (mux.enqueue priority frame).queued = mux.queued ++ [frame] := by
  simp [queued, enqueue]

theorem opens_enqueue {n : UInt32} (hsend : stream.sendSeq = 1) (hrecv : stream.recvSeq = 0)
    (hbuffer : stream.recvBuffer = []) :
    Opens mux ({ mux.setStream id stream with nextStreamId := n }.enqueueControl id flagSyn 0
      stream.priority 0) id ⟨id, 0, [], flagSyn, 0⟩ where
  sendSeqOf := by
    rw [← hsend]
    exact sendSeqOf_setStream ..
  receivedBy := by
    have h := receivedBy_setStream mux id stream
    rw [hrecv, hbuffer] at h
    exact h
  queued := queued_enqueue ..
  streamId := rfl
  opening := ⟨show decide (flagSyn &&& flagSyn ≠ 0) by decide, rfl, rfl⟩
  ordered hord hnew hroom := by
    have hset : (mux.setStream id stream).Ordered := hord.setStream fun w hw => by
      rw [hnew] at hw
      cases hw
    refine Ordered.enqueue ⟨hset.sorted, hset.below, hset.weight⟩ hroom ?_
    exact (congrFun (weightOf_setStream ..) id).trans (Function.update_self ..)

theorem openStream_spec (mux : StreamMultiplexer) (priority : StreamPriority) :
    (mux.openStream priority).2 = mux
      ∨ ∃ frame, Opens mux (mux.openStream priority).2 mux.nextStreamId frame := by
  rw [openStream]
  split
  · exact .inl rfl
  · exact .inr ⟨_, opens_enqueue rfl rfl rfl⟩

/-- The two steps of queueing a frame on a stream. -/
theorem pushes_enqueue {sending : LogicalStream} {frame : StreamFrame}
    (h : mux.streams.lookup id = some stream) (hsend : sending.sendSeq = stream.sendSeq + 1)
    (hrecv : (sending.recvSeq, sending.recvBuffer) = (stream.recvSeq, stream.recvBuffer))
    (hpriority : sending.priority = stream.priority) (hid : frame.streamId = id)
    (hframe : IsNumbered stream.sendSeq frame) :
    Pushes mux ((mux.setStream id sending).enqueue stream.priority frame) id stream.sendSeq
      frame where
  sendSeq := sendSeqOf_of_lookup h
  sendSeqOf := by
    rw [← hsend]
    exact sendSeqOf_setStream ..
  receivedBy := by
    have hset := receivedBy_setStream mux id sending
    rw [(Prod.mk.inj hrecv).1, (Prod.mk.inj hrecv).2, ← receivedBy_of_lookup h,
      Function.update_eq_self] at hset
    exact hset
  queued := queued_enqueue ..
  streamId := hid
  numbered := hframe
  enqueueSeq := rfl
  ordered hord hroom := by
    have hweight := weightOf_of_lookup h
    have hset : (mux.setStream id sending).Ordered := hord.setStream fun w hw => by
      rw [hweight] at hw
      rw [hpriority]
      exact (Option.some.inj hw).symm
    refine hset.enqueue hroom ?_
    rw [weightOf_setStream, hid, Function.update_self, hpriority]
    rfl

theorem sendChunk_spec (now : UInt64) (chunk : List UInt8)
    (h : mux.streams.lookup id = some stream) : ∃ frame mux', sendChunk id now mux chunk = .ok mux'
      ∧ Pushes mux mux' id stream.sendSeq frame ∧ frame.data = chunk := by
  rw [sendChunk, h]
  refine ⟨_, _, rfl, pushes_enqueue h rfl rfl rfl rfl ?_, rfl⟩
  exact ⟨rfl, show ¬ decide ((0 : UInt8) &&& flagSyn ≠ 0) by decide,
    show ¬ decide ((0 : UInt8) &&& flagRst ≠ 0) by decide,
    fun hfin => absurd hfin (show ¬ decide ((0 : UInt8) &&& flagFin ≠ 0) by decide)⟩

/-- The chunks that `send` cuts its data into. -/
def chunksFor (mux : StreamMultiplexer) (data : List UInt8) : List (List UInt8) :=
  chunksOf (max mux.config.maxFrameSize 1) data.length data

theorem flatten_chunksFor (mux : StreamMultiplexer) (data : List UInt8) :
    (mux.chunksFor data).flatten = data :=
  flatten_chunksOf (by omega) data.length data (Nat.le_refl _)

theorem send_spec (mux : StreamMultiplexer) (id : StreamId) (data : List UInt8) (now : UInt64) :
    (∃ e, mux.send id data now = (.error e, mux)) ∨ (mux.sendSeqOf id).isSome
      ∧ data.length < 2 ^ 32 ∧ ∀ mux', sendChunks id now (mux.chunksFor data) mux = (.ok (), mux') →
        mux.send id data now = (.ok data.length, mux') := by
  rw [send]
  split
  · exact .inl ⟨_, rfl⟩
  · next stream h =>
    split
    · exact .inl ⟨_, rfl⟩
    · split
      · exact .inl ⟨_, rfl⟩
      · next hwindow =>
        have hlt := stream.sendWindow.toNat_lt
        refine .inr ⟨by rw [sendSeqOf_of_lookup h]; rfl, by omega, fun mux' hchunks => ?_⟩
        rw [chunksFor] at hchunks
        rw [hchunks]
        rfl

theorem closeStream_spec (mux : StreamMultiplexer) (id : StreamId) : (mux.closeStream id).2 = mux
      ∨ ∃ m frame, Pushes mux (mux.closeStream id).2 id m frame ∧ frame.data = [] := by
  rw [closeStream]
  split
  · exact .inl rfl
  · next stream h =>
    split
    · exact .inl rfl
    · refine .inr ⟨stream.sendSeq, _, pushes_enqueue h rfl rfl rfl rfl ?_, rfl⟩
      exact ⟨rfl, show ¬ decide (flagFin &&& flagSyn ≠ 0) by decide,
        show ¬ decide (flagFin &&& flagRst ≠ 0) by decide, fun _ => rfl⟩

/-- Nothing changes for the frames to send. -/
structure Keeps (mux mux' : StreamMultiplexer) : Prop where
  sendSeqOf : mux'.sendSeqOf = mux.sendSeqOf
  queued : mux'.queued = mux.queued
  ordered : mux.Ordered → mux'.Ordered

theorem Keeps.refl (mux : StreamMultiplexer) : Keeps mux mux := ⟨rfl, rfl, id⟩

theorem keeps_setStream {stream' : LogicalStream} (h : mux.streams.lookup id = some stream)
    (hsend : stream'.sendSeq = stream.sendSeq) (hpriority : stream'.priority = stream.priority) :
    Keeps mux (mux.setStream id stream') where
  sendSeqOf := by
    rw [sendSeqOf_setStream, hsend, ← sendSeqOf_of_lookup h, Function.update_eq_self]
  queued := rfl
  ordered hord := hord.setStream fun w hw => by
    rw [weightOf_of_lookup h] at hw
    rw [hpriority]
    exact (Option.some.inj hw).symm

theorem updateWindow_spec (mux : StreamMultiplexer) (id : StreamId) (increment : UInt32) :
    Keeps mux (mux.updateWindow id increment).2
      ∧ (mux.updateWindow id increment).2.receivedBy = mux.receivedBy := by
  rw [updateWindow]
  split
  · exact ⟨.refl mux, rfl⟩
  · next stream h =>
    refine ⟨keeps_setStream h rfl rfl, ?_⟩
    rw [receivedBy_setStream, ← receivedBy_of_lookup h, Function.update_eq_self]

theorem drainRecvBuffer_spec (mux : StreamMultiplexer) (id : StreamId) :
    (∃ e, mux.drainRecvBuffer id = (.error e, mux)) ∨ ∃ payloads mux' n,
      mux.drainRecvBuffer id = (.ok payloads, mux') ∧ Keeps mux mux'
        ∧ mux.receivedBy id = some (n, payloads.flatten)
        ∧ mux'.receivedBy = Function.update mux.receivedBy id (some (n, [])) := by
  rw [drainRecvBuffer]
  split
  · exact .inl ⟨_, rfl⟩
  · next stream h =>
    exact .inr ⟨_, _, stream.recvSeq, rfl, keeps_setStream h rfl rfl, receivedBy_of_lookup h,
      receivedBy_setStream ..⟩

variable {frame : StreamFrame}

/-- The table of streams and the buffers have room for what the frame needs. -/
def Roomy (mux : StreamMultiplexer) (frame : StreamFrame) : Prop :=
  if frame.isSyn then mux.streams.entries.length < mux.config.maxStreams
  else ∀ stream ∈ mux.streams.lookup frame.streamId,
    stream.recvBuffer.length < stream.recvBufferMax

instance : Decidable (mux.Roomy frame) := by
  unfold Roomy
  infer_instance

/-- A stream of the other side's is accepted. -/
theorem receiveEvents_syn (hsyn : frame.isSyn) (hnew : mux.receivedBy frame.streamId = none)
    (hroomy : mux.Roomy frame) : ∃ events mux', mux.receiveEvents frame = (.ok events, mux')
      ∧ mux'.sendSeqOf = Function.update mux.sendSeqOf frame.streamId (some 0)
      ∧ mux'.receivedBy = Function.update mux.receivedBy frame.streamId (some (1, []))
      ∧ mux'.queued = mux.queued ∧ (mux.Ordered → mux'.Ordered) := by
  rw [Roomy, if_pos hsyn] at hroomy
  have hlookup : mux.streams.lookup frame.streamId = none := Option.map_eq_none_iff.mp hnew
  simp only [receiveEvents]
  rw [if_pos hsyn, if_neg (by simp [hlookup]), if_neg (not_le.mpr hroomy)]
  refine ⟨_, _, rfl, sendSeqOf_setStream .., receivedBy_setStream .., rfl, fun hord => ?_⟩
  refine hord.setStream fun w hw => ?_
  rw [weightOf, hlookup] at hw
  cases hw

/-- The frame that a stream waits for is taken. -/
theorem receiveEvents_numbered {n : UInt64} {buffered : List UInt8}
    (hrecv : mux.receivedBy frame.streamId = some (n, buffered)) (hframe : IsNumbered n frame)
    (hroomy : mux.Roomy frame) : ∃ events mux', mux.receiveEvents frame = (.ok events, mux')
      ∧ Keeps mux mux' ∧ mux'.receivedBy
        = Function.update mux.receivedBy frame.streamId (some (n + 1, buffered ++ frame.data)) := by
  rw [Roomy, if_neg hframe.not_syn] at hroomy
  obtain ⟨stream, hlookup, hstream⟩ := Option.map_eq_some_iff.mp hrecv
  obtain ⟨rfl, rfl⟩ := Prod.mk.inj hstream
  simp only [receiveEvents]
  rw [if_neg hframe.not_syn, hlookup]
  simp only
  rw [if_neg hframe.not_rst, if_neg (not_not.mpr hframe.sequence)]
  split
  · next hfin =>
    refine ⟨_, _, rfl, keeps_setStream hlookup rfl rfl, ?_⟩
    rw [receivedBy_setStream, hframe.fin hfin, List.append_nil]
  · split
    · rw [if_neg (not_le.mpr (hroomy stream hlookup))]
      refine ⟨_, _, rfl, keeps_setStream hlookup rfl rfl, ?_⟩
      rw [receivedBy_setStream, List.flatten_append, List.flatten_singleton]
    · next hdata =>
      refine ⟨_, _, rfl, keeps_setStream hlookup rfl rfl, ?_⟩
      rw [receivedBy_setStream, not_not.mp hdata, List.append_nil]

end StreamMultiplexer

/-! ## All streams in one direction -/

/-- Every stream from `mx` to `my` is carried, and no frame is too long for its length field. -/
structure Direction (mx my : StreamMultiplexer) (link : List StreamFrame)
    (sent drained : StreamId → List UInt8) : Prop where
  carried : ∀ id, Carried (mx.sendSeqOf id) (my.receivedBy id)
    ((link ++ mx.queued).filter (·.streamId = id)) (sent id) (drained id)
  short : ∀ frame ∈ link ++ mx.queued, frame.data.length < 2 ^ 32

namespace Direction

variable {mx mx' my my' : StreamMultiplexer} {link : List StreamFrame}
  {sent drained : StreamId → List UInt8} {id : StreamId} {frame : StreamFrame} {m : UInt64}

theorem congr_sender (h : Direction mx my link sent drained)
    (hsend : mx'.sendSeqOf = mx.sendSeqOf) (hqueued : mx'.queued = mx.queued) :
    Direction mx' my link sent drained := by
  refine ⟨fun i => ?_, ?_⟩
  · rw [hsend, hqueued]
    exact h.carried i
  · rw [hqueued]
    exact h.short

theorem congr_receiver (h : Direction mx my link sent drained)
    (hrecv : my'.receivedBy = my.receivedBy) : Direction mx my' link sent drained := by
  refine ⟨fun i => ?_, h.short⟩
  rw [hrecv]
  exact h.carried i

/-- The sender opens a stream that neither side has. -/
theorem opened (h : Direction mx my link sent drained) (hsend : mx.sendSeqOf id = none)
    (hrecv : my.receivedBy id = none)
    (hsend' : mx'.sendSeqOf = Function.update mx.sendSeqOf id (some 1))
    (hqueued : mx'.queued = mx.queued ++ [frame]) (hid : frame.streamId = id)
    (hframe : IsOpening frame) : Direction mx' my link sent drained := by
  refine ⟨fun i => ?_, fun f hf => ?_⟩
  · have hi := h.carried i
    rw [hsend', hqueued, ← List.append_assoc, List.filter_append]
    by_cases heq : i = id
    · subst heq
      rw [hsend, hrecv] at hi
      rw [Function.update_self, hrecv, List.filter_singleton, decide_eq_true hid, cond_true]
      exact hi.opened hframe
    · have hne : frame.streamId ≠ i := fun hi => heq (hi.symm.trans hid)
      rw [Function.update_of_ne heq, List.filter_singleton, decide_eq_false hne, cond_false,
        List.append_nil]
      exact hi
  · rw [hqueued, ← List.append_assoc] at hf
    obtain hf | hf := List.mem_append.mp hf
    · exact h.short f hf
    · rw [List.mem_singleton.mp hf, hframe.data]
      exact Nat.two_pow_pos 32

/-- The receiver opens a stream that neither side has. -/
theorem opened_by_receiver (h : Direction mx my link sent drained)
    (hsend : mx.sendSeqOf id = none) (hrecv : my.receivedBy id = none)
    (hrecv' : my'.receivedBy = Function.update my.receivedBy id (some (0, []))) :
    Direction mx my' link sent drained := by
  refine ⟨fun i => ?_, h.short⟩
  have hi := h.carried i
  rw [hrecv']
  by_cases heq : i = id
  · subst heq
    rw [hsend, hrecv] at hi
    rw [Function.update_self, hsend]
    exact hi.opened_by_receiver
  · rwa [Function.update_of_ne heq]

/-- The sender accepts a stream of the receiver's. -/
theorem accepted (h : Direction mx my link sent drained) (hsend : mx.sendSeqOf id = none)
    (hrecv : (my.receivedBy id).isSome)
    (hsend' : mx'.sendSeqOf = Function.update mx.sendSeqOf id (some 0))
    (hqueued : mx'.queued = mx.queued) : Direction mx' my link sent drained := by
  refine ⟨fun i => ?_, by simpa only [hqueued] using h.short⟩
  have hi := h.carried i
  rw [hsend', hqueued]
  by_cases heq : i = id
  · subst heq
    rw [hsend] at hi
    rw [Function.update_self]
    exact hi.accepted hrecv
  · rwa [Function.update_of_ne heq]

/-- The sender queues a frame with the stream's next number. -/
theorem pushed (h : Direction mx my link sent drained) (hsend : mx.sendSeqOf id = some m)
    (hsend' : mx'.sendSeqOf = Function.update mx.sendSeqOf id (some (m + 1)))
    (hqueued : mx'.queued = mx.queued ++ [frame]) (hid : frame.streamId = id)
    (hframe : IsNumbered m frame) (hshort : frame.data.length < 2 ^ 32) :
    Direction mx' my link (Function.update sent id (sent id ++ frame.data)) drained := by
  refine ⟨fun i => ?_, fun f hf => ?_⟩
  · have hi := h.carried i
    rw [hsend', hqueued, ← List.append_assoc, List.filter_append]
    by_cases heq : i = id
    · subst heq
      rw [hsend] at hi
      rw [Function.update_self, Function.update_self, List.filter_singleton,
        decide_eq_true hid, cond_true]
      exact hi.pushed hframe
    · have hne : frame.streamId ≠ i := fun hi => heq (hi.symm.trans hid)
      rw [Function.update_of_ne heq, Function.update_of_ne heq, List.filter_singleton,
        decide_eq_false hne, cond_false, List.append_nil]
      exact hi
  · rw [hqueued, ← List.append_assoc] at hf
    obtain hf | hf := List.mem_append.mp hf
    · exact h.short f hf
    · rwa [List.mem_singleton.mp hf]

/-- A frame goes from the queue to the link. -/
theorem dequeued (h : Direction mx my link sent drained) (hord : mx.Ordered)
    {pf : PrioritizedFrame} {rest : List PrioritizedFrame}
    (hpop : popMax PrioritizedFrame.less mx.sendQueue = some (pf, rest)) :
    Direction { mx with sendQueue := rest } my (link ++ [pf.frame]) sent drained := by
  obtain ⟨hmem, hsub⟩ := mem_of_popMax hpop
  refine ⟨fun i => ?_, fun f hf => ?_⟩
  · have hi := h.carried i
    rw [List.filter_append, StreamMultiplexer.filter_queued hord hpop, ← List.append_assoc,
      ← List.filter_append, ← List.filter_append] at hi
    exact hi
  · rw [List.append_assoc] at hf
    refine h.short f ?_
    obtain hf | hf := List.mem_append.mp hf
    · exact List.mem_append_left _ hf
    · refine List.mem_append_right _ ?_
      cases hf with
      | head => exact List.mem_map_of_mem hmem
      | tail _ hf => exact (hsub.map PrioritizedFrame.frame).subset hf

theorem tail (h : Direction mx my (frame :: link) sent drained)
    (hcarried : Carried (mx.sendSeqOf frame.streamId) (my'.receivedBy frame.streamId)
      ((link ++ mx.queued).filter (·.streamId = frame.streamId)) (sent frame.streamId)
      (drained frame.streamId))
    (hother : ∀ i, i ≠ frame.streamId → my'.receivedBy i = my.receivedBy i) :
    Direction mx my' link sent drained := by
  refine ⟨fun i => ?_, fun f hf => h.short f (List.mem_cons_of_mem _ hf)⟩
  by_cases heq : i = frame.streamId
  · rw [heq]
    exact hcarried
  · have hi := h.carried i
    rw [List.cons_append, List.filter_cons_of_neg (by simpa using Ne.symm heq)] at hi
    rwa [hother i heq]

theorem carried_head (h : Direction mx my (frame :: link) sent drained) :
    Carried (mx.sendSeqOf frame.streamId) (my.receivedBy frame.streamId)
      (frame :: (link ++ mx.queued).filter (·.streamId = frame.streamId))
      (sent frame.streamId) (drained frame.streamId) := by
  have hi := h.carried frame.streamId
  rwa [List.cons_append, List.filter_cons_of_pos (by simp)] at hi

/-- The receiver drains a stream. -/
theorem drain {n : UInt64} {buffered : List UInt8} (h : Direction mx my link sent drained)
    (hrecv : my.receivedBy id = some (n, buffered))
    (hrecv' : my'.receivedBy = Function.update my.receivedBy id (some (n, []))) :
    Direction mx my' link sent (Function.update drained id (drained id ++ buffered)) := by
  refine ⟨fun i => ?_, h.short⟩
  have hi := h.carried i
  rw [hrecv']
  by_cases heq : i = id
  · subst heq
    rw [hrecv] at hi
    rw [Function.update_self, Function.update_self]
    exact hi.drain
  · rwa [Function.update_of_ne heq, Function.update_of_ne heq]

/-- All chunks of a `send` are queued. -/
theorem sendChunks (now : UInt64) : ∀ {chunks : List (List UInt8)} {mx : StreamMultiplexer}
    {sent : StreamId → List UInt8}, (mx.sendSeqOf id).isSome → mx.Ordered →
    mx.HasRoom chunks.length → (∀ chunk ∈ chunks, chunk.length < 2 ^ 32) →
    Direction mx my link sent drained →
      ∃ mx', StreamMultiplexer.sendChunks id now chunks mx = (.ok (), mx') ∧ mx'.Ordered
        ∧ mx'.receivedBy = mx.receivedBy
        ∧ Direction mx' my link (Function.update sent id (sent id ++ chunks.flatten)) drained
  | [], mx, sent, _, hord, _, _, h => by
    refine ⟨mx, rfl, hord, rfl, ?_⟩
    rwa [List.flatten_nil, List.append_nil, Function.update_eq_self]
  | chunk :: chunks, mx, sent, hsend, hord, hroom, hshort, h => by
    obtain ⟨stream, hlookup, -⟩ := Option.map_eq_some_iff.mp (Option.eq_some_of_isSome hsend)
    obtain ⟨frame, mx₁, hchunk, hpush, rfl⟩ :=
      StreamMultiplexer.sendChunk_spec now chunk hlookup
    rw [StreamMultiplexer.HasRoom, List.length_cons] at hroom
    have hnext : mx₁.HasRoom chunks.length := by
      rw [StreamMultiplexer.HasRoom, hpush.enqueueSeq, UInt64.toNat_add, UInt64.toNat_one,
        Nat.mod_eq_of_lt (by omega)]
      omega
    have hone : mx.HasRoom 1 := by
      rw [StreamMultiplexer.HasRoom]
      omega
    have h₁ := h.pushed hpush.sendSeq hpush.sendSeqOf hpush.queued hpush.streamId hpush.numbered
      (hshort _ List.mem_cons_self)
    obtain ⟨mx', hrest, hord', hrecv, h'⟩ := sendChunks now
      (by rw [hpush.sendSeqOf, Function.update_self]; rfl) (hpush.ordered hord hone) hnext
      (fun c hc => hshort c (List.mem_cons_of_mem _ hc)) h₁
    refine ⟨mx', ?_, hord', hrecv.trans hpush.receivedBy, ?_⟩
    · rw [StreamMultiplexer.sendChunks, hchunk]
      exact hrest
    · rwa [Function.update_self, Function.update_idem, List.append_assoc,
        ← List.flatten_cons] at h'

end Direction

end Ipfrs.Network
