/-
Ipfrs.Transport.ArrowDeframer — Arrow IPC frames out of a byte stream
(`arrow_deframer.rs`).

The source keeps each field that it is reading in a buffer of full length together with
the number of bytes read; here a buffer is the bytes read so far. The unread part of the
data stands for the cursor. Statistics are left out.

Four of the five fields end where `step` ends. The length of the body does not: its `step`
goes on with the body, so what one `step` does can be two fields of `reader`.

The frames of a call are in a list of its own until it returns, so a call that fails takes
the frames before the malformed field with it (`receive_eq_messages_iff`).
-/
import Ipfrs.Lib.Bytes
import Ipfrs.Lib.FieldReader

namespace Ipfrs.Transport

open Ipfrs.Lib

inductive ArrowFrameType
  | schema
  | recordBatch
  | dictionaryBatch
  | eosMarker
  deriving DecidableEq

structure ArrowFrame where
  metadata : List UInt8
  body : List UInt8
  frameType : ArrowFrameType
  sequence : UInt64
  deriving DecidableEq

inductive DeframerError
  | invalidContinuationMarker (got : List UInt8)
  | metadataTooLarge (size max : UInt32)
  | bodyTooLarge (size max : UInt64)
  | unexpectedEof
  deriving DecidableEq

def continuationMarker : List UInt8 := [0xFF, 0xFF, 0xFF, 0xFF]

def bodyLenPending : UInt64 := 0xFFFFFFFFFFFFFFFF

inductive DeframerState
  | waitingForContinuation
  | readingMetadataLen (buf : List UInt8)
  | readingMetadata (len : UInt32) (buf : List UInt8)
  /-- While `bodyLen` is `bodyLenPending`, `buf` holds bytes of the length. -/
  | readingBody (metadata : List UInt8) (bodyLen : UInt64) (buf : List UInt8)
  deriving DecidableEq

structure ArrowStreamDeframer where
  state : DeframerState := .waitingForContinuation
  contBuf : List UInt8 := []
  sequence : UInt64 := 0
  maxMetadataBytes : UInt32 := 64 * 1024 * 1024
  maxBodyBytes : UInt64 := 2 * 1024 * 1024 * 1024
  deriving DecidableEq

namespace ArrowStreamDeframer

def withLimits (maxMetadataBytes : UInt32) (maxBodyBytes : UInt64) : ArrowStreamDeframer :=
  { maxMetadataBytes, maxBodyBytes }

def isIdle (d : ArrowStreamDeframer) : Bool :=
  d.state = .waitingForContinuation ∧ d.contBuf.length = 0

/-- What a call returns, the deframer after it and the data that it did not read. -/
abbrev Step := Except DeframerError (Option ArrowFrame) × ArrowStreamDeframer × List UInt8

/-- The second phase of `ReadingBody`. -/
def readBody (d : ArrowStreamDeframer) (metadata : List UInt8) (bodyLen : UInt64)
    (buf data : List UInt8) : Step :=
  if bodyLen = 0 then
    (.ok (some ⟨metadata, [], .recordBatch, d.sequence⟩),
      { d with state := .waitingForContinuation, sequence := d.sequence + 1 }, data)
  else
    let take := min (bodyLen.toNat - buf.length) data.length
    let buf := buf ++ data.take take
    let data := data.drop take
    if buf.length < bodyLen.toNat then
      (.ok none, { d with state := .readingBody metadata bodyLen buf }, data)
    else
      (.ok (some ⟨metadata, buf, .recordBatch, d.sequence⟩),
        { d with state := .waitingForContinuation, sequence := d.sequence + 1 }, data)

def step (d : ArrowStreamDeframer) (data : List UInt8) : Step :=
  match d.state with
  | .waitingForContinuation =>
    let contBuf := d.contBuf ++ data.take (4 - d.contBuf.length)
    let data := data.drop (4 - d.contBuf.length)
    if contBuf.length < 4 then (.ok none, { d with contBuf }, data)
    else if contBuf ≠ continuationMarker then
      (.error (.invalidContinuationMarker contBuf),
        { d with contBuf := [], state := .waitingForContinuation }, data)
    else (.ok none, { d with contBuf := [], state := .readingMetadataLen [] }, data)
  | .readingMetadataLen buf =>
    let read := 4 - buf.length
    let buf := buf ++ data.take read
    let data := data.drop read
    if buf.length < 4 then (.ok none, { d with state := .readingMetadataLen buf }, data)
    else
      let metaLen := UInt32.ofNat (leNat buf)
      if metaLen = 0 then
        (.ok (some ⟨[], [], .eosMarker, d.sequence⟩),
          { d with state := .waitingForContinuation, sequence := d.sequence + 1 }, data)
      else if d.maxMetadataBytes < metaLen then
        (.error (.metadataTooLarge metaLen d.maxMetadataBytes),
          { d with state := .waitingForContinuation }, data)
      else (.ok none, { d with state := .readingMetadata metaLen [] }, data)
  | .readingMetadata len buf =>
    let take := min (len.toNat - buf.length) data.length
    let buf := buf ++ data.take take
    let data := data.drop take
    if buf.length < len.toNat then (.ok none, { d with state := .readingMetadata len buf }, data)
    else (.ok none, { d with state := .readingBody buf bodyLenPending [] }, data)
  | .readingBody metadata bodyLen buf =>
    if bodyLen = bodyLenPending then
      let read := 8 - buf.length
      let buf := buf ++ data.take read
      let data := data.drop read
      if buf.length < 8 then
        (.ok none, { d with state := .readingBody metadata bodyLenPending buf }, data)
      else
        let bodyLen := UInt64.ofNat (leNat buf)
        if d.maxBodyBytes < bodyLen then
          (.error (.bodyTooLarge bodyLen d.maxBodyBytes),
            { d with state := .waitingForContinuation }, data)
        else readBody d metadata bodyLen [] data
    else readBody d metadata bodyLen buf data

/-- The loop of `push`; `none` says that it takes more rounds than are given. -/
def pushLoop : Nat → ArrowStreamDeframer → List UInt8 → List ArrowFrame →
    Option (Except DeframerError (List ArrowFrame) × ArrowStreamDeframer)
  | 0, _, _, _ => none
  | _ + 1, d, [], frames => some (.ok frames, d)
  | rounds + 1, d, b :: bs, frames =>
    match step d (b :: bs) with
    | (.error e, d, _) => some (.error e, d)
    | (.ok frame, d, data) => pushLoop rounds d data (frames ++ frame.toList)

def push (d : ArrowStreamDeframer) (data : List UInt8) :
    Option (Except DeframerError (List ArrowFrame) × ArrowStreamDeframer) :=
  pushLoop (data.length + 1) d data []

/-- One call of `push` after the other. -/
def pushAll : ArrowStreamDeframer → List (List UInt8) →
    Option (List (Except DeframerError (List ArrowFrame)) × ArrowStreamDeframer)
  | d, [] => some ([], d)
  | d, data :: chunks => do
    let (result, d) ← push d data
    let (results, d) ← pushAll d chunks
    return (result :: results, d)

/-! ## Lengths that cannot be allocated -/

/-- What ends a `push` without its frames: an error, or a body too long to allocate. -/
inductive Failure
  | error (e : DeframerError)
  | capacityOverflow
  deriving DecidableEq

/-- `vec![0u8; body_len]` panics for the length that `buf` is. -/
def overflows (d : ArrowStreamDeframer) (buf : List UInt8) : Bool :=
  match d.state with
  | .readingBody _ bodyLen _ =>
    bodyLen = bodyLenPending && UInt64.ofNat (leNat buf) ≤ d.maxBodyBytes
      && 2 ^ 63 ≤ (UInt64.ofNat (leNat buf)).toNat
  | _ => false

/-- `step`, with the panic: it ends the length of a body that cannot be allocated. -/
def stepAlloc (d : ArrowStreamDeframer) (data : List UInt8) :
    Except Failure (Option ArrowFrame) × ArrowStreamDeframer × List UInt8 :=
  let overflowed := match d.state with
    | .readingBody _ _ buf =>
      8 ≤ buf.length + data.length && d.overflows (buf ++ data.take (8 - buf.length))
    | _ => false
  if overflowed then (.error .capacityOverflow, d, [])
  else ((step d data).1.mapError .error, (step d data).2)

def pushLoopAlloc : Nat → ArrowStreamDeframer → List UInt8 → List ArrowFrame →
    Option (Except Failure (List ArrowFrame) × ArrowStreamDeframer)
  | 0, _, _, _ => none
  | _ + 1, d, [], frames => some (.ok frames, d)
  | rounds + 1, d, b :: bs, frames =>
    match stepAlloc d (b :: bs) with
    | (.error e, d, _) => some (.error e, d)
    | (.ok frame, d, data) => pushLoopAlloc rounds d data (frames ++ frame.toList)

/-- `push`, with the panic. -/
def pushAlloc (d : ArrowStreamDeframer) (data : List UInt8) :
    Option (Except Failure (List ArrowFrame) × ArrowStreamDeframer) :=
  pushLoopAlloc (data.length + 1) d data []

/-- The frames that a caller gets who pushes until the first failure. -/
def receive : ArrowStreamDeframer → List (List UInt8) → Option (List ArrowFrame)
  | _, [] => some []
  | d, data :: chunks => do
    match ← pushAlloc d data with
    | (.ok frames, d) => return frames ++ (← receive d chunks)
    | (.error _, _) => return []

/-- Without a panic it is `push`. -/
theorem pushLoop_of_alloc : ∀ {rounds : Nat} {d d' : ArrowStreamDeframer} {data : List UInt8}
    {done : List ArrowFrame} {res : Except DeframerError (List ArrowFrame)},
    pushLoopAlloc rounds d data done = some (res.mapError .error, d') →
      pushLoop rounds d data done = some (res, d')
  | 0, _, _, _, _, _, h => by cases h
  | rounds + 1, d, d', [], done, res, h => by
    cases res <;> cases h
    rfl
  | rounds + 1, d, d', b :: bs, done, res, h => by
    rw [pushLoopAlloc, stepAlloc] at h
    rw [pushLoop]
    split_ifs at h
    · cases res <;> cases h
    · rcases hstep : step d (b :: bs) with ⟨result, d₁, rest⟩
      rw [hstep] at h
      cases result with
      | error e =>
        cases res <;> cases h
        rfl
      | ok frame => exact pushLoop_of_alloc h

variable {d d' : ArrowStreamDeframer} {buf data : List UInt8}

theorem push_of_alloc {res : Except DeframerError (List ArrowFrame)}
    (h : pushAlloc d data = some (res.mapError .error, d')) : push d data = some (res, d') :=
  pushLoop_of_alloc h

/-! ## Reading field by field -/

/-- The length of the field being read. -/
def fieldLength (d : ArrowStreamDeframer) : Nat :=
  match d.state with
  | .waitingForContinuation | .readingMetadataLen _ => 4
  | .readingMetadata len _ => len.toNat
  | .readingBody _ bodyLen _ => if bodyLen = bodyLenPending then 8 else bodyLen.toNat

/-- The bytes of it read so far. -/
def buffered (d : ArrowStreamDeframer) : List UInt8 :=
  match d.state with
  | .waitingForContinuation => d.contBuf
  | .readingMetadataLen buf | .readingMetadata _ buf | .readingBody _ _ buf => buf

def setBuffered (d : ArrowStreamDeframer) (buf : List UInt8) : ArrowStreamDeframer :=
  match d.state with
  | .waitingForContinuation => { d with contBuf := buf }
  | .readingMetadataLen _ => { d with state := .readingMetadataLen buf }
  | .readingMetadata len _ => { d with state := .readingMetadata len buf }
  | .readingBody metadata bodyLen _ => { d with state := .readingBody metadata bodyLen buf }

/-- The deframer after the last byte of a frame. -/
def nextFrame (d : ArrowStreamDeframer) : ArrowStreamDeframer :=
  { d with state := .waitingForContinuation, sequence := d.sequence + 1 }

/-- What the whole field leads to. -/
def endField (d : ArrowStreamDeframer) (buf : List UInt8) :
    Except DeframerError (Option ArrowFrame × ArrowStreamDeframer) :=
  match d.state with
  | .waitingForContinuation =>
    if buf ≠ continuationMarker then .error (.invalidContinuationMarker buf)
    else .ok (none, { d with contBuf := [], state := .readingMetadataLen [] })
  | .readingMetadataLen _ =>
    let metaLen := UInt32.ofNat (leNat buf)
    if metaLen = 0 then .ok (some ⟨[], [], .eosMarker, d.sequence⟩, nextFrame d)
    else if d.maxMetadataBytes < metaLen then
      .error (.metadataTooLarge metaLen d.maxMetadataBytes)
    else .ok (none, { d with state := .readingMetadata metaLen [] })
  | .readingMetadata _ _ => .ok (none, { d with state := .readingBody buf bodyLenPending [] })
  | .readingBody metadata bodyLen _ =>
    if bodyLen = bodyLenPending then
      let bodyLen := UInt64.ofNat (leNat buf)
      -- `step` goes on with a body whose length is the mark; no message has such a body.
      if d.maxBodyBytes < bodyLen ∨ bodyLen = bodyLenPending then
        .error (.bodyTooLarge bodyLen d.maxBodyBytes)
      else if bodyLen = 0 then
        .ok (some ⟨metadata, [], .recordBatch, d.sequence⟩, nextFrame d)
      else .ok (none, { d with state := .readingBody metadata bodyLen [] })
    else .ok (some ⟨metadata, buf, .recordBatch, d.sequence⟩, nextFrame d)

def reader : FieldReader UInt8 ArrowStreamDeframer DeframerError ArrowFrame where
  need d := d.fieldLength - d.buffered.length
  collect d bs := d.setBuffered (d.buffered ++ bs)
  finish d bs := d.endField (d.buffered ++ bs)

/-- The reader that fails where nothing can be allocated. -/
def allocating : FieldReader UInt8 ArrowStreamDeframer Failure ArrowFrame where
  need := reader.need
  collect := reader.collect
  finish d bs :=
    if d.overflows (d.buffered ++ bs) then .error .capacityOverflow
    else (reader.finish d bs).mapError .error

/-- A field is not full before it ends, and a marker's bytes are gone after it. -/
structure WellFormed (d : ArrowStreamDeframer) : Prop where
  buffered_lt : d.buffered.length < d.fieldLength
  contBuf_eq : d.state ≠ .waitingForContinuation → d.contBuf = []

@[simp] theorem buffered_setBuffered (d : ArrowStreamDeframer) (buf : List UInt8) :
    (d.setBuffered buf).buffered = buf := by
  cases h : d.state <;> simp [setBuffered, buffered, h]

@[simp] theorem fieldLength_setBuffered (d : ArrowStreamDeframer) (buf : List UInt8) :
    (d.setBuffered buf).fieldLength = d.fieldLength := by
  cases h : d.state <;> simp [setBuffered, fieldLength, h]

@[simp] theorem setBuffered_setBuffered (d : ArrowStreamDeframer) (buf buf' : List UInt8) :
    (d.setBuffered buf).setBuffered buf' = d.setBuffered buf' := by
  cases h : d.state <;> simp [setBuffered, h]

@[simp] theorem setBuffered_buffered (d : ArrowStreamDeframer) : d.setBuffered d.buffered = d := by
  obtain ⟨state, contBuf, sequence, maxMetadataBytes, maxBodyBytes⟩ := d
  cases state <;> rfl

@[simp] theorem endField_setBuffered (d : ArrowStreamDeframer) (buf buf' : List UInt8) :
    (d.setBuffered buf).endField buf' = d.endField buf' := by
  cases h : d.state <;> simp [setBuffered, endField, nextFrame, h]

@[simp] theorem overflows_setBuffered (d : ArrowStreamDeframer) (buf buf' : List UInt8) :
    (d.setBuffered buf).overflows buf' = d.overflows buf' := by
  cases h : d.state <;> simp [setBuffered, overflows, h]

theorem WellFormed.of_nextFrame (h : d.contBuf = []) : (nextFrame d).WellFormed := by
  constructor <;> simp [nextFrame, buffered, fieldLength, h]

theorem endField_wellFormed {r : Option ArrowFrame} (hd : d.WellFormed)
    (h : d.endField buf = .ok (r, d')) : d'.WellFormed := by
  have hcont := hd.contBuf_eq
  cases hstate : d.state with
  | waitingForContinuation =>
    simp only [endField, hstate] at h
    split at h
    · cases h
    · cases h
      constructor <;> simp [buffered, fieldLength]
  | readingMetadataLen _ =>
    have hcont := hcont (by simp [hstate])
    simp only [endField, hstate] at h
    split_ifs at h with hzero hmax
    · cases h
      exact .of_nextFrame hcont
    · cases h
      refine ⟨?_, fun _ => hcont⟩
      simp only [buffered, fieldLength, List.length_nil]
      exact UInt32.pos_iff_ne_zero.mpr hzero
  | readingMetadata _ _ =>
    have hcont := hcont (by simp [hstate])
    simp only [endField, hstate] at h
    cases h
    exact ⟨by simp [buffered, fieldLength], fun _ => hcont⟩
  | readingBody _ bodyLen _ =>
    have hcont := hcont (by simp [hstate])
    simp only [endField, hstate] at h
    split_ifs at h with hpending hmax hzero
    · cases h
      exact .of_nextFrame hcont
    · cases h
      refine ⟨?_, fun _ => hcont⟩
      simp only [buffered, fieldLength, List.length_nil]
      rw [if_neg (fun hp => hmax (.inr hp))]
      exact UInt64.pos_iff_ne_zero.mpr hzero
    · cases h
      exact .of_nextFrame hcont

theorem WellFormed.setBuffered (hd : d.WellFormed) (h : buf.length < d.fieldLength) :
    (d.setBuffered buf).WellFormed := by
  refine ⟨by simpa using h, ?_⟩
  have hcont := hd.contBuf_eq
  cases hstate : d.state <;> simp_all [ArrowStreamDeframer.setBuffered]

theorem reader_lawful : reader.Lawful WellFormed where
  need_pos hd := by
    have h := hd.buffered_lt
    simp only [reader]
    omega
  collect_inv hd hlt := by
    simp only [reader] at hlt ⊢
    refine hd.setBuffered ?_
    rw [List.length_append]
    omega
  collect_nil hd := by simp [reader]
  need_collect hd hlt := by
    simp only [reader, fieldLength_setBuffered, buffered_setBuffered, List.length_append]
    omega
  collect_append hd := by simp [reader]
  finish_collect hd := by simp [reader]
  finish_inv hd _ h := endField_wellFormed hd h

theorem allocating_finish_eq_ok {bs : List UInt8} {r : Option ArrowFrame} :
    allocating.finish d bs = .ok (r, d') ↔
      ¬ d.overflows (d.buffered ++ bs) ∧ reader.finish d bs = .ok (r, d') := by
  simp only [allocating]
  split
  · next h => exact iff_of_false (by rintro ⟨⟩) fun h' => h'.1 h
  · next h =>
    cases reader.finish d bs with
    | error e => exact iff_of_false (by rintro ⟨⟩) (by rintro ⟨-, ⟨⟩⟩)
    | ok fed => simp [Except.mapError, h]

theorem allocating_lawful : allocating.Lawful WellFormed where
  need_pos := reader_lawful.need_pos
  collect_inv := reader_lawful.collect_inv
  collect_nil := reader_lawful.collect_nil
  need_collect := reader_lawful.need_collect
  collect_append := reader_lawful.collect_append
  finish_collect hd := by simp [allocating, reader]
  finish_inv hd hlen h := reader_lawful.finish_inv hd hlen (allocating_finish_eq_ok.mp h).2

/-! ## `step` and `push` as runs of the reader -/

theorem ne_zero_of_lt_toNat {n : Nat} {len : UInt64} (h : n < len.toNat) : len ≠ 0 := by
  rintro rfl
  exact Nat.not_lt_zero n h

/-- Data that does not fill the field is buffered. -/
theorem step_of_lt (hd : d.WellFormed) (hlt : data.length < reader.need d) :
    step d data = (.ok none, reader.collect d data, []) := by
  have hbuf := hd.buffered_lt
  simp only [reader] at hlt ⊢
  cases hstate : d.state with
  | waitingForContinuation | readingMetadataLen buf =>
    simp only [buffered, fieldLength, hstate] at hlt hbuf
    rw [step, hstate]
    simp only [buffered, setBuffered, hstate]
    rw [List.take_of_length_le (by omega), List.drop_of_length_le (by omega),
      if_pos (by rw [List.length_append]; omega)]
  | readingMetadata len buf =>
    simp only [buffered, fieldLength, hstate] at hlt hbuf
    rw [step, hstate]
    simp only [buffered, setBuffered, hstate]
    rw [Nat.min_eq_right (by omega), List.take_length, List.drop_length,
      if_pos (by rw [List.length_append]; omega)]
  | readingBody metadata bodyLen buf =>
    simp only [buffered, fieldLength, hstate] at hlt hbuf
    rw [step, hstate]
    simp only [buffered, setBuffered, hstate]
    by_cases hpending : bodyLen = bodyLenPending
    · rw [if_pos hpending] at hlt hbuf
      rw [if_pos hpending, List.take_of_length_le (by omega), List.drop_of_length_le (by omega),
        if_pos (by rw [List.length_append]; omega), hpending]
    · rw [if_neg hpending] at hlt hbuf
      simp only [if_neg hpending, readBody]
      rw [if_neg (ne_zero_of_lt_toNat hbuf), Nat.min_eq_right (by omega), List.take_length,
        List.drop_length, if_pos (by rw [List.length_append]; omega)]

/-- The length of a body is being read. -/
def readsBodyLen (d : ArrowStreamDeframer) : Prop :=
  ∃ metadata buf, d.state = .readingBody metadata bodyLenPending buf

/-- A field that is filled ends, and unless it is the length of a body `step` ends with it. -/
theorem step_of_field {field : List UInt8} (rest : List UInt8) (hd : d.WellFormed)
    (hlen : field.length = reader.need d) (hbody : ¬ d.readsBodyLen) :
    match reader.finish d field with
    | .ok (r, d') => step d (field ++ rest) = (.ok r, d', rest)
    | .error e => (step d (field ++ rest)).1 = .error e := by
  have hbuf := hd.buffered_lt
  simp only [reader] at hlen ⊢
  have hfull : ¬ (d.buffered ++ field).length < d.fieldLength := by
    rw [List.length_append]
    omega
  cases hstate : d.state with
  | waitingForContinuation | readingMetadataLen buf =>
    simp only [buffered, fieldLength, endField, hstate] at hlen hbuf hfull ⊢
    rw [step, hstate]
    simp only
    rw [List.take_left' hlen, List.drop_left' hlen, if_neg hfull]
    split_ifs <;> rfl
  | readingMetadata len buf =>
    simp only [buffered, fieldLength, endField, hstate] at hlen hbuf hfull ⊢
    rw [step, hstate]
    simp only
    rw [Nat.min_eq_left (by rw [List.length_append]; omega), List.take_left' hlen,
      List.drop_left' hlen, if_neg hfull]
  | readingBody metadata bodyLen buf =>
    have hpending : bodyLen ≠ bodyLenPending := by
      rintro rfl
      exact hbody ⟨metadata, buf, hstate⟩
    simp only [buffered, fieldLength, endField, hstate, if_neg hpending] at hlen hbuf hfull ⊢
    rw [step, hstate]
    simp only [if_neg hpending, readBody]
    rw [if_neg (ne_zero_of_lt_toNat hbuf), Nat.min_eq_left (by rw [List.length_append]; omega),
      List.take_left' hlen, List.drop_left' hlen, if_neg hfull]
    rfl

/-- The body is a field that does not fail. -/
theorem step_ok_of_readingBody {metadata : List UInt8} {bodyLen : UInt64}
    (hstate : d.state = .readingBody metadata bodyLen []) (hpending : bodyLen ≠ bodyLenPending)
    (data : List UInt8) (e : DeframerError) : (step d data).1 ≠ .error e := by
  rw [step, hstate]
  simp only [if_neg hpending, readBody]
  split
  · rintro ⟨⟩
  · split <;> rintro ⟨⟩

/-- After the length of a body `step` goes on with the body, if there is one. A length that is
malformed is an error, unless it overflows before. -/
theorem step_of_bodyLen {field : List UInt8} (rest : List UInt8) (hd : d.WellFormed)
    (hlen : field.length = reader.need d) (hbody : d.readsBodyLen)
    (hover : ¬ d.overflows (d.buffered ++ field)) :
    match reader.finish d field with
    | .ok (r, d') => step d (field ++ rest) = (.ok r, d', rest)
        ∨ r = none ∧ ¬ d'.readsBodyLen ∧ (∀ data e, (step d' data).1 ≠ .error e)
          ∧ step d (field ++ rest) = step d' rest
    | .error e => (step d (field ++ rest)).1 = .error e := by
  have hbuf := hd.buffered_lt
  obtain ⟨metadata, buf, hstate⟩ := hbody
  simp only [reader, buffered, fieldLength, endField, hstate, if_pos] at hlen hbuf ⊢
  rw [step, hstate]
  simp only [if_pos]
  have hfull : ¬ (buf ++ field).length < 8 := by
    rw [List.length_append]
    omega
  rw [List.take_left' hlen, List.drop_left' hlen, if_neg hfull]
  by_cases hmax : d.maxBodyBytes < UInt64.ofNat (leNat (buf ++ field))
      ∨ UInt64.ofNat (leNat (buf ++ field)) = bodyLenPending
  · have hlt : d.maxBodyBytes < UInt64.ofNat (leNat (buf ++ field)) := by
      by_contra hle
      refine hover ?_
      have heq := hmax.resolve_left hle
      simp only [overflows, buffered, hstate, heq]
      rw [heq, UInt64.not_lt] at hle
      simp only [hle]
      decide
    rw [if_pos hmax, if_pos hlt]
  · rw [if_neg hmax, if_neg (fun h => hmax (.inl h))]
    by_cases hzero : UInt64.ofNat (leNat (buf ++ field)) = 0
    · rw [if_pos hzero, readBody, if_pos hzero]
      exact .inl rfl
    · rw [if_neg hzero]
      have hlen : UInt64.ofNat (leNat (buf ++ field)) ≠ bodyLenPending := fun h => hmax (.inr h)
      refine .inr ⟨rfl, ?_, step_ok_of_readingBody rfl hlen, ?_⟩
      · rintro ⟨_, _, h⟩
        simp only [DeframerState.readingBody.injEq] at h
        exact hlen h.2.1
      · rw [step]
        simp only [if_neg hlen, readBody]

theorem overflows_iff : d.overflows buf ↔
    d.readsBodyLen ∧ UInt64.ofNat (leNat buf) ≤ d.maxBodyBytes
      ∧ 2 ^ 63 ≤ (UInt64.ofNat (leNat buf)).toNat := by
  rw [overflows, readsBodyLen]
  cases hstate : d.state with
  | readingBody metadata bodyLen buf' => simp [and_assoc]
  | _ => simp

/-- `stepAlloc` panics for a body length that it ends. -/
theorem stepAlloc_eq (d : ArrowStreamDeframer) (data : List UInt8) : stepAlloc d data
    = if reader.need d ≤ data.length ∧ d.overflows (d.buffered ++ data.take (reader.need d)) then
        (.error .capacityOverflow, d, [])
      else ((step d data).1.mapError .error, (step d data).2) := by
  by_cases hbody : d.readsBodyLen
  · obtain ⟨metadata, buf, hstate⟩ := hbody
    have hneed : reader.need d = 8 - buf.length := by
      simp [reader, fieldLength, buffered, hstate]
    rw [stepAlloc, hneed]
    simp only [hstate, buffered, Bool.and_eq_true, decide_eq_true_eq]
    congr 2
    exact propext (by omega)
  · have hover : ∀ buf, ¬ d.overflows buf := fun buf h => hbody (overflows_iff.mp h).1
    rw [stepAlloc, if_neg, if_neg fun h => hover _ h.2]
    cases d.state <;> simp [hover]

/-- One step outside the length of a body reads a field or what there is of it. -/
theorem step_of_not_readsBodyLen (hd : d.WellFormed) (hbody : ¬ d.readsBodyLen)
    (hok : ∀ e, (step d data).1 ≠ .error e) :
    ∃ r d' read rest, data = read ++ rest ∧ step d data = (.ok r, d', rest)
      ∧ allocating.run read d = .ok (r.toList, d') ∧ (data ≠ [] → read ≠ []) := by
  have hover : ∀ buf, ¬ d.overflows buf := fun buf h => hbody (overflows_iff.mp h).1
  by_cases hlt : data.length < reader.need d
  · exact ⟨none, _, data, [], (List.append_nil data).symm, step_of_lt hd hlt,
      FieldReader.run_collect allocating_lawful hd hlt, id⟩
  · have hlen := List.length_take_of_le (not_lt.mp hlt)
    have hsplit := (List.take_append_drop (reader.need d) data).symm
    have hstep := step_of_field (data.drop (reader.need d)) hd hlen hbody
    rw [← hsplit] at hstep
    cases hend : reader.finish d (data.take (reader.need d)) with
    | error e =>
      rw [hend] at hstep
      exact absurd hstep (hok e)
    | ok fed =>
      rw [hend] at hstep
      refine ⟨fed.1, fed.2, _, _, hsplit, hstep, ?_, fun _ => ?_⟩
      · exact FieldReader.run_finish_eq_ok allocating_lawful hd hlen
          (allocating_finish_eq_ok.mpr ⟨hover _, hend⟩)
      · refine List.ne_nil_of_length_pos ?_
        rw [hlen]
        exact reader_lawful.need_pos hd

/-- One step fails where the reader does, or it is a run of the reader on what it reads. -/
theorem stepAlloc_cases (hd : d.WellFormed) (hdata : data ≠ []) :
    (∃ e e' d' rest, stepAlloc d data = (.error e, d', rest) ∧ allocating.run data d = .error e')
    ∨ ∃ r d' read rest, data = read ++ rest ∧ read ≠ [] ∧ stepAlloc d data = (.ok r, d', rest)
      ∧ allocating.run read d = .ok (r.toList, d') := by
  rw [stepAlloc_eq]
  by_cases hlt : data.length < reader.need d
  · refine .inr ⟨none, _, data, [], (List.append_nil data).symm, hdata, ?_,
      FieldReader.run_collect allocating_lawful hd hlt⟩
    rw [if_neg fun h => absurd h.1 (not_le.mpr hlt), step_of_lt hd hlt]
    rfl
  have hlen := List.length_take_of_le (not_lt.mp hlt)
  obtain ⟨field, rest, rfl, hfield⟩ : ∃ field rest, data = field ++ rest
      ∧ data.take (reader.need d) = field :=
    ⟨_, _, (List.take_append_drop (reader.need d) data).symm, rfl⟩
  rw [hfield] at hlen ⊢
  have hrun := FieldReader.run_finish allocating_lawful hd hlen
  have hfail : ∀ {e}, allocating.finish d field = .error e →
      allocating.run (field ++ rest) d = .error e := by
    intro e he
    rw [FieldReader.run_append, hrun, he]
    rfl
  by_cases hover : d.overflows (d.buffered ++ field)
  · refine .inl ⟨.capacityOverflow, .capacityOverflow, d, [], ?_, hfail ?_⟩
    · rw [if_pos ⟨not_lt.mp hlt, hover⟩]
    · simp only [allocating, if_pos hover]
  rw [if_neg fun h => hover h.2]
  have hfield := fun hbody => step_of_field rest hd hlen hbody
  have hbodyLen := fun hbody => step_of_bodyLen rest hd hlen hbody hover
  cases hend : reader.finish d field with
  | error e =>
    rw [hend] at hfield hbodyLen
    have hstep : (step d (field ++ rest)).1 = .error e := by
      by_cases hbody : d.readsBodyLen
      · exact hbodyLen hbody
      · exact hfield hbody
    refine .inl ⟨.error e, .error e, (step d (field ++ rest)).2.1,
      (step d (field ++ rest)).2.2, ?_, hfail ?_⟩
    · rw [hstep]
      rfl
    · simp only [allocating, if_neg hover, hend]
      rfl
  | ok fed =>
    rw [hend] at hfield hbodyLen
    have hok : allocating.run field d = .ok (fed.1.toList, fed.2) :=
      FieldReader.run_finish_eq_ok allocating_lawful hd hlen
        (allocating_finish_eq_ok.mpr ⟨hover, hend⟩)
    have hne : field ≠ [] := List.ne_nil_of_length_pos (hlen ▸ reader_lawful.need_pos hd)
    right
    by_cases hbody : d.readsBodyLen
    · rcases hbodyLen hbody with hstep | ⟨hnone, hbody', hok', hstep⟩
      · exact ⟨fed.1, fed.2, field, rest, rfl, hne, by rw [hstep]; rfl, hok⟩
      · obtain ⟨r, d', read, rest', rfl, hstep', hread, -⟩ :=
          step_of_not_readsBodyLen (reader_lawful.finish_inv hd hlen hend) hbody' (hok' rest)
        refine ⟨r, d', field ++ read, rest', (List.append_assoc ..).symm,
          List.append_ne_nil_of_left_ne_nil hne _, by rw [hstep, hstep']; rfl, ?_⟩
        rw [hnone] at hok
        exact FieldReader.run_append_eq_ok.mpr ⟨_, _, _, hok, hread, rfl⟩
    · exact ⟨fed.1, fed.2, field, rest, rfl, hne, by rw [hfield hbody]; rfl, hok⟩

theorem pushLoopAlloc_eq_run : ∀ {rounds : Nat} {d : ArrowStreamDeframer} {data : List UInt8}
    (done : List ArrowFrame), d.WellFormed → data.length < rounds →
      (∃ frames d', allocating.run data d = .ok (frames, d')
        ∧ pushLoopAlloc rounds d data done = some (.ok (done ++ frames), d'))
      ∨ ∃ e e' d', allocating.run data d = .error e
        ∧ pushLoopAlloc rounds d data done = some (.error e', d')
  | 0, _, _, _, _, hlt => absurd hlt (Nat.not_lt_zero _)
  | rounds + 1, d, [], done, _, _ => by
    refine .inl ⟨[], d, rfl, ?_⟩
    rw [pushLoopAlloc, List.append_nil]
  | rounds + 1, d, b :: bs, done, hd, hlt => by
    rw [pushLoopAlloc]
    rcases stepAlloc_cases hd (List.cons_ne_nil b bs) with
      ⟨e, e', d', rest, hstep, hrun⟩ | ⟨r, d₁, read, rest, heq, hne, hstep, hread⟩
    · exact .inr ⟨e', e, d', hrun, by rw [hstep]⟩
    · have hlen : rest.length < rounds := by
        have hpos := List.length_pos_of_ne_nil hne
        rw [heq, List.length_append] at hlt
        omega
      rw [hstep, heq, FieldReader.run_append, hread, Except.bind]
      simp only
      have hd₁ := FieldReader.run_inv allocating_lawful hd hread
      rcases pushLoopAlloc_eq_run (done ++ r.toList) hd₁ hlen with
        ⟨frames, d', hrun, hpush⟩ | ⟨e, e', d', hrun, hpush⟩
      · exact .inl ⟨r.toList ++ frames, d', by rw [hrun]; rfl, by rw [hpush, List.append_assoc]⟩
      · exact .inr ⟨e, e', d', by rw [hrun]; rfl, hpush⟩

theorem pushAlloc_of_ok {frames : List ArrowFrame} (hd : d.WellFormed)
    (hrun : allocating.run data d = .ok (frames, d')) :
    pushAlloc d data = some (.ok frames, d') := by
  rcases pushLoopAlloc_eq_run [] hd (Nat.lt_succ_self data.length) with
    ⟨frames', d₁, hrun', hpush⟩ | ⟨e, _, _, hrun', -⟩
  · cases hrun.symm.trans hrun'
    exact hpush
  · cases hrun.symm.trans hrun'

theorem pushAlloc_of_error {e : Failure} (hd : d.WellFormed)
    (hrun : allocating.run data d = .error e) :
    ∃ e' d', pushAlloc d data = some (.error e', d') := by
  rcases pushLoopAlloc_eq_run [] hd (Nat.lt_succ_self data.length) with
    ⟨_, _, hrun', -⟩ | ⟨_, e', d', -, hpush⟩
  · cases hrun.symm.trans hrun'
  · exact ⟨e', d', hpush⟩

/-- Where the reader does not fail, `push` does what it does. -/
theorem push_eq_run {frames : List ArrowFrame} (hd : d.WellFormed)
    (hrun : allocating.run data d = .ok (frames, d')) : push d data = some (.ok frames, d') :=
  push_of_alloc (pushAlloc_of_ok hd hrun)

/-- However the data is cut, no push fails, and the frames are those of the whole data. -/
theorem pushAll_eq_run : ∀ {chunks : List (List UInt8)} {d d' : ArrowStreamDeframer}
    {frames : List ArrowFrame}, d.WellFormed → allocating.run chunks.flatten d = .ok (frames, d') →
      ∃ results : List (List ArrowFrame),
        pushAll d chunks = some (results.map .ok, d') ∧ results.flatten = frames
  | [], d, _, _, _, hrun => by
    cases hrun
    exact ⟨[], rfl, rfl⟩
  | data :: chunks, d, d', _, hd, hrun => by
    rw [List.flatten_cons] at hrun
    obtain ⟨frames, rest, d₁, hfst, hrest, rfl⟩ := FieldReader.run_append_eq_ok.mp hrun
    obtain ⟨results, hall, rfl⟩ :=
      pushAll_eq_run (FieldReader.run_inv allocating_lawful hd hfst) hrest
    refine ⟨frames :: results, ?_, rfl⟩
    simp [pushAll, push_eq_run hd hfst, hall]

end ArrowStreamDeframer

/-! ## Streams of messages -/

def buildTestFrame (metadata body : List UInt8) : List UInt8 :=
  continuationMarker ++ leBytes 4 metadata.length ++ metadata ++ leBytes 8 body.length ++ body

def buildTestEos : List UInt8 := continuationMarker ++ leBytes 4 0

/-- A message within the limits of a deframer; no body is longer than a slice can be. -/
inductive Message (maxMetadataBytes : UInt32) (maxBodyBytes : UInt64)
  | frame (metadata body : List UInt8) (metadata_ne : metadata ≠ [])
      (metadata_le : metadata.length ≤ maxMetadataBytes.toNat)
      (body_le : body.length ≤ maxBodyBytes.toNat) (body_lt : body.length < 2 ^ 63)
  | eos

namespace Message

variable {maxMetadataBytes : UInt32} {maxBodyBytes : UInt64}

def encode : Message maxMetadataBytes maxBodyBytes → List UInt8
  | frame metadata body _ _ _ _ => buildTestFrame metadata body
  | eos => buildTestEos

/-- The frame that the message is received as. -/
def received (sequence : UInt64) : Message maxMetadataBytes maxBodyBytes → ArrowFrame
  | frame metadata body _ _ _ _ => ⟨metadata, body, .recordBatch, sequence⟩
  | eos => ⟨[], [], .eosMarker, sequence⟩

end Message

namespace ArrowStreamDeframer

variable (maxMetadataBytes : UInt32) (maxBodyBytes : UInt64)

def reading (state : DeframerState) (sequence : UInt64) : ArrowStreamDeframer :=
  { state, sequence, maxMetadataBytes, maxBodyBytes }

/-- A deframer between two messages. -/
def idle (sequence : UInt64) : ArrowStreamDeframer :=
  reading maxMetadataBytes maxBodyBytes .waitingForContinuation sequence

theorem idle_wellFormed (sequence : UInt64) :
    (idle maxMetadataBytes maxBodyBytes sequence).WellFormed := by
  constructor <;> simp [idle, reading, buffered, fieldLength]

variable {d d' : ArrowStreamDeframer} {bs metadata : List UInt8}

/-- A whole field, from its start. -/
theorem run_field (field : List UInt8) (r : Option ArrowFrame) (d' : ArrowStreamDeframer)
    (hd : d.WellFormed) (hstart : d.buffered = []) (hlen : field.length = d.fieldLength)
    (hover : d.overflows field = false) (hend : d.endField field = .ok (r, d')) :
    allocating.run field d = .ok (r.toList, d') := by
  refine FieldReader.run_finish_eq_ok allocating_lawful hd ?_ ?_
  · simp [allocating, reader, hstart, hlen]
  · rw [allocating_finish_eq_ok]
    simpa [reader, hstart] using ⟨hover, hend⟩

theorem run_marker (sequence : UInt64) :
    allocating.run continuationMarker (idle maxMetadataBytes maxBodyBytes sequence)
      = .ok ([], reading maxMetadataBytes maxBodyBytes (.readingMetadataLen []) sequence) :=
  run_field _ none _ (idle_wellFormed ..) rfl rfl rfl rfl

theorem run_eos (sequence : UInt64) :
    allocating.run buildTestEos (idle maxMetadataBytes maxBodyBytes sequence)
      = .ok ([⟨[], [], .eosMarker, sequence⟩],
          idle maxMetadataBytes maxBodyBytes (sequence + 1)) := by
  have hmarker := run_marker maxMetadataBytes maxBodyBytes sequence
  have hd := FieldReader.run_inv allocating_lawful (idle_wellFormed ..) hmarker
  have hlen := run_field (leBytes 4 0) (some _) _ hd rfl rfl rfl rfl
  exact FieldReader.run_append_eq_ok.mpr ⟨_, _, _, hmarker, hlen, rfl⟩

variable {maxMetadataBytes maxBodyBytes}

theorem run_metadataLen {n : Nat} (sequence : UInt64) (hne : n ≠ 0)
    (hle : n ≤ maxMetadataBytes.toNat) : allocating.run (continuationMarker ++ leBytes 4 n)
        (idle maxMetadataBytes maxBodyBytes sequence)
      = .ok ([], reading maxMetadataBytes maxBodyBytes
          (.readingMetadata (.ofNat n) []) sequence) := by
  have hmarker := run_marker maxMetadataBytes maxBodyBytes sequence
  have hd := FieldReader.run_inv allocating_lawful (idle_wellFormed ..) hmarker
  have hlt := maxMetadataBytes.toNat_lt
  have hlen : (UInt32.ofNat n).toNat = n :=
    UInt32.toNat_ofNat_of_lt' (show _ < 2 ^ 32 by omega)
  have hread : leNat (leBytes 4 n) = n := leNat_leBytes_of_lt (by omega)
  have hzero : UInt32.ofNat n ≠ 0 := by
    intro h
    rw [h, UInt32.toNat_zero] at hlen
    omega
  have hmax : ¬ maxMetadataBytes < UInt32.ofNat n := by
    rw [UInt32.lt_iff_toNat_lt, hlen]
    omega
  have hmetaLen := run_field (leBytes 4 n) none
    (reading maxMetadataBytes maxBodyBytes (.readingMetadata (.ofNat n) []) sequence)
    hd rfl (length_leBytes ..) rfl (by
      simp only [reading, endField, hread]
      rw [if_neg hzero, if_neg hmax])
  exact FieldReader.run_append_eq_ok.mpr ⟨_, _, _, hmarker, hmetaLen, rfl⟩

theorem run_metadata {metadata : List UInt8} (sequence : UInt64) (hne : metadata ≠ [])
    (hle : metadata.length ≤ maxMetadataBytes.toNat) :
    allocating.run (continuationMarker ++ leBytes 4 metadata.length ++ metadata)
        (idle maxMetadataBytes maxBodyBytes sequence)
      = .ok ([], reading maxMetadataBytes maxBodyBytes
          (.readingBody metadata bodyLenPending []) sequence) := by
  have hpos := List.length_pos_of_ne_nil hne
  have hmetaLen := @run_metadataLen _ maxBodyBytes _ sequence (by omega) hle
  have hd := FieldReader.run_inv allocating_lawful (idle_wellFormed ..) hmetaLen
  have hlt := maxMetadataBytes.toNat_lt
  have hlen : (UInt32.ofNat metadata.length).toNat = metadata.length :=
    UInt32.toNat_ofNat_of_lt' (show _ < 2 ^ 32 by omega)
  have hmetadata := run_field metadata none _ hd rfl hlen.symm rfl rfl
  exact FieldReader.run_append_eq_ok.mpr ⟨_, _, _, hmetaLen, hmetadata, rfl⟩

theorem reading_wellFormed {sequence : UInt64} :
    (reading maxMetadataBytes maxBodyBytes (.readingBody metadata bodyLenPending [])
      sequence).WellFormed := by
  constructor <;> simp [reading, buffered, fieldLength]

theorem ofNat_ne_bodyLenPending {n : Nat} (hlt : n < 2 ^ 63) : UInt64.ofNat n ≠ bodyLenPending := by
  intro h
  have hlen : (UInt64.ofNat n).toNat = n :=
    UInt64.toNat_ofNat_of_lt' (show _ < 2 ^ 64 by omega)
  rw [h] at hlen
  have : bodyLenPending.toNat = 2 ^ 64 - 1 := rfl
  omega

theorem run_bodyLen {metadata : List UInt8} {n : Nat} (sequence : UInt64) (hne : n ≠ 0)
    (hle : n ≤ maxBodyBytes.toNat) (hlt : n < 2 ^ 63) : allocating.run (leBytes 8 n)
        (reading maxMetadataBytes maxBodyBytes (.readingBody metadata bodyLenPending []) sequence)
      = .ok ([], reading maxMetadataBytes maxBodyBytes (.readingBody metadata (.ofNat n) [])
          sequence) := by
  have hlen : (UInt64.ofNat n).toNat = n :=
    UInt64.toNat_ofNat_of_lt' (show _ < 2 ^ 64 by omega)
  have hread : leNat (leBytes 8 n) = n := leNat_leBytes_of_lt (by omega)
  have hmax : ¬ (maxBodyBytes < UInt64.ofNat n ∨ UInt64.ofNat n = bodyLenPending) := by
    rw [UInt64.lt_iff_toNat_lt, hlen]
    exact fun h => h.elim (by omega) (ofNat_ne_bodyLenPending hlt)
  have hzero : UInt64.ofNat n ≠ 0 := by
    intro h
    rw [h, UInt64.toNat_zero] at hlen
    omega
  refine run_field (leBytes 8 n) none _ reading_wellFormed rfl (length_leBytes ..) ?_ ?_
  · simp only [reading, overflows, hread, hlen]
    rw [decide_eq_false (Nat.not_le.mpr hlt), Bool.and_false]
  · simp only [reading, endField, hread, if_pos]
    rw [if_neg hmax, if_neg hzero]

theorem run_body {body : List UInt8} {sequence : UInt64} (hle : body.length ≤ maxBodyBytes.toNat)
    (hlt : body.length < 2 ^ 63) :
    allocating.run (leBytes 8 body.length ++ body)
        (reading maxMetadataBytes maxBodyBytes (.readingBody metadata bodyLenPending []) sequence)
      = .ok ([⟨metadata, body, .recordBatch, sequence⟩],
          idle maxMetadataBytes maxBodyBytes (sequence + 1)) := by
  cases hbody : body with
  | nil =>
    rw [List.append_nil]
    refine run_field _ (some _) _ reading_wellFormed rfl (length_leBytes ..) ?_ ?_
    · simp [reading, overflows, leBytes, leNat]
    · simp [reading, endField, leBytes, leNat, idle, nextFrame, bodyLenPending]
  | cons b bs =>
    rw [← hbody]
    have hne : body.length ≠ 0 := by
      rw [hbody, List.length_cons]
      omega
    have hlen : (UInt64.ofNat body.length).toNat = body.length :=
      UInt64.toNat_ofNat_of_lt' (show _ < 2 ^ 64 by omega)
    have hpending := ofNat_ne_bodyLenPending hlt
    have hbodyLen := @run_bodyLen maxMetadataBytes maxBodyBytes metadata _
      sequence hne hle hlt
    have hd' := FieldReader.run_inv allocating_lawful reading_wellFormed hbodyLen
    have hrun := run_field body (some ⟨metadata, body, .recordBatch, sequence⟩)
      (idle maxMetadataBytes maxBodyBytes (sequence + 1)) hd' rfl
      (by
        simp only [reading, fieldLength]
        rw [if_neg hpending, hlen])
      (by simp [reading, overflows, hpending])
      (by
        simp only [reading, endField]
        rw [if_neg hpending]
        rfl)
    exact FieldReader.run_append_eq_ok.mpr ⟨_, _, _, hbodyLen, hrun, rfl⟩

/-- The bytes of a message yield its frame. -/
theorem run_encode (sequence : UInt64) (message : Message maxMetadataBytes maxBodyBytes) :
    allocating.run message.encode (idle maxMetadataBytes maxBodyBytes sequence)
      = .ok ([message.received sequence], idle maxMetadataBytes maxBodyBytes (sequence + 1)) := by
  cases message with
  | frame metadata body hne hmetadata hbody hlt =>
    have hframe := FieldReader.run_append_eq_ok.mpr
      ⟨_, _, _, run_metadata sequence hne hmetadata, run_body hbody hlt, rfl⟩
    simpa [Message.encode, buildTestFrame, Message.received] using hframe
  | eos => exact run_eos ..

theorem run_messages (sequence : UInt64) :
    ∀ messages : List (Message maxMetadataBytes maxBodyBytes),
      allocating.run (messages.flatMap Message.encode) (idle maxMetadataBytes maxBodyBytes sequence)
        = .ok (messages.mapIdx fun i message => message.received (sequence + .ofNat i),
            idle maxMetadataBytes maxBodyBytes (sequence + .ofNat messages.length))
  | [] => by simp
  | message :: messages => by
    have hrest := run_messages (sequence + 1) messages
    have hsucc (i : Nat) : sequence + 1 + .ofNat i = sequence + .ofNat (i + 1) := by
      rw [UInt64.ofNat_add, UInt64.add_assoc, UInt64.add_comm (.ofNat i)]
      rfl
    simp only [hsucc] at hrest
    rw [List.flatMap_cons, List.mapIdx_cons, List.length_cons]
    refine FieldReader.run_append_eq_ok.mpr
      ⟨_, _, _, run_encode sequence message, hrest, ?_⟩
    simp

/-- However a stream of messages is cut, it is received as it was sent. -/
theorem pushAll_chunks (messages : List (Message maxMetadataBytes maxBodyBytes))
    (chunks : List (List UInt8)) (hcut : chunks.flatten = messages.flatMap Message.encode) :
    ∃ (results : List (List ArrowFrame)) (d : ArrowStreamDeframer),
      pushAll (withLimits maxMetadataBytes maxBodyBytes) chunks = some (results.map .ok, d)
        ∧ results.flatten = messages.mapIdx (fun i message => message.received (.ofNat i))
        ∧ d.isIdle := by
  have hrun := run_messages 0 messages
  simp only [UInt64.zero_add] at hrun
  rw [← hcut] at hrun
  obtain ⟨results, hall, hframes⟩ := pushAll_eq_run (idle_wellFormed ..) hrun
  exact ⟨results, _, hall, hframes, rfl⟩

theorem pushAll_chunks_bytewise : ∃ (results : List (List ArrowFrame)) (d : ArrowStreamDeframer),
      pushAll (withLimits 16 16) ([] :: (buildTestFrame [7] [8, 9] ++ buildTestEos).map ([·]))
          = some (results.map .ok, d)
        ∧ results.flatten = [⟨[7], [8, 9], .recordBatch, 0⟩, ⟨[], [], .eosMarker, 1⟩] ∧ d.isIdle :=
  @pushAll_chunks 16 16
    [.frame [7] [8, 9] (by decide) (by decide) (by decide) (by decide), .eos] _ (by decide)

/-! ## Malformed streams -/

/-- The bytes from the end of a message to the end of a malformed field. -/
inductive Malformed (maxMetadataBytes : UInt32) (maxBodyBytes : UInt64) : List UInt8 → Prop
  | marker {field : List UInt8} : field.length = 4 → field ≠ continuationMarker →
      Malformed maxMetadataBytes maxBodyBytes field
  | metadataLen {field : List UInt8} : field.length = 4 →
      maxMetadataBytes < UInt32.ofNat (leNat field) →
      Malformed maxMetadataBytes maxBodyBytes (continuationMarker ++ field)
  | bodyLen {metadata field : List UInt8} : metadata ≠ [] →
      metadata.length ≤ maxMetadataBytes.toNat → field.length = 8 →
      maxBodyBytes < UInt64.ofNat (leNat field) ∨ 2 ^ 63 ≤ leNat field →
      Malformed maxMetadataBytes maxBodyBytes
        (continuationMarker ++ leBytes 4 metadata.length ++ metadata ++ field)

/-- A malformed field, from its start. -/
theorem run_field_error {field : List UInt8} {e : Failure} (hd : d.WellFormed)
    (hstart : d.buffered = []) (hlen : field.length = d.fieldLength)
    (hend : allocating.finish d field = .error e) : allocating.run field d = .error e := by
  rw [FieldReader.run_finish allocating_lawful hd, hend]
  · rfl
  · simp [allocating, reader, hstart, hlen]

theorem run_error_append {as : List UInt8} {e : Failure} {frames : List ArrowFrame}
    (has : allocating.run as d = .ok (frames, d')) (hbs : allocating.run bs d' = .error e) :
    allocating.run (as ++ bs) d = .error e := by
  rw [FieldReader.run_append, has, Except.bind, hbs]
  rfl

/-- The length of a body that is more than the limit or more than can be allocated. -/
theorem finish_bodyLen_error {metadata field : List UInt8} {sequence : UInt64}
    (hlen : field.length = 8)
    (hbad : maxBodyBytes < UInt64.ofNat (leNat field) ∨ 2 ^ 63 ≤ leNat field) :
    ∃ e, allocating.finish (reading maxMetadataBytes maxBodyBytes
      (.readingBody metadata bodyLenPending []) sequence) field = .error e := by
  have hlt : leNat field < 2 ^ 64 := by
    have h := leNat_lt field
    rwa [hlen] at h
  have hnat : (UInt64.ofNat (leNat field)).toNat = leNat field :=
    UInt64.toNat_ofNat_of_lt' hlt
  by_cases hmax : maxBodyBytes < UInt64.ofNat (leNat field)
  · refine ⟨.error (.bodyTooLarge (UInt64.ofNat (leNat field)) maxBodyBytes), ?_⟩
    have hle : ¬ UInt64.ofNat (leNat field) ≤ maxBodyBytes := UInt64.not_le.mpr hmax
    simp [allocating, reader, reading, overflows, endField, buffered, hle, hmax, Except.mapError]
  · refine ⟨.capacityOverflow, ?_⟩
    have hle : UInt64.ofNat (leNat field) ≤ maxBodyBytes := UInt64.not_lt.mp hmax
    have hbig : 2 ^ 63 ≤ leNat field := hbad.resolve_left hmax
    exact if_pos (overflows_iff.mpr ⟨⟨metadata, [], rfl⟩, hle, le_of_le_of_eq hbig hnat.symm⟩)

theorem run_malformed (sequence : UInt64) (h : Malformed maxMetadataBytes maxBodyBytes bs) :
    ∃ e, allocating.run bs (idle maxMetadataBytes maxBodyBytes sequence) = .error e := by
  cases h with
  | marker hlen hne =>
    refine ⟨_, run_field_error (e := .error (.invalidContinuationMarker bs))
      (idle_wellFormed ..) rfl hlen ?_⟩
    simp [allocating, reader, idle, reading, overflows, endField, buffered, hne, Except.mapError]
  | @metadataLen field hlen hmax =>
    have hmarker := run_marker maxMetadataBytes maxBodyBytes sequence
    have hd := FieldReader.run_inv allocating_lawful (idle_wellFormed ..) hmarker
    refine ⟨_, run_error_append hmarker (run_field_error (e := .error (.metadataTooLarge
      (UInt32.ofNat (leNat field)) maxMetadataBytes)) hd rfl hlen ?_)⟩
    have hne : UInt32.ofNat (leNat field) ≠ 0 := by
      rintro h
      rw [h] at hmax
      exact UInt32.not_lt_zero hmax
    simp [allocating, reader, reading, overflows, endField, buffered, hne, hmax, Except.mapError]
  | @bodyLen metadata field hne hle hlen hbad =>
    obtain ⟨e, hend⟩ := @finish_bodyLen_error maxMetadataBytes maxBodyBytes metadata field
      sequence hlen hbad
    exact ⟨e, run_error_append (run_metadata sequence hne hle)
      (run_field_error reading_wellFormed rfl hlen hend)⟩

/-- A field is there as a whole or in part. -/
theorem run_part_or_field (hd : d.WellFormed) (hstart : d.buffered = []) (bs : List UInt8) :
    (∃ d', allocating.run bs d = .ok ([], d'))
      ∨ ∃ field rest, bs = field ++ rest ∧ field.length = d.fieldLength := by
  by_cases hlt : bs.length < d.fieldLength
  · refine .inl ⟨_, FieldReader.run_collect allocating_lawful hd ?_⟩
    simpa [allocating, reader, hstart] using hlt
  · exact .inr ⟨_, _, (List.take_append_drop d.fieldLength bs).symm,
      List.length_take_of_le (not_lt.mp hlt)⟩

theorem run_quiet_append {as cs : List UInt8} (has : allocating.run as d = .ok ([], d'))
    (hcs : ∃ d'', allocating.run cs d' = .ok ([], d'')) :
    ∃ d'', allocating.run (as ++ cs) d = .ok ([], d'') := by
  obtain ⟨d'', hcs⟩ := hcs
  exact ⟨d'', FieldReader.run_append_eq_ok.mpr ⟨_, _, _, has, hcs, rfl⟩⟩

/-- The bytes have a message, a malformed field or neither yet. -/
def TailCases (maxMetadataBytes : UInt32) (maxBodyBytes sequence : UInt64) (bs : List UInt8) :
    Prop :=
  (∃ (m : Message maxMetadataBytes maxBodyBytes) (rest : List UInt8), bs = m.encode ++ rest)
    ∨ (∃ field rest, bs = field ++ rest ∧ Malformed maxMetadataBytes maxBodyBytes field)
    ∨ ∃ d, allocating.run bs (idle maxMetadataBytes maxBodyBytes sequence) = .ok ([], d)

/-- After the metadata. -/
theorem tailCases_metadata (hne : metadata ≠ []) (hle : metadata.length ≤ maxMetadataBytes.toNat)
    (sequence : UInt64) (bs : List UInt8) :
    TailCases maxMetadataBytes maxBodyBytes sequence
      (continuationMarker ++ leBytes 4 metadata.length ++ metadata ++ bs) := by
  have hrun := @run_metadata _ maxBodyBytes _ sequence hne hle
  -- The length of the body.
  rcases run_part_or_field reading_wellFormed rfl bs with hpart | ⟨lenField, bs, rfl, hlen⟩
  · exact .inr (.inr (run_quiet_append hrun hpart))
  have hlenField : leBytes 8 (leNat lenField) = lenField := by
    rw [← show lenField.length = 8 from hlen, leBytes_leNat]
  by_cases hbad : maxBodyBytes < UInt64.ofNat (leNat lenField) ∨ 2 ^ 63 ≤ leNat lenField
  · exact .inr (.inl ⟨_, bs, (List.append_assoc ..).symm, .bodyLen hne hle hlen hbad⟩)
  obtain ⟨hbodyMax, hbodyLt⟩ := not_or.mp hbad
  rw [not_le] at hbodyLt
  have hbodyLen : (UInt64.ofNat (leNat lenField)).toNat = leNat lenField :=
    UInt64.toNat_ofNat_of_lt' (show _ < 2 ^ 64 by omega)
  have hbodyLe : leNat lenField ≤ maxBodyBytes.toNat := by
    rw [UInt64.lt_iff_toNat_lt, hbodyLen] at hbodyMax
    exact not_lt.mp hbodyMax
  by_cases hbodyZero : leNat lenField = 0
  · refine .inl ⟨.frame metadata [] hne hle (Nat.zero_le _) (by decide), bs, ?_⟩
    rw [← hlenField, hbodyZero, Message.encode, buildTestFrame]
    simp
  -- The body.
  have hrun' := @run_bodyLen maxMetadataBytes maxBodyBytes metadata _
    sequence hbodyZero hbodyLe hbodyLt
  rw [hlenField] at hrun'
  have hd := FieldReader.run_inv allocating_lawful reading_wellFormed hrun'
  rcases run_part_or_field hd rfl bs with hpart | ⟨body, bs, rfl, hlen'⟩
  · exact .inr (.inr (run_quiet_append hrun (run_quiet_append hrun' hpart)))
  have hbody : body.length = leNat lenField := by
    rw [hlen', reading, fieldLength]
    simp only
    rw [if_neg (ofNat_ne_bodyLenPending hbodyLt), hbodyLen]
  rw [← hlenField, ← hbody]
  rw [← hbody] at hbodyLe hbodyLt
  refine .inl ⟨.frame metadata body hne hle hbodyLe hbodyLt, bs, ?_⟩
  simp [Message.encode, buildTestFrame]

theorem tailCases (bs : List UInt8) (sequence : UInt64) :
    TailCases maxMetadataBytes maxBodyBytes sequence bs := by
  -- The marker.
  rcases run_part_or_field (idle_wellFormed maxMetadataBytes maxBodyBytes sequence) rfl bs with
    hpart | ⟨field, bs, rfl, hlen⟩
  · exact .inr (.inr hpart)
  by_cases hmarker : field = continuationMarker
  swap
  · exact .inr (.inl ⟨field, bs, rfl, .marker hlen hmarker⟩)
  subst hmarker
  have hrun := run_marker maxMetadataBytes maxBodyBytes sequence
  have hd := FieldReader.run_inv allocating_lawful (idle_wellFormed ..) hrun
  -- The length of the metadata.
  rcases run_part_or_field hd rfl bs with hpart | ⟨field, bs, rfl, hlen⟩
  · exact .inr (.inr (run_quiet_append hrun hpart))
  have hmetaLt : leNat field < 2 ^ 32 := by
    have h := leNat_lt field
    rwa [hlen] at h
  have hmetaLen : (UInt32.ofNat (leNat field)).toNat = leNat field :=
    UInt32.toNat_ofNat_of_lt' hmetaLt
  have hfield : leBytes 4 (leNat field) = field := by
    rw [← show field.length = 4 from hlen, leBytes_leNat]
  by_cases hmax : maxMetadataBytes < UInt32.ofNat (leNat field)
  · exact .inr (.inl ⟨_, bs, (List.append_assoc ..).symm, .metadataLen hlen hmax⟩)
  have hmetaLe : leNat field ≤ maxMetadataBytes.toNat := by
    rw [UInt32.lt_iff_toNat_lt, hmetaLen] at hmax
    exact not_lt.mp hmax
  by_cases hzero : leNat field = 0
  · refine .inl ⟨.eos, bs, ?_⟩
    rw [← hfield, hzero, Message.encode, buildTestEos, List.append_assoc]
  have hrun' := @run_metadataLen _ maxBodyBytes _ sequence hzero hmetaLe
  rw [hfield] at hrun'
  have hd' := FieldReader.run_inv allocating_lawful (idle_wellFormed ..) hrun'
  rw [← List.append_assoc]
  -- The metadata.
  rcases run_part_or_field hd' rfl bs with hpart | ⟨metadata, bs, rfl, hlen'⟩
  · exact .inr (.inr (run_quiet_append hrun' hpart))
  have hmetadata : metadata.length = leNat field := hlen'.trans hmetaLen
  have hne : metadata ≠ [] := List.ne_nil_of_length_pos (by omega)
  have hle : metadata.length ≤ maxMetadataBytes.toNat := hmetadata ▸ hmetaLe
  rw [← hfield, ← hmetadata, ← List.append_assoc]
  exact tailCases_metadata hne hle sequence bs

/-- A step of the reader without a frame does not lead between two messages. -/
theorem not_isIdle_of_feed {b : UInt8} (h : allocating.feed d b = .ok (none, d')) :
    ¬ d'.isIdle := by
  rw [FieldReader.feed] at h
  split at h
  · obtain ⟨-, hend⟩ := allocating_finish_eq_ok.mp h
    cases hstate : d.state with
    | readingMetadata len buf =>
      simp only [reader, endField, hstate] at hend
      cases hend
      simp [isIdle]
    | _ =>
      simp only [reader, endField, hstate] at hend
      split_ifs at hend <;> cases hend
      simp [isIdle]
  · cases h
    cases hstate : d.state <;>
      simp [allocating, reader, isIdle, setBuffered, hstate]

/-- So the bytes before the end of a message do not make up all of its frames. -/
theorem frames_ne_nil {frames : List ArrowFrame} (hne : bs ≠ [])
    (hrun : allocating.run bs d = .ok (frames, d')) (hidle : d'.isIdle) : frames ≠ [] := by
  rintro rfl
  rw [← List.dropLast_append_getLast hne] at hrun
  obtain ⟨_, rs, d₁, -, hlast, hnil⟩ := FieldReader.run_append_eq_ok.mp hrun
  obtain ⟨-, rfl⟩ := List.append_eq_nil_iff.mp hnil.symm
  rw [FieldReader.run_cons] at hlast
  cases hfeed : allocating.feed d₁ (bs.getLast hne) with
  | error e =>
    rw [hfeed] at hlast
    cases hlast
  | ok fed =>
    rw [hfeed] at hlast
    obtain ⟨_ | frame, d₂⟩ := fed
    · cases hlast
      exact not_isIdle_of_feed hfeed hidle
    · cases hlast

/-! ## What a caller receives -/

theorem receive_of_ok : ∀ {chunks : List (List UInt8)} {d d' : ArrowStreamDeframer}
    {frames : List ArrowFrame}, d.WellFormed →
      allocating.run chunks.flatten d = .ok (frames, d') → receive d chunks = some frames
  | [], d, _, _, _, hrun => by
    cases hrun
    rfl
  | data :: chunks, d, d', _, hd, hrun => by
    rw [List.flatten_cons] at hrun
    obtain ⟨frames, rest, d₁, hfst, hrest, rfl⟩ := FieldReader.run_append_eq_ok.mp hrun
    have hd₁ := FieldReader.run_inv allocating_lawful hd hfst
    rw [receive, pushAlloc_of_ok hd hfst]
    simp [receive_of_ok hd₁ hrest]

/-- The frames of the call that fails are lost. -/
theorem receive_of_error : ∀ {pre : List (List UInt8)} {chunk : List UInt8}
    {post : List (List UInt8)} {d d' : ArrowStreamDeframer} {frames : List ArrowFrame}
    {e : Failure}, d.WellFormed → allocating.run pre.flatten d = .ok (frames, d') →
      allocating.run chunk d' = .error e → receive d (pre ++ chunk :: post) = some frames
  | [], chunk, post, d, _, _, _, hd, hrun, herr => by
    cases hrun
    obtain ⟨e', d₁, hpush⟩ := pushAlloc_of_error hd herr
    rw [List.nil_append, receive, hpush]
    rfl
  | data :: pre, chunk, post, d, d', _, e, hd, hrun, herr => by
    rw [List.flatten_cons] at hrun
    obtain ⟨frames, rest, d₁, hfst, hrest, rfl⟩ := FieldReader.run_append_eq_ok.mp hrun
    have hd₁ := FieldReader.run_inv allocating_lawful hd hfst
    rw [List.cons_append, receive, pushAlloc_of_ok hd hfst]
    simp [receive_of_error hd₁ hrest herr]

/-- A run that fails does so in one of the chunks. -/
theorem exists_failing_chunk : ∀ {chunks : List (List UInt8)} {d : ArrowStreamDeframer}
    {e : Failure}, allocating.run chunks.flatten d = .error e →
      ∃ pre chunk post frames d' e', chunks = pre ++ chunk :: post
        ∧ allocating.run pre.flatten d = .ok (frames, d') ∧ allocating.run chunk d' = .error e'
  | [], _, _, h => by cases h
  | data :: chunks, d, e, h => by
    cases hdata : allocating.run data d with
    | error e' => exact ⟨[], data, chunks, [], d, e', rfl, rfl, hdata⟩
    | ok fst =>
      rw [List.flatten_cons, FieldReader.run_append, hdata, Except.bind] at h
      cases hrest : allocating.run chunks.flatten fst.2 with
      | ok res =>
        rw [hrest] at h
        cases h
      | error e' =>
        obtain ⟨pre, chunk, post, frames, d', e'', rfl, hpre, hchunk⟩ :=
          exists_failing_chunk hrest
        exact ⟨data :: pre, chunk, post, fst.1 ++ frames, d', e'', rfl,
          FieldReader.run_append_eq_ok.mpr ⟨_, _, _, hdata, hpre, rfl⟩, hchunk⟩

/-- Every stream is messages and then bytes that no message is at the start of. -/
theorem exists_messages (stream : List UInt8) :
    ∃ (messages : List (Message maxMetadataBytes maxBodyBytes)) (tail : List UInt8),
      stream = messages.flatMap Message.encode ++ tail
        ∧ ∀ m : Message maxMetadataBytes maxBodyBytes, ¬ m.encode <+: tail := by
  induction hn : stream.length using Nat.strong_induction_on generalizing stream with
  | _ n ih =>
    by_cases h : ∃ m : Message maxMetadataBytes maxBodyBytes, m.encode <+: stream
    · obtain ⟨m, rest, rfl⟩ := h
      have hpos : 0 < m.encode.length := by
        cases m <;> simp [Message.encode, buildTestFrame, buildTestEos, continuationMarker]
      rw [List.length_append] at hn
      obtain ⟨messages, tail, rfl, htail⟩ := ih rest.length (by omega) rest rfl
      exact ⟨m :: messages, tail, by simp, htail⟩
    · exact ⟨[], stream, rfl, fun m hm => h ⟨m, hm⟩⟩

/-- A call gets the last byte of the last message together with that of a malformed field. -/
def LosesFrames (messages : List (Message maxMetadataBytes maxBodyBytes)) (tail : List UInt8)
    (chunks : List (List UInt8)) : Prop :=
  ∃ pre chunk post field, chunks = pre ++ chunk :: post ∧ field <+: tail
    ∧ Malformed maxMetadataBytes maxBodyBytes field
    ∧ pre.flatten.length < (messages.flatMap Message.encode).length
    ∧ (messages.flatMap Message.encode).length + field.length ≤ pre.flatten.length + chunk.length

section Tail

variable {messages : List (Message maxMetadataBytes maxBodyBytes)} {tail : List UInt8}
  {chunks : List (List UInt8)}

/-- Bytes of the tail have no frames, and where they fail there is a malformed field. -/
theorem run_before_tail (htail : ∀ m : Message maxMetadataBytes maxBodyBytes, ¬ m.encode <+: tail)
    {q rest : List UInt8} (hq : tail = q ++ rest) (sequence : UInt64) :
    (∃ d', allocating.run q (idle maxMetadataBytes maxBodyBytes sequence) = .ok ([], d'))
      ∨ ∃ field, field <+: q ∧ Malformed maxMetadataBytes maxBodyBytes field
        ∧ ∃ e, allocating.run q (idle maxMetadataBytes maxBodyBytes sequence) = .error e := by
  rcases @tailCases maxMetadataBytes maxBodyBytes q sequence with
    ⟨m, rest', rfl⟩ | ⟨field, rest', rfl, hfield⟩ | hok
  · exact absurd ⟨rest' ++ rest, by rw [hq, List.append_assoc]⟩ (htail m)
  · obtain ⟨e, he⟩ := run_malformed sequence hfield
    refine .inr ⟨field, List.prefix_append .., hfield, e, ?_⟩
    rw [FieldReader.run_append, he]
    rfl
  · exact .inl hok

theorem run_all_messages (messages : List (Message maxMetadataBytes maxBodyBytes)) :
    allocating.run (messages.flatMap Message.encode) (idle maxMetadataBytes maxBodyBytes 0)
      = .ok (messages.mapIdx fun i message => message.received (.ofNat i),
        idle maxMetadataBytes maxBodyBytes (.ofNat messages.length)) := by
  have hrun := @run_messages maxMetadataBytes maxBodyBytes 0 messages
  simpa only [UInt64.zero_add] using hrun

/-- A run past the last message has the frames of all messages. -/
theorem frames_of_run_tail
    (htail : ∀ m : Message maxMetadataBytes maxBodyBytes, ¬ m.encode <+: tail)
    {q rest : List UInt8} (hq : tail = q ++ rest) {frames : List ArrowFrame}
    {d : ArrowStreamDeframer} (h : allocating.run (messages.flatMap Message.encode ++ q)
      (idle maxMetadataBytes maxBodyBytes 0) = .ok (frames, d)) :
    frames = messages.mapIdx fun i message => message.received (.ofNat i) := by
  obtain ⟨rs₁, rs₂, d₁, h₁, h₂, rfl⟩ := FieldReader.run_append_eq_ok.mp h
  cases (run_all_messages messages).symm.trans h₁
  rcases run_before_tail htail hq _ with ⟨_, hok⟩ | ⟨_, -, -, _, herr⟩
  · cases h₂.symm.trans hok
    exact List.append_nil _
  · cases h₂.symm.trans herr

/-- The call that gets the last message and the malformed field returns none of its frames. -/
theorem receive_ne_of_losesFrames (hcut : chunks.flatten = messages.flatMap Message.encode ++ tail)
    (hloses : LosesFrames messages tail chunks) :
    receive (withLimits maxMetadataBytes maxBodyBytes) chunks
      ≠ some (messages.mapIdx fun i message => message.received (.ofNat i)) := by
  intro hall
  obtain ⟨pre, chunk, post, field, rfl, ⟨rest, rfl⟩, hfield, hstart, hend⟩ := hloses
  have hcut' : messages.flatMap Message.encode ++ field ++ rest
      = pre.flatten ++ (chunk ++ post.flatten) := by
    rw [List.append_assoc, ← hcut, List.flatten_append, List.flatten_cons]
  obtain ⟨q, hq⟩ : pre.flatten <+: messages.flatMap Message.encode :=
    List.prefix_of_prefix_length_le ⟨_, hcut'.symm⟩
      ⟨_, (List.append_assoc ..).symm⟩ (Nat.le_of_lt hstart)
  rw [← hq, List.append_assoc, List.append_assoc, List.append_cancel_left_eq,
    ← List.append_assoc] at hcut'
  rw [← hq, List.length_append] at hstart hend
  obtain ⟨r, hr⟩ : q ++ field <+: chunk :=
    List.prefix_of_prefix_length_le ⟨_, hcut'⟩ ⟨_, rfl⟩ (by rw [List.length_append]; omega)
  have hrun := run_all_messages messages
  rw [← hq] at hrun
  obtain ⟨rs₁, rs₂, d₁, hpre, hlast, hframes⟩ := FieldReader.run_append_eq_ok.mp hrun
  have hne : rs₂ ≠ [] := frames_ne_nil (List.ne_nil_of_length_pos (by omega)) hlast rfl
  obtain ⟨e, he⟩ := run_malformed _ hfield
  have hchunk : allocating.run chunk d₁ = .error e := by
    rw [← hr, FieldReader.run_append, run_error_append hlast he]
    rfl
  have hd := idle_wellFormed maxMetadataBytes maxBodyBytes 0
  have hsome := (@receive_of_error pre chunk post _ _ _ _ hd hpre hchunk).symm.trans hall
  rw [hframes, Option.some_inj] at hsome
  exact hne (List.self_eq_append_right.mp hsome)

/-- A chunk that fails before the last message has ended loses frames. -/
theorem losesFrames_of_error
    (htail : ∀ m : Message maxMetadataBytes maxBodyBytes, ¬ m.encode <+: tail)
    {pre post : List (List UInt8)} {chunk q : List UInt8} (hnil : q ≠ [])
    (hmessages : messages.flatMap Message.encode = pre.flatten ++ q)
    (hq : chunk ++ post.flatten = q ++ tail) {frames : List ArrowFrame}
    {d : ArrowStreamDeframer} {e : Failure}
    (hpre : allocating.run pre.flatten (idle maxMetadataBytes maxBodyBytes 0) = .ok (frames, d))
    (hchunk : allocating.run chunk d = .error e) :
    LosesFrames messages tail (pre ++ chunk :: post) := by
  have hrun := run_all_messages messages
  rw [hmessages] at hrun
  obtain ⟨rs₁, rs₂, d₁, h₁, h₂, -⟩ := FieldReader.run_append_eq_ok.mp hrun
  cases hpre.symm.trans h₁
  rcases List.append_eq_append_iff.mp hq with ⟨r, hchunk', -⟩ | ⟨r, rfl, htail'⟩
  · rw [hchunk'] at h₂
    obtain ⟨_, _, _, hok, -, -⟩ := FieldReader.run_append_eq_ok.mp h₂
    cases hok.symm.trans hchunk
  · rcases run_before_tail htail htail' _ with ⟨_, hok⟩ | ⟨field, hprefix, hfield, -⟩
    · have := FieldReader.run_append_eq_ok.mpr ⟨_, _, _, h₂, hok, rfl⟩
      cases this.symm.trans hchunk
    · refine ⟨pre, q ++ r, post, field, rfl, ?_, hfield, ?_, ?_⟩
      · exact hprefix.trans (htail' ▸ List.prefix_append ..)
      · rw [hmessages, List.length_append]
        have := List.length_pos_of_ne_nil hnil
        omega
      · rw [hmessages, List.length_append, List.length_append]
        have := hprefix.length_le
        omega

end Tail

theorem receive_eq_messages_iff (messages : List (Message maxMetadataBytes maxBodyBytes))
    (tail : List UInt8) (chunks : List (List UInt8))
    (hcut : chunks.flatten = messages.flatMap Message.encode ++ tail)
    (htail : ∀ m : Message maxMetadataBytes maxBodyBytes, ¬ m.encode <+: tail) :
    receive (withLimits maxMetadataBytes maxBodyBytes) chunks
        = some (messages.mapIdx fun i message => message.received (.ofNat i))
      ↔ ¬ LosesFrames messages tail chunks := by
  have hd := idle_wellFormed maxMetadataBytes maxBodyBytes 0
  refine ⟨fun hall hloses => receive_ne_of_losesFrames hcut hloses hall, fun hkeeps => ?_⟩
  cases hwhole : allocating.run chunks.flatten (idle maxMetadataBytes maxBodyBytes 0) with
  | ok res =>
    have hreceive := receive_of_ok hd hwhole
    rw [hcut] at hwhole
    rw [← frames_of_run_tail htail (List.append_nil tail).symm hwhole]
    exact hreceive
  | error e =>
    obtain ⟨pre, chunk, post, frames, d', e', rfl, hpre, hchunk⟩ := exists_failing_chunk hwhole
    have hreceive := @receive_of_error pre chunk post _ _ _ _ hd hpre hchunk
    rw [List.flatten_append, List.flatten_cons] at hcut
    -- The frames are those of the chunks before; are these all messages?
    rcases List.append_eq_append_iff.mp hcut with ⟨q, hmessages, hq⟩ | ⟨q, hq, htail'⟩
    · by_cases hnil : q = []
      · rw [hnil, List.append_nil] at hmessages
        rw [← hmessages, ← List.append_nil (messages.flatMap _)] at hpre
        rw [← frames_of_run_tail htail (List.nil_append tail).symm hpre]
        exact hreceive
      · exact absurd (losesFrames_of_error htail hnil hmessages hq hpre hchunk) hkeeps
    · rw [hq] at hpre
      rw [← frames_of_run_tail htail htail' hpre]
      exact hreceive

/-- A frame cut in two and an EOS message are received, the bad marker being in a call of its
own. -/
theorem receive_eq_messages_iff_frame :
    ¬ @LosesFrames 16 16
      [.frame [7] [8, 9] (by decide) (by decide) (by decide) (by decide), .eos] [0, 0, 0, 0]
      [(buildTestFrame [7] [8, 9]).take 10, (buildTestFrame [7] [8, 9]).drop 10 ++ buildTestEos,
        [0, 0, 0, 0]] := by
  refine (receive_eq_messages_iff _ _ _ (by decide) ?_).mp (by decide)
  rintro m ⟨rest, h⟩
  cases m <;> cases h

/-- The same bytes in one call and in two. -/
theorem receive_depends_on_cut : ¬ ∀ chunks chunks' : List (List UInt8),
    chunks.flatten = chunks'.flatten →
      receive (withLimits 16 16) chunks = receive (withLimits 16 16) chunks' := by
  intro h
  have hsame := h [buildTestEos ++ [0, 0, 0, 0]] [buildTestEos, [0, 0, 0, 0]] rfl
  revert hsame
  decide

end ArrowStreamDeframer

end Ipfrs.Transport
