/-
Ipfrs.Storage.WalFaults — what a full segment and a damaged byte do to the write-ahead log.

A call that fails leaves no trace, but for one: a standalone write is appended before the
checkpoint that it makes due, and fails with it (`traceless_iff`).

A changed byte of a key, a value or a number of an entry is caught by its checksum, since
every step of FNV-1a is injective. A changed byte of a magic or of a length is not: the
scanner looks for the next magic, or takes the frame to be of another length, and may read
an entry out of the bytes of a value (`not_recover_genuine`).

How the proof goes: `FrameFrom` says what the scanner finds from a position on, and
`mem_scan_iff` that it finds nothing else. The entries before the first fault
(`firstFault`) stand as they were written. From there on the scanner stops at the first
magic, unless a frame with a fitting checksum stands there or it is the magic of the next
entry (`genuine_set`). That is the side condition `Guarded`, which speaks of the bytes of
the damaged segment only.
-/
import Ipfrs.Storage.WalRecovery

namespace Ipfrs.Storage

open Ipfrs.Lib

/-! ## Failed calls -/

namespace WalWriteAheadLog

/-- The segment has room for that many more bytes, and for one more entry. -/
def Fits (w : WalWriteAheadLog) (bytes : Nat) : Prop :=
  (w.config.maxSegmentSize = 0 ∨ w.segment.length + bytes ≤ w.config.maxSegmentSize)
    ∧ (w.config.maxEntriesPerSegment = 0
      ∨ w.entries.length < w.config.maxEntriesPerSegment)

instance (w : WalWriteAheadLog) (bytes : Nat) : Decidable (w.Fits bytes) :=
  inferInstanceAs (Decidable (_ ∧ _))

/-- One more write reaches the checkpoint interval. -/
def checkpointDue (w : WalWriteAheadLog) : Prop :=
  w.config.checkpointInterval > 0 ∧ w.writesSinceCheckpoint + 1 ≥ w.config.checkpointInterval

instance (w : WalWriteAheadLog) : Decidable w.checkpointDue :=
  inferInstanceAs (Decidable (_ ∧ _))

/-- A standalone write that is appended and makes a checkpoint due for which there is no
room behind it. -/
def LeavesWrite (w : WalWriteAheadLog) : WalCall → Prop
  | .write key value _ _ _ =>
    w.Fits (45 + key.length + value.length) ∧ w.checkpointDue
      ∧ ((w.config.maxSegmentSize > 0
          ∧ w.segment.length + (45 + key.length + value.length) + 45
            > w.config.maxSegmentSize)
        ∨ (w.config.maxEntriesPerSegment > 0
          ∧ w.entries.length + 1 ≥ w.config.maxEntriesPerSegment))
  | _ => False

/-- If the call fails, the segment, the retained entries and the transactions are as
before it. -/
def Traceless (w : WalWriteAheadLog) (call : WalCall) : Prop :=
  ∀ e, (w.step call).1 = .error e →
    (w.step call).2.segment = w.segment ∧ (w.step call).2.entries = w.entries
      ∧ (w.step call).2.transactions = w.transactions

/-- An entry that has room is appended, another is refused. -/
theorem appendEntry_cases (w : WalWriteAheadLog) (entry : WalEntry) :
    (w.Fits entry.encode.length ∧ w.appendEntry entry = .ok (w.pushEntry entry))
      ∨ (¬ w.Fits entry.encode.length ∧ w.appendEntry entry = .error .segmentFull) := by
  rw [appendEntry, Fits]
  split
  · next hsize => exact .inr ⟨by omega, rfl⟩
  · next hsize =>
    split
    · next hcount => exact .inr ⟨by omega, rfl⟩
    · next hcount => exact .inl ⟨by omega, rfl⟩

/-- A checkpoint that has no room leaves nothing but its sequence number. -/
theorem checkpoint_cases (w : WalWriteAheadLog) (now : UInt64) :
    (w.Fits 45 ∧ (w.checkpoint now).1 = .ok w.nextSeq)
      ∨ (¬ w.Fits 45 ∧ w.checkpoint now = (.error .segmentFull, w.allocSeq)) := by
  have hlen : (w.entryOf 0 .checkpoint [] [] now).encode.length = 45 :=
    WalEntry.length_encode _
  have happend := w.allocSeq.appendEntry_cases (w.entryOf 0 .checkpoint [] [] now)
  rw [hlen] at happend
  unfold checkpoint
  rcases happend with ⟨hfits, heq⟩ | ⟨hfull, heq⟩
  · exact .inl ⟨hfits, by rw [heq]⟩
  · exact .inr ⟨hfull, by rw [heq]⟩

theorem writeTx_traceless {w : WalWriteAheadLog} {txId : UInt64} {key value : List UInt8}
    {op : WalOpType} {now : UInt64} {e : WalError}
    (h : (w.step (.writeTx txId key value op now)).1 = .error e) :
    let w' := (w.step (.writeTx txId key value op now)).2
    w'.segment = w.segment ∧ w'.entries = w.entries ∧ w'.transactions = w.transactions := by
  simp only [step, writeTx] at h ⊢
  split at h
  · exact ⟨rfl, rfl, rfl⟩
  · split at h
    · exact ⟨rfl, rfl, rfl⟩
    · cases h

theorem endTransaction_traceless {w : WalWriteAheadLog} {txId : UInt64} {op : WalOpType}
    {state : TxState} {now : UInt64} {e : WalError}
    (h : (w.endTransaction txId op state now).1 = .error e) :
    let w' := (w.endTransaction txId op state now).2
    w'.segment = w.segment ∧ w'.entries = w.entries ∧ w'.transactions = w.transactions := by
  unfold endTransaction at h ⊢
  split at h
  · exact ⟨rfl, rfl, rfl⟩
  · split at h
    · exact ⟨rfl, rfl, rfl⟩
    · cases h

/-- The appended entry, counted: what a standalone write is before its checkpoint. -/
theorem fits_appended_iff (w : WalWriteAheadLog) (entry : WalEntry) :
    ((w.allocSeq.pushEntry entry).countWrite).Fits 45 ↔ (w.config.maxSegmentSize = 0
          ∨ w.segment.length + entry.encode.length + 45 ≤ w.config.maxSegmentSize)
        ∧ (w.config.maxEntriesPerSegment = 0
          ∨ w.entries.length + 1 < w.config.maxEntriesPerSegment) := by
  simp [Fits, countWrite, pushEntry, allocSeq]

/-- What a standalone write ends in: refused, appended, appended with a checkpoint, or
appended and failed for want of room for its checkpoint. -/
theorem write_cases (w : WalWriteAheadLog) (key value : List UInt8) (op : WalOpType)
    (now later : UInt64) :
    let written := w.write key value op now later
    (¬ w.Fits (45 + key.length + value.length) ∧ written = (.error .segmentFull, w.allocSeq))
      ∨ (¬ w.LeavesWrite (.write key value op now later) ∧ written.1 = .ok w.nextSeq)
      ∨ (w.LeavesWrite (.write key value op now later)
          ∧ written.1 = .error .segmentFull
          ∧ written.2.segment = w.segment ++ (w.entryOf 0 op key value now).encode) := by
  have hlen : (w.entryOf 0 op key value now).encode.length = 45 + key.length + value.length :=
    WalEntry.length_encode _
  have hroom := w.fits_appended_iff (w.entryOf 0 op key value now)
  have happend := w.allocSeq.appendEntry_cases (w.entryOf 0 op key value now)
  rw [hlen] at happend hroom
  unfold write LeavesWrite
  rcases happend with ⟨hfits, heq⟩ | ⟨hfull, heq⟩
  · rw [heq]
    have hcheck := checkpoint_cases (w.allocSeq.pushEntry (w.entryOf 0 op key value now)).countWrite
      later
    rw [hroom] at hcheck
    dsimp only
    split
    · next hdue =>
      rcases hcheck with ⟨hfits', hok⟩ | ⟨hfull', herr⟩
      · refine .inr (.inl ⟨fun h => ?_, ?_⟩)
        · have hnone := h.2.2
          omega
        · split
          · next e w' hfailed =>
            rw [hfailed] at hok
            cases hok
          · rfl
      · refine .inr (.inr ⟨⟨hfits, hdue, by omega⟩, ?_⟩)
        rw [herr]
        exact ⟨rfl, rfl⟩
    · next hnot => exact .inr (.inl ⟨fun h => hnot h.2.1, rfl⟩)
  · exact .inl ⟨hfull, by rw [heq]⟩

/-- A call that fails leaves no trace, except a standalone write that was appended before
its checkpoint found no room. -/
theorem traceless_iff (w : WalWriteAheadLog) (call : WalCall) :
    w.Traceless call ↔ ¬ w.LeavesWrite call := by
  cases call with
  | write key value op now later =>
    have hcases := w.write_cases key value op now later
    simp only [Traceless, step]
    rcases hcases with ⟨hfull, heq⟩ | ⟨hnot, hok⟩ | ⟨hleaves, hfailed, hsegment⟩
    · rw [heq]
      exact iff_of_true (fun e h => ⟨rfl, rfl, rfl⟩) (fun h => hfull h.1)
    · rw [hok]
      exact iff_of_true (fun e h => by cases h) hnot
    · rw [hfailed, hsegment]
      refine iff_of_false (fun h => ?_) (not_not_intro hleaves)
      have hlen := congrArg List.length (h .segmentFull rfl).1
      rw [List.length_append, WalEntry.length_encode] at hlen
      omega
  | beginTransaction now | truncateBefore now => exact iff_of_true (fun e h => by cases h) id
  | writeTx txId key value op now => exact iff_of_true (fun e h => writeTx_traceless h) id
  | commitTransaction txId now | rollbackTransaction txId now =>
    exact iff_of_true (fun e h => endTransaction_traceless h) id
  | checkpoint now =>
    refine iff_of_true (fun e h => ?_) id
    rcases w.checkpoint_cases now with ⟨-, heq⟩ | ⟨-, heq⟩
    · simp [step, heq, Except.map] at h
    · simp only [step, heq]
      exact ⟨rfl, rfl, rfl⟩

/-- Room for one entry, and a checkpoint after every write. -/
theorem not_traceless_write :
    ¬ (WalWriteAheadLog.new
        { maxSegmentSize := 0, maxEntriesPerSegment := 1, checkpointInterval := 1 }).Traceless
      (.write [1] [2] .put 7 8) := by
  intro h
  have hentries := (h .segmentFull (by decide)).2.1
  revert hentries
  decide

end WalWriteAheadLog

/-! ## A damaged frame -/

variable {l : List UInt8} {a i p : Nat} {es : List WalEntry}

theorem window_set {w : Nat} (b : UInt8) (h : i < a ∨ a + w ≤ i) :
    window (l.set i b) a w = window l a w := by
  rw [window, window]
  rcases h with hlt | hle
  · rw [List.drop_set_of_lt hlt]
  · rw [List.drop_set, if_neg (by omega), List.take_set_of_le (by omega)]

theorem u64At_set (b : UInt8) (h : i < a ∨ a + 8 ≤ i) :
    WalEntry.u64At (l.set i b) a = WalEntry.u64At l a := by
  rw [WalEntry.u64At, WalEntry.u64At, window_set b h]

theorem u32At_set (b : UInt8) (h : i < a ∨ a + 4 ≤ i) :
    WalEntry.u32At (l.set i b) a = WalEntry.u32At l a := by
  rw [WalEntry.u32At, WalEntry.u32At, window_set b h]

/-- A changed byte of a number changes the number. -/
theorem u64At_set_ne {b : UInt8} (ha : a ≤ i) (hi : i < a + 8) (hlen : a + 8 ≤ l.length)
    (hb : l[i]? ≠ some b) : WalEntry.u64At (l.set i b) a ≠ WalEntry.u64At l a := by
  intro heq
  have hwin : ∀ m : List UInt8, a + 8 ≤ m.length → (window m a 8).length = 8 := by
    intro m hm
    rw [window, List.length_take, List.length_drop]
    omega
  have hlen' : a + 8 ≤ (l.set i b).length := by rwa [List.length_set]
  have hlt : ∀ m : List UInt8, a + 8 ≤ m.length → leNat (window m a 8) < 2 ^ 64 := by
    intro m hm
    have := leNat_lt (window m a 8)
    rw [hwin m hm] at this
    exact this
  have hnat : leNat (window (l.set i b) a 8) = leNat (window l a 8) := by
    have h := congrArg UInt64.toNat heq
    simp only [WalEntry.u64At, UInt64.toNat_ofNat'] at h
    rwa [Nat.mod_eq_of_lt (hlt _ hlen'), Nat.mod_eq_of_lt (hlt _ hlen)] at h
  have hbytes : window (l.set i b) a 8 = window l a 8 := by
    rw [← leBytes_leNat (window (l.set i b) a 8), ← leBytes_leNat (window l a 8), hnat,
      hwin _ hlen', hwin _ hlen]
  have hget := congrArg (fun m : List UInt8 => m[i - a]?) hbytes
  simp only [window, List.getElem?_take_of_lt (show i - a < 8 by omega), List.getElem?_drop,
    Nat.add_sub_cancel' ha, List.getElem?_set_self (show i < l.length by omega)] at hget
  exact hb hget.symm

namespace WalEntry

/-- The byte at this place of the frame is neither in the magic nor in a length. -/
def Checked (e : WalEntry) (i : Nat) : Prop :=
  (4 ≤ i ∧ i < 21) ∨ (25 ≤ i ∧ i < 25 + e.key.length)
    ∨ (29 + e.key.length ≤ i ∧ i < 45 + e.key.length + e.value.length)

instance (e : WalEntry) (i : Nat) : Decidable (e.Checked i) := inferInstanceAs (Decidable (_ ∨ _))

/-- A frame with such a byte changed is not read. -/
theorem decode_of_checked {e : WalEntry} {data buf : List UInt8} {offset i : Nat} {b : UInt8}
    (hbuf : data.drop offset = buf.set i b) (h : e.Holds buf) (hs : e.Sized)
    (hlen : e.encode.length ≤ buf.length) (hi : e.Checked i) (hb : buf[i]? ≠ some b) :
    (data.drop offset).take 4 = walMagic ∧ ∃ err, decode data offset = .error err := by
  have henc := length_encode e
  have hmin : minEntryBytes = 45 := rfl
  have hmagic : (data.drop offset).take 4 = walMagic := by
    rw [hbuf, ← window_zero, window_set b (.inr (by rcases hi with h | h | h <;> omega)),
      window_zero]
    exact h.magic (by omega)
  refine ⟨hmagic, ?_⟩
  have hkey : u32At (buf.set i b) 21 = e.key.length := by
    rw [u32At_set b (by rcases hi with h | h | h <;> omega)]
    exact h.keyLen hs (by omega)
  have hvalue : u32At (buf.set i b) (25 + e.key.length) = e.value.length := by
    rw [u32At_set b (by rcases hi with h | h | h <;> omega)]
    exact h.valueLen hs (by omega)
  have hsum : fnv1a64 ((buf.set i b).take (25 + e.key.length + 4 + e.value.length + 8))
      ≠ u64At (buf.set i b) (25 + e.key.length + 4 + e.value.length + 8) := by
    have hbody := h.body rfl (by omega : 25 + e.key.length + 4 + e.value.length + 8 ≤ buf.length)
    have hstored := h.checksum (a := 25 + e.key.length + 4 + e.value.length + 8) rfl (by omega)
    by_cases hin : i < 25 + e.key.length + 4 + e.value.length + 8
    · rw [u64At_set b (.inl hin), hstored, List.take_set, hbody]
      apply Fnv.hash_set_ne (by rw [length_body]; omega)
      rw [← hbody, List.getElem?_take_of_lt hin]
      exact hb
    · rw [List.take_set_of_le (by omega), hbody, ← hstored]
      exact (u64At_set_ne (by omega) (by rcases hi with h | h | h <;> omega) (by omega) hb).symm
  unfold decode
  rw [hbuf] at hmagic ⊢
  simp only [hmagic, hkey, hvalue, List.length_set]
  rw [if_neg (by omega), if_neg (by simp)]
  split
  · exact ⟨_, rfl⟩
  · rw [if_neg (by omega), if_neg (by omega), if_pos hsum]
    exact ⟨_, rfl⟩

end WalEntry

/-! ## What the scanner finds -/

/-- The magic stands at this position. -/
def MagicAt (data : List UInt8) (pos : Nat) : Prop := (data.drop pos).take 4 = walMagic

instance (data : List UInt8) (pos : Nat) : Decidable (MagicAt data pos) :=
  inferInstanceAs (Decidable (_ = _))

/-- The entries of the frames from a position on: that at the first magic, if it is read as
one, and those from its end on. -/
inductive FrameFrom (data : List UInt8) : Nat → WalEntry → Prop where
  | skip {pos : Nat} {e : WalEntry} : ¬ MagicAt data pos → FrameFrom data (pos + 1) e →
      FrameFrom data pos e
  | here {pos n : Nat} {e : WalEntry} : WalEntry.decode data pos = .ok (e, n) →
      FrameFrom data pos e
  | behind {pos n : Nat} {e e' : WalEntry} : WalEntry.decode data pos = .ok (e', n) →
      FrameFrom data (pos + n) e → FrameFrom data pos e

section Frames

variable {data : List UInt8} {pos : Nat} {e : WalEntry}

/-- What is read as a frame has the magic and takes the bytes of a frame. -/
theorem decode_ok {n : Nat} (h : WalEntry.decode data pos = .ok (e, n)) :
    MagicAt data pos ∧ pos + 45 ≤ data.length ∧ 45 ≤ n := by
  unfold WalEntry.decode at h
  dsimp only at h
  split at h
  · cases h
  · next hlen =>
    split at h
    · cases h
    · next hmagic =>
      split at h
      · cases h
      · split at h
        · cases h
        · split at h
          · cases h
          · split at h
            · cases h
            · cases h
              have hmin : minEntryBytes = 45 := rfl
              rw [List.length_drop] at hlen
              exact ⟨Classical.not_not.mp hmagic, by omega, by omega⟩

theorem frameFrom_skip (h : ¬ MagicAt data pos) :
    FrameFrom data pos e ↔ FrameFrom data (pos + 1) e := by
  refine ⟨fun hframe => ?_, FrameFrom.skip h⟩
  cases hframe with
  | skip _ hrest => exact hrest
  | here hread => exact absurd (decode_ok hread).1 h
  | behind hread _ => exact absurd (decode_ok hread).1 h

theorem frameFrom_skips {k : Nat} (h : ∀ i < k, ¬ MagicAt data (pos + i))
    (hframe : FrameFrom data (pos + k) e) : FrameFrom data pos e := by
  induction k generalizing pos with
  | zero => exact hframe
  | succ k ih =>
    refine FrameFrom.skip (h 0 (Nat.zero_lt_succ k)) (ih (fun i hi => ?_) ?_)
    · rw [Nat.add_assoc, Nat.add_comm 1 i]
      exact h (i + 1) (Nat.succ_lt_succ hi)
    · rw [Nat.add_assoc, Nat.add_comm 1 k]
      exact hframe

/-- The first magic from a position on. -/
structure FirstMagic (data : List UInt8) (start q : Nat) : Prop where
  le : start ≤ q
  magic : MagicAt data q
  none : ∀ i, start ≤ i → i < q → ¬ MagicAt data i

/-- What is found from a position on is found at the first magic. -/
theorem FrameFrom.exists_firstMagic (hframe : FrameFrom data pos e) :
    ∃ q, FirstMagic data pos q ∧ FrameFrom data q e := by
  induction hframe with
  | @skip pos e hnot hrest ih =>
    obtain ⟨q, hq, hframe⟩ := ih
    refine ⟨q, ⟨by have := hq.le; omega, hq.magic, fun i hi hlt => ?_⟩, hframe⟩
    rcases Nat.eq_or_lt_of_le hi with rfl | hi
    · exact hnot
    · exact hq.none i hi hlt
  | @here pos n e hread =>
    exact ⟨pos, ⟨Nat.le_refl pos, (decode_ok hread).1, fun i hi hlt => by omega⟩,
      FrameFrom.here hread⟩
  | @behind pos n e e' hread hrest ih =>
    exact ⟨pos, ⟨Nat.le_refl pos, (decode_ok hread).1, fun i hi hlt => by omega⟩,
      FrameFrom.behind hread hrest⟩

/-- No frame with a fitting checksum stands at this position: the byte of the operation
stands for none, the lengths run past the data, or the bytes in the place of the checksum
are not the hash of those before them. -/
def NoFrameAt (data : List UInt8) (pos : Nat) : Prop :=
  let buf := data.drop pos
  let keyEnd := 25 + WalEntry.u32At buf 21
  let tsEnd := keyEnd + 4 + WalEntry.u32At buf keyEnd + 8
  WalOpType.fromU8 (buf.getD 20 0) = none ∨ buf.length < tsEnd + 8
    ∨ fnv1a64 (buf.take tsEnd) ≠ WalEntry.u64At buf tsEnd

theorem decode_of_noFrameAt (h : NoFrameAt data pos) :
    ∃ err, WalEntry.decode data pos = .error err := by
  unfold NoFrameAt at h
  unfold WalEntry.decode
  dsimp only at h ⊢
  split
  · exact ⟨_, rfl⟩
  split
  · exact ⟨_, rfl⟩
  split
  · exact ⟨_, rfl⟩
  next hop =>
    rw [hop] at h
    split
    · exact ⟨_, rfl⟩
    split
    · exact ⟨_, rfl⟩
    split
    · exact ⟨_, rfl⟩
    · next hlen hfit =>
      rcases h with h | h | h
      · cases h
      · exact absurd h hlen
      · exact absurd h hfit

theorem frameFrom_read {e' : WalEntry} {n : Nat} (h : WalEntry.decode data pos = .ok (e', n)) :
    FrameFrom data pos e ↔ e = e' ∨ FrameFrom data (pos + n) e := by
  constructor
  · intro hframe
    cases hframe with
    | skip hnot _ => exact absurd (decode_ok h).1 hnot
    | here hread =>
      rw [h] at hread
      cases hread
      exact .inl rfl
    | behind hread hrest =>
      rw [h] at hread
      cases hread
      exact .inr hrest
  · rintro (rfl | hrest)
    · exact FrameFrom.here h
    · exact FrameFrom.behind h hrest

theorem not_frameFrom_error {err : WalError} (hmagic : MagicAt data pos)
    (h : WalEntry.decode data pos = .error err) : ¬ FrameFrom data pos e := by
  intro hframe
  cases hframe with
  | skip hnot _ => exact hnot hmagic
  | here hread => rw [h] at hread; cases hread
  | behind hread _ => rw [h] at hread; cases hread

theorem not_frameFrom_end (h : data.length < pos + 4) : ¬ FrameFrom data pos e := by
  intro hframe
  induction hframe with
  | skip _ _ ih => exact ih (by omega)
  | here hread =>
    have hlen := (decode_ok hread).2.1
    omega
  | behind hread _ _ =>
    have hlen := (decode_ok hread).2.1
    omega

/-- The scanning loop finds the entries of the frames. -/
theorem mem_scan_iff (rounds : Nat) {all : List WalEntry} (hrounds : data.length - pos ≤ rounds) :
    e ∈ scan data rounds pos all ↔ e ∈ all ∨ FrameFrom data pos e := by
  induction rounds generalizing pos all with
  | zero =>
    have hend : ¬ FrameFrom data pos e := not_frameFrom_end (by omega)
    simp [scan, hend]
  | succ rounds ih =>
    rw [scan]
    by_cases hin : pos < data.length
    · rw [if_pos hin]
      by_cases hskip : pos + 4 ≤ data.length ∧ (data.drop pos).take 4 ≠ walMagic
      · rw [if_pos hskip, ih (by omega), frameFrom_skip hskip.2]
      · rw [if_neg hskip]
        cases hread : WalEntry.decode data pos with
        | ok read =>
          obtain ⟨e', n⟩ := read
          have hn := (decode_ok hread).2.2
          rw [ih (by omega), frameFrom_read hread, List.mem_append, List.mem_singleton,
            or_assoc]
        | error err =>
          have hnone : ¬ FrameFrom data pos e := by
            by_cases hend : pos + 4 ≤ data.length
            · exact not_frameFrom_error
                (Classical.not_not.mp (fun hne => hskip ⟨hend, hne⟩)) hread
            · exact not_frameFrom_end (by omega)
          simp [hnone]
    · have hend : ¬ FrameFrom data pos e := not_frameFrom_end (by omega)
      simp [hin, hend]

theorem mem_scanEntries_iff : e ∈ scanEntries data ↔ FrameFrom data 0 e := by
  rw [scanEntries, mem_scan_iff data.length (Nat.sub_le ..)]
  simp

/-- Entries that stand as they were written are found, and the scan goes on behind them. -/
theorem frameFrom_encodeAll {rest : List UInt8} : ∀ {pre : List WalEntry} {pos : Nat},
    data.drop pos = encodeAll pre ++ rest → (∀ x ∈ pre, x.Sized) →
    (FrameFrom data pos e
      ↔ e ∈ pre.map WalEntry.stamped ∨ FrameFrom data (pos + (encodeAll pre).length) e)
  | [], pos, _, _ => by simp
  | x :: pre, pos, hdata, hsized => by
    rw [encodeAll_cons, List.append_assoc] at hdata
    obtain ⟨hx, hpre⟩ := List.forall_mem_cons.mp hsized
    have hholds : x.Holds (data.drop pos) := by
      rw [hdata]
      exact agrees_append x.encode _
    have hlen : x.encode.length ≤ (data.drop pos).length := by simp [hdata]
    have hrest : data.drop (pos + x.encode.length) = encodeAll pre ++ rest := by
      rw [← List.drop_drop, hdata, List.drop_left]
    rw [frameFrom_read (WalEntry.decode_of_holds hholds hx hlen),
      frameFrom_encodeAll hrest hpre, encodeAll_cons, List.length_append, List.map_cons,
      List.mem_cons, or_assoc, Nat.add_assoc]

end Frames

/-! ## The first fault -/

/-- The first entry that is over-long or holds the position, and where it starts. -/
def firstFault (p : Nat) : Nat → List WalEntry → Option (Nat × WalEntry)
  | _, [] => none
  | start, e :: es =>
    if e.Sized ∧ start + e.encode.length ≤ p then firstFault p (start + e.encode.length) es
    else some (start, e)

theorem firstFault_eq_some {start : Nat} {fault : Nat × WalEntry}
    (h : firstFault p start es = some fault) (hstart : start ≤ p) :
    ∃ pre post, es = pre ++ fault.2 :: post ∧ (∀ x ∈ pre, x.Sized)
      ∧ fault.1 = start + (encodeAll pre).length ∧ fault.1 ≤ p
      ∧ (fault.2.Sized → p < fault.1 + fault.2.encode.length) := by
  induction es generalizing start with
  | nil => cases h
  | cons e es ih =>
    rw [firstFault] at h
    split at h
    · next hpast =>
      obtain ⟨pre, post, rfl, hsized, heq, hle, hin⟩ := ih h hpast.2
      refine ⟨e :: pre, post, rfl, List.forall_mem_cons.mpr ⟨hpast.1, hsized⟩, ?_, hle, hin⟩
      rw [heq, encodeAll_cons, List.length_append, Nat.add_assoc]
    · next hhere =>
      cases h
      exact ⟨[], es, rfl, by simp, rfl, hstart,
        fun hs => Nat.lt_of_not_le (fun hle => hhere ⟨hs, hle⟩)⟩

theorem firstFault_ne_none {start : Nat} (hp : p < start + (encodeAll es).length)
    (hstart : start ≤ p) : firstFault p start es ≠ none := by
  induction es generalizing start with
  | nil =>
    simp at hp
    omega
  | cons e es ih =>
    rw [firstFault]
    split
    · next hpast =>
      rw [encodeAll_cons, List.length_append] at hp
      exact ih (by omega) hpast.2
    · simp

/-- The changed byte is one that the checksum of the first fault protects, or the first
magic from there on is at the start of no frame, or at that of the next entry. -/
def Guarded (es : List WalEntry) (p : Nat) (b : UInt8) : Prop :=
  ∀ start e, firstFault p 0 es = some (start, e) →
    (e.Sized ∧ e.Checked (p - start))
      ∨ ∀ q, FirstMagic ((encodeAll es).set p b) start q →
          NoFrameAt ((encodeAll es).set p b) q
            ∨ (q = start + e.encode.length ∧ ∀ x ∈ es, x.Sized)

/-- With one byte changed, the scan finds the entries before the first fault, and those
behind it if it comes to the next one. -/
theorem genuine_set {P : WalEntry → Prop} (hP : ∀ x ∈ es, P x.stamped) {b : UInt8}
    (hp : p < (encodeAll es).length) (hb : (encodeAll es)[p]? ≠ some b)
    (hguarded : Guarded es p b) : ∀ x ∈ scanEntries ((encodeAll es).set p b), P x := by
  cases hfault : firstFault p 0 es with
  | none => exact absurd hfault (firstFault_ne_none (by omega) (Nat.zero_le p))
  | some fault =>
    obtain ⟨start, e⟩ := fault
    obtain ⟨pre, post, hes, hsized, hstart, hle, hin⟩ :=
      firstFault_eq_some hfault (Nat.zero_le p)
    dsimp only at hes hstart hle hin
    rw [Nat.zero_add] at hstart
    have hset : (encodeAll es).set p b
        = encodeAll pre ++ (e.encode ++ encodeAll post).set (p - start) b := by
      rw [hes, encodeAll_append, encodeAll_cons, List.set_append_right _ _ (by omega), hstart]
    have hbehind : ((encodeAll es).set p b).drop start
        = (e.encode ++ encodeAll post).set (p - start) b := by
      rw [hset, hstart, List.drop_left]
    intro x hx
    rw [mem_scanEntries_iff, frameFrom_encodeAll (by rw [List.drop_zero, hset]) hsized,
      Nat.zero_add, ← hstart] at hx
    rcases hx with hpre | hframe
    · obtain ⟨y, hy, rfl⟩ := List.mem_map.mp hpre
      exact hP y (hes ▸ List.mem_append_left _ hy)
    rcases hguarded start e hfault with ⟨hs, hchecked⟩ | hfirst
    · -- the damaged frame is refused, and the scan ends there
      have hbyte : (e.encode ++ encodeAll post)[p - start]? ≠ some b := by
        rwa [hes, encodeAll_append, encodeAll_cons,
          List.getElem?_append_right (by omega), ← hstart] at hb
      obtain ⟨hmagic, err, herr⟩ := WalEntry.decode_of_checked hbehind
        (agrees_append e.encode _) hs (by simp) hchecked hbyte
      exact absurd hframe (not_frameFrom_error hmagic herr)
    · obtain ⟨q, hq, hframe⟩ := hframe.exists_firstMagic
      rcases hfirst q hq with hno | ⟨rfl, hall⟩
      · obtain ⟨err, herr⟩ := decode_of_noFrameAt hno
        exact absurd hframe (not_frameFrom_error hq.magic herr)
      · -- the scan comes to the next entry, and the rest stands as it was written
        have hpost : ((encodeAll es).set p b).drop (start + e.encode.length)
            = encodeAll post ++ [] := by
          have hlt := hin (hall e (by simp [hes]))
          rw [← List.drop_drop, hbehind, List.drop_set_of_lt (by omega), List.drop_left,
            List.append_nil]
        rw [frameFrom_encodeAll hpost (fun y hy => hall y (by simp [hes, hy]))] at hframe
        rcases hframe with hmem | hend
        · obtain ⟨y, hy, rfl⟩ := List.mem_map.mp hmem
          exact hP y (by simp [hes, hy])
        · have hlen := congrArg List.length hpost
          rw [List.length_drop, List.append_nil] at hlen
          exact absurd hend (not_frameFrom_end (by omega))

/-! ## A changed byte of any log -/

namespace WalWriteAheadLog

/-- The segment is the encodings of the retained entries, all of which were appended. -/
structure Recorded (w : WalWriteAheadLog) : Prop where
  segment : w.segment = encodeAll w.entries
  appended : ∀ e ∈ w.entries, e ∈ w.history

theorem recorded_invariant : Invariant Recorded (fun _ _ => True) where
  frame h hseg hent hhist := ⟨by rw [hseg, hent, h.segment], by rw [hent, hhist]; exact h.appended⟩
  push {w e} h _ := by
    constructor
    · show w.segment ++ e.encode = encodeAll (w.entries ++ [e])
      rw [h.segment, encodeAll_append, encodeAll_cons, encodeAll_nil, List.append_nil]
    · intro x hx
      rcases List.mem_append.mp hx with hx | hx
      · exact List.mem_append_left _ (h.appended x hx)
      · exact List.mem_append_right _ hx
  rebuild keep h := ⟨rfl, fun e he => h.appended e (List.mem_filter.mp he).1⟩
  marker := trivial

theorem writes_true (call : WalCall) : call.Writes (fun _ _ => True) := by
  cases call <;> trivial

/-- After any calls, and for every change of a guarded byte of the segment, recovery decodes
written entries only. -/
theorem recover_genuine (config : WalConfig) (calls : List WalCall) (p : Nat) (b : UInt8)
    (hp : p < ((WalWriteAheadLog.new config).run calls).exportSegment.length)
    (hb : ((WalWriteAheadLog.new config).run calls).exportSegment[p]? ≠ some b)
    (hguarded : Guarded ((WalWriteAheadLog.new config).run calls).entries p b) :
    let w := (WalWriteAheadLog.new config).run calls
    ∀ x ∈ scanEntries (w.exportSegment.set p b), x ∈ w.history.map WalEntry.stamped := by
  intro w
  have hrecorded : Recorded w := recorded_invariant.run (fun c _ => writes_true c)
    ⟨rfl, by simp [WalWriteAheadLog.new]⟩
  have hseg : w.exportSegment = encodeAll w.entries := hrecorded.segment
  rw [hseg]
  exact genuine_set (fun x hx => List.mem_map_of_mem (hrecorded.appended x hx))
    (hseg ▸ hp) (hseg ▸ hb) hguarded

/-- A log of two writes. -/
private def twoWrites : WalWriteAheadLog :=
  (WalWriteAheadLog.new WalConfig.default).run [.write [] [1, 2] .put 7 8, .write [3] [] .put 9 9]

theorem firstFault_twoWrites (p : Nat) (hp : p < 47) : firstFault p 0 twoWrites.entries
      = some (0, (WalWriteAheadLog.new WalConfig.default).entryOf 0 .put [] [1, 2] 7) := by
  exact if_neg (fun h => absurd h.2 (Nat.not_le_of_lt hp))

set_option maxRecDepth 2000 in
/-- A byte of the first value is changed; the first magic is, and the scan comes to the
second entry. -/
theorem recover_genuine_twoWrites : (∀ x ∈ scanEntries (twoWrites.exportSegment.set 29 9),
      x ∈ twoWrites.history.map WalEntry.stamped)
    ∧ ∀ x ∈ scanEntries (twoWrites.exportSegment.set 0 0),
      x ∈ twoWrites.history.map WalEntry.stamped := by
  constructor
  · refine recover_genuine WalConfig.default _ 29 9 (by decide) (by decide) ?_
    intro start e hfault
    cases (firstFault_twoWrites 29 (by decide)).symm.trans hfault
    exact .inl (by decide)
  · refine recover_genuine WalConfig.default _ 0 0 (by decide) (by decide) ?_
    intro start e hfault
    cases (firstFault_twoWrites 0 (by decide)).symm.trans hfault
    refine .inr (fun q hq => .inr ⟨?_, by decide⟩)
    have hskip : ∀ i < 47, ¬ MagicAt ((encodeAll twoWrites.entries).set 0 0) i := by decide
    have hnext : MagicAt ((encodeAll twoWrites.entries).set 0 0) 47 := by decide
    rcases Nat.lt_trichotomy q 47 with hlt | rfl | hgt
    · exact absurd hq.magic (hskip q hlt)
    · rfl
    · exact absurd hnext (hq.none 47 (by omega) hgt)

/-- An entry that is never written. -/
private def forged : WalEntry :=
  { seqNum := 9, txId := 0, opType := .put, key := [1], value := [2], timestamp := 0,
    checksum := 0 }

/-- Its frame is the value of the only write. -/
private def concealing : WalWriteAheadLog :=
  (WalWriteAheadLog.new WalConfig.default).run [.write [] forged.encode .put 7 8]

set_option maxRecDepth 2000 in
/-- With the magic of the entry damaged, the scan goes on to the magic in its value. -/
theorem not_recover_genuine : ¬ ∀ x ∈ scanEntries (concealing.exportSegment.set 0 0),
      x ∈ concealing.history.map WalEntry.stamped := by
  intro hall
  have hskip : ∀ i < 29, ¬ MagicAt (concealing.exportSegment.set 0 0) (0 + i) := by decide
  have hbehind : (concealing.exportSegment.set 0 0).drop 29
      = forged.encode ++ (leBytes 8 7 ++ leBytes 8 (fnv1a64 ((WalWriteAheadLog.new
          WalConfig.default).entryOf 0 .put [] forged.encode 7).body).toNat) := by
    rfl
  have hholds : forged.Holds ((concealing.exportSegment.set 0 0).drop 29) := by
    rw [hbehind]
    exact agrees_append forged.encode _
  have hread := WalEntry.decode_of_holds hholds (by decide) (by rw [hbehind]; simp)
  have hframe : FrameFrom (concealing.exportSegment.set 0 0) 0 forged.stamped :=
    frameFrom_skips hskip (FrameFrom.here hread)
  have hmem := hall _ (mem_scanEntries_iff.mpr hframe)
  revert hmem
  decide

end WalWriteAheadLog

end Ipfrs.Storage
