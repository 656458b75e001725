/-
Ipfrs.Storage.WalRecovery — what recovery finds after a torn write.

Two facts meet. Every call keeps the segment equal to the encodings of the
retained entries (`Mirrored`), although appending extends the buffer and
checkpoints rebuild it. And scanning a prefix of such encodings decodes the
entries that lie wholly inside it and stops at the torn one, whatever bytes the
keys and values hold: the scanner is at the start of an entry whenever it looks
for the magic.
-/
import Ipfrs.Storage.WriteAheadLog

namespace Ipfrs.Storage

open Ipfrs.Lib

@[simp] theorem encodeAll_nil : encodeAll [] = [] := rfl

@[simp] theorem encodeAll_cons (e : WalEntry) (es : List WalEntry) :
    encodeAll (e :: es) = e.encode ++ encodeAll es := by
  rw [encodeAll, List.flatMap_cons, encodeAll]

theorem encodeAll_append (es es' : List WalEntry) :
    encodeAll (es ++ es') = encodeAll es ++ encodeAll es' := by
  rw [encodeAll, List.flatMap_append, encodeAll, encodeAll]

/-! ## Scanning a prefix -/

/-- The entries whose encodings lie wholly inside the first `n` bytes. -/
def within : Nat → List WalEntry → List WalEntry
  | _, [] => []
  | n, e :: es => if e.encode.length ≤ n then e :: within (n - e.encode.length) es else []

/-- At the start of an entry the scanner never skips a byte. -/
theorem not_skips {e : WalEntry} {data : List UInt8} {pos : Nat} (h : e.Holds (data.drop pos)) :
    ¬ (pos + 4 ≤ data.length ∧ (data.drop pos).take 4 ≠ walMagic) := by
  rintro ⟨hlen, hne⟩
  exact hne (h.magic (by rw [List.length_drop]; omega))

theorem scan_at_end {data : List UInt8} {pos : Nat} (h : data.length ≤ pos) (rounds : Nat)
    (all : List WalEntry) : scan data rounds pos all = all := by
  cases rounds with
  | zero => rfl
  | succ rounds => rw [scan, if_neg (by omega)]

theorem scan_take {data : List UInt8} : ∀ (es : List WalEntry) (n pos rounds : Nat)
    (all : List WalEntry), data.drop pos = (encodeAll es).take n → data.length - pos ≤ rounds →
    (∀ e ∈ es, e.Sized) → scan data rounds pos all = all ++ (within n es).map WalEntry.stamped
  | [], n, pos, rounds, all, hdata, _, _ => by
    have hend : data.length ≤ pos := by
      have hlen := congrArg List.length hdata
      simp at hlen
      omega
    rw [scan_at_end hend, within, List.map_nil, List.append_nil]
  | e :: es, n, pos, rounds, all, hdata, hrounds, hsized => by
    rw [encodeAll_cons] at hdata
    have hholds : e.Holds (data.drop pos) := by
      rw [hdata]
      exact agrees_take_append e.encode _ n
    have hlen := congrArg List.length hdata
    rw [List.length_take, List.length_append, List.length_drop] at hlen
    have hes := hsized e List.mem_cons_self
    by_cases hend : data.length ≤ pos
    · have hpos := WalEntry.length_encode e
      rw [scan_at_end hend, within, if_neg (by omega), List.map_nil, List.append_nil]
    · cases rounds with
      | zero => omega
      | succ rounds =>
        rw [scan, if_pos (by omega), if_neg (not_skips hholds), within]
        by_cases hfit : e.encode.length ≤ n
        · have hwhole : e.encode.length ≤ (data.drop pos).length := by
            rw [List.length_drop]
            omega
          have hrest : data.drop (pos + e.encode.length)
              = (encodeAll es).take (n - e.encode.length) := by
            rw [← List.drop_drop, hdata, List.drop_take, List.drop_left]
          have hpos := WalEntry.length_encode e
          rw [WalEntry.decode_of_holds hholds hes hwhole, if_pos hfit, List.map_cons]
          show scan data rounds (pos + e.encode.length) (all ++ [e.stamped]) = _
          rw [scan_take es (n - e.encode.length) (pos + e.encode.length) rounds
            (all ++ [e.stamped]) hrest (by omega)
            (fun x hx => hsized x (List.mem_cons_of_mem _ hx)), List.append_assoc,
            List.singleton_append]
        · have htorn : (data.drop pos).length < e.encode.length := by
            rw [List.length_drop]
            omega
          obtain ⟨seq, hdecode⟩ := WalEntry.decode_of_torn hholds hes htorn
          rw [hdecode, if_neg hfit, List.map_nil, List.append_nil]

/-- A prefix of the encodings is scanned as the entries it holds wholly. -/
theorem scanEntries_take {es : List WalEntry} (hsized : ∀ e ∈ es, e.Sized) (n : Nat) :
    scanEntries ((encodeAll es).take n) = (within n es).map WalEntry.stamped := by
  rw [scanEntries, scan_take es n 0 _ [] (List.drop_zero ..) (by omega) hsized,
    List.nil_append]

/-! ## What every call keeps -/

/-- The keys and values of a call. -/
def WalCall.Writes (Q : List UInt8 → List UInt8 → Prop) : WalCall → Prop
  | .write key value _ _ _ => Q key value
  | .writeTx _ key value _ _ => Q key value
  | _ => True

namespace WalWriteAheadLog

/-- What appending an entry with such a key and value and rebuilding the segment keep, and
what does not look at the counters and the transactions. -/
structure Invariant (I : WalWriteAheadLog → Prop) (Q : List UInt8 → List UInt8 → Prop) :
    Prop where
  frame : ∀ {w w' : WalWriteAheadLog}, I w → w'.segment = w.segment → w'.entries = w.entries →
    w'.history = w.history → I w'
  push : ∀ {w : WalWriteAheadLog} {e : WalEntry}, I w → Q e.key e.value → I (w.pushEntry e)
  rebuild : ∀ {w : WalWriteAheadLog} (keep : WalEntry → Bool), I w → I (w.rebuild keep)
  marker : Q [] []

namespace Invariant

variable {I : WalWriteAheadLog → Prop} {Q : List UInt8 → List UInt8 → Prop}

theorem append (hI : Invariant I Q) {w w' : WalWriteAheadLog} {entry : WalEntry}
    (h : w.allocSeq.appendEntry entry = .ok w') (hq : Q entry.key entry.value) (hw : I w) :
    I w' := by
  rw [appendEntry_eq_ok h]
  exact hI.push (hI.frame hw rfl rfl rfl) hq

theorem checkpoint (hI : Invariant I Q) {w : WalWriteAheadLog} (now : UInt64) (hw : I w) :
    I (w.checkpoint now).2 := by
  unfold WalWriteAheadLog.checkpoint
  split
  · exact hI.frame hw rfl rfl rfl
  · next w' h =>
    have hw' : I (w'.rebuild w'.retains) := hI.rebuild _ (hI.append h hI.marker hw)
    exact hI.frame hw' rfl rfl rfl

theorem endTransaction (hI : Invariant I Q) {w : WalWriteAheadLog} (txId : UInt64)
    (op : WalOpType) (state : TxState) (now : UInt64) (hw : I w) :
    I (w.endTransaction txId op state now).2 := by
  unfold WalWriteAheadLog.endTransaction
  split
  · exact hw
  · split
    · exact hI.frame hw rfl rfl rfl
    · next w' h => exact hI.frame (hI.append h hI.marker hw) rfl rfl rfl

/-- A call that removes nothing leaves the segment as it is. -/
theorem truncateBefore (hI : Invariant I Q) {w : WalWriteAheadLog} (seqNum : UInt64)
    (hw : I w) : I (w.truncateBefore seqNum).2 := by
  unfold WalWriteAheadLog.truncateBefore
  dsimp only
  split
  · exact hI.rebuild _ hw
  · next hnone =>
    have hall : w.entries.filter (fun e => decide (seqNum ≤ e.seqNum)) = w.entries := by
      apply List.filter_sublist.eq_of_length_le
      simp only [WalWriteAheadLog.rebuild, gt_iff_lt, Nat.not_lt, Nat.le_zero_eq,
        Nat.sub_eq_zero_iff_le] at hnone
      exact hnone
    exact hI.frame hw rfl hall rfl

theorem step (hI : Invariant I Q) {w : WalWriteAheadLog} {call : WalCall}
    (hcall : call.Writes Q) (hw : I w) : I (w.step call).2 := by
  cases call with
  | write key value op now later =>
    simp only [WalWriteAheadLog.step, WalWriteAheadLog.write]
    split
    · exact hI.frame hw rfl rfl rfl
    · next w' h =>
      have hw' : I w'.countWrite := hI.frame (hI.append h hcall hw) rfl rfl rfl
      have hchecked := hI.checkpoint later hw'
      split
      · split
        · next hc => rwa [hc] at hchecked
        · next hc => rwa [hc] at hchecked
      · exact hw'
  | beginTransaction now =>
    have halloc : I w.allocTxId := hI.frame hw rfl rfl rfl
    simp only [WalWriteAheadLog.step, WalWriteAheadLog.beginTransaction]
    split
    · exact hI.frame hw rfl rfl rfl
    · next w' h => exact hI.frame (hI.append h hI.marker halloc) rfl rfl rfl
  | writeTx txId key value op now =>
    simp only [WalWriteAheadLog.step, WalWriteAheadLog.writeTx]
    split
    · exact hw
    · split
      · exact hI.frame hw rfl rfl rfl
      · next w' h => exact hI.frame (hI.append h hcall hw) rfl rfl rfl
  | commitTransaction txId now | rollbackTransaction txId now =>
    exact hI.endTransaction txId _ _ now hw
  | checkpoint now => exact hI.checkpoint now hw
  | truncateBefore seqNum => exact hI.truncateBefore seqNum hw

theorem run (hI : Invariant I Q) {w : WalWriteAheadLog} {calls : List WalCall}
    (hcalls : ∀ c ∈ calls, c.Writes Q) (hw : I w) : I (w.run calls) := by
  induction calls generalizing w with
  | nil => exact hw
  | cons c calls ih =>
    obtain ⟨hc, hrest⟩ := List.forall_mem_cons.mp hcalls
    exact ih hrest (hI.step hc hw)

end Invariant

end WalWriteAheadLog

/-! ## The segment mirrors the entries -/

/-- The segment is the encodings of the retained entries, all of which fit their
frames. -/
structure Mirrored (w : WalWriteAheadLog) : Prop where
  segment : w.segment = encodeAll w.entries
  sized : ∀ e ∈ w.entries, e.Sized

/-- The keys and values of a call fit the 32-bit lengths. -/
def WalCall.Sized : WalCall → Prop
  | .write key value _ _ _ => key.length < 2 ^ 32 ∧ value.length < 2 ^ 32
  | .beginTransaction _ => True
  | .writeTx _ key value _ _ => key.length < 2 ^ 32 ∧ value.length < 2 ^ 32
  | .commitTransaction _ _ => True
  | .rollbackTransaction _ _ => True
  | .checkpoint _ => True
  | .truncateBefore _ => True

theorem WalCall.sized_iff (call : WalCall) :
    call.Sized ↔ call.Writes (fun key value => key.length < 2 ^ 32 ∧ value.length < 2 ^ 32) := by
  cases call <;> exact Iff.rfl

namespace Mirrored

open WalWriteAheadLog

variable {w : WalWriteAheadLog}

theorem new (config : WalConfig) : Mirrored (WalWriteAheadLog.new config) where
  segment := rfl
  sized := by simp [WalWriteAheadLog.new]

theorem invariant :
    Invariant Mirrored (fun key value => key.length < 2 ^ 32 ∧ value.length < 2 ^ 32) where
  frame h hseg hent _ := ⟨by rw [hseg, hent, h.segment], by rw [hent]; exact h.sized⟩
  push {w entry} h hs := by
    constructor
    · show w.segment ++ entry.encode = encodeAll (w.entries ++ [entry])
      rw [h.segment, encodeAll_append, encodeAll_cons, encodeAll_nil, List.append_nil]
    · intro e he
      rcases List.mem_append.mp he with he | he
      · exact h.sized e he
      · rw [List.mem_singleton.mp he]
        exact hs
  rebuild keep h := ⟨rfl, fun e he => h.sized e (List.mem_filter.mp he).1⟩
  marker := by simp

/-- No call breaks the mirror, whether it succeeds or fails. -/
theorem run {calls : List WalCall} (h : Mirrored w) (hs : ∀ c ∈ calls, c.Sized) :
    Mirrored (w.run calls) :=
  invariant.run (fun c hc => c.sized_iff.mp (hs c hc)) h

end Mirrored

/-! ## Recovery of a torn segment -/

theorem mem_txsWith {op : WalOpType} {es : List WalEntry} {id : UInt64} :
    id ∈ txsWith op es ↔ ∃ c ∈ es, c.txId ≠ 0 ∧ c.opType = op ∧ c.txId = id := by
  simp only [txsWith, List.mem_map, List.mem_filter, decide_eq_true_eq, and_assoc]

/-- The checksum plays no part in what a transaction's entries say. -/
theorem txsWith_stamped (op : WalOpType) (es : List WalEntry) :
    txsWith op (es.map WalEntry.stamped) = txsWith op es := by
  rw [txsWith, List.filter_map, List.map_map]
  rfl

/-- An entry that recovery counts as replayed: Put or Delete, and standalone or with
a Commit of its transaction among `es`. -/
def Replays (es : List WalEntry) (e : WalEntry) : Prop :=
  e.opType.isData ∧ (e.txId = 0 ∨ ∃ c ∈ es, c.opType = .commit ∧ c.txId = e.txId)

instance (es : List WalEntry) (e : WalEntry) : Decidable (Replays es e) :=
  inferInstanceAs (Decidable (_ ∧ _))

theorem isReplayed_iff {es : List WalEntry} {e : WalEntry} :
    isReplayed (txsWith .commit es) e = true ↔ Replays es e := by
  simp only [isReplayed, Bool.and_eq_true, Bool.or_eq_true, beq_iff_eq, decide_eq_true_eq,
    mem_txsWith, Replays]
  by_cases h0 : e.txId = 0
  · simp [h0]
  · simp only [h0, false_or]
    constructor
    · rintro ⟨hdata, c, hc, -, hop, htx⟩
      exact ⟨hdata, c, hc, hop, htx⟩
    · rintro ⟨hdata, c, hc, hop, htx⟩
      exact ⟨hdata, c, hc, htx ▸ h0, hop, htx⟩

theorem max_u64 (a b : UInt64) : max a b = if a ≤ b then b else a := rfl

/-- The maximum of `u64` is one of its order, so `max?` finds the largest element. -/
theorem lawfulOrderMax_u64 : Std.LawfulOrderMax UInt64 := by
  apply Std.LawfulOrderMax.of_max_le_iff
  · intro a b c
    rw [max_u64]
    simp only [UInt64.le_iff_toNat_le]
    split <;> omega
  · intro a b
    rw [max_u64]
    split <;> simp

theorem lastSeqNum_spec (all : List WalEntry) : (∀ e ∈ all, e.seqNum ≤ (summarize all).lastSeqNum)
      ∧ (all = [] → (summarize all).lastSeqNum = 0)
      ∧ (all ≠ [] → ∃ e ∈ all, e.seqNum = (summarize all).lastSeqNum) := by
  have hlawful := lawfulOrderMax_u64
  show (∀ e ∈ all, e.seqNum ≤ (all.map WalEntry.seqNum).max?.getD 0) ∧ _
  cases hmax : (all.map WalEntry.seqNum).max? with
  | none =>
    have hnil : all = [] := by simpa using hmax
    subst hnil
    simp [summarize]
  | some m =>
    obtain ⟨hmem, hle⟩ := List.max?_eq_some_iff.mp hmax
    have hlast : (summarize all).lastSeqNum = m := by
      show (all.map WalEntry.seqNum).max?.getD 0 = m
      rw [hmax, Option.getD_some]
    obtain ⟨e, he, hseq⟩ := List.mem_map.mp hmem
    rw [hlast, Option.getD_some]
    refine ⟨fun x hx => hle _ (List.mem_map_of_mem hx), ?_, fun _ => ⟨e, he, hseq⟩⟩
    intro hnil
    rw [hnil] at he
    cases he

theorem entriesReplayed_stamped (es : List WalEntry) :
    (summarize (es.map WalEntry.stamped)).entriesReplayed
      = (es.filter (fun e => Replays es e)).length := by
  have hfilter : es.filter (isReplayed (txsWith .commit es)) = es.filter (fun e => Replays es e) :=
    List.filter_congr (fun e _ => by rw [Bool.eq_iff_iff, isReplayed_iff, decide_eq_true_eq])
  show ((es.map WalEntry.stamped).filter _).length = _
  rw [txsWith_stamped, List.filter_map, List.length_map, ← hfilter]
  rfl

/-- After any calls, and for every prefix of the exported segment that a torn write
leaves: the segment is the encodings of the retained entries, and recovery decodes
exactly the entries lying wholly inside the prefix. -/
theorem recover_torn_segment (config : WalConfig) (calls : List WalCall)
    (hs : ∀ c ∈ calls, c.Sized) (n : Nat) :
    let w := (WalWriteAheadLog.new config).run calls
    let inside := within n w.entries
    w.exportSegment = encodeAll w.entries
      ∧ scanEntries (w.exportSegment.take n) = inside.map WalEntry.stamped
      ∧ ∃ r, recover (w.exportSegment.take n) = .ok r
        ∧ r.entriesRecovered = inside.length
        ∧ (∀ e ∈ inside, e.seqNum ≤ r.lastSeqNum)
        ∧ (inside = [] → r.lastSeqNum = 0)
        ∧ (inside ≠ [] → ∃ e ∈ inside, e.seqNum = r.lastSeqNum)
        ∧ r.entriesReplayed = (inside.filter (fun e => Replays inside e)).length := by
  intro w inside
  have hmirror : Mirrored w := (Mirrored.new config).run hs
  have hscan : scanEntries (w.exportSegment.take n) = inside.map WalEntry.stamped := by
    rw [WalWriteAheadLog.exportSegment, hmirror.segment]
    exact scanEntries_take hmirror.sized n
  have hrecover : recover (w.exportSegment.take n)
      = .ok (summarize (inside.map WalEntry.stamped)) := by
    rw [recover, hscan]
  obtain ⟨hle, hzero, hmax⟩ := lastSeqNum_spec (inside.map WalEntry.stamped)
  refine ⟨hmirror.segment, hscan, _, hrecover, ?_, ?_, ?_, ?_, entriesReplayed_stamped inside⟩
  · show (inside.map WalEntry.stamped).length = _
    rw [List.length_map]
  · intro e he
    exact hle e.stamped (List.mem_map_of_mem he)
  · intro hnil
    exact hzero (by rw [hnil, List.map_nil])
  · intro hne
    obtain ⟨e', he', hseq⟩ := hmax (by simpa using hne)
    obtain ⟨e, he, rfl⟩ := List.mem_map.mp he'
    exact ⟨e, he, hseq⟩

/-- A key that spells the magic, an open transaction, and a cut in the middle of the
second entry. -/
theorem recover_torn_segment_magic_key :
    let w := (WalWriteAheadLog.new WalConfig.default).run
      [.write walMagic [1] .put 0 8, .beginTransaction 9]
    ∃ r, recover (w.exportSegment.take 60) = .ok r ∧ r.entriesRecovered = 1
      ∧ r.entriesReplayed = 1 ∧ ∃ e ∈ w.entries, e.key = walMagic ∧ e.seqNum = r.lastSeqNum := by
  intro w
  obtain ⟨-, -, r, hr, hrecovered, -, -, hlast, hreplayed⟩ :=
    recover_torn_segment WalConfig.default [.write walMagic [1] .put 0 8, .beginTransaction 9]
      (by simp [WalCall.Sized, walMagic]) 60
  obtain ⟨e, he, hseq⟩ := hlast (by decide)
  have hinside : within 60 w.entries = w.entries.take 1 := by decide
  have he' : e ∈ w.entries.take 1 := hinside ▸ he
  refine ⟨r, hr, hrecovered.trans (by decide), hreplayed.trans (by decide), e,
    List.mem_of_mem_take he', ?_, hseq⟩
  rw [List.mem_singleton.mp he']
  rfl

end Ipfrs.Storage
