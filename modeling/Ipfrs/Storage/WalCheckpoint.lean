/-
Ipfrs.Storage.WalCheckpoint — what checkpoint truncation does to a later replay.

A checkpoint drops entries from before the previous checkpoint, except those of
transactions still open. The map is then the replay of the history up to the last
checkpoint with the retained entries replayed over it. An entry of an open
transaction can be kept while a newer write of the same key is dropped; once the
transaction commits, its older value is written over the newer one, which a replay
of the whole history does not do.

`KeepsNewest` says of one call that it makes no such cut. Runs of such calls keep
`Tracked`, the invariant from which truncation is transparent: what the whole
history replays is still replayed from the retained entries, or is in the base
with nothing older on its key retained.
-/
import Ipfrs.Storage.WalRecovery
import Ipfrs.Lib.KeyedWrites

namespace Ipfrs.Storage

open Ipfrs.Lib

/-! ## Replay onto a map -/

abbrev KvMap := List UInt8 → Option (List UInt8)

/-- What an entry leaves under its key. -/
def WalEntry.effect (e : WalEntry) : Option (List UInt8) :=
  if e.opType = .put then some e.value else none

/-- The handler that applies an entry to a map: `replay` passes it Put and Delete
entries only. -/
def applyEntry (m : KvMap) (e : WalEntry) : KvMap :=
  KeyedWrites.apply WalEntry.key WalEntry.effect m e

def replayOnto (entries : List WalEntry) (m : KvMap) : KvMap := (replay entries applyEntry m).1

def emptyMap : KvMap := fun _ => none

/-- The entries that a replay of `es` applies. -/
def replayedOf (es : List WalEntry) : List WalEntry := es.filter (fun e => Replays es e)

theorem replayOnto_eq (es : List WalEntry) (m : KvMap) : replayOnto es m
      = (replayedOf es).foldl (KeyedWrites.apply WalEntry.key WalEntry.effect) m := by
  have hfilter : es.filter (isReplayed (txsWith .commit es)) = replayedOf es :=
    List.filter_congr (fun e _ => by rw [Bool.eq_iff_iff, isReplayed_iff, decide_eq_true_eq])
  show (es.filter (isReplayed (txsWith .commit es))).foldl applyEntry m = _
  rw [hfilter]
  rfl

theorem mem_replayedOf {es : List WalEntry} {e : WalEntry} :
    e ∈ replayedOf es ↔ e ∈ es ∧ Replays es e := by
  simp [replayedOf]

theorem Replays.mono {es es' : List WalEntry} (hsub : ∀ e ∈ es, e ∈ es') {e : WalEntry}
    (h : Replays es e) : Replays es' e := by
  obtain ⟨hdata, hstandalone | ⟨c, hc, hop, htx⟩⟩ := h
  · exact ⟨hdata, .inl hstandalone⟩
  · exact ⟨hdata, .inr ⟨c, hsub c hc, hop, htx⟩⟩

theorem replayedOf_sublist {es es' : List WalEntry} (h : es.Sublist es') :
    (replayedOf es).Sublist (replayedOf es') := by
  have himp : ∀ e, decide (Replays es e) = true → decide (Replays es' e) = true := by
    intro e he
    rw [decide_eq_true_eq] at he ⊢
    exact he.mono h.subset
  exact (List.monotone_filter_right es himp).trans (h.filter _)

namespace WalWriteAheadLog

/-- The history up to the last checkpoint. -/
def upToCheckpoint (w : WalWriteAheadLog) : List WalEntry :=
  w.history.filter (fun e => e.seqNum ≤ w.lastCheckpointSeq)

/-- Replaying the retained entries over the map at the last checkpoint gives what a
replay of the whole history gives. -/
def Transparent (w : WalWriteAheadLog) : Prop :=
  replayOnto w.entries (replayOnto w.upToCheckpoint emptyMap) = replayOnto w.history emptyMap

/-- The call takes a checkpoint, on its own or because the interval is reached. -/
def takesCheckpoint (w : WalWriteAheadLog) : WalCall → Bool
  | .write _ _ _ _ _ =>
    w.config.checkpointInterval > 0
      ∧ w.writesSinceCheckpoint + 1 ≥ w.config.checkpointInterval
  | .beginTransaction _ => false
  | .writeTx _ _ _ _ _ => false
  | .commitTransaction _ _ => false
  | .rollbackTransaction _ _ => false
  | .checkpoint _ => true
  | .truncateBefore _ => false

/-- A checkpoint would take the entry out of the replay: it drops the entry, or every
Commit of its transaction. -/
def LeavesReplay (w : WalWriteAheadLog) (d : WalEntry) : Prop :=
  Replays w.entries d ∧ ¬ (w.retains d = true ∧ Replays (w.entries.filter w.retains) d)

instance (w : WalWriteAheadLog) (d : WalEntry) : Decidable (w.LeavesReplay d) :=
  inferInstanceAs (Decidable (_ ∧ _))

/-- The call does not wrap the sequence counter, and if it takes a checkpoint, no entry
leaves the replay while an older Put or Delete of its key stays. -/
def KeepsNewest (w : WalWriteAheadLog) (call : WalCall) : Prop :=
  w.nextSeq.toNat + 2 < 2 ^ 64 ∧
    (w.takesCheckpoint call = true →
      ∀ d ∈ w.entries, w.LeavesReplay d → ∀ e ∈ w.entries, w.retains e = true →
        e.opType.isData = true → e.key = d.key → d.seqNum ≤ e.seqNum)

instance (w : WalWriteAheadLog) (call : WalCall) : Decidable (w.KeepsNewest call) :=
  inferInstanceAs (Decidable (_ ∧ _))

/-- The six writing operations. -/
def isWriting : WalCall → Bool
  | .write _ _ _ _ _ => true
  | .beginTransaction _ => true
  | .writeTx _ _ _ _ _ => true
  | .commitTransaction _ _ => true
  | .rollbackTransaction _ _ => true
  | .checkpoint _ => true
  | .truncateBefore _ => false

/-- Writing operations, each of which succeeds and meets `P` in the state it is made
in. -/
def CleanRun (P : WalWriteAheadLog → WalCall → Prop) : WalWriteAheadLog → List WalCall → Prop
  | _, [] => True
  | w, c :: calls =>
    isWriting c = true ∧ (w.step c).1 = .ok () ∧ P w c ∧ CleanRun P (w.step c).2 calls

instance decidableCleanRun (P : WalWriteAheadLog → WalCall → Prop) [∀ w c, Decidable (P w c)] :
    ∀ (w : WalWriteAheadLog) (calls : List WalCall), Decidable (CleanRun P w calls)
  | _, [] => inferInstanceAs (Decidable True)
  | w, c :: calls =>
    have := decidableCleanRun P (w.step c).2 calls
    inferInstanceAs (Decidable (_ ∧ _ ∧ _ ∧ _))

end WalWriteAheadLog

/-! ## The invariant of truncating runs -/

/-- What the retained entries still say about the whole history. -/
structure Tracked (w : WalWriteAheadLog) : Prop where
  sorted : w.history.Pairwise (fun a b => a.seqNum.toNat < b.seqNum.toNat)
  written : ∀ e ∈ w.history, e.seqNum.toNat < w.nextSeq.toNat
  checkpointed : w.lastCheckpointSeq.toNat < w.nextSeq.toNat
  /-- Ids are handed out once, so that an ended transaction gets no more entries. -/
  ids : ∀ e ∈ w.history, e.txId.toNat < w.nextTxId.toNat
  openIds : ∀ t ∈ w.transactions, t.txId.toNat ≠ 0 ∧ t.txId.toNat < w.nextTxId.toNat
  counters : 0 < w.nextTxId.toNat ∧ w.nextTxId.toNat ≤ w.nextSeq.toNat
  retained : w.entries.Sublist w.history
  openKept : ∀ e ∈ w.history, e.txId ∈ w.activeTxIds → e ∈ w.entries
  replayable : ∀ d ∈ w.history, Replays w.history d →
    (d ∈ w.entries ∧ Replays w.entries d) ∨
    (d ∈ w.upToCheckpoint ∧ Replays w.upToCheckpoint d ∧
      ∀ e ∈ w.entries, e.opType.isData = true → e.key = d.key →
        d.seqNum.toNat ≤ e.seqNum.toNat)

namespace Tracked

open WalWriteAheadLog

variable {w w' : WalWriteAheadLog}

theorem new (config : WalConfig) : Tracked (WalWriteAheadLog.new config) where
  sorted := List.Pairwise.nil
  written := by simp [WalWriteAheadLog.new]
  checkpointed := Nat.zero_lt_one
  ids := by simp [WalWriteAheadLog.new]
  openIds := by simp [WalWriteAheadLog.new]
  counters := ⟨Nat.zero_lt_one, Nat.le_refl _⟩
  retained := List.Sublist.refl _
  openKept := by simp [WalWriteAheadLog.new]
  replayable := by simp [WalWriteAheadLog.new]

theorem eq_of_seqNum (h : Tracked w) {d e : WalEntry} (hd : d ∈ w.history) (he : e ∈ w.history)
    (hseq : d.seqNum.toNat = e.seqNum.toNat) : d = e :=
  KeyedWrites.eq_of_rank_eq (fun e => e.seqNum.toNat) h.sorted hd he hseq

/-- The invariant gives what is claimed of the retained entries. -/
theorem transparent (h : Tracked w) : w.Transparent := by
  rw [Transparent, replayOnto_eq, replayOnto_eq, replayOnto_eq]
  apply KeyedWrites.foldl_over_foldl (fun e => e.seqNum.toNat)
  · exact h.sorted.sublist List.filter_sublist
  · exact replayedOf_sublist List.filter_sublist
  · exact replayedOf_sublist h.retained
  · intro d hd hmax
    obtain ⟨hhist, hreplays⟩ := mem_replayedOf.mp hd
    rcases h.replayable d hhist hreplays with ⟨hmem, hrep⟩ | ⟨hmem, hrep, hold⟩
    · exact .inl (mem_replayedOf.mpr ⟨hmem, hrep⟩)
    · by_cases hin : d ∈ replayedOf w.entries
      · exact .inl hin
      · refine .inr ⟨mem_replayedOf.mpr ⟨hmem, hrep⟩, ?_⟩
        intro e he hkey
        obtain ⟨hent, herep⟩ := mem_replayedOf.mp he
        have hle := hold e hent herep.1 hkey
        have hefull := (replayedOf_sublist h.retained).subset he
        have hge := hmax e hefull hkey
        have heq := h.eq_of_seqNum hhist (mem_replayedOf.mp hefull).1 (Nat.le_antisymm hle hge)
        exact hin (heq ▸ he)

/-- Only these parts of the log matter. -/
theorem of_eq (h : Tracked w) (hhist : w'.history = w.history) (hent : w'.entries = w.entries)
    (htx : w'.transactions = w.transactions) (hseq : w'.nextSeq = w.nextSeq)
    (hid : w'.nextTxId = w.nextTxId) (hlast : w'.lastCheckpointSeq = w.lastCheckpointSeq) :
    Tracked w' where
  sorted := by rw [hhist]; exact h.sorted
  written := by rw [hhist, hseq]; exact h.written
  checkpointed := by rw [hlast, hseq]; exact h.checkpointed
  ids := by rw [hhist, hid]; exact h.ids
  openIds := by rw [htx, hid]; exact h.openIds
  counters := by rw [hid, hseq]; exact h.counters
  retained := by rw [hent, hhist]; exact h.retained
  openKept := by rw [activeTxIds, hhist, htx, hent]; exact h.openKept
  replayable := by rw [upToCheckpoint, hhist, hent, hlast]; exact h.replayable

theorem toNat_add_one {n : UInt64} (hn : n.toNat + 1 < 2 ^ 64) : (n + 1).toNat = n.toNat + 1 := by
  rw [UInt64.toNat_add]
  exact Nat.mod_eq_of_lt hn

theorem allocSeq (h : Tracked w) (hn : w.nextSeq.toNat + 1 < 2 ^ 64) : Tracked w.allocSeq := by
  have hnext : w.allocSeq.nextSeq.toNat = w.nextSeq.toNat + 1 := toNat_add_one hn
  have hcounters := h.counters
  have hlast := h.checkpointed
  exact {
    sorted := h.sorted
    written := fun e he => by have hlt := h.written e he; omega
    checkpointed := by show w.lastCheckpointSeq.toNat < _; omega
    ids := h.ids
    openIds := h.openIds
    counters := ⟨hcounters.1, by show w.nextTxId.toNat ≤ _; omega⟩
    retained := h.retained
    openKept := h.openKept
    replayable := h.replayable }

/-- Appending an entry of an open transaction, a standalone entry, or a marker that
plays no part in a replay. -/
theorem push (h : Tracked w) {x : WalEntry}
    (hnew : ∀ e ∈ w.history, e.seqNum.toNat < x.seqNum.toNat)
    (hnext : x.seqNum.toNat < w.nextSeq.toNat) (hlast : w.lastCheckpointSeq.toNat < x.seqNum.toNat)
    (hid : x.txId.toNat < w.nextTxId.toNat) (hopen : x.txId = 0 ∨ x.txId ∈ w.activeTxIds
      ∨ (x.opType ≠ .commit ∧ x.opType.isData = false)) : Tracked (w.pushEntry x) := by
  have hbase : (w.pushEntry x).upToCheckpoint = w.upToCheckpoint := by
    have hx : ¬ x.seqNum ≤ w.lastCheckpointSeq := by
      rw [UInt64.le_iff_toNat_le]
      omega
    show (w.history ++ [x]).filter _ = _
    rw [List.filter_append, List.filter_cons_of_neg (by rw [decide_eq_true_eq]; exact hx),
      List.filter_nil, List.append_nil]
    rfl
  have hinto : ∀ e ∈ w.entries, e ∈ w.entries ++ [x] := fun e he => List.mem_append_left _ he
  have hsplit : ∀ {P : WalEntry → Prop}, (∀ e ∈ w.history, P e) → P x →
      ∀ e ∈ w.history ++ [x], P e := by
    intro P hP hPx e he
    rcases List.mem_append.mp he with he | he
    · exact hP e he
    · rw [List.mem_singleton.mp he]
      exact hPx
  constructor
  case sorted =>
    show (w.history ++ [x]).Pairwise _
    rw [List.pairwise_append]
    refine ⟨h.sorted, List.pairwise_singleton _ _, ?_⟩
    intro a ha b hb
    rw [List.mem_singleton.mp hb]
    exact hnew a ha
  case written => exact hsplit h.written hnext
  case checkpointed => exact h.checkpointed
  case ids => exact hsplit h.ids hid
  case openIds => exact h.openIds
  case counters => exact h.counters
  case retained => exact h.retained.append (List.Sublist.refl _)
  case openKept =>
    refine hsplit (fun e he hactive => hinto e (h.openKept e he hactive)) (fun _ => ?_)
    exact List.mem_append_right _ (List.mem_singleton.mpr rfl)
  case replayable =>
    rw [hbase]
    refine hsplit ?_ ?_
    · intro d hd hrep
      by_cases hold : Replays w.history d
      · rcases h.replayable d hd hold with ⟨hmem, hr⟩ | ⟨hmem, hr, hkept⟩
        · exact .inl ⟨hinto d hmem, hr.mono hinto⟩
        · refine .inr ⟨hmem, hr, ?_⟩
          intro e he hdata hkey
          rcases List.mem_append.mp he with he | he
          · exact hkept e he hdata hkey
          · rw [List.mem_singleton.mp he]
            exact Nat.le_of_lt (hnew d hd)
      · -- The new entry is the Commit that makes the old entry count.
        obtain ⟨hdata, h0 | ⟨c, hc, hop, htx⟩⟩ := hrep
        · exact absurd ⟨hdata, .inl h0⟩ hold
        · rcases List.mem_append.mp hc with hc | hc
          · exact absurd ⟨hdata, .inr ⟨c, hc, hop, htx⟩⟩ hold
          · have hcx := List.mem_singleton.mp hc
            subst hcx
            rcases hopen with h0 | hactive | ⟨hne, -⟩
            · exact absurd ⟨hdata, .inl (htx ▸ h0)⟩ hold
            · have hmem := h.openKept d hd (htx ▸ hactive)
              exact .inl ⟨hinto d hmem, hdata,
                .inr ⟨c, List.mem_append_right _ (List.mem_singleton.mpr rfl), hop, htx⟩⟩
            · exact absurd hop hne
    · rintro ⟨hdata, hcommit⟩
      refine .inl ⟨List.mem_append_right _ (List.mem_singleton.mpr rfl), hdata, ?_⟩
      rcases hcommit with h0 | ⟨c, hc, hop, htx⟩
      · exact .inl h0
      · rcases List.mem_append.mp hc with hc | hc
        · rcases hopen with h0 | hactive | ⟨-, hnodata⟩
          · exact .inl h0
          · exact .inr ⟨c, hinto c (h.openKept c hc (htx ▸ hactive)), hop, htx⟩
          · rw [hnodata] at hdata
            cases hdata
        · exact .inr ⟨c, List.mem_append_right _ hc, hop, htx⟩

/-- Fewer open transactions. -/
theorem close (h : Tracked w) {ts : List Transaction}
    (hids : ∀ t ∈ ts, t.txId.toNat ≠ 0 ∧ t.txId.toNat < w.nextTxId.toNat)
    (hsub : ∀ id ∈ ({ w with transactions := ts } : WalWriteAheadLog).activeTxIds,
      id ∈ w.activeTxIds) :
    Tracked { w with transactions := ts } where
  sorted := h.sorted
  written := h.written
  checkpointed := h.checkpointed
  ids := h.ids
  openIds := hids
  counters := h.counters
  retained := h.retained
  openKept := fun e he hactive => h.openKept e he (hsub _ hactive)
  replayable := h.replayable

/-- A transaction whose entries so far are all retained is opened. -/
theorem opens (h : Tracked w) {id : UInt64} (hpos : id.toNat ≠ 0)
    (hlt : id.toNat < w.nextTxId.toNat) (hkept : ∀ e ∈ w.history, e.txId = id → e ∈ w.entries) :
    Tracked { w with
      transactions := Transaction.new id :: w.transactions.filter (fun t => t.txId ≠ id) } where
  sorted := h.sorted
  written := h.written
  checkpointed := h.checkpointed
  ids := h.ids
  openIds := by
    intro t ht
    rcases List.mem_cons.mp ht with rfl | ht
    · exact ⟨hpos, hlt⟩
    · exact h.openIds t (List.mem_filter.mp ht).1
  counters := h.counters
  retained := h.retained
  openKept := by
    intro e he hactive
    obtain ⟨t, ht, hid⟩ := List.mem_map.mp hactive
    obtain ⟨htmem, hstate⟩ := List.mem_filter.mp ht
    rcases List.mem_cons.mp htmem with rfl | htmem
    · exact hkept e he hid.symm
    · refine h.openKept e he (hid ▸ List.mem_map_of_mem ?_)
      exact List.mem_filter.mpr ⟨(List.mem_filter.mp htmem).1, hstate⟩
  replayable := h.replayable

/-- The truncation of a checkpoint that keeps the newest writes. -/
theorem truncate (h : Tracked w) {seq : UInt64}
    (hall : ∀ e ∈ w.history, e.seqNum.toNat ≤ seq.toNat) (hseq : seq.toNat < w.nextSeq.toNat)
    (hkeeps : ∀ d ∈ w.entries, w.LeavesReplay d → ∀ e ∈ w.entries, w.retains e = true →
      e.opType.isData = true → e.key = d.key → d.seqNum.toNat ≤ e.seqNum.toNat) :
    Tracked { w.rebuild w.retains with lastCheckpointSeq := seq } where
  sorted := h.sorted
  written := h.written
  checkpointed := hseq
  ids := h.ids
  openIds := h.openIds
  counters := h.counters
  retained := List.filter_sublist.trans h.retained
  openKept := by
    intro e he hactive
    refine List.mem_filter.mpr ⟨h.openKept e he hactive, ?_⟩
    have hin : e.txId ∈ w.activeTxIds := hactive
    simp [retains, hin]
  replayable := by
    have hbase : w.history.filter (fun e => decide (e.seqNum ≤ seq)) = w.history := by
      apply List.filter_eq_self.mpr
      intro e he
      rw [decide_eq_true_eq, UInt64.le_iff_toNat_le]
      exact hall e he
    intro d hd hrep
    show (d ∈ w.entries.filter w.retains ∧ Replays (w.entries.filter w.retains) d)
      ∨ (d ∈ w.history.filter _ ∧ Replays (w.history.filter _) d ∧ _)
    rw [hbase]
    rcases h.replayable d hd hrep with ⟨hmem, hr⟩ | ⟨-, -, hkept⟩
    · by_cases hstays : w.retains d = true ∧ Replays (w.entries.filter w.retains) d
      · exact .inl ⟨List.mem_filter.mpr ⟨hmem, hstays.1⟩, hstays.2⟩
      · refine .inr ⟨hd, hrep, ?_⟩
        intro e he hdata hkey
        obtain ⟨hemem, hret⟩ := List.mem_filter.mp he
        exact hkeeps d hmem ⟨hr, hstays⟩ e hemem hret hdata hkey
    · exact .inr ⟨hd, hrep, fun e he => hkept e (List.mem_filter.mp he).1⟩

theorem replays_append_standalone {es xs : List WalEntry} (hxs : ∀ x ∈ xs, x.txId = 0)
    {d : WalEntry} (h : Replays (es ++ xs) d) : Replays es d := by
  obtain ⟨hdata, h0 | ⟨c, hc, hop, htx⟩⟩ := h
  · exact ⟨hdata, .inl h0⟩
  · rcases List.mem_append.mp hc with hc | hc
    · exact ⟨hdata, .inr ⟨c, hc, hop, htx⟩⟩
    · exact ⟨hdata, .inl (htx ▸ hxs c hc)⟩

/-- Standalone entries written since the last checkpoint leave no replay, and change
nothing for the entries before them. -/
theorem leavesReplay_append {xs : List WalEntry}
    (hxs : ∀ x ∈ xs, x.txId = 0 ∧ w.retains x = true) (hent : w'.entries = w.entries ++ xs)
    (hret : w'.retains = w.retains) {d : WalEntry} (hd : d ∈ w'.entries)
    (h : w'.LeavesReplay d) : d ∈ w.entries ∧ w.LeavesReplay d := by
  obtain ⟨hrep, hstays⟩ := h
  have hkept : xs.filter w.retains = xs :=
    List.filter_eq_self.mpr (fun x hx => (hxs x hx).2)
  rw [hent] at hd hrep
  rw [hent, hret, List.filter_append, hkept] at hstays
  rcases List.mem_append.mp hd with hd | hd
  · refine ⟨hd, replays_append_standalone (fun x hx => (hxs x hx).1) hrep, ?_⟩
    rintro ⟨hr, hc⟩
    exact hstays ⟨hr, hc.mono (fun e he => List.mem_append_left _ he)⟩
  · exact absurd ⟨(hxs d hd).2, hrep.1, .inl (hxs d hd).1⟩ hstays

/-- `KeepsNewest` for a log with standalone entries written since the last checkpoint. -/
theorem keepsNewest_append (h : Tracked w') {xs : List WalEntry}
    (hxs : ∀ x ∈ xs, x.txId = 0 ∧ w.retains x = true) (hent : w'.entries = w.entries ++ xs)
    (hret : w'.retains = w.retains)
    (hkeeps : ∀ d ∈ w.entries, w.LeavesReplay d → ∀ e ∈ w.entries, w.retains e = true →
      e.opType.isData = true → e.key = d.key → d.seqNum ≤ e.seqNum) :
    ∀ d ∈ w'.entries, w'.LeavesReplay d → ∀ e ∈ w'.entries, w'.retains e = true →
      e.opType.isData = true → e.key = d.key → d.seqNum.toNat ≤ e.seqNum.toNat := by
  intro d hd hleaves e he hr hdata hkey
  obtain ⟨hdw, hlw⟩ := leavesReplay_append hxs hent hret hd hleaves
  rw [hent] at he
  rw [hret] at hr
  rcases List.mem_append.mp he with he | he
  · exact UInt64.le_iff_toNat_le.mp (hkeeps d hdw hlw e he hr hdata hkey)
  · have hsorted := h.sorted.sublist h.retained
    rw [hent] at hsorted
    exact Nat.le_of_lt ((List.pairwise_append.mp hsorted).2.2 d hdw e he)

/-- A standalone entry with a fresh number. -/
theorem pushStandalone (h : Tracked w) (hn : w.nextSeq.toNat + 1 < 2 ^ 64) (op : WalOpType)
    (key value : List UInt8) (now : UInt64) :
    Tracked (w.allocSeq.pushEntry (w.entryOf 0 op key value now)) := by
  have hnext : w.allocSeq.nextSeq.toNat = w.nextSeq.toNat + 1 := toNat_add_one hn
  refine (h.allocSeq hn).push h.written ?_ h.checkpointed h.counters.1 (.inl rfl)
  show w.nextSeq.toNat < _
  omega

theorem retains_fresh (h : Tracked w) (txId : UInt64) (op : WalOpType) (key value : List UInt8)
    (now : UInt64) : w.retains (w.entryOf txId op key value now) = true := by
  have hlt : w.lastCheckpointSeq < w.nextSeq := UInt64.lt_iff_toNat_lt.mpr h.checkpointed
  simp [retains, entryOf, hlt]

/-- A checkpoint in a log that only has standalone entries more than one in which it
keeps the newest writes. -/
theorem checkpoint {v : WalWriteAheadLog} (h : Tracked v) (hn : v.nextSeq.toNat + 1 < 2 ^ 64)
    (now : UInt64) {xs : List WalEntry} (hxs : ∀ x ∈ xs, x.txId = 0 ∧ w.retains x = true)
    (hent : v.entries = w.entries ++ xs) (hret : v.retains = w.retains)
    (hkeeps : ∀ d ∈ w.entries, w.LeavesReplay d → ∀ e ∈ w.entries, w.retains e = true →
      e.opType.isData = true → e.key = d.key → d.seqNum ≤ e.seqNum) :
    Tracked (v.checkpoint now).2 := by
  unfold WalWriteAheadLog.checkpoint
  split
  · exact h.allocSeq hn
  · next v' hv =>
    have hv' := appendEntry_eq_ok hv
    subst hv'
    have hpushed := h.pushStandalone hn .checkpoint [] [] now
    have hmarker : v.retains (v.entryOf 0 .checkpoint [] [] now) = true :=
      h.retains_fresh ..
    have hnext : v.allocSeq.nextSeq.toNat = v.nextSeq.toNat + 1 := toNat_add_one hn
    have hfresh : v.nextSeq.toNat < v.allocSeq.nextSeq.toNat := by omega
    have hmore : ∀ x ∈ xs ++ [v.entryOf 0 .checkpoint [] [] now],
        x.txId = 0 ∧ w.retains x = true := by
      intro x hx
      rcases List.mem_append.mp hx with hx | hx
      · exact hxs x hx
      · rw [List.mem_singleton.mp hx]
        exact ⟨rfl, hret ▸ hmarker⟩
    have hentries : (v.allocSeq.pushEntry (v.entryOf 0 .checkpoint [] [] now)).entries
        = w.entries ++ (xs ++ [v.entryOf 0 .checkpoint [] [] now]) := by
      show v.entries ++ [v.entryOf 0 .checkpoint [] [] now] = _
      rw [hent, List.append_assoc]
    have hall : ∀ e ∈ (v.allocSeq.pushEntry (v.entryOf 0 .checkpoint [] [] now)).history,
        e.seqNum.toNat ≤ v.nextSeq.toNat := by
      intro e he
      rcases List.mem_append.mp he with he | he
      · exact Nat.le_of_lt (h.written e he)
      · rw [List.mem_singleton.mp he]
        exact Nat.le_refl _
    have hnewest := keepsNewest_append hpushed hmore hentries hret hkeeps
    exact (hpushed.truncate hall hfresh hnewest).of_eq rfl rfl rfl rfl rfl rfl

theorem write (h : Tracked w) {key value : List UInt8} {op : WalOpType} {now later : UInt64}
    (hk : w.KeepsNewest (.write key value op now later)) :
    Tracked (w.write key value op now later).2 := by
  obtain ⟨hn, hkeeps⟩ := hk
  have hnext : w.allocSeq.nextSeq.toNat = w.nextSeq.toNat + 1 := toNat_add_one (by omega)
  unfold WalWriteAheadLog.write
  split
  · exact h.allocSeq (by omega)
  · next v hv =>
    have hv' := appendEntry_eq_ok hv
    subst hv'
    have hpushed := h.pushStandalone (by omega) op key value now
    have hcounted :
        Tracked (w.allocSeq.pushEntry (w.entryOf 0 op key value now)).countWrite :=
      hpushed.of_eq rfl rfl rfl rfl rfl rfl
    dsimp only
    split
    · next hauto =>
      have hx : ∀ x ∈ [w.entryOf 0 op key value now], x.txId = 0 ∧ w.retains x = true := by
        intro x hx
        rw [List.mem_singleton.mp hx]
        exact ⟨rfl, h.retains_fresh ..⟩
      have hcount : w.allocSeq.nextSeq.toNat + 1 < 2 ^ 64 := by omega
      have htakes : w.takesCheckpoint (.write key value op now later) = true :=
        decide_eq_true hauto
      have hchecked := hcounted.checkpoint hcount later hx rfl rfl (hkeeps htakes)
      split
      · next hc => rw [hc] at hchecked; exact hchecked
      · next hc => rw [hc] at hchecked; exact hchecked
    · exact hcounted

/-- The marker of a transaction that is not open yet. -/
theorem beginTransaction (h : Tracked w) (hn : w.nextSeq.toNat + 1 < 2 ^ 64) (now : UInt64) :
    Tracked (w.beginTransaction now).2 := by
  have hcounters := h.counters
  have hnext : w.allocSeq.nextSeq.toNat = w.nextSeq.toNat + 1 := toNat_add_one hn
  have hid : w.allocTxId.nextTxId.toNat = w.nextTxId.toNat + 1 := toNat_add_one (by omega)
  have hseq := h.allocSeq hn
  have halloc : Tracked w.allocTxId.allocSeq := {
    sorted := h.sorted
    written := hseq.written
    checkpointed := hseq.checkpointed
    ids := fun e he => by
      have hlt := h.ids e he
      show e.txId.toNat < w.allocTxId.nextTxId.toNat
      omega
    openIds := fun t ht => by
      have hlt := h.openIds t ht
      show t.txId.toNat ≠ 0 ∧ t.txId.toNat < w.allocTxId.nextTxId.toNat
      omega
    counters := by
      show 0 < w.allocTxId.nextTxId.toNat ∧ w.allocTxId.nextTxId.toNat ≤ w.allocSeq.nextSeq.toNat
      omega
    retained := h.retained
    openKept := h.openKept
    replayable := h.replayable }
  have hunused : ∀ e ∈ w.history, e.txId ≠ w.nextTxId := by
    intro e he heq
    have hlt := h.ids e he
    rw [heq] at hlt
    omega
  have hopens : ∀ v : WalWriteAheadLog, Tracked v → v.nextTxId = w.allocTxId.nextTxId →
      (∀ e ∈ v.history, e.txId = w.nextTxId → e ∈ v.entries) →
      Tracked { v with transactions := Transaction.new w.nextTxId
        :: v.transactions.filter (fun t => t.txId ≠ w.nextTxId) } := by
    intro v hv hvid hkept
    refine hv.opens (by omega) ?_ hkept
    rw [hvid, hid]
    omega
  unfold WalWriteAheadLog.beginTransaction
  dsimp only
  split
  · exact (hopens _ halloc rfl (fun e he heq => absurd heq (hunused e he))).of_eq
      rfl rfl rfl rfl rfl rfl
  · next v hv =>
    have hv' := appendEntry_eq_ok hv
    subst hv'
    have hmarker := halloc.push (x := w.entryOf w.nextTxId .begin [] [] now) h.written
      (by show w.nextSeq.toNat < w.allocSeq.nextSeq.toNat; omega) h.checkpointed
      (by show w.nextTxId.toNat < w.allocTxId.nextTxId.toNat; omega)
      (.inr (.inr ⟨by simp [entryOf], rfl⟩))
    refine (hopens _ hmarker rfl ?_).of_eq rfl rfl rfl rfl rfl rfl
    intro e he heq
    rcases List.mem_append.mp he with he | he
    · exact absurd heq (hunused e he)
    · exact List.mem_append_right _ he

theorem mem_activeTxIds_of_activeTx {txId : UInt64} {t : Transaction}
    (h : w.activeTx txId = some t) : txId ∈ w.activeTxIds := by
  unfold activeTx at h
  split at h
  · next tx hfind =>
    split at h
    · cases h
    · next hstate =>
      have hid : tx.txId = txId := by simpa using List.find?_some hfind
      refine hid ▸ List.mem_map_of_mem
        (List.mem_filter.mpr ⟨List.mem_of_find?_eq_some hfind, ?_⟩)
      simpa using hstate
  · cases h

theorem txId_lt_of_active (h : Tracked w) {txId : UInt64} (hactive : txId ∈ w.activeTxIds) :
    txId.toNat < w.nextTxId.toNat := by
  obtain ⟨t, ht, hid⟩ := List.mem_map.mp hactive
  exact hid ▸ (h.openIds t (List.mem_filter.mp ht).1).2

/-- An entry of an open transaction with a fresh number. -/
theorem pushOpen (h : Tracked w) (hn : w.nextSeq.toNat + 1 < 2 ^ 64) {txId : UInt64}
    (hactive : txId ∈ w.activeTxIds) (op : WalOpType) (key value : List UInt8) (now : UInt64) :
    Tracked (w.allocSeq.pushEntry (w.entryOf txId op key value now)) := by
  have hnext : w.allocSeq.nextSeq.toNat = w.nextSeq.toNat + 1 := toNat_add_one hn
  refine (h.allocSeq hn).push h.written ?_ h.checkpointed (h.txId_lt_of_active hactive)
    (.inr (.inl hactive))
  show w.nextSeq.toNat < _
  omega

/-- A change of a record that keeps its id and does not open it. -/
theorem updateTx (h : Tracked w) (txId : UInt64) {f : Transaction → Transaction}
    (hid : ∀ t, (f t).txId = t.txId) (hstate : ∀ t, (f t).state = .active → t.state = .active) :
    Tracked (w.updateTx txId f) := by
  have hmem : ∀ t' ∈ w.transactions.map (fun t => if t.txId = txId then f t else t),
      ∃ t ∈ w.transactions, t.txId = t'.txId ∧ (t'.state = .active → t.state = .active) := by
    intro t' ht'
    obtain ⟨t, ht, rfl⟩ := List.mem_map.mp ht'
    refine ⟨t, ht, ?_⟩
    split
    · exact ⟨(hid t).symm, hstate t⟩
    · exact ⟨rfl, fun hs => hs⟩
  apply h.close
  · intro t' ht'
    obtain ⟨t, ht, heq, -⟩ := hmem t' ht'
    exact heq ▸ h.openIds t ht
  · intro id hactive
    obtain ⟨t', ht', rfl⟩ := List.mem_map.mp hactive
    obtain ⟨hin, hopen⟩ := List.mem_filter.mp ht'
    obtain ⟨t, ht, heq, hst⟩ := hmem t' hin
    refine heq ▸ List.mem_map_of_mem (List.mem_filter.mpr ⟨ht, ?_⟩)
    exact decide_eq_true (hst (of_decide_eq_true hopen))

theorem writeTx (h : Tracked w) (hn : w.nextSeq.toNat + 1 < 2 ^ 64) (txId : UInt64)
    (key value : List UInt8) (op : WalOpType) (now : UInt64) :
    Tracked (w.writeTx txId key value op now).2 := by
  unfold WalWriteAheadLog.writeTx
  split
  · exact h
  · next t ht =>
    dsimp only
    split
    · exact h.allocSeq hn
    · next v hv =>
      have hv' := appendEntry_eq_ok hv
      subst hv'
      exact (h.pushOpen hn (mem_activeTxIds_of_activeTx ht) op key value now).updateTx txId
        (fun _ => rfl) (fun _ hs => hs)

theorem endTransaction (h : Tracked w) (hn : w.nextSeq.toNat + 1 < 2 ^ 64) (txId : UInt64)
    (op : WalOpType) {state : TxState} (hstate : state ≠ .active) (now : UInt64) :
    Tracked (w.endTransaction txId op state now).2 := by
  unfold WalWriteAheadLog.endTransaction
  split
  · exact h
  · next t ht =>
    split
    · exact h.allocSeq hn
    · next v hv =>
      have hv' := appendEntry_eq_ok hv
      subst hv'
      have hpushed := h.pushOpen hn (mem_activeTxIds_of_activeTx ht) op [] [] now
      exact (hpushed.updateTx txId (f := fun t => { t with state := state }) (fun _ => rfl)
        (fun _ hs => absurd hs hstate)).of_eq rfl rfl rfl rfl rfl rfl

/-- A call that keeps the newest writes keeps the invariant. -/
theorem step (h : Tracked w) {call : WalCall} (hwriting : isWriting call = true)
    (hk : w.KeepsNewest call) : Tracked (w.step call).2 := by
  have hn : w.nextSeq.toNat + 1 < 2 ^ 64 := Nat.lt_of_succ_lt hk.1
  cases call with
  | write key value op now later => exact h.write hk
  | beginTransaction now => exact h.beginTransaction hn now
  | writeTx txId key value op now => exact h.writeTx hn txId key value op now
  | commitTransaction txId now => exact h.endTransaction hn txId .commit (by decide) now
  | rollbackTransaction txId now => exact h.endTransaction hn txId .rollback (by decide) now
  | checkpoint now =>
    have hnone : ∀ x ∈ ([] : List WalEntry), x.txId = 0 ∧ w.retains x = true := by simp
    exact h.checkpoint hn now hnone (List.append_nil _).symm rfl (hk.2 rfl)
  | truncateBefore seqNum => cases hwriting

theorem run : ∀ {calls : List WalCall} {w : WalWriteAheadLog}, Tracked w →
    CleanRun KeepsNewest w calls → Tracked (w.run calls)
  | [], _, h, _ => h
  | c :: calls, w, h, hrun => by
    obtain ⟨hwriting, -, hk, hrest⟩ := hrun
    have hstep := h.step hwriting hk
    show Tracked ((w.step c).2.run calls)
    exact hstep.run hrest

end Tracked

/-! ## Truncation -/

/-- Runs whose checkpoints keep the newest writes: after every call, replaying the
retained entries over the map at the last checkpoint is replaying the history. -/
theorem transparent_of_keepsNewest (config : WalConfig) (calls : List WalCall)
    (hrun : WalWriteAheadLog.CleanRun WalWriteAheadLog.KeepsNewest
      (WalWriteAheadLog.new config) calls) :
    ((WalWriteAheadLog.new config).run calls).Transparent :=
  ((Tracked.new config).run hrun).transparent

def noLimits : WalConfig :=
  { maxSegmentSize := 0, maxEntriesPerSegment := 0, checkpointInterval := 0 }

/-- A transaction that straddles two checkpoints, with no other writer of its key. -/
def straddlingCalls : List WalCall :=
  [.beginTransaction 1, .writeTx 1 [1] [10] .put 2, .write [2] [20] .put 3 3, .checkpoint 4,
    .checkpoint 5, .commitTransaction 1 6]

theorem transparent_of_keepsNewest_straddling :
    ((WalWriteAheadLog.new noLimits).run straddlingCalls).Transparent :=
  transparent_of_keepsNewest noLimits straddlingCalls (by decide)

/-- The same transaction, and a standalone write of its key after its own: the second
checkpoint drops the newer write and keeps the older one. -/
def overtakenCalls : List WalCall :=
  [.beginTransaction 1, .writeTx 1 [1] [10] .put 2, .write [1] [20] .put 3 3, .checkpoint 4,
    .checkpoint 5, .commitTransaction 1 6]

theorem not_transparent_overtaken :
    WalWriteAheadLog.CleanRun (fun _ _ => True) (WalWriteAheadLog.new noLimits) overtakenCalls
      ∧ ¬ ((WalWriteAheadLog.new noLimits).run overtakenCalls).Transparent := by
  constructor
  · decide
  · intro h
    have hkey := congrFun h [1]
    revert hkey
    decide

end Ipfrs.Storage
