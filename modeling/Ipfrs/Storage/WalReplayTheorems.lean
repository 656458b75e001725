/-
Ipfrs.Storage.WalReplayTheorems — replaying since a checkpoint against replaying
everything.

What a replay does to its store is a sequence of writes: `effectsFrom` lists the
entries in the order in which they take effect, given what the open transactions
have buffered. A replay since the checkpoint starts with empty buffers, so it makes
the writes of the full replay without those of entries logged before the checkpoint
(`effectsFrom_filter`). A transaction open across the checkpoint loses the entries it
had buffered by then, and the two replays agree exactly when none of these would have
been the last to change its key (`Settled`).
-/
import Ipfrs.Storage.WalReplay

namespace Ipfrs.Storage.WalReplay

open Ipfrs.Lib

/-! ## The writes of a replay -/

/-- Put with a value, or Delete. -/
def takesEffect (e : WalEntry) : Bool :=
  match e.entryType with
  | .put => e.value.isSome
  | .delete => true
  | .checkpoint => false
  | .begin => false
  | .commit => false
  | .rollback => false

/-- What a Put or Delete leaves under its key. -/
def effect (e : WalEntry) : Option (List UInt8) :=
  if e.entryType = .put then e.value else none

/-- The entries of the open transactions, in order. -/
abbrev Buffers := UInt64 → List WalEntry

/-- The entries that take effect at `e`. -/
def emits (buffers : Buffers) (e : WalEntry) : List WalEntry :=
  match e.entryType, e.transactionId with
  | .commit, some txId => (buffers txId).filter takesEffect
  | .put, none => [e].filter takesEffect
  | .delete, none => [e].filter takesEffect
  | .put, some _ => []
  | .delete, some _ => []
  | .commit, none => []
  | .rollback, _ => []
  | .begin, _ => []
  | .checkpoint, _ => []

def nextBuffers (buffers : Buffers) (e : WalEntry) : Buffers :=
  match e.entryType, e.transactionId with
  | .commit, some txId => Function.update buffers txId []
  | .rollback, some txId => Function.update buffers txId []
  | .put, some txId => Function.update buffers txId (buffers txId ++ [e])
  | .delete, some txId => Function.update buffers txId (buffers txId ++ [e])
  | .put, none => buffers
  | .delete, none => buffers
  | .commit, none => buffers
  | .rollback, none => buffers
  | .begin, _ => buffers
  | .checkpoint, _ => buffers

/-- The entries that take effect in a replay, in the order they do. -/
def effectsFrom (buffers : Buffers) : List WalEntry → List WalEntry
  | [] => []
  | e :: es => emits buffers e ++ effectsFrom (nextBuffers buffers e) es

def effects (es : List WalEntry) : List WalEntry := effectsFrom (fun _ => []) es

/-- What the open transactions have buffered after `es`. -/
def buffersAfter (es : List WalEntry) : Buffers := es.foldl nextBuffers (fun _ => [])

theorem effectsFrom_append (es es' : List WalEntry) (buffers : Buffers) :
    effectsFrom buffers (es ++ es')
      = effectsFrom buffers es ++ effectsFrom (es.foldl nextBuffers buffers) es' := by
  induction es generalizing buffers with
  | nil => rfl
  | cons e es ih =>
    rw [List.cons_append, effectsFrom, effectsFrom, ih, List.append_assoc, List.foldl_cons]

theorem foldl_applyData (es : List WalEntry) (store : Store) : es.foldl applyData store
      = (es.filter takesEffect).foldl (KeyedWrites.apply WalEntry.key effect) store := by
  induction es generalizing store with
  | nil => rfl
  | cons e es ih =>
    rw [List.foldl_cons, ih]
    by_cases h : takesEffect e = true
    · rw [List.filter_cons_of_pos h, List.foldl_cons]
      congr 1
      obtain ⟨seq, ty, key, value, tx, sum⟩ := e
      cases ty <;> cases value <;> simp_all [takesEffect, applyData, KeyedWrites.apply, effect]
    · rw [List.filter_cons_of_neg h]
      congr 1
      obtain ⟨seq, ty, key, value, tx, sum⟩ := e
      cases ty <;> cases value <;> simp_all [takesEffect, applyData]

theorem foldl_applyData_filter (es : List WalEntry) (store : Store) :
    (es.filter takesEffect).foldl applyData store = es.foldl applyData store := by
  rw [foldl_applyData, foldl_applyData, List.filter_filter]
  simp

/-- The buffers of a replay state. -/
def buffersOf (state : ReplayState) : Buffers := fun txId => (state.activeTransactions txId).getD []

theorem buffersOf_update (state : ReplayState) (b : Option (List WalEntry))
    {state' : ReplayState} {txId : UInt64}
    (h : state'.activeTransactions = Function.update state.activeTransactions txId b) :
    buffersOf state' = Function.update (buffersOf state) txId (b.getD []) := by
  funext id
  by_cases hid : id = txId
  · subst hid
    simp [buffersOf, h]
  · simp [buffersOf, h, Function.update_of_ne hid]

/-- One round of the loop: the entries that take effect, and the buffers after it. -/
theorem replayEntry_spec (acc : ReplayState × ReplayStats) {e : WalEntry} (h : e.isValid = true) :
    (replayEntry acc e).1.store = (emits (buffersOf acc.1) e).foldl applyData acc.1.store
      ∧ buffersOf (replayEntry acc e).1 = nextBuffers (buffersOf acc.1) e := by
  obtain ⟨state, stats⟩ := acc
  unfold replayEntry emits nextBuffers
  rw [h]
  cases hty : e.entryType with
  | checkpoint => exact ⟨rfl, rfl⟩
  | begin =>
    cases htx : e.transactionId with
    | none => exact ⟨rfl, rfl⟩
    | some txId =>
      have hkept : Function.update (buffersOf state) txId (buffersOf state txId)
          = buffersOf state := Function.update_eq_self ..
      exact ⟨rfl, (buffersOf_update state (some (buffersOf state txId)) rfl).trans hkept⟩
  | commit =>
    cases htx : e.transactionId with
    | none => exact ⟨rfl, rfl⟩
    | some txId =>
      dsimp only
      cases hbuf : state.activeTransactions txId with
      | none =>
        have hnil : buffersOf state txId = [] := by rw [buffersOf, hbuf, Option.getD_none]
        rw [hnil]
        refine ⟨rfl, ?_⟩
        show buffersOf state = _
        rw [← hnil, Function.update_eq_self]
      | some buffered =>
        have hsome : buffersOf state txId = buffered := by
          rw [buffersOf, hbuf, Option.getD_some]
        rw [hsome, foldl_applyData_filter]
        exact ⟨rfl, buffersOf_update state none rfl⟩
  | rollback =>
    cases htx : e.transactionId with
    | none => exact ⟨rfl, rfl⟩
    | some txId => exact ⟨rfl, buffersOf_update state none rfl⟩
  | put | delete =>
    cases htx : e.transactionId with
    | none => exact ⟨(foldl_applyData_filter [e] state.store).symm, rfl⟩
    | some txId => exact ⟨rfl, buffersOf_update state (some (buffersOf state txId ++ [e])) rfl⟩

/-- The loop writes its effects in order. -/
theorem foldl_replayEntry : ∀ (es : List WalEntry) (acc : ReplayState × ReplayStats),
    (∀ e ∈ es, e.isValid = true) →
    (es.foldl replayEntry acc).1.store
      = (effectsFrom (buffersOf acc.1) es).foldl applyData acc.1.store
  | [], _, _ => rfl
  | e :: es, acc, h => by
    obtain ⟨hstore, hbuf⟩ := replayEntry_spec acc (h e List.mem_cons_self)
    rw [List.foldl_cons, foldl_replayEntry es _ (fun x hx => h x (List.mem_cons_of_mem _ hx)),
      hstore, hbuf, effectsFrom, List.foldl_append]

/-- Every write of a replay takes effect. -/
theorem takesEffect_of_mem_emits {buffers : Buffers} {e d : WalEntry} (h : d ∈ emits buffers e) :
    takesEffect d = true := by
  unfold emits at h
  split at h
  · exact (List.mem_filter.mp h).2
  · exact (List.mem_filter.mp h).2
  · exact (List.mem_filter.mp h).2
  all_goals cases h

theorem effectsFrom_takesEffect (es : List WalEntry) (buffers : Buffers) :
    (effectsFrom buffers es).filter takesEffect = effectsFrom buffers es := by
  induction es generalizing buffers with
  | nil => rfl
  | cons e es ih =>
    have hhead : (emits buffers e).filter takesEffect = emits buffers e :=
      List.filter_eq_self.mpr (fun d hd => takesEffect_of_mem_emits hd)
    rw [effectsFrom, List.filter_append, ih, hhead]

/-- What a key holds after the writes `es`. -/
def valueOf (es : List WalEntry) (k : String) : Option (List UInt8) :=
  (KeyedWrites.lastOn WalEntry.key k es).elim none effect

theorem foldl_applyData_effects (es : List WalEntry) (buffers : Buffers) (store : Store) :
    (effectsFrom buffers es).foldl applyData store
      = (effectsFrom buffers es).foldl (KeyedWrites.apply WalEntry.key effect) store := by
  rw [foldl_applyData, effectsFrom_takesEffect]

/-! ## Leaving out what was logged before -/

/-- Without the buffered entries that `p` refuses, a replay of accepted entries makes
the same writes without them. -/
theorem effectsFrom_filter (p : WalEntry → Bool) : ∀ (es : List WalEntry) (buffers : Buffers),
    (∀ e ∈ es, p e = true) →
    (effectsFrom buffers es).filter p = effectsFrom (fun txId => (buffers txId).filter p) es
  | [], _, _ => rfl
  | e :: es, buffers, h => by
    have he := h e List.mem_cons_self
    have hemits : (emits buffers e).filter p
        = emits (fun txId => (buffers txId).filter p) e := by
      cases hty : e.entryType <;> cases htx : e.transactionId <;>
        simp [emits, hty, htx, List.filter_filter, Bool.and_comm, he, List.filter_cons]
    have hnext : (fun txId => ((nextBuffers buffers e) txId).filter p)
        = nextBuffers (fun txId => (buffers txId).filter p) e := by
      funext id
      cases hty : e.entryType <;> cases htx : e.transactionId <;>
        simp only [nextBuffers, hty, htx, Function.update_apply] <;> split <;>
        simp [List.filter_append, he]
    rw [effectsFrom, effectsFrom, List.filter_append, hemits,
      effectsFrom_filter p es _ (fun x hx => h x (List.mem_cons_of_mem _ hx)), hnext]

theorem mem_of_mem_nextBuffers {buffers : Buffers} {e d : WalEntry} {txId : UInt64}
    (h : d ∈ nextBuffers buffers e txId) : d ∈ buffers txId ∨ d = e := by
  cases hty : e.entryType <;> cases htx : e.transactionId <;>
    simp only [nextBuffers, hty, htx, Function.update_apply] at h <;>
    first | exact .inl h | skip
  all_goals split at h
  all_goals simp_all

/-- What the open transactions have buffered was logged. -/
theorem mem_of_mem_buffersAfter {es : List WalEntry} {d : WalEntry} {txId : UInt64}
    (h : d ∈ buffersAfter es txId) : d ∈ es := by
  induction es using List.reverseRecOn with
  | nil => cases h
  | append_singleton es e ih =>
    rw [buffersAfter, List.foldl_append, List.foldl_cons, List.foldl_nil] at h
    rcases mem_of_mem_nextBuffers h with h | rfl
    · exact List.mem_append_left _ (ih h)
    · exact List.mem_append_right _ (List.mem_singleton.mpr rfl)

/-! ## The log that appending builds -/

/-- The entries that requests make, numbered from `n`. -/
def stampAll : UInt64 → List Request → List WalEntry
  | _, [] => []
  | n, r :: rs =>
    { sequence := n, entryType := r.entryType, key := r.key, value := r.value,
      transactionId := r.txId, checksum := WalEntry.computeChecksum n r.key r.value }
      :: stampAll (n + 1) rs

theorem stampAll_valid : ∀ (rs : List Request) (n : UInt64),
    ∀ e ∈ stampAll n rs, e.isValid = true
  | [], _, _, he => by cases he
  | r :: rs, n, e, he => by
    rcases List.mem_cons.mp he with rfl | he
    · simp [WalEntry.isValid]
    · exact stampAll_valid rs (n + 1) e he

theorem stampAll_append : ∀ (rs rs' : List Request) (n : UInt64),
    stampAll n (rs ++ rs') = stampAll n rs ++ stampAll (n + UInt64.ofNat rs.length) rs'
  | [], rs', n => by simp [stampAll]
  | r :: rs, rs', n => by
    have hn : n + 1 + UInt64.ofNat rs.length = n + UInt64.ofNat (rs.length + 1) := by
      have hone : UInt64.ofNat 1 = 1 := rfl
      rw [UInt64.ofNat_add, hone, UInt64.add_assoc, UInt64.add_comm 1 (UInt64.ofNat rs.length)]
    rw [List.cons_append, stampAll, stampAll, stampAll_append rs rs' (n + 1), hn,
      List.cons_append, List.length_cons]

/-- Numbers that do not wrap lie between the first and the last. -/
theorem sequence_of_mem_stampAll : ∀ (rs : List Request) (n : UInt64),
    n.toNat + rs.length ≤ 2 ^ 64 → ∀ e ∈ stampAll n rs,
      n.toNat ≤ e.sequence.toNat ∧ e.sequence.toNat < n.toNat + rs.length
  | [], _, _, _, he => by cases he
  | r :: rs, n, hn, e, he => by
    rw [List.length_cons] at hn ⊢
    rcases List.mem_cons.mp he with rfl | he
    · dsimp only
      omega
    · cases rs with
      | nil => cases he
      | cons r' rs =>
        rw [List.length_cons] at hn
        have hnext : (n + 1).toNat = n.toNat + 1 := by
          rw [UInt64.toNat_add]
          exact Nat.mod_eq_of_lt (by simp; omega)
        have hrest := sequence_of_mem_stampAll (r' :: rs) (n + 1)
          (by rw [hnext, List.length_cons]; omega) e he
        rw [hnext] at hrest
        omega

/-- The numbers of the checkpoints among entries. -/
def checkpointsOf (es : List WalEntry) : List UInt64 :=
  (es.filter (fun e => e.entryType = .checkpoint)).map WalEntry.sequence

namespace StorageWALReplay

theorem evict_of_lt {log : StorageWALReplay} (h : log.entries.length < log.maxEntries.toNat) :
    log.evict = log := by
  rw [evict, if_neg (by omega)]

/-- Appending without eviction. -/
theorem appendAll_spec : ∀ (rs : List Request) (log : StorageWALReplay),
    log.entries.length + rs.length ≤ log.maxEntries.toNat →
    (log.appendAll rs).entries = log.entries ++ stampAll log.nextSequence rs
      ∧ (log.appendAll rs).checkpointSequences
        = log.checkpointSequences ++ checkpointsOf (stampAll log.nextSequence rs)
  | [], log, _ => by simp [appendAll, stampAll, checkpointsOf]
  | r :: rs, log, h => by
    rw [List.length_cons] at h
    have hroom : log.entries.length < log.maxEntries.toNat := by omega
    have hevict : ({ log with nextSequence := log.nextSequence + 1 } : StorageWALReplay).evict
        = { log with nextSequence := log.nextSequence + 1 } := evict_of_lt hroom
    have hnext : (log.append r).2
        = { log with
            nextSequence := log.nextSequence + 1
            checkpointSequences :=
              if r.entryType = .checkpoint then log.checkpointSequences ++ [log.nextSequence]
              else log.checkpointSequences
            entries := log.entries ++ [log.entryOf r] } := by
      simp only [append, hevict]
      rfl
    have hlen : (log.append r).2.entries.length + rs.length
        ≤ (log.append r).2.maxEntries.toNat := by
      rw [hnext]
      simp only [List.length_append, List.length_singleton]
      omega
    obtain ⟨hentries, hcheckpoints⟩ := appendAll_spec rs (log.append r).2 hlen
    show ((log.append r).2.appendAll rs).entries = _
      ∧ ((log.append r).2.appendAll rs).checkpointSequences = _
    rw [hentries, hcheckpoints, hnext]
    constructor
    · simp [stampAll, entryOf]
    · by_cases hty : r.entryType = .checkpoint <;> simp [stampAll, checkpointsOf, hty]

end StorageWALReplay

/-! ## Replay since the checkpoint -/

namespace CheckpointedLog

/-- The number of the checkpoint. -/
def checkpointSeq (c : CheckpointedLog) : UInt64 := 1 + UInt64.ofNat c.before.length

/-- The entries before the checkpoint, and those since it. -/
def beforeEntries (c : CheckpointedLog) : List WalEntry := stampAll 1 c.before

def sinceEntries (c : CheckpointedLog) : List WalEntry :=
  stampAll c.checkpointSeq (c.checkpoint :: c.after)

theorem new_entries (maxEntries : UInt64) {rs : List Request}
    (h : rs.length ≤ (max maxEntries 1).toNat) :
    ((StorageWALReplay.new maxEntries).appendAll rs).entries = stampAll 1 rs
      ∧ ((StorageWALReplay.new maxEntries).appendAll rs).checkpointSequences
        = checkpointsOf (stampAll 1 rs) := by
  have hspec := StorageWALReplay.appendAll_spec rs (StorageWALReplay.new maxEntries)
    (by simpa [StorageWALReplay.new] using h)
  simpa [StorageWALReplay.new] using hspec

theorem log_entries (c : CheckpointedLog) : c.log.entries = c.beforeEntries ++ c.sinceEntries := by
  rw [log, requests, (new_entries c.maxEntries c.fits).1, stampAll_append, beforeEntries,
    sinceEntries, checkpointSeq]

theorem earlier_entries (c : CheckpointedLog) : c.earlier.entries = c.beforeEntries := by
  have hfits := c.fits
  rw [List.length_append] at hfits
  rw [earlier, (new_entries c.maxEntries (by omega)).1, beforeEntries]

theorem toNat_checkpointSeq (c : CheckpointedLog) :
    c.checkpointSeq.toNat = 1 + c.before.length := by
  have hfits := c.fits
  have hmax := (max c.maxEntries 1).toNat_lt
  rw [List.length_append, List.length_cons] at hfits
  rw [checkpointSeq, UInt64.toNat_add, UInt64.toNat_ofNat']
  simp
  omega

/-- Entries before the checkpoint have smaller numbers than those since it. -/
theorem sequence_lt_of_mem_before (c : CheckpointedLog) {e : WalEntry}
    (he : e ∈ c.beforeEntries) : e.sequence < c.checkpointSeq := by
  have hfits := c.fits
  have hmax := (max c.maxEntries 1).toNat_lt
  rw [List.length_append, List.length_cons] at hfits
  have hone : (1 : UInt64).toNat = 1 := rfl
  have hseq := sequence_of_mem_stampAll c.before 1 (by omega) e he
  rw [UInt64.lt_iff_toNat_lt, c.toNat_checkpointSeq]
  omega

theorem le_sequence_of_mem_since (c : CheckpointedLog) {e : WalEntry}
    (he : e ∈ c.sinceEntries) : c.checkpointSeq ≤ e.sequence := by
  have hfits := c.fits
  have hmax := (max c.maxEntries 1).toNat_lt
  rw [List.length_append, List.length_cons] at hfits
  have hseq := sequence_of_mem_stampAll (c.checkpoint :: c.after) c.checkpointSeq
    (by rw [c.toNat_checkpointSeq, List.length_cons]; omega) e he
  rw [UInt64.le_iff_toNat_le]
  exact hseq.1

theorem checkpointsOf_stampAll_of_none : ∀ {rs : List Request} (n : UInt64),
    (∀ r ∈ rs, r.entryType ≠ .checkpoint) → checkpointsOf (stampAll n rs) = []
  | [], _, _ => rfl
  | r :: rs, n, h => by
    have hr := h r List.mem_cons_self
    have hrest := checkpointsOf_stampAll_of_none (n + 1)
      (fun x hx => h x (List.mem_cons_of_mem _ hx))
    rw [checkpointsOf] at hrest ⊢
    rw [stampAll, List.filter_cons_of_neg (by simpa using hr), hrest]

theorem checkpointsOf_log (c : CheckpointedLog) :
    c.log.checkpointSequences = checkpointsOf c.beforeEntries ++ [c.checkpointSeq] := by
  have hafter := checkpointsOf_stampAll_of_none (c.checkpointSeq + 1) c.isLast
  rw [checkpointsOf] at hafter
  rw [log, requests, (new_entries c.maxEntries c.fits).2, stampAll_append]
  show checkpointsOf (c.beforeEntries ++ stampAll c.checkpointSeq (c.checkpoint :: c.after)) = _
  rw [checkpointsOf, List.filter_append, List.map_append, ← checkpointsOf, stampAll,
    List.filter_cons_of_pos (by simpa using c.isCheckpoint), List.map_cons, hafter]

/-- The replay starts at the last checkpoint. -/
theorem startSeq_eq (c : CheckpointedLog) : c.log.startSeq = c.checkpointSeq := by
  have hthere : c.log.entries.any (fun e => e.sequence = c.checkpointSeq) = true := by
    rw [c.log_entries, sinceEntries, stampAll, List.any_append, List.any_cons]
    simp
  rw [StorageWALReplay.startSeq, c.checkpointsOf_log, List.reverse_append, List.reverse_singleton,
    List.singleton_append, List.find?_cons, hthere]
  rfl

theorem window_full (log : StorageWALReplay) : (log.window .full).1 = log.entries := rfl

theorem window_sinceCheckpoint (c : CheckpointedLog) :
    (c.log.window .sinceCheckpoint).1 = c.sinceEntries := by
  show c.log.entries.filter (fun e => e.sequence ≥ c.log.startSeq) = _
  have hbefore : c.beforeEntries.filter (fun e => decide (e.sequence ≥ c.checkpointSeq)) = [] := by
    apply List.filter_eq_nil_iff.mpr
    intro e he
    rw [decide_eq_true_eq]
    exact UInt64.not_le.mpr (c.sequence_lt_of_mem_before he)
  have hsince : c.sinceEntries.filter (fun e => decide (e.sequence ≥ c.checkpointSeq))
      = c.sinceEntries := by
    apply List.filter_eq_self.mpr
    intro e he
    exact decide_eq_true (c.le_sequence_of_mem_since he)
  rw [c.startSeq_eq, c.log_entries, List.filter_append, hbefore, hsince, List.nil_append]

/-- The entries that take effect after the checkpoint in a full replay. -/
def lateEffects (c : CheckpointedLog) : List WalEntry :=
  effectsFrom (buffersAfter c.beforeEntries) c.sinceEntries

/-- Of these, the ones logged since the checkpoint. -/
def ownEffects (c : CheckpointedLog) : List WalEntry :=
  c.lateEffects.filter (fun e => c.checkpointSeq ≤ e.sequence)

/-- Where an entry logged before the checkpoint is the last of its key to take effect
after it, it leaves what the other entries leave. -/
def Settled (c : CheckpointedLog) : Prop :=
  ∀ d ∈ c.lateEffects, KeyedWrites.lastOn WalEntry.key d.key c.lateEffects = some d →
    d.sequence < c.checkpointSeq →
    effect d = valueOf (effects c.beforeEntries ++ c.ownEffects) d.key

instance (c : CheckpointedLog) : Decidable c.Settled :=
  inferInstanceAs (Decidable (∀ d ∈ c.lateEffects, _))

theorem effects_log (c : CheckpointedLog) :
    effects (c.beforeEntries ++ c.sinceEntries) = effects c.beforeEntries ++ c.lateEffects :=
  effectsFrom_append ..

/-- A replay since the checkpoint makes the late writes that were logged since. -/
theorem effects_since (c : CheckpointedLog) : effects c.sinceEntries = c.ownEffects := by
  have hbuffers : (fun txId => (buffersAfter c.beforeEntries txId).filter
      (fun e => decide (c.checkpointSeq ≤ e.sequence))) = fun _ => [] := by
    funext txId
    apply List.filter_eq_nil_iff.mpr
    intro d hd
    rw [decide_eq_true_eq]
    exact UInt64.not_le.mpr (c.sequence_lt_of_mem_before (mem_of_mem_buffersAfter hd))
  rw [ownEffects, lateEffects, effectsFrom_filter _ _ _
    (fun e he => decide_eq_true (c.le_sequence_of_mem_since he)), hbuffers, effects]

theorem valid_before (c : CheckpointedLog) : ∀ e ∈ c.beforeEntries, e.isValid = true :=
  stampAll_valid _ _

theorem valid_since (c : CheckpointedLog) : ∀ e ∈ c.sinceEntries, e.isValid = true :=
  stampAll_valid _ _

/-- What the loop leaves under a key, from a store that holds the writes `es'`. -/
theorem foldl_replayEntry_apply {es : List WalEntry} (h : ∀ e ∈ es, e.isValid = true)
    (state : ReplayState) (stats : ReplayStats) (es' : List WalEntry)
    (hbuf : buffersOf state = fun _ => []) (hstore : ∀ k, state.store k = valueOf es' k)
    (k : String) :
    (es.foldl replayEntry (state, stats)).1.store k = valueOf (es' ++ effects es) k := by
  rw [foldl_replayEntry es _ h]
  show (effectsFrom (buffersOf state) es).foldl applyData state.store k = _
  rw [hbuf, foldl_applyData_effects, KeyedWrites.foldl_apply_eq, hstore, valueOf, valueOf,
    KeyedWrites.lastOn_append, effects]
  cases KeyedWrites.lastOn WalEntry.key k (effectsFrom (fun _ => []) es) <;> rfl

theorem full_apply (c : CheckpointedLog) (k : String) :
    (c.log.replay .full).1.store k = valueOf (effects c.beforeEntries ++ c.lateEffects) k := by
  rw [StorageWALReplay.replay, window_full, c.log_entries, ← c.effects_log]
  have hvalid : ∀ e ∈ c.beforeEntries ++ c.sinceEntries, e.isValid = true := by
    intro e he
    exact (List.mem_append.mp he).elim (c.valid_before e) (c.valid_since e)
  exact foldl_replayEntry_apply hvalid _ _ [] rfl (fun _ => rfl) k

theorem since_apply (c : CheckpointedLog) (k : String) :
    c.log.replayOver .sinceCheckpoint (c.earlier.replay .full).1.store k
      = valueOf (effects c.beforeEntries ++ c.ownEffects) k := by
  have hbase : ∀ k, (c.earlier.replay .full).1.store k = valueOf (effects c.beforeEntries) k := by
    intro k
    rw [StorageWALReplay.replay, window_full, c.earlier_entries]
    exact foldl_replayEntry_apply c.valid_before _ _ [] rfl (fun _ => rfl) k
  rw [StorageWALReplay.replayOver, c.window_sinceCheckpoint, ← c.effects_since]
  exact foldl_replayEntry_apply c.valid_since
    { ReplayState.default with store := (c.earlier.replay .full).1.store } _ _ rfl hbase k

/-- The two replays agree exactly when no entry buffered at the checkpoint decides a
key afterwards, except to the value the key has without it. -/
theorem agrees_iff_settled (c : CheckpointedLog) : c.Agrees ↔ c.Settled := by
  constructor
  · intro h d _ hlast _
    have hkey := congrFun h d.key
    rw [c.since_apply, c.full_apply] at hkey
    rw [hkey, valueOf, KeyedWrites.lastOn_append, hlast]
    rfl
  · intro h
    funext k
    rw [c.since_apply, c.full_apply, valueOf, valueOf, KeyedWrites.lastOn_append,
      KeyedWrites.lastOn_append]
    cases hlate : KeyedWrites.lastOn WalEntry.key k c.lateEffects with
    | none =>
      have hown : KeyedWrites.lastOn WalEntry.key k c.ownEffects = none :=
        KeyedWrites.lastOn_eq_none_of_subset (fun e he => (List.mem_filter.mp he).1) hlate
      rw [hown]
    | some d =>
      obtain ⟨hmem, hk⟩ := KeyedWrites.lastOn_mem hlate
      subst hk
      by_cases hold : d.sequence < c.checkpointSeq
      · have hsettled := h d hmem hlate hold
        rw [valueOf, KeyedWrites.lastOn_append] at hsettled
        rw [← hsettled]
        rfl
      · have hnew : decide (c.checkpointSeq ≤ d.sequence) = true :=
          decide_eq_true (UInt64.not_lt.mp hold)
        rw [ownEffects, KeyedWrites.lastOn_filter _ hlate hnew]

/-- A transaction with a Put before the checkpoint and its Commit after it. -/
def straddling : CheckpointedLog where
  maxEntries := 100
  before := [⟨.begin, "", none, some 1⟩, ⟨.put, "k", some [1], some 1⟩]
  checkpoint := ⟨.checkpoint, "", none, none⟩
  after := [⟨.commit, "", none, some 1⟩]
  isCheckpoint := rfl
  isLast := by simp
  fits := by decide

/-- The Put is lost to the replay since the checkpoint. -/
theorem not_agrees_straddling : ¬ straddling.Agrees := by
  intro h
  have hkey := congrFun h "k"
  revert hkey
  decide

end CheckpointedLog

end Ipfrs.Storage.WalReplay
