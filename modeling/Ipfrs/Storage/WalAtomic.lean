/-
Ipfrs.Storage.WalAtomic — the transactions a replay finds only in part.

Truncation, eviction and the replay policies all keep a part of what was logged. A
transaction whose Commit is kept but whose first entries are gone is replayed from
the entries that are left, since a Put or Delete opens a missing buffer itself. The
writes before the Commit and those after it are the same whatever is left, so the
store shows the whole transaction, or nothing of it, exactly when the entries that
are left make no difference to one of the two (`SameWrites`).
-/
import Ipfrs.Storage.WalReplayTheorems

namespace Ipfrs.Storage.WalReplay

open Ipfrs.Lib

/-! ## Histories of a log -/

inductive WalOp where
  | append (r : Request)
  | truncateBefore (sequence : UInt64)
  deriving DecidableEq, Repr

namespace StorageWALReplay

def truncateBefore (log : StorageWALReplay) (sequence : UInt64) : Nat × StorageWALReplay :=
  let kept := log.entries.filter (fun e => e.sequence ≥ sequence)
  (log.entries.length - kept.length,
    { log with
      entries := kept
      checkpointSequences := log.checkpointSequences.filter (fun s => s ≥ sequence) })

def step (log : StorageWALReplay) : WalOp → StorageWALReplay
  | .append r => (log.append r).2
  | .truncateBefore sequence => (log.truncateBefore sequence).2

def run (log : StorageWALReplay) (ops : List WalOp) : StorageWALReplay := ops.foldl step log

/-- The entries that the appends of `ops` return. -/
def logged : StorageWALReplay → List WalOp → List WalEntry
  | _, [] => []
  | log, .append r :: ops => (log.append r).1 :: logged (log.append r).2 ops
  | log, .truncateBefore sequence :: ops => logged (log.truncateBefore sequence).2 ops

theorem evict_entries_sublist (log : StorageWALReplay) : log.evict.entries.Sublist log.entries := by
  unfold evict
  split
  · split
    · exact List.Sublist.refl _
    · next evicted rest heq =>
      rw [heq]
      exact List.sublist_cons_self _ _
  · exact List.Sublist.refl _

/-- A log holds a part of what was appended to it, in order. -/
theorem run_entries_sublist : ∀ (ops : List WalOp) (log : StorageWALReplay),
    (log.run ops).entries.Sublist (log.entries ++ log.logged ops)
  | [], log => by simp [run, logged]
  | .append r :: ops, log => by
    have hrest := run_entries_sublist ops (log.append r).2
    have hstep : (log.append r).2.entries.Sublist (log.entries ++ [(log.append r).1]) :=
      (evict_entries_sublist { log with nextSequence := log.nextSequence + 1 }).append_right _
    rw [logged, List.append_cons]
    exact hrest.trans (hstep.append_right _)
  | .truncateBefore sequence :: ops, log => by
    have hrest := run_entries_sublist ops (log.truncateBefore sequence).2
    exact hrest.trans (List.filter_sublist.append_right _)

theorem logged_valid : ∀ (ops : List WalOp) (log : StorageWALReplay),
    ∀ e ∈ log.logged ops, e.isValid = true
  | [], _, _, he => by cases he
  | .append r :: ops, log, e, he => by
    rcases List.mem_cons.mp he with rfl | he
    · simp [append, entryOf, WalEntry.isValid]
    · exact logged_valid ops _ e he
  | .truncateBefore _ :: ops, log, e, he => logged_valid ops _ e he

/-- A policy replays a part of the log, in order. -/
theorem window_sublist (log : StorageWALReplay) (policy : ReplayPolicy) :
    (log.window policy).1.Sublist log.entries := by
  cases policy with
  | full => exact List.Sublist.refl _
  | sinceCheckpoint => exact List.filter_sublist
  | sinceSequence minSeq => exact List.filter_sublist
  | lastN n => exact (List.take_sublist ..).trans (List.drop_sublist ..)

end StorageWALReplay

/-! ## One transaction among the entries -/

def isOf (txId : UInt64) (e : WalEntry) : Bool := e.transactionId = some txId

def isCommitOf (txId : UInt64) (e : WalEntry) : Bool := isOf txId e && e.entryType = .commit

/-- The Put and Delete entries of a transaction. -/
def dataOf (txId : UInt64) (es : List WalEntry) : List WalEntry :=
  es.filter (fun e => isOf txId e && (e.entryType = .put || e.entryType = .delete))

/-- The id was used by one Begin .. Commit: its entries are a Begin, then others than
Begin, Commit and Rollback, then a Commit. -/
def UsedOnce (txId : UInt64) (es : List WalEntry) : Prop :=
  ∃ first body last, es.filter (isOf txId) = first :: body ++ [last]
    ∧ first.entryType = .begin ∧ last.entryType = .commit
    ∧ ∀ e ∈ body, e.entryType = .put ∨ e.entryType = .delete ∨ e.entryType = .checkpoint

/-- The store that a replay of these entries produces. -/
def storeOf (es : List WalEntry) : Store :=
  (es.foldl replayEntry (ReplayState.default, ReplayStats.default)).1.store

/-- The entries without those of a transaction. -/
def withoutTx (txId : UInt64) (es : List WalEntry) : List WalEntry :=
  es.filter (fun e => !isOf txId e)

/-- The entries with all of `data` in the transaction, at its Commit. -/
def withWholeTx (txId : UInt64) (data es : List WalEntry) : List WalEntry :=
  es.flatMap (fun e =>
    if isCommitOf txId e then data ++ [e] else if isOf txId e then [] else [e])

/-- The store a policy replays is the one with all of the transaction's Put and Delete
entries, or the one with none of them. -/
def Atomic (log : StorageWALReplay) (policy : ReplayPolicy) (history : List WalEntry)
    (txId : UInt64) : Prop :=
  let shown := (log.window policy).1
  (log.replay policy).1.store = storeOf (withWholeTx txId (dataOf txId history) shown)
    ∨ (log.replay policy).1.store = storeOf (withoutTx txId shown)

/-! ## The condition -/

/-- Between the writes `early` and `late`, writing `all` comes to the same as writing
`part`: on a key that `late` does not write, the last write of `all` leaves what is
there after `part`. -/
def SameWrites (early late part all : List WalEntry) : Prop :=
  ∀ d ∈ all, KeyedWrites.lastOn WalEntry.key d.key all = some d →
    KeyedWrites.lastOn WalEntry.key d.key late = none →
    effect d = valueOf (early ++ part) d.key

instance (early late part all : List WalEntry) : Decidable (SameWrites early late part all) :=
  inferInstanceAs (Decidable (∀ d ∈ all, _))

def beforeCommit (txId : UInt64) (es : List WalEntry) : List WalEntry :=
  es.takeWhile (fun e => !isCommitOf txId e)

def afterCommit (txId : UInt64) (es : List WalEntry) : List WalEntry :=
  (es.dropWhile (fun e => !isCommitOf txId e)).tail

/-- What takes effect before the Commit of the transaction, and after it. -/
def earlyWrites (txId : UInt64) (es : List WalEntry) : List WalEntry :=
  effects (beforeCommit txId es)

def lateWrites (txId : UInt64) (es : List WalEntry) : List WalEntry :=
  effectsFrom (buffersAfter (beforeCommit txId es)) (afterCommit txId es)

/-- What takes effect at the Commit. -/
def ownWrites (txId : UInt64) (es : List WalEntry) : List WalEntry :=
  (dataOf txId es).filter takesEffect

/-- The entries shown hold no Commit of the transaction, or what they lack of it makes no
difference, or what they have of it makes none. -/
def NoPartShows (history shown : List WalEntry) (txId : UInt64) : Prop :=
  (∀ e ∈ shown, isCommitOf txId e = false)
    ∨ SameWrites (earlyWrites txId shown) (lateWrites txId shown) (ownWrites txId shown)
        (ownWrites txId history)
    ∨ SameWrites (earlyWrites txId shown) (lateWrites txId shown) [] (ownWrites txId shown)

instance (history shown : List WalEntry) (txId : UInt64) :
    Decidable (NoPartShows history shown txId) :=
  inferInstanceAs (Decidable (_ ∨ _ ∨ _))

theorem sameWrites_iff {early late part all : List WalEntry} (hsub : ∀ e ∈ part, e ∈ all) :
    SameWrites early late part all
      ↔ ∀ k, valueOf (early ++ part ++ late) k = valueOf (early ++ all ++ late) k := by
  constructor
  · intro h k
    rw [valueOf, valueOf, KeyedWrites.lastOn_append, KeyedWrites.lastOn_append _ (early ++ all)]
    cases hlate : KeyedWrites.lastOn WalEntry.key k late with
    | some d => rfl
    | none =>
      cases hall : KeyedWrites.lastOn WalEntry.key k all with
      | none =>
        have hpart := KeyedWrites.lastOn_eq_none_of_subset hsub hall
        simp [KeyedWrites.lastOn_append, hall, hpart]
      | some d =>
        obtain ⟨hd, rfl⟩ := KeyedWrites.lastOn_mem hall
        have hsame := h d hd hall hlate
        rw [valueOf] at hsame
        rw [KeyedWrites.lastOn_append d.key early all, hall, Option.none_or, ← hsame]
        rfl
  · intro h d _ hall hlate
    have hk := h d.key
    rw [valueOf, valueOf, KeyedWrites.lastOn_append, KeyedWrites.lastOn_append _ (early ++ all),
      hlate, KeyedWrites.lastOn_append d.key early all, hall] at hk
    rw [valueOf]
    exact hk.symm

/-! ## What the entries of a transaction do -/

/-- Buffers that may differ in one transaction only. -/
def AgreeOff (txId : UInt64) (b b' : Buffers) : Prop := ∀ id, id ≠ txId → b id = b' id

theorem AgreeOff.refl (txId : UInt64) (b : Buffers) : AgreeOff txId b b := fun _ _ => rfl

theorem emits_agreeOff {txId : UInt64} {b b' : Buffers} {e : WalEntry} (h : AgreeOff txId b b')
    (he : isCommitOf txId e = false) : emits b e = emits b' e := by
  cases hty : e.entryType <;> cases htx : e.transactionId <;> simp only [emits, hty, htx]
  next id =>
    have hne : id ≠ txId := by
      intro heq
      simp [isCommitOf, isOf, hty, htx, heq] at he
    rw [h id hne]

theorem nextBuffers_agreeOff {txId : UInt64} {b b' : Buffers} (e : WalEntry)
    (h : AgreeOff txId b b') : AgreeOff txId (nextBuffers b e) (nextBuffers b' e) := by
  intro id hid
  have hb := h id hid
  cases hty : e.entryType <;> cases htx : e.transactionId <;>
    simp only [nextBuffers, hty, htx, Function.update_apply] <;> grind

/-- An entry of the transaction changes the buffer of no other. -/
theorem nextBuffers_of_isOf {txId : UInt64} {b b' : Buffers} {e : WalEntry}
    (he : isOf txId e = true) (h : AgreeOff txId b b') : AgreeOff txId (nextBuffers b e) b' := by
  intro id hid
  have htx : e.transactionId = some txId := by simpa [isOf] using he
  cases hty : e.entryType <;> simp [nextBuffers, hty, htx, Function.update_of_ne hid, h id hid]

/-- Up to its Commit, a transaction changes neither the writes nor the other buffers. -/
theorem effectsFrom_withoutTx {txId : UInt64} : ∀ {es : List WalEntry} {b b' : Buffers},
    (∀ e ∈ es, isCommitOf txId e = false) → AgreeOff txId b b' →
    effectsFrom b es = effectsFrom b' (withoutTx txId es)
      ∧ AgreeOff txId (es.foldl nextBuffers b) ((withoutTx txId es).foldl nextBuffers b')
  | [], _, _, _, h => ⟨rfl, h⟩
  | e :: es, b, b', hes, h => by
    have he := hes e List.mem_cons_self
    have hrest := fun x hx => hes x (List.mem_cons_of_mem _ hx)
    by_cases hof : isOf txId e = true
    · have hnone : emits b e = [] := by
        have htx : e.transactionId = some txId := by simpa [isOf] using hof
        cases hty : e.entryType <;> simp_all [emits, isCommitOf]
      have ih := effectsFrom_withoutTx hrest (nextBuffers_of_isOf hof h)
      rw [withoutTx, List.filter_cons_of_neg (by simpa using hof), effectsFrom, hnone]
      exact ih
    · have ih := effectsFrom_withoutTx hrest (nextBuffers_agreeOff e h)
      rw [withoutTx, List.filter_cons_of_pos (by simpa using hof), effectsFrom, effectsFrom,
        emits_agreeOff h he, ih.1]
      exact ⟨rfl, ih.2⟩

/-- The entries of the transaction among these have neither closed nor ended it. -/
def Open (txId : UInt64) (es : List WalEntry) : Prop :=
  ∀ e ∈ es, isOf txId e = true → e.entryType ≠ .commit ∧ e.entryType ≠ .rollback

theorem not_isCommitOf_of_isOf {txId : UInt64} {e : WalEntry} (h : isOf txId e = false) :
    isCommitOf txId e = false := by
  rw [isCommitOf, h, Bool.false_and]

theorem not_isCommitOf_of_open {txId : UInt64} {es : List WalEntry} (h : Open txId es) :
    ∀ e ∈ es, isCommitOf txId e = false := by
  intro e he
  cases hof : isOf txId e with
  | false => exact not_isCommitOf_of_isOf hof
  | true => simp [isCommitOf, (h e he hof).1]

/-- Up to its Commit or Rollback, a transaction buffers its Put and Delete entries. -/
theorem foldl_nextBuffers_self {txId : UInt64} : ∀ {es : List WalEntry} (b : Buffers),
    Open txId es → es.foldl nextBuffers b txId = b txId ++ dataOf txId es
  | [], b, _ => by simp [dataOf]
  | e :: es, b, hes => by
    have ih := foldl_nextBuffers_self (nextBuffers b e)
      (fun x hx => hes x (List.mem_cons_of_mem _ hx))
    have he := hes e List.mem_cons_self
    rw [List.foldl_cons, ih, dataOf, dataOf, List.filter_cons]
    cases hty : e.entryType <;> cases htx : e.transactionId <;>
      simp [nextBuffers, hty, htx, isOf, Function.update_apply] at he ⊢ <;> grind

theorem withoutTx_of_none {txId : UInt64} {es : List WalEntry}
    (h : ∀ e ∈ es, isOf txId e = false) : withoutTx txId es = es :=
  List.filter_eq_self.mpr (fun e he => by rw [h e he]; rfl)

theorem withWholeTx_of_not_commit {txId : UInt64} (data : List WalEntry) :
    ∀ {es : List WalEntry}, (∀ e ∈ es, isCommitOf txId e = false) →
      withWholeTx txId data es = withoutTx txId es
  | [], _ => rfl
  | e :: es, h => by
    have ih := withWholeTx_of_not_commit data (fun x hx => h x (List.mem_cons_of_mem _ hx))
    have he := h e List.mem_cons_self
    rw [withWholeTx, withoutTx] at ih ⊢
    rw [List.flatMap_cons, ih, List.filter_cons]
    cases hof : isOf txId e <;> simp [he]

theorem isOf_of_mem_dataOf {txId : UInt64} {es : List WalEntry} {e : WalEntry}
    (h : e ∈ dataOf txId es) :
    isOf txId e = true ∧ (e.entryType = .put ∨ e.entryType = .delete) := by
  simpa using (List.mem_filter.mp h).2

section WholeTx

variable (txId : UInt64) (pre es : List WalEntry)

theorem withoutTx_append_dataOf :
    withoutTx txId (withoutTx txId pre ++ dataOf txId es) = withoutTx txId pre := by
  have hdata : (dataOf txId es).filter (fun e => !isOf txId e) = [] :=
    List.filter_eq_nil_iff.mpr (fun e he => by simp [(isOf_of_mem_dataOf he).1])
  rw [withoutTx, List.filter_append, hdata]
  simp [withoutTx]

theorem dataOf_append_dataOf :
    dataOf txId (withoutTx txId pre ++ dataOf txId es) = dataOf txId es := by
  have hpre : dataOf txId (withoutTx txId pre) = [] := by
    apply List.filter_eq_nil_iff.mpr
    intro e he
    have hof := (List.mem_filter.mp he).2
    rw [Bool.not_eq_true'] at hof
    simp [hof]
  rw [dataOf, List.filter_append, ← dataOf, hpre, List.nil_append, dataOf, List.filter_filter]
  simp

theorem open_append_dataOf : Open txId (withoutTx txId pre ++ dataOf txId es) := by
  intro e he hof
  rcases List.mem_append.mp he with he | he
  · simp [withoutTx, hof] at he
  · rcases (isOf_of_mem_dataOf he).2 with hty | hty <;> simp [hty]

end WholeTx

/-- The writes of entries with one Commit of the transaction in them. -/
theorem effects_split {txId : UInt64} {pre post : List WalEntry} {c : WalEntry}
    (hpre : Open txId pre) (hc : isCommitOf txId c = true)
    (hpost : ∀ e ∈ post, isOf txId e = false) : effects (pre ++ c :: post)
      = effects (withoutTx txId pre) ++ ownWrites txId pre
          ++ effectsFrom (buffersAfter (withoutTx txId pre)) post := by
  obtain ⟨htx, hty⟩ : c.transactionId = some txId ∧ c.entryType = .commit := by
    simpa [isCommitOf, isOf] using hc
  obtain ⟨hearly, hbuf⟩ :=
    effectsFrom_withoutTx (not_isCommitOf_of_open hpre) (AgreeOff.refl txId (fun _ => []))
  have hown : emits (pre.foldl nextBuffers (fun _ => [])) c = ownWrites txId pre := by
    simp only [emits, hty, htx]
    rw [foldl_nextBuffers_self _ hpre, List.nil_append, ownWrites]
  have hlate : effectsFrom (nextBuffers (pre.foldl nextBuffers (fun _ => [])) c) post
      = effectsFrom (buffersAfter (withoutTx txId pre)) post := by
    have hof : isOf txId c = true := by simp [isOf, htx]
    have h := (effectsFrom_withoutTx (fun e he => not_isCommitOf_of_isOf (hpost e he))
      (nextBuffers_of_isOf hof hbuf)).1
    rwa [withoutTx_of_none hpost] at h
  rw [effects, effectsFrom_append, effectsFrom, hearly, hown, hlate, ← List.append_assoc]
  rfl

/-! ## A transaction with one Commit -/

theorem isOf_of_isCommitOf {txId : UInt64} {e : WalEntry} (h : isCommitOf txId e = true) :
    isOf txId e = true := by
  rw [isCommitOf, Bool.and_eq_true] at h
  exact h.1

theorem entryType_of_isCommitOf {txId : UInt64} {e : WalEntry} (h : isCommitOf txId e = true) :
    e.entryType = .commit := by
  rw [isCommitOf, Bool.and_eq_true] at h
  exact of_decide_eq_true h.2

theorem eq_of_append_cons_eq {α : Type} {l r l₁ l₂ : List α} {c : α}
    (h : l ++ c :: r = l₁ ++ l₂) (hc : c ∉ l₁) (hlen : l₂.length ≤ 1) : l = l₁ ∧ r = [] := by
  rcases List.append_eq_append_iff.mp h with ⟨mid, hl, hr⟩ | ⟨mid, hl, hr⟩
  · cases mid with
    | nil =>
      rw [List.nil_append] at hr
      rw [← hr, List.length_cons] at hlen
      exact ⟨by simpa using hl.symm, List.length_eq_zero_iff.mp (by omega)⟩
    | cons a mid =>
      rw [List.cons_append, List.cons.injEq] at hr
      simp [hl, hr.1] at hc
  · rw [hr, List.length_append, List.length_cons] at hlen
    have hmid : mid = [] := List.length_eq_zero_iff.mp (by omega)
    exact ⟨by simpa [hmid] using hl, List.length_eq_zero_iff.mp (by omega)⟩

/-- In a part of the log, nothing of the transaction follows its Commit, and neither a
Commit nor a Rollback stands before it. -/
theorem UsedOnce.split {txId : UInt64} {history pre post : List WalEntry} {c : WalEntry}
    (h : UsedOnce txId history) (hsub : (pre ++ c :: post).Sublist history)
    (hc : isCommitOf txId c = true) : Open txId pre ∧ ∀ e ∈ post, isOf txId e = false := by
  obtain ⟨first, body, last, hall, hfirst, hlast, hbody⟩ := h
  have hcof := isOf_of_isCommitOf hc
  have hcty := entryType_of_isCommitOf hc
  have hopen : ∀ e ∈ first :: body, e.entryType ≠ .commit ∧ e.entryType ≠ .rollback := by
    intro e he
    rcases List.mem_cons.mp he with rfl | he
    · simp [hfirst]
    · rcases hbody e he with hty | hty | hty <;> simp [hty]
  have hmine := hsub.filter (isOf txId)
  rw [hall, List.filter_append, List.filter_cons_of_pos hcof] at hmine
  obtain ⟨l₁, l₂, heq, hl₁, hl₂⟩ := List.sublist_append_iff.mp hmine
  have hlen : l₂.length ≤ 1 := hl₂.length_le
  obtain ⟨hl, hnil⟩ :=
    eq_of_append_cons_eq heq (fun hin => (hopen c (hl₁.subset hin)).1 hcty) hlen
  constructor
  · intro e he hof
    have hin : e ∈ l₁ := by
      rw [← hl]
      exact List.mem_filter.mpr ⟨he, hof⟩
    exact hopen e (hl₁.subset hin)
  · intro e he
    simpa using List.filter_eq_nil_iff.mp hnil e he

/-- Entries with the Commit split at it. -/
theorem split_at_commit {txId : UInt64} : ∀ {es : List WalEntry},
    (∃ e ∈ es, isCommitOf txId e = true) →
    ∃ c, isCommitOf txId c = true ∧ es = beforeCommit txId es ++ c :: afterCommit txId es
  | [], h => by simp at h
  | e :: es, h => by
    by_cases he : isCommitOf txId e = true
    · exact ⟨e, he, by simp [beforeCommit, afterCommit, he]⟩
    · have hrest : ∃ x ∈ es, isCommitOf txId x = true := by simpa [he] using h
      obtain ⟨c, hc, hsplit⟩ := split_at_commit hrest
      refine ⟨c, hc, ?_⟩
      rw [beforeCommit, afterCommit] at hsplit ⊢
      simp only [List.takeWhile_cons, List.dropWhile_cons, he, Bool.not_false, if_true]
      rw [List.cons_append, ← hsplit]

/-- What a replay leaves under a key. -/
theorem storeOf_apply {es : List WalEntry} (h : ∀ e ∈ es, e.isValid = true) (k : String) :
    storeOf es k = valueOf (effects es) k :=
  CheckpointedLog.foldl_replayEntry_apply h _ _ [] rfl (fun _ => rfl) k

theorem storeOf_congr {es es' : List WalEntry} (h : ∀ e ∈ es, e.isValid = true)
    (h' : ∀ e ∈ es', e.isValid = true) :
    storeOf es = storeOf es' ↔ ∀ k, valueOf (effects es) k = valueOf (effects es') k := by
  constructor
  · intro heq k
    rw [← storeOf_apply h, ← storeOf_apply h', heq]
  · intro heq
    funext k
    rw [storeOf_apply h, storeOf_apply h', heq]

/-! ## Atomicity -/

section Cut

variable {txId : UInt64} {history shown : List WalEntry}

/-- The three stores, where the entries shown hold a Commit of the transaction. -/
theorem effects_of_commit (huse : UsedOnce txId history) (hsub : shown.Sublist history)
    (hcommit : ∃ e ∈ shown, isCommitOf txId e = true) : effects shown
        = earlyWrites txId shown ++ ownWrites txId shown ++ lateWrites txId shown
      ∧ effects (withWholeTx txId (dataOf txId history) shown)
        = earlyWrites txId shown ++ ownWrites txId history ++ lateWrites txId shown
      ∧ effects (withoutTx txId shown) = earlyWrites txId shown ++ lateWrites txId shown := by
  obtain ⟨c, hc, hsplit⟩ := split_at_commit hcommit
  obtain ⟨hopen, hnone⟩ := huse.split (hsplit ▸ hsub) hc
  have hnocommit := not_isCommitOf_of_open hopen
  have hcof := isOf_of_isCommitOf hc
  obtain ⟨hearly, hbuf⟩ := effectsFrom_withoutTx hnocommit (AgreeOff.refl txId (fun _ => []))
  rw [← effects, ← effects, ← earlyWrites] at hearly
  have hlate : lateWrites txId shown
      = effectsFrom (buffersAfter (withoutTx txId (beforeCommit txId shown)))
          (afterCommit txId shown) := by
    have h := (effectsFrom_withoutTx (fun e he => not_isCommitOf_of_isOf (hnone e he)) hbuf).1
    rwa [withoutTx_of_none hnone] at h
  have hown : ownWrites txId shown = ownWrites txId (beforeCommit txId shown) := by
    have hdata : dataOf txId (c :: afterCommit txId shown) = [] := by
      apply List.filter_eq_nil_iff.mpr
      intro e he
      rcases List.mem_cons.mp he with rfl | he
      · simp [entryType_of_isCommitOf hc]
      · simp [hnone e he]
    rw [ownWrites, hsplit, dataOf, List.filter_append, ← dataOf, ← dataOf, hdata,
      List.append_nil, ← hsplit, ownWrites]
  refine ⟨?_, ?_, ?_⟩
  · rw [hearly, hlate, hown, ← effects_split hopen hc hnone, ← hsplit]
  · have hwhole : withWholeTx txId (dataOf txId history) shown
        = (withoutTx txId (beforeCommit txId shown) ++ dataOf txId history)
            ++ c :: afterCommit txId shown := by
      have hafter := withWholeTx_of_not_commit (dataOf txId history)
        (fun e he => not_isCommitOf_of_isOf (hnone e he))
      have hbefore := withWholeTx_of_not_commit (dataOf txId history) hnocommit
      rw [withoutTx_of_none hnone, withWholeTx] at hafter
      rw [withWholeTx] at hbefore ⊢
      conv_lhs => rw [hsplit]
      rw [List.flatMap_append, List.flatMap_cons, hbefore, hafter, if_pos hc]
      simp
    rw [hwhole, effects_split (open_append_dataOf txId _ _) hc hnone, withoutTx_append_dataOf,
      hearly, hlate, ownWrites, dataOf_append_dataOf, ownWrites]
  · have hsplitted : withoutTx txId shown
        = withoutTx txId (beforeCommit txId shown) ++ afterCommit txId shown := by
      conv_lhs => rw [hsplit]
      rw [withoutTx, List.filter_append, List.filter_cons_of_neg (by simp [hcof]), ← withoutTx,
        ← withoutTx, withoutTx_of_none hnone]
    rw [hsplitted, hearly, hlate, effects, effectsFrom_append]
    rfl

/-- **A replay shows a transaction whole or not at all exactly when what its window cut
off makes no difference.** -/
theorem atomic_iff_noPartShows {log : StorageWALReplay} {policy : ReplayPolicy}
    (huse : UsedOnce txId history) (hvalid : ∀ e ∈ history, e.isValid = true)
    (hsub : (log.window policy).1.Sublist history) :
    Atomic log policy history txId ↔ NoPartShows history (log.window policy).1 txId := by
  generalize hshown : (log.window policy).1 = shown at hsub
  have hreplay : (log.replay policy).1.store = storeOf shown := by
    funext k
    rw [storeOf_apply (fun e he => hvalid e (hsub.subset he)), StorageWALReplay.replay, hshown]
    exact CheckpointedLog.foldl_replayEntry_apply (fun e he => hvalid e (hsub.subset he)) _ _ []
      rfl (fun _ => rfl) k
  have hv : ∀ e ∈ shown, e.isValid = true := fun e he => hvalid e (hsub.subset he)
  have hvWithout : ∀ e ∈ withoutTx txId shown, e.isValid = true :=
    fun e he => hv e (List.mem_filter.mp he).1
  have hvWhole : ∀ e ∈ withWholeTx txId (dataOf txId history) shown, e.isValid = true := by
    intro e he
    obtain ⟨x, hx, he⟩ := List.mem_flatMap.mp he
    split at he
    · rcases List.mem_append.mp he with he | he
      · exact hvalid e (List.mem_filter.mp he).1
      · exact (List.mem_singleton.mp he) ▸ hv x hx
    · split at he
      · cases he
      · exact (List.mem_singleton.mp he) ▸ hv x hx
  rw [Atomic, hshown, hreplay, storeOf_congr hv hvWhole, storeOf_congr hv hvWithout]
  by_cases hcommit : ∃ e ∈ shown, isCommitOf txId e = true
  · obtain ⟨hall, hwhole, hwithout⟩ := effects_of_commit huse hsub hcommit
    have hno : ¬ ∀ e ∈ shown, isCommitOf txId e = false := by
      intro h
      obtain ⟨e, he, hc⟩ := hcommit
      rw [h e he] at hc
      cases hc
    have hkept : ∀ e ∈ ownWrites txId shown, e ∈ ownWrites txId history := by
      intro e he
      exact ((hsub.filter _).filter _).subset he
    rw [hall, hwhole, hwithout, NoPartShows, or_iff_right hno, sameWrites_iff hkept,
      sameWrites_iff (by simp)]
    simp only [List.append_nil, eq_comm]
  · have hno : ∀ e ∈ shown, isCommitOf txId e = false := by
      intro e he
      cases hc : isCommitOf txId e with
      | false => rfl
      | true => exact absurd ⟨e, he, hc⟩ hcommit
    have hsame : effects shown = effects (withoutTx txId shown) :=
      (effectsFrom_withoutTx hno (AgreeOff.refl txId _)).1
    exact ⟨fun _ => .inl hno, fun _ => .inr (fun k => by rw [hsame])⟩

end Cut

namespace StorageWALReplay

/-- What a policy replays is a part of what was appended. -/
theorem window_run_sublist (maxEntries : UInt64) (ops : List WalOp) (policy : ReplayPolicy) :
    (((new maxEntries).run ops).window policy).1.Sublist ((new maxEntries).logged ops) :=
  (window_sublist _ policy).trans (run_entries_sublist ops (new maxEntries))

/-- **Replay of a log with any history: a transaction shows whole or not at all exactly
when no part of it shows.** -/
theorem replay_atomic_iff (maxEntries : UInt64) (ops : List WalOp) (policy : ReplayPolicy)
    (txId : UInt64) (huse : UsedOnce txId ((new maxEntries).logged ops)) :
    Atomic ((new maxEntries).run ops) policy ((new maxEntries).logged ops) txId
      ↔ NoPartShows ((new maxEntries).logged ops)
          (((new maxEntries).run ops).window policy).1 txId :=
  atomic_iff_noPartShows huse (logged_valid ops _) (window_run_sublist maxEntries ops policy)

/-- Begin, two Puts and Commit. -/
def twoPuts : List WalOp :=
  [.append ⟨.begin, "", none, some 1⟩, .append ⟨.put, "a", some [1], some 1⟩,
    .append ⟨.put, "b", some [2], some 1⟩, .append ⟨.commit, "", none, some 1⟩]

theorem usedOnce_twoPuts : UsedOnce 1 ((new 100).logged twoPuts) :=
  ⟨_, [_, _], _, rfl, rfl, rfl, by decide⟩

theorem replay_atomic_twoPuts : Atomic ((new 100).run twoPuts) .full ((new 100).logged twoPuts) 1 :=
  (replay_atomic_iff 100 twoPuts .full 1 usedOnce_twoPuts).mpr (by decide)

/-- Of its last two entries a replay takes the second Put and not the first. -/
theorem not_atomic_lastN : UsedOnce 1 ((new 100).logged twoPuts)
      ∧ ¬ Atomic ((new 100).run twoPuts) (.lastN 2) ((new 100).logged twoPuts) 1 := by
  refine ⟨usedOnce_twoPuts, ?_⟩
  rintro (hwhole | hnone)
  · have ha := congrFun hwhole "a"
    revert ha
    decide
  · have hb := congrFun hnone "b"
    revert hb
    decide

end StorageWALReplay

end Ipfrs.Storage.WalReplay
