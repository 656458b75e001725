/-
Ipfrs.Storage.CoalesceTheorems — what gathered writes lose, and when they lose nothing.

Between the lock and the store a flush is the only one to have its blocks: a read in
that gap finds them nowhere, a store that fails takes them away for good, and a delete
that runs in the gap is undone by the flush. Otherwise a block is pending, carried by a
flush or stored from its put on, and after a delete it is none of these.
-/
import Ipfrs.Storage.Coalesce
import Ipfrs.Storage.StoreLayers

namespace Ipfrs.Storage

open Ipfrs.Core Ipfrs.Lib
open Ipfrs.Lib.Interleaving (Machine Pool Turn)
open Ipfrs.Knowledge (ColdStore)
open Ipfrs.Knowledge.ColdStore.Faithful (lookup)

/-! ## What a call writes and what a flush carries -/

/-- The blocks that a call writes. -/
def CoalesceCall.blocks : CoalesceCall → List Block
  | put b => [b]
  | putMany blocks => blocks
  | _ => []

/-- The blocks that a flush has taken and not yet written. -/
def CoalesceTask.carried : CoalesceTask → List Block
  | flushing _ blocks => blocks
  | _ => []

def CoalesceTask.isFlushing : CoalesceTask → Bool
  | flushing _ _ => true
  | _ => false

/-- One of the blocks has the identifier. -/
def Names (cid : Cid) (blocks : List Block) : Prop := ∃ b ∈ blocks, b.cid = cid

instance (cid : Cid) (blocks : List Block) : Decidable (Names cid blocks) :=
  inferInstanceAs (Decidable (∃ b ∈ blocks, b.cid = cid))

namespace Pending

theorem mem_foldl_insert {b : Block} : ∀ {blocks : List Block} {p : Pending},
    b ∈ (blocks.foldl insert p).blocks → b ∈ p.blocks ∨ b ∈ blocks
  | [], _, h => .inl h
  | b' :: blocks, p, h => by
    rcases mem_foldl_insert (p := insert p b') h with h | h
    · rcases mem_insert.mp h with rfl | ⟨h, -⟩
      · exact .inr List.mem_cons_self
      · exact .inl h
    · exact .inr (List.mem_cons_of_mem _ h)

theorem has_foldl_insert {cid : Cid} : ∀ {blocks : List Block} {p : Pending},
    (blocks.foldl insert p).Has cid ↔ p.Has cid ∨ Names cid blocks
  | [], p => by simp [Names]
  | b :: blocks, p => by
    rw [List.foldl_cons, has_foldl_insert, has_insert]
    simp only [Names, List.mem_cons, exists_eq_or_imp]
    tauto

end Pending

namespace CoalescingBlockStore

section Starts

variable {C : Type} {values : Nat → List Block → List Block}

/-- Blocks gathered in the pending map, or taken out of it by a flush. -/
inductive Gathered (call : CoalesceCall) (q : Pending) (s : CoalescingBlockStore C) :
    CoalesceTask × CoalescingBlockStore C → Prop
  | kept (a : CoalesceAnswer) : Gathered call q s (.returned call (.ok a), { s with pending := q })
  | taken (blocks : List Block) (h : blocks.Perm q.blocks) :
      Gathered call q s (.flushing call blocks,
        { s with pending := Pending.empty, totalFlushes := s.totalFlushes + 1 })

theorem flushPending_gathered (hv : ∀ n l, (values n l).Perm l) (call : CoalesceCall)
    (s : CoalescingBlockStore C) : Gathered call s.pending s (flushPending values call s) := by
  rw [flushPending]
  split
  · exact Gathered.kept _
  · exact Gathered.taken _ (hv _ _)

theorem write_gathered (hv : ∀ n l, (values n l).Perm l) (call : CoalesceCall)
    (blocks : List Block) (s : CoalescingBlockStore C) :
    Gathered call (blocks.foldl Pending.insert s.pending) s (write values call blocks s) := by
  simp only [write]
  split
  · rcases h : flushPending values call
        { s with pending := blocks.foldl Pending.insert s.pending } with ⟨t, s'⟩
    have hg := flushPending_gathered hv call
      { s with pending := blocks.foldl Pending.insert s.pending }
    rw [h] at hg
    cases hg with
    | kept a => exact Gathered.kept a
    | taken bs hbs => exact Gathered.taken bs hbs
  · exact Gathered.kept _

/-- All that a call can begin with. -/
inductive Begun (s : CoalescingBlockStore C) :
    CoalesceCall → CoalesceTask × CoalescingBlockStore C → Prop
  | gets (cid : Cid) (b : Block) (h : s.pending.get cid = some b) :
      Begun s (.get cid) (.returned (.get cid) (.ok (.block (some b))), s)
  | getAsks (cid : Cid) (h : ¬ s.pending.Has cid) : Begun s (.get cid) (.getAsking cid, s)
  | has (cid : Cid) :
      Begun s (.has cid) (.returned (.has cid) (.ok (.present true)), s)
  | hasAsks (cid : Cid) : Begun s (.has cid) (.hasAsking cid, s)
  | deletes (cid : Cid) :
      Begun s (.delete cid) (.deleteAsking cid, { s with pending := s.pending.remove cid })
  | gathers (call : CoalesceCall) (r : CoalesceTask × CoalescingBlockStore C)
      (hcall : ∀ cid, call ≠ .get cid)
      (h : Gathered call (call.blocks.foldl Pending.insert s.pending) s r) : Begun s call r

theorem start_begun (hv : ∀ n l, (values n l).Perm l) (call : CoalesceCall)
    (s : CoalescingBlockStore C) : Begun s call (start values call s) := by
  cases call with
  | get cid =>
    cases h : s.pending.get cid with
    | some b =>
      simp only [start, h]
      exact Begun.gets cid b h
    | none =>
      simp only [start, h]
      exact Begun.getAsks cid (Pending.get_eq_none.mp h)
  | has cid =>
    simp only [start]
    split
    · exact Begun.has cid
    · exact Begun.hasAsks cid
  | delete cid => exact Begun.deletes cid
  | put b => exact Begun.gathers _ _ (by simp) (write_gathered hv _ [b] s)
  | putMany blocks => exact Begun.gathers _ _ (by simp) (write_gathered hv _ blocks s)
  | flushWrites => exact Begun.gathers _ _ (by simp) (flushPending_gathered hv _ s)

variable {s : CoalescingBlockStore C} {call : CoalesceCall}
  {r : CoalesceTask × CoalescingBlockStore C}

theorem Begun.call_eq (h : Begun s call r) : r.1.call = call := by
  cases h with
  | gathers _ _ _ hg => cases hg <;> rfl
  | _ => rfl

theorem Begun.inner_eq (h : Begun s call r) : r.2.inner = s.inner := by
  cases h with
  | gathers _ _ _ hg => cases hg <;> rfl
  | _ => rfl

/-- What was pending or is written is pending or carried by the flush that begins. -/
theorem Begun.moves (h : Begun s call r) {cid : Cid} (hd : call ≠ .delete cid)
    (hcid : s.pending.Has cid ∨ Names cid call.blocks) :
    r.2.pending.Has cid ∨ Names cid r.1.carried := by
  have hempty : ¬ Names cid [] := by simp [Names]
  cases h with
  | gets | getAsks | has | hasAsks => exact .inl (hcid.resolve_right hempty)
  | deletes c =>
    refine .inl (Pending.has_remove.mpr ⟨?_, hcid.resolve_right hempty⟩)
    rintro rfl
    exact hd rfl
  | gathers _ _ _ hg =>
    have hq := Pending.has_foldl_insert.mpr hcid
    cases hg with
    | kept a => exact .inl hq
    | taken blocks hperm =>
      obtain ⟨b, hb, hc⟩ := hq
      exact .inr ⟨b, hperm.mem_iff.mpr hb, hc⟩

/-- Nothing else is pending or carried. -/
theorem Begun.only (h : Begun s call r) {b : Block}
    (hb : b ∈ r.2.pending.blocks ∨ b ∈ r.1.carried) : b ∈ s.pending.blocks ∨ b ∈ call.blocks := by
  cases h with
  | gets | getAsks | has | hasAsks =>
    exact .inl (hb.resolve_right (by simp [CoalesceTask.carried]))
  | deletes c =>
    have hin := hb.resolve_right (by simp [CoalesceTask.carried])
    exact .inl (Pending.mem_remove.mp hin).1
  | gathers _ _ _ hg =>
    cases hg with
    | kept a =>
      exact Pending.mem_foldl_insert (hb.resolve_right (by simp [CoalesceTask.carried]))
    | taken blocks hperm =>
      rcases hb with hin | hin
      · cases hin
      · exact Pending.mem_foldl_insert (hperm.mem_iff.mp hin)

end Starts

section Resumes

variable {C : Type} [BlockStore C] [BlockStore.Faithful C]

/-- All that a turn of a task can end in. -/
inductive Resumed (s : CoalescingBlockStore C) :
    CoalesceTask → CoalesceTask × CoalescingBlockStore C → Prop
  | got (cid : Cid) (c : C) (h : lookup c = lookup s.inner) :
      Resumed s (.getAsking cid)
        (.returned (.get cid) (.ok (.block (Content.get (lookup s.inner) cid))),
          { s with inner := c })
  | had (cid : Cid) (c : C) (h : lookup c = lookup s.inner) :
      Resumed s (.hasAsking cid)
        (.returned (.has cid) (.ok (.present (Content.has (lookup s.inner) cid))),
          { s with inner := c })
  | deleted (cid : Cid) (c : C) (hok : endsWell (ColdStore.delete cid s.inner) = true)
      (h : lookup c = Function.update (lookup s.inner) cid none) :
      Resumed s (.deleteAsking cid)
        (.returned (.delete cid) (.ok .done), { s with inner := c })
  | wrote (call : CoalesceCall) (blocks : List Block) (c : C)
      (h : lookup c = Content.putAll (lookup s.inner) blocks) :
      Resumed s (.flushing call blocks)
        (.returned call (.ok (flushAnswer call blocks.length)), { s with inner := c })
  | failed (t : CoalesceTask) (e : Error) (c : C)
      (hflush : ∀ call blocks, t = .flushing call blocks →
        endsWell (BlockStore.putMany blocks s.inner) = false)
      (h : lookup c = lookup s.inner) :
      Resumed s t (.returned t.call (.error e), { s with inner := c })
  | idle (call : CoalesceCall) (a : Except Error CoalesceAnswer) :
      Resumed s (.returned call a) (.returned call a, s)

theorem resume_resumed (t : CoalesceTask) (s : CoalescingBlockStore C) :
    Resumed s t (resume t s) := by
  cases t with
  | getAsking cid =>
    have h := Storage.get_ends cid s.inner
    simp only [Ends] at h
    simp only [resume, asks]
    cases hrun : ColdStore.get cid s.inner with
    | ok r c =>
      rw [hrun] at h
      rw [h.1]
      exact Resumed.got cid c h.2
    | error e c =>
      rw [hrun] at h
      exact Resumed.failed (.getAsking cid) e c (fun _ _ h => by cases h) h
  | hasAsking cid =>
    have h := Storage.has_ends cid s.inner
    simp only [Ends] at h
    simp only [resume, asks]
    cases hrun : BlockStore.has cid s.inner with
    | ok r c =>
      rw [hrun] at h
      rw [h.1]
      exact Resumed.had cid c h.2
    | error e c =>
      rw [hrun] at h
      exact Resumed.failed (.hasAsking cid) e c (fun _ _ h => by cases h) h
  | deleteAsking cid =>
    have h := Storage.delete_ends cid s.inner
    simp only [Ends] at h
    simp only [resume, asks]
    cases hrun : ColdStore.delete cid s.inner with
    | ok r c =>
      rw [hrun] at h
      exact Resumed.deleted cid c (by rw [hrun]; rfl) h
    | error e c =>
      rw [hrun] at h
      exact Resumed.failed (.deleteAsking cid) e c (fun _ _ h => by cases h) h
  | flushing call blocks =>
    have h := Storage.putMany_ends blocks s.inner
    simp only [Ends] at h
    simp only [resume, asks]
    cases hrun : BlockStore.putMany blocks s.inner with
    | ok r c =>
      rw [hrun] at h
      exact Resumed.wrote call blocks c h
    | error e c =>
      rw [hrun] at h
      refine Resumed.failed (.flushing call blocks) e c (fun _ _ heq => ?_) h
      cases heq
      rw [hrun]
      rfl
  | returned call a => exact Resumed.idle call a

variable {s : CoalescingBlockStore C} {t : CoalesceTask}
  {r : CoalesceTask × CoalescingBlockStore C}

theorem Resumed.call_eq (h : Resumed s t r) : r.1.call = t.call := by
  cases h <;> rfl

theorem Resumed.pending_eq (h : Resumed s t r) : r.2.pending = s.pending := by
  cases h <;> rfl

theorem Resumed.not_flushing (h : Resumed s t r) {call : CoalesceCall} {blocks : List Block} :
    r.1 ≠ .flushing call blocks := by
  cases h <;> exact fun h => by cases h

theorem Resumed.carried_eq (h : Resumed s t r) : r.1.carried = [] := by
  cases h <;> rfl

/-- Identifiers go on naming what is stored. -/
theorem Resumed.named {dataOf : Cid → List UInt8} (h : Resumed s t r)
    (hs : Content.Named dataOf (lookup s.inner)) (ht : ∀ b ∈ t.carried, b.data = dataOf b.cid) :
    Content.Named dataOf (lookup r.2.inner) := by
  cases h with
  | got _ c h | had _ c h | failed _ _ c _ h => exact h ▸ hs
  | deleted cid c _ h => exact h ▸ hs.delete cid
  | wrote call blocks c h => exact h ▸ hs.putAll blocks ht
  | idle => exact hs

/-- What is stored stays stored, unless it is deleted. -/
theorem Resumed.stored {cid : Cid} (h : Resumed s t r) (hne : t.call ≠ .delete cid)
    (hs : Content.has (lookup s.inner) cid = true) : Content.has (lookup r.2.inner) cid = true := by
  cases h with
  | got _ c h | had _ c h | failed _ _ c _ h =>
    show Content.has (lookup c) cid = true
    rwa [h]
  | deleted c _ _ h =>
    rw [h, Content.has_update_apply, if_neg]
    · exact hs
    · rintro rfl
      exact hne rfl
  | wrote call blocks c h =>
    rw [h]
    exact (Content.has_putAll_iff blocks).mpr (.inr hs)
  | idle => exact hs

/-- What a flush carries is stored after its turn, unless the store fails. -/
theorem Resumed.stored_of_carried {cid : Cid} (h : Resumed s t r) (hc : Names cid t.carried)
    (hfail : ∀ call blocks, t = .flushing call blocks →
      endsWell (BlockStore.putMany blocks s.inner) = false →
        Content.has (lookup s.inner) cid = true) : Content.has (lookup r.2.inner) cid = true := by
  have hnot : ¬ Names cid [] := by simp [Names]
  cases h with
  | got | had | deleted | idle => exact absurd hc hnot
  | failed t e c hflush h =>
    cases t with
    | flushing call blocks =>
      show Content.has (lookup c) cid = true
      rw [h]
      exact hfail call blocks rfl (hflush call blocks rfl)
    | _ => exact absurd hc hnot
  | wrote call blocks c h =>
    rw [h]
    exact (Content.has_putAll_iff blocks).mpr (.inl (List.mem_map.mpr hc))

/-- Nothing is stored anew but what a flush carries. -/
theorem Resumed.stored_only {cid : Cid} (h : Resumed s t r)
    (hs : Content.has (lookup r.2.inner) cid = true) :
    Content.has (lookup s.inner) cid = true ∨ Names cid t.carried := by
  cases h with
  | got _ c h | had _ c h | failed _ _ c _ h =>
    exact .inl (by rwa [show lookup c = lookup s.inner from h] at hs)
  | deleted c _ _ h =>
    rw [h] at hs
    exact .inl (Content.has_update_none hs)
  | wrote call blocks c h =>
    rw [h] at hs
    rcases (Content.has_putAll_iff blocks).mp hs with hin | hin
    · exact .inr (List.mem_map.mp hin)
    · exact .inl hin
  | idle => exact .inl hs

end Resumes

/-! ## Runs -/

section Runs

variable {C : Type} [BlockStore C] [BlockStore.Faithful C]

/-- No call deletes the identifier. -/
def NoDelete (cid : Cid) (p : Pool (CoalescingBlockStore C) CoalesceTask) : Prop :=
  CoalesceCall.delete cid ∉ p.tasks.map CoalesceTask.call

/-- After its `i`-th one, no call writes under the identifier. -/
def NoWriteAfter (i : Nat) (cid : Cid) (p : Pool (CoalescingBlockStore C) CoalesceTask) : Prop :=
  ∀ k ∈ (p.tasks.map CoalesceTask.call).drop (i + 1), ¬ Names cid k.blocks

/-- A call that has written under the identifier has returned without an error. -/
def acks (cid : Cid) : CoalesceTask → Bool
  | .returned call (.ok _) => Names cid call.blocks
  | _ => false

/-- Some call that wrote under the identifier has been acknowledged, and none deletes it. -/
def Due (cid : Cid) (p : Pool (CoalescingBlockStore C) CoalesceTask) : Prop :=
  (∃ u ∈ p.tasks, acks cid u = true) ∧ NoDelete cid p

/-- A flush that fails carries only what is not due or is stored; a read asks the store for
what is due and carried by a flush only if it is stored; and when the store deletes an
identifier, no flush that began before carries it. -/
def SafeTask (p : Pool (CoalescingBlockStore C) CoalesceTask) (i : Nat) : CoalesceTask → Prop
  | .flushing _ blocks =>
    endsWell (BlockStore.putMany blocks p.shared.inner) = false →
      ∀ b ∈ blocks, Due b.cid p → Content.has (lookup p.shared.inner) b.cid = true
  | .getAsking cid =>
    Due cid p → (∃ u ∈ p.tasks, Names cid u.carried) →
      Content.has (lookup p.shared.inner) cid = true
  | .deleteAsking cid =>
    endsWell (ColdStore.delete cid p.shared.inner) = true →
      ∀ u ∈ p.tasks.take i, ¬ Names cid u.carried
  | _ => True

/-- Writes are of the blocks that their identifiers name. -/
def SafeTurn (dataOf : Cid → List UInt8) (p : Pool (CoalescingBlockStore C) CoalesceTask) :
    Turn CoalesceCall → Prop
  | .call k => ∀ b ∈ k.blocks, b.data = dataOf b.cid
  | .resume i => ∀ t ∈ p.tasks[i]?, SafeTask p i t

/-- A block whose write was acknowledged is what every later read answers, unless some call
deletes it; a block whose deletion was completed is nowhere once no flush is under way,
unless a later call writes it. -/
def LosesNothing (values : Nat → List Block → List Block)
    (p : Pool (CoalescingBlockStore C) CoalesceTask) (turns : List (Turn CoalesceCall)) : Prop :=
  (∀ before after, turns = before ++ after →
    let now := (machine values).run p before
    let later := (machine values).run p turns
    ∀ (i : Nat) (call : CoalesceCall) (a : CoalesceAnswer) (b : Block),
        now.tasks[i]? = some (.returned call (.ok a)) → b ∈ call.blocks → NoDelete b.cid later →
      ∀ j r, now.tasks.length ≤ j →
        later.tasks[j]? = some (.returned (.get b.cid) (.ok (.block r))) → r = some b) ∧
  (∀ before after, turns = before ++ after →
    let now := (machine values).run p before
    ∀ i cid, now.tasks[i]? = some (.returned (.delete cid) (.ok .done)) →
      NoWriteAfter i cid now → (∀ u ∈ now.tasks, u.isFlushing = false) →
      now.shared.pending.get cid = none ∧ Content.has (lookup now.shared.inner) cid = false)

variable {values : Nat → List Block → List Block} {dataOf : Cid → List UInt8}
  {p : Pool (CoalescingBlockStore C) CoalesceTask} {turn : Turn CoalesceCall} {cid : Cid}

variable (values) in
theorem resume_call (t : CoalesceTask) (s : CoalescingBlockStore C) :
    ((machine values).resume t s).1.call = t.call :=
  (resume_resumed t s).call_eq

theorem NoDelete.of_step (h : NoDelete cid ((machine values).step p turn)) : NoDelete cid p :=
  fun hmem => h ((Machine.labels_prefix_step (resume_call values) p turn).subset hmem)

omit [BlockStore C] [BlockStore.Faithful C] in
theorem NoDelete.ne (h : NoDelete cid p) {u : CoalesceTask} (hu : u ∈ p.tasks) :
    u.call ≠ .delete cid := by
  intro hcall
  exact h (hcall ▸ List.mem_map_of_mem hu)

/-- What is stored, pending or carried is what its identifier names. -/
structure Honest (dataOf : Cid → List UInt8)
    (p : Pool (CoalescingBlockStore C) CoalesceTask) : Prop where
  stored : Content.Named dataOf (lookup p.shared.inner)
  pending : ∀ b ∈ p.shared.pending.blocks, b.data = dataOf b.cid
  carried : ∀ u ∈ p.tasks, ∀ b ∈ u.carried, b.data = dataOf b.cid
  written : ∀ u ∈ p.tasks, ∀ b ∈ u.call.blocks, b.data = dataOf b.cid

theorem Honest.step (hv : ∀ n l, (values n l).Perm l) (hp : Honest dataOf p)
    (hsafe : SafeTurn dataOf p turn) : Honest dataOf ((machine values).step p turn) := by
  cases turn with
  | call k =>
    have hbegun := start_begun hv k p.shared
    have honly : ∀ b, b ∈ (start values k p.shared).2.pending.blocks
        ∨ b ∈ (start values k p.shared).1.carried → b.data = dataOf b.cid := by
      intro b hb
      rcases hbegun.only hb with hin | hin
      · exact hp.pending b hin
      · exact hsafe b hin
    refine ⟨?_, fun b hb => honly b (.inl hb), fun u hu b hb => ?_, fun u hu b hb => ?_⟩
    · show Content.Named dataOf (lookup (start values k p.shared).2.inner)
      rw [hbegun.inner_eq]
      exact hp.stored
    · rcases Machine.mem_step hu with hold | ⟨_, hk, rfl⟩ | ⟨_, _, hk, -⟩
      · exact hp.carried u hold b hb
      · cases hk
        exact honly b (.inr hb)
      · cases hk
    · rcases Machine.mem_step hu with hold | ⟨_, hk, rfl⟩ | ⟨_, _, hk, -⟩
      · exact hp.written u hold b hb
      · cases hk
        rw [show ((machine values).start k p.shared).1.call = k from hbegun.call_eq] at hb
        exact hsafe b hb
      · cases hk
  | resume i =>
    cases ht : p.tasks[i]? with
    | none => rwa [Machine.step_resume_none ht]
    | some t =>
      have hresumed := resume_resumed t p.shared
      have hmem := List.mem_of_getElem? ht
      refine ⟨?_, ?_, fun u hu b hb => ?_, fun u hu b hb => ?_⟩
      · rw [Machine.step_resume ht]
        exact hresumed.named hp.stored (hp.carried t hmem)
      · rw [Machine.step_resume ht]
        intro b hb
        rw [show ((machine values).resume t p.shared).2.pending = p.shared.pending from
          hresumed.pending_eq] at hb
        exact hp.pending b hb
      · rcases Machine.mem_step hu with hold | ⟨_, hk, -⟩ | ⟨j, t', -, -, rfl⟩
        · exact hp.carried u hold b hb
        · cases hk
        · rw [show ((machine values).resume t' p.shared).1.carried = [] from
            (resume_resumed t' p.shared).carried_eq] at hb
          cases hb
      · rcases Machine.mem_step hu with hold | ⟨_, hk, -⟩ | ⟨j, t', -, ht', rfl⟩
        · exact hp.written u hold b hb
        · cases hk
        · rw [resume_call] at hb
          exact hp.written t' (List.mem_of_getElem? ht') b hb

/-- A flush carries what its own call wrote. -/
def CarriesOwn (p : Pool (CoalescingBlockStore C) CoalesceTask) : Prop :=
  ∀ call blocks, .flushing call blocks ∈ p.tasks → ∀ cid, Names cid call.blocks → Names cid blocks

/-- The identifier is stored, or a flush carries it. -/
def Held (cid : Cid) (p : Pool (CoalescingBlockStore C) CoalesceTask) : Prop :=
  Content.has (lookup p.shared.inner) cid = true ∨ ∃ u ∈ p.tasks, Names cid u.carried

omit [BlockStore C] [BlockStore.Faithful C] in
/-- A flush begins with what is written. -/
theorem Begun.carriesOwn {s : CoalescingBlockStore C} {call call' : CoalesceCall}
    {r : CoalesceTask × CoalescingBlockStore C} {blocks : List Block} (h : Begun s call r)
    (hr : r.1 = .flushing call' blocks) (hcid : Names cid call'.blocks) : Names cid blocks := by
  cases h with
  | gathers _ _ _ hg =>
    cases hg with
    | kept a => cases hr
    | taken blocks hperm =>
      cases hr
      obtain ⟨b, hb, hc⟩ := Pending.has_foldl_insert.mpr (.inr hcid)
      exact ⟨b, hperm.mem_iff.mpr hb, hc⟩
  | _ => cases hr

theorem CarriesOwn.step (hv : ∀ n l, (values n l).Perm l) (hp : CarriesOwn p) :
    CarriesOwn ((machine values).step p turn) := by
  intro call blocks hu c hc
  rcases Machine.mem_step hu with hold | ⟨k, -, hk⟩ | ⟨j, t, -, -, ht⟩
  · exact hp call blocks hold c hc
  · exact (start_begun hv k p.shared).carriesOwn hk.symm hc
  · exact absurd ht.symm (resume_resumed t p.shared).not_flushing

theorem Held.step (hv : ∀ n l, (values n l).Perm l) (hp : Held cid p) (hdue : Due cid p)
    (hsafe : SafeTurn dataOf p turn) : Held cid ((machine values).step p turn) := by
  rcases hp with hstored | ⟨u, hu, hcarried⟩
  · left
    rcases Machine.shared_step (m := machine values) p turn with
      hsame | ⟨k, -, hsame⟩ | ⟨i, t, -, ht, hsame, -⟩
    · rwa [hsame]
    · rw [hsame]
      show Content.has (lookup (start values k p.shared).2.inner) cid = true
      rwa [(start_begun hv k p.shared).inner_eq]
    · rw [hsame]
      exact (resume_resumed t p.shared).stored (hdue.2.ne (List.mem_of_getElem? ht)) hstored
  · rcases Machine.mem_step_of_mem (m := machine values) turn hu with
      hstays | ⟨i, rfl, hi⟩
    · exact .inr ⟨u, hstays, hcarried⟩
    · left
      rw [Machine.step_resume hi]
      refine (resume_resumed u p.shared).stored_of_carried hcarried
        (fun call blocks heq hfails => ?_)
      subst heq
      obtain ⟨b, hb, rfl⟩ := hcarried
      exact hsafe _ hi hfails b hb hdue

/-- The identifier is pending, stored, or carried by a flush. -/
def Somewhere (cid : Cid) (p : Pool (CoalescingBlockStore C) CoalesceTask) : Prop :=
  p.shared.pending.Has cid ∨ Held cid p

/-- What was pending or is written is somewhere when a call has begun. -/
theorem somewhere_of_call (hv : ∀ n l, (values n l).Perm l) {k : CoalesceCall}
    (hno : NoDelete cid ((machine values).step p (.call k)))
    (h : p.shared.pending.Has cid ∨ Names cid k.blocks) :
    Somewhere cid ((machine values).step p (.call k)) := by
  have hbegun := start_begun hv k p.shared
  have hnew : (start values k p.shared).1 ∈ ((machine values).step p (.call k)).tasks := by
    simp [Machine.step, machine]
  have hk : k ≠ .delete cid := by
    rw [← hbegun.call_eq]
    exact hno.ne hnew
  rcases hbegun.moves hk h with hin | hin
  · exact .inl hin
  · exact .inr (.inr ⟨_, hnew, hin⟩)

theorem Somewhere.step (hv : ∀ n l, (values n l).Perm l) (hp : Somewhere cid p)
    (hdue : Due cid p) (hno : NoDelete cid ((machine values).step p turn))
    (hsafe : SafeTurn dataOf p turn) : Somewhere cid ((machine values).step p turn) := by
  rcases hp with hpending | hheld
  · cases turn with
    | call k => exact somewhere_of_call hv hno (.inl hpending)
    | resume i =>
      left
      cases ht : p.tasks[i]? with
      | none => rwa [Machine.step_resume_none ht]
      | some t =>
        rw [Machine.step_resume ht]
        show ((resume t p.shared).2.pending).Has cid
        rwa [(resume_resumed t p.shared).pending_eq]
  · exact .inr (hheld.step hv hdue hsafe)

omit [BlockStore C] [BlockStore.Faithful C] in
theorem names_of_acks {u : CoalesceTask} (h : acks cid u = true) : Names cid u.call.blocks := by
  cases u with
  | returned call a =>
    cases a with
    | ok a => exact of_decide_eq_true h
    | error e => cases h
  | _ => cases h

/-- A flush that is acknowledged has stored what it carried. -/
theorem Resumed.stored_of_acks {s : CoalescingBlockStore C} {call : CoalesceCall}
    {blocks : List Block} {r : CoalesceTask × CoalescingBlockStore C}
    (h : Resumed s (.flushing call blocks) r) (hacks : acks cid r.1 = true)
    (hc : Names cid blocks) : Content.has (lookup r.2.inner) cid = true := by
  cases h with
  | wrote _ _ c h =>
    rw [h]
    exact (Content.has_putAll_iff blocks).mpr (.inl (List.mem_map.mpr hc))
  | failed => cases hacks

/-- What is acknowledged is somewhere. -/
theorem somewhere_of_due_step (hv : ∀ n l, (values n l).Perm l) (hown : CarriesOwn p)
    (hp : Due cid p → Somewhere cid p) (hsafe : SafeTurn dataOf p turn)
    (hdue : Due cid ((machine values).step p turn)) :
    Somewhere cid ((machine values).step p turn) := by
  obtain ⟨⟨u, hu, hacks⟩, hno⟩ := hdue
  have hbefore : u ∈ p.tasks → Somewhere cid ((machine values).step p turn) := by
    intro hold
    have hdue : Due cid p := ⟨⟨u, hold, hacks⟩, hno.of_step⟩
    exact (hp hdue).step hv hdue hno hsafe
  rcases Machine.mem_step hu with hold | ⟨k, rfl, rfl⟩ | ⟨i, t, rfl, ht, rfl⟩
  · exact hbefore hold
  · refine somewhere_of_call hv hno (.inr ?_)
    have hcid := names_of_acks hacks
    rwa [show ((machine values).start k p.shared).1.call = k from
      (start_begun hv k p.shared).call_eq] at hcid
  · have hcid := names_of_acks hacks
    rw [resume_call] at hcid
    cases t with
    | getAsking | hasAsking | deleteAsking =>
      simp [CoalesceTask.call, CoalesceCall.blocks, Names] at hcid
    | returned call a => exact hbefore (List.mem_of_getElem? ht)
    | flushing call blocks =>
      have hcarried := hown call blocks (List.mem_of_getElem? ht) cid hcid
      refine .inr (.inl ?_)
      rw [Machine.step_resume ht]
      exact (resume_resumed _ p.shared).stored_of_acks hacks hcarried

/-- An answer to a read of the identifier is the block. -/
def AnswersRight (cid : Cid) (data : List UInt8) :
    CoalesceCall → Except Error CoalesceAnswer → Prop
  | .get c, .ok (.block r) => c = cid → r = some { cid, data }
  | _, _ => True

/-- A read of the identifier waits only for what is held. -/
def ReadsRight (cid : Cid) (data : List UInt8)
    (p : Pool (CoalescingBlockStore C) CoalesceTask) : CoalesceTask → Prop
  | .getAsking c => c = cid → Held cid p
  | .returned call a => AnswersRight cid data call a
  | _ => True

omit [BlockStore C] [BlockStore.Faithful C] in
theorem answersRight_error (data : List UInt8) (call : CoalesceCall) (e : Error) :
    AnswersRight cid data call (.error e) := by
  cases call <;> trivial

/-- All reads begun since there were `n` calls read what was written. -/
def AllReadRight (n : Nat) (cid : Cid) (data : List UInt8)
    (p : Pool (CoalescingBlockStore C) CoalesceTask) : Prop :=
  ∀ j u, n ≤ j → p.tasks[j]? = some u → ReadsRight cid data p u

/-- A read that finds a pending block answers with it, and one that finds none waits. -/
theorem Begun.readsRight {q : Pool (CoalescingBlockStore C) CoalesceTask} {k : CoalesceCall}
    {r : CoalesceTask × CoalescingBlockStore C} (h : Begun p.shared k r)
    (hhonest : Honest dataOf p) (hheld : ¬ p.shared.pending.Has cid → Held cid q) :
    ReadsRight cid (dataOf cid) q r.1 := by
  cases h with
  | gets c b hb =>
    rintro rfl
    obtain ⟨hmem, rfl⟩ := Pending.get_eq_some hb
    rw [← hhonest.pending b hmem]
  | getAsks c hc =>
    rintro rfl
    exact hheld hc
  | gathers _ _ hcall hg =>
    cases hg with
    | kept a =>
      cases k with
      | get c => exact absurd rfl (hcall c)
      | _ => trivial
    | taken => trivial
  | _ => trivial

/-- A read that was right to wait is answered rightly. -/
theorem Resumed.readsRight {q : Pool (CoalescingBlockStore C) CoalesceTask} {t : CoalesceTask}
    {r : CoalesceTask × CoalescingBlockStore C} (h : Resumed p.shared t r)
    (hhonest : Honest dataOf p) (ht : ReadsRight cid (dataOf cid) p t)
    (hstored : t = .getAsking cid → Held cid p → Content.has (lookup p.shared.inner) cid = true) :
    ReadsRight cid (dataOf cid) q r.1 := by
  cases h with
  | got c =>
    rintro rfl
    have hhas := hstored rfl (ht rfl)
    obtain ⟨data, hdata⟩ := Option.isSome_iff_exists.mp hhas
    rw [Content.get, hdata, ← hhonest.stored c data hdata]
    rfl
  | had | deleted => trivial
  | failed t e => exact answersRight_error _ t.call e
  | wrote call blocks => cases call <;> trivial
  | idle call a => exact ht

theorem AllReadRight.step (hv : ∀ n l, (values n l).Perm l) {n : Nat}
    (hp : AllReadRight n cid (dataOf cid) p) (hhonest : Honest dataOf p)
    (hwhere : Somewhere cid p) (hdue : Due cid p) (hsafe : SafeTurn dataOf p turn) :
    AllReadRight n cid (dataOf cid) ((machine values).step p turn) := by
  intro j u hj hu
  rcases Machine.getElem?_step hu with hold | ⟨k, rfl, -, rfl⟩ | ⟨t, rfl, ht, rfl⟩
  · have hbefore := hp j u hj hold
    cases u with
    | getAsking c => exact fun hc => (hbefore hc).step hv hdue hsafe
    | returned call a => exact hbefore
    | _ => trivial
  · exact (start_begun hv k p.shared).readsRight hhonest
      (fun hnone => (hwhere.resolve_left hnone).step hv hdue hsafe)
  · refine (resume_resumed t p.shared).readsRight hhonest (hp j t hj ht) ?_
    rintro rfl (hstored | hcarried)
    · exact hstored
    · exact hsafe _ ht hdue hcarried

/-! ### Deletions -/

theorem NoWriteAfter.of_step {i : Nat} (h : NoWriteAfter i cid ((machine values).step p turn)) :
    NoWriteAfter i cid p := by
  obtain ⟨rest, hrest⟩ :=
    Machine.labels_prefix_step (m := machine values) (resume_call values) p turn
  intro k hk
  apply h k
  rw [← hrest, List.drop_append]
  exact List.mem_append_left _ hk

omit [BlockStore C] [BlockStore.Faithful C] in
theorem NoWriteAfter.not_names {i j : Nat} (h : NoWriteAfter i cid p) {u : CoalesceTask}
    (hu : p.tasks[j]? = some u) (hj : i < j) : ¬ Names cid u.call.blocks := by
  apply h
  apply List.mem_of_getElem? (i := j - (i + 1))
  rw [List.getElem?_drop, List.getElem?_map, Nat.add_sub_cancel' hj, hu]
  rfl

/-- The `i`-th call deletes the identifier and is the task `t` now: nothing that began
later brings it back, and once the store has deleted it, nothing at all does. -/
structure Gone (i : Nat) (cid : Cid) (p : Pool (CoalescingBlockStore C) CoalesceTask)
    (t : CoalesceTask) : Prop where
  not_flushing : ∀ call blocks, t ≠ .flushing call blocks
  pending : ¬ p.shared.pending.Has cid
  later : ∀ j u, i < j → p.tasks[j]? = some u → ¬ Names cid u.carried
  done : ∀ a, t = .returned (.delete cid) (.ok a) →
    Content.has (lookup p.shared.inner) cid = false ∧ ∀ u ∈ p.tasks, ¬ Names cid u.carried

/-- Every deletion after which nothing is written is one. -/
def AllGone (p : Pool (CoalescingBlockStore C) CoalesceTask) : Prop :=
  ∀ i cid t, p.tasks[i]? = some t → t.call = .delete cid → NoWriteAfter i cid p → Gone i cid p t

theorem Gone.step_call (hv : ∀ n l, (values n l).Perm l) {i : Nat} {k : CoalesceCall}
    {t : CoalesceTask} (hp : Gone i cid p t) (hk : ¬ Names cid k.blocks) :
    Gone i cid ((machine values).step p (.call k)) t := by
  have hbegun := start_begun hv k p.shared
  have hpending : ¬ (start values k p.shared).2.pending.Has cid := by
    rintro ⟨b, hb, hc⟩
    rcases hbegun.only (.inl hb) with hin | hin
    · exact hp.pending ⟨b, hin, hc⟩
    · exact hk ⟨b, hin, hc⟩
  have hcarried : ¬ Names cid (start values k p.shared).1.carried := by
    rintro ⟨b, hb, hc⟩
    rcases hbegun.only (.inr hb) with hin | hin
    · exact hp.pending ⟨b, hin, hc⟩
    · exact hk ⟨b, hin, hc⟩
  refine ⟨hp.not_flushing, hpending, fun j u hj hu => ?_, fun a ha => ⟨?_, fun u hu => ?_⟩⟩
  · rcases Machine.getElem?_call.mp hu with hold | ⟨-, rfl⟩
    · exact hp.later j u hj hold
    · exact hcarried
  · show Content.has (lookup (start values k p.shared).2.inner) cid = false
    rw [hbegun.inner_eq]
    exact (hp.done a ha).1
  · rcases Machine.mem_step hu with hold | ⟨_, hturn, rfl⟩ | ⟨_, _, hturn, -⟩
    · exact (hp.done a ha).2 u hold
    · cases hturn
      exact hcarried
    · cases hturn

/-- A deletion that begins. -/
theorem gone_of_delete : Gone p.tasks.length cid ((machine values).step p (.call (.delete cid)))
    (.deleteAsking cid) := by
  refine ⟨(fun _ _ h => by cases h), ?_, fun j u hj hu => ?_, (fun a ha => by cases ha)⟩
  · exact fun h => (Pending.has_remove.mp h).1 rfl
  · rcases Machine.getElem?_call.mp hu with hold | ⟨rfl, -⟩
    · have hlt := (List.getElem?_eq_some_iff.mp hold).1
      omega
    · omega

/-- A turn brings nothing back but what its task carried. -/
theorem Gone.step_resume {i k : Nat} {t t' u : CoalesceTask} (hp : Gone i cid p t)
    (hk : p.tasks[k]? = some u) (hflush : ∀ call blocks, t' ≠ .flushing call blocks)
    (hdone : ∀ a, t' = .returned (.delete cid) (.ok a) →
      Content.has (lookup (resume u p.shared).2.inner) cid = false
        ∧ ∀ j v, j ≠ k → p.tasks[j]? = some v → ¬ Names cid v.carried) :
    Gone i cid ((machine values).step p (.resume k)) t' := by
  have hresumed := resume_resumed u p.shared
  have hnone : ¬ Names cid (resume u p.shared).1.carried := by
    rw [hresumed.carried_eq]
    simp [Names]
  refine ⟨hflush, ?_, fun j v hj hv => ?_, fun a ha => ⟨?_, fun v hv => ?_⟩⟩
  · rw [Machine.step_resume hk]
    show ¬ (resume u p.shared).2.pending.Has cid
    rw [hresumed.pending_eq]
    exact hp.pending
  · rcases (Machine.getElem?_resume hk).mp hv with ⟨-, rfl⟩ | ⟨-, hold⟩
    · exact hnone
    · exact hp.later j v hj hold
  · rw [Machine.step_resume hk]
    exact (hdone a ha).1
  · obtain ⟨j, hj⟩ := List.mem_iff_getElem?.mp hv
    rcases (Machine.getElem?_resume hk).mp hj with ⟨-, rfl⟩ | ⟨hne, hold⟩
    · exact hnone
    · exact (hdone a ha).2 j v hne hold

/-- The turn of another task. -/
theorem Gone.step_other {i k : Nat} {t u : CoalesceTask} (hp : Gone i cid p t)
    (hk : p.tasks[k]? = some u) : Gone i cid ((machine values).step p (.resume k)) t := by
  refine hp.step_resume hk hp.not_flushing (fun a ha => ?_)
  obtain ⟨hgone, hnone⟩ := hp.done a ha
  refine ⟨?_, fun j v _ hv => hnone v (List.mem_of_getElem? hv)⟩
  by_contra hhas
  rw [Bool.not_eq_false] at hhas
  rcases (resume_resumed u p.shared).stored_only hhas with hbefore | hcarried
  · rw [hbefore] at hgone
    cases hgone
  · exact hnone u (List.mem_of_getElem? hk) hcarried

/-- The turn of the deletion itself. -/
theorem Gone.step_own {i : Nat} {t : CoalesceTask} (hp : Gone i cid p t)
    (ht : p.tasks[i]? = some t) (hsafe : SafeTask p i t) :
    Gone i cid ((machine values).step p (.resume i)) (resume t p.shared).1 := by
  have hresumed := resume_resumed t p.shared
  refine hp.step_resume ht (fun _ _ => hresumed.not_flushing) (fun a ha => ?_)
  cases t with
  | getAsking | hasAsking =>
    have hcall := hresumed.call_eq
    rw [ha] at hcall
    cases hcall
  | flushing call blocks => exact absurd rfl (hp.not_flushing call blocks)
  | returned call r =>
    obtain ⟨hgone, hnone⟩ := hp.done a ha
    exact ⟨hgone, fun j v _ hv => hnone v (List.mem_of_getElem? hv)⟩
  | deleteAsking c =>
    have hcall := hresumed.call_eq
    rw [ha] at hcall
    cases hcall
    generalize resume (.deleteAsking cid) p.shared = r at hresumed ha ⊢
    cases hresumed with
    | failed => cases ha
    | deleted _ _ hok h =>
      refine ⟨?_, fun j v hne hv => ?_⟩
      · rw [h, Content.has_update_apply, if_pos rfl]
        rfl
      · rcases Nat.lt_or_gt_of_ne hne with hlt | hgt
        · apply hsafe hok v
          apply List.mem_of_getElem? (i := j)
          rwa [List.getElem?_take_of_lt hlt]
        · exact hp.later j v hgt hv

theorem AllGone.step (hv : ∀ n l, (values n l).Perm l) (hp : AllGone p)
    (hsafe : SafeTurn dataOf p turn) : AllGone ((machine values).step p turn) := by
  intro i c t' ht' hcall hno
  cases turn with
  | call k =>
    rcases Machine.getElem?_call.mp ht' with hold | ⟨rfl, rfl⟩
    · have hlt := (List.getElem?_eq_some_iff.mp hold).1
      have hnew : ((machine values).step p (.call k)).tasks[p.tasks.length]?
          = some (start values k p.shared).1 := Machine.getElem?_call.mpr (.inr ⟨rfl, rfl⟩)
      have hk := hno.not_names hnew hlt
      rw [(start_begun hv k p.shared).call_eq] at hk
      exact (hp i c t' hold hcall hno.of_step).step_call hv hk
    · obtain rfl : k = .delete c := (start_begun hv k p.shared).call_eq.symm.trans hcall
      exact gone_of_delete
  | resume k =>
    cases ht : p.tasks[k]? with
    | none =>
      rw [Machine.step_resume_none ht] at ht' hno ⊢
      exact hp i c t' ht' hcall hno
    | some t =>
      rcases (Machine.getElem?_resume ht).mp ht' with ⟨rfl, rfl⟩ | ⟨-, hold⟩
      · have hcall' : t.call = .delete c := (resume_call values t p.shared).symm.trans hcall
        exact (hp i c t ht hcall' hno.of_step).step_own ht (hsafe t ht)
      · exact (hp i c t' hold hcall hno.of_step).step_other ht

/-! ### Runs -/

/-- What every safe turn keeps. -/
structure Sound (dataOf : Cid → List UInt8)
    (p : Pool (CoalescingBlockStore C) CoalesceTask) : Prop where
  honest : Honest dataOf p
  own : CarriesOwn p
  gone : AllGone p
  somewhere : ∀ cid, Due cid p → Somewhere cid p

theorem Sound.step (hv : ∀ n l, (values n l).Perm l) (hp : Sound dataOf p)
    (hsafe : SafeTurn dataOf p turn) : Sound dataOf ((machine values).step p turn) :=
  ⟨hp.honest.step hv hsafe, hp.own.step hv, hp.gone.step hv hsafe,
    fun cid hdue => somewhere_of_due_step hv hp.own (hp.somewhere cid) hsafe hdue⟩

omit [BlockStore.Faithful C] in
/-- An acknowledgement stays. -/
theorem acks_step (h : ∃ u ∈ p.tasks, acks cid u = true) :
    ∃ u ∈ ((machine values).step p turn).tasks, acks cid u = true := by
  obtain ⟨u, hu, hacks⟩ := h
  rcases Machine.mem_step_of_mem (m := machine values) turn hu with
    hstays | ⟨i, rfl, hi⟩
  · exact ⟨u, hstays, hacks⟩
  · refine ⟨u, ?_, hacks⟩
    cases u with
    | returned call a =>
      exact List.mem_of_getElem? ((Machine.getElem?_resume hi).mpr (.inl ⟨rfl, rfl⟩))
    | _ => cases hacks

/-- From an acknowledgement on: the reads that begin now read what was written. -/
structure Acked (dataOf : Cid → List UInt8) (n : Nat) (cid : Cid)
    (p : Pool (CoalescingBlockStore C) CoalesceTask) : Prop where
  sound : Sound dataOf p
  acked : ∃ u ∈ p.tasks, acks cid u = true
  reads : NoDelete cid p → AllReadRight n cid (dataOf cid) p

theorem Acked.step (hv : ∀ n l, (values n l).Perm l) {n : Nat} (hp : Acked dataOf n cid p)
    (hsafe : SafeTurn dataOf p turn) : Acked dataOf n cid ((machine values).step p turn) := by
  refine ⟨hp.sound.step hv hsafe, acks_step hp.acked, fun hno => ?_⟩
  have hdue : Due cid p := ⟨hp.acked, hno.of_step⟩
  exact (hp.reads hno.of_step).step hv hp.sound.honest (hp.sound.somewhere cid hdue) hdue hsafe

/-- In every run whose turns are safe nothing is lost. -/
theorem loses_nothing (hv : ∀ n l, (values n l).Perm l) (inner : C) (maxBatchSize : Nat)
    (hnamed : Content.Named dataOf (lookup inner)) (turns : List (Turn CoalesceCall))
    (hmeets : (machine values).Meets (SafeTurn dataOf) turns
      { shared := new inner maxBatchSize, tasks := [] }) :
    LosesNothing values { shared := new inner maxBatchSize, tasks := [] } turns := by
  have hsoundKeeps : ∀ (p : Pool (CoalescingBlockStore C) CoalesceTask) (turn : Turn CoalesceCall),
      Sound dataOf p → SafeTurn dataOf p turn → Sound dataOf ((machine values).step p turn) :=
    fun _ _ hp hsafe => hp.step hv hsafe
  have hnew : Sound dataOf { shared := new inner maxBatchSize, tasks := [] } := by
    have hnone : ∀ u : CoalesceTask, u ∉ ([] : List CoalesceTask) := fun _ => List.not_mem_nil
    refine ⟨⟨hnamed, ?_, ?_, ?_⟩, ?_, ?_, ?_⟩
    · exact fun b hb => absurd hb List.not_mem_nil
    · exact fun u hu => absurd hu (hnone u)
    · exact fun u hu => absurd hu (hnone u)
    · exact fun _ _ hu => absurd hu (hnone _)
    · exact fun _ _ _ ht => by cases ht
    · rintro c ⟨⟨u, hu, -⟩, -⟩
      exact absurd hu (hnone u)
  refine ⟨?_, ?_⟩
  · rintro before after rfl now later i call a b hreturned hb hno j r hj hread
    obtain ⟨hbefore, hafter⟩ := Machine.meets_append.mp hmeets
    have hnow : Acked dataOf now.tasks.length b.cid now := by
      refine ⟨Machine.step_induction hsoundKeeps before _ hnew hbefore,
        ⟨_, List.mem_of_getElem? hreturned, decide_eq_true ⟨b, hb, rfl⟩⟩, fun _ k u hk hu => ?_⟩
      rw [List.getElem?_eq_none hk] at hu
      cases hu
    have hackedKeeps : ∀ (p : Pool (CoalescingBlockStore C) CoalesceTask)
        (turn : Turn CoalesceCall), Acked dataOf now.tasks.length b.cid p →
          SafeTurn dataOf p turn →
            Acked dataOf now.tasks.length b.cid ((machine values).step p turn) :=
      fun _ _ hp hsafe => hp.step hv hsafe
    have hlater : Acked dataOf now.tasks.length b.cid later := by
      have h := Machine.step_induction hackedKeeps after now hnow hafter
      rwa [← Machine.run_append] at h
    have hdata : b.data = dataOf b.cid :=
      hnow.sound.honest.written _ (List.mem_of_getElem? hreturned) b hb
    rw [hlater.reads hno j _ hj hread rfl, ← hdata]
  · rintro before after rfl now i c hdeleted hno -
    obtain ⟨hbefore, -⟩ := Machine.meets_append.mp hmeets
    have hgone := (Machine.step_induction hsoundKeeps before _ hnew hbefore).gone i c _ hdeleted
      rfl hno
    exact ⟨Pending.get_eq_none.mpr hgone.pending, (hgone.done _ rfl).1⟩

end Runs

/-! ## One block and one flush -/

section Decide

variable {C : Type} [BlockStore C] [BlockStore.Faithful C]

instance (cid : Cid) (p : Pool (CoalescingBlockStore C) CoalesceTask) :
    Decidable (NoDelete cid p) :=
  inferInstanceAs (Decidable (CoalesceCall.delete cid ∉ p.tasks.map CoalesceTask.call))

instance (i : Nat) (cid : Cid) (p : Pool (CoalescingBlockStore C) CoalesceTask) :
    Decidable (NoWriteAfter i cid p) :=
  inferInstanceAs (Decidable (∀ k ∈ (p.tasks.map CoalesceTask.call).drop (i + 1),
    ¬ Names cid k.blocks))

instance (cid : Cid) (p : Pool (CoalescingBlockStore C) CoalesceTask) : Decidable (Due cid p) :=
  inferInstanceAs (Decidable ((∃ u ∈ p.tasks, acks cid u = true) ∧ NoDelete cid p))

instance (p : Pool (CoalescingBlockStore C) CoalesceTask) (i : Nat) :
    (t : CoalesceTask) → Decidable (SafeTask p i t)
  | .flushing _ blocks =>
    inferInstanceAs (Decidable (_ = false → ∀ b ∈ blocks, Due b.cid p → _ = true))
  | .getAsking cid =>
    inferInstanceAs (Decidable (Due cid p → (∃ u ∈ p.tasks, Names cid u.carried) → _ = true))
  | .deleteAsking cid =>
    inferInstanceAs (Decidable (_ = true → ∀ u ∈ p.tasks.take i, ¬ Names cid u.carried))
  | .hasAsking _ | .returned _ _ => .isTrue trivial

instance (dataOf : Cid → List UInt8) (p : Pool (CoalescingBlockStore C) CoalesceTask) :
    (turn : Turn CoalesceCall) → Decidable (SafeTurn dataOf p turn)
  | .call k => inferInstanceAs (Decidable (∀ b ∈ k.blocks, b.data = dataOf b.cid))
  | .resume i => inferInstanceAs (Decidable (∀ t ∈ p.tasks[i]?, SafeTask p i t))

end Decide

end CoalescingBlockStore

namespace LayerSample

open CoalescingBlockStore
open scoped CidFormat

/-- Nothing is stored or pending yet. -/
def gathering (faults : List Bool) : Pool (CoalescingBlockStore FaultyStore) CoalesceTask :=
  { shared := CoalescingBlockStore.new { blocks := [], faults } 10, tasks := [] }

/-- The order in which they were put, the latest first. -/
def inOrder (_ : Nat) (blocks : List Block) : List Block := blocks

/-- A write, a flush that ends, a read, a delete. -/
theorem loses_nothing_inTurn : LosesNothing inOrder (gathering [])
      [.call (.put block), .call .flushWrites, .resume 1, .call (.get block.cid), .resume 2,
        .call (.delete block.cid), .resume 3] :=
  @loses_nothing FaultyStore _ _ inOrder (fun _ => [1]) (fun _ _ => List.Perm.refl _) _ 10
    (fun _ _ h => by cases h) _ (by decide +kernel)

/-- A read while the flush has the block, a read after a flush that failed, and a delete
while the flush has the block. -/
theorem not_loses_nothing : ¬ LosesNothing inOrder (gathering [])
        ([.call (.put block), .call .flushWrites] ++ [.call (.get block.cid), .resume 2]) ∧
      ¬ LosesNothing inOrder (gathering [true]) ([.call (.put block), .call .flushWrites, .resume 1]
          ++ [.call (.get block.cid), .resume 2]) ∧ ¬ LosesNothing inOrder (gathering [])
        ([.call (.put block), .call .flushWrites, .call (.delete block.cid), .resume 2,
          .resume 1] ++ []) := by
  refine ⟨fun h => ?_, fun h => ?_, fun h => ?_⟩
  · have hread := h.1 _ _ rfl 0 (.put block) .done block (by decide +kernel)
      List.mem_cons_self (by decide +kernel) 2 none (by decide +kernel) (by decide +kernel)
    cases hread
  · have hread := h.1 _ _ rfl 0 (.put block) .done block (by decide +kernel)
      List.mem_cons_self (by decide +kernel) 2 none (by decide +kernel) (by decide +kernel)
    cases hread
  · have habsent := h.2 _ _ rfl 2 block.cid (by decide +kernel) (by decide +kernel)
      (by decide)
    revert habsent
    decide +kernel

end LayerSample

end Ipfrs.Storage
