/-
Ipfrs.Storage.CacheInterleaving — calls of `CachedBlockStore` that take turns (`cache.rs`).

A call is cut at its await point: what it does before it asks the store, the call of
the store, and what it does with the answer. The pieces are those of `BlockCache`; a
call that has every turn to itself does what the operation there does
(`alone_eq_perform`).

A read that has fetched a block fills the cache with it whatever has happened since. So
after a delete the cache may hold what the store has not, unless whatever goes into the
cache is still held, and a delete finds the identifier in neither the cache nor a write
that waits.
-/
import Ipfrs.Storage.StoreLayers
import Ipfrs.Lib.Interleaving

namespace Ipfrs.Storage

open Ipfrs.Core Ipfrs.Lib
open Ipfrs.Lib.Interleaving (Machine Pool Turn)
open Ipfrs.Knowledge (ColdStore)
open Ipfrs.Knowledge.ColdStore.Faithful (lookup)

inductive CacheCall
  | get (cid : Cid)
  | getMany (cids : List Cid)
  | put (b : Block)
  | delete (cid : Cid)
  | has (cid : Cid)
  deriving DecidableEq

/-- How far a call has come: it waits for the store, it has the store's answer, or it has
returned. -/
inductive CacheTask
  | getAsking (cid : Cid)
  | getAnswered (cid : Cid) (r : Option Block)
  | getManyAsking (cids : List Cid) (hits : List (Option (List UInt8)))
  | getManyAnswered (cids : List Cid) (hits : List (Option (List UInt8)))
      (fetched : List (Option Block))
  | putAsking (b : Block)
  | putAnswered (b : Block)
  | deleteAsking (cid : Cid)
  | deleteAnswered (cid : Cid)
  | hasAsking (cid : Cid)
  | hasAnswered (cid : Cid) (r : Bool)
  | returned (call : CacheCall) (a : Except Error Answer)
  deriving DecidableEq

namespace CacheCall

def request : CacheCall → Request
  | get cid => .get cid
  | getMany cids => .getMany cids
  | put b => .put b
  | delete cid => .delete cid
  | has cid => .has cid

end CacheCall

namespace CacheTask

def call : CacheTask → CacheCall
  | getAsking cid | getAnswered cid _ => .get cid
  | getManyAsking cids _ | getManyAnswered cids _ _ => .getMany cids
  | putAsking b | putAnswered b => .put b
  | deleteAsking cid | deleteAnswered cid => .delete cid
  | hasAsking cid | hasAnswered cid _ => .has cid
  | returned call _ => call

end CacheTask

namespace CachedBlockStore

section Machine

variable {C Rep : Type} [BlockStore C] (lru : Lru Rep Cid (List UInt8))

omit [BlockStore C] in
/-- Up to the await point. -/
def start (call : CacheCall) (s : CachedBlockStore C Rep) :
    CacheTask × CachedBlockStore C Rep :=
  match call with
  | .get cid =>
    let (hit, s) := l1Peek lru cid s
    match hit with
    | some data => (.returned call (.ok (.block (some { cid, data }))), s)
    | none => (.getAsking cid, s)
  | .getMany cids =>
    let (hits, s) := l1PeekMany lru cids s
    if (misses cids hits).isEmpty then
      (.returned call (.ok (.blocks ((cids.zip hits).map hitBlock))), s)
    else (.getManyAsking cids hits, s)
  | .put b => (.putAsking b, s)
  | .delete cid => (.deleteAsking cid, invalidate lru cid s)
  | .has cid =>
    if contains lru s cid then (.returned call (.ok (.present true)), s) else (.hasAsking cid, s)

omit [BlockStore C] in
/-- The call of the store; an error is returned at once. -/
def asks {α : Type} (call : CacheCall) (m : EStateM Error C α) (next : α → CacheTask)
    (s : CachedBlockStore C Rep) : CacheTask × CachedBlockStore C Rep :=
  match m s.inner with
  | .ok a inner => (next a, { s with inner })
  | .error e inner => (.returned call (.error e), { s with inner })

def resume (t : CacheTask) (s : CachedBlockStore C Rep) : CacheTask × CachedBlockStore C Rep :=
  match t with
  | .getAsking cid => asks t.call (ColdStore.get cid) (.getAnswered cid) s
  | .getAnswered cid (some b) =>
    (.returned t.call (.ok (.block (some b))),
      if b.data.length ≤ s.maxBlockBytes then l1Insert lru cid b.data s else s)
  | .getAnswered _ none => (.returned t.call (.ok (.block none)), s)
  | .getManyAsking cids hits =>
    asks t.call (BlockStore.getMany ((misses cids hits).map (fun x => x.1.1)))
      (.getManyAnswered cids hits) s
  | .getManyAnswered cids hits fetched =>
    let pairs := ((misses cids hits).map Prod.snd).zip fetched
    (.returned t.call (.ok (.blocks (PutBack.putBack ((cids.zip hits).map hitBlock)
      (pairs.map (fun x => (x.1, x.2.map some)))))), fill lru pairs s)
  | .putAsking b => asks t.call (ColdStore.put b) (fun _ => .putAnswered b) s
  | .putAnswered b => (.returned t.call (.ok .done), promote lru s b)
  | .deleteAsking cid => asks t.call (ColdStore.delete cid) (fun _ => .deleteAnswered cid) s
  | .deleteAnswered _ => (.returned t.call (.ok .done), s)
  | .hasAsking cid => asks t.call (BlockStore.has cid) (.hasAnswered cid) s
  | .hasAnswered _ r => (.returned t.call (.ok (.present r)), s)
  | .returned _ _ => (t, s)

def machine : Machine (CachedBlockStore C Rep) CacheCall CacheTask where
  start := start lru
  resume := resume lru

/-- A call with every turn to itself. -/
def alone (call : CacheCall) (s : CachedBlockStore C Rep) :
    CacheTask × CachedBlockStore C Rep :=
  let (t, s) := start lru call s
  let (t, s) := resume lru t s
  resume lru t s

end Machine

section Lemmas

variable {C Rep : Type} [BlockStore C] {lru : Lru Rep Cid (List UInt8)}

omit [BlockStore C] in
theorem asks_call {α : Type} {call : CacheCall} {m : EStateM Error C α} (next : α → CacheTask)
    (h : ∀ a, (next a).call = call) (s : CachedBlockStore C Rep) :
    (asks call m next s).1.call = call := by
  rw [asks]
  split
  · exact h _
  · rfl

theorem resume_call (t : CacheTask) (s : CachedBlockStore C Rep) :
    (resume lru t s).1.call = t.call := by
  cases t with
  | getAsking cid => exact asks_call (.getAnswered cid) (fun _ => rfl) s
  | getManyAsking cids hits => exact asks_call (.getManyAnswered cids hits) (fun _ => rfl) s
  | putAsking b => exact asks_call (fun _ => .putAnswered b) (fun _ => rfl) s
  | deleteAsking cid => exact asks_call (fun _ => .deleteAnswered cid) (fun _ => rfl) s
  | hasAsking cid => exact asks_call (.hasAnswered cid) (fun _ => rfl) s
  | getAnswered cid r => cases r <;> rfl
  | _ => rfl

/-- With every turn to itself a call does what the operation does. -/
theorem alone_eq_perform (call : CacheCall) (s : CachedBlockStore C Rep) :
    alone lru call s
      = match perform lru call.request s with
        | .ok a s' => (.returned call (.ok a), s')
        | .error e s' => (.returned call (.error e), s') := by
  cases call with
  | put b =>
    cases h : ColdStore.put b s.inner <;>
      simp [alone, start, resume, asks, CacheTask.call, perform, CacheCall.request, put, below,
        zoom, run_bind, h]
  | delete cid =>
    cases h : ColdStore.delete cid s.inner <;>
      simp [alone, start, resume, asks, CacheTask.call, perform, CacheCall.request, delete,
        below, zoom, run_bind, invalidate, h]
  | get cid =>
    cases hit : (l1Peek lru cid s).1 with
    | some data =>
      simp [alone, start, resume, perform, CacheCall.request, get, run_bind, hit]
    | none =>
      cases h : ColdStore.get cid (l1Peek lru cid s).2.inner with
      | error e c =>
        simp [alone, start, resume, asks, CacheTask.call, perform, CacheCall.request, get,
          below, zoom, run_bind, hit, h]
      | ok r c =>
        cases r <;>
          simp [alone, start, resume, asks, CacheTask.call, perform, CacheCall.request, get,
            below, zoom, run_bind, run_map, hit, h]
  | getMany cids =>
    by_cases hempty : misses cids (l1PeekMany lru cids s).1 = []
    · simp [alone, start, resume, perform, CacheCall.request, getMany, run_bind, hempty]
    · let missed := (misses cids (l1PeekMany lru cids s).1).map (fun x => x.1.1)
      cases h : BlockStore.getMany missed (l1PeekMany lru cids s).2.inner <;>
        simp [alone, start, resume, asks, CacheTask.call, perform, CacheCall.request, getMany,
          below, zoom, run_bind, run_map, hempty, missed, h]
  | has cid =>
    by_cases hit : contains lru s cid = true
    · simp [alone, start, resume, perform, CacheCall.request, has, run_bind, hit]
    · cases h : BlockStore.has cid s.inner <;>
        simp [alone, start, resume, asks, CacheTask.call, perform, CacheCall.request, has,
          below, zoom, run_bind, hit, h]

/-- The three turns of each call before the next call begins; `i` calls came before. -/
def inTurn : Nat → List CacheCall → List (Turn CacheCall)
  | _, [] => []
  | i, call :: calls => .call call :: .resume i :: .resume i :: inTurn (i + 1) calls

/-- The operations one after the other, and what each returns. -/
def performAll (lru : Lru Rep Cid (List UInt8)) :
    List CacheCall → CachedBlockStore C Rep → List CacheTask × CachedBlockStore C Rep
  | [], s => ([], s)
  | call :: calls, s =>
    let (a, s) := match perform lru call.request s with
      | .ok a s => (Except.ok a, s)
      | .error e s => (.error e, s)
    let (tasks, s) := performAll lru calls s
    (.returned call a :: tasks, s)

theorem run_alone (call : CacheCall) (p : Pool (CachedBlockStore C Rep) CacheTask) :
    (machine lru).run p [.call call, .resume p.tasks.length, .resume p.tasks.length]
      = { shared := (alone lru call p.shared).2
          tasks := p.tasks ++ [(alone lru call p.shared).1] } := by
  simp [Machine.step, machine, alone]

/-- **Calls that do not overlap are the operations**: where each call has its turns to itself,
every task has returned what its operation returns, and the store is left as they leave it. -/
theorem run_inTurn (calls : List CacheCall) : ∀ p : Pool (CachedBlockStore C Rep) CacheTask,
    (machine lru).run p (inTurn p.tasks.length calls)
      = { shared := (performAll lru calls p.shared).2
          tasks := p.tasks ++ (performAll lru calls p.shared).1 } := by
  induction calls with
  | nil => simp [inTurn, performAll]
  | cons call calls ih =>
    intro p
    have hsplit : inTurn p.tasks.length (call :: calls)
        = [.call call, .resume p.tasks.length, .resume p.tasks.length]
          ++ inTurn (p.tasks ++ [(alone lru call p.shared).1]).length calls := by
      simp [inTurn]
    rw [hsplit, Machine.run_append, run_alone, ih, alone_eq_perform, performAll]
    cases perform lru call.request p.shared <;> simp

end Lemmas

/-! ## What a turn changes -/

section Turns

variable {C Rep : Type} [BlockStore C] [BlockStore.Faithful C] {lru : Lru Rep Cid (List UInt8)}

/-- What the next turn of a task puts into the cache, where it fits. -/
def fills : CacheTask → List (Cid × List UInt8)
  | .getAnswered cid (some b) => [(cid, b.data)]
  | .getManyAnswered cids hits fetched =>
    ((((misses cids hits).map Prod.snd).zip fetched).filterMap Prod.snd).map
      (fun b => (b.cid, b.data))
  | .putAnswered b => [(b.cid, b.data)]
  | _ => []

/-- The task waits to put a block under the identifier. -/
def puts (cid : Cid) : CacheTask → Bool
  | .putAsking b => b.cid = cid
  | _ => false

omit [BlockStore C] [BlockStore.Faithful C] in
theorem asks_cache {α : Type} (call : CacheCall) (m : EStateM Error C α) (next : α → CacheTask)
    (s : CachedBlockStore C Rep) : (asks call m next s).2.cache = s.cache := by
  rw [asks]
  split <;> rfl

omit [BlockStore C] [BlockStore.Faithful C] in
/-- A call that changes no more than the store. -/
theorem asks_ends {α : Type} (call : CacheCall) (next : α → CacheTask) {m : EStateM Error C α}
    {s : CachedBlockStore C Rep} {Q : α → C → Prop} {E : C → Prop} (h : Ends m s.inner Q E) :
    (∃ a c, asks call m next s = (next a, { s with inner := c }) ∧ Q a c
      ∧ m s.inner = .ok a c) ∨
    (∃ e c, asks call m next s = (.returned call (.error e), { s with inner := c }) ∧ E c) := by
  unfold Ends at h
  rw [asks]
  cases hm : m s.inner with
  | ok a c =>
    rw [hm] at h
    exact .inl ⟨a, c, rfl, h, rfl⟩
  | error e c =>
    rw [hm] at h
    exact .inr ⟨e, c, rfl, h⟩

omit [BlockStore C] [BlockStore.Faithful C] in
theorem foldl_promote_cache (hl : lru.Lawful) {cid : Cid} {data : List UInt8} :
    ∀ (blocks : List Block) (s : CachedBlockStore C Rep),
      lru.lookup (blocks.foldl (promote lru) s).cache cid = some data →
        lru.lookup s.cache cid = some data ∨
          ∃ x ∈ blocks.map (fun b => (b.cid, b.data)), x.1 = cid
            ∧ x.2.length ≤ s.maxBlockBytes
  | [], _, h => .inl h
  | b :: blocks, s, h => by
    have hmax : (promote lru s b).maxBlockBytes = s.maxBlockBytes := by
      unfold promote
      split <;> rfl
    rcases foldl_promote_cache hl blocks (promote lru s b) h with hcached | ⟨x, hx, hc, hfits⟩
    · unfold promote at hcached
      split at hcached
      · next hfits =>
        by_cases hc : cid = b.cid
        · exact .inr ⟨(b.cid, b.data), List.mem_cons_self, hc.symm, hfits⟩
        · exact .inl (hl.lookup_put _ _ _ _ _ hc hcached)
      · exact .inl hcached
    · rw [hmax] at hfits
      exact .inr ⟨x, List.mem_cons_of_mem _ hx, hc, hfits⟩

omit [BlockStore.Faithful C] in
/-- What a turn leaves in the cache was there or is filled in. -/
theorem resume_cache (hl : lru.Lawful) {t : CacheTask} {s : CachedBlockStore C Rep} {cid : Cid}
    {data : List UInt8} (h : lru.lookup (resume lru t s).2.cache cid = some data) :
    lru.lookup s.cache cid = some data ∨
      ∃ x ∈ fills t, x.1 = cid ∧ x.2.length ≤ s.maxBlockBytes := by
  cases t with
  | getAsking | getManyAsking | putAsking | deleteAsking | hasAsking =>
    simp only [resume, asks_cache] at h
    exact .inl h
  | putAnswered b => exact foldl_promote_cache hl [b] s h
  | getManyAnswered cids hits fetched => exact foldl_promote_cache hl _ s h
  | getAnswered c r =>
    cases r with
    | none => exact .inl h
    | some b => exact foldl_promote_cache hl [{ b with cid := c }] s h
  | deleteAnswered c => exact .inl h
  | hasAnswered c r => exact .inl h
  | returned call a => exact .inl h

/-- A call that reads the store leaves it as it was. -/
theorem asks_reads {α : Type} {call : CacheCall} {m : EStateM Error C α} {next : α → CacheTask}
    {s : CachedBlockStore C Rep} {answer : α}
    (h : Ends m s.inner (fun a c => a = answer ∧ lookup c = lookup s.inner)
      (fun c => lookup c = lookup s.inner)) : lookup (asks call m next s).2.inner = lookup s.inner
      ∧ ((asks call m next s).1 = next answer
        ∨ ∃ e, (asks call m next s).1 = .returned call (.error e)) := by
  rcases asks_ends call next h with ⟨a, c, hrun, hc, -⟩ | ⟨e, c, hrun, hc⟩
  · rw [hrun]
    exact ⟨hc.2, .inl (by rw [hc.1])⟩
  · rw [hrun]
    exact ⟨hc, .inr ⟨e, rfl⟩⟩

omit [BlockStore C] [BlockStore.Faithful C] in
theorem foldl_promote_inner : ∀ (blocks : List Block) (s : CachedBlockStore C Rep),
    (blocks.foldl (promote lru) s).inner = s.inner
  | [], _ => rfl
  | b :: blocks, s => by rw [List.foldl_cons, foldl_promote_inner blocks, promote_inner]

omit [BlockStore C] [BlockStore.Faithful C] in
/-- A call begins without the store, and with no new entry in the cache. -/
theorem start_spec (hl : lru.Lawful) (call : CacheCall) (s : CachedBlockStore C Rep) :
    (start lru call s).2.inner = s.inner ∧ ∀ cid data,
      lru.lookup (start lru call s).2.cache cid = some data →
        lru.lookup s.cache cid = some data := by
  cases call with
  | put b => exact ⟨rfl, fun _ _ h => h⟩
  | delete cid => exact ⟨rfl, fun k v h => hl.lookup_pop s.cache cid k v h⟩
  | get cid =>
    have hpeek : ∀ k, lru.lookup (l1Peek lru cid s).2.cache k = lru.lookup s.cache k :=
      hl.lookup_get s.cache cid
    simp only [start]
    split <;> exact ⟨rfl, fun k v h => by rwa [← hpeek]⟩
  | getMany cids =>
    obtain ⟨cache, hrun, hsame⟩ := l1PeekMany_spec hl cids s
    simp only [start, hrun]
    split <;> exact ⟨rfl, fun k v h => by rwa [← hsame]⟩
  | has cid =>
    simp only [start]
    split <;> exact ⟨rfl, fun _ _ h => h⟩

variable (lru) in
/-- Only the store's own answer to a write or a delete changes what the store holds. -/
theorem resume_store (t : CacheTask) (s : CachedBlockStore C Rep) :
    lookup (resume lru t s).2.inner = lookup s.inner
      ∨ (∃ b, t = .putAsking b ∧ lookup (resume lru t s).2.inner
          = Function.update (lookup s.inner) b.cid (some b.data))
      ∨ (∃ cid, t = .deleteAsking cid ∧ endsWell (ColdStore.delete cid s.inner) = true
          ∧ lookup (resume lru t s).2.inner = Function.update (lookup s.inner) cid none) := by
  cases t with
  | getAsking cid => exact .inl (asks_reads (Storage.get_ends cid s.inner)).1
  | getManyAsking cids hits => exact .inl (asks_reads (Storage.getMany_ends _ s.inner)).1
  | hasAsking cid => exact .inl (asks_reads (Storage.has_ends cid s.inner)).1
  | putAsking b =>
    rw [resume]
    rcases asks_ends _ _ (Storage.put_ends b s.inner) with ⟨_, c, hrun, hc, -⟩ | ⟨e, c, hrun, hc⟩
    · exact .inr (.inl ⟨b, rfl, by rw [hrun]; exact hc⟩)
    · exact .inl (by rw [hrun]; exact hc)
  | deleteAsking cid =>
    rw [resume]
    rcases asks_ends _ _ (Storage.delete_ends cid s.inner) with
      ⟨_, c, hrun, hc, hok⟩ | ⟨e, c, hrun, hc⟩
    · exact .inr (.inr ⟨cid, rfl, by rw [hok]; rfl, by rw [hrun]; exact hc⟩)
    · exact .inl (by rw [hrun]; exact hc)
  | putAnswered b => exact .inl (congrArg lookup (foldl_promote_inner [b] s))
  | getManyAnswered cids hits fetched =>
    exact .inl (congrArg lookup (foldl_promote_inner _ s))
  | getAnswered cid r =>
    cases r with
    | none => exact .inl rfl
    | some b =>
      exact .inl (congrArg lookup
        (foldl_promote_inner [{ b with cid }] s))
  | deleteAnswered cid => exact .inl rfl
  | hasAnswered cid r => exact .inl rfl
  | returned call a => exact .inl rfl

end Turns

/-! ## No stale read -/

section Runs

variable {C Rep : Type} [BlockStore C] [BlockStore.Faithful C] (lru : Lru Rep Cid (List UInt8))

/-- The deletion of the identifier has been answered by the store. -/
def Deleted (cid : Cid) : CacheTask → Prop
  | .deleteAnswered c => c = cid
  | .returned (.delete c) (.ok _) => c = cid
  | _ => False

def isReturned : CacheTask → Bool
  | .returned _ _ => true
  | _ => false

def isGet : CacheCall → Bool
  | .get _ | .getMany _ => true
  | _ => false

/-- After its `i`-th one, no call puts a block under the identifier. -/
def NoPutAfter (i : Nat) (cid : Cid) (p : Pool (CachedBlockStore C Rep) CacheTask) : Prop :=
  ∀ b, CacheCall.put b ∈ (p.tasks.map CacheTask.call).drop (i + 1) → b.cid ≠ cid

/-- What the turn puts into the cache the store holds. -/
def FillsHeld (s : CachedBlockStore C Rep) (t : CacheTask) : Prop :=
  ∀ x ∈ fills t, x.2.length ≤ s.maxBlockBytes → Content.has (lookup s.inner) x.1 = true

/-- When the store deletes an identifier, it is not cached (again), and no call that began
before the delete is about to put it. -/
def DeletesAll (p : Pool (CachedBlockStore C Rep) CacheTask) (i : Nat) : CacheTask → Prop
  | .deleteAsking cid =>
    endsWell (ColdStore.delete cid p.shared.inner) = true →
      contains lru p.shared cid = false ∧ ∀ u ∈ p.tasks.take i, puts cid u = false
  | _ => True

def SafeTurn (p : Pool (CachedBlockStore C Rep) CacheTask) : Turn CacheCall → Prop
  | .call _ => True
  | .resume i => ∀ t ∈ p.tasks[i]?, FillsHeld p.shared t ∧ DeletesAll lru p i t

/-- Once the `i`-th call has deleted an identifier, all reads begun before it have returned
and no later call puts it, a call that begins then finds nothing. -/
def NoStaleRead (p : Pool (CachedBlockStore C Rep) CacheTask) (turns : List (Turn CacheCall)) :
    Prop :=
  ∀ before after i cid, turns = before ++ after →
    let now := (machine lru).run p before
    let later := (machine lru).run p turns
    now.tasks[i]? = some (.returned (.delete cid) (.ok .done)) →
    (∀ j t, j < i → now.tasks[j]? = some t → isGet t.call = true → isReturned t = true) →
    NoPutAfter i cid later →
    ∀ j, now.tasks.length ≤ j →
      (∀ r, later.tasks[j]? = some (.returned (.get cid) (.ok (.block r))) → r = none) ∧
      (∀ r, later.tasks[j]? = some (.returned (.has cid) (.ok (.present r))) → r = false)

variable {lru} {p : Pool (CachedBlockStore C Rep) CacheTask}

/-- Everything cached is held. -/
def Covered (lru : Lru Rep Cid (List UInt8)) (s : CachedBlockStore C Rep) : Prop :=
  ∀ cid, contains lru s cid = true → Content.has (lookup s.inner) cid = true

variable {s : CachedBlockStore C Rep} {cid : Cid} {turn : Turn CacheCall}

omit [BlockStore C] [BlockStore.Faithful C] in
theorem contains_iff : contains lru s cid = true ↔ ∃ data, lru.lookup s.cache cid = some data := by
  rw [contains, Option.isSome_iff_exists]

theorem Covered.step (hl : lru.Lawful) (hp : Covered lru p.shared) (hsafe : SafeTurn lru p turn) :
    Covered lru ((machine lru).step p turn).shared := by
  intro cid hcid
  obtain ⟨data, hdata⟩ := contains_iff.mp hcid
  cases turn with
  | call k =>
    obtain ⟨hinner, hcache⟩ := start_spec hl k p.shared
    show Content.has (lookup (start lru k p.shared).2.inner) cid = true
    rw [hinner]
    exact hp cid (contains_iff.mpr ⟨data, hcache cid data hdata⟩)
  | resume i =>
    cases ht : p.tasks[i]? with
    | none =>
      rw [Machine.step_resume_none ht] at hcid ⊢
      exact hp cid hcid
    | some t =>
      rw [Machine.step_resume ht] at hdata ⊢
      obtain ⟨hfills, hdelete⟩ := hsafe t ht
      -- before the turn the store holds it
      have hheld : Content.has (lookup p.shared.inner) cid = true := by
        rcases resume_cache hl hdata with hcached | ⟨x, hx, rfl, hfits⟩
        · exact hp cid (contains_iff.mpr ⟨data, hcached⟩)
        · exact hfills x hx hfits
      show Content.has (lookup (resume lru t p.shared).2.inner) cid = true
      rcases resume_store lru t p.shared with hsame | ⟨b, rfl, hput⟩ | ⟨c, rfl, hok, hdel⟩
      · rwa [hsame]
      · rw [hput, Content.has_update_apply, hheld]
        split <;> rfl
      · have hcached : contains lru p.shared cid = true :=
          contains_iff.mpr ⟨data, (resume_cache hl hdata).resolve_right (by simp [fills])⟩
        have hne : cid ≠ c := by
          rintro rfl
          rw [(hdelete hok).1] at hcached
          cases hcached
        rw [hdel, Content.has_update_apply, if_neg hne]
        exact hheld

/-- Once the `i`-th call has deleted the identifier and no later one puts it, the store
has it no more and no earlier call is about to put it. -/
def Removed (i : Nat) (cid : Cid) (p : Pool (CachedBlockStore C Rep) CacheTask) : Prop :=
  ∀ t, p.tasks[i]? = some t → Deleted cid t → NoPutAfter i cid p →
    Content.has (lookup p.shared.inner) cid = false
      ∧ ∀ j u, j ≤ i → p.tasks[j]? = some u → puts cid u = false

omit [BlockStore.Faithful C] in
theorem NoPutAfter.of_step {i : Nat} (h : NoPutAfter i cid ((machine lru).step p turn)) :
    NoPutAfter i cid p := by
  obtain ⟨rest, hrest⟩ := Machine.labels_prefix_step (m := machine lru) resume_call p turn
  intro b hb
  apply h b
  rw [← hrest, List.drop_append]
  exact List.mem_append_left _ hb

omit [BlockStore C] [BlockStore.Faithful C] in
theorem NoPutAfter.puts_eq_false {i j : Nat} (h : NoPutAfter i cid p) {u : CacheTask}
    (hu : p.tasks[j]? = some u) (hj : i < j) : puts cid u = false := by
  cases u with
  | putAsking b =>
    have hmem : CacheCall.put b ∈ (p.tasks.map CacheTask.call).drop (i + 1) := by
      apply List.mem_of_getElem? (i := j - (i + 1))
      rw [List.getElem?_drop, List.getElem?_map, Nat.add_sub_cancel' hj, hu]
      rfl
    simpa [puts] using h b hmem
  | _ => rfl

omit [BlockStore C] [BlockStore.Faithful C] in
theorem asks_task {α : Type} (P : CacheTask → Prop) {call : CacheCall} {m : EStateM Error C α}
    {next : α → CacheTask} (hnext : ∀ a, P (next a)) (herror : ∀ e, P (.returned call (.error e))) :
    P (asks call m next s).1 := by
  rw [asks]
  split
  · exact hnext _
  · exact herror _

omit [BlockStore.Faithful C] in
/-- No turn leaves a task about to put. -/
theorem puts_resume (cid : Cid) (t : CacheTask) (s : CachedBlockStore C Rep) :
    puts cid (resume lru t s).1 = false := by
  cases t with
  | getAsking | getManyAsking | putAsking | deleteAsking | hasAsking =>
    exact asks_task (fun u => puts cid u = false) (fun _ => rfl) (fun _ => rfl)
  | getAnswered c r => cases r <;> rfl
  | _ => rfl

/-- A deletion is answered in the turn in which the store deletes. -/
theorem Deleted.of_resume {t : CacheTask} (h : Deleted cid (resume lru t s).1) :
    Deleted cid t ∨ (t = .deleteAsking cid ∧ endsWell (ColdStore.delete cid s.inner) = true
      ∧ lookup (resume lru t s).2.inner = Function.update (lookup s.inner) cid none) := by
  cases t with
  | deleteAsking c =>
    rw [resume] at h ⊢
    rcases asks_ends _ _ (Storage.delete_ends c s.inner) with
      ⟨_, st, hrun, hc, hok⟩ | ⟨e, st, hrun, -⟩
    · rw [hrun] at h
      obtain rfl : c = cid := h
      exact .inr ⟨rfl, by rw [hok]; rfl, by rw [hrun]; exact hc⟩
    · rw [hrun] at h
      exact h.elim
  | getAsking | getManyAsking | putAsking | hasAsking =>
    exact absurd h (asks_task (fun u => ¬ Deleted cid u) (fun _ => id) (fun _ => id))
  | getAnswered c r => cases r <;> exact h.elim
  | deleteAnswered c => exact .inl h
  | returned call a => exact .inl h
  | putAnswered | getManyAnswered | hasAnswered => exact h.elim

omit [BlockStore C] [BlockStore.Faithful C] in
theorem not_deleted_start {call : CacheCall} : ¬ Deleted cid (start lru call s).1 := by
  cases call with
  | put b => exact id
  | delete c => exact id
  | get c | getMany cids | has c =>
    simp only [start]
    split <;> exact id

theorem Removed.step {i : Nat} (hl : lru.Lawful) (hp : Removed i cid p)
    (hsafe : SafeTurn lru p turn) : Removed i cid ((machine lru).step p turn) := by
  intro t' ht' hdeleted hno
  cases turn with
  | call k =>
    rcases Machine.getElem?_call.mp ht' with hold | ⟨-, rfl⟩
    · obtain ⟨hgone, hputs⟩ := hp t' hold hdeleted hno.of_step
      refine ⟨?_, fun j u hj hu => ?_⟩
      · show Content.has (lookup (start lru k p.shared).2.inner) cid = false
        rwa [(start_spec hl k p.shared).1]
      · have hlt := (List.getElem?_eq_some_iff.mp hold).1
        exact hputs j u hj ((Machine.getElem?_call.mp hu).resolve_right (by omega))
    · exact absurd hdeleted not_deleted_start
  | resume k =>
    cases ht : p.tasks[k]? with
    | none =>
      rw [Machine.step_resume_none ht] at ht' hno ⊢
      exact hp t' ht' hdeleted hno
    | some t =>
      have hdelete := (hsafe t ht).2
      -- the identifier was deleted before this turn, or it is deleted in it
      have hnow : (Content.has (lookup p.shared.inner) cid = false
            ∧ ∀ j u, j ≤ i → p.tasks[j]? = some u → puts cid u = false)
          ∨ (k = i ∧ t = .deleteAsking cid
            ∧ endsWell (ColdStore.delete cid p.shared.inner) = true
            ∧ lookup (resume lru t p.shared).2.inner
              = Function.update (lookup p.shared.inner) cid none) := by
        rcases (Machine.getElem?_resume ht).mp ht' with ⟨rfl, rfl⟩ | ⟨-, hold⟩
        · rcases hdeleted.of_resume with hbefore | hnow
          · exact .inl (hp t ht hbefore hno.of_step)
          · exact .inr ⟨rfl, hnow⟩
        · exact .inl (hp t' hold hdeleted hno.of_step)
      refine ⟨?_, fun j u hj hu => ?_⟩
      · rw [Machine.step_resume ht]
        show Content.has (lookup (resume lru t p.shared).2.inner) cid = false
        rcases hnow with ⟨hgone, hputs⟩ | ⟨-, -, -, hdel⟩
        · rcases resume_store lru t p.shared with hsame | ⟨b, rfl, hput⟩ | ⟨c, -, -, hdel⟩
          · rwa [hsame]
          · have hne : puts cid (.putAsking b) = false := by
              by_cases hk : k ≤ i
              · exact hputs k _ hk ht
              · exact hno.of_step.puts_eq_false ht (by omega)
            rw [hput, Content.has_update_apply, if_neg, hgone]
            simpa [puts, eq_comm] using hne
          · rw [hdel, Content.has_update_apply, hgone]
            split <;> rfl
        · rw [hdel, Content.has_update_apply, if_pos rfl]
          rfl
      · rcases (Machine.getElem?_resume ht).mp hu with ⟨rfl, rfl⟩ | ⟨hne, hold⟩
        · exact puts_resume cid t p.shared
        · rcases hnow with ⟨-, hputs⟩ | ⟨rfl, rfl, hok, -⟩
          · exact hputs j u hj hold
          · apply (hdelete hok).2 u
            apply List.mem_of_getElem? (i := j)
            rwa [List.getElem?_take_of_lt (by omega)]

/-- A read of the identifier that finds nothing. -/
def FindsNothing (cid : Cid) : CacheTask → Prop
  | .getAnswered c r => c = cid → r = none
  | .hasAnswered c r => c = cid → r = false
  | .returned (.get c) (.ok a) => c = cid → a = .block none
  | .returned (.has c) (.ok a) => c = cid → a = .present false
  | _ => True

omit [BlockStore C] [BlockStore.Faithful C] in
theorem FindsNothing.start (hs : contains lru s cid = false) (call : CacheCall) :
    FindsNothing cid (start lru call s).1 := by
  cases call with
  | put b => trivial
  | delete c => trivial
  | getMany cids =>
    simp only [CachedBlockStore.start]
    split <;> trivial
  | get c =>
    simp only [CachedBlockStore.start]
    split
    · next data hhit =>
      intro hc
      subst hc
      rw [contains, show lru.lookup s.cache c = some data from hhit] at hs
      cases hs
    · trivial
  | has c =>
    simp only [CachedBlockStore.start]
    split
    · next hhit =>
      intro hc
      rw [hc, hs] at hhit
      cases hhit
    · trivial

theorem FindsNothing.resume {t : CacheTask} (hs : Content.has (lookup s.inner) cid = false)
    (ht : FindsNothing cid t) : FindsNothing cid (resume lru t s).1 := by
  cases t with
  | getAsking c =>
    rcases (asks_reads (Storage.get_ends c s.inner)).2 with h | ⟨e, h⟩
    · rw [CachedBlockStore.resume, h]
      rintro rfl
      exact Content.get_eq_none hs
    · rw [CachedBlockStore.resume, h]
      trivial
  | hasAsking c =>
    rcases (asks_reads (Storage.has_ends c s.inner)).2 with h | ⟨e, h⟩
    · rw [CachedBlockStore.resume, h]
      rintro rfl
      exact hs
    · rw [CachedBlockStore.resume, h]
      trivial
  | getManyAsking | putAsking | deleteAsking =>
    exact asks_task (FindsNothing cid) (fun _ => trivial) (fun _ => trivial)
  | getAnswered c r =>
    cases r with
    | none => exact fun _ => rfl
    | some b => exact fun hc => by cases ht hc
  | hasAnswered c r => exact fun hc => by rw [ht hc]
  | returned call a => exact ht
  | getManyAnswered | putAnswered | deleteAnswered => trivial

omit [BlockStore.Faithful C] in
theorem Deleted.resume {t : CacheTask} (h : Deleted cid t) : Deleted cid (resume lru t s).1 := by
  cases t with
  | deleteAnswered c => exact h
  | returned call a => exact h
  | _ => exact h.elim

/-- From the completed deletion on: calls that begin now find nothing. -/
structure Later (lru : Lru Rep Cid (List UInt8)) (i n : Nat) (cid : Cid)
    (p : Pool (CachedBlockStore C Rep) CacheTask) : Prop where
  deleted : ∃ t, p.tasks[i]? = some t ∧ Deleted cid t
  covered : Covered lru p.shared
  removed : Removed i cid p
  finds : NoPutAfter i cid p → ∀ j t, n ≤ j → p.tasks[j]? = some t → FindsNothing cid t

theorem Later.step {i n : Nat} (hl : lru.Lawful) (hp : Later lru i n cid p)
    (hsafe : SafeTurn lru p turn) : Later lru i n cid ((machine lru).step p turn) := by
  obtain ⟨d, hd, hdeleted⟩ := hp.deleted
  refine ⟨?_, hp.covered.step hl hsafe, hp.removed.step hl hsafe, fun hno j t' hj ht' => ?_⟩
  · cases turn with
    | call k => exact ⟨d, Machine.getElem?_call.mpr (.inl hd), hdeleted⟩
    | resume k =>
      cases ht : p.tasks[k]? with
      | none => exact ⟨d, by rwa [Machine.step_resume_none ht], hdeleted⟩
      | some t =>
        by_cases hk : i = k
        · subst hk
          rw [hd] at ht
          cases ht
          exact ⟨_, (Machine.getElem?_resume hd).mpr (.inl ⟨rfl, rfl⟩), hdeleted.resume⟩
        · exact ⟨d, (Machine.getElem?_resume ht).mpr (.inr ⟨hk, hd⟩), hdeleted⟩
  · have hgone := (hp.removed d hd hdeleted hno.of_step).1
    cases turn with
    | call k =>
      rcases Machine.getElem?_call.mp ht' with hold | ⟨-, rfl⟩
      · exact hp.finds hno.of_step j t' hj hold
      · apply FindsNothing.start
        by_contra hcached
        rw [Bool.not_eq_false] at hcached
        rw [hp.covered cid hcached] at hgone
        cases hgone
    | resume k =>
      cases ht : p.tasks[k]? with
      | none =>
        rw [Machine.step_resume_none ht] at ht'
        exact hp.finds hno.of_step j t' hj ht'
      | some t =>
        rcases (Machine.getElem?_resume ht).mp ht' with ⟨rfl, rfl⟩ | ⟨-, hold⟩
        · exact (hp.finds hno.of_step j t hj ht).resume hgone
        · exact hp.finds hno.of_step j t' hj hold

/-- In every run whose turns are safe no call that begins after a deletion finds what was
deleted. -/
theorem no_stale_read (hl : lru.Lawful) (inner : C) (config : CacheConfig)
    (turns : List (Turn CacheCall))
    (hmeets : (machine lru).Meets (SafeTurn lru) turns
      { shared := new lru inner config, tasks := [] }) :
    NoStaleRead lru { shared := new lru inner config, tasks := [] } turns := by
  rintro before after i cid rfl now later hdone - hno j hj
  obtain ⟨hbefore, hafter⟩ := Machine.meets_append.mp hmeets
  have hkeeps : ∀ (p : Pool (CachedBlockStore C Rep) CacheTask) (turn : Turn CacheCall),
      Covered lru p.shared ∧ Removed i cid p → SafeTurn lru p turn →
        Covered lru ((machine lru).step p turn).shared
          ∧ Removed i cid ((machine lru).step p turn) :=
    fun _ _ hp hsafe => ⟨hp.1.step hl hsafe, hp.2.step hl hsafe⟩
  have hnew : Covered lru (new lru inner config) := by
    intro c hc
    obtain ⟨data, hdata⟩ := contains_iff.mp hc
    rw [show lru.lookup (new lru inner config).cache c = none from hl.lookup_new _ c] at hdata
    cases hdata
  have hnow := Machine.step_induction hkeeps before _ ⟨hnew, fun t ht => by cases ht⟩ hbefore
  have hstart : Later lru i now.tasks.length cid now := by
    refine ⟨⟨_, hdone, rfl⟩, hnow.1, hnow.2, fun _ k t hk ht => ?_⟩
    rw [List.getElem?_eq_none hk] at ht
    cases ht
  have hlaterKeeps : ∀ (p : Pool (CachedBlockStore C Rep) CacheTask) (turn : Turn CacheCall),
      Later lru i now.tasks.length cid p → SafeTurn lru p turn →
        Later lru i now.tasks.length cid ((machine lru).step p turn) :=
    fun _ _ hp hsafe => hp.step hl hsafe
  have hlater : Later lru i now.tasks.length cid later := by
    have h := Machine.step_induction hlaterKeeps after now hstart hafter
    rwa [← Machine.run_append] at h
  have hfinds := hlater.finds hno j
  refine ⟨fun r hr => ?_, fun r hr => ?_⟩
  · have h := hfinds _ hj hr rfl
    cases h
    rfl
  · have h := hfinds _ hj hr rfl
    cases h
    rfl

end Runs

/-! ## One reader and one delete -/

section Decide

variable {C Rep : Type} [BlockStore C] [BlockStore.Faithful C] (lru : Lru Rep Cid (List UInt8))

instance (s : CachedBlockStore C Rep) (t : CacheTask) : Decidable (FillsHeld s t) :=
  inferInstanceAs (Decidable (∀ x ∈ fills t, x.2.length ≤ s.maxBlockBytes →
    Content.has (lookup s.inner) x.1 = true))

instance (p : Pool (CachedBlockStore C Rep) CacheTask) (i : Nat) :
    (t : CacheTask) → Decidable (DeletesAll lru p i t)
  | .deleteAsking _ => inferInstanceAs (Decidable (_ = true → _ = false ∧ ∀ u ∈ _, _ = false))
  | .getAsking _ | .getAnswered _ _ | .getManyAsking _ _ | .getManyAnswered _ _ _
  | .putAsking _ | .putAnswered _ | .deleteAnswered _ | .hasAsking _ | .hasAnswered _ _
  | .returned _ _ => .isTrue trivial

instance (p : Pool (CachedBlockStore C Rep) CacheTask) :
    (turn : Turn CacheCall) → Decidable (SafeTurn lru p turn)
  | .call _ => .isTrue trivial
  | .resume i =>
    inferInstanceAs (Decidable (∀ t ∈ p.tasks[i]?, FillsHeld p.shared t ∧ DeletesAll lru p i t))

end Decide

end CachedBlockStore

namespace LayerSample

open CachedBlockStore
open scoped CidFormat

/-- Nothing has been called yet, and the store holds the block. -/
def quiet : Pool (CachedBlockStore FaultyStore (Recency Cid (List UInt8))) CacheTask :=
  { shared := { cached with inner := held [] }, tasks := [] }

/-- The read has returned when the delete begins. -/
theorem no_stale_read_inTurn : NoStaleRead dataLru quiet
      [.call (.get block.cid), .resume 0, .resume 0, .call (.delete block.cid), .resume 1,
        .resume 1, .call (.get block.cid), .resume 2, .resume 2] :=
  no_stale_read (recency_lawful _ _) (held []) _ _ (by decide +kernel)

/-- A read that fetches, and a delete that runs before the read goes on. -/
def overtaken : List (Turn CacheCall) :=
  [.call (.get block.cid), .resume 0, .call (.delete block.cid), .resume 1, .resume 1, .resume 0]

/-- The read has filled the cache after the delete emptied it, and later reads find the
block there. -/
theorem not_no_stale_read : ¬ NoStaleRead dataLru quiet
      (overtaken ++ [.call (.get block.cid), .call (.has block.cid)]) := by
  intro h
  have hread : ((machine dataLru).run quiet overtaken).tasks[0]?
      = some (.returned (.get block.cid) (.ok (.block (some block)))) := by decide +kernel
  have hcalls : (((machine dataLru).run quiet (overtaken
      ++ [.call (.get block.cid), .call (.has block.cid)])).tasks.map CacheTask.call).drop 2
      = [.get block.cid, .has block.cid] := by decide +kernel
  obtain ⟨hget, -⟩ := h overtaken [.call (.get block.cid), .call (.has block.cid)] 1 block.cid rfl
    (by decide +kernel)
    (by
      intro j t hj ht _
      obtain rfl : j = 0 := by omega
      rw [hread] at ht
      cases ht
      rfl)
    (by
      intro b hb
      rw [hcalls] at hb
      simp at hb)
    2 (by decide)
  cases hget (some block) (by decide +kernel)

end LayerSample

end Ipfrs.Storage
