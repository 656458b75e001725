/-
Ipfrs.Storage.EventualConsistency — versioned writes that reach replicas in any order
(`eventual_consistency.rs`).

`put_versioned` inserts into the map of versions while it still holds a reference into that
map. Whether such an insert ever returns is up to the map (its documentation says that it may
deadlock), so it is a parameter. Replicas converge if every call returns and they end with
the same value and version (`Converges`). Where the insert does not return, no key can be
written twice, and only the empty set of writes converges.

Where it returns, a replica is a register that keeps the resolution of what it has and what
comes (`Ipfrs.Lib.settle`). How the proof goes: a resolution keeps one of the two values, and
of two offers in both orders one is kept twice (`ConflictResolution.selects`), so the register
settles alike exactly on writes some of which lead (`Selects.settlesAlike_iff`).
-/
import Ipfrs.Lib.Register
import Ipfrs.Storage.BlockStore
import Mathlib.Data.List.AList
import Mathlib.Data.List.Rotate

namespace Ipfrs.Storage

open Ipfrs.Core Ipfrs.Lib
open Ipfrs.Knowledge (ColdStore)

/-! ## Versions -/

structure VersionVector where
  versions : AList (fun _ : UInt64 => UInt64)

namespace VersionVector

def new : VersionVector := ⟨∅⟩

def get (v : VersionVector) (nodeId : UInt64) : UInt64 := (v.versions.lookup nodeId).getD 0

def increment (v : VersionVector) (nodeId : UInt64) : VersionVector :=
  ⟨v.versions.insert nodeId (v.get nodeId + 1)⟩

def merge (v other : VersionVector) : VersionVector :=
  ⟨other.versions.entries.foldl (fun versions e => versions.insert e.1
    (max ((versions.lookup e.1).getD 0) e.2)) v.versions⟩

def happensBefore (v other : VersionVector) : Bool :=
  if v.versions.entries.any (fun e => other.get e.1 < e.2) then false
  else v.versions.entries.any (fun e => e.2 < other.get e.1)
    || other.versions.entries.any (fun e => e.1 ∉ v.versions && 0 < e.2)

end VersionVector

structure VersionedValue where
  data : List UInt8
  version : VersionVector
  timestamp : UInt64
  writerNodeId : UInt64

namespace VersionedValue

def isNewerThan (v other : VersionedValue) : Bool :=
  if v.timestamp ≠ other.timestamp then other.timestamp < v.timestamp
  else other.writerNodeId < v.writerNodeId

/-- The value and the version; versions are equal as maps. -/
def content (v : VersionedValue) : List UInt8 × (UInt64 → Option UInt64) :=
  (v.data, fun nodeId => v.version.versions.lookup nodeId)

theorem isNewerThan_asymm {v other : VersionedValue} (h : v.isNewerThan other) :
    other.isNewerThan v = false := by
  rw [isNewerThan] at h ⊢
  split at h
  · next hne =>
    rw [if_pos (Ne.symm hne)]
    exact decide_eq_false (UInt64.lt_asymm (of_decide_eq_true h))
  · next heq =>
    rw [if_neg (not_not.mpr (not_not.mp heq).symm)]
    exact decide_eq_false (UInt64.lt_asymm (of_decide_eq_true h))

end VersionedValue

inductive ConflictResolution
  | lastWriteWins
  | keepAll
  | vectorClock
  deriving DecidableEq

namespace ConflictResolution

def resolveConflict (strategy : ConflictResolution) (v₁ v₂ : VersionedValue) : VersionedValue :=
  match strategy with
  | .lastWriteWins => if v₁.isNewerThan v₂ then v₁ else v₂
  | .vectorClock =>
    if v₁.version.happensBefore v₂.version then v₂
    else if v₂.version.happensBefore v₁.version then v₁
    else if v₁.isNewerThan v₂ then v₁ else v₂
  | .keepAll => if v₁.isNewerThan v₂ then v₁ else v₂

/-- `v₂` replaces `v₁`: for vector clocks, it happens after it, or it does not happen before
it and is not older. -/
def Overtakes (strategy : ConflictResolution) (v₁ v₂ : VersionedValue) : Prop :=
  match strategy with
  | .lastWriteWins | .keepAll => ¬ v₁.isNewerThan v₂
  | .vectorClock => v₁.version.happensBefore v₂.version
      ∨ ¬ v₂.version.happensBefore v₁.version ∧ ¬ v₁.isNewerThan v₂

instance (strategy : ConflictResolution) (v₁ v₂ : VersionedValue) :
    Decidable (strategy.Overtakes v₁ v₂) := by
  cases strategy <;> unfold Overtakes <;> infer_instance

theorem resolveConflict_eq (strategy : ConflictResolution) (v₁ v₂ : VersionedValue) :
    strategy.resolveConflict v₁ v₂ = if strategy.Overtakes v₁ v₂ then v₂ else v₁ := by
  cases strategy with
  | lastWriteWins | keepAll =>
    by_cases h : v₁.isNewerThan v₂ <;> simp [resolveConflict, Overtakes, h]
  | vectorClock =>
    by_cases h₁ : v₁.version.happensBefore v₂.version
    · simp [resolveConflict, Overtakes, h₁]
    · by_cases h₂ : v₂.version.happensBefore v₁.version
      · simp [resolveConflict, Overtakes, h₁, h₂]
      · by_cases h : v₁.isNewerThan v₂ <;> simp [resolveConflict, Overtakes, h₁, h₂, h]

theorem selects (strategy : ConflictResolution) : Selects strategy.resolveConflict where
  eq_or_eq v₁ v₂ := by
    rw [resolveConflict_eq]
    split
    · exact .inr rfl
    · exact .inl rfl
  overtakes v₁ v₂ := by
    rw [resolveConflict_eq, resolveConflict_eq]
    by_cases h₁₂ : strategy.Overtakes v₁ v₂
    · exact .inl (if_pos h₁₂)
    · refine .inr (if_pos ?_)
      cases strategy with
      | lastWriteWins | keepAll =>
        have hnewer := not_not.mp h₁₂
        simp [Overtakes, VersionedValue.isNewerThan_asymm hnewer]
      | vectorClock =>
        rw [Overtakes, not_or, not_and_or, not_not, not_not] at h₁₂
        obtain ⟨h, h' | hnewer⟩ := h₁₂
        · exact .inl h'
        · exact .inr ⟨h, by simp [VersionedValue.isNewerThan_asymm hnewer]⟩

end ConflictResolution

/-! ## The store -/

structure EventualStore (C : Type) where
  inner : C
  conflictResolution : ConflictResolution
  versions : AList (fun _ : Cid => VersionedValue)

namespace EventualStore

variable [CidCrate] {C : Type} [ColdStore C]

def new (inner : C) (conflictResolution : ConflictResolution) : EventualStore C :=
  { inner, conflictResolution, versions := ∅ }

/-- The version is entered before its data is put into the store below. -/
def enter (cid : Cid) (value : VersionedValue) : EStateM Error (EventualStore C) Unit := do
  modify fun s => { s with versions := s.versions.insert cid value }
  let block ← liftExcept (Block.new value.data)
  zoom inner (fun c s => { s with inner := c }) (ColdStore.put block)

/-- `none` is a call that never returns: it inserts while it holds a reference into the map,
and such an insert does not return. -/
def putVersioned (insertReturns : Bool) (cid : Cid) (value : VersionedValue)
    (s : EventualStore C) : Option (EStateM.Result Error (EventualStore C) Unit) :=
  match s.versions.lookup cid with
  | some existing =>
    if insertReturns then some (enter cid (s.conflictResolution.resolveConflict existing value) s)
    else none
  | none => some (enter cid value s)

/-- The store after some writes arrived; `none` if a call did not return. -/
def deliver (insertReturns : Bool) (cid : Cid) :
    List VersionedValue → EventualStore C → Option (EventualStore C)
  | [], s => some s
  | value :: values, s =>
    match putVersioned insertReturns cid value s with
    | none => none
    | some result => deliver insertReturns cid values (finalState result)

theorem enter_versions (cid : Cid) (value : VersionedValue) (s : EventualStore C) :
    (finalState (enter cid value s)).conflictResolution = s.conflictResolution
      ∧ (finalState (enter cid value s)).versions = s.versions.insert cid value := by
  let Entered (s' : EventualStore C) : Prop :=
    s'.conflictResolution = s.conflictResolution ∧ s'.versions = s.versions.insert cid value
  have hends : Ends (enter cid value) s (fun _ => Entered) Entered := by
    refine Ends.modify_bind (Ends.bind (P := fun _ => Entered) ?_ fun block s' hs' => ?_)
    · cases Block.new value.data <;> exact ⟨rfl, rfl⟩
    · refine Ends.zoom ?_
      unfold Ends
      split <;> exact hs'
  exact hends.finalState

/-- An entry of the map of versions is a register. -/
theorem lookup_deliver (cid : Cid) : ∀ (values : List VersionedValue)
    {s : EventualStore C} {v : VersionedValue}, s.versions.lookup cid = some v →
      ∃ s', deliver true cid values s = some s' ∧ s'.versions.lookup cid
        = some (values.foldl s.conflictResolution.resolveConflict v)
  | [], s, _, h => ⟨s, rfl, h⟩
  | value :: values, s, v, h => by
    rw [deliver, putVersioned, h]
    obtain ⟨hstrategy, hversions⟩ :=
      enter_versions cid (s.conflictResolution.resolveConflict v value) s
    have hrest := lookup_deliver cid values (by rw [hversions, AList.lookup_insert])
    rw [hstrategy] at hrest
    exact hrest

theorem lookup_deliver_new (inner : C) (strategy : ConflictResolution) (cid : Cid)
    (values : List VersionedValue) : ∃ s, deliver true cid values (new inner strategy) = some s ∧
      s.versions.lookup cid = settle strategy.resolveConflict values := by
  cases values with
  | nil => exact ⟨_, rfl, rfl⟩
  | cons value values =>
    obtain ⟨hstrategy, hversions⟩ := enter_versions cid value (new inner strategy)
    have hrest := lookup_deliver cid values (by rw [hversions, AList.lookup_insert])
    rw [hstrategy] at hrest
    exact hrest

/-- Where the insert does not return, neither does the second write of a key. -/
theorem deliver_twice (inner : C) (strategy : ConflictResolution) (cid : Cid)
    (v w : VersionedValue) (values : List VersionedValue) :
    deliver false cid (v :: w :: values) (new inner strategy) = none := by
  have hversions := (enter_versions cid v (new inner strategy)).2
  show deliver false cid (w :: values) (finalState (enter cid v (new inner strategy))) = none
  rw [deliver, putVersioned, hversions, AList.lookup_insert]
  rfl

/-- However the writes arrive, each at least once, every call on two replicas returns, and
they end with the same value and version. -/
def Converges (inner inner' : C) (insertReturns : Bool) (strategy : ConflictResolution)
    (cid : Cid) (writes : List VersionedValue) : Prop :=
  ∀ as bs : List VersionedValue, Offers writes as → Offers writes bs →
    ∃ s s', deliver insertReturns cid as (new inner strategy) = some s
      ∧ deliver insertReturns cid bs (new inner' strategy) = some s'
      ∧ (s.versions.lookup cid).map VersionedValue.content
        = (s'.versions.lookup cid).map VersionedValue.content

variable {inner inner' : C} {strategy : ConflictResolution} {cid : Cid}
  {writes : List VersionedValue}

theorem converges_true_iff : Converges inner inner' true strategy cid writes
    ↔ SettlesAlike strategy.resolveConflict VersionedValue.content writes := by
  refine forall₄_congr fun as bs _ _ => ?_
  obtain ⟨s, hs, hlookup⟩ := lookup_deliver_new inner strategy cid as
  obtain ⟨s', hs', hlookup'⟩ := lookup_deliver_new inner' strategy cid bs
  rw [hs, hs', ← hlookup, ← hlookup']
  simp

theorem converges_false_iff : Converges inner inner' false strategy cid writes ↔ writes = [] := by
  constructor
  · intro h
    by_contra hne
    obtain ⟨w, rest, rfl⟩ := List.exists_cons_of_ne_nil hne
    -- one write delivered twice
    have hoffers : Offers (w :: rest) (w :: w :: rest) := by
      intro a
      simp
    obtain ⟨s, _, hs, _⟩ := h _ _ hoffers hoffers
    rw [deliver_twice] at hs
    cases hs
  · rintro rfl as bs has hbs
    have hempty (cs : List VersionedValue) (hcs : Offers [] cs) : cs = [] :=
      List.eq_nil_iff_forall_not_mem.mpr fun c hc => List.not_mem_nil ((hcs c).mp hc)
    rw [hempty as has, hempty bs hbs]
    exact ⟨_, _, rfl, rfl, rfl⟩

omit [CidCrate] in
theorem leads_iff {K : Set VersionedValue} : Leads strategy.resolveConflict writes K
    ↔ ∀ v ∈ K, ∀ w ∈ writes, w ∉ K → ¬ strategy.Overtakes v w := by
  refine forall₂_congr fun v hv => forall₃_congr fun w _ hw => ?_
  have hne : w ≠ v := fun h => hw (h ▸ hv)
  rw [ConflictResolution.resolveConflict_eq]
  by_cases h : strategy.Overtakes v w <;> simp [h, hne]

/-- If the insert returns, replicas converge exactly on writes some of which are alike and
overtaken by no other; if it does not, on no write at all. -/
theorem converges_iff (insertReturns : Bool) :
    Converges inner inner' insertReturns strategy cid writes ↔
      if insertReturns then
        ∃ K : Set VersionedValue, (∀ v ∈ K, v ∈ writes) ∧ (writes ≠ [] → K.Nonempty)
          ∧ (∀ v ∈ K, ∀ w ∈ K, v.content = w.content)
          ∧ ∀ v ∈ K, ∀ w ∈ writes, w ∉ K → ¬ strategy.Overtakes v w else writes = [] := by
  cases insertReturns with
  | true =>
    rw [if_pos rfl, converges_true_iff]
    simp only [← leads_iff]
    exact strategy.selects.settlesAlike_iff
  | false => exact converges_false_iff

/-! ### Writes that do not converge -/

/-- Two writes of node 1 in one millisecond. -/
def sameMillisecond : List VersionedValue :=
  [⟨[1], VersionVector.new.increment 1, 5, 1⟩,
    ⟨[2], (VersionVector.new.increment 1).increment 1, 5, 1⟩]

/-- Node 2 has seen the first write of node 1 but its clock is behind; node 3 has seen
nothing, and its clock is between theirs. -/
def clocksApart : List VersionedValue :=
  [⟨[1], VersionVector.new.increment 1, 9, 1⟩,
    ⟨[2], (VersionVector.new.merge (VersionVector.new.increment 1)).increment 2, 3, 2⟩,
    ⟨[3], VersionVector.new.increment 3, 6, 3⟩]

/-- Writes that leave different data in two orders do not converge. -/
theorem not_converges_of_ne {as bs : List VersionedValue} (has : as.Perm writes)
    (hbs : bs.Perm writes) (hne : (settle strategy.resolveConflict as).map VersionedValue.data
      ≠ (settle strategy.resolveConflict bs).map VersionedValue.data) :
    ¬ Converges inner inner' true strategy cid writes := by
  rw [converges_true_iff]
  intro h
  have heq := congrArg (Option.map Prod.fst) (h as bs (fun _ => has.mem_iff) fun _ => hbs.mem_iff)
  rw [Option.map_map, Option.map_map] at heq
  exact hne heq

end EventualStore

namespace EventualStore

open scoped CidFormat

def emptyStore : FaultyStore := { blocks := [], faults := [] }

/-- Whether the insert returns or not, neither strategy makes all writes converge. -/
theorem not_converges :
    (¬ Converges emptyStore emptyStore true .lastWriteWins (cidOf codecRaw [1]) sameMillisecond ∧
      ¬ Converges emptyStore emptyStore true .vectorClock (cidOf codecRaw [1]) clocksApart) ∧
    ¬ Converges emptyStore emptyStore false .lastWriteWins (cidOf codecRaw [1]) sameMillisecond ∧
      ¬ Converges emptyStore emptyStore false .vectorClock (cidOf codecRaw [1]) clocksApart := by
  refine ⟨⟨?_, ?_⟩, fun h => ?_, fun h => ?_⟩
  · exact not_converges_of_ne (List.Perm.refl _) (List.reverse_perm _) (by decide)
  · exact not_converges_of_ne (List.Perm.refl _) (List.rotate_perm clocksApart 1) (by decide)
  · cases converges_false_iff.mp h
  · cases converges_false_iff.mp h

end EventualStore

end Ipfrs.Storage
