/-
Ipfrs.TensorLogic.Cache — the cache of query results (`cache.rs`).

A query is looked up under a key made of the goal's predicate name and its constant
arguments. Variables, compound terms and references all become the same `var`, a
boolean becomes the integer 0 or 1, and the knowledge base is not part of the key.
The map below is the `lru` crate's, an `Lru` here; a float's text is turned into bits
by `str::parse::<f64>`, a parameter. Instants and durations are nanoseconds, and
`get` and `insert` take the instant at which they run. The locks, the remote facts
and the invalidation calls are left out.
-/
import Ipfrs.Lib.Lru
import Ipfrs.TensorLogic.Unify

namespace Ipfrs.TensorLogic

open Ipfrs.Lib

/-! ## Keys -/

/-- `GroundArg`. -/
inductive GroundArg where
  | string (s : String)
  | int (i : Int64)
  | float (bits : UInt64)
  | var
  deriving DecidableEq

/-- `QueryKey`. -/
structure QueryKey where
  predicateName : String
  groundArgs : List GroundArg
  deriving DecidableEq

/-- The argument of a key; `parseF64` gives the bits of a float's text. -/
def GroundArg.ofTerm (parseF64 : String → Option UInt64) : Term → GroundArg
  | .const (.string s) => .string s
  | .const (.int i) => .int i
  | .const (.float f) => .float ((parseF64 f).getD 0)
  | .const (.bool b) => .int (if b then 1 else 0)
  | .var _ => .var
  | .func _ _ => .var
  | .ref _ => .var

/-- `QueryKey::from_predicate`. -/
def QueryKey.fromPredicate (parseF64 : String → Option UInt64) (pred : Predicate) : QueryKey where
  predicateName := pred.name
  groundArgs := pred.args.map (GroundArg.ofTerm parseF64)

/-! ## Results and statistics -/

/-- `CachedResult`. -/
structure CachedResult where
  solutions : List Substitution
  cachedAt : Nat
  ttl : Option Nat

/-- `CachedResult::is_expired`, at the instant `now`. -/
def CachedResult.isExpired (r : CachedResult) (now : Nat) : Bool :=
  match r.ttl with
  | some ttl => decide (now - r.cachedAt > ttl)
  | none => false

/-- `CacheStats`; the counters wrap around. -/
structure CacheStats where
  hits : UInt64 := 0
  misses : UInt64 := 0
  evictions : UInt64 := 0
  expirations : UInt64 := 0

namespace CacheStats

def recordHit (s : CacheStats) : CacheStats := { s with hits := s.hits + 1 }

def recordMiss (s : CacheStats) : CacheStats := { s with misses := s.misses + 1 }

def recordEviction (s : CacheStats) : CacheStats := { s with evictions := s.evictions + 1 }

def recordExpiration (s : CacheStats) : CacheStats := { s with expirations := s.expirations + 1 }

/-- The lookups counted so far. -/
def lookups (s : CacheStats) : UInt64 := s.hits + s.misses

@[simp] theorem lookups_recordHit (s : CacheStats) : s.recordHit.lookups = s.lookups + 1 := by
  simp only [lookups, recordHit]
  rw [UInt64.add_assoc, UInt64.add_comm 1, ← UInt64.add_assoc]

@[simp] theorem lookups_recordMiss (s : CacheStats) : s.recordMiss.lookups = s.lookups + 1 := by
  simp only [lookups, recordMiss]
  exact (UInt64.add_assoc _ _ _).symm

@[simp] theorem lookups_recordEviction (s : CacheStats) :
    s.recordEviction.lookups = s.lookups := rfl

@[simp] theorem lookups_recordExpiration (s : CacheStats) :
    s.recordExpiration.lookups = s.lookups := rfl

end CacheStats

/-! ## The cache -/

/-- `QueryCache`, over the representation `C` of the map. -/
structure QueryCache (C : Type) where
  cache : C
  defaultTtl : Option Nat
  stats : CacheStats

namespace QueryCache

variable {C : Type} (lru : Lru C QueryKey CachedResult)

/-- `NonZeroUsize::new(capacity).unwrap_or(100)`. -/
def nonZero (capacity : Nat) : ℕ+ := if h : 0 < capacity then ⟨capacity, h⟩ else 100

/-- `QueryCache::new`, and with a time to live `QueryCache::with_ttl`. -/
def new (capacity : Nat) (ttl : Option Nat) : QueryCache C where
  cache := lru.new (nonZero capacity)
  defaultTtl := ttl
  stats := {}

/-- `QueryCache::get`. -/
def get (qc : QueryCache C) (now : Nat) (key : QueryKey) :
    Option (List Substitution) × QueryCache C :=
  match lru.get qc.cache key with
  | (some result, cache) =>
    if result.isExpired now then
      (none, { qc with
        cache := (lru.pop cache key).2
        stats := qc.stats.recordExpiration.recordMiss })
    else (some result.solutions, { qc with cache, stats := qc.stats.recordHit })
  | (none, cache) => (none, { qc with cache, stats := qc.stats.recordMiss })

/-- `QueryCache::insert`. -/
def insert (qc : QueryCache C) (now : Nat) (key : QueryKey) (solutions : List Substitution) :
    QueryCache C where
  cache := lru.put qc.cache key { solutions, cachedAt := now, ttl := qc.defaultTtl }
  defaultTtl := qc.defaultTtl
  stats := if lru.len qc.cache ≥ lru.cap qc.cache then qc.stats.recordEviction else qc.stats

/-! ## What the operations keep -/

variable {lru}

/-- Every stored list of solutions has the property. -/
def Stores (lru : Lru C QueryKey CachedResult) (P : QueryKey → List Substitution → Prop)
    (qc : QueryCache C) : Prop :=
  lru.All (fun key result => P key result.solutions) qc.cache

variable {P Q : QueryKey → List Substitution → Prop} {qc : QueryCache C}

theorem stores_new (hl : lru.Lawful) (capacity : Nat) (ttl : Option Nat) :
    (new lru capacity ttl).Stores lru P :=
  Lru.All.new hl _

theorem stores_get (hl : lru.Lawful) (h : qc.Stores lru P) (now : Nat) (key : QueryKey) :
    (qc.get lru now key).2.Stores lru P := by
  have hget := Lru.All.get hl h key
  unfold QueryCache.get
  split
  · rename_i result cache heq
    rw [heq] at hget
    split
    · exact Lru.All.pop hl hget key
    · exact hget
  · rename_i cache heq
    rw [heq] at hget
    exact hget

/-- What `get` returns was stored under the key. -/
theorem stores_of_get (h : qc.Stores lru P) {now : Nat} {key : QueryKey}
    {solutions : List Substitution} (hget : (qc.get lru now key).1 = some solutions) :
    P key solutions := by
  unfold QueryCache.get at hget
  split at hget
  · rename_i result cache heq
    split at hget
    · cases hget
    · cases hget
      exact h key result (by rw [Lru.lookup, heq])
  · cases hget

theorem stores_insert (hl : lru.Lawful) (h : qc.Stores lru P) {key : QueryKey}
    {solutions : List Substitution} (now : Nat) (hself : Q key solutions)
    (hother : ∀ key' sols, key' ≠ key → P key' sols → Q key' sols) :
    (qc.insert lru now key solutions).Stores lru Q :=
  Lru.All.put hl h hself (fun key' result hne hp => hother key' result.solutions hne hp)

/-- Every lookup is counted once, as a hit or as a miss. -/
theorem lookups_get (qc : QueryCache C) (now : Nat) (key : QueryKey) :
    (qc.get lru now key).2.stats.lookups = qc.stats.lookups + 1 := by
  unfold QueryCache.get
  split
  · split
    · simp
    · simp
  · simp

theorem lookups_insert (qc : QueryCache C) (now : Nat) (key : QueryKey)
    (solutions : List Substitution) :
    (qc.insert lru now key solutions).stats.lookups = qc.stats.lookups := by
  unfold QueryCache.insert
  split
  · simp
  · rfl

end QueryCache

end Ipfrs.TensorLogic
