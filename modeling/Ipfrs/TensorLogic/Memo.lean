/-
Ipfrs.TensorLogic.Memo — the memoised engine (`MemoizedInferenceEngine` of
`reasoning.rs`) against the plain one.

A call looks its goal's key up in the cache and returns what it finds there; only
when nothing is found it runs the query, and it stores an answer that is not empty.
Two goals with one key are two different questions as soon as they differ in a
variable's name, in a compound argument or in the kind of a constant, or are asked of
two knowledge bases, and the second one asked gets the first one's answer.

`storing` follows which calls stored the entries of the cache. `OwnEntries` says that
no call of a run finds an entry of another question, and then `run_transparent`: the
run returns, call by call, what the plain engine returns. `ownEntries_of_keys` gives a
condition on the calls alone. Entries may expire and be evicted at any time.
-/
import Ipfrs.TensorLogic.Cache
import Ipfrs.TensorLogic.Reasoning

namespace Ipfrs.TensorLogic

open Ipfrs.Lib

/-! ## The engine -/

/-- `MemoizedInferenceEngine`; the query cache is the only part of its cache manager
that it uses. -/
structure MemoizedInferenceEngine (C : Type) where
  engine : InferenceEngine
  queryCache : QueryCache C

/-- A call: the goal, the knowledge base, and the instants at which the cache is asked
and a result is stored. -/
structure Call where
  goal : Predicate
  kb : KnowledgeBase
  asked : Nat
  stored : Nat

/-- The same goal, of the same knowledge base. -/
def Call.SameQuestion (a b : Call) : Prop := a.goal = b.goal ∧ a.kb = b.kb

/-- The key of the call's goal. -/
def Call.key (parseF64 : String → Option UInt64) (call : Call) : QueryKey :=
  QueryKey.fromPredicate parseF64 call.goal

/-- What the plain engine returns. -/
def Call.answer (engine : InferenceEngine) (fuel : Nat) (call : Call) :
    Option (List Substitution) :=
  query engine fuel call.goal call.kb

namespace MemoizedInferenceEngine

variable {C : Type} (lru : Lru C QueryKey CachedResult) (parseF64 : String → Option UInt64)
  (fuel : Nat)

/-- `MemoizedInferenceEngine::with_limits`, over a fresh cache. -/
def withLimits (maxDepth maxSolutions capacity : Nat) (ttl : Option Nat) :
    MemoizedInferenceEngine C where
  engine := { maxDepth, maxSolutions }
  queryCache := QueryCache.new lru capacity ttl

/-- `MemoizedInferenceEngine::query`. -/
def query (m : MemoizedInferenceEngine C) (call : Call) :
    Option (List Substitution × MemoizedInferenceEngine C) :=
  match m.queryCache.get lru call.asked (call.key parseF64) with
  | (some cached, queryCache) => some (cached, { m with queryCache })
  | (none, queryCache) =>
    match call.answer m.engine fuel with
    | none => none
    | some solutions =>
      if solutions.isEmpty then some (solutions, { m with queryCache })
      else
        some (solutions, { m with
          queryCache := queryCache.insert lru call.stored (call.key parseF64) solutions })

/-- The answers to a sequence of calls; a call that does not return ends it. -/
def run (m : MemoizedInferenceEngine C) :
    List Call → Option (List (List Substitution) × MemoizedInferenceEngine C)
  | [] => some ([], m)
  | call :: calls =>
    match query lru parseF64 fuel m call with
    | none => none
    | some (solutions, m') =>
      match run m' calls with
      | none => none
      | some (answers, m'') => some (solutions :: answers, m'')

/-! ## Whose entries the cache holds -/

/-- The calls that stored a result, the last one first, after one more call. -/
def storing (m : MemoizedInferenceEngine C) (call : Call) (log : List Call) : List Call :=
  match (m.queryCache.get lru call.asked (call.key parseF64)).1, call.answer m.engine fuel with
  | some _, _ => log
  | none, none => log
  | none, some [] => log
  | none, some (_ :: _) => call :: log

/-- The call that stored the entry under the key. -/
def storedBy (log : List Call) (key : QueryKey) : Option Call :=
  log.find? (fun call => call.key parseF64 = key)

/-- Whatever a call finds in the cache was stored by a call with its goal and its
knowledge base. -/
def OwnEntries (m : MemoizedInferenceEngine C) (log : List Call) : List Call → Prop
  | [] => True
  | call :: calls =>
    (∀ cached, (m.queryCache.get lru call.asked (call.key parseF64)).1 = some cached →
      ∃ earlier, storedBy parseF64 log (call.key parseF64) = some earlier ∧
        earlier.SameQuestion call) ∧
    ∀ solutions m', query lru parseF64 fuel m call = some (solutions, m') →
      OwnEntries m' (storing lru parseF64 fuel m call log) calls

/-- Every entry is the plain engine's answer to the call that stored it. -/
def Consistent (m : MemoizedInferenceEngine C) (log : List Call) : Prop :=
  m.queryCache.Stores lru (fun key solutions =>
    ∃ call, storedBy parseF64 log key = some call ∧
      call.answer m.engine fuel = some solutions)

variable {lru parseF64 fuel} {m m' : MemoizedInferenceEngine C} {call : Call} {log : List Call}
  {solutions : List Substitution}

/-- What a call can do: it hits, or it misses and finds nothing, or it misses and
stores what it finds. -/
theorem query_cases (log : List Call) (h : query lru parseF64 fuel m call = some (solutions, m')) :
    let looked := m.queryCache.get lru call.asked (call.key parseF64)
    (looked.1 = some solutions ∧ m' = { m with queryCache := looked.2 } ∧
      storing lru parseF64 fuel m call log = log) ∨
    (looked.1 = none ∧ call.answer m.engine fuel = some solutions ∧
      m' = { m with queryCache := looked.2 } ∧ storing lru parseF64 fuel m call log = log) ∨
    (looked.1 = none ∧ call.answer m.engine fuel = some solutions ∧
      m' = { m with
        queryCache := looked.2.insert lru call.stored (call.key parseF64) solutions } ∧
      storing lru parseF64 fuel m call log = call :: log) := by
  unfold query at h
  unfold storing
  generalize m.queryCache.get lru call.asked (call.key parseF64) = looked at h ⊢
  obtain ⟨found, queryCache⟩ := looked
  cases found with
  | some cached =>
    cases h
    exact .inl ⟨rfl, rfl, rfl⟩
  | none =>
    cases hanswer : call.answer m.engine fuel with
    | none => simp [hanswer] at h
    | some found =>
      rw [hanswer] at h
      cases found with
      | nil =>
        cases h
        exact .inr (.inl ⟨rfl, rfl, rfl, rfl⟩)
      | cons s rest =>
        cases h
        exact .inr (.inr ⟨rfl, rfl, rfl, rfl⟩)

theorem query_engine (h : query lru parseF64 fuel m call = some (solutions, m')) :
    m'.engine = m.engine := by
  obtain ⟨-, rfl, -⟩ | ⟨-, -, rfl, -⟩ | ⟨-, -, rfl, -⟩ := query_cases [] h <;> rfl

theorem storing_subset : ∀ c ∈ storing lru parseF64 fuel m call log, c = call ∨ c ∈ log := by
  intro c hc
  unfold storing at hc
  split at hc
  · exact .inr hc
  · exact .inr hc
  · exact .inr hc
  · exact List.mem_cons.mp hc

/-! ## One call -/

theorem consistent_new (hl : lru.Lawful) (maxDepth maxSolutions capacity : Nat) (ttl : Option Nat) :
    Consistent lru parseF64 fuel (withLimits lru maxDepth maxSolutions capacity ttl) [] :=
  QueryCache.stores_new hl capacity ttl

/-- A call keeps the entries right, whatever it asks. -/
theorem consistent_query (hl : lru.Lawful) (hc : Consistent lru parseF64 fuel m log)
    (h : query lru parseF64 fuel m call = some (solutions, m')) :
    Consistent lru parseF64 fuel m' (storing lru parseF64 fuel m call log) := by
  have hlooked := QueryCache.stores_get hl hc call.asked (call.key parseF64)
  obtain ⟨-, rfl, hlog⟩ | ⟨-, -, rfl, hlog⟩ | ⟨-, hanswer, rfl, hlog⟩ := query_cases log h
  · rw [hlog]
    exact hlooked
  · rw [hlog]
    exact hlooked
  · rw [hlog]
    refine QueryCache.stores_insert hl hlooked call.stored ⟨call, ?_, hanswer⟩ ?_
    · simp [storedBy]
    · rintro key sols hne ⟨earlier, hby, hsols⟩
      have hkey : ¬call.key parseF64 = key := fun heq => hne heq.symm
      refine ⟨earlier, ?_, hsols⟩
      simpa [storedBy, hkey] using hby

/-- A call that finds its own entry, or none, returns what the plain engine returns. -/
theorem query_answer (hc : Consistent lru parseF64 fuel m log)
    (hown : ∀ cached, (m.queryCache.get lru call.asked (call.key parseF64)).1 = some cached →
      ∃ earlier, storedBy parseF64 log (call.key parseF64) = some earlier ∧
        earlier.SameQuestion call) :
    (query lru parseF64 fuel m call).map Prod.fst = call.answer m.engine fuel := by
  cases hq : query lru parseF64 fuel m call with
  | none =>
    unfold query at hq
    split at hq
    · cases hq
    · split at hq
      · rename_i hnone
        rw [hnone]
        rfl
      · split at hq <;> cases hq
  | some result =>
    obtain ⟨solutions, m'⟩ := result
    show some solutions = call.answer m.engine fuel
    obtain ⟨hhit, -, -⟩ | ⟨-, hanswer, -, -⟩ | ⟨-, hanswer, -, -⟩ := query_cases log hq
    · obtain ⟨stored, hby, hstored⟩ := QueryCache.stores_of_get hc hhit
      obtain ⟨earlier, hby', hgoal, hkb⟩ := hown solutions hhit
      rw [hby] at hby'
      cases hby'
      rw [← hstored, Call.answer, Call.answer, hgoal, hkb]
    · exact hanswer.symm
    · exact hanswer.symm

/-! ## Runs -/

theorem run_answers (hl : lru.Lawful) {calls : List Call}
    (hc : Consistent lru parseF64 fuel m log) (hown : OwnEntries lru parseF64 fuel m log calls) :
    (run lru parseF64 fuel m calls).map Prod.fst = calls.mapM (Call.answer m.engine fuel) := by
  induction calls generalizing m log with
  | nil => rfl
  | cons call calls ih =>
    obtain ⟨hfirst, hrest⟩ := hown
    have hanswer := query_answer hc hfirst
    rw [List.mapM_cons, ← hanswer, run]
    cases hq : query lru parseF64 fuel m call with
    | none => rfl
    | some result =>
      obtain ⟨solutions, m'⟩ := result
      have hnext := ih (consistent_query hl hc hq) (hrest solutions m' hq)
      rw [query_engine hq] at hnext
      simp only [Option.map_some, ← hnext]
      cases run lru parseF64 fuel m' calls <;> rfl

/-- Calls of which no two share a key unless they ask the same thing. -/
theorem ownEntries_of_keys (hl : lru.Lawful) {calls : List Call}
    (hc : Consistent lru parseF64 fuel m log)
    (hkeys : ∀ a ∈ log ++ calls, ∀ b ∈ calls, a.key parseF64 = b.key parseF64 → a.SameQuestion b) :
    OwnEntries lru parseF64 fuel m log calls := by
  induction calls generalizing m log with
  | nil => trivial
  | cons call calls ih =>
    refine ⟨?_, ?_⟩
    · intro cached hhit
      obtain ⟨earlier, hby, -⟩ := QueryCache.stores_of_get hc hhit
      have hkey : earlier.key parseF64 = call.key parseF64 := by
        simpa using List.find?_some hby
      have hmem : earlier ∈ log := List.mem_of_find?_eq_some hby
      exact ⟨earlier, hby, hkeys earlier (List.mem_append_left _ hmem) call
        List.mem_cons_self hkey⟩
    · intro solutions m' hq
      refine ih (consistent_query hl hc hq) ?_
      intro a ha b hb
      refine hkeys a ?_ b (List.mem_cons_of_mem _ hb)
      rcases List.mem_append.mp ha with ha | ha
      · rcases storing_subset a ha with rfl | ha
        · exact List.mem_append_right _ List.mem_cons_self
        · exact List.mem_append_left _ ha
      · exact List.mem_append_right _ (List.mem_cons_of_mem _ ha)

/-- A run counts every call once, as a hit or as a miss. -/
theorem lookups_run {calls : List Call} {answers : List (List Substitution)}
    (h : run lru parseF64 fuel m calls = some (answers, m')) : m'.queryCache.stats.lookups =
      m.queryCache.stats.lookups + UInt64.ofNat calls.length := by
  induction calls generalizing m answers with
  | nil =>
    cases h
    simp
  | cons call calls ih =>
    rw [run] at h
    split at h
    · cases h
    · rename_i solutions m1 hq
      split at h
      · cases h
      · rename_i rest m2 hr
        cases h
        have hone : m1.queryCache.stats.lookups = m.queryCache.stats.lookups + 1 := by
          obtain ⟨-, rfl, -⟩ | ⟨-, -, rfl, -⟩ | ⟨-, -, rfl, -⟩ := query_cases [] hq
          · exact QueryCache.lookups_get _ _ _
          · exact QueryCache.lookups_get _ _ _
          · rw [QueryCache.lookups_insert]
            exact QueryCache.lookups_get _ _ _
        rw [ih hr, hone, List.length_cons, UInt64.ofNat_add, UInt64.add_assoc,
          UInt64.add_comm 1]
        rfl

end MemoizedInferenceEngine

open MemoizedInferenceEngine

/-- In a run in which no call finds an entry of another question, every call returns
what `InferenceEngine::query` returns. -/
theorem run_transparent {C : Type} (lru : Lru C QueryKey CachedResult) (hl : lru.Lawful)
    (parseF64 : String → Option UInt64) (fuel maxDepth maxSolutions capacity : Nat)
    (ttl : Option Nat) (calls : List Call)
    (hown : OwnEntries lru parseF64 fuel (withLimits lru maxDepth maxSolutions capacity ttl) []
      calls) : (run lru parseF64 fuel (withLimits lru maxDepth maxSolutions capacity ttl) calls).map
        Prod.fst =
      calls.mapM (fun call => query { maxDepth, maxSolutions } fuel call.goal call.kb) :=
  run_answers hl (consistent_new hl maxDepth maxSolutions capacity ttl) hown

/-- One fact, `p(a)`. -/
def onlyA : KnowledgeBase where
  facts := [⟨"p", [.const (.string "a")]⟩]

def callOf (t : Term) (asked : Nat) : Call where
  goal := ⟨"p", [t]⟩
  kb := onlyA
  asked := asked
  stored := asked

theorem run_transparent_sample :
    (run (recency QueryKey CachedResult) (fun _ => none) 4
        (withLimits (recency QueryKey CachedResult) 100 100 10000 none)
        [callOf (.var "X") 0, callOf (.const (.string "b")) 1, callOf (.var "X") 2]).map
          Prod.fst =
      some [[[("X", .const (.string "a"))]], [], [[("X", .const (.string "a"))]]] := by
  have hl := recency_lawful QueryKey CachedResult
  have h := run_transparent (recency QueryKey CachedResult) hl (fun _ => none) 4 100 100 10000
    none [callOf (.var "X") 0, callOf (.const (.string "b")) 1, callOf (.var "X") 2]
    (ownEntries_of_keys hl (consistent_new hl 100 100 10000 none) (by
      intro a ha b hb
      simp only [List.nil_append, List.mem_cons, List.not_mem_nil, or_false] at ha hb
      rcases ha with rfl | rfl | rfl <;> rcases hb with rfl | rfl | rfl <;>
        simp [callOf, Call.key, Call.SameQuestion, QueryKey.fromPredicate, GroundArg.ofTerm]))
  rw [h]
  decide

theorem lookups_run_sample : ∃ answers m', run (recency QueryKey CachedResult) (fun _ => none) 4
      (withLimits (recency QueryKey CachedResult) 100 100 10000 none)
      [callOf (.var "X") 0, callOf (.var "X") 1] = some (answers, m')
    ∧ m'.queryCache.stats.lookups = 2 := by
  obtain ⟨⟨answers, m'⟩, h⟩ := Option.isSome_iff_exists.mp (by decide :
    (run (recency QueryKey CachedResult) (fun _ => none) 4
      (withLimits (recency QueryKey CachedResult) 100 100 10000 none)
      [callOf (.var "X") 0, callOf (.var "X") 1]).isSome = true)
  exact ⟨answers, m', h, lookups_run h⟩

/-- `p(X)` is asked first, `p(f(b))` has its key and gets its answer. -/
theorem run_answers_another_goal :
    (run (recency QueryKey CachedResult) (fun _ => none) 4
        (withLimits (recency QueryKey CachedResult) 100 100 10000 none)
        [callOf (.var "X") 0, callOf (.func "f" [.const (.string "b")]) 1]).map Prod.fst =
      some [[[("X", .const (.string "a"))]], [[("X", .const (.string "a"))]]] ∧
    query { maxDepth := 100, maxSolutions := 100 } 4
      ⟨"p", [.func "f" [.const (.string "b")]]⟩ onlyA = some [] := by
  decide

end Ipfrs.TensorLogic
