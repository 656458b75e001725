/-
Ipfrs.TensorLogic.QueryTrace — the steps of a query.

The engine keeps no record of what it does. A property of every step of a run
speaks about this one: the bindings that the unifications of the run insert, each
with the substitution it is inserted into and whether goals of some rule body are
still waiting behind the goal being solved, and the length of a solution list after
every push. Each function follows the function of the engine it is named after,
with the engine's own results deciding where the run goes.
-/
import Ipfrs.TensorLogic.Reasoning

namespace Ipfrs.TensorLogic

/-- An insertion made by `unify`: `term` for `var`, into `before`. -/
structure Binding where
  var : String
  term : Term
  before : Substitution
  deriving DecidableEq

/-- A step of a query. -/
inductive Event where
  | bound (waiting : Bool) (b : Binding)
  | pushed (length : Nat)
  deriving DecidableEq

/-! ## The bindings of a unification -/

def unifyVarBindings (v : String) (t : Term) (s : Substitution) : List Binding :=
  if isVarNamed v t then [] else if occursIn v t then [] else [⟨v, t, s⟩]

def unifyArgsBindings (unify : Term → Term → Substitution → Option (Option Substitution))
    (bindings : Term → Term → Substitution → List Binding) :
    List Term → List Term → Substitution → List Binding
  | a1 :: args1, a2 :: args2, s =>
    bindings a1 a2 s ++
      match unify a1 a2 s with
      | none => []
      | some none => []
      | some (some s') => unifyArgsBindings unify bindings args1 args2 s'
  | [], _, _ => []
  | _ :: _, [], _ => []

def unifyBindings : Nat → Term → Term → Substitution → List Binding
  | 0, _, _, _ => []
  | fuel + 1, t1, t2, s =>
    match applySubstTerm s t1, applySubstTerm s t2 with
    | .var v, t => unifyVarBindings v t s
    | t, .var v => unifyVarBindings v t s
    | .func f1 args1, .func f2 args2 =>
      if f1 = f2 ∧ args1.length = args2.length then
        unifyArgsBindings (unify fuel) (unifyBindings fuel) args1 args2 s
      else []
    | _, _ => []

def unifyPredicatesBindings (fuel : Nat) (p1 p2 : Predicate) (s : Substitution) :
    List Binding :=
  if p1.name ≠ p2.name ∨ p1.args.length ≠ p2.args.length then []
  else unifyArgsBindings (unify fuel) (unifyBindings fuel) p1.args p2.args s

/-! ## The events of a query -/

def solveFactsEvents (waiting : Bool) (fuel maxSolutions : Nat) (goal : Predicate)
    (s : Substitution) : List Predicate → List Substitution → List Event
  | [], _ => []
  | fact :: facts, solutions =>
    (unifyPredicatesBindings fuel goal fact s).map (Event.bound waiting) ++
      match unifyPredicates fuel goal fact s with
      | none => []
      | some none => solveFactsEvents waiting fuel maxSolutions goal s facts solutions
      | some (some s') =>
        .pushed (solutions ++ [s']).length ::
          if (solutions ++ [s']).length ≥ maxSolutions then []
          else solveFactsEvents waiting fuel maxSolutions goal s facts (solutions ++ [s'])

def solveRulesEvents
    (solveBody : List Predicate → Substitution → List Substitution → Option (List Substitution))
    (bodyEvents : List Predicate → Substitution → List Substitution → List Event)
    (waiting : Bool) (fuel depth : Nat) (goal : Predicate) (s : Substitution) :
    List Rule → List Substitution → List Event
  | [], _ => []
  | rule :: rules, solutions =>
    let renamed := renameRuleVars rule depth
    (unifyPredicatesBindings fuel goal renamed.head s).map (Event.bound waiting) ++
      match unifyPredicates fuel goal renamed.head s with
      | none => []
      | some none =>
        solveRulesEvents solveBody bodyEvents waiting fuel depth goal s rules solutions
      | some (some s') =>
        bodyEvents renamed.body s' solutions ++
          match solveBody renamed.body s' solutions with
          | none => []
          | some solutions' =>
            solveRulesEvents solveBody bodyEvents waiting fuel depth goal s rules solutions'

def solveEachEvents (solveRest : Substitution → List Substitution → Option (List Substitution))
    (restEvents : Substitution → List Substitution → List Event) (maxSolutions : Nat) :
    List Substitution → List Substitution → List Event
  | [], _ => []
  | s :: intermediate, solutions =>
    if solutions.length ≥ maxSolutions then []
    else
      restEvents s solutions ++
        match solveRest s solutions with
        | none => []
        | some solutions' =>
          solveEachEvents solveRest restEvents maxSolutions intermediate solutions'

/-- A goal of a conjunction is solved while the goals after it wait. -/
def solveConjunctionEvents
    (solveGoal : Predicate → Substitution → List Substitution → Option (List Substitution))
    (goalEvents : Bool → Predicate → Substitution → List Substitution → List Event)
    (maxSolutions : Nat) (waiting : Bool) :
    List Predicate → Substitution → List Substitution → List Event
  | [], s, solutions => [.pushed (solutions ++ [s]).length]
  | goal :: goals, s, solutions =>
    goalEvents (waiting || !goals.isEmpty) goal s [] ++
      match solveGoal goal s [] with
      | none => []
      | some intermediate =>
        solveEachEvents (solveConjunction solveGoal maxSolutions goals)
          (solveConjunctionEvents solveGoal goalEvents maxSolutions waiting goals)
          maxSolutions intermediate solutions

def solveGoalEvents (engine : InferenceEngine) (kb : KnowledgeBase) (fuel : Nat) :
    Nat → Nat → Bool → Predicate → Substitution → List Substitution → List Event
  | 0, _, _, _, _, _ => []
  | levels + 1, depth, waiting, goal, s, solutions =>
    if solutions.length ≥ engine.maxSolutions then []
    else
      let goal := applySubstPredicate s goal
      solveFactsEvents waiting fuel engine.maxSolutions goal s (kb.getPredicates goal.name)
          solutions ++
        match solveFacts fuel engine.maxSolutions goal s (kb.getPredicates goal.name)
          solutions with
        | none => []
        | some (true, _) => []
        | some (false, solutions) =>
          solveRulesEvents
            (solveConjunction (solveGoal engine kb fuel levels (depth + 1))
              engine.maxSolutions)
            (solveConjunctionEvents (solveGoal engine kb fuel levels (depth + 1))
              (solveGoalEvents engine kb fuel levels (depth + 1)) engine.maxSolutions
              waiting)
            waiting fuel depth goal s (kb.getRules goal.name) solutions

/-- The steps of `query`. -/
def queryEvents (engine : InferenceEngine) (fuel : Nat) (goal : Predicate)
    (kb : KnowledgeBase) : List Event :=
  solveGoalEvents engine kb fuel (engine.maxDepth + 1) 0 false goal [] []

/-- A list of solutions stays below the limit at this step. -/
def Event.Below (limit : Nat) : Event → Prop
  | .bound _ _ => True
  | .pushed length => length < limit

instance (limit : Nat) (e : Event) : Decidable (e.Below limit) :=
  match e with
  | .bound _ _ => inferInstanceAs (Decidable True)
  | .pushed length => inferInstanceAs (Decidable (length < limit))

/-- No solution list of the run reaches the limit; the lists start empty. -/
def NeverFull (engine : InferenceEngine) (events : List Event) : Prop :=
  0 < engine.maxSolutions ∧ ∀ e ∈ events, e.Below engine.maxSolutions

instance (engine : InferenceEngine) (events : List Event) : Decidable (NeverFull engine events) :=
  inferInstanceAs (Decidable (_ ∧ _))

/-! ## One step of each loop

What a call that returns has done first, with a property `P` of its events split
accordingly. -/

section

variable {P : Event → Prop} {waiting : Bool} {fuel limit depth : Nat} {goal : Predicate}
  {s : Substitution} {solutions solutions' : List Substitution}

/-- The bindings of a unification, as they stand in the trace. -/
theorem forall_bound {bindings : List Binding} {events : List Event}
    (h : ∀ e ∈ bindings.map (Event.bound waiting) ++ events, P e) :
    (∀ b ∈ bindings, P (.bound waiting b)) ∧ ∀ e ∈ events, P e := by
  obtain ⟨hb, he⟩ := List.forall_mem_append.mp h
  exact ⟨fun b hm => hb _ (List.mem_map_of_mem hm), he⟩

/-- The fact does not unify, or its substitution is pushed and the loop ends at the
limit or goes on. -/
theorem solveFacts_cons {fact : Predicate} {facts : List Predicate} {full : Bool}
    (h : solveFacts fuel limit goal s (fact :: facts) solutions = some (full, solutions'))
    (hP : ∀ e ∈ solveFactsEvents waiting fuel limit goal s (fact :: facts) solutions, P e) :
    (∀ b ∈ unifyPredicatesBindings fuel goal fact s, P (.bound waiting b)) ∧
    ((unifyPredicates fuel goal fact s = some none ∧
        solveFacts fuel limit goal s facts solutions = some (full, solutions') ∧
        ∀ e ∈ solveFactsEvents waiting fuel limit goal s facts solutions, P e) ∨
      ∃ s1, unifyPredicates fuel goal fact s = some (some s1) ∧
        P (.pushed (solutions ++ [s1]).length) ∧
        ((limit ≤ (solutions ++ [s1]).length ∧ solutions' = solutions ++ [s1]) ∨
          ((solutions ++ [s1]).length < limit ∧
            solveFacts fuel limit goal s facts (solutions ++ [s1]) = some (full, solutions') ∧
            ∀ e ∈ solveFactsEvents waiting fuel limit goal s facts (solutions ++ [s1]), P e))) := by
  rw [solveFacts] at h
  rw [solveFactsEvents] at hP
  obtain ⟨hbind, hP⟩ := forall_bound hP
  refine ⟨hbind, ?_⟩
  cases hu : unifyPredicates fuel goal fact s with
  | none => simp [hu] at h
  | some r =>
    cases r with
    | none =>
      simp only [hu] at h hP
      exact .inl ⟨rfl, h, hP⟩
    | some s1 =>
      simp only [hu] at h hP
      obtain ⟨hpush, hP⟩ := List.forall_mem_cons.mp hP
      refine .inr ⟨s1, rfl, hpush, ?_⟩
      split at h
      · next hfull =>
        cases h
        exact .inl ⟨hfull, rfl⟩
      · next hnot =>
        rw [if_neg hnot] at hP
        exact .inr ⟨Nat.not_le.mp hnot, h, hP⟩

/-- The head does not unify, or the body is solved; then the loop goes on. -/
theorem solveRules_cons
    {solveBody : List Predicate → Substitution → List Substitution → Option (List Substitution)}
    {bodyEvents : List Predicate → Substitution → List Substitution → List Event}
    {rule : Rule} {rules : List Rule}
    (h : solveRules solveBody fuel depth goal s (rule :: rules) solutions = some solutions')
    (hP : ∀ e ∈ solveRulesEvents solveBody bodyEvents waiting fuel depth goal s (rule :: rules)
      solutions, P e) : (∀ b ∈ unifyPredicatesBindings fuel goal (renameRuleVars rule depth).head s,
      P (.bound waiting b)) ∧
    ((unifyPredicates fuel goal (renameRuleVars rule depth).head s = some none ∧
        solveRules solveBody fuel depth goal s rules solutions = some solutions' ∧
        ∀ e ∈ solveRulesEvents solveBody bodyEvents waiting fuel depth goal s rules solutions,
          P e) ∨ ∃ s1 solutions1,
        unifyPredicates fuel goal (renameRuleVars rule depth).head s = some (some s1) ∧
        solveBody (renameRuleVars rule depth).body s1 solutions = some solutions1 ∧
        (∀ e ∈ bodyEvents (renameRuleVars rule depth).body s1 solutions, P e) ∧
        solveRules solveBody fuel depth goal s rules solutions1 = some solutions' ∧
        ∀ e ∈ solveRulesEvents solveBody bodyEvents waiting fuel depth goal s rules solutions1,
          P e) := by
  rw [solveRules] at h
  rw [solveRulesEvents] at hP
  obtain ⟨hbind, hP⟩ := forall_bound hP
  refine ⟨hbind, ?_⟩
  cases hu : unifyPredicates fuel goal (renameRuleVars rule depth).head s with
  | none => simp [hu] at h
  | some r =>
    cases r with
    | none =>
      simp only [hu] at h hP
      exact .inl ⟨rfl, h, hP⟩
    | some s1 =>
      simp only [hu] at h hP
      obtain ⟨hbody, hP⟩ := List.forall_mem_append.mp hP
      cases hb : solveBody (renameRuleVars rule depth).body s1 solutions with
      | none => simp [hb] at h
      | some solutions1 =>
        simp only [hb] at h hP
        exact .inr ⟨s1, solutions1, rfl, hb, hbody, h, hP⟩

/-- The loop over the intermediate solutions ends at the limit, or solves the rest of
the goals under the next one and goes on. -/
theorem solveEach_cons {solveRest : Substitution → List Substitution → Option (List Substitution)}
    {restEvents : Substitution → List Substitution → List Event} {intermediate : List Substitution}
    (h : solveEach solveRest limit (s :: intermediate) solutions = some solutions')
    (hP : ∀ e ∈ solveEachEvents solveRest restEvents limit (s :: intermediate) solutions, P e) :
    (limit ≤ solutions.length ∧ solutions' = solutions) ∨
      (solutions.length < limit ∧ ∃ solutions1, solveRest s solutions = some solutions1 ∧
        (∀ e ∈ restEvents s solutions, P e) ∧
        solveEach solveRest limit intermediate solutions1 = some solutions' ∧
        ∀ e ∈ solveEachEvents solveRest restEvents limit intermediate solutions1, P e) := by
  rw [solveEach] at h
  rw [solveEachEvents] at hP
  split at h
  · next hfull =>
    cases h
    exact .inl ⟨hfull, rfl⟩
  · next hnot =>
    rw [if_neg hnot] at hP
    obtain ⟨hrest, hP⟩ := List.forall_mem_append.mp hP
    cases hr : solveRest s solutions with
    | none => simp [hr] at h
    | some solutions1 =>
      simp only [hr] at h hP
      exact .inr ⟨Nat.not_le.mp hnot, solutions1, rfl, hrest, h, hP⟩

/-- The first goal is solved on its own list, then the rest under each of its
solutions. -/
theorem solveConjunction_cons
    {solve : Predicate → Substitution → List Substitution → Option (List Substitution)}
    {events : Bool → Predicate → Substitution → List Substitution → List Event}
    {goals : List Predicate}
    (h : solveConjunction solve limit (goal :: goals) s solutions = some solutions')
    (hP : ∀ e ∈ solveConjunctionEvents solve events limit waiting (goal :: goals) s solutions,
      P e) : ∃ intermediate, solve goal s [] = some intermediate ∧
      (∀ e ∈ events (waiting || !goals.isEmpty) goal s [], P e) ∧
      solveEach (solveConjunction solve limit goals) limit intermediate solutions
        = some solutions' ∧ ∀ e ∈ solveEachEvents (solveConjunction solve limit goals)
        (solveConjunctionEvents solve events limit waiting goals) limit intermediate solutions,
        P e := by
  rw [solveConjunction] at h
  rw [solveConjunctionEvents] at hP
  obtain ⟨hgoal, hP⟩ := List.forall_mem_append.mp hP
  cases hs : solve goal s [] with
  | none => simp [hs] at h
  | some intermediate =>
    simp only [hs] at h hP
    exact ⟨intermediate, rfl, hgoal, h, hP⟩

/-- A goal is not tried at the limit; otherwise the facts come first, and the rules
unless the facts have reached the limit. -/
theorem solveGoal_succ {engine : InferenceEngine} {kb : KnowledgeBase} {levels : Nat}
    (h : solveGoal engine kb fuel (levels + 1) depth goal s solutions = some solutions')
    (hP : ∀ e ∈ solveGoalEvents engine kb fuel (levels + 1) depth waiting goal s solutions, P e) :
    let goal := applySubstPredicate s goal
    (engine.maxSolutions ≤ solutions.length ∧ solutions' = solutions) ∨
      (solutions.length < engine.maxSolutions ∧ ∃ full solutions1,
        solveFacts fuel engine.maxSolutions goal s (kb.getPredicates goal.name) solutions
          = some (full, solutions1) ∧
        (∀ e ∈ solveFactsEvents waiting fuel engine.maxSolutions goal s
          (kb.getPredicates goal.name) solutions, P e) ∧
        ((full = true ∧ solutions' = solutions1) ∨
          (full = false ∧
            solveRules (solveConjunction (solveGoal engine kb fuel levels (depth + 1))
              engine.maxSolutions) fuel depth goal s (kb.getRules goal.name) solutions1
              = some solutions' ∧
            ∀ e ∈ solveRulesEvents (solveConjunction (solveGoal engine kb fuel levels (depth + 1))
              engine.maxSolutions)
              (solveConjunctionEvents (solveGoal engine kb fuel levels (depth + 1))
                (solveGoalEvents engine kb fuel levels (depth + 1)) engine.maxSolutions waiting)
              waiting fuel depth goal s (kb.getRules goal.name) solutions1, P e))) := by
  rw [solveGoal] at h
  rw [solveGoalEvents] at hP
  split at h
  · next hfull =>
    cases h
    exact .inl ⟨hfull, rfl⟩
  · next hnot =>
    rw [if_neg hnot] at hP
    obtain ⟨hfacts, hP⟩ := List.forall_mem_append.mp hP
    refine .inr ⟨Nat.not_le.mp hnot, ?_⟩
    dsimp only at h hP
    split at h
    · cases h
    · next solutions1 hf =>
      cases h
      exact ⟨true, solutions', hf, hfacts, .inl ⟨rfl, rfl⟩⟩
    · next solutions1 hf =>
      simp only [hf] at hP
      exact ⟨false, solutions1, hf, hfacts, .inr ⟨rfl, h, hP⟩⟩

end

end Ipfrs.TensorLogic
