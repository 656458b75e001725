/-
Ipfrs.TensorLogic.Reasoning — the inference engine (`InferenceEngine` of
`reasoning.rs`).

`solve_goal` and `solve_conjunction` thread one substitution through goals and rule
bodies and push what they find onto a list of solutions; `prove_goal` and
`prove_conjunction` search for one proof; `verify` checks a proof tree. The
recursion of the search is bounded by `max_depth`: `levels` counts the depths that
are left, so `max_depth + 1 - depth` of them, and a goal with none left is not
tried. No call returns an error. The outer `none` is a unification that the given
recursion depth did not finish. Cycle detection is a setting that nothing reads.
-/
import Ipfrs.TensorLogic.Unify

namespace Ipfrs.TensorLogic

/-- `InferenceEngine`, with the settings of `InferenceEngine::new`. -/
structure InferenceEngine where
  maxDepth : Nat := 100
  maxSolutions : Nat := 100
  cycleDetection : Bool := true

/-! ## Queries -/

/-- The loop over the facts; `true` when it returned at the solution limit. -/
def solveFacts (fuel maxSolutions : Nat) (goal : Predicate) (s : Substitution) :
    List Predicate → List Substitution → Option (Bool × List Substitution)
  | [], solutions => some (false, solutions)
  | fact :: facts, solutions =>
    match unifyPredicates fuel goal fact s with
    | none => none
    | some none => solveFacts fuel maxSolutions goal s facts solutions
    | some (some s') =>
      if (solutions ++ [s']).length ≥ maxSolutions then some (true, solutions ++ [s'])
      else solveFacts fuel maxSolutions goal s facts (solutions ++ [s'])

/-- The loop over the rules; `solveBody` is `solve_conjunction` one level down. -/
def solveRules
    (solveBody : List Predicate → Substitution → List Substitution → Option (List Substitution))
    (fuel depth : Nat) (goal : Predicate) (s : Substitution) :
    List Rule → List Substitution → Option (List Substitution)
  | [], solutions => some solutions
  | rule :: rules, solutions =>
    let renamed := renameRuleVars rule depth
    match unifyPredicates fuel goal renamed.head s with
    | none => none
    | some none => solveRules solveBody fuel depth goal s rules solutions
    | some (some s') =>
      match solveBody renamed.body s' solutions with
      | none => none
      | some solutions' => solveRules solveBody fuel depth goal s rules solutions'

/-- The loop over the solutions of the first goal of a conjunction. -/
def solveEach (solveRest : Substitution → List Substitution → Option (List Substitution))
    (maxSolutions : Nat) :
    List Substitution → List Substitution → Option (List Substitution)
  | [], solutions => some solutions
  | s :: intermediate, solutions =>
    if solutions.length ≥ maxSolutions then some solutions
    else
      match solveRest s solutions with
      | none => none
      | some solutions' => solveEach solveRest maxSolutions intermediate solutions'

/-- `solve_conjunction`, over the `solve_goal` of its depth. -/
def solveConjunction
    (solveGoal : Predicate → Substitution → List Substitution → Option (List Substitution))
    (maxSolutions : Nat) :
    List Predicate → Substitution → List Substitution → Option (List Substitution)
  | [], s, solutions => some (solutions ++ [s])
  | goal :: goals, s, solutions =>
    match solveGoal goal s [] with
    | none => none
    | some intermediate =>
      solveEach (solveConjunction solveGoal maxSolutions goals) maxSolutions intermediate
        solutions

/-- `solve_goal`. -/
def solveGoal (engine : InferenceEngine) (kb : KnowledgeBase) (fuel : Nat) :
    Nat → Nat → Predicate → Substitution → List Substitution → Option (List Substitution)
  | 0, _, _, _, solutions => some solutions
  | levels + 1, depth, goal, s, solutions =>
    if solutions.length ≥ engine.maxSolutions then some solutions
    else
      let goal := applySubstPredicate s goal
      match solveFacts fuel engine.maxSolutions goal s (kb.getPredicates goal.name)
        solutions with
      | none => none
      | some (true, solutions) => some solutions
      | some (false, solutions) =>
        solveRules
          (solveConjunction (solveGoal engine kb fuel levels (depth + 1))
            engine.maxSolutions)
          fuel depth goal s (kb.getRules goal.name) solutions

/-- `InferenceEngine::query`. -/
def query (engine : InferenceEngine) (fuel : Nat) (goal : Predicate) (kb : KnowledgeBase) :
    Option (List Substitution) :=
  solveGoal engine kb fuel (engine.maxDepth + 1) 0 goal [] []

/-! ## Proofs -/

/-- `ProofRule`. -/
structure ProofRule where
  head : Predicate
  body : List Predicate
  isFact : Bool

/-- `Proof`. -/
inductive Proof where
  | mk (goal : Predicate) (rule : Option ProofRule) (subproofs : List Proof)

namespace Proof

def goal : Proof → Predicate
  | .mk goal _ _ => goal

def rule : Proof → Option ProofRule
  | .mk _ rule _ => rule

def subproofs : Proof → List Proof
  | .mk _ _ subproofs => subproofs

/-- `Proof::fact`. -/
def fact (goal : Predicate) : Proof :=
  .mk goal (some { head := goal, body := [], isFact := true }) []

/-- `Proof::from_rule`. -/
def fromRule (goal : Predicate) (rule : Rule) (subproofs : List Proof) : Proof :=
  .mk goal (some { head := rule.head, body := rule.body, isFact := false }) subproofs

end Proof

/-- The loop over the facts: whether one of them unifies with the goal. -/
def proveFacts (fuel : Nat) (goal : Predicate) (s : Substitution) :
    List Predicate → Option Bool
  | [] => some false
  | fact :: facts =>
    match unifyPredicates fuel goal fact s with
    | none => none
    | some none => proveFacts fuel goal s facts
    | some (some _) => some true

/-- The loop over the rules; `proveBody` is `prove_conjunction` one level down. -/
def proveRules (proveBody : List Predicate → Substitution → Option (Option (List Proof)))
    (fuel depth : Nat) (goal : Predicate) (s : Substitution) :
    List Rule → Option (Option Proof)
  | [] => some none
  | rule :: rules =>
    let renamed := renameRuleVars rule depth
    match unifyPredicates fuel goal renamed.head s with
    | none => none
    | some none => proveRules proveBody fuel depth goal s rules
    | some (some s') =>
      match proveBody renamed.body s' with
      | none => none
      | some none => proveRules proveBody fuel depth goal s rules
      | some (some subproofs) => some (some (Proof.fromRule goal renamed subproofs))

/-- `prove_conjunction`: every goal is proved under the same substitution. -/
def proveConjunction (proveGoal : Predicate → Substitution → Option (Option Proof)) :
    List Predicate → Substitution → Option (Option (List Proof))
  | [], _ => some (some [])
  | goal :: goals, s =>
    match proveGoal goal s with
    | none => none
    | some none => some none
    | some (some first) =>
      match proveConjunction proveGoal goals s with
      | none => none
      | some none => some none
      | some (some rest) => some (some (first :: rest))

/-- `prove_goal`. -/
def proveGoal (kb : KnowledgeBase) (fuel : Nat) :
    Nat → Nat → Predicate → Substitution → Option (Option Proof)
  | 0, _, _, _ => some none
  | levels + 1, depth, goal, s =>
    let goal := applySubstPredicate s goal
    match proveFacts fuel goal s (kb.getPredicates goal.name) with
    | none => none
    | some true => some (some (Proof.fact goal))
    | some false =>
      proveRules (proveConjunction (proveGoal kb fuel levels (depth + 1))) fuel depth goal s
        (kb.getRules goal.name)

/-- The rule check of `verify_proof_recursive`: names and numbers of arguments. -/
def rulesMatch (kbRule : Rule) (rule : ProofRule) : Bool :=
  kbRule.head.name == rule.head.name
    && kbRule.head.args.length == rule.head.args.length
    && kbRule.body.length == rule.body.length
    && (kbRule.body.zip rule.body).all (fun e =>
      e.1.name == e.2.name && e.1.args.length == e.2.args.length)

mutual

/-- `verify_proof_recursive`. -/
def verifyProof (engine : InferenceEngine) (kb : KnowledgeBase) (fuel : Nat) :
    Nat → Proof → Option Bool
  | depth, .mk goal rule subproofs =>
    if depth > engine.maxDepth then some false
    else
      match rule with
      | none => some false
      | some rule =>
        if rule.isFact then proveFacts fuel goal [] (kb.getPredicates goal.name)
        else if !(kb.getRules goal.name).any (fun kbRule => rulesMatch kbRule rule) then
          some false
        else if subproofs.length ≠ rule.body.length then some false
        else verifySubproofs engine kb fuel (depth + 1) rule.body subproofs

/-- The loop over the subproofs and the body predicates they stand for. -/
def verifySubproofs (engine : InferenceEngine) (kb : KnowledgeBase) (fuel : Nat) :
    Nat → List Predicate → List Proof → Option Bool
  | _, _, [] => some true
  | _, [], _ :: _ => some true
  | depth, bodyPredicate :: body, subproof :: subproofs =>
    if subproof.goal.name ≠ bodyPredicate.name then some false
    else
      match verifyProof engine kb fuel depth subproof with
      | none => none
      | some false => some false
      | some true => verifySubproofs engine kb fuel depth body subproofs

end

/-- `InferenceEngine::verify`. -/
def verify (engine : InferenceEngine) (fuel : Nat) (proof : Proof) (kb : KnowledgeBase) :
    Option Bool :=
  verifyProof engine kb fuel 0 proof

end Ipfrs.TensorLogic
