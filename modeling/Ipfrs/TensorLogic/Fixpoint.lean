/-
Ipfrs.TensorLogic.Fixpoint — forward chaining (`FixpointEngine` of
`recursive_reasoning.rs`).

Each iteration runs every rule over the facts there are and adds the heads that are not
among them; the loop ends when there are none, or after `max_iterations`. A body is
solved by backward chaining: each goal is unified with the facts and with the heads of
renamed rules, whose bodies then go before the goals that are left. The same limit bounds
the depth of this search, so `max_iterations + 1 - depth` levels are left at a depth. A
`HashOrder` for each iteration stands for the order of the set of names. The outer `none`
is a unification that the given recursion depth did not finish.

The engine keeps no record of the bindings that lead to its solutions;
`fixpointBindings` lists them, function by function.
-/
import Ipfrs.TensorLogic.QueryTrace
import Ipfrs.TensorLogic.Stratification

namespace Ipfrs.TensorLogic

open Ipfrs.Core Ipfrs.Lib

/-- `FixpointEngine`, with the limit of `FixpointEngine::new`. -/
structure FixpointEngine where
  maxIterations : Nat := 100

/-! ## Renaming -/

/-- `format!("{}__fp{}", v, suffix)`. -/
def fixpointVar (v : String) (suffix : Nat) : String := v ++ "__fp" ++ toString suffix

/-- `rename_subst` of `rename_rule_fixpoint`. -/
def fixpointSubst (vars : List String) (suffix : Nat) : Substitution :=
  SortedAssoc.ofEntries (vars.map (fun v => (v, .var (fixpointVar v suffix))))

/-- `rename_rule_fixpoint`. -/
def renameRuleFixpoint (rule : Rule) (suffix : Nat) : Rule :=
  let subst := fixpointSubst rule.vars suffix
  { head := applySubstPredicate subst rule.head
    body := rule.body.map (applySubstPredicate subst) }

/-! ## Bodies -/

/-- The body of both loops of `solve_body`. `branch` gives, for a candidate and the number
of solutions so far, what the goal is unified with and the goals that are solved next. -/
def solveBranches {α : Type} (fuel : Nat) (branch : α → Nat → Predicate × List Predicate)
    (solve : List Predicate → Substitution → Option (List Substitution)) (goal : Predicate)
    (s : Substitution) : List α → List Substitution → Option (List Substitution)
  | [], solutions => some solutions
  | c :: cs, solutions =>
    let (target, goals) := branch c solutions.length
    match unifyPredicates fuel goal target s with
    | none => none
    | some none => solveBranches fuel branch solve goal s cs solutions
    | some (some s') =>
      match solve goals s' with
      | none => none
      | some tail => solveBranches fuel branch solve goal s cs (solutions ++ tail)

/-- A fact leaves the rest of the goals. -/
def factBranch (rest : List Predicate) (fact : Predicate) (_ : Nat) :
    Predicate × List Predicate :=
  (fact, rest)

/-- A rule leaves its body and the rest of the goals. -/
def ruleBranch (depth : Nat) (rest : List Predicate) (rule : Rule) (found : Nat) :
    Predicate × List Predicate :=
  let renamed := renameRuleFixpoint rule (depth * 1000 + found)
  (renamed.head, renamed.body ++ rest)

/-- `solve_body`. -/
def solveBody (kb : KnowledgeBase) (fuel : Nat) :
    Nat → Nat → List Predicate → Substitution → Option (List Substitution)
  | 0, _, _, _ => some []
  | _ + 1, _, [], s => some [s]
  | levels + 1, depth, goal :: rest, s =>
    let goal := applySubstPredicate s goal
    match solveBranches fuel (factBranch rest) (solveBody kb fuel levels (depth + 1)) goal s
      (kb.getPredicates goal.name) [] with
    | none => none
    | some solutions =>
      solveBranches fuel (ruleBranch depth rest) (solveBody kb fuel levels (depth + 1)) goal
        s (kb.getRules goal.name) solutions

/-! ## Iterations -/

def isVariable : Term → Bool
  | .var _ => true
  | .const _ => false
  | .func _ _ => false
  | .ref _ => false

/-- `has_variables`: whether an argument is a variable; applications are not looked into. -/
def hasVariables (p : Predicate) : Bool := p.args.any isVariable

namespace FixpointEngine

def deriveFactsFromRule (engine : FixpointEngine) (fuel : Nat) (rule : Rule)
    (kb : KnowledgeBase) : Option (List Predicate) :=
  match solveBody kb fuel (engine.maxIterations + 1) 0 rule.body [] with
  | none => none
  | some solutions =>
    some ((solutions.map (fun s => applySubstPredicate s rule.head)).filter
      (fun head => !hasVariables head))

/-- `new_facts` of one iteration: what the rules derive and the facts do not contain. -/
def newFacts (engine : FixpointEngine) (fuel : Nat) (kb : KnowledgeBase) :
    List Rule → Option (List Predicate)
  | [] => some []
  | rule :: rules =>
    match engine.deriveFactsFromRule fuel rule kb with
    | none => none
    | some derived =>
      match newFacts engine fuel kb rules with
      | none => none
      | some later => some (derived.filter (fun fact => !kb.facts.contains fact) ++ later)

/-- The rules in the order of an iteration: name by name. -/
def rulesInOrder (names : HashOrder) (kb : KnowledgeBase) : List Rule :=
  (names.order (kb.rules.map (fun r => r.head.name)).dedup).flatMap kb.getRules

/-- The loop with so many iterations left. The flag says that it ended because nothing
changed: `changed` is set with each new fact. -/
def iterate (engine : FixpointEngine) (fuel : Nat) (names : Nat → HashOrder) :
    Nat → KnowledgeBase → Option (KnowledgeBase × Bool)
  | 0, kb => some (kb, false)
  | left + 1, kb =>
    match engine.newFacts fuel kb (rulesInOrder (names left) kb) with
    | none => none
    | some [] => some (kb, true)
    | some (fact :: facts) =>
      iterate engine fuel names left { kb with facts := kb.facts ++ fact :: facts }

/-- `compute_fixpoint`. -/
def computeFixpoint (engine : FixpointEngine) (fuel : Nat) (names : Nat → HashOrder)
    (kb : KnowledgeBase) : Option (KnowledgeBase × Bool) :=
  engine.iterate fuel names engine.maxIterations kb

end FixpointEngine

/-! ## The bindings of a run -/

/-- The bindings of a unification count when solutions follow from it. -/
def solveBranchesBindings {α : Type} (fuel : Nat)
    (branch : α → Nat → Predicate × List Predicate)
    (solve : List Predicate → Substitution → Option (List Substitution))
    (bindings : List Predicate → Substitution → List Binding) (goal : Predicate)
    (s : Substitution) : List α → List Substitution → List Binding
  | [], _ => []
  | c :: cs, solutions =>
    let (target, goals) := branch c solutions.length
    match unifyPredicates fuel goal target s with
    | none => []
    | some none => solveBranchesBindings fuel branch solve bindings goal s cs solutions
    | some (some s') =>
      match solve goals s' with
      | none => []
      | some tail =>
        (if tail.isEmpty then [] else unifyPredicatesBindings fuel goal target s) ++
          bindings goals s' ++
          solveBranchesBindings fuel branch solve bindings goal s cs (solutions ++ tail)

def solveBodyBindings (kb : KnowledgeBase) (fuel : Nat) :
    Nat → Nat → List Predicate → Substitution → List Binding
  | 0, _, _, _ => []
  | _ + 1, _, [], _ => []
  | levels + 1, depth, goal :: rest, s =>
    let goal := applySubstPredicate s goal
    solveBranchesBindings fuel (factBranch rest) (solveBody kb fuel levels (depth + 1))
        (solveBodyBindings kb fuel levels (depth + 1)) goal s (kb.getPredicates goal.name) [] ++
      match solveBranches fuel (factBranch rest) (solveBody kb fuel levels (depth + 1)) goal s
        (kb.getPredicates goal.name) [] with
      | none => []
      | some solutions =>
        solveBranchesBindings fuel (ruleBranch depth rest)
          (solveBody kb fuel levels (depth + 1)) (solveBodyBindings kb fuel levels (depth + 1))
          goal s (kb.getRules goal.name) solutions

namespace FixpointEngine

def iterateBindings (engine : FixpointEngine) (fuel : Nat) (names : Nat → HashOrder) :
    Nat → KnowledgeBase → List Binding
  | 0, _ => []
  | left + 1, kb =>
    (rulesInOrder (names left) kb).flatMap (fun rule =>
        solveBodyBindings kb fuel (engine.maxIterations + 1) 0 rule.body []) ++
      match engine.newFacts fuel kb (rulesInOrder (names left) kb) with
      | none => []
      | some [] => []
      | some (fact :: facts) =>
        iterateBindings engine fuel names left { kb with facts := kb.facts ++ fact :: facts }

/-- The bindings that a call of `compute_fixpoint` inserts. -/
def fixpointBindings (engine : FixpointEngine) (fuel : Nat) (names : Nat → HashOrder)
    (kb : KnowledgeBase) : List Binding :=
  engine.iterateBindings fuel names engine.maxIterations kb

end FixpointEngine

end Ipfrs.TensorLogic
