/-
Ipfrs.TensorLogic.FlatPrograms — queries over ground facts and function-free rules
return.

In such a run every argument and every binding is a variable or a ground term that
the facts or the goal brought in. A unification then never meets an application with
a variable inside: it binds a variable, or it compares two ground terms, whose
nesting bounds its recursion. So one recursion depth is enough for every unification
of the run (`solveGoal_returns`).
-/
import Ipfrs.Lib.Horn
import Ipfrs.TensorLogic.Reasoning

namespace Ipfrs.TensorLogic

open Ipfrs.Core Ipfrs.Lib

/-! ## Ground terms -/

mutual

/-- The nesting of applications. -/
def Term.depth : Term → Nat
  | .func _ args => Term.depthAll args + 1
  | .var _ => 0
  | .const _ => 0
  | .ref _ => 0

def Term.depthAll : List Term → Nat
  | [] => 0
  | t :: ts => max t.depth (Term.depthAll ts)

end

theorem Term.depth_le_depthAll {t : Term} : ∀ {ts : List Term}, t ∈ ts → t.depth ≤ depthAll ts
  | u :: ts, h => by
    rw [depthAll]
    rcases List.mem_cons.mp h with rfl | h
    · exact Nat.le_max_left _ _
    · exact Nat.le_trans (depth_le_depthAll h) (Nat.le_max_right _ _)

/-- The term is no application. -/
def Term.functionFree : Term → Bool
  | .func _ _ => false
  | .var _ => true
  | .const _ => true
  | .ref _ => true

/-- No application occurs in the rule. -/
def Rule.functionFree (r : Rule) : Bool :=
  r.head.args.all Term.functionFree && r.body.all (fun b => b.args.all Term.functionFree)

variable {s : Substitution}

theorem unifyArgs_ground {unify : Term → Term → Substitution → Option (Option Substitution)} :
    ∀ {args1 args2 : List Term},
      (∀ t1 ∈ args1, ∀ t2 ∈ args2, unify t1 t2 s = some none ∨ unify t1 t2 s = some (some s)) →
      unifyArgs unify args1 args2 s = some none ∨ unifyArgs unify args1 args2 s = some (some s)
  | [], args2, _ => .inr rfl
  | a1 :: args1, [], _ => .inr rfl
  | a1 :: args1, a2 :: args2, h => by
    have hargs : ∀ t1 ∈ args1, ∀ t2 ∈ args2,
        unify t1 t2 s = some none ∨ unify t1 t2 s = some (some s) := fun t1 h1 t2 h2 =>
      h t1 (List.mem_cons_of_mem _ h1) t2 (List.mem_cons_of_mem _ h2)
    have hrest := unifyArgs_ground hargs
    rcases h a1 List.mem_cons_self a2 List.mem_cons_self with h1 | h1
    · exact .inl (by simp [unifyArgs, h1])
    · simpa [unifyArgs, h1] using hrest

/-- Ground terms unify or not, without a binding. -/
theorem unify_ground : ∀ {fuel : Nat} {t1 t2 : Term}, t1.isGround = true →
    t2.isGround = true → t1.depth < fuel →
    unify fuel t1 t2 s = some none ∨ unify fuel t1 t2 s = some (some s)
  | 0, t1, t2, _, _, h => by omega
  | fuel + 1, t1, t2, hg1, hg2, hdepth => by
    have h1 : applySubstTerm s t1 = t1 := applySubstTerm_of_isGround hg1
    have h2 : applySubstTerm s t2 = t2 := applySubstTerm_of_isGround hg2
    cases t1 with
    | var v => simp [Term.isGround] at hg1
    | const c1 =>
      cases t2 with
      | var v => simp [Term.isGround] at hg2
      | const c2 =>
        simp only [unify, applySubstTerm]
        split
        · exact .inr rfl
        · exact .inl rfl
      | func f2 args2 | ref r2 => exact .inl (by simp [unify, applySubstTerm])
    | func f1 args1 =>
      cases t2 with
      | var v => simp [Term.isGround] at hg2
      | const c2 | ref r2 => exact .inl (by simp [unify, applySubstTerm])
      | func f2 args2 =>
        simp only [unify, h1, h2]
        split
        · refine unifyArgs_ground (fun u1 hu1 u2 hu2 => unify_ground ?_ ?_ ?_)
          · exact Term.allGround_iff.mp (by simpa [Term.isGround] using hg1) u1 hu1
          · exact Term.allGround_iff.mp (by simpa [Term.isGround] using hg2) u2 hu2
          · have hle := Term.depth_le_depthAll hu1
            rw [Term.depth] at hdepth
            omega
        · exact .inl rfl
    | ref r1 =>
      cases t2 with
      | var v => simp [Term.isGround] at hg2
      | const c2 | func f2 args2 => exact .inl (by simp [unify, applySubstTerm])
      | ref r2 =>
        simp only [unify, applySubstTerm]
        split
        · exact .inr rfl
        · exact .inl rfl

/-! ## Variables and ground terms -/

/-- A variable, or a ground term below a nesting. -/
def Term.Small (n : Nat) (t : Term) : Prop :=
  (∃ v, t = .var v) ∨ (t.isGround = true ∧ t.depth < n)

/-- Every binding is small. -/
def SmallSubst (n : Nat) (s : Substitution) : Prop := ∀ v t, s.get? v = some t → t.Small n

theorem Term.Small.apply {n : Nat} {t : Term} (ht : t.Small n) (hs : SmallSubst n s) :
    (applySubstTerm s t).Small n := by
  rcases ht with ⟨v, rfl⟩ | ⟨hground, hdepth⟩
  · rw [applySubstTerm]
    cases hv : s.get? v with
    | none => exact .inl ⟨v, rfl⟩
    | some u => exact hs v u hv
  · rw [applySubstTerm_of_isGround hground]
    exact .inr ⟨hground, hdepth⟩

theorem unifyVar_small {n : Nat} {v : String} {t : Term} {s' : Substitution} (ht : t.Small n)
    (hs : SmallSubst n s) (h : unifyVar v t s = some s') : SmallSubst n s' := by
  unfold unifyVar at h
  split at h
  · cases h
    exact hs
  · split at h
    · cases h
    · cases h
      intro w u hw
      rw [Substitution.get?_insert] at hw
      split at hw
      · cases hw
        exact ht
      · exact hs w u hw

/-- Small terms are unified within the nesting, and the bindings stay small. -/
theorem unify_small {n fuel : Nat} {t1 t2 : Term} (hfuel : n < fuel) (h1 : t1.Small n)
    (h2 : t2.Small n) (hs : SmallSubst n s) :
    ∃ r, unify fuel t1 t2 s = some r ∧ ∀ s', r = some s' → SmallSubst n s' := by
  obtain ⟨fuel, rfl⟩ : ∃ m, fuel = m + 1 := ⟨fuel - 1, by omega⟩
  rcases h1.apply hs with ⟨v, hu1⟩ | ⟨hg1, hd1⟩
  · exact ⟨_, by rw [unify, hu1], fun s' h => unifyVar_small (h2.apply hs) hs h⟩
  · rcases h2.apply hs with ⟨v, hu2⟩ | ⟨hg2, hd2⟩
    · refine ⟨unifyVar v (applySubstTerm s t1) s, ?_,
        fun s' h => unifyVar_small (h1.apply hs) hs h⟩
      cases hu1 : applySubstTerm s t1 with
      | var w => simp [hu1, Term.isGround] at hg1
      | const c => simp [unify, hu1, hu2]
      | func f args => simp [unify, hu1, hu2]
      | ref r => simp [unify, hu1, hu2]
    · have hunify : unify (fuel + 1) t1 t2 s
          = unify (fuel + 1) (applySubstTerm s t1) (applySubstTerm s t2) s := by
        rw [unify, unify, applySubstTerm_of_isGround hg1, applySubstTerm_of_isGround hg2]
      rw [hunify]
      rcases unify_ground (s := s) hg1 hg2 (by omega : _ < fuel + 1) with h | h
      · exact ⟨none, h, fun s' hs' => by cases hs'⟩
      · exact ⟨some s, h, fun s' hs' => by cases hs'; exact hs⟩

theorem unifyArgs_small {n fuel : Nat} (hfuel : n < fuel) :
    ∀ {args1 args2 : List Term} {s : Substitution}, (∀ t ∈ args1, t.Small n) →
      (∀ t ∈ args2, t.Small n) → SmallSubst n s →
      ∃ r, unifyArgs (unify fuel) args1 args2 s = some r ∧ ∀ s', r = some s' → SmallSubst n s'
  | [], args2, s, _, _, hs => ⟨some s, rfl, fun s' h => by cases h; exact hs⟩
  | a1 :: args1, [], s, _, _, hs => ⟨some s, rfl, fun s' h => by cases h; exact hs⟩
  | a1 :: args1, a2 :: args2, s, h1, h2, hs => by
    obtain ⟨ha1, h1⟩ := List.forall_mem_cons.mp h1
    obtain ⟨ha2, h2⟩ := List.forall_mem_cons.mp h2
    obtain ⟨r, hr, hsmall⟩ := unify_small hfuel ha1 ha2 hs
    cases r with
    | none => exact ⟨none, by simp [unifyArgs, hr], fun s' h => by cases h⟩
    | some s1 =>
      obtain ⟨r', hr', hsmall'⟩ := unifyArgs_small hfuel h1 h2 (hsmall s1 rfl)
      exact ⟨r', by simp [unifyArgs, hr, hr'], hsmall'⟩

/-- All arguments are small. -/
def Predicate.Small (n : Nat) (p : Predicate) : Prop := ∀ t ∈ p.args, t.Small n

theorem Predicate.Small.apply {n : Nat} {p : Predicate} (hp : p.Small n) (hs : SmallSubst n s) :
    (applySubstPredicate s p).Small n := by
  intro t ht
  obtain ⟨u, hu, rfl⟩ := List.mem_map.mp ht
  exact (hp u hu).apply hs

theorem unifyPredicates_small {n fuel : Nat} {p1 p2 : Predicate} (hfuel : n < fuel)
    (h1 : p1.Small n) (h2 : p2.Small n) (hs : SmallSubst n s) :
    ∃ r, unifyPredicates fuel p1 p2 s = some r ∧ ∀ s', r = some s' → SmallSubst n s' := by
  unfold unifyPredicates
  split
  · exact ⟨none, rfl, fun s' h => by cases h⟩
  · exact unifyArgs_small hfuel h1 h2 hs

/-! ## The search -/

section

variable {kb : KnowledgeBase} {n fuel : Nat}

/-- Every substitution of the list is small. -/
def AllSmall (n : Nat) (solutions : List Substitution) : Prop := ∀ s ∈ solutions, SmallSubst n s

theorem AllSmall.push {l : List Substitution} {s : Substitution} (h : AllSmall n l)
    (hs : SmallSubst n s) : AllSmall n (l ++ [s]) :=
  List.forall_mem_append.mpr ⟨h, by simpa using hs⟩

theorem solveFacts_returns (hfuel : n < fuel) (maxSolutions : Nat) {goal : Predicate}
    {s : Substitution} (hgoal : goal.Small n) (hs : SmallSubst n s) :
    ∀ {facts : List Predicate} {solutions : List Substitution}, (∀ f ∈ facts, f.Small n) →
      AllSmall n solutions →
      ∃ full solutions', solveFacts fuel maxSolutions goal s facts solutions
        = some (full, solutions') ∧ AllSmall n solutions'
  | [], solutions, _, hsols => ⟨false, solutions, rfl, hsols⟩
  | fact :: facts, solutions, hfacts, hsols => by
    obtain ⟨hfact, hfacts⟩ := List.forall_mem_cons.mp hfacts
    obtain ⟨r, hr, hsmall⟩ := unifyPredicates_small hfuel hgoal hfact hs
    rw [solveFacts, hr]
    cases r with
    | none => exact solveFacts_returns hfuel maxSolutions hgoal hs hfacts hsols
    | some s1 =>
      have hpush := hsols.push (hsmall s1 rfl)
      dsimp only
      split
      · exact ⟨true, _, rfl, hpush⟩
      · exact solveFacts_returns hfuel maxSolutions hgoal hs hfacts hpush

theorem solveRules_returns (hfuel : n < fuel) {depth : Nat} {goal : Predicate}
    {s : Substitution} (hgoal : goal.Small n) (hs : SmallSubst n s)
    {solveBody : List Predicate → Substitution → List Substitution → Option (List Substitution)}
    (hbody : ∀ goals s solutions, (∀ g ∈ goals, g.Small n) → SmallSubst n s →
      AllSmall n solutions →
      ∃ solutions', solveBody goals s solutions = some solutions' ∧ AllSmall n solutions') :
    ∀ {rules : List Rule} {solutions : List Substitution},
      (∀ r ∈ rules, (renameRuleVars r depth).head.Small n ∧
        ∀ b ∈ (renameRuleVars r depth).body, b.Small n) →
      AllSmall n solutions →
      ∃ solutions', solveRules solveBody fuel depth goal s rules solutions = some solutions' ∧
        AllSmall n solutions'
  | [], solutions, _, hsols => ⟨solutions, rfl, hsols⟩
  | rule :: rules, solutions, hrules, hsols => by
    obtain ⟨hrule, hrules⟩ := List.forall_mem_cons.mp hrules
    obtain ⟨r, hr, hsmall⟩ := unifyPredicates_small hfuel hgoal hrule.1 hs
    rw [solveRules, hr]
    cases r with
    | none => exact solveRules_returns hfuel hgoal hs hbody hrules hsols
    | some s1 =>
      obtain ⟨solutions1, h1, hsols1⟩ := hbody _ s1 solutions hrule.2 (hsmall s1 rfl) hsols
      simp only [h1]
      exact solveRules_returns hfuel hgoal hs hbody hrules hsols1

theorem solveConjunction_returns {maxSolutions : Nat}
    {solve : Predicate → Substitution → List Substitution → Option (List Substitution)}
    (hgoal : ∀ goal s solutions, goal.Small n → SmallSubst n s → AllSmall n solutions →
      ∃ solutions', solve goal s solutions = some solutions' ∧ AllSmall n solutions') :
    ∀ (goals : List Predicate) (s : Substitution) (solutions : List Substitution),
      (∀ g ∈ goals, g.Small n) → SmallSubst n s → AllSmall n solutions →
      ∃ solutions', solveConjunction solve maxSolutions goals s solutions = some solutions' ∧
        AllSmall n solutions'
  | [], s, solutions, _, hs, hsols => ⟨_, rfl, hsols.push hs⟩
  | goal :: goals, s, solutions, hgoals, hs, hsols => by
    obtain ⟨hfirst, hgoals⟩ := List.forall_mem_cons.mp hgoals
    obtain ⟨intermediate, hinter, hsmall⟩ := hgoal goal s [] hfirst hs (by simp [AllSmall])
    have heach : ∀ (inter solutions : List Substitution), AllSmall n inter →
        AllSmall n solutions →
        ∃ solutions', solveEach (solveConjunction solve maxSolutions goals) maxSolutions inter
          solutions = some solutions' ∧ AllSmall n solutions' := by
      intro inter
      induction inter with
      | nil =>
        intro solutions _ hsols
        exact ⟨solutions, rfl, hsols⟩
      | cons s1 inter ih =>
        intro solutions hin hsols
        obtain ⟨hs1, hin⟩ := List.forall_mem_cons.mp hin
        rw [solveEach]
        split
        · exact ⟨solutions, rfl, hsols⟩
        · obtain ⟨solutions1, h1, hsols1⟩ := solveConjunction_returns hgoal goals s1
            solutions hgoals hs1 hsols
          rw [h1]
          exact ih solutions1 hin hsols1
    rw [solveConjunction, hinter]
    exact heach intermediate solutions hsmall hsols

/-- The search returns over small facts and rules. -/
theorem solveGoal_returns (hfuel : n < fuel) (hfacts : ∀ f ∈ kb.facts, f.Small n)
    (hrules : ∀ r ∈ kb.rules, ∀ depth, (renameRuleVars r depth).head.Small n ∧
      ∀ b ∈ (renameRuleVars r depth).body, b.Small n) (engine : InferenceEngine) :
    ∀ (levels depth : Nat) (goal : Predicate) (s : Substitution) (solutions : List Substitution),
      goal.Small n → SmallSubst n s → AllSmall n solutions →
      ∃ solutions', solveGoal engine kb fuel levels depth goal s solutions = some solutions' ∧
        AllSmall n solutions'
  | 0, depth, goal, s, solutions, _, _, hsols => ⟨solutions, rfl, hsols⟩
  | levels + 1, depth, goal, s, solutions, hgoal, hs, hsols => by
    rw [solveGoal]
    split
    · exact ⟨solutions, rfl, hsols⟩
    · have happlied := hgoal.apply hs
      have hsmall : ∀ f ∈ kb.getPredicates (applySubstPredicate s goal).name, f.Small n :=
        fun f hf => hfacts f (KnowledgeBase.mem_getPredicates.mp hf).1
      obtain ⟨full, solutions1, h1, hsols1⟩ :=
        solveFacts_returns hfuel engine.maxSolutions happlied hs hsmall hsols
      dsimp only
      rw [h1]
      cases full with
      | true => exact ⟨solutions1, rfl, hsols1⟩
      | false =>
        exact solveRules_returns hfuel happlied hs
          (solveConjunction_returns
            (solveGoal_returns hfuel hfacts hrules engine levels (depth + 1)))
          (fun r hr => hrules r (KnowledgeBase.mem_getRules.mp hr).1 depth) hsols1

end

/-! ## Flat programs -/

/-- Ground facts and function-free rules. -/
structure Flat (kb : KnowledgeBase) : Prop where
  facts : ∀ f ∈ kb.facts, f.isGround = true
  rules : ∀ r ∈ kb.rules, r.functionFree = true

/-- A term without applications is small. -/
theorem Term.small_of_functionFree {n : Nat} (hn : 0 < n) {t : Term}
    (h : t.functionFree = true) : t.Small n := by
  cases t with
  | var v => exact .inl ⟨v, rfl⟩
  | const c => exact .inr ⟨rfl, hn⟩
  | ref r => exact .inr ⟨rfl, hn⟩
  | func f args => simp [Term.functionFree] at h

/-- The predicates of a rule without applications are small under small substitutions. -/
theorem Rule.small_of_functionFree {n : Nat} (hn : 0 < n) {r : Rule} (h : r.functionFree = true)
    (hs : SmallSubst n s) :
    (applySubstPredicate s r.head).Small n ∧ ∀ b ∈ r.body, (applySubstPredicate s b).Small n := by
  simp only [Rule.functionFree, Bool.and_eq_true, List.all_eq_true] at h
  have hsmall : ∀ p : Predicate, (∀ t ∈ p.args, t.functionFree = true) → p.Small n :=
    fun p hp t ht => Term.small_of_functionFree hn (hp t ht)
  exact ⟨(hsmall r.head h.1).apply hs, fun b hb => (hsmall b (h.2 b hb)).apply hs⟩

/-- A renaming is small. -/
theorem SmallSubst.ofEntries_var (n : Nat) (vars : List String) (rename : String → String) :
    SmallSubst n (SortedAssoc.ofEntries (vars.map (fun v => (v, Term.var (rename v))))) := by
  intro v t hv
  have hmem := SortedAssoc.mem_of_mem_ofEntries (SortedAssoc.mem_of_get? hv)
  obtain ⟨w, _, hw⟩ := List.mem_map.mp hmem
  simp only [Prod.mk.injEq] at hw
  exact .inl ⟨_, hw.2.symm⟩

theorem Flat.small_rules {kb : KnowledgeBase} (h : Flat kb) {n : Nat} (hn : 0 < n) :
    ∀ r ∈ kb.rules, ∀ depth, (renameRuleVars r depth).head.Small n ∧
      ∀ b ∈ (renameRuleVars r depth).body, b.Small n := by
  intro r hr depth
  obtain ⟨hhead, hbody⟩ := Rule.small_of_functionFree hn (h.rules r hr)
    (SmallSubst.ofEntries_var n r.vars (renamedVar · depth))
  exact ⟨hhead, List.forall_mem_map.mpr hbody⟩

/-- Finitely many ground predicates are small for some nesting. -/
theorem exists_small {ps : List Predicate} (h : ∀ p ∈ ps, p.isGround = true) :
    ∃ n, 0 < n ∧ ∀ p ∈ ps, p.Small n := by
  obtain ⟨n, hn⟩ := exists_bound Term.depth (ps.flatMap Predicate.args)
  refine ⟨n + 1, by omega, fun p hp t ht => .inr ⟨?_, ?_⟩⟩
  · exact List.all_eq_true.mp (h p hp) t ht
  · have hlt := hn t (List.mem_flatMap.mpr ⟨p, hp, ht⟩)
    omega

/-- **A query of a ground goal over a flat program returns.** -/
theorem Flat.query_returns {kb : KnowledgeBase} (h : Flat kb) {goal : Predicate}
    (hgoal : goal.isGround = true) (engine : InferenceEngine) :
    ∃ n, ∀ fuel, n ≤ fuel → ∃ solutions, query engine fuel goal kb = some solutions := by
  have hground : ∀ p ∈ goal :: kb.facts, p.isGround = true :=
    List.forall_mem_cons.mpr ⟨hgoal, h.facts⟩
  obtain ⟨n, hn, hsmall⟩ := exists_small hground
  obtain ⟨hgoal, hfacts⟩ := List.forall_mem_cons.mp hsmall
  refine ⟨n + 1, fun fuel hfuel => ?_⟩
  obtain ⟨solutions, hsol, _⟩ := solveGoal_returns (by omega : n < fuel) hfacts
    (h.small_rules hn) engine (engine.maxDepth + 1) 0 goal [] [] hgoal
    (fun v t hv => by simp at hv) (by simp [AllSmall])
  exact ⟨solutions, hsol⟩

end Ipfrs.TensorLogic
