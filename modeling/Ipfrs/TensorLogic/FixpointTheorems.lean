/-
Ipfrs.TensorLogic.FixpointTheorems — what forward chaining computes.

A solution of a body comes from unifications whose bindings it contains, unless one of
them overwrites an earlier one: bindings are followed one step at a time, so a variable
that is bound through others can be taken for an unbound one. Without such a binding every
instance of a solution satisfies the body (`solveBody_sound`), and a derived fact is in the
least model. In the other direction the facts alone are enough: a body that holds in the
facts is solved by matching its goals one after another (`solveBody_finds`), provided that
it is not longer than the limit. So the facts of a loop that ends by itself are the least
model of the rules with bodies up to the limit.
-/
import Ipfrs.TensorLogic.Completeness
import Ipfrs.TensorLogic.Fixpoint
import Ipfrs.TensorLogic.PlainTerms

namespace Ipfrs.TensorLogic

open Ipfrs.Core Ipfrs.Lib

/-! ## Branches -/

section

variable {α : Type} {fuel : Nat} {branch : α → Nat → Predicate × List Predicate}
  {solve : List Predicate → Substitution → Option (List Substitution)}
  (bindings : List Predicate → Substitution → List Binding) {goal : Predicate}
  {s : Substitution}

/-- The candidate does not unify, or its goals are solved; then the loop goes on. -/
theorem solveBranches_cons {c : α} {cs : List α} {solutions solutions' : List Substitution}
    (h : solveBranches fuel branch solve goal s (c :: cs) solutions = some solutions') :
    (unifyPredicates fuel goal (branch c solutions.length).1 s = some none ∧
        solveBranches fuel branch solve goal s cs solutions = some solutions' ∧
        solveBranchesBindings fuel branch solve bindings goal s (c :: cs) solutions
          = solveBranchesBindings fuel branch solve bindings goal s cs solutions) ∨
      ∃ s1 tail, unifyPredicates fuel goal (branch c solutions.length).1 s = some (some s1) ∧
        solve (branch c solutions.length).2 s1 = some tail ∧
        solveBranches fuel branch solve goal s cs (solutions ++ tail) = some solutions' ∧
        solveBranchesBindings fuel branch solve bindings goal s (c :: cs) solutions
          = (if tail.isEmpty then []
              else unifyPredicatesBindings fuel goal (branch c solutions.length).1 s) ++
            bindings (branch c solutions.length).2 s1 ++
            solveBranchesBindings fuel branch solve bindings goal s cs (solutions ++ tail) := by
  rw [solveBranches] at h
  rw [solveBranchesBindings]
  cases hu : unifyPredicates fuel goal (branch c solutions.length).1 s with
  | none => simp [hu] at h
  | some r =>
    cases r with
    | none =>
      simp only [hu] at h ⊢
      exact .inl ⟨trivial, h, trivial⟩
    | some s1 =>
      cases hs : solve (branch c solutions.length).2 s1 with
      | none => simp [hu, hs] at h
      | some tail =>
        simp only [hu, hs] at h ⊢
        exact .inr ⟨s1, tail, rfl, hs, h, rfl⟩

/-- The loop keeps the solutions it has. -/
theorem subset_solveBranches : ∀ {cs : List α} {solutions solutions' : List Substitution},
    solveBranches fuel branch solve goal s cs solutions = some solutions' →
    ∀ s' ∈ solutions, s' ∈ solutions'
  | [], solutions, solutions', h, s', hs' => by
    cases h
    exact hs'
  | c :: cs, solutions, solutions', h, s', hs' => by
    obtain ⟨_, h, _⟩ | ⟨_, _, _, _, h, _⟩ := solveBranches_cons (fun _ _ => []) h
    · exact subset_solveBranches h s' hs'
    · exact subset_solveBranches h s' (List.mem_append_left _ hs')

/-- A new solution solves the goals of some candidate that unified, and the bindings on the
way are among those of the loop. -/
theorem mem_solveBranches : ∀ {cs : List α} {solutions solutions' : List Substitution},
    solveBranches fuel branch solve goal s cs solutions = some solutions' →
    ∀ s' ∈ solutions', s' ∈ solutions ∨ ∃ c ∈ cs, ∃ found s1 tail,
      unifyPredicates fuel goal (branch c found).1 s = some (some s1) ∧
      solve (branch c found).2 s1 = some tail ∧ s' ∈ tail ∧
      unifyPredicatesBindings fuel goal (branch c found).1 s ++ bindings (branch c found).2 s1 ⊆
        solveBranchesBindings fuel branch solve bindings goal s cs solutions
  | [], solutions, solutions', h, s', hs' => by
    cases h
    exact .inl hs'
  | c :: cs, solutions, solutions', h, s', hs' => by
    obtain ⟨_, h, hbind⟩ | ⟨s1, tail, hu, hsolve, h, hbind⟩ :=
      solveBranches_cons bindings h
    · rw [hbind]
      obtain hs' | ⟨c', hc', hrest⟩ := mem_solveBranches h s' hs'
      · exact .inl hs'
      · exact .inr ⟨c', List.mem_cons_of_mem _ hc', hrest⟩
    · rw [hbind]
      obtain hs' | ⟨c', hc', found, s2, tail', hu', hsolve', hmem, hsub⟩ :=
        mem_solveBranches h s' hs'
      · rcases List.mem_append.mp hs' with hs' | hs'
        · exact .inl hs'
        · refine .inr ⟨c, List.mem_cons_self, _, s1, tail, hu, hsolve, hs', ?_⟩
          rw [if_neg (by simpa using List.ne_nil_of_mem hs')]
          exact List.subset_append_left _ _
      · exact .inr ⟨c', List.mem_cons_of_mem _ hc', found, s2, tail', hu', hsolve', hmem,
          List.Subset.trans hsub (List.subset_append_right _ _)⟩

/-- The loop tries every candidate and keeps what its goals are solved by. -/
theorem solveBranches_finds : ∀ {cs : List α} {solutions solutions' : List Substitution},
    solveBranches fuel branch solve goal s cs solutions = some solutions' → ∀ c ∈ cs,
    ∃ found r, unifyPredicates fuel goal (branch c found).1 s = some r ∧
      ∀ s1, r = some s1 → ∃ tail, solve (branch c found).2 s1 = some tail ∧
        ∀ s' ∈ tail, s' ∈ solutions'
  | c :: cs, solutions, solutions', h, c', hc' => by
    obtain ⟨hu, hrest, _⟩ | ⟨s1, tail, hu, hsolve, hrest, _⟩ :=
      solveBranches_cons (fun _ _ => []) h
    · rcases List.mem_cons.mp hc' with rfl | hc'
      · exact ⟨_, none, hu, fun s1 hs1 => by cases hs1⟩
      · exact solveBranches_finds hrest c' hc'
    · rcases List.mem_cons.mp hc' with rfl | hc'
      · refine ⟨_, some s1, hu, fun s2 hs2 => ?_⟩
        cases hs2
        exact ⟨tail, hsolve, fun s' hs' =>
          subset_solveBranches hrest s' (List.mem_append_right _ hs')⟩
      · exact solveBranches_finds hrest c' hc'

end

/-! ## Solutions of bodies -/

/-- A rule whose body holds in `M` has its head in `M`, for bodies up to a length. -/
structure ClosedUpTo (limit : Nat) (kb : KnowledgeBase) (M : Set GroundAtom) : Prop where
  facts : ∀ fact ∈ kb.facts, ∀ θ, fact.eval θ ∈ M
  rules : ∀ rule ∈ kb.rules, rule.body.length ≤ limit → ∀ θ, (∀ b ∈ rule.body, b.eval θ ∈ M) →
    rule.head.eval θ ∈ M

section

variable {kb : KnowledgeBase} {fuel : Nat}

/-- A goal is solved by a fact, or by a rule and its body. -/
theorem mem_solveBody_cons {levels depth : Nat} {goal : Predicate} {rest : List Predicate}
    {s : Substitution} {solutions : List Substitution}
    (h : solveBody kb fuel (levels + 1) depth (goal :: rest) s = some solutions) :
    ∀ s' ∈ solutions, ∃ target goals s1 tail, ((target ∈ kb.facts ∧ goals = rest) ∨
        ∃ rule ∈ kb.rules, ∃ suffix, target = (renameRuleFixpoint rule suffix).head ∧
          goals = (renameRuleFixpoint rule suffix).body ++ rest) ∧
      unifyPredicates fuel (applySubstPredicate s goal) target s = some (some s1) ∧
      solveBody kb fuel levels (depth + 1) goals s1 = some tail ∧ s' ∈ tail ∧
      unifyPredicatesBindings fuel (applySubstPredicate s goal) target s ++
          solveBodyBindings kb fuel levels (depth + 1) goals s1 ⊆
        solveBodyBindings kb fuel (levels + 1) depth (goal :: rest) s := by
  intro s' hs'
  rw [solveBody] at h
  rw [solveBodyBindings]
  cases hfacts : solveBranches fuel (factBranch rest) (solveBody kb fuel levels (depth + 1))
      (applySubstPredicate s goal) s (kb.getPredicates goal.name) [] with
  | none => simp [hfacts] at h
  | some found =>
    simp only [applySubstPredicate_name, hfacts] at h ⊢
    obtain hs' | ⟨rule, hrule, n, s1, tail, hu, hsolve, hmem, hsub⟩ :=
      mem_solveBranches (solveBodyBindings kb fuel levels (depth + 1)) h s' hs'
    · obtain hs' | ⟨fact, hfact, n, s1, tail, hu, hsolve, hmem, hsub⟩ :=
        mem_solveBranches (solveBodyBindings kb fuel levels (depth + 1)) hfacts s' hs'
      · cases hs'
      · exact ⟨fact, rest, s1, tail,
          .inl ⟨(KnowledgeBase.mem_getPredicates.mp hfact).1, rfl⟩, hu, hsolve, hmem,
          List.Subset.trans hsub (List.subset_append_left _ _)⟩
    · exact ⟨_, _, s1, tail,
        .inr ⟨rule, (KnowledgeBase.mem_getRules.mp hrule).1, _, rfl, rfl⟩, hu, hsolve, hmem,
        List.Subset.trans hsub (List.subset_append_right _ _)⟩

/-- Solutions are plain. -/
theorem solveBody_plain (hflat : Flat kb) : ∀ {levels depth : Nat} {goals : List Predicate}
    {s : Substitution} {solutions : List Substitution},
    solveBody kb fuel levels depth goals s = some solutions → (∀ goal ∈ goals, goal.Plain) →
    PlainSubst s → ∀ s' ∈ solutions, PlainSubst s'
  | 0, _, _, _, _, h, _, _, s', hs' => by
    cases h
    cases hs'
  | levels + 1, _, [], s, _, h, _, hs, s', hs' => by
    cases h
    obtain rfl := List.mem_singleton.mp hs'
    exact hs
  | levels + 1, depth, goal :: rest, s, solutions, h, hgoals, hs, s', hs' => by
    obtain ⟨hgoal, hrest⟩ := List.forall_mem_cons.mp hgoals
    obtain ⟨target, goals, s1, tail, hfrom, hu, hsolve, hmem, _⟩ := mem_solveBody_cons h s' hs'
    have hplain : target.Plain ∧ ∀ g ∈ goals, g.Plain := by
      rcases hfrom with ⟨hfact, rfl⟩ | ⟨rule, hrule, suffix, rfl, rfl⟩
      · exact ⟨Predicate.plain_of_isGround (hflat.facts target hfact), hrest⟩
      · obtain ⟨hhead, hbody⟩ := Rule.small_of_functionFree Nat.one_pos
          (hflat.rules rule hrule) (SmallSubst.ofEntries_var 1 rule.vars (fixpointVar · suffix))
        exact ⟨hhead.plain, List.forall_mem_append.mpr
          ⟨List.forall_mem_map.mpr fun b hb => (hbody b hb).plain, hrest⟩⟩
    exact solveBody_plain hflat hsolve hplain.2
      ((UnifyRun.ofUnifyPredicates hu).2.plain (hgoal.apply hs) hplain.1 hs) s' hmem

/-- A body that is solved is shorter than the levels that are left. -/
theorem length_lt_of_solveBody : ∀ {levels depth : Nat} {goals : List Predicate}
    {s : Substitution} {solutions : List Substitution},
    solveBody kb fuel levels depth goals s = some solutions → solutions ≠ [] →
    goals.length < levels
  | 0, _, _, _, _, h, hne => by
    cases h
    exact absurd rfl hne
  | levels + 1, _, [], _, _, _, _ => Nat.succ_pos levels
  | levels + 1, depth, goal :: rest, s, solutions, h, hne => by
    obtain ⟨s', hs'⟩ := List.exists_mem_of_ne_nil _ hne
    obtain ⟨_, goals, s1, tail, hgoals, _, hsolve, hmem, _⟩ := mem_solveBody_cons h s' hs'
    have hlt := length_lt_of_solveBody hsolve (List.ne_nil_of_mem hmem)
    have hle : rest.length ≤ goals.length := by
      rcases hgoals with ⟨_, rfl⟩ | ⟨_, _, _, _, rfl⟩
      · exact Nat.le_refl _
      · simp
    exact Nat.succ_lt_succ (Nat.lt_of_le_of_lt hle hlt)

/-- **Solutions are sound** when nothing is overwritten on the way: whatever solves one
solves the substitution it came from and makes the goals true. -/
theorem solveBody_sound {limit : Nat} {M : Set GroundAtom} (hM : ClosedUpTo limit kb M) :
    ∀ {levels depth : Nat} {goals : List Predicate} {s : Substitution}
      {solutions : List Substitution}, levels ≤ limit + 1 →
      solveBody kb fuel levels depth goals s = some solutions →
      (∀ b ∈ solveBodyBindings kb fuel levels depth goals s, b.Fresh) →
      ∀ s' ∈ solutions, ∀ θ, Satisfies θ s' →
        Satisfies θ s ∧ ∀ goal ∈ goals, goal.eval θ ∈ M
  | 0, _, _, _, _, _, h, _, s', hs', _, _ => by
    cases h
    cases hs'
  | levels + 1, _, [], s, _, _, h, _, s', hs', θ, hθ => by
    cases h
    obtain rfl := List.mem_singleton.mp hs'
    exact ⟨hθ, fun goal hgoal => by cases hgoal⟩
  | levels + 1, depth, goal :: rest, s, solutions, hlevels, h, hfresh, s', hs', θ, hθ => by
    obtain ⟨target, goals, s1, tail, hgoals, hu, hsolve, hmem, hsub⟩ :=
      mem_solveBody_cons h s' hs'
    obtain ⟨hθ1, hall⟩ := solveBody_sound hM (Nat.le_of_succ_le hlevels) hsolve
      (fun b hb => hfresh b (hsub (List.mem_append_right _ hb))) s' hmem θ hθ
    obtain ⟨hθs, heq⟩ := unifyPredicates_satisfies hu
      (fun b hb => hfresh b (hsub (List.mem_append_left _ hb))) hθ1
    rw [hθs.eval_predicate] at heq
    refine ⟨hθs, List.forall_mem_cons.mpr ?_⟩
    rw [heq]
    rcases hgoals with ⟨hfact, rfl⟩ | ⟨rule, hrule, suffix, rfl, rfl⟩
    · exact ⟨hM.facts target hfact θ, hall⟩
    · -- an instance of the renamed rule is one of the rule
      obtain ⟨hbody, hrest⟩ := List.forall_mem_append.mp hall
      have hlt := length_lt_of_solveBody hsolve (List.ne_nil_of_mem hmem)
      simp only [renameRuleFixpoint, List.length_append, List.length_map] at hlt
      simp only [renameRuleFixpoint, List.forall_mem_map,
        Predicate.eval_applySubstPredicate] at hbody ⊢
      exact ⟨hM.rules rule hrule (by omega) _ hbody, hrest⟩

end

/-! ## Returning -/

theorem solveBranches_returns {α : Type} {fuel : Nat}
    {branch : α → Nat → Predicate × List Predicate}
    {solve : List Predicate → Substitution → Option (List Substitution)} {goal : Predicate}
    {s : Substitution} {P : Substitution → Prop} : ∀ {cs : List α} {solutions : List Substitution},
    (∀ c ∈ cs, ∀ found, ∃ r, unifyPredicates fuel goal (branch c found).1 s = some r ∧
      ∀ s1, r = some s1 → ∃ tail, solve (branch c found).2 s1 = some tail ∧ ∀ s' ∈ tail, P s') →
    (∀ s' ∈ solutions, P s') →
    ∃ solutions', solveBranches fuel branch solve goal s cs solutions = some solutions' ∧
      ∀ s' ∈ solutions', P s'
  | [], solutions, _, hsols => ⟨solutions, rfl, hsols⟩
  | c :: cs, solutions, hbranch, hsols => by
    obtain ⟨hfirst, hrest⟩ := List.forall_mem_cons.mp hbranch
    obtain ⟨r, hu, hsolve⟩ := hfirst solutions.length
    rw [solveBranches]
    cases r with
    | none =>
      simp only [hu]
      exact solveBranches_returns hrest hsols
    | some s1 =>
      obtain ⟨tail, ht, hP⟩ := hsolve s1 rfl
      simp only [hu, ht]
      exact solveBranches_returns hrest (List.forall_mem_append.mpr ⟨hsols, hP⟩)

/-- The search returns over small facts and function-free rules, and its solutions are
small. -/
theorem solveBody_returns {kb : KnowledgeBase} {n fuel : Nat} (hn : 0 < n) (hfuel : n < fuel)
    (hfacts : ∀ f ∈ kb.facts, f.Small n) (hrules : ∀ r ∈ kb.rules, r.functionFree = true) :
    ∀ (levels depth : Nat) (goals : List Predicate) (s : Substitution),
      (∀ g ∈ goals, g.Small n) → SmallSubst n s →
      ∃ solutions, solveBody kb fuel levels depth goals s = some solutions ∧
        AllSmall n solutions
  | 0, _, _, _, _, _ => ⟨[], rfl, by simp [AllSmall]⟩
  | _ + 1, _, [], s, _, hs => ⟨[s], rfl, by simpa [AllSmall] using hs⟩
  | levels + 1, depth, goal :: rest, s, hgoals, hs => by
    obtain ⟨hgoal, hrest⟩ := List.forall_mem_cons.mp hgoals
    have happlied := hgoal.apply hs
    -- what a candidate is unified with and the goals it leaves are small
    have htry : ∀ {target : Predicate} {goals : List Predicate}, target.Small n →
        (∀ g ∈ goals, g.Small n) →
        ∃ r, unifyPredicates fuel (applySubstPredicate s goal) target s = some r ∧
          ∀ s1, r = some s1 → ∃ tail,
            solveBody kb fuel levels (depth + 1) goals s1 = some tail ∧
            ∀ s' ∈ tail, SmallSubst n s' := by
      intro target goals htarget hgoals
      obtain ⟨r, hr, hsmall⟩ := unifyPredicates_small hfuel happlied htarget hs
      exact ⟨r, hr, fun s1 hs1 =>
        solveBody_returns hn hfuel hfacts hrules levels (depth + 1) goals s1 hgoals
          (hsmall s1 hs1)⟩
    obtain ⟨found, hfound, hsmall⟩ : ∃ found, solveBranches fuel (factBranch rest)
        (solveBody kb fuel levels (depth + 1)) (applySubstPredicate s goal) s
        (kb.getPredicates goal.name) [] = some found ∧ AllSmall n found :=
      solveBranches_returns (fun fact hfact _ =>
        htry (hfacts fact (KnowledgeBase.mem_getPredicates.mp hfact).1) hrest) (by simp)
    have hrule : ∀ rule ∈ kb.getRules goal.name, ∀ k,
        (ruleBranch depth rest rule k).1.Small n ∧
          ∀ g ∈ (ruleBranch depth rest rule k).2, g.Small n := by
      intro rule hrule k
      obtain ⟨hhead, hbody⟩ := Rule.small_of_functionFree hn
        (hrules rule (KnowledgeBase.mem_getRules.mp hrule).1)
        (SmallSubst.ofEntries_var n rule.vars (fixpointVar · (depth * 1000 + k)))
      exact ⟨hhead, List.forall_mem_append.mpr ⟨List.forall_mem_map.mpr hbody, hrest⟩⟩
    obtain ⟨solutions, hsols, hall⟩ : ∃ solutions, solveBranches fuel (ruleBranch depth rest)
        (solveBody kb fuel levels (depth + 1)) (applySubstPredicate s goal) s
        (kb.getRules goal.name) found = some solutions ∧ AllSmall n solutions :=
      solveBranches_returns (fun rule hmem k =>
        htry (hrule rule hmem k).1 (hrule rule hmem k).2) hsmall
    refine ⟨solutions, ?_, hall⟩
    rw [solveBody]
    simp only [applySubstPredicate_name, hfound]
    exact hsols

/-! ## Matching facts -/

/-- **Solutions are complete** for the facts: a conjunction of plain goals that are all
among the facts under `θ` is solved by a ground substitution with the values of `θ`, if
enough levels are left. -/
theorem solveBody_finds {kb : KnowledgeBase} {fuel : Nat} {θ : Valuation}
    (hfacts : ∀ fact ∈ kb.facts, fact.isGround = true) :
    ∀ {levels depth : Nat} {goals : List Predicate} {s : Substitution}
      {solutions : List Substitution},
      solveBody kb fuel levels depth goals s = some solutions → goals.length < levels →
      GroundSubst s → Satisfies θ s → (∀ goal ∈ goals, goal.Plain) →
      (∀ goal ∈ goals, ∃ fact ∈ kb.facts, fact.eval θ = goal.eval θ) →
      ∃ s' ∈ solutions, Satisfies θ s' ∧ Grounds (goals.flatMap Predicate.args) s s'
  | levels + 1, _, [], s, _, h, _, hs, hθ, _, _ => by
    cases h
    exact ⟨s, by simp, hθ, hs, fun _ _ h => h, fun t ht => by cases ht⟩
  | levels + 1, depth, goal :: rest, s, solutions, h, hlen, hs, hθ, hplain, hgoals => by
    obtain ⟨⟨fact, hfact, heq⟩, hgoals⟩ := List.forall_mem_cons.mp hgoals
    obtain ⟨hplain1, hplain⟩ := List.forall_mem_cons.mp hplain
    rw [solveBody] at h
    cases hfound : solveBranches fuel (factBranch rest) (solveBody kb fuel levels (depth + 1))
        (applySubstPredicate s goal) s (kb.getPredicates goal.name) [] with
    | none => simp [hfound] at h
    | some found =>
      simp only [applySubstPredicate_name, hfound] at h
      obtain ⟨_, r, hu, hsolve⟩ := solveBranches_finds hfound fact
        (KnowledgeBase.mem_getPredicates.mpr ⟨hfact, congrArg GroundAtom.name heq⟩)
      obtain ⟨s1, rfl, hθ1⟩ := unifyPredicates_complete hu hθ
        ((hθ.eval_predicate goal).trans heq.symm)
      obtain ⟨tail, ht, hsub⟩ := hsolve s1 rfl
      have hground1 : Grounds ((applySubstPredicate s goal).args) s s1 := by
        refine (UnifyRun.ofUnifyPredicates hu).2.grounds ?_
          (List.all_eq_true.mp (hfacts fact hfact)) hs
        intro t ht
        obtain ⟨u, hu, rfl⟩ := List.mem_map.mp ht
        rcases hs.apply_cases (hplain1 u hu) with hground | ⟨v, _, hv⟩
        · exact .inr hground
        · exact .inl ⟨v, hv⟩
      obtain ⟨s', hs', hθ', hrest⟩ := solveBody_finds hfacts ht
        (Nat.lt_of_succ_lt_succ hlen) hground1.ground hθ1 hplain hgoals
      refine ⟨s', subset_solveBranches h s' (hsub s' hs'), hθ', hrest.ground,
        fun t ht hground => hrest.keeps t ht (hground1.keeps t ht hground), ?_⟩
      rw [List.flatMap_cons]
      refine List.forall_mem_append.mpr ⟨fun t ht => hrest.keeps t (hplain1 t ht) ?_,
        hrest.binds⟩
      rcases hs.apply_cases (hplain1 t ht) with hground | ⟨v, rfl, hv⟩
      · exact hground1.keeps t (hplain1 t ht) hground
      · exact hground1.binds _ (hv ▸ List.mem_map_of_mem ht)

/-! ## One rule -/

/-- Every variable of the head occurs in the body. -/
def Rule.RangeRestricted (r : Rule) : Prop := ∀ v ∈ r.head.vars, ∃ b ∈ r.body, v ∈ b.vars

instance (r : Rule) : Decidable r.RangeRestricted :=
  inferInstanceAs (Decidable (∀ v ∈ r.head.vars, ∃ b ∈ r.body, v ∈ b.vars))

theorem Predicate.Plain.isGround {p : Predicate} (hp : p.Plain) (h : hasVariables p = false) :
    p.isGround = true := by
  refine List.all_eq_true.mpr (fun t ht => ?_)
  rcases hp t ht with ⟨v, rfl⟩ | hground
  · exact absurd rfl (List.any_eq_false.mp h _ ht)
  · exact hground

theorem hasVariables_of_isGround {p : Predicate} (h : p.isGround = true) :
    hasVariables p = false := by
  refine List.any_eq_false.mpr (fun t ht => ?_)
  have hground := List.all_eq_true.mp h t ht
  cases t with
  | var v => simp [Term.isGround] at hground
  | const c => simp [isVariable]
  | func f args => simp [isVariable]
  | ref r => simp [isVariable]

namespace FixpointEngine

variable {engine : FixpointEngine} {fuel : Nat} {kb : KnowledgeBase} {rule : Rule}

/-- A derived fact is a head under a solution of the body, without variables. -/
theorem mem_deriveFactsFromRule {derived : List Predicate}
    (h : engine.deriveFactsFromRule fuel rule kb = some derived) :
    ∃ solutions, solveBody kb fuel (engine.maxIterations + 1) 0 rule.body [] = some solutions ∧
      ∀ fact, fact ∈ derived ↔
        (∃ s ∈ solutions, applySubstPredicate s rule.head = fact) ∧ hasVariables fact = false := by
  rw [deriveFactsFromRule] at h
  cases hs : solveBody kb fuel (engine.maxIterations + 1) 0 rule.body [] with
  | none => simp [hs] at h
  | some solutions =>
    simp only [hs, Option.some.injEq] at h
    refine ⟨solutions, rfl, fun fact => ?_⟩
    rw [← h, List.mem_filter, List.mem_map, Bool.not_eq_true']

/-- Over small facts and function-free rules a rule derives small facts. -/
theorem deriveFactsFromRule_returns {n : Nat} (hn : 0 < n) (hfuel : n < fuel)
    (hfacts : ∀ f ∈ kb.facts, f.Small n) (hrules : ∀ r ∈ kb.rules, r.functionFree = true)
    (hrule : rule ∈ kb.rules) : ∃ derived, engine.deriveFactsFromRule fuel rule kb = some derived ∧
      ∀ fact ∈ derived, fact.Small n := by
  have hbody : ∀ b ∈ rule.body, b.Small n := by
    intro b hb t ht
    have hfree := hrules rule hrule
    simp only [Rule.functionFree, Bool.and_eq_true, List.all_eq_true] at hfree
    exact Term.small_of_functionFree hn (hfree.2 b hb t ht)
  obtain ⟨solutions, hs, hsmall⟩ := solveBody_returns hn hfuel hfacts hrules
    (engine.maxIterations + 1) 0 rule.body [] hbody (fun v t hv => by simp at hv)
  refine ⟨_, by rw [deriveFactsFromRule, hs], fun fact hfact => ?_⟩
  obtain ⟨s, hs, rfl⟩ := List.mem_map.mp (List.mem_filter.mp hfact).1
  exact (Rule.small_of_functionFree hn (hrules rule hrule) (hsmall s hs)).1

/-- Derived facts are ground. -/
theorem deriveFactsFromRule_ground (hflat : Flat kb) (hrule : rule ∈ kb.rules)
    {derived : List Predicate} (h : engine.deriveFactsFromRule fuel rule kb = some derived) :
    ∀ fact ∈ derived, fact.isGround = true := by
  intro fact hfact
  obtain ⟨solutions, hs, hmem⟩ := mem_deriveFactsFromRule h
  obtain ⟨⟨s, hsol, rfl⟩, hvars⟩ := (hmem fact).mp hfact
  obtain ⟨hhead, hbody⟩ := Rule.plain_of_functionFree (hflat.rules rule hrule)
  exact (hhead.apply (solveBody_plain hflat hs hbody PlainSubst.nil s hsol)).isGround hvars

/-- What a rule derives without overwriting is in every set that is closed under the rules
with bodies up to the limit. -/
theorem deriveFactsFromRule_sound (hflat : Flat kb) {M : Set GroundAtom}
    (hM : ClosedUpTo engine.maxIterations kb M) (hrule : rule ∈ kb.rules)
    {derived : List Predicate} (h : engine.deriveFactsFromRule fuel rule kb = some derived)
    (hfresh : ∀ b ∈ solveBodyBindings kb fuel (engine.maxIterations + 1) 0 rule.body [], b.Fresh) :
    ∀ fact ∈ derived, ∀ θ, fact.eval θ ∈ M := by
  intro fact hfact η
  obtain ⟨solutions, hs, hmem⟩ := mem_deriveFactsFromRule h
  have hground := deriveFactsFromRule_ground hflat hrule h fact hfact
  obtain ⟨⟨s, hsol, rfl⟩, _⟩ := (hmem fact).mp hfact
  obtain ⟨_, hbody⟩ := Rule.plain_of_functionFree (hflat.rules rule hrule)
  obtain ⟨θ, hθ⟩ := (solveBody_plain hflat hs hbody PlainSubst.nil s hsol).exists_solution
  obtain ⟨_, hall⟩ := solveBody_sound hM (Nat.le_refl _) hs hfresh s hsol θ hθ
  have hlen := length_lt_of_solveBody hs (List.ne_nil_of_mem hsol)
  rw [Predicate.eval_of_isGround hground η θ, hθ.eval_predicate]
  exact hM.rules rule hrule (Nat.le_of_lt_succ hlen) θ hall

/-- A range-restricted rule with a body up to the limit derives every instance of its head
whose body is among the facts. -/
theorem deriveFactsFromRule_finds (hflat : Flat kb) (hrule : rule ∈ kb.rules)
    (hrange : rule.RangeRestricted) (hlen : rule.body.length ≤ engine.maxIterations)
    {derived : List Predicate} (h : engine.deriveFactsFromRule fuel rule kb = some derived)
    {θ : Valuation} (hbody : ∀ b ∈ rule.body, ∃ fact ∈ kb.facts, fact.eval θ = b.eval θ) :
    ∃ fact ∈ derived, fact.eval θ = rule.head.eval θ := by
  obtain ⟨solutions, hs, hmem⟩ := mem_deriveFactsFromRule h
  obtain ⟨hhead, hplain⟩ := Rule.plain_of_functionFree (hflat.rules rule hrule)
  obtain ⟨s, hsol, hθ, hgrounds⟩ := solveBody_finds hflat.facts hs (Nat.lt_succ_of_le hlen)
    (fun v t hv => by simp at hv) (Satisfies.nil θ) hplain hbody
  refine ⟨applySubstPredicate s rule.head, (hmem _).mpr ⟨⟨s, hsol, rfl⟩, ?_⟩,
    hθ.eval_predicate _⟩
  refine hasVariables_of_isGround (List.all_eq_true.mpr fun t ht => ?_)
  obtain ⟨u, hu, rfl⟩ := List.mem_map.mp ht
  rcases hhead u hu with ⟨v, rfl⟩ | hground
  · -- the variable occurs in a goal, whose arguments are ground now
    obtain ⟨b, hb, hv⟩ := hrange v
      (Predicate.mem_vars.mpr ⟨_, hu, by simp [Term.collectVars]⟩)
    obtain ⟨t, ht, hv⟩ := Predicate.mem_vars.mp hv
    have hground := hgrounds.binds t (List.mem_flatMap.mpr ⟨b, hb, ht⟩)
    rcases hplain b hb t ht with ⟨w, rfl⟩ | hclosed
    · rw [Term.collectVars, List.mem_singleton] at hv
      rw [hv]
      exact hground
    · exact absurd hv (Term.isGround_iff.mp hclosed v)
  · rw [applySubstTerm_of_isGround hground]
    exact hground

/-! ## One iteration -/

/-- The rules of an iteration return, and its new facts are what they derive and the facts
do not contain. -/
theorem mem_newFacts : ∀ {rules : List Rule} {new : List Predicate},
    engine.newFacts fuel kb rules = some new →
    (∀ rule ∈ rules, ∃ derived, engine.deriveFactsFromRule fuel rule kb = some derived) ∧
      ∀ fact, fact ∈ new ↔ fact ∉ kb.facts ∧ ∃ rule ∈ rules, ∃ derived,
        engine.deriveFactsFromRule fuel rule kb = some derived ∧ fact ∈ derived
  | [], new, h => by
    cases h
    simp
  | rule :: rules, new, h => by
    rw [newFacts] at h
    cases hd : engine.deriveFactsFromRule fuel rule kb with
    | none => simp [hd] at h
    | some derived =>
      cases hl : engine.newFacts fuel kb rules with
      | none => simp [hd, hl] at h
      | some later =>
        obtain ⟨hreturns, hmem⟩ := mem_newFacts hl
        simp only [hd, hl, Option.some.injEq] at h
        refine ⟨List.forall_mem_cons.mpr ⟨⟨derived, hd⟩, hreturns⟩, fun fact => ?_⟩
        rw [← h, List.mem_append, hmem, List.mem_filter, List.exists_mem_cons_iff]
        simp [hd, and_comm, and_or_left]

theorem newFacts_returns {P : Predicate → Prop} : ∀ {rules : List Rule},
    (∀ rule ∈ rules, ∃ derived, engine.deriveFactsFromRule fuel rule kb = some derived ∧
      ∀ fact ∈ derived, P fact) →
    ∃ new, engine.newFacts fuel kb rules = some new ∧ ∀ fact ∈ new, P fact
  | [], _ => ⟨[], rfl, fun _ h => by cases h⟩
  | rule :: rules, h => by
    obtain ⟨⟨derived, hd, hP⟩, h⟩ := List.forall_mem_cons.mp h
    obtain ⟨later, hl, hPl⟩ := newFacts_returns h
    refine ⟨derived.filter (fun fact => !kb.facts.contains fact) ++ later,
      by simp only [newFacts, hd, hl], List.forall_mem_append.mpr ⟨?_, hPl⟩⟩
    exact fun fact hfact => hP fact (List.mem_filter.mp hfact).1

/-- Every rule is run in an iteration. -/
theorem mem_rulesInOrder {names : HashOrder} : rule ∈ rulesInOrder names kb ↔ rule ∈ kb.rules := by
  rw [rulesInOrder, List.mem_flatMap]
  constructor
  · rintro ⟨name, _, hrule⟩
    exact (KnowledgeBase.mem_getRules.mp hrule).1
  · intro hrule
    refine ⟨rule.head.name, ?_, KnowledgeBase.mem_getRules.mpr ⟨hrule, rfl⟩⟩
    rw [(names.perm _).mem_iff, List.mem_dedup]
    exact List.mem_map_of_mem hrule

/-! ## The loop -/

/-- **What the loop keeps**: a property of knowledge bases that an iteration keeps holds of
the result, and when the loop ends by itself, an iteration from the result finds nothing. -/
theorem iterate_keeps {names : Nat → HashOrder} {P : KnowledgeBase → Prop}
    {Q : Binding → Prop}
    (hstep : ∀ {kb : KnowledgeBase} {order : HashOrder} {new : List Predicate}, P kb →
      engine.newFacts fuel kb (rulesInOrder order kb) = some new →
      (∀ rule ∈ kb.rules,
        ∀ b ∈ solveBodyBindings kb fuel (engine.maxIterations + 1) 0 rule.body [], Q b) →
      P { kb with facts := kb.facts ++ new }) :
    ∀ {left : Nat} {kb kb' : KnowledgeBase} {stopped : Bool}, P kb →
      engine.iterate fuel names left kb = some (kb', stopped) →
      (∀ b ∈ engine.iterateBindings fuel names left kb, Q b) →
      P kb' ∧ (stopped = true →
        ∃ order, engine.newFacts fuel kb' (rulesInOrder order kb') = some [])
  | 0, _, _, _, hP, h, _ => by
    cases h
    exact ⟨hP, fun h => by cases h⟩
  | left + 1, kb, kb', stopped, hP, h, hQ => by
    rw [iterate] at h
    rw [iterateBindings] at hQ
    obtain ⟨hrules, hQ⟩ := List.forall_mem_append.mp hQ
    cases hnew : engine.newFacts fuel kb (rulesInOrder (names left) kb) with
    | none => simp [hnew] at h
    | some new =>
      cases new with
      | nil =>
        simp only [hnew, Option.some.injEq, Prod.mk.injEq] at h
        obtain ⟨rfl, rfl⟩ := h
        exact ⟨hP, fun _ => ⟨names left, hnew⟩⟩
      | cons fact facts =>
        simp only [hnew] at h hQ
        refine iterate_keeps hstep (hstep hP hnew fun rule hrule b hb => hrules b ?_) h hQ
        exact List.mem_flatMap.mpr ⟨rule, mem_rulesInOrder.mpr hrule, hb⟩

/-- The loop returns if every iteration does and keeps what that rests on. -/
theorem iterate_returns {names : Nat → HashOrder} {P : KnowledgeBase → Prop}
    (hstep : ∀ {kb : KnowledgeBase} (order : HashOrder), P kb →
      ∃ new, engine.newFacts fuel kb (rulesInOrder order kb) = some new ∧
        P { kb with facts := kb.facts ++ new }) :
    ∀ {left : Nat} {kb : KnowledgeBase}, P kb →
      ∃ result, engine.iterate fuel names left kb = some result
  | 0, kb, _ => ⟨(kb, false), rfl⟩
  | left + 1, kb, hP => by
    obtain ⟨new, hnew, hP⟩ := hstep (names left) hP
    rw [iterate, hnew]
    cases new with
    | nil => exact ⟨_, rfl⟩
    | cons fact facts => exact iterate_returns hstep hP

/-- A knowledge base on the way: the rules of the first one, its facts and others. -/
structure Reached (kb kb' : KnowledgeBase) : Prop where
  rules : kb'.rules = kb.rules
  facts : kb.facts <+: kb'.facts
  flat : Flat kb'

theorem Reached.step {kb0 : KnowledgeBase} {order : HashOrder} {new : List Predicate}
    (h : Reached kb0 kb) (hnew : engine.newFacts fuel kb (rulesInOrder order kb) = some new) :
    Reached kb0 { kb with facts := kb.facts ++ new } where
  rules := h.rules
  facts := h.facts.trans (List.prefix_append _ _)
  flat := by
    refine ⟨List.forall_mem_append.mpr ⟨h.flat.facts, fun fact hfact => ?_⟩, h.flat.rules⟩
    obtain ⟨_, rule, hrule, derived, hd, hmem⟩ := ((mem_newFacts hnew).2 fact).mp hfact
    exact deriveFactsFromRule_ground h.flat (mem_rulesInOrder.mp hrule) hd fact hmem

end FixpointEngine

/-! ## The model -/

/-- The knowledge base without the rules whose bodies are longer than the limit. -/
def KnowledgeBase.withBodiesUpTo (kb : KnowledgeBase) (limit : Nat) : KnowledgeBase :=
  { kb with rules := kb.rules.filter (fun r => r.body.length ≤ limit) }

theorem KnowledgeBase.mem_withBodiesUpTo {kb : KnowledgeBase} {limit : Nat} {rule : Rule} :
    rule ∈ (kb.withBodiesUpTo limit).rules ↔ rule ∈ kb.rules ∧ rule.body.length ≤ limit := by
  simp [withBodiesUpTo]

theorem KnowledgeBase.mem_model_withBodiesUpTo {kb : KnowledgeBase} {fact : Predicate}
    (h : fact ∈ kb.facts) (limit : Nat) (θ : Valuation) :
    fact.eval θ ∈ (kb.withBodiesUpTo limit).model :=
  have hfact : fact ∈ (kb.withBodiesUpTo limit).facts := h
  fact_mem_model hfact θ

theorem KnowledgeBase.model_withBodiesUpTo_subset (kb : KnowledgeBase) (limit : Nat) :
    (kb.withBodiesUpTo limit).model ⊆ kb.model := by
  refine model_subset (fun fact hfact θ => ?_) (fun rule hrule θ => ?_)
  · have hfact : fact ∈ kb.facts := hfact
    exact fact_mem_model hfact θ
  · exact head_mem_model (mem_withBodiesUpTo.mp hrule).1

/-- What forward chaining should return. -/
structure ComputesModel (kb kb' : KnowledgeBase) (stopped : Bool) : Prop where
  ground : ∀ fact ∈ kb'.facts, fact.isGround = true
  sound : ∀ fact ∈ kb'.facts, ∀ θ, fact.eval θ ∈ kb.model
  facts : ∀ fact ∈ kb.facts, fact ∈ kb'.facts
  complete : stopped = true → ∀ atom ∈ kb.model, ∃ fact ∈ kb'.facts, ∀ θ, fact.eval θ = atom

namespace FixpointEngine

variable {engine : FixpointEngine} {fuel : Nat} {names : Nat → HashOrder}
  {kb kb' : KnowledgeBase} {stopped : Bool}

/-- What a call returns is on the way. -/
theorem reached (hflat : Flat kb)
    (h : engine.computeFixpoint fuel names kb = some (kb', stopped)) : Reached kb kb' :=
  (iterate_keeps (Q := fun _ => True) (fun h hnew _ => h.step hnew)
    ⟨rfl, List.prefix_rfl, hflat⟩ h (fun _ _ => trivial)).1

/-- Without overwriting, the facts are in the model of the rules with bodies up to the
limit. -/
theorem computeFixpoint_sound (hflat : Flat kb)
    (h : engine.computeFixpoint fuel names kb = some (kb', stopped))
    (hfresh : ∀ b ∈ engine.fixpointBindings fuel names kb, b.Fresh) :
    ∀ fact ∈ kb'.facts, ∀ θ, fact.eval θ ∈ (kb.withBodiesUpTo engine.maxIterations).model := by
  have hstart : Reached kb kb ∧
      ∀ fact ∈ kb.facts, ∀ θ, fact.eval θ ∈ (kb.withBodiesUpTo engine.maxIterations).model :=
    ⟨⟨rfl, List.prefix_rfl, hflat⟩, fun _ hfact θ =>
      KnowledgeBase.mem_model_withBodiesUpTo hfact _ θ⟩
  refine (iterate_keeps (P := fun kb1 => Reached kb kb1 ∧ ∀ fact ∈ kb1.facts, ∀ θ,
    fact.eval θ ∈ (kb.withBodiesUpTo engine.maxIterations).model) ?_ hstart h hfresh).1.2
  rintro kb1 order new ⟨hreached, hfacts⟩ hnew hfresh
  refine ⟨hreached.step hnew, List.forall_mem_append.mpr ⟨hfacts, fun fact hfact => ?_⟩⟩
  obtain ⟨_, rule, hrule, derived, hd, hmem⟩ := ((mem_newFacts hnew).2 fact).mp hfact
  have hclosed : ClosedUpTo engine.maxIterations kb1
      (kb.withBodiesUpTo engine.maxIterations).model :=
    ⟨hfacts, fun rule hrule hlen θ hbody => KnowledgeBase.head_mem_model
      (KnowledgeBase.mem_withBodiesUpTo.mpr ⟨hreached.rules ▸ hrule, hlen⟩) hbody⟩
  have hrule := mem_rulesInOrder.mp hrule
  exact deriveFactsFromRule_sound hreached.flat hclosed hrule hd (hfresh rule hrule) fact hmem

/-- When nothing changes any more, the model of the rules with bodies up to the limit is
among the facts. -/
theorem computeFixpoint_complete (hflat : Flat kb)
    (hrange : ∀ rule ∈ kb.rules, rule.RangeRestricted)
    (h : engine.computeFixpoint fuel names kb = some (kb', true)) :
    (kb.withBodiesUpTo engine.maxIterations).model
      ⊆ {atom | ∃ fact ∈ kb'.facts, ∀ θ, fact.eval θ = atom} := by
  have hreached := reached hflat h
  obtain ⟨order, hnew⟩ := (iterate_keeps (P := fun _ => True) (Q := fun _ => True)
    (fun _ _ _ => trivial) trivial h (fun _ _ => trivial)).2 rfl
  obtain ⟨hreturns, hmem⟩ := mem_newFacts hnew
  have hground : ∀ fact ∈ kb'.facts, ∀ θ,
      fact.eval θ ∈ {atom | ∃ fact ∈ kb'.facts, ∀ θ, fact.eval θ = atom} :=
    fun fact hfact θ =>
      ⟨fact, hfact, fun η => Predicate.eval_of_isGround (hreached.flat.facts fact hfact) η θ⟩
  refine KnowledgeBase.model_subset
    (fun fact hfact => hground fact (hreached.facts.subset hfact)) (fun rule hrule θ hbody => ?_)
  obtain ⟨hrule, hlen⟩ := KnowledgeBase.mem_withBodiesUpTo.mp hrule
  have hrule' : rule ∈ kb'.rules := hreached.rules ▸ hrule
  obtain ⟨derived, hd⟩ := hreturns rule (mem_rulesInOrder.mpr hrule')
  have hholds : ∀ b ∈ rule.body, ∃ fact ∈ kb'.facts, fact.eval θ = b.eval θ := by
    intro b hb
    obtain ⟨fact, hfact, hall⟩ := hbody b hb
    exact ⟨fact, hfact, hall θ⟩
  obtain ⟨fact, hfact, heq⟩ := deriveFactsFromRule_finds hreached.flat hrule'
    (hrange rule hrule) hlen hd hholds
  rw [← heq]
  refine hground fact ?_ θ
  -- a derived fact that is not among the facts would be new
  by_contra hnot
  have hin := (hmem fact).mpr ⟨hnot, rule, mem_rulesInOrder.mpr hrule', derived, hd, hfact⟩
  cases hin

theorem computeFixpoint_returns (engine : FixpointEngine) (names : Nat → HashOrder)
    (hflat : Flat kb) :
    ∃ n, ∀ fuel, n ≤ fuel → ∃ result, engine.computeFixpoint fuel names kb = some result := by
  obtain ⟨n, hn, hsmall⟩ := exists_small hflat.facts
  refine ⟨n + 1, fun fuel hfuel => ?_⟩
  refine iterate_returns (P := fun kb => (∀ f ∈ kb.facts, f.Small n) ∧
    ∀ r ∈ kb.rules, r.functionFree = true) (fun order hP => ?_) ⟨hsmall, hflat.rules⟩
  obtain ⟨new, hnew, hall⟩ := newFacts_returns fun rule hrule =>
    deriveFactsFromRule_returns hn (by omega : n < fuel) hP.1 hP.2 (mem_rulesInOrder.mp hrule)
  exact ⟨new, hnew, List.forall_mem_append.mpr ⟨hP.1, hall⟩, hP.2⟩

/-- **When forward chaining computes the model.** Over ground facts and function-free,
range-restricted rules it returns ground facts, the given ones among them. If no
unification on the way to a solution overwrites a binding, they are in the model, and a loop
that ends by itself has all of it exactly when the rules with bodies longer than the limit
add nothing to what the others derive. -/
theorem computesModel_iff (engine : FixpointEngine) (names : Nat → HashOrder)
    (kb : KnowledgeBase) (hflat : Flat kb) (hrange : ∀ rule ∈ kb.rules, rule.RangeRestricted) :
    (∃ n, ∀ fuel, n ≤ fuel → ∃ result, engine.computeFixpoint fuel names kb = some result) ∧
    ∀ fuel kb' stopped, engine.computeFixpoint fuel names kb = some (kb', stopped) →
      (∀ fact ∈ kb'.facts, fact.isGround = true) ∧ (∀ fact ∈ kb.facts, fact ∈ kb'.facts) ∧
      ((∀ b ∈ engine.fixpointBindings fuel names kb, b.Fresh) → (ComputesModel kb kb' stopped ↔
          (stopped = true → (kb.withBodiesUpTo engine.maxIterations).model = kb.model))) := by
  refine ⟨computeFixpoint_returns engine names hflat, fun fuel kb' stopped h => ?_⟩
  have hreached := reached hflat h
  have hkept : ∀ fact ∈ kb.facts, fact ∈ kb'.facts := fun fact hfact =>
    hreached.facts.subset hfact
  refine ⟨hreached.flat.facts, hkept, fun hfresh => ?_⟩
  have hsound := computeFixpoint_sound hflat h hfresh
  have hsubset := kb.model_withBodiesUpTo_subset engine.maxIterations
  constructor
  · intro hcomputes hstopped
    refine hsubset.antisymm fun atom hatom => ?_
    obtain ⟨fact, hfact, heq⟩ := hcomputes.complete hstopped atom hatom
    rw [← heq (fun _ => .const (.bool true))]
    exact hsound fact hfact _
  · intro hmodel
    refine ⟨hreached.flat.facts, fun fact hfact θ => hsubset (hsound fact hfact θ), hkept, ?_⟩
    rintro rfl atom hatom
    rw [← hmodel rfl] at hatom
    exact computeFixpoint_complete hflat hrange h hatom

/-- Sets that give their elements in the order of insertion. -/
def insertionOrder : Nat → HashOrder := fun _ => ⟨id, List.Perm.refl⟩

/-- Paths along the edges from `a` to `b` and from `b` to `c`. -/
def paths : KnowledgeBase where
  facts :=
    [⟨"edge", [.const (.string "a"), .const (.string "b")]⟩,
      ⟨"edge", [.const (.string "b"), .const (.string "c")]⟩]
  rules :=
    [⟨⟨"path", [.var "X", .var "Y"]⟩, [⟨"edge", [.var "X", .var "Y"]⟩]⟩,
      ⟨⟨"path", [.var "X", .var "Z"]⟩,
        [⟨"edge", [.var "X", .var "Y"]⟩, ⟨"path", [.var "Y", .var "Z"]⟩]⟩]

/-- The loop over the paths ends by itself, with the model. -/
theorem computesModel_paths : ∃ kb', computeFixpoint {} 2 insertionOrder paths = some (kb', true) ∧
      ComputesModel paths kb' true := by
  have hended : (computeFixpoint {} 2 insertionOrder paths).map Prod.snd = some true := by
    decide
  obtain ⟨⟨kb', stopped⟩, hrun, rfl⟩ := Option.map_eq_some_iff.mp hended
  have hall : paths.withBodiesUpTo 100 = paths := rfl
  refine ⟨kb', hrun, ?_⟩
  exact (((computesModel_iff {} insertionOrder paths ⟨by decide, by decide⟩
    (by decide)).2 2 kb' true hrun).2.2 (by decide)).mpr
      fun _ => congrArg KnowledgeBase.model hall

/-- `out` needs an `X` that is `top` and `seen`, and there is none: only `a` is `top`, and
only `b` is `seen`. -/
def overtaken : KnowledgeBase where
  facts :=
    [⟨"base", [.const (.string "a")]⟩, ⟨"seen", [.const (.string "b")]⟩,
      ⟨"tag", [.const (.string "c")]⟩]
  rules :=
    [⟨⟨"mid", [.var "A"]⟩, [⟨"base", [.var "A"]⟩]⟩,
      ⟨⟨"top", [.var "B"]⟩, [⟨"mid", [.var "B"]⟩]⟩,
      ⟨⟨"out", [.var "Y"]⟩,
        [⟨"top", [.var "X"]⟩, ⟨"seen", [.var "X"]⟩, ⟨"tag", [.var "Y"]⟩]⟩]

/-- In the model, `a` is all that is `base`, `mid` or `top`, `b` all that is `seen`, and
nothing is `out`. -/
theorem overtaken_model : overtaken.model ⊆ {atom | atom.name ≠ "out" ∧
    (atom.name = "seen" → atom.args = [.const (.string "b")]) ∧
    (atom.name ∈ ["base", "mid", "top"] → atom.args = [.const (.string "a")])} := by
  refine KnowledgeBase.model_subset (fun fact hfact θ => ?_) (fun rule hrule θ hbody => ?_)
  · simp only [overtaken, List.mem_cons, List.not_mem_nil, or_false] at hfact
    rcases hfact with rfl | rfl | rfl <;> simp [Predicate.eval, Term.eval]
  · simp only [overtaken, List.mem_cons, List.not_mem_nil, or_false] at hrule
    rcases hrule with rfl | rfl | rfl
    · simpa [Predicate.eval, Term.eval] using hbody
    · simpa [Predicate.eval, Term.eval] using hbody
    · -- the value of `X` would have to be both `a` and `b`
      obtain ⟨htop, hseen⟩ : θ "X" = .const (.string "a") ∧ θ "X" = .const (.string "b") := by
        simpa [Predicate.eval, Term.eval] using hbody
      rw [htop] at hseen
      simp at hseen

/-- Bound through `top` and `mid`, the `X` of `overtaken` passes for unbound at `seen`. -/
theorem not_computesModel : ¬ ∀ (engine : FixpointEngine) (fuel : Nat) (names : Nat → HashOrder)
      (kb kb' : KnowledgeBase) (stopped : Bool), Flat kb →
      (∀ rule ∈ kb.rules, rule.RangeRestricted) →
      engine.computeFixpoint fuel names kb = some (kb', stopped) →
      ComputesModel kb kb' stopped := by
  intro h
  have hderived : (computeFixpoint {} 2 insertionOrder overtaken).map
      (fun result => result.1.facts.contains ⟨"out", [.const (.string "c")]⟩) = some true := by
    decide
  obtain ⟨⟨kb', stopped⟩, hrun, hmem⟩ := Option.map_eq_some_iff.mp hderived
  have hcomputes := h {} 2 insertionOrder overtaken kb' stopped
    ⟨by decide, by decide⟩ (by decide) hrun
  have hmodel := hcomputes.sound _ (List.contains_iff_mem.mp hmem) (fun _ => .const (.bool true))
  exact (overtaken_model hmodel).1 rfl

end FixpointEngine

end Ipfrs.TensorLogic
