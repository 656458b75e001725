/-
Ipfrs.TensorLogic.Soundness — what the answers of a query mean.

A binding is safe when its variable is not bound yet and does not lead back to
itself through the bindings there are. As long as a run makes only safe bindings,
every solution of a returned substitution solves all equations of the unifications
that led to it (`Refines`), so the goal holds under it in the least Herbrand model:
a fact or rule with renamed variables has the instances of the original one. The
engine does not check that a variable is unbound. Since a substitution is applied
one step at a time, the variable it binds can be one it reached through another
binding, and then the old binding is lost.
-/
import Ipfrs.TensorLogic.UnifyRun

namespace Ipfrs.TensorLogic

open Ipfrs.Core Ipfrs.Lib

/-! ## Safe bindings -/

/-- The variable is unbound, and no variable of the term leads to it. -/
def Binding.Safe (b : Binding) : Prop :=
  b.before.get? b.var = none ∧
    ∀ w ∈ b.term.collectVars, ¬ Relation.ReflTransGen (DependsOn b.before) w b.var

/-- The variable is unbound. -/
def Binding.Fresh (b : Binding) : Prop := b.before.get? b.var = none

instance (b : Binding) : Decidable b.Fresh := inferInstanceAs (Decidable (_ = none))

theorem Binding.Safe.fresh {b : Binding} (h : b.Safe) : b.Fresh := h.1

/-- The first binding of a run is safe if its variable does not occur in the term. -/
theorem Binding.safe_of_nil {v : String} {t : Term} (h : v ∉ t.collectVars) :
    Binding.Safe ⟨v, t, []⟩ := by
  refine ⟨rfl, fun w hw hreach => ?_⟩
  rcases Relation.ReflTransGen.cases_head hreach with rfl | ⟨u, ⟨t', ht', _⟩, _⟩
  · exact h hw
  · simp at ht'

variable {r s : Substitution} {l1 l2 : List Term} {bs : List Binding}

/-- An unbound variable is bound safely to a ground term. -/
theorem Binding.safe_of_isGround {v : String} {t : Term} (hfree : s.get? v = none)
    (h : t.isGround = true) : Binding.Safe ⟨v, t, s⟩ :=
  ⟨hfree, fun w hw => absurd hw (Term.isGround_iff.mp h w)⟩

/-- A step that binds safely, or does not bind. -/
def Event.Safe : Event → Prop
  | .bound _ b => b.Safe
  | .pushed _ => True

/-- The later substitution has no cycle if the earlier has none, and its solutions
solve the earlier one. -/
structure Refines (s s' : Substitution) : Prop where
  acyclic : Acyclic s → Acyclic s'
  satisfies : ∀ θ, Satisfies θ s' → Satisfies θ s

namespace Refines

theorem refl (s : Substitution) : Refines s s := ⟨id, fun _ h => h⟩

theorem trans {s s' s'' : Substitution} (h : Refines s s') (h' : Refines s' s'') : Refines s s'' :=
  ⟨fun ha => h'.acyclic (h.acyclic ha), fun θ hθ => h.satisfies θ (h'.satisfies θ hθ)⟩

end Refines

/-! ## Unification -/

/-- A walk that overwrites nothing keeps the equations there were. -/
theorem UnifyRun.satisfies (h : UnifyRun l1 l2 s bs r) (hfresh : ∀ b ∈ bs, b.Fresh)
    {θ : Valuation} (hθ : Satisfies θ r) : Satisfies θ s := by
  induction h with
  | nil s => exact hθ
  | same _ _ ih => exact ih hfresh hθ
  | bind _ _ _ ih =>
    obtain ⟨hfirst, hrest⟩ := List.forall_mem_cons.mp hfresh
    exact ((ih hrest hθ).of_insert hfirst).1
  | args _ _ _ _ ih => exact ih hfresh hθ

/-- A walk that overwrites nothing makes its pairs equal. -/
theorem UnifyRun.map_eval_eq (h : UnifyRun l1 l2 s bs r) (hfresh : ∀ b ∈ bs, b.Fresh)
    {θ : Valuation} (hθ : Satisfies θ r) : l1.map (Term.eval θ) = l2.map (Term.eval θ) := by
  refine (h.eval_eq_iff (h.satisfies hfresh hθ)).mpr ?_
  induction h with
  | nil s => simp
  | same _ _ ih => exact ih hfresh hθ
  | bind _ _ hrun ih =>
    obtain ⟨hfirst, hrest⟩ := List.forall_mem_cons.mp hfresh
    have hv := ((hrun.satisfies hrest hθ).of_insert hfirst).2
    exact List.forall_mem_cons.mpr ⟨hv, ih hrest hθ⟩
  | args _ _ _ _ ih => exact ih hfresh hθ

/-- A walk that binds safely refines its substitution. -/
theorem UnifyRun.refines (h : UnifyRun l1 l2 s bs r) (hsafe : ∀ b ∈ bs, b.Safe) : Refines s r where
  acyclic := by
    induction h with
    | nil s => exact id
    | same _ _ ih => exact ih hsafe
    | bind _ _ _ ih =>
      obtain ⟨⟨_, hfree⟩, hrest⟩ := List.forall_mem_cons.mp hsafe
      exact fun ha => ih hrest (ha.insert hfree)
    | args _ _ _ _ ih => exact ih hsafe
  satisfies _ hθ := h.satisfies (fun b hb => (hsafe b hb).fresh) hθ

/-- **Unification is sound** as long as it overwrites nothing. -/
theorem unifyPredicates_satisfies {fuel : Nat} {p1 p2 : Predicate} {s' : Substitution}
    (h : unifyPredicates fuel p1 p2 s = some (some s'))
    (hfresh : ∀ b ∈ unifyPredicatesBindings fuel p1 p2 s, b.Fresh) {θ : Valuation}
    (hθ : Satisfies θ s') : Satisfies θ s ∧ p1.eval θ = p2.eval θ := by
  obtain ⟨hname, hrun⟩ := UnifyRun.ofUnifyPredicates h
  refine ⟨hrun.satisfies hfresh hθ, ?_⟩
  rw [Predicate.eval, Predicate.eval, hname, hrun.map_eval_eq hfresh hθ]

/-- A unification that binds safely keeps the substitution free of cycles, too. -/
theorem unifyPredicates_sound {fuel : Nat} {p1 p2 : Predicate} {s' : Substitution}
    (h : unifyPredicates fuel p1 p2 s = some (some s'))
    (hsafe : ∀ b ∈ unifyPredicatesBindings fuel p1 p2 s, b.Safe) :
    Refines s s' ∧ ∀ θ, Satisfies θ s' → p1.eval θ = p2.eval θ :=
  ⟨(UnifyRun.ofUnifyPredicates h).2.refines hsafe, fun _ hθ =>
    (unifyPredicates_satisfies h (fun b hb => (hsafe b hb).fresh) hθ).2⟩

/-! ## The search -/

/-- The second list continues the first with substitutions that have the property. -/
def Adds (P : Substitution → Prop) (solutions solutions' : List Substitution) : Prop :=
  ∃ new, solutions' = solutions ++ new ∧ ∀ s ∈ new, P s

namespace Adds

variable {P Q : Substitution → Prop}

theorem refl (l : List Substitution) : Adds P l l := ⟨[], by simp, by simp⟩

theorem trans {l l' l'' : List Substitution} (h : Adds P l l') (h' : Adds P l' l'') :
    Adds P l l'' := by
  obtain ⟨new, rfl, hnew⟩ := h
  obtain ⟨new', rfl, hnew'⟩ := h'
  exact ⟨new ++ new', by simp, List.forall_mem_append.mpr ⟨hnew, hnew'⟩⟩

theorem push {s : Substitution} (h : P s) (l : List Substitution) : Adds P l (l ++ [s]) :=
  ⟨[s], rfl, by simpa using h⟩

theorem mono {l l' : List Substitution} (h : Adds P l l') (hPQ : ∀ s, P s → Q s) : Adds Q l l' := by
  obtain ⟨new, rfl, hnew⟩ := h
  exact ⟨new, rfl, fun s hs => hPQ s (hnew s hs)⟩

end Adds

section

variable {kb : KnowledgeBase} (D : Valuation → Nat → Nat → GroundAtom → Prop)

/-- `D θ levels depth` holds of the instances of the facts, and is closed under the
renamed rules, with one level less for their bodies. -/
structure ClosedUnder (kb : KnowledgeBase) (D : Valuation → Nat → Nat → GroundAtom → Prop) :
    Prop where
  fact : ∀ θ levels depth, ∀ fact ∈ kb.facts, D θ (levels + 1) depth (fact.eval θ)
  rule : ∀ θ levels depth, ∀ rule ∈ kb.rules,
    (∀ b ∈ (renameRuleVars rule depth).body, D θ levels (depth + 1) (b.eval θ)) →
    D θ (levels + 1) depth ((renameRuleVars rule depth).head.eval θ)

/-- Every solution of `s'` solves `s` and makes the goal hold. -/
def Answers (levels depth : Nat) (goal : Predicate) (s s' : Substitution) : Prop :=
  Refines s s' ∧ ∀ θ, Satisfies θ s' → D θ levels depth (goal.eval θ)

/-- The same for the goals of a conjunction. -/
def AnswersAll (levels depth : Nat) (goals : List Predicate) (s s' : Substitution) : Prop :=
  Refines s s' ∧ ∀ θ, Satisfies θ s' → ∀ goal ∈ goals, D θ levels depth (goal.eval θ)

variable {D} (hD : ClosedUnder kb D)
include hD

theorem solveFacts_sound {waiting : Bool} {fuel maxSolutions levels depth : Nat}
    {goal : Predicate} {s : Substitution} :
    ∀ {facts : List Predicate} {solutions : List Substitution} {full : Bool}
      {solutions' : List Substitution}, (∀ fact ∈ facts, fact ∈ kb.facts) →
      solveFacts fuel maxSolutions goal s facts solutions = some (full, solutions') →
      (∀ e ∈ solveFactsEvents waiting fuel maxSolutions goal s facts solutions, e.Safe) →
      Adds (Answers D (levels + 1) depth goal s) solutions solutions'
  | [], solutions, full, solutions', _, h, _ => by
    cases h
    exact Adds.refl _
  | fact :: facts, solutions, full, solutions', hmem, h, hsafe => by
    have hrest : ∀ fact ∈ facts, fact ∈ kb.facts := fun f hf => hmem f (List.mem_cons_of_mem _ hf)
    obtain ⟨hbind, ⟨_, h, hsafe⟩ | ⟨s', hu, _, hnext⟩⟩ := solveFacts_cons h hsafe
    · exact solveFacts_sound hrest h hsafe
    · obtain ⟨href, heq⟩ := unifyPredicates_sound hu hbind
      have hanswer : Answers D (levels + 1) depth goal s s' := by
        refine ⟨href, fun θ hθ => ?_⟩
        rw [heq θ hθ]
        exact hD.fact θ levels depth fact (hmem fact List.mem_cons_self)
      rcases hnext with ⟨_, rfl⟩ | ⟨_, h, hsafe⟩
      · exact Adds.push hanswer _
      · exact (Adds.push hanswer _).trans (solveFacts_sound hrest h hsafe)

theorem solveRules_sound {waiting : Bool} {fuel levels depth : Nat} {goal : Predicate}
    {s : Substitution}
    {solveBody : List Predicate → Substitution → List Substitution → Option (List Substitution)}
    {bodyEvents : List Predicate → Substitution → List Substitution → List Event}
    (hbody : ∀ goals s solutions solutions', solveBody goals s solutions = some solutions' →
      (∀ e ∈ bodyEvents goals s solutions, e.Safe) →
      Adds (AnswersAll D levels (depth + 1) goals s) solutions solutions') :
    ∀ {rules : List Rule} {solutions solutions' : List Substitution},
      (∀ rule ∈ rules, rule ∈ kb.rules) →
      solveRules solveBody fuel depth goal s rules solutions = some solutions' →
      (∀ e ∈ solveRulesEvents solveBody bodyEvents waiting fuel depth goal s rules solutions,
        e.Safe) →
      Adds (Answers D (levels + 1) depth goal s) solutions solutions'
  | [], solutions, solutions', _, h, _ => by
    cases h
    exact Adds.refl _
  | rule :: rules, solutions, solutions', hmem, h, hsafe => by
    have hrest : ∀ rule ∈ rules, rule ∈ kb.rules := fun r hr => hmem r (List.mem_cons_of_mem _ hr)
    obtain ⟨hbind, ⟨_, h, hsafe⟩ | ⟨s1, solutions1, hu, hb, hsafeBody, h, hsafe⟩⟩ :=
      solveRules_cons h hsafe
    · exact solveRules_sound hbody hrest h hsafe
    · obtain ⟨href, heq⟩ := unifyPredicates_sound hu hbind
      have hadds := hbody _ _ _ _ hb hsafeBody
      refine (hadds.mono (fun s' hs' => ?_)).trans (solveRules_sound hbody hrest h hsafe)
      obtain ⟨href', hall⟩ := hs'
      refine ⟨href.trans href', fun θ hθ => ?_⟩
      rw [heq θ (href'.satisfies θ hθ)]
      exact hD.rule θ levels depth rule (hmem rule List.mem_cons_self) (hall θ hθ)

omit hD in
/-- Each intermediate solution is handed to the rest of the goals. -/
theorem solveEach_sound {maxSolutions levels depth : Nat} {goal : Predicate}
    {goals : List Predicate} {s : Substitution}
    {solveRest : Substitution → List Substitution → Option (List Substitution)}
    {restEvents : Substitution → List Substitution → List Event}
    (hrest : ∀ s solutions solutions', solveRest s solutions = some solutions' →
      (∀ e ∈ restEvents s solutions, e.Safe) →
      Adds (AnswersAll D levels depth goals s) solutions solutions') :
    ∀ {intermediate solutions solutions' : List Substitution},
      (∀ s1 ∈ intermediate, Answers D levels depth goal s s1) →
      solveEach solveRest maxSolutions intermediate solutions = some solutions' →
      (∀ e ∈ solveEachEvents solveRest restEvents maxSolutions intermediate solutions, e.Safe) →
      Adds (AnswersAll D levels depth (goal :: goals) s) solutions solutions'
  | [], solutions, solutions', _, h, _ => by
    cases h
    exact Adds.refl _
  | s1 :: intermediate, solutions, solutions', hinter, h, hsafe => by
    obtain ⟨hs1, hinter⟩ := List.forall_mem_cons.mp hinter
    obtain ⟨_, rfl⟩ | ⟨_, solutions1, hr, hsafe1, h, hsafe⟩ := solveEach_cons h hsafe
    · exact Adds.refl _
    · have hadds := hrest s1 solutions solutions1 hr hsafe1
      refine (hadds.mono (fun s' hs' => ?_)).trans (solveEach_sound hrest hinter h hsafe)
      obtain ⟨href, hall⟩ := hs'
      refine ⟨hs1.1.trans href, fun θ hθ => List.forall_mem_cons.mpr ⟨?_, ?_⟩⟩
      · exact hs1.2 θ (href.satisfies θ hθ)
      · exact hall θ hθ

omit hD in
theorem solveConjunction_sound {maxSolutions levels depth : Nat}
    {solve : Predicate → Substitution → List Substitution → Option (List Substitution)}
    {events : Bool → Predicate → Substitution → List Substitution → List Event}
    (hgoal : ∀ waiting goal s solutions solutions', solve goal s solutions = some solutions' →
      (∀ e ∈ events waiting goal s solutions, e.Safe) →
      Adds (Answers D levels depth goal s) solutions solutions') (waiting : Bool) :
    ∀ (goals : List Predicate) (s : Substitution) (solutions solutions' : List Substitution),
      solveConjunction solve maxSolutions goals s solutions = some solutions' →
      (∀ e ∈ solveConjunctionEvents solve events maxSolutions waiting goals s solutions, e.Safe) →
      Adds (AnswersAll D levels depth goals s) solutions solutions'
  | [], s, solutions, solutions', h, _ => by
    cases h
    exact Adds.push ⟨Refines.refl s, fun θ _ => by simp⟩ _
  | goal :: goals, s, solutions, solutions', h, hsafe => by
    obtain ⟨intermediate, hs, hsafeGoal, h, hsafe⟩ := solveConjunction_cons h hsafe
    obtain ⟨new, hnew, hanswers⟩ := hgoal _ goal s [] intermediate hs hsafeGoal
    rw [List.nil_append] at hnew
    subst hnew
    exact solveEach_sound (solveConjunction_sound hgoal waiting goals) hanswers h hsafe

/-- **The search is sound**: what it adds to the solutions answers the goal. -/
theorem solveGoal_sound {engine : InferenceEngine} {fuel : Nat} :
    ∀ (levels depth : Nat) (waiting : Bool) (goal : Predicate) (s : Substitution)
      (solutions solutions' : List Substitution),
      solveGoal engine kb fuel levels depth goal s solutions = some solutions' →
      (∀ e ∈ solveGoalEvents engine kb fuel levels depth waiting goal s solutions, e.Safe) →
      Adds (Answers D levels depth goal s) solutions solutions'
  | 0, depth, waiting, goal, s, solutions, solutions', h, _ => by
    cases h
    exact Adds.refl _
  | levels + 1, depth, waiting, goal, s, solutions, solutions', h, hsafe => by
    have hfacts : ∀ fact ∈ kb.getPredicates (applySubstPredicate s goal).name,
        fact ∈ kb.facts := fun f hf => (KnowledgeBase.mem_getPredicates.mp hf).1
    have hrules : ∀ rule ∈ kb.getRules (applySubstPredicate s goal).name,
        rule ∈ kb.rules := fun r hr => (KnowledgeBase.mem_getRules.mp hr).1
    -- answers to the goal after the application are answers to the goal
    have hlift : ∀ s', Answers D (levels + 1) depth (applySubstPredicate s goal) s s' →
        Answers D (levels + 1) depth goal s s' := by
      intro s' hs'
      refine ⟨hs'.1, fun θ hθ => ?_⟩
      rw [← (hs'.1.satisfies θ hθ).eval_predicate goal]
      exact hs'.2 θ hθ
    obtain ⟨_, rfl⟩ | ⟨_, full, solutions1, hf, hsafeFacts, hnext⟩ := solveGoal_succ h hsafe
    · exact Adds.refl _
    · have h1 : Adds (Answers D (levels + 1) depth (applySubstPredicate s goal) s)
          solutions solutions1 := solveFacts_sound hD hfacts hf hsafeFacts
      rcases hnext with ⟨_, rfl⟩ | ⟨_, h, hsafe⟩
      · exact h1.mono hlift
      · have h2 := solveRules_sound hD
          (solveConjunction_sound
            (fun w g s l l' => solveGoal_sound levels (depth + 1) w g s l l') waiting)
          hrules h hsafe
        exact (h1.trans h2).mono hlift

end

/-! ## Queries -/

/-- The model is closed under the renamed rules. -/
theorem closedUnder_model (kb : KnowledgeBase) :
    ClosedUnder kb (fun _ _ _ atom => atom ∈ kb.model) where
  fact := fun θ _ _ fact hfact => KnowledgeBase.fact_mem_model hfact θ
  rule := by
    intro θ levels depth rule hrule hbody
    simp only [renameRuleVars, Predicate.eval_applySubstPredicate] at hbody ⊢
    refine KnowledgeBase.head_mem_model hrule (fun b hb => ?_)
    rw [← Predicate.eval_applySubstPredicate]
    exact hbody _ (List.mem_map_of_mem hb)

/-- **Queries are sound when they bind safely.** If every binding of a run is safe,
every substitution it returns comes to rest on the goal when it is applied again and
again, and all ground instances of what is left are in the least Herbrand model. -/
theorem query_sound (engine : InferenceEngine) (fuel : Nat) (goal : Predicate)
    (kb : KnowledgeBase) (solutions : List Substitution)
    (h : query engine fuel goal kb = some solutions)
    (hsafe : ∀ e ∈ queryEvents engine fuel goal kb, e.Safe) :
    ∀ s ∈ solutions, ∃ n, applySubstPredicate s ((applySubstPredicate s)^[n] goal)
        = (applySubstPredicate s)^[n] goal ∧
      ∀ θ, ((applySubstPredicate s)^[n] goal).eval θ ∈ kb.model := by
  obtain ⟨new, rfl, hnew⟩ := solveGoal_sound (closedUnder_model kb) _ _ _ _ _ _ _ h hsafe
  intro s hs
  obtain ⟨href, hmodel⟩ := hnew s hs
  obtain ⟨n, hfixed, hvaluation⟩ := (href.acyclic Acyclic.nil).resolve
  refine ⟨n, ?_, fun η => ?_⟩
  · simp [iterate_applySubstPredicate, applySubstPredicate, hfixed]
  · obtain ⟨θ, hθ, heval⟩ := hvaluation η
    have hgoal : ((applySubstPredicate s)^[n] goal).eval η = goal.eval θ := by
      simp [iterate_applySubstPredicate, Predicate.eval, heval]
    rw [hgoal]
    exact hmodel θ hθ

/-- `g(X) :- p(X)` over the fact `p(a)`. -/
def oneRule : KnowledgeBase where
  facts := [⟨"p", [.const (.string "a")]⟩]
  rules := [⟨⟨"g", [.var "X"]⟩, [⟨"p", [.var "X"]⟩]⟩]

/-- The query `g(U)` binds `U` to the renamed rule variable and that one to `a`. -/
theorem query_sound_sample :
    ∃ solutions, query {} 2 ⟨"g", [.var "U"]⟩ oneRule = some solutions ∧
      ∀ s ∈ solutions, ∃ n, ∀ θ,
        ((applySubstPredicate s)^[n] ⟨"g", [.var "U"]⟩).eval θ ∈ oneRule.model := by
  have hrun : query {} 2 ⟨"g", [.var "U"]⟩ oneRule
      = some [[("U", .var "X_0"), ("X_0", .const (.string "a"))]] := by decide
  have hevents : queryEvents {} 2 ⟨"g", [.var "U"]⟩ oneRule
      = [.bound false ⟨"U", .var "X_0", []⟩,
        .bound false ⟨"X_0", .const (.string "a"), [("U", .var "X_0")]⟩,
        .pushed 1, .pushed 1] := by decide
  have hsafe : ∀ e ∈ queryEvents {} 2 ⟨"g", [.var "U"]⟩ oneRule, e.Safe := by
    rw [hevents]
    have hfirst : Event.Safe (.bound false ⟨"U", .var "X_0", []⟩) :=
      Binding.safe_of_nil (by decide)
    have hsecond : Event.Safe (.bound false
        ⟨"X_0", .const (.string "a"), [("U", .var "X_0")]⟩) :=
      Binding.safe_of_isGround (by decide) rfl
    simpa using ⟨hfirst, hsecond, trivial⟩
  refine ⟨_, hrun, fun s hs => ?_⟩
  obtain ⟨n, _, hmodel⟩ := query_sound {} 2 ⟨"g", [.var "U"]⟩ oneRule _ hrun hsafe s hs
  exact ⟨n, hmodel⟩

/-- A chain of rules from `p` down to the fact `q(a)`, and a fact `s(b)`. -/
def chain : KnowledgeBase where
  facts := [⟨"q", [.const (.string "a")]⟩, ⟨"s", [.const (.string "b")]⟩]
  rules :=
    [⟨⟨"p", [.var "A"]⟩, [⟨"p2", [.var "A"]⟩]⟩,
      ⟨⟨"p2", [.var "B"]⟩, [⟨"q", [.var "B"]⟩]⟩,
      ⟨⟨"g", [.var "X"]⟩, [⟨"p", [.var "X"]⟩, ⟨"s", [.var "X"]⟩]⟩]

/-- Nothing is both below `p` and in `s`. -/
theorem not_mem_chain_model (args : List Value) : ⟨"g", args⟩ ∉ chain.model := by
  have hsub : chain.model ⊆ {atom | atom.name ≠ "g" ∧
      (atom.name = "s" → atom.args = [.const (.string "b")]) ∧
      (atom.name ≠ "s" → atom.args = [.const (.string "a")])} := by
    refine KnowledgeBase.model_subset ?_ ?_
    · intro fact hfact θ
      simp only [chain, List.mem_cons, List.not_mem_nil, or_false] at hfact
      rcases hfact with rfl | rfl
      · simp [Predicate.eval, Term.eval]
      · simp [Predicate.eval, Term.eval]
    · intro rule hrule θ hbody
      simp only [chain, List.mem_cons, List.not_mem_nil, or_false] at hrule
      rcases hrule with rfl | rfl | rfl
      · simpa [Predicate.eval, Term.eval] using hbody
      · simpa [Predicate.eval, Term.eval] using hbody
      · simp [Predicate.eval, Term.eval] at hbody
        simp [hbody.1] at hbody
  intro h
  exact (hsub h).1 rfl

/-- The query `g(U)` over the chain: the variable of the last rule is bound to `a` and
then, reached through the others, to `b`. -/
theorem query_rebinds :
    ¬ ∀ (engine : InferenceEngine) (fuel : Nat) (goal : Predicate) (kb : KnowledgeBase)
      (solutions : List Substitution), query engine fuel goal kb = some solutions →
      ∀ s ∈ solutions, ∀ n, applySubstPredicate s ((applySubstPredicate s)^[n] goal)
          = (applySubstPredicate s)^[n] goal →
        ∀ θ, ((applySubstPredicate s)^[n] goal).eval θ ∈ kb.model := by
  intro h
  have hrun : query {} 2 ⟨"g", [.var "U"]⟩ chain
      = some [[("A_1", .var "B_2"), ("B_2", .const (.string "b")), ("U", .var "X_0"),
        ("X_0", .var "A_1")]] := by decide
  have hmem := h {} 2 ⟨"g", [.var "U"]⟩ chain _ hrun _ (List.mem_singleton_self _) 4
    (by decide) (fun _ => .const (.string "b"))
  exact not_mem_chain_model _ hmem

end Ipfrs.TensorLogic
