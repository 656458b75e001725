/-
Ipfrs.TensorLogic.Completeness — when a query finds a ground goal.

Rules are renamed by depth alone, so all uses of rules at one depth share their
variables. A derivation the search can follow gives equally named rule variables of
one depth the same value (`LevelDerives`): one valuation of the renamed variables then
stands for the whole derivation, every unification on the way has it as a solution,
and the search keeps a substitution that it satisfies (`solveGoal_complete`). The
converse is soundness: a run that binds safely answers only with such derivations.

Whether the search returns at all is the business of `FlatPrograms`.
-/
import Ipfrs.TensorLogic.FlatPrograms
import Ipfrs.TensorLogic.Soundness

namespace Ipfrs.TensorLogic

open Ipfrs.Core Ipfrs.Lib

/-! ## Renamed rules -/

theorem toList_renamedVar (v : String) (suffix : Nat) :
    (renamedVar v suffix).toList = v.toList ++ '_' :: Nat.toDigits 10 suffix := by
  simp [renamedVar, Nat.toString_eq_repr, Nat.toList_repr]

/-- The last underscore ends the old name, so both parts can be read back. -/
theorem renamedVar_inj {v v' : String} {d d' : Nat} (h : renamedVar v d = renamedVar v' d') :
    v = v' ∧ d = d' := by
  have hsplit : ∀ {l l' : List Char} {n : Nat} {rest : List Char},
      l ++ '_' :: Nat.toDigits 10 n = l' ++ '_' :: rest → ∀ c, l' = l ++ c → c = [] := by
    intro l l' n rest heq c hc
    rw [hc, List.append_assoc, List.append_cancel_left_eq] at heq
    cases c with
    | nil => rfl
    | cons a c =>
      simp only [List.cons_append, List.cons.injEq] at heq
      exact absurd (heq.2 ▸ by simp) (Nat.underscore_not_in_toDigits (n := n))
  have hlist := congrArg String.toList h
  rw [toList_renamedVar, toList_renamedVar] at hlist
  have hname : v.toList = v'.toList := by
    rcases List.append_eq_append_iff.mp hlist with ⟨c, hc, _⟩ | ⟨c, hc, _⟩
    · simp [hc, hsplit hlist c hc]
    · simp [hc, hsplit hlist.symm c hc]
  have hdigits : Nat.toDigits 10 d = Nat.toDigits 10 d' := by
    rw [hname] at hlist
    simpa using hlist
  have hnum := congrArg (fun digits => Nat.ofDigitChars 10 digits 0) hdigits
  simp only [Nat.ofDigitChars_ten_toDigits] at hnum
  exact ⟨String.toList_injective hname, hnum⟩

theorem applySubstTerm_renameSubst {vars : List String} {v : String} (h : v ∈ vars) (d : Nat) :
    applySubstTerm (renameSubst vars d) (.var v) = .var (renamedVar v d) := by
  have hget : (renameSubst vars d).get? v = some (.var (renamedVar v d)) := by
    rw [Substitution.get?, renameSubst, SortedAssoc.get?_ofEntries]
    cases hfind : (vars.map (fun v => (v, Term.var (renamedVar v d)))).reverse.find?
        (fun e => e.1 == v) with
    | none =>
      have hnone := List.find?_eq_none.mp hfind (v, .var (renamedVar v d)) (by simpa using h)
      simp at hnone
    | some e =>
      have hkey : e.1 = v := by simpa using List.find?_some hfind
      have hmem := List.mem_of_find?_eq_some hfind
      simp only [List.mem_reverse, List.mem_map] at hmem
      obtain ⟨w, _, rfl⟩ := hmem
      simp only at hkey
      simp [hkey]
  simp [applySubstTerm, hget]

/-- A renamed predicate of a rule has the instances of the original one. -/
theorem eval_renamed {rule : Rule} {p : Predicate} (h : ∀ v ∈ p.vars, v ∈ rule.vars)
    (d : Nat) (θ : Valuation) : (applySubstPredicate (renameSubst rule.vars d) p).eval θ
      = p.eval (fun v => θ (renamedVar v d)) := by
  rw [Predicate.eval_applySubstPredicate]
  have hargs : ∀ t ∈ p.args,
      t.eval (fun v => (applySubstTerm (renameSubst rule.vars d) (.var v)).eval θ)
        = t.eval (fun v => θ (renamedVar v d)) := by
    intro t ht
    refine Term.eval_congr (fun v hv => ?_)
    rw [applySubstTerm_renameSubst (h v (Predicate.mem_vars.mpr ⟨t, ht, hv⟩))]
    rfl
  simp only [Predicate.eval, List.map_congr_left hargs]

theorem eval_renamed_head (rule : Rule) (d : Nat) (θ : Valuation) :
    (renameRuleVars rule d).head.eval θ = rule.head.eval (fun v => θ (renamedVar v d)) :=
  eval_renamed (fun _ hv => Rule.mem_vars.mpr (.inl hv)) d θ

theorem eval_renamed_body {rule : Rule} {b : Predicate} (hb : b ∈ rule.body) (d : Nat)
    (θ : Valuation) : (applySubstPredicate (renameSubst rule.vars d) b).eval θ
      = b.eval (fun v => θ (renamedVar v d)) :=
  eval_renamed (fun _ hv => Rule.mem_vars.mpr (.inr ⟨b, hb, hv⟩)) d θ

/-! ## Derivations that agree on each level -/

/-- A derivation by renamed rules with at most `levels` levels of nodes, the first at
`depth`, in which all variables have their values from `θ`. -/
def Derives (kb : KnowledgeBase) (θ : Valuation) : Nat → Nat → GroundAtom → Prop
  | 0, _, _ => False
  | levels + 1, depth, atom =>
    (∃ fact ∈ kb.facts, atom = fact.eval θ) ∨
      ∃ rule ∈ kb.rules, atom = (renameRuleVars rule depth).head.eval θ ∧
        ∀ b ∈ (renameRuleVars rule depth).body, Derives kb θ levels (depth + 1) (b.eval θ)

theorem closedUnder_derives (kb : KnowledgeBase) : ClosedUnder kb (Derives kb) where
  fact := fun _ _ _ fact hfact => .inl ⟨fact, hfact, rfl⟩
  rule := fun _ _ _ rule hrule hbody => .inr ⟨rule, hrule, rfl, hbody⟩

/-- A derivation with at most `levels` levels of nodes, the first at `depth`, in which
every rule at depth `d` takes the values of its variables from `Θ d`. -/
def LevelDerives (kb : KnowledgeBase) (Θ : Nat → Valuation) : Nat → Nat → GroundAtom → Prop
  | 0, _, _ => False
  | levels + 1, depth, atom =>
    (∃ fact ∈ kb.facts, atom = fact.eval (Θ depth)) ∨
      ∃ rule ∈ kb.rules, atom = rule.head.eval (Θ depth) ∧
        ∀ b ∈ rule.body, LevelDerives kb Θ levels (depth + 1) (b.eval (Θ depth))

/-- One valuation of the renamed variables for all levels. -/
theorem exists_renamed_valuation (Θ : Nat → Valuation) :
    ∃ θ : Valuation, ∀ v d, θ (renamedVar v d) = Θ d v := by
  classical
  refine ⟨fun w => if h : ∃ v d, w = renamedVar v d then Θ h.choose_spec.choose h.choose
    else Θ 0 w, fun v d => ?_⟩
  have h : ∃ v' d', renamedVar v d = renamedVar v' d' := ⟨v, d, rfl⟩
  obtain ⟨hv, hd⟩ := renamedVar_inj h.choose_spec.choose_spec
  simp only [dif_pos h]
  rw [← hd, ← hv]

/-! ## Unification finds a solution that is there -/

theorem sizeOf_le_of_mem (θ : Valuation) {v : String} {t : Term} (h : v ∈ t.collectVars) :
    sizeOf (θ v) ≤ sizeOf (t.eval θ) := by
  induction t using Term.induct with
  | var w =>
    rw [Term.collectVars, List.mem_singleton] at h
    rw [h, Term.eval]
  | const c | ref c => simp [Term.collectVars] at h
  | func f args ih =>
    simp only [Term.collectVars, Term.mem_collectAll] at h
    obtain ⟨t, ht, hv⟩ := h
    have hle := ih t ht hv
    have hlt := List.sizeOf_lt_of_mem (List.mem_map_of_mem (f := Term.eval θ) ht)
    simp only [Term.eval, Term.evalAll_eq_map, Value.func.sizeOf_spec]
    omega

/-- No finite term solves an equation that the occurs check rejects. -/
theorem not_occursIn {θ : Valuation} {v : String} {t : Term} (heq : θ v = t.eval θ)
    (hne : t ≠ .var v) : occursIn v t = false := by
  by_contra hocc
  have hmem := occursIn_iff.mp (by simpa using hocc)
  cases t with
  | var w =>
    rw [Term.collectVars, List.mem_singleton] at hmem
    exact hne (by rw [hmem])
  | const c | ref c => simp [Term.collectVars] at hmem
  | func f args =>
    simp only [Term.collectVars, Term.mem_collectAll] at hmem
    obtain ⟨t, ht, hv⟩ := hmem
    have hle := sizeOf_le_of_mem θ hv
    have hlt := List.sizeOf_lt_of_mem (List.mem_map_of_mem (f := Term.eval θ) ht)
    rw [heq] at hle
    simp only [Term.eval, Term.evalAll_eq_map, Value.func.sizeOf_spec] at hle
    omega

theorem unifyVar_complete {θ : Valuation} {v : String} {t : Term} {s : Substitution}
    (hs : Satisfies θ s) (heq : θ v = t.eval θ) :
    ∃ s', unifyVar v t s = some s' ∧ Satisfies θ s' := by
  unfold unifyVar
  split
  · exact ⟨s, rfl, hs⟩
  · next hsame =>
    rw [not_occursIn heq (fun ht => hsame (isVarNamed_iff.mpr ht))]
    exact ⟨_, rfl, hs.insert heq⟩

theorem unifyArgs_complete {θ : Valuation}
    {unify : Term → Term → Substitution → Option (Option Substitution)}
    (hunify : ∀ t1 t2 s r, unify t1 t2 s = some r → Satisfies θ s → t1.eval θ = t2.eval θ →
      ∃ s', r = some s' ∧ Satisfies θ s') :
    ∀ (args1 args2 : List Term) (s : Substitution) (r : Option Substitution),
      unifyArgs unify args1 args2 s = some r → Satisfies θ s →
      args1.map (Term.eval θ) = args2.map (Term.eval θ) → ∃ s', r = some s' ∧ Satisfies θ s'
  | [], args2, s, r, h, hs, _ => by
    cases h
    exact ⟨s, rfl, hs⟩
  | a1 :: args1, [], s, r, h, hs, heq => by simp at heq
  | a1 :: args1, a2 :: args2, s, r, h, hs, heq => by
    simp only [List.map_cons, List.cons.injEq] at heq
    rw [unifyArgs] at h
    cases hu : unify a1 a2 s with
    | none => simp [hu] at h
    | some r1 =>
      obtain ⟨s1, rfl, hs1⟩ := hunify a1 a2 s r1 hu hs heq.1
      simp only [hu] at h
      exact unifyArgs_complete hunify args1 args2 s1 r h hs1 heq.2

/-- **Unification is complete** for every valuation that solves the substitution. -/
theorem unify_complete {θ : Valuation} : ∀ (fuel : Nat) (t1 t2 : Term) (s : Substitution)
    (r : Option Substitution), unify fuel t1 t2 s = some r → Satisfies θ s →
    t1.eval θ = t2.eval θ → ∃ s', r = some s' ∧ Satisfies θ s'
  | 0, t1, t2, s, r, h, _, _ => by cases h
  | fuel + 1, t1, t2, s, r, h, hs, heq => by
    rw [← hs.eval_term t1, ← hs.eval_term t2] at heq
    cases h1 : applySubstTerm s t1 with
    | var v =>
      rw [h1] at heq
      obtain ⟨s', hvar, hs'⟩ := unifyVar_complete hs heq
      simp only [unify, h1, hvar, Option.some.injEq] at h
      exact ⟨s', h.symm, hs'⟩
    | const c1 =>
      cases h2 : applySubstTerm s t2 with
      | var v =>
        rw [h1, h2] at heq
        obtain ⟨s', hvar, hs'⟩ := unifyVar_complete hs heq.symm
        simp only [unify, h1, h2, hvar, Option.some.injEq] at h
        exact ⟨s', h.symm, hs'⟩
      | const c2 =>
        have hc : c1 = c2 := by simpa [h1, h2, Term.eval] using heq
        simp only [unify, h1, h2, if_pos hc, Option.some.injEq] at h
        exact ⟨s, h.symm, hs⟩
      | func f2 args2 => simp [h1, h2, Term.eval] at heq
      | ref r2 => simp [h1, h2, Term.eval] at heq
    | func f1 args1 =>
      cases h2 : applySubstTerm s t2 with
      | var v =>
        rw [h1, h2] at heq
        obtain ⟨s', hvar, hs'⟩ := unifyVar_complete hs heq.symm
        simp only [unify, h1, h2, hvar, Option.some.injEq] at h
        exact ⟨s', h.symm, hs'⟩
      | const c2 | ref c2 => simp [h1, h2, Term.eval] at heq
      | func f2 args2 =>
        simp only [h1, h2, Term.eval, Term.evalAll_eq_map, Value.func.injEq] at heq
        have hlen : args1.length = args2.length := by
          simpa using congrArg List.length heq.2
        simp only [unify, h1, h2, heq.1, hlen, and_self, if_true] at h
        exact unifyArgs_complete (unify_complete fuel) args1 args2 s r h hs heq.2
    | ref r1 =>
      cases h2 : applySubstTerm s t2 with
      | var v =>
        rw [h1, h2] at heq
        obtain ⟨s', hvar, hs'⟩ := unifyVar_complete hs heq.symm
        simp only [unify, h1, h2, hvar, Option.some.injEq] at h
        exact ⟨s', h.symm, hs'⟩
      | const c2 => simp [h1, h2, Term.eval] at heq
      | func f2 args2 => simp [h1, h2, Term.eval] at heq
      | ref r2 =>
        have hc : r1.cid = r2.cid := by simpa [h1, h2, Term.eval] using heq
        simp only [unify, h1, h2, if_pos hc, Option.some.injEq] at h
        exact ⟨s, h.symm, hs⟩

theorem unifyPredicates_complete {θ : Valuation} {fuel : Nat} {p1 p2 : Predicate}
    {s : Substitution} {r : Option Substitution} (h : unifyPredicates fuel p1 p2 s = some r)
    (hs : Satisfies θ s) (heq : p1.eval θ = p2.eval θ) : ∃ s', r = some s' ∧ Satisfies θ s' := by
  simp only [Predicate.eval, GroundAtom.mk.injEq] at heq
  have hlen : p1.args.length = p2.args.length := by simpa using congrArg List.length heq.2
  simp only [unifyPredicates, heq.1, hlen, ne_eq, not_true_eq_false, or_self, if_false] at h
  exact unifyArgs_complete (unify_complete fuel) _ _ s r h hs heq.2

/-! ## The search finds a derivation that is there -/

/-- The list stays below the limit and keeps what it has. -/
structure Kept (limit : Nat) (solutions solutions' : List Substitution) : Prop where
  below : solutions'.length < limit
  mem : ∀ s ∈ solutions, s ∈ solutions'

theorem Kept.refl {limit : Nat} {l : List Substitution} (h : l.length < limit) :
    Kept limit l l := ⟨h, fun _ hs => hs⟩

theorem Kept.trans {limit : Nat} {l l' l'' : List Substitution} (h : Kept limit l l')
    (h' : Kept limit l' l'') : Kept limit l l'' := ⟨h'.below, fun s hs => h'.mem s (h.mem s hs)⟩

theorem Kept.push {limit : Nat} {l : List Substitution} {s : Substitution}
    (h : (l ++ [s]).length < limit) : Kept limit l (l ++ [s]) :=
  ⟨h, fun _ hs => List.mem_append_left _ hs⟩

/-- Some substitution of the list has the valuation as a solution. -/
def Holds (θ : Valuation) (solutions : List Substitution) : Prop :=
  ∃ s ∈ solutions, Satisfies θ s

theorem Holds.kept {θ : Valuation} {limit : Nat} {l l' : List Substitution} (h : Holds θ l)
    (hkept : Kept limit l l') : Holds θ l' := by
  obtain ⟨s, hs, hsat⟩ := h
  exact ⟨s, hkept.mem s hs, hsat⟩

section

variable {kb : KnowledgeBase} {θ : Valuation} {limit : Nat}

theorem solveFacts_complete (θ : Valuation) {waiting : Bool} {fuel : Nat} {goal : Predicate}
    {s : Substitution} :
    ∀ {facts : List Predicate} {solutions : List Substitution} {full : Bool}
      {solutions' : List Substitution},
      solveFacts fuel limit goal s facts solutions = some (full, solutions') →
      (∀ e ∈ solveFactsEvents waiting fuel limit goal s facts solutions, e.Below limit) →
      solutions.length < limit →
      full = false ∧ Kept limit solutions solutions' ∧
        (Satisfies θ s → (∃ fact ∈ facts, goal.eval θ = fact.eval θ) → Holds θ solutions')
  | [], solutions, full, solutions', h, _, hlen => by
    cases h
    exact ⟨rfl, Kept.refl hlen, fun _ hex => by simp at hex⟩
  | fact :: facts, solutions, full, solutions', h, hbelow, hlen => by
    obtain ⟨_, ⟨hu, h, hbelow⟩ | ⟨s1, hu, hpush, hnext⟩⟩ := solveFacts_cons h hbelow
    · obtain ⟨hfull, hkept, hholds⟩ := solveFacts_complete θ h hbelow hlen
      refine ⟨hfull, hkept, fun hs hex => hholds hs ?_⟩
      obtain ⟨f, hf, heq⟩ := hex
      rcases List.mem_cons.mp hf with rfl | hf
      · obtain ⟨s', hs', _⟩ := unifyPredicates_complete hu hs heq
        cases hs'
      · exact ⟨f, hf, heq⟩
    · rcases hnext with ⟨hfull, _⟩ | ⟨_, h, hbelow⟩
      · exact absurd hpush (Nat.not_lt.mpr hfull)
      · obtain ⟨hfull, hkept, hholds⟩ := solveFacts_complete θ h hbelow hpush
        refine ⟨hfull, (Kept.push hpush).trans hkept, fun hs hex => ?_⟩
        obtain ⟨f, hf, heq⟩ := hex
        rcases List.mem_cons.mp hf with rfl | hf
        · obtain ⟨s', hs', hsat⟩ := unifyPredicates_complete hu hs heq
          cases hs'
          exact Holds.kept ⟨s1, by simp, hsat⟩ hkept
        · exact hholds hs ⟨f, hf, heq⟩

theorem solveRules_complete {waiting : Bool} {fuel depth : Nat} {goal : Predicate}
    {s : Substitution} {D : Predicate → Prop}
    {solveBody : List Predicate → Substitution → List Substitution → Option (List Substitution)}
    {bodyEvents : List Predicate → Substitution → List Substitution → List Event}
    (hbody : ∀ goals s solutions solutions', solveBody goals s solutions = some solutions' →
      (∀ e ∈ bodyEvents goals s solutions, e.Below limit) → solutions.length < limit →
      Kept limit solutions solutions' ∧
        (Satisfies θ s → (∀ g ∈ goals, D g) → Holds θ solutions')) :
    ∀ {rules : List Rule} {solutions solutions' : List Substitution},
      solveRules solveBody fuel depth goal s rules solutions = some solutions' →
      (∀ e ∈ solveRulesEvents solveBody bodyEvents waiting fuel depth goal s rules solutions,
        e.Below limit) →
      solutions.length < limit →
      Kept limit solutions solutions' ∧
        (Satisfies θ s → (∃ rule ∈ rules, goal.eval θ = (renameRuleVars rule depth).head.eval θ ∧
          ∀ b ∈ (renameRuleVars rule depth).body, D b) → Holds θ solutions')
  | [], solutions, solutions', h, _, hlen => by
    cases h
    exact ⟨Kept.refl hlen, fun _ hex => by simp at hex⟩
  | rule :: rules, solutions, solutions', h, hbelow, hlen => by
    obtain ⟨_, ⟨hu, h, hbelow⟩ | ⟨s1, solutions1, hu, hb, hbelow1, h, hbelow⟩⟩ :=
      solveRules_cons h hbelow
    · obtain ⟨hkept, hholds⟩ := solveRules_complete hbody h hbelow hlen
      refine ⟨hkept, fun hs hex => hholds hs ?_⟩
      obtain ⟨r, hr, heq, hD⟩ := hex
      rcases List.mem_cons.mp hr with rfl | hr
      · obtain ⟨s', hs', _⟩ := unifyPredicates_complete hu hs heq
        cases hs'
      · exact ⟨r, hr, heq, hD⟩
    · obtain ⟨hkept1, hholds1⟩ := hbody _ _ _ _ hb hbelow1 hlen
      obtain ⟨hkept2, hholds2⟩ := solveRules_complete hbody h hbelow hkept1.below
      refine ⟨hkept1.trans hkept2, fun hs hex => ?_⟩
      obtain ⟨r, hr, heq, hD⟩ := hex
      rcases List.mem_cons.mp hr with rfl | hr
      · obtain ⟨s', hs', hsat⟩ := unifyPredicates_complete hu hs heq
        cases hs'
        exact (hholds1 hsat hD).kept hkept2
      · exact hholds2 hs ⟨r, hr, heq, hD⟩

/-- Each intermediate solution is handed to the rest of the goals. -/
theorem solveEach_complete {Q : Prop}
    {solveRest : Substitution → List Substitution → Option (List Substitution)}
    {restEvents : Substitution → List Substitution → List Event}
    (hrest : ∀ s solutions solutions', solveRest s solutions = some solutions' →
      (∀ e ∈ restEvents s solutions, e.Below limit) → solutions.length < limit →
      Kept limit solutions solutions' ∧ (Satisfies θ s → Q → Holds θ solutions')) :
    ∀ {intermediate solutions solutions' : List Substitution},
      solveEach solveRest limit intermediate solutions = some solutions' →
      (∀ e ∈ solveEachEvents solveRest restEvents limit intermediate solutions,
        e.Below limit) →
      solutions.length < limit →
      Kept limit solutions solutions' ∧ (Holds θ intermediate → Q → Holds θ solutions')
  | [], solutions, solutions', h, _, hlen => by
    cases h
    exact ⟨Kept.refl hlen, fun hin _ => by obtain ⟨s, hs, _⟩ := hin; cases hs⟩
  | s1 :: intermediate, solutions, solutions', h, hbelow, hlen => by
    obtain ⟨hfull, _⟩ | ⟨_, solutions1, hr, hbelow1, h, hbelow⟩ := solveEach_cons h hbelow
    · exact absurd hlen (Nat.not_lt.mpr hfull)
    · obtain ⟨hkept1, hfirst⟩ := hrest s1 solutions solutions1 hr hbelow1 hlen
      obtain ⟨hkept2, hothers⟩ := solveEach_complete hrest h hbelow hkept1.below
      refine ⟨hkept1.trans hkept2, fun hin hQ => ?_⟩
      obtain ⟨s', hs', hsat⟩ := hin
      rcases List.mem_cons.mp hs' with rfl | hs'
      · exact (hfirst hsat hQ).kept hkept2
      · exact hothers ⟨s', hs', hsat⟩ hQ

theorem solveConjunction_complete {D : Predicate → Prop}
    {solve : Predicate → Substitution → List Substitution → Option (List Substitution)}
    {events : Bool → Predicate → Substitution → List Substitution → List Event}
    (hpos : 0 < limit)
    (hgoal : ∀ waiting goal s solutions solutions', solve goal s solutions = some solutions' →
      (∀ e ∈ events waiting goal s solutions, e.Below limit) → solutions.length < limit →
      Kept limit solutions solutions' ∧ (Satisfies θ s → D goal → Holds θ solutions'))
    (waiting : Bool) :
    ∀ (goals : List Predicate) (s : Substitution) (solutions solutions' : List Substitution),
      solveConjunction solve limit goals s solutions = some solutions' →
      (∀ e ∈ solveConjunctionEvents solve events limit waiting goals s solutions,
        e.Below limit) →
      solutions.length < limit →
      Kept limit solutions solutions' ∧
        (Satisfies θ s → (∀ g ∈ goals, D g) → Holds θ solutions')
  | [], s, solutions, solutions', h, hbelow, _ => by
    cases h
    have hpush := hbelow _ (List.mem_singleton_self _)
    exact ⟨Kept.push hpush, fun hs _ => ⟨s, by simp, hs⟩⟩
  | goal :: goals, s, solutions, solutions', h, hbelow, hlen => by
    obtain ⟨intermediate, hs1, hbelow1, h, hbelow⟩ := solveConjunction_cons h hbelow
    obtain ⟨_, hholds1⟩ := hgoal _ goal s [] intermediate hs1 hbelow1 (by simpa using hpos)
    obtain ⟨hkept, hholds⟩ := solveEach_complete
      (solveConjunction_complete hpos hgoal waiting goals) h hbelow hlen
    refine ⟨hkept, fun hs hD => ?_⟩
    obtain ⟨hD1, hD2⟩ := List.forall_mem_cons.mp hD
    exact hholds (hholds1 hs hD1) hD2

/-- **The search is complete** below its limits: it finds what a derivation with one
valuation derives. -/
theorem solveGoal_complete {engine : InferenceEngine} {fuel : Nat}
    (hpos : 0 < engine.maxSolutions) :
    ∀ (levels depth : Nat) (waiting : Bool) (goal : Predicate) (s : Substitution)
      (solutions solutions' : List Substitution),
      solveGoal engine kb fuel levels depth goal s solutions = some solutions' →
      (∀ e ∈ solveGoalEvents engine kb fuel levels depth waiting goal s solutions,
        e.Below engine.maxSolutions) →
      solutions.length < engine.maxSolutions →
      Kept engine.maxSolutions solutions solutions' ∧
        (Satisfies θ s → Derives kb θ levels depth (goal.eval θ) → Holds θ solutions')
  | 0, depth, waiting, goal, s, solutions, solutions', h, _, hlen => by
    cases h
    exact ⟨Kept.refl hlen, fun _ hD => hD.elim⟩
  | levels + 1, depth, waiting, goal, s, solutions, solutions', h, hbelow, hlen => by
    obtain ⟨hatLimit, _⟩ | ⟨_, full, solutions1, hf, hbelow1, hnext⟩ := solveGoal_succ h hbelow
    · exact absurd hlen (Nat.not_lt.mpr hatLimit)
    · obtain ⟨rfl, hkept1, hholds1⟩ := solveFacts_complete θ hf hbelow1 hlen
      obtain ⟨hfull, _⟩ | ⟨_, h, hbelow⟩ := hnext
      · cases hfull
      obtain ⟨hkept2, hholds2⟩ := solveRules_complete
        (solveConjunction_complete hpos
          (fun w g s l l' => solveGoal_complete hpos levels (depth + 1) w g s l l') waiting)
        h hbelow hkept1.below
      refine ⟨hkept1.trans hkept2, fun hs hD => ?_⟩
      rcases hD with ⟨fact, hfact, heq⟩ | ⟨rule, hrule, heq, hbody⟩
      · -- the derivation is a fact
        refine (hholds1 hs ⟨fact, ?_, ?_⟩).kept hkept2
        · exact KnowledgeBase.mem_getPredicates.mpr
            ⟨hfact, (congrArg GroundAtom.name heq).symm⟩
        · rw [hs.eval_predicate, heq]
      · -- the derivation ends with a rule
        refine hholds2 hs ⟨rule, ?_, ?_, hbody⟩
        · exact KnowledgeBase.mem_getRules.mpr
            ⟨hrule, (congrArg GroundAtom.name heq).symm⟩
        · rw [hs.eval_predicate, heq]

end

/-! ## Queries -/

/-- **When a query finds a goal**, over any knowledge base: if one valuation serves a
whole derivation, and in a run that binds safely only then. -/
theorem query_finds {engine : InferenceEngine} {kb : KnowledgeBase} {goal : Predicate}
    {fuel : Nat} {solutions : List Substitution} (hrun : query engine fuel goal kb = some solutions)
    (hfull : NeverFull engine (queryEvents engine fuel goal kb)) :
    ((∃ θ, Derives kb θ (engine.maxDepth + 1) 0 (goal.eval θ)) → solutions ≠ []) ∧
    ((∀ e ∈ queryEvents engine fuel goal kb, e.Safe) → solutions ≠ [] →
      ∃ θ, Derives kb θ (engine.maxDepth + 1) 0 (goal.eval θ)) := by
  constructor
  · rintro ⟨θ, hderives⟩
    obtain ⟨_, hholds⟩ := solveGoal_complete hfull.1 _ _ _ _ _ _ _ hrun hfull.2 hfull.1
    obtain ⟨s, hs, _⟩ := hholds (Satisfies.nil θ) hderives
    exact List.ne_nil_of_mem hs
  · intro hsafe hne
    obtain ⟨s, hs⟩ := List.exists_mem_of_ne_nil _ hne
    obtain ⟨new, rfl, hnew⟩ := solveGoal_sound (closedUnder_derives kb) _ _ _ _ _ _ _ hrun hsafe
    obtain ⟨href, hderives⟩ := hnew s hs
    obtain ⟨θ, hθ⟩ := (href.acyclic Acyclic.nil).exists_solution
    exact ⟨θ, hderives θ hθ⟩

/-- Over ground facts, the valuations of the levels are one valuation of the renamed
variables. -/
theorem derives_iff_levelDerives {kb : KnowledgeBase}
    (hfacts : ∀ fact ∈ kb.facts, fact.isGround = true) (θ : Valuation) (levels : Nat) :
    ∀ {depth : Nat} {atom : GroundAtom}, Derives kb θ levels depth atom ↔
      LevelDerives kb (fun d v => θ (renamedVar v d)) levels depth atom := by
  have hfact : ∀ fact ∈ kb.facts, ∀ depth,
      fact.eval (fun v => θ (renamedVar v depth)) = fact.eval θ := fun fact hmem depth =>
    Predicate.eval_of_isGround (hfacts fact hmem) _ _
  induction levels with
  | zero => exact Iff.rfl
  | succ levels ih =>
    intro depth atom
    rw [Derives, LevelDerives]
    refine or_congr ?_ ?_
    · refine exists_congr (fun fact => and_congr_right (fun hmem => ?_))
      rw [hfact fact hmem]
    · refine exists_congr (fun rule => and_congr_right (fun _ => ?_))
      rw [eval_renamed_head]
      refine and_congr_right (fun _ => ?_)
      simp only [renameRuleVars, List.forall_mem_map]
      refine forall_congr' (fun b => forall_congr' (fun hb => ?_))
      rw [eval_renamed_body hb, ih]

/-- **When a query finds a ground goal.** Over ground facts and function-free rules the
query returns. If no solution list reaches the limit, it finds every goal with a
derivation of height at most `max_depth` that agrees on each level, and if moreover it
only makes safe bindings, it finds no other. -/
theorem query_complete (engine : InferenceEngine) (kb : KnowledgeBase) (hflat : Flat kb)
    (goal : Predicate) (hgoal : goal.isGround = true) :
    (∃ n, ∀ fuel, n ≤ fuel → ∃ solutions, query engine fuel goal kb = some solutions) ∧
    ∀ fuel solutions, query engine fuel goal kb = some solutions →
      NeverFull engine (queryEvents engine fuel goal kb) →
      ((∃ Θ, LevelDerives kb Θ (engine.maxDepth + 1) 0 (goal.eval (Θ 0))) → solutions ≠ []) ∧
      ((∀ e ∈ queryEvents engine fuel goal kb, e.Safe) → solutions ≠ [] →
        ∃ Θ, LevelDerives kb Θ (engine.maxDepth + 1) 0 (goal.eval (Θ 0))) := by
  refine ⟨hflat.query_returns hgoal engine, ?_⟩
  intro fuel solutions hrun hfull
  obtain ⟨hfinds, honly⟩ := query_finds hrun hfull
  constructor
  · rintro ⟨Θ, hderives⟩
    obtain ⟨θ, hθ⟩ := exists_renamed_valuation Θ
    have hΘ : Θ = fun d v => θ (renamedVar v d) := by
      funext d v
      exact (hθ v d).symm
    refine hfinds ⟨θ, (derives_iff_levelDerives hflat.facts θ _).mpr ?_⟩
    rw [← hΘ, Predicate.eval_of_isGround hgoal θ (Θ 0)]
    exact hderives
  · intro hsafe hne
    obtain ⟨θ, hderives⟩ := honly hsafe hne
    refine ⟨fun d v => θ (renamedVar v d), ?_⟩
    rw [Predicate.eval_of_isGround hgoal _ θ]
    exact (derives_iff_levelDerives hflat.facts θ _).mp hderives

/-- Two edges, a rule for single steps and one for paths of two steps. -/
def twoSteps : KnowledgeBase where
  facts :=
    [⟨"e", [.const (.string "a"), .const (.string "b")]⟩,
      ⟨"e", [.const (.string "b"), .const (.string "c")]⟩]
  rules :=
    [⟨⟨"step", [.var "X", .var "Y"]⟩, [⟨"e", [.var "X", .var "Y"]⟩]⟩,
      ⟨⟨"path", [.var "X", .var "Z"]⟩,
        [⟨"step", [.var "X", .var "Y"]⟩, ⟨"step", [.var "Y", .var "Z"]⟩]⟩]

/-- The limits of the samples. -/
def shallow : InferenceEngine := { maxDepth := 3, maxSolutions := 10 }

theorem twoSteps_flat : Flat twoSteps := ⟨by decide, by decide⟩

/-- One step is found. -/
theorem query_complete_sample :
    ∃ solutions, query shallow 2
        ⟨"step", [.const (.string "a"), .const (.string "b")]⟩ twoSteps = some solutions ∧
      solutions ≠ [] := by
  have hrun : query shallow 2 ⟨"step", [.const (.string "a"), .const (.string "b")]⟩ twoSteps
      = some [[("X_0", .const (.string "a")), ("Y_0", .const (.string "b"))]] := by
    decide
  refine ⟨_, hrun, ?_⟩
  refine ((query_complete shallow twoSteps twoSteps_flat
    ⟨"step", [.const (.string "a"), .const (.string "b")]⟩ (by decide)).2 2 _ hrun
    (by decide)).1 ?_
  refine ⟨fun _ v => if v = "X" then .const (.string "a") else .const (.string "b"), ?_⟩
  refine .inr ⟨_, List.mem_cons_self, by simp [Predicate.eval, Term.eval], ?_⟩
  intro b hb
  rw [List.mem_singleton.mp hb]
  exact .inl ⟨_, List.mem_cons_self, by simp [Predicate.eval, Term.eval]⟩

/-- A path of two steps: both steps use the rule at depth one, with the same variables,
and nothing is found. -/
theorem query_misses_path :
    ¬ ∀ (engine : InferenceEngine) (kb : KnowledgeBase) (goal : Predicate) (fuel : Nat)
      (solutions : List Substitution), Flat kb → goal.isGround = true →
      (∀ θ, goal.eval θ ∈ Horn.within kb.clauses engine.maxDepth) →
      query engine fuel goal kb = some solutions →
      NeverFull engine (queryEvents engine fuel goal kb) → solutions ≠ [] := by
  intro h
  have hedge : ∀ x y : Constant, ⟨"e", [.const x, .const y]⟩ ∈ twoSteps.facts →
      ∀ n, (⟨"e", [.const x, .const y]⟩ : GroundAtom) ∈ Horn.within twoSteps.clauses (n + 1) := by
    intro x y hfact n
    have hclause := KnowledgeBase.fact_mem_clauses hfact (fun _ => .const x)
    exact Horn.mem_within_succ.mpr ⟨_, hclause, rfl, by simp⟩
  have hstep : ∀ x y : Constant, ⟨"e", [.const x, .const y]⟩ ∈ twoSteps.facts →
      (⟨"step", [.const x, .const y]⟩ : GroundAtom) ∈ Horn.within twoSteps.clauses 2 := by
    intro x y hfact
    have hclause := twoSteps.rule_mem_clauses List.mem_cons_self
      (fun v => if v = "X" then .const x else .const y)
    refine Horn.mem_within_succ.mpr ⟨_, hclause, by simp [Predicate.eval, Term.eval], ?_⟩
    simpa [Predicate.eval, Term.eval] using hedge x y hfact 0
  have hpath : ∀ θ, Predicate.eval θ ⟨"path", [.const (.string "a"), .const (.string "c")]⟩ ∈
      Horn.within twoSteps.clauses 3 := by
    intro θ
    have hclause := twoSteps.rule_mem_clauses
      (List.mem_cons_of_mem _ List.mem_cons_self) (fun v => if v = "X" then .const (.string "a")
        else if v = "Y" then .const (.string "b") else .const (.string "c"))
    refine Horn.mem_within_succ.mpr ⟨_, hclause, by simp [Predicate.eval, Term.eval], ?_⟩
    have h1 := hstep (.string "a") (.string "b") List.mem_cons_self
    have h2 := hstep (.string "b") (.string "c") (List.mem_cons_of_mem _ List.mem_cons_self)
    simpa [Predicate.eval, Term.eval] using ⟨h1, h2⟩
  exact h shallow twoSteps ⟨"path", [.const (.string "a"), .const (.string "c")]⟩ 2 []
    twoSteps_flat (by decide) hpath (by decide) (by decide) rfl

end Ipfrs.TensorLogic
