/-
Ipfrs.TensorLogic.ProofChecker — what `verify` accepts.

A proof whose root is a fact is accepted only for an instance of a fact. A proof
whose root is a rule is accepted for any goal with the name of the rule's head: the
goal is not compared with the head, and a subproof not with the arguments of its body
predicate (`verify_accepts_forged`).

How the proof goes: an accepted proof is sound if the comparison that is left out would
succeed, that is if the nodes have ground instances that are steps of the knowledge base
(`Proof.Supports`, induction over the proof in `mem_model_of_supports`). Over all proofs
the checker is sound exactly when no rule can be used at all, which is when every rule has
a body predicate that no fact shares its name with, or, with a depth limit of zero, a body
(`NoRuleFires`): a rule that can be used accepts a goal with more arguments than any atom
of the model has (`exists_accepted`).
-/
import Ipfrs.TensorLogic.Completeness
import Ipfrs.TensorLogic.PlainTerms

namespace Ipfrs.TensorLogic

open Ipfrs.Core Ipfrs.Lib

section Induction

variable {P : Proof → Prop}
  (mk : ∀ goal rule subproofs, (∀ p ∈ subproofs, P p) → P (.mk goal rule subproofs))
include mk

/-- Induction with a hypothesis for every subproof. -/
@[elab_as_elim]
theorem Proof.induct (p : Proof) : P p :=
  @Proof.rec P (fun l => ∀ p ∈ l, P p)
    (fun goal rule subproofs ih => mk goal rule subproofs ih)
    (fun _ h => by cases h)
    (fun _ _ hp hl p hm => by
      rcases List.mem_cons.mp hm with rfl | hm
      · exact hp
      · exact hl p hm)
    p

end Induction

/-! ## What an accepted proof has passed -/

variable {depth fuel : Nat} {s : Substitution} {engine : InferenceEngine} {kb : KnowledgeBase}

theorem proveFacts_true {goal : Predicate} :
    ∀ {facts : List Predicate}, proveFacts fuel goal s facts = some true →
      ∃ fact ∈ facts, ∃ s', unifyPredicates fuel goal fact s = some (some s')
  | [], h => by cases h
  | fact :: facts, h => by
    rw [proveFacts] at h
    split at h
    · cases h
    · obtain ⟨f, hf, hs⟩ := proveFacts_true h
      exact ⟨f, List.mem_cons_of_mem _ hf, hs⟩
    · next s' hs => exact ⟨fact, List.mem_cons_self, s', hs⟩

/-- The checks of an accepted node. -/
theorem verifyProof_cases {goal : Predicate} {rule : Option ProofRule} {subproofs : List Proof}
    (h : verifyProof engine kb fuel depth (.mk goal rule subproofs) = some true) :
    depth ≤ engine.maxDepth ∧ ∃ r, rule = some r ∧
      ((r.isFact = true ∧ proveFacts fuel goal [] (kb.getPredicates goal.name) = some true) ∨
        (r.isFact = false ∧ (∃ kbRule ∈ kb.rules, rulesMatch kbRule r = true) ∧
          subproofs.length = r.body.length ∧
          verifySubproofs engine kb fuel (depth + 1) r.body subproofs = some true)) := by
  unfold verifyProof at h
  split at h
  · cases h
  · next hdepth =>
    refine ⟨Nat.not_lt.mp hdepth, ?_⟩
    cases rule with
    | none => cases h
    | some r =>
      refine ⟨r, rfl, ?_⟩
      dsimp only at h
      split at h
      · next hfact => exact .inl ⟨hfact, h⟩
      · next hfact =>
        split at h
        · cases h
        · next hrule =>
          split at h
          · cases h
          · next hlen =>
            simp only [Bool.not_eq_true', Bool.not_eq_false, List.any_eq_true] at hrule
            obtain ⟨kbRule, hmem, hmatch⟩ := hrule
            exact .inr ⟨Bool.eq_false_iff.mpr hfact,
              ⟨kbRule, (KnowledgeBase.mem_getRules.mp hmem).1, hmatch⟩,
              not_not.mp hlen, h⟩

/-- Every subproof of an accepted node is accepted. -/
theorem verifyProof_of_mem :
    ∀ {body : List Predicate} {subproofs : List Proof},
    verifySubproofs engine kb fuel depth body subproofs = some true →
    subproofs.length = body.length →
    ∀ p ∈ subproofs, verifyProof engine kb fuel depth p = some true
  | [], [], _, _ => by simp
  | b :: body, p :: subproofs, h, hlen => by
    unfold verifySubproofs at h
    split at h
    · cases h
    · split at h
      · cases h
      · cases h
      · next hp =>
        exact List.forall_mem_cons.mpr ⟨hp, verifyProof_of_mem h (by simpa using hlen)⟩

/-- Every body predicate of an accepted node has an accepted subproof with its name. -/
theorem exists_subproof :
    ∀ {body : List Predicate} {subproofs : List Proof},
    verifySubproofs engine kb fuel depth body subproofs = some true →
    subproofs.length = body.length → ∀ b ∈ body, ∃ p ∈ subproofs, p.goal.name = b.name ∧
      verifyProof engine kb fuel depth p = some true
  | [], [], _, _ => by simp
  | b :: body, p :: subproofs, h, hlen => by
    unfold verifySubproofs at h
    split at h
    · cases h
    · next hname =>
      split at h
      · cases h
      · cases h
      · next hp =>
        have hrest := exists_subproof h (by simpa using hlen)
        refine List.forall_mem_cons.mpr ⟨⟨p, List.mem_cons_self, not_not.mp hname, hp⟩, ?_⟩
        intro b' hb'
        obtain ⟨p', hp', hfound⟩ := hrest b' hb'
        exact ⟨p', List.mem_cons_of_mem _ hp', hfound⟩

theorem names_of_rulesMatch {kbRule : Rule} {rule : ProofRule} (h : rulesMatch kbRule rule = true) :
    kbRule.body.map Predicate.name = rule.body.map Predicate.name := by
  simp only [rulesMatch, Bool.and_eq_true, beq_iff_eq, List.all_eq_true] at h
  obtain ⟨⟨_, hlen⟩, hall⟩ := h
  refine List.ext_getElem (by simpa using hlen) (fun i h1 h2 => ?_)
  rw [List.length_map] at h1 h2
  have hzip : (kbRule.body[i], rule.body[i]) ∈ kbRule.body.zip rule.body := by
    rw [← List.getElem_zip (h := by rw [List.length_zip]; omega)]
    exact List.getElem_mem _
  simpa using (hall _ hzip).1

/-! ## Proofs by facts -/

/-- A variable that is left by a ground substitution is not bound by it. -/
theorem GroundSubst.get?_of_apply (hs : GroundSubst s) {t : Term} {v : String}
    (h : applySubstTerm s t = .var v) : s.get? v = none := by
  cases t with
  | var w =>
    rw [applySubstTerm] at h
    cases hw : s.get? w with
    | none =>
      rw [hw] at h
      cases h
      exact hw
    | some u =>
      rw [hw, Option.getD_some] at h
      rw [h] at hw
      have hground := hs w (.var v) hw
      simp [Term.isGround] at hground
  | const c | ref c => simp [applySubstTerm] at h
  | func f args => simp [applySubstTerm] at h

theorem unifyVar_ground (hs : GroundSubst s) {t : Term} (ht : t.isGround = true) {v : String}
    (hv : s.get? v = none) :
    (∀ b ∈ unifyVarBindings v t s, b.Safe) ∧ ∀ s', unifyVar v t s = some s' → GroundSubst s' := by
  constructor
  · intro b hb
    unfold unifyVarBindings at hb
    split at hb
    · cases hb
    · split at hb
      · cases hb
      · rw [List.mem_singleton.mp hb]
        exact ⟨hv, fun w hw => absurd hw (Term.isGround_iff.mp ht w)⟩
  · intro s' h
    unfold unifyVar at h
    split at h
    · cases h
      exact hs
    · split at h
      · cases h
      · cases h
        exact hs.insert ht

/-- Unifying with a ground term on the left binds safely, and to ground terms. -/
def GroundLeft (unify : Term → Term → Substitution → Option (Option Substitution))
    (bindings : Term → Term → Substitution → List Binding) : Prop :=
  ∀ t1 t2 s, t1.isGround = true → GroundSubst s →
    (∀ b ∈ bindings t1 t2 s, b.Safe) ∧ ∀ s', unify t1 t2 s = some (some s') → GroundSubst s'

theorem unifyArgs_groundLeft
    {unify : Term → Term → Substitution → Option (Option Substitution)}
    {bindings : Term → Term → Substitution → List Binding} (h : GroundLeft unify bindings) :
    ∀ {args1 : List Term} (args2 : List Term) {s : Substitution},
      (∀ t ∈ args1, t.isGround = true) → GroundSubst s →
      (∀ b ∈ unifyArgsBindings unify bindings args1 args2 s, b.Safe) ∧
        ∀ s', unifyArgs unify args1 args2 s = some (some s') → GroundSubst s'
  | [], args2, s, _, hs => ⟨by simp [unifyArgsBindings], fun s' heq => by cases heq; exact hs⟩
  | a1 :: args1, [], s, _, hs =>
    ⟨by simp [unifyArgsBindings], fun s' heq => by cases heq; exact hs⟩
  | a1 :: args1, a2 :: args2, s, hground, hs => by
    obtain ⟨ha1, hground⟩ := List.forall_mem_cons.mp hground
    obtain ⟨hsafe, hnext⟩ := h a1 a2 s ha1 hs
    rw [unifyArgsBindings, unifyArgs]
    cases hu : unify a1 a2 s with
    | none => exact ⟨by simpa using hsafe, fun s' heq => by cases heq⟩
    | some r =>
      cases r with
      | none => exact ⟨by simpa using hsafe, fun s' heq => by cases heq⟩
      | some s1 =>
        obtain ⟨hsafe', hnext'⟩ := unifyArgs_groundLeft h args2 hground
          (hnext s1 hu)
        exact ⟨List.forall_mem_append.mpr ⟨hsafe, hsafe'⟩, hnext'⟩

theorem unify_groundLeft : ∀ fuel, GroundLeft (unify fuel) (unifyBindings fuel)
  | 0 => fun t1 t2 s _ _ => ⟨by simp [unifyBindings], fun s' h => by cases h⟩
  | fuel + 1 => by
    intro t1 t2 s hg hs
    have h1 : applySubstTerm s t1 = t1 := applySubstTerm_of_isGround hg
    rw [unifyBindings, unify, h1]
    cases h2 : applySubstTerm s t2 with
    | var v =>
      have hvar := unifyVar_ground hs hg (hs.get?_of_apply h2)
      cases t1 with
      | var w => simp [Term.isGround] at hg
      | const c | ref c => exact ⟨hvar.1, fun s' h => hvar.2 s' (by simpa using h)⟩
      | func f args => exact ⟨hvar.1, fun s' h => hvar.2 s' (by simpa using h)⟩
    | const c2 =>
      cases t1 with
      | var w => simp [Term.isGround] at hg
      | const c =>
        refine ⟨by simp, fun s' h => ?_⟩
        simp only [Option.some.injEq, Option.ite_none_right_eq_some] at h
        exact h.2 ▸ hs
      | func f args => exact ⟨by simp, fun s' h => by simp at h⟩
      | ref r => exact ⟨by simp, fun s' h => by simp at h⟩
    | func f2 args2 =>
      cases t1 with
      | var w => simp [Term.isGround] at hg
      | const c | ref c => exact ⟨by simp, fun s' h => by simp at h⟩
      | func f args =>
        have hargs := Term.allGround_iff.mp (by simpa [Term.isGround] using hg)
        dsimp only
        split
        · exact unifyArgs_groundLeft (unify_groundLeft fuel) _ hargs hs
        · exact ⟨by simp, fun s' h => by simp at h⟩
    | ref r2 =>
      cases t1 with
      | var w => simp [Term.isGround] at hg
      | const c => exact ⟨by simp, fun s' h => by simp at h⟩
      | func f args => exact ⟨by simp, fun s' h => by simp at h⟩
      | ref r =>
        refine ⟨by simp, fun s' h => ?_⟩
        simp only [Option.some.injEq, Option.ite_none_right_eq_some] at h
        exact h.2 ▸ hs

/-- A ground goal that unifies with a fact is an instance of it. -/
theorem eval_mem_model_of_unify {goal fact : Predicate} (hgoal : goal.isGround = true)
    (hfact : fact ∈ kb.facts) (h : unifyPredicates fuel goal fact [] = some (some s))
    (θ : Valuation) : goal.eval θ ∈ kb.model := by
  have hsafe : ∀ b ∈ unifyPredicatesBindings fuel goal fact [], b.Safe := by
    unfold unifyPredicatesBindings
    split
    · simp
    · exact (unifyArgs_groundLeft (unify_groundLeft fuel) _ (List.all_eq_true.mp hgoal)
        (fun v t hv => by simp at hv)).1
  obtain ⟨href, heq⟩ := unifyPredicates_sound h hsafe
  obtain ⟨_, _, hvaluation⟩ := (href.acyclic Acyclic.nil).resolve
  obtain ⟨θ', hθ', _⟩ := hvaluation θ
  rw [Predicate.eval_of_isGround hgoal θ θ', heq θ' hθ']
  exact KnowledgeBase.fact_mem_model hfact θ'

/-! ## Proofs whose steps are instances -/

mutual

/-- The atom is an instance of the goal; at a rule, it is the head of a rule of the
knowledge base under some valuation, under which the subproofs support the body; at a fact,
the goal is ground or the atom is an instance of a fact. -/
def Proof.Supports (kb : KnowledgeBase) : Proof → GroundAtom → Prop
  | .mk goal rule subproofs, atom =>
    (∃ η, goal.eval η = atom) ∧ ∀ r, rule = some r →
      if r.isFact then goal.isGround = true ∨ ∃ fact ∈ kb.facts, ∃ θ, fact.eval θ = atom
      else ∃ kbRule ∈ kb.rules, ∃ θ, kbRule.head.eval θ = atom ∧
        Proof.SupportAll kb subproofs (kbRule.body.map (fun b => b.eval θ))

def Proof.SupportAll (kb : KnowledgeBase) : List Proof → List GroundAtom → Prop
  | p :: proofs, atom :: atoms => p.Supports kb atom ∧ Proof.SupportAll kb proofs atoms
  | [], [] => True
  | _, _ => False

end

theorem Proof.SupportAll.exists_mem : ∀ {proofs : List Proof}
    {atoms : List GroundAtom}, Proof.SupportAll kb proofs atoms →
    ∀ atom ∈ atoms, ∃ p ∈ proofs, p.Supports kb atom
  | [], [], _ => by simp
  | p :: proofs, atom :: atoms, h => by
    rw [Proof.SupportAll] at h
    refine List.forall_mem_cons.mpr ⟨⟨p, List.mem_cons_self, h.1⟩, fun a ha => ?_⟩
    obtain ⟨q, hq, hsupports⟩ := exists_mem h.2 a ha
    exact ⟨q, List.mem_cons_of_mem _ hq, hsupports⟩

/-- What an accepted proof supports is in the model. -/
theorem mem_model_of_supports (proof : Proof) : ∀ depth atom, proof.Supports kb atom →
      verifyProof engine kb fuel depth proof = some true → atom ∈ kb.model := by
  induction proof using Proof.induct with
  | mk goal rule subproofs ih =>
    intro depth atom hsupports hverify
    rw [Proof.Supports] at hsupports
    obtain ⟨⟨η, rfl⟩, hsteps⟩ := hsupports
    obtain ⟨-, r, rfl, ⟨hisFact, hfact⟩ | ⟨hisRule, -, hlen, hsub⟩⟩ := verifyProof_cases hverify
    · have hstep := hsteps r rfl
      rw [if_pos hisFact] at hstep
      rcases hstep with hground | ⟨fact, hmem, θ, heq⟩
      · obtain ⟨fact, hmem, s, hs⟩ := proveFacts_true hfact
        exact eval_mem_model_of_unify hground (KnowledgeBase.mem_getPredicates.mp hmem).1 hs η
      · exact heq ▸ KnowledgeBase.fact_mem_model hmem θ
    · have hstep := hsteps r rfl
      rw [if_neg (by simp [hisRule])] at hstep
      obtain ⟨kbRule, hmem, θ, heq, hall⟩ := hstep
      refine heq ▸ KnowledgeBase.head_mem_model hmem (fun b hb => ?_)
      obtain ⟨p, hp, hpatom⟩ := hall.exists_mem _ (List.mem_map_of_mem hb)
      exact ih p hp (depth + 1) _ hpatom (verifyProof_of_mem hsub hlen p hp)

/-! ## When no rule can be used -/

/-- Every rule has a body predicate that no proof can be given for: no fact has its
name, or the depth limit leaves no room for a subproof. -/
def NoRuleFires (engine : InferenceEngine) (kb : KnowledgeBase) : Prop :=
  ∀ rule ∈ kb.rules, ∃ b ∈ rule.body,
    engine.maxDepth = 0 ∨ ∀ fact ∈ kb.facts, fact.name ≠ b.name

instance (engine : InferenceEngine) (kb : KnowledgeBase) : Decidable (NoRuleFires engine kb) :=
  inferInstanceAs (Decidable (∀ rule ∈ kb.rules, ∃ b ∈ rule.body, _))

/-- Then every accepted proof is one by a fact. -/
theorem proveFacts_of_verifyProof (hnone : NoRuleFires engine kb) (proof : Proof) :
    ∀ depth, verifyProof engine kb fuel depth proof = some true →
      proveFacts fuel proof.goal [] (kb.getPredicates proof.goal.name) = some true := by
  induction proof using Proof.induct with
  | mk goal rule subproofs ih =>
    intro depth h
    obtain ⟨_, r, -, ⟨-, hfact⟩ | ⟨-, ⟨kbRule, hkb, hmatch⟩, hlen, hsub⟩⟩ := verifyProof_cases h
    · exact hfact
    · exfalso
      obtain ⟨b, hb, hcond⟩ := hnone kbRule hkb
      have hname : b.name ∈ r.body.map Predicate.name :=
        names_of_rulesMatch hmatch ▸ List.mem_map_of_mem hb
      obtain ⟨b', hb', hbname⟩ := List.mem_map.mp hname
      obtain ⟨p, hp, hpname, haccepted⟩ := exists_subproof hsub hlen b' hb'
      -- the subproof is within the depth limit, so a fact has its name
      have hdepth : engine.maxDepth ≠ 0 := by
        obtain ⟨pgoal, prule, psub⟩ := p
        have hle := (verifyProof_cases haccepted).1
        omega
      obtain ⟨fact, hfact, _⟩ := proveFacts_true (ih p hp _ haccepted)
      obtain ⟨hfact, hfname⟩ := KnowledgeBase.mem_getPredicates.mp hfact
      rcases hcond with hzero | hno
      · exact hdepth hzero
      · exact hno fact hfact (by rw [hfname, hpname, hbname])

/-! ## When some rule can be used -/

theorem unifyArgs_returns {unify : Term → Term → Substitution → Option (Option Substitution)} :
    ∀ {args1 args2 : List Term} {s : Substitution},
      (∀ t1 ∈ args1, ∀ t2 s, ∃ r, unify t1 t2 s = some r) →
      ∃ r, unifyArgs unify args1 args2 s = some r
  | [], args2, s, _ => ⟨some s, rfl⟩
  | a1 :: args1, [], s, _ => ⟨some s, rfl⟩
  | a1 :: args1, a2 :: args2, s, h => by
    obtain ⟨ha1, h⟩ := List.forall_mem_cons.mp h
    obtain ⟨r, hr⟩ := ha1 a2 s
    rw [unifyArgs, hr]
    cases r with
    | none => exact ⟨none, rfl⟩
    | some s1 => exact unifyArgs_returns h

/-- Unification with a ground term on the left ends within its nesting. -/
theorem unify_returns : ∀ {t1 : Term}, t1.isGround = true → t1.depth < fuel →
    ∀ t2 s, ∃ r, unify fuel t1 t2 s = some r := by
  induction fuel with
  | zero =>
    intro t1 _ h
    omega
  | succ fuel ih =>
    intro t1 hg hdepth t2 s
    have h1 : applySubstTerm s t1 = t1 := applySubstTerm_of_isGround hg
    rw [unify, h1]
    cases t1 with
    | var v => simp [Term.isGround] at hg
    | const c | ref c => cases applySubstTerm s t2 <;> exact ⟨_, rfl⟩
    | func f args =>
      cases applySubstTerm s t2 with
      | var v => exact ⟨_, rfl⟩
      | const c => exact ⟨_, rfl⟩
      | ref r => exact ⟨_, rfl⟩
      | func f2 args2 =>
        dsimp only
        split
        · refine unifyArgs_returns (fun t ht t2 s => ih ?_ ?_ t2 s)
          · exact Term.allGround_iff.mp (by simpa [Term.isGround] using hg) t ht
          · have hle := Term.depth_le_depthAll ht
            rw [Term.depth] at hdepth
            omega
        · exact ⟨_, rfl⟩

/-- A ground instance of a fact passes the fact check. -/
theorem proveFacts_instance {goal fact : Predicate} {θ : Valuation}
    (hground : goal.isGround = true) (hdepth : ∀ t ∈ goal.args, t.depth < fuel)
    (heq : goal.eval θ = fact.eval θ) :
    ∀ {facts : List Predicate}, fact ∈ facts → proveFacts fuel goal [] facts = some true
  | f :: facts, hmem => by
    have hret : ∃ r, unifyPredicates fuel goal f [] = some r := by
      unfold unifyPredicates
      split
      · exact ⟨none, rfl⟩
      · exact unifyArgs_returns (fun t ht => unify_returns (List.all_eq_true.mp hground t ht)
          (hdepth t ht))
    obtain ⟨r, hr⟩ := hret
    rw [proveFacts, hr]
    cases r with
    | some s => rfl
    | none =>
      rcases List.mem_cons.mp hmem with rfl | hmem
      · obtain ⟨s, hs, _⟩ := unifyPredicates_complete hr (Satisfies.nil θ) heq
        cases hs
      · exact proveFacts_instance hground hdepth heq hmem

/-- Ground terms with the values of given terms. -/
theorem exists_ground_terms {θ : Valuation} : ∀ {ts : List Term},
    (∀ t ∈ ts, ∃ u : Term, u.isGround = true ∧ u.eval θ = t.eval θ) →
    ∃ us : List Term, (∀ u ∈ us, u.isGround = true) ∧
      us.map (Term.eval θ) = ts.map (Term.eval θ)
  | [], _ => ⟨[], by simp, rfl⟩
  | t :: ts, h => by
    obtain ⟨ht, hts⟩ := List.forall_mem_cons.mp h
    obtain ⟨u, hu, heq⟩ := ht
    obtain ⟨us, hus, hmap⟩ := exists_ground_terms hts
    exact ⟨u :: us, List.forall_mem_cons.mpr ⟨hu, hus⟩, by simp [heq, hmap]⟩

/-- The valuation of the samples below: every variable is the constant `true`. -/
def allTrue : Valuation := fun _ => .const (.bool true)

theorem exists_ground_term (t : Term) :
    ∃ u : Term, u.isGround = true ∧ u.eval allTrue = t.eval allTrue := by
  induction t using Term.induct with
  | var v => exact ⟨.const (.bool true), rfl, rfl⟩
  | const c => exact ⟨.const c, rfl, rfl⟩
  | ref r => exact ⟨.ref r, rfl, rfl⟩
  | func f args ih =>
    obtain ⟨us, hus, hmap⟩ := exists_ground_terms ih
    refine ⟨.func f us, ?_, by simp [Term.eval, hmap]⟩
    rw [Term.isGround]
    exact Term.allGround_iff.mpr hus

/-- Every fact has a ground instance. -/
theorem exists_ground_instance (fact : Predicate) : ∃ goal : Predicate,
    goal.name = fact.name ∧ goal.isGround = true ∧ goal.eval allTrue = fact.eval allTrue := by
  have hargs : ∀ t ∈ fact.args, ∃ u : Term, u.isGround = true ∧ u.eval allTrue = t.eval allTrue :=
    fun t _ => exists_ground_term t
  obtain ⟨us, hus, hmap⟩ := exists_ground_terms hargs
  exact ⟨⟨fact.name, us⟩, rfl, List.all_eq_true.mpr hus, by simp [Predicate.eval, hmap]⟩

/-- Subproofs for the body of a rule whose names all are names of facts. -/
theorem exists_subproofs (hdepth : engine.maxDepth ≠ 0) : ∀ {body : List Predicate},
    (∀ b ∈ body, ∃ fact ∈ kb.facts, fact.name = b.name) →
    ∃ (subproofs : List Proof) (n : Nat), subproofs.length = body.length ∧
      ∀ fuel, n ≤ fuel → verifySubproofs engine kb fuel 1 body subproofs = some true
  | [], _ => ⟨[], 0, rfl, fun fuel _ => rfl⟩
  | b :: body, h => by
    obtain ⟨⟨fact, hfact, hname⟩, h⟩ := List.forall_mem_cons.mp h
    obtain ⟨subproofs, n, hlen, hverify⟩ := exists_subproofs hdepth h
    obtain ⟨goal, hgname, hground, heq⟩ := exists_ground_instance fact
    obtain ⟨m, hm⟩ := exists_bound Term.depth goal.args
    refine ⟨Proof.fact goal :: subproofs, max n m, by simp [hlen], fun fuel hfuel => ?_⟩
    have hfacts : proveFacts fuel goal [] (kb.getPredicates goal.name) = some true := by
      refine proveFacts_instance hground (fun t ht => ?_) heq
        (KnowledgeBase.mem_getPredicates.mpr ⟨hfact, hgname.symm⟩)
      have hlt := hm t ht
      omega
    have hproof : verifyProof engine kb fuel 1 (Proof.fact goal) = some true := by
      unfold Proof.fact verifyProof
      simpa [Nat.not_lt.mpr (Nat.one_le_iff_ne_zero.mpr hdepth)] using hfacts
    unfold verifySubproofs
    rw [hproof]
    simp only [Proof.fact, Proof.goal, hgname, hname, ne_eq, not_true_eq_false, if_false]
    exact hverify fuel (by omega)

theorem rulesMatch_self (rule : Rule) :
    rulesMatch rule { head := rule.head, body := rule.body, isFact := false } = true := by
  have hzip : ∀ l : List Predicate, (l.zip l).all (fun e =>
      e.1.name == e.2.name && e.1.args.length == e.2.args.length) = true := by
    intro l
    induction l with
    | nil => rfl
    | cons p l ih => simpa using ih
  simp [rulesMatch, hzip rule.body]

/-- No atom of the model has more arguments than the facts and heads. -/
theorem length_args_lt {n : Nat}
    (hn : ∀ p ∈ kb.facts ++ kb.rules.map Rule.head, p.args.length < n) {atom : GroundAtom}
    (h : atom ∈ kb.model) : atom.args.length < n := by
  have hsub : kb.model ⊆ {atom | atom.args.length < n} := by
    refine KnowledgeBase.model_subset ?_ ?_
    · intro fact hfact θ
      simpa [Predicate.eval] using hn fact (List.mem_append_left _ hfact)
    · intro rule hrule θ _
      simpa [Predicate.eval] using
        hn rule.head (List.mem_append_right _ (List.mem_map_of_mem hrule))
  exact hsub h

/-- A rule that can be used gives an accepted proof of a goal outside the model. -/
theorem exists_accepted {rule : Rule} (hrule : rule ∈ kb.rules)
    (hfires : ∀ b ∈ rule.body, engine.maxDepth ≠ 0 ∧ ∃ fact ∈ kb.facts, fact.name = b.name) :
    ∃ fuel proof, proof.goal.isGround = true ∧ verify engine fuel proof kb = some true ∧
      ∀ θ, proof.goal.eval θ ∉ kb.model := by
  have hsub : ∃ (subproofs : List Proof) (fuel : Nat), subproofs.length = rule.body.length ∧
      verifySubproofs engine kb fuel 1 rule.body subproofs = some true := by
    cases hbody : rule.body with
    | nil => exact ⟨[], 0, rfl, rfl⟩
    | cons b body =>
      rw [hbody] at hfires
      have hdepth := (hfires b List.mem_cons_self).1
      obtain ⟨subproofs, n, hlen, hverify⟩ := exists_subproofs hdepth
        (fun b hb => (hfires b hb).2)
      exact ⟨subproofs, n, hlen, hverify n (Nat.le_refl n)⟩
  obtain ⟨subproofs, fuel, hlen, hverify⟩ := hsub
  obtain ⟨n, hn⟩ := exists_bound (fun p : Predicate => p.args.length)
    (kb.facts ++ kb.rules.map Rule.head)
  -- the goal has the name of the head and too many arguments
  refine ⟨fuel, .mk ⟨rule.head.name, List.replicate n (.const (.bool true))⟩
    (some { head := rule.head, body := rule.body, isFact := false }) subproofs, ?_, ?_, ?_⟩
  · simp [Proof.goal, Predicate.isGround, Term.isGround]
  · have hany : ((kb.getRules rule.head.name).any (fun kbRule => rulesMatch kbRule
        { head := rule.head, body := rule.body, isFact := false })) = true :=
      List.any_eq_true.mpr ⟨rule, KnowledgeBase.mem_getRules.mpr ⟨hrule, rfl⟩,
        rulesMatch_self rule⟩
    unfold verify verifyProof
    simp [hany, hlen, hverify]
  · intro θ hmem
    have hlt := length_args_lt hn hmem
    simp [Proof.goal, Predicate.eval] at hlt

/-- **The proof checker is sound** for proofs whose steps are instances of facts and
rules, and for all proofs exactly when no rule can be used. -/
theorem verify_sound (engine : InferenceEngine) (kb : KnowledgeBase) :
    (∀ fuel proof θ, proof.goal.isGround = true → proof.Supports kb (proof.goal.eval θ) →
      verify engine fuel proof kb = some true → proof.goal.eval θ ∈ kb.model) ∧
    ((∀ fuel proof, proof.goal.isGround = true → verify engine fuel proof kb = some true →
      ∀ θ, proof.goal.eval θ ∈ kb.model) ↔ NoRuleFires engine kb) := by
  refine ⟨fun fuel proof θ _ hsupports => mem_model_of_supports proof 0 _ hsupports, ?_, ?_⟩
  · intro hsound rule hrule
    by_contra hno
    push Not at hno
    obtain ⟨fuel, proof, hground, hverify, hout⟩ := exists_accepted hrule hno
    exact hout allTrue (hsound fuel proof hground hverify allTrue)
  · intro hnone fuel proof hground hverify θ
    obtain ⟨fact, hfact, s, hs⟩ := proveFacts_true
      (proveFacts_of_verifyProof hnone proof 0 hverify)
    exact eval_mem_model_of_unify hground (KnowledgeBase.mem_getPredicates.mp hfact).1 hs θ

/-- `p(X) :- q(X)` over the fact `q(a)`. -/
def derived : KnowledgeBase where
  facts := [⟨"q", [.const (.string "a")]⟩]
  rules := [⟨⟨"p", [.var "X"]⟩, [⟨"q", [.var "X"]⟩]⟩]

/-- A proof of `p(a)` whose subproof has the goal `q(Y)`. -/
def honest : Proof :=
  Proof.fromRule ⟨"p", [.const (.string "a")]⟩
    ⟨⟨"p", [.var "X"]⟩, [⟨"q", [.var "X"]⟩]⟩ [Proof.fact ⟨"q", [.var "Y"]⟩]

/-- The proof of `q(a)` by the fact, and that of `p(a)` by the rule. -/
theorem verify_sound_derived :
    (⟨"q", [.const (.string "a")]⟩ : Predicate).eval allTrue ∈ derived.model ∧
      (⟨"p", [.const (.string "a")]⟩ : Predicate).eval allTrue ∈ derived.model := by
  have hfact : (Proof.fact ⟨"q", [.const (.string "a")]⟩).Supports derived
      ((⟨"q", [.const (.string "a")]⟩ : Predicate).eval allTrue) := by
    rw [Proof.fact, Proof.Supports]
    refine ⟨⟨allTrue, rfl⟩, fun r hr => ?_⟩
    cases hr
    exact .inl rfl
  have hsub : (Proof.fact ⟨"q", [.var "Y"]⟩).Supports derived
      ((⟨"q", [.const (.string "a")]⟩ : Predicate).eval allTrue) := by
    rw [Proof.fact, Proof.Supports]
    refine ⟨⟨fun _ => .const (.string "a"), rfl⟩, fun r hr => ?_⟩
    cases hr
    exact .inr ⟨_, List.mem_cons_self, allTrue, rfl⟩
  have hrule : honest.Supports derived
      ((⟨"p", [.const (.string "a")]⟩ : Predicate).eval allTrue) := by
    rw [honest, Proof.fromRule, Proof.Supports]
    refine ⟨⟨allTrue, rfl⟩, fun r hr => ?_⟩
    cases hr
    exact ⟨_, List.mem_cons_self, fun _ => .const (.string "a"), rfl, hsub, trivial⟩
  exact ⟨(verify_sound {} derived).1 1 _ allTrue rfl hfact (by decide),
    (verify_sound {} derived).1 2 honest allTrue rfl hrule (by decide)⟩

/-- A proof of `p(b)` from `q(a)`. -/
def forged : Proof :=
  Proof.fromRule ⟨"p", [.const (.string "b")]⟩
    ⟨⟨"p", [.var "X"]⟩, [⟨"q", [.var "X"]⟩]⟩ [Proof.fact ⟨"q", [.const (.string "a")]⟩]

/-- The forged proof is accepted. -/
theorem verify_accepts_forged :
    ¬ ∀ (engine : InferenceEngine) (fuel : Nat) (proof : Proof) (kb : KnowledgeBase),
      proof.goal.isGround = true → verify engine fuel proof kb = some true →
      ∀ θ, proof.goal.eval θ ∈ kb.model := by
  intro h
  have hmem := h {} 2 forged derived (by decide) (by decide) allTrue
  have hsub : derived.model ⊆ {atom | atom.args = [.const (.string "a")]} := by
    refine KnowledgeBase.model_subset ?_ ?_
    · intro fact hfact θ
      simp only [derived, List.mem_singleton] at hfact
      rw [hfact]
      simp [Predicate.eval, Term.eval]
    · intro rule hrule θ hbody
      simp only [derived, List.mem_singleton] at hrule
      subst hrule
      simpa [Predicate.eval, Term.eval] using hbody
  have hargs := hsub hmem
  simp [forged, Proof.fromRule, Proof.goal, Predicate.eval, Term.eval] at hargs

end Ipfrs.TensorLogic
