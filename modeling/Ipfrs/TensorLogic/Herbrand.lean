/-
Ipfrs.TensorLogic.Herbrand — the meaning of a knowledge base.

A `Value` is a ground term. References are compared by CID alone, as `unify` does:
the hint of a `TermRef` is no part of its value. A valuation gives every variable a
value, and the least Herbrand model of a knowledge base is the least model of all
ground instances of its facts and rules.

A substitution is a set of equations between variables and terms; `Satisfies` says
that a valuation solves them. When no variable depends on itself, applying the
substitution again and again comes to rest, and every valuation of what is left
extends to a solution (`Acyclic.resolve`).
-/
import Ipfrs.Lib.Horn
import Ipfrs.TensorLogic.Unify

namespace Ipfrs.TensorLogic

open Ipfrs.Core Ipfrs.Lib

/-! ## Ground terms and atoms -/

/-- A ground term. -/
inductive Value where
  | const (c : Constant)
  | func (f : String) (args : List Value)
  | ref (cid : Cid)

/-- A ground predicate. -/
structure GroundAtom where
  name : String
  args : List Value

/-- A value for every variable. -/
abbrev Valuation := String → Value

mutual

/-- The value of a term. -/
def Term.eval (θ : Valuation) : Term → Value
  | .var v => θ v
  | .const c => .const c
  | .func f args => .func f (Term.evalAll θ args)
  | .ref r => .ref r.cid

def Term.evalAll (θ : Valuation) : List Term → List Value
  | [] => []
  | t :: ts => t.eval θ :: Term.evalAll θ ts

end

@[simp] theorem Term.evalAll_eq_map (θ : Valuation) (ts : List Term) :
    Term.evalAll θ ts = ts.map (Term.eval θ) := by
  induction ts with
  | nil => rfl
  | cons t ts ih => simp [Term.evalAll, ih]

/-- The ground instance of a predicate. -/
def Predicate.eval (θ : Valuation) (p : Predicate) : GroundAtom :=
  { name := p.name, args := p.args.map (Term.eval θ) }

/-- The ground instances of the facts and rules. -/
def KnowledgeBase.clauses (kb : KnowledgeBase) : Set (Horn.Clause GroundAtom) :=
  {c | (∃ fact ∈ kb.facts, ∃ θ, c = ⟨fact.eval θ, []⟩) ∨
    ∃ rule ∈ kb.rules, ∃ θ, c = ⟨rule.head.eval θ, rule.body.map (Predicate.eval θ)⟩}

/-- The least Herbrand model. -/
def KnowledgeBase.model (kb : KnowledgeBase) : Set GroundAtom := Horn.leastModel kb.clauses

theorem KnowledgeBase.fact_mem_clauses {kb : KnowledgeBase} {fact : Predicate}
    (h : fact ∈ kb.facts) (θ : Valuation) : ⟨fact.eval θ, []⟩ ∈ kb.clauses :=
  .inl ⟨fact, h, θ, rfl⟩

theorem KnowledgeBase.rule_mem_clauses {kb : KnowledgeBase} {rule : Rule} (h : rule ∈ kb.rules)
    (θ : Valuation) : ⟨rule.head.eval θ, rule.body.map (Predicate.eval θ)⟩ ∈ kb.clauses :=
  .inr ⟨rule, h, θ, rfl⟩

theorem KnowledgeBase.fact_mem_model {kb : KnowledgeBase} {fact : Predicate}
    (h : fact ∈ kb.facts) (θ : Valuation) : fact.eval θ ∈ kb.model :=
  Horn.closed_leastModel _ _ (kb.fact_mem_clauses h θ) (by simp)

theorem KnowledgeBase.head_mem_model {kb : KnowledgeBase} {rule : Rule} (h : rule ∈ kb.rules)
    {θ : Valuation} (hbody : ∀ b ∈ rule.body, b.eval θ ∈ kb.model) :
    rule.head.eval θ ∈ kb.model := by
  refine Horn.closed_leastModel _ _ (kb.rule_mem_clauses h θ) (fun b hb => ?_)
  obtain ⟨p, hp, rfl⟩ := List.mem_map.mp hb
  exact hbody p hp

/-- A set that contains the facts and is closed under the rules contains the model. -/
theorem KnowledgeBase.model_subset {kb : KnowledgeBase} {M : Set GroundAtom}
    (hfacts : ∀ fact ∈ kb.facts, ∀ θ, fact.eval θ ∈ M)
    (hrules : ∀ rule ∈ kb.rules, ∀ θ, (∀ b ∈ rule.body, b.eval θ ∈ M) → rule.head.eval θ ∈ M) :
    kb.model ⊆ M := by
  refine Horn.leastModel_subset (fun c hc hbody => ?_)
  rcases hc with ⟨fact, hfact, θ, rfl⟩ | ⟨rule, hrule, θ, rfl⟩
  · exact hfacts fact hfact θ
  · exact hrules rule hrule θ (fun b hb => hbody _ (List.mem_map_of_mem hb))

/-! ## Evaluation and substitution -/

theorem Term.eval_congr {θ η : Valuation} {t : Term} (h : ∀ v ∈ t.collectVars, θ v = η v) :
    t.eval θ = t.eval η := by
  induction t using Term.induct with
  | var v => exact h v (by simp [Term.collectVars])
  | const c => rfl
  | ref r => rfl
  | func f args ih =>
    have hargs : ∀ t ∈ args, t.eval θ = t.eval η := by
      intro t ht
      refine ih t ht (fun v hv => h v ?_)
      simp only [Term.collectVars, Term.mem_collectAll]
      exact ⟨t, ht, hv⟩
    simp only [Term.eval, Term.evalAll_eq_map, List.map_congr_left hargs]

/-- The value of a ground term does not depend on the valuation. -/
theorem Term.eval_of_isGround {t : Term} (h : t.isGround = true) (θ η : Valuation) :
    t.eval θ = t.eval η :=
  Term.eval_congr (fun v hv => absurd hv (Term.isGround_iff.mp h v))

theorem Predicate.eval_of_isGround {p : Predicate} (h : p.isGround = true) (θ η : Valuation) :
    p.eval θ = p.eval η := by
  have hargs : ∀ t ∈ p.args, t.eval θ = t.eval η := fun t ht =>
    Term.eval_of_isGround (List.all_eq_true.mp h t ht) θ η
  simp only [Predicate.eval, List.map_congr_left hargs]

/-- Applying a substitution composes it with the valuation. -/
theorem Term.eval_applySubstTerm (θ : Valuation) (s : Substitution) (t : Term) :
    (applySubstTerm s t).eval θ = t.eval (fun v => (applySubstTerm s (.var v)).eval θ) := by
  induction t using Term.induct with
  | var v => rfl
  | const c => rfl
  | ref r => rfl
  | func f args ih =>
    simp only [applySubstTerm, applySubstTerms_eq_map, Term.eval, Term.evalAll_eq_map,
      List.map_map]
    exact congrArg _ (List.map_congr_left ih)

theorem Predicate.eval_applySubstPredicate (θ : Valuation) (s : Substitution) (p : Predicate) :
    (applySubstPredicate s p).eval θ = p.eval (fun v => (applySubstTerm s (.var v)).eval θ) := by
  simp only [Predicate.eval, applySubstPredicate, List.map_map]
  exact congrArg _ (List.map_congr_left (fun t _ => t.eval_applySubstTerm θ s))

/-- The valuation solves the equations of the substitution. -/
def Satisfies (θ : Valuation) (s : Substitution) : Prop :=
  ∀ v t, s.get? v = some t → θ v = t.eval θ

namespace Satisfies

theorem nil (θ : Valuation) : Satisfies θ [] := by
  intro v t h
  simp at h

theorem eval_term {θ : Valuation} {s : Substitution} (h : Satisfies θ s) (t : Term) :
    (applySubstTerm s t).eval θ = t.eval θ := by
  rw [Term.eval_applySubstTerm]
  refine Term.eval_congr (fun v _ => ?_)
  show ((s.get? v).getD (.var v)).eval θ = θ v
  cases hv : s.get? v with
  | none => rfl
  | some u => exact (h v u hv).symm

theorem eval_predicate {θ : Valuation} {s : Substitution} (h : Satisfies θ s) (p : Predicate) :
    (applySubstPredicate s p).eval θ = p.eval θ := by
  simp only [Predicate.eval, applySubstPredicate, List.map_map]
  exact congrArg _ (List.map_congr_left (fun t _ => h.eval_term t))

/-- A new binding adds its equation. -/
theorem insert {θ : Valuation} {s : Substitution} (h : Satisfies θ s) {v : String} {t : Term}
    (heq : θ v = t.eval θ) : Satisfies θ (s.insert v t) := by
  intro w u hw
  rw [Substitution.get?_insert] at hw
  split at hw
  · next hwv =>
    cases hw
    rw [hwv]
    exact heq
  · exact h w u hw

/-- A binding of a fresh variable keeps the equations there were. -/
theorem of_insert {θ : Valuation} {s : Substitution} {v : String} {t : Term}
    (h : Satisfies θ (s.insert v t)) (hfresh : s.get? v = none) :
    Satisfies θ s ∧ θ v = t.eval θ := by
  refine ⟨fun w u hw => h w u ?_, h v t ?_⟩
  · rw [Substitution.get?_insert, if_neg]
    · exact hw
    · rintro rfl
      rw [hfresh] at hw
      cases hw
  · rw [Substitution.get?_insert, if_pos rfl]

end Satisfies

/-! ## Substitutions without cycles -/

/-- The binding of `v` mentions `w`. -/
def DependsOn (s : Substitution) (v w : String) : Prop :=
  ∃ t, s.get? v = some t ∧ w ∈ t.collectVars

/-- No variable depends on itself, through any number of bindings. -/
def Acyclic (s : Substitution) : Prop := Ranked (DependsOn s)

namespace Acyclic

theorem nil : Acyclic [] := ⟨fun _ => 0, fun v w h => by obtain ⟨t, ht, _⟩ := h; simp at ht⟩

/-- A binding to a term that does not lead back to its variable. -/
theorem insert {s : Substitution} (h : Acyclic s) {v : String} {t : Term}
    (hfree : ∀ w ∈ t.collectVars, ¬ Relation.ReflTransGen (DependsOn s) w v) :
    Acyclic (s.insert v t) := by
  refine Ranked.mono (Ranked.extend h v t.collectVars hfree) ?_
  intro a b hab
  obtain ⟨u, hu, hb⟩ := hab
  rw [Substitution.get?_insert] at hu
  split at hu
  · next hav =>
    cases hu
    exact .inr ⟨hav, hb⟩
  · exact .inl ⟨u, hu, hb⟩

/-- Every bound variable left after `n` applications is `n` ranks below one of the
term. -/
theorem rank_iterate {s : Substitution} {rank : String → Nat}
    (hrank : ∀ v w, DependsOn s v w → rank w < rank v) (n : Nat) :
    ∀ (t : Term) (w : String), w ∈ ((applySubstTerm s)^[n] t).collectVars → s.get? w ≠ none →
      ∃ v ∈ t.collectVars, s.get? v ≠ none ∧ rank w + n ≤ rank v := by
  induction n with
  | zero =>
    intro t w hw hbound
    exact ⟨w, hw, hbound, Nat.le_refl _⟩
  | succ n ih =>
    intro t w hw hbound
    rw [Function.iterate_succ_apply] at hw
    obtain ⟨v, hv, hvbound, hle⟩ := ih _ w hw hbound
    obtain ⟨u, hu, huv⟩ := mem_collectVars_applySubstTerm.mp hv
    cases hbind : s.get? u with
    | none =>
      simp only [applySubstTerm, hbind, Option.getD_none, Term.collectVars,
        List.mem_singleton] at huv
      rw [huv] at hvbound
      exact absurd hbind hvbound
    | some r =>
      simp only [applySubstTerm, hbind, Option.getD_some] at huv
      have hlt := hrank u v ⟨r, hbind, huv⟩
      exact ⟨u, hu, by simp [hbind], by omega⟩

/-- Applied often enough, an acyclic substitution leaves every term alone. -/
theorem exists_fixed {s : Substitution} (h : Acyclic s) :
    ∃ n, ∀ t, applySubstTerm s ((applySubstTerm s)^[n] t) = (applySubstTerm s)^[n] t := by
  obtain ⟨rank, hrank⟩ := h
  obtain ⟨n, hn⟩ := exists_bound rank (s.map Prod.fst)
  refine ⟨n, fun t => applySubstTerm_of_free (fun w hw => ?_)⟩
  by_contra hbound
  obtain ⟨v, _, hv, hle⟩ := rank_iterate hrank n t w hw hbound
  obtain ⟨r, hr⟩ := Option.ne_none_iff_exists'.mp hv
  have hkey : v ∈ s.map Prod.fst := List.mem_map_of_mem (SortedAssoc.mem_of_get? hr)
  have hlt := hn v hkey
  omega

/-- Evaluating an iterated application is evaluating under some valuation. -/
theorem eval_iterate (s : Substitution) (η : Valuation) (n : Nat) :
    ∃ θ : Valuation, ∀ t, ((applySubstTerm s)^[n] t).eval η = t.eval θ := by
  induction n with
  | zero => exact ⟨η, fun t => rfl⟩
  | succ n ih =>
    obtain ⟨θ, hθ⟩ := ih
    refine ⟨fun v => (applySubstTerm s (.var v)).eval θ, fun t => ?_⟩
    rw [Function.iterate_succ_apply, hθ, Term.eval_applySubstTerm]

/-- **Resolution.** Iterated application comes to rest, and every valuation of what it
leaves is the restriction of a solution. -/
theorem resolve {s : Substitution} (h : Acyclic s) :
    ∃ n, (∀ t, applySubstTerm s ((applySubstTerm s)^[n] t) = (applySubstTerm s)^[n] t) ∧
      ∀ η : Valuation, ∃ θ, Satisfies θ s ∧ ∀ t, ((applySubstTerm s)^[n] t).eval η = t.eval θ := by
  obtain ⟨n, hfixed⟩ := h.exists_fixed
  refine ⟨n, hfixed, fun η => ?_⟩
  obtain ⟨θ, hθ⟩ := eval_iterate s η n
  refine ⟨θ, fun v t hv => ?_, hθ⟩
  have hstep : applySubstTerm s (.var v) = t := by simp [applySubstTerm, hv]
  calc θ v = ((applySubstTerm s)^[n] (.var v)).eval η := (hθ (.var v)).symm
    _ = (applySubstTerm s ((applySubstTerm s)^[n] (.var v))).eval η := by rw [hfixed]
    _ = ((applySubstTerm s)^[n] (applySubstTerm s (.var v))).eval η := by
        rw [(Function.Commute.self_iterate (applySubstTerm s) n).eq]
    _ = t.eval θ := by rw [hstep, hθ]

theorem exists_solution {s : Substitution} (h : Acyclic s) : ∃ θ, Satisfies θ s := by
  obtain ⟨_, _, hvaluation⟩ := h.resolve
  obtain ⟨θ, hθ, _⟩ := hvaluation (fun _ => .const (.bool true))
  exact ⟨θ, hθ⟩

end Acyclic

theorem iterate_applySubstPredicate (s : Substitution) (n : Nat) (p : Predicate) :
    (applySubstPredicate s)^[n] p
      = { name := p.name, args := p.args.map (applySubstTerm s)^[n] } := by
  induction n with
  | zero => simp
  | succ n ih =>
    rw [Function.iterate_succ_apply', ih]
    simp [applySubstPredicate, (Function.Commute.self_iterate (applySubstTerm s) n).eq]

end Ipfrs.TensorLogic
