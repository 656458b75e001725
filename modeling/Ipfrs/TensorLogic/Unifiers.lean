/-
Ipfrs.TensorLogic.Unifiers — when the result of `unify` unifies.

A unifier that extends a substitution keeps its bindings, has no cycle, and makes the
two terms equal when it is applied until nothing changes. Equal is meant as the code
means it: references by CID, without their hints. `unify` finds a substitution
whenever the terms have a common instance, and started on an idempotent one it keeps
every binding. What it loses are bindings of its own: a variable reached through
another one is bound again although it is bound, and the first binding is gone
(`unify_replaces_binding`).

How the proof goes: a run that returns is a walk over pairs of terms (`UnifyRun`), whose
result is a unifier exactly when the bindings left at its end have no cycle and imply the
ones that were replaced (`UnifyRun.unifier_iff`). Steps that bind safely replace nothing
and close no cycle, so their bindings are lossless (`UnifyRun.lossless`).

The side condition `Stepwise` is on the substitution before each step. It is not necessary:
a variable that is bound again to an equal term, or an equation that is lost and follows
from later pairs, still leaves a unifier.
-/
import Ipfrs.TensorLogic.Completeness

namespace Ipfrs.TensorLogic

open Ipfrs.Core Ipfrs.Lib

/-! ## Equality without hints -/

mutual

/-- The term without the hints of its references. -/
def Term.withoutHints : Term → Term
  | .var v => .var v
  | .const c => .const c
  | .func f args => .func f (Term.allWithoutHints args)
  | .ref r => .ref { cid := r.cid }

def Term.allWithoutHints : List Term → List Term
  | [] => []
  | t :: ts => t.withoutHints :: Term.allWithoutHints ts

end

@[simp] theorem Term.allWithoutHints_eq_map (ts : List Term) :
    Term.allWithoutHints ts = ts.map Term.withoutHints := by
  induction ts with
  | nil => rfl
  | cons t ts ih => simp [Term.allWithoutHints, ih]

@[simp] theorem Term.eval_withoutHints (θ : Valuation) (t : Term) :
    t.withoutHints.eval θ = t.eval θ := by
  induction t using Term.induct with
  | var v => rfl
  | const c => rfl
  | ref r => rfl
  | func f args ih =>
    simp only [Term.withoutHints, Term.allWithoutHints_eq_map, Term.eval,
      Term.evalAll_eq_map, List.map_map]
    exact congrArg _ (List.map_congr_left ih)

/-- Two valuations that give no variable the same value. -/
theorem exists_constant_ne (x : Value) : ∃ b : Bool, Value.const (.bool b) ≠ x := by
  by_cases h : Value.const (.bool true) = x
  · exact ⟨false, by simp [← h]⟩
  · exact ⟨true, h⟩

/-- Terms with the same instances are equal but for hints. -/
theorem Term.withoutHints_eq_of_eval {t u : Term} (h : ∀ θ, t.eval θ = u.eval θ) :
    t.withoutHints = u.withoutHints := by
  -- a variable has an instance that no other term shares
  have hvar : ∀ {v : String} {u : Term}, (∀ θ : Valuation, θ v = u.eval θ) → u = .var v := by
    intro v u h
    cases u with
    | var w =>
      by_contra hne
      have := h (fun x => .const (.bool (x == v)))
      have hw : w = v := by simpa [Term.eval] using this
      exact hne (by rw [hw])
    | const c =>
      obtain ⟨b, hb⟩ := exists_constant_ne (.const c)
      exact absurd (h (fun _ => .const (.bool b))) hb
    | func f args => exact absurd (h (fun _ => .const (.bool true))) (by simp [Term.eval])
    | ref r => exact absurd (h (fun _ => .const (.bool true))) (by simp [Term.eval])
  have h0 := h (fun _ => .const (.bool true))
  induction t using Term.induct generalizing u with
  | var v => rw [hvar h]
  | const c =>
    cases u with
    | var w => rw [hvar (fun θ => (h θ).symm)]
    | const d => simpa [Term.eval, Term.withoutHints] using h0
    | func f args => simp [Term.eval] at h0
    | ref r => simp [Term.eval] at h0
  | ref r =>
    cases u with
    | var w => rw [hvar (fun θ => (h θ).symm)]
    | const d => simp [Term.eval] at h0
    | func f args => simp [Term.eval] at h0
    | ref q => simpa [Term.eval, Term.withoutHints] using h0
  | func f args ih =>
    cases u with
    | var w => rw [hvar (fun θ => (h θ).symm)]
    | const d => simp [Term.eval] at h0
    | ref r => simp [Term.eval] at h0
    | func g args' =>
      simp only [Term.eval, Term.evalAll_eq_map, Value.func.injEq] at h h0
      have hlen : args.length = args'.length := by simpa using congrArg List.length h0.2
      simp only [Term.withoutHints, Term.allWithoutHints_eq_map, h0.1]
      congr 1
      refine List.ext_getElem (by simpa using hlen) (fun i hi hi' => ?_)
      rw [List.length_map] at hi hi'
      have hget : ∀ θ, args[i].eval θ = args'[i].eval θ := by
        intro θ
        have := congrArg (fun l => l[i]?) (h θ).2
        simpa [hi, hi'] using this
      simp only [List.getElem_map]
      exact ih _ (List.getElem_mem _) hget (hget _)

/-! ## Unifiers -/

/-- Applying the substitution twice is applying it once. -/
def Idempotent (s : Substitution) : Prop :=
  ∀ t, applySubstTerm s (applySubstTerm s t) = applySubstTerm s t

/-- `r` keeps the bindings of `s`, has no cycle, and makes the terms equal when it is
applied until nothing changes. -/
structure Unifier (s r : Substitution) (t1 t2 : Term) : Prop where
  keeps : ∀ v t, s.get? v = some t → r.get? v = some t
  acyclic : Acyclic r
  equal : ∃ n, applySubstTerm r ((applySubstTerm r)^[n] t1) = (applySubstTerm r)^[n] t1 ∧
    applySubstTerm r ((applySubstTerm r)^[n] t2) = (applySubstTerm r)^[n] t2 ∧
    ((applySubstTerm r)^[n] t1).withoutHints = ((applySubstTerm r)^[n] t2).withoutHints

/-- A solution of `s` under which the terms have the same value. -/
def Unifiable (s : Substitution) (t1 t2 : Term) : Prop :=
  ∃ θ, Satisfies θ s ∧ t1.eval θ = t2.eval θ

theorem Satisfies.eval_iterate {θ : Valuation} {s : Substitution} (h : Satisfies θ s) (n : Nat)
    (t : Term) : ((applySubstTerm s)^[n] t).eval θ = t.eval θ := by
  induction n with
  | zero => rfl
  | succ n ih => rw [Function.iterate_succ_apply', h.eval_term, ih]

/-- A substitution without cycles makes two terms equal iff all its solutions do. -/
theorem Acyclic.equal_iff {r : Substitution} (h : Acyclic r) (t1 t2 : Term) :
    (∃ n, applySubstTerm r ((applySubstTerm r)^[n] t1) = (applySubstTerm r)^[n] t1 ∧
      applySubstTerm r ((applySubstTerm r)^[n] t2) = (applySubstTerm r)^[n] t2 ∧
      ((applySubstTerm r)^[n] t1).withoutHints = ((applySubstTerm r)^[n] t2).withoutHints) ↔
    ∀ θ, Satisfies θ r → t1.eval θ = t2.eval θ := by
  constructor
  · intro hequal θ hθ
    obtain ⟨n, _, _, heq⟩ := hequal
    rw [← hθ.eval_iterate n t1, ← hθ.eval_iterate n t2, ← Term.eval_withoutHints, heq,
      Term.eval_withoutHints]
  · intro hsol
    obtain ⟨n, hfixed, hvaluation⟩ := h.resolve
    refine ⟨n, hfixed t1, hfixed t2, Term.withoutHints_eq_of_eval (fun η => ?_)⟩
    obtain ⟨θ, hθ, heval⟩ := hvaluation η
    rw [heval, heval]
    exact hsol θ hθ

/-- Terms with a unifier have a common instance. -/
theorem Unifier.unifiable {s r : Substitution} {t1 t2 : Term} (h : Unifier s r t1 t2) :
    Unifiable s t1 t2 := by
  obtain ⟨θ, hθ⟩ := h.acyclic.exists_solution
  exact ⟨θ, fun v t hv => hθ v t (h.keeps v t hv), (h.acyclic.equal_iff t1 t2).mp h.equal θ hθ⟩

/-! ## Bindings the run starts with -/

/-- `c` continues `s`: it agrees with `s` on the variables of `s`, and its terms do not
mention them. -/
structure Continues (s c : Substitution) : Prop where
  keeps : ∀ v, s.get? v ≠ none → c.get? v = s.get? v
  apart : ∀ v t, c.get? v = some t → ∀ w ∈ t.collectVars, s.get? w = none

/-- An idempotent substitution that binds no variable to itself continues itself. -/
theorem Idempotent.continues {s : Substitution} (h : Idempotent s)
    (hself : ∀ v, s.get? v ≠ some (.var v)) : Continues s s := by
  -- where a term stays the same, all its variables do
  have hfixed : ∀ {t : Term}, applySubstTerm s t = t → ∀ w ∈ t.collectVars,
      applySubstTerm s (.var w) = .var w := by
    intro t
    induction t using Term.induct with
    | var v =>
      intro ht w hw
      rw [Term.collectVars, List.mem_singleton] at hw
      rw [hw, ht]
    | const c => simp [Term.collectVars]
    | ref r => simp [Term.collectVars]
    | func f args ih =>
      intro ht w hw
      simp only [Term.collectVars, Term.mem_collectAll] at hw
      obtain ⟨t, hmem, hw⟩ := hw
      simp only [applySubstTerm, applySubstTerms_eq_map, Term.func.injEq, true_and] at ht
      have hmap := List.map_inj_left.mp (ht.trans (List.map_id args).symm) t hmem
      exact ih t hmem hmap w hw
  refine ⟨fun _ _ => rfl, fun v t hv w hw => ?_⟩
  have ht : applySubstTerm s t = t := by
    simpa [applySubstTerm, hv] using h (.var v)
  have hw := hfixed ht w hw
  cases hbound : s.get? w with
  | none => rfl
  | some u =>
    simp only [applySubstTerm, hbound, Option.getD_some] at hw
    exact absurd (hw ▸ hbound) (hself w)

/-- An idempotent substitution that binds no variable to itself has no cycle. -/
theorem Idempotent.acyclic {s : Substitution} (h : Idempotent s)
    (hself : ∀ v, s.get? v ≠ some (.var v)) : Acyclic s := by
  refine ⟨fun v => if s.get? v = none then 0 else 1, fun v w hvw => ?_⟩
  obtain ⟨t, hv, hw⟩ := hvw
  have hfree : s.get? w = none := (h.continues hself).apart v t hv w hw
  simp [hfree, hv]

namespace Continues

variable {s c : Substitution}

/-- After an application no variable of `s` is left. -/
theorem free (h : Continues s c) {t : Term} {w : String}
    (hw : w ∈ (applySubstTerm c t).collectVars) : s.get? w = none := by
  obtain ⟨v, _, hw⟩ := mem_collectVars_applySubstTerm.mp hw
  cases hv : c.get? v with
  | none =>
    simp only [applySubstTerm, hv, Option.getD_none, Term.collectVars,
      List.mem_singleton] at hw
    by_contra hbound
    rw [hw] at hbound
    exact hbound (h.keeps v hbound ▸ hv)
  | some u =>
    simp only [applySubstTerm, hv, Option.getD_some] at hw
    exact h.apart v u hv w hw

theorem insert (h : Continues s c) {v : String} {t : Term} (hv : s.get? v = none)
    (ht : ∀ w ∈ t.collectVars, s.get? w = none) : Continues s (c.insert v t) where
  keeps := by
    intro w hw
    rw [Substitution.get?_insert, if_neg (fun heq : w = v => hw (heq ▸ hv))]
    exact h.keeps w hw
  apart := by
    intro w u hu
    rw [Substitution.get?_insert] at hu
    split at hu
    · cases hu
      exact ht
    · exact h.apart w u hu

/-- A walk binds only variables that `s` leaves free. -/
theorem run {l1 l2 : List Term} {c r : Substitution} {bs : List Binding} (h : Continues s c)
    (hrun : UnifyRun l1 l2 c bs r) : Continues s r := by
  induction hrun with
  | nil c => exact h
  | same _ _ ih => exact ih h
  | args _ _ _ _ ih => exact ih h
  | @bind a1 a2 t v l1 l2 c r bs hsides _ _ ih =>
    have hfree1 : ∀ w ∈ (applySubstTerm c a1).collectVars, s.get? w = none :=
      fun w hw => h.free hw
    have hfree2 : ∀ w ∈ (applySubstTerm c a2).collectVars, s.get? w = none :=
      fun w hw => h.free hw
    rcases hsides with ⟨h1, h2⟩ | ⟨h1, h2⟩
    · rw [h1] at hfree1
      rw [h2] at hfree2
      exact ih (h.insert (hfree1 v (by simp [Term.collectVars])) hfree2)
    · rw [h1] at hfree1
      rw [h2] at hfree2
      exact ih (h.insert (hfree2 v (by simp [Term.collectVars])) hfree1)

end Continues

/-! ## Terms with a common instance -/

section

variable {θ : Valuation}

theorem unifyArgs_finds {fuel : Nat}
    (hunify : ∀ t1 t2 s, Satisfies θ s → t1.eval θ = t2.eval θ → sizeOf (t1.eval θ) < fuel →
      ∃ r, unify fuel t1 t2 s = some (some r) ∧ Satisfies θ r) :
    ∀ {args1 args2 : List Term} {s : Substitution}, Satisfies θ s →
      args1.map (Term.eval θ) = args2.map (Term.eval θ) →
      (∀ a ∈ args1, sizeOf (a.eval θ) < fuel) →
      ∃ r, unifyArgs (unify fuel) args1 args2 s = some (some r) ∧ Satisfies θ r
  | [], [], s, hs, _, _ => ⟨s, rfl, hs⟩
  | [], _ :: _, s, _, heq, _ => by simp at heq
  | _ :: _, [], s, _, heq, _ => by simp at heq
  | a1 :: args1, a2 :: args2, s, hs, heq, hsize => by
    simp only [List.map_cons, List.cons.injEq] at heq
    obtain ⟨hsize1, hsize⟩ := List.forall_mem_cons.mp hsize
    obtain ⟨s1, hu, hs1⟩ := hunify a1 a2 s hs heq.1 hsize1
    obtain ⟨r, hr, hsat⟩ := unifyArgs_finds hunify hs1 heq.2 hsize
    exact ⟨r, by simp [unifyArgs, hu, hr], hsat⟩

/-- `unify` runs out of depth in the arguments of two applications only. -/
theorem unify_eq_none {fuel : Nat} {t1 t2 : Term} {s : Substitution}
    (h : unify (fuel + 1) t1 t2 s = none) :
    ∃ f args1 args2, applySubstTerm s t1 = .func f args1 ∧ applySubstTerm s t2 = .func f args2 ∧
      unifyArgs (unify fuel) args1 args2 s = none := by
  rw [unify] at h
  cases h1 : applySubstTerm s t1 with
  | var v => simp [h1] at h
  | const c1 | ref r1 => cases h2 : applySubstTerm s t2 <;> simp [h1, h2] at h
  | func f1 args1 =>
    cases h2 : applySubstTerm s t2 with
    | var v => simp [h1, h2] at h
    | const c2 => simp [h1, h2] at h
    | ref r2 => simp [h1, h2] at h
    | func f2 args2 =>
      simp only [h1, h2] at h
      split at h
      · next hsame => exact ⟨f1, args1, args2, rfl, by rw [hsame.1], h⟩
      · cases h

/-- **Unification finds** a substitution for terms with a common instance, within the
size of that instance. -/
theorem unify_finds : ∀ (fuel : Nat) (t1 t2 : Term) (s : Substitution), Satisfies θ s →
    t1.eval θ = t2.eval θ → sizeOf (t1.eval θ) < fuel →
    ∃ r, unify fuel t1 t2 s = some (some r) ∧ Satisfies θ r
  | 0, _, _, _, _, _, hsize => by omega
  | fuel + 1, t1, t2, s, hs, heq, hsize => by
    cases hu : unify (fuel + 1) t1 t2 s with
    | some o =>
      obtain ⟨r, rfl, hr⟩ := unify_complete _ _ _ _ _ hu hs heq
      exact ⟨r, rfl, hr⟩
    | none =>
      -- the arguments are smaller than the instance, so the depth suffices for them
      obtain ⟨f, args1, args2, h1, h2, hargs⟩ := unify_eq_none hu
      rw [← hs.eval_term t1, h1] at heq hsize
      rw [← hs.eval_term t2, h2] at heq
      simp only [Term.eval, Term.evalAll_eq_map, Value.func.injEq, true_and,
        Value.func.sizeOf_spec] at heq hsize
      have hsmall : ∀ a ∈ args1, sizeOf (a.eval θ) < fuel := by
        intro a ha
        have := List.sizeOf_lt_of_mem (List.mem_map_of_mem (f := Term.eval θ) ha)
        omega
      obtain ⟨r, hr, _⟩ := unifyArgs_finds (unify_finds fuel) hs heq hsmall
      rw [hargs] at hr
      cases hr

end

/-! ## When a result is a unifier -/

/-- The bindings left at the end have no cycle and imply the ones that were replaced,
and the run did not start with a variable bound to itself. -/
structure Lossless (s : Substitution) (bs : List Binding) : Prop where
  noSelf : ∀ v, s.get? v ≠ some (.var v)
  acyclic : Acyclic (standing s bs)
  implied : ∀ b ∈ bs, ∀ θ, Satisfies θ (standing s bs) → b.Holds θ

/-- A binding of an acyclic substitution does not mention its own variable. -/
theorem Acyclic.get?_ne_self {r : Substitution} (h : Acyclic r) (v : String) :
    r.get? v ≠ some (.var v) := by
  intro hv
  obtain ⟨rank, hrank⟩ := h
  exact Nat.lt_irrefl _ (hrank v v ⟨.var v, hv, by simp [Term.collectVars]⟩)

/-- **A walk ends in a unifier** iff its bindings are lossless. -/
theorem UnifyRun.unifier_iff {l1 l2 : List Term} {s r : Substitution} {bs : List Binding}
    (hrun : UnifyRun l1 l2 s bs r) (hs : Idempotent s) {t1 t2 : Term}
    (hterms : ∀ θ, t1.eval θ = t2.eval θ ↔ l1.map (Term.eval θ) = l2.map (Term.eval θ)) :
    Unifier s r t1 t2 ↔ Lossless s bs := by
  have hr := hrun.eq_standing
  have hequal : (∀ v t, s.get? v = some t → r.get? v = some t) →
      ((∀ θ, Satisfies θ r → t1.eval θ = t2.eval θ) ↔
        ∀ b ∈ bs, ∀ θ, Satisfies θ r → b.Holds θ) := by
    intro hkeeps
    have hpoint : ∀ θ, Satisfies θ r → (t1.eval θ = t2.eval θ ↔ ∀ b ∈ bs, b.Holds θ) := by
      intro θ hθ
      have hstart : Satisfies θ s := fun v t hv => hθ v t (hkeeps v t hv)
      rw [hterms, hrun.eval_eq_iff hstart]
    constructor
    · exact fun h b hb θ hθ => (hpoint θ hθ).mp (h θ hθ) b hb
    · exact fun h θ hθ => (hpoint θ hθ).mpr (fun b hb => h b hb θ hθ)
  constructor
  · intro h
    refine ⟨fun v hv => h.acyclic.get?_ne_self v (h.keeps v _ hv), hr ▸ h.acyclic, ?_⟩
    rw [← hr]
    exact (hequal h.keeps).mp ((h.acyclic.equal_iff t1 t2).mp h.equal)
  · intro h
    have hacyclic : Acyclic r := hr ▸ h.acyclic
    have himplied := h.implied
    rw [← hr] at himplied
    have hkeeps : ∀ v t, s.get? v = some t → r.get? v = some t := by
      intro v t hv
      rw [((hs.continues h.noSelf).run hrun).keeps v (by simp [hv]), hv]
    exact ⟨hkeeps, hacyclic, (hacyclic.equal_iff t1 t2).mpr ((hequal hkeeps).mpr himplied)⟩

/-- Safe bindings are lossless. -/
theorem UnifyRun.lossless {l1 l2 : List Term} {s r : Substitution} {bs : List Binding}
    (hrun : UnifyRun l1 l2 s bs r) (hs : Acyclic s) (hsafe : ∀ b ∈ bs, b.Safe) : Lossless s bs := by
  have href := hrun.refines hsafe
  rw [hrun.eq_standing] at href
  refine ⟨hs.get?_ne_self, href.acyclic hs, fun b hb θ hθ => ?_⟩
  have hmap := hrun.map_eval_eq (fun b hb => (hsafe b hb).fresh) (hrun.eq_standing ▸ hθ)
  exact (hrun.eval_eq_iff (href.satisfies θ hθ)).mp hmap b hb

/-! ## The two functions -/

/-- A predicate as the application of its name to its arguments. -/
def Predicate.asTerm (p : Predicate) : Term := .func p.name p.args

/-- What is asked of a unification of two terms, given by its results for every
recursion depth: what it returns is a unifier, and it returns one if the terms have a
common instance. -/
structure Correct (run : Nat → Option (Option Substitution)) (s : Substitution)
    (t1 t2 : Term) : Prop where
  unifier : ∀ fuel r, run fuel = some (some r) → Unifier s r t1 t2
  finds : Unifiable s t1 t2 → ∃ depth, ∀ fuel ≥ depth, ∃ r, run fuel = some (some r)

theorem unify_finds_unifiable {s : Substitution} {t1 t2 : Term} (h : Unifiable s t1 t2) :
    ∃ depth, ∀ fuel ≥ depth, ∃ r, unify fuel t1 t2 s = some (some r) := by
  obtain ⟨θ, hθ, heq⟩ := h
  refine ⟨sizeOf (t1.eval θ) + 1, fun fuel hfuel => ?_⟩
  obtain ⟨r, hr, _⟩ := unify_finds fuel t1 t2 s hθ heq (by omega)
  exact ⟨r, hr⟩

theorem unifyPredicates_finds_unifiable {s : Substitution} {p1 p2 : Predicate}
    (h : Unifiable s p1.asTerm p2.asTerm) :
    ∃ depth, ∀ fuel ≥ depth, ∃ r, unifyPredicates fuel p1 p2 s = some (some r) := by
  obtain ⟨θ, hθ, heq⟩ := h
  simp only [Predicate.asTerm, Term.eval, Term.evalAll_eq_map, Value.func.injEq] at heq
  have hlen : p1.args.length = p2.args.length := by simpa using congrArg List.length heq.2
  refine ⟨sizeOf (p1.asTerm.eval θ), fun fuel hfuel => ?_⟩
  have hsmall : ∀ a ∈ p1.args, sizeOf (a.eval θ) < fuel := by
    intro a ha
    have := List.sizeOf_lt_of_mem (List.mem_map_of_mem (f := Term.eval θ) ha)
    simp only [Predicate.asTerm, Term.eval, Term.evalAll_eq_map, Value.func.sizeOf_spec] at hfuel
    omega
  obtain ⟨r, hr, _⟩ := unifyArgs_finds (unify_finds fuel) hθ heq.2 hsmall
  exact ⟨r, by simp [unifyPredicates, heq.1, hlen, hr]⟩

/-- The run starts with no variable bound to itself, and every step binds safely. -/
structure Stepwise (s : Substitution) (bs : List Binding) : Prop where
  noSelf : ∀ v, s.get? v ≠ some (.var v)
  safe : ∀ b ∈ bs, b.Safe

theorem Stepwise.lossless {l1 l2 : List Term} {s r : Substitution} {bs : List Binding}
    (h : Stepwise s bs) (hs : Idempotent s) (hrun : UnifyRun l1 l2 s bs r) : Lossless s bs :=
  hrun.lossless (hs.acyclic h.noSelf) h.safe

/-- **Unification is correct** on two terms or predicates when every run of it that
returns a substitution binds safely, step by step. -/
theorem unify_correct (s : Substitution) (hs : Idempotent s) :
    (∀ t1 t2, (∀ fuel r, unify fuel t1 t2 s = some (some r) →
        Stepwise s (unifyBindings fuel t1 t2 s)) →
      Correct (fun fuel => unify fuel t1 t2 s) s t1 t2) ∧
    ∀ p1 p2, (∀ fuel r, unifyPredicates fuel p1 p2 s = some (some r) →
        Stepwise s (unifyPredicatesBindings fuel p1 p2 s)) →
      Correct (fun fuel => unifyPredicates fuel p1 p2 s) s p1.asTerm p2.asTerm := by
  constructor
  · intro t1 t2 hsteps
    refine ⟨fun fuel r hr => ?_, unify_finds_unifiable⟩
    have hrun := UnifyRun.ofUnify _ _ _ _ _ hr
    exact (hrun.unifier_iff hs (by simp)).mpr ((hsteps fuel r hr).lossless hs hrun)
  · intro p1 p2 hsteps
    refine ⟨fun fuel r hr => ?_, unifyPredicates_finds_unifiable⟩
    obtain ⟨hname, hrun⟩ := UnifyRun.ofUnifyPredicates hr
    have hargs : ∀ θ, p1.asTerm.eval θ = p2.asTerm.eval θ ↔
        p1.args.map (Term.eval θ) = p2.args.map (Term.eval θ) := by
      simp [Predicate.asTerm, Term.eval, hname]
    exact (hrun.unifier_iff hs hargs).mpr ((hsteps fuel r hr).lossless hs hrun)

/-- `f(X, X)` and `f(Y, a)`: `X` is bound to `Y`, and `Y`, reached through `X`, to `a`. -/
theorem unify_correct_chain :
    Correct (fun fuel => unify fuel (.func "f" [.var "X", .var "X"])
        (.func "f" [.var "Y", .const (.string "a")]) []) []
      (.func "f" [.var "X", .var "X"]) (.func "f" [.var "Y", .const (.string "a")]) := by
  refine (unify_correct [] (fun t => ?_)).1 _ _ (fun fuel r hr => ⟨by simp, ?_⟩)
  · rw [applySubstTerm_of_free (fun _ _ => rfl), applySubstTerm_of_free (fun _ _ => rfl)]
  · match fuel with
    | 0 => cases hr
    | 1 => cases hr
    | fuel + 2 =>
      have hbind : unifyBindings (fuel + 2) (.func "f" [.var "X", .var "X"])
          (.func "f" [.var "Y", .const (.string "a")]) []
            = [⟨"X", .var "Y", []⟩, ⟨"Y", .const (.string "a"), [("X", .var "Y")]⟩] := rfl
      have hfirst : Binding.Safe ⟨"X", .var "Y", []⟩ := Binding.safe_of_nil (by decide)
      have hsecond : Binding.Safe ⟨"Y", .const (.string "a"), [("X", .var "Y")]⟩ :=
        Binding.safe_of_isGround (by decide) rfl
      rw [hbind]
      simpa using ⟨hfirst, hsecond⟩

/-- `f(X, Y, X)` and `f(Y, a, b)` have no common instance. The run binds `X` to `Y`, `Y`
to `a`, and then `Y`, reached through `X`, to `b`. -/
theorem unify_replaces_binding : ¬ ∀ (s : Substitution) (t1 t2 : Term), Idempotent s →
      Correct (fun fuel => unify fuel t1 t2 s) s t1 t2 := by
  intro h
  have hrun : unify 2 (.func "f" [.var "X", .var "Y", .var "X"])
      (.func "f" [.var "Y", .const (.string "a"), .const (.string "b")]) []
        = some (some [("X", .var "Y"), ("Y", .const (.string "b"))]) := by decide
  have hidem : Idempotent [] := by
    intro t
    rw [applySubstTerm_of_free (fun _ _ => rfl), applySubstTerm_of_free (fun _ _ => rfl)]
  obtain ⟨θ, _, heq⟩ := ((h [] _ _ hidem).unifier 2 _ hrun).unifiable
  simp [Term.eval] at heq
  simp [heq.1, heq.2.1] at heq

end Ipfrs.TensorLogic
