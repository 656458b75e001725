/-
Ipfrs.TensorLogic.UnifyRun — a successful unification as a work list.

`unify` calls itself on arguments and hands the substitution on. What a call that
succeeds has done is a walk over a list of pairs: a pair is equal already, or one
side is a variable and is bound, or both are applications and their arguments take
the pair's place (`UnifyRun`). Facts about a success are inductions over this walk,
with neither recursion depth nor nesting.
-/
import Ipfrs.TensorLogic.Herbrand
import Ipfrs.TensorLogic.QueryTrace

namespace Ipfrs.TensorLogic

open Ipfrs.Core Ipfrs.Lib

/-! ## The arm for a variable -/

theorem isVarNamed_iff {v : String} {t : Term} : isVarNamed v t = true ↔ t = .var v := by
  cases t with
  | var w =>
    simp only [isVarNamed, beq_iff_eq, Term.var.injEq]
    exact eq_comm
  | const c => simp [isVarNamed]
  | func f args => simp [isVarNamed]
  | ref r => simp [isVarNamed]

/-- The arm for a variable leaves the substitution alone or makes one binding. -/
theorem unifyVar_cases {v : String} {t : Term} {s s' : Substitution}
    (h : unifyVar v t s = some s') : (t = .var v ∧ s' = s ∧ unifyVarBindings v t s = []) ∨
      (v ∉ t.collectVars ∧ s' = s.insert v t ∧ unifyVarBindings v t s = [⟨v, t, s⟩]) := by
  unfold unifyVar at h
  unfold unifyVarBindings
  split at h
  · next hsame => exact .inl ⟨isVarNamed_iff.mp hsame, by simpa using h.symm, if_pos hsame⟩
  · next hsame =>
    split at h
    · cases h
    · next hocc =>
      refine .inr ⟨mt occursIn_iff.mpr hocc, by simpa using h.symm, ?_⟩
      rw [if_neg hsame, if_neg hocc]

/-! ## Walks -/

/-- One of the terms is the variable, the other one is `t`. -/
def Sides (v : String) (t u1 u2 : Term) : Prop := (u1 = .var v ∧ u2 = t) ∨ (u1 = t ∧ u2 = .var v)

/-- The equation of a binding holds. -/
def Binding.Holds (θ : Valuation) (b : Binding) : Prop := θ b.var = b.term.eval θ

theorem Sides.eval_eq_iff {v : String} {t u1 u2 : Term} (h : Sides v t u1 u2) (θ : Valuation) :
    u1.eval θ = u2.eval θ ↔ θ v = t.eval θ := by
  rcases h with ⟨rfl, rfl⟩ | ⟨rfl, rfl⟩
  · rfl
  · exact eq_comm

/-- A walk over the pairs of two lists from one substitution to another, with the
bindings it makes. -/
inductive UnifyRun :
    List Term → List Term → Substitution → List Binding → Substitution → Prop
  | nil (s : Substitution) : UnifyRun [] [] s [] s
  | same {a1 a2 : Term} {l1 l2 : List Term} {s r : Substitution} {bs : List Binding} :
      (∀ θ, (applySubstTerm s a1).eval θ = (applySubstTerm s a2).eval θ) →
      UnifyRun l1 l2 s bs r → UnifyRun (a1 :: l1) (a2 :: l2) s bs r
  | bind {a1 a2 t : Term} {v : String} {l1 l2 : List Term} {s r : Substitution}
      {bs : List Binding} :
      Sides v t (applySubstTerm s a1) (applySubstTerm s a2) → v ∉ t.collectVars →
      UnifyRun l1 l2 (s.insert v t) bs r → UnifyRun (a1 :: l1) (a2 :: l2) s (⟨v, t, s⟩ :: bs) r
  | args {a1 a2 : Term} {f : String} {args1 args2 l1 l2 : List Term} {s r : Substitution}
      {bs : List Binding} :
      applySubstTerm s a1 = .func f args1 → applySubstTerm s a2 = .func f args2 →
      args1.length = args2.length → UnifyRun (args1 ++ l1) (args2 ++ l2) s bs r →
      UnifyRun (a1 :: l1) (a2 :: l2) s bs r

namespace UnifyRun

variable {l1 l2 : List Term} {s s' r : Substitution} {bs : List Binding}

theorem append {m1 m2 : List Term} {bs' : List Binding} (h : UnifyRun l1 l2 s bs s')
    (h' : UnifyRun m1 m2 s' bs' r) : UnifyRun (l1 ++ m1) (l2 ++ m2) s (bs ++ bs') r := by
  induction h with
  | nil s => exact h'
  | same heq _ ih => exact same heq (ih h')
  | bind hsides hocc _ ih => exact bind hsides hocc (ih h')
  | args h1 h2 hlen _ ih =>
    refine args h1 h2 hlen ?_
    simpa using ih h'

/-- A variable on either side takes the same arm. -/
theorem ofVar {t1 t2 t : Term} {v : String}
    (hsides : Sides v t (applySubstTerm s t1) (applySubstTerm s t2))
    (h : unifyVar v t s = some r) : UnifyRun [t1] [t2] s (unifyVarBindings v t s) r := by
  rcases unifyVar_cases h with ⟨rfl, rfl, hbind⟩ | ⟨hocc, rfl, hbind⟩
  · rw [hbind]
    exact same (fun θ => (hsides.eval_eq_iff θ).mpr rfl) (nil _)
  · rw [hbind]
    exact bind hsides hocc (nil _)

/-- The loop over arguments walks if the calls it makes do. -/
theorem ofUnifyArgs {unify : Term → Term → Substitution → Option (Option Substitution)}
    {bindings : Term → Term → Substitution → List Binding}
    (hunify : ∀ t1 t2 s r, unify t1 t2 s = some (some r) →
      UnifyRun [t1] [t2] s (bindings t1 t2 s) r) :
    ∀ {args1 args2 : List Term} {s r : Substitution}, args1.length = args2.length →
      unifyArgs unify args1 args2 s = some (some r) →
      UnifyRun args1 args2 s (unifyArgsBindings unify bindings args1 args2 s) r
  | [], [], s, r, _, h => by
    cases h
    exact nil _
  | a1 :: args1, a2 :: args2, s, r, hlen, h => by
    rw [unifyArgs] at h
    rw [unifyArgsBindings]
    cases hu : unify a1 a2 s with
    | none => simp [hu] at h
    | some o =>
      cases o with
      | none => simp [hu] at h
      | some s1 =>
        simp only [hu] at h ⊢
        exact (hunify a1 a2 s s1 hu).append (ofUnifyArgs hunify (by simpa using hlen) h)

/-- **A successful `unify` is a walk** from the one pair it was called with. -/
theorem ofUnify : ∀ (fuel : Nat) (t1 t2 : Term) (s r : Substitution),
    unify fuel t1 t2 s = some (some r) → UnifyRun [t1] [t2] s (unifyBindings fuel t1 t2 s) r
  | 0, _, _, _, _, h => by cases h
  | fuel + 1, t1, t2, s, r, h => by
    rw [unify] at h
    rw [unifyBindings]
    cases h1 : applySubstTerm s t1 with
    | var v =>
      simp only [h1, Option.some.injEq] at h
      exact ofVar (.inl ⟨h1, rfl⟩) h
    | const c1 =>
      cases h2 : applySubstTerm s t2 with
      | var v =>
        simp only [h1, h2, Option.some.injEq] at h
        exact ofVar (.inr ⟨h1, h2⟩) h
      | const c2 =>
        simp only [h1, h2, Option.some.injEq, Option.ite_none_right_eq_some] at h
        obtain ⟨rfl, rfl⟩ := h
        exact same (fun θ => by rw [h1, h2]) (nil _)
      | func f2 args2 => simp [h1, h2] at h
      | ref r2 => simp [h1, h2] at h
    | func f1 args1 =>
      cases h2 : applySubstTerm s t2 with
      | var v =>
        simp only [h1, h2, Option.some.injEq] at h
        exact ofVar (.inr ⟨h1, h2⟩) h
      | const c2 => simp [h1, h2] at h
      | func f2 args2 =>
        simp only [h1, h2] at h ⊢
        split at h
        · next hsame =>
          rw [if_pos hsame]
          obtain ⟨rfl, hlen⟩ := hsame
          refine args h1 h2 hlen ?_
          rw [List.append_nil, List.append_nil]
          exact ofUnifyArgs (ofUnify fuel) hlen h
        · cases h
      | ref r2 => simp [h1, h2] at h
    | ref r1 =>
      cases h2 : applySubstTerm s t2 with
      | var v =>
        simp only [h1, h2, Option.some.injEq] at h
        exact ofVar (.inr ⟨h1, h2⟩) h
      | const c2 => simp [h1, h2] at h
      | func f2 args2 => simp [h1, h2] at h
      | ref r2 =>
        simp only [h1, h2, Option.some.injEq, Option.ite_none_right_eq_some] at h
        obtain ⟨hcid, rfl⟩ := h
        exact same (fun θ => by simp [h1, h2, Term.eval, hcid]) (nil _)

theorem ofUnifyPredicates {fuel : Nat} {p1 p2 : Predicate}
    (h : unifyPredicates fuel p1 p2 s = some (some r)) : p1.name = p2.name ∧
      UnifyRun p1.args p2.args s (unifyPredicatesBindings fuel p1 p2 s) r := by
  unfold unifyPredicates at h
  unfold unifyPredicatesBindings
  split at h
  · cases h
  · next hsame =>
    rw [if_neg hsame]
    push Not at hsame
    exact ⟨hsame.1, ofUnifyArgs (ofUnify fuel) hsame.2 h⟩

end UnifyRun

/-! ## What a walk leaves -/

/-- The substitution after the bindings, each put in over what was there. -/
def standing (s : Substitution) (bs : List Binding) : Substitution :=
  bs.foldl (fun s b => s.insert b.var b.term) s

namespace UnifyRun

variable {l1 l2 : List Term} {s r : Substitution} {bs : List Binding}

/-- A walk ends with the bindings it has made. -/
theorem eq_standing (h : UnifyRun l1 l2 s bs r) : r = standing s bs := by
  induction h with
  | nil s => rfl
  | same _ _ ih => exact ih
  | bind _ _ _ ih => exact ih
  | args _ _ _ _ ih => exact ih

/-- **The bindings of a walk say the same as its pairs**: a solution of the first
substitution makes both lists equal iff it solves every binding. -/
theorem eval_eq_iff (h : UnifyRun l1 l2 s bs r) {θ : Valuation} (hs : Satisfies θ s) :
    l1.map (Term.eval θ) = l2.map (Term.eval θ) ↔ ∀ b ∈ bs, b.Holds θ := by
  induction h with
  | nil s => simp
  | @same a1 a2 l1 l2 s r bs heq _ ih =>
    have ha : a1.eval θ = a2.eval θ := by
      rw [← hs.eval_term a1, ← hs.eval_term a2]
      exact heq θ
    simp [ha, ih hs]
  | @bind a1 a2 t v l1 l2 s r bs hsides _ _ ih =>
    have ha : a1.eval θ = a2.eval θ ↔ θ v = t.eval θ := by
      rw [← hs.eval_term a1, ← hs.eval_term a2]
      exact hsides.eval_eq_iff θ
    simp only [List.map_cons, List.cons.injEq, List.forall_mem_cons, ha, Binding.Holds]
    exact and_congr_right (fun hv => ih (hs.insert hv))
  | @args a1 a2 f args1 args2 l1 l2 s r bs h1 h2 hlen _ ih =>
    have ha : a1.eval θ = a2.eval θ ↔
        args1.map (Term.eval θ) = args2.map (Term.eval θ) := by
      rw [← hs.eval_term a1, ← hs.eval_term a2, h1, h2]
      simp [Term.eval]
    rw [← ih hs]
    simp only [List.map_cons, List.cons.injEq, List.map_append, ha]
    constructor
    · intro h
      rw [h.1, h.2]
    · exact fun h => List.append_inj h (by simpa using hlen)

end UnifyRun

end Ipfrs.TensorLogic
