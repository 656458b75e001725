/-
Ipfrs.TensorLogic.Unify — substitutions and unification (`reasoning.rs`).

A substitution is the map of the source, a list with strictly increasing names.
Applying it replaces each variable by its binding once; bindings are not followed
further. `unify` applies the substitution to both terms and looks at what it gets,
so it recurses into terms that can be larger than the ones it was called with, and
on some substitutions it does not return. It takes a recursion depth: the outer
`none` says that the depth did not suffice, the inner one that the terms do not
unify.
-/
import Ipfrs.Lib.SortedAssoc
import Ipfrs.TensorLogic.Ir

namespace Ipfrs.TensorLogic

open Ipfrs.Core Ipfrs.Lib

/-! ## Substitutions -/

/-- `Substitution`. -/
abbrev Substitution := List (String × Term)

/-- `HashMap::get`. -/
def Substitution.get? (s : Substitution) (v : String) : Option Term := SortedAssoc.get? s v

/-- `HashMap::insert`. -/
def Substitution.insert (s : Substitution) (v : String) (t : Term) : Substitution :=
  SortedAssoc.insert v t s

@[simp] theorem Substitution.get?_nil (v : String) : Substitution.get? [] v = none := rfl

theorem Substitution.get?_insert (s : Substitution) (v : String) (t : Term) (w : String) :
    (s.insert v t).get? w = if w = v then some t else s.get? w :=
  SortedAssoc.get?_insert v t w s

mutual

/-- `apply_subst_term`. -/
def applySubstTerm (s : Substitution) : Term → Term
  | .var v => (s.get? v).getD (.var v)
  | .const c => .const c
  | .func f args => .func f (applySubstTerms s args)
  | .ref r => .ref r

/-- `apply_subst_term` along a list. -/
def applySubstTerms (s : Substitution) : List Term → List Term
  | [] => []
  | t :: ts => applySubstTerm s t :: applySubstTerms s ts

end

@[simp] theorem applySubstTerms_eq_map (s : Substitution) (ts : List Term) :
    applySubstTerms s ts = ts.map (applySubstTerm s) := by
  induction ts with
  | nil => rfl
  | cons t ts ih => simp [applySubstTerms, ih]

/-- `apply_subst_predicate`. -/
def applySubstPredicate (s : Substitution) (p : Predicate) : Predicate :=
  { name := p.name, args := p.args.map (applySubstTerm s) }

@[simp] theorem applySubstPredicate_name (s : Substitution) (p : Predicate) :
    (applySubstPredicate s p).name = p.name := rfl

mutual

/-- `occurs_in`. -/
def occursIn (v : String) : Term → Bool
  | .var w => w == v
  | .func _ args => occursInAny v args
  | .const _ => false
  | .ref _ => false

/-- `occurs_in` of some term of a list. -/
def occursInAny (v : String) : List Term → Bool
  | [] => false
  | t :: ts => occursIn v t || occursInAny v ts

end

theorem occursIn_iff {v : String} {t : Term} : occursIn v t = true ↔ v ∈ t.collectVars := by
  have hany : ∀ {ts : List Term}, (∀ t ∈ ts, occursIn v t = true ↔ v ∈ t.collectVars) →
      (occursInAny v ts = true ↔ v ∈ Term.collectAll ts) := by
    intro ts
    induction ts with
    | nil =>
      intro _
      simp [occursInAny, Term.collectAll]
    | cons t ts ih =>
      intro h
      have ht := h t List.mem_cons_self
      have hts := ih (fun u hu => h u (List.mem_cons_of_mem _ hu))
      simp [occursInAny, Term.collectAll, ht, hts]
  induction t using Term.induct with
  | var w =>
    simp only [occursIn, Term.collectVars, beq_iff_eq, List.mem_singleton]
    exact eq_comm
  | const c | ref c => simp [occursIn, Term.collectVars]
  | func f args ih =>
    simp only [occursIn, Term.collectVars]
    exact hany ih

/-- The variables of a term after one application come from its variables. -/
theorem mem_collectVars_applySubstTerm {s : Substitution} {t : Term} {w : String} :
    w ∈ (applySubstTerm s t).collectVars ↔
      ∃ v ∈ t.collectVars, w ∈ (applySubstTerm s (.var v)).collectVars := by
  induction t using Term.induct with
  | var v => simp [Term.collectVars]
  | const c | ref c => simp [applySubstTerm, Term.collectVars]
  | func f args ih =>
    simp only [applySubstTerm, applySubstTerms_eq_map, Term.collectVars, Term.mem_collectAll,
      List.mem_map]
    constructor
    · rintro ⟨_, ⟨t, ht, rfl⟩, hw⟩
      obtain ⟨v, hv, hvw⟩ := (ih t ht).mp hw
      exact ⟨v, ⟨t, ht, hv⟩, hvw⟩
    · rintro ⟨v, ⟨t, ht, hv⟩, hvw⟩
      exact ⟨_, ⟨t, ht, rfl⟩, (ih t ht).mpr ⟨v, hv, hvw⟩⟩

/-- Applying a substitution to a term none of whose variables it binds. -/
theorem applySubstTerm_of_free {s : Substitution} {t : Term}
    (h : ∀ v ∈ t.collectVars, s.get? v = none) : applySubstTerm s t = t := by
  induction t using Term.induct with
  | var v => simp [applySubstTerm, h v (by simp [Term.collectVars])]
  | const c => rfl
  | ref r => rfl
  | func f args ih =>
    have hargs : ∀ t ∈ args, applySubstTerm s t = t := by
      intro t ht
      refine ih t ht (fun v hv => h v ?_)
      simp only [Term.collectVars, Term.mem_collectAll]
      exact ⟨t, ht, hv⟩
    rw [applySubstTerm, applySubstTerms_eq_map, List.map_congr_left hargs, List.map_id']

theorem applySubstTerm_of_isGround {s : Substitution} {t : Term} (h : t.isGround = true) :
    applySubstTerm s t = t :=
  applySubstTerm_of_free (fun v hv => absurd hv (Term.isGround_iff.mp h v))

/-! ## Unification -/

/-- The term is the variable itself. -/
def isVarNamed (v : String) : Term → Bool
  | .var w => v == w
  | .const _ => false
  | .func _ _ => false
  | .ref _ => false

/-- The arm of `unify` for a variable: the substitution stays when the term is the
variable itself; otherwise the variable must not occur in it, and the binding is
inserted. -/
def unifyVar (v : String) (t : Term) (s : Substitution) : Option Substitution :=
  if isVarNamed v t then some s
  else if occursIn v t then none
  else some (s.insert v t)

/-- The loop over two lists of arguments, with the substitution handed on. -/
def unifyArgs (unify : Term → Term → Substitution → Option (Option Substitution)) :
    List Term → List Term → Substitution → Option (Option Substitution)
  | a1 :: args1, a2 :: args2, s =>
    match unify a1 a2 s with
    | none => none
    | some none => some none
    | some (some s') => unifyArgs unify args1 args2 s'
  | [], _, s => some (some s)
  | _ :: _, [], s => some (some s)

/-- `unify`, with a recursion depth. -/
def unify : Nat → Term → Term → Substitution → Option (Option Substitution)
  | 0, _, _, _ => none
  | fuel + 1, t1, t2, s =>
    match applySubstTerm s t1, applySubstTerm s t2 with
    | .const c1, .const c2 => some (if c1 = c2 then some s else none)
    | .var v, t => some (unifyVar v t s)
    | t, .var v => some (unifyVar v t s)
    | .func f1 args1, .func f2 args2 =>
      if f1 = f2 ∧ args1.length = args2.length then unifyArgs (unify fuel) args1 args2 s
      else some none
    | .ref r1, .ref r2 => some (if r1.cid = r2.cid then some s else none)
    | _, _ => some none

/-- `unify_predicates`. -/
def unifyPredicates (fuel : Nat) (p1 p2 : Predicate) (s : Substitution) :
    Option (Option Substitution) :=
  if p1.name ≠ p2.name ∨ p1.args.length ≠ p2.args.length then some none
  else unifyArgs (unify fuel) p1.args p2.args s

/-! ## Renaming -/

/-- `format!("{}_{}", v, suffix)`. -/
def renamedVar (v : String) (suffix : Nat) : String := v ++ "_" ++ toString suffix

/-- `rename_subst` of `rename_rule_vars`. -/
def renameSubst (vars : List String) (suffix : Nat) : Substitution :=
  SortedAssoc.ofEntries (vars.map (fun v => (v, .var (renamedVar v suffix))))

/-- `rename_rule_vars`. -/
def renameRuleVars (rule : Rule) (suffix : Nat) : Rule :=
  let subst := renameSubst rule.vars suffix
  { head := applySubstPredicate subst rule.head
    body := rule.body.map (applySubstPredicate subst) }

end Ipfrs.TensorLogic
