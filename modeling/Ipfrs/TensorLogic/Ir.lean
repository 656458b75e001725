/-
Ipfrs.TensorLogic.Ir — terms, predicates, rules and knowledge bases (`ir.rs`).

A term is a variable, a constant, a function application or a reference to a term
stored elsewhere. `vars` (the source's `variables`) lists names in Rust's string
order, which is the code-point order of `String`. Display forms, serialisation and
the rule indexes are left out.
-/
import Ipfrs.Core.Cid
import Mathlib.Data.List.Sort

namespace Ipfrs.TensorLogic

open Ipfrs.Core

/-- `Constant`; a float is kept as text. -/
inductive Constant where
  | string (s : String)
  | int (i : Int64)
  | bool (b : Bool)
  | float (s : String)
  deriving DecidableEq

/-- `TermRef`. -/
structure TermRef where
  cid : Cid
  hint : Option String := none
  deriving DecidableEq

/-- `Term`. -/
inductive Term where
  | var (v : String)
  | const (c : Constant)
  | func (f : String) (args : List Term)
  | ref (r : TermRef)

namespace Term

section Induction

variable {P : Term → Prop}
  (var : ∀ v, P (.var v))
  (const : ∀ c, P (.const c))
  (func : ∀ f args, (∀ t ∈ args, P t) → P (.func f args))
  (ref : ∀ r, P (.ref r))
include var const func ref

/-- Induction with a hypothesis for every argument of an application. -/
@[elab_as_elim]
theorem induct (t : Term) : P t :=
  @Term.rec P (fun l => ∀ t ∈ l, P t) var const
    (fun f args ih => func f args ih)
    ref
    (fun _ h => by cases h)
    (fun _ _ ht hl t hm => by
      rcases List.mem_cons.mp hm with rfl | hm
      · exact ht
      · exact hl t hm)
    t

end Induction

mutual

/-- The derived `PartialEq`. -/
def eq : Term → Term → Bool
  | .var v, .var w => v == w
  | .const c, .const d => c == d
  | .func f args, .func g args' => f == g && eqAll args args'
  | .ref r, .ref q => r == q
  | _, _ => false

def eqAll : List Term → List Term → Bool
  | [], [] => true
  | t :: ts, u :: us => eq t u && eqAll ts us
  | _, _ => false

end

theorem eqAll_iff : ∀ {ts us : List Term}, (∀ t ∈ ts, ∀ u, t.eq u = true ↔ t = u) →
    (eqAll ts us = true ↔ ts = us)
  | [], [], _ => by simp [eqAll]
  | [], u :: us, _ => by simp [eqAll]
  | t :: ts, [], _ => by simp [eqAll]
  | t :: ts, u :: us, h => by
    have ht := h t List.mem_cons_self u
    have hts : eqAll ts us = true ↔ ts = us :=
      eqAll_iff (fun t hm => h t (List.mem_cons_of_mem _ hm))
    simp [eqAll, ht, hts]

theorem eq_iff {t u : Term} : t.eq u = true ↔ t = u := by
  induction t using Term.induct generalizing u with
  | var v => cases u <;> simp [eq]
  | const c => cases u <;> simp [eq]
  | ref r => cases u <;> simp [eq]
  | func f args ih =>
    cases u with
    | func g args' => simp [eq, eqAll_iff (fun t ht u => ih t ht)]
    | var w => simp [eq]
    | const d => simp [eq]
    | ref q => simp [eq]

instance : DecidableEq Term := fun _ _ => decidable_of_iff _ eq_iff

mutual

/-- `Term::is_ground`. -/
def isGround : Term → Bool
  | .var _ => false
  | .const _ => true
  | .func _ args => allGround args
  | .ref _ => true

/-- `is_ground` of every term of a list. -/
def allGround : List Term → Bool
  | [] => true
  | t :: ts => isGround t && allGround ts

end

mutual

/-- `Term::collect_vars`: the variables in order of occurrence. -/
def collectVars : Term → List String
  | .var v => [v]
  | .func _ args => collectAll args
  | .const _ => []
  | .ref _ => []

/-- `collect_vars` along a list. -/
def collectAll : List Term → List String
  | [] => []
  | t :: ts => collectVars t ++ collectAll ts

end

theorem allGround_iff {ts : List Term} : allGround ts = true ↔ ∀ t ∈ ts, t.isGround = true := by
  induction ts with
  | nil => simp [allGround]
  | cons t ts ih => simp [allGround, ih]

theorem mem_collectAll {v : String} {ts : List Term} :
    v ∈ collectAll ts ↔ ∃ t ∈ ts, v ∈ t.collectVars := by
  induction ts with
  | nil => simp [collectAll]
  | cons t ts ih => simp [collectAll, ih]

/-- A term is ground exactly when it has no variable. -/
theorem isGround_iff {t : Term} : t.isGround = true ↔ ∀ v, v ∉ t.collectVars := by
  induction t using Term.induct with
  | var v | const v => simp [isGround, collectVars]
  | ref r => simp [isGround, collectVars]
  | func f args ih =>
    simp only [isGround, collectVars, allGround_iff, mem_collectAll, not_exists, not_and]
    constructor
    · intro h v t ht
      exact (ih t ht).mp (h t ht) v
    · intro h t ht
      exact (ih t ht).mpr (fun v => h v t ht)

end Term

/-- `Vec::dedup`: of equal neighbours one is kept. -/
def dedup : List String → List String
  | [] => []
  | [v] => [v]
  | v :: w :: vs => if v = w then dedup (w :: vs) else v :: dedup (w :: vs)

theorem mem_dedup {v : String} : ∀ {vs : List String}, v ∈ dedup vs ↔ v ∈ vs
  | [] => by simp [dedup]
  | [w] => by simp [dedup]
  | w :: x :: vs => by
    have ih : v ∈ dedup (x :: vs) ↔ v ∈ x :: vs := mem_dedup
    rw [dedup]
    split
    · next h => rw [ih, h]; simp
    · rw [List.mem_cons, ih, List.mem_cons (a := v) (b := w)]

/-- `Predicate`. -/
structure Predicate where
  name : String
  args : List Term
  deriving DecidableEq

namespace Predicate

/-- `Predicate::is_ground`. -/
def isGround (p : Predicate) : Bool := p.args.all Term.isGround

/-- `Predicate::variables`: collected, sorted, without repetitions. -/
def vars (p : Predicate) : List String :=
  dedup ((p.args.flatMap Term.collectVars).insertionSort (· ≤ ·))

theorem mem_vars {p : Predicate} {v : String} : v ∈ p.vars ↔ ∃ t ∈ p.args, v ∈ t.collectVars := by
  rw [vars, mem_dedup, List.mem_insertionSort, List.mem_flatMap]

end Predicate

/-- `Rule`. -/
structure Rule where
  head : Predicate
  body : List Predicate
  deriving DecidableEq

namespace Rule

/-- `if !vars.contains(&var) { vars.push(var) }`. -/
def pushNew (vs : List String) (v : String) : List String :=
  if v ∈ vs then vs else vs ++ [v]

/-- `Rule::variables`. -/
def vars (r : Rule) : List String :=
  ((r.body.flatMap Predicate.vars).foldl pushNew r.head.vars).insertionSort (· ≤ ·)

theorem mem_foldl_pushNew {v : String} : ∀ {vs acc : List String},
    v ∈ vs.foldl pushNew acc ↔ v ∈ acc ∨ v ∈ vs
  | [], acc => by simp
  | w :: vs, acc => by
    rw [List.foldl_cons, mem_foldl_pushNew, pushNew]
    split
    · next h =>
      constructor
      · rintro (h' | h')
        · exact .inl h'
        · exact .inr (List.mem_cons_of_mem _ h')
      · rintro (h' | h')
        · exact .inl h'
        · rcases List.mem_cons.mp h' with rfl | h'
          · exact .inl h
          · exact .inr h'
    · simp [or_assoc]

theorem mem_vars {r : Rule} {v : String} :
    v ∈ r.vars ↔ v ∈ r.head.vars ∨ ∃ b ∈ r.body, v ∈ b.vars := by
  rw [vars, List.mem_insertionSort, mem_foldl_pushNew, List.mem_flatMap]

end Rule

/-- `KnowledgeBase`. -/
structure KnowledgeBase where
  facts : List Predicate := []
  rules : List Rule := []

namespace KnowledgeBase

/-- `get_predicates`. -/
def getPredicates (kb : KnowledgeBase) (name : String) : List Predicate :=
  kb.facts.filter (fun p => p.name == name)

/-- `get_rules`. -/
def getRules (kb : KnowledgeBase) (name : String) : List Rule :=
  kb.rules.filter (fun r => r.head.name == name)

@[simp] theorem mem_getPredicates {kb : KnowledgeBase} {name : String} {p : Predicate} :
    p ∈ kb.getPredicates name ↔ p ∈ kb.facts ∧ p.name = name := by
  simp [getPredicates]

@[simp] theorem mem_getRules {kb : KnowledgeBase} {name : String} {r : Rule} :
    r ∈ kb.getRules name ↔ r ∈ kb.rules ∧ r.head.name = name := by
  simp [getRules]

end KnowledgeBase

end Ipfrs.TensorLogic
