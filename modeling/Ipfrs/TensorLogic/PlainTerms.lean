/-
Ipfrs.TensorLogic.PlainTerms — unification without applications.

Over ground facts and function-free rules every argument and every binding is a variable
or a ground term. Then the equations of a substitution can always be solved, even when
variables lead back to themselves (`PlainSubst.exists_solution`), and unifying with ground
terms leaves nothing but ground bindings (`UnifyRun.grounds`).
-/
import Ipfrs.TensorLogic.FlatPrograms
import Ipfrs.TensorLogic.UnifyRun

namespace Ipfrs.TensorLogic

open Ipfrs.Core Ipfrs.Lib

/-! ## Plain terms -/

/-- A variable or a ground term. -/
def Term.Plain (t : Term) : Prop := (∃ v, t = .var v) ∨ t.isGround = true

variable {t : Term} {s : Substitution}

theorem Term.plain_of_functionFree (h : t.functionFree = true) : t.Plain := by
  cases t with
  | var v => exact .inl ⟨v, rfl⟩
  | const c => exact .inr rfl
  | ref r => exact .inr rfl
  | func f args => simp [Term.functionFree] at h

theorem Term.Small.plain {n : Nat} (h : t.Small n) : t.Plain :=
  h.imp_right And.left

/-- Every binding is plain. -/
def PlainSubst (s : Substitution) : Prop := ∀ v t, s.get? v = some t → t.Plain

theorem PlainSubst.nil : PlainSubst [] := fun v t hv => by simp at hv

theorem Term.Plain.apply (ht : t.Plain) (hs : PlainSubst s) : (applySubstTerm s t).Plain := by
  rcases ht with ⟨v, rfl⟩ | hground
  · rw [applySubstTerm]
    cases hv : s.get? v with
    | none => exact .inl ⟨v, rfl⟩
    | some u => exact hs v u hv
  · rw [applySubstTerm_of_isGround hground]
    exact .inr hground

theorem Term.Plain.args {f : String} {args : List Term} (h : (Term.func f args).Plain) :
    ∀ t ∈ args, t.isGround = true := by
  rcases h with ⟨v, hv⟩ | hground
  · cases hv
  · exact Term.allGround_iff.mp (by simpa [Term.isGround] using hground)

/-- Unifying plain terms makes plain bindings. -/
theorem UnifyRun.plain {l1 l2 : List Term} {r : Substitution} {bs : List Binding}
    (h : UnifyRun l1 l2 s bs r) (h1 : ∀ t ∈ l1, t.Plain) (h2 : ∀ t ∈ l2, t.Plain)
    (hs : PlainSubst s) : PlainSubst r := by
  induction h with
  | nil s => exact hs
  | same _ _ ih =>
    exact ih (fun t ht => h1 t (List.mem_cons_of_mem _ ht))
      (fun t ht => h2 t (List.mem_cons_of_mem _ ht)) hs
  | @bind a1 a2 t v l1 l2 s r bs hsides _ _ ih =>
    obtain ⟨ha1, h1⟩ := List.forall_mem_cons.mp h1
    obtain ⟨ha2, h2⟩ := List.forall_mem_cons.mp h2
    have ht : t.Plain := by
      rcases hsides with ⟨_, h⟩ | ⟨h, _⟩
      · exact h ▸ ha2.apply hs
      · exact h ▸ ha1.apply hs
    refine ih h1 h2 (fun w u hw => ?_)
    rw [Substitution.get?_insert] at hw
    split at hw
    · cases hw
      exact ht
    · exact hs w u hw
  | args hf1 hf2 _ _ ih =>
    obtain ⟨ha1, h1⟩ := List.forall_mem_cons.mp h1
    obtain ⟨ha2, h2⟩ := List.forall_mem_cons.mp h2
    have hargs1 := Term.Plain.args (hf1 ▸ ha1.apply hs)
    have hargs2 := Term.Plain.args (hf2 ▸ ha2.apply hs)
    exact ih (List.forall_mem_append.mpr ⟨fun t ht => .inr (hargs1 t ht), h1⟩)
      (List.forall_mem_append.mpr ⟨fun t ht => .inr (hargs2 t ht), h2⟩) hs

/-- The bindings of the variable end in a ground term with the value. -/
inductive LeadsTo (s : Substitution) : String → Value → Prop
  | ground {v : String} {t : Term} (θ : Valuation) :
      s.get? v = some t → t.isGround = true → LeadsTo s v (t.eval θ)
  | var {v w : String} {x : Value} :
      s.get? v = some (.var w) → LeadsTo s w x → LeadsTo s v x

theorem LeadsTo.unique {v : String} {x y : Value} (hx : LeadsTo s v x) (hy : LeadsTo s v y) :
    x = y := by
  induction hx with
  | ground θ hget hground =>
    cases hy with
    | ground η hget' _ =>
      rw [hget] at hget'
      cases hget'
      exact Term.eval_of_isGround hground θ η
    | var hget' _ =>
      rw [hget] at hget'
      cases hget'
      simp [Term.isGround] at hground
  | var hget _ ih =>
    cases hy with
    | ground η hget' hground =>
      rw [hget] at hget'
      cases hget'
      simp [Term.isGround] at hground
    | var hget' hy =>
      rw [hget] at hget'
      cases hget'
      exact ih hy

/-- Variables bound to variables and ground terms can always be given values, also when
they lead back to themselves. -/
theorem PlainSubst.exists_solution (hs : PlainSubst s) : ∃ θ, Satisfies θ s := by
  classical
  refine ⟨fun v => if h : ∃ x, LeadsTo s v x then h.choose else .const (.bool true), ?_⟩
  intro v t hv
  rcases hs v t hv with ⟨w, rfl⟩ | hground
  · have hsame : LeadsTo s v = LeadsTo s w := by
      funext x
      refine propext ⟨fun h => ?_, LeadsTo.var hv⟩
      cases h with
      | ground θ hget hground =>
        rw [hv] at hget
        cases hget
        simp [Term.isGround] at hground
      | var hget h =>
        rw [hv] at hget
        cases hget
        exact h
    simp only [Term.eval, hsame]
  · have hlead : ∃ x, LeadsTo s v x := ⟨_, LeadsTo.ground (fun _ => .const (.bool true)) hv hground⟩
    simp only [dif_pos hlead]
    exact hlead.choose_spec.unique (LeadsTo.ground _ hv hground)

/-- All arguments are plain. -/
def Predicate.Plain (p : Predicate) : Prop := ∀ t ∈ p.args, t.Plain

theorem Predicate.Small.plain {n : Nat} {p : Predicate} (h : p.Small n) : p.Plain :=
  fun t ht => (h t ht).plain

theorem Predicate.plain_of_isGround {p : Predicate} (h : p.isGround = true) : p.Plain :=
  fun t ht => .inr (List.all_eq_true.mp h t ht)

theorem Predicate.Plain.apply {p : Predicate} (hp : p.Plain) (hs : PlainSubst s) :
    (applySubstPredicate s p).Plain := by
  intro t ht
  obtain ⟨u, hu, rfl⟩ := List.mem_map.mp ht
  exact (hp u hu).apply hs

theorem Rule.plain_of_functionFree {r : Rule} (h : r.functionFree = true) :
    r.head.Plain ∧ ∀ b ∈ r.body, b.Plain := by
  simp only [Rule.functionFree, Bool.and_eq_true, List.all_eq_true] at h
  exact ⟨fun t ht => Term.plain_of_functionFree (h.1 t ht),
    fun b hb t ht => Term.plain_of_functionFree (h.2 b hb t ht)⟩

/-! ## Matching ground terms -/

/-- Every binding is ground. -/
def GroundSubst (s : Substitution) : Prop := ∀ v t, s.get? v = some t → t.isGround = true

theorem GroundSubst.insert (hs : GroundSubst s) {v : String} (ht : t.isGround = true) :
    GroundSubst (s.insert v t) := by
  intro w u hw
  rw [Substitution.get?_insert] at hw
  split at hw
  · cases hw
    exact ht
  · exact hs w u hw

/-- A plain term becomes ground, or it is an unbound variable. -/
theorem GroundSubst.apply_cases (hs : GroundSubst s) (ht : t.Plain) :
    (applySubstTerm s t).isGround = true ∨
      ∃ v, t = .var v ∧ applySubstTerm s t = .var v := by
  rcases ht with ⟨v, rfl⟩ | hground
  · rw [applySubstTerm]
    cases hv : s.get? v with
    | none => exact .inr ⟨v, rfl, rfl⟩
    | some u => exact .inl (hs v u hv)
  · rw [applySubstTerm_of_isGround hground]
    exact .inl hground

/-- `r` is a ground substitution that makes the terms ground, and what `s` does. -/
structure Grounds (ts : List Term) (s r : Substitution) : Prop where
  ground : GroundSubst r
  keeps : ∀ t, t.Plain → (applySubstTerm s t).isGround = true →
    (applySubstTerm r t).isGround = true
  binds : ∀ t ∈ ts, (applySubstTerm r t).isGround = true

/-- **Matching ground terms** makes plain terms ground. -/
theorem UnifyRun.grounds {l1 l2 : List Term} {r : Substitution} {bs : List Binding}
    (h : UnifyRun l1 l2 s bs r) (h1 : ∀ t ∈ l1, t.Plain) (h2 : ∀ t ∈ l2, t.isGround = true)
    (hs : GroundSubst s) : Grounds l1 s r := by
  induction h with
  | nil s => exact ⟨hs, fun _ _ h => h, fun t ht => by cases ht⟩
  | @same a1 a2 l1 l2 s r bs heq _ ih =>
    obtain ⟨ha1, h1⟩ := List.forall_mem_cons.mp h1
    obtain ⟨ha2, h2⟩ := List.forall_mem_cons.mp h2
    have hrest := ih h1 h2 hs
    refine ⟨hrest.ground, hrest.keeps, List.forall_mem_cons.mpr ⟨hrest.keeps a1 ha1 ?_,
      hrest.binds⟩⟩
    rcases hs.apply_cases ha1 with hground | ⟨v, _, hv⟩
    · exact hground
    · -- no ground term has the values of a variable
      have hvalue : ∀ c, (.const c : Value) = a2.eval (fun _ => .const c) := by
        intro c
        have hc := heq (fun _ => .const c)
        rwa [hv, applySubstTerm_of_isGround ha2] at hc
      have hsame := (hvalue (.bool true)).trans
        ((Term.eval_of_isGround ha2 _ _).trans (hvalue (.bool false)).symm)
      simp at hsame
  | @bind a1 a2 t v l1 l2 s r bs hsides _ _ ih =>
    obtain ⟨ha1, h1⟩ := List.forall_mem_cons.mp h1
    obtain ⟨ha2, h2⟩ := List.forall_mem_cons.mp h2
    rw [applySubstTerm_of_isGround ha2] at hsides
    rcases hsides with ⟨hvar, rfl⟩ | ⟨_, rfl⟩
    · have hrest := ih h1 h2 (hs.insert ha2)
      have hkeep : ∀ u : Term, u.Plain → (applySubstTerm s u).isGround = true →
          (applySubstTerm (s.insert v a2) u).isGround = true := by
        intro u hu hground
        rcases (hs.insert ha2).apply_cases hu with h | ⟨w, rfl, hw⟩
        · exact h
        · exfalso
          rw [applySubstTerm, Substitution.get?_insert] at hw
          split at hw
          · simp only [Option.getD_some] at hw
            simp [hw, Term.isGround] at ha2
          · rw [applySubstTerm, hw] at hground
            simp [Term.isGround] at hground
      refine ⟨hrest.ground, fun u hu hground => hrest.keeps u hu (hkeep u hu hground),
        List.forall_mem_cons.mpr ⟨hrest.keeps a1 ha1 ?_, hrest.binds⟩⟩
      rcases hs.apply_cases ha1 with hground | ⟨w, rfl, hw⟩
      · rw [hvar] at hground
        simp [Term.isGround] at hground
      · rw [hvar] at hw
        cases hw
        simpa [applySubstTerm, Substitution.get?_insert] using ha2
    · simp [Term.isGround] at ha2
  | @args a1 a2 f args1 args2 l1 l2 s r bs hf1 hf2 _ _ ih =>
    obtain ⟨ha1, h1⟩ := List.forall_mem_cons.mp h1
    obtain ⟨ha2, h2⟩ := List.forall_mem_cons.mp h2
    have hground1 : (applySubstTerm s a1).isGround = true := by
      rcases hs.apply_cases ha1 with hground | ⟨v, _, hv⟩
      · exact hground
      · rw [hf1] at hv
        cases hv
    rw [applySubstTerm_of_isGround ha2] at hf2
    rw [hf2, Term.isGround, Term.allGround_iff] at ha2
    have hargs1 := hground1
    rw [hf1, Term.isGround, Term.allGround_iff] at hargs1
    have hrest := ih
      (List.forall_mem_append.mpr ⟨fun t ht => .inr (hargs1 t ht), h1⟩)
      (List.forall_mem_append.mpr ⟨ha2, h2⟩) hs
    exact ⟨hrest.ground, hrest.keeps, List.forall_mem_cons.mpr
      ⟨hrest.keeps a1 ha1 hground1, fun t ht => hrest.binds t (List.mem_append_right _ ht)⟩⟩

end Ipfrs.TensorLogic
