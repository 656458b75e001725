/-
Ipfrs.TensorLogic.SymbolicCalculus — derivatives and substitution
(`symbolic_expression_simplifier.rs`).

`diff` writes the derivative down as an expression, by the usual rules. Over the real numbers
its value is the derivative of the expression's value, wherever both are defined and a power
with a fixed exponent is a power of real numbers around the point (`diff_correct`). A
substitution puts an expression in a variable's place; its value is the value with the
variable bound to what the expression is (`evaluate_substitute_ok`).
-/
import Ipfrs.TensorLogic.SymbolicTheorems

namespace Ipfrs.TensorLogic.Symbolic

open Filter (Eventually)
open scoped Topology

/-! ## Variables -/

section Variables

variable {F : Type}

def containsVar (var : String) : SesExpr F → Bool
  | .var name => name = var
  | .num _ => false
  | .add l r | .sub l r | .mul l r | .div l r | .pow l r => containsVar var l || containsVar var r
  | .neg i | .abs i | .sqrt i | .sin i | .cos i | .exp i | .ln i => containsVar var i

def collectVars : SesExpr F → Finset String
  | .var name => {name}
  | .num _ => ∅
  | .add l r | .sub l r | .mul l r | .div l r | .pow l r => collectVars l ∪ collectVars r
  | .neg i | .abs i | .sqrt i | .sin i | .cos i | .exp i | .ln i => collectVars i

theorem containsVar_iff {var : String} {e : SesExpr F} :
    containsVar var e ↔ var ∈ collectVars e := by
  induction e with
  | num v => simp [containsVar, collectVars]
  | var name => simp [containsVar, collectVars, eq_comm]
  | add l r ihl ihr | sub l r ihl ihr | mul l r ihl ihr | div l r ihl ihr | pow l r ihl ihr =>
    simp [containsVar, collectVars, ihl, ihr]
  | neg i ih | abs i ih | sqrt i ih | sin i ih | cos i ih | exp i ih | ln i ih =>
    simp [containsVar, collectVars, ih]

variable [Field F] [LinearOrder F] {fn : Elementary F}

/-- A value only depends on the variables that occur. -/
theorem evaluate_congr {vars vars' : String → Option F} {e : SesExpr F}
    (h : ∀ name ∈ collectVars e, vars name = vars' name) :
    evaluateInner fn vars e = evaluateInner fn vars' e := by
  induction e with
  | num v => rfl
  | var name => simp only [evaluateInner, h name (Finset.mem_singleton_self name)]
  | add l r ihl ihr | sub l r ihl ihr | mul l r ihl ihr | div l r ihl ihr | pow l r ihl ihr =>
    have hl := ihl fun name hname => h name (Finset.mem_union_left _ hname)
    have hr := ihr fun name hname => h name (Finset.mem_union_right _ hname)
    simp only [evaluateInner, hl, hr]
  | neg i ih | abs i ih | sqrt i ih | sin i ih | cos i ih | exp i ih | ln i ih =>
    simp only [evaluateInner, ih h]

theorem evaluate_update {vars : String → Option F} {var : String} {e : SesExpr F}
    (h : containsVar var e = false) (x : Option F) :
    evaluateInner fn (Function.update vars var x) e = evaluateInner fn vars e := by
  refine evaluate_congr fun name hname => Function.update_of_ne ?_ _ _
  rintro rfl
  rw [← containsVar_iff, h] at hname
  cases hname

end Variables

/-! ## Substitution -/

section Substitute

variable {F : Type}

def substitute (e : SesExpr F) (var : String) (replacement : SesExpr F) : SesExpr F :=
  match e with
  | .var name => if name = var then replacement else .var name
  | .num v => .num v
  | .add l r => .add (substitute l var replacement) (substitute r var replacement)
  | .sub l r => .sub (substitute l var replacement) (substitute r var replacement)
  | .mul l r => .mul (substitute l var replacement) (substitute r var replacement)
  | .div l r => .div (substitute l var replacement) (substitute r var replacement)
  | .pow b e => .pow (substitute b var replacement) (substitute e var replacement)
  | .neg inner => .neg (substitute inner var replacement)
  | .abs inner => .abs (substitute inner var replacement)
  | .sqrt inner => .sqrt (substitute inner var replacement)
  | .sin inner => .sin (substitute inner var replacement)
  | .cos inner => .cos (substitute inner var replacement)
  | .exp inner => .exp (substitute inner var replacement)
  | .ln inner => .ln (substitute inner var replacement)

variable {var : String} {replacement : SesExpr F}

theorem substitute_of_not_contains {e : SesExpr F} (h : containsVar var e = false) :
    substitute e var replacement = e := by
  induction e with
  | num v => rfl
  | var name =>
    have hne : name ≠ var := by simpa [containsVar] using h
    simp [substitute, hne]
  | add l r ihl ihr | sub l r ihl ihr | mul l r ihl ihr | div l r ihl ihr | pow l r ihl ihr =>
    rw [containsVar, Bool.or_eq_false_iff] at h
    rw [substitute, ihl h.1, ihr h.2]
  | neg i ih | abs i ih | sqrt i ih | sin i ih | cos i ih | exp i ih | ln i ih =>
    rw [substitute, ih h]

theorem collectVars_substitute (e : SesExpr F) : collectVars (substitute e var replacement) =
      if var ∈ collectVars e then (collectVars e).erase var ∪ collectVars replacement
      else collectVars e := by
  have hboth : ∀ {s t s' t' : Finset String} {u : Finset String},
      s' = (if var ∈ s then s.erase var ∪ u else s) →
      t' = (if var ∈ t then t.erase var ∪ u else t) →
      s' ∪ t' = if var ∈ s ∪ t then (s ∪ t).erase var ∪ u else s ∪ t := by
    intro s t s' t' u hs ht
    ext name
    by_cases hvs : var ∈ s <;> by_cases hvt : var ∈ t <;>
      simp only [hs, ht, hvs, hvt, if_true, if_false, Finset.mem_union, Finset.mem_erase,
        true_or, or_true, or_self]
    · tauto
    · have hne : name ∈ t → name ≠ var := fun h heq => hvt (heq ▸ h)
      tauto
    · have hne : name ∈ s → name ≠ var := fun h heq => hvs (heq ▸ h)
      tauto
  induction e with
  | num v => simp [substitute, collectVars]
  | var name =>
    by_cases h : name = var
    · subst h
      simp [substitute, collectVars]
    · simp [substitute, collectVars, h, Ne.symm h]
  | add l r ihl ihr | sub l r ihl ihr | mul l r ihl ihr | div l r ihl ihr | pow l r ihl ihr =>
    exact hboth ihl ihr
  | neg i ih | abs i ih | sqrt i ih | sin i ih | cos i ih | exp i ih | ln i ih => exact ih

/-- Two substitutions change places. -/
theorem substitute_substitute {var' : String} {replacement' : SesExpr F} (hne : var ≠ var')
    (hfree : containsVar var replacement' = false) (e : SesExpr F) :
    substitute (substitute e var replacement) var' replacement' =
      substitute (substitute e var' replacement') var
        (substitute replacement var' replacement') := by
  induction e with
  | num v => rfl
  | var name =>
    by_cases h : name = var
    · subst h
      simp [substitute, hne]
    · by_cases h' : name = var'
      · subst h'
        simp [substitute, h, substitute_of_not_contains hfree]
      · simp [substitute, h, h']
  | add l r ihl ihr | sub l r ihl ihr | mul l r ihl ihr | div l r ihl ihr | pow l r ihl ihr =>
    simp only [substitute, ihl, ihr]
  | neg i ih | abs i ih | sqrt i ih | sin i ih | cos i ih | exp i ih | ln i ih =>
    simp only [substitute, ih]

section Evaluate

variable [Field F] [LinearOrder F] {fn : Elementary F} {vars : String → Option F}

theorem evaluate_substitute_ok {w : F} (h : evaluateInner fn vars replacement = .ok w)
    (e : SesExpr F) : evaluateInner fn vars (substitute e var replacement) =
      evaluateInner fn (Function.update vars var (some w)) e := by
  induction e with
  | num v => rfl
  | var name =>
    by_cases hname : name = var
    · subst hname
      simp [substitute, evaluateInner, h]
    · simp [substitute, evaluateInner, hname]
  | add l r ihl ihr | sub l r ihl ihr | mul l r ihl ihr | div l r ihl ihr | pow l r ihl ihr =>
    simp only [substitute, evaluateInner, ihl, ihr]
  | neg i ih | abs i ih | sqrt i ih | sin i ih | cos i ih | exp i ih | ln i ih =>
    simp only [substitute, evaluateInner, ih]

/-- Every part is evaluated, so an expression has no value where a part has none. -/
theorem evaluate_substitute_error {err : SesError}
    (h : evaluateInner fn vars replacement = .error err) {e : SesExpr F}
    (hvar : containsVar var e) (v : F) :
    evaluateInner fn vars (substitute e var replacement) ≠ .ok v := by
  induction e generalizing v with
  | num => simp [containsVar] at hvar
  | var name =>
    obtain rfl : name = var := by simpa [containsVar] using hvar
    simp [substitute, h]
  | add l r ihl ihr | sub l r ihl ihr | mul l r ihl ihr | pow l r ihl ihr =>
    intro hv
    obtain ⟨x, y, hx, hy, -⟩ := both_eq_ok.mp hv
    exact (Bool.or_eq_true _ _ ▸ hvar).elim (fun hl => ihl hl x hx) fun hr => ihr hr y hy
  | div l r ihl ihr =>
    intro hv
    obtain ⟨x, y, hx, hy, -⟩ := evaluate_div.mp hv
    exact (Bool.or_eq_true _ _ ▸ hvar).elim (fun hl => ihl hl x hx) fun hr => ihr hr y hy
  | neg i ih | abs i ih | sin i ih | cos i ih | exp i ih =>
    exact fun hv => (one_eq_ok.mp hv).elim fun x hx => ih hvar x hx.1
  | sqrt i ih => exact fun hv => (evaluate_sqrt.mp hv).elim fun x hx => ih hvar x hx.1
  | ln i ih => exact fun hv => (evaluate_ln.mp hv).elim fun x hx => ih hvar x hx.1

end Evaluate

/--
The value after a substitution, whether or not the replacement has one, the variables that are
left, and the order of two substitutions.
-/
theorem substitute_correct [Field F] [LinearOrder F] (fn : Elementary F)
    (vars : String → Option F) (e : SesExpr F) (var : String) (replacement : SesExpr F) :
    (∀ v, evaluateInner fn vars (substitute e var replacement) = .ok v ↔
      if containsVar var e then ∃ w, evaluateInner fn vars replacement = .ok w ∧
        evaluateInner fn (Function.update vars var (some w)) e = .ok v
      else evaluateInner fn vars e = .ok v) ∧ collectVars (substitute e var replacement) =
        (if var ∈ collectVars e then (collectVars e).erase var ∪ collectVars replacement
        else collectVars e)
    ∧ ∀ var' replacement', var ≠ var' → containsVar var replacement' = false →
        substitute (substitute e var replacement) var' replacement' =
          substitute (substitute e var' replacement') var
            (substitute replacement var' replacement') := by
  refine ⟨fun v => ?_, collectVars_substitute e, fun var' replacement' hne hfree =>
    substitute_substitute hne hfree e⟩
  by_cases hvar : containsVar var e
  · rw [if_pos hvar]
    cases hr : evaluateInner fn vars replacement with
    | error err => simp [evaluate_substitute_error hr hvar v]
    | ok w => simp [evaluate_substitute_ok hr]
  · rw [if_neg hvar, substitute_of_not_contains (Bool.not_eq_true _ ▸ hvar)]

end Substitute

/-! ## Derivatives -/

section Diff

variable {F : Type} [Field F]

/-- `differentiate`, which also counts its calls. -/
def diff (var : String) : SesExpr F → SesExpr F
  | .num _ => .num 0
  | .var name => if name = var then .num 1 else .num 0
  | .add l r => .add (diff var l) (diff var r)
  | .sub l r => .sub (diff var l) (diff var r)
  | .mul l r => .add (.mul (diff var l) r) (.mul l (diff var r))
  | .div l r =>
    .div (.sub (.mul (diff var l) r) (.mul l (diff var r))) (.pow r (.num 2))
  | .pow base exp =>
    match containsVar var base, containsVar var exp with
    | false, false => .num 0
    | true, false => .mul (.mul exp (.pow base (.sub exp (.num 1)))) (diff var base)
    | false, true => .mul (.mul (.pow base exp) (.ln base)) (diff var exp)
    | true, true =>
      .mul (.pow base exp)
        (.add (.mul (diff var exp) (.ln base)) (.mul exp (.div (diff var base) base)))
  | .neg inner => .neg (diff var inner)
  | .abs inner => .div (.mul inner (diff var inner)) (.abs inner)
  | .sqrt inner => .div (diff var inner) (.mul (.num 2) (.sqrt inner))
  | .sin inner => .mul (.cos inner) (diff var inner)
  | .cos inner => .neg (.mul (.sin inner) (diff var inner))
  | .exp inner => .mul (.exp inner) (diff var inner)
  | .ln inner => .div (diff var inner) inner

end Diff

/-! ## The slope of an expression -/

/-- Where the exponent does not vary, `t ^ y` is a power of real numbers around `t = x`. -/
def PowAt (x y : ℝ) : Prop := 0 < x ∨ ∃ k : ℤ, y = k ∧ (x ≠ 0 ∨ 1 ≤ k)

section Slope

variable {powf : ℝ → ℝ → ℝ} {vars : String → Option ℝ} {var : String} {a : ℝ}

/-- With the variable at `t`. -/
noncomputable def valueAt (powf : ℝ → ℝ → ℝ) (vars : String → Option ℝ) (var : String) (t : ℝ)
    (e : SesExpr ℝ) : Except SesError ℝ :=
  evaluateInner (realFunctions powf) (Function.update vars var (some t)) e

/-- Around `a` the expression has a value, `v` at `a`, with the derivative `d` there. -/
def Slope (powf : ℝ → ℝ → ℝ) (vars : String → Option ℝ) (var : String) (a : ℝ) (e : SesExpr ℝ)
    (v d : ℝ) : Prop :=
  ∃ f : ℝ → ℝ, f a = v ∧ (∀ᶠ t in 𝓝 a, valueAt powf vars var t e = .ok (f t))
    ∧ HasDerivAt f d a

/-- The powers in the expression that are differentiated with a fixed exponent. -/
def PowersAt (powf : ℝ → ℝ → ℝ) (vars : String → Option ℝ) (var : String) (a : ℝ) :
    SesExpr ℝ → Prop
  | .num _ | .var _ => True
  | .add l r | .sub l r | .mul l r | .div l r =>
    PowersAt powf vars var a l ∧ PowersAt powf vars var a r
  | .pow b e => PowersAt powf vars var a b ∧ PowersAt powf vars var a e ∧
      (containsVar var b → containsVar var e = false → ∀ x y, valueAt powf vars var a b = .ok x →
        valueAt powf vars var a e = .ok y → PowAt x y)
  | .neg i | .abs i | .sqrt i | .sin i | .cos i | .exp i | .ln i => PowersAt powf vars var a i

/-- An expression without the variable is flat. -/
theorem Slope.const {e : SesExpr ℝ} {v : ℝ} (hvar : containsVar var e = false)
    (h : valueAt powf vars var a e = .ok v) : Slope powf vars var a e v 0 := by
  refine ⟨fun _ => v, rfl, Eventually.of_forall fun t => ?_, hasDerivAt_const a v⟩
  rw [← h]
  simp only [valueAt, evaluate_update hvar]

/-- A function of the value of one part. -/
theorem Slope.map {e i : SesExpr ℝ} {v d g' : ℝ} {g : ℝ → ℝ} (h : Slope powf vars var a i v d)
    (hg : HasDerivAt g g' v) (hvalue : ∀ᶠ x in 𝓝 v, ∀ t, valueAt powf vars var t i = .ok x →
      valueAt powf vars var t e = .ok (g x)) : Slope powf vars var a e (g v) (g' * d) := by
  obtain ⟨f, rfl, hf, hderiv⟩ := h
  refine ⟨g ∘ f, rfl, ?_, HasDerivAt.comp a hg hderiv⟩
  filter_upwards [hf, hderiv.continuousAt.eventually hvalue] with t ht hgt
  exact hgt t ht

/-- A function of the values of two parts. -/
theorem Slope.map₂ {e l r : SesExpr ℝ} {v w d d' g' : ℝ} {g : ℝ → ℝ → ℝ}
    (hl : Slope powf vars var a l v d) (hr : Slope powf vars var a r w d')
    (hg : ∀ f f' : ℝ → ℝ, f a = v → f' a = w → HasDerivAt f d a → HasDerivAt f' d' a →
      HasDerivAt (fun t => g (f t) (f' t)) g' a)
    (hvalue : ∀ᶠ p in 𝓝 (v, w), ∀ t, valueAt powf vars var t l = .ok p.1 →
      valueAt powf vars var t r = .ok p.2 → valueAt powf vars var t e = .ok (g p.1 p.2)) :
    Slope powf vars var a e (g v w) g' := by
  obtain ⟨f, rfl, hf, hderiv⟩ := hl
  obtain ⟨f', rfl, hf', hderiv'⟩ := hr
  refine ⟨fun t => g (f t) (f' t), rfl, ?_, hg f f' rfl rfl hderiv hderiv'⟩
  filter_upwards [hf, hf',
    (hderiv.continuousAt.prodMk hderiv'.continuousAt).eventually hvalue] with t ht ht' hgt
  exact hgt t ht ht'

/-- The derivative of a power with a fixed exponent. -/
theorem RealPow.hasDerivAt (hpow : RealPow powf) {x y : ℝ} (h : PowAt x y) :
    HasDerivAt (fun t => powf t y) (y * powf x (y - 1)) x := by
  rcases h with hx | ⟨k, rfl, hk⟩
  · have hderiv := Real.hasDerivAt_rpow_const (x := x) (p := y) (.inl hx.ne')
    rw [hpow.pos x _ hx]
    refine hderiv.congr_of_eventuallyEq ?_
    filter_upwards [lt_mem_nhds hx] with t ht
    exact hpow.pos t y ht
  · rcases lt_trichotomy x 0 with hx | rfl | hx
    · have hderiv := hasDerivAt_zpow k x (.inl hx.ne)
      have hpred : powf x (k - 1) = x ^ (k - 1) := by
        rw [← hpow.neg x (k - 1) hx, Int.cast_sub, Int.cast_one]
      rw [hpred]
      refine hderiv.congr_of_eventuallyEq ?_
      filter_upwards [gt_mem_nhds hx] with t ht
      exact hpow.neg t k ht
    · obtain ⟨n, rfl⟩ : ∃ n : ℕ, k = n + 1 :=
        ⟨(k - 1).toNat, by have := hk.resolve_left (by simp); omega⟩
      have hpred : powf 0 (((n + 1 : ℤ) : ℝ) - 1) = 0 ^ n := by
        rw [← hpow.natCast 0 n]
        push_cast
        ring_nf
      have hderiv := hasDerivAt_pow (n + 1) (0 : ℝ)
      rw [hpred]
      have hfun : (fun t => powf t ((n + 1 : ℤ) : ℝ)) = fun t => t ^ (n + 1) := by
        funext t
        rw [← hpow.natCast t (n + 1)]
        push_cast
        rfl
      rw [hfun]
      simpa using hderiv
    · have hderiv := Real.hasDerivAt_rpow_const (x := x) (p := (k : ℝ)) (.inl hx.ne')
      rw [hpow.pos x _ hx]
      refine hderiv.congr_of_eventuallyEq ?_
      filter_upwards [lt_mem_nhds hx] with t ht
      exact hpow.pos t k ht

/-- Around a positive base every power is a power of real numbers. -/
theorem RealPow.hasDerivAt_rpow (hpow : RealPow powf) {f g : ℝ → ℝ} {d d' : ℝ}
    (hf : HasDerivAt f d a) (hg : HasDerivAt g d' a) (hpos : 0 < f a) :
    HasDerivAt (fun t => powf (f t) (g t))
      (powf (f a) (g a) * (d' * Real.log (f a) + g a * (d / f a))) a := by
  have hderiv := hf.rpow hg hpos
  have hvalue : d * g a * f a ^ (g a - 1) + d' * f a ^ g a * Real.log (f a)
      = powf (f a) (g a) * (d' * Real.log (f a) + g a * (d / f a)) := by
    rw [hpow.pos _ _ hpos, Real.rpow_sub_one hpos.ne']
    ring
  rw [hvalue] at hderiv
  refine hderiv.congr_of_eventuallyEq ?_
  filter_upwards [hf.continuousAt.eventually (lt_mem_nhds hpos)] with t ht
  exact hpow.pos _ _ ht

theorem slope_pow (hpow : RealPow powf) {b e : SesExpr ℝ} {v d : ℝ}
    (ihb : ∀ {v d}, valueAt powf vars var a b = .ok v →
      valueAt powf vars var a (diff var b) = .ok d → Slope powf vars var a b v d)
    (ihe : ∀ {v d}, valueAt powf vars var a e = .ok v →
      valueAt powf vars var a (diff var e) = .ok d → Slope powf vars var a e v d)
    (hfixed : containsVar var b → containsVar var e = false → ∀ x y,
      valueAt powf vars var a b = .ok x → valueAt powf vars var a e = .ok y → PowAt x y)
    (hv : valueAt powf vars var a (.pow b e) = .ok v)
    (hd : valueAt powf vars var a (diff var (.pow b e)) = .ok d) :
    Slope powf vars var a (.pow b e) v d := by
  obtain ⟨x, y, hx, hy, rfl⟩ := evaluate_pow.mp hv
  cases hb : containsVar var b <;> cases he : containsVar var e <;>
    simp only [diff, hb, he] at hd
  case false.false =>
    cases hd
    exact Slope.const (by simp [containsVar, hb, he]) hv
  case true.false =>
    obtain ⟨p, db, hp, hdb, rfl⟩ := evaluate_mul.mp hd
    obtain ⟨y', q, hy', hq, rfl⟩ := evaluate_mul.mp hp
    obtain ⟨x', m, hx', hm, rfl⟩ := evaluate_pow.mp hq
    obtain ⟨y'', one, hy'', hone, rfl⟩ := evaluate_sub.mp hm
    cases hone
    cases hy.symm.trans hy'
    cases hy.symm.trans hy''
    cases hx.symm.trans hx'
    refine (ihb hx hdb).map (hpow.hasDerivAt (hfixed hb he x y hx hy))
      (Eventually.of_forall fun z t hz => ?_)
    refine evaluate_pow.mpr ⟨z, y, hz, ?_, rfl⟩
    rw [evaluate_update he]
    exact (evaluate_update he _).symm.trans hy
  case false.true =>
    obtain ⟨p, de, hp, hde, rfl⟩ := evaluate_mul.mp hd
    obtain ⟨q, log, hq, hlog, rfl⟩ := evaluate_mul.mp hp
    obtain ⟨x', y', hx', hy', rfl⟩ := evaluate_pow.mp hq
    obtain ⟨x'', hx'', hpos, rfl⟩ := evaluate_ln.mp hlog
    cases hy.symm.trans hy'
    cases hx.symm.trans hx'
    cases hx.symm.trans hx''
    have hderiv : HasDerivAt (fun z => powf x z) (powf x y * Real.log x) y := by
      have hfun : (fun z => powf x z) = fun z => x ^ z := funext fun z => hpow.pos x z hpos
      rw [hfun, hpow.pos x y hpos]
      exact (Real.hasStrictDerivAt_const_rpow hpos y).hasDerivAt
    refine (ihe hy hde).map hderiv (Eventually.of_forall fun z t hz => ?_)
    refine evaluate_pow.mpr ⟨x, z, ?_, hz, rfl⟩
    rw [evaluate_update hb]
    exact (evaluate_update hb _).symm.trans hx
  case true.true =>
    obtain ⟨p, s, hp, hs, rfl⟩ := evaluate_mul.mp hd
    obtain ⟨x', y', hx', hy', rfl⟩ := evaluate_pow.mp hp
    obtain ⟨s₁, s₂, hs₁, hs₂, rfl⟩ := evaluate_add.mp hs
    obtain ⟨de, log, hde, hlog, rfl⟩ := evaluate_mul.mp hs₁
    obtain ⟨x₁, hx₁, hpos, rfl⟩ := evaluate_ln.mp hlog
    obtain ⟨y₁, q, hy₁, hq, rfl⟩ := evaluate_mul.mp hs₂
    obtain ⟨db, x₂, hdb, hx₂, -, rfl⟩ := evaluate_div.mp hq
    cases hy.symm.trans hy'
    cases hy.symm.trans hy₁
    cases hx.symm.trans hx'
    cases hx.symm.trans hx₁
    cases hx.symm.trans hx₂
    refine (ihb hx hdb).map₂ (ihe hy hde) (g := powf) (fun f g hfa hga hf hg => ?_)
      (Eventually.of_forall fun p t hz hw => evaluate_pow.mpr ⟨_, _, hz, hw, rfl⟩)
    subst hfa hga
    exact hpow.hasDerivAt_rpow hf hg hpos

theorem slope_of_diff (hpow : RealPow powf) {e : SesExpr ℝ} {v d : ℝ}
    (hp : PowersAt powf vars var a e) (hv : valueAt powf vars var a e = .ok v)
    (hd : valueAt powf vars var a (diff var e) = .ok d) : Slope powf vars var a e v d := by
  induction e generalizing v d with
  | num x =>
    cases hd
    exact Slope.const rfl hv
  | var name =>
    by_cases hname : name = var
    · subst hname
      obtain rfl : a = v := by simpa [valueAt, evaluateInner] using hv
      obtain rfl : 1 = d := by simpa [valueAt, diff, evaluateInner] using hd
      exact ⟨id, rfl, Eventually.of_forall fun t => by simp [valueAt, evaluateInner],
        hasDerivAt_id a⟩
    · obtain rfl : 0 = d := by simpa [valueAt, diff, hname, evaluateInner] using hd
      exact Slope.const (by simpa [containsVar] using hname) hv
  | add l r ihl ihr =>
    obtain ⟨x, y, hx, hy, rfl⟩ := evaluate_add.mp hv
    obtain ⟨dx, dy, hdx, hdy, rfl⟩ := evaluate_add.mp hd
    exact (ihl hp.1 hx hdx).map₂ (ihr hp.2 hy hdy) (g := fun p q => p + q)
      (fun f g _ _ hf hg => hf.add hg)
      (Eventually.of_forall fun p t hz hw => evaluate_add.mpr ⟨_, _, hz, hw, rfl⟩)
  | sub l r ihl ihr =>
    obtain ⟨x, y, hx, hy, rfl⟩ := evaluate_sub.mp hv
    obtain ⟨dx, dy, hdx, hdy, rfl⟩ := evaluate_sub.mp hd
    exact (ihl hp.1 hx hdx).map₂ (ihr hp.2 hy hdy) (g := fun p q => p - q)
      (fun f g _ _ hf hg => hf.sub hg)
      (Eventually.of_forall fun p t hz hw => evaluate_sub.mpr ⟨_, _, hz, hw, rfl⟩)
  | mul l r ihl ihr =>
    obtain ⟨x, y, hx, hy, rfl⟩ := evaluate_mul.mp hv
    obtain ⟨p, q, hp', hq, rfl⟩ := evaluate_add.mp hd
    obtain ⟨dx, y', hdx, hy', rfl⟩ := evaluate_mul.mp hp'
    obtain ⟨x', dy, hx', hdy, rfl⟩ := evaluate_mul.mp hq
    cases hx.symm.trans hx'
    cases hy.symm.trans hy'
    refine (ihl hp.1 hx hdx).map₂ (ihr hp.2 hy hdy) (g := fun p q => p * q)
      (fun f g hfa hga hf hg => ?_)
      (Eventually.of_forall fun p t hz hw => evaluate_mul.mpr ⟨_, _, hz, hw, rfl⟩)
    subst hfa hga
    exact hf.mul hg
  | div l r ihl ihr =>
    obtain ⟨x, y, hx, hy, hne, rfl⟩ := evaluate_div.mp hv
    obtain ⟨num, denom, hnum, hdenom, -, rfl⟩ := evaluate_div.mp hd
    obtain ⟨p, q, hp', hq, rfl⟩ := evaluate_sub.mp hnum
    obtain ⟨dx, y', hdx, hy', rfl⟩ := evaluate_mul.mp hp'
    obtain ⟨x', dy, hx', hdy, rfl⟩ := evaluate_mul.mp hq
    obtain ⟨y'', two, hy'', htwo, rfl⟩ := evaluate_pow.mp hdenom
    cases htwo
    cases hx.symm.trans hx'
    cases hy.symm.trans hy'
    cases hy.symm.trans hy''
    have hsq : (realFunctions powf).powf y 2 = y ^ 2 := hpow.natCast y 2
    rw [hsq]
    refine (ihl hp.1 hx hdx).map₂ (ihr hp.2 hy hdy) (g := fun p q => p / q)
      (fun f g hfa hga hf hg => ?_) ?_
    · subst hfa hga
      exact hf.div hg hne
    · filter_upwards [continuousAt_snd.eventually_ne hne] with p hpne t hz hw
      exact evaluate_div.mpr ⟨_, _, hz, hw, hpne, rfl⟩
  | pow b e ihb ihe =>
    exact slope_pow hpow (ihb hp.1) (ihe hp.2.1) hp.2.2 hv hd
  | neg i ih =>
    obtain ⟨x, hx, rfl⟩ := evaluate_neg.mp hv
    obtain ⟨dx, hdx, rfl⟩ := evaluate_neg.mp hd
    rw [← neg_one_mul dx]
    exact (ih hp hx hdx).map (hasDerivAt_neg x)
      (Eventually.of_forall fun z t hz => evaluate_neg.mpr ⟨z, hz, rfl⟩)
  | abs i ih =>
    obtain ⟨x, hx, rfl⟩ := evaluate_abs.mp hv
    obtain ⟨p, q, hp', hq, hne, rfl⟩ := evaluate_div.mp hd
    obtain ⟨x', dx, hx', hdx, rfl⟩ := evaluate_mul.mp hp'
    obtain ⟨x'', hx'', rfl⟩ := evaluate_abs.mp hq
    cases hx.symm.trans hx'
    cases hx.symm.trans hx''
    have hx0 : x ≠ 0 := abs_ne_zero.mp hne
    have hsign : x * dx / |x| = SignType.sign x * dx := by
      rw [div_eq_iff hne]
      calc x * dx = SignType.sign x * |x| * dx := by rw [sign_mul_abs]
        _ = SignType.sign x * dx * |x| := by ring
    rw [hsign]
    exact (ih hp hx hdx).map (hasDerivAt_abs hx0)
      (Eventually.of_forall fun z t hz => evaluate_abs.mpr ⟨z, hz, rfl⟩)
  | sqrt i ih =>
    obtain ⟨x, hx, hnonneg, rfl⟩ := evaluate_sqrt.mp hv
    obtain ⟨dx, q, hdx, hq, hne, rfl⟩ := evaluate_div.mp hd
    obtain ⟨two, s, htwo, hs, rfl⟩ := evaluate_mul.mp hq
    obtain ⟨x', hx', -, rfl⟩ := evaluate_sqrt.mp hs
    cases htwo
    cases hx.symm.trans hx'
    have hpos : 0 < x := by
      refine hnonneg.lt_of_ne ?_
      rintro rfl
      exact hne (by simp [realFunctions])
    rw [← one_div_mul_eq_div]
    refine (ih hp hx hdx).map (g := Real.sqrt) (Real.hasDerivAt_sqrt hpos.ne') ?_
    filter_upwards [lt_mem_nhds hpos] with z hz t ht
    exact evaluate_sqrt.mpr ⟨z, ht, hz.le, rfl⟩
  | sin i ih =>
    obtain ⟨x, hx, rfl⟩ := evaluate_sin.mp hv
    obtain ⟨c, dx, hc, hdx, rfl⟩ := evaluate_mul.mp hd
    obtain ⟨x', hx', rfl⟩ := evaluate_cos.mp hc
    cases hx.symm.trans hx'
    exact (ih hp hx hdx).map (g := Real.sin) (Real.hasDerivAt_sin x)
      (Eventually.of_forall fun z t hz => evaluate_sin.mpr ⟨z, hz, rfl⟩)
  | cos i ih =>
    obtain ⟨x, hx, rfl⟩ := evaluate_cos.mp hv
    obtain ⟨p, hp', rfl⟩ := evaluate_neg.mp hd
    obtain ⟨s, dx, hs, hdx, rfl⟩ := evaluate_mul.mp hp'
    obtain ⟨x', hx', rfl⟩ := evaluate_sin.mp hs
    cases hx.symm.trans hx'
    rw [← neg_mul]
    exact (ih hp hx hdx).map (g := Real.cos) (Real.hasDerivAt_cos x)
      (Eventually.of_forall fun z t hz => evaluate_cos.mpr ⟨z, hz, rfl⟩)
  | exp i ih =>
    obtain ⟨x, hx, rfl⟩ := evaluate_exp.mp hv
    obtain ⟨c, dx, hc, hdx, rfl⟩ := evaluate_mul.mp hd
    obtain ⟨x', hx', rfl⟩ := evaluate_exp.mp hc
    cases hx.symm.trans hx'
    exact (ih hp hx hdx).map (g := Real.exp) (Real.hasDerivAt_exp x)
      (Eventually.of_forall fun z t hz => evaluate_exp.mpr ⟨z, hz, rfl⟩)
  | ln i ih =>
    obtain ⟨x, hx, hpos, rfl⟩ := evaluate_ln.mp hv
    obtain ⟨dx, x', hdx, hx', -, rfl⟩ := evaluate_div.mp hd
    cases hx.symm.trans hx'
    rw [div_eq_inv_mul]
    refine (ih hp hx hdx).map (g := Real.log) (Real.hasDerivAt_log hpos.ne') ?_
    filter_upwards [lt_mem_nhds hpos] with z hz t ht
    exact evaluate_ln.mpr ⟨z, ht, hz, rfl⟩

end Slope

/--
Where an expression and what `differentiate` makes of it both have a value, and the powers with
a fixed exponent are powers of real numbers, the second value is the derivative of the first.
-/
theorem diff_correct {powf : ℝ → ℝ → ℝ} (hpow : RealPow powf) {vars : String → Option ℝ}
    {var : String} {a v d : ℝ} {e : SesExpr ℝ}
    (hv : evaluateInner (realFunctions powf) (Function.update vars var (some a)) e = .ok v)
    (hd : evaluateInner (realFunctions powf) (Function.update vars var (some a)) (diff var e)
      = .ok d) (hpowers : PowersAt powf vars var a e) :
    ∃ f : ℝ → ℝ, f a = v ∧ HasDerivAt f d a ∧ ∀ᶠ t in 𝓝 a,
      evaluateInner (realFunctions powf) (Function.update vars var (some t)) e = .ok (f t) := by
  obtain ⟨f, hfa, hf, hderiv⟩ := slope_of_diff hpow hpowers hv hd
  exact ⟨f, hfa, hderiv, hf⟩

/-- `(-x) ^ 2` at 3. -/
theorem diff_correct_square :
    ∃ f : ℝ → ℝ, f 3 = 9 ∧ HasDerivAt f 6 3 ∧ ∀ᶠ t in 𝓝 (3 : ℝ),
      evaluateInner (realFunctions fun x y => x ^ y) (Function.update (fun _ => none) "x" (some t))
        (.pow (.neg (.var "x")) (.num 2)) = .ok (f t) := by
  refine diff_correct (v := 9) (d := 6) realPow_rpow ?_ ?_ ?_
  · norm_num [evaluateInner, realFunctions, bind, Except.bind, pure, Except.pure]
  · norm_num [diff, containsVar, evaluateInner, realFunctions, bind, Except.bind, pure,
      Except.pure]
  · refine ⟨trivial, trivial, fun _ _ x y hx hy => .inr ⟨2, ?_, .inr (by decide)⟩⟩
    cases hy
    norm_num

end Ipfrs.TensorLogic.Symbolic
