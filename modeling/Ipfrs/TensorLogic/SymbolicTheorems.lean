/-
Ipfrs.TensorLogic.SymbolicTheorems — what the simplifier keeps of the value.

Every built-in rule but one is an identity wherever its left side has a value (`Sound`):
that uses a few laws of the functions (`Elementary.Lawful`), which the real functions have.
The exception rewrites `sin(x)^2 + cos(y)^2` to 1 whatever `x` and `y` are. So a value is
kept as long as the sums that it rewrites are 1 (`evaluate_simplify`).
-/
import Ipfrs.TensorLogic.Symbolic
import Mathlib

namespace Ipfrs.TensorLogic.Symbolic

theorem one_eq_ok {ε α β : Type} {x : Except ε α} {f : α → β} {v : β} :
    (do return f (← x)) = Except.ok v ↔ ∃ a, x = .ok a ∧ v = f a := by
  cases x <;> simp [bind, Except.bind, pure, Except.pure, eq_comm]

theorem both_eq_ok {ε α β γ : Type} {x : Except ε α} {y : Except ε β} {f : α → β → γ} {v : γ} :
    (do return f (← x) (← y)) = Except.ok v
      ↔ ∃ a b, x = .ok a ∧ y = .ok b ∧ v = f a b := by
  cases x <;> cases y <;> simp [bind, Except.bind, pure, Except.pure, eq_comm]

section Values

variable {F : Type} [Field F] [LinearOrder F] {fn : Elementary F} {vars : String → Option F}
  {e l r b : SesExpr F} {v : F}

theorem evaluate_add : evaluateInner fn vars (.add l r) = .ok v ↔ ∃ x y,
    evaluateInner fn vars l = .ok x ∧ evaluateInner fn vars r = .ok y ∧ v = x + y := both_eq_ok

theorem evaluate_sub : evaluateInner fn vars (.sub l r) = .ok v ↔ ∃ x y,
    evaluateInner fn vars l = .ok x ∧ evaluateInner fn vars r = .ok y ∧ v = x - y := both_eq_ok

theorem evaluate_mul : evaluateInner fn vars (.mul l r) = .ok v ↔ ∃ x y,
    evaluateInner fn vars l = .ok x ∧ evaluateInner fn vars r = .ok y ∧ v = x * y := both_eq_ok

theorem evaluate_div : evaluateInner fn vars (.div l r) = .ok v ↔ ∃ x y,
    evaluateInner fn vars l = .ok x ∧ evaluateInner fn vars r = .ok y ∧ y ≠ 0 ∧ v = x / y := by
  rw [evaluateInner]
  cases evaluateInner fn vars l <;> cases evaluateInner fn vars r
  case ok.ok x y =>
    by_cases hy : y = 0 <;> simp [bind, Except.bind, pure, Except.pure, hy, eq_comm]
  case error.ok x y =>
    by_cases hy : y = 0 <;> simp [bind, Except.bind, hy]
  all_goals simp [bind, Except.bind]

theorem evaluate_pow : evaluateInner fn vars (.pow l r) = .ok v ↔ ∃ x y,
    evaluateInner fn vars l = .ok x ∧ evaluateInner fn vars r = .ok y ∧ v = fn.powf x y :=
  both_eq_ok

theorem evaluate_neg : evaluateInner fn vars (.neg e) = .ok v ↔ ∃ x,
    evaluateInner fn vars e = .ok x ∧ v = -x := one_eq_ok

theorem evaluate_abs : evaluateInner fn vars (.abs e) = .ok v ↔ ∃ x,
    evaluateInner fn vars e = .ok x ∧ v = |x| := one_eq_ok

theorem evaluate_sqrt : evaluateInner fn vars (.sqrt e) = .ok v ↔ ∃ x,
    evaluateInner fn vars e = .ok x ∧ 0 ≤ x ∧ v = fn.sqrt x := by
  rw [evaluateInner]
  cases evaluateInner fn vars e with
  | error e => simp [bind, Except.bind]
  | ok x =>
    by_cases hx : x < 0
    · simp [bind, Except.bind, hx, not_le.mpr hx]
    · simp [bind, Except.bind, pure, Except.pure, hx, not_lt.mp hx, eq_comm]

theorem evaluate_sin : evaluateInner fn vars (.sin e) = .ok v ↔ ∃ x,
    evaluateInner fn vars e = .ok x ∧ v = fn.sin x := one_eq_ok

theorem evaluate_cos : evaluateInner fn vars (.cos e) = .ok v ↔ ∃ x,
    evaluateInner fn vars e = .ok x ∧ v = fn.cos x := one_eq_ok

theorem evaluate_exp : evaluateInner fn vars (.exp e) = .ok v ↔ ∃ x,
    evaluateInner fn vars e = .ok x ∧ v = fn.exp x := one_eq_ok

theorem evaluate_ln : evaluateInner fn vars (.ln e) = .ok v ↔ ∃ x,
    evaluateInner fn vars e = .ok x ∧ 0 < x ∧ v = fn.ln x := by
  rw [evaluateInner]
  cases evaluateInner fn vars e with
  | error e => simp [bind, Except.bind]
  | ok x =>
    by_cases hx : x ≤ 0
    · simp [bind, Except.bind, hx, not_lt.mpr hx]
    · simp [bind, Except.bind, pure, Except.pure, hx, not_le.mp hx, eq_comm]

theorem isZero_iff : isZero e ↔ e = .num 0 := by
  cases e <;> simp [isZero]

theorem isOne_iff : isOne e ↔ e = .num 1 := by
  cases e <;> simp [isOne]

theorem isTwo_iff : isTwo e ↔ e = .num 2 := by
  cases e <;> simp [isTwo]

end Values

/-! ## The rules -/

/-- The laws of the functions that the rules rest on. -/
structure Elementary.Lawful {F : Type} [Field F] [LinearOrder F] (fn : Elementary F) : Prop where
  powf_zero : ∀ x, fn.powf x 0 = 1
  powf_one : ∀ x, fn.powf x 1 = x
  one_powf : ∀ x, fn.powf 1 x = 1
  powf_two : ∀ x, fn.powf x 2 = x * x
  sqrt_mul_self : ∀ x, fn.sqrt (x * x) = |x|
  exp_zero : fn.exp 0 = 1
  exp_ln : ∀ x, 0 < x → fn.exp (fn.ln x) = x
  ln_exp : ∀ x, fn.ln (fn.exp x) = x

section Sound

variable {F : Type} [Field F] [LinearOrder F] (fn : Elementary F)

/-- Where the left side has a value, so has the right side, and it is the same. -/
def Keeps (vars : String → Option F) (e e' : SesExpr F) : Prop :=
  ∀ v, evaluateInner fn vars e = .ok v → evaluateInner fn vars e' = .ok v

/-- The rule is an identity wherever its left side has a value. -/
def SesRewriteRule.Sound (rule : SesRewriteRule F) : Prop :=
  ∀ vars e, rule.applies e → Keeps fn vars e (rule.transform e)

theorem addZeroRight_sound : addZeroRight.Sound fn
  | _, .add l r, happlies, v, h => by
    obtain rfl := isZero_iff.mp happlies
    obtain ⟨x, y, hx, hy, rfl⟩ := evaluate_add.mp h
    cases hy
    simpa [addZeroRight, isZero] using hx

theorem addZeroLeft_sound : addZeroLeft.Sound fn
  | _, .add l r, happlies, v, h => by
    obtain rfl := isZero_iff.mp happlies
    obtain ⟨x, y, hx, hy, rfl⟩ := evaluate_add.mp h
    cases hx
    simpa [addZeroLeft, isZero] using hy

theorem subZero_sound : subZero.Sound fn
  | _, .sub l r, happlies, v, h => by
    obtain rfl := isZero_iff.mp happlies
    obtain ⟨x, y, hx, hy, rfl⟩ := evaluate_sub.mp h
    cases hy
    simpa [subZero, isZero] using hx

theorem zeroSub_sound : zeroSub.Sound fn
  | _, .sub l r, happlies, v, h => by
    obtain rfl := isZero_iff.mp happlies
    obtain ⟨x, y, hx, hy, rfl⟩ := evaluate_sub.mp h
    cases hx
    simp [zeroSub, isZero, evaluate_neg, hy]

theorem mulOneRight_sound : mulOneRight.Sound fn
  | _, .mul l r, happlies, v, h => by
    obtain rfl := isOne_iff.mp happlies
    obtain ⟨x, y, hx, hy, rfl⟩ := evaluate_mul.mp h
    cases hy
    simpa [mulOneRight, isOne] using hx

theorem mulOneLeft_sound : mulOneLeft.Sound fn
  | _, .mul l r, happlies, v, h => by
    obtain rfl := isOne_iff.mp happlies
    obtain ⟨x, y, hx, hy, rfl⟩ := evaluate_mul.mp h
    cases hx
    simpa [mulOneLeft, isOne] using hy

theorem mulZeroRight_sound : mulZeroRight.Sound fn
  | _, .mul l r, happlies, v, h => by
    obtain rfl := isZero_iff.mp happlies
    obtain ⟨x, y, hx, hy, rfl⟩ := evaluate_mul.mp h
    cases hy
    simp [mulZeroRight, isZero, evaluateInner]

theorem mulZeroLeft_sound : mulZeroLeft.Sound fn
  | _, .mul l r, happlies, v, h => by
    obtain rfl := isZero_iff.mp happlies
    obtain ⟨x, y, hx, hy, rfl⟩ := evaluate_mul.mp h
    cases hx
    simp [mulZeroLeft, isZero, evaluateInner]

theorem divOne_sound : divOne.Sound fn
  | _, .div l r, happlies, v, h => by
    obtain rfl := isOne_iff.mp happlies
    obtain ⟨x, y, hx, hy, hne, rfl⟩ := evaluate_div.mp h
    cases hy
    simpa [divOne, isOne] using hx

theorem zeroDiv_sound : zeroDiv.Sound fn
  | _, .div l r, happlies, v, h => by
    obtain ⟨hzero, hne⟩ := Bool.and_eq_true_iff.mp happlies
    obtain rfl := isZero_iff.mp hzero
    obtain ⟨x, y, hx, hy, -, rfl⟩ := evaluate_div.mp h
    cases hx
    simp only [zeroDiv, hzero, hne, Bool.and_self, if_true, zero_div, evaluateInner]

theorem powOne_sound (hfn : fn.Lawful) : powOne.Sound fn
  | _, .pow l r, happlies, v, h => by
    obtain rfl := isOne_iff.mp happlies
    obtain ⟨x, y, hx, hy, rfl⟩ := evaluate_pow.mp h
    cases hy
    simpa [powOne, isOne, hfn.powf_one] using hx

theorem powZero_sound (hfn : fn.Lawful) : powZero.Sound fn
  | _, .pow l r, happlies, v, h => by
    obtain rfl := isZero_iff.mp happlies
    obtain ⟨x, y, hx, hy, rfl⟩ := evaluate_pow.mp h
    cases hy
    simp [powZero, isZero, evaluateInner, hfn.powf_zero]

theorem onePow_sound (hfn : fn.Lawful) : onePow.Sound fn
  | _, .pow l r, happlies, v, h => by
    obtain rfl := isOne_iff.mp happlies
    obtain ⟨x, y, hx, hy, rfl⟩ := evaluate_pow.mp h
    cases hx
    simp [onePow, isOne, evaluateInner, hfn.one_powf]

theorem doubleNeg_sound : doubleNeg.Sound fn
  | _, .neg (.neg inner), _, v, h => by
    obtain ⟨x, hx, rfl⟩ := evaluate_neg.mp h
    obtain ⟨y, hy, rfl⟩ := evaluate_neg.mp hx
    rw [neg_neg]
    exact hy

theorem subSelf_sound : subSelf.Sound fn
  | _, .sub l r, happlies, v, h => by
    obtain rfl := of_decide_eq_true happlies
    obtain ⟨x, y, hx, hy, rfl⟩ := evaluate_sub.mp h
    cases hx.symm.trans hy
    simp [subSelf, exprsEqual, evaluateInner]

theorem divSelf_sound : divSelf.Sound fn
  | _, .div l r, happlies, v, h => by
    obtain ⟨heq, hne⟩ := Bool.and_eq_true_iff.mp happlies
    obtain rfl := of_decide_eq_true heq
    obtain ⟨x, y, hx, hy, hy0, rfl⟩ := evaluate_div.mp h
    cases hx.symm.trans hy
    simp only [divSelf, heq, hne, Bool.and_self, if_true, div_self hy0, evaluateInner]

theorem sqrtSq_sound (hfn : fn.Lawful) : sqrtSq.Sound fn
  | _, .sqrt (.pow base exp), happlies, v, h => by
    obtain rfl := isTwo_iff.mp happlies
    obtain ⟨x, hx, -, rfl⟩ := evaluate_sqrt.mp h
    obtain ⟨y, z, hy, hz, rfl⟩ := evaluate_pow.mp hx
    cases hz
    simp [sqrtSq, isTwo, evaluate_abs, hy, hfn.powf_two, hfn.sqrt_mul_self]

theorem expLn_sound (hfn : fn.Lawful) : expLn.Sound fn
  | _, .exp (.ln x), _, v, h => by
    obtain ⟨y, hy, rfl⟩ := evaluate_exp.mp h
    obtain ⟨z, hz, hpos, rfl⟩ := evaluate_ln.mp hy
    rw [hfn.exp_ln z hpos]
    exact hz

theorem lnExp_sound (hfn : fn.Lawful) : lnExp.Sound fn
  | _, .ln (.exp x), _, v, h => by
    obtain ⟨y, hy, -, rfl⟩ := evaluate_ln.mp h
    obtain ⟨z, hz, rfl⟩ := evaluate_exp.mp hy
    rw [hfn.ln_exp]
    exact hz

theorem lnOne_sound (hfn : fn.Lawful) : lnOne.Sound fn
  | _, .ln inner, happlies, v, h => by
    obtain rfl := isOne_iff.mp happlies
    obtain ⟨x, hx, -, rfl⟩ := evaluate_ln.mp h
    cases hx
    have hln : fn.ln 1 = 0 := by rw [← hfn.exp_zero, hfn.ln_exp]
    simp [lnOne, isOne, evaluateInner, hln]

theorem expZero_sound (hfn : fn.Lawful) : expZero.Sound fn
  | _, .exp inner, happlies, v, h => by
    obtain rfl := isZero_iff.mp happlies
    obtain ⟨x, hx, rfl⟩ := evaluate_exp.mp h
    cases hx
    simp [expZero, isZero, evaluateInner, hfn.exp_zero]

theorem sqrtZero_sound [IsStrictOrderedRing F] (hfn : fn.Lawful) : sqrtZero.Sound fn
  | _, .sqrt inner, happlies, v, h => by
    obtain rfl := isZero_iff.mp happlies
    obtain ⟨x, hx, -, rfl⟩ := evaluate_sqrt.mp h
    cases hx
    have hsqrt : fn.sqrt 0 = 0 := by
      have h := hfn.sqrt_mul_self 0
      rwa [mul_zero, abs_zero] at h
    simp [sqrtZero, isZero, evaluateInner, hsqrt]

theorem sqrtOne_sound [IsStrictOrderedRing F] (hfn : fn.Lawful) : sqrtOne.Sound fn
  | _, .sqrt inner, happlies, v, h => by
    obtain rfl := isOne_iff.mp happlies
    obtain ⟨x, hx, -, rfl⟩ := evaluate_sqrt.mp h
    cases hx
    have hsqrt : fn.sqrt 1 = 1 := by
      have h := hfn.sqrt_mul_self 1
      rwa [mul_one, abs_one] at h
    simp [sqrtOne, isOne, evaluateInner, hsqrt]

theorem negZero_sound : negZero.Sound fn
  | _, .neg inner, happlies, v, h => by
    obtain rfl := isZero_iff.mp happlies
    obtain ⟨x, hx, rfl⟩ := evaluate_neg.mp h
    cases hx
    simp [negZero, isZero, evaluateInner]

theorem mulSelfToPow2_sound (hfn : fn.Lawful) : mulSelfToPow2.Sound fn
  | _, .mul l r, happlies, v, h => by
    obtain ⟨heq, hnum⟩ := Bool.and_eq_true_iff.mp happlies
    obtain rfl := of_decide_eq_true heq
    obtain ⟨x, y, hx, hy, rfl⟩ := evaluate_mul.mp h
    cases hx.symm.trans hy
    simp only [mulSelfToPow2, heq, hnum, Bool.and_self, if_true]
    exact evaluate_pow.mpr ⟨x, 2, hx, rfl, (hfn.powf_two x).symm⟩

theorem addSelf_sound : addSelf.Sound fn
  | _, .add l r, happlies, v, h => by
    obtain ⟨heq, hnum⟩ := Bool.and_eq_true_iff.mp happlies
    obtain rfl := of_decide_eq_true heq
    obtain ⟨x, y, hx, hy, rfl⟩ := evaluate_add.mp h
    cases hx.symm.trans hy
    simp only [addSelf, heq, hnum, Bool.and_self, if_true]
    exact evaluate_mul.mpr ⟨2, x, rfl, hx, (two_mul x).symm⟩

/-- Every built-in rule but one is sound. -/
theorem builtinRules_sound [IsStrictOrderedRing F] (hfn : fn.Lawful) :
    ∀ rule ∈ builtinRules (F := F), rule.Sound fn ∨ rule = sin2Cos2 := by
  simp only [builtinRules, List.forall_mem_cons]
  exact ⟨.inl (addZeroRight_sound fn), .inl (addZeroLeft_sound fn), .inl (subZero_sound fn),
    .inl (zeroSub_sound fn), .inl (mulOneRight_sound fn), .inl (mulOneLeft_sound fn),
    .inl (mulZeroRight_sound fn), .inl (mulZeroLeft_sound fn), .inl (divOne_sound fn),
    .inl (zeroDiv_sound fn), .inl (powOne_sound fn hfn), .inl (powZero_sound fn hfn),
    .inl (onePow_sound fn hfn), .inl (doubleNeg_sound fn), .inl (subSelf_sound fn),
    .inl (divSelf_sound fn), .inl (sqrtSq_sound fn hfn), .inl (expLn_sound fn hfn),
    .inl (lnExp_sound fn hfn), .inl (lnOne_sound fn hfn), .inl (expZero_sound fn hfn),
    .inl (sqrtZero_sound fn hfn), .inl (sqrtOne_sound fn hfn), .inl (negZero_sound fn),
    .inr trivial, .inl (mulSelfToPow2_sound fn hfn), .inl (addSelf_sound fn), by simp⟩

end Sound

/-! ## Passes -/

section Passes

variable {F : Type} [Field F] [LinearOrder F] (fn : Elementary F) (config : SesSimplifierConfig)
  (vars : String → Option F)

/-- What the rules are tried on where a pass meets an expression. -/
def node (e : SesExpr F) : SesExpr F := foldConstants fn config (recurseChildren fn config e)

/-- What the rules are tried on below an expression. -/
def childNodes : SesExpr F → List (SesExpr F)
  | .num _ | .var _ => []
  | .add l r | .sub l r | .mul l r | .div l r | .pow l r =>
    (childNodes l ++ [node fn config l]) ++ (childNodes r ++ [node fn config r])
  | .neg i | .abs i | .sqrt i | .sin i | .cos i | .exp i | .ln i =>
    childNodes i ++ [node fn config i]

/-- What the rules are tried on in a pass. -/
def passNodes (e : SesExpr F) : List (SesExpr F) := childNodes fn config e ++ [node fn config e]

/-- If the rule for sines and cosines fires on the expression, its value is 1. -/
def OneIfRewritten (e : SesExpr F) : Prop :=
  firstRule config e = some sin2Cos2 → ∀ v, evaluateInner fn vars e = .ok v → v = 1

variable {fn config vars}

theorem evaluate_of_isConstant (vars' : String → Option F) : ∀ {e : SesExpr F}, isConstant e →
    evaluateInner fn vars e = evaluateInner fn vars' e
  | .num _, _ => rfl
  | .add l r, h | .sub l r, h | .mul l r, h | .div l r, h | .pow l r, h => by
    obtain ⟨hl, hr⟩ := Bool.and_eq_true_iff.mp h
    have ihl := evaluate_of_isConstant vars' hl
    have ihr := evaluate_of_isConstant vars' hr
    simp only [evaluateInner, ihl, ihr]
  | .neg i, h | .abs i, h | .sqrt i, h | .sin i, h | .cos i, h | .exp i, h | .ln i, h => by
    have ih := evaluate_of_isConstant vars' (e := i) h
    simp only [evaluateInner, ih]

theorem foldConstants_keeps (e : SesExpr F) : Keeps fn vars e (foldConstants fn config e) := by
  intro v h
  rw [foldConstants]
  split
  · next hfold =>
    obtain ⟨-, hconst⟩ := Bool.and_eq_true_iff.mp hfold
    rw [evaluate_of_isConstant _ hconst] at h
    rw [h]
    rfl
  · exact h

theorem firstRule_eq_some {e : SesExpr F} {rule : SesRewriteRule F}
    (h : firstRule config e = some rule) : rule ∈ builtinRules ∧ rule.applies e := by
  have happlies := List.find?_some h
  rw [Bool.and_eq_true] at happlies
  exact ⟨List.mem_of_find?_eq_some h, happlies.2⟩

theorem applyRules_keeps [IsStrictOrderedRing F] (hfn : fn.Lawful) {e : SesExpr F}
    (hone : OneIfRewritten fn config vars e) : Keeps fn vars e (applyRules config e) := by
  rw [applyRules]
  cases hrule : firstRule config e with
  | none => exact fun v h => h
  | some rule =>
    obtain ⟨hmem, happlies⟩ := firstRule_eq_some hrule
    rcases builtinRules_sound fn hfn rule hmem with hsound | rfl
    · exact hsound vars e happlies
    · intro v h
      rw [hone hrule v h]
      exact congrArg (evaluateInner fn vars) (if_pos happlies)

/-- A rewrite of a node keeps its value exactly if it does not rewrite another sum to 1. -/
theorem applyRules_keeps_iff [IsStrictOrderedRing F] (hfn : fn.Lawful) {e : SesExpr F} :
    Keeps fn vars e (applyRules config e) ↔ OneIfRewritten fn config vars e := by
  refine ⟨fun hkeeps hrule v h => ?_, applyRules_keeps hfn⟩
  have happlies := (firstRule_eq_some hrule).2
  have hv := hkeeps v h
  rw [applyRules, hrule] at hv
  have hone : sin2Cos2.transform e = .num 1 := if_pos happlies
  simp only [hone, evaluateInner] at hv
  exact (Except.ok.inj hv).symm

theorem finishNode_keeps [IsStrictOrderedRing F] (hfn : fn.Lawful) {e : SesExpr F}
    (hone : OneIfRewritten fn config vars (foldConstants fn config e)) :
    Keeps fn vars e (finishNode fn config e) :=
  fun v h => applyRules_keeps hfn hone v (foldConstants_keeps e v h)

/-- A pass keeps the value of an expression if it does so below it. -/
theorem onePass_keeps_of [IsStrictOrderedRing F] (hfn : fn.Lawful) {e : SesExpr F}
    (hbelow : (∀ x ∈ childNodes fn config e, OneIfRewritten fn config vars x) →
      Keeps fn vars e (recurseChildren fn config e))
    (hone : ∀ x ∈ passNodes fn config e, OneIfRewritten fn config vars x) :
    Keeps fn vars e (onePass fn config e) := by
  obtain ⟨hchildren, hnode⟩ := List.forall_mem_append.mp hone
  exact fun v h => finishNode_keeps hfn (hnode _ (List.mem_singleton_self _)) v
    (hbelow hchildren v h)

theorem recurseChildren_keeps [IsStrictOrderedRing F] (hfn : fn.Lawful) : ∀ {e : SesExpr F},
    (∀ x ∈ childNodes fn config e, OneIfRewritten fn config vars x) →
      Keeps fn vars e (recurseChildren fn config e) := by
  have hboth : ∀ {l r : SesExpr F},
      ((∀ x ∈ childNodes fn config l, OneIfRewritten fn config vars x) →
        Keeps fn vars l (recurseChildren fn config l)) →
      ((∀ x ∈ childNodes fn config r, OneIfRewritten fn config vars x) →
        Keeps fn vars r (recurseChildren fn config r)) →
      (∀ x ∈ passNodes fn config l ++ passNodes fn config r, OneIfRewritten fn config vars x) →
        Keeps fn vars l (onePass fn config l) ∧ Keeps fn vars r (onePass fn config r) := by
    intro l r ihl ihr hone
    obtain ⟨hl, hr⟩ := List.forall_mem_append.mp hone
    exact ⟨onePass_keeps_of hfn ihl hl, onePass_keeps_of hfn ihr hr⟩
  intro e hone
  induction e with
  | num | var => exact fun v h => h
  | add l r ihl ihr | sub l r ihl ihr | mul l r ihl ihr | pow l r ihl ihr =>
    obtain ⟨hl, hr⟩ := hboth ihl ihr hone
    intro v h
    obtain ⟨x, y, hx, hy, rfl⟩ := both_eq_ok.mp h
    exact both_eq_ok.mpr ⟨x, y, hl x hx, hr y hy, rfl⟩
  | div l r ihl ihr =>
    obtain ⟨hl, hr⟩ := hboth ihl ihr hone
    intro v h
    obtain ⟨x, y, hx, hy, hne, rfl⟩ := evaluate_div.mp h
    exact evaluate_div.mpr ⟨x, y, hl x hx, hr y hy, hne, rfl⟩
  | neg inner ih | abs inner ih | sin inner ih | cos inner ih | exp inner ih =>
    intro v h
    obtain ⟨x, hx, rfl⟩ := one_eq_ok.mp h
    exact one_eq_ok.mpr ⟨x, onePass_keeps_of hfn ih hone x hx, rfl⟩
  | sqrt inner ih =>
    intro v h
    obtain ⟨x, hx, hdom, rfl⟩ := evaluate_sqrt.mp h
    exact evaluate_sqrt.mpr ⟨x, onePass_keeps_of hfn ih hone x hx, hdom, rfl⟩
  | ln inner ih =>
    intro v h
    obtain ⟨x, hx, hdom, rfl⟩ := evaluate_ln.mp h
    exact evaluate_ln.mpr ⟨x, onePass_keeps_of hfn ih hone x hx, hdom, rfl⟩

theorem simplifyLoop_keeps [IsStrictOrderedRing F] (hfn : fn.Lawful) : ∀ {passes : Nat}
    {e : SesExpr F}, (∀ n < passes, ∀ x ∈ passNodes fn config ((onePass fn config)^[n] e),
      OneIfRewritten fn config vars x) → Keeps fn vars e (simplifyLoop fn config passes e)
  | 0, _, _ => fun _ h => h
  | passes + 1, e, hone => by
    intro v h
    have hpass :=
      onePass_keeps_of hfn (recurseChildren_keeps hfn) (hone 0 (Nat.zero_lt_succ _)) v h
    rw [simplifyLoop]
    split
    · exact hpass
    · refine simplifyLoop_keeps hfn (fun n hn => ?_) v hpass
      have := hone (n + 1) (Nat.succ_lt_succ hn)
      rwa [Function.iterate_succ_apply] at this

variable (fn config vars)

/-- In all passes, the rule for sines and cosines only rewrites sums whose value is 1. -/
def RewritesOnes (e : SesExpr F) : Prop :=
  ∀ n < max config.maxPasses 1, ∀ x ∈ passNodes fn config ((onePass fn config)^[n] e),
    OneIfRewritten fn config vars x

variable {fn config vars}

/-- So it is without that rule. -/
theorem rewritesOnes_of_disabled
    (h : config.enableTrigRules = false ∨ config.enableAlgebraicRules = false) (e : SesExpr F) :
    RewritesOnes fn config vars e := by
  intro n _ x _ hrule
  have hskips := List.find?_some hrule
  rw [Bool.and_eq_true, Bool.not_eq_true', skips] at hskips
  exfalso
  rcases h with h | h
  · have hname : "sin2_cos2".startsWith "sin2_cos2" = true :=
      String.startsWith_string_iff.mpr List.prefix_rfl
    simp [h, sin2Cos2, hname] at hskips
  · simp [h, sin2Cos2] at hskips

end Passes

/-! ## Real numbers -/

/-- A function that is the power of real numbers where that is defined. -/
structure RealPow (powf : ℝ → ℝ → ℝ) : Prop where
  pos : ∀ x y, 0 < x → powf x y = x ^ y
  zero : ∀ y, 0 ≤ y → powf 0 y = 0 ^ y
  neg : ∀ (x : ℝ) (n : ℤ), x < 0 → powf x n = x ^ n

/-- The real functions. -/
noncomputable def realFunctions (powf : ℝ → ℝ → ℝ) : Elementary ℝ where
  powf := powf
  sqrt := Real.sqrt
  sin := Real.sin
  cos := Real.cos
  exp := Real.exp
  ln := Real.log

theorem RealPow.natCast {powf : ℝ → ℝ → ℝ} (h : RealPow powf) (x : ℝ) (n : ℕ) :
    powf x n = x ^ n := by
  rcases lt_trichotomy x 0 with hx | rfl | hx
  · have hn := h.neg x n hx
    rwa [zpow_natCast, Int.cast_natCast] at hn
  · rw [h.zero n (Nat.cast_nonneg n), Real.rpow_natCast]
  · rw [h.pos x n hx, Real.rpow_natCast]

theorem realFunctions_lawful {powf : ℝ → ℝ → ℝ} (h : RealPow powf) :
    (realFunctions powf).Lawful where
  powf_zero x := by
    have hx := h.natCast x 0
    rwa [Nat.cast_zero, pow_zero] at hx
  powf_one x := by
    have hx := h.natCast x 1
    rwa [Nat.cast_one, pow_one] at hx
  one_powf x := (h.pos 1 x one_pos).trans (Real.one_rpow x)
  powf_two x := (h.natCast x 2).trans (sq x)
  sqrt_mul_self := Real.sqrt_mul_self_eq_abs
  exp_zero := Real.exp_zero
  exp_ln _ hx := Real.exp_log hx
  ln_exp := Real.log_exp

theorem realPow_rpow : RealPow fun x y => x ^ y where
  pos _ _ _ := rfl
  zero _ _ := rfl
  neg x n _ := Real.rpow_intCast x n

theorem evaluate_simplify_of_rewritesOnes {powf : ℝ → ℝ → ℝ} (hpow : RealPow powf)
    {config : SesSimplifierConfig} {vars : String → Option ℝ} {e : SesExpr ℝ} {v : ℝ}
    (hones : RewritesOnes (realFunctions powf) config vars e)
    (h : evaluateInner (realFunctions powf) vars e = .ok v) :
    evaluateInner (realFunctions powf) vars (simplify (realFunctions powf) config e) = .ok v :=
  simplifyLoop_keeps (realFunctions_lawful hpow) hones v h

/-! ## Sines and cosines of two arguments -/

/-- `sin(x)^2 + cos(y)^2`. -/
def sinCosSquares (x y : String) : SesExpr ℝ :=
  .add (.pow (.sin (.var x)) (.num 2)) (.pow (.cos (.var y)) (.num 2))

section SinCosSquares

variable {fn : Elementary ℝ} {config : SesSimplifierConfig}

theorem applyRules_of_not_applies {e : SesExpr ℝ}
    (h : ∀ rule ∈ builtinRules, rule.applies e = false) : applyRules config e = e := by
  have hnone : firstRule config e = none := by
    rw [firstRule, List.find?_eq_none]
    exact fun rule hrule => by simp [h rule hrule]
  rw [applyRules, hnone]

theorem finishNode_num (v : ℝ) : finishNode fn config (.num v) = .num v := by
  have hfold : foldConstants fn config (.num v) = .num v := by
    rw [foldConstants]
    split <;> rfl
  rw [finishNode, hfold]
  refine applyRules_of_not_applies fun rule hrule => ?_
  rw [builtinRules] at hrule
  fin_cases hrule <;> rfl

/-- With a variable there is nothing to fold. -/
theorem finishNode_of_not_applies {e : SesExpr ℝ} (hvar : isConstant e = false)
    (h : ∀ rule ∈ builtinRules, rule.applies e = false) : finishNode fn config e = e := by
  rw [finishNode, foldConstants, hvar, Bool.and_false]
  exact applyRules_of_not_applies h

theorem finishNode_var (name : String) : finishNode fn config (.var name) = .var name := by
  refine finishNode_of_not_applies rfl fun rule hrule => ?_
  rw [builtinRules] at hrule
  fin_cases hrule <;> rfl

theorem finishNode_sin (name : String) :
    finishNode fn config (.sin (.var name)) = .sin (.var name) := by
  refine finishNode_of_not_applies rfl fun rule hrule => ?_
  rw [builtinRules] at hrule
  fin_cases hrule <;> rfl

theorem finishNode_cos (name : String) :
    finishNode fn config (.cos (.var name)) = .cos (.var name) := by
  refine finishNode_of_not_applies rfl fun rule hrule => ?_
  rw [builtinRules] at hrule
  fin_cases hrule <;> rfl

theorem applies_pow_two {e : SesExpr ℝ} (he : isOne e = false) (rule : SesRewriteRule ℝ)
    (hrule : rule ∈ builtinRules) : rule.applies (.pow e (.num 2)) = false := by
  rw [builtinRules] at hrule
  fin_cases hrule
  all_goals first
    | rfl
    | exact he
    | exact decide_eq_false (by norm_num)

theorem recurseChildren_sinCosSquares (x y : String) :
    recurseChildren fn config (sinCosSquares x y) = sinCosSquares x y := by
  have hsin : finishNode fn config (.pow (.sin (.var x)) (.num 2))
      = .pow (.sin (.var x)) (.num 2) :=
    finishNode_of_not_applies rfl (applies_pow_two rfl)
  have hcos : finishNode fn config (.pow (.cos (.var y)) (.num 2))
      = .pow (.cos (.var y)) (.num 2) :=
    finishNode_of_not_applies rfl (applies_pow_two rfl)
  simp only [sinCosSquares, recurseChildren, finishNode_var, finishNode_num, finishNode_sin,
    finishNode_cos, hsin, hcos]

theorem node_sinCosSquares (x y : String) :
    node fn config (sinCosSquares x y) = sinCosSquares x y := by
  rw [node, recurseChildren_sinCosSquares, foldConstants]
  exact if_neg (by simp [sinCosSquares, isConstant])

theorem skips_of_enabled (htrig : config.enableTrigRules) (halgebraic : config.enableAlgebraicRules)
    (rule : SesRewriteRule ℝ) : skips config rule = false := by
  simp [skips, htrig, halgebraic]

/-- With the rules enabled, one pass makes 1 of the sum. -/
theorem onePass_sinCosSquares (htrig : config.enableTrigRules)
    (halgebraic : config.enableAlgebraicRules) (x y : String) :
    onePass fn config (sinCosSquares x y) = .num 1 := by
  have htwo : isTwo (.num (2 : ℝ)) = true := isTwo_iff.mpr rfl
  have hrule : firstRule config (sinCosSquares x y) = some sin2Cos2 := by
    simp only [firstRule, skips_of_enabled htrig halgebraic, Bool.not_false, Bool.true_and]
    simp [builtinRules, sinCosSquares, addZeroRight, addZeroLeft, subZero, zeroSub, mulOneRight,
      mulOneLeft, mulZeroRight, mulZeroLeft, divOne, zeroDiv, powOne, powZero, onePow, doubleNeg,
      subSelf, divSelf, sqrtSq, expLn, lnExp, lnOne, expZero, sqrtZero, sqrtOne, negZero, sin2Cos2,
      isSin2PlusCos2, isSinSquared, isCosSquared, htwo, isZero]
  have happlies := (firstRule_eq_some hrule).2
  show applyRules config (node fn config (sinCosSquares x y)) = _
  rw [node_sinCosSquares, applyRules, hrule]
  exact if_pos happlies

theorem onePass_num (v : ℝ) : onePass fn config (.num v) = .num v := finishNode_num v

theorem simplifyLoop_num (v : ℝ) : ∀ passes, simplifyLoop fn config passes (.num v) = .num v
  | 0 => rfl
  | passes + 1 => by
    rw [simplifyLoop, onePass_num]
    exact if_pos (decide_eq_true rfl)

theorem simplify_sinCosSquares (htrig : config.enableTrigRules)
    (halgebraic : config.enableAlgebraicRules) (x y : String) :
    simplify fn config (sinCosSquares x y) = .num 1 := by
  obtain ⟨passes, hpasses⟩ := Nat.exists_eq_add_of_le' (le_max_right config.maxPasses 1)
  rw [simplify, hpasses, simplifyLoop, onePass_sinCosSquares htrig halgebraic]
  split
  · rfl
  · exact simplifyLoop_num 1 passes

theorem oneIfRewritten_of_not {vars : String → Option ℝ} {e : SesExpr ℝ}
    (h : isSin2PlusCos2 (recurseChildren fn config e) = false) :
    OneIfRewritten fn config vars (node fn config e) := by
  intro hrule
  have happlies : isSin2PlusCos2 (node fn config e) = true := (firstRule_eq_some hrule).2
  rw [node, foldConstants] at happlies
  split at happlies
  · split at happlies
    · cases happlies
    · exact absurd (h.symm.trans happlies) Bool.false_ne_true
  · exact absurd (h.symm.trans happlies) Bool.false_ne_true

end SinCosSquares

theorem evaluate_sinCosSquares_zero_pi (powf : ℝ → ℝ → ℝ) (hpow : RealPow powf) :
    evaluateInner (realFunctions powf) (fun name => some (if name = "x" then 0 else Real.pi / 2))
      (sinCosSquares "x" "y") = .ok 0 := by
  have hzero : powf 0 2 = 0 := by
    have h := hpow.natCast 0 2
    rwa [Nat.cast_ofNat, zero_pow two_ne_zero] at h
  simp [sinCosSquares, evaluateInner, realFunctions, bind, Except.bind, pure, Except.pure, hzero]

/--
A value is kept where the sums rewritten to 1 are 1; every value is kept exactly if the rule
is disabled.
-/
theorem evaluate_simplify {powf : ℝ → ℝ → ℝ} (hpow : RealPow powf) (config : SesSimplifierConfig) :
    (∀ (vars : String → Option ℝ) (e : SesExpr ℝ) (v : ℝ),
      RewritesOnes (realFunctions powf) config vars e →
      evaluateInner (realFunctions powf) vars e = .ok v →
      evaluateInner (realFunctions powf) vars (simplify (realFunctions powf) config e) = .ok v)
    ∧ ((∀ (vars : String → Option ℝ) (e : SesExpr ℝ) (v : ℝ),
        evaluateInner (realFunctions powf) vars e = .ok v →
        evaluateInner (realFunctions powf) vars (simplify (realFunctions powf) config e) = .ok v)
      ↔ config.enableTrigRules = false ∨ config.enableAlgebraicRules = false) := by
  refine ⟨fun vars e v => evaluate_simplify_of_rewritesOnes hpow, fun h => ?_, fun h vars e v =>
    evaluate_simplify_of_rewritesOnes hpow (rewritesOnes_of_disabled h e)⟩
  by_contra henabled
  rw [not_or, Bool.not_eq_false, Bool.not_eq_false] at henabled
  have hvalue := h _ _ 0 (evaluate_sinCosSquares_zero_pi powf hpow)
  rw [simplify_sinCosSquares henabled.1 henabled.2] at hvalue
  exact one_ne_zero (Except.ok.inj hvalue)

/-- With one argument the sum is 1. -/
theorem evaluate_sinCosSquares {vars : String → Option ℝ} {x : String} {v : ℝ}
    (h : evaluateInner (realFunctions fun x y => x ^ y) vars (sinCosSquares x x) = .ok v) :
    v = 1 := by
  obtain ⟨a, b, ha, hb, rfl⟩ := evaluate_add.mp h
  obtain ⟨sine, two, hsine, htwo, rfl⟩ := evaluate_pow.mp ha
  obtain ⟨cosine, two', hcosine, htwo', rfl⟩ := evaluate_pow.mp hb
  cases htwo
  cases htwo'
  obtain ⟨y, hy, rfl⟩ := evaluate_sin.mp hsine
  obtain ⟨y', hy', rfl⟩ := evaluate_cos.mp hcosine
  cases hy.symm.trans hy'
  simp only [realFunctions, Real.rpow_two]
  exact Real.sin_sq_add_cos_sq y

theorem rewritesOnes_sinCosSquares (vars : String → Option ℝ) (x : String) :
    RewritesOnes (realFunctions fun x y => x ^ y) {} vars (sinCosSquares x x) := by
  intro n _
  cases n with
  | zero =>
    have hnode : OneIfRewritten (realFunctions fun x y => x ^ y) {} vars
        (node (realFunctions fun x y => x ^ y) {} (sinCosSquares x x)) := by
      rw [node_sinCosSquares]
      exact fun _ _ => evaluate_sinCosSquares
    simp only [Function.iterate_zero, id_eq, passNodes, List.forall_mem_append,
      List.forall_mem_singleton]
    refine ⟨?_, hnode⟩
    simp only [sinCosSquares, childNodes, List.forall_mem_append, List.forall_mem_singleton,
      List.nil_append]
    exact ⟨⟨⟨⟨oneIfRewritten_of_not rfl, oneIfRewritten_of_not rfl⟩, oneIfRewritten_of_not rfl⟩,
        oneIfRewritten_of_not rfl⟩,
      ⟨⟨oneIfRewritten_of_not rfl, oneIfRewritten_of_not rfl⟩, oneIfRewritten_of_not rfl⟩,
      oneIfRewritten_of_not rfl⟩
  | succ n =>
    rw [Function.iterate_succ_apply, onePass_sinCosSquares rfl rfl,
      Function.iterate_fixed (onePass_num 1)]
    exact List.forall_mem_singleton.mpr (oneIfRewritten_of_not rfl)

theorem evaluate_simplify_sinCosSquares :
    evaluateInner (realFunctions fun x y => x ^ y) (fun _ => some 0)
      (simplify (realFunctions fun x y => x ^ y) {} (sinCosSquares "x" "x"))
        = .ok 1 := by
  refine (evaluate_simplify realPow_rpow {}).1 _ _ 1 (rewritesOnes_sinCosSquares _ "x") ?_
  simp [sinCosSquares, evaluateInner, realFunctions, bind, Except.bind, pure, Except.pure]

theorem simplify_changes_value : ¬ ∀ (config : SesSimplifierConfig) (vars : String → Option ℝ)
    (e : SesExpr ℝ) (v : ℝ), evaluateInner (realFunctions fun x y => x ^ y) vars e = .ok v →
      evaluateInner (realFunctions fun x y => x ^ y) vars
        (simplify (realFunctions fun x y => x ^ y) config e) = .ok v := by
  intro h
  have hvalue := h {} _ _ 0 (evaluate_sinCosSquares_zero_pi _ realPow_rpow)
  rw [simplify_sinCosSquares rfl rfl] at hvalue
  exact one_ne_zero (Except.ok.inj hvalue)

end Ipfrs.TensorLogic.Symbolic
