/-
Ipfrs.TensorLogic.IpldCodec — rules as IPLD terms (`ipld_codec.rs`).

A `TermIpld` has one kind of number, an `f64` (its bits), where a term has integers,
booleans and texts of floats. The decimal texts of `f64` values are the standard library's
and left open, as are the texts of CIDs. The metadata of a `RuleIpld` is a hash map: a list
of entries with different keys, in the order of the map's iteration.
-/
import Ipfrs.Core.DagJson
import Ipfrs.Lib.FloatInteger
import Ipfrs.TensorLogic.Ir

namespace Ipfrs.TensorLogic

open Ipfrs.Core Ipfrs.Lib

/-- Texts of `f64` values in the standard library, from and to their bits. -/
class F64Text where
  /-- `str::parse::<f64>`. -/
  parse : String → Option UInt64
  /-- `Display`. -/
  display : UInt64 → String

/-- `TermIpld`. -/
inductive TermIpld where
  | atom (value : String)
  | var (name : String)
  | number (value : UInt64)
  | compound (functor : String) (args : List TermIpld)
  | list (items : List TermIpld)
  | tensor (dtype : String) (shape : List UInt64) (cid : Option String)
  | ref (cid : String) (hint : Option String)

/-- `RuleIpld`. -/
structure RuleIpld where
  head : TermIpld
  body : List TermIpld
  metadata : List (String × String)
  distinct : (metadata.map Prod.fst).Nodup

/-- 1.0. -/
def f64One : UInt64 := 0x3ff0000000000000

section

variable [F64Text] [CidStream] [CidFromStr]

/-! ## Encoding -/

mutual

/-- `TermIpld::try_from`. -/
def Term.toIpld : Term → Except Error TermIpld
  | .var name => .ok (.var name)
  | .const (.string s) => .ok (.atom s)
  | .const (.int i) => .ok (.number (intToF64 i.toInt))
  | .const (.bool b) => .ok (.number (if b then f64One else 0))
  | .const (.float s) =>
    match F64Text.parse s with
    | some value => .ok (.number value)
    | none => .error (.invalidData ("Cannot parse float constant: " ++ s))
  | .func functor args => do
      let ipldArgs ← Term.allToIpld args
      pure (.compound functor ipldArgs)
  | .ref r => .ok (.ref (CidStream.display r.cid) r.hint)

/-- The terms of a list, up to the first that fails. -/
def Term.allToIpld : List Term → Except Error (List TermIpld)
  | [] => pure []
  | t :: ts => do
      let ipld ← t.toIpld
      let ipldRest ← Term.allToIpld ts
      pure (ipld :: ipldRest)

end

/-! ## Decoding -/

/-- A number is an integer if it has no fractional part and is in range. -/
def numberToConstant (value : UInt64) : Constant :=
  if fractIsZero value && absBelowI64 value then .int (Int64.ofInt (f64ToI64 value))
  else .float (F64Text.display value)

mutual

/-- `Term::try_from`. -/
def TermIpld.toTerm : TermIpld → Except Error Term
  | .atom value => .ok (.const (.string value))
  | .var name => .ok (.var name)
  | .number value => .ok (.const (numberToConstant value))
  | .compound functor args => do
      let irArgs ← TermIpld.allToTerm args
      pure (.func functor irArgs)
  | .list items => do
      let irItems ← TermIpld.allToTerm items
      pure (.func "list" irItems)
  | .tensor dtype shape cid =>
    let dtypeTerm := Term.const (.string dtype)
    let shapeTerms := shape.map (fun d => Term.const (.int d.toInt64))
    let shapeFun := Term.func "shape" shapeTerms
    let cidTerm := Term.const (.string (cid.getD "none"))
    .ok (.func "tensor" [dtypeTerm, shapeFun, cidTerm])
  | .ref cid hint =>
    match CidFromStr.parse cid with
    | .error e => .error (.invalidData ("Invalid CID in TermIpld::Ref: " ++ e))
    | .ok parsedCid => .ok (.ref { cid := parsedCid, hint })

/-- The terms of a list, up to the first that fails. -/
def TermIpld.allToTerm : List TermIpld → Except Error (List Term)
  | [] => pure []
  | t :: ts => do
      let term ← t.toTerm
      let rest ← TermIpld.allToTerm ts
      pure (term :: rest)

end

/-! ## Predicates and rules -/

def predicateToTermIpld (pred : Predicate) : Except Error TermIpld := do
  let args ← Term.allToIpld pred.args
  pure (.compound pred.name args)

/-- `debug` is the derived `Debug` text, which the error shows. -/
def termIpldToPredicate (debug : TermIpld → String) (ipld : TermIpld) :
    Except Error Predicate :=
  match ipld with
  | .compound functor args => do
      let irArgs ← TermIpld.allToTerm args
      pure { name := functor, args := irArgs }
  | other => .error (.invalidData
      ("Expected Compound TermIpld for Predicate conversion, got: " ++ debug other))

def ruleToRuleIpld (rule : Rule) : Except Error RuleIpld := do
  let head ← predicateToTermIpld rule.head
  let body ← rule.body.mapM predicateToTermIpld
  pure { head, body, metadata := [], distinct := List.nodup_nil }

def ruleIpldToRule (debug : TermIpld → String) (ipld : RuleIpld) : Except Error Rule := do
  let head ← termIpldToPredicate debug ipld.head
  let body ← ipld.body.mapM (termIpldToPredicate debug)
  pure { head, body }

end

/-! ## Which rules survive the codec

A term comes back exactly if all constants in it do (`roundTrip_iff`): strings always do,
booleans never, an integer if a float holds it and it is not the least one, the text of a
float if it is the printed form of a number that is not taken for an integer. -/

section

variable [F64Text] [CidStream] [CidFromStr]

/-- The constants that come back. -/
def Constant.Survives : Constant → Prop
  | .string _ => True
  | .int i => 2 ^ (Nat.log2 i.toInt.natAbs - 52) ∣ i.toInt.natAbs ∧ i ≠ Int64.minValue
  | .bool _ => False
  | .float s => ∃ value, F64Text.parse s = some value ∧ F64Text.display value = s ∧
      ¬ (fractIsZero value = true ∧ absBelowI64 value = true)

mutual

/-- The constants in a term, at any depth. -/
def Term.constants : Term → List Constant
  | .const c => [c]
  | .func _ args => Term.allConstants args
  | .var _ | .ref _ => []

def Term.allConstants : List Term → List Constant
  | [] => []
  | t :: ts => t.constants ++ Term.allConstants ts

end

mutual

/-- No reference is in the term. -/
def Term.refFree : Term → Bool
  | .func _ args => Term.allRefFree args
  | .var _ | .const _ => true
  | .ref _ => false

def Term.allRefFree : List Term → Bool
  | [] => true
  | t :: ts => t.refFree && Term.allRefFree ts

end

/-! ## Numbers -/

omit [F64Text] [CidStream] [CidFromStr] in
theorem int64_range (i : Int64) : -2 ^ 63 ≤ i.toInt ∧ i.toInt < 2 ^ 63 :=
  ⟨i.le_toInt, i.toInt_lt⟩

omit [CidStream] [CidFromStr] in
theorem numberToConstant_int (i : Int64) :
    numberToConstant (intToF64 i.toInt) = .int i ↔ (Constant.int i).Survives := by
  have hiff := f64ToI64_intToF64_iff (int64_range i)
  have hmin : i ≠ Int64.minValue ↔ i.toInt ≠ -2 ^ 63 := not_congr Int64.toInt_inj.symm
  have hback : Int64.ofInt (f64ToI64 (intToF64 i.toInt)) = i
      ↔ f64ToI64 (intToF64 i.toInt) = i.toInt := by
    obtain ⟨hlow, hhigh⟩ := f64ToI64_range (intToF64 i.toInt)
    rw [← Int64.toInt_inj, Int64.toInt_ofInt_of_le hlow hhigh]
  unfold Constant.Survives
  dsimp only
  rw [numberToConstant, fractIsZero_intToF64 (int64_range i), Bool.true_and, hmin, ← hiff]
  by_cases hbelow : absBelowI64 (intToF64 i.toInt) = true
  · rw [if_pos hbelow, Constant.int.injEq, hback]
    simp [hbelow]
  · rw [if_neg hbelow]
    simp [hbelow]

omit [CidStream] [CidFromStr] in
theorem numberToConstant_float {s : String} {value : UInt64} (h : F64Text.parse s = some value) :
    numberToConstant value = .float s ↔ (Constant.float s).Survives := by
  unfold Constant.Survives numberToConstant
  dsimp only
  rw [h]
  simp only [Option.some.injEq, exists_eq_left', ← Bool.and_eq_true]
  by_cases hint : (fractIsZero value && absBelowI64 value) = true
  · simp [hint]
  · simp [hint]

omit [CidStream] [CidFromStr] in
theorem numberToConstant_ne_bool (value : UInt64) (b : Bool) :
    numberToConstant value ≠ .bool b := by
  unfold numberToConstant
  split <;> simp

/-! ## Terms -/

theorem const_roundTrip_iff (c : Constant) :
    ((Term.const c).toIpld >>= TermIpld.toTerm) = .ok (.const c) ↔ c.Survives := by
  cases c with
  | string s => exact iff_of_true rfl trivial
  | int i =>
    rw [← numberToConstant_int]
    simp [Term.toIpld, TermIpld.toTerm]
  | bool b =>
    -- a number is never read as a boolean
    refine iff_of_false (fun h => ?_) id
    simp only [Term.toIpld, ok_bind, TermIpld.toTerm, Except.ok.injEq, Term.const.injEq] at h
    exact numberToConstant_ne_bool _ b h
  | float s =>
    cases hparse : F64Text.parse s with
    | none => simp [Term.toIpld, hparse, Constant.Survives]
    | some value =>
      rw [← numberToConstant_float hparse]
      simp [Term.toIpld, TermIpld.toTerm, hparse]

theorem func_roundTrip_iff (f : String) (args : List Term) :
    ((Term.func f args).toIpld >>= TermIpld.toTerm) = .ok (.func f args)
      ↔ (Term.allToIpld args >>= TermIpld.allToTerm) = .ok args := by
  rw [Term.toIpld]
  cases Term.allToIpld args with
  | error e => simp
  | ok ipldArgs => simp [TermIpld.toTerm, bind_eq_ok, pure, Except.pure]

theorem cons_roundTrip_iff (t : Term) (ts : List Term) :
    (Term.allToIpld (t :: ts) >>= TermIpld.allToTerm) = .ok (t :: ts)
      ↔ (t.toIpld >>= TermIpld.toTerm) = .ok t ∧
        (Term.allToIpld ts >>= TermIpld.allToTerm) = .ok ts := by
  rw [Term.allToIpld]
  cases t.toIpld with
  | error e => simp
  | ok ipld =>
    cases Term.allToIpld ts with
    | error e => simp
    | ok rest => simp [TermIpld.allToTerm, bind_eq_ok, pure, Except.pure]

theorem all_roundTrip_iff {ts : List Term} (h : ∀ t ∈ ts, t.refFree = true →
      ((t.toIpld >>= TermIpld.toTerm) = .ok t ↔ ∀ c ∈ t.constants, c.Survives))
    (hfree : Term.allRefFree ts = true) : (Term.allToIpld ts >>= TermIpld.allToTerm) = .ok ts
      ↔ ∀ c ∈ Term.allConstants ts, c.Survives := by
  induction ts with
  | nil => simp [Term.allToIpld, TermIpld.allToTerm, Term.allConstants, pure, Except.pure]
  | cons t ts ih =>
    obtain ⟨ht, hts⟩ := List.forall_mem_cons.mp h
    rw [Term.allRefFree, Bool.and_eq_true] at hfree
    rw [cons_roundTrip_iff, ht hfree.1, ih hts hfree.2, Term.allConstants]
    simp only [List.mem_append, or_imp, forall_and]

/-- **A term comes back** exactly if all constants in it do. -/
theorem term_roundTrip_iff (t : Term) : t.refFree = true →
    ((t.toIpld >>= TermIpld.toTerm) = .ok t ↔ ∀ c ∈ t.constants, c.Survives) := by
  induction t using Term.induct with
  | var v => simp [Term.toIpld, TermIpld.toTerm, Term.constants]
  | const c =>
    intro _
    rw [const_roundTrip_iff]
    simp [Term.constants]
  | func f args ih =>
    intro hfree
    rw [func_roundTrip_iff, all_roundTrip_iff ih hfree, Term.constants]
  | ref r =>
    intro hfree
    cases hfree

/-! ## Rules -/

def Predicate.constants (p : Predicate) : List Constant := Term.allConstants p.args

def Rule.constants (r : Rule) : List Constant :=
  r.head.constants ++ r.body.flatMap Predicate.constants

def Predicate.refFree (p : Predicate) : Bool := Term.allRefFree p.args

def Rule.refFree (r : Rule) : Bool := r.head.refFree && r.body.all Predicate.refFree

theorem predicate_roundTrip_iff (debug : TermIpld → String) {p : Predicate}
    (hfree : p.refFree = true) : (predicateToTermIpld p >>= termIpldToPredicate debug) = .ok p
      ↔ ∀ c ∈ p.constants, c.Survives := by
  rw [Predicate.constants, ← all_roundTrip_iff (fun t _ => term_roundTrip_iff t) hfree,
    predicateToTermIpld]
  obtain ⟨name, args⟩ := p
  cases Term.allToIpld args with
  | error e => simp
  | ok ipldArgs => simp [termIpldToPredicate, bind_eq_ok, pure, Except.pure]

theorem body_roundTrip_iff (debug : TermIpld → String) {body : List Predicate}
    (hfree : body.all Predicate.refFree = true) :
    (body.mapM predicateToTermIpld >>= fun l => l.mapM (termIpldToPredicate debug)) = .ok body
      ↔ ∀ c ∈ body.flatMap Predicate.constants, c.Survives := by
  induction body with
  | nil => simp [pure, Except.pure]
  | cons p body ih =>
    rw [List.all_cons, Bool.and_eq_true] at hfree
    have hcons : ((p :: body).mapM predicateToTermIpld >>=
          fun l => l.mapM (termIpldToPredicate debug)) = .ok (p :: body)
        ↔ (predicateToTermIpld p >>= termIpldToPredicate debug) = .ok p ∧
          (body.mapM predicateToTermIpld >>= fun l => l.mapM (termIpldToPredicate debug))
            = .ok body := by
      rw [List.mapM_cons]
      cases predicateToTermIpld p with
      | error e => simp
      | ok ipld =>
        cases body.mapM predicateToTermIpld with
        | error e => simp
        | ok rest => simp [bind_eq_ok, pure, Except.pure]
    rw [hcons, predicate_roundTrip_iff debug hfree.1, ih hfree.2, List.flatMap_cons]
    simp only [List.mem_append, or_imp, forall_and]

/-- **A rule survives the codec** exactly if all constants in it do. -/
theorem roundTrip_iff (debug : TermIpld → String) (rule : Rule) (hfree : rule.refFree = true) :
    (ruleToRuleIpld rule >>= ruleIpldToRule debug) = .ok rule
      ↔ ∀ c ∈ rule.constants, c.Survives := by
  rw [Rule.refFree, Bool.and_eq_true] at hfree
  have hsplit : (ruleToRuleIpld rule >>= ruleIpldToRule debug) = .ok rule
      ↔ (predicateToTermIpld rule.head >>= termIpldToPredicate debug) = .ok rule.head ∧
        (rule.body.mapM predicateToTermIpld >>= fun l => l.mapM (termIpldToPredicate debug))
          = .ok rule.body := by
    obtain ⟨head, body⟩ := rule
    rw [ruleToRuleIpld]
    cases predicateToTermIpld head with
    | error e => simp
    | ok ipldHead =>
      cases body.mapM predicateToTermIpld with
      | error e => simp
      | ok ipldBody => simp [ruleIpldToRule, bind_eq_ok, pure, Except.pure]
  rw [hsplit, predicate_roundTrip_iff debug hfree.1, body_roundTrip_iff debug hfree.2,
    Rule.constants]
  simp only [List.mem_append, or_imp, forall_and]

end

namespace IpldCodecSample

open scoped CidFormat

/-- The text of 1.5, and no other. -/
scoped instance : F64Text where
  parse s := if s = "1.5" then some 0x3ff8000000000000 else none
  display bits := if bits = 0x3ff8000000000000 then "1.5" else ""

/-- The texts of CIDs are not read in what follows. -/
scoped instance : CidFromStr where
  parse _ := .error "no CID"

/-- `near(?X, at("home", -7, 1.5)).` -/
def near : Rule where
  head :=
    { name := "near"
      args := [.var "X", .func "at" [.const (.string "home"), .const (.int (-7)),
        .const (.float "1.5")]] }
  body := []

theorem roundTrip_iff_near :
    (ruleToRuleIpld near >>= ruleIpldToRule (fun _ => "")) = .ok near
      ↔ ∀ c ∈ near.constants, c.Survives :=
  roundTrip_iff (fun _ => "") near (by decide)

/-- `on(true).` -/
def switchedOn : Rule where
  head := { name := "on", args := [.const (.bool true)] }
  body := []

/-- A rule with a boolean comes back with an integer. -/
theorem not_roundTrip : ¬ ∀ (debug : TermIpld → String) (rule : Rule), rule.refFree = true →
      (ruleToRuleIpld rule >>= ruleIpldToRule debug) = .ok rule := by
  intro h
  have hrule := h (fun _ => "") switchedOn (by decide)
  have hback : numberToConstant f64One = .bool true := by
    simpa [switchedOn, ruleToRuleIpld, ruleIpldToRule, predicateToTermIpld, termIpldToPredicate,
      Term.allToIpld, Term.toIpld, TermIpld.allToTerm, TermIpld.toTerm, pure, Except.pure]
      using hrule
  exact numberToConstant_ne_bool _ _ hback

end IpldCodecSample

end Ipfrs.TensorLogic
