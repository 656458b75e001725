/-
Ipfrs.TensorLogic.RuleCid — the JSON of a rule, its block and its CID (`ipld_codec.rs`).

A block holds the compact JSON that `serde_json` writes for a value, stamped as DAG-CBOR:
terms are objects with their `type` first, the metadata is an object in the order in which
the hash map is iterated. The texts of finite numbers are those of the external crate.
-/
import Ipfrs.Core.Block
import Ipfrs.Lib.QuotedText
import Ipfrs.TensorLogic.IpldCodec
import Mathlib.Data.List.Permutation

namespace Ipfrs.TensorLogic

open Ipfrs.Core Ipfrs.Lib

/-- The text `serde_json` writes for a finite `f64`. -/
class F64Json where
  text : UInt64 → String

/-- The two zeros keep their sign. -/
class F64Json.Lawful [F64Json] : Prop where
  text_zero : F64Json.text 0 = "0.0"
  text_negZero : F64Json.text negZeroF64 = "-0.0"

/-! ## Compact JSON -/

/-- Texts with a comma between two of them. -/
def commaSeparated : List (List Char) → List Char
  | [] => []
  | text :: rest => text ++ rest.flatMap (',' :: ·)

def jsonArray (items : List (List Char)) : List Char := '[' :: (commaSeparated items ++ [']'])

def jsonObject (entries : List (List Char)) : List Char :=
  '\x7b' :: (commaSeparated entries ++ ['\x7d'])

def jsonEntry (key : String) (value : List Char) : List Char :=
  jsonEscape.quote key ++ ':' :: value

def jsonNat (n : UInt64) : List Char := Nat.toDigits 10 n.toNat

def jsonOption : Option String → List Char
  | some s => jsonEscape.quote s
  | none => "null".toList

section

variable [F64Json]

/-- Infinities and NaNs have no number in JSON. -/
def jsonF64 (value : UInt64) : List Char :=
  if exponentField value = 2047 then "null".toList else (F64Json.text value).toList

mutual

/-- `Serialize` of a term: the tag, then the fields. -/
def TermIpld.json : TermIpld → List Char
  | .atom value =>
    jsonObject [jsonEntry "type" (jsonEscape.quote "atom"),
      jsonEntry "value" (jsonEscape.quote value)]
  | .var name =>
    jsonObject [jsonEntry "type" (jsonEscape.quote "variable"),
      jsonEntry "name" (jsonEscape.quote name)]
  | .number value =>
    jsonObject [jsonEntry "type" (jsonEscape.quote "number"),
      jsonEntry "value" (jsonF64 value)]
  | .compound functor args =>
    jsonObject [jsonEntry "type" (jsonEscape.quote "compound"),
      jsonEntry "functor" (jsonEscape.quote functor),
      jsonEntry "args" (jsonArray (TermIpld.allJson args))]
  | .list items =>
    jsonObject [jsonEntry "type" (jsonEscape.quote "list"),
      jsonEntry "items" (jsonArray (TermIpld.allJson items))]
  | .tensor dtype shape cid =>
    jsonObject [jsonEntry "type" (jsonEscape.quote "tensor"),
      jsonEntry "dtype" (jsonEscape.quote dtype),
      jsonEntry "shape" (jsonArray (shape.map jsonNat)),
      jsonEntry "cid" (jsonOption cid)]
  | .ref cid hint =>
    jsonObject [jsonEntry "type" (jsonEscape.quote "ref"),
      jsonEntry "cid" (jsonEscape.quote cid), jsonEntry "hint" (jsonOption hint)]

def TermIpld.allJson : List TermIpld → List (List Char)
  | [] => []
  | t :: ts => t.json :: TermIpld.allJson ts

end

def metadataJson (metadata : List (String × String)) : List Char :=
  jsonObject (metadata.map fun entry => jsonEntry entry.1 (jsonEscape.quote entry.2))

/-- `Serialize` of a rule. -/
def RuleIpld.json (rule : RuleIpld) : List Char :=
  jsonObject [jsonEntry "head" rule.head.json,
    jsonEntry "body" (jsonArray (TermIpld.allJson rule.body)),
    jsonEntry "metadata" (metadataJson rule.metadata)]

/-- `serde_json::to_vec`, which fails of no rule. -/
def RuleIpld.jsonBytes (rule : RuleIpld) : List UInt8 := utf8 (String.ofList rule.json)

/-! ## Blocks -/

variable [CidCrate] [CidStream]

def buildDagCborCid (data : List UInt8) : Except Error Cid :=
  match ({ codec := codecDagCbor } : CidBuilder).build data with
  | .ok cid => .ok cid
  | .error e => .error (.cid ("Failed to compute DAG-CBOR CID: " ++ e.display))

def ruleToBlock (rule : RuleIpld) : Except Error Block := do
  let jsonBytes := rule.jsonBytes
  let cid ← buildDagCborCid jsonBytes
  pure { cid, data := jsonBytes }

def ruleCid (rule : RuleIpld) : Except Error Cid := buildDagCborCid rule.jsonBytes

end

/-! ## Equality -/

mutual

/-- `PartialEq`, as derived. -/
def TermIpld.eq : TermIpld → TermIpld → Bool
  | .atom v, .atom v' => v == v'
  | .var v, .var v' => v == v'
  | .number n, .number n' => eqF64 n n'
  | .compound f args, .compound f' args' => f == f' && TermIpld.eqAll args args'
  | .list items, .list items' => TermIpld.eqAll items items'
  | .tensor dtype shape cid, .tensor dtype' shape' cid' =>
    dtype == dtype' && shape == shape' && cid == cid'
  | .ref cid hint, .ref cid' hint' => cid == cid' && hint == hint'
  | _, _ => false

def TermIpld.eqAll : List TermIpld → List TermIpld → Bool
  | [], [] => true
  | t :: ts, u :: us => t.eq u && TermIpld.eqAll ts us
  | _, _ => false

end

/-- Equal rules: the terms are, and the metadata is as a map, in whatever order it is
iterated. -/
def RuleIpld.Equal (rule other : RuleIpld) : Prop :=
  rule.head.eq other.head = true ∧ TermIpld.eqAll rule.body other.body = true ∧
    rule.metadata.Perm other.metadata

/-! ## Zeros and numbers that are none -/

mutual

/-- The numbers in a term, at any depth. -/
def TermIpld.numbers : TermIpld → List UInt64
  | .number value => [value]
  | .compound _ args => TermIpld.allNumbers args
  | .list items => TermIpld.allNumbers items
  | .atom _ | .var _ | .tensor _ _ _ | .ref _ _ => []

def TermIpld.allNumbers : List TermIpld → List UInt64
  | [] => []
  | t :: ts => t.numbers ++ TermIpld.allNumbers ts

end

def RuleIpld.numbers (rule : RuleIpld) : List UInt64 :=
  rule.head.numbers ++ TermIpld.allNumbers rule.body

/-! ## Which rules have one CID

Two equal rules can differ in the order of their metadata and in the signs of zeros, and in
nothing else. The first shows in the JSON as soon as there are two entries, the second as
soon as there is a zero. -/

@[simp] theorem isZeroF64_zero : isZeroF64 0 = true := by decide

@[simp] theorem isZeroF64_negZero : isZeroF64 negZeroF64 = true := by decide

theorem isNanF64_of_isZero {n : UInt64} (h : isZeroF64 n = true) : isNanF64 n = false := by
  simp only [isZeroF64, Bool.and_eq_true, decide_eq_true_eq] at h
  simp [isNanF64, h.1]

theorem eqF64_of_isZero {a b : UInt64} (ha : isZeroF64 a = true) (hb : isZeroF64 b = true) :
    eqF64 a b = true := by
  simp [eqF64, isNanF64_of_isZero ha, isNanF64_of_isZero hb, ha, hb]

theorem eqF64_self {n : UInt64} (h : isNanF64 n = false) : eqF64 n n = true := by
  simp [eqF64, h]

theorem isNanF64_of_eq {a b : UInt64} (h : eqF64 a b = true) : isNanF64 a = false := by
  simp only [eqF64, Bool.and_eq_true, Bool.not_eq_true'] at h
  exact h.1.1

theorem eq_of_eqF64 {a b : UInt64} (h : eqF64 a b = true) (ha : isZeroF64 a = false) : a = b := by
  simp only [eqF64, ha, Bool.false_and, Bool.or_false, Bool.and_eq_true, beq_iff_eq] at h
  exact h.2

/-- A number with its zero replaced. -/
def resignF64 (zero n : UInt64) : UInt64 := if isZeroF64 n then zero else n

theorem eqF64_resign {zero n : UInt64} (hzero : isZeroF64 zero = true)
    (hn : isNanF64 n = false) : eqF64 n (resignF64 zero n) = true := by
  unfold resignF64
  split
  · next h => exact eqF64_of_isZero h hzero
  · exact eqF64_self hn

/-! ## Equal terms -/

namespace TermIpld

section Induction

variable {P : TermIpld → Prop}
  (atom : ∀ v, P (.atom v))
  (var : ∀ v, P (.var v))
  (number : ∀ n, P (.number n))
  (compound : ∀ f args, (∀ t ∈ args, P t) → P (.compound f args))
  (list : ∀ items, (∀ t ∈ items, P t) → P (.list items))
  (tensor : ∀ dtype shape cid, P (.tensor dtype shape cid))
  (ref : ∀ cid hint, P (.ref cid hint))
include atom var number compound list tensor ref

/-- Induction with a hypothesis for every argument and item. -/
@[elab_as_elim]
theorem induct (t : TermIpld) : P t :=
  @TermIpld.rec P (fun l => ∀ t ∈ l, P t) atom var number
    (fun f args ih => compound f args ih)
    (fun items ih => list items ih)
    tensor ref
    (fun _ h => by cases h)
    (fun _ _ ht hl t hm => by
      rcases List.mem_cons.mp hm with rfl | hm
      · exact ht
      · exact hl t hm)
    t

end Induction

mutual

/-- Every zero in a term replaced by one of the two. -/
def resign (zero : UInt64) : TermIpld → TermIpld
  | .number n => .number (resignF64 zero n)
  | .compound f args => .compound f (resignAll zero args)
  | .list items => .list (resignAll zero items)
  | .atom v => .atom v
  | .var v => .var v
  | .tensor dtype shape cid => .tensor dtype shape cid
  | .ref cid hint => .ref cid hint

def resignAll (zero : UInt64) : List TermIpld → List TermIpld
  | [] => []
  | t :: ts => t.resign zero :: resignAll zero ts

end

theorem eqAll_resign {zero : UInt64} {ts : List TermIpld}
    (h : ∀ t ∈ ts, (∀ n ∈ t.numbers, isNanF64 n = false) → t.eq (t.resign zero) = true)
    (hnan : ∀ n ∈ allNumbers ts, isNanF64 n = false) : eqAll ts (resignAll zero ts) = true := by
  induction ts with
  | nil => rfl
  | cons t ts ih =>
    obtain ⟨ht, hts⟩ := List.forall_mem_cons.mp h
    rw [allNumbers, List.forall_mem_append] at hnan
    simp [resignAll, eqAll, ht hnan.1, ih hts hnan.2]

theorem eq_resign {zero : UInt64} (hzero : isZeroF64 zero = true) (t : TermIpld) :
    (∀ n ∈ t.numbers, isNanF64 n = false) → t.eq (t.resign zero) = true := by
  induction t using induct with
  | number n => simpa [numbers, eq, resign] using eqF64_resign hzero
  | compound f args ih | list items ih =>
    intro h
    simpa [eq, resign] using eqAll_resign ih h
  | atom v => simp [eq, resign]
  | var v => simp [eq, resign]
  | tensor dtype shape cid => simp [eq, resign]
  | ref cid hint => simp [eq, resign]

theorem noNan_of_eqAll {ts us : List TermIpld}
    (h : ∀ t ∈ ts, ∀ {u : TermIpld}, t.eq u = true → ∀ n ∈ t.numbers, isNanF64 n = false)
    (heq : eqAll ts us = true) : ∀ n ∈ allNumbers ts, isNanF64 n = false := by
  induction ts generalizing us with
  | nil => simp [allNumbers]
  | cons t ts ih =>
    cases us with
    | nil => simp [eqAll] at heq
    | cons u us =>
      obtain ⟨ht, hts⟩ := List.forall_mem_cons.mp h
      rw [eqAll, Bool.and_eq_true] at heq
      rw [allNumbers, List.forall_mem_append]
      exact ⟨ht heq.1, ih hts heq.2⟩

/-- A term with a NaN equals nothing. -/
theorem noNan_of_eq (t : TermIpld) {u : TermIpld} (h : t.eq u = true) :
    ∀ n ∈ t.numbers, isNanF64 n = false := by
  induction t using induct generalizing u with
  | number n =>
    cases u <;> simp only [eq, Bool.false_eq_true] at h
    simpa [numbers] using isNanF64_of_eq h
  | compound f args ih =>
    cases u <;> simp only [eq, Bool.false_eq_true, Bool.and_eq_true] at h
    exact noNan_of_eqAll (fun t ht _ => ih t ht) h.2
  | list items ih =>
    cases u <;> simp only [eq, Bool.false_eq_true] at h
    exact noNan_of_eqAll (fun t ht _ => ih t ht) h
  | atom v => simp [numbers]
  | var v => simp [numbers]
  | tensor dtype shape cid => simp [numbers]
  | ref cid hint => simp [numbers]

theorem eq_of_eqAll {ts us : List TermIpld} (h : ∀ t ∈ ts, ∀ {u : TermIpld}, t.eq u = true →
      (∀ n ∈ t.numbers, isZeroF64 n = false) → t = u)
    (heq : eqAll ts us = true) (hzero : ∀ n ∈ allNumbers ts, isZeroF64 n = false) : ts = us := by
  induction ts generalizing us with
  | nil =>
    cases us with
    | nil => rfl
    | cons u us => simp [eqAll] at heq
  | cons t ts ih =>
    cases us with
    | nil => simp [eqAll] at heq
    | cons u us =>
      obtain ⟨ht, hts⟩ := List.forall_mem_cons.mp h
      rw [eqAll, Bool.and_eq_true] at heq
      rw [allNumbers, List.forall_mem_append] at hzero
      rw [ht heq.1 hzero.1, ih hts heq.2 hzero.2]

/-- Without a zero, only the term itself is equal to it. -/
theorem eq_of_eq (t : TermIpld) {u : TermIpld} (h : t.eq u = true) :
    (∀ n ∈ t.numbers, isZeroF64 n = false) → t = u := by
  induction t using induct generalizing u with
  | number n =>
    cases u <;> simp only [eq, Bool.false_eq_true] at h
    intro hzero
    rw [eq_of_eqF64 h (by simpa [numbers] using hzero)]
  | compound f args ih =>
    cases u <;> simp only [eq, Bool.false_eq_true, Bool.and_eq_true, beq_iff_eq] at h
    intro hzero
    rw [h.1, eq_of_eqAll (fun t ht _ => ih t ht) h.2 hzero]
  | list items ih =>
    cases u <;> simp only [eq, Bool.false_eq_true] at h
    intro hzero
    rw [eq_of_eqAll (fun t ht _ => ih t ht) h hzero]
  | atom v => cases u <;> simp_all [eq]
  | var v => cases u <;> simp_all [eq]
  | tensor dtype shape cid => cases u <;> simp_all [eq]
  | ref cid hint => cases u <;> simp_all [eq]

end TermIpld

/-! ## Lengths -/

theorem length_commaSeparated (texts : List (List Char)) :
    (commaSeparated texts).length = (texts.map List.length).sum + (texts.length - 1) := by
  have hrest : ∀ l : List (List Char),
      (l.flatMap (',' :: ·)).length = (l.map List.length).sum + l.length := by
    intro l
    induction l with
    | nil => rfl
    | cons text l ih =>
      simp only [List.flatMap_cons, List.length_append, List.length_cons, ih, List.map_cons,
        List.sum_cons]
      omega
  cases texts with
  | nil => rfl
  | cons text rest =>
    simp only [commaSeparated, List.length_append, hrest, List.map_cons, List.sum_cons,
      List.length_cons]
    omega

theorem length_jsonArray (items : List (List Char)) :
    (jsonArray items).length = (items.map List.length).sum + (items.length - 1) + 2 := by
  simp [jsonArray, length_commaSeparated]

theorem length_jsonObject (entries : List (List Char)) : (jsonObject entries).length
      = (entries.map List.length).sum + (entries.length - 1) + 2 := by
  simp [jsonObject, length_commaSeparated]

theorem length_jsonEntry (key : String) (value : List Char) :
    (jsonEntry key value).length = (jsonEscape.quote key).length + 1 + value.length := by
  simp [jsonEntry, Nat.add_assoc, Nat.add_comm 1]

section

variable [F64Json] [F64Json.Lawful]

/-- The negative zero is one character longer. -/
theorem length_jsonF64_resign (n : UInt64) : (jsonF64 (resignF64 negZeroF64 n)).length
      = (jsonF64 (resignF64 0 n)).length + [n].countP isZeroF64 := by
  unfold resignF64
  split
  · next h =>
    have hneg : exponentField negZeroF64 ≠ 2047 := by decide
    have hpos : exponentField 0 ≠ 2047 := by decide
    simp [jsonF64, hneg, hpos, F64Json.Lawful.text_zero, F64Json.Lawful.text_negZero, h]
  · next h => simp [h]

namespace TermIpld

omit [F64Json.Lawful] in
theorem length_resignAll (zero : UInt64) (ts : List TermIpld) :
    (allJson (resignAll zero ts)).length = ts.length := by
  induction ts with
  | nil => rfl
  | cons t ts ih => simp [resignAll, allJson, ih]

omit [F64Json.Lawful] in
theorem sum_length_resignAll {ts : List TermIpld} (h : ∀ t ∈ ts, (t.resign negZeroF64).json.length
      = (t.resign 0).json.length + t.numbers.countP isZeroF64) :
    ((allJson (resignAll negZeroF64 ts)).map List.length).sum
      = ((allJson (resignAll 0 ts)).map List.length).sum + (allNumbers ts).countP isZeroF64 := by
  induction ts with
  | nil => rfl
  | cons t ts ih =>
    obtain ⟨ht, hts⟩ := List.forall_mem_cons.mp h
    simp only [resignAll, allJson, List.map_cons, List.sum_cons, ht, ih hts, allNumbers,
      List.countP_append]
    omega

omit [F64Json.Lawful] in
theorem length_jsonArray_resign {ts : List TermIpld}
    (h : ∀ t ∈ ts, (t.resign negZeroF64).json.length
      = (t.resign 0).json.length + t.numbers.countP isZeroF64) :
    (jsonArray (allJson (resignAll negZeroF64 ts))).length
      = (jsonArray (allJson (resignAll 0 ts))).length + (allNumbers ts).countP isZeroF64 := by
  rw [length_jsonArray, length_jsonArray, sum_length_resignAll h, length_resignAll,
    length_resignAll]
  omega

theorem length_json_resign (t : TermIpld) : (t.resign negZeroF64).json.length
      = (t.resign 0).json.length + t.numbers.countP isZeroF64 := by
  induction t using induct with
  | number n =>
    simp only [resign, json, numbers, length_jsonObject, length_jsonEntry,
      length_jsonF64_resign n, List.map_cons, List.sum_cons, List.length_cons]
    omega
  | compound f args ih | list items ih =>
    simp only [resign, json, numbers, length_jsonObject, length_jsonEntry,
      length_jsonArray_resign ih, List.map_cons, List.sum_cons, List.length_cons]
    omega
  | atom v => simp [resign, numbers]
  | var v => simp [resign, numbers]
  | tensor dtype shape cid => simp [resign, numbers]
  | ref cid hint => simp [resign, numbers]

end TermIpld

/-! ## Equal rules -/

namespace RuleIpld

def resign (zero : UInt64) (rule : RuleIpld) : RuleIpld :=
  { rule with head := rule.head.resign zero, body := TermIpld.resignAll zero rule.body }

omit [F64Json] [F64Json.Lawful] in
theorem equal_resign {zero : UInt64} (hzero : isZeroF64 zero = true) {rule : RuleIpld}
    (hnan : ∀ n ∈ rule.numbers, isNanF64 n = false) : rule.Equal (rule.resign zero) := by
  rw [numbers, List.forall_mem_append] at hnan
  exact ⟨TermIpld.eq_resign hzero _ hnan.1,
    TermIpld.eqAll_resign (fun t _ => TermIpld.eq_resign hzero t) hnan.2, List.Perm.refl _⟩

theorem length_json_resign (rule : RuleIpld) : (rule.resign negZeroF64).json.length
      = (rule.resign 0).json.length + rule.numbers.countP isZeroF64 := by
  have hitems : ∀ t ∈ rule.body, (t.resign negZeroF64).json.length
      = (t.resign 0).json.length + t.numbers.countP isZeroF64 :=
    fun t _ => TermIpld.length_json_resign t
  have hbody := TermIpld.length_jsonArray_resign hitems
  simp only [json, resign, numbers, length_jsonObject, length_jsonEntry, hbody,
    TermIpld.length_json_resign rule.head, List.map_cons, List.sum_cons, List.length_cons,
    List.countP_append]
  omega

omit [F64Json] [F64Json.Lawful] in
/-- A rule with a NaN equals nothing. -/
theorem Equal.noNan {rule other : RuleIpld} (h : rule.Equal other) :
    ∀ n ∈ rule.numbers, isNanF64 n = false := by
  rw [numbers, List.forall_mem_append]
  exact ⟨TermIpld.noNan_of_eq _ h.1,
    TermIpld.noNan_of_eqAll (fun t _ _ => TermIpld.noNan_of_eq t) h.2.1⟩

omit [F64Json] [F64Json.Lawful] in
/-- Without a zero, equal rules differ in the order of the metadata alone. -/
theorem Equal.terms {rule other : RuleIpld} (h : rule.Equal other)
    (hzero : ∀ n ∈ rule.numbers, isZeroF64 n = false) :
    rule.head = other.head ∧ rule.body = other.body := by
  rw [numbers, List.forall_mem_append] at hzero
  exact ⟨TermIpld.eq_of_eq _ h.1 hzero.1,
    TermIpld.eq_of_eqAll (fun t _ _ => TermIpld.eq_of_eq t) h.2.1 hzero.2⟩

/-- The rule with its metadata iterated in another order. -/
def reorder (rule : RuleIpld) {entries : List (String × String)}
    (h : rule.metadata.Perm entries) : RuleIpld :=
  { rule with
    metadata := entries
    distinct := (h.map Prod.fst).nodup_iff.mp rule.distinct }

omit [F64Json.Lawful] in
theorem json_congr {rule other : RuleIpld} (hhead : rule.head = other.head)
    (hbody : rule.body = other.body) (hmeta : rule.metadata = other.metadata) :
    rule.json = other.json := by
  simp only [json, hhead, hbody, hmeta]

omit [F64Json.Lawful] in
/-- Iterating the first two entries the other way round shows. -/
theorem json_swap_ne {rule : RuleIpld} {first second : String × String}
    {rest : List (String × String)} (hmeta : rule.metadata = first :: second :: rest)
    {other : RuleIpld} (hhead : other.head = rule.head) (hbody : other.body = rule.body)
    (hother : other.metadata = second :: first :: rest) : rule.json ≠ other.json := by
  intro h
  have hkeys : first.1 ≠ second.1 := by
    have hdistinct := rule.distinct
    rw [hmeta] at hdistinct
    simp only [List.map_cons, List.nodup_cons, List.mem_cons, not_or] at hdistinct
    exact hdistinct.1.1
  simp only [json, hhead, hbody, hmeta, hother, metadataJson, jsonObject, commaSeparated,
    jsonEntry, List.map_cons, List.flatMap_cons, List.flatMap_nil, List.append_assoc,
    List.cons_append, List.cons.injEq, List.append_cancel_left_eq, true_and] at h
  exact hkeys (jsonEscape.quote_inj h).1

end RuleIpld

/-! ## Identifiers -/

variable [CidCrate] [CidStream]

/-- Both ways to the CID of a rule give this one. -/
def RuleIpld.HasCid (rule : RuleIpld) (cid : Cid) : Prop :=
  ruleCid rule = .ok cid ∧ ∃ block, ruleToBlock rule = .ok block ∧ block.cid = cid

/-- The rule and every rule equal to it have one CID. -/
def RuleIpld.CidDetermined (rule : RuleIpld) : Prop :=
  ∀ other, rule.Equal other → ∃ cid, rule.HasCid cid ∧ other.HasCid cid

omit [F64Json.Lawful] in
theorem RuleIpld.hasCid_iff (rule : RuleIpld) (cid : Cid) :
    rule.HasCid cid ↔ cid = cidOf codecDagCbor rule.jsonBytes := by
  have hcid : ruleCid rule = .ok (cidOf codecDagCbor rule.jsonBytes) := rfl
  have hblock : ruleToBlock rule
      = .ok { cid := cidOf codecDagCbor rule.jsonBytes, data := rule.jsonBytes } := rfl
  simp only [HasCid, hcid, hblock, Except.ok.injEq, exists_eq_left', and_self]
  exact eq_comm

/-- The hash tells the bytes of a rule from those of the rules equal to it. -/
def RuleIpld.Separated (rule : RuleIpld) : Prop :=
  ∀ other, rule.Equal other → CidCrate.digest .sha256 rule.jsonBytes
    = CidCrate.digest .sha256 other.jsonBytes → rule.jsonBytes = other.jsonBytes

omit [F64Json.Lawful] [CidCrate] [CidStream] in
theorem RuleIpld.jsonBytes_inj {rule other : RuleIpld} (h : rule.jsonBytes = other.jsonBytes) :
    rule.json = other.json := by
  have hread := congrArg ofUtf8? h
  simp only [jsonBytes, ofUtf8?_utf8, Option.some.injEq] at hread
  exact String.ofList_injective hread

omit [F64Json.Lawful] in
theorem RuleIpld.CidDetermined.json_eq {rule other : RuleIpld} (h : rule.CidDetermined)
    (hsep : rule.Separated) (hequal : rule.Equal other) : rule.json = other.json := by
  obtain ⟨cid, hrule, hother⟩ := h other hequal
  rw [hasCid_iff] at hrule hother
  have hdigest := congrArg Cid.hash (hrule.symm.trans hother)
  exact jsonBytes_inj (hsep other hequal hdigest)

omit [F64Json.Lawful] in
theorem RuleIpld.cidDetermined_of_json {rule : RuleIpld}
    (h : ∀ other, rule.Equal other → rule.json = other.json) : rule.CidDetermined := by
  intro other hequal
  refine ⟨_, (hasCid_iff _ _).mpr rfl, (hasCid_iff _ _).mpr ?_⟩
  rw [jsonBytes, jsonBytes, h other hequal]

/-- **A rule has one CID** exactly if it equals nothing, or it has neither a zero nor a
second entry of metadata. -/
theorem RuleIpld.cidDetermined_iff (rule : RuleIpld) (hsep : rule.Separated) :
    rule.CidDetermined ↔ (∃ n ∈ rule.numbers, isNanF64 n = true) ∨
      ((∀ n ∈ rule.numbers, isZeroF64 n = false) ∧ rule.metadata.length ≤ 1) := by
  constructor
  · intro h
    by_cases hnan : ∃ n ∈ rule.numbers, isNanF64 n = true
    · exact .inl hnan
    · push Not at hnan
      simp only [ne_eq, Bool.not_eq_true] at hnan
      have hpos := equal_resign isZeroF64_zero hnan
      have hneg := equal_resign isZeroF64_negZero hnan
      have hzero : ∀ n ∈ rule.numbers, isZeroF64 n = false := by
        -- the two signs of the zeros give texts of different lengths
        have hlen := length_json_resign rule
        rw [← h.json_eq hsep hpos, ← h.json_eq hsep hneg, Nat.left_eq_add,
          List.countP_eq_zero] at hlen
        simpa using hlen
      refine .inr ⟨hzero, ?_⟩
      -- the two orders of the first entries give texts that differ in the first key
      match hmeta : rule.metadata with
      | [] => simp
      | [_] => simp
      | first :: second :: rest =>
        have hperm : rule.metadata.Perm (second :: first :: rest) :=
          hmeta ▸ List.Perm.swap _ _ _
        obtain ⟨hhead, hbody⟩ := hpos.terms hzero
        have hswapped : rule.Equal (rule.reorder hperm) :=
          ⟨hhead.symm ▸ hpos.1, hbody.symm ▸ hpos.2.1, hperm⟩
        exact absurd (h.json_eq hsep hswapped) (json_swap_ne hmeta rfl rfl rfl)
  · rintro (⟨n, hn, hnan⟩ | ⟨hzero, hmeta⟩)
    · intro other hequal
      rw [hequal.noNan n hn] at hnan
      cases hnan
    · refine cidDetermined_of_json fun other hequal => ?_
      obtain ⟨hhead, hbody⟩ := hequal.terms hzero
      have hperm := hequal.2.2
      have hsame : rule.metadata = other.metadata := by
        match hm : rule.metadata with
        | [] => exact (List.nil_perm.mp (hm ▸ hperm)).symm
        | [entry] => exact List.singleton_perm.mp (hm ▸ hperm)
        | _ :: _ :: _ => simp [hm] at hmeta
      exact json_congr hhead hbody hsame

end

namespace RuleCidSample

open scoped CidFormat

/-- The texts of the zeros and of 1.0. -/
scoped instance : F64Json where
  text bits := if bits = 0 then "0.0" else if bits = negZeroF64 then "-0.0"
    else if bits = f64One then "1.0" else ""

scoped instance : F64Json.Lawful where
  text_zero := by decide
  text_negZero := by decide

/-- `p() :- .` with a source and a version. -/
def noted : RuleIpld where
  head := .compound "p" []
  body := []
  metadata := [("source", "s"), ("version", "1")]
  distinct := by decide

/-- The same rule, its metadata iterated from the other end. -/
def renoted : RuleIpld := noted.reorder (List.Perm.swap ("version", "1") ("source", "s") [])

theorem noted_equal : noted.Equal renoted := ⟨by decide, by decide, List.Perm.swap _ _ _⟩

theorem digest_noted : CidCrate.digest .sha256 noted.jsonBytes
    ≠ CidCrate.digest .sha256 renoted.jsonBytes := by
  decide +kernel

theorem noted_separated : noted.Separated := by
  intro other hequal hdigest
  obtain ⟨hhead, hbody⟩ := hequal.terms (List.forall_mem_nil _)
  rcases List.perm_pair.mp hequal.2.2.symm with hmeta | hmeta
  · exact congrArg (utf8 ∘ String.ofList) (RuleIpld.json_congr hhead hbody hmeta.symm)
  · have hother : renoted.jsonBytes = other.jsonBytes :=
      congrArg (utf8 ∘ String.ofList) (RuleIpld.json_congr hhead hbody hmeta.symm)
    rw [← hother] at hdigest
    exact absurd hdigest digest_noted

theorem cidDetermined_iff_noted : noted.CidDetermined ↔ (∃ n ∈ noted.numbers, isNanF64 n = true) ∨
      ((∀ n ∈ noted.numbers, isZeroF64 n = false) ∧ noted.metadata.length ≤ 1) :=
  noted.cidDetermined_iff noted_separated

/-- The two orders of the metadata give one rule two CIDs. -/
theorem not_cidDetermined : ¬ ∀ rule other : RuleIpld, rule.Equal other →
      ∃ cid, rule.HasCid cid ∧ other.HasCid cid := by
  intro h
  obtain ⟨cid, hnoted, hrenoted⟩ := h noted renoted noted_equal
  rw [RuleIpld.hasCid_iff] at hnoted hrenoted
  exact digest_noted (congrArg Cid.hash (hnoted.symm.trans hrenoted))

end RuleCidSample

end Ipfrs.TensorLogic
