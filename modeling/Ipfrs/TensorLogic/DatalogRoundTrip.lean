/-
Ipfrs.TensorLogic.DatalogRoundTrip — rules that are read back.

The text of a term begins with no blank, and what follows it in a rule ends it: a comma, a
parenthesis or a full stop. So every part of the text of a rule is read as that part
(`readsStatement_display`), and `parse_rule` gives the rule back, with words for its booleans.
-/
import Ipfrs.TensorLogic.DatalogTheorems

namespace Ipfrs.TensorLogic

open Ipfrs.Core Ipfrs.Lib Parse DebugText DebugText.Printer

section

variable [CharTables] [CharTables.Lawful]

/-! ## Characters -/

variable {c : Char} {name : String} {r : List Char}

theorem isIdentifierChar_ascii (h : c.toNat < 128) :
    isIdentifierChar c = (c.isAlphanum || c == '_') := by
  rw [isIdentifierChar, CharTables.Lawful.alphanumeric_ascii c h]

/-- A character that begins a token. -/
def Solid (c : Char) : Prop := CharTables.isWhitespace c = false ∧ c ≠ '%'

theorem solid_ascii (h : c.toNat < 128)
    (hc : (c == ' ' || decide (9 ≤ c.toNat ∧ c.toNat ≤ 13) || c == '%') = false) : Solid c := by
  rw [Bool.or_eq_false_iff] at hc
  exact ⟨by rw [CharTables.Lawful.whitespace_ascii c h, hc.1], by simpa using hc.2⟩

omit [CharTables.Lawful] in
theorem skipBlanks_solid (h : Solid c) (cs : List Char) : skipBlanks (c :: cs) = c :: cs := by
  simp [skipBlanks, skipBlanksFrom, h.1, h.2]

theorem skipBlanks_space (cs : List Char) : skipBlanks (' ' :: cs) = skipBlanks cs := by
  have hspace : CharTables.isWhitespace ' ' = true := by
    rw [CharTables.Lawful.whitespace_ascii ' ' (by decide)]
    decide
  simp [skipBlanks, skipBlanksFrom, hspace]

theorem solid_of_identifierChar (h : isIdentifierChar c = true) : Solid c := by
  rw [isIdentifierChar, Bool.or_eq_true, beq_iff_eq] at h
  rcases h with h | rfl
  · refine ⟨CharTables.Lawful.not_whitespace c h, ?_⟩
    rintro rfl
    rw [CharTables.Lawful.alphanumeric_ascii '%' (by decide)] at h
    exact absurd h (by decide)
  · exact solid_ascii (by decide) (by decide)

/-- A text that begins with no blank and no closing parenthesis. -/
def Begins (text : List Char) : Prop := ∃ c cs, text = c :: cs ∧ Solid c ∧ c ≠ ')'

omit [CharTables.Lawful] in
theorem Begins.skipBlanks {text : List Char} (h : Begins text) (r : List Char) :
    skipBlanks (text ++ r) = text ++ r := by
  obtain ⟨c, cs, rfl, hc, -⟩ := h
  exact skipBlanks_solid hc (cs ++ r)

theorem IsIdentifier.begins (h : IsIdentifier name) : Begins name.toList := by
  obtain ⟨c, cs, hname⟩ := List.exists_cons_of_ne_nil h.1
  have hc := h.2 c (hname ▸ List.mem_cons_self)
  refine ⟨c, cs, hname, solid_of_identifierChar hc, ?_⟩
  rintro rfl
  rw [isIdentifierChar_ascii (by decide)] at hc
  exact absurd hc (by decide)

/-! ## Words and numbers -/

/-- A text that goes on with a character that no name and no number contains. -/
def Ends (r : List Char) : Prop :=
  ∃ c cs, r = c :: cs ∧ (c = ',' ∨ c = ')' ∨ c = '(' ∨ c = '.')

theorem Ends.not_identifierChar (h : Ends r) : ∀ c ∈ r.head?, isIdentifierChar c = false := by
  obtain ⟨d, cs, rfl, hd⟩ := h
  rintro c hc
  obtain rfl : d = c := by simpa using hc
  rcases hd with rfl | rfl | rfl | rfl <;> rw [isIdentifierChar_ascii (by decide)] <;> decide

omit [CharTables] [CharTables.Lawful] in
theorem Ends.not_digit (h : Ends r) : ∀ c ∈ r.head?, c.isDigit = false := by
  obtain ⟨d, cs, rfl, hd⟩ := h
  rintro c hc
  obtain rfl : d = c := by simpa using hc
  rcases hd with rfl | rfl | rfl | rfl <;> decide

theorem readsName_display (h : IsIdentifier name) (hr : Ends r) :
    ReadsName (name.toList ++ r) name r := by
  obtain ⟨htake, hdrop⟩ := takeWhile_stop _ h.2 hr.not_identifierChar
  rw [ReadsName, htake, hdrop, String.ofList_toList]
  exact ⟨h.1, rfl, rfl⟩

omit [CharTables] [CharTables.Lawful] in
theorem splitNumber_intText (value : Int) (hr : Ends r) :
    splitNumber (intText value ++ r) = (intText value, r) := by
  have hdigits : ∀ n : Nat, ((Nat.toDigits 10 n ++ r).takeWhile Char.isDigit
      = Nat.toDigits 10 n) ∧ (Nat.toDigits 10 n ++ r).dropWhile Char.isDigit = r := fun n =>
    takeWhile_stop _ (fun _ hc => isDigit_of_mem_toDigits hc) hr.not_digit
  cases value with
  | ofNat n =>
    rw [intText]
    unfold splitNumber
    split
    · next ds hds =>
      obtain ⟨d, ds', hd⟩ := List.exists_cons_of_ne_nil (Nat.toDigits_ne_nil (n := n) (b := 10))
      rw [hd] at hds
      have hminus : d = '-' := (List.cons.inj hds).1
      have hdigit := isDigit_of_mem_toDigits (n := n) (hd ▸ List.mem_cons_self)
      rw [hminus] at hdigit
      exact absurd hdigit (by decide)
    · rw [(hdigits n).1, (hdigits n).2]
  | negSucc n =>
    rw [intText, List.cons_append, splitNumber, (hdigits (n + 1)).1, (hdigits (n + 1)).2]

omit [CharTables] [CharTables.Lawful] in
/-- A number begins with a digit or a minus sign. -/
theorem intText_head (value : Int) :
    ∃ c cs, intText value = c :: cs ∧ (c.isDigit || c = '-') = true := by
  cases value with
  | ofNat n =>
    obtain ⟨c, cs, hc⟩ := List.exists_cons_of_ne_nil (Nat.toDigits_ne_nil (n := n) (b := 10))
    have hdigit := isDigit_of_mem_toDigits (n := n) (hc ▸ List.mem_cons_self)
    exact ⟨c, cs, hc, by rw [hdigit, Bool.true_or]⟩
  | negSucc n => exact ⟨'-', _, rfl, by decide⟩

/-! ## Kinds of terms -/

omit [CharTables] [CharTables.Lawful] in
/-- A check of the characters of ASCII. -/
theorem of_ascii (property : Char → Bool) (h : ∀ n < 128, property (Char.ofNat n) = true)
    (hc : c.toNat < 128) : property c = true := by
  have hn := h c.toNat hc
  rwa [Char.ofNat_toNat] at hn

omit [CharTables] [CharTables.Lawful] in
theorem toNat_lt_of_digit (h : (c.isDigit || c = '-') = true) : c.toNat < 128 := by
  rw [Bool.or_eq_true, decide_eq_true_eq] at h
  rcases h with h | rfl
  · have hrange := Char.isDigit_iff_toNat.mp h
    have hnine : '9'.toNat = 57 := rfl
    omega
  · decide

theorem lead_digit (h : (c.isDigit || c = '-') = true) : lead c = .number := by
  have hascii := toNat_lt_of_digit h
  have hother : (!(c.isDigit || c = '-') ||
      (!(c = '?' || c.isUpper) && c != '"')) = true :=
    of_ascii (fun c => !(c.isDigit || c = '-') ||
      (!(c = '?' || c.isUpper) && c != '"')) (by decide) hascii
  rw [h, Bool.not_true, Bool.false_or, Bool.and_eq_true, Bool.not_eq_true', bne_iff_ne] at hother
  rw [lead, CharTables.Lawful.uppercase_ascii c hascii, if_neg (Bool.eq_false_iff.mp hother.1),
    if_neg hother.2, if_pos h]

theorem lead_lowercase (h : CharTables.isLowercase c = true) : lead c = .name := by
  have hupper := CharTables.Lawful.not_uppercase c h
  have hother : (c = '?' || c = '"' || (c.isDigit || c = '-')) = false := by
    rw [Bool.eq_false_iff]
    intro hc
    have hascii : c.toNat < 128 := by
      simp only [Bool.or_eq_true, decide_eq_true_eq] at hc
      rcases hc with (rfl | rfl) | hc
      · decide
      · decide
      · exact toNat_lt_of_digit (by simpa using hc)
    have hlower : (!(c = '?' || c = '"' || (c.isDigit || c = '-')) || !c.isLower) = true :=
      of_ascii (fun c => !(c = '?' || c = '"' || (c.isDigit || c = '-'))
        || !c.isLower) (by decide) hascii
    rw [CharTables.Lawful.lowercase_ascii c hascii] at h
    rw [hc, h] at hlower
    exact absurd hlower (by decide)
  simp only [Bool.or_eq_false_iff, decide_eq_false_iff_not] at hother
  obtain ⟨⟨hmark, hquote⟩, hdigit, hminus⟩ := hother
  simp [lead, hmark, hupper, hquote, hdigit, hminus, h]

theorem lead_quotationMark : lead '"' = .quote := by
  simp [lead, CharTables.Lawful.uppercase_ascii '"' (by decide)]

/-! ## Lists -/

omit [CharTables] [CharTables.Lawful] in
theorem commaSpaced_cons (text next : List Char) (rest : List (List Char)) :
    commaSpaced (text :: next :: rest) = text ++ ',' :: ' ' :: commaSpaced (next :: rest) := by
  simp [commaSpaced]

theorem solid_comma : Solid ',' := solid_ascii (by decide) (by decide)

/-- Items that are each read before a comma and before the character after the last. -/
theorem readsItems_commaSpaced {α : Type} {R : List Char → α → List Char → Prop}
    {text : α → List Char} {back : α → α} {close : Char} (hsolid : Solid close)
    (hclose : close ≠ ',') (r : List Char) {as : List α} (hne : as ≠ [])
    (hitem : ∀ a ∈ as, Begins (text a) ∧ ∀ c cs, (c = ',' ∨ c = close) →
      R (text a ++ c :: cs) (back a) (c :: cs)) :
    ReadsItems R (commaSpaced (as.map text) ++ close :: r) (as.map back) (close :: r) := by
  induction as with
  | nil => exact absurd rfl hne
  | cons a as ih =>
    obtain ⟨hbegins, hread⟩ := hitem a List.mem_cons_self
    cases as with
    | nil =>
      have hlast := ReadsItems.last (hread close r (.inr rfl))
        (by rw [skipBlanks_solid hsolid]; simpa using hclose)
      rw [skipBlanks_solid hsolid] at hlast
      simpa [commaSpaced] using hlast
    | cons b as =>
      have hrest := ih (List.cons_ne_nil b as) fun x hx =>
        hitem x (List.mem_cons_of_mem a hx)
      have hnext := (hitem b (by simp)).1
      obtain ⟨tail, htail⟩ : ∃ tail,
          commaSpaced ((b :: as).map text) ++ close :: r = text b ++ tail :=
        ⟨_, by rw [List.map_cons, commaSpaced, List.append_assoc]⟩
      rw [htail] at hrest
      rw [List.map_cons, List.map_cons, commaSpaced_cons, ← List.map_cons,
        List.append_assoc, List.cons_append, List.cons_append, htail]
      refine .more (hread ',' _ (.inl rfl)) (skipBlanks_solid solid_comma _) ?_
      rw [skipBlanks_space, hnext.skipBlanks]
      exact hrest

/-! ## Terms -/

theorem solid_close : Solid ')' := solid_ascii (by decide) (by decide)

variable [CidStream]

/-- A term is read before a comma and before a closing parenthesis. -/
def ReadBefore (t : Term) : Prop :=
  Begins t.display ∧ ∀ c cs, (c = ',' ∨ c = ')') →
    ReadsTerm (t.display ++ c :: cs) t.readBack (c :: cs)

/-- What is between two parentheses. -/
theorem readsParens_display {args : List Term} (hargs : ∀ t ∈ args, ReadBefore t) (r : List Char) :
    ReadsParens ('(' :: (commaSpaced (args.map Term.display) ++ ')' :: r))
      (args.map Term.readBack) r := by
  refine ⟨_, ')' :: r, skipBlanks_solid (solid_ascii (by decide) (by decide)) _, ?_,
    skipBlanks_solid solid_close r⟩
  cases args with
  | nil =>
    left
    exact ⟨by simp [commaSpaced, skipBlanks_solid solid_close], rfl,
      (skipBlanks_solid solid_close r).symm⟩
  | cons t ts =>
    right
    obtain ⟨c, cs, htext, hc, hne⟩ := (hargs t List.mem_cons_self).1
    obtain ⟨tail, htail⟩ : ∃ tail, commaSpaced ((t :: ts).map Term.display) ++ ')' :: r
        = c :: tail := ⟨_, by rw [List.map_cons, commaSpaced, htext]; rfl⟩
    have hitems := readsItems_commaSpaced solid_close (by decide) r (List.cons_ne_nil t ts) hargs
    rw [htail] at hitems ⊢
    rw [skipBlanks_solid hc]
    exact ⟨by simpa using hne, hitems⟩

theorem readBefore_var {v : String} (h : IsIdentifier v) : ReadBefore (.var v) := by
  have hmark : Solid '?' := solid_ascii (by decide) (by decide)
  refine ⟨⟨'?', _, rfl, hmark, by decide⟩, fun c cs hc => ?_⟩
  have hends : Ends (c :: cs) := ⟨c, cs, rfl, by rcases hc with rfl | rfl <;> simp⟩
  exact .marked (skipBlanks_solid hmark _) (readsName_display h hends)

theorem readBefore_string {text : String} (h : ∀ c ∈ text.toList, c ≠ '"') :
    ReadBefore (.const (.string text)) := by
  have hquote : Solid '"' := solid_ascii (by decide) (by decide)
  refine ⟨⟨'"', _, rfl, hquote, by decide⟩, fun c cs hc => ?_⟩
  obtain ⟨htake, hdrop⟩ := takeWhile_stop (fun ch => ch != '"') (r := '"' :: c :: cs)
    (fun ch hch => by simpa using h ch hch) (by simp)
  have hread : ReadsTerm ('"' :: (text.toList ++ '"' :: c :: cs)) _ (c :: cs) :=
    .string (skipBlanks_solid hquote _) lead_quotationMark
      (by rw [hdrop, skipBlanks_solid hquote])
  rw [htake, String.ofList_toList] at hread
  simpa [Term.display, Constant.display, Term.readBack, Constant.readBack] using hread

theorem readBefore_int (i : Int64) : ReadBefore (.const (.int i)) := by
  obtain ⟨d, ds, htext, hd⟩ := intText_head i.toInt
  have hsolid : Solid d := by
    have hcheck : (!(d.isDigit || d = '-') ||
        !(d == ' ' || decide (9 ≤ d.toNat ∧ d.toNat ≤ 13) || d == '%')) = true :=
      of_ascii (fun c => !(c.isDigit || c = '-') ||
        !(c == ' ' || decide (9 ≤ c.toNat ∧ c.toNat ≤ 13) || c == '%')) (by decide)
        (toNat_lt_of_digit hd)
    rw [hd, Bool.not_true, Bool.false_or, Bool.not_eq_true'] at hcheck
    exact solid_ascii (toNat_lt_of_digit hd) hcheck
  refine ⟨⟨d, ds, htext, hsolid, ?_⟩, fun c cs hc => ?_⟩
  · rintro rfl
    exact absurd hd (by decide)
  · have hends : Ends (c :: cs) := ⟨c, cs, rfl, by rcases hc with rfl | rfl <;> simp⟩
    have hsplit := splitNumber_intText i.toInt hends
    have hstart : skipBlanks (intText i.toInt ++ c :: cs) = d :: (ds ++ c :: cs) := by
      rw [htext]
      exact skipBlanks_solid hsolid _
    refine .number hstart (lead_digit hd) ?_
    rw [← List.cons_append, ← htext, ReadsNumber, hsplit]
    exact ⟨parseI64_intText i, rfl⟩

omit [CharTables] [CharTables.Lawful] [CidStream] in
theorem boolText_ascii (b : Bool) : boolText b ≠ [] ∧
    ∀ c ∈ boolText b, c.toNat < 128 ∧ c.isLower = true ∧ c.isAlphanum = true := by
  have hall : (boolText b).all (fun c => decide (c.toNat < 128) && (c.isLower && c.isAlphanum))
      = true := by
    cases b <;> decide
  refine ⟨by cases b <;> decide, fun c hc => ?_⟩
  simpa using List.all_eq_true.mp hall c hc

/-- The word of a boolean is an atom. -/
theorem readBefore_bool (b : Bool) : ReadBefore (.const (.bool b)) := by
  obtain ⟨hne, hascii⟩ := boolText_ascii b
  have hname : IsIdentifier (String.ofList (boolText b)) := by
    rw [IsIdentifier, String.toList_ofList]
    refine ⟨hne, fun c hc => ?_⟩
    rw [isIdentifierChar_ascii (hascii c hc).1, (hascii c hc).2.2, Bool.true_or]
  obtain ⟨d, ds, htext, hd, hparen⟩ := hname.begins
  rw [String.toList_ofList] at htext
  have hlead : lead d = .name := by
    obtain ⟨hsmall, hlower, -⟩ := hascii d (htext ▸ List.mem_cons_self)
    exact lead_lowercase (by rw [CharTables.Lawful.lowercase_ascii d hsmall, hlower])
  refine ⟨⟨d, ds, htext, hd, hparen⟩, fun c cs hc => ?_⟩
  have hends : Ends (c :: cs) := ⟨c, cs, rfl, by rcases hc with rfl | rfl <;> simp⟩
  have hsolid : skipBlanks (c :: cs) = c :: cs := by
    rcases hc with rfl | rfl
    · exact skipBlanks_solid solid_comma cs
    · exact skipBlanks_solid solid_close cs
  have hword := readsName_display hname hends
  have hstart : skipBlanks (boolText b ++ c :: cs) = d :: (ds ++ c :: cs) := by
    rw [htext]
    exact skipBlanks_solid hd _
  rw [String.toList_ofList, htext] at hword
  have hopen : (skipBlanks (c :: cs)).head? ≠ some '(' := by
    rw [hsolid]
    rcases hc with rfl | rfl <;> simp
  have hread := ReadsTerm.atom hstart hlead hword hopen
  rw [hsolid, ← htext] at hread
  exact hread

theorem readBefore_func {args : List Term} (h : IsIdentifier name) (hlower : BeginsLowercase name)
    (hargs : ∀ t ∈ args, ReadBefore t) : ReadBefore (.func name args) := by
  obtain ⟨d, ds, htext, hd, hne⟩ := h.begins
  have hlead := lead_lowercase (hlower d (by rw [htext]; rfl))
  refine ⟨⟨d, _, by rw [Term.display, htext]; rfl, hd, hne⟩, fun c cs _ => ?_⟩
  have hends : Ends ('(' :: (commaSpaced (args.map Term.display) ++ ')' :: c :: cs)) :=
    ⟨'(', _, rfl, by simp⟩
  have hparens := readsParens_display hargs (c :: cs)
  have hword := readsName_display h hends
  have hdisplay : (Term.func name args).display ++ c :: cs
      = name.toList ++ '(' :: (commaSpaced (args.map Term.display) ++ ')' :: c :: cs) := by
    simp [Term.display, Term.allDisplay_eq_map]
  rw [hdisplay, htext]
  rw [htext] at hword
  refine (readsTerm_cons_iff (skipBlanks_solid hd _)).mpr ?_
  rw [hlead]
  refine ⟨name, _, hword, .inr ⟨_, ?_, hparens⟩⟩
  rw [Term.readBack, Term.allReadBack_eq_map]

theorem readBefore_display {t : Term} (hprint : t.Printable) (hlower : t.LowercaseFunctions) :
    ReadBefore t := by
  induction hprint with
  | var hv => exact readBefore_var hv
  | const hc =>
    rename_i c
    cases c with
    | string text => exact readBefore_string fun ch hch => (hc ch hch).1
    | int i => exact readBefore_int i
    | bool b => exact readBefore_bool b
    | float text => exact absurd hc id
  | func hname _ ih =>
    cases hlower with
    | func hbegins hargs => exact readBefore_func hname hbegins fun t ht => ih t ht (hargs t ht)

/-! ## Rules -/

omit [CidStream] in
theorem IsIdentifier.head_ne (h : IsIdentifier name) (r : List Char) :
    (name.toList ++ r).head? ≠ some '?' := by
  obtain ⟨c, cs, hname⟩ := List.exists_cons_of_ne_nil h.1
  have hc := h.2 c (hname ▸ List.mem_cons_self)
  rw [hname, List.cons_append, List.head?_cons, ne_eq, Option.some.injEq]
  rintro rfl
  rw [isIdentifierChar_ascii (by decide)] at hc
  exact absurd hc (by decide)

theorem readsPredicate_display {p : Predicate} (hprint : p.Printable)
    (hlower : p.LowercaseFunctions) (r : List Char) :
    ReadsPredicate (p.display ++ r) p.readBack r := by
  have hends : Ends ('(' :: (commaSpaced (p.args.map Term.display) ++ ')' :: r)) :=
    ⟨'(', _, rfl, by simp⟩
  have hdisplay : p.display ++ r
      = p.name.toList ++ '(' :: (commaSpaced (p.args.map Term.display) ++ ')' :: r) := by
    simp [Predicate.display]
  rw [hdisplay]
  exact ⟨_, readsName_display hprint.1 hends, readsParens_display
    (fun t ht => readBefore_display (hprint.2 t ht) (hlower t ht)) r⟩

theorem Predicate.Printable.begins {p : Predicate} (hprint : p.Printable) : Begins p.display := by
  obtain ⟨c, cs, htext, hc, hne⟩ := hprint.1.begins
  exact ⟨c, _, by rw [Predicate.display, htext]; rfl, hc, hne⟩

omit [CidStream] in
theorem solid_stop : Solid '.' := solid_ascii (by decide) (by decide)

/-- What a rule is read as: a fact, if it has no body. -/
def Rule.asStatement (rule : Rule) : Statement :=
  if rule.body.isEmpty then .fact rule.head.readBack else .rule rule.readBack

/-- **The text of a rule is read** as the rule. -/
theorem readsStatement_display {rule : Rule} (hprint : rule.Printable)
    (hlower : rule.LowercaseFunctions) : ReadsStatement rule.display rule.asStatement [] := by
  obtain ⟨head, body⟩ := rule
  obtain ⟨hhead, hbody⟩ := hprint
  have hstart := hhead.begins.skipBlanks
  have hread : ∀ r, ReadsPredicate (skipBlanks (head.display ++ r)) head.readBack r := fun r => by
    rw [hstart]
    exact readsPredicate_display hhead hlower.1 r
  have hmark : ∀ r, (skipBlanks (head.display ++ r)).head? ≠ some '?' := fun r => by
    rw [hstart, Predicate.display, List.append_assoc]
    exact hhead.1.head_ne _
  cases body with
  | nil => exact .fact (hmark _) (hread _) (skipBlanks_solid solid_stop [])
  | cons p ps =>
    have hdisplay : (Rule.mk head (p :: ps)).display = head.display ++ ' ' :: ':' :: '-' :: ' ' ::
        (commaSpaced ((p :: ps).map Predicate.display) ++ '.' :: []) := by
      simp [Rule.display]
    have hitems := readsItems_commaSpaced (R := ReadsPredicate) solid_stop (by decide) []
      (List.cons_ne_nil p ps) fun q hq => ⟨(hbody q hq).begins, fun c cs _ =>
        readsPredicate_display (hbody q hq) (hlower.2 q hq) (c :: cs)⟩
    obtain ⟨tail, htail⟩ : ∃ tail, commaSpaced ((p :: ps).map Predicate.display) ++ '.' :: []
        = p.display ++ tail := ⟨_, by rw [List.map_cons, commaSpaced, List.append_assoc]⟩
    have hpstart := (hbody p List.mem_cons_self).begins.skipBlanks tail
    have harrow : skipBlanks (' ' :: ':' :: '-' :: ' ' :: (p.display ++ tail))
        = ':' :: '-' :: ' ' :: (p.display ++ tail) := by
      rw [skipBlanks_space, skipBlanks_solid (solid_ascii (by decide) (by decide))]
    rw [← hpstart, ← skipBlanks_space] at htail
    rw [htail] at hitems
    rw [hdisplay]
    rw [skipBlanks_space, hpstart] at htail
    rw [htail]
    exact .rule (hmark _) (hread _) harrow hitems (skipBlanks_solid solid_stop [])

/-! ## Parsing -/

theorem parseStatement_toString {rule : Rule} (hprint : rule.Printable)
    (hlower : rule.LowercaseFunctions) {rounds : Nat}
    (hrounds : rule.toString.toList.length < rounds) :
    (parseStatement rounds (DatalogParser.new rule.toString)).1 = .ok rule.asStatement := by
  have hread := readsStatement_display hprint hlower
  have htext : rule.toString.toList = rule.display := String.toList_ofList
  rw [htext] at hrounds
  have hparse := (reads_parseStatement List.suffix_rfl hrounds hread.not_trapped).complete hread
  rw [new_eq, htext, hparse.2]

omit [CharTables] [CharTables.Lawful] [CidStream] in
theorem Term.readBack_eq (t : Term) : t.hasBoolean = false → t.readBack = t := by
  induction t using Term.induct with
  | var v => exact fun _ => rfl
  | ref r => exact fun _ => rfl
  | const c => cases c <;> simp [hasBoolean, readBack, Constant.readBack]
  | func name args ih =>
    intro h
    rw [readBack, allReadBack_eq_map]
    congr 1
    induction args with
    | nil => rfl
    | cons t ts ihArgs =>
      rw [hasBoolean, anyBoolean, Bool.or_eq_false_iff] at h
      obtain ⟨ht, hts⟩ := List.forall_mem_cons.mp ih
      rw [List.map_cons, ht h.1, ihArgs hts h.2]

omit [CharTables] [CharTables.Lawful] [CidStream] in
theorem Predicate.readBack_eq {p : Predicate} (h : p.hasBoolean = false) : p.readBack = p := by
  rw [hasBoolean, List.any_eq_false] at h
  have hargs : p.args.map Term.readBack = p.args :=
    (List.map_congr_left (g := id) fun t ht => t.readBack_eq (by simpa using h t ht)).trans
      (List.map_id _)
  rw [readBack, hargs]

omit [CharTables] [CharTables.Lawful] [CidStream] in
theorem Rule.readBack_eq {rule : Rule} (h : rule.hasBoolean = false) : rule.readBack = rule := by
  rw [hasBoolean, Bool.or_eq_false_iff, List.any_eq_false] at h
  have hbody : rule.body.map Predicate.readBack = rule.body :=
    (List.map_congr_left (g := id) fun p hp => Predicate.readBack_eq
      (by simpa using h.2 p hp)).trans (List.map_id _)
  rw [readBack, Predicate.readBack_eq h.1, hbody]

/-- **Printing and parsing agree** on rules with a body; a fact is read by `parse_fact`, and
a boolean comes back as its word. -/
theorem parseRule_toString (rule : Rule) (hprint : rule.Printable)
    (hlower : rule.LowercaseFunctions) {rounds : Nat}
    (hrounds : rule.toString.toList.length < rounds) :
    (rule.body ≠ [] → parseRule rounds rule.toString = .ok rule.readBack) ∧
      (rule.body = [] →
        parseRule rounds rule.toString
          = .error (.error { message := "Expected a rule", position := 0 }) ∧
        parseFact rounds rule.toString = .ok rule.head.readBack) ∧
      (rule.hasBoolean = false → rule.readBack = rule) := by
  have hparse := parseStatement_toString hprint hlower hrounds
  refine ⟨fun hbody => ?_, fun hbody => ?_, Rule.readBack_eq⟩
  · have hstatement : rule.asStatement = .rule rule.readBack := by
      rw [Rule.asStatement, if_neg (by simpa using hbody)]
    rw [parseRule, parseAs, hparse, hstatement]
  · have hstatement : rule.asStatement = .fact rule.head.readBack := by
      rw [Rule.asStatement, if_pos (by simpa using hbody)]
    rw [parseRule, parseFact, parseAs, parseAs, hparse, hstatement]
    exact ⟨rfl, rfl⟩

end

namespace DatalogSample

open scoped CidFormat

scoped instance asciiTables_lawful : CharTables.Lawful where
  alphanumeric_ascii _ _ := rfl
  uppercase_ascii _ _ := rfl
  lowercase_ascii _ _ := rfl
  whitespace_ascii _ _ := rfl
  not_whitespace c h := by
    change c.isAlphanum = true at h
    change (c == ' ' || decide (9 ≤ c.toNat ∧ c.toNat ≤ 13)) = false
    rw [Bool.eq_false_iff]
    intro hspace
    have hascii : c.toNat < 128 := by
      simp only [Bool.or_eq_true, beq_iff_eq, decide_eq_true_eq] at hspace
      rcases hspace with rfl | hspace
      · decide
      · omega
    have hcheck : (!(c == ' ' || decide (9 ≤ c.toNat ∧ c.toNat ≤ 13)) || !c.isAlphanum) = true :=
      of_ascii (fun c => !(c == ' ' || decide (9 ≤ c.toNat ∧ c.toNat ≤ 13)) || !c.isAlphanum)
        (by decide) hascii
    rw [hspace, h] at hcheck
    exact absurd hcheck (by decide)
  not_uppercase c h := by
    change (decide (c.val ≥ 'a'.val) && decide (c.val ≤ 'z'.val)) = true at h
    change decide (c.val ≥ 'A'.val ∧ c.val ≤ 'Z'.val) = false
    simp only [Bool.and_eq_true, decide_eq_true_eq, ge_iff_le, UInt32.le_iff_toNat_le] at h
    simp only [decide_eq_false_iff_not, ge_iff_le, UInt32.le_iff_toNat_le]
    have ha : 'a'.val.toNat = 97 := rfl
    have hz : 'Z'.val.toNat = 90 := rfl
    omega

theorem isIdentifier_of_all {name : String} (hne : name.toList ≠ [])
    (h : name.toList.all isIdentifierChar = true) : IsIdentifier name :=
  ⟨hne, List.all_eq_true.mp h⟩

/-- `near(?X, at("home", -7)) :- place(?X).` -/
def nearHome : Rule where
  head :=
    { name := "near"
      args := [.var "X", .func "at" [.const (.string "home"), .const (.int (-7))]] }
  body := [{ name := "place", args := [.var "X"] }]

theorem parseRule_toString_nearHome :
    (nearHome.body ≠ [] → parseRule 40 nearHome.toString = .ok nearHome.readBack) ∧
      (nearHome.body = [] →
        parseRule 40 nearHome.toString
          = .error (.error { message := "Expected a rule", position := 0 }) ∧
        parseFact 40 nearHome.toString = .ok nearHome.head.readBack) ∧
      (nearHome.hasBoolean = false → nearHome.readBack = nearHome) := by
  have hX : IsIdentifier "X" := isIdentifier_of_all (by decide) (by decide)
  refine parseRule_toString nearHome ⟨⟨?_, ?_⟩, ?_⟩ ⟨?_, ?_⟩ (by decide)
  · exact isIdentifier_of_all (by decide) (by decide)
  · intro t ht
    rcases List.mem_pair.mp ht with rfl | rfl
    · exact .var hX
    · refine .func (isIdentifier_of_all (by decide) (by decide)) fun t ht => ?_
      rcases List.mem_pair.mp ht with rfl | rfl
      · refine .const fun c hc => ?_
        have hall : "home".toList.all (fun c => c != '"' && c != '\\') = true := by decide
        simpa using List.all_eq_true.mp hall c hc
      · exact .const trivial
  · intro p hp
    obtain rfl := List.mem_singleton.mp hp
    refine ⟨isIdentifier_of_all (by decide) (by decide), fun t ht => ?_⟩
    obtain rfl := List.mem_singleton.mp ht
    exact .var hX
  · intro t ht
    rcases List.mem_pair.mp ht with rfl | rfl
    · exact .var
    · refine .func (fun c hc => ?_) fun t ht => ?_
      · obtain rfl : 'a' = c := by simpa using hc
        rfl
      · rcases List.mem_pair.mp ht with rfl | rfl <;> exact .const
  · intro p hp t ht
    obtain rfl := List.mem_singleton.mp hp
    obtain rfl := List.mem_singleton.mp ht
    exact .var

/-- A printable rule that is not read back. -/
def Disagrees (rule : Rule) : Prop :=
  rule.Printable ∧ ∃ rounds, rule.toString.toList.length < rounds ∧
    parseRule rounds rule.toString ≠ .ok rule

def single (t : Term) (body : List Predicate) : Rule where
  head := { name := "p", args := [t] }
  body

/-- `p(1).`, `p(true) :- q().` and `p(F()) :- q().` -/
theorem not_parseRule_toString :
    Disagrees (single (.const (.int 1)) []) ∧
      Disagrees (single (.const (.bool true)) [{ name := "q", args := [] }]) ∧
      Disagrees (single (.func "F" []) [{ name := "q", args := [] }]) := by
  have hp : IsIdentifier "p" := isIdentifier_of_all (by decide) (by decide)
  have hq : Predicate.Printable { name := "q", args := [] } :=
    ⟨isIdentifier_of_all (by decide) (by decide), by simp⟩
  have hprint : ∀ {t body}, t.Printable → (∀ p ∈ body, p.Printable) →
      (single t body).Printable := fun ht hbody =>
    ⟨⟨hp, fun u hu => List.mem_singleton.mp hu ▸ ht⟩, hbody⟩
  refine ⟨⟨hprint (.const trivial) (by simp), 6, by decide, by decide⟩,
    ⟨hprint (.const trivial) (by simpa using hq), 20, by decide +kernel, by decide +kernel⟩,
    ⟨hprint (.func ?_ (by simp)) (by simpa using hq), 20, by decide, by decide⟩⟩
  exact isIdentifier_of_all (by decide) (by decide)

end DatalogSample

end Ipfrs.TensorLogic
