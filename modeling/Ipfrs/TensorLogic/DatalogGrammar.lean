/-
Ipfrs.TensorLogic.DatalogGrammar — the grammar that the parser reads.

`ReadsTerm s t r` says that the text `s` begins with the term `t` and goes on with `r`;
words are as long as they can be, and blanks and comments stand between tokens.
-/
import Ipfrs.TensorLogic.Datalog

namespace Ipfrs.TensorLogic

open Ipfrs.Lib Parse

section

variable [CharTables]

/-! ## Tokens -/

/-- A text without the blanks and comments at its start. -/
def skipBlanksFrom : Bool → List Char → List Char
  | _, [] => []
  | true, c :: cs => skipBlanksFrom (c != '\n') cs
  | false, c :: cs =>
    if CharTables.isWhitespace c then skipBlanksFrom false cs
    else if c = '%' then skipBlanksFrom true cs
    else c :: cs

def skipBlanks : List Char → List Char := skipBlanksFrom false

/-- A name: identifier characters, as many as there are. -/
def ReadsName (s : List Char) (name : String) (r : List Char) : Prop :=
  s.takeWhile isIdentifierChar ≠ [] ∧ name = String.ofList (s.takeWhile isIdentifierChar) ∧
    r = s.dropWhile isIdentifierChar

/-- A sign, if there is one, and digits. -/
def splitNumber : List Char → List Char × List Char
  | '-' :: ds => ('-' :: ds.takeWhile Char.isDigit, ds.dropWhile Char.isDigit)
  | ds => (ds.takeWhile Char.isDigit, ds.dropWhile Char.isDigit)

def ReadsNumber (s : List Char) (value : Int64) (r : List Char) : Prop :=
  parseI64 (splitNumber s).1 = some value ∧ r = (splitNumber s).2

/-- What a term is, by its first character. -/
inductive Lead where
  | var | quote | number | name | other
  deriving DecidableEq

def lead (c : Char) : Lead :=
  if c = '?' || CharTables.isUppercase c then .var
  else if c = '"' then .quote
  else if c.isDigit || c = '-' then .number
  else if CharTables.isLowercase c then .name
  else .other

/-! ## Terms -/

/-- Items with commas between, and the blanks after the last. -/
inductive ReadsItems {α : Type} (R : List Char → α → List Char → Prop) :
    List Char → List α → List Char → Prop where
  | last {s a r} : R s a r → (skipBlanks r).head? ≠ some ',' → ReadsItems R s [a] (skipBlanks r)
  | more {s a r t rest r'} : R s a r → skipBlanks r = ',' :: t →
      ReadsItems R (skipBlanks t) rest r' → ReadsItems R s (a :: rest) r'

inductive ReadsTerm : List Char → Term → List Char → Prop where
  | marked {s cs name r} : skipBlanks s = '?' :: cs → ReadsName cs name r →
      ReadsTerm s (.var name) r
  | var {s c cs name r} : skipBlanks s = c :: cs → lead c = .var → c ≠ '?' →
      ReadsName (c :: cs) name r → ReadsTerm s (.var name) r
  | string {s c cs r} : skipBlanks s = c :: cs → lead c = .quote →
      skipBlanks (cs.dropWhile (fun ch => ch != '"')) = '"' :: r →
      ReadsTerm s (.const (.string (String.ofList (cs.takeWhile (fun ch => ch != '"'))))) r
  | number {s c cs value r} : skipBlanks s = c :: cs → lead c = .number →
      ReadsNumber (c :: cs) value r → ReadsTerm s (.const (.int value)) r
  | atom {s c cs name r} : skipBlanks s = c :: cs → lead c = .name →
      ReadsName (c :: cs) name r → (skipBlanks r).head? ≠ some '(' →
      ReadsTerm s (.const (.string name)) (skipBlanks r)
  | call {s c cs name r r₁ r₂} : skipBlanks s = c :: cs → lead c = .name →
      ReadsName (c :: cs) name r → skipBlanks r = '(' :: r₁ → skipBlanks r₁ = ')' :: r₂ →
      ReadsTerm s (.func name []) r₂
  | func {s c cs name r r₁ args r₂ r₃} : skipBlanks s = c :: cs → lead c = .name →
      ReadsName (c :: cs) name r → skipBlanks r = '(' :: r₁ →
      (skipBlanks r₁).head? ≠ some ')' → ReadsItems ReadsTerm (skipBlanks r₁) args r₂ →
      skipBlanks r₂ = ')' :: r₃ → ReadsTerm s (.func name args) r₃

/-- What is between the parentheses. -/
def ReadsArgs (s : List Char) (args : List Term) (r : List Char) : Prop :=
  (s.head? = some ')' ∧ args = [] ∧ r = s) ∨
    (s.head? ≠ some ')' ∧ ReadsItems ReadsTerm s args r)

/-- A parenthesis, what is between, and the other. -/
def ReadsParens (s : List Char) (args : List Term) (r : List Char) : Prop :=
  ∃ r₁ r₂, skipBlanks s = '(' :: r₁ ∧ ReadsArgs (skipBlanks r₁) args r₂ ∧
    skipBlanks r₂ = ')' :: r

def ReadsPredicate (s : List Char) (p : Predicate) (r : List Char) : Prop :=
  ∃ r₁, ReadsName s p.name r₁ ∧ ReadsParens r₁ p.args r

inductive ReadsStatement (s : List Char) : Statement → List Char → Prop where
  | query {t t' p r r'} : skipBlanks s = '?' :: t → skipBlanks t = '-' :: t' →
      ReadsPredicate (skipBlanks t') p r → skipBlanks r = '.' :: r' → ReadsStatement s (.query p) r'
  | fact {p r r'} : (skipBlanks s).head? ≠ some '?' → ReadsPredicate (skipBlanks s) p r →
      skipBlanks r = '.' :: r' → ReadsStatement s (.fact p) r'
  | rule {p r t body r' r''} : (skipBlanks s).head? ≠ some '?' →
      ReadsPredicate (skipBlanks s) p r → skipBlanks r = ':' :: '-' :: t →
      ReadsItems ReadsPredicate (skipBlanks t) body r' → skipBlanks r' = '.' :: r'' →
      ReadsStatement s (.rule { head := p, body }) r''

/-! ## Blanks -/

theorem skipBlanksFrom_suffix (comment : Bool) (cs : List Char) :
    skipBlanksFrom comment cs <:+ cs := by
  induction cs generalizing comment with
  | nil => cases comment <;> exact List.suffix_rfl
  | cons c cs ih =>
    cases comment with
    | true => exact (ih _).trans (List.suffix_cons c cs)
    | false =>
      rw [skipBlanksFrom]
      split
      · exact (ih _).trans (List.suffix_cons c cs)
      · split
        · exact (ih _).trans (List.suffix_cons c cs)
        · exact List.suffix_rfl

theorem skipBlanks_suffix (cs : List Char) : skipBlanks cs <:+ cs :=
  skipBlanksFrom_suffix false cs

theorem skipBlanks_skipBlanksFrom (comment : Bool) (cs : List Char) :
    skipBlanks (skipBlanksFrom comment cs) = skipBlanksFrom comment cs := by
  induction cs generalizing comment with
  | nil => cases comment <;> rfl
  | cons c cs ih =>
    cases comment with
    | true => exact ih _
    | false =>
      rw [skipBlanksFrom]
      split
      · exact ih _
      · split
        · exact ih _
        · next hspace hcomment => simp [skipBlanks, skipBlanksFrom, hspace, hcomment]

@[simp] theorem skipBlanks_skipBlanks (cs : List Char) :
    skipBlanks (skipBlanks cs) = skipBlanks cs :=
  skipBlanks_skipBlanksFrom false cs

/-! ## Cases -/

theorem ReadsName.length_lt {s : List Char} {name : String} {r : List Char}
    (h : ReadsName s name r) : r.length < s.length := by
  obtain ⟨hne, -, rfl⟩ := h
  have hsplit := congrArg List.length
    (List.takeWhile_append_dropWhile (p := isIdentifierChar) (l := s))
  have hpos := List.length_pos_iff.mpr hne
  rw [List.length_append] at hsplit
  omega

theorem readsItems_iff {α : Type} {R : List Char → α → List Char → Prop} {s : List Char}
    {as : List α} {r' : List Char} : ReadsItems R s as r' ↔ ∃ a r, R s a r ∧
      (((skipBlanks r).head? ≠ some ',' ∧ as = [a] ∧ r' = skipBlanks r) ∨
        ∃ t rest, skipBlanks r = ',' :: t ∧ ReadsItems R (skipBlanks t) rest r' ∧
          as = a :: rest) := by
  constructor
  · rintro (⟨ha, hr⟩ | ⟨ha, hr, hrest⟩)
    · exact ⟨_, _, ha, .inl ⟨hr, rfl, rfl⟩⟩
    · exact ⟨_, _, ha, .inr ⟨_, _, hr, hrest, rfl⟩⟩
  · rintro ⟨a, r, ha, ⟨hr, rfl, rfl⟩ | ⟨t, rest, hr, hrest, rfl⟩⟩
    · exact .last ha hr
    · exact .more ha hr hrest

theorem lead_questionMark : lead '?' = .var := by simp [lead]

/-- What a term is, by the first character after the blanks. -/
theorem readsTerm_cons_iff {s : List Char} {c : Char} {cs : List Char}
    (hs : skipBlanks s = c :: cs) {t : Term} {r : List Char} :
    ReadsTerm s t r ↔ match lead c with
      | .var => ∃ name, t = .var name ∧ ReadsName (if c = '?' then cs else c :: cs) name r
      | .quote => t = .const (.string (String.ofList (cs.takeWhile (fun ch => ch != '"')))) ∧
          skipBlanks (cs.dropWhile (fun ch => ch != '"')) = '"' :: r
      | .number => ∃ value, t = .const (.int value) ∧ ReadsNumber (c :: cs) value r
      | .name => ∃ name r₁, ReadsName (c :: cs) name r₁ ∧
          (((skipBlanks r₁).head? ≠ some '(' ∧ t = .const (.string name) ∧ r = skipBlanks r₁) ∨
            ∃ args, t = .func name args ∧ ReadsParens r₁ args r)
      | .other => False := by
  have hsame : ∀ {c' cs'}, skipBlanks s = c' :: cs' → c' = c ∧ cs' = cs := fun hs' => by
    rw [hs, List.cons.injEq] at hs'
    exact ⟨hs'.1.symm, hs'.2.symm⟩
  constructor
  · intro h
    cases h with
    | marked hs' hname =>
      obtain ⟨rfl, rfl⟩ := hsame hs'
      rw [lead_questionMark]
      exact ⟨_, rfl, hname⟩
    | var hs' hlead hne hname =>
      obtain ⟨rfl, rfl⟩ := hsame hs'
      rw [hlead]
      exact ⟨_, rfl, by rwa [if_neg hne]⟩
    | string hs' hlead hclose =>
      obtain ⟨rfl, rfl⟩ := hsame hs'
      rw [hlead]
      exact ⟨rfl, hclose⟩
    | number hs' hlead hvalue =>
      obtain ⟨rfl, rfl⟩ := hsame hs'
      rw [hlead]
      exact ⟨_, rfl, hvalue⟩
    | atom hs' hlead hname hopen =>
      obtain ⟨rfl, rfl⟩ := hsame hs'
      rw [hlead]
      exact ⟨_, _, hname, .inl ⟨hopen, rfl, rfl⟩⟩
    | call hs' hlead hname hopen hclose =>
      obtain ⟨rfl, rfl⟩ := hsame hs'
      rw [hlead]
      refine ⟨_, _, hname, .inr ⟨_, rfl, _, _, hopen, .inl ⟨?_, rfl, rfl⟩, ?_⟩⟩
      · rw [hclose]
        rfl
      · rw [skipBlanks_skipBlanks, hclose]
    | func hs' hlead hname hopen hnone hitems hclose =>
      obtain ⟨rfl, rfl⟩ := hsame hs'
      rw [hlead]
      exact ⟨_, _, hname, .inr ⟨_, rfl, _, _, hopen, .inr ⟨hnone, hitems⟩, hclose⟩⟩
  · intro h
    cases hlead : lead c with
    | var =>
      rw [hlead] at h
      obtain ⟨name, rfl, hname⟩ := h
      by_cases hc : c = '?'
      · rw [if_pos hc] at hname
        exact .marked (hc ▸ hs) hname
      · rw [if_neg hc] at hname
        exact .var hs hlead hc hname
    | quote =>
      rw [hlead] at h
      obtain ⟨rfl, hclose⟩ := h
      exact .string hs hlead hclose
    | number =>
      rw [hlead] at h
      obtain ⟨value, rfl, hvalue⟩ := h
      exact .number hs hlead hvalue
    | name =>
      rw [hlead] at h
      obtain ⟨name, r₁, hname, ⟨hopen, rfl, rfl⟩ |
        ⟨args, rfl, r₂, r₃, hopen, ⟨hnone, rfl, rfl⟩ | ⟨hnone, hitems⟩, hclose⟩⟩ := h
      · exact .atom hs hlead hname hopen
      · rw [skipBlanks_skipBlanks] at hclose
        exact .call hs hlead hname hopen hclose
      · exact .func hs hlead hname hopen hnone hitems hclose
    | other =>
      rw [hlead] at h
      exact absurd h id

theorem not_readsTerm_nil {s : List Char} (hs : skipBlanks s = []) {t : Term} {r : List Char} :
    ¬ ReadsTerm s t r := by
  intro h
  cases h <;> simp_all

end

end Ipfrs.TensorLogic
