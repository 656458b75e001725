/-
Ipfrs.TensorLogic.SymbolicRoundTrip — what a printed expression is read as.

The tokenizer makes of a printed expression the tokens one expects (`tokens`), and the
parser makes of these the expression's `reading`: sums and products regrouped from the left,
a negative number as the negation of a positive one. All of this keeps the value. Powers are
the exception: `-b ^ x` and `b ^ c ^ x` are printed without the parentheses they need, so
where a power is negated, or is the base of another, the reading is another expression.
-/
import Ipfrs.TensorLogic.SymbolicText
import Ipfrs.TensorLogic.SymbolicTheorems

namespace Ipfrs.TensorLogic.Symbolic

open Ipfrs.Lib.DebugText Ipfrs.Lib.DebugText.Printer

/-! ## From the text to its tokens -/

/-- What is documented of the text functions: ASCII, and that no letter is a blank. -/
class SesText.Lawful (F : Type) [SesText F] : Prop where
  whitespace_ascii : ∀ c : Char, c.toNat < 128 →
    SesText.isWhitespace F c = (c == ' ' || decide (9 ≤ c.toNat ∧ c.toNat ≤ 13))
  alphabetic_ascii : ∀ c : Char, c.toNat < 128 → SesText.isAlphabetic F c = c.isAlpha
  numeric_ascii : ∀ c : Char, c.toNat < 128 → SesText.isNumeric F c = c.isDigit
  not_whitespace : ∀ c, SesText.isAlphabetic F c = true → SesText.isWhitespace F c = false
  lowercase_ascii : ∀ s : String, (∀ c ∈ s.toList, c.toNat < 128) →
    SesText.toLowercase F s = String.ofList (s.toList.map Char.toLower)

/-- What may follow a number or a name in a printed expression. -/
def Stops (r : List Char) : Prop := ∀ c ∈ r.head?, c = ' ' ∨ c = '(' ∨ c = ')' ∨ c = '|'

def parenTokens {F : Type} (ts : List (Token F)) (myPrec parentPrec : Precedence) :
    List (Token F) :=
  if myPrec.rank < parentPrec.rank then .lParen :: (ts ++ [.rParen]) else ts

/-- The tokens of the text of an expression. -/
def tokens {F : Type} [Field F] [LinearOrder F] : SesExpr F → Precedence → List (Token F)
  | .num v, _ => if v < 0 then [.minus, .num (-v)] else [.num v]
  | .var name, _ => [.ident name]
  | .add l r, parentPrec =>
    parenTokens (tokens l .addSub ++ .plus :: tokens r .addSub) .addSub parentPrec
  | .sub l r, parentPrec =>
    parenTokens (tokens l .addSub ++ .minus :: tokens r .mulDiv) .addSub parentPrec
  | .mul l r, parentPrec =>
    parenTokens (tokens l .mulDiv ++ .star :: tokens r .mulDiv) .mulDiv parentPrec
  | .div l r, parentPrec =>
    parenTokens (tokens l .mulDiv ++ .slash :: tokens r .unary) .mulDiv parentPrec
  | .pow b exp, parentPrec =>
    parenTokens (tokens b .unary ++ .caret :: tokens exp .pow) .pow parentPrec
  | .neg inner, parentPrec => parenTokens (.minus :: tokens inner .unary) .unary parentPrec
  | .abs inner, _ => .pipe :: (tokens inner .lowest ++ [.pipe])
  | .sqrt inner, _ => .ident "sqrt" :: .lParen :: (tokens inner .lowest ++ [.rParen])
  | .sin inner, _ => .ident "sin" :: .lParen :: (tokens inner .lowest ++ [.rParen])
  | .cos inner, _ => .ident "cos" :: .lParen :: (tokens inner .lowest ++ [.rParen])
  | .exp inner, _ => .ident "exp" :: .lParen :: (tokens inner .lowest ++ [.rParen])
  | .ln inner, _ => .ident "ln" :: .lParen :: (tokens inner .lowest ++ [.rParen])

theorem toNat_of_isDigit {c : Char} (h : c.isDigit) : 48 ≤ c.toNat ∧ c.toNat ≤ 57 := by
  rw [Char.isDigit, Bool.and_eq_true, decide_eq_true_eq, decide_eq_true_eq] at h
  exact h

theorem not_startsNumber {c : Char} (hdigit : c.isDigit = false) (hpoint : c ≠ '.')
    (cs : List Char) : startsNumber c cs = false := by
  rw [startsNumber, hdigit, beq_eq_false_iff_ne.mpr hpoint]
  rfl

/-- The characters of single tokens are no blanks, and begin neither a number nor a name. -/
theorem plain_of_symbol {c : Char} {F : Type} {t : Token F} (h : symbol F c = some t) :
    c.toNat < 128 ∧ (c == ' ' || decide (9 ≤ c.toNat ∧ c.toNat ≤ 13)) = false ∧
      c.isDigit = false ∧ c ≠ '.' ∧ (c.isAlpha || c == '_') = false := by
  unfold symbol at h
  split at h
  all_goals first
    | decide
    | cases h

/-- The functions that are printed with their names. -/
def functionNames : List String := ["sqrt", "sin", "cos", "exp", "ln"]

theorem letters_of_functionNames {name : String} (h : name ∈ functionNames) :
    name.toList ≠ [] ∧ ∀ c ∈ name.toList, c.toNat < 128 ∧ c.isAlpha := by
  have hall : functionNames.all (fun name => !name.toList.isEmpty
      && name.toList.all fun c => decide (c.toNat < 128) && c.isAlpha) = true := by decide
  simpa using List.all_eq_true.mp hall name h

theorem not_isExponentMark {c : Char} (h : c.isDigit) : isExponentMark c = false := by
  rw [isExponentMark, Bool.or_eq_false_iff, beq_eq_false_iff_ne, beq_eq_false_iff_ne]
  constructor <;> rintro rfl <;> cases h

theorem splitNumber_append {digits : List Char} (h : ∀ c ∈ digits, c.isDigit) {r : List Char}
    (hr : Stops r) : splitNumber (digits ++ r) = (digits, r) := by
  have hall : ∀ c ∈ digits, isNumberChar c = true := fun c hc => by
    rw [isNumberChar, h c hc]
    rfl
  have hstop : ∀ c ∈ r.head?, isNumberChar c = false := by
    intro c hc
    rcases hr c hc with rfl | rfl | rfl | rfl <;> rfl
  obtain ⟨htake, hdrop⟩ := takeWhile_stop isNumberChar hall hstop
  rw [splitNumber, htake, hdrop]
  cases r with
  | nil => rfl
  | cons c r =>
    have hmark : isExponentMark c = false := by
      rcases hr c rfl with rfl | rfl | rfl | rfl <;> rfl
    simp only [hmark, Bool.false_eq_true, if_false]

section Tokenize

variable (F : Type) [Field F] [SesText F]

/-- An identifier of the tokenizer. -/
def IsIdent (name : String) : Prop :=
  ∃ c cs, name.toList = c :: cs ∧ startsIdent F c ∧ ∀ d ∈ cs, isIdentChar F d

/-- The text of the tokens, before what may follow it. -/
def Tokenizes (text : List Char) (ts : List (Token F)) : Prop :=
  ∀ r ts', Stops r → tokenize F r = .ok ts' → tokenize F (text ++ r) = .ok (ts ++ ts')

variable {F}

theorem tokenize_ident {c : Char} {cs : List Char} (hblank : SesText.isWhitespace F c = false)
    (hnumber : startsNumber c cs = false) (hident : startsIdent F c) {ts : List (Token F)}
    (hts : tokenize F ((c :: cs).dropWhile (isIdentChar F)) = .ok ts) : tokenize F (c :: cs)
      = .ok (.ident (String.ofList ((c :: cs).takeWhile (isIdentChar F))) :: ts) := by
  rw [tokenize, hblank, if_neg Bool.false_ne_true,
    dif_neg (by rw [hnumber]; exact Bool.false_ne_true), dif_pos hident]
  dsimp only
  rw [hts]
  rfl

theorem tokenize_number {c : Char} {cs : List Char} {v : F} {text rest : List Char}
    (hblank : SesText.isWhitespace F c = false) (hnumber : startsNumber c cs)
    (hsplit : splitNumber (c :: cs) = (text, rest)) (hv : parseF64 F text = some v)
    {ts : List (Token F)} (hts : tokenize F rest = .ok ts) :
    tokenize F (c :: cs) = .ok (.num v :: ts) := by
  rw [tokenize, hblank, if_neg Bool.false_ne_true, dif_pos hnumber]
  dsimp only
  rw [hsplit]
  dsimp only
  rw [hv, hts]
  rfl

omit [SesText F] in
theorem parseF64_toDigits (n : Nat) : parseF64 F (Nat.toDigits 10 n) = some (n : F) := by
  have hdigits : ∀ c ∈ Nat.toDigits 10 n, c.isDigit = true := fun c => isDigit_of_mem_toDigits
  have hmarks : ∀ c ∈ Nat.toDigits 10 n, (!isExponentMark c) = true := fun c hc => by
    rw [not_isExponentMark (hdigits c hc)]
    rfl
  simp only [parseF64, decimal, List.takeWhile_eq_self_iff.mpr hmarks,
    List.dropWhile_eq_nil_iff.mpr hmarks, List.takeWhile_eq_self_iff.mpr hdigits,
    List.dropWhile_eq_nil_iff.mpr hdigits, Nat.toDigits_ne_nil, if_false,
    Nat.ofDigitChars_ten_toDigits]

variable [SesText.Lawful F]

omit [Field F] in
theorem isIdentChar_ascii {c : Char} (h : c.toNat < 128) :
    isIdentChar F c = (c.isAlpha || c.isDigit || c == '_') := by
  rw [isIdentChar, isAlphanumeric, SesText.Lawful.alphabetic_ascii c h,
    SesText.Lawful.numeric_ascii c h]

omit [Field F] in
theorem startsIdent_ascii {c : Char} (h : c.toNat < 128) :
    startsIdent F c = (c.isAlpha || c == '_') := by
  rw [startsIdent, SesText.Lawful.alphabetic_ascii c h]

theorem tokenize_space (cs : List Char) : tokenize F (' ' :: cs) = tokenize F cs := by
  rw [tokenize, if_pos (by rw [SesText.Lawful.whitespace_ascii _ (by decide)]; rfl)]

theorem tokenize_symbol {c : Char} {t : Token F} (h : symbol F c = some t) {cs : List Char}
    {ts : List (Token F)} (hcs : tokenize F cs = .ok ts) :
    tokenize F (c :: cs) = .ok (t :: ts) := by
  obtain ⟨hascii, hblank, hdigit, hpoint, hletter⟩ := plain_of_symbol h
  rw [tokenize, SesText.Lawful.whitespace_ascii c hascii, hblank, if_neg Bool.false_ne_true,
    dif_neg (by rw [not_startsNumber hdigit hpoint]; exact Bool.false_ne_true),
    dif_neg (by rw [startsIdent_ascii hascii, hletter]; exact Bool.false_ne_true), h, hcs]
  rfl

omit [Field F] in
theorem not_isDigit_of_startsIdent {c : Char} (h : startsIdent F c) : c.isDigit = false := by
  by_contra hdigit
  rw [Bool.not_eq_false] at hdigit
  rw [startsIdent_ascii ((toNat_of_isDigit hdigit).2.trans_lt (by decide)), Bool.or_eq_true,
    beq_iff_eq] at h
  rcases h with h | rfl
  · grind [Char.isDigit, Char.isAlpha, Char.isUpper, Char.isLower]
  · cases hdigit

theorem tokenizes_ident {name : String} (h : IsIdent F name) :
    Tokenizes F name.toList [.ident name] := by
  intro r ts' hr hts'
  obtain ⟨c, cs, hname, hc, hcs⟩ := h
  have hstop : ∀ d ∈ r.head?, isIdentChar F d = false := by
    intro d hd
    rcases hr d hd with rfl | rfl | rfl | rfl <;>
      exact (isIdentChar_ascii (by decide)).trans (by decide)
  have hall : ∀ d ∈ c :: cs, isIdentChar F d = true :=
    List.forall_mem_cons.mpr ⟨isIdentChar_of_startsIdent F hc, hcs⟩
  obtain ⟨htake, hdrop⟩ := takeWhile_stop (isIdentChar F) hall hstop
  have hblank : SesText.isWhitespace F c = false := by
    rcases Bool.or_eq_true_iff.mp hc with halpha | hunderscore
    · exact SesText.Lawful.not_whitespace c halpha
    · obtain rfl := beq_iff_eq.mp hunderscore
      rw [SesText.Lawful.whitespace_ascii _ (by decide)]
      rfl
  have hpoint : c ≠ '.' := by
    rintro rfl
    rw [startsIdent_ascii (by decide)] at hc
    cases hc
  have hnumber := not_startsNumber (not_isDigit_of_startsIdent hc) hpoint (cs ++ r)
  rw [List.cons_append] at htake hdrop
  rw [hname, List.cons_append, tokenize_ident hblank hnumber hc (by rw [hdrop]; exact hts'), htake,
    ← hname, String.ofList_toList]
  rfl

theorem tokenizes_toDigits (n : Nat) : Tokenizes F (Nat.toDigits 10 n) [.num (n : F)] := by
  intro r ts' hr hts'
  have hdigits : ∀ c ∈ Nat.toDigits 10 n, c.isDigit = true := fun c => isDigit_of_mem_toDigits
  have hsplit := splitNumber_append hdigits hr
  have hv := parseF64_toDigits (F := F) n
  obtain ⟨c, cs, hc⟩ := List.exists_cons_of_ne_nil (Nat.toDigits_ne_nil (n := n) (b := 10))
  have hdigit : c.isDigit = true := hdigits c (hc ▸ List.mem_cons_self)
  have hblank : SesText.isWhitespace F c = false := by
    rw [SesText.Lawful.whitespace_ascii c (((toNat_of_isDigit hdigit).2.trans_lt (by decide)))]
    have h48 := (toNat_of_isDigit hdigit).1
    rw [Bool.or_eq_false_iff, beq_eq_false_iff_ne, decide_eq_false_iff_not]
    exact ⟨fun h => by rw [h] at h48; exact absurd h48 (by decide), by omega⟩
  rw [hc] at hsplit hv ⊢
  rw [List.cons_append] at hsplit ⊢
  refine tokenize_number hblank ?_ hsplit hv hts'
  rw [startsNumber, hdigit]
  rfl

namespace Tokenizes

theorem symbol {c : Char} {t : Token F} (hc : symbol F c = some t) {text : List Char}
    {ts : List (Token F)} (h : Tokenizes F text ts) : Tokenizes F (c :: text) (t :: ts) :=
  fun r ts' hr hts' => tokenize_symbol hc (h r ts' hr hts')

theorem binary {c : Char} {t : Token F} (hc : Symbolic.symbol F c = some t)
    {left right : List Char} {ls rs : List (Token F)} (hl : Tokenizes F left ls)
    (hr : Tokenizes F right rs) :
    Tokenizes F (left ++ ([' ', c, ' '] ++ right)) (ls ++ t :: rs) := by
  intro r ts' hstops hts'
  have hright := hr r ts' hstops hts'
  rw [← tokenize_space] at hright
  have hop := tokenize_symbol hc hright
  rw [← tokenize_space] at hop
  have hleft := hl _ _ (fun d hd => .inl (Option.mem_some.mp hd).symm) hop
  simpa only [List.append_assoc, List.cons_append, List.nil_append] using hleft

/-- Between brackets, or bars. -/
theorem closed (c d : Char) {t t' : Token F} (ht : Symbolic.symbol F c = some t)
    (ht' : Symbolic.symbol F d = some t') (hstop : d = ')' ∨ d = '|') {text : List Char}
    {ts : List (Token F)} (h : Tokenizes F text ts) :
    Tokenizes F (c :: (text ++ [d])) (t :: (ts ++ [t'])) := by
  refine symbol ht fun r ts' hr hts' => ?_
  have hstops : Stops (d :: r) := fun x hx => .inr (.inr (Option.mem_some.mp hx ▸ hstop))
  have htext := h _ _ hstops (tokenize_symbol ht' hts')
  simpa only [List.append_assoc, List.cons_append, List.nil_append] using htext

theorem call {name : String} (hname : IsIdent F name) {text : List Char} {ts : List (Token F)}
    (h : Tokenizes F text ts) : Tokenizes F (name.toList ++ '(' :: (text ++ [')']))
      (.ident name :: .lParen :: (ts ++ [.rParen])) := by
  intro r ts' hr hts'
  have hargs := closed '(' ')' rfl rfl (.inl rfl) h r ts' hr hts'
  have hcall := tokenizes_ident hname _ _ (fun d hd => .inr (.inl (Option.mem_some.mp hd).symm))
    hargs
  simpa only [List.append_assoc, List.cons_append, List.nil_append] using hcall

theorem parenIf {text : String} {ts : List (Token F)} (h : Tokenizes F text.toList ts)
    (myPrec parentPrec : Precedence) :
    Tokenizes F (parenIf text myPrec parentPrec).toList (parenTokens ts myPrec parentPrec) := by
  rw [Symbolic.parenIf, parenTokens]
  split
  · have hparen := closed '(' ')' rfl rfl (.inl rfl) h
    simpa using hparen
  · exact h

end Tokenizes

omit [Field F] in
theorem isIdent_function {name : String} (h : name ∈ functionNames) : IsIdent F name := by
  obtain ⟨hne, hletters⟩ := letters_of_functionNames h
  obtain ⟨c, cs, hcs⟩ := List.exists_cons_of_ne_nil hne
  rw [hcs] at hletters
  obtain ⟨⟨hascii, halpha⟩, htail⟩ := List.forall_mem_cons.mp hletters
  refine ⟨c, cs, hcs, ?_, fun d hd => ?_⟩
  · rw [startsIdent_ascii hascii, halpha]
    rfl
  · rw [isIdentChar_ascii (htail d hd).1, (htail d hd).2]
    rfl

end Tokenize

section Printed

variable {F : Type} [Field F] [LinearOrder F] [SesText F]

/-- Numbers are integers below 10^15, names are identifiers. -/
def Printable : SesExpr F → Prop
  | .num v => ∃ n : ℤ, v = n ∧ |n| < 10 ^ 15
  | .var name => IsIdent F name
  | .add l r | .sub l r | .mul l r | .div l r | .pow l r => Printable l ∧ Printable r
  | .neg i | .abs i | .sqrt i | .sin i | .cos i | .exp i | .ln i => Printable i

variable [IsStrictOrderedRing F] [FloorRing F] [SesText.Lawful F]

theorem tokenizes_num {v : F} {n : ℤ} (hv : v = n) (hn : |n| < 10 ^ 15) (p : Precedence) :
    Tokenizes F (infixStr (.num v) p).toList (tokens (.num v) p) := by
  have hbound : |(n : F)| < 10 ^ 15 := by exact_mod_cast hn
  rw [hv, infixStr, if_pos ⟨Int.fract_intCast n, hbound⟩, Int.floor_intCast, tokens,
    String.toList_ofList]
  cases n with
  | ofNat n =>
    rw [if_neg (by simp), intText]
    simpa using tokenizes_toDigits (F := F) n
  | negSucc n =>
    rw [if_pos (by exact_mod_cast Int.negSucc_lt_zero n), intText, Int.cast_negSucc, neg_neg]
    exact (tokenizes_toDigits (n + 1)).symbol rfl

theorem tokenizes_infixStr {e : SesExpr F} (h : Printable e) (p : Precedence) :
    Tokenizes F (infixStr e p).toList (tokens e p) := by
  induction e generalizing p with
  | num v =>
    obtain ⟨n, hv, hn⟩ := h
    exact tokenizes_num hv hn p
  | var name => exact tokenizes_ident h
  | add l r ihl ihr =>
    refine Tokenizes.parenIf ?_ _ _
    simpa using (ihl h.1 .addSub).binary (c := '+') rfl (ihr h.2 .addSub)
  | sub l r ihl ihr =>
    refine Tokenizes.parenIf ?_ _ _
    simpa using (ihl h.1 .addSub).binary (c := '-') rfl (ihr h.2 .mulDiv)
  | mul l r ihl ihr =>
    refine Tokenizes.parenIf ?_ _ _
    simpa using (ihl h.1 .mulDiv).binary (c := '*') rfl (ihr h.2 .mulDiv)
  | div l r ihl ihr =>
    refine Tokenizes.parenIf ?_ _ _
    simpa using (ihl h.1 .mulDiv).binary (c := '/') rfl (ihr h.2 .unary)
  | pow l r ihl ihr =>
    refine Tokenizes.parenIf ?_ _ _
    simpa using (ihl h.1 .unary).binary (c := '^') rfl (ihr h.2 .pow)
  | neg i ih =>
    refine Tokenizes.parenIf ?_ _ _
    simpa using (ih h .unary).symbol (c := '-') rfl
  | abs i ih => simpa [infixStr, tokens] using (ih h .lowest).closed '|' '|' rfl rfl (.inr rfl)
  | sqrt i ih =>
    have hname : IsIdent F "sqrt" := isIdent_function (by decide)
    simpa [infixStr, tokens] using (ih h .lowest).call hname
  | sin i ih =>
    have hname : IsIdent F "sin" := isIdent_function (by decide)
    simpa [infixStr, tokens] using (ih h .lowest).call hname
  | cos i ih =>
    have hname : IsIdent F "cos" := isIdent_function (by decide)
    simpa [infixStr, tokens] using (ih h .lowest).call hname
  | exp i ih =>
    have hname : IsIdent F "exp" := isIdent_function (by decide)
    simpa [infixStr, tokens] using (ih h .lowest).call hname
  | ln i ih =>
    have hname : IsIdent F "ln" := isIdent_function (by decide)
    simpa [infixStr, tokens] using (ih h .lowest).call hname

end Printed

/-! ## From the tokens to an expression -/

section Parser

variable {F : Type} [LinearOrder F] [SesText F] {ts rest rest' : List (Token F)}
  {lhs rhs e x : SesExpr F}

/-- A part of the parser reads an expression and leaves the rest. -/
def Reads {P : List (Token F) → Prop}
    (result : Except SesError (SesExpr F × {rest : List (Token F) // P rest})) (e : SesExpr F)
    (rest : List (Token F)) : Prop :=
  ∃ h, result = .ok (e, ⟨rest, h⟩)

/-- What follows is none of some tokens. -/
def Follows (barred : List (Token F)) (ts : List (Token F)) : Prop := ∀ t ∈ ts.head?, t ∉ barred

omit [LinearOrder F] [SesText F] in
theorem Follows.mono {barred barred' : List (Token F)} (hsub : barred' ⊆ barred)
    (h : Follows barred ts) : Follows barred' ts :=
  fun t ht hmem => h t ht (hsub hmem)

omit [LinearOrder F] [SesText F] in
theorem follows_cons {barred : List (Token F)} {t : Token F} (h : t ∉ barred)
    (ts : List (Token F)) : Follows barred (t :: ts) := by
  intro t' ht'
  cases ht'
  exact h

theorem expect_eq (t : Token F) (ts : List (Token F)) :
    expect t (t :: ts) = .ok ((), ⟨ts, Nat.lt_succ_self _⟩) := if_pos rfl

theorem reads_num (v : F) (ts : List (Token F)) : Reads (parseAtom (.num v :: ts)) (.num v) ts := by
  rw [parseAtom]
  exact ⟨_, rfl⟩

theorem reads_var (name : String) (h : Follows [.lParen] ts) :
    Reads (parseAtom (.ident name :: ts)) (.var name) ts := by
  rw [parseAtom]
  · exact ⟨_, rfl⟩
  · rintro ts' rfl
    exact h _ rfl List.mem_cons_self

theorem reads_call {name : String} (hcall : functionCall F name e = .ok x)
    (h : Reads (parseExpr ts) e (.rParen :: rest)) :
    Reads (parseAtom (.ident name :: .lParen :: ts)) x rest := by
  obtain ⟨hlt, hread⟩ := h
  rw [parseAtom, hread]
  simp only [bind, Except.bind, expect_eq, hcall]
  exact ⟨_, rfl⟩

theorem reads_paren (h : Reads (parseExpr ts) e (.rParen :: rest)) :
    Reads (parseAtom (.lParen :: ts)) e rest := by
  obtain ⟨hlt, hread⟩ := h
  rw [parseAtom, hread]
  simp only [bind, Except.bind, expect_eq]
  exact ⟨_, rfl⟩

theorem reads_bars (h : Reads (parseExpr ts) e (.pipe :: rest)) :
    Reads (parseAtom (.pipe :: ts)) (.abs e) rest := by
  obtain ⟨hlt, hread⟩ := h
  rw [parseAtom, hread]
  simp only [bind, Except.bind, expect_eq]
  exact ⟨_, rfl⟩

theorem reads_neg (h : Reads (parseUnary ts) e rest) :
    Reads (parseUnary (.minus :: ts)) (.neg e) rest := by
  obtain ⟨hlt, hread⟩ := h
  rw [parseUnary, hread]
  exact ⟨_, rfl⟩

theorem reads_unary (hts : ∀ ts', ts ≠ .minus :: ts') (h : Reads (parseAtom ts) e rest) :
    Reads (parseUnary ts) e rest := by
  rwa [parseUnary]
  exact hts

theorem reads_power (h : Reads (parseUnary ts) e rest) (hrest : Follows [.caret] rest) :
    Reads (parsePower ts) e rest := by
  obtain ⟨hlt, hread⟩ := h
  rw [parsePower, hread]
  cases rest with
  | nil => exact ⟨_, rfl⟩
  | cons t rest =>
    cases t with
    | caret => exact absurd List.mem_cons_self (hrest _ rfl)
    | _ => exact ⟨_, rfl⟩

theorem reads_pow (hbase : Reads (parseUnary ts) e (.caret :: rest))
    (hexp : Reads (parsePower rest) x rest') : Reads (parsePower ts) (.pow e x) rest' := by
  obtain ⟨hlt, hread⟩ := hbase
  obtain ⟨hlt', hread'⟩ := hexp
  rw [parsePower, hread]
  simp only [bind, Except.bind, hread']
  exact ⟨_, rfl⟩

theorem reads_multiplicative (h : Reads (parsePower ts) lhs rest)
    (hloop : Reads (multiplicativeLoop lhs rest) e rest') :
    Reads (parseMultiplicative ts) e rest' := by
  obtain ⟨hlt, hread⟩ := h
  obtain ⟨hle, hread'⟩ := hloop
  rw [parseMultiplicative, hread]
  simp only [bind, Except.bind, hread']
  exact ⟨_, rfl⟩

theorem reads_additive (h : Reads (parseMultiplicative ts) lhs rest)
    (hloop : Reads (additiveLoop lhs rest) e rest') : Reads (parseAdditive ts) e rest' := by
  obtain ⟨hlt, hread⟩ := h
  obtain ⟨hle, hread'⟩ := hloop
  rw [parseAdditive, hread]
  simp only [bind, Except.bind, hread']
  exact ⟨_, rfl⟩

theorem multiplicativeLoop_stop (h : Follows [.star, .slash] ts) :
    Reads (multiplicativeLoop lhs ts) lhs ts := by
  rw [multiplicativeLoop]
  · exact ⟨_, rfl⟩
  · rintro ts' rfl
    exact h _ rfl List.mem_cons_self
  · rintro ts' rfl
    exact h _ rfl (List.mem_cons_of_mem _ List.mem_cons_self)

theorem additiveLoop_stop (h : Follows [.plus, .minus] ts) :
    Reads (additiveLoop lhs ts) lhs ts := by
  rw [additiveLoop]
  · exact ⟨_, rfl⟩
  · rintro ts' rfl
    exact h _ rfl List.mem_cons_self
  · rintro ts' rfl
    exact h _ rfl (List.mem_cons_of_mem _ List.mem_cons_self)

/-- A part of the parser reads the tokens as the expression, if what follows is not barred. -/
def ReadsAs (part : (ts : List (Token F)) → Parsed (SesExpr F) ts) (barred toks : List (Token F))
    (e : SesExpr F) : Prop :=
  ∀ ts, Follows barred ts → Reads (part (toks ++ ts)) e ts

/-! Powers, from the right. -/

/-- `u ^ v ^ …`, with the exponents in a list. -/
def power : SesExpr F → List (SesExpr F) → SesExpr F
  | u, [] => u
  | u, v :: us => .pow u (power v us)

/-- The tokens of a base and of exponents, with carets between them. -/
inductive Powers : List (Token F) → SesExpr F → List (SesExpr F) → Prop
  | one {toks : List (Token F)} {u : SesExpr F} :
      ReadsAs parseUnary [.lParen] toks u → Powers toks u []
  | caret {toks toks' : List (Token F)} {u v : SesExpr F} {us : List (SesExpr F)} :
      ReadsAs parseUnary [.lParen] toks u → Powers toks' v us →
        Powers (toks ++ .caret :: toks') u (v :: us)

namespace Powers

variable {toks toks' : List (Token F)} {u v : SesExpr F} {us vs : List (SesExpr F)}

theorem append (h : Powers toks u us) (h' : Powers toks' v vs) :
    Powers (toks ++ .caret :: toks') u (us ++ v :: vs) := by
  induction h with
  | one hu => exact .caret hu h'
  | caret hu _ ih => simpa only [List.append_assoc, List.cons_append] using caret hu ih

theorem neg (h : Powers toks u us) : Powers (.minus :: toks) (.neg u) us := by
  cases h with
  | one hu => exact .one fun ts hts => reads_neg (hu ts hts)
  | caret hu hus =>
    rw [← List.cons_append]
    exact .caret (fun ts hts => reads_neg (hu ts hts)) hus

theorem reads (h : Powers toks u us) : ReadsAs parsePower [.lParen, .caret] toks (power u us) := by
  induction h with
  | one hu =>
    intro ts hts
    exact reads_power (hu ts (hts.mono (by simp))) (hts.mono (by simp))
  | caret hu _ ih =>
    intro ts hts
    rw [List.append_assoc]
    exact reads_pow (hu _ (follows_cons (by simp) _)) (ih ts hts)

end Powers

/-! Operators that group to the left. -/

/-- A loop of the parser over operators and their operands. -/
structure LeftAssoc (F Op : Type) [LinearOrder F] [SesText F] where
  token : Op → Token F
  apply : Op → SesExpr F → SesExpr F → SesExpr F
  operand : (ts : List (Token F)) → Parsed (SesExpr F) ts
  loop : SesExpr F → (ts : List (Token F)) →
    Except SesError (SesExpr F × {rest : List (Token F) // rest.length ≤ ts.length})
  whole : (ts : List (Token F)) → Parsed (SesExpr F) ts
  barred : List (Token F)
  token_not_barred : ∀ o, token o ∉ barred
  reads_whole : ∀ {ts rest rest' lhs e}, Reads (operand ts) lhs rest →
    Reads (loop lhs rest) e rest' → Reads (whole ts) e rest'
  reads_step : ∀ o {ts rest rest' lhs rhs e}, Reads (operand ts) rhs rest →
    Reads (loop (apply o lhs rhs) rest) e rest' → Reads (loop lhs (token o :: ts)) e rest'
  reads_stop : ∀ {ts lhs}, Follows barred ts → (∀ o, Follows [token o] ts) →
    Reads (loop lhs ts) lhs ts

namespace LeftAssoc

variable {Op : Type} (level : LeftAssoc F Op)

def build (e : SesExpr F) (operands : List (Op × SesExpr F)) : SesExpr F :=
  operands.foldl (fun e x => level.apply x.1 e x.2) e

/-- The tokens of operands, with operators between them. -/
inductive Chain : List (Token F) → SesExpr F → List (Op × SesExpr F) → Prop
  | one {toks : List (Token F)} {e : SesExpr F} :
      ReadsAs level.operand level.barred toks e → Chain toks e []
  | step (o : Op) {toks toks' : List (Token F)} {e e' : SesExpr F} {l : List (Op × SesExpr F)} :
      Chain toks e l → ReadsAs level.operand level.barred toks' e' →
        Chain (toks ++ level.token o :: toks') e (l ++ [(o, e')])

variable {level}

theorem Chain.append (o : Op) {toks toks' : List (Token F)} {e e' : SesExpr F}
    {l l' : List (Op × SesExpr F)} (h : level.Chain toks e l) (h' : level.Chain toks' e' l') :
    level.Chain (toks ++ level.token o :: toks') e (l ++ (o, e') :: l') := by
  induction h' with
  | one he => exact .step o h he
  | step o' _ he ih => simpa only [List.append_assoc, List.cons_append] using Chain.step o' ih he

/-- The loop goes on with what the chain has built. -/
theorem Chain.reads_loop {toks : List (Token F)} {e : SesExpr F} {l : List (Op × SesExpr F)}
    (h : level.Chain toks e l) {ts rest : List (Token F)} {x : SesExpr F}
    (hts : Follows level.barred ts) (hloop : Reads (level.loop (level.build e l) ts) x rest) :
    Reads (level.whole (toks ++ ts)) x rest := by
  induction h generalizing ts with
  | one he => exact level.reads_whole (he ts hts) hloop
  | step o _ he ih =>
    rw [List.append_assoc, List.cons_append]
    refine ih (follows_cons (level.token_not_barred o) _) (level.reads_step o (he ts hts) ?_)
    rwa [build, List.foldl_append] at hloop

theorem Chain.reads {toks : List (Token F)} {e : SesExpr F} {l : List (Op × SesExpr F)}
    (h : level.Chain toks e l) {barred : List (Token F)} (hbarred : level.barred ⊆ barred)
    (hops : ∀ o, level.token o ∈ barred) : ReadsAs level.whole barred toks (level.build e l) :=
  fun _ hts => h.reads_loop (hts.mono hbarred) (level.reads_stop (hts.mono hbarred)
    fun o => hts.mono (List.cons_subset.mpr ⟨hops o, List.nil_subset _⟩))

end LeftAssoc

inductive AdditiveOp
  | add
  | sub
  deriving DecidableEq

inductive MultiplicativeOp
  | mul
  | div
  deriving DecidableEq

variable (F) in
/-- Products and quotients of powers. -/
def products : LeftAssoc F MultiplicativeOp where
  token
    | .mul => .star
    | .div => .slash
  apply
    | .mul => .mul
    | .div => .div
  operand := parsePower
  loop := multiplicativeLoop
  whole := parseMultiplicative
  barred := [.lParen, .caret]
  token_not_barred o := by cases o <;> simp
  reads_whole := reads_multiplicative
  reads_step o _ _ _ _ _ _ := by
    rintro ⟨hlt, hread⟩ ⟨hle, hread'⟩
    cases o with
    | mul | div =>
      rw [multiplicativeLoop, hread]
      simp only [bind, Except.bind, hread']
      exact ⟨_, rfl⟩
  reads_stop _ hops := multiplicativeLoop_stop fun t ht hmem => by
    rcases List.mem_pair.mp hmem with rfl | rfl
    · exact hops .mul _ ht (List.mem_singleton_self _)
    · exact hops .div _ ht (List.mem_singleton_self _)

variable (F) in
/-- Sums and differences of products. -/
def sums : LeftAssoc F AdditiveOp where
  token
    | .add => .plus
    | .sub => .minus
  apply
    | .add => .add
    | .sub => .sub
  operand := parseMultiplicative
  loop := additiveLoop
  whole := parseAdditive
  barred := [.lParen, .caret, .star, .slash]
  token_not_barred o := by cases o <;> simp
  reads_whole := reads_additive
  reads_step o _ _ _ _ _ _ := by
    rintro ⟨hlt, hread⟩ ⟨hle, hread'⟩
    cases o with
    | add | sub =>
      rw [additiveLoop, hread]
      simp only [bind, Except.bind, hread']
      exact ⟨_, rfl⟩
  reads_stop _ hops := additiveLoop_stop fun t ht hmem => by
    rcases List.mem_pair.mp hmem with rfl | rfl
    · exact hops .add _ ht (List.mem_singleton_self _)
    · exact hops .sub _ ht (List.mem_singleton_self _)

/-! ## The reading of an expression -/

/--
What the tokens of an expression are read as: at the two levels of operators, and as a base
and as an exponent of a power.
-/
structure Reading (F : Type) where
  terms : SesExpr F × List (AdditiveOp × SesExpr F)
  factors : SesExpr F × List (MultiplicativeOp × SesExpr F)
  powers : SesExpr F × List (SesExpr F)
  exponents : SesExpr F × List (SesExpr F)

namespace Reading

def product (r : Reading F) : SesExpr F := (products F).build r.factors.1 r.factors.2

def whole (r : Reading F) : SesExpr F := (sums F).build r.terms.1 r.terms.2

/-- A power, a negation or an atom. -/
def ofPowers (powers exponents : SesExpr F × List (SesExpr F)) : Reading F where
  terms := (power powers.1 powers.2, [])
  factors := (power powers.1 powers.2, [])
  powers := powers
  exponents := exponents

/-- It is in parentheses where a power is expected. -/
def ofFactors (factors : SesExpr F × List (MultiplicativeOp × SesExpr F)) : Reading F where
  terms := ((products F).build factors.1 factors.2, [])
  factors := factors
  powers := ((products F).build factors.1 factors.2, [])
  exponents := ((products F).build factors.1 factors.2, [])

/-- It is in parentheses where a product is expected. -/
def ofTerms (terms : SesExpr F × List (AdditiveOp × SesExpr F)) : Reading F where
  terms := terms
  factors := ((sums F).build terms.1 terms.2, [])
  powers := ((sums F).build terms.1 terms.2, [])
  exponents := ((sums F).build terms.1 terms.2, [])

def atom (e : SesExpr F) : Reading F := ofPowers (e, []) (e, [])

end Reading

def reading [Field F] : SesExpr F → Reading F
  | .num v => .atom (if v < 0 then .neg (.num (-v)) else .num v)
  | .var name => .atom (.var name)
  | .add l r =>
    let (e, rest) := (reading l).terms
    .ofTerms (e, rest ++ (.add, (reading r).terms.1) :: (reading r).terms.2)
  | .sub l r =>
    let (e, rest) := (reading l).terms
    .ofTerms (e, rest ++ [(.sub, (reading r).product)])
  | .mul l r =>
    let (e, rest) := (reading l).factors
    .ofFactors (e, rest ++ (.mul, (reading r).factors.1) :: (reading r).factors.2)
  | .div l r =>
    let (e, rest) := (reading l).factors
    .ofFactors (e, rest ++ [(.div, power (reading r).powers.1 (reading r).powers.2)])
  | .pow b exp =>
    let (u, us) := (reading b).powers
    let chain := (u, us ++ (reading exp).exponents.1 :: (reading exp).exponents.2)
    .ofPowers chain chain
  | .neg inner =>
    let (u, us) := (reading inner).powers
    .ofPowers (.neg u, us) (power (.neg u) us, [])
  | .abs inner => .atom (.abs (reading inner).whole)
  | .sqrt inner => .atom (.sqrt (reading inner).whole)
  | .sin inner => .atom (.sin (reading inner).whole)
  | .cos inner => .atom (.cos (reading inner).whole)
  | .exp inner => .atom (.exp (reading inner).whole)
  | .ln inner => .atom (.ln (reading inner).whole)

/-- The tokens of an expression are read as its reading says. -/
structure IsReading [Field F] (e : SesExpr F) : Prop where
  terms : (sums F).Chain (tokens e .addSub) (reading e).terms.1 (reading e).terms.2
  factors : (products F).Chain (tokens e .mulDiv) (reading e).factors.1 (reading e).factors.2
  powers : Powers (tokens e .unary) (reading e).powers.1 (reading e).powers.2
  exponents : Powers (tokens e .pow) (reading e).exponents.1 (reading e).exponents.2

section Levels

variable {toks : List (Token F)}

theorem factors_of_powers {u : SesExpr F} {us : List (SesExpr F)} (h : Powers toks u us) :
    (products F).Chain toks (power u us) [] := .one h.reads

theorem LeftAssoc.Chain.readsAs_product {e : SesExpr F} {l : List (MultiplicativeOp × SesExpr F)}
    (h : (products F).Chain toks e l) :
    ReadsAs parseMultiplicative [.lParen, .caret, .star, .slash] toks ((products F).build e l) :=
  h.reads (by simp [products]) fun o => by cases o <;> simp [products]

theorem LeftAssoc.Chain.readsAs_sum {e : SesExpr F} {l : List (AdditiveOp × SesExpr F)}
    (h : (sums F).Chain toks e l) :
    ReadsAs parseAdditive [.lParen, .caret, .star, .slash, .plus, .minus] toks
      ((sums F).build e l) :=
  h.reads (by simp [sums]) fun o => by cases o <;> simp [sums]

theorem terms_of_powers {u : SesExpr F} {us : List (SesExpr F)} (h : Powers toks u us) :
    (sums F).Chain toks (power u us) [] := .one (factors_of_powers h).readsAs_product

theorem readsAs_paren {e : SesExpr F}
    (h : ReadsAs parseAdditive [.lParen, .caret, .star, .slash, .plus, .minus] toks e) :
    ReadsAs parseUnary [.lParen] (.lParen :: (toks ++ [.rParen])) e := by
  intro ts _
  refine reads_unary (by simp) ?_
  rw [List.cons_append, List.append_assoc]
  refine reads_paren ?_
  rw [parseExpr]
  exact h _ (follows_cons (by simp) _)

end Levels

omit [LinearOrder F] in
theorem lowercase_function [SesText.Lawful F] {name : String} (h : name ∈ functionNames) :
    SesText.toLowercase F name = name := by
  have hlower : ∀ name ∈ functionNames, String.ofList (name.toList.map Char.toLower) = name := by
    decide
  rw [SesText.Lawful.lowercase_ascii name fun c hc => ((letters_of_functionNames h).2 c hc).1,
    hlower name h]

section IsReading

variable [Field F] {e : SesExpr F} {toks : List (Token F)}

theorem isReading_atom {x : SesExpr F} (htoks : ∀ p, tokens e p = toks)
    (hreading : reading e = .atom x) (h : ReadsAs parseUnary [.lParen] toks x) : IsReading e := by
  have hpowers : Powers toks x [] := .one h
  constructor <;> rw [htoks, hreading]
  · exact terms_of_powers hpowers
  · exact factors_of_powers hpowers
  · exact hpowers
  · exact hpowers

theorem isReading_ofTerms {x : SesExpr F × List (AdditiveOp × SesExpr F)}
    (htoks : ∀ p, tokens e p = parenTokens toks .addSub p) (hreading : reading e = .ofTerms x)
    (h : (sums F).Chain toks x.1 x.2) : IsReading e := by
  have hparen := readsAs_paren h.readsAs_sum
  constructor <;> rw [htoks, hreading]
  · exact h
  · exact factors_of_powers (.one hparen)
  · exact .one hparen
  · exact .one hparen

theorem isReading_ofFactors {x : SesExpr F × List (MultiplicativeOp × SesExpr F)}
    (htoks : ∀ p, tokens e p = parenTokens toks .mulDiv p) (hreading : reading e = .ofFactors x)
    (h : (products F).Chain toks x.1 x.2) : IsReading e := by
  have hterms : (sums F).Chain toks ((products F).build x.1 x.2) [] := .one h.readsAs_product
  have hparen := readsAs_paren hterms.readsAs_sum
  constructor <;> rw [htoks, hreading]
  · exact hterms
  · exact h
  · exact .one hparen
  · exact .one hparen

theorem isReading_neg {i : SesExpr F} (h : IsReading i) : IsReading (.neg i) := by
  have hpowers := h.powers.neg
  constructor <;> rw [tokens, reading]
  · exact terms_of_powers hpowers
  · exact factors_of_powers hpowers
  · exact hpowers
  · exact .one (readsAs_paren (terms_of_powers hpowers).readsAs_sum)

theorem isReading_pow {b x : SesExpr F} (hb : IsReading b) (hx : IsReading x) :
    IsReading (.pow b x) := by
  have hpowers := hb.powers.append hx.exponents
  constructor <;> rw [tokens, reading]
  · exact terms_of_powers hpowers
  · exact factors_of_powers hpowers
  · exact hpowers
  · exact hpowers

omit [SesText F] in
theorem tokens_lowest (e : SesExpr F) : tokens e .lowest = tokens e .addSub := by cases e <;> rfl

/-- With nothing around it, it is read as a whole. -/
theorem IsReading.reads_whole (h : IsReading e) {t : Token F} (ht : t = .rParen ∨ t = .pipe)
    (ts : List (Token F)) :
    Reads (parseExpr (tokens e .lowest ++ t :: ts)) (reading e).whole (t :: ts) := by
  rw [parseExpr, tokens_lowest]
  refine h.terms.readsAs_sum _ (follows_cons ?_ _)
  rcases ht with rfl | rfl <;> simp

theorem isReading_call {name : String} {i x : SesExpr F} (h : IsReading i)
    (htoks : ∀ p, tokens e p = .ident name :: .lParen :: (tokens i .lowest ++ [.rParen]))
    (hreading : reading e = .atom x) (hcall : functionCall F name (reading i).whole = .ok x) :
    IsReading e := by
  refine isReading_atom htoks hreading fun ts _ => reads_unary (by simp) ?_
  rw [List.cons_append, List.cons_append, List.append_assoc]
  exact reads_call hcall (h.reads_whole (.inl rfl) ts)

theorem isReading_num (v : F) : IsReading (.num v) := by
  by_cases hv : v < 0
  · refine isReading_atom (fun _ => if_pos hv) (congrArg _ (if_pos hv)) fun ts _ => ?_
    exact reads_neg (reads_unary (by simp) (reads_num _ ts))
  · refine isReading_atom (fun _ => if_neg hv) (congrArg _ (if_neg hv)) fun ts _ => ?_
    exact reads_unary (by simp) (reads_num _ ts)

theorem isReading_abs {i : SesExpr F} (h : IsReading i) : IsReading (.abs i) := by
  refine isReading_atom (fun _ => rfl) rfl fun ts _ => reads_unary (by simp) ?_
  rw [List.cons_append, List.append_assoc]
  exact reads_bars (h.reads_whole (.inr rfl) ts)

theorem isReading [SesText.Lawful F] (e : SesExpr F) : IsReading e := by
  have hlower : ∀ {name}, name ∈ functionNames → SesText.toLowercase F name = name :=
    lowercase_function
  induction e with
  | num v => exact isReading_num v
  | var name =>
    exact isReading_atom (fun _ => rfl) rfl fun ts hts => reads_unary (by simp) (reads_var _ hts)
  | add l r ihl ihr =>
    exact isReading_ofTerms (fun _ => rfl) rfl (ihl.terms.append AdditiveOp.add ihr.terms)
  | sub l r ihl ihr =>
    exact isReading_ofTerms (fun _ => rfl) rfl
      (.step AdditiveOp.sub ihl.terms ihr.factors.readsAs_product)
  | mul l r ihl ihr =>
    exact isReading_ofFactors (fun _ => rfl) rfl
      (ihl.factors.append MultiplicativeOp.mul ihr.factors)
  | div l r ihl ihr =>
    exact isReading_ofFactors (fun _ => rfl) rfl
      (.step MultiplicativeOp.div ihl.factors ihr.powers.reads)
  | pow b x ihb ihx => exact isReading_pow ihb ihx
  | neg i ih => exact isReading_neg ih
  | abs i ih => exact isReading_abs ih
  | sqrt i ih | sin i ih | cos i ih | exp i ih | ln i ih =>
    exact isReading_call ih (fun _ => rfl) rfl (by rw [functionCall, hlower (by decide)]; rfl)

end IsReading

end Parser

/-! ## The value of the reading -/

section Same

variable {F : Type} [Field F] [LinearOrder F] {a a' b b' c : SesExpr F}

/-- The expressions have the same value, or none, under every assignment. -/
def Same (a b : SesExpr F) : Prop :=
  ∀ (fn : Elementary F) (vars : String → Option F) (v : F),
    evaluateInner fn vars a = .ok v ↔ evaluateInner fn vars b = .ok v

namespace Same

theorem refl (a : SesExpr F) : Same a a := fun _ _ _ => Iff.rfl

theorem trans (h : Same a b) (h' : Same b c) : Same a c :=
  fun fn vars v => (h fn vars v).trans (h' fn vars v)

theorem add (h : Same a a') (h' : Same b b') : Same (.add a b) (.add a' b') := by
  intro fn vars v
  simp only [evaluate_add, h fn vars, h' fn vars]

theorem sub (h : Same a a') (h' : Same b b') : Same (.sub a b) (.sub a' b') := by
  intro fn vars v
  simp only [evaluate_sub, h fn vars, h' fn vars]

theorem mul (h : Same a a') (h' : Same b b') : Same (.mul a b) (.mul a' b') := by
  intro fn vars v
  simp only [evaluate_mul, h fn vars, h' fn vars]

theorem div (h : Same a a') (h' : Same b b') : Same (.div a b) (.div a' b') := by
  intro fn vars v
  simp only [evaluate_div, h fn vars, h' fn vars]

theorem pow (h : Same a a') (h' : Same b b') : Same (.pow a b) (.pow a' b') := by
  intro fn vars v
  simp only [evaluate_pow, h fn vars, h' fn vars]

theorem neg (h : Same a a') : Same (.neg a) (.neg a') := by
  intro fn vars v
  simp only [evaluate_neg, h fn vars]

theorem abs (h : Same a a') : Same (.abs a) (.abs a') := by
  intro fn vars v
  simp only [evaluate_abs, h fn vars]

theorem sqrt (h : Same a a') : Same (.sqrt a) (.sqrt a') := by
  intro fn vars v
  simp only [evaluate_sqrt, h fn vars]

theorem sin (h : Same a a') : Same (.sin a) (.sin a') := by
  intro fn vars v
  simp only [evaluate_sin, h fn vars]

theorem cos (h : Same a a') : Same (.cos a) (.cos a') := by
  intro fn vars v
  simp only [evaluate_cos, h fn vars]

theorem exp (h : Same a a') : Same (.exp a) (.exp a') := by
  intro fn vars v
  simp only [evaluate_exp, h fn vars]

theorem ln (h : Same a a') : Same (.ln a) (.ln a') := by
  intro fn vars v
  simp only [evaluate_ln, h fn vars]

theorem neg_num (v : F) : Same (.neg (.num (-v))) (.num v) := by
  intro fn vars w
  rw [evaluate_neg]
  constructor
  · rintro ⟨x, hx, rfl⟩
    cases hx
    rw [neg_neg]
    rfl
  · rintro h
    cases h
    exact ⟨-v, rfl, (neg_neg v).symm⟩

theorem add_add (a b c : SesExpr F) : Same (.add (.add a b) c) (.add a (.add b c)) := by
  intro fn vars v
  simp only [evaluate_add]
  constructor
  · rintro ⟨_, z, ⟨x, y, hx, hy, rfl⟩, hz, rfl⟩
    exact ⟨x, _, hx, ⟨y, z, hy, hz, rfl⟩, add_assoc x y z⟩
  · rintro ⟨x, _, hx, ⟨y, z, hy, hz, rfl⟩, rfl⟩
    exact ⟨_, z, ⟨x, y, hx, hy, rfl⟩, hz, (add_assoc x y z).symm⟩

theorem sub_add (a b c : SesExpr F) : Same (.sub (.add a b) c) (.add a (.sub b c)) := by
  intro fn vars v
  simp only [evaluate_add, evaluate_sub]
  constructor
  · rintro ⟨_, z, ⟨x, y, hx, hy, rfl⟩, hz, rfl⟩
    exact ⟨x, _, hx, ⟨y, z, hy, hz, rfl⟩, add_sub_assoc x y z⟩
  · rintro ⟨x, _, hx, ⟨y, z, hy, hz, rfl⟩, rfl⟩
    exact ⟨_, z, ⟨x, y, hx, hy, rfl⟩, hz, (add_sub_assoc x y z).symm⟩

theorem mul_mul (a b c : SesExpr F) : Same (.mul (.mul a b) c) (.mul a (.mul b c)) := by
  intro fn vars v
  simp only [evaluate_mul]
  constructor
  · rintro ⟨_, z, ⟨x, y, hx, hy, rfl⟩, hz, rfl⟩
    exact ⟨x, _, hx, ⟨y, z, hy, hz, rfl⟩, mul_assoc x y z⟩
  · rintro ⟨x, _, hx, ⟨y, z, hy, hz, rfl⟩, rfl⟩
    exact ⟨_, z, ⟨x, y, hx, hy, rfl⟩, hz, (mul_assoc x y z).symm⟩

theorem div_mul (a b c : SesExpr F) : Same (.div (.mul a b) c) (.mul a (.div b c)) := by
  intro fn vars v
  simp only [evaluate_mul, evaluate_div]
  constructor
  · rintro ⟨_, z, ⟨x, y, hx, hy, rfl⟩, hz, hne, rfl⟩
    exact ⟨x, _, hx, ⟨y, z, hy, hz, hne, rfl⟩, mul_div_assoc x y z⟩
  · rintro ⟨x, _, hx, ⟨y, z, hy, hz, hne, rfl⟩, rfl⟩
    exact ⟨_, z, ⟨x, y, hx, hy, rfl⟩, hz, hne, (mul_div_assoc x y z).symm⟩

end Same

section Levels

variable [SesText F]

theorem same_apply_sums (o : AdditiveOp) (h : Same a a') (x : SesExpr F) :
    Same ((sums F).apply o a x) ((sums F).apply o a' x) := by
  cases o with
  | add => exact h.add (.refl x)
  | sub => exact h.sub (.refl x)

theorem same_apply_products (o : MultiplicativeOp) (h : Same a a') (x : SesExpr F) :
    Same ((products F).apply o a x) ((products F).apply o a' x) := by
  cases o with
  | mul => exact h.mul (.refl x)
  | div => exact h.div (.refl x)

theorem same_build {Op : Type} {level : LeftAssoc F Op}
    (happly : ∀ o {a a'}, Same a a' → ∀ x, Same (level.apply o a x) (level.apply o a' x))
    (h : Same a a') (l : List (Op × SesExpr F)) : Same (level.build a l) (level.build a' l) := by
  induction l generalizing a a' with
  | nil => exact h
  | cons x l ih => exact ih (happly x.1 h x.2)

/-- An operand that is itself a chain is regrouped from the left. -/
theorem same_regroup {Op : Type} {level : LeftAssoc F Op} (glue : Op)
    (happly : ∀ o {a a'}, Same a a' → ∀ x, Same (level.apply o a x) (level.apply o a' x))
    (hregroup : ∀ o a b c, Same (level.apply o (level.apply glue a b) c)
      (level.apply glue a (level.apply o b c))) (a b : SesExpr F) (l : List (Op × SesExpr F)) :
    Same (level.build (level.apply glue a b) l) (level.apply glue a (level.build b l)) := by
  induction l generalizing b with
  | nil => exact .refl _
  | cons x l ih =>
    exact (same_build happly (hregroup x.1 a b x.2) l).trans (ih (level.apply x.1 b x.2))

theorem same_build_add (a b : SesExpr F) (l : List (AdditiveOp × SesExpr F)) :
    Same ((sums F).build (.add a b) l) (.add a ((sums F).build b l)) := by
  show Same ((sums F).build ((sums F).apply .add a b) l)
    ((sums F).apply .add a ((sums F).build b l))
  refine same_regroup .add (fun o _ _ h => same_apply_sums o h) (fun o a b c => ?_) a b l
  cases o with
  | add => exact .add_add a b c
  | sub => exact .sub_add a b c

theorem same_build_mul (a b : SesExpr F) (l : List (MultiplicativeOp × SesExpr F)) :
    Same ((products F).build (.mul a b) l) (.mul a ((products F).build b l)) := by
  show Same ((products F).build ((products F).apply .mul a b) l)
    ((products F).apply .mul a ((products F).build b l))
  refine same_regroup .mul (fun o _ _ h => same_apply_products o h) (fun o a b c => ?_) a b l
  cases o with
  | mul => exact .mul_mul a b c
  | div => exact .div_mul a b c

end Levels

section SameReading

variable [SesText F] {e : SesExpr F}

def isPow : SesExpr F → Bool
  | .pow _ _ => true
  | _ => false

/-- No power is negated, or is the base of a power. -/
def plainPowers : SesExpr F → Bool
  | .num _ | .var _ => true
  | .add l r | .sub l r | .mul l r | .div l r => plainPowers l && plainPowers r
  | .pow b x => !isPow b && plainPowers b && plainPowers x
  | .neg i => !isPow i && plainPowers i
  | .abs i | .sqrt i | .sin i | .cos i | .exp i | .ln i => plainPowers i

/-- What the tokens are read as has the value of the expression. -/
structure SameReading (e : SesExpr F) : Prop where
  whole : Same (reading e).whole e
  product : Same (reading e).product e
  powers : Same (power (reading e).powers.1 (reading e).powers.2) e
  exponents : Same (power (reading e).exponents.1 (reading e).exponents.2) e
  base : isPow e = false → (reading e).powers.2 = []

theorem sameReading_atom {x : SesExpr F} (hreading : reading e = .atom x) (h : Same x e) :
    SameReading e := by
  constructor <;> rw [hreading]
  · exact h
  · exact h
  · exact h
  · exact h
  · exact fun _ => rfl

theorem sameReading_ofTerms {x : SesExpr F × List (AdditiveOp × SesExpr F)}
    (hreading : reading e = .ofTerms x) (h : Same ((sums F).build x.1 x.2) e) : SameReading e := by
  constructor <;> rw [hreading]
  · exact h
  · exact h
  · exact h
  · exact h
  · exact fun _ => rfl

theorem sameReading_ofFactors {x : SesExpr F × List (MultiplicativeOp × SesExpr F)}
    (hreading : reading e = .ofFactors x) (h : Same ((products F).build x.1 x.2) e) :
    SameReading e := by
  constructor <;> rw [hreading]
  · exact h
  · exact h
  · exact h
  · exact h
  · exact fun _ => rfl

omit [Field F] in
theorem build_append {Op : Type} (level : LeftAssoc F Op) (e : SesExpr F)
    (l l' : List (Op × SesExpr F)) :
    level.build e (l ++ l') = level.build (level.build e l) l' := List.foldl_append

theorem sameReading_add {l r : SesExpr F} (hl : SameReading l) (hr : SameReading r) :
    SameReading (.add l r) := by
  refine sameReading_ofTerms rfl ?_
  rw [build_append]
  exact (same_build_add _ _ _).trans (hl.whole.add hr.whole)

theorem sameReading_sub {l r : SesExpr F} (hl : SameReading l) (hr : SameReading r) :
    SameReading (.sub l r) := by
  refine sameReading_ofTerms rfl ?_
  rw [build_append]
  exact hl.whole.sub hr.product

theorem sameReading_mul {l r : SesExpr F} (hl : SameReading l) (hr : SameReading r) :
    SameReading (.mul l r) := by
  refine sameReading_ofFactors rfl ?_
  rw [build_append]
  exact (same_build_mul _ _ _).trans (hl.product.mul hr.product)

theorem sameReading_div {l r : SesExpr F} (hl : SameReading l) (hr : SameReading r) :
    SameReading (.div l r) := by
  refine sameReading_ofFactors rfl ?_
  rw [build_append]
  exact hl.product.div hr.powers

theorem sameReading_neg {i : SesExpr F} (hi : SameReading i) (hpow : isPow i = false) :
    SameReading (.neg i) := by
  have hbase := hi.base hpow
  have hpowers := hi.powers
  rw [hbase] at hpowers
  have hneg : Same (power (.neg (reading i).powers.1) (reading i).powers.2) (.neg i) := by
    rw [hbase]
    exact hpowers.neg
  constructor <;> rw [reading]
  · exact hneg
  · exact hneg
  · exact hneg
  · exact hneg
  · exact fun _ => hbase

theorem sameReading_pow {b x : SesExpr F} (hb : SameReading b) (hx : SameReading x)
    (hpow : isPow b = false) : SameReading (.pow b x) := by
  have hbase := hb.base hpow
  have hpowers := hb.powers
  rw [hbase] at hpowers
  have hsame : Same (power (reading b).powers.1 ((reading b).powers.2
      ++ (reading x).exponents.1 :: (reading x).exponents.2)) (.pow b x) := by
    rw [hbase]
    exact hpowers.pow hx.exponents
  constructor <;> rw [reading]
  · exact hsame
  · exact hsame
  · exact hsame
  · exact hsame
  · exact fun h => absurd h Bool.noConfusion

theorem sameReading (h : plainPowers e) : SameReading e := by
  induction e with
  | num v =>
    refine sameReading_atom rfl ?_
    split
    · exact .neg_num v
    · exact .refl _
  | var name => exact sameReading_atom rfl (.refl _)
  | add l r ihl ihr =>
    obtain ⟨hl, hr⟩ := Bool.and_eq_true_iff.mp h
    exact sameReading_add (ihl hl) (ihr hr)
  | sub l r ihl ihr =>
    obtain ⟨hl, hr⟩ := Bool.and_eq_true_iff.mp h
    exact sameReading_sub (ihl hl) (ihr hr)
  | mul l r ihl ihr =>
    obtain ⟨hl, hr⟩ := Bool.and_eq_true_iff.mp h
    exact sameReading_mul (ihl hl) (ihr hr)
  | div l r ihl ihr =>
    obtain ⟨hl, hr⟩ := Bool.and_eq_true_iff.mp h
    exact sameReading_div (ihl hl) (ihr hr)
  | pow b x ihb ihx =>
    obtain ⟨hbase, hx⟩ := Bool.and_eq_true_iff.mp h
    obtain ⟨hpow, hb⟩ := Bool.and_eq_true_iff.mp hbase
    exact sameReading_pow (ihb hb) (ihx hx) (by simpa using hpow)
  | neg i ih =>
    obtain ⟨hpow, hi⟩ := Bool.and_eq_true_iff.mp h
    exact sameReading_neg (ih hi) (by simpa using hpow)
  | abs i ih => exact sameReading_atom rfl (ih h).whole.abs
  | sqrt i ih => exact sameReading_atom rfl (ih h).whole.sqrt
  | sin i ih => exact sameReading_atom rfl (ih h).whole.sin
  | cos i ih => exact sameReading_atom rfl (ih h).whole.cos
  | exp i ih => exact sameReading_atom rfl (ih h).whole.exp
  | ln i ih => exact sameReading_atom rfl (ih h).whole.ln

end SameReading

end Same

/-! ## The round trip -/

section RoundTrip

variable {F : Type} [Field F] [LinearOrder F] [IsStrictOrderedRing F] [FloorRing F] [SesText F]
  [SesText.Lawful F]

/-- Every printed expression is parsed, as its reading. -/
theorem parse_toText {e : SesExpr F} (h : Printable e) :
    parse e.toText = .ok (reading e).whole := by
  have htokens := tokenizes_infixStr h .lowest [] [] (fun _ hc => by cases hc) (by rw [tokenize])
  rw [List.append_nil, List.append_nil] at htokens
  have hread := (isReading e).terms.readsAs_sum [] fun _ ht => by cases ht
  rw [List.append_nil, ← tokens_lowest] at hread
  obtain ⟨hlt, hread⟩ := hread
  rw [parse, SesExpr.toText, htokens]
  simp only [bind, Except.bind, parseExpr, hread, if_true]
  rfl

/-- It has the value of the expression, unless a power is negated or raised. -/
theorem parse_toText_same (e : SesExpr F) (h : Printable e) :
    parse e.toText = .ok (reading e).whole ∧
      (plainPowers e → ∀ (fn : Elementary F) (vars : String → Option F) (v : F),
        evaluateInner fn vars (reading e).whole = .ok v ↔ evaluateInner fn vars e = .ok v) :=
  ⟨parse_toText h, fun hplain => (sameReading hplain).whole⟩

end RoundTrip

namespace SymbolicSample

/-- ASCII, with the numbers that are no integers left out. -/
instance asciiText : SesText ℝ where
  isWhitespace c := c == ' ' || decide (9 ≤ c.toNat ∧ c.toNat ≤ 13)
  isAlphabetic := Char.isAlpha
  isNumeric := Char.isDigit
  toLowercase s := String.ofList (s.toList.map Char.toLower)
  displayF64 _ := ""
  debugF64 _ := ""
  debugStr s := "\"" ++ s ++ "\""

instance asciiText_lawful : SesText.Lawful ℝ where
  whitespace_ascii _ _ := rfl
  alphabetic_ascii _ _ := rfl
  numeric_ascii _ _ := rfl
  not_whitespace c hc := by
    have hletter : 65 ≤ c.toNat := by
      replace hc : c.isAlpha = true := hc
      rw [Char.isAlpha, Char.isUpper, Char.isLower, Bool.or_eq_true, Bool.and_eq_true,
        decide_eq_true_eq, decide_eq_true_eq] at hc
      exact hc.elim (·.1) fun h => le_trans (by decide) h.1
    refine Bool.or_eq_false_iff.mpr ⟨beq_eq_false_iff_ne.mpr fun h => ?_, decide_eq_false ?_⟩
    · rw [h] at hletter
      exact absurd hletter (by decide)
    · omega
  lowercase_ascii _ _ := rfl

/-- Printed as `-3 - -2 ^ 3 ^ 2`. -/
noncomputable def minusPower : SesExpr ℝ :=
  .sub (.num (-3)) (.pow (.num (-2)) (.pow (.num 3) (.num 2)))

noncomputable def minusPowerRead : SesExpr ℝ :=
  .sub (.neg (.num 3)) (.pow (.neg (.num 2)) (.pow (.num 3) (.num 2)))

theorem parse_toText_same_minusPower : parse minusPower.toText = .ok minusPowerRead ∧
      ∀ (fn : Elementary ℝ) (vars : String → Option ℝ) (v : ℝ),
        evaluateInner fn vars minusPowerRead = .ok v
          ↔ evaluateInner fn vars minusPower = .ok v := by
  have hprintable : Printable minusPower :=
    ⟨⟨-3, by norm_num, by decide⟩, ⟨-2, by norm_num, by decide⟩, ⟨3, by norm_num, by decide⟩,
      2, by norm_num, by decide⟩
  have hreading : (reading minusPower).whole = minusPowerRead := by
    norm_num [minusPower, minusPowerRead, reading, Reading.whole, Reading.product, Reading.atom,
      Reading.ofTerms, Reading.ofPowers, power, LeftAssoc.build, sums, products]
  obtain ⟨hparse, hsame⟩ := parse_toText_same _ hprintable
  rw [hreading] at hparse hsame
  exact ⟨hparse, hsame rfl⟩

/-- `-(3 ^ 2)` is printed as `-3 ^ 2`, and read as `(-3) ^ 2`. -/
theorem parse_changes_value : ¬ ∀ e : SesExpr ℝ, Printable e →
    ∃ e', parse e.toText = .ok e' ∧ ∀ (vars : String → Option ℝ) (v : ℝ),
      evaluateInner (realFunctions fun x y => x ^ y) vars e' = .ok v ↔
        evaluateInner (realFunctions fun x y => x ^ y) vars e = .ok v := by
  intro h
  have hprintable : Printable (SesExpr.neg (.pow (.num 3) (.num (2 : ℝ)))) :=
    ⟨⟨3, by norm_num, by decide⟩, 2, by norm_num, by decide⟩
  obtain ⟨e', hparse, hsame⟩ := h _ hprintable
  have hreading : (reading (SesExpr.neg (.pow (.num 3) (.num (2 : ℝ))))).whole
      = .pow (.neg (.num 3)) (.num 2) := by
    norm_num [reading, Reading.whole, Reading.atom, Reading.ofPowers, power, LeftAssoc.build]
  rw [parse_toText hprintable, hreading] at hparse
  cases hparse
  have hnine : evaluateInner (realFunctions fun x y => x ^ y) (fun _ => none)
      (SesExpr.neg (.pow (.num 3) (.num (2 : ℝ)))) = .ok (-9) := by
    refine evaluate_neg.mpr ⟨9, evaluate_pow.mpr ⟨3, 2, rfl, rfl, ?_⟩, rfl⟩
    norm_num [realFunctions]
  obtain ⟨x, y, hx, hy, heq⟩ := evaluate_pow.mp ((hsame _ _).mpr hnine)
  cases hx
  cases hy
  norm_num [realFunctions] at heq

end SymbolicSample

end Ipfrs.TensorLogic.Symbolic
