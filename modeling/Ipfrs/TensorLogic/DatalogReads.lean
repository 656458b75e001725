/-
Ipfrs.TensorLogic.DatalogReads — the parser reads the grammar.

Each function of the parser reads its part of the grammar (`Reads`): at every character of
the input it gives what the grammar gives, and an `Err` where that is nothing, with the
parser left at a character again and no slice that panics. Such facts compose along `do`
(`Reads.bind`), and enough rounds are one more than the characters that are left.
-/
import Ipfrs.TensorLogic.DatalogGrammar

namespace Ipfrs.TensorLogic

open Ipfrs.Lib Parse

/-- The parser of an input at the start of a suffix. -/
def parserAt (input rest : List Char) : DatalogParser :=
  { input, position := offsetOf input rest }

section

variable {α β : Type} {input s : List Char}

/-- An `Ok` that a relation allows, or an `Err`; with the parser at a character. -/
inductive Clean (input s : List Char) (R : α → List Char → Prop) :
    Except Halt α × DatalogParser → Prop where
  | ok {a r} : r <:+ s → R a r → Clean input s R (.ok a, parserAt input r)
  | err {e r} : r <:+ s → Clean input s R (.error (.error e), parserAt input r)

/-- A computation gives what the relation gives. -/
structure Reads (input s : List Char) (R : α → List Char → Prop) (m : Parse α) : Prop where
  clean : Clean input s R (m (parserAt input s))
  complete : ∀ {a r}, R a r → r <:+ s ∧ m (parserAt input s) = (.ok a, parserAt input r)

/-! ## Composition -/

theorem Clean.mono {R R' : α → List Char → Prop} {s' : List Char} (hs : s' <:+ s)
    (hR : ∀ a r, R a r → R' a r) {out : Except Halt α × DatalogParser}
    (h : Clean input s' R out) : Clean input s R' out := by
  cases h with
  | ok hr ha => exact .ok (hr.trans hs) (hR _ _ ha)
  | err hr => exact .err (hr.trans hs)

variable {m : Parse α} {f : α → Parse β} {rounds : Nat} {term : Parse Term}

theorem Reads.congr {R R' : α → List Char → Prop} (h : Reads input s R m)
    (hiff : ∀ a r, R' a r ↔ R a r) : Reads input s R' m where
  clean := h.clean.mono List.suffix_rfl fun a r => (hiff a r).mpr
  complete hR := h.complete ((hiff _ _).mp hR)

theorem Parse.bind_of_ok {p p' : DatalogParser} {a : α} (h : m p = (.ok a, p')) :
    (m >>= f) p = f a p' := by
  simp only [Bind.bind, h]

theorem Parse.bind_of_error {p p' : DatalogParser} {e : Halt} (h : m p = (.error e, p')) :
    (m >>= f) p = (.error e, p') := by
  simp only [Bind.bind, h]

theorem Reads.bind {R : α → List Char → Prop} {R' : α → List Char → β → List Char → Prop}
    {m : Parse α} {f : α → Parse β} (hm : Reads input s R m)
    (hf : ∀ a r, r <:+ s → R a r → Reads input r (R' a r) (f a)) :
    Reads input s (fun b r' => ∃ a r, R a r ∧ R' a r b r') (m >>= f) where
  clean := by
    generalize hout : m (parserAt input s) = out
    have hclean := hout ▸ hm.clean
    cases hclean with
    | @ok a r hr hR =>
      rw [bind_of_ok hout]
      exact (hf a r hr hR).clean.mono hr fun b r' hR' => ⟨a, r, hR, hR'⟩
    | err hr =>
      rw [bind_of_error hout]
      exact .err hr
  complete := by
    rintro b r' ⟨a, r, hR, hR'⟩
    obtain ⟨hr, hout⟩ := hm.complete hR
    obtain ⟨hr', hout'⟩ := (hf a r hr hR).complete hR'
    rw [bind_of_ok hout]
    exact ⟨hr'.trans hr, hout'⟩

/-- A computation with one possible outcome, and what comes after it. -/
theorem Reads.after {R : β → List Char → Prop} {a : α} {r : List Char}
    (hm : m (parserAt input s) = (.ok a, parserAt input r)) (hr : r <:+ s)
    (hf : Reads input r R (f a)) : Reads input s R (m >>= f) where
  clean := by
    rw [bind_of_ok hm]
    exact hf.clean.mono hr fun _ _ => id
  complete hR := by
    obtain ⟨hr', hout⟩ := hf.complete hR
    rw [bind_of_ok hm]
    exact ⟨hr'.trans hr, hout⟩

/-- A computation with one possible outcome. -/
theorem Reads.ok {R : α → List Char → Prop} {m : Parse α} {a : α} {r : List Char}
    (hm : m (parserAt input s) = (.ok a, parserAt input r)) (hr : r <:+ s)
    (hR : ∀ b r', R b r' ↔ b = a ∧ r' = r) : Reads input s R m where
  clean := by
    rw [hm]
    exact .ok hr ((hR a r).mpr ⟨rfl, rfl⟩)
  complete h := by
    obtain ⟨rfl, rfl⟩ := (hR _ _).mp h
    exact ⟨hr, hm⟩

/-- A computation that fails where the relation gives nothing. -/
theorem Reads.error {R : α → List Char → Prop} {e : ParseError}
    (hm : m (parserAt input s) = (.error (.error e), parserAt input s)) (hR : ∀ a r, ¬ R a r) :
    Reads input s R m where
  clean := by
    rw [hm]
    exact .err List.suffix_rfl
  complete h := absurd h (hR _ _)

/-! ## Looking and moving -/

theorem position_at : position (parserAt input s) = (.ok (offsetOf input s), parserAt input s) :=
  rfl

theorem peekChar_at (h : s <:+ input) :
    peekChar (parserAt input s) = (.ok s.head?, parserAt input s) := by
  simp only [peekChar, parserAt, dropBytes_offsetOf h]

theorem advance_at {c : Char} {cs : List Char} (h : c :: cs <:+ input) :
    advance (parserAt input (c :: cs)) = (.ok (), parserAt input cs) := by
  rw [advance, bind_of_ok (peekChar_at h)]
  simp only [List.head?_cons, moveBy, parserAt, offsetOf_cons h]

theorem slice_at {w r : List Char} (h : w ++ r <:+ input) :
    slice (offsetOf input (w ++ r)) (offsetOf input r) (parserAt input r)
      = (.ok w, parserAt input r) := by
  simp only [slice, parserAt, sliceBytes_offsetOf h]

theorem advanceWhile_at (property : Char → Bool) (h : s <:+ input) (hrounds : s.length < rounds) :
    advanceWhile property rounds (parserAt input s)
      = (.ok (), parserAt input (s.dropWhile property)) := by
  induction rounds generalizing s with
  | zero => cases hrounds
  | succ rounds ih =>
    rw [advanceWhile, bind_of_ok (peekChar_at h)]
    cases s with
    | nil => rfl
    | cons c cs =>
      simp only [List.head?_cons, List.dropWhile_cons]
      cases property c with
      | false => rfl
      | true =>
        simp only [if_true]
        rw [bind_of_ok (advance_at h)]
        exact ih ((List.suffix_cons c cs).trans h) (by simpa using hrounds)

variable [CharTables]

/-- What the loop over a comment leaves is skipped as it would be with the comment. -/
theorem skipComment_at (h : s <:+ input) (hrounds : s.length < rounds) :
    ∃ r, r <:+ s ∧ skipBlanksFrom true s = skipBlanks r ∧ (s ≠ [] → r.length < s.length) ∧
      skipComment rounds (parserAt input s) = (.ok (), parserAt input r) := by
  induction rounds generalizing s with
  | zero => cases hrounds
  | succ rounds ih =>
    rw [skipComment, bind_of_ok (peekChar_at h)]
    cases s with
    | nil => exact ⟨[], List.suffix_rfl, rfl, fun h => absurd rfl h, rfl⟩
    | cons c cs =>
      have hcs := (List.suffix_cons c cs).trans h
      simp only [List.head?_cons]
      rw [bind_of_ok (advance_at h)]
      by_cases hc : c = '\n'
      · rw [if_pos hc]
        exact ⟨cs, List.suffix_cons c cs, by simp [skipBlanksFrom, hc, skipBlanks],
          fun _ => by simp, rfl⟩
      · rw [if_neg hc]
        obtain ⟨r, hr, hskip, hlen, hrun⟩ := ih hcs (by simpa using hrounds)
        have hinside : (c != '\n') = true := by simpa using hc
        refine ⟨r, hr.trans (List.suffix_cons c cs), by rw [skipBlanksFrom, hinside, hskip],
          fun _ => ?_, hrun⟩
        have hle := hr.length_le
        simp only [List.length_cons]
        omega

theorem skipWhitespace_at (h : s <:+ input) (hrounds : s.length < rounds) :
    skipWhitespace rounds (parserAt input s) = (.ok (), parserAt input (skipBlanks s)) := by
  induction rounds generalizing s with
  | zero => cases hrounds
  | succ rounds ih =>
    rw [skipWhitespace, bind_of_ok (peekChar_at h)]
    cases s with
    | nil => rfl
    | cons c cs =>
      have hcs := (List.suffix_cons c cs).trans h
      simp only [List.head?_cons, skipBlanks, skipBlanksFrom]
      by_cases hspace : CharTables.isWhitespace c = true
      · rw [if_pos hspace, if_pos hspace, bind_of_ok (advance_at h)]
        exact ih hcs (by simpa using hrounds)
      · rw [if_neg hspace, if_neg hspace]
        by_cases hc : c = '%'
        · rw [if_pos hc, if_pos hc]
          obtain ⟨r, hr, hskip, hlen, hrun⟩ := skipComment_at h hrounds
          have hlen' := hlen (List.cons_ne_nil c cs)
          rw [bind_of_ok hrun, ih (hr.trans h) (by omega), ← hskip, hc]
          rfl
        · rw [if_neg hc, if_neg hc]
          rfl

theorem reads_expectChar (expected : Char) (h : s <:+ input) (hrounds : s.length < rounds) :
    Reads input s (fun _ r => skipBlanks s = expected :: r) (expectChar expected rounds) := by
  have hsuffix := (skipBlanks_suffix s).trans h
  refine Reads.after (skipWhitespace_at h hrounds) (skipBlanks_suffix s)
    (Reads.after (peekChar_at hsuffix) List.suffix_rfl ?_)
  cases hs : skipBlanks s with
  | nil => exact Reads.error rfl (by simp)
  | cons c cs =>
    rw [hs] at hsuffix
    simp only [List.head?_cons]
    by_cases hc : c = expected
    · rw [if_pos hc]
      exact Reads.ok (advance_at hsuffix) (List.suffix_cons c cs) (by simp [hc, eq_comm])
    · rw [if_neg hc]
      exact Reads.error rfl (by simp [hc])

/-! ## Tokens -/

omit [CharTables] in
/-- The text that a loop went over. -/
theorem slice_dropWhile (property : Char → Bool) (h : s <:+ input) :
    slice (offsetOf input s) (offsetOf input (s.dropWhile property))
        (parserAt input (s.dropWhile property))
      = (.ok (s.takeWhile property), parserAt input (s.dropWhile property)) := by
  have hsplit := List.takeWhile_append_dropWhile (p := property) (l := s)
  have hslice := slice_at (hsplit.symm ▸ h : s.takeWhile property ++ s.dropWhile property <:+ input)
  rwa [hsplit] at hslice

omit [CharTables] in
theorem offsetOf_dropWhile_eq_iff (property : Char → Bool) (h : s <:+ input) :
    offsetOf input (s.dropWhile property) = offsetOf input s ↔ s.takeWhile property = [] := by
  have hsplit := List.takeWhile_append_dropWhile (p := property) (l := s)
  have hadd := offsetOf_add
    (hsplit.symm ▸ h : s.takeWhile property ++ s.dropWhile property <:+ input)
  rw [hsplit] at hadd
  rw [← byteLength_eq_zero]
  omega

theorem reads_parseIdentifier (h : s <:+ input) (hrounds : s.length < rounds) :
    Reads input s (ReadsName s) (parseIdentifier rounds) := by
  have hdrop := List.dropWhile_suffix (l := s) isIdentifierChar
  refine Reads.after position_at List.suffix_rfl (Reads.after (advanceWhile_at _ h hrounds) hdrop
    (Reads.after position_at List.suffix_rfl ?_))
  have hiff := offsetOf_dropWhile_eq_iff isIdentifierChar h
  by_cases hempty : s.takeWhile isIdentifierChar = []
  · rw [if_pos (hiff.mpr hempty)]
    exact Reads.error rfl (by simp [ReadsName, hempty])
  · rw [if_neg (fun heq => hempty (hiff.mp heq))]
    exact Reads.after (slice_dropWhile _ h) List.suffix_rfl
      (Reads.ok rfl List.suffix_rfl (by simp [ReadsName, hempty]))

omit [CharTables] in
theorem reads_parseString (h : s <:+ input) (hrounds : s.length < rounds) :
    Reads input s (fun value r => value = String.ofList (s.takeWhile (fun ch => ch != '"')) ∧
      r = s.dropWhile (fun ch => ch != '"')) (parseString rounds) :=
  Reads.after position_at List.suffix_rfl (Reads.after (advanceWhile_at _ h hrounds)
    (List.dropWhile_suffix _) (Reads.after position_at List.suffix_rfl
      (Reads.after (slice_dropWhile _ h) List.suffix_rfl
        (Reads.ok rfl List.suffix_rfl (by simp)))))

omit [CharTables] in
theorem splitNumber_append (s : List Char) : (splitNumber s).1 ++ (splitNumber s).2 = s := by
  unfold splitNumber
  split <;> simp

omit [CharTables] in
/-- The loops of a number: the sign and the digits. -/
theorem splitNumber_run (h : s <:+ input) (hrounds : s.length < rounds) :
    ∃ t, t <:+ s ∧ (splitNumber s).2 <:+ t ∧
      advanceIf (s.head? == some '-') (parserAt input s) = (.ok (), parserAt input t) ∧
      advanceWhile Char.isDigit rounds (parserAt input t)
        = (.ok (), parserAt input (splitNumber s).2) := by
  unfold splitNumber
  split
  · next ds =>
    have hds := List.suffix_cons '-' ds
    exact ⟨ds, hds, List.dropWhile_suffix _, advance_at h,
      advanceWhile_at _ (hds.trans h) (by simp at hrounds; omega)⟩
  · next hminus =>
    have hhead : (s.head? == some '-') = false := by
      cases s with
      | nil => rfl
      | cons c cs =>
        have hc : c ≠ '-' := fun hc => hminus cs (hc ▸ rfl)
        simpa using hc
    rw [hhead]
    exact ⟨s, List.suffix_rfl, List.dropWhile_suffix _, rfl, advanceWhile_at _ h hrounds⟩

omit [CharTables] in
theorem reads_parseNumber (h : s <:+ input) (hrounds : s.length < rounds) :
    Reads input s (ReadsNumber s) (parseNumber rounds) := by
  have hsplit := splitNumber_append s
  have hslice := slice_at (hsplit.symm ▸ h : (splitNumber s).1 ++ (splitNumber s).2 <:+ input)
  rw [hsplit] at hslice
  obtain ⟨t, ht, hdigits, hsign, hloop⟩ := splitNumber_run h hrounds
  refine Reads.after position_at List.suffix_rfl (Reads.after (peekChar_at h) List.suffix_rfl
    (Reads.after hsign ht (Reads.after hloop hdigits (Reads.after position_at List.suffix_rfl
      (Reads.after hslice List.suffix_rfl ?_)))))
  cases hvalue : parseI64 (splitNumber s).1 with
  | none => exact Reads.error rfl (by simp [ReadsNumber, hvalue])
  | some value =>
    exact Reads.ok rfl List.suffix_rfl (by simp [ReadsNumber, hvalue, eq_comm])

/-! ## Lists -/

/-- The loop over items, if the function for one reads it wherever the loop comes. -/
theorem reads_parseItems {R : List Char → α → List Char → Prop} {item : Parse α} (h : s <:+ input)
    (hitem : ∀ t, t <:+ s → Reads input t (R t) item) (hrounds : s.length + 1 < rounds) :
    Reads input s (ReadsItems R s) (parseItems item rounds) := by
  induction rounds generalizing s with
  | zero => cases hrounds
  | succ rounds ih =>
    refine (Reads.bind (hitem s List.suffix_rfl) fun a r hr _ =>
      Reads.after (skipWhitespace_at (hr.trans h) ?_) (skipBlanks_suffix r)
        (Reads.after (peekChar_at ((skipBlanks_suffix r).trans (hr.trans h)))
          List.suffix_rfl ?_)).congr fun as r' => readsItems_iff
    · have hlen := hr.length_le
      omega
    · have hsuffix := (skipBlanks_suffix r).trans hr
      by_cases hcomma : (skipBlanks r).head? = some ','
      · rw [if_pos hcomma]
        obtain ⟨t, ht⟩ := List.head?_eq_some_iff.mp hcomma
        rw [ht] at hsuffix ⊢
        have hlen := hsuffix.length_le
        have htail := (List.suffix_cons ',' t).trans hsuffix
        have hblanks := (skipBlanks_suffix t).trans htail
        refine Reads.after (advance_at (hsuffix.trans h)) (List.suffix_cons ',' t)
          (Reads.after (skipWhitespace_at (htail.trans h) ?_) (skipBlanks_suffix t)
            ((Reads.bind (ih (hblanks.trans h) (fun u hu => hitem u (hu.trans hblanks)) ?_)
              fun rest u _ _ => Reads.ok rfl List.suffix_rfl fun _ _ => Iff.rfl).congr ?_))
        · simp only [List.length_cons] at hlen
          omega
        · have hle := (skipBlanks_suffix t).length_le
          simp only [List.length_cons] at hlen
          omega
        · simp [and_comm]
      · rw [if_neg hcomma]
        refine Reads.ok rfl List.suffix_rfl fun as r' => ?_
        have hnone : ∀ t, skipBlanks r ≠ ',' :: t := fun t ht => hcomma (by rw [ht]; rfl)
        simp [hcomma, hnone]

/-! ## Terms and predicates -/

theorem reads_parseTermList (h : s <:+ input)
    (hterm : ∀ t, t <:+ s → Reads input t (ReadsTerm t) term) (hrounds : s.length + 1 < rounds) :
    Reads input s (ReadsArgs s) (parseTermList term rounds) := by
  refine Reads.after (peekChar_at h) List.suffix_rfl ?_
  by_cases hclose : s.head? = some ')'
  · rw [if_pos hclose]
    exact Reads.ok rfl List.suffix_rfl (by simp [ReadsArgs, hclose])
  · rw [if_neg hclose]
    exact (reads_parseItems h hterm hrounds).congr (by simp [ReadsArgs, hclose])

/-- From after the opening parenthesis to after the closing one. -/
theorem reads_closing (f : List Term → β) (h : s <:+ input)
    (hterm : ∀ t, t <:+ s → Reads input t (ReadsTerm t) term) (hrounds : s.length + 1 < rounds) :
    Reads input s (fun b r => ∃ args r₂, b = f args ∧ ReadsArgs (skipBlanks s) args r₂ ∧
        skipBlanks r₂ = ')' :: r)
      (do
        skipWhitespace rounds
        let args ← parseTermList term rounds
        skipWhitespace rounds
        expectChar ')' rounds
        Pure.pure (f args)) := by
  have hblanks := skipBlanks_suffix s
  have hlen := hblanks.length_le
  refine Reads.after (skipWhitespace_at h (by omega)) hblanks ((Reads.bind
    (reads_parseTermList (hblanks.trans h) (fun t ht => hterm t (ht.trans hblanks)) (by omega))
    fun args r hr _ => Reads.after (skipWhitespace_at (hr.trans (hblanks.trans h)) ?_)
      (skipBlanks_suffix r) (Reads.bind (reads_expectChar ')' ?_ ?_) fun _ _ _ _ =>
        Reads.ok rfl List.suffix_rfl fun _ _ => Iff.rfl)).congr ?_)
  · have hle := hr.length_le
    omega
  · exact (skipBlanks_suffix r).trans (hr.trans (hblanks.trans h))
  · have hle := ((skipBlanks_suffix r).trans hr).length_le
    omega
  · intro b r
    simp only [skipBlanks_skipBlanks]
    constructor
    · rintro ⟨args, r₂, rfl, hargs, hclose⟩
      exact ⟨args, r₂, hargs, (), r, hclose, rfl, rfl⟩
    · rintro ⟨args, r₂, hargs, -, r', hclose, rfl, rfl⟩
      exact ⟨args, r₂, rfl, hargs, hclose⟩

/-! ## Terms -/

/-- The branch of `parse_term` for a first character. -/
theorem lead_cases (c : Char) :
    ((c = '?' || CharTables.isUppercase c) = true ∧ lead c = .var) ∨
    ((c = '?' || CharTables.isUppercase c) = false ∧
      ((c = '"' ∧ lead c = .quote) ∨
      (c ≠ '"' ∧ (c.isDigit || c = '-') = true ∧ lead c = .number) ∨
      (c ≠ '"' ∧ (c.isDigit || c = '-') = false ∧
        ((CharTables.isLowercase c = true ∧ lead c = .name) ∨
        (CharTables.isLowercase c = false ∧ lead c = .other))))) := by
  unfold lead
  split
  · next h => exact .inl ⟨h, rfl⟩
  · next h =>
    refine .inr ⟨Bool.not_eq_true _ ▸ h, ?_⟩
    split
    · next hq => exact .inl ⟨hq, rfl⟩
    · next hq =>
      split
      · next hn => exact .inr (.inl ⟨hq, hn, rfl⟩)
      · next hn =>
        refine .inr (.inr ⟨hq, Bool.not_eq_true _ ▸ hn, ?_⟩)
        split
        · next hl => exact .inl ⟨hl, rfl⟩
        · next hl => exact .inr ⟨Bool.not_eq_true _ ▸ hl, rfl⟩

theorem reads_variable {c : Char} {cs : List Char} (h : c :: cs <:+ input)
    (hrounds : cs.length + 1 < rounds) :
    Reads input (c :: cs) (fun t r => ∃ name, t = .var name ∧
        ReadsName (if c = '?' then cs else c :: cs) name r)
      (do
        advanceIf (c == '?')
        let name ← parseIdentifier rounds
        Pure.pure (Term.var name)) := by
  have hmark : advanceIf (c == '?') (parserAt input (c :: cs))
      = (.ok (), parserAt input (if c = '?' then cs else c :: cs)) := by
    by_cases hc : c = '?'
    · rw [hc]
      exact advance_at (hc ▸ h)
    · rw [beq_eq_false_iff_ne.mpr hc, if_neg hc]
      rfl
  have hsuffix : (if c = '?' then cs else c :: cs) <:+ c :: cs := by
    split
    · exact List.suffix_cons c cs
    · exact List.suffix_rfl
  have hlen := hsuffix.length_le
  simp only [List.length_cons] at hlen
  refine Reads.after hmark hsuffix ((Reads.bind
    (reads_parseIdentifier (hsuffix.trans h) (by omega)) fun _ _ _ _ =>
      Reads.ok rfl List.suffix_rfl fun _ _ => Iff.rfl).congr fun t r => ?_)
  constructor
  · rintro ⟨name, rfl, hname⟩
    exact ⟨name, r, hname, rfl, rfl⟩
  · rintro ⟨name, r', hname, rfl, rfl⟩
    exact ⟨name, rfl, hname⟩

theorem reads_quoted {c : Char} {cs : List Char} (h : c :: cs <:+ input)
    (hrounds : cs.length < rounds) :
    Reads input (c :: cs) (fun t r =>
        t = .const (.string (String.ofList (cs.takeWhile (fun ch => ch != '"')))) ∧
          skipBlanks (cs.dropWhile (fun ch => ch != '"')) = '"' :: r)
      (do
        advance
        let value ← parseString rounds
        expectChar '"' rounds
        Pure.pure (Term.const (.string value))) := by
  have hcs := (List.suffix_cons c cs).trans h
  refine Reads.after (advance_at h) (List.suffix_cons c cs) ((Reads.bind
    (reads_parseString hcs hrounds) fun value r hr _ => Reads.bind
      (reads_expectChar '"' (hr.trans hcs) (Nat.lt_of_le_of_lt hr.length_le hrounds))
        fun _ _ _ _ => Reads.ok rfl List.suffix_rfl fun _ _ => Iff.rfl).congr fun t r => ?_)
  constructor
  · rintro ⟨rfl, hclose⟩
    exact ⟨_, _, ⟨rfl, rfl⟩, (), r, hclose, rfl, rfl⟩
  · rintro ⟨_, _, ⟨rfl, rfl⟩, -, r', hclose, rfl, rfl⟩
    exact ⟨rfl, hclose⟩

/-- An atom or a function. -/
theorem reads_named (h : s <:+ input)
    (hterm : ∀ t, t <:+ s → t.length + 1 < s.length → Reads input t (ReadsTerm t) term)
    (hrounds : s.length < rounds) :
    Reads input s (fun t r => ∃ name r₁, ReadsName s name r₁ ∧
        (((skipBlanks r₁).head? ≠ some '(' ∧ t = .const (.string name) ∧ r = skipBlanks r₁) ∨
          ∃ args, t = .func name args ∧ ReadsParens r₁ args r))
      (do
        let name ← parseIdentifier rounds
        skipWhitespace rounds
        if (← peekChar) = some '(' then do
          advance
          skipWhitespace rounds
          let args ← parseTermList term rounds
          skipWhitespace rounds
          expectChar ')' rounds
          Pure.pure (Term.func name args)
        else Pure.pure (Term.const (.string name))) := by
  refine Reads.bind (reads_parseIdentifier h hrounds) fun name r₁ hr hname => ?_
  have hblanks := (skipBlanks_suffix r₁).trans hr
  have hle := hr.length_le
  refine Reads.after (skipWhitespace_at (hr.trans h) (by omega)) (skipBlanks_suffix r₁)
    (Reads.after (peekChar_at (hblanks.trans h)) List.suffix_rfl ?_)
  by_cases hopen : (skipBlanks r₁).head? = some '('
  · rw [if_pos hopen]
    obtain ⟨t, ht⟩ := List.head?_eq_some_iff.mp hopen
    have hlen := (skipBlanks_suffix r₁).length_le
    have hname' := hname.length_lt
    rw [ht] at hblanks hlen ⊢
    simp only [List.length_cons] at hlen
    have htail := (List.suffix_cons '(' t).trans hblanks
    refine Reads.after (advance_at (hblanks.trans h)) (List.suffix_cons '(' t)
      ((reads_closing (Term.func name) (htail.trans h) (fun u hu => hterm u (hu.trans htail) ?_)
        (by omega)).congr fun tm r => ?_)
    · have hu := hu.length_le
      omega
    · simp [ReadsParens, ht]
  · rw [if_neg hopen]
    have hnone : ∀ t, skipBlanks r₁ ≠ '(' :: t := fun t ht => hopen (by rw [ht]; rfl)
    exact Reads.ok rfl List.suffix_rfl fun tm r => by simp [hopen, ReadsParens, hnone]

theorem reads_parseTerm (h : s <:+ input) (hrounds : s.length + 1 < rounds) :
    Reads input s (ReadsTerm s) (parseTerm rounds) := by
  induction rounds generalizing s with
  | zero => cases hrounds
  | succ rounds ih =>
    have hsuffix := (skipBlanks_suffix s).trans h
    have hlen := (skipBlanks_suffix s).length_le
    refine Reads.after (skipWhitespace_at h (by omega)) (skipBlanks_suffix s)
      (Reads.after (peekChar_at hsuffix) List.suffix_rfl ?_)
    cases hs : skipBlanks s with
    | nil => exact Reads.error rfl fun _ _ => not_readsTerm_nil hs
    | cons c cs =>
      rw [hs] at hsuffix hlen
      simp only [List.length_cons] at hlen
      have hrest : (c :: cs).length < rounds := by
        simp only [List.length_cons]
        omega
      simp only [List.head?_cons]
      refine Reads.congr ?_ fun t r => readsTerm_cons_iff hs
      obtain ⟨hvar, hlead⟩ | ⟨hvar, ⟨rfl, hlead⟩ | ⟨hquote, hnumber, hlead⟩ |
        ⟨hquote, hnumber, ⟨hname, hlead⟩ | ⟨hname, hlead⟩⟩⟩ := lead_cases c
      · rw [if_pos hvar, hlead]
        exact reads_variable hsuffix hrest
      · rw [if_neg (Bool.eq_false_iff.mp hvar), if_pos rfl, hlead]
        exact reads_quoted hsuffix (Nat.lt_of_succ_lt hrest)
      · rw [if_neg (Bool.eq_false_iff.mp hvar), if_neg hquote, if_pos hnumber, hlead]
        refine (Reads.bind (reads_parseNumber hsuffix hrest) fun _ _ _ _ =>
          Reads.ok rfl List.suffix_rfl fun _ _ => Iff.rfl).congr fun t r => ?_
        constructor
        · rintro ⟨value, rfl, hvalue⟩
          exact ⟨value, r, hvalue, rfl, rfl⟩
        · rintro ⟨value, r', hvalue, rfl, rfl⟩
          exact ⟨value, rfl, hvalue⟩
      · rw [if_neg (Bool.eq_false_iff.mp hvar), if_neg hquote,
          if_neg (Bool.eq_false_iff.mp hnumber), if_pos hname, hlead]
        refine reads_named hsuffix (fun t ht hlt => ih (ht.trans hsuffix) ?_) hrest
        simp only [List.length_cons] at hlt
        omega
      · rw [if_neg (Bool.eq_false_iff.mp hvar), if_neg hquote,
          if_neg (Bool.eq_false_iff.mp hnumber), if_neg (Bool.eq_false_iff.mp hname), hlead]
        exact Reads.error rfl fun _ _ => id

/-! ## Predicates -/

theorem reads_parens (f : List Term → β) (h : s <:+ input) (hrounds : s.length + 1 < rounds) :
    Reads input s (fun b r => ∃ args, b = f args ∧ ReadsParens s args r)
      (do
        skipWhitespace rounds
        expectChar '(' rounds
        skipWhitespace rounds
        let args ← parseTermList (parseTerm rounds) rounds
        skipWhitespace rounds
        expectChar ')' rounds
        Pure.pure (f args)) := by
  have hblanks := skipBlanks_suffix s
  have hlen := hblanks.length_le
  refine Reads.after (skipWhitespace_at h (by omega)) hblanks ((Reads.bind
    (reads_expectChar '(' (hblanks.trans h) (by omega)) fun _ r hr _ =>
      reads_closing f (hr.trans (hblanks.trans h)) (fun t ht =>
        reads_parseTerm (ht.trans (hr.trans (hblanks.trans h))) ?_) ?_).congr ?_)
  · have hle := (ht.trans hr).length_le
    omega
  · have hle := hr.length_le
    omega
  · intro b r
    simp only [skipBlanks_skipBlanks]
    constructor
    · rintro ⟨args, rfl, r₁, r₂, hopen, hargs, hclose⟩
      exact ⟨(), r₁, hopen, args, r₂, rfl, hargs, hclose⟩
    · rintro ⟨-, r₁, hopen, args, r₂, rfl, hargs, hclose⟩
      exact ⟨args, rfl, r₁, r₂, hopen, hargs, hclose⟩

theorem reads_parsePredicate (h : s <:+ input) (hrounds : s.length < rounds) :
    Reads input s (ReadsPredicate s) (parsePredicate rounds) := by
  refine (Reads.bind (reads_parseIdentifier h hrounds) fun name r₁ hr hname =>
    reads_parens (Predicate.mk name) (hr.trans h) ?_).congr ?_
  · have hlt := hname.length_lt
    omega
  · intro p r
    constructor
    · rintro ⟨r₁, hname, hargs⟩
      exact ⟨_, r₁, hname, _, rfl, hargs⟩
    · rintro ⟨name, r₁, hname, args, rfl, hargs⟩
      exact ⟨r₁, hname, hargs⟩

theorem reads_parsePredicateList (h : s <:+ input) (hrounds : s.length + 1 < rounds) :
    Reads input s (ReadsItems ReadsPredicate s) (parsePredicateList rounds) :=
  reads_parseItems h (fun _ ht => reads_parsePredicate (ht.trans h)
    (Nat.lt_of_le_of_lt ht.length_le (Nat.lt_of_succ_lt hrounds))) hrounds

end

end Ipfrs.TensorLogic
