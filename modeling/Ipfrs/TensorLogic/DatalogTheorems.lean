/-
Ipfrs.TensorLogic.DatalogTheorems — where the parser panics.

Every position of the parser is at a character. The one look that counts bytes and not
characters is that for `:-` after the head of a statement; it panics where the second byte
from there on is inside a character (`parse_returns_iff`). Everything else ends, with `Ok` or
`Err`.
-/
import Ipfrs.TensorLogic.DatalogReads

namespace Ipfrs.TensorLogic

open Ipfrs.Lib Parse

section

variable {α : Type} {input s : List Char}

/-! ## Two bytes -/

/-- A text with no full stop at its start whose second byte is inside a character. -/
def CutsCharacter (s : List Char) : Prop :=
  s.head? ≠ some '.' ∧ 2 ≤ byteLength s ∧ ¬ IsCharBoundary s 2

theorem peekStr_short {n : Nat} (h : s <:+ input) (hn : byteLength s < n) :
    peekStr n (parserAt input s) = (.ok none, parserAt input s) := by
  have hlong : ¬ offsetOf input s + n ≤ byteLength input := by
    rw [offsetOf_add_le_iff h n]
    omega
  exact if_neg hlong

theorem peekStr_at {n : Nat} (h : s <:+ input) (hn : n ≤ byteLength s) :
    peekStr n (parserAt input s) = match takeBytes s n with
      | some text => (.ok (some text), parserAt input s)
      | none => (.error .panic, parserAt input s) := by
  have hle := (offsetOf_add_le_iff h n).mpr hn
  have hslice : slice (offsetOf input s) (offsetOf input s + n) (parserAt input s)
      = match takeBytes s n with
        | some text => (.ok text, parserAt input s)
        | none => (.error .panic, parserAt input s) := by
    rw [← sliceBytes_offsetOf_add h]
    rfl
  have hbind : peekStr n (parserAt input s)
      = (slice (offsetOf input s) (offsetOf input s + n) >>= fun text => Pure.pure (some text))
          (parserAt input s) :=
    if_pos hle
  rw [hbind]
  cases htake : takeBytes s n with
  | none =>
    rw [htake] at hslice
    rw [bind_of_error hslice]
  | some text =>
    rw [htake] at hslice
    rw [bind_of_ok hslice]
    rfl

theorem takeBytes_arrow {s : List Char} :
    takeBytes s 2 = some [':', '-'] ↔ ∃ t, s = ':' :: '-' :: t := by
  rw [takeBytes_eq_some_iff]
  have hlen : byteLength [':', '-'] = 2 := by decide
  simp [hlen]

variable [CharTables]

/-! ## Statements -/

/-- What comes after the head. -/
def ReadsAfterHead (head : Predicate) (s : List Char) (statement : Statement)
    (r : List Char) : Prop :=
  (statement = .fact head ∧ s = '.' :: r) ∨
    ∃ t body r', statement = .rule { head, body } ∧ s = ':' :: '-' :: t ∧
      ReadsItems ReadsPredicate (skipBlanks t) body r' ∧ skipBlanks r' = '.' :: r

theorem readsAfterHead_not {head : Predicate} (hstop : s.head? ≠ some '.')
    (harrow : ∀ t, s ≠ ':' :: '-' :: t) (statement : Statement) (r : List Char) :
    ¬ ReadsAfterHead head s statement r := by
  rintro (⟨-, rfl⟩ | ⟨t, -, -, -, ht, -⟩)
  · exact hstop rfl
  · exact harrow t ht

variable {rounds : Nat}

theorem reads_ruleBody (head : Predicate) {t : List Char} (h : ':' :: '-' :: t <:+ input)
    (hrounds : t.length + 2 < rounds) :
    Reads input (':' :: '-' :: t) (ReadsAfterHead head (':' :: '-' :: t))
      (do
        advance
        advance
        skipWhitespace rounds
        let body ← parsePredicateList rounds
        skipWhitespace rounds
        expectChar '.' rounds
        Pure.pure (Statement.rule { head, body })) := by
  have hdash := List.suffix_cons ':' ('-' :: t)
  have ht := List.suffix_cons '-' t
  have hin := (ht.trans hdash).trans h
  have hblanks := skipBlanks_suffix t
  have hlen := hblanks.length_le
  refine Reads.after (advance_at h) hdash (Reads.after (advance_at (hdash.trans h)) ht
    (Reads.after (skipWhitespace_at hin (by omega)) hblanks ((Reads.bind
      (reads_parsePredicateList (hblanks.trans hin) (by omega)) fun body r hr _ =>
        Reads.after (skipWhitespace_at (hr.trans (hblanks.trans hin)) ?_) (skipBlanks_suffix r)
          (Reads.bind (reads_expectChar '.' ?_ ?_) fun _ _ _ _ =>
            Reads.ok rfl List.suffix_rfl fun _ _ => Iff.rfl)).congr ?_)))
  · have hle := hr.length_le
    omega
  · exact (skipBlanks_suffix r).trans (hr.trans (hblanks.trans hin))
  · have hle := ((skipBlanks_suffix r).trans hr).length_le
    omega
  · intro statement r
    simp only [skipBlanks_skipBlanks]
    constructor
    · rintro (⟨-, hstop⟩ | ⟨t', body, r', rfl, ht', hbody, hstop⟩)
      · exact absurd (List.cons.inj hstop).1 (by decide)
      · obtain rfl : t = t' := by simpa using ht'
        exact ⟨body, r', hbody, (), r, hstop, rfl, rfl⟩
    · rintro ⟨body, r', hbody, -, r'', hstop, rfl, rfl⟩
      exact .inr ⟨t, body, r', rfl, rfl, hbody, hstop⟩

theorem reads_parseAfterHead (head : Predicate) (h : s <:+ input) (hrounds : s.length < rounds)
    (hcut : ¬ CutsCharacter s) :
    Reads input s (ReadsAfterHead head s) (parseAfterHead head rounds) := by
  refine Reads.after (peekChar_at h) List.suffix_rfl ?_
  by_cases hstop : s.head? = some '.'
  · rw [if_pos hstop]
    obtain ⟨t, rfl⟩ := List.head?_eq_some_iff.mp hstop
    refine Reads.after (advance_at h) (List.suffix_cons '.' t)
      (Reads.ok rfl List.suffix_rfl fun statement r => ?_)
    simp [ReadsAfterHead, eq_comm]
  · rw [if_neg hstop]
    by_cases hshort : byteLength s < 2
    · have harrow : ∀ t, s ≠ ':' :: '-' :: t := by
        rintro t rfl
        have hlen : byteLength [':', '-'] = 2 := by decide
        simp at hshort hlen
        omega
      refine Reads.after (peekStr_short h hshort) List.suffix_rfl ?_
      rw [if_neg (by simp)]
      exact Reads.error rfl (readsAfterHead_not hstop harrow)
    · have htwo : 2 ≤ byteLength s := by omega
      have hpeek := peekStr_at h htwo
      cases htake : takeBytes s 2 with
      | none => exact absurd ⟨hstop, htwo, takeBytes_eq_none_iff.mp htake⟩ hcut
      | some text =>
        rw [htake] at hpeek
        refine Reads.after hpeek List.suffix_rfl ?_
        by_cases htext : text = [':', '-']
        · rw [if_pos (by rw [htext])]
          obtain ⟨t, rfl⟩ := takeBytes_arrow.mp (htext ▸ htake)
          exact reads_ruleBody head h hrounds
        · rw [if_neg (by simpa using htext)]
          refine Reads.error rfl (readsAfterHead_not hstop fun t ht => htext ?_)
          rw [takeBytes_arrow.mpr ⟨t, ht⟩, Option.some.injEq] at htake
          exact htake.symm

theorem parseAfterHead_panic (head : Predicate) (h : s <:+ input) (hcut : CutsCharacter s) :
    parseAfterHead head rounds (parserAt input s) = (.error .panic, parserAt input s) := by
  obtain ⟨hstop, htwo, hboundary⟩ := hcut
  have hpeek := peekStr_at h htwo
  rw [takeBytes_eq_none_iff.mpr hboundary] at hpeek
  rw [parseAfterHead, bind_of_ok (peekChar_at h), if_neg hstop, bind_of_error hpeek]

/-- The text of a head and blanks, and then a character in which the look at two bytes
ends. -/
def Trapped (s : List Char) : Prop :=
  (skipBlanks s).head? ≠ some '?' ∧
    ∃ p r, ReadsPredicate (skipBlanks s) p r ∧ CutsCharacter (skipBlanks r)

theorem reads_parseQuery {t : List Char} (h : '?' :: t <:+ input) (hrounds : t.length < rounds) :
    Reads input ('?' :: t) (fun statement r => ∃ t' p r', statement = .query p ∧
        skipBlanks t = '-' :: t' ∧ ReadsPredicate (skipBlanks t') p r' ∧ skipBlanks r' = '.' :: r)
      (Parse.parseQuery rounds) := by
  have hmark := List.suffix_cons '?' t
  have ht := hmark.trans h
  refine Reads.after (advance_at h) hmark ((Reads.bind (reads_expectChar '-' ht hrounds)
    fun _ t' ht' _ => Reads.after (skipWhitespace_at (ht'.trans ht) ?_) (skipBlanks_suffix t')
      (Reads.bind (reads_parsePredicate ?_ ?_) fun p r hr _ =>
        Reads.after (skipWhitespace_at ?_ ?_) (skipBlanks_suffix r)
          (Reads.bind (reads_expectChar '.' ?_ ?_) fun _ _ _ _ =>
            Reads.ok rfl List.suffix_rfl fun _ _ => Iff.rfl))).congr ?_)
  · exact Nat.lt_of_le_of_lt ht'.length_le hrounds
  · exact (skipBlanks_suffix t').trans (ht'.trans ht)
  · exact Nat.lt_of_le_of_lt ((skipBlanks_suffix t').trans ht').length_le hrounds
  · exact hr.trans ((skipBlanks_suffix t').trans (ht'.trans ht))
  · exact Nat.lt_of_le_of_lt (hr.trans ((skipBlanks_suffix t').trans ht')).length_le hrounds
  · exact (skipBlanks_suffix r).trans (hr.trans ((skipBlanks_suffix t').trans (ht'.trans ht)))
  · exact Nat.lt_of_le_of_lt
      ((skipBlanks_suffix r).trans (hr.trans ((skipBlanks_suffix t').trans ht'))).length_le
      hrounds
  · intro statement r
    simp only [skipBlanks_skipBlanks]
    constructor
    · rintro ⟨t', p, r', rfl, hdash, hp, hstop⟩
      exact ⟨(), t', hdash, p, r', hp, (), r, hstop, rfl, rfl⟩
    · rintro ⟨-, t', hdash, p, r', hp, -, r'', hstop, rfl, rfl⟩
      exact ⟨t', p, r', rfl, hdash, hp, hstop⟩

/-- What a statement is, by the first character after the blanks. -/
theorem readsStatement_iff {statement : Statement} {r : List Char} : ReadsStatement s statement r ↔
      (∃ t t' p r', skipBlanks s = '?' :: t ∧ statement = .query p ∧ skipBlanks t = '-' :: t' ∧
          ReadsPredicate (skipBlanks t') p r' ∧ skipBlanks r' = '.' :: r) ∨
        ((skipBlanks s).head? ≠ some '?' ∧ ∃ p r', ReadsPredicate (skipBlanks s) p r' ∧
          ReadsAfterHead p (skipBlanks r') statement r) := by
  constructor
  · intro h
    cases h with
    | query hs hdash hp hstop => exact .inl ⟨_, _, _, _, hs, rfl, hdash, hp, hstop⟩
    | fact hs hp hstop => exact .inr ⟨hs, _, _, hp, .inl ⟨rfl, hstop⟩⟩
    | rule hs hp harrow hbody hstop =>
      exact .inr ⟨hs, _, _, hp, .inr ⟨_, _, _, rfl, harrow, hbody, hstop⟩⟩
  · rintro (⟨t, t', p, r', hs, rfl, hdash, hp, hstop⟩ | ⟨hs, p, r', hp, ⟨rfl, hstop⟩ |
      ⟨t, body, r'', rfl, harrow, hbody, hstop⟩⟩)
    · exact .query hs hdash hp hstop
    · exact .fact hs hp hstop
    · exact .rule hs hp harrow hbody hstop

/-- **A statement is read** wherever no character is cut. -/
theorem reads_parseStatement (h : s <:+ input) (hrounds : s.length < rounds) (htrap : ¬ Trapped s) :
    Reads input s (ReadsStatement s) (parseStatement rounds) := by
  have hblanks := skipBlanks_suffix s
  have hlen := hblanks.length_le
  refine Reads.after (skipWhitespace_at h hrounds) hblanks
    (Reads.after (peekChar_at (hblanks.trans h)) List.suffix_rfl ?_)
  by_cases hquery : (skipBlanks s).head? = some '?'
  · rw [if_pos hquery]
    obtain ⟨t, ht⟩ := List.head?_eq_some_iff.mp hquery
    refine Reads.congr ?_ fun statement r => readsStatement_iff
    rw [ht] at hblanks hlen ⊢
    refine (reads_parseQuery (hblanks.trans h) (by simp at hlen; omega)).congr fun _ _ => ?_
    simp
  · rw [if_neg hquery]
    refine (Reads.bind (reads_parsePredicate (hblanks.trans h) (by omega)) fun p r hr hp =>
      Reads.after (skipWhitespace_at (hr.trans (hblanks.trans h)) ?_) (skipBlanks_suffix r)
        (reads_parseAfterHead p ?_ ?_ fun hcut => htrap ⟨hquery, p, r, hp, hcut⟩)).congr ?_
    · exact Nat.lt_of_le_of_lt (hr.trans hblanks).length_le hrounds
    · exact (skipBlanks_suffix r).trans (hr.trans (hblanks.trans h))
    · exact Nat.lt_of_le_of_lt ((skipBlanks_suffix r).trans (hr.trans hblanks)).length_le hrounds
    · intro statement r
      have hne : ∀ t, skipBlanks s ≠ '?' :: t := fun t ht => hquery (by rw [ht]; rfl)
      rw [readsStatement_iff]
      simp [hquery, hne]

theorem parseStatement_panic (h : s <:+ input) (hrounds : s.length < rounds) (htrap : Trapped s) :
    (parseStatement rounds (parserAt input s)).1 = .error .panic := by
  obtain ⟨hquery, p, r, hp, hcut⟩ := htrap
  have hblanks := skipBlanks_suffix s
  have hlen := hblanks.length_le
  obtain ⟨hr, hhead⟩ :=
    (reads_parsePredicate (hblanks.trans h) (Nat.lt_of_le_of_lt hlen hrounds)).complete hp
  have hin := hr.trans (hblanks.trans h)
  have hle := (hr.trans hblanks).length_le
  rw [parseStatement, bind_of_ok (skipWhitespace_at h hrounds),
    bind_of_ok (peekChar_at (hblanks.trans h)), if_neg hquery, bind_of_ok hhead,
    bind_of_ok (skipWhitespace_at hin (by omega)),
    parseAfterHead_panic p ((skipBlanks_suffix r).trans hin) hcut]

omit [CharTables] in
theorem parserAt_inj {r r' : List Char} (hr : r <:+ input) (hr' : r' <:+ input)
    (h : parserAt input r = parserAt input r') : r = r' := by
  have hdrop := dropBytes_offsetOf hr
  have hpos : offsetOf input r = offsetOf input r' := congrArg DatalogParser.position h
  rw [hpos, dropBytes_offsetOf hr', Option.some.injEq] at hdrop
  exact hdrop.symm

/-- A text begins with one predicate only. -/
theorem ReadsPredicate.unique {p p' : Predicate} {r r' : List Char} (h : ReadsPredicate s p r)
    (h' : ReadsPredicate s p' r') : r = r' := by
  have hreads := reads_parsePredicate (List.suffix_rfl : s <:+ s) (Nat.lt_succ_self s.length)
  obtain ⟨hr, hrun⟩ := hreads.complete h
  obtain ⟨hr', hrun'⟩ := hreads.complete h'
  exact parserAt_inj hr hr' (congrArg Prod.snd (hrun.symm.trans hrun'))

theorem ReadsStatement.not_trapped {statement : Statement} {r : List Char}
    (h : ReadsStatement s statement r) : ¬ Trapped s := by
  rintro ⟨hquery, p, r', hp, hcut⟩
  cases h with
  | query hs => exact hquery (by rw [hs]; rfl)
  | fact _ hp' hstop =>
    rw [hp.unique hp', hstop] at hcut
    exact hcut.1 rfl
  | rule _ hp' harrow =>
    rw [hp.unique hp', harrow] at hcut
    exact hcut.2.2 ⟨[':', '-'], _, rfl, by decide⟩

/-! ## Runs -/

/-- `Ok` or `Err`: no panic, and rounds enough. -/
def Returns : Except Halt α → Prop
  | .ok _ => True
  | .error (.error _) => True
  | .error .panic => False
  | .error .unfinished => False

omit [CharTables] in
theorem Clean.returns {R : α → List Char → Prop} {out : Except Halt α × DatalogParser}
    (h : Clean input s R out) : Returns out.1 := by
  cases h <;> trivial

omit [CharTables] in
theorem Clean.rest {R : α → List Char → Prop} {out : Except Halt α × DatalogParser}
    (h : Clean input s R out) : ∃ r, r <:+ s ∧ out.2 = parserAt input r := by
  cases h with
  | ok hr _ => exact ⟨_, hr, rfl⟩
  | err hr => exact ⟨_, hr, rfl⟩

/-- The states of a parser between calls of `parse_statement` that returned. -/
inductive Reached (rounds : Nat) (input : String) : DatalogParser → Prop where
  | new : Reached rounds input (DatalogParser.new input)
  | next {p} : Reached rounds input p → Returns (parseStatement rounds p).1 →
      Reached rounds input (parseStatement rounds p).2

theorem returns_parseStatement_iff (h : s <:+ input) (hrounds : s.length < rounds) :
    Returns (parseStatement rounds (parserAt input s)).1 ↔ ¬ Trapped s := by
  constructor
  · intro hreturns htrap
    rw [parseStatement_panic h hrounds htrap] at hreturns
    exact hreturns
  · intro htrap
    exact (reads_parseStatement h hrounds htrap).clean.returns

omit [CharTables] in
theorem new_eq (input : String) : DatalogParser.new input = parserAt input.toList input.toList := by
  simp [DatalogParser.new, parserAt]

theorem Reached.rest {input : String} {p : DatalogParser} (h : Reached rounds input p)
    (hrounds : input.toList.length < rounds) :
    ∃ rest, rest <:+ input.toList ∧ p = parserAt input.toList rest := by
  induction h with
  | new => exact ⟨_, List.suffix_rfl, new_eq input⟩
  | next _ hreturns ih =>
    obtain ⟨rest, hrest, rfl⟩ := ih
    have hlen := Nat.lt_of_le_of_lt hrest.length_le hrounds
    have htrap := (returns_parseStatement_iff hrest hlen).mp hreturns
    obtain ⟨r, hr, hp⟩ := (reads_parseStatement hrest hlen htrap).clean.rest
    exact ⟨r, hr.trans hrest, hp⟩

theorem returns_parseAs_iff (kind : Statement → Option α) (expected : String) {input : String}
    (hrounds : input.toList.length < rounds) :
    Returns (parseAs kind expected rounds input) ↔ ¬ Trapped input.toList := by
  rw [← returns_parseStatement_iff List.suffix_rfl hrounds, ← new_eq, parseAs]
  cases (parseStatement rounds (DatalogParser.new input)).1 with
  | error halt => cases halt <;> exact Iff.rfl
  | ok statement =>
    dsimp only
    cases kind statement <;> exact Iff.rfl

/-- **The parser returns** exactly where no character is cut: from every state that a parser
reaches, all of which are at a character, and on every text. -/
theorem parse_returns_iff (input : String) {rounds : Nat} (h : input.toList.length < rounds) :
    (∀ p, Reached rounds input p → ∃ rest, rest <:+ input.toList ∧ p = parserAt input.toList rest ∧
          (Returns (parseStatement rounds p).1 ↔ ¬ Trapped rest)) ∧
      (Returns (parseFact rounds input) ↔ ¬ Trapped input.toList) ∧
      (Returns (parseRule rounds input) ↔ ¬ Trapped input.toList) ∧
      (Returns (parseQuery rounds input) ↔ ¬ Trapped input.toList) := by
  refine ⟨fun p hp => ?_, returns_parseAs_iff _ _ h, returns_parseAs_iff _ _ h,
    returns_parseAs_iff _ _ h⟩
  obtain ⟨rest, hrest, rfl⟩ := hp.rest h
  exact ⟨rest, hrest, rfl, returns_parseStatement_iff hrest
    (Nat.lt_of_le_of_lt hrest.length_le h)⟩

end

namespace DatalogSample

/-- The Unicode properties of ASCII characters. -/
scoped instance asciiTables : CharTables where
  isAlphanumeric := Char.isAlphanum
  isUppercase := Char.isUpper
  isLowercase := Char.isLower
  isWhitespace c := c == ' ' || decide (9 ≤ c.toNat ∧ c.toNat ≤ 13)

theorem parse_returns_iff_fact :
    (∀ p, Reached 6 "p(a)." p → ∃ rest, rest <:+ "p(a).".toList ∧
        p = parserAt "p(a).".toList rest ∧
          (Returns (parseStatement 6 p).1 ↔ ¬ Trapped rest)) ∧
      (Returns (parseFact 6 "p(a).") ↔ ¬ Trapped "p(a).".toList) ∧
      (Returns (parseRule 6 "p(a).") ↔ ¬ Trapped "p(a).".toList) ∧
      (Returns (parseQuery 6 "p(a).") ↔ ¬ Trapped "p(a).".toList) :=
  parse_returns_iff "p(a)." (by decide)

/-- The look at two bytes ends inside the euro sign. -/
theorem not_parse_returns : ¬ ∀ (input : String) (rounds : Nat), input.toList.length < rounds →
      Returns (parseStatement rounds (DatalogParser.new input)).1 ∧
        Returns (parseFact rounds input) ∧ Returns (parseRule rounds input) ∧
        Returns (parseQuery rounds input) := by
  intro h
  have hreturns := (h "p()€" 5 (by decide)).1
  have hpanic : (parseStatement 5 (DatalogParser.new "p()€")).1 = .error .panic := by rfl
  rw [hpanic] at hreturns
  exact hreturns

end DatalogSample

end Ipfrs.TensorLogic
