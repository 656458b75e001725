/-
Ipfrs.Lib.DebugText — texts of nested values, as derived `Debug` writes them.

Lists are in brackets, pairs in parentheses, strings quoted and escaped; what is not
quoted ends where one of a few characters comes (`isStop`). A `Printer` carries the proof
that the value and what follows it can be told from such a text, so that the text of a
value built from several determines them all.

`parseI64` reads a 64-bit integer from a decimal text: a sign and at least one digit, of a
number in range, and nothing else. It reads back what `intText` writes.
-/
import Ipfrs.Lib.QuotedText

namespace Ipfrs.Lib.DebugText

/-- The characters that come after a value. -/
def isStop (c : Char) : Bool := c == ',' || c == ']' || c == ')' || c == ' '

/-- A text that goes on with such a character. -/
def AtStop (r : List Char) : Prop := ∃ c l, r = c :: l ∧ isStop c = true

theorem atStop_cons {c : Char} (h : isStop c = true) (l : List Char) : AtStop (c :: l) :=
  ⟨c, l, rfl, h⟩

/-- A text for each value, from which the value can be read. -/
structure Printer (α : Type) where
  text : α → List Char
  head : ∀ a, ∃ c l, text a = c :: l ∧ isStop c = false
  delimited : ∀ {a b : α} {r s : List Char}, AtStop r → AtStop s →
    text a ++ r = text b ++ s → a = b ∧ r = s

/-- A loop over characters ends where the next has not the property. -/
theorem takeWhile_stop (property : Char → Bool) {text r : List Char}
    (htext : ∀ c ∈ text, property c = true) (hr : ∀ c ∈ r.head?, property c = false) :
    (text ++ r).takeWhile property = text ∧ (text ++ r).dropWhile property = r := by
  rw [List.takeWhile_append_of_pos htext, List.dropWhile_append_of_pos htext]
  cases r with
  | nil => simp
  | cons c cs =>
    have hc := hr c rfl
    simp [hc]

namespace Printer

/-! ## Tokens -/

variable {r s : List Char} {c d e : Char}

/-- Two texts without any of some characters, each up to one of these. -/
theorem append_inj_of_stop (stop : Char → Bool) {t u : List Char} (ht : ∀ x ∈ t, stop x = false)
    (hu : ∀ x ∈ u, stop x = false) (hc : stop c = true) (hd : stop d = true)
    (h : t ++ c :: r = u ++ d :: s) : t = u ∧ c :: r = d :: s := by
  induction t generalizing u with
  | nil =>
    cases u with
    | nil => exact ⟨rfl, h⟩
    | cons x u =>
      have hx : c = x := (List.cons.inj h).1
      rw [hx, hu x List.mem_cons_self] at hc
      cases hc
  | cons x t ih =>
    cases u with
    | nil =>
      have hx : x = d := (List.cons.inj h).1
      rw [← hx, ht x List.mem_cons_self] at hd
      cases hd
    | cons y u =>
      obtain ⟨hxy, htail⟩ := List.cons.inj h
      obtain ⟨htu, hrest⟩ := ih (fun z hz => ht z (List.mem_cons_of_mem _ hz))
        (fun z hz => hu z (List.mem_cons_of_mem _ hz)) htail
      exact ⟨by rw [hxy, htu], hrest⟩

/-- A value that is written without a stop. -/
def token {α : Type} (f : α → List Char) (hinj : Function.Injective f) (hne : ∀ a, f a ≠ [])
    (hstop : ∀ a, ∀ c ∈ f a, isStop c = false) : Printer α where
  text := f
  head a := by
    obtain ⟨c, l, h⟩ := List.exists_cons_of_ne_nil (hne a)
    exact ⟨c, l, h, hstop a c (h ▸ List.mem_cons_self)⟩
  delimited hr hs h := by
    obtain ⟨c, r, rfl, hc⟩ := hr
    obtain ⟨d, s, rfl, hd⟩ := hs
    obtain ⟨hab, hrs⟩ := append_inj_of_stop isStop (hstop _) (hstop _) hc hd h
    exact ⟨hinj hab, hrs⟩

theorem isStop_of_isDigit (h : c.isDigit = true) : isStop c = false := by
  simp only [isStop, Bool.or_eq_false_iff, beq_eq_false_iff_ne]
  refine ⟨⟨⟨?_, ?_⟩, ?_⟩, ?_⟩ <;> rintro rfl <;> exact absurd h (by decide)

theorem toDigits_injective : Function.Injective (Nat.toDigits 10) := by
  intro m n h
  have hnum := congrArg (fun l => Nat.ofDigitChars 10 l 0) h
  simpa only [Nat.ofDigitChars_ten_toDigits] using hnum

theorem isDigit_of_mem_toDigits {n : Nat} (h : c ∈ Nat.toDigits 10 n) : c.isDigit = true :=
  Nat.isDigit_of_mem_toDigits (by decide) (by decide) h

def nat : Printer Nat :=
  token (Nat.toDigits 10) toDigits_injective (fun _ => Nat.toDigits_ne_nil)
    (fun _ _ hc => isStop_of_isDigit (isDigit_of_mem_toDigits hc))

def intText : Int → List Char
  | .ofNat n => Nat.toDigits 10 n
  | .negSucc n => '-' :: Nat.toDigits 10 (n + 1)

theorem intText_injective : Function.Injective intText := by
  have hminus : ∀ m n : Nat, Nat.toDigits 10 m ≠ '-' :: Nat.toDigits 10 (n + 1) := by
    intro m n h
    have hdigit := isDigit_of_mem_toDigits (n := m) (h ▸ List.mem_cons_self)
    exact absurd hdigit (by decide)
  intro a b h
  match a, b with
  | .ofNat m, .ofNat n => rw [toDigits_injective h]
  | .ofNat m, .negSucc n => exact absurd h (hminus m n)
  | .negSucc m, .ofNat n => exact absurd h.symm (hminus n m)
  | .negSucc m, .negSucc n =>
    have heq : m + 1 = n + 1 := toDigits_injective (List.cons.inj h).2
    rw [Nat.succ.inj heq]

def int : Printer Int :=
  token intText intText_injective
    (fun a => by
      cases a with
      | ofNat n => exact Nat.toDigits_ne_nil
      | negSucc n => exact List.cons_ne_nil _ _)
    (fun a c hc => by
      cases a with
      | ofNat n => exact isStop_of_isDigit (isDigit_of_mem_toDigits hc)
      | negSucc n =>
        rcases List.mem_cons.mp hc with rfl | hc
        · rfl
        · exact isStop_of_isDigit (isDigit_of_mem_toDigits hc))

def boolText (b : Bool) : List Char := if b then "true".toList else "false".toList

theorem boolText_all (b : Bool) : (boolText b).all (fun c => !isStop c) = true := by
  cases b <;> decide

def bool : Printer Bool :=
  token boolText (fun a b h => by cases a <;> cases b <;> first | rfl | cases h)
    (fun a => by cases a <;> decide)
    (fun a c hc => by simpa using List.all_eq_true.mp (boolText_all a) c hc)

/-! ## Strings -/

theorem digitChar_inj : ∀ d < 16, ∀ e < 16, Nat.digitChar d = Nat.digitChar e → d = e := by
  decide

theorem toDigits_sixteen_injective : Function.Injective (Nat.toDigits 16) := by
  intro m n h
  induction m using Nat.strongRecOn generalizing n with
  | ind m ih =>
    rw [Nat.toDigits_eq_if (by decide), Nat.toDigits_eq_if (n := n) (by decide)] at h
    have hne : ∀ k, Nat.toDigits 16 k ≠ [] := fun k => Nat.toDigits_ne_nil
    split at h <;> split at h
    · next hm hn => exact digitChar_inj m hm n hn (List.cons.inj h).1
    · have hlen := congrArg List.length h
      simp at hlen
    · have hlen := congrArg List.length h
      simp at hlen
    · next hm hn =>
      obtain ⟨hdiv, hmod⟩ := List.append_inj' h rfl
      have hlow := digitChar_inj _ (Nat.mod_lt _ (by decide)) _ (Nat.mod_lt _ (by decide))
        (List.cons.inj hmod).1
      have hhigh := ih (m / 16) (by omega) hdiv
      omega

theorem exists_digit_of_mem {n : Nat} (h : c ∈ Nat.toDigits 16 n) :
    ∃ d < 16, c = Nat.digitChar d := by
  induction n using Nat.strongRecOn with
  | ind n ih =>
    rw [Nat.toDigits_eq_if (by decide)] at h
    split at h
    · next hn => exact ⟨n, hn, List.mem_singleton.mp h⟩
    · rcases List.mem_append.mp h with hhigh | hlow
      · exact ih (n / 16) (by omega) hhigh
      · exact ⟨n % 16, Nat.mod_lt _ (by decide), List.mem_singleton.mp hlow⟩

/-- The characters with an escape of their own, and its letter. -/
def special (c : Char) : Option Char :=
  if c = '\x00' then some '0'
  else if c = '\t' then some 't'
  else if c = '\r' then some 'r'
  else if c = '\n' then some 'n'
  else if c = '"' then some '"'
  else if c = '\\' then some '\\'
  else none

theorem special_eq_some (h : special c = some e) :
    (c, e) ∈ [('\x00', '0'), ('\t', 't'), ('\r', 'r'), ('\n', 'n'), ('"', '"'), ('\\', '\\')] := by
  unfold special at h
  repeat' split at h
  all_goals cases h
  all_goals subst_vars
  all_goals decide

theorem special_injective (hc : special c = some e) (hd : special d = some e) : c = d := by
  have hall : ∀ p ∈ [('\x00', '0'), ('\t', 't'), ('\r', 'r'), ('\n', 'n'), ('"', '"'),
      ('\\', '\\')], ∀ q ∈ [('\x00', '0'), ('\t', 't'), ('\r', 'r'), ('\n', 'n'), ('"', '"'),
      ('\\', '\\')], p.2 = q.2 → p.1 = q.1 := by decide
  exact hall _ (special_eq_some hc) _ (special_eq_some hd) rfl

theorem special_ne_u (h : special c = some e) : e ≠ 'u' := by
  have hall : ∀ p ∈ [('\x00', '0'), ('\t', 't'), ('\r', 'r'), ('\n', 'n'), ('"', '"'),
      ('\\', '\\')], p.2 ≠ 'u' := by decide
  exact hall _ (special_eq_some h)

/-- A character inside a quoted string; `shown` are those written as they are. -/
def escape (shown : Char → Bool) (c : Char) : List Char :=
  match special c with
  | some e => ['\\', e]
  | none =>
    if shown c then [c]
    else '\\' :: 'u' :: '\x7b' :: (Nat.toDigits 16 c.toNat ++ ['\x7d'])

theorem ne_backslash (h : special c = none) : c ≠ '\\' := by
  rintro rfl
  cases h

theorem ne_quote (h : special c = none) : c ≠ '"' := by
  rintro rfl
  cases h

theorem escape_head (shown : Char → Bool) (c : Char) :
    ∃ x l, escape shown c = x :: l ∧ x ≠ '"' := by
  unfold escape
  split
  · exact ⟨_, _, rfl, by decide⟩
  · next hnone =>
    split
    · exact ⟨_, _, rfl, ne_quote hnone⟩
    · exact ⟨_, _, rfl, by decide⟩

/-- Hexadecimal digits up to a closing brace. -/
theorem hex_inj {m n : Nat}
    (h : Nat.toDigits 16 m ++ '\x7d' :: r = Nat.toDigits 16 n ++ '\x7d' :: s) : m = n ∧ r = s := by
  have hbrace : ∀ d < 16, (Nat.digitChar d == '\x7d') = false := by decide
  have hnot : ∀ k, ∀ x ∈ Nat.toDigits 16 k, (x == '\x7d') = false := by
    intro k x hx
    obtain ⟨d, hd, rfl⟩ := exists_digit_of_mem hx
    exact hbrace d hd
  obtain ⟨hdigits, hrest⟩ := append_inj_of_stop (fun x => x == '\x7d') (hnot m) (hnot n)
    (by decide) (by decide) h
  exact ⟨toDigits_sixteen_injective hdigits, (List.cons.inj hrest).2⟩

theorem escape_inj {shown : Char → Bool} (h : escape shown c ++ r = escape shown d ++ s) :
    c = d ∧ r = s := by
  unfold escape at h
  cases hc : special c with
  | some e =>
    cases hd : special d with
    | some e' =>
      simp only [hc, hd, List.cons_append, List.nil_append, List.cons.injEq, true_and] at h
      exact ⟨special_injective hc (h.1 ▸ hd), h.2⟩
    | none =>
      simp only [hc, hd] at h
      split at h
      · exact absurd (List.cons.inj h).1.symm (ne_backslash hd)
      · simp only [List.cons_append, List.cons.injEq, true_and] at h
        exact absurd h.1 (special_ne_u hc)
  | none =>
    cases hd : special d with
    | some e' =>
      simp only [hc, hd] at h
      split at h
      · exact absurd (List.cons.inj h).1 (ne_backslash hc)
      · simp only [List.cons_append, List.cons.injEq, true_and] at h
        exact absurd h.1.symm (special_ne_u hd)
    | none =>
      simp only [hc, hd] at h
      split at h <;> split at h
      · exact List.cons.inj h
      · exact absurd (List.cons.inj h).1 (ne_backslash hc)
      · exact absurd (List.cons.inj h).1.symm (ne_backslash hd)
      · simp only [List.cons_append, List.append_assoc, List.nil_append, List.cons.injEq,
          true_and] at h
        obtain ⟨hcode, hrest⟩ := hex_inj h
        exact ⟨Char.toNat_inj.mp hcode, hrest⟩

/-- The escape of `Debug`. -/
def debugEscape (shown : Char → Bool) : Escape where
  text := escape shown
  head := escape_head shown
  delimited := escape_inj

def string (shown : Char → Bool) : Printer String where
  text s := '"' :: (s.toList.flatMap (escape shown) ++ ['"'])
  head s := ⟨'"', _, rfl, by decide⟩
  delimited _ _ h := by
    simp only [List.cons_append, List.append_assoc, List.nil_append, List.cons.injEq,
      true_and] at h
    obtain ⟨hst, hr⟩ := (debugEscape shown).quoted_inj h
    exact ⟨String.toList_inj.mp hst, hr⟩

/-! ## Values of several -/

variable {α β : Type}

/-- `a, b`. -/
def both (p : Printer α) (q : Printer β) : Printer (α × β) where
  text x := p.text x.1 ++ ',' :: ' ' :: q.text x.2
  head x := by
    obtain ⟨c, l, h, hc⟩ := p.head x.1
    exact ⟨c, l ++ ',' :: ' ' :: q.text x.2, by rw [h]; rfl, hc⟩
  delimited hr hs h := by
    simp only [List.append_assoc, List.cons_append] at h
    obtain ⟨hfst, hrest⟩ := p.delimited (atStop_cons rfl _) (atStop_cons rfl _) h
    simp only [List.cons.injEq, true_and] at hrest
    obtain ⟨hsnd, htail⟩ := q.delimited hr hs hrest
    exact ⟨Prod.ext hfst hsnd, htail⟩

/-- Between two brackets, the second of them a stop. -/
def within (opening closing : Char) (hopen : isStop opening = false)
    (hclose : isStop closing = true) (p : Printer α) : Printer α where
  text a := opening :: (p.text a ++ [closing])
  head a := ⟨opening, _, rfl, hopen⟩
  delimited _ _ h := by
    simp only [List.cons_append, List.append_assoc, List.nil_append, List.cons.injEq,
      true_and] at h
    obtain ⟨hab, hrest⟩ := p.delimited (atStop_cons hclose _) (atStop_cons hclose _) h
    exact ⟨hab, (List.cons.inj hrest).2⟩

def pair (p : Printer α) (q : Printer β) : Printer (α × β) :=
  within '(' ')' rfl rfl (both p q)

/-- What follows an item of a list. -/
def listTail (p : Printer α) : List α → List Char
  | [] => [']']
  | a :: rest => ',' :: ' ' :: (p.text a ++ listTail p rest)

theorem atStop_listTail (p : Printer α) (l : List α) (r : List Char) :
    AtStop (listTail p l ++ r) := by
  cases l with
  | nil => exact atStop_cons rfl _
  | cons a rest => exact atStop_cons rfl _

theorem listTail_inj (p : Printer α) {l l' : List α} (h : listTail p l ++ r = listTail p l' ++ s) :
    l = l' ∧ r = s := by
  induction l generalizing l' with
  | nil =>
    cases l' with
    | nil => exact ⟨rfl, (List.cons.inj h).2⟩
    | cons b rest' => exact absurd (List.cons.inj h).1 (by decide)
  | cons a rest ih =>
    cases l' with
    | nil => exact absurd (List.cons.inj h).1 (by decide)
    | cons b rest' =>
      simp only [listTail, List.cons_append, List.append_assoc, List.cons.injEq,
        true_and] at h
      obtain ⟨rfl, htail⟩ := p.delimited (atStop_listTail p _ _) (atStop_listTail p _ _) h
      obtain ⟨rfl, hr⟩ := ih htail
      exact ⟨rfl, hr⟩

def listText (p : Printer α) : List α → List Char
  | [] => ['[', ']']
  | a :: rest => '[' :: (p.text a ++ listTail p rest)

/-- An item does not begin as the end of the list. -/
theorem text_ne_close (p : Printer α) (a : α) : p.text a ++ r ≠ ']' :: s := by
  obtain ⟨c, l, h, hc⟩ := p.head a
  rw [h]
  intro heq
  rw [(List.cons.inj heq).1] at hc
  cases hc

def list (p : Printer α) : Printer (List α) where
  text := listText p
  head l := by
    cases l with
    | nil => exact ⟨'[', _, rfl, by decide⟩
    | cons a rest => exact ⟨'[', _, rfl, by decide⟩
  delimited := by
    intro l l' r s _ _ h
    cases l with
    | nil =>
      cases l' with
      | nil => exact ⟨rfl, (List.cons.inj (List.cons.inj h).2).2⟩
      | cons b rest' =>
        simp only [listText, List.cons_append, List.append_assoc, List.nil_append,
          List.cons.injEq, true_and] at h
        exact absurd h.symm (text_ne_close p b)
    | cons a rest =>
      cases l' with
      | nil =>
        simp only [listText, List.cons_append, List.append_assoc, List.nil_append,
          List.cons.injEq, true_and] at h
        exact absurd h (text_ne_close p a)
      | cons b rest' =>
        simp only [listText, List.cons_append, List.append_assoc, List.cons.injEq,
          true_and] at h
        obtain ⟨rfl, htail⟩ :=
          p.delimited (atStop_listTail p _ _) (atStop_listTail p _ _) h
        obtain ⟨rfl, hr⟩ := listTail_inj p htail
        exact ⟨rfl, hr⟩

/-- `key: value`. -/
def field (key : String) (hkey : ∃ c l, key.toList = c :: l ∧ isStop c = false)
    (p : Printer α) : Printer α where
  text a := key.toList ++ ':' :: ' ' :: p.text a
  head a := by
    obtain ⟨c, l, h, hc⟩ := hkey
    exact ⟨c, l ++ ':' :: ' ' :: p.text a, by rw [h]; rfl, hc⟩
  delimited hr hs h := by
    simp only [List.append_assoc, List.cons_append, List.append_cancel_left_eq, List.cons.injEq,
      true_and] at h
    exact p.delimited hr hs h

/-- `Name { key: value, … }`, the name left out. -/
def fields (p : Printer α) (a : α) : List Char :=
  ' ' :: '\x7b' :: ' ' :: (p.text a ++ [' ', '\x7d'])

theorem fields_inj (p : Printer α) {a b : α} (h : fields p a ++ r = fields p b ++ s) :
    a = b ∧ r = s := by
  simp only [fields, List.cons_append, List.append_assoc, List.nil_append, List.cons.injEq,
    true_and] at h
  obtain ⟨hab, hrest⟩ := p.delimited (atStop_cons rfl _) (atStop_cons rfl _) h
  simp only [List.cons.injEq, true_and] at hrest
  exact ⟨hab, hrest⟩

end Printer

end Ipfrs.Lib.DebugText

/-! ## Reading integers -/

namespace Ipfrs.Lib

open DebugText.Printer

/-- The sign of a number and what comes after it. -/
def signOf : List Char → Bool × List Char
  | '-' :: digits => (true, digits)
  | '+' :: digits => (false, digits)
  | digits => (false, digits)

/-- `str::parse::<i64>`. -/
def parseI64 (text : List Char) : Option Int64 :=
  let (negative, digits) := signOf text
  if digits.isEmpty || !digits.all Char.isDigit then none
  else
    let magnitude : Int := Nat.ofDigitChars 10 digits 0
    let value := if negative then -magnitude else magnitude
    if Int64.minValue.toInt ≤ value ∧ value ≤ Int64.maxValue.toInt then some (Int64.ofInt value)
    else none

example : parseI64 "-9223372036854775808".toList = some Int64.minValue := by decide
example : parseI64 "9223372036854775808".toList = none := by decide

theorem signOf_of_isDigit {digits : List Char} (h : digits.all Char.isDigit = true) :
    signOf digits = (false, digits) := by
  unfold signOf
  split
  · simp at h
  · simp at h
  · rfl

theorem toDigits_all (n : Nat) : (Nat.toDigits 10 n).all Char.isDigit = true :=
  List.all_eq_true.mpr fun _ hc => isDigit_of_mem_toDigits hc

theorem parseI64_digits (negative : Bool) {n : Nat} {i : Int64} {text : List Char}
    (hsign : signOf text = (negative, Nat.toDigits 10 n))
    (hi : i.toInt = if negative then -(n : Int) else n) : parseI64 text = some i := by
  have hne : (Nat.toDigits 10 n).isEmpty = false := by simp
  have hlow : Int64.minValue.toInt ≤ i.toInt := i.minValue_le_toInt
  have hhigh : i.toInt ≤ Int64.maxValue.toInt := i.toInt_le
  have hback : Int64.ofInt i.toInt = i := Int64.ofInt_toInt i
  simp only [parseI64, hsign, hne, toDigits_all, Nat.ofDigitChars_ten_toDigits, ← hi, hback]
  rw [if_neg (by decide), if_pos ⟨hlow, hhigh⟩]

/-- What is printed is read. -/
theorem parseI64_intText (i : Int64) : parseI64 (intText i.toInt) = some i := by
  cases hi : i.toInt with
  | ofNat n =>
    exact parseI64_digits false (signOf_of_isDigit (toDigits_all n)) (by simp [hi])
  | negSucc n =>
    refine parseI64_digits true (n := n + 1) rfl ?_
    rw [hi, Int.negSucc_eq]
    simp

end Ipfrs.Lib
