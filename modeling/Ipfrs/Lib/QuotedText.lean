/-
Ipfrs.Lib.QuotedText — strings between quotes.

An `Escape` writes each character so that it is no closing quote and can be told from what
follows it; then the text of a whole string determines the string (`quoted_inj`), whatever
comes after. `jsonEscape` is the escape of JSON: the quote, the backslash and the control
characters have texts of their own, all others stand as they are.
-/
import Mathlib.Data.List.Infix
import Mathlib.Data.String.Basic

namespace Ipfrs.Lib

/-- A text for each character, from which the character can be read. -/
structure Escape where
  text : Char → List Char
  head : ∀ c, ∃ x l, text c = x :: l ∧ x ≠ '"'
  delimited : ∀ {c d : Char} {r s : List Char}, text c ++ r = text d ++ s → c = d ∧ r = s

namespace Escape

variable (e : Escape)

/-- The characters up to the closing quote. -/
theorem quoted_inj {s t r r' : List Char}
    (h : s.flatMap e.text ++ '"' :: r = t.flatMap e.text ++ '"' :: r') : s = t ∧ r = r' := by
  induction s generalizing t with
  | nil =>
    cases t with
    | nil => exact ⟨rfl, (List.cons.inj h).2⟩
    | cons d t =>
      obtain ⟨x, l, hx, hne⟩ := e.head d
      rw [List.flatMap_cons, hx] at h
      exact absurd (List.cons.inj h).1.symm hne
  | cons c s ih =>
    cases t with
    | nil =>
      obtain ⟨x, l, hx, hne⟩ := e.head c
      rw [List.flatMap_cons, hx] at h
      exact absurd (List.cons.inj h).1 hne
    | cons d t =>
      rw [List.flatMap_cons, List.flatMap_cons, List.append_assoc, List.append_assoc] at h
      obtain ⟨rfl, hrest⟩ := e.delimited h
      obtain ⟨rfl, hr⟩ := ih hrest
      exact ⟨rfl, hr⟩

/-- A string between quotes. -/
def quote (s : String) : List Char := '"' :: (s.toList.flatMap e.text ++ ['"'])

theorem quote_inj {s t : String} {r r' : List Char} (h : e.quote s ++ r = e.quote t ++ r') :
    s = t ∧ r = r' := by
  simp only [quote, List.cons_append, List.append_assoc, List.nil_append, List.cons.injEq,
    true_and] at h
  obtain ⟨hst, hr⟩ := e.quoted_inj h
  exact ⟨String.toList_inj.mp hst, hr⟩

end Escape

/-! ## JSON -/

/-- A character inside a JSON string. -/
def jsonEscapeText (c : Char) : List Char :=
  if c = '"' then ['\\', '"']
  else if c = '\\' then ['\\', '\\']
  else if c = '\n' then ['\\', 'n']
  else if c = '\r' then ['\\', 'r']
  else if c = '\t' then ['\\', 't']
  else if c = '\x08' then ['\\', 'b']
  else if c = '\x0c' then ['\\', 'f']
  else if c.toNat < 0x20 then
    ['\\', 'u', '0', '0', Nat.digitChar (c.toNat / 16), Nat.digitChar (c.toNat % 16)]
  else [c]

/-- The characters with a text of their own. -/
def jsonSpecials : List Char := '"' :: '\\' :: (List.range 0x20).map Char.ofNat

theorem jsonEscapeText_of_notMem {c : Char} (h : c ∉ jsonSpecials) : jsonEscapeText c = [c] := by
  have hcontrol : ¬ c.toNat < 0x20 := fun hlt =>
    h (List.mem_cons_of_mem _ (List.mem_cons_of_mem _
      (List.mem_map.mpr ⟨c.toNat, List.mem_range.mpr hlt, Char.ofNat_toNat c⟩)))
  have hne : ∀ d ∈ jsonSpecials, c ≠ d := fun d hd hcd => h (hcd ▸ hd)
  simp only [jsonEscapeText, hne '"' (by decide), hne '\\' (by decide), hne '\n' (by decide),
    hne '\r' (by decide), hne '\t' (by decide), hne '\x08' (by decide), hne '\x0c' (by decide),
    hcontrol, if_false]

theorem jsonEscapeText_special {c : Char} (h : c ∈ jsonSpecials) :
    (jsonEscapeText c).head? = some '\\' := by
  have hall : jsonSpecials.all (fun d => (jsonEscapeText d).head? == some '\\') = true := by
    decide
  exact beq_iff_eq.mp (List.all_eq_true.mp hall c h)

theorem eq_of_jsonEscapeText_begins {c d : Char} (hc : c ∈ jsonSpecials) (hd : d ∈ jsonSpecials)
    (h : jsonEscapeText c <+: jsonEscapeText d) : c = d := by
  have hall : jsonSpecials.all (fun a => jsonSpecials.all (fun b =>
      !(jsonEscapeText a).isPrefixOf (jsonEscapeText b) || a == b)) = true := by decide
  have hcd := List.all_eq_true.mp (List.all_eq_true.mp hall c hc) d hd
  rw [List.isPrefixOf_iff_prefix.mpr h] at hcd
  exact beq_iff_eq.mp hcd

/-- A character as it stands is none that begins a text of another. -/
theorem jsonEscapeText_ne_special {c d : Char} (hc : c ∉ jsonSpecials) (hd : d ∈ jsonSpecials)
    {r s : List Char} : [c] ++ r ≠ jsonEscapeText d ++ s := by
  intro h
  have hhead := congrArg List.head? h
  rw [List.head?_append, List.head?_append, jsonEscapeText_special hd] at hhead
  obtain rfl : c = '\\' := by simpa using hhead
  exact hc (by decide)

theorem jsonEscapeText_delimited {c d : Char} {r s : List Char}
    (h : jsonEscapeText c ++ r = jsonEscapeText d ++ s) : c = d ∧ r = s := by
  by_cases hc : c ∈ jsonSpecials <;> by_cases hd : d ∈ jsonSpecials
  · -- the two texts begin the same list, so one begins the other
    have hcd : c = d := by
      rcases List.prefix_or_prefix_of_prefix (List.prefix_append _ _)
        (h ▸ List.prefix_append (jsonEscapeText d) s) with hpre | hpre
      · exact eq_of_jsonEscapeText_begins hc hd hpre
      · exact (eq_of_jsonEscapeText_begins hd hc hpre).symm
    subst hcd
    exact ⟨rfl, List.append_cancel_left h⟩
  · rw [jsonEscapeText_of_notMem hd] at h
    exact absurd h.symm (jsonEscapeText_ne_special hd hc)
  · rw [jsonEscapeText_of_notMem hc] at h
    exact absurd h (jsonEscapeText_ne_special hc hd)
  · rw [jsonEscapeText_of_notMem hc, jsonEscapeText_of_notMem hd] at h
    exact List.cons.inj h

/-- The escape of JSON, control characters in lower-case hexadecimal. -/
def jsonEscape : Escape where
  text := jsonEscapeText
  head c := by
    by_cases hc : c ∈ jsonSpecials
    · obtain ⟨l, hl⟩ := List.head?_eq_some_iff.mp (jsonEscapeText_special hc)
      exact ⟨'\\', l, hl, by decide⟩
    · refine ⟨c, [], jsonEscapeText_of_notMem hc, ?_⟩
      rintro rfl
      exact hc (by decide)
  delimited := jsonEscapeText_delimited

example : jsonEscape.quote "a\"\x01" = "\"a\\\"\\u0001\"".toList := by decide

end Ipfrs.Lib
