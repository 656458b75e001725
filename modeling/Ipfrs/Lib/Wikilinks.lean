/-
Ipfrs.Lib.Wikilinks — the wikilinks of a text.

A wikilink is two opening brackets, a text without brackets and line breaks, and two closing
ones. `wikilinks` lists the texts in between, read off the characters from left to right.

How a text put together from pieces is read: the links of two pieces are those of the one and
then those of the other (`linksIn_append`), unless a link may go on from the first into the
second. It may not where the second starts with a line break, an opening bracket that does not
follow another, or has no closing bracket (`Stops`). So lines are read one by one
(`Reads.line`, `Reads.append`), and a link that is written out is read back, between those of the
texts around it (`wikilinks_link`).
-/
import Mathlib.Data.List.Basic

namespace Ipfrs.Lib

/-! ## Characters -/

/-- What stands before two closing brackets, if no other bracket and no line break does. -/
def closing : List Char → Option (List Char)
  | [] => none
  | c :: cs =>
    if c = ']' then if cs.head? = some ']' then some [] else none
    else if c = '[' ∨ c = '\n' then none
    else (closing cs).map (c :: ·)

/-- What the text starts with, if that is a link. -/
def linkAt : List Char → Option (List Char)
  | [] => none
  | c :: cs => if c = '[' ∧ cs.head? = some '[' then closing cs.tail else none

/-- The links that start at any of the characters. -/
def linksIn : List Char → List (List Char)
  | [] => []
  | c :: cs => (linkAt (c :: cs)).toList ++ linksIn cs

/-- No link goes on into this text. -/
def Stops (y : List Char) : Prop := y.head? ≠ some ']' ∧ closing y = none

variable {c : Char} {s x y : List Char}

theorem closing_append (h : Stops y) : closing (x ++ y) = closing x := by
  induction x with
  | nil => exact h.2
  | cons a x ih =>
    have hhead : (x ++ y).head? = some ']' ↔ x.head? = some ']' := by
      cases x with
      | nil => simpa using h.1
      | cons b x => rfl
    rw [List.cons_append, closing, closing, ih]
    simp only [hhead]

theorem closing_of_not_mem (h : ']' ∉ y) : closing y = none := by
  induction y with
  | nil => rfl
  | cons c y ih =>
    rw [List.mem_cons, not_or] at h
    rw [closing, if_neg (Ne.symm h.1), ih h.2]
    simp

theorem stops_of_not_mem (h : ']' ∉ y) : Stops y :=
  ⟨fun hhead => h (List.mem_of_mem_head? hhead), closing_of_not_mem h⟩

theorem stops_break (y : List Char) : Stops ('\n' :: y) := ⟨by simp, by simp [closing]⟩

theorem stops_open (y : List Char) : Stops ('[' :: y) := ⟨by simp, by simp [closing]⟩

theorem linkAt_append {a : Char} (h : Stops y)
    (hjoin : y.head? = some '[' → (a :: x).getLast? ≠ some '[') :
    linkAt (a :: x ++ y) = linkAt (a :: x) := by
  rw [List.cons_append, linkAt, linkAt]
  cases x with
  | nil =>
    have hnone : ¬ (a = '[' ∧ y.head? = some '[') := by
      rintro ⟨ha, hy⟩
      exact hjoin hy (by simp [ha])
    rw [List.nil_append, if_neg hnone, if_neg (by simp)]
  | cons b x => simp [closing_append h]

/-- Two pieces are read one after the other. -/
theorem linksIn_append (h : Stops y) (hjoin : y.head? = some '[' → x.getLast? ≠ some '[') :
    linksIn (x ++ y) = linksIn x ++ linksIn y := by
  induction x with
  | nil => rfl
  | cons a x ih =>
    have hrest : y.head? = some '[' → x.getLast? ≠ some '[' := by
      intro hy hlast
      refine hjoin hy ?_
      rw [List.getLast?_cons, hlast]
      rfl
    rw [List.cons_append, linksIn, linksIn, ih hrest, List.append_assoc, ← List.cons_append,
      linkAt_append h hjoin]

/-- No link starts without an opening bracket. -/
theorem linksIn_prefix (h : '[' ∉ x) : linksIn (x ++ y) = linksIn y := by
  induction x with
  | nil => rfl
  | cons a x ih =>
    rw [List.mem_cons, not_or] at h
    simp [linksIn, linkAt, Ne.symm h.1, ih h.2]

/-- None ends without a closing one. -/
theorem linksIn_suffix (h : ']' ∉ y) (hopen : '[' ∉ y) : linksIn (x ++ y) = linksIn x := by
  have hy := linksIn_prefix (y := []) hopen
  rw [List.append_nil] at hy
  rw [linksIn_append (stops_of_not_mem h) (fun hhead => absurd (List.mem_of_mem_head? hhead) hopen),
    hy, linksIn, List.append_nil]

/-- The characters of the text of a link. -/
def Plain (s : List Char) : Prop := ∀ c ∈ s, c ≠ '[' ∧ c ≠ ']' ∧ c ≠ '\n'

instance : Decidable (Plain s) := List.decidableBAll _ s

theorem Plain.not_mem (h : Plain s) : '[' ∉ s := fun hc => (h _ hc).1 rfl

theorem closing_link (h : Plain s) : closing (s ++ ']' :: ']' :: y) = some s := by
  induction s with
  | nil => rfl
  | cons a s ih =>
    obtain ⟨hopen, hclose, hbreak⟩ := h a List.mem_cons_self
    have hrest := ih (fun c hc => h c (List.mem_cons_of_mem _ hc))
    rw [List.cons_append, closing, if_neg hclose, if_neg (by simp [hopen, hbreak]), hrest]
    rfl

/-- A link that is written out. -/
theorem linksIn_link (h : Plain s) :
    linksIn ('[' :: '[' :: (s ++ ']' :: ']' :: y)) = s :: linksIn y := by
  have hnext : (s ++ ']' :: ']' :: y).head? ≠ some '[' := by
    cases s with
    | nil => simp
    | cons a s =>
      intro heq
      exact (h a List.mem_cons_self).1 (Option.some.inj heq)
  have hrest : linksIn (s ++ ']' :: ']' :: y) = linksIn y := by
    have hclosed : '[' ∉ s ++ [']', ']'] := by simp [h.not_mem]
    have hsplit : s ++ ']' :: ']' :: y = (s ++ [']', ']']) ++ y := by simp
    rw [hsplit, linksIn_prefix hclosed]
  have hfirst : linkAt ('[' :: '[' :: (s ++ ']' :: ']' :: y)) = some s := by
    rw [linkAt, if_pos ⟨rfl, rfl⟩, List.tail_cons, closing_link h]
  have hsecond : linkAt ('[' :: (s ++ ']' :: ']' :: y)) = none := by
    rw [linkAt, if_neg (fun hopen => hnext hopen.2)]
  rw [linksIn, linksIn, hfirst, hsecond, hrest]
  rfl

/-! ## Strings -/

/-- The wikilinks of a text, in its order. -/
def wikilinks (text : String) : List String := (linksIn text.toList).map String.ofList

theorem wikilinks_behind {front : String} (h : '[' ∉ front.toList) (text : String) :
    wikilinks (front ++ text) = wikilinks text := by
  rw [wikilinks, String.toList_append, linksIn_prefix h]
  rfl

theorem wikilinks_suffix {back : String} (h : '[' ∉ back.toList) (h' : ']' ∉ back.toList)
    (text : String) : wikilinks (text ++ back) = wikilinks text := by
  rw [wikilinks, String.toList_append, linksIn_suffix h' h]
  rfl

/-- A link that is written out behind a space. -/
theorem wikilinks_link {s : String} (h : Plain s.toList) (front back : String) :
    wikilinks (front ++ " [[" ++ s ++ "]]" ++ back)
      = wikilinks front ++ s :: wikilinks back := by
  have hsplit : (front ++ " [[" ++ s ++ "]]" ++ back).toList
      = (front.toList ++ [' ']) ++ '[' :: '[' :: (s.toList ++ ']' :: ']' :: back.toList) := by
    simp
  rw [wikilinks, hsplit, linksIn_append (stops_open _) (by simp), linksIn_link h,
    linksIn_suffix (by simp) (by simp), List.map_append, List.map_cons, String.ofList_toList]
  rfl

/-- The text is read alone, whatever follows: its links are these. -/
def Reads (text : String) (links : List String) : Prop :=
  ∀ rest, wikilinks (text ++ rest) = links ++ wikilinks rest

namespace Reads

variable {text text' : String} {links links' : List String}

theorem eq (h : Reads text links) : wikilinks text = links := by
  have hnil : wikilinks "" = [] := rfl
  have hempty := h ""
  rwa [String.append_empty, hnil, List.append_nil] at hempty

theorem plain (h : '[' ∉ text.toList) : Reads text [] := wikilinks_behind h

/-- A line ends at its break. -/
theorem line (text : String) : Reads (text ++ "\n") (wikilinks text) := by
  intro rest
  have hbreak : linksIn ('\n' :: rest.toList) = linksIn rest.toList := by simp [linksIn, linkAt]
  have hsplit : (text ++ "\n" ++ rest).toList = text.toList ++ '\n' :: rest.toList := by simp
  rw [wikilinks, hsplit, linksIn_append (stops_break _) (by simp), hbreak, List.map_append]
  rfl

/-- A line with a mark in front. -/
theorem item {front : String} (h : '[' ∉ front.toList) (text : String) :
    Reads (front ++ text ++ "\n") (wikilinks text) := by
  have hline := line (front ++ text)
  rwa [wikilinks_behind h] at hline

theorem append (h : Reads text links) (h' : Reads text' links') :
    Reads (text ++ text') (links ++ links') := by
  intro rest
  rw [String.append_assoc, h, h', List.append_assoc]

theorem join {α : Type} {l : List α} {text : α → String} {links : α → List String}
    (h : ∀ a ∈ l, Reads (text a) (links a)) :
    Reads (String.join (l.map text)) (l.flatMap links) := by
  induction l with
  | nil => exact plain (by simp)
  | cons a l ih =>
    rw [List.map_cons, String.join_cons, List.flatMap_cons]
    exact (h a List.mem_cons_self).append (ih (fun b hb => h b (List.mem_cons_of_mem _ hb)))

end Reads

-- An opening bracket more is none of the link's.
example : wikilinks "[[[a]] b]] [[c]" = ["a"] := by decide

end Ipfrs.Lib
