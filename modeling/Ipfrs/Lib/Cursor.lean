/-
Ipfrs.Lib.Cursor — reading a growing list by "everything of a higher rank than what I
have".

A reader keeps the highest rank it has received and asks for the entries above it.
Appending entries in ascending order of rank is what makes this complete: then, and
only then, an answer is ascending and brings the reader up to the whole list
(`upToDate_iff`).
-/
import Mathlib.Data.List.Perm.Basic
import Mathlib.Data.List.Infix
import Mathlib.Data.String.Basic

namespace Ipfrs.Lib.Cursor

variable {α : Type} (rank : α → Nat)

/-- The entries above a rank. -/
def newer (cursor : Nat) (l : List α) : List α := l.filter (fun a => cursor < rank a)

/-- The highest rank seen. -/
def advance (cursor : Nat) (l : List α) : Nat :=
  l.foldl (fun c a => if c < rank a then rank a else c) cursor

/-- Ranks above `start`, each above the one before. -/
def Ascending (start : Nat) (l : List α) : Prop :=
  (∀ a ∈ l, start < rank a) ∧ l.Pairwise (fun a b => rank a < rank b)

variable {rank}

theorem ascending_nil (start : Nat) : Ascending rank start ([] : List α) :=
  ⟨by simp, List.Pairwise.nil⟩

theorem le_advance (l : List α) (cursor : Nat) : cursor ≤ advance rank cursor l := by
  induction l generalizing cursor with
  | nil => exact Nat.le_refl _
  | cons a l ih =>
    rw [advance, List.foldl_cons, ← advance]
    exact Nat.le_trans (by split <;> omega) (ih _)

theorem rank_le_advance {l : List α} {cursor : Nat} {a : α} (ha : a ∈ l) :
    rank a ≤ advance rank cursor l := by
  induction l generalizing cursor with
  | nil => cases ha
  | cons b l ih =>
    rw [advance, List.foldl_cons, ← advance]
    rcases List.mem_cons.mp ha with rfl | ha
    · exact Nat.le_trans (by split <;> omega) (le_advance l _)
    · exact ih ha

theorem advance_le {l : List α} {cursor n : Nat} (hcursor : cursor ≤ n)
    (h : ∀ a ∈ l, rank a ≤ n) : advance rank cursor l ≤ n := by
  induction l generalizing cursor with
  | nil => exact hcursor
  | cons b l ih =>
    have hb := h b List.mem_cons_self
    rw [advance, List.foldl_cons, ← advance]
    exact ih (by split <;> omega) (fun a ha => h a (List.mem_cons_of_mem _ ha))

theorem advance_append (l l' : List α) (cursor : Nat) :
    advance rank cursor (l ++ l') = advance rank (advance rank cursor l) l' := by
  rw [advance, List.foldl_append]
  rfl

/-- A reader that has everything receives what came after. -/
theorem newer_append (seen fresh : List α) (start : Nat) :
    newer rank (advance rank start seen) (seen ++ fresh)
      = newer rank (advance rank start seen) fresh := by
  have hseen : newer rank (advance rank start seen) seen = [] := by
    apply List.filter_eq_nil_iff.mpr
    intro a ha
    have hle : rank a ≤ advance rank start seen := rank_le_advance ha
    simpa using hle
  rw [newer, List.filter_append, ← newer, hseen, List.nil_append, newer]

theorem ascending_append_iff {start : Nat} {seen fresh : List α} :
    Ascending rank start (seen ++ fresh)
      ↔ Ascending rank start seen ∧ Ascending rank (advance rank start seen) fresh := by
  constructor
  · rintro ⟨habove, hpair⟩
    obtain ⟨hseen, hfresh, hacross⟩ := List.pairwise_append.mp hpair
    refine ⟨⟨fun a ha => habove a (List.mem_append_left _ ha), hseen⟩, ?_, hfresh⟩
    intro b hb
    have hstart := habove b (List.mem_append_right _ hb)
    have hle : advance rank start seen ≤ rank b - 1 :=
      advance_le (by omega) (fun a ha => by have := hacross a ha b hb; omega)
    omega
  · rintro ⟨⟨haboveSeen, hseen⟩, haboveFresh, hfresh⟩
    refine ⟨?_, List.pairwise_append.mpr ⟨hseen, hfresh, ?_⟩⟩
    · intro a ha
      rcases List.mem_append.mp ha with ha | ha
      · exact haboveSeen a ha
      · exact Nat.lt_of_le_of_lt (le_advance seen start) (haboveFresh a ha)
    · intro a ha b hb
      exact Nat.lt_of_le_of_lt (rank_le_advance ha) (haboveFresh b hb)

/-- A reader that has `seen` comes up to date with an ascending answer exactly when the
entries appended since are in ascending order, above all it has. -/
theorem upToDate_iff {start : Nat} {seen fresh : List α} (hseen : Ascending rank start seen) :
    (newer rank (advance rank start seen) (seen ++ fresh)).Pairwise (fun a b => rank a < rank b)
        ∧ (seen ++ newer rank (advance rank start seen) (seen ++ fresh)).Perm (seen ++ fresh)
      ↔ Ascending rank start (seen ++ fresh) := by
  rw [newer_append, ascending_append_iff, and_iff_right hseen]
  constructor
  · rintro ⟨hpair, hperm⟩
    have hlen : (newer rank (advance rank start seen) fresh).length = fresh.length := by
      have h := hperm.length_eq
      rw [List.length_append, List.length_append] at h
      omega
    have hall : newer rank (advance rank start seen) fresh = fresh :=
      List.filter_sublist.eq_of_length hlen
    rw [hall] at hpair
    refine ⟨fun a ha => ?_, hpair⟩
    simpa using List.filter_eq_self.mp hall a ha
  · rintro ⟨habove, hpair⟩
    have hall : newer rank (advance rank start seen) fresh = fresh :=
      List.filter_eq_self.mpr (fun a ha => by simpa using habove a ha)
    rw [hall]
    exact ⟨hpair, List.Perm.refl _⟩

end Ipfrs.Lib.Cursor

/-! ## Byte offsets in a text

A text is a list of characters, and a position in it counts the bytes of their UTF-8 form.
Cutting a text at a position gives a result only where a character begins (`dropBytes`,
`takeBytes`, `sliceBytes`); at the start of a suffix it gives the suffix, and between a
suffix and a later one what lies between them. -/

namespace Ipfrs.Lib

/-- The length of a text in bytes. -/
def byteLength : List Char → Nat
  | [] => 0
  | c :: cs => c.utf8Size + byteLength cs

/-- The text from a position on. -/
def dropBytes : List Char → Nat → Option (List Char)
  | [], n => if n = 0 then some [] else none
  | c :: cs, n =>
    if n = 0 then some (c :: cs)
    else if c.utf8Size ≤ n then dropBytes cs (n - c.utf8Size)
    else none

/-- The text up to a position. -/
def takeBytes : List Char → Nat → Option (List Char)
  | [], n => if n = 0 then some [] else none
  | c :: cs, n =>
    if n = 0 then some []
    else if c.utf8Size ≤ n then (takeBytes cs (n - c.utf8Size)).map (c :: ·)
    else none

/-- `&s[i..j]`. -/
def sliceBytes (cs : List Char) (i j : Nat) : Option (List Char) :=
  if i ≤ j then (dropBytes cs i).bind (takeBytes · (j - i)) else none

/-- `s.is_char_boundary(n)`. -/
def IsCharBoundary (cs : List Char) (n : Nat) : Prop := ∃ a b, cs = a ++ b ∧ byteLength a = n

example : sliceBytes "a€b".toList 1 4 = some "€".toList := by decide
example : sliceBytes "a€b".toList 0 2 = none := by decide

@[simp] theorem byteLength_nil : byteLength [] = 0 := rfl

@[simp] theorem byteLength_cons (c : Char) (cs : List Char) :
    byteLength (c :: cs) = c.utf8Size + byteLength cs := rfl

@[simp] theorem byteLength_append (a b : List Char) :
    byteLength (a ++ b) = byteLength a + byteLength b := by
  induction a with
  | nil => simp
  | cons c a ih => simp [ih, Nat.add_assoc]

variable {cs rest text : List Char}

theorem byteLength_eq_zero : byteLength cs = 0 ↔ cs = [] := by
  cases cs with
  | nil => simp
  | cons c cs =>
    have hpos := c.utf8Size_pos
    simp
    omega

theorem dropBytes_append (a b : List Char) : dropBytes (a ++ b) (byteLength a) = some b := by
  induction a with
  | nil => cases b <;> simp [dropBytes]
  | cons c a ih =>
    have hne : c.utf8Size ≠ 0 := Nat.ne_of_gt c.utf8Size_pos
    simp [dropBytes, hne, ih]

theorem takeBytes_append (a b : List Char) : takeBytes (a ++ b) (byteLength a) = some a := by
  induction a with
  | nil => cases b <;> simp [takeBytes]
  | cons c a ih =>
    have hne : c.utf8Size ≠ 0 := Nat.ne_of_gt c.utf8Size_pos
    simp [takeBytes, hne, ih]

theorem takeBytes_eq_some_iff {a : List Char} {n : Nat} :
    takeBytes cs n = some a ↔ ∃ b, cs = a ++ b ∧ byteLength a = n := by
  constructor
  · intro h
    induction cs generalizing n a with
    | nil =>
      by_cases hn : n = 0
      · simp only [takeBytes, hn, if_true, Option.some.injEq] at h
        exact ⟨[], by simp [← h], by simp [← h, hn]⟩
      · simp [takeBytes, hn] at h
    | cons c cs ih =>
      by_cases hn : n = 0
      · simp only [takeBytes, hn, if_true, Option.some.injEq] at h
        exact ⟨c :: cs, by simp [← h], by simp [← h, hn]⟩
      · by_cases hc : c.utf8Size ≤ n
        · simp only [takeBytes, hn, hc, if_true, if_false, Option.map_eq_some_iff] at h
          obtain ⟨a', htake, rfl⟩ := h
          obtain ⟨b, rfl, hlen⟩ := ih htake
          exact ⟨b, rfl, by simp [hlen, hc]⟩
        · simp [takeBytes, hn, hc] at h
  · rintro ⟨b, rfl, rfl⟩
    exact takeBytes_append a b

/-- Cutting fails exactly inside a character or past the end. -/
theorem takeBytes_eq_none_iff {n : Nat} : takeBytes cs n = none ↔ ¬ IsCharBoundary cs n := by
  constructor
  · rintro h ⟨a, b, rfl, rfl⟩
    rw [takeBytes_append] at h
    cases h
  · intro h
    cases htake : takeBytes cs n with
    | none => rfl
    | some a =>
      obtain ⟨b, hsplit, hlen⟩ := takeBytes_eq_some_iff.mp htake
      exact absurd ⟨a, b, hsplit, hlen⟩ h

/-! ## Positions of suffixes -/

/-- The position at which a suffix begins. -/
def offsetOf (text rest : List Char) : Nat := byteLength text - byteLength rest

theorem offsetOf_append (a b : List Char) : offsetOf (a ++ b) b = byteLength a := by
  simp [offsetOf]

@[simp] theorem offsetOf_self (text : List Char) : offsetOf text text = 0 := Nat.sub_self _

theorem dropBytes_offsetOf (h : rest <:+ text) :
    dropBytes text (offsetOf text rest) = some rest := by
  obtain ⟨a, rfl⟩ := h
  rw [offsetOf_append, dropBytes_append]

theorem offsetOf_add {w : List Char} (h : w ++ rest <:+ text) :
    offsetOf text (w ++ rest) + byteLength w = offsetOf text rest := by
  obtain ⟨a, rfl⟩ := h
  rw [offsetOf_append, ← List.append_assoc, offsetOf_append, byteLength_append]

theorem offsetOf_cons {c : Char} (h : c :: rest <:+ text) :
    offsetOf text (c :: rest) + c.utf8Size = offsetOf text rest :=
  offsetOf_add (w := [c]) h

/-- Between a suffix and a later one. -/
theorem sliceBytes_offsetOf {w : List Char} (h : w ++ rest <:+ text) :
    sliceBytes text (offsetOf text (w ++ rest)) (offsetOf text rest) = some w := by
  have hadd := offsetOf_add h
  have hle : offsetOf text (w ++ rest) ≤ offsetOf text rest := by omega
  have hsub : offsetOf text rest - offsetOf text (w ++ rest) = byteLength w := by omega
  rw [sliceBytes, if_pos hle, dropBytes_offsetOf h, hsub, Option.bind_some, takeBytes_append]

/-- From a suffix on, `n` bytes. -/
theorem sliceBytes_offsetOf_add (h : rest <:+ text) (n : Nat) :
    sliceBytes text (offsetOf text rest) (offsetOf text rest + n) = takeBytes rest n := by
  rw [sliceBytes, if_pos (Nat.le_add_right _ _), dropBytes_offsetOf h, Option.bind_some,
    Nat.add_sub_cancel_left]

theorem offsetOf_add_le_iff (h : rest <:+ text) (n : Nat) :
    offsetOf text rest + n ≤ byteLength text ↔ n ≤ byteLength rest := by
  obtain ⟨a, rfl⟩ := h
  rw [offsetOf_append, byteLength_append]
  omega

end Ipfrs.Lib
