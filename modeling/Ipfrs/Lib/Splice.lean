/-
Ipfrs.Lib.Splice — writing a slice of one list into another, entry by entry.

Entries carry a key. Where the keys of both lists agree at a place, their entries are
the same up to there (`Matching`); an entry of another key at its place cuts off what
stands after it. So a slice either leaves the list as it was or makes it a beginning
of the list the slice was taken from. Of any other slice the keys come to stand at its
places, behind what stood before them.
-/
import Mathlib.Data.List.Basic

namespace Ipfrs.Lib.Splice

variable {α τ : Type} [DecidableEq τ] (key : α → τ)

/-- Write `x` at place `i`: past the end append it, at an entry of another key cut the
list there and append it, else leave the list. -/
def spliceOne (l : List α) (i : Nat) (x : α) : List α :=
  match l[i]? with
  | none => l ++ [x]
  | some y => if key y ≠ key x then l.take i ++ [x] else l

/-- Write a list from place `i` on. -/
def splice (l : List α) (i : Nat) : List α → List α
  | [] => l
  | x :: xs => splice (spliceOne key l i x) (i + 1) xs

/-- Equal keys at a place: equal entries up to it. -/
def Matching (l source : List α) : Prop :=
  ∀ i x y, l[i]? = some x → source[i]? = some y → key x = key y →
    l.take (i + 1) = source.take (i + 1)

/-- The lists have entries of different keys at this place. -/
def Conflict (l source : List α) (i : Nat) : Prop :=
  i < l.length ∧ l[i]?.map key ≠ source[i]?.map key

instance (l source : List α) (i : Nat) : Decidable (Conflict key l source i) :=
  inferInstanceAs (Decidable (_ ∧ _))

variable {key} {l source : List α}

omit [DecidableEq τ] in
theorem matching_take (n : Nat) : Matching key (source.take n) source := by
  intro i x y hx _ _
  have hi : i < n := by
    have := (List.getElem?_eq_some_iff.mp hx).1
    rw [List.length_take] at this
    omega
  rw [List.take_take, Nat.min_eq_left hi]

variable {i k : Nat}

omit [DecidableEq τ] in
theorem getElem?_eq_of_take_eq {n : Nat} (h : l.take n = source.take n) (hi : i < n) :
    l[i]? = source[i]? := by
  rw [← List.getElem?_take_of_lt hi, h, List.getElem?_take_of_lt hi]

omit [DecidableEq τ] in
/-- Lists that agree below a place and at each place from there on agree further. -/
theorem take_eq_of_getElem? {n : Nat} (h : ∀ i < n, l[i]? = source[i]?) :
    l.take n = source.take n := by
  apply List.ext_getElem?
  intro i
  by_cases hi : i < n
  · rw [List.getElem?_take_of_lt hi, List.getElem?_take_of_lt hi, h i hi]
  · rw [List.getElem?_eq_none (by simp; omega), List.getElem?_eq_none (by simp; omega)]

omit [DecidableEq τ] in
/-- Where there is no conflict with a matching list, the entry is the same. -/
theorem Matching.take_eq (hm : Matching key l source) (hl : i < l.length) (hs : i < source.length)
    (hc : ¬ Conflict key l source i) : l.take (i + 1) = source.take (i + 1) := by
  apply hm i l[i] source[i] (List.getElem?_eq_getElem hl) (List.getElem?_eq_getElem hs)
  have hkeys : l[i]?.map key = source[i]?.map key := Classical.not_not.mp (fun h => hc ⟨hl, h⟩)
  rw [List.getElem?_eq_getElem hl, List.getElem?_eq_getElem hs] at hkeys
  simpa using hkeys

/-! ## One entry -/

theorem spliceOne_end (hi : i < source.length) :
    spliceOne key (source.take i) i source[i] = source.take (i + 1) := by
  have hnone : (source.take i)[i]? = none := List.getElem?_eq_none (List.length_take_le i source)
  rw [spliceOne, hnone, List.take_succ_eq_append_getElem hi]

theorem spliceOne_conflict (hs : i < source.length) (hpre : l.take i = source.take i)
    (hc : Conflict key l source i) : spliceOne key l i source[i] = source.take (i + 1) := by
  obtain ⟨hl, hkeys⟩ := hc
  rw [List.getElem?_eq_getElem hl, List.getElem?_eq_getElem hs] at hkeys
  have hne : key l[i] ≠ key source[i] := fun h => hkeys (congrArg some h)
  rw [spliceOne, List.getElem?_eq_getElem hl]
  simp only [if_pos hne]
  rw [hpre, List.take_succ_eq_append_getElem hs]

theorem spliceOne_same (hl : i < l.length) (hs : i < source.length)
    (hc : ¬ Conflict key l source i) : spliceOne key l i source[i] = l := by
  have hkeys : l[i]?.map key = source[i]?.map key := Classical.not_not.mp (fun h => hc ⟨hl, h⟩)
  rw [List.getElem?_eq_getElem hl, List.getElem?_eq_getElem hs] at hkeys
  have heq : key l[i] = key source[i] := by simpa using hkeys
  rw [spliceOne, List.getElem?_eq_getElem hl]
  simp [heq]

/-! ## A slice -/

omit [DecidableEq τ] in
theorem slice_succ (hi : i < source.length) :
    (source.drop i).take (k + 1) = source[i] :: (source.drop (i + 1)).take k := by
  rw [List.drop_eq_getElem_cons hi, List.take_succ_cons]

/-- Writing on at the end. -/
theorem splice_end (hk : i + k ≤ source.length) :
    splice key (source.take i) i ((source.drop i).take k) = source.take (i + k) := by
  induction k generalizing i with
  | zero => simp [splice]
  | succ k ih =>
    have hi : i < source.length := by omega
    rw [slice_succ hi, splice, spliceOne_end hi, ih (by omega)]
    congr 1
    omega

/-- A conflict in the slice, or a slice that reaches the end: the list becomes a
beginning of the source. -/
theorem splice_eq_take (hm : Matching key l source) (hi : i ≤ l.length)
    (hk : i + k ≤ source.length) (hpre : l.take i = source.take i)
    (h : l.length ≤ i + k ∨ ∃ j, i ≤ j ∧ j < i + k ∧ Conflict key l source j) :
    splice key l i ((source.drop i).take k) = source.take (i + k) := by
  induction k generalizing i with
  | zero =>
    rcases h with hlen | ⟨j, hij, hj, -⟩
    · rw [List.take_zero, splice, Nat.add_zero, ← hpre]
      exact (List.take_of_length_le hlen).symm
    · omega
  | succ k ih =>
    have hs : i < source.length := by omega
    have hadd : i + 1 + k = i + (k + 1) := by omega
    rw [slice_succ hs, splice]
    by_cases hend : l.length ≤ i
    · rw [← List.take_of_length_le hend, hpre, spliceOne_end hs, splice_end (by omega), hadd]
    · have hl : i < l.length := by omega
      by_cases hc : Conflict key l source i
      · rw [spliceOne_conflict hs hpre hc, splice_end (by omega), hadd]
      · rw [spliceOne_same hl hs hc, ih hl (by omega) (hm.take_eq hl hs hc), hadd]
        rcases h with hlen | ⟨j, hij, hj, hconf⟩
        · exact .inl (by omega)
        · have hne : j ≠ i := fun heq => hc (heq ▸ hconf)
          exact .inr ⟨j, by omega, by omega, hconf⟩

/-- A slice inside the list without a conflict leaves it. -/
theorem splice_eq_self (hl : i + k ≤ l.length) (hs : i + k ≤ source.length)
    (h : ∀ j, i ≤ j → j < i + k → ¬ Conflict key l source j) :
    splice key l i ((source.drop i).take k) = l := by
  induction k generalizing i with
  | zero => rw [List.take_zero, splice]
  | succ k ih =>
    have hi : i < source.length := by omega
    rw [slice_succ hi, splice, spliceOne_same (by omega) hi (h i (Nat.le_refl i) (by omega))]
    exact ih (by omega) (by omega) (fun j hij hj => h j (by omega) (by omega))

/-! ## Any slice -/

/-- Writing one entry: the list goes at least as far as its place, nothing before it
changes, its key stands there, and there is no other new entry. -/
theorem spliceOne_spec (key : α → τ) (hi : i ≤ l.length) (x : α) :
    i + 1 ≤ (spliceOne key l i x).length ∧ (spliceOne key l i x).take i = l.take i
      ∧ (spliceOne key l i x)[i]?.map key = some (key x)
      ∧ ∀ j y, (spliceOne key l i x)[j]? = some y → l[j]? = some y ∨ (j = i ∧ y = x) := by
  have hcut : ∀ p : List α, p.length = i → p.take i = l.take i →
      (∀ (j : Nat) (y : α), p[j]? = some y → l[j]? = some y) →
      i + 1 ≤ (p ++ [x]).length ∧ (p ++ [x]).take i = l.take i
        ∧ (p ++ [x])[i]?.map key = some (key x)
        ∧ ∀ (j : Nat) (y : α), (p ++ [x])[j]? = some y → l[j]? = some y ∨ (j = i ∧ y = x) := by
    intro p hlen htake hmem
    refine ⟨by simp [hlen], ?_, ?_, fun j y hy => ?_⟩
    · rw [List.take_append_of_le_length (Nat.le_of_eq hlen.symm), htake]
    · simp [← hlen]
    · rcases Nat.lt_trichotomy j i with hlt | rfl | hgt
      · rw [List.getElem?_append_left (by omega)] at hy
        exact .inl (hmem j y hy)
      · rw [← hlen, List.getElem?_concat_length] at hy
        cases hy
        exact .inr ⟨rfl, rfl⟩
      · rw [List.getElem?_eq_none (by simp; omega)] at hy
        cases hy
  rw [spliceOne]
  cases hget : l[i]? with
  | none =>
    have hlen : l.length = i := Nat.le_antisymm (List.getElem?_eq_none_iff.mp hget) hi
    exact hcut l hlen rfl (fun _ _ h => h)
  | some y =>
    have hlt := (List.getElem?_eq_some_iff.mp hget).1
    by_cases hne : key y = key x
    · simp only [ne_eq, hne, not_true_eq_false, if_false, hget, Option.map_some, true_and]
      exact ⟨hlt, fun _ _ h => .inl h⟩
    · simp only [ne_eq, hne, not_false_eq_true, if_true]
      apply hcut (l.take i) (List.length_take_of_le hi) (by rw [List.take_take, Nat.min_self])
      intro j z hz
      rw [List.getElem?_take] at hz
      split at hz
      · exact hz
      · cases hz

/-- What stands before the slice stays. -/
theorem take_splice {xs : List α} (hi : i ≤ l.length) : (splice key l i xs).take i = l.take i := by
  induction xs generalizing l i with
  | nil => rfl
  | cons x xs ih =>
    obtain ⟨hlen, htake, -, -⟩ := spliceOne_spec key hi x
    have hrest := congrArg (List.take i) (ih hlen)
    rw [List.take_take, List.take_take, Nat.min_eq_left (Nat.le_succ i), htake] at hrest
    exact hrest

/-- The keys of the slice stand at its places. -/
theorem map_key_splice {xs : List α} (hi : i ≤ l.length) {j : Nat} {x : α} (hx : xs[j]? = some x) :
    (splice key l i xs)[i + j]?.map key = some (key x) := by
  induction xs generalizing l i j with
  | nil => cases hx
  | cons y xs ih =>
    obtain ⟨hlen, -, hkey, -⟩ := spliceOne_spec key hi y
    cases j with
    | zero =>
      cases hx
      have hsame : (splice key (spliceOne key l i x) (i + 1) xs)[i]?
          = (spliceOne key l i x)[i]? :=
        getElem?_eq_of_take_eq (take_splice hlen) (Nat.lt_succ_self i)
      show (splice key (spliceOne key l i x) (i + 1) xs)[i]?.map key = _
      rw [hsame, hkey]
    | succ j =>
      rw [splice, show i + (j + 1) = i + 1 + j by omega]
      exact ih hlen hx

/-- What holds of the entries of both lists at their places holds of those of the result. -/
theorem forall_splice {P : Nat → α → Prop} {xs : List α} (hi : i ≤ l.length)
    (hl : ∀ j x, l[j]? = some x → P j x) (hxs : ∀ j x, xs[j]? = some x → P (i + j) x) :
    ∀ j x, (splice key l i xs)[j]? = some x → P j x := by
  induction xs generalizing l i with
  | nil => exact hl
  | cons x xs ih =>
    obtain ⟨hlen, -, -, hone⟩ := spliceOne_spec key hi x
    apply ih hlen
    · intro j y hy
      rcases hone j y hy with hold | ⟨rfl, rfl⟩
      · exact hl j y hold
      · exact hxs 0 y rfl
    · intro j y hy
      rw [show i + 1 + j = i + (j + 1) by omega]
      exact hxs (j + 1) y hy

end Ipfrs.Lib.Splice
