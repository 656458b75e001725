/-
Ipfrs.Lib.Tiling — what a set of positions leaves open below a bound.

`Gaps covered n lo l` says that `l` are, in order, the maximal intervals of the positions
from `lo` on and below `n` that are not covered. A sweep from `lo` upwards builds such a
list: a covered position is passed (`Gaps.skip`), and an interval ends at the bound or at
a covered position (`Gaps.cons`).
-/
import Mathlib.Data.List.Basic
import Mathlib.Algebra.Ring.Nat

namespace Ipfrs.Lib

/-- An interval that is not covered and cannot be made longer. -/
structure Gap (covered : Nat → Prop) (n : Nat) (r : Nat × Nat) : Prop where
  nonempty : r.1 < r.2
  bound : r.2 ≤ n
  bare : ∀ i, r.1 ≤ i → i < r.2 → ¬ covered i
  left : r.1 = 0 ∨ covered (r.1 - 1)
  right : r.2 = n ∨ covered r.2

structure Gaps (covered : Nat → Prop) (n lo : Nat) (l : List (Nat × Nat)) : Prop where
  gap : ∀ r ∈ l, Gap covered n r ∧ lo ≤ r.1
  ordered : l.Pairwise fun r r' => r.2 < r'.1
  all : ∀ i, lo ≤ i → i < n → ¬ covered i → ∃ r ∈ l, r.1 ≤ i ∧ i < r.2

namespace Gaps

variable {covered : Nat → Prop} {n lo : Nat} {l : List (Nat × Nat)}

theorem nil (h : ∀ i, lo ≤ i → i < n → covered i) : Gaps covered n lo [] where
  gap := by simp
  ordered := .nil
  all i hlo hn hi := absurd (h i hlo hn) hi

theorem skip (h : Gaps covered n (lo + 1) l) (hlo : covered lo) : Gaps covered n lo l where
  gap r hr := ⟨(h.gap r hr).1, by have := (h.gap r hr).2; omega⟩
  ordered := h.ordered
  all i hi hn hbare := by
    refine h.all i ?_ hn hbare
    by_contra hle
    have heq : i = lo := by omega
    exact hbare (heq ▸ hlo)

/-- An interval from where the sweep stands; behind its end there is nothing, or a covered
position from which the sweep goes on. -/
theorem cons {r : Nat × Nat} (hr : Gap covered n r) (hlo : lo ≤ r.1)
    (hbefore : ∀ i, lo ≤ i → i < r.1 → covered i) (h : Gaps covered n (r.2 + 1) l) :
    Gaps covered n lo (r :: l) where
  gap := List.forall_mem_cons.mpr ⟨⟨hr, hlo⟩, fun r' hr' => ⟨(h.gap r' hr').1, by
    have := (h.gap r' hr').2
    have := hr.nonempty
    omega⟩⟩
  ordered := List.pairwise_cons.mpr ⟨fun r' hr' => (h.gap r' hr').2, h.ordered⟩
  all i hi hn hbare := by
    by_cases hstart : i < r.1
    · exact absurd (hbefore i hi hstart) hbare
    · by_cases hstop : i < r.2
      · exact ⟨r, List.mem_cons_self, by omega, hstop⟩
      · -- the position at the end of the interval is covered, unless it is the bound
        have hafter : r.2 + 1 ≤ i := by
          rcases hr.right with hend | hcov
          · omega
          · by_contra hle
            have heq : i = r.2 := by omega
            exact hbare (heq ▸ hcov)
        obtain ⟨r', hr', hin⟩ := h.all i hafter hn hbare
        exact ⟨r', List.mem_cons_of_mem _ hr', hin⟩

theorem eq_nil_iff (h : Gaps covered n 0 l) : l = [] ↔ ∀ i, i < n → covered i := by
  constructor
  · rintro rfl i hn
    by_contra hbare
    obtain ⟨r, hr, -⟩ := h.all i (Nat.zero_le i) hn hbare
    cases hr
  · intro hall
    refine List.eq_nil_iff_forall_not_mem.mpr fun r hr => ?_
    have hgap := (h.gap r hr).1
    exact hgap.bare r.1 (Nat.le_refl _) hgap.nonempty
      (hall r.1 (Nat.lt_of_lt_of_le hgap.nonempty hgap.bound))

end Gaps

/-! ## Consecutive windows of a sequence

`Tiles a windows b` says that windows, given by start and length, follow one another from
`a` to `b`. Every position in between is then in exactly one of them, and reading them in
order is reading from `a` to `b`. `evenWindows` is the split whose lengths differ by at most
one. -/

/-- Windows one after the other, from the first position to the last. -/
def Tiles : Nat → List (Nat × Nat) → Nat → Prop
  | a, [], b => a = b
  | a, (start, len) :: rest, b => start = a ∧ Tiles (a + len) rest b

def InWindow (p : Nat) (w : Nat × Nat) : Prop := w.1 ≤ p ∧ p < w.1 + w.2

instance (p : Nat) (w : Nat × Nat) : Decidable (InWindow p w) :=
  inferInstanceAs (Decidable (w.1 ≤ p ∧ p < w.1 + w.2))

namespace Tiles

variable {a b : Nat} {windows : List (Nat × Nat)}

theorem sum_lengths : ∀ {a : Nat} {windows : List (Nat × Nat)},
    Tiles a windows b → a + (windows.map Prod.snd).sum = b
  | a, [], h => by simpa [Tiles] using h
  | a, (start, len) :: rest, h => by
    have ih := sum_lengths h.2
    simp only [List.map_cons, List.sum_cons]
    omega

theorem le (h : Tiles a windows b) : a ≤ b := by
  have := h.sum_lengths
  omega

/-- No window reaches out of the range. -/
theorem bounds : ∀ {a : Nat} {windows : List (Nat × Nat)}, Tiles a windows b →
    ∀ w ∈ windows, a ≤ w.1 ∧ w.1 + w.2 ≤ b
  | a, (start, len) :: rest, ⟨hstart, hrest⟩, w, hw => by
    rcases List.mem_cons.mp hw with rfl | hw
    · have := hrest.le
      simp only
      omega
    · have := bounds hrest w hw
      omega

/-- **Each position in between is in exactly one window**, and no other position in any. -/
theorem countP (p : Nat) : ∀ {a : Nat} {windows : List (Nat × Nat)}, Tiles a windows b →
    windows.countP (fun w => InWindow p w) = if a ≤ p ∧ p < b then 1 else 0
  | a, [], h => by
    have hab : a = b := h
    rw [if_neg (by omega), List.countP_nil]
  | a, (start, len) :: rest, ⟨hstart, hrest⟩ => by
    have hle := hrest.le
    rw [List.countP_cons, countP p hrest]
    simp only [InWindow, hstart, decide_eq_true_eq]
    by_cases hfirst : a ≤ p ∧ p < a + len
    · rw [if_neg (by omega), if_pos hfirst, if_pos (by omega)]
    · rw [if_neg hfirst, Nat.add_zero]
      by_cases hlater : a + len ≤ p ∧ p < b
      · rw [if_pos hlater, if_pos (by omega)]
      · rw [if_neg hlater, if_neg (by omega)]

variable {α : Type}

/-- A map that falls on no window falls nowhere. -/
theorem mono {g : Nat → Nat} : ∀ {a : Nat} {windows : List (Nat × Nat)}, Tiles a windows b →
    (∀ w ∈ windows, g w.1 ≤ g (w.1 + w.2)) →
    g a ≤ g b ∧ ∀ w ∈ windows, g (w.1 + w.2) ≤ g b
  | a, [], h, _ => ⟨by rw [show a = b from h], by simp⟩
  | a, (start, len) :: rest, ⟨hstart, hrest⟩, hg => by
    subst hstart
    obtain ⟨hfirst, hg⟩ := List.forall_mem_cons.mp hg
    obtain ⟨hle, hall⟩ := mono hrest hg
    exact ⟨Nat.le_trans hfirst hle, List.forall_mem_cons.mpr ⟨hle, hall⟩⟩

/-- Reading in order what the windows are mapped to is reading from the first position to the
last. -/
theorem flatMap_slices {g : Nat → Nat} (l : List α) : ∀ {a : Nat} {windows : List (Nat × Nat)},
    Tiles a windows b → (∀ w ∈ windows, g w.1 ≤ g (w.1 + w.2)) →
    windows.flatMap (fun w => (l.drop (g w.1)).take (g (w.1 + w.2) - g w.1))
      = (l.drop (g a)).take (g b - g a)
  | a, [], h, _ => by simp [show a = b from h]
  | a, (start, len) :: rest, ⟨hstart, hrest⟩, hg => by
    subst hstart
    obtain ⟨hfirst, hg⟩ := List.forall_mem_cons.mp hg
    have hle := (mono hrest hg).1
    simp only at hfirst
    have hsplit : g b - g start = (g (start + len) - g start) + (g b - g (start + len)) := by omega
    rw [List.flatMap_cons, flatMap_slices l hrest hg, hsplit, List.take_add, List.drop_drop,
      Nat.add_sub_cancel' hfirst]

/-- The same with `c` elements to a position. -/
theorem flatMap_window (c : Nat) (l : List α) (h : Tiles a windows b) :
    windows.flatMap (fun w => (l.drop (w.1 * c)).take (w.2 * c))
      = (l.drop (a * c)).take ((b - a) * c) := by
  have hslices := h.flatMap_slices (g := (· * c)) l
    (fun w _ => Nat.mul_le_mul_right c (Nat.le_add_right _ _))
  simpa only [Nat.add_mul, Nat.add_sub_cancel_left, ← Nat.sub_mul] using hslices

end Tiles

/-! ## The even split -/

/-- The windows with the given numbers, the first `rem` of all one longer than `base`. -/
def evenWindowsFrom (base rem : Nat) : List Nat → Nat → List (Nat × Nat)
  | [], _ => []
  | i :: rest, start =>
    (start, base + if i < rem then 1 else 0) ::
      evenWindowsFrom base rem rest (start + (base + if i < rem then 1 else 0))

/-- `n` positions in `k` windows. -/
def evenWindows (n k : Nat) : List (Nat × Nat) :=
  evenWindowsFrom (n / k) (n % k) (List.range k) 0

theorem length_evenWindowsFrom (base rem : Nat) : ∀ (numbers : List Nat) (start : Nat),
    (evenWindowsFrom base rem numbers start).length = numbers.length
  | [], _ => rfl
  | i :: rest, start => by
    rw [evenWindowsFrom, List.length_cons, length_evenWindowsFrom, List.length_cons]

theorem tiles_evenWindowsFrom (base rem : Nat) : ∀ (m i start : Nat),
    Tiles start (evenWindowsFrom base rem (List.range' i m) start)
      (start + m * base + (min (i + m) rem - min i rem))
  | 0, i, start => by simp [evenWindowsFrom, Tiles]
  | m + 1, i, start => by
    refine ⟨rfl, ?_⟩
    have ih := tiles_evenWindowsFrom base rem m (i + 1)
      (start + (base + if i < rem then 1 else 0))
    have hend : start + (base + if i < rem then 1 else 0) + m * base
        + (min (i + 1 + m) rem - min (i + 1) rem)
        = start + (m + 1) * base + (min (i + (m + 1)) rem - min i rem) := by
      rw [Nat.add_mul, Nat.one_mul]
      split <;> omega
    rw [hend] at ih
    exact ih

/-- The even split covers all positions. -/
theorem tiles_evenWindows {n k : Nat} (hk : 0 < k) : Tiles 0 (evenWindows n k) n := by
  have h := tiles_evenWindowsFrom (n / k) (n % k) k 0 0
  have hmod : n % k < k := Nat.mod_lt n hk
  have hdiv : k * (n / k) + n % k = n := Nat.div_add_mod n k
  have hend : 0 + k * (n / k) + (min (0 + k) (n % k) - min 0 (n % k)) = n := by omega
  rw [hend, ← List.range_eq_range'] at h
  exact h

theorem length_evenWindows (n k : Nat) : (evenWindows n k).length = k := by
  rw [evenWindows, length_evenWindowsFrom, List.length_range]

theorem evenWindows_ne_nil (n : Nat) {k : Nat} (hk : 0 < k) : evenWindows n k ≠ [] := by
  intro h
  have hlen := length_evenWindows n k
  rw [h] at hlen
  exact absurd hlen (Nat.ne_of_lt hk)

/-- The longer windows come first, so the first one is empty only with all others. -/
theorem evenWindows_eq_cons {n k : Nat} (hn : 0 < n) (hk : 0 < k) :
    ∃ len rest, evenWindows n k = (0, len) :: rest ∧ 0 < len := by
  obtain ⟨m, rfl⟩ := Nat.exists_eq_succ_of_ne_zero (Nat.pos_iff_ne_zero.mp hk)
  refine ⟨_, _, by rw [evenWindows, List.range_succ_eq_map, evenWindowsFrom], ?_⟩
  rcases Nat.eq_zero_or_pos (n / m.succ) with hbase | hbase
  · have hrem : n % m.succ = n := by
      have hdiv := Nat.div_add_mod n m.succ
      rwa [hbase, Nat.mul_zero, Nat.zero_add] at hdiv
    rw [hrem, if_pos hn]
    exact Nat.lt_add_left _ Nat.one_pos
  · exact Nat.add_pos_left hbase _

/-! ## Rows -/

section

variable {α : Type}

/-- Consecutive rows of `c` elements are one window. -/
theorem flatMap_rows (c : Nat) (l : List α) : ∀ (m start : Nat),
    (List.range' start m).flatMap (fun r => (l.drop (r * c)).take c)
      = (l.drop (start * c)).take (m * c)
  | 0, start => by simp
  | m + 1, start => by
    have hsplit : (m + 1) * c = c + m * c := by rw [Nat.add_mul, Nat.one_mul, Nat.add_comm]
    rw [List.range'_succ, List.flatMap_cons, flatMap_rows c l m, hsplit, List.take_add,
      List.drop_drop, Nat.add_mul, Nat.one_mul]

/-- Pieces of one length, joined, still have each piece as a window. -/
theorem window_flatMap {c : Nat} {f : Nat → List α} : ∀ {m start r : Nat},
    (∀ i, start ≤ i → i < start + m → (f i).length = c) → r < m →
    (((List.range' start m).flatMap f).drop (r * c)).take c = f (start + r)
  | m + 1, start, 0, hlen, _ => by
    have hfirst := hlen start (Nat.le_refl _) (by omega)
    rw [List.range'_succ, List.flatMap_cons, Nat.zero_mul, List.drop_zero, ← hfirst,
      List.take_left, Nat.add_zero]
  | m + 1, start, r + 1, hlen, hr => by
    have hfirst := hlen start (Nat.le_refl _) (by omega)
    have hskip : (r + 1) * c = (f start).length + r * c := by
      rw [hfirst, Nat.add_mul, Nat.one_mul, Nat.add_comm]
    rw [List.range'_succ, List.flatMap_cons, hskip, List.drop_length_add_append,
      window_flatMap (fun i hi hi' => hlen i (by omega) (by omega)) (by omega)]
    congr 1
    omega

/-- Rows of `c` elements, joined and cut to the length of `l`, are `l` exactly if every row
begins with the row of `l` at its place. -/
theorem take_flatten_eq_iff {c : Nat} : ∀ {rows : List (List α)} {l : List α},
    (∀ row ∈ rows, row.length = c) → l.length ≤ rows.length * c →
    (rows.flatten.take l.length = l ↔
      ∀ j row, rows[j]? = some row → (l.drop (j * c)).take c <+: row)
  | [], l, _, hlen => by
    have hnil : l = [] := List.length_eq_zero_iff.mp (by simpa using hlen)
    simp [hnil]
  | row :: rows, l, hrows, hlen => by
    obtain ⟨hrow, hrest⟩ := List.forall_mem_cons.mp hrows
    have hdrop : (l.drop c).length ≤ rows.length * c := by
      rw [List.length_drop]
      rw [List.length_cons, Nat.add_mul, Nat.one_mul] at hlen
      omega
    have ih := take_flatten_eq_iff hrest hdrop
    have hfirst : l.take c <+: row ↔ row.take l.length = l.take c := by
      rw [List.prefix_iff_eq_take, List.length_take, eq_comm]
      by_cases hc : c ≤ l.length
      · rw [Nat.min_eq_left hc, List.take_of_length_le (Nat.le_of_eq hrow),
          List.take_of_length_le (i := l.length) (by omega)]
      · rw [Nat.min_eq_right (by omega)]
    have hsplit : (row :: rows).flatten.take l.length
        = row.take l.length ++ rows.flatten.take (l.drop c).length := by
      rw [List.flatten_cons, List.take_append, hrow, List.length_drop]
    have hwhole : (row :: rows).flatten.take l.length = l ↔
        row.take l.length = l.take c ∧ rows.flatten.take (l.drop c).length = l.drop c := by
      rw [hsplit]
      constructor
      · intro h
        refine List.append_inj (h.trans (List.take_append_drop c l).symm) ?_
        rw [List.length_take, List.length_take, hrow, Nat.min_comm]
      · rintro ⟨h₁, h₂⟩
        rw [h₁, h₂, List.take_append_drop]
    have hplace : ∀ j, (j + 1) * c = c + j * c := fun j => by
      rw [Nat.add_mul, Nat.one_mul, Nat.add_comm]
    rw [hwhole, ← hfirst, ih]
    constructor
    · rintro ⟨h₁, h₂⟩ j row' hj
      cases j with
      | zero =>
        cases hj
        simpa using h₁
      | succ j =>
        have hnext := h₂ j row' hj
        rwa [List.drop_drop, ← hplace] at hnext
    · intro h
      refine ⟨by simpa using h 0 row rfl, fun j row' hj => ?_⟩
      have hnext := h (j + 1) row' hj
      rwa [hplace, ← List.drop_drop] at hnext

end

end Ipfrs.Lib
