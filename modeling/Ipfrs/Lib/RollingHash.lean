/-
Ipfrs.Lib.RollingHash — a hash rolled over a window.

The operation `xor` is commutative and makes every element its own inverse, and `shift`
distributes over it. The hash of a window shifts once for every value. To roll it, the
value that leaves is folded in once more, shifted as often as the window is long, and
cancels (`xor_roll`). A constant that is folded in with every step does not: what it
adds up to after `n` steps is `drift k n`, whatever the values were, and two such sums
agree exactly as often as the first return to zero says (`drift_eq_iff`).

The window itself is often a ring. `rotate_set` says what one write does to it, read from
the position that is overwritten next.
-/
import Mathlib.Data.Nat.Periodic

namespace Ipfrs.Lib.RollingHash

section

variable {G B : Type} (xor : G → G → G) (zero : G) (shift : G → G) (val : B → G)

/-- The laws of the operation and of the shift. -/
structure Laws : Prop where
  assoc : ∀ x y z, xor (xor x y) z = xor x (xor y z)
  comm : ∀ x y, xor x y = xor y x
  xor_self : ∀ x, xor x x = zero
  xor_zero : ∀ x, xor x zero = x
  shift_xor : ∀ x y, shift (xor x y) = xor (shift x) (shift y)

/-- The hash of a window, its oldest value first. -/
def hash (window : List B) : G := window.foldl (fun h b => xor (shift h) (val b)) zero

/-- What a constant folded in after each of `n` shifts adds up to. -/
def drift (k : G) : Nat → G
  | 0 => zero
  | n + 1 => xor (shift (drift k n)) k

variable {xor zero shift val} (laws : Laws xor zero shift)
include laws

theorem Laws.shift_zero : shift zero = zero := by
  have h := laws.shift_xor zero zero
  rwa [laws.xor_self, laws.xor_self] at h

theorem Laws.xor_cancel (x y : G) : xor x (xor x y) = y := by
  rw [← laws.assoc, laws.xor_self, laws.comm, laws.xor_zero]

theorem Laws.xor_right_inj {x y z : G} : xor x y = xor x z ↔ y = z := by
  constructor
  · intro h
    rw [← laws.xor_cancel x y, h, laws.xor_cancel]
  · intro h
    rw [h]

theorem Laws.xor_eq_right {x y : G} : xor x y = y ↔ x = zero := by
  have h : xor x y = y ↔ xor y x = xor y zero := by rw [laws.comm x y, laws.xor_zero]
  rw [h, laws.xor_right_inj]

/-- Shifting and folding in a constant: the constant's part does not depend on the
start. -/
theorem iterate_shift_xor_const (k x : G) (n : Nat) :
    (fun y => xor (shift y) k)^[n] x = xor (shift^[n] x) (drift xor zero shift k n) := by
  induction n with
  | zero => exact (laws.xor_zero x).symm
  | succ n ih =>
    simp only [Function.iterate_succ_apply', ih, laws.shift_xor, drift]
    rw [laws.assoc]

omit laws in
@[simp] theorem hash_concat (window : List B) (b : B) : hash xor zero shift val (window ++ [b])
      = xor (shift (hash xor zero shift val window)) (val b) := by
  simp [hash]

/-- The oldest value has been shifted once for every value after it. -/
theorem hash_cons (b : B) (window : List B) : hash xor zero shift val (b :: window)
      = xor (shift^[window.length] (val b)) (hash xor zero shift val window) := by
  induction window using List.reverseRecOn with
  | nil =>
    show xor (shift zero) (val b) = xor (val b) zero
    rw [laws.shift_zero, laws.comm]
  | append_singleton window c ih =>
    rw [← List.cons_append, hash_concat, hash_concat, ih, laws.shift_xor, laws.assoc,
      List.length_append, List.length_singleton, Function.iterate_succ_apply']

/-- **One step of a rolled hash**: the value that leaves cancels, and the constant joins
the drift. -/
theorem xor_roll (out b : B) (rest : List B) (k : G) (n : Nat) :
    xor (xor (shift (xor (hash xor zero shift val (out :: rest)) (drift xor zero shift k n)))
        (xor (shift^[rest.length + 1] (val out)) k)) (val b)
      = xor (hash xor zero shift val (rest ++ [b])) (drift xor zero shift k (n + 1)) := by
  have : Std.Associative xor := ⟨laws.assoc⟩
  have : Std.Commutative xor := ⟨laws.comm⟩
  rw [hash_cons laws, hash_concat, drift, laws.shift_xor, laws.shift_xor,
    ← Function.iterate_succ_apply' shift]
  -- the shifted value stands on both sides of the sum
  have hcancel : ∀ o h d v : G,
      xor (xor (xor (xor o h) d) (xor o k)) v = xor (xor o o) (xor (xor h v) (xor d k)) := by
    intro o h d v
    ac_rfl
  rw [hcancel, laws.xor_self, laws.comm, laws.xor_zero]

/-! ## The drift -/

theorem drift_add (k : G) (d m : Nat) : drift xor zero shift k (d + m)
      = xor (shift^[m] (drift xor zero shift k d)) (drift xor zero shift k m) := by
  induction m with
  | zero => exact (laws.xor_zero _).symm
  | succ m ih =>
    rw [← Nat.add_assoc, drift, ih, laws.shift_xor, drift, Function.iterate_succ_apply',
      laws.assoc]

theorem drift_periodic {k : G} {p : Nat} (hp : drift xor zero shift k p = zero) :
    Function.Periodic (drift xor zero shift k) p := by
  intro m
  rw [Nat.add_comm m p, drift_add laws, hp]
  have hzero : shift^[m] zero = zero := Function.iterate_fixed laws.shift_zero m
  rw [hzero, laws.comm, laws.xor_zero]

/-- **Two drifts agree** iff the numbers of steps do modulo the first return to zero. -/
theorem drift_eq_iff {k : G} {p : Nat} (hpos : 0 < p) (hp : drift xor zero shift k p = zero)
    (hfirst : ∀ d, 0 < d → d < p → drift xor zero shift k d ≠ zero)
    (hshift : ∀ x, shift x = zero → x = zero) (n m : Nat) :
    drift xor zero shift k n = drift xor zero shift k m ↔ n % p = m % p := by
  have hiter : ∀ (j : Nat) (x : G), shift^[j] x = zero → x = zero := by
    intro j
    induction j with
    | zero => exact fun x h => h
    | succ j ih =>
      intro x h
      rw [Function.iterate_succ_apply'] at h
      exact ih x (hshift _ h)
  -- below one period the steps between two equal drifts are none
  have hclose : ∀ a b, a ≤ b → b < p →
      drift xor zero shift k b = drift xor zero shift k a → b = a := by
    intro a b hab hb h
    rw [← Nat.sub_add_cancel hab, drift_add laws, laws.xor_eq_right] at h
    by_contra hne
    exact hfirst (b - a) (by omega) (by omega) (hiter _ _ h)
  have hn := Nat.mod_lt n hpos
  have hm := Nat.mod_lt m hpos
  rw [← (drift_periodic laws hp).map_mod_nat n, ← (drift_periodic laws hp).map_mod_nat m]
  constructor
  · intro h
    rcases Nat.le_total (n % p) (m % p) with hle | hle
    · exact (hclose _ _ hle hm h.symm).symm
    · exact hclose _ _ hle hn h
  · intro h
    rw [h]

end

/-! ## A window kept as a ring -/

section

variable {α : Type}

/-- Read from the position of the next write, a write drops the oldest value and appends
the new one. -/
theorem rotate_set {l : List α} {i : Nat} (hi : i < l.length) (a : α) :
    (l.set i a).rotate ((i + 1) % l.length) = (l.rotate i).tail ++ [a] := by
  have hset : (l.set i a).rotate ((i + 1) % l.length) = (l.set i a).rotate (i + 1) := by
    have hlen : (l.set i a).length = l.length := List.length_set
    rw [← hlen, List.rotate_mod]
  have hdrop : l.drop i ≠ [] := by
    rw [← List.length_pos_iff, List.length_drop]
    omega
  rw [hset, List.rotate_eq_drop_append_take (by rw [List.length_set]; omega),
    List.rotate_eq_drop_append_take hi.le, List.tail_append_of_ne_nil hdrop, List.tail_drop,
    List.drop_set_of_lt (Nat.lt_succ_self i), List.append_assoc]
  congr 1
  rw [List.take_add_one, List.take_set_of_le (Nat.le_refl i)]
  simp [hi]

/-- The oldest value is the one at that position. -/
theorem rotate_eq_cons {l : List α} {i : Nat} (hi : i < l.length) :
    l.rotate i = l[i] :: (l.rotate i).tail := by
  rw [List.rotate_eq_drop_append_take hi.le, List.drop_eq_getElem_cons hi]
  rfl

end

end Ipfrs.Lib.RollingHash
