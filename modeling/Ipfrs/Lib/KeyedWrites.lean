/-
Ipfrs.Lib.KeyedWrites — a sequence of writes to a map, read by its last writers.

A write sets one key (`none` deletes it). Folding a sequence of writes over a map
gives, for each key, what the last write on that key says, or the old value where
there is none. Two sequences therefore leave the same value for a key as soon as
their last writes on it agree, and a write outranked by a later one of the same key
does not matter.
-/
import Mathlib.Data.List.Induction

namespace Ipfrs.Lib.KeyedWrites

variable {α κ β : Type} [DecidableEq κ] (key : α → κ) (val : α → Option β)

/-- One write. -/
def apply (m : κ → Option β) (e : α) : κ → Option β := Function.update m (key e) (val e)

variable {key val}

theorem foldl_apply_of_none {k : κ} :
    ∀ {l : List α} {m : κ → Option β}, (∀ e ∈ l, key e ≠ k) → l.foldl (apply key val) m k = m k
  | [], _, _ => rfl
  | e :: l, m, h => by
    have he : k ≠ key e := fun hk => h e List.mem_cons_self hk.symm
    rw [List.foldl_cons, foldl_apply_of_none (fun x hx => h x (List.mem_cons_of_mem _ hx)),
      apply, Function.update_of_ne he]

/-- The last write on a key decides its value. -/
theorem foldl_apply_of_last {m : κ → Option β} {l l' : List α} {d : α}
    (h : ∀ e ∈ l', key e ≠ key d) : (l ++ d :: l').foldl (apply key val) m (key d) = val d := by
  rw [List.foldl_append, List.foldl_cons, foldl_apply_of_none h, apply, Function.update_self]

variable (key) in
/-- The last write on a key. -/
def lastOn (k : κ) (l : List α) : Option α := (l.filter (fun e => key e = k)).getLast?

@[simp] theorem lastOn_nil (k : κ) : lastOn key k [] = none := rfl

theorem lastOn_concat (k : κ) (l : List α) (a : α) :
    lastOn key k (l ++ [a]) = if key a = k then some a else lastOn key k l := by
  by_cases h : key a = k <;> simp [lastOn, List.filter_append, h]

theorem lastOn_mem {k : κ} {l : List α} {d : α} (h : lastOn key k l = some d) :
    d ∈ l ∧ key d = k := by
  have hmem := List.mem_filter.mp (List.mem_of_getLast? h)
  exact ⟨hmem.1, of_decide_eq_true hmem.2⟩

theorem lastOn_eq_none {k : κ} {l : List α} : lastOn key k l = none ↔ ∀ e ∈ l, key e ≠ k := by
  simp [lastOn]

theorem lastOn_eq_none_of_subset {k : κ} {l l' : List α} (hsub : ∀ e ∈ l, e ∈ l')
    (h : lastOn key k l' = none) : lastOn key k l = none :=
  lastOn_eq_none.mpr (fun e he => lastOn_eq_none.mp h e (hsub e he))

/-- A sequence of writes gives each key what the last write on it says. -/
theorem foldl_apply_eq (l : List α) (m : κ → Option β) (k : κ) :
    l.foldl (apply key val) m k = (lastOn key k l).elim (m k) val := by
  induction l using List.reverseRecOn with
  | nil => rfl
  | append_singleton l a ih =>
    rw [List.foldl_append, List.foldl_cons, List.foldl_nil, lastOn_concat, apply]
    by_cases h : key a = k
    · rw [if_pos h, ← h, Function.update_self, Option.elim_some]
    · rw [if_neg h, Function.update_of_ne (Ne.symm h), ih]

theorem lastOn_append (k : κ) (l l' : List α) :
    lastOn key k (l ++ l') = (lastOn key k l').or (lastOn key k l) := by
  unfold lastOn
  rw [List.filter_append, List.getLast?_append]

/-- Leaving out writes keeps the last write on a key if it is not left out. -/
theorem lastOn_filter {k : κ} {l : List α} {d : α} (p : α → Bool) (h : lastOn key k l = some d)
    (hd : p d = true) : lastOn key k (l.filter p) = some d := by
  induction l using List.reverseRecOn with
  | nil => cases h
  | append_singleton l a ih =>
    rw [lastOn_concat] at h
    rw [List.filter_append]
    split at h
    · next hk =>
      cases h
      rw [List.filter_cons_of_pos hd, List.filter_nil, lastOn_concat, if_pos hk]
    · next hk =>
      have hrest := ih h
      by_cases ha : p a = true
      · rw [List.filter_cons_of_pos ha, List.filter_nil, lastOn_concat, if_neg hk, hrest]
      · rw [List.filter_cons_of_neg ha, List.filter_nil, List.append_nil, hrest]

section Ranked

variable (rank : α → Nat)

/-- In a sequence of increasing rank no two writes share one. -/
theorem eq_of_rank_eq {l : List α} (hsorted : l.Pairwise (fun a b => rank a < rank b)) {a b : α}
    (ha : a ∈ l) (hb : b ∈ l) (h : rank a = rank b) : a = b := by
  induction l with
  | nil => cases ha
  | cons c l ih =>
    obtain ⟨hhead, htail⟩ := List.pairwise_cons.mp hsorted
    rcases List.mem_cons.mp ha with hac | hal
    · rcases List.mem_cons.mp hb with hbc | hbl
      · rw [hac, hbc]
      · have hlt := hhead b hbl
        rw [hac] at h
        omega
    · rcases List.mem_cons.mp hb with hbc | hbl
      · have hlt := hhead a hal
        rw [hbc] at h
        omega
      · exact ih htail hal hbl

/-- In a sequence of increasing rank, the write of highest rank on a key decides. -/
theorem foldl_apply_of_max {m : κ → Option β} {l : List α} {d : α}
    (hsorted : l.Pairwise (fun a b => rank a < rank b)) (hd : d ∈ l)
    (hmax : ∀ e ∈ l, key e = key d → rank e ≤ rank d) :
    l.foldl (apply key val) m (key d) = val d := by
  obtain ⟨before, after, rfl⟩ := List.append_of_mem hd
  apply foldl_apply_of_last
  intro e he hkey
  have hlt : rank d < rank e := by
    have hcons := (List.pairwise_append.mp hsorted).2.1
    exact (List.pairwise_cons.mp hcons).1 e he
  have hle := hmax e (List.mem_append_right _ (List.mem_cons_of_mem _ he)) hkey
  omega

omit [DecidableEq κ] in
/-- Some write on a key has the highest rank, if there is any. -/
theorem exists_max {l : List α} {k : κ} (h : ∃ e ∈ l, key e = k) :
    ∃ d ∈ l, key d = k ∧ ∀ e ∈ l, key e = k → rank e ≤ rank d := by
  induction l with
  | nil =>
    obtain ⟨e, he, -⟩ := h
    cases he
  | cons a l ih =>
    by_cases hrest : ∃ e ∈ l, key e = k
    · obtain ⟨d, hd, hkey, hmax⟩ := ih hrest
      by_cases hbetter : key a = k ∧ rank d < rank a
      · refine ⟨a, List.mem_cons_self, hbetter.1, ?_⟩
        intro e he hek
        rcases List.mem_cons.mp he with rfl | he
        · exact Nat.le_refl _
        · exact Nat.le_trans (hmax e he hek) (Nat.le_of_lt hbetter.2)
      · refine ⟨d, List.mem_cons_of_mem _ hd, hkey, ?_⟩
        intro e he hek
        rcases List.mem_cons.mp he with rfl | he
        · exact Nat.le_of_not_lt (fun hlt => hbetter ⟨hek, hlt⟩)
        · exact hmax e he hek
    · obtain ⟨e, he, hek⟩ := h
      rcases List.mem_cons.mp he with rfl | he
      · refine ⟨e, List.mem_cons_self, hek, ?_⟩
        intro x hx hxk
        rcases List.mem_cons.mp hx with rfl | hx
        · exact Nat.le_refl _
        · exact absurd ⟨x, hx, hxk⟩ hrest
      · exact absurd ⟨e, he, hek⟩ hrest

/-- Writing `short` over the result of `base` equals writing all of `full`, when both
are parts of `full` and the highest write of `full` on each key is in `short`, or is
in `base` with no write on that key in `short`. -/
theorem foldl_over_foldl {m : κ → Option β} {full base short : List α}
    (hfull : full.Pairwise (fun a b => rank a < rank b))
    (hbase : base.Sublist full) (hshort : short.Sublist full)
    (h : ∀ d ∈ full, (∀ e ∈ full, key e = key d → rank e ≤ rank d) →
      d ∈ short ∨ (d ∈ base ∧ ∀ e ∈ short, key e ≠ key d)) :
    short.foldl (apply key val) (base.foldl (apply key val) m) = full.foldl (apply key val) m := by
  funext k
  by_cases hk : ∃ e ∈ full, key e = k
  · obtain ⟨d, hd, hkey, hmax⟩ := exists_max rank hk
    subst hkey
    rw [foldl_apply_of_max rank hfull hd hmax]
    rcases h d hd hmax with hin | ⟨hin, hnone⟩
    · exact foldl_apply_of_max rank (hfull.sublist hshort) hin
        (fun e he => hmax e (hshort.subset he))
    · rw [foldl_apply_of_none hnone]
      exact foldl_apply_of_max rank (hfull.sublist hbase) hin (fun e he => hmax e (hbase.subset he))
  · have hnone : ∀ l : List α, l.Sublist full → ∀ e ∈ l, key e ≠ k :=
      fun l hl e he hek => hk ⟨e, hl.subset he, hek⟩
    rw [foldl_apply_of_none (hnone _ hshort), foldl_apply_of_none (hnone _ hbase),
      foldl_apply_of_none (hnone _ (List.Sublist.refl _))]

end Ranked

end Ipfrs.Lib.KeyedWrites
