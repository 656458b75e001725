/-
Ipfrs.Lib.Loop — loops whose number of rounds is not known in advance.

A `while` loop is a body that, from a state, either goes round again with a new
state or leaves with a result. `run` gives it a number of rounds; `none` means
that the rounds did not suffice. A result never depends on how many rounds were
granted (`run_mono`), an invariant of the body holds where the loop is left
(`run_inv`), and a loop whose measure falls in every round is left
(`run_of_measure`).
-/
import Mathlib.Data.Finset.Basic
import Mathlib.Data.Finset.Lattice.Lemmas

namespace Ipfrs.Lib.Loop

variable {σ ρ : Type}

/-- At most `n` rounds of a body: `.inl` goes round again, `.inr` leaves. -/
def run (body : σ → σ ⊕ ρ) : Nat → σ → Option ρ
  | 0, _ => none
  | n + 1, s =>
    match body s with
    | .inl s' => run body n s'
    | .inr r => some r

/-- The loop is left with a result after some number of rounds. -/
def Leaves (body : σ → σ ⊕ ρ) (s : σ) (r : ρ) : Prop :=
  ∃ n, run body n s = some r

variable {body : σ → σ ⊕ ρ} {s s' : σ}

theorem run_again (h : body s = .inl s') (n : Nat) : run body (n + 1) s = run body n s' := by
  rw [run, h]

theorem run_leave {r : ρ} (h : body s = .inr r) (n : Nat) : run body (n + 1) s = some r := by
  rw [run, h]

/-- More rounds do not change the result. -/
theorem run_mono {r : ρ} :
    ∀ {n m : Nat} {s : σ}, run body n s = some r → n ≤ m → run body m s = some r
  | 0, _, _, h, _ => by cases h
  | n + 1, 0, _, _, hm => by omega
  | n + 1, m + 1, s, h, hm => by
    cases hb : body s with
    | inl s' =>
      rw [run_again hb] at h ⊢
      exact run_mono h (by omega)
    | inr r' =>
      rw [run_leave hb] at h ⊢
      exact h

theorem Leaves.again {r : ρ} (hb : body s = .inl s') (h : Leaves body s' r) : Leaves body s r := by
  obtain ⟨n, hn⟩ := h
  exact ⟨n + 1, by rw [run_again hb, hn]⟩

theorem Leaves.leave {r : ρ} (hb : body s = .inr r) : Leaves body s r :=
  ⟨1, run_leave hb 0⟩

theorem leaves_iff_of_again {r : ρ} (hb : body s = .inl s') :
    Leaves body s r ↔ Leaves body s' r := by
  constructor
  · intro h
    obtain ⟨n, hn⟩ := h
    cases n with
    | zero => cases hn
    | succ n => exact ⟨n, by rwa [run_again hb] at hn⟩
  · exact Leaves.again hb

theorem leaves_iff_of_leave {r r' : ρ} (hb : body s = .inr r') : Leaves body s r ↔ r = r' := by
  constructor
  · intro h
    obtain ⟨n, hn⟩ := h
    cases n with
    | zero => cases hn
    | succ n =>
      rw [run_leave hb] at hn
      exact (Option.some.inj hn).symm
  · intro h
    rw [h]
    exact Leaves.leave hb

/-- An invariant of the body holds in the round that leaves. -/
theorem run_inv {Inv : σ → Prop} (step : ∀ s s', Inv s → body s = .inl s' → Inv s') :
    ∀ {n : Nat} {s : σ} {r : ρ}, Inv s → run body n s = some r →
      ∃ s', Inv s' ∧ body s' = .inr r
  | 0, _, _, _, h => by cases h
  | n + 1, s, r, hs, h => by
    cases hb : body s with
    | inl s' =>
      rw [run_again hb] at h
      exact run_inv step (step s s' hs hb) h
    | inr r' =>
      rw [run_leave hb] at h
      cases h
      exact ⟨s, hs, hb⟩

/-- A body that keeps an invariant and lowers a measure is left. -/
theorem run_of_measure (Inv : σ → Prop) (μ : σ → Nat)
    (step : ∀ s s', Inv s → body s = .inl s' → Inv s' ∧ μ s' < μ s) :
    ∀ (n : Nat) {s : σ}, Inv s → μ s ≤ n → ∃ r, run body (n + 1) s = some r
  | n, s, hs, hn => by
    cases hb : body s with
    | inr r => exact ⟨r, run_leave hb n⟩
    | inl s' =>
      obtain ⟨hs', hlt⟩ := step s s' hs hb
      rw [run_again hb]
      cases n with
      | zero => omega
      | succ n => exact run_of_measure Inv μ step n hs' (by omega)

/-- Such a loop, left with a value whenever the invariant holds, has a value. -/
theorem run_join_isSome {body : σ → σ ⊕ Option ρ} (Inv : σ → Prop) (μ : σ → Nat)
    (step : ∀ s s', Inv s → body s = .inl s' → Inv s' ∧ μ s' < μ s)
    (leave : ∀ s r, Inv s → body s = .inr r → r.isSome) {n : Nat} (hs : Inv s) (hn : μ s < n) :
    ((run body n s).join).isSome := by
  obtain ⟨n, rfl⟩ : ∃ m, n = m + 1 := ⟨n - 1, by omega⟩
  obtain ⟨r, hr⟩ := run_of_measure Inv μ step n hs (by omega)
  obtain ⟨s', hs', hleft⟩ := run_inv (fun s s' h hb => (step s s' h hb).1) hs hr
  rw [hr, Option.join_some]
  exact leave s' r hs' hleft

end Ipfrs.Lib.Loop

/-! ## Collecting a finite set again and again

Of the symbols that arrive those of a finite set are collected; when the set is complete the
collection begins anew. `rounds` counts how often that happens, `rounds_eq_zero_iff` and
`rounds_eq_one_iff` say when it never and when it happens exactly once. -/

namespace Ipfrs.Lib

variable {α : Type} [DecidableEq α] {all got got' : Finset α} {l first rest : List α}

/-- How often `all` is completed, `got` being there at first. -/
def rounds (all : Finset α) : Finset α → List α → Nat
  | _, [] => 0
  | got, a :: l =>
    if all ⊆ insert a got then rounds all ∅ l + 1 else rounds all (insert a got) l

/-- Having more completes no less, and at most one round more. -/
theorem rounds_mono_and_le (all : Finset α) : ∀ (l : List α),
    (∀ {got got'}, got ⊆ got' → rounds all got l ≤ rounds all got' l)
      ∧ ∀ got, rounds all got l ≤ rounds all ∅ l + 1
  | [] => ⟨fun _ => Nat.le_refl _, fun _ => Nat.zero_le _⟩
  | a :: l => by
    obtain ⟨mono, hle⟩ := rounds_mono_and_le all l
    have hrest : rounds all ∅ l ≤ rounds all ∅ (a :: l) := by
      rw [rounds]
      split
      · exact Nat.le_succ _
      · exact mono (Finset.empty_subset _)
    refine ⟨fun {got got'} hsub => ?_, fun got => ?_⟩
    · have hins := Finset.insert_subset_insert a hsub
      rw [rounds, rounds]
      split
      · next hall => rw [if_pos (hall.trans hins)]
      · split
        · exact hle _
        · exact mono hins
    · rw [rounds]
      split
      · exact Nat.succ_le_succ hrest
      · exact (hle _).trans (Nat.succ_le_succ hrest)

theorem rounds_mono (h : got ⊆ got') : rounds all got l ≤ rounds all got' l :=
  (rounds_mono_and_le all l).1 h

theorem rounds_le_append : ∀ (first : List α) {got : Finset α},
    rounds all ∅ rest ≤ rounds all got (first ++ rest)
  | [], _ => rounds_mono (Finset.empty_subset _)
  | a :: first, got => by
    rw [List.cons_append, rounds]
    split
    · exact (rounds_le_append first).trans (Nat.le_succ _)
    · exact rounds_le_append first

/-- One more round is completed exactly where a first part of the symbols completes the set
and the others go on from nothing. -/
theorem succ_le_rounds_iff {k : Nat} (h : ¬ all ⊆ got) :
    k + 1 ≤ rounds all got l ↔ ∃ first rest, l = first ++ rest ∧ all ⊆ got ∪ first.toFinset
      ∧ k ≤ rounds all ∅ rest := by
  induction l generalizing got with
  | nil =>
    refine ⟨fun hk => absurd hk (Nat.not_succ_le_zero k), fun ⟨first, rest, heq, hall, _⟩ => ?_⟩
    obtain ⟨rfl, rfl⟩ := List.nil_eq_append_iff.mp heq
    exact absurd (by simpa using hall) h
  | cons a l ih =>
    rw [rounds]
    split
    · next hall =>
      rw [Nat.succ_le_succ_iff]
      constructor
      · intro hk
        exact ⟨[a], l, rfl, by simpa [Finset.union_comm] using hall, hk⟩
      · rintro ⟨first, rest, heq, hfirst, hk⟩
        cases first with
        | nil => exact absurd (by simpa using hfirst) h
        | cons b first =>
          obtain ⟨rfl, rfl⟩ := List.cons_eq_cons.mp heq
          exact hk.trans (rounds_le_append first)
    · next hall =>
      rw [ih hall]
      constructor
      · rintro ⟨first, rest, rfl, hfirst, hk⟩
        exact ⟨a :: first, rest, rfl, by simpa [Finset.insert_union] using hfirst, hk⟩
      · rintro ⟨first, rest, heq, hfirst, hk⟩
        cases first with
        | nil => exact absurd (by simpa using hfirst) h
        | cons b first =>
          obtain ⟨rfl, rfl⟩ := List.cons_eq_cons.mp heq
          exact ⟨first, rest, rfl, by simpa [Finset.insert_union] using hfirst, hk⟩

theorem one_le_rounds_iff (h : all.Nonempty) : 1 ≤ rounds all ∅ l ↔ all ⊆ l.toFinset := by
  have hempty : ¬ all ⊆ ∅ := fun hsub => h.ne_empty (Finset.subset_empty.mp hsub)
  rw [← Nat.zero_add 1, succ_le_rounds_iff hempty]
  constructor
  · rintro ⟨first, rest, rfl, hall, -⟩
    rw [List.toFinset_append]
    exact (by simpa using hall : all ⊆ _).trans Finset.subset_union_left
  · intro hall
    exact ⟨l, [], (List.append_nil l).symm, by simpa using hall, Nat.zero_le _⟩

theorem rounds_eq_zero_iff (h : all.Nonempty) : rounds all ∅ l = 0 ↔ ¬ all ⊆ l.toFinset := by
  rw [← one_le_rounds_iff h]
  omega

/-- The set is completed once: it arrives, but not once more after it has arrived. -/
theorem rounds_eq_one_iff (h : all.Nonempty) : rounds all ∅ l = 1 ↔ all ⊆ l.toFinset
      ∧ ¬ ∃ first rest, l = first ++ rest ∧ all ⊆ first.toFinset ∧ all ⊆ rest.toFinset := by
  have hempty : ¬ all ⊆ ∅ := fun hsub => h.ne_empty (Finset.subset_empty.mp hsub)
  have htwo := succ_le_rounds_iff (l := l) (k := 1) hempty
  simp only [Finset.empty_union, one_le_rounds_iff h] at htwo
  rw [← one_le_rounds_iff h, ← htwo]
  omega

end Ipfrs.Lib
