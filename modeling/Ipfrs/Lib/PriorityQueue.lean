/-
Ipfrs.Lib.PriorityQueue — a queue that gives away its greatest member first.

The members are kept in the order in which they came; of equally great members the first
one goes first. Members of one kind that are never greater than those of the kind before
them leave in the order in which they came (`filter_popMax`). A `Heap` gives away any of
the equally great members.

With lazy deletion a member is a key with a rank and a version, and counts as long as its
version is the one the key has now: a key gets a new rank by a member with a new version,
and loses it with its version. `Tracks` is what this keeps, so that the greatest member that
counts is that of a key with the greatest rank (`Tracks.greatest`).
-/
import Mathlib.Data.List.Nodup
import Mathlib.Data.List.Perm.Basic

namespace Ipfrs.Lib

variable {α : Type} {lt : α → α → Bool}

/-- The greatest member and the others. -/
def popMax (lt : α → α → Bool) : List α → Option (α × List α)
  | [] => none
  | a :: q =>
    match popMax lt q with
    | none => some (a, [])
    | some (b, rest) => if lt a b then some (b, a :: rest) else some (a, q)

/-- What is given away is greater than all that came before it. -/
theorem exists_of_popMax : ∀ {q : List α} {m : α} {rest : List α}, popMax lt q = some (m, rest) →
    ∃ first last, q = first ++ m :: last ∧ rest = first ++ last ∧ ∀ a ∈ first, lt a m
  | [], _, _, h => by cases h
  | a :: q, m, rest, h => by
    rw [popMax] at h
    split at h
    · next hq =>
      cases h
      cases q with
      | nil => exact ⟨[], [], rfl, rfl, by simp⟩
      | cons b q =>
        rw [popMax] at hq
        split at hq
        · cases hq
        · split at hq <;> cases hq
    · next b others hq =>
      split at h
      · next hlt =>
        cases h
        obtain ⟨first, last, rfl, rfl, hfirst⟩ := exists_of_popMax hq
        refine ⟨a :: first, last, rfl, rfl, fun c hc => ?_⟩
        cases hc with
        | head => exact hlt
        | tail _ hc => exact hfirst c hc
      · cases h
        exact ⟨[], q, rfl, rfl, by simp⟩

theorem mem_of_popMax {q : List α} {m : α} {rest : List α} (h : popMax lt q = some (m, rest)) :
    m ∈ q ∧ rest.Sublist q := by
  obtain ⟨first, last, rfl, rfl, -⟩ := exists_of_popMax h
  exact ⟨by simp, List.Sublist.append_left (List.sublist_cons_self m last) first⟩

/-- A kind whose later members are not greater leaves in order. -/
theorem filter_popMax {q : List α} {m : α} {rest : List α} {p : α → Bool}
    (hfifo : q.Pairwise fun a b => p a → p b → lt a b = false)
    (h : popMax lt q = some (m, rest)) : q.filter p = [m].filter p ++ rest.filter p := by
  obtain ⟨first, last, rfl, rfl, hfirst⟩ := exists_of_popMax h
  rw [List.filter_append, List.filter_append, List.filter_cons]
  by_cases hm : p m
  · have hnone : first.filter p = [] := by
      refine List.filter_eq_nil_iff.mpr fun a ha hp => ?_
      have hle := (List.pairwise_append.mp hfifo).2.2 a ha m List.mem_cons_self hp hm
      rw [hfirst a ha] at hle
      cases hle
    simp [hnone, hm]
  · simp [hm]

/-! ## Heaps -/

/-- A heap gives away a member that no other is above, and keeps the others in any order. -/
structure Heap (le : α → α → Prop) where
  push : α → List α → List α
  pop : List α → Option (α × List α)
  push_perm : ∀ (a : α) (q : List α), (push a q).Perm (a :: q)
  pop_eq_none : ∀ {q : List α}, pop q = none → q = []
  pop_eq_some : ∀ {q : List α} {a : α} {rest : List α}, pop q = some (a, rest) →
    q.Perm (a :: rest) ∧ ∀ b ∈ q, le b a

theorem popMax_eq_none {q : List α} (h : popMax lt q = none) : q = [] := by
  cases q with
  | nil => rfl
  | cons a q =>
    rw [popMax] at h
    split at h
    · cases h
    · split at h <;> cases h

theorem le_of_popMax {le : α → α → Prop} (htrans : ∀ a b c, le a b → le b c → le a c)
    (htotal : ∀ a b, le a b ∨ le b a) (hlt : ∀ a b, lt a b = true ↔ ¬ le b a) :
    ∀ {q : List α} {m : α} {rest : List α}, popMax lt q = some (m, rest) → ∀ b ∈ q, le b m
  | [], _, _, h => by cases h
  | a :: q, m, rest, h => by
    have hrefl : ∀ a, le a a := fun a => (htotal a a).elim id id
    rw [popMax] at h
    intro b hb
    split at h
    · next hq =>
      cases h
      rw [popMax_eq_none hq] at hb
      rw [List.mem_singleton.mp hb]
      exact hrefl _
    · next c others hq =>
      have hrest := le_of_popMax htrans htotal hlt hq
      split at h
      · next hac =>
        cases h
        rcases List.mem_cons.mp hb with rfl | hb
        · exact (htotal _ _).resolve_right ((hlt _ _).mp hac)
        · exact hrest b hb
      · next hac =>
        cases h
        have hca : le c a := by
          by_contra hno
          exact hac ((hlt _ _).mpr hno)
        rcases List.mem_cons.mp hb with rfl | hb
        · exact hrefl _
        · exact htrans _ _ _ (hrest b hb) hca

/-- The heap that gives away the first of the greatest members. -/
def Heap.first {le : α → α → Prop} (htrans : ∀ a b c, le a b → le b c → le a c)
    (htotal : ∀ a b, le a b ∨ le b a) (lt : α → α → Bool)
    (hlt : ∀ a b, lt a b = true ↔ ¬ le b a) : Heap le where
  push := List.cons
  pop := popMax lt
  push_perm _ _ := List.Perm.refl _
  pop_eq_none := popMax_eq_none
  pop_eq_some h := by
    obtain ⟨front, back, rfl, rfl, -⟩ := exists_of_popMax h
    exact ⟨List.perm_middle, le_of_popMax htrans htotal hlt h⟩

/-! ## Lazy deletion -/

section

variable {κ ρ : Type}

structure Item (κ ρ : Type) where
  key : κ
  rank : ρ
  version : Nat

/-- Each live key has its item, and no two items have one version. -/
structure Tracks (live : κ → Option (ρ × Nat)) (items : List (Item κ ρ)) (counter : Nat) :
    Prop where
  present : ∀ k r v, live k = some (r, v) → ⟨k, r, v⟩ ∈ items
  issued : ∀ i ∈ items, i.version ≤ counter
  once : (items.map Item.version).Nodup

variable {live : κ → Option (ρ × Nat)} {items rest : List (Item κ ρ)} {counter : Nat}
  {i : Item κ ρ}

theorem Tracks.empty (counter : Nat) : Tracks (fun _ : κ => (none : Option (ρ × Nat))) [] counter :=
  ⟨fun _ _ _ h => (by cases h), fun _ h => (by cases h), List.nodup_nil⟩

/-- An item that counts has the rank that its key has now. -/
theorem Tracks.rank_eq (h : Tracks live items counter) (hi : i ∈ items) {r : ρ}
    (hlive : live i.key = some (r, i.version)) : i.rank = r := by
  have hmem := h.present i.key r i.version hlive
  have heq : i = ⟨i.key, r, i.version⟩ := List.inj_on_of_nodup_map h.once hi hmem rfl
  exact congrArg Item.rank heq

theorem Tracks.perm {items' : List (Item κ ρ)} (h : Tracks live items counter)
    (hperm : items'.Perm items) : Tracks live items' counter where
  present k r v hlive := hperm.mem_iff.mpr (h.present k r v hlive)
  issued i hi := h.issued i (hperm.mem_iff.mp hi)
  once := (hperm.map Item.version).nodup_iff.mpr h.once

variable [DecidableEq κ]

/-- A key gets a rank, its first or a new one. -/
theorem Tracks.put (h : Tracks live items counter) (k : κ) (r : ρ) :
    Tracks (Function.update live k (some (r, counter + 1))) (⟨k, r, counter + 1⟩ :: items)
      (counter + 1) where
  present k' r' v' hlive := by
    by_cases hk : k' = k
    · subst hk
      rw [Function.update_self] at hlive
      cases hlive
      exact List.mem_cons_self
    · rw [Function.update_of_ne hk] at hlive
      exact List.mem_cons_of_mem _ (h.present k' r' v' hlive)
  issued i hi := by
    rcases List.mem_cons.mp hi with rfl | hi
    · exact Nat.le_refl _
    · exact Nat.le_succ_of_le (h.issued i hi)
  once := by
    refine List.nodup_cons.mpr ⟨fun hmem => ?_, h.once⟩
    obtain ⟨i, hi, hversion⟩ := List.mem_map.mp hmem
    have hle := h.issued i hi
    rw [hversion] at hle
    exact absurd hle (Nat.not_succ_le_self counter)

theorem Tracks.remove (h : Tracks live items counter) (k : κ) :
    Tracks (Function.update live k none) items counter where
  present k' r' v' hlive := by
    by_cases hk : k' = k
    · rw [hk, Function.update_self] at hlive
      cases hlive
    · rw [Function.update_of_ne hk] at hlive
      exact h.present k' r' v' hlive
  issued := h.issued
  once := h.once

omit [DecidableEq κ] in
/-- An item goes that no key has any more. -/
theorem Tracks.drop (h : Tracks live items counter) (hperm : items.Perm (i :: rest))
    (hstale : ∀ r, live i.key ≠ some (r, i.version)) : Tracks live rest counter where
  present k r v hlive := by
    rcases List.mem_cons.mp (hperm.mem_iff.mp (h.present k r v hlive)) with rfl | hmem
    · exact absurd hlive (hstale r)
    · exact hmem
  issued j hj := h.issued j (hperm.mem_iff.mpr (List.mem_cons_of_mem _ hj))
  once := (List.nodup_cons.mp ((hperm.map Item.version).nodup_iff.mp h.once)).2

/-- The item of a key goes with the key. -/
theorem Tracks.take (h : Tracks live items counter) (hperm : items.Perm (i :: rest)) :
    Tracks (Function.update live i.key none) rest counter :=
  (h.remove i.key).drop hperm (fun r hlive => by
    rw [Function.update_self] at hlive
    cases hlive)

omit [DecidableEq κ] in
/-- **A greatest item** that counts is that of a key with the greatest rank. -/
theorem Tracks.greatest (le : ρ → ρ → Prop) (h : Tracks live items counter)
    (hgreatest : ∀ j ∈ items, le j.rank i.rank) {k : κ} {r : ρ} {v : Nat}
    (hlive : live k = some (r, v)) : le r i.rank :=
  hgreatest ⟨k, r, v⟩ (h.present k r v hlive)

omit [DecidableEq κ] in
/-- Without items no key is live. -/
theorem Tracks.eq_none (h : Tracks live [] counter) (k : κ) : live k = none := by
  cases hlive : live k with
  | none => rfl
  | some rv => exact absurd (h.present k rv.1 rv.2 hlive) List.not_mem_nil

end

end Ipfrs.Lib
