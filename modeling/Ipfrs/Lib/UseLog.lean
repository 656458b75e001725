/-
Ipfrs.Lib.UseLog — recency kept as the length of a list.

A log has the uses of keys and the drops of keys, the latest first. A common way to stamp
a use is the length of a list that every use makes longer by one; if every drop makes it
shorter by one again, the stamp of a use is `level` of what came before. Stamps then order
two keys as their last uses do exactly if there are no more drops than uses between the two
(`stamp_lt_stamp_iff`).
-/
import Mathlib.Data.List.Basic

namespace Ipfrs.Lib

/-- What a log has. -/
inductive UseEvent (κ : Type) where
  | use (k : κ)
  | drop (k : κ)
  | clear
  deriving DecidableEq

namespace UseLog

variable {κ : Type}

def uses : List (UseEvent κ) → Nat
  | [] => 0
  | .use _ :: log => uses log + 1
  | _ :: log => uses log

def drops : List (UseEvent κ) → Nat
  | [] => 0
  | .drop _ :: log => drops log + 1
  | _ :: log => drops log

/-- The length of the list. -/
def level : List (UseEvent κ) → Int
  | [] => 0
  | .use _ :: log => level log + 1
  | .drop _ :: log => level log - 1
  | .clear :: _ => 0

theorem level_append : ∀ {mid : List (UseEvent κ)} (log : List (UseEvent κ)), .clear ∉ mid →
    level (mid ++ log) = level log + uses mid - drops mid
  | [], log, _ => by simp [uses, drops]
  | .use k :: mid, log, h | .drop k :: mid, log, h => by
    have ih : level (mid ++ log) = level log + uses mid - drops mid :=
      level_append log (fun hmem => h (List.mem_cons_of_mem _ hmem))
    simp only [List.cons_append, level, uses, drops]
    omega
  | .clear :: mid, log, h => absurd List.mem_cons_self h

variable [DecidableEq κ]

/-- How many events there are after the last use of the key. -/
def age (k : κ) : List (UseEvent κ) → Nat
  | [] => 0
  | ev :: log => if ev = .use k then 0 else age k log + 1

/-- The log before the last use of the key. -/
def before (k : κ) (log : List (UseEvent κ)) : List (UseEvent κ) := log.drop (age k log + 1)

/-- The stamp of the last use of the key. -/
def stamp (k : κ) (log : List (UseEvent κ)) : Int := level (before k log)

@[simp] theorem age_use (k : κ) (log : List (UseEvent κ)) : age k (.use k :: log) = 0 := by
  simp [age]

theorem age_cons_of_ne {k : κ} {ev : UseEvent κ} (h : ev ≠ .use k) (log : List (UseEvent κ)) :
    age k (ev :: log) = age k log + 1 := by
  simp [age, h]

@[simp] theorem stamp_use (k : κ) (log : List (UseEvent κ)) :
    stamp k (.use k :: log) = level log := by
  simp [stamp, before]

theorem stamp_cons_of_ne {k : κ} {ev : UseEvent κ} (h : ev ≠ .use k) (log : List (UseEvent κ)) :
    stamp k (ev :: log) = stamp k log := by
  simp [stamp, before, age_cons_of_ne h]

/-- The key was used, and nothing was cleared since. -/
def Live (k : κ) (log : List (UseEvent κ)) : Prop :=
  .use k ∈ log ∧ .clear ∉ log.take (age k log)

theorem live_use (k : κ) (log : List (UseEvent κ)) : Live k (.use k :: log) := by
  simp [Live]

theorem Live.cons {k : κ} {log : List (UseEvent κ)} (h : Live k log) {ev : UseEvent κ}
    (hclear : ev ≠ .clear) : Live k (ev :: log) := by
  by_cases hev : ev = .use k
  · rw [hev]
    exact live_use k log
  · refine ⟨List.mem_cons_of_mem _ h.1, ?_⟩
    rw [age_cons_of_ne hev, List.take_succ_cons, List.mem_cons, not_or]
    exact ⟨hclear.symm, h.2⟩

/-- The event at the age of a used key is its use. -/
theorem drop_age {k : κ} : ∀ {log : List (UseEvent κ)}, .use k ∈ log →
    log.drop (age k log) = .use k :: before k log
  | ev :: log, h => by
    by_cases hev : ev = .use k
    · subst hev
      simp [before]
    · have hmem : .use k ∈ log := by
        rcases List.mem_cons.mp h with heq | hmem
        · exact absurd heq.symm hev
        · exact hmem
      simp only [before, age_cons_of_ne hev, List.drop_succ_cons]
      exact drop_age hmem

/-- Keys of one age are one key. -/
theorem eq_of_age_eq {k k' : κ} {log : List (UseEvent κ)} (hk : .use k ∈ log)
    (hk' : .use k' ∈ log) (h : age k log = age k' log) : k = k' := by
  have hdrop := drop_age hk
  rw [h, drop_age hk'] at hdrop
  exact UseEvent.use.inj (List.cons.inj hdrop).1.symm

/-- The events after the last use of `k` and before the last use of `k'`. -/
def between (k k' : κ) (log : List (UseEvent κ)) : List (UseEvent κ) :=
  (before k' log).take (age k log - age k' log - 1)

/-- **The stamps follow the uses** exactly if there are no more drops than uses between
them. -/
theorem stamp_lt_stamp_iff {k k' : κ} {log : List (UseEvent κ)} (hk : Live k log)
    (hlt : age k' log < age k log) :
    stamp k log < stamp k' log ↔ drops (between k k' log) ≤ uses (between k k' log) := by
  have hsplit : before k' log = between k k' log ++ .use k :: before k log := by
    rw [← drop_age hk.1, between, before]
    have hage : age k log = age k' log + 1 + (age k log - age k' log - 1) := by omega
    conv_lhs => rw [← List.take_append_drop (age k log - age k' log - 1)
      (log.drop (age k' log + 1))]
    rw [List.drop_drop, ← hage]
  have hclear : .clear ∉ between k k' log := by
    intro hmem
    refine hk.2 ?_
    have htake : between k k' log = (log.take (age k log)).drop (age k' log + 1) := by
      rw [between, before, List.drop_take, Nat.sub_sub]
    rw [htake] at hmem
    exact List.mem_of_mem_drop hmem
  rw [stamp, stamp, hsplit, level_append _ hclear, level]
  omega

end UseLog

end Ipfrs.Lib
