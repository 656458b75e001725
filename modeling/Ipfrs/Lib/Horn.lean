/-
Ipfrs.Lib.Horn — relations along which a rank falls, and ground Horn programs.

A ranked relation has no cycle and no infinite descent. Edges from one point to
finitely many others can be added as long as none of these leads back to it
(`Ranked.extend`): everything that leads to the point is lifted above them.
-/
import Mathlib.Data.List.Basic
import Mathlib.Order.FixedPoints
import Mathlib.Order.CompletePartialOrder

namespace Ipfrs.Lib

variable {α : Type}

/-- A rank falls along every edge. -/
def Ranked (R : α → α → Prop) : Prop := ∃ rank : α → Nat, ∀ a b, R a b → rank b < rank a

/-- Numbers of a list have a common bound. -/
theorem exists_bound (f : α → Nat) : ∀ l : List α, ∃ n, ∀ a ∈ l, f a < n
  | [] => ⟨0, by simp⟩
  | a :: l => by
    obtain ⟨n, hn⟩ := exists_bound f l
    refine ⟨max (f a + 1) n, fun b hb => ?_⟩
    rcases List.mem_cons.mp hb with rfl | hb
    · omega
    · have := hn b hb
      omega

theorem Ranked.mono {R S : α → α → Prop} (h : Ranked S) (hsub : ∀ a b, R a b → S a b) :
    Ranked R := by
  obtain ⟨rank, hrank⟩ := h
  exact ⟨rank, fun a b hab => hrank a b (hsub a b hab)⟩

/-- New edges out of `v` to points that do not lead back to it. -/
theorem Ranked.extend {R : α → α → Prop} (h : Ranked R) (v : α) (targets : List α)
    (hfree : ∀ w ∈ targets, ¬ Relation.ReflTransGen R w v) :
    Ranked (fun a b => R a b ∨ (a = v ∧ b ∈ targets)) := by
  classical
  obtain ⟨rank, hrank⟩ := h
  obtain ⟨n, hn⟩ := exists_bound rank targets
  refine ⟨fun a => if Relation.ReflTransGen R a v then rank a + n else rank a, ?_⟩
  intro a b hab
  rcases hab with hab | ⟨rfl, hb⟩
  · have hlt := hrank a b hab
    by_cases hbv : Relation.ReflTransGen R b v
    · have hav : Relation.ReflTransGen R a v := hbv.head hab
      simp only [if_pos hav, if_pos hbv]
      omega
    · simp only [if_neg hbv]
      split
      · omega
      · omega
  · have hlt := hn b hb
    simp only [if_neg (hfree b hb), if_pos (Relation.ReflTransGen.refl (a := a) (r := R))]
    omega

end Ipfrs.Lib

/-! ## Ground Horn programs and their least model

A program is a set of clauses over arbitrary atoms. Its immediate-consequence
operator is monotone, so it has a least fixed point: the least set of atoms closed
under the clauses. `within n` is what derivations of height at most `n` reach, a
clause without a body being a derivation of height zero. -/

namespace Ipfrs.Lib.Horn

variable {α : Type}

/-- If all of `body` holds, `head` holds. -/
structure Clause (α : Type) where
  head : α
  body : List α

/-- Every clause whose body holds in `M` has its head in `M`. -/
def Closed (P : Set (Clause α)) (M : Set α) : Prop :=
  ∀ c ∈ P, (∀ b ∈ c.body, b ∈ M) → c.head ∈ M

/-- What the clauses derive from `M` in one step. -/
def consequences (P : Set (Clause α)) : Set α →o Set α where
  toFun M := {a | ∃ c ∈ P, c.head = a ∧ ∀ b ∈ c.body, b ∈ M}
  monotone' := by
    intro M N hMN a ha
    obtain ⟨c, hc, hhead, hbody⟩ := ha
    exact ⟨c, hc, hhead, fun b hb => hMN (hbody b hb)⟩

theorem mem_consequences {P : Set (Clause α)} {M : Set α} {a : α} :
    a ∈ consequences P M ↔ ∃ c ∈ P, c.head = a ∧ ∀ b ∈ c.body, b ∈ M := Iff.rfl

/-- The least model. -/
def leastModel (P : Set (Clause α)) : Set α := (consequences P).lfp

theorem closed_leastModel (P : Set (Clause α)) : Closed P (leastModel P) := by
  intro c hc hbody
  have hstep : consequences P (leastModel P) ≤ leastModel P :=
    (consequences P).map_lfp.le
  exact hstep ⟨c, hc, rfl, hbody⟩

/-- The least model lies in every closed set. -/
theorem leastModel_subset {P : Set (Clause α)} {M : Set α} (h : Closed P M) : leastModel P ⊆ M := by
  refine (consequences P).lfp_le ?_
  intro a ha
  obtain ⟨c, hc, rfl, hbody⟩ := ha
  exact h c hc hbody

/-- What derivations of height at most `n` reach. -/
def within (P : Set (Clause α)) (n : Nat) : Set α := (consequences P)^[n + 1] ∅

theorem mem_within_succ {P : Set (Clause α)} {n : Nat} {a : α} :
    a ∈ within P (n + 1) ↔ ∃ c ∈ P, c.head = a ∧ ∀ b ∈ c.body, b ∈ within P n := by
  have h : within P (n + 1) = consequences P (within P n) := Function.iterate_succ_apply' _ _ _
  rw [h, mem_consequences]

end Ipfrs.Lib.Horn
