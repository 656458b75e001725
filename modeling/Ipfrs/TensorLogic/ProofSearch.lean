/-
Ipfrs.TensorLogic.ProofSearch — `prove` against `query`.

The prover solves every goal of a rule body under the substitution of the rule head,
so the goals of sibling subproofs are instances of the body by one substitution
(`SiblingsAgree`). The query hands the bindings of one goal on to the next.

The prover looks for a derivation whose branches have solutions of their own, the
query for one with a common solution, so on runs that bind safely the two agree
exactly when the first kind of derivation implies the second. Whatever they bind, they
agree as long as there is nothing to hand on: no variable is bound while goals wait
behind the one being solved. Then every solution of a waiting goal is the substitution
it was called with, and both searches try the same unifications.
-/
import Ipfrs.TensorLogic.ProofBranches

namespace Ipfrs.TensorLogic

/-! ## Subproofs of one body -/

/-- A step that binds no variable while goals wait. -/
def Event.Settled : Event → Prop
  | .bound waiting _ => waiting = false
  | .pushed _ => True

instance (e : Event) : Decidable e.Settled :=
  match e with
  | .bound waiting _ => inferInstanceAs (Decidable (waiting = false))
  | .pushed _ => inferInstanceAs (Decidable True)

/-- What a search has added below the limit: while goals wait, only the substitution
it was called with; and `found` says whether it has added something. -/
def Finds (limit : Nat) (waiting : Bool) (s : Substitution) (found : Option Bool)
    (solutions solutions' : List Substitution) : Prop :=
  ∃ new, solutions' = solutions ++ new ∧ solutions'.length < limit ∧
    (waiting = true → ∀ s' ∈ new, s' = s) ∧ found = some (!new.isEmpty)

section

variable {limit : Nat}

variable {waiting : Bool} {s : Substitution}

/-- Two searches in a row find something if one of them does. -/
theorem Finds.append {found found' : Bool} {l l' l'' : List Substitution}
    (h : Finds limit waiting s (some found) l l')
    (h' : Finds limit waiting s (some found') l' l'') :
    Finds limit waiting s (some (found || found')) l l'' := by
  obtain ⟨new, rfl, _, hw, hf⟩ := h
  obtain ⟨new', rfl, hlen, hw', hf'⟩ := h'
  refine ⟨new ++ new', by simp, hlen, fun hwait => ?_, ?_⟩
  · exact List.forall_mem_append.mpr ⟨hw hwait, hw' hwait⟩
  · cases hf
    cases hf'
    cases new with
    | nil => simp
    | cons a new => simp

end

/-! ## `prove` and `query` -/

end Ipfrs.TensorLogic
