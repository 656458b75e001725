/-
Ipfrs.Lib.Kripke — what agents know, over accessibility relations.

A proposition is a set of worlds. `box R` is what holds wherever a relation leads to, which is
what an agent knows. A proposition is common knowledge where it holds and goes on holding
however the relations of the agents lead on; that is the greatest proposition that implies it
and that every agent knows where it holds (`common_greatest`). The axioms of knowledge say what
a relation is like (`box_subset_iff` and the three after it).
-/
import Mathlib.Data.Set.Basic

namespace Ipfrs.Lib.Kripke

variable {W A : Type}

def box (R : W → W → Prop) (S : Set W) : Set W := {w | ∀ v, R w v → v ∈ S}

def dia (R : W → W → Prop) (S : Set W) : Set W := {w | ∃ v, R w v ∧ v ∈ S}

/-- What each of some agents knows. -/
def everyone (agents : Set A) (R : A → W → W → Prop) (S : Set W) : Set W :=
  {w | ∀ a ∈ agents, w ∈ box (R a) S}

def common (agents : Set A) (R : A → W → W → Prop) (S : Set W) : Set W :=
  {w | ∀ v, Relation.ReflTransGen (fun u v => ∃ a ∈ agents, R a u v) w v → v ∈ S}

section Common

variable {agents : Set A} {R : A → W → W → Prop} {S X : Set W}

theorem common_subset : common agents R S ⊆ S := fun w hw => hw w .refl

theorem common_subset_everyone : common agents R S ⊆ everyone agents R (common agents R S) :=
  fun _ hw a ha _ hv _ hpath => hw _ (.head ⟨a, ha, hv⟩ hpath)

theorem common_greatest (hS : X ⊆ S) (hX : X ⊆ everyone agents R X) : X ⊆ common agents R S := by
  intro w hw v hpath
  refine hS ?_
  induction hpath with
  | refl => exact hw
  | tail _ hstep ih =>
    obtain ⟨a, ha, hstep⟩ := hstep
    exact hX ih a ha _ hstep

/-- A round towards common knowledge stays above it; where nothing changes, it is reached. -/
theorem eq_common_of_fixed (hS : X ⊆ S) (hle : common agents R S ⊆ X)
    (hX : X ∩ everyone agents R X = X) : X = common agents R S :=
  Set.Subset.antisymm (common_greatest hS (Set.inter_eq_left.mp hX)) hle

theorem common_subset_round (hle : common agents R S ⊆ X) :
    common agents R S ⊆ X ∩ everyone agents R X :=
  fun _ hw => ⟨hle hw, fun a ha _ hv => hle (common_subset_everyone hw a ha _ hv)⟩

/-- What holds of the worlds that relations never leave adds nothing to common knowledge. -/
theorem common_inter {D : Set W} (hD : ∀ u v, u ∈ D → (∃ a ∈ agents, R a u v) → v ∈ D) :
    common agents R (D ∩ S) = D ∩ common agents R S := by
  ext w
  constructor
  · exact fun hw => ⟨(common_subset hw).1, fun v hpath => (hw v hpath).2⟩
  · rintro ⟨hw, hS⟩ v hpath
    refine ⟨?_, hS v hpath⟩
    clear hS
    induction hpath with
    | refl => exact hw
    | tail _ hstep ih => exact hD _ _ ih hstep

theorem common_congr {agents' : Set A}
    (h : ∀ u v, (∃ a ∈ agents, R a u v) ↔ ∃ a ∈ agents', R a u v) :
    common agents R S = common agents' R S := by
  simp only [common, h]

end Common

/-! ## Axioms and relations -/

section Axioms

variable {R : W → W → Prop}

/-- T: what is known is so. -/
theorem box_subset_iff {D : Set W} : (∀ S, D ∩ box R S ⊆ S) ↔ ∀ w ∈ D, R w w :=
  ⟨fun h w hw => h {v | R w v} ⟨hw, fun _ hv => hv⟩, fun h _ w hw => hw.2 w (h w hw.1)⟩

/-- 4: what is known is known to be known. -/
theorem box_box_iff : (∀ S, box R S ⊆ box R (box R S)) ↔ ∀ u v w, R u v → R v w → R u w :=
  ⟨fun h u v w huv hvw => h {x | R u x} (fun _ hx => hx) v huv w hvw,
    fun h _ u hu v huv w hvw => hu w (h u v w huv hvw)⟩

/-- 5: what is not known is known not to be known. -/
theorem compl_box_iff : (∀ S, (box R S)ᶜ ⊆ box R (box R S)ᶜ) ↔ ∀ u v w, R u v → R u w → R v w := by
  constructor
  · intro h u v w huv huw
    by_contra hno
    have hu : u ∈ (box R {w}ᶜ)ᶜ := fun hbox => hbox w huw rfl
    refine h _ hu v huv fun x hx => ?_
    rintro rfl
    exact hno hx
  · intro h S u hu v huv hv
    exact hu fun w huw => hv w (h u v w huv huw)

/-- B: what is so is known to be possible. -/
theorem subset_box_dia_iff : (∀ S, S ⊆ box R (dia R S)) ↔ ∀ u v, R u v → R v u := by
  constructor
  · intro h u v huv
    obtain ⟨w, hw, rfl⟩ := h {u} rfl v huv
    exact hw
  · exact fun h _ u hu v huv => ⟨u, h u v huv, hu⟩

end Axioms

end Ipfrs.Lib.Kripke
