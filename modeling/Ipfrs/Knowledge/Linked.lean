/-
Ipfrs.Knowledge.Linked — the relations of a graph point at entities it knows.

`add_relation` stores the CID of the object's node as it is at that time. The entity
may get a new node later, and then the relation still points at the old one. What
stays is that the block under the CID is the node of an entity whose id is in the
index. `Linked` says so of a model and the blocks that hold it, one call keeps it
(`Linked.apply`), and so does every session.
-/
import Ipfrs.Knowledge.Session

namespace Ipfrs.Knowledge

open Ipfrs.Core Ipfrs.Lib
open BlockStore.Faithful (history)
open KnowledgeGraph

section

variable [CidCrate] [RustText]

/-- The blocks hold the model, and every object is the node of a known entity. -/
structure Linked (h : List Block) (index edges : Cid) (a : GraphModel) : Prop where
  refines : Refines h index edges a
  object : ∀ id, ∀ r ∈ a.relations id, ∃ spec, entityBlock spec ∈ h ∧
    r.object = (entityBlock spec).cid ∧ (a.entities (.of spec.kind spec.name)).isSome

theorem Linked.mono {h h' : List Block} (hsub : ∀ b ∈ h, b ∈ h') {index edges : Cid}
    {a : GraphModel} (hl : Linked h index edges a) : Linked h' index edges a where
  refines := hl.refines.mono hsub
  object id r hr := by
    obtain ⟨spec, hb, hcid, hknown⟩ := hl.object id r hr
    exact ⟨spec, hsub _ hb, hcid, hknown⟩

omit [CidCrate] in
theorem isSome_setEntity {a : GraphModel} {id : EntityId} (spec : EntitySpec)
    (h : (a.entities id).isSome) : ((a.setEntity spec).entities id).isSome := by
  by_cases hid : id = EntityId.of spec.kind spec.name
  · subst hid
    simp [GraphModel.setEntity]
  · simpa [GraphModel.setEntity, hid] using h

variable {S : Type} [BlockStore S] [BlockStore.Faithful S] [CidCrate.Lawful]
  {kg : KnowledgeGraph S} {a : GraphModel}

omit [BlockStore S] [BlockStore.Faithful S] [CidCrate.Lawful] in
/-- The node an entity has now is that of a known entity. -/
theorem exists_of_indexMap {h : List Block} {index edges : Cid} (hr : Refines h index edges a)
    {object : EntityId} {objCid : Cid} (hobj : a.indexMap object = some objCid) :
    ∃ spec, entityBlock spec ∈ h ∧ objCid = (entityBlock spec).cid ∧
      (a.entities (.of spec.kind spec.name)).isSome := by
  obtain ⟨spec, hspec, hcid⟩ := Option.map_eq_some_iff.mp hobj
  refine ⟨spec, hr.entity object spec hspec, hcid.symm, ?_⟩
  rw [a.keyed object spec hspec, hspec]
  rfl

/-- **One call** keeps the objects known. -/
theorem Linked.apply (hl : Linked kg.log kg.index kg.edges a) (op : Op)
    (hs : Sound (op.apply kg).log) :
    ∃ a', Linked (op.apply kg).log (op.apply kg).index (op.apply kg).edges a' := by
  obtain ⟨a', heffect, hr⟩ := apply_effect op hs hl.refines
  have hl' := hl.mono (log_subset_apply op kg)
  cases heffect with
  | same _ _ => exact ⟨a, hr, hl'.object⟩
  | entity spec _ _ =>
    refine ⟨_, hr, ?_⟩
    intro id r hr'
    obtain ⟨spec', hb, hcid, hknown⟩ := hl'.object id r hr'
    exact ⟨spec', hb, hcid, isSome_setEntity spec hknown⟩
  | relation subject predicate object weight r₀ _ _ =>
    have hfinal : Op.apply (.addRelation subject predicate object weight r₀.evidence) kg
        = finalState (addRelation subject predicate object weight r₀.evidence kg) :=
      finalState_bind_pure _ _ _
    rw [hfinal] at hs hl' ⊢
    have htriple := addRelation_triple hs hl.refines subject predicate object weight
      r₀.evidence (fun _ hb => hb)
    cases hrun : addRelation subject predicate object weight r₀.evidence kg with
    | error e kg' =>
      rw [hrun] at htriple
      obtain rfl : kg' = kg := htriple
      exact ⟨a, hl⟩
    | ok cid kg' =>
      rw [hrun] at htriple hl'
      obtain ⟨subjCid, objCid, hk, hobj, hr', -, hsub⟩ := htriple
      refine ⟨_, hr', ?_⟩
      intro id r hr₁
      by_cases hid : id = subject
      · subst hid
        simp only [GraphModel.addRelation, Function.update_self, List.mem_append,
          List.mem_singleton] at hr₁
        rcases hr₁ with hr₁ | rfl
        · exact hl'.object id r hr₁
        · obtain ⟨spec, hb, hcid, hknown⟩ := exists_of_indexMap hl.refines hobj
          exact ⟨spec, hsub _ hb, hcid, hknown⟩
      · simp only [GraphModel.addRelation, Function.update_of_ne hid] at hr₁
        exact hl'.object id r hr₁

/-! ## Sessions -/

/-- Whether every reopened head is one that the session has committed. -/
def Session.opensOwn (s : Session S) : List Step → Bool
  | [] => true
  | .call op :: steps => (s.step (.call op)).opensOwn steps
  | .reopen head :: steps =>
    decide (head ∈ s.heads) && (s.step (.reopen head)).opensOwn steps

/-- The graph is linked, and so is the graph of every head. -/
structure Session.LinkedInv (s : Session S) : Prop where
  graph : ∃ a, Linked s.graph.log s.graph.index s.graph.edges a
  dim : s.graph.vindex.dim = defaultDim
  heads : ∀ head ∈ s.heads, ∃ index edges ix a, Committed s.graph.log head index edges ix ∧
    ix.dim = defaultDim ∧ Linked s.graph.log index edges a

theorem Session.LinkedInv.call {s : Session S} (h : s.LinkedInv) {op : Op}
    (hs : Sound (op.apply s.graph).log) : (s.step (.call op)).LinkedInv := by
  have hsub := log_subset_apply op s.graph
  obtain ⟨a, hl⟩ := h.graph
  obtain ⟨a', heffect, -⟩ := apply_effect op hs hl.refines
  refine ⟨hl.apply op hs, heffect.dim_eq.trans h.dim, ?_⟩
  intro head hhead
  rcases List.mem_append.mp hhead with hnew | hold
  · exact ⟨_, _, _, a, committed_of_issued hnew, h.dim, hl.mono hsub⟩
  · obtain ⟨index, edges, ix, a₁, hc, hdim, hl₁⟩ := h.heads head hold
    exact ⟨index, edges, ix, a₁, hc.mono hsub, hdim, hl₁.mono hsub⟩

theorem Session.LinkedInv.reopen {s : Session S} (h : s.LinkedInv) {head : Cid}
    (hs : Sound s.graph.log) (hhead : head ∈ s.heads) : (s.step (.reopen head)).LinkedInv := by
  obtain ⟨index, edges, ix, a, hc, hdim, hl⟩ := h.heads head hhead
  have hdimOk : ix.DimOk := by
    rw [VectorIndex.DimOk, hdim]
    decide
  have hopen := openHead_of_committed hs hdimOk hc
  simp only [Session.step, hopen]
  exact ⟨⟨a, hl⟩, hdim, h.heads⟩

/-- **Every session** keeps the objects known. -/
theorem Session.LinkedInv.run (steps : List Step) : ∀ {s : Session S}, s.LinkedInv →
    Sound (s.run steps).graph.log → s.opensOwn steps → (s.run steps).LinkedInv := by
  induction steps with
  | nil =>
    intro s h _ _
    exact h
  | cons step steps ih =>
    intro s h hs hown
    have hs' : Sound (s.step step).graph.log := hs.mono (Session.log_subset_run steps _)
    cases step with
    | call op => exact ih (h.call hs') hs hown
    | reopen head =>
      obtain ⟨hhead, hrest⟩ := Bool.and_eq_true_iff.mp hown
      have hs₀ := hs'.mono (s.log_subset_step (.reopen head))
      exact ih (h.reopen hs₀ (of_decide_eq_true hhead)) hs hrest

omit [CidCrate.Lawful] in
theorem Session.linkedInv_new {s₀ : S} {kg : KnowledgeGraph S} (h : new s₀ = .ok kg) :
    Session.LinkedInv { graph := kg } := by
  obtain ⟨kg', hnew, hvindex, hr⟩ := new_spec s₀
  obtain rfl : kg = kg' := Except.ok.inj (h.symm.trans hnew)
  refine ⟨⟨GraphModel.empty, hr, ?_⟩, by rw [hvindex]; rfl, ?_⟩
  · intro id r hr'
    cases hr'
  · intro head hhead
    cases hhead

end

end Ipfrs.Knowledge
