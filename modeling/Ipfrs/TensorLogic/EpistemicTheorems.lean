/-
Ipfrs.TensorLogic.EpistemicTheorems — what the epistemic reasoner answers.

`Holds` is the meaning of a formula: the worlds where it is true. In a reasoner that calls of
its own have built, an evaluation answers that meaning, and the bound on the search is met only
by a model of more worlds (`evaluate_exact`). The fixed point that `common_knowledge_worlds`
iterates towards is the common knowledge of the agents that are registered, while `C` follows
every edge.
-/
import Ipfrs.Lib.Worklist
import Ipfrs.TensorLogic.EpistemicLogic

namespace Ipfrs.TensorLogic.Epistemic

open Lib.Kripke

namespace Reasoner

/-- The worlds that an agent cannot tell from another. -/
def Accessible (r : Reasoner) (agent : AgentId) (u v : WorldId) : Prop :=
  ⟨agent, u, v⟩ ∈ r.model.relations

def Holds (r : Reasoner) : EpistemicFormula → Set WorldId
  | .atom name => {w | ∃ p ∈ r.model.worlds, p.id = w ∧ name ∈ p.trueProps}
  | .not inner => (Holds r inner)ᶜ
  | .and lhs rhs => Holds r lhs ∩ Holds r rhs
  | .or lhs rhs => Holds r lhs ∪ Holds r rhs
  | .knows agent phi => box (r.Accessible agent) (Holds r phi)
  | .possible agent phi => dia (r.Accessible agent) (Holds r phi)
  | .everyoneKnows phi => everyone {a | a ∈ r.agents} r.Accessible (Holds r phi)
  | .commonKnowledge phi => common Set.univ r.Accessible (Holds r phi)

theorem mem_worldsAccessibleFrom {r : Reasoner} {agent : AgentId} {u v : WorldId} :
    v ∈ r.model.worldsAccessibleFrom agent u ↔ r.Accessible agent u v := by
  simp only [KripkeModel.worldsAccessibleFrom, List.mem_map, List.mem_filter, decide_eq_true_eq]
  constructor
  · rintro ⟨rel, ⟨hrel, rfl, rfl⟩, rfl⟩
    exact hrel
  · intro h
    exact ⟨_, ⟨h, rfl, rfl⟩, rfl⟩

/-! ## Reasoners that calls have built -/

inductive Op
  | addWorld (props : Finset String)
  | setActualWorld (world : WorldId)
  | addAgent (agent : AgentId)
  | addAccessibility (rel : AccessibilityRelation)
  | makeReflexive
  | makeTransitive

/-- A call that fails leaves the reasoner as it is. -/
def perform (r : Reasoner) : Op → Reasoner
  | .addWorld props => r.addWorld props
  | .setActualWorld world => (r.setActualWorld world).toOption.getD r
  | .addAgent agent => r.addAgent agent
  | .addAccessibility rel => (r.addAccessibility rel).toOption.getD r
  | .makeReflexive => r.makeReflexive
  | .makeTransitive => r.makeTransitive

/-- `new`, and calls on it. -/
inductive Built : Reasoner → Prop
  | new (maxDepth : Nat) : Built { maxDepth }
  | call {r : Reasoner} (op : Op) (h : Built r) : Built (r.perform op)

/-- Ids are given once, and edges are between worlds of the model. -/
structure WellFormed (r : Reasoner) : Prop where
  lt_next : ∀ w ∈ r.model.worldIds, w < r.nextWorldId
  nodup : r.model.worldIds.Nodup
  ends : ∀ rel ∈ r.model.relations, rel.from_ ∈ r.model.worldIds ∧ rel.to_ ∈ r.model.worldIds

theorem WellFormed.withRelations {r : Reasoner} (h : WellFormed r)
    {relations : List AccessibilityRelation}
    (hends : ∀ rel ∈ relations, rel.from_ ∈ r.model.worldIds ∧ rel.to_ ∈ r.model.worldIds) :
    WellFormed (r.withRelations relations) := ⟨h.lt_next, h.nodup, hends⟩

theorem WellFormed.addWorld {r : Reasoner} (h : WellFormed r) (props : Finset String) :
    WellFormed (r.addWorld props) := by
  have hids : (r.addWorld props).model.worldIds = r.model.worldIds ++ [r.nextWorldId] := by
    simp [Reasoner.addWorld, KripkeModel.worldIds]
  have hnew : r.nextWorldId ∉ r.model.worldIds := fun hmem =>
    Nat.lt_irrefl _ (h.lt_next _ hmem)
  constructor
  · intro w hw
    rw [hids, List.mem_append, List.mem_singleton] at hw
    rcases hw with hw | rfl
    · exact Nat.lt_succ_of_lt (h.lt_next w hw)
    · exact Nat.lt_succ_self _
  · rw [hids, List.nodup_append]
    refine ⟨h.nodup, by simp, fun a ha b hb heq => hnew ?_⟩
    rwa [← List.mem_singleton.mp hb, ← heq]
  · intro rel hrel
    rw [hids]
    have := h.ends rel hrel
    simp [this]

theorem mem_foldl_pushRelation {x : AccessibilityRelation} (rels : List AccessibilityRelation) :
    ∀ relations, x ∈ rels.foldl pushRelation relations ↔ x ∈ relations ∨ x ∈ rels := by
  induction rels with
  | nil => simp
  | cons rel rels ih =>
    intro relations
    rw [List.foldl_cons, ih, mem_pushRelation, List.mem_cons, or_assoc]

/-! ## The transitive closure -/

theorem transitiveLoop_spec (relations : List AccessibilityRelation) (a : AgentId)
    (u v : WorldId) : ⟨a, u, v⟩ ∈ transitiveLoop relations
      ↔ Relation.TransGen (fun u v => (⟨a, u, v⟩ : AccessibilityRelation) ∈ relations) u v := by
  induction relations using transitiveLoop.induct with
  | case1 relations hclosed =>
    -- no two steps lack their edge
    rw [transitiveLoop, dif_pos hclosed]
    refine ⟨fun hstep => .single hstep, fun hpath => ?_⟩
    induction hpath with
    | single hstep => exact hstep
    | tail _ hstep ih =>
      by_contra hno
      have hmem := mem_newEdges.mpr ⟨hno, _, ih, hstep⟩
      rw [hclosed] at hmem
      cases hmem
  | case2 relations hopen ih =>
    rw [transitiveLoop, dif_neg hopen, ih]
    constructor
    · intro hpath
      refine Relation.TransGen.trans_induction_on hpath (fun {u v} hstep => ?_)
        fun _ _ h1 h2 => h1.trans h2
      rcases List.mem_append.mp hstep with hstep | hstep
      · exact .single hstep
      · obtain ⟨-, w, h1, h2⟩ := mem_newEdges.mp hstep
        exact .tail (.single h1) h2
    · intro hpath
      exact Relation.TransGen.mono (fun _ _ hstep => List.mem_append_left _ hstep) _ _ hpath

theorem WellFormed.makeTransitive {r : Reasoner} (h : WellFormed r) :
    WellFormed r.makeTransitive := by
  refine h.withRelations fun rel hrel => ?_
  have hpath := (transitiveLoop_spec r.model.relations rel.agent rel.from_ rel.to_).mp hrel
  constructor
  · obtain ⟨_, hstep, -⟩ := Relation.TransGen.head'_iff.mp hpath
    exact (h.ends _ hstep).1
  · obtain ⟨_, -, hstep⟩ := Relation.TransGen.tail'_iff.mp hpath
    exact (h.ends _ hstep).2

theorem WellFormed.perform {r : Reasoner} (h : WellFormed r) (op : Op) :
    WellFormed (r.perform op) := by
  cases op with
  | addWorld props => exact h.addWorld props
  | setActualWorld world =>
    rw [Reasoner.perform, setActualWorld]
    split
    · exact h
    · exact ⟨h.lt_next, h.nodup, h.ends⟩
  | addAgent agent =>
    rw [Reasoner.perform, addAgent]
    split
    · exact h
    · exact ⟨h.lt_next, h.nodup, h.ends⟩
  | addAccessibility rel =>
    rw [Reasoner.perform, addAccessibility]
    split
    · exact h
    split
    · exact h
    next hfrom hto =>
      refine h.withRelations fun x hx => ?_
      rcases mem_pushRelation.mp hx with hx | rfl
      · exact h.ends x hx
      · exact ⟨not_not.mp hfrom, not_not.mp hto⟩
  | makeReflexive =>
    refine h.withRelations fun x hx => ?_
    rcases (mem_foldl_pushRelation _ _).mp hx with hx | hx
    · exact h.ends x hx
    · simp only [List.mem_flatMap, List.mem_map] at hx
      obtain ⟨a, -, w, hw, rfl⟩ := hx
      exact ⟨hw, hw⟩
  | makeTransitive => exact h.makeTransitive

theorem Built.wellFormed {r : Reasoner} (h : Built r) : WellFormed r := by
  induction h with
  | new maxDepth => exact ⟨nofun, List.nodup_nil, nofun⟩
  | call op _ ih => exact ih.perform op

/-! ## Axioms -/

theorem satisfiesTAxiom_iff (r : Reasoner) (a : AgentId) : r.satisfiesTAxiom a = true
    ↔ ∀ w ∈ {w | w ∈ r.model.worldIds}, r.Accessible a w w := by
  simp [satisfiesTAxiom, mem_worldsAccessibleFrom]

theorem closedUnder_iff (r : Reasoner) (a : AgentId) (meet : AccessibilityRelation →
    AccessibilityRelation → Bool) (third : AccessibilityRelation → AccessibilityRelation →
    AccessibilityRelation) : r.closedUnder a meet third = true
      ↔ ∀ u v u' v', r.Accessible a u v → r.Accessible a u' v' → meet ⟨a, u, v⟩ ⟨a, u', v'⟩ →
        third ⟨a, u, v⟩ ⟨a, u', v'⟩ ∈ r.model.relations := by
  simp only [closedUnder, List.all_eq_true, List.mem_filter, decide_eq_true_eq, Bool.or_eq_true,
    Bool.not_eq_true', Accessible]
  constructor
  · intro h u v u' v' h1 h2 hmeet
    exact (h _ ⟨h1, rfl⟩ _ ⟨h2, rfl⟩).resolve_left (by simp [hmeet])
  · rintro h ⟨b, u, v⟩ ⟨h1, hb⟩ ⟨b', u', v'⟩ ⟨h2, hb'⟩
    dsimp only at hb hb'
    subst hb hb'
    by_cases hmeet : meet ⟨b', u, v⟩ ⟨b', u', v'⟩ = true
    · exact .inr (h u v u' v' h1 h2 hmeet)
    · exact .inl (by simpa using hmeet)

theorem satisfies4Axiom_iff (r : Reasoner) (a : AgentId) : r.satisfies4Axiom a = true
    ↔ ∀ u v w, r.Accessible a u v → r.Accessible a v w → r.Accessible a u w := by
  rw [satisfies4Axiom, closedUnder_iff]
  constructor
  · exact fun h u v w h1 h2 => h u v v w h1 h2 (by simp)
  · intro h u v u' v' h1 h2 hmeet
    obtain rfl : u' = v := by simpa using hmeet
    exact h u u' v' h1 h2

theorem satisfies5Axiom_iff (r : Reasoner) (a : AgentId) : r.satisfies5Axiom a = true
    ↔ ∀ u v w, r.Accessible a u v → r.Accessible a u w → r.Accessible a v w := by
  rw [satisfies5Axiom, closedUnder_iff]
  constructor
  · exact fun h u v w h1 h2 => h u v u w h1 h2 (by simp)
  · intro h u v u' v' h1 h2 hmeet
    obtain rfl : u = u' := by simpa using hmeet
    exact h u v v' h1 h2

theorem satisfiesBAxiom_iff (r : Reasoner) (a : AgentId) : r.satisfiesBAxiom a = true
    ↔ ∀ u v, r.Accessible a u v → r.Accessible a v u := by
  simp only [satisfiesBAxiom, List.all_eq_true, Bool.or_eq_true, decide_eq_true_eq, Accessible]
  constructor
  · intro h u v huv
    exact (h _ huv).resolve_left (by simp)
  · rintro h ⟨b, u, v⟩ hrel
    by_cases hb : b = a
    · subst hb
      exact .inr (h u v hrel)
    · exact .inl hb

/-- **The checks of relations are the axioms**: each accepts an agent exactly if the axiom holds
of what the agent knows, whatever the proposition. T is asked of the worlds of the model. -/
theorem axioms_exact (r : Reasoner) (a : AgentId) : (r.satisfiesTAxiom a = true
        ↔ ∀ S, {w | w ∈ r.model.worldIds} ∩ box (r.Accessible a) S ⊆ S)
      ∧ (r.satisfies4Axiom a = true
        ↔ ∀ S, box (r.Accessible a) S ⊆ box (r.Accessible a) (box (r.Accessible a) S))
      ∧ (r.satisfies5Axiom a = true
        ↔ ∀ S, (box (r.Accessible a) S)ᶜ ⊆ box (r.Accessible a) (box (r.Accessible a) S)ᶜ)
      ∧ (r.satisfiesBAxiom a = true ↔ ∀ S, S ⊆ box (r.Accessible a) (dia (r.Accessible a) S)) :=
  ⟨(r.satisfiesTAxiom_iff a).trans box_subset_iff.symm,
    (r.satisfies4Axiom_iff a).trans box_box_iff.symm,
    (r.satisfies5Axiom_iff a).trans compl_box_iff.symm,
    (r.satisfiesBAxiom_iff a).trans subset_box_dia_iff.symm⟩

/-- **The transitive closure is one**, agent by agent; it passes the check, and nothing else
changes. -/
theorem makeTransitive_exact (r : Reasoner) (a : AgentId) :
    (∀ u v, r.makeTransitive.Accessible a u v ↔ Relation.TransGen (r.Accessible a) u v)
      ∧ r.makeTransitive.satisfies4Axiom a = true
      ∧ r.makeTransitive.model.worlds = r.model.worlds ∧ r.makeTransitive.agents = r.agents := by
  have hclosure : ∀ u v, r.makeTransitive.Accessible a u v
      ↔ Relation.TransGen (r.Accessible a) u v := transitiveLoop_spec r.model.relations a
  refine ⟨hclosure, (satisfies4Axiom_iff _ a).mpr fun u v w huv hvw => ?_, rfl, rfl⟩
  rw [hclosure] at huv hvw ⊢
  exact huv.trans hvw

/-! ## The search for all worlds -/

def successors (r : Reasoner) (u : WorldId) : List WorldId :=
  (r.model.relations.filter fun rel => rel.from_ = u).map AccessibilityRelation.to_

theorem mem_successors {r : Reasoner} {u v : WorldId} :
    v ∈ r.successors u ↔ ∃ a ∈ Set.univ, r.Accessible a u v := by
  simp only [successors, List.mem_map, List.mem_filter, decide_eq_true_eq]
  constructor
  · rintro ⟨rel, ⟨hrel, rfl⟩, rfl⟩
    exact ⟨rel.agent, trivial, hrel⟩
  · rintro ⟨a, -, h⟩
    exact ⟨_, ⟨h, rfl⟩, rfl⟩

/-- The loop visits and queues the successors that are new. -/
theorem expand_spec (current : WorldId) (depth : Nat) (relations : List AccessibilityRelation) :
    ∀ s : List WorldId × List (WorldId × Nat), ∃ new,
      expand relations current depth s = (s.1 ++ new, s.2 ++ new.map fun w => (w, depth + 1))
        ∧ (s.1.Nodup → (s.1 ++ new).Nodup)
        ∧ (∀ w ∈ new, ∃ rel ∈ relations, rel.from_ = current ∧ rel.to_ = w)
        ∧ ∀ rel ∈ relations, rel.from_ = current → rel.to_ ∈ s.1 ++ new := by
  induction relations with
  | nil => exact fun s => ⟨[], by simp [expand]⟩
  | cons rel relations ih =>
    intro s
    rw [expand, List.foldl_cons, discover]
    by_cases hnew : rel.from_ = current ∧ rel.to_ ∉ s.1
    · rw [if_pos hnew]
      obtain ⟨new, heq, hnodup, hsound, hall⟩ :=
        ih (s.1 ++ [rel.to_], s.2 ++ [(rel.to_, depth + 1)])
      refine ⟨rel.to_ :: new, by simpa [expand] using heq, fun h => ?_, ?_, ?_⟩
      · rw [List.append_cons]
        refine hnodup ?_
        rw [List.nodup_append]
        exact ⟨h, by simp, fun a ha b hb heq => hnew.2 (by simp_all)⟩
      · intro w hw
        rcases List.mem_cons.mp hw with rfl | hw
        · exact ⟨rel, by simp, hnew.1, rfl⟩
        · obtain ⟨x, hx, hw⟩ := hsound w hw
          exact ⟨x, by simp [hx], hw⟩
      · intro x hx hfrom
        rcases List.mem_cons.mp hx with rfl | hx
        · simp
        · simpa using hall x hx hfrom
    · rw [if_neg hnew]
      obtain ⟨new, heq, hnodup, hsound, hall⟩ := ih s
      refine ⟨new, heq, hnodup, fun w hw => ?_, fun x hx hfrom => ?_⟩
      · obtain ⟨x, hx, hw⟩ := hsound w hw
        exact ⟨x, by simp [hx], hw⟩
      · rcases List.mem_cons.mp hx with rfl | hx
        · have hold : x.to_ ∈ s.1 := by simpa [hfrom] using hnew
          simp [hold]
        · exact hall x hx hfrom

/-- Between two rounds of the search: what is visited was expanded or is in the queue, and a
world of the queue was found no deeper than others were visited before it. -/
structure Searching (r : Reasoner) (start : WorldId) (visited : List WorldId)
    (queue : List (WorldId × Nat)) : Prop where
  exact_ : ∃ seen, Lib.Worklist.Inv r.successors [start] seen (queue.map Prod.fst)
    ∧ ∀ w, w ∈ visited ↔ w ∈ seen ∨ w ∈ queue.map Prod.fst
  nodup : visited.Nodup
  depth_lt : ∀ e ∈ queue, e.2 < visited.length

theorem Searching.init (r : Reasoner) (start : WorldId) :
    Searching r start [start] [(start, 0)] where
  exact_ := ⟨[], .init (by simp), by simp⟩
  nodup := by simp
  depth_lt := by simp

variable {start w : WorldId} {tooDeep : Prop}

theorem Searching.step {r : Reasoner} {current : WorldId} {visited : List WorldId} {depth : Nat}
    {rest : List (WorldId × Nat)} (h : Searching r start visited ((current, depth) :: rest)) :
    Searching r start (expand r.model.relations current depth (visited, rest)).1
      (expand r.model.relations current depth (visited, rest)).2 := by
  obtain ⟨new, heq, hnodup, hsound, hall⟩ :=
    expand_spec current depth r.model.relations (visited, rest)
  obtain ⟨seen, hinv, hvisited⟩ := h.exact_
  have hfst : (rest ++ new.map fun w => (w, depth + 1)).map Prod.fst
      = rest.map Prod.fst ++ new := by
    simp [Function.comp_def]
  have hmem : ∀ w, w ∈ visited ++ new
      ↔ w ∈ current :: seen ∨ w ∈ rest.map Prod.fst ++ new := by
    intro w
    simp only [List.mem_append, hvisited, List.map_cons, List.mem_cons]
    tauto
  rw [heq]
  dsimp only at hnodup hall ⊢
  rw [List.map_cons] at hinv
  refine ⟨⟨current :: seen, ?_, by rw [hfst]; exact hmem⟩, hnodup h.nodup, ?_⟩
  · rw [hfst]
    refine hinv.visitNew (fun w hw => ?_) (fun w => List.mem_append_left _) fun w hw => ?_
    · rcases List.mem_append.mp hw with hw | hw
      · exact .inr hw
      · obtain ⟨rel, hrel, rfl, rfl⟩ := hsound w hw
        exact .inl (mem_successors.mpr ⟨rel.agent, trivial, hrel⟩)
    · obtain ⟨a, -, hstep⟩ := mem_successors.mp hw
      exact (hmem w).mp (hall _ hstep rfl)
  · intro e he
    rw [List.length_append]
    have hdepth := h.depth_lt (current, depth) (by simp)
    rcases List.mem_append.mp he with he | he
    · exact Nat.lt_add_right _ (h.depth_lt e (by simp [he]))
    · obtain ⟨w, hw, rfl⟩ := List.mem_map.mp he
      have hpos := List.length_pos_of_mem hw
      dsimp only at hdepth ⊢
      omega

/-- A result that is right, or the bound was met, for which there is a reason. -/
def Answers {α : Type} (tooDeep : Prop) (outcome : Except EpistemicError α) (P : α → Prop) :
    Prop :=
  match outcome with
  | .ok a => P a
  | .error e => e = .maxDepthExceeded ∧ tooDeep

/-- The bound on the depth is less than the number of worlds. -/
def TooDeep (r : Reasoner) : Prop := r.maxDepth < r.model.worlds.length

theorem WellFormed.visited_subset {r : Reasoner} (hr : WellFormed r)
    (hstart : start ∈ r.model.worldIds) {visited : List WorldId} {queue : List (WorldId × Nat)}
    (h : Searching r start visited queue) : visited ⊆ r.model.worldIds := by
  obtain ⟨seen, hinv, hvisited⟩ := h.exact_
  intro w hw
  refine (hinv.sound w ((hvisited w).mp hw)).rule (by simpa using hstart) fun u v _ _ hv => ?_
  obtain ⟨a, -, hstep⟩ := mem_successors.mp hv
  exact (hr.ends _ hstep).2

theorem reachLoop_spec {r : Reasoner} (hr : WellFormed r) (hstart : start ∈ r.model.worldIds)
    (visited : List WorldId) (queue : List (WorldId × Nat)) :
    Searching r start visited queue → Answers r.TooDeep (r.reachLoop visited queue) fun found =>
      ∀ w, w ∈ found ↔ Lib.Worklist.Reach r.successors [start] w := by
  induction visited, queue using reachLoop.induct r with
  | case1 visited =>
    intro h
    obtain ⟨seen, hinv, hvisited⟩ := h.exact_
    rw [reachLoop]
    intro w
    rw [hvisited, ← hinv.done]
    simp
  | case2 visited current depth rest hdeep =>
    intro h
    rw [reachLoop, if_pos hdeep]
    have hdepth := h.depth_lt _ List.mem_cons_self
    have hlen := (List.subperm_of_subset h.nodup (hr.visited_subset hstart h)).length_le
    rw [KripkeModel.worldIds, List.length_map] at hlen
    refine ⟨rfl, ?_⟩
    dsimp only [TooDeep] at hdepth ⊢
    omega
  | case3 visited current depth rest hdeep s ih =>
    intro h
    rw [reachLoop, if_neg hdeep]
    exact ih h.step

/-! ## Evaluation -/

theorem WellFormed.getWorld {r : Reasoner} (hr : WellFormed r) (hw : w ∈ r.model.worldIds) :
    ∃ p, r.model.getWorld w = some p
      ∧ ∀ name, w ∈ r.Holds (.atom name) ↔ name ∈ p.trueProps := by
  obtain ⟨p, hp, rfl⟩ := List.mem_map.mp hw
  have hunique : ∀ q ∈ r.model.worlds, q.id = p.id → q = p := fun q hq heq =>
    List.inj_on_of_nodup_map hr.nodup hq hp heq
  refine ⟨p, ?_, fun name => ⟨?_, fun h => ⟨p, hp, rfl, h⟩⟩⟩
  · rw [KripkeModel.getWorld]
    cases hfind : r.model.worlds.find? fun w => w.id = p.id with
    | none => exact absurd (List.find?_eq_none.mp hfind p hp) (by simp)
    | some q =>
      rw [hunique q (List.mem_of_find?_eq_some hfind) (by simpa using List.find?_some hfind)]
  · rintro ⟨q, hq, heq, h⟩
    rwa [hunique q hq heq] at h

theorem Answers.bind {tooDeep : Prop} {α β : Type} {x : Except EpistemicError α} {P : α → Prop}
    {f : α → Except EpistemicError β} {Q : β → Prop} (hx : Answers tooDeep x P)
    (hf : ∀ a, P a → Answers tooDeep (f a) Q) : Answers tooDeep (x >>= f) Q := by
  cases x with
  | ok a => exact hf a hx
  | error e => exact hx

theorem Answers.mono {α : Type} {x : Except EpistemicError α} {P Q : α → Prop}
    (hx : Answers tooDeep x P) (h : ∀ a, P a → Q a) : Answers tooDeep x Q := by
  cases x with
  | ok a => exact h a hx
  | error e => exact hx

theorem Answers.because {tooDeep' : Prop} {α : Type} {x : Except EpistemicError α} {P : α → Prop}
    (hx : Answers tooDeep x P) (h : tooDeep → tooDeep') : Answers tooDeep' x P := by
  cases x with
  | ok a => exact hx
  | error e => exact ⟨hx.1, h hx.2⟩

theorem Answers.yes {P : Prop} (h : P) :
    Answers tooDeep (pure true) fun b => b = true ↔ P := iff_of_true rfl h

theorem Answers.no {P : Prop} (h : ¬ P) :
    Answers tooDeep (pure false) fun b => b = true ↔ P := iff_of_false Bool.false_ne_true h

theorem allOk_answers {α : Type} {f : α → Except EpistemicError Bool} {P : α → Prop} :
    ∀ {l : List α}, (∀ a ∈ l, Answers tooDeep (f a) fun b => b = true ↔ P a) →
      Answers tooDeep (allOk f l) fun b => b = true ↔ ∀ a ∈ l, P a
  | [], _ => by simp [allOk, Answers]
  | a :: l, h => by
    rw [allOk]
    refine (h a (by simp)).bind fun b hb => ?_
    cases b with
    | false =>
      have ha : ¬ P a := by simpa using hb
      exact .no fun h => ha (h a (by simp))
    | true => simpa [hb.mp rfl] using allOk_answers fun a ha => h a (by simp [ha])

theorem anyOk_answers {α : Type} {f : α → Except EpistemicError Bool} {P : α → Prop} :
    ∀ {l : List α}, (∀ a ∈ l, Answers tooDeep (f a) fun b => b = true ↔ P a) →
      Answers tooDeep (anyOk f l) fun b => b = true ↔ ∃ a ∈ l, P a
  | [], _ => by simp [anyOk, Answers]
  | a :: l, h => by
    rw [anyOk]
    refine (h a (by simp)).bind fun b hb => ?_
    cases b with
    | false =>
      have ha : ¬ P a := by simpa using hb
      simpa [ha] using anyOk_answers fun a ha => h a (by simp [ha])
    | true => exact .yes ⟨a, by simp, hb.mp rfl⟩

theorem filterOk_answers {f : WorldId → Except EpistemicError Bool} {P : WorldId → Prop} :
    ∀ {l : List WorldId},
      (∀ w ∈ l, Answers tooDeep (f w) fun b => b = true ↔ P w) →
        Answers tooDeep (filterOk f l) fun found => ∀ w, w ∈ found ↔ w ∈ l ∧ P w
  | [], _ => by simp [filterOk, Answers]
  | a :: l, h => by
    rw [filterOk]
    have ih := filterOk_answers fun a ha => h a (List.mem_cons_of_mem _ ha)
    refine (h a (by simp)).bind fun b hb => ?_
    cases b with
    | false =>
      have ha : ¬ P a := by simpa using hb
      refine ih.mono fun found hfound w => ?_
      rw [hfound, List.mem_cons]
      grind
    | true =>
      refine ih.bind fun found hfound w => ?_
      rw [List.mem_cons, List.mem_cons, hfound]
      grind

theorem reach_iff {r : Reasoner} : Lib.Worklist.Reach r.successors [start] w
      ↔ Relation.ReflTransGen (fun u v => ∃ a ∈ Set.univ, r.Accessible a u v) start w := by
  simp [Lib.Worklist.Reach, mem_successors]

section Evaluation

variable {r : Reasoner} {order : List WorldId → List WorldId}

/-- **The evaluator computes the meaning** at worlds of the model, by induction on the formula. -/
theorem evalRec_answers (hr : WellFormed r) (horder : ∀ l w, w ∈ order l ↔ w ∈ l)
    (phi : EpistemicFormula) (w : WorldId) (hw : w ∈ r.model.worldIds) :
    Answers r.TooDeep (evalRec r order phi w) fun b => b = true ↔ w ∈ r.Holds phi := by
  have hknows : ∀ (phi : EpistemicFormula) (a : AgentId) (w : WorldId),
      (∀ v ∈ r.model.worldIds,
        Answers r.TooDeep (evalRec r order phi v) fun b => b = true ↔ v ∈ r.Holds phi) →
      ∀ v ∈ r.model.worldsAccessibleFrom a w,
        Answers r.TooDeep (evalRec r order phi v) fun b => b = true ↔ v ∈ r.Holds phi := by
    intro phi a w ih v hv
    exact ih v (hr.ends _ (mem_worldsAccessibleFrom.mp hv)).2
  induction phi generalizing w with
  | atom name =>
    obtain ⟨p, hget, hatoms⟩ := hr.getWorld hw
    rw [evalRec, hget]
    simp only [Answers, decide_eq_true_eq, hatoms]
  | not inner ih =>
    rw [evalRec]
    refine (ih w hw).bind fun b hb => ?_
    exact (by simp [Holds, ← hb] : (!b) = true ↔ w ∈ r.Holds inner.not)
  | and lhs rhs ihl ihr =>
    rw [evalRec]
    refine (ihl w hw).bind fun b hb => ?_
    cases b with
    | false =>
      have hno : w ∉ r.Holds lhs := by simpa using hb
      exact .no fun h => hno h.1
    | true => exact (ihr w hw).mono fun b h => h.trans (by simp [Holds, hb.mp rfl])
  | or lhs rhs ihl ihr =>
    rw [evalRec]
    refine (ihl w hw).bind fun b hb => ?_
    cases b with
    | false =>
      have hno : w ∉ r.Holds lhs := by simpa using hb
      exact (ihr w hw).mono fun b h => h.trans (by simp [Holds, hno])
    | true => exact .yes (.inl (hb.mp rfl))
  | knows a phi ih =>
    rw [evalRec]
    refine (allOk_answers (hknows phi a w ih)).mono fun b hb => hb.trans ?_
    simp [Holds, box, mem_worldsAccessibleFrom]
  | possible a phi ih =>
    rw [evalRec]
    refine (anyOk_answers (hknows phi a w ih)).mono fun b hb => hb.trans ?_
    simp [Holds, dia, mem_worldsAccessibleFrom]
  | everyoneKnows phi ih =>
    rw [evalRec]
    refine (allOk_answers fun a _ => allOk_answers (hknows phi a w ih)).mono fun b hb =>
      hb.trans ?_
    simp [Holds, everyone, box, mem_worldsAccessibleFrom]
  | commonKnowledge phi ih =>
    rw [evalRec]
    refine (reachLoop_spec hr hw _ _ (.init r w)).bind fun found hfound => ?_
    have hin : ∀ v ∈ order found, v ∈ r.model.worldIds := by
      intro v hv
      refine ((hfound v).mp ((horder _ _).mp hv)).rule (by simpa using hw) fun u v _ _ hv => ?_
      obtain ⟨a, -, hstep⟩ := mem_successors.mp hv
      exact (hr.ends _ hstep).2
    refine (allOk_answers fun v hv => ih v (hin v hv)).mono fun b hb => hb.trans ?_
    simp only [horder, hfound, reach_iff]
    rfl

/-- The rounds towards common knowledge: each that changes something takes a world away. -/
theorem shrinkLoop_answers {S : Set WorldId} : ∀ (n : Nat) (candidate : Finset WorldId),
    ↑candidate ⊆ S → common {a | a ∈ r.agents} r.Accessible S ⊆ candidate →
      Answers (n ≤ candidate.card) (r.shrinkLoop n candidate) fun found =>
        ↑found = common {a | a ∈ r.agents} r.Accessible S
  | 0, _, _, _ => ⟨rfl, Nat.zero_le _⟩
  | n + 1, candidate, hS, hle => by
    have hround : ↑(r.shrink candidate)
        = (candidate : Set WorldId) ∩ everyone {a | a ∈ r.agents} r.Accessible candidate := by
      ext w
      simp [shrink, everyone, box, mem_worldsAccessibleFrom]
    rw [shrinkLoop]
    by_cases hfixed : r.shrink candidate = candidate
    · rw [if_pos hfixed]
      refine eq_common_of_fixed hS hle ?_
      rw [← hround, hfixed]
    · rw [if_neg hfixed]
      have hsub : r.shrink candidate ⊂ candidate :=
        Finset.ssubset_iff_subset_ne.mpr ⟨Finset.filter_subset _ _, hfixed⟩
      have hcard := Finset.card_lt_card hsub
      refine (shrinkLoop_answers n (r.shrink candidate)
        (Set.Subset.trans (Finset.coe_subset.mpr hsub.1) hS)
        (by rw [hround]; exact common_subset_round hle)).because fun h => ?_
      omega

end Evaluation

theorem WellFormed.propsAt {r : Reasoner} (hr : WellFormed r) (hw : w ∈ r.model.worldIds) :
    ∃ p, r.propsAt w = .ok p
      ∧ ∀ name, name ∈ p ↔ w ∈ r.Holds (.atom name) := by
  obtain ⟨p, hget, hatoms⟩ := hr.getWorld hw
  refine ⟨p.trueProps, ?_, fun name => (hatoms name).symm⟩
  rw [Reasoner.propsAt, hget]

theorem foldlM_propsAt {r : Reasoner} (hr : WellFormed r) : ∀ (others : List WorldId)
    (known : Finset String), (∀ v ∈ others, v ∈ r.model.worldIds) → ∃ found,
      others.foldlM (fun known w => do return known ∩ (← r.propsAt w)) known = .ok found
        ∧ ∀ name, name ∈ found ↔ name ∈ known ∧ ∀ v ∈ others, v ∈ r.Holds (.atom name)
  | [], known, _ => ⟨known, rfl, by simp⟩
  | w :: others, known, hin => by
    obtain ⟨p, hp, hatoms⟩ := hr.propsAt (hin w (by simp))
    obtain ⟨found, heq, hmem⟩ := foldlM_propsAt hr others (known ∩ p)
      fun v hv => hin v (by simp [hv])
    refine ⟨found, ?_, fun name => ?_⟩
    · rw [List.foldlM_cons, hp]
      exact heq
    · simp [hmem, hatoms, and_assoc]

/-- Two worlds that one of two agents cannot tell apart. -/
def rain : Reasoner :=
  ((((((perform { maxDepth := 3 } (.addWorld {"rain"})).perform (.addWorld ∅)).perform
    (.addAgent "alice")).perform (.addAgent "bob")).perform
      (.addAccessibility ⟨"alice", 0, 1⟩)).perform .makeReflexive)

theorem rain_built : Built rain :=
  .call _ (.call _ (.call _ (.call _ (.call _ (.call _ (.new 3))))))

section Results

variable {r : Reasoner} (order : List WorldId → List WorldId)

/-- **Evaluation is exact.** In a reasoner that calls built, whatever the order of the hash set,
what is answered at a world is whether the formula holds there. The other outcomes are an empty
model, an unknown world, and a bound less than the number of worlds. -/
theorem evaluate_exact (hr : Built r) (horder : ∀ l w, w ∈ order l ↔ w ∈ l)
    (phi : EpistemicFormula) (w : WorldId) : match r.evaluate order phi w with
      | .ok b => b = true ↔ w ∈ r.Holds phi
      | .error .emptyModel => r.model.worlds = []
      | .error (.worldNotFound v) => v = w ∧ w ∉ r.model.worldIds
      | .error .maxDepthExceeded => r.maxDepth < r.model.worlds.length
      | .error (.agentNotFound _) => False := by
  rw [evaluate]
  by_cases hempty : r.model.worlds.isEmpty
  · rw [if_pos hempty]
    exact List.isEmpty_iff.mp hempty
  rw [if_neg hempty]
  by_cases hw : w ∈ r.model.worldIds
  · rw [if_neg (not_not.mpr hw)]
    have hans := evalRec_answers hr.wellFormed horder phi w hw
    cases hout : evalRec r order phi w with
    | ok b =>
      rw [hout] at hans
      exact hans
    | error e =>
      rw [hout] at hans
      obtain ⟨rfl, hlt⟩ := hans
      exact hlt
  · rw [if_pos hw]
    exact ⟨rfl, hw⟩

theorem evaluate_exact_rain : 0 ∉ rain.Holds (.knows "alice" (.atom "rain"))
    ∧ 0 ∈ rain.Holds (.knows "bob" (.atom "rain")) := by
  have halice := evaluate_exact id rain_built (fun _ _ => Iff.rfl)
    (.knows "alice" (.atom "rain")) 0
  have hbob := evaluate_exact id rain_built (fun _ _ => Iff.rfl) (.knows "bob" (.atom "rain")) 0
  exact ⟨fun h => absurd (halice.mpr h) (by decide), hbob.mp rfl⟩

/-- **The fixed point is common knowledge**: the worlds found are those of the model where the
formula is common knowledge of the registered agents; where no other agent has an edge, they
are those where `C` holds. The rounds fail to settle only if the bound is at most the number of
worlds. -/
theorem commonKnowledgeWorlds_exact (hr : Built r) (horder : ∀ l w, w ∈ order l ↔ w ∈ l)
    (phi : EpistemicFormula) (hmodel : r.model.worlds ≠ []) :
    Answers (r.maxDepth ≤ r.model.worlds.length) (r.commonKnowledgeWorlds order phi) fun found =>
      (∀ w, w ∈ found ↔ w ∈ r.model.worldIds
          ∧ w ∈ common {a | a ∈ r.agents} r.Accessible (r.Holds phi))
        ∧ ((∀ rel ∈ r.model.relations, rel.agent ∈ r.agents) →
          ∀ w, w ∈ found ↔ w ∈ r.model.worldIds ∧ w ∈ r.Holds phi.commonKnowledge) := by
  replace hr := hr.wellFormed
  rw [commonKnowledgeWorlds, if_neg (by simpa using hmodel)]
  have hsettled : Answers (r.maxDepth ≤ r.model.worlds.length)
      (filterOk (fun w => evalRec r order phi w) r.model.worldIds >>= fun candidate =>
        shrinkLoop r r.maxDepth candidate.toFinset) fun found =>
      ↑found = {w | w ∈ r.model.worldIds}
        ∩ common {a | a ∈ r.agents} r.Accessible (r.Holds phi) := by
    refine ((filterOk_answers fun w hw => evalRec_answers hr horder phi w hw).because
      Nat.le_of_lt).bind fun candidate hcandidate => ?_
    have hset : (candidate.toFinset : Set WorldId)
        = {w | w ∈ r.model.worldIds} ∩ r.Holds phi := by
      ext w
      simp [hcandidate]
    have hcard : candidate.toFinset.card ≤ r.model.worlds.length := by
      refine (Finset.card_le_card fun w hw => ?_).trans
        ((List.toFinset_card_le r.model.worldIds).trans (by simp [KripkeModel.worldIds]))
      exact List.mem_toFinset.mpr ((hcandidate w).mp (List.mem_toFinset.mp hw)).1
    refine ((shrinkLoop_answers r.maxDepth _ (Set.Subset.refl _) common_subset).because
      fun h => h.trans hcard).mono fun found hfound => ?_
    rw [hfound, hset]
    exact common_inter fun u v _ ⟨a, _, hstep⟩ => (hr.ends _ hstep).2
  refine hsettled.mono fun found hfound => ?_
  have hmem := Set.ext_iff.mp hfound
  refine ⟨hmem, fun hregistered w => (hmem w).trans ?_⟩
  rw [Holds, common_congr]
  · rfl
  · intro u v
    exact ⟨fun ⟨a, _, h⟩ => ⟨a, trivial, h⟩, fun ⟨a, _, h⟩ => ⟨a, hregistered _ h, h⟩⟩

theorem commonKnowledgeWorlds_exact_rain :
    0 ∉ common {a | a ∈ rain.agents} rain.Accessible (rain.Holds (.atom "rain")) := by
  have h := commonKnowledgeWorlds_exact id rain_built (fun _ _ => Iff.rfl) (.atom "rain")
    (by decide)
  exact fun hc => absurd ((h.1 0).mpr ⟨by decide, hc⟩) (by decide)

/-- **The questions about all worlds** are answered by the meaning of the formula. -/
theorem queries_exact (hr : Built r) (horder : ∀ l w, w ∈ order l ↔ w ∈ l)
    (phi : EpistemicFormula) (hmodel : r.model.worlds ≠ []) :
    Answers r.TooDeep (r.isValid order phi) (fun b =>
        b = true ↔ ∀ w ∈ r.model.worldIds, w ∈ r.Holds phi)
      ∧ Answers r.TooDeep (r.isSatisfiable order phi) (fun b =>
        b = true ↔ ∃ w ∈ r.model.worldIds, w ∈ r.Holds phi)
      ∧ Answers r.TooDeep (r.satisfyingWorlds order phi) fun found =>
        ∀ w, w ∈ found ↔ w ∈ r.model.worldIds ∧ w ∈ r.Holds phi := by
  have heval := evalRec_answers hr.wellFormed horder phi
  have hsome : ¬ r.model.worlds.isEmpty := by simpa using hmodel
  rw [isValid, isSatisfiable, satisfyingWorlds, if_neg hsome, if_neg hsome, if_neg hsome]
  exact ⟨allOk_answers heval, anyOk_answers heval, filterOk_answers heval⟩

theorem queries_exact_rain : Answers rain.TooDeep (rain.isValid id (.atom "rain")) fun b =>
    b = true ↔ ∀ w ∈ rain.model.worldIds, w ∈ rain.Holds (.atom "rain") :=
  (queries_exact id rain_built (fun _ _ => Iff.rfl) (.atom "rain") (by decide)).1

/-- **The knowledge set** of a registered agent has the propositions that it knows, and is empty
where it takes no world for possible, although `K` then holds of everything. -/
theorem knowledgeSet_exact (hr : Built r) (agent : AgentId) (w : WorldId) :
    match r.knowledgeSet agent w with
      | .ok known => ∀ name, name ∈ known ↔ w ∈ r.Holds (.knows agent (.atom name))
          ∧ ∃ v, r.Accessible agent w v
      | .error (.agentNotFound a) => a = agent ∧ agent ∉ r.agents
      | .error (.worldNotFound v) => v = w ∧ w ∉ r.model.worldIds
      | .error _ => False := by
  replace hr := hr.wellFormed
  rw [knowledgeSet]
  by_cases hagent : agent ∈ r.agents
  swap
  · rw [if_pos hagent]
    exact ⟨rfl, hagent⟩
  rw [if_neg (not_not.mpr hagent)]
  by_cases hw : w ∈ r.model.worldIds
  swap
  · rw [if_pos hw]
    exact ⟨rfl, hw⟩
  rw [if_neg (not_not.mpr hw)]
  have hin : ∀ v ∈ r.model.worldsAccessibleFrom agent w, v ∈ r.model.worldIds := fun v hv =>
    (hr.ends _ (mem_worldsAccessibleFrom.mp hv)).2
  have hknows : ∀ name, w ∈ r.Holds (.knows agent (.atom name))
      ↔ ∀ v ∈ r.model.worldsAccessibleFrom agent w, v ∈ r.Holds (.atom name) := by
    simp [Holds, box, mem_worldsAccessibleFrom]
  simp only [hknows, ← mem_worldsAccessibleFrom]
  cases hlist : r.model.worldsAccessibleFrom agent w with
  | nil => simp
  | cons first others =>
    rw [hlist] at hin
    obtain ⟨p, hp, hfirst⟩ := hr.propsAt (hin first (by simp))
    obtain ⟨known, hknown, hmem⟩ := foldlM_propsAt hr others p fun v hv => hin v (by simp [hv])
    have hcall : (r.propsAt first >>= fun p =>
        others.foldlM (fun known w => do return known ∩ (← r.propsAt w)) p) = .ok known := by
      rw [hp]
      exact hknown
    dsimp only
    rw [hcall]
    intro name
    simp [hmem, hfirst]

theorem knowledgeSet_exact_rain : 0 ∈ rain.Holds (.knows "bob" (.atom "rain")) :=
  ((knowledgeSet_exact rain_built "bob" 0 "rain").mp (by decide)).1

end Results

end Reasoner

end Ipfrs.TensorLogic.Epistemic
