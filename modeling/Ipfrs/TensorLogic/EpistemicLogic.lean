/-
Ipfrs.TensorLogic.EpistemicLogic — the reasoner about the knowledge of several agents
(`epistemic_logic.rs`).

A model has worlds, each with the atoms that are true there, and for each agent the worlds that
it cannot tell apart. A formula is evaluated at a world; common knowledge is looked for at
all worlds that relations lead to, with a bound on the depth of that search. The worlds found
are in a hash set, whose order is `order`.
-/
import Ipfrs.Lib.Kripke
import Mathlib.Data.Finset.Prod

namespace Ipfrs.TensorLogic.Epistemic

abbrev AgentId := String

abbrev WorldId := Nat

inductive EpistemicFormula
  | atom (name : String)
  | not (inner : EpistemicFormula)
  | and (lhs rhs : EpistemicFormula)
  | or (lhs rhs : EpistemicFormula)
  | knows (agent : AgentId) (phi : EpistemicFormula)
  | possible (agent : AgentId) (phi : EpistemicFormula)
  | everyoneKnows (phi : EpistemicFormula)
  | commonKnowledge (phi : EpistemicFormula)

structure PossibleWorld where
  id : WorldId
  trueProps : Finset String

structure AccessibilityRelation where
  agent : AgentId
  from_ : WorldId
  to_ : WorldId
  deriving DecidableEq

structure KripkeModel where
  worlds : List PossibleWorld := []
  relations : List AccessibilityRelation := []
  actualWorld : WorldId := 0

inductive EpistemicError
  | worldNotFound (id : Nat)
  | agentNotFound (name : String)
  | maxDepthExceeded
  | emptyModel
  deriving DecidableEq

namespace KripkeModel

variable (m : KripkeModel)

def worldIds : List WorldId := m.worlds.map PossibleWorld.id

def worldsAccessibleFrom (agent : AgentId) (world : WorldId) : List WorldId :=
  (m.relations.filter fun r => r.agent = agent ∧ r.from_ = world).map AccessibilityRelation.to_

def getWorld (id : WorldId) : Option PossibleWorld := m.worlds.find? fun w => w.id = id

end KripkeModel

/-- `EpistemicLogicReasoner`. -/
structure Reasoner where
  model : KripkeModel := {}
  agents : List AgentId := []
  maxDepth : Nat
  nextWorldId : Nat := 0

/-! ## Building a model -/

namespace Reasoner

def addWorld (r : Reasoner) (props : Finset String) : Reasoner :=
  { r with
    nextWorldId := r.nextWorldId + 1
    model := { r.model with worlds := r.model.worlds ++ [⟨r.nextWorldId, props⟩] } }

def setActualWorld (r : Reasoner) (world : WorldId) : Except EpistemicError Reasoner :=
  if world ∉ r.model.worldIds then .error (.worldNotFound world)
  else .ok { r with model := { r.model with actualWorld := world } }

def addAgent (r : Reasoner) (agent : AgentId) : Reasoner :=
  if agent ∈ r.agents then r else { r with agents := r.agents ++ [agent] }

/-- `if !relations.contains(&rel) { relations.push(rel) }`. -/
def pushRelation (relations : List AccessibilityRelation) (rel : AccessibilityRelation) :
    List AccessibilityRelation :=
  if rel ∈ relations then relations else relations ++ [rel]

def withRelations (r : Reasoner) (relations : List AccessibilityRelation) : Reasoner :=
  { r with model := { r.model with relations := relations } }

def addAccessibility (r : Reasoner) (rel : AccessibilityRelation) :
    Except EpistemicError Reasoner :=
  if rel.from_ ∉ r.model.worldIds then .error (.worldNotFound rel.from_)
  else if rel.to_ ∉ r.model.worldIds then .error (.worldNotFound rel.to_)
  else .ok (r.withRelations (pushRelation r.model.relations rel))

def makeReflexive (r : Reasoner) : Reasoner :=
  let pairs := r.agents.flatMap fun a => r.model.worldIds.map fun w => ⟨a, w, w⟩
  r.withRelations (pairs.foldl pushRelation r.model.relations)

/-- The edges of two steps that are not there yet. -/
def newEdges (relations : List AccessibilityRelation) : List AccessibilityRelation :=
  (relations.flatMap fun r1 =>
    (relations.filter fun r2 => r1.agent = r2.agent ∧ r1.to_ = r2.from_).map fun r2 =>
      (⟨r1.agent, r1.from_, r2.to_⟩ : AccessibilityRelation)).foldl
    (fun acc candidate => if candidate ∈ relations then acc else pushRelation acc candidate) []

theorem mem_pushRelation {relations : List AccessibilityRelation} {rel x : AccessibilityRelation} :
    x ∈ pushRelation relations rel ↔ x ∈ relations ∨ x = rel := by
  rw [pushRelation]
  split
  · next h => exact ⟨.inl, fun hx => hx.elim id fun heq => heq ▸ h⟩
  · rw [List.mem_append, List.mem_singleton]

theorem mem_newEdges {relations : List AccessibilityRelation} {x : AccessibilityRelation} :
    x ∈ newEdges relations ↔ x ∉ relations ∧ ∃ v, ⟨x.agent, x.from_, v⟩ ∈ relations
      ∧ ⟨x.agent, v, x.to_⟩ ∈ relations := by
  have hfold : ∀ (candidates acc : List AccessibilityRelation), x ∈ candidates.foldl
      (fun acc candidate => if candidate ∈ relations then acc else pushRelation acc candidate) acc
      ↔ x ∈ acc ∨ x ∉ relations ∧ x ∈ candidates := by
    intro candidates
    induction candidates with
    | nil => simp
    | cons c candidates ih =>
      intro acc
      rw [List.foldl_cons, ih, List.mem_cons]
      split
      · next h => grind
      · next h =>
        rw [mem_pushRelation]
        grind
  rw [newEdges, hfold, List.mem_flatMap]
  simp only [List.not_mem_nil, false_or, List.mem_map, List.mem_filter, decide_eq_true_eq]
  refine and_congr_right fun _ => ⟨?_, ?_⟩
  · rintro ⟨r1, h1, r2, ⟨h2, hagent, hto⟩, rfl⟩
    exact ⟨r1.to_, h1, by rw [hagent, hto]; exact h2⟩
  · rintro ⟨v, h1, h2⟩
    exact ⟨_, h1, _, ⟨h2, rfl, rfl⟩, rfl⟩

/-- The edges that the agents and ends of some edges allow and that are not among them. -/
def missing (relations : List AccessibilityRelation) : Finset (AgentId × WorldId × WorldId) :=
  ((relations.map AccessibilityRelation.agent).toFinset ×ˢ
    (relations.map AccessibilityRelation.from_).toFinset ×ˢ
      (relations.map AccessibilityRelation.to_).toFinset).filter
        fun e => ⟨e.1, e.2.1, e.2.2⟩ ∉ relations

theorem missing_newEdges_lt {relations : List AccessibilityRelation} (h : newEdges relations ≠ []) :
    (missing (relations ++ newEdges relations)).card < (missing relations).card := by
  obtain ⟨e, he⟩ := List.exists_mem_of_ne_nil _ h
  obtain ⟨hnew, v, h1, h2⟩ := mem_newEdges.mp he
  refine Finset.card_lt_card (Finset.ssubset_iff_subset_ne.mpr ⟨fun x hx => ?_, fun heq => ?_⟩)
  · have hends : ∀ y ∈ newEdges relations, (∃ r ∈ relations, r.agent = y.agent)
        ∧ (∃ r ∈ relations, r.from_ = y.from_) ∧ ∃ r ∈ relations, r.to_ = y.to_ := by
      intro y hy
      obtain ⟨-, v, hy1, hy2⟩ := mem_newEdges.mp hy
      exact ⟨⟨_, hy1, rfl⟩, ⟨_, hy1, rfl⟩, ⟨_, hy2, rfl⟩⟩
    simp only [missing, Finset.mem_filter, Finset.mem_product, List.mem_toFinset, List.mem_map,
      List.mem_append, not_or] at hx ⊢
    obtain ⟨⟨⟨a, ha, hxa⟩, ⟨f, hf, hxf⟩, t, ht, hxt⟩, hout, -⟩ := hx
    refine ⟨⟨?_, ?_, ?_⟩, hout⟩
    · exact ha.elim (fun ha => ⟨a, ha, hxa⟩) fun ha => hxa ▸ (hends a ha).1
    · exact hf.elim (fun hf => ⟨f, hf, hxf⟩) fun hf => hxf ▸ (hends f hf).2.1
    · exact ht.elim (fun ht => ⟨t, ht, hxt⟩) fun ht => hxt ▸ (hends t ht).2.2
  · have hmem : (e.agent, e.from_, e.to_) ∈ missing relations := by
      simp only [missing, Finset.mem_filter, Finset.mem_product, List.mem_toFinset, List.mem_map]
      exact ⟨⟨⟨_, h1, rfl⟩, ⟨_, h1, rfl⟩, ⟨_, h2, rfl⟩⟩, hnew⟩
    rw [← heq, missing, Finset.mem_filter] at hmem
    exact hmem.2 (List.mem_append_right _ he)

def transitiveLoop (relations : List AccessibilityRelation) : List AccessibilityRelation :=
  if _h : newEdges relations = [] then relations
  else transitiveLoop (relations ++ newEdges relations)
  termination_by (missing relations).card
  decreasing_by exact missing_newEdges_lt _h

def makeTransitive (r : Reasoner) : Reasoner := r.withRelations (transitiveLoop r.model.relations)

/-! ## Evaluation -/

/-- `for w in ws { if !f(w)? { return Ok(false) } } Ok(true)`. -/
def allOk {α : Type} (f : α → Except EpistemicError Bool) : List α → Except EpistemicError Bool
  | [] => .ok true
  | w :: ws => do if ← f w then allOk f ws else return false

/-- `for w in ws { if f(w)? { return Ok(true) } } Ok(false)`. -/
def anyOk {α : Type} (f : α → Except EpistemicError Bool) : List α → Except EpistemicError Bool
  | [] => .ok false
  | w :: ws => do if ← f w then return true else anyOk f ws

/-- One edge in the loop of `reachable_via_union`, with the worlds visited and the queue. -/
def discover (current : WorldId) (depth : Nat) (s : List WorldId × List (WorldId × Nat))
    (rel : AccessibilityRelation) : List WorldId × List (WorldId × Nat) :=
  if rel.from_ = current ∧ rel.to_ ∉ s.1 then (s.1 ++ [rel.to_], s.2 ++ [(rel.to_, depth + 1)])
  else s

/-- The loop over the relations, for a world taken from the queue. -/
def expand (relations : List AccessibilityRelation) (current : WorldId) (depth : Nat)
    (s : List WorldId × List (WorldId × Nat)) : List WorldId × List (WorldId × Nat) :=
  relations.foldl (discover current depth) s

/-- The worlds that edges lead to and that the search has not visited. -/
def unvisited (relations : List AccessibilityRelation) (visited : List WorldId) : Finset WorldId :=
  (relations.map AccessibilityRelation.to_).toFinset \ visited.toFinset

theorem unvisited_expand (all : List AccessibilityRelation) (current : WorldId) (depth : Nat) :
    ∀ (relations : List AccessibilityRelation) (s : List WorldId × List (WorldId × Nat)),
      relations ⊆ all →
        (unvisited all (expand relations current depth s).1).card
            + (expand relations current depth s).2.length
          ≤ (unvisited all s.1).card + s.2.length
  | [], _, _ => le_rfl
  | rel :: relations, s, hsub => by
    obtain ⟨hrel, hsub⟩ := List.cons_subset.mp hsub
    refine (unvisited_expand all current depth relations _ hsub).trans ?_
    rw [discover]
    split
    · next hnew =>
      have herase : unvisited all (s.1 ++ [rel.to_]) = (unvisited all s.1).erase rel.to_ := by
        ext w
        simp [unvisited]
        tauto
      have hmem : rel.to_ ∈ unvisited all s.1 := by
        simp only [unvisited, Finset.mem_sdiff, List.mem_toFinset]
        exact ⟨List.mem_map_of_mem hrel, hnew.2⟩
      have hcard := Finset.card_erase_add_one hmem
      simp only [herase, List.length_append, List.length_singleton]
      omega
    · exact le_rfl

variable (r : Reasoner)

def reachLoop (visited : List WorldId) (queue : List (WorldId × Nat)) :
    Except EpistemicError (List WorldId) :=
  match queue with
  | [] => .ok visited
  | (current, depth) :: rest =>
    if depth ≥ r.maxDepth then .error .maxDepthExceeded
    else
      let s := expand r.model.relations current depth (visited, rest)
      reachLoop s.1 s.2
  termination_by (unvisited r.model.relations visited).card + queue.length
  decreasing_by
    exact Nat.lt_of_le_of_lt (unvisited_expand _ current depth _ (visited, rest)
      (List.Subset.refl _)) (Nat.lt_succ_self _)

def reachableViaUnion (start : WorldId) : Except EpistemicError (List WorldId) :=
  reachLoop r [start] [(start, 0)]

variable (order : List WorldId → List WorldId)

def evalRec : EpistemicFormula → WorldId → Except EpistemicError Bool
  | .atom name, world =>
    match r.model.getWorld world with
    | some w => .ok (decide (name ∈ w.trueProps))
    | none => .error (.worldNotFound world)
  | .not inner, world => do return !(← evalRec inner world)
  | .and lhs rhs, world => do if ← evalRec lhs world then evalRec rhs world else return false
  | .or lhs rhs, world => do if ← evalRec lhs world then return true else evalRec rhs world
  | .knows agent phi, world =>
    allOk (fun w => evalRec phi w) (r.model.worldsAccessibleFrom agent world)
  | .possible agent phi, world =>
    anyOk (fun w => evalRec phi w) (r.model.worldsAccessibleFrom agent world)
  | .everyoneKnows phi, world =>
    allOk (fun agent => allOk (fun w => evalRec phi w)
      (r.model.worldsAccessibleFrom agent world)) r.agents
  | .commonKnowledge phi, world => do
      let reachable ← reachableViaUnion r world
      allOk (fun w => evalRec phi w) (order reachable)

def evaluate (formula : EpistemicFormula) (world : WorldId) : Except EpistemicError Bool :=
  if r.model.worlds.isEmpty then .error .emptyModel
  else if world ∉ r.model.worldIds then .error (.worldNotFound world)
  else evalRec r order formula world

def isValid (formula : EpistemicFormula) : Except EpistemicError Bool :=
  if r.model.worlds.isEmpty then .error .emptyModel
  else allOk (fun w => evalRec r order formula w) r.model.worldIds

def isSatisfiable (formula : EpistemicFormula) : Except EpistemicError Bool :=
  if r.model.worlds.isEmpty then .error .emptyModel
  else anyOk (fun w => evalRec r order formula w) r.model.worldIds

/-- `satisfying_worlds`, and the first candidates of `common_knowledge_worlds`. -/
def filterOk (f : WorldId → Except EpistemicError Bool) :
    List WorldId → Except EpistemicError (List WorldId)
  | [] => .ok []
  | w :: ws => do
      if ← f w then return w :: (← filterOk f ws) else filterOk f ws

def satisfyingWorlds (formula : EpistemicFormula) : Except EpistemicError (List WorldId) :=
  if r.model.worlds.isEmpty then .error .emptyModel
  else filterOk (fun w => evalRec r order formula w) r.model.worldIds

/-- The worlds from which no agent can reach outside of the candidates. -/
def shrink (candidate : Finset WorldId) : Finset WorldId :=
  candidate.filter fun w => ∀ agent ∈ r.agents, ∀ aw ∈ r.model.worldsAccessibleFrom agent w,
    aw ∈ candidate

def shrinkLoop : Nat → Finset WorldId → Except EpistemicError (Finset WorldId)
  | 0, _ => .error .maxDepthExceeded
  | n + 1, candidate =>
    let next := shrink r candidate
    if next = candidate then .ok candidate else shrinkLoop n next

def commonKnowledgeWorlds (phi : EpistemicFormula) : Except EpistemicError (Finset WorldId) :=
  if r.model.worlds.isEmpty then .error .emptyModel
  else do
    let candidate ← filterOk (fun w => evalRec r order phi w) r.model.worldIds
    shrinkLoop r r.maxDepth candidate.toFinset

/-- `get_world(id).ok_or(..)?`, for the propositions of that world. -/
def propsAt (world : WorldId) : Except EpistemicError (Finset String) :=
  match r.model.getWorld world with
  | some w => .ok w.trueProps
  | none => .error (.worldNotFound world)

/-- The propositions that are true in all worlds the agent takes for possible; none where there
is no such world. The source sorts them. -/
def knowledgeSet (agent : AgentId) (world : WorldId) : Except EpistemicError (Finset String) :=
  if agent ∉ r.agents then .error (.agentNotFound agent)
  else if world ∉ r.model.worldIds then .error (.worldNotFound world)
  else match r.model.worldsAccessibleFrom agent world with
    | [] => .ok ∅
    | first :: others => do
        others.foldlM (fun known w => do return known ∩ (← propsAt r w)) (← propsAt r first)

/-! ## Checking axioms -/

def satisfiesTAxiom (agent : AgentId) : Bool :=
  r.model.worldIds.all fun w => w ∈ r.model.worldsAccessibleFrom agent w

/-- The relations of an agent from one of them to the next: two that meet need a third. -/
def closedUnder (agent : AgentId) (meet : AccessibilityRelation → AccessibilityRelation → Bool)
    (third : AccessibilityRelation → AccessibilityRelation → AccessibilityRelation) : Bool :=
  let relations := r.model.relations.filter fun rel => rel.agent = agent
  relations.all fun r1 => relations.all fun r2 => !meet r1 r2 || third r1 r2 ∈ r.model.relations

def satisfies4Axiom (agent : AgentId) : Bool :=
  closedUnder r agent (fun r1 r2 => r2.from_ = r1.to_) fun r1 r2 => ⟨agent, r1.from_, r2.to_⟩

def satisfies5Axiom (agent : AgentId) : Bool :=
  closedUnder r agent (fun r1 r2 => r1.from_ = r2.from_) fun r1 r2 => ⟨agent, r1.to_, r2.to_⟩

def satisfiesBAxiom (agent : AgentId) : Bool :=
  r.model.relations.all fun rel =>
    rel.agent ≠ agent || ⟨agent, rel.to_, rel.from_⟩ ∈ r.model.relations

end Reasoner

end Ipfrs.TensorLogic.Epistemic
