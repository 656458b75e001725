/-
Ipfrs.TensorLogic.Stratification — which predicates rest on which
(`StratificationAnalyzer` of `recursive_reasoning.rs`).

An analyzer keeps a map from predicates to the predicates in the bodies of their rules. A
knowledge base that is analyzed is added to the map; a search then looks for a cycle in it,
and without one the predicates are listed in strata. Hash sets and maps give their elements
in any order. The search is given a depth and the loop a number of rounds; `none` means
that these did not suffice.
-/
import Ipfrs.TensorLogic.Ir
import Ipfrs.Lib.Loop
import Mathlib.Data.List.AList
import Ipfrs.Lib.DepthFirst
import Ipfrs.Lib.Topo
import Ipfrs.Lib.Worklist

namespace Ipfrs.TensorLogic

open Ipfrs.Lib

/-- The order in which a hash set gives its elements. -/
structure HashOrder where
  order : List String → List String
  perm : ∀ l, (order l).Perm l

/-- The orders met in one call: of the names of heads, of the keys of the map, of the set
of each predicate, and of what remains in each round. -/
structure HashOrders where
  names : HashOrder
  keys : HashOrder
  neighbors : String → HashOrder
  remaining : Nat → HashOrder

/-- `StratificationResult`. -/
inductive StratificationResult where
  | stratifiable (strata : List (List String))
  | nonStratifiable
  deriving DecidableEq

/-- `StratificationAnalyzer`. -/
structure StratificationAnalyzer where
  dependencies : AList (fun _ : String => List String)

/-- The sets of the cycle search. -/
structure DfsState where
  visited : List String
  recStack : List String

/-- The loop over neighbors, or over keys: left at the first that finds a cycle. -/
def anyCycle (hasCycle : String → DfsState → Option (Bool × DfsState)) :
    List String → DfsState → Option (Bool × DfsState)
  | [], s => some (false, s)
  | node :: nodes, s =>
    match hasCycle node s with
    | none => none
    | some (true, s) => some (true, s)
    | some (false, s) => anyCycle hasCycle nodes s

/-- The variables of `compute_strata`. -/
structure StrataState where
  strata : List (List String)
  remaining : List String

namespace StratificationAnalyzer

def new : StratificationAnalyzer := { dependencies := ∅ }

/-- `dependencies.get(node)`, no predicate if there is no entry. -/
def deps (a : StratificationAnalyzer) (node : String) : List String :=
  (a.dependencies.lookup node).getD []

/-- The bodies' predicates join those of the head. -/
def addRule (a : StratificationAnalyzer) (rule : Rule) : StratificationAnalyzer :=
  let head := rule.head.name
  let deps := rule.body.map Predicate.name
  { dependencies := a.dependencies.insert head (a.deps head ∪ deps) }

def buildDependencyGraph (a : StratificationAnalyzer) (names : HashOrder)
    (kb : KnowledgeBase) : StratificationAnalyzer :=
  let predicateNames := names.order (kb.rules.map (fun r => r.head.name)).dedup
  predicateNames.foldl (fun a name => (kb.getRules name).foldl addRule a) a

def hasCycleUtil (a : StratificationAnalyzer) (neighbors : String → HashOrder) :
    Nat → String → DfsState → Option (Bool × DfsState)
  | 0, _, _ => none
  | depth + 1, node, s =>
    if node ∈ s.recStack then some (true, s)
    else if node ∈ s.visited then some (false, s)
    else
      let s := { visited := node :: s.visited, recStack := node :: s.recStack }
      match anyCycle (a.hasCycleUtil neighbors depth)
          ((neighbors node).order (a.deps node)) s with
      | none => none
      | some (true, s) => some (true, s)
      | some (false, s) => some (false, { s with recStack := s.recStack.erase node })

def hasCycles (a : StratificationAnalyzer) (o : HashOrders) (depth : Nat) : Option Bool :=
  (anyCycle (a.hasCycleUtil o.neighbors depth) (o.keys.order a.dependencies.keys)
    { visited := [], recStack := [] }).map Prod.fst

/-- One round of `compute_strata`. -/
def strataBody (a : StratificationAnalyzer) (remainingOrder : Nat → HashOrder) (s : StrataState) :
    StrataState ⊕ List (List String) :=
  if s.remaining.isEmpty then .inr s.strata
  else
    let currentStratum := ((remainingOrder s.strata.length).order s.remaining).filter
      (fun pred => !(a.deps pred).any (fun d => s.remaining.contains d))
    if currentStratum.isEmpty then .inr s.strata
    else .inl
      { strata := s.strata ++ [currentStratum]
        remaining := s.remaining.filter (fun pred => !currentStratum.contains pred) }

def computeStrata (a : StratificationAnalyzer) (o : HashOrders) (rounds : Nat) :
    Option (List (List String)) :=
  Loop.run (a.strataBody o.remaining) rounds { strata := [], remaining := a.dependencies.keys }

/-- `analyze`: the result, and the analyzer after the call. -/
def analyze (a : StratificationAnalyzer) (o : HashOrders) (rounds : Nat) (kb : KnowledgeBase) :
    Option (StratificationResult × StratificationAnalyzer) :=
  let a := a.buildDependencyGraph o.names kb
  match a.hasCycles o rounds with
  | none => none
  | some true => some (.nonStratifiable, a)
  | some false => (a.computeStrata o rounds).map (fun strata => (.stratifiable strata, a))

end StratificationAnalyzer

/-! ## What an analysis is exact about

The map of an analyzer holds the dependencies of all rules it was ever given (`Reflects`),
and the search and the strata are exact for that map (`hasCycles_spec`,
`computeStrata_spec`). So an analysis is exact for its knowledge base exactly if the rules
of the knowledge bases analyzed before close no cycle that the own rules do not have
(`analyze_exact_iff`). -/

def heads (rules : List Rule) : List String := rules.map (fun r => r.head.name)

/-- A rule of `v` has `d` in its body. -/
def RuleDependsOn (rules : List Rule) (v d : String) : Prop :=
  ∃ rule ∈ rules, rule.head.name = v ∧ d ∈ rule.body.map Predicate.name

/-- The same between head predicates. -/
def HeadDependsOn (rules : List Rule) (v d : String) : Prop :=
  RuleDependsOn rules v d ∧ d ∈ heads rules

/-- No head predicate depends on itself through head predicates. -/
def RulesAcyclic (rules : List Rule) : Prop := ∀ v, ¬ Relation.TransGen (HeadDependsOn rules) v v

theorem RuleDependsOn.mem_heads {rules : List Rule} {v d : String} (h : RuleDependsOn rules v d) :
    v ∈ heads rules := by
  obtain ⟨rule, hrule, rfl, -⟩ := h
  exact List.mem_map_of_mem hrule

/-- A cycle passes through head predicates only. -/
theorem acyclic_iff {rules : List Rule} :
    RulesAcyclic rules ↔ ∀ v, ¬ Relation.TransGen (RuleDependsOn rules) v v := by
  have hheads : ∀ {v d}, Relation.TransGen (RuleDependsOn rules) v d → d ∈ heads rules →
      Relation.TransGen (HeadDependsOn rules) v d := by
    intro v d hpath
    induction hpath with
    | single hvd => exact fun hd => .single ⟨hvd, hd⟩
    | tail _ hlast ih => exact fun hd => (ih hlast.mem_heads).tail ⟨hlast, hd⟩
  constructor
  · intro h v hcycle
    obtain ⟨d, hvd, -⟩ := Relation.TransGen.head'_iff.mp hcycle
    exact h v (hheads hcycle hvd.mem_heads)
  · exact fun h v hcycle => h v (Relation.TransGen.mono (fun _ _ hvd => hvd.1) _ _ hcycle)

theorem RulesAcyclic.of_subset {rules rules' : List Rule} (h : RulesAcyclic rules')
    (hsub : ∀ r ∈ rules, r ∈ rules') : RulesAcyclic rules := by
  rw [acyclic_iff] at h ⊢
  refine fun v hcycle => h v (Relation.TransGen.mono ?_ _ _ hcycle)
  rintro v d ⟨rule, hrule, hhead, hd⟩
  exact ⟨rule, hsub rule hrule, hhead, hd⟩

namespace StratificationAnalyzer

/-! ## The map -/

/-- The map of the analyzer holds the dependencies of some rules. -/
structure Reflects (a : StratificationAnalyzer) (rules : List Rule) : Prop where
  keys : ∀ v, v ∈ a.dependencies.keys ↔ v ∈ heads rules
  deps : ∀ v d, d ∈ a.deps v ↔ RuleDependsOn rules v d

theorem Reflects.new : Reflects new [] where
  keys v := by simp [StratificationAnalyzer.new, heads]
  deps v d := by simp [StratificationAnalyzer.new, StratificationAnalyzer.deps, RuleDependsOn]

variable {rules : List Rule} {strata : List (List String)}

theorem Reflects.congr {a : StratificationAnalyzer} {rules' : List Rule} (h : a.Reflects rules)
    (hsame : ∀ r, r ∈ rules ↔ r ∈ rules') : a.Reflects rules' where
  keys v := by
    rw [h.keys]
    simp [heads, hsame]
  deps v d := by
    rw [h.deps]
    simp [RuleDependsOn, hsame]

theorem Reflects.addRule {a : StratificationAnalyzer} (h : a.Reflects rules) (rule : Rule) :
    (a.addRule rule).Reflects (rule :: rules) where
  keys v := by
    rw [← AList.mem_keys, StratificationAnalyzer.addRule, AList.mem_insert, AList.mem_keys,
      h.keys]
    simp [heads]
  deps v d := by
    unfold StratificationAnalyzer.deps StratificationAnalyzer.addRule
    by_cases hv : v = rule.head.name
    · subst hv
      dsimp only
      rw [AList.lookup_insert, Option.getD_some, List.mem_union_iff, h.deps]
      simp [RuleDependsOn, or_comm]
    · have hdeps := h.deps v d
      unfold StratificationAnalyzer.deps at hdeps
      dsimp only
      rw [AList.lookup_insert_ne hv, hdeps]
      simp [RuleDependsOn, Ne.symm hv]

theorem Reflects.addRules {a : StratificationAnalyzer} (h : a.Reflects rules) (l : List Rule) :
    (l.foldl StratificationAnalyzer.addRule a).Reflects (l.reverse ++ rules) := by
  induction l generalizing a rules with
  | nil => exact h
  | cons rule l ih =>
    rw [List.foldl_cons, List.reverse_cons, List.append_assoc]
    exact ih (h.addRule rule)

theorem foldl_getRules (a : StratificationAnalyzer) (kb : KnowledgeBase) (names : List String) :
    names.foldl (fun a name => (kb.getRules name).foldl addRule a) a
      = (names.flatMap kb.getRules).foldl addRule a := by
  induction names generalizing a with
  | nil => rfl
  | cons name names ih => rw [List.foldl_cons, ih, List.flatMap_cons, List.foldl_append]

/-- **A knowledge base is added** to what the analyzer holds. -/
theorem Reflects.build {a : StratificationAnalyzer} (h : a.Reflects rules) (names : HashOrder)
    (kb : KnowledgeBase) : (a.buildDependencyGraph names kb).Reflects (rules ++ kb.rules) := by
  rw [buildDependencyGraph, foldl_getRules]
  refine (h.addRules _).congr (fun r => ?_)
  simp only [List.mem_append, List.mem_reverse, List.mem_flatMap, (names.perm _).mem_iff,
    List.mem_dedup, List.mem_map, KnowledgeBase.mem_getRules]
  constructor
  · rintro (⟨name, -, hr, -⟩ | hr)
    · exact .inr hr
    · exact .inl hr
  · rintro (hr | hr)
    · exact .inr hr
    · exact .inl ⟨r.head.name, ⟨r, hr, rfl⟩, hr, rfl⟩

/-! ## The cycle search -/

variable {a : StratificationAnalyzer} {neighbors : String → HashOrder}

/-- What follows a predicate in the search. -/
def next (a : StratificationAnalyzer) (neighbors : String → HashOrder) (node : String) :
    List String :=
  (neighbors node).order (a.deps node)

theorem mem_next {node d : String} : d ∈ a.next neighbors node ↔ d ∈ a.deps node :=
  ((neighbors node).perm _).mem_iff

/-- The predicates that a search can meet. -/
def support (a : StratificationAnalyzer) : List String :=
  a.dependencies.keys ++ a.dependencies.keys.flatMap a.deps

theorem mem_support_of_deps {node d : String} (h : d ∈ a.deps node) : d ∈ a.support := by
  have hkey : node ∈ a.dependencies.keys := by
    by_contra hnot
    rw [← AList.mem_keys, ← AList.lookup_eq_none] at hnot
    rw [deps, hnot] at h
    cases h
  exact List.mem_append_right _ (List.mem_flatMap.mpr ⟨node, hkey, h⟩)

/-- What a search from one predicate, or from several, ends in: a cycle was found, or the
predicates are finished. -/
def Searched (a : StratificationAnalyzer) (neighbors : String → HashOrder) (s : DfsState)
    (nodes : List String) (found : Bool) (s' : DfsState) : Prop :=
  if found then ∃ v, DepthFirst.Leads (a.next neighbors) v v
  else DepthFirst.Inv (a.next neighbors) s'.visited s'.recStack ∧ s'.recStack = s.recStack ∧
    (∀ x ∈ s.visited, x ∈ s'.visited) ∧ ∀ x ∈ nodes, x ∈ s'.visited ∧ x ∉ s.recStack

/-- The predicates of a list follow the newest one of the path. -/
def Follows (a : StratificationAnalyzer) (neighbors : String → HashOrder) (s : DfsState)
    (nodes : List String) : Prop :=
  ∀ node ∈ nodes, node ∈ a.support ∧ ∀ p ∈ s.recStack.head?, node ∈ a.next neighbors p

theorem anyCycle_spec {depth : Nat} {hasCycle : String → DfsState → Option (Bool × DfsState)}
    (hone : ∀ node s, DepthFirst.Inv (a.next neighbors) s.visited s.recStack →
      a.Follows neighbors s [node] → Worklist.unmarked a.support s.visited < depth →
      ∃ found s', hasCycle node s = some (found, s') ∧ a.Searched neighbors s [node] found s')
    (nodes : List String) {s : DfsState}
    (hinv : DepthFirst.Inv (a.next neighbors) s.visited s.recStack)
    (hnodes : a.Follows neighbors s nodes)
    (hdepth : Worklist.unmarked a.support s.visited < depth) :
    ∃ found s', anyCycle hasCycle nodes s = some (found, s') ∧
      a.Searched neighbors s nodes found s' := by
  induction nodes generalizing s with
  | nil => exact ⟨false, s, rfl, hinv, rfl, fun _ hx => hx, by simp⟩
  | cons node nodes ih =>
    obtain ⟨hnode, hrest⟩ := List.forall_mem_cons.mp hnodes
    obtain ⟨found, s', hrun, hspec⟩ := hone node s hinv (by simpa [Follows] using hnode) hdepth
    cases found with
    | true => exact ⟨true, s', by rw [anyCycle, hrun], hspec⟩
    | false =>
      obtain ⟨hinv', hstack, hmono, hdone⟩ := hspec
      have hle := Worklist.unmarked_le a.support hmono
      have hrest' : a.Follows neighbors s' nodes := by
        unfold Follows
        rw [hstack]
        exact hrest
      obtain ⟨found, s'', hrun', hspec'⟩ := ih hinv' hrest' (by omega)
      have hloop : anyCycle hasCycle (node :: nodes) s = some (found, s'') := by
        rw [anyCycle, hrun]
        exact hrun'
      refine ⟨found, s'', hloop, ?_⟩
      cases found with
      | true => exact hspec'
      | false =>
        obtain ⟨hinv'', hstack', hmono', hdone'⟩ := hspec'
        refine ⟨hinv'', hstack'.trans hstack, fun x hx => hmono' x (hmono x hx), ?_⟩
        intro x hx
        rcases List.mem_cons.mp hx with rfl | hx
        · obtain ⟨hvisited, hpath⟩ := hdone x List.mem_cons_self
          exact ⟨hmono' x hvisited, hpath⟩
        · rw [← hstack]
          exact hdone' x hx

/-- **The search from one predicate** ends if its depth exceeds what is not visited. -/
theorem hasCycleUtil_spec (depth : Nat) : ∀ (node : String) (s : DfsState),
    DepthFirst.Inv (a.next neighbors) s.visited s.recStack → a.Follows neighbors s [node] →
    Worklist.unmarked a.support s.visited < depth →
    ∃ found s', a.hasCycleUtil neighbors depth node s = some (found, s') ∧
      a.Searched neighbors s [node] found s' := by
  induction depth with
  | zero =>
    intro node s _ _ hdepth
    omega
  | succ depth ih =>
    intro node s hinv hnode hdepth
    obtain ⟨hsupport, hnext⟩ := hnode node List.mem_cons_self
    by_cases hpath : node ∈ s.recStack
    · exact ⟨true, s, by rw [hasCycleUtil, if_pos hpath], node, hinv.cycle hpath hnext⟩
    · by_cases hvisited : node ∈ s.visited
      · refine ⟨false, s, by rw [hasCycleUtil, if_neg hpath, if_pos hvisited], ?_⟩
        exact ⟨hinv, rfl, fun _ hx => hx, by simp [hvisited, hpath]⟩
      · have hlt := Worklist.unmarked_cons_lt hsupport hvisited
        have hfollows : a.Follows neighbors
            { visited := node :: s.visited, recStack := node :: s.recStack }
            (a.next neighbors node) := by
          intro d hd
          refine ⟨mem_support_of_deps (mem_next.mp hd), fun p hp => ?_⟩
          rw [List.head?_cons, Option.mem_some_iff] at hp
          rwa [← hp]
        obtain ⟨found, s', hrun, hspec⟩ :=
          anyCycle_spec ih (a.next neighbors node) (hinv.enter hvisited hnext) hfollows
            (by dsimp only; omega)
        have hstep : a.hasCycleUtil neighbors (depth + 1) node s
            = if found then some (true, s')
              else some (false, { s' with recStack := s'.recStack.erase node }) := by
          rw [hasCycleUtil, if_neg hpath, if_neg hvisited]
          unfold next at hrun
          dsimp only
          rw [hrun]
          cases found <;> rfl
        cases found with
        | true => exact ⟨true, s', hstep, hspec⟩
        | false =>
          obtain ⟨hinv', hstack, hmono, hdone⟩ := hspec
          dsimp only at hstack hmono hdone
          refine ⟨false, _, hstep, ?_⟩
          rw [hstack] at hinv'
          have herase : s'.recStack.erase node = s.recStack := by
            rw [hstack, List.erase_cons_head]
          refine ⟨?_, herase, fun x hx => hmono x (List.mem_cons_of_mem _ hx), ?_⟩
          · dsimp only
            rw [herase]
            exact hinv'.leave hdone
          · intro x hx
            rw [List.mem_singleton.mp hx]
            exact ⟨hmono node List.mem_cons_self, hpath⟩

theorem leads_iff (h : a.Reflects rules) {v d : String} :
    DepthFirst.Leads (a.next neighbors) v d ↔ Relation.TransGen (RuleDependsOn rules) v d := by
  have hsame : (fun v d => d ∈ a.next neighbors v) = RuleDependsOn rules := by
    funext v d
    rw [eq_iff_iff, mem_next, h.deps]
  unfold DepthFirst.Leads
  rw [hsame]

/-- **The search** finds a cycle exactly if there is one. -/
theorem hasCycles_spec (h : a.Reflects rules) (o : HashOrders) {depth : Nat}
    (hdepth : a.support.length < depth) :
    ∃ found, a.hasCycles o depth = some found ∧ (found = true ↔ ¬ RulesAcyclic rules) := by
  have hroots : a.Follows o.neighbors { visited := [], recStack := [] }
      (o.keys.order a.dependencies.keys) := by
    intro node hnode
    refine ⟨List.mem_append_left _ ((o.keys.perm _).mem_iff.mp hnode), ?_⟩
    simp
  have hle : Worklist.unmarked a.support [] ≤ a.support.length := List.length_filter_le _ _
  obtain ⟨found, s, hrun, hspec⟩ := anyCycle_spec (hasCycleUtil_spec depth)
    (o.keys.order a.dependencies.keys) DepthFirst.Inv.init hroots (by dsimp only; omega)
  refine ⟨found, by rw [hasCycles, hrun]; rfl, ?_⟩
  rw [acyclic_iff]
  cases found with
  | true =>
    obtain ⟨v, hv⟩ := hspec
    exact iff_of_true rfl (fun hacyclic => hacyclic v ((leads_iff h).mp hv))
  | false =>
    obtain ⟨hinv, hstack, -, hdone⟩ := hspec
    refine iff_of_false Bool.false_ne_true (not_not.mpr (fun v hcycle => ?_))
    obtain ⟨d, hvd, -⟩ := Relation.TransGen.head'_iff.mp hcycle
    have hkey : v ∈ o.keys.order a.dependencies.keys :=
      (o.keys.perm _).mem_iff.mpr ((h.keys v).mpr hvd.mem_heads)
    rw [hstack] at hinv
    exact hinv.no_cycle (hdone v hkey).1 ((leads_iff h).mpr hcycle)

/-! ## Strata -/

/-- What holds before each round: the strata and what remains are the keys, and what a
predicate of a stratum rests on is in an earlier one. -/
structure Layered (a : StratificationAnalyzer) (s : StrataState) : Prop where
  perm : (s.strata.flatten ++ s.remaining).Perm a.dependencies.keys
  below : ∀ (i : Nat) (stratum : List String), s.strata[i]? = some stratum →
    ∀ p ∈ stratum, ∀ d ∈ a.deps p, d ∈ a.dependencies.keys →
      ∃ j < i, ∃ lower : List String, s.strata[j]? = some lower ∧ d ∈ lower

theorem Layered.init : a.Layered { strata := [], remaining := a.dependencies.keys } where
  perm := List.Perm.refl _
  below i stratum h := by simp at h

/-- A round adds a stratum to what is layered, and takes it from what remains. -/
theorem strataBody_again {remainingOrder : Nat → HashOrder} {s s' : StrataState}
    (hs : a.Layered s) (hb : a.strataBody remainingOrder s = .inl s') :
    a.Layered s' ∧ s'.remaining.length < s.remaining.length := by
  unfold strataBody at hb
  split at hb
  · cases hb
  · dsimp only at hb
    generalize hstratum : ((remainingOrder s.strata.length).order s.remaining).filter
      (fun pred => !(a.deps pred).any (fun d => s.remaining.contains d)) = stratum at hb
    split at hb
    · cases hb
    · next hne =>
      cases hb
      have hmem : ∀ p, p ∈ stratum ↔ p ∈ s.remaining ∧ ∀ d ∈ a.deps p, d ∉ s.remaining := by
        intro p
        rw [← hstratum, List.mem_filter, ((remainingOrder _).perm _).mem_iff]
        simp
      have hnodup : s.remaining.Nodup :=
        ((List.perm_append_comm.trans hs.perm).nodup_iff.mpr
          a.dependencies.keys_nodup).of_append_left
      have hstratumNodup : stratum.Nodup := by
        rw [← hstratum]
        exact (((remainingOrder _).perm _).nodup_iff.mpr hnodup).filter _
      have htaken : (s.remaining.filter (fun p => stratum.contains p)).Perm stratum := by
        refine (List.perm_ext_iff_of_nodup (hnodup.filter _) hstratumNodup).mpr (fun p => ?_)
        simp only [List.mem_filter, List.contains_iff_mem]
        exact ⟨And.right, fun hp => ⟨((hmem p).mp hp).1, hp⟩⟩
      have hsplit : (stratum ++ s.remaining.filter (fun p => !stratum.contains p)).Perm
          s.remaining :=
        (htaken.symm.append_right _).trans (List.filter_append_perm _ _)
      refine ⟨⟨?_, ?_⟩, ?_⟩
      · dsimp only
        rw [List.flatten_append, List.flatten_singleton, List.append_assoc]
        exact (hsplit.append_left _).trans hs.perm
      · intro i t ht p hp d hd hkey
        dsimp only at ht ⊢
        -- a stratum from before, or the new one
        by_cases hi : i < s.strata.length
        · rw [List.getElem?_append_left hi] at ht
          obtain ⟨j, hj, lower, hlower, hdl⟩ := hs.below i t ht p hp d hd hkey
          refine ⟨j, hj, lower, ?_, hdl⟩
          rw [List.getElem?_append_left (by omega)]
          exact hlower
        · rw [List.getElem?_append_right (by omega)] at ht
          obtain ⟨hi', rfl⟩ : i = s.strata.length ∧ t = stratum := by
            rw [List.getElem?_singleton] at ht
            split at ht
            · exact ⟨by omega, (Option.some.inj ht).symm⟩
            · cases ht
          have hnot := ((hmem p).mp hp).2 d hd
          have hdone : d ∈ s.strata.flatten :=
            (List.mem_append.mp (hs.perm.mem_iff.mpr hkey)).resolve_right hnot
          obtain ⟨lower, hlower, hdl⟩ := List.mem_flatten.mp hdone
          obtain ⟨j, hj⟩ := List.getElem?_of_mem hlower
          have hjlt : j < s.strata.length := (List.getElem?_eq_some_iff.mp hj).1
          refine ⟨j, by omega, lower, ?_, hdl⟩
          rw [List.getElem?_append_left hjlt]
          exact hj
      · have hlen := hsplit.length_eq
        rw [List.length_append] at hlen
        have hpos : 0 < stratum.length := by
          rw [List.length_pos_iff]
          simpa using hne
        dsimp only
        omega

/-- Without cycles the loop ends with nothing remaining. -/
theorem strataBody_leave (h : a.Reflects rules) (hacyclic : RulesAcyclic rules)
    {remainingOrder : Nat → HashOrder} {s : StrataState}
    (hb : a.strataBody remainingOrder s = .inr strata) : s.remaining = [] ∧ strata = s.strata := by
  unfold strataBody at hb
  split at hb
  · next hempty =>
    cases hb
    exact ⟨by simpa using hempty, rfl⟩
  · next hne =>
    exfalso
    have hcycle : Topo.NoCycle a.deps := by
      rw [acyclic_iff] at hacyclic
      intro v hv
      refine hacyclic v ?_
      have hswap : (fun u v => u ∈ a.deps v) = Function.swap (RuleDependsOn rules) := by
        funext u v
        exact propext (h.deps v u)
      rw [hswap, Relation.transGen_swap] at hv
      exact hv
    obtain ⟨p, hp, hready⟩ := hcycle.exists_ready (l := s.remaining) (by simpa using hne)
    dsimp only at hb
    split at hb
    · next hnone =>
      rw [List.isEmpty_iff, List.filter_eq_nil_iff] at hnone
      refine hnone p (((remainingOrder _).perm _).mem_iff.mpr hp) ?_
      simpa using hready
    · cases hb

/-- **The strata** of a graph without cycles. -/
theorem computeStrata_spec (h : a.Reflects rules) (hacyclic : RulesAcyclic rules) (o : HashOrders)
    {rounds : Nat} (hrounds : a.dependencies.keys.length < rounds) :
    ∃ strata, a.computeStrata o rounds = some strata ∧ a.Layered { strata, remaining := [] } := by
  obtain ⟨r, rfl⟩ : ∃ r, rounds = r + 1 := ⟨rounds - 1, by omega⟩
  have hagain : ∀ s s', a.Layered s → a.strataBody o.remaining s = .inl s' →
      a.Layered s' ∧ s'.remaining.length < s.remaining.length :=
    fun _ _ hs hb => strataBody_again hs hb
  obtain ⟨strata, hrun⟩ := Loop.run_of_measure a.Layered (fun s => s.remaining.length)
    hagain r Layered.init (show a.dependencies.keys.length ≤ r by omega)
  obtain ⟨s, hs, hleave⟩ := Loop.run_inv (fun s s' hs hb => (hagain s s' hs hb).1)
    Layered.init hrun
  obtain ⟨hnil, rfl⟩ := strataBody_leave h hacyclic hleave
  obtain ⟨strata, remaining⟩ := s
  cases hnil
  exact ⟨strata, hrun, hs⟩

/-! ## An analysis -/

/-- The result is `stratifiable` exactly for acyclic rules, and then its strata list each
head predicate once, above the head predicates that it depends on. -/
def Exact (rules : List Rule) (result : StratificationResult) : Prop :=
  ((∃ strata, result = .stratifiable strata) ↔ RulesAcyclic rules) ∧
  ∀ strata, result = .stratifiable strata →
    (∀ p ∈ heads rules, strata.flatten.count p = 1) ∧
    ∀ (i : Nat) (stratum : List String), strata[i]? = some stratum → ∀ p ∈ stratum,
      ∀ d, HeadDependsOn rules p d →
        ∃ j < i, ∃ lower : List String, strata[j]? = some lower ∧ d ∈ lower

/-- The strata list nothing but head predicates. -/
def HeadsOnly (rules : List Rule) (result : StratificationResult) : Prop :=
  ∀ strata, result = .stratifiable strata → ∀ p ∈ strata.flatten, p ∈ heads rules

/-- An analyzer that was used on some knowledge bases. -/
inductive Used : List KnowledgeBase → StratificationAnalyzer → Prop where
  | new : Used [] StratificationAnalyzer.new
  | analyze {earlier : List KnowledgeBase} {a a' : StratificationAnalyzer} {o : HashOrders}
      {rounds : Nat} {kb : KnowledgeBase} {result : StratificationResult}
      (ha : Used earlier a) (hrun : a.analyze o rounds kb = some (result, a')) :
      Used (earlier ++ [kb]) a'

/-- The rules of some knowledge bases. -/
def rulesOf (kbs : List KnowledgeBase) : List Rule := kbs.flatMap KnowledgeBase.rules

theorem analyze_state {o : HashOrders} {rounds : Nat} {kb : KnowledgeBase}
    {result : StratificationResult} {a' : StratificationAnalyzer}
    (hrun : a.analyze o rounds kb = some (result, a')) :
    a' = a.buildDependencyGraph o.names kb := by
  unfold analyze at hrun
  dsimp only at hrun
  split at hrun
  · cases hrun
  · cases hrun
    rfl
  · obtain ⟨strata, -, heq⟩ := Option.map_eq_some_iff.mp hrun
    cases heq
    rfl

/-- **The map is never cleared**: it holds the rules of all knowledge bases so far. -/
theorem Used.reflects {earlier : List KnowledgeBase} (h : Used earlier a) :
    a.Reflects (rulesOf earlier) := by
  induction h with
  | new => exact Reflects.new
  | analyze _ hrun ih =>
    rw [analyze_state hrun]
    refine (ih.build _ _).congr (fun r => ?_)
    simp [rulesOf]

/-- An analysis ends, and is exact for the map that it leaves. -/
theorem analyze_spec (h : a.Reflects rules) (o : HashOrders) (kb : KnowledgeBase) :
    ∃ n, ∀ rounds ≥ n, ∃ result a', a.analyze o rounds kb = some (result, a') ∧
      (¬ RulesAcyclic (rules ++ kb.rules) → result = .nonStratifiable) ∧
      (RulesAcyclic (rules ++ kb.rules) → ∃ strata, result = .stratifiable strata ∧
        a'.Reflects (rules ++ kb.rules) ∧ a'.Layered { strata, remaining := [] }) := by
  have hbuilt := h.build o.names kb
  refine ⟨(a.buildDependencyGraph o.names kb).support.length + 1, fun rounds hrounds => ?_⟩
  obtain ⟨found, hcycles, hfound⟩ := hasCycles_spec hbuilt o
    (show (a.buildDependencyGraph o.names kb).support.length < rounds by omega)
  cases found with
  | true =>
    refine ⟨.nonStratifiable, _, by rw [analyze, hcycles], fun _ => rfl, ?_⟩
    exact fun hacyclic => absurd hacyclic (hfound.mp rfl)
  | false =>
    have hacyclic : RulesAcyclic (rules ++ kb.rules) := by
      by_contra hnot
      exact Bool.false_ne_true (hfound.mpr hnot)
    have hkeys : (a.buildDependencyGraph o.names kb).dependencies.keys.length < rounds := by
      rw [support, List.length_append] at hrounds
      omega
    obtain ⟨strata, hrun, hlayered⟩ := computeStrata_spec hbuilt hacyclic o hkeys
    refine ⟨.stratifiable strata, _, ?_, fun hnot => absurd hacyclic hnot,
      fun _ => ⟨strata, rfl, hbuilt, hlayered⟩⟩
    rw [analyze, hcycles]
    dsimp only
    rw [hrun]
    rfl

theorem Layered.mem_flatten (hlayered : a.Layered { strata, remaining := [] })
    (h : a.Reflects rules) {p : String} : p ∈ strata.flatten ↔ p ∈ heads rules := by
  have hperm := hlayered.perm
  rw [List.append_nil] at hperm
  rw [hperm.mem_iff, h.keys]

/-- The strata of more rules are exact for some of them. -/
theorem Layered.exact {own : List Rule} (hlayered : a.Layered { strata, remaining := [] })
    (h : a.Reflects rules) (hsub : ∀ r ∈ own, r ∈ rules) (hacyclic : RulesAcyclic own) :
    Exact own (.stratifiable strata) := by
  have hheads : ∀ p ∈ heads own, p ∈ heads rules := by
    intro p hp
    obtain ⟨r, hr, rfl⟩ := List.mem_map.mp hp
    exact List.mem_map_of_mem (hsub r hr)
  refine ⟨iff_of_true ⟨strata, rfl⟩ hacyclic, ?_⟩
  rintro _ ⟨⟩
  have hperm := hlayered.perm
  rw [List.append_nil] at hperm
  refine ⟨fun p hp => ?_, ?_⟩
  · have hnodup := hperm.nodup_iff.mpr a.dependencies.keys_nodup
    exact List.count_eq_one_of_mem hnodup ((hlayered.mem_flatten h).mpr (hheads p hp))
  · rintro i stratum hi p hp d ⟨⟨rule, hrule, hhead, hd⟩, hdhead⟩
    exact hlayered.below i stratum hi p hp d
      ((h.deps p d).mpr ⟨rule, hsub rule hrule, hhead, hd⟩) ((h.keys d).mpr (hheads d hdhead))

/-- **Exactness** of the analysis of a knowledge base by an analyzer that was used before:
it is exact exactly if the earlier rules make no cycle of an acyclic knowledge base, and
the strata hold nothing else exactly if, besides, the earlier heads are heads of it. -/
theorem analyze_exact_iff {earlier : List KnowledgeBase} (ha : Used earlier a) (o : HashOrders)
    (kb : KnowledgeBase) :
    ∃ n, ∀ rounds ≥ n, ∃ result a', a.analyze o rounds kb = some (result, a') ∧
      (Exact kb.rules result
        ↔ (RulesAcyclic kb.rules → RulesAcyclic (rulesOf earlier ++ kb.rules))) ∧
      (Exact kb.rules result ∧ HeadsOnly kb.rules result
        ↔ (RulesAcyclic kb.rules → RulesAcyclic (rulesOf earlier ++ kb.rules) ∧
            ∀ p ∈ heads (rulesOf earlier), p ∈ heads kb.rules)) := by
  obtain ⟨n, hspec⟩ := analyze_spec ha.reflects o kb
  refine ⟨n, fun rounds hrounds => ?_⟩
  obtain ⟨result, a', hrun, hcyclic, hacyclic⟩ := hspec rounds hrounds
  refine ⟨result, a', hrun, ?_⟩
  have hsub : ∀ r ∈ kb.rules, r ∈ rulesOf earlier ++ kb.rules :=
    fun r hr => List.mem_append_right _ hr
  by_cases hall : RulesAcyclic (rulesOf earlier ++ kb.rules)
  · have hown : RulesAcyclic kb.rules := hall.of_subset hsub
    obtain ⟨strata, rfl, hreflects, hlayered⟩ := hacyclic hall
    have hexact := hlayered.exact hreflects hsub hown
    refine ⟨iff_of_true hexact (fun _ => hall), ?_⟩
    constructor
    · rintro ⟨-, honly⟩ -
      refine ⟨hall, fun p hp => honly strata rfl p ((hlayered.mem_flatten hreflects).mpr ?_)⟩
      rw [heads, List.map_append, List.mem_append]
      exact .inl hp
    · intro hcond
      refine ⟨hexact, ?_⟩
      rintro _ ⟨⟩ p hp
      rw [hlayered.mem_flatten hreflects, heads, List.map_append, List.mem_append] at hp
      exact hp.elim ((hcond hown).2 p) id
  · have hresult := hcyclic hall
    subst hresult
    have hiff : Exact kb.rules .nonStratifiable ↔ ¬ RulesAcyclic kb.rules := by
      unfold Exact
      simp
    rw [hiff]
    have honly : HeadsOnly kb.rules .nonStratifiable := by
      rintro strata ⟨⟩
    simp [hall, honly]

section

/-- A rule between predicates without arguments. -/
def plainRule (head : String) (body : List String) : Rule :=
  { head := { name := head, args := [] }, body := body.map (fun b => { name := b, args := [] }) }

def listOrder : HashOrder := ⟨id, List.Perm.refl⟩

def listOrders : HashOrders :=
  { names := listOrder, keys := listOrder, neighbors := fun _ => listOrder,
    remaining := fun _ => listOrder }

/-- A fresh analyzer on a chain of two rules. -/
theorem analyze_exact_iff_chain :
    ∃ n, ∀ rounds ≥ n, ∃ result a',
      new.analyze listOrders rounds { rules := [plainRule "p" ["q"], plainRule "q" ["r"]] }
        = some (result, a') ∧
      Exact [plainRule "p" ["q"], plainRule "q" ["r"]] result := by
  obtain ⟨n, hn⟩ := analyze_exact_iff Used.new listOrders
    { rules := [plainRule "p" ["q"], plainRule "q" ["r"]] }
  refine ⟨n, fun rounds hrounds => ?_⟩
  obtain ⟨result, a', hrun, hexact, -⟩ := hn rounds hrounds
  exact ⟨result, a', hrun, hexact.mpr id⟩

/-- `a :- b` analyzed first makes a cycle of `b :- a`. -/
theorem not_analyze_exact :
    ¬ ∀ (earlier : List KnowledgeBase) (a : StratificationAnalyzer), Used earlier a →
      ∀ (o : HashOrders) (kb : KnowledgeBase) (rounds : Nat) (result : StratificationResult)
        (a' : StratificationAnalyzer), a.analyze o rounds kb = some (result, a') →
          Exact kb.rules result := by
  intro h
  have hfirst : new.analyze listOrders 5 { rules := [plainRule "a" ["b"]] }
      = some (.stratifiable [["a"]],
          new.buildDependencyGraph listOrder { rules := [plainRule "a" ["b"]] }) := by
    rfl
  have hsecond : (new.buildDependencyGraph listOrder
      { rules := [plainRule "a" ["b"]] }).analyze listOrders 5 { rules := [plainRule "b" ["a"]] }
      = some (.nonStratifiable, (new.buildDependencyGraph listOrder
          { rules := [plainRule "a" ["b"]] }).buildDependencyGraph listOrder
            { rules := [plainRule "b" ["a"]] }) := by
    rfl
  have hexact := h _ _ (.analyze .new hfirst) listOrders _ 5 _ _ hsecond
  have hacyclic : RulesAcyclic [plainRule "b" ["a"]] := by
    intro v hv
    obtain ⟨d, hd, -⟩ := Relation.TransGen.head'_iff.mp hv
    obtain ⟨⟨rule, hrule, -, hbody⟩, hhead⟩ := hd
    rw [List.mem_singleton.mp hrule] at hbody
    simp [plainRule, heads] at hbody hhead
    simp [hbody] at hhead
  obtain ⟨strata, hstrata⟩ := hexact.1.mpr hacyclic
  cases hstrata

end

end StratificationAnalyzer

end Ipfrs.TensorLogic
