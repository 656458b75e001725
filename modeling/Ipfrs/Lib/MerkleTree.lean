/-
Ipfrs.Lib.MerkleTree — positions and nodes of a complete binary tree, and trees whose odd
last node is paired with itself.

The node at a position of a level combines its two children on the level below. A set of
leaves covers their ancestors; at each level the siblings of covered positions that are
not covered themselves are needed besides (`Needed`). Covered and needed positions of a
level together hold with a child its sibling, and their parents are the covered positions
of the next level (`covered_succ_iff`), so the needed nodes suffice to compute upwards.
-/
import Mathlib.Algebra.Order.Ring.Nat
import Mathlib.Data.List.Induction

namespace Ipfrs.Lib.MerkleTree

/-! ## Nodes -/

section

variable {V : Type} (combine : V → V → V)

/-- The node at a position of a level. -/
def node (leaf : Nat → V) : Nat → Nat → V
  | 0, pos => leaf pos
  | level + 1, pos => combine (node leaf level (pos * 2)) (node leaf level (pos * 2 + 1))

/-- A level can be taken for the leaves. -/
theorem node_node (leaf : Nat → V) (base level pos : Nat) :
    node combine (node combine leaf base) level pos = node combine leaf (base + level) pos := by
  induction level generalizing pos with
  | zero => rfl
  | succ level ih => rw [node, ih, ih, ← Nat.add_assoc, node]

/-- A node depends on the leaves below it only. -/
theorem node_congr {leaf leaf' : Nat → V} (level pos : Nat)
    (h : ∀ i, i / 2 ^ level = pos → leaf i = leaf' i) :
    node combine leaf level pos = node combine leaf' level pos := by
  induction level generalizing pos with
  | zero => exact h pos (by simp)
  | succ level ih =>
    have hup : ∀ i p, i / 2 ^ level = p → i / 2 ^ (level + 1) = p / 2 := by
      intro i p hi
      rw [pow_succ, ← Nat.div_div_eq_div_mul, hi]
    rw [node, node, ih (pos * 2) (fun i hi => h i (by rw [hup i _ hi]; omega)),
      ih (pos * 2 + 1) (fun i hi => h i (by rw [hup i _ hi]; omega))]

end

/-! ## Positions -/

/-- The other child of the same parent. -/
def sibling (pos : Nat) : Nat := if pos % 2 = 0 then pos + 1 else pos - 1

@[simp] theorem sibling_sibling (pos : Nat) : sibling (sibling pos) = pos := by
  unfold sibling
  split
  · rw [if_neg (by omega)]
    omega
  · rw [if_pos (by omega)]
    omega

@[simp] theorem sibling_div_two (pos : Nat) : sibling pos / 2 = pos / 2 := by
  unfold sibling
  split
  · omega
  · omega

theorem sibling_injective {p q : Nat} (h : sibling p = sibling q) : p = q := by
  rw [← sibling_sibling p, h, sibling_sibling]

/-- Positions of one parent are equal or siblings. -/
theorem eq_or_eq_sibling {p q : Nat} (h : p / 2 = q / 2) : p = q ∨ p = sibling q := by
  unfold sibling
  split
  · omega
  · omega

/-- The position is an ancestor, `level` levels up, of one of the leaves. -/
def Covered (leaves : Nat → Prop) (level pos : Nat) : Prop :=
  ∃ i, leaves i ∧ i / 2 ^ level = pos

/-- The position is not covered and its sibling is. -/
def Needed (leaves : Nat → Prop) (level pos : Nat) : Prop :=
  ¬ Covered leaves level pos ∧ Covered leaves level (sibling pos)

variable {leaves : Nat → Prop}

@[simp] theorem covered_zero (pos : Nat) : Covered leaves 0 pos ↔ leaves pos := by
  simp [Covered]

/-- The covered positions of a level are the parents of those below. -/
theorem covered_succ (level pos : Nat) :
    Covered leaves (level + 1) pos ↔ ∃ p, Covered leaves level p ∧ p / 2 = pos := by
  constructor
  · intro h
    obtain ⟨i, hi, hpos⟩ := h
    rw [pow_succ, ← Nat.div_div_eq_div_mul] at hpos
    exact ⟨i / 2 ^ level, ⟨i, hi, rfl⟩, hpos⟩
  · intro h
    obtain ⟨p, ⟨i, hi, hp⟩, hpos⟩ := h
    refine ⟨i, hi, ?_⟩
    rw [pow_succ, ← Nat.div_div_eq_div_mul, hp, hpos]

/-- A position of a covered parent is covered or needed. -/
theorem covered_or_needed {level pos : Nat} (h : Covered leaves (level + 1) (pos / 2)) :
    Covered leaves level pos ∨ Needed leaves level pos := by
  obtain ⟨p, hp, hpos⟩ := (covered_succ level _).mp h
  by_cases hcov : Covered leaves level pos
  · exact .inl hcov
  · refine .inr ⟨hcov, ?_⟩
    rcases eq_or_eq_sibling hpos with rfl | rfl
    · exact absurd hp hcov
    · exact hp

theorem covered_of_covered_or_needed {level pos : Nat}
    (h : Covered leaves level pos ∨ Needed leaves level pos) :
    Covered leaves (level + 1) (pos / 2) := by
  rcases h with h | h
  · exact (covered_succ level _).mpr ⟨pos, h, rfl⟩
  · exact (covered_succ level _).mpr ⟨sibling pos, h.2, sibling_div_two pos⟩

/-- **A parent is covered** iff both its children are covered or needed. -/
theorem covered_succ_iff (level pos : Nat) : Covered leaves (level + 1) pos ↔
      (Covered leaves level (pos * 2) ∨ Needed leaves level (pos * 2)) ∧
        (Covered leaves level (pos * 2 + 1) ∨ Needed leaves level (pos * 2 + 1)) := by
  have hleft : pos * 2 / 2 = pos := by omega
  have hright : (pos * 2 + 1) / 2 = pos := by omega
  constructor
  · intro h
    exact ⟨covered_or_needed (by rwa [hleft]), covered_or_needed (by rwa [hright])⟩
  · intro h
    have := covered_of_covered_or_needed h.1
    rwa [hleft] at this

/-- A covered position lies within its level. -/
theorem Covered.lt {level pos height : Nat} (h : Covered leaves level pos)
    (hlt : ∀ i, leaves i → i < 2 ^ height) (hle : level ≤ height) : pos < 2 ^ (height - level) := by
  obtain ⟨i, hi, rfl⟩ := h
  rw [Nat.div_lt_iff_lt_mul (Nat.two_pow_pos level), ← pow_add, Nat.sub_add_cancel hle]
  exact hlt i hi

/-- So does a needed one, below the root. -/
theorem Needed.lt {level pos height : Nat} (h : Needed leaves level pos)
    (hlt : ∀ i, leaves i → i < 2 ^ height) (hle : level < height) : pos < 2 ^ (height - level) := by
  have hparent := (covered_of_covered_or_needed (.inr h)).lt hlt hle
  have hpow : 2 ^ (height - level) = 2 ^ (height - (level + 1)) * 2 := by
    rw [← pow_succ]
    congr 1
    omega
  omega

/-! ## Binding -/

/-- Hashes that combine upwards above the leaves and agree at the root agree at every
covered position, if none of the pairs combined there collide. -/
theorem eq_of_eq_top {V : Type} {combine : V → V → V} {height : Nat} {v w : Nat → Nat → V}
    (hlt : ∀ i, leaves i → i < 2 ^ height)
    (hv : ∀ l q, Covered leaves (l + 1) q →
      v (l + 1) q = combine (v l (q * 2)) (v l (q * 2 + 1)))
    (hw : ∀ l q, Covered leaves (l + 1) q →
      w (l + 1) q = combine (w l (q * 2)) (w l (q * 2 + 1)))
    (hfree : ∀ l q, l < height → Covered leaves (l + 1) q →
      combine (v l (q * 2)) (v l (q * 2 + 1)) = combine (w l (q * 2)) (w l (q * 2 + 1)) →
      v l (q * 2) = w l (q * 2) ∧ v l (q * 2 + 1) = w l (q * 2 + 1))
    (htop : v height 0 = w height 0) :
    ∀ (up level pos : Nat), level + up = height → Covered leaves level pos →
      v level pos = w level pos
  | 0, level, pos, hlevel, hcov => by
    have hpos := hcov.lt hlt (Nat.le_of_eq hlevel)
    obtain rfl : level = height := hlevel
    obtain rfl : pos = 0 := by simpa using hpos
    exact htop
  | up + 1, level, pos, hlevel, hcov => by
    have hparent : Covered leaves (level + 1) (pos / 2) :=
      (covered_succ level _).mpr ⟨pos, hcov, rfl⟩
    have heq := eq_of_eq_top hlt hv hw hfree htop up (level + 1) (pos / 2) (by omega) hparent
    rw [hv _ _ hparent, hw _ _ hparent] at heq
    obtain ⟨hleft, hright⟩ := hfree level (pos / 2) (by omega) hparent heq
    rcases Nat.mod_two_eq_zero_or_one pos with hpos | hpos
    · rwa [show pos / 2 * 2 = pos by omega] at hleft
    · rwa [show pos / 2 * 2 + 1 = pos by omega] at hright

end Ipfrs.Lib.MerkleTree

/-! ## Trees built level by level, an odd last node paired with itself

`up` combines the neighbours of a level, and `top` goes on until one node is left. A map
that respects the combination commutes with both, so the top over hashes and the top over
lists of leaves are images of one tree (`PairTree`). The path of a node up the levels is
its siblings in order: combining along it gives the top (`climb_path`).

With a collision-free hash the top determines the tree (`PairTree.hash_inj`), and the tree
is determined by its leaves, repeated ones included (`PairTree.leaves_inj`). -/

namespace Ipfrs.Lib

namespace PairedLevels

variable {V W : Type}

/-- The pairs of a level. A last node without a partner is paired with itself. -/
def pairs : List V → List (V × V)
  | left :: right :: rest => (left, right) :: pairs rest
  | [last] => [(last, last)]
  | [] => []

/-- The next level. -/
def up (combine : V → V → V) (level : List V) : List V :=
  (pairs level).map (fun p => combine p.1 p.2)

theorem length_pairs (level : List V) : (pairs level).length = (level.length + 1) / 2 := by
  induction level using pairs.induct with
  | case1 left right rest ih =>
    simp only [pairs, List.length_cons, ih]
    omega
  | case2 => simp [pairs]
  | case3 => simp [pairs]

@[simp] theorem length_up (combine : V → V → V) (level : List V) :
    (up combine level).length = (level.length + 1) / 2 := by
  simp [up, length_pairs]

/-- Where the sibling of a position stands: the last position is its own sibling if it has
no other. -/
def siblingIndex (size index : Nat) : Nat :=
  if index % 2 = 0 then min (index + 1) (size - 1) else index - 1

theorem siblingIndex_lt {size index : Nat} (h : index < size) : siblingIndex size index < size := by
  unfold siblingIndex
  split
  · omega
  · omega

/-- The pair of a position, in order. -/
theorem getElem?_pairs (level : List V) (index : Nat) (h : index < level.length) :
    ∃ v s, level[index]? = some v ∧ level[siblingIndex level.length index]? = some s ∧
      (pairs level)[index / 2]? = some (if index % 2 = 0 then (v, s) else (s, v)) := by
  induction level using pairs.induct generalizing index with
  | case1 left right rest ih =>
    match index, h with
    | 0, _ => exact ⟨left, right, by simp [siblingIndex, pairs]⟩
    | 1, _ => exact ⟨right, left, by simp [siblingIndex, pairs]⟩
    | index + 2, h =>
      simp only [List.length_cons] at h
      obtain ⟨v, s, hv, hs, hpair⟩ := ih index (by omega)
      have hsib : siblingIndex (rest.length + 1 + 1) (index + 2)
          = siblingIndex rest.length index + 2 := by
        unfold siblingIndex
        split
        · split
          · omega
          · omega
        · split
          · omega
          · omega
      have hhalf : (index + 2) / 2 = index / 2 + 1 := by omega
      have hmod : (index + 2) % 2 = index % 2 := by omega
      refine ⟨v, s, by simpa using hv, ?_, ?_⟩
      · simpa [hsib] using hs
      · simpa [pairs, hhalf, hmod] using hpair
  | case2 last =>
    obtain rfl : index = 0 := by simpa using h
    exact ⟨last, last, by simp [siblingIndex, pairs]⟩
  | case3 => simp at h

theorem mem_of_mem_pairs {level : List V} {p : V × V} (h : p ∈ pairs level) :
    p.1 ∈ level ∧ p.2 ∈ level := by
  induction level using pairs.induct with
  | case1 left right rest ih =>
    rcases List.mem_cons.mp h with rfl | h
    · simp
    · obtain ⟨hl, hr⟩ := ih h
      simp [hl, hr]
  | case2 last =>
    obtain rfl := List.mem_singleton.mp h
    simp
  | case3 => simp [pairs] at h

/-! ## The top -/

/-- The last node of the last level, with a number of rounds that suffices. -/
def top (combine : V → V → V) : Nat → List V → Option V
  | 0, level => level.getLast?
  | rounds + 1, level =>
    if 1 < level.length then top combine rounds (up combine level) else level.getLast?

/-- The levels one after the other. -/
def flat (combine : V → V → V) : Nat → List V → List V
  | 0, level => level
  | rounds + 1, level =>
    if 1 < level.length then level ++ flat combine rounds (up combine level) else level

/-- The pairs that are combined. -/
def inputs (combine : V → V → V) : Nat → List V → List (V × V)
  | 0, _ => []
  | rounds + 1, level =>
    if 1 < level.length then pairs level ++ inputs combine rounds (up combine level) else []

theorem up_ne_nil {combine : V → V → V} {level : List V} (h : level ≠ []) :
    up combine level ≠ [] := by
  have hpos : 0 < level.length := List.length_pos_iff.mpr h
  refine List.length_pos_iff.mp ?_
  rw [length_up]
  omega

/-- A level of more than one has fewer above it. -/
theorem length_up_lt {combine : V → V → V} {level : List V} (h : 1 < level.length) :
    (up combine level).length < level.length := by
  rw [length_up]
  omega

/-- After enough rounds one node is left. -/
theorem top_eq_some (combine : V → V → V) : ∀ (rounds : Nat) {level : List V}, level ≠ [] →
    ∃ v, top combine rounds level = some v
  | 0, _, h => ⟨_, List.getLast?_eq_some_getLast h⟩
  | rounds + 1, level, h => by
    rw [top]
    split
    · exact top_eq_some combine rounds (up_ne_nil h)
    · exact ⟨_, List.getLast?_eq_some_getLast h⟩

/-- The top stands last. -/
theorem getLast?_flat (combine : V → V → V) : ∀ (rounds : Nat) (level : List V),
    (flat combine rounds level).getLast? = top combine rounds level
  | 0, _ => rfl
  | rounds + 1, level => by
    rw [flat, top]
    split
    · next h =>
      have hne : level ≠ [] := by
        intro hnil
        simp [hnil] at h
      have hup : up combine level ≠ [] := up_ne_nil hne
      obtain ⟨v, hv⟩ := top_eq_some combine rounds hup
      simp [List.getLast?_append, getLast?_flat combine rounds, hv]
    · rfl

/-! ## Maps -/

theorem pairs_map (f : V → W) (level : List V) :
    pairs (level.map f) = (pairs level).map (Prod.map f f) := by
  induction level using pairs.induct with
  | case1 left right rest ih => simp [pairs, ih]
  | case2 last => simp [pairs]
  | case3 => simp [pairs]

section

variable {combine : V → V → V} {combine' : W → W → W} {f : V → W}
  (hf : ∀ a b, f (combine a b) = combine' (f a) (f b))
include hf

theorem up_map (level : List V) : up combine' (level.map f) = (up combine level).map f := by
  simp [up, pairs_map, hf]

/-- A map that respects the combination maps the top to the top. -/
theorem top_map : ∀ (rounds : Nat) (level : List V),
    top combine' rounds (level.map f) = (top combine rounds level).map f
  | 0, level => by simp [top]
  | rounds + 1, level => by
    rw [top, top, List.length_map]
    split
    · rw [up_map hf, top_map rounds]
    · simp

end

/-! ## Paths -/

/-- Combining a node with its siblings on the way up. -/
def climb (combine : V → V → V) (v : V) : Nat → List V → V
  | _, [] => v
  | index, sibling :: rest =>
    climb combine (if index % 2 = 0 then combine v sibling else combine sibling v)
      (index / 2) rest

/-- What is combined on the way up. -/
def climbed (combine : V → V → V) (v : V) : Nat → List V → List (V × V)
  | _, [] => []
  | index, sibling :: rest =>
    (if index % 2 = 0 then (v, sibling) else (sibling, v))
      :: climbed combine (if index % 2 = 0 then combine v sibling else combine sibling v)
        (index / 2) rest

/-- The last step up. -/
theorem climb_snoc (combine : V → V → V) (sibling : V) : ∀ (proof : List V) (index : Nat) (v : V),
    ∃ p, (p = if index / 2 ^ proof.length % 2 = 0
          then (climb combine v index proof, sibling) else (sibling, climb combine v index proof))
      ∧ climb combine v index (proof ++ [sibling]) = combine p.1 p.2
      ∧ climbed combine v index (proof ++ [sibling]) = climbed combine v index proof ++ [p]
  | [], index, v => by
    refine ⟨_, rfl, ?_⟩
    by_cases h : index % 2 = 0
    · simp [climb, climbed, h]
    · simp [climb, climbed, h]
  | s :: proof, index, v => by
    obtain ⟨p, hp, hclimb, hclimbed⟩ := climb_snoc combine sibling proof (index / 2)
      (if index % 2 = 0 then combine v s else combine s v)
    rw [Nat.div_div_eq_div_mul, ← pow_succ'] at hp
    refine ⟨p, hp, hclimb, ?_⟩
    rw [List.cons_append, climbed, climbed, List.cons_append, hclimbed]

/-- The siblings of a position on the way up. -/
def path (combine : V → V → V) : Nat → List V → Nat → List V
  | 0, _, _ => []
  | rounds + 1, level, index =>
    if 1 < level.length then
      (level[siblingIndex level.length index]?).toList
        ++ path combine rounds (up combine level) (index / 2)
    else []

/-- **The path of a node leads to the top.** -/
theorem climb_path (combine : V → V → V) : ∀ (rounds : Nat) (level : List V) (index : Nat) (v : V),
    level.length ≤ rounds + 1 → level[index]? = some v →
      top combine rounds level = some (climb combine v index (path combine rounds level index))
  | 0, level, index, v, hlen, hv => by
    match level, index, hv with
    | [w], 0, hv => simpa [top, path, climb] using hv
    | _ :: _ :: _, _, _ => simp at hlen
  | rounds + 1, level, index, v, hlen, hv => by
    have hindex : index < level.length := (List.getElem?_eq_some_iff.mp hv).1
    rw [top, path]
    split
    · next hlong =>
      obtain ⟨w, s, hw, hs, hpair⟩ := getElem?_pairs level index hindex
      obtain rfl : v = w := Option.some.inj (hv.symm.trans hw)
      have hup : (up combine level)[index / 2]?
          = some (if index % 2 = 0 then combine v s else combine s v) := by
        rw [up, List.getElem?_map, hpair]
        split
        · rfl
        · rfl
      have hshort : (up combine level).length ≤ rounds + 1 := by
        have hlt : (up combine level).length < level.length := length_up_lt hlong
        omega
      rw [climb_path combine rounds _ _ _ hshort hup, hs]
      rfl
    · next hshort =>
      match level, index, hv with
      | [w], 0, hv => simpa [climb] using hv
      | _ :: _ :: _, _, _ => simp at hshort

/-- What holds of the nodes of a level and is kept by combining holds of the top. -/
theorem top_induction {P : Nat → V → Prop} {combine : V → V → V}
    (hstep : ∀ k a b, P k a → P k b → P (k + 1) (combine a b)) :
    ∀ (rounds k : Nat) {level : List V} {v : V}, (∀ a ∈ level, P k a) →
      top combine rounds level = some v → ∃ k', P k' v
  | 0, k, level, v, hlevel, hv => ⟨k, hlevel v (List.mem_of_getLast? hv)⟩
  | rounds + 1, k, level, v, hlevel, hv => by
    rw [top] at hv
    split at hv
    · refine top_induction hstep rounds (k + 1) (fun a ha => ?_) hv
      obtain ⟨p, hp, rfl⟩ := List.mem_map.mp ha
      obtain ⟨hl, hr⟩ := mem_of_mem_pairs hp
      exact hstep k _ _ (hlevel _ hl) (hlevel _ hr)
    · exact ⟨k, hlevel v (List.mem_of_getLast? hv)⟩

theorem flatten_prefix_up (level : List (List V)) :
    level.flatten <+: (up (· ++ ·) level).flatten := by
  induction level using pairs.induct with
  | case1 left right rest ih =>
    obtain ⟨t, ht⟩ := ih
    refine ⟨t, ?_⟩
    simp only [up, pairs, List.map_cons, List.flatten_cons, List.append_assoc] at ht ⊢
    rw [ht]
  | case2 last => exact ⟨last, by simp [up, pairs]⟩
  | case3 => exact ⟨[], rfl⟩

/-- Over lists, the top starts with the lists of the level. -/
theorem flatten_prefix_top : ∀ (rounds : Nat) {level : List (List V)} {v : List V},
    level.length ≤ rounds + 1 → top (· ++ ·) rounds level = some v → level.flatten <+: v
  | 0, level, v, hlen, hv => by
    match level, hv with
    | [w], hv =>
      obtain rfl : w = v := by simpa [top] using hv
      simp
    | _ :: _ :: _, _ => simp at hlen
  | rounds + 1, level, v, hlen, hv => by
    rw [top] at hv
    split at hv
    · next hlong =>
      have hup : (up (· ++ ·) level).length < level.length := length_up_lt hlong
      exact (flatten_prefix_up level).trans (flatten_prefix_top rounds (by omega) hv)
    · next hshort =>
      match level, hv with
      | [w], hv =>
        obtain rfl : w = v := by simpa using hv
        simp
      | _ :: _ :: _, _ => simp at hshort

end PairedLevels

/-! ## Trees -/

/-- The tree of a node, with what its leaves hold. -/
inductive PairTree (α : Type) where
  | leaf (a : α)
  | node (left right : PairTree α)

namespace PairTree

open PairedLevels

variable {α V : Type}

/-- The hash of a tree. -/
def hash (leafHash : α → V) (combine : V → V → V) : PairTree α → V
  | .leaf a => leafHash a
  | .node left right => combine (left.hash leafHash combine) (right.hash leafHash combine)

def leaves : PairTree α → List α
  | .leaf a => [a]
  | .node left right => left.leaves ++ right.leaves

/-- All leaves stand at one depth. -/
def Perfect : Nat → PairTree α → Prop
  | 0, .leaf _ => True
  | k + 1, .node left right => Perfect k left ∧ Perfect k right
  | _, _ => False

theorem Perfect.length_leaves : ∀ {k : Nat} {t : PairTree α}, t.Perfect k →
    t.leaves.length = 2 ^ k
  | 0, .leaf _, _ => rfl
  | k + 1, .node left right, h => by
    rw [leaves, List.length_append, h.1.length_leaves, h.2.length_leaves, pow_succ, mul_two]
  | 0, .node _ _, h => h.elim
  | _ + 1, .leaf _, h => h.elim

/-- A perfect tree is determined by its leaves. -/
theorem Perfect.leaves_inj : ∀ {k : Nat} {t t' : PairTree α}, t.Perfect k → t'.Perfect k →
    t.leaves = t'.leaves → t = t'
  | 0, .leaf a, .leaf b, _, _, h => by simpa [leaves] using h
  | k + 1, .node l r, .node l' r', ht, ht', h => by
    have hlen : l.leaves.length = l'.leaves.length := by
      rw [ht.1.length_leaves, ht'.1.length_leaves]
    obtain ⟨hl, hr⟩ := List.append_inj h hlen
    rw [ht.1.leaves_inj ht'.1 hl, ht.2.leaves_inj ht'.2 hr]
  | 0, .node _ _, _, h, _, _ => h.elim
  | 0, .leaf _, .node _ _, _, h, _ => h.elim
  | _ + 1, .leaf _, _, h, _, _ => h.elim
  | _ + 1, .node _ _, .leaf _, _, h, _ => h.elim

/-- Two perfect trees with the same leaves are the same. -/
theorem leaves_inj {t t' : PairTree α} (h : ∃ k, t.Perfect k) (h' : ∃ k, t'.Perfect k)
    (heq : t.leaves = t'.leaves) : t = t' := by
  obtain ⟨k, hk⟩ := h
  obtain ⟨k', hk'⟩ := h'
  have hlen : 2 ^ k = 2 ^ k' := by rw [← hk.length_leaves, ← hk'.length_leaves, heq]
  obtain rfl := Nat.pow_right_injective (Nat.le_refl 2) hlen
  exact hk.leaves_inj hk' heq

/-- What a tree is hashed from: its leaves and the hashes of the children of its nodes. -/
def HashedFrom (leafHash : α → V) (combine : V → V → V) (A : α → Prop) (P : V × V → Prop) :
    PairTree α → Prop
  | .leaf a => A a
  | .node left right =>
    P (left.hash leafHash combine, right.hash leafHash combine)
      ∧ left.HashedFrom leafHash combine A P ∧ right.HashedFrom leafHash combine A P

/-- No two of the things hashed have one hash. -/
structure CollisionFree (leafHash : α → V) (combine : V → V → V) (A : α → Prop)
    (P : V × V → Prop) : Prop where
  leaf : ∀ a b, A a → A b → leafHash a = leafHash b → a = b
  node : ∀ p q, P p → P q → combine p.1 p.2 = combine q.1 q.2 → p = q
  leaf_ne_node : ∀ a p, A a → P p → leafHash a ≠ combine p.1 p.2

variable {leafHash : α → V} {combine : V → V → V} {A : α → Prop} {P : V × V → Prop}

instance [DecidableEq α] [DecidableEq V] (as : List α) (ps : List (V × V)) :
    Decidable (CollisionFree leafHash combine (· ∈ as) (· ∈ ps)) :=
  decidable_of_iff
    ((∀ a ∈ as, ∀ b ∈ as, leafHash a = leafHash b → a = b)
      ∧ (∀ p ∈ ps, ∀ q ∈ ps, combine p.1 p.2 = combine q.1 q.2 → p = q)
      ∧ ∀ a ∈ as, ∀ p ∈ ps, leafHash a ≠ combine p.1 p.2)
    ⟨fun h => ⟨fun a b ha hb => h.1 a ha b hb, fun p q hp hq => h.2.1 p hp q hq,
        fun a p ha hp => h.2.2 a ha p hp⟩,
      fun h => ⟨fun a ha b hb => h.leaf a b ha hb, fun p hp q hq => h.node p q hp hq,
        fun a ha p hp => h.leaf_ne_node a p ha hp⟩⟩

/-- **Without collisions the hash determines the tree.** -/
theorem hash_inj (hfree : CollisionFree leafHash combine A P) :
    ∀ {t t' : PairTree α}, t.HashedFrom leafHash combine A P →
      t'.HashedFrom leafHash combine A P →
      t.hash leafHash combine = t'.hash leafHash combine → t = t'
  | .leaf a, .leaf b, ha, hb, h => by rw [hfree.leaf a b ha hb h]
  | .leaf a, .node l r, ha, hn, h => absurd h (hfree.leaf_ne_node a _ ha hn.1)
  | .node l r, .leaf b, hn, hb, h => absurd h.symm (hfree.leaf_ne_node b _ hb hn.1)
  | .node l r, .node l' r', hn, hn', h => by
    obtain ⟨hl, hr⟩ := Prod.mk.inj (hfree.node _ _ hn.1 hn'.1 h)
    rw [hash_inj hfree hn.2.1 hn'.2.1 hl, hash_inj hfree hn.2.2 hn'.2.2 hr]

/-- **Only leaves climb to the hash**: each from its own position, by as many steps as the tree
has levels. A position that is too large is read modulo the number of leaves. -/
theorem climb_sound (hfree : CollisionFree leafHash combine A P) {index : Nat} {c : α} (hc : A c)
    (proof : List V) : ∀ {k : Nat} {t : PairTree α}, t.Perfect k →
      t.HashedFrom leafHash combine A P → (∀ p ∈ climbed combine (leafHash c) index proof, P p) →
      climb combine (leafHash c) index proof = t.hash leafHash combine →
      proof.length = k ∧ t.leaves[index % 2 ^ k]? = some c := by
  induction proof using List.reverseRecOn with
  | nil =>
    intro k t hk ht _ h
    match k, t, hk, ht with
    | 0, .leaf b, _, hb => simp [leaves, Nat.mod_one, hfree.leaf c b hc hb h]
    | _ + 1, .node l r, _, hn => exact absurd h (hfree.leaf_ne_node c _ hc hn.1)
  | append_singleton proof sibling ih =>
    intro k t hk ht hclimbed h
    obtain ⟨p, hp, hclimb, heq⟩ := climb_snoc combine sibling proof index (leafHash c)
    rw [heq] at hclimbed
    rw [hclimb] at h
    obtain ⟨hbelow, hpP⟩ := List.forall_mem_append.mp hclimbed
    have hP := hpP p List.mem_cons_self
    match k, t, hk, ht with
    | 0, .leaf b, _, hb => exact absurd h.symm (hfree.leaf_ne_node b p hb hP)
    | k + 1, .node l r, hk, hn =>
      have hpair := hfree.node p _ hP hn.1 h
      have hmod := Nat.mod_pow_succ (x := index) (b := 2) (k := k)
      rw [hp] at hpair
      by_cases hbit : index / 2 ^ proof.length % 2 = 0
      · rw [if_pos hbit] at hpair
        obtain ⟨rfl, hget⟩ := ih hk.1 hn.2.1 hbelow (Prod.mk.inj hpair).1
        rw [hbit, Nat.mul_zero] at hmod
        refine ⟨by simp, ?_⟩
        rw [leaves, hmod, Nat.add_zero, List.getElem?_append_left, hget]
        rw [hk.1.length_leaves]
        exact Nat.mod_lt _ (Nat.two_pow_pos _)
      · rw [if_neg hbit] at hpair
        obtain ⟨rfl, hget⟩ := ih hk.2 hn.2.2 hbelow (Prod.mk.inj hpair).2
        rw [Nat.mod_two_ne_zero.mp hbit, Nat.mul_one] at hmod
        refine ⟨by simp, ?_⟩
        rw [leaves, hmod, List.getElem?_append_right (by rw [hk.1.length_leaves]; omega),
          hk.1.length_leaves, Nat.add_sub_cancel, hget]

/-- The tree of a list. -/
def ofList (rounds : Nat) (l : List α) : Option (PairTree α) := top .node rounds (l.map .leaf)

theorem hash_ofList (rounds : Nat) (l : List α) :
    top combine rounds (l.map leafHash) = (ofList rounds l).map (hash leafHash combine) := by
  have hmap : l.map leafHash = (l.map PairTree.leaf).map (hash leafHash combine) := by
    simp [hash]
  rw [hmap, ofList]
  exact top_map (fun _ _ => rfl) rounds _

theorem leaves_ofList (rounds : Nat) (l : List α) :
    top (· ++ ·) rounds (l.map (fun a => [a])) = (ofList rounds l).map leaves := by
  have hmap : l.map (fun a => [a]) = (l.map PairTree.leaf).map leaves := by
    simp [leaves]
  rw [hmap, ofList]
  exact top_map (fun _ _ => rfl) rounds _

theorem perfect_ofList {rounds : Nat} {l : List α} {t : PairTree α}
    (h : ofList rounds l = some t) : ∃ k, t.Perfect k :=
  top_induction (fun _ _ _ hl hr => ⟨hl, hr⟩) rounds 0
    (fun t ht => by
      obtain ⟨a, -, rfl⟩ := List.mem_map.mp ht
      trivial) h

/-- The tree of a list is hashed from what the levels combine. -/
theorem hashedFrom_top : ∀ (rounds : Nat) {level : List (PairTree α)} {t : PairTree α},
    (∀ t ∈ level, t.HashedFrom leafHash combine A P) →
    (∀ p ∈ inputs combine rounds (level.map (hash leafHash combine)), P p) →
    top .node rounds level = some t → t.HashedFrom leafHash combine A P
  | 0, level, t, hlevel, _, ht => hlevel t (List.mem_of_getLast? ht)
  | rounds + 1, level, t, hlevel, hP, ht => by
    rw [top] at ht
    rw [inputs, List.length_map] at hP
    split at ht
    · next hlong =>
      rw [if_pos hlong, pairs_map] at hP
      obtain ⟨hpairs, hrest⟩ := List.forall_mem_append.mp hP
      have hup : up combine (level.map (hash leafHash combine))
          = (up .node level).map (hash leafHash combine) := up_map (fun _ _ => rfl) level
      rw [hup] at hrest
      refine hashedFrom_top rounds (fun t ht => ?_) hrest ht
      obtain ⟨p, hp, rfl⟩ := List.mem_map.mp ht
      obtain ⟨hl, hr⟩ := mem_of_mem_pairs hp
      exact ⟨hpairs _ (List.mem_map_of_mem hp), hlevel _ hl, hlevel _ hr⟩
    · exact hlevel t (List.mem_of_getLast? ht)

end PairTree

end Ipfrs.Lib
