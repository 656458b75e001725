/-
Ipfrs.Lib.Forest — data at the leaves and nodes of ordered trees, read
depth-first or level by level.

A forest is a row of trees; a leaf carries a piece of data, a node carries one in
front of its own row. `pieces` lists all of them depth-first, each with its level:
a node opens a new level, and a leaf stands on the level of the node above it.
Reading depth-first is reading `pieces` as they stand (`depthFirst`). Reading level
by level takes the pieces of level 0, then those of level 1 and so on, each level
in depth-first order (`levelOrder`); the two agree where the levels never fall
along `pieces` (`levelOrder_of_sorted`).

The second half is what a queue does: `rowBytes` is what visiting a row of nodes
appends, `nextRow` what it queues, and `levels_rowPieces` says that the levels below are
those of the next row.
-/
import Mathlib.Data.List.Basic

namespace Ipfrs.Lib

variable {α : Type}

/-- A row of trees. -/
inductive Forest (α : Type) where
  | nil
  | leaf (data : List α) (rest : Forest α)
  | node (data : List α) (children rest : Forest α)

namespace Forest

/-- Two rows side by side. -/
def append : Forest α → Forest α → Forest α
  | nil, g => g
  | leaf d rest, g => leaf d (append rest g)
  | node d cs rest, g => node d cs (append rest g)

/-- The number of trees, at all depths. -/
def size : Forest α → Nat
  | nil => 0
  | leaf _ rest => size rest + 1
  | node _ cs rest => size cs + size rest + 1

theorem size_append (f g : Forest α) : (append f g).size = f.size + g.size := by
  induction f with
  | nil => simp [append, size]
  | leaf d rest ih => simp only [append, size, ih]; omega
  | node d cs rest _ ih => simp only [append, size, ih]; omega

/-! ## Depth-first -/

/-- All data, a node's in front of its children's. -/
def depthFirst : Forest α → List α
  | nil => []
  | leaf d rest => d ++ depthFirst rest
  | node d cs rest => d ++ (depthFirst cs ++ depthFirst rest)

theorem depthFirst_append (f g : Forest α) :
    (append f g).depthFirst = f.depthFirst ++ g.depthFirst := by
  induction f with
  | nil => rfl
  | leaf d rest ih => simp [append, depthFirst, ih]
  | node d cs rest _ ih => simp [append, depthFirst, ih]

/-- Every piece with its level, depth-first, for a row on level `l`. -/
def pieces : Forest α → Nat → List (Nat × List α)
  | nil, _ => []
  | leaf d rest, l => (l, d) :: pieces rest l
  | node d cs rest, l => (l + 1, d) :: (pieces cs (l + 1) ++ pieces rest l)

theorem flatMap_pieces (f : Forest α) (l : Nat) : (f.pieces l).flatMap Prod.snd = f.depthFirst := by
  induction f generalizing l with
  | nil => rfl
  | leaf d rest ih => simp [pieces, depthFirst, ih]
  | node d cs rest ihc ih => simp [pieces, depthFirst, ihc, ih]

end Forest

/-! ## Level by level -/

/-- The data on one level, in the order given. -/
def dataAt (l : Nat) (ps : List (Nat × List α)) : List α :=
  (ps.filter (fun p => p.1 == l)).flatMap Prod.snd

/-- The data of `n` levels from level `l` on. -/
def levels (l n : Nat) (ps : List (Nat × List α)) : List α :=
  (List.range n).flatMap (fun k => dataAt (l + k) ps)

/-- A level above all that occur. -/
def levelBound (ps : List (Nat × List α)) : Nat := (ps.map (fun p => p.1 + 1)).foldr max 0

/-- All data, level by level. -/
def levelOrder (ps : List (Nat × List α)) : List α := levels 0 (levelBound ps) ps

@[simp] theorem dataAt_nil (l : Nat) : dataAt l ([] : List (Nat × List α)) = [] := rfl

theorem dataAt_cons (l : Nat) (p : Nat × List α) (ps : List (Nat × List α)) :
    dataAt l (p :: ps) = (if p.1 = l then p.2 else []) ++ dataAt l ps := by
  by_cases h : p.1 = l
  · simp [dataAt, h]
  · simp [dataAt, h]

@[simp] theorem dataAt_append (l : Nat) (ps qs : List (Nat × List α)) :
    dataAt l (ps ++ qs) = dataAt l ps ++ dataAt l qs := by
  simp [dataAt]

variable {ps : List (Nat × List α)}

theorem lt_levelBound {p : Nat × List α} (h : p ∈ ps) : p.1 < levelBound ps := by
  induction ps with
  | nil => cases h
  | cons q ps ih =>
    simp only [levelBound, List.map_cons, List.foldr_cons]
    rcases List.mem_cons.mp h with rfl | h
    · omega
    · have := ih h
      simp only [levelBound] at this
      omega

/-- A level with no piece has no data. -/
theorem dataAt_eq_nil {l : Nat} (h : ∀ p ∈ ps, p.1 ≠ l) : dataAt l ps = [] := by
  induction ps with
  | nil => rfl
  | cons p ps ih =>
    rw [dataAt_cons, if_neg (h p List.mem_cons_self),
      ih (fun q hq => h q (List.mem_cons_of_mem _ hq))]
    rfl

theorem levels_succ_first (l n : Nat) (ps : List (Nat × List α)) :
    levels l (n + 1) ps = dataAt l ps ++ levels (l + 1) n ps := by
  have hshift : ∀ k, l + 1 + k = l + (k + 1) := fun k => by omega
  simp [levels, List.range_succ_eq_map, List.flatMap_map, hshift]

/-- Levels beyond all that occur add nothing. -/
theorem levels_of_bound {l n : Nat} (hlow : ∀ p ∈ ps, p.1 < l + n) :
    ∀ m, levels l (n + m) ps = levels l n ps := by
  intro m
  induction m with
  | zero => rfl
  | succ m ih =>
    have hnil : dataAt (l + (n + m)) ps = [] :=
      dataAt_eq_nil (fun p hp => by have := hlow p hp; omega)
    rw [← Nat.add_assoc, levels, List.range_succ, List.flatMap_append, ← levels, ih]
    simp [hnil]

/-- Any sufficient number of levels is the level order. -/
theorem levels_eq_levelOrder {n : Nat} (h : ∀ p ∈ ps, p.1 < n) : levels 0 n ps = levelOrder ps := by
  have hn : levels 0 (n + levelBound ps) ps = levels 0 n ps :=
    levels_of_bound (fun p hp => by have := h p hp; omega) _
  have hb : levels 0 (levelBound ps + n) ps = levels 0 (levelBound ps) ps :=
    levels_of_bound (fun p hp => by have := lt_levelBound hp; omega) _
  rw [← hn, Nat.add_comm, hb, levelOrder]

theorem levels_nil (l n : Nat) : levels l n ([] : List (Nat × List α)) = [] := by
  simp [levels]

/-- Empty levels in front are skipped. -/
theorem levels_skip (m n : Nat) :
    ∀ {l : Nat}, (∀ p ∈ ps, l + m ≤ p.1) → levels l (m + n) ps = levels (l + m) n ps := by
  induction m with
  | zero => intro l _; simp
  | succ m ih =>
    intro l h
    have hnil : dataAt l ps = [] := dataAt_eq_nil (fun p hp => by have := h p hp; omega)
    have hshift : m + 1 + n = m + n + 1 := by omega
    rw [hshift, levels_succ_first, hnil, List.nil_append,
      ih (fun p hp => by have := h p hp; omega), Nat.add_assoc, Nat.add_comm 1 m]

/-- A piece below the first level does not count. -/
theorem levels_cons_of_lt {l : Nat} {p : Nat × List α} (h : p.1 < l) (n : Nat)
    (ps : List (Nat × List α)) : levels l n (p :: ps) = levels l n ps := by
  have hne : ∀ k, ¬ p.1 = l + k := fun k => by omega
  simp [levels, dataAt_cons, hne]

theorem levels_of_sorted :
    ∀ {l n : Nat}, ps.Pairwise (fun p q => p.1 ≤ q.1) → (∀ p ∈ ps, l ≤ p.1 ∧ p.1 < l + n) →
      levels l n ps = ps.flatMap Prod.snd := by
  induction ps with
  | nil => intro l n _ _; exact levels_nil l n
  | cons p ps ih =>
    intro l n hsorted hrange
    obtain ⟨hhead, htail⟩ := List.pairwise_cons.mp hsorted
    obtain ⟨hl, hn⟩ := hrange p List.mem_cons_self
    -- skip to the level of the first piece, which is the lowest one
    obtain ⟨m, rfl⟩ : ∃ m, n = p.1 - l + (m + 1) := ⟨n - (p.1 - l) - 1, by omega⟩
    have hlow : ∀ q ∈ p :: ps, l + (p.1 - l) ≤ q.1 := by
      intro q hq
      rcases List.mem_cons.mp hq with rfl | hq
      · omega
      · have := hhead q hq
        omega
    have hrest : levels p.1 (m + 1) ps = ps.flatMap Prod.snd := by
      refine ih htail ?_
      intro q hq
      have := hhead q hq
      have := hrange q (List.mem_cons_of_mem _ hq)
      omega
    have hfirst : l + (p.1 - l) = p.1 := by omega
    rw [levels_skip _ _ hlow, hfirst, levels_succ_first, dataAt_cons, if_pos rfl,
      levels_cons_of_lt (Nat.lt_succ_self p.1), List.append_assoc, ← levels_succ_first, hrest]
    simp

/-- **Where the levels never fall**, level by level is the order as it stands. -/
theorem levelOrder_of_sorted (h : ps.Pairwise (fun p q => p.1 ≤ q.1)) :
    levelOrder ps = ps.flatMap Prod.snd := by
  refine levels_of_sorted h ?_
  intro p hp
  have := lt_levelBound hp
  omega

/-- The pieces that carry data. -/
def nonempty (ps : List (Nat × List α)) : List (Nat × List α) :=
  ps.filter (fun p => !p.2.isEmpty)

theorem flatMap_nonempty (ps : List (Nat × List α)) :
    (nonempty ps).flatMap Prod.snd = ps.flatMap Prod.snd := by
  induction ps with
  | nil => rfl
  | cons p ps ih =>
    rw [nonempty, List.filter_cons, ← nonempty]
    cases hp : p.2 with
    | nil => simp [hp, ih]
    | cons a d => simp [hp, ih]

theorem dataAt_nonempty (l : Nat) (ps : List (Nat × List α)) :
    dataAt l (nonempty ps) = dataAt l ps := by
  induction ps with
  | nil => rfl
  | cons p ps ih =>
    rw [nonempty, List.filter_cons, ← nonempty]
    cases hp : p.2 with
    | nil => simp [dataAt_cons, hp, ih]
    | cons a d => simp [dataAt_cons, hp, ih]

/-- Only the pieces that carry data count. -/
theorem levelOrder_of_nonempty_sorted (h : (nonempty ps).Pairwise (fun p q => p.1 ≤ q.1)) :
    levelOrder ps = ps.flatMap Prod.snd := by
  have hsub : ∀ p ∈ nonempty ps, p.1 < levelBound ps := fun p hp =>
    lt_levelBound (List.mem_of_mem_filter hp)
  have hsame : levels 0 (levelBound ps) (nonempty ps) = levelOrder ps := by
    simp only [levels, levelOrder, dataAt_nonempty]
  rw [← hsame, levels_eq_levelOrder hsub, levelOrder_of_sorted h, flatMap_nonempty]

/-! ## Rows of nodes -/

namespace Forest

/-- The data of the leaves of a row. -/
def leaves : Forest α → List α
  | nil => []
  | leaf d rest => d ++ leaves rest
  | node _ _ rest => leaves rest

/-- The nodes of a row, each as its data and its children. -/
def nodes : Forest α → List (List α × Forest α)
  | nil => []
  | leaf _ rest => nodes rest
  | node d cs rest => (d, cs) :: nodes rest

/-- What visiting the nodes one after another reads: each node's data and the leaves
under it. -/
def rowBytes (row : List (List α × Forest α)) : List α :=
  row.flatMap (fun x => x.1 ++ x.2.leaves)

/-- The nodes under a row of nodes. -/
def nextRow (row : List (List α × Forest α)) : List (List α × Forest α) :=
  row.flatMap (fun x => x.2.nodes)

/-- The pieces of a row of nodes on level `l`. -/
def rowPieces (l : Nat) (row : List (List α × Forest α)) : List (Nat × List α) :=
  row.flatMap (fun x => (l, x.1) :: x.2.pieces l)

/-- The number of trees under a row of nodes, the nodes included. -/
def rowSize (row : List (List α × Forest α)) : Nat :=
  (row.map (fun x => x.2.size + 1)).foldr (· + ·) 0

theorem eq_nil_of_rowSize {row : List (List α × Forest α)} (h : rowSize row = 0) : row = [] := by
  cases row with
  | nil => rfl
  | cons x row => simp [rowSize] at h

theorem rowSize_append (row row' : List (List α × Forest α)) :
    rowSize (row ++ row') = rowSize row + rowSize row' := by
  induction row with
  | nil => simp [rowSize]
  | cons x row ih =>
    simp only [rowSize, List.cons_append, List.map_cons, List.foldr_cons] at ih ⊢
    omega

theorem rowSize_nodes_le (f : Forest α) : rowSize f.nodes ≤ f.size := by
  induction f with
  | nil => exact Nat.le_refl 0
  | leaf d rest ih =>
    simp only [nodes, size]
    omega
  | node d cs rest _ ih =>
    simp only [rowSize, nodes, size, List.map_cons, List.foldr_cons] at ih ⊢
    omega

/-- The next row is smaller by the nodes of this one. -/
theorem rowSize_nextRow (row : List (List α × Forest α)) :
    rowSize (nextRow row) + row.length ≤ rowSize row := by
  induction row with
  | nil => exact Nat.le_refl 0
  | cons x row ih =>
    have hx := rowSize_nodes_le x.2
    have happ : rowSize (nextRow (x :: row)) = rowSize x.2.nodes + rowSize (nextRow row) := by
      rw [nextRow, List.flatMap_cons, rowSize_append]
      rfl
    rw [happ]
    simp only [rowSize, List.map_cons, List.foldr_cons, List.length_cons] at ih hx ⊢
    omega

theorem le_of_mem_pieces {f : Forest α} {l : Nat} {p : Nat × List α} (h : p ∈ f.pieces l) :
    l ≤ p.1 := by
  induction f generalizing l with
  | nil => cases h
  | leaf d rest ih =>
    rcases List.mem_cons.mp h with rfl | h
    · exact Nat.le_refl l
    · exact ih h
  | node d cs rest ihc ih =>
    rcases List.mem_cons.mp h with rfl | h
    · exact Nat.le_succ l
    · rcases List.mem_append.mp h with h | h
      · exact Nat.le_of_succ_le (ihc h)
      · exact ih h

/-- The first level of a row is its leaves. -/
theorem dataAt_pieces (f : Forest α) (l : Nat) : dataAt l (f.pieces l) = f.leaves := by
  induction f with
  | nil => rfl
  | leaf d rest ih => simp [pieces, leaves, dataAt_cons, ih]
  | node d cs rest _ ih =>
    have hcs : dataAt l (cs.pieces (l + 1)) = [] :=
      dataAt_eq_nil (fun p hp => by have := le_of_mem_pieces hp; omega)
    simp [pieces, leaves, dataAt_cons, ih, hcs]

/-- A deeper level of a row is one of the row of its nodes. -/
theorem dataAt_pieces_below (f : Forest α) {l k : Nat} (h : l < k) :
    dataAt k (f.pieces l) = dataAt k (rowPieces (l + 1) f.nodes) := by
  induction f with
  | nil => rfl
  | leaf d rest ih =>
    have hne : ¬ l = k := by omega
    simp [pieces, nodes, dataAt_cons, ih, hne]
  | node d cs rest _ ih => simp [pieces, nodes, rowPieces, dataAt_cons, ih]

/-- Visiting a row reads its level. -/
theorem dataAt_rowPieces (l : Nat) (row : List (List α × Forest α)) :
    dataAt l (rowPieces l row) = rowBytes row := by
  induction row with
  | nil => rfl
  | cons x row ih =>
    have hx := dataAt_pieces x.2 l
    simp only [rowPieces, rowBytes, List.flatMap_cons] at ih ⊢
    simp [dataAt_cons, hx, ih]

/-- The levels below are those of the next row. -/
theorem dataAt_rowPieces_below {l k : Nat} (h : l < k) (row : List (List α × Forest α)) :
    dataAt k (rowPieces l row) = dataAt k (rowPieces (l + 1) (nextRow row)) := by
  induction row with
  | nil => rfl
  | cons x row ih =>
    have hx := dataAt_pieces_below x.2 h
    have hne : ¬ l = k := by omega
    simp only [rowPieces, nextRow, List.flatMap_cons, List.flatMap_append] at ih hx ⊢
    simp [dataAt_cons, hx, ih, hne]

/-- **One level after another**: the levels of a row are what visiting it reads,
then the levels of the next row. -/
theorem levels_rowPieces (l n : Nat) (row : List (List α × Forest α)) :
    levels l (n + 1) (rowPieces l row)
      = rowBytes row ++ levels (l + 1) n (rowPieces (l + 1) (nextRow row)) := by
  have hbelow : levels (l + 1) n (rowPieces l row)
      = levels (l + 1) n (rowPieces (l + 1) (nextRow row)) := by
    unfold levels
    congr 1
    funext k
    exact dataAt_rowPieces_below (by omega) row
  rw [levels_succ_first, dataAt_rowPieces, hbelow]

end Forest

end Ipfrs.Lib
