/-
Ipfrs.Lib.Slices — cutting a sequence into consecutive pieces.

`chunks` cuts into pieces of one length, `cut` at given end positions. Both give
the sequence back when the pieces are joined.

A frame reader looks at windows of its input. `Agrees` says that two sequences
have the same windows as far as both reach, which holds of a frame against the
frame with more after it and against a torn piece of it.
-/
import Mathlib.Data.List.Basic

namespace Ipfrs.Lib

variable {α : Type}

/-- Pieces of length `n`, the last one shorter, with a bound on their number. -/
def chunksOf (n : Nat) : Nat → List α → List (List α)
  | 0, _ => []
  | _ + 1, [] => []
  | fuel + 1, a :: l => (a :: l).take n :: chunksOf n fuel ((a :: l).drop n)

/-- `slice::chunks`; `none` is its panic on a chunk size of zero. -/
def chunks (n : Nat) (l : List α) : Option (List (List α)) :=
  if n = 0 then none else some (chunksOf n l.length l)

variable {n : Nat} {l : List α} {pieces : List (List α)}

theorem flatten_chunksOf (hn : 0 < n) :
    ∀ (fuel : Nat) (l : List α), l.length ≤ fuel → (chunksOf n fuel l).flatten = l
  | 0, [], _ => rfl
  | _ + 1, [], _ => rfl
  | 0, _ :: _, h => by simp at h
  | fuel + 1, a :: l, h => by
    have hdrop : ((a :: l).drop n).length ≤ fuel := by
      rw [List.length_drop]
      simp only [List.length_cons] at h ⊢
      omega
    rw [chunksOf, List.flatten_cons, flatten_chunksOf hn fuel _ hdrop,
      List.take_append_drop]

/-- The pieces join to the sequence. -/
theorem flatten_of_chunks (h : chunks n l = some pieces) : pieces.flatten = l := by
  unfold chunks at h
  split at h
  · cases h
  · next hn =>
    cases h
    exact flatten_chunksOf (Nat.pos_of_ne_zero hn) _ l (Nat.le_refl _)

/-- A sequence no longer than a piece is one piece. -/
theorem chunksOf_of_length_le {fuel : Nat} (hl : l ≠ []) (h : l.length ≤ n) :
    chunksOf n (fuel + 1) l = [l] := by
  cases l with
  | nil => exact absurd rfl hl
  | cons a l =>
    have hrest : chunksOf n fuel ([] : List α) = [] := by cases fuel <;> rfl
    rw [chunksOf, List.take_of_length_le h, List.drop_of_length_le h, hrest]

theorem length_chunksOf_le_fuel (n : Nat) :
    ∀ (fuel : Nat) (l : List α), (chunksOf n fuel l).length ≤ fuel
  | 0, _ => by simp [chunksOf]
  | _ + 1, [] => by simp [chunksOf]
  | fuel + 1, a :: l => by
    have hrest := length_chunksOf_le_fuel n fuel ((a :: l).drop n)
    simp only [chunksOf, List.length_cons]
    omega

/-- Pieces of two or more are fewer than the elements they hold. -/
theorem length_chunksOf_le (hn : 2 ≤ n) :
    ∀ (fuel : Nat) (l : List α), 2 * (chunksOf n fuel l).length ≤ l.length + 1
  | 0, l => by simp [chunksOf]
  | _ + 1, [] => by simp [chunksOf]
  | fuel + 1, a :: l => by
    have hrest := length_chunksOf_le hn fuel ((a :: l).drop n)
    rw [List.length_drop] at hrest
    simp only [chunksOf, List.length_cons] at hrest ⊢
    omega

/-- No piece is empty or longer than `n`. -/
theorem length_of_mem_chunksOf (hn : 0 < n) :
    ∀ (fuel : Nat) (l : List α), ∀ piece ∈ chunksOf n fuel l,
      0 < piece.length ∧ piece.length ≤ n
  | 0, _, _, h => by simp [chunksOf] at h
  | _ + 1, [], _, h => by simp [chunksOf] at h
  | fuel + 1, a :: l, piece, h => by
    rw [chunksOf] at h
    rcases List.mem_cons.mp h with rfl | h
    · simp only [List.length_take, List.length_cons]
      omega
    · exact length_of_mem_chunksOf hn fuel _ piece h

theorem chunksOf_map {β : Type} (f : α → β) (n : Nat) : ∀ (fuel : Nat) (l : List α),
    chunksOf n fuel (l.map f) = (chunksOf n fuel l).map (List.map f)
  | 0, _ => rfl
  | _ + 1, [] => rfl
  | fuel + 1, a :: l => by
    rw [List.map_cons, chunksOf, chunksOf, ← List.map_cons, ← List.map_take, ← List.map_drop,
      chunksOf_map f n fuel, List.map_cons]

/-- Pieces of one element are as many as the elements. -/
theorem length_chunksOf_one : ∀ (fuel : Nat) (l : List α), l.length ≤ fuel →
    (chunksOf 1 fuel l).length = l.length
  | 0, [], _ => rfl
  | _ + 1, [], _ => rfl
  | 0, _ :: _, h => by simp at h
  | fuel + 1, a :: l, h => by
    simp only [List.length_cons] at h
    rw [chunksOf, List.length_cons, List.drop_succ_cons, List.drop_zero,
      length_chunksOf_one fuel l (by omega), List.length_cons]

theorem length_lt_of_chunks (hn : 2 ≤ n) (hl : 1 < l.length) (h : chunks n l = some pieces) :
    pieces.length < l.length := by
  unfold chunks at h
  rw [if_neg (by omega)] at h
  cases h
  have hle := length_chunksOf_le hn l.length l
  omega

theorem length_le_of_chunks (h : chunks n l = some pieces) : pieces.length ≤ l.length := by
  unfold chunks at h
  split at h
  · cases h
  · cases h
    exact length_chunksOf_le_fuel n _ l

theorem chunks_ne_none (hn : 0 < n) (l : List α) : chunks n l ≠ none := by
  rw [chunks, if_neg (Nat.pos_iff_ne_zero.mp hn)]
  simp

theorem chunks_ne_nil (hl : l ≠ []) (h : chunks n l = some pieces) : pieces ≠ [] := by
  rintro rfl
  exact hl (flatten_of_chunks h).symm

/-- The pieces between consecutive end positions; `none` is the panic of a slice
whose end lies before its start or past the sequence. -/
def cut (l : List α) : Nat → List Nat → Option (List (List α))
  | _, [] => some []
  | start, stop :: stops =>
    if start ≤ stop ∧ stop ≤ l.length then
      match cut l stop stops with
      | some pieces => some ((l.take stop).drop start :: pieces)
      | none => none
    else none

/-- What comes before the first piece, joined with the pieces, reaches to the last
end position. -/
theorem take_append_flatten_of_cut :
    ∀ {start : Nat} {stops : List Nat} {pieces : List (List α)},
      cut l start stops = some pieces →
      l.take start ++ pieces.flatten = l.take (stops.getLastD start)
  | start, [], pieces, h => by
    cases h
    simp
  | start, stop :: stops, pieces, h => by
    rw [cut] at h
    split at h
    · next hle =>
      split at h
      · next rest hrest =>
        cases h
        have hpiece : l.take start ++ (l.take stop).drop start = l.take stop := by
          have hstart : (l.take stop).take start = l.take start := by
            rw [List.take_take, Nat.min_eq_left hle.1]
          rw [← hstart, List.take_append_drop]
        rw [List.flatten_cons, ← List.append_assoc, hpiece,
          take_append_flatten_of_cut hrest, List.getLastD_cons]
      · cases h
    · cases h

/-- Pieces that start at the front and end at the length join to the sequence. -/
theorem flatten_of_cut {stops : List Nat} (h : cut l 0 stops = some pieces)
    (hlast : stops.getLastD 0 = l.length) : pieces.flatten = l := by
  have h' := take_append_flatten_of_cut h
  rw [hlast, List.take_length] at h'
  simpa using h'

/-- The lengths of the pieces between consecutive end positions. -/
def pieceLengths : Nat → List Nat → List Nat
  | _, [] => []
  | start, stop :: stops => (stop - start) :: pieceLengths stop stops

theorem pieceLengths_append_singleton (start stop : Nat) (stops : List Nat) :
    pieceLengths start (stops ++ [stop])
      = pieceLengths start stops ++ [stop - stops.getLastD start] := by
  induction stops generalizing start with
  | nil => rfl
  | cons next stops ih =>
    rw [List.cons_append, pieceLengths, ih, pieceLengths, List.cons_append, List.getLastD_cons]

/-- Pieces that are not empty end at positions that go up. -/
theorem pairwise_of_pieceLengths : ∀ {start : Nat} {stops : List Nat},
    (∀ n ∈ pieceLengths start stops, 1 ≤ n) → (start :: stops).Pairwise (· < ·)
  | start, [], _ => List.pairwise_singleton _ _
  | start, stop :: stops, h => by
    obtain ⟨hstop, hrest⟩ := List.forall_mem_cons.mp h
    have hup := pairwise_of_pieceLengths hrest
    refine List.pairwise_cons.mpr ⟨List.forall_mem_cons.mpr ⟨by omega, fun b hb => ?_⟩, hup⟩
    have := (List.pairwise_cons.mp hup).1 b hb
    omega

/-- Positions that go up and end inside the sequence cut it into pieces of the lengths
between them. -/
theorem cut_of_increasing : ∀ {start : Nat} {stops : List Nat},
    (start :: stops).Pairwise (· < ·) → (∀ stop ∈ stops, stop ≤ l.length) →
    ∃ pieces, cut l start stops = some pieces ∧
      pieces.map List.length = pieceLengths start stops
  | _, [], _, _ => ⟨[], rfl, rfl⟩
  | start, stop :: stops, hup, hin => by
    obtain ⟨hstart, hup⟩ := List.pairwise_cons.mp hup
    obtain ⟨hstop, hin⟩ := List.forall_mem_cons.mp hin
    obtain ⟨pieces, hcut, hlen⟩ := cut_of_increasing hup hin
    have hlt := hstart stop List.mem_cons_self
    refine ⟨(l.take stop).drop start :: pieces, ?_, ?_⟩
    · rw [cut, if_pos ⟨Nat.le_of_lt hlt, hstop⟩, hcut]
    · simp [pieceLengths, hlen, Nat.min_eq_left hstop]

/-! ## Windows -/

/-- The window of `w` elements from position `a`. -/
def window (l : List α) (a w : Nat) : List α := (l.drop a).take w

/-- A piece of a joined sequence, found by the pieces before it. -/
theorem window_flatten {before after : List (List α)} {piece : List α} {a w : Nat}
    (ha : before.flatten.length = a) (hw : piece.length = w) :
    window (before ++ piece :: after).flatten a w = piece := by
  rw [window, List.flatten_append, List.flatten_cons, List.drop_left' ha, List.take_left' hw]

theorem window_zero (l : List α) (w : Nat) : window l 0 w = l.take w := by
  rw [window, List.drop_zero]

/-- Equal windows wherever both sequences reach. -/
def Agrees (l frame : List α) : Prop :=
  ∀ a w, a + w ≤ l.length → a + w ≤ frame.length → window l a w = window frame a w

theorem agrees_append (frame rest : List α) : Agrees (frame ++ rest) frame := by
  intro a w _ hw
  rw [window, window, List.drop_append_of_le_length (by omega),
    List.take_append_of_le_length (by rw [List.length_drop]; omega)]

theorem agrees_take (frame : List α) (n : Nat) : Agrees (frame.take n) frame := by
  intro a w hw _
  rw [List.length_take] at hw
  rw [window, window, List.drop_take, List.take_take, Nat.min_eq_left (by omega)]

/-- A sequence that starts with the frame, or with as much of it as is left. -/
theorem agrees_take_append (frame rest : List α) (n : Nat) :
    Agrees ((frame ++ rest).take n) frame := by
  intro a w hl hw
  have hfit : a + w ≤ (frame ++ rest).length := by
    rw [List.length_append]
    omega
  rw [agrees_take _ n a w hl hfit, agrees_append frame rest a w hfit hw]

end Ipfrs.Lib
