/-
Ipfrs.Transport.RangeAssembler — a block put together from byte ranges (`range_request.rs`).

Positions are `u64`s, and a `usize` is as wide. `none` is a panic: a vector longer than
`isize::MAX`, a slice out of bounds, and, where arithmetic is checked (`checks`), a
subtraction below 0; unchecked it wraps.

`is_complete` and `missing_ranges` look only at positions inside the block, whatever a peer
sends. `assemble` writes every range where it says it is, so it panics at one that goes
past the end (`Overruns`), unless a range before it does not fit its data.
-/
import Ipfrs.Core.Cid
import Ipfrs.Lib.Tiling

namespace Ipfrs.Transport

open Ipfrs.Core Ipfrs.Lib

/-- Of the errors, the one that is used here. -/
inductive RangeError
  | invalidRange (text : String)
  deriving DecidableEq

/-- `Range<u64>`. -/
structure Range where
  start : UInt64
  stop : UInt64
  deriving DecidableEq

structure RangeResponse where
  cid : Cid
  range : Range
  data : List UInt8
  totalSize : UInt64
  deriving DecidableEq

structure RangeAssembler where
  cid : Cid
  totalSize : UInt64
  received : List (Range × List UInt8)
  deriving DecidableEq

/-- `isize::MAX`, the bytes that an allocation may have at most. -/
def isizeMax : Nat := 2 ^ 63 - 1

/-- `vec![x; n]` of single bytes. -/
def vecOf {α : Type} (x : α) (n : Nat) : Option (List α) :=
  if n ≤ isizeMax then some (List.replicate n x) else none

namespace RangeAssembler

def new (cid : Cid) (totalSize : UInt64) : RangeAssembler := { cid, totalSize, received := [] }

def addRange (a : RangeAssembler) (response : RangeResponse) :
    Except RangeError RangeAssembler :=
  if response.cid ≠ a.cid then .error (.invalidRange "CID mismatch")
  else if response.totalSize ≠ a.totalSize then .error (.invalidRange "Total size mismatch")
  else .ok { a with received := a.received ++ [(response.range, response.data)] }

/-- `for i in range.start..range.end`, with the positions inside the block. -/
def mark (covered : List Bool) (range : Range) : List Bool :=
  (List.range' range.start.toNat (range.stop.toNat - range.start.toNat)).foldl
    (fun covered i => if i < covered.length then covered.set i true else covered) covered

/-- The first loop of `is_complete` and of `missing_ranges`. -/
def coverage (a : RangeAssembler) : Option (List Bool) := do
  let covered ← vecOf false a.totalSize.toNat
  some (a.received.foldl (fun covered r => mark covered r.1) covered)

def isComplete (a : RangeAssembler) : Option Bool := do
  let covered ← a.coverage
  some (covered.all id)

/-- The second loop of `missing_ranges`: what it pushes from a position on, and at its end. -/
def missingFrom (totalSize : UInt64) : Nat → Option UInt64 → List Bool → List Range
  | _, none, [] => []
  | _, some start, [] => [{ start, stop := totalSize }]
  | i, start, isCovered :: covered =>
    match isCovered, start with
    | false, none => missingFrom totalSize (i + 1) (some (UInt64.ofNat i)) covered
    | true, some start =>
      { start, stop := UInt64.ofNat i } :: missingFrom totalSize (i + 1) none covered
    | _, start => missingFrom totalSize (i + 1) start covered

def missingRanges (a : RangeAssembler) : Option (List Range) := do
  let covered ← a.coverage
  some (missingFrom a.totalSize 0 none covered)

/-- `end - start` of two `usize`s. -/
def rangeLen (checks : Bool) (range : Range) : Option Nat :=
  if range.stop < range.start && checks then none else some (range.stop - range.start).toNat

/-- `data[start..end].copy_from_slice(chunk)`. -/
def copyInto (data : List UInt8) (range : Range) (chunk : List UInt8) : Option (List UInt8) :=
  if range.start ≤ range.stop ∧ range.stop.toNat ≤ data.length
      ∧ chunk.length = range.stop.toNat - range.start.toNat then
    some (data.take range.start.toNat ++ chunk ++ data.drop range.stop.toNat)
  else none

/-- The loop of `assemble`. -/
def copyAll (checks : Bool) :
    List (Range × List UInt8) → List UInt8 → Option (Except RangeError (List UInt8))
  | [], data => some (.ok data)
  | (range, chunk) :: received, data => do
      let len ← rangeLen checks range
      if chunk.length ≠ len then some (.error (.invalidRange "Chunk size mismatch"))
      else do
        let data ← copyInto data range chunk
        copyAll checks received data

def assemble (checks : Bool) (a : RangeAssembler) :
    Option (Except RangeError (List UInt8)) := do
  let complete ← a.isComplete
  if !complete then some (.error (.invalidRange "Block incomplete"))
  else do
    let data ← vecOf 0 a.totalSize.toNat
    copyAll checks a.received data

/-! ## Coverage -/

/-- The range has the position. -/
def Range.has (range : Range) (i : Nat) : Bool :=
  range.start.toNat ≤ i && i < range.stop.toNat

/-- Some range has the position. -/
def covers (received : List (Range × List UInt8)) (i : Nat) : Bool :=
  received.any fun r => Range.has r.1 i

theorem getElem?_setAll (positions : List Nat) : ∀ (covered : List Bool) (i : Nat), (positions.foldl
        (fun covered i => if i < covered.length then covered.set i true else covered) covered)[i]?
      = covered[i]?.map fun c => c || positions.contains i := by
  induction positions with
  | nil => simp
  | cons p positions ih =>
    intro covered i
    rw [List.foldl_cons, ih]
    split
    · next hp =>
      by_cases hi : p = i
      · subst hi
        simp [List.getElem?_set_self hp, List.getElem?_eq_getElem hp]
      · have hne : ¬ i = p := Ne.symm hi
        rw [List.getElem?_set_ne hi]
        simp [hne]
    · next hp =>
      by_cases hi : p = i
      · subst hi
        simp [List.getElem?_eq_none (Nat.not_lt.mp hp)]
      · have hne : ¬ i = p := Ne.symm hi
        simp [hne]

theorem mark_map (n : Nat) (f : Nat → Bool) (range : Range) : mark ((List.range n).map f) range
      = (List.range n).map fun i => f i || Range.has range i := by
  refine List.ext_getElem? fun i => ?_
  rw [mark, getElem?_setAll, List.getElem?_map, List.getElem?_map]
  cases hi : (List.range n)[i]? with
  | none => rfl
  | some j =>
    have hij : j = i := by
      obtain ⟨hlt, hget⟩ := List.getElem?_eq_some_iff.mp hi
      simpa using hget.symm
    subst hij
    have hhas : (List.range' range.start.toNat (range.stop.toNat - range.start.toNat)).contains j
        = Range.has range j := by
      rw [Bool.eq_iff_iff]
      simp only [List.contains_iff_mem, List.mem_range'_1, Range.has, Bool.and_eq_true,
        decide_eq_true_eq]
      omega
    simp only [Option.map_some, hhas]

theorem marks_map (n : Nat) (received : List (Range × List UInt8)) : ∀ f : Nat → Bool,
    received.foldl (fun covered r => mark covered r.1) ((List.range n).map f)
      = (List.range n).map fun i => f i || covers received i := by
  induction received with
  | nil => simp [covers]
  | cons r received ih =>
    intro f
    rw [List.foldl_cons, mark_map, ih]
    simp [covers, Bool.or_assoc]

/-- The vector of the two loops says of each position of the block whether it is covered. -/
theorem coverage_eq (a : RangeAssembler) (h : a.totalSize.toNat ≤ isizeMax) :
    a.coverage = some ((List.range a.totalSize.toNat).map (covers a.received)) := by
  have hzero : List.replicate a.totalSize.toNat false
      = (List.range a.totalSize.toNat).map fun _ => false := by simp
  simp only [coverage, vecOf, if_pos h, Option.bind_eq_bind, Option.bind_some, hzero]
  rw [marks_map]
  simp

theorem coverage_large (a : RangeAssembler) (h : isizeMax < a.totalSize.toNat) :
    a.coverage = none := by
  simp [coverage, vecOf, Nat.not_le.mpr h]

theorem isComplete_eq (a : RangeAssembler) (h : a.totalSize.toNat ≤ isizeMax) :
    a.isComplete = some (decide (∀ i < a.totalSize.toNat, covers a.received i = true)) := by
  simp only [isComplete, coverage_eq a h, Option.bind_eq_bind, Option.bind_some]
  congr 1
  rw [Bool.eq_iff_iff]
  simp

/-! ## Missing ranges -/

/-- The ends of a range. -/
def Range.ends (range : Range) : Nat × Nat := (range.start.toNat, range.stop.toNat)

/-- The sweep from a position: with no interval open, and with one. -/
theorem missingFrom_gaps (totalSize : UInt64) (c : Nat → Bool) : ∀ (k i : Nat),
    i + k = totalSize.toNat →
    ((i = 0 ∨ c (i - 1) = true) →
      Gaps (fun j => c j = true) totalSize.toNat i
        ((missingFrom totalSize i none ((List.range' i k).map c)).map Range.ends)) ∧
    ∀ start : UInt64, start.toNat < i → (∀ j, start.toNat ≤ j → j < i → ¬ c j = true) →
      (start.toNat = 0 ∨ c (start.toNat - 1) = true) →
      Gaps (fun j => c j = true) totalSize.toNat start.toNat
        ((missingFrom totalSize i (some start) ((List.range' i k).map c)).map Range.ends)
  | 0, i, hik => by
    refine ⟨fun _ => .nil fun j hj hn => by omega, fun start hlt hbare hleft => ?_⟩
    have hn : totalSize.toNat = i := hik.symm
    refine Gaps.cons ⟨?_, Nat.le_refl _, ?_, hleft, .inl rfl⟩ (Nat.le_refl _)
      (fun j hj hlt' => absurd hj (Nat.not_le.mpr hlt')) (.nil fun j hj hlt' => ?_)
    · rw [Range.ends, hn]
      exact hlt
    · rw [Range.ends, hn]
      exact hbare
    · simp only [Range.ends] at hj
      omega
  | k + 1, i, hik => by
    have hnext := missingFrom_gaps totalSize c k (i + 1) (by omega)
    have hi : (UInt64.ofNat i).toNat = i := by
      have hlt : i < 2 ^ 64 := by
        have := totalSize.toNat_lt
        omega
      exact UInt64.toNat_ofNat_of_lt' hlt
    rw [List.range'_succ, List.map_cons]
    cases hc : c i with
    | true =>
      refine ⟨fun _ => ?_, fun start hlt hbare hleft => ?_⟩
      · exact Gaps.skip (hnext.1 (.inr (by simpa using hc))) hc
      · refine Gaps.cons ⟨?_, ?_, ?_, hleft, .inr ?_⟩ (Nat.le_refl _)
          (fun j hj hlt' => absurd hj (Nat.not_le.mpr hlt')) ?_
        · simpa [Range.ends, hi] using hlt
        · simp only [Range.ends, hi]
          omega
        · simpa only [Range.ends, hi] using hbare
        · simpa [Range.ends, hi] using hc
        · simpa only [Range.ends, hi] using hnext.1 (.inr (by simpa using hc))
    | false =>
      refine ⟨fun hleft => ?_, fun start hlt hbare hleft => ?_⟩
      · have hopen := hnext.2 (UInt64.ofNat i) (by omega)
          (fun j hj hlt => by
            have heq : j = i := by omega
            simp [heq, hc])
          (by rwa [hi])
        rwa [hi] at hopen
      · refine hnext.2 start (by omega) (fun j hj hlt' => ?_) hleft
        by_cases hji : j = i
        · simp [hji, hc]
        · exact hbare j hj (by omega)

theorem missingRanges_gaps (a : RangeAssembler) (h : a.totalSize.toNat ≤ isizeMax) :
    ∃ missing, a.missingRanges = some missing ∧
      Gaps (fun i => covers a.received i = true) a.totalSize.toNat 0 (missing.map Range.ends) := by
  have heq : a.missingRanges = some (missingFrom a.totalSize 0 none
      ((List.range a.totalSize.toNat).map (covers a.received))) := by
    simp only [missingRanges, coverage_eq a h, Option.bind_eq_bind, Option.bind_some]
  refine ⟨_, heq, ?_⟩
  rw [List.range_eq_range']
  exact (missingFrom_gaps a.totalSize (covers a.received) a.totalSize.toNat 0
    (Nat.zero_add _)).1 (.inl rfl)

/-! ## Assembly -/

/-- The range is inside the block, and its data fills it. -/
def Fits (n : Nat) (r : Range × List UInt8) : Prop :=
  r.1.start ≤ r.1.stop ∧ r.1.stop.toNat ≤ n
    ∧ r.2.length = r.1.stop.toNat - r.1.start.toNat

/-- The range goes past the end of the block with the data to fill it, or it ends before it
starts, with data of the length that the subtraction wraps around to or with the check
that it does not. -/
def Breaks (checks : Bool) (n : Nat) (r : Range × List UInt8) : Prop :=
  (r.1.start ≤ r.1.stop ∧ n < r.1.stop.toNat
      ∧ r.2.length = r.1.stop.toNat - r.1.start.toNat) ∨
    (r.1.stop < r.1.start ∧ (checks = true ∨
      r.2.length = 2 ^ 64 - (r.1.start.toNat - r.1.stop.toNat)))

theorem rangeLen_up {checks : Bool} {range : Range} (h : range.start ≤ range.stop) :
    rangeLen checks range = some (range.stop.toNat - range.start.toNat) := by
  have hnot : ¬ range.stop < range.start := UInt64.not_lt.mpr h
  simp [rangeLen, hnot, UInt64.toNat_sub_of_le _ _ h]

theorem rangeLen_down {range : Range} (h : range.stop < range.start) : rangeLen true range = none
      ∧ rangeLen false range = some (2 ^ 64 - (range.start.toNat - range.stop.toNat)) := by
  have hlt : range.stop.toNat < range.start.toNat := UInt64.lt_iff_toNat_lt.mp h
  have hstart := range.start.toNat_lt
  refine ⟨by simp [rangeLen, h], ?_⟩
  simp only [rangeLen, Bool.and_false, Bool.false_eq_true, if_false, UInt64.toNat_sub]
  congr 1
  omega

variable {b data : List UInt8} {r : Range × List UInt8}

theorem copyInto_eq_some_iff {data' : List UInt8} :
    copyInto data r.1 r.2 = some data' ↔ Fits data.length r
      ∧ data' = data.take r.1.start.toNat ++ r.2 ++ data.drop r.1.stop.toNat := by
  unfold copyInto Fits
  split
  · next h => simp [h, eq_comm]
  · next h => simp [h]

/-- One round of the loop: it copies, panics or gives up. -/
theorem copyAll_cons (checks : Bool) (r : Range × List UInt8)
    (received : List (Range × List UInt8)) (data : List UInt8) :
    (Fits data.length r → copyAll checks (r :: received) data
        = copyAll checks received
            (data.take r.1.start.toNat ++ r.2 ++ data.drop r.1.stop.toNat)) ∧
      (Breaks checks data.length r → copyAll checks (r :: received) data = none) ∧
      (¬ Fits data.length r → ¬ Breaks checks data.length r →
        copyAll checks (r :: received) data
          = some (.error (.invalidRange "Chunk size mismatch"))) := by
  have hcopy : ¬ Fits data.length r → copyInto data r.1 r.2 = none := fun h =>
    Option.eq_none_iff_forall_ne_some.mpr fun data' hd => h (copyInto_eq_some_iff.mp hd).1
  obtain ⟨range, chunk⟩ := r
  dsimp only [Fits, Breaks] at hcopy ⊢
  rw [copyAll]
  by_cases hup : range.start ≤ range.stop
  · have hnot : ¬ range.stop < range.start := UInt64.not_lt.mpr hup
    rw [rangeLen_up hup]
    simp only [Option.bind_eq_bind, Option.bind_some]
    by_cases hlen : chunk.length = range.stop.toNat - range.start.toNat
    · rw [if_neg (not_not.mpr hlen)]
      by_cases hin : range.stop.toNat ≤ data.length
      · refine ⟨fun _ => ?_, fun h => ?_, fun h => absurd ⟨hup, hin, hlen⟩ h⟩
        · rw [(copyInto_eq_some_iff (r := (range, chunk))).mpr ⟨⟨hup, hin, hlen⟩, rfl⟩]
          rfl
        · rcases h with ⟨-, hover, -⟩ | ⟨hdown, -⟩
          · omega
          · exact absurd hdown hnot
      · refine ⟨fun h => absurd h.2.1 hin, fun _ => ?_, fun _ h => ?_⟩
        · rw [hcopy (fun h => hin h.2.1)]
          rfl
        · exact absurd (.inl ⟨hup, Nat.lt_of_not_le hin, hlen⟩) h
    · rw [if_pos hlen]
      refine ⟨fun h => absurd h.2.2 hlen, fun h => ?_, fun _ _ => rfl⟩
      rcases h with ⟨-, -, h⟩ | ⟨hdown, -⟩
      · exact absurd h hlen
      · exact absurd hdown hnot
  · have hdown : range.stop < range.start := UInt64.not_le.mp hup
    cases checks with
    | true =>
      rw [(rangeLen_down hdown).1]
      exact ⟨fun h => absurd h.1 hup, fun _ => rfl,
        fun _ h => absurd (.inr ⟨hdown, .inl rfl⟩) h⟩
    | false =>
      rw [(rangeLen_down hdown).2]
      simp only [Option.bind_eq_bind, Option.bind_some]
      by_cases hlen : chunk.length = 2 ^ 64 - (range.start.toNat - range.stop.toNat)
      · rw [if_neg (not_not.mpr hlen)]
        refine ⟨fun h => absurd h.1 hup, fun _ => ?_,
          fun _ h => absurd (.inr ⟨hdown, .inr hlen⟩) h⟩
        rw [hcopy (fun h => hup h.1)]
        rfl
      · rw [if_pos hlen]
        refine ⟨fun h => absurd h.1 hup, fun h => ?_, fun _ _ => rfl⟩
        rcases h with ⟨h, -⟩ | ⟨-, h | h⟩
        · exact absurd h hup
        · cases h
        · exact absurd h hlen

theorem length_copied (h : Fits data.length r) :
    (data.take r.1.start.toNat ++ r.2 ++ data.drop r.1.stop.toNat).length = data.length := by
  obtain ⟨hup, hin, hlen⟩ := h
  have hle : r.1.start.toNat ≤ r.1.stop.toNat := UInt64.le_iff_toNat_le.mp hup
  simp only [List.length_append, List.length_take, List.length_drop]
  omega

/-- The loop panics exactly at a range that breaks behind ranges that fit. -/
theorem copyAll_eq_none_iff (checks : Bool) : ∀ (received : List (Range × List UInt8))
    (data : List UInt8), copyAll checks received data = none ↔
      ∃ before r after, received = before ++ r :: after
        ∧ (∀ q ∈ before, Fits data.length q) ∧ Breaks checks data.length r
  | [], data => by simp [copyAll]
  | r :: received, data => by
    obtain ⟨hfits, hbreaks, hgives⟩ := copyAll_cons checks r received data
    have hexcl : Fits data.length r → ¬ Breaks checks data.length r := by
      rintro ⟨hup, hin, -⟩ (⟨-, hover, -⟩ | ⟨hdown, -⟩)
      · omega
      · exact UInt64.not_lt.mpr hup hdown
    by_cases hr : Fits data.length r
    · rw [hfits hr, copyAll_eq_none_iff checks received, length_copied hr]
      constructor
      · rintro ⟨before, q, after, rfl, hbefore, hq⟩
        exact ⟨r :: before, q, after, rfl, List.forall_mem_cons.mpr ⟨hr, hbefore⟩, hq⟩
      · rintro ⟨before, q, after, heq, hbefore, hq⟩
        cases before with
        | nil =>
          obtain ⟨rfl, rfl⟩ := List.cons.inj heq
          exact absurd hq (hexcl hr)
        | cons first before =>
          obtain ⟨rfl, rfl⟩ := List.cons.inj heq
          exact ⟨before, q, after, rfl, (List.forall_mem_cons.mp hbefore).2, hq⟩
    · by_cases hb : Breaks checks data.length r
      · rw [hbreaks hb]
        exact ⟨fun _ => ⟨[], r, received, rfl, by simp, hb⟩, fun _ => rfl⟩
      · rw [hgives hr hb]
        refine ⟨fun h => (by cases h), ?_⟩
        rintro ⟨before, q, after, heq, hbefore, hq⟩
        cases before with
        | nil =>
          obtain ⟨rfl, rfl⟩ := List.cons.inj heq
          exact absurd hq hb
        | cons first before =>
          obtain ⟨rfl, rfl⟩ := List.cons.inj heq
          exact absurd (List.forall_mem_cons.mp hbefore).1 hr

/-! ## Whole blocks -/

/-- The response is a piece of the block. -/
def Agrees (b : List UInt8) (r : Range × List UInt8) : Prop :=
  r.1.start ≤ r.1.stop ∧ r.1.stop.toNat ≤ b.length
    ∧ r.2 = (b.drop r.1.start.toNat).take (r.1.stop.toNat - r.1.start.toNat)

theorem Agrees.fits (h : Agrees b r) : Fits b.length r := by
  obtain ⟨hup, hin, hdata⟩ := h
  refine ⟨hup, hin, ?_⟩
  rw [hdata, List.length_take, List.length_drop]
  omega

/-- Where it is copied, the data is that of the block; elsewhere it stays. -/
theorem getElem?_copied (h : Agrees b r) (hlen : data.length = b.length) (i : Nat) :
    (data.take r.1.start.toNat ++ r.2 ++ data.drop r.1.stop.toNat)[i]?
      = if Range.has r.1 i then b[i]? else data[i]? := by
  have hfits := h.fits.2.2
  obtain ⟨hup, hin, hdata⟩ := h
  have hle : r.1.start.toNat ≤ r.1.stop.toNat := UInt64.le_iff_toNat_le.mp hup
  have hstart : (data.take r.1.start.toNat).length = r.1.start.toNat := by
    rw [List.length_take]
    omega
  rw [List.append_assoc]
  by_cases hi : i < r.1.start.toNat
  · have hnot : Range.has r.1 i = false := by simp [Range.has, Nat.not_le.mpr hi]
    rw [List.getElem?_append_left (by omega), List.getElem?_take_of_lt hi, hnot]
    rfl
  · rw [List.getElem?_append_right (by omega), hstart]
    by_cases hstop : i < r.1.stop.toNat
    · have hhas : Range.has r.1 i = true := by simp [Range.has, hstop, Nat.not_lt.mp hi]
      rw [List.getElem?_append_left (by omega), hdata, List.getElem?_take_of_lt (by omega),
        List.getElem?_drop, hhas, if_pos rfl]
      congr 1
      omega
    · have hnot : Range.has r.1 i = false := by simp [Range.has, hstop]
      rw [List.getElem?_append_right (by omega), List.getElem?_drop, hnot]
      simp only [Bool.false_eq_true, if_false]
      congr 1
      omega

/-- Pieces of one block are copied without a panic, and the covered positions are right. -/
theorem copyAll_agrees (checks : Bool) (b : List UInt8) :
    ∀ (received : List (Range × List UInt8)) (data : List UInt8), data.length = b.length →
      (∀ r ∈ received, Agrees b r) →
      ∃ data', copyAll checks received data = some (.ok data') ∧ data'.length = b.length
        ∧ ∀ i, (data[i]? = b[i]? ∨ covers received i = true) → data'[i]? = b[i]?
  | [], data, hlen, _ => ⟨data, rfl, hlen, fun i h => by simpa [covers] using h⟩
  | r :: received, data, hlen, h => by
    obtain ⟨hr, hrest⟩ := List.forall_mem_cons.mp h
    have hfits : Fits data.length r := hlen ▸ hr.fits
    obtain ⟨data', hcopy, hlen', hright⟩ := copyAll_agrees checks b received _
      ((length_copied hfits).trans hlen) hrest
    refine ⟨data', by rw [(copyAll_cons checks r received data).1 hfits, hcopy], hlen', ?_⟩
    intro i hi
    refine hright i ?_
    rw [getElem?_copied hr hlen]
    cases hhas : Range.has r.1 i with
    | true => exact .inl rfl
    | false =>
      rcases hi with hi | hi
      · exact .inl hi
      · refine .inr ?_
        simpa [covers, hhas] using hi

/-- What is asked of an assembler: none of its methods panics, the missing ranges are the
maximal intervals that no response covers, and pieces of one block give the block exactly
when nothing is missing. -/
structure Reassembles (checks : Bool) (a : RangeAssembler) : Prop where
  complete : a.isComplete ≠ none
  missing : ∃ missing, a.missingRanges = some missing ∧
    Gaps (fun i => covers a.received i = true) a.totalSize.toNat 0 (missing.map Range.ends)
  assembles : a.assemble checks ≠ none
  exact : ∀ b : List UInt8, b.length = a.totalSize.toNat → (∀ r ∈ a.received, Agrees b r) →
    (a.assemble checks = some (.ok b) ↔ a.missingRanges = some [])

/-- The block is covered, and a range breaks behind ranges that fit. -/
def Overruns (checks : Bool) (a : RangeAssembler) : Prop :=
  (∀ i < a.totalSize.toNat, covers a.received i = true) ∧
    ∃ before r after, a.received = before ++ r :: after
      ∧ (∀ q ∈ before, Fits a.totalSize.toNat q) ∧ Breaks checks a.totalSize.toNat r

theorem assemble_eq (checks : Bool) (a : RangeAssembler) (h : a.totalSize.toNat ≤ isizeMax) :
    a.assemble checks
      = if ∀ i < a.totalSize.toNat, covers a.received i = true then
          copyAll checks a.received (List.replicate a.totalSize.toNat 0)
        else some (.error (.invalidRange "Block incomplete")) := by
  simp only [assemble, isComplete_eq a h, Option.bind_eq_bind, Option.bind_some, vecOf, if_pos h]
  by_cases hall : ∀ i < a.totalSize.toNat, covers a.received i = true
  · rw [decide_eq_true hall, if_pos hall]
    rfl
  · rw [decide_eq_false hall, if_neg hall]
    rfl

theorem assemble_eq_none_iff (checks : Bool) (a : RangeAssembler)
    (h : a.totalSize.toNat ≤ isizeMax) : a.assemble checks = none ↔ Overruns checks a := by
  rw [assemble_eq checks a h, Overruns]
  split
  · next hall =>
    rw [copyAll_eq_none_iff, List.length_replicate]
    exact ⟨fun h => ⟨hall, h⟩, fun h => h.2⟩
  · next hall => simp [hall]

theorem missingRanges_eq_nil_iff (a : RangeAssembler) (h : a.totalSize.toNat ≤ isizeMax) :
    a.missingRanges = some [] ↔ ∀ i < a.totalSize.toNat, covers a.received i = true := by
  obtain ⟨missing, heq, hgaps⟩ := missingRanges_gaps a h
  rw [heq, ← hgaps.eq_nil_iff]
  simp

theorem assemble_agrees (checks : Bool) (a : RangeAssembler) (h : a.totalSize.toNat ≤ isizeMax)
    (hb : b.length = a.totalSize.toNat) (hagree : ∀ r ∈ a.received, Agrees b r) :
    a.assemble checks = some (.ok b) ↔ a.missingRanges = some [] := by
  rw [missingRanges_eq_nil_iff a h, assemble_eq checks a h]
  split
  · next hall =>
    refine ⟨fun _ => hall, fun _ => ?_⟩
    obtain ⟨data, hcopy, hlen, hright⟩ := copyAll_agrees checks b a.received
      (List.replicate a.totalSize.toNat 0) (by rw [List.length_replicate, hb]) hagree
    have hdata : data = b := by
      refine List.ext_getElem? fun i => ?_
      by_cases hi : i < a.totalSize.toNat
      · exact hright i (.inr (hall i hi))
      · rw [List.getElem?_eq_none (by omega), List.getElem?_eq_none (by omega)]
    rw [hcopy, hdata]
  · next hall => simp [hall]

/-- The assembler after some responses; one that is refused leaves it as it is. -/
def addAll (a : RangeAssembler) (responses : List RangeResponse) : RangeAssembler :=
  responses.foldl (fun a response => (a.addRange response).toOption.getD a) a

/-- The responses for a block and its size, in order. -/
def accepted (cid : Cid) (totalSize : UInt64) (responses : List RangeResponse) :
    List (Range × List UInt8) :=
  (responses.filter fun r => r.cid = cid ∧ r.totalSize = totalSize).map fun r => (r.range, r.data)

theorem addAll_eq (responses : List RangeResponse) : ∀ a : RangeAssembler, a.addAll responses
      = { a with received := a.received ++ accepted a.cid a.totalSize responses } := by
  induction responses with
  | nil => simp [addAll, accepted]
  | cons r responses ih =>
    intro a
    have hstep : a.addAll (r :: responses)
        = ((a.addRange r).toOption.getD a).addAll responses := rfl
    rw [hstep, ih, addRange]
    by_cases hcid : r.cid = a.cid
    · by_cases hsize : r.totalSize = a.totalSize
      · simp [hcid, hsize, Except.toOption, accepted]
      · simp [hcid, hsize, Except.toOption, accepted]
    · simp [hcid, Except.toOption, accepted]

theorem assembler_iff (checks : Bool) (a : RangeAssembler) :
    Reassembles checks a ↔ a.totalSize.toNat ≤ isizeMax ∧ ¬ Overruns checks a := by
  constructor
  · intro h
    have hsize : a.totalSize.toNat ≤ isizeMax := by
      by_contra hlarge
      refine h.complete ?_
      simp [isComplete, coverage_large a (Nat.lt_of_not_le hlarge)]
    exact ⟨hsize, fun hover => h.assembles ((assemble_eq_none_iff checks a hsize).mpr hover)⟩
  · rintro ⟨hsize, hover⟩
    exact {
      complete := by rw [isComplete_eq a hsize]; exact Option.some_ne_none _
      missing := missingRanges_gaps a hsize
      assembles := fun h => hover ((assemble_eq_none_iff checks a hsize).mp h)
      exact := fun b hb hagree => assemble_agrees checks a hsize hb hagree }

/-- **When ranges are put together rightly**: after any responses, of which those for the
block and its size are received, exactly if the block can be in memory and it is not
covered with a range that breaks behind ranges that fit. -/
theorem reassembles_iff (checks : Bool) (cid : Cid) (totalSize : UInt64)
    (responses : List RangeResponse) :
    (new cid totalSize).addAll responses
        = { cid, totalSize, received := accepted cid totalSize responses } ∧
      (Reassembles checks ((new cid totalSize).addAll responses) ↔
        totalSize.toNat ≤ isizeMax
          ∧ ¬ Overruns checks ((new cid totalSize).addAll responses)) := by
  have hall := addAll_eq responses (new cid totalSize)
  refine ⟨by simpa [new] using hall, ?_⟩
  have hsize : ((new cid totalSize).addAll responses).totalSize = totalSize := by rw [hall]; rfl
  rw [assembler_iff, hsize]

/-- A response for bytes 0 to 2 of a block of one byte, with two bytes: the block is
covered, and `assemble` panics with and without checks. -/
theorem not_reassembles :
    ¬ ∀ (checks : Bool) (cid : Cid) (totalSize : UInt64) (responses : List RangeResponse),
        Reassembles checks ((new cid totalSize).addAll responses) := by
  intro h
  let cid : Cid := {
    version := .v1
    codec := codecRaw
    hash := { code := 0x12, digest := [], size_le := by decide }
    v0_ok := by simp }
  have hr := h false cid 1
    [{ cid, range := { start := 0, stop := 2 }, data := [7, 7], totalSize := 1 }]
  exact hr.assembles (by decide)

end RangeAssembler

end Ipfrs.Transport
