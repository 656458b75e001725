/-
Ipfrs.Compute.Collectives — reductions across peers (`collectives.rs`).

`reduce_scatter` cuts the reduced data into the windows of an even split, a multiple of the
size of one row apart, and `all_gather` joins them again. It takes the size of a row to be at
least 1. That is right for a row without dimensions only: where another dimension is 0 and the
leading one is not, the first slice is out of bounds.

Products of sizes panic or wrap (`usize`). Where those of the positions wrap, a chunk whose end
lies before its start panics, and if there is none the chunks are still consecutive: the windows
are mapped to the data by a function that falls on none of them (`Tiles.flatMap_slices`). So
`reduceScatter_allGather_iff` asks for room for the list of the chunks, for products that do not
overflow where that is checked, and for rows that are not empty and positions that do not fall.
-/
import Ipfrs.Compute.Sharding

namespace Ipfrs.Compute.Collectives

open Ipfrs.Lib

/-- The reduction across the tensors of the peers. -/
inductive ReduceOp where
  | sum
  | mean
  | max
  | min
  | product
  deriving DecidableEq, Repr

section

variable {S : Type} [F32 S]

def reducePair (op : ReduceOp) (a b : S) : S :=
  match op with
  | .sum | .mean => a + b
  | .max => F32.max a b
  | .min => F32.min a b
  | .product => a * b

/-- `zip` over a mutable accumulator: what has no partner stays. -/
def reduceInto (op : ReduceOp) (acc data : List S) : List S :=
  List.zipWith (reducePair op) acc data ++ acc.drop data.length

def allReduce (checks : Bool) (tensors : List (NumTensor S)) (op : ReduceOp) :
    Except Fault (NumTensor S) :=
  match tensors with
  | [] => .error (.err (.executionError "all_reduce: no tensors to reduce"))
  | first :: rest =>
    match rest.find? (fun t => t.shape ≠ first.shape) with
    | some t =>
      .error (.err (.shapeMismatch ("all_reduce: shape " ++ showShape t.shape ++ " != "
        ++ showShape first.shape)))
    | none =>
      let acc := rest.foldl (fun acc t => reduceInto op acc t.data) first.data
      let acc :=
        if op = .mean then acc.map (fun a => a / F32.ofNat tensors.length) else acc
      NumTensor.newIn checks acc first.shape

end

section

variable {S : Type}

/-- One round of the loop of `all_gather`: a shard whose trailing dimensions differ. -/
def incompatible (trailing : List Nat) (s : NumTensor S) : Bool :=
  s.shape.isEmpty || decide (s.shape.tail ≠ trailing)

def allGather (checks : Bool) (shards : List (NumTensor S)) : Except Fault (NumTensor S) :=
  match shards with
  | [] => .error (.err (.executionError "all_gather: no shards to gather"))
  | first :: _ =>
    match first.shape with
    | [] => .error (.err (.shapeMismatch "all_gather: scalar shards have no leading axis"))
    | _ :: trailing => do
      let leadTotal ← shards.foldlM (fun leadTotal s =>
        if incompatible trailing s then
          .error (.err (.shapeMismatch ("all_gather: trailing dims " ++ showShape s.shape
            ++ " incompatible with " ++ showShape first.shape)))
        else usize checks (leadTotal + s.shape.headD 0)) 0
      NumTensor.newIn checks (shards.flatMap NumTensor.data) (leadTotal :: trailing)

/-- One chunk: `data[start * inner..(start + len) * inner]` as a tensor. -/
def chunkOf (checks : Bool) (data : List S) (trailing : List Nat) (inner start len : Nat) :
    Except Fault (NumTensor S) := do
  let lo ← usize checks (start * inner)
  let hi ← usize checks ((start + len) * inner)
  let piece ← slice data lo hi
  NumTensor.newIn checks piece (len :: trailing)

/-- The loop of `reduce_scatter` over the numbers of the chunks. -/
def scatterLoop (checks : Bool) (data : List S) (trailing : List Nat) (inner base rem : Nat) :
    List Nat → Nat → Except Fault (List (NumTensor S))
  | [], _ => .ok []
  | i :: rest, start => do
      let len := base + if i < rem then 1 else 0
      let chunk ← chunkOf checks data trailing inner start len
      let chunks ← scatterLoop checks data trailing inner base rem rest (start + len)
      .ok (chunk :: chunks)

def reduceScatter [F32 S] (checks : Bool) (tensors : List (NumTensor S)) (op : ReduceOp)
    (numChunks : Nat) : Except Fault (List (NumTensor S)) := do
  if numChunks = 0 then
    throw (.err (.executionError "reduce_scatter: num_chunks must be > 0"))
  let reduced ← allReduce checks tensors op
  match reduced.shape with
  | [] =>
    throw (.err (.shapeMismatch "reduce_scatter: scalar has no leading axis to scatter"))
  | lead :: trailing =>
    let inner := max (← elemsIn checks trailing) 1
    let base := lead / numChunks
    let rem := lead % numChunks
    -- a `NumTensor` takes 48 bytes
    withCapacity 48 numChunks
    scatterLoop checks reduced.data trailing inner base rem (List.range numChunks) 0

end

/-! ## Sizes -/

/-- No product from `n` on exceeds `usize`. -/
def FitsFrom : Nat → List Nat → Prop
  | _, [] => True
  | n, d :: shape => n * d < 2 ^ 64 ∧ FitsFrom (n * d) shape

def Fits (shape : List Nat) : Prop := FitsFrom 1 shape

instance : ∀ (n : Nat) (shape : List Nat), Decidable (FitsFrom n shape)
  | _, [] => instDecidableTrue
  | n, d :: shape =>
    have := instDecidableFitsFrom (n * d) shape
    inferInstanceAs (Decidable (n * d < 2 ^ 64 ∧ FitsFrom (n * d) shape))

instance (shape : List Nat) : Decidable (Fits shape) :=
  inferInstanceAs (Decidable (FitsFrom 1 shape))

theorem FitsFrom.mono : ∀ {shape : List Nat} {m n : Nat}, FitsFrom n shape → m ≤ n →
    FitsFrom m shape
  | [], _, _, _, _ => trivial
  | d :: _, _, _, h, hle =>
    have hd := Nat.mul_le_mul_right d hle
    ⟨Nat.lt_of_le_of_lt hd h.1, FitsFrom.mono h.2 hd⟩

theorem FitsFrom.mul_volume_lt : ∀ {shape : List Nat} {n : Nat}, FitsFrom n shape → n < 2 ^ 64 →
    n * volume shape < 2 ^ 64
  | [], n, _, hn => by simpa [volume] using hn
  | d :: shape, n, h, _ => by
    have hrest := FitsFrom.mul_volume_lt h.2 h.1
    rwa [Nat.mul_assoc] at hrest

theorem usize_eq_mod {checks : Bool} {n : Nat} (h : checks = true → n < 2 ^ 64) :
    usize checks n = .ok (n % 2 ^ 64) := by
  by_cases hn : n < 2 ^ 64
  · rw [usize_eq hn, Nat.mod_eq_of_lt hn]
  · rw [usize, if_neg hn, if_neg (fun hc => hn (h hc))]

theorem of_usize {checks : Bool} {n m : Nat} (h : usize checks n = .ok m) :
    m = n % 2 ^ 64 ∧ (checks = true → n < 2 ^ 64) := by
  by_cases hn : n < 2 ^ 64
  · rw [usize_eq hn] at h
    cases h
    exact ⟨(Nat.mod_eq_of_lt hn).symm, fun _ => hn⟩
  · rw [usize, if_neg hn] at h
    split at h
    · cases h
    · next hc =>
      cases h
      exact ⟨rfl, fun h => absurd h hc⟩

theorem foldlM_usize_eq {checks : Bool} : ∀ {shape : List Nat} {n : Nat},
    (checks = true → FitsFrom n shape) → n < 2 ^ 64 →
    shape.foldlM (fun n d => usize checks (n * d)) n = .ok (n * volume shape % 2 ^ 64)
  | [], n, _, hn => by
    have hone : n * volume [] = n := Nat.mul_one n
    rw [hone, Nat.mod_eq_of_lt hn]
    rfl
  | d :: shape, n, h, _ => by
    have hrest : checks = true → FitsFrom (n * d % 2 ^ 64) shape := fun hc => by
      rw [Nat.mod_eq_of_lt (h hc).1]
      exact (h hc).2
    rw [List.foldlM_cons, usize_eq_mod (fun hc => (h hc).1), ok_bind,
      foldlM_usize_eq hrest (Nat.mod_lt _ (by decide)), Nat.mod_mul_mod, Nat.mul_assoc]
    rfl

theorem fitsFrom_of_foldlM {checks : Bool} : ∀ {shape : List Nat} {n m : Nat},
    shape.foldlM (fun n d => usize checks (n * d)) n = .ok m → checks = true → FitsFrom n shape
  | [], _, _, _, _ => trivial
  | d :: shape, n, m, h, hc => by
    rw [List.foldlM_cons] at h
    obtain ⟨k, hk, h⟩ := bind_eq_ok.mp h
    have hd := (of_usize hk).2 hc
    rw [usize_eq hd] at hk
    cases hk
    exact ⟨hd, fitsFrom_of_foldlM h hc⟩

theorem elemsIn_eq {checks : Bool} {shape : List Nat} (h : checks = true → Fits shape) :
    elemsIn checks shape = .ok (elems shape) := by
  have hfold := foldlM_usize_eq (n := 1) h (by decide)
  rwa [Nat.one_mul] at hfold

theorem fits_of_elemsIn {checks : Bool} {shape : List Nat} {n : Nat}
    (h : elemsIn checks shape = .ok n) : checks = true → Fits shape := fitsFrom_of_foldlM h

theorem newIn_eq {S : Type} {checks : Bool} {data : List S} {shape : List Nat}
    (h : checks = true → Fits shape) (hlen : data.length = elems shape) :
    NumTensor.newIn checks data shape = .ok { data, shape, valid := hlen } := by
  rw [NumTensor.newIn, elemsIn_eq h, ok_bind, NumTensor.new_eq hlen]

/-! ## Reduction -/

section

variable {S : Type} [F32 S] {checks : Bool} {lead : Nat} {trailing : List Nat}

theorem length_reduceInto (op : ReduceOp) (acc data : List S) :
    (reduceInto op acc data).length = acc.length := by
  rw [reduceInto, List.length_append, List.length_zipWith, List.length_drop]
  omega

theorem length_foldl_reduceInto (op : ReduceOp) : ∀ (rest : List (NumTensor S)) (acc : List S),
    (rest.foldl (fun acc t => reduceInto op acc t.data) acc).length = acc.length
  | [], _ => rfl
  | t :: rest, acc => by
    rw [List.foldl_cons, length_foldl_reduceInto, length_reduceInto]

/-- Tensors of one shape are reduced to one of that shape, once its product is taken. -/
theorem allReduce_eq {tensors : List (NumTensor S)} (hne : tensors ≠ []) {shape : List Nat}
    (hshape : ∀ t ∈ tensors, t.shape = shape) (op : ReduceOp) : ∃ r, r.shape = shape ∧ ∀ checks,
      allReduce checks tensors op = elemsIn checks shape >>= fun _ => .ok r := by
  obtain ⟨first, rest, rfl⟩ := List.exists_cons_of_ne_nil hne
  have hfirst : first.shape = shape := hshape first List.mem_cons_self
  have hfind : rest.find? (fun t => t.shape ≠ first.shape) = none := by
    rw [List.find?_eq_none]
    intro t ht
    rw [hshape t (List.mem_cons_of_mem first ht), hfirst]
    simp
  have hlen : (if op = .mean then
      (rest.foldl (fun acc t => reduceInto op acc t.data) first.data).map
        (fun a => a / F32.ofNat (first :: rest).length)
      else rest.foldl (fun acc t => reduceInto op acc t.data) first.data).length
      = elems first.shape := by
    split
    · rw [List.length_map, length_foldl_reduceInto, first.valid]
    · rw [length_foldl_reduceInto, first.valid]
  refine ⟨{ data := _, shape := first.shape, valid := hlen }, hfirst, fun checks => ?_⟩
  rw [allReduce, hfind, ← hfirst]
  exact congrArg (elemsIn checks first.shape >>= ·) (funext fun _ => NumTensor.new_eq hlen)

end

/-! ## Scatter and gather -/

section

variable {S : Type} {checks : Bool} {trailing : List Nat}

theorem scatterLoop_eq (data : List S) (trailing : List Nat) (inner base rem : Nat) :
    ∀ (numbers : List Nat) (start : Nat),
      scatterLoop checks data trailing inner base rem numbers start
        = (evenWindowsFrom base rem numbers start).mapM
          (fun w => chunkOf checks data trailing inner w.1 w.2)
  | [], _ => rfl
  | i :: rest, start => by
    rw [scatterLoop, evenWindowsFrom, List.mapM_cons]
    simp only [scatterLoop_eq]
    rfl

/-- A chunk that is cut out ends within the data, and not before its start. -/
theorem bounds_of_chunkOf {data : List S} {inner start len : Nat} {chunk : NumTensor S}
    (h : chunkOf checks data trailing inner start len = .ok chunk) :
    start * inner % 2 ^ 64 ≤ (start + len) * inner % 2 ^ 64 ∧
      (start + len) * inner % 2 ^ 64 ≤ data.length := by
  obtain ⟨lo, hlo, h⟩ := bind_eq_ok.mp h
  obtain ⟨hi, hhi, h⟩ := bind_eq_ok.mp h
  obtain ⟨piece, hpiece, -⟩ := bind_eq_ok.mp h
  rw [← (of_usize hlo).1, ← (of_usize hhi).1]
  exact bounds_of_slice hpiece

/-- And one with such an end is cut out. -/
theorem chunkOf_ok {data : List S} {inner start len : Nat}
    (hchecks : checks = true → (start + len) * inner < 2 ^ 64 ∧ Fits (len :: trailing))
    (hle : start * inner % 2 ^ 64 ≤ (start + len) * inner % 2 ^ 64)
    (hend : (start + len) * inner % 2 ^ 64 ≤ data.length)
    (hrow : len * inner % 2 ^ 64 = elems (len :: trailing)) :
    ∃ chunk, chunkOf checks data trailing inner start len = .ok chunk ∧
      chunk.shape = len :: trailing ∧ chunk.data = (data.drop (start * inner % 2 ^ 64)).take
        ((start + len) * inner % 2 ^ 64 - start * inner % 2 ^ 64) := by
  rw [Nat.add_mul] at hchecks hle hend ⊢
  have hlen : ((data.drop (start * inner % 2 ^ 64)).take
      ((start * inner + len * inner) % 2 ^ 64 - start * inner % 2 ^ 64)).length
      = elems (len :: trailing) := by
    rw [List.length_take, List.length_drop, ← hrow]
    omega
  refine ⟨{ data := _, shape := _, valid := hlen }, ?_, rfl, rfl⟩
  have hlo : checks = true → start * inner < 2 ^ 64 := fun hc =>
    Nat.lt_of_le_of_lt (Nat.le_add_right _ _) (hchecks hc).1
  rw [chunkOf, usize_eq_mod hlo, ok_bind, Nat.add_mul, usize_eq_mod (fun hc => (hchecks hc).1),
    ok_bind, slice_eq hle hend, ok_bind, newIn_eq (fun hc => (hchecks hc).2) hlen]

/-- Chunks of consecutive windows are gathered into the whole. -/
theorem allGather_chunks {r : NumTensor S} {lead : Nat} (hshape : r.shape = lead :: trailing)
    (hlead : lead < 2 ^ 64) (hfits : checks = true → Fits (lead :: trailing)) {g : Nat → Nat}
    (hzero : g 0 = 0) (hend : g lead = r.data.length) {ws : List (Nat × Nat)} (hws : ws ≠ [])
    (htiles : Tiles 0 ws lead) (hg : ∀ w ∈ ws, g w.1 ≤ g (w.1 + w.2)) {chunks : List (NumTensor S)}
    (hchunks : List.Forall₂ (fun w c => c.shape = w.2 :: trailing ∧
      c.data = (r.data.drop (g w.1)).take (g (w.1 + w.2) - g w.1)) ws chunks) :
    allGather checks chunks = .ok r := by
  have hdata : chunks.flatMap NumTensor.data = r.data := by
    rw [flatMap_data (hchunks.imp (fun _ _ h => h.2)), htiles.flatMap_slices r.data hg, hzero,
      List.drop_zero, Nat.sub_zero, hend, List.take_length]
  obtain ⟨w, ws, rfl⟩ := List.exists_cons_of_ne_nil hws
  have hlen : r.data.length = elems (lead :: trailing) := by rw [r.valid, hshape]
  have htotal : ∀ name : String, chunks.foldlM (fun leadTotal s =>
      if incompatible trailing s then
        .error (.err (.shapeMismatch ("all_gather: trailing dims " ++ showShape s.shape
          ++ " incompatible with " ++ name)))
      else usize checks (leadTotal + s.shape.headD 0)) 0 = .ok lead := fun name =>
    foldlM_usize hlead (hchunks.imp (fun w s hs n hlt => by
      rw [if_neg (by simp [incompatible, hs.1]), hs.1, List.headD_cons, usize_eq hlt])) htiles
  cases hchunks with
  | @cons _ c _ chunks hc _ =>
    have hstep : allGather checks (c :: chunks)
        = NumTensor.newIn checks r.data (lead :: trailing) := by
      rw [allGather, hc.1]
      dsimp only
      rw [htotal, ok_bind, hdata]
    rw [hstep, newIn_eq hfits hlen]
    exact congrArg Except.ok (NumTensor.ext rfl hshape.symm)

theorem elems_cons (d : Nat) (shape : List Nat) :
    elems (d :: shape) = d * elems shape % 2 ^ 64 := (Nat.mul_mod_mod d _ _).symm

/-- Where its products fit, a scatter cuts its chunks out of the reduced data. -/
theorem reduceScatter_eq [F32 S] {tensors : List (NumTensor S)} {op : ReduceOp} {r : NumTensor S}
    {lead : Nat} (hr : r.shape = lead :: trailing)
    (hreduce : allReduce checks tensors op = .ok r) (hfits : checks = true → Fits trailing)
    {numChunks : Nat} (hnum : 0 < numChunks) :
    reduceScatter checks tensors op numChunks = withCapacity 48 numChunks >>= fun _ =>
      (evenWindows lead numChunks).mapM
        (fun w => chunkOf checks r.data trailing (max (elems trailing) 1) w.1 w.2) := by
  rw [reduceScatter, if_neg (Nat.pos_iff_ne_zero.mp hnum), hreduce]
  simp only [ok_bind, hr, elemsIn_eq hfits, scatterLoop_eq]
  rfl

/-- Chunks cut out of data with as many items as its shape says start with a row that is not
empty, if there is a row. -/
theorem rows_of_chunks {data : List S} {lead numChunks : Nat} (hlead : 0 < lead)
    (hlt : lead < 2 ^ 64) (hlen : data.length = lead * elems trailing % 2 ^ 64)
    (hnum : 0 < numChunks) (hchunks : ∀ w ∈ evenWindows lead numChunks, ∃ chunk,
      chunkOf checks data trailing (max (elems trailing) 1) w.1 w.2 = .ok chunk) :
    elems trailing ≠ 0 := by
  intro hzero
  obtain ⟨len, rest, hwindows, hpos⟩ := evenWindows_eq_cons hlead hnum
  have hmem : (0, len) ∈ evenWindows lead numChunks := hwindows ▸ List.mem_cons_self
  obtain ⟨chunk, hchunk⟩ := hchunks _ hmem
  have hle : 0 + len ≤ lead := ((tiles_evenWindows hnum).bounds _ hmem).2
  -- the data is empty and the first chunk is not
  have hend := (bounds_of_chunkOf hchunk).2
  rw [hlen, hzero] at hend
  simp only [Nat.mul_zero, Nat.zero_mod, Nat.zero_max, Nat.mul_one] at hend
  rw [Nat.mod_eq_of_lt (by omega)] at hend
  omega

variable [F32 S]

/-- **Reduce-scatter, then all-gather, is all-reduce** exactly if there is room for the list of
the chunks, no product overflows where that is checked, and there are no rows or they have items
and no chunk ends before its start. -/
theorem reduceScatter_allGather_iff (checks : Bool) {tensors : List (NumTensor S)}
    (hne : tensors ≠ []) {lead : Nat} (hlead : lead < 2 ^ 64)
    (hshape : ∀ t ∈ tensors, t.shape = lead :: trailing) (op : ReduceOp) {numChunks : Nat}
    (hnum : 0 < numChunks) : (∃ chunks, reduceScatter checks tensors op numChunks = .ok chunks ∧
      allGather checks chunks = allReduce checks tensors op) ↔
    48 * numChunks < 2 ^ 63 ∧ (checks = true → Fits (lead :: trailing) ∧ Fits trailing) ∧
      (lead = 0 ∨ elems trailing ≠ 0 ∧ ∀ w ∈ evenWindows lead numChunks,
        w.1 * elems trailing % 2 ^ 64 ≤ (w.1 + w.2) * elems trailing % 2 ^ 64) := by
  obtain ⟨r, hr, hreduce⟩ := allReduce_eq hne hshape op
  have hlen : r.data.length = lead * elems trailing % 2 ^ 64 := by
    rw [r.valid, hr, elems_cons]
  have htiles : Tiles 0 (evenWindows lead numChunks) lead := tiles_evenWindows hnum
  constructor
  · rintro ⟨chunks, hchunks, -⟩
    have hfits : checks = true → Fits (lead :: trailing) ∧ Fits trailing := fun hc => by
      rw [reduceScatter, if_neg (Nat.pos_iff_ne_zero.mp hnum), hreduce] at hchunks
      obtain ⟨r', hr', hchunks⟩ := bind_eq_ok.mp hchunks
      obtain ⟨n, hn, hr'⟩ := bind_eq_ok.mp hr'
      cases hr'
      rw [hr] at hchunks
      obtain ⟨m, hm, -⟩ := bind_eq_ok.mp hchunks
      exact ⟨fits_of_elemsIn hn hc, fits_of_elemsIn hm hc⟩
    have hok : allReduce checks tensors op = .ok r := by
      rw [hreduce, elemsIn_eq (fun hc => (hfits hc).1), ok_bind]
    rw [reduceScatter_eq hr hok (fun hc => (hfits hc).2) hnum] at hchunks
    obtain ⟨_, hcapacity, hchunks⟩ := bind_eq_ok.mp hchunks
    have hall := ok_of_mapM_ok hchunks
    refine ⟨capacity_of_withCapacity hcapacity, hfits, ?_⟩
    rcases Nat.eq_zero_or_pos lead with hzero | hpos
    · exact .inl hzero
    · have hrow := rows_of_chunks hpos hlead hlen hnum hall
      refine .inr ⟨hrow, fun w hw => ?_⟩
      obtain ⟨chunk, hchunk⟩ := hall w hw
      have hbounds := (bounds_of_chunkOf hchunk).1
      rwa [Nat.max_eq_left (Nat.pos_iff_ne_zero.mpr hrow)] at hbounds
  · rintro ⟨hcapacity, hfits, hgood⟩
    have hok : allReduce checks tensors op = .ok r := by
      rw [hreduce, elemsIn_eq (fun hc => (hfits hc).1), ok_bind]
    rw [reduceScatter_eq hr hok (fun hc => (hfits hc).2) hnum, withCapacity_eq hcapacity, ok_bind,
      hok]
    have hrise : ∀ w ∈ evenWindows lead numChunks,
        w.1 * max (elems trailing) 1 % 2 ^ 64 ≤ (w.1 + w.2) * max (elems trailing) 1 % 2 ^ 64 := by
      intro w hw
      rcases hgood with hzero | ⟨hrow, hrise⟩
      · have := htiles.bounds w hw
        have hw2 : w.2 = 0 := by omega
        rw [hw2, Nat.add_zero]
      · rw [Nat.max_eq_left (Nat.pos_iff_ne_zero.mpr hrow)]
        exact hrise w hw
    have hinner : ∀ n ≤ lead, n * max (elems trailing) 1 = n * elems trailing := by
      intro n hn
      rcases hgood with hzero | ⟨hrow, -⟩
      · rw [show n = 0 by omega, Nat.zero_mul, Nat.zero_mul]
      · rw [Nat.max_eq_left (Nat.pos_iff_ne_zero.mpr hrow)]
    have hend : lead * max (elems trailing) 1 % 2 ^ 64 = r.data.length := by
      rw [hlen, hinner lead le_rfl]
    have hchunk : ∀ w ∈ evenWindows lead numChunks, ∃ chunk,
        chunkOf checks r.data trailing (max (elems trailing) 1) w.1 w.2 = .ok chunk ∧
        chunk.shape = w.2 :: trailing ∧
        chunk.data = (r.data.drop (w.1 * max (elems trailing) 1 % 2 ^ 64)).take
          ((w.1 + w.2) * max (elems trailing) 1 % 2 ^ 64
            - w.1 * max (elems trailing) 1 % 2 ^ 64) := by
      intro w hw
      have hle : w.1 + w.2 ≤ lead := (htiles.bounds w hw).2
      refine chunkOf_ok (fun hc => ⟨?_, ?_⟩) (hrise w hw) ?_ ?_
      · have hvolume := hfits hc |>.1.2.mul_volume_lt (hfits hc).1.1
        have hmod : elems trailing ≤ volume trailing := Nat.mod_le _ _
        have hmul := Nat.mul_le_mul hle hmod
        rw [Nat.one_mul] at hvolume
        rw [hinner _ hle]
        omega
      · exact ⟨by omega, (hfits hc).1.2.mono (by omega)⟩
      · rw [← hend]
        exact (htiles.mono (g := fun k => k * max (elems trailing) 1 % 2 ^ 64) hrise).2 w hw
      · rw [hinner w.2 (by omega), elems_cons]
    obtain ⟨chunks, hmap, hall⟩ := mapM_forall₂ hchunk
    exact ⟨chunks, hmap, allGather_chunks (g := fun k => k * max (elems trailing) 1 % 2 ^ 64) hr
      hlead (fun hc => (hfits hc).1) (by simp) hend (evenWindows_ne_nil lead hnum) htiles hrise
      hall⟩

end

/-- Two tensors of three rows of two, in two chunks. -/
theorem reduceScatter_allGather_sample : ∃ chunks,
      reduceScatter true [NumTensor.mk [1, 2, 3, 4, 5, 6] [3, 2] rfl,
        NumTensor.mk [4, 5, 6, 7, 8, (9 : Int)] [3, 2] rfl] .sum 2 = .ok chunks ∧
      allGather true chunks = allReduce true [NumTensor.mk [1, 2, 3, 4, 5, 6] [3, 2] rfl,
        NumTensor.mk [4, 5, 6, 7, 8, (9 : Int)] [3, 2] rfl] .sum := by
  have hshape : ∀ t ∈ [NumTensor.mk [1, 2, 3, 4, 5, 6] [3, 2] rfl,
      NumTensor.mk [4, 5, 6, 7, 8, (9 : Int)] [3, 2] rfl], t.shape = [3, 2] := by
    intro t ht
    simp only [List.mem_cons, List.not_mem_nil, or_false] at ht
    rcases ht with rfl | rfl <;> rfl
  exact (reduceScatter_allGather_iff true (by simp) (by decide) hshape .sum (by decide)).mpr
    ⟨by decide, fun _ => by decide, .inr (by decide)⟩

/-- A tensor of two empty rows: the first slice is out of bounds. -/
theorem reduceScatter_emptyRows :
    reduceScatter false [NumTensor.mk ([] : List Int) [2, 0] rfl] .sum 1 = .error .panic ∧
    allReduce false [NumTensor.mk ([] : List Int) [2, 0] rfl] .sum
      = .ok (NumTensor.mk [] [2, 0] rfl) := by
  decide

end Ipfrs.Compute.Collectives
