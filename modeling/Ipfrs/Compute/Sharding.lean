/-
Ipfrs.Compute.Sharding — a matrix split across peers and put together again (`sharding.rs`).

`plan_shards` is an even split of one dimension. Row shards are consecutive in the data of
the matrix, so gathering them appends. Column shards are a window of every row, and gathering
copies each window to its place in a buffer of zeros: what has been copied so far agrees with
the matrix, and after the last shard that is all of it.

A plan of more shards than a `Vec` can hold panics. In the other direction, sharding reads every
row of a matrix, so a matrix that is cut and gathered has all the items its dimensions say, and
their product has not wrapped (`rows_le_of_rowSlice`). `shard_round_trip_iff` says that nothing
else is needed, in builds with overflow checks and without.
-/
import Ipfrs.Compute.Tensor
import Ipfrs.Lib.Outcome
import Ipfrs.Lib.Tiling

namespace Ipfrs.Compute

open Ipfrs.Lib

/-- How a tensor is split across peers. -/
inductive ShardStrategy where
  | rowParallel
  | columnParallel
  deriving DecidableEq, Repr

def ShardStrategy.shardDim : ShardStrategy → Nat
  | rowParallel => 0
  | columnParallel => 1

/-- The contiguous slice of a tensor that one peer owns. -/
structure ShardSpec where
  shardDim : Nat
  start : Nat
  len : Nat
  dimTotal : Nat
  strategy : ShardStrategy
  deriving DecidableEq, Repr

/-- Its window along the dimension. -/
def ShardSpec.window (spec : ShardSpec) : Nat × Nat := (spec.start, spec.len)

/-- The loop of `plan_shards` over the numbers of the shards. -/
def planLoop (base rem dimTotal : Nat) (strategy : ShardStrategy) :
    List Nat → Nat → List ShardSpec
  | [], _ => []
  | i :: rest, start =>
    let len := base + if i < rem then 1 else 0
    { shardDim := strategy.shardDim, start, len, dimTotal, strategy } ::
      planLoop base rem dimTotal strategy rest (start + len)

def planShards (dimTotal numShards : Nat) (strategy : ShardStrategy) :
    Except Fault (List ShardSpec) := do
  if numShards = 0 then
    throw (.err (.executionError "plan_shards: num_shards must be > 0"))
  let base := dimTotal / numShards
  let rem := dimTotal % numShards
  -- a `ShardSpec` takes 40 bytes
  withCapacity 40 numShards
  .ok (planLoop base rem dimTotal strategy (List.range numShards) 0)

section

variable {S : Type}

/-- `&data[r * cols..(r + 1) * cols]`. -/
def rowSlice (checks : Bool) (data : List S) (r cols : Nat) : Except Fault (List S) := do
  let lo ← usize checks (r * cols)
  let hi ← usize checks ((r + 1) * cols)
  slice data lo hi

/-- Whole rows: one block of the data. -/
def shardRows (checks : Bool) (t : NumTensor S) (cols start stop len : Nat) :
    Except Fault (NumTensor S) := do
  withCapacity 4 (← usize checks (len * cols))
  let block ← (List.range' start (stop - start)).mapM (fun r => rowSlice checks t.data r cols)
  NumTensor.newIn checks block.flatten [len, cols]

/-- A window of each row. -/
def shardColumns (checks : Bool) (t : NumTensor S) (rows cols start stop len : Nat) :
    Except Fault (NumTensor S) := do
  withCapacity 4 (← usize checks (rows * len))
  let windows ← (List.range rows).mapM (fun r => do
    let row ← rowSlice checks t.data r cols
    slice row start stop)
  NumTensor.newIn checks windows.flatten [rows, len]

def shardTensor (checks : Bool) (t : NumTensor S) (spec : ShardSpec) :
    Except Fault (NumTensor S) :=
  match t.shape with
  | [rows, cols] =>
    match t.shape[spec.shardDim]? with
    | none =>
      .error (.err (.executionError ("shard_tensor: bad shard_dim " ++ toString spec.shardDim)))
    | some axisTotal =>
      if spec.dimTotal ≠ axisTotal then
        .error (.err (.shapeMismatch ("shard_tensor: spec.dim_total " ++ toString spec.dimTotal
          ++ " != tensor dim " ++ toString axisTotal)))
      else do
        let stop ← usize checks (spec.start + spec.len)
        if stop > axisTotal then
          .error (.err (.shapeMismatch ("shard_tensor: slice " ++ toString spec.start ++ ".."
            ++ toString stop ++ " out of bounds for dim " ++ toString axisTotal)))
        else match spec.shardDim with
        | 0 => shardRows checks t cols spec.start stop spec.len
        | 1 => shardColumns checks t rows cols spec.start stop spec.len
        | d =>
          .error (.err (.executionError ("shard_tensor: unsupported shard_dim " ++ toString d
            ++ " for 2-D tensor")))
  | _ =>
    .error (.err (.shapeMismatch ("shard_tensor: only 2-D tensors supported, got "
      ++ showShape t.shape)))

/-- `data[dst..dst + w.len()].copy_from_slice(w)`. -/
def copyInto (data : List S) (dst : Nat) (w : List S) : Except Fault (List S) :=
  if dst + w.length ≤ data.length then
    .ok (data.take dst ++ (w ++ data.drop (dst + w.length)))
  else .error .panic

/-- One shard copied into the columns from `colOff` on, row by row. -/
def copyColumns (checks : Bool) (rows totalCols : Nat) (s : NumTensor S) (sc colOff : Nat)
    (data : List S) : Except Fault (List S) :=
  (List.range rows).foldlM (fun data r => do
    let dst ← usize checks ((← usize checks (r * totalCols)) + colOff)
    let src ← usize checks (r * sc)
    let w ← slice s.data src (← usize checks (src + sc))
    copyInto data dst w) data

/-- The loop over the shards, each with its number of columns. -/
def gatherColumns (checks : Bool) (rows totalCols : Nat) :
    List (NumTensor S × Nat) → Nat → List S → Except Fault (List S)
  | [], _, data => .ok data
  | (s, sc) :: rest, colOff, data => do
      let data ← copyColumns checks rows totalCols s sc colOff data
      gatherColumns checks rows totalCols rest (← usize checks (colOff + sc)) data

/-- The dimensions of a shard, checked to be two. -/
def shardDims (s : NumTensor S) : Except Fault (Nat × Nat) :=
  match s.shape with
  | [r, c] => .ok (r, c)
  | _ => .error (.err (.shapeMismatch ("gather_shards: only 2-D shards supported, got "
      ++ showShape s.shape)))

def gatherShards [F32 S] (checks : Bool) (shards : List (NumTensor S))
    (strategy : ShardStrategy) : Except Fault (NumTensor S) := do
  if shards.isEmpty then
    throw (.err (.executionError "gather_shards: no shards to gather"))
  let dims ← shards.mapM shardDims
  match strategy with
  | .rowParallel =>
    let cols := (dims.head?.getD (0, 0)).2
    let totalRows ← dims.foldlM (fun totalRows d =>
      if d.2 ≠ cols then
        .error (.err (.shapeMismatch ("gather_shards(row): column mismatch "
          ++ toString d.2 ++ " vs " ++ toString cols)))
      else usize checks (totalRows + d.1)) 0
    NumTensor.newIn checks (shards.flatMap NumTensor.data) [totalRows, cols]
  | .columnParallel =>
    let rows := (dims.head?.getD (0, 0)).1
    let totalCols ← dims.foldlM (fun totalCols d => usize checks (totalCols + d.2)) 0
    match dims.find? (fun d => d.1 ≠ rows) with
    | some d => throw (.err (.shapeMismatch ("gather_shards(col): row mismatch "
        ++ toString d.1 ++ " vs " ++ toString rows)))
    | none => do
        let size ← usize checks (rows * totalCols)
        withCapacity 4 size
        let data ← gatherColumns checks rows totalCols (shards.zip (dims.map Prod.snd)) 0
          (List.replicate size F32.zero)
        NumTensor.newIn checks data [rows, totalCols]

end

/-! ## Planning -/

/-- The shard of a window. -/
def specOf (strategy : ShardStrategy) (dimTotal : Nat) (w : Nat × Nat) : ShardSpec :=
  { shardDim := strategy.shardDim, start := w.1, len := w.2, dimTotal, strategy }

theorem planLoop_eq (base rem dimTotal : Nat) (strategy : ShardStrategy) :
    ∀ (numbers : List Nat) (start : Nat),
      planLoop base rem dimTotal strategy numbers start
        = (evenWindowsFrom base rem numbers start).map (specOf strategy dimTotal)
  | [], _ => rfl
  | i :: rest, start => by
    rw [planLoop, planLoop_eq, evenWindowsFrom, List.map_cons]
    rfl

/-- The plan is the even split. -/
theorem planShards_eq {numShards : Nat} (hnum : 0 < numShards) (hcapacity : 40 * numShards < 2 ^ 63)
    (dimTotal : Nat) (strategy : ShardStrategy) : planShards dimTotal numShards strategy
      = .ok ((evenWindows dimTotal numShards).map (specOf strategy dimTotal)) := by
  rw [planShards, if_neg (by omega), withCapacity, if_pos hcapacity]
  exact congrArg Except.ok (planLoop_eq _ _ dimTotal strategy (List.range numShards) 0)

theorem capacity_of_planShards {dimTotal numShards : Nat} {strategy : ShardStrategy}
    {specs : List ShardSpec} (h : planShards dimTotal numShards strategy = .ok specs) :
    40 * numShards < 2 ^ 63 := by
  by_contra hcapacity
  rw [planShards, withCapacity, if_neg hcapacity] at h
  split at h <;> cases h

theorem map_window_specOf (strategy : ShardStrategy) (dimTotal : Nat) (ws : List (Nat × Nat)) :
    (ws.map (specOf strategy dimTotal)).map ShardSpec.window = ws := by
  rw [List.map_map]
  exact List.map_id _

/-! ## Matrices -/

theorem usize_eq {checks : Bool} {n : Nat} (h : n < 2 ^ 64) : usize checks n = .ok n := if_pos h

theorem withCapacity_eq {bytes n : Nat} (h : bytes * n < 2 ^ 63) : withCapacity bytes n = .ok () :=
  if_pos h

theorem capacity_of_withCapacity {bytes n : Nat} (h : withCapacity bytes n = .ok ()) :
    bytes * n < 2 ^ 63 := by
  by_contra hbad
  rw [withCapacity, if_neg hbad] at h
  cases h

theorem elems_pair {a b : Nat} (h : a * b < 2 ^ 64) : elems [a, b] = a * b := by
  have hvolume : volume [a, b] = a * b := by simp [volume]
  rw [elems, hvolume, Nat.mod_eq_of_lt h]

section

variable {S : Type}

variable {data : List S} {b r : Nat} {w : Nat × Nat} {shards : List (NumTensor S)}
  {ws : List (Nat × Nat)}

theorem NumTensor.new_eq {shape : List Nat} (h : data.length = elems shape) :
    NumTensor.new data shape = .ok { data, shape, valid := h } := dif_pos h

theorem NumTensor.newIn_pair {checks : Bool} {a : Nat} (ha : a < 2 ^ 64) (hab : a * b < 2 ^ 64)
    (h : data.length = elems [a, b]) :
    NumTensor.newIn checks data [a, b] = .ok { data, shape := [a, b], valid := h } := by
  have hitems : elemsIn checks [a, b] = .ok (a * b) := by
    rw [elemsIn, List.foldlM_cons, Nat.one_mul, usize_eq ha, ok_bind, List.foldlM_cons,
      usize_eq hab]
    rfl
  rw [newIn, hitems, ok_bind, new_eq h]

theorem NumTensor.ext {t s : NumTensor S} (hdata : t.data = s.data) (hshape : t.shape = s.shape) :
    t = s := by
  cases t
  cases s
  cases hdata
  cases hshape
  rfl

theorem slice_eq {lo hi : Nat} (hle : lo ≤ hi) (hlen : hi ≤ data.length) :
    slice data lo hi = .ok ((data.drop lo).take (hi - lo)) := if_pos ⟨hle, hlen⟩

/-- What the types of the fields say: the dimensions are of `usize`, and the data is a `Vec` of
four bytes an item. -/
structure NumTensor.Held (t : NumTensor S) : Prop where
  dims : ∀ d ∈ t.shape, d < 2 ^ 64
  bytes : 4 * t.data.length < 2 ^ 63

/-- A tensor of two dimensions with all the items they say. -/
structure NumTensor.Matrix (t : NumTensor S) (rows cols : Nat) : Prop where
  shape : t.shape = [rows, cols]
  length : t.data.length = rows * cols
  rows_lt : rows < 2 ^ 64
  cols_lt : cols < 2 ^ 64
  bytes : 4 * (rows * cols) < 2 ^ 63

theorem NumTensor.Held.matrix {t : NumTensor S} (h : t.Held) {rows cols : Nat}
    (hshape : t.shape = [rows, cols]) (hitems : rows * cols < 2 ^ 64) : t.Matrix rows cols := by
  have hlen : t.data.length = rows * cols := by rw [t.valid, hshape, elems_pair hitems]
  obtain ⟨hdims, hbytes⟩ := h
  rw [hshape] at hdims
  rw [hlen] at hbytes
  exact ⟨hshape, hlen, hdims rows (by simp), hdims cols (by simp), hbytes⟩

variable {checks : Bool} {t : NumTensor S} {rows cols : Nat}

/-- Windows of the rows or of the columns have fewer items. -/
theorem NumTensor.Matrix.mul_lt (hm : t.Matrix rows cols) {a : Nat} (ha : a ≤ rows)
    (hb : b ≤ cols) : a * b < 2 ^ 61 := by
  have hle := Nat.mul_le_mul ha hb
  have hbytes := hm.bytes
  omega

theorem row_end_le (cols : Nat) (hr : r < rows) : (r + 1) * cols ≤ rows * cols :=
  Nat.mul_le_mul_right cols hr

/-! ## Shards -/

/-- A row of the matrix. -/
theorem rowSlice_eq (hm : t.Matrix rows cols) (hr : r < rows) :
    rowSlice checks t.data r cols = .ok ((t.data.drop (r * cols)).take cols) := by
  have hlo := hm.mul_lt (Nat.le_of_lt hr) le_rfl
  have hhi := hm.mul_lt (a := r + 1) hr le_rfl
  have hend := row_end_le cols hr
  have hstep : (r + 1) * cols = r * cols + cols := by rw [Nat.add_mul, Nat.one_mul]
  rw [rowSlice, usize_eq (by omega), ok_bind, usize_eq (by omega), ok_bind,
    slice_eq (by omega) (by rw [hm.length]; exact hend), hstep, Nat.add_sub_cancel_left]

/-- A spec whose slice is within the tensor. -/
theorem shardTensor_eq (hshape : t.shape = [rows, cols]) (spec : ShardSpec)
    (hdim : [rows, cols][spec.shardDim]? = some spec.dimTotal) (hlt : spec.dimTotal < 2 ^ 64)
    (hw : spec.start + spec.len ≤ spec.dimTotal) :
    shardTensor checks t spec = match spec.shardDim with
      | 0 => shardRows checks t cols spec.start (spec.start + spec.len) spec.len
      | 1 => shardColumns checks t rows cols spec.start (spec.start + spec.len) spec.len
      | d =>
        .error (.err (.executionError ("shard_tensor: unsupported shard_dim " ++ toString d
          ++ " for 2-D tensor"))) := by
  rw [shardTensor, hshape]
  dsimp only
  rw [hdim]
  dsimp only
  rw [if_neg (not_not_intro rfl), usize_eq (Nat.lt_of_le_of_lt hw hlt), ok_bind,
    if_neg (Nat.not_lt.mpr hw)]

theorem shardTensor_row (hshape : t.shape = [rows, cols]) (hlt : rows < 2 ^ 64)
    (hw : w.1 + w.2 ≤ rows) : shardTensor checks t (specOf .rowParallel rows w)
      = shardRows checks t cols w.1 (w.1 + w.2) w.2 :=
  shardTensor_eq hshape (specOf .rowParallel rows w) rfl hlt hw

theorem shardTensor_column (hshape : t.shape = [rows, cols]) (hlt : cols < 2 ^ 64)
    (hw : w.1 + w.2 ≤ cols) : shardTensor checks t (specOf .columnParallel cols w)
      = shardColumns checks t rows cols w.1 (w.1 + w.2) w.2 :=
  shardTensor_eq hshape (specOf .columnParallel cols w) rfl hlt hw

/-- A row shard is a window of the data. -/
theorem shardTensor_rows (checks : Bool) (hm : t.Matrix rows cols) (hw : w.1 + w.2 ≤ rows) :
    ∃ s, shardTensor checks t (specOf .rowParallel rows w) = .ok s ∧ s.shape = [w.2, cols] ∧
      s.data = (t.data.drop (w.1 * cols)).take (w.2 * cols) := by
  have hblock : (List.range' w.1 w.2).mapM (fun r => rowSlice checks t.data r cols)
      = .ok ((List.range' w.1 w.2).map (fun r => (t.data.drop (r * cols)).take cols)) :=
    mapM_eq_map (fun r hr => rowSlice_eq hm (by have := List.mem_range'_1.mp hr; omega))
  have hdata : ((List.range' w.1 w.2).map (fun r => (t.data.drop (r * cols)).take cols)).flatten
      = (t.data.drop (w.1 * cols)).take (w.2 * cols) := by
    rw [← List.flatMap_def, flatMap_rows]
  have hrows := hm.rows_lt
  have hsize := hm.mul_lt (a := w.2) (by omega) (le_refl cols)
  have hlen : ((t.data.drop (w.1 * cols)).take (w.2 * cols)).length = elems [w.2, cols] := by
    have hend : (w.1 + w.2) * cols ≤ rows * cols := Nat.mul_le_mul_right cols hw
    rw [Nat.add_mul] at hend
    rw [elems_pair (by omega), List.length_take, List.length_drop, hm.length]
    omega
  refine ⟨{ data := _, shape := _, valid := hlen }, ?_, rfl, rfl⟩
  rw [shardTensor_row hm.shape hrows hw, shardRows, usize_eq (by omega), ok_bind,
    withCapacity_eq (by omega), ok_bind, Nat.add_sub_cancel_left, hblock, ok_bind, hdata,
    NumTensor.newIn_pair (by omega) (by omega) hlen]

/-- A column shard has a window of each row. -/
theorem shardTensor_columns (checks : Bool) (hm : t.Matrix rows cols) (hw : w.1 + w.2 ≤ cols) :
    ∃ s, shardTensor checks t (specOf .columnParallel cols w) = .ok s ∧ s.shape = [rows, w.2] ∧
      ∀ r < rows, (s.data.drop (r * w.2)).take w.2 = (t.data.drop (r * cols + w.1)).take w.2 := by
  have hstep : ∀ r, (r + 1) * cols = r * cols + cols := fun r => by rw [Nat.add_mul, Nat.one_mul]
  have hlength : ∀ r, 0 ≤ r → r < 0 + rows →
      ((t.data.drop (r * cols + w.1)).take w.2).length = w.2 := by
    intro r _ hr
    have hend := row_end_le cols (Nat.zero_add rows ▸ hr)
    rw [List.length_take, List.length_drop, hm.length]
    have := hstep r
    omega
  have hwindow : ∀ r ∈ List.range rows,
      (do
        let row ← rowSlice checks t.data r cols
        slice row w.1 (w.1 + w.2)) = .ok ((t.data.drop (r * cols + w.1)).take w.2) := by
    intro r hr
    have hr' := List.mem_range.mp hr
    have hend := row_end_le cols hr'
    have hrow : ((t.data.drop (r * cols)).take cols).length = cols := by
      rw [List.length_take, List.length_drop, hm.length]
      have := hstep r
      omega
    rw [rowSlice_eq hm hr', ok_bind, slice_eq (by omega) (by rw [hrow]; exact hw),
      Nat.add_sub_cancel_left, List.drop_take, List.drop_drop, List.take_take,
      Nat.min_eq_left (by omega)]
  have hcols := hm.cols_lt
  have hsize := hm.mul_lt (b := w.2) (le_refl rows) (by omega)
  have hlen : ((List.range rows).flatMap
      (fun r => (t.data.drop (r * cols + w.1)).take w.2)).length = elems [rows, w.2] := by
    rw [List.length_flatMap, List.map_congr_left (fun r hr =>
      hlength r (Nat.zero_le r) (by simpa using hr)), elems_pair (by omega)]
    simp
  refine ⟨{ data := _, shape := _, valid := hlen }, ?_, rfl, ?_⟩
  · rw [shardTensor_column hm.shape hcols hw, shardColumns, usize_eq (by omega), ok_bind,
      withCapacity_eq (by omega), ok_bind, mapM_eq_map hwindow, ok_bind, ← List.flatMap_def,
      NumTensor.newIn_pair hm.rows_lt (by omega) hlen]
  · intro r hr
    have hrow := window_flatMap hlength hr
    rw [← List.range_eq_range', Nat.zero_add] at hrow
    exact hrow

/-! ## What sharding reads -/

theorem bounds_of_slice {s : List S} {lo hi : Nat} (h : slice data lo hi = .ok s) :
    lo ≤ hi ∧ hi ≤ data.length := by
  by_contra hbad
  rw [slice, if_neg hbad] at h
  cases h

/-- Data of which every row can be read has all of them. -/
theorem rows_le_of_rowSlice (hdata : data.length < 2 ^ 64) (hcols : cols < 2 ^ 64) :
    ∀ {n : Nat}, (∀ r < n, ∃ row, rowSlice checks data r cols = .ok row) → n * cols ≤ data.length
  | 0, _ => by simp
  | n + 1, h => by
    have hle := rows_le_of_rowSlice hdata hcols (fun r hr => h r (Nat.lt_succ_of_lt hr))
    obtain ⟨row, hrow⟩ := h n (Nat.lt_succ_self n)
    rw [rowSlice, usize_eq (by omega), ok_bind] at hrow
    obtain ⟨hi, hhi, hslice⟩ := bind_eq_ok.mp hrow
    obtain ⟨hlo, hend⟩ := bounds_of_slice hslice
    have hstep : (n + 1) * cols = n * cols + cols := by rw [Nat.add_mul, Nat.one_mul]
    by_cases hfits : (n + 1) * cols < 2 ^ 64
    · rw [usize_eq hfits] at hhi
      cases hhi
      exact hend
    · -- the end of the row panics, or wraps to a place before its start
      rw [usize, if_neg hfits] at hhi
      split at hhi
      · cases hhi
      · cases hhi
        omega

theorem rowSlice_of_shardRows {start stop len : Nat} {s : NumTensor S}
    (h : shardRows checks t cols start stop len = .ok s) (hstart : start ≤ r) (hstop : r < stop) :
    ∃ row, rowSlice checks t.data r cols = .ok row := by
  obtain ⟨_, _, h⟩ := bind_eq_ok.mp h
  obtain ⟨_, _, h⟩ := bind_eq_ok.mp h
  obtain ⟨_, hblock, _⟩ := bind_eq_ok.mp h
  exact ok_of_mapM_ok hblock r (List.mem_range'_1.mpr (by omega))

theorem rowSlice_of_shardColumns {start stop len : Nat} {s : NumTensor S}
    (h : shardColumns checks t rows cols start stop len = .ok s) (hr : r < rows) :
    ∃ row, rowSlice checks t.data r cols = .ok row := by
  obtain ⟨_, _, h⟩ := bind_eq_ok.mp h
  obtain ⟨_, _, h⟩ := bind_eq_ok.mp h
  obtain ⟨_, hwindows, _⟩ := bind_eq_ok.mp h
  obtain ⟨_, hwindow⟩ := ok_of_mapM_ok hwindows r (List.mem_range.mpr hr)
  obtain ⟨row, hrow, _⟩ := bind_eq_ok.mp hwindow
  exact ⟨row, hrow⟩

/-- A matrix that is cut into the shards of a plan has all its items. -/
theorem items_of_shards (ht : t.Held) (hshape : t.shape = [rows, cols]) {strategy : ShardStrategy}
    {dim numShards : Nat} (hdim : [rows, cols][strategy.shardDim]? = some dim)
    (hnum : 0 < numShards)
    (h : ((evenWindows dim numShards).map (specOf strategy dim)).mapM (shardTensor checks t)
      = .ok shards) : rows * cols < 2 ^ 64 := by
  have hdims := ht.dims
  rw [hshape] at hdims
  have hdata : t.data.length < 2 ^ 64 := by
    rw [t.valid]
    exact Nat.mod_lt _ (by decide)
  have htiles : Tiles 0 (evenWindows dim numShards) dim := tiles_evenWindows hnum
  have hcut : ∀ w ∈ evenWindows dim numShards, ∃ s,
      shardTensor checks t (specOf strategy dim w) = .ok s := fun w hw =>
    ok_of_mapM_ok h _ (List.mem_map_of_mem hw)
  suffices hread : ∀ r < rows, ∃ row, rowSlice checks t.data r cols = .ok row from
    Nat.lt_of_le_of_lt (rows_le_of_rowSlice hdata (hdims cols (by simp)) hread) hdata
  intro r hr
  cases strategy with
  | rowParallel =>
    cases hdim
    have hcount := htiles.countP r
    rw [if_pos (by omega)] at hcount
    obtain ⟨w, hw, hin⟩ := List.countP_pos_iff.mp (hcount ▸ Nat.one_pos)
    obtain ⟨hlo, hhi⟩ : InWindow r w := of_decide_eq_true hin
    obtain ⟨s, hs⟩ := hcut w hw
    rw [shardTensor_row hshape (hdims rows (by simp)) (htiles.bounds w hw).2] at hs
    exact rowSlice_of_shardRows hs hlo hhi
  | columnParallel =>
    cases hdim
    obtain ⟨w, hw⟩ := List.exists_mem_of_ne_nil _ (evenWindows_ne_nil cols hnum)
    obtain ⟨s, hs⟩ := hcut w hw
    rw [shardTensor_column hshape (hdims cols (by simp)) (htiles.bounds w hw).2] at hs
    exact rowSlice_of_shardColumns hs hr

/-! ## Gathering rows -/

theorem mapM_shardDims {dims : Nat × Nat → Nat × Nat}
    (h : List.Forall₂ (fun w s => s.shape = [(dims w).1, (dims w).2]) ws shards) :
    shards.mapM shardDims = .ok (ws.map dims) := by
  induction h with
  | nil => rfl
  | cons hs _ ih =>
    have hdims : ∀ {s : NumTensor S} {r c : Nat}, s.shape = [r, c] →
        shardDims s = .ok (r, c) := by
      intro s r c hshape
      rw [shardDims, hshape]
    rw [List.mapM_cons, hdims hs, ih]
    rfl

theorem flatMap_data {f : Nat × Nat → List S}
    (h : List.Forall₂ (fun w s => s.data = f w) ws shards) :
    shards.flatMap NumTensor.data = ws.flatMap f := by
  induction h with
  | nil => rfl
  | cons hs _ ih => rw [List.flatMap_cons, List.flatMap_cons, hs, ih]

/-- Sizes of consecutive windows added up. -/
theorem foldlM_usize {α : Type} {f : Nat → α → Except Fault Nat} (hb : b < 2 ^ 64) {l : List α}
    (h : List.Forall₂ (fun w x => ∀ n, n + w.2 < 2 ^ 64 → f n x = .ok (n + w.2)) ws l) :
    ∀ {a : Nat}, Tiles a ws b → l.foldlM f a = .ok b := by
  induction h with
  | nil => exact fun htiles => congrArg Except.ok htiles
  | @cons w x ws l hx _ ih =>
    intro a htiles
    have hle := htiles.2.le
    rw [List.foldlM_cons, hx a (by omega), ok_bind]
    exact ih htiles.2

variable [F32 S]

/-- Row shards are gathered by appending their data. -/
theorem gather_rows (hm : t.Matrix rows cols) (hws : ws ≠ []) (htiles : Tiles 0 ws rows)
    (hshards : List.Forall₂ (fun w s => s.shape = [w.2, cols] ∧
      s.data = (t.data.drop (w.1 * cols)).take (w.2 * cols)) ws shards) :
    gatherShards checks shards .rowParallel = .ok t := by
  have hdims : shards.mapM shardDims = .ok (ws.map (fun w => (w.2, cols))) :=
    mapM_shardDims (hshards.imp (fun _ _ h => h.1))
  have hdata : shards.flatMap NumTensor.data = t.data := by
    rw [flatMap_data (hshards.imp (fun _ _ h => h.2)), htiles.flatMap_window, Nat.zero_mul,
      List.drop_zero, Nat.sub_zero, ← hm.length, List.take_length]
  obtain ⟨w, rest, rfl⟩ := List.exists_cons_of_ne_nil hws
  have hsome : shards.isEmpty = false := by
    cases hshards with
    | cons _ _ => rfl
  have htotal := foldlM_usize (l := (w :: rest).map (fun w => (w.2, cols)))
    (f := fun totalRows d => if d.2 ≠ cols then
        .error (.err (.shapeMismatch ("gather_shards(row): column mismatch "
          ++ toString d.2 ++ " vs " ++ toString cols)))
      else usize checks (totalRows + d.1)) hm.rows_lt
    (List.forall₂_map_right_iff.mpr (List.forall₂_same.mpr (fun w _ n hlt => by
      simp only [ne_eq, not_true_eq_false, if_false, usize_eq hlt]))) htiles
  have hsize := hm.mul_lt le_rfl le_rfl
  have hlen : t.data.length = elems [rows, cols] := by rw [elems_pair (by omega), hm.length]
  have hhead : (((w :: rest).map (fun w => (w.2, cols))).head?.getD (0, 0)).2 = cols := rfl
  rw [gatherShards, hsome, hdims]
  simp only [Bool.false_eq_true, if_false, ok_bind, hhead, htotal, hdata]
  rw [NumTensor.newIn_pair hm.rows_lt (by omega) hlen]
  exact congrArg Except.ok (NumTensor.ext rfl hm.shape.symm)

/-! ## Gathering columns -/

end

section

variable {S : Type}

/-- A buffer that agrees with `l` at the positions in `P`. -/
structure Agrees (P : Nat → Prop) (data l : List S) : Prop where
  length : data.length = l.length
  get : ∀ p < l.length, P p → data[p]? = l[p]?

/-- Copying a window of `l` to its place: the buffer agrees there as well. -/
theorem Agrees.copyInto {P : Nat → Prop} {data l : List S} (h : Agrees P data l) {dst len : Nat}
    (hend : dst + len ≤ l.length) : ∃ data', copyInto data dst ((l.drop dst).take len) = .ok data' ∧
      Agrees (fun p => P p ∨ dst ≤ p ∧ p < dst + len) data' l := by
  have hw : ((l.drop dst).take len).length = len := by
    rw [List.length_take, List.length_drop]
    omega
  have hlen := h.length
  have htake : (data.take dst).length = dst := by
    rw [List.length_take]
    omega
  refine ⟨_, if_pos (by rw [hw, hlen]; exact hend), ?_, ?_⟩
  · simp only [List.length_append, htake, hw, List.length_drop]
    omega
  · intro p hp hP
    rw [hw]
    by_cases hbefore : p < dst
    · rw [List.getElem?_append_left (by rw [htake]; exact hbefore),
        List.getElem?_take_of_lt hbefore]
      rcases hP with hP | hP
      · exact h.get p hp hP
      · omega
    · rw [List.getElem?_append_right (by rw [htake]; omega), htake]
      by_cases hin : p < dst + len
      · rw [List.getElem?_append_left (by rw [hw]; omega), List.getElem?_take_of_lt (by omega),
          List.getElem?_drop]
        congr 1
        omega
      · rw [List.getElem?_append_right (by rw [hw]; omega), hw, List.getElem?_drop]
        rcases hP with hP | hP
        · rw [← h.get p hp hP]
          congr 1
          omega
        · omega

/-- What is filled when the columns below `off` are copied, and those of the next shard in the
rows below `r`. -/
def Filled (cols off len r p : Nat) : Prop :=
  p % cols < off ∨ (p % cols < off + len ∧ p / cols < r)

/-- The window of row `r` fills the row. -/
theorem filled_succ {cols off len r p : Nat} (h : Filled cols off len (r + 1) p) :
    Filled cols off len r p ∨ r * cols + off ≤ p ∧ p < r * cols + off + len := by
  rcases h with h | ⟨hcol, hrow⟩
  · exact .inl (.inl h)
  · by_cases hbelow : p / cols < r
    · exact .inl (.inr ⟨hcol, hbelow⟩)
    · by_cases hcopied : p % cols < off
      · exact .inl (.inl hcopied)
      · have hr : p / cols = r := by omega
        have hdiv := Nat.div_add_mod p cols
        rw [hr, Nat.mul_comm] at hdiv
        exact .inr (by omega)

variable {checks : Bool} {t : NumTensor S} {rows cols : Nat}

/-- A shard copied row by row. -/
theorem copyColumns_agrees (hm : t.Matrix rows cols) {s : NumTensor S} {off len : Nat}
    (hoff : off + len ≤ cols) (hs : s.shape = [rows, len])
    (hrows : ∀ r < rows,
      (s.data.drop (r * len)).take len = (t.data.drop (r * cols + off)).take len) :
    ∀ (m r : Nat) {data : List S}, r + m = rows → Agrees (Filled cols off len r) data t.data →
      ∃ data', (List.range' r m).foldlM (fun data r => do
          let dst ← usize checks ((← usize checks (r * cols)) + off)
          let src ← usize checks (r * len)
          let w ← slice s.data src (← usize checks (src + len))
          copyInto data dst w) data = .ok data' ∧
        Agrees (Filled cols off len rows) data' t.data
  | 0, r, data, hr, h => ⟨data, rfl, by rw [← hr]; exact h⟩
  | m + 1, r, data, hr, h => by
    have hrow : r < rows := by omega
    have hsize := hm.mul_lt (b := len) (le_refl rows) (by omega)
    have hend := row_end_le len hrow
    rw [Nat.add_mul, Nat.one_mul] at hend
    have hsrc : r * len + len ≤ s.data.length := by
      rw [s.valid, hs, elems_pair (by omega)]
      exact hend
    have hdst : r * cols + off + len ≤ rows * cols := by
      have hend := row_end_le cols hrow
      rw [Nat.add_mul, Nat.one_mul] at hend
      omega
    have hbytes := hm.bytes
    obtain ⟨data₁, hcopy, h₁⟩ := h.copyInto (by rw [hm.length]; exact hdst)
    have hnext : Agrees (Filled cols off len (r + 1)) data₁ t.data :=
      ⟨h₁.length, fun p hp hP => h₁.get p hp (filled_succ hP)⟩
    obtain ⟨data', hrest, h'⟩ :=
      copyColumns_agrees hm hoff hs hrows m (r + 1) (by omega) hnext
    refine ⟨data', ?_, h'⟩
    rw [List.range'_succ, List.foldlM_cons, usize_eq (by omega), ok_bind, usize_eq (by omega),
      ok_bind, usize_eq (by omega), ok_bind, usize_eq (by omega), ok_bind,
      slice_eq (by omega) hsrc, Nat.add_sub_cancel_left, hrows r hrow, ok_bind, hcopy, ok_bind]
    exact hrest

/-- The shards copied one after the other. -/
theorem gatherColumns_agrees (checks : Bool) (hm : t.Matrix rows cols)
    {ws : List (Nat × Nat)} {shards : List (NumTensor S)} (hshards : List.Forall₂ (fun w s => s.shape = [rows, w.2] ∧
      ∀ r < rows, (s.data.drop (r * w.2)).take w.2 = (t.data.drop (r * cols + w.1)).take w.2)
      ws shards) : ∀ {off : Nat} {data : List S}, Tiles off ws cols →
      Agrees (fun p => p % cols < off) data t.data →
      ∃ data', gatherColumns checks rows cols (shards.zip (ws.map Prod.snd)) off data = .ok data' ∧
        Agrees (fun p => p % cols < cols) data' t.data := by
  induction hshards with
  | nil =>
    intro off data htiles h
    have hoff : off = cols := htiles
    exact ⟨data, rfl, by rw [← hoff]; rw [← hoff] at h; exact h⟩
  | @cons w s ws shards hs _ ih =>
    intro off data htiles h
    obtain ⟨start, len⟩ := w
    obtain ⟨rfl, hrest⟩ := htiles
    have hcols : start + len ≤ cols := hrest.le
    have hzero : Agrees (Filled cols start len 0) data t.data := by
      refine ⟨h.length, fun p hp hP => h.get p hp ?_⟩
      rcases hP with hP | ⟨_, hP⟩
      · exact hP
      · exact absurd hP (Nat.not_lt_zero _)
    obtain ⟨data₁, hcopy, h₁⟩ :=
      copyColumns_agrees hm hcols hs.1 hs.2 rows 0 (Nat.zero_add rows) hzero
    have hnext : Agrees (fun p => p % cols < start + len) data₁ t.data := by
      refine ⟨h₁.length, fun p hp hP => h₁.get p hp (.inr ⟨hP, ?_⟩)⟩
      rw [hm.length] at hp
      exact Nat.div_lt_of_lt_mul (by rw [Nat.mul_comm]; exact hp)
    obtain ⟨data', hgather, h'⟩ := ih hrest hnext
    refine ⟨data', ?_, h'⟩
    have hlt := hm.cols_lt
    rw [List.map_cons, List.zip_cons_cons, gatherColumns, copyColumns, List.range_eq_range', hcopy,
      ok_bind, usize_eq (by omega)]
    exact hgather

variable [F32 S]

/-- Column shards are gathered by filling every row. -/
theorem gather_columns (hm : t.Matrix rows cols) {ws : List (Nat × Nat)}
    {shards : List (NumTensor S)} (hws : ws ≠ []) (htiles : Tiles 0 ws cols)
    (hshards : List.Forall₂ (fun w s => s.shape = [rows, w.2] ∧
      ∀ r < rows, (s.data.drop (r * w.2)).take w.2 = (t.data.drop (r * cols + w.1)).take w.2)
      ws shards) : gatherShards checks shards .columnParallel = .ok t := by
  have hdims : shards.mapM shardDims = .ok (ws.map (fun w => (rows, w.2))) :=
    mapM_shardDims (hshards.imp (fun _ _ h => h.1))
  have hsnd : (ws.map (fun w => (rows, w.2))).map Prod.snd = ws.map Prod.snd := by
    rw [List.map_map]
    rfl
  have htotal := foldlM_usize (l := ws.map (fun w => (rows, w.2)))
    (f := fun totalCols d => usize checks (totalCols + d.2)) hm.cols_lt
    (List.forall₂_map_right_iff.mpr (List.forall₂_same.mpr (fun w _ n hlt => usize_eq hlt))) htiles
  have hlen := hm.length
  have hzero : Agrees (fun p => p % cols < 0) (List.replicate (rows * cols) F32.zero) t.data :=
    ⟨by rw [List.length_replicate, hlen], fun p _ hP => absurd hP (Nat.not_lt_zero _)⟩
  obtain ⟨data, hgather, hagrees⟩ := gatherColumns_agrees checks hm hshards htiles hzero
  have hdata : data = t.data := by
    refine List.ext_getElem? (fun p => ?_)
    by_cases hp : p < t.data.length
    · have hcols : 0 < cols := by
        rw [hlen] at hp
        exact Nat.pos_of_mul_pos_left (Nat.zero_lt_of_lt hp)
      exact hagrees.get p hp (Nat.mod_lt p hcols)
    · rw [List.getElem?_eq_none (by rw [hagrees.length]; omega), List.getElem?_eq_none (by omega)]
  obtain ⟨w, rest, rfl⟩ := List.exists_cons_of_ne_nil hws
  have hsome : shards.isEmpty = false := by
    cases hshards with
    | cons _ _ => rfl
  have hfind : ((w :: rest).map (fun w => (rows, w.2))).find?
      (fun d => d.1 ≠ (((w :: rest).map (fun w => (rows, w.2))).head?.getD (0, 0)).1) = none := by
    rw [List.find?_eq_none]
    intro d hd
    obtain ⟨w', _, rfl⟩ := List.mem_map.mp hd
    simp
  have hhead : (((w :: rest).map (fun w => (rows, w.2))).head?.getD (0, 0)).1 = rows := rfl
  have hsize := hm.mul_lt le_rfl le_rfl
  have hitems : t.data.length = elems [rows, cols] := by rw [elems_pair (by omega), hlen]
  rw [gatherShards, hsome, hdims]
  simp only [Bool.false_eq_true, if_false, ok_bind, hfind, hsnd, htotal]
  rw [hhead, usize_eq (by omega), ok_bind, withCapacity_eq (by omega), ok_bind, hgather, ok_bind,
    hdata, NumTensor.newIn_pair hm.rows_lt (by omega) hitems]
  exact congrArg Except.ok (NumTensor.ext rfl hm.shape.symm)

end

section

variable {S : Type} [F32 S]

/-- The shards of a plan, and what they are gathered to. -/
theorem shards_gathered (checks : Bool) {t : NumTensor S} {rows cols : Nat}
    (hm : t.Matrix rows cols) {strategy : ShardStrategy} {dim numShards : Nat}
    (hdim : [rows, cols][strategy.shardDim]? = some dim) (hnum : 0 < numShards) :
    ∃ shards, ((evenWindows dim numShards).map (specOf strategy dim)).mapM (shardTensor checks t)
        = .ok shards ∧ gatherShards checks shards strategy = .ok t := by
  have htiles : Tiles 0 (evenWindows dim numShards) dim := tiles_evenWindows hnum
  have hne := evenWindows_ne_nil dim hnum
  rw [List.mapM_map]
  cases strategy with
  | rowParallel =>
    cases hdim
    obtain ⟨shards, hmap, hall⟩ :=
      mapM_forall₂ (fun w hw => shardTensor_rows checks hm (htiles.bounds w hw).2)
    exact ⟨shards, hmap, gather_rows hm hne htiles hall⟩
  | columnParallel =>
    cases hdim
    obtain ⟨shards, hmap, hall⟩ :=
      mapM_forall₂ (fun w hw => shardTensor_columns checks hm (htiles.bounds w hw).2)
    exact ⟨shards, hmap, gather_columns hm hne htiles hall⟩

/-- **Sharding round trip.** A plan that fits in a `Vec` is made, and then its windows follow
one another from 0 to the size of the dimension, so each index is in exactly one; and the shards
of a matrix, gathered, are the matrix again, exactly if the plan fits and the product of the
dimensions has not wrapped. -/
theorem shard_round_trip_iff (checks : Bool) (strategy : ShardStrategy) (numShards : Nat)
    (hnum : 0 < numShards) :
    (∀ dimTotal, (∃ specs, planShards dimTotal numShards strategy = .ok specs ∧
      specs.length = numShards ∧ Tiles 0 (specs.map ShardSpec.window) dimTotal ∧
      ∀ i, specs.countP (fun spec => spec.start ≤ i ∧ i < spec.start + spec.len)
        = if i < dimTotal then 1 else 0) ↔ 40 * numShards < 2 ^ 63) ∧
    ∀ t : NumTensor S, t.Held → t.shape.length = 2 → ((∃ specs shards,
      planShards (t.shape.getD strategy.shardDim 0) numShards strategy = .ok specs ∧
      specs.mapM (shardTensor checks t) = .ok shards ∧ gatherShards checks shards strategy = .ok t)
        ↔ 40 * numShards < 2 ^ 63 ∧ volume t.shape < 2 ^ 64) := by
  constructor
  · intro dimTotal
    constructor
    · rintro ⟨specs, hplan, -⟩
      exact capacity_of_planShards hplan
    · intro hcapacity
      have htiles : Tiles 0 (evenWindows dimTotal numShards) dimTotal := tiles_evenWindows hnum
      refine ⟨_, planShards_eq hnum hcapacity dimTotal strategy, ?_, ?_, ?_⟩
      · rw [List.length_map, length_evenWindows]
      · rw [map_window_specOf]
        exact htiles
      · intro i
        rw [List.countP_map]
        have hcount := htiles.countP i
        simp only [Nat.zero_le, true_and] at hcount
        exact hcount
  · intro t ht hrank
    obtain ⟨rows, cols, hshape⟩ := List.length_eq_two.mp hrank
    have hvolume : volume t.shape = rows * cols := by simp [hshape, volume]
    obtain ⟨dim, hdim⟩ : ∃ dim, [rows, cols][strategy.shardDim]? = some dim := by
      cases strategy with
      | rowParallel => exact ⟨rows, rfl⟩
      | columnParallel => exact ⟨cols, rfl⟩
    rw [hvolume, hshape, List.getD_eq_getElem?_getD, hdim, Option.getD_some]
    constructor
    · rintro ⟨specs, shards, hplan, hshards, -⟩
      have hcapacity := capacity_of_planShards hplan
      rw [planShards_eq hnum hcapacity] at hplan
      cases hplan
      exact ⟨hcapacity, items_of_shards ht hshape hdim hnum hshards⟩
    · intro h
      obtain ⟨hcapacity, hitems⟩ := h
      obtain ⟨shards, hshards, hgather⟩ :=
        shards_gathered checks (ht.matrix hshape hitems) hdim hnum
      exact ⟨_, shards, planShards_eq hnum hcapacity _ _, hshards, hgather⟩

/-- Two rows of three columns. -/
def sixItems : NumTensor Int := { data := [1, 2, 3, 4, 5, 6], shape := [2, 3], valid := rfl }

/-- Two column shards of different sizes. -/
theorem shard_round_trip_iff_sixItems :
    (∃ specs, planShards 3 2 .columnParallel = .ok specs ∧ specs.length = 2 ∧
      Tiles 0 (specs.map ShardSpec.window) 3 ∧
      ∀ i, specs.countP (fun spec => spec.start ≤ i ∧ i < spec.start + spec.len)
        = if i < 3 then 1 else 0) ∧ ∃ specs shards, planShards 3 2 .columnParallel = .ok specs ∧
      specs.mapM (shardTensor true sixItems) = .ok shards ∧
      gatherShards true shards .columnParallel = .ok sixItems := by
  obtain ⟨hplan, hgather⟩ :=
    shard_round_trip_iff (S := Int) true .columnParallel 2 (by decide)
  exact ⟨(hplan 3).mpr (by decide),
    (hgather sixItems ⟨by decide, by decide⟩ rfl).mpr ⟨by decide, by decide⟩⟩

/-- A plan of `2 ^ 63` shards does not fit in a `Vec`; and the product of the dimensions
`2 ^ 63` and 2 wraps to 0, so a tensor of that shape has no data, of which the one shard of a
plan reads the first row. -/
theorem not_shard_round_trip : planShards 4 (2 ^ 63) .rowParallel = .error .panic ∧
    ∃ t spec, NumTensor.new ([] : List Int) [2 ^ 63, 2] = .ok t ∧
      planShards (2 ^ 63) 1 .rowParallel = .ok [spec] ∧ shardTensor false t spec = .error .panic :=
  ⟨rfl, ⟨[], [2 ^ 63, 2], rfl⟩, ⟨0, 0, 2 ^ 63, 2 ^ 63, .rowParallel⟩, rfl, rfl, rfl⟩

end

end Ipfrs.Compute
