/-
Ipfrs.Compute.Tensor — dense tensors and the kernels of the default backend
(`numeric_exec.rs`, `tl_executor.rs`, `numerics.rs`).

The arithmetic of `f32` and `f64` is left open (`F32`, `F64`). A tensor carries the proof that
its data has as many items as the product of its shape, which is one of `usize`: without overflow
checks it wraps, so that a tensor may have fewer items than its dimensions say, and with them it
panics (`newIn`). The kernels are those of a build without. A kernel that indexes out of bounds
panics.
-/
import Ipfrs.Compute.TensorGraph

namespace Ipfrs.Compute

open Ipfrs.Lib.DebugText

/-- The operations of `f32` that the kernels use. -/
class F32 (S : Type) extends Add S, Sub S, Mul S, Div S, Neg S where
  zero : S
  one : S
  half : S
  /-- `0.797_884_6`. -/
  sqrtTwoOverPi : S
  /-- `0.044_715`. -/
  geluCoef : S
  inf : S
  negInf : S
  min : S → S → S
  max : S → S → S
  powf : S → S → S
  exp : S → S
  ln : S → S
  sqrt : S → S
  tanh : S → S
  /-- `x > 0.0`. -/
  pos : S → Bool
  /-- `n as f32`. -/
  ofNat : Nat → S

/-- Those of `f64`. -/
class F64 (F : Type) extends DebugTable F, Sub F, Div F where
  /-- `n as f64`. -/
  ofNat : Nat → F
  /-- `x.powi(2)`. -/
  square : F → F
  /-- `Iterator::sum`. -/
  sum : List F → F

/-- The conversions between the two. -/
class Casts (S F : Type) where
  narrow : F → S
  widen : S → F

/-! Integers in place of floats, to evaluate graphs with. Addition, subtraction and
multiplication are those of small floats. -/

instance : F32 Int where
  zero := 0
  one := 1
  half := 0
  sqrtTwoOverPi := 0
  geluCoef := 0
  inf := Int.ofNat (Nat.pow 2 128)
  negInf := Int.negOfNat (Nat.pow 2 128)
  min x y := if x ≤ y then x else y
  max x y := if x ≤ y then y else x
  powf x y := Int.pow x y.toNat
  exp x := x
  ln x := x
  sqrt x := x
  tanh x := x
  pos x := decide (0 < x)
  ofNat n := Int.ofNat n

instance : F64 Int where
  float := Printer.int
  shown _ := true
  ofNat n := Int.ofNat n
  square x := x * x
  sum l := l.foldl (fun acc x => acc + x) 0

instance : Casts Int Int where
  narrow x := x
  widen x := x

/-- An error, or a panic. -/
inductive Fault where
  | err (e : GraphError)
  | panic
  deriving DecidableEq, Repr

/-- The product of the dimensions. -/
def volume (shape : List Nat) : Nat := shape.foldr (· * ·) 1

/-- Their product in `usize`, where it wraps. -/
def elems (shape : List Nat) : Nat := volume shape % 2 ^ 64

/-- A sum or a product of sizes. Past `usize` it panics in a build with overflow checks and wraps
in one without. -/
def usize (checks : Bool) (n : Nat) : Except Fault Nat :=
  if n < 2 ^ 64 then .ok n else if checks then .error .panic else .ok (n % 2 ^ 64)

/-- `shape.iter().product()`. -/
def elemsIn (checks : Bool) (shape : List Nat) : Except Fault Nat :=
  shape.foldlM (fun n d => usize checks (n * d)) 1

/-- `Vec::with_capacity(n)` for items of some bytes each: there are at most `isize::MAX`. -/
def withCapacity (bytes n : Nat) : Except Fault Unit :=
  if bytes * n < 2 ^ 63 then .ok () else .error .panic

def total (l : List Nat) : Nat := l.foldl (· + ·) 0

def showShape (shape : List Nat) : String := String.ofList ((Printer.list Printer.nat).text shape)

structure NumTensor (S : Type) where
  data : List S
  shape : List Nat
  valid : data.length = elems shape
  deriving DecidableEq

namespace NumTensor

variable {S : Type}

def new (data : List S) (shape : List Nat) : Except Fault (NumTensor S) :=
  if h : data.length = elems shape then .ok { data, shape, valid := h }
  else .error (.err (.shapeMismatch ("data len " ++ toString data.length ++ " != shape "
    ++ showShape shape ++ " (" ++ toString (elems shape) ++ " elems)")))

/-- `new`, where the product of the dimensions may panic. -/
def newIn (checks : Bool) (data : List S) (shape : List Nat) : Except Fault (NumTensor S) := do
  let _ ← elemsIn checks shape
  new data shape

def unary (a : NumTensor S) (f : S → S) : NumTensor S where
  data := a.data.map f
  shape := a.shape
  valid := by rw [List.length_map, a.valid]

end NumTensor

/-- A slice of the data from `lo` to `hi`; out of bounds it panics. -/
def slice {S : Type} (data : List S) (lo hi : Nat) : Except Fault (List S) :=
  if lo ≤ hi ∧ hi ≤ data.length then .ok ((data.drop lo).take (hi - lo)) else .error .panic

def index {S : Type} (data : List S) (i : Nat) : Except Fault S :=
  match data[i]? with
  | some x => .ok x
  | none => .error .panic

/-! ## Element-wise kernels -/

inductive ElemOp where
  | relu
  | sigmoid
  | tanh
  | gelu
  | silu
  | exp
  | log
  | sqrt
  | oneMinus
  | add
  | subtract
  | multiply
  | divide
  | min
  | max
  deriving DecidableEq, Repr

def ElemOp.debug : ElemOp → String
  | relu => "Relu"
  | sigmoid => "Sigmoid"
  | tanh => "Tanh"
  | gelu => "Gelu"
  | silu => "Silu"
  | exp => "Exp"
  | log => "Log"
  | sqrt => "Sqrt"
  | oneMinus => "OneMinus"
  | add => "Add"
  | subtract => "Subtract"
  | multiply => "Multiply"
  | divide => "Divide"
  | min => "Min"
  | max => "Max"

section

variable {S : Type} [F32 S]

open F32 (zero one)

def gelu (x : S) : S :=
  F32.half * x * (one + F32.tanh (F32.sqrtTwoOverPi * (x + F32.geluCoef * x * x * x)))

def silu (x : S) : S := x / (one + F32.exp (-x))

def ElemOp.unaryFn : ElemOp → Option (S → S)
  | relu => some (fun v => F32.max v zero)
  | sigmoid => some (fun v => one / (one + F32.exp (-v)))
  | tanh => some F32.tanh
  | gelu => some Compute.gelu
  | silu => some Compute.silu
  | exp => some F32.exp
  | log => some F32.ln
  | sqrt => some F32.sqrt
  | oneMinus => some (fun v => one - v)
  | add | subtract | multiply | divide | min | max => none

def ElemOp.binaryFn : ElemOp → Option (S → S → S)
  | add => some (fun a b => a + b)
  | subtract => some (fun a b => a - b)
  | multiply => some (fun a b => a * b)
  | divide => some (fun a b => a / b)
  | min => some F32.min
  | max => some F32.max
  | relu | sigmoid | tanh | gelu | silu | exp | log | sqrt | oneMinus => none

def elemOp (op : ElemOp) (x : NumTensor S) : Except Fault (NumTensor S) :=
  match (op.unaryFn : Option (S → S)) with
  | none => .error (.err (.executionError ("elem_op: " ++ op.debug ++ " is not a unary op")))
  | some f => NumTensor.new (x.data.map f) x.shape

def elemOpBinary (op : ElemOp) (x y : NumTensor S) : Except Fault (NumTensor S) :=
  match (op.binaryFn : Option (S → S → S)) with
  | none =>
    .error (.err (.executionError ("elem_op_binary: " ++ op.debug ++ " is not a binary op")))
  | some f =>
    if x.shape ≠ y.shape then
      .error (.err (.shapeMismatch ("elem_op_binary " ++ op.debug ++ ": " ++ showShape x.shape
        ++ " vs " ++ showShape y.shape)))
    else NumTensor.new (List.zipWith f x.data y.data) x.shape

/-! ## Contraction -/

/-- Row-major strides. -/
def strides : List Nat → List Nat
  | [] => []
  | _ :: rest => elems rest :: strides rest

/-- The next index, the last axis fastest; `false` once it wraps to zero. -/
def odometerNext : List Nat → List Nat → Bool × List Nat
  | i :: idx, d :: dims =>
    let next := odometerNext idx dims
    if next.1 then (true, i :: next.2)
    else if i + 1 < d then (true, (i + 1) :: next.2)
    else (false, 0 :: next.2)
  | [], _ => (false, [])
  | _ :: _, [] => (false, [])

/-- The size of each label, checked over both operands. -/
def labelSizes : List (Char × Nat) → List (Char × Nat) → Except Fault (List (Char × Nat))
  | [], sizes => .ok sizes
  | (l, n) :: rest, sizes =>
    match sizes.lookup l with
    | some prev =>
      if prev ≠ n then
        .error (.err (.shapeMismatch ("einsum: label '" ++ String.singleton l
          ++ "' bound to " ++ toString prev ++ " and " ++ toString n)))
      else labelSizes rest sizes
    | none => labelSizes rest ((l, n) :: sizes)

/-- The offset of an index with some labels under strides. -/
def offset (idx : List (Char × Nat)) (labels : List Char) (str : List Nat) : Nat :=
  total (List.zipWith (fun l s => (idx.lookup l).getD 0 * s) labels str)

/-- The loop of the contraction, over the index `idx`. -/
def contract (labels : List Char) (dims : List Nat) (aOff bOff oOff : List (Char × Nat) → Nat)
    (a b : NumTensor S) : Nat → List Nat → List S → Except Fault (List S)
  | 0, _, out => .ok out
  | rounds + 1, idx, out =>
    let pos := (labels.zip idx).reverse
    match a.data[aOff pos]?, b.data[bOff pos]?, out[oOff pos]? with
    | some x, some y, some acc =>
      let out := out.set (oOff pos) (acc + x * y)
      let next := odometerNext idx dims
      if next.1 then contract labels dims aOff bOff oOff a b rounds next.2 out else .ok out
    | _, _, _ => .error .panic

def einsum2op (aLbl bLbl oLbl : List Char) (a b : NumTensor S) : Except Fault (NumTensor S) := do
  if aLbl.length ≠ a.shape.length ∨ bLbl.length ≠ b.shape.length then
    throw (.err (.shapeMismatch ("einsum: subscripts '" ++ String.ofList aLbl ++ "','"
      ++ String.ofList bLbl ++ "' do not match ranks " ++ showShape a.shape ++ ","
      ++ showShape b.shape)))
  let sizes ← labelSizes (aLbl.zip a.shape ++ bLbl.zip b.shape) []
  match oLbl.find? (fun l => (sizes.lookup l).isNone) with
  | some l =>
    throw (.err (.executionError ("einsum: output label '" ++ String.singleton l
      ++ "' not present in inputs")))
  | none =>
    let size := fun l => (sizes.lookup l).getD 0
    let all := oLbl ++ ((aLbl ++ bLbl).filter (fun l => l ∉ oLbl)).eraseDups
    let dims := all.map size
    let oShape := oLbl.map size
    let out ← contract all dims (fun idx => offset idx aLbl (strides a.shape))
      (fun idx => offset idx bLbl (strides b.shape))
      (fun idx => offset idx oLbl (strides oShape)) a b (max (elems dims) 1)
      (all.map (fun _ => 0)) (List.replicate (max (elems oShape) 1) zero)
    NumTensor.new out oShape

/-- `einsum("ij,jk->ik", [a, b])`, the one specification the executor uses. -/
def matMul (a b : NumTensor S) : Except Fault (NumTensor S) :=
  einsum2op ['i', 'j'] ['j', 'k'] ['i', 'k'] a b

/-! ## Reduction -/

inductive ReduceOp where
  | sum
  | mean
  | max
  | min
  | product
  deriving DecidableEq, Repr

def reduceInit : ReduceOp → S
  | .sum | .mean => zero
  | .product => one
  | .max => F32.negInf
  | .min => F32.inf

def reduceStep : ReduceOp → S → S → S
  | .sum, acc, x | .mean, acc, x => acc + x
  | .product, acc, x => acc * x
  | .max, acc, x => F32.max acc x
  | .min, acc, x => F32.min acc x

/-- The loop over the data, with the index of the next item. -/
def reduceLoop (op : ReduceOp) (keep shape outStr : List Nat) :
    List S → List Nat → List S → Except Fault (List S)
  | [], _, out => .ok out
  | v :: rest, idx, out =>
    let off := total (List.zipWith (fun d s => idx.getD d 0 * s) keep outStr)
    match out[off]? with
    | some acc =>
      reduceLoop op keep shape outStr rest (odometerNext idx shape).2
        (out.set off (reduceStep op acc v))
    | none => .error .panic

def reduceNd (op : ReduceOp) (x : NumTensor S) (axes : List Nat) :
    Except Fault (NumTensor S) := do
  let rank := x.shape.length
  match axes.find? (fun ax => ax ≥ rank) with
  | some ax =>
    throw (.err (.executionError ("reduce: axis " ++ toString ax ++ " out of range for shape "
      ++ showShape x.shape)))
  | none =>
    if axes = [] ∨ axes.dedup.length = rank then
      let acc := x.data.foldl (reduceStep op) (reduceInit op)
      let val := if op = .mean then acc / F32.ofNat (max x.data.length 1) else acc
      NumTensor.new [val] [1]
    else
      let keep := (List.range rank).filter (fun d => d ∉ axes)
      let outShape := keep.map (fun d => x.shape.getD d 0)
      let outLen := max (elems outShape) 1
      let count := max (x.data.length / outLen) 1
      let out ← reduceLoop op keep x.shape (strides outShape) x.data
        (List.replicate rank 0) (List.replicate outLen (reduceInit op))
      let out := if op = .mean then out.map (fun v => v / F32.ofNat count) else out
      NumTensor.new out outShape

/-- Put the reduced axes back with size 1. -/
def applyKeepdims (reduced : NumTensor S) (origRank : Nat) (axes : List Nat) (keepdims : Bool) :
    Except Fault (NumTensor S) :=
  if !keepdims then .ok reduced
  else
    let shape :=
      if axes = [] then List.replicate origRank 1
      else (axes.mergeSort).foldl (fun s ax => if ax ≤ s.length then s.insertIdx ax 1 else s)
        reduced.shape
    NumTensor.new reduced.data shape

/-! ## Kernels along an axis -/

/-- A kernel on each row; a tensor of rank 1 is one row. -/
def mapLastAxis (a : NumTensor S) (f : List S → Except Fault (List S)) :
    Except Fault (NumTensor S) :=
  match a.shape with
  | [_] => do NumTensor.new (← f a.data) a.shape
  | [rows, cols] => do
      let out ← (List.range rows).mapM (fun r => do
        f (← slice a.data (r * cols) ((r + 1) * cols)))
      NumTensor.new out.flatten a.shape
  | _ =>
    .error (.err (.executionError ("op supports 1-D/2-D tensors only, got shape "
      ++ showShape a.shape)))

def softmax (logits : List S) : List S :=
  if logits.isEmpty then []
  else
    let top := logits.foldl F32.max F32.negInf
    let exps := logits.map (fun v => F32.exp (v - top))
    let sum := exps.foldl (fun acc v => acc + v) zero
    if F32.pos sum then exps.map (fun v => v / sum) else exps

/-- A negative axis counts from the end. -/
def softmaxOp (a : NumTensor S) (axis : Int) : Except Fault (NumTensor S) :=
  let ax := if axis < 0 then axis + a.shape.length else axis
  let unsupported := Except.error (.err (.executionError ("softmax: unsupported axis "
    ++ toString axis ++ " for shape " ++ showShape a.shape)))
  match a.shape with
  | [_] => NumTensor.new (softmax a.data) a.shape
  | [rows, cols] =>
    if ax = 1 then mapLastAxis a (fun row => .ok (softmax row))
    else if ax = 0 then do
      let columns ← (List.range cols).mapM (fun c => do
        let col ← (List.range rows).mapM (fun r => index a.data (r * cols + c))
        .ok (softmax col))
      NumTensor.new ((List.range rows).flatMap (fun r => columns.map (fun sm => sm.getD r zero)))
        a.shape
    else unsupported
  | _ => unsupported

section

variable {F : Type} [F64 F] [Casts S F]

/-- Without affine parameters: the executor passes none. -/
def layerNorm (F : Type) [F64 F] [Casts S F] (input : List S) (eps : S) :
    Except Fault (List S) :=
  if input.isEmpty then .error (.err (.invalidGraph "layer_norm: empty input"))
  else
    let wide := input.map (fun x => (Casts.widen x : F))
    let n := (F64.ofNat input.length : F)
    let mean := (Casts.narrow (F64.sum wide / n) : S)
    let var := (Casts.narrow (F64.sum (wide.map (fun x => F64.square (x - Casts.widen mean))) / n)
      : S)
    let invStd := one / F32.sqrt (var + eps)
    .ok (input.map (fun x => (x - mean) * invStd))

def layerNormOp (a : NumTensor S) (normalizedShape : List Nat) (eps : F) :
    Except Fault (NumTensor S) := do
  match a.shape.getLast? with
  | none => throw (.err (.shapeMismatch "layer_norm: scalar has no axis to normalize"))
  | some last =>
    if normalizedShape ≠ [] ∧ elems normalizedShape ≠ last then
      throw (.err (.shapeMismatch ("layer_norm: normalized_shape " ++ showShape normalizedShape
        ++ " (=" ++ toString (elems normalizedShape) ++ ") != last dim " ++ toString last)))
    mapLastAxis a (fun row => layerNorm F row (Casts.narrow eps))

end

/-! ## Structure -/

def reshape (a : NumTensor S) (shape : List Int) : Except Fault (NumTensor S) := do
  let dims ← shape.mapM (fun d =>
    if d < 0 then Except.error (.err (.executionError "reshape with -1 not supported yet"))
    else .ok d.toNat)
  NumTensor.new a.data dims

def transpose (a : NumTensor S) (axes : List Nat) : Except Fault (NumTensor S) :=
  match a.shape, axes with
  | [r, c], [1, 0] =>
    if h : r * c < 2 ^ 64 then .ok {
      data := (List.range c).flatMap (fun j =>
        (List.range r).map (fun i => a.data.getD (i * c + j) zero))
      shape := [c, r]
      valid := by
        have hvolume : volume [c, r] = r * c := by simp [volume, Nat.mul_comm]
        rw [elems, hvolume, Nat.mod_eq_of_lt h]
        simp [List.length_flatMap, Nat.mul_comm] }
    -- the product has wrapped
    else .error .panic
  | _, _ =>
    .error (.err (.executionError "transpose: only 2-D with axes [1,0] supported yet"))

end

end Ipfrs.Compute
