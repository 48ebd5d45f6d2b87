import OrionServe.Core
import OrionServe.Lib.Slices

/-!
# Dense tensors

The operations a decoder-only forward pass needs, over row-major matrices. The
scalar arithmetic is not interpreted: `Scalars` names the operations on `f32`,
and on the `f64` values a sum of squares is accumulated in, and says nothing
of what they compute. What holds here holds for any arithmetic, rounding
included – the order of the operations is the one of the source.

A shape that does not fit is an error where the source checks it, and a panic
where a slice or a copy would go out of bounds.

Most operations work on each row by itself. Combining one matrix with another
goes through the flat data of both, so that it is row by row only when both
have rows of the same width (`Matrix.zipData_ofRows`).
-/

/-- The scalar operations on `f32`, here `F`, and on `f64`, here `D`. -/
class Scalars (F : Type*) (D : outParam (Type*)) where
  zero : F
  one : F
  negInfinity : F
  /-- `n as f32`. -/
  ofNat : ℕ → F
  add : F → F → F
  sub : F → F → F
  mul : F → F → F
  div : F → F → F
  powf : F → F → F
  max : F → F → F
  neg : F → F
  sqrt : F → F
  exp : F → F
  cos : F → F
  sin : F → F
  isFinite : F → Bool
  /-- `x == 0.0`. -/
  isZero : F → Bool
  /-- `x > 0.0`. -/
  isPositive : F → Bool
  /-- `x as f64`. -/
  widen : F → D
  /-- `x as f32`. -/
  narrow : D → F
  wideZero : D
  wideOne : D
  /-- `n as f64`. -/
  wideOfNat : ℕ → D
  wideAdd : D → D → D
  wideMul : D → D → D
  wideDiv : D → D → D
  wideSqrt : D → D

/-- How a computation of the model ends without a result. -/
inductive Fault where
  | error (e : EngineError)
  /-- A slice out of bounds, a copy of the wrong length or chunks of nothing. -/
  | panicked
  deriving DecidableEq

/-- A fault with a message of `EngineError::Internal`. -/
def Fault.internal (reason : Message) : Fault := .error (.internal reason)

namespace Tensor

open Scalars

/-- A row of `n` scalars. -/
abbrev RowVec (F : Type*) (n : ℕ) := {r : List F // r.length = n}

/-- A row-major matrix. -/
@[ext] structure Matrix (F : Type*) where
  data : List F
  rows : ℕ
  cols : ℕ
  sized : data.length = rows * cols

variable {F D : Type*} {n : ℕ}

namespace Matrix

/-- A row there is. -/
def rowAt (x : Matrix F) (i : Fin x.rows) : RowVec F x.cols :=
  ⟨x.data.slice (i * x.cols) x.cols, by
    refine List.length_slice ?_
    rw [x.sized, ← Nat.succ_mul]
    exact Nat.mul_le_mul_right _ i.isLt⟩

/-- Borrows row `i`. -/
def row (x : Matrix F) (i : ℕ) : Option (RowVec F x.cols) :=
  if h : i < x.rows then some (x.rowAt ⟨i, h⟩) else none

/-- The rows one after the other. -/
def toRows (x : Matrix F) : List (RowVec F x.cols) := List.ofFn x.rowAt

/-- The matrix of these rows. -/
def ofRows (rs : List (RowVec F n)) : Matrix F where
  data := rs.flatMap Subtype.val
  rows := rs.length
  cols := n
  sized := List.length_flatMap_of_const (fun r _ => r.2)

theorem row_ofRows (rs : List (RowVec F n)) (i : ℕ) : (ofRows rs).row i = rs[i]? := by
  unfold row
  by_cases h : i < rs.length
  · rw [dif_pos (show i < (ofRows rs).rows from h), List.getElem?_eq_getElem h]
    refine congrArg some (Subtype.ext ?_)
    exact List.slice_flatMap (fun r _ => r.2) (List.getElem?_eq_getElem h)
  · rw [dif_neg (show ¬ i < (ofRows rs).rows from h), List.getElem?_eq_none (not_lt.mp h)]
    rfl

@[simp] theorem toRows_ofRows (rs : List (RowVec F n)) : (ofRows rs).toRows = rs :=
  List.ext_getElem? (fun i => List.getElem?_ofFn.trans (row_ofRows rs i))

/-- Combines the data of two matrices, scalar by scalar. -/
def zipData (f : F → F → F) (x y : Matrix F) : Matrix F where
  data := List.zipInto f x.data y.data
  rows := x.rows
  cols := x.cols
  sized := by rw [List.length_zipInto, x.sized]

/-- Adds the data of another matrix to this one's: a residual connection. -/
def addAssign [Scalars F D] (x y : Matrix F) : Matrix F := x.zipData add y

/-- Combines two rows, scalar by scalar. -/
def zipRow (f : F → F → F) (r : RowVec F n) (s : List F) : RowVec F n :=
  ⟨List.zipInto f r.1 s, by rw [List.length_zipInto, r.2]⟩

theorem zipInto_flatMap {f : F → F → F} {rs ss : List (RowVec F n)} (h : rs.length = ss.length) :
    List.zipInto f (rs.flatMap Subtype.val) (ss.flatMap Subtype.val)
      = (List.zipWith (fun r s => zipRow f r s.1) rs ss).flatMap Subtype.val := by
  induction rs generalizing ss with
  | nil =>
    rw [List.eq_nil_of_length_eq_zero h.symm]
    rfl
  | cons r rs ih =>
    cases ss with
    | nil => exact absurd h (Nat.succ_ne_zero _)
    | cons s ss =>
      rw [List.flatMap_cons, List.flatMap_cons, List.zipInto_append (r.2.trans s.2.symm),
        ih (Nat.succ_injective h), List.zipWith_cons_cons, List.flatMap_cons]
      rfl

/-- **Matrices with rows of the same width are combined row by row.** -/
theorem zipData_ofRows (f : F → F → F) {m : ℕ} {rs : List (RowVec F n)} {ss : List (RowVec F m)}
    (hm : m = n) (h : rs.length = ss.length) :
    (ofRows rs).zipData f (ofRows ss)
      = ofRows (List.zipWith (fun r s => zipRow f r s.1) rs ss) := by
  subst hm
  refine Matrix.ext (zipInto_flatMap h) ?_ rfl
  show rs.length = (List.zipWith _ rs ss).length
  rw [List.length_zipWith, h, min_self]

end Matrix

/-! ## The linear layer -/

/-- A plain dot product, accumulated from the left. -/
def dot [Scalars F D] (xs ys : List F) : F :=
  (xs.zip ys).foldl (fun acc p => add acc (mul p.1 p.2)) zero

/-- One output row of `linear`. -/
def linearRow [Scalars F D] (weight : Matrix F) (bias : Option (List F)) (x : List F) :
    RowVec F weight.rows :=
  ⟨List.ofFn (fun j : Fin weight.rows =>
    add (dot x (weight.rowAt j).1) (bias.elim zero (fun b => b.getD j zero))),
    List.length_ofFn⟩

/-- Computes `out = x · Wᵀ`, with a bias if there is one. -/
def linear [Scalars F D] (x weight : Matrix F) (bias : Option (List F)) :
    Except Fault (Matrix F) :=
  if x.cols ≠ weight.cols then
    .error (.internal ["linear shape mismatch: input has ", .nat x.cols,
      " features, weight expects ", .nat weight.cols])
  else if bias.any (fun b => b.length ≠ weight.rows) then
    .error (.internal ["bias has ", .nat (bias.elim 0 List.length), " elements, expected ",
      .nat weight.rows])
  else .ok (.ofRows (x.toRows.map (fun r => linearRow weight bias r.1)))

/-! ## Normalization and activation -/

/-- One row of `rms_norm`. -/
def rmsNormRow [Scalars F D] (weight : List F) (eps : F) (r : RowVec F n) : RowVec F n :=
  let sumSq := r.1.foldl (fun acc v => wideAdd F acc (wideMul F (widen v) (widen v)))
    (wideZero F)
  let rms := wideSqrt F (wideAdd F (wideDiv F sumSq (wideOfNat F n)) (widen eps))
  let scale := narrow (wideDiv F (wideOne F) rms)
  ⟨List.zipInto (fun v w => mul (mul v scale) w) r.1 weight, by rw [List.length_zipInto, r.2]⟩

/-- Root-mean-square normalization of each row. -/
def rmsNorm [Scalars F D] (x : Matrix F) (weight : List F) (eps : F) :
    Except Fault (Matrix F) :=
  if weight.length ≠ x.cols then
    .error (.internal ["rms_norm weight has ", .nat weight.length, " elements, expected ",
      .nat x.cols])
  -- `chunks_mut(0)` panics
  else if x.cols = 0 then .error .panicked
  else .ok (.ofRows (x.toRows.map (rmsNormRow weight eps)))

/-- SiLU: `x * sigmoid(x)`. -/
def silu [Scalars F D] (x : F) : F := div x (add one (exp (neg x)))

/-- `SiLU(gate) * up`, scalar by scalar. -/
def swiglu [Scalars F D] (gate up : Matrix F) : Except Fault (Matrix F) :=
  if gate.rows ≠ up.rows ∨ gate.cols ≠ up.cols then
    .error (.internal ["swiglu shape mismatch: gate is ", .nat gate.rows, "x", .nat gate.cols,
      ", up is ", .nat up.rows, "x", .nat up.cols])
  else .ok (gate.zipData (fun g u => mul (silu g) u) up)

/-- One row of `swiglu`. -/
def swigluRow [Scalars F D] (gate : RowVec F n) (up : List F) : RowVec F n :=
  Matrix.zipRow (fun g u => mul (silu g) u) gate up

/-- Numerically stable softmax. -/
def softmaxInplace [Scalars F D] (x : List F) : List F :=
  let top := x.foldl Scalars.max negInfinity
  if !isFinite top then x.map (fun _ => div one (ofNat x.length))
  else
    let es := x.map (fun v => exp (sub v top))
    let sum := es.foldl add zero
    if isPositive sum then es.map (fun v => div v sum) else es

/-! ## Rotary position embedding -/

/-- Precomputed rotary tables, `[maxPositions, headDim / 2]`. -/
structure RopeTable (F : Type*) where
  cos : List F
  sin : List F
  headDim : ℕ
  maxPositions : ℕ

namespace RopeTable

/-- The angle of a dimension pair at a position. -/
def angle [Scalars F D] (headDim : ℕ) (theta : F) (pos i : ℕ) : F :=
  mul (ofNat pos) (div one (powf theta (div (mul (ofNat 2) (ofNat i)) (ofNat headDim))))

/-- Builds tables for `max_positions` positions. -/
def new [Scalars F D] (headDim maxPositions : ℕ) (theta : F) : Except Fault (RopeTable F) :=
  if headDim % 2 ≠ 0 then
    .error (.internal ["RoPE requires an even head_dim, got ", .nat headDim])
  else
    let angles := (List.range maxPositions).flatMap (fun pos =>
      (List.range (headDim / 2)).map (angle headDim theta pos))
    .ok ⟨angles.map Scalars.cos, angles.map Scalars.sin, headDim, maxPositions⟩

/-- The cosines and sines for a given position. -/
def atPosition (t : RopeTable F) (pos : ℕ) : Option (List F × List F) :=
  if t.maxPositions ≤ pos then none
  else some (t.cos.slice (pos * (t.headDim / 2)) (t.headDim / 2),
    t.sin.slice (pos * (t.headDim / 2)) (t.headDim / 2))

end RopeTable

/-- Rotates one head vector: dimension `i` is paired with `i + head_dim / 2`. -/
def applyRope [Scalars F D] (vec cos sin : List F) : Except Fault (List F) :=
  let half := vec.length / 2
  if cos.length ≠ half ∨ sin.length ≠ half then
    .error (.internal ["RoPE table width ", .nat cos.length,
      " does not match half of head_dim ", .nat half])
  else .ok <| (List.range half).foldl (fun v i =>
    let x0 := v.getD i zero
    let x1 := v.getD (i + half) zero
    let c := cos.getD i zero
    let s := sin.getD i zero
    (v.set i (sub (mul x0 c) (mul x1 s))).set (i + half) (add (mul x0 s) (mul x1 c))) vec

/-! ## What the operations do to the rows -/

section Rows

variable [Scalars F D] {m : ℕ}

theorem linear_ofRows {rs : List (RowVec F n)} {weight : Matrix F} {bias : Option (List F)}
    {y : Matrix F} :
    linear (.ofRows rs) weight bias = .ok y
      ↔ (weight.cols = n ∧ bias.all (fun b => b.length = weight.rows))
        ∧ y = .ofRows (rs.map (fun r => linearRow weight bias r.1)) := by
  unfold linear
  by_cases hcols : (Matrix.ofRows rs).cols ≠ weight.cols
  · rw [if_pos hcols]
    exact ⟨fun h => by simp at h, fun h => absurd h.1.1.symm hcols⟩
  rw [if_neg hcols]
  have hcols' : weight.cols = n := (not_not.mp hcols).symm
  by_cases hbias : bias.any (fun b => b.length ≠ weight.rows) = true
  · rw [if_pos hbias]
    refine ⟨fun h => by simp at h, fun h => ?_⟩
    cases bias with
    | none => exact absurd hbias (by simp)
    | some b => exact absurd h.1.2 (by simpa using hbias)
  · rw [if_neg hbias, Matrix.toRows_ofRows]
    have hbias' : bias.all (fun b => b.length = weight.rows) = true := by
      cases bias with
      | none => rfl
      | some b => simpa using hbias
    exact ⟨fun h => ⟨⟨hcols', hbias'⟩, (Except.ok.inj h).symm⟩, fun h => congrArg _ h.2.symm⟩

theorem rmsNorm_ofRows {rs : List (RowVec F n)} {weight : List F} {eps : F} {y : Matrix F} :
    rmsNorm (.ofRows rs) weight eps = .ok y
      ↔ (weight.length = n ∧ n ≠ 0) ∧ y = .ofRows (rs.map (rmsNormRow weight eps)) := by
  unfold rmsNorm
  rw [Matrix.toRows_ofRows]
  show (if weight.length ≠ n then _ else if n = 0 then _ else _) = _ ↔ _
  by_cases hw : weight.length ≠ n
  · rw [if_pos hw]
    exact ⟨fun h => by simp at h, fun h => absurd h.1.1 hw⟩
  rw [if_neg hw]
  by_cases hn : n = 0
  · rw [if_pos hn]
    exact ⟨fun h => by simp at h, fun h => absurd hn h.1.2⟩
  · rw [if_neg hn]
    exact ⟨fun h => ⟨⟨not_not.mp hw, hn⟩, (Except.ok.inj h).symm⟩, fun h => congrArg _ h.2.symm⟩

theorem swiglu_ofRows {rs : List (RowVec F n)} {ss : List (RowVec F m)}
    (h : rs.length = ss.length) {y : Matrix F} :
    swiglu (.ofRows rs) (.ofRows ss) = .ok y
      ↔ m = n ∧ y = .ofRows (List.zipWith (fun r s => swigluRow r s.1) rs ss) := by
  unfold swiglu
  show (if rs.length ≠ ss.length ∨ n ≠ m then _ else _) = _ ↔ _
  by_cases hm : n ≠ m
  · rw [if_pos (Or.inr hm)]
    exact ⟨fun h => by simp at h, fun h => absurd h.1.symm hm⟩
  obtain rfl := not_not.mp hm
  rw [if_neg (by simp [h])]
  refine Iff.trans ⟨Except.ok.inj, congrArg Except.ok⟩ ?_
  rw [Matrix.zipData_ofRows _ rfl h, eq_comm]
  exact ⟨fun h => ⟨rfl, h⟩, And.right⟩

theorem length_softmaxInplace (x : List F) : (softmaxInplace x).length = x.length := by
  unfold softmaxInplace
  simp only
  split_ifs <;> simp

end Rows

end Tensor
