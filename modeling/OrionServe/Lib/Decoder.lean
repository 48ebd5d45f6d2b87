import OrionServe.Lib.Slices
import Mathlib.Analysis.SpecialFunctions.Pow.Real
import Mathlib.Analysis.SpecialFunctions.Sigmoid
import Mathlib.Analysis.SpecialFunctions.Trigonometric.Basic

/-!
# Decoder-only transformers

The network as it is written down: over the reals, with sums for products of
matrices, every position at once and nothing stored. A vector is a function of
its indices and a matrix one of two; which of them count is said where they
are summed over. A position attends to itself and to those before it, its
query heads in groups over fewer heads of keys and values, and both are turned
by an angle that grows with the position.

An implementation computes on lists. `Decoder.row` is the list of the first
values of a function; what a list operation does to such lists is said here as
far as it has nothing to do with the network.
-/

/-- The weights of one block. -/
structure Decoder.Block where
  inputNorm : ℕ → ℝ
  query : ℕ → ℕ → ℝ
  queryBias : ℕ → ℝ
  key : ℕ → ℕ → ℝ
  keyBias : ℕ → ℝ
  value : ℕ → ℕ → ℝ
  valueBias : ℕ → ℝ
  output : ℕ → ℕ → ℝ
  mlpNorm : ℕ → ℝ
  gate : ℕ → ℕ → ℝ
  up : ℕ → ℕ → ℝ
  down : ℕ → ℕ → ℝ

/-- **A decoder-only transformer.** -/
structure Decoder where
  width : ℕ
  heads : ℕ
  kvHeads : ℕ
  headDim : ℕ
  mlpWidth : ℕ
  vocab : ℕ
  eps : ℝ
  /-- The angle by which a pair of dimensions is turned from one position to the
  next. -/
  freq : ℕ → ℝ
  embedding : ℕ → ℕ → ℝ
  blocks : List Decoder.Block
  finalNorm : ℕ → ℝ
  head : ℕ → ℕ → ℝ

namespace Decoder

/-! ## Operations -/

/-- A matrix applied to a vector of `n` entries, and a bias. -/
noncomputable def affine (n : ℕ) (weight : ℕ → ℕ → ℝ) (bias x : ℕ → ℝ) : ℕ → ℝ :=
  fun j => ∑ i ∈ Finset.range n, x i * weight j i + bias j

/-- A vector over the root of the mean of its squares. -/
noncomputable def normalize (n : ℕ) (gain : ℕ → ℝ) (eps : ℝ) (x : ℕ → ℝ) : ℕ → ℝ :=
  fun i => x i / √((∑ j ∈ Finset.range n, x j ^ 2) / n + eps) * gain i

/-- The part of a vector that belongs to a head. -/
def headOf (headDim h : ℕ) (x : ℕ → ℝ) : ℕ → ℝ := fun i => x (h * headDim + i)

/-- **A vector turned by its position**: each of the first half of its entries
with the corresponding one of the second half. -/
noncomputable def turn (headDim : ℕ) (freq : ℕ → ℝ) (pos : ℕ) (x : ℕ → ℝ) : ℕ → ℝ := fun i =>
  let half := headDim / 2
  if i < half then x i * Real.cos (pos * freq i) - x (i + half) * Real.sin (pos * freq i)
  else x (i - half) * Real.sin (pos * freq (i - half)) + x i * Real.cos (pos * freq (i - half))

/-- The exponentials of `n` scores, as shares. -/
noncomputable def softmax (n : ℕ) (score : ℕ → ℝ) : ℕ → ℝ :=
  fun j => Real.exp (score j) / ∑ k ∈ Finset.range n, Real.exp (score k)

/-- **Attention** of a query over the keys and values of `n` positions. -/
noncomputable def attend (headDim n : ℕ) (q : ℕ → ℝ) (k v : ℕ → ℕ → ℝ) : ℕ → ℝ := fun i =>
  ∑ j ∈ Finset.range n,
    softmax n (fun j => (∑ t ∈ Finset.range headDim, q t * k j t) / √headDim) j * v j i

/-! ## The network -/

section Network

variable (M : Decoder) (b : Block)

/-- A state as the attention of a block gets it. -/
noncomputable def normed (x : ℕ → ℝ) : ℕ → ℝ := normalize M.width b.inputNorm M.eps x

noncomputable def queryAt (pos : ℕ) (x : ℕ → ℝ) (h : ℕ) : ℕ → ℝ :=
  turn M.headDim M.freq pos
    (headOf M.headDim h (affine M.width b.query b.queryBias (M.normed b x)))

noncomputable def keyAt (pos : ℕ) (x : ℕ → ℝ) (h : ℕ) : ℕ → ℝ :=
  turn M.headDim M.freq pos (headOf M.headDim h (affine M.width b.key b.keyBias (M.normed b x)))

noncomputable def valueAt (x : ℕ → ℝ) (h : ℕ) : ℕ → ℝ :=
  headOf M.headDim h (affine M.width b.value b.valueBias (M.normed b x))

/-- What a query head gets at a position from the states up to it. -/
noncomputable def attendHead (states : ℕ → ℕ → ℝ) (pos h : ℕ) : ℕ → ℝ :=
  let group := h / (M.heads / M.kvHeads)
  attend M.headDim (pos + 1) (M.queryAt b pos (states pos) h)
    (fun j => M.keyAt b j (states j) group) (fun j => M.valueAt b (states j) group)

/-- The heads side by side. -/
noncomputable def attention (states : ℕ → ℕ → ℝ) (pos : ℕ) : ℕ → ℝ :=
  fun i => M.attendHead b states pos (i / M.headDim) (i % M.headDim)

/-- The gated layer, with the state that goes past it. -/
noncomputable def mlp (x : ℕ → ℝ) : ℕ → ℝ :=
  let y := normalize M.width b.mlpNorm M.eps x
  let gate := affine M.width b.gate 0 y
  let up := affine M.width b.up 0 y
  fun i => x i + affine M.mlpWidth b.down 0 (fun j => gate j * Real.sigmoid (gate j) * up j) i

/-- **A block**: from the states of all positions to those after it. -/
noncomputable def block (states : ℕ → ℕ → ℝ) (pos : ℕ) : ℕ → ℝ :=
  M.mlp b (fun i => states pos i
    + affine (M.heads * M.headDim) b.output 0 (M.attention b states pos) i)

/-- The states after some blocks. -/
noncomputable def states (tokens : ℕ → ℕ) (blocks : List Block) : ℕ → ℕ → ℝ :=
  blocks.foldl (fun states b => M.block b states) (fun pos => M.embedding (tokens pos))

/-- **The logits at a position of a text.** -/
noncomputable def logits (tokens : ℕ → ℕ) (pos : ℕ) : ℕ → ℝ :=
  affine M.width M.head 0 (normalize M.width M.finalNorm M.eps (M.states tokens M.blocks pos))

theorem states_concat (tokens : ℕ → ℕ) (blocks : List Block) :
    M.states tokens (blocks ++ [b]) = M.block b (M.states tokens blocks) := by
  rw [states, List.foldl_append]
  rfl

end Network

/-- **Scores may be shifted.** -/
theorem softmax_sub (n : ℕ) (score : ℕ → ℝ) (c : ℝ) :
    softmax n (fun j => score j - c) = softmax n score := by
  funext j
  simp only [softmax, Real.exp_sub, ← Finset.sum_div]
  rw [div_div_div_cancel_right₀ (Real.exp_ne_zero c)]

/-! ## Functions as lists -/

/-- The list of the first `n` values of a function. -/
def row (n : ℕ) (x : ℕ → ℝ) : List ℝ := (List.range n).map x

section Rows

variable {n : ℕ} {x y : ℕ → ℝ}

@[simp] theorem length_row : (row n x).length = n := by
  rw [row, List.length_map, List.length_range]

theorem getElem?_row {i : ℕ} : (row n x)[i]? = if i < n then some (x i) else none := by
  rw [row, List.getElem?_map]
  split
  · next h => rw [List.getElem?_range h, Option.map_some]
  · next h => rw [List.getElem?_eq_none (by simpa using h), Option.map_none]

theorem row_congr (h : ∀ i < n, x i = y i) : row n x = row n y :=
  List.map_congr_left (fun i hi => h i (List.mem_range.mp hi))

/-- Every list is such a list. -/
theorem row_getD (l : List ℝ) : row l.length (fun i => l.getD i 0) = l := by
  refine List.ext_getElem? (fun i => ?_)
  rw [getElem?_row]
  split
  · next h => rw [List.getD_eq_getElem?_getD, List.getElem?_eq_getElem h, Option.getD_some]
  · next h => rw [List.getElem?_eq_none (not_lt.mp h)]

theorem map_row (f : ℝ → ℝ) : (row n x).map f = row n (fun i => f (x i)) := List.map_map

theorem zipInto_row (f : ℝ → ℝ → ℝ) :
    List.zipInto f (row n x) (row n y) = row n (fun i => f (x i) (y i)) := by
  have hmaps : ∀ is : List ℕ, List.zipInto f (is.map x) (is.map y)
      = is.map (fun i => f (x i) (y i)) := by
    intro is
    induction is with
    | nil => rfl
    | cons i is ih => rw [List.map_cons, List.map_cons, List.zipInto, ih, List.map_cons]
  exact hmaps _

theorem slice_row {off k : ℕ} (h : off + k ≤ n) :
    (row n x).slice off k = row k (fun i => x (off + i)) := by
  refine List.ext_getElem? (fun i => ?_)
  rw [List.getElem?_slice, getElem?_row, getElem?_row]
  split
  · next hi => rw [if_pos (by omega)]
  · rfl

theorem row_add (a b : ℕ) : row (a + b) x = row a x ++ row b (fun i => x (a + i)) := by
  rw [row, row, row, List.range_add, List.map_append, List.map_map]
  rfl

/-- Rows of one width laid end to end. -/
theorem flatten_rows (headDim : ℕ) (f : ℕ → ℕ → ℝ) (heads : ℕ) :
    ((List.range heads).map (fun h => row headDim (f h))).flatten
      = row (heads * headDim) (fun i => f (i / headDim) (i % headDim)) := by
  induction heads with
  | zero => rw [Nat.zero_mul]; rfl
  | succ heads ih =>
    rw [List.range_succ, List.map_append, List.flatten_append, ih, Nat.succ_mul, row_add]
    refine congrArg (_ ++ ·) ?_
    rw [List.map_singleton, List.flatten_singleton]
    refine row_congr (fun i hi => ?_)
    have hpos : 0 < headDim := Nat.zero_lt_of_lt hi
    rw [Nat.mul_comm, Nat.mul_add_div hpos, Nat.div_eq_of_lt hi, Nat.add_zero, Nat.mul_add_mod,
      Nat.mod_eq_of_lt hi]

theorem sum_row : (row n x).sum = ∑ i ∈ Finset.range n, x i := by
  induction n with
  | zero => rfl
  | succ n ih =>
    rw [row_add, List.sum_append, ih, Finset.sum_range_succ]
    exact congrArg _ (List.sum_singleton)

end Rows

end Decoder
