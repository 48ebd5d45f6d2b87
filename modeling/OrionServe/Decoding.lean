import OrionServe.ForwardReturns
import OrionServe.Lib.Decoder
import OrionServe.Serving

/-!
# The forward pass is a decoder

In exact arithmetic the model computes the network that it is written after
(`Decoder`): what is left once rounding is set aside are the layout of the
weights, the halves of a rotated head, the grouping of the heads, the largest
score that softmax subtracts, the weights of zero that attention skips, and
all that a cache and a batch have to do with. Each operation on rows is shown
to compute the corresponding operation on vectors, and by induction over the
blocks the states are those of the decoder
(`TransformerModel.hiddenOf_decodes`). With the transformer without a cache
between the two, so are the logits of every pass over an arena
(`TransformerModel.forwardAll_decodes`).
-/

open Tensor Scalars

/-- The scalars of both widths are the reals, with exact arithmetic. Nothing is
said of the largest of two numbers, nor of an infinity. -/
class ExactScalars [Scalars ℝ ℝ] : Prop extends ExactReals ℝ where
  one_eq : (one : ℝ) = 1
  div_eq : ∀ x y : ℝ, div x y = x / y
  powf_eq : ∀ x y : ℝ, powf x y = x ^ y
  neg_eq : ∀ x : ℝ, neg x = -x
  sqrt_eq : ∀ x : ℝ, Scalars.sqrt x = √x
  exp_eq : ∀ x : ℝ, Scalars.exp x = Real.exp x
  isFinite_eq : ∀ x : ℝ, isFinite x = true
  isZero_iff : ∀ x : ℝ, isZero x = true ↔ x = 0
  isPositive_iff : ∀ x : ℝ, isPositive x = true ↔ 0 < x
  widen_eq : ∀ x : ℝ, widen x = x
  narrow_eq : ∀ x : ℝ, narrow x = x
  wideZero_eq : wideZero ℝ = (0 : ℝ)
  wideOne_eq : wideOne ℝ = (1 : ℝ)
  wideOfNat_eq : ∀ n : ℕ, wideOfNat ℝ n = (n : ℝ)
  wideAdd_eq : ∀ x y : ℝ, wideAdd ℝ x y = x + y
  wideMul_eq : ∀ x y : ℝ, wideMul ℝ x y = x * y
  wideDiv_eq : ∀ x y : ℝ, wideDiv ℝ x y = x / y
  wideSqrt_eq : ∀ x : ℝ, wideSqrt ℝ x = √x

namespace Tensor

open Decoder

/-! ## Operations on rows -/

section Exact

variable [Scalars ℝ ℝ] [ExactScalars] {n : ℕ} {x y : ℕ → ℝ}

theorem dot_row : dot (row n x) (row n y) = ∑ i ∈ Finset.range n, x i * y i := by
  rw [dot_eq_sum, row, row, List.zip_map', List.map_map]
  exact sum_row

/-- An entry of a matrix. -/
def Matrix.entry (w : Matrix ℝ) (j i : ℕ) : ℝ := w.data.getD (j * w.cols + i) 0

omit [Scalars ℝ ℝ] [ExactScalars] in
theorem rowAt_eq (w : Matrix ℝ) (j : Fin w.rows) : (w.rowAt j).1 = row w.cols (w.entry j) := by
  have hle : j * w.cols + w.cols ≤ w.rows * w.cols := by
    rw [← Nat.succ_mul]
    exact Nat.mul_le_mul_right _ j.isLt
  have hdata : w.data = row (w.rows * w.cols) (fun i => w.data.getD i 0) := by
    rw [← w.sized, row_getD]
  have hslice : (w.rowAt j).1 = w.data.slice (j * w.cols) w.cols := rfl
  rw [hslice, hdata, slice_row hle]
  rfl

/-- The entries of a bias. -/
def biasOf (bias : Option (List ℝ)) (j : ℕ) : ℝ := bias.elim 0 (fun b => b.getD j 0)

/-- **A linear layer is an affine map.** -/
theorem linearRow_row {w : Matrix ℝ} (hw : w.cols = n) (bias : Option (List ℝ)) :
    (linearRow w bias (row n x)).1 = row w.rows (affine n w.entry (biasOf bias) x) := by
  subst hw
  refine List.ext_getElem? (fun j => ?_)
  rw [linearRow, List.getElem?_ofFn, getElem?_row]
  split
  · rw [rowAt_eq, dot_row, ExactReals.add_eq, ExactReals.zero_eq]
    rfl
  · rfl

/-- A sum in the wider format. -/
theorem foldl_wideAdd (l : List ℝ) (a : ℝ) :
    l.foldl (fun acc v => wideAdd ℝ acc (wideMul ℝ (widen v) (widen v))) a
      = a + (l.map (fun v => v ^ 2)).sum := by
  induction l generalizing a with
  | nil => simp
  | cons v l ih =>
    rw [List.foldl_cons, ih, ExactScalars.wideAdd_eq, ExactScalars.wideMul_eq,
      ExactScalars.widen_eq, List.map_cons, List.sum_cons, sq]
    ring

/-- **Normalization.** -/
theorem rmsNormRow_row {gain : List ℝ} (hgain : gain.length = n) (eps : ℝ) {r : RowVec ℝ n}
    (hr : r.1 = row n x) :
    (rmsNormRow gain eps r).1 = row n (normalize n (fun i => gain.getD i 0) eps x) := by
  have hsum : r.1.foldl (fun acc v => wideAdd ℝ acc (wideMul ℝ (widen v) (widen v))) (wideZero ℝ)
      = ∑ j ∈ Finset.range n, x j ^ 2 := by
    rw [foldl_wideAdd, ExactScalars.wideZero_eq, zero_add, hr, map_row, sum_row]
  have hgain' : gain = row n (fun i => gain.getD i 0) := by
    rw [← hgain, row_getD]
  unfold rmsNormRow
  simp only [hsum]
  conv_lhs => rw [hr, hgain']
  rw [zipInto_row]
  refine row_congr (fun i _ => ?_)
  rw [ExactReals.mul_eq, ExactReals.mul_eq, ExactScalars.narrow_eq, ExactScalars.wideDiv_eq,
    ExactScalars.wideOne_eq, ExactScalars.wideSqrt_eq, ExactScalars.wideAdd_eq,
    ExactScalars.wideDiv_eq, ExactScalars.wideOfNat_eq, ExactScalars.widen_eq, mul_one_div]
  rfl

/-- **Softmax**, whatever is subtracted. -/
theorem softmaxInplace_row : softmaxInplace (row n x) = row n (softmax n x) := by
  unfold softmaxInplace
  obtain ⟨top, htop⟩ : ∃ top, (row n x).foldl Scalars.max negInfinity = top := ⟨_, rfl⟩
  simp only [htop, ExactScalars.isFinite_eq, Bool.not_true]
  rw [if_neg Bool.false_ne_true]
  have hes : (row n x).map (fun v => Scalars.exp (sub v top))
      = row n (fun i => Real.exp (x i - top)) := by
    rw [map_row]
    exact row_congr (fun i _ => by rw [ExactReals.sub_eq, ExactScalars.exp_eq])
  have hfold : ∀ (l : List ℝ) (a : ℝ), l.foldl add a = a + l.sum := by
    intro l
    induction l with
    | nil => simp
    | cons v l ih =>
      intro a
      rw [List.foldl_cons, ih, ExactReals.add_eq, List.sum_cons, add_assoc]
  rw [hes, hfold, ExactReals.zero_eq, zero_add, sum_row]
  rcases Nat.eq_zero_or_pos n with rfl | hn
  · split <;> rfl
  have hpos : 0 < ∑ k ∈ Finset.range n, Real.exp (x k - top) :=
    Finset.sum_pos (fun _ _ => Real.exp_pos _) ⟨0, Finset.mem_range.mpr hn⟩
  rw [if_pos ((ExactScalars.isPositive_iff _).mpr hpos), map_row, ← softmax_sub n x top]
  exact row_congr (fun i _ => by rw [ExactScalars.div_eq]; rfl)

theorem silu_eq (v : ℝ) : silu v = v * Real.sigmoid v := by
  rw [silu, ExactScalars.div_eq, ExactReals.add_eq, ExactScalars.one_eq, ExactScalars.exp_eq,
    ExactScalars.neg_eq, Real.sigmoid_def, div_eq_mul_inv]

/-- **Attention of one head.** A value of weight zero adds nothing. -/
theorem headAttention_row (headDim : ℕ) (k v : ℕ → ℕ → ℝ) :
    headAttention headDim (row headDim x) ((List.range n).map (fun j => row headDim (k j)))
        ((List.range n).map (fun j => row headDim (v j)))
      = row headDim (attend headDim n x k v) := by
  have hscores : ((List.range n).map (fun j => row headDim (k j))).map
        (fun k => mul (dot (row headDim x) k) (div one (Scalars.sqrt (Scalars.ofNat headDim))))
      = row n (fun j => (∑ t ∈ Finset.range headDim, x t * k j t) / √headDim) := by
    rw [List.map_map]
    refine List.map_congr_left (fun j _ => ?_)
    show mul (dot _ (row headDim (k j))) _ = _
    rw [ExactReals.mul_eq, dot_row, ExactScalars.div_eq, ExactScalars.one_eq,
      ExactScalars.sqrt_eq, ExactReals.ofNat_eq, mul_one_div]
  have hsum : ∀ (w : ℕ → ℝ) (js : List ℕ) (acc : ℕ → ℝ),
      (js.map (fun j => (w j, row headDim (v j)))).foldl
        (fun o p => if isZero p.1 then o
          else List.zipInto (fun acc val => add acc (mul p.1 val)) o p.2) (row headDim acc)
      = row headDim (fun i => acc i + (js.map (fun j => w j * v j i)).sum) := by
    intro w js
    induction js with
    | nil => intro acc; simp
    | cons j js ih =>
      intro acc
      have hstep : (if isZero (w j) then row headDim acc
          else List.zipInto (fun acc val => add acc (mul (w j) val)) (row headDim acc)
            (row headDim (v j))) = row headDim (fun i => acc i + w j * v j i) := by
        split
        · next hzero =>
          refine row_congr (fun i _ => ?_)
          rw [(ExactScalars.isZero_iff _).mp hzero, zero_mul, add_zero]
        · rw [zipInto_row]
          exact row_congr (fun i _ => by rw [ExactReals.add_eq, ExactReals.mul_eq])
      rw [List.map_cons, List.foldl_cons, hstep, ih]
      refine row_congr (fun i _ => ?_)
      rw [List.map_cons, List.sum_cons, add_assoc]
  unfold headAttention
  simp only [hscores, softmaxInplace_row]
  have hzero : List.replicate headDim (zero : ℝ) = row headDim (fun _ => 0) := by
    rw [row, List.map_const', List.length_range, ExactReals.zero_eq]
  rw [row, List.zip_map', hzero, hsum]
  refine row_congr (fun i _ => ?_)
  rw [zero_add, attend]
  exact sum_row

/-! ## Rotation -/

/-- The angle of a pair of dimensions from one position to the next. -/
noncomputable def ropeFreq (headDim : ℕ) (theta : ℝ) (i : ℕ) : ℝ :=
  1 / theta ^ (2 * (i : ℝ) / headDim)

theorem angle_eq (headDim : ℕ) (theta : ℝ) (pos i : ℕ) :
    RopeTable.angle headDim theta pos i = pos * ropeFreq headDim theta i := by
  rw [RopeTable.angle, ExactReals.mul_eq, ExactReals.ofNat_eq, ExactScalars.div_eq,
    ExactScalars.one_eq, ExactScalars.powf_eq, ExactScalars.div_eq, ExactReals.mul_eq,
    ExactReals.ofNat_eq, ExactReals.ofNat_eq, ExactReals.ofNat_eq, ropeFreq, Nat.cast_ofNat]

/-- **A vector of a head is turned** by the angle of its position. -/
theorem applyRope_row {headDim maxPositions : ℕ} {theta : ℝ} {t : RopeTable ℝ}
    (ht : RopeTable.new headDim maxPositions theta = .ok t) {pos : ℕ} {cos sin out : List ℝ}
    (hat : t.atPosition pos = some (cos, sin))
    (h : applyRope (row headDim x) cos sin = .ok out) :
    out = row headDim (turn headDim (ropeFreq headDim theta) pos x) := by
  have hmax : t.maxPositions = maxPositions := by
    unfold RopeTable.new at ht
    split at ht
    · exact absurd ht nofun
    · rw [← Except.ok.inj ht]
  have hpos : pos < maxPositions := by
    by_contra hge
    unfold RopeTable.atPosition at hat
    rw [if_pos (by omega)] at hat
    exact absurd hat nofun
  obtain ⟨heven, -⟩ := RopeTable.atPosition_new ht hpos
  have hget : ∀ i < headDim, (row headDim x).getD i 0 = x i := by
    intro i hi
    rw [List.getD_eq_getElem?_getD, getElem?_row, if_pos hi, Option.getD_some]
  rw [(rotates_iff ht hpos length_row).mp ⟨cos, sin, hat, h⟩]
  conv_rhs => rw [heven, row_add]
  refine congrArg₂ (· ++ ·) (row_congr fun i hi => ?_) (row_congr fun i hi => ?_)
  · rw [turnLow, hget i (by omega), hget _ (by omega), angle_eq, turn, ← heven, if_pos hi]
  · rw [turnHigh, hget i (by omega), hget _ (by omega), angle_eq, turn, ← heven,
      if_neg (by omega), Nat.add_sub_cancel_left, Nat.add_comm i]

end Exact

section Heads

variable {F D : Type*} [Scalars F D] {n heads headDim : ℕ} {cos sin : List F}

theorem length_applyRope {vec out : List F} (h : applyRope vec cos sin = .ok out) :
    out.length = vec.length := by
  unfold applyRope at h
  dsimp only at h
  split at h
  · exact absurd h nofun
  · rw [← Except.ok.inj h]
    exact length_rotatePairs _ _

/-- **The heads of a row are rotated one by one**, and what comes after them is
left. -/
theorem slice_ropeHeads {v r : RowVec F n}
    (h : TransformerModel.ropeHeads heads headDim cos sin v = .ok r) {g : ℕ}
    (hg : (g + 1) * headDim ≤ n) :
    if g < heads then applyRope (v.1.slice (g * headDim) headDim) cos sin
        = .ok (r.1.slice (g * headDim) headDim)
      else r.1.slice (g * headDim) headDim = v.1.slice (g * headDim) headDim := by
  induction heads generalizing r g with
  | zero =>
    obtain rfl := Except.ok.inj h
    rw [if_neg (Nat.not_lt_zero g)]
  | succ k ih =>
    rw [TransformerModel.ropeHeads, List.range_succ, List.foldlM_append] at h
    obtain ⟨r₁, hr₁, h⟩ := Except.bind_eq_ok_iff.mp h
    rw [List.foldlM_cons] at h
    obtain ⟨r₂, hr₂, h⟩ := Except.bind_eq_ok_iff.mp h
    obtain rfl := Except.ok.inj h
    split at hr₂
    · exact absurd hr₂ nofun
    next hroom =>
    obtain ⟨seg, hseg, hr₂⟩ := Except.bind_eq_ok_iff.mp hr₂
    obtain rfl := Except.ok.inj hr₂
    -- the head is the one that the row had at first
    have hfirst := ih hr₁ (not_lt.mp hroom)
    rw [if_neg (lt_irrefl k)] at hfirst
    rw [hfirst] at hseg
    have hk : k * headDim + headDim ≤ n := by
      rw [← Nat.succ_mul]
      exact not_lt.mp hroom
    have hlen : seg.length = headDim := by
      rw [length_applyRope hseg, List.length_slice (by rw [v.2]; exact hk)]
    rcases Nat.lt_trichotomy g k with hlt | rfl | hgt
    · have hbefore : g * headDim + headDim ≤ k * headDim := by
        rw [← Nat.succ_mul]
        exact Nat.mul_le_mul_right _ hlt
      have hprev := ih hr₁ hg
      rw [if_pos hlt] at hprev
      rw [if_pos (by omega), hprev, List.slice_patch_of_disjoint (Or.inr hbefore)]
    · rw [if_pos (by omega), hseg]
      refine congrArg Except.ok ?_
      have hwritten := List.slice_patch (l := r₁.1)
        (show g * headDim + seg.length ≤ r₁.1.length by
          rw [hlen, r₁.2]
          exact hk)
      rw [hlen] at hwritten
      exact hwritten.symm
    · have hafter : k * headDim + seg.length ≤ g * headDim := by
        rw [hlen, ← Nat.succ_mul]
        exact Nat.mul_le_mul_right _ hgt
      have hprev := ih hr₁ hg
      rw [if_neg (by omega)] at hprev
      rw [if_neg (by omega), List.slice_patch_of_disjoint (Or.inl hafter), hprev]

end Heads

end Tensor

/-! ## The model -/

open Decoder

/-- The decoder's block that a layer holds the weights of. -/
noncomputable def LayerWeights.block (w : LayerWeights ℝ) : Decoder.Block where
  inputNorm i := w.inputNorm.getD i 0
  query := w.qProj.entry
  queryBias := biasOf w.qBias
  key := w.kProj.entry
  keyBias := biasOf w.kBias
  value := w.vProj.entry
  valueBias := biasOf w.vBias
  output := w.oProj.entry
  mlpNorm i := w.postAttnNorm.getD i 0
  gate := w.gateProj.entry
  up := w.upProj.entry
  down := w.downProj.entry

namespace TransformerModel

/-- **The decoder that a model is written after**, `ffn` being the width of its
MLP block. -/
noncomputable def decoder (m : TransformerModel ℝ) (ffn : ℕ) : Decoder where
  width := m.metadata.hiddenSize
  heads := m.metadata.numAttentionHeads
  kvHeads := m.metadata.numKvHeads
  headDim := m.metadata.headDim
  mlpWidth := ffn
  vocab := m.metadata.vocabSize
  eps := m.metadata.rmsNormEps
  freq := ropeFreq m.metadata.headDim m.metadata.ropeTheta
  embedding := m.weights.embedTokens.entry
  blocks := m.weights.layers.map LayerWeights.block
  finalNorm i := m.weights.finalNorm.getD i 0
  head := m.head.entry

/-- A text, as the decoder reads it. -/
def textOf (tokens : List TokenId) (i : ℕ) : ℕ := (tokens.getD i 0).toNat

variable [Scalars ℝ ℝ] [ExactScalars] {m : TransformerModel ℝ} {ffn : ℕ} {w : LayerWeights ℝ}
  {x : m.Hidden} {s : ℕ → ℝ} {pos : ℕ}

omit [Scalars ℝ ℝ] [ExactScalars] in
/-- The embedding of a token. -/
theorem embedRow_row {tok : TokenId} (h : m.embedRow tok = .ok x) :
    x.1 = row m.metadata.hiddenSize (m.weights.embedTokens.entry tok.toNat) := by
  unfold embedRow Tensor.Matrix.row at h
  split at h
  · rw [Option.elim_some] at h
    unfold copyRow at h
    split at h
    · next hlen =>
      obtain rfl := Except.ok.inj h
      refine (rowAt_eq m.weights.embedTokens ⟨tok.toNat, _⟩).trans ?_
      rw [← hlen, (m.weights.embedTokens.rowAt _).2]
    · exact absurd h nofun
  · exact absurd h nofun

omit [Scalars ℝ ℝ] [ExactScalars] in
/-- Heads that fit into a row are cut out of its values. -/
theorem slice_head {n headDim heads g : ℕ} {x : ℕ → ℝ} (hn : n = heads * headDim)
    (hg : g < heads) :
    (row n x).slice (g * headDim) headDim = row headDim (headOf headDim g x) := by
  refine slice_row ?_
  rw [hn, ← Nat.succ_mul]
  exact Nat.mul_le_mul_right _ hg

/-- **What a row attends with**: the heads of its query, its key and its value
are the decoder's. -/
theorem projectRow_heads (hb : m.Built ffn) (hw : w ∈ m.weights.layers)
    (hx : x.1 = row m.metadata.hiddenSize s)
    {y : RowVec ℝ w.qProj.rows × RowVec ℝ w.kProj.rows × RowVec ℝ w.vProj.rows}
    (h : m.projectRow w x pos = .ok y) :
    (∀ g < m.metadata.numAttentionHeads,
        y.1.1.slice (g * m.metadata.headDim) m.metadata.headDim
          = row m.metadata.headDim ((m.decoder ffn).queryAt w.block pos s g))
      ∧ ∀ g < m.metadata.numKvHeads,
        y.2.1.1.slice (g * m.metadata.headDim) m.metadata.headDim
            = row m.metadata.headDim ((m.decoder ffn).keyAt w.block pos s g)
          ∧ y.2.2.1.slice (g * m.metadata.headDim) m.metadata.headDim
            = row m.metadata.headDim ((m.decoder ffn).valueAt w.block s g) := by
  have hshape := hb.shaped.layers w hw
  -- the widths are not cut to a word: the heads were found in them
  have hroom := le_of_projectRow hb h
  rw [hshape.qProj.1] at hroom
  have hquery : m.metadata.numAttentionHeads * m.metadata.headDim < 2 ^ 64 :=
    hroom.trans_lt (Nat.mod_lt _ (by norm_num))
  have hq : w.qProj.rows = m.metadata.numAttentionHeads * m.metadata.headDim :=
    hshape.qProj.1.trans (Nat.mod_eq_of_lt hquery)
  have hkv : m.metadata.kvDim = m.metadata.numKvHeads * m.metadata.headDim :=
    Nat.mod_eq_of_lt (hb.consistent.kvWidth_le.trans_lt hquery)
  have hnorm := rmsNormRow_row hshape.inputNorm m.metadata.rmsNormEps hx
  obtain ⟨r, hr, h⟩ := Except.bind_eq_ok_iff.mp h
  obtain rfl := Except.ok.inj h
  unfold ropeRow at hr
  split at hr
  · exact absurd hr nofun
  next cos sin hat =>
  obtain ⟨q, hqr, hr⟩ := Except.bind_eq_ok_iff.mp hr
  obtain ⟨k, hkr, hr⟩ := Except.bind_eq_ok_iff.mp hr
  obtain rfl := Except.ok.inj hr
  have hheads : ∀ {n heads : ℕ} {v r : RowVec ℝ n} {u : ℕ → ℝ}, n = heads * m.metadata.headDim →
      ropeHeads heads m.metadata.headDim cos sin v = .ok r → v.1 = row n u → ∀ g < heads,
      r.1.slice (g * m.metadata.headDim) m.metadata.headDim
        = row m.metadata.headDim (turn m.metadata.headDim
          (ropeFreq m.metadata.headDim m.metadata.ropeTheta) pos
          (headOf m.metadata.headDim g u)) := by
    intro n heads v r u hn hrope hv g hg
    have hslice := slice_ropeHeads hrope (g := g)
      (hn ▸ Nat.mul_le_mul_right _ hg)
    rw [if_pos hg, hv, slice_head hn hg] at hslice
    exact applyRope_row hb.rope hat hslice
  have hqrow := (congrArg (fun l => (linearRow w.qProj w.qBias l).1) hnorm).trans
    (linearRow_row hshape.qProj.2 w.qBias)
  have hkrow := (congrArg (fun l => (linearRow w.kProj w.kBias l).1) hnorm).trans
    (linearRow_row hshape.kProj.2 w.kBias)
  refine ⟨hheads hq hqr hqrow,
    fun g hg => ⟨hheads (hshape.kProj.1.trans hkv) hkr hkrow g hg, ?_⟩⟩
  rw [hnorm, linearRow_row hshape.vProj.2, slice_head (hshape.vProj.1.trans hkv) hg]
  rfl

/-- A residual connection. -/
theorem zipRow_add_row {r : m.Hidden} {u v : ℕ → ℝ} {l : List ℝ}
    (hr : r.1 = row m.metadata.hiddenSize u) (hl : l = row m.metadata.hiddenSize v) :
    (Matrix.zipRow add r l).1 = row m.metadata.hiddenSize (fun i => u i + v i) := by
  show List.zipInto add r.1 l = _
  rw [hr, hl, zipInto_row]
  exact row_congr (fun i _ => ExactReals.add_eq _ _)

/-- **The MLP block**, with the residual connection past it. -/
theorem mlpRow_row (hb : m.Built ffn) (hw : w ∈ m.weights.layers)
    (hx : x.1 = row m.metadata.hiddenSize s) :
    (m.mlpRow w x).1 = row m.metadata.hiddenSize ((m.decoder ffn).mlp w.block s) := by
  have hshape := hb.shaped.layers w hw
  have hbias : biasOf none = 0 := rfl
  have hnorm := rmsNormRow_row hshape.postAttnNorm m.metadata.rmsNormEps hx
  set y := normalize m.metadata.hiddenSize (fun i => w.postAttnNorm.getD i 0)
    m.metadata.rmsNormEps s with hy
  have hgate : (linearRow w.gateProj none
      (rmsNormRow w.postAttnNorm m.metadata.rmsNormEps x).1).1
        = row ffn (affine m.metadata.hiddenSize w.gateProj.entry 0 y) := by
    rw [hnorm, linearRow_row hshape.gateProj.2, hshape.gateProj.1, hbias]
  have hup : (linearRow w.upProj none
      (rmsNormRow w.postAttnNorm m.metadata.rmsNormEps x).1).1
        = row ffn (affine m.metadata.hiddenSize w.upProj.entry 0 y) := by
    rw [hnorm, linearRow_row hshape.upProj.2, hshape.upProj.1, hbias]
  refine zipRow_add_row hx ?_
  have hgated : ∀ {n : ℕ} {g : RowVec ℝ n} {a b : ℕ → ℝ} {l : List ℝ}, g.1 = row ffn a →
      l = row ffn b → (swigluRow g l).1 = row ffn (fun j => a j * Real.sigmoid (a j) * b j) := by
    intro n g a b l hg hl
    show List.zipInto (fun g u => mul (silu g) u) g.1 l = _
    rw [hg, hl, zipInto_row]
    exact row_congr (fun j _ => by rw [ExactReals.mul_eq, silu_eq])
  rw [hgated hgate hup, linearRow_row hshape.downProj.2, hshape.downProj.1, hbias]
  rfl

/-- **The state after attention.** -/
theorem finishRow_row (hb : m.Built ffn) (hw : w ∈ m.weights.layers)
    (hq : w.oProj.cols = m.metadata.numAttentionHeads * m.metadata.headDim)
    (hx : x.1 = row m.metadata.hiddenSize s) {u : ℕ → ℝ} :
    (m.finishRow w x (row (m.metadata.numAttentionHeads * m.metadata.headDim) u)).1
      = row m.metadata.hiddenSize ((m.decoder ffn).mlp w.block (fun i => s i
        + affine (m.metadata.numAttentionHeads * m.metadata.headDim) w.oProj.entry 0 u i)) := by
  refine mlpRow_row hb hw (zipRow_add_row hx ?_)
  rw [linearRow_row hq, (hb.shaped.layers w hw).oProj.1]
  rfl

/-- **Attention over rows** of the keys and values of some positions. -/
theorem groupedAttention_row {heads kvHeads headDim n : ℕ} {query a : List ℝ}
    {keys values : ℕ → Except Fault (List (List ℝ))} {q : ℕ → ℕ → ℝ} {k v : ℕ → ℕ → ℕ → ℝ}
    (hgroup : kvHeads ∣ heads)
    (hq : ∀ h < heads, query.slice (h * headDim) headDim = row headDim (q h))
    (hk : ∀ g < kvHeads, ∀ ks, keys g = .ok ks →
      ks = (List.range n).map (fun j => row headDim (k g j)))
    (hv : ∀ g < kvHeads, ∀ vs, values g = .ok vs →
      vs = (List.range n).map (fun j => row headDim (v g j)))
    (h : groupedAttention heads kvHeads headDim query keys values = .ok a) :
    a = row (heads * headDim) (fun i => attend headDim n (q (i / headDim))
      (k (i / headDim / (heads / kvHeads))) (v (i / headDim / (heads / kvHeads)))
      (i % headDim)) := by
  rw [groupedAttention] at h
  rcases hos : (List.range heads).mapM (fun h => do
      let ks ← keys (h / (heads / kvHeads))
      let vs ← values (h / (heads / kvHeads))
      return headAttention headDim (query.slice (h * headDim) headDim) ks vs) with e | os
  · rw [hos] at h
    exact absurd h nofun
  rw [hos] at h
  obtain rfl := Except.ok.inj h
  have hheads := List.mapM_eq_ok_iff.mp hos
  have hmap : os = (List.range heads).map (fun h => row headDim (attend headDim n (q h)
      (k (h / (heads / kvHeads))) (v (h / (heads / kvHeads))))) := by
    refine List.ext_get (by rw [List.length_map, hheads.length_eq]) (fun i hi hi' => ?_)
    have hlt : i < heads := by rwa [List.length_map, List.length_range] at hi'
    have hhead := hheads.get (by rwa [List.length_range]) hi
    simp only [List.get_eq_getElem, List.getElem_range, List.getElem_map] at hhead ⊢
    obtain ⟨ks, hks, hhead⟩ := Except.bind_eq_ok_iff.mp hhead
    obtain ⟨vs, hvs, hhead⟩ := Except.bind_eq_ok_iff.mp hhead
    have hkv : i / (heads / kvHeads) < kvHeads := by
      refine Nat.div_lt_of_lt_mul ?_
      rwa [Nat.div_mul_cancel hgroup]
    rw [← Except.ok.inj hhead, hk _ hkv ks hks, hv _ hkv vs hvs, hq i hlt, headAttention_row]
  rw [hmap, flatten_rows]

/-- The keys or the values of the positions of a text. -/
theorem headRows_row (hb : m.Built ffn) (hw : w ∈ m.weights.layers)
    {hidden : List TokenId → Except Fault m.Hidden} {tokens : List TokenId} {states : ℕ → ℕ → ℝ}
    (hstates : ∀ j < tokens.length, ∀ x, hidden (tokens.take (j + 1)) = .ok x →
      x.1 = row m.metadata.hiddenSize (states j)) {isValue : Bool} {g : ℕ}
    (hg : g < m.metadata.numKvHeads) {rs : List (List ℝ)}
    (h : m.headRows w hidden tokens isValue g = .ok rs) :
    rs = (List.range tokens.length).map (fun j => row m.metadata.headDim
      (if isValue then (m.decoder ffn).valueAt w.block (states j) g
        else (m.decoder ffn).keyAt w.block j (states j) g)) := by
  have hrows := List.mapM_eq_ok_iff.mp h
  refine List.ext_get (by rw [List.length_map, hrows.length_eq]) (fun j hj hj' => ?_)
  have hlt : j < tokens.length := by rwa [List.length_map, List.length_range] at hj'
  have hrow := hrows.get (by rwa [List.length_range]) hj
  simp only [List.get_eq_getElem, List.getElem_range, List.getElem_map] at hrow ⊢
  obtain ⟨kv, hkv, hrow⟩ := Except.bind_eq_ok_iff.mp hrow
  obtain ⟨x, hx, hkv⟩ := Except.bind_eq_ok_iff.mp hkv
  obtain ⟨y, hy, hkv⟩ := Except.bind_eq_ok_iff.mp hkv
  obtain rfl := Except.ok.inj hkv
  have hlen : (tokens.take (j + 1)).length - 1 = j := by
    rw [List.length_take, min_eq_left hlt, Nat.add_sub_cancel]
  rw [hlen] at hy
  obtain ⟨hkey, hvalue⟩ := (projectRow_heads hb hw (hstates j hlt x hx) hy).2 g hg
  rw [← Except.ok.inj hrow]
  cases isValue
  · exact hkey
  · exact hvalue

/-- **One block.** -/
theorem layerFrom_row (hb : m.Built ffn) (hw : w ∈ m.weights.layers)
    {hidden : List TokenId → Except Fault m.Hidden} {tokens : List TokenId} {states : ℕ → ℕ → ℝ}
    (hstates : ∀ j < tokens.length, ∀ x, hidden (tokens.take (j + 1)) = .ok x →
      x.1 = row m.metadata.hiddenSize (states j)) (hpos : pos + 1 = tokens.length)
    (h : m.layerFrom w hidden tokens = .ok x) :
    x.1 = row m.metadata.hiddenSize ((m.decoder ffn).block w.block states pos) := by
  obtain ⟨x₀, hx₀, h⟩ := Except.bind_eq_ok_iff.mp h
  obtain ⟨y, hy, h⟩ := Except.bind_eq_ok_iff.mp h
  obtain ⟨a, ha, h⟩ := Except.bind_eq_ok_iff.mp h
  obtain rfl := Except.ok.inj h
  have hlast : x₀.1 = row m.metadata.hiddenSize (states pos) := by
    refine hstates pos (by omega) x₀ ?_
    rw [hpos, List.take_length]
    exact hx₀
  rw [← hpos, Nat.add_sub_cancel] at hy
  obtain ⟨hq, -⟩ := projectRow_heads hb hw hlast hy
  have hattn := groupedAttention_row (n := tokens.length)
    (Nat.dvd_of_mod_eq_zero hb.consistent.grouped) hq
    (fun g hg ks hks => headRows_row hb hw hstates hg hks)
    (fun g hg vs hvs => headRows_row hb hw hstates hg hvs) ha
  have hroom := le_of_projectRow hb hy
  have hshape := hb.shaped.layers w hw
  rw [hshape.qProj.1] at hroom
  have hcols : w.oProj.cols = m.metadata.numAttentionHeads * m.metadata.headDim :=
    hshape.oProj.2.trans (Nat.mod_eq_of_lt (hroom.trans_lt (Nat.mod_lt _ (by norm_num))))
  rw [hattn, finishRow_row hb hw hcols hlast, ← hpos]
  rfl

/-- **The states of a text are the decoder's**, after each block. -/
theorem hiddenOf_decodes (hb : m.Built ffn) {tokens : List TokenId} {layer : ℕ}
    (hlayer : layer ≤ m.weights.layers.length) (hpos : pos < tokens.length)
    (h : m.hiddenOf layer (tokens.take (pos + 1)) = .ok x) :
    x.1 = row m.metadata.hiddenSize ((m.decoder ffn).states (textOf tokens)
      ((m.decoder ffn).blocks.take layer) pos) := by
  induction layer generalizing pos x with
  | zero =>
    rw [hiddenOf, List.getLast?_take, if_neg (Nat.succ_ne_zero _), Nat.add_sub_cancel,
      List.getElem?_eq_getElem hpos] at h
    rw [embedRow_row h, List.take_zero]
    have htok : textOf tokens pos = tokens[pos].toNat := by
      rw [textOf, List.getD_eq_getElem?_getD, List.getElem?_eq_getElem hpos, Option.getD_some]
    show _ = row _ (m.weights.embedTokens.entry (textOf tokens pos))
    rw [htok]
  | succ layer ih =>
    have hlt : layer < m.weights.layers.length := hlayer
    rw [hiddenOf, List.getElem?_eq_getElem hlt] at h
    have hblocks : (m.decoder ffn).blocks.take (layer + 1)
        = (m.decoder ffn).blocks.take layer ++ [m.weights.layers[layer].block] := by
      have hlt' : layer < (m.decoder ffn).blocks.length := by
        show layer < (m.weights.layers.map LayerWeights.block).length
        rwa [List.length_map]
      rw [List.take_succ_eq_append_getElem hlt']
      refine congrArg (fun b => _ ++ [b]) ?_
      exact List.getElem_map _
    rw [hblocks, states_concat]
    refine layerFrom_row hb (List.getElem_mem hlt)
      (show ∀ j < (tokens.take (pos + 1)).length, _ from fun j hj x hx => ?_) ?_ h
    · rw [List.length_take] at hj
      rw [List.take_take, min_eq_left (by omega)] at hx
      exact ih hlt.le (by omega) hx
    · rw [List.length_take, min_eq_left hpos]

omit [ExactScalars] in
theorem head_shape (hb : m.Built ffn) :
    m.head.rows = m.metadata.vocabSize ∧ m.head.cols = m.metadata.hiddenSize := by
  unfold head
  rcases hlm : m.weights.lmHead with - | w
  · exact hb.shaped.embedTokens
  · exact hb.shaped.lmHead w hlm

omit [ExactScalars] in
/-- There is no state of no text. -/
theorem hiddenOf_nil {layer : ℕ} : m.hiddenOf layer [] ≠ .ok x := by
  induction layer generalizing x with
  | zero => exact nofun
  | succ layer ih =>
    intro h
    rw [hiddenOf] at h
    rcases hw : m.weights.layers[layer]? with - | w
    · rw [hw] at h
      exact absurd h nofun
    · rw [hw] at h
      obtain ⟨x₀, hx₀, -⟩ := Except.bind_eq_ok_iff.mp h
      exact ih hx₀

/-- **The logits of a text are the decoder's.** -/
theorem logitsOf_decodes (hb : m.Built ffn) {tokens : List TokenId} (hpos : pos < tokens.length)
    {l : List ℝ} (h : m.logitsOf (tokens.take (pos + 1)) = .ok l) :
    l = row m.metadata.vocabSize ((m.decoder ffn).logits (textOf tokens) pos) := by
  rw [logitsOf] at h
  rcases hx : m.hiddenOf m.metadata.numLayers (tokens.take (pos + 1)) with e | x
  · rw [hx] at h
    cases h
  rw [hx] at h
  obtain rfl := Except.ok.inj h
  have hstate := hiddenOf_decodes hb hb.shaped.numLayers.ge hpos hx
  have hall : (m.decoder ffn).blocks.take m.metadata.numLayers = (m.decoder ffn).blocks := by
    refine List.take_of_length_le ?_
    show (m.weights.layers.map LayerWeights.block).length ≤ _
    rw [List.length_map, hb.shaped.numLayers]
  rw [hall] at hstate
  have hnorm := rmsNormRow_row hb.shaped.finalNorm m.metadata.rmsNormEps hstate
  show (linearRow m.head none _).1 = _
  rw [hnorm, linearRow_row (head_shape hb).2, (head_shape hb).1]
  rfl

/-- **Serving is decoding.** Take batches of jobs in which every row within the
text of its sequence finds that text at the positions it reads – chunks of
prompts and single tokens in any order, over blocks shared or not. In exact
arithmetic, if the passes over them succeed, each job is answered by the
logits that the decoder has at the last of its positions. -/
theorem forwardAll_decodes {m m' : TransformerModel ℝ} {ffn : ℕ} (hb : m.Built ffn)
    {batches : List (List Job)} (hrun : m.CoherentRun (fun _ => none) batches)
    {outs : List (ForwardOutput ℝ)}
    (h : forwardAll (batches.map (fun jobs => .ofSlots (jobs.map Job.slot))) m = (m', .ok outs)) :
    List.Forall₂ (fun jobs out => ∀ i j, jobs[i]? = some j →
      j.slot.start + j.slot.tokens.length ≤ j.text.length →
      j.slot.start + j.slot.tokens.length ≤ 2 ^ 32 →
      out.row i = some (row m.metadata.vocabSize ((m.decoder ffn).logits (textOf j.text)
        (j.slot.start + j.slot.tokens.length - 1)))) batches outs := by
  have hanswers := forwardAll_faithful (residualsFit hb) hrun rfl faithful_none h
  refine hanswers.imp (fun jobs out hout i j hj hknown hword => ?_)
  have hctx : j.text.take (j.slot.start + j.slot.tokens.length) ∈ j.context := by
    rw [Job.context]
    exact if_pos ⟨hknown, hword⟩
  obtain ⟨l, hrow, hl⟩ := hout.row (head_shape hb).1 hj hctx
  rw [hrow]
  refine congrArg some ?_
  rcases hstop : j.slot.start + j.slot.tokens.length with - | pos
  · rw [hstop, List.take_zero, logitsOf] at hl
    rcases hx : m.hiddenOf m.metadata.numLayers [] with e | x
    · rw [hx] at hl
      cases hl
    · exact absurd hx hiddenOf_nil
  · rw [hstop] at hl
    exact logitsOf_decodes hb (by omega) hl

omit [ExactScalars] in
/-- A run of one pass. -/
theorem forwardAll_singleton {b : ForwardBatch} {kv : KvStore ℝ} {out : ForwardOutput ℝ}
    (h : m.forwardOn b m.kv = (kv, .ok out)) :
    (m.forward b).2 = .ok out ∧ ∃ m', forwardAll [b] m = (m', .ok [out]) := by
  have hpass : (m.forward b).2 = .ok out := congrArg Prod.snd h
  refine ⟨hpass, (m.forward b).1, ?_⟩
  rw [forwardAll, Attempt.andThen_eq_ok_iff]
  exact ⟨(m.forward b).1, out, Prod.ext rfl hpass, rfl⟩

end TransformerModel

/-! ## One head over the reals -/

namespace RealModel

theorem exactScalars_realScalars : @ExactScalars realScalars :=
  let _ : Scalars ℝ ℝ := realScalars
  { exactReals_realScalars with
    one_eq := rfl
    div_eq := fun _ _ => rfl
    powf_eq := fun _ _ => rfl
    neg_eq := fun _ => rfl
    sqrt_eq := fun _ => rfl
    exp_eq := fun _ => rfl
    isFinite_eq := fun _ => rfl
    isZero_iff := fun _ => decide_eq_true_iff
    isPositive_iff := fun _ => decide_eq_true_iff
    widen_eq := fun _ => rfl
    narrow_eq := fun _ => rfl
    wideZero_eq := rfl
    wideOne_eq := rfl
    wideOfNat_eq := fun _ => rfl
    wideAdd_eq := fun _ _ => rfl
    wideMul_eq := fun _ _ => rfl
    wideDiv_eq := fun _ _ => rfl
    wideSqrt_eq := fun _ => rfl }

def metadata : ModelMetadata ℝ where
  architecture := "llama"
  name := "one head"
  hiddenSize := 1
  numLayers := 1
  numAttentionHeads := 1
  numKvHeads := 1
  headDim := 2
  vocabSize := 2
  maxPositionEmbeddings := 2
  ropeTheta := 10000
  rmsNormEps := 0
  dtype := .f32
  eosTokenIds := []
  bosTokenId := none

def weights : ModelWeights ℝ where
  embedTokens := ⟨[1, 2], 2, 1, rfl⟩
  layers := [{
    inputNorm := [1]
    qProj := ⟨[1, 2], 2, 1, rfl⟩
    kProj := ⟨[2, 1], 2, 1, rfl⟩
    vProj := ⟨[1, 3], 2, 1, rfl⟩
    oProj := ⟨[1, 1], 1, 2, rfl⟩
    qBias := none
    kBias := none
    vBias := some [1, 0]
    postAttnNorm := [1]
    gateProj := ⟨[1], 1, 1, rfl⟩
    upProj := ⟨[1], 1, 1, rfl⟩
    downProj := ⟨[1], 1, 1, rfl⟩ }]
  finalNorm := [1]
  lmHead := none

noncomputable def rope : RopeTable ℝ :=
  let _ : Scalars ℝ ℝ := realScalars
  let angles := (List.range 2).flatMap (fun pos =>
    (List.range 1).map (RopeTable.angle 2 (10000 : ℝ) pos))
  ⟨angles.map Scalars.cos, angles.map Scalars.sin, 2, 2⟩

/-- The model, with one block of two slots. -/
noncomputable def model : TransformerModel ℝ :=
  let _ : Scalars ℝ ℝ := realScalars
  { metadata, weights, rope
    kv := .new ⟨1, 1, 2, 1, 2⟩
    blockSize := 2
    fits := rfl }

theorem built : @TransformerModel.Built ℝ ℝ realScalars model 1 :=
  let _ : Scalars ℝ ℝ := realScalars
  { consistent := {
      heads := one_ne_zero
      layers := one_ne_zero
      kvHeads := one_ne_zero
      grouped := rfl
      headDim := two_ne_zero
      vocab := two_ne_zero }
    shaped := {
      embedTokens := ⟨rfl, rfl⟩
      numLayers := rfl
      layers := List.forall_mem_singleton.mpr {
        inputNorm := rfl
        qProj := ⟨rfl, rfl⟩
        kProj := ⟨rfl, rfl⟩
        vProj := ⟨rfl, rfl⟩
        oProj := ⟨rfl, rfl⟩
        qBias := rfl
        kBias := rfl
        vBias := rfl
        postAttnNorm := rfl
        gateProj := ⟨rfl, rfl⟩
        upProj := ⟨rfl, rfl⟩
        downProj := ⟨rfl, rfl⟩ }
      finalNorm := rfl
      lmHead := fun _ h => absurd h nofun }
    rope := rfl }

/-- A prompt of two tokens. -/
def prompt : List Job := [⟨⟨⟨1⟩, [0, 1], 0, [⟨0⟩], true⟩, [0, 1]⟩]

theorem coherent_prompt :
    @TransformerModel.Coherent ℝ ℝ realScalars model (fun _ => none) prompt := by
  let _ : Scalars ℝ ℝ := realScalars
  decide +kernel

theorem wellShaped_prompt :
    (ForwardBatch.ofSlots (prompt.map Job.slot)).WellShaped metadata 1 2 where
  valid := rfl
  counts := by decide
  tokens := show ∀ t ∈ [(0 : TokenId), 1], t.toNat < 2 by simp
  positions := show ∀ p ∈ [0, 1], p < 2 by decide
  covered := by decide +kernel
  blocks := by decide

end RealModel

open RealModel in
/-- A prompt is answered with the decoder's logits at its last position. -/
theorem TransformerModel.forwardAll_decodes_prompt :
    let _ : Scalars ℝ ℝ := realScalars
    ∃ out, (model.forward (.ofSlots (prompt.map Job.slot))).2 = .ok out
      ∧ out.row 0 = some (row model.metadata.vocabSize
        ((model.decoder 1).logits (textOf [0, 1]) 1)) := by
  intro inst
  have _ : ExactScalars := exactScalars_realScalars
  obtain ⟨kv, out, hpass, -⟩ := exists_forwardOn built ⟨one_ne_zero, by decide⟩ wellShaped_prompt
    (by decide) rfl
  obtain ⟨hout, m', hrun⟩ := forwardAll_singleton hpass
  have hcoherent : model.CoherentRun (fun _ => none) [prompt] := ⟨coherent_prompt, trivial⟩
  have hall := forwardAll_decodes built hcoherent hrun
  have hfirst := (List.forall₂_cons.mp hall).1 0 ⟨⟨⟨1⟩, [0, 1], 0, [⟨0⟩], true⟩, [0, 1]⟩ rfl
    (by decide) (by decide)
  exact ⟨out, hout, hfirst⟩
