import OrionServe.TransformerWrites

/-!
# The forward pass, row by row

A layer of the model is a layer over a shared store: a row writes one entry at
its physical slot, then reads the slots of the positions up to its own, and
everything else it does by itself. `TransformerModel.stack` says what one row
does, in terms of the position of the row and the block table of its sequence;
`layerForward_eq_ok_iff` that a layer over a batch succeeds exactly when its
rows go through it so, and `layersForward_eq_ok_iff` that of all layers.

The shapes that the pass compares are the same for every batch
(`LayerWeights.Checked`). What it does not compare are the widths at the
residual connections, and rows stay apart there only if these fit
(`LayerWeights.ResidualsFit`).
-/

open Tensor Scalars

/-- Where a row is: its position, and the block table of its sequence. -/
structure Place where
  position : ℕ
  table : List BlockId
  deriving DecidableEq

/-- Where a row of a batch is. -/
def Row.place (r : Row) : Place := ⟨r.position, r.table⟩

/-- **The residual connections fit**: what is added to the hidden states is as
wide as they are. `ModelWeights::load` checks it, the forward pass does not. -/
structure LayerWeights.ResidualsFit {F : Type*} (w : LayerWeights F) (hiddenSize : ℕ) : Prop where
  attention : w.oProj.rows = hiddenSize
  mlp : w.downProj.rows = hiddenSize

namespace TransformerModel

variable {F D : Type*} [Scalars F D] (m : TransformerModel F)

/-- A row of the hidden states. -/
abbrev Hidden (m : TransformerModel F) := RowVec F m.metadata.hiddenSize

/-! ## What one row does -/

/-- The query, key and value of a row. -/
def projectRow (w : LayerWeights F) (x : m.Hidden) (pos : ℕ) :
    Except Fault (RowVec F w.qProj.rows × RowVec F w.kProj.rows × RowVec F w.vProj.rows) := do
  let normed := rmsNormRow w.inputNorm m.metadata.rmsNormEps x
  let qk ← m.ropeRow
    ((linearRow w.qProj w.qBias normed.1, linearRow w.kProj w.kBias normed.1), pos)
  return (qk.1, qk.2, linearRow w.vProj w.vBias normed.1)

/-- A row after the MLP block. -/
def mlpRow (w : LayerWeights F) (hidden : m.Hidden) : m.Hidden :=
  let normed := rmsNormRow w.postAttnNorm m.metadata.rmsNormEps hidden
  let gate := swigluRow (linearRow w.gateProj none normed.1) (linearRow w.upProj none normed.1).1
  Matrix.zipRow add hidden (linearRow w.downProj none gate.1).1

/-- A row after attention, the residual connection and the MLP block. -/
def finishRow (w : LayerWeights F) (x : m.Hidden) (attn : List F) : m.Hidden :=
  m.mlpRow w (Matrix.zipRow add x (linearRow w.oProj none attn).1)

/-- The arguments attention is called with for a row. -/
def attentionArgs (layer : ℕ) (p : Place) : AttentionArgs where
  blockTable := p.table
  contextLen := 0
  queryPosition := p.position
  layer := layer
  numQueryHeads := m.metadata.numAttentionHeads
  numKvHeads := m.metadata.numKvHeads
  headDim := m.metadata.headDim
  blockSize := m.blockSize

theorem length_zeros :
    (List.replicate (m.metadata.numAttentionHeads * m.metadata.headDim) (zero : F)).length
      = m.metadata.numAttentionHeads * m.metadata.headDim :=
  List.length_replicate

/-- The attention of a row over one layer of the arena. -/
def attendPlace (layer : ℕ) (p : Place)
    (f : BlockId × ℕ → ℕ → Bool → Except Fault (List F)) (qrow : List F) :
    Except Fault (RowVec F (m.metadata.numAttentionHeads * m.metadata.headDim)) :=
  attendOver f qrow (m.attentionArgs layer p) ⟨List.replicate _ zero, m.length_zeros⟩

/-- The physical slot of a row. -/
def slotOf (p : Place) : BlockId × ℕ := (locate p.table p.position m.blockSize).getD (⟨0⟩, 0)

/-- **What a row does at a layer**, over the arena as a store of entries. -/
def stack : LayerStack ℕ (BlockId × ℕ) (ℕ → Bool → Except Fault (List F)) Place m.Hidden where
  addr := m.slotOf
  reads p := {a | ∃ pos ≤ p.position, locate p.table pos m.blockSize = some a}
  entry layer p x v := ∃ w, m.weights.layers[layer]? = some w ∧ ∃ y,
    (m.projectRow w x p.position = .ok y ∧ m.Writable layer (m.slotOf p) y.2.1.1 y.2.2.1)
      ∧ v = m.entry y.2.1.1 y.2.2.1
  next layer p x f x' := ∃ w, m.weights.layers[layer]? = some w ∧ ∃ o,
    (∃ y, m.projectRow w x p.position = .ok y ∧ m.attendPlace layer p f y.1.1 = .ok o)
      ∧ x' = m.finishRow w x o.1
  next_congr := by
    rintro layer p x f g x' hfg ⟨w, hw, o, ⟨y, hy, ho⟩, hx'⟩
    refine ⟨w, hw, o, ⟨y, hy, ?_⟩, hx'⟩
    rw [← ho]
    exact attendOver_congr (fun pos hpos a ha => (hfg a ⟨pos, hpos, ha⟩).symm)

/-! ## The shapes a layer compares -/

/-- **The shapes that a layer compares agree.** -/
structure Checked (w : LayerWeights F) : Prop where
  hidden : m.metadata.hiddenSize ≠ 0
  inputNorm : w.inputNorm.length = m.metadata.hiddenSize
  query : w.qProj.cols = m.metadata.hiddenSize
    ∧ w.qBias.all (fun b => b.length = w.qProj.rows)
  key : w.kProj.cols = m.metadata.hiddenSize
    ∧ w.kBias.all (fun b => b.length = w.kProj.rows)
  value : w.vProj.cols = m.metadata.hiddenSize
    ∧ w.vBias.all (fun b => b.length = w.vProj.rows)
  kvHeads : m.metadata.numKvHeads ≠ 0
  output : w.oProj.cols = m.metadata.numAttentionHeads * m.metadata.headDim
  postAttnNorm : w.postAttnNorm.length = m.metadata.hiddenSize
  gate : w.gateProj.cols = m.metadata.hiddenSize
  up : w.upProj.cols = m.metadata.hiddenSize
  swiglu : w.upProj.rows = w.gateProj.rows
  down : w.downProj.cols = w.gateProj.rows

variable {m} {w : LayerWeights F} {ps : List (Place × m.Hidden)} {layer : ℕ}
  {kv kv' : KvStore F}

/-- What a row is rotated from. -/
def ropeInput (m : TransformerModel F) (w : LayerWeights F) (p : Place × m.Hidden) :
    (RowVec F w.qProj.rows × RowVec F w.kProj.rows) × ℕ :=
  let normed := rmsNormRow w.inputNorm m.metadata.rmsNormEps p.2
  ((linearRow w.qProj w.qBias normed.1, linearRow w.kProj w.kBias normed.1), p.1.position)

/-- The value of a row. -/
def valueRow (m : TransformerModel F) (w : LayerWeights F) (p : Place × m.Hidden) :
    RowVec F w.vProj.rows :=
  linearRow w.vProj w.vBias (rmsNormRow w.inputNorm m.metadata.rmsNormEps p.2).1

theorem projectRow_eq_ok_iff {p : Place × m.Hidden}
    {y : RowVec F w.qProj.rows × RowVec F w.kProj.rows × RowVec F w.vProj.rows} :
    m.projectRow w p.2 p.1.position = .ok y
      ↔ ∃ r, m.ropeRow (m.ropeInput w p) = .ok r ∧ y = (r.1, r.2, m.valueRow w p) := by
  unfold projectRow
  rw [Except.bind_eq_ok_iff]
  exact exists_congr (fun r => and_congr_right
    (fun _ => Except.pure_eq_ok_iff.trans ⟨fun h => h.symm, fun h => h.symm⟩))

/-- The projections of a batch are those of its rows. -/
theorem project_eq_ok_iff {qkv : Tensor.Matrix F × Tensor.Matrix F × Tensor.Matrix F} :
    m.project w (.ofRows (ps.map Prod.snd)) (ps.map (fun p => p.1.position)) = .ok qkv
      ↔ ((w.inputNorm.length = m.metadata.hiddenSize ∧ m.metadata.hiddenSize ≠ 0)
          ∧ (w.qProj.cols = m.metadata.hiddenSize
            ∧ w.qBias.all (fun b => b.length = w.qProj.rows))
          ∧ (w.kProj.cols = m.metadata.hiddenSize
            ∧ w.kBias.all (fun b => b.length = w.kProj.rows))
          ∧ (w.vProj.cols = m.metadata.hiddenSize
            ∧ w.vBias.all (fun b => b.length = w.vProj.rows)))
        ∧ ∃ ys, List.Forall₂ (fun p y => m.projectRow w p.2 p.1.position = .ok y) ps ys
          ∧ qkv = (.ofRows (ys.map (fun y => y.1)), .ofRows (ys.map (fun y => y.2.1)),
            .ofRows (ys.map (fun y => y.2.2))) := by
  have hinputs : ((((ps.map Prod.snd).map (rmsNormRow w.inputNorm m.metadata.rmsNormEps)).map
        (fun r => linearRow w.qProj w.qBias r.1)).zip
      (((ps.map Prod.snd).map (rmsNormRow w.inputNorm m.metadata.rmsNormEps)).map
        (fun r => linearRow w.kProj w.kBias r.1))).zip (ps.map (fun p => p.1.position))
      = ps.map (m.ropeInput w) := by
    simp only [List.map_map, List.zip_map']
    rfl
  have hvalues : ((ps.map Prod.snd).map (rmsNormRow w.inputNorm m.metadata.rmsNormEps)).map
        (fun r => linearRow w.vProj w.vBias r.1) = ps.map (m.valueRow w) := by
    rw [List.map_map, List.map_map]
    rfl
  have hys : ∀ roped : List (RowVec F w.qProj.rows × RowVec F w.kProj.rows),
      ps.length = roped.length →
      ((Tensor.Matrix.ofRows (roped.map Prod.fst), Tensor.Matrix.ofRows (roped.map Prod.snd),
          Tensor.Matrix.ofRows (ps.map (m.valueRow w)))
          : Tensor.Matrix F × Tensor.Matrix F × Tensor.Matrix F)
        = let ys := List.zipWith (fun p r => (r.1, r.2, m.valueRow w p)) ps roped
          (.ofRows (ys.map (fun y => y.1)), .ofRows (ys.map (fun y => y.2.1)),
            .ofRows (ys.map (fun y => y.2.2))) := by
    intro roped hlen
    simp only
    rw [Prod.mk.injEq, Prod.mk.injEq]
    refine ⟨congrArg _ ?_, congrArg _ ?_, congrArg _ ?_⟩
    · refine (List.map_zipWith_snd ?_ hlen).symm
      exact fun _ _ => rfl
    · refine (List.map_zipWith_snd ?_ hlen).symm
      exact fun _ _ => rfl
    · refine (List.map_zipWith_fst ?_ hlen).symm
      exact fun _ _ => rfl
  simp only [projectRow_eq_ok_iff, List.forall₂_exists_iff]
  unfold project
  constructor
  · intro h
    obtain ⟨normed, hn, h⟩ := Except.bind_eq_ok_iff.mp h
    obtain ⟨hnorm, rfl⟩ := rmsNorm_ofRows.mp hn
    obtain ⟨q, hq, h⟩ := Except.bind_eq_ok_iff.mp h
    obtain ⟨hqc, rfl⟩ := linear_ofRows.mp hq
    obtain ⟨k, hk, h⟩ := Except.bind_eq_ok_iff.mp h
    obtain ⟨hkc, rfl⟩ := linear_ofRows.mp hk
    obtain ⟨v, hv, h⟩ := Except.bind_eq_ok_iff.mp h
    obtain ⟨hvc, rfl⟩ := linear_ofRows.mp hv
    obtain ⟨roped, hroped, h⟩ := Except.bind_eq_ok_iff.mp h
    rw [Matrix.toRows_ofRows, Matrix.toRows_ofRows] at hroped
    have hroped : (ps.map (m.ropeInput w)).mapM m.ropeRow = .ok roped := hinputs ▸ hroped
    have hroped := List.forall₂_map_left_iff.mp (List.mapM_eq_ok_iff.mp hroped)
    refine ⟨⟨hnorm, hqc, hkc, hvc⟩, _, ⟨roped, hroped, rfl⟩, ?_⟩
    rw [← Except.pure_eq_ok_iff.mp h, hvalues]
    exact hys roped hroped.length_eq
  · rintro ⟨⟨hnorm, hqc, hkc, hvc⟩, _, ⟨roped, hroped, rfl⟩, rfl⟩
    refine Except.bind_eq_ok_iff.mpr ⟨_, rmsNorm_ofRows.mpr ⟨hnorm, rfl⟩, ?_⟩
    refine Except.bind_eq_ok_iff.mpr ⟨_, linear_ofRows.mpr ⟨hqc, rfl⟩, ?_⟩
    refine Except.bind_eq_ok_iff.mpr ⟨_, linear_ofRows.mpr ⟨hkc, rfl⟩, ?_⟩
    refine Except.bind_eq_ok_iff.mpr ⟨_, linear_ofRows.mpr ⟨hvc, rfl⟩, ?_⟩
    refine Except.bind_eq_ok_iff.mpr ⟨roped, ?_, ?_⟩
    · rw [Matrix.toRows_ofRows, Matrix.toRows_ofRows]
      show (List.zip (List.zip _ _) _).mapM m.ropeRow = .ok roped
      refine (congrArg (fun l => List.mapM m.ropeRow l) hinputs).trans ?_
      exact List.mapM_eq_ok_iff.mpr (List.forall₂_map_left_iff.mpr hroped)
    · rw [hvalues]
      exact Except.pure_eq_ok_iff.mpr (hys roped hroped.length_eq)

/-- The MLP block is done to each row by itself. -/
theorem mlp_rows (hfit : w.ResidualsFit m.metadata.hiddenSize) (hs : List m.Hidden) :
    (Tensor.Matrix.ofRows hs).addAssign (.ofRows ((List.zipWith (fun r s => swigluRow r s.1)
      ((hs.map (rmsNormRow w.postAttnNorm m.metadata.rmsNormEps)).map
        (fun r => linearRow w.gateProj none r.1))
      ((hs.map (rmsNormRow w.postAttnNorm m.metadata.rmsNormEps)).map
        (fun r => linearRow w.upProj none r.1))).map (fun r => linearRow w.downProj none r.1)))
      = .ofRows (hs.map (m.mlpRow w)) := by
  refine (Matrix.zipData_ofRows add hfit.mlp (by simp)).trans ?_
  rw [List.map_map, List.map_map, List.zipWith_map, List.zipWith_self, List.map_map,
    List.zipWith_map_right, List.zipWith_self]
  rfl

/-- What follows attention is done to each row by itself, where the residual
connections fit. -/
theorem finish_eq_ok_iff (hfit : w.ResidualsFit m.metadata.hiddenSize)
    {os : List (RowVec F (m.metadata.numAttentionHeads * m.metadata.headDim))}
    (hlen : ps.length = os.length) {h' : Tensor.Matrix F} :
    m.finish w (.ofRows (ps.map Prod.snd)) (.ofRows os) = .ok h'
      ↔ (w.oProj.cols = m.metadata.numAttentionHeads * m.metadata.headDim
          ∧ (w.postAttnNorm.length = m.metadata.hiddenSize ∧ m.metadata.hiddenSize ≠ 0)
          ∧ w.gateProj.cols = m.metadata.hiddenSize ∧ w.upProj.cols = m.metadata.hiddenSize
          ∧ w.upProj.rows = w.gateProj.rows ∧ w.downProj.cols = w.gateProj.rows)
        ∧ h' = .ofRows (List.zipWith (fun p o => m.finishRow w p.2 o.1) ps os) := by
  -- the rows between attention and the second residual connection
  obtain ⟨hs, hhs⟩ : ∃ hs : List m.Hidden, hs = List.zipWith (fun p o =>
    (Matrix.zipRow add p.2 (linearRow w.oProj none o.1).1 : m.Hidden)) ps os := ⟨_, rfl⟩
  have hsum : (Tensor.Matrix.ofRows (ps.map Prod.snd)).addAssign
      (.ofRows (os.map (fun r => linearRow w.oProj none r.1))) = .ofRows hs := by
    refine (Matrix.zipData_ofRows add hfit.attention (by simp [hlen])).trans ?_
    rw [List.zipWith_map, hhs]
  have hrows : List.zipWith (fun p o => m.finishRow w p.2 o.1) ps os = hs.map (m.mlpRow w) := by
    rw [hhs, List.map_zipWith]
    rfl
  rw [hrows]
  unfold finish
  constructor
  · intro h
    obtain ⟨projected, hp, h⟩ := Except.bind_eq_ok_iff.mp h
    obtain ⟨hpc, rfl⟩ := linear_ofRows.mp hp
    rw [hsum] at h
    obtain ⟨normed, hn, h⟩ := Except.bind_eq_ok_iff.mp h
    obtain ⟨hnorm, rfl⟩ := rmsNorm_ofRows.mp hn
    obtain ⟨gate, hg, h⟩ := Except.bind_eq_ok_iff.mp h
    obtain ⟨hgc, rfl⟩ := linear_ofRows.mp hg
    obtain ⟨up, hu, h⟩ := Except.bind_eq_ok_iff.mp h
    obtain ⟨huc, rfl⟩ := linear_ofRows.mp hu
    obtain ⟨act, ha, h⟩ := Except.bind_eq_ok_iff.mp h
    obtain ⟨hac, rfl⟩ := (swiglu_ofRows (by simp)).mp ha
    obtain ⟨mlpOut, ho, h⟩ := Except.bind_eq_ok_iff.mp h
    obtain ⟨hoc, rfl⟩ := linear_ofRows.mp ho
    refine ⟨⟨hpc.1, hnorm, hgc.1, huc.1, hac, hoc.1⟩, ?_⟩
    rw [← Except.pure_eq_ok_iff.mp h]
    exact mlp_rows hfit hs
  · rintro ⟨⟨hpc, hnorm, hgc, huc, hac, hoc⟩, rfl⟩
    refine Except.bind_eq_ok_iff.mpr ⟨_, linear_ofRows.mpr ⟨⟨hpc, rfl⟩, rfl⟩, ?_⟩
    rw [hsum]
    refine Except.bind_eq_ok_iff.mpr ⟨_, rmsNorm_ofRows.mpr ⟨hnorm, rfl⟩, ?_⟩
    refine Except.bind_eq_ok_iff.mpr ⟨_, linear_ofRows.mpr ⟨⟨hgc, rfl⟩, rfl⟩, ?_⟩
    refine Except.bind_eq_ok_iff.mpr ⟨_, linear_ofRows.mpr ⟨⟨huc, rfl⟩, rfl⟩, ?_⟩
    refine Except.bind_eq_ok_iff.mpr ⟨_, (swiglu_ofRows (by simp)).mpr ⟨hac, rfl⟩, ?_⟩
    refine Except.bind_eq_ok_iff.mpr ⟨_, linear_ofRows.mpr ⟨⟨hoc, rfl⟩, rfl⟩, ?_⟩
    exact Except.pure_eq_ok_iff.mpr (mlp_rows hfit hs)

/-! ## One layer -/

/-- The block tables and context lengths that a batch's rows point to. -/
def Points (blockTables : List (List BlockId)) (contextLens : List ℕ) (p : Place) (seq : ℕ) :
    Prop :=
  blockTables[seq]? = some p.table ∧ ∃ c, contextLens[seq]? = some c

theorem attendRow_eq {blockTables : List (List BlockId)} {contextLens : List ℕ} {p : Place}
    {seq : ℕ} (h : Points blockTables contextLens p seq) (qrow : List F) :
    m.attendRow layer kv blockTables contextLens qrow seq p.position
      = m.attendPlace layer p (kv.view layer) qrow := by
  obtain ⟨htable, c, hc⟩ := h
  unfold attendRow
  rw [htable, hc]
  rfl

/-- Without key/value heads there is no attention. -/
theorem kvHeads_of_attendPlace {p : Place} {f : BlockId × ℕ → ℕ → Bool → Except Fault (List F)}
    {qrow : List F} {o : RowVec F (m.metadata.numAttentionHeads * m.metadata.headDim)}
    (h : m.attendPlace layer p f qrow = .ok o) : m.metadata.numKvHeads ≠ 0 := by
  intro hzero
  unfold attendPlace attendOver at h
  split_ifs at h with h₁ h₂
  exact h₂ (Or.inl hzero)

/-- The attention of a batch is that of its rows. -/
theorem attend_eq_ok_iff {blockTables : List (List BlockId)} {contextLens seqs : List ℕ}
    (hseqs : List.Forall₂ (fun p s => Points blockTables contextLens p.1 s) ps seqs)
    {ys : List (RowVec F w.qProj.rows × RowVec F w.kProj.rows × RowVec F w.vProj.rows)}
    (hys : List.Forall₂ (fun p y => m.projectRow w p.2 p.1.position = .ok y) ps ys)
    {os : List (RowVec F (m.metadata.numAttentionHeads * m.metadata.headDim))} :
    ((ys.map (fun y => y.1)).zip (seqs.zip (ps.map (fun p => p.1.position)))).mapM (fun p =>
        m.attendRow layer kv blockTables contextLens p.1.1 p.2.1 p.2.2) = .ok os
      ↔ List.Forall₂ (fun p o => ∃ y, m.projectRow w p.2 p.1.position = .ok y
          ∧ m.attendPlace layer p.1 (kv.view layer) y.1.1 = .ok o) ps os := by
  refine List.mapM_eq_ok_iff.trans ?_
  induction hseqs generalizing ys os with
  | nil =>
    cases hys
    exact List.forall₂_nil_left_iff.trans List.forall₂_nil_left_iff.symm
  | @cons p s ps seqs hs _ ih =>
    cases hys with
    | @cons _ y _ ys hy hys =>
      show List.Forall₂ _ ((y.1, s, p.1.position) :: _) os ↔ _
      rw [List.forall₂_cons_left_iff, List.forall₂_cons_left_iff]
      refine exists_congr (fun o => exists_congr (fun os' => and_congr ?_
        (and_congr (ih hys) Iff.rfl)))
      rw [attendRow_eq hs]
      exact ⟨fun h => ⟨y, hy, h⟩, fun ⟨y', hy', h⟩ => Except.ok.inj (hy.symm.trans hy') ▸ h⟩

theorem zip_rows
    {ys : List (RowVec F w.qProj.rows × RowVec F w.kProj.rows × RowVec F w.vProj.rows)} :
    (ps.map (fun p => m.slotOf p.1)).zip
        (((Tensor.Matrix.ofRows (ys.map (fun y => y.2.1))).toRows.map Subtype.val).zip
          ((Tensor.Matrix.ofRows (ys.map (fun y => y.2.2))).toRows.map Subtype.val))
      = List.zipWith (fun p y => (m.slotOf p.1, y.2.1.1, y.2.2.1)) ps ys := by
  have hrows : ((ys.map (fun y => y.2.1)).map Subtype.val).zip
      ((ys.map (fun y => y.2.2)).map Subtype.val) = ys.map (fun y => (y.2.1.1, y.2.2.1)) := by
    rw [List.map_map, List.map_map, List.zip_map']
    rfl
  rw [Matrix.toRows_ofRows, Matrix.toRows_ofRows]
  refine (congrArg (List.zip (ps.map (fun p => m.slotOf p.1))) hrows).trans ?_
  show List.zipWith Prod.mk _ _ = _
  rw [List.zipWith_map]

/-- The rows of a layer and what they write. -/
theorem entries_iff (hw : m.weights.layers[layer]? = some w)
    {ws : List ((BlockId × ℕ) × (ℕ → Bool → Except Fault (List F)))} :
    List.Forall₂ (fun p v => v.1 = m.stack.addr p.1 ∧ m.stack.entry layer p.1 p.2 v.2) ps ws
      ↔ ∃ ys, List.Forall₂ (fun p y => m.projectRow w p.2 p.1.position = .ok y
            ∧ m.Writable layer (m.slotOf p.1) y.2.1.1 y.2.2.1) ps ys
          ∧ ws = List.zipWith (fun p y => (m.slotOf p.1, m.entry y.2.1.1 y.2.2.1)) ps ys := by
  rw [← List.forall₂_exists_iff]
  constructor
  · refine List.Forall₂.imp (fun p v hv => ?_)
    obtain ⟨haddr, w', hw', y, hy, hentry⟩ := hv
    obtain rfl : w = w' := Option.some.inj (hw.symm.trans hw')
    exact ⟨y, hy, Prod.ext haddr hentry⟩
  · refine List.Forall₂.imp (fun p v hv => ?_)
    obtain ⟨y, hy, rfl⟩ := hv
    exact ⟨rfl, w, hw, y, hy, rfl⟩

/-- The rows of a layer and what becomes of them. -/
theorem nexts_iff (hw : m.weights.layers[layer]? = some w) {qs : List (Place × m.Hidden)}
    {f : BlockId × ℕ → ℕ → Bool → Except Fault (List F)} :
    List.Forall₂ (fun p q => q.1 = p.1 ∧ m.stack.next layer p.1 p.2 f q.2) ps qs
      ↔ ∃ os, List.Forall₂ (fun p o => ∃ y, m.projectRow w p.2 p.1.position = .ok y
            ∧ m.attendPlace layer p.1 f y.1.1 = .ok o) ps os
          ∧ qs = List.zipWith (fun p o => (p.1, m.finishRow w p.2 o.1)) ps os := by
  rw [← List.forall₂_exists_iff]
  constructor
  · refine List.Forall₂.imp (fun p q hq => ?_)
    obtain ⟨hrow, w', hw', o, ho, hnext⟩ := hq
    obtain rfl : w = w' := Option.some.inj (hw.symm.trans hw')
    exact ⟨o, ho, Prod.ext hrow hnext⟩
  · refine List.Forall₂.imp (fun p q hq => ?_)
    obtain ⟨o, ho, rfl⟩ := hq
    exact ⟨rfl, w, hw, o, ho, rfl⟩

/-- **A layer over a batch is a layer over the arena**: it succeeds exactly
when the shapes agree and every row goes through it. -/
theorem layerForward_eq_ok_iff (hw : m.weights.layers[layer]? = some w)
    (hfit : w.ResidualsFit m.metadata.hiddenSize) (hkv : kv.toKvShape = m.kv.toKvShape)
    (hps : ps ≠ []) {blockTables : List (List BlockId)} {contextLens seqs : List ℕ}
    (hseqs : List.Forall₂ (fun p s => Points blockTables contextLens p.1 s) ps seqs)
    {h' : Tensor.Matrix F} :
    m.layerForward layer (.ofRows (ps.map Prod.snd)) (ps.map (fun p => p.1.position))
        (ps.map (fun p => m.slotOf p.1)) seqs blockTables contextLens kv = (kv', .ok h')
      ↔ m.Checked w ∧ ∃ qs, h' = .ofRows (qs.map Prod.snd) ∧ kv'.toKvShape = m.kv.toKvShape
        ∧ m.stack.Layer layer kv.view ps kv'.view qs := by
  have hentries : ∀ ys : List (RowVec F w.qProj.rows × RowVec F w.kProj.rows
      × RowVec F w.vProj.rows),
      (List.zipWith (fun p y => (m.slotOf p.1, y.2.1.1, y.2.2.1)) ps ys).map
          (fun r => (r.1, m.entry r.2.1 r.2.2))
        = List.zipWith (fun p y => (m.slotOf p.1, m.entry y.2.1.1 y.2.2.1)) ps ys :=
    fun ys => List.map_zipWith
  have hstates : ∀ os : List (RowVec F (m.metadata.numAttentionHeads * m.metadata.headDim)),
      (List.zipWith (fun p o => (p.1, m.finishRow w p.2 o.1)) ps os).map Prod.snd
        = List.zipWith (fun p o => m.finishRow w p.2 o.1) ps os := fun os => List.map_zipWith
  unfold layerForward
  rw [hw]
  simp only
  constructor
  · intro h
    rcases hproj : m.project w (.ofRows (ps.map Prod.snd)) (ps.map (fun p => p.1.position))
      with e | ⟨q, k, v⟩
    · rw [hproj] at h
      exact absurd (congrArg Prod.snd h) (by simp)
    rw [hproj] at h
    obtain ⟨⟨⟨hnorm, hne⟩, hq, hk, hv⟩, ys, hys, hqkv⟩ := project_eq_ok_iff.mp hproj
    obtain ⟨rfl, hkv₂⟩ := Prod.mk.inj hqkv
    obtain ⟨rfl, rfl⟩ := Prod.mk.inj hkv₂
    obtain ⟨kv₁, ⟨⟩, hwrites, hrest⟩ := Attempt.andThen_eq_ok_iff.mp h
    obtain rfl : kv₁ = kv' := congrArg Prod.fst hrest
    obtain ⟨os, hos, hfinish⟩ := Except.bind_eq_ok_iff.mp (congrArg Prod.snd hrest)
    rw [Matrix.toRows_ofRows] at hos
    rw [zip_rows] at hwrites
    have hos := (attend_eq_ok_iff hseqs hys).mp hos
    have hheads : m.metadata.numKvHeads ≠ 0 := by
      cases hos with
      | nil => exact absurd rfl hps
      | cons ho _ =>
        obtain ⟨y, -, ho⟩ := ho
        exact kvHeads_of_attendPlace ho
    obtain ⟨⟨ho, ⟨hpost, -⟩, hg, hu, hs, hd⟩, rfl⟩ :=
      (finish_eq_ok_iff hfit hos.length_eq).mp hfinish
    obtain ⟨hwritable, hkv', hview⟩ := (writeRows_eq_ok_iff hkv hheads).mp hwrites
    have hwritable := (List.forall_mem_zipWith_iff hys.length_eq).mp hwritable
    refine ⟨⟨hne, hnorm, hq, hk, hv, hheads, ho, hpost, hg, hu, hs, hd⟩, _,
      congrArg _ (hstates os).symm, hkv', _, (entries_iff hw).mpr ⟨ys, ?_, rfl⟩, ?_,
      (nexts_iff hw).mpr ⟨os, hos, rfl⟩⟩
    · exact List.forall₂_iff_zip.mpr ⟨hys.length_eq, fun hpy =>
        ⟨(List.forall₂_iff_zip.mp hys).2 hpy, (List.forall₂_iff_zip.mp hwritable).2 hpy⟩⟩
    · rw [hview, hentries]
  · rintro ⟨hc, qs, rfl, hkv', ws, hws, hview, hnext⟩
    obtain ⟨ys, hys, rfl⟩ := (entries_iff hw).mp hws
    obtain ⟨os, hos, rfl⟩ := (nexts_iff hw).mp hnext
    have hproj := project_eq_ok_iff.mpr ⟨⟨⟨hc.inputNorm, hc.hidden⟩, hc.query, hc.key, hc.value⟩,
      ys, hys.imp (fun _ _ h => h.1), rfl⟩
    rw [hproj]
    refine Attempt.andThen_eq_ok_iff.mpr ⟨kv', (), ?_, Prod.ext rfl ?_⟩
    · rw [zip_rows]
      refine (writeRows_eq_ok_iff hkv hc.kvHeads).mpr ⟨?_, hkv', ?_⟩
      · exact (List.forall_mem_zipWith_iff hys.length_eq).mpr (hys.imp (fun _ _ h => h.2))
      · rw [hview, hentries]
    · refine Except.bind_eq_ok_iff.mpr ⟨os, ?_, ?_⟩
      · rw [Matrix.toRows_ofRows]
        exact (attend_eq_ok_iff hseqs (hys.imp (fun _ _ h => h.1))).mpr hos
      · refine (finish_eq_ok_iff hfit hos.length_eq).mpr ⟨⟨hc.output,
          ⟨hc.postAttnNorm, hc.hidden⟩, hc.gate, hc.up, hc.swiglu, hc.down⟩, ?_⟩
        rw [hstates]

/-- What a layer leaves is what an arena holds. -/
theorem exists_view_of_layer (hkv : kv.toKvShape = m.kv.toKvShape)
    {t : ℕ → BlockId × ℕ → ℕ → Bool → Except Fault (List F)} {qs : List (Place × m.Hidden)}
    (hw : m.weights.layers[layer]? = some w) (h : m.stack.Layer layer kv.view ps t qs) :
    ∃ kv' : KvStore F, kv'.toKvShape = m.kv.toKvShape ∧ kv'.view = t := by
  obtain ⟨ws, hws, rfl, -⟩ := h
  obtain ⟨ys, hys, rfl⟩ := (entries_iff hw).mp hws
  have hrows : ∀ r ∈ List.zipWith (fun p y => (m.slotOf p.1, y.2.1.1, y.2.2.1)) ps ys,
      m.Writable layer r.1 r.2.1 r.2.2 :=
    (List.forall_mem_zipWith_iff hys.length_eq).mpr (hys.imp (fun _ _ h => h.2))
  obtain ⟨kv', -, hkv', hview⟩ := exists_writeRows hkv hrows
  refine ⟨kv', hkv', ?_⟩
  rw [hview, List.map_zipWith]

/-! ## All layers -/

variable (m) in
/-- The layers that a pass goes through have weights of the shapes it compares. -/
def AllChecked (layers : List ℕ) : Prop :=
  ∀ layer ∈ layers, ∃ w, m.weights.layers[layer]? = some w ∧ m.Checked w

variable (m) in
/-- **Every residual connection fits.** The source adds the shorter row to the longer
one without a word, so a weight of the wrong shape would mix up the rows of a
batch. Loading checks the shapes; `TransformerModel::new` on its own does not. -/
def ResidualsFit : Prop := ∀ w ∈ m.weights.layers, w.ResidualsFit m.metadata.hiddenSize

/-- The rows of a batch, for the layers. -/
structure Rows (m : TransformerModel F) (batch : ForwardBatch) (slots : List (BlockId × ℕ))
    (places : List Place) : Prop where
  positions : batch.positions = places.map Place.position
  slots : slots = places.map m.slotOf
  points : List.Forall₂ (Points batch.blockTables batch.contextLens) places batch.seqOfRow
  nonempty : places ≠ []

/-- **All layers over a batch are a pass over the arena.** -/
theorem layersForward_eq_ok_iff (hfit : m.ResidualsFit) {batch : ForwardBatch}
    {slots : List (BlockId × ℕ)} {places : List Place} (hrows : m.Rows batch slots places)
    (hkv : kv.toKvShape = m.kv.toKvShape) (hps : ps.map Prod.fst = places) {layers : List ℕ}
    {h' : Tensor.Matrix F} :
    m.layersForward batch slots layers (.ofRows (ps.map Prod.snd)) kv = (kv', .ok h')
      ↔ m.AllChecked layers ∧ ∃ qs, h' = .ofRows (qs.map Prod.snd)
        ∧ kv'.toKvShape = m.kv.toKvShape ∧ m.stack.Run layers kv.view ps kv'.view qs := by
  induction layers generalizing ps kv with
  | nil =>
    constructor
    · intro h
      obtain rfl : kv = kv' := congrArg Prod.fst h
      exact ⟨fun _ hl => absurd hl List.not_mem_nil, ps,
        (Except.ok.inj (congrArg Prod.snd h)).symm, hkv, .nil _ _⟩
    · rintro ⟨-, qs, rfl, hkv', hrun⟩
      obtain ⟨hview, rfl⟩ : kv.view = kv'.view ∧ ps = qs := by
        generalize kv'.view = t at hrun
        cases hrun
        exact ⟨rfl, rfl⟩
      rw [KvStore.ext_of_view (hkv.trans hkv'.symm) hview]
      rfl
  | cons layer layers ih =>
    have hpos : batch.positions = ps.map (fun p => p.1.position) := by
      rw [hrows.positions, ← hps, List.map_map]
      rfl
    have hslots : slots = ps.map (fun p => m.slotOf p.1) := by
      rw [hrows.slots, ← hps, List.map_map]
      rfl
    have hpoints : List.Forall₂ (fun p s => Points batch.blockTables batch.contextLens p.1 s)
        ps batch.seqOfRow := by
      have hp := hrows.points
      rwa [← hps, List.forall₂_map_left_iff] at hp
    have hne : ps ≠ [] := by
      rintro rfl
      exact hrows.nonempty hps.symm
    rw [layersForward, Attempt.andThen_eq_ok_iff]
    constructor
    · rintro ⟨kv₁, hidden, hfirst, hrest⟩
      have hlayer : ∃ w, m.weights.layers[layer]? = some w := by
        rcases hw : m.weights.layers[layer]? with - | w
        · unfold layerForward at hfirst
          rw [hw] at hfirst
          exact absurd (congrArg Prod.snd hfirst) (by simp)
        · exact ⟨w, rfl⟩
      obtain ⟨w, hw⟩ := hlayer
      rw [hpos, hslots] at hfirst
      obtain ⟨hc, qs, rfl, hkv₁, hl⟩ := (layerForward_eq_ok_iff hw
        (hfit w (List.mem_of_getElem? hw)) hkv hne hpoints).mp hfirst
      obtain ⟨hcs, rs, hh', hkv', hrun⟩ := (ih hkv₁ (hl.map_fst.trans hps)).mp hrest
      exact ⟨List.forall_mem_cons.mpr ⟨⟨w, hw, hc⟩, hcs⟩, rs, hh', hkv', .cons hl hrun⟩
    · rintro ⟨hcs, rs, hh', hkv', hrun⟩
      obtain ⟨⟨w, hw, hc⟩, hcs⟩ := List.forall_mem_cons.mp hcs
      cases hrun with
      | @cons _ _ _ t _ _ qs _ hl hrun =>
        obtain ⟨kv₁, hkv₁, rfl⟩ := exists_view_of_layer hkv hw hl
        refine ⟨kv₁, .ofRows (qs.map Prod.snd), ?_, ?_⟩
        · rw [hpos, hslots]
          exact (layerForward_eq_ok_iff hw (hfit w (List.mem_of_getElem? hw)) hkv hne
            hpoints).mpr ⟨hc, qs, rfl, hkv₁, hl⟩
        · exact (ih hkv₁ (hl.map_fst.trans hps)).mpr ⟨hcs, rs, hh', hkv', hrun⟩

end TransformerModel
