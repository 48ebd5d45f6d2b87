import OrionServe.Attention
import OrionServe.Engine
import OrionServe.ModelMetadata

/-!
# The transformer forward pass

A batch goes through the model row by row of the flat token list. At each
layer, the keys and values of all rows of all sequences are written to the
arena, row after row, before any row attends; everything else a row goes
through it goes through by itself. At the end only the last row of each
sequence gets logits.

The source keeps the arena behind a mutex and mutates it through `&self`; here
a forward pass returns the model with the arena as it leaves it. A panic ends
the run, so that the branch of a poisoned mutex is never taken and is not
modelled.

`TransformerModel::new` takes any weights. Most shapes that do not fit make a
forward pass fail, but not all: the residual connections add flat data
without comparing shapes. `ModelWeights::load` is what checks them.
-/

open Tensor Scalars

/-- Weights for one transformer block. -/
structure LayerWeights (F : Type*) where
  inputNorm : List F
  qProj : Tensor.Matrix F
  kProj : Tensor.Matrix F
  vProj : Tensor.Matrix F
  oProj : Tensor.Matrix F
  qBias : Option (List F)
  kBias : Option (List F)
  vBias : Option (List F)
  postAttnNorm : List F
  gateProj : Tensor.Matrix F
  upProj : Tensor.Matrix F
  downProj : Tensor.Matrix F

/-- All weights of a loaded model. -/
structure ModelWeights (F : Type*) where
  embedTokens : Tensor.Matrix F
  layers : List (LayerWeights F)
  finalNorm : List F
  /-- `none` when the LM head is tied to the embedding matrix. -/
  lmHead : Option (Tensor.Matrix F)

/-- A decoder-only transformer, with the arena allocated for it. -/
structure TransformerModel (F : Type*) where
  metadata : ModelMetadata F
  weights : ModelWeights F
  rope : RopeTable F
  kv : KvStore F
  blockSize : ℕ
  fits : kv.toKvShape = ⟨metadata.numLayers, kv.numBlocks, blockSize, metadata.numKvHeads,
    metadata.headDim⟩

namespace TransformerModel

variable {F D : Type*} [Scalars F D] {n : ℕ}

/-- Assembles a model from loaded weights. The source reports the error as
`ModelError::Malformed` of `config.json`. -/
def new (metadata : ModelMetadata F) (weights : ModelWeights F) (numBlocks blockSize : ℕ) :
    Except Fault (TransformerModel F) := do
  let rope ← RopeTable.new metadata.headDim metadata.maxPositionEmbeddings metadata.ropeTheta
  return {
    metadata, weights, rope, blockSize
    kv := .new ⟨metadata.numLayers, numBlocks, blockSize, metadata.numKvHeads, metadata.headDim⟩
    fits := rfl }

/-! ## One layer -/

/-- Copies a row into one of `hidden_size` scalars. -/
def copyRow (m : TransformerModel F) (r : List F) :
    Except Fault (RowVec F m.metadata.hiddenSize) :=
  if h : r.length = m.metadata.hiddenSize then .ok ⟨r, h⟩ else .error .panicked

/-- The embedding row of a token. -/
def embedRow (m : TransformerModel F) (tok : TokenId) :
    Except Fault (RowVec F m.metadata.hiddenSize) :=
  (m.weights.embedTokens.row tok.toNat).elim
    (.error (.internal ["token id ", .nat tok.toNat, " is outside the vocabulary of ",
      .nat m.metadata.vocabSize]))
    (fun r => m.copyRow r.1)

/-- Looks up the embedding rows for a batch of token ids. -/
def embed (m : TransformerModel F) (tokens : List TokenId) : Except Fault (Tensor.Matrix F) :=
  (tokens.mapM m.embedRow).map Tensor.Matrix.ofRows

/-- Rotates the head vectors of a row. -/
def ropeHeads (heads headDim : ℕ) (cos sin : List F) (row : RowVec F n) :
    Except Fault (RowVec F n) :=
  (List.range heads).foldlM (fun r h =>
    if n < (h + 1) * headDim then .error .panicked
    else do
      let seg ← applyRope (r.1.slice (h * headDim) headDim) cos sin
      return ⟨r.1.patch (h * headDim) seg, by rw [List.length_patch, r.2]⟩) row

/-- Rotary embedding of the query and the key of a row, for its position. -/
def ropeRow (m : TransformerModel F) {a b : ℕ} (p : (RowVec F a × RowVec F b) × ℕ) :
    Except Fault (RowVec F a × RowVec F b) :=
  match m.rope.atPosition p.2 with
  | none => .error (.internal ["position ", .nat p.2, " exceeds the RoPE table (",
      .nat m.rope.maxPositions, " entries)"])
  | some (cos, sin) => do
    let q ← ropeHeads m.metadata.numAttentionHeads m.metadata.headDim cos sin p.1.1
    let k ← ropeHeads m.metadata.numKvHeads m.metadata.headDim cos sin p.1.2
    return (q, k)

/-- The queries, keys and values of the rows. -/
def project (m : TransformerModel F) (w : LayerWeights F) (hidden : Tensor.Matrix F)
    (positions : List ℕ) :
    Except Fault (Tensor.Matrix F × Tensor.Matrix F × Tensor.Matrix F) := do
  let normed ← rmsNorm hidden w.inputNorm m.metadata.rmsNormEps
  let q ← linear normed w.qProj w.qBias
  let k ← linear normed w.kProj w.kBias
  let v ← linear normed w.vProj w.vBias
  let roped ← ((q.toRows.zip k.toRows).zip positions).mapM m.ropeRow
  return (.ofRows (roped.map Prod.fst), .ofRows (roped.map Prod.snd), v)

/-- Writes one head of a row's key and value. -/
def writeHead (m : TransformerModel F) (layer : ℕ) (a : BlockId × ℕ) (krow vrow : List F)
    (kv : KvStore F) (h : ℕ) : KvStore F × Except Fault Unit :=
  let hd := m.metadata.headDim
  if krow.length < (h + 1) * hd then (kv, .error .panicked)
  else
    Attempt.andThen (kv.write layer a.1 a.2 h false (krow.slice (h * hd) hd)) (fun kv _ =>
      if vrow.length < (h + 1) * hd then (kv, .error .panicked)
      else kv.write layer a.1 a.2 h true (vrow.slice (h * hd) hd))

/-- Writes a row's key and value at its slot. -/
def writeRow (m : TransformerModel F) (layer : ℕ) (kv : KvStore F)
    (r : (BlockId × ℕ) × List F × List F) : KvStore F × Except Fault Unit :=
  Attempt.forEach (m.writeHead layer r.1 r.2.1 r.2.2) kv (List.range m.metadata.numKvHeads)

/-- Attention of one row: `seq` is the sequence it belongs to. -/
def attendRow (m : TransformerModel F) (layer : ℕ) (kv : KvStore F)
    (blockTables : List (List BlockId)) (contextLens : List ℕ) (qrow : List F) (seq pos : ℕ) :
    Except Fault (RowVec F (m.metadata.numAttentionHeads * m.metadata.headDim)) :=
  match blockTables[seq]?, contextLens[seq]? with
  | some blockTable, some contextLen =>
    pagedAttention kv qrow {
      blockTable, contextLen, layer
      queryPosition := pos
      numQueryHeads := m.metadata.numAttentionHeads
      numKvHeads := m.metadata.numKvHeads
      headDim := m.metadata.headDim
      blockSize := m.blockSize } ⟨List.replicate _ zero, List.length_replicate⟩
  | _, _ => .error .panicked

/-- What follows attention: the residual connection and the MLP block. -/
def finish (m : TransformerModel F) (w : LayerWeights F) (hidden attnOut : Tensor.Matrix F) :
    Except Fault (Tensor.Matrix F) := do
  let projected ← linear attnOut w.oProj none
  let hidden := hidden.addAssign projected
  let normed ← rmsNorm hidden w.postAttnNorm m.metadata.rmsNormEps
  let gate ← linear normed w.gateProj none
  let up ← linear normed w.upProj none
  let gate ← swiglu gate up
  let mlpOut ← linear gate w.downProj none
  return hidden.addAssign mlpOut

/-- Runs one transformer block over the batch. -/
def layerForward (m : TransformerModel F) (layer : ℕ) (hidden : Tensor.Matrix F)
    (positions : List ℕ) (slots : List (BlockId × ℕ)) (seqOfRow : List ℕ)
    (blockTables : List (List BlockId)) (contextLens : List ℕ) (kv : KvStore F) :
    KvStore F × Except Fault (Tensor.Matrix F) :=
  match m.weights.layers[layer]? with
  | none => (kv, .error .panicked)
  | some w =>
    match m.project w hidden positions with
    | .error e => (kv, .error e)
    | .ok (q, k, v) =>
      let rows := (k.toRows.map Subtype.val).zip (v.toRows.map Subtype.val)
      Attempt.andThen (Attempt.forEach (m.writeRow layer) kv (slots.zip rows)) (fun kv _ =>
        (kv, do
          let attn ← (q.toRows.zip (seqOfRow.zip positions)).mapM (fun p =>
            m.attendRow layer kv blockTables contextLens p.1.1 p.2.1 p.2.2)
          m.finish w hidden (.ofRows attn)))

/-! ## The whole pass -/

/-- The physical slot each row's entry goes to. -/
def slots (m : TransformerModel F) (batch : ForwardBatch) : Except Fault (List (BlockId × ℕ)) :=
  (batch.positions.zip batch.seqOfRow).mapM (fun p =>
    match batch.blockTables[p.2]? with
    | none => .error .panicked
    | some table =>
      match locate table p.1 m.blockSize with
      | none => .error (.internal ["position ", .nat p.1,
          " has no block in the table for sequence ", .nat p.2])
      | some a => .ok a)

/-- The layers one after the other. -/
def layersForward (m : TransformerModel F) (batch : ForwardBatch) (slots : List (BlockId × ℕ)) :
    List ℕ → Tensor.Matrix F → KvStore F → KvStore F × Except Fault (Tensor.Matrix F)
  | [], hidden, kv => (kv, .ok hidden)
  | layer :: layers, hidden, kv =>
    Attempt.andThen (m.layerForward layer hidden batch.positions slots batch.seqOfRow
      batch.blockTables batch.contextLens kv) (fun kv hidden =>
        m.layersForward batch slots layers hidden kv)

/-- The last row of each sequence, the first one starting at `cursor`. -/
def lastRows : ℕ → List ℕ → Except Fault (List ℕ)
  | _, [] => .ok []
  | cursor, count :: counts =>
    if count = 0 then .error (.internal ["a scheduled sequence contributed zero tokens"])
    else do
      let rest ← lastRows (cursor + count) counts
      return (cursor + count - 1) :: rest

/-- The LM head, which may be the embedding matrix. -/
def head (m : TransformerModel F) : Tensor.Matrix F :=
  m.weights.lmHead.getD m.weights.embedTokens

/-- A row of the hidden states, copied. -/
def tailRow (m : TransformerModel F) (hidden : Tensor.Matrix F) (row : ℕ) :
    Except Fault (RowVec F m.metadata.hiddenSize) :=
  match hidden.row row with
  | none => .error (.internal ["row ", .nat row, " missing from hidden states"])
  | some r => m.copyRow r.1

/-- The logits of the last row of each sequence. -/
def logits (m : TransformerModel F) (counts : List ℕ) (hidden : Tensor.Matrix F) :
    Except Fault (List F) := do
  let hidden ← rmsNorm hidden m.weights.finalNorm m.metadata.rmsNormEps
  match lastRows 0 counts with
  | .error e => .error e
  | .ok last => do
    let tail ← last.mapM (m.tailRow hidden)
    let logits ← linear (.ofRows tail) m.head none
    return logits.data

/-- A forward pass over an arena. -/
def forwardOn (m : TransformerModel F) (batch : ForwardBatch) (kv : KvStore F) :
    KvStore F × Except Fault (ForwardOutput F) :=
  match batch.validate with
  | .error e => (kv, .error (.error e))
  | .ok () =>
    if batch.isEmpty then (kv, .ok ⟨[], m.metadata.vocabSize, []⟩)
    else
      match m.slots batch with
      | .error e => (kv, .error e)
      | .ok slots =>
        match m.embed batch.tokens with
        | .error e => (kv, .error e)
        | .ok hidden =>
          Attempt.andThen
            (m.layersForward batch slots (List.range m.metadata.numLayers) hidden kv)
            (fun kv hidden => (kv, do
              let logits ← m.logits batch.slotTokenCounts hidden
              return ⟨logits, m.metadata.vocabSize, batch.sequenceIds⟩))

/-! ## The arena keeps its dimensions -/

section Shape

variable (m : TransformerModel F) {k : KvShape}

theorem shape_writeHead {kv : KvStore F} (hkv : kv.toKvShape = k) (layer : ℕ)
    (a : BlockId × ℕ) (krow vrow : List F) (head : ℕ) :
    (m.writeHead layer a krow vrow kv head).1.toKvShape = k := by
  simp only [writeHead]
  split
  · exact hkv
  refine Attempt.andThen_invariant (P := fun kv : KvStore F => kv.toKvShape = k)
    (KvStore.shape_write.trans hkv) (fun kv _ hkv => ?_)
  show (ite _ _ _ : KvStore F × Except Fault Unit).1.toKvShape = k
  split
  · exact hkv
  · exact KvStore.shape_write.trans hkv

theorem shape_writeRow {kv : KvStore F} (h : kv.toKvShape = k) (layer : ℕ)
    (r : (BlockId × ℕ) × List F × List F) : (m.writeRow layer kv r).1.toKvShape = k :=
  Attempt.forEach_invariant (P := fun kv : KvStore F => kv.toKvShape = k)
    (fun _ head hkv => m.shape_writeHead hkv layer _ _ _ head) h _

theorem shape_layerForward {kv : KvStore F} (h : kv.toKvShape = k) (layer : ℕ)
    (hidden : Tensor.Matrix F) (positions : List ℕ) (slots : List (BlockId × ℕ))
    (seqOfRow : List ℕ) (blockTables : List (List BlockId)) (contextLens : List ℕ) :
    (m.layerForward layer hidden positions slots seqOfRow blockTables contextLens kv).1.toKvShape
      = k := by
  unfold layerForward
  split
  · exact h
  split
  · exact h
  exact Attempt.andThen_invariant (P := fun kv : KvStore F => kv.toKvShape = k)
    (Attempt.forEach_invariant (P := fun kv : KvStore F => kv.toKvShape = k)
      (fun kv r hkv => m.shape_writeRow hkv layer r) h _) (fun _ _ hkv => hkv)

theorem shape_layersForward {kv : KvStore F} (h : kv.toKvShape = k) (batch : ForwardBatch)
    (slots : List (BlockId × ℕ)) (layers : List ℕ) (hidden : Tensor.Matrix F) :
    (m.layersForward batch slots layers hidden kv).1.toKvShape = k := by
  induction layers generalizing hidden kv with
  | nil => exact h
  | cons layer layers ih =>
    exact Attempt.andThen_invariant (P := fun kv : KvStore F => kv.toKvShape = k)
      (m.shape_layerForward h layer hidden _ slots _ _ _) (fun _ hidden hkv => ih hkv hidden)

theorem shape_forwardOn (batch : ForwardBatch) (kv : KvStore F) :
    (m.forwardOn batch kv).1.toKvShape = kv.toKvShape := by
  unfold forwardOn
  split
  · rfl
  split
  · rfl
  split
  · rfl
  split
  · rfl
  exact Attempt.andThen_invariant (P := fun kv' : KvStore F => kv'.toKvShape = kv.toKvShape)
    (m.shape_layersForward rfl batch _ _ _) (fun _ _ hkv => hkv)

end Shape

/-- **Runs one forward pass over a ragged batch.** -/
def forward (m : TransformerModel F) (batch : ForwardBatch) :
    TransformerModel F × Except Fault (ForwardOutput F) :=
  ({ m with
      kv := (m.forwardOn batch m.kv).1
      fits := by
        have hshape := m.shape_forwardOn batch m.kv
        rw [hshape, m.fits] },
    (m.forwardOn batch m.kv).2)

end TransformerModel
