import OrionServe.ForwardReturns
import OrionServe.KvArena

/-!
# A loaded model answers

`HfConfig::to_metadata`, `ModelWeights::load` and `TransformerModel::new` fix
the shapes of a model, and a forward pass consumes them in some ten kernels.
They fit for every configuration that is accepted, with any head dimension,
grouped heads, tied heads or biases, but for two kinds that loading lets
through: a hidden size of zero with a head dimension of its own
(`forward_hidden_zero`), and heads whose width wraps around.

How many scalars there are in the arena and in the matrices of a pass is
counted in words as well; here the counts are those that fit
(`ForwardBatch.FitsWords`).
-/

open Tensor Scalars

namespace ForwardBatch

variable {F : Type*} (b : ForwardBatch) (metadata : ModelMetadata F) (ffn numBlocks blockSize : ℕ)

/-- **No count wraps around**: a word counts the tokens of the slots, the
scalars of the arena, and those of each matrix of a pass over the batch. Of
what is larger the source counts, and allocates, the remainder only. -/
structure FitsWords : Prop where
  counts : b.slotTokenCounts.sum < 2 ^ 64
  arena : (KvShape.mk metadata.numLayers numBlocks blockSize metadata.numKvHeads
    metadata.headDim).size < 2 ^ 64
  matrices : ∀ width ∈ [metadata.hiddenSize, metadata.qDim, metadata.kvDim, ffn,
    metadata.vocabSize], b.tokens.length * width < 2 ^ 64

/-- A batch that the model can run, in memory that words count. -/
structure Runnable : Prop where
  shaped : b.WellShaped metadata numBlocks blockSize
  words : b.FitsWords metadata ffn numBlocks blockSize

end ForwardBatch

/-- Each slot has its row. -/
theorem ForwardOutput.Answers.length_row {F : Type*} {out : ForwardOutput F} {b : ForwardBatch}
    {vocabSize : ℕ} (h : out.Answers b vocabSize) {i : ℕ} (hi : i < b.numSequences) :
    (out.row i).map List.length = some vocabSize := by
  have hroom : i * vocabSize + vocabSize ≤ out.logits.length := by
    rw [h.logits, ← Nat.succ_mul]
    exact Nat.mul_le_mul_right _ hi
  unfold row
  rw [h.width, if_pos hroom, Option.map_some, List.length_take, List.length_drop,
    min_eq_left (by omega)]

namespace TransformerModel

section Ran

variable {F D : Type*} [Scalars F D] (m : TransformerModel F)

/-- **The model after some forward passes**, none of which panicked: a panic
poisons the mutex of the arena. A pass that returned an error is one of them, and
may have written some of its layers. -/
inductive Ran : TransformerModel F → Prop
  | start : Ran m
  | pass {m' : TransformerModel F} (b : ForwardBatch) (h : Ran m')
      (hb : (m'.forward b).2 ≠ .error .panicked) : Ran (m'.forward b).1

variable {m}

/-- Forward passes change what the arena holds, and nothing else. -/
theorem Ran.frame {m' : TransformerModel F} (h : m.Ran m') :
    m'.metadata = m.metadata ∧ m'.weights = m.weights ∧ m'.rope = m.rope
      ∧ m'.blockSize = m.blockSize ∧ m'.kv.toKvShape = m.kv.toKvShape := by
  induction h with
  | start => exact ⟨rfl, rfl, rfl, rfl, rfl⟩
  | @pass m' b _ _ ih => exact ⟨ih.1, ih.2.1, ih.2.2.1, ih.2.2.2.1,
      (m'.shape_forwardOn b m'.kv).trans ih.2.2.2.2⟩

end Ran

section Loaded

variable {F : Type} {D : Type*} [Scalars F D] {r : ByteReader F} {loader : CheckpointLoader}
  {config : HfConfig F} {name : String} {arch : Architecture} {metadata : ModelMetadata F}
  {weights : ModelWeights F} {numBlocks blockSize : ℕ} {m m' : TransformerModel F}
  {batch : ForwardBatch}

/-- A model that is loaded has the shapes that loading makes sure of, and keeps
them. -/
theorem built_of_new (hmetadata : config.toMetadata name = .ok metadata)
    (hweights : ModelWeights.load r loader config metadata arch = .ok weights)
    (hnew : TransformerModel.new metadata weights numBlocks blockSize = .ok m) (h : m.Ran m') :
    m'.Built config.ffnDim ∧ m'.metadata = metadata ∧ m'.kv.numBlocks = numBlocks
      ∧ m'.blockSize = blockSize := by
  obtain ⟨rope, hrope, hm⟩ := Except.bind_eq_ok_iff.mp hnew
  obtain rfl := Except.pure_eq_ok_iff.mp hm
  obtain ⟨hmeta, hw, ht, hbs, hkv⟩ := h.frame
  refine ⟨⟨?_, ?_, ?_⟩, hmeta, congrArg KvShape.numBlocks hkv, hbs⟩
  · exact hmeta ▸ (HfConfig.toMetadata_eq_ok hmetadata).1
  · rw [hmeta, hw]
    exact ModelWeights.shaped_load hweights
  · rw [hmeta, ht]
    exact hrope

/-- **When a loaded model answers.** A batch that it can run gets a row of
logits for each slot exactly when it is empty, or the model's hidden size is
not zero and the width of its heads fits in a word. These two nothing checks when
the model is loaded; all that a pass checks besides, loading has seen to. -/
theorem forward_answers_iff (hmetadata : config.toMetadata name = .ok metadata)
    (hweights : ModelWeights.load r loader config metadata arch = .ok weights)
    (hnew : TransformerModel.new metadata weights numBlocks blockSize = .ok m) (hran : m.Ran m')
    (h : batch.Runnable metadata config.ffnDim numBlocks blockSize) :
    (∃ out, (m'.forward batch).2 = .ok out ∧ out.Answers batch metadata.vocabSize
        ∧ ∀ i < batch.numSequences, (out.row i).map List.length = some metadata.vocabSize)
      ↔ batch.tokens = [] ∨ metadata.hiddenSize ≠ 0
        ∧ metadata.numAttentionHeads * metadata.headDim < 2 ^ 64 := by
  obtain ⟨hb, rfl, rfl, rfl⟩ := built_of_new hmetadata hweights hnew hran
  have hanswers := forwardOn_answers_iff hb h.shaped rfl
  constructor
  · rintro ⟨out, hout, hans, -⟩
    exact (hanswers.mp ⟨out, hout, hans⟩).imp_right (fun hs => ⟨hs.hidden, hs.query⟩)
  · intro hsizes
    obtain ⟨out, hout, hans⟩ := hanswers.mpr (hsizes.imp_right (fun hs => ⟨hs.1, hs.2⟩))
    exact ⟨out, hout, hans, fun i hi => hans.length_row hi⟩

end Loaded

end TransformerModel

/-! ## A checkpoint of zeros -/

deriving instance DecidableEq for EosField, ModelMetadata, Tensor.Matrix, LayerWeights,
  ModelWeights

namespace ZeroCheckpoint

/-- A tensor of zeros. -/
def zeros (shape : List ℕ) : TensorView where
  dtype := .f32
  shape := shape
  data := List.replicate (shape.prod * 4) 0
  sized n hn := by
    obtain rfl := Option.some.inj hn
    exact List.length_replicate

/-- Zero bytes are the number zero. -/
def reader : ByteReader ℚ := ⟨fun _ _ _ _ => 0, fun _ _ => 0, fun _ _ => 0⟩

/-- One layer of one head, its tensors by name; the head is tied. -/
def tensors (vocab hidden head ffn : ℕ) : List (String × List ℕ) := [
  ("model.embed_tokens.weight", [vocab, hidden]),
  ("model.layers.0.input_layernorm.weight", [hidden]),
  ("model.layers.0.self_attn.q_proj.weight", [head, hidden]),
  ("model.layers.0.self_attn.k_proj.weight", [head, hidden]),
  ("model.layers.0.self_attn.v_proj.weight", [head, hidden]),
  ("model.layers.0.self_attn.o_proj.weight", [hidden, head]),
  ("model.layers.0.post_attention_layernorm.weight", [hidden]),
  ("model.layers.0.mlp.gate_proj.weight", [ffn, hidden]),
  ("model.layers.0.mlp.up_proj.weight", [ffn, hidden]),
  ("model.layers.0.mlp.down_proj.weight", [hidden, ffn]),
  ("model.norm.weight", [hidden])]

def checkpoint (vocab hidden head ffn : ℕ) : CheckpointLoader :=
  ⟨[fun name => ((tensors vocab hidden head ffn).lookup name).map zeros]⟩

def config (hidden : ℕ) (headDim : Option ℕ) : HfConfig ℚ where
  architectures := ["LlamaForCausalLM"]
  hiddenSize := hidden
  numHiddenLayers := 1
  numAttentionHeads := 1
  headDim := headDim
  vocabSize := 3
  intermediateSize := some 1
  maxPositionEmbeddings := some 4
  rmsNormEps := some 1

def metadata (hidden : ℕ) : ModelMetadata ℚ where
  architecture := "llama"
  name := "zeros"
  hiddenSize := hidden
  numLayers := 1
  numAttentionHeads := 1
  numKvHeads := 1
  headDim := 2
  vocabSize := 3
  maxPositionEmbeddings := 4
  ropeTheta := 10000
  rmsNormEps := 1
  dtype := .f32
  eosTokenIds := []
  bosTokenId := none

def zeroMatrix (rows cols : ℕ) : Tensor.Matrix ℚ :=
  ⟨List.replicate (rows * cols) 0, rows, cols, List.length_replicate⟩

def weights (hidden : ℕ) : ModelWeights ℚ where
  embedTokens := zeroMatrix 3 hidden
  layers := [{
    inputNorm := List.replicate hidden 0
    qProj := zeroMatrix 2 hidden
    kProj := zeroMatrix 2 hidden
    vProj := zeroMatrix 2 hidden
    oProj := zeroMatrix hidden 2
    qBias := none
    kBias := none
    vBias := none
    postAttnNorm := List.replicate hidden 0
    gateProj := zeroMatrix 1 hidden
    upProj := zeroMatrix 1 hidden
    downProj := zeroMatrix hidden 1 }]
  finalNorm := List.replicate hidden 0
  lmHead := none

theorem fits : (KvStore.new ⟨1, 2, 2, 1, 2⟩ : KvStore ℚ).toKvShape = ⟨1, 2, 2, 1, 2⟩ := rfl

/-- The model, with two blocks of two slots. -/
def model (hidden : ℕ) : TransformerModel ℚ where
  metadata := metadata hidden
  weights := weights hidden
  rope := ⟨[1, 1, 1, 1], [0, 0, 0, 0], 2, 4⟩
  kv := .new ⟨1, 2, 2, 1, 2⟩
  blockSize := 2
  fits := fits

/-- Two tokens of one sequence. -/
def batch : ForwardBatch := ⟨[2, 1], [0, 1], [⟨1⟩], [2], [2], [[⟨1⟩]], true⟩

theorem runnable_batch {hidden : ℕ} (h : hidden < 4) :
    batch.Runnable (metadata hidden) 1 2 2 where
  shaped := {
    valid := rfl
    counts := by decide
    tokens := List.forall_mem_cons.mpr ⟨show _ < 3 by decide, List.forall_mem_singleton.mpr
      (show _ < 3 by decide)⟩
    positions := show ∀ p ∈ batch.positions, p < 4 by decide
    covered := by decide
    blocks := by decide }
  words := {
    counts := by decide
    arena := show (KvShape.mk 1 2 2 1 2).size < 2 ^ 64 by decide
    matrices := by
      show ∀ width ∈ [hidden, 2, 2, 1, 3], 2 * width < 2 ^ 64
      simp only [List.forall_mem_cons]
      exact ⟨by omega, by decide, by decide, by decide, by decide, by simp⟩ }

/-- A model of hidden size two answers again after it has answered. -/
theorem answers_twice :
    ∃ out, (((model 2).forward batch).1.forward batch).2 = .ok out ∧ out.Answers batch 3
      ∧ ∀ i < batch.numSequences, (out.row i).map List.length = some 3 := by
  have hmetadata : (config 2 none).toMetadata "zeros" = .ok (metadata 2) := by decide +kernel
  have hweights : ModelWeights.load reader (checkpoint 3 2 2 1) (config 2 none)
      (metadata 2) .llama
      = .ok (weights 2) := by decide +kernel
  have hran : (model 2).Ran ((model 2).forward batch).1 := .pass batch .start (by decide +kernel)
  exact (TransformerModel.forward_answers_iff hmetadata hweights rfl hran
    (runnable_batch (by decide))).mpr (Or.inr ⟨by decide, by decide⟩)

/-- **A hidden size of zero is loaded, and a pass panics** in the first
normalization. -/
theorem hidden_zero_panics :
    (config 0 (some 2)).toMetadata "zeros" = .ok (metadata 0)
      ∧ ModelWeights.load reader (checkpoint 3 0 2 1) (config 0 (some 2)) (metadata 0) .llama
        = .ok (weights 0)
      ∧ TransformerModel.new (metadata 0) (weights 0) 2 2 = .ok (model 0)
      ∧ batch.Runnable (metadata 0) 1 2 2
      ∧ ((model 0).forward batch).2 = .error .panicked := by
  refine ⟨?_, ?_, rfl, runnable_batch (by decide), ?_⟩
  · decide +kernel
  · decide +kernel
  · decide +kernel

end ZeroCheckpoint
