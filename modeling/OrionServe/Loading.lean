import OrionServe.Transformer

/-!
# From a checkpoint to a model

The shapes of a model are fixed in three places. `HfConfig.toMetadata`
normalizes `config.json` and fills in defaults; `ModelWeights.load` reads each
tensor by its name and compares its shape with what the metadata say; and
`TransformerModel.new` builds the rotary tables and the arena. What they
establish is `ModelMetadata.Consistent` and `ModelWeights.Shaped`.

The width of a projection is a `usize` product, heads times head dimension,
which wraps around: `ModelMetadata.qDim` is the width that the tensors are
compared with.

The files have been read and parsed already. A tensor of a shard has as many
bytes as its shape and its type say, which the safetensors parser checks when
a file is opened.
-/

open Tensor Scalars

/-- Errors raised while loading a model. The variants kept are those raised
once the files are read and parsed. -/
inductive ModelError where
  | malformed (file : String) (reason : Message)
  | unsupportedArchitecture (name : String)
  | unsupportedDtype (dtype : Message)
  | shapeMismatch (name : String) (expected actual : List ℕ)
  | tensorNotFound (name : String)
  deriving DecidableEq

/-! ## The configuration -/

/-- `eos_token_id` is one id or a list of them, depending on the model. -/
inductive EosField where
  | single (t : TokenId)
  | multiple (v : List TokenId)

def EosField.intoVec : EosField → List TokenId
  | single t => [t]
  | multiple v => v

/-- The subset of `config.json` that is understood. -/
structure HfConfig (F : Type*) where
  architectures : List String := []
  modelType : Option String := none
  hiddenSize : ℕ
  numHiddenLayers : ℕ
  numAttentionHeads : ℕ
  /-- Absent on multi-head models, where it equals `numAttentionHeads`. -/
  numKeyValueHeads : Option ℕ := none
  /-- Usually `hiddenSize / numAttentionHeads`, but read when present. -/
  headDim : Option ℕ := none
  vocabSize : ℕ
  intermediateSize : Option ℕ := none
  maxPositionEmbeddings : Option ℕ := none
  ropeTheta : Option F := none
  rmsNormEps : Option F := none
  torchDtype : Option String := none
  eosTokenId : Option EosField := none
  bosTokenId : Option TokenId := none
  /-- Whether the LM head shares weights with the token embedding. -/
  tieWordEmbeddings : Option Bool := none

/-- Architectures this engine can execute. -/
inductive Architecture where
  | llama
  /-- The layers of Llama, with biases on the query, key and value. -/
  | qwen2
  deriving DecidableEq

namespace Architecture

/-- The architecture named by an entry of `architectures`. -/
def ofArchitecture : String → Option Architecture
  | "LlamaForCausalLM" | "MistralForCausalLM" => some llama
  | "Qwen2ForCausalLM" => some qwen2
  | _ => none

/-- The architecture named by `model_type`. -/
def ofModelType : String → Option Architecture
  | "llama" | "mistral" => some llama
  | "qwen2" => some qwen2
  | _ => none

/-- Identifies the architecture from the list, or else from the model type. -/
def detect {F : Type*} (config : HfConfig F) : Except ModelError Architecture :=
  match config.architectures.findSome? ofArchitecture with
  | some arch => .ok arch
  | none =>
    match config.modelType.bind ofModelType with
    | some arch => .ok arch
    | none => .error (.unsupportedArchitecture
        ((config.architectures.head?.or config.modelType).getD "<unspecified>"))

/-- Whether attention projections carry bias terms. -/
def hasQkvBias : Architecture → Bool
  | llama => false
  | qwen2 => true

def asStr : Architecture → String
  | llama => "llama"
  | qwen2 => "qwen2"

end Architecture

/-- Parses a `torch_dtype` string. -/
def parseDtype : Option String → Except ModelError DType
  | none => .ok .f32
  | some "float32" | some "float" => .ok .f32
  | some "float16" | some "half" => .ok .f16
  | some "bfloat16" => .ok .bf16
  | some other => .error (.unsupportedDtype [other])

namespace HfConfig

variable {F : Type} {D : Type*} [Scalars F D]

/-- An error of `config.json`. -/
def malformed (reason : Message) : ModelError := .malformed "config.json" reason

/-- Normalizes into `ModelMetadata`, filling defaults and checking internal
consistency. The default of `rms_norm_eps` is `1e-5`. -/
def toMetadata (c : HfConfig F) (name : String) : Except ModelError (ModelMetadata F) := do
  let arch ← Architecture.detect c
  let numKvHeads := c.numKeyValueHeads.getD c.numAttentionHeads
  let headDim := c.headDim.getD (c.hiddenSize / max c.numAttentionHeads 1)
  if c.numAttentionHeads = 0 ∨ c.numHiddenLayers = 0 then
    .error (malformed ["num_attention_heads and num_hidden_layers must be non-zero"])
  else if numKvHeads = 0 then .error (malformed ["num_key_value_heads must be non-zero"])
  else if c.numAttentionHeads % numKvHeads ≠ 0 then
    .error (malformed ["num_attention_heads (", .nat c.numAttentionHeads,
      ") must be a multiple of num_key_value_heads (", .nat numKvHeads, ")"])
  else if headDim = 0 then .error (malformed ["head_dim resolved to zero"])
  else if c.vocabSize = 0 then .error (malformed ["vocab_size must be non-zero"])
  else do
    let dtype ← parseDtype c.torchDtype
    return {
      architecture := arch.asStr
      name := name
      hiddenSize := c.hiddenSize
      numLayers := c.numHiddenLayers
      numAttentionHeads := c.numAttentionHeads
      numKvHeads := numKvHeads
      headDim := headDim
      vocabSize := c.vocabSize
      maxPositionEmbeddings := c.maxPositionEmbeddings.getD 2048
      ropeTheta := c.ropeTheta.getD (ofNat 10000)
      rmsNormEps := c.rmsNormEps.getD (div one (ofNat 100000))
      dtype := dtype
      eosTokenIds := (c.eosTokenId.map EosField.intoVec).getD []
      bosTokenId := c.bosTokenId }

/-- Feed-forward inner dimension, four times the hidden size when the
configuration omits it. -/
def ffnDim (c : HfConfig F) : ℕ := c.intermediateSize.getD (4 * c.hiddenSize % 2 ^ 64)

/-- Whether the LM head reuses the embedding matrix. -/
def tiesEmbeddings (c : HfConfig F) : Bool := c.tieWordEmbeddings.getD false

end HfConfig

namespace ModelMetadata

variable {F : Type*}

/-- **What `to_metadata` makes sure of.** The hidden size is not among it. -/
structure Consistent (m : ModelMetadata F) : Prop where
  heads : m.numAttentionHeads ≠ 0
  layers : m.numLayers ≠ 0
  kvHeads : m.numKvHeads ≠ 0
  grouped : m.numAttentionHeads % m.numKvHeads = 0
  headDim : m.headDim ≠ 0
  vocab : m.vocabSize ≠ 0

/-- The width of a query, as a `usize`. -/
def qDim (m : ModelMetadata F) : ℕ := m.numAttentionHeads * m.headDim % 2 ^ 64

/-- The width of a key or a value, as a `usize`. -/
def kvDim (m : ModelMetadata F) : ℕ := m.numKvHeads * m.headDim % 2 ^ 64

/-- The heads of a key take no more room than those of a query. -/
theorem Consistent.kvWidth_le {m : ModelMetadata F} (h : m.Consistent) :
    m.numKvHeads * m.headDim ≤ m.numAttentionHeads * m.headDim :=
  Nat.mul_le_mul_right _ (Nat.le_of_dvd (Nat.pos_of_ne_zero h.heads)
    (Nat.dvd_of_mod_eq_zero h.grouped))

end ModelMetadata

namespace HfConfig

variable {F : Type} {D : Type*} [Scalars F D] {c : HfConfig F} {name : String}
    {m : ModelMetadata F}

/-- What is accepted is consistent, and its sizes are those of the
configuration. -/
theorem toMetadata_eq_ok (h : c.toMetadata name = .ok m) :
    m.Consistent ∧ m.hiddenSize = c.hiddenSize
      ∧ m.headDim = c.headDim.getD (c.hiddenSize / max c.numAttentionHeads 1) := by
  unfold toMetadata at h
  obtain ⟨arch, -, h⟩ := Except.bind_eq_ok_iff.mp h
  simp only at h
  split_ifs at h with hlayers hkv hgroup hdim hvocab
  obtain ⟨dtype, -, h⟩ := Except.bind_eq_ok_iff.mp h
  obtain rfl := Except.pure_eq_ok_iff.mp h
  rw [not_or] at hlayers
  exact ⟨⟨hlayers.1, hlayers.2, hkv, not_not.mp hgroup, hdim, hvocab⟩, rfl, rfl⟩

end HfConfig

/-! ## The checkpoint -/

/-- The element type of a stored tensor. -/
inductive StoredDtype where
  | f32
  | f16
  | bf16
  /-- A type that is not converted, by its name. -/
  | other (name : String)

/-- Bytes per element of a type that is converted. -/
def StoredDtype.width : StoredDtype → Option ℕ
  | f32 => some 4
  | f16 | bf16 => some 2
  | other _ => none

/-- A tensor of a safetensors file. -/
structure TensorView where
  dtype : StoredDtype
  shape : List ℕ
  data : List UInt8
  sized : ∀ n, dtype.width = some n → data.length = shape.prod * n

/-- How little-endian bytes are read as `f32`. -/
structure ByteReader (F : Type*) where
  f32 : UInt8 → UInt8 → UInt8 → UInt8 → F
  f16 : UInt8 → UInt8 → F
  bf16 : UInt8 → UInt8 → F

section Bytes

variable {F : Type}

/-- `chunks_exact(4)`, each chunk read. -/
def readQuads (f : UInt8 → UInt8 → UInt8 → UInt8 → F) : List UInt8 → List F
  | c₀ :: c₁ :: c₂ :: c₃ :: rest => f c₀ c₁ c₂ c₃ :: readQuads f rest
  | _ => []

/-- `chunks_exact(2)`, each chunk read. -/
def readPairs (f : UInt8 → UInt8 → F) : List UInt8 → List F
  | c₀ :: c₁ :: rest => f c₀ c₁ :: readPairs f rest
  | _ => []

theorem length_readQuads {f : UInt8 → UInt8 → UInt8 → UInt8 → F} {bytes : List UInt8} {n : ℕ}
    (h : bytes.length = n * 4) : (readQuads f bytes).length = n := by
  induction n generalizing bytes with
  | zero =>
    rw [List.eq_nil_of_length_eq_zero (h.trans (Nat.zero_mul 4))]
    rfl
  | succ n ih =>
    obtain - | ⟨c₀, - | ⟨c₁, - | ⟨c₂, - | ⟨c₃, rest⟩⟩⟩⟩ := bytes <;>
      simp only [List.length_cons, List.length_nil] at h <;> try omega
    exact congrArg Nat.succ (ih (by omega))

theorem length_readPairs {f : UInt8 → UInt8 → F} {bytes : List UInt8} {n : ℕ}
    (h : bytes.length = n * 2) : (readPairs f bytes).length = n := by
  induction n generalizing bytes with
  | zero =>
    rw [List.eq_nil_of_length_eq_zero (h.trans (Nat.zero_mul 2))]
    rfl
  | succ n ih =>
    obtain - | ⟨c₀, - | ⟨c₁, rest⟩⟩ := bytes <;>
      simp only [List.length_cons, List.length_nil] at h <;> try omega
    exact congrArg Nat.succ (ih (by omega))

/-- Converts a safetensors view into `f32` values. -/
def viewToF32 (r : ByteReader F) (name : String) (view : TensorView) :
    Except ModelError (List F) :=
  match view.dtype with
  | .f32 => .ok (readQuads r.f32 view.data)
  | .f16 => .ok (readPairs r.f16 view.data)
  | .bf16 => .ok (readPairs r.bf16 view.data)
  | .other dtype => .error (.unsupportedDtype [dtype, " (tensor `", name, "`)"])

/-- A tensor that is converted has as many values as its shape says. -/
theorem length_viewToF32 {r : ByteReader F} {name : String} {view : TensorView} {data : List F}
    (h : viewToF32 r name view = .ok data) : data.length = view.shape.prod := by
  obtain ⟨dtype, shape, bytes, sized⟩ := view
  cases dtype with
  | f32 =>
    obtain rfl := Except.ok.inj h
    exact length_readQuads (sized 4 rfl)
  | f16 =>
    obtain rfl := Except.ok.inj h
    exact length_readPairs (sized 2 rfl)
  | bf16 =>
    obtain rfl := Except.ok.inj h
    exact length_readPairs (sized 2 rfl)
  | other dtype => exact absurd h nofun

/-- Creates a matrix from row-major data. The source reports the error as
`EngineError::Internal`. -/
def Tensor.Matrix.new (data : List F) (rows cols : ℕ) : Except Message (Tensor.Matrix F) :=
  if h : data.length = rows * cols then .ok ⟨data, rows, cols, h⟩
  else .error ["matrix data has ", .nat data.length, " elements, expected ", .nat rows, "x",
    .nat cols, " = ", .nat (rows * cols)]

end Bytes

/-- Loads tensors by name from one or more safetensors shards, each of which
says what it holds under a name. -/
structure CheckpointLoader where
  shards : List (String → Option TensorView)

namespace CheckpointLoader

variable {F : Type} (loader : CheckpointLoader) (r : ByteReader F)

/-- The tensor of a name: that of the first shard which has one. -/
def view (name : String) : Option TensorView := loader.shards.findSome? (fun shard => shard name)

/-- Whether a tensor is present. -/
def contains (name : String) : Bool := (loader.view name).isSome

/-- Loads a tensor as a flat `f32` vector with its shape. -/
def tensor (name : String) : Except ModelError (List F × List ℕ) :=
  match loader.view name with
  | none => .error (.tensorNotFound name)
  | some view => do
    let data ← viewToF32 r name view
    return (data, view.shape)

/-- Loads a 2-D tensor as a `Matrix`, checking its shape. -/
def matrix (name : String) (rows cols : ℕ) : Except ModelError (Tensor.Matrix F) := do
  let t ← loader.tensor r name
  if t.2 ≠ [rows, cols] then .error (.shapeMismatch name [rows, cols] t.2)
  else
    match Tensor.Matrix.new t.1 rows cols with
    | .ok m => .ok m
    | .error e => .error (.malformed name ("internal invariant violated: " :: e))

/-- Loads a 1-D tensor, checking its length. -/
def vector (name : String) (len : ℕ) : Except ModelError (List F) := do
  let t ← loader.tensor r name
  if t.2 ≠ [len] then .error (.shapeMismatch name [len] t.2)
  else return t.1

/-- Loads a 1-D tensor if present, returning `none` when absent. -/
def optionalVector (name : String) (len : ℕ) : Except ModelError (Option (List F)) :=
  if !loader.contains name then .ok none
  else do
    let v ← loader.vector r name len
    return some v

variable {loader r} {name : String}

theorem length_tensor {t : List F × List ℕ} (h : loader.tensor r name = .ok t) :
    t.1.length = t.2.prod := by
  unfold tensor at h
  split at h
  · exact absurd h nofun
  · obtain ⟨data, hdata, h⟩ := Except.bind_eq_ok_iff.mp h
    obtain rfl := Except.pure_eq_ok_iff.mp h
    exact length_viewToF32 hdata

/-- A matrix that is loaded has the shape that was asked for. -/
theorem shape_matrix {rows cols : ℕ} {m : Tensor.Matrix F}
    (h : loader.matrix r name rows cols = .ok m) : m.rows = rows ∧ m.cols = cols := by
  unfold matrix at h
  obtain ⟨t, ht, h⟩ := Except.bind_eq_ok_iff.mp h
  split_ifs at h with hshape
  have hlen : t.1.length = rows * cols := by
    rw [length_tensor ht, not_not.mp hshape, List.prod_cons, List.prod_singleton]
  rw [Tensor.Matrix.new, dif_pos hlen] at h
  obtain rfl := Except.ok.inj h
  exact ⟨rfl, rfl⟩

theorem length_vector {len : ℕ} {v : List F} (h : loader.vector r name len = .ok v) :
    v.length = len := by
  unfold vector at h
  obtain ⟨t, ht, h⟩ := Except.bind_eq_ok_iff.mp h
  split_ifs at h with hshape
  obtain rfl := Except.pure_eq_ok_iff.mp h
  rw [length_tensor ht, not_not.mp hshape, List.prod_singleton]

theorem length_optionalVector {len : ℕ} {v : Option (List F)}
    (h : loader.optionalVector r name len = .ok v) : v.all (fun b => b.length = len) := by
  unfold optionalVector at h
  split_ifs at h
  · obtain rfl := Except.ok.inj h
    rfl
  · obtain ⟨b, hb, h⟩ := Except.bind_eq_ok_iff.mp h
    obtain rfl := Except.pure_eq_ok_iff.mp h
    exact decide_eq_true (length_vector hb)

end CheckpointLoader

/-! ## The weights -/

section Shapes

variable {F : Type*}

/-- The weights of a layer have these widths. -/
structure LayerWeights.Shaped (w : LayerWeights F) (hidden qDim kvDim ffn : ℕ) : Prop where
  inputNorm : w.inputNorm.length = hidden
  qProj : w.qProj.rows = qDim ∧ w.qProj.cols = hidden
  kProj : w.kProj.rows = kvDim ∧ w.kProj.cols = hidden
  vProj : w.vProj.rows = kvDim ∧ w.vProj.cols = hidden
  oProj : w.oProj.rows = hidden ∧ w.oProj.cols = qDim
  qBias : w.qBias.all (fun b => b.length = qDim)
  kBias : w.kBias.all (fun b => b.length = kvDim)
  vBias : w.vBias.all (fun b => b.length = kvDim)
  postAttnNorm : w.postAttnNorm.length = hidden
  gateProj : w.gateProj.rows = ffn ∧ w.gateProj.cols = hidden
  upProj : w.upProj.rows = ffn ∧ w.upProj.cols = hidden
  downProj : w.downProj.rows = hidden ∧ w.downProj.cols = ffn

/-- **What `ModelWeights::load` makes sure of**: every tensor has the shape
that the metadata call for. -/
structure ModelWeights.Shaped (w : ModelWeights F) (m : ModelMetadata F) (ffn : ℕ) : Prop where
  embedTokens : w.embedTokens.rows = m.vocabSize ∧ w.embedTokens.cols = m.hiddenSize
  numLayers : w.layers.length = m.numLayers
  layers : ∀ l ∈ w.layers, l.Shaped m.hiddenSize m.qDim m.kvDim ffn
  finalNorm : w.finalNorm.length = m.hiddenSize
  lmHead : ∀ h ∈ w.lmHead, h.rows = m.vocabSize ∧ h.cols = m.hiddenSize

end Shapes

namespace ModelWeights

variable {F : Type} {D : Type*} [Scalars F D] (r : ByteReader F) (loader : CheckpointLoader)
  (config : HfConfig F) (metadata : ModelMetadata F) (arch : Architecture)

/-- A bias of a projection, which only some architectures have. -/
def loadBias (name : String) (len : ℕ) : Except ModelError (Option (List F)) :=
  if arch.hasQkvBias then loader.optionalVector r name len else .ok none

/-- The weights of the layer `i`. -/
def loadLayer (i : ℕ) : Except ModelError (LayerWeights F) := do
  let hidden := metadata.hiddenSize
  let ffn := config.ffnDim
  let qDim := metadata.qDim
  let kvDim := metadata.kvDim
  let p := s!"model.layers.{i}"
  let qBias ← loadBias r loader arch s!"{p}.self_attn.q_proj.bias" qDim
  let kBias ← loadBias r loader arch s!"{p}.self_attn.k_proj.bias" kvDim
  let vBias ← loadBias r loader arch s!"{p}.self_attn.v_proj.bias" kvDim
  let inputNorm ← loader.vector r s!"{p}.input_layernorm.weight" hidden
  let qProj ← loader.matrix r s!"{p}.self_attn.q_proj.weight" qDim hidden
  let kProj ← loader.matrix r s!"{p}.self_attn.k_proj.weight" kvDim hidden
  let vProj ← loader.matrix r s!"{p}.self_attn.v_proj.weight" kvDim hidden
  let oProj ← loader.matrix r s!"{p}.self_attn.o_proj.weight" hidden qDim
  let postAttnNorm ← loader.vector r s!"{p}.post_attention_layernorm.weight" hidden
  let gateProj ← loader.matrix r s!"{p}.mlp.gate_proj.weight" ffn hidden
  let upProj ← loader.matrix r s!"{p}.mlp.up_proj.weight" ffn hidden
  let downProj ← loader.matrix r s!"{p}.mlp.down_proj.weight" hidden ffn
  return {
    inputNorm, qProj, kProj, vProj, oProj, qBias, kBias, vBias, postAttnNorm, gateProj, upProj
    downProj }

/-- The LM head, unless it is tied to the embedding matrix or there is none. -/
def loadHead : Except ModelError (Option (Tensor.Matrix F)) :=
  if config.tiesEmbeddings || !loader.contains "lm_head.weight" then .ok none
  else do
    let head ← loader.matrix r "lm_head.weight" metadata.vocabSize metadata.hiddenSize
    return some head

/-- Loads every weight named by the Llama/Qwen2 convention. -/
def load : Except ModelError (ModelWeights F) := do
  let embedTokens ← loader.matrix r "model.embed_tokens.weight" metadata.vocabSize
    metadata.hiddenSize
  let layers ← (List.range metadata.numLayers).mapM (loadLayer r loader config metadata arch)
  let lmHead ← loadHead r loader config metadata
  let finalNorm ← loader.vector r "model.norm.weight" metadata.hiddenSize
  return { embedTokens, layers, finalNorm, lmHead }

variable {r loader config metadata arch}

theorem length_loadBias {name : String} {len : ℕ} {b : Option (List F)}
    (h : loadBias r loader arch name len = .ok b) : b.all (fun b => b.length = len) := by
  unfold loadBias at h
  split_ifs at h
  · exact CheckpointLoader.length_optionalVector h
  · obtain rfl := Except.ok.inj h
    rfl

theorem shaped_loadLayer {i : ℕ} {w : LayerWeights F}
    (h : loadLayer r loader config metadata arch i = .ok w) :
    w.Shaped metadata.hiddenSize metadata.qDim metadata.kvDim config.ffnDim := by
  unfold loadLayer at h
  obtain ⟨qBias, hqb, h⟩ := Except.bind_eq_ok_iff.mp h
  obtain ⟨kBias, hkb, h⟩ := Except.bind_eq_ok_iff.mp h
  obtain ⟨vBias, hvb, h⟩ := Except.bind_eq_ok_iff.mp h
  obtain ⟨inputNorm, hin, h⟩ := Except.bind_eq_ok_iff.mp h
  obtain ⟨qProj, hq, h⟩ := Except.bind_eq_ok_iff.mp h
  obtain ⟨kProj, hk, h⟩ := Except.bind_eq_ok_iff.mp h
  obtain ⟨vProj, hv, h⟩ := Except.bind_eq_ok_iff.mp h
  obtain ⟨oProj, ho, h⟩ := Except.bind_eq_ok_iff.mp h
  obtain ⟨postAttnNorm, hpost, h⟩ := Except.bind_eq_ok_iff.mp h
  obtain ⟨gateProj, hg, h⟩ := Except.bind_eq_ok_iff.mp h
  obtain ⟨upProj, hu, h⟩ := Except.bind_eq_ok_iff.mp h
  obtain ⟨downProj, hd, h⟩ := Except.bind_eq_ok_iff.mp h
  obtain rfl := Except.pure_eq_ok_iff.mp h
  exact {
    inputNorm := CheckpointLoader.length_vector hin
    qProj := CheckpointLoader.shape_matrix hq
    kProj := CheckpointLoader.shape_matrix hk
    vProj := CheckpointLoader.shape_matrix hv
    oProj := CheckpointLoader.shape_matrix ho
    qBias := length_loadBias hqb
    kBias := length_loadBias hkb
    vBias := length_loadBias hvb
    postAttnNorm := CheckpointLoader.length_vector hpost
    gateProj := CheckpointLoader.shape_matrix hg
    upProj := CheckpointLoader.shape_matrix hu
    downProj := CheckpointLoader.shape_matrix hd }

theorem shape_loadHead {head : Option (Tensor.Matrix F)}
    (h : loadHead r loader config metadata = .ok head) :
    ∀ x ∈ head, x.rows = metadata.vocabSize ∧ x.cols = metadata.hiddenSize := by
  unfold loadHead at h
  split_ifs at h
  · obtain rfl := Except.ok.inj h
    exact fun _ hx => absurd hx nofun
  · obtain ⟨x, hx, h⟩ := Except.bind_eq_ok_iff.mp h
    obtain rfl := Except.pure_eq_ok_iff.mp h
    intro y hy
    obtain rfl := Option.some.inj hy
    exact CheckpointLoader.shape_matrix hx

/-- **Weights that are loaded have their shapes.** -/
theorem shaped_load {w : ModelWeights F} (h : load r loader config metadata arch = .ok w) :
    w.Shaped metadata config.ffnDim := by
  unfold load at h
  obtain ⟨embedTokens, hembed, h⟩ := Except.bind_eq_ok_iff.mp h
  obtain ⟨layers, hlayers, h⟩ := Except.bind_eq_ok_iff.mp h
  obtain ⟨lmHead, hhead, h⟩ := Except.bind_eq_ok_iff.mp h
  obtain ⟨finalNorm, hnorm, h⟩ := Except.bind_eq_ok_iff.mp h
  obtain rfl := Except.pure_eq_ok_iff.mp h
  have hlayers := List.mapM_eq_ok_iff.mp hlayers
  refine ⟨CheckpointLoader.shape_matrix hembed, ?_, ?_, CheckpointLoader.length_vector hnorm,
    shape_loadHead hhead⟩
  · exact hlayers.length_eq.symm.trans List.length_range
  · intro w hw
    obtain ⟨i, hi, rfl⟩ := List.getElem_of_mem hw
    exact shaped_loadLayer (hlayers.get (hlayers.length_eq ▸ hi) hi)

end ModelWeights
