import OrionServe.Core
import Mathlib.Algebra.Order.Floor.Div

/-!
# The description of a model

What `config.json` says of a model, normalized. The scheduler, the cache and
the tensor-parallel layout size themselves by it. Products of its fields are
`usize` products, which wrap around; `kvBytes` is what the bytes of a token's
keys and values come to before they do.
-/

/-- Element types of weights and of the cache. -/
inductive DType where
  | f32
  | f16
  | bf16
  /-- 8-bit integer, used by quantized weight formats. -/
  | i8
  /-- 4-bit integer, packed two per byte. -/
  | i4
  deriving DecidableEq

namespace DType

/-- Bits per element. -/
def bits : DType → ℕ
  | f32 => 32
  | f16 | bf16 => 16
  | i8 => 8
  | i4 => 4

/-- Size in bytes of `n` elements, rounding up for sub-byte types. -/
def sizeInBytes (d : DType) (n : ℕ) : ℕ := (n * d.bits % 2 ^ 64) ⌈/⌉ 8

/-- Half bytes per element. -/
def nibbles (d : DType) : ℕ := d.bits / 4

theorem bits_eq (d : DType) : d.bits = 4 * d.nibbles := by
  cases d <;> rfl

/-- **An even number of elements fills its bytes**, also of a sub-byte type,
and the wrap-around of the bit count is one of the byte count. -/
theorem sizeInBytes_two_mul (d : DType) (n : ℕ) :
    d.sizeInBytes (2 * n % 2 ^ 64) = n * d.nibbles % 2 ^ 61 := by
  have hbits : 2 * n % 2 ^ 64 * d.bits % 2 ^ 64 = 8 * (n * d.nibbles % 2 ^ 61) := by
    rw [Nat.mod_mul_mod, bits_eq, show 2 * n * (4 * d.nibbles) = 8 * (n * d.nibbles) by ring,
      show (2 : ℕ) ^ 64 = 8 * 2 ^ 61 by norm_num, Nat.mul_mod_mul_left]
  unfold sizeInBytes
  rw [hbits, Nat.ceilDiv_eq_add_pred_div]
  omega

end DType

/-- Static description of a loaded model. -/
structure ModelMetadata (F : Type*) where
  /-- Architecture string from the checkpoint. -/
  architecture : String
  /-- Human-readable name reported by the API. -/
  name : String
  hiddenSize : ℕ
  numLayers : ℕ
  /-- Number of query heads. -/
  numAttentionHeads : ℕ
  /-- Number of key/value heads. -/
  numKvHeads : ℕ
  headDim : ℕ
  vocabSize : ℕ
  maxPositionEmbeddings : ℕ
  ropeTheta : F
  rmsNormEps : F
  /-- Weight dtype as stored. -/
  dtype : DType
  eosTokenIds : List TokenId
  bosTokenId : Option TokenId

namespace ModelMetadata

variable {F : Type*} (m : ModelMetadata F)

/-- Bytes of KV cache required for a single token, across all layers. -/
def kvBytesPerToken : ℕ :=
  m.dtype.sizeInBytes
    (2 * m.numLayers * m.numKvHeads * m.headDim % 2 ^ 64)

/-- How many query heads share each KV head. -/
def gqaGroupSize : ℕ := m.numAttentionHeads / m.numKvHeads

/-- The bytes of a token's keys and values in that many KV heads. -/
def kvBytes (kvHeads : ℕ) : ℕ := m.numLayers * kvHeads * m.headDim * m.dtype.nibbles

/-- Keys and values of that many heads, counted in bytes by the source. -/
theorem sizeInBytes_heads (kvHeads : ℕ) :
    m.dtype.sizeInBytes (2 * m.numLayers * kvHeads * m.headDim % 2 ^ 64)
      = m.kvBytes kvHeads % 2 ^ 61 := by
  rw [show 2 * m.numLayers * kvHeads * m.headDim
    = 2 * (m.numLayers * kvHeads * m.headDim) by ring, DType.sizeInBytes_two_mul]
  rfl

theorem kvBytes_mul (n kvHeads : ℕ) : m.kvBytes (n * kvHeads) = n * m.kvBytes kvHeads := by
  unfold kvBytes
  ring

end ModelMetadata
