import OrionServe.Lib.Slices
import OrionServe.ModelMetadata

/-!
# Tensor-parallel layout

Query heads, KV heads and the MLP's inner dimension are cut into one shard
per rank, each dimension by itself. Nothing compares the cuts with one
another; that a rank owns the KV head of each of its query heads comes from
the group size being the same before and after the cut.

Splitting reports its errors per dimension, but whether it succeeds does not
depend on the rank (`ParallelLayout.compute_eq_ok_iff`).
-/

/-- A rank's position in the tensor-parallel group. -/
structure Rank where
  index : ℕ
  worldSize : ℕ
  deriving DecidableEq

namespace Rank

def new (index worldSize : ℕ) : Except EngineError Rank :=
  if worldSize = 0 then .error (.invalidRequest ["world_size must be at least 1"])
  else if worldSize ≤ index then
    .error (.invalidRequest ["rank ", .nat index, " is out of range for world size ",
      .nat worldSize])
  else .ok ⟨index, worldSize⟩

def isDistributed (r : Rank) : Bool := 1 < r.worldSize

theorem new_eq_ok_iff {index worldSize : ℕ} {r : Rank} :
    new index worldSize = .ok r ↔ index < worldSize ∧ r = ⟨index, worldSize⟩ := by
  unfold new
  split
  · simp; omega
  split
  · simp; omega
  · simp [eq_comm]; omega

end Rank

/-- The slice of a dimension one rank owns. -/
structure Shard where
  start : ℕ
  len : ℕ
  deriving DecidableEq

namespace Shard

/-- The end of the slice. -/
def stop (s : Shard) : ℕ := s.start + s.len

/-- The positions of the slice. -/
def Owns (s : Shard) (x : ℕ) : Prop := s.start ≤ x ∧ x < s.stop

instance (s : Shard) (x : ℕ) : Decidable (s.Owns x) :=
  inferInstanceAs (Decidable (s.start ≤ x ∧ x < s.stop))

/-- **The shards of the ranks `0..n` partition a dimension**: they follow one
another in the order of the ranks, are disjoint, and cover it. -/
structure Partition (shard : ℕ → Shard) (n total : ℕ) : Prop where
  first : (shard 0).start = 0
  inOrder : ∀ r, r + 1 < n → (shard r).stop = (shard (r + 1)).start
  last : (shard (n - 1)).stop = total
  disjoint : ∀ r < n, ∀ r' < n, ∀ x, (shard r).Owns x → (shard r').Owns x → r = r'
  covers : ∀ x, x < total ↔ ∃ r < n, (shard r).Owns x

/-- The shard of rank `r`, of `n` equal ones. -/
def equal (total n r : ℕ) : Shard := ⟨r * (total / n), total / n⟩

theorem owns_equal {total n r x : ℕ} :
    (equal total n r).Owns x ↔ 0 < total / n ∧ x / (total / n) = r := by
  show r * (total / n) ≤ x ∧ x < r * (total / n) + total / n ↔ _
  rcases Nat.eq_zero_or_pos (total / n) with hzero | hpos
  · rw [hzero]
    omega
  · rw [Nat.div_eq_iff hpos]
    constructor
    · rintro ⟨hle, hlt⟩
      exact ⟨hpos, by omega, by omega⟩
    · rintro ⟨-, hle, hlt⟩
      exact ⟨by omega, by omega⟩

/-- **Equal shards partition a dimension that they divide.** -/
theorem partition_equal {total n : ℕ} (hn : 0 < n) (hdvd : n ∣ total) :
    Partition (equal total n) n total where
  first := Nat.zero_mul _
  inOrder r _ := (Nat.succ_mul r _).symm
  last := by
    obtain ⟨k, rfl⟩ : ∃ k, n = k + 1 := ⟨n - 1, by omega⟩
    show k * (total / (k + 1)) + total / (k + 1) = total
    rw [← Nat.succ_mul, Nat.mul_div_cancel' hdvd]
  disjoint r _ r' _ x hx hx' := (owns_equal.mp hx).2.symm.trans (owns_equal.mp hx').2
  covers x := by
    obtain ⟨w, rfl⟩ := hdvd
    simp only [owns_equal, Nat.mul_div_cancel_left w hn]
    rcases Nat.eq_zero_or_pos w with rfl | hw
    · simp
    · constructor
      · intro hx
        exact ⟨x / w, (Nat.div_lt_iff_lt_mul hw).mpr hx, hw, rfl⟩
      · rintro ⟨r, hr, -, rfl⟩
        exact (Nat.div_lt_iff_lt_mul hw).mp hr

end Shard

/-- Splits `total` elements across the ranks, which must divide it. -/
def shardDimension (total : ℕ) (rank : Rank) : Except EngineError Shard :=
  if total % rank.worldSize ≠ 0 then
    .error (.invalidRequest ["cannot split ", .nat total, " evenly across ",
      .nat rank.worldSize,
      " ranks; tensor parallelism requires the dimension to be divisible by the world size"])
  else
    let len := total / rank.worldSize
    .ok ⟨rank.index * len, len⟩

theorem shardDimension_eq_ok_iff {total n r : ℕ} {s : Shard} :
    shardDimension total ⟨r, n⟩ = .ok s ↔ n ∣ total ∧ s = Shard.equal total n r := by
  unfold shardDimension
  split
  · next h => simp [Nat.dvd_iff_mod_eq_zero, show ¬ total % n = 0 from h]
  · next h => simp [Nat.dvd_iff_mod_eq_zero, not_not.mp h, Shard.equal, eq_comm]

/-- How a model's weights are laid out across a tensor-parallel group. -/
structure ParallelLayout where
  rank : Rank
  /-- Attention heads this rank owns. -/
  queryHeads : Shard
  /-- KV heads this rank owns. -/
  kvHeads : Shard
  /-- Slice of the MLP intermediate dimension this rank owns. -/
  ffn : Shard
  deriving DecidableEq

namespace ParallelLayout

variable {F : Type*}

/-- Computes the layout for one rank, validating that the model can be
split. -/
def compute (m : ModelMetadata F) (rank : Rank) (ffnDim : ℕ) :
    Except EngineError ParallelLayout :=
  if !rank.isDistributed then
    .ok { rank
          queryHeads := ⟨0, m.numAttentionHeads⟩
          kvHeads := ⟨0, m.numKvHeads⟩
          ffn := ⟨0, ffnDim⟩ }
  else if m.numKvHeads < rank.worldSize then
    .error (.invalidRequest ["model has ", .nat m.numKvHeads, " KV heads but world size is ",
      .nat rank.worldSize, "; tensor parallelism beyond the KV head count would require ",
      "replicating them, which is not implemented"])
  else do
    let queryHeads ← shardDimension m.numAttentionHeads rank
    let kvHeads ← shardDimension m.numKvHeads rank
    let ffn ← shardDimension ffnDim rank
    return { rank, queryHeads, kvHeads, ffn }

/-- KV cache this rank holds per token, in bytes. -/
def localKvBytesPerToken (l : ParallelLayout) (m : ModelMetadata F) : ℕ :=
  m.dtype.sizeInBytes (2 * m.numLayers * l.kvHeads.len * m.headDim % 2 ^ 64)

/-- The layout of rank `r` of `n` in which every dimension is cut evenly. -/
def even (m : ModelMetadata F) (ffnDim n r : ℕ) : ParallelLayout where
  rank := ⟨r, n⟩
  queryHeads := .equal m.numAttentionHeads n r
  kvHeads := .equal m.numKvHeads n r
  ffn := .equal ffnDim n r

/-- The model can be split among `n` ranks. -/
def Splits (m : ModelMetadata F) (ffnDim n : ℕ) : Prop :=
  n ∣ m.numAttentionHeads ∧ n ∣ m.numKvHeads ∧ n ∣ ffnDim

instance (m : ModelMetadata F) (ffnDim n : ℕ) : Decidable (Splits m ffnDim n) :=
  inferInstanceAs (Decidable (_ ∧ _ ∧ _))

/-- **Whether a layout exists does not depend on the rank**, and it is the
even one. -/
theorem compute_eq_ok_iff {m : ModelMetadata F} (hkv : 0 < m.numKvHeads) {ffnDim n r : ℕ}
    (hr : r < n) {l : ParallelLayout} :
    compute m ⟨r, n⟩ ffnDim = .ok l ↔ Splits m ffnDim n ∧ l = even m ffnDim n r := by
  unfold compute
  by_cases hn : n = 1
  · obtain rfl : r = 0 := by omega
    subst hn
    simp [Rank.isDistributed, Splits, even, Shard.equal, eq_comm]
  have hd : (Rank.isDistributed ⟨r, n⟩) = true := by
    simp [Rank.isDistributed]
    omega
  rw [hd, Bool.not_true, if_neg Bool.false_ne_true]
  split
  · next hlt =>
    -- a positive number of heads is not divided by a greater number
    refine ⟨fun h => by simp at h, fun h => ?_⟩
    exact absurd (Nat.le_of_dvd hkv h.1.2.1) (not_le.mpr hlt)
  · simp only [Except.bind_eq_ok_iff, shardDimension_eq_ok_iff]
    constructor
    · rintro ⟨q, ⟨hq, rfl⟩, k, ⟨hk, rfl⟩, f, ⟨hf, rfl⟩, h⟩
      exact ⟨⟨hq, hk, hf⟩, (Except.ok.inj h).symm⟩
    · rintro ⟨⟨hq, hk, hf⟩, rfl⟩
      exact ⟨_, ⟨hq, rfl⟩, _, ⟨hk, rfl⟩, _, ⟨hf, rfl⟩, rfl⟩

/-! ## The cuts fit together -/

/-- **A rank owns the KV head of each of its query heads.** -/
theorem owns_kvHead {m : ModelMetadata F} (hkv : 0 < m.numKvHeads)
    (hgroup : m.numKvHeads ∣ m.numAttentionHeads) {n r h : ℕ} (hn : n ∣ m.numKvHeads)
    (h' : (Shard.equal m.numAttentionHeads n r).Owns h) :
    (Shard.equal m.numKvHeads n r).Owns (h / m.gqaGroupSize) := by
  obtain ⟨g, hg⟩ := hgroup
  obtain ⟨k, hk⟩ := hn
  have hpos : 0 < n ∧ 0 < k := by
    rw [hk] at hkv
    exact ⟨Nat.pos_of_mul_pos_right hkv, Nat.pos_of_mul_pos_left hkv⟩
  have hsize : m.gqaGroupSize = g := by
    unfold ModelMetadata.gqaGroupSize
    rw [hg, Nat.mul_div_cancel_left g hkv]
  have hheads : m.numAttentionHeads / n = k * g := by
    rw [hg, hk, Nat.mul_assoc, Nat.mul_div_cancel_left _ hpos.1]
  have hkvs : m.numKvHeads / n = k := by rw [hk, Nat.mul_div_cancel_left _ hpos.1]
  rw [Shard.owns_equal, hheads] at h'
  rw [Shard.owns_equal, hkvs, hsize]
  exact ⟨hpos.2, by rw [Nat.div_div_eq_div_mul, Nat.mul_comm g k]; exact h'.2⟩

/-- Each rank counts its own bytes. -/
theorem localKvBytesPerToken_even (m : ModelMetadata F) (ffnDim n r : ℕ) :
    (even m ffnDim n r).localKvBytesPerToken m = m.kvBytes (m.numKvHeads / n) % 2 ^ 61 :=
  m.sizeInBytes_heads _

/-- **The bytes of the ranks add up unless their sum leaves the `usize`**. -/
theorem sum_localKvBytesPerToken_iff {m : ModelMetadata F} (ffnDim : ℕ) {n : ℕ}
    (hn : n ∣ m.numKvHeads) :
    ∑ r ∈ Finset.range n, (even m ffnDim n r).localKvBytesPerToken m = m.kvBytesPerToken
      ↔ n * (m.kvBytes (m.numKvHeads / n) % 2 ^ 61) < 2 ^ 61 := by
  have htotal : m.kvBytesPerToken
      = n * (m.kvBytes (m.numKvHeads / n) % 2 ^ 61) % 2 ^ 61 := by
    rw [Nat.mul_mod_mod, ← m.kvBytes_mul, Nat.mul_div_cancel' hn]
    exact m.sizeInBytes_heads _
  simp only [localKvBytesPerToken_even, Finset.sum_const, Finset.card_range, smul_eq_mul]
  rw [htotal, eq_comm]
  exact Nat.mod_eq_iff_lt (by norm_num)

/-- **The layouts of the ranks fit together**: the shards partition each
dimension, a rank owns the KV heads of its query heads, and the bytes of the
ranks add up to those of the model. So every weight is somewhere, once, and
attention needs nothing from another rank. -/
structure Consistent (m : ModelMetadata F) (ffnDim n : ℕ) (layout : ℕ → ParallelLayout) :
    Prop where
  queryHeads : Shard.Partition (fun r => (layout r).queryHeads) n m.numAttentionHeads
  kvHeads : Shard.Partition (fun r => (layout r).kvHeads) n m.numKvHeads
  ffn : Shard.Partition (fun r => (layout r).ffn) n ffnDim
  group : ∀ r < n, ∀ h, (layout r).queryHeads.Owns h →
    (layout r).kvHeads.Owns (h / m.gqaGroupSize)
  bytes : ∑ r ∈ Finset.range n, (layout r).localKvBytesPerToken m = m.kvBytesPerToken

/-- **Where one rank has a layout all have, and these fit together**, exactly
when the model cannot be split or the bytes its ranks hold, each a `usize`
count, add up to less than `2 ^ 61`. The divisions are checked; the products are
not, and wrap around in a release build. -/
theorem compute_consistent_iff (m : ModelMetadata F) (ffnDim n : ℕ)
    (hheads : 0 < m.numAttentionHeads) (hgroup : m.numKvHeads ∣ m.numAttentionHeads)
    (hn : 1 ≤ n) :
    (∀ r < n, ∀ l, compute m ⟨r, n⟩ ffnDim = .ok l →
      ∃ layout : ℕ → ParallelLayout, (∀ i < n, compute m ⟨i, n⟩ ffnDim = .ok (layout i))
        ∧ Consistent m ffnDim n layout)
    ↔ (Splits m ffnDim n → n * (m.kvBytes (m.numKvHeads / n) % 2 ^ 61) < 2 ^ 61) := by
  have hkv : 0 < m.numKvHeads := Nat.pos_of_dvd_of_pos hgroup hheads
  constructor
  · intro h hs
    obtain ⟨layout, hl, hc⟩ := h 0 hn _ ((compute_eq_ok_iff hkv hn).mpr ⟨hs, rfl⟩)
    rw [← sum_localKvBytesPerToken_iff ffnDim hs.2.1, ← hc.bytes]
    refine Finset.sum_congr rfl (fun i hi => ?_)
    rw [((compute_eq_ok_iff hkv (Finset.mem_range.mp hi)).mp
      (hl i (Finset.mem_range.mp hi))).2]
  · intro hfit r hr l hl
    have hs := ((compute_eq_ok_iff hkv hr).mp hl).1
    exact ⟨even m ffnDim n, fun i hi => (compute_eq_ok_iff hkv hi).mpr ⟨hs, rfl⟩, {
      queryHeads := Shard.partition_equal hn hs.1
      kvHeads := Shard.partition_equal hn hs.2.1
      ffn := Shard.partition_equal hn hs.2.2
      group := fun i _ h hown => owns_kvHead hkv hgroup hs.2.1 hown
      bytes := (sum_localKvBytesPerToken_iff ffnDim hs.2.1).mpr (hfit hs) }⟩

/-- A model of grouped heads, 32 over 8, with the keys and values of a layer
in half precision. -/
def grouped (numLayers : ℕ) : ModelMetadata ℚ where
  architecture := "llama"
  name := "grouped"
  hiddenSize := 4096
  numLayers := numLayers
  numAttentionHeads := 32
  numKvHeads := 8
  headDim := 128
  vocabSize := 128256
  maxPositionEmbeddings := 8192
  ropeTheta := 500000
  rmsNormEps := 1 / 100000
  dtype := .bf16
  eosTokenIds := []
  bosTokenId := none

/-- Thirty-two layers split among four ranks. -/
theorem compute_consistent_iff_four :
    ∃ layout : ℕ → ParallelLayout,
      (∀ i < 4, compute (grouped 32) ⟨i, 4⟩ 14336 = .ok (layout i))
        ∧ Consistent (grouped 32) 14336 4 layout :=
  (compute_consistent_iff (grouped 32) 14336 4 (by decide) (by decide) (by decide)).mpr
    (fun _ => by decide) 0 (by decide) _ rfl

/-- **A count of layers for which the bytes wrap around**: the model counts
none, and its two ranks `2 ^ 60` each. -/
theorem compute_bytes_wrap :
    (∀ r < 2, ∃ l, compute (grouped (2 ^ 49)) ⟨r, 2⟩ 14336 = .ok l
      ∧ l.localKvBytesPerToken (grouped (2 ^ 49)) = 2 ^ 60)
    ∧ (grouped (2 ^ 49)).kvBytesPerToken = 0 := by
  refine ⟨fun r hr => ?_, by decide +kernel⟩
  interval_cases r
  · exact ⟨_, rfl, by decide +kernel⟩
  · exact ⟨_, rfl, by decide +kernel⟩

end ParallelLayout
