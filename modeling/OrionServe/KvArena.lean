import OrionServe.Attention
import OrionServe.Lib.Usize

/-!
# The arena has no aliasing

The offset of a vector is a mixed-radix number with five digits, computed by
three functions. Here it is computed in machine words, as the source does:
as long as the size of the arena fits in a word, so does everything on the
way to an offset (`KvShape.slotOffsetIn_checked`), and a build without
overflow checks gets the same offset (`KvShape.slotOffsetIn_wrapping`).
-/

/-- The address of one vector of the arena. -/
@[ext] structure KvIndex where
  layer : ℕ
  block : BlockId
  isValue : Bool
  slot : ℕ
  head : ℕ
  deriving DecidableEq

namespace KvShape

variable {M : Type → Type} [Monad M] (u : Usize.Build M) (k : KvShape) {i j : KvIndex}

/-! ## The offsets in machine words -/

/-- The number of scalars `KvStore::new` allocates. -/
def sizeIn : M ℕ := do
  let n ← u.mul k.numLayers k.numBlocks
  let n ← u.mul n 2
  let n ← u.mul n k.blockSize
  let n ← u.mul n k.numKvHeads
  u.mul n k.headDim

/-- `block_stride` in machine words. -/
def blockStrideIn : M ℕ := do
  let n ← u.mul k.blockSize k.numKvHeads
  u.mul n k.headDim

/-- `region_offset` in machine words. -/
def regionOffsetIn (layer : ℕ) (block : BlockId) (isValue : Bool) : M ℕ := do
  let perBlock ← u.mul 2 (← k.blockStrideIn u)
  let perLayer ← u.mul k.numBlocks perBlock
  let a ← u.mul layer perLayer
  let b ← u.mul block.index perBlock
  let ab ← u.add a b
  let v ← u.mul isValue.toNat (← k.blockStrideIn u)
  u.add ab v

/-- `slot_offset` in machine words. -/
def slotOffsetIn (i : KvIndex) : M ℕ := do
  let region ← k.regionOffsetIn u i.layer i.block i.isValue
  let row ← u.mul i.slot k.numKvHeads
  let row ← u.add row i.head
  let off ← u.mul row k.headDim
  u.add region off

/-- The number of scalars of the arena. -/
def size : ℕ :=
  k.numLayers * k.numBlocks * 2 * k.blockSize * k.numKvHeads * k.headDim

/-- The arena has this vector. -/
def Holds (i : KvIndex) : Prop := k.InBounds i.layer i.block i.slot ∧ i.head < k.numKvHeads

/-- The offset of a vector. -/
def offset (i : KvIndex) : ℕ := k.slotOffset i.layer i.block i.isValue i.slot i.head

theorem sizeIn_checked {n : ℕ} : k.sizeIn Usize.checked = some n
    ↔ (k.numLayers * k.numBlocks < 2 ^ 64 ∧ k.numLayers * k.numBlocks * 2 < 2 ^ 64
        ∧ k.numLayers * k.numBlocks * 2 * k.blockSize < 2 ^ 64
        ∧ k.numLayers * k.numBlocks * 2 * k.blockSize * k.numKvHeads < 2 ^ 64
        ∧ k.size < 2 ^ 64) ∧ n = k.size := by
  simp only [sizeIn, Option.bind_eq_bind, Option.bind_eq_some_iff, Usize.checked_mul_eq_some_iff]
  constructor
  · rintro ⟨_, ⟨h₁, rfl⟩, _, ⟨h₂, rfl⟩, _, ⟨h₃, rfl⟩, _, ⟨h₄, rfl⟩, h₅, rfl⟩
    exact ⟨⟨h₁, h₂, h₃, h₄, h₅⟩, rfl⟩
  · rintro ⟨⟨h₁, h₂, h₃, h₄, h₅⟩, rfl⟩
    exact ⟨_, ⟨h₁, rfl⟩, _, ⟨h₂, rfl⟩, _, ⟨h₃, rfl⟩, _, ⟨h₄, rfl⟩, h₅, rfl⟩

variable {k}

/-- **Wrapping around does no harm**: the offset is right modulo the word. -/
theorem slotOffsetIn_wrapping (i : KvIndex) :
    (k.slotOffsetIn Usize.wrapping i).run = k.offset i % 2 ^ 64 := by
  have hstride : (k.blockStrideIn Usize.wrapping).run = k.blockStride % 2 ^ 64 := by
    show k.blockSize * k.numKvHeads % 2 ^ 64 * k.headDim % 2 ^ 64 = _
    rw [Nat.mod_mul_mod]
    rfl
  have hregion : (k.regionOffsetIn Usize.wrapping i.layer i.block i.isValue).run
      = k.regionOffset i.layer i.block i.isValue % 2 ^ 64 := by
    show (((i.layer * (k.numBlocks * (2 * (k.blockStrideIn Usize.wrapping).run % 2 ^ 64)
      % 2 ^ 64) % 2 ^ 64) + (i.block.index * (2 * (k.blockStrideIn Usize.wrapping).run % 2 ^ 64)
      % 2 ^ 64)) % 2 ^ 64 + i.isValue.toNat * (k.blockStrideIn Usize.wrapping).run % 2 ^ 64)
      % 2 ^ 64 = _
    rw [hstride]
    simp only [Nat.mul_mod_mod, Nat.add_mod_mod, Nat.mod_add_mod]
    rfl
  show ((k.regionOffsetIn Usize.wrapping i.layer i.block i.isValue).run
    + (i.slot * k.numKvHeads % 2 ^ 64 + i.head) % 2 ^ 64 * k.headDim % 2 ^ 64) % 2 ^ 64 = _
  rw [hregion]
  simp only [Nat.mod_mul_mod, Nat.add_mod_mod, Nat.mod_add_mod]
  rfl

/-- **Every vector lies within the arena.** -/
theorem Holds.offset_add_le (h : k.Holds i) : k.offset i + k.headDim ≤ k.size := by
  unfold offset size
  rw [slotOffset_eq, ← Nat.succ_mul]
  exact Nat.mul_le_mul_right _ (vectorIndex_lt h.1 h.2)

/-- **Different addresses are different ranges.** -/
theorem Holds.disjoint (hi : k.Holds i) (hj : k.Holds j) (hne : i ≠ j) :
    k.offset i + k.headDim ≤ k.offset j ∨ k.offset j + k.headDim ≤ k.offset i := by
  unfold offset
  rw [slotOffset_eq, slotOffset_eq, ← Nat.succ_mul, ← Nat.succ_mul]
  rcases Nat.lt_trichotomy (k.vectorIndex i.layer i.block i.isValue i.slot i.head)
    (k.vectorIndex j.layer j.block j.isValue j.slot j.head) with hlt | heq | hgt
  · exact Or.inl (Nat.mul_le_mul_right _ hlt)
  · obtain ⟨h₁, h₂, h₃, h₄⟩ := vectorIndex_injective hi.1 hi.2 hj.1 hj.2 heq
    obtain ⟨h₂, h₅⟩ := Prod.ext_iff.mp h₂
    exact absurd (KvIndex.ext h₁ h₂ h₄ h₅ h₃) hne
  · exact Or.inr (Nat.mul_le_mul_right _ hgt)

theorem blockStrideIn_checked (hrow : k.blockSize * k.numKvHeads < 2 ^ 64)
    (hstride : k.blockStride < 2 ^ 64) :
    k.blockStrideIn Usize.checked = some k.blockStride := by
  rw [blockStrideIn, Usize.checked_mul hrow, Option.bind_eq_bind, Option.bind_some]
  exact Usize.checked_mul hstride

/-- Whatever the region offset is put together from is no greater than it. -/
theorem regionOffsetIn_checked {layer : ℕ} {block : BlockId} {isValue : Bool}
    (hstride : k.blockStrideIn Usize.checked = some k.blockStride)
    (hlayer : k.numBlocks * (2 * k.blockStride) < 2 ^ 64) (hblocks : 1 ≤ k.numBlocks)
    (h : k.regionOffset layer block isValue < 2 ^ 64) :
    k.regionOffsetIn Usize.checked layer block isValue
      = some (k.regionOffset layer block isValue) := by
  have hsum : k.regionOffset layer block isValue = layer * (k.numBlocks * (2 * k.blockStride))
    + block.index * (2 * k.blockStride) + isValue.toNat * k.blockStride := rfl
  have hpair : 2 * k.blockStride < 2 ^ 64 :=
    (Nat.le_mul_of_pos_left _ hblocks).trans_lt hlayer
  simp only [regionOffsetIn, hstride, Option.bind_eq_bind, Option.bind_some]
  rw [Usize.checked_mul hpair, Option.bind_some, Usize.checked_mul hlayer, Option.bind_some,
    Usize.checked_mul (by omega), Option.bind_some, Usize.checked_mul (by omega),
    Option.bind_some, Usize.checked_add (by omega), Option.bind_some,
    Usize.checked_mul (by omega), Option.bind_some, Usize.checked_add (hsum ▸ h), hsum]

/-- **Everything on the way to an offset fits** as soon as the size of the
arena does. -/
theorem Holds.slotOffsetIn_checked (h : k.Holds i) {n : ℕ}
    (hn : k.sizeIn Usize.checked = some n) :
    k.slotOffsetIn Usize.checked i = some (k.offset i) := by
  obtain ⟨⟨-, -, -, hrows, hsize⟩, -⟩ := k.sizeIn_checked.mp hn
  have hoff : k.offset i < 2 ^ 64 :=
    (Nat.le_add_right _ _).trans_lt (h.offset_add_le.trans_lt hsize)
  obtain ⟨⟨hlayer, hblock, hslot⟩, hhead⟩ := h
  have hsum : k.offset i = k.regionOffset i.layer i.block i.isValue
    + (i.slot * k.numKvHeads + i.head) * k.headDim := rfl
  -- the rows of a block, and what a layer holds
  have hrow : k.blockSize * k.numKvHeads < 2 ^ 64 := by
    refine lt_of_le_of_lt ?_ hrows
    rw [Nat.mul_assoc _ k.blockSize]
    exact Nat.le_mul_of_pos_left _ (Nat.mul_pos (Nat.mul_pos (by omega) (by omega)) two_pos)
  have hrest : k.numBlocks * (2 * k.blockStride) < 2 ^ 64 := by
    have hsize' : k.size = k.numLayers * (k.numBlocks * (2 * k.blockStride)) := by
      unfold size blockStride
      ring
    exact (Nat.le_mul_of_pos_left _ (by omega)).trans_lt (hsize' ▸ hsize)
  have hstride : k.blockStride < 2 ^ 64 := by
    have := Nat.le_mul_of_pos_left (2 * k.blockStride) (show 0 < k.numBlocks by omega)
    omega
  have hdigit := digit_lt hslot hhead
  rw [slotOffsetIn, regionOffsetIn_checked (blockStrideIn_checked hrow hstride) hrest (by omega)
    (by omega)]
  simp only [Option.bind_eq_bind, Option.bind_some]
  rw [Usize.checked_mul (by omega), Option.bind_some, Usize.checked_add (by omega),
    Option.bind_some, Usize.checked_mul (by omega), Option.bind_some,
    Usize.checked_add (hsum ▸ hoff), hsum]

end KvShape

namespace KvStore

variable {F : Type*}

/-- Whatever is refused leaves the arena as it is. -/
theorem write_of_refused {kv : KvStore F} {layer slot head : ℕ} {block : BlockId}
    {isValue : Bool} {vector : List F}
    (h : ¬ ((kv.InBounds layer block slot ∧ head < kv.numKvHeads)
      ∧ vector.length = kv.headDim)) :
    ∃ e, kv.write layer block slot head isValue vector = (kv, .error e) := by
  rcases hc : kv.checkBounds layer block slot head vector.length with e | ⟨⟩
  · exact ⟨e, by simp only [write, hc]⟩
  · obtain ⟨hb, hh, hlen⟩ := KvShape.checkBounds_eq_ok_iff.mp hc
    exact absurd ⟨⟨hb, hh⟩, hlen⟩ h

theorem read_of_refused {kv : KvStore F} {layer slot head : ℕ} {block : BlockId}
    {isValue : Bool} (h : ¬ (kv.InBounds layer block slot ∧ head < kv.numKvHeads)) :
    ∃ e, kv.read layer block slot head isValue = .error e := by
  rcases hc : kv.checkBounds layer block slot head kv.headDim with e | ⟨⟩
  · exact ⟨e, by simp only [read, hc]⟩
  · obtain ⟨hb, hh, -⟩ := KvShape.checkBounds_eq_ok_iff.mp hc
    exact absurd ⟨hb, hh⟩ h

/-- **The arena has no aliasing.** In an arena whose size fits in a word, a
vector lies within the data, at an offset that is computed without overflow;
different vectors lie apart; what is written is read back and nothing else
changes; and what is out of bounds or of the wrong length is refused and
changes nothing. -/
theorem no_aliasing (kv : KvStore F) (hfits : kv.toKvShape.size < 2 ^ 64) :
    (∀ i, kv.Holds i →
      kv.offset i + kv.headDim ≤ kv.data.length
      ∧ (kv.slotOffsetIn Usize.wrapping i).run = kv.offset i
      ∧ ∀ n, kv.sizeIn Usize.checked = some n →
        kv.slotOffsetIn Usize.checked i = some (kv.offset i))
    ∧ (∀ i j, kv.Holds i → kv.Holds j → i ≠ j →
      kv.offset i + kv.headDim ≤ kv.offset j ∨ kv.offset j + kv.headDim ≤ kv.offset i)
    ∧ (∀ i vector, kv.Holds i → vector.length = kv.headDim →
      (kv.write i.layer i.block i.slot i.head i.isValue vector).2 = .ok ()
      ∧ (kv.write i.layer i.block i.slot i.head i.isValue vector).1.read i.layer i.block i.slot
          i.head i.isValue = .ok vector
      ∧ ∀ j, j ≠ i →
        (kv.write i.layer i.block i.slot i.head i.isValue vector).1.read j.layer j.block j.slot
          j.head j.isValue = kv.read j.layer j.block j.slot j.head j.isValue)
    ∧ (∀ i vector, ¬ (kv.Holds i ∧ vector.length = kv.headDim) →
      ∃ e, kv.write i.layer i.block i.slot i.head i.isValue vector = (kv, .error e))
    ∧ ∀ i, ¬ kv.Holds i → ∃ e, kv.read i.layer i.block i.slot i.head i.isValue = .error e := by
  refine ⟨fun i hi => ⟨?_, ?_, fun n hn => hi.slotOffsetIn_checked hn⟩,
    fun i j hi hj hne => hi.disjoint hj hne, fun i vector hi hlen => ?_,
    fun i vector h => write_of_refused h, fun i h => read_of_refused h⟩
  · exact hi.offset_add_le.trans_eq kv.sized.symm
  · have hlt : kv.offset i < 2 ^ 64 :=
      (Nat.le_add_right _ _).trans_lt (hi.offset_add_le.trans_lt hfits)
    rw [KvShape.slotOffsetIn_wrapping, Nat.mod_eq_of_lt hlt]
  · have hok : (kv.write i.layer i.block i.slot i.head i.isValue vector).2 = .ok () :=
      write_eq_ok_iff.mpr ⟨hi.1, hi.2, hlen⟩
    refine ⟨hok, read_write_self hok, fun j hne => read_write_of_ne ?_⟩
    rintro ⟨h₁, h₂, h₃, h₄⟩
    obtain ⟨h₂, h₅⟩ := Prod.ext_iff.mp h₂
    exact hne (KvIndex.ext h₁ h₂ h₄ h₅ h₃)

/-- One layer of one block with two slots, and one head of width two: the
vector of slot 1 is written, and the key and the value of slot 0 stay. -/
theorem no_aliasing_twoSlots :
    let kv : KvStore ℕ := ⟨⟨1, 1, 2, 1, 2⟩, [1, 2, 3, 4, 5, 6, 7, 8], rfl⟩
    (kv.write 0 ⟨0⟩ 1 0 false [0, 9]).1.read 0 ⟨0⟩ 1 0 false = .ok [0, 9]
    ∧ (kv.write 0 ⟨0⟩ 1 0 false [0, 9]).1.read 0 ⟨0⟩ 0 0 true
      = kv.read 0 ⟨0⟩ 0 0 true := by
  intro kv
  have hall := no_aliasing kv (by decide)
  have hw := hall.2.2.1 ⟨0, ⟨0⟩, false, 1, 0⟩ [0, 9] ⟨⟨by decide, by decide, by decide⟩,
    by decide⟩ rfl
  exact ⟨hw.2.1, hw.2.2 ⟨0, ⟨0⟩, true, 0, 0⟩ (by decide)⟩

end KvStore
