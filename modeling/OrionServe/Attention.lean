import OrionServe.Batch
import OrionServe.Tensor

/-!
# The KV store and paged attention

All keys and values lie in one flat arena,
`[layer][block][k_or_v][slot][head][dim]`. A vector of it is addressed by
layer, block, slot, head and whether it is a value; different addresses are
different vectors (`KvStore.read_write_of_ne`), and the arena holds nothing
else (`KvStore.ext_of_read`). So the arena may be read as a function of layer
and physical slot, its `view`.

Attention of a query at position `p` reads the keys and values of the
positions up to `p` and of no other one, through the block table
(`attendOver_congr`).
-/

open Tensor Scalars

/-- The dimensions of the arena. -/
structure KvShape where
  numLayers : ℕ
  numBlocks : ℕ
  blockSize : ℕ
  numKvHeads : ℕ
  headDim : ℕ
  deriving DecidableEq

/-- Flat storage for all keys and values across all layers and blocks. -/
structure KvStore (F : Type*) extends KvShape where
  data : List F
  sized : data.length
    = toKvShape.numLayers * toKvShape.numBlocks * 2 * toKvShape.blockSize
        * toKvShape.numKvHeads * toKvShape.headDim

namespace KvShape

variable (k : KvShape)

/-- Elements spanned by one block's keys (or values) for one layer. -/
def blockStride : ℕ := k.blockSize * k.numKvHeads * k.headDim

/-- Offset of a (layer, block, key-or-value) region. -/
def regionOffset (layer : ℕ) (block : BlockId) (isValue : Bool) : ℕ :=
  let perBlock := 2 * k.blockStride
  let perLayer := k.numBlocks * perBlock
  layer * perLayer + block.index * perBlock + isValue.toNat * k.blockStride

/-- Offset of one head's vector at one slot within a block. -/
def slotOffset (layer : ℕ) (block : BlockId) (isValue : Bool) (slot head : ℕ) : ℕ :=
  k.regionOffset layer block isValue + (slot * k.numKvHeads + head) * k.headDim

/-- A head there is not. -/
def headFault (head : ℕ) : Fault :=
  .internal ["kv head ", .nat head, " out of range (have ", .nat k.numKvHeads, ")"]

def checkBounds (layer : ℕ) (block : BlockId) (slot head vecLen : ℕ) : Except Fault Unit :=
  if k.numLayers ≤ layer then
    .error (.internal ["layer ", .nat layer, " out of range (have ", .nat k.numLayers, ")"])
  else if k.numBlocks ≤ block.index then
    .error (.internal ["block ", .blk block, " out of range (have ", .nat k.numBlocks, ")"])
  else if k.blockSize ≤ slot then
    .error (.internal ["slot ", .nat slot, " out of range (block holds ", .nat k.blockSize, ")"])
  else if k.numKvHeads ≤ head then .error (k.headFault head)
  else if vecLen ≠ k.headDim then
    .error (.internal ["vector length ", .nat vecLen, " does not match head_dim ",
      .nat k.headDim])
  else .ok ()

/-- The physical slot is one of the arena. -/
structure InBounds (layer : ℕ) (block : BlockId) (slot : ℕ) : Prop where
  layer : layer < k.numLayers
  block : block.index < k.numBlocks
  slot : slot < k.blockSize

variable {k} {layer layer' : ℕ} {block block' : BlockId} {slot slot' head head' vecLen : ℕ}
  {isValue isValue' : Bool}

theorem checkBounds_eq_ok_iff : k.checkBounds layer block slot head vecLen = .ok ()
    ↔ k.InBounds layer block slot ∧ head < k.numKvHeads ∧ vecLen = k.headDim := by
  unfold checkBounds
  split_ifs with h₁ h₂ h₃ h₄ h₅
  · exact ⟨fun h => by simp at h, fun h => absurd h.1.layer (not_lt.mpr h₁)⟩
  · exact ⟨fun h => by simp at h, fun h => absurd h.1.block (not_lt.mpr h₂)⟩
  · exact ⟨fun h => by simp at h, fun h => absurd h.1.slot (not_lt.mpr h₃)⟩
  · exact ⟨fun h => by simp at h, fun h => absurd h.2.1 (not_lt.mpr h₄)⟩
  · exact ⟨fun h => by simp at h, fun h => absurd h.2.2 h₅⟩
  · exact ⟨fun _ => ⟨⟨not_le.mp h₁, not_le.mp h₂, not_le.mp h₃⟩, not_le.mp h₄, not_not.mp h₅⟩,
      fun _ => rfl⟩

theorem InBounds.checkBounds_of_head (h : k.InBounds layer block slot)
    (hh : k.numKvHeads ≤ head) :
    k.checkBounds layer block slot head vecLen = .error (k.headFault head) := by
  unfold checkBounds
  rw [if_neg (not_le.mpr h.layer), if_neg (not_le.mpr h.block), if_neg (not_le.mpr h.slot),
    if_pos hh]

/-- The number of a vector in the arena. -/
def vectorIndex (k : KvShape) (layer : ℕ) (block : BlockId) (isValue : Bool) (slot head : ℕ) :
    ℕ :=
  (((layer * k.numBlocks + block.index) * 2 + isValue.toNat) * k.blockSize + slot)
    * k.numKvHeads + head

theorem slotOffset_eq (k : KvShape) : k.slotOffset layer block isValue slot head
    = k.vectorIndex layer block isValue slot head * k.headDim := by
  unfold slotOffset regionOffset blockStride vectorIndex
  ring

/-- One digit more stays within the numbers with one digit more. -/
theorem digit_lt {a A b n : ℕ} (ha : a < A) (hb : b < n) : a * n + b < A * n :=
  calc a * n + b < a * n + n := Nat.add_lt_add_left hb _
    _ = (a + 1) * n := (Nat.succ_mul a n).symm
    _ ≤ A * n := Nat.mul_le_mul_right n ha

theorem digit_injective {a a' b b' n : ℕ} (hb : b < n) (hb' : b' < n)
    (h : a * n + b = a' * n + b') : a = a' ∧ b = b' := by
  have hpos : 0 < n := Nat.zero_lt_of_lt hb
  have hdiv : ∀ {c d : ℕ}, d < n → (c * n + d) / n = c := fun {c d} hd => by
    rw [Nat.mul_comm, Nat.mul_add_div hpos, Nat.div_eq_of_lt hd, Nat.add_zero]
  have ha : a = a' :=
    (hdiv hb).symm.trans ((congrArg (fun i => i / n) h).trans (hdiv hb'))
  subst ha
  exact ⟨rfl, Nat.add_left_cancel h⟩

theorem toNat_lt_two (b : Bool) : b.toNat < 2 := Nat.lt_succ_of_le (Bool.toNat_le b)

theorem vectorIndex_lt (h : k.InBounds layer block slot) (hh : head < k.numKvHeads) :
    k.vectorIndex layer block isValue slot head
      < k.numLayers * k.numBlocks * 2 * k.blockSize * k.numKvHeads :=
  digit_lt (digit_lt (digit_lt (digit_lt h.layer h.block) (toNat_lt_two isValue)) h.slot) hh

/-- **Different addresses are different vectors.** -/
theorem vectorIndex_injective (h : k.InBounds layer block slot) (hh : head < k.numKvHeads)
    (h' : k.InBounds layer' block' slot') (hh' : head' < k.numKvHeads)
    (heq : k.vectorIndex layer block isValue slot head
      = k.vectorIndex layer' block' isValue' slot' head') :
    layer = layer' ∧ (block, slot) = (block', slot') ∧ head = head' ∧ isValue = isValue' := by
  obtain ⟨heq, hhead⟩ := digit_injective hh hh' heq
  obtain ⟨heq, hslot⟩ := digit_injective h.slot h'.slot heq
  obtain ⟨heq, hvalue⟩ := digit_injective (toNat_lt_two _) (toNat_lt_two _) heq
  obtain ⟨hlayer, hblock⟩ := digit_injective h.block h'.block heq
  refine ⟨hlayer, Prod.ext (BlockId.index_injective hblock) hslot, hhead, ?_⟩
  cases isValue <;> cases isValue' <;> first | rfl | exact absurd hvalue (by decide)

/-- Every vector of the arena has an address. -/
theorem exists_vectorIndex {j : ℕ}
    (hj : j < k.numLayers * k.numBlocks * 2 * k.blockSize * k.numKvHeads) :
    ∃ layer block isValue slot head, k.InBounds layer block slot ∧ head < k.numKvHeads
      ∧ k.vectorIndex layer block isValue slot head = j := by
  have hsplit : ∀ {i A n : ℕ}, i < A * n → ∃ a b, a < A ∧ b < n ∧ a * n + b = i := by
    intro i A n hi
    have hn : 0 < n := Nat.pos_of_mul_pos_left (Nat.zero_lt_of_lt hi)
    refine ⟨i / n, i % n, Nat.div_lt_of_lt_mul (Nat.mul_comm A n ▸ hi), Nat.mod_lt _ hn, ?_⟩
    rw [Nat.mul_comm, Nat.div_add_mod]
  obtain ⟨j₁, head, hj₁, hhead, rfl⟩ := hsplit hj
  obtain ⟨j₂, slot, hj₂, hslot, rfl⟩ := hsplit hj₁
  obtain ⟨j₃, v, hj₃, hv, rfl⟩ := hsplit hj₂
  obtain ⟨layer, block, hlayer, hblock, rfl⟩ := hsplit hj₃
  refine ⟨layer, ⟨block⟩, decide (v = 1), slot, head, ⟨hlayer, hblock, hslot⟩, hhead, ?_⟩
  have hvn : (decide (v = 1)).toNat = v := by
    interval_cases v <;> rfl
  unfold vectorIndex
  rw [hvn]
  rfl

end KvShape

namespace KvStore

variable {F D : Type*} {kv kv' : KvStore F} {layer layer' : ℕ} {block block' : BlockId}
  {slot slot' head head' : ℕ} {isValue isValue' : Bool} {vector : List F}

/-- Allocates the arena. -/
def new [Scalars F D] (shape : KvShape) : KvStore F where
  toKvShape := shape
  data := List.replicate (shape.numLayers * shape.numBlocks * 2 * shape.blockSize
    * shape.numKvHeads * shape.headDim) zero
  sized := List.length_replicate

/-- Writes one key or value vector into the cache. -/
def write (kv : KvStore F) (layer : ℕ) (block : BlockId) (slot head : ℕ) (isValue : Bool)
    (vector : List F) : KvStore F × Except Fault Unit :=
  match kv.checkBounds layer block slot head vector.length with
  | .error e => (kv, .error e)
  | .ok () =>
    ({ kv with
        data := kv.data.patch (kv.slotOffset layer block isValue slot head) vector
        sized := by rw [List.length_patch, kv.sized] }, .ok ())

/-- Reads one key or value vector from the cache. -/
def read (kv : KvStore F) (layer : ℕ) (block : BlockId) (slot head : ℕ) (isValue : Bool) :
    Except Fault (List F) :=
  match kv.checkBounds layer block slot head kv.headDim with
  | .error e => .error e
  | .ok () => .ok (kv.data.slice (kv.slotOffset layer block isValue slot head) kv.headDim)

/-- The arena as a function of layer and physical slot. -/
def view (kv : KvStore F) (layer : ℕ) (a : BlockId × ℕ) (head : ℕ) (isValue : Bool) :
    Except Fault (List F) :=
  kv.read layer a.1 a.2 head isValue

theorem shape_write : (kv.write layer block slot head isValue vector).1.toKvShape
    = kv.toKvShape := by
  unfold write
  split <;> rfl

theorem write_eq_ok_iff : (kv.write layer block slot head isValue vector).2 = .ok ()
    ↔ kv.InBounds layer block slot ∧ head < kv.numKvHeads ∧ vector.length = kv.headDim := by
  rw [← KvShape.checkBounds_eq_ok_iff]
  unfold write
  split <;> simp_all

theorem offset_add_le (h : kv.InBounds layer block slot) (hh : head < kv.numKvHeads) :
    kv.slotOffset layer block isValue slot head + kv.headDim ≤ kv.data.length := by
  rw [kv.sized, KvShape.slotOffset_eq, ← Nat.succ_mul]
  exact Nat.mul_le_mul_right _ (KvShape.vectorIndex_lt h hh)

/-- What was written is read back. -/
theorem read_write_self (h : (kv.write layer block slot head isValue vector).2 = .ok ()) :
    (kv.write layer block slot head isValue vector).1.read layer block slot head isValue
      = .ok vector := by
  obtain ⟨hb, hh, hlen⟩ := write_eq_ok_iff.mp h
  have hcheck : kv.checkBounds layer block slot head kv.headDim = .ok () :=
    KvShape.checkBounds_eq_ok_iff.mpr ⟨hb, hh, rfl⟩
  simp only [write, hlen, hcheck, read]
  refine congrArg Except.ok ?_
  have hle : kv.slotOffset layer block isValue slot head + vector.length ≤ kv.data.length :=
    hlen.symm ▸ offset_add_le hb hh
  exact hlen ▸ List.slice_patch hle

/-- **A write leaves every other vector.** -/
theorem read_write_of_ne
    (hne : ¬ (layer' = layer ∧ (block', slot') = (block, slot) ∧ head' = head
      ∧ isValue' = isValue)) :
    (kv.write layer block slot head isValue vector).1.read layer' block' slot' head' isValue'
      = kv.read layer' block' slot' head' isValue' := by
  rcases hw : kv.checkBounds layer block slot head vector.length with e | ⟨⟩
  · simp only [write, hw]
  rcases hr : kv.checkBounds layer' block' slot' head' kv.headDim with e | ⟨⟩
  · simp only [write, hw, read, hr]
  obtain ⟨hb, hh, hlen⟩ := KvShape.checkBounds_eq_ok_iff.mp hw
  obtain ⟨hb', hh', -⟩ := KvShape.checkBounds_eq_ok_iff.mp hr
  simp only [write, hw, read, hr]
  refine congrArg Except.ok (List.slice_patch_of_disjoint ?_)
  rw [KvShape.slotOffset_eq, KvShape.slotOffset_eq, hlen, ← Nat.succ_mul, ← Nat.succ_mul]
  rcases Nat.lt_trichotomy (kv.vectorIndex layer block isValue slot head)
    (kv.vectorIndex layer' block' isValue' slot' head') with hlt | heq | hgt
  · exact Or.inl (Nat.mul_le_mul_right _ hlt)
  · obtain ⟨h₁, h₂, h₃, h₄⟩ := KvShape.vectorIndex_injective hb hh hb' hh' heq
    exact absurd ⟨h₁.symm, h₂.symm, h₃.symm, h₄.symm⟩ hne
  · exact Or.inr (Nat.mul_le_mul_right _ hgt)

theorem ext_of_data (hshape : kv.toKvShape = kv'.toKvShape) (hdata : kv.data = kv'.data) :
    kv = kv' := by
  obtain ⟨shape, data, sized⟩ := kv
  obtain ⟨shape', data', sized'⟩ := kv'
  obtain rfl : shape = shape' := hshape
  obtain rfl : data = data' := hdata
  rfl

/-- **The arena holds nothing but its vectors.** -/
theorem ext_of_view (hshape : kv.toKvShape = kv'.toKvShape) (hview : kv.view = kv'.view) :
    kv = kv' := by
  refine ext_of_data hshape (List.ext_getElem? (fun i => ?_))
  by_cases hi : i < kv.data.length
  · have hi' := hi
    rw [kv.sized] at hi'
    have hdim : 0 < kv.headDim := Nat.pos_of_mul_pos_left (Nat.zero_lt_of_lt hi')
    obtain ⟨layer, block, isValue, slot, head, hb, hh, hj⟩ :=
      KvShape.exists_vectorIndex (Nat.div_lt_of_lt_mul (Nat.mul_comm _ kv.headDim ▸ hi'))
    have hread : kv.read layer block slot head isValue = kv'.read layer block slot head isValue :=
      congrFun (congrFun (congrFun (congrFun hview layer) (block, slot)) head) isValue
    have hcheck : kv.checkBounds layer block slot head kv.headDim = .ok () :=
      KvShape.checkBounds_eq_ok_iff.mpr ⟨hb, hh, rfl⟩
    simp only [read, hcheck, ← hshape] at hread
    have hat := congrArg (fun l : List F => l[i % kv.headDim]?) (Except.ok.inj hread)
    have hoff : kv.slotOffset layer block isValue slot head + i % kv.headDim = i := by
      rw [KvShape.slotOffset_eq, hj, Nat.mul_comm, Nat.div_add_mod]
    simpa only [List.getElem?_slice, if_pos (Nat.mod_lt i hdim), hoff] using hat
  · have hlen : kv'.data.length = kv.data.length := by
      rw [kv.sized, kv'.sized, hshape]
    rw [List.getElem?_eq_none (not_lt.mp hi), List.getElem?_eq_none (hlen ▸ not_lt.mp hi)]

end KvStore

/-! ## Attention -/

/-- Arguments for one sequence's attention over the paged cache. -/
structure AttentionArgs where
  /-- Physical blocks backing this sequence, in logical order. -/
  blockTable : List BlockId
  /-- Total context length, which attention does not read. -/
  contextLen : ℕ
  /-- Absolute position of the query token. -/
  queryPosition : ℕ
  layer : ℕ
  numQueryHeads : ℕ
  numKvHeads : ℕ
  headDim : ℕ
  blockSize : ℕ

section Attention

variable {F D : Type*} [Scalars F D] {n : ℕ}

/-- The key or value of a position, through the block table. -/
def AttentionArgs.fetch (args : AttentionArgs)
    (read : BlockId × ℕ → ℕ → Bool → Except Fault (List F)) (pos kvHead : ℕ) (isValue : Bool)
    (unmapped : Fault) : Except Fault (List F) :=
  match locate args.blockTable pos args.blockSize with
  | none => .error unmapped
  | some a => read a kvHead isValue

/-- The scores of one query head against every key up to the causal limit. -/
def AttentionArgs.scores (args : AttentionArgs)
    (read : BlockId × ℕ → ℕ → Bool → Except Fault (List F)) (q : List F) (kvHead : ℕ) :
    Except Fault (List F) :=
  let scale : F := div one (sqrt (ofNat args.headDim))
  (List.range (args.queryPosition + 1)).mapM (fun pos => do
    let k ← args.fetch read pos kvHead false (.internal ["position ", .nat pos,
      " is outside the block table of ", .nat args.blockTable.length, " blocks"])
    return mul (dot q k) scale)

/-- The output of one query head: the weighted sum of the values. -/
def AttentionArgs.headOutput (args : AttentionArgs)
    (read : BlockId × ℕ → ℕ → Bool → Except Fault (List F)) (q : List F) (kvHead : ℕ) :
    Except Fault (List F) := do
  let scores ← args.scores read q kvHead
  (softmaxInplace scores).zipIdx.foldlM (fun o p =>
    -- a position of weight zero is not read
    if isZero p.1 then .ok o
    else do
      let v ← args.fetch read p.2 kvHead true
        (.internal ["position ", .nat p.2, " unmapped"])
      return List.zipInto (fun acc val => add acc (mul p.1 val)) o v)
    (List.replicate args.headDim zero)

/-- Attention of one query over one layer of the cache, given by how it is
read. -/
def attendOver (read : BlockId × ℕ → ℕ → Bool → Except Fault (List F)) (query : List F)
    (args : AttentionArgs) (out : RowVec F n) : Except Fault (RowVec F n) :=
  if query.length ≠ args.numQueryHeads * args.headDim ∨ n ≠ query.length then
    .error (.internal ["attention expected ", .nat (args.numQueryHeads * args.headDim),
      " query elements, got ", .nat query.length, " (out ", .nat n, ")"])
  else if args.numKvHeads = 0 ∨ args.numQueryHeads % args.numKvHeads ≠ 0 then
    .error (.internal [.nat args.numQueryHeads, " query heads cannot be grouped over ",
      .nat args.numKvHeads, " kv heads"])
  else
    let groupSize := args.numQueryHeads / args.numKvHeads
    (List.range args.numQueryHeads).foldlM (fun out qh => do
      let o ← args.headOutput read (query.slice (qh * args.headDim) args.headDim)
        (qh / groupSize)
      return ⟨out.1.patch (qh * args.headDim) o, by rw [List.length_patch, out.2]⟩) out

/-- Computes attention for one query token against the cached keys and
values. -/
def pagedAttention (store : KvStore F) (query : List F) (args : AttentionArgs)
    (out : RowVec F n) : Except Fault (RowVec F n) :=
  attendOver (store.view args.layer) query args out

variable {read read' : BlockId × ℕ → ℕ → Bool → Except Fault (List F)} {args : AttentionArgs}

theorem length_scores {q : List F} {kvHead : ℕ} {ss : List F}
    (h : args.scores read q kvHead = .ok ss) : ss.length = args.queryPosition + 1 := by
  have hlen := (List.mapM_eq_ok_iff.mp h).length_eq
  rw [List.length_range] at hlen
  exact hlen.symm

/-- **Attention reads the positions up to the query's**, and no other. -/
theorem attendOver_congr {query : List F} {out : RowVec F n}
    (h : ∀ pos ≤ args.queryPosition, ∀ a, locate args.blockTable pos args.blockSize = some a →
      read a = read' a) :
    attendOver read query args out = attendOver read' query args out := by
  have hfetch : ∀ pos ≤ args.queryPosition, ∀ kvHead isValue unmapped,
      args.fetch read pos kvHead isValue unmapped
        = args.fetch read' pos kvHead isValue unmapped := by
    intro pos hpos kvHead isValue unmapped
    unfold AttentionArgs.fetch
    rcases hloc : locate args.blockTable pos args.blockSize with - | a
    · rfl
    · exact congrFun (congrFun (h pos hpos a hloc) kvHead) isValue
  have hscores : ∀ q kvHead, args.scores read q kvHead = args.scores read' q kvHead := by
    intro q kvHead
    refine List.mapM_congr (fun pos hpos => ?_)
    simp only [hfetch pos (Nat.le_of_lt_succ (List.mem_range.mp hpos))]
  have hhead : ∀ q kvHead, args.headOutput read q kvHead = args.headOutput read' q kvHead := by
    intro q kvHead
    unfold AttentionArgs.headOutput
    rw [← hscores]
    rcases hss : args.scores read q kvHead with e | ss
    · rfl
    refine List.foldlM_congr_of_mem (fun o p hp => ?_)
    have hlt := List.snd_lt_of_mem_zipIdx hp
    rw [Nat.add_zero, length_softmaxInplace, length_scores hss] at hlt
    simp only [hfetch p.2 (Nat.le_of_lt_succ hlt)]
  unfold attendOver
  simp only [hhead]

end Attention
