import OrionServe.ContiguousAttention
import OrionServe.Lib.Contents

/-!
# What the cache is for

A transformer has no cache. The hidden state of a token after a layer is
computed from the states that the tokens up to it have before the layer:
`TransformerModel.hiddenOf` says so, for the last token of a list, and
computes everything anew. The forward pass instead reads the keys and values
of earlier tokens from an arena, where it finds them by block tables, and has
not computed them itself.

The two are the same on any row that finds, for each position up to its own,
the key and the value of *the tokens up to that position*. Which slot holds
which tokens is kept beside the arena (`TransformerModel.Contents`); what is in
it is determined by the block tables and the positions of the rows, and no
number is looked at. Neither who wrote an entry matters nor in which pass, in
which order, or in which block.
-/

open Tensor Scalars

namespace TransformerModel

variable {F D : Type*} [Scalars F D] (m : TransformerModel F)

/-- A table that reaches a position reaches those before it. -/
theorem locate_isSome_of_le {table : List BlockId} {pos pos' bs : ℕ} (hle : pos ≤ pos')
    (h : (locate table pos' bs).isSome) : (locate table pos bs).isSome := by
  unfold locate at h ⊢
  rw [Option.isSome_map, isSome_getElem?] at h ⊢
  exact (Nat.div_le_div_right hle).trans_lt h

/-! ## The transformer without a cache -/

/-- The key and the value of the last token at a layer, from the states before
the layer. -/
def keyValueFrom (w : LayerWeights F) (hidden : List TokenId → Except Fault m.Hidden)
    (tokens : List TokenId) : Except Fault (List F × List F) := do
  let x ← hidden tokens
  let y ← m.projectRow w x (tokens.length - 1)
  return (y.2.1.1, y.2.2.1)

/-- The keys or the values of a KV head at all positions of a list. -/
def headRows (w : LayerWeights F) (hidden : List TokenId → Except Fault m.Hidden)
    (tokens : List TokenId) (isValue : Bool) (head : ℕ) : Except Fault (List (List F)) :=
  (List.range tokens.length).mapM (fun pos => do
    let kv ← m.keyValueFrom w hidden (tokens.take (pos + 1))
    return (if isValue then kv.2 else kv.1).slice (head * m.metadata.headDim) m.metadata.headDim)

/-- The state of the last token after a layer, from the states before it. -/
def layerFrom (w : LayerWeights F) (hidden : List TokenId → Except Fault m.Hidden)
    (tokens : List TokenId) : Except Fault m.Hidden := do
  let x ← hidden tokens
  let y ← m.projectRow w x (tokens.length - 1)
  let attn ← groupedAttention m.metadata.numAttentionHeads m.metadata.numKvHeads
    m.metadata.headDim y.1.1 (m.headRows w hidden tokens false) (m.headRows w hidden tokens true)
  return m.finishRow w x attn

/-- **The hidden state of the last of these tokens** after the first layers. -/
def hiddenOf (m : TransformerModel F) : ℕ → List TokenId → Except Fault m.Hidden
  | 0, tokens => tokens.getLast?.elim (.error .panicked) m.embedRow
  | layer + 1, tokens => m.weights.layers[layer]?.elim (.error .panicked) (fun w =>
      m.layerFrom w (m.hiddenOf layer) tokens)

/-- **The logits of the token after these.** -/
def logitsOf (tokens : List TokenId) : Except Fault (List F) :=
  (m.hiddenOf m.metadata.numLayers tokens).map (fun x => (m.logitsRow x).1)

/-- The key and the value of the last of these tokens at a layer. -/
def keyValueOf (layer : ℕ) (tokens : List TokenId) : Except Fault (List F × List F) :=
  m.weights.layers[layer]?.elim (.error .panicked) (fun w =>
    m.keyValueFrom w (m.hiddenOf layer) tokens)

/-! ## What the rows of a pass stand for -/

/-- What a slot has at a layer once the last of these tokens was written to it. -/
def entryOf (layer : ℕ) (tokens : List TokenId) (head : ℕ) (isValue : Bool) :
    Except Fault (List F) := do
  let kv ← m.keyValueOf layer tokens
  m.entry kv.1 kv.2 head isValue

variable {m} {w : LayerWeights F} {layer : ℕ} {p : Place} {tokens : List TokenId} {x : m.Hidden}
  {kv : KvStore F}

/-- The entry that a row writes. -/
theorem entryOf_eq (hw : m.weights.layers[layer]? = some w)
    (hx : m.hiddenOf layer tokens = .ok x)
    {y : RowVec F w.qProj.rows × RowVec F w.kProj.rows × RowVec F w.vProj.rows}
    (hy : m.projectRow w x (tokens.length - 1) = .ok y) :
    m.entryOf layer tokens = m.entry y.2.1.1 y.2.2.1 := by
  have hkv : m.keyValueOf layer tokens = .ok (y.2.1.1, y.2.2.1) := by
    unfold keyValueOf keyValueFrom
    rw [hw, Option.elim_some, hx]
    show (m.projectRow w x (tokens.length - 1)).bind _ = _
    rw [hy]
    rfl
  funext head isValue
  unfold entryOf
  rw [hkv]
  rfl

/-- Reading a head of an entry. -/
theorem entryOf_head (hw : m.weights.layers[layer]? = some w) {head : ℕ}
    (hhead : head < m.metadata.numKvHeads) (isValue : Bool) :
    m.entryOf layer tokens head isValue = (do
      let kv ← m.keyValueFrom w (m.hiddenOf layer) tokens
      return (if isValue then kv.2 else kv.1).slice (head * m.metadata.headDim)
        m.metadata.headDim) := by
  unfold entryOf keyValueOf entry
  rw [hw, Option.elim_some]
  simp only [if_pos hhead]
  rfl

/-- **Attention over the arena is attention over the tokens**, for a row whose
table leads, at each position up to its own, to the entry of the tokens up to
there. -/
theorem attendPlace_eq_ok (hw : m.weights.layers[layer]? = some w)
    (hlen : p.position + 1 = tokens.length)
    (hloc : (locate p.table p.position m.blockSize).isSome)
    (hread : ∀ pos ≤ p.position, ∀ a, locate p.table pos m.blockSize = some a →
      kv.view layer a = m.entryOf layer (tokens.take (pos + 1)))
    {q : List F} {o : RowVec F (m.metadata.numAttentionHeads * m.metadata.headDim)}
    (h : m.attendPlace layer p (kv.view layer) q = .ok o) :
    groupedAttention m.metadata.numAttentionHeads m.metadata.numKvHeads m.metadata.headDim q
      (m.headRows w (m.hiddenOf layer) tokens false)
      (m.headRows w (m.hiddenOf layer) tokens true) = .ok o.1 := by
  obtain ⟨hsize, hheads⟩ : (q.length = m.metadata.numAttentionHeads * m.metadata.headDim
        ∧ m.metadata.numAttentionHeads * m.metadata.headDim = q.length)
      ∧ m.metadata.numKvHeads ≠ 0
      ∧ m.metadata.numAttentionHeads % m.metadata.numKvHeads = 0 := by
    unfold attendPlace attendOver at h
    split_ifs at h with hsize hheads
    exact ⟨by simpa [not_or, attentionArgs] using hsize,
      by simpa [not_or, attentionArgs] using hheads⟩
  have hgroup := Nat.dvd_of_mod_eq_zero hheads.2
  have hrows : ∀ isValue, ∀ head < m.metadata.numKvHeads,
      (m.attentionArgs layer p).contiguous kv isValue head
        = m.headRows w (m.hiddenOf layer) tokens isValue head := by
    intro isValue head hhead
    unfold AttentionArgs.contiguous headRows
    rw [← hlen]
    refine List.mapM_congr (fun pos hpos => ?_)
    have hle : pos ≤ p.position := Nat.le_of_lt_succ (List.mem_range.mp hpos)
    obtain ⟨a, ha⟩ := Option.isSome_iff_exists.mp (locate_isSome_of_le hle hloc)
    rw [← entryOf_head hw hhead, ← hread pos hle a ha]
    have hloc : locate (m.attentionArgs layer p).blockTable pos
        (m.attentionArgs layer p).blockSize = some a := ha
    rw [AttentionArgs.fetch, hloc]
    rfl
  have hpaged : (pagedAttention kv q (m.attentionArgs layer p)
      ⟨List.replicate _ zero, m.length_zeros⟩).map Subtype.val
      = groupedAttention _ _ _ q ((m.attentionArgs layer p).contiguous kv false)
        ((m.attentionArgs layer p).contiguous kv true) :=
    pagedAttention_eq hsize.1 hsize.2 hheads.1 hgroup
  rw [← groupedAttention_congr hgroup (hrows false) (hrows true)]
  refine hpaged.symm.trans ?_
  show (m.attendPlace layer p (kv.view layer) q).map Subtype.val = _
  rw [h]
  rfl

variable (m) in
/-- **What rows stand for**: the tokens up to their own. -/
def meaning : m.stack.Meaning (List TokenId) where
  entry := m.entryOf
  Stands layers p x tokens := p.position + 1 = tokens.length
    ∧ (locate p.table p.position m.blockSize).isSome
    ∧ ∃ layer ≤ m.metadata.numLayers,
      layers = List.range' layer (m.metadata.numLayers - layer)
      ∧ m.hiddenOf layer tokens = .ok x
  Expects p tokens a tokens' := ∃ pos ≤ p.position,
    locate p.table pos m.blockSize = some a ∧ tokens' = tokens.take (pos + 1)
  Occurs s := ∃ kv : KvStore F, kv.toKvShape = m.kv.toKvShape ∧ kv.view = s
  entry_eq := by
    rintro layer layers p x tokens v ⟨hlen, -, j, -, hlayers, hx⟩ ⟨w, hw, y, ⟨hy, -⟩, rfl⟩
    obtain ⟨rfl, -, -⟩ := List.range'_eq_cons_iff.mp hlayers.symm
    rw [← Nat.add_sub_cancel p.position 1, hlen] at hy
    exact (entryOf_eq hw hx hy).symm
  stands_next := by
    rintro layer layers p x tokens s x' ⟨hlen, hloc, j, -, hlayers, hx⟩ ⟨kv, -, rfl⟩ hread
      ⟨w, hw, o, ⟨y, hy, ho⟩, rfl⟩
    obtain ⟨rfl, hlt, hlayers⟩ := List.range'_eq_cons_iff.mp hlayers.symm
    refine ⟨hlen, hloc, j + 1, Nat.lt_of_sub_pos hlt, by rw [hlayers, Nat.sub_sub], ?_⟩
    have hattn := attendPlace_eq_ok hw hlen hloc
      (fun pos hpos a ha => hread a _ ⟨pos, hpos, ha, rfl⟩) ho
    rw [← Nat.add_sub_cancel p.position 1, hlen] at hy
    rw [hiddenOf, hw, Option.elim_some]
    refine Except.bind_eq_ok_iff.mpr ⟨x, hx, Except.bind_eq_ok_iff.mpr ⟨y, hy, ?_⟩⟩
    exact Except.bind_eq_ok_iff.mpr ⟨o.1, hattn, rfl⟩

/-- What a layer leaves occurs. -/
theorem occurs_layer {s t : ℕ → BlockId × ℕ → ℕ → Bool → Except Fault (List F)}
    {ps qs : List (Place × m.Hidden)} (h : m.stack.Layer layer s ps t qs)
    (hs : m.meaning.Occurs s) : m.meaning.Occurs t := by
  obtain ⟨kv, hkv, rfl⟩ := hs
  rcases hw : m.weights.layers[layer]? with - | w
  · obtain ⟨ws, hws, rfl, -⟩ := h
    cases hws with
    | nil => exact ⟨kv, hkv, (Function.update_eq_self layer kv.view).symm⟩
    | cons hv _ =>
      obtain ⟨-, w, hw', -⟩ := hv
      exact absurd (hw'.symm.trans hw) (by simp)
  · exact exists_view_of_layer hkv hw h

end TransformerModel
