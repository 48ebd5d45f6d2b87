import OrionServe.Batching
import OrionServe.Loading
import OrionServe.RopeRelative

/-!
# When a forward pass returns

A model with the shapes that loading makes sure of (`TransformerModel.Built`)
compares nothing in a pass that does not agree, but for two sizes that loading
lets through (`ModelMetadata.Sized`): a hidden size of zero, over whose rows
the normalization cannot go in chunks, and a product of heads and head
dimension that does not fit in a word, where the rows of a query are shorter
than its heads.

For the other models every step of a row returns: the rotation of each head,
the writes, and attention, which looks up every position before the row's own
in the block table. So the rows of a batch go through a layer, and by
induction through all of them, whatever the arena holds.
-/

open Tensor Scalars

/-- **The sizes that loading does not check.** -/
structure ModelMetadata.Sized {F : Type*} (m : ModelMetadata F) : Prop where
  hidden : m.hiddenSize ≠ 0
  query : m.numAttentionHeads * m.headDim < 2 ^ 64

namespace ModelMetadata

variable {F : Type*} {m : ModelMetadata F}

instance (m : ModelMetadata F) : Decidable m.Sized :=
  decidable_of_iff (m.hiddenSize ≠ 0 ∧ m.numAttentionHeads * m.headDim < 2 ^ 64)
    ⟨fun h => ⟨h.1, h.2⟩, fun h => ⟨h.hidden, h.query⟩⟩

theorem Sized.qDim_eq (h : m.Sized) : m.qDim = m.numAttentionHeads * m.headDim :=
  Nat.mod_eq_of_lt h.query

theorem Sized.kvDim_eq (h : m.Sized) (hm : m.Consistent) :
    m.kvDim = m.numKvHeads * m.headDim :=
  Nat.mod_eq_of_lt (hm.kvWidth_le.trans_lt h.query)

end ModelMetadata

namespace TransformerModel

variable {F D : Type*} [Scalars F D] {m : TransformerModel F} {ffn n : ℕ}

variable (m) in
/-- **What loading makes sure of**, the width of the MLP block being `ffn`. -/
structure Built (ffn : ℕ) : Prop where
  consistent : m.metadata.Consistent
  shaped : m.weights.Shaped m.metadata ffn
  rope : RopeTable.new m.metadata.headDim m.metadata.maxPositionEmbeddings m.metadata.ropeTheta
    = .ok m.rope

variable (m) in
/-- A row that the model can place: its position is one of the rotary table,
and the block table reaches it with blocks of the arena. -/
structure Placed (p : Place) : Prop where
  position : p.position < m.metadata.maxPositionEmbeddings
  covered : p.position < p.table.length * m.blockSize
  blocks : ∀ a ∈ p.table, a.index < m.kv.numBlocks

/-! ## One row -/

theorem slice_head_length {v : RowVec F n} {heads headDim h : ℕ} (hn : heads * headDim ≤ n)
    (hh : h < heads) :
    (h + 1) * headDim ≤ n ∧ (v.1.slice (h * headDim) headDim).length = headDim := by
  have hle : (h + 1) * headDim ≤ n := (Nat.mul_le_mul_right _ hh).trans hn
  refine ⟨hle, List.length_slice ?_⟩
  rwa [v.2, ← Nat.succ_mul]

/-- The heads of a row are rotated when the row is long enough for them. -/
theorem exists_ropeHeads {heads headDim half : ℕ} {cos sin : List F} {v : RowVec F n}
    (hn : heads * headDim ≤ n) (hhalf : headDim = half + half) (hcos : cos.length = half)
    (hsin : sin.length = half) : ∃ r, ropeHeads heads headDim cos sin v = .ok r := by
  refine List.exists_foldlM_eq_ok (fun r h hh => ?_)
  obtain ⟨hle, hlen⟩ := slice_head_length (v := r) hn (List.mem_range.mp hh)
  rw [if_neg (not_lt.mpr hle)]
  exact ⟨_, Except.bind_eq_ok_iff.mpr ⟨_, applyRope_eq (hlen.trans hhalf) hcos hsin, rfl⟩⟩

/-- And only then. -/
theorem le_of_ropeHeads {heads headDim : ℕ} {cos sin : List F} {row r : RowVec F n}
    (hheads : heads ≠ 0) (h : ropeHeads heads headDim cos sin row = .ok r) :
    heads * headDim ≤ n := by
  -- the last head reaches as far as all of them
  obtain ⟨k, rfl⟩ := Nat.exists_eq_succ_of_ne_zero hheads
  obtain ⟨c₁, c₂, hstep⟩ := List.exists_step_of_foldlM h (List.mem_range.mpr k.lt_succ_self)
  by_contra hlt
  rw [if_pos (not_le.mp hlt)] at hstep
  exact absurd hstep nofun

/-- The query and the key of a row are rotated. -/
theorem exists_ropeRow (hb : m.Built ffn) {a b : ℕ} {x : RowVec F a × RowVec F b} {pos : ℕ}
    (hpos : pos < m.metadata.maxPositionEmbeddings)
    (ha : m.metadata.numAttentionHeads * m.metadata.headDim ≤ a)
    (hk : m.metadata.numKvHeads * m.metadata.headDim ≤ b) : ∃ r, m.ropeRow (x, pos) = .ok r := by
  obtain ⟨hhalf, hat⟩ := RopeTable.atPosition_new hb.rope hpos
  obtain ⟨cos, sin, hat, hcos, hsin⟩ : ∃ cos sin, m.rope.atPosition pos = some (cos, sin)
      ∧ cos.length = m.metadata.headDim / 2 ∧ sin.length = m.metadata.headDim / 2 :=
    ⟨_, _, hat, by rw [List.length_map, List.length_range],
      by rw [List.length_map, List.length_range]⟩
  obtain ⟨q, hq⟩ := exists_ropeHeads (v := x.1) ha hhalf hcos hsin
  obtain ⟨k, hk⟩ := exists_ropeHeads (v := x.2) hk hhalf hcos hsin
  unfold ropeRow
  simp only [hat]
  exact ⟨(q, k), Except.bind_eq_ok_iff.mpr ⟨q, hq, Except.bind_eq_ok_iff.mpr ⟨k, hk, rfl⟩⟩⟩

theorem exists_projectRow (hb : m.Built ffn) (hs : m.metadata.Sized) {w : LayerWeights F}
    (hw : w ∈ m.weights.layers) (x : m.Hidden) {pos : ℕ}
    (hpos : pos < m.metadata.maxPositionEmbeddings) : ∃ y, m.projectRow w x pos = .ok y := by
  have hwidths := hb.shaped.layers w hw
  obtain ⟨r, hr⟩ := exists_ropeRow hb
    (x := (linearRow w.qProj w.qBias (rmsNormRow w.inputNorm m.metadata.rmsNormEps x).1,
      linearRow w.kProj w.kBias (rmsNormRow w.inputNorm m.metadata.rmsNormEps x).1)) hpos
    (hwidths.qProj.1.trans hs.qDim_eq).ge (hwidths.kProj.1.trans (hs.kvDim_eq hb.consistent)).ge
  exact ⟨_, Except.bind_eq_ok_iff.mpr ⟨r, hr, rfl⟩⟩

/-- A row that is projected has room for its heads. -/
theorem le_of_projectRow (hb : m.Built ffn) {w : LayerWeights F} {x : m.Hidden} {pos : ℕ}
    {y : RowVec F w.qProj.rows × RowVec F w.kProj.rows × RowVec F w.vProj.rows}
    (h : m.projectRow w x pos = .ok y) :
    m.metadata.numAttentionHeads * m.metadata.headDim ≤ w.qProj.rows := by
  obtain ⟨r, hr, -⟩ := Except.bind_eq_ok_iff.mp h
  unfold ropeRow at hr
  split at hr
  · exact absurd hr nofun
  · obtain ⟨q, hq, -⟩ := Except.bind_eq_ok_iff.mp hr
    exact le_of_ropeHeads hb.consistent.heads hq

/-- Every position up to a row's own lies in the arena. -/
theorem Placed.exists_locate {p : Place} (h : m.Placed p) {layer : ℕ}
    (hlayer : layer < m.metadata.numLayers) {pos : ℕ} (hpos : pos ≤ p.position) :
    ∃ a, locate p.table pos m.blockSize = some a ∧ m.kv.InBounds layer a.1 a.2 := by
  have hcovered := hpos.trans_lt h.covered
  have hbs : 0 < m.blockSize := Nat.pos_of_mul_pos_left (Nat.zero_lt_of_lt hcovered)
  have hblock : pos / m.blockSize < p.table.length := (Nat.div_lt_iff_lt_mul hbs).mpr hcovered
  refine ⟨(p.table[pos / m.blockSize], pos % m.blockSize), ?_, ?_⟩
  · unfold locate
    rw [List.getElem?_eq_getElem hblock]
    rfl
  · refine ⟨?_, h.blocks _ (List.getElem_mem hblock), ?_⟩
    · rw [m.fits]
      exact hlayer
    · rw [m.fits]
      exact Nat.mod_lt _ hbs

/-- A vector of the arena can be read, whatever it is. -/
theorem exists_view {kv : KvStore F} (hkv : kv.toKvShape = m.kv.toKvShape) {layer : ℕ}
    {a : BlockId × ℕ} (ha : m.kv.InBounds layer a.1 a.2) {head : ℕ}
    (hh : head < m.metadata.numKvHeads) (isValue : Bool) :
    ∃ l, kv.view layer a head isValue = .ok l := by
  have hcheck : kv.checkBounds layer a.1 a.2 head kv.headDim = .ok () :=
    KvShape.checkBounds_eq_ok_iff.mpr ⟨hkv ▸ ha, numKvHeads_eq hkv ▸ hh, rfl⟩
  unfold KvStore.view KvStore.read
  rw [hcheck]
  exact ⟨_, rfl⟩

/-! ## Attention -/

section Attention

variable {args : AttentionArgs} {f : BlockId × ℕ → ℕ → Bool → Except Fault (List F)} {kvHead : ℕ}

/-- One head attends when everything it looks up is there. -/
theorem exists_headOutput
    (h : ∀ pos ≤ args.queryPosition, ∀ isValue unmapped,
      ∃ l, args.fetch f pos kvHead isValue unmapped = .ok l) (q : List F) :
    ∃ o, args.headOutput f q kvHead = .ok o := by
  obtain ⟨ss, hss⟩ : ∃ ss, args.scores f q kvHead = .ok ss := by
    refine List.exists_mapM_eq_ok (fun pos hpos => ?_)
    obtain ⟨k, hk⟩ := h pos (Nat.le_of_lt_succ (List.mem_range.mp hpos)) false _
    exact ⟨_, Except.bind_eq_ok_iff.mpr ⟨k, hk, rfl⟩⟩
  unfold AttentionArgs.headOutput
  rw [hss]
  refine List.exists_foldlM_eq_ok (fun o p hp => ?_)
  have hlt := List.snd_lt_of_mem_zipIdx hp
  rw [Nat.add_zero, length_softmaxInplace, length_scores hss] at hlt
  split
  · exact ⟨o, rfl⟩
  · obtain ⟨v, hv⟩ := h p.2 (Nat.le_of_lt_succ hlt) true _
    exact ⟨_, Except.bind_eq_ok_iff.mpr ⟨v, hv, rfl⟩⟩

end Attention

/-- A row attends to the positions up to its own, whatever they hold. -/
theorem exists_attendPlace (hm : m.metadata.Consistent) {kv : KvStore F}
    (hkv : kv.toKvShape = m.kv.toKvShape) {p : Place} (hp : m.Placed p) {layer : ℕ}
    (hlayer : layer < m.metadata.numLayers) {q : List F}
    (hq : q.length = m.metadata.numAttentionHeads * m.metadata.headDim) :
    ∃ o, m.attendPlace layer p (kv.view layer) q = .ok o := by
  have hgroups : m.metadata.numAttentionHeads
      = m.metadata.numAttentionHeads / m.metadata.numKvHeads * m.metadata.numKvHeads :=
    (Nat.div_mul_cancel (Nat.dvd_of_mod_eq_zero hm.grouped)).symm
  have hsize : 0 < m.metadata.numAttentionHeads / m.metadata.numKvHeads := by
    refine Nat.pos_of_ne_zero (fun hzero => hm.heads ?_)
    rw [hgroups, hzero, Nat.zero_mul]
  unfold attendPlace attendOver
  rw [if_neg (by rintro (h | h); exacts [h hq, h hq.symm]),
    if_neg (by rintro (h | h); exacts [hm.kvHeads h, h hm.grouped])]
  refine List.exists_foldlM_eq_ok (fun out qh hqh => ?_)
  have hkvHead : qh / (m.metadata.numAttentionHeads / m.metadata.numKvHeads)
      < m.metadata.numKvHeads := by
    rw [Nat.div_lt_iff_lt_mul hsize, Nat.mul_comm, ← hgroups]
    exact List.mem_range.mp hqh
  have hfetch : ∀ pos ≤ (m.attentionArgs layer p).queryPosition, ∀ isValue unmapped, ∃ l,
      (m.attentionArgs layer p).fetch (kv.view layer) pos
        (qh / (m.metadata.numAttentionHeads / m.metadata.numKvHeads)) isValue unmapped
        = .ok l := by
    intro pos hpos isValue unmapped
    obtain ⟨a, ha, hin⟩ := hp.exists_locate hlayer hpos
    unfold AttentionArgs.fetch
    rw [show locate (m.attentionArgs layer p).blockTable pos (m.attentionArgs layer p).blockSize
      = some a from ha]
    exact exists_view hkv hin hkvHead isValue
  obtain ⟨o, ho⟩ := exists_headOutput hfetch
    (q.slice (qh * m.metadata.headDim) m.metadata.headDim)
  exact ⟨_, Except.bind_eq_ok_iff.mpr ⟨o, ho, rfl⟩⟩

/-! ## All layers -/

/-- **The rows of a batch go through a layer.** -/
theorem exists_layer (hb : m.Built ffn) (hs : m.metadata.Sized) {kv : KvStore F}
    (hkv : kv.toKvShape = m.kv.toKvShape) {layer : ℕ} (hlayer : layer < m.metadata.numLayers)
    {ps : List (Place × m.Hidden)} (hps : ∀ p ∈ ps, m.Placed p.1) :
    ∃ (kv' : KvStore F) (qs : List (Place × m.Hidden)), kv'.toKvShape = m.kv.toKvShape
      ∧ m.stack.Layer layer kv.view ps kv'.view qs := by
  obtain ⟨w, hw⟩ : ∃ w, m.weights.layers[layer]? = some w :=
    ⟨_, List.getElem?_eq_getElem (hb.shaped.numLayers ▸ hlayer)⟩
  have hmem := List.mem_of_getElem? hw
  have hwidths := hb.shaped.layers w hmem
  have hkvDim := hs.kvDim_eq hb.consistent
  obtain ⟨ys, hys⟩ := List.exists_forall₂
    (fun p hp => exists_projectRow hb hs hmem p.2 (hps p hp).position)
  -- the rows are written, each at its own slot
  have hwritable : List.Forall₂ (fun p y => m.projectRow w p.2 p.1.position = .ok y
      ∧ m.Writable layer (m.slotOf p.1) y.2.1.1 y.2.2.1) ps ys := by
    refine List.forall₂_iff_zip.mpr ⟨hys.length_eq, fun {p y} hpy => ?_⟩
    obtain ⟨a, ha, hin⟩ := (hps p (List.of_mem_zip hpy).1).exists_locate hlayer le_rfl
    refine ⟨(List.forall₂_iff_zip.mp hys).2 hpy, ?_, ?_, ?_⟩
    · unfold slotOf
      rw [ha]
      exact hin
    · exact (y.2.1.2.trans (hwidths.kProj.1.trans hkvDim)).ge
    · exact (y.2.2.2.trans (hwidths.vProj.1.trans hkvDim)).ge
  have hrows : ∀ r ∈ List.zipWith (fun p y => (m.slotOf p.1, y.2.1.1, y.2.2.1)) ps ys,
      m.Writable layer r.1 r.2.1 r.2.2 :=
    (List.forall_mem_zipWith_iff hys.length_eq).mpr (hwritable.imp (fun _ _ h => h.2))
  obtain ⟨kv', -, hkv', hview⟩ := exists_writeRows hkv hrows
  -- and every row reads what is there then
  obtain ⟨os, hos⟩ := List.exists_forall₂ (R := fun (p : Place × m.Hidden) o =>
      ∃ y, m.projectRow w p.2 p.1.position = .ok y
        ∧ m.attendPlace layer p.1 (kv'.view layer) y.1.1 = .ok o) (fun p hp => by
    obtain ⟨y, hy⟩ := exists_projectRow hb hs hmem p.2 (hps p hp).position
    obtain ⟨o, ho⟩ := exists_attendPlace hb.consistent hkv' (hps p hp) hlayer
      (y.1.2.trans (hwidths.qProj.1.trans hs.qDim_eq))
    exact ⟨o, y, hy, ho⟩)
  refine ⟨kv', _, hkv', _, (entries_iff hw).mpr ⟨ys, hwritable, rfl⟩, ?_,
    (nexts_iff hw).mpr ⟨os, hos, rfl⟩⟩
  rw [hview, List.map_zipWith]

/-- **And through all of them**, by induction on the layers that are left. -/
theorem exists_run (hb : m.Built ffn) (hs : m.metadata.Sized) {kv : KvStore F}
    (hkv : kv.toKvShape = m.kv.toKvShape) {layers : List ℕ}
    (hlayers : ∀ layer ∈ layers, layer < m.metadata.numLayers)
    {ps : List (Place × m.Hidden)} (hps : ∀ p ∈ ps.map Prod.fst, m.Placed p) :
    ∃ (kv' : KvStore F) (qs : List (Place × m.Hidden)), kv'.toKvShape = m.kv.toKvShape
      ∧ qs.length = ps.length ∧ m.stack.Run layers kv.view ps kv'.view qs := by
  induction layers generalizing kv ps with
  | nil => exact ⟨kv, ps, hkv, rfl, .nil _ _⟩
  | cons layer layers ih =>
    obtain ⟨hlayer, hlayers⟩ := List.forall_mem_cons.mp hlayers
    obtain ⟨kv₁, qs, hkv₁, hl⟩ := exists_layer hb hs hkv hlayer
      (fun p hp => hps p.1 (List.mem_map_of_mem hp))
    obtain ⟨kv', rs, hkv', hlen, hrun⟩ := @ih kv₁ hkv₁ hlayers qs (hl.map_fst.symm ▸ hps)
    have hqs := congrArg List.length hl.map_fst
    rw [List.length_map, List.length_map] at hqs
    exact ⟨kv', rs, hkv', hlen.trans hqs, .cons hl hrun⟩

/-! ## The whole pass -/

theorem checked (hb : m.Built ffn) (hs : m.metadata.Sized) {w : LayerWeights F}
    (hw : w ∈ m.weights.layers) : m.Checked w := by
  have hwidths := hb.shaped.layers w hw
  have hq : w.oProj.cols = m.metadata.numAttentionHeads * m.metadata.headDim :=
    hwidths.oProj.2.trans hs.qDim_eq
  exact {
    hidden := hs.hidden
    inputNorm := hwidths.inputNorm
    query := ⟨hwidths.qProj.2, hwidths.qProj.1 ▸ hwidths.qBias⟩
    key := ⟨hwidths.kProj.2, hwidths.kProj.1 ▸ hwidths.kBias⟩
    value := ⟨hwidths.vProj.2, hwidths.vProj.1 ▸ hwidths.vBias⟩
    kvHeads := hb.consistent.kvHeads
    output := hq
    postAttnNorm := hwidths.postAttnNorm
    gate := hwidths.gateProj.2
    up := hwidths.upProj.2
    swiglu := hwidths.upProj.1.trans hwidths.gateProj.1.symm
    down := hwidths.downProj.2.trans hwidths.gateProj.1.symm }

theorem residualsFit (hb : m.Built ffn) : m.ResidualsFit :=
  fun w hw => ⟨(hb.shaped.layers w hw).oProj.1, (hb.shaped.layers w hw).downProj.1⟩

theorem allChecked (hb : m.Built ffn) (hs : m.metadata.Sized) :
    m.AllChecked (List.range m.metadata.numLayers) := by
  intro layer hlayer
  have hlt : layer < m.weights.layers.length :=
    hb.shaped.numLayers.symm ▸ List.mem_range.mp hlayer
  exact ⟨_, List.getElem?_eq_getElem hlt, checked hb hs (List.getElem_mem hlt)⟩

/-- The head is the embedding matrix, or of its shape. -/
theorem shape_head (hb : m.Built ffn) :
    m.head.rows = m.metadata.vocabSize ∧ m.head.cols = m.metadata.hiddenSize := by
  unfold head
  rcases hh : m.weights.lmHead with - | h
  · exact hb.shaped.embedTokens
  · exact hb.shaped.lmHead h hh

theorem exists_lastRows {a : ℕ} {counts : List ℕ} (h : ∀ n ∈ counts, 0 < n) :
    ∃ last, lastRows a counts = .ok last ∧ last.length = counts.length := by
  induction counts generalizing a with
  | nil => exact ⟨[], rfl, rfl⟩
  | cons count counts ih =>
    obtain ⟨hcount, hcounts⟩ := List.forall_mem_cons.mp h
    obtain ⟨rest, hrest, hlen⟩ := @ih (a + count) hcounts
    rw [lastRows, if_neg hcount.ne']
    exact ⟨_, Except.bind_eq_ok_iff.mpr ⟨rest, hrest, rfl⟩, congrArg Nat.succ hlen⟩

/-- Every sequence gets its logits. -/
theorem exists_logits (hb : m.Built ffn) (hs : m.metadata.Sized) {counts : List ℕ}
    (hcounts : ∀ n ∈ counts, 0 < n) {xs : List m.Hidden} (hlen : xs.length = counts.sum) :
    ∃ ls, m.logits counts (.ofRows xs) = .ok ls
      ∧ ls.length = counts.length * m.metadata.vocabSize := by
  obtain ⟨last, hlast, hcount⟩ := exists_lastRows (a := 0) hcounts
  obtain ⟨rs, hrs⟩ := List.exists_forall₂ (R := fun i r => xs[i]? = some r)
    (fun i hi => ⟨_, List.getElem?_eq_getElem
      ((lt_of_mem_lastRows hlast hi).trans_eq ((Nat.zero_add _).trans hlen.symm))⟩)
  obtain ⟨hrows, hcols⟩ := shape_head hb
  refine ⟨_, logits_eq_ok_iff.mpr ⟨⟨hs.hidden, hb.shaped.finalNorm, hcols⟩, last, hlast, rs, hrs,
    rfl⟩, ?_⟩
  rw [List.length_flatMap_of_const (fun r _ => (m.logitsRow r).2), ← hrs.length_eq, hcount, hrows]

/-- Known tokens are embedded. -/
theorem exists_embedRow (hb : m.Built ffn) {tok : TokenId}
    (htok : tok.toNat < m.metadata.vocabSize) : ∃ x, m.embedRow tok = .ok x := by
  obtain ⟨hrows, hcols⟩ := hb.shaped.embedTokens
  unfold embedRow Tensor.Matrix.row
  rw [dif_pos (hrows.symm ▸ htok), Option.elim_some]
  unfold copyRow
  rw [dif_pos ((Matrix.rowAt _ _).2.trans hcols)]
  exact ⟨_, rfl⟩

theorem exists_embedded (hb : m.Built ffn) {batch : ForwardBatch} (h : batch.Aligned)
    (htokens : ∀ t ∈ batch.tokens, t.toNat < m.metadata.vocabSize) :
    ∃ ps, m.Embedded batch ps := by
  obtain ⟨rows, hrows⟩ := List.exists_mapM_eq_ok (f := m.embedRow)
    (fun t ht => exists_embedRow hb (htokens t ht))
  have hembed : m.embed batch.tokens = .ok (.ofRows rows) := by
    unfold embed
    rw [hrows]
    rfl
  obtain ⟨ps, hps, -⟩ := (embed_eq_ok_iff h).mp hembed
  exact ⟨ps, hps⟩

end TransformerModel

/-- **A batch that a model can run**: its arrays belong together, every slot
has a token, and the tokens, the positions and the blocks are ones there
are. -/
structure ForwardBatch.WellShaped {F : Type*} (b : ForwardBatch) (metadata : ModelMetadata F)
    (numBlocks blockSize : ℕ) : Prop where
  valid : b.validate = .ok ()
  counts : ∀ n ∈ b.slotTokenCounts, 0 < n
  tokens : ∀ t ∈ b.tokens, t.toNat < metadata.vocabSize
  positions : ∀ p ∈ b.positions, p < metadata.maxPositionEmbeddings
  covered : ∀ p ∈ b.places, p.position < p.table.length * blockSize
  blocks : ∀ t ∈ b.blockTables, ∀ a ∈ t, a.index < numBlocks

/-- **One row of logits for each slot** of a batch, in the order of the slots and
under their sequences: the engine finds the row of a sequence by its place. -/
structure ForwardOutput.Answers {F : Type*} (out : ForwardOutput F) (b : ForwardBatch)
    (vocabSize : ℕ) : Prop where
  width : out.vocabSize = vocabSize
  ids : out.sequenceIds = b.sequenceIds
  logits : out.logits.length = b.numSequences * vocabSize

namespace TransformerModel

variable {F D : Type*} [Scalars F D] {m : TransformerModel F} {ffn : ℕ} {batch : ForwardBatch}
  {kv kv' : KvStore F} {out : ForwardOutput F}

theorem placed_of_wellShaped (h : batch.WellShaped m.metadata m.kv.numBlocks m.blockSize)
    {p : Place} (hp : p ∈ batch.places) : m.Placed p := by
  have haligned := (ForwardBatch.validate_eq_ok_iff batch).mp h.valid
  refine ⟨h.positions _ ?_, h.covered p hp, ?_⟩
  · rw [ForwardBatch.positions_places haligned]
    exact List.mem_map_of_mem hp
  · obtain ⟨q, -, rfl⟩ := List.mem_map.mp hp
    intro a ha
    rcases ht : batch.blockTables[q.2]? with - | t
    · simp only [ht] at ha
      exact absurd ha List.not_mem_nil
    · simp only [ht] at ha
      exact h.blocks t (List.mem_of_getElem? ht) a ha

/-- A batch that is not empty is answered, the sizes being as they should. -/
theorem exists_forwardOn (hb : m.Built ffn) (hs : m.metadata.Sized)
    (h : batch.WellShaped m.metadata m.kv.numBlocks m.blockSize) (hne : batch.tokens ≠ [])
    (hkv : kv.toKvShape = m.kv.toKvShape) :
    ∃ kv' out, m.forwardOn batch kv = (kv', .ok out)
      ∧ out.Answers batch m.metadata.vocabSize := by
  have haligned := (ForwardBatch.validate_eq_ok_iff batch).mp h.valid
  have hplaced : ∀ p ∈ batch.places, m.Placed p := fun p hp => placed_of_wellShaped h hp
  obtain ⟨ps, hps⟩ := exists_embedded hb haligned h.tokens
  obtain ⟨kv', qs, hkv', hlen, hrun⟩ := exists_run hb hs hkv
    (fun layer hl => List.mem_range.mp hl) (hps.1.symm ▸ hplaced)
  have hrows : (qs.map Prod.snd).length = batch.slotTokenCounts.sum := by
    rw [List.length_map, hlen, haligned.sum, hps.2.length_eq]
  obtain ⟨ls, hls, hcount⟩ := exists_logits hb hs h.counts hrows
  refine ⟨kv', _, (forwardOn_eq_ok_iff (residualsFit hb) hne hkv).mpr ⟨⟨haligned, ?_,
    allChecked hb hs⟩, ps, qs, hps, hkv', hrun, ls, hls, rfl⟩, rfl, rfl, ?_⟩
  · intro p hp
    obtain ⟨a, ha, -⟩ := (hplaced p hp).exists_locate
      (Nat.pos_of_ne_zero hb.consistent.layers) le_rfl
    rw [ha]
    rfl
  · rw [hcount, haligned.counts]
    rfl

/-- Only with these sizes is it. -/
theorem sized_of_forwardOn (hb : m.Built ffn) (hne : batch.tokens ≠ [])
    (hkv : kv.toKvShape = m.kv.toKvShape) (h : m.forwardOn batch kv = (kv', .ok out)) :
    m.metadata.Sized := by
  obtain ⟨⟨haligned, -, hchecked⟩, ps, qs, hps, -, hrun, -⟩ :=
    (forwardOn_eq_ok_iff (residualsFit hb) hne hkv).mp h
  obtain ⟨n, hn⟩ := Nat.exists_eq_succ_of_ne_zero hb.consistent.layers
  obtain ⟨w, hw, hc⟩ := hchecked 0 (List.mem_range.mpr (hn ▸ n.succ_pos))
  refine ⟨hc.hidden, ?_⟩
  -- the first row goes through the first layer
  rw [hn, List.range_succ_eq_map] at hrun
  cases hrun with
  | cons hl _ =>
    obtain ⟨ws, hws, -⟩ := hl
    obtain ⟨ys, hys, -⟩ := (entries_iff hw).mp hws
    obtain ⟨tok, toks, htokens⟩ := List.exists_cons_of_ne_nil hne
    have hrows := hps.2
    rw [htokens] at hrows
    cases hrows with
    | cons _ _ =>
      cases hys with
      | cons hy _ =>
        have hroom := le_of_projectRow hb hy.1
        rw [(hb.shaped.layers w (List.mem_of_getElem? hw)).qProj.1] at hroom
        exact hroom.trans_lt (Nat.mod_lt _ (by norm_num))

/-- **A forward pass over a batch that the model can run** returns a row of
logits for each slot exactly when the batch is empty or the sizes that loading
does not check are as they should – whatever the arena holds. -/
theorem forwardOn_answers_iff (hb : m.Built ffn)
    (h : batch.WellShaped m.metadata m.kv.numBlocks m.blockSize)
    (hkv : kv.toKvShape = m.kv.toKvShape) :
    (∃ out, (m.forwardOn batch kv).2 = .ok out ∧ out.Answers batch m.metadata.vocabSize)
      ↔ batch.tokens = [] ∨ m.metadata.Sized := by
  have haligned := (ForwardBatch.validate_eq_ok_iff batch).mp h.valid
  by_cases hne : batch.tokens = []
  · refine ⟨fun _ => Or.inl hne, fun _ => ⟨⟨[], m.metadata.vocabSize, []⟩, ?_, rfl, ?_, ?_⟩⟩
    · unfold forwardOn
      rw [h.valid]
      simp only [ForwardBatch.isEmpty, hne, List.isEmpty_nil, if_true]
    · rw [haligned.eq_empty h.counts hne]
    · rw [haligned.eq_empty h.counts hne]
      exact (Nat.zero_mul _).symm
  · constructor
    · rintro ⟨out, hout, -⟩
      exact Or.inr (sized_of_forwardOn hb hne hkv (Prod.ext rfl hout))
    · rintro (hnil | hs)
      · exact absurd hnil hne
      · obtain ⟨kv', out, hout, hans⟩ := exists_forwardOn hb hs h hne hkv
        exact ⟨out, congrArg Prod.snd hout, hans⟩

end TransformerModel
