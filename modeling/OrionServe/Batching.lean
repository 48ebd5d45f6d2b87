import OrionServe.TransformerForward

/-!
# Batching does not change results

Two batches whose block tables share no block may be run as one. The rows of
both write to the arena before any of them attends, layer by layer; but a row
writes to a block of its own sequence's table, and reads only from such
blocks. So the rows of the two batches have nothing in common in the sense of
layered passes, and each gets what it gets on its own
(`TransformerModel.forward_concat`).

This is so for weights as `ModelWeights::load` accepts them. With an output
projection of the wrong height, which a model may be assembled from and a
forward pass does not notice, the residual connection adds a row's numbers to
another row.
-/

open Tensor Scalars

namespace ForwardBatch

/-- Two batches as one. -/
def concat (b c : ForwardBatch) : ForwardBatch where
  tokens := b.tokens ++ c.tokens
  positions := b.positions ++ c.positions
  sequenceIds := b.sequenceIds ++ c.sequenceIds
  slotTokenCounts := b.slotTokenCounts ++ c.slotTokenCounts
  contextLens := b.contextLens ++ c.contextLens
  blockTables := b.blockTables ++ c.blockTables
  hasPrefill := b.hasPrefill || c.hasPrefill

/-- The block tables of two batches share no block. -/
def SharesNoBlock (b c : ForwardBatch) : Prop :=
  ∀ t ∈ b.blockTables, ∀ u ∈ c.blockTables, t.Disjoint u

instance (b c : ForwardBatch) : Decidable (b.SharesNoBlock c) :=
  inferInstanceAs (Decidable (∀ t ∈ b.blockTables, ∀ u ∈ c.blockTables, ∀ a ∈ t, a ∈ u → False))

variable {b c : ForwardBatch}

theorem Aligned.concat (hb : b.Aligned) (hc : c.Aligned) : (b.concat c).Aligned where
  counts := by simp [ForwardBatch.concat, hb.counts, hc.counts]
  contexts := by simp [ForwardBatch.concat, hb.contexts, hc.contexts]
  tables := by simp [ForwardBatch.concat, hb.tables, hc.tables]
  positions := by simp [ForwardBatch.concat, hb.positions, hc.positions]
  sum := by simp [ForwardBatch.concat, hb.sum, hc.sum]

/-- The second batch's rows belong to sequences that come after the first's. -/
theorem seqOfRow_concat (b c : ForwardBatch) :
    (b.concat c).seqOfRow = b.seqOfRow ++ c.seqOfRow.map (b.slotTokenCounts.length + ·) := by
  show (b.slotTokenCounts ++ c.slotTokenCounts).zipIdx.flatMap _ = _
  rw [List.zipIdx_append, List.flatMap_append, Nat.zero_add,
    List.zipIdx_eq_map_add (i := b.slotTokenCounts.length), List.flatMap_map]
  unfold seqOfRow
  rw [List.map_flatMap]
  simp only [List.map_replicate]

theorem places_concat (hb : b.Aligned) :
    (b.concat c).places = b.places ++ c.places := by
  unfold places
  rw [seqOfRow_concat]
  show ((b.positions ++ c.positions).zip _).map _ = _
  rw [List.zip_append hb.length_seqOfRow_eq.symm, List.map_append, List.zip_map_right,
    List.map_map]
  congr 1
  · refine List.map_congr_left (fun p hp => ?_)
    have hk : p.2 < b.blockTables.length := by
      rw [hb.tables, ← hb.counts]
      exact mem_seqOfRow_lt (List.of_mem_zip hp).2
    show Place.mk _ ((b.blockTables ++ c.blockTables)[p.2]?.getD []) = _
    rw [List.getElem?_append_left hk]
  · refine List.map_congr_left (fun p _ => ?_)
    show Place.mk _ ((b.blockTables ++ c.blockTables)[b.slotTokenCounts.length + p.2]?.getD [])
      = _
    rw [hb.counts, ← hb.tables, List.getElem?_append_right (Nat.le_add_right _ _),
      Nat.add_sub_cancel_left]
    rfl

/-- A batch whose sequences all have tokens has none only if it is empty. -/
theorem Aligned.eq_empty (hb : b.Aligned) (hcounts : ∀ n ∈ b.slotTokenCounts, 0 < n)
    (ht : b.tokens = []) : b = ⟨[], [], [], [], [], [], b.hasPrefill⟩ := by
  have hsum : b.slotTokenCounts.sum = 0 := by rw [hb.sum, ht, List.length_nil]
  have hnil : b.slotTokenCounts = [] := by
    rcases hc : b.slotTokenCounts with - | ⟨n, ns⟩
    · rfl
    · have hn := hcounts n (hc ▸ List.mem_cons_self)
      rw [hc, List.sum_cons] at hsum
      omega
  have hids : b.sequenceIds = [] :=
    List.eq_nil_of_length_eq_zero (by rw [← hb.counts, hnil, List.length_nil])
  have hpos : b.positions = [] :=
    List.eq_nil_of_length_eq_zero (by rw [hb.positions, ht, List.length_nil])
  have hctx : b.contextLens = [] :=
    List.eq_nil_of_length_eq_zero (by rw [hb.contexts, hids, List.length_nil])
  have htables : b.blockTables = [] :=
    List.eq_nil_of_length_eq_zero (by rw [hb.tables, hids, List.length_nil])
  obtain ⟨tokens, positions, ids, counts, contexts, tables, prefill⟩ := b
  simp_all

end ForwardBatch

namespace TransformerModel

variable {F D : Type*} [Scalars F D] {m : TransformerModel F} {kv kv₁ kv₂ : KvStore F}
  {b c batch : ForwardBatch} {out out₁ out₂ : ForwardOutput F}

/-! ## The rows of two batches -/

theorem locate_mem {table : List BlockId} {pos bs : ℕ} {a : BlockId × ℕ}
    (h : locate table pos bs = some a) : a.1 ∈ table := by
  unfold locate at h
  rw [Option.map_eq_some_iff] at h
  obtain ⟨x, hx, rfl⟩ := h
  exact List.mem_of_getElem? hx

theorem slotOf_eq {p : Place} (h : (locate p.table p.position m.blockSize).isSome) :
    locate p.table p.position m.blockSize = some (m.slotOf p) := by
  obtain ⟨a, ha⟩ := Option.isSome_iff_exists.mp h
  unfold slotOf
  rw [ha]
  rfl

/-- The slots in the blocks of a batch. -/
def slotsIn (b : ForwardBatch) : Set (BlockId × ℕ) := {a | ∃ t ∈ b.blockTables, a.1 ∈ t}

/-- Rows that have slots write and read in the blocks of their batch. -/
theorem within_slotsIn {ps : List (Place × m.Hidden)} (hlocated : m.Located b.places)
    (hps : ps.map Prod.fst = b.places) : m.stack.Within ps (slotsIn b) := by
  intro p hp
  have hmem : p.1 ∈ b.places := hps ▸ List.mem_map_of_mem hp
  have hloc := slotOf_eq (hlocated p.1 hmem)
  obtain ⟨q, -, hq⟩ := List.mem_map.mp hmem
  have htable : ∀ {a : BlockId}, a ∈ p.1.table → p.1.table ∈ b.blockTables := by
    intro a ha
    rw [← hq] at ha ⊢
    simp only at ha ⊢
    rcases ht : b.blockTables[q.2]? with - | t
    · rw [ht] at ha
      exact absurd ha List.not_mem_nil
    · exact List.mem_of_getElem? ht
  have hin : ∀ {pos : ℕ} {a : BlockId × ℕ}, locate p.1.table pos m.blockSize = some a →
      a ∈ slotsIn b := fun ha => ⟨p.1.table, htable (locate_mem ha), locate_mem ha⟩
  exact ⟨hin hloc, fun a ⟨_, _, ha⟩ => hin ha⟩

theorem notMem_slotsIn (h : b.SharesNoBlock c) : ∀ a ∈ slotsIn b, a ∉ slotsIn c :=
  fun _ ⟨t, ht, ha⟩ ⟨u, hu, ha'⟩ => h t ht u hu ha ha'

/-- What a pass leaves is what an arena holds. -/
theorem exists_view_of_run {layers : List ℕ} (hlayers : m.AllChecked layers)
    (hkv : kv.toKvShape = m.kv.toKvShape)
    {t : ℕ → BlockId × ℕ → ℕ → Bool → Except Fault (List F)} {ps qs : List (Place × m.Hidden)}
    (h : m.stack.Run layers kv.view ps t qs) :
    ∃ kv' : KvStore F, kv'.toKvShape = m.kv.toKvShape ∧ kv'.view = t := by
  generalize hs : kv.view = s at h
  induction h generalizing kv with
  | nil s ps => exact ⟨kv, hkv, hs⟩
  | cons hl _ ih =>
    obtain ⟨⟨w, hw, -⟩, hrest⟩ := List.forall_mem_cons.mp hlayers
    obtain ⟨kv₁, hkv₁, hview₁⟩ := exists_view_of_layer hkv hw (hs ▸ hl)
    exact ih hrest hkv₁ hview₁

/-- The logits of the rows of two batches. -/
theorem logits_append {c₁ c₂ : List ℕ} {hs₁ hs₂ : List m.Hidden} {l₁ l₂ : List F}
    (hlen : hs₁.length = c₁.sum) (h₁ : m.logits c₁ (.ofRows hs₁) = .ok l₁)
    (h₂ : m.logits c₂ (.ofRows hs₂) = .ok l₂) :
    m.logits (c₁ ++ c₂) (.ofRows (hs₁ ++ hs₂)) = .ok (l₁ ++ l₂) := by
  obtain ⟨hc, last₁, hlast₁, rs₁, hrs₁, rfl⟩ := logits_eq_ok_iff.mp h₁
  obtain ⟨-, last₂, hlast₂, rs₂, hrs₂, rfl⟩ := logits_eq_ok_iff.mp h₂
  have hshift : lastRows (0 + c₁.sum) c₂ = .ok (last₂.map (c₁.sum + ·)) := by
    rw [Nat.add_comm]
    exact lastRows_shift hlast₂
  refine logits_eq_ok_iff.mpr ⟨hc, _, lastRows_append hlast₁ hshift, rs₁ ++ rs₂,
    List.rel_append ?_ ?_, List.flatMap_append.symm⟩
  · refine List.forall₂_iff_zip.mpr ⟨hrs₁.length_eq, fun {i r} hir => ?_⟩
    have hi := lt_of_mem_lastRows hlast₁ (List.of_mem_zip hir).1
    rw [List.getElem?_append_left (by omega)]
    exact (List.forall₂_iff_zip.mp hrs₁).2 hir
  · refine List.forall₂_map_left_iff.mpr (hrs₂.imp (fun i r hir => ?_))
    rw [List.getElem?_append_right (by omega), hlen, Nat.add_sub_cancel_left]
    exact hir

/-- The outputs of two batches as one. -/
def concatOutput (m : TransformerModel F) (out₁ out₂ : ForwardOutput F) : ForwardOutput F :=
  ⟨out₁.logits ++ out₂.logits, m.metadata.vocabSize, out₁.sequenceIds ++ out₂.sequenceIds⟩

/-- Two batches that are not empty. -/
theorem forwardOn_concat_of_ne_nil (hfit : m.ResidualsFit) (hdis : b.SharesNoBlock c)
    (hb : b.tokens ≠ []) (hc : c.tokens ≠ []) (hkv : kv.toKvShape = m.kv.toKvShape)
    (h₁ : m.forwardOn b kv = (kv₁, .ok out₁)) (h₂ : m.forwardOn c kv = (kv₂, .ok out₂)) :
    ∃ kv', m.forwardOn c kv₁ = (kv', .ok out₂) ∧ m.forwardOn b kv₂ = (kv', .ok out₁)
      ∧ m.forwardOn (b.concat c) kv = (kv', .ok (m.concatOutput out₁ out₂)) := by
  obtain ⟨hstat₁, ps₁, qs₁, hps₁, hkv₁, hrun₁, ls₁, hls₁, rfl⟩ :=
    (forwardOn_eq_ok_iff hfit hb hkv).mp h₁
  obtain ⟨hstat₂, ps₂, qs₂, hps₂, hkv₂, hrun₂, ls₂, hls₂, rfl⟩ :=
    (forwardOn_eq_ok_iff hfit hc hkv).mp h₂
  obtain ⟨v, hv₂, hv₁, hv⟩ := LayerStack.Run.parallel List.nodup_range hrun₁ hrun₂
    (within_slotsIn hstat₁.2.1 hps₁.1) (within_slotsIn hstat₂.2.1 hps₂.1)
    (notMem_slotsIn hdis)
  obtain ⟨kv', hkv', rfl⟩ := exists_view_of_run hstat₁.2.2 hkv hv
  have hplaces := ForwardBatch.places_concat (c := c) hstat₁.1
  have hne : (b.concat c).tokens ≠ [] := fun h => hb (List.append_eq_nil_iff.mp h).1
  refine ⟨kv', (forwardOn_eq_ok_iff hfit hc hkv₁).mpr ⟨hstat₂, ps₂, qs₂, hps₂, hkv', hv₂, ls₂,
    hls₂, rfl⟩, (forwardOn_eq_ok_iff hfit hb hkv₂).mpr ⟨hstat₁, ps₁, qs₁, hps₁, hkv', hv₁, ls₁,
    hls₁, rfl⟩, (forwardOn_eq_ok_iff hfit hne hkv).mpr ⟨⟨hstat₁.1.concat hstat₂.1, ?_,
      hstat₁.2.2⟩, ps₁ ++ ps₂, qs₁ ++ qs₂, ⟨?_, ?_⟩, hkv', hv, ls₁ ++ ls₂, ?_, rfl⟩⟩
  · rw [hplaces]
    exact List.forall_mem_append.mpr ⟨hstat₁.2.1, hstat₂.2.1⟩
  · rw [List.map_append, hps₁.1, hps₂.1, hplaces]
  · exact List.rel_append hps₁.2 hps₂.2
  · rw [List.map_append]
    refine logits_append ?_ hls₁ hls₂
    have hlen := congrArg List.length hrun₁.map_fst
    rw [List.length_map, List.length_map] at hlen
    rw [List.length_map, hlen, ← hps₁.2.length_eq, hstat₁.1.sum]

/-! ## Empty batches -/

/-- Whether a batch has a prefill is not looked at. -/
theorem layersForward_hasPrefill (p : Bool) (slots : List (BlockId × ℕ)) (layers : List ℕ)
    (hidden : Tensor.Matrix F) :
    m.layersForward { b with hasPrefill := p } slots layers hidden kv
      = m.layersForward b slots layers hidden kv := by
  induction layers generalizing hidden kv with
  | nil => rfl
  | cons layer layers ih =>
    show Attempt.andThen _ _ = Attempt.andThen _ _
    congr 1
    funext kv hidden
    exact ih hidden

theorem forwardOn_hasPrefill (p : Bool) :
    m.forwardOn { b with hasPrefill := p } kv = m.forwardOn b kv := by
  unfold forwardOn
  simp only [layersForward_hasPrefill]
  rfl

theorem aligned_of_forwardOn (h : m.forwardOn b kv = (kv₁, .ok out)) : b.Aligned := by
  unfold forwardOn at h
  rcases hvalid : b.validate with e | ⟨⟩
  · rw [hvalid] at h
    exact absurd (congrArg Prod.snd h) (by simp)
  · exact (ForwardBatch.validate_eq_ok_iff b).mp hvalid

/-- A batch without tokens changes nothing and returns nothing. -/
theorem forwardOn_nil (hb : b.Aligned) (ht : b.tokens = []) :
    m.forwardOn b kv = (kv, .ok ⟨[], m.metadata.vocabSize, []⟩) := by
  unfold forwardOn
  rw [(ForwardBatch.validate_eq_ok_iff b).mpr hb]
  simp only
  rw [if_pos (by rw [ForwardBatch.isEmpty, ht, List.isEmpty_nil])]

/-- **Two batches that share no block**, over any arena. -/
theorem forwardOn_concat (hfit : m.ResidualsFit) (hdis : b.SharesNoBlock c)
    (hb : ∀ n ∈ b.slotTokenCounts, 0 < n) (hc : ∀ n ∈ c.slotTokenCounts, 0 < n)
    (hkv : kv.toKvShape = m.kv.toKvShape)
    (h₁ : m.forwardOn b kv = (kv₁, .ok out₁)) (h₂ : m.forwardOn c kv = (kv₂, .ok out₂)) :
    ∃ kv', m.forwardOn c kv₁ = (kv', .ok out₂) ∧ m.forwardOn b kv₂ = (kv', .ok out₁)
      ∧ m.forwardOn (b.concat c) kv = (kv', .ok (m.concatOutput out₁ out₂)) := by
  have hvocab : ∀ {b : ForwardBatch} {kv₁ : KvStore F} {out : ForwardOutput F},
      m.forwardOn b kv = (kv₁, .ok out) → out.vocabSize = m.metadata.vocabSize := by
    intro b kv₁ out h
    by_cases ht : b.tokens = []
    · rw [forwardOn_nil (aligned_of_forwardOn h) ht] at h
      obtain rfl := Except.ok.inj (congrArg Prod.snd h)
      rfl
    · obtain ⟨-, _, _, -, -, -, _, -, rfl⟩ := (forwardOn_eq_ok_iff hfit ht hkv).mp h
      rfl
  have haligned₁ := aligned_of_forwardOn h₁
  have haligned₂ := aligned_of_forwardOn h₂
  by_cases ht₁ : b.tokens = []
  · rw [forwardOn_nil haligned₁ ht₁] at h₁
    obtain rfl : kv = kv₁ := congrArg Prod.fst h₁
    obtain rfl := Except.ok.inj (congrArg Prod.snd h₁)
    refine ⟨kv₂, h₂, forwardOn_nil haligned₁ ht₁, ?_⟩
    rw [haligned₁.eq_empty hb ht₁]
    refine (forwardOn_hasPrefill _).trans (h₂.trans ?_)
    rw [concatOutput, ← hvocab h₂]
    rfl
  by_cases ht₂ : c.tokens = []
  · rw [forwardOn_nil haligned₂ ht₂] at h₂
    obtain rfl : kv = kv₂ := congrArg Prod.fst h₂
    obtain rfl := Except.ok.inj (congrArg Prod.snd h₂)
    refine ⟨kv₁, forwardOn_nil haligned₂ ht₂, h₁, ?_⟩
    have hconcat : b.concat c = { b with hasPrefill := b.hasPrefill || c.hasPrefill } := by
      rw [haligned₂.eq_empty hc ht₂]
      simp [ForwardBatch.concat]
    rw [hconcat]
    refine (forwardOn_hasPrefill _).trans (h₁.trans ?_)
    rw [concatOutput, ← hvocab h₁, List.append_nil, List.append_nil]
  · exact forwardOn_concat_of_ne_nil hfit hdis ht₁ ht₂ hkv h₁ h₂

/-! ## The model with another arena -/

/-- The model with another arena of the same dimensions. -/
def withKv (m : TransformerModel F) (kv : KvStore F) (h : kv.toKvShape = m.kv.toKvShape) :
    TransformerModel F :=
  { m with
    kv := kv
    fits := by rw [h, m.fits] }

theorem layersForward_withKv {kv' : KvStore F} (h : kv'.toKvShape = m.kv.toKvShape)
    (slots : List (BlockId × ℕ)) (layers : List ℕ) (hidden : Tensor.Matrix F) :
    (m.withKv kv' h).layersForward b slots layers hidden kv
      = m.layersForward b slots layers hidden kv := by
  induction layers generalizing hidden kv with
  | nil => rfl
  | cons layer layers ih =>
    show Attempt.andThen _ _ = Attempt.andThen _ _
    congr 1
    funext kv hidden
    exact ih hidden

/-- A pass over an arena does not look at the model's own one. -/
theorem forwardOn_withKv {kv' : KvStore F} (h : kv'.toKvShape = m.kv.toKvShape) :
    (m.withKv kv' h).forwardOn b kv = m.forwardOn b kv := by
  unfold forwardOn
  simp only [layersForward_withKv]
  rfl

theorem forward_eq_ok_iff {m' : TransformerModel F} :
    m.forward b = (m', .ok out)
      ↔ ∃ kv h, m.forwardOn b m.kv = (kv, .ok out) ∧ m' = m.withKv kv h := by
  constructor
  · intro h
    have hrun : (m.forwardOn b m.kv).2 = .ok out := congrArg Prod.snd h
    exact ⟨_, m.shape_forwardOn b m.kv, Prod.ext rfl hrun, (congrArg Prod.fst h).symm⟩
  · rintro ⟨kv, h, hrun, rfl⟩
    unfold forward
    simp only [hrun]
    rfl

/-! ## The rows of the output -/

theorem length_lastRows {a : ℕ} {counts last : List ℕ} (h : lastRows a counts = .ok last) :
    last.length = counts.length := by
  induction counts generalizing a last with
  | nil =>
    obtain rfl := Except.ok.inj h
    rfl
  | cons count counts ih =>
    unfold lastRows at h
    split_ifs at h with hcount
    obtain ⟨rest, hrest, h⟩ := Except.bind_eq_ok_iff.mp h
    obtain rfl := Except.pure_eq_ok_iff.mp h
    rw [List.length_cons, List.length_cons, ih hrest]

/-- One row of logits for each sequence. -/
theorem output_of_forwardOn (hfit : m.ResidualsFit) (hb : ∀ n ∈ b.slotTokenCounts, 0 < n)
    (hkv : kv.toKvShape = m.kv.toKvShape) (h : m.forwardOn b kv = (kv₁, .ok out)) :
    out.sequenceIds = b.sequenceIds ∧ out.vocabSize = m.metadata.vocabSize
      ∧ out.logits.length = b.numSequences * m.head.rows := by
  have haligned := aligned_of_forwardOn h
  by_cases ht : b.tokens = []
  · have hempty := haligned.eq_empty hb ht
    rw [forwardOn_nil haligned ht] at h
    obtain rfl := Except.ok.inj (congrArg Prod.snd h)
    have hids : b.sequenceIds = [] := by rw [hempty]
    refine ⟨hids.symm, rfl, ?_⟩
    rw [ForwardBatch.numSequences, hids]
    exact (Nat.zero_mul _).symm
  · obtain ⟨-, _, _, -, -, -, ls, hls, rfl⟩ := (forwardOn_eq_ok_iff hfit ht hkv).mp h
    obtain ⟨-, last, hlast, rs, hrs, rfl⟩ := logits_eq_ok_iff.mp hls
    refine ⟨rfl, rfl, ?_⟩
    show (rs.flatMap _).length = _
    rw [List.length_flatMap_of_const (fun r _ => (m.logitsRow r).2), ← hrs.length_eq,
      length_lastRows hlast, haligned.counts]
    rfl

/-- The rows of logits laid end to end. -/
theorem row_concatOutput {n : ℕ} (hv₁ : out₁.vocabSize = m.metadata.vocabSize)
    (hv₂ : out₂.vocabSize = m.metadata.vocabSize)
    (hlen : out₁.logits.length = n * m.metadata.vocabSize) :
    (∀ i < n, (m.concatOutput out₁ out₂).row i = out₁.row i)
      ∧ ∀ i, (m.concatOutput out₁ out₂).row (n + i) = out₂.row i := by
  unfold ForwardOutput.row concatOutput
  simp only [hv₁, hv₂, List.length_append, hlen]
  constructor
  · intro i hi
    have hle : i * m.metadata.vocabSize + m.metadata.vocabSize ≤ n * m.metadata.vocabSize := by
      rw [← Nat.succ_mul]
      exact Nat.mul_le_mul_right _ hi
    rw [if_pos (hle.trans (Nat.le_add_right _ _)), if_pos hle,
      List.drop_append_of_le_length (by omega), List.take_append_of_le_length]
    rw [List.length_drop]
    omega
  · intro i
    have hoff : (n + i) * m.metadata.vocabSize
        = n * m.metadata.vocabSize + i * m.metadata.vocabSize := Nat.add_mul n i _
    rw [hoff, ← List.drop_drop, ← hlen, List.drop_left, hlen]
    simp only [Nat.add_assoc, Nat.add_le_add_iff_left]

end TransformerModel

/-- **Batching does not change results.** When the weights have the shapes that
loading checks, two batches that share no block give together the rows they
give on their own, in any order, and leave the same arena. The rows of a batch
meet nowhere but in the arena, and there in different blocks. -/
theorem TransformerModel.forward_concat {F D : Type*} [Scalars F D] {m m₁ m₂ : TransformerModel F}
    {b c : ForwardBatch} {out₁ out₂ : ForwardOutput F} (hfit : m.ResidualsFit)
    (hhead : m.head.rows = m.metadata.vocabSize) (hdis : b.SharesNoBlock c)
    (hb : ∀ n ∈ b.slotTokenCounts, 0 < n) (hc : ∀ n ∈ c.slotTokenCounts, 0 < n)
    (h₁ : m.forward b = (m₁, .ok out₁)) (h₂ : m.forward c = (m₂, .ok out₂)) :
    ∃ m' out, m.forward (b.concat c) = (m', .ok out)
      ∧ m₁.forward c = (m', .ok out₂) ∧ m₂.forward b = (m', .ok out₁)
      ∧ out.sequenceIds = out₁.sequenceIds ++ out₂.sequenceIds
      ∧ out.logits = out₁.logits ++ out₂.logits
      ∧ (∀ i < b.numSequences, out.row i = out₁.row i)
      ∧ ∀ i, out.row (b.numSequences + i) = out₂.row i := by
  obtain ⟨kv₁, hkv₁, hrun₁, rfl⟩ := forward_eq_ok_iff.mp h₁
  obtain ⟨kv₂, hkv₂, hrun₂, rfl⟩ := forward_eq_ok_iff.mp h₂
  obtain ⟨kv', hc', hb', hconcat⟩ := forwardOn_concat hfit hdis hb hc rfl hrun₁ hrun₂
  have hkv' : kv'.toKvShape = m.kv.toKvShape := by
    have hshape := m.shape_forwardOn (b.concat c) m.kv
    rwa [hconcat] at hshape
  have hout₁ := output_of_forwardOn hfit hb rfl hrun₁
  have hout₂ := output_of_forwardOn hfit hc rfl hrun₂
  obtain ⟨hrows₁, hrows₂⟩ := row_concatOutput hout₁.2.1 hout₂.2.1 (hhead ▸ hout₁.2.2)
  refine ⟨m.withKv kv' hkv', m.concatOutput out₁ out₂,
    forward_eq_ok_iff.mpr ⟨kv', hkv', hconcat, rfl⟩, ?_, ?_, rfl, rfl, hrows₁, hrows₂⟩
  · exact forward_eq_ok_iff.mpr
      ⟨kv', hkv'.trans hkv₁.symm, (forwardOn_withKv hkv₁).trans hc', rfl⟩
  · exact forward_eq_ok_iff.mpr
      ⟨kv', hkv'.trans hkv₂.symm, (forwardOn_withKv hkv₂).trans hb', rfl⟩

/-! ## A model of one dimension -/

namespace TinyModel

/-- Rational arithmetic: exact where `f32` is, on the numbers that occur below.
There `sqrt` meets squares only and `exp`, `cos` and `sin` meet zero. -/
instance : Scalars ℚ ℚ where
  zero := 0
  one := 1
  negInfinity := -1000
  ofNat n := n
  add := (· + ·)
  sub := (· - ·)
  mul := (· * ·)
  div := (· / ·)
  powf _ _ := 1
  max := max
  neg x := -x
  sqrt x := Nat.sqrt x.num.toNat / Nat.sqrt x.den
  exp _ := 1
  cos _ := 1
  sin _ := 0
  isFinite _ := true
  isZero x := x == 0
  isPositive x := 0 < x
  widen x := x
  narrow x := x
  wideZero := 0
  wideOne := 1
  wideOfNat n := n
  wideAdd := (· + ·)
  wideMul := (· * ·)
  wideDiv := (· / ·)
  wideSqrt x := Nat.sqrt x.num.toNat / Nat.sqrt x.den

def metadata : ModelMetadata ℚ where
  architecture := "llama"
  name := "one head"
  hiddenSize := 1
  numLayers := 1
  numAttentionHeads := 1
  numKvHeads := 1
  headDim := 2
  vocabSize := 1
  maxPositionEmbeddings := 2
  ropeTheta := 1
  rmsNormEps := 0
  dtype := .f32
  eosTokenIds := []
  bosTokenId := none

/-- One layer whose attention adds nothing but what `oProj` makes of the value
`(1, 0)`, and whose MLP block adds nothing. -/
def weights (oProj : Tensor.Matrix ℚ) : ModelWeights ℚ where
  embedTokens := ⟨[1], 1, 1, rfl⟩
  layers := [{
    inputNorm := [1]
    qProj := ⟨[0, 0], 2, 1, rfl⟩
    kProj := ⟨[0, 0], 2, 1, rfl⟩
    vProj := ⟨[1, 0], 2, 1, rfl⟩
    oProj := oProj
    qBias := none
    kBias := none
    vBias := none
    postAttnNorm := [0]
    gateProj := ⟨[0], 1, 1, rfl⟩
    upProj := ⟨[0], 1, 1, rfl⟩
    downProj := ⟨[0], 1, 1, rfl⟩ }]
  finalNorm := [1]
  lmHead := none

/-- The model, with two blocks of two slots. -/
def model (oProj : Tensor.Matrix ℚ) : TransformerModel ℚ where
  metadata := metadata
  weights := weights oProj
  rope := ⟨[1, 1], [0, 0], 2, 2⟩
  kv := .new ⟨1, 2, 2, 1, 2⟩
  blockSize := 2
  fits := rfl

/-- An output projection onto the one dimension there is. -/
def fitting : TransformerModel ℚ := model ⟨[-2, 0], 1, 2, rfl⟩

/-- An output projection onto two dimensions: adding its output to the hidden
states adds a row's second number to the next row. -/
def misfit : TransformerModel ℚ := model ⟨[0, 0, -2, 0], 2, 2, rfl⟩

/-- A sequence of one token in a block of its own. -/
def batch (id : ℕ) (block : ℕ) : ForwardBatch :=
  ⟨[0], [0], [⟨id⟩], [1], [1], [[⟨block⟩]], true⟩

end TinyModel

deriving instance DecidableEq for ForwardOutput

namespace TransformerModel

open TinyModel

/-- The sequences of `batch` on their own and together, with weights that fit. -/
theorem forward_concat_fitting :
    ∃ m' out, fitting.forward ((batch 1 0).concat (batch 2 1)) = (m', .ok out)
      ∧ (fitting.forward (batch 1 0)).1.forward (batch 2 1) = (m', .ok ⟨[-1], 1, [⟨2⟩]⟩)
      ∧ (fitting.forward (batch 2 1)).1.forward (batch 1 0) = (m', .ok ⟨[-1], 1, [⟨1⟩]⟩)
      ∧ out.sequenceIds = [⟨1⟩] ++ [⟨2⟩] ∧ out.logits = [-1] ++ [-1]
      ∧ (∀ i < (batch 1 0).numSequences, out.row i = ForwardOutput.row ⟨[-1], 1, [⟨1⟩]⟩ i)
      ∧ ∀ i, out.row ((batch 1 0).numSequences + i) = ForwardOutput.row ⟨[-1], 1, [⟨2⟩]⟩ i :=
  forward_concat (fun w hw => by
      rw [List.mem_singleton.mp hw]
      exact ⟨rfl, rfl⟩) rfl (by decide) (by decide) (by decide)
    (Prod.ext rfl (by decide +kernel)) (Prod.ext rfl (by decide +kernel))

/-- With an output projection of the wrong height, the second of two sequences
gets other logits than on its own. -/
theorem forward_concat_misfit :
    TransformerModel.new TinyModel.metadata misfit.weights 2 2 = .ok misfit
      ∧ (batch 1 0).SharesNoBlock (batch 2 1)
      ∧ (misfit.forward (batch 1 0)).2 = .ok ⟨[1], 1, [⟨1⟩]⟩
      ∧ (misfit.forward (batch 2 1)).2 = .ok ⟨[1], 1, [⟨2⟩]⟩
      ∧ (misfit.forward ((batch 1 0).concat (batch 2 1))).2 = .ok ⟨[1, -1], 1, [⟨1⟩, ⟨2⟩]⟩ := by
  refine ⟨rfl, by decide, ?_, ?_, ?_⟩
  · decide +kernel
  · decide +kernel
  · decide +kernel

end TransformerModel
