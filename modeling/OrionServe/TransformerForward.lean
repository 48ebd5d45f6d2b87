import OrionServe.TransformerRows

/-!
# What a forward pass returns

A forward pass over a batch that is not empty succeeds exactly when the batch
is aligned, every row has a slot, the tokens are known, the shapes agree and
the rows go through the layers (`forwardOn_eq_ok_iff`). The logits are then
those of the last row of each sequence.
-/

open Tensor Scalars

namespace ForwardBatch

/-- Where the rows of a batch are. -/
def places (b : ForwardBatch) : List Place :=
  (b.positions.zip b.seqOfRow).map (fun p => ⟨p.1, b.blockTables[p.2]?.getD []⟩)

/-- They are where the rows of the batch say. -/
theorem places_eq {b : ForwardBatch} (h : b.Aligned) : b.places = b.rows.map Row.place := by
  unfold rows
  refine (List.map_zipWith_snd ?_ ?_).symm
  · exact fun _ _ => rfl
  · rw [List.length_zip, length_seqOfRow, h.positions, h.sum, min_self]

theorem Aligned.length_seqOfRow_eq {b : ForwardBatch} (h : b.Aligned) :
    b.seqOfRow.length = b.positions.length := by
  rw [length_seqOfRow, h.sum, h.positions]

theorem length_places {b : ForwardBatch} (h : b.Aligned) : b.places.length = b.tokens.length := by
  unfold places
  rw [List.length_map, List.length_zip, h.length_seqOfRow_eq, min_self, h.positions]

/-- In an aligned batch every row has its table and its context length. -/
theorem points_places {b : ForwardBatch} (h : b.Aligned) :
    List.Forall₂ (TransformerModel.Points b.blockTables b.contextLens) b.places b.seqOfRow := by
  refine List.forall₂_iff_get.mpr ⟨?_, fun i hi hi' => ?_⟩
  · rw [length_places h, h.length_seqOfRow_eq, h.positions]
  have hk : b.seqOfRow[i] < b.sequenceIds.length := by
    rw [← h.counts]
    exact mem_seqOfRow_lt (List.getElem_mem hi')
  have htable := List.getElem?_eq_getElem
    (h.tables.symm ▸ hk : b.seqOfRow[i] < b.blockTables.length)
  have hcontext :=
    List.getElem?_eq_getElem (h.contexts.symm ▸ hk : b.seqOfRow[i] < b.contextLens.length)
  refine ⟨?_, _, hcontext⟩
  simp only [List.get_eq_getElem, places, List.getElem_map, List.getElem_zip]
  rw [htable]
  rfl

theorem positions_places {b : ForwardBatch} (h : b.Aligned) :
    b.positions = b.places.map Place.position := by
  unfold places
  rw [List.map_map]
  show b.positions = (b.positions.zip b.seqOfRow).map Prod.fst
  rw [List.map_fst_zip h.length_seqOfRow_eq.ge]

end ForwardBatch

namespace TransformerModel

variable {F D : Type*} [Scalars F D] {m : TransformerModel F} {kv kv' : KvStore F}
  {batch : ForwardBatch}

/-! ## The slots of the rows -/

variable (m) in
/-- Every row has a slot. -/
def Located (places : List Place) : Prop :=
  ∀ p ∈ places, (locate p.table p.position m.blockSize).isSome

variable (m) in
/-- The slot of one row, as `slots` looks it up. -/
def slotOfRow (batch : ForwardBatch) (p : ℕ × ℕ) : Except Fault (BlockId × ℕ) :=
  match batch.blockTables[p.2]? with
  | none => .error .panicked
  | some table =>
    match locate table p.1 m.blockSize with
    | none => .error (.internal ["position ", .nat p.1,
        " has no block in the table for sequence ", .nat p.2])
    | some a => .ok a

theorem slotOfRow_eq_ok_iff {p : ℕ × ℕ} {a : BlockId × ℕ}
    (hp : p.2 < batch.blockTables.length) :
    m.slotOfRow batch p = .ok a
      ↔ (locate (batch.blockTables[p.2]?.getD []) p.1 m.blockSize).isSome
        ∧ a = m.slotOf ⟨p.1, batch.blockTables[p.2]?.getD []⟩ := by
  unfold slotOfRow
  rw [List.getElem?_eq_getElem hp]
  simp only [Option.getD_some, slotOf]
  rcases locate batch.blockTables[p.2] p.1 m.blockSize with - | a'
  · simp
  · simp only [Except.ok.injEq, Option.isSome_some, Option.getD_some, true_and]
    exact eq_comm

theorem slots_eq_ok_iff (h : batch.Aligned) {slots : List (BlockId × ℕ)} :
    m.slots batch = .ok slots
      ↔ m.Located batch.places ∧ slots = batch.places.map m.slotOf := by
  unfold TransformerModel.slots
  refine List.mapM_eq_ok_iff.trans ?_
  unfold ForwardBatch.places Located
  rw [List.forall_mem_map, List.map_map]
  have hstep : ∀ p ∈ batch.positions.zip batch.seqOfRow, ∀ a, m.slotOfRow batch p = .ok a
      ↔ (locate (batch.blockTables[p.2]?.getD []) p.1 m.blockSize).isSome
        ∧ a = m.slotOf ⟨p.1, batch.blockTables[p.2]?.getD []⟩ := by
    intro p hp a
    refine slotOfRow_eq_ok_iff ?_
    rw [h.tables, ← h.counts]
    exact ForwardBatch.mem_seqOfRow_lt (List.of_mem_zip hp).2
  show List.Forall₂ (fun p a => m.slotOfRow batch p = .ok a) _ slots ↔ _
  generalize batch.positions.zip batch.seqOfRow = rows at hstep
  induction rows generalizing slots with
  | nil =>
    rw [List.forall₂_nil_left_iff]
    exact ⟨fun h => ⟨fun _ hx => absurd hx List.not_mem_nil, h⟩, And.right⟩
  | cons p rows ih =>
    have ih := fun (s : List (BlockId × ℕ)) =>
      @ih s (fun q hq => hstep q (List.mem_cons_of_mem _ hq))
    rw [List.forall₂_cons_left_iff]
    constructor
    · rintro ⟨a, as, ha, has, rfl⟩
      obtain ⟨hloc, rfl⟩ := (hstep p List.mem_cons_self a).mp ha
      obtain ⟨hlocs, rfl⟩ := (ih _).mp has
      exact ⟨List.forall_mem_cons.mpr ⟨hloc, hlocs⟩, rfl⟩
    · rintro ⟨hlocs, rfl⟩
      obtain ⟨hloc, hlocs⟩ := List.forall_mem_cons.mp hlocs
      exact ⟨_, _, (hstep p List.mem_cons_self _).mpr ⟨hloc, rfl⟩, (ih _).mpr ⟨hlocs, rfl⟩, rfl⟩

/-! ## The logits -/

/-- The last row of each sequence, by number. -/
theorem lastRows_shift {a b : ℕ} {counts last : List ℕ} (h : lastRows a counts = .ok last) :
    lastRows (b + a) counts = .ok (last.map (b + ·)) := by
  induction counts generalizing a last with
  | nil =>
    obtain rfl := Except.ok.inj h
    rfl
  | cons count counts ih =>
    unfold lastRows at h ⊢
    split_ifs at h ⊢ with hcount
    obtain ⟨rest, hrest, h⟩ := Except.bind_eq_ok_iff.mp h
    have hrest' := ih hrest
    rw [Nat.add_assoc]
    refine Except.bind_eq_ok_iff.mpr ⟨_, hrest', ?_⟩
    obtain rfl := Except.pure_eq_ok_iff.mp h
    rw [List.map_cons, ← Nat.add_sub_assoc (by omega)]
    rfl

theorem lastRows_append {a : ℕ} {c₁ c₂ l₁ l₂ : List ℕ} (h₁ : lastRows a c₁ = .ok l₁)
    (h₂ : lastRows (a + c₁.sum) c₂ = .ok l₂) : lastRows a (c₁ ++ c₂) = .ok (l₁ ++ l₂) := by
  induction c₁ generalizing a l₁ with
  | nil =>
    obtain rfl := Except.ok.inj h₁
    exact h₂
  | cons count c₁ ih =>
    unfold lastRows at h₁
    split_ifs at h₁ with hcount
    obtain ⟨rest, hrest, h₁⟩ := Except.bind_eq_ok_iff.mp h₁
    obtain rfl := Except.pure_eq_ok_iff.mp h₁
    rw [List.cons_append, lastRows, if_neg hcount]
    refine Except.bind_eq_ok_iff.mpr ⟨_, ih hrest ?_, rfl⟩
    rwa [List.sum_cons, ← Nat.add_assoc] at h₂

/-- The last rows are rows there are. -/
theorem lt_of_mem_lastRows {a : ℕ} {counts last : List ℕ} (h : lastRows a counts = .ok last)
    {i : ℕ} (hi : i ∈ last) : i < a + counts.sum := by
  induction counts generalizing a last with
  | nil =>
    obtain rfl := Except.ok.inj h
    exact absurd hi List.not_mem_nil
  | cons count counts ih =>
    unfold lastRows at h
    split_ifs at h with hcount
    obtain ⟨rest, hrest, h⟩ := Except.bind_eq_ok_iff.mp h
    obtain rfl := Except.pure_eq_ok_iff.mp h
    rw [List.sum_cons]
    rcases List.mem_cons.mp hi with rfl | hi
    · omega
    · have := ih hrest hi
      omega

variable (m) in
/-- The shapes compared after the last layer agree. -/
structure HeadChecked : Prop where
  hidden : m.metadata.hiddenSize ≠ 0
  finalNorm : m.weights.finalNorm.length = m.metadata.hiddenSize
  head : m.head.cols = m.metadata.hiddenSize

variable (m) in
/-- The logits of one row. -/
def logitsRow (x : m.Hidden) : RowVec F m.head.rows :=
  linearRow m.head none (rmsNormRow m.weights.finalNorm m.metadata.rmsNormEps x).1

theorem logits_eq_ok_iff {counts : List ℕ} {hs : List m.Hidden} {ls : List F} :
    m.logits counts (.ofRows hs) = .ok ls
      ↔ m.HeadChecked ∧ ∃ last, lastRows 0 counts = .ok last
        ∧ ∃ rs, List.Forall₂ (fun i r => hs[i]? = some r) last rs
          ∧ ls = rs.flatMap (fun r => (m.logitsRow r).1) := by
  have htail : ∀ (i : ℕ) (r' : m.Hidden),
      m.tailRow (.ofRows (hs.map (rmsNormRow m.weights.finalNorm m.metadata.rmsNormEps))) i
          = .ok r'
        ↔ ∃ r, hs[i]? = some r
          ∧ r' = rmsNormRow m.weights.finalNorm m.metadata.rmsNormEps r := by
    intro i r'
    unfold tailRow
    rw [Matrix.row_ofRows, List.getElem?_map]
    rcases hs[i]? with - | r
    · exact ⟨nofun, nofun⟩
    · simp only [Option.map_some, copyRow]
      rw [dif_pos (rmsNormRow m.weights.finalNorm m.metadata.rmsNormEps r).2]
      exact ⟨fun h => ⟨r, rfl, (Except.ok.inj h).symm⟩,
        fun ⟨_, hr, h⟩ => congrArg _ (Option.some.inj hr ▸ h.symm)⟩
  unfold logits
  constructor
  · intro h
    obtain ⟨normed, hn, h⟩ := Except.bind_eq_ok_iff.mp h
    obtain ⟨⟨hnorm, hne⟩, rfl⟩ := rmsNorm_ofRows.mp hn
    rcases hlast : lastRows 0 counts with e | last
    · rw [hlast] at h
      exact absurd h (by simp)
    rw [hlast] at h
    obtain ⟨tail, ht, h⟩ := Except.bind_eq_ok_iff.mp h
    have ht := List.mapM_eq_ok_iff.mp ht
    simp only [htail] at ht
    obtain ⟨rs, hrs, rfl⟩ := List.forall₂_exists_iff.mp ht
    obtain ⟨out, hl, h⟩ := Except.bind_eq_ok_iff.mp h
    obtain ⟨hc, rfl⟩ := linear_ofRows.mp hl
    obtain rfl := Except.pure_eq_ok_iff.mp h
    refine ⟨⟨hne, hnorm, hc.1⟩, last, rfl, rs, hrs, ?_⟩
    have htails : List.zipWith (fun _ r => rmsNormRow m.weights.finalNorm
        m.metadata.rmsNormEps r) last rs
        = rs.map (rmsNormRow m.weights.finalNorm m.metadata.rmsNormEps) := by
      have hmap := List.map_zipWith_snd (g := fun (_ : ℕ) r => rmsNormRow m.weights.finalNorm
        m.metadata.rmsNormEps r) (f := id) (fun _ _ => rfl) hrs.length_eq
      rwa [List.map_id] at hmap
    show List.flatMap _ (List.map _ (List.zipWith _ last rs)) = _
    rw [htails, List.map_map, List.flatMap_map]
    rfl
  · rintro ⟨hc, last, hlast, rs, hrs, rfl⟩
    refine Except.bind_eq_ok_iff.mpr ⟨_, rmsNorm_ofRows.mpr ⟨⟨hc.finalNorm, hc.hidden⟩, rfl⟩, ?_⟩
    rw [hlast]
    refine Except.bind_eq_ok_iff.mpr
      ⟨rs.map (rmsNormRow m.weights.finalNorm m.metadata.rmsNormEps),
      List.mapM_eq_ok_iff.mpr ?_, ?_⟩
    · simp only [htail, List.forall₂_map_right_iff]
      exact hrs.imp (fun i r hr => ⟨r, hr, rfl⟩)
    refine Except.bind_eq_ok_iff.mpr ⟨_, linear_ofRows.mpr ⟨⟨hc.head, rfl⟩, rfl⟩, ?_⟩
    refine Except.pure_eq_ok_iff.mpr ?_
    show List.flatMap _ (List.map _ (List.map _ rs)) = _
    rw [List.map_map, List.flatMap_map]
    rfl

/-! ## The whole pass -/

variable (m) in
/-- The rows that a batch starts with: the embeddings of its tokens. -/
def Embedded (batch : ForwardBatch) (ps : List (Place × m.Hidden)) : Prop :=
  ps.map Prod.fst = batch.places
    ∧ List.Forall₂ (fun tok p => m.embedRow tok = .ok p.2) batch.tokens ps

theorem embed_eq_ok_iff (h : batch.Aligned) {hidden : Tensor.Matrix F} :
    m.embed batch.tokens = .ok hidden
      ↔ ∃ ps, m.Embedded batch ps ∧ hidden = .ofRows (ps.map Prod.snd) := by
  have hiff : m.embed batch.tokens = .ok hidden
      ↔ ∃ rows, batch.tokens.mapM m.embedRow = .ok rows ∧ hidden = .ofRows rows := by
    unfold embed
    rcases batch.tokens.mapM m.embedRow with e | rows
    · exact ⟨nofun, nofun⟩
    · exact ⟨fun h => ⟨rows, rfl, (Except.ok.inj h).symm⟩,
        fun ⟨_, hr, h⟩ => Except.ok.inj hr ▸ congrArg Except.ok h.symm⟩
  rw [hiff]
  clear hiff
  constructor
  · rintro ⟨rows, hrows, rfl⟩
    have hrows := List.mapM_eq_ok_iff.mp hrows
    have hlen : batch.places.length = rows.length := by
      rw [ForwardBatch.length_places h, hrows.length_eq]
    have hsnd := (List.map_snd_zip hlen.ge).symm
    refine ⟨batch.places.zip rows, ⟨List.map_fst_zip hlen.le, ?_⟩, congrArg _ hsnd⟩
    rw [hsnd, List.forall₂_map_right_iff] at hrows
    exact hrows
  · rintro ⟨ps, ⟨-, hps⟩, rfl⟩
    exact ⟨_, List.mapM_eq_ok_iff.mpr (List.forall₂_map_right_iff.mpr hps), rfl⟩

/-- **A forward pass over a batch that is not empty.** -/
theorem forwardOn_eq_ok_iff (hfit : m.ResidualsFit) (hne : batch.tokens ≠ [])
    (hkv : kv.toKvShape = m.kv.toKvShape) {out : ForwardOutput F} :
    m.forwardOn batch kv = (kv', .ok out)
      ↔ (batch.Aligned ∧ m.Located batch.places
          ∧ m.AllChecked (List.range m.metadata.numLayers))
        ∧ ∃ ps qs, m.Embedded batch ps ∧ kv'.toKvShape = m.kv.toKvShape
          ∧ m.stack.Run (List.range m.metadata.numLayers) kv.view ps kv'.view qs
          ∧ ∃ ls, m.logits batch.slotTokenCounts (.ofRows (qs.map Prod.snd)) = .ok ls
            ∧ out = ⟨ls, m.metadata.vocabSize, batch.sequenceIds⟩ := by
  have hempty : ¬ batch.isEmpty = true := by
    unfold ForwardBatch.isEmpty
    rwa [List.isEmpty_iff]
  have hrows : batch.Aligned → m.Rows batch (batch.places.map m.slotOf) batch.places := by
    intro h
    refine ⟨ForwardBatch.positions_places h, rfl, ForwardBatch.points_places h, ?_⟩
    exact List.ne_nil_of_length_pos
      ((ForwardBatch.length_places h).symm ▸ List.length_pos_of_ne_nil hne)
  unfold forwardOn
  constructor
  · intro h
    rcases hvalid : batch.validate with e | ⟨⟩
    · rw [hvalid] at h
      exact absurd (congrArg Prod.snd h) (by simp)
    have haligned := (ForwardBatch.validate_eq_ok_iff batch).mp hvalid
    rw [hvalid] at h
    simp only at h
    rw [if_neg hempty] at h
    rcases hslots : m.slots batch with e | slots
    · rw [hslots] at h
      exact absurd (congrArg Prod.snd h) (by simp)
    rw [hslots] at h
    obtain ⟨hlocated, rfl⟩ := (slots_eq_ok_iff haligned).mp hslots
    rcases hemb : m.embed batch.tokens with e | hidden
    · rw [hemb] at h
      exact absurd (congrArg Prod.snd h) (by simp)
    rw [hemb] at h
    obtain ⟨ps, hps, rfl⟩ := (embed_eq_ok_iff haligned).mp hemb
    obtain ⟨kv₁, hidden, hlayers, hrest⟩ := Attempt.andThen_eq_ok_iff.mp h
    obtain rfl : kv₁ = kv' := congrArg Prod.fst hrest
    obtain ⟨hchecked, qs, rfl, hkv', hrun⟩ :=
      (layersForward_eq_ok_iff hfit (hrows haligned) hkv hps.1).mp hlayers
    obtain ⟨ls, hls, hout⟩ := Except.bind_eq_ok_iff.mp (congrArg Prod.snd hrest)
    exact ⟨⟨haligned, hlocated, hchecked⟩, ps, qs, hps, hkv', hrun, ls, hls,
      (Except.pure_eq_ok_iff.mp hout).symm⟩
  · rintro ⟨⟨haligned, hlocated, hchecked⟩, ps, qs, hps, hkv', hrun, ls, hls, rfl⟩
    rw [(ForwardBatch.validate_eq_ok_iff batch).mpr haligned]
    simp only
    rw [if_neg hempty, (slots_eq_ok_iff haligned).mpr ⟨hlocated, rfl⟩,
      (embed_eq_ok_iff haligned).mpr ⟨ps, hps, rfl⟩]
    refine Attempt.andThen_eq_ok_iff.mpr ⟨kv', .ofRows (qs.map Prod.snd), ?_, Prod.ext rfl ?_⟩
    · exact (layersForward_eq_ok_iff hfit (hrows haligned) hkv hps.1).mpr
        ⟨hchecked, qs, rfl, hkv', hrun⟩
    · exact Except.bind_eq_ok_iff.mpr ⟨ls, hls, rfl⟩

end TransformerModel
