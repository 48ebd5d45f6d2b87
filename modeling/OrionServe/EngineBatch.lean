import OrionServe.EngineReach

/-!
# The batch of a step

`build_batch` turns the entries of a `schedule` call into the rows the model
sees. Each entry whose sequence is still running contributes the rows of one
slot, in order, and the parallel arrays always belong together, so the checks
of `validate` never fail. What can fail is an entry for a running sequence
that holds no block table.

The position of a decode row was chosen by the scheduler as the total length
of the sequence: the position *behind* its last token and not that of it.
`Engine.decode_rows_shifted` says so for every decode row of every run.
-/

namespace Engine

variable {s : Scheduler KvCacheManager} {b b' : ForwardBatch}

/-! ## Slots -/

/-- The rows an entry contributes: none when its sequence is gone. -/
def entryRows (s : Scheduler KvCacheManager) (e : ScheduledSequence) : List Row :=
  match s.runningSequence e.id, s.cache.rawBlockTable e.id with
  | some seq, some table => (slotOf seq table e).rows
  | _, _ => []

/-- An entry that can be served has a table, or no sequence. -/
def Backed (s : Scheduler KvCacheManager) (e : ScheduledSequence) : Prop :=
  s.runningSequence e.id ≠ none → s.cache.rawBlockTable e.id ≠ none

/-- A slot without tokens has no rows. -/
theorem rows_slotOf_nil {seq : Sequence} {table : List BlockId} {e : ScheduledSequence}
    (h : (entryTokens seq e).isEmpty = true) : (slotOf seq table e).rows = [] := by
  have htokens : (slotOf seq table e).tokens = [] := List.isEmpty_iff.mp h
  unfold BatchSlot.rows
  rw [htokens]
  exact List.zipWith_nil_left

/-- **One entry**: its rows go to the end of an aligned batch. -/
theorem addEntry_ok {e : ScheduledSequence} (h : b.Aligned) (hadd : addEntry s b e = .ok b') :
    b'.Aligned ∧ b'.rows = b.rows ++ entryRows s e := by
  unfold addEntry at hadd
  unfold entryRows
  split at hadd
  · next hgone =>
    obtain rfl := Except.ok.inj hadd
    rw [hgone]
    exact ⟨h, (List.append_nil _).symm⟩
  next seq hseq =>
  split at hadd
  · exact absurd hadd (by simp)
  next table htable =>
  rw [hseq, htable]
  show _ ∧ b'.rows = b.rows ++ (slotOf seq table e).rows
  split at hadd
  · next hempty =>
    obtain rfl := Except.ok.inj hadd
    refine ⟨h, ?_⟩
    rw [rows_slotOf_nil hempty, List.append_nil]
  · obtain rfl := Except.ok.inj hadd
    exact ⟨h.push _, ForwardBatch.rows_push h _⟩

theorem addEntry_isOk_iff {e : ScheduledSequence} :
    (∃ b', addEntry s b e = .ok b') ↔ Backed s e := by
  unfold addEntry Backed
  split
  · next hgone => simp [hgone]
  next seq hseq =>
  split
  · next hnone => simp [hseq, hnone]
  next table htable =>
  simp only [hseq, htable]
  split <;> simp

/-- **The loop**: the rows of all entries, in order. -/
theorem addEntries_ok (es : List ScheduledSequence) :
    ∀ {b b' : ForwardBatch}, b.Aligned → addEntries s b es = .ok b' →
      b'.Aligned ∧ b'.rows = b.rows ++ es.flatMap (entryRows s) := by
  induction es with
  | nil =>
    intro b b' h hadd
    obtain rfl := Except.ok.inj hadd
    exact ⟨h, (List.append_nil _).symm⟩
  | cons e es ih =>
    intro b b' h hadd
    unfold addEntries at hadd
    split at hadd
    · next b₁ hone =>
      obtain ⟨h₁, hrows₁⟩ := addEntry_ok h hone
      obtain ⟨h', hrows'⟩ := ih h₁ hadd
      refine ⟨h', ?_⟩
      rw [hrows', hrows₁, List.append_assoc, List.flatMap_cons]
    · exact absurd hadd (by simp)

theorem addEntries_isOk_iff (es : List ScheduledSequence) :
    ∀ {b : ForwardBatch}, (∃ b', addEntries s b es = .ok b') ↔ ∀ e ∈ es, Backed s e := by
  induction es with
  | nil => exact fun {b} => ⟨fun _ _ he => absurd he List.not_mem_nil, fun _ => ⟨b, rfl⟩⟩
  | cons e es ih =>
    intro b
    rw [List.forall_mem_cons]
    unfold addEntries
    split
    · next b₁ hone =>
      rw [ih]
      exact ⟨fun h => ⟨addEntry_isOk_iff.mp ⟨b₁, hone⟩, h⟩, fun h => h.2⟩
    · next err hone =>
      refine ⟨fun ⟨_, h⟩ => absurd h (by simp), fun h => ?_⟩
      obtain ⟨b₁, hok⟩ := addEntry_isOk_iff.mpr h.1
      exact absurd (hone.symm.trans hok) (by simp)

/-! ## The batch -/

/-- **What `build_batch` builds.** -/
theorem buildBatch_ok {out : SchedulerOutput} (h : buildBatch s out = .ok b) :
    b.Aligned ∧ b.rows = out.scheduled.flatMap (entryRows s) := by
  unfold buildBatch at h
  split at h
  · exact absurd h (by simp)
  next b₁ hadd =>
  split at h
  · exact absurd h (by simp)
  · obtain rfl := Except.ok.inj h
    exact addEntries_ok _ ForwardBatch.aligned_empty hadd

/-- One entry names its sequence, or nobody. -/
theorem ids_addEntry {e : ScheduledSequence} (h : addEntry s b e = .ok b') :
    b'.sequenceIds = b.sequenceIds ∨ b'.sequenceIds = b.sequenceIds ++ [e.id] := by
  unfold addEntry at h
  split at h
  · obtain rfl := Except.ok.inj h
    exact Or.inl rfl
  split at h
  · exact absurd h (by simp)
  split at h
  · obtain rfl := Except.ok.inj h
    exact Or.inl rfl
  · obtain rfl := Except.ok.inj h
    exact Or.inr rfl

/-- **Whom a batch names**: sequences that have an entry, in order. -/
theorem ids_addEntries (es : List ScheduledSequence) : ∀ {b b' : ForwardBatch},
    addEntries s b es = .ok b' → ∃ ids, b'.sequenceIds = b.sequenceIds ++ ids
      ∧ ids.Sublist (es.map ScheduledSequence.id) := by
  induction es with
  | nil =>
    intro b b' h
    obtain rfl := Except.ok.inj h
    exact ⟨[], (List.append_nil _).symm, .slnil⟩
  | cons e es ih =>
    intro b b' h
    unfold addEntries at h
    split at h
    swap
    · exact absurd h (by simp)
    next b₁ hone =>
    obtain ⟨ids, hids, hsub⟩ := ih h
    rcases ids_addEntry hone with heq | heq
    · exact ⟨ids, by rw [hids, heq], hsub.cons _⟩
    · exact ⟨e.id :: ids, by rw [hids, heq, List.append_assoc]; rfl, hsub.cons_cons _⟩

theorem ids_buildBatch {out : SchedulerOutput} (h : buildBatch s out = .ok b) :
    b.sequenceIds.Sublist (out.scheduled.map ScheduledSequence.id) := by
  unfold buildBatch at h
  split at h
  · exact absurd h (by simp)
  next b₁ hadd =>
  split at h
  · exact absurd h (by simp)
  · obtain rfl := Except.ok.inj h
    obtain ⟨ids, hids, hsub⟩ := ids_addEntries _ hadd
    rw [hids]
    exact hsub

/-- **When `build_batch` succeeds**: `validate` has nothing to object to. -/
theorem buildBatch_isOk_iff {out : SchedulerOutput} :
    (∃ b, buildBatch s out = .ok b) ↔ ∀ e ∈ out.scheduled, Backed s e := by
  rw [← addEntries_isOk_iff]
  unfold buildBatch
  constructor
  · rintro ⟨b, h⟩
    split at h
    · exact absurd h (by simp)
    next b₁ hadd => exact ⟨b₁, hadd⟩
  · rintro ⟨b, hadd⟩
    have hvalid := (ForwardBatch.validate_eq_ok_iff b).mpr
      (addEntries_ok _ ForwardBatch.aligned_empty hadd).1
    rw [hadd]
    simp only [hvalid]
    exact ⟨b, rfl⟩

/-! ## Decode rows -/

/-- The row of a decode step. -/
theorem entryRows_decode {e : ScheduledSequence} {seq : Sequence} {table : List BlockId}
    {t : TokenId} (hseq : s.runningSequence e.id = some seq)
    (htable : s.cache.rawBlockTable e.id = some table) (hdec : e.isPrefill = false)
    (hlast : seq.output.getLast? = some t) :
    entryRows s e = [⟨e.id, t, e.startPosition % 2 ^ 32, e.startPosition + 1, table⟩] := by
  have htokens : (slotOf seq table e).tokens = [t] := by
    show entryTokens seq e = [t]
    unfold entryTokens
    rw [if_neg (by simp [hdec]), hlast]
  unfold entryRows
  rw [hseq, htable]
  show (slotOf seq table e).rows = _
  unfold BatchSlot.rows BatchSlot.positions
  rw [htokens]
  rfl

end Engine

/-- **A decode row that goes with its sequence**: the last generated token at
its own position, in a context that ends with it. -/
def Row.GoesWith (row : Row) (seq : Sequence) : Prop :=
  seq.output.getLast? = some row.token
  ∧ row.position = seq.prompt.length + seq.output.length - 1
  ∧ row.contextLen = seq.prompt.length + seq.output.length

namespace Engine

variable {M S F : Type*} [LanguageModel M F] [Sampler S F]
  {config : SchedulerConfig} {n bs firstId : ℕ} {flag : Bool} {model : M} {e : Engine M S}

omit [LanguageModel M F] [Sampler S F] in
/-- The ids in service are apart, whatever the configuration. -/
theorem InService.nodup (h : e.InService config n bs flag firstId) :
    e.scheduler.ids.Nodup := by
  obtain ⟨v, hv, hserves⟩ := h
  exact hserves.sched ▸ hv.inOrder.nodup

/-- **Every decode row is one position too far.** In every step of every run,
with every configuration and every model: the batch consists of the rows of
its entries, and a decode entry of a sequence with prompt `p` and generated
tokens `o` contributes the last of these at position `|p| + |o|` – which the
batch keeps in 32 bits – in a context of `|p| + |o| + 1`. So no decode row
goes with its sequence. -/
theorem decode_rows_shifted (h : e.Reachable config n bs flag model firstId) (now : Instant)
    {b : ForwardBatch}
    (hb : buildBatch (e.scheduled now).scheduler (e.output now) = .ok b) :
    b.rows = (e.output now).scheduled.flatMap (entryRows (e.scheduled now).scheduler)
    ∧ ∀ d ∈ (e.output now).scheduled, d.isPrefill = false →
      ∀ seq t, (e.scheduled now).scheduler.runningSequence d.id = some seq →
        seq.output.getLast? = some t →
        ∃ table, entryRows (e.scheduled now).scheduler d
            = [⟨d.id, t, (seq.prompt.length + seq.output.length) % 2 ^ 32,
              seq.prompt.length + seq.output.length + 1, table⟩]
          ∧ ∀ row ∈ entryRows (e.scheduled now).scheduler d, ¬ row.GoesWith seq := by
  refine ⟨(buildBatch_ok hb).2, fun d hd hdec seq t hseq hlast => ?_⟩
  have hback := buildBatch_isOk_iff.mp ⟨b, hb⟩ d hd (by rw [hseq]; simp)
  obtain ⟨table, htable⟩ := Option.ne_none_iff_exists'.mp hback
  have hnd : (e.expire now).scheduler.ids.Nodup := (h.inService.quiet (e.quiet_expire now)).nodup
  obtain ⟨-, hstart⟩ := Scheduler.schedule_decode hnd hd hdec (List.mem_of_findKey hseq)
    (List.key_of_findKey hseq)
  have hrows := entryRows_decode hseq htable hdec hlast
  rw [hstart] at hrows
  refine ⟨table, hrows, fun row hrow hgoes => ?_⟩
  rw [hrows] at hrow
  obtain rfl := List.mem_singleton.mp hrow
  -- the context alone gives it away
  exact absurd hgoes.2.2 (Nat.succ_ne_self _)

end Engine

/-! ## A run -/

/-- A model that returns one logit per sequence, and fails where its script
says so. -/
structure MockModel where
  /-- Whether each of the next calls fails; one that is not listed does
  not. -/
  failures : List Bool

instance : LanguageModel MockModel ℕ where
  eosTokenIds _ := [15]
  forward m b := (⟨m.failures.tail⟩,
    if m.failures.headD false then .error (.internal ["scripted failure"])
    else .ok ⟨List.replicate b.numSequences 0, 1, b.sequenceIds⟩)

/-- A sampler that always draws the same token. -/
structure MockSampler where
  favoured : TokenId

instance : Sampler MockSampler ℕ where
  sample s _ _ _ := (s, .ok s.favoured)

namespace MockModel

/-- An engine over a pool of `n` blocks of four, with nothing to do. -/
def engine (n : ℕ) (failures : List Bool) : Engine MockModel MockSampler :=
  .new (.new {} (KvCacheManager.new n 4 true)) ⟨failures⟩ 1

/-- A request for this prompt, with room for eight events. -/
def request (prompt : List TokenId) : EngineOp MockSampler :=
  .submit prompt {} ⟨8, [], true⟩ ⟨7⟩ 0

/-- A prompt of three tokens after its prefill: one token is generated. -/
def firstDecode : Engine MockModel MockSampler :=
  EngineOp.runAll (engine 4 []) [request [1, 2, 3], .step 0]

end MockModel

/-- The batch of its second step. -/
def MockModel.decodeBatch : ForwardBatch where
  tokens := [7]
  positions := [4]
  sequenceIds := [⟨1⟩]
  slotTokenCounts := [1]
  contextLens := [5]
  blockTables := [[⟨0⟩]]
  hasPrefill := false

/-- The sequence when that batch is built. -/
def MockModel.decodingSequence : Sequence where
  id := ⟨1⟩
  prompt := [1, 2, 3]
  output := [7]
  computedPrefixLen := 3
  state := .decoding
  finishReason := none
  params := {}
  arrivedAt := 0

namespace Engine

theorem buildBatch_firstDecode :
    buildBatch (MockModel.firstDecode.scheduled 0).scheduler (MockModel.firstDecode.output 0)
      = .ok MockModel.decodeBatch := by
  decide +kernel

theorem runningSequence_firstDecode :
    (MockModel.firstDecode.scheduled 0).scheduler.runningSequence ⟨1⟩
      = some MockModel.decodingSequence := by
  decide +kernel

/-- **The first decode row skips a position**: prefill ended at 2, and the
generated token, which is at 3, is submitted at 4. -/
theorem first_decode_row_at_four :
    MockModel.firstDecode.Reachable {} 4 4 true ⟨[]⟩ 1
    ∧ buildBatch (MockModel.firstDecode.scheduled 0).scheduler
        (MockModel.firstDecode.output 0) = .ok MockModel.decodeBatch
    ∧ (MockModel.firstDecode.scheduled 0).scheduler.runningSequence ⟨1⟩
      = some MockModel.decodingSequence
    ∧ MockModel.decodeBatch.rows = [⟨⟨1⟩, 7, 4, 5, [⟨0⟩]⟩]
    ∧ ¬ Row.GoesWith ⟨⟨1⟩, 7, 4, 5, [⟨0⟩]⟩ MockModel.decodingSequence :=
  ⟨Reachable.start.runAll _, buildBatch_firstDecode, runningSequence_firstDecode, by decide,
    fun h => absurd h.2.1 (by decide)⟩

/-- The same run. -/
theorem decode_rows_shifted_firstDecode :
    ∃ table, entryRows (MockModel.firstDecode.scheduled 0).scheduler ⟨⟨1⟩, 1, 4, false⟩
      = [⟨⟨1⟩, 7, 4, 5, table⟩] := by
  have hreach : MockModel.firstDecode.Reachable {} 4 4 true ⟨[]⟩ 1 := Reachable.start.runAll _
  have h := decode_rows_shifted hreach 0 buildBatch_firstDecode
  obtain ⟨table, hrows, -⟩ := h.2 ⟨⟨1⟩, 1, 4, false⟩ (by decide +kernel) rfl _ 7
    runningSequence_firstDecode rfl
  exact ⟨table, hrows⟩

end Engine
