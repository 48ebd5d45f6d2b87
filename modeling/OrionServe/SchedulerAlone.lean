import OrionServe.SchedulerTurns
import OrionServe.SchedulerReach
import OrionServe.CacheRoom

/-!
# One request alone

`add_request` compares the prompt of a request with the size of the cache,
and the length of prompt and output with the context limit, if there is one.
What the request will need of the cache is another number: the blocks of its
prompt, and a place for every token that is appended until the last one is
drawn.

Here a request is served alone, turn after turn, on a scheduler that was
idle. It goes through three stages – it waits, it is in the middle of its
prompt, it generates – and each turn takes it on, ends it, or evicts it
because its table cannot grow. Which of these happens depends on the free
blocks only: `Service.never_preempted_iff`.
-/

variable {C : Type*} [KvCacheManagerLike C]

namespace Scheduler

/-! ## Tokens for the one sequence that runs -/

/-- The request a sequence belongs to, whatever has happened to it since. -/
structure SameRequest (q₀ q : Sequence) : Prop where
  id : q.id = q₀.id
  prompt : q.prompt = q₀.prompt
  params : q.params = q₀.params

theorem SameRequest.trans {q₀ q q' : Sequence} (h : SameRequest q₀ q) (h' : SameRequest q q') :
    SameRequest q₀ q' :=
  ⟨h'.id.trans h.id, h'.prompt.trans h.prompt, h'.params.trans h.params⟩

variable {s : Scheduler C} {q q₀ : Sequence} {eosIds : List TokenId} {tokens : ℕ → TokenId}

omit [KvCacheManagerLike C] in
theorem runningSequence_singleton (hrun : s.running = [q]) :
    s.runningSequence q.id = some q := by
  unfold runningSequence
  rw [hrun]
  simp [List.findKey]

omit [KvCacheManagerLike C] in
/-- A sequence that takes no token. -/
theorem answerEntry_skip (hrun : s.running = [q])
    (h : (!q.isFinished && q.isPrefillComplete) = false) (x : ScheduledSequence × ℕ)
    (hx : x.1.id = q.id) : answerEntry eosIds tokens s x = s := by
  unfold answerEntry takesToken
  rw [hx, runningSequence_singleton hrun, Option.any_some, h]
  rfl

omit [KvCacheManagerLike C] in
theorem answer_skip (hrun : s.running = [q])
    (h : (!q.isFinished && q.isPrefillComplete) = false)
    {xs : List (ScheduledSequence × ℕ)} (hxs : ∀ x ∈ xs, x.1.id = q.id) :
    xs.foldl (answerEntry eosIds tokens) s = s := by
  induction xs with
  | nil => rfl
  | cons x xs ih =>
    rw [List.foldl_cons, answerEntry_skip hrun h x (hxs x List.mem_cons_self)]
    exact ih (fun y hy => hxs y (List.mem_cons_of_mem _ hy))

omit [KvCacheManagerLike C] in
/-- **Tokens that do not stop a sequence** are recorded until the last one it
asked for. -/
theorem answer_goes_on {xs : List (ScheduledSequence × ℕ)} :
    ∀ {s : Scheduler C} {q : Sequence}, s.running = [q] → q.state ≠ .finished →
      q.prompt.length ≤ q.computedPrefixLen →
      (∀ i, tokens i ∉ eosIds ∧ tokens i ∉ q.params.stopTokenIds) →
      q.output.length < max q.params.maxTokens 1 → (∀ x ∈ xs, x.1.id = q.id) →
      ∃ q', xs.foldl (answerEntry eosIds tokens) s = { s with running := [q'] }
        ∧ SameRequest q q' ∧ q'.computedPrefixLen = q.computedPrefixLen
        ∧ ((q'.state = q.state ∧ q'.output.length = q.output.length + xs.length
            ∧ q.output.length + xs.length < max q.params.maxTokens 1)
          ∨ (q'.state = .finished ∧ max q.params.maxTokens 1 ≤ q.output.length + xs.length)) := by
  induction xs with
  | nil =>
    intro s q hrun _ _ _ hmore _
    exact ⟨q, by rw [← hrun]; rfl, ⟨rfl, rfl, rfl⟩, rfl, Or.inl ⟨rfl, rfl, hmore⟩⟩
  | cons x xs ih =>
    intro s q hrun hne hthrough hgo hmore hxs
    have htakes : (!q.isFinished && q.isPrefillComplete) = true := by
      simp [Sequence.isFinished, Sequence.isPrefillComplete, hne, hthrough]
    have hfind := runningSequence_singleton hrun
    have hnostop : stopReason (q.pushToken (tokens x.2)) (tokens x.2) eosIds q.params
        = if q.params.maxTokens ≤ q.output.length + 1 then some .length else none := by
      unfold stopReason Sequence.reachedMaxTokens
      have h := hgo x.2
      simp [h.1, h.2, Sequence.pushToken]
    set q₁ := tokenReceived (tokens x.2) eosIds q with hq₁
    have hstep : answerEntry eosIds tokens s x = { s with running := [q₁] } := by
      unfold answerEntry takesToken
      rw [hxs x List.mem_cons_self, hfind, Option.any_some, htakes, if_pos rfl]
      unfold onToken
      rw [hfind]
      show { s with running := s.running.updateKey _ _ _ } = _
      rw [hrun]
      simp [List.updateKey, hq₁]
    rw [List.foldl_cons, hstep, List.length_cons]
    by_cases hlast : q.params.maxTokens ≤ q.output.length + 1
    · have hq₁' : q₁ = (q.pushToken (tokens x.2)).finish .length := by
        rw [hq₁]
        simp only [tokenReceived]
        rw [show stopReason (q.pushToken (tokens x.2)) (tokens x.2) eosIds
          (q.pushToken (tokens x.2)).params = some .length from hnostop.trans (if_pos hlast)]
      have hfin : q₁.state = .finished := by
        rw [hq₁']
        exact Sequence.finish_state _ _
      have hsame : SameRequest q q₁ := by
        rw [hq₁']
        unfold Sequence.finish
        split <;> exact ⟨rfl, rfl, rfl⟩
      have hcomputed : q₁.computedPrefixLen = q.computedPrefixLen :=
        (q.ends_tokenReceived _ _).computed
      refine ⟨q₁, ?_, hsame, hcomputed, Or.inr ⟨hfin, ?_⟩⟩
      · refine answer_skip rfl ?_ (fun y hy => ?_)
        · simp [Sequence.isFinished, hfin]
        · exact (hxs y (List.mem_cons_of_mem _ hy)).trans hsame.id.symm
      · omega
    · have hq₁' : q₁ = q.pushToken (tokens x.2) := by
        rw [hq₁]
        simp only [tokenReceived]
        rw [show stopReason (q.pushToken (tokens x.2)) (tokens x.2) eosIds
          (q.pushToken (tokens x.2)).params = none from hnostop.trans (if_neg hlast)]
      have hlen : q₁.output.length = q.output.length + 1 := by
        rw [hq₁']
        exact List.length_append
      have hsame : SameRequest q q₁ := by
        rw [hq₁']
        exact ⟨rfl, rfl, rfl⟩
      have hrest := ih (s := { s with running := [q₁] }) (q := q₁) rfl
        (by rw [hq₁']; exact hne) (by rw [hq₁']; exact hthrough) (by rw [hq₁']; exact hgo)
        (by rw [hlen, hsame.params]; omega)
        (fun y hy => (hxs y (List.mem_cons_of_mem _ hy)).trans hsame.id.symm)
      obtain ⟨q', hfold, hsame', hcomputed, hcount⟩ := hrest
      refine ⟨q', hfold, hsame.trans hsame', hcomputed.trans (by rw [hq₁']; rfl), ?_⟩
      rw [hlen, hsame.params] at hcount
      rcases hcount with ⟨hst, hl, hlt⟩ | ⟨hst, hle⟩
      · exact Or.inl ⟨hst.trans (by rw [hq₁']; rfl), by omega, by omega⟩
      · exact Or.inr ⟨hst, by omega⟩

/-- **The rest of a turn** whose call left one sequence, through with its
prompt. -/
theorem turn_through {s₁ : Scheduler C} {out : SchedulerOutput}
    (hsched : s.schedule = (s₁, out)) (hrun : s₁.running = [q]) (hne : q.state ≠ .finished)
    (hthrough : q.prompt.length ≤ q.computedPrefixLen)
    (hgo : ∀ i, tokens i ∉ eosIds ∧ tokens i ∉ q.params.stopTokenIds)
    (hmore : q.output.length < max q.params.maxTokens 1)
    (hids : ∀ e ∈ out.scheduled, e.id = q.id) :
    (∃ q', (s.turn eosIds tokens).1 = { s₁ with running := [q'] } ∧ SameRequest q q'
        ∧ q'.computedPrefixLen = q.computedPrefixLen ∧ q'.state = q.state
        ∧ q'.output.length = q.output.length + out.scheduled.length
        ∧ q.output.length + out.scheduled.length < max q.params.maxTokens 1)
    ∨ ((s.turn eosIds tokens).1.running = []
        ∧ (s.turn eosIds tokens).1.waiting = s₁.waiting
        ∧ (s.turn eosIds tokens).1.config = s₁.config
        ∧ max q.params.maxTokens 1 ≤ q.output.length + out.scheduled.length) := by
  have hxs : ∀ x ∈ out.scheduled.zipIdx, x.1.id = q.id := fun x hx =>
    hids x.1 (List.fst_mem_of_mem_zipIdx hx)
  obtain ⟨q', hfold, hsame, hcomputed, hcount⟩ :=
    answer_goes_on hrun hne hthrough hgo hmore hxs
  rw [List.length_zipIdx] at hcount
  have hanswer : s₁.answer eosIds tokens out.scheduled = { s₁ with running := [q'] } := hfold
  have hturn : (s.turn eosIds tokens).1
      = (s₁.answer eosIds tokens out.scheduled).reapFinished.1 := by
    unfold turn
    rw [hsched]
  rw [hturn, hanswer]
  rcases hcount with ⟨hst, hlen, hlt⟩ | ⟨hfin, hle⟩
  · refine Or.inl ⟨q', ?_, hsame, hcomputed, hst, hlen, hlt⟩
    have hnot : q'.isFinished = false := by
      unfold Sequence.isFinished
      rw [hst]
      simpa using hne
    unfold reapFinished
    simp [hnot]
  · refine Or.inr ⟨?_, rfl, rfl, hle⟩
    have hyes : q'.isFinished = true := by
      unfold Sequence.isFinished
      rw [hfin]
      rfl
    unfold reapFinished
    simp [hyes]

/-- In the middle of a prompt no token is due. -/
theorem turn_reading {s₁ : Scheduler C} {out : SchedulerOutput}
    (hsched : s.schedule = (s₁, out)) (hrun : s₁.running = [q]) (hne : q.state ≠ .finished)
    (hleft : q.computedPrefixLen < q.prompt.length)
    (hids : ∀ e ∈ out.scheduled, e.id = q.id) : (s.turn eosIds tokens).1 = s₁ := by
  have hxs : ∀ x ∈ out.scheduled.zipIdx, x.1.id = q.id := fun x hx =>
    hids x.1 (List.fst_mem_of_mem_zipIdx hx)
  have hanswer : s₁.answer eosIds tokens out.scheduled = s₁ := by
    refine answer_skip hrun ?_ hxs
    simp [Sequence.isPrefillComplete, hleft]
  have hturn : (s.turn eosIds tokens).1
      = (s₁.answer eosIds tokens out.scheduled).reapFinished.1 := by
    unfold turn
    rw [hsched]
  have hnot : q.isFinished = false := by
    unfold Sequence.isFinished
    simpa using hne
  rw [hturn, hanswer]
  unfold reapFinished
  rw [hrun]
  simp only [List.filter_cons, hnot, List.filter_nil, Bool.false_eq_true, if_false,
    List.foldl_nil, Bool.not_false, if_true]
  rw [← hrun]

end Scheduler

namespace Scheduler

/-! ## The stages of the request

`room` is the number of blocks the table of the request can grow to. -/

/-- How many tokens are appended to the table of a request served alone: one
for every token but the last, and one more if a prefill-first call lets it
decode in the call in which its prompt ends. -/
def appendsOf (config : SchedulerConfig) (promptLen maxTokens : ℕ) : ℕ :=
  max maxTokens 1 - 1
    + if config.prioritizeDecode = false ∧ maxTokens ≤ 1
        ∧ ¬ config.maxNumBatchedTokens ∣ promptLen then 1 else 0

section Stages

variable (config : SchedulerConfig) (bs room : ℕ) (q₀ : Sequence)

/-- The request fits: the blocks suffice for all appends. -/
def Suffices : Prop :=
  BlockTable.blocksRequired (q₀.prompt.length
    + appendsOf config q₀.prompt.length q₀.params.maxTokens) bs ≤ room

/-- It waits. -/
structure Waits (s : Scheduler KvCacheManager) : Prop where
  configured : s.config = config
  running : s.running = []
  waiting : s.waiting = [q₀]
  fits : KvCacheManagerLike.canAllocate s.cache q₀.promptLen = true
  admits : ∃ c, KvCacheManagerLike.allocate s.cache q₀.id q₀.prompt = (c, .ok ())
    ∧ c.blockSize = bs ∧ c.Extensible q₀.id q₀.prompt.length room

/-- It is in the middle of its prompt. -/
structure Reads (s : Scheduler KvCacheManager) (computed : ℕ) : Prop where
  configured : s.config = config
  running : ∃ q, s.running = [q] ∧ SameRequest q₀ q ∧ q.state = .prefilling
    ∧ q.computedPrefixLen = computed ∧ q.output = []
  waiting : s.waiting = []
  started : 0 < computed
  left : computed < q₀.prompt.length
  whole : config.maxNumBatchedTokens ∣ computed
  chunked : config.enableChunkedPrefill = true
  blockSize : s.cache.blockSize = bs
  table : s.cache.Extensible q₀.id q₀.prompt.length room

/-- It generates, with so many tokens appended to its table. -/
structure Generates (s : Scheduler KvCacheManager) (appends : ℕ) : Prop where
  configured : s.config = config
  running : ∃ q, s.running = [q] ∧ SameRequest q₀ q ∧ q.state = .decoding
    ∧ q₀.prompt.length ≤ q.computedPrefixLen ∧ q.output.length = appends + 1
  waiting : s.waiting = []
  more : appends + 1 < max q₀.params.maxTokens 1
  blockSize : s.cache.blockSize = bs
  table : s.cache.Extensible q₀.id (q₀.prompt.length + appends) room

/-- It was served. -/
structure Served (s : Scheduler KvCacheManager) : Prop where
  running : s.running = []
  waiting : s.waiting = []
  adequate : Suffices config bs room q₀

/-- **A request on its way**, with a bound on the turns it still takes. -/
inductive Live (s : Scheduler KvCacheManager) : ℕ → Prop
  | waits (h : Waits config bs room q₀ s) :
      Live s (q₀.prompt.length + max q₀.params.maxTokens 1 + 1)
  | reads {computed : ℕ} (h : Reads config bs room q₀ s computed) :
      Live s (q₀.prompt.length - computed + max q₀.params.maxTokens 1 + 1)
  | generates {a : ℕ} (h : Generates config bs room q₀ s a) :
      Live s (max q₀.params.maxTokens 1 - a)

/-- **After its prefill pass** of a turn: a chunk has brought it this far. -/
structure Prefilled (p : Pass KvCacheManager) (chunk computed : ℕ) : Prop where
  configured : p.sched.config = config
  running : ∃ q, p.sched.running = [q] ∧ SameRequest q₀ q ∧ q.computedPrefixLen = computed
    ∧ q.output = [] ∧ q.state = if computed < q₀.prompt.length then .prefilling else .decoding
  waiting : p.sched.waiting = []
  scheduled : ∃ e, p.out.scheduled = [e] ∧ e.id = q₀.id
  preempted : p.out.preempted = []
  used : p.used = chunk
  started : 0 < computed
  le : computed ≤ q₀.prompt.length
  whole : config.maxNumBatchedTokens ∣ computed ↔ chunk = config.maxNumBatchedTokens
  within : chunk ≤ config.maxNumBatchedTokens
  chunked : computed < q₀.prompt.length →
    config.enableChunkedPrefill = true ∧ chunk = config.maxNumBatchedTokens
  blockSize : p.sched.cache.blockSize = bs
  table : p.sched.cache.Extensible q₀.id q₀.prompt.length room

/-- **After the passes** of a turn with the tokens of which the request has so
many appends behind it. -/
structure Asked (p : Pass KvCacheManager) (appends : ℕ) : Prop where
  configured : p.sched.config = config
  running : ∃ q, p.sched.running = [q] ∧ SameRequest q₀ q ∧ q.state = .decoding
    ∧ q₀.prompt.length ≤ q.computedPrefixLen
    ∧ q.output.length + p.out.scheduled.length = appends + 1
    ∧ q.output.length < max q₀.params.maxTokens 1
  waiting : p.sched.waiting = []
  scheduled : ∀ e ∈ p.out.scheduled, e.id = q₀.id
  preempted : p.out.preempted = []
  blockSize : p.sched.cache.blockSize = bs
  table : p.sched.cache.Extensible q₀.id (q₀.prompt.length + appends) room

end Stages

variable {config : SchedulerConfig} {bs room : ℕ} {q₀ : Sequence}
  {s : Scheduler KvCacheManager}

/-! ## The prefill pass of a turn -/

/-- A chunk that is not all that is left fills the room, and without chunking
there is no such chunk. -/
theorem chunk_cases {remaining budget chunk : ℕ}
    (hc : Pass.chunkFor config remaining budget = some chunk) :
    chunk ≤ remaining ∧ chunk ≤ budget
      ∧ (chunk < remaining → config.enableChunkedPrefill = true ∧ chunk = budget) := by
  obtain ⟨hleft, hroom⟩ := Pass.chunkFor_le hc
  refine ⟨hleft, hroom, fun hlt => ?_⟩
  unfold Pass.chunkFor at hc
  split at hc
  · next hon =>
    have hmin := Option.some.inj hc
    exact ⟨hon, by omega⟩
  · split at hc
    · exact absurd (Option.some.inj hc) hlt.ne'
    · exact absurd hc (by simp)

/-- What the chunks so far add up to. -/
theorem dvd_add_chunk_iff {budget computed chunk : ℕ} (hwhole : budget ∣ computed)
    (hpos : 0 < chunk) (hle : chunk ≤ budget) : budget ∣ computed + chunk ↔ chunk = budget := by
  rw [Nat.dvd_add_right hwhole]
  exact ⟨fun hd => le_antisymm hle (Nat.le_of_dvd hpos hd), fun h => h ▸ dvd_rfl⟩

/-- The prefill pass of a waiting request. -/
theorem Waits.prefilled (h : Waits config bs room q₀ s) (hstate : q₀.state = .waiting)
    (hfirst : q₀.computedPrefixLen = 0) (houtput : q₀.output = [])
    (hslot : 0 < config.maxNumSeqs) {chunk : ℕ}
    (hc : Pass.chunkFor config q₀.promptLen config.maxNumBatchedTokens = some chunk)
    (hpos : 0 < chunk) :
    Prefilled config bs room q₀ s.pass.schedulePrefills chunk chunk := by
  obtain ⟨c, ha, hbs, htable⟩ := h.admits
  obtain ⟨hleft, hroom, hpart⟩ := chunk_cases hc
  have hpass : s.pass.schedulePrefills = (s.pass.withCache c).bringIn q₀ [] chunk := by
    refine Pass.schedulePrefills_admit h.running h.waiting ?_ ?_ ?_ hpos.ne' hfirst h.fits ha
    · show 0 < s.config.maxNumSeqs
      rw [h.configured]
      exact hslot
    · show 0 < s.config.maxNumBatchedTokens
      rw [h.configured]
      exact hpos.trans_le hroom
    · rw [hfirst, Nat.sub_zero]
      show Pass.chunkFor s.config q₀.promptLen s.config.maxNumBatchedTokens = _
      rw [h.configured]
      exact hc
  have hmin : min (q₀.computedPrefixLen + chunk) q₀.prompt.length = chunk := by
    rw [hfirst, Nat.zero_add]
    exact min_eq_left hleft
  have hseq : Pass.prefilled q₀ chunk = { q₀ with
      computedPrefixLen := chunk
      state := if chunk < q₀.prompt.length then .prefilling else .decoding } := by
    simp only [Pass.prefilled, Sequence.advancePrefill, hmin, hstate, if_true,
      Sequence.transitionTo, SequenceState.canTransitionTo, Sequence.isPrefillComplete]
    by_cases hlt : chunk < q₀.prompt.length
    · simp [hlt]
    · simp [hlt, not_lt.mp hlt]
  rw [hpass]
  refine ⟨h.configured, ⟨Pass.prefilled q₀ chunk, ?_, ?_, ?_, ?_, ?_⟩, rfl, ⟨_, rfl, rfl⟩, rfl,
    Nat.zero_add _, hpos, hleft, ?_, hroom, hpart, hbs, htable⟩
  · show s.running ++ [_] = _
    rw [h.running]
    rfl
  · rw [hseq]
    exact ⟨rfl, rfl, rfl⟩
  · rw [hseq]
  · rw [hseq]
    exact houtput
  · rw [hseq]
  · have hdvd := dvd_add_chunk_iff (dvd_zero config.maxNumBatchedTokens) hpos hroom
    rwa [Nat.zero_add] at hdvd

/-- The prefill pass in the middle of the prompt. -/
theorem Reads.prefilled {computed : ℕ} (h : Reads config bs room q₀ s computed)
    (hbudget : 0 < config.maxNumBatchedTokens) :
    ∃ chunk, 0 < chunk ∧ Prefilled config bs room q₀ s.pass.schedulePrefills chunk
      (computed + chunk) := by
  obtain ⟨q, hrun, hsame, hstate, hcomputed, houtput⟩ := h.running
  have hremaining : q.remainingPrefill = q₀.prompt.length - computed := by
    unfold Sequence.remainingPrefill
    rw [hsame.prompt, hcomputed]
  obtain ⟨chunk, hchunk⟩ : ∃ chunk,
      chunk = min (q₀.prompt.length - computed) config.maxNumBatchedTokens := ⟨_, rfl⟩
  have hc : Pass.chunkFor config q.remainingPrefill config.maxNumBatchedTokens
      = some chunk := by
    unfold Pass.chunkFor
    rw [if_pos h.chunked, hremaining, hchunk]
  have hleft := h.left
  have hpos : 0 < chunk := by
    rw [hchunk]
    exact lt_min (Nat.sub_pos_of_lt hleft) hbudget
  obtain ⟨hle, hroom, hpart⟩ := chunk_cases hc
  rw [hremaining] at hle hpart
  have hpass : s.pass.schedulePrefills = ({ s.pass with sched := { s.pass.sched with
      running := [Pass.resumed q chunk] } } : Pass KvCacheManager).emit
        ⟨q.id, chunk, q.computedPrefixLen, true⟩ := by
    refine Pass.schedulePrefills_resume hrun h.waiting hstate ?_ ?_ ?_ hpos.ne'
    · rw [hcomputed, hsame.prompt]
      exact hleft
    · show 0 < s.config.maxNumBatchedTokens
      rw [h.configured]
      exact hbudget
    · show Pass.chunkFor s.config q.remainingPrefill s.config.maxNumBatchedTokens = _
      rw [h.configured]
      exact hc
  have hadvance : q.advancePrefill chunk = { q with computedPrefixLen := computed + chunk } := by
    unfold Sequence.advancePrefill
    rw [hcomputed, hsame.prompt, min_eq_left (by omega)]
  have hseq : Pass.resumed q chunk = { q with
      computedPrefixLen := computed + chunk
      state := if computed + chunk < q₀.prompt.length then .prefilling else .decoding } := by
    simp only [Pass.resumed, hadvance, Sequence.transitionTo, SequenceState.canTransitionTo,
      Sequence.isPrefillComplete, hstate, hsame.prompt]
    by_cases hlt : computed + chunk < q₀.prompt.length
    · rw [if_neg (by simpa using hlt), if_pos hlt, ← hstate]
    · rw [if_pos (by simpa using hlt), if_neg hlt]
      rfl
  refine ⟨chunk, hpos, ?_⟩
  rw [hpass]
  refine ⟨h.configured, ⟨Pass.resumed q chunk, rfl, ?_, ?_, ?_, ?_⟩, h.waiting,
    ⟨_, rfl, hsame.id⟩, rfl, Nat.zero_add _, by omega, by omega,
    dvd_add_chunk_iff h.whole hpos hroom, hroom, fun hlt => hpart (by omega), h.blockSize,
    h.table⟩
  · rw [hseq]
    exact ⟨hsame.id, hsame.prompt, hsame.params⟩
  · rw [hseq]
  · rw [hseq]
    exact houtput
  · rw [hseq]

/-! ## What a turn comes to -/

variable {eosIds : List TokenId} {tokens : ℕ → TokenId}

/-- **The outcomes of a turn**: the request is evicted because the blocks do
not suffice, or it is served, or it is nearer to its end. -/
def Outcome (config : SchedulerConfig) (bs room : ℕ) (q₀ : Sequence) (k : ℕ)
    (r : Scheduler KvCacheManager × SchedulerOutput) : Prop :=
  (r.2.preempted ≠ [] ∧ ¬ Suffices config bs room q₀)
  ∨ (r.2.preempted = [] ∧ (Served config bs room q₀ r.1
    ∨ ∃ k' < k, Live config bs room q₀ r.1 k'))

/-- The table has room for what it holds. -/
theorem room_of_table {m : KvCacheManager} {id : SequenceId} {n : ℕ}
    (h : m.Extensible id n room) (hbs : m.blockSize = bs) :
    BlockTable.blocksRequired n bs ≤ room := by
  rw [← hbs, ← h.room]
  exact Nat.le_add_left _ _

/-- A request that cannot grow to a length it comes to does not fit. -/
theorem not_suffices {n : ℕ} (hbs : 0 < bs) (hroom : room < BlockTable.blocksRequired n bs)
    (hn : n ≤ q₀.prompt.length + appendsOf config q₀.prompt.length q₀.params.maxTokens) :
    ¬ Suffices config bs room q₀ := fun h =>
  absurd ((Nat.ceilDiv_mono_left hbs hn).trans h) (not_le.mpr hroom)

/-- The rest of a turn that asks for tokens: the request ends at its limit, or
it generates. -/
theorem Asked.outcome {p : Pass KvCacheManager} {appends k : ℕ}
    (h : Asked config bs room q₀ p appends) (hpasses : s.passes = p)
    (hgo : ∀ i, tokens i ∉ eosIds ∧ tokens i ∉ q₀.params.stopTokenIds)
    (hk : max q₀.params.maxTokens 1 - appends < k)
    (hend : max q₀.params.maxTokens 1 ≤ appends + 1 → Suffices config bs room q₀) :
    Outcome config bs room q₀ k (s.turn eosIds tokens) := by
  obtain ⟨q, hrun, hsame, hstate, hthrough, hcount, hmore⟩ := h.running
  have hsched : s.schedule = (p.sched, p.out) := by
    rw [← hpasses]
    rfl
  have hquiet : (s.turn eosIds tokens).2.preempted = [] := by
    show s.passes.out.preempted = []
    rw [hpasses]
    exact h.preempted
  refine Or.inr ⟨hquiet, ?_⟩
  rcases turn_through hsched hrun (by rw [hstate]; simp) (by rw [hsame.prompt]; exact hthrough)
      (by rw [hsame.params]; exact hgo) (by rw [hsame.params]; exact hmore)
      (fun e he => (h.scheduled e he).trans hsame.id.symm) with
    ⟨q', hturn, hsame', hcomputed', hstate', hlen', hmore'⟩ | ⟨hrun', hwait', -, hlimit⟩
  · refine Or.inr ⟨_, hk, .generates (a := appends) ?_⟩
    rw [hturn]
    rw [hcount] at hlen' hmore'
    rw [hsame.params] at hmore'
    exact ⟨h.configured, ⟨q', rfl, hsame.trans hsame', hstate'.trans hstate,
      hthrough.trans_eq hcomputed'.symm, hlen'⟩, h.waiting, hmore', h.blockSize, h.table⟩
  · rw [hcount, hsame.params] at hlimit
    exact Or.inl ⟨hrun', hwait'.trans h.waiting, hend hlimit⟩

/-- **Generating**: one append and one token. -/
theorem Generates.outcome {appends : ℕ} (h : Generates config bs room q₀ s appends)
    (hbudget : 0 < config.maxNumBatchedTokens)
    (hgo : ∀ i, tokens i ∉ eosIds ∧ tokens i ∉ q₀.params.stopTokenIds) :
    Outcome config bs room q₀ (max q₀.params.maxTokens 1 - appends)
      (s.turn eosIds tokens) := by
  obtain ⟨q, hrun, hsame, hstate, hthrough, hlen⟩ := h.running
  have hmore := h.more
  have hroom : s.pass.used < s.pass.budget := by
    show 0 < s.config.maxNumBatchedTokens
    rw [h.configured]
    exact hbudget
  have hidle : ∀ r ∈ s.running, (r.state = .prefilling && !r.isPrefillComplete) = false := by
    intro r hr
    rw [hrun] at hr
    rw [List.mem_singleton.mp hr]
    simp [hstate]
  have hprefills : s.pass.schedulePrefills = s.pass := Pass.schedulePrefills_idle hidle h.waiting
  have happends : appendsOf config q₀.prompt.length q₀.params.maxTokens
      = max q₀.params.maxTokens 1 - 1 := by
    unfold appendsOf
    rw [if_neg (by omega), Nat.add_zero]
  rcases h.table.appendToken with ⟨hfit, c, hok, hbs, htable⟩ | ⟨hfull, err, herr⟩
  · rw [h.blockSize] at hfit hbs
    have hdecodes : s.pass.scheduleDecodes
        = (s.pass.withCache c).emit (Pass.decodeEntry q.id q.totalLen) :=
      Pass.scheduleDecodes_append hrun hstate hroom (by rw [hsame.id]; exact hok)
    have hpasses : s.passes = (s.pass.withCache c).emit (Pass.decodeEntry q.id q.totalLen) := by
      unfold passes
      split
      · rw [hdecodes]
        exact Pass.schedulePrefills_idle hidle h.waiting
      · rw [hprefills, hdecodes]
    have hasked : Asked config bs room q₀
        ((s.pass.withCache c).emit (Pass.decodeEntry q.id q.totalLen)) (appends + 1) := by
      refine ⟨h.configured, ⟨q, hrun, hsame, hstate, hthrough, ?_, ?_⟩, h.waiting,
        fun e he => ?_, rfl, hbs, htable⟩
      · rw [hlen]
        rfl
      · rw [hlen]
        exact hmore
      · rw [List.mem_singleton.mp he]
        exact hsame.id
    refine hasked.outcome hpasses hgo (by omega) (fun hend => ?_)
    unfold Suffices
    rw [happends, show max q₀.params.maxTokens 1 - 1 = appends + 1 by omega]
    exact hfit
  · refine Or.inl ⟨List.ne_nil_of_mem (a := q.id) ?_, ?_⟩
    · have hmem : q.id ∈ s.pass.scheduleDecodes.out.preempted :=
        Pass.scheduleDecodes_refused hrun hstate hroom (by rw [hsame.id]; exact herr)
      show q.id ∈ s.passes.out.preempted
      unfold passes
      split
      · exact PassMoves.preempted_subset (Pass.schedulePrefills_moves _) _ hmem
      · rw [hprefills]
        exact hmem
    · rw [h.blockSize] at hfull
      refine not_suffices (h.blockSize ▸ h.table.settled.blockSize) hfull ?_
      rw [happends]
      omega

/-- A chunk that leaves some of the prompt: nothing decodes. -/
theorem Prefilled.outcome_reading {p : Pass KvCacheManager} {chunk computed k : ℕ}
    (h : Prefilled config bs room q₀ p chunk computed)
    (hpasses : s.passes = if config.prioritizeDecode then p else p.scheduleDecodes)
    (hleft : computed < q₀.prompt.length)
    (hk : q₀.prompt.length - computed + max q₀.params.maxTokens 1 + 1 < k) :
    Outcome config bs room q₀ k (s.turn eosIds tokens) := by
  obtain ⟨q, hrun, hsame, hcomputed, houtput, hstate⟩ := h.running
  obtain ⟨e, hentries, hid⟩ := h.scheduled
  rw [if_pos hleft] at hstate
  have hdecodes : p.scheduleDecodes = p := by
    refine Pass.scheduleDecodes_idle (Or.inl (fun r hr => ?_))
    rw [hrun] at hr
    rw [List.mem_singleton.mp hr, hstate]
    simp
  rw [hdecodes, ite_self] at hpasses
  have hsched : s.schedule = (p.sched, p.out) := by
    rw [← hpasses]
    rfl
  have hturn : (s.turn eosIds tokens).1 = p.sched := by
    refine turn_reading hsched hrun (by rw [hstate]; simp)
      (by rw [hcomputed, hsame.prompt]; exact hleft) (fun x hx => ?_)
    rw [hentries] at hx
    rw [List.mem_singleton.mp hx, hid, hsame.id]
  refine Or.inr ⟨?_, Or.inr ⟨_, hk, .reads ?_⟩⟩
  · show s.passes.out.preempted = []
    rw [hpasses]
    exact h.preempted
  · rw [hturn]
    obtain ⟨hchunked, hfull⟩ := h.chunked hleft
    exact ⟨h.configured, ⟨q, hrun, hsame, hstate, hcomputed, houtput⟩, h.waiting, h.started,
      hleft, h.whole.mpr hfull, hchunked, h.blockSize, h.table⟩

/-- The last chunk in a call that leaves no room to decode, or decodes first. -/
theorem Prefilled.outcome_quiet {p : Pass KvCacheManager} {chunk k : ℕ}
    (h : Prefilled config bs room q₀ p chunk q₀.prompt.length) (hpasses : s.passes = p)
    (hwhy : config.prioritizeDecode = true ∨ chunk = config.maxNumBatchedTokens)
    (hgo : ∀ i, tokens i ∉ eosIds ∧ tokens i ∉ q₀.params.stopTokenIds)
    (hk : max q₀.params.maxTokens 1 < k) :
    Outcome config bs room q₀ k (s.turn eosIds tokens) := by
  obtain ⟨q, hrun, hsame, hcomputed, houtput, hstate⟩ := h.running
  obtain ⟨e, hentries, hid⟩ := h.scheduled
  rw [if_neg (lt_irrefl _)] at hstate
  have hasked : Asked config bs room q₀ p 0 := by
    refine ⟨h.configured, ⟨q, hrun, hsame, hstate, hcomputed.ge, ?_, ?_⟩, h.waiting,
      fun x hx => ?_, h.preempted, h.blockSize, h.table⟩
    · rw [houtput, hentries]
      rfl
    · rw [houtput]
      exact lt_max_of_lt_right Nat.one_pos
    · rw [hentries] at hx
      rw [List.mem_singleton.mp hx, hid]
  refine hasked.outcome hpasses hgo hk (fun hend => ?_)
  have hnone : appendsOf config q₀.prompt.length q₀.params.maxTokens = 0 := by
    unfold appendsOf
    rw [if_neg]
    · omega
    · rintro ⟨hfirst, -, hdvd⟩
      rcases hwhy with hwhy | hwhy
      · exact absurd (hfirst.symm.trans hwhy) (by simp)
      · exact hdvd (h.whole.mpr hwhy)
  unfold Suffices
  rw [hnone]
  exact room_of_table h.table h.blockSize

/-- The last chunk in a prefill-first call with budget left: the request
decodes at once. -/
theorem Prefilled.outcome_decoding {p : Pass KvCacheManager} {chunk k : ℕ}
    (h : Prefilled config bs room q₀ p chunk q₀.prompt.length)
    (hpasses : s.passes = p.scheduleDecodes) (hfirst : config.prioritizeDecode = false)
    (hpart : chunk ≠ config.maxNumBatchedTokens)
    (hgo : ∀ i, tokens i ∉ eosIds ∧ tokens i ∉ q₀.params.stopTokenIds)
    (hk : max q₀.params.maxTokens 1 < k) :
    Outcome config bs room q₀ k (s.turn eosIds tokens) := by
  obtain ⟨q, hrun, hsame, hcomputed, houtput, hstate⟩ := h.running
  obtain ⟨e, hentries, hid⟩ := h.scheduled
  rw [if_neg (lt_irrefl _)] at hstate
  have hroom : p.used < p.budget := by
    show p.used < p.sched.config.maxNumBatchedTokens
    rw [h.configured, h.used]
    exact lt_of_le_of_ne h.within hpart
  have hndvd : ¬ config.maxNumBatchedTokens ∣ q₀.prompt.length := fun hd =>
    hpart (h.whole.mp hd)
  rcases h.table.appendToken with ⟨hfit, c, hok, hbs, htable⟩ | ⟨hfull, err, herr⟩
  · rw [h.blockSize] at hfit hbs
    rw [Pass.scheduleDecodes_append hrun hstate hroom (by rw [hsame.id]; exact hok)] at hpasses
    have hasked : Asked config bs room q₀
        ((p.withCache c).emit (Pass.decodeEntry q.id q.totalLen)) 1 := by
      refine ⟨h.configured, ⟨q, hrun, hsame, hstate, hcomputed.ge, ?_, ?_⟩, h.waiting,
        fun x hx => ?_, h.preempted, hbs, htable⟩
      · show q.output.length + (p.out.scheduled ++ [_]).length = _
        rw [houtput, hentries]
        rfl
      · rw [houtput]
        exact lt_max_of_lt_right Nat.one_pos
      · change x ∈ p.out.scheduled ++ [Pass.decodeEntry q.id q.totalLen] at hx
        rw [hentries] at hx
        rcases List.mem_pair.mp hx with rfl | rfl
        · exact hid
        · exact hsame.id
    refine hasked.outcome hpasses hgo (by omega) (fun hend => ?_)
    have hsome : appendsOf config q₀.prompt.length q₀.params.maxTokens = 1 := by
      unfold appendsOf
      by_cases hfew : q₀.params.maxTokens ≤ 1
      · rw [if_pos ⟨hfirst, hfew, hndvd⟩]
        omega
      · rw [if_neg (fun hand => hfew hand.2.1)]
        omega
    unfold Suffices
    rw [hsome]
    exact hfit
  · refine Or.inl ⟨List.ne_nil_of_mem (a := q.id) ?_, ?_⟩
    · show q.id ∈ s.passes.out.preempted
      rw [hpasses]
      exact Pass.scheduleDecodes_refused hrun hstate hroom (by rw [hsame.id]; exact herr)
    · rw [h.blockSize] at hfull
      refine not_suffices (h.blockSize ▸ h.table.settled.blockSize) hfull
        (Nat.add_le_add_left ?_ _)
      unfold appendsOf
      by_cases hfew : q₀.params.maxTokens ≤ 1
      · rw [if_pos ⟨hfirst, hfew, hndvd⟩]
        omega
      · omega

/-- **A chunk of the prompt**, and what comes with the last one. -/
theorem Prefilled.outcome {p : Pass KvCacheManager} {chunk computed k : ℕ}
    (h : Prefilled config bs room q₀ p chunk computed)
    (hpasses : s.passes = if config.prioritizeDecode then p else p.scheduleDecodes)
    (hgo : ∀ i, tokens i ∉ eosIds ∧ tokens i ∉ q₀.params.stopTokenIds)
    (hk : q₀.prompt.length - computed + max q₀.params.maxTokens 1 + 1 < k) :
    Outcome config bs room q₀ k (s.turn eosIds tokens) := by
  rcases h.le.lt_or_eq with hleft | rfl
  · exact h.outcome_reading hpasses hleft hk
  have hk' : max q₀.params.maxTokens 1 < k := by omega
  rcases hfirst : config.prioritizeDecode with - | -
  · rw [hfirst, if_neg (by simp)] at hpasses
    by_cases hfull : chunk = config.maxNumBatchedTokens
    · have hidle : p.scheduleDecodes = p := by
        refine Pass.scheduleDecodes_idle (Or.inr ?_)
        show p.budget ≤ p.used
        rw [show p.budget = config.maxNumBatchedTokens from congrArg _ h.configured,
          h.used, hfull]
      exact h.outcome_quiet (hpasses.trans hidle) (Or.inr hfull) hgo hk'
    · exact h.outcome_decoding hpasses hfirst hfull hgo hk'
  · rw [hfirst, if_pos rfl] at hpasses
    exact h.outcome_quiet hpasses (Or.inl hfirst) hgo hk'

theorem Waits.outcome (h : Waits config bs room q₀ s) (hstate : q₀.state = .waiting)
    (hfirst : q₀.computedPrefixLen = 0) (houtput : q₀.output = [])
    (hslot : 0 < config.maxNumSeqs) {chunk : ℕ}
    (hc : Pass.chunkFor config q₀.promptLen config.maxNumBatchedTokens = some chunk)
    (hpos : 0 < chunk) (hgo : ∀ i, tokens i ∉ eosIds ∧ tokens i ∉ q₀.params.stopTokenIds) :
    Outcome config bs room q₀ (q₀.prompt.length + max q₀.params.maxTokens 1 + 1)
      (s.turn eosIds tokens) := by
  have hpre := h.prefilled hstate hfirst houtput hslot hc hpos
  have hidle : s.pass.scheduleDecodes = s.pass := by
    refine Pass.scheduleDecodes_idle (Or.inl (fun r hr => ?_))
    rw [show s.pass.sched.running = [] from h.running] at hr
    exact absurd hr List.not_mem_nil
  have hleft := hpre.le
  refine hpre.outcome ?_ hgo (by omega)
  unfold passes
  rw [h.configured, hidle]

theorem Reads.outcome {computed : ℕ} (h : Reads config bs room q₀ s computed)
    (hbudget : 0 < config.maxNumBatchedTokens)
    (hgo : ∀ i, tokens i ∉ eosIds ∧ tokens i ∉ q₀.params.stopTokenIds) :
    Outcome config bs room q₀ (q₀.prompt.length - computed + max q₀.params.maxTokens 1 + 1)
      (s.turn eosIds tokens) := by
  obtain ⟨chunk, hpos, hpre⟩ := h.prefilled hbudget
  obtain ⟨q, hrun, -, hstate, -⟩ := h.running
  have hidle : s.pass.scheduleDecodes = s.pass := by
    refine Pass.scheduleDecodes_idle (Or.inl (fun r hr => ?_))
    rw [show s.pass.sched.running = [q] from hrun] at hr
    rw [List.mem_singleton.mp hr, hstate]
    simp
  have hleft := h.left
  refine hpre.outcome ?_ hgo (by omega)
  unfold passes
  rw [h.configured, hidle]

/-- **Step lemma.** -/
theorem Live.outcome {k : ℕ} (h : Live config bs room q₀ s k) (hstate : q₀.state = .waiting)
    (hfirst : q₀.computedPrefixLen = 0) (houtput : q₀.output = [])
    (hslot : 0 < config.maxNumSeqs) {chunk : ℕ}
    (hc : Pass.chunkFor config q₀.promptLen config.maxNumBatchedTokens = some chunk)
    (hpos : 0 < chunk) (hgo : ∀ i, tokens i ∉ eosIds ∧ tokens i ∉ q₀.params.stopTokenIds) :
    Outcome config bs room q₀ k (s.turn eosIds tokens) := by
  have hbudget : 0 < config.maxNumBatchedTokens := hpos.trans_le (Pass.chunkFor_le hc).2
  cases h with
  | waits h => exact h.outcome hstate hfirst houtput hslot hc hpos hgo
  | reads h => exact h.outcome hbudget hgo
  | generates h => exact h.outcome hbudget hgo

/-- A call that does nothing while nothing runs leaves a turn nothing to do. -/
theorem turn_of_passes (hrun : s.running = []) (hpasses : s.passes = s.pass) :
    s.turn eosIds tokens = (s, .empty) := by
  have hsched : s.schedule = (s, .empty) := by
    unfold schedule
    rw [hpasses]
    rfl
  unfold turn
  rw [hsched]
  show (s.reapFinished.1, SchedulerOutput.empty) = _
  unfold reapFinished
  rw [hrun]
  simp only [List.filter_nil, List.foldl_nil]
  rw [← hrun]

/-- With nothing running and nobody to admit no pass does anything. -/
theorem passes_of_admissionLoop (hrun : s.running = [])
    (hloop : s.pass.admissionLoop = s.pass) : s.passes = s.pass := by
  have hnobody : ∀ r ∈ s.pass.sched.running, False := by
    intro r hr
    rw [show s.pass.sched.running = [] from hrun] at hr
    exact absurd hr List.not_mem_nil
  have hdecodes : s.pass.scheduleDecodes = s.pass :=
    Pass.scheduleDecodes_idle (Or.inl (fun r hr => (hnobody r hr).elim))
  have hprefills : s.pass.schedulePrefills = s.pass := by
    unfold Pass.schedulePrefills
    rw [Pass.schedulePartialPrefills_eq_self (fun r hr => (hnobody r hr).elim)]
    exact hloop
  unfold passes
  rw [hdecodes, hprefills, hdecodes, ite_self]

/-- With nothing in the queues a turn does nothing. -/
theorem turn_idle (hrun : s.running = []) (hwait : s.waiting = []) :
    s.turn eosIds tokens = (s, .empty) :=
  turn_of_passes hrun (passes_of_admissionLoop hrun (Pass.admissionLoop_of_waiting_nil hwait))

/-- A request that no call can schedule waits for ever. -/
theorem Waits.turn_stuck (h : Waits config bs room q₀ s) (hfirst : q₀.computedPrefixLen = 0)
    (hc : ∀ chunk, Pass.chunkFor config q₀.promptLen config.maxNumBatchedTokens = some chunk →
      chunk = 0) : s.turn eosIds tokens = (s, .empty) := by
  refine turn_of_passes h.running (passes_of_admissionLoop h.running ?_)
  refine Pass.admissionLoop_blocked h.waiting (fun chunk hchunk => hc chunk ?_)
  rw [hfirst, Nat.sub_zero] at hchunk
  have hsame : s.pass.sched.config = config := h.configured
  have hbudget : s.pass.budget - s.pass.used = config.maxNumBatchedTokens := by
    show s.config.maxNumBatchedTokens - 0 = _
    rw [h.configured, Nat.sub_zero]
  rw [hsame, hbudget] at hchunk
  exact hchunk

/-! ## Turn after turn -/

variable {later : ℕ → ℕ → TokenId}

/-- **Run lemma**: a request that is never evicted is served, since each turn
brings it nearer to its end. -/
theorem suffices_of_never (outcome : ∀ {s : Scheduler KvCacheManager} {k : ℕ} (i : ℕ),
      Live config bs room q₀ s k → Outcome config bs room q₀ k (s.turn eosIds (later i)))
    (k : ℕ) : ∀ {s : Scheduler KvCacheManager} (j : ℕ), Live config bs room q₀ s k →
      (∀ i, ((s.turns eosIds (fun i => later (j + i)) i).turn eosIds (later (j + i))).2.preempted
        = []) → Suffices config bs room q₀ := by
  induction k using Nat.strong_induction_on with
  | _ k ih =>
    intro s j hlive hnever
    rcases outcome j hlive with ⟨hevicted, -⟩ | ⟨-, hserved | ⟨k', hk', hlive'⟩⟩
    · exact absurd (hnever 0) hevicted
    · exact hserved.adequate
    · refine ih k' hk' (j + 1) hlive' (fun i => ?_)
      have hnext := hnever (1 + i)
      rw [turns_add] at hnext
      simp only [← Nat.add_assoc] at hnext
      exact hnext

/-- And if the blocks suffice it is never evicted. -/
theorem never_of_suffices (outcome : ∀ {s : Scheduler KvCacheManager} {k : ℕ} (i : ℕ),
      Live config bs room q₀ s k → Outcome config bs room q₀ k (s.turn eosIds (later i)))
    (hfit : Suffices config bs room q₀) {k : ℕ} (hlive : Live config bs room q₀ s k) (i : ℕ) :
    ((s.turns eosIds later i).turn eosIds (later i)).2.preempted = [] := by
  have hinv : Served config bs room q₀ (s.turns eosIds later i)
      ∨ ∃ k, Live config bs room q₀ (s.turns eosIds later i) k := by
    induction i with
    | zero => exact Or.inr ⟨k, hlive⟩
    | succ i ih =>
      rcases ih with hserved | ⟨k, hlive⟩
      · refine Or.inl ?_
        show Served config bs room q₀ ((s.turns eosIds later i).turn eosIds (later i)).1
        rw [turn_idle hserved.running hserved.waiting]
        exact hserved
      · rcases outcome i hlive with ⟨-, hnot⟩ | ⟨-, hserved | ⟨k', -, hlive'⟩⟩
        · exact absurd hfit hnot
        · exact Or.inl hserved
        · exact Or.inr ⟨k', hlive'⟩
  rcases hinv with hserved | ⟨k, hlive⟩
  · rw [turn_idle hserved.running hserved.waiting]
    rfl
  · rcases outcome i hlive with ⟨-, hnot⟩ | ⟨hnone, -⟩
    · exact absurd hfit hnot
    · exact hnone

end Scheduler

namespace KvCacheManager

/-- The places of the table `allocate` would open at which the index gives a
block that an earlier place has already. It takes two chunks of one prompt
with the same tokens and the same chained digest. -/
def repeats (m : KvCacheManager) (seq : SequenceId) (prompt : List TokenId) : ℕ :=
  ((m.allocate seq prompt).1.rawBlockTable seq).elim 0
    (fun blocks => blocks.length - blocks.dedup.length)

/-- **An allocation in an empty cache** that can hold the prompt. -/
theorem allocate_alone {m : KvCacheManager} (seq : SequenceId) (prompt : List TokenId)
    (h : m.Settled) (hempty : ∀ q, m.tables.lookup q = none)
    (hfits : m.blocksNeededFor prompt.length ≤ m.totalBlocks) :
    m.canAllocate prompt.length = true
    ∧ ∃ c, KvCacheManagerLike.allocate m seq prompt = (c, .ok ()) ∧ c.blockSize = m.blockSize
      ∧ c.Extensible seq prompt.length (m.totalBlocks + m.repeats seq prompt) := by
  have hheld : m.held = [] := by
    refine List.eq_nil_iff_forall_not_mem.mpr (fun b hb => ?_)
    obtain ⟨q, t, ht, -⟩ := AList.mem_flat.mp hb
    rw [hempty q] at ht
    exact absurd ht (by simp)
  have hfree : m.freeBlocks = m.totalBlocks := by
    have hadd := h.exact.freeBlocks_add
    rw [hheld] at hadd
    exact hadd
  have hcan : m.canAllocate prompt.length = true := by
    unfold canAllocate
    rw [hfree]
    exact decide_eq_true hfits
  refine ⟨hcan, ?_⟩
  rcases m.allocate_cases True seq prompt with
    ⟨hhas, -⟩ | ⟨-, hfew, -⟩ | ⟨s, -, -, -, hok, hl, hmoves⟩
  · unfold isAllocated blockTable at hhas
    rw [hempty seq] at hhas
    exact absurd hhas (by simp)
  · rw [hfree] at hfew
    exact absurd hfits (not_le.mpr hfew)
  set c := m.sealTable seq prompt.length s with hc
  set t := s.table.setNumTokens prompt.length with ht
  have hsettled : c.Settled := h.sealTable hl hmoves
  have hlookup : c.tables.lookup seq = some t := AList.lookup_insert _
  have hlike : KvCacheManagerLike.allocate m seq prompt = (c, .ok ()) := by
    show ((m.allocate seq prompt).1, (m.allocate seq prompt).2.map fun _ => ()) = _
    rw [hok]
    rfl
  refine ⟨c, hlike, hmoves.blockSize, hsettled, ⟨t, hlookup, rfl⟩, ?_⟩
  -- only this table holds anything
  have hperm : c.held.Perm t.blocks := by
    have hp := held_perm hlookup
    have hrest : (c.tables.erase seq).flat BlockTable.blocks = [] := by
      refine List.eq_nil_iff_forall_not_mem.mpr (fun b hb => ?_)
      obtain ⟨q, u, hu, -⟩ := AList.mem_flat.mp hb
      by_cases hq : q = seq
      · rw [hq, AList.lookup_erase] at hu
        exact absurd hu (by simp)
      · rw [AList.lookup_erase_ne hq] at hu
        have hsame : c.tables.lookup q = m.tables.lookup q := AList.lookup_insert_ne hq
        rw [hsame, hempty q] at hu
        exact absurd hu (by simp)
    rwa [hrest, List.append_nil] at hp
  have hadd := hsettled.exact.freeBlocks_add
  rw [hperm.dedup.length_eq, hmoves.totalBlocks] at hadd
  have hsize : t.blocks.length = BlockTable.blocksRequired prompt.length c.blockSize := by
    exact (hsettled.sized hlookup).numBlocks
  have hrepeats : m.repeats seq prompt = t.blocks.length - t.blocks.dedup.length := by
    unfold repeats rawBlockTable blockTable
    rw [hok]
    show (((m.sealTable seq prompt.length s).tables.lookup seq).map _).elim _ _ = _
    rw [hlookup]
    rfl
  have hle : t.blocks.dedup.length ≤ t.blocks.length := (List.dedup_sublist _).length_le
  rw [← hsize, hrepeats]
  omega

end KvCacheManager

/-- A validated configuration has room for a sequence and for a token. -/
theorem SchedulerConfig.pos_of_validate {config : SchedulerConfig}
    (h : config.validate = .ok ()) :
    0 < config.maxNumSeqs ∧ 0 < config.maxNumBatchedTokens := by
  unfold SchedulerConfig.validate at h
  split at h
  · exact absurd h (by simp)
  split at h
  · exact absurd h (by simp)
  · next hseqs hbudget => exact ⟨Nat.pos_of_ne_zero hseqs, Nat.pos_of_ne_zero hbudget⟩

namespace Service

variable {config : SchedulerConfig} {n bs firstId : ℕ} {flag : Bool}
  {v : Service KvCacheManager}

/-- A request that is let in while nobody is in service: it waits, and its
table can grow until the pool is its own. -/
theorem waits_of_idle (hbs : 1 ≤ bs) (hn : n ≤ 2 ^ 32)
    (hv : v.Reachable config (KvCacheManager.new n bs flag) firstId)
    (hidle : v.sched.hasWork = false) {q₀ : Sequence} {id : SequenceId}
    (hok : (v.sched.addRequest q₀).2 = .ok id) :
    Scheduler.Waits config bs (n + v.sched.cache.repeats q₀.id q₀.prompt) q₀
      (v.sched.addRequest q₀).1 := by
  have hsound := (hv.sound hbs hn).sched
  have hcache := hv.cache hbs hn
  have hqueues : v.sched.running = [] ∧ v.sched.waiting = [] := by
    unfold Scheduler.hasWork at hidle
    simpa [and_comm] using hidle
  have hempty : ∀ q, v.sched.cache.tables.lookup q = none := by
    intro q
    rcases ht : v.sched.cache.tables.lookup q with - | t
    · rfl
    · have hmem := hsound.tables q t ht
      rw [hqueues.1] at hmem
      exact absurd hmem List.not_mem_nil
  obtain ⟨hs, hfits⟩ : (v.sched.addRequest q₀).1
        = { v.sched with waiting := v.sched.waiting ++ [q₀] }
      ∧ KvCacheManagerLike.blocksNeededFor v.sched.cache q₀.promptLen
        ≤ KvCacheManagerLike.totalBlocks v.sched.cache := by
    rcases v.sched.addRequest_cases q₀ with ⟨e, he⟩ | ⟨hadd, hfits⟩
    · rw [he] at hok
      exact absurd hok (by simp)
    · exact ⟨congrArg Prod.fst hadd, hfits⟩
  obtain ⟨hcan, c, ha, hcbs, hext⟩ := KvCacheManager.allocate_alone q₀.id q₀.prompt
    hsound.settled hempty hfits
  rw [hcache.totalBlocks hbs hn] at hext
  rw [hs]
  exact ⟨hv.config, hqueues.1, by rw [hqueues.2]; rfl, hcan, c, ha,
    hcbs.trans (hcache.blockSize hbs hn), hext⟩

/-- When a prompt can be scheduled at all. -/
theorem exists_chunkFor_iff (hbudget : 0 < config.maxNumBatchedTokens) {prompt : List TokenId} :
    (∃ chunk, Pass.chunkFor config prompt.length config.maxNumBatchedTokens = some chunk
      ∧ 0 < chunk)
    ↔ prompt ≠ [] ∧ ¬ (config.enableChunkedPrefill = false
      ∧ config.maxNumBatchedTokens < prompt.length) := by
  constructor
  · rintro ⟨chunk, hc, hpos⟩
    refine ⟨?_, ?_⟩
    · rintro rfl
      exact absurd (hpos.trans_le (Pass.chunkFor_le hc).1) (by simp)
    · rintro ⟨hoff, hbig⟩
      unfold Pass.chunkFor at hc
      rw [if_neg (by simp [hoff]), if_neg (not_le.mpr hbig)] at hc
      exact absurd hc (by simp)
  · rintro ⟨hne, hnot⟩
    have hlen : 0 < prompt.length := List.length_pos_iff.mpr hne
    unfold Pass.chunkFor
    rcases hon : config.enableChunkedPrefill with - | -
    · have hle : prompt.length ≤ config.maxNumBatchedTokens :=
        not_lt.mp (fun hbig => hnot ⟨hon, hbig⟩)
      exact ⟨prompt.length, by rw [if_neg (by simp), if_pos hle], hlen⟩
    · exact ⟨_, by rw [if_pos rfl], lt_min hlen hbudget⟩

/-- **When a request served alone is never evicted.** On a scheduler of any
run that was idle, a request that was let in is never evicted, turn after
turn, with any tokens that do not stop it, if and only if it can never be
scheduled at all – its prompt is empty, or chunking is off and it exceeds the
budget – or the blocks of its prompt and of its appends are there. -/
theorem never_preempted_iff (hbs : 1 ≤ bs) (hn : n ≤ 2 ^ 32)
    (hv : v.Reachable config (KvCacheManager.new n bs flag) firstId)
    (hvalid : config.validate = .ok ()) (hidle : v.sched.hasWork = false)
    {prompt : List TokenId} {params : SamplingParams} {now : Instant} {id : SequenceId}
    (hok : (v.sched.addRequest (.new ⟨v.nextId⟩ prompt params now)).2 = .ok id)
    {eosIds : List TokenId} {tokens : ℕ → ℕ → TokenId}
    (hgo : ∀ k i, tokens k i ∉ eosIds ∧ tokens k i ∉ params.stopTokenIds) :
    let s := (v.sched.addRequest (.new ⟨v.nextId⟩ prompt params now)).1
    (∀ k, ((s.turns eosIds tokens k).turn eosIds (tokens k)).2.preempted = [])
    ↔ prompt = []
      ∨ (config.enableChunkedPrefill = false ∧ config.maxNumBatchedTokens < prompt.length)
      ∨ BlockTable.blocksRequired (prompt.length
          + Scheduler.appendsOf config prompt.length params.maxTokens) bs
        ≤ n + v.sched.cache.repeats ⟨v.nextId⟩ prompt := by
  intro s
  obtain ⟨hslot, hbudget⟩ := SchedulerConfig.pos_of_validate hvalid
  set q₀ : Sequence := .new ⟨v.nextId⟩ prompt params now with hq₀
  set room := n + v.sched.cache.repeats ⟨v.nextId⟩ prompt with hroom
  have hwaits : Scheduler.Waits config bs room q₀ s := waits_of_idle hbs hn hv hidle hok
  by_cases hchunk : ∃ chunk, Pass.chunkFor config prompt.length config.maxNumBatchedTokens
      = some chunk ∧ 0 < chunk
  · obtain ⟨hne, hfit⟩ := (exists_chunkFor_iff hbudget).mp hchunk
    obtain ⟨chunk, hc, hpos⟩ := hchunk
    have hlive : Scheduler.Live config bs room q₀ s _ := .waits hwaits
    have hout : ∀ {s : Scheduler KvCacheManager} {k : ℕ} (i : ℕ),
        Scheduler.Live config bs room q₀ s k →
        Scheduler.Outcome config bs room q₀ k (s.turn eosIds (tokens i)) := fun i h =>
      h.outcome rfl rfl rfl hslot hc hpos (hgo i)
    constructor
    · intro hnever
      refine Or.inr (Or.inr (Scheduler.suffices_of_never hout _ 0 hlive (fun i => ?_)))
      simp only [Nat.zero_add]
      exact hnever i
    · rintro (hnil | hbig | hsuff)
      · exact absurd hnil hne
      · exact absurd hbig hfit
      · exact Scheduler.never_of_suffices hout hsuff hlive
  · have hstuck : ∀ i, s.turn eosIds (tokens i) = (s, .empty) := fun i =>
      hwaits.turn_stuck rfl (fun chunk hc =>
        Nat.eq_zero_of_not_pos (fun hpos => hchunk ⟨chunk, hc, hpos⟩))
    have hstay : ∀ k, s.turns eosIds tokens k = s := by
      intro k
      induction k with
      | zero => rfl
      | succ k ih =>
        show ((s.turns eosIds tokens k).turn eosIds (tokens k)).1 = s
        rw [ih, hstuck]
    refine ⟨fun _ => ?_, fun _ k => by rw [hstay, hstuck]; rfl⟩
    by_cases hnil : prompt = []
    · exact Or.inl hnil
    · refine Or.inr (Or.inl ?_)
      by_contra hnot
      exact hchunk ((exists_chunkFor_iff hbudget).mpr ⟨hnil, hnot⟩)

/-- A cache of two blocks of four, and a prompt that fills one of them. -/
def smallCache : Service KvCacheManager := .start {} (KvCacheManager.new 2 4 true) 1

/-- A request with a prompt of four tokens and room for so many more. -/
def shortRequest (maxTokens : ℕ) : Sequence :=
  .new ⟨1⟩ [1, 2, 3, 4] { maxTokens := maxTokens } 0

/-- **The cache cannot hold what was let in**: the sixth append of a request
with ten tokens to go finds no block. -/
theorem admitted_and_preempted :
    smallCache.Reachable {} (KvCacheManager.new 2 4 true) 1
    ∧ (smallCache.sched.addRequest (shortRequest 10)).2 = .ok ⟨1⟩
    ∧ ((((smallCache.sched.addRequest (shortRequest 10)).1.turns [] (fun _ _ => 9) 5).turn []
      (fun _ => 9)).2.preempted = [⟨1⟩]) :=
  ⟨.start, by decide +kernel, by decide +kernel⟩

/-- Five tokens fit. -/
theorem never_preempted_five :
    (((smallCache.sched.addRequest (shortRequest 5)).1.turns [] (fun _ _ => 9) 3).turn []
      (fun _ => 9)).2.preempted = [] := by
  have hstart : smallCache.Reachable {} (KvCacheManager.new 2 4 true) 1 := .start
  have hok : (smallCache.sched.addRequest (.new ⟨smallCache.nextId⟩ [1, 2, 3, 4]
      { maxTokens := 5 } 0)).2 = .ok ⟨1⟩ := by decide +kernel
  have hgo : ∀ k i : ℕ, (fun _ _ => 9 : ℕ → ℕ → TokenId) k i ∉ ([] : List TokenId)
      ∧ (fun _ _ => 9 : ℕ → ℕ → TokenId) k i
        ∉ ({ maxTokens := 5 } : SamplingParams).stopTokenIds := by
    intro k i
    simp
  exact (never_preempted_iff (by decide) (by decide) hstart (by decide) rfl hok hgo).mpr
    (Or.inr (Or.inr (by decide +kernel))) 3

end Service
