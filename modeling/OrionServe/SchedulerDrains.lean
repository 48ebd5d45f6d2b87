import OrionServe.SchedulerCalls

/-!
# Workloads that drain

The requests of a workload are admitted first and then served turn by turn.
Three numbers say how far it has come, each of which counts only while those
before it stay: the tokens to go, how far the head of the order of service is
from its next one, and what there is to read. A turn whose call has headway
makes one of them smaller, so if all have, nobody is left after finitely many
turns, and everybody has been reaped with `Stop` or `Length`.

Not every workload has headway. With the prefill pass first, two prompts that
fill the cache between them are read and evict each other in every call.
-/

variable {n bs : ℕ} {flag : Bool}

namespace KvCacheManager

/-- To free a sequence publishes nothing. -/
theorem Unshared.free {m : KvCacheManager} (h : m.Unshared n bs flag) (seq : SequenceId) :
    (m.free seq).Unshared n bs flag where
  reachable := h.reachable.step (.free seq) (fun _ => trivial)
  unpublished b hb := by
    obtain ⟨new, htr, hnew⟩ := m.free_trace seq
    refine h.unpublished b (published_append new htr (fun e he => ?_) hb)
    rw [hnew e he]
    simp [PublishesBlock]

end KvCacheManager

namespace Scheduler

variable {s s' : Scheduler KvCacheManager} {eosIds : List TokenId} {tokens : ℕ → TokenId}

/-! ## Turns -/

variable (eosIds tokens) in
/-- What tokens keep, the tokens of a batch keep. -/
theorem answer_keeps {P : Scheduler KvCacheManager → Prop}
    (hstep : ∀ (s : Scheduler KvCacheManager) (id : SequenceId) (token : TokenId), P s →
      P (s.onToken id token eosIds).1) (scheduled : List ScheduledSequence) (h : P s) :
    P (s.answer eosIds tokens scheduled) := by
  have hfold : ∀ (xs : List (ScheduledSequence × ℕ)) (s : Scheduler KvCacheManager), P s →
      P (xs.foldl (answerEntry eosIds tokens) s) := by
    intro xs
    induction xs with
    | nil => exact fun s hs => hs
    | cons x xs ih =>
      intro s hs
      refine ih _ ?_
      unfold answerEntry
      split
      · exact hstep s _ _ hs
      · exact hs
  exact hfold _ s h

namespace Serving

/-- A turn keeps a workload. -/
theorem turn (h : s.Serving n bs flag) (hbs : 1 ≤ bs) (hn : n ≤ 2 ^ 32)
    (hgoing : ∀ q ∈ s.queue, q.Going) : (s.turn eosIds tokens).1.Serving n bs flag := by
  have hadv : s.Advances s.schedule.1 (s.turn eosIds tokens).1 s.schedule.2.scheduled
    (s.reaped eosIds tokens) := turn_advances hgoing
  have h₁ : s.schedule.1.Serving n bs flag := h.schedule
  have hgoing₁ : ∀ q ∈ s.schedule.1.queue, q.Going :=
    going_of_moved (PassMoves.moved s.passes_moves) hgoing
  obtain ⟨-, ⟨running, hrun, hkeys⟩, -⟩ :=
    answer_spec eosIds tokens s.schedule.2.scheduled.zipIdx
      (s := s.schedule.1) (fun q hq => Or.inl (hgoing₁ q (List.mem_append_left _ hq)))
  have hanswer : s.schedule.1.answer eosIds tokens s.schedule.2.scheduled
      = { s.schedule.1 with running := running } := hrun
  have hs₂ : (s.schedule.1.answer eosIds tokens s.schedule.2.scheduled).Sound :=
    answer_keeps eosIds tokens (fun s id token hs => hs.onToken id token eosIds) _ h₁.sound
  have hwhole₂ : s.config.enableChunkedPrefill = false →
      ∀ r ∈ running, r.state ≠ .prefilling := by
    intro hoff
    have hkeep := answer_keeps eosIds tokens
      (P := fun s => ∀ r ∈ s.running, r.state ≠ .prefilling) (fun s id token hs => ?_)
      s.schedule.2.scheduled (h₁.whole (s.schedule_config.symm ▸ hoff))
    · rw [hanswer] at hkeep
      exact hkeep
    · unfold onToken
      split
      · exact hs
      intro r hr
      rcases List.of_mem_updateKey hr with hr | ⟨a, ha, rfl⟩
      · exact hs r hr
      · rcases (a.ends_tokenReceived token eosIds).state with hst | hst <;> rw [hst]
        · exact hs a ha
        · simp
  set s₁ := s.schedule.1 with hs₁
  set s₂ := s₁.answer eosIds tokens s.schedule.2.scheduled with hs₂'
  have hcache : s₂.reapFinished.1.cache.Unshared n bs flag := by
    have hfold : ∀ (l : List Sequence) (m : KvCacheManager), m.Unshared n bs flag →
        (l.foldl (fun c r => KvCacheManagerLike.free c r.id) m).Unshared n bs flag := by
      intro l
      induction l with
      | nil => exact fun m hm => hm
      | cons r l ih => exact fun m hm => ih _ (hm.free r.id)
    refine hfold _ _ ?_
    rw [hanswer]
    exact h₁.cache
  have hturn : (s.turn eosIds tokens).1 = s₂.reapFinished.1 := rfl
  have hconfig : (s.turn eosIds tokens).1.config = s.config := by
    rw [hturn]
    show s₂.config = _
    rw [hanswer]
    exact s.schedule_config
  refine ⟨hturn ▸ hs₂.reapFinished, hturn ▸ hcache, fun q hq => ?_, fun hoff r hr => ?_, ?_, ?_⟩
  · -- everybody was there before, with the same prompt
    obtain ⟨q₁, hq₁, hprompt⟩ : ∃ q₁ ∈ s₁.queue, q₁.prompt = q.prompt := by
      rcases List.mem_append.mp (hturn ▸ hq : q ∈ s₂.reapFinished.1.queue) with hq | hq
      · have hmem : (q.id, q.prompt) ∈ running.map (fun q => (q.id, q.prompt)) := by
          have hmem := (List.mem_filter.mp hq).1
          rw [hanswer] at hmem
          exact List.mem_map.mpr ⟨q, hmem, rfl⟩
        rw [hkeys] at hmem
        obtain ⟨a, ha, heq⟩ := List.mem_map.mp hmem
        exact ⟨a, List.mem_append_left _ ha, (Prod.mk.inj heq).2⟩
      · refine ⟨q, List.mem_append_right _ ?_, rfl⟩
        have hmem : q ∈ s₂.waiting := hq
        rw [hanswer] at hmem
        exact hmem
    have hstart := h₁.ready q₁ hq₁
    have hneed : ∀ k, s₂.reapFinished.1.cache.blocksNeededFor k = s₁.cache.blocksNeededFor k := by
      intro k
      unfold KvCacheManager.blocksNeededFor
      rw [hcache.reachable.blockSize hbs hn, h₁.cache.reachable.blockSize hbs hn]
    refine ⟨hprompt ▸ hstart.prompt, ?_, ?_, (hadv.going q hq).live⟩
    · rw [hconfig, ← hprompt, ← s.schedule_config]
      exact hstart.budget
    · rw [hturn, hneed, hcache.reachable.totalBlocks hbs hn, ← hprompt,
        ← h₁.cache.reachable.totalBlocks hbs hn]
      exact hstart.fits
  · rw [hconfig] at hoff
    refine hwhole₂ hoff r ?_
    have hmem := (List.mem_filter.mp (hturn ▸ hr : r ∈ s₂.reapFinished.1.running)).1
    rw [hanswer] at hmem
    exact hmem
  · rw [hconfig]
    exact h.slots
  · rw [hconfig]
    exact h.budget

/-! ## Runs of turns -/

omit tokens in
/-- **Run lemma**: a workload whose turns have headway drains, and everybody
in it is reaped with `Stop` or `Length`. The induction is on the tokens to go,
then on how far the head is from its next one, then on what there is to
read. -/
theorem drains (h : s.Serving n bs flag) (hbs : 1 ≤ bs) (hn : n ≤ 2 ^ 32)
    (hgoing : ∀ q ∈ s.queue, q.Going) (tokens : ℕ → ℕ → TokenId)
    (hway : ∀ k, (s.turns eosIds tokens k).queue ≠ [] → (s.turns eosIds tokens k).Headway) :
    ∃ k, (s.turns eosIds tokens k).queue = [] ∧ ∀ q ∈ s.queue, ∃ j < k,
      ∃ r ∈ (s.turns eosIds tokens j).reaped eosIds (tokens j), r.id = q.id ∧ r.Ended := by
  obtain ⟨μ, hμ⟩ : ∃ μ : ℕ ×ₗ ℕ ×ₗ ℕ, μ = toLex (s.togo, toLex (s.ahead, s.unread)) := ⟨_, rfl⟩
  induction μ using WellFoundedLT.induction generalizing s tokens with
  | ind μ ih =>
    by_cases hwork : s.queue = []
    · refine ⟨0, hwork, fun q hq => ?_⟩
      rw [hwork] at hq
      exact absurd hq List.not_mem_nil
    have hadv : s.Advances s.schedule.1 (s.turn eosIds (tokens 0)).1 s.schedule.2.scheduled
      (s.reaped eosIds (tokens 0)) := turn_advances hgoing
    set s' := (s.turn eosIds (tokens 0)).1 with hs'
    -- the turn makes one of the three smaller
    have hless : toLex (s'.togo, toLex (s'.ahead, s'.unread)) < μ := by
      rw [hμ, Prod.Lex.toLex_lt_toLex, Prod.Lex.toLex_lt_toLex]
      by_cases hdue : s.schedule.1.Due s.schedule.2.scheduled
      · exact Or.inl (hadv.less hdue)
      have hsame := hadv.same hdue
      refine Or.inr ⟨?_, ?_⟩
      · rw [hsame]
        exact togo_of_moved (PassMoves.moved s.passes_moves)
      rw [hsame]
      cases h.getsOn hbs hn hwork (hway 0 hwork) with
      | due hdue' => exact absurd hdue' hdue
      | nearer hnear => exact Or.inl hnear
      | read hstill hread => exact Or.inr ⟨hstill, hread⟩
    have hshift : ∀ k, s.turns eosIds tokens (1 + k)
        = s'.turns eosIds (fun i => tokens (1 + i)) k := fun k => turns_add eosIds tokens s 1 k
    obtain ⟨k, hdone, hended⟩ := ih _ hless (h.turn hbs hn hgoing) hadv.going
      (fun i => tokens (1 + i)) (fun k hk => hshift k ▸ hway (1 + k) (hshift k ▸ hk)) rfl
    refine ⟨1 + k, by rw [hshift]; exact hdone, fun q hq => ?_⟩
    rcases hadv.kept q hq with ⟨q', hq', hid⟩ | ⟨r, hr, hid, hend⟩
    · obtain ⟨j, hj, r, hr, hrid, hend⟩ := hended q' hq'
      refine ⟨1 + j, Nat.add_lt_add_left hj 1, r, ?_, hrid.trans hid, hend⟩
      rw [hshift]
      exact hr
    · exact ⟨0, by omega, r, hr, hid, hend⟩

end Serving

end Scheduler

/-! ## Workloads -/

namespace Service

variable {config : SchedulerConfig} {firstId : ℕ}

/-- A list of requests, offered one after the other. -/
def offer (v : Service KvCacheManager)
    (requests : List (List TokenId × SamplingParams × Instant)) : Service KvCacheManager :=
  SchedulerOp.runAll v (requests.map (fun r => .addRequest r.1 r.2.1 r.2.2))

/-- **A scheduler that has only been offered requests.** -/
structure Offered (config : SchedulerConfig) (m : KvCacheManager)
    (v : Service KvCacheManager) : Prop where
  config : v.sched.config = config
  running : v.sched.running = []
  cache : v.sched.cache = m
  admitted : v.admitted = v.sched.waiting.map Sequence.id
  waiting : ∀ w ∈ v.sched.waiting, w.state = .waiting ∧ w.output = []
    ∧ m.blocksNeededFor w.promptLen ≤ m.totalBlocks

/-- Another request. -/
theorem Offered.addRequest {m : KvCacheManager} {v : Service KvCacheManager}
    (h : v.Offered config m) (prompt : List TokenId) (params : SamplingParams)
    (now : Instant) :
    Service.Offered config m ((SchedulerOp.addRequest prompt params now).run v) := by
  set seq : Sequence := .new ⟨v.nextId⟩ prompt params now with hseq
  have hrun : (SchedulerOp.addRequest prompt params now).run v = { v with
      sched := (v.sched.addRequest seq).1
      nextId := v.nextId + 1
      admitted := v.admitted ++ (v.sched.addRequest seq).2.toOption.toList } := rfl
  rcases v.sched.addRequest_cases seq with ⟨e, he⟩ | ⟨hok, hfits⟩
  · rw [he] at hrun
    rw [hrun]
    exact ⟨h.config, h.running, h.cache, (List.append_nil _).trans h.admitted, h.waiting⟩
  · rw [hok] at hrun
    rw [hrun]
    refine ⟨h.config, h.running, h.cache, ?_, fun w hw => ?_⟩
    · show v.admitted ++ [seq.id] = (v.sched.waiting ++ [seq]).map Sequence.id
      rw [List.map_append, h.admitted]
      rfl
    · rcases List.mem_append.mp hw with hw | hw
      · exact h.waiting w hw
      · rw [List.mem_singleton.mp hw]
        rw [h.cache] at hfits
        exact ⟨rfl, rfl, hfits⟩

theorem offer_offered {m : KvCacheManager}
    (requests : List (List TokenId × SamplingParams × Instant)) :
    ∀ {v : Service KvCacheManager}, v.Offered config m → (v.offer requests).Offered config m := by
  induction requests with
  | nil => exact fun h => h
  | cons r requests ih => exact fun h => ih (h.addRequest r.1 r.2.1 r.2.2)

/-- A cache that has not been used. -/
theorem unshared_new : (KvCacheManager.new n bs flag).Unshared n bs flag where
  reachable := .start
  unpublished _ h := h

/-- What has been offered is a workload, if every prompt can be read. -/
theorem offer_serving (hbs : 1 ≤ bs) (hn : n ≤ 2 ^ 32) (hvalid : config.validate = .ok ())
    (requests : List (List TokenId × SamplingParams × Instant)) {v : Service KvCacheManager}
    (hv : v = (Service.start config (KvCacheManager.new n bs flag) firstId).offer requests)
    (hprompt : ∀ w ∈ v.sched.waiting, w.prompt ≠ [])
    (hwhole : config.enableChunkedPrefill = false →
      ∀ w ∈ v.sched.waiting, w.promptLen ≤ config.maxNumBatchedTokens) :
    v.Offered config (KvCacheManager.new n bs flag) ∧ v.sched.queue = v.sched.waiting
    ∧ v.sched.Serving n bs flag ∧ ∀ q ∈ v.sched.queue, q.Going := by
  have ho : v.Offered config (KvCacheManager.new n bs flag) := by
    rw [hv]
    exact offer_offered requests ⟨rfl, rfl, rfl, rfl, fun w hw => absurd hw List.not_mem_nil⟩
  have hreach : v.Reachable config (KvCacheManager.new n bs flag) firstId := by
    rw [hv]
    exact Reachable.start.runAll _
  have hqueue : v.sched.queue = v.sched.waiting := by
    unfold Scheduler.queue
    rw [ho.running]
    rfl
  obtain ⟨hslots, hbudget⟩ := SchedulerConfig.pos_of_validate hvalid
  refine ⟨ho, hqueue, ⟨(hreach.sound hbs hn).sched, ho.cache ▸ unshared_new, fun w hw => ?_,
    fun _ r hr => ?_, ho.config ▸ hslots, ho.config ▸ hbudget⟩, fun w hw => ?_⟩
  · rw [hqueue] at hw
    obtain ⟨hstate, -, hfits⟩ := ho.waiting w hw
    refine ⟨List.length_pos_iff.mpr (hprompt w hw), ?_, ?_, by rw [hstate]; simp⟩
    · rw [ho.config]
      exact fun hoff => hwhole hoff w hw
    · rw [ho.cache]
      exact hfits
  · rw [ho.running] at hr
    exact absurd hr List.not_mem_nil
  · rw [hqueue] at hw
    obtain ⟨hstate, hout, -⟩ := ho.waiting w hw
    refine ⟨by rw [hstate]; simp, ?_⟩
    rw [hout]
    exact lt_max_of_lt_left Nat.one_pos

/-- **A workload whose turns have headway drains**: turn after turn, with any
tokens, `has_work` is false after finitely many, and every request that was
admitted has been reaped with `Stop` or `Length` by then. Without headway two
sequences can evict each other for ever: an evicted one starts its prompt anew,
and no token is ever due. -/
theorem workload_drains (hbs : 1 ≤ bs) (hn : n ≤ 2 ^ 32) (hvalid : config.validate = .ok ())
    (requests : List (List TokenId × SamplingParams × Instant)) {v : Service KvCacheManager}
    (hv : v = (Service.start config (KvCacheManager.new n bs flag) firstId).offer requests)
    (hprompt : ∀ w ∈ v.sched.waiting, w.prompt ≠ [])
    (hwhole : config.enableChunkedPrefill = false →
      ∀ w ∈ v.sched.waiting, w.promptLen ≤ config.maxNumBatchedTokens)
    (eosIds : List TokenId) (tokens : ℕ → ℕ → TokenId)
    (hway : ∀ k, (v.sched.turns eosIds tokens k).hasWork = true →
      (v.sched.turns eosIds tokens k).Headway) :
    ∃ k, (v.sched.turns eosIds tokens k).hasWork = false ∧ ∀ id ∈ v.admitted, ∃ j < k,
      ∃ r ∈ (v.sched.turns eosIds tokens j).reaped eosIds (tokens j), r.id = id ∧ r.Ended := by
  obtain ⟨ho, hqueue, hserving, hgoing⟩ := offer_serving hbs hn hvalid requests hv hprompt hwhole
  have hwork : ∀ s : Scheduler KvCacheManager, s.hasWork = true ↔ s.queue ≠ [] := by
    intro s
    unfold Scheduler.hasWork Scheduler.queue
    rw [ne_eq, List.append_eq_nil_iff, not_and_or, ← List.isEmpty_iff, ← List.isEmpty_iff]
    rcases s.waiting.isEmpty <;> rcases s.running.isEmpty <;> simp
  obtain ⟨k, hdone, hended⟩ := hserving.drains hbs hn hgoing tokens
    (fun k hk => hway k ((hwork _).mpr hk))
  refine ⟨k, ?_, fun id hid => ?_⟩
  · rw [← Bool.not_eq_true, hwork]
    exact fun hne => hne hdone
  · rw [ho.admitted] at hid
    obtain ⟨w, hw, rfl⟩ := List.mem_map.mp hid
    exact hended w (hqueue ▸ hw)

/-- Two prompts of two tokens in a cache of two blocks. -/
def sideBySide : Service KvCacheManager :=
  (Service.start {} (KvCacheManager.new 2 4 true) 1).offer
    [([1, 2], { maxTokens := 1 }, 0), ([3, 4], { maxTokens := 1 }, 0)]

/-- The second prompt fits next to the first, and the first turn is the
last. -/
theorem workload_drains_sideBySide :
    ∃ k, (sideBySide.sched.turns [] (fun _ _ => 9) k).hasWork = false
      ∧ ∀ id ∈ sideBySide.admitted, ∃ j < k,
        ∃ r ∈ (sideBySide.sched.turns [] (fun _ _ => 9) j).reaped [] (fun _ => 9),
          r.id = id ∧ r.Ended := by
  have hdone : (sideBySide.sched.turns [] (fun _ _ => 9) 1).running = []
      ∧ (sideBySide.sched.turns [] (fun _ _ => 9) 1).waiting = [] := by decide +kernel
  have hidle : ∀ k, (sideBySide.sched.turns [] (fun _ _ => 9) (1 + k)).running = []
      ∧ (sideBySide.sched.turns [] (fun _ _ => 9) (1 + k)).waiting = [] := by
    intro k
    induction k with
    | zero => exact hdone
    | succ k ih =>
      show ((sideBySide.sched.turns [] (fun _ _ => 9) (1 + k)).turn []
          (fun _ => 9)).1.running = []
        ∧ ((sideBySide.sched.turns [] (fun _ _ => 9) (1 + k)).turn []
          (fun _ => 9)).1.waiting = []
      rw [Scheduler.turn_idle ih.1 ih.2]
      exact ih
  refine workload_drains (v := sideBySide) (n := 2) (by decide) (by decide) (by decide) _ rfl
    (by decide +kernel) (by decide +kernel) [] (fun _ _ => 9) (fun k hk => ?_)
  rcases k with - | k
  · -- two blocks for the two prompts
    show Scheduler.Headway sideBySide.sched
    unfold Scheduler.Headway
    rw [if_pos (by decide +kernel)]
    refine Or.inr (Or.inr (Or.inr ?_))
    obtain ⟨head, others, hq, hhead, hothers⟩ := List.map_eq_cons_iff.mp
      (show sideBySide.sched.queue.map (fun q => (q.id, q.promptLen)) = [(⟨1⟩, 2), (⟨2⟩, 2)] by
        decide +kernel)
    obtain ⟨second, rest, rfl, hsecond, -⟩ := List.map_eq_cons_iff.mp hothers
    refine ⟨head, second, rest, hq, ?_⟩
    rw [(Prod.mk.inj hhead).1, (Prod.mk.inj hhead).2, (Prod.mk.inj hsecond).2]
    decide +kernel
  · rw [Nat.add_comm k 1] at hk
    obtain ⟨hrun, hwait⟩ := hidle k
    unfold Scheduler.hasWork at hk
    rw [hrun, hwait] at hk
    exact absurd hk (by decide)

/-! ## A workload that does not drain -/

/-- A prompt of two tokens and one of three in a cache of two blocks of two,
with two tokens to a call. -/
def pairOffered : Service KvCacheManager :=
  (Service.start { maxNumSeqs := 2, maxNumBatchedTokens := 2 }
    (KvCacheManager.new 2 2 true) 1).offer
    [([7, 7], { maxTokens := 2 }, 0), ([8, 8, 8], { maxTokens := 1 }, 0)]

/-- The first request, half of its prompt read again. -/
def halfRead : Sequence :=
  { Sequence.new ⟨1⟩ [7, 7] { maxTokens := 2 } 0 with
    output := [5], computedPrefixLen := 1, state := .prefilling }

section HalfRead

variable {s : Scheduler KvCacheManager}

/-- The other half is read as well. -/
def readOn (s : Scheduler KvCacheManager) : Pass KvCacheManager :=
  ({ s.pass with sched := { s.pass.sched with running := [Pass.resumed halfRead 1] } }
    : Pass KvCacheManager).emit ⟨⟨1⟩, 1, 1, true⟩

/-- The first request is evicted with its whole prompt read. -/
def evictedAgain (s : Scheduler KvCacheManager) : Pass KvCacheManager :=
  { readOn s with
    sched := { (readOn s).sched with
      running := []
      cache := KvCacheManagerLike.free s.cache ⟨1⟩
      waiting := (Pass.resumed halfRead 1).preempt.1 :: s.waiting
      trace := .preempted (Pass.resumed halfRead 1) :: (readOn s).sched.trace }
    out := { (readOn s).out with preempted := (readOn s).out.preempted ++ [⟨1⟩] } }

theorem preemptOne_readOn : (readOn s).preemptOne = some (evictedAgain s) := rfl

theorem chunkFor_pairOffered (hconfig : s.config = pairOffered.sched.config)
    (remaining room : ℕ) : Pass.chunkFor s.config remaining room = some (min remaining room) :=
  if_pos (by rw [hconfig]; rfl)

/-- The rest of the first prompt is read. -/
theorem schedulePartialPrefills_halfRead (hconfig : s.config = pairOffered.sched.config)
    (hrun : s.running = [halfRead]) : s.pass.schedulePartialPrefills = readOn s := by
  have hbudget : s.config.maxNumBatchedTokens = 2 := by rw [hconfig]; rfl
  refine Pass.schedulePartialPrefills_resume (p := s.pass) (q := halfRead) hrun (by decide)
    (by decide) ?_ ?_ (by decide)
  · show 0 < s.config.maxNumBatchedTokens
    rw [hbudget]
    decide
  · show Pass.chunkFor s.config _ (s.config.maxNumBatchedTokens - 0) = _
    rw [chunkFor_pairOffered hconfig, hbudget]
    decide

/-- The second prompt does not fit next to the first. -/
theorem not_canAllocate_halfRead (h : s.Serving 2 2 true) (hrun : s.running = [halfRead]) :
    ¬ KvCacheManagerLike.canAllocate s.cache 3 = true := by
  intro hcan
  have hsize : s.cache.blockSize = 2 := h.cache.reachable.blockSize (by decide) (by decide)
  have htotal : s.cache.totalBlocks = 2 := h.cache.reachable.totalBlocks (by decide) (by decide)
  have hneed : s.cache.blocksNeededFor 3 ≤ s.cache.freeBlocks := of_decide_eq_true hcan
  have htwo : s.cache.blocksNeededFor 3 = 2 := by
    unfold KvCacheManager.blocksNeededFor
    rw [hsize]
    decide
  obtain ⟨t, ht, hpos⟩ := h.sound.table_pos (hrun ▸ List.mem_cons_self : halfRead ∈ s.running)
    (by decide)
  have hheld := (h.sound.settled.footprint_single ht).2 hpos
  have hadd := h.sound.freeBlocks_add
  rw [hrun] at hadd
  change s.cache.freeBlocks + s.cache.footprint [halfRead.id] = s.cache.totalBlocks at hadd
  omega

/-- So the first makes room. -/
theorem admissionLoop_readOn (h : s.Serving 2 2 true)
    (hconfig : s.config = pairOffered.sched.config) (hrun : s.running = [halfRead])
    (hwait : s.waiting = [.new ⟨2⟩ [8, 8, 8] { maxTokens := 1 } 0]) :
    (readOn s).admissionLoop = (evictedAgain s).admissionLoop := by
  have hbudget : s.config.maxNumBatchedTokens = 2 := by rw [hconfig]; rfl
  have hchunk : Pass.chunkFor (readOn s).sched.config (3 - 0)
      ((readOn s).budget - (readOn s).used) = some 1 := by
    show Pass.chunkFor s.config _ (s.config.maxNumBatchedTokens - 1) = _
    rw [chunkFor_pairOffered hconfig, hbudget]
    decide
  have hfull : ¬ KvCacheManagerLike.canAllocate (readOn s).sched.cache 3 = true :=
    not_canAllocate_halfRead (s := s) h hrun
  refine Pass.admissionLoop_evict ?_ ?_ hwait hchunk (by decide) rfl hfull preemptOne_readOn
  · show 1 < s.config.maxNumSeqs
    rw [hconfig]
    decide
  · show 1 < s.config.maxNumBatchedTokens
    rw [hbudget]
    decide

/-- The token that is left of the budget goes into the first prompt again. -/
theorem admissionLoop_evictedAgain (h : s.Serving 2 2 true)
    (hconfig : s.config = pairOffered.sched.config) (hrun : s.running = [halfRead]) :
    ∃ c, (evictedAgain s).admissionLoop
      = ((evictedAgain s).withCache c).bringIn (Pass.resumed halfRead 1).preempt.1
        s.waiting 1 := by
  have hbudget : s.config.maxNumBatchedTokens = 2 := by rw [hconfig]; rfl
  have hmoves : PassMoves s.pass (evictedAgain s) := by
    refine Relation.ReflTransGen.tail ?_ (.evicted preemptOne_readOn)
    rw [← schedulePartialPrefills_halfRead hconfig hrun]
    exact Pass.partialLoop_moves _ s.pass.partialGuard_candidates
  have hs : (evictedAgain s).sched.Sound := PassMoves.sound hmoves h.sound
  have hcan : KvCacheManagerLike.canAllocate (evictedAgain s).sched.cache 2 = true := by
    obtain ⟨hsize, htotal⟩ := PassMoves.poolSize hmoves h.sound
    have hsize : (evictedAgain s).sched.cache.blockSize = s.cache.blockSize := hsize
    have htotal : (evictedAgain s).sched.cache.totalBlocks = s.cache.totalBlocks := htotal
    refine decide_eq_true ?_
    rw [hs.freeBlocks_idle rfl, htotal, h.cache.reachable.totalBlocks (by decide) (by decide)]
    unfold KvCacheManager.blocksNeededFor
    rw [hsize, h.cache.reachable.blockSize (by decide) (by decide)]
    decide
  obtain ⟨c, ha⟩ : ∃ c, KvCacheManagerLike.allocate (evictedAgain s).sched.cache ⟨1⟩ [7, 7]
      = (c, .ok ()) := by
    rcases ha : KvCacheManagerLike.allocate (evictedAgain s).sched.cache ⟨1⟩ [7, 7] with
      ⟨c, e | ⟨⟩⟩
    · exact absurd ha (hs.allocate_ne_error (w := (Pass.resumed halfRead 1).preempt.1)
        List.mem_cons_self hcan)
    · exact ⟨c, rfl⟩
  have hchunk : Pass.chunkFor (evictedAgain s).sched.config (2 - 0)
      ((evictedAgain s).budget - (evictedAgain s).used) = some 1 := by
    show Pass.chunkFor s.config _ (s.config.maxNumBatchedTokens - 1) = _
    rw [chunkFor_pairOffered hconfig, hbudget]
    decide
  refine ⟨c, ?_⟩
  rw [Pass.admissionLoop_admit (p := evictedAgain s) ?_ ?_ rfl hchunk (by decide) rfl hcan ha]
  · rw [Pass.admissionLoop, if_pos (Or.inr ?_)]
    show s.config.maxNumBatchedTokens ≤ 1 + 1
    rw [hbudget]
  · show 0 < s.config.maxNumSeqs
    rw [hconfig]
    decide
  · show 1 < s.config.maxNumBatchedTokens
    rw [hbudget]
    decide

/-- **A turn that gets nowhere**: the other half of the first prompt is read,
the second one does not fit next to it, so the first is evicted and admitted
again for the one token that is left of the budget. -/
theorem turn_halfRead (h : s.Serving 2 2 true)
    (hconfig : s.config = pairOffered.sched.config) (hrun : s.running = [halfRead])
    (hwait : s.waiting = [.new ⟨2⟩ [8, 8, 8] { maxTokens := 1 } 0]) (tokens : ℕ → TokenId) :
    (s.turn [] tokens).1.config = s.config ∧ (s.turn [] tokens).1.running = [halfRead]
    ∧ (s.turn [] tokens).1.waiting = s.waiting := by
  -- the decode pass has nothing to do
  have hdecodes : s.pass.scheduleDecodes = s.pass := by
    refine Pass.scheduleDecodes_idle (Or.inl (fun r hr => ?_))
    rw [show s.pass.sched.running = [halfRead] from hrun] at hr
    rw [List.mem_singleton.mp hr]
    decide
  obtain ⟨c, hloop⟩ := admissionLoop_evictedAgain h hconfig hrun
  have hpasses : s.passes = ((evictedAgain s).withCache c).bringIn
      (Pass.resumed halfRead 1).preempt.1 s.waiting 1 := by
    unfold Scheduler.passes Pass.schedulePrefills
    rw [if_pos (by rw [hconfig]; rfl), hdecodes, schedulePartialPrefills_halfRead hconfig hrun,
      admissionLoop_readOn h hconfig hrun hwait, hloop]
  have hrun' : s.schedule.1.running = [halfRead] := by
    show s.passes.sched.running = _
    rw [hpasses]
    rfl
  have hwait' : s.schedule.1.waiting = s.waiting := by
    show s.passes.sched.waiting = _
    rw [hpasses]
    rfl
  -- nobody is through with its prompt
  have hnobody : ¬ s.schedule.1.Due s.schedule.2.scheduled := by
    rintro ⟨d, -, hdue⟩
    obtain ⟨q, hq, -, hthrough⟩ := Scheduler.takesToken_iff.mp hdue
    have hmem := List.mem_of_findKey hq
    rw [hrun'] at hmem
    rw [List.mem_singleton.mp hmem] at hthrough
    exact absurd hthrough (by decide)
  have hgoing : ∀ q ∈ s.queue, q.Going := by
    intro q hq
    unfold Scheduler.queue at hq
    rw [hrun, hwait] at hq
    rcases List.mem_cons.mp hq with rfl | hq
    · exact ⟨by decide, by decide⟩
    · rw [List.mem_singleton.mp hq]
      exact ⟨by decide, by decide⟩
  have hadv : s.Advances s.schedule.1 (s.turn [] tokens).1 s.schedule.2.scheduled
    (s.reaped [] tokens) := Scheduler.turn_advances hgoing
  rw [hadv.same hnobody]
  exact ⟨s.schedule_config, hrun', hwait'⟩

end HalfRead

/-- **Not every workload drains.** -/
theorem workload_livelocks :
    pairOffered.sched.config.validate = .ok ()
    ∧ pairOffered.admitted = [⟨1⟩, ⟨2⟩]
    ∧ (∀ w ∈ pairOffered.sched.waiting, w.prompt ≠ []
      ∧ pairOffered.sched.cache.blocksNeededFor (w.promptLen + w.params.maxTokens)
        ≤ pairOffered.sched.cache.totalBlocks)
    ∧ ∀ k, (pairOffered.sched.turns [] (fun _ _ => 5) k).hasWork = true := by
  refine ⟨by decide, by decide +kernel, by decide +kernel, fun k => ?_⟩
  obtain ⟨-, -, h, hgoing⟩ := offer_serving (v := pairOffered) (n := 2) (by decide) (by decide)
    (by decide) _ rfl (by decide +kernel) (by decide +kernel)
  -- every turn leaves a workload
  have hserving : ∀ k, (pairOffered.sched.turns [] (fun _ _ => 5) k).Serving 2 2 true
      ∧ ∀ q ∈ (pairOffered.sched.turns [] (fun _ _ => 5) k).queue, q.Going := by
    intro k
    induction k with
    | zero => exact ⟨h, hgoing⟩
    | succ k ih =>
      exact ⟨ih.1.turn (by decide) (by decide) ih.2, (Scheduler.turn_advances ih.2).going⟩
  -- from the second on it is the same
  have hsame : ∀ j, (pairOffered.sched.turns [] (fun _ _ => 5) (2 + j)).config
        = pairOffered.sched.config
      ∧ (pairOffered.sched.turns [] (fun _ _ => 5) (2 + j)).running = [halfRead]
      ∧ (pairOffered.sched.turns [] (fun _ _ => 5) (2 + j)).waiting
        = [.new ⟨2⟩ [8, 8, 8] { maxTokens := 1 } 0] := by
    intro j
    induction j with
    | zero => exact ⟨by decide +kernel, by decide +kernel, by decide +kernel⟩
    | succ j ih =>
      obtain ⟨hconfig, hrun, hwait⟩ := ih
      obtain ⟨hconfig', hrun', hwait'⟩ :=
        turn_halfRead (hserving (2 + j)).1 hconfig hrun hwait (fun _ => 5)
      exact ⟨hconfig'.trans hconfig, hrun', hwait'.trans hwait⟩
  rcases k with - | - | k
  · decide +kernel
  · decide +kernel
  · rw [show k + 1 + 1 = 2 + k by omega]
    unfold Scheduler.hasWork
    rw [(hsame k).2.1]
    simp

end Service
