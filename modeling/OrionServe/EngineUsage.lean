import OrionServe.EngineChannels

/-!
# What a request is charged for

The terminal event of a request reports how many tokens it was sent. Three
paths build it: the length of the output in the running queue, that of a
reaped sequence, and a literal zero for a cancellation. A request that times
out in the waiting queue is no longer found in the running one and is charged
for nothing as well. Both paths are right for a request without tokens, and
only for one (`usage_exact_iff`): a preempted request waits with its output.
-/

/-- Who is in a queue can be cancelled. -/
theorem Scheduler.cancel_of_mem {C : Type*} [KvCacheManagerLike C] {s : Scheduler C}
    {q : Sequence} {id : SequenceId} (hq : q ∈ s.queue) (hid : q.id = id) :
    (s.cancel id).2 = true := by
  unfold Scheduler.cancel
  split
  · rfl
  · next hwait =>
    rw [if_pos]
    rcases List.mem_append.mp hq with hq | hq
    · exact List.any_eq_true.mpr ⟨q, hq, decide_eq_true hid⟩
    · exact absurd (List.any_eq_true.mpr ⟨q, hq, decide_eq_true hid⟩) hwait

namespace Engine

variable {M S F : Type*} {e e' : Engine M S} {id : SequenceId} {params : SamplingParams}
  {promptLen : ℕ} {eosIds tokens : List TokenId} {life : Life} {now : Instant}

/-- **The usage in a terminal event is exact**: as many prompt tokens as the prompt
has, and as many completion tokens as there were token events. A handler puts the
second number into its reply, or its own count of the events if that is larger. -/
def UsageExact (id : SequenceId) (promptLen : ℕ) (e : Engine M S) : Prop :=
  ∀ reason p c, .done reason p c ∈ e.eventsOf id →
    p = promptLen ∧ c = (tokensIn (e.eventsOf id)).length

/-- **An operation does not end a request that is not charged for its
tokens**: it cancels it, or lets it time out in the waiting queue, only while
it has none. -/
def ChargedFor (id : SequenceId) (e : Engine M S) : EngineOp S → Prop
  | .cancel id' => id' = id →
      ∀ q ∈ e.scheduler.queue, q.id = id → q.state ≠ .finished → q.output = []
  | .step now => ∀ secs, e.scheduler.config.requestTimeoutSecs = some secs →
      ∀ q ∈ e.scheduler.waiting, q.id = id → q.state ≠ .finished →
        Scheduler.isExpired now (durationFromSecs secs) q = true → q.output = []
  | _ => True

/-- Every operation of a list does so, in the state that it finds. -/
def AllChargedFor [LanguageModel M F] [Sampler S F] (id : SequenceId) :
    Engine M S → List (EngineOp S) → Prop
  | _, [] => True
  | e, op :: ops => e.ChargedFor id op ∧ AllChargedFor id (op.run e) ops

/-- A life tells whether the usage is exact. -/
theorem Lives.usageExact_iff (h : e.Lives id params promptLen eosIds False life) :
    e.UsageExact id promptLen ↔ life.Counted := by
  unfold UsageExact
  rw [eventsOf_eq_map, h.history]
  cases life with
  | going tokens =>
    refine ⟨fun _ => trivial, fun _ reason p c hdone => ?_⟩
    rw [Life.sent, List.map_map] at hdone
    exact absurd ((List.map_id (tokenEvents tokens)) ▸ hdone) done_notMem_tokenEvents
  | ended tokens reason completion told =>
    have hevents : ((Life.ended tokens reason completion told).sent promptLen).map Prod.fst
        = tokenEvents tokens ++ [.done reason promptLen completion] := by
      rw [Life.sent, List.map_append, List.map_map]
      exact congrArg (· ++ _) (List.map_id _)
    have htokens : tokensIn (tokenEvents tokens ++ [.done reason promptLen completion])
        = tokens := by
      rw [tokensIn_append, tokensIn_tokenEvents]
      exact List.append_nil _
    rw [hevents, htokens]
    constructor
    · intro hexact
      exact (hexact reason promptLen completion
        (List.mem_append_right _ (List.mem_singleton.mpr rfl))).2
    · intro hcounted reason' p c hdone
      rcases List.mem_append.mp hdone with hdone | hdone
      · exact absurd hdone done_notMem_tokenEvents
      · injection List.mem_singleton.mp hdone with _ hp hc
        exact ⟨hp, hc.trans hcounted⟩
  | dropped tokens token =>
    refine ⟨fun _ => trivial, fun _ reason p c hdone => ?_⟩
    rw [Life.sent, List.map_append, List.map_map] at hdone
    rcases List.mem_append.mp hdone with hdone | hdone
    · exact absurd ((List.map_id (tokenEvents tokens)) ▸ hdone) done_notMem_tokenEvents
    · exact absurd (List.mem_singleton.mp hdone) nofun

/-- **Who is unfinished goes on**, with the tokens that were sent. -/
theorem Lives.output_eq (h : e.Lives id params promptLen eosIds False life) (ht : e.Tracks [] [])
    {q : Sequence} (hq : q ∈ e.scheduler.queue) (hid : q.id = id) (hlive : q.state ≠ .finished) :
    life = .going q.output := by
  have hactive := ht.requested q hq hlive
  rw [hid] at hactive
  cases life with
  | going tokens => rw [((h.going tokens rfl).sequence q hq hid).1]
  | ended _ _ _ _ =>
    rw [h.closed (fun hgo => hgo)] at hactive
    exact absurd hactive (by simp)
  | dropped _ _ =>
    rw [h.closed (fun hgo => hgo)] at hactive
    exact absurd hactive (by simp)

/-- **A cancelled request** is charged for nothing. -/
theorem Lives.cancelled_iff (h : e.Lives id params promptLen eosIds False (.going tokens))
    (hfound : (e.scheduler.cancel id).2 = true) :
    0 = tokens.length ↔ e.ChargedFor id (.cancel id) := by
  have hseq := (h.going tokens rfl).sequence
  obtain ⟨q, hq, hid⟩ : ∃ q ∈ e.scheduler.queue, q.id = id := by
    unfold Scheduler.cancel at hfound
    split at hfound
    · next hany =>
      obtain ⟨q, hq, hid⟩ := List.any_eq_true.mp hany
      exact ⟨q, List.mem_append_right _ hq, of_decide_eq_true hid⟩
    split at hfound
    · next hany =>
      obtain ⟨q, hq, hid⟩ := List.any_eq_true.mp hany
      exact ⟨q, List.mem_append_left _ hq, of_decide_eq_true hid⟩
    · exact absurd hfound Bool.false_ne_true
  constructor
  · intro hnone _ q hq hid _
    rw [(hseq q hq hid).1]
    exact List.length_eq_zero_iff.mp hnone.symm
  · intro hcharged
    rw [← (hseq q hq hid).1, hcharged rfl q hq hid (hseq q hq hid).2.2.2]
    rfl

/-- **A request that times out** is charged for what the running queue knows
of it. -/
theorem Lives.expired_iff (h : e.Lives id params promptLen eosIds False (.going tokens))
    (ht : e.Tracks [] []) (hexpired : id ∈ (e.scheduler.expireTimeouts now).2) :
    ((e.scheduler.expireTimeouts now).1.runningSequence id).elim 0 Sequence.outputLen
        = tokens.length ↔ e.ChargedFor id (.step now) := by
  have hseq := (h.going tokens rfl).sequence
  rcases hrun : (e.scheduler.expireTimeouts now).1.runningSequence id with - | q'
  · -- it is in the waiting queue
    have hout : id ∉ e.scheduler.running.map Sequence.id := by
      rw [← Scheduler.map_id_expireTimeouts e.scheduler now]
      exact List.findKey_eq_none_iff.mp hrun
    show 0 = tokens.length ↔ _
    constructor
    · intro hnone _ _ q hq hid _ _
      rw [(hseq q (List.mem_append_right _ hq) hid).1]
      exact List.length_eq_zero_iff.mp hnone.symm
    · intro hcharged
      unfold Scheduler.expireTimeouts at hexpired
      split at hexpired
      · exact absurd hexpired List.not_mem_nil
      next secs hsecs =>
      obtain ⟨q, hq, hid⟩ := List.mem_map.mp ((List.mem_append.mp hexpired).resolve_left
        (fun hin => hout (List.map_subset _ List.filter_sublist.subset hin)))
      obtain ⟨hmem, hexp⟩ := List.mem_filter.mp hq
      obtain ⟨houtput, -, -, hfin⟩ := hseq q (List.mem_append_right _ hmem) hid
      rw [← houtput, hcharged secs hsecs q hmem hid hfin hexp]
      rfl
  · -- it is in the running queue, and in no other
    obtain ⟨q, hq, hqid, -, hout, -⟩ := Scheduler.of_mem_expireTimeouts
      (List.mem_append_left _ (List.mem_of_findKey hrun))
    have hid : q.id = id := hqid.symm.trans (List.key_of_findKey hrun)
    have hcount : q'.outputLen = tokens.length := by
      rw [← (hseq q hq hid).1, ← hout]
      rfl
    refine ⟨fun _ secs _ w hw hwid _ _ => ?_, fun _ => hcount⟩
    have hin : id ∈ e.scheduler.running.map Sequence.id := by
      rw [← Scheduler.map_id_expireTimeouts e.scheduler now, ← List.key_of_findKey hrun]
      exact List.mem_map_of_mem (List.mem_of_findKey hrun)
    have hnd := ht.nodup
    unfold Scheduler.ids at hnd
    rw [List.map_append] at hnd
    exact absurd rfl ((List.nodup_append.mp hnd).2.2 id hin id
      (hwid ▸ List.mem_map_of_mem hw))

variable [LanguageModel M F] [Sampler S F]

/-- **Step lemma.** A life that was counted stays so exactly if the operation
charges for the tokens. -/
theorem Lives.run_counted (h : e.Lives id params promptLen eosIds False life)
    (ht : e.Tracks [] []) (op : EngineOp S) :
    ∃ life', (op.run e).Lives id params promptLen eosIds False life'
      ∧ (¬ life.IsGoing → life' = life)
      ∧ (life.Counted → (life'.Counted ↔ e.ChargedFor id op)) := by
  -- nothing can be missed once it is over
  have hover : ¬ life.IsGoing → e.ChargedFor id op := by
    intro hover
    have hgone : ∀ q ∈ e.scheduler.queue, q.id = id → q.state ≠ .finished → q.output = [] :=
      fun q hq hid hlive => absurd (by rw [h.output_eq ht hq hid hlive]; trivial) hover
    cases op with
    | cancel id' => exact fun _ => hgone
    | step now => exact fun _ _ q hq hid hlive _ => hgone q (List.mem_append_right _ hq) hid hlive
    | _ => trivial
  cases op with
  | submit prompt params events sampler now =>
    exact ⟨life, h.submit prompt params events sampler now, fun _ => rfl,
      fun hc => iff_of_true hc trivial⟩
  | receive id => exact ⟨life, h.receive id, fun _ => rfl, fun hc => iff_of_true hc trivial⟩
  | hangUp id => exact ⟨life, h.hangUp id, fun _ => rfl, fun hc => iff_of_true hc trivial⟩
  | cancel id' =>
    obtain ⟨life', hlife', hends⟩ := h.cancel id'
    refine ⟨life', hlife', fun hno => ?_, fun hc => ?_⟩
    · split at hends
      · exact hends.eq_of_over hno
      · exact hends
    · split at hends
      · next hboth =>
        obtain ⟨rfl, hfound⟩ := hboth
        cases life with
        | going tokens =>
          obtain ⟨told, rfl⟩ := hends
          exact h.cancelled_iff hfound
        | _ =>
          obtain rfl : life' = _ := hends
          exact iff_of_true hc (hover (fun hgo => hgo))
      · next hnot =>
        refine iff_of_true (hends ▸ hc) (fun hid q hq hqid _ => ?_)
        subst hid
        exact absurd ⟨rfl, Scheduler.cancel_of_mem hq hqid⟩ hnot
  | step now =>
    obtain ⟨life', hexpired, hends⟩ := h.expire now
    obtain ⟨life'', hlife'', hcounts⟩ := hexpired.step ht
    have hsame : ¬ life.IsGoing → life' = life := by
      intro hno
      split at hends
      · exact hends.eq_of_over hno
      · exact hends
    refine ⟨life'', hlife'', fun hno => ?_, fun hc => ?_⟩
    · exact (hcounts.stays (hsame hno ▸ hno)).trans (hsame hno)
    -- what comes after the timeouts counts
    · have hrest : life''.Counted ↔ life'.Counted := by
        refine ⟨fun hc'' => ?_, hcounts.counted⟩
        by_contra hnot
        have hover' : ¬ life'.IsGoing := by
          cases life' with
          | going tokens => exact absurd trivial hnot
          | _ => exact fun hgo => hgo
        rw [hcounts.stays hover'] at hc''
        exact hnot hc''
      rw [hrest]
      split at hends
      · next hexp =>
        cases life with
        | going tokens =>
          obtain ⟨told, rfl⟩ := hends
          exact h.expired_iff ht hexp
        | _ =>
          obtain rfl : life' = _ := hends
          exact iff_of_true hc (hover (fun hgo => hgo))
      · next hnot =>
        refine iff_of_true (hends ▸ hc) (fun secs hsecs q hq hqid _ hexp => ?_)
        refine absurd ?_ hnot
        rw [← hqid]
        unfold Scheduler.expireTimeouts
        rw [hsecs]
        exact List.mem_append_right _ (List.mem_map_of_mem (List.mem_filter.mpr ⟨hq, hexp⟩))

/-- **Run lemma.** -/
theorem Lives.runAll_counted (ops : List (EngineOp S)) :
    ∀ {e : Engine M S} {life : Life}, e.Lives id params promptLen eosIds False life →
      e.Tracks [] [] →
        ∃ life', (EngineOp.runAll e ops).Lives id params promptLen eosIds False life'
        ∧ (¬ life.IsGoing → life' = life)
        ∧ (life.Counted → (life'.Counted ↔ e.AllChargedFor id ops)) := by
  induction ops with
  | nil => exact fun {_ life} h _ => ⟨life, h, fun _ => rfl, fun hc => iff_of_true hc trivial⟩
  | cons op ops ih =>
    intro e life h ht
    obtain ⟨life₁, hone, hstays, hcount⟩ := h.run_counted ht op
    obtain ⟨life', hrest, hstays', hcount'⟩ := ih hone (ht.run op)
    refine ⟨life', hrest, fun hno => ?_, fun hc => ?_⟩
    · exact (hstays' (hstays hno ▸ hno)).trans (hstays hno)
    · show _ ↔ e.ChargedFor id op ∧ (op.run e).AllChargedFor id ops
      rw [← hcount hc]
      by_cases hc₁ : life₁.Counted
      · rw [hcount' hc₁, and_iff_right hc₁]
      · have hover : ¬ life₁.IsGoing := by
          cases life₁ with
          | going tokens => exact absurd trivial hc₁
          | _ => exact fun hgo => hgo
        rw [hstays' hover]
        exact iff_of_false hc₁ (fun hboth => hc₁ hboth.1)

variable {config : SchedulerConfig} {n bs firstId : ℕ} {flag : Bool} {model : M}

/-- **When a request is charged for what it was sent.** For every request that
is let in and every run after that, the usage in its terminal event is exact
if and only if every operation of the run charges for its tokens. Two ends do
not: a cancellation, and a timeout in the waiting queue, where an evicted
sequence may have had its first tokens. -/
theorem usage_exact_iff (h : e.Reachable config n bs flag model firstId)
    {prompt : List TokenId} {events : Channel} {sampler : S}
    (hok : (e.submit prompt params events sampler now).2 = .ok id) (ops : List (EngineOp S)) :
    (EngineOp.runAll (e.submit prompt params events sampler now).1 ops).UsageExact id
      prompt.length
      ↔ (e.submit prompt params events sampler now).1.AllChargedFor id ops := by
  obtain ⟨life, hlife, -, hcount⟩ := (lives_submit h.tracks hok).runAll_counted ops
    (h.tracks.submit prompt params events sampler now)
  exact hlife.usageExact_iff.trans (hcount trivial)

/-- An engine with room for two tokens in a batch, over a pool of two blocks. -/
def tight : Engine MockModel MockSampler :=
  .new (.new { maxNumSeqs := 2, maxNumBatchedTokens := 2 } (KvCacheManager.new 2 4 true)) ⟨[]⟩ 1

/-- A request is cancelled after its first token, and one that was preempted
times out after its second: both are charged for nothing. -/
theorem usage_not_counted :
    let cancelled := EngineOp.runAll (MockModel.engine 4 [])
      [MockModel.request [1, 2, 3], .step 0, .cancel ⟨1⟩]
    let expired := EngineOp.runAll tight [MockModel.request [1, 2],
      MockModel.request [3], .step 0, .step 0, .step 0, .step 0, .step (301 * 1000000000)]
    cancelled.AllTaken ⟨1⟩ ∧ cancelled.eventsOf ⟨1⟩ = [.token 7 "" 0, .done .cancelled 3 0]
    ∧ ¬ cancelled.UsageExact ⟨1⟩ 3
    ∧ expired.AllTaken ⟨2⟩
    ∧ expired.eventsOf ⟨2⟩ = [.token 7 "" 0, .token 7 "" 1, .done .timeout 1 0]
    ∧ ¬ expired.UsageExact ⟨2⟩ 1 := by
  intro cancelled expired
  have hcancelled : cancelled.eventsOf ⟨1⟩ = [.token 7 "" 0, .done .cancelled 3 0] := by
    decide +kernel
  have hexpired : expired.eventsOf ⟨2⟩ = [.token 7 "" 0, .token 7 "" 1, .done .timeout 1 0] := by
    decide +kernel
  refine ⟨by decide +kernel, hcancelled, fun hexact => ?_, by decide +kernel, hexpired,
    fun hexact => ?_⟩
  · have hcount := (hexact .cancelled 3 0 (by rw [hcancelled]; simp)).2
    rw [hcancelled] at hcount
    exact absurd hcount (by decide)
  · have hcount := (hexact .timeout 1 0 (by rw [hexpired]; simp)).2
    rw [hexpired] at hcount
    exact absurd hcount (by decide)

/-- A prompt of three tokens that times out after its first token, in the
running queue. -/
theorem usage_exact_iff_running :
    let e' := EngineOp.runAll ((MockModel.engine 4 []).submit [1, 2, 3] {} ⟨8, [], true⟩ ⟨7⟩ 0).1
      [.step 0, .step (301 * 1000000000)]
    e'.eventsOf ⟨1⟩ = [.token 7 "" 0, .done .timeout 3 1] ∧ e'.UsageExact ⟨1⟩ 3 := by
  have hstart : (MockModel.engine 4 []).Reachable {} 4 4 true ⟨[]⟩ 1 := .start
  have hok : ((MockModel.engine 4 []).submit [1, 2, 3] {} ⟨8, [], true⟩ ⟨7⟩ 0).2 = .ok ⟨1⟩ := by
    decide +kernel
  refine ⟨by decide +kernel, (usage_exact_iff hstart hok _).mpr ⟨?_, ?_, trivial⟩⟩
  · intro secs _ q hq _ _ _
    have hwaiting : ((MockModel.engine 4 []).submit [1, 2, 3] {} ⟨8, [], true⟩ ⟨7⟩
      0).1.scheduler.waiting = [.new ⟨1⟩ [1, 2, 3] {} 0] := by decide +kernel
    rw [hwaiting, List.mem_singleton] at hq
    rw [hq]
    rfl
  · intro secs _ q hq _ _ _
    have hwaiting : (EngineOp.run ((MockModel.engine 4 []).submit [1, 2, 3] {} ⟨8, [], true⟩ ⟨7⟩
      0).1 (.step 0)).scheduler.waiting = [] := by decide +kernel
    rw [hwaiting] at hq
    exact absurd hq List.not_mem_nil

end Engine
