import OrionServe.SchedulerOldest

/-!
# What a scheduler can take on

The three passes of a call pay into one budget. An entry is only made when
there is some of it left, and what it submits is at least one token and no
more than is left; an eviction gives nothing back. So the batch of a call
never exceeds the budget, over any cache.

The limit on waiting requests is looked at when a request comes and nowhere
else: an eviction pushes into the waiting queue without a check. But an
eviction moves a sequence from one queue to the other, so that the sum of the
two is what counts – and that grows only when a request is let in.
-/

variable {C : Type*} [KvCacheManagerLike C]

/-- **The batch so far, paid for**: what it submits has been taken off the
budget, nothing submits no tokens, and the budget has not been exceeded. -/
structure Pass.Paid (p : Pass C) : Prop where
  used : p.used = (p.out.scheduled.map ScheduledSequence.numTokens).sum
  pos : ∀ e ∈ p.out.scheduled, 1 ≤ e.numTokens
  within : p.used ≤ p.budget

omit [KvCacheManagerLike C] in
/-- One more entry, within what is left of the budget. -/
theorem Pass.Paid.emit {p : Pass C} (h : p.Paid) {e : ScheduledSequence} (hpos : 1 ≤ e.numTokens)
    (hroom : e.numTokens ≤ p.budget - p.used) : (p.emit e).Paid where
  used := by
    show p.used + e.numTokens = ((p.out.scheduled ++ [e]).map _).sum
    rw [List.map_append, List.sum_append, ← h.used]
    rfl
  pos x hx := by
    rcases List.mem_append.mp hx with hx | hx
    · exact h.pos x hx
    · rw [List.mem_singleton.mp hx]
      exact hpos
  within := by
    show p.used + e.numTokens ≤ p.budget
    have hwithin := h.within
    omega

/-- **Step lemma.** -/
theorem PassMove.paid {p p' : Pass C} (hm : PassMove p p') (h : p.Paid) : p'.Paid := by
  have hsame : ∀ {s : Scheduler C}, s.config = p.sched.config →
      ({ p with sched := s } : Pass C).Paid := by
    intro s hconfig
    refine ⟨h.used, h.pos, ?_⟩
    show p.used ≤ s.config.maxNumBatchedTokens
    rw [hconfig]
    exact h.within
  cases hm with
  | refused answer result =>
    rw [result]
    exact hsame rfl
  | decoded room answer cand result =>
    rw [result]
    refine Pass.Paid.emit (hsame ?_) ?_ ?_
    · rfl
    · exact le_rfl
    · exact Nat.sub_pos_of_lt room
  | evicted result =>
    obtain ⟨older, victim, -, rfl⟩ := Pass.preemptOne_eq_some result
    exact ⟨h.used, h.pos, h.within⟩
  | resumed found cand pos room result =>
    rw [result]
    refine Pass.Paid.emit (hsame ?_) ?_ ?_
    · rfl
    · exact pos
    · exact room
  | admitted head first slot pos left room answer result =>
    rw [result]
    refine Pass.Paid.emit (hsame ?_) ?_ ?_
    · rfl
    · exact pos
    · exact room
  | readmitted head started slot pos left room result =>
    rw [result]
    refine Pass.Paid.emit (hsame ?_) ?_ ?_
    · rfl
    · exact pos
    · exact room
  | putBack head available answer result =>
    rw [result]
    exact hsame rfl

/-- **Run lemma.** -/
theorem PassMoves.paid {p p' : Pass C} (hm : PassMoves p p') (h : p.Paid) : p'.Paid := by
  induction hm with
  | refl => exact h
  | tail _ hmove ih => exact hmove.paid ih

/-- **The batch of a call**, of any scheduler. -/
theorem Scheduler.schedule_paid (s : Scheduler C) : s.passes.Paid :=
  PassMoves.paid s.passes_moves ⟨rfl, fun _ he => absurd he List.not_mem_nil, Nat.zero_le _⟩

namespace Service

variable {config : SchedulerConfig} {cache : C} {firstId : ℕ} {v : Service C}

/-- **No more requests are in service** than may wait and run. -/
theorem Reachable.inService_le (h : v.Reachable config cache firstId) :
    v.sched.ids.length ≤ config.maxWaitingRequests + config.maxNumSeqs := by
  induction h with
  | start => exact Nat.zero_le _
  | @step v op hv ih =>
    have hdeletes : ∀ {s : Scheduler C} {reported : List SequenceId},
        v.sched.OnlyDeletes s reported →
        s.ids.length ≤ config.maxWaitingRequests + config.maxNumSeqs :=
      fun hdel => hdel.1.length_le.trans ih
    cases op with
    | addRequest prompt params now =>
      have hrun := hv.running_le
      have hconfig := hv.config
      show (v.sched.addRequest _).1.ids.length ≤ _
      set seq : Sequence := .new ⟨v.nextId⟩ prompt params now with hseq
      by_cases hfull : v.sched.config.maxWaitingRequests ≤ v.sched.waiting.length
      · unfold Scheduler.addRequest
        rw [if_pos hfull]
        exact ih
      rcases v.sched.addRequest_cases seq with ⟨e, he⟩ | ⟨hok, -⟩
      · rw [he]
        exact ih
      · -- one place was left among those that wait
        rw [hok]
        show ((v.sched.running ++ (v.sched.waiting ++ [seq])).map Sequence.id).length ≤ _
        rw [List.length_map, List.length_append, List.length_append, List.length_singleton]
        rw [hconfig] at hfull
        omega
    | schedule =>
      show v.sched.schedule.1.ids.length ≤ _
      rw [v.sched.schedule_ids]
      exact ih
    | onToken id token eosIds =>
      show (v.sched.onToken id token eosIds).1.ids.length ≤ _
      rw [v.sched.onToken_ids id token eosIds]
      exact ih
    | reapFinished => exact hdeletes v.sched.reapFinished_onlyDeletes
    | cancel id => exact hdeletes (v.sched.cancel_onlyDeletes id)
    | expireTimeouts now => exact hdeletes (v.sched.expireTimeouts_onlyDeletes now)
    | commitPrefill id =>
      show (v.sched.commitPrefill id).ids.length ≤ _
      rw [v.sched.commitPrefill_ids id]
      exact ih

/-- **The bounds of a run**, over any cache: what one call submits, entry by
entry and in all, how many sequences run, and how many there are. The last is
the sum of two limits, as sequences that were evicted are put back in a queue
that may be full. -/
theorem resource_bounds (h : v.Reachable config cache firstId) :
    ((v.sched.schedule.2.scheduled.map ScheduledSequence.numTokens).sum
        ≤ config.maxNumBatchedTokens
      ∧ ∀ e ∈ v.sched.schedule.2.scheduled, 1 ≤ e.numTokens)
    ∧ v.sched.running.length ≤ config.maxNumSeqs
    ∧ v.sched.waiting.length + v.sched.running.length
      ≤ config.maxWaitingRequests + config.maxNumSeqs := by
  have hpaid := v.sched.schedule_paid
  have hbudget : v.sched.passes.budget = config.maxNumBatchedTokens := by
    have hconfig : v.sched.passes.sched.config = v.sched.config :=
      PassMoves.config v.sched.passes_moves
    show v.sched.passes.sched.config.maxNumBatchedTokens = _
    rw [hconfig, h.config]
  refine ⟨⟨?_, hpaid.pos⟩, h.running_le, ?_⟩
  · calc (v.sched.schedule.2.scheduled.map ScheduledSequence.numTokens).sum
        = v.sched.passes.used := hpaid.used.symm
      _ ≤ v.sched.passes.budget := hpaid.within
      _ = config.maxNumBatchedTokens := hbudget
  · have hlen := h.inService_le
    unfold Scheduler.ids at hlen
    rw [List.length_map, List.length_append, Nat.add_comm] at hlen
    exact hlen

/-- Both prompts are evicted in one call, and the queues stay within bounds. -/
theorem resource_bounds_twoFull :
    ((twoFull.sched.schedule.2.scheduled.map ScheduledSequence.numTokens).sum ≤ 8192
      ∧ ∀ e ∈ twoFull.sched.schedule.2.scheduled, 1 ≤ e.numTokens)
    ∧ twoFull.sched.running.length ≤ 256
    ∧ twoFull.sched.waiting.length + twoFull.sched.running.length ≤ 1024 + 256 := by
  have hreach : twoFull.Reachable {} (KvCacheManager.new 2 4 true) 1 := Reachable.start.runAll _
  exact resource_bounds hreach

end Service
