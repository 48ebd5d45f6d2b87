import OrionServe.EngineWrites
import OrionServe.EngineStreams

/-!
# Steps that fail

`schedule` writes down what a step is going to do as if it were done: the
prompt counters go up, sequences change their state and block tables grow
before the batch is built and the model is called. When either fails the
step returns its error, and nothing takes any of that back. So a failed step
is progress for every sequence in its batch, whatever the model: the counter
of a prefill entry has gone up, and the table of a decode entry has grown.

The exception is a sequence that the same call evicted before it scheduled
it, which may end up where it was.
-/

/-- A call that the script of the model lets fail. -/
theorem MockModel.forward_of_failure (m : MockModel) (h : m.failures.headD false = true)
    (b : ForwardBatch) :
    (LanguageModel.forward m b).2 = .error (.internal ["scripted failure"]) := if_pos h

namespace Scheduler.Sound

variable {s : Scheduler KvCacheManager}

/-- **An entry is progress** as soon as it is made: for a sequence that the
call did not evict, either more of the prompt counts as computed or its table
holds more tokens. -/
theorem progress (h : s.Sound) {d : ScheduledSequence} (hd : d ∈ s.schedule.2.scheduled)
    (hnot : d.id ∉ s.schedule.2.preempted) {q r : Sequence} (hq : q ∈ s.queue)
    (hqid : q.id = d.id) (hqlive : q.state ≠ .finished) (hr : r ∈ s.schedule.1.running)
    (hrid : r.id = d.id) (hrlive : r.state ≠ .finished) :
    q.computedPrefixLen < r.computedPrefixLen
    ∨ ∃ t t', s.cache.blockTable d.id = some t ∧ s.schedule.1.cache.blockTable d.id = some t'
      ∧ t.numTokens < t'.numTokens := by
  have hres' := h.schedule.resident hr hrlive
  rcases List.mem_append.mp hq with hq | hq
  swap
  · -- a waiting sequence starts from nothing
    obtain ⟨-, hzero, -⟩ := h.atStart hq hqlive
    exact Or.inl (hzero ▸ hres'.started)
  have hres := h.resident hq hqlive
  obtain ⟨decodes, prefills, hes, hdec, hpre, htile, -, t, ht, hnum⟩ := hres.entries
  obtain ⟨decodes', prefills', hes', hdec', hpre', htile', -, t', ht', hnum'⟩ := hres'.entries
  rw [hqid] at hes ht
  rw [hrid] at hes' ht'
  obtain ⟨new, hnew, hfilter⟩ := s.entriesSince_kept hnot
  have hmem : d ∈ new := by
    rw [hfilter, List.mem_reverse]
    exact List.mem_filter.mpr ⟨hd, decide_eq_true rfl⟩
  have hsplit : decodes' ++ prefills' = new ++ (decodes ++ prefills) := by
    rw [← hes', ← hes]
    exact hnew
  -- the two kinds of entries, counted apart
  have hkind : ∀ {a b : List ScheduledSequence}, (∀ e ∈ a, e.isPrefill = false) →
      (∀ e ∈ b, e.isPrefill = true) → (a ++ b).filter ScheduledSequence.isPrefill = b
        ∧ (a ++ b).filter (fun e => !e.isPrefill) = a := by
    intro a b ha hb
    rw [List.filter_append, List.filter_append, List.filter_eq_self.mpr hb,
      List.filter_eq_nil_iff.mpr (fun e he => by simp [ha e he]),
      List.filter_eq_self.mpr (fun e he => by simp [ha e he]),
      List.filter_eq_nil_iff.mpr (fun e he => by simp [hb e he])]
    exact ⟨List.nil_append _, List.append_nil _⟩
  have hpres : prefills' = new.filter ScheduledSequence.isPrefill ++ prefills := by
    have hcount := congrArg (List.filter ScheduledSequence.isPrefill) hsplit
    rw [(hkind hdec' hpre').1, List.filter_append, (hkind hdec hpre).1] at hcount
    exact hcount
  have hdecs : decodes' = new.filter (fun e => !e.isPrefill) ++ decodes := by
    have hcount := congrArg (List.filter (fun e => !e.isPrefill)) hsplit
    rw [(hkind hdec' hpre').2, List.filter_append, (hkind hdec hpre).2] at hcount
    exact hcount
  rcases hkindd : d.isPrefill with - | -
  · -- one more decode entry, and one more token
    have hdn : d ∈ new.filter (fun e => !e.isPrefill) :=
      List.mem_filter.mpr ⟨hmem, by rw [hkindd]; rfl⟩
    have hprompt : r.prompt = q.prompt := by
      have hc : (r.id, r.prompt, r.output) = (q.id, q.prompt, q.output) :=
        Scheduler.contents_eq h.nodup ?_ ?_ (hrid.trans hqid.symm)
      · exact (Prod.mk.inj (Prod.mk.inj hc).2).1
      · have hcontents : s.passes.sched.contents = s.contents :=
          PassMoves.contents s.passes_moves
        rw [← hcontents]
        exact List.mem_map.mpr ⟨r, List.mem_append_left _ hr, rfl⟩
      · exact List.mem_map.mpr ⟨q, List.mem_append_left _ hq, rfl⟩
    refine Or.inr ⟨t, t', ht, ht', ?_⟩
    rw [hnum, hnum', hprompt, hdecs, List.length_append]
    have hpos := List.length_pos_of_mem hdn
    omega
  · -- one more span of the prompt
    have hdn : d ∈ new.filter ScheduledSequence.isPrefill := List.mem_filter.mpr ⟨hmem, hkindd⟩
    refine Or.inl ?_
    rw [← htile.sum, ← htile'.sum, hpres, List.map_append, List.map_append, List.sum_append]
    have hpos : 0 < d.numTokens := by
      rcases h.booked.suits d hd (r.id, r.prompt, r.output)
        (List.mem_map.mpr ⟨r, List.mem_append_left _ hr, rfl⟩) hrid with ⟨-, hpos, -⟩ | ⟨hd', -⟩
      · exact hpos
      · exact absurd (hkindd.symm.trans hd') (by simp)
    have hle : d.numTokens ≤ (((new.filter ScheduledSequence.isPrefill).map
        ScheduledSequence.span).map Prod.snd).sum :=
      List.single_le_sum (fun _ _ => Nat.zero_le _) _
        (List.mem_map.mpr ⟨d.span, List.mem_map_of_mem hdn, rfl⟩)
    omega

end Scheduler.Sound

namespace Engine

variable {M S F : Type*} {config : SchedulerConfig} {n bs firstId : ℕ} {flag : Bool}
  {model : M} {e e' : Engine M S}

/-- **A sequence is as it was**: as much of its prompt counts as computed, it
is in the same state and its block table holds as many tokens. This is what a
step has to restore for the next one to do again what it did not get done. -/
def LeavesAsItWas (e e' : Engine M S) (id : SequenceId) : Prop :=
  ∀ q ∈ e.scheduler.queue, q.id = id → ∀ q' ∈ e'.scheduler.queue, q'.id = id →
    q'.computedPrefixLen = q.computedPrefixLen ∧ q'.state = q.state
    ∧ (e'.scheduler.cache.blockTable id).map BlockTable.numTokens
      = (e.scheduler.cache.blockTable id).map BlockTable.numTokens

/-- A request has been ended, with a terminal event. -/
def Closed (e : Engine M S) (id : SequenceId) : Prop :=
  e.active.lookup id = none
    ∧ ∃ x ∈ e.sent, x.id = id ∧ ∃ reason p c, x.event = .done reason p c

variable [LanguageModel M F] [Sampler S F]

/-- The scheduler after a step that failed before its tokens were sampled. -/
theorem step_of_not_forwards {now : Instant} {d : ScheduledSequence}
    (hd : d ∈ (e.output now).scheduled) (hfail : ¬ e.Forwards now) :
    (∃ err, (e.step now).2 = .error err)
    ∧ (e.step now).1.scheduler = (e.scheduled now).scheduler
    ∧ (e.step now).1.active = (e.scheduled now).active := by
  rcases e.step_cases now with ⟨hempty, -, -⟩ | ⟨err, -, hstep, herr⟩ | ⟨b, hbuild, hfwd⟩
  · have hnil : (e.output now).scheduled = [] := List.isEmpty_iff.mp hempty
    rw [hnil] at hd
    exact absurd hd List.not_mem_nil
  · rw [hstep]
    exact ⟨⟨err, herr⟩, rfl, rfl⟩
  · rcases hfwd with ⟨err, -, hstep, herr⟩ | ⟨hok, -⟩
    · rw [hstep]
      exact ⟨⟨err, herr⟩, rfl, rfl⟩
    · exact absurd ⟨b, hbuild, hok⟩ hfail

/-- **A failed step counts as progress.** In every reachable state, for every
model: a sequence of the batch that goes on, and that the `schedule` call did
not evict first, is as it was or has been ended after a step that fails
before the logits are there – exactly when the step does not fail there. But
in a run in which no part of a prompt is lost, every position that counts as
computed of an unfinished sequence was in a batch whose forward pass
succeeded, since the blocks of the sequence were allocated. -/
theorem failed_step_is_progress (hbs : 1 ≤ bs) (hn : n ≤ 2 ^ 32) :
    (∀ e : Engine M S, e.Reachable config n bs flag model firstId → ∀ now,
      ∀ d ∈ (e.output now).scheduled, d.id ∉ (e.output now).preempted →
      ∀ r ∈ (e.scheduled now).scheduler.running, r.id = d.id → r.state ≠ .finished →
        ((¬ e.Forwards now → e.LeavesAsItWas (e.step now).1 d.id ∨ (e.step now).1.Closed d.id)
          ↔ e.Forwards now))
    ∧ ∀ e : Engine M S, e.ReachableIf LosesNothing config n bs flag model firstId →
      ∀ q ∈ e.scheduler.queue, q.state ≠ .finished → ∀ pos < q.computedPrefixLen,
        ∃ token, q.prompt[pos]? = some token ∧ ∃ f ∈ e.forwards, f.succeeded = true
          ∧ (∃ row ∈ f.batch.rows, row.id = q.id ∧ row.token = token ∧ row.position = pos)
          ∧ ∀ x ∈ eventsAfter f.stamp e.scheduler.cache.trace, ∀ p, x ≠ .opened q.id p := by
  refine ⟨fun e h now d hd hnot r hr hrid hrlive => ⟨fun hundone => ?_, fun hok hfail => ?_⟩,
    fun e h q hq hlive pos hpos => ?_⟩
  · by_contra hfail
    obtain ⟨-, hsched, hactive⟩ := step_of_not_forwards hd hfail
    have hin := h.inService.quiet (e.quiet_expire now)
    have hs := hin.sound hbs hn
    -- who it was before the step
    obtain ⟨q, hq, hqid, hqlive⟩ := PassMoves.unfinished (e.expire now).scheduler.passes_moves r
      (List.mem_append_left _ hr) hrlive
    rcases hundone hfail with hsame | ⟨hnone, -⟩
    · have hold : q ∈ e.scheduler.queue := by
        have hq' : q ∈ (e.scheduler.expireTimeouts now).1.queue := by
          rw [← e.expire_scheduler now]
          exact hq
        exact Scheduler.mem_queue_of_expireTimeouts hq' hqlive
      obtain ⟨hcomp, -, htok⟩ := hsame q hold (hqid.trans hrid) r
        (by rw [hsched]; exact List.mem_append_left _ hr) hrid
      rw [hsched, show e.scheduler.cache = (e.expire now).scheduler.cache by
        rw [e.expire_scheduler now, Scheduler.expireTimeouts_cache]] at htok
      rcases hs.progress hd hnot hq (hqid.trans hrid) hqlive hr hrid hrlive with
        hlt | ⟨t, t', ht, ht', hlt⟩
      · exact absurd hcomp hlt.ne'
      · change ((e.expire now).scheduler.schedule.1.cache.blockTable d.id).map _ = _ at htok
        rw [ht, ht'] at htok
        exact absurd (Option.some.inj htok) hlt.ne'
    · -- its request is still there
      have hreq := (h.tracks.scheduled now).requested r (List.mem_append_left _ hr) hrlive
      rw [hrid, ← hactive, hnone] at hreq
      exact absurd hreq (by simp)
  · exact absurd hok hfail
  · have hin := h.reachable.inService
    have hs := hin.sound hbs hn
    rcases List.mem_append.mp hq with hq | hq
    · obtain ⟨t, ht⟩ := (hs.resident hq hlive).table
      obtain ⟨b, token, -, htoken, f, hf, hok, hsince, row, hrow, hid, htok, hposn, -⟩ :=
        (h.computed hbs hn).running q hq (Option.isSome_iff_exists.mpr ⟨t, ht⟩) pos hpos
      exact ⟨token, htoken, f, hf, hok, ⟨row, hrow, hid, htok, hposn⟩,
        fun x hx => (hsince x hx).2⟩
    · obtain ⟨-, hzero, -⟩ := hs.atStart hq hlive
      rw [hzero] at hpos
      exact absurd hpos (Nat.not_lt_zero pos)

/-- **A prompt counts as computed that no forward pass has seen**: the only
step of the run fails, and afterwards the sequence is decoding. -/
theorem failed_step_kept :
    let e := EngineOp.runAll (MockModel.engine 4 [true]) [MockModel.request [1, 2, 3]]
    let e' := (e.step 0).1
    e'.Reachable {} 4 4 true ⟨[true]⟩ 1
    ∧ (e.step 0).2.toBool = false
    ∧ ¬ (e.LeavesAsItWas e' ⟨1⟩ ∨ e'.Closed ⟨1⟩)
    ∧ e'.scheduler.queue.map (fun q => (q.id, q.state, q.computedPrefixLen))
      = [(⟨1⟩, .decoding, 3)]
    ∧ ∀ f ∈ e'.forwards, f.succeeded = false := by
  intro e e'
  have he : e.Reachable {} 4 4 true ⟨[true]⟩ 1 := Reachable.start.runAll _
  have hbefore : e.scheduler.queue.map (fun q => (q.id, q.computedPrefixLen)) = [(⟨1⟩, 0)] := by
    decide +kernel
  have hafter : e'.scheduler.queue.map (fun q => (q.id, q.state, q.computedPrefixLen))
      = [(⟨1⟩, .decoding, 3)] := by
    decide +kernel
  refine ⟨he.step (.step 0), by decide +kernel, ?_, hafter, by decide +kernel⟩
  rintro (hsame | ⟨hnone, -⟩)
  · obtain ⟨q, hq⟩ := List.exists_mem_of_length_pos (l := e.scheduler.queue) (by decide +kernel)
    obtain ⟨q', hq'⟩ := List.exists_mem_of_length_pos (l := e'.scheduler.queue)
        (by decide +kernel)
    have hmem := List.mem_map_of_mem (f := fun q : Sequence => (q.id, q.computedPrefixLen)) hq
    have hmem' := List.mem_map_of_mem
      (f := fun q : Sequence => (q.id, q.state, q.computedPrefixLen)) hq'
    rw [hbefore] at hmem
    rw [hafter] at hmem'
    obtain ⟨hid, hzero⟩ := Prod.mk.inj (List.mem_singleton.mp hmem)
    obtain ⟨hid', hrest⟩ := Prod.mk.inj (List.mem_singleton.mp hmem')
    have hcomp := (hsame q hq hid q' hq' hid').1
    rw [hzero, (Prod.mk.inj hrest).2] at hcomp
    exact absurd hcomp (by decide)
  · have hsome : (e'.active.lookup ⟨1⟩).isSome = true := by decide +kernel
    rw [hnone] at hsome
    exact absurd hsome (by decide)

/-- The same run: its step does not go through. -/
theorem failed_step_is_progress_failed :
    let e := EngineOp.runAll (MockModel.engine 4 [true]) [MockModel.request [1, 2, 3]]
    ¬ (¬ e.Forwards 0 → e.LeavesAsItWas (e.step 0).1 ⟨1⟩ ∨ (e.step 0).1.Closed ⟨1⟩) := by
  intro e
  have he : e.Reachable {} 4 4 true ⟨[true]⟩ 1 := Reachable.start.runAll _
  have hout : (e.output 0).scheduled = [⟨⟨1⟩, 3, 0, true⟩] := by decide +kernel
  have hpre : (e.output 0).preempted = [] := by decide +kernel
  have hrun : (e.scheduled 0).scheduler.running.map (fun r => (r.id, r.state))
      = [(⟨1⟩, .decoding)] := by
    decide +kernel
  obtain ⟨r, hr⟩ := List.exists_mem_of_length_pos (l := (e.scheduled 0).scheduler.running)
    (by decide +kernel)
  have hmem := List.mem_map_of_mem (f := fun r : Sequence => (r.id, r.state)) hr
  rw [hrun] at hmem
  obtain ⟨hid, hstate⟩ := Prod.mk.inj (List.mem_singleton.mp hmem)
  have hiff := (failed_step_is_progress (by decide) (by decide)).1 e he 0 ⟨⟨1⟩, 3, 0, true⟩
    (by rw [hout]; exact List.mem_cons_self) (by rw [hpre]; exact List.not_mem_nil) r hr hid
    (by rw [hstate]; simp)
  intro hundone
  -- the model fails on whatever it is given
  obtain ⟨b, -, out, hok⟩ := hiff.mp hundone
  have hmodel : (e.scheduled 0).model.failures = [true] := by decide +kernel
  have herr : ((e.scheduled 0).runForward b).2 = .error (.internal ["scripted failure"]) :=
    (e.scheduled 0).model.forward_of_failure (by rw [hmodel]; rfl) b
  exact absurd (herr.symm.trans hok) (by simp)

end Engine
