import OrionServe.SchedulerEntries

/-!
# Which queue a sequence is in

The state of a sequence should say where it is: a waiting one is at the
start and holds nothing, a running one holds a block table. What breaks the
agreement is an eviction of a running sequence that is finished and not yet
reaped. `preempt` leaves it finished, so it goes to the waiting queue with
its progress, and the next admission brings it back without an allocation.

Nothing else breaks it: in a run whose `schedule` calls evict no finished
sequence the agreement holds in every state.
-/

/-- **The states of the runs whose calls all meet a condition**, each in the state
that it finds. A call that does not meet it is not part of such a run; so what
holds in these states holds as long as nobody makes one. -/
inductive Service.ReachableIf {C : Type*} [KvCacheManagerLike C]
    (P : Service C → SchedulerOp → Prop) (config : SchedulerConfig) (cache : C)
    (firstId : ℕ) : Service C → Prop
  | start : Service.ReachableIf P config cache firstId (.start config cache firstId)
  | step {v : Service C} (op : SchedulerOp)
      (h : Service.ReachableIf P config cache firstId v) (hop : P v op) :
      Service.ReachableIf P config cache firstId (op.run v)

theorem Service.ReachableIf.reachable {C : Type*} [KvCacheManagerLike C]
    {P : Service C → SchedulerOp → Prop} {config : SchedulerConfig} {cache : C}
    {firstId : ℕ} {v : Service C} (h : v.ReachableIf P config cache firstId) :
    v.Reachable config cache firstId := by
  induction h with
  | start => exact .start
  | step op _ _ ih => exact ih.step op

/-- A condition that another one implies in every state of a run. -/
theorem Service.ReachableIf.weaken {C : Type*} [KvCacheManagerLike C]
    {P Q : Service C → SchedulerOp → Prop} {config : SchedulerConfig} {cache : C}
    {firstId : ℕ} {v : Service C} (h : v.ReachableIf P config cache firstId)
    (hPQ : ∀ (v : Service C) op, v.Reachable config cache firstId → P v op → Q v op) :
    v.ReachableIf Q config cache firstId := by
  induction h with
  | start => exact .start
  | step op hv hop ih => exact ih.step op (hPQ _ op hv.reachable hop)

/-- A list of calls each of which meets the condition when its turn comes. -/
def SchedulerOp.Meets {C : Type*} [KvCacheManagerLike C]
    (P : Service C → SchedulerOp → Prop) (v : Service C) : List SchedulerOp → Prop
  | [] => True
  | op :: ops => P v op ∧ SchedulerOp.Meets P (op.run v) ops

instance SchedulerOp.decidableMeets {C : Type*} [KvCacheManagerLike C]
    (P : Service C → SchedulerOp → Prop) [∀ v op, Decidable (P v op)] :
    ∀ (ops : List SchedulerOp) (v : Service C), Decidable (SchedulerOp.Meets P v ops)
  | [], _ => inferInstanceAs (Decidable True)
  | op :: ops, v =>
    have := SchedulerOp.decidableMeets P ops (op.run v)
    inferInstanceAs (Decidable (P v op ∧ SchedulerOp.Meets P (op.run v) ops))

theorem Service.ReachableIf.runAll {C : Type*} [KvCacheManagerLike C]
    {P : Service C → SchedulerOp → Prop} {config : SchedulerConfig} {cache : C}
    {firstId : ℕ} (ops : List SchedulerOp) :
    ∀ {v : Service C}, v.ReachableIf P config cache firstId → SchedulerOp.Meets P v ops →
      Service.ReachableIf P config cache firstId (SchedulerOp.runAll v ops) := by
  induction ops with
  | nil => exact fun h _ => h
  | cons op ops ih => exact fun h hall => ih (h.step op hall.1) hall.2

namespace Scheduler

variable {s : Scheduler KvCacheManager}

/-- **The queues agree with the states.** Who waits can be admitted as if it had
never run: it is at the start of its prompt and holds no blocks. Who runs has the
table that its entries are built from. -/
structure Agrees (s : Scheduler KvCacheManager) : Prop where
  waiting : ∀ w ∈ s.waiting, w.state = .waiting ∧ w.computedPrefixLen = 0
    ∧ s.cache.blockTable w.id = none
  running : ∀ r ∈ s.running, ∃ t, s.cache.blockTable r.id = some t

/-- **A `schedule` call that evicts no finished sequence.** -/
def SparesFinished (s : Scheduler KvCacheManager) : Prop :=
  ∀ r ∈ s.running, r.state = .finished → r.id ∉ s.schedule.2.preempted

instance : Decidable s.SparesFinished :=
  inferInstanceAs (Decidable (∀ r ∈ s.running, r.state = .finished →
    r.id ∉ s.schedule.2.preempted))

/-- The finished sequences in the running queue are among the ids given. -/
def FinishedIn (s : Scheduler KvCacheManager) (ids : List SequenceId) : Prop :=
  ∀ r ∈ s.running, r.state = .finished → r.id ∈ ids

/-- What has to be kept: nothing that waits is finished, and what runs holds
a table. -/
structure Tidy (s : Scheduler KvCacheManager) : Prop where
  waiting : ∀ w ∈ s.waiting, w.state ≠ .finished
  running : ∀ r ∈ s.running, ∃ t, s.cache.tables.lookup r.id = some t

theorem Tidy.agrees (h : s.Tidy) (hs : s.Sound) : s.Agrees where
  waiting w hw := by
    obtain ⟨hstate, hzero, -⟩ := hs.atStart hw (h.waiting w hw)
    exact ⟨hstate, hzero, hs.absent hw⟩
  running := h.running

/-- Taking from the queues, with the tables of those that stay. -/
theorem Tidy.shrink {s' : Scheduler KvCacheManager} (h : s.Tidy)
    (hwait : ∀ w ∈ s'.waiting, w ∈ s.waiting)
    (hrun : ∀ r ∈ s'.running, ∃ q ∈ s.running, q.id = r.id
      ∧ s'.cache.tables.lookup r.id = s.cache.tables.lookup r.id) : s'.Tidy where
  waiting w hw := h.waiting w (hwait w hw)
  running r hr := by
    obtain ⟨q, hq, hid, hlookup⟩ := hrun r hr
    rw [hlookup, ← hid]
    exact h.running q hq

end Scheduler

/-! ## A `schedule` call -/

namespace PassMove

variable {p p' : Pass KvCacheManager}

/-- **Step lemma.** -/
theorem tidy (hm : PassMove p p') (hs : p.sched.Sound) (h : p.sched.Tidy)
    {ids : List SequenceId} (hfin : p.sched.FinishedIn ids)
    (hspares : ∀ id ∈ ids, id ∉ p'.out.preempted) : p'.sched.Tidy := by
  cases hm with
  | refused answer result =>
    obtain rfl := KvCacheManager.like_appendToken_error hs.settled answer
    rw [result]
    exact h
  | @decoded id totalLen c room answer cand result =>
    obtain ⟨-, t, t', happ⟩ := KvCacheManager.like_appendToken_ok hs.settled answer
    rw [result]
    refine ⟨h.waiting, fun r hr => ?_⟩
    show ∃ t, c.tables.lookup r.id = some t
    rw [happ.tables]
    by_cases hid : r.id = id
    · exact ⟨t', by rw [hid, AList.lookup_insert]⟩
    · rw [AList.lookup_insert_ne hid]
      exact h.running r hr
  | evicted result =>
    obtain ⟨older, victim, hrun, rfl⟩ := Pass.preemptOne_eq_some result
    have hmem : victim ∈ p.sched.running := by
      rw [hrun]
      exact List.mem_append_right _ (List.mem_singleton_self _)
    have hnot : victim.state ≠ .finished := fun hf =>
      hspares _ (hfin victim hmem hf) (List.mem_append_right _ (List.mem_singleton_self _))
    refine ⟨fun w hw => ?_, fun r hr => ?_⟩
    · rcases List.mem_cons.mp hw with rfl | hw
      · rcases victim.preempt_cases with ⟨hback, -⟩ | ⟨hstay, -⟩
        · rw [hback]
          simp
        · rw [hstay]
          exact hnot
      · exact h.waiting w hw
    · have hr' : r ∈ p.sched.running := by
        rw [hrun]
        exact List.mem_append_left _ hr
      have hne : r.id ≠ victim.id :=
        List.key_ne_of_append (hrun ▸ hs.nodup_running) hr (List.mem_singleton_self _)
      show ∃ t, (p.sched.cache.free victim.id).tables.lookup r.id = some t
      rw [KvCacheManager.free_tables, AList.lookup_erase_ne hne]
      exact h.running r hr'
  | @resumed seq chunk already found cand pos room result =>
    rw [result]
    refine ⟨h.waiting, fun r hr => ?_⟩
    rcases List.mem_updateKey hs.nodup_running hr with ⟨hr, -⟩ | ⟨a, ha, -, rfl⟩
    · exact h.running r hr
    · rw [Pass.resumed_id]
      exact h.running a ha
  | @admitted seq rest chunk c head first slot pos left room answer result =>
    obtain ⟨-, t, hadm⟩ := KvCacheManager.like_allocate_ok hs.settled answer
    rw [result]
    refine ⟨fun w hw => h.waiting w (head ▸ List.mem_cons_of_mem _ hw), fun r hr => ?_⟩
    show ∃ t, c.tables.lookup r.id = some t
    rw [hadm.tables]
    by_cases hid : r.id = seq.id
    · exact ⟨t, by rw [hid, AList.lookup_insert]⟩
    · rw [AList.lookup_insert_ne hid]
      rcases List.mem_append.mp hr with hr | hr
      · exact h.running r hr
      · rw [List.mem_singleton.mp hr, Pass.prefilled_id] at hid
        exact absurd rfl hid
  | readmitted head started slot pos left room result =>
    -- only a finished sequence waits with progress
    have hmem := head ▸ List.mem_cons_self
    have hqueued := hs.atStart hmem (h.waiting _ hmem)
    exact absurd hqueued.2.1 started
  | putBack head available answer result =>
    exact absurd answer (hs.allocate_ne_error (head ▸ List.mem_cons_self) available)

/-- A move finishes nothing. -/
theorem finishedIn (hm : PassMove p p') (hs : p.sched.Sound) (h : p.sched.Tidy)
    {ids : List SequenceId} (hfin : p.sched.FinishedIn ids) : p'.sched.FinishedIn ids := by
  cases hm with
  | refused answer result => rw [result]; exact hfin
  | decoded room answer cand result => rw [result]; exact hfin
  | evicted result =>
    obtain ⟨older, victim, hrun, rfl⟩ := Pass.preemptOne_eq_some result
    intro r hr
    refine hfin r ?_
    rw [hrun]
    exact List.mem_append_left _ hr
  | @resumed seq chunk already found cand pos room result =>
    obtain ⟨hstate, rfl, hle⟩ := cand hs.nodup
    have hmem := List.mem_of_findKey found
    have hsum : seq.computedPrefixLen + chunk ≤ seq.prompt.length := by
      have hrem : seq.remainingPrefill = seq.prompt.length - seq.computedPrefixLen := rfl
      omega
    rw [result]
    intro r hr hf
    rcases List.mem_updateKey hs.nodup_running hr with ⟨hr, -⟩ | ⟨a, ha, hid, rfl⟩
    · exact hfin r hr hf
    · obtain rfl : a = seq := List.eq_of_key_eq hs.nodup_running ha hmem hid
      exact absurd hf (Pass.resumed_inStage hstate hsum).2.not_finished
  | @admitted seq rest chunk c head first slot pos left room answer result =>
    have hmem : seq ∈ p.sched.waiting := head ▸ List.mem_cons_self
    obtain ⟨hstate, -, -⟩ := hs.atStart hmem (h.waiting seq hmem)
    rw [result]
    intro r hr hf
    rcases List.mem_append.mp hr with hr | hr
    · exact hfin r hr hf
    · rw [List.mem_singleton.mp hr] at hf
      exact absurd hf (Pass.prefilled_inStage hstate first left).2.not_finished
  | readmitted head started slot pos left room result =>
    have hmem := head ▸ List.mem_cons_self
    have hqueued := hs.atStart hmem (h.waiting _ hmem)
    exact absurd hqueued.2.1 started
  | putBack head available answer result => rw [result]; exact hfin

end PassMove

/-- **Run lemma**: as long as no finished sequence is evicted. -/
theorem PassMoves.tidy {p p' : Pass KvCacheManager} (hm : PassMoves p p')
    (hs : p.sched.Sound) (h : p.sched.Tidy) {ids : List SequenceId}
    (hfin : p.sched.FinishedIn ids) :
    (∀ id ∈ ids, id ∉ p'.out.preempted) → p'.sched.Tidy ∧ p'.sched.FinishedIn ids := by
  induction hm with
  | refl => exact fun _ => ⟨h, hfin⟩
  | tail hmoves hmove ih =>
    intro hspares
    have hs' := PassMoves.sound hmoves hs
    -- who has been evicted stays on the list
    obtain ⟨new, -, -, -, hpre⟩ := hmove.recorded
    obtain ⟨ht, hf⟩ := ih (fun id hid hmem =>
      hspares id hid (by rw [hpre]; exact List.mem_append_left _ hmem))
    exact ⟨hmove.tidy hs' ht hf hspares, hmove.finishedIn hs' ht hf⟩

namespace Scheduler.Tidy

variable {s : Scheduler KvCacheManager}

theorem schedule (h : s.Tidy) (hs : s.Sound) (hspares : s.SparesFinished) :
    s.schedule.1.Tidy := by
  have hfin : s.pass.sched.FinishedIn
      ((s.running.filter Sequence.isFinished).map Sequence.id) := fun r hr hf =>
    List.mem_map_of_mem (List.mem_filter.mpr ⟨hr, decide_eq_true hf⟩)
  refine (PassMoves.tidy s.passes_moves hs h hfin (fun id hid => ?_)).1
  obtain ⟨r, hr, rfl⟩ := List.mem_map.mp hid
  obtain ⟨hr, hf⟩ := List.mem_filter.mp hr
  exact hspares r hr (of_decide_eq_true hf)

/-! ## The other operations -/

theorem onToken (h : s.Tidy) (hs : s.Sound) (id : SequenceId) (token : TokenId)
    (eosIds : List TokenId) : (s.onToken id token eosIds).1.Tidy := by
  unfold Scheduler.onToken
  split
  · exact h
  · refine h.shrink (fun w hw => hw) (fun r hr => ?_)
    rcases List.mem_updateKey hs.nodup_running hr with ⟨hr, -⟩ | ⟨a, ha, -, rfl⟩
    · exact ⟨r, hr, rfl, rfl⟩
    · exact ⟨a, ha, (a.ends_tokenReceived token eosIds).id.symm, rfl⟩

/-- What `expire_timeouts` does under a limit. -/
theorem expired (h : s.Tidy) (now limit : Instant) :
    Scheduler.Tidy { s with
      running := s.running.map
        (fun q => if isExpired now limit q then q.finish .timeout else q)
      waiting := s.waiting.filter (fun w => !isExpired now limit w) } := by
  refine h.shrink (fun w hw => (List.mem_filter.mp hw).1) (fun r hr => ?_)
  obtain ⟨q, hq, rfl⟩ := List.mem_map.mp hr
  refine ⟨q, hq, ?_, rfl⟩
  show q.id = (if isExpired now limit q then q.finish .timeout else q).id
  split
  · exact (q.finish_id _).symm
  · rfl

theorem expireTimeouts (h : s.Tidy) (now : Instant) : (s.expireTimeouts now).1.Tidy := by
  unfold Scheduler.expireTimeouts
  split
  · exact h
  · next secs _ => exact h.expired now (durationFromSecs secs)

theorem reapFinished (h : s.Tidy) (hs : s.Sound) : s.reapFinished.1.Tidy := by
  refine h.shrink (fun w hw => hw) (fun r hr => ?_)
  obtain ⟨hr, hkeep⟩ := List.mem_filter.mp hr
  refine ⟨r, hr, rfl, ?_⟩
  have hcache : s.reapFinished.1.cache
      = s.cache.freeAll ((s.running.filter Sequence.isFinished).map Sequence.id) := by
    unfold KvCacheManager.freeAll
    rw [List.foldl_map]
    rfl
  rw [hcache, KvCacheManager.freeAll_lookup, if_neg]
  intro hmem
  obtain ⟨q, hq, hid⟩ := List.mem_map.mp hmem
  obtain ⟨hq, hfin⟩ := List.mem_filter.mp hq
  obtain rfl : q = r := List.eq_of_key_eq hs.nodup_running hq hr hid
  rw [hfin] at hkeep
  exact absurd hkeep (by simp)

theorem cancel (h : s.Tidy) (hs : s.Sound) (id : SequenceId) : (s.cancel id).1.Tidy := by
  unfold Scheduler.cancel
  split
  · refine h.shrink (fun w hw => ?_) (fun r hr => ⟨r, hr, rfl, rfl⟩)
    exact List.eraseP_sublist.subset hw
  split
  · refine h.shrink (fun w hw => hw) (fun r hr => ?_)
    obtain ⟨hr, hne⟩ := (List.mem_eraseKey hs.nodup_running).mp hr
    refine ⟨r, hr, rfl, ?_⟩
    show (s.cache.free id).tables.lookup r.id = _
    rw [KvCacheManager.free_tables, AList.lookup_erase_ne hne]
  · exact h

theorem commitPrefill (h : s.Tidy) (hs : s.Sound) (id : SequenceId) :
    (s.commitPrefill id).Tidy := by
  unfold Scheduler.commitPrefill
  split
  · exact h
  next r _ =>
  split
  · have htables := (s.cache.commitPrefill_moves False hs.settled.tallied id r.prompt
      False.elim).2.tables
    refine h.shrink (fun w hw => hw) (fun q hq => ⟨q, hq, rfl, ?_⟩)
    show (s.cache.commitPrefill id r.prompt).tables.lookup q.id = _
    rw [htables]
  · exact h

theorem addRequest (h : s.Tidy) {seq : Sequence} (hstate : seq.state = .waiting) :
    (s.addRequest seq).1.Tidy := by
  rcases s.addRequest_cases seq with ⟨e, he⟩ | ⟨hok, -⟩
  · rw [he]
    exact h
  · rw [hok]
    refine ⟨fun w hw => ?_, h.running⟩
    rcases List.mem_append.mp hw with hw | hw
    · exact h.waiting w hw
    · rw [List.mem_singleton.mp hw, hstate]
      simp

end Scheduler.Tidy

namespace Service

variable {config : SchedulerConfig} {n bs firstId : ℕ} {flag : Bool}
  {v : Service KvCacheManager}

/-- The condition on a call: a `schedule` call evicts no finished sequence. -/
def SparesFinished (v : Service KvCacheManager) (op : SchedulerOp) : Prop :=
  op = .schedule → v.sched.SparesFinished

instance (op : SchedulerOp) : Decidable (v.SparesFinished op) :=
  inferInstanceAs (Decidable (op = .schedule → v.sched.SparesFinished))

/-- **Run lemma.** -/
theorem ReachableIf.tidy (hbs : 1 ≤ bs) (hn : n ≤ 2 ^ 32)
    (h : v.ReachableIf SparesFinished config (KvCacheManager.new n bs flag) firstId) :
    v.sched.Tidy := by
  induction h with
  | start =>
    exact ⟨fun w hw => absurd hw List.not_mem_nil, fun r hr => absurd hr List.not_mem_nil⟩
  | @step v op hv hop ih =>
    have hs := (hv.reachable.sound hbs hn).sched
    cases op with
    | addRequest prompt params now => exact ih.addRequest rfl
    | schedule => exact ih.schedule hs (hop rfl)
    | onToken id token eosIds => exact ih.onToken hs id token eosIds
    | reapFinished => exact ih.reapFinished hs
    | cancel id => exact ih.cancel hs id
    | expireTimeouts now => exact ih.expireTimeouts now
    | commitPrefill id => exact ih.commitPrefill hs id

/-- **The queues agree with the states** in every state of every run whose
`schedule` calls evict no finished sequence: what waits is at the start of its
prompt and holds no table, and what runs holds one. An evicted sequence goes back
to the waiting queue whatever its state is, and a finished one keeps the state
that it had. -/
theorem queues_agree (hbs : 1 ≤ bs) (hn : n ≤ 2 ^ 32)
    (h : v.ReachableIf SparesFinished config (KvCacheManager.new n bs flag) firstId) :
    v.sched.Agrees :=
  (h.tidy hbs hn).agrees (h.reachable.sound hbs hn).sched

/-- A request that has stopped is evicted before it is reaped: a single block
holds one prompt, and a second one asks for it. -/
def evictedFinished : Service KvCacheManager :=
  SchedulerOp.runAll (.start {} (KvCacheManager.new 1 4 true) 1)
    [.addRequest [1, 2, 3] {} 0, .schedule, .onToken ⟨1⟩ 50 [50], .addRequest [4] {} 0,
      .schedule]

/-- **A finished sequence can wait**, where it is not reaped, at the head of
the queue. -/
theorem finished_waits :
    evictedFinished.Reachable {} (KvCacheManager.new 1 4 true) 1
    ∧ evictedFinished.sched.waiting.map (fun w => (w.id, w.state, w.computedPrefixLen))
      = [(⟨1⟩, .finished, 3), (⟨2⟩, .waiting, 0)]
    ∧ ¬ evictedFinished.sched.Agrees := by
  have hwait : evictedFinished.sched.waiting.map (fun w => (w.id, w.state, w.computedPrefixLen))
      = [(⟨1⟩, .finished, 3), (⟨2⟩, .waiting, 0)] := by decide +kernel
  refine ⟨Reachable.start.runAll _, hwait, fun hagree => ?_⟩
  have hmem : (⟨1⟩, SequenceState.finished, 3)
      ∈ evictedFinished.sched.waiting.map (fun w => (w.id, w.state, w.computedPrefixLen)) := by
    rw [hwait]
    exact List.mem_cons_self
  obtain ⟨w, hw, heq⟩ := List.mem_map.mp hmem
  have hstate := (hagree.waiting w hw).1
  rw [(Prod.mk.inj (Prod.mk.inj heq).2).1] at hstate
  exact absurd hstate (by simp)

/-- The same requests, reaped in time. -/
theorem queues_agree_reaped :
    Scheduler.Agrees (SchedulerOp.runAll (.start {} (KvCacheManager.new 1 4 true) 1)
      [.addRequest [1, 2, 3] {} 0, .schedule, .onToken ⟨1⟩ 50 [50], .addRequest [4] {} 0,
        .reapFinished, .schedule]).sched := by
  have hrun : Service.ReachableIf SparesFinished {} (KvCacheManager.new 1 4 true) 1
      (SchedulerOp.runAll (.start {} (KvCacheManager.new 1 4 true) 1)
        [.addRequest [1, 2, 3] {} 0, .schedule, .onToken ⟨1⟩ 50 [50], .addRequest [4] {} 0,
          .reapFinished, .schedule]) :=
    ReachableIf.start.runAll _ (by decide +kernel)
  exact queues_agree (by decide) (by decide) hrun

end Service
