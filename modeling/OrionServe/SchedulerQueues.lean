import OrionServe.SchedulerEntries

/-!
# What each call does to the queues

For whoever keeps books about requests beside the scheduler, a call matters
by what it does to the two queues together: whom it takes out, and that it
leaves everybody else's prompt and output alone and unfinishes nobody.
`Thins` says so once for every call that adds no sequence and records no
token, over any cache.
-/

namespace Scheduler

variable {C : Type*} [KvCacheManagerLike C] {s s' : Scheduler C}

/-- Everybody in service. -/
def queue (s : Scheduler C) : List Sequence := s.running ++ s.waiting

/-- **What a call that adds nobody does to the queues**: it takes out only
those it says, touches no prompt and no output, and ends nothing's being
finished. -/
structure Thins (s s' : Scheduler C) (gone : List SequenceId) : Prop where
  nodup : s'.ids.Nodup
  sub : ∀ id ∈ s'.ids, id ∈ s.ids
  kept : ∀ q ∈ s.queue, q.id ∈ gone
    ∨ ∃ q' ∈ s'.queue, q'.id = q.id ∧ q'.prompt = q.prompt ∧ q'.output = q.output
  unfinished : ∀ q' ∈ s'.queue, q'.state ≠ .finished →
    ∃ q ∈ s.queue, q.id = q'.id ∧ q.state ≠ .finished
  absent : ∀ q' ∈ s'.queue, q'.id ∈ gone → q'.state = .finished

end Scheduler

section Finished

/-- Nothing a scheduling call does to a sequence ends its being finished. -/
theorem Sequence.transitionTo_finished {s : Sequence} {st : SequenceState}
    (h : s.state = .finished) : (s.transitionTo st).1.state = .finished := by
  unfold transitionTo
  rw [h]
  cases st <;> simp [SequenceState.canTransitionTo, h]

theorem Sequence.preempt_finished {s : Sequence} (h : s.state = .finished) :
    s.preempt.1.state = .finished := by
  rcases s.preempt_cases with ⟨-, hs⟩ | ⟨hs, -⟩
  · rcases hs with hs | hs <;> exact absurd (h.symm.trans hs) (by simp)
  · rw [hs]
    exact h

theorem Pass.resumed_of_finished {s : Sequence} {chunk : ℕ} (h : s.state = .finished) :
    (resumed s chunk).state = .finished := by
  simp only [resumed]
  split
  · exact Sequence.transitionTo_finished h
  · exact h

theorem Pass.prefilled_of_finished {s : Sequence} {chunk : ℕ} (h : s.state = .finished) :
    (prefilled s chunk).state = .finished := by
  have hnot : ¬ (s.advancePrefill chunk).state = .waiting := by
    show ¬ s.state = .waiting
    rw [h]
    simp
  simp only [prefilled, if_neg hnot]
  split
  · exact Sequence.transitionTo_finished h
  · exact h

end Finished

namespace PassMove

variable {C : Type*} [KvCacheManagerLike C] {p p' : Pass C}

omit [KvCacheManagerLike C] in
/-- An admission ends nothing's being finished. -/
theorem bringIn_unfinished {seq : Sequence} {rest : List Sequence} {chunk : ℕ}
    (head : p.sched.waiting = seq :: rest) :
    ∀ q' ∈ (p.bringIn seq rest chunk).sched.queue, q'.state ≠ .finished →
      ∃ q ∈ p.sched.queue, q.id = q'.id ∧ q.state ≠ .finished := by
  have hqueue : p.sched.queue = p.sched.running ++ seq :: rest := by
    show _ ++ p.sched.waiting = _
    rw [head]
  rw [hqueue]
  intro q' hq' hne
  rcases List.mem_append.mp hq' with hq' | hq'
  · rcases List.mem_append.mp hq' with hq' | hq'
    · exact ⟨q', List.mem_append_left _ hq', rfl, hne⟩
    · rw [List.mem_singleton.mp hq'] at hne ⊢
      exact ⟨seq, List.mem_append_right _ List.mem_cons_self,
        (Pass.prefilled_id seq chunk).symm, fun hf => hne (Pass.prefilled_of_finished hf)⟩
  · exact ⟨q', List.mem_append_right _ (List.mem_cons_of_mem _ hq'), rfl, hne⟩

/-- **A finished sequence stays finished**, wherever a move takes it. -/
theorem unfinished (hm : PassMove p p') :
    ∀ q' ∈ p'.sched.queue, q'.state ≠ .finished →
      ∃ q ∈ p.sched.queue, q.id = q'.id ∧ q.state ≠ .finished := by
  have hkeep : ∀ q ∈ p.sched.queue, q.state ≠ .finished →
      ∃ x ∈ p.sched.queue, x.id = q.id ∧ x.state ≠ .finished :=
    fun q hq hne => ⟨q, hq, rfl, hne⟩
  cases hm with
  | refused answer result => rw [result]; exact hkeep
  | decoded room answer cand result => rw [result]; exact hkeep
  | evicted result =>
    obtain ⟨older, victim, hrun, rfl⟩ := Pass.preemptOne_eq_some result
    have hqueue : p.sched.queue = older ++ victim :: p.sched.waiting := by
      show p.sched.running ++ _ = _
      rw [hrun, List.append_assoc]
      rfl
    rw [hqueue]
    intro q' hq' hne
    rcases List.mem_append.mp hq' with hq' | hq'
    · exact ⟨q', List.mem_append_left _ hq', rfl, hne⟩
    rcases List.mem_cons.mp hq' with rfl | hq'
    · exact ⟨victim, List.mem_append_right _ List.mem_cons_self, victim.preempt_id.symm,
        fun hf => hne (Sequence.preempt_finished hf)⟩
    · exact ⟨q', List.mem_append_right _ (List.mem_cons_of_mem _ hq'), rfl, hne⟩
  | @resumed seq chunk already found cand pos room result =>
    rw [result]
    intro q' hq' hne
    rcases List.mem_append.mp hq' with hq' | hq'
    · rcases List.of_mem_updateKey hq' with hq' | ⟨a, ha, rfl⟩
      · exact ⟨q', List.mem_append_left _ hq', rfl, hne⟩
      · exact ⟨a, List.mem_append_left _ ha, (Pass.resumed_id a chunk).symm,
          fun hf => hne (Pass.resumed_of_finished hf)⟩
    · exact ⟨q', List.mem_append_right _ hq', rfl, hne⟩
  | @admitted seq rest chunk c head first slot pos left room answer result =>
    rw [result]
    exact bringIn_unfinished (p := p.withCache c) head
  | readmitted head started slot pos left room result =>
    rw [result]
    exact bringIn_unfinished head
  | @putBack seq rest c e head available answer result =>
    rw [result]
    intro q' hq' hne
    rcases List.mem_append.mp hq' with hq' | hq'
    · exact ⟨q', List.mem_append_left _ hq', rfl, hne⟩
    rcases List.mem_cons.mp hq' with rfl | hq'
    · refine ⟨seq, List.mem_append_right _ ?_, seq.preempt_id.symm,
        fun hf => hne (Sequence.preempt_finished hf)⟩
      rw [head]
      exact List.mem_cons_self
    · refine ⟨q', List.mem_append_right _ ?_, rfl, hne⟩
      rw [head]
      exact List.mem_cons_of_mem _ hq'

end PassMove

namespace PassMoves

variable {C : Type*} [KvCacheManagerLike C] {p p' : Pass C}

/-- **Run lemma.** -/
theorem unfinished (hm : PassMoves p p') :
    ∀ q' ∈ p'.sched.queue, q'.state ≠ .finished →
      ∃ q ∈ p.sched.queue, q.id = q'.id ∧ q.state ≠ .finished := by
  induction hm with
  | refl => exact fun q hq hne => ⟨q, hq, rfl, hne⟩
  | tail _ hmove ih =>
    intro q' hq' hne
    obtain ⟨x, hx, hid, hxne⟩ := hmove.unfinished q' hq' hne
    obtain ⟨q, hq, hqid, hqne⟩ := ih x hx hxne
    exact ⟨q, hq, hqid.trans hid, hqne⟩

end PassMoves

namespace Scheduler

variable {C : Type*} [KvCacheManagerLike C] {s s' : Scheduler C}

omit [KvCacheManagerLike C] in
theorem mem_ids_of_mem_queue {q : Sequence} (hq : q ∈ s.queue) : q.id ∈ s.ids :=
  List.mem_map_of_mem hq

omit [KvCacheManagerLike C] in
theorem eq_of_id_eq (h : s.ids.Nodup) {q q' : Sequence} (hq : q ∈ s.queue) (hq' : q' ∈ s.queue)
    (hid : q.id = q'.id) : q = q' := List.eq_of_key_eq h hq hq' hid

/-- Nobody leaves in a `schedule` call. -/
theorem thins_schedule (h : s.ids.Nodup) : s.Thins s.schedule.1 [] where
  nodup := by
    rw [s.schedule_ids]
    exact h
  sub id hid := by
    rw [← s.schedule_ids]
    exact hid
  kept q hq := by
    have hmoves := s.passes_moves
    have hmem : (q.id, q.prompt, q.output) ∈ s.schedule.1.contents := by
      have hc : s.schedule.1.contents = s.contents := PassMoves.contents hmoves
      rw [hc]
      exact List.mem_map.mpr ⟨q, hq, rfl⟩
    obtain ⟨q', hq', heq⟩ := List.mem_map.mp hmem
    obtain ⟨hid, hrest⟩ := Prod.mk.inj heq
    obtain ⟨hprompt, houtput⟩ := Prod.mk.inj hrest
    exact Or.inr ⟨q', hq', hid, hprompt, houtput⟩
  unfinished := PassMoves.unfinished s.passes_moves
  absent _ _ hgone := absurd hgone List.not_mem_nil

omit [KvCacheManagerLike C] in
/-- Taking sequences out and leaving the others as they are. -/
theorem thins_of_sub (h : s.ids.Nodup) {gone : List SequenceId}
    (hrun : s'.running.Sublist s.running) (hwait : s'.waiting.Sublist s.waiting)
    (hkept : ∀ q ∈ s.queue, q.id ∈ gone ∨ q ∈ s'.queue)
    (habsent : ∀ q ∈ s'.queue, q.id ∉ gone) : s.Thins s' gone := by
  have hsub : s'.queue.Sublist s.queue := hrun.append hwait
  refine ⟨h.sublist (hsub.map _), fun id hid => ?_, fun q hq => ?_,
    fun q hq hne => ⟨q, hsub.subset hq, rfl, hne⟩,
    fun q hq hgone => absurd hgone (habsent q hq)⟩
  · exact (hsub.map Sequence.id).subset hid
  · exact (hkept q hq).imp_right (fun hq' => ⟨q, hq', rfl, rfl, rfl⟩)

theorem thins_reapFinished (h : s.ids.Nodup) :
    s.Thins s.reapFinished.1 (s.reapFinished.2.map Sequence.id) := by
  refine thins_of_sub h List.filter_sublist (.refl _) (fun q hq => ?_) (fun q hq hgone => ?_)
  · rcases List.mem_append.mp hq with hq | hq
    · rcases hfin : q.isFinished with - | -
      · exact Or.inr (List.mem_append_left _ (List.mem_filter.mpr ⟨hq, by simp [hfin]⟩))
      · exact Or.inl (List.mem_map_of_mem (List.mem_filter.mpr ⟨hq, hfin⟩))
    · exact Or.inr (List.mem_append_right _ hq)
  · obtain ⟨r, hr, hid⟩ := List.mem_map.mp hgone
    obtain ⟨hr, hfin⟩ := List.mem_filter.mp hr
    have hq' : q ∈ s.queue := by
      rcases List.mem_append.mp hq with hq | hq
      · exact List.mem_append_left _ (List.mem_filter.mp hq).1
      · exact List.mem_append_right _ hq
    obtain rfl := eq_of_id_eq h (List.mem_append_left _ hr) hq' hid
    -- what is kept in the running queue is not finished, and nobody is in both
    rcases List.mem_append.mp hq with hq | hq
    · have hkeep := (List.mem_filter.mp hq).2
      rw [hfin] at hkeep
      exact absurd hkeep (by simp)
    · have hnd : (s.running ++ s.waiting).Nodup := List.Nodup.of_map _ h
      exact (List.nodup_append.mp hnd).2.2 r hr r hq rfl

/-- Both queues less the record with an id. -/
theorem mem_eraseKey_of_ne {l : List Sequence} {id : SequenceId} {q : Sequence}
    (hq : q ∈ l) (hne : q.id ≠ id) : q ∈ l.eraseKey Sequence.id id := by
  unfold List.eraseKey
  exact (List.mem_eraseP_of_neg (by simpa using hne)).mpr hq

theorem thins_cancel (h : s.ids.Nodup) (id : SequenceId) :
    s.Thins (s.cancel id).1 [id] := by
  have hkeep : ∀ {l : List Sequence} {q : Sequence}, q ∈ l →
      q.id ∈ [id] ∨ q ∈ l.eraseKey Sequence.id id := by
    intro l q hq
    by_cases hid : q.id = id
    · exact Or.inl (List.mem_singleton.mpr hid)
    · exact Or.inr (mem_eraseKey_of_ne hq hid)
  have hrun : (s.running.map Sequence.id).Nodup := Pass.nodup_running (p := s.pass) h
  have hwait : (s.waiting.map Sequence.id).Nodup := by
    unfold ids at h
    rw [List.map_append] at h
    exact (List.nodup_append.mp h).2.1
  unfold cancel
  split
  · next hany =>
    refine thins_of_sub h (.refl _) List.eraseP_sublist (fun q hq => ?_) (fun q hq hgone => ?_)
    · rcases List.mem_append.mp hq with hq | hq
      · exact Or.inr (List.mem_append_left _ hq)
      · exact (hkeep hq).imp_right (List.mem_append_right _)
    · obtain rfl := List.mem_singleton.mp hgone
      rcases List.mem_append.mp hq with hq | hq
      · -- it was found in the waiting queue, so it is not in the running one
        obtain ⟨w, hw, hid⟩ := List.any_eq_true.mp hany
        have hsame := eq_of_id_eq h (List.mem_append_right _ hw) (List.mem_append_left _ hq)
          (of_decide_eq_true hid)
        have hnd : (s.running ++ s.waiting).Nodup := List.Nodup.of_map _ h
        exact (List.nodup_append.mp hnd).2.2 q hq w hw hsame.symm
      · exact ((List.mem_eraseKey hwait).mp hq).2 rfl
  split
  · next hnone _ =>
    refine thins_of_sub h List.eraseP_sublist (.refl _) (fun q hq => ?_) (fun q hq hgone => ?_)
    · rcases List.mem_append.mp hq with hq | hq
      · exact (hkeep hq).imp_right (List.mem_append_left _)
      · exact Or.inr (List.mem_append_right _ hq)
    · obtain rfl := List.mem_singleton.mp hgone
      rcases List.mem_append.mp hq with hq | hq
      · exact ((List.mem_eraseKey hrun).mp hq).2 rfl
      · exact hnone (List.any_eq_true.mpr ⟨q, hq, decide_eq_true rfl⟩)
  · next hnone hnone' =>
    refine thins_of_sub h (.refl _) (.refl _) (fun q hq => Or.inr hq) (fun q hq hgone => ?_)
    obtain rfl := List.mem_singleton.mp hgone
    rcases List.mem_append.mp hq with hq | hq
    · exact hnone' (List.any_eq_true.mpr ⟨q, hq, decide_eq_true rfl⟩)
    · exact hnone (List.any_eq_true.mpr ⟨q, hq, decide_eq_true rfl⟩)

/-- Who has timed out is finished, and keeps the id. -/
theorem id_expired (now limit : Instant) (r : Sequence) :
    (if isExpired now limit r then r.finish .timeout else r).id = r.id := by
  split
  · exact r.finish_id _
  · rfl

theorem map_id_expired (now limit : Instant) (l : List Sequence) :
    (l.map (fun r => if isExpired now limit r then r.finish .timeout else r)).map Sequence.id
      = l.map Sequence.id := by
  rw [List.map_map]
  exact List.map_congr_left (fun r _ => id_expired now limit r)

/-- Who times out in the running queue stays there for now. -/
theorem map_id_expireTimeouts {C : Type*} (s : Scheduler C) (now : Instant) :
    (s.expireTimeouts now).1.running.map Sequence.id = s.running.map Sequence.id := by
  unfold expireTimeouts
  split
  · rfl
  · next secs _ => exact map_id_expired now (durationFromSecs secs) s.running

omit [KvCacheManagerLike C] in
/-- What `expire_timeouts` does under a limit. -/
theorem thins_expired (h : s.ids.Nodup) (now limit : Instant) :
    s.Thins
      { s with
        running := s.running.map
          (fun r => if isExpired now limit r then r.finish .timeout else r)
        waiting := s.waiting.filter (fun w => !isExpired now limit w) }
      ((s.running.filter (isExpired now limit)).map Sequence.id
        ++ (s.waiting.filter (isExpired now limit)).map Sequence.id) := by
  set running' := s.running.map
    (fun r => if isExpired now limit r then r.finish .timeout else r) with hrunning'
  have hmap : running'.map Sequence.id = s.running.map Sequence.id :=
    map_id_expired now limit s.running
  have hsub : ((running' ++ s.waiting.filter (fun w => !isExpired now limit w)).map
      Sequence.id).Sublist s.ids := by
    unfold ids
    rw [List.map_append, List.map_append, hmap]
    exact (List.Sublist.refl _).append (List.filter_sublist.map _)
  -- whose sequence a record of the new queues was
  have hback : ∀ q' ∈ running' ++ s.waiting.filter (fun w => !isExpired now limit w),
      ∃ q ∈ s.queue, q.id = q'.id ∧ (isExpired now limit q = true → q'.state = .finished)
        ∧ (isExpired now limit q = false → q' = q) := by
    intro q' hq'
    rcases List.mem_append.mp hq' with hq' | hq'
    · obtain ⟨r, hr, rfl⟩ := List.mem_map.mp hq'
      refine ⟨r, List.mem_append_left _ hr, (id_expired now limit r).symm, fun hexp => ?_,
        fun hexp => ?_⟩
      · rw [if_pos hexp]
        exact r.finish_state _
      · rw [if_neg (by simp [hexp])]
    · obtain ⟨hw, hexp⟩ := List.mem_filter.mp hq'
      refine ⟨q', List.mem_append_right _ hw, rfl, fun hexp' => ?_, fun _ => rfl⟩
      rw [hexp'] at hexp
      exact absurd hexp (by simp)
  refine ⟨h.sublist hsub, fun id hmem => hsub.subset hmem, fun q hq => ?_,
    fun q' hq' hne => ?_, fun q' hq' hgone => ?_⟩
  · rcases hexp : isExpired now limit q with - | -
    · refine Or.inr ⟨q, ?_, rfl, rfl, rfl⟩
      rcases List.mem_append.mp hq with hq | hq
      · refine List.mem_append_left _ (List.mem_map.mpr ⟨q, hq, ?_⟩)
        rw [if_neg (by simp [hexp])]
      · exact List.mem_append_right _ (List.mem_filter.mpr ⟨hq, by simp [hexp]⟩)
    · refine Or.inl ?_
      rcases List.mem_append.mp hq with hq | hq
      · exact List.mem_append_left _ (List.mem_map_of_mem (List.mem_filter.mpr ⟨hq, hexp⟩))
      · exact List.mem_append_right _ (List.mem_map_of_mem (List.mem_filter.mpr ⟨hq, hexp⟩))
  · obtain ⟨q, hq, hqid, hfin, hsame⟩ := hback q' hq'
    rcases hexp : isExpired now limit q with - | -
    · exact ⟨q, hq, hqid, by rw [← hsame hexp]; exact hne⟩
    · exact absurd (hfin hexp) hne
  · obtain ⟨q, hq, hqid, hfin, -⟩ := hback q' hq'
    -- the one that was reported is this one
    have hexp : ∃ r ∈ s.queue, r.id = q'.id ∧ isExpired now limit r = true := by
      rcases List.mem_append.mp hgone with hgone | hgone
      · obtain ⟨r, hr, hrid⟩ := List.mem_map.mp hgone
        obtain ⟨hr, hexp⟩ := List.mem_filter.mp hr
        exact ⟨r, List.mem_append_left _ hr, hrid, hexp⟩
      · obtain ⟨r, hr, hrid⟩ := List.mem_map.mp hgone
        obtain ⟨hr, hexp⟩ := List.mem_filter.mp hr
        exact ⟨r, List.mem_append_right _ hr, hrid, hexp⟩
    obtain ⟨r, hr, hrid, hexp⟩ := hexp
    obtain rfl := eq_of_id_eq h hr hq (hrid.trans hqid.symm)
    exact hfin hexp

omit [KvCacheManagerLike C] in
theorem thins_refl (h : s.ids.Nodup) : s.Thins s [] :=
  thins_of_sub h (.refl _) (.refl _) (fun _ hq => Or.inr hq) (fun _ _ => List.not_mem_nil)

omit [KvCacheManagerLike C] in
theorem thins_expireTimeouts (h : s.ids.Nodup) (now : Instant) :
    s.Thins (s.expireTimeouts now).1 (s.expireTimeouts now).2 := by
  unfold expireTimeouts
  split
  · exact thins_refl h
  · next secs _ => exact thins_expired h now (durationFromSecs secs)

omit [KvCacheManagerLike C] in
/-- A timeout leaves alone what it does not end. -/
theorem mem_queue_of_expireTimeouts {now : Instant} {q : Sequence}
    (hq : q ∈ (s.expireTimeouts now).1.queue) (hlive : q.state ≠ .finished) : q ∈ s.queue := by
  unfold expireTimeouts at hq
  split at hq
  · exact hq
  rcases List.mem_append.mp hq with hq | hq
  · obtain ⟨r, hr, rfl⟩ := List.mem_map.mp hq
    split at hlive
    · exact absurd (r.finish_state _) hlive
    · next hexp =>
      rw [if_neg hexp]
      exact List.mem_append_left _ hr
  · exact List.mem_append_right _ (List.mem_filter.mp hq).1

omit [KvCacheManagerLike C] in
/-- Whoever is there after the timeouts was there before, and is finished only
if it was or has timed out. -/
theorem of_mem_expireTimeouts {now : Instant} {q' : Sequence}
    (hq' : q' ∈ (s.expireTimeouts now).1.queue) :
    ∃ q ∈ s.queue, q'.id = q.id ∧ q'.prompt = q.prompt ∧ q'.output = q.output
      ∧ q'.params = q.params
      ∧ (q'.state = .finished → q.state = .finished ∨ q'.id ∈ (s.expireTimeouts now).2) := by
  unfold expireTimeouts at hq' ⊢
  split at hq'
  · exact ⟨q', hq', rfl, rfl, rfl, rfl, Or.inl⟩
  rcases List.mem_append.mp hq' with hq' | hq'
  · obtain ⟨r, hr, rfl⟩ := List.mem_map.mp hq'
    refine ⟨r, List.mem_append_left _ hr, ?_⟩
    split
    · next hexp =>
      refine ⟨r.finish_id _, r.finish_prompt _, r.finish_output _, r.finish_params _,
        fun _ => Or.inr (List.mem_append_left _ ?_)⟩
      rw [r.finish_id]
      exact List.mem_map_of_mem (List.mem_filter.mpr ⟨hr, hexp⟩)
    · exact ⟨rfl, rfl, rfl, rfl, Or.inl⟩
  · exact ⟨q', List.mem_append_right _ (List.mem_filter.mp hq').1, rfl, rfl, rfl, rfl, Or.inl⟩

omit [KvCacheManagerLike C] in
theorem expireTimeouts_cache (now : Instant) : (s.expireTimeouts now).1.cache = s.cache := by
  unfold expireTimeouts
  split <;> rfl

/-- A commit is for the cache alone. -/
theorem commitPrefill_queue (id : SequenceId) : (s.commitPrefill id).queue = s.queue := by
  unfold commitPrefill
  split
  · rfl
  · split <;> rfl

theorem thins_commitPrefill (h : s.ids.Nodup) (id : SequenceId) :
    s.Thins (s.commitPrefill id) [] := by
  have hsame : (s.commitPrefill id).running = s.running
      ∧ (s.commitPrefill id).waiting = s.waiting := by
    unfold commitPrefill
    split
    · exact ⟨rfl, rfl⟩
    · split <;> exact ⟨rfl, rfl⟩
  refine thins_of_sub h (by rw [hsame.1]) (by rw [hsame.2]) (fun q hq => Or.inr ?_)
    (fun _ _ => List.not_mem_nil)
  rw [commitPrefill_queue]
  exact hq

end Scheduler
