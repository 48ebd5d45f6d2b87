import OrionServe.SchedulerMoves

/-!
# Runs of the scheduler

A run starts with an empty scheduler and calls its operations in any order
and with any arguments. A new sequence takes its id from a process-wide
counter, so `Service` carries the counter along with the scheduler, and the
history of what was admitted and of what was given back: returned by
`reap_finished`, reported by `expire_timeouts` or cancelled.

Nothing here depends on the cache. The order of service is the order of
admission, and a sequence leaves it only by being reported.
-/

variable {C : Type*} [KvCacheManagerLike C]

/-- A call of one of the operations. -/
inductive SchedulerOp where
  /-- A new sequence for this prompt is offered. -/
  | addRequest (prompt : List TokenId) (params : SamplingParams) (now : Instant)
  | schedule
  | onToken (id : SequenceId) (token : TokenId) (eosIds : List TokenId)
  | reapFinished
  | cancel (id : SequenceId)
  | expireTimeouts (now : Instant)
  | commitPrefill (id : SequenceId)
  deriving DecidableEq

/-- A scheduler in service. -/
structure Service (C : Type*) where
  sched : Scheduler C
  /-- The counter behind `SequenceId::next`. -/
  nextId : ℕ
  /-- The ids admitted so far, in order. -/
  admitted : List SequenceId
  /-- The ids returned as finished, cancelled or expired so far. -/
  reported : List SequenceId

namespace Service

/-- Where a run starts. -/
def start (config : SchedulerConfig) (cache : C) (firstId : ℕ) : Service C :=
  ⟨.new config cache, firstId, [], []⟩

/-- The scheduler after a call that reports these ids. -/
def report (v : Service C) (r : Scheduler C × List SequenceId) : Service C :=
  { v with sched := r.1, reported := r.2 ++ v.reported }

end Service

namespace SchedulerOp

/-- The service after the call. -/
def run (v : Service C) : SchedulerOp → Service C
  | .addRequest prompt params now =>
    let r := v.sched.addRequest (.new ⟨v.nextId⟩ prompt params now)
    { v with
      sched := r.1
      nextId := v.nextId + 1
      admitted := v.admitted ++ r.2.toOption.toList }
  | .schedule => { v with sched := v.sched.schedule.1 }
  | .onToken id token eosIds => { v with sched := (v.sched.onToken id token eosIds).1 }
  | .reapFinished =>
    v.report (v.sched.reapFinished.1, v.sched.reapFinished.2.map Sequence.id)
  | .cancel id =>
    v.report ((v.sched.cancel id).1, if (v.sched.cancel id).2 then [id] else [])
  | .expireTimeouts now => v.report (v.sched.expireTimeouts now)
  | .commitPrefill id => { v with sched := v.sched.commitPrefill id }

/-- A list of calls, in order. -/
def runAll (v : Service C) (ops : List SchedulerOp) : Service C := ops.foldl run v

end SchedulerOp

/-- **The states a run can reach**: those of a fresh scheduler after any calls in
any order, whatever they return. The engine makes the calls in an order of its
own, so the states of its scheduler are among these. -/
inductive Service.Reachable (config : SchedulerConfig) (cache : C) (firstId : ℕ) :
    Service C → Prop
  | start : Service.Reachable config cache firstId (.start config cache firstId)
  | step {v : Service C} (op : SchedulerOp)
      (h : Service.Reachable config cache firstId v) :
      Service.Reachable config cache firstId (op.run v)

/-- A list of calls leads from a reachable state to a reachable one. -/
theorem Service.Reachable.runAll {config : SchedulerConfig} {cache : C} {firstId : ℕ}
    (ops : List SchedulerOp) :
    ∀ {v : Service C}, v.Reachable config cache firstId →
      Service.Reachable config cache firstId (SchedulerOp.runAll v ops) := by
  induction ops with
  | nil => exact fun h => h
  | cons op ops ih => exact fun h => ih (h.step op)

namespace Scheduler

/-! ## What each operation does to the order of service -/

/-- Ids are deleted, none but those reported. -/
def OnlyDeletes (s s' : Scheduler C) (reported : List SequenceId) : Prop :=
  s'.ids.Sublist s.ids ∧ ∀ id ∈ s.ids, id ∈ s'.ids ∨ id ∈ reported

omit [KvCacheManagerLike C] in
theorem mem_ids_iff {s : Scheduler C} {id : SequenceId} :
    id ∈ s.ids ↔ id ∈ s.running.map Sequence.id ∨ id ∈ s.waiting.map Sequence.id := by
  unfold ids
  rw [List.map_append, List.mem_append]

omit [KvCacheManagerLike C] in
/-- Deleting from both queues. -/
theorem onlyDeletes_of_queues {s s' : Scheduler C} {reported : List SequenceId}
    (hrun : (s'.running.map Sequence.id).Sublist (s.running.map Sequence.id))
    (hwait : (s'.waiting.map Sequence.id).Sublist (s.waiting.map Sequence.id))
    (hruns : ∀ r ∈ s.running, r.id ∈ s'.running.map Sequence.id ∨ r.id ∈ reported)
    (hwaits : ∀ w ∈ s.waiting, w.id ∈ s'.waiting.map Sequence.id ∨ w.id ∈ reported) :
    OnlyDeletes s s' reported := by
  refine ⟨?_, fun id hid => ?_⟩
  · unfold ids
    rw [List.map_append, List.map_append]
    exact hrun.append hwait
  · rw [mem_ids_iff]
    rcases mem_ids_iff.mp hid with hid | hid
    · obtain ⟨r, hr, rfl⟩ := List.mem_map.mp hid
      exact (hruns r hr).imp_left Or.inl
    · obtain ⟨w, hw, rfl⟩ := List.mem_map.mp hid
      exact (hwaits w hw).imp_left Or.inr

/-- **Scheduling leaves the order of service alone.** -/
theorem schedule_ids (s : Scheduler C) : s.schedule.1.ids = s.ids := s.passes_moves.ids

/-- **A request is refused, or goes to the end of the waiting queue.** -/
theorem addRequest_cases (s : Scheduler C) (seq : Sequence) :
    (∃ e, s.addRequest seq = (s, .error e))
    ∨ (s.addRequest seq = ({ s with waiting := s.waiting ++ [seq] }, .ok seq.id)
        ∧ KvCacheManagerLike.blocksNeededFor s.cache seq.promptLen
          ≤ KvCacheManagerLike.totalBlocks s.cache) := by
  unfold addRequest
  split
  · exact Or.inl ⟨_, rfl⟩
  split
  · exact Or.inl ⟨_, rfl⟩
  simp only []
  split
  · exact Or.inl ⟨_, rfl⟩
  · next hfits => exact Or.inr ⟨rfl, not_lt.mp hfits⟩

theorem addRequest_ids (s : Scheduler C) (seq : Sequence) :
    (s.addRequest seq).1.ids = s.ids ++ (s.addRequest seq).2.toOption.toList
      ∧ ∀ id, (s.addRequest seq).2 = .ok id → id = seq.id := by
  rcases s.addRequest_cases seq with ⟨e, he⟩ | ⟨hok, -⟩
  · rw [he]
    exact ⟨(List.append_nil _).symm, fun id h => absurd h (by simp)⟩
  · rw [hok]
    refine ⟨?_, fun id h => (Except.ok.inj h).symm⟩
    show (s.running ++ (s.waiting ++ [seq])).map _ = (s.running ++ s.waiting).map _ ++ [seq.id]
    rw [← List.append_assoc, List.map_append, List.map_singleton]

theorem cancel_onlyDeletes (s : Scheduler C) (id : SequenceId) :
    OnlyDeletes s (s.cancel id).1 (if (s.cancel id).2 then [id] else []) := by
  have herase : ∀ l : List Sequence, ∀ r ∈ l,
      r.id ∈ (l.eraseKey Sequence.id id).map Sequence.id ∨ r.id ∈ [id] := by
    intro l r hr
    rw [List.map_eraseKey]
    by_cases hid : r.id = id
    · exact Or.inr (List.mem_singleton.mpr hid)
    · exact Or.inl ((List.mem_erase_of_ne hid).mpr (List.mem_map_of_mem hr))
  have hsub : ∀ l : List Sequence,
      ((l.eraseKey Sequence.id id).map Sequence.id).Sublist (l.map Sequence.id) := by
    intro l
    rw [List.map_eraseKey]
    exact List.erase_sublist
  unfold cancel
  split
  · exact onlyDeletes_of_queues (.refl _) (hsub _)
      (fun r hr => Or.inl (List.mem_map_of_mem hr)) (herase _)
  split
  · exact onlyDeletes_of_queues (hsub _) (.refl _) (herase _)
      (fun w hw => Or.inl (List.mem_map_of_mem hw))
  · exact ⟨.refl _, fun _ h => Or.inl h⟩

theorem reapFinished_onlyDeletes (s : Scheduler C) :
    OnlyDeletes s s.reapFinished.1 (s.reapFinished.2.map Sequence.id) := by
  refine onlyDeletes_of_queues (List.filter_sublist.map _) (.refl _) (fun r hr => ?_)
    (fun w hw => Or.inl (List.mem_map_of_mem hw))
  rcases hfin : r.isFinished with - | -
  · exact Or.inl (List.mem_map_of_mem (List.mem_filter.mpr ⟨hr, by simp [hfin]⟩))
  · exact Or.inr (List.mem_map_of_mem (List.mem_filter.mpr ⟨hr, hfin⟩))

omit [KvCacheManagerLike C] in
/-- What `expire_timeouts` does under a limit. -/
theorem onlyDeletes_expired (s : Scheduler C) (now limit : Instant) :
    OnlyDeletes s
      { s with
        running := s.running.map
          (fun r => if isExpired now limit r then r.finish .timeout else r)
        waiting := s.waiting.filter (fun w => !isExpired now limit w) }
      ((s.running.filter (isExpired now limit)).map Sequence.id
        ++ (s.waiting.filter (isExpired now limit)).map Sequence.id) := by
  have hrun : (s.running.map
      (fun r => if isExpired now limit r then r.finish .timeout else r)).map Sequence.id
        = s.running.map Sequence.id := by
    rw [List.map_map]
    refine List.map_congr_left (fun r _ => ?_)
    show (if isExpired now limit r then r.finish .timeout else r).id = r.id
    split
    · exact r.finish_id _
    · rfl
  refine onlyDeletes_of_queues (hrun ▸ .refl _) (List.filter_sublist.map _)
    (fun r hr => Or.inl (hrun ▸ List.mem_map_of_mem hr)) (fun w hw => ?_)
  rcases hexp : isExpired now limit w with - | -
  · exact Or.inl (List.mem_map_of_mem (List.mem_filter.mpr ⟨hw, by simp [hexp]⟩))
  · exact Or.inr (List.mem_append_right _
      (List.mem_map_of_mem (List.mem_filter.mpr ⟨hw, hexp⟩)))

omit [KvCacheManagerLike C] in
theorem expireTimeouts_onlyDeletes (s : Scheduler C) (now : Instant) :
    OnlyDeletes s (s.expireTimeouts now).1 (s.expireTimeouts now).2 := by
  unfold expireTimeouts
  split
  · exact ⟨.refl _, fun _ h => Or.inl h⟩
  · next secs _ => exact s.onlyDeletes_expired now (durationFromSecs secs)

@[simp] theorem tokenReceived_id (token : TokenId) (eosIds : List TokenId)
    (seq : Sequence) : (tokenReceived token eosIds seq).id = seq.id := by
  simp only [tokenReceived]
  split <;> simp

omit [KvCacheManagerLike C] in
theorem onToken_ids (s : Scheduler C) (id : SequenceId) (token : TokenId)
    (eosIds : List TokenId) : (s.onToken id token eosIds).1.ids = s.ids := by
  unfold onToken
  split
  · rfl
  · show (s.running.updateKey _ _ _ ++ s.waiting).map _ = (s.running ++ s.waiting).map _
    rw [List.map_append, List.map_append, List.map_updateKey (tokenReceived_id token eosIds)]

theorem commitPrefill_ids (s : Scheduler C) (id : SequenceId) :
    (s.commitPrefill id).ids = s.ids := by
  unfold commitPrefill
  split
  · rfl
  · split <;> rfl

end Scheduler

namespace Service

variable {config : SchedulerConfig} {cache : C} {firstId : ℕ} {v : Service C}

/-! ## Whole runs -/

/-- **The order of service is the order of admission**, less what has been
reported, and ids are given out once. -/
structure InOrder (v : Service C) : Prop where
  order : v.sched.ids.Sublist v.admitted
  kept : ∀ id ∈ v.admitted, id ∈ v.sched.ids ∨ id ∈ v.reported
  admitted : v.admitted.Nodup
  fresh : ∀ id ∈ v.admitted, id.raw < v.nextId

omit [KvCacheManagerLike C] in
theorem InOrder.nodup (h : v.InOrder) : v.sched.ids.Nodup := h.admitted.sublist h.order

omit [KvCacheManagerLike C] in
/-- An operation that keeps the order keeps the invariant. -/
theorem InOrder.of_ids (h : v.InOrder) {s : Scheduler C} (hids : s.ids = v.sched.ids) :
    InOrder { v with sched := s } where
  order := by
    show s.ids.Sublist _
    rw [hids]
    exact h.order
  kept id hid := by
    show id ∈ s.ids ∨ _
    rw [hids]
    exact h.kept id hid
  admitted := h.admitted
  fresh := h.fresh

omit [KvCacheManagerLike C] in
/-- So does one that reports what it deletes. -/
theorem InOrder.report (h : v.InOrder) {r : Scheduler C × List SequenceId}
    (hr : v.sched.OnlyDeletes r.1 r.2) : (v.report r).InOrder where
  order := hr.1.trans h.order
  kept id hid := by
    show id ∈ r.1.ids ∨ id ∈ r.2 ++ v.reported
    rw [List.mem_append]
    rcases h.kept id hid with hin | hrep
    · exact (hr.2 id hin).imp_right Or.inl
    · exact Or.inr (Or.inr hrep)
  admitted := h.admitted
  fresh := h.fresh

/-- **Step lemma.** -/
theorem InOrder.run (h : v.InOrder) (op : SchedulerOp) : (op.run v).InOrder := by
  cases op with
  | addRequest prompt params now =>
    set seq : Sequence := .new ⟨v.nextId⟩ prompt params now with hseq
    obtain ⟨hids, hid⟩ := v.sched.addRequest_ids seq
    set added := (v.sched.addRequest seq).2.toOption.toList with hadded
    have hnew : ∀ id ∈ added, id.raw = v.nextId := by
      intro id hmem
      rcases hr : (v.sched.addRequest seq).2 with e | k
      · rw [hadded, hr] at hmem
        exact absurd hmem (by simp [Except.toOption])
      · rw [hadded, hr] at hmem
        obtain rfl : id = k := by simpa [Except.toOption] using hmem
        rw [hid id hr]
        rfl
    have hone : added.Nodup := by
      rw [hadded]
      rcases (v.sched.addRequest seq).2.toOption with - | k
      · exact List.nodup_nil
      · exact List.nodup_singleton k
    refine ⟨?_, fun id hmem => ?_, List.nodup_append.mpr ⟨h.admitted, hone, ?_⟩, ?_⟩
    · show (v.sched.addRequest seq).1.ids.Sublist (v.admitted ++ added)
      rw [hids]
      exact h.order.append_right _
    · show id ∈ (v.sched.addRequest seq).1.ids ∨ _
      rw [hids, List.mem_append]
      rcases List.mem_append.mp hmem with hmem | hmem
      · exact (h.kept id hmem).imp_left Or.inl
      · exact Or.inl (Or.inr hmem)
    · rintro a ha b hb rfl
      exact absurd (hnew a hb) (h.fresh a ha).ne
    · intro id hmem
      show id.raw < v.nextId + 1
      rcases List.mem_append.mp hmem with hmem | hmem
      · exact (h.fresh id hmem).trans (Nat.lt_succ_self _)
      · rw [hnew id hmem]
        exact Nat.lt_succ_self _
  | schedule => exact h.of_ids v.sched.schedule_ids
  | onToken id token eosIds => exact h.of_ids (v.sched.onToken_ids id token eosIds)
  | reapFinished => exact h.report v.sched.reapFinished_onlyDeletes
  | cancel id => exact h.report (v.sched.cancel_onlyDeletes id)
  | expireTimeouts now => exact h.report (v.sched.expireTimeouts_onlyDeletes now)
  | commitPrefill id => exact h.of_ids (v.sched.commitPrefill_ids id)

/-- **Run lemma.** -/
theorem Reachable.inOrder (h : v.Reachable config cache firstId) : v.InOrder := by
  induction h with
  | start => exact ⟨.refl _, by simp [Service.start], List.nodup_nil, by simp [Service.start]⟩
  | step op _ ih => exact ih.run op

/-- **First come, first served, and nobody is lost.** For every cache, every
configuration and every state of the scheduler, one `schedule` call leaves
the order of service exactly as it is, whatever it admits and evicts. A
request that is admitted goes to the end of it, and the other operations
delete only what they return or report. So in every run it is free of
duplicates and in the order of admission, and every admitted sequence is
either in it or has been reported. -/
theorem fifo_conserved (config : SchedulerConfig) (cache : C) (firstId : ℕ) :
    (∀ s : Scheduler C, s.schedule.1.ids = s.ids)
    ∧ (∀ (s : Scheduler C) (seq : Sequence),
        (∃ e, (s.addRequest seq).2 = .error e ∧ (s.addRequest seq).1.ids = s.ids)
        ∨ ((s.addRequest seq).2 = .ok seq.id
          ∧ (s.addRequest seq).1.ids = s.ids ++ [seq.id]))
    ∧ (∀ (s : Scheduler C) (id : SequenceId),
        s.OnlyDeletes (s.cancel id).1 (if (s.cancel id).2 then [id] else []))
    ∧ (∀ s : Scheduler C,
        s.OnlyDeletes s.reapFinished.1 (s.reapFinished.2.map Sequence.id))
    ∧ (∀ (s : Scheduler C) (now : Instant),
        s.OnlyDeletes (s.expireTimeouts now).1 (s.expireTimeouts now).2)
    ∧ ∀ v : Service C, v.Reachable config cache firstId →
        v.sched.ids.Nodup ∧ v.admitted.Nodup ∧ v.sched.ids.Sublist v.admitted
        ∧ ∀ id ∈ v.admitted, id ∈ v.sched.ids ∨ id ∈ v.reported := by
  refine ⟨Scheduler.schedule_ids, fun s seq => ?_, Scheduler.cancel_onlyDeletes,
    Scheduler.reapFinished_onlyDeletes, Scheduler.expireTimeouts_onlyDeletes,
    fun v h => ?_⟩
  · have hids := (s.addRequest_ids seq).1
    rcases s.addRequest_cases seq with ⟨e, he⟩ | ⟨hok, -⟩
    · rw [he]
      exact Or.inl ⟨e, rfl, rfl⟩
    · rw [hok] at hids ⊢
      exact Or.inr ⟨rfl, hids⟩
  · have hin := h.inOrder
    exact ⟨hin.nodup, hin.admitted, hin.order, hin.kept⟩

/-- Two requests against a cache of four blocks, the first cancelled. -/
theorem fifo_conserved_after_cancel :
    let v := SchedulerOp.runAll (.start {} (KvCacheManager.new 4 4 true) 1)
      [.addRequest [7, 8] {} 0, .addRequest [9] {} 0, .schedule, .cancel ⟨1⟩]
    v.sched.ids = [⟨2⟩] ∧ v.sched.ids.Sublist v.admitted ∧ v.reported = [⟨1⟩] := by
  intro v
  have hv : v.Reachable {} (KvCacheManager.new 4 4 true) 1 := Reachable.start.runAll _
  have hfifo := (fifo_conserved {} (KvCacheManager.new 4 4 true) 1).2.2.2.2.2 v hv
  exact ⟨by decide +kernel, hfifo.2.2.1, by decide +kernel⟩

end Service
