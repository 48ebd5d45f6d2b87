import OrionServe.SchedulerInvariant
import OrionServe.CacheRun

/-!
# The invariant over whole runs

The operations that are not scheduling only take sequences away, end them or
offer a new one, and each keeps the invariant. So it holds in every state of
every run over `KvCacheManager`, and the cache of such a state is one the
cache's own runs reach, with every commit for the prompt its table was opened
for.
-/

namespace Sequence

/-- What a token or a timeout does to a running sequence: at most, it ends. -/
structure Ends (s s' : Sequence) : Prop where
  id : s'.id = s.id
  prompt : s'.prompt = s.prompt
  computed : s'.computedPrefixLen = s.computedPrefixLen
  state : s'.state = s.state ∨ s'.state = .finished

theorem Ends.refl (s : Sequence) : s.Ends s := ⟨rfl, rfl, rfl, Or.inl rfl⟩

theorem ends_finish (s : Sequence) (reason : FinishReason) : s.Ends (s.finish reason) :=
  ⟨s.finish_id _, s.finish_prompt _, s.finish_computedPrefixLen _,
    Or.inr (s.finish_state _)⟩

theorem ends_tokenReceived (token : TokenId) (eosIds : List TokenId) (s : Sequence) :
    s.Ends (Scheduler.tokenReceived token eosIds s) := by
  simp only [Scheduler.tokenReceived]
  split
  · next reason _ =>
    have h := (s.pushToken token).ends_finish reason
    exact ⟨h.id, h.prompt, h.computed, h.state⟩
  · exact ⟨rfl, rfl, rfl, Or.inl rfl⟩

end Sequence

section Member

variable {m : KvCacheManager} {trace : List SchedEvent} {r r' : Sequence}

/-- A sequence that ends keeps its table until it is reaped. -/
theorem member_ends (h : Resident m trace r ∨ Spent m r) (he : r.Ends r') :
    Resident m trace r' ∨ Spent m r' := by
  by_cases hfin : r'.state = .finished
  · refine Or.inr ⟨hfin, ?_, fun t ht => ?_⟩
    · rw [he.computed]
      exact h.elim Resident.started Spent.started
    · rw [he.id] at ht ⊢
      rw [he.prompt]
      exact h.elim Resident.source (fun hs => hs.source t ht)
  · have hst := he.state.resolve_right hfin
    rcases h with h | h
    · refine Or.inl ⟨?_, he.computed ▸ h.started, ?_, ?_⟩
      · rw [he.id, he.prompt]
        exact h.source
      · unfold Sequence.InStage
        rw [hst, he.computed, he.prompt]
        exact h.stage
      · rw [he.id, he.computed, he.prompt, hst]
        exact h.entries
    · exact absurd (hst.trans h.finished) hfin

end Member

namespace Scheduler.Sound

variable {s s' : Scheduler KvCacheManager}

/-- An operation that takes sequences away and schedules nothing. -/
theorem shrink (h : s.Sound) (hroster : s'.roster.Sublist s.roster)
    (htrace : s'.trace = s.trace) (hsettled : s'.cache.Settled)
    (htables : ∀ id t, s'.cache.tables.lookup id = some t →
      id ∈ s'.running.map Sequence.id)
    (hrunning : ∀ r ∈ s'.running, Resident s'.cache s.trace r ∨ Spent s'.cache r)
    (hwaiting : ∀ w ∈ s'.waiting, w ∈ s.waiting) : s'.Sound where
  nodup := by
    have hsub := hroster.map Prod.fst
    rw [Scheduler.map_fst_roster, Scheduler.map_fst_roster] at hsub
    exact h.nodup.sublist hsub
  settled := hsettled
  tables := htables
  running r hr := htrace ▸ hrunning r hr
  waiting w hw := htrace ▸ h.waiting w (hwaiting w hw)
  evictions u hu q hq := h.evictions u (htrace ▸ hu) q (hroster.subset hq)
  restarts := htrace ▸ h.restarts

/-- Ending running sequences in place. -/
theorem ended (h : s.Sound) {running waiting : List Sequence}
    (hroster : running.map (fun q => (q.id, q.prompt))
      = s.running.map (fun q => (q.id, q.prompt)))
    (hends : ∀ r ∈ running, ∃ q ∈ s.running, q.Ends r)
    (hwaiting : waiting.Sublist s.waiting) :
    Scheduler.Sound { s with running := running, waiting := waiting } := by
  refine h.shrink ?_ rfl h.settled (fun id t ht => ?_) (fun r hr => ?_)
    (fun w hw => hwaiting.subset hw)
  · show ((running ++ waiting).map _).Sublist ((s.running ++ s.waiting).map _)
    rw [List.map_append, List.map_append, hroster]
    exact List.Sublist.append_left (hwaiting.map _) _
  · have hids : running.map Sequence.id = s.running.map Sequence.id := by
      have hfst := congrArg (List.map Prod.fst) hroster
      rw [List.map_map, List.map_map] at hfst
      exact hfst
    show id ∈ running.map Sequence.id
    rw [hids]
    exact h.tables id t ht
  · obtain ⟨q, hq, he⟩ := hends r hr
    exact member_ends (h.running q hq) he

theorem onToken (h : s.Sound) (id : SequenceId) (token : TokenId) (eosIds : List TokenId) :
    (s.onToken id token eosIds).1.Sound := by
  unfold Scheduler.onToken
  split
  · exact h
  · refine h.ended (List.map_updateKey_of_eq (fun q => ?_)) (fun r hr => ?_) (.refl _)
    · have he := q.ends_tokenReceived token eosIds
      rw [he.id, he.prompt]
    · rcases List.mem_updateKey h.nodup_running hr with ⟨hr, -⟩ | ⟨a, ha, -, rfl⟩
      · exact ⟨r, hr, .refl r⟩
      · exact ⟨a, ha, a.ends_tokenReceived token eosIds⟩

/-- What `expire_timeouts` does under a limit. -/
theorem expired (h : s.Sound) (now limit : Instant) :
    Scheduler.Sound { s with
      running := s.running.map
        (fun q => if isExpired now limit q then q.finish .timeout else q)
      waiting := s.waiting.filter (fun w => !isExpired now limit w) } := by
  have hends : ∀ q : Sequence,
      q.Ends (if isExpired now limit q then q.finish .timeout else q) := fun q => by
    split
    · exact q.ends_finish _
    · exact .refl q
  refine h.ended ?_ (fun r hr => ?_) List.filter_sublist
  · rw [List.map_map]
    refine List.map_congr_left (fun q _ => ?_)
    show (_, _) = _
    rw [(hends q).id, (hends q).prompt]
  · obtain ⟨q, hq, rfl⟩ := List.mem_map.mp hr
    exact ⟨q, hq, hends q⟩

theorem expireTimeouts (h : s.Sound) (now : Instant) : (s.expireTimeouts now).1.Sound := by
  unfold Scheduler.expireTimeouts
  split
  · exact h
  · next secs _ => exact h.expired now (durationFromSecs secs)

/-- Freeing the sequences that leave the running queue. -/
theorem freed (h : s.Sound) {running : List Sequence} (gone : List SequenceId)
    (hsub : running.Sublist s.running) (hgone : ∀ r ∈ running, r.id ∉ gone)
    (hall : ∀ r ∈ s.running, r.id ∉ gone → r ∈ running) :
    Scheduler.Sound { s with running := running, cache := s.cache.freeAll gone } := by
  have hsettled : ∀ (ids : List SequenceId) (m : KvCacheManager), m.Settled →
      (m.freeAll ids).Settled ∧ (m.freeAll ids).promptOf = m.promptOf := by
    intro ids
    induction ids with
    | nil => exact fun m hm => ⟨hm, rfl⟩
    | cons id ids ih =>
      intro m hm
      obtain ⟨hs, hp⟩ := ih (m.free id) (hm.free id)
      exact ⟨hs, hp.trans (KvCacheManager.free_promptOf m id)⟩
  obtain ⟨hset, hprompt⟩ := hsettled gone s.cache h.settled
  refine h.shrink ?_ rfl hset (fun id t ht => ?_) (fun r hr => ?_) (fun w hw => hw)
  · exact ((hsub.append_right _).map _)
  · change (s.cache.freeAll gone).tables.lookup id = some t at ht
    rw [KvCacheManager.freeAll_lookup] at ht
    split at ht
    · exact absurd ht (by simp)
    · next hnot =>
      obtain ⟨r, hr, rfl⟩ := List.mem_map.mp (h.tables id t ht)
      exact List.mem_map_of_mem (hall r hr hnot)
  · refine member_frame (h.running r (hsub.subset hr)) ?_ (congrFun hprompt _) rfl
    show (s.cache.freeAll gone).tables.lookup r.id = _
    rw [KvCacheManager.freeAll_lookup, if_neg (hgone r hr)]

theorem reapFinished (h : s.Sound) : s.reapFinished.1.Sound := by
  have hcache : s.reapFinished.1.cache
      = s.cache.freeAll ((s.running.filter Sequence.isFinished).map Sequence.id) := by
    show List.foldl _ _ _ = _
    unfold KvCacheManager.freeAll
    rw [List.foldl_map]
    rfl
  have hform : s.reapFinished.1 = { s with
      running := s.running.filter (fun r => !r.isFinished)
      cache := s.cache.freeAll ((s.running.filter Sequence.isFinished).map Sequence.id) } := by
    rw [← hcache]
    rfl
  have hiff : ∀ r ∈ s.running,
      r.id ∈ (s.running.filter Sequence.isFinished).map Sequence.id ↔ r.isFinished = true := by
    intro r hr
    constructor
    · intro hmem
      obtain ⟨q, hq, hid⟩ := List.mem_map.mp hmem
      obtain ⟨hq, hfin⟩ := List.mem_filter.mp hq
      obtain rfl : q = r := List.eq_of_key_eq h.nodup_running hq hr hid
      exact hfin
    · exact fun hfin => List.mem_map_of_mem (List.mem_filter.mpr ⟨hr, hfin⟩)
  rw [hform]
  refine h.freed _ List.filter_sublist (fun r hr hgone => ?_) (fun r hr hnot => ?_)
  · obtain ⟨hr, hfin⟩ := List.mem_filter.mp hr
    rw [(hiff r hr).mp hgone] at hfin
    exact absurd hfin (by simp)
  · refine List.mem_filter.mpr ⟨hr, ?_⟩
    rw [Bool.not_eq_true', Bool.eq_false_iff]
    exact fun hfin => hnot ((hiff r hr).mpr hfin)

theorem cancel (h : s.Sound) (id : SequenceId) : (s.cancel id).1.Sound := by
  unfold Scheduler.cancel
  split
  · refine h.ended rfl (fun r hr => ⟨r, hr, .refl r⟩) ?_
    exact List.eraseP_sublist
  split
  · refine h.freed [id] List.eraseP_sublist (fun r hr hgone => ?_)
      (fun r hr hnot => ?_)
    · exact ((List.mem_eraseKey h.nodup_running).mp hr).2 (List.mem_singleton.mp hgone)
    · exact (List.mem_eraseKey h.nodup_running).mpr
        ⟨hr, fun hid => hnot (List.mem_singleton.mpr hid)⟩
  · exact h

/-- A commit by the scheduler is for the prompt its table was opened for. -/
theorem ownCommit (h : s.Sound) {r : Sequence} (hr : r ∈ s.running)
    (hhas : s.cache.isAllocated r.id = true) : s.cache.promptOf r.id = some r.prompt := by
  obtain ⟨t, ht⟩ := Option.isSome_iff_exists.mp hhas
  exact (h.running r hr).elim Resident.source (fun hs => hs.source t ht)

theorem commitPrefill (h : s.Sound) (id : SequenceId) : (s.commitPrefill id).Sound := by
  unfold Scheduler.commitPrefill
  split
  · exact h
  next r hfound =>
    obtain rfl : r.id = id := List.key_of_findKey hfound
    split
    · have hcommit := s.cache.commitPrefill_moves False h.settled.tallied r.id r.prompt
        False.elim
      have hprompt := hcommit.2.promptOf
      have htables := hcommit.2.tables
      refine h.shrink (.refl _) rfl (h.settled.of_moves hcommit.1 htables hprompt)
        (fun q t ht => ?_) (fun q hq => ?_) (fun w hw => hw)
      · change (s.cache.commitPrefill r.id r.prompt).tables.lookup q = some t at ht
        rw [htables] at ht
        exact h.tables q t ht
      · refine member_frame (h.running q hq) ?_ (congrFun hprompt _) rfl
        show (s.cache.commitPrefill r.id r.prompt).tables.lookup q.id = _
        rw [htables]
    · exact h

/-- **A new sequence** waits, with nothing behind it. -/
theorem addRequest (h : s.Sound) {seq : Sequence} (hnew : seq.id ∉ s.ids)
    (hstate : seq.state = .waiting) (hzero : seq.computedPrefixLen = 0)
    (hfresh : ∀ e ∈ s.trace, e.seqId ≠ seq.id) : (s.addRequest seq).1.Sound := by
  rcases s.addRequest_cases seq with ⟨e, he⟩ | ⟨hok, -⟩
  · rw [he]
    exact h
  rw [hok]
  have hids : ((s.running ++ (s.waiting ++ [seq])).map Sequence.id) = s.ids ++ [seq.id] := by
    rw [← List.append_assoc, List.map_append]
    rfl
  refine ⟨?_, h.settled, h.tables, h.running, fun w hw => ?_, fun u hu q hq hqu => ?_,
    h.restarts⟩
  · show ((s.running ++ (s.waiting ++ [seq])).map Sequence.id).Nodup
    rw [hids]
    refine List.nodup_append.mpr ⟨h.nodup, List.nodup_singleton _, ?_⟩
    rintro a ha b hb rfl
    exact hnew (List.mem_singleton.mp hb ▸ ha)
  · rcases List.mem_append.mp hw with hw | hw
    · exact h.waiting w hw
    · obtain rfl := List.mem_singleton.mp hw
      exact Or.inl ⟨hstate, hzero, entriesSince_eq_nil hfresh⟩
  · change q ∈ ((s.running ++ (s.waiting ++ [seq])).map _) at hq
    rw [← List.append_assoc, List.map_append] at hq
    rcases List.mem_append.mp hq with hq | hq
    · exact h.evictions u hu q hq hqu
    · obtain rfl := List.mem_singleton.mp hq
      exact absurd hqu.symm (hfresh _ hu)

end Scheduler.Sound

/-! ## Whose events the history holds -/

/-- **What a move adds to the history is about somebody in service.** -/
theorem PassMove.trace {p p' : Pass KvCacheManager} (hm : PassMove p p')
    (h : p.sched.Sound) :
    ∀ e ∈ p'.sched.trace, e ∈ p.sched.trace ∨ e.seqId ∈ p.sched.ids := by
  have hadd : ∀ {tr : List SchedEvent} {x : SchedEvent}, tr = x :: p.sched.trace →
      x.seqId ∈ p.sched.ids → ∀ e ∈ tr, e ∈ p.sched.trace ∨ e.seqId ∈ p.sched.ids := by
    rintro tr x rfl hx e he
    rcases List.mem_cons.mp he with rfl | he
    · exact Or.inr hx
    · exact Or.inl he
  cases hm with
  | refused answer result => rw [result]; exact fun e he => Or.inl he
  | decoded room answer cand result =>
    obtain ⟨-, t, t', happ⟩ := KvCacheManager.like_appendToken_ok h.settled answer
    rw [result]
    exact hadd rfl (Scheduler.mem_ids_iff.mpr (Or.inl (h.tables _ t happ.table)))
  | evicted result =>
    obtain ⟨older, victim, hrun, rfl⟩ := Pass.preemptOne_eq_some result
    refine hadd rfl (Scheduler.mem_ids_iff.mpr (Or.inl ?_))
    rw [hrun]
    exact List.mem_map_of_mem (List.mem_append_right _ (List.mem_singleton_self _))
  | resumed found cand pos room result =>
    rw [result]
    exact hadd rfl (Scheduler.mem_ids_iff.mpr
      (Or.inl (List.mem_map_of_mem (List.mem_of_findKey found))))
  | admitted head first slot pos left room answer result =>
    rw [result]
    refine hadd rfl (Scheduler.mem_ids_iff.mpr (Or.inr ?_))
    rw [head]
    exact List.mem_cons_self
  | readmitted head started slot pos left room result =>
    rw [result]
    refine hadd rfl (Scheduler.mem_ids_iff.mpr (Or.inr ?_))
    rw [head]
    exact List.mem_cons_self
  | putBack head available answer result => rw [result]; exact fun e he => Or.inl he

theorem PassMoves.trace {p p' : Pass KvCacheManager} (hm : PassMoves p p')
    (h : p.sched.Sound) :
    ∀ e ∈ p'.sched.trace, e ∈ p.sched.trace ∨ e.seqId ∈ p.sched.ids := by
  induction hm with
  | refl => exact fun e he => Or.inl he
  | tail hmoves hmove ih =>
    intro e he
    rcases hmove.trace (PassMoves.sound hmoves h) e he with he | he
    · exact ih e he
    · exact Or.inr (PassMoves.ids hmoves ▸ he)

/-- A scheduling call keeps the size of the pool and of a block. -/
theorem PassMoves.poolSize {p p' : Pass KvCacheManager} (hm : PassMoves p p')
    (h : p.sched.Sound) : p'.sched.cache.blockSize = p.sched.cache.blockSize
      ∧ p'.sched.cache.totalBlocks = p.sched.cache.totalBlocks := by
  have hrun : ∀ {m : KvCacheManager}, m.Settled → ∀ op : CacheOp,
      (op.run m).blockSize = m.blockSize ∧ (op.run m).totalBlocks = m.totalBlocks := by
    intro m hm op
    have hmoves := (hm.run False op False.elim).1
    exact ⟨KvCacheManager.Moves.blockSize hmoves, KvCacheManager.Moves.totalBlocks hmoves⟩
  induction hm with
  | refl => exact ⟨rfl, rfl⟩
  | @tail q q' hmoves hmove ih =>
    have hq := (PassMoves.sound hmoves h).settled
    rw [← ih.1, ← ih.2]
    cases hmove with
    | refused answer result =>
      obtain rfl := congrArg Prod.fst answer
      rw [result]
      exact hrun hq (.appendToken _)
    | decoded room answer cand result =>
      obtain rfl := congrArg Prod.fst answer
      rw [result]
      exact hrun hq (.appendToken _)
    | evicted result =>
      obtain ⟨older, victim, -, rfl⟩ := Pass.preemptOne_eq_some result
      exact hrun hq (.free victim.id)
    | resumed found cand pos room result => rw [result]; exact ⟨rfl, rfl⟩
    | admitted head first slot pos left room answer result =>
      obtain rfl := congrArg Prod.fst answer
      rw [result]
      exact hrun hq (.allocate _ _)
    | readmitted head started slot pos left room result => rw [result]; exact ⟨rfl, rfl⟩
    | putBack head available answer result =>
      obtain rfl := congrArg Prod.fst answer
      rw [result]
      exact hrun hq (.allocate _ _)

/-- A scheduling call keeps the size of a block. -/
theorem PassMoves.blockSize {p p' : Pass KvCacheManager} (hm : PassMoves p p')
    (h : p.sched.Sound) : p'.sched.cache.blockSize = p.sched.cache.blockSize :=
  (PassMoves.poolSize hm h).1

namespace Service

variable {config : SchedulerConfig} {n bs firstId : ℕ} {flag : Bool}
  {v : Service KvCacheManager}

/-- **What holds in every state of a run over the real cache.** -/
structure Sound (v : Service KvCacheManager) : Prop where
  inOrder : v.InOrder
  sched : v.sched.Sound
  events : ∀ e ∈ v.sched.trace, e.seqId.raw < v.nextId

/-- Everybody in service has been given an id. -/
theorem Sound.id_lt (h : v.Sound) {id : SequenceId} (hid : id ∈ v.sched.ids) :
    id.raw < v.nextId := h.inOrder.fresh id (h.inOrder.order.subset hid)

omit v in
/-- The history after an operation that schedules nothing. -/
theorem trace_of_ne_schedule {C : Type*} [KvCacheManagerLike C] (v : Service C) {op : SchedulerOp}
    (hop : op ≠ .schedule) : (op.run v).sched.trace = v.sched.trace := by
  cases op with
  | addRequest prompt params now =>
    show (v.sched.addRequest _).1.trace = _
    rcases v.sched.addRequest_cases (.new ⟨v.nextId⟩ prompt params now) with ⟨e, he⟩ | ⟨hok, -⟩
    · rw [he]
    · rw [hok]
  | schedule => exact absurd rfl hop
  | onToken id token eosIds =>
    show (v.sched.onToken id token eosIds).1.trace = _
    unfold Scheduler.onToken
    split <;> rfl
  | reapFinished => rfl
  | cancel id =>
    show (v.sched.cancel id).1.trace = _
    unfold Scheduler.cancel
    split
    · rfl
    · split <;> rfl
  | expireTimeouts now =>
    show (v.sched.expireTimeouts now).1.trace = _
    unfold Scheduler.expireTimeouts
    split <;> rfl
  | commitPrefill id =>
    show (v.sched.commitPrefill id).trace = _
    unfold Scheduler.commitPrefill
    split
    · rfl
    · split <;> rfl

/-- **What an operation other than scheduling does**: at most it ends running
sequences, and either it frees tables of sequences that run no more or it
commits a computed prompt. -/
structure Quietly (s s' : Scheduler KvCacheManager) : Prop where
  running : ∀ r' ∈ s'.running, ∃ r ∈ s.running, r.Ends r'
  cache : (∃ gone, s'.cache = s.cache.freeAll gone ∧ ∀ r ∈ s'.running, r.id ∉ gone)
    ∨ ∃ r ∈ s.running, r.isPrefillComplete = true
      ∧ s'.cache = s.cache.commitPrefill r.id r.prompt

/-- The same cache, and nobody running who did not. -/
theorem Quietly.of_cache {s s' : Scheduler KvCacheManager} (hcache : s'.cache = s.cache)
    (hrun : ∀ r' ∈ s'.running, ∃ r ∈ s.running, r.Ends r') : Quietly s s' :=
  ⟨hrun, Or.inl ⟨[], hcache, fun _ _ => List.not_mem_nil⟩⟩

/-- **Every other operation is quiet.** -/
theorem quietly_run (h : v.sched.Sound) {op : SchedulerOp} (hop : op ≠ .schedule) :
    Quietly v.sched (op.run v).sched := by
  have hsame : ∀ {s' : Scheduler KvCacheManager}, s'.running = v.sched.running →
      ∀ r' ∈ s'.running, ∃ r ∈ v.sched.running, r.Ends r' :=
    fun hrun r' hr => ⟨r', hrun ▸ hr, .refl r'⟩
  cases op with
  | addRequest prompt params now =>
    show Quietly v.sched (v.sched.addRequest _).1
    rcases v.sched.addRequest_cases (.new ⟨v.nextId⟩ prompt params now) with ⟨e, he⟩ | ⟨hok, -⟩
    · rw [he]
      exact .of_cache rfl (hsame rfl)
    · rw [hok]
      exact .of_cache rfl (hsame rfl)
  | schedule => exact absurd rfl hop
  | onToken id token eosIds =>
    show Quietly v.sched (v.sched.onToken id token eosIds).1
    unfold Scheduler.onToken
    split
    · exact .of_cache rfl (hsame rfl)
    · refine .of_cache rfl (fun r' hr => ?_)
      rcases List.mem_updateKey h.nodup_running hr with ⟨hr, -⟩ | ⟨a, ha, -, rfl⟩
      · exact ⟨r', hr, .refl r'⟩
      · exact ⟨a, ha, a.ends_tokenReceived token eosIds⟩
  | reapFinished =>
    refine ⟨fun r' hr => ⟨r', (List.mem_filter.mp hr).1, .refl r'⟩, Or.inl
      ⟨(v.sched.running.filter Sequence.isFinished).map Sequence.id, ?_, fun r hr hgone => ?_⟩⟩
    · show List.foldl _ _ _ = _
      unfold KvCacheManager.freeAll
      rw [List.foldl_map]
      rfl
    · obtain ⟨q, hq, hid⟩ := List.mem_map.mp hgone
      obtain ⟨hq, hfin⟩ := List.mem_filter.mp hq
      obtain ⟨hr, hnot⟩ := List.mem_filter.mp hr
      obtain rfl : q = r := List.eq_of_key_eq h.nodup_running hq hr hid
      rw [hfin] at hnot
      exact absurd hnot (by simp)
  | cancel id =>
    show Quietly v.sched (v.sched.cancel id).1
    unfold Scheduler.cancel
    split
    · exact .of_cache rfl (hsame rfl)
    split
    · have hkeep : ∀ r ∈ v.sched.running.eraseKey Sequence.id id,
          r ∈ v.sched.running ∧ r.id ≠ id :=
        fun r hr => (List.mem_eraseKey h.nodup_running).mp hr
      refine ⟨fun r' hr => ⟨r', (hkeep r' hr).1, .refl r'⟩,
        Or.inl ⟨[id], rfl, fun r hr hid => ?_⟩⟩
      exact (hkeep r hr).2 (List.mem_singleton.mp hid)
    · exact .of_cache rfl (hsame rfl)
  | expireTimeouts now =>
    show Quietly v.sched (v.sched.expireTimeouts now).1
    unfold Scheduler.expireTimeouts
    split
    · exact .of_cache rfl (hsame rfl)
    · refine .of_cache rfl (fun r' hr => ?_)
      obtain ⟨r, hmem, rfl⟩ := List.mem_map.mp hr
      refine ⟨r, hmem, ?_⟩
      show r.Ends (if Scheduler.isExpired now _ r then r.finish .timeout else r)
      split
      · exact r.ends_finish _
      · exact .refl r
  | commitPrefill id =>
    show Quietly v.sched (v.sched.commitPrefill id)
    unfold Scheduler.commitPrefill
    split
    · exact .of_cache rfl (hsame rfl)
    next r hfound =>
      obtain rfl : r.id = id := List.key_of_findKey hfound
      split
      · next hdone =>
        exact ⟨hsame rfl, Or.inr ⟨r, List.mem_of_findKey hfound, hdone, rfl⟩⟩
      · exact .of_cache rfl (hsame rfl)

/-- **Step lemma.** -/
theorem Sound.run (h : v.Sound) (op : SchedulerOp) : (op.run v).Sound := by
  have hin := h.inOrder.run op
  have hevents : op ≠ .schedule → v.nextId ≤ (op.run v).nextId →
      ∀ e ∈ (op.run v).sched.trace, e.seqId.raw < (op.run v).nextId := by
    intro hop hle e he
    rw [v.trace_of_ne_schedule hop] at he
    exact (h.events e he).trans_le hle
  cases op with
  | addRequest prompt params now =>
    refine ⟨hin, h.sched.addRequest ?_ rfl rfl (fun e he heq => ?_),
      hevents (by simp) (Nat.le_succ _)⟩
    · exact fun hmem => absurd (h.id_lt hmem) (lt_irrefl v.nextId)
    · have hlt := h.events e he
      rw [heq] at hlt
      exact absurd hlt (lt_irrefl v.nextId)
  | schedule =>
    refine ⟨hin, h.sched.schedule, fun e he => ?_⟩
    rcases PassMoves.trace v.sched.passes_moves h.sched e he with he | he
    · exact h.events e he
    · exact h.id_lt he
  | onToken id token eosIds =>
    exact ⟨hin, h.sched.onToken id token eosIds, hevents (by simp) le_rfl⟩
  | reapFinished => exact ⟨hin, h.sched.reapFinished, hevents (by simp) le_rfl⟩
  | cancel id => exact ⟨hin, h.sched.cancel id, hevents (by simp) le_rfl⟩
  | expireTimeouts now => exact ⟨hin, h.sched.expireTimeouts now, hevents (by simp) le_rfl⟩
  | commitPrefill id => exact ⟨hin, h.sched.commitPrefill id, hevents (by simp) le_rfl⟩

/-- **Run lemma.** -/
theorem Reachable.sound (hbs : 1 ≤ bs) (hn : n ≤ 2 ^ 32)
    (h : v.Reachable config (KvCacheManager.new n bs flag) firstId) : v.Sound := by
  induction h with
  | start =>
    refine ⟨Reachable.start.inOrder, ⟨List.nodup_nil, KvCacheManager.settled_new hbs hn flag,
      fun id t ht => ?_, by simp [Service.start, Scheduler.new],
      by simp [Service.start, Scheduler.new], by simp [Service.start, Scheduler.new], trivial⟩,
      by simp [Service.start, Scheduler.new]⟩
    exact absurd ht (by simp [Service.start, Scheduler.new, KvCacheManager.new])
  | step op _ ih => exact ih.run op

/-! ## The cache of a run -/

/-- A move calls one operation of the cache at most. -/
theorem cache_of_move {p p' : Pass KvCacheManager} (hm : PassMove p p')
    (h : KvCacheManager.Reachable True n bs flag p.sched.cache) :
    KvCacheManager.Reachable True n bs flag p'.sched.cache := by
  cases hm with
  | refused answer result =>
    obtain rfl := congrArg Prod.fst answer
    rw [result]
    exact h.step (.appendToken _) (fun _ => trivial)
  | decoded room answer cand result =>
    obtain rfl := congrArg Prod.fst answer
    rw [result]
    exact h.step (.appendToken _) (fun _ => trivial)
  | evicted result =>
    obtain ⟨older, victim, hrun, rfl⟩ := Pass.preemptOne_eq_some result
    exact h.step (.free victim.id) (fun _ => trivial)
  | resumed found cand pos room result => rw [result]; exact h
  | admitted head first slot pos left room answer result =>
    obtain rfl := congrArg Prod.fst answer
    rw [result]
    exact h.step (.allocate _ _) (fun _ => trivial)
  | readmitted head started slot pos left room result => rw [result]; exact h
  | putBack head available answer result =>
    obtain rfl := congrArg Prod.fst answer
    rw [result]
    exact h.step (.allocate _ _) (fun _ => trivial)

/-- So a run of moves reaches what the cache's own runs reach. -/
theorem cache_of_moves {p p' : Pass KvCacheManager} (hm : PassMoves p p')
    (h : KvCacheManager.Reachable True n bs flag p.sched.cache) :
    KvCacheManager.Reachable True n bs flag p'.sched.cache := by
  induction hm with
  | refl => exact h
  | tail _ hmove ih => exact cache_of_move hmove ih

/-- **The cache of every state of a run** is reachable by its own
operations, every commit with the prompt of its table. -/
theorem Reachable.cache (hbs : 1 ≤ bs) (hn : n ≤ 2 ^ 32)
    (h : v.Reachable config (KvCacheManager.new n bs flag) firstId) :
    KvCacheManager.Reachable True n bs flag v.sched.cache := by
  induction h with
  | start => exact .start
  | @step v op hv ih =>
    have hs := (hv.sound hbs hn).sched
    cases op with
    | addRequest prompt params now =>
      show KvCacheManager.Reachable True n bs flag (v.sched.addRequest _).1.cache
      rcases v.sched.addRequest_cases (.new ⟨v.nextId⟩ prompt params now) with
        ⟨e, he⟩ | ⟨hok, -⟩
      · rw [he]; exact ih
      · rw [hok]; exact ih
    | schedule =>
      exact cache_of_moves v.sched.passes_moves ih
    | onToken id token eosIds =>
      show KvCacheManager.Reachable True n bs flag (v.sched.onToken id token eosIds).1.cache
      unfold Scheduler.onToken
      split <;> exact ih
    | reapFinished =>
      have hfold : ∀ (l : List Sequence) (m : KvCacheManager),
          KvCacheManager.Reachable True n bs flag m →
          KvCacheManager.Reachable True n bs flag
            (l.foldl (fun c r => KvCacheManagerLike.free c r.id) m) := by
        intro l
        induction l with
        | nil => exact fun m hm => hm
        | cons r l ih => exact fun m hm => ih _ (hm.step (.free r.id) (fun _ => trivial))
      exact hfold _ _ ih
    | cancel id =>
      show KvCacheManager.Reachable True n bs flag (v.sched.cancel id).1.cache
      unfold Scheduler.cancel
      split
      · exact ih
      split
      · exact ih.step (.free id) (fun _ => trivial)
      · exact ih
    | expireTimeouts now =>
      show KvCacheManager.Reachable True n bs flag (v.sched.expireTimeouts now).1.cache
      unfold Scheduler.expireTimeouts
      split <;> exact ih
    | commitPrefill id =>
      show KvCacheManager.Reachable True n bs flag (v.sched.commitPrefill id).cache
      unfold Scheduler.commitPrefill
      split
      · exact ih
      next r hfound =>
        obtain rfl : r.id = id := List.key_of_findKey hfound
        split
        · exact ih.step (.commitPrefill r.id r.prompt)
            (fun _ => hs.ownCommit (List.mem_of_findKey hfound))
        · exact ih

end Service
