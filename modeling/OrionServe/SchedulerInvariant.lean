import OrionServe.SchedulerHistory
import OrionServe.CacheOperations
import OrionServe.Lib.Since

/-!
# What holds of the scheduler over the real cache

Over `KvCacheManager` the queues, the block tables and the history belong
together. A running sequence that is not finished is *resident*: its table
was opened for its own prompt, the prefill entries it was given since its
last eviction tile exactly the part of the prompt that counts as computed,
and its table holds the prompt and one token for every decode entry since
then. A finished one may still be in either queue, since a sequence finished
in place leaves the running queue only when it is reaped, and may be evicted
before. Nothing else that waits has been scheduled since its last eviction,
and only running sequences hold tables.

All of it is kept by every move of a scheduling call and by every other
operation, and so holds in every state of every run.
-/

namespace Sequence

/-- **Where a scheduled sequence is in its prompt**: in the middle of it, or
through. -/
def InStage (s : Sequence) : Prop :=
  (s.state = .prefilling ∧ s.computedPrefixLen < s.prompt.length)
  ∨ (s.state = .decoding ∧ s.computedPrefixLen = s.prompt.length)

theorem InStage.le {s : Sequence} (h : s.InStage) :
    s.computedPrefixLen ≤ s.prompt.length := by
  rcases h with ⟨-, h⟩ | ⟨-, h⟩
  · exact h.le
  · exact h.le

theorem InStage.not_finished {s : Sequence} (h : s.InStage) : s.state ≠ .finished := by
  rcases h with ⟨h, -⟩ | ⟨h, -⟩ <;> rw [h] <;> simp

end Sequence

namespace Pass

/-- Another chunk takes a prefilling sequence further, or through. -/
theorem resumed_inStage {s : Sequence} {chunk : ℕ} (hs : s.state = .prefilling)
    (hle : s.computedPrefixLen + chunk ≤ s.prompt.length) :
    (resumed s chunk).computedPrefixLen = s.computedPrefixLen + chunk
      ∧ (resumed s chunk).InStage := by
  have hadv : (s.advancePrefill chunk).computedPrefixLen = s.computedPrefixLen + chunk :=
    min_eq_left hle
  simp only [resumed]
  split
  · next hdone =>
    have hfull : s.prompt.length ≤ s.computedPrefixLen + chunk :=
      hadv ▸ of_decide_eq_true hdone
    have htrans : ((s.advancePrefill chunk).transitionTo .decoding).1.state = .decoding := by
      simp [Sequence.transitionTo, hs, SequenceState.canTransitionTo]
    refine ⟨by rw [Sequence.transitionTo_computedPrefixLen, hadv], Or.inr ⟨htrans, ?_⟩⟩
    rw [Sequence.transitionTo_computedPrefixLen, Sequence.transitionTo_prompt, hadv]
    exact le_antisymm hle hfull
  · next hmore =>
    refine ⟨hadv, Or.inl ⟨hs, ?_⟩⟩
    exact not_le.mp (fun hfull => hmore (decide_eq_true hfull))

/-- The first chunk takes a waiting sequence into its prompt, or through. -/
theorem prefilled_inStage {s : Sequence} {chunk : ℕ} (hs : s.state = .waiting)
    (hzero : s.computedPrefixLen = 0) (hle : chunk ≤ s.prompt.length) :
    (prefilled s chunk).computedPrefixLen = chunk ∧ (prefilled s chunk).InStage := by
  have hadv : (s.advancePrefill chunk).computedPrefixLen = chunk := by
    show min (s.computedPrefixLen + chunk) s.prompt.length = chunk
    rw [hzero, Nat.zero_add]
    exact min_eq_left hle
  have hfirst : (s.advancePrefill chunk).state = .waiting := hs
  have hstart : ((s.advancePrefill chunk).transitionTo .prefilling).1
      = { s.advancePrefill chunk with state := .prefilling } := by
    simp [Sequence.transitionTo, hs, SequenceState.canTransitionTo]
  simp only [prefilled, if_pos hfirst, hstart]
  split
  · next hdone =>
    have hfull : s.prompt.length ≤ chunk := hadv ▸ of_decide_eq_true hdone
    refine ⟨by rw [Sequence.transitionTo_computedPrefixLen]; exact hadv, Or.inr ⟨rfl, ?_⟩⟩
    rw [Sequence.transitionTo_computedPrefixLen, Sequence.transitionTo_prompt]
    exact hadv.trans (le_antisymm hle hfull)
  · next hmore =>
    refine ⟨hadv, Or.inl ⟨rfl, ?_⟩⟩
    exact not_le.mp (fun hfull => hmore (decide_eq_true hfull))

/-- A finished sequence stays finished, and its progress grows. -/
theorem prefilled_finished {s : Sequence} (chunk : ℕ) (hs : s.state = .finished)
    (hpos : 1 ≤ s.computedPrefixLen) (hlen : s.computedPrefixLen + chunk ≤ s.prompt.length) :
    (prefilled s chunk).state = .finished ∧ 1 ≤ (prefilled s chunk).computedPrefixLen := by
  have hadv : (s.advancePrefill chunk).computedPrefixLen = s.computedPrefixLen + chunk :=
    min_eq_left hlen
  have hstate : (s.advancePrefill chunk).state = .finished := hs
  have hkeep : ((s.advancePrefill chunk).transitionTo .decoding).1 = s.advancePrefill chunk := by
    simp [Sequence.transitionTo, hs, SequenceState.canTransitionTo]
  have hnot : ¬ (s.advancePrefill chunk).state = .waiting := by rw [hstate]; simp
  simp only [prefilled, if_neg hnot, hkeep, ite_self]
  exact ⟨hstate, by rw [hadv]; exact hpos.trans (Nat.le_add_right _ _)⟩

end Pass

/-- **A running sequence that is not finished.** -/
structure Resident (m : KvCacheManager) (trace : List SchedEvent) (r : Sequence) :
    Prop where
  source : m.promptOf r.id = some r.prompt
  started : 1 ≤ r.computedPrefixLen
  stage : r.InStage
  entries : ∃ decodes prefills, entriesSince r.id trace = decodes ++ prefills
    ∧ (∀ e ∈ decodes, e.isPrefill = false) ∧ (∀ e ∈ prefills, e.isPrefill = true)
    ∧ Span.TilesTo (prefills.map ScheduledSequence.span) r.computedPrefixLen
    ∧ (r.state = .prefilling → decodes = [])
    ∧ ∃ t, m.tables.lookup r.id = some t
      ∧ t.numTokens = r.prompt.length + decodes.length

/-- **A running sequence that is finished.** It may have lost its table. -/
structure Spent (m : KvCacheManager) (r : Sequence) : Prop where
  finished : r.state = .finished
  started : 1 ≤ r.computedPrefixLen
  source : ∀ t, m.tables.lookup r.id = some t → m.promptOf r.id = some r.prompt

/-- **A waiting sequence**: at the start, or finished and evicted. -/
def Queued (trace : List SchedEvent) (w : Sequence) : Prop :=
  (w.state = .waiting ∧ w.computedPrefixLen = 0 ∧ entriesSince w.id trace = [])
  ∨ (w.state = .finished ∧ 1 ≤ w.computedPrefixLen)

/-- **A first decode entry after an eviction** comes when the prefill entries
since then tile the prompt. -/
def Restarted : SchedEvent → List SchedEvent → Prop
  | .preempted _, _ => True
  | .scheduled d, past => d.isPrefill = false →
    ∀ u mid earlier, past = mid ++ .preempted u :: earlier → u.id = d.id →
      (∀ v, .preempted v ∈ mid → v.id ≠ d.id) →
      (∀ e ∈ mid.filterMap (SchedEvent.entryOf d.id), e.isPrefill = true) →
      Span.TilesTo (prefillsOf d.id mid) u.prompt.length

/-- **What holds of the scheduler over the real cache.** -/
structure Scheduler.Sound (s : Scheduler KvCacheManager) : Prop where
  nodup : s.ids.Nodup
  settled : s.cache.Settled
  tables : ∀ id t, s.cache.tables.lookup id = some t → id ∈ s.running.map Sequence.id
  running : ∀ r ∈ s.running, Resident s.cache s.trace r ∨ Spent s.cache r
  waiting : ∀ w ∈ s.waiting, Queued s.trace w
  evictions : ∀ u, .preempted u ∈ s.trace → ∀ q ∈ s.roster, q.1 = u.id → q.2 = u.prompt
  restarts : Justified Restarted s.trace

/-- Whoever runs and is not finished is resident. -/
theorem Scheduler.Sound.resident {s : Scheduler KvCacheManager} (h : s.Sound) {r : Sequence}
    (hr : r ∈ s.running) (hlive : r.state ≠ .finished) : Resident s.cache s.trace r :=
  (h.running r hr).resolve_right (fun hspent => hlive hspent.finished)

/-- Whoever waits and is not finished is at its start. -/
theorem Scheduler.Sound.atStart {s : Scheduler KvCacheManager} (h : s.Sound) {w : Sequence}
    (hw : w ∈ s.waiting) (hlive : w.state ≠ .finished) :
    w.state = .waiting ∧ w.computedPrefixLen = 0 ∧ entriesSince w.id s.trace = [] :=
  (h.waiting w hw).resolve_right (fun hspent => hlive hspent.1)

/-- And so is who has nothing computed. -/
theorem Scheduler.Sound.atStart_of_zero {s : Scheduler KvCacheManager} (h : s.Sound)
    {w : Sequence} (hw : w ∈ s.waiting) (hzero : w.computedPrefixLen = 0) :
    w.state = .waiting ∧ w.computedPrefixLen = 0 ∧ entriesSince w.id s.trace = [] :=
  (h.waiting w hw).resolve_right (fun hspent => absurd (hzero ▸ hspent.2) (by simp))

section Frame

variable {m m' : KvCacheManager} {trace trace' : List SchedEvent} {r w : Sequence}

/-- A resident sequence has a table. -/
theorem Resident.table (h : Resident m trace r) : ∃ t, m.tables.lookup r.id = some t := by
  obtain ⟨-, -, -, -, -, -, -, t, ht, -⟩ := h.entries
  exact ⟨t, ht⟩

/-- A resident sequence is left alone by what is done to others. -/
theorem Resident.frame (h : Resident m trace r)
    (htable : m'.tables.lookup r.id = m.tables.lookup r.id)
    (hprompt : m'.promptOf r.id = m.promptOf r.id)
    (htrace : entriesSince r.id trace' = entriesSince r.id trace) :
    Resident m' trace' r where
  source := hprompt.trans h.source
  started := h.started
  stage := h.stage
  entries := by
    rw [htrace, htable]
    exact h.entries

theorem Spent.frame (h : Spent m r)
    (htable : m'.tables.lookup r.id = m.tables.lookup r.id)
    (hprompt : m'.promptOf r.id = m.promptOf r.id) : Spent m' r where
  finished := h.finished
  started := h.started
  source t ht := hprompt.trans (h.source t (htable ▸ ht))

/-- Either way. -/
theorem member_frame (h : Resident m trace r ∨ Spent m r)
    (htable : m'.tables.lookup r.id = m.tables.lookup r.id)
    (hprompt : m'.promptOf r.id = m.promptOf r.id)
    (htrace : entriesSince r.id trace' = entriesSince r.id trace) :
    Resident m' trace' r ∨ Spent m' r :=
  h.imp (fun h => h.frame htable hprompt htrace) (fun h => h.frame htable hprompt)

theorem Queued.frame (h : Queued trace w)
    (htrace : entriesSince w.id trace' = entriesSince w.id trace) : Queued trace' w := by
  unfold Queued
  rw [htrace]
  exact h

end Frame

namespace Scheduler.Sound

variable {s : Scheduler KvCacheManager} {r w : Sequence}

theorem nodup_running (h : s.Sound) : (s.running.map Sequence.id).Nodup :=
  Pass.nodup_running (p := ⟨s, .empty, 0⟩) h.nodup

/-- No sequence is in both queues. -/
theorem apart (h : s.Sound) (hr : r ∈ s.running) (hw : w ∈ s.waiting) : r.id ≠ w.id :=
  List.key_ne_of_append h.nodup hr hw

/-- A waiting sequence holds no table. -/
theorem absent (h : s.Sound) (hw : w ∈ s.waiting) : s.cache.tables.lookup w.id = none := by
  rcases ht : s.cache.tables.lookup w.id with - | t
  · rfl
  · obtain ⟨r, hr, hid⟩ := List.mem_map.mp (h.tables _ _ ht)
    exact absurd hid (h.apart hr hw)

/-- So an allocation for it does not fail if `can_allocate` says yes. -/
theorem allocate_ne_error (h : s.Sound) (hw : w ∈ s.waiting)
    (hcan : KvCacheManagerLike.canAllocate s.cache w.promptLen = true) {c : KvCacheManager}
    {e : EngineError} :
    KvCacheManagerLike.allocate s.cache w.id w.prompt ≠ (c, .error e) := by
  intro answer
  have hhas := KvCacheManager.like_allocate_error hcan answer
  unfold KvCacheManager.isAllocated KvCacheManager.blockTable at hhas
  rw [h.absent hw] at hhas
  exact absurd hhas (by simp)

/-- The head of the waiting queue and the rest. -/
theorem head_ne {rest : List Sequence} {w' : Sequence} (h : s.Sound)
    (hw : s.waiting = w :: rest) (hw' : w' ∈ rest) : w'.id ≠ w.id := by
  have hnd := h.nodup
  unfold Scheduler.ids at hnd
  rw [List.map_append, hw, List.map_cons] at hnd
  have hcons := (List.nodup_append.mp hnd).2.1
  exact fun heq => (List.nodup_cons.mp hcons).1 (heq ▸ List.mem_map_of_mem hw')

end Scheduler.Sound

/-! ## The moves of a scheduling call -/

namespace PassMove

variable {p p' : Pass KvCacheManager}

/-- The histories of a move that evicts nobody and starts no decode. -/
theorem restarts_prefill {trace : List SchedEvent} {e : ScheduledSequence}
    (h : Justified Restarted trace) (he : e.isPrefill = true) :
    Justified Restarted (.scheduled e :: trace) :=
  ⟨fun hdec => absurd (he.symm.trans hdec) (by simp), h⟩

/-- Nobody is evicted by a move that only adds an entry. -/
theorem evictions_scheduled {s s' : Scheduler KvCacheManager} (h : s.Sound)
    {e : ScheduledSequence} (hroster : s'.roster = s.roster)
    (htrace : s'.trace = .scheduled e :: s.trace) :
    ∀ u, .preempted u ∈ s'.trace → ∀ q ∈ s'.roster, q.1 = u.id → q.2 = u.prompt := by
  intro u hu q hq
  rw [htrace] at hu
  rw [hroster] at hq
  rcases List.mem_cons.mp hu with hu | hu
  · exact absurd hu (by simp)
  · exact h.evictions u hu q hq

/-- **A decode step** adds a token to the table of a decoding sequence and an
entry to its history. -/
theorem sound_decoded (h : p.sched.Sound) {id : SequenceId} {totalLen : ℕ}
    {c : KvCacheManager}
    (answer : KvCacheManagerLike.appendToken p.sched.cache id = (c, .ok ()))
    (cand : p.sched.ids.Nodup → ∀ seq ∈ p.sched.running, seq.id = id →
      seq.state = .decoding ∧ totalLen = seq.totalLen)
    (hroster : ((p.withCache c).emit (Pass.decodeEntry id totalLen)).sched.roster
      = p.sched.roster) :
    ((p.withCache c).emit (Pass.decodeEntry id totalLen)).sched.Sound := by
  obtain ⟨hc, t, t', happ⟩ := KvCacheManager.like_appendToken_ok h.settled answer
  obtain ⟨new, htr, hnew⟩ := happ.trace
  have hprompt : c.promptOf = p.sched.cache.promptOf :=
    KvCacheManager.promptOf_append htr (fun e he q x => by
      rcases hnew e he with ⟨blk, rfl⟩ | ⟨blk, rfl⟩ <;> simp)
  have hother : ∀ q, q ≠ id → c.tables.lookup q = p.sched.cache.tables.lookup q :=
    fun q hq => by rw [happ.tables, AList.lookup_insert_ne hq]
  -- the entry is about the sequence with this id and no other
  have hentry : ∀ q, q ≠ id →
      entriesSince q (.scheduled (Pass.decodeEntry id totalLen) :: p.sched.trace)
        = entriesSince q p.sched.trace :=
    fun q hq => entriesSince_scheduled_ne (Ne.symm hq)
  have hids : ((p.withCache c).emit (Pass.decodeEntry id totalLen)).sched.ids
      = p.sched.ids := by
    rw [← Scheduler.map_fst_roster, hroster, Scheduler.map_fst_roster]
  have hresident : ∀ r ∈ p.sched.running, r.id = id → Resident p.sched.cache p.sched.trace r := by
    intro r hr hid
    have hstate := (cand h.nodup r hr hid).1
    exact h.resident hr (by simp [hstate])
  refine ⟨hids ▸ h.nodup, hc, fun q u hu => ?_, fun r hr => ?_, fun w hw => ?_,
    evictions_scheduled h hroster rfl, ?_, h.restarts⟩
  · change c.tables.lookup q = some u at hu
    by_cases hq : q = id
    · exact h.tables q t (hq ▸ happ.table)
    · exact h.tables q u (by rw [← hother q hq]; exact hu)
  · by_cases hid : r.id = id
    · subst hid
      have hres := hresident r hr rfl
      obtain ⟨decodes, prefills, hes, hdec, hpre, htile, hnone, u, hu, hnum⟩ := hres.entries
      obtain rfl : u = t := Option.some.inj (hu.symm.trans happ.table)
      have hstate := (cand h.nodup r hr rfl).1
      refine Or.inl ⟨by rw [← hres.source]; exact congrFun hprompt _, hres.started,
        hres.stage, Pass.decodeEntry r.id totalLen :: decodes, prefills, ?_, ?_, hpre,
        htile, fun hp => absurd (hstate.symm.trans hp) (by simp), t', ?_, ?_⟩
      · show entriesSince (Pass.decodeEntry r.id totalLen).id _ = _
        exact (entriesSince_scheduled_self _).trans (congrArg _ hes)
      · intro e he
        rcases List.mem_cons.mp he with rfl | he
        · rfl
        · exact hdec e he
      · show c.tables.lookup r.id = some t'
        rw [happ.tables, AList.lookup_insert]
      · rw [happ.numTokens, hnum, List.length_cons, Nat.add_assoc]
    · exact member_frame (h.running r hr) (hother _ hid) (congrFun hprompt _) (hentry _ hid)
  · have hid : w.id ≠ id := fun heq => by
      have hnone := h.absent hw
      rw [heq, happ.table] at hnone
      exact absurd hnone (by simp)
    exact (h.waiting w hw).frame (hentry _ hid)
  · -- what the entry owes: the sequence it is for is resident and decoding
    rintro - u mid earlier hpast hu hmid hpre'
    obtain ⟨r, hr, hid⟩ := List.mem_map.mp (h.tables id t happ.table)
    change u.id = id at hu
    change p.sched.trace = _ at hpast
    have hres := hresident r hr hid
    obtain ⟨decodes, prefills, hes, hdec, hpre, htile, -, -⟩ := hres.entries
    have hsince : entriesSince id p.sched.trace
        = mid.filterMap (SchedEvent.entryOf id) := by
      rw [hpast]
      exact entriesSince_append hu hmid
    rw [hid, hsince] at hes
    have hnil : decodes = [] := by
      refine List.eq_nil_iff_forall_not_mem.mpr (fun e he => ?_)
      have hpe := hpre' e (by
        show e ∈ mid.filterMap (SchedEvent.entryOf id)
        rw [hes]
        exact List.mem_append_left _ he)
      exact absurd (hpe.symm.trans (hdec e he)) (by simp)
    have hspans : prefillsOf id mid = prefills.map ScheduledSequence.span := by
      unfold prefillsOf
      rw [hes, hnil, List.nil_append, List.filter_eq_self.mpr hpre]
    have hprompt' : r.prompt = u.prompt := by
      refine h.evictions u (hpast ▸ List.mem_append_right _ List.mem_cons_self)
        (r.id, r.prompt) ?_ (hid.trans hu.symm)
      exact List.mem_map.mpr ⟨r, List.mem_append_left _ hr, rfl⟩
    have hfull : r.computedPrefixLen = r.prompt.length := by
      rcases hres.stage with ⟨hst, -⟩ | ⟨-, hfull⟩
      · exact absurd (hst.symm.trans (cand h.nodup r hr hid).1) (by simp)
      · exact hfull
    show Span.TilesTo (prefillsOf id mid) u.prompt.length
    rw [hspans, ← hprompt', ← hfull]
    exact htile

/-- **An eviction** takes the newest running sequence to the start, or leaves
it finished. -/
theorem sound_evicted (h : p.sched.Sound) (result : p.preemptOne = some p')
    (hroster : p'.sched.roster = p.sched.roster) : p'.sched.Sound := by
  have hids : p'.sched.ids = p.sched.ids := by
    rw [← Scheduler.map_fst_roster, hroster, Scheduler.map_fst_roster]
  obtain ⟨older, victim, hrun, rfl⟩ := Pass.preemptOne_eq_some result
  have hvictim : victim ∈ p.sched.running := by
    rw [hrun]
    exact List.mem_append_right _ (List.mem_singleton_self _)
  have hne : ∀ r ∈ older, r.id ≠ victim.id := fun r hr =>
    List.key_ne_of_append (hrun ▸ h.nodup_running) hr (List.mem_singleton_self _)
  have hlookup : ∀ q, q ≠ victim.id →
      (p.sched.cache.free victim.id).tables.lookup q = p.sched.cache.tables.lookup q :=
    fun q hq => by rw [KvCacheManager.free_tables, AList.lookup_erase_ne hq]
  have hentry : ∀ q, q ≠ victim.id →
      entriesSince q (.preempted victim :: p.sched.trace) = entriesSince q p.sched.trace :=
    fun q hq => entriesSince_preempted_ne (Ne.symm hq)
  refine ⟨hids ▸ h.nodup, h.settled.free victim.id, fun q t ht => ?_, fun r hr => ?_,
    fun w hw => ?_, fun u hu q hq hqu => ?_, trivial, h.restarts⟩
  · change (p.sched.cache.free victim.id).tables.lookup q = some t at ht
    have hq : q ≠ victim.id := by
      rintro rfl
      rw [KvCacheManager.free_tables, AList.lookup_erase] at ht
      exact absurd ht (by simp)
    rw [hlookup q hq] at ht
    have hmem := h.tables q t ht
    rw [hrun, List.map_append, List.mem_append] at hmem
    exact hmem.resolve_right (fun hv => hq (List.mem_singleton.mp hv))
  · have hr' : r ∈ p.sched.running := by
      rw [hrun]
      exact List.mem_append_left _ hr
    exact member_frame (h.running r hr') (hlookup _ (hne r hr))
      (congrFun (KvCacheManager.free_promptOf _ _) _) (hentry _ (hne r hr))
  · rcases List.mem_cons.mp hw with rfl | hw
    · rcases h.running victim hvictim with hres | hspent
      · have hback := (victim.preempt_cases).resolve_right
          (fun hno => by
            rcases hno.2 with hst | hst
            · rcases hres.stage with ⟨h', -⟩ | ⟨h', -⟩
                <;> exact absurd (h'.symm.trans hst) (by simp)
            · exact hres.stage.not_finished hst)
        refine Or.inl ⟨by rw [hback.1], by rw [hback.1], ?_⟩
        exact entriesSince_preempted_self (Sequence.preempt_id victim).symm
      · have hstay := (victim.preempt_cases).resolve_left
          (fun hgo => by
            rcases hgo.2 with hst | hst <;>
              exact absurd (hspent.finished.symm.trans hst) (by simp))
        rw [hstay.1]
        exact Or.inr ⟨hspent.finished, hspent.started⟩
    · exact (h.waiting w hw).frame (hentry _ (h.apart hvictim hw).symm)
  · change q ∈ Scheduler.roster _ at hq
    rw [hroster] at hq
    rcases List.mem_cons.mp hu with hu | hu
    · obtain rfl : u = victim := SchedEvent.preempted.inj hu
      obtain ⟨x, hx, rfl⟩ := List.mem_map.mp hq
      have hnd : (p.sched.running ++ p.sched.waiting).map Sequence.id |>.Nodup := h.nodup
      rw [List.eq_of_key_eq hnd hx (List.mem_append_left _ hvictim) hqu]
    · exact h.evictions u hu q hq hqu

/-- **Another chunk** of a resident sequence's prompt. -/
theorem sound_resumed (h : p.sched.Sound) {seq : Sequence} {chunk already : ℕ}
    (found : p.sched.running.findKey Sequence.id seq.id = some seq)
    (cand : p.sched.ids.Nodup → seq.state = .prefilling
      ∧ already = seq.computedPrefixLen ∧ chunk ≤ seq.remainingPrefill)
    (pos : 0 < chunk)
    (result : p' = ({ p with sched := { p.sched with
        running := p.sched.running.updateKey Sequence.id seq.id (Pass.resumed · chunk) } }
      : Pass KvCacheManager).emit ⟨seq.id, chunk, already, true⟩)
    (hroster : p'.sched.roster = p.sched.roster) : p'.sched.Sound := by
  have hids : p'.sched.ids = p.sched.ids := by
    rw [← Scheduler.map_fst_roster, hroster, Scheduler.map_fst_roster]
  obtain ⟨hstate, rfl, hle⟩ := cand h.nodup
  have hmem := List.mem_of_findKey found
  have hres := h.resident hmem (by simp [hstate])
  have hsum : seq.computedPrefixLen + chunk ≤ seq.prompt.length := by
    have hrem : seq.remainingPrefill = seq.prompt.length - seq.computedPrefixLen := rfl
    have := hres.stage.le
    omega
  have hentry : ∀ q, q ≠ seq.id → entriesSince q p'.sched.trace
      = entriesSince q p.sched.trace := fun q hq => by
    rw [result]
    exact entriesSince_scheduled_ne (Ne.symm hq)
  have hrunning : p'.sched.running.map Sequence.id = p.sched.running.map Sequence.id := by
    rw [result]
    exact List.map_updateKey (fun s => Pass.resumed_id s chunk)
  refine ⟨hids ▸ h.nodup, by rw [result]; exact h.settled, fun q t ht => ?_, fun r hr => ?_,
    fun w hw => ?_, evictions_scheduled h hroster (by rw [result]; rfl), ?_⟩
  · rw [hrunning]
    rw [result] at ht
    exact h.tables q t ht
  · have hcache : p'.sched.cache = p.sched.cache := by rw [result]; rfl
    rw [hcache]
    rw [result] at hr
    rcases List.mem_updateKey h.nodup_running hr with ⟨hr, hne⟩ | ⟨a, ha, hid, rfl⟩
    · exact member_frame (h.running r hr) rfl rfl (hentry _ hne)
    · obtain rfl : a = seq := List.eq_of_key_eq h.nodup_running ha hmem hid
      obtain ⟨hcomp, hstage⟩ := Pass.resumed_inStage hstate hsum
      obtain ⟨decodes, prefills, hes, -, hpre, htile, hnone, t, ht, hnum⟩ := hres.entries
      obtain rfl := hnone hstate
      refine Or.inl ⟨?_, ?_, hstage, [],
        ⟨a.id, chunk, a.computedPrefixLen, true⟩ :: prefills, ?_, by simp, ?_, ?_,
        fun _ => rfl, t, ?_, ?_⟩
      · rw [Pass.resumed_id, Pass.resumed_prompt]
        exact hres.source
      · rw [hcomp]
        exact hres.started.trans (Nat.le_add_right _ _)
      · rw [Pass.resumed_id, result]
        exact (entriesSince_scheduled_self _).trans (congrArg _ hes)
      · intro e he
        rcases List.mem_cons.mp he with rfl | he
        · rfl
        · exact hpre e he
      · rw [hcomp]
        exact htile.cons pos
      · rw [Pass.resumed_id]
        exact ht
      · rw [Pass.resumed_prompt]
        exact hnum
  · have hw' : w ∈ p.sched.waiting := by
      rw [result] at hw
      exact hw
    exact (h.waiting w hw').frame (hentry _ (h.apart hmem hw').symm)
  · rw [result]
    exact restarts_prefill h.restarts rfl

/-- **An admission** with an allocation: the head of the waiting queue becomes
resident. -/
theorem sound_admitted (h : p.sched.Sound) {seq : Sequence} {rest : List Sequence}
    {chunk : ℕ} {c : KvCacheManager} (head : p.sched.waiting = seq :: rest)
    (first : seq.computedPrefixLen = 0) (pos : 0 < chunk) (left : chunk ≤ seq.promptLen)
    (answer : KvCacheManagerLike.allocate p.sched.cache seq.id seq.prompt = (c, .ok ()))
    (hroster : ((p.withCache c).bringIn seq rest chunk).sched.roster = p.sched.roster) :
    ((p.withCache c).bringIn seq rest chunk).sched.Sound := by
  have hids : ((p.withCache c).bringIn seq rest chunk).sched.ids = p.sched.ids := by
    rw [← Scheduler.map_fst_roster, hroster, Scheduler.map_fst_roster]
  obtain ⟨hc, t, hadm⟩ := KvCacheManager.like_allocate_ok h.settled answer
  have hmem : seq ∈ p.sched.waiting := head ▸ List.mem_cons_self
  obtain ⟨hstate, -, hnone⟩ := h.atStart_of_zero hmem first
  have hlookup : ∀ q, q ≠ seq.id → c.tables.lookup q = p.sched.cache.tables.lookup q :=
    fun q hq => by rw [hadm.tables, AList.lookup_insert_ne hq]
  have hprompt : ∀ q, q ≠ seq.id → c.promptOf q = p.sched.cache.promptOf q :=
    fun q hq => (hadm.promptOf q).trans (if_neg hq)
  have hentry : ∀ q, q ≠ seq.id →
      entriesSince q (.scheduled ⟨seq.id, chunk, seq.computedPrefixLen, true⟩ :: p.sched.trace)
        = entriesSince q p.sched.trace :=
    fun q hq => entriesSince_scheduled_ne (Ne.symm hq)
  refine ⟨hids ▸ h.nodup, hc, fun q u hu => ?_, fun r hr => ?_, fun w hw => ?_,
    evictions_scheduled h hroster rfl, restarts_prefill h.restarts rfl⟩
  · show q ∈ (p.sched.running ++ [Pass.prefilled seq chunk]).map Sequence.id
    rw [List.map_append, List.mem_append, List.map_singleton, List.mem_singleton,
      Pass.prefilled_id]
    by_cases hq : q = seq.id
    · exact Or.inr hq
    · refine Or.inl (h.tables q u ?_)
      rw [← hlookup q hq]
      exact hu
  · rcases List.mem_append.mp hr with hr | hr
    · have hne := h.apart hr hmem
      exact member_frame (h.running r hr) (hlookup _ hne) (hprompt _ hne) (hentry _ hne)
    · obtain rfl := List.mem_singleton.mp hr
      obtain ⟨hcomp, hstage⟩ := Pass.prefilled_inStage hstate first left
      refine Or.inl ⟨?_, hcomp.symm ▸ pos, hstage, [],
        [⟨seq.id, chunk, seq.computedPrefixLen, true⟩], ?_, by simp, by simp, ?_,
        fun _ => rfl, t, ?_, ?_⟩
      · rw [Pass.prefilled_id, Pass.prefilled_prompt]
        exact (hadm.promptOf _).trans (if_pos rfl)
      · rw [Pass.prefilled_id]
        exact (entriesSince_scheduled_self _).trans (congrArg _ hnone)
      · rw [hcomp, first]
        have hspan := Span.tilesTo_nil.cons pos
        rwa [Nat.zero_add] at hspan
      · show c.tables.lookup _ = _
        rw [Pass.prefilled_id, hadm.tables, AList.lookup_insert]
      · rw [Pass.prefilled_prompt]
        exact hadm.numTokens
  · have hne := h.head_ne head hw
    exact (h.waiting w (head ▸ List.mem_cons_of_mem _ hw)).frame (hentry _ hne)

/-- **An admission without one**: the head is finished and stays so. -/
theorem sound_readmitted (h : p.sched.Sound) {seq : Sequence} {rest : List Sequence}
    {chunk : ℕ} (head : p.sched.waiting = seq :: rest)
    (started : seq.computedPrefixLen ≠ 0) (pos : 0 < chunk)
    (left : chunk ≤ seq.promptLen - seq.computedPrefixLen)
    (hroster : (p.bringIn seq rest chunk).sched.roster = p.sched.roster) :
    (p.bringIn seq rest chunk).sched.Sound := by
  have hids : (p.bringIn seq rest chunk).sched.ids = p.sched.ids := by
    rw [← Scheduler.map_fst_roster, hroster, Scheduler.map_fst_roster]
  have hmem : seq ∈ p.sched.waiting := head ▸ List.mem_cons_self
  obtain ⟨hfin, hone⟩ := (h.waiting seq hmem).resolve_left (fun hw => started hw.2.1)
  have hentry : ∀ q, q ≠ seq.id →
      entriesSince q (.scheduled ⟨seq.id, chunk, seq.computedPrefixLen, true⟩ :: p.sched.trace)
        = entriesSince q p.sched.trace :=
    fun q hq => entriesSince_scheduled_ne (Ne.symm hq)
  refine ⟨hids ▸ h.nodup, h.settled, fun q u hu => ?_, fun r hr => ?_, fun w hw => ?_,
    evictions_scheduled h hroster rfl, restarts_prefill h.restarts rfl⟩
  · show q ∈ (p.sched.running ++ [Pass.prefilled seq chunk]).map Sequence.id
    rw [List.map_append]
    exact List.mem_append_left _ (h.tables q u hu)
  · rcases List.mem_append.mp hr with hr | hr
    · exact member_frame (h.running r hr) rfl rfl (hentry _ (h.apart hr hmem))
    · obtain rfl := List.mem_singleton.mp hr
      have hlen : seq.computedPrefixLen + chunk ≤ seq.prompt.length := by
        have hp : seq.promptLen = seq.prompt.length := rfl
        omega
      obtain ⟨hstate, hcomp⟩ := Pass.prefilled_finished chunk hfin hone hlen
      refine Or.inr ⟨hstate, hcomp, fun t ht => ?_⟩
      rw [Pass.prefilled_id] at ht
      exact absurd ((h.absent hmem).symm.trans ht) (by simp)
  · exact (h.waiting w (head ▸ List.mem_cons_of_mem _ hw)).frame (hentry _ (h.head_ne head hw))

/-- **Step lemma**: every move keeps the invariant. -/
theorem sound (hm : PassMove p p') (h : p.sched.Sound) : p'.sched.Sound := by
  have hroster := hm.roster
  cases hm with
  | refused answer result =>
    obtain rfl := KvCacheManager.like_appendToken_error h.settled answer
    rw [result]
    exact h
  | decoded room answer cand result =>
    subst result
    exact sound_decoded h answer cand hroster
  | evicted result => exact sound_evicted h result hroster
  | resumed found cand pos room result => exact sound_resumed h found cand pos result hroster
  | admitted head first slot pos left room answer result =>
    subst result
    exact sound_admitted h head first pos left answer hroster
  | readmitted head started slot pos left room result =>
    subst result
    exact sound_readmitted h head started pos left hroster
  | putBack head available answer result =>
    exact absurd answer (h.allocate_ne_error (head ▸ List.mem_cons_self) available)

end PassMove

/-- **Run lemma**: and so does a whole scheduling call. -/
theorem PassMoves.sound {p p' : Pass KvCacheManager} (hm : PassMoves p p')
    (h : p.sched.Sound) : p'.sched.Sound := by
  induction hm with
  | refl => exact h
  | tail _ hmove ih => exact hmove.sound ih

theorem Scheduler.Sound.schedule {s : Scheduler KvCacheManager} (h : s.Sound) :
    s.schedule.1.Sound := PassMoves.sound s.passes_moves h
