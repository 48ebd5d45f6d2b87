import OrionServe.SchedulerServing

/-!
# What makes a call get on

A call gets on when somebody is due a token after it, when the head of the
order of service has come nearer to its own, or when there is less to read
and the head is where it was. What stands in the way is an eviction that an
admission makes: it can take the head itself, and the head then starts from
its prompt again, call after call.

With the decode pass first no such eviction reaches the head if nobody is
admitted by evicting anybody, if there is nobody else or a slot for one only,
or if the second in the order of service fits next to the head. With the
prefill pass first its admissions must have room, and the decode pass room for
somebody.
-/

namespace Scheduler

/-- **The second in the order of service fits next to the first**, wherever
that is: with the next token of a decoder, or started again. -/
def PairFits (s : Scheduler KvCacheManager) : Prop :=
  ∃ head second rest, s.queue = head :: second :: rest
    ∧ s.cache.blocksNeededFor second.promptLen
      + max (s.cache.blocksNeededFor head.promptLen)
        (s.cache.footprint [head.id] + s.growth 1) ≤ s.cache.totalBlocks

/-- **What lets a call get on.** With the decode pass first: nothing is in its way,
or there are too few sequences to evict each other in turns, or any two have room
side by side. With the prefill pass first: its admissions have room in turn, and
it uses up the budget or leaves a decode pass some turn of which does not evict.
All of it is read off the state before the call. -/
def Headway (s : Scheduler KvCacheManager) : Prop :=
  if s.config.prioritizeDecode then
    s.Calm ∨ s.queue.length ≤ 1 ∨ s.config.maxNumSeqs ≤ 1 ∨ s.PairFits
  else
    Fits s.cache (s.admissions s.prefillRoom) ∧ (s.decodeQuota = 0
      ∨ ¬ (allocateAll s.cache (s.admissions s.prefillRoom)).EvictsFrom
        (s.running.map Sequence.id ++ (s.admissions s.prefillRoom).map (fun x => x.1.id)) 0)

/-- **That it has got on.** -/
inductive GetsOn (s s' : Scheduler KvCacheManager) (scheduled : List ScheduledSequence) : Prop
  | due (h : s'.Due scheduled)
  | nearer (h : s'.ahead < s.ahead)
  | read (same : s'.ahead = s.ahead) (less : s'.unread < s.unread)

end Scheduler

variable {n bs : ℕ} {flag : Bool}

namespace Pass

variable {p p' : Pass KvCacheManager}

omit p' in
/-- A prefill pass without room does nothing. -/
theorem schedulePrefills_spent (h : p.budget ≤ p.used) : p.schedulePrefills = p := by
  have hpart : p.schedulePartialPrefills = p := by
    unfold schedulePartialPrefills
    rcases partialCandidates p.sched.running with - | ⟨c, cands⟩
    · rfl
    · unfold partialLoop
      exact if_pos h
  unfold schedulePrefills
  rw [hpart, admissionLoop, if_pos (Or.inr h)]

/-- What a call keeps of a workload, if it leaves nobody in the middle of a
prompt that is not read in chunks. -/
theorem serving_of_moves (hm : PassMoves p p') (h : p.sched.Serving n bs flag)
    (hwhole : p.sched.config.enableChunkedPrefill = false →
      ∀ r ∈ p'.sched.running, r.state ≠ .prefilling) : p'.sched.Serving n bs flag where
  sound := PassMoves.sound hm h.sound
  cache := PassMoves.unshared hm h.sound h.cache
  ready := PassMoves.ready hm h.sound h.ready
  whole := by rw [PassMoves.config hm]; exact hwhole
  slots := by rw [PassMoves.config hm]; exact h.slots
  budget := by rw [PassMoves.config hm]; exact h.budget

omit p' in
/-- The decode pass keeps a workload. -/
theorem serving_scheduleDecodes (h : p.sched.Serving n bs flag) :
    p.scheduleDecodes.sched.Serving n bs flag := by
  refine serving_of_moves (scheduleDecodes_moves p) h (fun hoff r hr => ?_)
  obtain ⟨gone, hgone, -, -⟩ := decodeLoop_gone (decodeCandidates p.sched.running) h.sound
    p.decodeGuard_candidates
  refine h.whole hoff r ?_
  rw [hgone]
  exact List.mem_append_left _ hr

omit p' in
/-- Without chunks an admission loop leaves nobody in the middle of its
prompt. -/
theorem admissionLoop_whole (p : Pass KvCacheManager)
    (hoff : p.sched.config.enableChunkedPrefill = false)
    (h : ∀ r ∈ p.sched.running, r.state ≠ .prefilling) :
    ∀ r ∈ p.admissionLoop.sched.running, r.state ≠ .prefilling := by
  -- a chunk is all there is, and takes its sequence through
  have hbring : ∀ {q : Pass KvCacheManager} {seq : Sequence} {chunk : ℕ},
      q.sched.config.enableChunkedPrefill = false →
      chunkFor q.sched.config (seq.promptLen - seq.computedPrefixLen) (q.budget - q.used)
        = some chunk → (∀ r ∈ q.sched.running, r.state ≠ .prefilling) →
      ∀ r ∈ q.sched.running ++ [prefilled seq chunk], r.state ≠ .prefilling := by
    intro q seq chunk hoff hc hq r hr
    rcases List.mem_append.mp hr with hr | hr
    · exact hq r hr
    rw [List.mem_singleton.mp hr]
    have hall : chunk = seq.promptLen - seq.computedPrefixLen := by
      unfold chunkFor at hc
      rw [hoff, if_neg (by simp)] at hc
      split at hc
      · exact (Option.some.inj hc).symm
      · exact absurd hc (by simp)
    have hdone : (seq.advancePrefill chunk).isPrefillComplete = true := by
      unfold Sequence.promptLen at hall
      refine decide_eq_true ?_
      show seq.prompt.length ≤ min (seq.computedPrefixLen + chunk) seq.prompt.length
      omega
    have hthrough : ∀ {q : Sequence}, (q.transitionTo .decoding).1.state ≠ .prefilling := by
      intro q
      rcases hst : q.state <;> simp [Sequence.transitionTo, hst, SequenceState.canTransitionTo]
    set q₁ := seq.advancePrefill chunk with hq₁
    set q₂ := if q₁.state = .waiting then (q₁.transitionTo .prefilling).1 else q₁ with hq₂
    have hdone₂ : q₂.isPrefillComplete = true := by
      rw [hq₂]
      split
      · rw [Sequence.transitionTo_isPrefillComplete, hdone]
      · exact hdone
    show (if q₂.isPrefillComplete then (q₂.transitionTo .decoding).1 else q₂).state ≠ _
    rw [if_pos hdone₂]
    exact hthrough
  fun_induction admissionLoop p with
  | case5 p hgo seq rest hw chunk hc hpos hfirst hcan c hok ih =>
    exact ih hoff (hbring hoff hc h)
  | case8 p hgo seq rest hw chunk hc hpos hfirst hcan p₁ hev ih =>
    obtain ⟨older, victim, hrun, rfl⟩ := preemptOne_eq_some hev
    exact ih hoff (fun r hr => h r (hrun ▸ List.mem_append_left _ hr))
  | case9 p hgo seq rest hw chunk hc hpos hfirst ih =>
    exact ih hoff (hbring hoff hc h)
  | _ => exact h

omit p' in
/-- The prefill pass keeps a workload. -/
theorem serving_schedulePrefills (h : p.sched.Serving n bs flag) :
    p.schedulePrefills.sched.Serving n bs flag := by
  refine serving_of_moves (schedulePrefills_moves p) h (fun hoff => ?_)
  have hnone : p.schedulePartialPrefills = p := by
    refine schedulePartialPrefills_eq_self (fun r hr => ?_)
    rw [decide_eq_false (h.whole hoff r hr)]
    rfl
  unfold schedulePrefills
  rw [hnone]
  exact admissionLoop_whole p hoff (h.whole hoff)

end Pass

namespace Scheduler

variable {s : Scheduler KvCacheManager}

/-- A call keeps a workload. -/
theorem Serving.schedule (h : s.Serving n bs flag) : s.schedule.1.Serving n bs flag := by
  show s.passes.sched.Serving n bs flag
  unfold passes
  split
  · exact Pass.serving_schedulePrefills (Pass.serving_scheduleDecodes (p := s.pass) h)
  · exact Pass.serving_scheduleDecodes (Pass.serving_schedulePrefills (p := s.pass) h)

/-- The head of the order of service is where it was, in either queue. -/
theorem head_of_moves {p p' : Pass KvCacheManager} (hm : PassMoves p p') {head : Sequence}
    {rest : List Sequence} (hq : p.sched.queue = head :: rest) {head' : Sequence}
    {rest' : List Sequence} (hq' : p'.sched.queue = head' :: rest') : head.Moved head' := by
  have hmoved : MovedAll p.sched.queue p'.sched.queue := PassMoves.moved hm
  rw [hq, hq'] at hmoved
  cases hmoved with
  | cons h _ => exact h

theorem ahead_of_queue {head : Sequence} {rest : List Sequence} (h : s.queue = head :: rest) :
    s.ahead = head.ahead := by
  unfold ahead
  rw [h]
  rfl

namespace Serving

/-! ## The decode pass first -/

/-- **Nothing an admission does reaches the head.** -/
theorem headSafe (h : s.Serving n bs flag)
    (hway : s.Calm ∨ s.queue.length ≤ 1 ∨ s.config.maxNumSeqs ≤ 1 ∨ s.PairFits)
    {p : Pass KvCacheManager} (hm : PassMoves s.pass p) (hend : p.admissionLoop = s.passes)
    {q : Sequence} {rest : List Sequence} (hrun : p.sched.running = q :: rest)
    (hfoot : ∀ head others, s.queue = head :: others → p.sched.cache.footprint [q.id]
      ≤ max (s.cache.blocksNeededFor head.promptLen)
        (s.cache.footprint [head.id] + s.growth 1)) : p.HeadSafe := by
  rcases hway with hcalm | hfew | hslots | ⟨head, second, others, hqueue, hfits⟩
  · -- nobody is evicted in the whole call
    have hnone : s.passes.out.preempted = [] := h.sound.calm_preempted hcalm
    refine Or.inr (Or.inr (Or.inr ?_))
    rw [hend, hnone]
    refine (List.eq_nil_iff_forall_not_mem.mpr (fun id hid => ?_)).symm
    have hkept := PassMoves.preempted_subset (Pass.admissionLoop_moves p) id hid
    rw [hend, hnone] at hkept
    exact List.not_mem_nil hkept
  · refine Or.inl (List.length_eq_zero_iff.mp ?_)
    have hlen : s.queue.length = p.sched.queue.length :=
      (PassMoves.moved hm : MovedAll s.pass.sched.queue p.sched.queue).length_eq
    have hsplit : p.sched.queue.length = p.sched.running.length + p.sched.waiting.length :=
      List.length_append
    rw [hrun, List.length_cons] at hsplit
    omega
  · refine Or.inr (Or.inl ?_)
    rw [PassMoves.config hm, hrun]
    exact hslots.trans (Nat.succ_le_succ (Nat.zero_le _))
  · refine Or.inr (Or.inr (Or.inl ⟨(q.id, q.prompt), (second.id, second.prompt),
      others.map (fun r => (r.id, r.prompt)), ?_, ?_⟩))
    · have hroster : p.sched.roster = s.roster := by
        rw [← map_contents, ← map_contents, PassMoves.contents hm]
        rfl
      have hold : s.roster = (head.id, head.prompt) :: (second.id, second.prompt)
          :: others.map (fun r => (r.id, r.prompt)) := by
        show s.queue.map _ = _
        rw [hqueue]
        rfl
      have hmoved := head_of_moves hm (p := s.pass) hqueue
        (show p.sched.running ++ p.sched.waiting = q :: (rest ++ p.sched.waiting) by
          rw [hrun]
          rfl)
      rw [hroster, hold, hmoved.id, hmoved.prompt]
    · obtain ⟨hsize, htotal⟩ := PassMoves.poolSize hm h.sound
      have htotal : p.sched.cache.totalBlocks = s.cache.totalBlocks := htotal
      have hneed : p.sched.cache.blocksNeededFor second.prompt.length
          = s.cache.blocksNeededFor second.promptLen :=
        congrArg (BlockTable.blocksRequired _) hsize
      rw [htotal, hneed]
      exact (Nat.add_le_add_left (hfoot head _ hqueue) _).trans hfits

/-- **A head that nobody runs with is started**, or waits for the next call. -/
theorem restarts (h : s.Serving n bs flag)
    (hway : s.Calm ∨ s.queue.length ≤ 1 ∨ s.config.maxNumSeqs ≤ 1 ∨ s.PairFits)
    {p : Pass KvCacheManager} (hm : PassMoves s.pass p) (hp : p.sched.Serving n bs flag)
    (hend : p.schedulePrefills = s.passes) {head : Sequence} {rest : List Sequence}
    (hidle : p.sched.running = []) (hw : p.sched.waiting = head :: rest) :
    (s.passes = p ∧ (p.used < p.budget → p.sched.config.enableChunkedPrefill = false
      ∧ p.budget - p.used < head.prompt.length))
    ∨ s.passes.Served head.prompt.length := by
  by_cases room : p.used < p.budget
  swap
  · refine Or.inl ⟨?_, fun hroom => absurd hroom room⟩
    rw [← hend]
    exact Pass.schedulePrefills_spent (not_lt.mp room)
  have hnone : p.schedulePartialPrefills = p := by
    refine Pass.schedulePartialPrefills_eq_self (fun r hr => ?_)
    rw [hidle] at hr
    exact absurd hr List.not_mem_nil
  have hloop : p.admissionLoop = s.passes := by
    rw [← hend]
    unfold Pass.schedulePrefills
    rw [hnone]
  rw [← hloop]
  refine (Pass.admissionLoop_served hp room hidle hw ?_).imp_left
    (fun ⟨hsame, hoff, hlong⟩ => ⟨hsame, fun _ => ⟨hoff, hlong⟩⟩)
  rintro p₁ hmove hloop₁ ⟨q, hrun, hfoot⟩
  have hm₁ := hm.tail hmove
  refine h.headSafe hway hm₁ (hloop₁.trans hloop) hrun (fun first others hqueue => ?_)
  have hmoved := head_of_moves hm (p := s.pass) hqueue
    (show p.sched.running ++ p.sched.waiting = head :: rest by rw [hidle, hw]; rfl)
  obtain ⟨hsize, -⟩ := PassMoves.poolSize hm₁ h.sound
  have hneed : p₁.sched.cache.blocksNeededFor head.promptLen
      = s.cache.blocksNeededFor first.promptLen := by
    unfold Sequence.promptLen
    rw [hmoved.prompt]
    exact congrArg (BlockTable.blocksRequired _) hsize
  exact hfoot.trans (hneed.le.trans (le_max_left _ _))

/-- When nobody runs the head of the order of service waits, with its prompt
ahead. -/
theorem head_waiting (h : s.Serving n bs flag) (hrun : s.running = []) (hwork : s.queue ≠ []) :
    ∃ head rest, s.waiting = head :: rest ∧ s.ahead = head.prompt.length
      ∧ (s.config.enableChunkedPrefill = false →
        head.prompt.length ≤ s.config.maxNumBatchedTokens) := by
  obtain ⟨head, rest, hq⟩ := List.exists_cons_of_ne_nil hwork
  have hw : s.waiting = head :: rest := by
    unfold queue at hq
    rw [hrun] at hq
    exact hq
  have hready := h.ready head (hq ▸ List.mem_cons_self)
  obtain ⟨hstate, hzero, -⟩ := h.sound.atStart (hw ▸ List.mem_cons_self) hready.live
  refine ⟨head, rest, hw, ?_, hready.budget⟩
  rw [ahead_of_queue hq, Sequence.ahead, if_neg (by rw [hstate]; simp),
    Sequence.remainingPrefill, hzero, Nat.sub_zero]

/-- A call that serves the head of the order of service gets on. -/
theorem getsOn_of_served (h : s.Serving n bs flag) {k : ℕ} (hserved : s.passes.Served k)
    (hk : k ≤ s.ahead) : s.GetsOn s.schedule.1 s.schedule.2.scheduled :=
  (hserved.progress h.schedule.sound).elim .due (fun hless => .nearer (hless.trans_le hk))

theorem queue_of_running {head : Sequence} {rest : List Sequence}
    (hrun : s.running = head :: rest) :
    s.queue = head :: (rest ++ s.waiting) := by
  unfold queue
  rw [hrun]
  rfl

/-- The head is safe after the decode pass. -/
theorem headSafe_decoded (h : s.Serving n bs flag)
    (hway : s.Calm ∨ s.queue.length ≤ 1 ∨ s.config.maxNumSeqs ≤ 1 ∨ s.PairFits)
    {head : Sequence} {rest : List Sequence} (hrun : s.running = head :: rest)
    {p : Pass KvCacheManager} (hm : PassMoves s.pass p) (hend : p.admissionLoop = s.passes)
    (hcache : p.sched.cache = s.pass.scheduleDecodes.sched.cache) {q : Sequence}
    {rest' : List Sequence} (hrun' : p.sched.running = q :: rest') : p.HeadSafe := by
  have hq := queue_of_running hrun
  refine h.headSafe hway hm hend hrun' (fun first others hqueue => ?_)
  obtain rfl := (List.cons.inj (hqueue.symm.trans hq)).1
  have hmoved := head_of_moves hm (p := s.pass) hq (queue_of_running hrun')
  have hlen : 1 ≤ s.running.length := by
    rw [hrun]
    exact Nat.succ_le_succ (Nat.zero_le _)
  have hfoot := h.sound.scheduleDecodes_footprint hlen
  rw [hq] at hfoot
  rw [hmoved.id, hcache]
  exact hfoot.trans (le_max_right _ _)

/-- Nobody runs: the head of the waiting queue is admitted. -/
theorem getsOn_idle (h : s.Serving n bs flag)
    (hway : s.Calm ∨ s.queue.length ≤ 1 ∨ s.config.maxNumSeqs ≤ 1 ∨ s.PairFits)
    (hpasses : s.passes = s.pass.scheduleDecodes.schedulePrefills) (hrun : s.running = [])
    (hwork : s.queue ≠ []) : s.GetsOn s.schedule.1 s.schedule.2.scheduled := by
  obtain ⟨head, rest, hw, hahead, hshort⟩ := h.head_waiting hrun hwork
  have hidle : s.pass.scheduleDecodes = s.pass := by
    refine Pass.scheduleDecodes_idle (Or.inl (fun r hr => ?_))
    rw [show s.pass.sched.running = [] from hrun] at hr
    exact absurd hr List.not_mem_nil
  rcases h.restarts hway (p := s.pass) .refl h (by rw [hpasses, hidle]) hrun hw with
    ⟨-, hblocked⟩ | hserved
  · obtain ⟨hoff, hlong⟩ := hblocked h.budget
    exact absurd hlong (not_lt.mpr (hshort hoff))
  · exact h.getsOn_of_served hserved hahead.ge

/-- The head decodes: it has its entry, or everybody is evicted and it starts
again. -/
theorem getsOn_decoder (h : s.Serving n bs flag) (hbs : 1 ≤ bs) (hn : n ≤ 2 ^ 32)
    (hway : s.Calm ∨ s.queue.length ≤ 1 ∨ s.config.maxNumSeqs ≤ 1 ∨ s.PairFits)
    (hpasses : s.passes = s.pass.scheduleDecodes.schedulePrefills) {head : Sequence}
    {rest : List Sequence} (hrun : s.running = head :: rest) (hdec : head.state = .decoding) :
    s.GetsOn s.schedule.1 s.schedule.2.scheduled := by
  have hq := queue_of_running hrun
  have hm₁ : PassMoves s.pass s.pass.scheduleDecodes := Pass.scheduleDecodes_moves _
  have h₁ : s.pass.scheduleDecodes.sched.Serving n bs flag :=
    Pass.serving_scheduleDecodes (p := s.pass) h
  have hcands := hrun ▸ Pass.decodeCandidates_cons hdec rest
  have hserves := Pass.decodeLoop_serves (p := s.pass) hbs hn h.sound h.cache
    (hcands ▸ s.pass.decodeGuard_candidates) h.budget
    (fun r hr => (h.ready r (List.mem_append_left _ hr)).live) hrun hdec
  set p₁ := s.pass.scheduleDecodes with hp₁
  have hloop : s.pass.decodeLoop ((head.id, head.totalLen) :: Pass.decodeCandidates rest)
      = p₁ := by
    rw [← hcands]
    rfl
  have hahead : s.ahead = head.prompt.length + 1 :=
    (ahead_of_queue hq).trans (Sequence.ahead_decoding hdec)
  rw [hloop] at hserves
  rcases hserves with hnone | ⟨⟨rest', hrest⟩, hentry⟩
  · -- everybody is evicted
    have hlen : s.queue.length = p₁.sched.queue.length :=
      (PassMoves.moved hm₁ : MovedAll s.pass.sched.queue p₁.sched.queue).length_eq
    obtain ⟨head', rest', hq'⟩ := List.exists_cons_of_ne_nil
      (fun hnil => by rw [hnil, hq] at hlen; exact absurd hlen (by simp) : p₁.sched.queue ≠ [])
    have hw : p₁.sched.waiting = head' :: rest' := by
      unfold queue at hq'
      rw [hnone] at hq'
      exact hq'
    have hprompt := (head_of_moves hm₁ (p := s.pass) hq hq').prompt
    rw [← hprompt] at hahead
    rcases h.restarts hway hm₁ h₁ hpasses.symm hnone hw with ⟨hsame, -⟩ | hserved
    · refine .nearer ?_
      show s.passes.sched.ahead < s.ahead
      rw [hsame, ahead_of_queue hq', hahead]
      refine Nat.lt_succ_of_le (Sequence.ahead_le (fun hdec' => ?_))
      rcases h₁.sound.waiting head' (hw ▸ List.mem_cons_self) with ⟨hst, -⟩ | ⟨hst, -⟩ <;>
        exact absurd (hst.symm.trans hdec') (by simp)
    · exact h.getsOn_of_served hserved (hahead ▸ Nat.le_succ _)
  · have hm₂ : PassMoves s.pass p₁.schedulePartialPrefills :=
      hm₁.trans (Pass.partialLoop_moves _ p₁.partialGuard_candidates)
    have hend : p₁.schedulePartialPrefills.admissionLoop = s.passes := hpasses.symm
    obtain ⟨rest'', hfront⟩ := Pass.schedulePartialPrefills_front h₁.sound hrest
      (by rw [hdec]; simp)
    have hserved := Pass.schedulePartialPrefills_keeps (k := s.ahead) h₁.sound hrest hdec hentry
    have hlast := hserved.admissionLoop (PassMoves.sound hm₂ h.sound)
      (h.headSafe_decoded hway hrun hm₂ hend p₁.schedulePartialPrefills_resumes.cache hfront)
    rw [hend] at hlast
    exact h.getsOn_of_served hlast le_rfl

/-- The head is in the middle of its prompt: there are fewer decoders than
running sequences, so it stays. -/
theorem getsOn_reader (h : s.Serving n bs flag)
    (hway : s.Calm ∨ s.queue.length ≤ 1 ∨ s.config.maxNumSeqs ≤ 1 ∨ s.PairFits)
    (hpasses : s.passes = s.pass.scheduleDecodes.schedulePrefills) {head : Sequence}
    {rest : List Sequence} (hrun : s.running = head :: rest) (hdec : head.state ≠ .decoding) :
    s.GetsOn s.schedule.1 s.schedule.2.scheduled := by
  have hm₁ : PassMoves s.pass s.pass.scheduleDecodes := Pass.scheduleDecodes_moves _
  have h₁ : s.pass.scheduleDecodes.sched.Serving n bs flag :=
    Pass.serving_scheduleDecodes (p := s.pass) h
  have hguard := s.pass.decodeGuard_candidates
  set p₁ := s.pass.scheduleDecodes with hp₁
  obtain ⟨gone, hgone, -, hfew⟩ := Pass.decodeLoop_gone (Pass.decodeCandidates s.running)
    h.sound hguard
  have hleft : p₁.sched.running ≠ [] := by
    intro hnil
    have hgone' : s.running = p₁.sched.running ++ gone := hgone
    rw [hnil, List.nil_append] at hgone'
    unfold Pass.decodeCandidates at hfew
    rw [← hgone', List.length_map, hrun, List.filter_cons_of_neg (by simpa using hdec),
      List.length_cons] at hfew
    exact absurd (hfew.trans (List.length_filter_le _ _)) (Nat.not_succ_le_self _)
  obtain ⟨rest', hrest⟩ : ∃ rest', p₁.sched.running = head :: rest' :=
    (Pass.decodeLoop_head (p := s.pass) h.sound hguard hrun).resolve_left hleft
  by_cases room : p₁.used < p₁.budget
  · have hm₂ : PassMoves s.pass p₁.schedulePartialPrefills :=
      hm₁.trans (Pass.partialLoop_moves _ p₁.partialGuard_candidates)
    have hend : p₁.schedulePartialPrefills.admissionLoop = s.passes := hpasses.symm
    have hserved := Pass.schedulePartialPrefills_served h₁ room hrest hdec
    obtain ⟨q, rest'', hrun₂⟩ : ∃ q rest'',
        p₁.schedulePartialPrefills.sched.running = q :: rest'' :=
      hserved.imp (fun q hq' => hq'.imp (fun rest'' hr => hr.1))
    have hlast := hserved.admissionLoop (PassMoves.sound hm₂ h.sound)
      (h.headSafe_decoded hway hrun hm₂ hend p₁.schedulePartialPrefills_resumes.cache hrun₂)
    rw [hend] at hlast
    exact h.getsOn_of_served hlast (ahead_of_queue (queue_of_running hrun)).ge
  · -- the budget goes into tokens
    have hdue := Pass.decodeLoop_spent (Pass.decodeCandidates s.running) (p := s.pass) h.sound
      hguard h.budget (not_lt.mp room)
    have hstop : s.passes = p₁ := hpasses.trans (Pass.schedulePrefills_spent (not_lt.mp room))
    refine .due ?_
    show s.passes.sched.Due s.passes.out.scheduled
    rw [hstop]
    exact hdue

/-- **A call with the decode pass first gets on.** -/
theorem getsOn_decode_first (h : s.Serving n bs flag) (hbs : 1 ≤ bs) (hn : n ≤ 2 ^ 32)
    (hfirst : s.config.prioritizeDecode = true) (hwork : s.queue ≠ [])
    (hway : s.Calm ∨ s.queue.length ≤ 1 ∨ s.config.maxNumSeqs ≤ 1 ∨ s.PairFits) :
    s.GetsOn s.schedule.1 s.schedule.2.scheduled := by
  have hpasses : s.passes = s.pass.scheduleDecodes.schedulePrefills := if_pos hfirst
  rcases hrun : s.running with - | ⟨head, rest⟩
  · exact h.getsOn_idle hway hpasses hrun hwork
  by_cases hdec : head.state = .decoding
  · exact h.getsOn_decoder hbs hn hway hpasses hrun hdec
  · exact h.getsOn_reader hway hpasses hrun hdec

/-! ## The prefill pass first -/

/-- A prefill pass that evicts nobody is safe for the head throughout. -/
theorem headSafe_fitting (hpre : s.pass.schedulePrefills.out.preempted = [])
    {p : Pass KvCacheManager} (hend : p.admissionLoop = s.pass.schedulePrefills) :
    p.HeadSafe := by
  refine Or.inr (Or.inr (Or.inr ?_))
  rw [hend, hpre]
  refine (List.eq_nil_iff_forall_not_mem.mpr (fun id hid => ?_)).symm
  have hkept := PassMoves.preempted_subset (Pass.admissionLoop_moves p) id hid
  rw [hend, hpre] at hkept
  exact List.not_mem_nil hkept

/-- What the prefill pass has served is served by the call, if the decode pass
has no room or leaves somebody. -/
theorem getsOn_of_prefilled (h : s.Serving n bs flag)
    (hpasses : s.passes = s.pass.schedulePrefills.scheduleDecodes)
    (hleft : s.pass.schedulePrefills.budget ≤ s.pass.schedulePrefills.used
      ∨ s.pass.schedulePrefills.scheduleDecodes.sched.running ≠ [])
    {k : ℕ} (hserved : s.pass.schedulePrefills.Served k) (hk : k ≤ s.ahead) :
    s.GetsOn s.schedule.1 s.schedule.2.scheduled := by
  have h₂ : s.pass.schedulePrefills.sched.Serving n bs flag :=
    Pass.serving_schedulePrefills (p := s.pass) h
  have hserved' : s.passes.Served k := by
    rw [hpasses]
    rcases hleft with hspent | hleft
    · rw [Pass.scheduleDecodes_idle (Or.inr hspent)]
      exact hserved
    · exact hserved.scheduleDecodes h₂.sound hleft
  exact h.getsOn_of_served hserved' hk

/-- Nobody runs: the prefill pass admits the head of the waiting queue. -/
theorem served_idle (h : s.Serving n bs flag)
    (hpre : s.pass.schedulePrefills.out.preempted = []) (hrun : s.running = [])
    (hwork : s.queue ≠ []) : s.pass.schedulePrefills.Served s.ahead := by
  obtain ⟨head, rest, hw, hahead, hshort⟩ := h.head_waiting hrun hwork
  have hnone : s.pass.schedulePartialPrefills = s.pass := by
    refine Pass.schedulePartialPrefills_eq_self (fun r hr => ?_)
    rw [show s.pass.sched.running = [] from hrun] at hr
    exact absurd hr List.not_mem_nil
  have hloop : s.pass.admissionLoop = s.pass.schedulePrefills := by
    unfold Pass.schedulePrefills
    rw [hnone]
  rcases Pass.admissionLoop_served (p := s.pass) h h.budget hrun hw
    (fun _ hloop₁ _ => headSafe_fitting hpre (hloop₁.trans hloop)) with ⟨-, hoff, hlong⟩ | hserved
  · exact absurd hlong (not_lt.mpr (hshort hoff))
  · rw [hloop, ← hahead] at hserved
    exact hserved

/-- The head decodes and the budget goes into prompts. -/
theorem getsOn_reading (h : s.Serving n bs flag)
    (hpre : s.pass.schedulePrefills.out.preempted = [])
    (hpasses : s.passes = s.pass.schedulePrefills.scheduleDecodes)
    (hspent : s.pass.schedulePrefills.budget ≤ s.pass.schedulePrefills.used) {head : Sequence}
    {rest rest' : List Sequence} (hrun : s.running = head :: rest)
    (hrun' : s.pass.schedulePrefills.sched.running = head :: rest') :
    s.GetsOn s.schedule.1 s.schedule.2.scheduled := by
  have h₂ : s.pass.schedulePrefills.sched.Serving n bs flag :=
    Pass.serving_schedulePrefills (p := s.pass) h
  have hidle : s.passes = s.pass.schedulePrefills :=
    hpasses.trans (Pass.scheduleDecodes_idle (Or.inr hspent))
  have hread : s.pass.schedulePrefills.sched.unread + s.pass.schedulePrefills.used
      = s.unread + 0 := by
    refine PassMoves.unread (Pass.schedulePrefills_moves _) h.sound hpre (fun d hd => ?_)
    exact (s.pass.schedulePrefills_scheduled d hd).resolve_left List.not_mem_nil
  have hused : 0 < s.pass.schedulePrefills.used := lt_of_lt_of_le h₂.budget hspent
  refine .read ?_ ?_
  · show s.passes.sched.ahead = s.ahead
    rw [hidle, ahead_of_queue (queue_of_running hrun), ahead_of_queue (queue_of_running hrun')]
  · show s.passes.sched.unread < s.unread
    rw [hidle]
    omega

/-- **A call with the prefill pass first gets on.** -/
theorem getsOn_prefill_first (h : s.Serving n bs flag) (hbs : 1 ≤ bs) (hn : n ≤ 2 ^ 32)
    (hlast : s.config.prioritizeDecode = false) (hwork : s.queue ≠ [])
    (hfits : Fits s.cache (s.admissions s.prefillRoom))
    (hway : s.decodeQuota = 0
      ∨ ¬ (allocateAll s.cache (s.admissions s.prefillRoom)).EvictsFrom
        (s.running.map Sequence.id ++ (s.admissions s.prefillRoom).map (fun x => x.1.id)) 0) :
    s.GetsOn s.schedule.1 s.schedule.2.scheduled := by
  obtain ⟨hpasses, hpre, hspent, hcache, hids⟩ := h.sound.prefills_first hlast hfits
  have h₂ : s.pass.schedulePrefills.sched.Serving n bs flag :=
    Pass.serving_schedulePrefills (p := s.pass) h
  have hs₁ : s.pass.schedulePartialPrefills.sched.Sound :=
    PassMoves.sound (Pass.partialLoop_moves _ s.pass.partialGuard_candidates) h.sound
  have hsafe : s.pass.schedulePartialPrefills.HeadSafe := headSafe_fitting hpre rfl
  set p₂ := s.pass.schedulePrefills with hp₂
  -- the decode pass has no room or leaves somebody
  have hleft : p₂.budget ≤ p₂.used ∨ p₂.scheduleDecodes.sched.running ≠ [] := by
    by_cases hquota : s.decodeQuota = 0
    · exact Or.inl (hspent hquota)
    · refine Or.inr (Pass.scheduleDecodes_leaves h₂.sound
        (fun hand => hway.resolve_left hquota ?_))
      rw [← hcache, ← hids]
      exact hand.2
  rcases hrun : s.running with - | ⟨head, rest⟩
  · exact h.getsOn_of_prefilled hpasses hleft (h.served_idle hpre hrun hwork) le_rfl
  by_cases hdec : head.state = .decoding
  swap
  · have hserved := Pass.schedulePartialPrefills_served (p := s.pass) h h.budget hrun hdec
    exact h.getsOn_of_prefilled hpasses hleft (hserved.admissionLoop hs₁ hsafe)
      (ahead_of_queue (queue_of_running hrun)).ge
  -- a decoder at the head keeps its place
  obtain ⟨rest₁, hfront⟩ := Pass.schedulePartialPrefills_front (p := s.pass) h.sound hrun
    (by rw [hdec]; simp)
  obtain ⟨rest₂, hrun₂⟩ : ∃ rest₂, p₂.sched.running = head :: rest₂ :=
    Pass.admissionLoop_head hs₁ hsafe hfront
  by_cases room : p₂.used < p₂.budget
  swap
  · exact h.getsOn_reading hpre hpasses (not_lt.mp room) hrun hrun₂
  have hcands := hrun₂ ▸ Pass.decodeCandidates_cons hdec rest₂
  have hloop : p₂.decodeLoop ((head.id, head.totalLen) :: Pass.decodeCandidates rest₂)
      = p₂.scheduleDecodes := by
    rw [← hcands]
    rfl
  have hserves := Pass.decodeLoop_serves hbs hn h₂.sound h₂.cache
    (hcands ▸ p₂.decodeGuard_candidates) room
    (fun r hr => (h₂.ready r (List.mem_append_left _ hr)).live) hrun₂ hdec
  rw [hloop] at hserves
  obtain ⟨⟨rest₃, hrun₃⟩, hentry⟩ := hserves.resolve_left (hleft.resolve_left (not_le.mpr room))
  have hserved : s.passes.Served s.ahead := by
    rw [hpasses]
    exact ⟨head, rest₃, hrun₃, hentry, Or.inl hdec⟩
  exact h.getsOn_of_served hserved le_rfl

/-- **Step lemma**: a call with headway gets on. -/
theorem getsOn (h : s.Serving n bs flag) (hbs : 1 ≤ bs) (hn : n ≤ 2 ^ 32)
    (hwork : s.queue ≠ []) (hway : s.Headway) : s.GetsOn s.schedule.1 s.schedule.2.scheduled := by
  unfold Headway at hway
  split at hway
  · next hfirst => exact h.getsOn_decode_first hbs hn hfirst hwork hway
  · next hlast =>
    exact h.getsOn_prefill_first hbs hn (by simpa using hlast) hwork hway.1 hway.2

end Serving

end Scheduler
