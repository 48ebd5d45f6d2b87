import OrionServe.SchedulerEntries

/-!
# Turns of the serving loop

A turn is what a step does to the scheduler when the model and the callers
play along: a `schedule` call, a token for every entry whose sequence is
running, unfinished and through with its prompt, and a reap. The tokens are
arbitrary: the entry at position `i` of the batch gets `tokens i`.

The first thing to know about turns is what the passes do when there is one
sequence only – over any cache, case by case on where that sequence is.
-/

variable {C : Type*} [KvCacheManagerLike C]

namespace Scheduler

/-! ## Turns -/

/-- Whether a token is due to a sequence. -/
def takesToken (s : Scheduler C) (id : SequenceId) : Bool :=
  (s.runningSequence id).any (fun q => !q.isFinished && q.isPrefillComplete)

/-- The token for one entry of a batch. -/
def answerEntry (eosIds : List TokenId) (tokens : ℕ → TokenId) (s : Scheduler C)
    (x : ScheduledSequence × ℕ) : Scheduler C :=
  if s.takesToken x.1.id then (s.onToken x.1.id (tokens x.2) eosIds).1 else s

/-- The tokens for a batch, in the order of its entries. -/
def answer (eosIds : List TokenId) (tokens : ℕ → TokenId) (s : Scheduler C)
    (scheduled : List ScheduledSequence) : Scheduler C :=
  scheduled.zipIdx.foldl (answerEntry eosIds tokens) s

/-- **One turn**, with the batch it scheduled. -/
def turn (eosIds : List TokenId) (tokens : ℕ → TokenId) (s : Scheduler C) :
    Scheduler C × SchedulerOutput :=
  ((s.schedule.1.answer eosIds tokens s.schedule.2.scheduled).reapFinished.1, s.schedule.2)

/-- The scheduler after so many turns. -/
def turns (eosIds : List TokenId) (tokens : ℕ → ℕ → TokenId) (s : Scheduler C) :
    ℕ → Scheduler C
  | 0 => s
  | k + 1 => ((s.turns eosIds tokens k).turn eosIds (tokens k)).1

/-- Turns follow each other. -/
theorem turns_add (eosIds : List TokenId) (tokens : ℕ → ℕ → TokenId) (s : Scheduler C)
    (j k : ℕ) : s.turns eosIds tokens (j + k)
      = (s.turns eosIds tokens j).turns eosIds (fun i => tokens (j + i)) k := by
  induction k with
  | zero => rfl
  | succ k ih =>
    show ((s.turns eosIds tokens (j + k)).turn eosIds (tokens (j + k))).1 = _
    rw [ih]
    rfl

end Scheduler

namespace Pass

variable {p : Pass C} {q : Sequence}

/-! ## The prefill pass with one sequence -/

omit [KvCacheManagerLike C] in
/-- Nothing in the middle of its prompt, nothing to resume. -/
theorem schedulePartialPrefills_eq_self
    (h : ∀ r ∈ p.sched.running, (r.state = .prefilling && !r.isPrefillComplete) = false) :
    p.schedulePartialPrefills = p := by
  have hnil : partialCandidates p.sched.running = [] := by
    unfold partialCandidates
    rw [List.filter_eq_nil_iff.mpr (fun r hr => by rw [h r hr]; simp)]
    rfl
  unfold schedulePartialPrefills
  rw [hnil]
  rfl

/-- Nobody waits, nobody is admitted. -/
theorem admissionLoop_of_waiting_nil (h : p.sched.waiting = []) : p.admissionLoop = p := by
  rw [admissionLoop]
  split
  · rfl
  · split
    · rfl
    · next hw => exact absurd (h.symm.trans hw) (by simp)

/-- The head of the queue is admitted. -/
theorem admissionLoop_admit {seq : Sequence} {rest : List Sequence} {chunk : ℕ} {c : C}
    (slot : p.sched.running.length < p.sched.config.maxNumSeqs) (room : p.used < p.budget)
    (hw : p.sched.waiting = seq :: rest)
    (hc : chunkFor p.sched.config (seq.promptLen - seq.computedPrefixLen) (p.budget - p.used)
      = some chunk) (hpos : chunk ≠ 0) (hfirst : seq.computedPrefixLen = 0)
    (hcan : KvCacheManagerLike.canAllocate p.sched.cache seq.promptLen = true)
    (ha : KvCacheManagerLike.allocate p.sched.cache seq.id seq.prompt = (c, .ok ())) :
    p.admissionLoop = ((p.withCache c).bringIn seq rest chunk).admissionLoop := by
  rw [admissionLoop, if_neg (not_or.mpr ⟨not_le.mpr slot, not_le.mpr room⟩)]
  split
  · next hnil => exact absurd (hw.symm.trans hnil) (by simp)
  next seq' rest' hw' =>
  obtain ⟨rfl, rfl⟩ := List.cons.inj (hw.symm.trans hw')
  split
  · next hnone => exact absurd (hc.symm.trans hnone) (by simp)
  next chunk' hc' =>
  obtain rfl := Option.some.inj (hc.symm.trans hc')
  rw [dif_neg hpos, if_pos hfirst, if_pos hcan, ha]

/-- The head of the queue does not fit, and the newest running sequence makes
room. -/
theorem admissionLoop_evict {seq : Sequence} {rest : List Sequence} {chunk : ℕ} {p' : Pass C}
    (slot : p.sched.running.length < p.sched.config.maxNumSeqs) (room : p.used < p.budget)
    (hw : p.sched.waiting = seq :: rest)
    (hc : chunkFor p.sched.config (seq.promptLen - seq.computedPrefixLen) (p.budget - p.used)
      = some chunk) (hpos : chunk ≠ 0) (hfirst : seq.computedPrefixLen = 0)
    (hfull : ¬ KvCacheManagerLike.canAllocate p.sched.cache seq.promptLen = true)
    (hev : p.preemptOne = some p') : p.admissionLoop = p'.admissionLoop := by
  rw [admissionLoop, if_neg (not_or.mpr ⟨not_le.mpr slot, not_le.mpr room⟩)]
  split
  · next hnil => exact absurd (hw.symm.trans hnil) (by simp)
  next seq' rest' hw' =>
  obtain ⟨rfl, rfl⟩ := List.cons.inj (hw.symm.trans hw')
  split
  · next hnone => exact absurd (hc.symm.trans hnone) (by simp)
  next chunk' hc' =>
  obtain rfl := Option.some.inj (hc.symm.trans hc')
  rw [dif_neg hpos, if_pos hfirst, if_neg hfull]
  split
  · next hnone => exact absurd (hev.symm.trans hnone) (by simp)
  next p₁ hsome =>
  obtain rfl := Option.some.inj (hev.symm.trans hsome)
  rfl

/-- The head of the queue gets nothing, so nobody does. -/
theorem admissionLoop_blocked {seq : Sequence} {rest : List Sequence}
    (hw : p.sched.waiting = seq :: rest)
    (hc : ∀ chunk, chunkFor p.sched.config (seq.promptLen - seq.computedPrefixLen)
      (p.budget - p.used) = some chunk → chunk = 0) : p.admissionLoop = p := by
  rw [admissionLoop]
  split
  · rfl
  split
  · rfl
  next seq' rest' hw' =>
  obtain ⟨rfl, rfl⟩ := List.cons.inj (hw.symm.trans hw')
  split
  · rfl
  next chunk hc' => rw [dif_pos (hc chunk hc')]

/-- **A lone sequence is admitted.** -/
theorem schedulePrefills_admit {chunk : ℕ} {c : C} (hrun : p.sched.running = [])
    (hw : p.sched.waiting = [q]) (slot : 0 < p.sched.config.maxNumSeqs)
    (room : p.used < p.budget)
    (hc : chunkFor p.sched.config (q.promptLen - q.computedPrefixLen) (p.budget - p.used)
      = some chunk) (hpos : chunk ≠ 0) (hfirst : q.computedPrefixLen = 0)
    (hcan : KvCacheManagerLike.canAllocate p.sched.cache q.promptLen = true)
    (ha : KvCacheManagerLike.allocate p.sched.cache q.id q.prompt = (c, .ok ())) :
    p.schedulePrefills = (p.withCache c).bringIn q [] chunk := by
  unfold schedulePrefills
  rw [schedulePartialPrefills_eq_self (fun r hr => absurd hr (by rw [hrun]; simp)),
    admissionLoop_admit (by rw [hrun]; exact slot) room hw hc hpos hfirst hcan ha]
  exact admissionLoop_of_waiting_nil rfl

omit [KvCacheManagerLike C] in
theorem partialCandidates_cons (hstate : q.state = .prefilling)
    (hleft : q.computedPrefixLen < q.prompt.length) (rest : List Sequence) :
    partialCandidates (q :: rest)
      = (q.id, q.computedPrefixLen, q.remainingPrefill) :: partialCandidates rest := by
  unfold partialCandidates
  rw [List.filter_cons_of_pos]
  · rfl
  · unfold Sequence.isPrefillComplete
    simp [hstate, hleft]

omit [KvCacheManagerLike C] in
/-- Nobody else runs: the partial prefills are the next chunk of the one
sequence that does. -/
theorem schedulePartialPrefills_resume {chunk : ℕ} (hrun : p.sched.running = [q])
    (hstate : q.state = .prefilling) (hleft : q.computedPrefixLen < q.prompt.length)
    (room : p.used < p.budget)
    (hc : chunkFor p.sched.config q.remainingPrefill (p.budget - p.used) = some chunk)
    (hpos : chunk ≠ 0) :
    p.schedulePartialPrefills
      = ({ p with sched := { p.sched with running := [resumed q chunk] } } : Pass C).emit
        ⟨q.id, chunk, q.computedPrefixLen, true⟩ := by
  have hcands : partialCandidates p.sched.running
      = [(q.id, q.computedPrefixLen, q.remainingPrefill)] := by
    rw [hrun]
    exact partialCandidates_cons hstate hleft []
  have hfind : p.sched.running.findKey Sequence.id q.id = some q := by
    rw [hrun]
    simp [List.findKey]
  have hupdate : p.sched.running.updateKey Sequence.id q.id (resumed · chunk)
      = [resumed q chunk] := by
    rw [hrun]
    simp [List.updateKey]
  unfold schedulePartialPrefills
  rw [hcands]
  simp only [partialLoop, if_neg (not_le.mpr room), hc, if_neg hpos, hfind, hupdate]

/-- A lone sequence in the middle of its prompt goes on with it. -/
theorem schedulePrefills_resume {chunk : ℕ} (hrun : p.sched.running = [q])
    (hw : p.sched.waiting = []) (hstate : q.state = .prefilling)
    (hleft : q.computedPrefixLen < q.prompt.length) (room : p.used < p.budget)
    (hc : chunkFor p.sched.config q.remainingPrefill (p.budget - p.used) = some chunk)
    (hpos : chunk ≠ 0) :
    p.schedulePrefills = ({ p with sched := { p.sched with running := [resumed q chunk] } }
      : Pass C).emit ⟨q.id, chunk, q.computedPrefixLen, true⟩ := by
  unfold schedulePrefills
  rw [schedulePartialPrefills_resume hrun hstate hleft room hc hpos]
  exact admissionLoop_of_waiting_nil hw

/-- With nothing to resume and nobody waiting there is nothing to do. -/
theorem schedulePrefills_idle
    (h : ∀ r ∈ p.sched.running, (r.state = .prefilling && !r.isPrefillComplete) = false)
    (hw : p.sched.waiting = []) : p.schedulePrefills = p := by
  unfold schedulePrefills
  rw [schedulePartialPrefills_eq_self h]
  exact admissionLoop_of_waiting_nil hw

/-! ## The decode pass with one sequence -/

/-- Nobody decodes, or there is no room. -/
theorem scheduleDecodes_idle
    (h : (∀ r ∈ p.sched.running, r.state ≠ .decoding) ∨ p.budget ≤ p.used) :
    p.scheduleDecodes = p := by
  unfold scheduleDecodes
  rcases h with h | h
  · have hnil : decodeCandidates p.sched.running = [] := by
      unfold decodeCandidates
      rw [List.filter_eq_nil_iff.mpr (fun r hr => by simpa using h r hr)]
      rfl
    rw [hnil]
    rfl
  · cases decodeCandidates p.sched.running with
    | nil => rfl
    | cons c cands =>
      unfold decodeLoop
      exact if_pos h

omit [KvCacheManagerLike C] in
theorem decodeCandidates_cons (hstate : q.state = .decoding) (rest : List Sequence) :
    decodeCandidates (q :: rest) = (q.id, q.totalLen) :: decodeCandidates rest := by
  unfold decodeCandidates
  rw [List.filter_cons_of_pos (by simpa using hstate)]
  rfl

omit [KvCacheManagerLike C] in
theorem decodeCandidates_singleton (hstate : q.state = .decoding) :
    decodeCandidates [q] = [(q.id, q.totalLen)] := decodeCandidates_cons hstate []

/-- The cache grows. -/
theorem scheduleDecodes_append {c : C} (hrun : p.sched.running = [q])
    (hstate : q.state = .decoding) (room : p.used < p.budget)
    (ha : KvCacheManagerLike.appendToken p.sched.cache q.id = (c, .ok ())) :
    p.scheduleDecodes = (p.withCache c).emit (decodeEntry q.id q.totalLen) := by
  unfold scheduleDecodes
  rw [hrun, decodeCandidates_singleton hstate]
  simp only [decodeLoop, if_neg (not_le.mpr room), ha]

/-- **It does not**: the sequence makes room for itself. -/
theorem scheduleDecodes_refused {c : C} {err : EngineError} (hrun : p.sched.running = [q])
    (hstate : q.state = .decoding) (room : p.used < p.budget)
    (ha : KvCacheManagerLike.appendToken p.sched.cache q.id = (c, .error err)) :
    q.id ∈ p.scheduleDecodes.out.preempted := by
  have hevict : (p.withCache c).preemptOne = some { p.withCache c with
      sched := { (p.withCache c).sched with
        running := []
        cache := KvCacheManagerLike.free c q.id
        waiting := q.preempt.1 :: p.sched.waiting
        trace := .preempted q :: p.sched.trace }
      out := { p.out with preempted := p.out.preempted ++ [q.id] } } := by
    unfold preemptOne
    have hlast : (p.withCache c).sched.running.getLast? = some q := by
      show p.sched.running.getLast? = _
      rw [hrun]
      rfl
    rw [hlast]
    show some _ = some _
    rw [show (p.withCache c).sched.running = [q] from hrun]
    rfl
  unfold scheduleDecodes
  rw [hrun, decodeCandidates_singleton hstate]
  simp only [decodeLoop, if_neg (not_le.mpr room), ha, hevict]
  split <;> exact List.mem_append_right _ (List.mem_singleton.mpr rfl)

end Pass

/-- No pass takes an id out of the evictions. -/
theorem PassMoves.preempted_subset {p p' : Pass C} (h : PassMoves p p') :
    ∀ id ∈ p.out.preempted, id ∈ p'.out.preempted := by
  induction h with
  | refl => exact fun _ hid => hid
  | tail _ hmove ih =>
    intro id hid
    have hmem := ih id hid
    cases hmove with
    | refused answer result => rw [result]; exact hmem
    | decoded room answer cand result => rw [result]; exact hmem
    | evicted result =>
      obtain ⟨older, victim, -, rfl⟩ := Pass.preemptOne_eq_some result
      exact List.mem_append_left _ hmem
    | resumed found cand pos room result => rw [result]; exact hmem
    | admitted head first slot pos left room answer result => rw [result]; exact hmem
    | readmitted head started slot pos left room result => rw [result]; exact hmem
    | putBack head available answer result => rw [result]; exact hmem

/-! ## The configuration stays -/

theorem PassMoves.config {p p' : Pass C} (h : PassMoves p p') :
    p'.sched.config = p.sched.config := by
  induction h with
  | refl => rfl
  | tail _ hmove ih =>
    rw [← ih]
    cases hmove with
    | refused answer result => rw [result]; rfl
    | decoded room answer cand result => rw [result]; rfl
    | evicted result =>
      obtain ⟨older, victim, -, rfl⟩ := Pass.preemptOne_eq_some result
      rfl
    | resumed found cand pos room result => rw [result]; rfl
    | admitted head first slot pos left room answer result => rw [result]; rfl
    | readmitted head started slot pos left room result => rw [result]; rfl
    | putBack head available answer result => rw [result]

namespace Scheduler

theorem schedule_config (s : Scheduler C) : s.schedule.1.config = s.config :=
  PassMoves.config s.passes_moves

theorem addRequest_config (s : Scheduler C) (seq : Sequence) :
    (s.addRequest seq).1.config = s.config := by
  rcases s.addRequest_cases seq with ⟨e, he⟩ | ⟨hok, -⟩
  · rw [he]
  · rw [hok]

theorem cancel_config (s : Scheduler C) (id : SequenceId) :
    (s.cancel id).1.config = s.config := by
  unfold cancel
  split
  · rfl
  · split <;> rfl

omit [KvCacheManagerLike C] in
theorem onToken_config (s : Scheduler C) (id : SequenceId) (token : TokenId)
    (eosIds : List TokenId) : (s.onToken id token eosIds).1.config = s.config := by
  unfold onToken
  split <;> rfl

omit [KvCacheManagerLike C] in
theorem expireTimeouts_config (s : Scheduler C) (now : Instant) :
    (s.expireTimeouts now).1.config = s.config := by
  unfold expireTimeouts
  split <;> rfl

theorem commitPrefill_config (s : Scheduler C) (id : SequenceId) :
    (s.commitPrefill id).config = s.config := by
  unfold commitPrefill
  split
  · rfl
  · split <;> rfl

end Scheduler

/-- **A run never changes the configuration.** -/
theorem Service.Reachable.config {config : SchedulerConfig} {cache : C} {firstId : ℕ}
    {v : Service C} (h : v.Reachable config cache firstId) : v.sched.config = config := by
  induction h with
  | start => rfl
  | @step v op _ ih =>
    rw [← ih]
    cases op with
    | addRequest prompt params now => exact Scheduler.addRequest_config _ _
    | schedule => exact v.sched.schedule_config
    | onToken id token eosIds => exact v.sched.onToken_config id token eosIds
    | reapFinished => rfl
    | cancel id => exact v.sched.cancel_config id
    | expireTimeouts now => exact v.sched.expireTimeouts_config now
    | commitPrefill id => exact v.sched.commitPrefill_config id
