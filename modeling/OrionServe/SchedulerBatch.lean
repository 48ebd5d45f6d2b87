import OrionServe.SchedulerReach

/-!
# Whether a batch is well formed

A batch should name every sequence once, none that was evicted in the same
call, and only sequences that are running and hold a table. The passes do not
see to that: a sequence whose prompt a prefill-first call completes is a
decoder by the time the decode pass of the same call collects its candidates,
and an eviction takes no entry out of the batch and puts its victim at the
head of the queue that the admission loop goes on to drain.

Neither happens in a call that evicts nobody and does not come back to what it
has prefilled. `Scheduler.Calm` says so of the state before the call: the cache
grows for each decoder in turn and has room for each admission in turn, and
the token counts keep the decode pass among the sequences that were decoding
before.
-/

variable {C : Type*} [KvCacheManagerLike C]

/-! ## The plan of a call

What the passes do with the token budget, as long as the cache never says
no. -/

/-- Room for one more token each, in turn. -/
def Grows (c : C) : List SequenceId → Prop
  | [] => True
  | id :: ids => (KvCacheManagerLike.appendToken c id).2 = .ok ()
    ∧ Grows (KvCacheManagerLike.appendToken c id).1 ids

instance decidableGrows : (c : C) → (ids : List SequenceId) → Decidable (Grows c ids)
  | _, [] => inferInstanceAs (Decidable True)
  | c, id :: ids =>
    have := decidableGrows (KvCacheManagerLike.appendToken c id).1 ids
    inferInstanceAs (Decidable ((KvCacheManagerLike.appendToken c id).2 = .ok ()
      ∧ Grows (KvCacheManagerLike.appendToken c id).1 ids))

/-- The cache after one more token each. -/
def appendAll (c : C) (ids : List SequenceId) : C :=
  ids.foldl (fun c id => (KvCacheManagerLike.appendToken c id).1) c

/-- The waiting sequences an admission loop with so many slots and so much
room gets to, with the chunk each is given. -/
def admissionPlan (config : SchedulerConfig) :
    ℕ → ℕ → List Sequence → List (Sequence × ℕ)
  | 0, _, _ => []
  | _, _, [] => []
  | slots + 1, room, w :: ws =>
    match Pass.chunkFor config (w.promptLen - w.computedPrefixLen) room with
    | none => []
    | some chunk =>
      if chunk = 0 then [] else (w, chunk) :: admissionPlan config slots (room - chunk) ws

/-- Room for the prompt of each, in turn, and none of them started. -/
def Fits (c : C) : List (Sequence × ℕ) → Prop
  | [] => True
  | (w, _) :: plan => w.computedPrefixLen = 0
    ∧ KvCacheManagerLike.canAllocate c w.promptLen = true
    ∧ Fits (KvCacheManagerLike.allocate c w.id w.prompt).1 plan

instance decidableFits : (c : C) → (plan : List (Sequence × ℕ)) → Decidable (Fits c plan)
  | _, [] => inferInstanceAs (Decidable True)
  | c, (w, _) :: plan =>
    have := decidableFits (KvCacheManagerLike.allocate c w.id w.prompt).1 plan
    inferInstanceAs (Decidable (w.computedPrefixLen = 0
      ∧ KvCacheManagerLike.canAllocate c w.promptLen = true
      ∧ Fits (KvCacheManagerLike.allocate c w.id w.prompt).1 plan))

/-- The cache after the allocations. -/
def allocateAll (c : C) (plan : List (Sequence × ℕ)) : C :=
  plan.foldl (fun c x => (KvCacheManagerLike.allocate c x.1.id x.1.prompt).1) c

/-- The tokens that resuming these partial prefills takes. -/
def partialTokens (config : SchedulerConfig) : ℕ → List (SequenceId × ℕ × ℕ) → ℕ
  | _, [] => 0
  | room, (_, _, remaining) :: cands =>
    match Pass.chunkFor config remaining room with
    | none => partialTokens config room cands
    | some chunk => chunk + partialTokens config (room - chunk) cands

namespace Scheduler

/-- The admissions of a call whose prefill pass starts with so much room. -/
def admissions (s : Scheduler C) (room : ℕ) : List (Sequence × ℕ) :=
  admissionPlan s.config (s.config.maxNumSeqs - s.running.length)
    (room - partialTokens s.config room (Pass.partialCandidates s.running)) s.waiting

/-- The tokens its prefill pass takes. -/
def prefillTokens (s : Scheduler C) (room : ℕ) : ℕ :=
  partialTokens s.config room (Pass.partialCandidates s.running)
    + ((s.admissions room).map Prod.snd).sum

/-- How many decode entries the budget allows for. -/
def decodeQuota (s : Scheduler C) : ℕ :=
  if s.config.prioritizeDecode then s.config.maxNumBatchedTokens
  else s.config.maxNumBatchedTokens - s.prefillTokens s.config.maxNumBatchedTokens

/-- The decode entries of a call, as far as the budget goes. -/
def decodes (s : Scheduler C) : List (SequenceId × ℕ) :=
  (Pass.decodeCandidates s.running).take s.decodeQuota

/-- The room the prefill pass of a call starts with. -/
def prefillRoom (s : Scheduler C) : ℕ :=
  if s.config.prioritizeDecode then s.config.maxNumBatchedTokens - s.decodes.length
  else s.config.maxNumBatchedTokens

/-- The running sequences before the first one in the middle of its prompt. -/
def leading (s : Scheduler C) : List Sequence :=
  s.running.takeWhile (fun r => r.state ≠ .prefilling)

/-- **Nothing in the way of a call.** What it would append and admit, taken one
after the other without evicting anybody, there are blocks for; and no sequence
that its prefill pass finishes gets a decode entry as well. All of it is read off
the state before the call. -/
structure Calm (s : Scheduler C) : Prop where
  /-- `append_token` succeeds for each decoder in turn. -/
  grows : Grows (if s.config.prioritizeDecode then s.cache
    else allocateAll s.cache (s.admissions s.prefillRoom)) (s.decodes.map Prod.fst)
  /-- `can_allocate` says yes for each admission in turn. -/
  fits : Fits (if s.config.prioritizeDecode then appendAll s.cache (s.decodes.map Prod.fst)
    else s.cache) (s.admissions s.prefillRoom)
  /-- A decode pass that comes last has nothing before it, or ends among the
  sequences that were decoding before. -/
  once : s.config.prioritizeDecode = true ∨ s.prefillTokens s.prefillRoom = 0
    ∨ s.decodeQuota ≤ (Pass.decodeCandidates s.leading).length

end Scheduler

/-- **A well-formed batch**, for the scheduler as it is after the call: `build_batch`
takes it entry by entry, looks up the sequence and its table, and puts a row for
every token of each, so an entry must be the only one of its sequence, and its
sequence still there. -/
structure WellFormedBatch (s : Scheduler KvCacheManager) (out : SchedulerOutput) : Prop where
  once : (out.scheduled.map ScheduledSequence.id).Nodup
  kept : ∀ e ∈ out.scheduled, e.id ∉ out.preempted
  held : ∀ e ∈ out.scheduled, e.id ∈ s.running.map Sequence.id
    ∧ s.cache.isAllocated e.id = true

namespace Pass

/-! ## The decode pass -/

/-- A decode pass that goes through. -/
structure Decodes (p p' : Pass C) (cands : List (SequenceId × ℕ)) : Prop where
  config : p'.sched.config = p.sched.config
  waiting : p'.sched.waiting = p.sched.waiting
  running : p'.sched.running = p.sched.running
  cache : p'.sched.cache = appendAll p.sched.cache (cands.map Prod.fst)
  scheduled : p'.out.scheduled
    = p.out.scheduled ++ cands.map (fun c => decodeEntry c.1 c.2)
  preempted : p'.out.preempted = p.out.preempted
  used : p'.used = p.used + cands.length

/-- **Loop lemma**: as long as the cache grows, the candidates the budget
reaches are decoded and nothing else happens. -/
theorem decodeLoop_calm (cands : List (SequenceId × ℕ)) :
    ∀ {p : Pass C}, Grows p.sched.cache ((cands.take (p.budget - p.used)).map Prod.fst) →
      Decodes p (p.decodeLoop cands) (cands.take (p.budget - p.used)) := by
  induction cands with
  | nil =>
    intro p _
    rw [List.take_nil]
    exact ⟨rfl, rfl, rfl, rfl, (List.append_nil _).symm, rfl, rfl⟩
  | cons c cands ih =>
    intro p hgrows
    obtain ⟨id, totalLen⟩ := c
    unfold decodeLoop
    split
    · next hfull =>
      rw [Nat.sub_eq_zero_of_le hfull]
      exact ⟨rfl, rfl, rfl, rfl, (List.append_nil _).symm, rfl, rfl⟩
    · next hroom =>
      obtain ⟨k, hk⟩ : ∃ k, p.budget - p.used = k + 1 :=
        ⟨p.budget - p.used - 1, by omega⟩
      rw [hk] at hgrows ⊢
      obtain ⟨hok, hrest⟩ := hgrows
      have hanswer : KvCacheManagerLike.appendToken p.sched.cache id
          = ((KvCacheManagerLike.appendToken p.sched.cache id).1, .ok ()) :=
        Prod.ext rfl hok
      rw [hanswer]
      set p₁ := (p.withCache (KvCacheManagerLike.appendToken p.sched.cache id).1).emit
        (decodeEntry id totalLen) with hp₁
      have hleft : p₁.budget - p₁.used = k := by
        show p.budget - (p.used + 1) = k
        omega
      have hd := ih (p := p₁) (by rw [hleft]; exact hrest)
      rw [hleft] at hd
      refine ⟨hd.config, hd.waiting, hd.running, hd.cache, ?_, hd.preempted, ?_⟩
      · rw [hd.scheduled]
        show p.out.scheduled ++ [decodeEntry id totalLen] ++ _ = _
        rw [List.append_assoc]
        rfl
      · rw [hd.used]
        show p.used + 1 + _ = _
        rw [List.take_succ_cons, List.length_cons]
        omega

/-! ## The partial prefills -/

/-- A partial-prefill pass. -/
structure Resumes (p p' : Pass C) (cands : List (SequenceId × ℕ × ℕ)) : Prop where
  config : p'.sched.config = p.sched.config
  waiting : p'.sched.waiting = p.sched.waiting
  cache : p'.sched.cache = p.sched.cache
  preempted : p'.out.preempted = p.out.preempted
  used : p'.used = p.used + partialTokens p.sched.config (p.budget - p.used) cands
  scheduled : ∃ es, p'.out.scheduled = p.out.scheduled ++ es
    ∧ (es.map ScheduledSequence.id).Sublist (cands.map Prod.fst)
  length : p'.sched.running.length = p.sched.running.length
  kept : ∀ r ∈ p.sched.running, r.state ≠ .finished →
    ∃ r' ∈ p'.sched.running, r'.id = r.id ∧ r'.state ≠ .finished
  idle : partialTokens p.sched.config (p.budget - p.used) cands = 0 → p' = p
  front : ∀ front rest, p.sched.running = front ++ rest →
    (∀ c ∈ cands, c.1 ∉ front.map Sequence.id) → ∃ rest', p'.sched.running = front ++ rest'

omit [KvCacheManagerLike C] in
theorem chunkFor_zero {config : SchedulerConfig} {remaining chunk : ℕ}
    (h : chunkFor config remaining 0 = some chunk) : chunk = 0 :=
  Nat.le_zero.mp (chunkFor_le h).2

theorem partialTokens_zero (config : SchedulerConfig) (cands : List (SequenceId × ℕ × ℕ)) :
    partialTokens config 0 cands = 0 := by
  induction cands with
  | nil => rfl
  | cons c cands ih =>
    simp only [partialTokens]
    split
    · exact ih
    · next chunk hc => rw [chunkFor_zero hc, Nat.zero_add]; exact ih

omit [KvCacheManagerLike C] in
/-- Nothing to resume. -/
theorem resumes_refl (p : Pass C) {cands : List (SequenceId × ℕ × ℕ)}
    (h : partialTokens p.sched.config (p.budget - p.used) cands = 0) : Resumes p p cands where
  config := rfl
  waiting := rfl
  cache := rfl
  preempted := rfl
  used := by rw [h, Nat.add_zero]
  scheduled := ⟨[], (List.append_nil _).symm, List.nil_sublist _⟩
  length := rfl
  kept r hr hst := ⟨r, hr, rfl, hst⟩
  idle _ := rfl
  front front rest hrun _ := ⟨rest, hrun⟩

theorem resumed_not_finished {s : Sequence} (chunk : ℕ) (h : s.state ≠ .finished) :
    (resumed s chunk).state ≠ .finished := by
  have hadv : (s.advancePrefill chunk).state = s.state := rfl
  simp only [resumed]
  split
  · unfold Sequence.transitionTo
    split
    · simp
    · exact hadv ▸ h
  · exact hadv ▸ h

omit [KvCacheManagerLike C] in
/-- A candidate that gets no chunk. -/
theorem Resumes.skip {p p' : Pass C} {c : SequenceId × ℕ × ℕ} {cands : List (SequenceId × ℕ × ℕ)}
    (h : Resumes p p' cands)
    (htok : partialTokens p.sched.config (p.budget - p.used) (c :: cands)
      = partialTokens p.sched.config (p.budget - p.used) cands) : Resumes p p' (c :: cands) := by
  obtain ⟨es, hes, hsub⟩ := h.scheduled
  exact ⟨h.config, h.waiting, h.cache, h.preempted, by rw [h.used, htok],
    ⟨es, hes, hsub.cons _⟩, h.length, h.kept, fun hnone => h.idle (by rw [← htok, hnone]),
    fun front rest hrun hc => h.front front rest hrun
      (fun c hmem => hc c (List.mem_cons_of_mem _ hmem))⟩

omit [KvCacheManagerLike C] in
/-- A candidate that gets one. -/
theorem Resumes.cons {p p' : Pass C} {id : SequenceId} {already remaining chunk : ℕ}
    {cands : List (SequenceId × ℕ × ℕ)}
    (hchunk : chunkFor p.sched.config remaining (p.budget - p.used) = some chunk)
    (hpos : chunk ≠ 0)
    (h : Resumes (({ p with sched := { p.sched with
        running := p.sched.running.updateKey Sequence.id id (resumed · chunk) } }
      : Pass C).emit ⟨id, chunk, already, true⟩) p' cands) :
    Resumes p p' ((id, already, remaining) :: cands) := by
  set p₁ : Pass C := ({ p with sched := { p.sched with
    running := p.sched.running.updateKey Sequence.id id (resumed · chunk) } }
    : Pass C).emit ⟨id, chunk, already, true⟩ with hp₁
  have hleft : p₁.budget - p₁.used = p.budget - p.used - chunk := by
    show p.budget - (p.used + chunk) = _
    omega
  have htok : partialTokens p.sched.config (p.budget - p.used) ((id, already, remaining) :: cands)
      = chunk + partialTokens p.sched.config (p.budget - p.used - chunk) cands := by
    simp only [partialTokens, hchunk]
  obtain ⟨es, hes, hsub⟩ := h.scheduled
  refine ⟨h.config, h.waiting, h.cache, h.preempted, ?_,
    ⟨⟨id, chunk, already, true⟩ :: es, ?_, hsub.cons_cons _⟩, ?_, fun r hrm hst => ?_,
    fun hnone => absurd hnone ?_, fun front rest hrun hc => ?_⟩
  · rw [h.used, hleft, htok]
    exact Nat.add_assoc _ _ _
  · rw [hes]
    show p.out.scheduled ++ [_] ++ es = _
    rw [List.append_assoc]
    rfl
  · rw [h.length]
    exact List.length_updateKey
  · -- the sequence itself is still there, a chunk further
    obtain ⟨r₁, hr₁, hid₁, hst₁⟩ : ∃ r₁ ∈ p₁.sched.running,
        r₁.id = r.id ∧ r₁.state ≠ .finished := by
      by_cases hid : r.id = id
      · have hor : r ∈ p₁.sched.running ∨ resumed r chunk ∈ p₁.sched.running :=
          List.mem_updateKey_or hrm
        rcases hor with hmem | hmem
        · exact ⟨r, hmem, rfl, hst⟩
        · exact ⟨_, hmem, resumed_id r chunk, resumed_not_finished chunk hst⟩
      · exact ⟨r, List.mem_updateKey_of_ne hrm hid, rfl, hst⟩
    obtain ⟨r₂, hr₂, hid₂, hst₂⟩ := h.kept r₁ hr₁ hst₁
    exact ⟨r₂, hr₂, hid₂.trans hid₁, hst₂⟩
  · rw [htok]
    omega
  · refine h.front front (rest.updateKey Sequence.id id (resumed · chunk)) ?_
      (fun c hmem => hc c (List.mem_cons_of_mem _ hmem))
    show p.sched.running.updateKey _ _ _ = _
    rw [hrun]
    exact List.updateKey_append (hc _ List.mem_cons_self)

omit [KvCacheManagerLike C] in
/-- **Loop lemma**: what the partial prefills do. -/
theorem partialLoop_calm (cands : List (SequenceId × ℕ × ℕ)) :
    ∀ {p : Pass C}, (∀ c ∈ cands, c.1 ∈ p.sched.running.map Sequence.id) →
      Resumes p (p.partialLoop cands) cands := by
  induction cands with
  | nil => exact fun {p} _ => resumes_refl p rfl
  | cons c cands ih =>
    intro p hin
    obtain ⟨id, already, remaining⟩ := c
    have hin' : ∀ c ∈ cands, c.1 ∈ p.sched.running.map Sequence.id :=
      fun c hc => hin c (List.mem_cons_of_mem _ hc)
    unfold partialLoop
    split
    · next hfull =>
      refine resumes_refl p ?_
      rw [Nat.sub_eq_zero_of_le hfull]
      exact partialTokens_zero _ _
    split
    · next hnone =>
      refine (ih hin').skip ?_
      simp only [partialTokens, hnone]
    next chunk hchunk =>
      split
      · next hzero =>
        refine (ih hin').skip ?_
        simp only [partialTokens, hchunk, hzero, Nat.zero_add, Nat.sub_zero]
      next hpos =>
        split
        · next hmissing =>
          exact absurd (hin _ List.mem_cons_self) (List.findKey_eq_none_iff.mp hmissing)
        next seq hfound =>
          refine .cons hchunk hpos (ih (fun c hc => ?_))
          show c.1 ∈ (p.sched.running.updateKey Sequence.id id (resumed · chunk)).map Sequence.id
          rw [List.map_updateKey (fun s => resumed_id s chunk)]
          exact hin' c hc

/-! ## The admissions -/

/-- An admission loop that goes through. -/
structure Takes (p p' : Pass C) (plan : List (Sequence × ℕ)) : Prop where
  config : p'.sched.config = p.sched.config
  running : p'.sched.running = p.sched.running ++ plan.map (fun x => prefilled x.1 x.2)
  waiting : p.sched.waiting = plan.map Prod.fst ++ p'.sched.waiting
  cache : p'.sched.cache = allocateAll p.sched.cache plan
  scheduled : p'.out.scheduled = p.out.scheduled
    ++ plan.map (fun x => ⟨x.1.id, x.2, x.1.computedPrefixLen, true⟩)
  preempted : p'.out.preempted = p.out.preempted
  used : p'.used = p.used + (plan.map Prod.snd).sum

theorem takes_nil (p : Pass C) : Takes p p [] where
  config := rfl
  running := (List.append_nil _).symm
  waiting := rfl
  cache := rfl
  scheduled := (List.append_nil _).symm
  preempted := rfl
  used := rfl

/-- What the loop gets to from here. -/
def plan (p : Pass C) : List (Sequence × ℕ) :=
  admissionPlan p.sched.config (p.sched.config.maxNumSeqs - p.sched.running.length)
    (p.budget - p.used) p.sched.waiting

omit [KvCacheManagerLike C] in
theorem admissionPlan_no_room (config : SchedulerConfig) (slots : ℕ) (ws : List Sequence) :
    admissionPlan config slots 0 ws = [] := by
  rcases slots with - | slots
  · rfl
  rcases ws with - | ⟨w, ws⟩
  · rfl
  simp only [admissionPlan]
  split
  · rfl
  · next chunk hc => rw [if_pos (chunkFor_zero hc)]

omit [KvCacheManagerLike C] in
/-- What the plan holds: sequences of the queue, in order, with chunks that
are not empty. -/
theorem admissionPlan_pos {config : SchedulerConfig} :
    ∀ {slots room : ℕ} {ws : List Sequence},
      ∀ x ∈ admissionPlan config slots room ws, 0 < x.2
  | 0, _, _, x, hx => absurd hx (by simp [admissionPlan])
  | _ + 1, _, [], x, hx => absurd hx (by simp [admissionPlan])
  | slots + 1, room, w :: ws, x, hx => by
    simp only [admissionPlan] at hx
    split at hx
    · exact absurd hx List.not_mem_nil
    · split at hx
      · exact absurd hx List.not_mem_nil
      · next hpos =>
        rcases List.mem_cons.mp hx with rfl | hx
        · exact Nat.pos_of_ne_zero hpos
        · exact admissionPlan_pos x hx

omit [KvCacheManagerLike C] in
/-- The first step of a plan. -/
theorem plan_cons {p : Pass C} {seq : Sequence} {rest : List Sequence} {chunk : ℕ} {c : C}
    (hgo : ¬ (p.sched.config.maxNumSeqs ≤ p.sched.running.length ∨ p.budget ≤ p.used))
    (hw : p.sched.waiting = seq :: rest)
    (hc : chunkFor p.sched.config (seq.promptLen - seq.computedPrefixLen) (p.budget - p.used)
      = some chunk) (hpos : chunk ≠ 0) :
    p.plan = (seq, chunk) :: ((p.withCache c).bringIn seq rest chunk).plan := by
  obtain ⟨hslot, hroom⟩ := not_or.mp hgo
  obtain ⟨slots, hslots⟩ : ∃ slots,
      p.sched.config.maxNumSeqs - p.sched.running.length = slots + 1 :=
    ⟨p.sched.config.maxNumSeqs - p.sched.running.length - 1, by omega⟩
  have hslots' : p.sched.config.maxNumSeqs
      - (p.sched.running ++ [prefilled seq chunk]).length = slots := by
    rw [List.length_append, List.length_singleton]
    omega
  have hroom' : p.budget - (p.used + chunk) = p.budget - p.used - chunk := by omega
  have hplan : ((p.withCache c).bringIn seq rest chunk).plan
      = admissionPlan p.sched.config slots (p.budget - p.used - chunk) rest := by
    show admissionPlan p.sched.config (p.sched.config.maxNumSeqs
      - (p.sched.running ++ [prefilled seq chunk]).length) (p.budget - (p.used + chunk)) rest = _
    rw [hslots', hroom']
  rw [hplan]
  unfold plan
  rw [hslots, hw]
  simp only [admissionPlan, hc, if_neg hpos]

omit [KvCacheManagerLike C] in
/-- A loop that stops at once has nothing planned. -/
theorem plan_of_full {p : Pass C}
    (hstop : p.sched.config.maxNumSeqs ≤ p.sched.running.length ∨ p.budget ≤ p.used) :
    p.plan = [] := by
  unfold plan
  rcases hstop with hslot | hroom
  · rw [Nat.sub_eq_zero_of_le hslot]
    simp only [admissionPlan]
  · rw [Nat.sub_eq_zero_of_le hroom]
    exact admissionPlan_no_room _ _ _

omit [KvCacheManagerLike C] in
theorem plan_of_waiting_nil {p : Pass C} (hw : p.sched.waiting = []) : p.plan = [] := by
  unfold plan
  rw [hw]
  rcases p.sched.config.maxNumSeqs - p.sched.running.length with - | slots
  · simp only [admissionPlan]
  · simp only [admissionPlan]

omit [KvCacheManagerLike C] in
/-- Nor is anything planned when the head of the queue gets no chunk. -/
theorem plan_of_no_chunk {p : Pass C} {seq : Sequence} {rest : List Sequence}
    (hw : p.sched.waiting = seq :: rest)
    (hc : ∀ chunk, chunkFor p.sched.config (seq.promptLen - seq.computedPrefixLen)
      (p.budget - p.used) = some chunk → chunk = 0) : p.plan = [] := by
  unfold plan
  rw [hw]
  rcases p.sched.config.maxNumSeqs - p.sched.running.length with - | slots
  · simp only [admissionPlan]
  · simp only [admissionPlan]
    split
    · rfl
    · next chunk hchunk => rw [if_pos (hc chunk hchunk)]

/-- An admission, and a loop that goes through after it. -/
theorem Takes.cons {p p' : Pass C} {seq : Sequence} {rest : List Sequence} {chunk : ℕ} {c : C}
    {plan : List (Sequence × ℕ)} (hw : p.sched.waiting = seq :: rest)
    (hcache : (KvCacheManagerLike.allocate p.sched.cache seq.id seq.prompt).1 = c)
    (h : Takes ((p.withCache c).bringIn seq rest chunk) p' plan) :
    Takes p p' ((seq, chunk) :: plan) := by
  refine ⟨h.config, ?_, ?_, ?_, ?_, h.preempted, ?_⟩
  · rw [h.running]
    show p.sched.running ++ [prefilled seq chunk] ++ _ = _
    rw [List.append_assoc]
    rfl
  · rw [hw, List.map_cons, List.cons_append, ← h.waiting]
    rfl
  · rw [h.cache]
    show allocateAll c _ = allocateAll _ _
    unfold allocateAll
    rw [List.foldl_cons, hcache]
  · rw [h.scheduled]
    show p.out.scheduled ++ [_] ++ _ = _
    rw [List.append_assoc]
    rfl
  · rw [h.used, List.map_cons, List.sum_cons]
    show p.used + chunk + _ = _
    rw [Nat.add_assoc]

/-- **Loop lemma**: as long as there is room, the plan is carried out and
nothing else happens. -/
theorem admissionLoop_calm (p : Pass KvCacheManager) (hs : p.sched.Sound)
    (hfits : Fits p.sched.cache p.plan) : Takes p p.admissionLoop p.plan := by
  have hstart : ∀ {q : Pass KvCacheManager} {seq : Sequence} {rest : List Sequence} {chunk : ℕ},
      ¬ (q.sched.config.maxNumSeqs ≤ q.sched.running.length ∨ q.budget ≤ q.used) →
      q.sched.waiting = seq :: rest →
      chunkFor q.sched.config (seq.promptLen - seq.computedPrefixLen) (q.budget - q.used)
        = some chunk → chunk ≠ 0 → Fits q.sched.cache q.plan →
      seq.computedPrefixLen = 0
        ∧ KvCacheManagerLike.canAllocate q.sched.cache seq.promptLen = true := by
    intro q seq rest chunk hgo hw hc hpos hfits
    rw [plan_cons (c := q.sched.cache) hgo hw hc hpos] at hfits
    exact ⟨hfits.1, hfits.2.1⟩
  fun_induction admissionLoop p with
  | case1 p hstop =>
    rw [plan_of_full hstop]
    exact takes_nil p
  | case2 p hgo hw =>
    rw [plan_of_waiting_nil hw]
    exact takes_nil p
  | case3 p hgo seq rest hw hc =>
    rw [plan_of_no_chunk hw (fun chunk hchunk => absurd (hc.symm.trans hchunk) (by simp))]
    exact takes_nil p
  | case4 p hgo seq rest hw hc =>
    rw [plan_of_no_chunk hw (fun chunk hchunk => (Option.some.inj (hc.symm.trans hchunk)).symm)]
    exact takes_nil p
  | case5 p hgo seq rest hw chunk hc hpos hfirst hcan c hok ih =>
    obtain ⟨hslot, hroom⟩ := not_or.mp hgo
    obtain ⟨hle, hfits'⟩ := chunkFor_le hc
    have hmove : PassMove p ((p.withCache c).bringIn seq rest chunk) :=
      .admitted hw hfirst (not_le.mp hslot) (Nat.pos_of_ne_zero hpos)
        (hle.trans (Nat.sub_le _ _)) hfits' hok rfl
    rw [plan_cons (c := c) hgo hw hc hpos] at hfits ⊢
    have hcache : (KvCacheManagerLike.allocate p.sched.cache seq.id seq.prompt).1 = c :=
      congrArg Prod.fst hok
    exact .cons hw hcache (ih (hmove.sound hs) (by rw [← hcache]; exact hfits.2.2))
  | case6 p hgo seq rest hw chunk hc hpos hfirst hcan c e herr =>
    exact absurd herr (hs.allocate_ne_error (hw ▸ List.mem_cons_self) hcan)
  | case7 p hgo seq rest hw chunk hc hpos hfirst hcan hev =>
    exact absurd (hstart hgo hw hc hpos hfits).2 hcan
  | case8 p hgo seq rest hw chunk hc hpos hfirst hcan p₁ hev ih =>
    exact absurd (hstart hgo hw hc hpos hfits).2 hcan
  | case9 p hgo seq rest hw chunk hc hpos hfirst ih =>
    exact absurd (hstart hgo hw hc hpos hfits).1 hfirst

/-- A sequence of the plan starts at the beginning of its prompt and is given
no more than all of it. -/
theorem fits_mem {config : SchedulerConfig} :
    ∀ {slots room : ℕ} {ws : List Sequence} {c : C},
      Fits c (admissionPlan config slots room ws) →
      ∀ {x}, x ∈ admissionPlan config slots room ws →
        x.1.computedPrefixLen = 0 ∧ x.2 ≤ x.1.prompt.length
  | 0, _, _, _, _, x, hx => absurd hx (by simp [admissionPlan])
  | _ + 1, _, [], _, _, x, hx => absurd hx (by simp [admissionPlan])
  | slots + 1, room, w :: ws, c, hfits, x, hx => by
    simp only [admissionPlan] at hfits hx
    split at hx
    · exact absurd hx List.not_mem_nil
    next chunk hc =>
      split at hx
      · exact absurd hx List.not_mem_nil
      next hpos =>
        simp only [hc, if_neg hpos] at hfits
        rcases List.mem_cons.mp hx with rfl | hx
        · exact ⟨hfits.1, (chunkFor_le hc).1.trans (Nat.sub_le _ _)⟩
        · exact fits_mem hfits.2.2 hx

/-- A prefill pass that goes through. -/
structure Prefills (p p' : Pass KvCacheManager) : Prop where
  config : p'.sched.config = p.sched.config
  cache : p'.sched.cache
    = allocateAll p.sched.cache (p.sched.admissions (p.budget - p.used))
  preempted : p'.out.preempted = p.out.preempted
  used : p'.used = p.used + p.sched.prefillTokens (p.budget - p.used)
  scheduled : ∃ es resumed taken, p'.out.scheduled = p.out.scheduled ++ es
    ∧ es.map ScheduledSequence.id = resumed ++ taken
    ∧ resumed.Sublist ((partialCandidates p.sched.running).map Prod.fst)
    ∧ taken.Sublist (p.sched.waiting.map Sequence.id)
    ∧ ∀ id ∈ taken, ∃ r ∈ p'.sched.running, r.id = id ∧ r.state ≠ .finished
  kept : ∀ r ∈ p.sched.running, r.state ≠ .finished →
    ∃ r' ∈ p'.sched.running, r'.id = r.id ∧ r'.state ≠ .finished
  idle : p.sched.prefillTokens (p.budget - p.used) = 0 →
    p'.sched.running = p.sched.running
  front : ∀ rest, p.sched.running = p.sched.leading ++ rest →
    ∃ rest', p'.sched.running = p.sched.leading ++ rest'

/-- The candidates of the partial-prefill pass are not in front of the first
partial prefill. -/
theorem not_mem_leading {s : Scheduler KvCacheManager} (h : s.Sound) :
    ∀ c ∈ partialCandidates s.running, c.1 ∉ s.leading.map Sequence.id := by
  intro c hc hmem
  obtain ⟨r, hr, rfl⟩ := List.mem_map.mp hc
  obtain ⟨hr, hstate⟩ := List.mem_filter.mp hr
  obtain ⟨q, hq, hid⟩ := List.mem_map.mp hmem
  have hqr : q = r := List.eq_of_key_eq h.nodup_running
    ((List.takeWhile_sublist _).subset hq) hr hid
  have hnot := List.all_eq_true.mp List.all_takeWhile q hq
  rw [hqr] at hnot
  rw [Bool.and_eq_true, decide_eq_true_iff] at hstate
  exact absurd hstate.1 (of_decide_eq_true hnot)

/-- The partial prefills of a pass. -/
theorem schedulePartialPrefills_resumes (p : Pass KvCacheManager) :
    Resumes p p.schedulePartialPrefills (partialCandidates p.sched.running) := by
  refine partialLoop_calm _ (fun c hc => ?_)
  obtain ⟨r, hr, rfl⟩ := List.mem_map.mp hc
  exact List.mem_map_of_mem (List.mem_filter.mp hr).1

/-- The two halves of a prefill pass that goes through. -/
theorem prefills_halves (p : Pass KvCacheManager) (hs : p.sched.Sound)
    (hfits : Fits p.sched.cache (p.sched.admissions (p.budget - p.used))) :
    Resumes p p.schedulePartialPrefills (partialCandidates p.sched.running)
    ∧ Takes p.schedulePartialPrefills p.schedulePrefills
      (p.sched.admissions (p.budget - p.used)) := by
  have hr := p.schedulePartialPrefills_resumes
  refine ⟨hr, ?_⟩
  set p₁ := p.schedulePartialPrefills with hp₁
  have hs₁ : p₁.sched.Sound :=
    PassMoves.sound (partialLoop_moves _ p.partialGuard_candidates) hs
  have hplan : p₁.plan = p.sched.admissions (p.budget - p.used) := by
    have hroom : p₁.budget - p₁.used = p.budget - p.used
        - partialTokens p.sched.config (p.budget - p.used)
          (partialCandidates p.sched.running) := by
      have hbudget : p₁.budget = p.budget :=
        congrArg SchedulerConfig.maxNumBatchedTokens hr.config
      rw [hr.used, hbudget, Nat.sub_add_eq]
    unfold plan Scheduler.admissions
    rw [hroom, hr.config, hr.length, hr.waiting]
  rw [← hplan]
  refine admissionLoop_calm p₁ hs₁ ?_
  rw [hplan, hr.cache]
  exact hfits

/-- **The prefill pass**: the partial prefills, then the admissions. -/
theorem prefills_calm (p : Pass KvCacheManager) (hs : p.sched.Sound)
    (hfits : Fits p.sched.cache (p.sched.admissions (p.budget - p.used))) :
    Prefills p p.schedulePrefills := by
  obtain ⟨hr, ht⟩ := p.prefills_halves hs hfits
  set p₁ := p.schedulePartialPrefills with hp₁
  set plan := p.sched.admissions (p.budget - p.used) with hplan'
  obtain ⟨es, hes, hsub⟩ := hr.scheduled
  have hwait : p.sched.waiting = plan.map Prod.fst ++ p.schedulePrefills.sched.waiting := by
    rw [← hr.waiting]
    exact ht.waiting
  refine ⟨ht.config.trans hr.config, by rw [ht.cache, hr.cache], ht.preempted.trans hr.preempted,
    ?_, ⟨es ++ plan.map (fun x => ⟨x.1.id, x.2, x.1.computedPrefixLen, true⟩),
      es.map ScheduledSequence.id, plan.map (fun x => x.1.id), ?_, ?_, hsub, ?_,
      fun id hid => ?_⟩, fun r hr' hst => ?_, fun hzero => ?_, fun rest hrun => ?_⟩
  · rw [ht.used, hr.used, Nat.add_assoc]
    rfl
  · rw [ht.scheduled, hes, List.append_assoc]
  · rw [List.map_append, List.map_map]
    rfl
  · rw [hwait, List.map_append, List.map_map]
    exact List.sublist_append_left _ _
  · obtain ⟨x, hx, rfl⟩ := List.mem_map.mp hid
    have hmem : x.1 ∈ p.sched.waiting := by
      rw [hwait]
      exact List.mem_append_left _ (List.mem_map_of_mem hx)
    refine ⟨prefilled x.1 x.2, ?_, prefilled_id _ _, ?_⟩
    · rw [ht.running]
      exact List.mem_append_right _ (List.mem_map_of_mem (f := fun x => prefilled x.1 x.2) hx)
    · obtain ⟨hzero, hle⟩ := fits_mem hfits hx
      have hst := hs.atStart_of_zero hmem hzero
      exact (prefilled_inStage hst.1 hzero hle).2.not_finished
  · obtain ⟨r₁, hr₁, hid₁, hst₁⟩ := hr.kept r hr' hst
    refine ⟨r₁, ?_, hid₁, hst₁⟩
    rw [ht.running]
    exact List.mem_append_left _ hr₁
  · obtain ⟨htok, hsum⟩ := Nat.add_eq_zero_iff.mp hzero
    have hnil : plan = [] := by
      rcases hpl : plan with - | ⟨x, rest⟩
      · rfl
      · have hpos : 0 < x.2 := admissionPlan_pos x (by
          show x ∈ plan
          rw [hpl]
          exact List.mem_cons_self)
        have hsum' : (plan.map Prod.snd).sum = 0 := hsum
        rw [hpl, List.map_cons, List.sum_cons] at hsum'
        omega
    rw [ht.running, hnil, hr.idle htok]
    exact List.append_nil _
  · obtain ⟨rest', hrest'⟩ := hr.front _ rest hrun (not_mem_leading hs)
    exact ⟨rest' ++ plan.map (fun x => prefilled x.1 x.2),
      by rw [ht.running, hrest', List.append_assoc]⟩

end Pass

namespace Scheduler

/-! ## The batch -/

section Groups

variable {s : Scheduler KvCacheManager} (decodes : List SequenceId)
  {resumed taken : List SequenceId}

/-- **The three kinds of entries are for different sequences**: those decoding,
those in the middle of their prompt, and those waiting before the call. -/
theorem Sound.nodup_groups (h : s.Sound)
    (hd : decodes.Sublist ((Pass.decodeCandidates s.running).map Prod.fst))
    (hr : resumed.Sublist ((Pass.partialCandidates s.running).map Prod.fst))
    (ht : taken.Sublist (s.waiting.map Sequence.id)) :
    (decodes ++ (resumed ++ taken)).Nodup := by
  have hrun := h.nodup_running
  have hdec : ((Pass.decodeCandidates s.running).map Prod.fst)
      = (s.running.filter (fun r => r.state = .decoding)).map Sequence.id := by
    unfold Pass.decodeCandidates
    rw [List.map_map]
    rfl
  have hpar : ((Pass.partialCandidates s.running).map Prod.fst)
      = (s.running.filter (fun r => r.state = .prefilling && !r.isPrefillComplete)).map
        Sequence.id := by
    unfold Pass.partialCandidates
    rw [List.map_map]
    rfl
  rw [hdec] at hd
  rw [hpar] at hr
  have hwait : (s.waiting.map Sequence.id).Nodup := by
    have hnd := h.nodup
    unfold Scheduler.ids at hnd
    rw [List.map_append] at hnd
    exact (List.nodup_append.mp hnd).2.1
  have hin : ∀ {p : Sequence → Bool} {id : SequenceId},
      id ∈ (s.running.filter p).map Sequence.id → ∃ r ∈ s.running, r.id = id ∧ p r = true := by
    intro p id hid
    obtain ⟨r, hr, rfl⟩ := List.mem_map.mp hid
    obtain ⟨hr, hp⟩ := List.mem_filter.mp hr
    exact ⟨r, hr, rfl, hp⟩
  have hapart : ∀ {id : SequenceId} {r : Sequence}, r ∈ s.running → r.id = id →
      id ∉ taken := by
    intro id r hr hid hmem
    obtain ⟨w, hw, hwid⟩ := List.mem_map.mp (ht.subset hmem)
    exact h.apart hr hw (hid.trans hwid.symm)
  refine List.nodup_append.mpr ⟨hrun.sublist (hd.trans (List.filter_sublist.map _)),
    List.nodup_append.mpr ⟨hrun.sublist (hr.trans (List.filter_sublist.map _)),
      hwait.sublist ht, ?_⟩, ?_⟩
  · rintro a ha b hb rfl
    obtain ⟨r, hr', hid, -⟩ := hin (hr.subset ha)
    exact hapart hr' hid hb
  · rintro a ha b hb rfl
    obtain ⟨r, hr', hid, hst⟩ := hin (hd.subset ha)
    rcases List.mem_append.mp hb with hb | hb
    · obtain ⟨q, hq, hqid, hqst⟩ := hin (hr.subset hb)
      obtain rfl : q = r := List.eq_of_key_eq hrun hq hr' (hqid.trans hid.symm)
      rw [Bool.and_eq_true, decide_eq_true_iff] at hqst
      exact absurd ((of_decide_eq_true hst).symm.trans hqst.1) (by simp)
    · exact hapart hr' hid hb

/-- **Well formed, from what the passes did.** -/
theorem Sound.wellFormed_of_groups (h : s.Sound) {p : Pass KvCacheManager}
    (hp : p.sched.Sound) (hnone : p.out.preempted = [])
    (hids : (p.out.scheduled.map ScheduledSequence.id).Perm
      (decodes ++ (resumed ++ taken)))
    (hd : decodes.Sublist ((Pass.decodeCandidates s.running).map Prod.fst))
    (hr : resumed.Sublist ((Pass.partialCandidates s.running).map Prod.fst))
    (ht : taken.Sublist (s.waiting.map Sequence.id))
    (hkept : ∀ r ∈ s.running, r.state ≠ .finished →
      ∃ r' ∈ p.sched.running, r'.id = r.id ∧ r'.state ≠ .finished)
    (htaken : ∀ id ∈ taken, ∃ r ∈ p.sched.running, r.id = id ∧ r.state ≠ .finished) :
    WellFormedBatch p.sched p.out where
  once := hids.nodup_iff.mpr (h.nodup_groups decodes hd hr ht)
  kept e _ := by
    rw [hnone]
    exact List.not_mem_nil
  held e he := by
    have hmem : e.id ∈ decodes ++ (resumed ++ taken) :=
      hids.mem_iff.mp (List.mem_map_of_mem he)
    obtain ⟨r, hrun, hid, hst⟩ : ∃ r ∈ p.sched.running, r.id = e.id ∧ r.state ≠ .finished := by
      rcases List.mem_append.mp hmem with hmem | hmem
      · obtain ⟨c, hc, hid⟩ := List.mem_map.mp (hd.subset hmem)
        obtain ⟨q, hq, rfl⟩ := List.mem_map.mp hc
        obtain ⟨hq, hqst⟩ := List.mem_filter.mp hq
        have hnot : q.state ≠ .finished := by rw [of_decide_eq_true hqst]; simp
        obtain ⟨r, hrun, hrid, hst⟩ := hkept q hq hnot
        exact ⟨r, hrun, hrid.trans hid, hst⟩
      rcases List.mem_append.mp hmem with hmem | hmem
      · obtain ⟨c, hc, hid⟩ := List.mem_map.mp (hr.subset hmem)
        obtain ⟨q, hq, rfl⟩ := List.mem_map.mp hc
        obtain ⟨hq, hqst⟩ := List.mem_filter.mp hq
        rw [Bool.and_eq_true, decide_eq_true_iff] at hqst
        have hnot : q.state ≠ .finished := by rw [hqst.1]; simp
        obtain ⟨r, hrun, hrid, hst⟩ := hkept q hq hnot
        exact ⟨r, hrun, hrid.trans hid, hst⟩
      · exact htaken _ hmem
    -- it is running and not finished, so it is resident
    obtain ⟨t, ht'⟩ := (hp.resident hrun hst).table
    refine ⟨hid ▸ List.mem_map_of_mem hrun, ?_⟩
    rw [← hid]
    unfold KvCacheManager.isAllocated KvCacheManager.blockTable
    rw [ht']
    rfl

end Groups

variable {s : Scheduler KvCacheManager}

theorem decodeCandidates_append (l l' : List Sequence) :
    Pass.decodeCandidates (l ++ l') = Pass.decodeCandidates l ++ Pass.decodeCandidates l' := by
  unfold Pass.decodeCandidates
  rw [List.filter_append, List.map_append]

theorem decodes_sublist (s : Scheduler KvCacheManager) :
    (s.decodes.map Prod.fst).Sublist ((Pass.decodeCandidates s.running).map Prod.fst) :=
  (List.take_sublist _ _).map _

/-- The two passes of a calm call, decodes first. -/
theorem Sound.calm_decode_first (h : s.Sound) (hc : s.Calm)
    (hfirst : s.config.prioritizeDecode = true) :
    ∃ p₁, p₁.sched.Sound ∧ s.passes = p₁.schedulePrefills
      ∧ Pass.Decodes s.pass p₁ s.decodes ∧ Pass.Prefills p₁ s.passes := by
  have hpasses : s.passes = s.pass.scheduleDecodes.schedulePrefills := if_pos hfirst
  have hquota : s.decodeQuota = s.pass.budget - s.pass.used := if_pos hfirst
  have hroom : s.prefillRoom = s.config.maxNumBatchedTokens - s.decodes.length := if_pos hfirst
  have hgrows := hc.grows
  have hfits := hc.fits
  rw [if_pos hfirst] at hgrows hfits
  have hd : Pass.Decodes s.pass s.pass.scheduleDecodes s.decodes := by
    have hd := Pass.decodeLoop_calm (p := s.pass) (Pass.decodeCandidates s.running)
      (by rw [← hquota]; exact hgrows)
    rw [← hquota] at hd
    exact hd
  set p₁ := s.pass.scheduleDecodes with hp₁
  have hs₁ : p₁.sched.Sound := PassMoves.sound s.pass.scheduleDecodes_moves h
  have hleft : p₁.budget - p₁.used = s.prefillRoom := by
    have hbudget : p₁.budget = s.config.maxNumBatchedTokens :=
      congrArg SchedulerConfig.maxNumBatchedTokens hd.config
    rw [hbudget, hd.used, hroom]
    show _ - (0 + _) = _
    rw [Nat.zero_add]
  have hplan : p₁.sched.admissions (p₁.budget - p₁.used) = s.admissions s.prefillRoom := by
    unfold admissions
    rw [hleft, hd.config, hd.running, hd.waiting]
    rfl
  refine ⟨p₁, hs₁, hpasses, hd, ?_⟩
  rw [hpasses]
  exact Pass.prefills_calm p₁ hs₁ (by rw [hplan, hd.cache]; exact hfits)

/-- Decodes first. -/
theorem Sound.wellFormed_decode_first (h : s.Sound) (hc : s.Calm)
    (hfirst : s.config.prioritizeDecode = true) :
    WellFormedBatch s.schedule.1 s.schedule.2 := by
  obtain ⟨p₁, -, -, hd, hp⟩ := h.calm_decode_first hc hfirst
  obtain ⟨es, resumed, taken, hes, hesids, hresumed, htaken, hheld⟩ := hp.scheduled
  rw [hd.running] at hresumed
  rw [hd.waiting] at htaken
  refine h.wellFormed_of_groups (s.decodes.map Prod.fst)
    (PassMoves.sound s.passes_moves h) (hp.preempted.trans hd.preempted) ?_
    s.decodes_sublist hresumed htaken (fun r hr hst => hp.kept r (hd.running ▸ hr) hst) hheld
  rw [hes, hd.scheduled, List.map_append, List.map_append, hesids, List.map_map]
  exact .refl _

/-- The decode pass that comes last reaches the decoders it would have reached
before. -/
theorem Calm.decodes_after (hc : s.Calm)
    (hlast : s.config.prioritizeDecode = false) {p₁ : Pass KvCacheManager}
    (hp : Pass.Prefills s.pass p₁) :
    (Pass.decodeCandidates p₁.sched.running).take (p₁.budget - p₁.used) = s.decodes := by
  have hnot : ¬ s.config.prioritizeDecode = true := by rw [hlast]; simp
  have hroom : s.prefillRoom = s.config.maxNumBatchedTokens := if_neg hnot
  have hquota : p₁.budget - p₁.used = s.decodeQuota := by
    have hbudget : p₁.budget = s.config.maxNumBatchedTokens :=
      congrArg SchedulerConfig.maxNumBatchedTokens hp.config
    have hq : s.decodeQuota = s.config.maxNumBatchedTokens
        - s.prefillTokens s.config.maxNumBatchedTokens := if_neg hnot
    rw [hbudget, hp.used, hq]
    show _ - (0 + s.prefillTokens (s.config.maxNumBatchedTokens - 0)) = _
    rw [Nat.zero_add, Nat.sub_zero]
  rw [hquota]
  unfold decodes
  rcases hc.once with hyes | hzero | hfew
  · exact absurd hyes hnot
  · rw [hp.idle (by rw [hroom] at hzero; exact hzero)]
    rfl
  · -- both lists start with the decoders in front of the first partial prefill
    have hsplit : s.running = s.leading ++ s.running.dropWhile (fun r => r.state ≠ .prefilling) :=
      List.takeWhile_append_dropWhile.symm
    obtain ⟨rest', hrest'⟩ := hp.front _ hsplit
    have hfront : p₁.sched.running = s.leading ++ rest' := hrest'
    rw [hfront, decodeCandidates_append, List.take_append_of_le_length hfew]
    conv_rhs => rw [hsplit, decodeCandidates_append, List.take_append_of_le_length hfew]

/-- The two passes of a calm call, prefills first. -/
theorem Sound.calm_prefill_first (h : s.Sound) (hc : s.Calm)
    (hlast : s.config.prioritizeDecode = false) :
    s.passes = s.pass.schedulePrefills.scheduleDecodes
      ∧ Pass.Prefills s.pass s.pass.schedulePrefills
      ∧ Pass.Decodes s.pass.schedulePrefills s.passes s.decodes := by
  have hnot : ¬ s.config.prioritizeDecode = true := by rw [hlast]; simp
  have hpasses : s.passes = s.pass.schedulePrefills.scheduleDecodes := if_neg hnot
  have hroom : s.prefillRoom = s.pass.budget - s.pass.used := if_neg hnot
  have hgrows := hc.grows
  have hfits := hc.fits
  rw [if_neg hnot] at hgrows hfits
  rw [hroom] at hgrows hfits
  have hp := Pass.prefills_calm s.pass h hfits
  set p₁ := s.pass.schedulePrefills with hp₁
  have htake := hc.decodes_after hlast hp
  have hd : Pass.Decodes p₁ p₁.scheduleDecodes s.decodes := by
    have hd := Pass.decodeLoop_calm (p := p₁) (Pass.decodeCandidates p₁.sched.running)
      (by rw [htake, hp.cache]; exact hgrows)
    rw [htake] at hd
    exact hd
  refine ⟨hpasses, hp, ?_⟩
  rw [hpasses]
  exact hd

/-- Prefills first. -/
theorem Sound.wellFormed_prefill_first (h : s.Sound) (hc : s.Calm)
    (hlast : s.config.prioritizeDecode = false) :
    WellFormedBatch s.schedule.1 s.schedule.2 := by
  obtain ⟨-, hp, hd⟩ := h.calm_prefill_first hc hlast
  obtain ⟨es, resumed, taken, hes, hesids, hresumed, htaken, hheld⟩ := hp.scheduled
  refine h.wellFormed_of_groups (s.decodes.map Prod.fst)
    (PassMoves.sound s.passes_moves h) (hd.preempted.trans hp.preempted) ?_
    s.decodes_sublist hresumed htaken
    (fun r hr hst => hd.running ▸ hp.kept r hr hst) (fun id hid => hd.running ▸ hheld id hid)
  rw [hd.scheduled, hes, List.map_append, List.map_append, hesids, List.map_map]
  exact List.perm_append_comm

/-- Either way. -/
theorem Sound.wellFormed_of_calm (h : s.Sound) (hc : s.Calm) :
    WellFormedBatch s.schedule.1 s.schedule.2 := by
  rcases hfirst : s.config.prioritizeDecode with - | -
  · exact h.wellFormed_prefill_first hc hfirst
  · exact h.wellFormed_decode_first hc hfirst

/-- A calm call evicts nobody. -/
theorem Sound.calm_preempted (h : s.Sound) (hc : s.Calm) : s.schedule.2.preempted = [] := by
  rcases hfirst : s.config.prioritizeDecode with - | -
  · obtain ⟨-, hp, hd⟩ := h.calm_prefill_first hc hfirst
    exact hd.preempted.trans hp.preempted
  · obtain ⟨p₁, -, -, hd, hp⟩ := h.calm_decode_first hc hfirst
    exact hp.preempted.trans hd.preempted

end Scheduler

namespace Service

variable {config : SchedulerConfig} {n bs firstId : ℕ} {flag : Bool}
  {v : Service KvCacheManager}

/-- **A calm call builds a well-formed batch.** In every state of every run,
whatever the configuration and the order of the passes: if nothing is in the
way of the next `schedule` call, then its batch names each sequence once, none
it evicted, and only running sequences that hold a table. -/
theorem batch_wellFormed (hbs : 1 ≤ bs) (hn : n ≤ 2 ^ 32)
    (h : v.Reachable config (KvCacheManager.new n bs flag) firstId)
    (hc : v.sched.Calm) :
    WellFormedBatch v.sched.schedule.1 v.sched.schedule.2 :=
  (h.sound hbs hn).sched.wellFormed_of_calm hc

/-- A decoder and two newcomers, with room for all. -/
theorem batch_wellFormed_three :
    let v := SchedulerOp.runAll (.start {} (KvCacheManager.new 8 4 true) 1)
      [.addRequest [1, 2, 3, 4] {} 0, .schedule, .onToken ⟨1⟩ 50 [],
        .addRequest [5, 6] {} 0, .addRequest [1, 2, 3, 4, 5] {} 0]
    WellFormedBatch v.sched.schedule.1 v.sched.schedule.2
      ∧ v.sched.schedule.2.scheduled.length = 3 := by
  intro v
  have hv : v.Reachable {} (KvCacheManager.new 8 4 true) 1 := Reachable.start.runAll _
  refine ⟨batch_wellFormed (by decide) (by decide) hv ⟨?_, ?_, Or.inl ?_⟩, by decide +kernel⟩
  · decide +kernel
  · decide +kernel
  · decide +kernel

/-- Prefills first, and room for more. -/
def prefillFirst : SchedulerConfig :=
  { maxNumSeqs := 4, maxNumBatchedTokens := 16, prioritizeDecode := false }

/-- **A batch that names a sequence twice**: the prompt of a lone request is
through within the prefill pass, and the decode pass picks it up again. -/
theorem batch_names_twice :
    let v := SchedulerOp.runAll (.start prefillFirst (KvCacheManager.new 4 4 true) 1)
      [.addRequest [1, 2, 3] {} 0]
    prefillFirst.validate = .ok ()
    ∧ v.Reachable prefillFirst (KvCacheManager.new 4 4 true) 1
    ∧ v.sched.schedule.2.scheduled = [⟨⟨1⟩, 3, 0, true⟩, ⟨⟨1⟩, 1, 3, false⟩]
    ∧ ¬ WellFormedBatch v.sched.schedule.1 v.sched.schedule.2 := by
  intro v
  have hbatch : v.sched.schedule.2.scheduled = [⟨⟨1⟩, 3, 0, true⟩, ⟨⟨1⟩, 1, 3, false⟩] := by
    decide +kernel
  refine ⟨by decide, Reachable.start.runAll _, hbatch, fun hwf => ?_⟩
  have honce := hwf.once
  rw [hbatch] at honce
  exact absurd honce (by decide)

end Service
