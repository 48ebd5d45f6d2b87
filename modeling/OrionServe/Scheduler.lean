import OrionServe.Sequence
import OrionServe.CacheManager
import OrionServe.Lib.Keyed

/-!
# The continuous batching scheduler

Each engine step `schedule` decides which sequences run and with how many
tokens each: decodes first when the configuration says so, then prefills
with what remains of the token budget. Sequences move between the two
queues in both directions in one call – an admission takes the head of the
waiting queue to the end of the running one, an eviction takes the newest
running sequence back to the head.

The scheduler is generic over the cache. The queues are lists, the waiting
one with its head first, the running one with its newest last; `get`,
`get_mut` and `remove` of the source's queues are `List.findKey`,
`List.updateKey` and `List.eraseKey` at the sequence id. The passes of
one call share the output and the budget used so far, which `Pass` carries
along with the scheduler.

Like the cache manager the scheduler carries a history that nothing reads:
what was scheduled and who was preempted, newest first. The counters of
`SchedulerStats` are not kept, nothing reads them back.
-/

/-- What one sequence contributes to a step. -/
structure ScheduledSequence where
  id : SequenceId
  /-- Tokens this sequence submits this step. -/
  numTokens : ℕ
  /-- Position of the first submitted token. -/
  startPosition : ℕ
  /-- Whether this is prefill work rather than a decode step. -/
  isPrefill : Bool
  deriving DecidableEq

/-- The batch produced by one scheduling pass. -/
structure SchedulerOutput where
  scheduled : List ScheduledSequence
  /-- Sequences evicted this step to make room. -/
  preempted : List SequenceId
  /-- Sequences that reached a terminal state this step; no pass fills it. -/
  finished : List (SequenceId × FinishReason)
  deriving DecidableEq

namespace SchedulerOutput

def empty : SchedulerOutput := ⟨[], [], []⟩

def isEmpty (out : SchedulerOutput) : Bool := out.scheduled.isEmpty

end SchedulerOutput

/-- What the scheduler did to a sequence. -/
inductive SchedEvent where
  /-- An entry of a batch. -/
  | scheduled (entry : ScheduledSequence)
  /-- An eviction, with the sequence as it was. -/
  | preempted (victim : Sequence)
  deriving DecidableEq

/-- Continuous batching scheduler. -/
structure Scheduler (C : Type*) where
  config : SchedulerConfig
  /-- The waiting queue, its head first. -/
  waiting : List Sequence
  /-- The running queue, its newest last. -/
  running : List Sequence
  cache : C
  /-- The history, newest event first. Written and never read. -/
  trace : List SchedEvent

/-- The scheduler in the middle of one `schedule` call. -/
structure Pass (C : Type*) where
  sched : Scheduler C
  out : SchedulerOutput
  /-- Tokens of the budget used so far. -/
  used : ℕ

variable {C : Type*} [KvCacheManagerLike C]

namespace Pass

/-- The token budget of the call. -/
def budget (p : Pass C) : ℕ := p.sched.config.maxNumBatchedTokens

def withCache (p : Pass C) (c : C) : Pass C := { p with sched := { p.sched with cache := c } }

/-- Puts an entry into the batch and pays for it. -/
def emit (p : Pass C) (e : ScheduledSequence) : Pass C where
  sched := { p.sched with trace := .scheduled e :: p.sched.trace }
  out := { p.out with scheduled := p.out.scheduled ++ [e] }
  used := p.used + e.numTokens

/-- Evicts the newest running sequence, returning it to the front of the
waiting queue; `none` when nothing can be evicted. -/
def preemptOne (p : Pass C) : Option (Pass C) :=
  match p.sched.running.getLast? with
  | none => none
  | some victim => some { p with
      sched := { p.sched with
        running := p.sched.running.dropLast
        cache := KvCacheManagerLike.free p.sched.cache victim.id
        waiting := victim.preempt.1 :: p.sched.waiting
        trace := .preempted victim :: p.sched.trace }
      out := { p.out with preempted := p.out.preempted ++ [victim.id] } }

/-! ## Decodes -/

/-- The entry of a decode step. -/
def decodeEntry (id : SequenceId) (totalLen : ℕ) : ScheduledSequence :=
  ⟨id, 1, totalLen, false⟩

/-- The loop of `schedule_decodes`. -/
def decodeLoop (p : Pass C) : List (SequenceId × ℕ) → Pass C
  | [] => p
  | (id, totalLen) :: rest =>
    if p.budget ≤ p.used then p
    else
      match KvCacheManagerLike.appendToken p.sched.cache id with
      | (c, .ok ()) => decodeLoop ((p.withCache c).emit (decodeEntry id totalLen)) rest
      | (c, .error _) =>
        -- evict the newest running sequence and retry
        match (p.withCache c).preemptOne with
        | none => p.withCache c
        | some p =>
          match KvCacheManagerLike.appendToken p.sched.cache id with
          | (c, .ok ()) => decodeLoop ((p.withCache c).emit (decodeEntry id totalLen)) rest
          | (c, .error _) => decodeLoop (p.withCache c) rest

/-- The running sequences that decode, with their total lengths. -/
def decodeCandidates (running : List Sequence) : List (SequenceId × ℕ) :=
  (running.filter (fun s => s.state = .decoding)).map (fun s => (s.id, s.totalLen))

/-- Gives one token to each running sequence, preempting when the cache
cannot grow. The candidates are collected first. -/
def scheduleDecodes (p : Pass C) : Pass C :=
  p.decodeLoop (decodeCandidates p.sched.running)

/-! ## Prefills -/

/-- How much of the remaining prompt goes into this step: a chunk that fits
the room left, or without chunking all of it or nothing. -/
def chunkFor (config : SchedulerConfig) (remaining room : ℕ) : Option ℕ :=
  if config.enableChunkedPrefill then some (min remaining room)
  else if remaining ≤ room then some remaining
  else none

/-- A sequence after a chunk of its prompt: a waiting one becomes a prefilling
one, and a complete one becomes a decoder. -/
def prefilled (s : Sequence) (chunk : ℕ) : Sequence :=
  let s := s.advancePrefill chunk
  let s := if s.state = .waiting then (s.transitionTo .prefilling).1 else s
  if s.isPrefillComplete then (s.transitionTo .decoding).1 else s

/-- A prefilling sequence after another chunk. -/
def resumed (s : Sequence) (chunk : ℕ) : Sequence :=
  let s := s.advancePrefill chunk
  if s.isPrefillComplete then (s.transitionTo .decoding).1 else s

/-- The loop of `schedule_partial_prefills`. -/
def partialLoop (p : Pass C) : List (SequenceId × ℕ × ℕ) → Pass C
  | [] => p
  | (id, already, remaining) :: rest =>
    if p.budget ≤ p.used then p
    else
      match chunkFor p.sched.config remaining (p.budget - p.used) with
      | none => partialLoop p rest
      | some chunk =>
        if chunk = 0 then partialLoop p rest
        else
          match p.sched.running.findKey Sequence.id id with
          | none => partialLoop p rest
          | some _ =>
            let p := { p with sched := { p.sched with
              running := p.sched.running.updateKey Sequence.id id (resumed · chunk) } }
            partialLoop (p.emit ⟨id, chunk, already, true⟩) rest

/-- The running sequences whose prompt is not through, with how much of it is
and how much is left. -/
def partialCandidates (running : List Sequence) : List (SequenceId × ℕ × ℕ) :=
  (running.filter (fun s => s.state = .prefilling && !s.isPrefillComplete)).map
    (fun s => (s.id, s.computedPrefixLen, s.remainingPrefill))

/-- Continues the sequences already in `Prefilling` that still have prompt
left. -/
def schedulePartialPrefills (p : Pass C) : Pass C :=
  p.partialLoop (partialCandidates p.sched.running)

/-- The head of the waiting queue joins the running one with a chunk of its
prompt. -/
def bringIn (p : Pass C) (seq : Sequence) (rest : List Sequence) (chunk : ℕ) : Pass C :=
  let p := { p with sched := { p.sched with
    waiting := rest
    running := p.sched.running ++ [prefilled seq chunk] } }
  p.emit ⟨seq.id, chunk, seq.computedPrefixLen, true⟩

/-- What decides whether the admission loop goes round again: the budget left
weighs more than any number of running sequences. -/
def admissionMeasure (p : Pass C) : ℕ :=
  (p.budget - p.used) * (p.sched.running.length + p.sched.waiting.length + 1)
    + p.sched.running.length

/-- An eviction, spelled out. -/
theorem preemptOne_eq_some {p p' : Pass C} (h : p.preemptOne = some p') :
    ∃ older victim, p.sched.running = older ++ [victim]
      ∧ p' = { p with
          sched := { p.sched with
            running := older
            cache := KvCacheManagerLike.free p.sched.cache victim.id
            waiting := victim.preempt.1 :: p.sched.waiting
            trace := .preempted victim :: p.sched.trace }
          out := { p.out with preempted := p.out.preempted ++ [victim.id] } } := by
  unfold preemptOne at h
  split at h
  · exact absurd h (by simp)
  · next victim hlast =>
    refine ⟨p.sched.running.dropLast, victim, ?_, (Option.some.inj h).symm⟩
    exact (List.dropLast_append_getLast? victim hlast).symm

/-- A chunk is within the prompt left and within the room left. -/
theorem chunkFor_le {config : SchedulerConfig} {remaining room chunk : ℕ}
    (h : chunkFor config remaining room = some chunk) :
    chunk ≤ remaining ∧ chunk ≤ room := by
  unfold chunkFor at h
  split at h
  · obtain rfl := Option.some.inj h
    exact ⟨min_le_left _ _, min_le_right _ _⟩
  · split at h
    · next hle =>
      obtain rfl := Option.some.inj h
      exact ⟨le_rfl, hle⟩
    · exact absurd h (by simp)

/-- An eviction keeps the budget and shortens the running queue. -/
theorem admissionMeasure_preemptOne {p p' : Pass C} (h : p.preemptOne = some p') :
    p'.admissionMeasure < p.admissionMeasure := by
  obtain ⟨older, victim, hrun, rfl⟩ := preemptOne_eq_some h
  show (p.budget - p.used) * (older.length + (p.sched.waiting.length + 1) + 1)
    + older.length < _
  unfold admissionMeasure
  rw [hrun, List.length_append, List.length_singleton]
  have hsum : older.length + (p.sched.waiting.length + 1) + 1
      = older.length + 1 + p.sched.waiting.length + 1 := by omega
  rw [hsum]
  exact Nat.lt_succ_self _

omit [KvCacheManagerLike C] in
/-- An admission spends some of the budget. -/
theorem admissionMeasure_bringIn {p : Pass C} {seq : Sequence} {rest : List Sequence}
    {chunk : ℕ} (hw : p.sched.waiting = seq :: rest) (hpos : chunk ≠ 0)
    (hroom : chunk ≤ p.budget - p.used) :
    (p.bringIn seq rest chunk).admissionMeasure < p.admissionMeasure := by
  have hleft : p.budget - (p.used + chunk) + 1 ≤ p.budget - p.used := by omega
  set k := p.sched.running.length + p.sched.waiting.length + 1 with hk
  have hmeasure : (p.bringIn seq rest chunk).admissionMeasure
      = (p.budget - (p.used + chunk)) * k + (p.sched.running.length + 1) := by
    show (p.budget - (p.used + chunk))
      * ((p.sched.running ++ [prefilled seq chunk]).length + rest.length + 1)
      + (p.sched.running ++ [prefilled seq chunk]).length = _
    rw [List.length_append, List.length_singleton, hk, hw, List.length_cons]
    ring
  rw [hmeasure]
  show _ < (p.budget - p.used) * k + p.sched.running.length
  have hmul := Nat.mul_le_mul_right k hleft
  rw [Nat.succ_mul] at hmul
  have hbig : 1 < k := by rw [hk, hw, List.length_cons]; omega
  omega

/-- The loop of `schedule_prefills`. -/
def admissionLoop (p : Pass C) : Pass C :=
  if p.sched.config.maxNumSeqs ≤ p.sched.running.length ∨ p.budget ≤ p.used then p
  else
    match _hw : p.sched.waiting with
    | [] => p
    | seq :: rest =>
      match _hc : chunkFor p.sched.config (seq.promptLen - seq.computedPrefixLen)
          (p.budget - p.used) with
      | none => p
      | some chunk =>
        if _hpos : chunk = 0 then p
        -- only the first chunk allocates
        else if seq.computedPrefixLen = 0 then
          if KvCacheManagerLike.canAllocate p.sched.cache seq.promptLen then
            match KvCacheManagerLike.allocate p.sched.cache seq.id seq.prompt with
            | (c, .ok ()) => admissionLoop ((p.withCache c).bringIn seq rest chunk)
            | (c, .error _) =>
              { p with sched := { p.sched with
                cache := c, waiting := seq.preempt.1 :: rest } }
          else
            match _hp : p.preemptOne with
            | none => p
            | some p => admissionLoop p
        else admissionLoop (p.bringIn seq rest chunk)
termination_by p.admissionMeasure
decreasing_by
  · exact admissionMeasure_bringIn _hw _hpos (chunkFor_le _hc).2
  · exact admissionMeasure_preemptOne _hp
  · exact admissionMeasure_bringIn _hw _hpos (chunkFor_le _hc).2

/-- Admits waiting sequences into the remaining token budget, after resuming
the partial prefills. -/
def schedulePrefills (p : Pass C) : Pass C := p.schedulePartialPrefills.admissionLoop

end Pass

namespace Scheduler

/-- Creates a scheduler over a cache. -/
def new (config : SchedulerConfig) (cache : C) : Scheduler C := ⟨config, [], [], cache, []⟩

/-- Whether any work is outstanding. -/
def hasWork (s : Scheduler C) : Bool := !s.waiting.isEmpty || !s.running.isEmpty

def maxModelLen (s : Scheduler C) : ℕ := s.config.maxModelLen.getD usizeMax

/-- Admits a request, or rejects it if the engine is over its limits. The sum
of the two lengths is a `usize`. -/
def addRequest (s : Scheduler C) (seq : Sequence) :
    Scheduler C × Except EngineError SequenceId :=
  if s.config.maxWaitingRequests ≤ s.waiting.length then
    (s, .error (.queueFull s.waiting.length s.config.maxWaitingRequests))
  else if s.maxModelLen < (seq.promptLen + seq.params.maxTokens) % 2 ^ 64 then
    (s, .error (.contextLengthExceeded seq.promptLen seq.params.maxTokens s.maxModelLen))
  else
    -- a prompt that could never fit the whole cache
    let blocks := KvCacheManagerLike.blocksNeededFor s.cache seq.promptLen
    if KvCacheManagerLike.totalBlocks s.cache < blocks then
      (s, .error (.cacheExhausted blocks (KvCacheManagerLike.totalBlocks s.cache)))
    else ({ s with waiting := s.waiting ++ [seq] }, .ok seq.id)

/-- Cancels a request wherever it currently sits; `true` if it was found. The
sequence taken out of the running queue is dropped, so its being finished is
visible to nobody. -/
def cancel (s : Scheduler C) (id : SequenceId) : Scheduler C × Bool :=
  if s.waiting.any (fun w => w.id = id) then
    ({ s with waiting := s.waiting.eraseKey Sequence.id id }, true)
  else if s.running.any (fun r => r.id = id) then
    ({ s with
        running := s.running.eraseKey Sequence.id id
        cache := KvCacheManagerLike.free s.cache id }, true)
  else (s, false)

/-- Where a `schedule` call starts. -/
def pass (s : Scheduler C) : Pass C := ⟨s, .empty, 0⟩

/-- The passes of one `schedule` call, in the configured order. -/
def passes (s : Scheduler C) : Pass C :=
  if s.config.prioritizeDecode then s.pass.scheduleDecodes.schedulePrefills
  else s.pass.schedulePrefills.scheduleDecodes

/-- Builds the batch for one engine step. -/
def schedule (s : Scheduler C) : Scheduler C × SchedulerOutput :=
  (s.passes.sched, s.passes.out)

/-- Borrows a running sequence. -/
def runningSequence (s : Scheduler C) (id : SequenceId) : Option Sequence :=
  s.running.findKey Sequence.id id

def stopReason (seq : Sequence) (token : TokenId) (eosIds : List TokenId)
    (params : SamplingParams) : Option FinishReason :=
  if (eosIds.contains token || params.stopTokenIds.contains token) && seq.mayStopOnEos then
    some .stop
  else if seq.reachedMaxTokens then some .length
  else none

/-- A sequence after a generated token: it is recorded, and a stop condition
finishes it. -/
def tokenReceived (token : TokenId) (eosIds : List TokenId) (seq : Sequence) : Sequence :=
  let seq := seq.pushToken token
  match stopReason seq token eosIds seq.params with
  | some r => seq.finish r
  | none => seq

/-- Records a generated token against a running sequence and applies stop
conditions. -/
def onToken (s : Scheduler C) (id : SequenceId) (token : TokenId)
    (eosIds : List TokenId) : Scheduler C × Option FinishReason :=
  match s.runningSequence id with
  | none => (s, none)
  | some seq =>
    ({ s with running :=
        s.running.updateKey Sequence.id id (tokenReceived token eosIds) },
      stopReason (seq.pushToken token) token eosIds seq.params)

/-- Retires finished sequences, freeing their cache blocks, and returns
them. -/
def reapFinished (s : Scheduler C) : Scheduler C × List Sequence :=
  let finished := s.running.filter Sequence.isFinished
  ({ s with
      running := s.running.filter (fun r => !r.isFinished)
      cache := finished.foldl (fun c r => KvCacheManagerLike.free c r.id) s.cache },
    finished)

/-- Whether a sequence has exceeded the deadline. -/
def isExpired (now limit : Instant) (seq : Sequence) : Bool :=
  limit < now - seq.arrivedAt

/-- Terminates sequences that have exceeded the configured deadline, and
returns the ids timed out: running ones are finished in place, waiting ones
taken out. -/
def expireTimeouts (s : Scheduler C) (now : Instant) : Scheduler C × List SequenceId :=
  match s.config.requestTimeoutSecs with
  | none => (s, [])
  | some secs =>
    let limit := durationFromSecs secs
    ({ s with
        running := s.running.map
          (fun r => if isExpired now limit r then r.finish .timeout else r)
        waiting := s.waiting.filter (fun w => !isExpired now limit w) },
      (s.running.filter (isExpired now limit)).map Sequence.id
        ++ (s.waiting.filter (isExpired now limit)).map Sequence.id)

/-- Publishes a completed prefill to the prefix cache. -/
def commitPrefill (s : Scheduler C) (id : SequenceId) : Scheduler C :=
  match s.runningSequence id with
  | none => s
  | some seq =>
    if seq.isPrefillComplete then
      { s with cache := KvCacheManagerLike.commitPrefill s.cache id seq.prompt }
    else s

end Scheduler
