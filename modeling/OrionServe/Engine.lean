import OrionServe.Batch

/-!
# The engine

One step schedules a batch, runs the model on it, samples a token for every
sequence whose prompt is through and streams it to the caller. A step that
fails returns early and leaves what it has done so far in place; the driver
logs the error and goes on with the next step.

The engine is generic over the model and the sampler. A model has a state of
its own, which its forward pass changes – the source keeps the KV store behind
a mutex – and may fail. The sampler of a request is given with the request: it
is what `DefaultSampler::for_params` returned, which may have drawn from
entropy.

The caller's end of an event channel is not part of the engine. It may take
events out at any time, or hang up, so both are operations of a run.
`forwards` and `sent` are the histories of the forward passes and of the
events, newest first; nothing reads them.
-/

/-- One unit of output streamed back to a caller. -/
inductive StreamEvent where
  /-- A generated token with the text it contributes and its index. -/
  | token (token : TokenId) (text : String) (index : ℕ)
  /-- Generation finished. -/
  | done (reason : FinishReason) (promptTokens completionTokens : ℕ)
  /-- Generation failed. The engine never sends it. -/
  | error (code message : String)
  deriving DecidableEq

/-- The bounded channel to a caller. -/
structure Channel where
  capacity : ℕ
  /-- What was sent and not yet taken out, oldest first. -/
  buffer : List StreamEvent
  /-- Whether the caller still holds the other end. -/
  connected : Bool
  deriving DecidableEq

/-- `try_send`: `true` if the event was taken. -/
def Channel.trySend (c : Channel) (ev : StreamEvent) : Channel × Bool :=
  if c.connected && c.buffer.length < c.capacity then
    ({ c with buffer := c.buffer ++ [ev] }, true)
  else (c, false)

/-- Logits produced by one forward pass, over scalars `F`. -/
structure ForwardOutput (F : Type*) where
  /-- Row-major, one row per sequence. -/
  logits : List F
  vocabSize : ℕ
  sequenceIds : List SequenceId

/-- The logits of the `i`-th sequence; `none` when the row is not all there. -/
def ForwardOutput.row {F : Type*} (out : ForwardOutput F) (i : ℕ) : Option (List F) :=
  if i * out.vocabSize + out.vocabSize ≤ out.logits.length then
    some ((out.logits.drop (i * out.vocabSize)).take out.vocabSize)
  else none

/-- A decoder-only language model with logits over `F`. -/
class LanguageModel (M : Type*) (F : outParam Type*) where
  eosTokenIds : M → List TokenId
  /-- Runs one forward pass over a ragged batch. -/
  forward : M → ForwardBatch → M × Except EngineError (ForwardOutput F)

/-- Turns a logits row into a chosen token. -/
class Sampler (S : Type*) (F : Type*) where
  sample : S → List F → List TokenId → SamplingParams → S × Except EngineError TokenId

/-- What the engine tracks for a request. -/
structure ActiveRequest (S : Type*) where
  events : Channel
  sampler : S
  promptLen : ℕ

/-- A forward pass that was run. -/
structure ForwardPass where
  batch : ForwardBatch
  /-- How long the history of the cache was at that time. -/
  stamp : ℕ
  /-- Whether the model returned logits. -/
  succeeded : Bool

/-- An event that was sent. -/
structure SentEvent where
  id : SequenceId
  event : StreamEvent
  /-- Whether the channel took it. -/
  taken : Bool
  deriving DecidableEq

/-- Everything the engine loop owns. -/
structure Engine (M S : Type*) where
  scheduler : Scheduler KvCacheManager
  model : M
  active : AList (fun _ : SequenceId => ActiveRequest S)
  eosIds : List TokenId
  /-- The counter behind `SequenceId::next`. -/
  nextId : ℕ
  /-- The history of the forward passes, newest first. Never read. -/
  forwards : List ForwardPass
  /-- The history of the events, newest first. Never read. -/
  sent : List SentEvent

namespace Engine

/-! ## Building the batch -/

/-- The tokens of an entry: the slice of the prompt that the chunk covers, or
the most recent token. The slice is never out of range. -/
def entryTokens (seq : Sequence) (e : ScheduledSequence) : List TokenId :=
  if e.isPrefill then
    (seq.prompt.take (min (e.startPosition + e.numTokens) seq.promptLen)).drop e.startPosition
  else
    match seq.output.getLast? with
    | some t => [t]
    -- a decode-scheduled sequence with no output yet takes its last prompt token
    | none => seq.prompt.getLast?.toList

/-- What an entry contributes to the batch. -/
def slotOf (seq : Sequence) (table : List BlockId) (e : ScheduledSequence) : BatchSlot :=
  ⟨e.id, entryTokens seq e, e.startPosition, table, e.isPrefill⟩

/-- One turn of the loop of `build_batch`. -/
def addEntry (s : Scheduler KvCacheManager) (b : ForwardBatch) (e : ScheduledSequence) :
    Except EngineError ForwardBatch :=
  match s.runningSequence e.id with
  -- cancelled since scheduling
  | none => .ok b
  | some seq =>
    match s.cache.rawBlockTable e.id with
    | none => .error (.internal [.seq e.id, " was scheduled without a block table"])
    | some table =>
      if (entryTokens seq e).isEmpty then .ok b else .ok (b.push (slotOf seq table e))

/-- The loop of `build_batch`. -/
def addEntries (s : Scheduler KvCacheManager) (b : ForwardBatch) :
    List ScheduledSequence → Except EngineError ForwardBatch
  | [] => .ok b
  | e :: es =>
    match addEntry s b e with
    | .ok b => addEntries s b es
    | .error err => .error err

/-- Assembles the flat batch the model consumes. -/
def buildBatch (s : Scheduler KvCacheManager) (out : SchedulerOutput) :
    Except EngineError ForwardBatch :=
  match addEntries s .empty out.scheduled with
  | .error e => .error e
  | .ok b =>
    match b.validate with
    | .error e => .error e
    | .ok () => .ok b

variable {M S F : Type*}

/-! ## Requests -/

/-- An engine with nothing to do. -/
def new [LanguageModel M F] (scheduler : Scheduler KvCacheManager) (model : M)
    (firstId : ℕ) : Engine M S :=
  ⟨scheduler, model, ∅, LanguageModel.eosTokenIds model, firstId, [], []⟩

def hasWork (e : Engine M S) : Bool := e.scheduler.hasWork

/-- Sends an event of a request that goes on. -/
def send (e : Engine M S) (id : SequenceId) (req : ActiveRequest S) (ev : StreamEvent) :
    Engine M S × Bool :=
  ({ e with
      active := e.active.insert id { req with events := (req.events.trySend ev).1 }
      sent := ⟨id, ev, (req.events.trySend ev).2⟩ :: e.sent },
    (req.events.trySend ev).2)

/-- Drops a request and sends its terminal event, if it is still there. An
event that the channel does not take is lost. -/
def sendLast (e : Engine M S) (id : SequenceId) (ev : ActiveRequest S → StreamEvent) :
    Engine M S :=
  match e.active.lookup id with
  | none => e
  | some req =>
    { e with
      active := e.active.erase id
      sent := ⟨id, ev req, (req.events.trySend (ev req)).2⟩ :: e.sent }

/-- Admits a request, registering its output channel. -/
def submit (e : Engine M S) (prompt : List TokenId) (params : SamplingParams)
    (events : Channel) (sampler : S) (now : Instant) :
    Engine M S × Except EngineError SequenceId :=
  match params.validate with
  | .error err => (e, .error err)
  | .ok () =>
    match e.scheduler.addRequest (.new ⟨e.nextId⟩ prompt params now) with
    | (s, .ok id) =>
      ({ e with
          scheduler := s
          active := e.active.insert id ⟨events, sampler, prompt.length⟩
          nextId := e.nextId + 1 }, .ok id)
    | (s, .error err) => ({ e with scheduler := s, nextId := e.nextId + 1 }, .error err)

/-- Cancels a request and notifies its caller. -/
def cancel (e : Engine M S) (id : SequenceId) : Engine M S :=
  match e.scheduler.cancel id with
  | (s, true) =>
    { e with scheduler := s }.sendLast id (fun req => .done .cancelled req.promptLen 0)
  | (s, false) => { e with scheduler := s }

/-- Cancels without emitting, for a caller that has already disconnected. -/
def cancelSilently (e : Engine M S) (id : SequenceId) : Engine M S :=
  { e with
    scheduler := (e.scheduler.cancel id).1
    active := e.active.erase id }

/-- Emits the terminal event for a sequence and drops its state. -/
def finishRequest (e : Engine M S) (id : SequenceId) (reason : FinishReason) :
    Engine M S :=
  let completion := (e.scheduler.runningSequence id).elim 0 Sequence.outputLen
  e.sendLast id (fun req => .done reason req.promptLen completion)

/-- Collects finished sequences, freeing their cache blocks and notifying any
caller that has not already been told. -/
def reap (e : Engine M S) : Engine M S :=
  e.scheduler.reapFinished.2.foldl
    (fun e r => e.sendLast r.id (fun req =>
      .done (r.finishReason.getD .stop) req.promptLen r.outputLen))
    { e with scheduler := e.scheduler.reapFinished.1 }

/-! ## The step -/

/-- Samples one token for a sequence and streams it to the caller. -/
def sampleAndEmit [Sampler S F] (e : Engine M S) (id : SequenceId) (logits : List F) :
    Engine M S × Except EngineError Unit :=
  match e.scheduler.runningSequence id with
  -- cancelled between scheduling and now
  | none => (e, .ok ())
  | some seq =>
    match e.active.lookup id with
    | none => (e, .ok ())
    | some req =>
      match Sampler.sample req.sampler logits seq.allTokens seq.params with
      | (sampler, .error err) =>
        ({ e with active := e.active.insert id { req with sampler := sampler } }, .error err)
      | (sampler, .ok token) =>
        let req := { req with sampler := sampler }
        let index := seq.allTokens.length - req.promptLen
        let r := e.scheduler.onToken id token e.eosIds
        match { e with scheduler := r.1 }.send id req (.token token "" index) with
        -- the caller is gone or its buffer is full
        | (e, false) => (e.cancelSilently id, .ok ())
        | (e, true) =>
          match r.2 with
          | some reason => (e.finishRequest id reason, .ok ())
          | none => (e, .ok ())

/-- The loop over the rows of the output. A sequence in the middle of its
prompt gets no token. -/
def emitRows [Sampler S F] (e : Engine M S) (out : ForwardOutput F) :
    List (SequenceId × ℕ) → Engine M S × Except EngineError Unit
  | [] => (e, .ok ())
  | (id, row) :: rest =>
    if (e.scheduler.runningSequence id).any (fun s => !s.isPrefillComplete) then
      e.emitRows out rest
    else
      match out.row row with
      | none =>
        (e, .error (.internal ["forward output has no row ", .nat row, " for ", .seq id]))
      | some logits =>
        match e.sampleAndEmit id logits with
        | (e, .ok ()) => e.emitRows out rest
        | (e, .error err) => (e, .error err)

/-- The commits of a step, in the order of its batch. -/
def publishAll (s : Scheduler KvCacheManager) (scheduled : List ScheduledSequence) :
    Scheduler KvCacheManager :=
  scheduled.foldl (fun s x => if x.isPrefill then s.commitPrefill x.id else s) s

/-- Publishes completed prefills so later requests can share their blocks. -/
def publish (e : Engine M S) (scheduled : List ScheduledSequence) : Engine M S :=
  { e with scheduler := publishAll e.scheduler scheduled }

/-- Retires what has timed out before a step does new work. -/
def expire (e : Engine M S) (now : Instant) : Engine M S :=
  (e.scheduler.expireTimeouts now).2.foldl (fun e id => e.finishRequest id .timeout)
    { e with scheduler := (e.scheduler.expireTimeouts now).1 }

/-- The forward pass over a batch, which goes into the history. -/
def runForward [LanguageModel M F] (e : Engine M S) (batch : ForwardBatch) :
    Engine M S × Except EngineError (ForwardOutput F) :=
  let r := LanguageModel.forward e.model batch
  ({ e with
      model := r.1
      forwards := ⟨batch, e.scheduler.cache.trace.length, r.2.toBool⟩ :: e.forwards }, r.2)

/-- What a step does with a batch that is not empty. -/
def serve [LanguageModel M F] [Sampler S F] (e : Engine M S) (out : SchedulerOutput) :
    Engine M S × Except EngineError ℕ :=
  match buildBatch e.scheduler out with
  | .error err => (e, .error err)
  | .ok batch =>
    match e.runForward batch with
    | (e, .error err) => (e, .error err)
    | (e, .ok forward) =>
      match e.emitRows forward forward.sequenceIds.zipIdx with
      | (e, .error err) => (e, .error err)
      | (e, .ok ()) => ((e.publish out.scheduled).reap, .ok forward.sequenceIds.length)

/-- Runs one engine step: schedule, forward, sample, emit. Returns the number
of sequences that ran. -/
def step [LanguageModel M F] [Sampler S F] (e : Engine M S) (now : Instant) :
    Engine M S × Except EngineError ℕ :=
  let e := e.expire now
  let (s, out) := e.scheduler.schedule
  let e := { e with scheduler := s }
  if out.isEmpty then (e.reap, .ok 0) else e.serve out

/-- Takes an event out of a channel, at the caller's end. -/
def receive (e : Engine M S) (id : SequenceId) : Engine M S :=
  match e.active.lookup id with
  | none => e
  | some req =>
    let events := { req.events with buffer := req.events.buffer.tail }
    { e with active := e.active.insert id { req with events := events } }

/-- Drops the caller's end of a channel. -/
def hangUp (e : Engine M S) (id : SequenceId) : Engine M S :=
  match e.active.lookup id with
  | none => e
  | some req =>
    let events := { req.events with connected := false }
    { e with active := e.active.insert id { req with events := events } }

end Engine

/-- What can happen to an engine: a command, a step, or a caller at its end of
a channel. -/
inductive EngineOp (S : Type*) where
  | submit (prompt : List TokenId) (params : SamplingParams) (events : Channel)
      (sampler : S) (now : Instant)
  | cancel (id : SequenceId)
  | step (now : Instant)
  | receive (id : SequenceId)
  | hangUp (id : SequenceId)

namespace EngineOp

variable {M S F : Type*} [LanguageModel M F] [Sampler S F]

/-- The engine afterwards. A step that fails is logged, and the loop goes
on. -/
def run (e : Engine M S) : EngineOp S → Engine M S
  | .submit prompt params events sampler now => (e.submit prompt params events sampler now).1
  | .cancel id => e.cancel id
  | .step now => (e.step now).1
  | .receive id => e.receive id
  | .hangUp id => e.hangUp id

/-- A list of operations, in order. -/
def runAll (e : Engine M S) (ops : List (EngineOp S)) : Engine M S := ops.foldl run e

end EngineOp
