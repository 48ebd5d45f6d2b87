import OrionServe.EngineChannels

/-!
# The engine loop

The engine runs on a thread of its own and is told what to do over a channel
of commands. It drains the commands that are there, takes a step if there is
work, and waits for a command if there is none. Handles send commands, and may
all be dropped; callers receive events and hang up; all of it interleaves
with the turns of the loop.

There are three ways out of the loop: a `Shutdown` or a closed channel while
it drains the commands, and either of them while it waits. Only a loop that
waits has no work left.
-/

/-- A command sent to the engine task. `stats` has a reply channel of its own,
which the engine only writes to. -/
inductive Command (S : Type*) where
  | generate (prompt : List TokenId) (params : SamplingParams) (events : Channel) (sampler : S)
  | cancel (id : SequenceId)
  | stats
  | shutdown

/-- Where the loop is. -/
inductive LoopPhase where
  /-- Draining the pending commands. -/
  | draining
  /-- About to take a step, or to wait if there is no work. -/
  | working
  /-- Blocked until the next command. -/
  | idle
  | returned
  deriving DecidableEq

/-- The engine task with its channel of commands. -/
structure EngineLoop (M S : Type*) where
  engine : Engine M S
  /-- The pending commands, oldest first. -/
  inbox : List (Command S)
  /-- Whether some handle is left. -/
  connected : Bool
  phase : LoopPhase
  /-- The requests that were accepted. Never read. -/
  accepted : List SequenceId

namespace EngineLoop

variable {M S F : Type*} [LanguageModel M F] [Sampler S F]

/-- A command that was received; the loop goes on in `phase`, or returns. -/
def obey (l : EngineLoop M S) (now : Instant) (rest : List (Command S)) (phase : LoopPhase) :
    Command S → EngineLoop M S
  | .generate prompt params events sampler =>
    let r := l.engine.submit prompt params events sampler now
    { l with
      engine := r.1
      inbox := rest
      phase := phase
      accepted := match r.2 with
        | .ok id => id :: l.accepted
        | .error _ => l.accepted }
  | .cancel id => { l with engine := l.engine.cancel id, inbox := rest, phase := phase }
  | .stats => { l with inbox := rest, phase := phase }
  | .shutdown => { l with inbox := rest, phase := .returned }

/-- One turn of the loop: a command, a step, or nothing as long as it is
blocked. -/
def turn (l : EngineLoop M S) (now : Instant) : EngineLoop M S :=
  match l.phase with
  | .draining =>
    match l.inbox with
    | command :: rest => l.obey now rest .draining command
    | [] => if l.connected then { l with phase := .working } else { l with phase := .returned }
  | .working =>
    -- a step that fails is logged, and the loop goes on
    if l.engine.hasWork then { l with engine := (l.engine.step now).1, phase := .draining }
    else { l with phase := .idle }
  | .idle =>
    match l.inbox with
    | command :: rest => l.obey now rest .draining command
    | [] => if l.connected then l else { l with phase := .returned }
  | .returned => l

/-- Where the engine task starts. -/
def spawn (scheduler : Scheduler KvCacheManager) (model : M) (firstId : ℕ) : EngineLoop M S :=
  ⟨.new scheduler model firstId, [], true, .draining, []⟩

end EngineLoop

/-- What can happen to the engine task. -/
inductive LoopOp (S : Type*) where
  | turn (now : Instant)
  /-- A handle sends a command. -/
  | send (command : Command S)
  /-- The last handle is dropped. -/
  | dropHandles
  /-- A caller receives an event, or hangs up. -/
  | receive (id : SequenceId)
  | hangUp (id : SequenceId)

namespace LoopOp

variable {M S F : Type*} [LanguageModel M F] [Sampler S F]

/-- The engine task afterwards. A command waits until there is room in the
channel, and finds no receiver once the loop has returned. -/
def run (queueDepth : ℕ) (l : EngineLoop M S) : LoopOp S → EngineLoop M S
  | .turn now => l.turn now
  | .send command =>
    if l.connected && l.phase ≠ .returned && l.inbox.length < max queueDepth 1 then
      { l with inbox := l.inbox ++ [command] }
    else l
  | .dropHandles => { l with connected := false }
  | .receive id => { l with engine := l.engine.receive id }
  | .hangUp id => { l with engine := l.engine.hangUp id }

/-- A list of events, in order. -/
def runAll (queueDepth : ℕ) (l : EngineLoop M S) (ops : List (LoopOp S)) : EngineLoop M S :=
  ops.foldl (run queueDepth) l

end LoopOp

namespace EngineLoop

variable {M S F : Type*} [LanguageModel M F] [Sampler S F] {l : EngineLoop M S}
  {config : SchedulerConfig} {n bs firstId queueDepth : ℕ} {flag : Bool} {model : M}

/-- **The states a run of the loop can reach.** A turn of the loop and a command
that somebody sends are operations alike, so that commands arrive in the middle
of whatever the loop is doing. -/
inductive Reachable (config : SchedulerConfig) (n bs : ℕ) (flag : Bool) (model : M)
    (firstId queueDepth : ℕ) : EngineLoop M S → Prop
  | start : Reachable config n bs flag model firstId queueDepth
      (spawn (.new config (KvCacheManager.new n bs flag)) model firstId)
  | step {l : EngineLoop M S} (op : LoopOp S)
      (h : Reachable config n bs flag model firstId queueDepth l) :
      Reachable config n bs flag model firstId queueDepth (op.run queueDepth l)

theorem Reachable.runAll (ops : List (LoopOp S)) :
    ∀ {l : EngineLoop M S}, l.Reachable config n bs flag model firstId queueDepth →
      (LoopOp.runAll queueDepth l ops).Reachable config n bs flag model firstId queueDepth := by
  induction ops with
  | nil => exact fun h => h
  | cons op ops ih => exact fun h => ih (h.step op)

/-! ## Turns -/

/-- **What holds of the loop**: its engine is one that its own runs reach, the
owners of the requests agree, and there is no work while it waits. -/
structure Sound (config : SchedulerConfig) (n bs : ℕ) (flag : Bool) (model : M) (firstId : ℕ)
    (l : EngineLoop M S) : Prop where
  engine : l.engine.Reachable config n bs flag model firstId
  tracks : l.engine.Tracks l.accepted []
  idle : l.phase = .idle → l.engine.hasWork = false

omit [LanguageModel M F] [Sampler S F] in
/-- A request that is let in is owed a terminal event from now on. -/
theorem tracks_accept {e : Engine M S} {accepted : List SequenceId} (h : e.Tracks accepted [])
    (prompt : List TokenId) (params : SamplingParams) (events : Channel) (sampler : S)
    (now : Instant) :
    (e.submit prompt params events sampler now).1.Tracks
      (match (e.submit prompt params events sampler now).2 with
        | .ok id => id :: accepted
        | .error _ => accepted) [] := by
  have hsubmit := h.submit prompt params events sampler now
  split
  · next id hok =>
    refine { hsubmit with closed := fun q hq hnone => ?_ }
    rcases List.mem_cons.mp hq with rfl | hq
    · have hactive := Engine.lookup_submit hok
      rw [hnone] at hactive
      exact absurd hactive (by simp)
    · exact hsubmit.closed q hq hnone
  · exact hsubmit

namespace Sound

/-- A command. -/
theorem obey (h : l.Sound config n bs flag model firstId) (now : Instant)
    (rest : List (Command S)) {phase : LoopPhase} (hphase : phase ≠ .idle) (command : Command S) :
    (l.obey now rest phase command).Sound config n bs flag model firstId := by
  cases command with
  | generate prompt params events sampler =>
    exact ⟨h.engine.step (.submit prompt params events sampler now),
      tracks_accept h.tracks prompt params events sampler now, fun hidle => absurd hidle hphase⟩
  | cancel id =>
    exact ⟨h.engine.step (.cancel id), h.tracks.cancel id, fun hidle => absurd hidle hphase⟩
  | stats => exact ⟨h.engine, h.tracks, fun hidle => absurd hidle hphase⟩
  | shutdown => exact ⟨h.engine, h.tracks, fun hidle => absurd hidle (by simp [EngineLoop.obey])⟩

theorem turn (h : l.Sound config n bs flag model firstId) (now : Instant) :
    (l.turn now).Sound config n bs flag model firstId := by
  unfold EngineLoop.turn
  split
  · split
    · exact h.obey now _ (by simp) _
    · split <;> exact ⟨h.engine, h.tracks, fun hidle => absurd hidle (by simp)⟩
  · split
    · exact ⟨h.engine.step (.step now), h.tracks.step now, fun hidle => absurd hidle (by simp)⟩
    · next hwork => exact ⟨h.engine, h.tracks, fun _ => by simpa using hwork⟩
  · split
    · exact h.obey now _ (by simp) _
    · split
      · exact h
      · exact ⟨h.engine, h.tracks, fun hidle => absurd hidle (by simp)⟩
  · exact h

/-- **Step lemma.** -/
theorem run (h : l.Sound config n bs flag model firstId) (op : LoopOp S) :
    (op.run queueDepth l).Sound config n bs flag model firstId := by
  cases op with
  | turn now => exact h.turn now
  | send command =>
    show (if _ then _ else _ : EngineLoop M S).Sound config n bs flag model firstId
    split
    · exact ⟨h.engine, h.tracks, h.idle⟩
    · exact h
  | dropHandles => exact ⟨h.engine, h.tracks, h.idle⟩
  | receive id =>
    refine ⟨h.engine.step (.receive id), h.tracks.receive id, fun hidle => ?_⟩
    have hsame : (l.engine.receive id).scheduler = l.engine.scheduler := by
      unfold Engine.receive
      split <;> rfl
    show (l.engine.receive id).scheduler.hasWork = false
    rw [hsame]
    exact h.idle hidle
  | hangUp id =>
    refine ⟨h.engine.step (.hangUp id), h.tracks.hangUp id, fun hidle => ?_⟩
    have hsame : (l.engine.hangUp id).scheduler = l.engine.scheduler := by
      unfold Engine.hangUp
      split <;> rfl
    show (l.engine.hangUp id).scheduler.hasWork = false
    rw [hsame]
    exact h.idle hidle

end Sound

/-- **Run lemma.** -/
theorem Reachable.sound (h : l.Reachable config n bs flag model firstId queueDepth) :
    l.Sound config n bs flag model firstId := by
  induction h with
  | start =>
    have hstart : (Engine.new (.new config (KvCacheManager.new n bs flag)) model firstId :
        Engine M S).Reachable config n bs flag model firstId := .start
    exact ⟨hstart, hstart.tracks, fun hidle => absurd hidle (by simp [spawn])⟩
  | step op _ ih => exact ih.run op

/-! ## The ways out -/

/-- No request is left exactly if every sequence in service is finished. -/
theorem active_eq_empty_iff {e : Engine M S}
    (h : e.Reachable config n bs flag model firstId) :
    e.active = ∅ ↔ ∀ q ∈ e.scheduler.queue, q.state = .finished := by
  constructor
  · intro hempty q hq
    by_contra hne
    have hactive := h.tracks.requested q hq hne
    rw [hempty] at hactive
    exact absurd hactive (by simp)
  · intro hfin
    refine AList.ext (List.eq_nil_iff_forall_not_mem.mpr (fun x hx => ?_))
    have hlookup : e.active.lookup x.1 = some x.2 := AList.mem_lookup_iff.mpr hx
    have hsome : (e.active.lookup x.1).isSome = true := by
      rw [hlookup]
      rfl
    obtain ⟨q, hq, -, hne⟩ := h.unfinished_of_active hsome
    exact hne (hfin q hq)

omit [LanguageModel M F] [Sampler S F] in
/-- Only one command ends the loop. -/
theorem obey_returned {now : Instant} {rest : List (Command S)} {command : Command S}
    (h : (l.obey now rest .draining command).phase = .returned) :
    (l.obey now rest .draining command).engine = l.engine
      ∧ (l.obey now rest .draining command).accepted = l.accepted := by
  cases command with
  | generate prompt params events sampler => exact absurd h (by simp [obey])
  | cancel id => exact absurd h (by simp [obey])
  | stats => exact absurd h (by simp [obey])
  | shutdown => exact ⟨rfl, rfl⟩

/-- **A turn that returns** leaves the engine as it is, in the middle of the
commands or while there is no work. -/
theorem turn_returned {now : Instant} (hgo : l.phase ≠ .returned)
    (hreturn : (l.turn now).phase = .returned) :
    (l.turn now).engine = l.engine ∧ (l.turn now).accepted = l.accepted
      ∧ (l.phase = .draining ∨ l.phase = .idle) := by
  rcases hphase : l.phase with - | - | - | -
  · unfold turn at hreturn ⊢
    rw [hphase] at hreturn ⊢
    simp only at hreturn ⊢
    rcases hinbox : l.inbox with - | ⟨command, rest⟩
    · refine ⟨?_, ?_, Or.inl trivial⟩ <;> simp only <;> split <;> rfl
    rw [hinbox] at hreturn
    exact ⟨(obey_returned hreturn).1, (obey_returned hreturn).2, Or.inl trivial⟩
  · unfold turn at hreturn
    rw [hphase] at hreturn
    simp only at hreturn
    split at hreturn <;> exact absurd hreturn (by simp)
  · unfold turn at hreturn ⊢
    rw [hphase] at hreturn ⊢
    simp only at hreturn ⊢
    rcases hinbox : l.inbox with - | ⟨command, rest⟩
    · refine ⟨?_, ?_, Or.inr trivial⟩ <;> simp only <;> split <;> rfl
    rw [hinbox] at hreturn
    exact ⟨(obey_returned hreturn).1, (obey_returned hreturn).2, Or.inr trivial⟩
  · exact absurd hphase hgo

/-- **When shutdown drains.** In every run of the loop, whatever commands are
sent and received in between: when it returns, no request is left exactly if it
was waiting, or every sequence in service was finished – and then every
accepted request whose channel took whatever was sent on it has had its
terminal event. A loop that is draining when the command arrives leaves at
once. -/
theorem shutdown_drains_iff (h : l.Reachable config n bs flag model firstId queueDepth)
    (hgo : l.phase ≠ .returned) (now : Instant) (hreturn : (l.turn now).phase = .returned) :
    ((l.turn now).engine.active = ∅
      ↔ (l.phase = .draining → ∀ q ∈ l.engine.scheduler.queue, q.state = .finished))
    ∧ ((l.turn now).engine.active = ∅ → ∀ id ∈ (l.turn now).accepted,
        (l.turn now).engine.AllTaken id → ∃ tokens reason p c,
          (l.turn now).engine.eventsOf id = Engine.tokenEvents tokens ++ [.done reason p c]) := by
  obtain ⟨hengine, haccepted, hphase⟩ := turn_returned hgo hreturn
  rw [hengine, haccepted]
  refine ⟨?_, fun hempty id hacc hall => h.sound.tracks.closed id hacc (by rw [hempty]; rfl) hall⟩
  rw [active_eq_empty_iff h.sound.engine]
  refine ⟨fun hall _ => hall, fun hall => ?_⟩
  rcases hphase with hdraining | hidle
  · exact hall hdraining
  · -- nobody is in service
    have hwork := h.sound.idle hidle
    intro q hq
    have hqueue : l.engine.scheduler.queue = [] := by
      unfold Engine.hasWork Scheduler.hasWork at hwork
      unfold Scheduler.queue
      rw [Bool.or_eq_false_iff, Bool.not_eq_false', Bool.not_eq_false', List.isEmpty_iff,
        List.isEmpty_iff] at hwork
      rw [hwork.1, hwork.2]
      rfl
    rw [hqueue] at hq
    exact absurd hq List.not_mem_nil

/-- A loop over a model that always answers with the token 7, after a request
for sixteen tokens, its first step and a command to shut down. -/
def interrupted : EngineLoop MockModel MockSampler :=
  LoopOp.runAll 4 (spawn (.new {} (KvCacheManager.new 4 4 true)) ⟨[]⟩ 1)
    [.send (.generate [1, 2, 3] {} ⟨8, [], true⟩ ⟨7⟩), .turn 0, .turn 0, .turn 0, .send .shutdown]

/-- **Shutdown does not drain**: the loop returns with the request still active,
after one token and no terminal event. -/
theorem shutdown_leaves_request :
    interrupted.Reachable {} 4 4 true ⟨[]⟩ 1 4
    ∧ (interrupted.turn 0).phase = .returned
    ∧ (interrupted.turn 0).accepted = [⟨1⟩]
    ∧ ((interrupted.turn 0).engine.active.lookup ⟨1⟩).isSome = true
    ∧ (interrupted.turn 0).engine.eventsOf ⟨1⟩ = [.token 7 "" 0] :=
  ⟨Reachable.start.runAll _, by decide +kernel, by decide +kernel, by decide +kernel,
    by decide +kernel⟩

/-- Shut down before it has done anything, the loop has nothing to drain. -/
theorem shutdown_drains_iff_start :
    let l : EngineLoop MockModel MockSampler :=
      LoopOp.run 4 (spawn (.new {} (KvCacheManager.new 4 4 true)) ⟨[]⟩ 1) (.send .shutdown)
    (l.turn 0).phase = .returned ∧ (l.turn 0).engine.active = ∅ := by
  intro l
  have hstart : (spawn (.new {} (KvCacheManager.new 4 4 true)) ⟨[]⟩ 1 :
      EngineLoop MockModel MockSampler).Reachable {} 4 4 true ⟨[]⟩ 1 4 := .start
  have hreturn : (l.turn 0).phase = .returned := by decide +kernel
  refine ⟨hreturn, ?_⟩
  refine (shutdown_drains_iff (hstart.step (.send .shutdown)) (by decide +kernel) 0 hreturn).1.mpr
    (fun _ q hq => ?_)
  have hqueue : l.engine.scheduler.queue = [] := by decide +kernel
  rw [hqueue] at hq
  exact absurd hq List.not_mem_nil

end EngineLoop
