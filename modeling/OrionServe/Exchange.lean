import OrionServe.ReceiveLoop
import OrionServe.Lib.Places

/-!
# The engine and a handler

A handler that is not told how its request ended says `length`, which is
where its `finish` starts. It is not told when the engine drops its end of
the channel without a terminal event: after an event that the channel did not
take, when the terminal event itself was not taken, or when the engine task
ends. And one that is told `length` may cut its text all the same, when what
the decoder flushes at the end completes a stop string.

The two parties share the channel of one request, and their steps interleave
freely. The handler receives what the channel has taken, in order, and goes
on until an event ends its loop or the channel is closed and empty. What it has
received then, and nothing else, decides whether the label is true.
-/

/-! ## The two parties -/

/-- The engine and the handler of one request. -/
structure Exchange (M S : Type*) where
  engine : Engine M S
  /-- Whether the task of the engine has ended, and with it every sender. -/
  exited : Bool
  /-- What the handler has received, oldest first. -/
  received : List StreamEvent
  /-- Whether the handler has found the channel closed. -/
  closed : Bool

namespace Exchange

variable {M S F D : Type*} {x x' : Exchange M S} {id : SequenceId}

/-- What is in the channel. -/
def inFlight (x : Exchange M S) (id : SequenceId) : List StreamEvent :=
  (x.engine.takenOf id).drop x.received.length

/-- The engine has dropped its end of the channel. -/
def Dropped (x : Exchange M S) (id : SequenceId) : Prop :=
  x.exited = true ∨ x.engine.active.lookup id = none

variable [LanguageModel M F] [Sampler S F] [IncrementalDecoderLike D] {d : D} {stops : List Text}

/-- The loop of the handler is over. -/
def Over (d : D) (stops : List Text) (x : Exchange M S) : Prop :=
  Handlers.Breaks d (.new stops) x.received ∨ x.closed = true

/-- **A step of one of the parties.** -/
inductive Step (id : SequenceId) (d : D) (stops : List Text) :
    Exchange M S → Exchange M S → Prop
  /-- An operation of the engine; at the caller's end of this channel only the
  handler does something. -/
  | engine {x : Exchange M S} (op : EngineOp S) (alive : x.exited = false)
      (receiver : op ≠ .receive id) (holder : op ≠ .hangUp id) :
      Step id d stops x { x with engine := op.run x.engine }
  /-- The task of the engine ends. -/
  | exit {x : Exchange M S} : Step id d stops x { x with exited := true }
  /-- The handler receives. -/
  | receive {x : Exchange M S} {ev : StreamEvent} {rest : List StreamEvent}
      (goes : ¬ x.Over d stops) (next : x.inFlight id = ev :: rest) :
      Step id d stops x
        { x with engine := x.engine.receive id, received := x.received ++ [ev] }
  /-- The handler finds the channel empty and closed. -/
  | close {x : Exchange M S} (goes : ¬ x.Over d stops) (empty : x.inFlight id = [])
      (dropped : x.Dropped id) : Step id d stops x { x with closed := true }
  /-- The handler drops its end. -/
  | hangUp {x : Exchange M S} (isOver : x.Over d stops) :
      Step id d stops x { x with engine := x.engine.hangUp id }

/-- **The states of an exchange**, from the acceptance of the request on. The engine
and the handler take their steps in any order: the engine may be done before the
handler has received anything, and the handler may stop listening at any time. -/
inductive Reachable (config : SchedulerConfig) (n bs : ℕ) (flag : Bool) (model : M) (firstId : ℕ)
    (prompt : List TokenId) (params : SamplingParams) (id : SequenceId) (d : D)
    (stops : List Text) : Exchange M S → Prop
  | accepted {e : Engine M S} (h : e.Reachable config n bs flag model firstId)
      {capacity : ℕ} {sampler : S} {now : Instant}
      (hok : (e.submit prompt params ⟨capacity, [], true⟩ sampler now).2 = .ok id) :
      Reachable config n bs flag model firstId prompt params id d stops
        ⟨(e.submit prompt params ⟨capacity, [], true⟩ sampler now).1, false, [], false⟩
  | step {x x' : Exchange M S}
      (h : Reachable config n bs flag model firstId prompt params id d stops x)
      (hstep : Step id d stops x x') :
      Reachable config n bs flag model firstId prompt params id d stops x'

/-- **What holds of an exchange**: the handler has received what the channel
took, from the first event on, and the buffer holds the rest. -/
structure Sound (id : SequenceId) (params : SamplingParams) (promptLen : ℕ) (x : Exchange M S) :
    Prop where
  lives : ∃ eosIds life, x.engine.Lives id params promptLen eosIds False life
  tracks : x.engine.Tracks [] []
  received : x.received <+: x.engine.takenOf id
  buffer : ∀ req, x.engine.active.lookup id = some req → req.events.buffer = x.inFlight id
  closed : x.closed = true → x.received = x.engine.takenOf id ∧ x.Dropped id

namespace Sound

variable {params : SamplingParams} {promptLen : ℕ}

omit [LanguageModel M F] [Sampler S F] in
/-- What was taken is what was received and what is in the channel. -/
theorem taken_eq (h : x.Sound id params promptLen) :
    x.engine.takenOf id = x.received ++ x.inFlight id :=
  (List.prefix_iff_eq_append.mp h.received).symm

/-- An operation of the engine, or the handler dropping its end. -/
theorem run (h : x.Sound id params promptLen) {op : EngineOp S} (hop : op ≠ .receive id)
    (halive : x.exited = true → op = .hangUp id) :
    Sound id params promptLen { x with engine := op.run x.engine } := by
  obtain ⟨eosIds, life, hlife⟩ := h.lives
  obtain ⟨life', hlife'⟩ := hlife.run h.tracks op
  have hspeaks : x.engine.Speaks id (op.run x.engine) := Engine.speaks_run hlife.idLt hop
  refine ⟨⟨eosIds, life', hlife'⟩, h.tracks.run op, h.received.trans hspeaks.taken,
    fun req' hreq' => ?_, fun hclosed => ?_⟩
  · obtain ⟨new, hnew, hbuffer⟩ := hspeaks
    obtain ⟨req, hreq, hb⟩ := hbuffer req' hreq'
    rw [hb, h.buffer req hreq]
    show _ = (Engine.takenEvents ((op.run x.engine).historyOf id)).drop x.received.length
    rw [hnew, Engine.takenEvents_append]
    exact (List.drop_append_of_le_length h.received.length_le).symm
  · obtain ⟨hall, hexited | hnone⟩ := h.closed hclosed
    · -- only the handler does something
      obtain rfl := halive hexited
      exact ⟨hall.trans (Engine.takenOf_congr (Engine.sent_hangUp _ id) id).symm, Or.inl hexited⟩
    · obtain ⟨hhist, hnone'⟩ := hlife.over_run h.tracks (hlife.not_going hnone) hop
      refine ⟨hall.trans ?_, Or.inr hnone'⟩
      unfold Engine.takenOf
      rw [hhist]

/-- The handler receives. -/
theorem receive (h : x.Sound id params promptLen) {ev : StreamEvent} {rest : List StreamEvent}
    (hnext : x.inFlight id = ev :: rest) (hopen : x.closed = false) :
    Sound id params promptLen
      { x with engine := x.engine.receive id, received := x.received ++ [ev] } := by
  obtain ⟨eosIds, life, hlife⟩ := h.lives
  have htaken : (x.engine.receive id).takenOf id = x.engine.takenOf id :=
    Engine.takenOf_congr (Engine.sent_receive _ id) id
  have hsplit : x.engine.takenOf id = (x.received ++ [ev]) ++ rest := by
    rw [h.taken_eq, hnext, List.append_assoc]
    rfl
  refine ⟨⟨eosIds, life, hlife.receive id⟩, h.tracks.receive id, ?_, fun req' hreq' => ?_,
    fun hclosed => absurd (hopen.symm.trans hclosed) (by simp)⟩
  · show x.received ++ [ev] <+: (x.engine.receive id).takenOf id
    rw [htaken, hsplit]
    exact List.prefix_append _ _
  · show req'.events.buffer
      = ((x.engine.receive id).takenOf id).drop (x.received ++ [ev]).length
    rw [htaken, hsplit, List.drop_left]
    have hlookup := (x.engine.lookup_receive id).symm.trans hreq'
    obtain ⟨req, hreq, rfl⟩ := Option.map_eq_some_iff.mp hlookup
    show req.events.buffer.tail = rest
    rw [h.buffer req hreq, hnext]
    rfl

/-- **Step lemma.** -/
theorem step (h : x.Sound id params promptLen) (hstep : Step id d stops x x') :
    x'.Sound id params promptLen := by
  cases hstep with
  | engine op alive receiver holder =>
    exact h.run receiver (fun hexited => absurd (alive.symm.trans hexited) (by simp))
  | exit =>
    refine ⟨h.lives, h.tracks, h.received, h.buffer, fun hclosed => ?_⟩
    exact ⟨(h.closed hclosed).1, Or.inl rfl⟩
  | receive goes next =>
    refine h.receive next ?_
    rcases hclosed : x.closed with - | -
    · rfl
    · exact absurd (Or.inr hclosed) goes
  | close goes empty dropped =>
    refine ⟨h.lives, h.tracks, h.received, h.buffer, fun _ => ⟨?_, dropped⟩⟩
    have htaken := h.taken_eq
    rw [empty, List.append_nil] at htaken
    exact htaken.symm
  | hangUp isOver =>
    have hop : EngineOp.hangUp id ≠ (.receive id : EngineOp S) := by simp
    exact h.run hop (fun _ => rfl)

end Sound

/-- **Run lemma.** -/
theorem Reachable.sound {config : SchedulerConfig} {n bs firstId : ℕ} {flag : Bool} {model : M}
    {prompt : List TokenId} {params : SamplingParams}
    (h : x.Reachable config n bs flag model firstId prompt params id d stops) :
    x.Sound id params prompt.length := by
  induction h with
  | @accepted e h capacity sampler now hok =>
    have hlife := Engine.lives_submit h.tracks hok
    have htaken : (e.submit prompt params ⟨capacity, [], true⟩ sampler now).1.takenOf id
        = [] := by
      unfold Engine.takenOf
      rw [hlife.history]
      rfl
    refine ⟨⟨_, _, hlife⟩, h.tracks.submit prompt params _ sampler now, List.nil_prefix,
      fun req hreq => ?_, fun hclosed => absurd hclosed (by simp)⟩
    obtain rfl := Option.some.inj ((Engine.channel_submit hok).symm.trans hreq)
    exact htaken.symm
  | step h hstep ih => exact ih.step hstep

/-! ## What has come of a request -/

/-- The tokens that the engine has generated for a request. -/
def generated (x : Exchange M S) (id : SequenceId) : List TokenId :=
  Engine.tokensIn (x.engine.eventsOf id)

section Told

variable {config : SchedulerConfig} {n bs firstId : ℕ} {flag : Bool} {model : M}
  {prompt : List TokenId} {params : SamplingParams} {promptLen : ℕ}

/-- The parameters of a request that was accepted are valid. -/
theorem Reachable.valid
    (h : x.Reachable config n bs flag model firstId prompt params id d stops) :
    params.validate = .ok () := by
  induction h with
  | accepted h hok => exact (Engine.submit_of_ok hok).1
  | step h hstep ih => exact ih

/-- **Only the last event ends the loop**, for the handler receives no more. -/
theorem Reachable.unbroken
    (h : x.Reachable config n bs flag model firstId prompt params id d stops) :
    ∀ before ev, x.received = before ++ [ev] → ¬ Handlers.Breaks d (.new stops) before := by
  induction h with
  | accepted h hok =>
    intro before ev hsplit
    exact absurd hsplit (by simp)
  | step h hstep ih =>
    cases hstep with
    | engine op alive receiver holder => exact ih
    | exit => exact ih
    | receive goes next =>
      intro before ev' hsplit
      obtain ⟨rfl, -⟩ := List.append_inj' hsplit rfl
      exact fun hbreaks => goes (Or.inl hbreaks)
    | close goes empty dropped => exact ih
    | hangUp isOver => exact ih

omit [LanguageModel M F] [Sampler S F] in
/-- **What the channel has taken**: the tokens that were generated, perhaps
without the last, or all of them and how the generation ended. -/
theorem Sound.taken_cases (h : x.Sound id params promptLen) :
    (∃ tokens more, x.engine.takenOf id = Engine.tokenEvents tokens
        ∧ x.generated id = tokens ++ more ∧ more.length ≤ 1
        ∧ (x.generated id).length ≤ params.maxTokens)
      ∨ ∃ reason n, x.engine.takenOf id
          = Engine.tokenEvents (x.generated id) ++ [.done reason promptLen n]
        ∧ Ending params x.engine.eosIds (x.generated id) reason n := by
  obtain ⟨eosIds, life, hlife⟩ := h.lives
  have htaken : x.engine.takenOf id = Engine.takenEvents (life.sent promptLen) := by
    unfold Engine.takenOf
    rw [hlife.history]
  have hgenerated : x.generated id = Engine.tokensIn ((life.sent promptLen).map Prod.fst) := by
    unfold generated
    rw [Engine.eventsOf_eq_map, hlife.history]
  cases life with
  | going tokens =>
    have hgen : x.generated id = tokens := by
      rw [hgenerated, Life.sent, ← List.append_nil ((Engine.tokenEvents tokens).map _),
        Engine.tokensIn_sent]
      exact List.append_nil _
    have hgoes : GoesOn params eosIds tokens := hlife.valid
    exact Or.inl ⟨tokens, [], htaken.trans (Engine.takenEvents_true _),
      hgen.trans (List.append_nil _).symm, Nat.zero_le _, hgen ▸ hgoes.below.le⟩
  | ended tokens reason completion told =>
    have hgen : x.generated id = tokens :=
      hgenerated.trans ((Engine.tokensIn_sent tokens _).trans (List.append_nil _))
    have hall := htaken.trans (Engine.takenEvents_sent tokens _)
    have hending : Ending params eosIds tokens reason completion := hlife.valid
    rcases told with - | -
    · exact Or.inl ⟨tokens, [], hall.trans (List.append_nil _),
        hgen.trans (List.append_nil _).symm, Nat.zero_le _, hgen ▸ hending.length_le⟩
    · refine Or.inr ⟨reason, completion, ?_, ?_⟩
      · rw [hgen]
        exact hall
      · rw [hgen, hlife.eos]
        exact hending
  | dropped tokens token =>
    have hgoes : GoesOn params eosIds tokens := hlife.valid
    have hgen : x.generated id = tokens ++ [token] :=
      hgenerated.trans (Engine.tokensIn_sent tokens _)
    refine Or.inl ⟨tokens, [token],
      htaken.trans ((Engine.takenEvents_sent tokens _).trans (List.append_nil _)), hgen,
      le_rfl, ?_⟩
    rw [hgen, List.length_append]
    exact hgoes.below

omit [LanguageModel M F] [Sampler S F] in
/-- The engine sends no error. -/
theorem Sound.no_error (h : x.Sound id params promptLen) (code message : String) :
    StreamEvent.error code message ∉ x.received := by
  intro hmem
  have htaken := h.received.subset hmem
  have hnot : ∀ tokens, StreamEvent.error code message ∉ Engine.tokenEvents tokens := by
    intro tokens hin
    obtain ⟨a, -, heq⟩ := List.mem_map.mp hin
    exact absurd heq (by simp)
  rcases h.taken_cases with ⟨tokens, more, heq, -⟩ | ⟨reason, n, heq, -⟩
  · exact hnot tokens (heq ▸ htaken)
  · rcases List.mem_append.mp (heq ▸ htaken) with hin | hin
    · exact hnot _ hin
    · exact absurd (List.mem_singleton.mp hin) (by simp)

omit [LanguageModel M F] [Sampler S F] in
/-- A handler has received what was generated, from the first token on. -/
theorem Sound.received_prefix (h : x.Sound id params promptLen) :
    Engine.tokensIn x.received <+: x.generated id := by
  have hprefix : Engine.tokensIn x.received <+: Engine.tokensIn (x.engine.takenOf id) :=
    h.received.filterMap _
  rcases h.taken_cases with ⟨tokens, more, heq, hgen, -⟩ | ⟨reason, n, heq, -⟩
  · rw [heq, Engine.tokensIn_tokenEvents] at hprefix
    rw [hgen]
    exact hprefix.trans (List.prefix_append _ _)
  · rw [heq, Engine.tokensIn_append, Engine.tokensIn_tokenEvents] at hprefix
    exact hprefix.trans (by rw [show Engine.tokensIn [.done reason promptLen n] = [] from rfl,
      List.append_nil])

omit [LanguageModel M F] [Sampler S F] in
/-- **A channel that was closed** and said nothing of an end: at most the last
token did not get through. -/
theorem Sound.closed_cases (h : x.Sound id params promptLen) (hclosed : x.closed = true)
    (hundone : ∀ reason p n, .done reason p n ∉ x.received) :
    ∃ more, x.generated id = Engine.tokensIn x.received ++ more ∧ more.length ≤ 1
      ∧ (x.generated id).length ≤ params.maxTokens := by
  have hall := (h.closed hclosed).1
  rcases h.taken_cases with ⟨tokens, more, htaken, hgen, hmore, hle⟩ | ⟨reason, n, htaken, -⟩
  · refine ⟨more, ?_, hmore, hle⟩
    rw [hall, htaken, Engine.tokensIn_tokenEvents]
    exact hgen
  · refine absurd ?_ (hundone reason promptLen n)
    rw [hall, htaken]
    exact List.mem_append_right _ (List.mem_singleton.mpr rfl)

omit [LanguageModel M F] [Sampler S F] in
/-- **A handler that was told how the request ended** has received every token. -/
theorem Sound.told (h : x.Sound id params promptLen) {before : List StreamEvent}
    {reason : FinishReason} {p n : ℕ} (hsplit : x.received = before ++ [.done reason p n]) :
    Engine.tokensIn x.received = x.generated id
      ∧ Ending params x.engine.eosIds (x.generated id) reason n := by
  obtain ⟨more, hmore⟩ := h.received
  have hmem : .done reason p n ∈ x.engine.takenOf id := by
    rw [← hmore, hsplit]
    exact List.mem_append_left _ (List.mem_append_right _ (List.mem_singleton.mpr rfl))
  rcases h.taken_cases with ⟨tokens, _, htaken, -⟩ | ⟨reason', m, htaken, hending⟩
  · rw [htaken] at hmem
    exact absurd hmem Engine.done_notMem_tokenEvents
  · have hwhole : before ++ .done reason p n :: more
        = Engine.tokenEvents (x.generated id) ++ [.done reason' promptLen m] := by
      rw [← htaken, ← hmore, hsplit, List.append_assoc]
      rfl
    obtain ⟨hbefore, hsame⟩ := List.eq_of_append_cons hwhole Engine.done_notMem_tokenEvents
    injection hsame with hreason _ hn
    rw [← hreason, ← hn] at hending
    refine ⟨?_, hending⟩
    rw [hsplit, Engine.tokensIn_append, hbefore, Engine.tokensIn_tokenEvents]
    exact List.append_nil _

end Told

/-! ## The label of a reply -/

/-- **`length` is true of a reply** with this text and this count: as many tokens
were generated as were asked for, and the reply reflects them all. Its text is
theirs from end to end, with what the decoder flushes behind the last one, and
all of them are counted. -/
structure Truthful (id : SequenceId) (params : SamplingParams) (d : D) (x : Exchange M S)
    (content : Text) (count : ℕ) : Prop where
  full : (x.generated id).length = params.maxTokens
  reflected : Handlers.wholeText d (x.generated id) = some content
  counted : count = params.maxTokens

/-- **The handler has heard of another label**: the engine told it one, or the
pieces of its tokens complete a stop string. -/
def OtherLabel (d : D) (stops : List Text) (x : Exchange M S) : Prop :=
  (∃ reason p n, .done reason p n ∈ x.received ∧ reason ≠ .length)
    ∨ ∃ r, Handlers.pushAll d (Engine.tokensIn x.received) = some r ∧ Stops stops r.2

/-- **The handler has all that was asked for**, and nothing is left in the
decoder. -/
def Complete (params : SamplingParams) (d : D) (x : Exchange M S) : Prop :=
  (Engine.tokensIn x.received).length = params.maxTokens
    ∧ ∃ r, Handlers.pushAll d (Engine.tokensIn x.received) = some r
      ∧ IncrementalDecoderLike.finish r.1 = .ok []

/-- **What a handler must have heard** for a reply in one piece to be right about
`length`: of another label, or of a token that does not decode, either of which
leaves it without this one; of the end for length, provided that what the decoder
flushes does not complete a stop string, since the text is cut there; or else of
everything. -/
def ToldAll (params : SamplingParams) (d : D) (stops : List Text) (x : Exchange M S) : Prop :=
  x.OtherLabel d stops
    ∨ Handlers.pushAll d (Engine.tokensIn x.received) = none
    ∨ (∃ p n, .done .length p n ∈ x.received
      ∧ ∀ text, Handlers.wholeText d (Engine.tokensIn x.received) = some text →
        ¬ Stops stops text)
    ∨ x.Complete params d

/-- **And for a streamed reply**, which is not cut in what the decoder flushes,
but keeps its label when the decoder fails. -/
def StreamToldAll (params : SamplingParams) (d : D) (stops : List Text) (x : Exchange M S) :
    Prop :=
  x.OtherLabel d stops
    ∨ (∃ p n, .done .length p n ∈ x.received
      ∧ ∃ text, Handlers.wholeText d (Engine.tokensIn x.received) = some text)
    ∨ x.Complete params d

section Label

open Handlers

variable {params : SamplingParams} {promptLen : ℕ} {d' : D} {text tail : Text}
  {result : Except EngineError Collected} {s : Streamed}

omit [LanguageModel M F] [Sampler S F] in
/-- No other label was heard of. -/
theorem not_otherLabel (hdone : ∀ reason p n, .done reason p n ∈ x.received → reason = .length)
    (hpushed : pushAll d (Engine.tokensIn x.received) = some (d', text))
    (hquiet : ¬ Stops stops text) : ¬ x.OtherLabel d stops := by
  rintro (⟨reason, p, n, hmem, hother⟩ | ⟨r, hr, hstops⟩)
  · exact hother (hdone reason p n hmem)
  · obtain rfl := Option.some.inj (hpushed.symm.trans hr)
    exact hquiet hstops

omit [LanguageModel M F] [Sampler S F] in
/-- **A channel that was closed** without a word: the reply is right exactly when
the handler has everything. -/
theorem Sound.truthful_closed_iff (h : x.Sound id params promptLen) (hclosed : x.closed = true)
    (hundone : ∀ reason p n, .done reason p n ∉ x.received)
    (hpushed : pushAll d (Engine.tokensIn x.received) = some (d', text)) :
    x.Truthful id params d text (Engine.tokensIn x.received).length ↔ x.Complete params d := by
  obtain ⟨more, hgen, -, hle⟩ := h.closed_cases hclosed hundone
  have hwhole := wholeText_eq hpushed
  constructor
  · intro htrue
    have hlength := htrue.full
    rw [hgen, List.length_append, htrue.counted] at hlength
    obtain rfl : more = [] := List.eq_nil_of_length_eq_zero (by omega)
    have hreflected := htrue.reflected
    rw [hgen, List.append_nil, hwhole] at hreflected
    refine ⟨htrue.counted, (d', text), hpushed, ?_⟩
    rcases hf : IncrementalDecoderLike.finish d' with err | tail
    · rw [hf] at hreflected
      exact absurd hreflected (by simp)
    · rw [hf] at hreflected
      obtain rfl := List.append_right_eq_self.mp (Option.some.inj hreflected)
      rfl
  · rintro ⟨hmax, r, hr, hflush⟩
    obtain rfl := Option.some.inj (hpushed.symm.trans hr)
    rw [hgen, List.length_append, hmax] at hle
    obtain rfl : more = [] := List.eq_nil_of_length_eq_zero (by omega)
    rw [List.append_nil] at hgen
    refine ⟨(congrArg List.length hgen).trans hmax, ?_, hmax⟩
    rw [hgen, hwhole, hflush]
    exact congrArg some (List.append_nil text)

omit [LanguageModel M F] [Sampler S F] in
/-- **A handler that was told `length`**: what a true reply shows is the whole text
of what it received. -/
theorem Sound.truthful_told_iff (h : x.Sound id params promptLen) {before : List StreamEvent}
    {p n : ℕ} (hsplit : x.received = before ++ [.done .length p n]) (content : Text) :
    x.Truthful id params d content (max n (Engine.tokensIn x.received).length)
      ↔ wholeText d (Engine.tokensIn x.received) = some content := by
  obtain ⟨hall, hending⟩ := h.told hsplit
  have hcount : max n (Engine.tokensIn x.received).length = params.maxTokens := by
    rw [hall, max_eq_right hending.count_le]
    exact hending.full
  constructor
  · intro htrue
    rw [hall]
    exact htrue.reflected
  · intro hwhole
    exact ⟨hending.full, hall ▸ hwhole, hcount⟩

omit [LanguageModel M F] [Sampler S F] in
/-- The event that ended the loop is the only one of its kind. -/
theorem done_of_mem {before : List StreamEvent} {reason : FinishReason} {p n : ℕ}
    (hsplit : x.received = before ++ [.done reason p n])
    (hundone : ∀ reason p n, StreamEvent.done reason p n ∉ before) :
    ∀ reason' p' n', .done reason' p' n' ∈ x.received → reason' = reason := by
  intro reason' p' n' hmem
  rw [hsplit] at hmem
  rcases List.mem_append.mp hmem with hmem | hmem
  · exact absurd hmem (hundone reason' p' n')
  · have hlast := List.mem_singleton.mp hmem
    injection hlast

omit [LanguageModel M F] [Sampler S F] in
/-- **The receive loop of the replies in one piece.** -/
theorem Sound.collected_iff (h : x.Sound id params promptLen) (hover : x.Over d stops)
    (hne : ∀ s ∈ stops, s ≠ []) (hheard : Heard d stops x.received result s) :
    (∀ c, result = .ok c → c.finish = .length →
      x.Truthful id params d (cut stops c.text) c.completionTokens)
      ↔ x.ToldAll params d stops := by
  have hcut : ∀ text, cut stops text = text ↔ ¬ Stops stops text :=
    (StopSequenceMatcher.new stops).truncateAtStop_eq_self_iff hne
  cases hheard with
  | @closed d' c s goes undone unbroken =>
    have hclosed : x.closed = true := hover.resolve_left unbroken
    have hiff := h.truthful_closed_iff hclosed undone goes.pushed
    rw [← goes.collected, ← (hcut c.text).mpr goes.quiet] at hiff
    constructor
    · intro hall
      exact Or.inr (Or.inr (Or.inr (hiff.mp (hall c rfl goes.untold.1))))
    · rintro (hother | hnone | ⟨p, n, hmem, -⟩ | hcomplete) c' hc' -
      · exact absurd hother (not_otherLabel
          (fun reason p n hmem => absurd hmem (undone reason p n)) goes.pushed goes.quiet)
      · exact absurd (goes.pushed.symm.trans hnone) (by simp)
      · exact absurd hmem (undone .length p n)
      · obtain rfl := Except.ok.inj hc'
        exact hiff.mpr hcomplete
  | undecodable goes undone fails =>
    exact ⟨fun _ => Or.inr (Or.inl fails), fun _ c hc => absurd hc (by simp)⟩
  | stopped split goes pushed same completes =>
    refine ⟨fun _ => Or.inl (Or.inr ⟨_, split ▸ pushed, completes⟩), fun _ c hc hlength => ?_⟩
    obtain rfl := Except.ok.inj hc
    exact absurd hlength (by simp)
  | @done before reason p n d' c s tail split goes undone flushed =>
    have hmem : .done reason p n ∈ x.received := by
      rw [split]
      exact List.mem_append_right _ (List.mem_singleton.mpr rfl)
    by_cases hlength : reason = .length
    swap
    · refine ⟨fun _ => Or.inl (Or.inl ⟨reason, p, n, hmem, hlength⟩), fun _ c hc hc' => ?_⟩
      obtain rfl := Except.ok.inj hc
      exact absurd hc' hlength
    subst hlength
    have hwhole := wholeText_eq goes.pushed
    rw [flushed] at hwhole
    have hiff := h.truthful_told_iff (d := d) split (cut stops (c.text ++ tail))
    rw [hwhole, ← goes.collected, Option.some_inj, eq_comm, hcut] at hiff
    constructor
    · intro hall
      refine Or.inr (Or.inr (Or.inl ⟨p, n, hmem, fun text htext => ?_⟩))
      obtain rfl := Option.some.inj (hwhole.symm.trans htext)
      exact hiff.mp (hall _ rfl rfl)
    · intro htold c' hc' _
      obtain rfl := Except.ok.inj hc'
      refine hiff.mpr ?_
      rcases htold with hother | hnone | ⟨-, -, -, hquiet⟩ | ⟨-, r, hr, hempty⟩
      · exact absurd hother (not_otherLabel (done_of_mem split undone) goes.pushed goes.quiet)
      · exact absurd (goes.pushed.symm.trans hnone) (by simp)
      · exact hquiet _ hwhole
      · obtain rfl := Option.some.inj (goes.pushed.symm.trans hr)
        obtain rfl := Except.ok.inj (flushed.symm.trans hempty)
        rw [List.append_nil]
        exact goes.quiet
  | @unflushed before reason p n d' c s err split goes undone fails =>
    refine ⟨fun _ => ?_, fun _ c hc => absurd hc (by simp)⟩
    have hmem : .done reason p n ∈ x.received := by
      rw [split]
      exact List.mem_append_right _ (List.mem_singleton.mpr rfl)
    by_cases hlength : reason = .length
    · subst hlength
      refine Or.inr (Or.inr (Or.inl ⟨p, n, hmem, fun text htext => ?_⟩))
      rw [wholeText_eq goes.pushed, fails] at htext
      exact absurd htext (by simp)
    · exact Or.inl (Or.inl ⟨reason, p, n, hmem, hlength⟩)

omit [LanguageModel M F] [Sampler S F] in
/-- **The receive loop of the streamed reply**, which goes on without the text
of a decoder that fails. -/
theorem Sound.streamed_iff (h : x.Sound id params promptLen) (hover : x.Over d stops)
    (hheard : Heard d stops x.received result s) :
    (s.finish = .length → x.Truthful id params d s.contents.flatten s.completionTokens)
      ↔ x.StreamToldAll params d stops := by
  cases hheard with
  | @closed d' c s goes undone unbroken =>
    have hclosed : x.closed = true := hover.resolve_left unbroken
    have hiff := h.truthful_closed_iff hclosed undone goes.pushed
    rw [← goes.streamed, ← goes.sent] at hiff
    constructor
    · exact fun htrue => Or.inr (Or.inr (hiff.mp (htrue goes.untold.2)))
    · rintro (hother | ⟨p, n, hmem, -⟩ | hcomplete) -
      · exact absurd hother (not_otherLabel
          (fun reason p n hmem => absurd hmem (undone reason p n)) goes.pushed goes.quiet)
      · exact absurd hmem (undone .length p n)
      · exact hiff.mpr hcomplete
  | undecodable goes undone fails =>
    -- the reply keeps the label, and a token is missing from it
    constructor
    · intro htrue
      obtain ⟨more, hmore⟩ := h.received_prefix
      have hreflected := (htrue goes.untold.2).reflected
      unfold wholeText at hreflected
      rw [← hmore, pushAll_eq_none fails] at hreflected
      exact absurd hreflected (by simp)
    · rintro ((⟨reason, p, n, hmem, -⟩ | ⟨r, hr, -⟩) | ⟨p, n, hmem, -⟩ | ⟨-, r, hr, -⟩) -
      · exact absurd hmem (undone reason p n)
      · exact absurd (fails.symm.trans hr) (by simp)
      · exact absurd hmem (undone .length p n)
      · exact absurd (fails.symm.trans hr) (by simp)
  | stopped split goes pushed same completes =>
    exact ⟨fun _ => Or.inl (Or.inr ⟨_, split ▸ pushed, completes⟩),
      fun _ hlength => absurd hlength (by simp)⟩
  | @done before reason p n d' c s tail split goes undone flushed =>
    have hmem : .done reason p n ∈ x.received := by
      rw [split]
      exact List.mem_append_right _ (List.mem_singleton.mpr rfl)
    by_cases hlength : reason = .length
    swap
    · exact ⟨fun _ => Or.inl (Or.inl ⟨reason, p, n, hmem, hlength⟩),
        fun _ hlabel => absurd hlabel hlength⟩
    subst hlength
    have hwhole := wholeText_eq goes.pushed
    rw [flushed] at hwhole
    refine ⟨fun _ => Or.inr (Or.inl ⟨p, n, hmem, _, hwhole⟩), fun _ _ => ?_⟩
    have hsent : (s.deliver tail).contents.flatten = c.text ++ tail := by
      rw [deliver_contents, goes.sent]
    have hcount : (s.deliver tail).completionTokens = (Engine.tokensIn x.received).length := by
      rw [deliver_completionTokens, goes.streamed]
    show x.Truthful id params d (s.deliver tail).contents.flatten
      (max n (s.deliver tail).completionTokens)
    rw [hsent, hcount]
    exact (h.truthful_told_iff split _).mpr hwhole
  | @unflushed before reason p n d' c s err split goes undone fails =>
    have hmem : .done reason p n ∈ x.received := by
      rw [split]
      exact List.mem_append_right _ (List.mem_singleton.mpr rfl)
    have hwhole : wholeText d (Engine.tokensIn x.received) = none := by
      rw [wholeText_eq goes.pushed, fails]
    by_cases hlength : reason = .length
    swap
    · exact ⟨fun _ => Or.inl (Or.inl ⟨reason, p, n, hmem, hlength⟩),
        fun _ hlabel => absurd hlabel hlength⟩
    subst hlength
    constructor
    · intro htrue
      have hreflected := (htrue rfl).reflected
      rw [← (h.told split).1, hwhole] at hreflected
      exact absurd hreflected (by simp)
    · rintro (hother | ⟨-, -, -, text, htext⟩ | ⟨-, r, hr, hempty⟩) -
      · exact absurd hother (not_otherLabel (done_of_mem split undone) goes.pushed goes.quiet)
      · exact absurd (hwhole.symm.trans htext) (by simp)
      · obtain rfl := Option.some.inj (goes.pushed.symm.trans hr)
        exact absurd (fails.symm.trans hempty) (by simp)

/-- **When the label `length` is true**, in every interleaving of the engine and
the handler, and for each of the three replies: a reply that says so has exactly
the tokens that were asked for and their text, in each case exactly when the
handler has received what it needs to know that. For `length` is also what a
handler says when it does not know: it starts out with this reason, and keeps it
when the channel closes before a terminal event. -/
theorem length_label_truthful_iff {config : SchedulerConfig} {n bs firstId : ℕ} {flag : Bool}
    {model : M} {prompt : List TokenId}
    (h : x.Reachable config n bs flag model firstId prompt params id d
      (params.stopSequences.map String.toList))
    (hover : x.Over d (params.stopSequences.map String.toList)) (promptTokens : ℕ) :
    let stops := params.stopSequences.map String.toList
    ((∀ reply, collectChat d stops promptTokens x.received = .ok reply →
        reply.finishReason = "length" →
        x.Truthful id params d reply.content reply.usage.completionTokens)
      ↔ x.ToldAll params d stops)
    ∧ (∀ promptText echo,
        (∀ reply, completions d stops promptText echo promptTokens x.received = .ok reply →
          reply.finishReason = "length" →
          ∃ content, reply.content = (if echo then promptText ++ content else content)
            ∧ x.Truthful id params d content reply.usage.completionTokens)
        ↔ x.ToldAll params d stops)
    ∧ ((∀ usage, .last "length" usage ∈ chatStream d stops promptTokens x.received →
        x.Truthful id params d (contentOf (chatStream d stops promptTokens x.received))
          usage.completionTokens)
      ↔ x.StreamToldAll params d stops) := by
  intro stops
  have hne : ∀ s ∈ stops, s ≠ [] := SamplingParams.stopSequences_ne_nil h.valid
  have hheard := heard d hne h.sound.no_error h.unbroken
  have hcollected := h.sound.collected_iff hover hne hheard
  refine ⟨?_, fun promptText echo => ?_, ?_⟩
  · rw [← hcollected]
    constructor
    · intro hall c hc hlength
      exact hall _ (collectChat_eq hc (hc ▸ hheard).sequences promptTokens)
        (asApiStr_eq_length_iff.mpr hlength)
    · intro hall reply hreply hlabel
      rcases hc : collect d (.start stops) x.received with err | c
      · unfold collectChat at hreply
        rw [hc] at hreply
        exact absurd hreply (by simp)
      · rw [collectChat_eq hc (hc ▸ hheard).sequences] at hreply
        obtain rfl := Except.ok.inj hreply
        exact hall c hc (asApiStr_eq_length_iff.mp hlabel)
  · rw [← hcollected]
    constructor
    · intro hall c hc hlength
      obtain ⟨content, hcontent, htrue⟩ := hall _
        (completions_eq hc (hc ▸ hheard).sequences promptText echo promptTokens)
        (asApiStr_eq_length_iff.mpr hlength)
      have hsame : content = cut stops c.text := by
        rcases echo with - | -
        · exact hcontent.symm
        · exact (List.append_cancel_left hcontent).symm
      exact hsame ▸ htrue
    · intro hall reply hreply hlabel
      rcases hc : collect d (.start stops) x.received with err | c
      · unfold completions at hreply
        rw [hc] at hreply
        exact absurd hreply (by simp)
      · rw [completions_eq hc (hc ▸ hheard).sequences] at hreply
        obtain rfl := Except.ok.inj hreply
        exact ⟨_, rfl, hall c hc (asApiStr_eq_length_iff.mp hlabel)⟩
  · rw [← h.sound.streamed_iff hover hheard, contentOf_chatStream]
    constructor
    · intro hall hlength
      exact hall _ (last_mem_chatStream_iff.mpr ⟨(asApiStr_eq_length_iff.mpr hlength).symm, rfl⟩)
    · intro hall usage hmem
      obtain ⟨hlabel, rfl⟩ := last_mem_chatStream_iff.mp hmem
      exact hall (asApiStr_eq_length_iff.mp hlabel.symm)

/-- The handler receives what is next in the channel. -/
def receiveNext (x : Exchange M S) (id : SequenceId) : Exchange M S :=
  { x with
    engine := x.engine.receive id
    received := x.received ++ (x.inFlight id).take 1 }

omit [IncrementalDecoderLike D] in
theorem receiveNext_of_inFlight {ev : StreamEvent} {rest : List StreamEvent}
    (h : x.inFlight id = ev :: rest) :
    x.receiveNext id
      = { x with engine := x.engine.receive id, received := x.received ++ [ev] } := by
  unfold receiveNext
  rw [h]
  rfl

/-- A model that always answers with the token 7 has taken a step with a request
for `n` tokens. -/
def answered (n : ℕ) : Exchange MockModel MockSampler where
  engine := EngineOp.run
    ((MockModel.engine 4 []).submit [1, 2, 3] { maxTokens := n } ⟨8, [], true⟩ ⟨7⟩ 0).1 (.step 0)
  exited := false
  received := []
  closed := false

/-- The handler has received the first token. -/
def firstReceived (n : ℕ) : Exchange MockModel MockSampler := (answered n).receiveNext ⟨1⟩

/-- Its decoder is that of ASCII text, and there are no stop strings. -/
theorem reachable_firstReceived {n : ℕ} {rest : List StreamEvent}
    (hok : ((MockModel.engine 4 []).submit [1, 2, 3] { maxTokens := n } ⟨8, [], true⟩ ⟨7⟩ 0).2
      = .ok ⟨1⟩)
    (hnext : (answered n).inFlight ⟨1⟩ = .token 7 "" 0 :: rest) :
    (firstReceived n).Reachable {} 4 4 true ⟨[]⟩ 1 [1, 2, 3] { maxTokens := n } ⟨1⟩
      Handlers.AsciiDecoder.mk [] := by
  have hstart : (MockModel.engine 4 []).Reachable {} 4 4 true ⟨[]⟩ 1 := .start
  have hanswered : (answered n).Reachable {} 4 4 true ⟨[]⟩ 1 [1, 2, 3] { maxTokens := n } ⟨1⟩
      Handlers.AsciiDecoder.mk [] :=
    (Reachable.accepted hstart hok).step (.engine (.step 0) rfl (by simp) (by simp))
  have hgoes : ¬ (answered n).Over Handlers.AsciiDecoder.mk [] :=
    fun hover => hover.elim (fun hbreaks => hbreaks rfl) (by simp [answered])
  unfold firstReceived
  rw [receiveNext_of_inFlight hnext]
  exact hanswered.step (.receive hgoes hnext)

/-- **The label after an engine that has ended**: a request for sixteen tokens is
answered with one, and the label says that all are there. -/
theorem length_label_after_exit :
    ∃ x : Exchange MockModel MockSampler,
      x.Reachable {} 4 4 true ⟨[]⟩ 1 [1, 2, 3] { maxTokens := 16 } ⟨1⟩ Handlers.AsciiDecoder.mk []
      ∧ x.Over Handlers.AsciiDecoder.mk []
      ∧ Handlers.collectChat Handlers.AsciiDecoder.mk [] 3 x.received
        = .ok ⟨[Char.ofNat 7], "length", .new 3 1⟩
      ∧ Handlers.completions Handlers.AsciiDecoder.mk [] [] false 3 x.received
        = .ok ⟨[Char.ofNat 7], "length", .new 3 1⟩
      ∧ Handlers.chatStream Handlers.AsciiDecoder.mk [] 3 x.received
        = [.role, .content [Char.ofNat 7], .last "length" (.new 3 1), .sentinel]
      ∧ x.generated ⟨1⟩ = [7]
      ∧ ∀ content count,
        ¬ x.Truthful ⟨1⟩ { maxTokens := 16 } Handlers.AsciiDecoder.mk content count := by
  have hfirst : (answered 16).inFlight ⟨1⟩ = [.token 7 "" 0] := by decide +kernel
  have hreach : (firstReceived 16).Reachable {} 4 4 true ⟨[]⟩ 1 [1, 2, 3] { maxTokens := 16 } ⟨1⟩
      Handlers.AsciiDecoder.mk [] := reachable_firstReceived (by decide +kernel) hfirst
  have hreceived : (firstReceived 16).received = [.token 7 "" 0] := by decide +kernel
  have hgenerated : (firstReceived 16).generated ⟨1⟩ = [7] := by decide +kernel
  have hgoes : ¬ Exchange.Over Handlers.AsciiDecoder.mk []
      { firstReceived 16 with exited := true } := by
    rintro (hbreaks | hclosed)
    · refine hbreaks ?_
      rw [hreceived]
      rfl
    · exact absurd hclosed (by simp [firstReceived, receiveNext, answered])
  have hempty : (firstReceived 16).inFlight ⟨1⟩ = [] := by decide +kernel
  refine ⟨{ firstReceived 16 with exited := true, closed := true },
    (hreach.step .exit).step (.close hgoes hempty (Or.inl rfl)), Or.inr rfl, ?_, ?_, ?_,
    hgenerated, fun content count htrue => ?_⟩
  · rw [hreceived]
    decide +kernel
  · rw [hreceived]
    decide +kernel
  · rw [hreceived]
    decide +kernel
  · have hlen : [(7 : TokenId)].length = 16 :=
      (congrArg List.length hgenerated).symm.trans htrue.full
    exact absurd hlen (by decide)

/-- A request for one token, which is answered with it and told so. -/
theorem length_label_truthful_iff_one :
    ((firstReceived 1).receiveNext ⟨1⟩).received = [.token 7 "" 0, .done .length 3 1]
    ∧ ((firstReceived 1).receiveNext ⟨1⟩).Truthful ⟨1⟩ { maxTokens := 1 }
      Handlers.AsciiDecoder.mk [Char.ofNat 7] 1 := by
  have hfirst : (answered 1).inFlight ⟨1⟩ = [.token 7 "" 0, .done .length 3 1] := by
    decide +kernel
  have hreach : (firstReceived 1).Reachable {} 4 4 true ⟨[]⟩ 1 [1, 2, 3] { maxTokens := 1 } ⟨1⟩
      Handlers.AsciiDecoder.mk [] := reachable_firstReceived (by decide +kernel) hfirst
  have hreceived : (firstReceived 1).received = [.token 7 "" 0] := by decide +kernel
  have hnext : (firstReceived 1).inFlight ⟨1⟩ = [.done .length 3 1] := by decide +kernel
  have hgoes : ¬ Exchange.Over Handlers.AsciiDecoder.mk [] (firstReceived 1) := by
    rintro (hbreaks | hclosed)
    · refine hbreaks ?_
      rw [hreceived]
      rfl
    · exact absurd hclosed (by simp [firstReceived, receiveNext, answered])
  have hlast := hreach.step (.receive hgoes hnext)
  rw [← receiveNext_of_inFlight hnext] at hlast
  have hall : ((firstReceived 1).receiveNext ⟨1⟩).received
      = [.token 7 "" 0, .done .length 3 1] := by decide +kernel
  have hbreaks : Handlers.Breaks Handlers.AsciiDecoder.mk (.new [])
      ((firstReceived 1).receiveNext ⟨1⟩).received := by
    rw [hall]
    exact fun hclosed => absurd hclosed (by decide +kernel)
  have htold : ((firstReceived 1).receiveNext ⟨1⟩).ToldAll { maxTokens := 1 }
      Handlers.AsciiDecoder.mk [] := by
    refine Or.inr (Or.inr (Or.inl ⟨3, 1, ?_, ?_⟩))
    · rw [hall]
      exact List.mem_cons_of_mem _ List.mem_cons_self
    · rintro text - ⟨s, hs, -⟩
      exact absurd hs List.not_mem_nil
  refine ⟨hall, ?_⟩
  refine (length_label_truthful_iff hlast (Or.inl hbreaks) 3).1.mpr htold
    ⟨[Char.ofNat 7], "length", .new 3 1⟩ ?_ rfl
  rw [hall]
  decide +kernel

end Label

end Exchange
