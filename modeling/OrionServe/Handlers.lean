import OrionServe.StopSequences
import OrionServe.Engine

/-!
# The handlers

A handler reads the events of its request until a terminal one, until a stop
string has appeared, or until the engine has dropped its end of the channel.
`collect_chat` and `completions` put the text together and show it up to the
first stop string; `chat_stream` sends every piece on as it comes, and cuts
the one that completes a stop string.

What the decoder makes of a token is a parameter, so the pieces of text are
arbitrary. The events of a handler are a list: what has arrived when it stops
receiving, the end of the list being the end of the channel.
-/

/-- A decoder of tokens, `IncrementalDecoder` in the source. -/
class IncrementalDecoderLike (D : Type*) where
  /-- Adds a token and returns whatever text became stable. -/
  push : D → TokenId → D × Except EngineError Text
  /-- Flushes any text held back, at end of generation. -/
  finish : D → Except EngineError Text

/-- Converts to the string used by OpenAI-compatible clients. -/
def FinishReason.asApiStr : FinishReason → String
  | .stop => "stop"
  | .stopSequence _ => "stop"
  | .length => "length"
  | .cancelled => "cancelled"
  | .timeout => "timeout"
  | .error _ => "error"

/-- Token accounting of a reply. -/
structure Usage where
  promptTokens : ℕ
  completionTokens : ℕ
  totalTokens : ℕ
  deriving DecidableEq

def Usage.new (promptTokens completionTokens : ℕ) : Usage :=
  ⟨promptTokens, completionTokens, promptTokens + completionTokens⟩

namespace Handlers

variable {D : Type*} [IncrementalDecoderLike D]

/-! ## Replies in one piece -/

/-- What a handler has put together. -/
structure Collected where
  text : Text
  completionTokens : ℕ
  finish : FinishReason
  stop : StopSequenceMatcher

/-- Where a handler starts. -/
def Collected.start (stops : List Text) : Collected := ⟨[], 0, .length, .new stops⟩

/-- A piece of text, with the matcher after it. -/
def Collected.add (c : Collected) (piece : Text) (stop : StopSequenceMatcher) : Collected :=
  { c with text := c.text ++ piece, completionTokens := c.completionTokens + 1, stop := stop }

/-- The receive loop of `collect_chat` and of `completions`. -/
def collect (d : D) (c : Collected) : List StreamEvent → Except EngineError Collected
  -- the engine has dropped its end
  | [] => .ok c
  | .token token _ _ :: events =>
    match IncrementalDecoderLike.push d token with
    | (_, .error err) => .error err
    | (d, .ok piece) =>
      match c.stop.push piece with
      | (stop, some _) => .ok { c.add piece stop with finish := .stop }
      | (stop, none) => collect d (c.add piece stop) events
  | .done reason _ n :: _ =>
    match IncrementalDecoderLike.finish d with
    | .error err => .error err
    | .ok tail => .ok { c with
        text := c.text ++ tail
        completionTokens := max n c.completionTokens
        finish := reason }
  | .error code message :: _ => .error (.internal [.text code, ": ", .text message])

/-- A non-streaming reply. -/
structure Reply where
  content : Text
  finishReason : String
  usage : Usage
  deriving DecidableEq

/-- Drains a stream into a single non-streaming chat response. Text after a
stop string is not shown. -/
def collectChat (d : D) (stops : List Text) (promptTokens : ℕ) (events : List StreamEvent) :
    Except EngineError Reply :=
  match collect d (.start stops) events with
  | .error err => .error err
  | .ok c => .ok
    { content := c.stop.truncateAtStop c.text
      finishReason := c.finish.asApiStr
      usage := .new promptTokens c.completionTokens }

/-- Text completions, with the prompt in front if the caller asked for it. -/
def completions (d : D) (stops : List Text) (promptText : Text) (echo : Bool) (promptTokens : ℕ)
    (events : List StreamEvent) : Except EngineError Reply :=
  match collect d (.start stops) events with
  | .error err => .error err
  | .ok c =>
    let out := c.stop.truncateAtStop c.text
    .ok
      { content := if echo then promptText ++ out else out
        finishReason := c.finish.asApiStr
        usage := .new promptTokens c.completionTokens }

/-! ## Streamed replies -/

/-- A server-sent event of a chat stream. -/
inductive StreamChunk where
  /-- The first one: the role and no content. -/
  | role
  | content (text : Text)
  /-- The terminal chunk: finish reason plus usage. -/
  | last (finishReason : String) (usage : Usage)
  /-- `[DONE]`. -/
  | sentinel
  deriving DecidableEq

/-- What a stream has sent between its first chunk and its last. -/
structure Streamed where
  contents : List Text
  completionTokens : ℕ
  finish : FinishReason

/-- Sends a content chunk, unless it is empty. -/
def Streamed.deliver (s : Streamed) (text : Text) : Streamed :=
  if text.isEmpty then s else { s with contents := s.contents ++ [text] }

/-- A token of which a piece has come. -/
def Streamed.count (s : Streamed) : Streamed :=
  { s with completionTokens := s.completionTokens + 1 }

/-- The receive loop of `chat_stream`. -/
def stream (d : D) (stop : StopSequenceMatcher) (s : Streamed) : List StreamEvent → Streamed
  | [] => s
  | .token token _ _ :: events =>
    match IncrementalDecoderLike.push d token with
    -- decode failed mid-stream
    | (_, .error _) => s
    | (d, .ok piece) =>
      match stop.push piece with
      -- a stop string ends the stream, cut off in this piece alone
      | (stop, some _) => { s.count.deliver (stop.truncateAtStop piece) with finish := .stop }
      | (stop, none) => stream d stop (s.count.deliver piece) events
  | .done reason _ n :: _ =>
    let s := match IncrementalDecoderLike.finish d with
      | .error _ => s
      | .ok tail => s.deliver tail
    { s with completionTokens := max n s.completionTokens, finish := reason }
  | .error code _ :: _ => { s with finish := .error code }

/-- Streams a chat response as server-sent events. -/
def chatStream (d : D) (stops : List Text) (promptTokens : ℕ) (events : List StreamEvent) :
    List StreamChunk :=
  let s := stream d (.new stops) ⟨[], 0, .length⟩ events
  .role :: s.contents.map .content
    ++ [.last s.finish.asApiStr (.new promptTokens s.completionTokens), .sentinel]

/-- The content deltas of a chat stream, joined. -/
def contentOf (chunks : List StreamChunk) : Text :=
  chunks.flatMap (fun
    | .content text => text
    | _ => [])

/-! ## The text of a reply -/

/-- **What the decoder makes of the events**: a piece of text for every token,
and the tail it flushes when the request is done. Each handler puts the tokens
through a decoder of its own; as all start out the same, they make the same of
them. -/
def Decodes (d : D) : List StreamEvent → List Text → Text → Prop
  | .token token _ _ :: events, piece :: pieces, tail =>
    (IncrementalDecoderLike.push d token).2 = .ok piece
      ∧ Decodes (IncrementalDecoderLike.push d token).1 events pieces tail
  | .done _ _ _ :: _, [], tail => IncrementalDecoderLike.finish d = .ok tail
  | _, _, _ => False

/-- **No stop string is divided**, after this text: the one that ends the reply
starts in the piece that completes it, and the flushed tail completes none. -/
structure UndividedAfter (stops : List Text) (before : Text) (pieces : List Text) (tail : Text) :
    Prop where
  within : ∀ sent piece rest, pieces = sent ++ piece :: rest →
    ¬ Stops stops (before ++ sent.flatten) →
    ¬ StartsWithin stops (before ++ sent.flatten ++ piece) (before ++ sent.flatten).length
  flushed : ¬ Stops stops (before ++ pieces.flatten) →
    ¬ Stops stops (before ++ pieces.flatten ++ tail)

/-- From the start of a reply. -/
abbrev Undivided (stops : List Text) (pieces : List Text) (tail : Text) : Prop :=
  UndividedAfter stops [] pieces tail

section Undivided

variable {stops : List Text} {before piece tail : Text} {pieces : List Text}

theorem undividedAfter_nil (h : ¬ Stops stops before) :
    UndividedAfter stops before [] tail ↔ ¬ Stops stops (before ++ tail) := by
  constructor
  · intro hu
    have hflushed := hu.flushed
    rw [List.flatten_nil, List.append_nil] at hflushed
    exact hflushed h
  · intro hno
    refine ⟨fun sent piece rest hsplit => absurd hsplit (by simp), fun _ => ?_⟩
    rw [List.flatten_nil, List.append_nil]
    exact hno

/-- The piece that completes a stop string is the last that matters. -/
theorem undividedAfter_stop (h : ¬ Stops stops before) (hstop : Stops stops (before ++ piece)) :
    UndividedAfter stops before (piece :: pieces) tail
      ↔ ¬ StartsWithin stops (before ++ piece) before.length := by
  have hmono : ∀ rest, Stops stops (before ++ (piece :: rest).flatten) := by
    rintro rest
    obtain ⟨s, hs, hin⟩ := hstop
    refine ⟨s, hs, hin.trans ?_⟩
    rw [List.flatten_cons, ← List.append_assoc]
    exact (List.prefix_append _ _).isInfix
  constructor
  · intro hu
    have hwithin := hu.within [] piece pieces rfl
    rw [List.flatten_nil, List.append_nil] at hwithin
    exact hwithin h
  · intro hno
    refine ⟨fun sent piece' rest hsplit hsent => ?_, fun hall => absurd (hmono pieces) hall⟩
    rcases sent with - | ⟨x, sent⟩
    · obtain ⟨rfl, -⟩ := List.cons.inj hsplit
      rw [List.flatten_nil, List.append_nil]
      exact hno
    · obtain ⟨rfl, -⟩ := List.cons.inj hsplit
      exact absurd (hmono sent) hsent

/-- A piece that completes none is behind us. -/
theorem undividedAfter_cons (hgo : ¬ Stops stops (before ++ piece)) :
    UndividedAfter stops before (piece :: pieces) tail
      ↔ UndividedAfter stops (before ++ piece) pieces tail := by
  constructor
  · intro hu
    refine ⟨fun sent piece' rest hsplit hsent => ?_, fun hall => ?_⟩
    · have hwithin := hu.within (piece :: sent) piece' rest (by rw [hsplit]; rfl)
      rw [List.flatten_cons, ← List.append_assoc] at hwithin
      exact hwithin hsent
    · have hflushed := hu.flushed
      rw [List.flatten_cons, ← List.append_assoc] at hflushed
      exact hflushed hall
  · intro hu
    refine ⟨fun sent piece' rest hsplit hsent => ?_, fun hall => ?_⟩
    · rcases sent with - | ⟨x, sent⟩
      · obtain ⟨rfl, -⟩ := List.cons.inj hsplit
        rw [List.flatten_nil, List.append_nil]
        rintro ⟨s, hs, i, -, hpre⟩
        exact hgo ⟨s, hs, hpre.isInfix.trans (List.drop_suffix i _).isInfix⟩
      · obtain ⟨rfl, hrest⟩ := List.cons.inj hsplit
        rw [List.flatten_cons, ← List.append_assoc] at hsent ⊢
        exact hu.within sent piece' rest hrest hsent
    · rw [List.flatten_cons, ← List.append_assoc] at hall ⊢
      exact hu.flushed hall

end Undivided

theorem deliver_contents (s : Streamed) (text : Text) :
    (s.deliver text).contents.flatten = s.contents.flatten ++ text := by
  unfold Streamed.deliver
  split
  · next hempty => rw [List.isEmpty_iff.mp hempty, List.append_nil]
  · show (s.contents ++ [text]).flatten = _
    rw [List.flatten_append, List.flatten_singleton]

/-- **The two loops, event by event.** As long as no stop string has appeared
they have the same text. -/
theorem collect_stream {stops : List Text} (hne : ∀ t ∈ stops, t ≠ [])
    (events : List StreamEvent) :
    ∀ {d : D} {c : Collected} {s : Streamed} {pieces : List Text} {tail : Text},
      c.stop.sequences = stops → c.stop.Follows c.text → ¬ Stops stops c.text →
      s.contents.flatten = c.text → Decodes d events pieces tail →
      ∃ c', collect d c events = .ok c'
        ∧ ((stream d c.stop s events).contents.flatten = c'.stop.truncateAtStop c'.text
          ↔ UndividedAfter stops c.text pieces tail) := by
  induction events with
  | nil =>
    intro d c s pieces tail _ _ _ _ hdec
    exact absurd hdec (by cases pieces <;> exact id)
  | cons ev events ih =>
    intro d c s pieces tail hseq hfollows hno hsame hdec
    cases ev with
    | token token text index =>
      rcases pieces with - | ⟨piece, pieces⟩
      · exact absurd hdec id
      obtain ⟨hpush, hrest⟩ := hdec
      rcases hp : IncrementalDecoderLike.push d token with ⟨d', answer⟩
      rw [hp] at hpush hrest
      obtain rfl : answer = .ok piece := hpush
      obtain ⟨hsame', hfollows', hfound⟩ := hfollows.push (hseq ▸ hno) piece
      rcases hm : c.stop.push piece with ⟨stop', found⟩
      rw [hm] at hsame' hfollows' hfound
      have hstops : stop'.sequences = stops := hsame'.trans hseq
      rw [hseq] at hfound
      rcases found with - | t
      · -- no stop string yet
        have hgo : ¬ Stops stops (c.text ++ piece) := by
          rintro ⟨t, ht, hin⟩
          have hnone := List.find?_eq_none.mp hfound.symm t ht
          exact hnone (decide_eq_true hin)
        have hnext := ih (c := c.add piece stop') (s := s.count.deliver piece) hstops
          hfollows' hgo (by rw [deliver_contents]; exact congrArg (· ++ piece) hsame) hrest
        rw [undividedAfter_cons hgo]
        simp only [collect, stream, hp, hm]
        exact hnext
      · have hstop : Stops stops (c.text ++ piece) := by
          have hpred := List.find?_some hfound.symm
          exact ⟨t, List.mem_of_find?_eq_some hfound.symm, of_decide_eq_true hpred⟩
        have hcut := stop'.truncateAtStop_append_iff c.text piece
        rw [hstops] at hcut
        rw [undividedAfter_stop hno hstop, ← hcut]
        simp only [collect, stream, hp, hm]
        refine ⟨_, rfl, ?_⟩
        show (Streamed.deliver _ _).contents.flatten = stop'.truncateAtStop (c.text ++ piece) ↔ _
        rw [deliver_contents]
        show s.contents.flatten ++ _ = _ ↔ _
        rw [hsame]
        exact eq_comm
    | done reason promptTokens n =>
      rcases pieces with - | ⟨piece, pieces⟩
      swap
      · exact absurd hdec id
      have hfinish : IncrementalDecoderLike.finish d = .ok tail := hdec
      have hself := c.stop.truncateAtStop_eq_self_iff (hseq ▸ hne) (c.text ++ tail)
      rw [hseq] at hself
      rw [undividedAfter_nil hno, ← hself]
      simp only [collect, stream, hfinish]
      refine ⟨_, rfl, ?_⟩
      show (Streamed.deliver _ _).contents.flatten = c.stop.truncateAtStop (c.text ++ tail) ↔ _
      rw [deliver_contents, hsame]
      exact eq_comm
    | error code message => exact absurd hdec (by cases pieces <;> exact id)

/-- **When the two replies show the same text**: exactly when no stop string is
divided between the pieces of the decoder. The reply in one piece is cut when all
the text is there; the streamed one has sent the first part of a stop string by
the time that its last piece arrives. -/
theorem streams_same_text_iff {d : D} {stops : List Text} {events : List StreamEvent}
    {pieces : List Text}
    {tail : Text} (hne : ∀ s ∈ stops, s ≠ []) (hdec : Decodes d events pieces tail)
    (promptTokens : ℕ) :
    (∃ reply, collectChat d stops promptTokens events = .ok reply
      ∧ contentOf (chatStream d stops promptTokens events) = reply.content)
      ↔ Undivided stops pieces tail := by
  have hstart : ¬ Stops stops [] := by
    rintro ⟨s, hs, hin⟩
    exact hne s hs (List.infix_nil.mp hin)
  obtain ⟨c, hc, hiff⟩ := collect_stream hne events (c := .start stops) (s := ⟨[], 0, .length⟩)
    rfl (StopSequenceMatcher.follows_new stops) hstart rfl hdec
  have hcontent : contentOf (chatStream d stops promptTokens events)
      = (stream d (.new stops) ⟨[], 0, .length⟩ events).contents.flatten := by
    unfold chatStream contentOf
    rw [List.flatMap_append, List.flatMap_cons, List.flatMap_map]
    simp only [List.flatMap_cons, List.flatMap_nil, List.append_nil, List.nil_append]
    exact List.flatMap_id
  refine Iff.trans ?_ hiff
  unfold collectChat
  rw [hc, hcontent]
  constructor
  · rintro ⟨reply, hreply, hsame⟩
    obtain rfl := Except.ok.inj hreply
    exact hsame
  · exact fun hsame => ⟨_, rfl, hsame⟩

/-- A byte-level decoder of ASCII text: every token is a character, and nothing
is held back. -/
structure AsciiDecoder where

instance : IncrementalDecoderLike AsciiDecoder where
  push d token := (d, .ok [Char.ofNat token.toNat])
  finish _ := .ok []

/-- The events of a generation of three tokens, `E`, `N` and `D`. -/
def endEvents : List StreamEvent :=
  [.token 69 "" 0, .token 78 "" 1, .token 68 "" 2, .done .length 1 3]

theorem decodes_endEvents : Decodes AsciiDecoder.mk endEvents [['E'], ['N'], ['D']] [] :=
  And.intro rfl (And.intro rfl (And.intro rfl rfl))

/-- **A stop string that straddles two pieces is sent.** With the stop string
`ND` the one reply shows `E` and the other `END`, all of the stop string. -/
theorem divided_stop_string_sent :
    Decodes AsciiDecoder.mk endEvents [['E'], ['N'], ['D']] []
    ∧ collectChat AsciiDecoder.mk [['N', 'D']] 1 endEvents = .ok ⟨['E'], "stop", .new 1 3⟩
    ∧ contentOf (chatStream AsciiDecoder.mk [['N', 'D']] 1 endEvents) = ['E', 'N', 'D'] :=
  ⟨decodes_endEvents, by decide +kernel, by decide +kernel⟩

/-- With the stop string `D`, which comes in one piece, both show `EN`. -/
theorem streams_same_text_iff_endEvents :
    (∃ reply, collectChat AsciiDecoder.mk [['D']] 1 endEvents = .ok reply
      ∧ contentOf (chatStream AsciiDecoder.mk [['D']] 1 endEvents) = reply.content)
      ↔ Undivided [['D']] [['E'], ['N'], ['D']] [] :=
  streams_same_text_iff (by decide) decodes_endEvents 1

end Handlers
