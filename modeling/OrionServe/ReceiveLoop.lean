import OrionServe.Handlers
import OrionServe.EngineChannels

/-!
# What a handler makes of what it receives

A handler receives the events of its request one by one and stops at the first
one that ends its loop. So all that it has received but the last event left the
loop going; and what the loop has by then is known from the tokens alone
(`Handlers.Goes`): the text of their pieces, in which there is no stop string,
and how many there are. One event more, or the end of the channel, decides what
the reply is (`Handlers.Heard`).

The replies are compared with the text that the decoder has of the tokens,
`Handlers.wholeText`: the pieces of all of them, and what it flushes at the end.
-/

namespace Handlers

variable {D : Type*} [IncrementalDecoderLike D]

/-! ## The receive loop -/

/-- How the receive loop comes to its end. -/
inductive LoopEnd where
  /-- The channel was closed. -/
  | closed
  | stopString
  | decodeFailed
  | done (reason : FinishReason)
  | failed (code : String)
  deriving DecidableEq

/-- How the receive loop that the handlers have in common ends on these
events. -/
def receiveLoop (d : D) (stop : StopSequenceMatcher) : List StreamEvent → LoopEnd
  | [] => .closed
  | .token token _ _ :: events =>
    match IncrementalDecoderLike.push d token with
    | (_, .error _) => .decodeFailed
    | (d, .ok piece) =>
      match stop.push piece with
      | (_, some _) => .stopString
      | (stop, none) => receiveLoop d stop events
  | .done reason _ _ :: _ => .done reason
  | .error code _ :: _ => .failed code

/-- An event of the list ends the loop. -/
def Breaks (d : D) (stop : StopSequenceMatcher) (events : List StreamEvent) : Prop :=
  receiveLoop d stop events ≠ .closed

/-- Text is shown up to the first stop string. -/
def cut (stops : List Text) (text : Text) : Text :=
  (StopSequenceMatcher.new stops).truncateAtStop text

theorem truncateAtStop_eq_cut {m : StopSequenceMatcher} {stops : List Text}
    (h : m.sequences = stops) (text : Text) : m.truncateAtStop text = cut stops text := by
  unfold cut StopSequenceMatcher.truncateAtStop
  rw [h]
  rfl

/-- The decoder after these tokens and the text of their pieces; `none` when one
of them does not decode. -/
def pushAll (d : D) : List TokenId → Option (D × Text)
  | [] => some (d, [])
  | token :: tokens =>
    match IncrementalDecoderLike.push d token with
    | (_, .error _) => none
    | (d, .ok piece) => (pushAll d tokens).map (fun r => (r.1, piece ++ r.2))

/-- **The whole text of these tokens**, as the decoder has it: the pieces of all
of them, and behind them what it flushes at the end. This is what a reply that
reflects all tokens has as its text. -/
def wholeText (d : D) (tokens : List TokenId) : Option Text :=
  match pushAll d tokens with
  | none => none
  | some (d, text) =>
    match IncrementalDecoderLike.finish d with
    | .error _ => none
    | .ok tail => some (text ++ tail)

theorem pushAll_append (tokens more : List TokenId) : ∀ d : D, pushAll d (tokens ++ more)
    = (pushAll d tokens).bind (fun r =>
      (pushAll r.1 more).map (fun r' => (r'.1, r.2 ++ r'.2))) := by
  induction tokens with
  | nil =>
    intro d
    show pushAll d more = (pushAll d more).map id
    rw [Option.map_id]
    rfl
  | cons token tokens ih =>
    intro d
    rw [List.cons_append]
    simp only [pushAll]
    rcases IncrementalDecoderLike.push d token with ⟨d', err | piece⟩
    · rfl
    · dsimp only
      rw [ih d']
      rcases pushAll d' tokens with - | ⟨d'', text⟩
      · rfl
      · dsimp only [Option.bind_some, Option.map_some]
        rw [Option.map_map]
        refine congrArg (Option.map · _) (funext fun r => ?_)
        show (r.1, piece ++ (text ++ r.2)) = (r.1, piece ++ text ++ r.2)
        rw [List.append_assoc]

/-- A token that does not decode is followed by nothing. -/
theorem pushAll_eq_none {d : D} {tokens : List TokenId} (h : pushAll d tokens = none)
    (more : List TokenId) : pushAll d (tokens ++ more) = none := by
  rw [pushAll_append, h]
  rfl

/-- The text of one token more. -/
theorem pushAll_concat {d₀ d : D} {tokens : List TokenId} {text : Text}
    (h : pushAll d₀ tokens = some (d, text)) (token : TokenId) :
    pushAll d₀ (tokens ++ [token]) = match IncrementalDecoderLike.push d token with
      | (_, .error _) => none
      | (d', .ok piece) => some (d', text ++ piece) := by
  rw [pushAll_append, h]
  dsimp only [Option.bind_some, pushAll]
  rcases IncrementalDecoderLike.push d token with ⟨d', err | piece⟩
  · rfl
  · show some (d', text ++ (piece ++ [])) = some (d', text ++ piece)
    rw [List.append_nil]

theorem deliver_completionTokens (s : Streamed) (text : Text) :
    (s.deliver text).completionTokens = s.completionTokens := by
  unfold Streamed.deliver
  split <;> rfl

theorem deliver_finish (s : Streamed) (text : Text) : (s.deliver text).finish = s.finish := by
  unfold Streamed.deliver
  split <;> rfl

variable {d₀ d : D} {stops : List Text} {seen : List TokenId} {c : Collected} {s : Streamed}

/-- **In the middle of the loops**, after these tokens: both have the text of
their pieces, in which no stop string has appeared, both have counted them, and
nobody has said how the request ended. The two loops and the matcher they share
are described by the tokens alone, so that nothing has to be said about the
events that brought them. -/
structure Goes (d₀ : D) (stops : List Text) (seen : List TokenId) (d : D) (c : Collected)
    (s : Streamed) : Prop where
  pushed : pushAll d₀ seen = some (d, c.text)
  sent : s.contents.flatten = c.text
  collected : c.completionTokens = seen.length
  streamed : s.completionTokens = seen.length
  untold : c.finish = .length ∧ s.finish = .length
  sequences : c.stop.sequences = stops
  follows : c.stop.Follows c.text
  quiet : ¬ Stops stops c.text

theorem goes_start (d : D) (hne : ∀ s ∈ stops, s ≠ []) :
    Goes d stops [] d (.start stops) ⟨[], 0, .length⟩ where
  pushed := rfl
  sent := rfl
  collected := rfl
  streamed := rfl
  untold := ⟨rfl, rfl⟩
  sequences := rfl
  follows := StopSequenceMatcher.follows_new stops
  quiet := by
    rintro ⟨s, hs, hin⟩
    exact hne s hs (List.infix_nil.mp hin)

/-- **Step lemma**: a piece takes the loops on, or completes a stop string. -/
theorem Goes.piece (h : Goes d₀ stops seen d c s) {token : TokenId} {d' : D} {piece : Text}
    (hpush : IncrementalDecoderLike.push d token = (d', .ok piece)) :
    ∃ stop', stop'.sequences = stops
      ∧ (c.stop.push piece = (stop', none)
          ∧ Goes d₀ stops (seen ++ [token]) d' (c.add piece stop') (s.count.deliver piece)
        ∨ (∃ t, c.stop.push piece = (stop', some t)) ∧ Stops stops (c.text ++ piece)) := by
  have hquiet : ¬ Stops c.stop.sequences c.text := by
    rw [h.sequences]
    exact h.quiet
  obtain ⟨hsame, hfollows, hfound⟩ := h.follows.push hquiet piece
  rcases hm : c.stop.push piece with ⟨stop', found⟩
  rw [hm] at hsame hfollows hfound
  rw [h.sequences] at hfound
  have hlength : (seen ++ [token]).length = seen.length + 1 := List.length_append
  refine ⟨stop', hsame.trans h.sequences, ?_⟩
  rcases found with - | t
  · refine Or.inl ⟨rfl, ?_, ?_, ?_, ?_, ⟨h.untold.1, ?_⟩, hsame.trans h.sequences, hfollows, ?_⟩
    · rw [pushAll_concat h.pushed, hpush]
      rfl
    · rw [deliver_contents]
      exact congrArg (· ++ piece) h.sent
    · rw [hlength]
      exact congrArg (· + 1) h.collected
    · rw [deliver_completionTokens, hlength]
      exact congrArg (· + 1) h.streamed
    · rw [deliver_finish]
      exact h.untold.2
    · rintro ⟨t, ht, hin⟩
      exact List.find?_eq_none.mp hfound.symm t ht (decide_eq_true hin)
  · have hpred := List.find?_some hfound.symm
    exact Or.inr ⟨⟨t, rfl⟩, t, List.mem_of_find?_eq_some hfound.symm, of_decide_eq_true hpred⟩

/-- **Run lemma**: events of which none ends the loops take them on, and what
follows finds them there. -/
theorem Goes.run (events : List StreamEvent) :
    ∀ {seen : List TokenId} {d : D} {c : Collected} {s : Streamed},
      Goes d₀ stops seen d c s → ¬ Breaks d c.stop events →
      (∀ reason p n, StreamEvent.done reason p n ∉ events)
      ∧ ∃ d' c' s', Goes d₀ stops (seen ++ Engine.tokensIn events) d' c' s'
        ∧ ∀ rest, collect d c (events ++ rest) = collect d' c' rest
          ∧ stream d c.stop s (events ++ rest) = stream d' c'.stop s' rest
          ∧ receiveLoop d c.stop (events ++ rest) = receiveLoop d' c'.stop rest := by
  induction events with
  | nil =>
    intro seen d c s h _
    refine ⟨fun _ _ _ => List.not_mem_nil, d, c, s, ?_, fun rest => ⟨rfl, rfl, rfl⟩⟩
    rw [Engine.tokensIn_nil, List.append_nil]
    exact h
  | cons ev events ih =>
    intro seen d c s h hgo
    unfold Breaks at hgo
    cases ev with
    | token token text index =>
      rcases hp : IncrementalDecoderLike.push d token with ⟨d', err | piece⟩
      · simp only [receiveLoop, hp] at hgo
        exact absurd (by simp) hgo
      obtain ⟨stop', -, ⟨hm, hnext⟩ | ⟨⟨t, hm⟩, -⟩⟩ := h.piece hp
      swap
      · simp only [receiveLoop, hp, hm] at hgo
        exact absurd (by simp) hgo
      simp only [receiveLoop, hp, hm] at hgo
      obtain ⟨hundone, d'', c'', s'', hgoes, hrest⟩ := ih hnext hgo
      refine ⟨fun reason p n hmem => ?_, d'', c'', s'', ?_, fun rest => ?_⟩
      · exact (List.mem_cons.mp hmem).elim (fun heq => absurd heq (by simp))
          (hundone reason p n)
      · rw [List.append_assoc] at hgoes
        exact hgoes
      · simp only [List.cons_append, collect, stream, receiveLoop, hp, hm]
        exact hrest rest
    | done reason p n =>
      simp only [receiveLoop] at hgo
      exact absurd (by simp) hgo
    | error code message =>
      simp only [receiveLoop] at hgo
      exact absurd (by simp) hgo

/-- **What the loops leave** of the events that a handler has received, in one
piece and streamed. Only the last event may have ended them. -/
inductive Heard (d₀ : D) (stops : List Text) (events : List StreamEvent) :
    Except EngineError Collected → Streamed → Prop
  /-- No event ended the loops. -/
  | closed {d : D} {c : Collected} {s : Streamed}
      (goes : Goes d₀ stops (Engine.tokensIn events) d c s)
      (undone : ∀ reason p n, StreamEvent.done reason p n ∉ events)
      (unbroken : ¬ Breaks d₀ (.new stops) events) : Heard d₀ stops events (.ok c) s
  /-- The last token did not decode. -/
  | undecodable {before : List TokenId} {d : D} {c : Collected} {s : Streamed}
      {err : EngineError} (goes : Goes d₀ stops before d c s)
      (undone : ∀ reason p n, StreamEvent.done reason p n ∉ events)
      (fails : pushAll d₀ (Engine.tokensIn events) = none) :
      Heard d₀ stops events (.error err) s
  /-- The last token completed a stop string. -/
  | stopped {before : List TokenId} {token : TokenId} {d d' : D} {c : Collected} {s : Streamed}
      {piece : Text} {stop' : StopSequenceMatcher}
      (split : Engine.tokensIn events = before ++ [token]) (goes : Goes d₀ stops before d c s)
      (pushed : pushAll d₀ (before ++ [token]) = some (d', c.text ++ piece))
      (same : stop'.sequences = stops) (completes : Stops stops (c.text ++ piece)) :
      Heard d₀ stops events (.ok { c.add piece stop' with finish := .stop })
        { s.count.deliver (cut stops piece) with finish := .stop }
  /-- The last event said how the request ended, and the text left in the decoder
  came behind it. -/
  | done {before : List StreamEvent} {reason : FinishReason} {p n : ℕ} {d : D} {c : Collected}
      {s : Streamed} {tail : Text} (split : events = before ++ [.done reason p n])
      (goes : Goes d₀ stops (Engine.tokensIn events) d c s)
      (undone : ∀ reason p n, StreamEvent.done reason p n ∉ before)
      (flushed : IncrementalDecoderLike.finish d = .ok tail) :
      Heard d₀ stops events
        (.ok { c with
          text := c.text ++ tail
          completionTokens := max n c.completionTokens
          finish := reason })
        { s.deliver tail with
          completionTokens := max n (s.deliver tail).completionTokens
          finish := reason }
  /-- Likewise, but the decoder failed at the end. -/
  | unflushed {before : List StreamEvent} {reason : FinishReason} {p n : ℕ} {d : D}
      {c : Collected} {s : Streamed} {err : EngineError}
      (split : events = before ++ [.done reason p n])
      (goes : Goes d₀ stops (Engine.tokensIn events) d c s)
      (undone : ∀ reason p n, StreamEvent.done reason p n ∉ before)
      (fails : IncrementalDecoderLike.finish d = .error err) :
      Heard d₀ stops events (.error err)
        { s with completionTokens := max n s.completionTokens, finish := reason }

/-- **A handler has received what its loop needed**, and no more; no error is among
it. -/
theorem heard (d₀ : D) (hne : ∀ s ∈ stops, s ≠ []) {events : List StreamEvent}
    (hquiet : ∀ code message, StreamEvent.error code message ∉ events)
    (hlast : ∀ before ev, events = before ++ [ev] → ¬ Breaks d₀ (.new stops) before) :
    Heard d₀ stops events (collect d₀ (.start stops) events)
      (stream d₀ (.new stops) ⟨[], 0, .length⟩ events) := by
  have hstart := goes_start d₀ hne
  by_cases hbreaks : Breaks d₀ (.new stops) events
  swap
  · obtain ⟨hundone, d, c, s, hgoes, hrest⟩ := hstart.run events hbreaks
    obtain ⟨hcollect, hstream, -⟩ := hrest []
    rw [List.append_nil] at hcollect hstream
    rw [hcollect]
    refine Eq.mpr (congrArg (Heard d₀ stops events _) hstream) ?_
    exact .closed hgoes hundone hbreaks
  rcases List.eq_nil_or_concat events with rfl | ⟨before, ev, hsplit⟩
  · exact absurd rfl hbreaks
  rw [List.concat_eq_append] at hsplit
  obtain ⟨hundone, d, c, s, hgoes, hrest⟩ := hstart.run before (hlast before ev hsplit)
  obtain ⟨hcollect, hstream, hloop⟩ := hrest [ev]
  rw [← hsplit] at hcollect hstream hloop
  rw [hcollect]
  refine Eq.mpr (congrArg (Heard d₀ stops events _) hstream) ?_
  rw [List.nil_append] at hgoes
  cases ev with
  | token token text index =>
    have htokens : Engine.tokensIn events = Engine.tokensIn before ++ [token] := by
      rw [hsplit, Engine.tokensIn_append]
      rfl
    have hundone' : ∀ reason p n, StreamEvent.done reason p n ∉ events := by
      intro reason p n hmem
      rw [hsplit] at hmem
      rcases List.mem_append.mp hmem with hmem | hmem
      · exact hundone reason p n hmem
      · exact absurd (List.mem_singleton.mp hmem) (by simp)
    rcases hp : IncrementalDecoderLike.push d token with ⟨d', err | piece⟩
    · have hfails : pushAll d₀ (Engine.tokensIn events) = none := by
        rw [htokens, pushAll_concat hgoes.pushed, hp]
      simp only [collect, stream, hp]
      exact .undecodable hgoes hundone' hfails
    have hpushed : pushAll d₀ (Engine.tokensIn before ++ [token])
        = some (d', c.text ++ piece) := by
      rw [pushAll_concat hgoes.pushed, hp]
    obtain ⟨stop', hstops, ⟨hm, -⟩ | ⟨⟨t, hm⟩, hstop⟩⟩ := hgoes.piece hp
    · -- the loop would go on
      refine absurd ?_ hbreaks
      refine hloop.trans ?_
      simp only [receiveLoop, hp, hm]
    · simp only [collect, stream, hp, hm]
      rw [truncateAtStop_eq_cut hstops]
      exact .stopped htokens hgoes hpushed hstops hstop
  | done reason p n =>
    have htokens : Engine.tokensIn events = Engine.tokensIn before := by
      rw [hsplit, Engine.tokensIn_append]
      exact List.append_nil _
    rw [← htokens] at hgoes
    rcases hf : IncrementalDecoderLike.finish d with err | tail
    · simp only [collect, stream, hf]
      exact .unflushed hsplit hgoes hundone hf
    · simp only [collect, stream, hf]
      exact .done hsplit hgoes hundone hf
  | error code message =>
    refine absurd ?_ (hquiet code message)
    rw [hsplit]
    exact List.mem_append_right _ (List.mem_singleton.mpr rfl)

/-- The stop strings are still there, to cut the text at. -/
theorem Heard.sequences {events : List StreamEvent} (h : Heard d₀ stops events (.ok c) s) :
    c.stop.sequences = stops := by
  cases h with
  | closed goes => exact goes.sequences
  | stopped split goes pushed same => exact same
  | done split goes => exact goes.sequences

/-! ## The replies -/

variable {events : List StreamEvent}

theorem collectChat_eq (h : collect d (.start stops) events = .ok c)
    (hsame : c.stop.sequences = stops) (promptTokens : ℕ) :
    collectChat d stops promptTokens events
      = .ok ⟨cut stops c.text, c.finish.asApiStr, .new promptTokens c.completionTokens⟩ := by
  unfold collectChat
  rw [h, ← truncateAtStop_eq_cut hsame]

theorem completions_eq (h : collect d (.start stops) events = .ok c)
    (hsame : c.stop.sequences = stops) (promptText : Text) (echo : Bool) (promptTokens : ℕ) :
    completions d stops promptText echo promptTokens events
      = .ok ⟨if echo then promptText ++ cut stops c.text else cut stops c.text,
        c.finish.asApiStr, .new promptTokens c.completionTokens⟩ := by
  unfold completions
  rw [h, ← truncateAtStop_eq_cut hsame]

/-- The text of a streamed reply. -/
theorem contentOf_chatStream (d : D) (stops : List Text) (promptTokens : ℕ)
    (events : List StreamEvent) : contentOf (chatStream d stops promptTokens events)
      = (stream d (.new stops) ⟨[], 0, .length⟩ events).contents.flatten := by
  unfold chatStream contentOf
  rw [List.flatMap_append, List.flatMap_cons, List.flatMap_map]
  simp only [List.flatMap_cons, List.flatMap_nil, List.append_nil, List.nil_append]
  exact List.flatMap_id

/-- And its last chunk. -/
theorem last_mem_chatStream_iff {d : D} {stops : List Text} {promptTokens : ℕ}
    {events : List StreamEvent} {label : String} {usage : Usage} :
    .last label usage ∈ chatStream d stops promptTokens events
      ↔ label = (stream d (.new stops) ⟨[], 0, .length⟩ events).finish.asApiStr
        ∧ usage = .new promptTokens
          (stream d (.new stops) ⟨[], 0, .length⟩ events).completionTokens := by
  unfold chatStream
  simp

theorem wholeText_eq {tokens : List TokenId} {text : Text}
    (h : pushAll d₀ tokens = some (d, text)) :
    wholeText d₀ tokens = match IncrementalDecoderLike.finish d with
      | .error _ => none
      | .ok tail => some (text ++ tail) := by
  unfold wholeText
  rw [h]

/-- Only `length` is called so. -/
theorem asApiStr_eq_length_iff {reason : FinishReason} :
    reason.asApiStr = "length" ↔ reason = .length := by
  cases reason <;> simp [FinishReason.asApiStr]

end Handlers
