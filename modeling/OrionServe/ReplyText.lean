import OrionServe.Exchange
import OrionServe.IncrementalDecoder

/-!
# The text of a reply

Between the tokens that the engine generates and the text that a client reads
stand the channel, the decoder and the matcher of stop strings. A decoder
hands out what is stable of the text of its tokens, `stableText`, all but the
replacement characters at its end; the loop of a handler therefore has, after
each token, the stable text of the tokens so far, and stops at the first one
with which it contains a stop string.

`Exchange.reply_shows` puts this together with what the channel carries, for
every interleaving of the engine and the handler: the reply is the text of the
tokens generated, cut at the first stop string.
-/

namespace IncrementalDecoder

variable {tokenizer : Tokenizer} {bytesOf : TokenId → List UInt8} {d : IncrementalDecoder}
  {tokens : List TokenId} {token : TokenId} {rest : Text}

/-- **What is stable of the text of some tokens**: all of it but the replacement
characters at its end. -/
def stableText (bytesOf : TokenId → List UInt8) (tokens : List TokenId) : Text :=
  Utf8.trimLost (Utf8.lossy (tokens.flatMap bytesOf))

/-- It stays, whatever comes. -/
theorem stableText_prefix_lossy (bytesOf : TokenId → List UInt8) (tokens more : List TokenId) :
    stableText bytesOf tokens <+: Utf8.lossy ((tokens ++ more).flatMap bytesOf) := by
  have hsettled : [] ++ stableText bytesOf tokens <+: Utf8.settled (tokens.flatMap bytesOf) :=
    Utf8.trimLost_settled List.nil_prefix rfl
  rw [List.flatMap_append]
  exact (hsettled.trans (Utf8.settled_prefix _ _)).trans (List.prefix_append _ _)

/-- And what comes is behind it. -/
theorem stableText_append {more : List TokenId}
    (h : Utf8.lossy ((tokens ++ more).flatMap bytesOf) = stableText bytesOf tokens ++ rest) :
    stableText bytesOf (tokens ++ more) = stableText bytesOf tokens ++ Utf8.trimLost rest := by
  rw [stableText, h]
  exact Utf8.trimLost_append (Utf8.endsLost_trimLost _)

/-- **An emission** returns what extends past the part emitted before, less the
replacement characters at its end. -/
theorem Sound.emit_out (h : d.Sound bytesOf)
    (hdec : DecodesBytes tokenizer d.skipSpecialTokens bytesOf)
    (hrest : Utf8.lossy (d.tokens.flatMap bytesOf) = d.emitted ++ rest) :
    ∃ d', d.emit tokenizer = some (d', .ok (Utf8.trimLost rest)) := by
  obtain ⟨head, hemitted, hlen, -⟩ := h.shown
  have htext : Utf8.lossy ((d.tokens.drop d.windowStart).flatMap bytesOf) = head ++ rest := by
    rw [← List.take_append_drop d.windowStart d.tokens, List.flatMap_append,
      Utf8.lossy_append h.complete, hemitted, List.append_assoc] at hrest
    exact List.append_cancel_left hrest
  have hslice : sliceTokens d.tokens d.windowStart d.tokens.length
      = some (d.tokens.drop d.windowStart) := by
    rw [sliceTokens_eq h.start_le le_rfl, List.take_length]
  have hcut : Text.sliceFrom (head ++ rest) d.windowEmitted = some rest := by
    rw [← hlen]
    exact List.dropExact_append Char.utf8Size_pos head rest
  have hsum : Text.byteLen (head ++ rest) = d.windowEmitted + Text.byteLen rest := by
    rw [← hlen]
    exact List.weight_append _ _ _
  unfold IncrementalDecoder.emit
  simp only [hslice, hdec _, htext, hcut]
  split
  · next hshort =>
    -- nothing extends past it
    have hnil : rest = [] := List.eq_nil_of_weight Char.utf8Size_pos
      (show Text.byteLen rest = 0 by omega)
    rw [hnil]
    exact ⟨d, rfl⟩
  · have hdelta : (if Utf8.endsLost rest then Utf8.trimLost rest else rest)
        = Utf8.trimLost rest := by
      split
      · rfl
      · next hno => exact (Utf8.trimLost_of_not (Bool.eq_false_iff.mpr hno)).symm
    rw [hdelta]
    split
    · next hempty =>
      rw [List.isEmpty_iff.mp hempty]
      exact ⟨d, rfl⟩
    · exact ⟨_, rfl⟩

/-- **A decoder that has handed out what is stable** of the tokens so far. -/
structure UpToDate (bytesOf : TokenId → List UInt8) (tokens : List TokenId)
    (d : IncrementalDecoder) : Prop where
  sound : d.Sound bytesOf
  tokens_eq : d.tokens = tokens
  emitted : d.emitted = stableText bytesOf tokens
  window : d.window = 16
  skip : d.skipSpecialTokens = true

theorem upToDate_new (bytesOf : TokenId → List UInt8) : UpToDate bytesOf [] (new true) where
  sound := sound_new bytesOf true 16
  tokens_eq := rfl
  emitted := rfl
  window := rfl
  skip := rfl

/-- **A push** returns what has become stable. -/
theorem UpToDate.push (h : UpToDate bytesOf tokens d) (hdec : DecodesBytes tokenizer true bytesOf)
    (hlen : tokens.length + 1 < 2 ^ 63) (token : TokenId) :
    ∃ d' piece, d.push tokenizer token = some (d', .ok piece)
      ∧ UpToDate bytesOf (tokens ++ [token]) d'
      ∧ stableText bytesOf (tokens ++ [token]) = stableText bytesOf tokens ++ piece := by
  have hdec' : DecodesBytes tokenizer d.skipSpecialTokens bytesOf := h.skip ▸ hdec
  have hlen' : d.tokens.length + 1 < 2 ^ 63 := h.tokens_eq ▸ hlen
  have hsmall : d.window < 2 ^ 63 := by
    rw [h.window]
    decide
  obtain ⟨d', out, hpush, hsound, htokens, hwindow, hskip, hemitted, -⟩ :=
    h.sound.push hdec' hlen' (hsmall.trans (by decide)) (Or.inl hsmall) token
  obtain ⟨rest, hrest⟩ := stableText_prefix_lossy bytesOf tokens [token]
  -- the push re-anchors and then emits
  obtain ⟨start, count, hre, hs⟩ := (h.sound.concat token).reanchor hdec'
    (by rw [List.length_append]; exact hlen') (hsmall.trans (by decide)) (Or.inl hsmall)
  have hwhole : Utf8.lossy ((d.tokens ++ [token]).flatMap bytesOf) = d.emitted ++ rest := by
    rw [h.tokens_eq, h.emitted]
    exact hrest.symm
  obtain ⟨d'', hemit⟩ := hs.emit_out hdec' hwhole
  have hout : out = Utf8.trimLost rest := by
    unfold IncrementalDecoder.push at hpush
    simp only [hre] at hpush
    have hboth := hpush.symm.trans hemit
    simp only [Option.some.injEq, Prod.mk.injEq, Except.ok.injEq] at hboth
    exact hboth.2
  have hstable := stableText_append hrest.symm
  refine ⟨d', out, hpush, ⟨hsound, htokens.trans (by rw [h.tokens_eq]), ?_,
    hwindow.trans h.window, hskip.trans h.skip⟩, ?_⟩
  · rw [hemitted, h.emitted, hout, hstable]
  · rw [hout, hstable]

/-- **The flush** returns the rest of the text. -/
theorem UpToDate.finish (h : UpToDate bytesOf tokens d)
    (hdec : DecodesBytes tokenizer true bytesOf) :
    ∃ d' tail, d.finish tokenizer = some (d', .ok tail)
      ∧ Utf8.lossy (tokens.flatMap bytesOf) = stableText bytesOf tokens ++ tail := by
  have hdec' : DecodesBytes tokenizer d.skipSpecialTokens bytesOf := h.skip ▸ hdec
  obtain ⟨d', tail, hfinish, hwhole⟩ := h.sound.finish hdec'
  refine ⟨d', tail, hfinish, ?_⟩
  rw [← h.tokens_eq, ← hwhole, h.emitted, h.tokens_eq]

end IncrementalDecoder

/-! ## The loops of the handlers -/

open Handlers (pushAll pushAll_concat)
open IncrementalDecoder (stableText UpToDate upToDate_new)

/-- The decoder of a handler, with the tokenizer of the server. -/
structure LocalDecoder (tokenizer : Tokenizer) where
  decoder : IncrementalDecoder

/-- A panic ends a handler, as an error does. -/
def LocalDecoder.panicked : EngineError := .internal ["the decoder panicked"]

instance (tokenizer : Tokenizer) : IncrementalDecoderLike (LocalDecoder tokenizer) where
  push d token :=
    match d.decoder.push tokenizer token with
    | none => (d, .error LocalDecoder.panicked)
    | some (decoder, out) => (⟨decoder⟩, out)
  finish d :=
    match d.decoder.finish tokenizer with
    | none => .error LocalDecoder.panicked
    | some (_, out) => out

theorem LocalDecoder.push_eq {tokenizer : Tokenizer} {d : LocalDecoder tokenizer}
    {token : TokenId}
    {d' : IncrementalDecoder} {out : Except EngineError Text}
    (h : d.decoder.push tokenizer token = some (d', out)) :
    IncrementalDecoderLike.push d token = ((⟨d'⟩ : LocalDecoder tokenizer), out) := by
  simp only [IncrementalDecoderLike.push, h]

theorem LocalDecoder.finish_eq {tokenizer : Tokenizer} {d : LocalDecoder tokenizer}
    {d' : IncrementalDecoder} {out : Except EngineError Text}
    (h : d.decoder.finish tokenizer = some (d', out)) :
    IncrementalDecoderLike.finish d = out := by
  simp only [IncrementalDecoderLike.finish, h]

/-- The decoder a handler starts with. -/
def LocalDecoder.new (tokenizer : Tokenizer) : LocalDecoder tokenizer := ⟨.new true⟩

/-- **The text of these tokens** for the decoder of a handler: what is stable of
it. Later tokens change nothing in it, so that a handler may send it. -/
theorem LocalDecoder.pushAll_new {tokenizer : Tokenizer} {bytesOf : TokenId → List UInt8}
    (hdec : DecodesBytes tokenizer true bytesOf) (tokens : List TokenId) :
    tokens.length < 2 ^ 63 → ∃ d, pushAll (LocalDecoder.new tokenizer) tokens
      = some (d, stableText bytesOf tokens) ∧ UpToDate bytesOf tokens d.decoder := by
  induction tokens using List.reverseRecOn with
  | nil => exact fun _ => ⟨LocalDecoder.new tokenizer, rfl, upToDate_new bytesOf⟩
  | append_singleton tokens token ih =>
    intro hlen
    rw [List.length_append, List.length_singleton] at hlen
    obtain ⟨d, hpushed, hd⟩ := ih (by omega)
    obtain ⟨d', piece, hpush, hd', hstable⟩ := hd.push hdec hlen token
    refine ⟨⟨d'⟩, ?_, hd'⟩
    rw [pushAll_concat hpushed, LocalDecoder.push_eq hpush, hstable]

/-! ## The reply to a request -/

namespace Exchange

open Handlers IncrementalDecoder

variable {M S F : Type*} {x : Exchange M S} {id : SequenceId} {params : SamplingParams}
  {promptLen : ℕ} {tokenizer : Tokenizer} {bytesOf : TokenId → List UInt8}

/-- **What a reply shows of the tokens generated**: the text in one piece, the
text as it is streamed, the reason and the number of tokens. -/
inductive Shows (params : SamplingParams) (eosIds : List TokenId)
    (bytesOf : TokenId → List UInt8) (stops : List Text) (generated : List TokenId) :
    Text → Text → FinishReason → ℕ → Prop
  /-- Up to the token that completes the first stop string, and cut there. A
  streamed reply is cut in its last piece alone. -/
  | stopped {before rest : List TokenId} {token : TokenId} {piece : Text}
      (split : generated = before ++ token :: rest)
      (quiet : ¬ Stops stops (stableText bytesOf before))
      (completes : Stops stops (stableText bytesOf (before ++ [token])))
      (last : stableText bytesOf (before ++ [token]) = stableText bytesOf before ++ piece) :
      Shows params eosIds bytesOf stops generated
        (cut stops (stableText bytesOf (before ++ [token])))
        (stableText bytesOf before ++ cut stops piece) .stop (before.length + 1)
  /-- All of them, the rest of the text flushed. -/
  | done {reason : FinishReason} {n : ℕ} (quiet : ¬ Stops stops (stableText bytesOf generated))
      (ending : Ending params eosIds generated reason n) :
      Shows params eosIds bytesOf stops generated
        (cut stops (Utf8.lossy (generated.flatMap bytesOf)))
        (Utf8.lossy (generated.flatMap bytesOf)) reason generated.length
  /-- The channel was closed: all of them or all but one, and nothing flushed. -/
  | closed {tokens more : List TokenId} (split : generated = tokens ++ more)
      (lost : more.length ≤ 1) (quiet : ¬ Stops stops (stableText bytesOf tokens)) :
      Shows params eosIds bytesOf stops generated (stableText bytesOf tokens)
        (stableText bytesOf tokens) .length tokens.length

variable {stops : List Text} {result : Except EngineError Collected} {s : Streamed}

/-- **What the loops leave** is what the reply shows: every decode goes through,
and the text of the tokens is that of the decoder. -/
theorem Sound.shows (h : x.Sound id params promptLen)
    (hdec : DecodesBytes tokenizer true bytesOf)
    (hover : x.Over (LocalDecoder.new tokenizer) stops) (hne : ∀ s ∈ stops, s ≠ [])
    (hlen : x.received.length < 2 ^ 63)
    (hheard : Heard (LocalDecoder.new tokenizer) stops x.received result s) :
    ∃ c, result = .ok c ∧ s.finish = c.finish ∧ s.completionTokens = c.completionTokens
      ∧ Shows params x.engine.eosIds bytesOf stops (x.generated id) (cut stops c.text)
        s.contents.flatten c.finish c.completionTokens := by
  have hshort : (Engine.tokensIn x.received).length < 2 ^ 63 :=
    (List.length_filterMap_le _ _).trans_lt hlen
  obtain ⟨d', hall, hd'⟩ := LocalDecoder.pushAll_new hdec _ hshort
  cases hheard with
  | @closed d c s goes undone unbroken =>
    obtain ⟨rfl, htext⟩ := Prod.mk.inj (Option.some.inj (goes.pushed.symm.trans hall))
    obtain ⟨more, hgen, hmore, -⟩ := h.closed_cases (hover.resolve_left unbroken) undone
    refine ⟨c, rfl, goes.untold.2.trans goes.untold.1.symm,
      goes.streamed.trans goes.collected.symm, ?_⟩
    have hquiet := goes.quiet
    have hsame : cut stops c.text = c.text :=
      ((StopSequenceMatcher.new stops).truncateAtStop_eq_self_iff hne _).mpr hquiet
    rw [htext] at hquiet
    rw [hsame, goes.sent, goes.untold.1, goes.collected, htext]
    exact .closed hgen hmore hquiet
  | undecodable goes undone fails => exact absurd (fails.symm.trans hall) (by simp)
  | @stopped before token d d'' c s piece stop' split goes pushed same completes =>
    rw [split] at hall
    obtain ⟨-, hlast⟩ := Prod.mk.inj (Option.some.inj (pushed.symm.trans hall))
    have hbefore : before.length < 2 ^ 63 := by
      rw [split, List.length_append] at hshort
      omega
    obtain ⟨d₁, hpushed, -⟩ := LocalDecoder.pushAll_new hdec before hbefore
    obtain ⟨-, htext⟩ := Prod.mk.inj (Option.some.inj (goes.pushed.symm.trans hpushed))
    obtain ⟨rest, hrest⟩ := h.received_prefix
    have hsplit : x.generated id = before ++ token :: rest := by
      rw [← hrest, split, List.append_assoc]
      rfl
    have hquiet := goes.quiet
    rw [hlast] at completes
    refine ⟨_, rfl, rfl, ?_, ?_⟩
    · show (s.count.deliver _).completionTokens = c.completionTokens + 1
      rw [deliver_completionTokens, goes.collected, ← goes.streamed]
      rfl
    · show Shows _ _ _ _ _ (cut stops (c.text ++ piece)) (s.count.deliver _).contents.flatten
        .stop (c.completionTokens + 1)
      have hsent : (s.count.deliver (cut stops piece)).contents.flatten
          = c.text ++ cut stops piece := by
        rw [deliver_contents]
        exact congrArg (· ++ cut stops piece) goes.sent
      rw [hsent, goes.collected, hlast, htext]
      rw [htext] at hlast hquiet
      exact .stopped hsplit hquiet completes hlast.symm
  | @done before reason p n d c s tail split goes undone flushed =>
    obtain ⟨rfl, htext⟩ := Prod.mk.inj (Option.some.inj (goes.pushed.symm.trans hall))
    obtain ⟨hgen, hending⟩ := h.told split
    obtain ⟨_, tail', hfinish, hwhole⟩ := hd'.finish hdec
    obtain rfl := Except.ok.inj (flushed.symm.trans (LocalDecoder.finish_eq hfinish))
    have hquiet := goes.quiet
    rw [htext, hgen] at hquiet
    refine ⟨_, rfl, rfl, ?_, ?_⟩
    · show max n (s.deliver tail).completionTokens = max n c.completionTokens
      rw [deliver_completionTokens, goes.streamed, goes.collected]
    · show Shows _ _ _ _ _ (cut stops (c.text ++ tail)) (s.deliver tail).contents.flatten
        reason (max n c.completionTokens)
      rw [deliver_contents, goes.sent, htext, ← hwhole, goes.collected, hgen,
        max_eq_right hending.count_le]
      exact .done hquiet hending
  | unflushed split goes undone fails =>
    obtain ⟨rfl, -⟩ := Prod.mk.inj (Option.some.inj (goes.pushed.symm.trans hall))
    obtain ⟨_, tail, hfinish, -⟩ := hd'.finish hdec
    exact absurd (fails.symm.trans (LocalDecoder.finish_eq hfinish)) (by simp)

variable [LanguageModel M F] [Sampler S F]

/-- **The reply to a request**, in every interleaving of the engine and the
handler: no stop string is in it, and in one piece or streamed it shows the
text of the tokens that were generated. -/
theorem reply_shows {config : SchedulerConfig} {n bs firstId : ℕ} {flag : Bool}
    {model : M} {prompt : List TokenId} (hdec : DecodesBytes tokenizer true bytesOf)
    (h : x.Reachable config n bs flag model firstId prompt params id (LocalDecoder.new tokenizer)
      (params.stopSequences.map String.toList))
    (hover : x.Over (LocalDecoder.new tokenizer) (params.stopSequences.map String.toList))
    (hlen : x.received.length < 2 ^ 63) (promptTokens : ℕ) :
    let d := LocalDecoder.new tokenizer
    let stops := params.stopSequences.map String.toList
    ∃ content sent reason count,
      Shows params x.engine.eosIds bytesOf stops (x.generated id) content sent reason count
      ∧ ¬ Stops stops content
      ∧ collectChat d stops promptTokens x.received
        = .ok ⟨content, reason.asApiStr, .new promptTokens count⟩
      ∧ (∀ promptText echo, completions d stops promptText echo promptTokens x.received
        = .ok ⟨if echo then promptText ++ content else content, reason.asApiStr,
          .new promptTokens count⟩)
      ∧ contentOf (chatStream d stops promptTokens x.received) = sent
      ∧ .last reason.asApiStr (.new promptTokens count)
        ∈ chatStream d stops promptTokens x.received := by
  intro d stops
  have hne : ∀ s ∈ stops, s ≠ [] := SamplingParams.stopSequences_ne_nil h.valid
  have hheard := heard d hne h.sound.no_error h.unbroken
  obtain ⟨c, hc, hfinish, hcount, hshows⟩ := h.sound.shows hdec hover hne hlen hheard
  have hsame : c.stop.sequences = stops := (hc ▸ hheard).sequences
  refine ⟨_, _, _, _, hshows, ?_, collectChat_eq hc hsame promptTokens,
    fun promptText echo => completions_eq hc hsame promptText echo promptTokens,
    contentOf_chatStream d stops promptTokens x.received, ?_⟩
  · exact (StopSequenceMatcher.new stops).not_stops_truncateAtStop hne c.text
  · exact last_mem_chatStream_iff.mpr
      ⟨congrArg FinishReason.asApiStr hfinish.symm, by rw [hcount]⟩

/-- A byte that begins a character, with the replacement character for a stop
string: the decoder flushes it, the text is cut there, and the label is still
`length`. -/
example : collectChat (LocalDecoder.new byteTokenizer) [[Utf8.replacement]] 1
    [.token 0xE2 "" 0, .done .length 1 1] = .ok ⟨[], "length", .new 1 1⟩ := by decide +kernel

/-- A request for three tokens with a stop string. -/
def twiceParams : SamplingParams := { maxTokens := 3, stopSequences := ["AA"] }

/-- A model that always answers with `A` has taken two steps with it. -/
def twice : Exchange MockModel MockSampler where
  engine := EngineOp.runAll
    ((MockModel.engine 4 []).submit [1, 2, 3] twiceParams ⟨8, [], true⟩ ⟨65⟩ 0).1
    [.step 0, .step 0]
  exited := false
  received := []
  closed := false

theorem reachable_twice :
    ((twice.receiveNext ⟨1⟩).receiveNext ⟨1⟩).Reachable {} 4 4 true ⟨[]⟩ 1
      [1, 2, 3] twiceParams ⟨1⟩
      (LocalDecoder.new byteTokenizer) (twiceParams.stopSequences.map String.toList) := by
  have hstart : (MockModel.engine 4 []).Reachable {} 4 4 true ⟨[]⟩ 1 := .start
  have hok : ((MockModel.engine 4 []).submit [1, 2, 3] twiceParams ⟨8, [], true⟩ ⟨65⟩ 0).2
      = .ok ⟨1⟩ := by decide +kernel
  have htwice : twice.Reachable {} 4 4 true ⟨[]⟩ 1 [1, 2, 3] twiceParams ⟨1⟩
      (LocalDecoder.new byteTokenizer) (twiceParams.stopSequences.map String.toList) :=
    ((Reachable.accepted hstart hok).step (.engine (.step 0) rfl (by simp) (by simp))).step
      (.engine (.step 0) rfl (by simp) (by simp))
  have hfirst : twice.inFlight ⟨1⟩ = [.token 65 "" 0, .token 65 "" 1] := by decide +kernel
  have hsecond : (twice.receiveNext ⟨1⟩).inFlight ⟨1⟩ = [.token 65 "" 1] := by decide +kernel
  have hgoes : ∀ y : Exchange MockModel MockSampler, y.closed = false →
      (receiveLoop (LocalDecoder.new byteTokenizer)
        (.new (twiceParams.stopSequences.map String.toList)) y.received) = .closed →
      ¬ y.Over (LocalDecoder.new byteTokenizer)
        (twiceParams.stopSequences.map String.toList) := by
    rintro y hopen hquiet (hbreaks | hclosed)
    · exact hbreaks hquiet
    · exact absurd (hopen.symm.trans hclosed) (by simp)
  have hone := htwice.step (.receive (hgoes twice rfl rfl) hfirst)
  rw [← receiveNext_of_inFlight hfirst] at hone
  have htwo := hone.step (.receive (hgoes _ rfl (by decide +kernel)) hsecond)
  rw [← receiveNext_of_inFlight hsecond] at htwo
  exact htwo

/-- Both tokens complete the stop string: nothing is shown, and both are
streamed. -/
theorem reply_shows_twice :
    let x := (twice.receiveNext ⟨1⟩).receiveNext ⟨1⟩
    ∃ reason, Shows twiceParams x.engine.eosIds
        (fun t => if true && decide (256 ≤ t.toNat) then [] else [UInt8.ofNat t.toNat])
        (twiceParams.stopSequences.map String.toList) (x.generated ⟨1⟩) [] ['A', 'A'] reason 2
      ∧ reason.asApiStr = "stop" := by
  intro x
  have hreceived : x.received = [.token 65 "" 0, .token 65 "" 1] := by decide +kernel
  have hover : x.Over (LocalDecoder.new byteTokenizer)
      (twiceParams.stopSequences.map String.toList) := by
    refine Or.inl (fun hclosed => ?_)
    rw [hreceived] at hclosed
    exact absurd hclosed (by decide +kernel)
  obtain ⟨content, sent, reason, count, hshows, -, hcollect, -, hstream, -⟩ :=
    reply_shows (byteTokenizer_decodes true) reachable_twice hover
      (by rw [hreceived]; decide) 3
  have hreply : collectChat (LocalDecoder.new byteTokenizer)
      (twiceParams.stopSequences.map String.toList) 3 x.received
        = .ok ⟨[], "stop", .new 3 2⟩ := by
    rw [hreceived]
    decide +kernel
  have hsent : contentOf (chatStream (LocalDecoder.new byteTokenizer)
      (twiceParams.stopSequences.map String.toList) 3 x.received) = ['A', 'A'] := by
    rw [hreceived]
    decide +kernel
  have hsame := Except.ok.inj (hreply.symm.trans hcollect)
  injection hsame with hcontent hlabel husage
  injection husage with _ hcount
  rw [hsent] at hstream
  subst hcontent hcount hstream
  exact ⟨reason, hshows, hlabel.symm⟩

end Exchange
