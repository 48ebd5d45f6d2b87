import OrionServe.Core
import OrionServe.Lib.Utf8
import OrionServe.StopSequences

/-!
# Streaming text without splitting characters

The decoder decodes a window of recent tokens again with every token and hands
out what extends past the part of that window it has handed out before, less
the replacement characters at its end. Now and then it moves the start of the
window forward and takes the bytes that leave the window off its count.

A decode is lossy, so the text of a window is not the text of the whole
generation cut to size: where the window starts inside a character both parts
show replacement characters. It is the text cut to size where the part before
the window is complete, and that is what the decoder checks, in effect, before
it moves the start.

The tokenizer is third-party code, here a function; what is used of it is
`DecodesBytes`. Counts of tokens are a `usize`.
-/

/-- A tokenizer, for what the decoder calls of it. -/
structure Tokenizer where
  decode : List TokenId → Bool → Except EngineError Text

/-- **A byte-level tokenizer**: every token stands for some bytes, a special one
that is skipped for none, and a list of tokens decodes to the lossy decoding
of its bytes. -/
def DecodesBytes (tokenizer : Tokenizer) (skip : Bool) (bytesOf : TokenId → List UInt8) : Prop :=
  ∀ ids, tokenizer.decode ids skip = .ok (Utf8.lossy (ids.flatMap bytesOf))

/-- `&tokens[start..stop]`: a panic, `none` here, when it is out of range. -/
def sliceTokens (tokens : List TokenId) (start stop : ℕ) : Option (List TokenId) :=
  if start ≤ stop ∧ stop ≤ tokens.length then some ((tokens.take stop).drop start) else none

/-- Emits text incrementally as tokens arrive. -/
structure IncrementalDecoder where
  /-- Every token seen. -/
  tokens : List TokenId
  /-- What was handed to the caller. -/
  emitted : Text
  /-- Tokens of left context the decoder re-examines each step. -/
  window : ℕ
  /-- First token of the current decode window. -/
  windowStart : ℕ
  /-- Bytes of the current window's decode already emitted. -/
  windowEmitted : ℕ
  skipSpecialTokens : Bool

namespace IncrementalDecoder

def new (skipSpecialTokens : Bool) : IncrementalDecoder where
  tokens := []
  emitted := []
  window := 16
  windowStart := 0
  windowEmitted := 0
  skipSpecialTokens := skipSpecialTokens

/-- Sets the left-context window. -/
def withWindow (d : IncrementalDecoder) (window : ℕ) : IncrementalDecoder :=
  { d with window := max window 1 }

/-- The re-anchoring of a push: moves the start of the window forward when it
has grown past twice its target. The arithmetic is that of a `usize`. -/
def reanchor (d : IncrementalDecoder) (tokenizer : Tokenizer) :
    Option (IncrementalDecoder × Except EngineError Unit) :=
  if d.window * 2 % 2 ^ 64 < d.tokens.length - d.windowStart then
    let newStart := (d.tokens.length + 2 ^ 64 - d.window) % 2 ^ 64
    match sliceTokens d.tokens d.windowStart newStart with
    | none => none
    | some discarded =>
      match tokenizer.decode discarded d.skipSpecialTokens with
      | .error e => some (d, .error e)
      | .ok dropped =>
        if Utf8.endsLost dropped = false ∧ Text.byteLen dropped ≤ d.windowEmitted then
          some ({ d with
            windowEmitted := d.windowEmitted - Text.byteLen dropped
            windowStart := newStart }, .ok ())
        else some (d, .ok ())
  else some (d, .ok ())

/-- The rest of a push: decodes the window and emits what extends past the part
emitted before. -/
def emit (d : IncrementalDecoder) (tokenizer : Tokenizer) :
    Option (IncrementalDecoder × Except EngineError Text) :=
  match sliceTokens d.tokens d.windowStart d.tokens.length with
  | none => none
  | some recent =>
    match tokenizer.decode recent d.skipSpecialTokens with
    | .error e => some (d, .error e)
    | .ok windowText =>
      if Text.byteLen windowText ≤ d.windowEmitted then some (d, .ok [])
      else
        match Text.sliceFrom windowText d.windowEmitted with
        | none => none
        | some rest =>
          let delta := if Utf8.endsLost rest then Utf8.trimLost rest else rest
          if delta.isEmpty then some (d, .ok [])
          else some ({ d with
            windowEmitted := d.windowEmitted + Text.byteLen delta
            emitted := d.emitted ++ delta }, .ok delta)

/-- Adds a token and returns whatever text became stable; `none` is a
panic. -/
def push (d : IncrementalDecoder) (tokenizer : Tokenizer) (token : TokenId) :
    Option (IncrementalDecoder × Except EngineError Text) :=
  match ({ d with tokens := d.tokens ++ [token] }).reanchor tokenizer with
  | none => none
  | some (d, .error e) => some (d, .error e)
  | some (d, .ok ()) => d.emit tokenizer

/-- How many bytes two texts agree on, in whole characters. -/
def commonLen (full emitted : Text) : ℕ :=
  Text.byteLen (((full.zip emitted).takeWhile (fun ab => ab.1 = ab.2)).map Prod.fst)

/-- Flushes any text held back, at end of generation. -/
def finish (d : IncrementalDecoder) (tokenizer : Tokenizer) :
    Option (IncrementalDecoder × Except EngineError Text) :=
  match tokenizer.decode d.tokens d.skipSpecialTokens with
  | .error e => some (d, .error e)
  | .ok full =>
    let common := commonLen full d.emitted
    if Text.byteLen full ≤ common then some (d, .ok [])
    else
      match Text.sliceFrom full common with
      | none => none
      | some tail => some ({ d with
          emitted := full
          windowEmitted := d.windowEmitted + Text.byteLen tail }, .ok tail)

/-- One push per token, as long as none fails. -/
def pushAll (tokenizer : Tokenizer) (d : IncrementalDecoder) :
    List TokenId → Option (IncrementalDecoder × Except EngineError (List Text))
  | [] => some (d, .ok [])
  | token :: tokens =>
    match d.push tokenizer token with
    | none => none
    | some (d, .error e) => some (d, .error e)
    | some (d, .ok out) =>
      match pushAll tokenizer d tokens with
      | none => none
      | some (d, .error e) => some (d, .error e)
      | some (d, .ok outs) => some (d, .ok (out :: outs))

/-- What a new decoder returns for a whole generation: the strings of the
pushes and the one of `finish`. -/
def stream (tokenizer : Tokenizer) (skip : Bool) (window : ℕ) (tokens : List TokenId) :
    Option (Except EngineError (List Text × Text)) :=
  match pushAll tokenizer ((new skip).withWindow window) tokens with
  | none => none
  | some (_, .error e) => some (.error e)
  | some (d, .ok outs) =>
    match d.finish tokenizer with
    | none => none
    | some (_, .error e) => some (.error e)
    | some (_, .ok last) => some (.ok (outs, last))

/-! ## What is kept between the calls -/

variable {tokenizer : Tokenizer} {skip : Bool} {bytesOf : TokenId → List UInt8}
  {d d' : IncrementalDecoder} {token : TokenId} {window : ℕ}

/-- **What was emitted is settled.** The tokens before the window are complete,
and what was emitted is their text and a beginning of the window's that no
further token changes. -/
structure Sound (bytesOf : TokenId → List UInt8) (d : IncrementalDecoder) : Prop where
  start_le : d.windowStart ≤ d.tokens.length
  complete : Utf8.after ((d.tokens.take d.windowStart).flatMap bytesOf) = .idle
  shown : ∃ head, d.emitted
      = Utf8.settled ((d.tokens.take d.windowStart).flatMap bytesOf) ++ head
    ∧ Text.byteLen head = d.windowEmitted
    ∧ head <+: Utf8.settled ((d.tokens.drop d.windowStart).flatMap bytesOf)

theorem sound_new (bytesOf : TokenId → List UInt8) (skip : Bool) (window : ℕ) :
    ((new skip).withWindow window).Sound bytesOf where
  start_le := le_rfl
  complete := rfl
  shown := ⟨[], rfl, rfl, List.nil_prefix⟩

/-- A token more. -/
theorem Sound.concat (h : d.Sound bytesOf) (token : TokenId) :
    ({ d with tokens := d.tokens ++ [token] } : IncrementalDecoder).Sound bytesOf where
  start_le := h.start_le.trans (by rw [List.length_append]; exact Nat.le_add_right _ _)
  complete := by
    show Utf8.after (((d.tokens ++ [token]).take d.windowStart).flatMap bytesOf) = .idle
    rw [List.take_append_of_le_length h.start_le]
    exact h.complete
  shown := by
    obtain ⟨head, hemitted, hlen, hhead⟩ := h.shown
    refine ⟨head, ?_, hlen, ?_⟩
    · show d.emitted = Utf8.settled (((d.tokens ++ [token]).take d.windowStart).flatMap bytesOf)
        ++ head
      rw [List.take_append_of_le_length h.start_le]
      exact hemitted
    · show head <+: Utf8.settled (((d.tokens ++ [token]).drop d.windowStart).flatMap bytesOf)
      rw [List.drop_append_of_le_length h.start_le, List.flatMap_append]
      exact hhead.trans (Utf8.settled_prefix _ _)

/-- Of two beginnings of one text the one with fewer bytes is a beginning of
the other. -/
theorem prefix_of_byteLen_le {a b text : Text} (ha : a <+: text) (hb : b <+: text)
    (hle : Text.byteLen a ≤ Text.byteLen b) : a <+: b := by
  rcases List.prefix_or_prefix_of_prefix ha hb with hab | ⟨rest, rfl⟩
  · exact hab
  · have hrest : Text.byteLen rest = 0 := by
      have hsum : Text.byteLen (b ++ rest) = Text.byteLen b + Text.byteLen rest :=
        List.weight_append _ _ _
      omega
    rw [List.eq_nil_of_weight Char.utf8Size_pos hrest, List.append_nil]

/-- The slice a re-anchoring drops. -/
theorem sliceTokens_eq {tokens : List TokenId} {start stop : ℕ} (hle : start ≤ stop)
    (hstop : stop ≤ tokens.length) :
    sliceTokens tokens start stop = some ((tokens.take stop).drop start) := if_pos ⟨hle, hstop⟩

/-- The tokens up to the new start of the window. -/
theorem take_eq_append_slice {tokens : List TokenId} {start stop : ℕ} (hle : start ≤ stop) :
    tokens.take stop = tokens.take start ++ (tokens.take stop).drop start := by
  calc tokens.take stop = (tokens.take stop).take start ++ (tokens.take stop).drop start :=
        (List.take_append_drop _ _).symm
    _ = _ := by rw [List.take_take, min_eq_left hle]

/-- And those from the old one. -/
theorem drop_eq_slice_append {tokens : List TokenId} {start stop : ℕ} (hle : start ≤ stop)
    (hstop : stop ≤ tokens.length) :
    tokens.drop start = (tokens.take stop).drop start ++ tokens.drop stop := by
  have hlen : start ≤ (tokens.take stop).length := by
    rw [List.length_take, min_eq_left hstop]
    exact hle
  calc tokens.drop start = (tokens.take stop ++ tokens.drop stop).drop start := by
        rw [List.take_append_drop]
    _ = _ := List.drop_append_of_le_length hlen

/-- **The start of the window moves forward**: where the text between is
complete, it was all emitted, and what is left of the count is about the
tokens from the new start on. -/
theorem Sound.advance (h : d.Sound bytesOf) {stop : ℕ} (hle : d.windowStart ≤ stop)
    (hstop : stop ≤ d.tokens.length) {dropped : Text}
    (hdropped : dropped = Utf8.lossy (((d.tokens.take stop).drop d.windowStart).flatMap bytesOf))
    (hends : Utf8.endsLost dropped = false) (hfits : Text.byteLen dropped ≤ d.windowEmitted) :
    ({ d with
      windowEmitted := d.windowEmitted - Text.byteLen dropped
      windowStart := stop } : IncrementalDecoder).Sound bytesOf := by
  obtain ⟨head, hemitted, hlen, hhead⟩ := h.shown
  have hidle : Utf8.after (((d.tokens.take stop).drop d.windowStart).flatMap bytesOf) = .idle :=
    Utf8.after_eq_idle (hdropped ▸ hends)
  have hsettled := hdropped.trans (Utf8.lossy_of_idle hidle)
  rw [drop_eq_slice_append hle hstop, List.flatMap_append, Utf8.settled_append hidle,
    ← hsettled] at hhead
  obtain ⟨rest, rfl⟩ := prefix_of_byteLen_le (List.prefix_append dropped _) hhead
    (hlen.symm ▸ hfits)
  have hsum : Text.byteLen (dropped ++ rest) = Text.byteLen dropped + Text.byteLen rest :=
    List.weight_append _ _ _
  refine ⟨hstop, ?_, rest, ?_, ?_, (List.prefix_append_right_inj dropped).mp hhead⟩
  · show Utf8.after ((d.tokens.take stop).flatMap bytesOf) = .idle
    rw [take_eq_append_slice hle, List.flatMap_append, Utf8.after_append h.complete]
    exact hidle
  · show d.emitted = Utf8.settled ((d.tokens.take stop).flatMap bytesOf) ++ rest
    rw [take_eq_append_slice hle, List.flatMap_append, Utf8.settled_append h.complete,
      ← hsettled, hemitted, List.append_assoc]
  · show Text.byteLen rest = d.windowEmitted - Text.byteLen dropped
    omega

/-- The arithmetic of a re-anchoring does not overflow. -/
def Fits (window k : ℕ) : Prop := window < 2 ^ 63 ∨ k ≤ 2 * (window - 2 ^ 63)

/-- **A re-anchoring** does not panic, and keeps what was emitted. -/
theorem Sound.reanchor (h : d.Sound bytesOf)
    (hdec : DecodesBytes tokenizer d.skipSpecialTokens bytesOf)
    (hlen : d.tokens.length < 2 ^ 63) (hwindow : d.window < 2 ^ 64)
    (hfits : Fits d.window d.tokens.length) :
    ∃ start count, d.reanchor tokenizer
        = some ({ d with windowEmitted := count, windowStart := start }, .ok ())
      ∧ ({ d with windowEmitted := count, windowStart := start }
        : IncrementalDecoder).Sound bytesOf := by
  unfold IncrementalDecoder.reanchor
  split
  swap
  · exact ⟨d.windowStart, d.windowEmitted, rfl, h⟩
  next hgrown =>
  have hsmall : d.window < 2 ^ 63 := by
    rcases hfits with hsmall | hshort
    · exact hsmall
    · by_contra hlarge
      have hmod : d.window * 2 % 2 ^ 64 = 2 * (d.window - 2 ^ 63) := by omega
      omega
  have hmod : d.window * 2 % 2 ^ 64 = d.window * 2 := Nat.mod_eq_of_lt (by omega)
  rw [hmod] at hgrown
  have hstart : (d.tokens.length + 2 ^ 64 - d.window) % 2 ^ 64 = d.tokens.length - d.window := by
    omega
  have hle : d.windowStart ≤ d.tokens.length - d.window := by omega
  have hstop : d.tokens.length - d.window ≤ d.tokens.length := Nat.sub_le _ _
  dsimp only
  rw [hstart, sliceTokens_eq hle hstop]
  dsimp only
  rw [hdec]
  dsimp only
  split
  · next hclean => exact ⟨_, _, rfl, h.advance hle hstop rfl hclean.1 hclean.2⟩
  · exact ⟨d.windowStart, d.windowEmitted, rfl, h⟩

/-- **An emission** does not slice inside a character, and what it returns is
settled. -/
theorem Sound.emit (h : d.Sound bytesOf)
    (hdec : DecodesBytes tokenizer d.skipSpecialTokens bytesOf) :
    ∃ count out, d.emit tokenizer
        = some ({ d with windowEmitted := count, emitted := d.emitted ++ out }, .ok out)
      ∧ Utf8.endsLost out = false
      ∧ ({ d with windowEmitted := count, emitted := d.emitted ++ out }
        : IncrementalDecoder).Sound bytesOf := by
  have hsame : ({ d with windowEmitted := d.windowEmitted, emitted := d.emitted ++ [] }
      : IncrementalDecoder) = d := by rw [List.append_nil]
  have hquiet : d.emit tokenizer = some (d, .ok []) →
      ∃ count out, d.emit tokenizer
          = some ({ d with windowEmitted := count, emitted := d.emitted ++ out }, .ok out)
        ∧ Utf8.endsLost out = false
        ∧ ({ d with windowEmitted := count, emitted := d.emitted ++ out }
          : IncrementalDecoder).Sound bytesOf := by
    intro hd
    exact ⟨d.windowEmitted, [], by rw [hsame]; exact hd, rfl, by rw [hsame]; exact h⟩
  obtain ⟨head, hemitted, hlen, hhead⟩ := h.shown
  obtain ⟨rest, htext⟩ : ∃ rest,
      Utf8.lossy ((d.tokens.drop d.windowStart).flatMap bytesOf) = head ++ rest := by
    obtain ⟨rest, hrest⟩ := hhead.trans (List.prefix_append _ (Utf8.State.pending _))
    exact ⟨rest, hrest.symm⟩
  have hslice : sliceTokens d.tokens d.windowStart d.tokens.length
      = some (d.tokens.drop d.windowStart) := by
    rw [sliceTokens_eq h.start_le le_rfl, List.take_length]
  have hcut : Text.sliceFrom (head ++ rest) d.windowEmitted = some rest := by
    rw [← hlen]
    exact List.dropExact_append Char.utf8Size_pos head rest
  have hdelta : (if Utf8.endsLost rest then Utf8.trimLost rest else rest)
      = Utf8.trimLost rest := by
    split
    · rfl
    · next hno => exact (Utf8.trimLost_of_not (Bool.eq_false_iff.mpr hno)).symm
  by_cases hshort : Text.byteLen (head ++ rest) ≤ d.windowEmitted
  · refine hquiet ?_
    unfold IncrementalDecoder.emit
    simp only [hslice, hdec _, htext, if_pos hshort]
  by_cases hempty : (Utf8.trimLost rest).isEmpty = true
  · refine hquiet ?_
    unfold IncrementalDecoder.emit
    simp only [hslice, hdec _, htext, if_neg hshort, hcut, hdelta, if_pos hempty]
  refine ⟨d.windowEmitted + Text.byteLen (Utf8.trimLost rest), Utf8.trimLost rest, ?_,
    Utf8.endsLost_trimLost rest, h.start_le, h.complete, head ++ Utf8.trimLost rest, ?_, ?_,
    Utf8.trimLost_settled hhead htext⟩
  · unfold IncrementalDecoder.emit
    simp only [hslice, hdec _, htext, if_neg hshort, hcut, hdelta, if_neg hempty]
  · show d.emitted ++ Utf8.trimLost rest = _
    rw [hemitted, List.append_assoc]
  · show Text.byteLen (head ++ Utf8.trimLost rest) = _
    rw [← hlen]
    exact List.weight_append _ _ _

/-- **A push**, whole. -/
theorem Sound.push (h : d.Sound bytesOf)
    (hdec : DecodesBytes tokenizer d.skipSpecialTokens bytesOf)
    (hlen : d.tokens.length + 1 < 2 ^ 63) (hwindow : d.window < 2 ^ 64)
    (hfits : Fits d.window (d.tokens.length + 1)) (token : TokenId) :
    ∃ d' out, d.push tokenizer token = some (d', .ok out) ∧ d'.Sound bytesOf
      ∧ d'.tokens = d.tokens ++ [token] ∧ d'.window = d.window
      ∧ d'.skipSpecialTokens = d.skipSpecialTokens ∧ d'.emitted = d.emitted ++ out
      ∧ Utf8.endsLost out = false := by
  have hcount : (d.tokens ++ [token]).length = d.tokens.length + 1 := List.length_append
  rw [← hcount] at hlen hfits
  obtain ⟨start, count, hre, hs⟩ := (h.concat token).reanchor hdec hlen hwindow hfits
  obtain ⟨count', out, hem, hends, hs'⟩ := hs.emit hdec
  refine ⟨_, out, ?_, hs', rfl, rfl, rfl, rfl, hends⟩
  unfold IncrementalDecoder.push
  simp only [hre]
  exact hem

/-- **Run lemma**: the pushes of a generation. -/
theorem Sound.pushAll (tokens : List TokenId) :
    ∀ {d : IncrementalDecoder}, d.Sound bytesOf →
      DecodesBytes tokenizer d.skipSpecialTokens bytesOf →
      d.tokens.length + tokens.length < 2 ^ 63 → d.window < 2 ^ 64 →
      Fits d.window (d.tokens.length + tokens.length) →
      ∃ d' outs, pushAll tokenizer d tokens = some (d', .ok outs) ∧ d'.Sound bytesOf
        ∧ d'.tokens = d.tokens ++ tokens ∧ d'.skipSpecialTokens = d.skipSpecialTokens
        ∧ d'.emitted = d.emitted ++ outs.flatten ∧ ∀ out ∈ outs, Utf8.endsLost out = false := by
  induction tokens with
  | nil =>
    intro d h _ _ _ _
    exact ⟨d, [], rfl, h, (List.append_nil _).symm, rfl, (List.append_nil _).symm, by simp⟩
  | cons token tokens ih =>
    intro d h hdec hlen hwindow hfits
    rw [List.length_cons] at hlen hfits
    obtain ⟨d₁, out, hpush, hs, htokens, hw, hskip, hemitted, hends⟩ :=
      h.push hdec (by omega) hwindow (hfits.imp_right (fun hk => by omega)) token
    have hcount : d₁.tokens.length = d.tokens.length + 1 := by
      rw [htokens]
      exact List.length_append
    obtain ⟨d₂, outs, hall, hs₂, htokens₂, hskip₂, hemitted₂, hends₂⟩ := ih hs (hskip ▸ hdec)
      (by omega) (hw ▸ hwindow) (by rw [hw, hcount, Nat.add_right_comm]; exact hfits)
    refine ⟨d₂, out :: outs, ?_, hs₂, ?_, hskip₂.trans hskip, ?_, ?_⟩
    · unfold IncrementalDecoder.pushAll
      simp only [hpush, hall]
    · rw [htokens₂, htokens, List.append_assoc]
      rfl
    · rw [hemitted₂, hemitted, List.append_assoc]
      rfl
    · intro x hx
      rcases List.mem_cons.mp hx with rfl | hx
      · exact hends
      · exact hends₂ x hx

/-- Two texts of which one continues the other agree on all of it. -/
theorem commonLen_of_prefix {full emitted : Text} (h : emitted <+: full) :
    commonLen full emitted = Text.byteLen emitted := by
  unfold commonLen
  congr 1
  induction emitted generalizing full with
  | nil => simp
  | cons a emitted ih =>
    obtain ⟨rest, rfl⟩ := h
    rw [List.cons_append, List.zip_cons_cons, List.takeWhile_cons_of_pos (by simp),
      List.map_cons, ih (List.prefix_append emitted rest)]

/-- **What was emitted is a beginning of the whole text.** -/
theorem Sound.emitted_prefix (h : d.Sound bytesOf) :
    d.emitted <+: Utf8.lossy (d.tokens.flatMap bytesOf) := by
  obtain ⟨head, hemitted, -, hhead⟩ := h.shown
  have hsplit : d.tokens.flatMap bytesOf = (d.tokens.take d.windowStart).flatMap bytesOf
      ++ (d.tokens.drop d.windowStart).flatMap bytesOf := by
    rw [← List.flatMap_append, List.take_append_drop]
  rw [hsplit, Utf8.lossy_append h.complete, hemitted]
  exact (List.prefix_append_right_inj _).mpr (hhead.trans (List.prefix_append _ _))

/-- **The flush** returns the rest of the whole text. -/
theorem Sound.finish (h : d.Sound bytesOf)
    (hdec : DecodesBytes tokenizer d.skipSpecialTokens bytesOf) :
    ∃ d' last, d.finish tokenizer = some (d', .ok last)
      ∧ d.emitted ++ last = Utf8.lossy (d.tokens.flatMap bytesOf) := by
  obtain ⟨rest, hrest⟩ := h.emitted_prefix
  have hcommon := commonLen_of_prefix h.emitted_prefix
  have hsum : Text.byteLen (d.emitted ++ rest) = Text.byteLen d.emitted + Text.byteLen rest :=
    List.weight_append _ _ _
  rw [← hrest] at hcommon ⊢
  by_cases hdone : Text.byteLen (d.emitted ++ rest) ≤ Text.byteLen d.emitted
  · have hnil : rest = [] := List.eq_nil_of_weight Char.utf8Size_pos
      (show Text.byteLen rest = 0 by omega)
    refine ⟨d, [], ?_, by rw [hnil]⟩
    unfold IncrementalDecoder.finish
    simp only [hdec _, ← hrest, hcommon, if_pos hdone]
  · have hcut : Text.sliceFrom (d.emitted ++ rest) (Text.byteLen d.emitted) = some rest :=
      List.dropExact_append Char.utf8Size_pos d.emitted rest
    refine ⟨{ d with
      emitted := d.emitted ++ rest
      windowEmitted := d.windowEmitted + Text.byteLen rest }, rest, ?_, rfl⟩
    unfold IncrementalDecoder.finish
    simp only [hdec _, ← hrest, hcommon, if_neg hdone, hcut]

/-! ## A window too large for its arithmetic -/

/-- A slice that ends past the tokens is a panic. -/
theorem sliceTokens_eq_none {tokens : List TokenId} {start stop : ℕ}
    (h : tokens.length < stop) : sliceTokens tokens start stop = none :=
  if_neg (fun hand => absurd hand.2 (not_le.mpr h))

/-- **The doubled window wraps around**: once there are more tokens than what is
left of it, the new start of the window is below zero, and the slice to it
panics. -/
theorem reanchor_eq_none (hzero : d.windowStart = 0) (hlarge : 2 ^ 63 ≤ d.window)
    (hwindow : d.window < 2 ^ 64) (hlen : d.tokens.length < 2 ^ 63)
    (hmany : 2 * (d.window - 2 ^ 63) < d.tokens.length) : d.reanchor tokenizer = none := by
  have hmod : d.window * 2 % 2 ^ 64 = 2 * (d.window - 2 ^ 63) := by omega
  have hstart : (d.tokens.length + 2 ^ 64 - d.window) % 2 ^ 64
      = d.tokens.length + 2 ^ 64 - d.window := Nat.mod_eq_of_lt (by omega)
  unfold reanchor
  rw [hmod, hzero, Nat.sub_zero, if_pos hmany, hstart]
  dsimp only
  rw [sliceTokens_eq_none (by omega)]

/-- **Run lemma**: one of the pushes panics. -/
theorem pushAll_eq_none (tokens : List TokenId) :
    ∀ {d : IncrementalDecoder}, d.Sound bytesOf →
      DecodesBytes tokenizer d.skipSpecialTokens bytesOf → d.windowStart = 0 →
      2 ^ 63 ≤ d.window → d.window < 2 ^ 64 →
      d.tokens.length + tokens.length < 2 ^ 63 → d.tokens.length ≤ 2 * (d.window - 2 ^ 63) →
      2 * (d.window - 2 ^ 63) < d.tokens.length + tokens.length →
      pushAll tokenizer d tokens = none := by
  induction tokens with
  | nil =>
    intro d _ _ _ _ _ _ hfew hmany
    exact absurd hmany (not_lt.mpr hfew)
  | cons token tokens ih =>
    intro d h hdec hzero hlarge hwindow hlen hfew hmany
    rw [List.length_cons] at hlen hmany
    set d₁ : IncrementalDecoder := { d with tokens := d.tokens ++ [token] } with hd₁
    have hcount : d₁.tokens.length = d.tokens.length + 1 := List.length_append
    by_cases hpast : 2 * (d.window - 2 ^ 63) < d.tokens.length + 1
    · have hpanic : d₁.reanchor tokenizer = none :=
        reanchor_eq_none hzero hlarge hwindow (by omega) (by rw [hcount]; exact hpast)
      unfold pushAll push
      simp only [← hd₁, hpanic]
    · have hmod : d.window * 2 % 2 ^ 64 = 2 * (d.window - 2 ^ 63) := by omega
      have hstays : d₁.reanchor tokenizer = some (d₁, .ok ()) := by
        unfold reanchor
        refine if_neg ?_
        show ¬ d.window * 2 % 2 ^ 64 < d₁.tokens.length - d.windowStart
        omega
      have hlen₁ : d₁.tokens.length + tokens.length < 2 ^ 63 := by omega
      have hfew₁ : d₁.tokens.length ≤ 2 * (d.window - 2 ^ 63) := hcount ▸ not_lt.mp hpast
      have hmany₁ : 2 * (d.window - 2 ^ 63) < d₁.tokens.length + tokens.length := by omega
      obtain ⟨count, out, hemit, -, hs⟩ := (h.concat token).emit hdec
      have hrest := ih hs hdec hzero hlarge hwindow hlen₁ hfew₁ hmany₁
      unfold pushAll push
      simp only [← hd₁, hstays]
      rw [hemit]
      dsimp only
      rw [hrest]

/-- **Nothing is lost and nothing repeated**: no slice panics, the strings
returned make up the text of all the tokens, and no push returns one that ends
in a replacement character. -/
def Complete (tokenizer : Tokenizer) (skip : Bool) (window : ℕ) (tokens : List TokenId) : Prop :=
  ∃ outs last, stream tokenizer skip window tokens = some (.ok (outs, last))
    ∧ tokenizer.decode tokens skip = .ok (outs.flatten ++ last)
    ∧ ∀ out ∈ outs, Utf8.endsLost out = false

/-- **Incremental decoding loses and repeats nothing** exactly when the window
can be doubled in a `usize`, or is never outgrown: for every tokenizer that
decodes the bytes of its tokens, every window from `1` on and every list of
tokens. The decoder holds back the start of a character, and moves its window
only past text that it has shown. -/
theorem complete_iff (hdec : DecodesBytes tokenizer skip bytesOf) (hpos : 1 ≤ window)
    (hwindow : window < 2 ^ 64) {tokens : List TokenId} (hlen : tokens.length < 2 ^ 63) :
    Complete tokenizer skip window tokens
      ↔ window < 2 ^ 63 ∨ tokens.length ≤ 2 * (window - 2 ^ 63) := by
  have hs := sound_new bytesOf skip window
  have hw : ((new skip).withWindow window).window = window := max_eq_left hpos
  have hskip : ((new skip).withWindow window).skipSpecialTokens = skip := rfl
  have hnone : ((new skip).withWindow window).tokens.length = 0 := rfl
  constructor
  · rintro ⟨outs, last, hstream, -, -⟩
    by_contra hnot
    obtain ⟨hlarge, hmany⟩ := not_or.mp hnot
    have hpanic := pushAll_eq_none tokens hs hdec rfl
      (by rw [hw]; exact not_lt.mp hlarge) (by rw [hw]; exact hwindow)
      (by rw [hnone, Nat.zero_add]; exact hlen) (Nat.zero_le _)
      (by rw [hw, hnone, Nat.zero_add]; exact not_le.mp hmany)
    unfold stream at hstream
    rw [hpanic] at hstream
    exact absurd hstream (by simp)
  · intro hfits
    obtain ⟨d, outs, hall, hsound, htokens, hskip', hemitted, hends⟩ := hs.pushAll tokens
      hdec (by rw [hnone, Nat.zero_add]; exact hlen)
      (by rw [hw]; exact hwindow) (by rw [hw, hnone, Nat.zero_add]; exact hfits)
    have hdec' : DecodesBytes tokenizer d.skipSpecialTokens bytesOf := by
      rw [hskip']
      exact hdec
    obtain ⟨d', last, hfinish, hwhole⟩ := hsound.finish hdec'
    refine ⟨outs, last, ?_, ?_, hends⟩
    · unfold stream
      simp only [hall, hfinish]
    · have hfirst : d.emitted = outs.flatten := hemitted
      have hlist : d.tokens = tokens := htokens
      rw [hdec, ← hlist, ← hwhole, hfirst]

/-- A tokenizer of bytes: token `t` is the byte `t`, and `256` is special. -/
def byteTokenizer : Tokenizer where
  decode ids skip := .ok (Utf8.lossy (ids.flatMap
    (fun t => if skip && decide (256 ≤ t.toNat) then [] else [UInt8.ofNat t.toNat])))

theorem byteTokenizer_decodes (skip : Bool) : DecodesBytes byteTokenizer skip
    (fun t => if skip && decide (256 ≤ t.toNat) then [] else [UInt8.ofNat t.toNat]) :=
  fun _ => rfl

/-- A character of four bytes, with a special token inside and a window of one
token. -/
theorem complete_iff_emoji : Complete byteTokenizer true 1 [0xF0, 0x9F, 256, 0x9A, 0x80, 0x21] :=
  (complete_iff (byteTokenizer_decodes true) (by decide) (by decide) (by decide)).mpr
    (Or.inl (by decide))

/-- **A window of `2^63`** panics at the first token. -/
theorem not_complete_half : ¬ ∀ (tokenizer : Tokenizer) (skip : Bool)
    (bytesOf : TokenId → List UInt8), DecodesBytes tokenizer skip bytesOf →
    ∀ (window : ℕ) (tokens : List TokenId), 1 ≤ window → window < 2 ^ 64 →
      Complete tokenizer skip window tokens := by
  intro hall
  have hone := hall byteTokenizer true _ (byteTokenizer_decodes true) (2 ^ 63) [0x21]
    (by decide) (by decide)
  obtain ⟨outs, last, hstream, -⟩ := hone
  have hpanic : stream byteTokenizer true (2 ^ 63) [0x21] = none := by decide +kernel
  exact absurd (hpanic.symm.trans hstream) (by simp)

end IncrementalDecoder
