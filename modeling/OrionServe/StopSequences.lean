import OrionServe.Lib.Search

/-!
# Stop strings

The matcher gets the text of a generation piece by piece and says when a stop
string has appeared in it. It keeps a bounded tail of what it has seen, cut on
a character boundary; that is always enough, so a push answers exactly when
the whole text contains a stop string.

A text is the list of its characters. Lengths are in bytes, as in the source;
a position is a number of characters, since no byte position is looked at but
to slice there. Where the source slices at a byte, which panics inside a
character, `Text.sliceFrom` is `none` there.
-/

/-- A string of the source, character by character. -/
abbrev Text := List Char

/-- `str::len`: the length in bytes. -/
def Text.byteLen (text : Text) : ℕ := List.weight Char.utf8Size text

/-- `&text[i..]`: the text from a byte on; a panic, `none` here, inside a
character or past the end. -/
def Text.sliceFrom (text : Text) (i : ℕ) : Option Text := List.dropExact Char.utf8Size i text

/-- `str::is_char_boundary`: whether a character starts at this byte, or the
text ends there. -/
def Text.isCharBoundary (text : Text) (i : ℕ) : Bool := (text.sliceFrom i).isSome

/-- Tracks whether any caller-supplied stop string has appeared in the
output. -/
structure StopSequenceMatcher where
  sequences : List Text
  /-- Longest stop string, bounding how much tail text must be retained. -/
  maxLen : ℕ
  buffer : Text
  deriving DecidableEq

namespace StopSequenceMatcher

def new (sequences : List Text) : StopSequenceMatcher where
  sequences := sequences
  maxLen := ((sequences.map Text.byteLen).max?).getD 0
  buffer := []

def isEmpty (m : StopSequenceMatcher) : Bool := m.sequences.isEmpty

/-- The tail of the buffer that is kept: from the last character boundary
before its last `maxLen` bytes, when it has grown to twice that. -/
def retained (maxLen : ℕ) (buffer : Text) : Text :=
  if maxLen * 2 < Text.byteLen buffer then
    List.dropWeight Char.utf8Size (Text.byteLen buffer - maxLen) buffer
  else buffer

/-- Feeds new text; returns the stop string that matched, if any. -/
def push (m : StopSequenceMatcher) (text : Text) : StopSequenceMatcher × Option Text :=
  if m.sequences.isEmpty || text.isEmpty then (m, none)
  else
    let buffer := m.buffer ++ text
    let found := m.sequences.find? (fun s => s <:+: buffer)
    ({ m with buffer := retained m.maxLen buffer }, found)

/-- The trimming of the buffer as the source does it, byte by byte from where
the longest stop string would start. -/
def trimmed (maxLen : ℕ) (buffer : Text) : Option Text :=
  if maxLen * 2 < Text.byteLen buffer then
    let keepFrom := Text.byteLen buffer - maxLen
    let boundary :=
      ((List.range (keepFrom + 1)).reverse.find? (Text.isCharBoundary buffer)).getD 0
    Text.sliceFrom buffer boundary
  else some buffer

/-- A push with this trimming, `none` when it panics. -/
def pushTrimmed (m : StopSequenceMatcher) (text : Text) :
    Option (StopSequenceMatcher × Option Text) :=
  if m.sequences.isEmpty || text.isEmpty then some (m, none)
  else
    let buffer := m.buffer ++ text
    let found := m.sequences.find? (fun s => s <:+: buffer)
    (trimmed m.maxLen buffer).map (fun buffer => ({ m with buffer := buffer }, found))

/-- The matcher after these pieces. -/
def after (m : StopSequenceMatcher) (pieces : List Text) : StopSequenceMatcher :=
  pieces.foldl (fun m piece => (m.push piece).1) m

/-- None of these pieces is answered with a match. -/
def Quiet : StopSequenceMatcher → List Text → Prop
  | _, [] => True
  | m, piece :: pieces => (m.push piece).2 = none ∧ Quiet (m.push piece).1 pieces

/-- Truncates text at the first stop string, which should not be shown to the
caller. -/
def truncateAtStop (m : StopSequenceMatcher) (text : Text) : Text :=
  text.take (m.sequences.foldl
    (fun cut s => match List.firstMatch s text with
      | some pos => min cut pos
      | none => cut) text.length)

end StopSequenceMatcher

/-- Some stop string occurs in the text. -/
def Stops (stops : List Text) (text : Text) : Prop := ∃ s ∈ stops, s <:+: text

instance (stops : List Text) (text : Text) : Decidable (Stops stops text) :=
  inferInstanceAs (Decidable (∃ s ∈ stops, s <:+: text))

/-- Some stop string starts within the first `n` characters. -/
def StartsWithin (stops : List Text) (text : Text) (n : ℕ) : Prop :=
  ∃ s ∈ stops, ∃ i < n, s <+: text.drop i

instance (stops : List Text) (text : Text) (n : ℕ) : Decidable (StartsWithin stops text n) :=
  inferInstanceAs (Decidable (∃ s ∈ stops, ∃ i < n, s <+: text.drop i))

namespace StopSequenceMatcher

variable {m : StopSequenceMatcher} {seen piece text : Text}

/-- **What is retained** is a tail of the buffer, all of it or as long as the
longest stop string. -/
theorem retained_spec (maxLen : ℕ) (buffer : Text) :
    retained maxLen buffer <:+ buffer
      ∧ (maxLen ≤ Text.byteLen (retained maxLen buffer) ∨ retained maxLen buffer = buffer) := by
  unfold retained
  split
  · next hlong =>
    refine ⟨List.dropWeight_suffix _ _ _, Or.inl ?_⟩
    have hkept := List.weight_le_dropWeight Char.utf8Size (Text.byteLen buffer - maxLen) buffer
    change Text.byteLen buffer ≤ _ at hkept
    show maxLen ≤ List.weight _ _
    omega
  · exact ⟨List.suffix_rfl, Or.inr rfl⟩

/-- **A matcher that has seen this text.** -/
structure Follows (m : StopSequenceMatcher) (seen : Text) : Prop where
  bound : ∀ s ∈ m.sequences, Text.byteLen s ≤ m.maxLen
  suffix : m.buffer <:+ seen
  enough : m.maxLen ≤ Text.byteLen m.buffer ∨ m.buffer = seen
  idle : m.sequences = [] → m.maxLen = 0 ∧ m.buffer = []

theorem follows_new (sequences : List Text) : (new sequences).Follows [] where
  bound s hs := by
    have hmem : Text.byteLen s ∈ sequences.map Text.byteLen := List.mem_map_of_mem hs
    show Text.byteLen s ≤ ((sequences.map Text.byteLen).max?).getD 0
    rcases hmax : (sequences.map Text.byteLen).max? with - | k
    · rw [List.max?_eq_none_iff] at hmax
      rw [hmax] at hmem
      exact absurd hmem List.not_mem_nil
    · exact (List.max?_eq_some_iff.mp hmax).2 _ hmem
  suffix := List.suffix_rfl
  enough := Or.inr rfl
  idle hnone := by
    obtain rfl : sequences = [] := hnone
    exact ⟨rfl, rfl⟩

/-- In a buffer a stop string is found when it is in the whole text. -/
theorem Follows.infix_iff (h : m.Follows seen) (hbefore : ¬ Stops m.sequences seen) {s : Text}
    (hs : s ∈ m.sequences) : s <:+: m.buffer ++ piece ↔ s <:+: seen ++ piece := by
  constructor
  · intro hin
    obtain ⟨d, hd⟩ := h.suffix
    rw [← hd, List.append_assoc]
    exact hin.trans (List.suffix_append d _).isInfix
  · refine List.infix_of_kept Char.utf8Size_pos h.suffix ?_ (fun hin => hbefore ⟨s, hs, hin⟩)
    exact h.enough.imp (fun hlen => (h.bound s hs).trans hlen) id

/-- **A push** goes on to follow the text, and answers with the first stop
string of the list that the text now contains. -/
theorem Follows.push (h : m.Follows seen) (hbefore : ¬ Stops m.sequences seen) (piece : Text) :
    (m.push piece).1.sequences = m.sequences
    ∧ (m.push piece).1.Follows (seen ++ piece)
    ∧ (m.push piece).2 = m.sequences.find? (fun s => s <:+: seen ++ piece) := by
  have hfind : (m.sequences.find? fun s => s <:+: m.buffer ++ piece)
      = m.sequences.find? fun s => s <:+: seen ++ piece :=
    List.find?_congr (fun s hs => decide_eq_decide.mpr (h.infix_iff hbefore hs))
  unfold StopSequenceMatcher.push
  split
  · next hidle =>
    have hnone : (m.sequences.find? fun s => s <:+: seen ++ piece) = none := by
      refine List.find?_eq_none.mpr (fun s hs => ?_)
      rcases Bool.or_eq_true_iff.mp hidle with hno | hno
      · rw [List.isEmpty_iff.mp hno] at hs
        exact absurd hs List.not_mem_nil
      · rw [List.isEmpty_iff.mp hno, List.append_nil, decide_eq_true_iff]
        exact fun hin => hbefore ⟨s, hs, hin⟩
    refine ⟨rfl, ?_, hnone.symm⟩
    rcases Bool.or_eq_true_iff.mp hidle with hno | hno
    · obtain ⟨hzero, hempty⟩ := h.idle (List.isEmpty_iff.mp hno)
      exact ⟨h.bound, hempty ▸ List.nil_suffix, Or.inl (hzero ▸ Nat.zero_le _), h.idle⟩
    · rw [List.isEmpty_iff.mp hno, List.append_nil]
      exact h
  · next hbusy =>
    obtain ⟨hsuffix, henough⟩ := retained_spec m.maxLen (m.buffer ++ piece)
    refine ⟨rfl, ⟨h.bound, hsuffix.trans ?_, ?_, fun hnone => ?_⟩, hfind⟩
    · obtain ⟨d, hd⟩ := h.suffix
      rw [← hd, List.append_assoc]
      exact List.suffix_append d _
    · rcases henough with hlong | hall
      · exact Or.inl hlong
      · show m.maxLen ≤ Text.byteLen (retained m.maxLen (m.buffer ++ piece))
          ∨ retained m.maxLen (m.buffer ++ piece) = seen ++ piece
        rw [hall]
        refine h.enough.imp (fun hlen => hlen.trans ?_) (fun hsame => by rw [hsame])
        unfold Text.byteLen
        rw [List.weight_append]
        exact Nat.le_add_right _ _
    · rw [show m.sequences = [] from hnone] at hbusy
      exact absurd rfl hbusy

/-- **The trimming does not panic**, and keeps what `retained` says. -/
theorem trimmed_eq (maxLen : ℕ) (buffer : Text) :
    trimmed maxLen buffer = some (retained maxLen buffer) := by
  unfold trimmed retained
  split
  swap
  · rfl
  obtain ⟨d, hd, hle, hmax⟩ :=
    @List.dropWeight_spec Char Char.utf8Size (Text.byteLen buffer - maxLen) buffer
  have hcut : buffer.sliceFrom (List.weight Char.utf8Size d)
      = some (List.dropWeight Char.utf8Size (Text.byteLen buffer - maxLen) buffer) := by
    have hslice := List.dropExact_append Char.utf8Size_pos d
      (List.dropWeight Char.utf8Size (Text.byteLen buffer - maxLen) buffer)
    rw [← hd] at hslice
    exact hslice
  have hlast : (List.range (Text.byteLen buffer - maxLen + 1)).reverse.find?
      (Text.isCharBoundary buffer) = some (List.weight Char.utf8Size d) :=
    List.find?_reverse_range (by unfold Text.isCharBoundary; rw [hcut]; rfl) hle hmax
  dsimp only
  rw [hlast]
  exact hcut

/-- No push panics. -/
theorem pushTrimmed_eq (m : StopSequenceMatcher) (text : Text) :
    m.pushTrimmed text = some (m.push text) := by
  unfold pushTrimmed push
  split
  · rfl
  · dsimp only
    rw [trimmed_eq]
    rfl

/-! ## A text in pieces -/

/-- A matcher keeps following a text none of whose pieces has matched. -/
theorem Follows.after (h : m.Follows seen) (hbefore : ¬ Stops m.sequences seen)
    {pieces : List Text} (hquiet : m.Quiet pieces) :
    (m.after pieces).sequences = m.sequences
      ∧ (m.after pieces).Follows (seen ++ pieces.flatten)
      ∧ ¬ Stops m.sequences (seen ++ pieces.flatten) := by
  induction pieces generalizing m seen with
  | nil =>
    rw [List.flatten_nil, List.append_nil]
    exact ⟨rfl, h, hbefore⟩
  | cons piece pieces ih =>
    obtain ⟨hseqs, hfollows, hfound⟩ := h.push hbefore piece
    have hstill : ¬ Stops (m.push piece).1.sequences (seen ++ piece) := by
      rw [hseqs]
      rintro ⟨s, hs, hin⟩
      rw [hquiet.1] at hfound
      exact List.find?_eq_none.mp hfound.symm s hs (decide_eq_true hin)
    have hrest := ih hfollows hstill hquiet.2
    rw [hseqs, List.append_assoc] at hrest
    exact hrest

/-- **Detection does not depend on chunking**: as long as no push has matched,
the next one answers with the first stop string of the list that the text so
far contains, when it contains one. What is retained is a tail of that text,
and the trimming that leaves it does not panic. It is all of the text or no
shorter than the longest stop string, so one that is not complete yet is never
cut. -/
theorem push_after (stops : List Text) (hne : ∀ s ∈ stops, s ≠ []) (pieces : List Text)
    (hquiet : (new stops).Quiet pieces) (piece : Text) :
    let m := (new stops).after pieces
    let text := pieces.flatten ++ piece
    ((m.push piece).2.isSome ↔ Stops stops text)
      ∧ (m.push piece).2 = stops.find? (fun s => s <:+: text)
      ∧ (m.push piece).1.buffer <:+ text
      ∧ m.pushTrimmed piece = some (m.push piece) := by
  have hbefore : ¬ Stops stops [] := by
    rintro ⟨s, hs, hin⟩
    exact hne s hs (List.infix_nil.mp hin)
  obtain ⟨hseqs, hfollows, hquiet⟩ := (follows_new stops).after hbefore hquiet
  rw [List.nil_append] at hfollows hquiet
  obtain ⟨-, hnext, hfound⟩ := hfollows.push (hseqs ▸ hquiet) piece
  rw [hseqs] at hfound
  refine ⟨?_, hfound, hnext.suffix, pushTrimmed_eq _ _⟩
  rw [hfound, List.find?_isSome]
  exact ⟨fun ⟨s, hs, hin⟩ => ⟨s, hs, of_decide_eq_true hin⟩,
    fun ⟨s, hs, hin⟩ => ⟨s, hs, decide_eq_true hin⟩⟩

/-- A stop string split over two pieces, the second of which has more. -/
theorem push_after_split :
    let m := (new ["END".toList, "é".toList]).after ["one E".toList]
    let text := ["one E".toList].flatten ++ "ND two".toList
    ((m.push "ND two".toList).2.isSome ↔ Stops ["END".toList, "é".toList] text)
      ∧ (m.push "ND two".toList).2 = ["END".toList, "é".toList].find? (fun s => s <:+: text)
      ∧ (m.push "ND two".toList).1.buffer <:+ text
      ∧ m.pushTrimmed "ND two".toList = some (m.push "ND two".toList) :=
  push_after ["END".toList, "é".toList] (by decide) ["one E".toList]
    ⟨by decide, trivial⟩ "ND two".toList

/-! ## Truncation -/

/-- The cut is the least of the places where stop strings start. -/
theorem truncateAtStop_eq (m : StopSequenceMatcher) (text : Text) :
    m.truncateAtStop text = text.take
      ((m.sequences.filterMap (List.firstMatch · text)).foldl min text.length) := by
  have hfold : ∀ (sequences : List Text) (cut : ℕ),
      sequences.foldl (fun cut s => match List.firstMatch s text with
        | some pos => min cut pos
        | none => cut) cut
        = (sequences.filterMap (List.firstMatch · text)).foldl min cut := by
    intro sequences
    induction sequences with
    | nil => exact fun cut => rfl
    | cons s sequences ih =>
      intro cut
      rw [List.foldl_cons, List.filterMap_cons]
      rcases hfirst : List.firstMatch s text with - | pos
      · exact ih cut
      · exact ih (min cut pos)
  unfold truncateAtStop
  rw [hfold]

/-- The least of a list is at most each of its members. -/
theorem foldl_min_le {l : List ℕ} {k n : ℕ} (h : n ∈ l) : l.foldl min k ≤ n := by
  have hbound : ∀ (l : List ℕ) (k : ℕ), l.foldl min k ≤ k := by
    intro l
    induction l with
    | nil => exact fun k => le_rfl
    | cons a l ih => exact fun k => (ih (min k a)).trans (min_le_left k a)
  induction l generalizing k with
  | nil => exact absurd h List.not_mem_nil
  | cons a l ih =>
    rcases List.mem_cons.mp h with rfl | h
    · exact (hbound l (min k n)).trans (min_le_right k n)
    · exact ih h

/-- **Truncating a text in two parts** is truncating the second, exactly when
no stop string starts in the first. -/
theorem truncateAtStop_append_iff (m : StopSequenceMatcher) (sent piece : Text) :
    m.truncateAtStop (sent ++ piece) = sent ++ m.truncateAtStop piece
      ↔ ¬ StartsWithin m.sequences (sent ++ piece) sent.length := by
  constructor
  · rintro heq ⟨s, hs, i, hi, hpre⟩
    obtain ⟨j, hj, hfirst⟩ := List.firstMatch_le hpre
      (hi.le.trans (by rw [List.length_append]; exact Nat.le_add_right _ _))
    have hcut : ((m.sequences.filterMap (List.firstMatch · (sent ++ piece))).foldl min
        (sent ++ piece).length) ≤ j :=
      foldl_min_le (List.mem_filterMap.mpr ⟨s, hs, hfirst⟩)
    have hshort : (m.truncateAtStop (sent ++ piece)).length ≤ j := by
      rw [truncateAtStop_eq, List.length_take]
      exact (min_le_left _ _).trans hcut
    have hlong : (sent ++ m.truncateAtStop piece).length
        = sent.length + (m.truncateAtStop piece).length := List.length_append
    rw [heq, hlong] at hshort
    omega
  · intro hno
    have hfirst : m.sequences.filterMap (List.firstMatch · (sent ++ piece))
        = (m.sequences.filterMap (List.firstMatch · piece)).map (sent.length + ·) := by
      rw [List.map_filterMap]
      refine List.filterMap_congr (fun s hs => ?_)
      exact List.firstMatch_append (fun i hi hpre => hno ⟨s, hs, i, hi, hpre⟩)
    have hshift : ∀ (l : List ℕ) (k : ℕ),
        (l.map (sent.length + ·)).foldl min (sent.length + k) = sent.length + l.foldl min k := by
      intro l
      induction l with
      | nil => exact fun k => rfl
      | cons a l ih =>
        intro k
        rw [List.map_cons, List.foldl_cons, List.foldl_cons, Nat.add_min_add_left, ih]
    rw [truncateAtStop_eq, truncateAtStop_eq, hfirst, List.length_append, hshift,
      List.take_length_add_append]

/-- A text with no stop string is shown whole, and no other is. -/
theorem truncateAtStop_eq_self_iff (m : StopSequenceMatcher) (hne : ∀ s ∈ m.sequences, s ≠ [])
    (text : Text) : m.truncateAtStop text = text ↔ ¬ Stops m.sequences text := by
  have hnil : m.truncateAtStop [] = [] := List.take_nil
  have happend := m.truncateAtStop_append_iff text []
  rw [hnil, List.append_nil] at happend
  rw [happend]
  refine not_congr ⟨?_, ?_⟩
  · rintro ⟨s, hs, i, -, hpre⟩
    exact ⟨s, hs, hpre.isInfix.trans (List.drop_suffix i text).isInfix⟩
  · rintro ⟨s, hs, hin⟩
    obtain ⟨i, hi, hpre⟩ := List.infix_iff_prefix_drop.mp hin
    refine ⟨s, hs, i, hi.lt_of_ne ?_, hpre⟩
    -- nothing is left at the end
    rintro rfl
    rw [List.drop_length] at hpre
    exact hne s hs (List.prefix_nil.mp hpre)

/-- **What is shown has no stop string.** -/
theorem not_stops_truncateAtStop (m : StopSequenceMatcher)
    (hne : ∀ s ∈ m.sequences, s ≠ []) (text : Text) :
    ¬ Stops m.sequences (m.truncateAtStop text) := by
  rintro ⟨s, hs, hin⟩
  obtain ⟨i, -, hpre⟩ := List.infix_iff_prefix_drop.mp hin
  rw [truncateAtStop_eq, List.drop_take] at hpre
  have hlong : 0 < s.length := List.length_pos_of_ne_nil (hne s hs)
  have hshort := hpre.length_le
  rw [List.length_take] at hshort
  have hi : i < text.length := by
    rw [List.length_drop] at hshort
    omega
  obtain ⟨j, hj, hfirst⟩ := List.firstMatch_le (hpre.trans (List.take_prefix _ _)) hi.le
  have hcut : (m.sequences.filterMap (List.firstMatch · text)).foldl min text.length ≤ j :=
    foldl_min_le (List.mem_filterMap.mpr ⟨s, hs, hfirst⟩)
  omega

end StopSequenceMatcher
