import Mathlib.Data.List.DropRight
import Mathlib.Tactic

/-!
# Decoding UTF-8 byte by byte

Lossy decoding as a machine: a byte either continues the sequence in progress,
within the bounds that sequence still allows, or ends it. A sequence that
cannot be continued becomes one replacement character, and so does one that is
in progress at the end.

The machine separates what a decoded prefix shows. Its output so far is
**settled**: no byte that follows changes it. At most one replacement
character at the end is not, and when there is none, the rest of the bytes is
decoded as if it stood alone.
-/

namespace Utf8

/-- What the machine has seen of the sequence in progress: how many bytes are
owed, the bounds of the next one, and the bits so far. -/
inductive State where
  | idle
  | inside (owed low high bits : ℕ)
  deriving DecidableEq

/-- `U+FFFD`. -/
def replacement : Char := Char.ofNat 0xFFFD

/-- A byte outside a sequence. The bounds of the second byte exclude overlong
forms, surrogates and what is past the last code point. -/
def start (b : UInt8) : State × List Char :=
  let n := b.toNat
  if n < 0x80 then (.idle, [Char.ofNat n])
  else if 0xC2 ≤ n ∧ n ≤ 0xDF then (.inside 1 0x80 0xBF (n - 0xC0), [])
  else if 0xE0 ≤ n ∧ n ≤ 0xEF then
    (.inside 2 (if n = 0xE0 then 0xA0 else 0x80) (if n = 0xED then 0x9F else 0xBF) (n - 0xE0), [])
  else if 0xF0 ≤ n ∧ n ≤ 0xF4 then
    (.inside 3 (if n = 0xF0 then 0x90 else 0x80) (if n = 0xF4 then 0x8F else 0xBF) (n - 0xF0), [])
  else (.idle, [replacement])

/-- One byte. -/
def step : State → UInt8 → State × List Char
  | .idle, b => start b
  | .inside owed low high bits, b =>
    if low ≤ b.toNat ∧ b.toNat ≤ high then
      if owed = 1 then (.idle, [Char.ofNat (bits * 64 + b.toNat % 64)])
      else (.inside (owed - 1) 0x80 0xBF (bits * 64 + b.toNat % 64), [])
    else ((start b).1, replacement :: (start b).2)

/-- Some bytes, in order. -/
def feed (s : State) : List UInt8 → State × List Char
  | [] => (s, [])
  | b :: bs =>
    let r := step s b
    let rest := feed r.1 bs
    (rest.1, r.2 ++ rest.2)

/-- What a sequence in progress becomes when nothing follows. -/
def State.pending : State → List Char
  | .idle => []
  | .inside .. => [replacement]

/-- The state after some bytes. -/
def after (bs : List UInt8) : State := (feed .idle bs).1

/-- **What is settled of some bytes**: the output that no further byte
changes. -/
def settled (bs : List UInt8) : List Char := (feed .idle bs).2

/-- **Lossy decoding**: every maximal invalid subpart becomes one replacement
character. -/
def lossy (bs : List UInt8) : List Char := settled bs ++ (after bs).pending

/-- Whether a text ends in a replacement character. -/
def endsLost (text : List Char) : Bool := text.getLast? = some replacement

/-- A text without the replacement characters at its end. -/
def trimLost (text : List Char) : List Char := text.rdropWhile (· = replacement)

/-! ## Decoding in two parts -/

theorem feed_append (x y : List UInt8) (s : State) : feed s (x ++ y)
    = ((feed (feed s x).1 y).1, (feed s x).2 ++ (feed (feed s x).1 y).2) := by
  induction x generalizing s with
  | nil => rfl
  | cons b x ih =>
    rw [List.cons_append, feed, ih]
    show _ = _
    simp only [feed, List.append_assoc]

/-- What is settled stays. -/
theorem settled_prefix (x y : List UInt8) : settled x <+: settled (x ++ y) := by
  unfold settled
  rw [feed_append]
  exact List.prefix_append _ _

/-- **After a complete beginning** the rest settles on its own. -/
theorem settled_append {x : List UInt8} (hx : after x = .idle) (y : List UInt8) :
    settled (x ++ y) = settled x ++ settled y := by
  unfold after at hx
  unfold settled
  rw [feed_append, hx]

theorem after_append {x : List UInt8} (hx : after x = .idle) (y : List UInt8) :
    after (x ++ y) = after y := by
  unfold after at hx ⊢
  rw [feed_append, hx]

/-- And is decoded on its own. -/
theorem lossy_append {x : List UInt8} (hx : after x = .idle) (y : List UInt8) :
    lossy (x ++ y) = settled x ++ lossy y := by
  unfold lossy
  rw [settled_append hx, after_append hx, List.append_assoc]

theorem lossy_of_idle {x : List UInt8} (hx : after x = .idle) : lossy x = settled x := by
  unfold lossy
  rw [hx, State.pending, List.append_nil]

/-- **A beginning whose decoding does not end in a replacement character** is
complete. -/
theorem after_eq_idle {x : List UInt8} (hx : endsLost (lossy x) = false) :
    after x = .idle := by
  unfold lossy at hx
  cases h : after x with
  | idle => rfl
  | inside owed low high bits =>
    rw [h] at hx
    have hlast : (settled x ++ State.pending (.inside owed low high bits)).getLast?
        = some replacement := List.getLast?_concat
    unfold endsLost at hx
    rw [hlast] at hx
    exact absurd hx (by simp)

/-! ## The end that may still change -/

theorem endsLost_trimLost (text : List Char) : endsLost (trimLost text) = false := by
  unfold endsLost
  rw [decide_eq_false_iff_not]
  intro hlast
  have hne : trimLost text ≠ [] := by
    intro hnil
    rw [hnil] at hlast
    exact absurd hlast (by simp)
  have hnot := List.rdropWhile_last_not (· = replacement) text hne
  rw [List.getLast?_eq_some_getLast hne] at hlast
  exact hnot (decide_eq_true (Option.some.inj hlast))

theorem trimLost_prefix (text : List Char) : trimLost text <+: text :=
  List.rdropWhile_prefix _ text

/-- A text that does not end in a replacement character is not trimmed. -/
theorem trimLost_of_not {text : List Char} (h : endsLost text = false) :
    trimLost text = text := by
  refine List.rdropWhile_eq_self_iff.mpr (fun hne hlast => ?_)
  unfold endsLost at h
  rw [decide_eq_false_iff_not] at h
  exact h (by rw [List.getLast?_eq_some_getLast hne]; simpa using hlast)

/-- What does not end in a replacement character is not trimmed, whatever is
behind it. -/
theorem trimLost_append {a b : List Char} (h : endsLost a = false) :
    trimLost (a ++ b) = a ++ trimLost b := by
  induction b using List.reverseRecOn with
  | nil =>
    rw [List.append_nil, trimLost_of_not h]
    exact (List.append_nil a).symm
  | append_singleton b c ih =>
    unfold trimLost at ih ⊢
    rw [← List.append_assoc, List.rdropWhile_concat, List.rdropWhile_concat]
    split
    · exact ih
    · exact List.append_assoc a b [c]

/-- **Without the replacement characters at its end** what follows a settled
part is settled. -/
theorem trimLost_settled {x : List UInt8} {head rest : List Char}
    (hhead : head <+: settled x) (h : lossy x = head ++ rest) :
    head ++ trimLost rest <+: settled x := by
  obtain ⟨more, hmore⟩ := hhead
  unfold lossy at h
  rw [← hmore, List.append_assoc] at h
  obtain rfl := List.append_cancel_left h
  rw [← hmore]
  refine (List.prefix_append_right_inj head).mpr ?_
  cases after x with
  | idle =>
    rw [State.pending, List.append_nil]
    exact trimLost_prefix more
  | inside owed low high bits =>
    have htrim : trimLost (more ++ [replacement]) = trimLost more :=
      List.rdropWhile_concat_pos _ _ _ (by simp)
    rw [State.pending, htrim]
    exact trimLost_prefix more

end Utf8
