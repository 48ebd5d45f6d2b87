import Mathlib.Tactic

/-!
# Searching a text that grows

A pattern that does not occur in a text occurs in a longer one only across the
seam, and so it is enough to keep as much of the text as the pattern is long.
How long is said by a size of every letter, which is not zero: a letter may be
several bytes.

The first place where a pattern occurs is found from the left. When the text
grows and nothing occurs across the seam, it is the first place in what was
added.
-/

namespace List

variable {α : Type*} [DecidableEq α] {s l l' t d : List α} {i : ℕ}

/-! ## The first occurrence -/

/-- Where a pattern occurs first. -/
def firstMatch (s : List α) : List α → Option ℕ
  | [] => if s = [] then some 0 else none
  | a :: l => if s <+: a :: l then some 0 else (firstMatch s l).map (· + 1)

/-- A pattern that occurs is found, there or before. -/
theorem firstMatch_le (h : s <+: l.drop i) (hi : i ≤ l.length) :
    ∃ j ≤ i, firstMatch s l = some j := by
  induction l generalizing i with
  | nil =>
    obtain rfl : i = 0 := Nat.le_zero.mp hi
    exact ⟨0, le_rfl, if_pos (List.prefix_nil.mp h)⟩
  | cons a l ih =>
    unfold firstMatch
    split
    · exact ⟨0, Nat.zero_le _, rfl⟩
    · next hno =>
      rcases i with - | i
      · exact absurd h hno
      · obtain ⟨j, hj, hfirst⟩ := ih h (Nat.le_of_succ_le_succ hi)
        exact ⟨j + 1, Nat.succ_le_succ hj, by rw [hfirst]; rfl⟩

omit [DecidableEq α] in
/-- A pattern occurs when it starts somewhere. -/
theorem infix_iff_prefix_drop : s <:+: l ↔ ∃ i ≤ l.length, s <+: l.drop i := by
  constructor
  · rintro ⟨u, v, rfl⟩
    refine ⟨u.length, ?_, ?_⟩
    · rw [List.append_assoc, List.length_append]
      exact Nat.le_add_right _ _
    · rw [List.append_assoc, List.drop_left]
      exact List.prefix_append s v
  · rintro ⟨i, -, hpre⟩
    exact hpre.isInfix.trans (List.drop_suffix i l).isInfix

/-- **Nothing across the seam**: the first occurrence is the first one in what
was added. -/
theorem firstMatch_append (h : ∀ i < l.length, ¬ s <+: (l ++ l').drop i) :
    firstMatch s (l ++ l') = (firstMatch s l').map (l.length + ·) := by
  induction l with
  | nil =>
    show firstMatch s l' = _
    rcases firstMatch s l' with - | i
    · rfl
    · exact congrArg some (Nat.zero_add i).symm
  | cons a l ih =>
    have hhead : ¬ s <+: a :: (l ++ l') := h 0 (Nat.succ_pos _)
    have hrest := ih (fun i hi => h (i + 1) (Nat.succ_lt_succ hi))
    show (if s <+: a :: (l ++ l') then some 0 else (firstMatch s (l ++ l')).map (· + 1)) = _
    rw [if_neg hhead, hrest, Option.map_map]
    congr 1
    funext i
    show l.length + i + 1 = l.length + 1 + i
    omega

/-! ## Keeping enough -/

section Sizes

variable (size : α → ℕ)

/-- The size of a text. -/
def weight (l : List α) : ℕ := (l.map size).sum

/-- A text without its first letters, as many as fit `k`. -/
def dropWeight (k : ℕ) : List α → List α
  | [] => []
  | a :: l => if size a ≤ k then dropWeight (k - size a) l else a :: l

omit [DecidableEq α] in
@[simp] theorem weight_append (l l' : List α) :
    (l ++ l').weight size = l.weight size + l'.weight size := by
  unfold weight
  rw [List.map_append, List.sum_append]

omit [DecidableEq α] in
theorem dropWeight_suffix (k : ℕ) (l : List α) : l.dropWeight size k <:+ l := by
  induction l generalizing k with
  | nil => exact List.suffix_rfl
  | cons a l ih =>
    unfold dropWeight
    split
    · exact (ih _).trans (List.suffix_cons a l)
    · exact List.suffix_rfl

omit [DecidableEq α] in
/-- No more than `k` is taken away. -/
theorem weight_le_dropWeight (k : ℕ) (l : List α) :
    l.weight size ≤ k + (l.dropWeight size k).weight size := by
  induction l generalizing k with
  | nil => exact Nat.zero_le _
  | cons a l ih =>
    unfold dropWeight
    split
    · next hle =>
      have hrest := ih (k - size a)
      show size a + l.weight size ≤ _
      omega
    · exact Nat.le_add_left _ _

variable {size}

omit [DecidableEq α] in
theorem eq_nil_of_weight (hsize : ∀ a, 0 < size a) (h : l.weight size = 0) : l = [] := by
  rcases l with - | ⟨a, l⟩
  · rfl
  · have hsum : size a + l.weight size = 0 := h
    have hpos := hsize a
    omega

omit [DecidableEq α] in
/-- **A pattern that occurs across the seam** occurs in as much of the text as
it is long, with what was added. -/
theorem infix_of_kept (hsize : ∀ a, 0 < size a) (hkept : t <:+ l)
    (henough : s.weight size ≤ t.weight size ∨ t = l)
    (hbefore : ¬ s <:+: l) (h : s <:+: l ++ l') : s <:+: t ++ l' := by
  rcases henough with henough | rfl
  swap
  · exact h
  obtain ⟨d, rfl⟩ := hkept
  obtain ⟨u, v, huv⟩ := h
  rw [List.append_assoc, List.append_assoc] at huv
  rcases List.append_eq_append_iff.mp huv with ⟨z, rfl, hz⟩ | ⟨z, rfl, hz⟩
  · -- the pattern starts in what was dropped
    rw [← List.append_assoc] at hz
    rcases List.append_eq_append_iff.mp hz with ⟨w, hw, -⟩ | ⟨w, rfl, hw⟩
    · refine absurd ?_ hbefore
      rw [List.append_assoc, hw]
      exact ⟨u, w, by rw [List.append_assoc]⟩
    · simp only [weight_append] at henough
      obtain rfl : z = [] := eq_nil_of_weight hsize (by omega)
      exact ⟨[], v, by rw [hw]; simp⟩
  · exact ⟨z, v, by rw [hz, List.append_assoc]⟩

/-! ## Cutting between letters -/

variable (size) in
/-- A text without a beginning of this very size; `none` when no letter ends
there. -/
def dropExact (k : ℕ) : List α → Option (List α)
  | [] => if k = 0 then some [] else none
  | a :: l =>
    if k = 0 then some (a :: l)
    else if size a ≤ k then dropExact (k - size a) l
    else none

omit [DecidableEq α] in
/-- **A cut between letters** leaves what comes after a beginning of that
size. -/
theorem dropExact_append (hsize : ∀ a, 0 < size a) (d l : List α) :
    (d ++ l).dropExact size (d.weight size) = some l := by
  induction d with
  | nil => cases l <;> rfl
  | cons a d ih =>
    have hw : (a :: d).weight size = size a + d.weight size := rfl
    have hpos := hsize a
    rw [hw, List.cons_append, dropExact, if_neg (by omega), if_pos (Nat.le_add_right _ _),
      Nat.add_sub_cancel_left]
    exact ih

omit [DecidableEq α] in
/-- And every cut is one. -/
theorem append_of_dropExact {k : ℕ} {r : List α} (h : l.dropExact size k = some r) :
    ∃ d, l = d ++ r ∧ d.weight size = k := by
  induction l generalizing k with
  | nil =>
    unfold dropExact at h
    split at h
    · next hk => exact ⟨[], Option.some.inj h, hk.symm⟩
    · exact absurd h (by simp)
  | cons a l ih =>
    unfold dropExact at h
    split at h
    · next hk => exact ⟨[], Option.some.inj h, hk.symm⟩
    · split at h
      · next hle =>
        obtain ⟨d, rfl, hd⟩ := ih h
        refine ⟨a :: d, rfl, ?_⟩
        show size a + d.weight size = k
        omega
      · exact absurd h (by simp)

omit [DecidableEq α] in
/-- What `dropWeight` takes away is the longest beginning that fits and ends
between letters. -/
theorem dropWeight_spec (k : ℕ) (l : List α) :
    ∃ d, l = d ++ l.dropWeight size k ∧ d.weight size ≤ k
      ∧ ∀ i ≤ k, (l.dropExact size i).isSome → i ≤ d.weight size := by
  induction l generalizing k with
  | nil =>
    refine ⟨[], rfl, Nat.zero_le k, fun i _ hi => ?_⟩
    obtain ⟨r, hr⟩ := Option.isSome_iff_exists.mp hi
    obtain ⟨d, hd, rfl⟩ := append_of_dropExact hr
    rw [(List.nil_eq_append_iff.mp hd).1]
  | cons a l ih =>
    unfold dropWeight
    split
    · next hfits =>
      obtain ⟨d, hd, hle, hmax⟩ := ih (k - size a)
      refine ⟨a :: d, congrArg (a :: ·) hd, ?_, fun i hi hcut => ?_⟩
      · show size a + d.weight size ≤ k
        omega
      · show i ≤ size a + d.weight size
        unfold dropExact at hcut
        split at hcut
        · omega
        · split at hcut
          · have hrest := hmax (i - size a) (by omega) hcut
            omega
          · exact absurd hcut (by simp)
    · next hbig =>
      refine ⟨[], rfl, Nat.zero_le k, fun i hi hcut => ?_⟩
      unfold dropExact at hcut
      split at hcut
      · next hzero => exact hzero.le
      · split at hcut
        · omega
        · exact absurd hcut (by simp)

end Sizes

/-- Counting down from `k`, the first that passes is the last that does. -/
theorem find?_reverse_range {p : ℕ → Bool} {j k : ℕ} (hj : p j = true) (hle : j ≤ k)
    (hmax : ∀ i ≤ k, p i = true → i ≤ j) :
    (List.range (k + 1)).reverse.find? p = some j := by
  induction k with
  | zero =>
    obtain rfl : j = 0 := Nat.le_zero.mp hle
    exact List.find?_cons_of_pos hj
  | succ k ih =>
    rw [List.range_succ, List.reverse_append, List.reverse_singleton, List.singleton_append]
    rcases hp : p (k + 1) with - | -
    · rw [List.find?_cons_of_neg (by rw [hp]; simp)]
      have hne : j ≠ k + 1 := fun heq => absurd (heq ▸ hj) (by rw [hp]; simp)
      exact ih (by omega) (fun i hi => hmax i (Nat.le_succ_of_le hi))
    · rw [List.find?_cons_of_pos hp, le_antisymm hle (hmax (k + 1) le_rfl hp)]

end List
