import Mathlib.Tactic

/-!
# Where a running sum crosses a threshold

A loop that adds up weights and stops at the first partial sum that satisfies
a test. It stops at index `i` exactly when the sum up to and including `i` is
the first to pass; and it comes to the end when no partial sum does.

Two tests are used: that the sum has reached a mass `p`, which finds the
shortest prefix of that mass, and that it exceeds a number `r`, which is how
an index is drawn from a distribution. A number below the total always draws
an index, every index of positive weight is drawn by some number, and no other
one is.
-/

namespace List

variable {K : Type*} [Field K] [LinearOrder K] [IsStrictOrderedRing K]

/-- **The first index at which the running sum passes a test**, starting from
`acc`. -/
def firstCross (stop : K → Bool) : K → List K → Option ℕ
  | _, [] => none
  | acc, x :: xs => if stop (acc + x) then some 0 else (firstCross stop (acc + x) xs).map (· + 1)

variable {stop : K → Bool} {acc : K} {l : List K} {i : ℕ}

omit [LinearOrder K] [IsStrictOrderedRing K] in
theorem firstCross_eq_some_iff : l.firstCross stop acc = some i
    ↔ i < l.length ∧ stop (acc + (l.take (i + 1)).sum)
      ∧ ∀ j < i, ¬ stop (acc + (l.take (j + 1)).sum) := by
  induction l generalizing acc i with
  | nil => simp [firstCross]
  | cons x xs ih =>
    rw [firstCross]
    by_cases hx : stop (acc + x) = true
    · rw [if_pos hx, Option.some.injEq]
      constructor
      · rintro rfl
        exact ⟨Nat.succ_pos _, by simpa using hx, fun j hj => absurd hj (Nat.not_lt_zero j)⟩
      · rintro ⟨-, -, hfirst⟩
        by_contra hne
        exact hfirst 0 (Nat.pos_of_ne_zero (Ne.symm hne)) (by simpa using hx)
    · rw [if_neg hx]
      cases i with
      | zero => simpa using hx
      | succ i =>
        rw [Option.map_eq_some_iff]
        have hshift : ∀ j, acc + ((x :: xs).take (j + 1 + 1)).sum
            = acc + x + (xs.take (j + 1)).sum := by
          intro j
          rw [List.take_succ_cons, List.sum_cons, add_assoc]
        constructor
        · rintro ⟨j, hj, hji⟩
          obtain rfl : j = i := Nat.succ.inj hji
          obtain ⟨hlt, hstop, hfirst⟩ := ih.mp hj
          refine ⟨Nat.succ_lt_succ hlt, by rwa [hshift], fun k hk => ?_⟩
          cases k with
          | zero => simpa using hx
          | succ k => rw [hshift]; exact hfirst k (Nat.lt_of_succ_lt_succ hk)
        · rintro ⟨hlt, hstop, hfirst⟩
          refine ⟨i, ih.mpr ⟨Nat.lt_of_succ_lt_succ hlt, by rwa [← hshift], fun k hk => ?_⟩, rfl⟩
          rw [← hshift]
          exact hfirst (k + 1) (Nat.succ_lt_succ hk)

omit [LinearOrder K] [IsStrictOrderedRing K] in
theorem firstCross_eq_none_iff : l.firstCross stop acc = none
    ↔ ∀ i < l.length, ¬ stop (acc + (l.take (i + 1)).sum) := by
  constructor
  · intro h i hi hstop
    -- the first index that passes would be found
    have hex : ∃ n, n < l.length ∧ stop (acc + (l.take (n + 1)).sum) := ⟨i, hi, hstop⟩
    have hfound := firstCross_eq_some_iff.mpr ⟨(Nat.find_spec hex).1, (Nat.find_spec hex).2,
      fun j hj hj' => Nat.find_min hex hj ⟨hj.trans (Nat.find_spec hex).1, hj'⟩⟩
    rw [h] at hfound
    exact absurd hfound (by simp)
  · intro h
    rcases hc : l.firstCross stop acc with - | i
    · rfl
    · obtain ⟨hi, hstop, -⟩ := firstCross_eq_some_iff.mp hc
      exact absurd hstop (h i hi)

omit [LinearOrder K] [IsStrictOrderedRing K] in
theorem sum_take_succ_getD (l : List K) (i : ℕ) (hi : i < l.length) :
    (l.take (i + 1)).sum = (l.take i).sum + l[i] := by
  rw [List.take_succ_eq_append_getElem hi, List.sum_append, List.sum_singleton]

/-- Partial sums of non-negative weights grow. -/
theorem sum_take_le_sum_take (hl : ∀ x ∈ l, 0 ≤ x) {i j : ℕ} (hij : i ≤ j) :
    (l.take i).sum ≤ (l.take j).sum := by
  have hsplit := List.take_append_drop i (l.take j)
  rw [List.take_take, min_eq_left hij] at hsplit
  rw [← hsplit, List.sum_append]
  refine le_add_of_nonneg_right (List.sum_nonneg (fun x hx => hl x ?_))
  exact List.mem_of_mem_take (List.mem_of_mem_drop hx)

/-- **An index is drawn by a number** exactly when that number lies in the
index's part of the distribution. -/
theorem firstCross_lt_eq_some_iff (hl : ∀ x ∈ l, 0 ≤ x) {r : K} (hr : 0 ≤ r) :
    l.firstCross (fun c => decide (r < c)) 0 = some i
      ↔ i < l.length ∧ (l.take i).sum ≤ r ∧ r < (l.take (i + 1)).sum := by
  rw [firstCross_eq_some_iff]
  simp only [zero_add, decide_eq_true_iff, not_lt]
  refine and_congr_right (fun hi => ?_)
  constructor
  · rintro ⟨hlt, hfirst⟩
    refine ⟨?_, hlt⟩
    cases i with
    | zero => simpa using hr
    | succ i => exact hfirst i (Nat.lt_succ_self i)
  · rintro ⟨hle, hlt⟩
    exact ⟨hlt, fun j hj => (sum_take_le_sum_take hl hj).trans hle⟩

/-- **A number below the total draws an index of positive weight.** -/
theorem exists_firstCross_lt (hl : ∀ x ∈ l, 0 ≤ x) {r : K} (hr : 0 ≤ r) (hlt : r < l.sum) :
    ∃ i, ∃ h : i < l.length, l.firstCross (fun c => decide (r < c)) 0 = some i ∧ 0 < l[i] := by
  rcases hc : l.firstCross (fun c => decide (r < c)) 0 with - | i
  · exfalso
    have hnone := firstCross_eq_none_iff.mp hc
    rcases Nat.eq_zero_or_pos l.length with hzero | hpos
    · rw [List.length_eq_zero_iff.mp hzero, List.sum_nil] at hlt
      exact absurd hr (not_le.mpr hlt)
    · have hlast := hnone (l.length - 1) (by omega)
      rw [zero_add, Nat.sub_add_cancel hpos, List.take_length] at hlast
      exact hlast (by simpa using hlt)
  · obtain ⟨hi, hle, hgt⟩ := (firstCross_lt_eq_some_iff hl hr).mp hc
    refine ⟨i, hi, rfl, ?_⟩
    rw [sum_take_succ_getD l i hi] at hgt
    exact pos_of_lt_add_right (hle.trans_lt hgt)

/-- **Every index of positive weight is drawn** by some number below the
total. -/
theorem exists_draws (hl : ∀ x ∈ l, 0 ≤ x) (hi : i < l.length) (hpos : 0 < l[i]) :
    ∃ r, 0 ≤ r ∧ r < l.sum ∧ l.firstCross (fun c => decide (r < c)) 0 = some i := by
  have hstep := sum_take_succ_getD l i hi
  have hzero : 0 ≤ (l.take i).sum := List.sum_nonneg (fun x hx => hl x (List.mem_of_mem_take hx))
  have htop : (l.take (i + 1)).sum ≤ l.sum := by
    simpa using sum_take_le_sum_take hl (show i + 1 ≤ l.length from hi)
  have hlt : (l.take i).sum < (l.take (i + 1)).sum := by
    rw [hstep]
    exact lt_add_of_pos_right _ hpos
  exact ⟨(l.take i).sum, hzero, hlt.trans_le htop,
    (firstCross_lt_eq_some_iff hl hzero).mpr ⟨hi, le_rfl, hlt⟩⟩

end List
