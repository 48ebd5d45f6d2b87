import OrionServe.ExactSampling

/-!
# Ties at the boundary of top-k

`apply_top_k` masks what is below the `k`-th largest value. The values equal
to it all stay, so that it keeps exactly `k` entries if and only if the next
largest value differs (`applyTopK_exactly_iff`).
-/

namespace ExactSampling

variable {K : Type*} [Field K] [LinearOrder K] {row : List K} {k : ℕ}

omit [Field K] in
theorem descending_perm (row : List K) : (descending row).Perm row := List.mergeSort_perm row _

omit [Field K] in
theorem pairwise_descending (row : List K) : (descending row).Pairwise (fun a b => b ≤ a) := by
  have hsort : (descending row).Pairwise (fun a b => decide (b ≤ a) = true) :=
    List.pairwise_mergeSort
      (fun a b c hab hbc => by
        simp only [decide_eq_true_iff] at hab hbc ⊢
        exact hbc.trans hab)
      (fun a b => by simpa using le_total b a) row
  exact hsort.imp of_decide_eq_true

omit [Field K] in
theorem length_descending (row : List K) : (descending row).length = row.length :=
  (descending_perm row).length_eq

omit [Field K] in
theorem descending_of_pairwise (h : row.Pairwise (fun a b => b ≤ a)) : descending row = row :=
  List.mergeSort_of_pairwise (h.imp decide_eq_true)

/-- The threshold is the `k`-th largest value. -/
theorem descending_threshold (hk : 0 < k) (hlen : k < row.length) :
    (descending row)[k - 1]? = some (threshold row k) := by
  have hin : k - 1 < (descending row).length := by
    rw [length_descending]
    omega
  rw [threshold, List.getD_eq_getElem?_getD, List.getElem?_eq_getElem hin]
  rfl

/-- An entry is masked by `apply_top_k`. -/
def MaskedByTopK (row : List K) (k i : ℕ) : Prop :=
  (k ≠ 0 ∧ k < row.length) ∧ ∃ l, row[i]? = some l ∧ l < threshold row k

theorem getElem?_applyTopK {i : ℕ} (hmasked : ¬ MaskedByTopK row k i) :
    (applyTopK row k)[i]? = row[i]? := by
  unfold applyTopK
  split
  · rfl
  · next hk =>
    rw [List.getElem?_map]
    rcases hrow : row[i]? with - | l
    · rfl
    · have hge : ¬ l < threshold row k :=
        fun hlt => hmasked ⟨by omega, l, hrow, hlt⟩
      rw [Option.map_some, if_neg hge]

theorem getElem?_applyTopK_of_masked {i : ℕ} (hmasked : MaskedByTopK row k i) :
    (applyTopK row k)[i]? = some masked := by
  obtain ⟨hk, l, hl, hlt⟩ := hmasked
  unfold applyTopK
  rw [if_neg (by omega), List.getElem?_map, hl, Option.map_some, if_pos hlt]

/-- **An entry stays above the mask** if it was and is not below the
threshold. -/
theorem applyTopK_above_iff {i : ℕ} {l : K} :
    ((applyTopK row k)[i]? = some l ∧ masked < l)
      ↔ (row[i]? = some l ∧ masked < l) ∧ ¬ MaskedByTopK row k i := by
  by_cases hm : MaskedByTopK row k i
  · rw [getElem?_applyTopK_of_masked hm]
    refine ⟨fun h => ?_, fun h => absurd hm h.2⟩
    obtain rfl := Option.some.inj h.1
    exact absurd h.2 (lt_irrefl _)
  · rw [getElem?_applyTopK hm]
    exact ⟨fun h => ⟨h, hm⟩, And.left⟩

/-- No entry exceeds the largest, so the threshold does not either. -/
theorem threshold_le_top (hk : 0 < k) (hlen : k < row.length) : threshold row k ≤ top row :=
  le_top ((descending_perm row).subset (List.mem_of_getElem? (descending_threshold hk hlen)))

/-- The threshold of top-1 is the largest entry. -/
theorem threshold_one (hlen : 1 < row.length) : threshold row 1 = top row := by
  have hne : row ≠ [] := List.ne_nil_of_length_pos (by omega)
  refine le_antisymm (threshold_le_top one_pos hlen) ?_
  have hthr := descending_threshold one_pos hlen
  have hin : 0 < (descending row).length := by
    rw [length_descending]
    omega
  rw [Nat.sub_self, List.getElem?_eq_getElem hin, Option.some.injEq] at hthr
  obtain ⟨i, hi, htop⟩ := List.getElem_of_mem ((descending_perm row).mem_iff.mpr (top_mem hne))
  rw [← hthr, ← htop]
  rcases Nat.eq_zero_or_pos i with rfl | hpos
  · exact le_rfl
  · exact List.pairwise_iff_getElem.mp (pairwise_descending row) 0 i hin hi hpos

/-- The filter leaves the largest entry. -/
theorem Above.applyTopK (h : Above row) (k : ℕ) : Above (applyTopK row k) := by
  obtain ⟨i, hi⟩ := List.getElem?_of_mem (top_mem h.ne_nil)
  have hkept : ¬ MaskedByTopK row k i := by
    rintro ⟨⟨hk, hlen⟩, l, hl, hlt⟩
    obtain rfl := Option.some.inj (hi.symm.trans hl)
    exact absurd hlt (not_lt.mpr (threshold_le_top (by omega) hlen))
  have habove := applyTopK_above_iff.mpr
    ⟨⟨hi, (above_iff_top h.ne_nil).mp h⟩, hkept⟩
  exact ⟨top row, List.mem_of_getElem? habove.1, habove.2⟩

theorem not_above_applyTopK (h : ¬ Above row) (k : ℕ) : ¬ Above (applyTopK row k) := by
  rintro ⟨l, hl, hlt⟩
  obtain ⟨i, hi⟩ := List.getElem?_of_mem hl
  have := (applyTopK_above_iff.mp ⟨hi, hlt⟩).1.1
  exact h ⟨l, List.mem_of_getElem? this, hlt⟩

@[simp] theorem length_applyTopK (row : List K) (k : ℕ) :
    (applyTopK row k).length = row.length := by
  unfold applyTopK
  split
  · rfl
  · exact List.length_map _

/-- **How many entries reach the threshold**: at least `k`, and exactly `k` if
the next value in descending order is below it. -/
theorem countP_threshold_iff (hk : 0 < k) (hlen : k < row.length) :
    row.countP (fun l => decide (threshold row k ≤ l)) = k
      ↔ (descending row)[k]? ≠ (descending row)[k - 1]? := by
  have hin : k < (descending row).length := by rwa [length_descending]
  have hpred : k - 1 < (descending row).length := by omega
  have hthr := descending_threshold hk hlen
  rw [hthr]
  rw [List.getElem?_eq_getElem hpred, Option.some.injEq] at hthr
  have hpair := List.pairwise_iff_getElem.mp (pairwise_descending row)
  -- the first `k` values reach the threshold
  have hfirst : ((descending row).take k).countP (fun l => decide (threshold row k ≤ l)) = k := by
    rw [List.countP_eq_length.mpr, List.length_take, min_eq_left hin.le]
    intro l hl
    obtain ⟨i, hi, rfl⟩ := List.getElem_of_mem hl
    rw [List.length_take] at hi
    rw [List.getElem_take, decide_eq_true_iff, ← hthr]
    rcases Nat.lt_or_ge i (k - 1) with hlt | hge
    · exact hpair i (k - 1) (by omega) hpred hlt
    · have : i = k - 1 := by omega
      subst this
      exact le_rfl
  have hcount : row.countP (fun l => decide (threshold row k ≤ l))
      = k + ((descending row).drop k).countP (fun l => decide (threshold row k ≤ l)) := by
    rw [← (descending_perm row).countP_eq, ← List.take_append_drop k (descending row),
      List.countP_append, hfirst, List.take_append_drop]
  rw [hcount, List.getElem?_eq_getElem hin]
  have hle : (descending row)[k] ≤ threshold row k := by
    rw [← hthr]
    exact hpair (k - 1) k hpred hin (by omega)
  constructor
  · intro h heq
    -- the next value is counted too
    have hzero : ((descending row).drop k).countP (fun l => decide (threshold row k ≤ l))
        = 0 := by
      omega
    rw [List.countP_eq_zero] at hzero
    refine hzero (descending row)[k] ?_ (by simp [Option.some.inj heq])
    rw [List.drop_eq_getElem_cons hin]
    exact List.mem_cons_self
  · intro hne
    have hlt : (descending row)[k] < threshold row k :=
      lt_of_le_of_ne hle (fun heq => hne (congrArg some heq))
    rw [Nat.add_eq_left, List.countP_eq_zero]
    intro l hl
    obtain ⟨i, hi, rfl⟩ := List.getElem_of_mem hl
    rw [List.length_drop] at hi
    rw [List.getElem_drop, decide_eq_true_iff, not_le]
    refine lt_of_le_of_lt ?_ hlt
    rcases Nat.eq_zero_or_pos i with rfl | hpos
    · exact le_rfl
    · exact hpair k (k + i) hin (by omega) (by omega)

/-- **Exactly `k` entries are left**, they are as they were, and none of them
is less than a masked one was. Among equals it does not say which are left. -/
structure KeepsExactly (row : List K) (k : ℕ) : Prop where
  count : (applyTopK row k).countP (fun l => decide (masked < l)) = k
  unchanged : ∀ (i : ℕ) (l : K), (applyTopK row k)[i]? = some l → masked < l → row[i]? = some l
  largest : ∀ (i j : ℕ) (a b l : K), (applyTopK row k)[i]? = some a → masked < a →
    (applyTopK row k)[j]? = some l → l ≤ masked → row[j]? = some b → b ≤ a

/-- **Top-k keeps exactly `k` entries** when the `k`-th and the next largest
value differ, and only then. -/
theorem keepsExactly_iff (hrow : ∀ l ∈ row, masked < l) (hk : 0 < k) (hlen : k < row.length) :
    KeepsExactly row k ↔ (descending row)[k]? ≠ (descending row)[k - 1]? := by
  have hcount : (applyTopK row k).countP (fun l => decide (masked < l))
      = row.countP (fun l => decide (threshold row k ≤ l)) := by
    rw [applyTopK, if_neg (by omega), List.countP_map]
    refine List.countP_congr (fun l hl => ?_)
    simp only [Function.comp_apply, decide_eq_true_iff]
    split
    · next hlt => exact ⟨fun h => absurd h (lt_irrefl _), fun h => absurd hlt (not_lt.mpr h)⟩
    · next hge => exact ⟨fun _ => not_lt.mp hge, fun _ => hrow l hl⟩
  rw [← countP_threshold_iff hk hlen, ← hcount]
  refine ⟨fun h => h.count,
    fun h => ⟨h, fun i l hl hlt => ?_, fun i j a b l ha hlt hl hle hb => ?_⟩⟩
  · exact (applyTopK_above_iff.mp ⟨hl, hlt⟩).1.1
  · obtain ⟨⟨ha, -⟩, hkept⟩ := applyTopK_above_iff.mp ⟨ha, hlt⟩
    have hmasked : MaskedByTopK row k j := by
      by_contra hm
      rw [getElem?_applyTopK hm, hb] at hl
      obtain rfl := Option.some.inj hl
      exact absurd (hrow _ (List.mem_of_getElem? hb)) (not_lt.mpr hle)
    obtain ⟨hk, b', hb', hbelow⟩ := hmasked
    obtain rfl := Option.some.inj (hb.symm.trans hb')
    exact hbelow.le.trans (not_lt.mp (fun hlt => hkept ⟨hk, a, ha, hlt⟩))

end ExactSampling
