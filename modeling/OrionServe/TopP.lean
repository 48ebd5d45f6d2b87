import OrionServe.ExactSampling

/-!
# The nucleus

The candidates of `apply_top_p` are the entries above the mask; their
probabilities add up to one, since every other entry has none. They are cut at
the first rank at which the mass reaches `p`, so that what is kept is a
shortest prefix of the sorted candidates (`nucleus_cutoff`). Equal entries may
stand in any order: what is said of the kept set does not depend on it.
-/

namespace ExactSampling

variable {K : Type*} [Field K] [LinearOrder K] [IsStrictOrderedRing K] {E : ExactArith K}
  {row : List K}

omit [LinearOrder K] [IsStrictOrderedRing K] in
/-- Elements without weight may be left out of a sum. -/
theorem sum_map_filter_of_zero {α : Type*} (f : α → K) (q : α → Bool) (l : List α)
    (h : ∀ x ∈ l, q x = false → f x = 0) : ((l.filter q).map f).sum = (l.map f).sum := by
  induction l with
  | nil => rfl
  | cons x l ih =>
    have hl := ih (fun y hy => h y (List.mem_cons_of_mem x hy))
    rcases hq : q x with - | -
    · rw [List.filter_cons_of_neg (by simp [hq]), hl, List.map_cons, List.sum_cons,
        h x List.mem_cons_self hq, zero_add]
    · rw [List.filter_cons_of_pos hq, List.map_cons, List.sum_cons, List.map_cons, List.sum_cons,
        hl]

/-- **The candidates are the entries above the mask.** -/
theorem candidates_eq (h : Above row) : candidates E row
    = (row.zipIdx.filter (fun e => decide (masked < e.1))).map
        (fun e => (e.2, prob E row e.1)) := by
  have hzip : (softmax E row).zip row = row.map (fun l => (prob E row l, l)) := by
    rw [softmax_eq_map h]
    simpa using List.zip_map' (f := prob E row) (g := fun l => l) (l := row)
  have hidx : (row.map (fun l => (prob E row l, l))).zipIdx
      = row.zipIdx.map (fun e => ((prob E row e.1, e.1), e.2)) := by
    rw [List.zipIdx_map]
    rfl
  rw [candidates, hzip, hidx, List.filter_map, List.map_map]
  refine congrArg₂ List.map rfl (List.filter_congr (fun e _ => ?_))
  simp [prob_pos_iff h]

/-- The sorted candidates. -/
def sorted (E : ExactArith K) (row : List K) : List (ℕ × K) := E.sortUnstable (candidates E row)

theorem mem_sorted_iff (h : Above row) {i : ℕ} {w : K} : (i, w) ∈ sorted E row
    ↔ ∃ l, row[i]? = some l ∧ masked < l ∧ w = prob E row l := by
  rw [sorted, (E.sort_perm _).mem_iff, candidates_eq h, List.mem_map]
  constructor
  · rintro ⟨⟨l, j⟩, hmem, he⟩
    obtain ⟨hin, hlt⟩ := List.mem_filter.mp hmem
    obtain ⟨rfl, rfl⟩ := Prod.ext_iff.mp he
    exact ⟨l, List.mem_zipIdx_iff_getElem?.mp hin, of_decide_eq_true hlt, rfl⟩
  · rintro ⟨l, hl, hlt, rfl⟩
    exact ⟨(l, i), List.mem_filter.mpr ⟨List.mem_zipIdx_iff_getElem?.mpr hl,
      decide_eq_true hlt⟩, rfl⟩

theorem nodup_sorted (h : Above row) : ((sorted E row).map Prod.fst).Nodup := by
  rw [sorted, ((E.sort_perm _).map Prod.fst).nodup_iff, candidates_eq h, List.map_map]
  refine List.Nodup.sublist (List.filter_sublist.map Prod.snd) ?_
  rw [List.zipIdx_map_snd]
  exact List.nodup_range'

theorem sum_sorted (h : Above row) : ((sorted E row).map Prod.snd).sum = 1 := by
  rw [sorted, ((E.sort_perm _).map Prod.snd).sum_eq, candidates_eq h, List.map_map,
    ← sum_prob (E := E) h]
  refine (sum_map_filter_of_zero (fun e : K × ℕ => prob E row e.1) _ _
    (fun e _ he => ?_)).trans ?_
  · have hle : ¬ masked < e.1 := of_decide_eq_false he
    exact le_antisymm (not_lt.mp (fun hpos => hle ((prob_pos_iff h).mp hpos))) (prob_nonneg _)
  · rw [← Function.comp_def (prob E row) Prod.fst, ← List.map_map, List.zipIdx_map_fst]

/-- **Where the candidates are cut**: at the first rank at which the mass
reaches `p`. -/
theorem nucleus_cutoff (h : Above row) {p : K} (hp : p ≤ 1) :
    ∃ c, cutoff (sorted E row) p = c + 1 ∧ c < (sorted E row).length
      ∧ p ≤ (((sorted E row).map Prod.snd).take (c + 1)).sum
      ∧ ∀ j < c, (((sorted E row).map Prod.snd).take (j + 1)).sum < p := by
  have hsum := sum_sorted (E := E) h
  rcases hc : ((sorted E row).map Prod.snd).firstCross (fun c => decide (p ≤ c)) 0 with - | c
  · -- the whole mass is one
    exfalso
    have hnone := List.firstCross_eq_none_iff.mp hc
    rcases hlen : ((sorted E row).map Prod.snd).length with - | n
    · rw [List.length_eq_zero_iff.mp hlen, List.sum_nil] at hsum
      exact zero_ne_one hsum
    · have hlast := hnone n (by omega)
      rw [← hlen, List.take_length, zero_add, hsum] at hlast
      exact hlast (decide_eq_true hp)
  · obtain ⟨hlt, hstop, hfirst⟩ := List.firstCross_eq_some_iff.mp hc
    simp only [zero_add, decide_eq_true_iff, not_le] at hstop hfirst
    refine ⟨c, ?_, by simpa using hlt, hstop, hfirst⟩
    rw [cutoff, hc]
    rfl

/-! ## What is masked -/

omit [LinearOrder K] [IsStrictOrderedRing K] in
theorem getElem?_maskAll (tail : List (ℕ × K)) (i : ℕ) :
    (tail.foldl (fun ls e => ls.set e.1 masked) row)[i]?
      = if i ∈ tail.map Prod.fst then row[i]?.map (fun _ => masked) else row[i]? := by
  induction tail generalizing row with
  | nil => simp
  | cons e tail ih =>
    rw [List.foldl_cons, ih, List.getElem?_set, List.map_cons]
    by_cases hi : i ∈ tail.map Prod.fst
    · rw [if_pos hi, if_pos (List.mem_cons_of_mem _ hi)]
      split
      · next he =>
        subst he
        split <;> simp_all
      · rfl
    · rw [if_neg hi]
      by_cases he : e.1 = i
      · subst he
        rw [if_pos rfl, if_pos List.mem_cons_self]
        split <;> simp_all
      · rw [if_neg he, if_neg]
        simp only [List.mem_cons, not_or]
        exact ⟨fun h => he h.symm, hi⟩

/-- An entry is masked by `apply_top_p`. -/
def MaskedByTopP (E : ExactArith K) (row : List K) (p : K) (i : ℕ) : Prop :=
  i ∈ (topPTail E row p).map Prod.fst

omit [IsStrictOrderedRing K] in
theorem getElem?_applyTopP (p : K) (i : ℕ) (hmasked : ¬ MaskedByTopP E row p i) :
    (applyTopP E row p)[i]? = row[i]? :=
  (getElem?_maskAll _ i).trans (if_neg hmasked)

omit [IsStrictOrderedRing K] in
theorem getElem?_applyTopP_of_masked {p : K} {i : ℕ} (hmasked : MaskedByTopP E row p i) :
    (applyTopP E row p)[i]? = row[i]?.map (fun _ => masked) :=
  (getElem?_maskAll _ i).trans (if_pos hmasked)

omit [IsStrictOrderedRing K] in
/-- **An entry survives** if it was above the mask and is not in the tail. -/
theorem applyTopP_above_iff {p : K} {i : ℕ} {l : K} :
    ((applyTopP E row p)[i]? = some l ∧ masked < l)
      ↔ (row[i]? = some l ∧ masked < l) ∧ ¬ MaskedByTopP E row p i := by
  by_cases hm : MaskedByTopP E row p i
  · rw [getElem?_applyTopP_of_masked hm]
    refine ⟨fun h => ?_, fun h => absurd hm h.2⟩
    obtain ⟨x, -, rfl⟩ := Option.map_eq_some_iff.mp h.1
    exact absurd h.2 (lt_irrefl _)
  · rw [getElem?_applyTopP p i hm]
    exact ⟨fun h => ⟨h, hm⟩, And.left⟩

omit [LinearOrder K] [IsStrictOrderedRing K] in
theorem length_maskAll (tail : List (ℕ × K)) :
    (tail.foldl (fun ls e => ls.set e.1 masked) row).length = row.length := by
  induction tail generalizing row with
  | nil => rfl
  | cons e tail ih => rw [List.foldl_cons, ih, List.length_set]

/-- The tail of a row that has candidates. -/
theorem topPTail_eq (h : Above row) {p : K} (hp : p < 1) :
    topPTail E row p = (sorted E row).drop (cutoff (sorted E row) p) := by
  obtain ⟨c, -, hc, -⟩ := nucleus_cutoff (E := E) h hp.le
  have hne : (candidates E row).isEmpty = false := by
    rw [← Bool.not_eq_true, List.isEmpty_iff]
    rintro hnil
    have hlen := (E.sort_perm (candidates E row)).length_eq
    rw [hnil] at hlen
    rw [sorted, hnil, hlen] at hc
    exact absurd hc (Nat.not_lt_zero c)
  rw [topPTail, if_neg (not_le.mpr hp), hne]
  rfl

/-! ## The kept set -/

/-- The indices of the entries above the mask. -/
def kept (row : List K) : Finset ℕ :=
  (Finset.range row.length).filter (fun i => masked < row.getD i masked)

/-- The probability of an index. -/
def probAt (E : ExactArith K) (row : List K) (i : ℕ) : K := (softmax E row).getD i 0

omit [IsStrictOrderedRing K] in
theorem mem_kept_iff {i : ℕ} : i ∈ kept row ↔ ∃ l, row[i]? = some l ∧ masked < l := by
  rw [kept, Finset.mem_filter, Finset.mem_range]
  constructor
  · rintro ⟨hi, hlt⟩
    have hget := List.getElem?_eq_getElem hi
    rw [List.getD_eq_getElem?_getD, hget, Option.getD_some] at hlt
    exact ⟨row[i], hget, hlt⟩
  · rintro ⟨l, hl, hlt⟩
    obtain ⟨hi, -⟩ := List.getElem?_eq_some_iff.mp hl
    rw [List.getD_eq_getElem?_getD, hl, Option.getD_some]
    exact ⟨hi, hlt⟩

theorem probAt_eq (h : Above row) {i : ℕ} {l : K} (hl : row[i]? = some l) :
    probAt E row i = prob E row l := by
  rw [probAt, softmax_eq_map h, List.getD_eq_getElem?_getD, List.getElem?_map, hl]
  rfl

/-- The index of a sorted candidate has the candidate's probability. -/
theorem probAt_of_mem (h : Above row) {e : ℕ × K} (he : e ∈ sorted E row) :
    probAt E row e.1 = e.2 := by
  obtain ⟨l, hl, -, hw⟩ := (mem_sorted_iff h).mp he
  rw [probAt_eq h hl, ← hw]

/-- **What is kept is a prefix of the sorted candidates.** -/
theorem kept_applyTopP (h : Above row) {p : K} (hp : p < 1) : kept (applyTopP E row p)
    = (((sorted E row).take (cutoff (sorted E row) p)).map Prod.fst).toFinset := by
  ext i
  have hsplit := List.take_append_drop (cutoff (sorted E row) p) (sorted E row)
  have hnodup := nodup_sorted (E := E) h
  rw [← hsplit, List.map_append, List.nodup_append'] at hnodup
  rw [mem_kept_iff, List.mem_toFinset]
  constructor
  · rintro ⟨l, hl⟩
    obtain ⟨⟨hl, hlt⟩, hout⟩ := applyTopP_above_iff.mp hl
    have hmem : i ∈ (sorted E row).map Prod.fst :=
      List.mem_map.mpr ⟨(i, prob E row l), (mem_sorted_iff h).mpr ⟨l, hl, hlt, rfl⟩, rfl⟩
    rw [← hsplit, List.map_append, List.mem_append] at hmem
    refine hmem.resolve_right (fun hdrop => hout ?_)
    rw [MaskedByTopP, topPTail_eq h hp]
    exact hdrop
  · intro hi
    obtain ⟨e, he, rfl⟩ := List.mem_map.mp hi
    obtain ⟨l, hl, hlt, -⟩ := (mem_sorted_iff h).mp (List.mem_of_mem_take he)
    refine ⟨l, applyTopP_above_iff.mpr ⟨⟨hl, hlt⟩, fun hout => ?_⟩⟩
    rw [MaskedByTopP, topPTail_eq h hp] at hout
    exact hnodup.2.2 hi hout

/-- The filter leaves an entry above the mask. -/
theorem Above.applyTopP (h : Above row) (p : K) : Above (applyTopP E row p) := by
  rcases lt_or_ge p 1 with hp | hp
  · obtain ⟨c, hcut, hc, -⟩ := nucleus_cutoff (E := E) h hp.le
    have hmem : (sorted E row)[0].1 ∈ kept (ExactSampling.applyTopP E row p) := by
      rw [kept_applyTopP h hp, hcut, List.mem_toFinset]
      refine List.mem_map_of_mem (List.mem_take_iff_getElem.mpr ⟨0, by omega, rfl⟩)
    obtain ⟨l, hl, hlt⟩ := mem_kept_iff.mp hmem
    exact ⟨l, List.mem_of_getElem? hl, hlt⟩
  · rwa [ExactSampling.applyTopP, topPTail, if_pos hp]

omit [IsStrictOrderedRing K] in
/-- A row with nothing above the mask has no candidates, so nothing is cut
off. -/
theorem topPTail_of_le (h : ¬ Above row) (p : K) : topPTail E row p = [] := by
  have hnone : candidates E row = [] := by
    rw [candidates, List.map_eq_nil_iff, List.filter_eq_nil_iff]
    rintro ⟨⟨w, l⟩, i⟩ hmem
    have hpair := List.mem_of_getElem? (List.mem_zipIdx_iff_getElem?.mp hmem)
    have hl : l ∈ row := (List.of_mem_zip hpair).2
    have hle : l ≤ masked := not_lt.mp (fun hlt => h ⟨l, hl, hlt⟩)
    simp [hle]
  rw [topPTail, hnone]
  split <;> rfl

omit [IsStrictOrderedRing K] in
theorem applyTopP_of_le (h : ¬ Above row) (p : K) : applyTopP E row p = row := by
  rw [applyTopP, topPTail_of_le h]
  rfl

/-- The mass of a prefix of the sorted candidates. -/
theorem sum_probAt_take (h : Above row) (c : ℕ) :
    ∑ i ∈ (((sorted E row).take c).map Prod.fst).toFinset, probAt E row i
      = (((sorted E row).map Prod.snd).take c).sum := by
  have hnodup : (((sorted E row).take c).map Prod.fst).Nodup :=
    (nodup_sorted h).sublist ((List.take_sublist c _).map Prod.fst)
  rw [List.sum_toFinset _ hnodup, List.map_map, ← List.map_take]
  refine congrArg List.sum (List.map_congr_left (fun e he => ?_))
  exact probAt_of_mem h (List.mem_of_mem_take he)

omit [IsStrictOrderedRing K] in
/-- A candidate beyond the cut is at most as probable as one before it. -/
theorem snd_le_of_split {c : ℕ} {a b : ℕ × K} (ha : a ∈ (sorted E row).take c)
    (hb : b ∈ (sorted E row).drop c) : b.2 ≤ a.2 := by
  have hpair := E.sort_sorted (candidates E row)
  change (sorted E row).Pairwise _ at hpair
  rw [← List.take_append_drop c (sorted E row), List.pairwise_append] at hpair
  exact hpair.2.2 a ha b hb

/-- **The kept set is a minimal nucleus**: it is not empty, its mass is at
least `p`, every kept index is at least as probable as every dropped one,
without any one kept index the mass is below `p`, kept logits are unchanged,
and what was masked stays masked. -/
theorem applyTopP_minimal_nucleus (E : ExactArith K) (row : List K)
    (h : ∃ l ∈ row, masked < l) (p : K) (hp : 0 < p) (hp1 : p < 1) :
    (kept (applyTopP E row p)).Nonempty
    ∧ p ≤ ∑ i ∈ kept (applyTopP E row p), probAt E row i
    ∧ (∀ i ∈ kept (applyTopP E row p), ∀ j < row.length, j ∉ kept (applyTopP E row p) →
      probAt E row j ≤ probAt E row i)
    ∧ (∀ i ∈ kept (applyTopP E row p),
      ∑ j ∈ (kept (applyTopP E row p)).erase i, probAt E row j < p)
    ∧ (∀ i ∈ kept (applyTopP E row p), (applyTopP E row p)[i]? = row[i]?)
    ∧ ∀ (i : ℕ) (l : K), row[i]? = some l → l ≤ masked →
      ∃ l', (applyTopP E row p)[i]? = some l' ∧ l' ≤ masked := by
  replace h : Above row := h
  obtain ⟨c, hcut, hc, hreach, hfirst⟩ := nucleus_cutoff (E := E) h hp1.le
  have hkept := kept_applyTopP (E := E) h hp1
  rw [hcut] at hkept
  have hmass : ∑ i ∈ kept (applyTopP E row p), probAt E row i
      = (((sorted E row).map Prod.snd).take (c + 1)).sum := by
    rw [hkept, sum_probAt_take h]
  have hmem : ∀ i, i ∈ kept (applyTopP E row p)
      ↔ ∃ e ∈ (sorted E row).take (c + 1), e.1 = i := by
    intro i
    rw [hkept, List.mem_toFinset, List.mem_map]
  -- the last candidate kept is the least probable one
  have hlast : (sorted E row)[c] ∈ (sorted E row).take (c + 1) := by
    rw [List.take_succ_eq_append_getElem hc]
    exact List.mem_append_right _ List.mem_cons_self
  have hleast : ∀ e ∈ (sorted E row).take (c + 1), (sorted E row)[c].2 ≤ e.2 := by
    intro e he
    rw [List.take_succ_eq_append_getElem hc, List.mem_append, List.mem_singleton] at he
    rcases he with he | rfl
    · exact snd_le_of_split he (by rw [List.drop_eq_getElem_cons hc]; exact List.mem_cons_self)
    · exact le_rfl
  have hbefore : (((sorted E row).map Prod.snd).take c).sum < p := by
    cases c with
    | zero => simpa using hp
    | succ c => exact hfirst c (Nat.lt_succ_self c)
  refine ⟨⟨_, (hmem _).mpr ⟨_, hlast, rfl⟩⟩, hmass ▸ hreach, ?_, ?_, ?_, ?_⟩
  · intro i hi j hj hout
    obtain ⟨e, he, rfl⟩ := (hmem i).mp hi
    rw [probAt_of_mem h (List.mem_of_mem_take he)]
    have hrow := List.getElem?_eq_getElem hj
    rw [probAt_eq h hrow]
    by_cases habove : masked < row[j]
    · -- a candidate that is not kept stands beyond the cut
      have hcand : (j, prob E row row[j]) ∈ sorted E row :=
        (mem_sorted_iff h).mpr ⟨row[j], hrow, habove, rfl⟩
      rw [← List.take_append_drop (c + 1) (sorted E row), List.mem_append] at hcand
      refine snd_le_of_split he (hcand.resolve_left (fun hin => hout ?_))
      exact (hmem j).mpr ⟨_, hin, rfl⟩
    · have hzero : prob E row row[j] ≤ 0 :=
        not_lt.mp (fun hpos => habove ((prob_pos_iff h).mp hpos))
      obtain ⟨l, -, -, hw⟩ := (mem_sorted_iff h).mp (List.mem_of_mem_take he)
      exact hzero.trans (hw ▸ prob_nonneg l)
  · intro i hi
    obtain ⟨e, he, rfl⟩ := (hmem i).mp hi
    have hsplit := Finset.add_sum_erase _ (probAt E row) hi
    have hstep := List.sum_take_succ_getD ((sorted E row).map Prod.snd) c (by simpa using hc)
    rw [hmass, hstep, probAt_of_mem h (List.mem_of_mem_take he), List.getElem_map] at hsplit
    have := hleast e he
    linarith
  · intro i hi
    obtain ⟨l, hl⟩ := mem_kept_iff.mp hi
    rw [hl.1, (applyTopP_above_iff.mp hl).1.1]
  · intro i l hl hle
    by_cases hm : MaskedByTopP E row p i
    · exact ⟨masked, by rw [getElem?_applyTopP_of_masked hm, hl]; rfl, le_rfl⟩
    · exact ⟨l, by rw [getElem?_applyTopP p i hm, hl], hle⟩

/-- Two entries of probabilities `2/3` and `1/3`, and half of the mass. -/
theorem applyTopP_minimal_nucleus_two :
    (1 / 2 : ℚ) ≤ ∑ i ∈ kept (applyTopP ExactArith.rational [0, -1] (1 / 2)),
      probAt ExactArith.rational [0, -1] i :=
  (applyTopP_minimal_nucleus ExactArith.rational [0, -1]
    ⟨0, List.mem_cons_self, by norm_num [masked]⟩ (1 / 2) (by norm_num) (by norm_num)).2.1

end ExactSampling
