import OrionServe.Lib.Slices
import OrionServe.TopK
import OrionServe.TopP

/-!
# What a stochastic draw may return

Over all draws between zero and one, the indices drawn from a row are exactly
those *in play* (`exists_drawIndex_iff`). In a row with an entry above the
mask these are the entries above it that neither filter masks. In any other
row every index is in play: a filter marks an entry by setting it to `masked`,
which is not below anything that is left, and softmax takes the row for one
in which everything is masked.
-/

namespace ExactSampling

variable {K : Type*} [Field K] [LinearOrder K] [IsStrictOrderedRing K] {E : ExactArith K}
  {row : List K} {k : ℕ} {p : K}

/-- **A distribution draws the indices of positive probability.** -/
theorem exists_sampleFrom_iff {probs : List K} (hpos : ∀ x ∈ probs, 0 ≤ x)
    (hsum : probs.sum = 1) {i : ℕ} : (∃ r, 0 ≤ r ∧ r < 1 ∧ sampleFrom probs r = i)
      ↔ ∃ x, probs[i]? = some x ∧ 0 < x := by
  constructor
  · rintro ⟨r, hr, hlt, rfl⟩
    obtain ⟨j, hj, hdraw, hx⟩ := List.exists_firstCross_lt hpos hr (hsum.symm ▸ hlt)
    rw [sampleFrom, hdraw]
    exact ⟨probs[j], List.getElem?_eq_getElem hj, hx⟩
  · rintro ⟨x, hx, hlt⟩
    obtain ⟨hi, rfl⟩ := List.getElem?_eq_some_iff.mp hx
    obtain ⟨r, hr, hr1, hdraw⟩ := List.exists_draws hpos hi hlt
    refine ⟨r, hr, hsum ▸ hr1, ?_⟩
    rw [sampleFrom, hdraw]
    rfl

/-- Softmax of a row that is not empty is a distribution. -/
theorem softmax_distribution (hrow : row ≠ []) :
    (∀ x ∈ softmax E row, 0 ≤ x) ∧ (softmax E row).sum = 1 := by
  have hpos : 0 < (row.length : K) := Nat.cast_pos.mpr (List.length_pos_of_ne_nil hrow)
  by_cases h : Above row
  · rw [softmax_eq_map h]
    refine ⟨fun x hx => ?_, sum_prob h⟩
    obtain ⟨l, -, rfl⟩ := List.mem_map.mp hx
    exact prob_nonneg l
  · rw [softmax_of_le h]
    refine ⟨fun x hx => ?_, ?_⟩
    · obtain ⟨l, -, rfl⟩ := List.mem_map.mp hx
      exact (one_div_pos.mpr hpos).le
    · rw [List.map_const', List.sum_replicate, nsmul_eq_mul, mul_one_div_cancel hpos.ne']

/-- **An index is in play** in a row after the temperature: it is above the
mask and neither filter masks it, or nothing is above the mask. -/
def InPlay (E : ExactArith K) (row : List K) (k : ℕ) (p : K) (i : ℕ) : Prop :=
  (Above row ∧ (∃ l, row[i]? = some l ∧ masked < l) ∧ ¬ MaskedByTopK row k i
    ∧ ¬ MaskedByTopP E (applyTopK row k) p i) ∨ (¬ Above row ∧ i < row.length)

/-- **The draws between zero and one return the indices in play**, and no
other one. -/
theorem exists_drawIndex_iff (hrow : row ≠ []) {i : ℕ} :
    (∃ r, 0 ≤ r ∧ r < 1 ∧ drawIndex E row k p r = i) ↔ InPlay E row k p i := by
  have hlen : applyTopK row k ≠ [] := by
    rw [← List.length_pos_iff, length_applyTopK]
    exact List.length_pos_of_ne_nil hrow
  have hlen' : applyTopP E (applyTopK row k) p ≠ [] := by
    rw [← List.length_pos_iff, applyTopP, length_maskAll]
    exact List.length_pos_of_ne_nil hlen
  obtain ⟨hpos, hsum⟩ := softmax_distribution (E := E) hlen'
  refine (exists_sampleFrom_iff hpos hsum).trans ?_
  by_cases h : Above row
  · have hfiltered := (h.applyTopK k).applyTopP (E := E) p
    rw [softmax_eq_map hfiltered]
    constructor
    · rintro ⟨x, hx, hlt⟩
      rw [List.getElem?_map, Option.map_eq_some_iff] at hx
      obtain ⟨l, hl, rfl⟩ := hx
      have habove := (prob_pos_iff hfiltered).mp hlt
      obtain ⟨⟨hl, habove⟩, hp⟩ := applyTopP_above_iff.mp ⟨hl, habove⟩
      obtain ⟨habove, hk⟩ := applyTopK_above_iff.mp ⟨hl, habove⟩
      exact Or.inl ⟨h, ⟨l, habove⟩, hk, hp⟩
    · rintro (⟨-, ⟨l, hl⟩, hk, hp⟩ | ⟨hnot, -⟩)
      · obtain ⟨hl, hlt⟩ := applyTopP_above_iff.mpr ⟨applyTopK_above_iff.mpr ⟨hl, hk⟩, hp⟩
        exact ⟨_, by rw [List.getElem?_map, hl]; rfl, (prob_pos_iff hfiltered).mpr hlt⟩
      · exact absurd h hnot
  · have hfiltered := not_above_applyTopK h k
    rw [applyTopP_of_le hfiltered, softmax_of_le hfiltered]
    constructor
    · rintro ⟨x, hx, -⟩
      rw [List.getElem?_map, Option.map_eq_some_iff] at hx
      obtain ⟨l, hl, -⟩ := hx
      obtain ⟨hi, -⟩ := List.getElem?_eq_some_iff.mp hl
      exact Or.inr ⟨h, by rwa [length_applyTopK] at hi⟩
    · rintro (⟨habove, -⟩ | ⟨-, hi⟩)
      · exact absurd habove h
      · refine ⟨1 / ((applyTopK row k).length : K), ?_, ?_⟩
        · rw [List.getElem?_map, List.getElem?_eq_getElem (by rwa [length_applyTopK])]
          rfl
        · exact one_div_pos.mpr (Nat.cast_pos.mpr (List.length_pos_of_ne_nil hlen))

theorem inPlay_drawIndex (hrow : row ≠ []) {r : K} (hr : 0 ≤ r) (hr1 : r < 1) :
    InPlay E row k p (drawIndex E row k p r) :=
  (exists_drawIndex_iff hrow).mp ⟨r, hr, hr1, rfl⟩

/-! ## Top-1 -/

/-- The indices at which a row is largest. -/
def ties (row : List K) : List ℕ :=
  (row.zipIdx.filter (fun e => decide (e.1 = top row))).map Prod.snd

omit [IsStrictOrderedRing K] in
theorem mem_ties_iff {i : ℕ} : i ∈ ties row ↔ row[i]? = some (top row) := by
  rw [ties, List.mem_map]
  constructor
  · rintro ⟨⟨l, j⟩, hmem, rfl⟩
    obtain ⟨hin, heq⟩ := List.mem_filter.mp hmem
    obtain rfl : l = top row := of_decide_eq_true heq
    exact List.mem_zipIdx_iff_getElem?.mp hin
  · intro h
    exact ⟨(top row, i), List.mem_filter.mpr ⟨List.mem_zipIdx_iff_getElem?.mpr h,
      decide_eq_true rfl⟩, rfl⟩

/-- The order in which the sort leaves the entries tied for the largest, each
with its share of the distribution. -/
def tieOrder (E : ExactArith K) (row : List K) : List ℕ :=
  (E.sortUnstable ((ties row).map (fun i => (i, 1 / ((ties row).length : K))))).map Prod.fst

omit [IsStrictOrderedRing K] in
theorem tieOrder_perm (E : ExactArith K) (row : List K) : (tieOrder E row).Perm (ties row) := by
  refine ((E.sort_perm _).map Prod.fst).trans ?_
  rw [List.map_map]
  exact List.Perm.of_eq (List.map_id _)

/-- **The candidates after top-1** are the tied entries, equally probable. -/
theorem candidates_topOne (h : Above row) (hlen : 1 < row.length) :
    candidates E (applyTopK row 1)
      = (ties row).map (fun i => (i, 1 / ((ties row).length : K))) := by
  have hrow : applyTopK row 1 = row.map (fun l => if l < top row then masked else l) := by
    rw [applyTopK, if_neg (by omega), threshold_one hlen]
  have hmask := (above_iff_top h.ne_nil).mp h
  obtain ⟨w, hw⟩ : ∃ w, w = prob E (applyTopK row 1) (top row) := ⟨_, rfl⟩
  have hcand : candidates E (applyTopK row 1) = (ties row).map (fun i => (i, w)) := by
    rw [candidates_eq (h.applyTopK 1), ties, List.map_map, hw]
    conv_lhs => rw [hrow, List.zipIdx_map, List.filter_map, List.map_map]
    rw [← hrow]
    have hfilter : row.zipIdx.filter ((fun e : K × ℕ => decide (masked < e.1))
          ∘ Prod.map (fun l => if l < top row then masked else l) id)
        = row.zipIdx.filter (fun e => decide (e.1 = top row)) := by
      refine List.filter_congr (fun e he => ?_)
      have hle : e.1 ≤ top row :=
        le_top (List.mem_of_getElem? (List.mem_zipIdx_iff_getElem?.mp (by simpa using he)))
      show decide (masked < (if e.1 < top row then masked else e.1)) = _
      refine decide_eq_decide.mpr ?_
      split
      · next hlt => exact ⟨fun h => absurd h (lt_irrefl _), fun h => absurd h hlt.ne⟩
      · next hge => exact ⟨fun _ => le_antisymm hle (not_lt.mp hge), fun heq => heq ▸ hmask⟩
    rw [hfilter]
    refine List.map_congr_left (fun e he => ?_)
    have heq : e.1 = top row := of_decide_eq_true (List.mem_filter.mp he).2
    show (e.2, prob E _ (if e.1 < top row then masked else e.1)) = (e.2, _)
    rw [heq, if_neg (lt_irrefl _)]
  -- equal shares add up to one
  have hsum := sum_sorted (E := E) (h.applyTopK 1)
  rw [sorted, ((E.sort_perm _).map Prod.snd).sum_eq, hcand, List.map_map] at hsum
  have hconst : ((ties row).map (Prod.snd ∘ fun i => (i, w))).sum = (ties row).length * w := by
    rw [show (Prod.snd ∘ fun i : ℕ => (i, w)) = fun _ => w from rfl, List.map_const',
      List.sum_replicate, nsmul_eq_mul]
  rw [hconst] at hsum
  rw [hcand, eq_one_div_of_mul_eq_one_right hsum]

/-- A rank is kept as long as the shares before it do not make up the mass. -/
theorem mem_take_cutoff_iff (h : Above row) (hlen : 1 < row.length) (hp : 0 < p) (hp1 : p < 1)
    {j : ℕ} (hj : j < (sorted E (applyTopK row 1)).length) :
    j < cutoff (sorted E (applyTopK row 1)) p ↔ (j : K) < p * (ties row).length := by
  obtain ⟨c, hcut, hc, hreach, hfirst⟩ := nucleus_cutoff (E := E) (h.applyTopK 1) hp1.le
  have hsorted : sorted E (applyTopK row 1)
      = E.sortUnstable ((ties row).map (fun i => (i, 1 / ((ties row).length : K)))) := by
    rw [sorted, candidates_topOne h hlen]
  have hlength : (sorted E (applyTopK row 1)).length = (ties row).length := by
    rw [hsorted, (E.sort_perm _).length_eq, List.length_map]
  have hshare : ∀ n ≤ (ties row).length,
      (((sorted E (applyTopK row 1)).map Prod.snd).take n).sum = n * (1 / (ties row).length) := by
    intro n hn
    have hall : (sorted E (applyTopK row 1)).map Prod.snd
        = List.replicate (ties row).length (1 / ((ties row).length : K)) := by
      refine List.eq_replicate_iff.mpr ⟨by rw [List.length_map, hlength], fun w hw => ?_⟩
      obtain ⟨e, he, rfl⟩ := List.mem_map.mp hw
      rw [hsorted, (E.sort_perm _).mem_iff, List.mem_map] at he
      obtain ⟨i, -, rfl⟩ := he
      rfl
    rw [hall, List.take_replicate, List.sum_replicate, min_eq_left hn, nsmul_eq_mul]
  have hpos : 0 < ((ties row).length : K) := Nat.cast_pos.mpr (by omega)
  rw [hshare (c + 1) (by omega), mul_one_div, le_div_iff₀ hpos] at hreach
  rw [hcut]
  constructor
  · intro hle
    cases j with
    | zero => simpa using mul_pos hp hpos
    | succ j =>
      have := hfirst j (by omega)
      rwa [hshare (j + 1) (by omega), mul_one_div, div_lt_iff₀ hpos] at this
  · intro hlt
    by_contra hge
    have hcast : ((c + 1 : ℕ) : K) ≤ j := Nat.cast_le.mpr (by omega)
    exact absurd (hreach.trans hcast) (not_le.mpr hlt)

/-- **After top-1 the tied entries of the first ranks are in play**: so many
that their shares make up the mass. -/
theorem inPlay_topOne_iff (h : Above row) (hlen : 1 < row.length) (hp : 0 < p) {i : ℕ} :
    InPlay E row 1 p i
      ↔ ∃ j : ℕ, (tieOrder E row)[j]? = some i ∧ (j : K) < p * (ties row).length := by
  have hmask := (above_iff_top h.ne_nil).mp h
  -- the entries that top-1 leaves are the tied ones
  have htie : ((∃ l, row[i]? = some l ∧ masked < l) ∧ ¬ MaskedByTopK row 1 i)
      ↔ i ∈ tieOrder E row := by
    rw [(tieOrder_perm E row).mem_iff, mem_ties_iff]
    constructor
    · rintro ⟨⟨l, hl, hlt⟩, hk⟩
      rcases lt_or_eq_of_le (le_top (List.mem_of_getElem? hl)) with hbelow | rfl
      · exact absurd ⟨⟨one_ne_zero, hlen⟩, l, hl, by rwa [threshold_one hlen]⟩ hk
      · exact hl
    · intro hl
      refine ⟨⟨_, hl, hmask⟩, ?_⟩
      rintro ⟨-, l, hl', hbelow⟩
      obtain rfl := Option.some.inj (hl.symm.trans hl')
      rw [threshold_one hlen] at hbelow
      exact absurd hbelow (lt_irrefl _)
  have hplay : InPlay E row 1 p i
      ↔ i ∈ tieOrder E row ∧ ¬ MaskedByTopP E (applyTopK row 1) p i := by
    rw [← htie]
    constructor
    · rintro (⟨-, habove, hk, hout⟩ | ⟨hnot, -⟩)
      · exact ⟨⟨habove, hk⟩, hout⟩
      · exact absurd h hnot
    · rintro ⟨⟨habove, hk⟩, hout⟩
      exact Or.inl ⟨h, habove, hk, hout⟩
  rw [hplay]
  rcases lt_or_ge p 1 with hp1 | hp1
  · have hsorted : (sorted E (applyTopK row 1)).map Prod.fst = tieOrder E row := by
      rw [sorted, candidates_topOne h hlen, tieOrder]
    have hnodup := nodup_sorted (E := E) (h.applyTopK 1)
    rw [hsorted] at hnodup
    rw [MaskedByTopP, topPTail_eq (h.applyTopK 1) hp1, List.map_drop, hsorted]
    have hrank := fun j (hj : j < (tieOrder E row).length) =>
      mem_take_cutoff_iff (E := E) h hlen hp hp1 (j := j) (by
        rw [← hsorted, List.length_map] at hj
        exact hj)
    constructor
    · rintro ⟨hin, hout⟩
      obtain ⟨j, hj, rfl⟩ := List.getElem_of_mem hin
      refine ⟨j, List.getElem?_eq_getElem hj, (hrank j hj).mp ?_⟩
      by_contra hge
      refine hout (List.mem_drop_iff_getElem.mpr
        ⟨j - cutoff (sorted E (applyTopK row 1)) p, by omega, ?_⟩)
      congr 1
      omega
    · rintro ⟨j, hget, hlt⟩
      obtain ⟨hj, rfl⟩ := List.getElem?_eq_some_iff.mp hget
      refine ⟨List.getElem_mem hj, fun hout => ?_⟩
      obtain ⟨n, hn, heq⟩ := List.mem_drop_iff_getElem.mp hout
      have := (List.Nodup.getElem_inj_iff hnodup).mp heq
      have := (hrank j hj).mpr hlt
      omega
  · have hnone : ¬ MaskedByTopP E (applyTopK row 1) p i := by
      rw [MaskedByTopP, topPTail, if_pos hp1]
      exact List.not_mem_nil
    rw [and_iff_left hnone]
    constructor
    · intro hin
      obtain ⟨j, hj, rfl⟩ := List.getElem_of_mem hin
      refine ⟨j, List.getElem?_eq_getElem hj, ?_⟩
      have hjt : (j : K) < (ties row).length := by
        rw [(tieOrder_perm E row).length_eq] at hj
        exact Nat.cast_lt.mpr hj
      exact hjt.trans_le (le_mul_of_one_le_left (Nat.cast_nonneg _) hp1)
    · rintro ⟨j, hget, -⟩
      exact List.mem_of_getElem? hget

/-! ## Greedy -/

omit [Field K] [IsStrictOrderedRing K] in
/-- The running maximum, and the first index it is attained at. -/
theorem argmax_fold (row : List K) :
    (row = [] ∧ row.zipIdx.foldl better none = none)
      ∨ ∃ v i, row.zipIdx.foldl better none = some (v, i)
      ∧ row[i]? = some v ∧ (∀ x ∈ row, x ≤ v) ∧ ∀ j < i, ∀ x, row[j]? = some x → x < v := by
  induction row using List.reverseRecOn with
  | nil => exact Or.inl ⟨rfl, rfl⟩
  | append_singleton row x ih =>
    refine Or.inr ?_
    rw [List.zipIdx_append, List.foldl_append]
    rcases ih with ⟨rfl, -⟩ | ⟨v, i, hfold, hi, hmax, hfirst⟩
    · exact ⟨x, 0, rfl, rfl, by simp, by simp⟩
    · rw [hfold]
      have hlt := (List.getElem?_eq_some_iff.mp hi).1
      simp only [List.zipIdx_singleton, List.foldl_cons, List.foldl_nil, better]
      split
      · next hvx =>
        -- a new maximum, beyond everything so far
        refine ⟨x, row.length, by simp, by simp, fun y hy => ?_, fun j hj y hy => ?_⟩
        · rcases List.mem_append.mp hy with hy | hy
          · exact (hmax y hy).trans hvx.le
          · exact (List.mem_singleton.mp hy).le
        · rw [List.getElem?_append_left hj] at hy
          exact (hmax y (List.mem_of_getElem? hy)).trans_lt hvx
      · next hxv =>
        refine ⟨v, i, rfl, by rwa [List.getElem?_append_left hlt], fun y hy => ?_,
          fun j hj y hy => ?_⟩
        · rcases List.mem_append.mp hy with hy | hy
          · exact hmax y hy
          · exact (List.mem_singleton.mp hy) ▸ not_lt.mp hxv
        · rw [List.getElem?_append_left (hj.trans hlt)] at hy
          exact hfirst j hj y hy

omit [IsStrictOrderedRing K] in
/-- **The greedy choice** is the first of the tied entries. -/
theorem argmax_eq_some_iff (hne : row ≠ []) {i : ℕ} :
    argmax row = some i ↔ i ∈ ties row ∧ ∀ j ∈ ties row, i ≤ j := by
  rcases argmax_fold row with ⟨hnil, -⟩ | ⟨v, n, hfold, hn, hmax, hfirst⟩
  · exact absurd hnil hne
  have htop : top row = v := le_antisymm (hmax _ (top_mem hne)) (le_top (List.mem_of_getElem? hn))
  have hargmax : argmax row = some n := congrArg (Option.map Prod.snd) hfold
  have hleast : ∀ j ∈ ties row, n ≤ j := by
    intro j hj
    by_contra hlt
    have := hfirst j (by omega) _ (mem_ties_iff.mp hj)
    exact absurd this (htop ▸ lt_irrefl _)
  have hin : n ∈ ties row := mem_ties_iff.mpr (htop ▸ hn)
  rw [hargmax, Option.some.injEq]
  constructor
  · rintro rfl
    exact ⟨hin, hleast⟩
  · rintro ⟨hi, hle⟩
    exact le_antisymm (hleast i hi) (hle n hin)

omit [IsStrictOrderedRing K] in
theorem exists_argmax (hne : row ≠ []) : ∃ i, argmax row = some i ∧ i ∈ ties row := by
  rcases argmax_fold row with ⟨hnil, -⟩ | ⟨v, n, hfold, -⟩
  · exact absurd hnil hne
  · have hargmax : argmax row = some n := congrArg (Option.map Prod.snd) hfold
    exact ⟨n, hargmax, ((argmax_eq_some_iff hne).mp hargmax).1⟩

/-- A positive temperature does not move the largest entries. -/
theorem ties_applyTemperature {t : K} (ht : 0 < t) (row : List K) :
    ties (applyTemperature row t) = ties row := by
  rw [applyTemperature]
  split
  · rfl
  rcases eq_or_ne row [] with rfl | hne
  · rfl
  have hpos : 0 < 1 / t := one_div_pos.mpr ht
  have htop : top (row.map (· * (1 / t))) = top row * (1 / t) := by
    have hne' : row.map (· * (1 / t)) ≠ [] := by simpa using hne
    refine le_antisymm ?_ (le_top (List.mem_map_of_mem (top_mem hne)))
    obtain ⟨l, hl, hlt⟩ := List.mem_map.mp (top_mem hne')
    rw [← hlt]
    exact mul_le_mul_of_nonneg_right (le_top hl) hpos.le
  rw [ties, List.zipIdx_map, List.filter_map, List.map_map, htop, ties]
  refine congrArg₂ List.map rfl (List.filter_congr (fun e _ => ?_))
  exact decide_eq_decide.mpr (mul_left_inj' hpos.ne')

/-! ## The sampler -/

omit [LinearOrder K] [IsStrictOrderedRing K] in
theorem length_scaledRow [LinearOrder K] (logits : List K) (previous : List TokenId)
    (params : SamplingParams) : (scaledRow logits previous params).length = logits.length := by
  rw [scaledRow, applyTemperature]
  split
  all_goals
    try rw [List.length_map]
    rw [applyRepetitionPenalty]
    split
    · rfl
    · refine List.length_foldl_of_length_eq (fun ls t => ?_) _ _
      split
      · rfl
      · exact List.length_set

omit [IsStrictOrderedRing K] in
theorem sampleWith_of_stochastic {params : SamplingParams} (h : params.mode = .stochastic)
    {logits : List K} (hne : logits ≠ []) (previous : List TokenId) (r : K) :
    sampleWith E r logits previous params
      = .ok (UInt32.ofNat (drawIndex E (scaledRow logits previous params) params.topK
          (params.topP.value : K) r)) := by
  have hempty : logits.isEmpty = false := by simpa using hne
  simp only [sampleWith, Sampler.sample, hempty, h]
  rfl

/-- Neither filter masks the entry at an index. -/
def Unfiltered (E : ExactArith K) (row : List K) (params : SamplingParams) (i : ℕ) : Prop :=
  ¬ MaskedByTopK row params.topK i
    ∧ ¬ MaskedByTopP E (applyTopK row params.topK) (params.topP.value : K) i

/-- **No draw returns a filtered token** exactly when an entry of the scaled
row is above the mask – and, in a row that the token ids do not reach the end
of, none that is left shares its token with a filtered one –, or none is and
top-k masks nothing that a token names. -/
theorem sample_unfiltered_iff (E : ExactArith K) (logits : List K) (hne : logits ≠ [])
    (previous : List TokenId) (params : SamplingParams) (hmode : params.mode = .stochastic) :
    (∀ r : K, 0 ≤ r → r < 1 → ∃ t, sampleWith E r logits previous params = .ok t
      ∧ t.toNat < logits.length ∧ Unfiltered E (scaledRow logits previous params) params t.toNat)
    ↔ (Above (scaledRow logits previous params)
        ∧ ∀ i l, 2 ^ 32 ≤ i → (scaledRow logits previous params)[i]? = some l → masked < l →
          Unfiltered E (scaledRow logits previous params) params i →
          Unfiltered E (scaledRow logits previous params) params (i % 2 ^ 32))
      ∨ (¬ Above (scaledRow logits previous params)
        ∧ ∀ i < logits.length, i < 2 ^ 32 →
          ¬ MaskedByTopK (scaledRow logits previous params) params.topK i) := by
  have hlen := length_scaledRow logits previous params
  have hrow : scaledRow logits previous params ≠ [] := by
    rw [← List.length_pos_iff, hlen]
    exact List.length_pos_of_ne_nil hne
  simp only [sampleWith_of_stochastic hmode hne]
  set row := scaledRow logits previous params with hrowdef
  have hdraws : (∀ r : K, 0 ≤ r → r < 1 → ∃ t,
        (Except.ok (UInt32.ofNat (drawIndex E row params.topK (params.topP.value : K) r)) :
          Except EngineError TokenId) = .ok t
        ∧ t.toNat < logits.length ∧ Unfiltered E row params t.toNat)
      ↔ ∀ i, InPlay E row params.topK (params.topP.value : K) i →
        Unfiltered E row params (i % 2 ^ 32) := by
    constructor
    · intro h i hi
      obtain ⟨r, hr, hr1, rfl⟩ := (exists_drawIndex_iff hrow).mpr hi
      obtain ⟨t, ht, -, hout⟩ := h r hr hr1
      obtain rfl := Except.ok.inj ht
      simpa using hout
    · intro h r hr hr1
      have hin := inPlay_drawIndex (E := E) (k := params.topK) (p := (params.topP.value : K))
        hrow hr hr1
      refine ⟨_, rfl, ?_, by simpa using h _ hin⟩
      have hlt : drawIndex E row params.topK (params.topP.value : K) r < row.length := by
        rcases hin with ⟨-, ⟨l, hl, -⟩, -⟩ | ⟨-, hlt⟩
        · exact (List.getElem?_eq_some_iff.mp hl).1
        · exact hlt
      rw [← hlen]
      simpa using (Nat.mod_le _ _).trans_lt hlt
  rw [hdraws]
  by_cases h : Above row
  · constructor
    · intro hall
      exact Or.inl ⟨h, fun i l _ hl hlt hout => hall i (Or.inl ⟨h, ⟨l, hl, hlt⟩, hout⟩)⟩
    · rintro (⟨-, hbig⟩ | ⟨hnot, -⟩) i hi
      · rcases hi with ⟨-, ⟨l, hl, hlt⟩, hout⟩ | ⟨hnot, -⟩
        · rcases Nat.lt_or_ge i (2 ^ 32) with hsmall | hlarge
          · rw [Nat.mod_eq_of_lt hsmall]
            exact hout
          · exact hbig i l hlarge hl hlt hout
        · exact absurd h hnot
      · exact absurd h hnot
  · -- top-p does not touch such a row
    have hp : ∀ i, ¬ MaskedByTopP E (applyTopK row params.topK) (params.topP.value : K) i := by
      intro i hm
      rw [MaskedByTopP, topPTail_of_le (not_above_applyTopK h _)] at hm
      exact absurd hm List.not_mem_nil
    constructor
    · intro hall
      refine Or.inr ⟨h, fun i hi hsmall => ?_⟩
      have := (hall i (Or.inr ⟨h, hlen ▸ hi⟩)).1
      rwa [Nat.mod_eq_of_lt hsmall] at this
    · rintro (⟨habove, -⟩ | ⟨-, hall⟩) i hi
      · exact absurd habove h
      · rcases hi with ⟨habove, -⟩ | ⟨-, hi⟩
        · exact absurd habove h
        · refine ⟨hall _ ?_ (Nat.mod_lt _ (by norm_num)), hp _⟩
          rw [← hlen]
          exact (Nat.mod_le _ _).trans_lt hi

omit [IsStrictOrderedRing K] in
theorem sampleWith_of_greedy {params : SamplingParams} (h : params.mode = .greedy)
    {logits : List K} (hne : logits ≠ []) (previous : List TokenId) (r : K) {i : ℕ}
    (hi : argmax (applyRepetitionPenalty logits previous (params.repetitionPenalty.value : K))
      = some i) : sampleWith E r logits previous params = .ok (UInt32.ofNat i) := by
  have hempty : logits.isEmpty = false := by simpa using hne
  let _ : LogitOps K := logitOps E
  have hi' : LogitOps.argmax (LogitOps.applyRepetitionPenalty logits previous
      params.repetitionPenalty) = some i := hi
  simp only [sampleWith, Sampler.sample, hempty, h]
  rw [if_neg Bool.false_ne_true, hi']

/-- **A masked entry is drawn.** The temperature takes both logits below the
mask, so that softmax is uniform over the row although top-1 has masked one
entry. -/
theorem sample_filtered :
    let params : SamplingParams := { temperature := .finite (1 / 2 ^ 100), topK := 1 }
    params.validate = .ok ()
    ∧ sampleWith ExactArith.rational (1 / 2) [-2, -3] [] params = .ok 1
    ∧ MaskedByTopK (scaledRow ([-2, -3] : List ℚ) [] params) params.topK 1 := by
  intro params
  have hscaled : scaledRow ([-2, -3] : List ℚ) [] params = [-2 * 2 ^ 100, -3 * 2 ^ 100] := by
    norm_num [scaledRow, applyTemperature, applyRepetitionPenalty, F32.value, params]
  have htop : top ([-2 * 2 ^ 100, -3 * 2 ^ 100] : List ℚ) = -2 * 2 ^ 100 := by
    norm_num [top, List.max?]
  have habove : ¬ Above ([-2 * 2 ^ 100, -3 * 2 ^ 100] : List ℚ) := by
    rw [above_iff_top (List.cons_ne_nil _ _), htop]
    norm_num [masked]
  have hmasked : MaskedByTopK ([-2 * 2 ^ 100, -3 * 2 ^ 100] : List ℚ) 1 1 := by
    refine ⟨by decide, -3 * 2 ^ 100, rfl, ?_⟩
    rw [threshold_one (by decide), htop]
    norm_num
  refine ⟨by decide +kernel, ?_, by rw [hscaled]; exact hmasked⟩
  rw [sampleWith_of_stochastic (by decide +kernel) (by simp), hscaled, drawIndex,
    applyTopP_of_le (not_above_applyTopK habove _), softmax_of_le (not_above_applyTopK habove _),
    length_applyTopK]
  have hlen := length_applyTopK ([-2 * 2 ^ 100, -3 * 2 ^ 100] : List ℚ) params.topK
  rw [List.map_const', hlen]
  decide +kernel

/-- With the default parameters the largest entry of a row of ordinary logits
is above the mask. -/
theorem sample_unfiltered_iff_two :
    ∃ t, sampleWith ExactArith.rational (1 / 2) [1, 0] [] { topK := 1 } = .ok t ∧ t.toNat < 2
      ∧ Unfiltered ExactArith.rational (scaledRow [1, 0] [] { topK := 1 })
        { topK := 1 } t.toNat := by
  refine (sample_unfiltered_iff ExactArith.rational [1, 0] (by simp) [] { topK := 1 }
    (by decide +kernel)).mpr (Or.inl ⟨⟨1, ?_, by norm_num [masked]⟩, fun i l hi hl => ?_⟩)
    (1 / 2) (by norm_num) (by norm_num)
  · norm_num [scaledRow, applyTemperature, applyRepetitionPenalty, F32.value]
  · have hlt := (List.getElem?_eq_some_iff.mp hl).1
    rw [length_scaledRow] at hlt
    simp at hlt
    omega

/-- **Top-1 is greedy on a row**: the row has one entry, or an entry is above
the mask and those of the largest ones that the nucleus leaves have the token
of the first. -/
def TopOneGreedy (E : ExactArith K) (row : List K) (p : K) : Prop :=
  row.length = 1 ∨ (Above row ∧ ∃ first, argmax row = some first
    ∧ ∀ (j i : ℕ), (tieOrder E row)[j]? = some i → (j : K) < p * (ties row).length →
      i % 2 ^ 32 = first % 2 ^ 32)

theorem draws_first_iff (hne : row ≠ []) (hp : 0 < p) {first : ℕ}
    (hfirst : argmax row = some first) :
    (∀ r : K, 0 ≤ r → r < 1 → drawIndex E row 1 p r % 2 ^ 32 = first % 2 ^ 32)
      ↔ TopOneGreedy E row p := by
  have hplay : (∀ r : K, 0 ≤ r → r < 1 → drawIndex E row 1 p r % 2 ^ 32 = first % 2 ^ 32)
      ↔ ∀ i, InPlay E row 1 p i → i % 2 ^ 32 = first % 2 ^ 32 := by
    constructor
    · intro h i hi
      obtain ⟨r, hr, hr1, rfl⟩ := (exists_drawIndex_iff hne).mpr hi
      exact h r hr hr1
    · exact fun h r hr hr1 => h _ (inPlay_drawIndex hne hr hr1)
  rw [hplay]
  have hfirst' := (argmax_eq_some_iff hne).mp hfirst
  have hin : first < row.length :=
    (List.getElem?_eq_some_iff.mp (mem_ties_iff.mp hfirst'.1)).1
  have hpos := List.length_pos_of_ne_nil hne
  by_cases hone : row.length = 1
  · refine ⟨fun _ => Or.inl hone, fun _ i hi => ?_⟩
    have hlt : i < row.length := by
      rcases hi with ⟨-, ⟨l, hl, -⟩, -⟩ | ⟨-, hlt⟩
      · exact (List.getElem?_eq_some_iff.mp hl).1
      · exact hlt
    have : i = first := by omega
    rw [this]
  · by_cases h : Above row
    · constructor
      · intro hall
        refine Or.inr ⟨h, first, hfirst, fun j i hj hlt => hall i ?_⟩
        exact (inPlay_topOne_iff h (by omega) hp).mpr ⟨j, hj, hlt⟩
      · rintro (hone' | ⟨-, first', hfirst'', hall⟩) i hi
        · exact absurd hone' hone
        · obtain rfl := Option.some.inj (hfirst.symm.trans hfirst'')
          obtain ⟨j, hj, hlt⟩ := (inPlay_topOne_iff h (by omega) hp).mp hi
          exact hall j i hj hlt
    · -- every index is in play, and two of them have different tokens
      constructor
      · intro hall
        have h₀ := hall 0 (Or.inr ⟨h, hpos⟩)
        have h₁ := hall 1 (Or.inr ⟨h, by omega⟩)
        omega
      · rintro (hone' | ⟨habove, -⟩)
        · exact absurd hone' hone
        · exact absurd habove h

end ExactSampling

/-- The temperature and the mass of a valid request. -/
theorem SamplingParams.finite_of_validate {params : SamplingParams}
    (h : params.validate = .ok ()) : ∃ t q, params.temperature = .finite t ∧ 0 ≤ t
      ∧ params.topP = .finite q ∧ 0 < q := by
  unfold SamplingParams.validate at h
  split at h
  · exact absurd h (by simp)
  next htemp =>
  split at h
  · exact absurd h (by simp)
  next htop =>
  -- a value that is not finite fails the check
  obtain ⟨t, ht⟩ : ∃ t, params.temperature = .finite t := by
    rcases hp : params.temperature with t | - | - | -
    · exact ⟨t, rfl⟩
    all_goals exact absurd (by rw [hp]; rfl) htemp
  obtain ⟨q, hq⟩ : ∃ q, params.topP = .finite q := by
    rcases hp : params.topP with q | - | - | -
    · exact ⟨q, rfl⟩
    all_goals exact absurd (by rw [hp]; rfl) htop
  refine ⟨t, q, ht, ?_, hq, ?_⟩
  · simpa [ht, F32.isFinite, F32.lt] using htemp
  · rw [hq] at htop
    simp only [F32.isFinite, F32.le, F32.lt, Bool.not_true, Bool.false_or, Bool.or_eq_true,
      Bool.not_eq_true', decide_eq_false_iff_not, decide_eq_true_iff, not_or, not_not] at htop
    exact htop.1

namespace ExactSampling

variable {K : Type*} [Field K] [LinearOrder K] [IsStrictOrderedRing K]

/-- **Top-k keeps exactly `k`, and top-1 is greedy**, each exactly when the
largest entries are told apart: the first if the `k`-th largest value and the
next one differ, the second if the nucleus leaves only entries with the token
of the first of the largest. -/
theorem topK_exact_iff (E : ExactArith K) :
    (∀ (row : List K) (k : ℕ), (∀ l ∈ row, masked < l) → 0 < k → k < row.length →
      (KeepsExactly row k ↔ (descending row)[k]? ≠ (descending row)[k - 1]?))
    ∧ ∀ (logits : List K) (previous : List TokenId) (params : SamplingParams), logits ≠ [] →
      params.validate = .ok () → params.mode = .stochastic → params.topK = 1 →
      ((∀ r : K, 0 ≤ r → r < 1 → sampleWith E r logits previous params
          = sampleWith E r logits previous { params with temperature := .finite 0 })
        ↔ TopOneGreedy E (scaledRow logits previous params) (params.topP.value : K)) := by
  refine ⟨fun row k hrow hk hlen => keepsExactly_iff hrow hk hlen, ?_⟩
  intro logits previous params hne hvalid hmode hk
  obtain ⟨t, q, ht, htnonneg, hq, hqpos⟩ := SamplingParams.finite_of_validate hvalid
  have htpos : 0 < t := by
    refine lt_of_le_of_ne htnonneg (fun hzero => ?_)
    rw [SamplingParams.mode, ht, ← hzero, if_pos rfl] at hmode
    exact absurd hmode (by decide)
  have hp : (0 : K) < (params.topP.value : K) := by
    rw [hq]
    exact Rat.cast_pos.mpr hqpos
  have hlen := length_scaledRow logits previous params
  have hrow : scaledRow logits previous params ≠ [] := by
    rw [← List.length_pos_iff, hlen]
    exact List.length_pos_of_ne_nil hne
  -- the temperature does not matter for the greedy choice
  have hties : ties (scaledRow logits previous params)
      = ties (applyRepetitionPenalty logits previous (params.repetitionPenalty.value : K)) := by
    rw [scaledRow, ht]
    exact ties_applyTemperature (Rat.cast_pos.mpr htpos) _
  obtain ⟨first, hfirst, -⟩ := exists_argmax hrow
  have hgreedy : argmax (applyRepetitionPenalty logits previous
      (params.repetitionPenalty.value : K)) = some first := by
    refine (argmax_eq_some_iff ?_).mpr (hties ▸ (argmax_eq_some_iff hrow).mp hfirst)
    rintro hnil
    have := (argmax_eq_some_iff hrow).mp hfirst
    rw [hties, hnil] at this
    exact absurd this.1 List.not_mem_nil
  rw [← draws_first_iff hrow hp hfirst]
  refine forall_congr' (fun r => forall_congr' (fun _ => forall_congr' (fun _ => ?_)))
  have hzero : ({ params with temperature := .finite 0 } : SamplingParams).mode = .greedy :=
    if_pos rfl
  rw [sampleWith_of_greedy hzero hne previous r hgreedy, sampleWith_of_stochastic hmode hne, hk,
    Except.ok.injEq, ← UInt32.toNat_inj, UInt32.toNat_ofNat', UInt32.toNat_ofNat']

/-- Two entries tied for the largest both stay with `k = 1`, and a draw of one
half returns the second where the greedy choice is the first. -/
theorem topK_keeps_ties :
    ¬ KeepsExactly ([1, 1, 0] : List ℚ) 1
    ∧ sampleWith ExactArith.rational (1 / 2) [1, 1] [] { topK := 1 } = .ok 1
    ∧ sampleWith ExactArith.rational (1 / 2) [1, 1] [] { topK := 1, temperature := .finite 0 }
        = .ok 0 := by
  refine ⟨fun h => ?_, ?_, by decide +kernel⟩
  · refine (keepsExactly_iff (by decide +kernel) one_pos (by decide)).mp h ?_
    rw [descending_of_pairwise (by decide +kernel)]
    rfl
  · have hscaled : scaledRow ([1, 1] : List ℚ) [] { topK := 1 } = [1, 1] := by decide +kernel
    have htop : applyTopK ([1, 1] : List ℚ) 1 = [1, 1] := by
      rw [applyTopK, threshold_one (by decide)]
      decide +kernel
    rw [sampleWith_of_stochastic (by decide +kernel) (by simp), hscaled, drawIndex, htop]
    decide +kernel

/-- Rows whose largest entry is attained once. -/
theorem topK_exact_iff_three :
    KeepsExactly ([2, 1, 0] : List ℚ) 1
    ∧ ∀ r : ℚ, 0 ≤ r → r < 1 → sampleWith ExactArith.rational r [2, 1, 0] [] { topK := 1 }
        = sampleWith ExactArith.rational r [2, 1, 0] []
            { topK := 1, temperature := .finite 0 } := by
  have h := topK_exact_iff ExactArith.rational
  have hscaled : scaledRow ([2, 1, 0] : List ℚ) [] { topK := 1 } = [2, 1, 0] := by decide +kernel
  have hties : ties ([2, 1, 0] : List ℚ) = [0] := by decide +kernel
  refine ⟨(h.1 [2, 1, 0] 1 (by decide +kernel) one_pos (by decide)).mpr ?_,
    (h.2 [2, 1, 0] [] { topK := 1 } (by simp) (by decide +kernel) (by decide +kernel) rfl).mpr ?_⟩
  · rw [descending_of_pairwise (by decide +kernel)]
    decide +kernel
  · rw [hscaled]
    refine Or.inr ⟨⟨2, by simp, by norm_num [masked]⟩, 0, by decide +kernel, fun j i hj _ => ?_⟩
    have hi := (tieOrder_perm _ _).subset (List.mem_of_getElem? hj)
    rw [hties, List.mem_singleton] at hi
    rw [hi]

end ExactSampling
