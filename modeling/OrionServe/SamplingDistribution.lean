import OrionServe.StochasticSampling
import Mathlib.Data.List.GetD
import Mathlib.MeasureTheory.Measure.Lebesgue.Basic
import Mathlib.Analysis.SpecialFunctions.Exp

/-!
# The distribution a stochastic request is sampled from

With a number drawn uniformly between zero and one, the sampler returns each
token with the probability that the request asks for: the exponential of its
scaled logit over the sum of those of the tokens in play, and nothing for a
token that is not in play (`volume_sample`). Neither the largest entry, which
softmax subtracts, nor the softmax that top-p takes of the row before it has
cut it, leaves a trace in the result.

A row with nothing above the mask is drawn from uniformly.
-/

namespace ExactSampling

variable {K : Type*} [Field K] [LinearOrder K] [IsStrictOrderedRing K] {E : ExactArith K}
  {row : List K} {k : ℕ} {p : K}

/-- **The numbers that draw an index** make up its part of the distribution. -/
theorem sampleFrom_eq_iff {probs : List K} (hpos : ∀ x ∈ probs, 0 ≤ x) (hsum : probs.sum = 1)
    {r : K} (hr : 0 ≤ r) (hr1 : r < 1) {i : ℕ} : sampleFrom probs r = i
      ↔ i < probs.length ∧ (probs.take i).sum ≤ r ∧ r < (probs.take (i + 1)).sum := by
  obtain ⟨j, hj, hdraw, -⟩ := List.exists_firstCross_lt hpos hr (hsum.symm ▸ hr1)
  rw [← List.firstCross_lt_eq_some_iff hpos hr, sampleFrom, hdraw, Option.getD_some,
    Option.some.injEq]

/-! ## Shares -/

open scoped Classical in
/-- What an index in play counts for: the exponential of its entry, or the same
as any other if nothing is above the mask. -/
noncomputable def playWeight (E : ExactArith K) (row : List K) (k : ℕ) (p : K) (i : ℕ) : K :=
  if InPlay E row k p i then if Above row then E.exp (row.getD i masked) else 1 else 0

/-- **The share of an index** in a row after the temperature. -/
noncomputable def share (E : ExactArith K) (row : List K) (k : ℕ) (p : K) (i : ℕ) : K :=
  playWeight E row k p i / ∑ j ∈ Finset.range row.length, playWeight E row k p j

omit [LinearOrder K] [IsStrictOrderedRing K] in
/-- The sum over a row, index by index. -/
theorem sum_map_eq_sum_range (f : K → K) (row : List K) (d : K) :
    (row.map f).sum = ∑ i ∈ Finset.range row.length, f (row.getD i d) := by
  rw [Finset.sum_range, ← Fin.sum_univ_fun_getElem]
  refine Finset.sum_congr rfl (fun i _ => ?_)
  rw [List.getD_eq_getElem?_getD, List.getElem?_eq_getElem i.isLt, Option.getD_some]

omit [IsStrictOrderedRing K] in
/-- The entries that the filters leave are those in play. -/
theorem inPlay_iff_of_above (h : Above row) {i : ℕ} : InPlay E row k p i
    ↔ ∃ l, (applyTopP E (applyTopK row k) p)[i]? = some l ∧ masked < l := by
  constructor
  · rintro (⟨-, ⟨l, hl⟩, hk, hp⟩ | ⟨hnot, -⟩)
    · exact ⟨l, applyTopP_above_iff.mpr ⟨applyTopK_above_iff.mpr ⟨hl, hk⟩, hp⟩⟩
    · exact absurd h hnot
  · rintro ⟨l, hl⟩
    obtain ⟨hl, hp⟩ := applyTopP_above_iff.mp hl
    obtain ⟨hl, hk⟩ := applyTopK_above_iff.mp hl
    exact Or.inl ⟨h, ⟨l, hl⟩, hk, hp⟩

omit [IsStrictOrderedRing K] in
/-- The filters leave an entry in play as it is. -/
theorem getD_of_above {i : ℕ} {l : K}
    (hl : (applyTopP E (applyTopK row k) p)[i]? = some l ∧ masked < l) :
    row.getD i masked = l := by
  have hrow := (applyTopK_above_iff.mp (applyTopP_above_iff.mp hl).1).1.1
  rw [List.getD_eq_getElem?_getD, hrow, Option.getD_some]

omit [IsStrictOrderedRing K] in
/-- **The weights of softmax** are those in play, up to the largest entry. -/
theorem weight_filtered (hadd : ∀ x y, E.exp (x + y) = E.exp x * E.exp y) (h : Above row)
    (i : ℕ) :
    weight E (applyTopP E (applyTopK row k) p) ((applyTopP E (applyTopK row k) p).getD i masked)
      = playWeight E row k p i * E.exp (-top (applyTopP E (applyTopK row k) p)) := by
  by_cases hi : InPlay E row k p i
  · obtain ⟨l, hl⟩ := (inPlay_iff_of_above h).mp hi
    have hget : (applyTopP E (applyTopK row k) p).getD i masked = l := by
      rw [List.getD_eq_getElem?_getD, hl.1, Option.getD_some]
    rw [playWeight, if_pos hi, if_pos h, getD_of_above hl, hget, weight,
      if_neg (not_le.mpr hl.2), sub_eq_add_neg, hadd]
  · have hle : (applyTopP E (applyTopK row k) p).getD i masked ≤ masked := by
      rw [List.getD_eq_getElem?_getD]
      rcases hget : (applyTopP E (applyTopK row k) p)[i]? with - | l
      · exact le_rfl
      · exact not_lt.mp (fun hlt => hi ((inPlay_iff_of_above h).mpr ⟨l, hget, hlt⟩))
    rw [playWeight, if_neg hi, zero_mul, weight, if_pos hle]

omit [IsStrictOrderedRing K] in
theorem length_filtered (E : ExactArith K) (row : List K) (k : ℕ) (p : K) :
    (applyTopP E (applyTopK row k) p).length = row.length := by
  rw [applyTopP, length_maskAll, length_applyTopK]

omit [IsStrictOrderedRing K] in
theorem filtered_ne_nil (hrow : row ≠ []) : applyTopP E (applyTopK row k) p ≠ [] := by
  rw [← List.length_pos_iff, length_filtered]
  exact List.length_pos_of_ne_nil hrow

/-- **Softmax of the filtered row is the row of shares.** -/
theorem softmax_filtered (hadd : ∀ x y, E.exp (x + y) = E.exp x * E.exp y) (i : ℕ) :
    (softmax E (applyTopP E (applyTopK row k) p)).getD i 0 = share E row k p i := by
  have hlen := length_filtered E row k p
  by_cases h : Above row
  · set filtered := applyTopP E (applyTopK row k) p with hdef
    have hmasked : prob E filtered masked = 0 := by
      rw [prob, weight, if_pos le_rfl, zero_div]
    have hexp : E.exp (-top filtered) ≠ 0 := (E.exp_pos _).ne'
    -- the largest entry cancels
    calc (softmax E filtered).getD i 0
        = (filtered.map (prob E filtered)).getD i (prob E filtered masked) := by
          rw [softmax_eq_map ((h.applyTopK k).applyTopP p), hmasked]
      _ = weight E filtered (filtered.getD i masked) / (filtered.map (weight E filtered)).sum :=
          List.getD_map filtered masked (prob E filtered)
      _ = playWeight E row k p i * E.exp (-top filtered)
            / ∑ j ∈ Finset.range row.length, playWeight E row k p j * E.exp (-top filtered) := by
          rw [sum_map_eq_sum_range _ _ masked, hlen, hdef, weight_filtered hadd h]
          simp only [weight_filtered hadd h]
      _ = share E row k p i := by
          rw [← Finset.sum_mul, mul_div_mul_right _ _ hexp, share]
  · have hnot := not_above_applyTopK h k
    have hplay : ∀ j, InPlay E row k p j ↔ j < row.length :=
      fun j => ⟨fun hj => hj.resolve_left (fun ha => h ha.1) |>.2, fun hj => Or.inr ⟨h, hj⟩⟩
    have hweight : ∀ j, playWeight E row k p j = if j < row.length then 1 else 0 := by
      intro j
      rw [playWeight, if_neg h]
      simp only [hplay j]
    have hsum : ∑ j ∈ Finset.range row.length, playWeight E row k p j = row.length := by
      rw [Finset.sum_congr rfl (fun j hj => (hweight j).trans (if_pos (Finset.mem_range.mp hj))),
        Finset.sum_const, Finset.card_range, nsmul_one]
    rw [applyTopP_of_le hnot, softmax_of_le hnot, length_applyTopK, List.map_const',
      length_applyTopK, share, hsum, hweight, List.getD_eq_getElem?_getD, List.getElem?_replicate]
    split
    · rfl
    · rw [Option.getD_none, zero_div]

/-- **The shares of a row are a distribution.** -/
theorem share_distribution (hrow : row ≠ []) (hadd : ∀ x y, E.exp (x + y) = E.exp x * E.exp y) :
    (∀ i, 0 ≤ share E row k p i) ∧ ∑ i ∈ Finset.range row.length, share E row k p i = 1 := by
  obtain ⟨hpos, hsum⟩ := softmax_distribution (E := E) (filtered_ne_nil (k := k) (p := p) hrow)
  refine ⟨fun i => ?_, ?_⟩
  · rw [← softmax_filtered hadd, List.getD_eq_getElem?_getD]
    rcases hi : (softmax E (applyTopP E (applyTopK row k) p))[i]? with - | x
    · exact le_rfl
    · exact hpos x (List.mem_of_getElem? hi)
  · have hlen : (softmax E (applyTopP E (applyTopK row k) p)).length = row.length := by
      rw [← length_filtered E row k p]
      by_cases h : Above (applyTopP E (applyTopK row k) p)
      · rw [softmax_eq_map h, List.length_map]
      · rw [softmax_of_le h, List.length_map]
    rw [← List.map_id (softmax E _), sum_map_eq_sum_range _ _ 0, hlen] at hsum
    simpa only [id, softmax_filtered hadd] using hsum

/-! ## Draws -/

section Draws

open MeasureTheory

variable {E : ExactArith ℝ} {row : List ℝ} {k : ℕ} {p : ℝ}

/-- A number drawn uniformly draws each index as often as it is probable. -/
theorem volume_sampleFrom {probs : List ℝ} (hpos : ∀ x ∈ probs, 0 ≤ x) (hsum : probs.sum = 1)
    (i : ℕ) : volume {r : ℝ | (0 ≤ r ∧ r < 1) ∧ sampleFrom probs r = i}
      = ENNReal.ofReal (probs.getD i 0) := by
  have hdraws : {r : ℝ | (0 ≤ r ∧ r < 1) ∧ sampleFrom probs r = i}
      = if i < probs.length then Set.Ico (probs.take i).sum (probs.take (i + 1)).sum else ∅ := by
    ext r
    split
    · next hi =>
      rw [Set.mem_ofPred_eq, Set.mem_Ico]
      constructor
      · rintro ⟨⟨hr, hr1⟩, hdraw⟩
        exact ((sampleFrom_eq_iff hpos hsum hr hr1).mp hdraw).2
      · rintro ⟨hle, hlt⟩
        have hr : 0 ≤ r :=
          (List.sum_nonneg fun x hx => hpos x (List.mem_of_mem_take hx)).trans hle
        have hr1 : r < 1 := by
          refine hlt.trans_le (hsum ▸ ?_)
          simpa using List.sum_take_le_sum_take hpos (show i + 1 ≤ probs.length from hi)
        exact ⟨⟨hr, hr1⟩, (sampleFrom_eq_iff hpos hsum hr hr1).mpr ⟨hi, hle, hlt⟩⟩
    · next hi =>
      refine ⟨fun h => ?_, fun h => absurd h (Set.notMem_empty r)⟩
      exact absurd ((sampleFrom_eq_iff hpos hsum h.1.1 h.1.2).mp h.2).1 hi
  rw [hdraws]
  split
  · next hi =>
    rw [Real.volume_Ico, List.sum_take_succ_getD probs i hi, add_sub_cancel_left,
      List.getD_eq_getElem?_getD, List.getElem?_eq_getElem hi, Option.getD_some]
  · next hi =>
    rw [measure_empty, List.getD_eq_getElem?_getD, List.getElem?_eq_none (not_lt.mp hi),
      Option.getD_none, ENNReal.ofReal_zero]

/-- **An index is drawn as often as its share.** -/
theorem volume_drawIndex (hexp : E.exp = Real.exp) (hrow : row ≠ []) (i : ℕ) :
    volume {r : ℝ | (0 ≤ r ∧ r < 1) ∧ drawIndex E row k p r = i}
      = ENNReal.ofReal (share E row k p i) := by
  obtain ⟨hpos, hsum⟩ := softmax_distribution (E := E) (filtered_ne_nil (k := k) (p := p) hrow)
  have hadd : ∀ x y, E.exp (x + y) = E.exp x * E.exp y := hexp ▸ Real.exp_add
  rw [← softmax_filtered hadd, ← volume_sampleFrom hpos hsum]
  rfl

/-- **Each token is sampled with the probability the request asks for**: of
the numbers between zero and one, those on which a stochastic request returns
the token make up its share of the scaled row: the softmax over the entries that
top-k and top-p leave in play. The generator is taken to be uniform, and no more
than that. -/
theorem volume_sample (E : ExactArith ℝ) (hexp : E.exp = Real.exp) (logits : List ℝ)
    (hne : logits ≠ []) (hlen : logits.length ≤ 2 ^ 32) (previous : List TokenId)
    (params : SamplingParams) (hmode : params.mode = .stochastic) (t : TokenId) :
    volume {r : ℝ | (0 ≤ r ∧ r < 1) ∧ sampleWith E r logits previous params = .ok t}
      = ENNReal.ofReal (share E (scaledRow logits previous params) params.topK
          (params.topP.value : ℝ) t.toNat) := by
  have hscaled := length_scaledRow logits previous params
  have hrow : scaledRow logits previous params ≠ [] := by
    rw [← List.length_pos_iff, hscaled]
    exact List.length_pos_of_ne_nil hne
  rw [← volume_drawIndex hexp hrow]
  refine congrArg volume (Set.ext fun r => and_congr_right fun hr => ?_)
  rw [sampleWith_of_stochastic hmode hne, Except.ok.injEq, ← UInt32.toNat_inj,
    UInt32.toNat_ofNat']
  -- a row that the token ids reach the end of
  have hlt : drawIndex E (scaledRow logits previous params) params.topK
      (params.topP.value : ℝ) r < 2 ^ 32 := by
    rcases inPlay_drawIndex (E := E) (k := params.topK) (p := (params.topP.value : ℝ)) hrow
      hr.1 hr.2 with ⟨-, ⟨l, hl, -⟩, -⟩ | ⟨-, hlt⟩
    · exact ((List.getElem?_eq_some_iff.mp hl).1.trans_eq hscaled).trans_le hlen
    · exact (hlt.trans_eq hscaled).trans_le hlen
  rw [Nat.mod_eq_of_lt hlt]

/-- Real arithmetic, with a stable sort. -/
noncomputable def realArith : ExactArith ℝ where
  exp := Real.exp
  exp_pos := Real.exp_pos
  exp_strictMono := Real.exp_strictMono
  sortUnstable l := l.mergeSort (fun a b => decide (b.2 ≤ a.2))
  sort_perm l := List.mergeSort_perm l _
  sort_sorted l := by
    have hsort : (l.mergeSort (fun a b => decide (b.2 ≤ a.2))).Pairwise
        (fun a b => decide (b.2 ≤ a.2) = true) := List.pairwise_mergeSort
      (fun a b c hab hbc => by
        simp only [decide_eq_true_iff] at hab hbc ⊢
        exact hbc.trans hab)
      (fun a b => by simpa using le_total b.2 a.2) l
    simpa using hsort

/-! ### Four tokens

The exponentials of the first three are as four to two to one. With `k = 3` the
fourth is cut off, and with `p = 4/5` the third, whose share of what is left is
the last seventh. -/

/-- Their logits. -/
noncomputable def fourTwoOne : List ℝ := [4, 2, 1].map (fun n : ℕ => Real.log n) ++ [-1]

theorem fourTwoOne_eq : fourTwoOne = [Real.log 4, Real.log 2, 0, -1] := by
  simp [fourTwoOne]

theorem log_two_lt : Real.log 2 < Real.log 4 ∧ 0 < Real.log 2 ∧ (masked : ℝ) < -1 :=
  ⟨Real.log_lt_log two_pos (by norm_num), Real.log_pos (by norm_num), by norm_num [masked]⟩

/-- The fourth is not among the three largest. -/
theorem applyTopK_fourTwoOne :
    applyTopK fourTwoOne 3 = [Real.log 4, Real.log 2, 0, masked] := by
  obtain ⟨h1, h2, h3⟩ := log_two_lt
  have hsorted : descending fourTwoOne = fourTwoOne := by
    refine List.mergeSort_of_pairwise ?_
    simp [fourTwoOne_eq, h1.le, h2.le, (h2.trans h1).le]
    constructor <;> linarith
  have hthreshold : threshold fourTwoOne 3 = 0 := by
    rw [threshold, hsorted, fourTwoOne_eq]
    rfl
  rw [applyTopK, if_neg (by simp [fourTwoOne_eq]), hthreshold]
  simp [fourTwoOne_eq, not_lt.mpr h2.le, not_lt.mpr (h2.trans h1).le]

theorem exp_sub_log (x : ℝ) {y : ℝ} (hy : 0 < y) :
    realArith.exp (Real.log y - x) = y * Real.exp (-x) := by
  show Real.exp _ = _
  rw [sub_eq_add_neg, Real.exp_add, Real.exp_log hy]

theorem exp_neg_log_four : Real.exp (-Real.log 4) = 1 / 4 := by
  rw [Real.exp_neg, Real.exp_log (by norm_num), one_div]

/-- With the fourth entry masked, and the third one too or not. -/
theorem softmax_fourTwo {x w : ℝ} (hx : x ≤ 0)
    (hw : (if x ≤ masked then 0 else realArith.exp (x - Real.log 4)) = w) (hw0 : 0 ≤ w) :
    softmax realArith [Real.log 4, Real.log 2, x, masked]
      = [1 / (3 / 2 + w), 1 / 2 / (3 / 2 + w), w / (3 / 2 + w), 0] := by
  obtain ⟨h1, h2, h3⟩ := log_two_lt
  have h4 : (masked : ℝ) < Real.log 4 := by linarith
  have h5 : (masked : ℝ) < Real.log 2 := by linarith
  have hmax : [Real.log 4, Real.log 2, x, masked].max? = some (Real.log 4) := by
    rw [List.max?_eq_some_iff]
    simp [h1.le, h4.le]
    linarith
  have hfour : realArith.exp (Real.log 4 - Real.log 4) = 1 := by
    rw [sub_self]
    exact Real.exp_zero
  have htwo : realArith.exp (Real.log 2 - Real.log 4) = 1 / 2 := by
    rw [exp_sub_log _ two_pos, exp_neg_log_four]
    norm_num
  have hsum : (0 : ℝ) < 3 / 2 + w := by linarith
  simp only [softmax, hmax, if_neg (not_le.mpr h4), List.map_cons, List.map_nil,
    if_neg (not_le.mpr h5), hw, hfour, htwo, le_refl, if_true, List.sum_cons, List.sum_nil]
  have hshape : (1 : ℝ) + (1 / 2 + (w + (0 + 0))) = 3 / 2 + w := by ring
  rw [hshape, if_pos hsum, zero_div]

theorem applyTopP_fourTwoOne :
    applyTopP realArith [Real.log 4, Real.log 2, 0, masked] (4 / 5)
      = [Real.log 4, Real.log 2, masked, masked] := by
  obtain ⟨h1, h2, h3⟩ := log_two_lt
  have h4 : (masked : ℝ) < Real.log 4 := by linarith
  have h5 : (masked : ℝ) < Real.log 2 := by linarith
  have h6 : (masked : ℝ) < 0 := by linarith
  have hw : (if (0 : ℝ) ≤ masked then 0 else realArith.exp (0 - Real.log 4)) = 1 / 4 := by
    rw [if_neg (not_le.mpr h6), zero_sub]
    exact exp_neg_log_four
  have hsoftmax := softmax_fourTwo le_rfl hw (by norm_num)
  have hcandidates : candidates realArith [Real.log 4, Real.log 2, 0, masked]
      = [(0, 4 / 7), (1, 2 / 7), (2, 1 / 7)] := by
    rw [candidates, hsoftmax]
    norm_num [List.zipIdx, h4, h5, h6]
  have hsorted : realArith.sortUnstable [(0, (4 / 7 : ℝ)), (1, 2 / 7), (2, 1 / 7)]
      = [(0, 4 / 7), (1, 2 / 7), (2, 1 / 7)] := by
    refine List.mergeSort_of_pairwise ?_
    norm_num
  have hcut : cutoff [(0, (4 / 7 : ℝ)), (1, 2 / 7), (2, 1 / 7)] (4 / 5) = 2 := by
    norm_num [cutoff, List.firstCross]
  have htail : topPTail realArith [Real.log 4, Real.log 2, 0, masked] (4 / 5) = [(2, 1 / 7)] := by
    rw [topPTail, if_neg (by norm_num), hcandidates, hsorted]
    show List.drop (cutoff [(0, (4 / 7 : ℝ)), (1, 2 / 7), (2, 1 / 7)] (4 / 5)) _ = _
    rw [hcut]
    rfl
  rw [applyTopP, htail]
  rfl

/-- **The share of the second entry**, where top-k has cut off the fourth and top-p
the third. -/
theorem share_fourTwoOne : share realArith fourTwoOne 3 (4 / 5) 1 = 1 / 3 := by
  have hadd : ∀ x y, realArith.exp (x + y) = realArith.exp x * realArith.exp y := Real.exp_add
  rw [← softmax_filtered hadd, applyTopK_fourTwoOne, applyTopP_fourTwoOne,
    softmax_fourTwo (by norm_num [masked]) (if_pos le_rfl) le_rfl]
  norm_num

/-- The second of four tokens, of which top-k and top-p leave two, is drawn by a
third of the numbers. -/
theorem volume_sample_two :
    volume {r : ℝ | (0 ≤ r ∧ r < 1) ∧ sampleWith realArith r fourTwoOne []
      { topK := 3, topP := .finite (4 / 5) } = .ok 1} = ENNReal.ofReal (1 / 3) := by
  have h := volume_sample realArith rfl fourTwoOne (by simp [fourTwoOne_eq])
    (by simp [fourTwoOne_eq]) [] { topK := 3, topP := .finite (4 / 5) } (by decide +kernel) 1
  have hscaled : scaledRow fourTwoOne [] { topK := 3, topP := .finite (4 / 5) } = fourTwoOne := by
    simp [scaledRow, applyRepetitionPenalty, applyTemperature, F32.value]
  have hp : ((F32.finite (4 / 5)).value : ℝ) = 4 / 5 := by
    norm_num [F32.value]
  rw [hscaled] at h
  rw [h]
  show ENNReal.ofReal (share realArith fourTwoOne 3 ((F32.finite (4 / 5)).value : ℝ) 1) = _
  rw [hp, share_fourTwoOne]

end Draws

end ExactSampling
