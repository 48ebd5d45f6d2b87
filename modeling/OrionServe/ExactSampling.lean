import OrionServe.Lib.RunningSum
import OrionServe.Sampling

/-!
# The sampling pipeline in exact arithmetic

The penalty, the temperature, the two filters, the softmax and the draw of
`sampling.rs`, over an ordered field instead of `f32`. Two things are left
open: the exponential, of which only that it is positive and increases is
used, and the order in which an unstable sort leaves equal entries.

Filtered entries are marked by a number, `masked`, and recognized by being at
most that number. A row with an entry above it is treated as one would expect
(`softmax_eq_map`); a row without one is sampled uniformly, whatever has been
filtered (`softmax_of_le`).
-/

/-- The exponential, and the order `sort_unstable_by` leaves a list of
weighted indices in. -/
structure ExactArith (K : Type*) [Field K] [LinearOrder K] where
  exp : K → K
  exp_pos : ∀ x, 0 < exp x
  exp_strictMono : StrictMono exp
  sortUnstable : List (ℕ × K) → List (ℕ × K)
  sort_perm : ∀ l, (sortUnstable l).Perm l
  sort_sorted : ∀ l, (sortUnstable l).Pairwise (fun a b => b.2 ≤ a.2)

/-- Rational arithmetic, with a positive increasing function for the
exponential and a stable sort. -/
def ExactArith.rational : ExactArith ℚ where
  exp x := if x ≤ 0 then 1 / (1 - x) else 1 + x
  exp_pos x := by
    split
    · exact div_pos one_pos (by linarith)
    · linarith
  exp_strictMono x y hxy := by
    show (if x ≤ 0 then 1 / (1 - x) else 1 + x) < if y ≤ 0 then 1 / (1 - y) else 1 + y
    split_ifs with hx hy hy
    · exact one_div_lt_one_div_of_lt (by linarith) (by linarith)
    · have : 1 / (1 - x) ≤ 1 := (div_le_one (by linarith)).mpr (by linarith)
      linarith
    · linarith
    · linarith
  sortUnstable l := l.mergeSort (fun a b => decide (b.2 ≤ a.2))
  sort_perm l := List.mergeSort_perm l _
  sort_sorted l := by
    have hsort : (l.mergeSort (fun a b => decide (b.2 ≤ a.2))).Pairwise
        (fun a b => decide (b.2 ≤ a.2) = true) := List.pairwise_mergeSort
      (fun a b c hab hbc => by
        simp only [decide_eq_true_iff] at hab hbc ⊢
        exact hbc.trans hab)
      (fun a b => by simpa using le_total b.2 a.2) l
    simpa using hsort

namespace ExactSampling

variable {K : Type*} [Field K] [LinearOrder K] (E : ExactArith K)

/-- `MASKED`: the `f32` nearest to `-1.0e30`. -/
def masked : K := -1000000015047466219876688855040

/-- Applies a repetition penalty to tokens already present in the context,
once for each distinct one. -/
def applyRepetitionPenalty (logits : List K) (previous : List TokenId) (penalty : K) : List K :=
  if penalty = 1 then logits
  else previous.dedup.foldl (fun ls token =>
    match ls[token.toNat]? with
    | none => ls
    | some l => ls.set token.toNat (if 0 < l then l / penalty else l * penalty)) logits

/-- Scales logits by `1 / temperature`. -/
def applyTemperature (logits : List K) (temperature : K) : List K :=
  if temperature = 1 then logits else logits.map (· * (1 / temperature))

/-- The entries in descending order, as far as their values go. -/
def descending (logits : List K) : List K := logits.mergeSort (fun a b => decide (b ≤ a))

/-- The value at index `k - 1` after `select_nth_unstable_by`. -/
def threshold (logits : List K) (k : ℕ) : K := (descending logits).getD (k - 1) masked

/-- Masks all but the `k` highest logits; `k = 0` or a `k` that is not below
the length disables the filter. -/
def applyTopK (logits : List K) (k : ℕ) : List K :=
  if k = 0 ∨ logits.length ≤ k then logits
  else logits.map (fun l => if l < threshold logits k then masked else l)

/-- Numerically stable softmax. -/
def softmax (logits : List K) : List K :=
  let uniform := logits.map (fun _ => 1 / (logits.length : K))
  match logits.max? with
  | none => uniform
  | some top =>
    if top ≤ masked then uniform
    else
      let es := logits.map (fun l => if l ≤ masked then 0 else E.exp (l - top))
      if 0 < es.sum then es.map (· / es.sum) else uniform

/-- The entries that are not masked, with their indices and probabilities. -/
def candidates (logits : List K) : List (ℕ × K) :=
  (((softmax E logits).zip logits).zipIdx.filter (fun e => 0 < e.1.1 && masked < e.1.2)).map
    (fun e => (e.2, e.1.1))

/-- How many of the sorted candidates are kept: those up to the one at which
the mass reaches `p`, or all. -/
def cutoff (sorted : List (ℕ × K)) (p : K) : ℕ :=
  (((sorted.map Prod.snd).firstCross (fun c => decide (p ≤ c)) 0).map (· + 1)).getD sorted.length

/-- The candidates beyond the cutoff. -/
def topPTail (logits : List K) (p : K) : List (ℕ × K) :=
  if 1 ≤ p then []
  else if (candidates E logits).isEmpty then []
  else
    let sorted := E.sortUnstable (candidates E logits)
    sorted.drop (cutoff sorted p)

/-- Masks the tail of the distribution beyond cumulative probability `p`. -/
def applyTopP (logits : List K) (p : K) : List K :=
  (topPTail E logits p).foldl (fun ls e => ls.set e.1 masked) logits

/-- The larger of the best logit so far and the next one. -/
def better (best : Option (K × ℕ)) (e : K × ℕ) : Option (K × ℕ) :=
  match best with
  | none => some e
  | some b => if b.1 < e.1 then some e else some b

/-- Returns the index of the largest logit, the lowest one of several. -/
def argmax (logits : List K) : Option ℕ := (logits.zipIdx.foldl better none).map Prod.snd

/-- Draws an index from a probability distribution; past the end it is the
last one of positive probability. -/
def sampleFrom (probs : List K) (r : K) : ℕ :=
  (probs.firstCross (fun c => decide (r < c)) 0).getD
    (((List.range probs.length).reverse.find? (fun i => 0 < probs.getD i 0)).getD
      (probs.length - 1))

/-- **The operations of the default sampler.** -/
@[reducible] def logitOps : LogitOps K where
  applyRepetitionPenalty logits previous penalty :=
    applyRepetitionPenalty logits previous (penalty.value : K)
  applyTemperature logits temperature := applyTemperature logits (temperature.value : K)
  applyTopK := applyTopK
  applyTopP logits p := applyTopP E logits (p.value : K)
  softmax := softmax E
  argmax := argmax
  sampleFrom := sampleFrom

/-- A generator that draws a given number. -/
structure NextDraw (K : Type*) where
  next : K

instance : RngLike (NextDraw K) K where
  seedFromU64 _ := ⟨0⟩
  random g := (g, g.next)

/-- **The default sampler on a draw**: the token it returns when its generator
draws `r`. -/
def sampleWith (r : K) (logits : List K) (previous : List TokenId) (params : SamplingParams) :
    Except EngineError TokenId :=
  let _ : LogitOps K := logitOps E
  (Sampler.sample (⟨⟨r⟩⟩ : DefaultSampler (NextDraw K)) logits previous params).2

/-- Whatever the generator is, only the number it draws counts. -/
theorem sample_eq_sampleWith {R : Type*} [RngLike R K] (s : DefaultSampler R) (logits : List K)
    (previous : List TokenId) (params : SamplingParams) :
    (let _ : LogitOps K := logitOps E
     (Sampler.sample s logits previous params).2)
      = sampleWith E (RngLike.random s.rng).2 logits previous params := by
  simp only [sampleWith, Sampler.sample]
  split
  · rfl
  · split
    · split <;> rfl
    · rfl

/-- The row after the penalty and the temperature. -/
def scaledRow (logits : List K) (previous : List TokenId) (params : SamplingParams) : List K :=
  applyTemperature (applyRepetitionPenalty logits previous (params.repetitionPenalty.value : K))
    (params.temperature.value : K)

/-- The index that is drawn from a row after the temperature. -/
def drawIndex (row : List K) (k : ℕ) (p r : K) : ℕ :=
  sampleFrom (softmax E (applyTopP E (applyTopK row k) p)) r

/-! ## What softmax makes of a row -/

section Softmax

variable {E} {row : List K}

/-- A row has an entry above the mask. -/
def Above (row : List K) : Prop := ∃ l ∈ row, masked < l

/-- The largest entry. -/
def top (row : List K) : K := row.max?.getD masked

/-- What an entry weighs before the weights are normalized. -/
def weight (E : ExactArith K) (row : List K) (l : K) : K :=
  if l ≤ masked then 0 else E.exp (l - top row)

/-- The probability of an entry in a row. -/
def prob (E : ExactArith K) (row : List K) (l : K) : K :=
  weight E row l / (row.map (weight E row)).sum

theorem max?_eq_top (h : row ≠ []) : row.max? = some (top row) := by
  rw [top]
  rcases hm : row.max? with - | m
  · exact absurd (List.max?_eq_none_iff.mp hm) h
  · rfl

theorem top_mem (h : row ≠ []) : top row ∈ row := (List.max?_eq_some_iff.mp (max?_eq_top h)).1

theorem le_top {l : K} (h : l ∈ row) : l ≤ top row :=
  (List.max?_eq_some_iff.mp (max?_eq_top (List.ne_nil_of_mem h))).2 l h

theorem Above.ne_nil (h : Above row) : row ≠ [] := by
  obtain ⟨l, hl, -⟩ := h
  exact List.ne_nil_of_mem hl

theorem above_iff_top (h : row ≠ []) : Above row ↔ masked < top row :=
  ⟨fun ⟨_, hl, hlt⟩ => hlt.trans_le (le_top hl), fun hlt => ⟨top row, top_mem h, hlt⟩⟩

theorem weight_pos_iff {l : K} : 0 < weight E row l ↔ masked < l := by
  unfold weight
  split
  · next h => exact ⟨fun hlt => absurd hlt (lt_irrefl _), fun hlt => absurd h (not_le.mpr hlt)⟩
  · next h => exact ⟨fun _ => not_le.mp h, fun _ => E.exp_pos _⟩

theorem weight_nonneg (l : K) : 0 ≤ weight E row l := by
  unfold weight
  split
  · exact le_rfl
  · exact (E.exp_pos _).le

/-- **Softmax of any other row is uniform**, whatever has been filtered. -/
theorem softmax_of_le (h : ¬ Above row) :
    softmax E row = row.map (fun _ => 1 / (row.length : K)) := by
  rcases eq_or_ne row [] with rfl | hne
  · rfl
  · have htop : top row ≤ masked := not_lt.mp (fun hlt => h ((above_iff_top hne).mpr hlt))
    simp only [softmax, max?_eq_top hne, htop, if_true]

variable [IsStrictOrderedRing K]

theorem sum_weight_pos (h : Above row) : 0 < (row.map (weight E row)).sum := by
  obtain ⟨l, hl, hlt⟩ := h
  have hmem := List.mem_map_of_mem (f := weight E row) hl
  refine (weight_pos_iff.mpr hlt).trans_le (List.single_le_sum (fun x hx => ?_) _ hmem)
  obtain ⟨l', -, rfl⟩ := List.mem_map.mp hx
  exact weight_nonneg l'

/-- **Softmax of a row with an entry above the mask** depends on each entry by
itself. -/
theorem softmax_eq_map (h : Above row) : softmax E row = row.map (prob E row) := by
  have htop : ¬ top row ≤ masked := not_le.mpr ((above_iff_top h.ne_nil).mp h)
  have hes : row.map (fun l => if l ≤ masked then 0 else E.exp (l - top row))
      = row.map (weight E row) := rfl
  simp only [softmax, max?_eq_top h.ne_nil, htop, if_false, hes, sum_weight_pos h, if_true]
  rw [List.map_map]
  rfl

theorem prob_pos_iff (h : Above row) {l : K} : 0 < prob E row l ↔ masked < l := by
  rw [prob, div_pos_iff_of_pos_right (sum_weight_pos h), weight_pos_iff]

theorem prob_nonneg (l : K) : 0 ≤ prob E row l :=
  div_nonneg (weight_nonneg l) (List.sum_nonneg (fun x hx => by
    obtain ⟨l', -, rfl⟩ := List.mem_map.mp hx
    exact weight_nonneg l'))

theorem sum_prob (h : Above row) : (row.map (prob E row)).sum = 1 := by
  have hprob : prob E row = fun l => weight E row l * ((row.map (weight E row)).sum)⁻¹ :=
    funext (fun l => div_eq_mul_inv _ _)
  rw [hprob, List.sum_map_mul_right]
  exact mul_inv_cancel₀ (sum_weight_pos h).ne'

end Softmax

end ExactSampling
