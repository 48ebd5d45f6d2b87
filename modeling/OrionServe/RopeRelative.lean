import OrionServe.Tensor
import Mathlib.Analysis.SpecialFunctions.Trigonometric.Basic

/-!
# Rotary embedding in exact arithmetic

The in-place loop of `apply_rope` is described by what it leaves at every
index (`applyRope_eq`): it reads no scalar that it has already overwritten, so
index `i` and index `i + half` come from the pair they had at first. Over the
reals each pair is then turned by the angle of its position, and the dot
product of two rotated vectors depends on the difference of their angles only.
-/

open Tensor Scalars

namespace Tensor

section Loop

variable {F D : Type*} [Scalars F D] {vec cos sin : List F}

/-- What the loop leaves in the first half of a pair. -/
def rotatedLow (vec cos sin : List F) (half i : ℕ) : F :=
  sub (mul (vec.getD i zero) (cos.getD i zero)) (mul (vec.getD (i + half) zero) (sin.getD i zero))

/-- What the loop leaves in the second half of a pair. -/
def rotatedHigh (vec cos sin : List F) (half i : ℕ) : F :=
  add (mul (vec.getD i zero) (sin.getD i zero)) (mul (vec.getD (i + half) zero) (cos.getD i zero))

/-- One turn of the loop. -/
def rotatePair (cos sin : List F) (half : ℕ) (v : List F) (i : ℕ) : List F :=
  (v.set i (rotatedLow v cos sin half i)).set (i + half) (rotatedHigh v cos sin half i)

theorem length_rotatePairs (half : ℕ) (is : List ℕ) :
    (is.foldl (rotatePair cos sin half) vec).length = vec.length := by
  induction is generalizing vec with
  | nil => rfl
  | cons i is ih => rw [List.foldl_cons, ih, rotatePair, List.length_set, List.length_set]

/-- **The loop after `j` turns**: the first `j` pairs are rotated and nothing
else has changed. -/
theorem getElem?_rotatePairs {half : ℕ} (hlen : vec.length = half + half) {j : ℕ}
    (hj : j ≤ half) (x : ℕ) :
    ((List.range j).foldl (rotatePair cos sin half) vec)[x]?
      = if x < j then some (rotatedLow vec cos sin half x)
        else if half ≤ x ∧ x < half + j then some (rotatedHigh vec cos sin half (x - half))
        else vec[x]? := by
  induction j generalizing x with
  | zero =>
    rw [List.range_zero, List.foldl_nil, if_neg (by omega), if_neg (by omega)]
  | succ j ih =>
    have hprev := ih (by omega)
    rw [List.range_succ, List.foldl_append, List.foldl_cons, List.foldl_nil]
    set v := (List.range j).foldl (rotatePair cos sin half) vec with hv
    -- the pair is still the one it was at first
    have hget : ∀ y, ¬ y < j → ¬ (half ≤ y ∧ y < half + j) → v.getD y zero = vec.getD y zero := by
      intro y h₁ h₂
      rw [List.getD_eq_getElem?_getD, List.getD_eq_getElem?_getD, hprev y, if_neg h₁, if_neg h₂]
    have hlow : rotatedLow v cos sin half j = rotatedLow vec cos sin half j := by
      unfold rotatedLow
      rw [hget j (by omega) (by omega), hget (j + half) (by omega) (by omega)]
    have hhigh : rotatedHigh v cos sin half j = rotatedHigh vec cos sin half j := by
      unfold rotatedHigh
      rw [hget j (by omega) (by omega), hget (j + half) (by omega) (by omega)]
    have hvlen : v.length = half + half := (length_rotatePairs half _).trans hlen
    rw [rotatePair, hlow, hhigh, List.getElem?_set, List.getElem?_set]
    by_cases hx : j + half = x
    · subst hx
      rw [if_pos rfl, if_pos (by rw [List.length_set, hvlen]; omega), if_neg (by omega),
        if_pos (by omega), Nat.add_sub_cancel]
    rw [if_neg hx]
    by_cases hx' : j = x
    · subst hx'
      rw [if_pos rfl, if_pos (by rw [hvlen]; omega), if_pos (by omega)]
    rw [if_neg hx', hprev x]
    by_cases h₁ : x < j
    · rw [if_pos h₁, if_pos (by omega)]
    rw [if_neg h₁, if_neg (show ¬ x < j + 1 by omega)]
    by_cases h₂ : half ≤ x ∧ x < half + j
    · rw [if_pos h₂, if_pos (by omega)]
    · rw [if_neg h₂, if_neg (by omega)]

/-- **Rotating a vector**: the first halves of the pairs, then the second
ones. -/
theorem applyRope_eq {half : ℕ} (hlen : vec.length = half + half) (hcos : cos.length = half)
    (hsin : sin.length = half) :
    applyRope vec cos sin = .ok ((List.range half).map (rotatedLow vec cos sin half)
      ++ (List.range half).map (rotatedHigh vec cos sin half)) := by
  have hhalf : vec.length / 2 = half := by omega
  unfold applyRope
  simp only [hhalf, hcos, hsin, ne_eq, not_true_eq_false, or_self, if_false]
  refine congrArg Except.ok (List.ext_getElem? (fun x => ?_))
  refine (getElem?_rotatePairs hlen le_rfl x).trans ?_
  by_cases h₁ : x < half
  · rw [if_pos h₁, List.getElem?_append_left (by simpa using h₁), List.getElem?_map,
      List.getElem?_range h₁]
    rfl
  rw [if_neg h₁, List.getElem?_append_right (by simpa using not_lt.mp h₁), List.length_map,
    List.length_range]
  by_cases h₂ : half ≤ x ∧ x < half + half
  · rw [if_pos h₂, List.getElem?_map, List.getElem?_range (by omega)]
    rfl
  · rw [if_neg h₂, List.getElem?_eq_none (by omega), List.getElem?_eq_none (by simp; omega)]

/-- The rotation of a vector for a position of the table. -/
def RopeTable.Rotates (t : RopeTable F) (pos : ℕ) (vec out : List F) : Prop :=
  ∃ cos sin, t.atPosition pos = some (cos, sin) ∧ applyRope vec cos sin = .ok out

/-- **A row of the table**: the cosines and sines of one position. -/
theorem RopeTable.atPosition_new {headDim maxPositions : ℕ} {theta : F} {t : RopeTable F}
    (ht : RopeTable.new headDim maxPositions theta = .ok t) {pos : ℕ}
    (hpos : pos < maxPositions) :
    headDim = headDim / 2 + headDim / 2 ∧
    t.atPosition pos
      = some ((List.range (headDim / 2)).map (fun i => Scalars.cos (angle headDim theta pos i)),
          (List.range (headDim / 2)).map (fun i => Scalars.sin (angle headDim theta pos i))) := by
  unfold RopeTable.new at ht
  split at ht
  · exact absurd ht (by simp)
  next heven =>
  obtain rfl := Except.ok.inj ht
  refine ⟨by omega, ?_⟩
  have hrow : ∀ f : F → F, (((List.range maxPositions).flatMap (fun p =>
      (List.range (headDim / 2)).map (angle headDim theta p))).map f).slice
        (pos * (headDim / 2)) (headDim / 2)
      = (List.range (headDim / 2)).map (fun i => f (angle headDim theta pos i)) := by
    intro f
    rw [List.map_flatMap]
    refine (List.slice_flatMap (r := pos) (fun p _ => by simp) ?_).trans ?_
    · exact List.getElem?_range hpos
    · rw [List.map_map]
      rfl
  unfold RopeTable.atPosition
  rw [if_neg (not_le.mpr hpos)]
  simp only [hrow]

end Loop

/-! ## Over the reals -/

/-- The scalars are the reals, with exact arithmetic and the real cosine and
sine. Nothing is said of powers and quotients, from which the frequencies are
made: they may be any. -/
class ExactReals (D : outParam (Type*)) [Scalars ℝ D] : Prop where
  zero_eq : (zero : ℝ) = 0
  ofNat_eq : ∀ n : ℕ, (Scalars.ofNat n : ℝ) = n
  add_eq : ∀ x y : ℝ, add x y = x + y
  sub_eq : ∀ x y : ℝ, sub x y = x - y
  mul_eq : ∀ x y : ℝ, mul x y = x * y
  cos_eq : ∀ x : ℝ, Scalars.cos x = Real.cos x
  sin_eq : ∀ x : ℝ, Scalars.sin x = Real.sin x

section Exact

variable {D : Type*} [Scalars ℝ D] [ExactReals D]

theorem dot_eq_sum (xs ys : List ℝ) :
    dot xs ys = ((xs.zip ys).map (fun p => p.1 * p.2)).sum := by
  have hfold : ∀ (l : List (ℝ × ℝ)) (a : ℝ),
      l.foldl (fun acc p => add acc (mul p.1 p.2)) a = a + (l.map (fun p => p.1 * p.2)).sum := by
    intro l
    induction l with
    | nil => simp
    | cons p l ih =>
      intro a
      rw [List.foldl_cons, ih, List.map_cons, List.sum_cons, ExactReals.add_eq,
        ExactReals.mul_eq]
      ring
  rw [dot, hfold, ExactReals.zero_eq, zero_add]

theorem sum_map_range (n : ℕ) (f : ℕ → ℝ) :
    ((List.range n).map f).sum = ∑ i ∈ Finset.range n, f i := by
  induction n with
  | zero => rfl
  | succ n ih => rw [List.range_succ, List.map_append, List.sum_append, ih, Finset.sum_range_succ,
      List.map_singleton, List.sum_singleton]

/-- The dot product of two vectors given by their halves. -/
theorem dot_halves (half : ℕ) (a b a' b' : ℕ → ℝ) :
    dot ((List.range half).map a ++ (List.range half).map b)
        ((List.range half).map a' ++ (List.range half).map b')
      = ∑ i ∈ Finset.range half, (a i * a' i + b i * b' i) := by
  rw [dot_eq_sum, List.zip_append (by simp), List.map_append, List.sum_append,
    List.zip_map', List.zip_map', List.map_map, List.map_map, Finset.sum_add_distrib,
    ← sum_map_range, ← sum_map_range]
  rfl

/-- The angle of a position is the position times a frequency. -/
theorem angle_add (headDim : ℕ) (theta : ℝ) (pos d i : ℕ) :
    RopeTable.angle headDim theta (pos + d) i
      = RopeTable.angle headDim theta pos i + RopeTable.angle headDim theta d i := by
  have hmul : ∀ p : ℕ, RopeTable.angle headDim theta p i
      = p * div one (powf theta (div (mul (Scalars.ofNat 2) (Scalars.ofNat i))
        (Scalars.ofNat headDim))) := by
    intro p
    rw [RopeTable.angle, ExactReals.mul_eq (Scalars.ofNat p), ExactReals.ofNat_eq p]
  rw [hmul, hmul, hmul, Nat.cast_add, add_mul]

/-- A pair turned by its angle. -/
noncomputable def turnLow (vec : List ℝ) (half : ℕ) (angle : ℕ → ℝ) (i : ℕ) : ℝ :=
  vec.getD i 0 * Real.cos (angle i) - vec.getD (i + half) 0 * Real.sin (angle i)

noncomputable def turnHigh (vec : List ℝ) (half : ℕ) (angle : ℕ → ℝ) (i : ℕ) : ℝ :=
  vec.getD i 0 * Real.sin (angle i) + vec.getD (i + half) 0 * Real.cos (angle i)

theorem rotatedLow_exact {vec cos sin : List ℝ} {half i : ℕ} {angle : ℕ → ℝ}
    (hcos : cos.getD i 0 = Real.cos (angle i)) (hsin : sin.getD i 0 = Real.sin (angle i)) :
    rotatedLow vec cos sin half i = turnLow vec half angle i := by
  rw [rotatedLow, ExactReals.sub_eq, ExactReals.mul_eq, ExactReals.mul_eq, ExactReals.zero_eq,
    hcos, hsin]
  rfl

theorem rotatedHigh_exact {vec cos sin : List ℝ} {half i : ℕ} {angle : ℕ → ℝ}
    (hcos : cos.getD i 0 = Real.cos (angle i)) (hsin : sin.getD i 0 = Real.sin (angle i)) :
    rotatedHigh vec cos sin half i = turnHigh vec half angle i := by
  rw [rotatedHigh, ExactReals.add_eq, ExactReals.mul_eq, ExactReals.mul_eq, ExactReals.zero_eq,
    hcos, hsin]
  rfl

/-- **A vector at a position**: every pair is turned by the angle of that
position. -/
theorem rotates_iff {headDim maxPositions : ℕ} {theta : ℝ} {t : RopeTable ℝ}
    (ht : RopeTable.new headDim maxPositions theta = .ok t) {pos : ℕ}
    (hpos : pos < maxPositions) {vec : List ℝ} (hlen : vec.length = headDim) {out : List ℝ} :
    t.Rotates pos vec out ↔ out
      = (List.range (headDim / 2)).map
          (turnLow vec (headDim / 2) (RopeTable.angle headDim theta pos))
        ++ (List.range (headDim / 2)).map
          (turnHigh vec (headDim / 2) (RopeTable.angle headDim theta pos)) := by
  obtain ⟨heven, hrow⟩ := RopeTable.atPosition_new ht hpos
  set half := headDim / 2 with hhalf
  set α := RopeTable.angle headDim theta pos with hα
  obtain ⟨cs, hcs⟩ : ∃ cs, cs = (List.range half).map (fun i => Scalars.cos (α i)) := ⟨_, rfl⟩
  obtain ⟨sn, hsn⟩ : ∃ sn, sn = (List.range half).map (fun i => Scalars.sin (α i)) := ⟨_, rfl⟩
  rw [← hcs, ← hsn] at hrow
  have happly := applyRope_eq (hlen.trans heven) (show cs.length = half by simp [hcs])
    (show sn.length = half by simp [hsn])
  have hcos : ∀ i ∈ List.range half, cs.getD i 0 = Real.cos (α i) := by
    intro i hi
    simp [hcs, List.getD_eq_getElem?_getD, List.mem_range.mp hi, ExactReals.cos_eq]
  have hsin : ∀ i ∈ List.range half, sn.getD i 0 = Real.sin (α i) := by
    intro i hi
    simp [hsn, List.getD_eq_getElem?_getD, List.mem_range.mp hi, ExactReals.sin_eq]
  have hlow : (List.range half).map (rotatedLow vec cs sn half)
      = (List.range half).map (turnLow vec half α) :=
    List.map_congr_left (fun i hi => rotatedLow_exact (hcos i hi) (hsin i hi))
  have hhigh : (List.range half).map (rotatedHigh vec cs sn half)
      = (List.range half).map (turnHigh vec half α) :=
    List.map_congr_left (fun i hi => rotatedHigh_exact (hcos i hi) (hsin i hi))
  rw [hlow, hhigh] at happly
  constructor
  · rintro ⟨cos, sin, hat, hout⟩
    obtain ⟨rfl, rfl⟩ := Prod.ext_iff.mp (Option.some.inj (hrow.symm.trans hat))
    exact Except.ok.inj (hout.symm.trans happly)
  · rintro rfl
    exact ⟨_, _, hrow, happly⟩

/-- Two pairs turned by angles: their dot product knows the difference of the
angles only. -/
theorem turn_mul_turn (x y x' y' α β : ℝ) :
    (x * Real.cos α - y * Real.sin α) * (x' * Real.cos β - y' * Real.sin β)
      + (x * Real.sin α + y * Real.cos α) * (x' * Real.sin β + y' * Real.cos β)
    = (x * x' + y * y') * Real.cos (α - β) + (x * y' - y * x') * Real.sin (α - β) := by
  rw [Real.cos_sub, Real.sin_sub]
  ring

/-- The dot product of two rotated vectors. -/
theorem dot_turn (q k : List ℝ) (half : ℕ) (α β : ℕ → ℝ) :
    dot ((List.range half).map (turnLow q half α) ++ (List.range half).map (turnHigh q half α))
        ((List.range half).map (turnLow k half β) ++ (List.range half).map (turnHigh k half β))
      = ∑ i ∈ Finset.range half,
        ((q.getD i 0 * k.getD i 0 + q.getD (i + half) 0 * k.getD (i + half) 0)
            * Real.cos (α i - β i)
          + (q.getD i 0 * k.getD (i + half) 0 - q.getD (i + half) 0 * k.getD i 0)
            * Real.sin (α i - β i)) := by
  rw [dot_halves]
  exact Finset.sum_congr rfl (fun i _ => turn_mul_turn _ _ _ _ _ _)

/-- A vector is its two halves. -/
theorem eq_halves {vec : List ℝ} {half : ℕ} (hlen : vec.length = half + half) :
    vec = (List.range half).map (fun i => vec.getD i 0)
      ++ (List.range half).map (fun i => vec.getD (i + half) 0) := by
  refine List.ext_getElem (by simp [hlen]) (fun x hx _ => ?_)
  by_cases h : x < half
  · rw [List.getElem_append_left (by simpa using h)]
    simp [List.getD_eq_getElem?_getD, hx]
  · rw [List.getElem_append_right (by simpa using not_lt.mp h)]
    simp [List.getD_eq_getElem?_getD, Nat.sub_add_cancel (not_lt.mp h), hx]

/-- The Euclidean norm of a vector. -/
noncomputable def euclideanNorm (vec : List ℝ) : ℝ := √((vec.map (fun x => x ^ 2)).sum)

theorem euclideanNorm_eq_dot (vec : List ℝ) : euclideanNorm vec = √(dot vec vec) := by
  have hzip : vec.zip vec = vec.map (fun x => (x, x)) := by
    simpa using List.zip_map' (f := fun x : ℝ => x) (g := fun x : ℝ => x) (l := vec)
  rw [dot_eq_sum, hzip, List.map_map]
  refine congrArg (fun l : List ℝ => √l.sum) (List.map_congr_left (fun x _ => ?_))
  exact sq x

/-- **Scores depend on the relative position only**, and a rotation keeps the
norm. Every position below the table's end has its rotation. The halves of a
vector are its coordinates in planes, and in each a position is an angle. -/
theorem rope_relative {headDim maxPositions : ℕ} {theta : ℝ} {t : RopeTable ℝ}
    (ht : RopeTable.new headDim maxPositions theta = .ok t) {q k : List ℝ}
    (hq : q.length = headDim) (hk : k.length = headDim) (m n d : ℕ) (hm : m + d < maxPositions)
    (hn : n + d < maxPositions) :
    ∃ q₀ k₀ q₁ k₁, (t.Rotates m q q₀ ∧ t.Rotates n k k₀)
      ∧ (t.Rotates (m + d) q q₁ ∧ t.Rotates (n + d) k k₁)
      ∧ dot q₁ k₁ = dot q₀ k₀
      ∧ euclideanNorm q₀ = euclideanNorm q := by
  have hm₀ : m < maxPositions := by omega
  have hn₀ : n < maxPositions := by omega
  obtain ⟨heven, -⟩ := RopeTable.atPosition_new ht hm₀
  refine ⟨_, _, _, _, ⟨(rotates_iff ht hm₀ hq).mpr rfl, (rotates_iff ht hn₀ hk).mpr rfl⟩,
    ⟨(rotates_iff ht hm hq).mpr rfl, (rotates_iff ht hn hk).mpr rfl⟩, ?_, ?_⟩
  · rw [dot_turn, dot_turn]
    refine Finset.sum_congr rfl (fun i _ => ?_)
    rw [angle_add, angle_add, add_sub_add_right_eq_sub]
  · rw [euclideanNorm_eq_dot, euclideanNorm_eq_dot, dot_turn]
    refine congrArg Real.sqrt ?_
    conv_rhs => rw [eq_halves (hq.trans heven)]
    rw [dot_halves]
    refine Finset.sum_congr rfl (fun i _ => ?_)
    rw [sub_self, Real.cos_zero, Real.sin_zero, mul_one, mul_zero, add_zero]

end Exact

open Classical in
/-- Real arithmetic. There is no infinity; no rotation reads it. -/
@[reducible] noncomputable def realScalars : Scalars ℝ ℝ where
  zero := 0
  one := 1
  negInfinity := 0
  ofNat n := n
  add := (· + ·)
  sub := (· - ·)
  mul := (· * ·)
  div := (· / ·)
  powf := (· ^ ·)
  max := max
  neg x := -x
  sqrt := Real.sqrt
  exp := Real.exp
  cos := Real.cos
  sin := Real.sin
  isFinite _ := true
  isZero x := decide (x = 0)
  isPositive x := decide (0 < x)
  widen x := x
  narrow x := x
  wideZero := 0
  wideOne := 1
  wideOfNat n := n
  wideAdd := (· + ·)
  wideMul := (· * ·)
  wideDiv := (· / ·)
  wideSqrt := Real.sqrt

theorem exactReals_realScalars : @ExactReals ℝ realScalars :=
  @ExactReals.mk ℝ realScalars rfl (fun _ => rfl) (fun _ _ => rfl) (fun _ _ => rfl)
    (fun _ _ => rfl) (fun _ => rfl) (fun _ => rfl)

/-- Two vectors of width two at positions 3 and 1, and both shifted by 4. -/
theorem rope_relative_shifted :
    let _ : Scalars ℝ ℝ := realScalars
    ∃ (t : RopeTable ℝ) (q₀ k₀ q₁ k₁ : List ℝ), RopeTable.new 2 8 10000 = .ok t
      ∧ (t.Rotates 3 [1, 2] q₀ ∧ t.Rotates 1 [5, 7] k₀)
      ∧ (t.Rotates 7 [1, 2] q₁ ∧ t.Rotates 5 [5, 7] k₁)
      ∧ dot q₁ k₁ = dot q₀ k₀ ∧ euclideanNorm q₀ = euclideanNorm [1, 2] := by
  intro inst
  have _ : ExactReals ℝ := exactReals_realScalars
  obtain ⟨q₀, k₀, q₁, k₁, h⟩ := rope_relative
    (show RopeTable.new 2 8 (10000 : ℝ) = .ok _ from rfl) (q := [1, 2]) (k := [5, 7]) rfl rfl
    3 1 4 (by decide) (by decide)
  exact ⟨_, q₀, k₀, q₁, k₁, rfl, h⟩

end Tensor
