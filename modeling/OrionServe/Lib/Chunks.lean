import Mathlib.Tactic
import Mathlib.Algebra.Order.Floor.Div

/-!
# Cutting a list into chunks

A list cut into consecutive pieces of one width, the last one possibly
shorter, and the arithmetic of how many pieces there are. Chunk `i` is
described by its position rather than by a recursion, so a loop over the
chunks and a statement about the first `k` of them speak of the same
thing.
-/

namespace Nat

/-- **How many pieces of width `w` cover `n`**, as a bound. -/
theorem ceilDiv_le_iff_le_mul_right {w : ℕ} (hw : 0 < w) {n k : ℕ} :
    n ⌈/⌉ w ≤ k ↔ n ≤ k * w := by
  rw [ceilDiv_le_iff_le_mul hw, Nat.mul_comm]

/-- The strict companion of `Nat.ceilDiv_le_iff_le_mul_right`. -/
theorem lt_ceilDiv_iff_mul_lt {w : ℕ} (hw : 0 < w) {n k : ℕ} :
    k < n ⌈/⌉ w ↔ k * w < n := by
  rw [← not_le, ceilDiv_le_iff_le_mul_right hw, not_le]

theorem le_ceilDiv_mul {w : ℕ} (hw : 0 < w) (n : ℕ) : n ≤ n ⌈/⌉ w * w :=
  (ceilDiv_le_iff_le_mul_right hw).mp le_rfl

theorem ceilDiv_mono_left {w : ℕ} (hw : 0 < w) {a b : ℕ} (h : a ≤ b) :
    a ⌈/⌉ w ≤ b ⌈/⌉ w :=
  (ceilDiv_le_iff_le_mul_right hw).mpr (h.trans (le_ceilDiv_mul hw b))

/-- **One more element needs a new piece exactly at a boundary.** -/
theorem ceilDiv_succ {w : ℕ} (hw : 0 < w) (n : ℕ) :
    (n + 1) ⌈/⌉ w = if w ∣ n then n ⌈/⌉ w + 1 else n ⌈/⌉ w := by
  have hle : n ⌈/⌉ w ≤ (n + 1) ⌈/⌉ w := ceilDiv_mono_left hw (Nat.le_succ n)
  split
  · next h =>
    obtain ⟨k, rfl⟩ := h
    have hk : w * k ⌈/⌉ w = k := le_antisymm
      ((ceilDiv_le_iff_le_mul_right hw).mpr (by rw [Nat.mul_comm]))
      (Nat.le_of_mul_le_mul_right
        (by rw [Nat.mul_comm k w]; exact le_ceilDiv_mul hw _) hw)
    have hlt : k < (w * k + 1) ⌈/⌉ w :=
      (lt_ceilDiv_iff_mul_lt hw).mpr (by rw [Nat.mul_comm]; omega)
    have hup : (w * k + 1) ⌈/⌉ w ≤ k + 1 :=
      (ceilDiv_le_iff_le_mul_right hw).mpr (by rw [Nat.succ_mul, Nat.mul_comm]; omega)
    omega
  · next h =>
    refine le_antisymm ((ceilDiv_le_iff_le_mul_right hw).mpr ?_) hle
    refine Nat.lt_of_le_of_ne (le_ceilDiv_mul hw n) (fun hc => h ?_)
    exact ⟨n ⌈/⌉ w, by rw [Nat.mul_comm]; exact hc⟩

/-- The last piece holds between one and `w` elements. -/
theorem sub_ceilDiv_pred_mul_bounds {w : ℕ} (hw : 0 < w) {n : ℕ} (hn : 0 < n) :
    0 < n - (n ⌈/⌉ w - 1) * w ∧ n - (n ⌈/⌉ w - 1) * w ≤ w := by
  have hpos : 0 < n ⌈/⌉ w := (lt_ceilDiv_iff_mul_lt hw).mpr (by omega)
  have h₁ : (n ⌈/⌉ w - 1) * w < n := (lt_ceilDiv_iff_mul_lt hw).mp (by omega)
  have h₂ := le_ceilDiv_mul hw n
  obtain ⟨c, hc⟩ : ∃ c, n ⌈/⌉ w = c + 1 := ⟨n ⌈/⌉ w - 1, by omega⟩
  rw [hc] at h₁ h₂ ⊢
  rw [Nat.add_sub_cancel] at h₁ ⊢
  rw [Nat.succ_mul] at h₂
  omega

end Nat

namespace List

variable {α : Type*}

/-- **The consecutive pieces of width `w` of a list**, in order; only the
last may be shorter. -/
def chunks (w : ℕ) (l : List α) : List (List α) :=
  (List.range (l.length ⌈/⌉ w)).map (fun i => (l.drop (i * w)).take w)

@[simp] theorem length_chunks (w : ℕ) (l : List α) :
    (l.chunks w).length = l.length ⌈/⌉ w := by
  simp [chunks]

/-- Chunk `i` is read off its position. -/
theorem getElem_chunks (w : ℕ) (l : List α) {i : ℕ} (h : i < (l.chunks w).length) :
    (l.chunks w)[i] = (l.drop (i * w)).take w := by
  simp [chunks]

theorem getElem?_chunks {w : ℕ} {l : List α} {i : ℕ} {c : List α}
    (h : (l.chunks w)[i]? = some c) : c = (l.drop (i * w)).take w := by
  obtain ⟨hi, rfl⟩ := List.getElem?_eq_some_iff.mp h
  exact getElem_chunks w l hi

/-- **A chunk is full exactly when the list reaches its end.** -/
theorem length_take_drop_eq_iff {w : ℕ} (hw : 0 < w) (l : List α) (i : ℕ) :
    ((l.drop (i * w)).take w).length = w ↔ (i + 1) * w ≤ l.length := by
  rw [List.length_take, List.length_drop, Nat.succ_mul]
  omega

/-- The first piece, and those of the rest. -/
theorem chunks_of_ne_nil {w : ℕ} (hw : 0 < w) {l : List α} (h : l ≠ []) :
    l.chunks w = l.take w :: (l.drop w).chunks w := by
  have hcount : l.length ⌈/⌉ w = (l.length - w) ⌈/⌉ w + 1 := by
    refine le_antisymm ((Nat.ceilDiv_le_iff_le_mul_right hw).mpr ?_)
      (Nat.succ_le_of_lt ((Nat.lt_ceilDiv_iff_mul_lt hw).mpr ?_))
    · have := Nat.le_ceilDiv_mul hw (l.length - w)
      rw [Nat.succ_mul]
      omega
    · rcases Nat.eq_zero_or_pos ((l.length - w) ⌈/⌉ w) with hzero | hpos
      · rw [hzero, Nat.zero_mul]
        exact length_pos_of_ne_nil h
      · have := (Nat.lt_ceilDiv_iff_mul_lt hw (n := l.length - w)).mp (Nat.sub_one_lt_of_lt hpos)
        obtain ⟨c, hc⟩ : ∃ c, (l.length - w) ⌈/⌉ w = c + 1 :=
          ⟨_, (Nat.succ_pred_eq_of_pos hpos).symm⟩
        rw [hc, Nat.add_sub_cancel] at this
        rw [hc, Nat.succ_mul]
        omega
  rw [chunks, hcount, range_succ_eq_map, map_cons, map_map, Nat.zero_mul, drop_zero, chunks,
    length_drop]
  refine congrArg _ (map_congr_left (fun i _ => ?_))
  show (l.drop ((i + 1) * w)).take w = ((l.drop w).drop (i * w)).take w
  rw [drop_drop, Nat.succ_mul, Nat.add_comm]

@[simp] theorem chunks_nil (w : ℕ) : ([] : List α).chunks w = [] := by
  rw [← length_eq_zero_iff, length_chunks, length_nil]
  exact zero_ceilDiv w

/-- **A list is cut and joined piece by piece.** To show something of the
pieces it is enough to show it of none, and of a piece before others. -/
theorem chunks_induction {w : ℕ} (hw : 0 < w) {motive : List α → Prop} (nil : motive [])
    (step : ∀ l, l ≠ [] → motive (l.drop w) → motive l) (l : List α) : motive l := by
  induction hn : l.length using Nat.strong_induction_on generalizing l with
  | _ n ih =>
    rcases eq_or_ne l [] with rfl | hne
    · exact nil
    · have hpos := length_pos_of_ne_nil hne
      refine step l hne (ih (l.drop w).length ?_ _ rfl)
      rw [length_drop]
      omega

theorem flatten_chunks {w : ℕ} (hw : 0 < w) (l : List α) : (l.chunks w).flatten = l := by
  induction l using chunks_induction hw with
  | nil => rw [chunks_nil, flatten_nil]
  | step l hne ih => rw [chunks_of_ne_nil hw hne, flatten_cons, ih, take_append_drop]

section Pieces

variable {β : Type*} {w : ℕ} {f : List α → List β}

/-- The pieces after the first start at the width, or there are none. -/
theorem length_take_eq_or_drop_eq_nil (w : ℕ) (l : List α) :
    (l.take w).length = w ∨ ((l.take w).length ≤ w ∧ l.drop w = []) := by
  rcases Nat.le_total w l.length with h | h
  · exact Or.inl (length_take_of_le h)
  · exact Or.inr ⟨length_take_le w l, drop_eq_nil_of_le h⟩

/-- **What replaces the pieces one by one, each by as much, is cut into the
replacements.** -/
theorem chunks_flatMap (hw : 0 < w) (hf : ∀ c, (f c).length = c.length) (l : List α) :
    ((l.chunks w).flatMap f).chunks w = (l.chunks w).map f := by
  induction l using chunks_induction hw with
  | nil => rw [chunks_nil, flatMap_nil, chunks_nil, map_nil]
  | step l hne ih =>
    have hlen := hf (l.take w)
    have hpos : 0 < (l.take w).length := by
      rw [length_take]
      exact lt_min hw (length_pos_of_ne_nil hne)
    rw [chunks_of_ne_nil hw hne, flatMap_cons, map_cons, ← ih]
    have hcons : f (l.take w) ++ ((l.drop w).chunks w).flatMap f ≠ [] := by
      rw [← length_pos_iff, length_append]
      omega
    rw [chunks_of_ne_nil hw hcons]
    rcases length_take_eq_or_drop_eq_nil w l with hfull | ⟨hle, hnil⟩
    · rw [take_left' (hlen.trans hfull), drop_left' (hlen.trans hfull)]
    · rw [hnil, chunks_nil, flatMap_nil, append_nil, take_of_length_le (hlen.trans_le hle),
        drop_eq_nil_of_le (hlen.trans_le hle)]

theorem getElem?_flatMap_chunks (hw : 0 < w) (hf : ∀ c, (f c).length = c.length) (l : List α)
    (i : ℕ) : ((l.chunks w).flatMap f)[i]?
      = ((l.chunks w)[i / w]?).bind (fun c => (f c)[i % w]?) := by
  induction l using chunks_induction hw generalizing i with
  | nil => simp
  | step l hne ih =>
    have hlen := hf (l.take w)
    rw [chunks_of_ne_nil hw hne, flatMap_cons]
    rcases Nat.lt_or_ge i w with hi | hi
    · rw [Nat.div_eq_of_lt hi, Nat.mod_eq_of_lt hi, getElem?_cons_zero, Option.bind_some]
      rcases length_take_eq_or_drop_eq_nil w l with hfull | ⟨-, hnil⟩
      · rw [getElem?_append_left (by omega)]
      · rw [hnil, chunks_nil, flatMap_nil, append_nil]
    · have hdiv : i / w = (i - w) / w + 1 := Nat.div_eq_sub_div hw hi
      rw [hdiv, getElem?_cons_succ, Nat.mod_eq_sub_mod hi]
      rcases length_take_eq_or_drop_eq_nil w l with hfull | ⟨hle, hnil⟩
      · rw [getElem?_append_right (by omega), hlen, hfull, ih]
      · rw [hnil, chunks_nil, flatMap_nil, append_nil, getElem?_eq_none (by omega)]
        rfl

theorem getElem?_eq_chunk (hw : 0 < w) (l : List α) (i : ℕ) :
    l[i]? = ((l.chunks w)[i / w]?).bind (fun s => s[i % w]?) := by
  have h := getElem?_flatMap_chunks hw (f := id) (fun _ => rfl) l i
  rw [flatMap_id, flatten_chunks hw] at h
  exact h

end Pieces

end List
