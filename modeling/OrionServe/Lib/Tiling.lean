import Mathlib.Tactic

/-!
# Spans that tile an initial segment

Work on positions `0, 1, 2, …` is often done in spans, each given by where it
starts and how many positions it takes. A list of spans, the newest first,
*tiles* up to `n` when every span starts where the one before it ended, the
first of all at `0` and the last ending at `n`. Tiling spans cover an initial
segment exactly as far as they go.
-/

namespace Span

/-- The positions of a span. -/
def Contains (s : ℕ × ℕ) (q : ℕ) : Prop := s.1 ≤ q ∧ q < s.1 + s.2

instance (s : ℕ × ℕ) (q : ℕ) : Decidable (Contains s q) :=
  inferInstanceAs (Decidable (s.1 ≤ q ∧ q < s.1 + s.2))

/-- The spans reach every position below `n`. -/
def Covers (spans : List (ℕ × ℕ)) (n : ℕ) : Prop :=
  ∀ q < n, ∃ s ∈ spans, Contains s q

instance (spans : List (ℕ × ℕ)) (n : ℕ) : Decidable (Covers spans n) :=
  inferInstanceAs (Decidable (∀ q < n, ∃ s ∈ spans, Contains s q))

/-- **The spans, newest first, tile the positions below `n`.** -/
def TilesTo : List (ℕ × ℕ) → ℕ → Prop
  | [], n => n = 0
  | s :: spans, n => 0 < s.2 ∧ s.1 + s.2 = n ∧ TilesTo spans s.1

variable {spans : List (ℕ × ℕ)} {n m : ℕ}

theorem tilesTo_nil : TilesTo [] 0 := rfl

/-- One more span, from where the last one ended. -/
theorem TilesTo.cons (h : TilesTo spans n) {len : ℕ} (hpos : 0 < len) :
    TilesTo ((n, len) :: spans) (n + len) := ⟨hpos, rfl, h⟩

/-- Nothing is reached twice or from beyond the end. -/
theorem TilesTo.lt (h : TilesTo spans n) {s : ℕ × ℕ} (hs : s ∈ spans) {q : ℕ}
    (hq : Contains s q) : q < n := by
  induction spans generalizing n with
  | nil => exact absurd hs List.not_mem_nil
  | cons t spans ih =>
    obtain ⟨-, hend, hrest⟩ := h
    rcases List.mem_cons.mp hs with rfl | hs
    · exact hend ▸ hq.2
    · exact (ih hrest hs).trans_le (hend ▸ Nat.le_add_right _ _)

theorem TilesTo.covers (h : TilesTo spans n) : Covers spans n := by
  induction spans generalizing n with
  | nil =>
    intro q hq
    exact absurd (h ▸ hq) (Nat.not_lt_zero q)
  | cons t spans ih =>
    obtain ⟨-, hend, hrest⟩ := h
    intro q hq
    rcases Nat.lt_or_ge q t.1 with hlt | hge
    · obtain ⟨s, hs, hc⟩ := ih hrest q hlt
      exact ⟨s, List.mem_cons_of_mem _ hs, hc⟩
    · exact ⟨t, List.mem_cons_self, hge, hend ▸ hq⟩

/-- Together they are as long as they reach. -/
theorem TilesTo.sum (h : TilesTo spans n) : (spans.map Prod.snd).sum = n := by
  induction spans generalizing n with
  | nil => exact h.symm
  | cons t spans ih =>
    obtain ⟨-, hend, hrest⟩ := h
    rw [List.map_cons, List.sum_cons, ih hrest, Nat.add_comm, hend]

/-- The oldest of them starts at `0`. -/
theorem TilesTo.getLast (h : TilesTo spans n) (hn : 0 < n) :
    ∃ s, spans.getLast? = some s ∧ s.1 = 0 := by
  induction spans generalizing n with
  | nil => exact absurd h hn.ne'
  | cons t spans ih =>
    obtain ⟨-, -, hrest⟩ := h
    rcases Nat.eq_zero_or_pos t.1 with hzero | hpos
    · rcases spans with - | ⟨u, spans⟩
      · exact ⟨t, rfl, hzero⟩
      · -- nothing positive tiles up to where this one starts
        obtain ⟨hlen, hend, -⟩ := hrest
        omega
    · obtain ⟨s, hs, hzero⟩ := ih hrest hpos
      refine ⟨s, ?_, hzero⟩
      rw [List.getLast?_cons, hs]
      rfl

/-- **Tiling spans cover as far as they go and no further.** -/
theorem TilesTo.covers_iff (h : TilesTo spans n) : Covers spans m ↔ m ≤ n := by
  constructor
  · intro hc
    by_contra hlt
    obtain ⟨s, hs, hq⟩ := hc n (not_le.mp hlt)
    exact absurd (h.lt hs hq) (lt_irrefl n)
  · exact fun hle q hq => h.covers q (hq.trans_le hle)

end Span
