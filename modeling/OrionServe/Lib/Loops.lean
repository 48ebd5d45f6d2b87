import Mathlib.Tactic

/-!
# Loops with an explicit exit

The body of an unconditional `loop` either goes round again with a new state
or leaves with a result. It may differ from one iteration to the next – when
it asks somebody whose answers change, say – so it is indexed by the
iteration. `Loop.runFrom` runs it for so many iterations at most and says
`none` when these do not suffice; a measure that every further round
decreases bounds them.
-/

namespace Loop

variable {σ ρ : Type*} {body : ℕ → σ → σ ⊕ ρ} {m : σ → ℕ}

/-- The loop from iteration `i` on, for so many iterations at most. -/
def runFrom (body : ℕ → σ → σ ⊕ ρ) (i : ℕ) : ℕ → σ → Option ρ
  | 0, _ => none
  | n + 1, s =>
    match body i s with
    | .inl s' => runFrom body (i + 1) n s'
    | .inr r => some r

/-- Every round that is not the last decreases the measure. -/
def Decreases (m : σ → ℕ) (body : ℕ → σ → σ ⊕ ρ) : Prop :=
  ∀ i s s', body i s = .inl s' → m s' < m s

/-- **Termination**: more iterations than the measure says are enough. -/
theorem runFrom_isSome (h : Decreases m body) {n : ℕ} :
    ∀ (i : ℕ) (s : σ), m s < n → (runFrom body i n s).isSome := by
  induction n with
  | zero => exact fun _ _ hlt => absurd hlt (Nat.not_lt_zero _)
  | succ n ih =>
    intro i s hlt
    unfold runFrom
    split
    · next s' hs => exact ih (i + 1) s' (lt_of_lt_of_le (h i s s' hs) (Nat.lt_succ_iff.mp hlt))
    · rfl

/-- **Agreement**: a function that unfolds the way the loop goes round is what
the loop computes. -/
theorem runFrom_eq_of_unfold {step : σ → σ ⊕ ρ} {f : σ → ρ}
    (hf : ∀ s, f s = Sum.elim f id (step s)) {n : ℕ} :
    ∀ (i : ℕ) (s : σ) {r : ρ}, runFrom (fun _ => step) i n s = some r → r = f s := by
  induction n with
  | zero => exact fun _ _ _ hr => absurd hr (by simp [runFrom])
  | succ n ih =>
    intro i s r hr
    rw [hf s]
    unfold runFrom at hr
    split at hr
    · next s' hs =>
      rw [hs]
      exact ih (i + 1) s' hr
    · next r' hs =>
      rw [hs]
      exact (Option.some.inj hr).symm

end Loop
