import Mathlib.Tactic

/-!
# Machine arithmetic in two builds

A product or a sum of machine words that leaves the word is a panic in a
build with overflow checks, and wraps around in one without. Code written
over a `Build` has both meanings; where the checked one has a result, the
other one has the same.
-/

namespace Usize

/-- How a build computes with machine words. -/
structure Build (M : Type → Type) where
  mul : ℕ → ℕ → M ℕ
  add : ℕ → ℕ → M ℕ

/-- The result if it fits in a word. -/
def fit (n : ℕ) : Option ℕ := if n < 2 ^ 64 then some n else none

/-- With overflow checks; `none` is a panic. -/
def checked : Build Option := ⟨fun a b => fit (a * b), fun a b => fit (a + b)⟩

/-- Without overflow checks. -/
def wrapping : Build Id := ⟨fun a b => a * b % 2 ^ 64, fun a b => (a + b) % 2 ^ 64⟩

theorem fit_eq_some_iff {n m : ℕ} : fit n = some m ↔ n < 2 ^ 64 ∧ m = n := by
  unfold fit
  split <;> simp_all [eq_comm]

theorem fit_of_lt {n : ℕ} (h : n < 2 ^ 64) : fit n = some n := if_pos h

/-- A product that fits. -/
theorem checked_mul {a b : ℕ} (h : a * b < 2 ^ 64) : checked.mul a b = some (a * b) := fit_of_lt h

/-- A sum that fits. -/
theorem checked_add {a b : ℕ} (h : a + b < 2 ^ 64) : checked.add a b = some (a + b) := fit_of_lt h

theorem checked_mul_eq_some_iff {a b c : ℕ} :
    checked.mul a b = some c ↔ a * b < 2 ^ 64 ∧ c = a * b := fit_eq_some_iff

end Usize
