import Mathlib.Tactic

/-!
# Folds that lose nothing

A word-by-word digest of a list is injective in its starting state as soon
as each of its steps is, and a list changed at a single place then changes
the digest. The steps of such digests are made of rotations, exclusive ors
and multiplications by an odd constant, each of which has an inverse.
-/

namespace List

variable {α β : Type*} {f : β → α → β}

/-- **A fold is injective in its state if its steps are.** -/
theorem foldl_injective (hf : ∀ a, Function.Injective (f · a)) (l : List α) :
    Function.Injective (fun s => l.foldl f s) := by
  induction l with
  | nil => exact fun _ _ h => h
  | cons a l ih => exact fun _ _ h => hf a (ih h)

/-- **One differing element changes the fold**, whatever follows it. -/
theorem foldl_ne_of_differ_once (hf : ∀ a, Function.Injective (f · a))
    (hg : ∀ s, Function.Injective (f s)) {l l' : List α} (hlen : l.length = l'.length) {i : ℕ}
    (hi : l[i]? ≠ l'[i]?) (hother : ∀ k, k ≠ i → l[k]? = l'[k]?) (s : β) :
    l.foldl f s ≠ l'.foldl f s := by
  induction l generalizing l' i s with
  | nil =>
    obtain rfl := List.length_eq_zero_iff.mp hlen.symm
    exact absurd rfl hi
  | cons a l ih =>
    cases l' with
    | nil => simp at hlen
    | cons b l' =>
      rw [List.foldl_cons, List.foldl_cons]
      cases i with
      | zero =>
        -- the tails agree and the states in front of them do not
        have htail : l = l' := by
          refine List.ext_getElem? (fun k => ?_)
          simpa using hother (k + 1) (by omega)
        rw [← htail]
        intro hfold
        have hstate : f s a = f s b := foldl_injective hf l hfold
        exact hi (by simp [hg s hstate])
      | succ i =>
        have hhead : a = b := by simpa using hother 0 (by omega)
        rw [← hhead]
        refine ih (by simpa using hlen) (i := i) (by simpa using hi) (fun k hk => ?_) (f s a)
        simpa using hother (k + 1) (by omega)

end List

namespace BitVec

/-- **A rotation only moves bits**, so none is lost. -/
theorem rotateLeft_injective {w r : ℕ} (hr : r < w) :
    Function.Injective (fun x : BitVec w => x.rotateLeft r) := by
  intro x y h
  ext i hi
  have hbit : ∀ j (hj : j < w), (x.rotateLeft r)[j] = (y.rotateLeft r)[j] := by
    intro j hj
    rw [show x.rotateLeft r = y.rotateLeft r from h]
  by_cases hlow : i + r < w
  · -- the bit moved up by `r`
    have := hbit (i + r) hlow
    rw [BitVec.getElem_rotateLeft, BitVec.getElem_rotateLeft] at this
    simpa [Nat.mod_eq_of_lt hr] using this
  · -- the bit came round at the top
    have hj : i + r - w < w := by omega
    have := hbit (i + r - w) hj
    rw [BitVec.getElem_rotateLeft, BitVec.getElem_rotateLeft] at this
    have hwrap : i + r - w < r := by omega
    have hpos : w - r + (i + r - w) = i := by omega
    simpa [Nat.mod_eq_of_lt hr, hwrap, hpos] using this

end BitVec

namespace UInt64

/-- A constant with an inverse can be cancelled. -/
theorem mul_const_injective {c d : UInt64} (h : c * d = 1) :
    Function.Injective (fun x : UInt64 => x * c) := by
  intro x y hxy
  have := congrArg (fun z => z * d) hxy
  simpa [UInt64.mul_assoc, h] using this

theorem xor_const_injective (v : UInt64) : Function.Injective (fun x : UInt64 => x ^^^ v) := by
  intro x y hxy
  have := congrArg (fun z => z ^^^ v) hxy
  simpa [UInt64.xor_assoc] using this

theorem const_xor_injective (s : UInt64) : Function.Injective (fun x : UInt64 => s ^^^ x) := by
  intro x y hxy
  have := congrArg (fun z => s ^^^ z) hxy
  simpa [← UInt64.xor_assoc] using this

end UInt64
