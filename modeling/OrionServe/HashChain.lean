import OrionServe.BlockTable
import OrionServe.Lib.Words

/-!
# What the chained hash can tell apart

`mix` is a bijection of the state and injective in the word, so a hash never
forgets a single difference: two parents hash apart under the same tokens,
and two prompts that differ in one token hash apart from the chunk that holds
it on. A collision takes at least two differences that cancel.
-/

/-! ## One step -/

theorem toBitVec_rotateLeft5 (x : UInt64) :
    (rotateLeft5 x).toBitVec = x.toBitVec.rotateLeft 5 := by
  rw [BitVec.rotateLeft_def]
  simp [rotateLeft5]

theorem rotateLeft5_injective : Function.Injective rotateLeft5 := by
  intro x y h
  have hbits := congrArg UInt64.toBitVec h
  rw [toBitVec_rotateLeft5, toBitVec_rotateLeft5] at hbits
  exact UInt64.toBitVec_inj.mp (BitVec.rotateLeft_injective (by omega) hbits)

/-- The multiplier is odd, so it has an inverse. -/
theorem seed_mul_injective :
    Function.Injective (fun x : UInt64 => x * 0x517cc1b727220a95) :=
  UInt64.mul_const_injective (d := 0x2040003d780970bd) (by decide)

/-- **`mix` is injective in the state.** -/
theorem mix_injective_state (v : UInt64) : Function.Injective (mix · v) :=
  (seed_mul_injective.comp (UInt64.xor_const_injective v)).comp rotateLeft5_injective

/-- **`mix` is injective in the word.** -/
theorem mix_injective_value (s : UInt64) : Function.Injective (mix s) :=
  seed_mul_injective.comp (UInt64.const_xor_injective (rotateLeft5 s))

/-- One token of a chunk mixed in. -/
def mixToken (state : UInt64) (t : TokenId) : UInt64 := mix state t.toUInt64

theorem mixToken_injective_state (t : TokenId) : Function.Injective (mixToken · t) :=
  mix_injective_state t.toUInt64

/-- A token keeps its value when it is widened. -/
theorem mixToken_injective_token (s : UInt64) : Function.Injective (mixToken s) := by
  refine (mix_injective_value s).comp (fun a b h => ?_)
  have := congrArg UInt64.toNat h
  exact UInt32.toNat_inj.mp (by simpa using this)

/-! ## One chunk -/

/-- The state before the tokens of a chunk are mixed in. -/
def chunkStart (parent : Option BlockHash) (length : ℕ) : UInt64 :=
  mix (parent.elim 0xcbf29ce484222325 BlockHash.raw) (UInt64.ofNat length)

theorem raw_hashBlock (parent : Option BlockHash) (tokens : List TokenId) :
    (hashBlock parent tokens).raw = tokens.foldl mixToken (chunkStart parent tokens.length) :=
  rfl

/-- **A hash stands for its parent**: two parents hash apart under the same
tokens. -/
theorem hashBlock_injective_parent (tokens : List TokenId) :
    Function.Injective (fun h : BlockHash => hashBlock (some h) tokens) := by
  rintro ⟨a⟩ ⟨b⟩ h
  have hraw := congrArg BlockHash.raw h
  simp only [raw_hashBlock] at hraw
  have hstart : chunkStart (some ⟨a⟩) tokens.length = chunkStart (some ⟨b⟩) tokens.length :=
    List.foldl_injective mixToken_injective_state tokens hraw
  exact congrArg BlockHash.mk (mix_injective_state _ hstart)

/-- **One differing token changes the hash of its chunk.** -/
theorem hashBlock_ne_of_differ_once (parent : Option BlockHash) {s s' : List TokenId}
    (hlen : s.length = s'.length) {i : ℕ} (hi : s[i]? ≠ s'[i]?)
    (hother : ∀ k, k ≠ i → s[k]? = s'[k]?) : hashBlock parent s ≠ hashBlock parent s' := by
  intro h
  have hraw := congrArg BlockHash.raw h
  rw [raw_hashBlock, raw_hashBlock, ← hlen] at hraw
  exact List.foldl_ne_of_differ_once mixToken_injective_state mixToken_injective_token
    hlen hi hother _ hraw

/-! ## The chain -/

/-- **The chain as the fold the manager computes**, one full chunk after
another. -/
theorem chainHash_eq_foldl (blockSize : ℕ) (prompt : List TokenId) (j : ℕ)
    (hj : j < (prompt.chunks blockSize).length) :
    some (chainHash blockSize prompt j)
      = ((prompt.chunks blockSize).take (j + 1)).foldl
          (fun chain chunk => some (hashBlock chain chunk)) none := by
  induction j with
  | zero =>
    rw [List.take_succ_eq_append_getElem hj, List.take_zero, List.nil_append, List.foldl_cons,
      List.foldl_nil, List.getElem_chunks, chainHash_eq]
    rfl
  | succ j ih =>
    rw [List.take_succ_eq_append_getElem hj, List.foldl_append, ← ih (by omega), List.foldl_cons,
      List.foldl_nil, List.getElem_chunks, chainHash_eq]
    rfl

/-- **A difference once hashed is never lost.** -/
theorem chainHash_ne_of_le {blockSize : ℕ} {p q : List TokenId} {n : ℕ}
    (hn : chainHash blockSize p n ≠ chainHash blockSize q n) {j : ℕ} (hj : n ≤ j)
    (hafter : ∀ k, n < k →
      (p.drop (k * blockSize)).take blockSize = (q.drop (k * blockSize)).take blockSize) :
    chainHash blockSize p j ≠ chainHash blockSize q j := by
  induction j, hj using Nat.le_induction with
  | base => exact hn
  | succ j hj ih =>
    intro h
    rw [chainHash_eq, chainHash_eq, hafter (j + 1) (by omega)] at h
    exact ih (hashBlock_injective_parent _ h)

/-- Two prompts that agree at a range of positions share the chunk there. -/
theorem take_drop_congr {p q : List TokenId} {a w : ℕ}
    (h : ∀ k, a ≤ k → k < a + w → p[k]? = q[k]?) : (p.drop a).take w = (q.drop a).take w := by
  refine List.ext_getElem? (fun k => ?_)
  rw [List.getElem?_take, List.getElem?_take, List.getElem?_drop, List.getElem?_drop]
  split
  · exact h (a + k) (by omega) (by omega)
  · rfl

/-- The chunk that holds the differing token hashes apart, and everything
before it alike. -/
theorem chainHash_ne_at {w : ℕ} (hw : 1 ≤ w) {p q : List TokenId} {i : ℕ}
    (hlen : p.length = q.length) (hi : p[i]? ≠ q[i]?) (hother : ∀ k, k ≠ i → p[k]? = q[k]?) :
    chainHash w p (i / w) ≠ chainHash w q (i / w) := by
  have hdiv := Nat.div_add_mod i w
  have hmod := Nat.mod_lt i hw
  obtain ⟨n, hn⟩ : ∃ n, n = i / w := ⟨_, rfl⟩
  rw [← hn, Nat.mul_comm] at hdiv
  rw [← hn]
  -- the chunks before it are the same, so the chain comes in the same
  have hbefore : chainBefore w p n = chainBefore w q n := by
    cases n with
    | zero => rfl
    | succ m =>
      refine congrArg some (chainHash_congr ?_)
      have hin : (m + 1) * w ≤ i := by omega
      simpa using take_drop_congr (a := 0) (w := (m + 1) * w)
        (fun k _ hk => hother k (by omega))
  rw [chainHash_eq, chainHash_eq, hbefore]
  refine hashBlock_ne_of_differ_once _ ?_ (i := i % w) ?_ ?_
  · simp [hlen]
  · rw [List.getElem?_take_of_lt hmod, List.getElem?_take_of_lt hmod, List.getElem?_drop,
      List.getElem?_drop, hdiv]
    exact hi
  · intro k hk
    rw [List.getElem?_take, List.getElem?_take, List.getElem?_drop, List.getElem?_drop,
      hother (n * w + k) (by omega)]

/-- **A single differing token changes the chain** from the chunk that holds
it on, and no parent hash is forgotten under any tokens. Each step of the digest
is a bijection of the state, and tells any two tokens apart; two differences may
still cancel out. -/
theorem chain_ne_of_differ_once :
    (∀ (blockSize : ℕ) (p q : List TokenId) (i j : ℕ), 1 ≤ blockSize → p.length = q.length →
      p[i]? ≠ q[i]? → (∀ k, k ≠ i → p[k]? = q[k]?) →
      i / blockSize ≤ j → (j + 1) * blockSize ≤ p.length →
      ((p.chunks blockSize).take (j + 1)).foldl
          (fun chain chunk => some (hashBlock chain chunk)) none
        ≠ ((q.chunks blockSize).take (j + 1)).foldl
          (fun chain chunk => some (hashBlock chain chunk)) none)
    ∧ ∀ (tokens : List TokenId) (a b : BlockHash), a ≠ b →
      hashBlock (some a) tokens ≠ hashBlock (some b) tokens := by
  refine ⟨?_, fun tokens a b hab h => hab (hashBlock_injective_parent tokens h)⟩
  intro w p q i j hw hlen hi hother hij hfull
  have hin : ∀ l : List TokenId, l.length = p.length → j < (l.chunks w).length := by
    intro l hl
    rw [List.length_chunks, hl, Nat.lt_ceilDiv_iff_mul_lt hw]
    rw [Nat.succ_mul] at hfull
    omega
  rw [← chainHash_eq_foldl w p j (hin p rfl), ← chainHash_eq_foldl w q j (hin q hlen.symm)]
  intro h
  refine chainHash_ne_of_le (chainHash_ne_at hw hlen hi hother) hij (fun k hk => ?_)
    (Option.some.inj h)
  -- chunks after the one that holds `i` do not see the difference
  refine take_drop_congr (fun x hx _ => hother x ?_)
  have : i < (i / w + 1) * w := by
    rw [Nat.mul_comm]
    exact Nat.lt_mul_div_succ i hw
  have hle : (i / w + 1) * w ≤ k * w := Nat.mul_le_mul_right w hk
  omega

/-- `[1, 2, 3, 4]` and `[1, 9, 3, 4]` in blocks of two: both chunks hash
apart. -/
theorem chain_ne_of_differ_once_two :
    (([1, 2, 3, 4] : List TokenId).chunks 2).foldl
        (fun chain chunk => some (hashBlock chain chunk)) none
      ≠ (([1, 9, 3, 4] : List TokenId).chunks 2).foldl
        (fun chain chunk => some (hashBlock chain chunk)) none
    ∧ hashBlock (some ⟨1⟩) [7] ≠ hashBlock (some ⟨2⟩) [7] := by
  refine ⟨?_, chain_ne_of_differ_once.2 [7] ⟨1⟩ ⟨2⟩ (by decide)⟩
  exact chain_ne_of_differ_once.1 2 [1, 2, 3, 4] [1, 9, 3, 4] 1 1 (by decide) rfl (by decide)
    (by rintro (_ | _ | k) hk <;> simp_all) (by decide) (by decide)
