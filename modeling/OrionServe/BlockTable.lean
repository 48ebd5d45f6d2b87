import OrionServe.BlockPool
import OrionServe.Lib.Chunks

/-!
# Per-sequence block tables and prefix hashing

A block table maps a sequence's contiguous logical token space to physical
blocks that may sit anywhere in the pool. `hashBlock` is the chained hash of
one block of tokens: the hash of the preceding block is mixed in first, so
that it stands for a prefix rather than for one block's tokens.

`chainHash` is the fold of `hashBlock` over the first full chunks of a
prompt, which is what `allocate` and `commit_prefill` compute one chunk at a
time.
-/

/-- Maps a sequence's logical block indices to physical blocks. -/
structure BlockTable where
  /-- Physical blocks in logical order. -/
  blocks : List BlockId
  /-- Tokens currently backed by these blocks. -/
  numTokens : ℕ
  deriving DecidableEq

namespace BlockTable

def new : BlockTable := ⟨[], 0⟩

def numBlocks (t : BlockTable) : ℕ := t.blocks.length

/-- Appends a physical block to the end of the table. -/
def push (t : BlockTable) (id : BlockId) : BlockTable :=
  { t with blocks := t.blocks ++ [id] }

/-- Sets the number of logically valid tokens. -/
def setNumTokens (t : BlockTable) (n : ℕ) : BlockTable := { t with numTokens := n }

/-- Blocks needed to hold `numTokens` in total. -/
def blocksRequired (numTokens blockSize : ℕ) : ℕ := numTokens ⌈/⌉ blockSize

@[simp] theorem push_blocks (t : BlockTable) (id : BlockId) :
    (t.push id).blocks = t.blocks ++ [id] := rfl

@[simp] theorem push_numTokens (t : BlockTable) (id : BlockId) :
    (t.push id).numTokens = t.numTokens := rfl

@[simp] theorem setNumTokens_blocks (t : BlockTable) (n : ℕ) :
    (t.setNumTokens n).blocks = t.blocks := rfl

@[simp] theorem setNumTokens_numTokens (t : BlockTable) (n : ℕ) :
    (t.setNumTokens n).numTokens = n := rfl

end BlockTable

/-! ## The chained hash -/

/-- `u64::rotate_left(5)`. -/
def rotateLeft5 (x : UInt64) : UInt64 := (x <<< 5) ||| (x >>> 59)

/-- One multiply and one rotate per word. -/
def mix (state value : UInt64) : UInt64 :=
  (rotateLeft5 state ^^^ value) * 0x517cc1b727220a95

/-- Computes the chained content hash of one block of tokens. `parent` is
the hash of the preceding block, or `none` for the first one. -/
def hashBlock (parent : Option BlockHash) (tokens : List TokenId) : BlockHash :=
  ⟨tokens.foldl (fun state t => mix state t.toUInt64)
    (mix (parent.elim 0xcbf29ce484222325 BlockHash.raw) (UInt64.ofNat tokens.length))⟩

/-- **The hash chain of a prompt**: the hash under which its chunk `i` is
looked up and published, chunks `0` to `i` hashed in turn. -/
def chainHash (blockSize : ℕ) (prompt : List TokenId) : ℕ → BlockHash
  | 0 => hashBlock none (prompt.take blockSize)
  | i + 1 => hashBlock (some (chainHash blockSize prompt i))
      ((prompt.drop ((i + 1) * blockSize)).take blockSize)

/-- The chain before chunk `i` is hashed. -/
def chainBefore (blockSize : ℕ) (prompt : List TokenId) : ℕ → Option BlockHash
  | 0 => none
  | i + 1 => some (chainHash blockSize prompt i)

/-- One link of the chain. -/
theorem chainHash_eq (blockSize : ℕ) (prompt : List TokenId) (i : ℕ) :
    chainHash blockSize prompt i
      = hashBlock (chainBefore blockSize prompt i)
          ((prompt.drop (i * blockSize)).take blockSize) := by
  cases i with
  | zero => simp [chainHash, chainBefore]
  | succ i => rfl

/-- The chain depends on the chunks it has hashed and on nothing after. -/
theorem chainHash_congr {blockSize : ℕ} {p q : List TokenId} {i : ℕ}
    (h : p.take ((i + 1) * blockSize) = q.take ((i + 1) * blockSize)) :
    chainHash blockSize p i = chainHash blockSize q i := by
  have hle : ∀ j ≤ i, p.take ((j + 1) * blockSize) = q.take ((j + 1) * blockSize) := by
    intro j hj
    have hmul : (j + 1) * blockSize ≤ (i + 1) * blockSize :=
      Nat.mul_le_mul_right _ (by omega)
    have := congrArg (List.take ((j + 1) * blockSize)) h
    rwa [List.take_take, List.take_take, min_eq_left hmul] at this
  have hchunk : ∀ j ≤ i, (p.drop (j * blockSize)).take blockSize
      = (q.drop (j * blockSize)).take blockSize := by
    intro j hj
    have := congrArg (List.drop (j * blockSize)) (hle j hj)
    rwa [List.drop_take, List.drop_take, Nat.succ_mul, Nat.add_sub_cancel_left] at this
  have hall : ∀ j ≤ i, chainHash blockSize p j = chainHash blockSize q j := by
    intro j
    induction j with
    | zero =>
      intro _
      rw [chainHash_eq, chainHash_eq, hchunk 0 (Nat.zero_le i)]
      rfl
    | succ j ih =>
      intro hj
      rw [chainHash_eq, chainHash_eq, hchunk (j + 1) hj, chainBefore, chainBefore,
        ih (by omega)]
  exact hall i le_rfl
