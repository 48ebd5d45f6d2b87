import OrionServe.Scheduler

/-!
# The batch a model consumes

A `ForwardBatch` is ragged: the tokens of all sequences end to end, with
parallel arrays that say whose they are. `ForwardBatch.rows` reads it the way
the forward pass does, as one row per token with everything that is said of
it.

Building a batch pushes one slot after the other, and a slot's rows are then
what it adds.
-/

/-- A batch of sequences submitted for one forward pass. -/
structure ForwardBatch where
  /-- The input tokens of every sequence, end to end. -/
  tokens : List TokenId
  /-- The absolute position of each token, a `u32`. -/
  positions : List ℕ
  sequenceIds : List SequenceId
  /-- How many tokens each sequence contributes. -/
  slotTokenCounts : List ℕ
  /-- The context length of each sequence, new tokens included. -/
  contextLens : List ℕ
  /-- The physical blocks of each sequence, in logical order. -/
  blockTables : List (List BlockId)
  hasPrefill : Bool
  deriving DecidableEq

/-- One token of a batch, with what the batch says of its sequence. -/
structure Row where
  id : SequenceId
  token : TokenId
  position : ℕ
  contextLen : ℕ
  table : List BlockId
  deriving DecidableEq

/-- What one sequence contributes to a batch. -/
structure BatchSlot where
  id : SequenceId
  tokens : List TokenId
  /-- The position of the first token. -/
  start : ℕ
  table : List BlockId
  isPrefill : Bool
  deriving DecidableEq

/-- Resolves a logical position to its block and the slot in it. -/
def locate (blockTable : List BlockId) (position blockSize : ℕ) : Option (BlockId × ℕ) :=
  blockTable[position / blockSize]?.map (fun b => (b, position % blockSize))

/-- A position is resolved exactly when the table reaches it. -/
theorem locate_isSome_iff {table : List BlockId} {position blockSize : ℕ}
    (hbs : 0 < blockSize) :
    (locate table position blockSize).isSome = true
      ↔ position < table.length * blockSize := by
  unfold locate
  rw [Option.isSome_map, isSome_getElem?, Nat.div_lt_iff_lt_mul hbs]

namespace BatchSlot

/-- The positions of a slot, as the batch holds them. -/
def positions (s : BatchSlot) : List ℕ :=
  (List.range' s.start s.tokens.length).map (fun p => p % 2 ^ 32)

def rows (s : BatchSlot) : List Row :=
  List.zipWith (fun t q => ⟨s.id, t, q, s.start + s.tokens.length, s.table⟩)
    s.tokens s.positions

theorem length_positions (s : BatchSlot) : s.positions.length = s.tokens.length := by
  simp [positions]

theorem mem_rows_iff {s : BatchSlot} {r : Row} :
    r ∈ s.rows ↔ ∃ i t, s.tokens[i]? = some t
      ∧ r = ⟨s.id, t, (s.start + i) % 2 ^ 32, s.start + s.tokens.length, s.table⟩ := by
  unfold rows
  constructor
  · intro hr
    obtain ⟨i, hi⟩ := List.mem_iff_getElem?.mp hr
    rw [List.getElem?_zipWith_eq_some] at hi
    obtain ⟨t, q, ht, hq, rfl⟩ := hi
    refine ⟨i, t, ht, ?_⟩
    unfold positions at hq
    rw [List.getElem?_map, Option.map_eq_some_iff] at hq
    obtain ⟨p, hp, rfl⟩ := hq
    rw [List.getElem?_eq_some_iff] at hp
    obtain ⟨hlt, rfl⟩ := hp
    rw [List.getElem_range', Nat.one_mul]
  · rintro ⟨i, t, ht, rfl⟩
    refine List.mem_iff_getElem?.mpr ⟨i, ?_⟩
    rw [List.getElem?_zipWith_eq_some]
    refine ⟨t, (s.start + i) % 2 ^ 32, ht, ?_, rfl⟩
    unfold positions
    have hlt := (List.getElem?_eq_some_iff.mp ht).1
    rw [List.getElem?_map, List.getElem?_range' hlt, Nat.one_mul]
    rfl

end BatchSlot

namespace ForwardBatch

def empty : ForwardBatch := ⟨[], [], [], [], [], [], false⟩

def numSequences (b : ForwardBatch) : ℕ := b.sequenceIds.length

def isEmpty (b : ForwardBatch) : Bool := b.tokens.isEmpty

/-- Checks the parallel arrays against each other. -/
def validate (b : ForwardBatch) : Except EngineError Unit :=
  let n := b.sequenceIds.length
  if b.slotTokenCounts.length ≠ n || b.contextLens.length ≠ n || b.blockTables.length ≠ n then
    .error (.internal ["ForwardBatch arrays disagree: ", .nat n, " sequence ids, ",
      .nat b.slotTokenCounts.length, " token counts, ", .nat b.contextLens.length,
      " context lens, ", .nat b.blockTables.length, " block tables"])
  else if b.positions.length ≠ b.tokens.length then
    .error (.internal ["ForwardBatch has ", .nat b.tokens.length, " tokens but ",
      .nat b.positions.length, " positions"])
  else if b.slotTokenCounts.sum ≠ b.tokens.length then
    .error (.internal ["ForwardBatch slot token counts sum to ", .nat b.slotTokenCounts.sum,
      " but there are ", .nat b.tokens.length, " tokens"])
  else .ok ()

/-- The arrays belong together. -/
structure Aligned (b : ForwardBatch) : Prop where
  counts : b.slotTokenCounts.length = b.sequenceIds.length
  contexts : b.contextLens.length = b.sequenceIds.length
  tables : b.blockTables.length = b.sequenceIds.length
  positions : b.positions.length = b.tokens.length
  sum : b.slotTokenCounts.sum = b.tokens.length

/-- **`validate` checks that the arrays belong together.** -/
theorem validate_eq_ok_iff (b : ForwardBatch) : b.validate = .ok () ↔ b.Aligned := by
  simp only [validate]
  constructor
  · intro h
    by_cases hn : (decide (b.slotTokenCounts.length ≠ b.sequenceIds.length)
        || decide (b.contextLens.length ≠ b.sequenceIds.length)
        || decide (b.blockTables.length ≠ b.sequenceIds.length)) = true
    · rw [if_pos hn] at h
      exact absurd h (by simp)
    rw [if_neg hn] at h
    by_cases hp : b.positions.length ≠ b.tokens.length
    · rw [if_pos hp] at h
      exact absurd h (by simp)
    rw [if_neg hp] at h
    by_cases hs : b.slotTokenCounts.sum ≠ b.tokens.length
    · rw [if_pos hs] at h
      exact absurd h (by simp)
    simp only [Bool.or_eq_true, decide_eq_true_eq, not_or, not_not] at hn
    exact ⟨hn.1.1, hn.1.2, hn.2, not_not.mp hp, not_not.mp hs⟩
  · intro h
    rw [if_neg (by simp [h.counts, h.contexts, h.tables]), if_neg (not_not.mpr h.positions),
      if_neg (not_not.mpr h.sum)]

/-- Which sequence each row belongs to. -/
def seqOfRow (b : ForwardBatch) : List ℕ :=
  b.slotTokenCounts.zipIdx.flatMap (fun c => List.replicate c.1 c.2)

/-- A token at its position, for the sequence of this index. -/
def rowAt (b : ForwardBatch) (t : TokenId) (q k : ℕ) : Row :=
  ⟨b.sequenceIds[k]?.getD ⟨0⟩, t, q, b.contextLens[k]?.getD 0, b.blockTables[k]?.getD []⟩

/-- **The batch, row by row.** -/
def rows (b : ForwardBatch) : List Row :=
  List.zipWith (fun t qk => b.rowAt t qk.1 qk.2) b.tokens (b.positions.zip b.seqOfRow)

/-- Adds a slot at the end of every array. -/
def push (b : ForwardBatch) (s : BatchSlot) : ForwardBatch where
  tokens := b.tokens ++ s.tokens
  positions := b.positions ++ s.positions
  sequenceIds := b.sequenceIds ++ [s.id]
  slotTokenCounts := b.slotTokenCounts ++ [s.tokens.length]
  contextLens := b.contextLens ++ [s.start + s.tokens.length]
  blockTables := b.blockTables ++ [s.table]
  hasPrefill := b.hasPrefill || s.isPrefill

theorem aligned_empty : empty.Aligned := ⟨rfl, rfl, rfl, rfl, rfl⟩

theorem Aligned.push {b : ForwardBatch} (h : b.Aligned) (s : BatchSlot) :
    (b.push s).Aligned where
  counts := by simp [ForwardBatch.push, h.counts]
  contexts := by simp [ForwardBatch.push, h.contexts]
  tables := by simp [ForwardBatch.push, h.tables]
  positions := by simp [ForwardBatch.push, h.positions, s.length_positions]
  sum := by simp [ForwardBatch.push, h.sum]

theorem seqOfRow_push (b : ForwardBatch) (s : BatchSlot) :
    (b.push s).seqOfRow
      = b.seqOfRow ++ List.replicate s.tokens.length b.slotTokenCounts.length := by
  show (b.slotTokenCounts ++ [s.tokens.length]).zipIdx.flatMap _ = _
  rw [List.zipIdx_append, List.flatMap_append]
  simp [seqOfRow]

theorem mem_seqOfRow_lt {b : ForwardBatch} {k : ℕ} (hk : k ∈ b.seqOfRow) :
    k < b.slotTokenCounts.length := by
  obtain ⟨c, hc, hkc⟩ := List.mem_flatMap.mp hk
  have hidx := List.snd_lt_of_mem_zipIdx hc
  rw [List.eq_of_mem_replicate hkc]
  simpa using hidx

theorem length_seqOfRow (b : ForwardBatch) : b.seqOfRow.length = b.slotTokenCounts.sum := by
  unfold seqOfRow
  rw [List.length_flatMap]
  have hmap : b.slotTokenCounts.zipIdx.map (fun c => (List.replicate c.1 c.2).length)
      = b.slotTokenCounts := by
    rw [← List.zipIdx_map_fst 0 b.slotTokenCounts]
    refine List.map_congr_left (fun c _ => List.length_replicate) |>.trans ?_
    rw [List.zipIdx_map_fst]
  rw [hmap]

/-- **The rows of a pushed slot come after the rows there were**, which are
left as they were. -/
theorem rows_push {b : ForwardBatch} (h : b.Aligned) (s : BatchSlot) :
    (b.push s).rows = b.rows ++ s.rows := by
  have hlen : b.tokens.length = (b.positions.zip b.seqOfRow).length := by
    rw [List.length_zip, length_seqOfRow, h.sum, h.positions, min_self]
  have hzip : (b.push s).positions.zip (b.push s).seqOfRow
      = b.positions.zip b.seqOfRow
        ++ s.positions.zip (List.replicate s.tokens.length b.slotTokenCounts.length) := by
    rw [seqOfRow_push]
    exact List.zip_append (by rw [h.positions, length_seqOfRow, h.sum])
  unfold rows
  rw [hzip]
  show List.zipWith _ (b.tokens ++ s.tokens) _ = _
  rw [List.zipWith_append hlen]
  congr 1
  · -- a row there was refers to a sequence there was
    refine List.ext_getElem? (fun i => ?_)
    rw [List.getElem?_zipWith, List.getElem?_zipWith]
    rcases ht : b.tokens[i]? with - | t
    · rfl
    rcases hq : (b.positions.zip b.seqOfRow)[i]? with - | ⟨q, k⟩
    · rfl
    have hk : k < b.sequenceIds.length := by
      rw [← h.counts]
      exact mem_seqOfRow_lt (List.of_mem_zip (List.mem_of_getElem? hq)).2
    show some ((b.push s).rowAt t q k) = some (b.rowAt t q k)
    unfold rowAt push
    rw [List.getElem?_append_left hk, List.getElem?_append_left (h.contexts.symm ▸ hk),
      List.getElem?_append_left (h.tables.symm ▸ hk)]
  · refine List.ext_getElem? (fun i => ?_)
    unfold BatchSlot.rows
    rw [List.getElem?_zipWith, List.getElem?_zipWith]
    rcases ht : s.tokens[i]? with - | t
    · rfl
    have hi := (List.getElem?_eq_some_iff.mp ht).1
    have hi' : i < s.positions.length := s.length_positions.symm ▸ hi
    have hpair : (s.positions.zip (List.replicate s.tokens.length b.slotTokenCounts.length))[i]?
        = some (s.positions[i], b.slotTokenCounts.length) :=
      List.getElem?_zip_eq_some.mpr
        ⟨List.getElem?_eq_getElem hi', by rw [List.getElem?_replicate, if_pos hi]⟩
    rw [hpair, List.getElem?_eq_getElem hi']
    show some ((b.push s).rowAt t s.positions[i] b.slotTokenCounts.length) = _
    unfold rowAt push
    rw [h.counts, List.getElem?_append_right le_rfl, List.getElem?_append_right h.contexts.le,
      List.getElem?_append_right h.tables.le, h.contexts, h.tables, Nat.sub_self]
    rfl

end ForwardBatch
