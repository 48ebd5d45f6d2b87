import OrionServe.CacheManager
import OrionServe.Lib.Since

/-!
# The moves of the cache manager

Seven operations change the manager, and what they do to the pool, the
tables and the index comes down to a few **moves**: a table is opened, a
block is adopted or handed out for it, its size is set, a token is recorded
in its last block, a computed block is recorded and published, a table is
released, a cached block is forgotten. `Move` lists them with everything
each one needs and does, and an operation is shown once to be a run of
moves. An invariant of the manager is then a property every move keeps.

A move is about the manager even in the middle of `allocate`, whose table is
still a local variable: `AllocState.onto` reads the loop state as the
manager in which that table has already been entered.
-/

namespace KvCacheManager

/-- **One move.** With `own` the two moves of a commit are only made for the
prompt the sequence's table was opened for. -/
inductive Move (own : Prop) (m m' : KvCacheManager) : Prop
  /-- `allocate` starts a table. -/
  | opened {seq : SequenceId} {prompt : List TokenId}
      (absent : m.tables.lookup seq = none)
      (pool : m'.pool = m.pool)
      (index : m'.prefixCache.entries = m.prefixCache.entries)
      (tables : m'.tables = m.tables.insert seq BlockTable.new)
      (trace : m'.trace = .opened seq prompt :: m.trace)
  /-- A prefix hit on a full chunk. -/
  | adopted {seq : SequenceId} {prompt : List TokenId} {t : BlockTable}
      {blk : BlockId}
      (table : m.tables.lookup seq = some t)
      (source : m.promptOf seq = some prompt)
      (full : (t.numBlocks + 1) * m.blockSize ≤ prompt.length)
      (entry : m.prefixCache.entries.lookup (chainHash m.blockSize prompt t.numBlocks)
        = some ⟨blk, (prompt.drop (t.numBlocks * m.blockSize)).take m.blockSize⟩)
      (pool : m.pool.Shares m'.pool blk)
      (index : m'.prefixCache.entries = m.prefixCache.entries)
      (tables : m'.tables = m.tables.insert seq (t.push blk))
      (trace : m'.trace = .adopted seq prompt t.numBlocks blk :: m.trace)
  /-- A fresh block, with its index entry dropped. -/
  | handedOut {seq : SequenceId} {t : BlockTable} {blk : BlockId}
      (table : m.tables.lookup seq = some t)
      (pool : m.pool.Refills m'.pool blk)
      (index : m'.prefixCache.entries
        = (m.prefixCache.removeEvicted (m.pool.hashOf blk) blk).entries)
      (tables : m'.tables = m.tables.insert seq (t.push blk))
      (trace : m'.trace = .handedOut seq blk :: m.trace)
  /-- The number of tokens of a table is set. -/
  | sized {seq : SequenceId} {t : BlockTable} {n : ℕ}
      (table : m.tables.lookup seq = some t)
      (pool : m'.pool = m.pool)
      (index : m'.prefixCache.entries = m.prefixCache.entries)
      (tables : m'.tables = m.tables.insert seq (t.setNumTokens n))
      (trace : m'.trace = m.trace)
  /-- `append_token` records a token in the last block, past the prompt. -/
  | appended {seq : SequenceId} {t : BlockTable} {blk : BlockId} {n : ℕ}
      (table : m.tables.lookup seq = some t)
      (last : t.blocks.getLast? = some blk)
      (past : ∀ prompt, m.promptOf seq = some prompt →
        prompt.length < t.numBlocks * m.blockSize)
      (pool : m.pool.Records m'.pool blk n none)
      (index : m'.prefixCache.entries = m.prefixCache.entries)
      (tables : m'.tables = m.tables)
      (trace : m'.trace = .appended seq blk :: m.trace)
  /-- `commit_prefill` records a full prompt block as computed. -/
  | hashed {seq : SequenceId} {prompt : List TokenId} {t : BlockTable} {i : ℕ}
      {blk : BlockId}
      (source : own → m.promptOf seq = some prompt)
      (table : m.tables.lookup seq = some t)
      (block : t.blocks[i]? = some blk)
      (full : (i + 1) * m.blockSize ≤ prompt.length)
      (pool : m.pool.Records m'.pool blk m.blockSize
        (some (chainHash m.blockSize prompt i)))
      (index : m'.prefixCache.entries = m.prefixCache.entries)
      (tables : m'.tables = m.tables)
      (trace : m'.trace = m.trace)
  /-- `commit_prefill` enters a block it has recorded into the index. -/
  | published {seq : SequenceId} {prompt : List TokenId} {t : BlockTable} {i : ℕ}
      {blk : BlockId}
      (source : own → m.promptOf seq = some prompt)
      (table : m.tables.lookup seq = some t)
      (block : t.blocks[i]? = some blk)
      (full : (i + 1) * m.blockSize ≤ prompt.length)
      (hash : m.pool.hashOf blk = some (chainHash m.blockSize prompt i))
      (tokens : m.pool.tokensOf blk = m.blockSize)
      (absent : m.prefixCache.entries.lookup (chainHash m.blockSize prompt i) = none)
      (pool : m'.pool = m.pool)
      (index : m'.prefixCache.entries = m.prefixCache.entries.insert
        (chainHash m.blockSize prompt i)
        ⟨blk, (prompt.drop (i * m.blockSize)).take m.blockSize⟩)
      (tables : m'.tables = m.tables)
      (trace : m'.trace = .published seq prompt i blk :: m.trace)
  /-- A sequence gives its blocks back. -/
  | released {seq : SequenceId} {t : BlockTable}
      (table : m.tables.lookup seq = some t)
      (pool : m'.pool = m.pool.releaseAll t.blocks)
      (index : m'.prefixCache.entries = m.prefixCache.entries)
      (tables : m'.tables = m.tables.erase seq)
      (trace : m'.trace = .released seq :: m.trace)
  /-- The contents of a free block are forgotten, with its index entry. -/
  | forgot {blk : BlockId} {h : BlockHash}
      (free : blk ∈ m.pool.freeList)
      (hash : m.pool.hashOf blk = some h)
      (pool : m.pool.Records m'.pool blk 0 none)
      (index : m'.prefixCache.entries = (m.prefixCache.remove h blk).entries)
      (tables : m'.tables = m.tables)
      (trace : m'.trace = m.trace)
  /-- The index is emptied. -/
  | cleared
      (pool : m'.pool = m.pool)
      (index : m'.prefixCache.entries = ∅)
      (tables : m'.tables = m.tables)
      (trace : m'.trace = m.trace)
  /-- A hit counter or a chain tip, which no statement here reads. -/
  | idle
      (pool : m'.pool = m.pool)
      (index : m'.prefixCache.entries = m.prefixCache.entries)
      (tables : m'.tables = m.tables)
      (trace : m'.trace = m.trace)

/-- A run of moves. -/
abbrev Moves (own : Prop) : KvCacheManager → KvCacheManager → Prop :=
  Relation.ReflTransGen (Move own)

/-! ## What every move keeps -/

/-- The pool keeps its size and its capacity. -/
theorem Move.poolSize {own : Prop} {m m' : KvCacheManager} (h : Move own m m') :
    m'.pool.blockSize = m.pool.blockSize
      ∧ m'.pool.totalBlocks = m.pool.totalBlocks := by
  cases h with
  | opened absent pool => rw [pool]; exact ⟨rfl, rfl⟩
  | adopted table source full entry pool => exact ⟨pool.blockSize, pool.totalBlocks⟩
  | handedOut table pool => exact ⟨pool.blockSize, pool.totalBlocks⟩
  | sized table pool => rw [pool]; exact ⟨rfl, rfl⟩
  | appended table last past pool => exact ⟨pool.blockSize, pool.totalBlocks⟩
  | hashed source table block full pool => exact ⟨pool.blockSize, pool.totalBlocks⟩
  | published source table block full hash tokens absent pool =>
    rw [pool]
    exact ⟨rfl, rfl⟩
  | released table pool =>
    rw [pool]
    have hread := BlockPool.releaseAll_contents
    exact ⟨(hread _ _).1, (hread _ _).2.1⟩
  | forgot free hash pool => exact ⟨pool.blockSize, pool.totalBlocks⟩
  | cleared pool => rw [pool]; exact ⟨rfl, rfl⟩
  | idle pool => rw [pool]; exact ⟨rfl, rfl⟩

theorem Moves.blockSize {own : Prop} {m m' : KvCacheManager} (h : Moves own m m') :
    m'.blockSize = m.blockSize := by
  induction h with
  | refl => rfl
  | tail _ hmove ih => exact hmove.poolSize.1.trans ih

theorem Moves.totalBlocks {own : Prop} {m m' : KvCacheManager} (h : Moves own m m') :
    m'.totalBlocks = m.totalBlocks := by
  induction h with
  | refl => rfl
  | tail _ hmove ih => exact hmove.poolSize.2.trans ih

/-! ## The prompt a table was opened for -/

section PromptOf

variable {m m' : KvCacheManager}

theorem promptOf_of_trace_eq (h : m'.trace = m.trace) : m'.promptOf = m.promptOf := by
  funext seq
  unfold promptOf
  rw [h]

/-- Only an opening changes the prompt on record. -/
theorem promptOf_cons {e : BlockEvent} (h : m'.trace = e :: m.trace)
    (he : ∀ seq prompt, e ≠ .opened seq prompt) : m'.promptOf = m.promptOf := by
  funext seq
  unfold promptOf
  rw [h, List.findSome?_cons]
  cases e with
  | opened s p => exact absurd rfl (he s p)
  | adopted | handedOut | appended | published | released => rfl

theorem promptOf_opened {seq : SequenceId} {prompt : List TokenId}
    (h : m'.trace = .opened seq prompt :: m.trace) (s : SequenceId) :
    m'.promptOf s = if s = seq then some prompt else m.promptOf s := by
  unfold promptOf
  rw [h, List.findSome?_cons]
  by_cases hs : s = seq
  · simp [hs]
  · simp [hs, Ne.symm hs]

end PromptOf

/-! ## Exact accounting

The first invariant: every count is the number of occurrences over all
tables. -/

/-- **The bookkeeping of the pool is exact** for what the tables hold. -/
def Exact (m : KvCacheManager) : Prop := m.pool.Exact m.held

section Held

variable {m m' : KvCacheManager} {seq : SequenceId} {t t' : BlockTable}

/-- What is held, one table set apart. -/
theorem held_perm (h : m.tables.lookup seq = some t) :
    m.held.Perm (t.blocks ++ (m.tables.erase seq).flat BlockTable.blocks) :=
  AList.flat_perm_of_lookup _ h

/-- Replacing a table by one with more blocks at the end. -/
theorem held_perm_of_insert {new : List BlockId}
    (h : m.tables.lookup seq = some t) (hnew : t'.blocks = t.blocks ++ new)
    (ht : m'.tables = m.tables.insert seq t') : m'.held.Perm (new ++ m.held) := by
  show (m'.tables.flat BlockTable.blocks).Perm _
  rw [ht, AList.flat_insert, hnew]
  calc (t.blocks ++ new) ++ (m.tables.erase seq).flat BlockTable.blocks
      |>.Perm ((new ++ t.blocks) ++ (m.tables.erase seq).flat BlockTable.blocks) :=
        List.perm_append_comm.append_right _
    _ |>.Perm (new ++ m.held) := by
        rw [List.append_assoc]
        exact ((held_perm h).symm).append_left new

theorem held_of_tables_eq (ht : m'.tables = m.tables) : m'.held = m.held := by
  unfold held
  rw [ht]

end Held

/-- **Step lemma**: every move keeps the accounting exact. -/
theorem Move.exact {own : Prop} {m m' : KvCacheManager} (h : Move own m m')
    (hx : m.Exact) : m'.Exact := by
  unfold Exact at hx ⊢
  cases h with
  | opened absent pool index tables =>
    have hheld : m'.held = m.held := by
      unfold held
      rw [tables, AList.flat_insert_of_lookup_eq_none _ _ absent]
      rfl
    rw [pool, hheld]
    exact hx
  | adopted table source full entry pool index tables =>
    refine RefBalanced.perm (hx.shares pool) ?_
    exact (held_perm_of_insert table (BlockTable.push_blocks _ _) tables).symm
  | handedOut table pool index tables =>
    refine RefBalanced.perm (hx.refills pool) ?_
    exact (held_perm_of_insert table (BlockTable.push_blocks _ _) tables).symm
  | @sized seq t n table pool index tables =>
    have hblocks : (t.setNumTokens n).blocks = t.blocks ++ [] :=
      (List.append_nil t.blocks).symm
    rw [pool]
    exact RefBalanced.perm hx (held_perm_of_insert table hblocks tables).symm
  | appended table last past pool index tables =>
    rw [held_of_tables_eq tables]
    exact hx.records pool
  | hashed source table block full pool index tables =>
    rw [held_of_tables_eq tables]
    exact hx.records pool
  | published source table block full hash tokens absent pool index tables =>
    rw [pool, held_of_tables_eq tables]
    exact hx
  | released table pool index tables =>
    rw [pool]
    refine hx.releaseAll _ ?_
    unfold held
    rw [tables]
    exact held_perm table
  | forgot free hash pool index tables =>
    rw [held_of_tables_eq tables]
    exact hx.records pool
  | cleared pool index tables =>
    rw [pool, held_of_tables_eq tables]
    exact hx
  | idle pool index tables =>
    rw [pool, held_of_tables_eq tables]
    exact hx

/-- **Run lemma.** -/
theorem Moves.exact {own : Prop} {m m' : KvCacheManager} (h : Moves own m m')
    (hx : m.Exact) : m'.Exact := by
  induction h with
  | refl => exact hx
  | tail _ hmove ih => exact hmove.exact ih

/-- A block of a table is a block of the pool. -/
theorem Exact.mem_ids {m : KvCacheManager} (hx : m.Exact) {seq : SequenceId}
    {t : BlockTable} {blk : BlockId} (ht : m.tables.lookup seq = some t)
    (hb : blk ∈ t.blocks) : blk ∈ m.pool.ids :=
  RefBalanced.held_mem hx blk (AList.mem_flat.mpr ⟨seq, t, ht, hb⟩)

/-! ## The blocks on record

The second invariant is part of the first and survives where that is lost, in
a pool so large that two of its blocks have the same id. -/

/-- **Every block on record is one of the pool's**, in a table or free. -/
structure Ranged (m : KvCacheManager) : Prop where
  held : ∀ b ∈ m.held, b ∈ m.pool.ids
  free : ∀ b ∈ m.pool.freeList, b ∈ m.pool.ids

theorem Exact.ranged {m : KvCacheManager} (hx : m.Exact) : m.Ranged where
  held := RefBalanced.held_mem hx
  free b hb := ((RefBalanced.mem_free hx b).mp hb).1

theorem Ranged.mem_ids {m : KvCacheManager} (hr : m.Ranged) {seq : SequenceId}
    {t : BlockTable} {blk : BlockId} (ht : m.tables.lookup seq = some t)
    (hb : blk ∈ t.blocks) : blk ∈ m.pool.ids :=
  hr.held blk (AList.mem_flat.mpr ⟨seq, t, ht, hb⟩)

/-- **Step lemma.** -/
theorem Move.ranged {own : Prop} {m m' : KvCacheManager} (h : Move own m m')
    (hr : m.Ranged) : m'.Ranged := by
  have hids : m'.pool.ids = m.pool.ids := BlockPool.Exact.ids_eq h.poolSize.2
  have hsame : m'.held = m.held → m'.pool.freeList = m.pool.freeList → m'.Ranged := by
    intro hheld hfree
    exact ⟨by rw [hheld, hids]; exact hr.held, by rw [hfree, hids]; exact hr.free⟩
  cases h with
  | opened absent pool index tables =>
    refine hsame ?_ (by rw [pool])
    unfold held
    rw [tables, AList.flat_insert_of_lookup_eq_none _ _ absent]
    rfl
  | @adopted seq prompt t blk table source full entry pool index tables =>
    have hperm := held_perm_of_insert table (BlockTable.push_blocks _ _) tables
    refine ⟨fun b hb => ?_, fun b hb => ?_⟩
    · rw [hids]
      rcases List.mem_append.mp (hperm.mem_iff.mp hb) with hb | hb
      · rw [List.mem_singleton.mp hb]
        exact pool.mem_ids
      · exact hr.held b hb
    · rw [hids]
      rw [pool.freeList] at hb
      split at hb
      · exact hr.free b (List.mem_of_mem_erase hb)
      · exact hr.free b hb
  | @handedOut seq t blk table pool index tables =>
    have hperm := held_perm_of_insert table (BlockTable.push_blocks _ _) tables
    have hfree : ∀ b, b = blk ∨ b ∈ m'.pool.freeList → b ∈ m.pool.ids := by
      intro b hb
      refine hr.free b ?_
      rw [pool.freeList]
      exact List.mem_cons.mpr hb
    refine ⟨fun b hb => ?_, fun b hb => by rw [hids]; exact hfree b (Or.inr hb)⟩
    rw [hids]
    rcases List.mem_append.mp (hperm.mem_iff.mp hb) with hb | hb
    · exact hfree b (Or.inl (List.mem_singleton.mp hb))
    · exact hr.held b hb
  | @sized seq t n table pool index tables =>
    have hblocks : (t.setNumTokens n).blocks = t.blocks ++ [] :=
      (List.append_nil t.blocks).symm
    have hperm := held_perm_of_insert table hblocks tables
    refine ⟨fun b hb => ?_, by rw [hids, pool]; exact hr.free⟩
    rw [hids]
    exact hr.held b (hperm.mem_iff.mp hb)
  | appended table last past pool index tables =>
    exact hsame (held_of_tables_eq tables) pool.freeList
  | hashed source table block full pool index tables =>
    exact hsame (held_of_tables_eq tables) pool.freeList
  | published source table block full hash tokens absent pool index tables =>
    exact hsame (held_of_tables_eq tables) (by rw [pool])
  | @released seq t table pool index tables =>
    have hperm := held_perm table
    refine ⟨fun b hb => ?_, fun b hb => ?_⟩
    · unfold held at hb
      rw [tables] at hb
      rw [hids]
      exact hr.held b (hperm.mem_iff.mpr (List.mem_append_right _ hb))
    · rw [pool] at hb
      rw [hids]
      rcases BlockPool.of_mem_releaseAll _ _ hb with hb | hb
      · exact hr.free b hb
      · exact hr.mem_ids table hb
  | forgot free hash pool index tables =>
    exact hsame (held_of_tables_eq tables) pool.freeList
  | cleared pool index tables => exact hsame (held_of_tables_eq tables) (by rw [pool])
  | idle pool index tables => exact hsame (held_of_tables_eq tables) (by rw [pool])

/-- **Run lemma.** -/
theorem Moves.ranged {own : Prop} {m m' : KvCacheManager} (h : Moves own m m')
    (hr : m.Ranged) : m'.Ranged := by
  induction h with
  | refl => exact hr
  | tail _ hmove ih => exact hmove.ranged ih

end KvCacheManager
