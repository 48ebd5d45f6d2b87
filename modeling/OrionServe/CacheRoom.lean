import OrionServe.CacheRun

/-!
# How many blocks are left

The blocks that no table holds are free, each of them once, so the free count
is what the distinct blocks of the tables leave of the pool. A block that two
places hold is counted once: that is what sharing saves.

A table grows by taking free blocks and by nothing else. `Extensible` keeps
the sum of what a table needs and what is free, which an `append_token` for
that table does not change; so it says in advance which of a row of appends
will be the first to fail.

What some sequences hold between them is their footprint. An append adds one
block to the footprints its sequence is part of when its last block is full,
and nothing otherwise.
-/

namespace BlockPool

variable {p : BlockPool} {held : List BlockId}

/-- **What is not held is free.** -/
theorem Exact.numFree_add (h : p.Exact held) :
    p.numFree + held.dedup.length = p.totalBlocks := by
  have hnd : (p.freeList ++ held.dedup).Nodup := by
    refine List.nodup_append.mpr
      ⟨RefBalanced.free_nodup h, held.nodup_dedup, fun a ha b hb hab => ?_⟩
    subst hab
    exact ((RefBalanced.mem_free h a).mp ha).2 (List.mem_dedup.mp hb)
  have hperm : (p.freeList ++ held.dedup).Perm ((List.range p.totalBlocks).map BlockId.mk) := by
    refine (List.perm_ext_iff_of_nodup hnd (nodup_range_mk _)).mpr (fun b => ?_)
    rw [List.mem_append, List.mem_dedup, mem_range_mk, RefBalanced.mem_free h b]
    have hdom : b ∈ held → b.index < p.totalBlocks := RefBalanced.held_mem h b
    show (b.index < p.totalBlocks ∧ b ∉ held) ∨ b ∈ held ↔ _
    by_cases hb : b ∈ held
    · simp [hb, hdom hb]
    · simp [hb]
  have hlen := hperm.length_eq
  rw [List.length_append, List.length_map, List.length_range] at hlen
  exact hlen

end BlockPool

namespace KvCacheManager

variable {m m' : KvCacheManager} {seq : SequenceId} {t : BlockTable}

/-- The free blocks of a manager. -/
theorem Exact.freeBlocks_add (h : m.Exact) :
    m.freeBlocks + m.held.dedup.length = m.totalBlocks := BlockPool.Exact.numFree_add h

/-- Recording a token takes no block. -/
theorem recordToken_freeBlocks {newLen : ℕ} (h : m.recordToken seq newLen = (m', .ok ())) :
    m'.freeBlocks = m.freeBlocks := by
  unfold recordToken at h
  split at h
  · exact absurd h (by simp)
  simp only [] at h
  split at h
  · exact absurd h (by simp)
  split at h
  · next pool hp =>
    obtain rfl := (Prod.mk.inj h).1
    rcases BlockPool.setContents_cases m.pool _ _ none with ⟨-, e, he⟩ | ⟨pool', hp', hr⟩
    · exact absurd (he.symm.trans hp) (by simp)
    · obtain rfl := (Prod.mk.inj (hp'.symm.trans hp)).1
      exact congrArg List.length hr.freeList
  · exact absurd h (by simp)

/-- **A table grows out of the free list.** -/
theorem appendToken_freeBlocks (ht : m.tables.lookup seq = some t)
    (h : m.appendToken seq = (m', .ok ())) :
    (t.numBlocks < BlockTable.blocksRequired (t.numTokens + 1) m.blockSize
      ∧ m.freeBlocks = m'.freeBlocks + 1)
    ∨ (¬ t.numBlocks < BlockTable.blocksRequired (t.numTokens + 1) m.blockSize
      ∧ m.freeBlocks = m'.freeBlocks) := by
  unfold appendToken blockTable at h
  rw [ht] at h
  simp only [growTable, blockTable, ht] at h
  by_cases hgrow : t.numBlocks < BlockTable.blocksRequired (t.numTokens + 1) m.blockSize
  · rw [if_pos hgrow] at h
    rcases BlockPool.allocate_cases m.pool with ⟨-, ha⟩ | ⟨pool, blk, ha, hout⟩
    · rw [ha] at h
      exact absurd h (by simp)
    · rw [ha] at h
      refine Or.inl ⟨hgrow, ?_⟩
      rw [recordToken_freeBlocks h]
      exact congrArg List.length hout.freeList
  · rw [if_neg hgrow] at h
    exact Or.inr ⟨hgrow, (recordToken_freeBlocks h).symm⟩

/-- **A table of `tokens` tokens that can grow to `room` blocks.** -/
structure Extensible (m : KvCacheManager) (seq : SequenceId) (tokens room : ℕ) : Prop where
  settled : m.Settled
  table : ∃ t, m.tables.lookup seq = some t ∧ t.numTokens = tokens
  room : m.freeBlocks + BlockTable.blocksRequired tokens m.blockSize = room

/-- **The next append** succeeds as long as the blocks suffice. -/
theorem Extensible.appendToken {tokens room : ℕ} (h : m.Extensible seq tokens room) :
    (BlockTable.blocksRequired (tokens + 1) m.blockSize ≤ room
      ∧ ∃ m', m.appendToken seq = (m', .ok ()) ∧ m'.blockSize = m.blockSize
        ∧ m'.Extensible seq (tokens + 1) room)
    ∨ (room < BlockTable.blocksRequired (tokens + 1) m.blockSize
      ∧ ∃ err, m.appendToken seq = (m, .error err)) := by
  obtain ⟨t, ht, rfl⟩ := h.table
  have hsized := h.settled.sized ht
  have hneeds := hsized.needs_block_iff h.settled.blockSize
  have hsucc : BlockTable.blocksRequired (t.numTokens + 1) m.blockSize
      = BlockTable.blocksRequired t.numTokens m.blockSize
        + if m.blockSize ∣ t.numTokens then 1 else 0 := by
    unfold BlockTable.blocksRequired
    rw [Nat.ceilDiv_succ h.settled.blockSize]
    split <;> rfl
  rcases m.appendToken_cases True h.settled.tallied seq with
    ⟨hnone, -⟩ | ⟨u, hu, hdvd, hnil, he⟩ | ⟨m', u, t', hok, hmoves, happ, -⟩
  · rw [ht] at hnone
    exact absurd hnone (by simp)
  · obtain rfl := Option.some.inj (ht.symm.trans hu)
    refine Or.inr ⟨?_, _, he⟩
    have hfree : m.freeBlocks = 0 := congrArg List.length hnil
    have hroom := h.room
    rw [hfree, Nat.zero_add] at hroom
    rw [hsucc, if_pos hdvd, ← hroom]
    exact Nat.lt_succ_self _
  · obtain rfl := Option.some.inj (ht.symm.trans happ.table)
    have hbs : m'.blockSize = m.blockSize := hmoves.blockSize
    have hroom : m'.freeBlocks + BlockTable.blocksRequired (t.numTokens + 1) m.blockSize
        = room := by
      rw [hsucc, ← h.room]
      rcases appendToken_freeBlocks ht hok with ⟨hgrow, hfree⟩ | ⟨hgrow, hfree⟩
      · rw [if_pos (hneeds.mp hgrow), hfree]
        omega
      · rw [if_neg (hneeds.not.mp hgrow), hfree]
        omega
    refine Or.inl ⟨hroom ▸ Nat.le_add_left _ _, m', hok, hbs, happ.settled h.settled hmoves,
      ⟨t', by rw [happ.tables, AList.lookup_insert], happ.numTokens⟩, ?_⟩
    rw [hbs]
    exact hroom

/-! ## Footprints -/

/-- How many blocks some sequences hold between them. -/
def footprint (m : KvCacheManager) (ids : List SequenceId) : ℕ :=
  m.tables.footprint BlockTable.blocks ids

/-- Whether the next token of a sequence takes another block. -/
def isFull (m : KvCacheManager) (seq : SequenceId) : Bool :=
  (m.blockTable seq).any
    (fun t => t.numBlocks < BlockTable.blocksRequired (t.numTokens + 1) m.blockSize)

/-- The blocks that are not free are those of the sequences with a table. -/
theorem Exact.freeBlocks_add_footprint {ids : List SequenceId} (h : m.Exact)
    (hids : ∀ q t, m.tables.lookup q = some t → q ∈ ids) :
    m.freeBlocks + m.footprint ids = m.totalBlocks := by
  unfold footprint
  rw [AList.footprint_eq_flat hids]
  exact h.freeBlocks_add

/-- A full table is one. -/
theorem isFull_iff {seq : SequenceId} : m.isFull seq = true ↔ ∃ t, m.tables.lookup seq = some t
    ∧ t.numBlocks < BlockTable.blocksRequired (t.numTokens + 1) m.blockSize := by
  unfold isFull blockTable
  rcases m.tables.lookup seq with - | t
  · simp
  · simp

/-- Whether a table is full is read off the table. -/
theorem isFull_congr {seq : SequenceId} (ht : m'.tables.lookup seq = m.tables.lookup seq)
    (hbs : m'.blockSize = m.blockSize) : m'.isFull seq = m.isFull seq := by
  unfold isFull blockTable
  rw [ht, hbs]

/-- **An append that is refused**, for a sequence with a table: it is full,
and no block is free. -/
theorem Settled.append_refused (h : m.Settled) {e : EngineError}
    (herr : m.appendToken seq = (m, .error e)) :
    m.tables.lookup seq = none ∨ (m.isFull seq = true ∧ m.freeBlocks = 0) := by
  rcases m.appendToken_cases True h.tallied seq with
    ⟨hnone, -⟩ | ⟨t, ht, hdvd, hnil, -⟩ | ⟨m', t, t', hok, -, -, -⟩
  · exact Or.inl hnone
  · refine Or.inr ⟨isFull_iff.mpr ⟨t, ht, ?_⟩, congrArg List.length hnil⟩
    exact ((h.sized ht).needs_block_iff h.blockSize).mpr hdvd
  · exact absurd (herr.symm.trans hok) (by simp)

/-- **An append that succeeds**: the other tables stay, and the footprints
that the sequence is part of grow by one block if it was full. -/
theorem Settled.append_ok (h : m.Settled) (hok : m.appendToken seq = (m', .ok ())) :
    m'.Settled ∧ m'.blockSize = m.blockSize ∧ m'.totalBlocks = m.totalBlocks
    ∧ (∃ t, m.tables.lookup seq = some t)
    ∧ (∀ q, q ≠ seq → m'.tables.lookup q = m.tables.lookup q)
    ∧ m.freeBlocks = m'.freeBlocks + (if m.isFull seq then 1 else 0)
    ∧ ∀ ids, m'.footprint ids
      = m.footprint ids + (if seq ∈ ids ∧ m.isFull seq = true then 1 else 0) := by
  rcases m.appendToken_cases True h.tallied seq with
    ⟨-, he⟩ | ⟨t, -, -, -, he⟩ | ⟨m₁, t, t', he, hmoves, happ, -⟩
  · exact absurd (he.symm.trans hok) (by simp)
  · exact absurd (he.symm.trans hok) (by simp)
  obtain rfl : m₁ = m' := congrArg Prod.fst (he.symm.trans hok)
  have hs := happ.settled h hmoves
  have hother : ∀ q, q ≠ seq → m₁.tables.lookup q = m.tables.lookup q := by
    intro q hq
    rw [happ.tables, AList.lookup_insert_ne hq]
  refine ⟨hs, hmoves.blockSize, hmoves.totalBlocks, ⟨t, happ.table⟩, hother, ?_⟩
  have hneeds := (h.sized happ.table).needs_block_iff h.blockSize
  have hfull : m.isFull seq = true ↔ m.blockSize ∣ t.numTokens := by
    rw [isFull_iff, ← hneeds]
    constructor
    · rintro ⟨u, hu, hlt⟩
      obtain rfl := Option.some.inj (happ.table.symm.trans hu)
      exact hlt
    · exact fun hlt => ⟨t, happ.table, hlt⟩
  rcases happ.blocks with ⟨hnot, hsame⟩ | ⟨hdvd, blk, hgrown⟩
  · -- room in the last block
    have hno := hfull.not.mpr hnot
    rcases appendToken_freeBlocks happ.table hok with ⟨hgrow, -⟩ | ⟨-, hfree⟩
    · exact absurd (hneeds.mp hgrow) hnot
    refine ⟨by rw [if_neg hno, hfree, Nat.add_zero], fun ids => ?_⟩
    rw [if_neg (fun hand => hno hand.2), Nat.add_zero]
    unfold footprint
    rw [happ.tables]
    exact AList.footprint_insert_of_eq happ.table hsame
  · have hyes := hfull.mpr hdvd
    rcases appendToken_freeBlocks happ.table hok with ⟨-, hfree⟩ | ⟨hno, -⟩
    swap
    · exact absurd (hneeds.mpr hdvd) hno
    -- the block was free, so no table held it
    have hfresh : blk ∉ m.held := by
      intro hmem
      have hsub : m₁.held.dedup.length ≤ m.held.dedup.length := by
        rw [← List.card_toFinset, ← List.card_toFinset]
        refine Finset.card_le_card (fun x hx => ?_)
        rw [List.mem_toFinset] at hx ⊢
        obtain ⟨q, u, hu, hxu⟩ := AList.mem_flat.mp hx
        by_cases hq : q = seq
        · subst hq
          rw [happ.tables, AList.lookup_insert] at hu
          obtain rfl := Option.some.inj hu
          rw [hgrown, List.mem_append, List.mem_singleton] at hxu
          rcases hxu with hxu | rfl
          · exact AList.mem_flat.mpr ⟨q, t, happ.table, hxu⟩
          · exact hmem
        · rw [hother q hq] at hu
          exact AList.mem_flat.mpr ⟨q, u, hu, hxu⟩
      have hadd := h.exact.freeBlocks_add
      have hadd' := hs.exact.freeBlocks_add
      have htotal : m₁.totalBlocks = m.totalBlocks := hmoves.totalBlocks
      omega
    refine ⟨by rw [if_pos hyes, hfree], fun ids => ?_⟩
    unfold footprint
    rw [happ.tables]
    by_cases hids : seq ∈ ids
    · rw [if_pos ⟨hids, hyes⟩]
      exact AList.footprint_insert_of_fresh hids happ.table hgrown hfresh
    · rw [if_neg (fun hand => hids hand.1), Nat.add_zero]
      refine AList.footprint_congr (fun a ha => AList.lookup_insert_ne ?_)
      rintro rfl
      exact hids ha

/-- Freeing a sequence takes its table and leaves the others. -/
theorem lookup_free {q : SequenceId} (m : KvCacheManager) (seq : SequenceId) :
    (m.free seq).tables.lookup q = if q = seq then none else m.tables.lookup q := by
  rw [free_tables]
  split
  · next hq => rw [hq, AList.lookup_erase]
  · next hq => exact AList.lookup_erase_ne hq

/-- A footprint that the freed sequence is not part of. -/
theorem footprint_free {ids : List SequenceId} (h : seq ∉ ids) :
    (m.free seq).footprint ids = m.footprint ids := by
  refine AList.footprint_congr (fun a ha => ?_)
  rw [lookup_free, if_neg]
  rintro rfl
  exact h ha

/-- No footprint grows when a sequence is freed. -/
theorem footprint_free_le {ids : List SequenceId} :
    (m.free seq).footprint ids ≤ m.footprint ids := by
  refine AList.footprint_le (fun a b ha hb => ⟨ha, ?_⟩)
  rw [lookup_free] at hb
  split at hb
  · exact absurd hb (by simp)
  · exact hb

/-- No table is fuller when a sequence is freed. -/
theorem isFull_of_free {q : SequenceId} (h : (m.free seq).isFull q = true) :
    m.isFull q = true := by
  obtain ⟨t, ht, hlt⟩ := isFull_iff.mp h
  rw [lookup_free] at ht
  split at ht
  · exact absurd ht (by simp)
  · refine isFull_iff.mpr ⟨t, ht, ?_⟩
    rw [← Moves.blockSize (free_moves False m seq)]
    exact hlt

end KvCacheManager
