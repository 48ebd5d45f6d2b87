import OrionServe.CacheMoves

/-!
# Every operation is a run of moves

What each of the seven operations does, said once: the two errors an
operation can really return, which leave the manager as it was, and
otherwise a run of moves to the new state. The rollback in the middle of
`allocate` and three of the error branches of `append_token` turn out to be
unreachable.

Between two operations the manager is `Settled`: the accounting is exact
and every table has as many blocks as its tokens need, which are at least
the tokens of its prompt.
-/

namespace AllocState

variable {m : KvCacheManager} {seq : SequenceId} {prompt : List TokenId}
variable {s s' : AllocState} {i : ℕ} {chunk : List TokenId}

/-- The loop state read as a manager, with the table under construction
entered. -/
def onto (s : AllocState) (m : KvCacheManager) (seq : SequenceId) : KvCacheManager :=
  { m with
    pool := s.pool
    prefixCache := s.prefixCache
    tables := m.tables.insert seq s.table
    trace := s.trace }

theorem onto_lookup (s : AllocState) (m : KvCacheManager) (seq : SequenceId) :
    (s.onto m seq).tables.lookup seq = some s.table := AList.lookup_insert _

/-- What `adopt` returns: nothing, with only the counters changed, or a block
whose entry carries exactly these tokens. -/
theorem adopt_cases (s : AllocState) (hash : Option BlockHash)
    (chunk : List TokenId) :
    (∃ index, index.entries = s.prefixCache.entries
      ∧ s.adopt hash chunk = ({ s with prefixCache := index }, none))
    ∨ ∃ h index pool blk, hash = some h
        ∧ index.entries = s.prefixCache.entries
        ∧ s.prefixCache.entries.lookup h = some ⟨blk, chunk⟩
        ∧ s.pool.Shares pool blk
        ∧ s.adopt hash chunk
          = ({ s with prefixCache := index, pool := pool }, some blk) := by
  rcases hash with - | h
  · exact Or.inl ⟨s.prefixCache, rfl, rfl⟩
  have hentries := PrefixCache.lookup_entries s.prefixCache h chunk
  rcases hl : s.prefixCache.lookup h chunk with ⟨index, - | blk⟩
  · refine Or.inl ⟨index, by rw [← hentries, hl], ?_⟩
    simp only [adopt, hl]
  have hentry : s.prefixCache.entries.lookup h = some ⟨blk, chunk⟩ :=
    PrefixCache.lookup_snd_eq_some.mp (by rw [hl])
  have hindex : index.entries = s.prefixCache.entries := by rw [← hentries, hl]
  rcases BlockPool.addRef_cases s.pool blk with ⟨-, e, he⟩ | ⟨pool, hp, hs⟩
  · refine Or.inl ⟨index, hindex, ?_⟩
    simp only [adopt, hl, he]
  · refine Or.inr ⟨h, index, pool, blk, rfl, hindex, hentry, hs, ?_⟩
    simp only [adopt, hl, hp]

/-- What `takeFresh` does as long as a block is free. -/
theorem takeFresh_of_ne_nil (s : AllocState) (seq : SequenceId)
    (chunk : List TokenId) (hfree : s.pool.freeList ≠ []) :
    ∃ pool blk, s.pool.Refills pool blk
      ∧ s.takeFresh seq chunk =
        ({ s with
            pool := pool
            prefixCache := s.prefixCache.removeEvicted (s.pool.hashOf blk) blk
            table := s.table.push blk
            outcome := { s.outcome with allocated := s.outcome.allocated + 1 }
            chain := none
            stillMatching := false
            trace := .handedOut seq blk :: s.trace }, .ok ()) := by
  rcases BlockPool.allocate_cases s.pool with ⟨hnil, -⟩ | ⟨pool, blk, hp, ho⟩
  · exact absurd hnil hfree
  · refine ⟨_, blk, ho.refills.setContents chunk.length, ?_⟩
    simp only [takeFresh, hp]

/-- **The invariant of `allocate`'s loop** after `i` chunks: one block a
chunk, and while every chunk has matched the hash chain is the prompt's. -/
structure Loop (m : KvCacheManager) (seq : SequenceId) (prompt : List TokenId)
    (i : ℕ) (s : AllocState) : Prop where
  numBlocks : s.table.numBlocks = i
  blockSize : s.pool.blockSize = m.blockSize
  promptOf : ∀ q, (s.onto m seq).promptOf q
    = if q = seq then some prompt else m.promptOf q
  trace : ∃ new, s.trace = new ++ .opened seq prompt :: m.trace
    ∧ ∀ e ∈ new, (∃ k blk, e = .adopted seq prompt k blk)
      ∨ ∃ blk, e = .handedOut seq blk
  chain : s.stillMatching = true → s.chain = chainBefore m.blockSize prompt i

/-- Where the loop starts. -/
theorem loop_allocState (m : KvCacheManager) (seq : SequenceId)
    (prompt : List TokenId) : Loop m seq prompt 0 (m.allocState seq prompt) where
  numBlocks := rfl
  blockSize := rfl
  promptOf := KvCacheManager.promptOf_opened rfl
  trace := ⟨[], rfl, by simp⟩
  chain _ := rfl

theorem Loop.source (hl : Loop m seq prompt i s) :
    (s.onto m seq).promptOf seq = some prompt := (hl.promptOf seq).trans (if_pos rfl)

/-- A chunk of the prompt, located. -/
theorem chunk_spec (hc : (prompt.chunks m.blockSize)[i]? = some chunk) :
    chunk = (prompt.drop (i * m.blockSize)).take m.blockSize ∧ 0 < m.blockSize := by
  refine ⟨List.getElem?_chunks hc, Nat.pos_of_ne_zero (fun hzero => ?_)⟩
  have hi := (List.getElem?_eq_some_iff.mp hc).1
  rw [List.length_chunks, hzero] at hi
  simp at hi

/-- The hash of a chunk that is looked up is the prompt's chained hash
there, and the chunk is full. -/
theorem chunkHash_eq_some (hl : Loop m seq prompt i s)
    (hc : (prompt.chunks m.blockSize)[i]? = some chunk) {h : BlockHash}
    (hh : s.chunkHash chunk = some h) :
    h = chainHash m.blockSize prompt i ∧ (i + 1) * m.blockSize ≤ prompt.length := by
  obtain ⟨hchunk, hbs⟩ := chunk_spec hc
  unfold chunkHash at hh
  split at hh
  · next hcond =>
    rw [Bool.and_eq_true, decide_eq_true_iff, hl.blockSize] at hcond
    rw [← Option.some.inj hh, hl.chain hcond.1, chainHash_eq, hchunk]
    refine ⟨rfl, (List.length_take_drop_eq_iff hbs prompt i).mp ?_⟩
    rw [← hchunk]
    exact hcond.2
  · exact absurd hh (by simp)

/-- A step whose only trace is an event that opens nothing keeps the prompt
on record. -/
theorem Loop.promptOf_cons (hl : Loop m seq prompt i s) {e : BlockEvent}
    (h : s'.trace = e :: s.trace) (he : ∀ q p, e ≠ .opened q p) (q : SequenceId) :
    (s'.onto m seq).promptOf q = if q = seq then some prompt else m.promptOf q := by
  have hprompt : (s'.onto m seq).promptOf = (s.onto m seq).promptOf :=
    KvCacheManager.promptOf_cons h he
  rw [hprompt]
  exact hl.promptOf q

theorem Loop.trace_cons (hl : Loop m seq prompt i s) {e : BlockEvent}
    (h : s'.trace = e :: s.trace)
    (he : (∃ k blk, e = .adopted seq prompt k blk) ∨ ∃ blk, e = .handedOut seq blk) :
    ∃ new, s'.trace = new ++ .opened seq prompt :: m.trace
      ∧ ∀ e ∈ new, (∃ k blk, e = .adopted seq prompt k blk)
        ∨ ∃ blk, e = .handedOut seq blk := by
  obtain ⟨new, hnew, hall⟩ := hl.trace
  refine ⟨e :: new, by rw [h, hnew]; rfl, fun x hx => ?_⟩
  rcases List.mem_cons.mp hx with rfl | hx
  · exact he
  · exact hall x hx

/-- An iteration that adopts a block. -/
theorem allocateChunk_of_adopt (own : Prop) (hl : Loop m seq prompt i s)
    (hc : (prompt.chunks m.blockSize)[i]? = some chunk) {h : BlockHash}
    {index : PrefixCache} {pool : BlockPool} {blk : BlockId}
    (hh : s.chunkHash chunk = some h)
    (hindex : index.entries = s.prefixCache.entries)
    (hentry : s.prefixCache.entries.lookup h = some ⟨blk, chunk⟩)
    (hs : s.pool.Shares pool blk)
    (ha : s.adopt (s.chunkHash chunk) chunk
      = ({ s with prefixCache := index, pool := pool }, some blk)) :
    ∃ s', s.allocateChunk seq prompt chunk = (s', .ok ())
      ∧ KvCacheManager.Moves own (s.onto m seq) (s'.onto m seq)
      ∧ Loop m seq prompt (i + 1) s'
      ∧ s.pool.numFree ≤ s'.pool.numFree + 1 := by
  obtain ⟨rfl, hfull⟩ := chunkHash_eq_some hl hc hh
  have hi := hl.numBlocks
  refine ⟨{ s with
      pool := pool
      prefixCache := index
      table := s.table.push blk
      outcome := { s.outcome with
        reused := s.outcome.reused + 1
        cachedTokens := s.outcome.cachedTokens + chunk.length }
      chain := s.chunkHash chunk
      trace := .adopted seq prompt s.table.numBlocks blk :: s.trace },
    by simp only [allocateChunk, ha], ?_, ?_, ?_⟩
  · subst hi
    refine Relation.ReflTransGen.single (.adopted (onto_lookup s m seq) hl.source ?_ ?_
      hs hindex (AList.insert_insert _).symm rfl)
    · show (s.table.numBlocks + 1) * s.pool.blockSize ≤ prompt.length
      rw [hl.blockSize]
      exact hfull
    · show s.prefixCache.entries.lookup (chainHash s.pool.blockSize _ _)
        = some ⟨blk, (prompt.drop (_ * s.pool.blockSize)).take s.pool.blockSize⟩
      rw [hl.blockSize, ← (chunk_spec hc).1]
      exact hentry
  · refine ⟨?_, hs.blockSize.trans hl.blockSize, hl.promptOf_cons rfl (by simp),
      hl.trace_cons rfl (Or.inl ⟨_, _, rfl⟩), fun _ => hh⟩
    rw [← hi]
    exact List.length_append
  · show s.pool.freeList.length ≤ pool.freeList.length + 1
    rw [hs.freeList]
    split
    · have hlen : s.pool.freeList.length - 1 ≤ (s.pool.freeList.erase blk).length :=
        List.le_length_erase
      omega
    · exact Nat.le_succ _

/-- An iteration that takes a fresh block. -/
theorem allocateChunk_of_fresh (own : Prop) (hl : Loop m seq prompt i s)
    (hfree : s.pool.freeList ≠ []) {index : PrefixCache}
    (hindex : index.entries = s.prefixCache.entries)
    (ha : s.adopt (s.chunkHash chunk) chunk = ({ s with prefixCache := index }, none)) :
    ∃ s', s.allocateChunk seq prompt chunk = (s', .ok ())
      ∧ KvCacheManager.Moves own (s.onto m seq) (s'.onto m seq)
      ∧ Loop m seq prompt (i + 1) s'
      ∧ s.pool.numFree ≤ s'.pool.numFree + 1 := by
  set s₁ : AllocState := { s with prefixCache := index } with hs₁
  obtain ⟨pool, blk, hr, ht⟩ := s₁.takeFresh_of_ne_nil seq chunk hfree
  have hmiss : KvCacheManager.Move own (s.onto m seq) (s₁.onto m seq) :=
    .idle rfl hindex rfl rfl
  refine ⟨_, by simp only [allocateChunk, ha]; exact ht, ?_, ?_, ?_⟩
  · refine (Relation.ReflTransGen.single hmiss).tail ?_
    exact .handedOut (onto_lookup s₁ m seq) hr rfl (AList.insert_insert _).symm rfl
  · refine ⟨?_, hr.blockSize.trans hl.blockSize, hl.promptOf_cons rfl (by simp),
      hl.trace_cons rfl (Or.inr ⟨_, rfl⟩), ?_⟩
    · rw [← hl.numBlocks]
      exact List.length_append
    · intro hmatch
      exact absurd hmatch (by simp)
  · show s.pool.freeList.length ≤ pool.freeList.length + 1
    have hlen := congrArg List.length hr.freeList
    exact le_of_eq hlen

/-- **Step lemma**: with a block free, an iteration is a run of moves and
takes at most one block. -/
theorem allocateChunk_moves (own : Prop) (hl : Loop m seq prompt i s)
    (hc : (prompt.chunks m.blockSize)[i]? = some chunk)
    (hfree : s.pool.freeList ≠ []) :
    ∃ s', s.allocateChunk seq prompt chunk = (s', .ok ())
      ∧ KvCacheManager.Moves own (s.onto m seq) (s'.onto m seq)
      ∧ Loop m seq prompt (i + 1) s'
      ∧ s.pool.numFree ≤ s'.pool.numFree + 1 := by
  rcases s.adopt_cases (s.chunkHash chunk) chunk with
    ⟨index, hindex, ha⟩ | ⟨h, index, pool, blk, hh, hindex, hentry, hs, ha⟩
  · exact allocateChunk_of_fresh own hl hfree hindex ha
  · exact allocateChunk_of_adopt own hl hc hh hindex hentry hs ha

/-- **Run lemma**: with as many free blocks as chunks the loop never rolls
back. -/
theorem allocateChunks_moves (own : Prop) (chunks : List (List TokenId)) :
    ∀ {i : ℕ} {s : AllocState}, Loop m seq prompt i s →
      (∀ k, chunks[k]? = (prompt.chunks m.blockSize)[i + k]?) →
      chunks.length ≤ s.pool.numFree →
      ∃ s', s.allocateChunks seq prompt chunks = (s', .ok ())
        ∧ KvCacheManager.Moves own (s.onto m seq) (s'.onto m seq)
        ∧ Loop m seq prompt (i + chunks.length) s' := by
  induction chunks with
  | nil =>
    intro i s hl _ _
    exact ⟨s, rfl, .refl, hl⟩
  | cons chunk chunks ih =>
    intro i s hl hchunks hfree
    have hne : s.pool.freeList ≠ [] :=
      List.ne_nil_of_length_pos (lt_of_lt_of_le (Nat.succ_pos _) hfree)
    obtain ⟨s₁, h₁, hm₁, hl₁, hfree₁⟩ :=
      allocateChunk_moves own hl (hchunks 0).symm hne
    obtain ⟨s₂, h₂, hm₂, hl₂⟩ := ih hl₁
      (fun k => by rw [← List.getElem?_cons_succ, hchunks (k + 1)]; congr 1; omega)
      (by rw [List.length_cons] at hfree; omega)
    refine ⟨s₂, ?_, hm₁.trans hm₂, ?_⟩
    · simp only [allocateChunks, h₁]
      exact h₂
    · rw [List.length_cons, Nat.add_comm chunks.length 1, ← Nat.add_assoc]
      exact hl₂

/-- **With an empty index the loop takes the oldest free blocks in order.** -/
theorem allocateChunks_cold (seq : SequenceId) (prompt : List TokenId)
    (chunks : List (List TokenId)) :
    ∀ {s : AllocState}, s.prefixCache.Cold →
      chunks.length ≤ s.pool.freeList.length →
      ∃ s', s.allocateChunks seq prompt chunks = (s', .ok ())
        ∧ s'.prefixCache.Cold
        ∧ s'.table.blocks = s.table.blocks ++ s.pool.freeList.take chunks.length
        ∧ s'.pool.freeList = s.pool.freeList.drop chunks.length := by
  induction chunks with
  | nil =>
    intro s hs _
    exact ⟨s, rfl, hs, (List.append_nil _).symm, rfl⟩
  | cons chunk chunks ih =>
    intro s hs hlen
    have hne : s.pool.freeList ≠ [] :=
      List.ne_nil_of_length_pos (lt_of_lt_of_le (Nat.succ_pos _) hlen)
    rcases s.adopt_cases (s.chunkHash chunk) chunk with
      ⟨index, hindex, ha⟩ | ⟨h, -, -, blk, -, -, hentry, -, -⟩
    · obtain ⟨pool, blk, hr, ht⟩ :=
        ({ s with prefixCache := index } : AllocState).takeFresh_of_ne_nil seq chunk hne
      have hfree : s.pool.freeList = blk :: pool.freeList := hr.freeList
      have hcold : index.Cold := fun g => by rw [hindex, hs g]
      obtain ⟨s', hs', hidx, hblocks, hrest⟩ := ih
        (s := { s with
          pool := pool
          prefixCache := index.removeEvicted (s.pool.hashOf blk) blk
          table := s.table.push blk
          outcome := { s.outcome with allocated := s.outcome.allocated + 1 }
          chain := none
          stillMatching := false
          trace := .handedOut seq blk :: s.trace })
        (hcold.removeEvicted _ _) (by rw [hfree] at hlen; exact Nat.le_of_succ_le_succ hlen)
      refine ⟨s', ?_, hidx, ?_, ?_⟩
      · simp only [allocateChunks, allocateChunk, ha, ht]
        exact hs'
      · rw [hblocks, hfree, List.length_cons, List.take_succ_cons]
        exact List.append_assoc _ _ _
      · rw [hrest, hfree, List.length_cons, List.drop_succ_cons]
    · rw [hs h] at hentry
      exact absurd hentry (by simp)

end AllocState

namespace KvCacheManager

variable {m m' : KvCacheManager} {seq : SequenceId} {prompt : List TokenId}

/-! ## `allocate` -/

/-- The state `allocate` ends in when its loop has ended in `s`. -/
def sealTable (m : KvCacheManager) (seq : SequenceId) (n : ℕ) (s : AllocState) :
    KvCacheManager :=
  { m with
    pool := s.pool
    prefixCache := s.prefixCache
    tables := m.tables.insert seq (s.table.setNumTokens n)
    trace := s.trace }

/-- **`allocate` has three outcomes**: the sequence has a table already, too
few blocks are free, or it succeeds by a run of moves. -/
theorem allocate_cases (own : Prop) (m : KvCacheManager) (seq : SequenceId)
    (prompt : List TokenId) :
    (m.isAllocated seq = true ∧ m.allocate seq prompt
        = (m, .error (.internal [.seq seq, " already has a block table"])))
    ∨ (m.tables.lookup seq = none
        ∧ m.freeBlocks < m.blocksNeededFor prompt.length
        ∧ m.allocate seq prompt = (m, .error
          (.cacheExhausted (m.blocksNeededFor prompt.length) m.freeBlocks)))
    ∨ ∃ s, m.tables.lookup seq = none
        ∧ m.blocksNeededFor prompt.length ≤ m.freeBlocks
        ∧ (m.allocState seq prompt).allocateChunks seq prompt (prompt.chunks m.blockSize)
          = (s, .ok ())
        ∧ m.allocate seq prompt
          = (m.sealTable seq prompt.length s, .ok s.outcome)
        ∧ AllocState.Loop m seq prompt (m.blocksNeededFor prompt.length) s
        ∧ Moves own m (m.sealTable seq prompt.length s) := by
  rcases ht : m.tables.lookup seq with - | t
  · have hnot : ¬ (m.isAllocated seq = true) := by
      unfold isAllocated blockTable
      rw [ht]
      simp
    by_cases hneed : m.freeBlocks < m.blocksNeededFor prompt.length
    · refine Or.inr (Or.inl ⟨rfl, hneed, ?_⟩)
      unfold allocate
      rw [if_neg hnot]
      exact if_pos hneed
    · obtain ⟨s, hs, hmoves, hl⟩ := AllocState.allocateChunks_moves own
        (prompt.chunks m.blockSize) (AllocState.loop_allocState m seq prompt)
        (fun k => by rw [Nat.zero_add])
        (by rw [List.length_chunks]; exact not_lt.mp hneed)
      rw [List.length_chunks, Nat.zero_add] at hl
      have hopen : Move own m ((m.allocState seq prompt).onto m seq) :=
        .opened ht rfl rfl rfl rfl
      have hsize : Move own (s.onto m seq) (m.sealTable seq prompt.length s) :=
        .sized (AllocState.onto_lookup s m seq) rfl rfl (AList.insert_insert _).symm rfl
      refine Or.inr (Or.inr ⟨s, rfl, not_lt.mp hneed, hs, ?_, hl,
        (Relation.ReflTransGen.head hopen hmoves).tail hsize⟩)
      unfold allocate
      rw [if_neg hnot]
      refine (if_neg hneed).trans ?_
      rw [hs]
      rfl
  · have hhas : m.isAllocated seq = true := by
      unfold isAllocated blockTable
      rw [ht]
      rfl
    refine Or.inl ⟨hhas, ?_⟩
    unfold allocate
    exact if_pos hhas

/-! ## What holds between operations -/

/-- **A table is as large as it should be**: one block for every
`blockSize` tokens, and room for the prompt it was opened for. -/
structure SizedTable (m : KvCacheManager) (seq : SequenceId) (t : BlockTable) :
    Prop where
  numBlocks : t.numBlocks = BlockTable.blocksRequired t.numTokens m.blockSize
  prompt : ∃ p, m.promptOf seq = some p ∧ p.length ≤ t.numTokens

/-- **What holds between operations.** -/
structure Settled (m : KvCacheManager) : Prop where
  blockSize : 0 < m.blockSize
  exact : m.Exact
  sized : ∀ {seq t}, m.tables.lookup seq = some t → m.SizedTable seq t

/-- **What holds between operations in a pool of any size**: the sizes of the
tables, and that their blocks are there. -/
structure Tallied (m : KvCacheManager) : Prop where
  blockSize : 0 < m.blockSize
  ranged : m.Ranged
  sized : ∀ {seq t}, m.tables.lookup seq = some t → m.SizedTable seq t

theorem Settled.tallied (h : m.Settled) : m.Tallied := ⟨h.blockSize, h.exact.ranged, h.sized⟩

/-- A tallied manager whose accounting is exact. -/
theorem Tallied.settled (h : m.Tallied) (hx : m.Exact) : m.Settled := ⟨h.blockSize, hx, h.sized⟩

/-- A run of moves that keeps every table and opens none keeps the manager
tallied. -/
theorem Tallied.of_moves {own : Prop} (h : m.Tallied) (hm : Moves own m m')
    (htables : m'.tables = m.tables) (hprompt : m'.promptOf = m.promptOf) :
    m'.Tallied where
  blockSize := by rw [hm.blockSize]; exact h.blockSize
  ranged := hm.ranged h.ranged
  sized ht := by
    rw [htables] at ht
    have hs := h.sized ht
    exact ⟨by rw [hm.blockSize]; exact hs.numBlocks, by rw [hprompt]; exact hs.prompt⟩

/-- And settled. -/
theorem Settled.of_moves {own : Prop} (h : m.Settled) (hm : Moves own m m')
    (htables : m'.tables = m.tables) (hprompt : m'.promptOf = m.promptOf) :
    m'.Settled :=
  (h.tallied.of_moves hm htables hprompt).settled (hm.exact h.exact)

/-- A successful `allocate` leaves a tallied manager. -/
theorem Tallied.sealTable {own : Prop} (h : m.Tallied) {s : AllocState}
    (hl : AllocState.Loop m seq prompt (m.blocksNeededFor prompt.length) s)
    (hm : Moves own m (m.sealTable seq prompt.length s)) :
    (m.sealTable seq prompt.length s).Tallied where
  blockSize := by rw [hm.blockSize]; exact h.blockSize
  ranged := hm.ranged h.ranged
  sized {q t} ht := by
    by_cases hq : q = seq
    · subst hq
      rw [KvCacheManager.sealTable, AList.lookup_insert] at ht
      obtain rfl := Option.some.inj ht
      refine ⟨?_, prompt, hl.source, le_rfl⟩
      rw [hm.blockSize]
      exact hl.numBlocks
    · have hprompt : (m.sealTable seq prompt.length s).promptOf q = m.promptOf q :=
        (hl.promptOf q).trans (if_neg hq)
      rw [KvCacheManager.sealTable, AList.lookup_insert_ne hq] at ht
      have hs := h.sized ht
      exact ⟨by rw [hm.blockSize]; exact hs.numBlocks,
        by rw [hprompt]; exact hs.prompt⟩

theorem Settled.sealTable {own : Prop} (h : m.Settled) {s : AllocState}
    (hl : AllocState.Loop m seq prompt (m.blocksNeededFor prompt.length) s)
    (hm : Moves own m (m.sealTable seq prompt.length s)) :
    (m.sealTable seq prompt.length s).Settled :=
  (h.tallied.sealTable hl hm).settled (hm.exact h.exact)

/-- **What a successful `allocate` does**: a table of the size of the prompt
is there that was not. -/
structure Admits (m m' : KvCacheManager) (seq : SequenceId) (prompt : List TokenId)
    (t : BlockTable) : Prop where
  absent : m.tables.lookup seq = none
  tables : m'.tables = m.tables.insert seq t
  numTokens : t.numTokens = prompt.length
  promptOf : ∀ q, m'.promptOf q = if q = seq then some prompt else m.promptOf q

/-! ## `append_token` -/

/-- A table needs another block exactly when its last one is full. -/
theorem SizedTable.needs_block_iff {t : BlockTable} (hbs : 0 < m.blockSize)
    (hs : m.SizedTable seq t) :
    t.numBlocks < BlockTable.blocksRequired (t.numTokens + 1) m.blockSize
      ↔ m.blockSize ∣ t.numTokens := by
  rw [hs.numBlocks]
  unfold BlockTable.blocksRequired
  rw [Nat.ceilDiv_succ hbs]
  split
  · next hd => simp [hd]
  · next hd => simp [hd]

/-- What `growTable` does to a table that is there. -/
theorem growTable_cases (own : Prop) {t : BlockTable} (newLen : ℕ)
    (ht : m.tables.lookup seq = some t) :
    (¬ t.numBlocks < BlockTable.blocksRequired newLen m.blockSize
      ∧ m.growTable seq t newLen = (m, .ok ()))
    ∨ (t.numBlocks < BlockTable.blocksRequired newLen m.blockSize
        ∧ m.pool.freeList = []
        ∧ m.growTable seq t newLen = (m, .error (.cacheExhausted 1 0)))
    ∨ ∃ m' blk, t.numBlocks < BlockTable.blocksRequired newLen m.blockSize
        ∧ m.growTable seq t newLen = (m', .ok ())
        ∧ Move own m m'
        ∧ m'.tables = m.tables.insert seq (t.push blk)
        ∧ m'.trace = .handedOut seq blk :: m.trace := by
  by_cases hneed : t.numBlocks < BlockTable.blocksRequired newLen m.blockSize
  · rcases BlockPool.allocate_cases m.pool with ⟨hnil, ha⟩ | ⟨pool, blk, ha, ho⟩
    · refine Or.inr (Or.inl ⟨hneed, hnil, ?_⟩)
      unfold growTable
      rw [if_pos hneed, ha]
      show (m, Except.error (EngineError.cacheExhausted 1 m.pool.freeList.length)) = _
      rw [hnil]
      rfl
    · refine Or.inr (Or.inr ⟨{ m with
          pool := pool
          prefixCache := m.prefixCache.removeEvicted (m.pool.hashOf blk) blk
          trace := .handedOut seq blk :: m.trace
          tables := m.tables.insert seq (t.push blk) }, blk, hneed, ?_,
        .handedOut ht ho.refills rfl rfl rfl, rfl, rfl⟩)
      unfold growTable
      rw [if_pos hneed, ha]
      simp only [blockTable, ht]
  · refine Or.inl ⟨hneed, ?_⟩
    unfold growTable
    exact if_neg hneed

/-- The fill `recordToken` writes to the last block is within its
capacity. -/
theorem filled_le (hbs : 0 < m.blockSize) {n newLen : ℕ} (hpos : 0 < newLen)
    (hn : n = BlockTable.blocksRequired newLen m.blockSize) :
    newLen - (n - 1) * m.blockSize ≤ m.blockSize := by
  subst hn
  exact (Nat.sub_ceilDiv_pred_mul_bounds hbs hpos).2

/-- The tokens of a table end in its last block, which is recorded to be filled
to there. -/
def FilledTo (m : KvCacheManager) (t : BlockTable) : Prop :=
  ∃ last, t.blocks.getLast? = some last
    ∧ m.pool.tokensOf last = t.numTokens - (t.numBlocks - 1) * m.blockSize

/-- **`recordToken` succeeds** on a table with just enough blocks, past the
prompt. -/
theorem recordToken_moves (own : Prop) {t : BlockTable} {newLen : ℕ}
    (hbs : 0 < m.blockSize) (hr : m.Ranged) (ht : m.tables.lookup seq = some t)
    (hpos : 0 < newLen)
    (hn : t.numBlocks = BlockTable.blocksRequired newLen m.blockSize)
    (hpast : ∀ p, m.promptOf seq = some p → p.length < newLen) :
    ∃ m' last, m.recordToken seq newLen = (m', .ok ())
      ∧ Moves own m m'
      ∧ m'.tables = m.tables.insert seq (t.setNumTokens newLen)
      ∧ m'.trace = .appended seq last :: m.trace
      ∧ m'.FilledTo (t.setNumTokens newLen) := by
  have hblocks : 0 < t.blocks.length := by
    show 0 < t.numBlocks
    rw [hn]
    exact (Nat.lt_ceilDiv_iff_mul_lt hbs).mpr (by omega)
  obtain ⟨last, hlast⟩ : ∃ last, t.blocks.getLast? = some last :=
    ⟨_, List.getLast?_eq_some_getLast (List.ne_nil_of_length_pos hblocks)⟩
  have hin : last ∈ m.pool.ids := hr.mem_ids ht (List.mem_of_getLast? hlast)
  have hfill := filled_le hbs hpos hn
  rcases BlockPool.setContents_cases m.pool last
      (newLen - (t.numBlocks - 1) * m.blockSize) none with
    ⟨hbad, -⟩ | ⟨pool, hp, hrec⟩
  · rcases hbad with hbad | hbad
    · exact absurd hin hbad
    · exact absurd hfill (not_le.mpr hbad)
  set m₁ : KvCacheManager :=
    { m with tables := m.tables.insert seq (t.setNumTokens newLen) } with hm₁
  have hsize : Move own m m₁ := .sized ht rfl rfl rfl rfl
  have hmove : Move own m₁
      { m₁ with pool := pool, trace := .appended seq last :: m.trace } := by
    refine .appended (AList.lookup_insert _) hlast (fun p hp => ?_) hrec rfl rfl rfl
    show p.length < t.numBlocks * m.blockSize
    rw [hn]
    exact lt_of_lt_of_le (hpast p hp) (Nat.le_ceilDiv_mul hbs newLen)
  refine ⟨_, last, ?_, (Relation.ReflTransGen.single hsize).tail hmove, rfl, rfl, last, hlast,
    ?_⟩
  swap
  · show pool.tokensOf last = newLen - (t.numBlocks - 1) * pool.blockSize
    rw [hrec.tokensOf, if_pos rfl, hrec.blockSize]
    rfl
  have hlast' : (t.setNumTokens newLen).blocks.getLast? = some last := hlast
  have hp' : m.pool.setContents last
      (newLen - ((t.setNumTokens newLen).numBlocks - 1) * m.pool.blockSize) none
        = (pool, .ok ()) := hp
  simp only [recordToken, blockTable, ht, hlast', blockSize, hp']
  rfl

/-- The prompt on record after a run of moves that opens no table. -/
theorem promptOf_append {new : List BlockEvent} (h : m'.trace = new ++ m.trace)
    (hnew : ∀ e ∈ new, ∀ q p, e ≠ .opened q p) : m'.promptOf = m.promptOf := by
  induction new generalizing m' with
  | nil => exact promptOf_of_trace_eq h
  | cons e new ih =>
    have hstep : m'.promptOf = ({ m' with trace := new ++ m.trace }
        : KvCacheManager).promptOf :=
      promptOf_cons h (hnew e List.mem_cons_self)
    rw [hstep]
    exact ih rfl (fun x hx => hnew x (List.mem_cons_of_mem _ hx))

/-- **What a successful `append_token` does**: one more token in the table,
and one more block when the last one was full. -/
structure Appends (m m' : KvCacheManager) (seq : SequenceId) (t t' : BlockTable) :
    Prop where
  table : m.tables.lookup seq = some t
  tables : m'.tables = m.tables.insert seq t'
  numTokens : t'.numTokens = t.numTokens + 1
  blocks : (¬ m.blockSize ∣ t.numTokens ∧ t'.blocks = t.blocks)
    ∨ (m.blockSize ∣ t.numTokens ∧ ∃ blk, t'.blocks = t.blocks ++ [blk])
  trace : ∃ new, m'.trace = new ++ m.trace
    ∧ ∀ e ∈ new, (∃ blk, e = .handedOut seq blk) ∨ ∃ blk, e = .appended seq blk

/-- **`append_token` has three outcomes**: no table, a full table and no free
block, or success by a run of moves. -/
theorem appendToken_cases (own : Prop) (h : m.Tallied) (seq : SequenceId) :
    (m.tables.lookup seq = none ∧ m.appendToken seq
        = (m, .error (.internal [.seq seq, " has no block table"])))
    ∨ (∃ t, m.tables.lookup seq = some t ∧ m.blockSize ∣ t.numTokens
        ∧ m.pool.freeList = []
        ∧ m.appendToken seq = (m, .error (.cacheExhausted 1 0)))
    ∨ ∃ m' t t', m.appendToken seq = (m', .ok ()) ∧ Moves own m m'
        ∧ m.Appends m' seq t t' ∧ m'.FilledTo t' := by
  rcases ht : m.tables.lookup seq with - | t
  · refine Or.inl ⟨rfl, ?_⟩
    simp only [appendToken, blockTable, ht]
  have hsized := h.sized ht
  obtain ⟨p, hp, hlen⟩ := hsized.prompt
  have hneeds := hsized.needs_block_iff h.blockSize
  have hpast : ∀ q, m.promptOf seq = some q → q.length < t.numTokens + 1 := by
    intro q hq
    rw [hp] at hq
    obtain rfl := Option.some.inj hq
    exact Nat.lt_succ_of_le hlen
  rcases growTable_cases own (t.numTokens + 1) ht with
    ⟨hneed, hg⟩ | ⟨hneed, hnil, hg⟩ | ⟨m₁, blk, hneed, hg, hmove, htab, htr⟩
  · have hnum : t.numBlocks
        = BlockTable.blocksRequired (t.numTokens + 1) m.blockSize := by
      refine le_antisymm ?_ (not_lt.mp hneed)
      rw [hsized.numBlocks]
      exact Nat.ceilDiv_mono_left h.blockSize (Nat.le_succ _)
    obtain ⟨m', last, hr, hmoves, htab, htr, hfilled⟩ := recordToken_moves own h.blockSize
      h.ranged ht (Nat.succ_pos _) hnum hpast
    refine Or.inr (Or.inr ⟨m', t, t.setNumTokens (t.numTokens + 1), ?_, hmoves,
      ⟨ht, htab, rfl, Or.inl ⟨hneeds.not.mp hneed, rfl⟩, [_], htr, by simp⟩, hfilled⟩)
    simp only [appendToken, blockTable, ht, hg]
    exact hr
  · refine Or.inr (Or.inl ⟨t, rfl, hneeds.mp hneed, hnil, ?_⟩)
    simp only [appendToken, blockTable, ht, hg]
  · have hbs₁ : m₁.blockSize = m.blockSize := hmove.poolSize.1
    have ht₁ : m₁.tables.lookup seq = some (t.push blk) := by
      rw [htab, AList.lookup_insert]
    have hdvd := hneeds.mp hneed
    have hnum : (t.push blk).numBlocks
        = BlockTable.blocksRequired (t.numTokens + 1) m₁.blockSize := by
      rw [hbs₁]
      unfold BlockTable.blocksRequired
      rw [Nat.ceilDiv_succ h.blockSize, if_pos hdvd]
      refine (List.length_append).trans ?_
      exact congrArg (· + 1) hsized.numBlocks
    have hpast₁ : ∀ q, m₁.promptOf seq = some q → q.length < t.numTokens + 1 := by
      rw [promptOf_cons htr (by simp)]
      exact hpast
    obtain ⟨m', last, hr, hmoves, htab', htr', hfilled⟩ := recordToken_moves own
      (by rw [hbs₁]; exact h.blockSize) (hmove.ranged h.ranged) ht₁ (Nat.succ_pos _)
      hnum hpast₁
    refine Or.inr (Or.inr ⟨m', t, (t.push blk).setNumTokens (t.numTokens + 1), ?_,
      Relation.ReflTransGen.head hmove hmoves, ⟨ht, ?_, rfl,
      Or.inr ⟨hdvd, blk, rfl⟩, [.appended seq last, .handedOut seq blk],
      by rw [htr', htr]; rfl, by simp⟩, hfilled⟩)
    · simp only [appendToken, blockTable, ht, hg]
      exact hr
    · rw [htab', htab, AList.insert_insert]

/-- `append_token` leaves a tallied manager. -/
theorem Appends.tallied {own : Prop} {t t' : BlockTable} (ha : m.Appends m' seq t t')
    (h : m.Tallied) (hm : Moves own m m') : m'.Tallied where
  blockSize := by rw [hm.blockSize]; exact h.blockSize
  ranged := hm.ranged h.ranged
  sized {q u} hu := by
    obtain ⟨new, htr, hnew⟩ := ha.trace
    have hprompt := promptOf_append htr (fun e he q p => by
      rcases hnew e he with ⟨blk, rfl⟩ | ⟨blk, rfl⟩ <;> simp)
    rw [ha.tables] at hu
    by_cases hq : q = seq
    · subst hq
      rw [AList.lookup_insert] at hu
      obtain rfl := Option.some.inj hu
      have hs := h.sized ha.table
      obtain ⟨p, hp, hlen⟩ := hs.prompt
      refine ⟨?_, p, by rw [hprompt]; exact hp, ?_⟩
      · rw [hm.blockSize, ha.numTokens]
        unfold BlockTable.blocksRequired
        rw [Nat.ceilDiv_succ h.blockSize]
        rcases ha.blocks with ⟨hd, hb⟩ | ⟨hd, blk, hb⟩
        · rw [if_neg hd]
          exact (congrArg List.length hb).trans hs.numBlocks
        · rw [if_pos hd]
          refine (congrArg List.length hb).trans (List.length_append.trans ?_)
          exact congrArg (· + 1) hs.numBlocks
      · rw [ha.numTokens]
        exact Nat.le_succ_of_le hlen
    · rw [AList.lookup_insert_ne hq] at hu
      have hs := h.sized hu
      exact ⟨by rw [hm.blockSize]; exact hs.numBlocks,
        by rw [hprompt]; exact hs.prompt⟩

/-- And a settled one. -/
theorem Appends.settled {own : Prop} {t t' : BlockTable} (ha : m.Appends m' seq t t')
    (h : m.Settled) (hm : Moves own m m') : m'.Settled :=
  (ha.tallied h.tallied hm).settled (hm.exact h.exact)

/-! ## `commit_prefill` -/

/-- One chunk of a commit. -/
theorem commitChunk_moves {own : Prop} {t : BlockTable} {i : ℕ} {blk : BlockId}
    (hx : m.Ranged) (hown : own → m.promptOf seq = some prompt)
    (ht : m.tables.lookup seq = some t) (hb : t.blocks[i]? = some blk)
    (hfull : (i + 1) * m.blockSize ≤ prompt.length) (hbs : 0 < m.blockSize) :
    Moves own m (m.commitChunk seq prompt i blk (chainHash m.blockSize prompt i)
      ((prompt.drop (i * m.blockSize)).take m.blockSize)) := by
  have hlen := (List.length_take_drop_eq_iff hbs prompt i).mpr hfull
  have hin : blk ∈ m.pool.ids := hx.mem_ids ht (List.mem_of_getElem? hb)
  rcases BlockPool.setContents_cases m.pool blk m.blockSize
      (some (chainHash m.blockSize prompt i)) with ⟨hbad, -⟩ | ⟨pool, hp, hr⟩
  · rcases hbad with hbad | hbad
    · exact absurd hin hbad
    · exact absurd hbad (lt_irrefl _)
  have hpool : (m.pool.setContents blk m.blockSize
      (some (chainHash m.blockSize prompt i))).1 = pool := by rw [hp]
  set m₁ : KvCacheManager := { m with pool := pool } with hm₁
  have hrec : Move own m m₁ := .hashed hown ht hb hfull hr rfl rfl rfl
  have hbs₁ : m₁.blockSize = m.blockSize := hr.blockSize
  refine (Relation.ReflTransGen.single hrec).tail ?_
  unfold commitChunk
  rw [hlen, hpool]
  rcases he : m.prefixCache.entries.lookup (chainHash m.blockSize prompt i) with - | e
  · have hhash : pool.hashOf blk = some (chainHash m₁.blockSize prompt i) := by
      rw [hbs₁, hr.hashOf, if_pos rfl]
    have htok : pool.tokensOf blk = m₁.blockSize := by
      rw [hbs₁, hr.tokensOf, if_pos rfl]
    refine .published hown ht hb (by rw [hbs₁]; exact hfull) hhash htok
      (by rw [hbs₁]; exact he) rfl ?_ rfl rfl
    show (m.prefixCache.insert _ blk _).entries = _
    unfold PrefixCache.insert
    rw [he, hbs₁]
  · refine .idle rfl ?_ rfl rfl
    show (m.prefixCache.insert _ blk _).entries = _
    unfold PrefixCache.insert
    rw [he]

/-- **An operation on the index only**: it keeps every table and neither
opens, hands out nor releases anything. -/
structure IndexOnly (m m' : KvCacheManager) : Prop where
  tables : m'.tables = m.tables
  trace : ∃ new, m'.trace = new ++ m.trace
    ∧ ∀ e ∈ new, ∃ seq prompt i blk, e = .published seq prompt i blk

namespace IndexOnly

theorem refl (m : KvCacheManager) : m.IndexOnly m := ⟨rfl, [], rfl, by simp⟩

theorem trans {m₁ m₂ m₃ : KvCacheManager} (h : m₁.IndexOnly m₂)
    (h' : m₂.IndexOnly m₃) : m₁.IndexOnly m₃ := by
  obtain ⟨new, htr, hnew⟩ := h.trace
  obtain ⟨new', htr', hnew'⟩ := h'.trace
  refine ⟨h'.tables.trans h.tables, new' ++ new, ?_, fun e he => ?_⟩
  · rw [htr', htr, List.append_assoc]
  · rcases List.mem_append.mp he with he | he
    · exact hnew' e he
    · exact hnew e he

theorem promptOf (h : m.IndexOnly m') : m'.promptOf = m.promptOf := by
  obtain ⟨new, htr, hnew⟩ := h.trace
  refine promptOf_append htr (fun e he q p => ?_)
  obtain ⟨seq, prompt, i, blk, rfl⟩ := hnew e he
  simp

end IndexOnly

theorem commitChunk_indexOnly (m : KvCacheManager) (seq : SequenceId)
    (prompt : List TokenId) (i : ℕ) (blk : BlockId) (h : BlockHash)
    (chunk : List TokenId) : m.IndexOnly (m.commitChunk seq prompt i blk h chunk) := by
  refine ⟨rfl, ?_⟩
  rcases hn : (m.prefixCache.entries.lookup h).isNone with - | -
  · exact ⟨[], by simp only [commitChunk, hn]; rfl, by simp⟩
  · exact ⟨[_], by simp only [commitChunk, hn]; rfl, by simp⟩

/-- The loop of a commit. -/
theorem commitChunks_moves (own : Prop) {t : BlockTable} (chunks : List (List TokenId)) :
    ∀ {m : KvCacheManager} {i : ℕ} (blks : List BlockId), m.Ranged → 0 < m.blockSize →
      (own → m.promptOf seq = some prompt) → m.tables.lookup seq = some t →
      (∀ k, chunks[k]? = (prompt.chunks m.blockSize)[i + k]?) →
      (∀ k, blks[k]? = t.blocks[i + k]?) →
      Moves own m (m.commitChunks seq prompt (chainBefore m.blockSize prompt i) i
          chunks blks).1
        ∧ m.IndexOnly (m.commitChunks seq prompt (chainBefore m.blockSize prompt i) i
          chunks blks).1 := by
  induction chunks with
  | nil =>
    intro m i blks _ _ _ _ _ _
    exact ⟨by unfold commitChunks; exact .refl, by unfold commitChunks; exact .refl m⟩
  | cons chunk chunks ih =>
    intro m i blks hx hbs hown ht hchunks hblks
    rcases blks with - | ⟨blk, blks⟩
    · exact ⟨by unfold commitChunks; exact .refl, by unfold commitChunks; exact .refl m⟩
    have hchunk := List.getElem?_chunks (hchunks 0).symm
    rw [Nat.add_zero] at hchunk
    have hblk : t.blocks[i]? = some blk := (hblks 0).symm
    unfold commitChunks
    split
    · next hlen =>
      have hfull : (i + 1) * m.blockSize ≤ prompt.length :=
        (List.length_take_drop_eq_iff hbs prompt i).mp (by rw [← hchunk]; exact hlen)
      have hhash : hashBlock (chainBefore m.blockSize prompt i) chunk
          = chainHash m.blockSize prompt i := by rw [chainHash_eq, hchunk]
      rw [hhash, hchunk]
      have hmove := commitChunk_moves hx hown ht hblk hfull hbs
      have hframe := commitChunk_indexOnly m seq prompt i blk
        (chainHash m.blockSize prompt i)
        ((prompt.drop (i * m.blockSize)).take m.blockSize)
      set m₁ := m.commitChunk seq prompt i blk (chainHash m.blockSize prompt i)
        ((prompt.drop (i * m.blockSize)).take m.blockSize) with hm₁
      have hbs₁ : m₁.blockSize = m.blockSize := hmove.blockSize
      have hrest := ih (m := m₁) (i := i + 1) blks (hmove.ranged hx)
        (by rw [hbs₁]; exact hbs) (by rw [hframe.promptOf]; exact hown)
        (by rw [hframe.tables]; exact ht)
        (fun k => by rw [hbs₁, ← List.getElem?_cons_succ, hchunks (k + 1)]; congr 1; omega)
        (fun k => by rw [← List.getElem?_cons_succ, hblks (k + 1)]; congr 1; omega)
      rw [hbs₁] at hrest
      exact ⟨hmove.trans hrest.1, hframe.trans hrest.2⟩
    · exact ⟨.refl, .refl m⟩

/-- **`commit_prefill` is a run of moves** that keeps every table. -/
theorem commitPrefill_moves (own : Prop) (h : m.Tallied) (seq : SequenceId)
    (prompt : List TokenId)
    (hown : own → m.isAllocated seq = true → m.promptOf seq = some prompt) :
    Moves own m (m.commitPrefill seq prompt)
      ∧ m.IndexOnly (m.commitPrefill seq prompt) := by
  unfold commitPrefill
  split
  · rcases ht : m.blockTable seq with - | t
    · exact ⟨.refl, .refl m⟩
    · have hown' : own → m.promptOf seq = some prompt :=
        fun ho => hown ho (by unfold isAllocated; rw [ht]; rfl)
      have hcommit := commitChunks_moves own (prompt.chunks m.blockSize)
        (i := 0) t.blocks h.ranged h.blockSize hown' ht
        (fun k => by rw [Nat.zero_add]) (fun k => by rw [Nat.zero_add])
      rcases hc : m.commitChunks seq prompt none 0 (prompt.chunks m.blockSize) t.blocks
        with ⟨m₁, - | tip⟩
      · have hm₁ := hcommit
        rw [chainBefore, hc] at hm₁
        simp only [hc]
        exact hm₁
      · have hm₁ := hcommit
        rw [chainBefore, hc] at hm₁
        simp only [hc]
        exact ⟨hm₁.1.tail (.idle rfl rfl rfl rfl), hm₁.2.tables, hm₁.2.trace⟩
  · exact ⟨.refl, .refl m⟩

/-! ## `free`, `preempt`, `evict_cached` and `clear_prefix_cache` -/

/-- What `free` does to a table that is there. -/
theorem free_of_lookup {t : BlockTable} (ht : m.tables.lookup seq = some t) :
    m.free seq = { m with
      chainTips := m.chainTips.erase seq
      tables := m.tables.erase seq
      pool := m.pool.releaseAll t.blocks
      trace := .released seq :: m.trace } := by
  simp only [free, blockTable, ht]

theorem free_of_lookup_none (ht : m.tables.lookup seq = none) :
    m.free seq = { m with chainTips := m.chainTips.erase seq } := by
  simp only [free, blockTable, ht]

theorem free_moves (own : Prop) (m : KvCacheManager) (seq : SequenceId) :
    Moves own m (m.free seq) := by
  rcases ht : m.tables.lookup seq with - | t
  · rw [free_of_lookup_none ht]
    exact Relation.ReflTransGen.single (.idle rfl rfl rfl rfl)
  · rw [free_of_lookup ht]
    exact Relation.ReflTransGen.single (.released ht rfl rfl rfl rfl)

/-- Afterwards the sequence has no table and every other one has its
own. -/
theorem free_tables (m : KvCacheManager) (seq : SequenceId) :
    (m.free seq).tables = m.tables.erase seq := by
  rcases ht : m.tables.lookup seq with - | t
  · rw [free_of_lookup_none ht, AList.erase_of_lookup_eq_none ht]
  · rw [free_of_lookup ht]

theorem free_promptOf (m : KvCacheManager) (seq : SequenceId) :
    (m.free seq).promptOf = m.promptOf := by
  rcases ht : m.tables.lookup seq with - | t
  · rw [free_of_lookup_none ht]
    exact promptOf_of_trace_eq rfl
  · rw [free_of_lookup ht]
    exact promptOf_cons rfl (by simp)

theorem Tallied.free (h : m.Tallied) (seq : SequenceId) : (m.free seq).Tallied where
  blockSize := by rw [(free_moves True m seq).blockSize]; exact h.blockSize
  ranged := (free_moves True m seq).ranged h.ranged
  sized {q t} ht := by
    rw [free_tables] at ht
    by_cases hq : q = seq
    · subst hq
      rw [AList.lookup_erase] at ht
      exact absurd ht (by simp)
    · rw [AList.lookup_erase_ne hq] at ht
      have hs := h.sized ht
      exact ⟨by rw [(free_moves True m seq).blockSize]; exact hs.numBlocks,
        by rw [free_promptOf]; exact hs.prompt⟩

theorem Settled.free (h : m.Settled) (seq : SequenceId) : (m.free seq).Settled :=
  (h.tallied.free seq).settled ((free_moves True m seq).exact h.exact)

/-- Evicting cached contents forgets blocks one after the other. -/
theorem evictCached_moves (own : Prop) (count : ℕ) :
    ∀ m : KvCacheManager, Moves own m (m.evictCached count).1
      ∧ m.IndexOnly (m.evictCached count).1 := by
  induction count with
  | zero => exact fun m => ⟨.refl, .refl m⟩
  | succ count ih =>
    intro m
    rcases BlockPool.evictOldestCached_cases m.pool with
      ⟨he, -⟩ | ⟨pool, blk, h, he, hfree, hhash, hr⟩
    · simp only [evictCached, he]
      exact ⟨.refl, .refl m⟩
    · have hmove : Move own m
          { m with pool := pool, prefixCache := m.prefixCache.remove h blk } :=
        .forgot hfree hhash hr rfl rfl rfl
      have hrest := ih { m with pool := pool, prefixCache := m.prefixCache.remove h blk }
      simp only [evictCached, he]
      exact ⟨Relation.ReflTransGen.head hmove hrest.1, hrest.2.tables, hrest.2.trace⟩

theorem clearPrefixCache_moves (own : Prop) (m : KvCacheManager) :
    Moves own m m.clearPrefixCache ∧ m.IndexOnly m.clearPrefixCache := by
  have hev := evictCached_moves own m.numEvictable m
  have hclear : Move own (m.evictCached m.numEvictable).1 m.clearPrefixCache :=
    .cleared rfl rfl rfl rfl
  exact ⟨hev.1.tail hclear, hev.2.tables, hev.2.trace⟩

/-! ## Through the trait

What the scheduler learns from an answer of the cache. -/

/-- An allocation that succeeds. -/
theorem like_allocate_ok (h : m.Settled)
    (ha : KvCacheManagerLike.allocate m seq prompt = (m', .ok ())) :
    m'.Settled ∧ ∃ t, m.Admits m' seq prompt t := by
  have hm : (m.allocate seq prompt).1 = m' := congrArg Prod.fst ha
  have hr : (m.allocate seq prompt).2.map (fun _ => ()) = .ok () := congrArg Prod.snd ha
  rcases m.allocate_cases True seq prompt with
    ⟨-, he⟩ | ⟨-, -, he⟩ | ⟨s, hnone, -, -, he, hl, hmoves⟩
  · rw [he] at hr
    exact absurd hr (by simp [Except.map])
  · rw [he] at hr
    exact absurd hr (by simp [Except.map])
  · rw [he] at hm
    subst hm
    exact ⟨h.sealTable hl hmoves, _, hnone, rfl, rfl, hl.promptOf⟩

/-- An allocation that fails although there is room: the sequence has a table
already. -/
theorem like_allocate_error {e : EngineError}
    (hcan : KvCacheManagerLike.canAllocate m prompt.length = true)
    (ha : KvCacheManagerLike.allocate m seq prompt = (m', .error e)) :
    m.isAllocated seq = true := by
  have hr : (m.allocate seq prompt).2.map (fun _ => ()) = .error e := congrArg Prod.snd ha
  rcases m.allocate_cases True seq prompt with
    ⟨hhas, -⟩ | ⟨-, hfew, -⟩ | ⟨s, -, -, -, he, -, -⟩
  · exact hhas
  · have hle : m.blocksNeededFor prompt.length ≤ m.freeBlocks := of_decide_eq_true hcan
    exact absurd hfew (not_lt.mpr hle)
  · rw [he] at hr
    exact absurd hr (by simp [Except.map])

/-- An append that succeeds. -/
theorem like_appendToken_ok (h : m.Settled)
    (ha : KvCacheManagerLike.appendToken m seq = (m', .ok ())) :
    m'.Settled ∧ ∃ t t', m.Appends m' seq t t' := by
  rcases m.appendToken_cases True h.tallied seq with
    ⟨-, he⟩ | ⟨t, -, -, -, he⟩ | ⟨m₁, t, t', he, hmoves, happ, -⟩
  · exact absurd (he.symm.trans ha) (by simp)
  · exact absurd (he.symm.trans ha) (by simp)
  · obtain rfl : m₁ = m' := congrArg Prod.fst (he.symm.trans ha)
    exact ⟨happ.settled h hmoves, t, t', happ⟩

/-- An append that fails leaves the manager as it was. -/
theorem like_appendToken_error (h : m.Settled) {e : EngineError}
    (ha : KvCacheManagerLike.appendToken m seq = (m', .error e)) : m' = m := by
  rcases m.appendToken_cases True h.tallied seq with
    ⟨-, he⟩ | ⟨t, -, -, -, he⟩ | ⟨m₁, t, t', he, -, -, -⟩
  · exact congrArg Prod.fst (ha.symm.trans he)
  · exact congrArg Prod.fst (ha.symm.trans he)
  · exact absurd (he.symm.trans ha) (by simp)

end KvCacheManager
