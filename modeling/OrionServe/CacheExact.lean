import OrionServe.CacheGrowth
import OrionServe.CacheReuse

/-!
# What the two fallible operations do exactly

`append_token` and `allocate` return an error in two cases each, and change
nothing then. Otherwise they do what their names say, block by block.

Of `append_token` this holds in a pool of any size: that the blocks of a table
are as many as its tokens need does not depend on whose they are. What
`allocate` takes from the free list are different blocks only in a pool that
its ids can number.
-/

namespace KvCacheManager

variable {own : Prop} {n bs : ℕ} {flag : Bool} {m m' : KvCacheManager} {seq : SequenceId}

/-! ## `append_token` -/

/-- **What a successful `append_token` leaves**, for every place the source
computes with: the fill of the last block neither underflows nor exceeds its
capacity. -/
structure OneMore (m m' : KvCacheManager) (seq : SequenceId) (bs : ℕ) (t t' : BlockTable) :
    Prop where
  before : m.blockTable seq = some t
  after : m'.blockTable seq = some t'
  numTokens : t'.numTokens = t.numTokens + 1
  blocks : ∃ new : List BlockId, t'.blocks = t.blocks ++ new
    ∧ new.length = if bs ∣ t.numTokens then 1 else 0
  filled : ∃ last, t'.blocks.getLast? = some last
    ∧ m'.pool.tokensOf last = t'.numTokens - (t'.numBlocks - 1) * bs
  noUnderflow : 1 ≤ t'.numBlocks ∧ (t'.numBlocks - 1) * bs < t'.numTokens
  capacity : t'.numTokens - (t'.numBlocks - 1) * bs ≤ bs
  others : ∀ q, q ≠ seq → m'.blockTable q = m.blockTable q

theorem Appends.oneMore {t t' : BlockTable} (ha : m.Appends m' seq t t') (hf : m'.FilledTo t')
    (hbs : m'.blockSize = m.blockSize) (h' : m'.Tallied) :
    m.OneMore m' seq m.blockSize t t' := by
  have hafter : m'.tables.lookup seq = some t' := by rw [ha.tables, AList.lookup_insert]
  have hnum : t'.numBlocks = t'.numTokens ⌈/⌉ m.blockSize := by
    rw [← hbs]
    exact (h'.sized hafter).numBlocks
  have hpos : 0 < t'.numTokens := by rw [ha.numTokens]; exact Nat.succ_pos _
  have hsize : 0 < m.blockSize := hbs ▸ h'.blockSize
  obtain ⟨hlt, hle⟩ := Nat.sub_ceilDiv_pred_mul_bounds hsize hpos
  rw [← hnum] at hlt hle
  have hblock : 1 ≤ t'.numBlocks := by
    rw [hnum]
    exact (Nat.lt_ceilDiv_iff_mul_lt hsize).mpr (by rw [Nat.zero_mul]; exact hpos)
  refine ⟨ha.table, hafter, ha.numTokens, ?_, ?_, ⟨hblock, Nat.lt_of_sub_pos hlt⟩, hle,
    fun q hq => ?_⟩
  · rcases ha.blocks with ⟨hno, hsame⟩ | ⟨hyes, blk, hgrown⟩
    · exact ⟨[], by rw [hsame, List.append_nil], by rw [if_neg hno]; rfl⟩
    · exact ⟨[blk], hgrown, by rw [if_pos hyes]; rfl⟩
  · obtain ⟨last, hlast, htok⟩ := hf
    rw [hbs] at htok
    exact ⟨last, hlast, htok⟩
  · show m'.tables.lookup q = m.tables.lookup q
    rw [ha.tables, AList.lookup_insert_ne hq]

/-- A full table and no free block. -/
theorem Tallied.appendToken_of_full (h : m.Tallied) {t : BlockTable}
    (ht : m.blockTable seq = some t) (hdvd : m.blockSize ∣ t.numTokens)
    (hnil : m.pool.freeList = []) :
    m.appendToken seq = (m, .error (.cacheExhausted 1 0)) := by
  have hfull : t.numBlocks < BlockTable.blocksRequired (t.numTokens + 1) m.blockSize :=
    ((h.sized ht).needs_block_iff h.blockSize).mpr hdvd
  have hnone : m.pool.numFree = 0 := congrArg List.length hnil
  simp only [appendToken, ht, growTable, if_pos hfull, BlockPool.allocate_of_nil hnil, hnone]

/-- **`append_token` is exact and failure-atomic** in every reachable state. It
fails exactly for a sequence without a table and for a full table when no
block is free, with one of these two errors and no other, and then changes
nothing; otherwise the table has one token more, and one block more if it was
full. -/
theorem appendToken_exact (hbs : 1 ≤ bs) (h : Reachable False n bs flag m) (seq : SequenceId) :
    ((∃ e, (m.appendToken seq).2 = .error e) ↔ m.blockTable seq = none
        ∨ ∃ t, m.blockTable seq = some t ∧ bs ∣ t.numTokens ∧ m.freeBlocks = 0)
    ∧ (∀ e, (m.appendToken seq).2 = .error e → (m.appendToken seq).1 = m
        ∧ e = if m.isAllocated seq then .cacheExhausted 1 0
          else .internal [.seq seq, " has no block table"])
    ∧ ((m.appendToken seq).2 = .ok () →
        ∃ t t', m.OneMore (m.appendToken seq).1 seq bs t t') := by
  obtain ⟨hmoves, ht⟩ := h.tallied hbs
  have hsize : m.blockSize = bs := hmoves.blockSize
  rcases m.appendToken_cases False ht seq with
    ⟨hnone, ha⟩ | ⟨t, hsome, hdvd, hnil, ha⟩ | ⟨m', t, t', ha, hm, happ, hf⟩
  · have hno : m.isAllocated seq = false := by unfold isAllocated blockTable; rw [hnone]; rfl
    rw [ha, hno]
    refine ⟨iff_of_true ⟨_, rfl⟩ (Or.inl hnone), fun e he => ⟨rfl, ?_⟩, fun hok => ?_⟩
    · exact (Except.error.inj he).symm
    · exact absurd hok (by simp)
  · have hyes : m.isAllocated seq = true := by unfold isAllocated blockTable; rw [hsome]; rfl
    rw [ha, hyes]
    refine ⟨iff_of_true ⟨_, rfl⟩ (Or.inr ⟨t, hsome, hsize ▸ hdvd, ?_⟩),
      fun e he => ⟨rfl, ?_⟩, fun hok => ?_⟩
    · exact congrArg List.length hnil
    · exact (Except.error.inj he).symm
    · exact absurd hok (by simp)
  · rw [ha]
    refine ⟨iff_of_false (by simp) ?_, fun e he => absurd he (by simp), fun _ => ⟨t, t', ?_⟩⟩
    · rintro (hnone | ⟨u, hu, hdvd, hfree⟩)
      · exact absurd (happ.table.symm.trans hnone) (by simp)
      · obtain rfl := Option.some.inj (happ.table.symm.trans hu)
        have herr := ht.appendToken_of_full happ.table (hsize.symm ▸ hdvd)
          (List.length_eq_zero_iff.mp hfree)
        exact absurd (ha.symm.trans herr) (by simp)
    · rw [← hsize]
      exact happ.oneMore hf hm.blockSize (happ.tallied ht hm)

/-- An append to the table of an empty prompt, one into a full pool. -/
theorem appendToken_exact_full :
    let m := CacheOp.runAll (new 2 2 true) [.allocate ⟨1⟩ [], .allocate ⟨2⟩ [7, 8],
      .appendToken ⟨1⟩]
    (m.appendToken ⟨2⟩).1 = m ∧ ∃ t t', m.OneMore (m.appendToken ⟨1⟩).1 ⟨1⟩ 2 t t' := by
  intro m
  have hm : Reachable False 2 2 true m := Reachable.start.runAll _ False.elim
  obtain ⟨e, he⟩ : ∃ e, (m.appendToken ⟨2⟩).2 = .error e :=
    ⟨.cacheExhausted 1 0, by decide +kernel⟩
  have hok : (m.appendToken ⟨1⟩).2 = .ok () := by decide +kernel
  exact ⟨((appendToken_exact (by decide) hm ⟨2⟩).2.1 e he).1,
    (appendToken_exact (by decide) hm ⟨1⟩).2.2 hok⟩

/-! ## `allocate`

The loop adopts blocks while the index has one for the next full chunk, and
takes the rest from the free list. A lookup comes before anything is taken,
so it sees the index as it was. -/

/-- Whether the index names a block for chunk `i` of a prompt, which is full,
under the prompt's chained hash and with equal tokens. -/
def Names (m : KvCacheManager) (prompt : List TokenId) (i : ℕ) (b : BlockId) : Prop :=
  (i + 1) * m.blockSize ≤ prompt.length
  ∧ m.prefixCache.entries.lookup (chainHash m.blockSize prompt i)
    = some ⟨b, (prompt.drop (i * m.blockSize)).take m.blockSize⟩

/-- Whether chunk `i` of a prompt hits the index. -/
def Hits (m : KvCacheManager) (prompt : List TokenId) (i : ℕ) : Prop :=
  m.prefixCachingEnabled = true ∧ ∃ b, m.Names prompt i b

/-- **A move adds at most one entry**, for a full chunk of a prompt and the block
at its place. -/
theorem Move.entry_cases (hmove : Move own m m') {g : BlockHash} {e : CacheEntry}
    (he : m'.prefixCache.entries.lookup g = some e) :
    m.prefixCache.entries.lookup g = some e
    ∨ ∃ seq prompt t i, (own → m.promptOf seq = some prompt) ∧ m.tables.lookup seq = some t
      ∧ t.blocks[i]? = some e.block ∧ (i + 1) * m.blockSize ≤ prompt.length
      ∧ g = chainHash m.blockSize prompt i
      ∧ e.tokens = (prompt.drop (i * m.blockSize)).take m.blockSize := by
  cases hmove with
  | opened absent pool index => exact Or.inl (by rw [← index]; exact he)
  | adopted table source full entry pool index => exact Or.inl (by rw [← index]; exact he)
  | handedOut table pool index =>
    rw [index] at he
    exact Or.inl (PrefixCache.lookup_of_removeEvicted_lookup he)
  | sized table pool index => exact Or.inl (by rw [← index]; exact he)
  | appended table last past pool index => exact Or.inl (by rw [← index]; exact he)
  | hashed source table block full pool index => exact Or.inl (by rw [← index]; exact he)
  | @published seq prompt t i blk source table block full hash tokens absent pool index =>
    rw [index] at he
    by_cases hg : g = chainHash m.blockSize prompt i
    · rw [hg, AList.lookup_insert] at he
      obtain rfl := Option.some.inj he
      exact Or.inr ⟨seq, prompt, t, i, source, table, block, full, hg, rfl⟩
    · rw [AList.lookup_insert_ne hg] at he
      exact Or.inl he
  | released table pool index => exact Or.inl (by rw [← index]; exact he)
  | forgot free hash pool index =>
    rw [index] at he
    exact Or.inl (PrefixCache.lookup_of_remove_lookup he).1
  | cleared pool index =>
    rw [index] at he
    exact absurd he (by simp)
  | idle pool index => exact Or.inl (by rw [← index]; exact he)

/-- **The index names blocks of the pool only.** -/
def IndexRanged (m : KvCacheManager) : Prop :=
  ∀ h e, m.prefixCache.entries.lookup h = some e → e.block ∈ m.pool.ids

/-- **Step lemma.** -/
theorem Move.indexRanged (hmove : Move own m m') (hr : m.Ranged) (h : m.IndexRanged) :
    m'.IndexRanged := by
  intro g e he
  rw [BlockPool.Exact.ids_eq hmove.poolSize.2]
  rcases hmove.entry_cases he with hold | ⟨seq, prompt, t, i, -, table, block, -, -, -⟩
  · exact h g e hold
  · exact hr.mem_ids table (List.mem_of_getElem? block)

/-- **Run lemma.** -/
theorem Moves.indexRanged (h : Moves own m m') (hr : m.Ranged) (hi : m.IndexRanged) :
    m'.IndexRanged := by
  induction h with
  | refl => exact hi
  | tail hmoves hmove ih => exact hmove.indexRanged (Moves.ranged hmoves hr) ih

theorem Reachable.indexRanged (hbs : 1 ≤ bs) (h : Reachable own n bs flag m) :
    m.IndexRanged :=
  (h.tallied hbs).1.indexRanged (tallied_new hbs n flag).ranged
    (fun _ _ he => absurd he (by simp [new, PrefixCache.new]))

end KvCacheManager

namespace BlockPool

variable {p p' : BlockPool} {id : BlockId}

/-- **A block without a reference is free.** -/
def Idle (p : BlockPool) : Prop := ∀ b ∈ p.ids, p.refCount b = 0 → b ∈ p.freeList

theorem Idle.refills (h : p.Idle) (hr : p.Refills p' id) : p'.Idle := by
  intro b hb hzero
  rw [Exact.ids_eq hr.totalBlocks] at hb
  rw [hr.refCount b hb] at hzero
  split at hzero
  · exact absurd hzero one_ne_zero
  next hne =>
  have hfree := h b hb hzero
  rw [hr.freeList] at hfree
  exact (List.mem_cons.mp hfree).resolve_left hne

theorem Idle.shares (h : p.Idle) (hs : p.Shares p' id) : p'.Idle := by
  intro b hb hzero
  rw [Exact.ids_eq hs.totalBlocks] at hb
  rw [hs.refCount b hb] at hzero
  split at hzero
  · exact absurd hzero (Nat.succ_ne_zero _)
  next hne =>
  have hfree := h b hb hzero
  rw [hs.freeList]
  split
  · exact (List.mem_erase_of_ne hne).mpr hfree
  · exact hfree

theorem Exact.idle {held : List BlockId} (h : p.Exact held) : p.Idle :=
  fun _ hb => (RefBalanced.mem_free_iff_count h hb).mpr

end BlockPool

namespace AllocState

variable {m : KvCacheManager} {seq : SequenceId} {prompt chunk : List TokenId}
  {s s₁ s' : AllocState} {i : ℕ}

/-- **What a stretch of the loop does**: it has adopted some blocks and taken
others fresh. The free list is shorter by the fresh ones and by those adopted
that nothing referenced, and the index has lost at most the entries of the
fresh ones. -/
structure Fills (s s' : AllocState) (adopted fresh : List BlockId) : Prop where
  blocks : s'.table.blocks = s.table.blocks ++ (adopted ++ fresh)
  reused : s'.outcome.reused = s.outcome.reused + adopted.length
  cachedTokens : s'.outcome.cachedTokens
    = s.outcome.cachedTokens + adopted.length * s.pool.blockSize
  allocated : s'.outcome.allocated = s.outcome.allocated + fresh.length
  numFree : s.pool.Idle → s.pool.numFree = s'.pool.numFree + fresh.length
    + (adopted.toFinset.filter (fun b => s.pool.refCount b = 0)).card
  refCount : ∀ b ∈ fresh, s'.pool.refCount b = 1
  kept : ∀ g e, s.prefixCache.entries.lookup g = some e → e.block ∉ fresh →
    s'.prefixCache.entries.lookup g = some e
  handedOut : ∃ new, s'.trace = new ++ s.trace ∧ ∀ b ∈ fresh, ∃ q, .handedOut q b ∈ new

/-- The loop is over. -/
theorem Fills.nil (s : AllocState) : Fills s s [] [] where
  blocks := by rw [List.append_nil, List.append_nil]
  reused := rfl
  cachedTokens := by rw [List.length_nil, Nat.zero_mul, Nat.add_zero]
  allocated := rfl
  numFree _ := by simp
  refCount := by simp
  kept _ _ he _ := he
  handedOut := ⟨[], rfl, by simp⟩

/-- **One block taken fresh.** -/
structure TakesFresh (s s₁ : AllocState) (blk : BlockId) : Prop where
  refills : s.pool.Refills s₁.pool blk
  matching : s₁.stillMatching = false
  blocks : s₁.table.blocks = s.table.blocks ++ [blk]
  outcome : s₁.outcome = { s.outcome with allocated := s.outcome.allocated + 1 }
  kept : ∀ g e, s.prefixCache.entries.lookup g = some e → e.block ≠ blk →
    s₁.prefixCache.entries.lookup g = some e
  trace : ∃ q, s₁.trace = .handedOut q blk :: s.trace

theorem takesFresh_of_ok (h : s.takeFresh seq chunk = (s', .ok ())) :
    ∃ blk, TakesFresh s s' blk := by
  have hne : s.pool.freeList ≠ [] := by
    intro hnil
    unfold takeFresh at h
    rw [BlockPool.allocate_of_nil hnil] at h
    exact absurd (Prod.mk.inj h).2 (by simp)
  obtain ⟨pool, blk, hr, ht⟩ := s.takeFresh_of_ne_nil seq chunk hne
  obtain rfl := (Prod.mk.inj (ht.symm.trans h)).1
  exact ⟨blk, hr, rfl, rfl, rfl, fun _ _ he hb => PrefixCache.removeEvicted_lookup_of_ne he hb,
    seq, rfl⟩

/-- A block taken fresh, and only such blocks after it. -/
theorem Fills.fresh {fresh : List BlockId} {blk : BlockId} (hf : Fills s₁ s' [] fresh)
    (ht : TakesFresh s s₁ blk) (hblk : blk ∈ s.pool.ids)
    (hkeep : blk ∉ fresh → s'.pool.refCount blk = s₁.pool.refCount blk) :
    Fills s s' [] (blk :: fresh) where
  blocks := by
    rw [hf.blocks, ht.blocks, List.append_assoc]
    rfl
  reused := by rw [hf.reused, ht.outcome]
  cachedTokens := by
    rw [hf.cachedTokens, ht.outcome, List.length_nil, Nat.zero_mul, Nat.zero_mul]
  allocated := by
    rw [hf.allocated, ht.outcome, List.length_cons]
    show s.outcome.allocated + 1 + fresh.length = _
    omega
  numFree hidle := by
    have hfree : s.pool.numFree = s₁.pool.numFree + 1 := congrArg List.length ht.refills.freeList
    have hrest := hf.numFree (hidle.refills ht.refills)
    rw [List.toFinset_nil, Finset.filter_empty, Finset.card_empty] at hrest ⊢
    rw [List.length_cons]
    omega
  refCount b hb := by
    rcases List.mem_cons.mp hb with rfl | hb
    · by_cases hmem : b ∈ fresh
      · exact hf.refCount b hmem
      · rw [hkeep hmem, ht.refills.refCount b hblk, if_pos rfl]
    · exact hf.refCount b hb
  kept g e he hnot := by
    obtain ⟨hne, hnot⟩ := List.ne_and_not_mem_of_not_mem_cons hnot
    exact hf.kept g e (ht.kept g e he hne) hnot
  handedOut := by
    obtain ⟨new, htr, hnew⟩ := hf.handedOut
    obtain ⟨q, htr₁⟩ := ht.trace
    refine ⟨new ++ [.handedOut q blk], by rw [htr, htr₁, List.append_assoc]; rfl, ?_⟩
    intro b hb
    rcases List.mem_cons.mp hb with rfl | hb
    · exact ⟨q, List.mem_append_right _ (List.mem_singleton_self _)⟩
    · obtain ⟨q', hq'⟩ := hnew b hb
      exact ⟨q', List.mem_append_left _ hq'⟩

/-- **Once a chunk has missed** every chunk takes a fresh block. -/
theorem allocateChunks_fresh (chunks : List (List TokenId)) :
    ∀ {s : AllocState}, s.stillMatching = false →
      (∀ b ∈ s.pool.freeList, b ∈ s.pool.ids) →
      s.allocateChunks seq prompt chunks = (s', .ok ()) →
      ∃ fresh, fresh.length = chunks.length ∧ Fills s s' [] fresh
        ∧ ∀ b ∈ s.pool.ids, b ∉ fresh → s'.pool.refCount b = s.pool.refCount b := by
  induction chunks with
  | nil =>
    intro s _ _ h
    obtain rfl := (Prod.mk.inj h).1
    exact ⟨[], rfl, .nil s, fun _ _ _ => rfl⟩
  | cons chunk chunks ih =>
    intro s hoff hrange h
    unfold allocateChunks at h
    split at h
    swap
    · exact absurd (Prod.mk.inj h).2 (by simp)
    next s₁ hone =>
    have hnone : s.chunkHash chunk = none := by
      unfold chunkHash
      rw [hoff]
      rfl
    simp only [allocateChunk, hnone, adopt] at hone
    obtain ⟨blk, ht⟩ := takesFresh_of_ok hone
    have hids : s₁.pool.ids = s.pool.ids := BlockPool.Exact.ids_eq ht.refills.totalBlocks
    have hblk : blk ∈ s.pool.ids :=
      hrange blk (by rw [ht.refills.freeList]; exact List.mem_cons_self)
    obtain ⟨fresh, hlen, hf, hkeep⟩ := ih ht.matching (fun b hb => by
      rw [hids]
      exact hrange b (by rw [ht.refills.freeList]; exact List.mem_cons_of_mem _ hb)) h
    rw [hids] at hkeep
    refine ⟨blk :: fresh, congrArg (· + 1) hlen, hf.fresh ht hblk (hkeep blk hblk),
      fun b hb hnot => ?_⟩
    obtain ⟨hne, hnot⟩ := List.ne_and_not_mem_of_not_mem_cons hnot
    rw [hkeep b hb hnot, ht.refills.refCount b hb, if_neg hne]

/-- **The loop state while every chunk has matched**: the index is the one the
call started with. -/
structure Adopting (m : KvCacheManager) (prompt : List TokenId) (i : ℕ) (s : AllocState) :
    Prop where
  blockSize : s.pool.blockSize = m.blockSize
  entries : s.prefixCache.entries = m.prefixCache.entries
  named : ∀ h e, m.prefixCache.entries.lookup h = some e → e.block ∈ s.pool.ids
  ranged : ∀ b ∈ s.pool.freeList, b ∈ s.pool.ids
  matching : s.stillMatching = m.prefixCachingEnabled
  chain : s.stillMatching = true → s.chain = chainBefore m.blockSize prompt i

/-- A block the index names is adopted. -/
theorem adopt_of_entry {h : BlockHash} {b : BlockId}
    (he : s.prefixCache.entries.lookup h = some ⟨b, chunk⟩) (hb : b ∈ s.pool.ids) :
    (s.adopt (some h) chunk).2 = some b := by
  rcases hl : s.prefixCache.lookup h chunk with ⟨index, found⟩
  obtain rfl : found = some b := by
    rw [← PrefixCache.lookup_snd_eq_some.mpr he, hl]
  rcases BlockPool.addRef_cases s.pool b with ⟨hout, -⟩ | ⟨pool, hp, -⟩
  · exact absurd hb hout
  · simp only [adopt, hl, hp]

/-- The hash a full chunk is looked up under. -/
theorem Adopting.chunkHash_eq (h : Adopting m prompt i s)
    (hc : (prompt.chunks m.blockSize)[i]? = some chunk) :
    s.chunkHash chunk = if m.prefixCachingEnabled = true ∧ (i + 1) * m.blockSize ≤ prompt.length
      then some (chainHash m.blockSize prompt i) else none := by
  obtain ⟨hchunk, hbs⟩ := chunk_spec hc
  have hlen := List.length_take_drop_eq_iff hbs prompt i
  rw [← hchunk] at hlen
  unfold chunkHash
  rw [h.matching, h.blockSize]
  by_cases hen : m.prefixCachingEnabled = true
  · have hchain := h.chain (h.matching.trans hen)
    rw [hchain, hchunk, ← chainHash_eq, ← hchunk]
    simp only [hen, Bool.true_and, decide_eq_true_iff, true_and]
    exact if_congr hlen rfl rfl
  · rw [if_neg (by simp [hen]), if_neg (fun hand => hen hand.1)]

/-- A block adopted first. -/
theorem Fills.cons {adopted fresh : List BlockId} {blk : BlockId} (hf : Fills s₁ s' adopted fresh)
    (hs : s.pool.Shares s₁.pool blk) (hblocks : s₁.table.blocks = s.table.blocks ++ [blk])
    (hout : s₁.outcome = { s.outcome with
      reused := s.outcome.reused + 1
      cachedTokens := s.outcome.cachedTokens + s.pool.blockSize })
    (hindex : s₁.prefixCache.entries = s.prefixCache.entries)
    (htrace : ∃ e, s₁.trace = e :: s.trace)
    (hin : ∀ b ∈ adopted, b ∈ s.pool.ids) : Fills s s' (blk :: adopted) fresh where
  blocks := by
    rw [hf.blocks, hblocks, List.append_assoc]
    rfl
  reused := by
    rw [hf.reused, hout, List.length_cons]
    show s.outcome.reused + 1 + adopted.length = _
    omega
  cachedTokens := by
    rw [hf.cachedTokens, hout, hs.blockSize, List.length_cons, Nat.succ_mul]
    show s.outcome.cachedTokens + s.pool.blockSize + adopted.length * s.pool.blockSize = _
    omega
  allocated := by rw [hf.allocated, hout]
  numFree hidle := by
    -- later on the block counts as referenced
    have hlater : adopted.toFinset.filter (fun b => s₁.pool.refCount b = 0)
        = (adopted.toFinset.filter (fun b => s.pool.refCount b = 0)).erase blk := by
      ext b
      rw [Finset.mem_erase, Finset.mem_filter, Finset.mem_filter, List.mem_toFinset]
      constructor
      · rintro ⟨hb, hzero⟩
        rw [hs.refCount b (hin b hb)] at hzero
        split at hzero
        · exact absurd hzero (Nat.succ_ne_zero _)
        · next hne => exact ⟨hne, hb, hzero⟩
      · rintro ⟨hne, hb, hzero⟩
        refine ⟨hb, ?_⟩
        rw [hs.refCount b (hin b hb), if_neg hne]
        exact hzero
    have hrest := hf.numFree (hidle.shares hs)
    rw [hlater] at hrest
    rw [List.toFinset_cons]
    by_cases hzero : s.pool.refCount blk = 0
    · have hmem := hidle blk hs.mem_ids hzero
      have hfree : s.pool.numFree = s₁.pool.numFree + 1 := by
        show s.pool.freeList.length = s₁.pool.freeList.length + 1
        rw [hs.freeList, if_pos hzero, List.length_erase_of_mem hmem]
        exact (Nat.sub_add_cancel (List.length_pos_of_mem hmem)).symm
      rw [Finset.filter_insert, if_pos hzero,
        ← Finset.card_erase_add_one (Finset.mem_insert_self blk _),
        Finset.erase_insert_eq_erase]
      omega
    · have hfree : s.pool.numFree = s₁.pool.numFree := by
        show s.pool.freeList.length = s₁.pool.freeList.length
        rw [hs.freeList, if_neg hzero]
      rw [Finset.filter_insert, if_neg hzero, hfree, hrest, Finset.erase_eq_of_notMem]
      exact fun hmem => hzero (Finset.mem_filter.mp hmem).2
  refCount := hf.refCount
  kept g e he := hf.kept g e (by rw [hindex]; exact he)
  handedOut := by
    obtain ⟨new, htr, hnew⟩ := hf.handedOut
    obtain ⟨x, htr₁⟩ := htrace
    refine ⟨new ++ [x], by rw [htr, htr₁, List.append_assoc]; rfl, fun b hb => ?_⟩
    obtain ⟨q, hq⟩ := hnew b hb
    exact ⟨q, List.mem_append_left _ hq⟩

/-- **A chunk that is missed is no hit**: what the index names is adopted. -/
theorem Adopting.not_hits (hs : Adopting m prompt i s)
    (hc : (prompt.chunks m.blockSize)[i]? = some chunk)
    (hmiss : (s.adopt (s.chunkHash chunk) chunk).2 = none) : ¬ m.Hits prompt i := by
  rintro ⟨hen, b, hfull, hb⟩
  have hhash := hs.chunkHash_eq hc
  rw [if_pos ⟨hen, hfull⟩] at hhash
  rw [← hs.entries, ← (chunk_spec hc).1] at hb
  have hsome := adopt_of_entry hb (hs.named _ _ (hs.entries ▸ hb))
  rw [← hhash, hmiss] at hsome
  exact absurd hsome (by simp)

/-- **A chunk that is adopted**: caching is on, and the index names the block
for it. -/
theorem Adopting.names (hs : Adopting m prompt i s) (hbs : 0 < m.blockSize)
    (hc : (prompt.chunks m.blockSize)[i]? = some chunk) {g : BlockHash} {blk : BlockId}
    (hg : s.chunkHash chunk = some g)
    (hentry : s.prefixCache.entries.lookup g = some ⟨blk, chunk⟩) :
    m.prefixCachingEnabled = true ∧ m.Names prompt i blk ∧ chunk.length = s.pool.blockSize
    ∧ g = chainHash m.blockSize prompt i := by
  have hhash := hs.chunkHash_eq hc
  obtain ⟨hchunk, -⟩ := chunk_spec hc
  have hcond : m.prefixCachingEnabled = true ∧ (i + 1) * m.blockSize ≤ prompt.length := by
    by_contra hnot
    rw [if_neg hnot] at hhash
    exact absurd (hg.symm.trans hhash) (by simp)
  rw [if_pos hcond] at hhash
  obtain rfl := Option.some.inj (hg.symm.trans hhash)
  refine ⟨hcond.1, ⟨hcond.2, ?_⟩, ?_, rfl⟩
  · rw [← hs.entries, ← hchunk]
    exact hentry
  · rw [hs.blockSize, hchunk]
    exact (List.length_take_drop_eq_iff hbs prompt i).mpr hcond.2

/-- **Step lemma**: the loop goes on adopting after an adoption. -/
theorem Adopting.next (hs : Adopting m prompt i s) {blk : BlockId}
    (hshare : s.pool.Shares s₁.pool blk)
    (hindex : s₁.prefixCache.entries = s.prefixCache.entries)
    (hmatching : s₁.stillMatching = s.stillMatching)
    (hchain : s₁.chain = chainBefore m.blockSize prompt (i + 1)) :
    Adopting m prompt (i + 1) s₁ := by
  have hids : s₁.pool.ids = s.pool.ids := BlockPool.Exact.ids_eq hshare.totalBlocks
  refine ⟨hshare.blockSize.trans hs.blockSize, hindex.trans hs.entries,
    fun g e he => hids.symm ▸ hs.named g e he, fun b hb => ?_, hmatching.trans hs.matching,
    fun _ => hchain⟩
  rw [hids]
  rw [hshare.freeList] at hb
  split at hb
  · exact hs.ranged b (List.mem_of_mem_erase hb)
  · exact hs.ranged b hb

/-- **The loop adopts the longest run of hits and takes the rest fresh.** -/
theorem allocateChunks_fills (chunks : List (List TokenId)) :
    ∀ {i : ℕ} {s : AllocState}, Adopting m prompt i s → 0 < m.blockSize →
      (∀ k, chunks[k]? = (prompt.chunks m.blockSize)[i + k]?) →
      s.allocateChunks seq prompt chunks = (s', .ok ()) →
      ∃ adopted fresh, Fills s s' adopted fresh
        ∧ adopted.length + fresh.length = chunks.length
        ∧ (∀ j b, adopted[j]? = some b →
          m.prefixCachingEnabled = true ∧ m.Names prompt (i + j) b)
        ∧ ¬ m.Hits prompt (i + adopted.length) := by
  induction chunks with
  | nil =>
    intro i s _ hbs hchunks h
    obtain rfl := (Prod.mk.inj h).1
    refine ⟨[], [], .nil s, rfl, by simp, ?_⟩
    rintro ⟨-, b, hfull, -⟩
    -- there is no chunk left
    have hend := List.getElem?_eq_none_iff.mp (hchunks 0).symm
    rw [List.length_chunks, Nat.add_zero] at hend
    have hshort := (Nat.ceilDiv_le_iff_le_mul_right hbs).mp hend
    rw [List.length_nil, Nat.add_zero, Nat.succ_mul] at hfull
    omega
  | cons chunk chunks ih =>
    intro i s hs hbs hchunks h
    have hc : (prompt.chunks m.blockSize)[i]? = some chunk := (hchunks 0).symm
    unfold allocateChunks at h
    split at h
    swap
    · exact absurd (Prod.mk.inj h).2 (by simp)
    next s₁ hone =>
    rcases s.adopt_cases (s.chunkHash chunk) chunk with
      ⟨index, hindex, ha⟩ | ⟨g, index, pool, blk, hg, hindex, hentry, hshare, ha⟩
    · -- a miss, and from here on every block is fresh
      simp only [allocateChunk, ha] at hone
      have hmiss : ¬ m.Hits prompt i := hs.not_hits hc (by rw [ha])
      obtain ⟨blk, ht₀⟩ := takesFresh_of_ok hone
      have ht : TakesFresh s s₁ blk := ⟨ht₀.refills, ht₀.matching, ht₀.blocks, ht₀.outcome,
        fun g e he => ht₀.kept g e (by rw [hindex]; exact he), ht₀.trace⟩
      have hids : s₁.pool.ids = s.pool.ids := BlockPool.Exact.ids_eq ht.refills.totalBlocks
      have hin : ∀ b, b = blk ∨ b ∈ s₁.pool.freeList → b ∈ s.pool.ids := by
        intro b hb
        refine hs.ranged b ?_
        rw [ht.refills.freeList]
        exact List.mem_cons.mpr hb
      obtain ⟨fresh, hlen, hf, hkeep⟩ := allocateChunks_fresh chunks ht.matching
        (fun b hb => hids ▸ hin b (Or.inr hb)) h
      have hblk := hin blk (Or.inl rfl)
      refine ⟨[], blk :: fresh, hf.fresh ht hblk (hkeep blk (hids ▸ hblk)), ?_, by simp, hmiss⟩
      rw [List.length_nil, Nat.zero_add, List.length_cons, List.length_cons, hlen]
    · simp only [allocateChunk, ha] at hone
      have hs₁ := (Prod.mk.inj hone).1
      obtain ⟨hen, hnames, hlen, hgchain⟩ := hs.names hbs hc hg hentry
      have hnext : Adopting m prompt (i + 1) s₁ := by
        rw [← hs₁]
        exact hs.next hshare hindex rfl (hg.trans (congrArg some hgchain))
      obtain ⟨adopted, fresh, hf, hsum, hadopt, hmiss⟩ := ih hnext hbs
        (fun k => by rw [← List.getElem?_cons_succ, hchunks (k + 1)]; congr 1; omega) h
      refine ⟨blk :: adopted, fresh, hf.cons (s := s) ?_ ?_ ?_ ?_ ?_ (fun b hb => ?_), ?_,
        fun j b hj => ?_, ?_⟩
      · rw [← hs₁]
        exact hshare
      · rw [← hs₁]
        rfl
      · rw [← hs₁, ← hlen]
      · rw [← hs₁]
        exact hindex
      · rw [← hs₁]
        exact ⟨_, rfl⟩
      · obtain ⟨j, hj⟩ := List.mem_iff_getElem?.mp hb
        exact hs.named _ _ (hadopt j b hj).2.2
      · rw [List.length_cons, List.length_cons, Nat.add_right_comm, hsum]
      · cases j with
        | zero =>
          obtain rfl := Option.some.inj hj
          exact ⟨hen, hnames⟩
        | succ j =>
          have hrest := hadopt j b hj
          rw [Nat.add_assoc, Nat.add_comm 1 j] at hrest
          exact hrest
      · rw [List.length_cons, Nat.add_comm adopted.length 1, ← Nat.add_assoc]
        exact hmiss

end AllocState

namespace KvCacheManager

variable {n bs : ℕ} {flag : Bool} {m m' : KvCacheManager} {seq : SequenceId}
  {prompt : List TokenId}

/-- Where the loop starts. -/
theorem Ranged.adopting (h : m.Ranged) (hi : m.IndexRanged) (seq : SequenceId)
    (prompt : List TokenId) : AllocState.Adopting m prompt 0 (m.allocState seq prompt) where
  blockSize := rfl
  entries := rfl
  named := hi
  ranged := h.free
  matching := rfl
  chain _ := rfl

/-- The longest run of hits ends at the first miss. -/
theorem isGreatest_hits {k : ℕ} (hall : ∀ i < k, m.Hits prompt i) (hmiss : ¬ m.Hits prompt k) :
    IsGreatest {k | ∀ i < k, m.Hits prompt i} k :=
  ⟨hall, fun _ hj => not_lt.mp (fun hlt => hmiss (hj k hlt))⟩

/-- **What a successful `allocate` does**, block by block: the table is the
indexed blocks of the longest run of hits and then fresh ones. -/
structure Fills (m m' : KvCacheManager) (seq : SequenceId) (prompt : List TokenId) (bs : ℕ)
    (outcome : AllocationOutcome) (adopted fresh : List BlockId) : Prop where
  greatest : IsGreatest {k | ∀ i < k, m.Hits prompt i} adopted.length
  names : ∀ i b, adopted[i]? = some b → m.Names prompt i b
  table : m'.blockTable seq = some ⟨adopted ++ fresh, prompt.length⟩
  reused : outcome.reused = adopted.length
  cachedTokens : outcome.cachedTokens = adopted.length * bs
  allocated : outcome.allocated = prompt.length ⌈/⌉ bs - adopted.length
  length : adopted.length + fresh.length = prompt.length ⌈/⌉ bs
  refCount : ∀ b ∈ fresh, m'.pool.refCount b = 1

/-- **A successful `allocate`, read off its loop.** -/
theorem Tallied.allocate_fills (h : m.Tallied) (hi : m.IndexRanged) {outcome : AllocationOutcome}
    (ha : m.allocate seq prompt = (m', .ok outcome)) :
    ∃ s adopted fresh, AllocState.Fills (m.allocState seq prompt) s adopted fresh
      ∧ m' = m.sealTable seq prompt.length s ∧ Moves False m m'
      ∧ m.Fills m' seq prompt m.blockSize outcome adopted fresh := by
  rcases m.allocate_cases False seq prompt with
    ⟨-, he⟩ | ⟨-, -, he⟩ | ⟨s, -, -, hloop, he, hl, hm⟩
  · exact absurd (ha.symm.trans he) (by simp)
  · exact absurd (ha.symm.trans he) (by simp)
  obtain ⟨rfl, hout⟩ := Prod.mk.inj (ha.symm.trans he)
  obtain rfl := Except.ok.inj hout
  obtain ⟨adopted, fresh, hf, hsum, hadopt, hmiss⟩ := AllocState.allocateChunks_fills _
    (h.ranged.adopting hi seq prompt) h.blockSize (fun k => by rw [Nat.zero_add]) hloop
  rw [List.length_chunks] at hsum
  rw [Nat.zero_add] at hmiss
  simp only [Nat.zero_add] at hadopt
  have hblocks : s.table.blocks = adopted ++ fresh := hf.blocks.trans (List.nil_append _)
  refine ⟨s, adopted, fresh, hf, rfl, hm, isGreatest_hits (fun i hlt => ?_) hmiss,
    fun i b hb => (hadopt i b hb).2, ?_, hf.reused.trans (Nat.zero_add _),
    hf.cachedTokens.trans (Nat.zero_add _), ?_, hsum, hf.refCount⟩
  · obtain ⟨hen, hnames⟩ := hadopt i _ (List.getElem?_eq_getElem hlt)
    exact ⟨hen, _, hnames⟩
  · show (m.tables.insert seq (s.table.setNumTokens prompt.length)).lookup seq = _
    rw [AList.lookup_insert, ← hblocks]
    rfl
  · rw [hf.allocated, ← hsum, Nat.add_sub_cancel_left]
    exact Nat.zero_add _

/-- **Fresh blocks are in one place only**: each counts one reference. -/
theorem Fills.distinct {outcome : AllocationOutcome} {adopted fresh : List BlockId}
    (hf : m.Fills m' seq prompt bs outcome adopted fresh) (hx : m'.Exact) :
    fresh.Nodup ∧ adopted.Disjoint fresh := by
  have honce : ∀ b ∈ fresh, adopted.count b + fresh.count b ≤ 1 := by
    intro b hb
    have hheld := (held_perm hf.table).count_eq b
    rw [List.count_append, List.count_append] at hheld
    have hin : b ∈ m'.pool.ids := hx.mem_ids hf.table (List.mem_append_right _ hb)
    rw [(RefBalanced.count_eq hx b hin).symm.trans (hf.refCount b hb)] at hheld
    exact hheld ▸ Nat.le_add_right _ _
  refine ⟨List.nodup_iff_count_le_one.mpr (fun b => ?_), fun b hadopted hb => ?_⟩
  · by_cases hb : b ∈ fresh
    · exact (Nat.le_add_left _ _).trans (honce b hb)
    · rw [List.count_eq_zero.mpr hb]
      exact Nat.zero_le 1
  · have htwo := Nat.add_le_add (List.one_le_count_iff.mpr hadopted)
      (List.one_le_count_iff.mpr hb)
    exact absurd (htwo.trans (honce b hb)) (by decide)

/-- **`allocate` is exact and failure-atomic** in every reachable state. It
succeeds exactly for a sequence without a table when the whole prompt fits the
free blocks, reuse or not, and otherwise changes nothing; so what
`can_allocate` admits never fails for a new sequence, and the rollback in the
middle of the loop is never reached. It adopts the longest run of hits and
takes blocks from the free list for the rest; in a pool its ids can number
these are different blocks, each for this table alone. -/
theorem allocate_exact (hbs : 1 ≤ bs) (h : Reachable False n bs flag m) (seq : SequenceId)
    (prompt : List TokenId) :
    ((∃ outcome, (m.allocate seq prompt).2 = .ok outcome)
      ↔ m.blockTable seq = none ∧ prompt.length ⌈/⌉ bs ≤ m.freeBlocks)
    ∧ (∀ e, (m.allocate seq prompt).2 = .error e → (m.allocate seq prompt).1 = m)
    ∧ (m.isAllocated seq = false → m.canAllocate prompt.length = true →
        ∃ outcome, (m.allocate seq prompt).2 = .ok outcome)
    ∧ ∀ m' outcome, m.allocate seq prompt = (m', .ok outcome) →
        ∃ adopted fresh, m.Fills m' seq prompt bs outcome adopted fresh
        ∧ (n ≤ 2 ^ 32 → fresh.Nodup ∧ adopted.Disjoint fresh
          ∧ m.freeBlocks = m'.freeBlocks + outcome.allocated
            + (adopted.toFinset.filter (fun b => m.pool.refCount b = 0)).card) := by
  have ht := (h.tallied hbs).2
  have hsize : m.blockSize = bs := (h.tallied hbs).1.blockSize
  have hneed : m.blocksNeededFor prompt.length = prompt.length ⌈/⌉ bs := by rw [← hsize]; rfl
  have hok : (∃ outcome, (m.allocate seq prompt).2 = .ok outcome)
      ↔ m.blockTable seq = none ∧ prompt.length ⌈/⌉ bs ≤ m.freeBlocks := by
    rw [← hneed]
    rcases m.allocate_cases False seq prompt with
      ⟨hhas, ha⟩ | ⟨hnone, hfew, ha⟩ | ⟨s, hnone, hfit, -, ha, -, -⟩
    · rw [ha]
      refine iff_of_false (by simp) (fun hand => ?_)
      unfold isAllocated at hhas
      rw [hand.1] at hhas
      exact absurd hhas (by simp)
    · rw [ha]
      exact iff_of_false (by simp) (fun hand => absurd hand.2 (not_le.mpr hfew))
    · rw [ha]
      exact iff_of_true ⟨_, rfl⟩ ⟨hnone, hfit⟩
  refine ⟨hok, fun e he => ?_, fun hnew hcan => hok.mpr ⟨?_, ?_⟩, fun m' outcome ha => ?_⟩
  · rcases m.allocate_cases False seq prompt with
      ⟨-, ha⟩ | ⟨-, -, ha⟩ | ⟨s, -, -, -, ha, -, -⟩
    · rw [ha]
    · rw [ha]
    · rw [ha] at he
      exact absurd he (by simp)
  · exact Option.not_isSome_iff_eq_none.mp (by unfold isAllocated at hnew; simp [hnew])
  · rw [← hneed]
    exact of_decide_eq_true hcan
  · obtain ⟨s, adopted, fresh, hloop, rfl, hm, hf⟩ := ht.allocate_fills (h.indexRanged hbs) ha
    rw [hsize] at hf
    refine ⟨adopted, fresh, hf, fun hn => ?_⟩
    have hx := (h.settled hbs hn).2.exact
    obtain ⟨hnodup, hdisjoint⟩ := hf.distinct (hm.exact hx)
    refine ⟨hnodup, hdisjoint, ?_⟩
    have hallocated : outcome.allocated = fresh.length := by
      rw [hf.allocated, ← hf.length, Nat.add_sub_cancel_left]
    rw [hallocated]
    exact hloop.numFree (BlockPool.Exact.idle hx)

/-- The second of two prompts that share their first block. -/
theorem allocate_exact_shared_prefix :
    let m := CacheOp.runAll (new 4 2 true) [.allocate ⟨1⟩ [7, 8, 9],
      .commitPrefill ⟨1⟩ [7, 8, 9], .free ⟨1⟩]
    ∃ m' outcome adopted fresh, m.Fills m' ⟨2⟩ [7, 8, 5] 2 outcome adopted fresh
      ∧ fresh.Nodup := by
  intro m
  have hm : Reachable False 4 2 true m := Reachable.start.runAll _ False.elim
  have hexact := allocate_exact (by decide) hm ⟨2⟩ [7, 8, 5]
  have hroom : m.blockTable ⟨2⟩ = none ∧ [7, 8, 5].length ⌈/⌉ 2 ≤ m.freeBlocks := by
    decide +kernel
  obtain ⟨outcome, ho⟩ := hexact.1.mpr hroom
  obtain ⟨adopted, fresh, hf, hdistinct⟩ := hexact.2.2.2 _ outcome (Prod.ext rfl ho)
  exact ⟨_, outcome, adopted, fresh, hf, (hdistinct (by decide)).1⟩

/-- **The bound on the pool is needed**: where the last block has the id of
the first, one `allocate` of the whole pool takes that id twice. -/
theorem allocate_repeats_above_u32 :
    ∃ m seq prompt m' outcome, Reachable False (2 ^ 32 + 1) 2 true m
      ∧ m.allocate seq prompt = (m', .ok outcome)
      ∧ ¬ ∃ adopted fresh, m.Fills m' seq prompt 2 outcome adopted fresh ∧ fresh.Nodup := by
  obtain ⟨k, hk, hwrap⟩ : ∃ k, 2 ^ 32 + 1 = k + 2 ∧ (k + 1) % 2 ^ 32 = 0 :=
    ⟨2 ^ 32 - 1, by norm_num, by norm_num⟩
  rw [hk]
  obtain ⟨-, htable, hfirst, hlast⟩ := allocate_whole_pool k hwrap
  set m₀ := new (k + 2) 2 true with hm₀
  set prompt := wholePrompt k with hprompt
  have hstart : Reachable False (k + 2) 2 true m₀ := .start
  have hexact := allocate_exact (by decide) hstart ⟨1⟩ prompt
  rcases hout : (m₀.allocate ⟨1⟩ prompt).2 with e | outcome
  · rw [hexact.2.1 e hout] at htable
    exact absurd htable (by simp [hm₀, new, blockTable])
  have ha : m₀.allocate ⟨1⟩ prompt = ((m₀.allocate ⟨1⟩ prompt).1, .ok outcome) :=
    Prod.ext rfl hout
  refine ⟨m₀, ⟨1⟩, prompt, _, outcome, .start, ha, ?_⟩
  rintro ⟨adopted, fresh, hf, hnodup⟩
  -- a new index has nothing to adopt
  have hnone : adopted = [] := by
    refine List.eq_nil_iff_forall_not_mem.mpr (fun b hb => ?_)
    obtain ⟨i, hi⟩ := List.mem_iff_getElem?.mp hb
    exact absurd (hf.names i b hi).2 (by simp [hm₀, new, PrefixCache.new])
  have hblocks := hf.table
  rw [htable, hnone, List.nil_append] at hblocks
  have hsame := congrArg BlockTable.blocks (Option.some.inj hblocks)
  change m₀.pool.freeList = fresh at hsame
  rw [← hsame] at hnodup
  have hplace := (List.getElem?_inj (List.getElem?_eq_some_iff.mp hfirst).1 hnodup).mp
    (hfirst.trans hlast.symm)
  exact absurd hplace (Nat.succ_ne_zero k).symm

end KvCacheManager
