import OrionServe.CacheIndex

/-!
# What an admission takes from the index

`allocate` counts the blocks it adopts and the tokens that their KV entries
save. An admission adopts something exactly when the index names a block for
the first chunk of the prompt: later chunks are only looked up while every
earlier one has matched, and a block the index names is one of the pool.

A block is *published* from the time a commit enters it into the index until
it is handed out again. Where a published block stands in a table, it was
adopted for that place or published after the table was opened.
-/

/-- How many blocks a sequence has adopted since its table was last opened. -/
def adoptedSince (seq : SequenceId) : List BlockEvent → ℕ
  | [] => 0
  | .opened s _ :: past => if s = seq then 0 else adoptedSince seq past
  | .adopted s _ _ _ :: past => adoptedSince seq past + if s = seq then 1 else 0
  | .handedOut _ _ :: past => adoptedSince seq past
  | .appended _ _ :: past => adoptedSince seq past
  | .published _ _ _ _ :: past => adoptedSince seq past
  | .released _ :: past => adoptedSince seq past

/-- A stretch of the history in which a sequence neither opens a table nor
adopts a block. -/
theorem adoptedSince_append {seq : SequenceId} (new : List BlockEvent)
    {past : List BlockEvent}
    (hnew : ∀ e ∈ new, (∀ p, e ≠ .opened seq p) ∧ ∀ p i b, e ≠ .adopted seq p i b) :
    adoptedSince seq (new ++ past) = adoptedSince seq past := by
  induction new with
  | nil => rfl
  | cons e new ih =>
    have hrest := ih (fun x hx => hnew x (List.mem_cons_of_mem _ hx))
    obtain ⟨hopen, hadopt⟩ := hnew e List.mem_cons_self
    cases e with
    | opened s p =>
      exact (if_neg (fun heq => hopen p (by rw [heq]))).trans hrest
    | adopted s p i b =>
      have hne : ¬ s = seq := fun heq => hadopt p i b (by rw [heq])
      show adoptedSince seq (new ++ past) + (if s = seq then 1 else 0) = _
      rw [if_neg hne]
      exact hrest
    | handedOut | appended | published | released => exact hrest

/-- Only a block of the pool carries a hash. -/
theorem BlockPool.mem_ids_of_hashOf {p : BlockPool} {id : BlockId} {h : BlockHash}
    (hh : p.hashOf id = some h) : id ∈ p.ids := by
  unfold hashOf at hh
  obtain ⟨b, hb, -⟩ := Option.bind_eq_some_iff.mp hh
  exact mem_ids_of_get hb

namespace AllocState

variable {seq : SequenceId} {prompt chunk : List TokenId}
  {s s' : AllocState}

/-- **One iteration, by what it counts**: a block is adopted, or nothing is
looked up from here on. -/
theorem allocateChunk_counts (h : s.allocateChunk seq prompt chunk = (s', .ok ())) :
    s'.pool.blockSize = s.pool.blockSize
    ∧ (((s.adopt (s.chunkHash chunk) chunk).2.isSome = true ∧ s.stillMatching = true
        ∧ s'.outcome.reused = s.outcome.reused + 1
        ∧ s'.outcome.cachedTokens = s.outcome.cachedTokens + s.pool.blockSize
        ∧ adoptedSince seq s'.trace = adoptedSince seq s.trace + 1)
      ∨ ((s.adopt (s.chunkHash chunk) chunk).2 = none ∧ s'.stillMatching = false
        ∧ s'.outcome.reused = s.outcome.reused
        ∧ s'.outcome.cachedTokens = s.outcome.cachedTokens
        ∧ adoptedSince seq s'.trace = adoptedSince seq s.trace)) := by
  rcases s.adopt_cases (s.chunkHash chunk) chunk with
    ⟨index, -, ha⟩ | ⟨g, index, pool, blk, hg, -, -, hs, ha⟩
  · simp only [allocateChunk, ha, takeFresh] at h
    rw [ha]
    split at h
    · next pool blk evicted halloc =>
      obtain rfl := (Prod.mk.inj h).1
      refine ⟨?_, Or.inr ⟨rfl, rfl, rfl, rfl, rfl⟩⟩
      obtain ⟨-, hbs, -⟩ := BlockPool.setContents_fst pool blk chunk.length none
      rcases BlockPool.allocate_cases s.pool with ⟨-, he⟩ | ⟨pool', blk', hp, ho⟩
      · exact absurd (halloc.symm.trans he) (by simp)
      · obtain rfl : pool = pool' := (Prod.mk.inj (halloc.symm.trans hp)).1
        exact hbs.trans ho.blockSize
    · exact absurd (Prod.mk.inj h).2 (by simp)
  · simp only [allocateChunk, ha] at h
    rw [ha]
    obtain rfl := (Prod.mk.inj h).1
    have hcond : s.stillMatching = true ∧ chunk.length = s.pool.blockSize := by
      unfold chunkHash at hg
      split at hg
      · next hc => simpa using hc
      · exact absurd hg (by simp)
    refine ⟨hs.blockSize, Or.inl ⟨rfl, hcond.1, rfl, ?_, ?_⟩⟩
    · exact congrArg (s.outcome.cachedTokens + ·) hcond.2
    · show adoptedSince seq s.trace + (if seq = seq then 1 else 0) = _
      rw [if_pos rfl]

/-- **The loop, by what it counts.** -/
theorem allocateChunks_counts (chunks : List (List TokenId)) :
    ∀ {s : AllocState}, s.allocateChunks seq prompt chunks = (s', .ok ()) →
      ∃ k, s'.outcome.reused = s.outcome.reused + k
        ∧ s'.outcome.cachedTokens = s.outcome.cachedTokens + k * s.pool.blockSize
        ∧ adoptedSince seq s'.trace = adoptedSince seq s.trace + k
        ∧ (s.stillMatching = false → k = 0) := by
  induction chunks with
  | nil =>
    intro s h
    obtain rfl := (Prod.mk.inj h).1
    exact ⟨0, rfl, by rw [Nat.zero_mul, Nat.add_zero], rfl, fun _ => rfl⟩
  | cons chunk chunks ih =>
    intro s h
    unfold allocateChunks at h
    split at h
    · next s₁ hone =>
      obtain ⟨k, hr, ht, he, hk⟩ := ih h
      obtain ⟨hbs, ⟨-, hmatch, hr₁, ht₁, he₁⟩ | ⟨-, hoff, hr₁, ht₁, he₁⟩⟩ :=
        allocateChunk_counts hone
      · refine ⟨k + 1, by rw [hr, hr₁, Nat.add_assoc, Nat.add_comm 1],
          ?_, by rw [he, he₁, Nat.add_assoc, Nat.add_comm 1], fun hno => ?_⟩
        · rw [ht, ht₁, hbs, Nat.succ_mul, Nat.add_assoc, Nat.add_comm (k * _)]
        · exact absurd (hmatch.symm.trans hno) (by simp)
      · obtain rfl := hk hoff
        refine ⟨0, by rw [hr, hr₁], by rw [ht, ht₁, Nat.zero_mul, Nat.zero_mul],
          by rw [he, he₁], fun _ => rfl⟩
    · exact absurd (Prod.mk.inj h).2 (by simp)

end AllocState

namespace KvCacheManager

variable {own : Prop} {n bs : ℕ} {flag : Bool} {m m' : KvCacheManager}
  {seq : SequenceId} {prompt : List TokenId} {b : BlockId}

/-- Blocks that the last admission of a sequence adopted. -/
def reusedBlocks (m : KvCacheManager) (seq : SequenceId) : ℕ := adoptedSince seq m.trace

/-- Whether the index has a block for the first chunk of a prompt. -/
def indexHit (m : KvCacheManager) (prompt : List TokenId) : Bool :=
  m.prefixCachingEnabled && decide (m.blockSize ≤ prompt.length)
    && (m.prefixCache.lookup (hashBlock none (prompt.take m.blockSize))
      (prompt.take m.blockSize)).2.isSome

/-- **The first iteration adopts** when the index has a block for the first
chunk: it names blocks of the pool only. -/
theorem Coherent.adopt_first (h : m.Coherent) (seq : SequenceId)
    (prompt : List TokenId) :
    ((m.allocState seq prompt).adopt
      ((m.allocState seq prompt).chunkHash (prompt.take m.blockSize))
      (prompt.take m.blockSize)).2.isSome = m.indexHit prompt := by
  have hlen : (prompt.take m.blockSize).length = m.blockSize ↔ m.blockSize ≤ prompt.length := by
    rw [List.length_take, min_eq_left_iff]
  have hhash : (m.allocState seq prompt).chunkHash (prompt.take m.blockSize)
      = if m.prefixCachingEnabled && decide (m.blockSize ≤ prompt.length)
        then some (hashBlock none (prompt.take m.blockSize)) else none := by
    rw [← decide_eq_decide.mpr hlen]
    rfl
  unfold indexHit
  rw [hhash]
  split
  · next hcond =>
    rw [hcond, Bool.true_and]
    rcases hl : m.prefixCache.lookup (hashBlock none (prompt.take m.blockSize))
      (prompt.take m.blockSize) with ⟨index, - | blk⟩
    · have hl' : (m.allocState seq prompt).prefixCache.lookup _ _ = (index, none) := hl
      simp only [AllocState.adopt, hl']
    · have hl' : (m.allocState seq prompt).prefixCache.lookup _ _ = (index, some blk) := hl
      have hentry := PrefixCache.lookup_snd_eq_some.mp (congrArg Prod.snd hl)
      rcases BlockPool.addRef_cases m.pool blk with ⟨hout, -⟩ | ⟨pool, hp, -⟩
      · exact absurd (BlockPool.mem_ids_of_hashOf (h.recorded hentry).1) hout
      · have hp' : (m.allocState seq prompt).pool.addRef blk = (pool, .ok ()) := hp
        simp only [AllocState.adopt, hl', hp']
  · next hcond =>
    rw [Bool.not_eq_true] at hcond
    rw [hcond, Bool.false_and]
    rfl

/-- **What an admission adopts**: something exactly when the index has a block
for the first chunk. -/
theorem Coherent.allocate_reused (h : m.Coherent) (hbs : 0 < m.blockSize)
    {outcome : AllocationOutcome} (ha : m.allocate seq prompt = (m', .ok outcome)) :
    outcome.cachedTokens = outcome.reused * m.blockSize
    ∧ m'.reusedBlocks seq = outcome.reused
    ∧ (outcome.reused = 0 ↔ m.indexHit prompt = false) := by
  rcases m.allocate_cases True seq prompt with
    ⟨-, he⟩ | ⟨-, -, he⟩ | ⟨s, -, -, hloop, he, -, -⟩
  · exact absurd (ha.symm.trans he) (by simp)
  · exact absurd (ha.symm.trans he) (by simp)
  obtain ⟨rfl, hout⟩ := Prod.mk.inj (ha.symm.trans he)
  obtain rfl := Except.ok.inj hout
  have hopen : adoptedSince seq (m.allocState seq prompt).trace = 0 := if_pos rfl
  obtain ⟨k, hr, ht, hev, -⟩ := AllocState.allocateChunks_counts _ hloop
  have hreused : s.outcome.reused = k := hr.trans (Nat.zero_add k)
  refine ⟨?_, ?_, ?_⟩
  · rw [ht, hreused]
    exact Nat.zero_add _
  · show adoptedSince seq s.trace = _
    rw [hev, hopen, hreused, Nat.zero_add]
  -- the first chunk decides
  rcases hchunks : prompt.chunks m.blockSize with - | ⟨chunk, chunks⟩
  · have hlen := congrArg List.length hchunks
    rw [List.length_chunks] at hlen
    have hempty := Nat.le_ceilDiv_mul hbs prompt.length
    rw [hlen, List.length_nil, Nat.zero_mul] at hempty
    have hno : ¬ m.blockSize ≤ prompt.length := by omega
    rw [hchunks] at hloop
    obtain rfl := (Prod.mk.inj hloop).1
    refine iff_of_true rfl ?_
    unfold indexHit
    rw [decide_eq_false hno, Bool.and_false, Bool.false_and]
  · have hchunk : chunk = prompt.take m.blockSize := by
      have hfirst := List.getElem?_chunks (l := prompt) (w := m.blockSize) (i := 0)
        (by rw [hchunks]; rfl)
      rw [hfirst, Nat.zero_mul, List.drop_zero]
    rw [hchunks] at hloop
    unfold AllocState.allocateChunks at hloop
    split at hloop
    · next s₁ hone =>
      obtain ⟨k₁, hr₁, -, -, hk₁⟩ := AllocState.allocateChunks_counts _ hloop
      have hfirst := h.adopt_first seq prompt
      rw [← hchunk] at hfirst
      obtain ⟨-, ⟨hsome, -, hone', -⟩ | ⟨hnone, hoff, hone', -⟩⟩ :=
        AllocState.allocateChunk_counts hone
      · rw [← hfirst, hsome, hr₁, hone']
        exact iff_of_false (by omega) (by simp)
      · rw [← hfirst, hnone, hr₁, hone', hk₁ hoff]
        exact iff_of_true rfl rfl
    · exact absurd (Prod.mk.inj hloop).2 (by simp)

/-! ## No more than the prompt -/

/-- A table has at least the blocks its sequence adopted, and these hold no
more tokens than its prompt. -/
def Counted (m : KvCacheManager) : Prop :=
  ∀ s t p, m.tables.lookup s = some t → m.promptOf s = some p →
    m.reusedBlocks s ≤ t.numBlocks ∧ m.reusedBlocks s * m.blockSize ≤ p.length

/-- Tables that are no shorter, and events that adopt nothing. -/
theorem Counted.of_le (h : m.Counted) (hbs : m'.blockSize = m.blockSize)
    (hreused : ∀ s, m'.reusedBlocks s = m.reusedBlocks s) (hprompt : m'.promptOf = m.promptOf)
    (htables : ∀ s t', m'.tables.lookup s = some t' →
      ∃ t, m.tables.lookup s = some t ∧ t.numBlocks ≤ t'.numBlocks) : m'.Counted := by
  intro s t' p ht' hp
  obtain ⟨t, ht, hle⟩ := htables s t' ht'
  rw [hprompt] at hp
  rw [hreused, hbs]
  exact ⟨(h s t p ht hp).1.trans hle, (h s t p ht hp).2⟩

/-- A table written anew, no shorter than it was. -/
theorem tables_of_insert {t t' : BlockTable} (htab : m.tables.lookup seq = some t)
    (ht : m'.tables = m.tables.insert seq t') (hle : t.numBlocks ≤ t'.numBlocks) :
    ∀ s u', m'.tables.lookup s = some u' →
      ∃ u, m.tables.lookup s = some u ∧ u.numBlocks ≤ u'.numBlocks := by
  intro s u' hu
  rw [ht] at hu
  by_cases hs : s = seq
  · rw [hs, AList.lookup_insert] at hu
    obtain rfl := Option.some.inj hu
    exact ⟨t, hs ▸ htab, hle⟩
  · rw [AList.lookup_insert_ne hs] at hu
    exact ⟨u', hu, le_rfl⟩

/-- **Step lemma.** -/
theorem Move.counted (hmove : Move own m m') (h : m.Counted) : m'.Counted := by
  have hbs : m'.blockSize = m.blockSize := hmove.poolSize.1
  have hsame : m'.tables = m.tables → ∀ s t', m'.tables.lookup s = some t' →
      ∃ t, m.tables.lookup s = some t ∧ t.numBlocks ≤ t'.numBlocks :=
    fun htables s t' ht' => ⟨t', by rw [← htables]; exact ht', le_rfl⟩
  have hcount : ∀ {e : BlockEvent}, m'.trace = e :: m.trace → (∀ s p, e ≠ .opened s p) →
      (∀ s p i b, e ≠ .adopted s p i b) → ∀ s, m'.reusedBlocks s = m.reusedBlocks s := by
    intro e htr hopen hadopt s
    unfold reusedBlocks
    rw [htr]
    refine adoptedSince_append [e] (fun x hx => ?_)
    rw [List.mem_singleton.mp hx]
    exact ⟨hopen s, hadopt s⟩
  have hquiet : m'.trace = m.trace → ∀ s, m'.reusedBlocks s = m.reusedBlocks s := by
    intro htr s
    unfold reusedBlocks
    rw [htr]
  have hpush : ∀ (t : BlockTable) (b : BlockId), (t.push b).numBlocks = t.numBlocks + 1 :=
    fun t b => List.length_append
  cases hmove with
  | @opened seq prompt absent pool index tables trace =>
    intro s t p ht hp
    have hread : m'.reusedBlocks s = if seq = s then 0 else m.reusedBlocks s := by
      unfold reusedBlocks
      rw [trace]
      rfl
    by_cases hs : seq = s
    · rw [hread, if_pos hs]
      exact ⟨Nat.zero_le _, by rw [Nat.zero_mul]; exact Nat.zero_le _⟩
    · rw [tables, AList.lookup_insert_ne (Ne.symm hs)] at ht
      rw [promptOf_opened trace, if_neg (Ne.symm hs)] at hp
      rw [hread, if_neg hs, hbs]
      exact h s t p ht hp
  | @adopted seq prompt t blk table source full entry pool index tables trace =>
    have hprompt : m'.promptOf = m.promptOf := promptOf_cons trace (by simp)
    have hread : ∀ s, m'.reusedBlocks s = m.reusedBlocks s + if seq = s then 1 else 0 := by
      intro s
      unfold reusedBlocks
      rw [trace]
      rfl
    intro s t' p ht hp
    rw [hprompt] at hp
    rw [hread, hbs]
    by_cases hs : seq = s
    · subst hs
      obtain rfl := Option.some.inj (source.symm.trans hp)
      rw [tables, AList.lookup_insert] at ht
      obtain rfl := Option.some.inj ht
      obtain ⟨hle, -⟩ := h seq t _ table source
      rw [if_pos rfl, hpush]
      exact ⟨Nat.succ_le_succ hle,
        (Nat.mul_le_mul_right _ (Nat.succ_le_succ hle)).trans full⟩
    · rw [tables, AList.lookup_insert_ne (Ne.symm hs)] at ht
      rw [if_neg hs]
      exact h s t' p ht hp
  | @handedOut seq t blk table pool index tables trace =>
    exact h.of_le hbs (hcount trace (by simp) (by simp)) (promptOf_cons trace (by simp))
      (tables_of_insert table tables (by rw [hpush]; exact Nat.le_succ _))
  | sized table pool index tables trace =>
    exact h.of_le hbs (hquiet trace) (promptOf_of_trace_eq trace)
      (tables_of_insert table tables le_rfl)
  | appended table last past pool index tables trace =>
    exact h.of_le hbs (hcount trace (by simp) (by simp)) (promptOf_cons trace (by simp))
      (hsame tables)
  | hashed source table block full pool index tables trace =>
    exact h.of_le hbs (hquiet trace) (promptOf_of_trace_eq trace) (hsame tables)
  | published source table block full hash tokens absent pool index tables trace =>
    exact h.of_le hbs (hcount trace (by simp) (by simp)) (promptOf_cons trace (by simp))
      (hsame tables)
  | @released seq t table pool index tables trace =>
    refine h.of_le hbs (hcount trace (by simp) (by simp)) (promptOf_cons trace (by simp))
      (fun s t' ht => ?_)
    rw [tables] at ht
    by_cases hs : s = seq
    · rw [hs, AList.lookup_erase] at ht
      exact absurd ht (by simp)
    · rw [AList.lookup_erase_ne hs] at ht
      exact ⟨t', ht, le_rfl⟩
  | forgot free hash pool index tables trace =>
    exact h.of_le hbs (hquiet trace) (promptOf_of_trace_eq trace) (hsame tables)
  | cleared pool index tables trace =>
    exact h.of_le hbs (hquiet trace) (promptOf_of_trace_eq trace) (hsame tables)
  | idle pool index tables trace =>
    exact h.of_le hbs (hquiet trace) (promptOf_of_trace_eq trace) (hsame tables)

/-- **Run lemma.** -/
theorem Reachable.counted (hbs : 1 ≤ bs) (hn : n ≤ 2 ^ 32)
    (h : Reachable own n bs flag m) : m.Counted := by
  have hrun : ∀ {m'}, Moves own (new n bs flag) m' → m'.Counted := by
    intro m' hmoves
    induction hmoves with
    | refl => exact fun s t p ht => absurd ht (by simp [new])
    | tail _ hmove ih => exact hmove.counted ih
  exact hrun (h.settled hbs hn).1

/-! ## Published blocks -/

/-- An event that publishes a block. -/
def PublishesBlock (b : BlockId) : BlockEvent → Prop
  | .published _ _ _ blk => blk = b
  | _ => False

/-- **A block that was published** and has not been handed out since. It may have
left the index in the meantime; but nobody has got it to write in, so the tokens
that it was published with are still what it is for. -/
def Published (m : KvCacheManager) (b : BlockId) : Prop :=
  Since (PublishesBlock b) (fun e => e.fresh ≠ some b) m.trace

/-- An adoption of a block for a place of a table, or its publication. -/
def Marks (seq : SequenceId) (i : ℕ) (b : BlockId) : BlockEvent → Prop
  | .adopted s _ k blk => s = seq ∧ k = i ∧ blk = b
  | .published _ _ _ blk => blk = b
  | _ => False

/-- Events that neither publish nor hand out a block. -/
theorem published_append (new : List BlockEvent) (htr : m'.trace = new ++ m.trace)
    (hnew : ∀ e ∈ new, ¬ PublishesBlock b e) (h : m'.Published b) : m.Published b := by
  unfold Published at h ⊢
  rw [htr] at h
  clear htr
  induction new with
  | nil => exact h
  | cons e new ih =>
    have hrest := (h.resolve_left (hnew e List.mem_cons_self)).2
    exact ih (fun x hx => hnew x (List.mem_cons_of_mem _ hx)) hrest

theorem Published.append (h : m.Published b) (new : List BlockEvent)
    (htr : m'.trace = new ++ m.trace) (hnew : ∀ e ∈ new, e.fresh ≠ some b) :
    m'.Published b := by
  unfold Published
  rw [htr]
  exact Since.append hnew h

/-- **Where a published block stands**: alone, unless it was published before
it was shared, at a full chunk, and adopted or published since the table was
opened. -/
structure Marked (m : KvCacheManager) : Prop where
  shared : ∀ {s i s' j b}, m.Occurs s i b → m.Occurs s' j b → (s, i) ≠ (s', j) →
    m.Published b
  full : ∀ {s i b}, m.Published b → m.Occurs s i b →
    ∃ p, m.promptOf s = some p ∧ (i + 1) * m.blockSize ≤ p.length
  traced : ∀ {s i b}, m.Published b → m.Occurs s i b →
    Since (Marks s i b) (fun e => ∀ p, e ≠ .opened s p) m.trace

namespace Marked

/-- An event that publishes nothing and opens no table. -/
def Plain (e : BlockEvent) : Prop :=
  (∀ b, ¬ PublishesBlock b e) ∧ ∀ s p, e ≠ .opened s p

/-- Places that were there before, and plain events. -/
theorem of_sub (h : m.Marked) (hbs : m'.blockSize = m.blockSize) (new : List BlockEvent)
    (htr : m'.trace = new ++ m.trace) (hplain : ∀ e ∈ new, Plain e)
    (hplace : ∀ {s i b}, m'.Occurs s i b → m.Occurs s i b ∧ ∀ e ∈ new, e.fresh ≠ some b) :
    m'.Marked where
  shared h₁ h₂ hne := (h.shared (hplace h₁).1 (hplace h₂).1 hne).append _ htr (hplace h₁).2
  full hp ho := by
    have hprompt := promptOf_append htr (fun e he => (hplain e he).2)
    rw [hprompt, hbs]
    exact h.full (published_append _ htr (fun e he => (hplain e he).1 _) hp) (hplace ho).1
  traced hp ho := by
    rw [htr]
    exact (h.traced (published_append _ htr (fun e he => (hplain e he).1 _) hp)
      (hplace ho).1).append (fun e he p => (hplain e he).2 _ p)

/-- One block pushed at the end of a table. -/
theorem push (h : m.Marked) (hbs : m'.blockSize = m.blockSize) {t : BlockTable}
    (htab : m.tables.lookup seq = some t)
    (ht : m'.tables = m.tables.insert seq (t.push b)) {e : BlockEvent}
    (htr : m'.trace = e :: m.trace) (hplain : Plain e)
    (hold : ∀ {s i c}, m.Occurs s i c → e.fresh ≠ some c)
    (hshared : ∀ {s i}, m.Occurs s i b → m'.Published b)
    (hfull : m'.Published b → ∃ p, m.promptOf seq = some p
      ∧ (t.numBlocks + 1) * m.blockSize ≤ p.length)
    (hmark : m'.Published b → Marks seq t.numBlocks b e) : m'.Marked := by
  have htr' : m'.trace = [e] ++ m.trace := htr
  have hplain' : ∀ x ∈ [e], Plain x := fun x hx => List.mem_singleton.mp hx ▸ hplain
  have hprompt := promptOf_append htr' (fun x hx => (hplain' x hx).2)
  have hback : ∀ {c}, m'.Published c → m.Published c :=
    published_append _ htr' (fun x hx => (hplain' x hx).1 _)
  refine ⟨fun {s i s' j c} h₁ h₂ hne => ?_, fun {s i c} hp ho => ?_, fun {s i c} hp ho => ?_⟩
  · -- two old places, or the new one and an old one
    rcases occurs_push htab ht h₁ with h₁ | ⟨rfl, rfl, rfl⟩
    · rcases occurs_push htab ht h₂ with h₂ | ⟨rfl, rfl, rfl⟩
      · refine (h.shared h₁ h₂ hne).append _ htr' (fun x hx => ?_)
        rw [List.mem_singleton.mp hx]
        exact hold h₁
      · exact hshared h₁
    · rcases occurs_push htab ht h₂ with h₂ | ⟨rfl, rfl, -⟩
      · exact hshared h₂
      · exact absurd rfl hne
  · rw [hprompt, hbs]
    rcases occurs_push htab ht ho with ho | ⟨rfl, rfl, rfl⟩
    · exact h.full (hback hp) ho
    · exact hfull hp
  · rw [htr]
    rcases occurs_push htab ht ho with ho | ⟨rfl, rfl, rfl⟩
    · exact (h.traced (hback hp) ho).step (hplain.2 _)
    · exact Since.now (hmark hp)

/-- A block that has just been handed out is not published. -/
theorem not_published_handedOut (htr : m'.trace = .handedOut seq b :: m.trace) :
    ¬ m'.Published b := by
  unfold Published
  rw [htr]
  rintro (hp | ⟨hf, -⟩)
  · exact hp
  · exact hf rfl

end Marked

/-- **Step lemma.** -/
theorem Move.marked (hmove : Move True m m') (hx : m.Exact) (hc : m.Coherent)
    (h : m.Marked) : m'.Marked := by
  have hbs : m'.blockSize = m.blockSize := hmove.poolSize.1
  cases hmove with
  | @opened seq prompt absent pool index tables trace =>
    have hplace : ∀ {s i b}, m'.Occurs s i b → s ≠ seq ∧ m.Occurs s i b := by
      intro s i b ho
      rcases occurs_insert tables ho with ⟨-, hb⟩ | ⟨hs, ho⟩
      · exact absurd hb (by simp [BlockTable.new])
      · exact ⟨hs, ho⟩
    have hback : ∀ {b}, m'.Published b → m.Published b := fun hp =>
      published_append [_] trace (by simp [PublishesBlock]) hp
    refine ⟨fun h₁ h₂ hne => ?_, fun hp ho => ?_, fun {s i b} hp ho => ?_⟩
    · exact (h.shared (hplace h₁).2 (hplace h₂).2 hne).append [_] trace
        (by simp [BlockEvent.fresh])
    · rw [promptOf_opened trace, if_neg (hplace ho).1, hbs]
      exact h.full (hback hp) (hplace ho).2
    · rw [trace]
      refine (h.traced (hback hp) (hplace ho).2).step (fun p heq => ?_)
      exact (hplace ho).1 (BlockEvent.opened.inj heq).1.symm
  | @adopted seq prompt t blk table source full entry pool index tables trace =>
    have hpub : m'.Published blk := by
      have hsince : m.Published blk := (hc.since entry).mono (fun x hx => by
          cases x with
          | published s p j c => exact hx.1
          | opened | adopted | handedOut | appended | released => exact hx.elim)
        (fun x hx => by
          cases x with
          | handedOut s c => exact fun heq => hx (Option.some.inj heq)
          | opened | adopted | published | appended | released => simp [BlockEvent.fresh])
      exact hsince.append [_] trace (by simp [BlockEvent.fresh])
    exact h.push hbs table tables trace ⟨fun b hb => hb, by simp⟩
      (fun _ => by simp [BlockEvent.fresh]) (fun _ => hpub)
      (fun _ => ⟨prompt, source, full⟩) (fun _ => ⟨rfl, rfl, rfl⟩)
  | @handedOut seq t blk table pool index tables trace =>
    have hfree : blk ∈ m.pool.freeList := by
      rw [pool.freeList]
      exact List.mem_cons_self
    have hnot : blk ∉ m.held := ((RefBalanced.mem_free hx blk).mp hfree).2
    have hno := Marked.not_published_handedOut trace
    refine h.push hbs table tables trace ⟨fun b hb => hb, by simp⟩ (fun {s i c} ho heq => ?_)
      (fun ho => absurd ho.mem_held hnot) (fun hp => absurd hp hno) (fun hp => absurd hp hno)
    exact hnot (Option.some.inj heq ▸ ho.mem_held)
  | @sized seq t n table pool index tables trace =>
    refine h.of_sub hbs [] trace (by simp) (fun {s i b} ho => ⟨?_, by simp⟩)
    rcases occurs_insert tables ho with ⟨rfl, hb⟩ | ⟨-, ho⟩
    · exact ⟨t, table, hb⟩
    · exact ho
  | appended table last past pool index tables trace =>
    exact h.of_sub hbs [_] trace (by simp [Marked.Plain, PublishesBlock])
      (fun ho => ⟨(occurs_congr tables).mp ho, by simp [BlockEvent.fresh]⟩)
  | hashed source table block full pool index tables trace =>
    exact h.of_sub hbs [] trace (by simp)
      (fun ho => ⟨(occurs_congr tables).mp ho, by simp⟩)
  | @published seq prompt t i blk source table block full hash tokens absent pool index tables
      trace =>
    have hprompt : m'.promptOf = m.promptOf := promptOf_cons trace (by simp)
    have hplace : ∀ {s j b}, m'.Occurs s j b → m.Occurs s j b := (occurs_congr tables).mp
    have hback : ∀ {b}, b ≠ blk → m'.Published b → m.Published b := fun hb hp =>
      published_append [_] trace
        (fun e he => by rw [List.mem_singleton.mp he]; exact Ne.symm hb) hp
    refine ⟨fun h₁ h₂ hne => ?_, fun {s j b} hp ho => ?_, fun {s j b} hp ho => ?_⟩
    · exact (h.shared (hplace h₁) (hplace h₂) hne).append [_] trace
        (by simp [BlockEvent.fresh])
    · rw [hprompt, hbs]
      by_cases hb : b = blk
      · subst hb
        by_cases hsame : (s, j) = (seq, i)
        · obtain ⟨rfl, rfl⟩ := Prod.mk.injEq .. ▸ hsame
          exact ⟨prompt, source trivial, full⟩
        · exact h.full (h.shared (hplace ho) ⟨t, table, block⟩ hsame) (hplace ho)
      · exact h.full (hback hb hp) (hplace ho)
    · rw [trace]
      by_cases hb : b = blk
      · exact Since.now hb.symm
      · exact (h.traced (hback hb hp) (hplace ho)).step (by simp)
  | @released seq t table pool index tables trace =>
    refine h.of_sub hbs [_] trace (by simp [Marked.Plain, PublishesBlock])
      (fun {s i b} ho => ⟨?_, by simp [BlockEvent.fresh]⟩)
    obtain ⟨u, hu, hb⟩ := ho
    rw [tables] at hu
    by_cases hs : s = seq
    · rw [hs, AList.lookup_erase] at hu
      exact absurd hu (by simp)
    · rw [AList.lookup_erase_ne hs] at hu
      exact ⟨u, hu, hb⟩
  | forgot free hash pool index tables trace =>
    exact h.of_sub hbs [] trace (by simp)
      (fun ho => ⟨(occurs_congr tables).mp ho, by simp⟩)
  | cleared pool index tables trace =>
    exact h.of_sub hbs [] trace (by simp)
      (fun ho => ⟨(occurs_congr tables).mp ho, by simp⟩)
  | idle pool index tables trace =>
    exact h.of_sub hbs [] trace (by simp)
      (fun ho => ⟨(occurs_congr tables).mp ho, by simp⟩)

/-- **Run lemma.** -/
theorem Reachable.marked (hbs : 1 ≤ bs) (hn : n ≤ 2 ^ 32)
    (h : Reachable True n bs flag m) : m.Marked := by
  have hrun : ∀ {m'}, Moves True (new n bs flag) m' → m'.Marked := by
    intro m' hmoves
    induction hmoves with
    | refl =>
      refine ⟨fun h₁ => ?_, fun hp => hp.elim, fun hp => hp.elim⟩
      obtain ⟨t, ht, -⟩ := h₁
      exact absurd ht (by simp [new])
    | tail hmoves hmove ih =>
      have hnew := settled_new hbs hn flag
      exact hmove.marked (Moves.exact hmoves hnew.exact)
        (Moves.coherent hmoves hbs hnew.exact (coherent_new n bs flag)) ih
  exact hrun (h.settled hbs hn).1

/-! ## What the operations put into the history -/

/-- The history of an admission. -/
theorem like_allocate_trace
    (ha : KvCacheManagerLike.allocate m seq prompt = (m', .ok ())) :
    ∃ new, m'.trace = new ++ .opened seq prompt :: m.trace
      ∧ ∀ e ∈ new, (∃ k blk, e = .adopted seq prompt k blk) ∨ ∃ blk, e = .handedOut seq blk := by
  have hm : (m.allocate seq prompt).1 = m' := congrArg Prod.fst ha
  have hr : (m.allocate seq prompt).2.map (fun _ => ()) = .ok () := congrArg Prod.snd ha
  rcases m.allocate_cases True seq prompt with
    ⟨-, he⟩ | ⟨-, -, he⟩ | ⟨s, -, -, -, he, hl, -⟩
  · rw [he] at hr
    exact absurd hr (by simp [Except.map])
  · rw [he] at hr
    exact absurd hr (by simp [Except.map])
  · rw [he] at hm
    subst hm
    exact hl.trace

/-- The history of a commit: full chunks of its prompt, at their places. -/
theorem commitChunks_events (seq : SequenceId) (prompt : List TokenId)
    (chunks : List (List TokenId)) :
    ∀ (m : KvCacheManager) (chain : Option BlockHash) (i : ℕ) (blks : List BlockId),
      ∃ new, ((m.commitChunks seq prompt chain i chunks blks).1).trace = new ++ m.trace
        ∧ ∀ e ∈ new, ∃ k blk, e = .published seq prompt (i + k) blk ∧ blks[k]? = some blk
          ∧ ∃ chunk, chunks[k]? = some chunk ∧ chunk.length = m.blockSize := by
  induction chunks with
  | nil => exact fun m chain i blks => ⟨[], rfl, by simp⟩
  | cons chunk chunks ih =>
    intro m chain i blks
    rcases blks with - | ⟨blk, blks⟩
    · exact ⟨[], rfl, by simp⟩
    unfold commitChunks
    split
    · next hfull =>
      set m₁ := m.commitChunk seq prompt i blk (hashBlock chain chunk) chunk with hm₁
      have hsize : m₁.blockSize = m.blockSize := (BlockPool.setContents_fst m.pool blk
        chunk.length (some (hashBlock chain chunk))).2.1
      obtain ⟨new, htr, hnew⟩ := ih m₁ (some (hashBlock chain chunk)) (i + 1) blks
      have hone : ∃ one, m₁.trace = one ++ m.trace
          ∧ ∀ e ∈ one, e = .published seq prompt i blk := by
        have hcommit : m₁.trace = if (m.prefixCache.entries.lookup (hashBlock chain chunk)).isNone
            then .published seq prompt i blk :: m.trace else m.trace := rfl
        rw [hcommit]
        split
        · exact ⟨[_], rfl, fun e he => List.mem_singleton.mp he⟩
        · exact ⟨[], rfl, by simp⟩
      obtain ⟨one, htr₁, hone⟩ := hone
      refine ⟨new ++ one, by rw [htr, htr₁, List.append_assoc], fun e he => ?_⟩
      rcases List.mem_append.mp he with he | he
      · obtain ⟨k, b, rfl, hb, c, hc, hlen⟩ := hnew e he
        refine ⟨k + 1, b, by rw [Nat.add_assoc, Nat.add_comm 1], hb, c, hc, ?_⟩
        rw [hlen, hsize]
      · exact ⟨0, blk, hone e he, rfl, chunk, rfl, hfull⟩
    · exact ⟨[], rfl, by simp⟩

/-- **The history of a commit.** -/
theorem commitPrefill_events (m : KvCacheManager) (hbs : 0 < m.blockSize)
    (seq : SequenceId) (prompt : List TokenId) :
    ∃ new, (m.commitPrefill seq prompt).trace = new ++ m.trace
      ∧ ∀ e ∈ new, ∃ i b, e = .published seq prompt i b ∧ m.Occurs seq i b
        ∧ (i + 1) * m.blockSize ≤ prompt.length := by
  unfold commitPrefill
  split
  · rcases ht : m.blockTable seq with - | t
    · exact ⟨[], rfl, by simp⟩
    obtain ⟨new, htr, hnew⟩ := commitChunks_events seq prompt (prompt.chunks m.blockSize) m none 0
      t.blocks
    have hall : ∀ e ∈ new, ∃ i b, e = .published seq prompt i b ∧ m.Occurs seq i b
        ∧ (i + 1) * m.blockSize ≤ prompt.length := by
      intro e he
      obtain ⟨k, b, rfl, hb, chunk, hchunk, hlen⟩ := hnew e he
      refine ⟨k, b, by rw [Nat.zero_add], ⟨t, ht, hb⟩, ?_⟩
      rw [List.getElem?_chunks hchunk] at hlen
      exact (List.length_take_drop_eq_iff hbs prompt k).mp hlen
    simp only []
    split
    · next m₁ tip hloop =>
      rw [hloop] at htr
      exact ⟨new, htr, hall⟩
    · next m₁ hloop =>
      rw [hloop] at htr
      exact ⟨new, htr, hall⟩
  · exact ⟨[], rfl, by simp⟩

/-- The history of a release. -/
theorem free_trace (m : KvCacheManager) (seq : SequenceId) :
    ∃ new, (m.free seq).trace = new ++ m.trace ∧ ∀ e ∈ new, e = .released seq := by
  rcases ht : m.tables.lookup seq with - | t
  · exact ⟨[], by rw [free_of_lookup_none ht]; rfl, by simp⟩
  · exact ⟨[.released seq], by rw [free_of_lookup ht]; rfl, by simp⟩

end KvCacheManager
