import OrionServe.CacheExact
import OrionServe.CacheSharing

/-!
# A shared prefix is found

A commit enters every full chunk of its prompt into the index, and nothing
takes an entry out but the recycling or eviction of the very block it names
and the clearing of the whole index: decoding, freeing and preempting leave
the entries alone, and a second publication under the same digest finds the
first one in place. So an admission finds at least the full blocks that its
prompt shares with the one committed – the two loops chain their digests
alike – as long as no digests collide.
-/

namespace CacheOp

/-- The call neither recycles nor evicts a block the index names, and does not
clear the index. -/
def Spares (m : KvCacheManager) (op : CacheOp) : Prop :=
  op ≠ .clearPrefixCache
  ∧ ∀ h e, m.prefixCache.entries.lookup h = some e →
    (∀ new, (op.run m).trace = new ++ m.trace → ∀ q, .handedOut q e.block ∉ new)
    ∧ ∀ count, op = .evictCached count →
      (op.run m).pool.hashOf e.block = m.pool.hashOf e.block

/-- Every call of the list does. -/
def SparesAll (m : KvCacheManager) : List CacheOp → Prop
  | [] => True
  | op :: ops => op.Spares m ∧ SparesAll (op.run m) ops

/-- A call that hands nothing out, and neither evicts nor clears, spares the
index. -/
theorem spares_of_trace {m : KvCacheManager} {op : CacheOp} {new : List BlockEvent}
    (htr : (op.run m).trace = new ++ m.trace) (hnew : ∀ x ∈ new, x.fresh = none)
    (hclear : op ≠ .clearPrefixCache) (hevict : ∀ count, op ≠ .evictCached count) :
    op.Spares m := by
  refine ⟨hclear, fun h e _ => ⟨fun new' htr' q hq => ?_, fun count hop => ?_⟩⟩
  · rw [← List.append_cancel_right (htr.symm.trans htr')] at hq
    exact absurd (hnew _ hq) (by simp [BlockEvent.fresh])
  · exact absurd hop (hevict count)

end CacheOp

namespace KvCacheManager

variable {own : Prop} {n bs : ℕ} {flag : Bool} {m m' : KvCacheManager} {seq : SequenceId}
  {prompt : List TokenId} {g : BlockHash} {e : CacheEntry}

/-! ## Where the entries come from -/

/-- **The chained digests tell the prompts of the run apart**: two full chunks
with the same digest have the same prefix. The index keeps the first block for a
digest, so of two prompts that collide the second would not be in it. -/
def NoCollisions (bs : ℕ) (trace : List BlockEvent) : Prop :=
  ∀ s p t q, .opened s p ∈ trace → .opened t q ∈ trace → ∀ i j,
    (j + 1) * bs ≤ p.length → (i + 1) * bs ≤ q.length → chainHash bs p j = chainHash bs q i →
    p.take ((j + 1) * bs) = q.take ((i + 1) * bs)

/-- **Every entry is for a full chunk of a prompt of the run.** -/
def Sourced (m : KvCacheManager) : Prop :=
  ∀ h e, m.prefixCache.entries.lookup h = some e → ∃ s p i, .opened s p ∈ m.trace
    ∧ (i + 1) * m.blockSize ≤ p.length ∧ h = chainHash m.blockSize p i
    ∧ e.tokens = (p.drop (i * m.blockSize)).take m.blockSize

/-- The history grows at its front. -/
theorem Move.trace_suffix (hmove : Move own m m') : m.trace <:+ m'.trace := by
  cases hmove with
  | opened absent pool index tables trace => rw [trace]; exact List.suffix_cons _ _
  | adopted table source full entry pool index tables trace =>
    rw [trace]; exact List.suffix_cons _ _
  | handedOut table pool index tables trace => rw [trace]; exact List.suffix_cons _ _
  | sized table pool index tables trace => rw [trace]
  | appended table last past pool index tables trace =>
    rw [trace]; exact List.suffix_cons _ _
  | hashed source table block full pool index tables trace => rw [trace]
  | published source table block full hash tokens absent pool index tables trace =>
    rw [trace]; exact List.suffix_cons _ _
  | released table pool index tables trace => rw [trace]; exact List.suffix_cons _ _
  | forgot free hash pool index tables trace => rw [trace]
  | cleared pool index tables trace => rw [trace]
  | idle pool index tables trace => rw [trace]

theorem Moves.trace_suffix (hmoves : Moves own m m') : m.trace <:+ m'.trace := by
  induction hmoves with
  | refl => exact List.suffix_rfl
  | tail _ hmove ih => exact ih.trans hmove.trace_suffix

/-- **Step lemma.** -/
theorem Move.sourced (hmove : Move True m m') (h : m.Sourced) : m'.Sourced := by
  intro g e he
  have hbs : m'.blockSize = m.blockSize := hmove.poolSize.1
  rw [hbs]
  rcases hmove.entry_cases he with hold | ⟨seq, prompt, t, i, source, -, -, full, hg, htok⟩
  · obtain ⟨s, p, i, hopen, hrest⟩ := h g e hold
    exact ⟨s, p, i, hmove.trace_suffix.subset hopen, hrest⟩
  · exact ⟨seq, prompt, i, hmove.trace_suffix.subset (mem_trace_of_promptOf (source trivial)),
      full, hg, htok⟩

/-- **Run lemma.** -/
theorem Moves.sourced (hmoves : Moves True m m') (h : m.Sourced) : m'.Sourced := by
  induction hmoves with
  | refl => exact h
  | tail _ hmove ih => exact hmove.sourced ih

theorem Reachable.sourced (hbs : 1 ≤ bs) (h : Reachable True n bs flag m) : m.Sourced :=
  (h.tallied hbs).1.sourced (fun _ _ he => absurd he (by simp [new, PrefixCache.new]))

/-! ## A commit enters every full chunk -/

/-- A commit keeps the entries that are there. -/
theorem commitChunk_kept (i : ℕ) (blk : BlockId) (h : BlockHash) (chunk : List TokenId)
    (he : m.prefixCache.entries.lookup g = some e) :
    (m.commitChunk seq prompt i blk h chunk).prefixCache.entries.lookup g = some e := by
  show (m.prefixCache.insert h blk chunk).entries.lookup g = some e
  rw [PrefixCache.insert_lookup]
  split
  · next hg =>
    rw [← hg, he]
    rfl
  · exact he

theorem commitChunks_kept (seq : SequenceId) (prompt : List TokenId)
    (chunks : List (List TokenId)) :
    ∀ {m : KvCacheManager} (chain : Option BlockHash) (i : ℕ) (blks : List BlockId),
      m.prefixCache.entries.lookup g = some e →
      (m.commitChunks seq prompt chain i chunks blks).1.prefixCache.entries.lookup g
        = some e := by
  induction chunks with
  | nil =>
    intro m chain i blks he
    unfold commitChunks
    exact he
  | cons chunk chunks ih =>
    intro m chain i blks he
    rcases blks with - | ⟨blk, blks⟩
    · unfold commitChunks
      exact he
    unfold commitChunks
    split
    · exact ih _ _ blks (commitChunk_kept i blk _ chunk he)
    · exact he

/-- **After the loop of a commit** every full chunk it had a block for is
indexed. -/
theorem commitChunks_indexes (seq : SequenceId) (chunks : List (List TokenId)) :
    ∀ {m : KvCacheManager} {i : ℕ} (blks : List BlockId), 0 < m.blockSize →
      (∀ k, chunks[k]? = (prompt.chunks m.blockSize)[i + k]?) →
      (∀ k, (i + k + 1) * m.blockSize ≤ prompt.length → k < blks.length) →
      ∀ k, (i + k + 1) * m.blockSize ≤ prompt.length →
        ∃ e, (m.commitChunks seq prompt (chainBefore m.blockSize prompt i) i chunks
          blks).1.prefixCache.entries.lookup (chainHash m.blockSize prompt (i + k)) = some e := by
  induction chunks with
  | nil =>
    intro m i blks hbs hchunks _ k hfull
    have hend := List.getElem?_eq_none_iff.mp (hchunks k).symm
    rw [List.length_chunks] at hend
    have hshort := (Nat.ceilDiv_le_iff_le_mul_right hbs).mp hend
    rw [Nat.succ_mul] at hfull
    omega
  | cons chunk chunks ih =>
    intro m i blks hbs hchunks hblks k hfull
    have hchunk := List.getElem?_chunks (hchunks 0).symm
    rw [Nat.add_zero] at hchunk
    have hfirst : (i + 1) * m.blockSize ≤ prompt.length :=
      (Nat.mul_le_mul_right _ (by omega)).trans hfull
    rcases blks with - | ⟨blk, blks⟩
    · exact absurd (hblks 0 hfirst) (Nat.not_lt_zero 0)
    have hlen : chunk.length = m.blockSize := by
      rw [hchunk]
      exact (List.length_take_drop_eq_iff hbs prompt i).mpr hfirst
    have hhash : hashBlock (chainBefore m.blockSize prompt i) chunk
        = chainHash m.blockSize prompt i := by rw [chainHash_eq, hchunk]
    unfold commitChunks
    rw [if_pos hlen]
    dsimp only
    rw [hhash]
    set m₁ := m.commitChunk seq prompt i blk (chainHash m.blockSize prompt i) chunk with hm₁
    have hbs₁ : m₁.blockSize = m.blockSize := by
      obtain ⟨-, hsize, -⟩ := BlockPool.setContents_fst m.pool blk chunk.length
        (some (chainHash m.blockSize prompt i))
      exact hsize
    cases k with
    | zero =>
      obtain ⟨e, he⟩ : ∃ e, m₁.prefixCache.entries.lookup (chainHash m.blockSize prompt i)
          = some e := by
        show ∃ e, (m.prefixCache.insert _ blk chunk).entries.lookup _ = some e
        rw [PrefixCache.insert_lookup, if_pos rfl]
        rcases m.prefixCache.entries.lookup (chainHash m.blockSize prompt i) with - | e
        · exact ⟨_, rfl⟩
        · exact ⟨e, rfl⟩
      exact ⟨e, commitChunks_kept seq prompt chunks _ _ blks he⟩
    | succ k =>
      have hrest := ih (m := m₁) (i := i + 1) blks (by rw [hbs₁]; exact hbs)
        (fun k => by rw [hbs₁, ← List.getElem?_cons_succ, hchunks (k + 1)]; congr 1; omega)
        (fun k hk => by
          rw [hbs₁] at hk
          have := hblks (k + 1) (by rw [← Nat.add_assoc, Nat.add_right_comm i]; exact hk)
          exact Nat.lt_of_succ_lt_succ this)
        k (by rw [hbs₁, Nat.add_right_comm i]; exact hfull)
      rw [hbs₁, Nat.add_right_comm i 1 k] at hrest
      exact hrest

/-- The full chunks of a prompt are indexed. -/
def Indexed (m : KvCacheManager) (p : List TokenId) : Prop :=
  ∀ i, (i + 1) * m.blockSize ≤ p.length →
    ∃ e, m.prefixCache.entries.lookup (chainHash m.blockSize p i) = some e

/-- **A commit for the prompt a table was opened for** indexes all of it: the
table has a block for every chunk. -/
theorem Tallied.commitPrefill_indexed (h : m.Tallied) (hen : m.prefixCachingEnabled = true)
    {t : BlockTable} (ht : m.tables.lookup seq = some t) (hp : m.promptOf seq = some prompt) :
    (m.commitPrefill seq prompt).Indexed prompt := by
  have hsized := h.sized ht
  obtain ⟨p, hp', hlen⟩ := hsized.prompt
  obtain rfl := Option.some.inj (hp.symm.trans hp')
  have hblks : ∀ k, (0 + k + 1) * m.blockSize ≤ prompt.length → k < t.blocks.length := by
    intro k hk
    rw [Nat.zero_add] at hk
    show k < t.numBlocks
    rw [hsized.numBlocks]
    refine (Nat.lt_ceilDiv_iff_mul_lt h.blockSize).mpr ?_
    have hmul : k * m.blockSize + m.blockSize ≤ prompt.length := Nat.succ_mul k _ ▸ hk
    have hpos := h.blockSize
    omega
  have hall := commitChunks_indexes seq (prompt.chunks m.blockSize) (m := m) (i := 0)
    t.blocks h.blockSize (fun k => by rw [Nat.zero_add]) hblks
  have hbs := (m.commitPrefill_moves True h seq prompt (fun _ _ => hp)).1.blockSize
  intro i hfull
  rw [hbs] at hfull ⊢
  obtain ⟨e, he⟩ := hall i (by rw [Nat.zero_add]; exact hfull)
  rw [Nat.zero_add, chainBefore] at he
  refine ⟨e, ?_⟩
  have htable : m.blockTable seq = some t := ht
  unfold commitPrefill
  rw [if_pos hen, htable]
  rcases hc : m.commitChunks seq prompt none 0 (prompt.chunks m.blockSize) t.blocks
    with ⟨m₁, - | tip⟩
  · rw [hc] at he
    simp only [hc]
    exact he
  · rw [hc] at he
    simp only [hc]
    exact he

/-! ## Nothing else takes an entry out -/

/-- An admission keeps the entries of the blocks it does not recycle. -/
theorem allocate_kept (h : m.Tallied) (hi : m.IndexRanged)
    (he : m.prefixCache.entries.lookup g = some e)
    (hno : ∀ new, (m.allocate seq prompt).1.trace = new ++ m.trace →
      ∀ q, .handedOut q e.block ∉ new) :
    (m.allocate seq prompt).1.prefixCache.entries.lookup g = some e := by
  rcases hout : (m.allocate seq prompt).2 with err | outcome
  · rcases m.allocate_cases False seq prompt with
      ⟨-, ha⟩ | ⟨-, -, ha⟩ | ⟨s, -, -, -, ha, -, -⟩
    · rw [ha]
      exact he
    · rw [ha]
      exact he
    · rw [ha] at hout
      exact absurd hout (by simp)
  · have hok : m.allocate seq prompt = ((m.allocate seq prompt).1, .ok outcome) :=
      Prod.ext rfl hout
    obtain ⟨s, adopted, fresh, hf, hseal, -, -⟩ := h.allocate_fills hi hok
    rw [hseal] at hno ⊢
    obtain ⟨new, htr, hnew⟩ := hf.handedOut
    refine hf.kept g e he (fun hmem => ?_)
    obtain ⟨q, hq⟩ := hnew _ hmem
    refine hno (new ++ [.opened seq prompt]) ?_ q (List.mem_append_left _ hq)
    rw [List.append_assoc]
    exact htr

/-- Recording a token touches neither the index nor the setting, and is one
event at most. -/
theorem recordToken_keeps (m : KvCacheManager) (seq : SequenceId) (newLen : ℕ) :
    (m.recordToken seq newLen).1.prefixCache = m.prefixCache
    ∧ (m.recordToken seq newLen).1.prefixCachingEnabled = m.prefixCachingEnabled
    ∧ ∃ new, (m.recordToken seq newLen).1.trace = new ++ m.trace := by
  unfold recordToken
  split
  · exact ⟨rfl, rfl, [], rfl⟩
  dsimp only
  split
  · exact ⟨rfl, rfl, [], rfl⟩
  split
  · exact ⟨rfl, rfl, [_], rfl⟩
  · exact ⟨rfl, rfl, [], rfl⟩

/-- A decode keeps the entries of the blocks it does not recycle. -/
theorem appendToken_kept (he : m.prefixCache.entries.lookup g = some e)
    (hno : ∀ new, (m.appendToken seq).1.trace = new ++ m.trace →
      ∀ q, .handedOut q e.block ∉ new) :
    (m.appendToken seq).1.prefixCache.entries.lookup g = some e := by
  rcases ht : m.blockTable seq with - | t
  · simp only [appendToken, ht]
    exact he
  by_cases hneed : t.numBlocks < BlockTable.blocksRequired (t.numTokens + 1) m.blockSize
  · rcases BlockPool.allocate_cases m.pool with ⟨-, ha⟩ | ⟨pool, blk, ha, -⟩
    · simp only [appendToken, ht, growTable, if_pos hneed, ha]
      exact he
    set m₁ : KvCacheManager := { m with
      pool := pool
      prefixCache := m.prefixCache.removeEvicted (m.pool.hashOf blk) blk
      trace := .handedOut seq blk :: m.trace
      tables := m.tables.insert seq (t.push blk) } with hm₁
    have hgrow : m.growTable seq t (t.numTokens + 1) = (m₁, .ok ()) := by
      have hlook : m.tables.lookup seq = some t := ht
      unfold growTable
      rw [if_pos hneed, ha]
      simp only [blockTable, hlook]
      rfl
    have happ : m.appendToken seq = m₁.recordToken seq (t.numTokens + 1) := by
      simp only [appendToken, ht, hgrow]
    obtain ⟨hindex, -, new, htr⟩ := recordToken_keeps m₁ seq (t.numTokens + 1)
    rw [happ, hindex]
    refine PrefixCache.removeEvicted_lookup_of_ne he (fun hb => ?_)
    refine hno (new ++ [.handedOut seq blk]) ?_ seq ?_
    · rw [happ, htr, List.append_assoc]
      rfl
    · rw [hb]
      exact List.mem_append_right _ (List.mem_singleton_self _)
  · have happ : m.appendToken seq = m.recordToken seq (t.numTokens + 1) := by
      simp only [appendToken, ht, growTable, if_neg hneed]
    rw [happ, (recordToken_keeps m seq (t.numTokens + 1)).1]
    exact he

/-- An evicted block does not get its hash back. -/
theorem evictCached_hashOf (count : ℕ) (b : BlockId) : ∀ m : KvCacheManager,
    m.pool.hashOf b = none → (m.evictCached count).1.pool.hashOf b = none := by
  induction count with
  | zero => exact fun _ h => h
  | succ count ih =>
    intro m h
    rcases BlockPool.evictOldestCached_cases m.pool with ⟨he, -⟩ | ⟨pool, blk, g, he, -, -, hr⟩
    · simp only [evictCached, he]
      exact h
    · simp only [evictCached, he]
      refine ih _ ?_
      show pool.hashOf b = none
      rw [hr.hashOf, h]
      exact ite_self _

/-- An eviction keeps the entries of the blocks whose hash it keeps. -/
theorem evictCached_kept (count : ℕ) : ∀ m : KvCacheManager,
    m.prefixCache.entries.lookup g = some e →
    (m.evictCached count).1.pool.hashOf e.block = m.pool.hashOf e.block →
    (m.evictCached count).1.prefixCache.entries.lookup g = some e := by
  induction count with
  | zero => exact fun _ he _ => he
  | succ count ih =>
    intro m he hkeep
    rcases BlockPool.evictOldestCached_cases m.pool with
      ⟨hev, -⟩ | ⟨pool, blk, h, hev, -, hhash, hr⟩
    · simp only [evictCached, hev]
      exact he
    simp only [evictCached, hev] at hkeep ⊢
    have hne : e.block ≠ blk := by
      intro hb
      have hlost := evictCached_hashOf count e.block
        { m with pool := pool, prefixCache := m.prefixCache.remove h blk }
        (by show pool.hashOf e.block = none; rw [hr.hashOf, if_pos hb])
      rw [hlost, hb, hhash] at hkeep
      exact absurd hkeep (by simp)
    refine ih _ (PrefixCache.remove_lookup_of_ne he hne) ?_
    rw [hkeep]
    show m.pool.hashOf e.block = pool.hashOf e.block
    rw [hr.hashOf, if_neg hne]

theorem free_index (m : KvCacheManager) (seq : SequenceId) :
    (m.free seq).prefixCache = m.prefixCache := by
  rcases ht : m.tables.lookup seq with - | t
  · rw [free_of_lookup_none ht]
  · rw [free_of_lookup ht]

theorem commitPrefill_kept (he : m.prefixCache.entries.lookup g = some e) :
    (m.commitPrefill seq prompt).prefixCache.entries.lookup g = some e := by
  unfold commitPrefill
  split
  swap
  · exact he
  split
  · exact he
  next table _ =>
  have hkept := commitChunks_kept seq prompt (prompt.chunks m.blockSize)
    none 0 table.blocks he
  split
  · next heq =>
    rw [heq] at hkept
    exact hkept
  · next heq =>
    rw [heq] at hkept
    exact hkept

/-- **Step lemma**: a call that spares the indexed blocks keeps the index. -/
theorem Tallied.run_kept (h : m.Tallied) (hi : m.IndexRanged) {op : CacheOp}
    (hop : op.Spares m) (he : m.prefixCache.entries.lookup g = some e) :
    (op.run m).prefixCache.entries.lookup g = some e := by
  obtain ⟨hclear, hall⟩ := hop
  obtain ⟨hno, hhash⟩ := hall g e he
  cases op with
  | allocate seq prompt => exact allocate_kept h hi he hno
  | commitPrefill seq prompt => exact commitPrefill_kept he
  | appendToken seq => exact appendToken_kept he hno
  | free seq =>
    show (m.free seq).prefixCache.entries.lookup g = some e
    rw [free_index]
    exact he
  | preempt seq =>
    show (m.free seq).prefixCache.entries.lookup g = some e
    rw [free_index]
    exact he
  | evictCached count => exact evictCached_kept count m he (hhash count rfl)
  | clearPrefixCache => exact absurd rfl hclear

/-- **Run lemma.** -/
theorem Reachable.runAll_indexed (hbs : 1 ≤ bs) (ops : List CacheOp) :
    ∀ {m : KvCacheManager}, Reachable True n bs flag m → CacheOp.OwnCommits m ops →
      CacheOp.SparesAll m ops → m.Indexed prompt →
      (CacheOp.runAll m ops).Indexed prompt := by
  induction ops with
  | nil => exact fun _ _ _ h => h
  | cons op ops ih =>
    intro m hm hown hspare h
    have hnext := hm.step op (fun _ => hown.1)
    refine ih hnext hown.2 hspare.2 (fun i hfull => ?_)
    have hsize : (op.run m).blockSize = m.blockSize :=
      (hnext.tallied hbs).1.blockSize.trans (hm.tallied hbs).1.blockSize.symm
    rw [hsize] at hfull ⊢
    obtain ⟨e, he⟩ := h i hfull
    exact ⟨e, (hm.tallied hbs).2.run_kept (hm.indexRanged hbs) hspare.1 he⟩

/-- The history of a run begins with what was there. -/
theorem Reachable.runAll_trace (hbs : 1 ≤ bs) (ops : List CacheOp) :
    ∀ {m : KvCacheManager}, Reachable True n bs flag m → CacheOp.OwnCommits m ops →
      m.trace <:+ (CacheOp.runAll m ops).trace := by
  induction ops with
  | nil => exact fun _ _ => List.suffix_rfl
  | cons op ops ih =>
    intro m hm hown
    have hmoves := ((hm.tallied hbs).2.run True op (fun _ => hown.1)).1
    exact hmoves.trace_suffix.trans (ih (hm.step op (fun _ => hown.1)) hown.2)

/-! ## The switch stays on -/

theorem commitChunks_enabled (seq : SequenceId) (prompt : List TokenId)
    (chunks : List (List TokenId)) :
    ∀ {m : KvCacheManager} (chain : Option BlockHash) (i : ℕ) (blks : List BlockId),
      (m.commitChunks seq prompt chain i chunks blks).1.prefixCachingEnabled
        = m.prefixCachingEnabled := by
  induction chunks with
  | nil =>
    intro m chain i blks
    unfold commitChunks
    rfl
  | cons chunk chunks ih =>
    intro m chain i blks
    rcases blks with - | ⟨blk, blks⟩
    · unfold commitChunks
      rfl
    unfold commitChunks
    split
    · exact ih _ _ blks
    · rfl

theorem evictCached_enabled (count : ℕ) : ∀ m : KvCacheManager,
    (m.evictCached count).1.prefixCachingEnabled = m.prefixCachingEnabled := by
  induction count with
  | zero => exact fun _ => rfl
  | succ count ih =>
    intro m
    unfold evictCached
    split
    · exact ih _
    · rfl

theorem growTable_enabled (m : KvCacheManager) (seq : SequenceId) (t : BlockTable) (k : ℕ) :
    (m.growTable seq t k).1.prefixCachingEnabled = m.prefixCachingEnabled := by
  unfold growTable
  split
  swap
  · rfl
  split
  · rfl
  dsimp only
  split <;> rfl

theorem appendToken_enabled (m : KvCacheManager) (seq : SequenceId) :
    (m.appendToken seq).1.prefixCachingEnabled = m.prefixCachingEnabled := by
  unfold appendToken
  split
  · rfl
  next t _ =>
  have hgrow := growTable_enabled m seq t (t.numTokens + 1)
  dsimp only
  split
  · next heq =>
    rw [heq] at hgrow
    rw [(recordToken_keeps _ seq (t.numTokens + 1)).2.1]
    exact hgrow
  · next heq =>
    rw [heq] at hgrow
    exact hgrow

/-- **No call turns prefix caching on or off.** -/
theorem run_enabled (op : CacheOp) (m : KvCacheManager) :
    (op.run m).prefixCachingEnabled = m.prefixCachingEnabled := by
  cases op with
  | allocate seq prompt =>
    show (m.allocate seq prompt).1.prefixCachingEnabled = _
    rcases m.allocate_cases False seq prompt with
      ⟨-, ha⟩ | ⟨-, -, ha⟩ | ⟨s, -, -, -, ha, -, -⟩
    · rw [ha]
    · rw [ha]
    · rw [ha]
      rfl
  | commitPrefill seq prompt =>
    show (m.commitPrefill seq prompt).prefixCachingEnabled = _
    unfold commitPrefill
    split
    swap
    · rfl
    split
    · rfl
    next table _ =>
    have hsame := commitChunks_enabled seq prompt
      (prompt.chunks m.blockSize) (m := m) none 0 table.blocks
    split
    · next heq =>
      rw [heq] at hsame
      exact hsame
    · next heq =>
      rw [heq] at hsame
      exact hsame
  | appendToken seq => exact appendToken_enabled m seq
  | free seq =>
    show (m.free seq).prefixCachingEnabled = _
    rcases ht : m.tables.lookup seq with - | t
    · rw [free_of_lookup_none ht]
    · rw [free_of_lookup ht]
  | preempt seq =>
    show (m.free seq).prefixCachingEnabled = _
    rcases ht : m.tables.lookup seq with - | t
    · rw [free_of_lookup_none ht]
    · rw [free_of_lookup ht]
  | evictCached count => exact evictCached_enabled count m
  | clearPrefixCache => exact evictCached_enabled m.numEvictable m

theorem Reachable.enabled (h : Reachable own n bs flag m) : m.prefixCachingEnabled = flag := by
  induction h with
  | start => rfl
  | step op _ _ ih => rw [run_enabled, ih]

/-! ## What a later admission finds -/

/-- **A chunk that an indexed prompt shares hits**, unless digests collide. -/
theorem Indexed.hits {p q : List TokenId} {s : SequenceId} {i : ℕ} (h : m.Indexed p)
    (hsrc : m.Sourced) (hen : m.prefixCachingEnabled = true) (hbs : 0 < m.blockSize)
    (hopen : .opened s p ∈ m.trace) (hfree : NoCollisions m.blockSize m.trace)
    (hp : (i + 1) * m.blockSize ≤ p.length) (hq : (i + 1) * m.blockSize ≤ q.length)
    (hsame : p.take ((i + 1) * m.blockSize) = q.take ((i + 1) * m.blockSize)) :
    m.Hits q i := by
  have hchunk : ∀ {a b : List TokenId} {j : ℕ}, (j + 1) * m.blockSize ≤ a.length →
      (i + 1) * m.blockSize ≤ b.length →
      a.take ((j + 1) * m.blockSize) = b.take ((i + 1) * m.blockSize) →
      (a.drop (j * m.blockSize)).take m.blockSize
        = (b.drop (i * m.blockSize)).take m.blockSize := by
    intro a b j ha hb hab
    have hlen := congrArg List.length hab
    rw [List.length_take, List.length_take, min_eq_left ha, min_eq_left hb] at hlen
    obtain rfl := Nat.succ_injective (Nat.eq_of_mul_eq_mul_right hbs hlen)
    have hdrop := congrArg (List.drop (j * m.blockSize)) hab
    rwa [List.drop_take, List.drop_take, Nat.succ_mul, Nat.add_sub_cancel_left] at hdrop
  obtain ⟨e, he⟩ := h i hp
  obtain ⟨s', p', j, hopen', hfull', hg, htok⟩ := hsrc _ e he
  have hagree := hfree s' p' s p hopen' hopen i j hfull' hp hg.symm
  refine ⟨hen, e.block, hq, ?_⟩
  rw [← chainHash_congr hsame, ← hchunk hfull' hq (hagree.trans hsame), ← htok]
  exact he

/-- **Prefix sharing is complete**: whatever has happened since a commit, as
long as no indexed block was recycled or evicted, the index not cleared and no
digests collide, a prompt that shares a prefix with the one committed is
admitted with at least the full blocks of that prefix reused. -/
theorem sharing_complete {m₀ : KvCacheManager} (hbs : 1 ≤ bs)
    (h₀ : Reachable True n bs true m₀) {s : SequenceId} {p : List TokenId}
    (halloc : m₀.isAllocated s = true) (hp : m₀.promptOf s = some p) (ops : List CacheOp)
    (hown : CacheOp.OwnCommits (m₀.commitPrefill s p) ops)
    (hspare : CacheOp.SparesAll (m₀.commitPrefill s p) ops)
    (hfree : NoCollisions bs (CacheOp.runAll (m₀.commitPrefill s p) ops).trace)
    {t : SequenceId} {q : List TokenId}
    (hfresh : (CacheOp.runAll (m₀.commitPrefill s p) ops).blockTable t = none)
    (hroom : q.length ⌈/⌉ bs ≤ (CacheOp.runAll (m₀.commitPrefill s p) ops).freeBlocks) :
    ∃ m' outcome, (CacheOp.runAll (m₀.commitPrefill s p) ops).allocate t q = (m', .ok outcome)
      ∧ ∀ l, l <+: p → l <+: q → l.length / bs ≤ outcome.reused := by
  have h₁ : Reachable True n bs true (m₀.commitPrefill s p) :=
    h₀.step (.commitPrefill s p) (fun _ _ => hp)
  have h₂ := h₁.runAll ops (fun _ => hown)
  obtain ⟨u, hu⟩ := Option.isSome_iff_exists.mp halloc
  have hindexed := h₁.runAll_indexed hbs ops hown hspare
    ((h₀.tallied hbs).2.commitPrefill_indexed h₀.enabled hu hp)
  have hopen : .opened s p ∈ (CacheOp.runAll (m₀.commitPrefill s p) ops).trace := by
    have hcommit := h₀.runAll_trace hbs (.commitPrefill s p :: ops) ⟨fun _ => hp, hown⟩
    exact hcommit.subset (mem_trace_of_promptOf hp)
  set m := CacheOp.runAll (m₀.commitPrefill s p) ops with hm
  obtain ⟨hmoves, ht⟩ := h₂.tallied hbs
  have hsize : m.blockSize = bs := hmoves.blockSize
  rcases m.allocate_cases False t q with
    ⟨hhas, -⟩ | ⟨-, hfew, -⟩ | ⟨st, -, -, -, ha, -, -⟩
  · unfold isAllocated at hhas
    rw [hfresh] at hhas
    exact absurd hhas (by simp)
  · have hneed : m.blocksNeededFor q.length = q.length ⌈/⌉ bs := by rw [← hsize]; rfl
    rw [hneed] at hfew
    exact absurd hroom (not_le.mpr hfew)
  refine ⟨_, _, ha, fun l hlp hlq => ?_⟩
  obtain ⟨-, adopted, fresh, -, -, -, hf⟩ := ht.allocate_fills (h₂.indexRanged hbs) ha
  rw [hf.reused]
  by_contra hless
  have hlong : (adopted.length + 1) * bs ≤ l.length :=
    (Nat.le_div_iff_mul_le hbs).mp (Nat.lt_of_not_le hless)
  -- the first chunk that is not adopted would have hit
  have hhit : m.Hits q adopted.length := by
    have hsame : p.take ((adopted.length + 1) * bs) = q.take ((adopted.length + 1) * bs) := by
      obtain ⟨rest, rfl⟩ := hlp
      obtain ⟨rest', rfl⟩ := hlq
      rw [List.take_append_of_le_length hlong, List.take_append_of_le_length hlong]
    rw [← hsize] at hlong hsame hfree
    exact hindexed.hits (h₂.sourced hbs) h₂.enabled ht.blockSize hopen hfree
      (hlong.trans hlp.length_le) (hlong.trans hlq.length_le) hsame
  have hmore := hf.greatest.2 (fun i hi => ?_ : adopted.length + 1 ∈ _)
  · exact absurd hmore (Nat.not_succ_le_self _)
  · rcases Nat.lt_succ_iff_lt_or_eq.mp hi with hi | rfl
    · exact hf.greatest.1 i hi
    · exact hhit

/-- The sequence that committed has decoded past its prompt and been freed;
another, whose prompt differs in its last token, finds its first block. -/
theorem sharing_complete_freed :
    let m := CacheOp.runAll (new 4 2 true) [.allocate ⟨1⟩ [7, 8, 9],
      .commitPrefill ⟨1⟩ [7, 8, 9], .appendToken ⟨1⟩, .free ⟨1⟩]
    ∃ m' outcome, m.allocate ⟨2⟩ [7, 8, 5] = (m', .ok outcome) ∧ 1 ≤ outcome.reused := by
  intro m
  have h₀ : Reachable True 4 2 true ((new 4 2 true).allocate ⟨1⟩ [7, 8, 9]).1 :=
    Reachable.start.step (.allocate ⟨1⟩ [7, 8, 9]) (fun _ => trivial)
  have hspare : CacheOp.SparesAll (((new 4 2 true).allocate ⟨1⟩ [7, 8, 9]).1.commitPrefill
      ⟨1⟩ [7, 8, 9]) [.appendToken ⟨1⟩, .free ⟨1⟩] := by
    have happend : ((((new 4 2 true).allocate ⟨1⟩ [7, 8, 9]).1.commitPrefill
        ⟨1⟩ [7, 8, 9]).appendToken ⟨1⟩).1.trace = [.appended ⟨1⟩ ⟨1⟩]
          ++ (((new 4 2 true).allocate ⟨1⟩ [7, 8, 9]).1.commitPrefill ⟨1⟩ [7, 8, 9]).trace := by
      decide +kernel
    have hrelease : (((((new 4 2 true).allocate ⟨1⟩ [7, 8, 9]).1.commitPrefill
        ⟨1⟩ [7, 8, 9]).appendToken ⟨1⟩).1.free ⟨1⟩).trace = [.released ⟨1⟩]
          ++ ((((new 4 2 true).allocate ⟨1⟩ [7, 8, 9]).1.commitPrefill
            ⟨1⟩ [7, 8, 9]).appendToken ⟨1⟩).1.trace := by
      decide +kernel
    exact ⟨CacheOp.spares_of_trace happend (by simp [BlockEvent.fresh]) (by simp) (by simp),
      CacheOp.spares_of_trace hrelease (by simp [BlockEvent.fresh]) (by simp) (by simp),
      trivial⟩
  have htr : m.trace = [.released ⟨1⟩, .appended ⟨1⟩ ⟨1⟩, .published ⟨1⟩ [7, 8, 9] 0 ⟨0⟩,
      .handedOut ⟨1⟩ ⟨1⟩, .handedOut ⟨1⟩ ⟨0⟩, .opened ⟨1⟩ [7, 8, 9]] := by decide +kernel
  have hfree : NoCollisions 2 m.trace := by
    intro s p t q hp hq i j hj hi _
    have hprompt : ∀ {s p}, BlockEvent.opened s p ∈ m.trace → p = [7, 8, 9] := by
      intro s p hp
      rw [htr] at hp
      simp only [List.mem_cons, List.not_mem_nil, reduceCtorEq, BlockEvent.opened.injEq,
        or_false, false_or] at hp
      exact hp.2
    obtain rfl := hprompt hp
    obtain rfl := hprompt hq
    change (j + 1) * 2 ≤ 3 at hj
    change (i + 1) * 2 ≤ 3 at hi
    obtain rfl : j = 0 := by omega
    obtain rfl : i = 0 := by omega
    rfl
  have hnone : m.blockTable ⟨2⟩ = none := by decide +kernel
  have hroom : [7, 8, 5].length ⌈/⌉ 2 ≤ m.freeBlocks := by decide +kernel
  obtain ⟨m', outcome, ha, hreused⟩ := sharing_complete (by decide) h₀ (by decide +kernel)
    (by decide +kernel) [.appendToken ⟨1⟩, .free ⟨1⟩] (by decide +kernel) hspare hfree
    (q := [7, 8, 5]) hnone hroom
  exact ⟨m', outcome, ha, hreused [7, 8] (by decide) (by decide)⟩

end KvCacheManager
