import OrionServe.CacheIndex
import OrionServe.Lib.Places

/-!
# A growing block is never shared

The blocks of a table past the full chunks of its prompt are the ones a
decode writes to. Such a place has no key, so a coherent index does not name
its block and no other place holds it – the exclusivity that nothing checks
at run time is the contrapositive of what `Coherent` says of shared blocks.

The pool must be one its ids can number. Where two blocks have one id, a
single `allocate` can put the same id at both ends of a table.
-/

namespace KvCacheManager

variable {n bs : ℕ} {flag : Bool} {m : KvCacheManager} {seq : SequenceId} {b : BlockId} {i : ℕ}

/-- **A block that only one place of one table can see.** No other table names it,
and neither does the index, so no later prompt can adopt it: what is written
there concerns this sequence only. -/
structure Private (m : KvCacheManager) (seq : SequenceId) (i : ℕ) (b : BlockId) : Prop where
  refCount : m.pool.refCount b = 1
  only : ∀ s j, m.Occurs s j b → s = seq ∧ j = i
  unnamed : ∀ h e, m.prefixCache.entries.lookup h = some e → e.block ≠ b

/-- A block at one place only is referenced once. -/
theorem refCount_of_only (hx : m.Exact) (ho : m.Occurs seq i b)
    (hone : ∀ s j, m.Occurs s j b → s = seq ∧ j = i) : m.pool.refCount b = 1 := by
  obtain ⟨t, ht, hb⟩ := ho
  have hrest : b ∉ (m.tables.erase seq).flat BlockTable.blocks := by
    intro hmem
    obtain ⟨s, u, hu, hbu⟩ := AList.mem_flat.mp hmem
    by_cases hs : s = seq
    · rw [hs, AList.lookup_erase] at hu
      exact absurd hu (by simp)
    · rw [AList.lookup_erase_ne hs] at hu
      obtain ⟨j, hj⟩ := List.mem_iff_getElem?.mp hbu
      exact hs (hone s j ⟨u, hu, hj⟩).1
  have hheld : m.held.count b = 1 := by
    rw [(held_perm ht).count_eq, List.count_append, List.count_eq_zero.mpr hrest]
    exact List.count_eq_one_of_getElem? hb (fun j hj => (hone seq j ⟨t, ht, hj⟩).2)
  have hmem : b ∈ m.held := Occurs.mem_held ⟨t, ht, hb⟩
  rw [← hheld]
  exact RefBalanced.count_eq hx b (RefBalanced.held_mem hx b hmem)

/-- **A place without a key is private.** -/
theorem Coherent.private (h : m.Coherent) (hx : m.Exact) (ho : m.Occurs seq i b)
    (hkey : m.key seq i = none) : m.Private seq i b := by
  have hone : ∀ s j, m.Occurs s j b → s = seq ∧ j = i := by
    intro s j hs
    by_contra hne
    obtain ⟨g, -, hg⟩ := h.shared hs ho (fun heq => hne (Prod.mk.inj heq))
    rw [hkey] at hg
    exact absurd hg (by simp)
  refine ⟨refCount_of_only hx ho hone, hone, ?_⟩
  rintro g e he rfl
  have hg := h.named he ho
  rw [hkey] at hg
  exact absurd hg (by simp)

/-- Past the full chunks of the prompt a place has no key. -/
theorem key_of_growing {prompt : List TokenId} (hpos : 0 < m.blockSize)
    (hp : m.promptOf seq = some prompt) (hi : prompt.length / m.blockSize ≤ i) :
    m.key seq i = none := by
  refine key_of_past (fun q hq => ?_)
  obtain rfl : prompt = q := Option.some.inj (hp.symm.trans hq)
  exact (Nat.div_lt_iff_lt_mul hpos).mp (Nat.lt_succ_of_le hi)

/-- **A growing block is never shared**: in every state of every run in which
a commit is for the prompt of its table, each block past the full chunks of a
table's prompt is referenced once, is at no other place of any table and in
no entry of the index. So the block that `append_token` records its token in,
the last one of its table, is seen by this sequence alone. -/
theorem growing_block_private (hbs : 1 ≤ bs) (hn : n ≤ 2 ^ 32)
    (h : Reachable True n bs flag m) :
    (∀ seq t prompt i b, m.blockTable seq = some t → m.promptOf seq = some prompt →
      prompt.length / bs ≤ i → t.blocks[i]? = some b → m.Private seq i b)
    ∧ ∀ seq, (m.appendToken seq).2 = .ok () →
      ∃ t b, (m.appendToken seq).1.blockTable seq = some t
        ∧ t.blocks.getLast? = some b
        ∧ (m.appendToken seq).1.Private seq (t.numBlocks - 1) b := by
  have hmain : ∀ {m' : KvCacheManager}, Reachable True n bs flag m' →
      ∀ seq t prompt i b, m'.blockTable seq = some t → m'.promptOf seq = some prompt →
      prompt.length / bs ≤ i → t.blocks[i]? = some b → m'.Private seq i b := by
    intro m' h seq t prompt i b ht hp hi hb
    have hs := (h.settled hbs hn).2
    rw [← h.blockSize hbs hn] at hi
    exact (h.coherent hbs hn).private hs.exact ⟨t, ht, hb⟩ (key_of_growing hs.blockSize hp hi)
  refine ⟨hmain h, fun seq hok => ?_⟩
  have hs := (h.settled hbs hn).2
  have hanswer : KvCacheManagerLike.appendToken m seq = ((m.appendToken seq).1, .ok ()) :=
    Prod.ext rfl hok
  obtain ⟨hs', t, t', happ⟩ := like_appendToken_ok hs hanswer
  obtain ⟨prompt, hp, hlen⟩ := (hs.sized happ.table).prompt
  have h' : Reachable True n bs flag (m.appendToken seq).1 :=
    h.step (.appendToken seq) (fun _ => trivial)
  have ht' : (m.appendToken seq).1.tables.lookup seq = some t' := by
    rw [happ.tables, AList.lookup_insert]
  have hsize := (hs'.sized ht').numBlocks
  rw [h'.blockSize hbs hn, happ.numTokens] at hsize
  -- the table holds a token more than the prompt, so its last block is past the full chunks
  have hfull : prompt.length / bs < t'.numBlocks := by
    rw [hsize]
    refine (Nat.lt_ceilDiv_iff_mul_lt hbs).mpr ?_
    exact Nat.lt_succ_of_le ((Nat.div_mul_le_self _ _).trans hlen)
  have hpos : 0 < t'.blocks.length := (Nat.zero_le _).trans_lt hfull
  have hlast : t'.blocks[t'.numBlocks - 1]? = some (t'.blocks.getLast
      (List.ne_nil_of_length_pos hpos)) := by
    rw [← List.getLast?_eq_some_getLast, List.getLast?_eq_getElem?]
    rfl
  have hp' : (m.appendToken seq).1.promptOf seq = some prompt := by
    obtain ⟨new, htr, hnew⟩ := happ.trace
    rw [promptOf_append htr (fun e he q x => by
      rcases hnew e he with ⟨blk, rfl⟩ | ⟨blk, rfl⟩ <;> simp)]
    exact hp
  exact ⟨t', _, ht', List.getLast?_eq_some_getLast _,
    hmain h' seq t' prompt _ _ ht' hp' (Nat.le_sub_one_of_lt hfull) hlast⟩

/-- Two prompts that share their first block: the second one's last block is
its own, and stays so when it grows. -/
theorem growing_block_private_shared_prefix :
    let m := CacheOp.runAll (new 4 2 true) [.allocate ⟨1⟩ [7, 8, 9],
      .commitPrefill ⟨1⟩ [7, 8, 9], .allocate ⟨2⟩ [7, 8, 5]]
    m.Private ⟨2⟩ 1 ⟨2⟩ ∧ ∃ t b, (m.appendToken ⟨2⟩).1.blockTable ⟨2⟩ = some t
      ∧ t.blocks.getLast? = some b
      ∧ (m.appendToken ⟨2⟩).1.Private ⟨2⟩ (t.numBlocks - 1) b := by
  intro m
  have hm : Reachable True 4 2 true m :=
    Reachable.start.runAll _ (fun _ => by decide +kernel)
  have hgrow := growing_block_private (by decide) (by decide) hm
  have htable : m.blockTable ⟨2⟩ = some ⟨[⟨0⟩, ⟨2⟩], 3⟩ := by decide +kernel
  have hprompt : m.promptOf ⟨2⟩ = some [7, 8, 5] := by decide +kernel
  exact ⟨hgrow.1 _ _ _ 1 ⟨2⟩ htable hprompt (by decide) rfl,
    hgrow.2 ⟨2⟩ (by decide +kernel)⟩

/-- A prompt for a whole pool of `k + 2` blocks of two tokens. -/
def wholePrompt (k : ℕ) : List TokenId := List.replicate (2 * (k + 1) + 1) 9

/-- **One `allocate` of a whole pool** takes the free list as it is. Where the
last block has the id of the first, that id is at both ends. -/
theorem allocate_whole_pool (k : ℕ) (hwrap : (k + 1) % 2 ^ 32 = 0) :
    (new (k + 2) 2 true).AllocatesCold ((new (k + 2) 2 true).allocate ⟨1⟩ (wholePrompt k)).1 ⟨1⟩
      (wholePrompt k)
    ∧ ((new (k + 2) 2 true).allocate ⟨1⟩ (wholePrompt k)).1.blockTable ⟨1⟩
      = some ⟨(new (k + 2) 2 true).pool.freeList, (wholePrompt k).length⟩
    ∧ (new (k + 2) 2 true).pool.freeList[0]? = some (BlockId.ofIndex 0)
    ∧ (new (k + 2) 2 true).pool.freeList[k + 1]? = some (BlockId.ofIndex 0) := by
  have htwin : BlockId.ofIndex (k + 1) = BlockId.ofIndex 0 := congrArg BlockId.mk hwrap
  have hends := new_freeList_ends k 2 true
  rw [htwin] at hends
  set m₀ := new (k + 2) 2 true with hm₀
  have hneed : m₀.blocksNeededFor (wholePrompt k).length = k + 2 := by
    unfold blocksNeededFor BlockTable.blocksRequired
    show (wholePrompt k).length ⌈/⌉ 2 = _
    rw [wholePrompt, List.length_replicate, Nat.ceilDiv_eq_add_pred_div]
    omega
  have hfree : m₀.pool.freeList.length = k + 2 := by
    rw [hends]
    simp
  have hcold : m₀.AllocatesCold (m₀.allocate ⟨1⟩ (wholePrompt k)).1 ⟨1⟩ (wholePrompt k) :=
    allocate_cold (by rw [hm₀]; rfl) (fun _ => rfl) (by rw [hneed]; exact hfree.ge)
  refine ⟨hcold, ?_, by rw [hends]; rfl, ?_⟩
  · show (m₀.allocate ⟨1⟩ (wholePrompt k)).1.tables.lookup ⟨1⟩ = _
    rw [hcold.tables, AList.lookup_insert, hneed, ← hfree, List.take_length]
  · rw [hends, List.getElem?_append_right (by simp)]
    simp

/-- **The bound on the pool is needed**: where the last block has the id of
the first, one `allocate` of the whole pool has that id at both ends, and the
last place is a growing one. -/
theorem growing_block_shared_above_u32 :
    ∃ m seq t prompt i b, Reachable True (2 ^ 32 + 1) 2 true m
      ∧ m.blockTable seq = some t ∧ m.promptOf seq = some prompt
      ∧ prompt.length / 2 ≤ i ∧ t.blocks[i]? = some b ∧ ¬ m.Private seq i b := by
  obtain ⟨k, hk, hwrap⟩ : ∃ k, 2 ^ 32 + 1 = k + 2 ∧ (k + 1) % 2 ^ 32 = 0 :=
    ⟨2 ^ 32 - 1, by norm_num, by norm_num⟩
  rw [hk]
  obtain ⟨hcold, htable, hfirst, hlast⟩ := allocate_whole_pool k hwrap
  refine ⟨_, ⟨1⟩, _, wholePrompt k, k + 1, BlockId.ofIndex 0,
    Reachable.start.step (.allocate ⟨1⟩ (wholePrompt k)) (fun _ => trivial), htable, ?_, ?_,
    hlast, fun hprivate => ?_⟩
  · show ((new (k + 2) 2 true).allocate ⟨1⟩ (wholePrompt k)).1.promptOf ⟨1⟩ = _
    rw [hcold.promptOf, if_pos rfl]
  · rw [wholePrompt, List.length_replicate]
    omega
  · exact absurd (hprivate.only ⟨1⟩ 0 ⟨_, htable, hfirst⟩).2 (Nat.succ_ne_zero k).symm

end KvCacheManager
