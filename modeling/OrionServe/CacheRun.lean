import OrionServe.CacheOperations

/-!
# Runs of the cache manager

A run starts with an empty manager and calls the seven operations in any
order and with any arguments; `Reachable` is what it can get to. With `own`
a commit is only called with the prompt its sequence's table was opened for,
which is how the scheduler calls it.

The reference counts are exact in every state of every run.
-/

/-- A call of one of the seven operations. -/
inductive CacheOp where
  | allocate (seq : SequenceId) (prompt : List TokenId)
  | commitPrefill (seq : SequenceId) (prompt : List TokenId)
  | appendToken (seq : SequenceId)
  | free (seq : SequenceId)
  | preempt (seq : SequenceId)
  | evictCached (count : ℕ)
  | clearPrefixCache
  deriving DecidableEq

namespace CacheOp

/-- The manager after the call, whatever it returned. -/
def run (m : KvCacheManager) : CacheOp → KvCacheManager
  | .allocate seq prompt => (m.allocate seq prompt).1
  | .commitPrefill seq prompt => m.commitPrefill seq prompt
  | .appendToken seq => (m.appendToken seq).1
  | .free seq => m.free seq
  | .preempt seq => (m.preempt seq).1
  | .evictCached count => (m.evictCached count).1
  | .clearPrefixCache => m.clearPrefixCache

/-- A commit is for the prompt the table was opened for. -/
def OwnCommit (m : KvCacheManager) : CacheOp → Prop
  | .commitPrefill seq prompt =>
    m.isAllocated seq = true → m.promptOf seq = some prompt
  | _ => True

instance (m : KvCacheManager) : (op : CacheOp) → Decidable (op.OwnCommit m)
  | .commitPrefill seq prompt =>
    inferInstanceAs (Decidable (m.isAllocated seq = true → m.promptOf seq = some prompt))
  | .allocate .. | .appendToken _ | .free _ | .preempt _ | .evictCached _
  | .clearPrefixCache => inferInstanceAs (Decidable True)

/-- A list of calls, in order. -/
def runAll (m : KvCacheManager) (ops : List CacheOp) : KvCacheManager :=
  ops.foldl run m

/-- Every commit of the list is for the prompt its table was opened for. -/
def OwnCommits (m : KvCacheManager) : List CacheOp → Prop
  | [] => True
  | op :: ops => op.OwnCommit m ∧ OwnCommits (op.run m) ops

instance decidableOwnCommits : (m : KvCacheManager) → (ops : List CacheOp) →
    Decidable (OwnCommits m ops)
  | _, [] => inferInstanceAs (Decidable True)
  | m, op :: ops =>
    have := decidableOwnCommits (op.run m) ops
    inferInstanceAs (Decidable (op.OwnCommit m ∧ OwnCommits (op.run m) ops))

end CacheOp

namespace KvCacheManager

variable {own : Prop} {n bs : ℕ} {flag : Bool} {m m' : KvCacheManager}

/-- **The states a run can reach**, by any calls with any arguments. With `own`
every commit is for the prompt that its table was opened for, as it is in the
scheduler; without it the arguments are free, and less holds. -/
inductive Reachable (own : Prop) (n bs : ℕ) (flag : Bool) : KvCacheManager → Prop
  | start : Reachable own n bs flag (.new n bs flag)
  | step {m : KvCacheManager} (op : CacheOp) (h : Reachable own n bs flag m)
      (hown : own → op.OwnCommit m) : Reachable own n bs flag (op.run m)

/-- A list of calls leads from a reachable state to a reachable one. -/
theorem Reachable.runAll (ops : List CacheOp) :
    ∀ {m : KvCacheManager}, Reachable own n bs flag m →
      (own → CacheOp.OwnCommits m ops) → Reachable own n bs flag (CacheOp.runAll m ops) := by
  induction ops with
  | nil => exact fun h _ => h
  | cons op ops ih =>
    intro m h hown
    exact ih (h.step op (fun ho => (hown ho).1)) (fun ho => (hown ho).2)

/-- **One operation**: a run of moves between tallied managers. -/
theorem Tallied.run (own : Prop) (h : m.Tallied) (op : CacheOp) (hown : own → op.OwnCommit m) :
    Moves own m (op.run m) ∧ (op.run m).Tallied := by
  cases op with
  | allocate seq prompt =>
    show Moves own m (m.allocate seq prompt).1 ∧ (m.allocate seq prompt).1.Tallied
    rcases m.allocate_cases own seq prompt with
      ⟨-, ha⟩ | ⟨-, -, ha⟩ | ⟨s, -, -, -, ha, hl, hm⟩
    · rw [ha]; exact ⟨.refl, h⟩
    · rw [ha]; exact ⟨.refl, h⟩
    · rw [ha]; exact ⟨hm, h.sealTable hl hm⟩
  | commitPrefill seq prompt =>
    have hc := m.commitPrefill_moves own h seq prompt hown
    exact ⟨hc.1, h.of_moves hc.1 hc.2.tables hc.2.promptOf⟩
  | appendToken seq =>
    show Moves own m (m.appendToken seq).1 ∧ (m.appendToken seq).1.Tallied
    rcases m.appendToken_cases own h seq with
      ⟨-, ha⟩ | ⟨t, -, -, -, ha⟩ | ⟨m', t, t', ha, hm, happ, -⟩
    · rw [ha]; exact ⟨.refl, h⟩
    · rw [ha]; exact ⟨.refl, h⟩
    · rw [ha]; exact ⟨hm, happ.tallied h hm⟩
  | free seq => exact ⟨free_moves own m seq, h.free seq⟩
  | preempt seq => exact ⟨free_moves own m seq, h.free seq⟩
  | evictCached count =>
    have he := evictCached_moves own count m
    exact ⟨he.1, h.of_moves he.1 he.2.tables he.2.promptOf⟩
  | clearPrefixCache =>
    have hc := clearPrefixCache_moves own m
    exact ⟨hc.1, h.of_moves hc.1 hc.2.tables hc.2.promptOf⟩

/-- And between settled ones. -/
theorem Settled.run (own : Prop) (h : m.Settled) (op : CacheOp) (hown : own → op.OwnCommit m) :
    Moves own m (op.run m) ∧ (op.run m).Settled := by
  have hstep := h.tallied.run own op hown
  exact ⟨hstep.1, hstep.2.settled (hstep.1.exact h.exact)⟩

/-- A new manager is tallied: it holds nothing. -/
theorem tallied_new (hbs : 1 ≤ bs) (n : ℕ) (flag : Bool) : (new n bs flag).Tallied where
  blockSize := hbs
  ranged := ⟨fun _ hb => absurd hb List.not_mem_nil, fun _ hb => BlockPool.new_mem_ids hb⟩
  sized ht := absurd ht (by simp [new])

/-- A new manager is settled where every block has an id of its own. -/
theorem settled_new (hbs : 1 ≤ bs) (hn : n ≤ 2 ^ 32) (flag : Bool) :
    (new n bs flag).Settled :=
  (tallied_new hbs n flag).settled (BlockPool.new_exact hn)

/-- **Run lemma**: every reachable manager is tallied, however many blocks there
are. -/
theorem Reachable.tallied (hbs : 1 ≤ bs) (h : Reachable own n bs flag m) :
    Moves own (new n bs flag) m ∧ m.Tallied := by
  induction h with
  | start => exact ⟨.refl, tallied_new hbs n flag⟩
  | step op _ hown ih =>
    have hstep := ih.2.run own op hown
    exact ⟨ih.1.trans hstep.1, hstep.2⟩

/-- **Run lemma**: every reachable manager is settled, and a run of moves
away from a new one. -/
theorem Reachable.settled (hbs : 1 ≤ bs) (hn : n ≤ 2 ^ 32)
    (h : Reachable own n bs flag m) :
    Moves own (new n bs flag) m ∧ m.Settled := by
  have ht := h.tallied hbs
  exact ⟨ht.1, ht.2.settled (ht.1.exact (settled_new hbs hn flag).exact)⟩

theorem Reachable.totalBlocks (hbs : 1 ≤ bs) (hn : n ≤ 2 ^ 32)
    (h : Reachable own n bs flag m) : m.totalBlocks = n := by
  rw [(h.settled hbs hn).1.totalBlocks]
  exact BlockPool.new_totalBlocks n bs

theorem Reachable.blockSize (hbs : 1 ≤ bs) (hn : n ≤ 2 ^ 32)
    (h : Reachable own n bs flag m) : m.blockSize = bs := by
  rw [(h.settled hbs hn).1.blockSize]
  rfl

/-! ## What is handed out -/

/-- What a move adds to the history. A move that releases no table keeps
every reference, and a block it hands out had none before. -/
theorem Move.fresh (h : Move own m m') (hx : m.Exact) :
    ∃ new, m'.trace = new ++ m.trace ∧ new.length ≤ 1
      ∧ ((∀ seq, .released seq ∉ new) → m.held ⊆ m'.held
        ∧ ∀ b ∈ new.filterMap BlockEvent.fresh, b ∉ m.held ∧ b ∈ m'.held) := by
  have hsame : m'.tables = m.tables → m.held ⊆ m'.held := fun ht => by
    rw [held_of_tables_eq ht]
    exact fun _ hb => hb
  cases h with
  | opened absent pool index tables trace =>
    refine ⟨[_], trace, le_rfl, fun _ => ⟨?_, by simp [BlockEvent.fresh]⟩⟩
    unfold held
    rw [tables, AList.flat_insert_of_lookup_eq_none _ _ absent]
    exact List.subset_append_right _ _
  | adopted table source full entry pool index tables trace =>
    refine ⟨[_], trace, le_rfl, fun _ => ⟨?_, by simp [BlockEvent.fresh]⟩⟩
    have hp := held_perm_of_insert table (BlockTable.push_blocks _ _) tables
    exact fun b hb => hp.mem_iff.mpr (List.mem_append_right _ hb)
  | @handedOut seq t blk table pool index tables trace =>
    have hp := held_perm_of_insert table (BlockTable.push_blocks t blk) tables
    have hfree : blk ∈ m.pool.freeList := by
      rw [pool.freeList]
      exact List.mem_cons_self
    have hnot : blk ∉ m.held := ((RefBalanced.mem_free hx blk).mp hfree).2
    refine ⟨[_], trace, le_rfl,
      fun _ => ⟨fun b hb => hp.mem_iff.mpr (List.mem_append_right _ hb), ?_⟩⟩
    intro b hb
    obtain rfl : b = blk := by simpa [BlockEvent.fresh] using hb
    exact ⟨hnot, hp.mem_iff.mpr (List.mem_append_left _ List.mem_cons_self)⟩
  | @sized seq t n table pool index tables trace =>
    have hblocks : (t.setNumTokens n).blocks = t.blocks ++ [] :=
      (List.append_nil t.blocks).symm
    have hp := held_perm_of_insert table hblocks tables
    exact ⟨[], trace, Nat.zero_le _,
      fun _ => ⟨fun b hb => hp.mem_iff.mpr hb, by simp⟩⟩
  | appended table last past pool index tables trace =>
    exact ⟨[_], trace, le_rfl, fun _ => ⟨hsame tables, by simp [BlockEvent.fresh]⟩⟩
  | hashed source table block full pool index tables trace =>
    exact ⟨[], trace, Nat.zero_le _, fun _ => ⟨hsame tables, by simp⟩⟩
  | published source table block full hash tokens absent pool index tables trace =>
    exact ⟨[_], trace, le_rfl, fun _ => ⟨hsame tables, by simp [BlockEvent.fresh]⟩⟩
  | released table pool index tables trace =>
    exact ⟨[_], trace, le_rfl, fun hno => absurd List.mem_cons_self (hno _)⟩
  | forgot free hash pool index tables trace =>
    exact ⟨[], trace, Nat.zero_le _, fun _ => ⟨hsame tables, by simp⟩⟩
  | cleared pool index tables trace =>
    exact ⟨[], trace, Nat.zero_le _, fun _ => ⟨hsame tables, by simp⟩⟩
  | idle pool index tables trace =>
    exact ⟨[], trace, Nat.zero_le _, fun _ => ⟨hsame tables, by simp⟩⟩

/-- **Run lemma**: as long as no table is released, every block handed out on
the way was held by nobody at the start, and none is handed out twice. -/
theorem Moves.fresh (h : Moves own m m') (hx : m.Exact) :
    ∃ new, m'.trace = new ++ m.trace
      ∧ ((∀ seq, .released seq ∉ new) → m.held ⊆ m'.held
        ∧ (new.filterMap BlockEvent.fresh).Nodup
        ∧ ∀ b ∈ new.filterMap BlockEvent.fresh, b ∉ m.held ∧ b ∈ m'.held) := by
  induction h with
  | refl => exact ⟨[], rfl, fun _ => ⟨List.Subset.refl _, List.nodup_nil, by simp⟩⟩
  | @tail m₁ m₂ hmoves hmove ih =>
    obtain ⟨new, htr, hnew⟩ := ih
    obtain ⟨new₁, htr₁, hlen, hnew₁⟩ := hmove.fresh (Moves.exact hmoves hx)
    refine ⟨new₁ ++ new, by rw [htr₁, htr, List.append_assoc], fun hno => ?_⟩
    obtain ⟨hsub, hnd, hfresh⟩ :=
      hnew (fun seq hs => hno seq (List.mem_append_right _ hs))
    obtain ⟨hsub₁, hfresh₁⟩ :=
      hnew₁ (fun seq hs => hno seq (List.mem_append_left _ hs))
    rw [List.filterMap_append]
    refine ⟨List.Subset.trans hsub hsub₁, List.nodup_append.mpr ⟨?_, hnd, ?_⟩, ?_⟩
    · have hone := (List.length_filterMap_le BlockEvent.fresh new₁).trans hlen
      rcases hf : new₁.filterMap BlockEvent.fresh with - | ⟨b, - | ⟨c, rest⟩⟩
      · exact List.nodup_nil
      · exact List.nodup_singleton b
      · rw [hf] at hone
        simp at hone
    · rintro a ha b hb rfl
      exact (hfresh₁ a ha).1 (hfresh a hb).2
    · intro b hb
      rcases List.mem_append.mp hb with hb | hb
      · exact ⟨fun hheld => (hfresh₁ b hb).1 (hsub hheld), (hfresh₁ b hb).2⟩
      · exact ⟨(hfresh b hb).1, hsub₁ (hfresh b hb).2⟩

/-- **An operation either releases one table and hands nothing out, or
releases none.** -/
theorem Settled.run_trace (h : m.Settled) (op : CacheOp) :
    ∃ new, (op.run m).trace = new ++ m.trace
      ∧ ((∀ seq, .released seq ∉ new) ∨ ∀ e ∈ new, e.fresh = none) := by
  have hindex : ∀ {m' : KvCacheManager}, m.IndexOnly m' → ∃ new, m'.trace = new ++ m.trace
      ∧ ((∀ seq, .released seq ∉ new) ∨ ∀ e ∈ new, e.fresh = none) := by
    intro m' hi
    obtain ⟨new, htr, hnew⟩ := hi.trace
    refine ⟨new, htr, Or.inl (fun seq hs => ?_)⟩
    obtain ⟨q, p, i, blk, he⟩ := hnew _ hs
    exact absurd he (by simp)
  have hfree : ∀ seq, ∃ new, (m.free seq).trace = new ++ m.trace
      ∧ ((∀ seq, .released seq ∉ new) ∨ ∀ e ∈ new, e.fresh = none) := by
    intro seq
    rcases ht : m.tables.lookup seq with - | t
    · exact ⟨[], by rw [free_of_lookup_none ht]; rfl, Or.inl (by simp)⟩
    · exact ⟨[.released seq], by rw [free_of_lookup ht]; rfl,
        Or.inr (by simp [BlockEvent.fresh])⟩
  cases op with
  | allocate seq prompt =>
    show ∃ new, (m.allocate seq prompt).1.trace = new ++ m.trace ∧ _
    rcases m.allocate_cases False seq prompt with
      ⟨-, ha⟩ | ⟨-, -, ha⟩ | ⟨s, -, -, -, ha, hl, -⟩
    · rw [ha]; exact ⟨[], rfl, Or.inl (by simp)⟩
    · rw [ha]; exact ⟨[], rfl, Or.inl (by simp)⟩
    · rw [ha]
      obtain ⟨new, htr, hnew⟩ := hl.trace
      refine ⟨new ++ [.opened seq prompt], ?_, Or.inl (fun q hq => ?_)⟩
      · rw [List.append_assoc]
        exact htr
      · rcases List.mem_append.mp hq with hq | hq
        · rcases hnew _ hq with ⟨k, blk, he⟩ | ⟨blk, he⟩ <;> exact absurd he (by simp)
        · exact absurd (List.mem_singleton.mp hq) (by simp)
  | commitPrefill seq prompt =>
    exact hindex (m.commitPrefill_moves False h.tallied seq prompt False.elim).2
  | appendToken seq =>
    show ∃ new, (m.appendToken seq).1.trace = new ++ m.trace ∧ _
    rcases m.appendToken_cases False h.tallied seq with
      ⟨-, ha⟩ | ⟨t, -, -, -, ha⟩ | ⟨m', t, t', ha, -, happ, -⟩
    · rw [ha]; exact ⟨[], rfl, Or.inl (by simp)⟩
    · rw [ha]; exact ⟨[], rfl, Or.inl (by simp)⟩
    · rw [ha]
      obtain ⟨new, htr, hnew⟩ := happ.trace
      refine ⟨new, htr, Or.inl (fun q hq => ?_)⟩
      rcases hnew _ hq with ⟨blk, he⟩ | ⟨blk, he⟩ <;> exact absurd he (by simp)
  | free seq => exact hfree seq
  | preempt seq => exact hfree seq
  | evictCached count => exact hindex (evictCached_moves False count m).2
  | clearPrefixCache => exact hindex (clearPrefixCache_moves False m).2

/-- **No block is handed out while a table references it**, nor twice by one
operation. -/
theorem Settled.handedOut (h : m.Settled) (op : CacheOp) {new : List BlockEvent}
    (htr : (op.run m).trace = new ++ m.trace) :
    (new.filterMap BlockEvent.fresh).Nodup
      ∧ ∀ b ∈ new.filterMap BlockEvent.fresh, b ∉ m.held := by
  obtain ⟨new₁, htr₁, hnew₁⟩ := h.run_trace op
  obtain ⟨new₂, htr₂, hnew₂⟩ := (h.run False op False.elim).1.fresh h.exact
  obtain rfl : new₁ = new := List.append_cancel_right (htr₁.symm.trans htr)
  obtain rfl : new₂ = new₁ := List.append_cancel_right (htr₂.symm.trans htr)
  rcases hnew₁ with hno | hnone
  · obtain ⟨-, hnd, hfresh⟩ := hnew₂ hno
    exact ⟨hnd, fun b hb => (hfresh b hb).1⟩
  · have hnil : new₂.filterMap BlockEvent.fresh = [] :=
      List.filterMap_eq_nil_iff.mpr hnone
    rw [hnil]
    exact ⟨List.nodup_nil, by simp⟩

/-! ## Giving everything back -/

/-- Freeing a list of sequences, one after the other. -/
def freeAll (m : KvCacheManager) (order : List SequenceId) : KvCacheManager :=
  order.foldl free m

theorem freeAll_moves (own : Prop) (order : List SequenceId) :
    ∀ m : KvCacheManager, Moves own m (m.freeAll order) := by
  induction order with
  | nil => exact fun m => .refl
  | cons seq order ih => exact fun m => (free_moves own m seq).trans (ih _)

/-- The tables left are those of the sequences not listed. -/
theorem freeAll_lookup (order : List SequenceId) (q : SequenceId) :
    ∀ m : KvCacheManager, (m.freeAll order).tables.lookup q
      = if q ∈ order then none else m.tables.lookup q := by
  induction order with
  | nil => exact fun m => by simp [freeAll]
  | cons seq order ih =>
    intro m
    show ((m.free seq).freeAll order).tables.lookup q = _
    rw [ih, free_tables]
    by_cases hq : q = seq
    · subst hq
      simp
    · simp [hq]

/-- **Freeing every sequence, in any order, frees every block.** -/
theorem Exact.freeAll (hx : m.Exact) {order : List SequenceId}
    (hall : ∀ seq, m.isAllocated seq = true → seq ∈ order) :
    (m.freeAll order).freeBlocks = m.totalBlocks := by
  have hheld : (m.freeAll order).held = [] := by
    refine List.eq_nil_iff_forall_not_mem.mpr (fun b hb => ?_)
    obtain ⟨seq, t, ht, -⟩ := AList.mem_flat.mp hb
    rw [freeAll_lookup] at ht
    split at ht
    · exact absurd ht (by simp)
    · next hnot => exact hnot (hall seq (by unfold isAllocated blockTable; rw [ht]; rfl))
  have hmoves := freeAll_moves False order m
  have hexact := hmoves.exact hx
  unfold Exact at hexact
  rw [hheld] at hexact
  rw [← hmoves.totalBlocks]
  exact hexact.numFree_eq

/-- **Reference counts are exact**: in every state of every run, with any
arguments, a block is referenced as often as it occurs in the tables, the
free list holds once each the blocks that do not occur, and every table has
as many blocks as its tokens need. So no release of a `free` errs, no block
is handed out while a table references it, and freeing every sequence, in
any order, frees every block. -/
theorem refCount_exact (hbs : 1 ≤ bs) (hn : n ≤ 2 ^ 32)
    (h : Reachable False n bs flag m) :
    (∀ b : BlockId, b.index < n → m.pool.refCount b = m.held.count b)
    ∧ (m.pool.freeList.Nodup
        ∧ ∀ b : BlockId, b ∈ m.pool.freeList ↔ b.index < n ∧ m.held.count b = 0)
    ∧ (∀ seq t, m.blockTable seq = some t → t.numBlocks = t.numTokens ⌈/⌉ bs)
    ∧ (∀ seq t, m.blockTable seq = some t →
        ∀ r ∈ m.pool.releaseResults t.blocks, ∃ freed, r = .ok freed)
    ∧ (∀ (op : CacheOp) (new : List BlockEvent), (op.run m).trace = new ++ m.trace →
        (new.filterMap BlockEvent.fresh).Nodup
        ∧ ∀ b ∈ new.filterMap BlockEvent.fresh, b ∉ m.held)
    ∧ ∀ order : List SequenceId, (∀ seq, m.isAllocated seq = true → seq ∈ order) →
        (m.freeAll order).freeBlocks = n := by
  have hs := (h.settled hbs hn).2
  have htotal := h.totalBlocks hbs hn
  have hids : ∀ b : BlockId, b ∈ m.pool.ids ↔ b.index < n := fun b => by
    rw [← htotal]
    exact Iff.rfl
  refine ⟨fun b hb => RefBalanced.count_eq hs.exact b ((hids b).mpr hb),
    ⟨RefBalanced.free_nodup hs.exact, fun b => ?_⟩, fun seq t ht => ?_,
    fun seq t ht => hs.exact.releaseResults_ok t.blocks (held_perm ht),
    fun op new htr => hs.handedOut op htr,
    fun order hall => (hs.exact.freeAll hall).trans htotal⟩
  · rw [RefBalanced.mem_free hs.exact b, hids b, List.count_eq_zero]
  · rw [← h.blockSize hbs hn]
    exact (hs.sized ht).numBlocks

/-- The counts after two prompts that share their first block. -/
theorem refCount_exact_shared_prefix :
    let m := CacheOp.runAll (new 4 2 true) [.allocate ⟨1⟩ [7, 8, 9],
      .commitPrefill ⟨1⟩ [7, 8, 9], .allocate ⟨2⟩ [7, 8, 5]]
    m.pool.refCount ⟨0⟩ = 2 ∧ m.held.count ⟨0⟩ = 2 := by
  intro m
  have hm : Reachable False 4 2 true m := Reachable.start.runAll _ False.elim
  have hcount := (refCount_exact (by decide) (by decide) hm).1 ⟨0⟩ (by decide)
  have htwo : m.held.count ⟨0⟩ = 2 := by decide +kernel
  exact ⟨hcount.trans htwo, htwo⟩

end KvCacheManager
