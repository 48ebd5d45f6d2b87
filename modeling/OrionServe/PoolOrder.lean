import OrionServe.BlockPool

/-!
# The free list is the eviction order

A pool hands out its oldest free block, where the age of a free block is the
time its last reference went. The free list is not sorted by anything – it
is the order the releases happened to be made in, with revived blocks taken
out of the middle – and this module says that it is that order all the same,
after any calls with any arguments.

Calls are listed newest first.
-/

/-- A call of one of the operations of the pool. -/
inductive PoolOp where
  | allocate
  | addRef (id : BlockId)
  | release (id : BlockId)
  | setContents (id : BlockId) (numTokens : ℕ) (hash : Option BlockHash)
  | evictOldestCached
  deriving DecidableEq

namespace PoolOp

/-- The pool after the call, whatever it returned. -/
def run (p : BlockPool) : PoolOp → BlockPool
  | .allocate => p.allocate.1
  | .addRef id => (p.addRef id).1
  | .release id => (p.release id).1
  | .setContents id numTokens hash => (p.setContents id numTokens hash).1
  | .evictOldestCached => p.evictOldestCached.1

/-- The call returns an error, or finds nothing to evict. -/
def Fails (p : BlockPool) : PoolOp → Prop
  | .allocate => ∃ e, p.allocate.2 = .error e
  | .addRef id => ∃ e, (p.addRef id).2 = .error e
  | .release id => ∃ e, (p.release id).2 = .error e
  | .setContents id numTokens hash => ∃ e, (p.setContents id numTokens hash).2 = .error e
  | .evictOldestCached => p.evictOldestCached.2 = none

end PoolOp

namespace BlockPool

variable {p p' : BlockPool} {n bs : ℕ} {id j : BlockId} {op : PoolOp} {past : List PoolOp}

/-- The pool after some calls. -/
def after (p : BlockPool) : List PoolOp → BlockPool
  | [] => p
  | op :: past => op.run (p.after past)

/-- **The time a block was freed**: the number of the last call that took its
count from above zero to zero, and `0` when there was none. -/
def freedAt (p : BlockPool) : List PoolOp → BlockId → ℕ
  | [], _ => 0
  | op :: past, id =>
    if 0 < (p.after past).refCount id ∧ (p.after (op :: past)).refCount id = 0 then
      past.length + 1
    else p.freedAt past id

/-- **One block has been free for longer than another**; blocks that were never
used are older than all others, and among themselves come in the order of
their ids. -/
def Earlier (p : BlockPool) (calls : List PoolOp) (id j : BlockId) : Prop :=
  p.freedAt calls id < p.freedAt calls j
    ∨ (p.freedAt calls id = p.freedAt calls j ∧ id.index < j.index)

/-- Nothing has been freed at a time still to come. -/
theorem freedAt_le (p : BlockPool) (id : BlockId) :
    ∀ calls : List PoolOp, p.freedAt calls id ≤ calls.length
  | [] => le_rfl
  | op :: past => by
    unfold freedAt
    split
    · exact le_rfl
    · exact (freedAt_le p id past).trans (Nat.le_succ _)

/-- A call that frees no block but these leaves the others as old as they
were. -/
theorem freedAt_cons_of_le
    (h : (p.after past).refCount id ≤ (p.after (op :: past)).refCount id) :
    p.freedAt (op :: past) id = p.freedAt past id := by
  rw [freedAt, if_neg]
  rintro ⟨hpos, hzero⟩
  exact absurd (hpos.trans_le h) (by rw [hzero]; exact lt_irrefl 0)

/-- The call that frees a block dates it. -/
theorem freedAt_cons_of_freed (hpos : 0 < (p.after past).refCount id)
    (hzero : (p.after (op :: past)).refCount id = 0) :
    p.freedAt (op :: past) id = past.length + 1 := by
  rw [freedAt, if_pos ⟨hpos, hzero⟩]

/-- **Time `0` means never used**, for a block that is free. -/
theorem freedAt_eq_zero_iff (calls : List PoolOp) (hfree : (p.after calls).refCount id = 0) :
    p.freedAt calls id = 0 ↔ ∀ past, past <:+ calls → (p.after past).refCount id = 0 := by
  induction calls with
  | nil =>
    refine iff_of_true rfl (fun past hp => ?_)
    rw [List.suffix_nil.mp hp]
    exact hfree
  | cons op calls ih =>
    rcases Nat.eq_zero_or_pos ((p.after calls).refCount id) with hzero | hpos
    · rw [freedAt_cons_of_le (by rw [hzero]; exact Nat.zero_le _), ih hzero]
      constructor
      · intro hall past hp
        rcases List.suffix_cons_iff.mp hp with rfl | hp
        · exact hfree
        · exact hall past hp
      · exact fun hall past hp => hall past (hp.trans (List.suffix_cons op calls))
    · rw [freedAt_cons_of_freed hpos hfree]
      refine iff_of_false (Nat.succ_ne_zero _) (fun hall => ?_)
      exact absurd (hall calls (List.suffix_cons op calls)) (Nat.ne_of_gt hpos)

/-! ## What every call keeps -/

/-- **A failed call changes nothing.** -/
theorem run_of_fails (h : op.Fails p) : op.run p = p := by
  cases op with
  | allocate =>
    show p.allocate.1 = p
    obtain ⟨e, he⟩ := h
    rcases allocate_cases p with ⟨-, ha⟩ | ⟨p', id, ha, -⟩
    · rw [ha]
    · rw [ha] at he
      exact absurd he (by simp)
  | addRef id =>
    show (p.addRef id).1 = p
    obtain ⟨e, he⟩ := h
    rcases addRef_cases p id with ⟨-, e', ha⟩ | ⟨p', ha, -⟩
    · rw [ha]
    · rw [ha] at he
      exact absurd he (by simp)
  | release id =>
    show (p.release id).1 = p
    obtain ⟨e, he⟩ := h
    rcases release_cases p id with ⟨-, e', ha⟩ | ⟨p', ha, -⟩
    · rw [ha]
    · rw [ha] at he
      exact absurd he (by simp)
  | setContents id k hash =>
    show (p.setContents id k hash).1 = p
    obtain ⟨e, he⟩ := h
    rcases setContents_cases p id k hash with ⟨-, e', ha⟩ | ⟨p', ha, -⟩
    · rw [ha]
    · rw [ha] at he
      exact absurd he (by simp)
  | evictOldestCached =>
    show p.evictOldestCached.1 = p
    rcases evictOldestCached_cases p with ⟨ha, -⟩ | ⟨p', id, g, ha, -⟩
    · rw [ha]
    · change p.evictOldestCached.2 = none at h
      rw [ha] at h
      exact absurd h (by simp)

/-- **What one call does to the pool**, when it does anything. -/
theorem run_cases (op : PoolOp) (p : BlockPool) :
    op.run p = p ∨ (∃ id, p.HandsOut (op.run p) id) ∨ (∃ id, p.Shares (op.run p) id)
      ∨ (∃ id, 0 < p.refCount id ∧ id ∈ p.ids ∧ p.Drops (op.run p) id)
      ∨ ∃ id k hash, k ≤ p.blockSize ∧ p.Records (op.run p) id k hash := by
  cases op with
  | allocate =>
    show p.allocate.1 = p ∨ _
    rcases allocate_cases p with ⟨-, ha⟩ | ⟨p', id, ha, ho⟩
    · exact Or.inl (by rw [ha])
    · refine Or.inr (Or.inl ⟨id, ?_⟩)
      show p.HandsOut p.allocate.1 id
      rw [ha]
      exact ho
  | addRef id =>
    show (p.addRef id).1 = p ∨ _
    rcases addRef_cases p id with ⟨-, e, ha⟩ | ⟨p', ha, hs⟩
    · exact Or.inl (by rw [ha])
    · refine Or.inr (Or.inr (Or.inl ⟨id, ?_⟩))
      show p.Shares (p.addRef id).1 id
      rw [ha]
      exact hs
  | release id =>
    show (p.release id).1 = p ∨ _
    rcases hb : p.get id with - | b
    · exact Or.inl (by unfold release; rw [hb])
    rcases Nat.eq_zero_or_pos (p.refCount id) with hzero | hpos
    · refine Or.inl ?_
      unfold release
      rw [hb]
      dsimp only
      rw [if_pos ((refCount_of_get hb).symm.trans hzero)]
    · rcases release_cases p id with ⟨-, e, ha⟩ | ⟨p', ha, hd⟩
      · exact Or.inl (by rw [ha])
      · refine Or.inr (Or.inr (Or.inr (Or.inl ⟨id, hpos, mem_ids_of_get hb, ?_⟩)))
        show p.Drops (p.release id).1 id
        rw [ha]
        exact hd
  | setContents id k hash =>
    show (p.setContents id k hash).1 = p ∨ _
    rcases setContents_cases p id k hash with ⟨-, e, ha⟩ | ⟨p', ha, hr⟩
    · exact Or.inl (by rw [ha])
    · have hfits : k ≤ p.blockSize := by
        by_contra hlarge
        unfold setContents at ha
        rw [if_pos (not_le.mp hlarge)] at ha
        exact absurd ha (by simp)
      refine Or.inr (Or.inr (Or.inr (Or.inr ⟨id, k, hash, hfits, ?_⟩)))
      show p.Records (p.setContents id k hash).1 id k hash
      rw [ha]
      exact hr
  | evictOldestCached =>
    show p.evictOldestCached.1 = p ∨ _
    rcases evictOldestCached_cases p with ⟨ha, -⟩ | ⟨p', id, g, ha, -, -, hr⟩
    · exact Or.inl (by rw [ha])
    · refine Or.inr (Or.inr (Or.inr (Or.inr ⟨id, 0, none, Nat.zero_le _, ?_⟩)))
      show p.Records p.evictOldestCached.1 id 0 none
      rw [ha]
      exact hr

/-- **What holds after any calls**: the bookkeeping is exact for some
references, the free list is in the order of the releases, and no block is
over its capacity. -/
structure Ordered (p : BlockPool) (calls : List PoolOp) : Prop where
  exact : ∃ held, (p.after calls).Exact held
  order : (p.after calls).freeList.Pairwise (p.Earlier calls)
  capacity : ∀ id, (p.after calls).tokensOf id ≤ (p.after calls).blockSize
  blockSize : (p.after calls).blockSize = p.blockSize
  totalBlocks : (p.after calls).totalBlocks = p.totalBlocks

/-- A block on the free list has no reference. -/
theorem Ordered.refCount_of_free (h : p.Ordered past) (hid : id ∈ (p.after past).freeList) :
    (p.after past).refCount id = 0 := by
  obtain ⟨held, hx⟩ := h.exact
  have hin := ((RefBalanced.mem_free hx id).mp hid).1
  exact (RefBalanced.mem_free_iff_count hx hin).mp hid

/-- A free block does not get younger. -/
theorem Ordered.freedAt_of_free (h : p.Ordered past) (hid : id ∈ (p.after past).freeList) :
    p.freedAt (op :: past) id = p.freedAt past id :=
  freedAt_cons_of_le (by rw [h.refCount_of_free hid]; exact Nat.zero_le _)

/-- Blocks that stay free stay in order. -/
theorem Ordered.order_of_sublist (h : p.Ordered past) {l : List BlockId}
    (hsub : l.Sublist (p.after past).freeList) : l.Pairwise (p.Earlier (op :: past)) := by
  refine (h.order.sublist hsub).imp_of_mem (fun {a b} ha hb hab => ?_)
  unfold Earlier
  rw [h.freedAt_of_free (hsub.subset ha), h.freedAt_of_free (hsub.subset hb)]
  exact hab

/-- **A block that is released goes to the end**: it was freed after all the
others. -/
theorem Ordered.order_of_freed (h : p.Ordered past) (hpos : 0 < (p.after past).refCount id)
    (hzero : (p.after (op :: past)).refCount id = 0) :
    ((p.after past).freeList ++ [id]).Pairwise (p.Earlier (op :: past)) := by
  refine List.pairwise_append.mpr ⟨h.order_of_sublist (List.Sublist.refl _),
    List.pairwise_singleton _ _, fun a ha b hb => Or.inl ?_⟩
  rw [List.mem_singleton.mp hb, freedAt_cons_of_freed hpos hzero, h.freedAt_of_free ha]
  exact Nat.lt_succ_of_le (freedAt_le p a past)

/-- **Step lemma.** -/
theorem Ordered.cons (h : p.Ordered past) (op : PoolOp) : p.Ordered (op :: past) := by
  obtain ⟨held, hx⟩ := h.exact
  rcases run_cases op (p.after past) with
    hsame | ⟨id, ho⟩ | ⟨id, hs⟩ | ⟨id, hpos, hin, hd⟩ | ⟨id, k, hash, hfits, hr⟩
  · have hafter : p.after (op :: past) = p.after past := hsame
    refine ⟨⟨held, hafter ▸ hx⟩, ?_, by rw [hafter]; exact h.capacity,
      by rw [hafter]; exact h.blockSize, by rw [hafter]; exact h.totalBlocks⟩
    rw [hafter]
    exact h.order_of_sublist (List.Sublist.refl _)
  · change (p.after past).HandsOut (p.after (op :: past)) id at ho
    refine ⟨⟨id :: held, hx.refills ho.refills⟩, h.order_of_sublist ?_, fun j => ?_,
      ho.blockSize.trans h.blockSize, ho.totalBlocks.trans h.totalBlocks⟩
    · rw [ho.freeList]
      exact List.sublist_cons_self _ _
    · rw [ho.tokensOf, ho.blockSize]
      split
      · exact Nat.zero_le _
      · exact h.capacity j
  · change (p.after past).Shares (p.after (op :: past)) id at hs
    refine ⟨⟨id :: held, hx.shares hs⟩, h.order_of_sublist ?_, fun j => ?_,
      hs.blockSize.trans h.blockSize, hs.totalBlocks.trans h.totalBlocks⟩
    · rw [hs.freeList]
      split
      · exact List.erase_sublist
      · exact List.Sublist.refl _
    · rw [hs.tokensOf, hs.blockSize]
      exact h.capacity j
  · change (p.after past).Drops (p.after (op :: past)) id at hd
    have hheld : id ∈ held := by
      rw [RefBalanced.count_eq hx id hin] at hpos
      exact List.count_pos_iff.mp hpos
    refine ⟨⟨held.erase id, hx.drops (List.perm_cons_erase hheld) hd⟩, ?_, fun j => ?_,
      hd.blockSize.trans h.blockSize, hd.totalBlocks.trans h.totalBlocks⟩
    · rw [hd.freeList]
      split
      · next hone =>
        refine h.order_of_freed hpos ?_
        rw [hd.refCount id hin, if_pos rfl, hone]
      · exact h.order_of_sublist (List.Sublist.refl _)
    · rw [hd.tokensOf, hd.blockSize]
      exact h.capacity j
  · change (p.after past).Records (p.after (op :: past)) id k hash at hr
    refine ⟨⟨held, hx.records hr⟩, ?_, fun j => ?_, hr.blockSize.trans h.blockSize,
      hr.totalBlocks.trans h.totalBlocks⟩
    · rw [hr.freeList]
      exact h.order_of_sublist (List.Sublist.refl _)
    · rw [hr.tokensOf, hr.blockSize]
      split
      · exact hfits
      · exact h.capacity j

/-- A new pool is in the order of the ids. -/
theorem ordered_new (hn : n ≤ 2 ^ 32) (bs : ℕ) : (new n bs).Ordered [] where
  exact := ⟨[], new_exact hn⟩
  order := by
    show (new n bs).freeList.Pairwise _
    rw [new_freeList hn]
    refine List.pairwise_map.mpr (List.pairwise_lt_range.imp (fun hlt => ?_))
    exact Or.inr ⟨rfl, hlt⟩
  capacity id := by
    show (new n bs).tokensOf id ≤ _
    unfold tokensOf
    rcases hb : (new n bs).get id with - | b
    · exact Nat.zero_le _
    · show b.numTokens ≤ _
      rw [(new_get hb).2.2]
      exact Nat.zero_le _
  blockSize := rfl
  totalBlocks := rfl

/-- **Run lemma.** -/
theorem ordered_after (hn : n ≤ 2 ^ 32) (bs : ℕ) :
    ∀ calls : List PoolOp, (new n bs).Ordered calls
  | [] => ordered_new hn bs
  | op :: past => (ordered_after hn bs past).cons op

/-- **The pool is a faithful LRU free pool.** After any calls with any
arguments the free list holds once each the blocks without a reference, in
the order in which they lost their last one, those never used first; so
`allocate` hands out the block that has been free the longest and fails
exactly when every block is referenced. No block is over its capacity, and a
call that fails changes nothing. -/
theorem faithful_lru (hn : n ≤ 2 ^ 32) (bs : ℕ) (calls : List PoolOp) :
    let start := new n bs
    let p := start.after calls
    (p.freeList.Nodup ∧ ∀ id, id ∈ p.freeList ↔ id.index < n ∧ p.refCount id = 0)
    ∧ p.freeList.Pairwise (start.Earlier calls)
    ∧ (∀ id ∈ p.freeList, start.freedAt calls id = 0
        ↔ ∀ past, past <:+ calls → (start.after past).refCount id = 0)
    ∧ (∀ id hash, p.allocate.2 = .ok (id, hash) → id.index < n ∧ p.refCount id = 0
        ∧ ∀ j, j.index < n → p.refCount j = 0 → j ≠ id → start.Earlier calls id j)
    ∧ ((∃ e, p.allocate.2 = .error e) ↔ ∀ id : BlockId, id.index < n → p.refCount id ≠ 0)
    ∧ (∀ id b, p.get id = some b → b.numTokens ≤ bs)
    ∧ ∀ op : PoolOp, op.Fails p → op.run p = p := by
  intro start p
  have h : start.Ordered calls := ordered_after hn bs calls
  obtain ⟨held, hx⟩ := h.exact
  have htotal : p.totalBlocks = n := h.totalBlocks.trans (new_totalBlocks n bs)
  have hids : ∀ id, id ∈ p.ids ↔ id.index < n := fun id => by
    rw [← htotal]
    exact Iff.rfl
  have hmem : ∀ id, id ∈ p.freeList ↔ id.index < n ∧ p.refCount id = 0 := by
    intro id
    constructor
    · intro hid
      exact ⟨(hids id).mp ((RefBalanced.mem_free hx id).mp hid).1, h.refCount_of_free hid⟩
    · rintro ⟨hlt, hzero⟩
      exact (RefBalanced.mem_free_iff_count hx ((hids id).mpr hlt)).mpr hzero
  refine ⟨⟨RefBalanced.free_nodup hx, hmem⟩, h.order,
    fun id hid => freedAt_eq_zero_iff calls (h.refCount_of_free hid), fun id hash hok => ?_, ?_,
    fun id b hb => ?_, fun op hfails => run_of_fails hfails⟩
  · rcases allocate_cases p with ⟨-, ha⟩ | ⟨p', blk, ha, ho⟩
    · rw [ha] at hok
      exact absurd hok (by simp)
    rw [ha] at hok
    obtain rfl : blk = id := congrArg Prod.fst (Except.ok.inj hok)
    have horder := h.order
    rw [show (start.after calls).freeList = blk :: p'.freeList from ho.freeList] at horder
    have hhead : blk ∈ p.freeList := by
      rw [ho.freeList]
      exact List.mem_cons_self
    refine ⟨((hmem blk).mp hhead).1, ((hmem blk).mp hhead).2, fun j hj hzero hne => ?_⟩
    have hfree := (hmem j).mpr ⟨hj, hzero⟩
    rw [ho.freeList] at hfree
    exact List.rel_of_pairwise_cons horder ((List.mem_cons.mp hfree).resolve_left hne)
  · rcases allocate_cases p with ⟨hnil, ha⟩ | ⟨p', blk, ha, ho⟩
    · rw [ha]
      refine iff_of_true ⟨_, rfl⟩ (fun id hlt hzero => ?_)
      have hfree := (hmem id).mpr ⟨hlt, hzero⟩
      rw [hnil] at hfree
      exact absurd hfree List.not_mem_nil
    · rw [ha]
      refine iff_of_false (by simp) (fun hall => ?_)
      have hhead : blk ∈ p.freeList := by
        rw [ho.freeList]
        exact List.mem_cons_self
      exact hall blk ((hmem blk).mp hhead).1 ((hmem blk).mp hhead).2
  · have hcap := h.capacity id
    rw [h.blockSize] at hcap
    have hread : p.tokensOf id = b.numTokens := by
      unfold tokensOf
      rw [hb]
      rfl
    rw [← hread]
    exact hcap

/-- Two blocks used, the second given back first. -/
theorem faithful_lru_two :
    let p := (new 2 4).after [.release ⟨0⟩, .release ⟨1⟩, .allocate, .allocate]
    p.allocate.2 = .ok (⟨1⟩, none) ∧ (new 2 4).Earlier
      [.release ⟨0⟩, .release ⟨1⟩, .allocate, .allocate] ⟨1⟩ ⟨0⟩ := by
  intro p
  have hok : p.allocate.2 = .ok (⟨1⟩, none) := by decide +kernel
  have hlru := faithful_lru (n := 2) (by decide) 4
    [.release ⟨0⟩, .release ⟨1⟩, .allocate, .allocate]
  exact ⟨hok, (hlru.2.2.2.1 ⟨1⟩ none hok).2.2 ⟨0⟩ (by decide) (by decide +kernel) (by decide)⟩

end BlockPool
