import OrionServe.Core
import OrionServe.Lib.Refcount

/-!
# Physical blocks and the free pool that hands them out

A block is a fixed-size slice of the KV arena. The pool owns every block,
counts the references to each and keeps the unreferenced ones in a FIFO
queue, oldest first, which is also the order in which they are recycled: a
released block keeps its contents and its hash until it is handed out
again.

Every operation returns the pool it leaves behind together with its
result, on the error paths too, so that what a failing call changes is part
of the model.

`BlockPool.Exact` says that the bookkeeping of a pool is exact for a given
list of references – `RefBalanced` at the pool's own counts – and each
operation comes with the lemma that keeps it.
-/

/-- Chained content hash of a block's tokens. -/
structure BlockHash where
  raw : UInt64
  deriving DecidableEq

/-- State of one physical block. -/
structure Block where
  id : BlockId
  /-- Number of references currently held to this block. The source keeps
  it in a `u32`; fewer than `2^32` references are ever held. -/
  refCount : ℕ
  /-- Tokens actually written, `0..=block_size`. -/
  numTokens : ℕ
  /-- Content hash, present only once the block is full and hashed. -/
  hash : Option BlockHash
  deriving DecidableEq

namespace Block

def new (id : BlockId) : Block := ⟨id, 0, 0, none⟩

/-- Whether this block is referenced by anything. -/
def isFree (b : Block) : Bool := b.refCount = 0

/-- Clears the block for reuse by a different sequence. -/
def reset (b : Block) : Block := { b with refCount := 0, numTokens := 0, hash := none }

end Block

/-- Owns every physical block and tracks which are free. -/
structure BlockPool where
  blocks : List Block
  /-- Ids with `ref_count == 0`, oldest first. Also the eviction order. -/
  freeList : List BlockId
  blockSize : ℕ

namespace BlockPool

/-- Creates a pool of `numBlocks` blocks, each holding `blockSize`
tokens. -/
def new (numBlocks blockSize : ℕ) : BlockPool where
  blocks := (List.range numBlocks).map (fun i => Block.new (BlockId.ofIndex i))
  freeList := (List.range numBlocks).map BlockId.ofIndex
  blockSize := blockSize

def totalBlocks (p : BlockPool) : ℕ := p.blocks.length

/-- Blocks with no live references. -/
def numFree (p : BlockPool) : ℕ := p.freeList.length

def numUsed (p : BlockPool) : ℕ := p.blocks.length - p.freeList.length

def get (p : BlockPool) (id : BlockId) : Option Block := p.blocks[id.index]?

/-- Writes one block. An index outside the pool is a panic in the source
and changes nothing here; `Exact` keeps every id the pool and the tables
mention inside. -/
def modify (p : BlockPool) (id : BlockId) (f : Block → Block) : BlockPool :=
  { p with blocks := p.blocks.modify id.index f }

/-- The content hash a block carries. -/
def hashOf (p : BlockPool) (id : BlockId) : Option BlockHash :=
  (p.get id).bind Block.hash

/-- Allocates a fresh block with `ref_count == 1` and no contents: the
oldest free one. Returns it with the hash it used to hold. -/
def allocate (p : BlockPool) :
    BlockPool × Except EngineError (BlockId × Option BlockHash) :=
  match p.freeList with
  | [] => (p, .error (.cacheExhausted 1 0))
  | id :: rest =>
    ({ p with freeList := rest }.modify id (fun b => { b.reset with refCount := 1 }),
      .ok (id, p.hashOf id))

/-- Takes an additional reference to an already-live or cached block; a
block that was sitting free leaves the free list. -/
def addRef (p : BlockPool) (id : BlockId) : BlockPool × Except EngineError Unit :=
  match p.get id with
  | none => (p, .error (.internal ["add_ref on unknown block ", .blk id]))
  | some b =>
    ({ p with freeList := if b.refCount = 0 then p.freeList.erase id else p.freeList
        }.modify id (fun b => { b with refCount := b.refCount + 1 }), .ok ())

/-- Drops one reference. Returns `true` if the block became free, in which
case it goes to the back of the free list with its contents. -/
def release (p : BlockPool) (id : BlockId) : BlockPool × Except EngineError Bool :=
  match p.get id with
  | none => (p, .error (.internal ["release of unknown block ", .blk id]))
  | some b =>
    if b.refCount = 0 then
      (p, .error (.internal
        ["double release of ", .blk id, ": ref_count is already 0"]))
    else if b.refCount = 1 then
      ({ p with freeList := p.freeList ++ [id]
          }.modify id (fun b => { b with refCount := b.refCount - 1 }), .ok true)
    else
      (p.modify id (fun b => { b with refCount := b.refCount - 1 }), .ok false)

/-- Records how many tokens a block holds, and its hash once full. -/
def setContents (p : BlockPool) (id : BlockId) (numTokens : ℕ)
    (hash : Option BlockHash) : BlockPool × Except EngineError Unit :=
  if p.blockSize < numTokens then
    (p, .error (.internal ["block ", .blk id, " cannot hold ", .nat numTokens,
      " tokens, capacity is ", .nat p.blockSize]))
  else match p.get id with
    | none => (p, .error (.internal ["set_contents on unknown block ", .blk id]))
    | some _ =>
      (p.modify id (fun b => { b with numTokens := numTokens, hash := hash }), .ok ())

/-- Forgets the contents of the oldest free block that still holds any, and
returns it with the hash it carried. -/
def evictOldestCached (p : BlockPool) : BlockPool × Option (BlockId × BlockHash) :=
  match p.freeList.find? (fun id => (p.hashOf id).isSome) with
  | none => (p, none)
  | some id =>
    match p.hashOf id with
    | none => (p, none)
    | some h =>
      (p.modify id (fun b => { b with numTokens := 0, hash := none }), some (id, h))

/-- Number of free blocks still holding cached contents. -/
def numEvictable (p : BlockPool) : ℕ :=
  p.freeList.countP (fun id => (p.hashOf id).isSome)

/-- Drops one reference per listed block, in order. A failed release is
logged by the source and otherwise ignored. -/
def releaseAll (p : BlockPool) (ids : List BlockId) : BlockPool :=
  ids.foldl (fun p id => (p.release id).1) p

/-- What the releases of `releaseAll` return. -/
def releaseResults (p : BlockPool) : List BlockId → List (Except EngineError Bool)
  | [] => []
  | id :: ids => (p.release id).2 :: (p.release id).1.releaseResults ids

theorem releaseAll_cons (p : BlockPool) (b : BlockId) (bs : List BlockId) :
    p.releaseAll (b :: bs) = (p.release b).1.releaseAll bs := rfl

/-! ## Reading a block after a write -/

@[simp] theorem modify_freeList (p : BlockPool) (id : BlockId) (f : Block → Block) :
    (p.modify id f).freeList = p.freeList := rfl

@[simp] theorem modify_blockSize (p : BlockPool) (id : BlockId) (f : Block → Block) :
    (p.modify id f).blockSize = p.blockSize := rfl

@[simp] theorem modify_totalBlocks (p : BlockPool) (id : BlockId)
    (f : Block → Block) : (p.modify id f).totalBlocks = p.totalBlocks := by
  simp [modify, totalBlocks]

/-- Another block reads as before a write. -/
@[simp] theorem get_with_freeList (p : BlockPool) (L : List BlockId) (id : BlockId) :
    ({ p with freeList := L } : BlockPool).get id = p.get id := rfl

theorem get_modify (p : BlockPool) (id j : BlockId) (f : Block → Block) :
    (p.modify id f).get j = if j = id then (p.get j).map f else p.get j := by
  unfold modify get
  rw [List.getElem?_modify]
  by_cases h : j = id
  · subst h
    simp
  · have : id.index ≠ j.index := fun hc => h (BlockId.index_injective hc.symm)
    simp [h, this]

/-- A block is there exactly when its index is below the pool size. -/
theorem get_isSome_iff (p : BlockPool) (id : BlockId) :
    (p.get id).isSome ↔ id.index < p.totalBlocks := by
  unfold get totalBlocks
  simp

theorem exists_get {p : BlockPool} {id : BlockId} (h : id.index < p.totalBlocks) :
    ∃ b, p.get id = some b :=
  Option.isSome_iff_exists.mp ((get_isSome_iff p id).mpr h)

/-- The blocks of a pool. -/
def ids (p : BlockPool) : Set BlockId := {id | id.index < p.totalBlocks}

/-- The reference count of a block. -/
def refCount (p : BlockPool) (id : BlockId) : ℕ := (p.get id).elim 0 Block.refCount

/-- How many tokens a block holds. -/
def tokensOf (p : BlockPool) (id : BlockId) : ℕ := (p.get id).elim 0 Block.numTokens

theorem refCount_modify (p : BlockPool) (id j : BlockId) (f : Block → Block) :
    (p.modify id f).refCount j
      = if j = id then (p.get j).elim 0 (fun b => (f b).refCount) else p.refCount j := by
  unfold refCount
  rw [get_modify]
  split
  · cases p.get j <;> rfl
  · rfl

theorem hashOf_modify (p : BlockPool) (id j : BlockId) (f : Block → Block) :
    (p.modify id f).hashOf j
      = if j = id then (p.get j).bind (fun b => (f b).hash) else p.hashOf j := by
  unfold hashOf
  rw [get_modify]
  split
  · cases p.get j <;> rfl
  · rfl

theorem tokensOf_modify (p : BlockPool) (id j : BlockId) (f : Block → Block) :
    (p.modify id f).tokensOf j
      = if j = id then (p.get j).elim 0 (fun b => (f b).numTokens)
        else p.tokensOf j := by
  unfold tokensOf
  rw [get_modify]
  split
  · cases p.get j <;> rfl
  · rfl

/-- A write that keeps the hash of a block keeps every hash. -/
theorem hashOf_modify_of_eq {f : Block → Block} (hf : ∀ b, (f b).hash = b.hash)
    (p : BlockPool) (id j : BlockId) : (p.modify id f).hashOf j = p.hashOf j := by
  rw [hashOf_modify, hashOf]
  simp only [hf, ite_self]

/-- A write that keeps the fill of a block keeps every fill. -/
theorem tokensOf_modify_of_eq {f : Block → Block}
    (hf : ∀ b, (f b).numTokens = b.numTokens) (p : BlockPool) (id j : BlockId) :
    (p.modify id f).tokensOf j = p.tokensOf j := by
  rw [tokensOf_modify, tokensOf]
  simp only [hf]
  exact ite_self _

/-- A write that keeps the count of a block keeps every count. -/
theorem refCount_modify_of_eq {f : Block → Block}
    (hf : ∀ b, (f b).refCount = b.refCount) (p : BlockPool) (id j : BlockId) :
    (p.modify id f).refCount j = p.refCount j := by
  rw [refCount_modify, refCount]
  simp only [hf]
  exact ite_self _

theorem refCount_of_get {p : BlockPool} {id : BlockId} {b : Block}
    (h : p.get id = some b) : p.refCount id = b.refCount := by
  rw [refCount, h, Option.elim_some]

theorem mem_ids_of_get {p : BlockPool} {id : BlockId} {b : Block}
    (h : p.get id = some b) : id ∈ p.ids :=
  (get_isSome_iff p id).mp (by rw [h]; rfl)

theorem not_mem_ids_of_get {p : BlockPool} {id : BlockId} (h : p.get id = none) :
    id ∉ p.ids := fun hi => by
  have := (get_isSome_iff p id).mpr hi
  rw [h] at this
  exact absurd this (by simp)

/-! ## What each operation does

One statement per operation, about the fields the rest of the model reads.
Everything proved about a pool later on goes through these. -/

/-- **`allocate` took `id`**: the head of the free list, now referenced once
and empty. -/
structure HandsOut (p p' : BlockPool) (id : BlockId) : Prop where
  freeList : p.freeList = id :: p'.freeList
  blockSize : p'.blockSize = p.blockSize
  totalBlocks : p'.totalBlocks = p.totalBlocks
  hashOf : ∀ j, p'.hashOf j = if j = id then none else p.hashOf j
  tokensOf : ∀ j, p'.tokensOf j = if j = id then 0 else p.tokensOf j
  refCount : ∀ j ∈ p.ids, p'.refCount j = if j = id then 1 else p.refCount j

/-- **`addRef` shared `id`.** -/
structure Shares (p p' : BlockPool) (id : BlockId) : Prop where
  mem_ids : id ∈ p.ids
  freeList : p'.freeList
    = if p.refCount id = 0 then p.freeList.erase id else p.freeList
  blockSize : p'.blockSize = p.blockSize
  totalBlocks : p'.totalBlocks = p.totalBlocks
  hashOf : ∀ j, p'.hashOf j = p.hashOf j
  tokensOf : ∀ j, p'.tokensOf j = p.tokensOf j
  refCount : ∀ j ∈ p.ids, p'.refCount j
    = if j = id then p.refCount j + 1 else p.refCount j

/-- **`release` dropped a reference to `id`.** -/
structure Drops (p p' : BlockPool) (id : BlockId) : Prop where
  freeList : p'.freeList
    = if p.refCount id = 1 then p.freeList ++ [id] else p.freeList
  blockSize : p'.blockSize = p.blockSize
  totalBlocks : p'.totalBlocks = p.totalBlocks
  hashOf : ∀ j, p'.hashOf j = p.hashOf j
  tokensOf : ∀ j, p'.tokensOf j = p.tokensOf j
  refCount : ∀ j ∈ p.ids, p'.refCount j
    = if j = id then p.refCount j - 1 else p.refCount j

/-- **`setContents` recorded what `id` holds.** -/
structure Records (p p' : BlockPool) (id : BlockId) (n : ℕ) (h : Option BlockHash) :
    Prop where
  freeList : p'.freeList = p.freeList
  blockSize : p'.blockSize = p.blockSize
  totalBlocks : p'.totalBlocks = p.totalBlocks
  hashOf : ∀ j, p'.hashOf j = if j = id then h else p.hashOf j
  tokensOf : ∀ j, p'.tokensOf j = if j = id then n else p.tokensOf j
  refCount : ∀ j, p'.refCount j = p.refCount j

/-- `allocate` fails exactly on an empty free list, and then changes
nothing. -/
theorem allocate_of_nil {p : BlockPool} (h : p.freeList = []) :
    p.allocate = (p, .error (.cacheExhausted 1 0)) := by
  unfold allocate
  rw [h]

/-- Whatever `allocate` returns, it is one of two outcomes. -/
theorem allocate_cases (p : BlockPool) :
    (p.freeList = [] ∧ p.allocate = (p, .error (.cacheExhausted 1 0)))
    ∨ ∃ p' id, p.allocate = (p', .ok (id, p.hashOf id)) ∧ p.HandsOut p' id := by
  rcases hf : p.freeList with - | ⟨id, rest⟩
  · exact Or.inl ⟨rfl, allocate_of_nil hf⟩
  · refine Or.inr ⟨({ p with freeList := rest } : BlockPool).modify id
      (fun b => { b.reset with refCount := 1 }), id, ?_, ?_⟩
    · unfold allocate
      rw [hf]
    · refine ⟨hf, rfl, modify_totalBlocks _ _ _, fun j => ?_, fun j => ?_,
        fun j hj => ?_⟩
      · rw [hashOf_modify]
        refine if_congr Iff.rfl ?_ rfl
        cases ({ p with freeList := rest } : BlockPool).get j <;> rfl
      · rw [tokensOf_modify]
        refine if_congr Iff.rfl ?_ rfl
        cases ({ p with freeList := rest } : BlockPool).get j <;> rfl
      · obtain ⟨b, hb⟩ := exists_get hj
        rw [refCount_modify, get_with_freeList, hb]
        rfl

/-- What `addRef` writes to a block that is there. -/
theorem addRef_of_get {p : BlockPool} {id : BlockId} {b : Block}
    (hb : p.get id = some b) :
    p.addRef id
      = (({ p with freeList := if b.refCount = 0 then p.freeList.erase id
            else p.freeList } : BlockPool).modify id
          (fun b => { b with refCount := b.refCount + 1 }), .ok ()) := by
  unfold addRef
  rw [hb]

/-- `addRef` fails on an unknown block only. -/
theorem addRef_cases (p : BlockPool) (id : BlockId) :
    (id ∉ p.ids ∧ ∃ e, p.addRef id = (p, .error e))
    ∨ ∃ p', p.addRef id = (p', .ok ()) ∧ p.Shares p' id := by
  rcases hb : p.get id with - | b
  · exact Or.inl ⟨not_mem_ids_of_get hb, _, by unfold addRef; rw [hb]⟩
  · refine Or.inr ⟨_, addRef_of_get hb, mem_ids_of_get hb, ?_, rfl,
      modify_totalBlocks _ _ _, fun j => ?_, fun j => ?_, fun j hj => ?_⟩
    · rw [modify_freeList, refCount_of_get hb]
    · apply hashOf_modify_of_eq
      exact fun _ => rfl
    · apply tokensOf_modify_of_eq
      exact fun _ => rfl
    · obtain ⟨c, hc⟩ := exists_get hj
      rw [refCount_modify, get_with_freeList, hc, refCount_of_get hc]
      exact if_congr Iff.rfl rfl (refCount_of_get hc)

/-- What `release` writes when the block has a reference to give up. -/
theorem drops_modify {p : BlockPool} {id : BlockId} {L : List BlockId}
    (hL : L = if p.refCount id = 1 then p.freeList ++ [id] else p.freeList) :
    p.Drops (({ p with freeList := L } : BlockPool).modify id
      (fun b => { b with refCount := b.refCount - 1 })) id := by
  refine ⟨hL, rfl, modify_totalBlocks _ _ _, fun j => ?_, fun j => ?_,
    fun j hj => ?_⟩
  · apply hashOf_modify_of_eq
    exact fun _ => rfl
  · apply tokensOf_modify_of_eq
    exact fun _ => rfl
  · obtain ⟨c, hc⟩ := exists_get hj
    rw [refCount_modify, get_with_freeList, hc, refCount_of_get hc]
    exact if_congr Iff.rfl rfl (refCount_of_get hc)

/-- `release` fails on an unknown block and on one that has no reference,
and then changes nothing. -/
theorem release_cases (p : BlockPool) (id : BlockId) :
    ((id ∉ p.ids ∨ p.refCount id = 0) ∧ ∃ e, p.release id = (p, .error e))
    ∨ ∃ p', p.release id = (p', .ok (p.refCount id = 1)) ∧ p.Drops p' id := by
  rcases hb : p.get id with - | b
  · exact Or.inl ⟨Or.inl (not_mem_ids_of_get hb), _, by unfold release; rw [hb]⟩
  have hcount := refCount_of_get hb
  by_cases hzero : b.refCount = 0
  · exact Or.inl ⟨Or.inr (hcount.trans hzero), _, by
      unfold release; rw [hb]; exact if_pos hzero⟩
  by_cases hone : b.refCount = 1
  · refine Or.inr ⟨_, ?_, drops_modify (L := p.freeList ++ [id]) ?_⟩
    · unfold release
      rw [hb, hcount]
      simp [hone]
    · rw [hcount, if_pos hone]
  · refine Or.inr ⟨_, ?_, drops_modify (L := p.freeList) ?_⟩
    · unfold release
      rw [hb, hcount]
      simp [hzero, hone]
    · rw [hcount, if_neg hone]

/-- A write with a fixed hash and fill, which is what recording contents
is. -/
theorem records_modify {f : Block → Block} {n : ℕ} {h : Option BlockHash}
    {p : BlockPool} {id : BlockId} {b : Block} (hb : p.get id = some b)
    (hh : ∀ b, (f b).hash = h) (hn : ∀ b, (f b).numTokens = n)
    (hc : ∀ b, (f b).refCount = b.refCount) :
    p.Records (p.modify id f) id n h := by
  refine ⟨rfl, rfl, modify_totalBlocks _ _ _, fun j => ?_, fun j => ?_,
    refCount_modify_of_eq hc p id⟩
  · rw [hashOf_modify]
    by_cases hj : j = id
    · subst hj
      simp [hb, hh]
    · simp [hj]
  · rw [tokensOf_modify]
    by_cases hj : j = id
    · subst hj
      simp [hb, hn]
    · simp [hj]

/-- `setContents` fails on an unknown block and above the capacity. -/
theorem setContents_cases (p : BlockPool) (id : BlockId) (n : ℕ)
    (h : Option BlockHash) :
    ((id ∉ p.ids ∨ p.blockSize < n) ∧ ∃ e, p.setContents id n h = (p, .error e))
    ∨ ∃ p', p.setContents id n h = (p', .ok ()) ∧ p.Records p' id n h := by
  by_cases hn : p.blockSize < n
  · exact Or.inl ⟨Or.inr hn, _, by unfold setContents; exact if_pos hn⟩
  rcases hb : p.get id with - | b
  · exact Or.inl ⟨Or.inl (not_mem_ids_of_get hb), _, by
      unfold setContents; rw [if_neg hn, hb]⟩
  · refine Or.inr ⟨p.modify id (fun b => { b with numTokens := n, hash := h }), ?_,
      records_modify hb (fun _ => rfl) (fun _ => rfl) (fun _ => rfl)⟩
    unfold setContents
    rw [if_neg hn, hb]

/-- `setContents` never touches the free list or a count, whatever it
returns. -/
theorem setContents_fst (p : BlockPool) (id : BlockId) (n : ℕ)
    (h : Option BlockHash) :
    (p.setContents id n h).1.freeList = p.freeList
      ∧ (p.setContents id n h).1.blockSize = p.blockSize
      ∧ (p.setContents id n h).1.totalBlocks = p.totalBlocks
      ∧ ∀ j, (p.setContents id n h).1.refCount j = p.refCount j := by
  rcases setContents_cases p id n h with ⟨-, e, he⟩ | ⟨p', hp, hr⟩
  · rw [he]
    exact ⟨rfl, rfl, rfl, fun _ => rfl⟩
  · rw [hp]
    exact ⟨hr.freeList, hr.blockSize, hr.totalBlocks, hr.refCount⟩

/-- **`id` was handed out, and possibly its fill recorded**, which is what the
cache manager does with a fresh block. -/
structure Refills (p p' : BlockPool) (id : BlockId) : Prop where
  freeList : p.freeList = id :: p'.freeList
  blockSize : p'.blockSize = p.blockSize
  totalBlocks : p'.totalBlocks = p.totalBlocks
  hashOf : ∀ j, p'.hashOf j = if j = id then none else p.hashOf j
  tokensOf : ∀ j, j ≠ id → p'.tokensOf j = p.tokensOf j
  refCount : ∀ j ∈ p.ids, p'.refCount j = if j = id then 1 else p.refCount j

theorem HandsOut.refills {p p₁ : BlockPool} {id : BlockId} (h : p.HandsOut p₁ id) :
    p.Refills p₁ id where
  freeList := h.freeList
  blockSize := h.blockSize
  totalBlocks := h.totalBlocks
  hashOf := h.hashOf
  tokensOf j hj := (h.tokensOf j).trans (if_neg hj)
  refCount := h.refCount

/-- Recording the fill of a block just handed out, with no hash, changes its
fill only. -/
theorem Refills.setContents {p p₁ : BlockPool} {id : BlockId} (h : p.Refills p₁ id)
    (n : ℕ) : p.Refills (p₁.setContents id n none).1 id := by
  obtain ⟨hf, hb, ht, hc⟩ := setContents_fst p₁ id n none
  have hread : (∀ j, (p₁.setContents id n none).1.hashOf j = p₁.hashOf j)
      ∧ ∀ j, j ≠ id → (p₁.setContents id n none).1.tokensOf j = p₁.tokensOf j := by
    rcases setContents_cases p₁ id n none with ⟨-, e, he⟩ | ⟨p', hp, hr⟩
    · rw [he]
      exact ⟨fun _ => rfl, fun _ _ => rfl⟩
    · rw [hp]
      refine ⟨fun j => ?_, fun j hj => (hr.tokensOf j).trans (if_neg hj)⟩
      show p'.hashOf j = _
      rw [hr.hashOf, h.hashOf]
      split <;> rfl
  refine ⟨by rw [hf]; exact h.freeList, hb.trans h.blockSize, ht.trans h.totalBlocks,
    fun j => (hread.1 j).trans (h.hashOf j), fun j hj => ?_,
    fun j hj => (hc j).trans (h.refCount j hj)⟩
  rw [hread.2 j hj, h.tokensOf j hj]

/-- `evictOldestCached` forgets the contents of a free block that had a
hash, or finds none. -/
theorem evictOldestCached_cases (p : BlockPool) :
    (p.evictOldestCached = (p, none)
      ∧ ∀ id ∈ p.freeList, p.hashOf id = none)
    ∨ ∃ p' id h, p.evictOldestCached = (p', some (id, h)) ∧ id ∈ p.freeList
        ∧ p.hashOf id = some h ∧ p.Records p' id 0 none := by
  rcases hf : p.freeList.find? (fun id => (p.hashOf id).isSome) with - | id
  · refine Or.inl ⟨by unfold evictOldestCached; rw [hf], fun id hid => ?_⟩
    have := List.find?_eq_none.mp hf id hid
    simpa using this
  · have hsome : (p.hashOf id).isSome = true := by simpa using List.find?_some hf
    obtain ⟨h, hh⟩ := Option.isSome_iff_exists.mp hsome
    obtain ⟨b, hb, -⟩ := Option.bind_eq_some_iff.mp hh
    refine Or.inr ⟨p.modify id (fun b => { b with numTokens := 0, hash := none }),
      id, h, ?_, List.mem_of_find?_eq_some hf, hh,
      records_modify hb (fun _ => rfl) (fun _ => rfl) (fun _ => rfl)⟩
    unfold evictOldestCached
    rw [hf]
    simp only [hh]

/-! ## Exact bookkeeping -/

/-- **The bookkeeping of a pool is exact** for the references `held`: the
count of a block is the number of its occurrences there, and the free list
holds, once each, the blocks that do not occur. -/
def Exact (p : BlockPool) (held : List BlockId) : Prop :=
  RefBalanced p.ids p.refCount p.freeList held

namespace Exact

variable {p p' : BlockPool} {held held' : List BlockId} {id : BlockId}

theorem ids_eq (h : p'.totalBlocks = p.totalBlocks) : p'.ids = p.ids := by
  unfold ids
  rw [h]

/-- A pool that agrees on size, counts and free list is as exact. -/
theorem congr (h : p.Exact held) (hf : p'.freeList = p.freeList)
    (ht : p'.totalBlocks = p.totalBlocks) (hc : ∀ j, p'.refCount j = p.refCount j) :
    p'.Exact held := by
  unfold Exact
  rw [hf, ids_eq ht]
  exact RefBalanced.congr_count h (fun j _ => hc j)

theorem refills (h : p.Exact held) (hr : p.Refills p' id) :
    p'.Exact (id :: held) := by
  have h' : RefBalanced p.ids p.refCount (id :: p'.freeList) held :=
    hr.freeList ▸ h
  unfold Exact
  rw [ids_eq hr.totalBlocks]
  exact h'.take hr.refCount

theorem shares (h : p.Exact held) (hs : p.Shares p' id) : p'.Exact (id :: held) := by
  unfold Exact
  rw [ids_eq hs.totalBlocks, hs.freeList]
  exact RefBalanced.share h hs.mem_ids hs.refCount

theorem drops (h : p.Exact held) (hp : held.Perm (id :: held'))
    (hd : p.Drops p' id) : p'.Exact held' := by
  unfold Exact
  rw [ids_eq hd.totalBlocks, hd.freeList]
  exact RefBalanced.drop h hp hd.refCount

theorem records {n : ℕ} {c : Option BlockHash} (h : p.Exact held)
    (hr : p.Records p' id n c) : p'.Exact held :=
  h.congr hr.freeList hr.totalBlocks hr.refCount

/-- **A release of a held block never errs.** -/
theorem release_ok (h : p.Exact held) (hid : id ∈ held) :
    ∃ p', p.release id = (p', .ok (p.refCount id = 1)) ∧ p.Drops p' id := by
  rcases release_cases p id with ⟨hc, -⟩ | hok
  · have hpos := RefBalanced.count_pos h hid
    rcases hc with hc | hc
    · exact absurd (RefBalanced.held_mem h id hid) hc
    · omega
  · exact hok

/-- **Releasing every listed block** gives back exactly these
references. -/
theorem releaseAll (bs : List BlockId) :
    ∀ {p : BlockPool} {held : List BlockId}, p.Exact held →
      held.Perm (bs ++ held') → (p.releaseAll bs).Exact held' := by
  induction bs with
  | nil =>
    intro p held h hp
    exact RefBalanced.perm h hp
  | cons b bs ih =>
    intro p held h hp
    obtain ⟨p₁, hr, hd⟩ := h.release_ok (hp.mem_iff.mpr List.mem_cons_self)
    rw [releaseAll_cons, hr]
    exact ih (h.drops hp hd) (List.Perm.refl _)

/-- **None of these releases errs.** -/
theorem releaseResults_ok (bs : List BlockId) :
    ∀ {p : BlockPool} {held : List BlockId}, p.Exact held →
      held.Perm (bs ++ held') → ∀ r ∈ p.releaseResults bs, ∃ freed, r = .ok freed := by
  induction bs with
  | nil =>
    intro p held _ _ r hr
    exact absurd hr List.not_mem_nil
  | cons b bs ih =>
    intro p held h hp r hr
    obtain ⟨p₁, he, hd⟩ := h.release_ok (hp.mem_iff.mpr List.mem_cons_self)
    rw [releaseResults, he] at hr
    rcases List.mem_cons.mp hr with rfl | hr
    · exact ⟨_, rfl⟩
    · exact ih (h.drops hp hd) (List.Perm.refl _) r hr

end Exact

/-- Releasing blocks keeps the size, the capacity and every block's
contents. -/
theorem releaseAll_contents (bs : List BlockId) (p : BlockPool) :
    (p.releaseAll bs).blockSize = p.blockSize
      ∧ (p.releaseAll bs).totalBlocks = p.totalBlocks
      ∧ (∀ j, (p.releaseAll bs).hashOf j = p.hashOf j)
      ∧ ∀ j, (p.releaseAll bs).tokensOf j = p.tokensOf j := by
  induction bs generalizing p with
  | nil => exact ⟨rfl, rfl, fun _ => rfl, fun _ => rfl⟩
  | cons b bs ih =>
    rw [releaseAll_cons]
    obtain ⟨h₁, h₂, h₃, h₄⟩ := ih (p.release b).1
    rcases release_cases p b with ⟨-, e, he⟩ | ⟨p', hp, hd⟩
    · rw [he] at h₁ h₂ h₃ h₄ ⊢
      exact ⟨h₁, h₂, h₃, h₄⟩
    · rw [hp] at h₁ h₂ h₃ h₄ ⊢
      exact ⟨h₁.trans hd.blockSize, h₂.trans hd.totalBlocks,
        fun j => (h₃ j).trans (hd.hashOf j), fun j => (h₄ j).trans (hd.tokensOf j)⟩

/-- What is free after the releases was free or has been released. -/
theorem of_mem_releaseAll {id : BlockId} (bs : List BlockId) (p : BlockPool)
    (h : id ∈ (p.releaseAll bs).freeList) : id ∈ p.freeList ∨ id ∈ bs := by
  induction bs generalizing p with
  | nil => exact Or.inl h
  | cons b bs ih =>
    rw [releaseAll_cons] at h
    rcases ih (p.release b).1 h with h | h
    swap
    · exact Or.inr (List.mem_cons_of_mem _ h)
    rcases release_cases p b with ⟨-, e, he⟩ | ⟨p', hp, hd⟩
    · rw [he] at h
      exact Or.inl h
    · rw [hp] at h
      change id ∈ p'.freeList at h
      rw [hd.freeList] at h
      split at h
      · refine (List.mem_append.mp h).imp_right (fun h => ?_)
        rw [List.mem_singleton.mp h]
        exact List.mem_cons_self
      · exact Or.inl h

/-! ## A new pool -/

section New

variable {n bs : ℕ}

@[simp] theorem new_totalBlocks (n bs : ℕ) : (new n bs).totalBlocks = n := by
  simp [new, totalBlocks]

theorem new_get {id : BlockId} {b : Block} (h : (new n bs).get id = some b) :
    b.refCount = 0 ∧ b.hash = none ∧ b.numTokens = 0 := by
  unfold get new at h
  rw [List.getElem?_map] at h
  obtain ⟨i, -, rfl⟩ := Option.map_eq_some_iff.mp h
  exact ⟨rfl, rfl, rfl⟩

/-- Up to `2^32` blocks the ids of a new pool are its indices. -/
theorem new_freeList (hn : n ≤ 2 ^ 32) :
    (new n bs).freeList = (List.range n).map BlockId.mk := by
  show (List.range n).map BlockId.ofIndex = _
  refine List.map_congr_left (fun i hi => ?_)
  have : i < 2 ^ 32 := lt_of_lt_of_le (List.mem_range.mp hi) hn
  rw [BlockId.ofIndex, Nat.mod_eq_of_lt this]

theorem nodup_range_mk (n : ℕ) : ((List.range n).map BlockId.mk).Nodup :=
  List.nodup_range.map (fun _ _ h => BlockId.mk.inj h)

theorem mem_range_mk {id : BlockId} :
    id ∈ (List.range n).map BlockId.mk ↔ id.index < n := by
  rw [List.mem_map]
  constructor
  · rintro ⟨i, hi, rfl⟩
    exact List.mem_range.mp hi
  · intro h
    exact ⟨id.raw, List.mem_range.mpr h, rfl⟩

/-- Every id of a new pool's free list is that of one of its blocks, also where
several blocks have the same. -/
theorem new_mem_ids {id : BlockId} (h : id ∈ (new n bs).freeList) : id ∈ (new n bs).ids := by
  obtain ⟨i, hi, rfl⟩ := List.mem_map.mp h
  show i % 2 ^ 32 < (new n bs).totalBlocks
  rw [new_totalBlocks]
  exact (Nat.mod_le _ _).trans_lt (List.mem_range.mp hi)

/-- **A new pool holds no reference and every block is free.** -/
theorem new_exact (hn : n ≤ 2 ^ 32) : (new n bs).Exact [] := by
  have hmem : ∀ id, id ∈ (new n bs).freeList ↔ id ∈ (new n bs).ids := by
    intro id
    rw [new_freeList hn, mem_range_mk]
    show _ ↔ id.index < (new n bs).totalBlocks
    rw [new_totalBlocks]
  refine RefBalanced.init ?_ hmem (fun id hid => ?_)
  · rw [new_freeList hn]
    exact nodup_range_mk n
  · obtain ⟨b, hb⟩ := exists_get hid
    rw [refCount_of_get hb]
    exact (new_get hb).1

end New

/-- **With nothing held every block is free.** -/
theorem Exact.numFree_eq {p : BlockPool} (h : p.Exact []) :
    p.numFree = p.totalBlocks := by
  have hperm : p.freeList.Perm ((List.range p.totalBlocks).map BlockId.mk) :=
    RefBalanced.free_perm_of_held_nil h (nodup_range_mk _) (fun i => mem_range_mk)
  have := hperm.length_eq
  rw [List.length_map, List.length_range] at this
  exact this

end BlockPool
