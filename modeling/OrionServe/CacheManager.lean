import OrionServe.PrefixCache

/-!
# The KV cache manager

Allocation, growth, sharing and release of the blocks of every sequence.
The scheduler asks the manager whether a sequence can be admitted or
extended, and it answers from exact block counts.

Besides the fields of the source the manager carries a **history**: each
operation puts what it does to a block in front of `trace`, at the point of
the code where it does it, and no operation ever reads it. A statement about
what happened to a block since some earlier moment is a statement about
that list.

The loop of `allocate` is a recursion over the chunks of the prompt with the
loop variables of the source as its state, and the one of `commit_prefill` a
recursion over chunks and blocks at once.
-/

/-- What an operation did to a block, or to a sequence's table. -/
inductive BlockEvent where
  /-- `allocate` started a table for this sequence and prompt. -/
  | opened (seq : SequenceId) (prompt : List TokenId)
  /-- A prefix hit: block `i` of the table is one that already existed. -/
  | adopted (seq : SequenceId) (prompt : List TokenId) (i : ℕ) (blk : BlockId)
  /-- `BlockPool::allocate` handed this block out. -/
  | handedOut (seq : SequenceId) (blk : BlockId)
  /-- `append_token` recorded a token in this block. -/
  | appended (seq : SequenceId) (blk : BlockId)
  /-- `commit_prefill` entered chunk `i` of this prompt into the index, as the
  contents of this block. -/
  | published (seq : SequenceId) (prompt : List TokenId) (i : ℕ) (blk : BlockId)
  /-- The sequence gave its blocks back. -/
  | released (seq : SequenceId)
  deriving DecidableEq

/-- The block an event hands out. -/
def BlockEvent.fresh : BlockEvent → Option BlockId
  | .handedOut _ blk => some blk
  | _ => none

/-- Outcome of allocating a sequence's prompt blocks. -/
structure AllocationOutcome where
  /-- Blocks newly allocated and computed by this sequence. -/
  allocated : ℕ
  /-- Blocks adopted from the prefix cache. -/
  reused : ℕ
  /-- Prompt tokens whose KV entries came from the cache. -/
  cachedTokens : ℕ
  deriving DecidableEq

/-- Owns the block pool, every sequence's block table, and the prefix
index. -/
structure KvCacheManager where
  pool : BlockPool
  tables : AList (fun _ : SequenceId => BlockTable)
  prefixCache : PrefixCache
  prefixCachingEnabled : Bool
  /-- Trailing hash of each sequence's last full block. -/
  chainTips : AList (fun _ : SequenceId => BlockHash)
  /-- The history, newest event first. Written and never read. -/
  trace : List BlockEvent

/-- The local variables of `allocate`'s loop. -/
structure AllocState where
  pool : BlockPool
  prefixCache : PrefixCache
  table : BlockTable
  outcome : AllocationOutcome
  chain : Option BlockHash
  stillMatching : Bool
  trace : List BlockEvent

namespace AllocState

/-- The hash a chunk is looked up under: only while every earlier chunk has
matched, and only for a full one. -/
def chunkHash (s : AllocState) (chunk : List TokenId) : Option BlockHash :=
  if s.stillMatching && chunk.length = s.pool.blockSize then
    some (hashBlock s.chain chunk)
  else
    none

/-- Looks the chunk up and takes a reference to the block found. -/
def adopt (s : AllocState) (hash : Option BlockHash) (chunk : List TokenId) :
    AllocState × Option BlockId :=
  match hash with
  | none => (s, none)
  | some h =>
    match s.prefixCache.lookup h chunk with
    | (index, none) => ({ s with prefixCache := index }, none)
    | (index, some blk) =>
      match s.pool.addRef blk with
      | (pool, .ok ()) => ({ s with prefixCache := index, pool := pool }, some blk)
      -- a stale index entry falls through to a fresh allocation
      | (pool, .error _) => ({ s with prefixCache := index, pool := pool }, none)

/-- Takes a fresh block for the chunk; on an empty pool everything this call
took is rolled back. -/
def takeFresh (s : AllocState) (seq : SequenceId) (chunk : List TokenId) :
    AllocState × Except EngineError Unit :=
  match s.pool.allocate with
  | (pool, .ok (blk, evicted)) =>
    ({ s with
        pool := (pool.setContents blk chunk.length none).1
        prefixCache := s.prefixCache.removeEvicted evicted blk
        table := s.table.push blk
        outcome := { s.outcome with allocated := s.outcome.allocated + 1 }
        chain := none
        stillMatching := false
        trace := .handedOut seq blk :: s.trace }, .ok ())
  | (pool, .error e) =>
    ({ s with
        pool := pool.releaseAll s.table.blocks
        table := BlockTable.new
        stillMatching := false }, .error e)

/-- One iteration of `allocate`'s loop. -/
def allocateChunk (seq : SequenceId) (prompt : List TokenId) (s : AllocState)
    (chunk : List TokenId) : AllocState × Except EngineError Unit :=
  let hash := s.chunkHash chunk
  match s.adopt hash chunk with
  | (s, some blk) =>
    ({ s with
        table := s.table.push blk
        outcome := { s.outcome with
          reused := s.outcome.reused + 1
          cachedTokens := s.outcome.cachedTokens + chunk.length }
        chain := hash
        trace := .adopted seq prompt s.table.numBlocks blk :: s.trace }, .ok ())
  | (s, none) => s.takeFresh seq chunk

/-- The loop of `allocate`, which stops at the first error. -/
def allocateChunks (seq : SequenceId) (prompt : List TokenId) (s : AllocState) :
    List (List TokenId) → AllocState × Except EngineError Unit
  | [] => (s, .ok ())
  | chunk :: chunks =>
    match s.allocateChunk seq prompt chunk with
    | (s, .ok ()) => allocateChunks seq prompt s chunks
    | (s, .error e) => (s, .error e)

end AllocState

namespace KvCacheManager

/-- Creates a manager over `numBlocks` blocks of `blockSize` tokens each. -/
def new (numBlocks blockSize : ℕ) (prefixCachingEnabled : Bool) : KvCacheManager where
  pool := BlockPool.new numBlocks blockSize
  tables := ∅
  prefixCache := PrefixCache.new
  prefixCachingEnabled := prefixCachingEnabled
  chainTips := ∅
  trace := []

def blockSize (m : KvCacheManager) : ℕ := m.pool.blockSize

def totalBlocks (m : KvCacheManager) : ℕ := m.pool.totalBlocks

def freeBlocks (m : KvCacheManager) : ℕ := m.pool.numFree

/-- The block table of a sequence, if it has one. -/
def blockTable (m : KvCacheManager) (seq : SequenceId) : Option BlockTable :=
  m.tables.lookup seq

/-- Whether a sequence currently holds cache blocks. -/
def isAllocated (m : KvCacheManager) (seq : SequenceId) : Bool :=
  (m.blockTable seq).isSome

/-- The raw block table a backend needs for a sequence. -/
def rawBlockTable (m : KvCacheManager) (seq : SequenceId) : Option (List BlockId) :=
  (m.blockTable seq).map BlockTable.blocks

/-- Blocks needed to admit a prompt of `numTokens`, ignoring cache reuse. -/
def blocksNeededFor (m : KvCacheManager) (numTokens : ℕ) : ℕ :=
  BlockTable.blocksRequired numTokens m.blockSize

/-- Whether `numTokens` could be admitted right now. -/
def canAllocate (m : KvCacheManager) (numTokens : ℕ) : Bool :=
  m.blocksNeededFor numTokens ≤ m.freeBlocks

/-- Where `allocate`'s loop starts. -/
def allocState (m : KvCacheManager) (seq : SequenceId) (prompt : List TokenId) :
    AllocState where
  pool := m.pool
  prefixCache := m.prefixCache
  table := BlockTable.new
  outcome := ⟨0, 0, 0⟩
  chain := none
  stillMatching := m.prefixCachingEnabled
  trace := .opened seq prompt :: m.trace

/-- Allocates blocks covering a sequence's prompt, reusing cached prefix
blocks where possible. -/
def allocate (m : KvCacheManager) (seq : SequenceId) (prompt : List TokenId) :
    KvCacheManager × Except EngineError AllocationOutcome :=
  if m.isAllocated seq then
    (m, .error (.internal [.seq seq, " already has a block table"]))
  else
    let needed := BlockTable.blocksRequired prompt.length m.blockSize
    if m.freeBlocks < needed then
      (m, .error (.cacheExhausted needed m.freeBlocks))
    else
      match (m.allocState seq prompt).allocateChunks seq prompt
          (prompt.chunks m.blockSize) with
      | (s, .ok ()) =>
        ({ m with
            pool := s.pool
            prefixCache := s.prefixCache
            tables := m.tables.insert seq (s.table.setNumTokens prompt.length)
            trace := s.trace }, .ok s.outcome)
      | (s, .error e) =>
        ({ m with
            pool := s.pool
            prefixCache := s.prefixCache
            trace := s.trace }, .error e)

/-- Records one full prompt block as computed and enters it into the
index. -/
def commitChunk (m : KvCacheManager) (seq : SequenceId) (prompt : List TokenId)
    (i : ℕ) (blk : BlockId) (hash : BlockHash) (chunk : List TokenId) :
    KvCacheManager :=
  { m with
    pool := (m.pool.setContents blk chunk.length (some hash)).1
    prefixCache := m.prefixCache.insert hash blk chunk
    trace := if (m.prefixCache.entries.lookup hash).isNone then
        .published seq prompt i blk :: m.trace
      else m.trace }

/-- The loop of `commit_prefill`: it stops at the partial tail and at the end
of the table, and returns the hash of the last block it recorded. -/
def commitChunks (m : KvCacheManager) (seq : SequenceId) (prompt : List TokenId)
    (chain : Option BlockHash) (i : ℕ) :
    List (List TokenId) → List BlockId → KvCacheManager × Option BlockHash
  | chunk :: chunks, blk :: blks =>
    if chunk.length = m.blockSize then
      let h := hashBlock chain chunk
      (m.commitChunk seq prompt i blk h chunk).commitChunks seq prompt (some h) (i + 1)
        chunks blks
    else (m, chain)
  | [], _ => (m, chain)
  | _, [] => (m, chain)

/-- Publishes the sequence's full prompt blocks to the prefix cache. -/
def commitPrefill (m : KvCacheManager) (seq : SequenceId) (prompt : List TokenId) :
    KvCacheManager :=
  if m.prefixCachingEnabled then
    match m.blockTable seq with
    | none => m
    | some table =>
      match m.commitChunks seq prompt none 0 (prompt.chunks m.blockSize)
          table.blocks with
      | (m, some tip) => { m with chainTips := m.chainTips.insert seq tip }
      | (m, none) => m
  else m

/-- Adds a block to the table when the current final one is full. -/
def growTable (m : KvCacheManager) (seq : SequenceId) (table : BlockTable)
    (newLen : ℕ) : KvCacheManager × Except EngineError Unit :=
  if table.numBlocks < BlockTable.blocksRequired newLen m.blockSize then
    match m.pool.allocate with
    | (pool, .error _) =>
      ({ m with pool := pool }, .error (.cacheExhausted 1 pool.numFree))
    | (pool, .ok (blk, evicted)) =>
      let m := { m with
        pool := pool
        prefixCache := m.prefixCache.removeEvicted evicted blk
        trace := .handedOut seq blk :: m.trace }
      match m.blockTable seq with
      | none => (m, .error (.internal [.seq seq, " vanished during append"]))
      | some table => ({ m with tables := m.tables.insert seq (table.push blk) }, .ok ())
  else (m, .ok ())

/-- Counts the new token and keeps the fill of the final block accurate. -/
def recordToken (m : KvCacheManager) (seq : SequenceId) (newLen : ℕ) :
    KvCacheManager × Except EngineError Unit :=
  match m.blockTable seq with
  | none => (m, .error (.internal [.seq seq, " vanished during append"]))
  | some table =>
    let table := table.setNumTokens newLen
    let m := { m with tables := m.tables.insert seq table }
    match table.blocks.getLast? with
    | none => (m, .error (.internal [.seq seq, " has an empty block table"]))
    | some last =>
      let filled := newLen - (table.numBlocks - 1) * m.blockSize
      match m.pool.setContents last filled none with
      | (pool, .ok ()) =>
        ({ m with pool := pool, trace := .appended seq last :: m.trace }, .ok ())
      | (pool, .error e) => ({ m with pool := pool }, .error e)

/-- Ensures a sequence has room for one more token, allocating if the
current final block is full. -/
def appendToken (m : KvCacheManager) (seq : SequenceId) :
    KvCacheManager × Except EngineError Unit :=
  match m.blockTable seq with
  | none => (m, .error (.internal [.seq seq, " has no block table"]))
  | some table =>
    let newLen := table.numTokens + 1
    match m.growTable seq table newLen with
    | (m, .ok ()) => m.recordToken seq newLen
    | (m, .error e) => (m, .error e)

/-- Releases every block held by a sequence; an unknown one is a no-op. -/
def free (m : KvCacheManager) (seq : SequenceId) : KvCacheManager :=
  let m := { m with chainTips := m.chainTips.erase seq }
  match m.blockTable seq with
  | none => m
  | some table =>
    { m with
      tables := m.tables.erase seq
      pool := m.pool.releaseAll table.blocks
      trace := .released seq :: m.trace }

/-- Frees a sequence's blocks on preemption, returning how many were
reclaimed. -/
def preempt (m : KvCacheManager) (seq : SequenceId) : KvCacheManager × ℕ :=
  (m.free seq, (m.blockTable seq).elim 0 BlockTable.numBlocks)

/-- Forgets cached contents of up to `count` free blocks, oldest first, and
returns how many it found. -/
def evictCached (m : KvCacheManager) : ℕ → KvCacheManager × ℕ
  | 0 => (m, 0)
  | count + 1 =>
    match m.pool.evictOldestCached with
    | (pool, some (blk, hash)) =>
      let m := { m with pool := pool, prefixCache := m.prefixCache.remove hash blk }
      let rest := m.evictCached count
      (rest.1, rest.2 + 1)
    | (pool, none) => ({ m with pool := pool }, 0)

/-- Free blocks that still carry reusable cached contents. -/
def numEvictable (m : KvCacheManager) : ℕ := m.pool.numEvictable

/-- Drops every prefix-cache entry, leaving the blocks themselves alone. -/
def clearPrefixCache (m : KvCacheManager) : KvCacheManager :=
  let m := (m.evictCached m.numEvictable).1
  { m with prefixCache := m.prefixCache.clear }

/-- Every reference a table holds, once per occurrence. -/
def held (m : KvCacheManager) : List BlockId := m.tables.flat BlockTable.blocks

/-- The prompt given to the last `allocate` that opened a table for the
sequence. -/
def promptOf (m : KvCacheManager) (seq : SequenceId) : Option (List TokenId) :=
  m.trace.findSome? fun
    | .opened s prompt => if s = seq then some prompt else none
    | _ => none

end KvCacheManager

/-- What the scheduler needs from the cache manager. An implementation may
answer as it likes: nothing here says that a table is kept or that the
answers agree with each other. -/
class KvCacheManagerLike (C : Type*) where
  /-- Blocks required to hold `numTokens`, ignoring any reuse. -/
  blocksNeededFor : C → ℕ → ℕ
  /-- Total blocks in the pool. -/
  totalBlocks : C → ℕ
  /-- Blocks currently unreferenced. -/
  freeBlocks : C → ℕ
  /-- Whether `numTokens` could be admitted right now. -/
  canAllocate : C → ℕ → Bool
  /-- Reserves blocks covering a sequence's prompt. -/
  allocate : C → SequenceId → List TokenId → C × Except EngineError Unit
  /-- Reserves room for one more token on a running sequence. -/
  appendToken : C → SequenceId → C × Except EngineError Unit
  /-- Releases every block held by a sequence. -/
  free : C → SequenceId → C
  /-- Publishes a finished prefill to the prefix cache. -/
  commitPrefill : C → SequenceId → List TokenId → C

/-- The trait drops the outcome of an allocation. -/
instance : KvCacheManagerLike KvCacheManager where
  blocksNeededFor := KvCacheManager.blocksNeededFor
  totalBlocks := KvCacheManager.totalBlocks
  freeBlocks := KvCacheManager.freeBlocks
  canAllocate := KvCacheManager.canAllocate
  allocate m seq prompt := ((m.allocate seq prompt).1, (m.allocate seq prompt).2.map fun _ => ())
  appendToken := KvCacheManager.appendToken
  free := KvCacheManager.free
  commitPrefill := KvCacheManager.commitPrefill
