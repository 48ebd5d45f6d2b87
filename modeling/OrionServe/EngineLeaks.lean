import OrionServe.EngineStreams
import OrionServe.SchedulerTurns
import OrionServe.CacheGrowth

/-!
# No leak on any path

A sequence holds a block table only while it is running. That takes none of
what the cache manager knows about its blocks: a table is opened for the
sequence that is being admitted and for nobody else, an append is for a table
that is there, and every way out of the running queue frees the table. So it
holds over a pool of any size.

With the owners of a request in agreement – `Engine.Tracks` – this says that
an engine without work holds nothing: no table, and no request. That every
block is then *free* is another matter. It needs a pool whose blocks have ids
of their own; above `2^32` blocks a release can be refused as a double one.
-/

namespace KvCacheManager

variable (m : KvCacheManager) (seq q : SequenceId)

/-! ## Who holds a table -/

theorem isAllocated_iff : m.isAllocated q = true ↔ ∃ t, m.tables.lookup q = some t := by
  unfold isAllocated blockTable
  exact Option.isSome_iff_exists

theorem isAllocated_of_tables {m m' : KvCacheManager} (h : m'.tables = m.tables) :
    m'.isAllocated q = m.isAllocated q := by
  unfold isAllocated blockTable
  rw [h]

/-- Writing a table that is there. -/
theorem isAllocated_of_insert {m m' : KvCacheManager} {t t' : BlockTable}
    (ht : m.tables.lookup seq = some t) (h : m'.tables = m.tables.insert seq t') :
    m'.isAllocated q = m.isAllocated q := by
  unfold isAllocated blockTable
  rw [h]
  by_cases hq : q = seq
  · rw [hq, AList.lookup_insert, ht]
    rfl
  · rw [AList.lookup_insert_ne hq]

/-- A table is opened for the sequence that asked for it. -/
theorem isAllocated_allocate (prompt : List TokenId)
    (h : (m.allocate seq prompt).1.isAllocated q = true) :
    m.isAllocated q = true ∨ (q = seq ∧ ∃ o, (m.allocate seq prompt).2 = .ok o) := by
  rcases m.allocate_cases True seq prompt with
    ⟨-, he⟩ | ⟨-, -, he⟩ | ⟨s, -, -, -, hok, -, -⟩
  · rw [he] at h
    exact Or.inl h
  · rw [he] at h
    exact Or.inl h
  · by_cases hq : q = seq
    · refine Or.inr ⟨hq, s.outcome, ?_⟩
      rw [hok]
    · refine Or.inl ?_
      rw [hok] at h
      unfold isAllocated blockTable sealTable at h
      rw [AList.lookup_insert_ne hq] at h
      exact h

theorem isAllocated_recordToken (newLen : ℕ) :
    (m.recordToken seq newLen).1.isAllocated q = m.isAllocated q := by
  unfold recordToken
  split
  · rfl
  next t ht =>
  have hsame : ∀ m' : KvCacheManager,
      m'.tables = m.tables.insert seq (t.setNumTokens newLen) →
      m'.isAllocated q = m.isAllocated q := fun m' h => isAllocated_of_insert seq q ht h
  simp only []
  split
  · exact hsame _ rfl
  · split <;> exact hsame _ rfl

theorem isAllocated_growTable (t : BlockTable) (newLen : ℕ) :
    (m.growTable seq t newLen).1.isAllocated q = m.isAllocated q := by
  unfold growTable
  split
  · split
    · rfl
    · next pool blk evicted _ =>
      simp only []
      split
      · rfl
      · next u hu => exact isAllocated_of_insert seq q hu rfl
  · rfl

theorem isAllocated_appendToken :
    (m.appendToken seq).1.isAllocated q = m.isAllocated q := by
  unfold appendToken
  split
  · rfl
  next t _ =>
  simp only []
  have hgrow := m.isAllocated_growTable seq q t (t.numTokens + 1)
  split
  · next m₁ hm₁ =>
    rw [hm₁] at hgrow
    rw [isAllocated_recordToken]
    exact hgrow
  · next m₁ e hm₁ =>
    rw [hm₁] at hgrow
    exact hgrow

theorem isAllocated_free :
    (m.free seq).isAllocated q = true ↔ q ≠ seq ∧ m.isAllocated q = true := by
  rw [isAllocated_iff, isAllocated_iff, free_tables]
  by_cases hq : q = seq
  · rw [hq, AList.lookup_erase]
    simp
  · rw [AList.lookup_erase_ne hq]
    exact (and_iff_right hq).symm

theorem isAllocated_freeAll (order : List SequenceId) :
    (m.freeAll order).isAllocated q = true ↔ q ∉ order ∧ m.isAllocated q = true := by
  rw [isAllocated_iff, isAllocated_iff, freeAll_lookup]
  by_cases hq : q ∈ order
  · simp [hq]
  · simp [hq]

theorem commitChunks_tables (prompt : List TokenId) (chunks : List (List TokenId)) :
    ∀ (m : KvCacheManager) (chain : Option BlockHash) (i : ℕ) (blks : List BlockId),
      (m.commitChunks seq prompt chain i chunks blks).1.tables = m.tables := by
  induction chunks with
  | nil =>
    intro m chain i blks
    unfold commitChunks
    rfl
  | cons chunk chunks ih =>
    intro m chain i blks
    cases blks with
    | nil => rfl
    | cons blk blks =>
      unfold commitChunks
      split
      · exact (ih _ _ _ _).trans rfl
      · rfl

theorem isAllocated_commitPrefill (prompt : List TokenId) :
    (m.commitPrefill seq prompt).isAllocated q = m.isAllocated q := by
  unfold commitPrefill
  split
  · split
    · rfl
    · next t _ =>
      have htables := commitChunks_tables seq prompt (prompt.chunks m.blockSize) m none 0 t.blocks
      split
      · next m₁ tip hm₁ =>
        rw [hm₁] at htables
        exact isAllocated_of_tables q htables
      · next m₁ hm₁ =>
        rw [hm₁] at htables
        exact isAllocated_of_tables q htables
  · rfl

end KvCacheManager

namespace Scheduler

/-! ## The scheduler -/

/-- **Only what runs holds a table.** -/
def HeldByRunning (s : Scheduler KvCacheManager) : Prop :=
  ∀ id, s.cache.isAllocated id = true → id ∈ s.running.map Sequence.id

variable {s s' : Scheduler KvCacheManager}

/-- The same tables, or fewer, and the same sequences running, or more. -/
theorem HeldByRunning.mono (h : s.HeldByRunning)
    (hcache : ∀ id, s'.cache.isAllocated id = true → s.cache.isAllocated id = true)
    (hrun : ∀ id ∈ s.running.map Sequence.id, id ∈ s'.running.map Sequence.id) :
    s'.HeldByRunning := fun id hid => hrun id (h id (hcache id hid))

end Scheduler

theorem PassMove.heldByRunning {p p' : Pass KvCacheManager} (hm : PassMove p p')
    (h : p.sched.HeldByRunning) : p'.sched.HeldByRunning := by
  have happend : ∀ {id : SequenceId} {c : KvCacheManager} {r : Except EngineError Unit},
      KvCacheManagerLike.appendToken p.sched.cache id = (c, r) →
      ∀ q, c.isAllocated q = true → p.sched.cache.isAllocated q = true := by
    intro id c r ha q hq
    obtain rfl : (p.sched.cache.appendToken id).1 = c := congrArg Prod.fst ha
    rw [← p.sched.cache.isAllocated_appendToken id q]
    exact hq
  have hallocate : ∀ {id : SequenceId} {prompt : List TokenId} {c : KvCacheManager}
      {r : Except EngineError Unit},
      KvCacheManagerLike.allocate p.sched.cache id prompt = (c, r) →
      ∀ q, c.isAllocated q = true →
        p.sched.cache.isAllocated q = true ∨ (q = id ∧ r = .ok ()) := by
    intro id prompt c r ha q hq
    obtain rfl : (p.sched.cache.allocate id prompt).1 = c := congrArg Prod.fst ha
    refine (p.sched.cache.isAllocated_allocate id q prompt hq).imp_right
      (fun ⟨hid, o, ho⟩ => ⟨hid, ?_⟩)
    have hr : (p.sched.cache.allocate id prompt).2.map (fun _ => ()) = r := congrArg Prod.snd ha
    rw [← hr, ho]
    rfl
  cases hm with
  | refused answer result =>
    rw [result]
    exact h.mono (happend answer) (fun _ hid => hid)
  | decoded room answer cand result =>
    rw [result]
    exact h.mono (happend answer) (fun _ hid => hid)
  | evicted result =>
    obtain ⟨older, victim, hrun, rfl⟩ := Pass.preemptOne_eq_some result
    intro id hid
    obtain ⟨hne, hid⟩ := (p.sched.cache.isAllocated_free victim.id id).mp hid
    have hmem := h id hid
    rw [hrun, List.map_append, List.mem_append] at hmem
    exact hmem.resolve_right (fun hv => hne (List.mem_singleton.mp hv))
  | resumed found cand pos room result =>
    rw [result]
    refine h.mono (fun _ hid => hid) (fun id hid => ?_)
    show id ∈ (p.sched.running.updateKey _ _ _).map Sequence.id
    rw [List.map_updateKey (fun a => Pass.resumed_id a _)]
    exact hid
  | @admitted seq rest chunk c head first slot pos left room answer result =>
    rw [result]
    intro id hid
    show id ∈ (p.sched.running ++ [Pass.prefilled seq chunk]).map Sequence.id
    rw [List.map_append, List.mem_append]
    refine (hallocate answer id hid).imp (h id) (fun ⟨hid, _⟩ => List.mem_singleton.mpr ?_)
    rw [hid, Pass.prefilled_id]
  | readmitted head started slot pos left room result =>
    rw [result]
    refine h.mono (fun _ hid => hid) (fun id hid => ?_)
    show id ∈ (p.sched.running ++ [_]).map Sequence.id
    rw [List.map_append]
    exact List.mem_append_left _ hid
  | putBack head available answer result =>
    rw [result]
    refine h.mono (fun id hid => ?_) (fun _ hid => hid)
    exact (hallocate answer id hid).resolve_right (fun hbad => absurd hbad.2 (by simp))

theorem PassMoves.heldByRunning {p p' : Pass KvCacheManager} (hm : PassMoves p p')
    (h : p.sched.HeldByRunning) : p'.sched.HeldByRunning := by
  induction hm with
  | refl => exact h
  | tail _ hmove ih => exact hmove.heldByRunning ih

/-- The only running sequence is cancelled. -/
theorem Scheduler.cancel_alone {C : Type*} [KvCacheManagerLike C] {s : Scheduler C}
    {q : Sequence} (hrun : s.running = [q]) (hwait : s.waiting = []) :
    s.cancel q.id
      = ({ s with running := [], cache := KvCacheManagerLike.free s.cache q.id }, true) := by
  unfold cancel
  rw [hwait, hrun]
  simp [List.eraseKey]

namespace Scheduler.HeldByRunning

variable {s : Scheduler KvCacheManager}

theorem reapFinished (h : s.HeldByRunning) : s.reapFinished.1.HeldByRunning := by
  have hcache : s.reapFinished.1.cache
      = s.cache.freeAll ((s.running.filter Sequence.isFinished).map Sequence.id) := by
    show (s.running.filter Sequence.isFinished).foldl _ s.cache = _
    unfold KvCacheManager.freeAll
    rw [List.foldl_map]
    rfl
  intro id hid
  rw [hcache, KvCacheManager.isAllocated_freeAll] at hid
  obtain ⟨r, hr, rfl⟩ := List.mem_map.mp (h id hid.2)
  refine List.mem_map_of_mem (List.mem_filter.mpr ⟨hr, ?_⟩)
  rcases hfin : r.isFinished with - | -
  · rfl
  · exact absurd (List.mem_map_of_mem (List.mem_filter.mpr ⟨hr, hfin⟩)) hid.1

theorem cancel (h : s.HeldByRunning) (id : SequenceId) : (s.cancel id).1.HeldByRunning := by
  unfold Scheduler.cancel
  split
  · exact h
  split
  · intro q hq
    obtain ⟨hne, hq⟩ := (s.cache.isAllocated_free id q).mp hq
    show q ∈ (s.running.eraseKey Sequence.id id).map Sequence.id
    rw [List.map_eraseKey]
    exact (List.mem_erase_of_ne hne).mpr (h q hq)
  · exact h

theorem onToken (h : s.HeldByRunning) (id : SequenceId) (token : TokenId)
    (eosIds : List TokenId) : (s.onToken id token eosIds).1.HeldByRunning := by
  unfold Scheduler.onToken
  split
  · exact h
  · refine h.mono (fun _ hq => hq) (fun q hq => ?_)
    show q ∈ (s.running.updateKey _ _ _).map Sequence.id
    rw [List.map_updateKey (Scheduler.tokenReceived_id token eosIds)]
    exact hq

theorem expireTimeouts (h : s.HeldByRunning) (now : Instant) :
    (s.expireTimeouts now).1.HeldByRunning := by
  unfold Scheduler.expireTimeouts
  split
  · exact h
  · refine h.mono (fun _ hq => hq) (fun q hq => ?_)
    obtain ⟨r, hr, rfl⟩ := List.mem_map.mp hq
    exact List.mem_map.mpr ⟨_, List.mem_map_of_mem hr, id_expired now _ r⟩

theorem commitPrefill (h : s.HeldByRunning) (id : SequenceId) :
    (s.commitPrefill id).HeldByRunning := by
  unfold Scheduler.commitPrefill
  split
  · exact h
  · next r _ =>
    split
    · refine h.mono (fun q hq => ?_) (fun _ hq => hq)
      rw [← s.cache.isAllocated_commitPrefill id q r.prompt]
      exact hq
    · exact h

/-- **Step lemma.** -/
theorem run {v : Service KvCacheManager} (h : v.sched.HeldByRunning) (op : SchedulerOp) :
    (op.run v).sched.HeldByRunning := by
  cases op with
  | addRequest prompt params now =>
    rcases v.sched.addRequest_cases (.new ⟨v.nextId⟩ prompt params now) with ⟨e, he⟩ | ⟨hok, -⟩
    · show (v.sched.addRequest _).1.HeldByRunning
      rw [he]
      exact h
    · show (v.sched.addRequest _).1.HeldByRunning
      rw [hok]
      exact h
  | schedule => exact PassMoves.heldByRunning v.sched.passes_moves h
  | onToken id token eosIds => exact h.onToken id token eosIds
  | reapFinished => exact h.reapFinished
  | cancel id => exact h.cancel id
  | expireTimeouts now => exact h.expireTimeouts now
  | commitPrefill id => exact h.commitPrefill id

end Scheduler.HeldByRunning

/-- **Run lemma.** -/
theorem Service.Reachable.heldByRunning {config : SchedulerConfig} {n bs firstId : ℕ}
    {flag : Bool} {v : Service KvCacheManager}
    (h : v.Reachable config (KvCacheManager.new n bs flag) firstId) :
    v.sched.HeldByRunning := by
  induction h with
  | start =>
    intro id hid
    obtain ⟨t, ht⟩ := (KvCacheManager.isAllocated_iff _ id).mp hid
    exact absurd ht (by simp [Service.start, Scheduler.new, KvCacheManager.new])
  | step op _ ih => exact ih.run op

namespace BlockPool

/-! ## A pool whose ids repeat -/

/-- **Each block is free once**, whatever the ids are. -/
def Distinct (p : BlockPool) : Prop :=
  p.freeList.Nodup ∧ ∀ id ∈ p.freeList, p.refCount id = 0 ∧ id.index < 2 ^ 32

theorem refCount_of_notMem {p : BlockPool} {id : BlockId} (h : id ∉ p.ids) :
    p.refCount id = 0 := by
  rcases hb : p.get id with - | b
  · unfold refCount
    rw [hb]
    rfl
  · exact absurd ((get_isSome_iff p id).mp (by rw [hb]; rfl)) h

theorem Distinct.release {p : BlockPool} (h : p.Distinct) {id : BlockId}
    (hid : id.index < 2 ^ 32) : (p.release id).1.Distinct := by
  rcases p.release_cases id with ⟨-, e, he⟩ | ⟨p', hp', hd⟩
  · rw [he]
    exact h
  · rw [hp']
    show p'.freeList.Nodup ∧ ∀ i ∈ p'.freeList, p'.refCount i = 0 ∧ i.index < 2 ^ 32
    have hkeep : ∀ i ∈ p.freeList, p'.refCount i = 0 ∧ i.index < 2 ^ 32 := by
      intro i hi
      obtain ⟨hzero, hlt⟩ := h.2 i hi
      refine ⟨?_, hlt⟩
      by_cases hin : i ∈ p.ids
      · rw [hd.refCount i hin, hzero, Nat.zero_sub, ite_self]
      · refine refCount_of_notMem (fun hin' => hin ?_)
        show i.index < p.totalBlocks
        rw [← hd.totalBlocks]
        exact hin'
    rw [hd.freeList]
    split
    · next hone =>
      have hnot : id ∉ p.freeList := by
        intro hmem
        rw [(h.2 id hmem).1] at hone
        exact absurd hone (by simp)
      refine ⟨List.nodup_append.mpr ⟨h.1, List.nodup_singleton _, fun a ha b hb hab => ?_⟩,
        fun i hi => ?_⟩
      · rw [List.mem_singleton.mp hb] at hab
        exact hnot (hab ▸ ha)
      · rcases List.mem_append.mp hi with hi | hi
        · exact hkeep i hi
        · obtain rfl := List.mem_singleton.mp hi
          have hin : i ∈ p.ids := by
            by_contra hout
            rw [refCount_of_notMem hout] at hone
            exact absurd hone (by simp)
          rw [hd.refCount i hin, if_pos rfl, hone]
          exact ⟨rfl, hid⟩
    · exact ⟨h.1, hkeep⟩

theorem Distinct.releaseAll (bs : List BlockId) (hbs : ∀ b ∈ bs, b.index < 2 ^ 32) :
    ∀ {p : BlockPool}, p.Distinct → (p.releaseAll bs).Distinct := by
  induction bs with
  | nil => exact fun h => h
  | cons b bs ih =>
    intro p h
    rw [releaseAll_cons]
    exact ih (fun x hx => hbs x (List.mem_cons_of_mem _ hx))
      (h.release (hbs b List.mem_cons_self))

/-- So there are no more free blocks than there are ids. -/
theorem Distinct.numFree_le {p : BlockPool} (h : p.Distinct) : p.numFree ≤ 2 ^ 32 := by
  have hnd : (p.freeList.map BlockId.index).Nodup :=
    h.1.map BlockId.index_injective
  have hsub : (p.freeList.map BlockId.index) ⊆ List.range (2 ^ 32) := by
    intro i hi
    obtain ⟨b, hb, rfl⟩ := List.mem_map.mp hi
    exact List.mem_range.mpr (h.2 b hb).2
  have hlen := (hnd.subperm hsub).length_le
  rw [List.length_map, List.length_range] at hlen
  exact hlen

end BlockPool

/-- **A table of the whole pool** is opened and freed: at most `2^32` blocks
are free afterwards. -/
theorem KvCacheManager.freeBlocks_after_whole_pool (n : ℕ) (flag : Bool)
    {prompt : List TokenId} (hlen : prompt.length = n) (seq : SequenceId) :
    (((new n 1 flag).allocate seq prompt).1.free seq).freeBlocks ≤ 2 ^ 32 := by
  set m₀ := new n 1 flag with hm₀
  have hfree : m₀.pool.freeList = (List.range n).map BlockId.ofIndex := rfl
  have hneed : m₀.blocksNeededFor prompt.length = n := by
    unfold blocksNeededFor BlockTable.blocksRequired
    show prompt.length ⌈/⌉ 1 = n
    rw [hlen, ceilDiv_one]
  have hcold : m₀.AllocatesCold (m₀.allocate seq prompt).1 seq prompt := by
    refine allocate_cold (by rw [hm₀]; rfl) (fun _ => rfl) ?_
    rw [hneed]
    show n ≤ m₀.pool.freeList.length
    rw [hfree, List.length_map, List.length_range]
  set m₁ := (m₀.allocate seq prompt).1 with hm₁
  have htable : m₁.tables.lookup seq
      = some ⟨m₀.pool.freeList.take (m₀.blocksNeededFor prompt.length), prompt.length⟩ := by
    rw [hcold.tables, AList.lookup_insert]
  rw [free_of_lookup htable]
  refine (BlockPool.Distinct.releaseAll _ (fun b hb => ?_) ?_).numFree_le
  · have hmem := List.mem_of_mem_take hb
    rw [hfree] at hmem
    obtain ⟨i, -, rfl⟩ := List.mem_map.mp hmem
    exact Nat.mod_lt _ (by norm_num)
  · have hnil : m₁.pool.freeList = [] := by
      rw [hcold.freeList, hneed, hfree]
      exact List.drop_eq_nil_of_le (by simp)
    show m₁.pool.freeList.Nodup ∧ ∀ id ∈ m₁.pool.freeList, _
    rw [hnil]
    exact ⟨List.nodup_nil, fun id hid => absurd hid List.not_mem_nil⟩

namespace Engine

variable {M S F : Type*} [LanguageModel M F] [Sampler S F]
  {config : SchedulerConfig} {n bs firstId : ℕ} {flag : Bool} {model : M} {e : Engine M S}

/-! ## The engine -/

/-- **No leak on any path.** In every state that any run of the engine
reaches, whatever its steps returned: only running sequences hold tables,
every active request has its sequence in a queue, and every unfinished
sequence has its request. So without work nothing is held and nobody is
active, and every block of a pool of at most `2^32` is free. -/
theorem nothing_leaks (h : e.Reachable config n bs flag model firstId) :
    (∀ id, e.scheduler.cache.isAllocated id = true →
      id ∈ e.scheduler.running.map Sequence.id)
    ∧ (∀ id req, e.active.lookup id = some req →
      id ∈ (e.scheduler.running ++ e.scheduler.waiting).map Sequence.id)
    ∧ (∀ q ∈ e.scheduler.running ++ e.scheduler.waiting, q.state ≠ .finished →
      (e.active.lookup q.id).isSome = true)
    ∧ (e.hasWork = false →
      (∀ id, e.active.lookup id = none) ∧ (∀ id, e.scheduler.cache.isAllocated id = false)
      ∧ (1 ≤ bs → n ≤ 2 ^ 32 → e.scheduler.cache.freeBlocks = n)) := by
  have htracks := h.tracks
  have hheld : e.scheduler.HeldByRunning := by
    obtain ⟨v, hv, hserves⟩ := h.inService
    exact hserves.sched ▸ hv.heldByRunning
  have hknown : ∀ id req, e.active.lookup id = some req →
      id ∈ (e.scheduler.running ++ e.scheduler.waiting).map Sequence.id := by
    intro id req hreq
    obtain ⟨q, hq, rfl, -⟩ := (htracks.known id req hreq).resolve_left
      (fun hp => absurd hp.1 List.not_mem_nil)
    exact List.mem_map_of_mem hq
  refine ⟨hheld, hknown, htracks.requested, fun hidle => ?_⟩
  have hqueues : e.scheduler.running = [] ∧ e.scheduler.waiting = [] := by
    unfold hasWork Scheduler.hasWork at hidle
    simpa [and_comm] using hidle
  have hempty : ∀ id, e.scheduler.cache.isAllocated id = false := by
    intro id
    rcases hid : e.scheduler.cache.isAllocated id with - | -
    · rfl
    · have hmem := hheld id hid
      rw [hqueues.1] at hmem
      exact absurd hmem List.not_mem_nil
  refine ⟨fun id => ?_, hempty, fun hbs hn => ?_⟩
  · rcases hreq : e.active.lookup id with - | req
    · rfl
    · have hmem := hknown id req hreq
      rw [hqueues.1, hqueues.2] at hmem
      exact absurd hmem List.not_mem_nil
  · have hcache := h.inService.cache hbs hn
    have hnobody : ∀ q, e.scheduler.cache.isAllocated q = true → q ∈ ([] : List SequenceId) :=
      fun q hq => absurd hq (by simp [hempty q])
    have hfree := (hcache.settled hbs hn).2.exact.freeAll hnobody
    exact hfree.trans (hcache.totalBlocks hbs hn)

theorem cancel_scheduler (e : Engine M S) (id : SequenceId) :
    (e.cancel id).scheduler = (e.scheduler.cancel id).1 := by
  unfold cancel
  split
  · next s hs =>
    rw [hs]
    unfold sendLast
    split <;> rfl
  · next s hs => rw [hs]

/-- A request, a step and a cancellation. -/
theorem runAll_cancelled (e : Engine M S)
    (prompt : List TokenId) (params : SamplingParams) (events : Channel) (sampler : S)
    (now now' : Instant) (id : SequenceId) :
    EngineOp.runAll e [.submit prompt params events sampler now, .step now', .cancel id]
      = ((e.submit prompt params events sampler now).1.step now').1.cancel id := rfl

/-- What a submission of a lone request leaves. -/
theorem submit_alone {e : Engine M S} {prompt : List TokenId} {params : SamplingParams}
    {events : Channel} {sampler : S} {now : Instant} (hvalid : params.validate = .ok ())
    (hroom : 0 < e.scheduler.config.maxWaitingRequests) (hwait : e.scheduler.waiting = [])
    (hlimit : e.scheduler.config.maxModelLen = none)
    (hfits : e.scheduler.cache.blocksNeededFor prompt.length
      ≤ e.scheduler.cache.totalBlocks) :
    (e.submit prompt params events sampler now).1 = { e with
      scheduler := { e.scheduler with waiting := [.new ⟨e.nextId⟩ prompt params now] }
      active := e.active.insert ⟨e.nextId⟩ ⟨events, sampler, prompt.length⟩
      nextId := e.nextId + 1 } := by
  have hlimit' : ¬ e.scheduler.maxModelLen < (prompt.length + params.maxTokens) % 2 ^ 64 := by
    unfold Scheduler.maxModelLen
    rw [hlimit]
    exact not_lt.mpr (Nat.le_sub_one_of_lt (Nat.mod_lt _ (by norm_num)))
  have hadd : e.scheduler.addRequest (.new ⟨e.nextId⟩ prompt params now)
      = ({ e.scheduler with waiting := [.new ⟨e.nextId⟩ prompt params now] },
        .ok ⟨e.nextId⟩) := by
    unfold Scheduler.addRequest
    rw [hwait, List.length_nil, if_neg (not_le.mpr hroom)]
    show (if e.scheduler.maxModelLen < (prompt.length + params.maxTokens) % 2 ^ 64
      then _ else _) = _
    rw [if_neg hlimit']
    show (if e.scheduler.cache.totalBlocks < e.scheduler.cache.blocksNeededFor prompt.length
      then _ else _) = _
    rw [if_neg (not_lt.mpr hfits)]
    rfl
  unfold submit
  rw [hvalid, hadd]

end Engine

namespace MockModel

/-- No deadline, so that the clock plays no part. -/
def patient : SchedulerConfig := { requestTimeoutSecs := none }

/-- A pool of one block more than a `u32` numbers, and a prompt that takes
all of it. The only forward pass fails, and the request is cancelled. -/
def wholePool (n : ℕ) (prompt : List TokenId) : Engine MockModel MockSampler :=
  EngineOp.runAll (.new (.new patient (KvCacheManager.new n 1 true)) ⟨[true]⟩ 1)
    [request prompt, .step 0, .cancel ⟨1⟩]

section WholePool

variable {n : ℕ} {prompt : List TokenId}

/-- The pool before anything is asked of it. -/
def freshPool (n : ℕ) : KvCacheManager := .new n 1 true

/-- The request. -/
def wholePrompt (prompt : List TokenId) : Sequence := .new ⟨1⟩ prompt {} 0

/-- The engine over that pool. -/
def wholePoolNew (n : ℕ) : Engine MockModel MockSampler :=
  .new (.new patient (freshPool n)) ⟨[true]⟩ 1

/-- The engine with the request in its queue. -/
def wholePoolAsked (n : ℕ) (prompt : List TokenId) : Engine MockModel MockSampler :=
  ((wholePoolNew n).submit prompt {} ⟨8, [], true⟩ ⟨7⟩ 0).1

theorem freshPool_freeBlocks : (freshPool n).freeBlocks = n := by
  show ((List.range n).map BlockId.ofIndex).length = n
  rw [List.length_map, List.length_range]

theorem blocksNeededFor_freshPool (k : ℕ) : (freshPool n).blocksNeededFor k = k := by
  unfold KvCacheManager.blocksNeededFor BlockTable.blocksRequired
  show k ⌈/⌉ 1 = k
  rw [ceilDiv_one]

theorem wholePoolAsked_eq (hlen : prompt.length = n) :
    wholePoolAsked n prompt = { wholePoolNew n with
      scheduler := { (wholePoolNew n).scheduler with waiting := [wholePrompt prompt] }
      active := (wholePoolNew n).active.insert ⟨1⟩ ⟨⟨8, [], true⟩, ⟨7⟩, prompt.length⟩
      nextId := 2 } := by
  refine Engine.submit_alone (by decide)
    (show 0 < patient.maxWaitingRequests by decide) rfl rfl ?_
  show (freshPool n).blocksNeededFor prompt.length ≤ (freshPool n).totalBlocks
  rw [blocksNeededFor_freshPool, hlen]
  exact (BlockPool.new_totalBlocks n 1).ge

/-- There are blocks for the prompt. -/
theorem allocate_freshPool (hlen : prompt.length = n) :
    KvCacheManagerLike.allocate (freshPool n) ⟨1⟩ prompt
      = (((freshPool n).allocate ⟨1⟩ prompt).1, .ok ()) := by
  show (((freshPool n).allocate ⟨1⟩ prompt).1,
    ((freshPool n).allocate ⟨1⟩ prompt).2.map fun _ => ()) = _
  rcases (freshPool n).allocate_cases True ⟨1⟩ prompt with
    ⟨hhas, -⟩ | ⟨-, hfew, -⟩ | ⟨s, -, -, -, hok, -, -⟩
  · exact absurd hhas (by simp [freshPool, KvCacheManager.isAllocated,
      KvCacheManager.blockTable, KvCacheManager.new])
  · rw [blocksNeededFor_freshPool, freshPool_freeBlocks, hlen] at hfew
    exact absurd hfew (lt_irrefl n)
  · rw [hok]
    rfl

/-- The step admits the request. -/
theorem wholePoolAsked_passes (hn : 0 < n) (hlen : prompt.length = n) :
    (wholePoolAsked n prompt).scheduler.passes
      = ((wholePoolAsked n prompt).scheduler.pass.withCache
          ((freshPool n).allocate ⟨1⟩ prompt).1).bringIn (wholePrompt prompt) []
        (min n patient.maxNumBatchedTokens) := by
  have hidle : (wholePoolAsked n prompt).scheduler.pass.scheduleDecodes
      = (wholePoolAsked n prompt).scheduler.pass := by
    rw [wholePoolAsked_eq hlen]
    exact Pass.scheduleDecodes_idle (Or.inl (fun r hr => absurd hr List.not_mem_nil))
  have hfirst : (wholePoolAsked n prompt).scheduler.config.prioritizeDecode = true := by
    rw [wholePoolAsked_eq hlen]
    rfl
  have hcan : KvCacheManagerLike.canAllocate (freshPool n) prompt.length = true := by
    show decide ((freshPool n).blocksNeededFor prompt.length ≤ (freshPool n).freeBlocks) = true
    rw [blocksNeededFor_freshPool, freshPool_freeBlocks, hlen]
    exact decide_eq_true le_rfl
  unfold Scheduler.passes
  rw [if_pos hfirst, hidle, wholePoolAsked_eq hlen]
  refine Pass.schedulePrefills_admit rfl rfl (show 0 < patient.maxNumSeqs by decide)
    (show 0 < patient.maxNumBatchedTokens by decide) ?_ (lt_min hn (by decide)).ne' rfl hcan
    (allocate_freshPool hlen)
  show some (min (prompt.length - 0) (patient.maxNumBatchedTokens - 0)) = _
  rw [hlen, Nat.sub_zero, Nat.sub_zero]

/-- And the forward pass fails. -/
theorem wholePoolAsked_step (hn : 0 < n) (hlen : prompt.length = n) :
    ((wholePoolAsked n prompt).step 0).1.scheduler
      = ((wholePoolAsked n prompt).scheduled 0).scheduler := by
  set e := wholePoolAsked n prompt with he
  have hexpire : e.expire 0 = e := by
    rw [he, wholePoolAsked_eq hlen]
    rfl
  rcases e.step_cases 0 with ⟨hempty, -, -⟩ | ⟨err, -, hstep, -⟩ | ⟨b, -, hfwd⟩
  · have hout : e.output 0 = e.scheduler.passes.out := by
      rw [Engine.output, hexpire]
      rfl
    rw [hout, wholePoolAsked_passes hn hlen] at hempty
    exact absurd hempty (by simp [Pass.bringIn, Pass.emit, Pass.withCache, Scheduler.pass,
      SchedulerOutput.isEmpty])
  · rw [hstep]
  · rcases hfwd with ⟨err, -, hstep, -⟩ | ⟨⟨out, hout⟩, -⟩
    · rw [hstep]
      rfl
    · have hmodel : (e.scheduled 0).model = ⟨[true]⟩ := by
        rw [Engine.scheduled, hexpire, he, wholePoolAsked_eq hlen]
        rfl
      unfold Engine.runForward at hout
      rw [hmodel] at hout
      exact absurd hout (by simp [LanguageModel.forward])

/-- What is left of it. -/
theorem wholePool_cache (hn : 0 < n) (hlen : prompt.length = n) :
    (wholePool n prompt).hasWork = false
    ∧ (wholePool n prompt).scheduler.cache
      = ((KvCacheManager.new n 1 true).allocate ⟨1⟩ prompt).1.free ⟨1⟩ := by
  set c := ((freshPool n).allocate ⟨1⟩ prompt).1 with hc
  set chunk := min n patient.maxNumBatchedTokens with hchunk
  set e := wholePoolAsked n prompt with he
  have hexpire : e.expire 0 = e := by
    rw [he, wholePoolAsked_eq hlen]
    rfl
  have hscheduled : (e.scheduled 0).scheduler
      = ((e.scheduler.pass.withCache c).bringIn (wholePrompt prompt) [] chunk).sched := by
    rw [Engine.scheduled, hexpire]
    exact congrArg Pass.sched (wholePoolAsked_passes hn hlen)
  have hsched : (e.step 0).1.scheduler
      = { e.scheduler with
        running := [Pass.prefilled (wholePrompt prompt) chunk]
        waiting := []
        cache := c
        trace := (e.step 0).1.scheduler.trace } := by
    rw [wholePoolAsked_step hn hlen, hscheduled, he, wholePoolAsked_eq hlen]
    rfl
  have hcancel : (e.step 0).1.scheduler.cancel ⟨1⟩
      = ({ (e.step 0).1.scheduler with running := [], cache := c.free ⟨1⟩ }, true) := by
    have hid : (Pass.prefilled (wholePrompt prompt) chunk).id = ⟨1⟩ := Pass.prefilled_id _ chunk
    rw [← hid]
    rw [Scheduler.cancel_alone (by rw [hsched]) (by rw [hsched]), hsched]
    rfl
  have hend : (wholePool n prompt).scheduler
      = { (e.step 0).1.scheduler with running := [], cache := c.free ⟨1⟩ } := by
    unfold wholePool request
    rw [Engine.runAll_cancelled, Engine.cancel_scheduler]
    exact congrArg Prod.fst hcancel
  refine ⟨?_, ?_⟩
  · unfold Engine.hasWork Scheduler.hasWork
    rw [hend, hsched]
    rfl
  · rw [hend]
    rfl

end WholePool

end MockModel

namespace Engine

/-- **Above `2^32` blocks the free list can lose one**: nothing is left to do,
and not every block is free. -/
theorem block_leaks_above_u32 :
    ∃ e : Engine MockModel MockSampler,
      e.Reachable MockModel.patient (2 ^ 32 + 1) 1 true ⟨[true]⟩ 1
      ∧ e.hasWork = false ∧ e.scheduler.cache.freeBlocks ≠ 2 ^ 32 + 1 := by
  obtain ⟨n, hn⟩ : ∃ n, n = 2 ^ 32 + 1 := ⟨_, rfl⟩
  rw [← hn]
  have hlen : (List.replicate n 9 : List TokenId).length = n := List.length_replicate
  obtain ⟨hidle, hcache⟩ := MockModel.wholePool_cache (hn ▸ Nat.succ_pos _) hlen
  refine ⟨MockModel.wholePool n (List.replicate n 9), Reachable.start.runAll _, hidle, ?_⟩
  rw [hcache]
  have hle := KvCacheManager.freeBlocks_after_whole_pool n true hlen ⟨1⟩
  intro heq
  rw [heq, hn] at hle
  exact absurd hle (by norm_num)

/-- A request that is cancelled in the middle of its work: every block is
free again. -/
theorem nothing_leaks_cancelled :
    (EngineOp.runAll (MockModel.engine 4 [true]) [MockModel.request [1, 2, 3], .step 0,
      .cancel ⟨1⟩]).scheduler.cache.freeBlocks = 4 := by
  have hreach : (EngineOp.runAll (MockModel.engine 4 [true]) [MockModel.request [1, 2, 3],
      .step 0, .cancel ⟨1⟩]).Reachable {} 4 4 true ⟨[true]⟩ 1 := Reachable.start.runAll _
  exact ((nothing_leaks hreach).2.2.2 (by decide +kernel)).2.2 (by decide) (by decide)

end Engine
