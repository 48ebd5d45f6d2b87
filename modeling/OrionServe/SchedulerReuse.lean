import OrionServe.CacheReuse
import OrionServe.SchedulerEntries

/-!
# Adopted blocks are computed again

A prefix hit saves blocks, and it is meant to save compute: the outcome of an
allocation says how many tokens of the prompt already have KV entries. But
the trait between scheduler and cache drops that outcome, and the prefill of
an admitted sequence starts at position 0 whatever was adopted. So the first
row of an admission writes into the first adopted block – unless nothing was
adopted, or the prompt is a single token, which one row has to compute anyway
for its logits.

As long as nothing is adopted, a published block is left alone: a sequence
that is in the middle of its prompt stands on blocks of its own, which
nobody has published, and a decode step writes behind the full chunks.
-/

namespace Sequence

/-- Where the prefill of a sequence is to start when this much of its prompt
is cached: behind that, or at the last position when it is all of it. -/
def prefillStart (s : Sequence) (cached : ℕ) : ℕ :=
  if cached = s.promptLen then s.promptLen - 1 else cached

/-- A sequence that starts at 0 starts where it should when nothing is cached,
or when there is only one position to start at. -/
theorem zero_eq_prefillStart_iff {s : Sequence} {k bs : ℕ} (hbs : 0 < bs)
    (hpos : 0 < s.prompt.length) (hle : k * bs ≤ s.prompt.length) :
    0 = s.prefillStart (k * bs) ↔ k = 0 ∨ s.prompt.length = 1 := by
  unfold prefillStart promptLen
  rcases Nat.eq_zero_or_pos k with rfl | hk
  · rw [Nat.zero_mul, if_neg hpos.ne]
    exact iff_of_true rfl (Or.inl rfl)
  have hkbs : 0 < k * bs := Nat.mul_pos hk hbs
  split <;> omega

end Sequence

/-- **A row of a sequence computes a cached position again**: a prefill entry
since its last eviction covers it, and it is not the last of the prompt. -/
def Scheduler.Recomputes (s : Scheduler KvCacheManager) (r : Sequence) (cached : ℕ) : Prop :=
  ∃ e ∈ entriesSince r.id s.trace, e.isPrefill = true
    ∧ ∃ q, Span.Contains e.span q ∧ q < cached ∧ q ≠ r.promptLen - 1

namespace Resident

variable {m : KvCacheManager} {trace : List SchedEvent} {r : Sequence}

/-- **The first entry since an admission** is a prefill entry at 0. -/
theorem first_entry (h : Resident m trace r) :
    ∃ e, (entriesSince r.id trace).getLast? = some e ∧ e.isPrefill = true
      ∧ e.startPosition = 0 ∧ Span.Contains e.span 0 := by
  obtain ⟨decodes, prefills, hes, -, hpre, htile, -⟩ := h.entries
  obtain ⟨s, hs, hzero⟩ := htile.getLast h.started
  rw [List.getLast?_map, Option.map_eq_some_iff] at hs
  obtain ⟨e, he, rfl⟩ := hs
  have hmem := List.mem_of_getLast? he
  refine ⟨e, ?_, hpre e hmem, hzero, ?_⟩
  · rw [hes, List.getLast?_append, he]
    rfl
  · -- a tile is not empty
    have hpos : ∀ {spans : List (ℕ × ℕ)} {n : ℕ}, Span.TilesTo spans n →
        ∀ s ∈ spans, 0 < s.2 := by
      intro spans
      induction spans with
      | nil => exact fun _ s hs => absurd hs List.not_mem_nil
      | cons t spans ih =>
        intro n ht s hs
        rcases List.mem_cons.mp hs with rfl | hs
        · exact ht.1
        · exact ih ht.2.2 s hs
    have hlen := hpos htile e.span (List.mem_map_of_mem hmem)
    exact ⟨hzero.le, by rw [hzero, Nat.zero_add]; exact hlen⟩

end Resident

/-! ## Nobody in the middle of its prompt stands on a published block -/

/-- Every adoption of a history is for a prompt of one token. -/
def Singles (trace : List BlockEvent) : Prop :=
  ∀ s p i b, .adopted s p i b ∈ trace → p.length = 1

namespace KvCacheManager

variable {m m' : KvCacheManager} {q seq : SequenceId} {prompt : List TokenId}

/-- None of the blocks of a sequence is published. -/
def Unpublished (m : KvCacheManager) (q : SequenceId) : Prop :=
  ∀ i b, m.Occurs q i b → ¬ m.Published b

/-- A sequence whose table is left alone while nothing is published. -/
theorem Unpublished.frame (h : m.Unpublished q)
    (htable : m'.tables.lookup q = m.tables.lookup q) {new : List BlockEvent}
    (htr : m'.trace = new ++ m.trace) (hnew : ∀ e ∈ new, ∀ b, ¬ PublishesBlock b e) :
    m'.Unpublished q := by
  intro i b ho hp
  refine h i b ?_ (published_append _ htr (fun e he => hnew e he b) hp)
  unfold Occurs at ho ⊢
  rw [← htable]
  exact ho

/-- One more token: a new block is behind the full chunks of the prompt. -/
theorem Unpublished.appended (h : m.Unpublished seq) (hs : m.Settled) (hm : m'.Marked)
    (hbs : m'.blockSize = m.blockSize) {t t' : BlockTable} (happ : m.Appends m' seq t t') :
    m'.Unpublished seq := by
  obtain ⟨new, htr, hnew⟩ := happ.trace
  intro i b ho hp
  obtain ⟨u, hu, hb⟩ := ho
  rw [happ.tables, AList.lookup_insert] at hu
  obtain rfl := Option.some.inj hu
  have hprompt : m'.promptOf = m.promptOf := promptOf_append htr (fun e he s p => by
    rcases hnew e he with ⟨blk, rfl⟩ | ⟨blk, rfl⟩ <;> simp)
  have hold : t.blocks[i]? = some b → False := fun hb => by
    refine h i b ⟨t, happ.table, hb⟩ (published_append _ htr (fun e he => ?_) hp)
    rcases hnew e he with ⟨blk, rfl⟩ | ⟨blk, rfl⟩ <;> simp [PublishesBlock]
  rcases happ.blocks with ⟨-, hblocks⟩ | ⟨-, blk, hblocks⟩
  · exact hold (by rw [← hblocks]; exact hb)
  · rcases lt_or_ge i t.blocks.length with hlt | hge
    · rw [hblocks, List.getElem?_append_left hlt] at hb
      exact hold hb
    · obtain ⟨p, hpr, hfull⟩ := hm.full hp ⟨t', by rw [happ.tables, AList.lookup_insert], hb⟩
      rw [hprompt] at hpr
      have hsized := hs.sized happ.table
      obtain ⟨p', hpr', hlen⟩ := hsized.prompt
      obtain rfl : p' = p := Option.some.inj (hpr'.symm.trans hpr)
      have hroom : p'.length ≤ t.blocks.length * m.blockSize := by
        refine hlen.trans ?_
        have hnum : t.blocks.length = _ := hsized.numBlocks
        rw [hnum]
        exact Nat.le_ceilDiv_mul hs.blockSize _
      rw [hbs] at hfull
      have hmul : (t.blocks.length + 1) * m.blockSize ≤ (i + 1) * m.blockSize :=
        Nat.mul_le_mul_right _ (Nat.succ_le_succ hge)
      have hsucc : (t.blocks.length + 1) * m.blockSize
          = t.blocks.length * m.blockSize + m.blockSize := Nat.succ_mul _ _
      have hpos := hs.blockSize
      omega

/-- A new table of a prompt with more than one token. -/
theorem Unpublished.allocated (hm : m'.Marked) (hsingle : Singles m'.trace)
    (hlen : prompt.length ≠ 1)
    (ha : KvCacheManagerLike.allocate m seq prompt = (m', .ok ())) : m'.Unpublished seq := by
  obtain ⟨new, htr, hnew⟩ := like_allocate_trace ha
  intro i b ho hp
  have hsince := hm.traced hp ho
  rw [htr] at hsince hsingle
  have hno : ∀ e ∈ new, ¬ Marks seq i b e := by
    intro e he hmark
    rcases hnew e he with ⟨k, blk, rfl⟩ | ⟨blk, rfl⟩
    · exact hlen (hsingle _ _ _ _ (List.mem_append_left _ he))
    · exact hmark
  exact hsince.of_last hno (fun hk => hk prompt rfl)

theorem Unpublished.free (h : m.Unpublished q) (seq : SequenceId) :
    (m.free seq).Unpublished q := by
  obtain ⟨new, htr, hnew⟩ := m.free_trace seq
  intro i b ho hp
  obtain ⟨t, ht, hb⟩ := ho
  rw [free_tables] at ht
  have hold : m.Published b := published_append _ htr (fun e he => by
    rw [hnew e he]
    exact fun hpub => hpub) hp
  by_cases hq : q = seq
  · rw [hq, AList.lookup_erase] at ht
    exact absurd ht (by simp)
  · rw [AList.lookup_erase_ne hq] at ht
    exact h i b ⟨t, ht, hb⟩ hold

end KvCacheManager

/-- **Nobody in the middle of its prompt stands on a published block.** -/
def Scheduler.Untouched (s : Scheduler KvCacheManager) : Prop :=
  ∀ r ∈ s.running, r.state = .prefilling → s.cache.Unpublished r.id

/-- The same in the middle of a call, with everybody who has had a prefill
entry in it. -/
structure Pass.Untouched (p : Pass KvCacheManager) : Prop where
  sched : p.sched.Untouched
  entries : ∀ e ∈ p.out.scheduled, e.isPrefill = true → ∀ r ∈ p.sched.running, r.id = e.id →
    r.prompt.length ≠ 1 → p.sched.cache.Unpublished r.id

namespace PassMove

variable {n bs : ℕ} {flag : Bool} {p p' : Pass KvCacheManager}

/-- A scheduling call publishes nothing. -/
theorem cacheTrace (hm : PassMove p p') (h : p.sched.Sound) :
    ∃ new, p'.sched.cache.trace = new ++ p.sched.cache.trace
      ∧ ∀ e ∈ new, ∀ b, ¬ KvCacheManager.PublishesBlock b e := by
  cases hm with
  | refused answer result =>
    obtain rfl := KvCacheManager.like_appendToken_error h.settled answer
    rw [result]
    exact ⟨[], rfl, by simp⟩
  | decoded room answer cand result =>
    obtain ⟨-, t, t', happ⟩ := KvCacheManager.like_appendToken_ok h.settled answer
    obtain ⟨new, htr, hnew⟩ := happ.trace
    rw [result]
    refine ⟨new, htr, fun e he b => ?_⟩
    rcases hnew e he with ⟨blk, rfl⟩ | ⟨blk, rfl⟩ <;> simp [KvCacheManager.PublishesBlock]
  | evicted result =>
    obtain ⟨older, victim, -, rfl⟩ := Pass.preemptOne_eq_some result
    obtain ⟨new, htr, hnew⟩ := p.sched.cache.free_trace victim.id
    refine ⟨new, htr, fun e he b => ?_⟩
    rw [hnew e he]
    simp [KvCacheManager.PublishesBlock]
  | resumed found cand pos room result => rw [result]; exact ⟨[], rfl, by simp⟩
  | admitted head first slot pos left room answer result =>
    obtain ⟨new, htr, hnew⟩ := KvCacheManager.like_allocate_trace answer
    rw [result]
    refine ⟨new ++ [.opened _ _], by rw [List.append_assoc]; exact htr, fun e he b => ?_⟩
    rcases List.mem_append.mp he with he | he
    · rcases hnew e he with ⟨k, blk, rfl⟩ | ⟨blk, rfl⟩ <;>
        simp [KvCacheManager.PublishesBlock]
    · rw [List.mem_singleton.mp he]
      simp [KvCacheManager.PublishesBlock]
  | readmitted head started slot pos left room result => rw [result]; exact ⟨[], rfl, by simp⟩
  | putBack head available answer result =>
    exact absurd answer (h.allocate_ne_error (head ▸ List.mem_cons_self) available)

/-- **Step lemma.** -/
theorem untouched (hm : PassMove p p') (hs : p.sched.Sound)
    (hmark : p'.sched.cache.Marked) (hbs : p'.sched.cache.blockSize = p.sched.cache.blockSize)
    (hsingle : Singles p'.sched.cache.trace) (h : p.Untouched) : p'.Untouched := by
  obtain ⟨new, htr, hnew⟩ := hm.cacheTrace hs
  have hframe : ∀ {q}, p'.sched.cache.tables.lookup q = p.sched.cache.tables.lookup q →
      p.sched.cache.Unpublished q → p'.sched.cache.Unpublished q :=
    fun htable hq => hq.frame htable htr hnew
  cases hm with
  | refused answer result =>
    obtain rfl := KvCacheManager.like_appendToken_error hs.settled answer
    rw [result]
    exact h
  | @decoded id totalLen c room answer cand result =>
    obtain ⟨-, t, t', happ⟩ := KvCacheManager.like_appendToken_ok hs.settled answer
    rw [result] at hmark hbs hframe ⊢
    have hother : ∀ {q}, q ≠ id → p.sched.cache.Unpublished q → c.Unpublished q :=
      fun hq => hframe (by
        show c.tables.lookup _ = _
        rw [happ.tables, AList.lookup_insert_ne hq])
    refine ⟨fun r hr hstate => ?_, fun e he hpre r hr hid hlen => ?_⟩
    · have hne : r.id ≠ id := fun heq => by
        have hdec := (cand hs.nodup r hr heq).1
        exact absurd (hstate.symm.trans hdec) (by simp)
      exact hother hne (h.sched r hr hstate)
    · have hold : e ∈ p.out.scheduled := by
        rcases List.mem_append.mp he with he | he
        · exact he
        · rw [List.mem_singleton.mp he] at hpre
          exact absurd hpre (by simp [Pass.decodeEntry])
      have hun := h.entries e hold hpre r hr hid hlen
      by_cases hr' : r.id = id
      · subst hr'
        exact hun.appended hs.settled hmark hbs happ
      · exact hother hr' hun
  | evicted result =>
    obtain ⟨older, victim, hrun, rfl⟩ := Pass.preemptOne_eq_some result
    have hsub : ∀ r ∈ older, r ∈ p.sched.running := fun r hr => by
      rw [hrun]
      exact List.mem_append_left _ hr
    exact ⟨fun r hr hstate => (h.sched r (hsub r hr) hstate).free _,
      fun e he hpre r hr hid hlen => (h.entries e he hpre r (hsub r hr) hid hlen).free _⟩
  | @resumed seq chunk already found cand pos room result =>
    have hmem := List.mem_of_findKey found
    rw [result]
    have hback : ∀ r ∈ p.sched.running.updateKey Sequence.id seq.id (Pass.resumed · chunk),
        ∃ a ∈ p.sched.running, a.id = r.id ∧ a.prompt = r.prompt
          ∧ (r.id = seq.id → a.state = .prefilling) ∧ (r.id ≠ seq.id → r = a) := by
      intro r hr
      rcases List.mem_updateKey hs.nodup_running hr with ⟨hr, hne⟩ | ⟨a, ha, hid, rfl⟩
      · exact ⟨r, hr, rfl, rfl, fun heq => absurd heq hne, fun _ => rfl⟩
      · obtain rfl : a = seq := List.eq_of_key_eq hs.nodup_running ha hmem hid
        refine ⟨a, ha, (Pass.resumed_id _ _).symm, (Pass.resumed_prompt _ _).symm,
          fun _ => (cand hs.nodup).1, fun hne => absurd (Pass.resumed_id _ _) hne⟩
    refine ⟨fun r hr hstate => ?_, fun e he hpre r hr hid hlen => ?_⟩
    · obtain ⟨a, ha, hid, -, hsame, hother⟩ := hback r hr
      show p.sched.cache.Unpublished r.id
      rw [← hid]
      by_cases heq : r.id = seq.id
      · exact h.sched a ha (hsame heq)
      · exact h.sched a ha (hother heq ▸ hstate)
    · obtain ⟨a, ha, hid', hprompt, hsame, -⟩ := hback r hr
      show p.sched.cache.Unpublished r.id
      rw [← hid']
      rcases List.mem_append.mp he with he | he
      · exact h.entries e he hpre a ha (hid'.trans hid) (hprompt ▸ hlen)
      · rw [List.mem_singleton.mp he] at hid
        exact h.sched a ha (hsame hid)
  | @admitted seq rest chunk c head first slot pos left room answer result =>
    have hmem : seq ∈ p.sched.waiting := head ▸ List.mem_cons_self
    obtain ⟨hstate, -, -⟩ := hs.atStart_of_zero hmem first
    obtain ⟨-, t, hadm⟩ := KvCacheManager.like_allocate_ok hs.settled answer
    obtain ⟨hcomp, hstage⟩ := Pass.prefilled_inStage hstate first left
    rw [result] at hmark hsingle hframe ⊢
    have hnew' : seq.prompt.length ≠ 1 → c.Unpublished seq.id := fun hlen =>
      .allocated hmark hsingle hlen answer
    have hold : ∀ r ∈ p.sched.running, p.sched.cache.Unpublished r.id → c.Unpublished r.id :=
      fun r hr => hframe (by
        show c.tables.lookup _ = _
        rw [hadm.tables, AList.lookup_insert_ne (hs.apart hr hmem)])
    refine ⟨fun r hr hpre => ?_, fun e he hpre r hr hid hlen => ?_⟩
    · rcases List.mem_append.mp hr with hr | hr
      · exact hold r hr (h.sched r hr hpre)
      · obtain rfl := List.mem_singleton.mp hr
        show c.Unpublished _
        rw [Pass.prefilled_id]
        refine hnew' (fun hone => ?_)
        -- the single token of such a prompt is through
        rcases hstage with ⟨-, hlt⟩ | ⟨hdec, -⟩
        · rw [hcomp, Pass.prefilled_prompt] at hlt
          omega
        · exact absurd (hpre.symm.trans hdec) (by simp)
    · rcases List.mem_append.mp hr with hr | hr
      · refine hold r hr (h.entries e ?_ hpre r hr hid hlen)
        exact List.mem_of_mem_concat he (fun heq => hs.apart hr hmem (hid.trans heq))
      · obtain rfl := List.mem_singleton.mp hr
        show c.Unpublished _
        rw [Pass.prefilled_id]
        rw [Pass.prefilled_prompt] at hlen
        exact hnew' hlen
  | @readmitted seq rest chunk head started slot pos left room result =>
    have hmem : seq ∈ p.sched.waiting := head ▸ List.mem_cons_self
    -- a sequence that comes back without an allocation holds no table
    have hnone : p.sched.cache.Unpublished seq.id := by
      rintro i b ⟨t, ht, -⟩
      rw [hs.absent hmem] at ht
      exact absurd ht (by simp)
    rw [result]
    refine ⟨fun r hr hpre => ?_, fun e he hpre r hr hid hlen => ?_⟩
    · rcases List.mem_append.mp hr with hr | hr
      · exact h.sched r hr hpre
      · obtain rfl := List.mem_singleton.mp hr
        show p.sched.cache.Unpublished _
        rw [Pass.prefilled_id]
        exact hnone
    · rcases List.mem_append.mp hr with hr | hr
      · refine h.entries e ?_ hpre r hr hid hlen
        exact List.mem_of_mem_concat he (fun heq => hs.apart hr hmem (hid.trans heq))
      · obtain rfl := List.mem_singleton.mp hr
        show p.sched.cache.Unpublished _
        rw [Pass.prefilled_id]
        exact hnone
  | putBack head available answer result =>
    exact absurd answer (hs.allocate_ne_error (head ▸ List.mem_cons_self) available)

end PassMove

/-- **Run lemma.** -/
theorem PassMoves.untouched {n bs : ℕ} {flag : Bool} {p p' : Pass KvCacheManager}
    (hm : PassMoves p p') (hbs : 1 ≤ bs) (hn : n ≤ 2 ^ 32) (hs : p.sched.Sound)
    (hc : KvCacheManager.Reachable True n bs flag p.sched.cache)
    (hsingle : Singles p'.sched.cache.trace) (h : p.Untouched) : p'.Untouched := by
  induction hm with
  | refl => exact h
  | tail hmoves hmove ih =>
    have hs' := PassMoves.sound hmoves hs
    have hc' := Service.cache_of_moves hmoves hc
    have hc'' := Service.cache_of_move hmove hc'
    obtain ⟨new, htr, -⟩ := hmove.cacheTrace hs'
    refine hmove.untouched hs' (hc''.marked hbs hn)
      ((hc''.blockSize hbs hn).trans (hc'.blockSize hbs hn).symm) hsingle (ih ?_)
    intro s p i b hmem
    exact hsingle s p i b (by rw [htr]; exact List.mem_append_right _ hmem)

namespace Service

variable {config : SchedulerConfig} {n bs firstId : ℕ} {flag : Bool}
  {v : Service KvCacheManager}

/-- Freeing tables adds releases to the history, and nothing else. -/
theorem freeAll_unpublished {q : SequenceId} (gone : List SequenceId) :
    ∀ {m : KvCacheManager}, m.Unpublished q → (m.freeAll gone).Unpublished q := by
  induction gone with
  | nil => exact fun h => h
  | cons id gone ih => exact fun h => ih (h.free id)

theorem freeAll_trace (gone : List SequenceId) :
    ∀ m : KvCacheManager, ∃ new, (m.freeAll gone).trace = new ++ m.trace
      ∧ ∀ e ∈ new, ∃ id, e = .released id := by
  induction gone with
  | nil => exact fun m => ⟨[], rfl, by simp⟩
  | cons id gone ih =>
    intro m
    obtain ⟨new, htr, hnew⟩ := ih (m.free id)
    obtain ⟨one, htr₁, hone⟩ := m.free_trace id
    refine ⟨new ++ one, ?_, fun e he => ?_⟩
    · show ((m.free id).freeAll gone).trace = _
      rw [htr, htr₁, List.append_assoc]
    · rcases List.mem_append.mp he with he | he
      · exact hnew e he
      · exact ⟨id, hone e he⟩

/-- **Step lemma** for everything but scheduling: a commit publishes blocks of
a sequence whose prompt is through, which nobody shares. -/
theorem Quietly.untouched {s s' : Scheduler KvCacheManager} (hq : Quietly s s') (hs : s.Sound)
    (hmark : s.cache.Marked) (h : s.Untouched) : s'.Untouched := by
  intro r' hr' hstate
  obtain ⟨r, hr, hends⟩ := hq.running r' hr'
  have hpre : r.state = .prefilling := by
    refine (hends.state.resolve_right ?_).symm.trans hstate
    rw [hstate]
    simp
  have hun := h r hr hpre
  rw [hends.id]
  rcases hq.cache with ⟨gone, hcache, -⟩ | ⟨a, ha, hdone, hcache⟩
  · rw [hcache]
    exact freeAll_unpublished gone hun
  obtain ⟨new, htr, hnew⟩ := s.cache.commitPrefill_events hs.settled.blockSize a.id a.prompt
  have htables :=
    (s.cache.commitPrefill_moves False hs.settled.tallied a.id a.prompt False.elim).2.tables
  rw [← hcache] at htr htables
  intro i b ho hp
  have ho := (KvCacheManager.occurs_congr htables).mp ho
  by_cases hpub : ∃ e ∈ new, KvCacheManager.PublishesBlock b e
  · obtain ⟨e, he, hb⟩ := hpub
    obtain ⟨j, c, rfl, hplace, -⟩ := hnew e he
    obtain rfl : c = b := hb
    have hne : (r.id, i) ≠ (a.id, j) := by
      intro heq
      obtain rfl : r = a := List.eq_of_key_eq hs.nodup_running hr ha (Prod.mk.inj heq).1
      have hres := hs.resident hr (by simp [hpre])
      rcases hres.stage with ⟨-, hlt⟩ | ⟨hdec, -⟩
      · exact absurd (of_decide_eq_true hdone) (not_le.mpr hlt)
      · exact absurd (hpre.symm.trans hdec) (by simp)
    exact hun i c ho (hmark.shared ho hplace hne)
  · exact hun i b ho (KvCacheManager.published_append _ htr (fun e he hb => hpub ⟨e, he, hb⟩) hp)

/-- The history of the cache only grows. -/
theorem cacheTrace_run (h : v.sched.Sound) (op : SchedulerOp) :
    ∃ new, (op.run v).sched.cache.trace = new ++ v.sched.cache.trace := by
  by_cases hop : op = .schedule
  · subst hop
    have hrun : ∀ {p' : Pass KvCacheManager}, PassMoves v.sched.pass p' →
        ∃ new, p'.sched.cache.trace = new ++ v.sched.cache.trace := by
      intro p' hm
      induction hm with
      | refl => exact ⟨[], rfl⟩
      | tail hmoves hmove ih =>
        obtain ⟨new, htr⟩ := ih
        obtain ⟨one, htr₁, -⟩ := hmove.cacheTrace (PassMoves.sound hmoves h)
        exact ⟨one ++ new, by rw [htr₁, htr, List.append_assoc]⟩
    exact hrun v.sched.passes_moves
  · rcases (quietly_run h hop).cache with ⟨gone, hcache, -⟩ | ⟨a, -, -, hcache⟩
    · obtain ⟨new, htr, -⟩ := freeAll_trace gone v.sched.cache
      exact ⟨new, by rw [hcache, htr]⟩
    · obtain ⟨new, htr, -⟩ :=
        v.sched.cache.commitPrefill_events h.settled.blockSize a.id a.prompt
      exact ⟨new, by rw [hcache, htr]⟩

/-- **Run lemma.** -/
theorem Reachable.untouched (hbs : 1 ≤ bs) (hn : n ≤ 2 ^ 32)
    (h : v.Reachable config (KvCacheManager.new n bs flag) firstId)
    (hsingle : Singles v.sched.cache.trace) : v.sched.Untouched := by
  induction h with
  | start => exact fun r hr => absurd hr List.not_mem_nil
  | @step v op hv ih =>
    have hs := (hv.sound hbs hn).sched
    have hc := hv.cache hbs hn
    have hbefore : Singles v.sched.cache.trace := by
      obtain ⟨new, htr⟩ := cacheTrace_run hs op
      intro s p i b hmem
      exact hsingle s p i b (by rw [htr]; exact List.mem_append_right _ hmem)
    by_cases hop : op = .schedule
    · subst hop
      exact (PassMoves.untouched v.sched.passes_moves hbs hn hs hc hsingle
        ⟨ih hbefore, fun e he => absurd he List.not_mem_nil⟩).sched
    · exact (quietly_run hs hop).untouched hs (hc.marked hbs hn) (ih hbefore)

/-- **An entry of a call writes to no published block** as long as nothing was
adopted, but for the one row of a prompt of one token. -/
theorem Reachable.spares_published (hbs : 1 ≤ bs) (hn : n ≤ 2 ^ 32)
    (h : v.Reachable config (KvCacheManager.new n bs flag) firstId)
    (hsingle : Singles v.sched.schedule.1.cache.trace) {e : ScheduledSequence}
    (he : e ∈ v.sched.schedule.2.scheduled) {r : Sequence}
    (hr : r ∈ v.sched.schedule.1.running) (hid : r.id = e.id) {q : ℕ}
    (hq : Span.Contains e.span q) {b : BlockId}
    (ho : v.sched.schedule.1.cache.Occurs r.id (q / bs) b)
    (hp : v.sched.schedule.1.cache.Published b) : r.prompt.length = 1 ∧ q = 0 := by
  have hs := (h.sound hbs hn).sched
  have hc := h.cache hbs hn
  have hstep : (SchedulerOp.schedule.run v).Reachable config (KvCacheManager.new n bs flag)
    firstId := h.step .schedule
  have hs' : v.sched.schedule.1.Sound := hs.schedule
  have hc' := hstep.cache hbs hn
  have hbefore : Singles v.sched.cache.trace := by
    obtain ⟨new, htr⟩ := cacheTrace_run hs .schedule
    intro s p i b hmem
    exact hsingle s p i b (by
      show _ ∈ (SchedulerOp.schedule.run v).sched.cache.trace
      rw [htr]
      exact List.mem_append_right _ hmem)
  have hun := PassMoves.untouched v.sched.passes_moves hbs hn hs hc hsingle
    ⟨h.untouched hbs hn hbefore, fun e he => absurd he List.not_mem_nil⟩
  have hsuits := hs.booked.suits e he (r.id, r.prompt, r.output)
    (List.mem_map.mpr ⟨r, List.mem_append_left _ hr, rfl⟩) hid
  rcases hsuits with ⟨hpre, hpos, hle⟩ | ⟨-, hone, hstart⟩
  · have hlen : r.prompt.length = 1 := by
      by_contra hne
      exact hun.entries e he hpre r hr hid hne _ b ho hp
    change e.startPosition + e.numTokens ≤ r.prompt.length at hle
    have hlt : q < e.startPosition + e.numTokens := hq.2
    omega
  · -- a decode step is behind the full chunks
    have ⟨t, ht, _⟩ := ho
    have hprompt : v.sched.schedule.1.cache.promptOf r.id = some r.prompt :=
      (hs'.running r hr).elim Resident.source (fun hsp => hsp.source t ht)
    obtain ⟨p, hpr, hfull⟩ := (hc'.marked hbs hn).full hp ho
    obtain rfl : r.prompt = p := Option.some.inj (hprompt.symm.trans hpr)
    rw [show (SchedulerOp.schedule.run v).sched.cache.blockSize = bs from
      hc'.blockSize hbs hn] at hfull
    have hge : r.prompt.length ≤ q := by
      have hfrom : e.startPosition ≤ q := hq.1
      change e.startPosition = r.prompt.length + r.output.length at hstart
      omega
    have hlt : q < (q / bs + 1) * bs := by
      rw [Nat.mul_comm]
      exact Nat.lt_mul_div_succ q hbs
    omega

/-- **Adopted blocks are computed again**, in every run, whatever the
configuration. Take an admission of a sequence, in any call of the run: it
adopts something exactly when the index has a block for the first chunk of
its prompt, and its prefill, which starts at 0, starts behind what was
adopted exactly when that is not so or the prompt is a single token. At every
later moment until it is evicted, `k` adopted blocks mean that the oldest
prefill entry starts where it should, and that no row but that of the last
position computes an adopted one again, exactly when `k = 0` or the prompt is
a single token. And in a run that adopts blocks at most for such prompts, no
entry of any call but the one of such a prompt writes to a block that is
published. -/
theorem adopted_blocks_recomputed (hbs : 1 ≤ bs) (hn : n ≤ 2 ^ 32)
    (h : v.Reachable config (KvCacheManager.new n bs flag) firstId) :
    (∀ p seq rest c outcome, PassMoves v.sched.pass p → p.sched.waiting = seq :: rest →
      seq.computedPrefixLen = 0 → 0 < seq.prompt.length →
      p.sched.cache.allocate seq.id seq.prompt = (c, .ok outcome) →
      outcome.cachedTokens = outcome.reused * bs ∧ c.reusedBlocks seq.id = outcome.reused
      ∧ (seq.computedPrefixLen = seq.prefillStart outcome.cachedTokens
        ↔ p.sched.cache.indexHit seq.prompt = false ∨ seq.prompt.length = 1))
    ∧ (∀ p r, PassMoves v.sched.pass p → r ∈ p.sched.running → r.state ≠ .finished →
      ((∃ e, (entriesSince r.id p.sched.trace).getLast? = some e ∧ e.isPrefill = true
          ∧ e.startPosition = r.prefillStart (p.sched.cache.reusedBlocks r.id * bs))
        ↔ p.sched.cache.reusedBlocks r.id = 0 ∨ r.prompt.length = 1)
      ∧ (¬ p.sched.Recomputes r (p.sched.cache.reusedBlocks r.id * bs)
        ↔ p.sched.cache.reusedBlocks r.id = 0 ∨ r.prompt.length = 1))
    ∧ (Singles v.sched.schedule.1.cache.trace →
      ∀ e ∈ v.sched.schedule.2.scheduled, ∀ r ∈ v.sched.schedule.1.running, r.id = e.id →
        ∀ q b, Span.Contains e.span q → v.sched.schedule.1.cache.Occurs r.id (q / bs) b →
        v.sched.schedule.1.cache.Published b → r.prompt.length = 1 ∧ q = 0) := by
  have hs := (h.sound hbs hn).sched
  have hmid : ∀ {p : Pass KvCacheManager}, PassMoves v.sched.pass p →
      p.sched.Sound ∧ KvCacheManager.Reachable True n bs flag p.sched.cache :=
    fun hp => ⟨PassMoves.sound hp hs, cache_of_moves hp (h.cache hbs hn)⟩
  refine ⟨fun p seq rest c outcome hp head first hpos ha => ?_, fun p r hp hr hlive => ?_,
    fun hsingle e he r hr hid q b hq ho hpub =>
      h.spares_published hbs hn hsingle he hr hid hq ho hpub⟩
  · obtain ⟨hsound, hc⟩ := hmid hp
    have hsize := hc.blockSize hbs hn
    obtain ⟨htokens, hreused, hhit⟩ := (hc.coherent hbs hn).allocate_reused
      (by rw [hsize]; exact hbs) ha
    have hlike : KvCacheManagerLike.allocate p.sched.cache seq.id seq.prompt = (c, .ok ()) := by
      show ((p.sched.cache.allocate seq.id seq.prompt).1,
        (p.sched.cache.allocate seq.id seq.prompt).2.map _) = _
      rw [ha]
      rfl
    obtain ⟨-, t, hadm⟩ := KvCacheManager.like_allocate_ok hsound.settled hlike
    have hc' : KvCacheManager.Reachable True n bs flag c := by
      have hstep := hc.step (.allocate seq.id seq.prompt) (fun _ => trivial)
      rw [show CacheOp.run p.sched.cache (.allocate seq.id seq.prompt) = c from
        congrArg Prod.fst ha] at hstep
      exact hstep
    have hle := (hc'.counted hbs hn seq.id t seq.prompt
      (by rw [hadm.tables, AList.lookup_insert])
      (by rw [hadm.promptOf, if_pos rfl])).2
    rw [hreused, hc'.blockSize hbs hn] at hle
    rw [hsize] at htokens
    refine ⟨htokens, hreused, ?_⟩
    rw [first, htokens, ← hhit]
    exact Sequence.zero_eq_prefillStart_iff hbs hpos hle
  · obtain ⟨hsound, hc⟩ := hmid hp
    have hres := hsound.resident hr hlive
    have hpos : 0 < r.prompt.length := hres.started.trans hres.stage.le
    obtain ⟨t, ht⟩ := hres.table
    have hle := (hc.counted hbs hn r.id t r.prompt ht hres.source).2
    rw [hc.blockSize hbs hn] at hle
    obtain ⟨e, hlast, hpre, hstart, hzero⟩ := hres.first_entry
    refine ⟨?_, ?_⟩
    · rw [← Sequence.zero_eq_prefillStart_iff hbs hpos hle]
      constructor
      · rintro ⟨x, hx, -, hxs⟩
        obtain rfl := Option.some.inj (hlast.symm.trans hx)
        exact hstart.symm.trans hxs
      · exact fun hzero => ⟨e, hlast, hpre, hstart.trans hzero⟩
    · constructor
      · intro hnot
        by_contra hcond
        obtain ⟨hk, hlen⟩ := not_or.mp hcond
        -- the oldest entry computes position 0
        refine hnot ⟨e, List.mem_of_getLast? hlast, hpre, 0, hzero, ?_, ?_⟩
        · exact Nat.mul_pos (Nat.pos_of_ne_zero hk) hbs
        · show 0 ≠ r.prompt.length - 1
          omega
      · rintro hcond ⟨x, -, -, q, -, hq, hlast⟩
        change q ≠ r.prompt.length - 1 at hlast
        rcases hcond with hk | hlen
        · rw [hk, Nat.zero_mul] at hq
          exact Nat.not_lt_zero q hq
        · omega

/-- Two requests with the same prompt of five tokens, in blocks of four. The
first is computed and published, and the second admitted. -/
def sharedPrompt : Service KvCacheManager :=
  SchedulerOp.runAll (.start {} (KvCacheManager.new 4 4 true) 1)
    [.addRequest [1, 2, 3, 4, 5] {} 0, .schedule, .commitPrefill ⟨1⟩,
      .addRequest [1, 2, 3, 4, 5] {} 0, .schedule]

/-- The second request in that state. -/
def sharingSequence : Sequence where
  id := ⟨2⟩
  prompt := [1, 2, 3, 4, 5]
  output := []
  computedPrefixLen := 5
  state := .decoding
  finishReason := none
  params := {}
  arrivedAt := 0

/-- **Adopted blocks are written again**: the second request adopts the block
of positions 0 to 3, and its prefill entry covers all five. -/
theorem adopted_block_recomputed :
    sharedPrompt.Reachable {} (KvCacheManager.new 4 4 true) 1
    ∧ sharingSequence ∈ sharedPrompt.sched.running
    ∧ sharedPrompt.sched.cache.reusedBlocks ⟨2⟩ = 1
    ∧ entriesSince ⟨2⟩ sharedPrompt.sched.trace = [⟨⟨2⟩, 5, 0, true⟩]
    ∧ sharingSequence.prefillStart 4 = 4
    ∧ sharedPrompt.sched.Recomputes sharingSequence 4 := by
  have hes : entriesSince ⟨2⟩ sharedPrompt.sched.trace = [⟨⟨2⟩, 5, 0, true⟩] := by
    decide +kernel
  refine ⟨Reachable.start.runAll _, by decide +kernel, by decide +kernel, hes, rfl,
    ⟨⟨2⟩, 5, 0, true⟩, ?_, rfl, 0, by decide, by decide, by decide⟩
  show _ ∈ entriesSince ⟨2⟩ sharedPrompt.sched.trace
  rw [hes]
  exact List.mem_cons_self

/-- The same run: one block was adopted, so the entries are not where they
should be. -/
theorem adopted_blocks_recomputed_sharedPrompt :
    ¬ ∃ e, (entriesSince ⟨2⟩ sharedPrompt.sched.trace).getLast? = some e ∧ e.isPrefill = true
      ∧ e.startPosition
        = sharingSequence.prefillStart (sharedPrompt.sched.cache.reusedBlocks ⟨2⟩ * 4) := by
  have hreach : sharedPrompt.Reachable {} (KvCacheManager.new 4 4 true) 1 :=
    Reachable.start.runAll _
  have hone : sharedPrompt.sched.cache.reusedBlocks ⟨2⟩ = 1 := by decide +kernel
  have hiff := ((adopted_blocks_recomputed (by decide) (by decide) hreach).2.1
    sharedPrompt.sched.pass sharingSequence .refl (by decide +kernel) (by decide)).1
  intro hstart
  rcases hiff.mp hstart with hzero | hlen
  · change sharedPrompt.sched.cache.reusedBlocks ⟨2⟩ = 0 at hzero
    exact absurd (hone.symm.trans hzero) (by decide)
  · exact absurd hlen (by decide)

end Service
