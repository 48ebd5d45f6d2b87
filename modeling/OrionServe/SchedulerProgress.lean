import OrionServe.SchedulerAlone
import OrionServe.SchedulerQueues

/-!
# Whether a call schedules anything

`schedule` is to return a batch whenever there is work. The decode pass gives
every decoder whose table can grow an entry and evicts for the others, and
the admission loop evicts until the head of the waiting queue fits: with the
running queue empty every block is free, and admission control has let in
nothing that exceeds the pool. So something is scheduled, unless the head of
the queue gets no tokens at all: its prompt is empty, or exceeds the budget
when prompts are not chunked, or is through because the sequence is finished.

With the prefill pass first there is one more case. When nothing is in the
middle of a prompt and nobody can be admitted, the decoders are on their own,
and the evictions of the decode pass can throw every one of them out.
-/

namespace Sequence

/-- An eviction does not finish a sequence. -/
theorem preempt_live {s : Sequence} (h : s.state ≠ .finished) :
    s.preempt.1.state ≠ .finished := by
  rcases s.preempt_cases with ⟨hs, -⟩ | ⟨hs, -⟩
  · rw [hs]
    simp
  · rw [hs]
    exact h

end Sequence

/-- A chunk of what is left of a prompt, within the room that is left. -/
theorem Pass.chunkFor_pos {config : SchedulerConfig} {remaining room : ℕ} (hleft : 0 < remaining)
    (hroom : 0 < room) (hfit : config.enableChunkedPrefill = false → remaining ≤ room) :
    ∃ chunk, chunkFor config remaining room = some chunk ∧ chunk ≠ 0 := by
  unfold chunkFor
  rcases hon : config.enableChunkedPrefill with - | -
  · exact ⟨remaining, by rw [if_neg (by simp), if_pos (hfit hon)], hleft.ne'⟩
  · exact ⟨_, by rw [if_pos rfl], (lt_min hleft hroom).ne'⟩

/-! ## Evictions -/

/-- The newest running sequences, by their ids, the newest first. -/
def Scheduler.newest (s : Scheduler KvCacheManager) (i : ℕ) : List SequenceId :=
  (s.running.reverse.take i).map Sequence.id

/-- **Evictions and nothing else**: `gone` is what was evicted, in the order
of the running queue. -/
structure Pass.Evicted (p p' : Pass KvCacheManager) (gone : List Sequence) : Prop where
  config : p'.sched.config = p.sched.config
  used : p'.used = p.used
  scheduled : p'.out.scheduled = p.out.scheduled
  running : p.sched.running = p'.sched.running ++ gone
  waiting : p'.sched.waiting = gone.map (fun q => q.preempt.1) ++ p.sched.waiting
  cache : p'.sched.cache = p.sched.cache.freeAll (gone.reverse.map Sequence.id)

namespace Pass.Evicted

variable {p p' p'' : Pass KvCacheManager} {gone gone' : List Sequence}

theorem refl (p : Pass KvCacheManager) : p.Evicted p [] :=
  ⟨rfl, rfl, rfl, (List.append_nil _).symm, rfl, rfl⟩

theorem of_preemptOne (h : p.preemptOne = some p') :
    ∃ victim, p.sched.running = p'.sched.running ++ [victim] ∧ p.Evicted p' [victim] := by
  obtain ⟨older, victim, hrun, rfl⟩ := preemptOne_eq_some h
  exact ⟨victim, hrun, rfl, rfl, rfl, hrun, rfl, rfl⟩

theorem trans (h : p.Evicted p' gone) (h' : p'.Evicted p'' gone') :
    p.Evicted p'' (gone' ++ gone) where
  config := h'.config.trans h.config
  used := h'.used.trans h.used
  scheduled := h'.scheduled.trans h.scheduled
  running := by rw [h.running, h'.running, List.append_assoc]
  waiting := by rw [h'.waiting, h.waiting, List.map_append, List.append_assoc]
  cache := by
    rw [h'.cache, h.cache, List.reverse_append, List.map_append]
    show List.foldl _ (List.foldl _ _ _) _ = List.foldl _ _ _
    rw [List.foldl_append]

end Pass.Evicted

/-- Nobody runs, and every block is free. -/
theorem Scheduler.Sound.freeBlocks_idle {s : Scheduler KvCacheManager} (h : s.Sound)
    (hidle : s.running = []) : s.cache.freeBlocks = s.cache.totalBlocks := by
  have hnone : ∀ q, s.cache.tables.lookup q = none := by
    intro q
    rcases ht : s.cache.tables.lookup q with - | t
    · rfl
    · have hmem := h.tables q t ht
      rw [hidle] at hmem
      exact absurd hmem List.not_mem_nil
  have hheld : s.cache.held = [] := by
    refine List.eq_nil_iff_forall_not_mem.mpr (fun b hb => ?_)
    obtain ⟨q, t, ht, -⟩ := AList.mem_flat.mp hb
    exact absurd ((hnone q).symm.trans ht) (by simp)
  have hexact := h.settled.exact
  unfold KvCacheManager.Exact at hexact
  rw [hheld] at hexact
  exact hexact.numFree_eq

/-! ## Who can be scheduled -/

/-- **A sequence that the admission loop can take**: it has a prompt that fits
the budget and the pool, and is not finished. -/
structure Scheduler.Startable (s : Scheduler KvCacheManager) (q : Sequence) : Prop where
  prompt : 0 < q.prompt.length
  budget : s.config.enableChunkedPrefill = false →
    q.prompt.length ≤ s.config.maxNumBatchedTokens
  fits : s.cache.blocksNeededFor q.prompt.length ≤ s.cache.totalBlocks
  live : q.state ≠ .finished

/-- Everybody in the queues can be scheduled. -/
def Scheduler.Ready (s : Scheduler KvCacheManager) : Prop := ∀ q ∈ s.queue, s.Startable q

namespace Pass

variable {p p' : Pass KvCacheManager} {gone : List Sequence}

/-- Evictions keep everybody ready. -/
theorem Evicted.ready (h : p.Evicted p' gone) (hready : p.sched.Ready) : p'.sched.Ready := by
  have hmoves := KvCacheManager.freeAll_moves False (gone.reverse.map Sequence.id) p.sched.cache
  have hneed : ∀ k, p'.sched.cache.blocksNeededFor k = p.sched.cache.blocksNeededFor k := by
    intro k
    unfold KvCacheManager.blocksNeededFor
    rw [h.cache, KvCacheManager.Moves.blockSize hmoves]
  have htotal : p'.sched.cache.totalBlocks = p.sched.cache.totalBlocks := by
    rw [h.cache, KvCacheManager.Moves.totalBlocks hmoves]
  have hkeep : ∀ {q q' : Sequence}, p.sched.Startable q → q'.prompt = q.prompt →
      q'.state ≠ .finished → p'.sched.Startable q' := by
    intro q q' hq hprompt hlive
    refine ⟨?_, ?_, ?_, hlive⟩
    · rw [hprompt]
      exact hq.prompt
    · rw [hprompt, h.config]
      exact hq.budget
    · rw [hprompt, hneed, htotal]
      exact hq.fits
  intro q hq
  rcases List.mem_append.mp hq with hq | hq
  · have hold := hready q (by
      unfold Scheduler.queue
      rw [h.running]
      exact List.mem_append_left _ (List.mem_append_left _ hq))
    exact hkeep hold rfl hold.live
  · rw [h.waiting] at hq
    rcases List.mem_append.mp hq with hq | hq
    · obtain ⟨a, ha, rfl⟩ := List.mem_map.mp hq
      have hold := hready a (by
        unfold Scheduler.queue
        rw [h.running]
        exact List.mem_append_left _ (List.mem_append_right _ ha))
      exact hkeep hold a.preempt_prompt (Sequence.preempt_live hold.live)
    · have hold := hready q (List.mem_append_right _ hq)
      exact hkeep hold rfl hold.live

/-! ## The admission loop -/

/-- What was scheduled stays scheduled. -/
theorem scheduled_ne_nil (hm : PassMoves p p') (h : p.out.scheduled ≠ []) :
    p'.out.scheduled ≠ [] := by
  obtain ⟨new, -, hout, -⟩ := PassMoves.recorded hm
  rw [hout]
  exact fun hnil => h (List.append_eq_nil_iff.mp hnil).1

/-- **The admission loop admits somebody** when somebody waits and a slot is
free. -/
theorem admissionLoop_ne_nil (p : Pass KvCacheManager) (hs : p.sched.Sound)
    (hready : p.sched.Ready) (slot : p.sched.running.length < p.sched.config.maxNumSeqs)
    (hused : p.used = 0) (room : 0 < p.budget) (hw : p.sched.waiting ≠ []) :
    p.admissionLoop.out.scheduled ≠ [] := by
  -- the head of the queue is at the start of its prompt, and gets a chunk
  have hhead : ∀ {p : Pass KvCacheManager} {seq rest}, p.sched.Sound → p.sched.Ready →
      p.sched.waiting = seq :: rest → p.used = 0 → 0 < p.budget → seq.computedPrefixLen = 0
        ∧ ∃ chunk, chunkFor p.sched.config (seq.promptLen - seq.computedPrefixLen)
          (p.budget - p.used) = some chunk ∧ chunk ≠ 0 := by
    intro p seq rest hs hready hw hused room
    have hmem : seq ∈ p.sched.waiting := hw ▸ List.mem_cons_self
    have hstart := hready seq (List.mem_append_right _ hmem)
    obtain ⟨-, hzero, -⟩ := hs.atStart hmem hstart.live
    refine ⟨hzero, ?_⟩
    rw [hzero, hused, Nat.sub_zero, Nat.sub_zero]
    exact chunkFor_pos hstart.prompt room hstart.budget
  fun_induction admissionLoop p with
  | case1 p hstop =>
    rcases hstop with hfull | hspent
    · exact absurd slot (not_lt.mpr hfull)
    · rw [hused] at hspent
      exact absurd room (not_lt.mpr hspent)
  | case2 p hgo hnil => exact absurd hnil hw
  | case3 p hgo seq rest hwait hc =>
    obtain ⟨-, chunk, hsome, -⟩ := hhead hs hready hwait hused room
    exact absurd (hc.symm.trans hsome) (by simp)
  | case4 p hgo seq rest hwait hc =>
    obtain ⟨-, chunk, hsome, hpos⟩ := hhead hs hready hwait hused room
    exact absurd (Option.some.inj (hc.symm.trans hsome)).symm hpos
  | case5 p hgo seq rest hwait chunk hc hpos hfirst hcan c hok ih =>
    refine scheduled_ne_nil (admissionLoop_moves _) ?_
    exact List.append_ne_nil_of_right_ne_nil _ (List.cons_ne_nil _ _)
  | case6 p hgo seq rest hwait chunk hc hpos hfirst hcan c e herr =>
    exact absurd herr (hs.allocate_ne_error (hwait ▸ List.mem_cons_self) hcan)
  | case7 p hgo seq rest hwait chunk hc hpos hfirst hcan hev =>
    -- nobody is left to evict, so everything is free
    have hidle : p.sched.running = [] := by
      unfold preemptOne at hev
      split at hev
      · next hlast => exact List.getLast?_eq_none_iff.mp hlast
      · exact absurd hev (by simp)
    have hfits := (hready seq (List.mem_append_right _ (hwait ▸ List.mem_cons_self))).fits
    rw [← hs.freeBlocks_idle hidle] at hfits
    exact absurd (decide_eq_true hfits) hcan
  | case8 p hgo seq rest hwait chunk hc hpos hfirst hcan p₁ hev ih =>
    obtain ⟨victim, hrun, hevicted⟩ := Evicted.of_preemptOne hev
    refine ih ((PassMove.evicted hev).sound hs) (hevicted.ready hready) ?_
      (hevicted.used.trans hused) ?_ ?_
    · rw [hevicted.config]
      refine lt_of_le_of_lt ?_ slot
      rw [hrun, List.length_append]
      exact Nat.le_add_right _ _
    · unfold budget
      rw [hevicted.config]
      exact room
    · rw [hevicted.waiting]
      exact List.cons_ne_nil _ _
  | case9 p hgo seq rest hwait chunk hc hpos hfirst ih =>
    exact absurd (hhead hs hready hwait hused room).1 hfirst

/-! ## The decode pass -/

/-- Nobody runs, so no table can grow. -/
theorem appendToken_idle (hs : p.sched.Sound) (hidle : p.sched.running = []) (id : SequenceId)
    (c : KvCacheManager) : KvCacheManagerLike.appendToken p.sched.cache id ≠ (c, .ok ()) := by
  intro hok
  obtain ⟨-, t, t', happ⟩ := KvCacheManager.like_appendToken_ok hs.settled hok
  have hmem := hs.tables id t happ.table
  rw [hidle] at hmem
  exact absurd hmem List.not_mem_nil

omit p p' gone in
/-- There is somebody to evict as long as somebody runs. -/
theorem preemptOne_eq_none {p : Pass KvCacheManager} (h : p.preemptOne = none) :
    p.sched.running = [] := by
  unfold preemptOne at h
  split at h
  · next hlast => exact List.getLast?_eq_none_iff.mp hlast
  · exact absurd h (by simp)

/-- **One turn of the decode loop**, over the real cache: an entry at once, or
an eviction and then an entry or not. A refusal leaves the cache as it
was. -/
theorem decodeLoop_cons (hs : p.sched.Sound) (room : p.used < p.budget) (id : SequenceId)
    (totalLen : ℕ) (cands : List (SequenceId × ℕ)) :
    (∃ c, KvCacheManagerLike.appendToken p.sched.cache id = (c, .ok ())
      ∧ p.decodeLoop ((id, totalLen) :: cands)
        = ((p.withCache c).emit (decodeEntry id totalLen)).decodeLoop cands)
    ∨ (∃ e, KvCacheManagerLike.appendToken p.sched.cache id = (p.sched.cache, .error e))
      ∧ ((p.preemptOne = none ∧ p.decodeLoop ((id, totalLen) :: cands) = p)
        ∨ ∃ p₁, p.preemptOne = some p₁
          ∧ ((∃ c, KvCacheManagerLike.appendToken p₁.sched.cache id = (c, .ok ())
              ∧ p.decodeLoop ((id, totalLen) :: cands)
                = ((p₁.withCache c).emit (decodeEntry id totalLen)).decodeLoop cands)
            ∨ (∃ e, KvCacheManagerLike.appendToken p₁.sched.cache id = (p₁.sched.cache, .error e))
              ∧ p.decodeLoop ((id, totalLen) :: cands) = p₁.decodeLoop cands)) := by
  obtain ⟨result, hloop⟩ : ∃ result, result = p.decodeLoop ((id, totalLen) :: cands) := ⟨_, rfl⟩
  rw [← hloop]
  unfold decodeLoop at hloop
  rw [if_neg (not_le.mpr room)] at hloop
  rcases happ : KvCacheManagerLike.appendToken p.sched.cache id with ⟨c, e | ⟨⟩⟩
  swap
  · rw [happ] at hloop
    exact Or.inl ⟨c, rfl, hloop⟩
  obtain rfl := KvCacheManager.like_appendToken_error hs.settled happ
  have hsame : p.withCache p.sched.cache = p := rfl
  simp only [happ, hsame] at hloop
  refine Or.inr ⟨⟨e, rfl⟩, ?_⟩
  rcases hev : p.preemptOne with - | p₁
  · rw [hev] at hloop
    exact Or.inl ⟨rfl, hloop⟩
  simp only [hev] at hloop
  refine Or.inr ⟨p₁, rfl, ?_⟩
  rcases happ₁ : KvCacheManagerLike.appendToken p₁.sched.cache id with ⟨c, e' | ⟨⟩⟩
  swap
  · rw [happ₁] at hloop
    exact Or.inl ⟨c, rfl, hloop⟩
  have hs₁ := (PassMove.evicted hev).sound hs
  obtain rfl := KvCacheManager.like_appendToken_error hs₁.settled happ₁
  rw [happ₁] at hloop
  exact Or.inr ⟨⟨e', rfl⟩, hloop⟩

/-- The decode loop takes nothing out of the batch. -/
theorem decodeLoop_keeps (cands : List (SequenceId × ℕ)) :
    ∀ p : Pass KvCacheManager, p.out.scheduled ≠ [] →
      (p.decodeLoop cands).out.scheduled ≠ [] := by
  induction cands with
  | nil => exact fun p h => h
  | cons c cands ih =>
    intro p h
    unfold decodeLoop
    split
    · exact h
    split
    · exact ih _ (List.append_ne_nil_of_left_ne_nil h _)
    split
    · exact h
    next p₁ hev =>
    have h₁ : p₁.out.scheduled ≠ [] := by
      obtain ⟨victim, -, hevicted⟩ := Evicted.of_preemptOne hev
      rw [hevicted.scheduled]
      exact h
    split
    · exact ih _ (List.append_ne_nil_of_left_ne_nil h₁ _)
    · exact ih _ h₁

omit p p' gone in
/-- An entry is something. -/
theorem decodeLoop_emit_ne_nil (p : Pass KvCacheManager) (e : ScheduledSequence)
    (cands : List (SequenceId × ℕ)) : ((p.emit e).decodeLoop cands).out.scheduled ≠ [] :=
  decodeLoop_keeps _ _ (List.append_ne_nil_of_right_ne_nil _ (List.cons_ne_nil _ _))

/-- **A decode pass that schedules nothing evicts and does nothing else**, and
it does evict when there is a decoder. -/
theorem decodeLoop_evicts (cands : List (SequenceId × ℕ)) :
    ∀ {p : Pass KvCacheManager}, p.sched.Sound → p.used < p.budget →
      (p.decodeLoop cands).out.scheduled = [] →
      ∃ gone, p.Evicted (p.decodeLoop cands) gone
        ∧ (cands ≠ [] → p.sched.running ≠ [] → gone ≠ []) := by
  induction cands with
  | nil => exact fun {p} _ _ _ => ⟨[], .refl p, fun h => absurd rfl h⟩
  | cons c cands ih =>
    obtain ⟨id, totalLen⟩ := c
    intro p hs room hnil
    rcases decodeLoop_cons hs room id totalLen cands with
      ⟨c, -, hloop⟩ | ⟨-, ⟨hev, hloop⟩ | ⟨p₁, hev, ⟨c, -, hloop⟩ | ⟨-, hloop⟩⟩⟩
    · rw [hloop] at hnil
      exact absurd hnil (decodeLoop_emit_ne_nil _ _ _)
    · rw [hloop]
      exact ⟨[], .refl p, fun _ hne => absurd (preemptOne_eq_none hev) hne⟩
    · rw [hloop] at hnil
      exact absurd hnil (decodeLoop_emit_ne_nil _ _ _)
    · rw [hloop] at hnil ⊢
      obtain ⟨victim, -, hevicted⟩ := Evicted.of_preemptOne hev
      have room₁ : p₁.used < p₁.budget := by
        unfold budget
        rw [hevicted.used, hevicted.config]
        exact room
      obtain ⟨gone, hgone, -⟩ := ih ((PassMove.evicted hev).sound hs) room₁ hnil
      exact ⟨_, hevicted.trans hgone, fun _ _ => List.append_ne_nil_of_right_ne_nil _
        (List.cons_ne_nil _ _)⟩

/-- **Whether the decode pass schedules anything**, by the cache before it:
the candidate at place `j` finds the `j` newest sequences gone, and one more
when it does not find room at once. -/
theorem decodeLoop_ne_nil_iff (cands : List (SequenceId × ℕ)) :
    ∀ {p : Pass KvCacheManager}, p.sched.Sound → p.used < p.budget → p.out.scheduled = [] →
      ((p.decodeLoop cands).out.scheduled ≠ []
        ↔ ∃ j c, cands[j]? = some c ∧ ∃ i, (i = j ∨ i = j + 1)
        ∧ ∃ m, KvCacheManagerLike.appendToken (p.sched.cache.freeAll (p.sched.newest i)) c.1
          = (m, .ok ())) := by
  induction cands with
  | nil => exact fun _ _ hnil => iff_of_false (fun h => h hnil) (by simp)
  | cons c cands ih =>
    obtain ⟨id, totalLen⟩ := c
    intro p hs room hnil
    rcases decodeLoop_cons hs room id totalLen cands with
      ⟨c, hok, hloop⟩ | ⟨⟨e, herr⟩, ⟨hev, hloop⟩ | ⟨p₁, hev, hrest⟩⟩
    · rw [hloop]
      exact iff_of_true (decodeLoop_emit_ne_nil _ _ _) ⟨0, _, rfl, 0, Or.inl rfl, c, hok⟩
    · -- nobody runs
      rw [hloop]
      have hidle := preemptOne_eq_none hev
      refine iff_of_false (fun h => h hnil) ?_
      rintro ⟨j, c, -, i, -, m, hok⟩
      have hnone : p.sched.newest i = [] := by
        unfold Scheduler.newest
        rw [hidle]
        simp
      rw [hnone] at hok
      exact appendToken_idle hs hidle _ _ hok
    obtain ⟨victim, hrun, hevicted⟩ := Evicted.of_preemptOne hev
    -- with the newest gone, the others follow
    have hnewest : ∀ i, p.sched.cache.freeAll (p.sched.newest (i + 1))
        = p₁.sched.cache.freeAll (p₁.sched.newest i) := by
      intro i
      unfold Scheduler.newest
      rw [hrun, List.reverse_append, hevicted.cache]
      rfl
    rcases hrest with ⟨c, hok, hloop⟩ | ⟨⟨e', herr'⟩, hloop⟩
    · rw [hloop]
      refine iff_of_true (decodeLoop_emit_ne_nil _ _ _) ⟨0, _, rfl, 1, Or.inr rfl, c, ?_⟩
      rw [hnewest 0]
      exact hok
    · have room₁ : p₁.used < p₁.budget := by
        unfold budget
        rw [hevicted.used, hevicted.config]
        exact room
      rw [hloop, ih ((PassMove.evicted hev).sound hs) room₁ (hevicted.scheduled.trans hnil)]
      constructor
      · rintro ⟨j, c, hc, i, hi, m, hok⟩
        refine ⟨j + 1, c, hc, i + 1, hi.imp (congrArg Nat.succ) (congrArg Nat.succ), m, ?_⟩
        rw [hnewest i]
        exact hok
      · rintro ⟨j, c, hc, i, hi, m, hok⟩
        rcases j with - | j
        · -- neither attempt of this turn succeeded
          obtain rfl := Option.some.inj hc
          rcases hi with rfl | rfl
          · exact absurd (herr.symm.trans hok) (by simp)
          · rw [hnewest 0] at hok
            exact absurd (herr'.symm.trans hok) (by simp)
        · have hpos : 0 < i := by omega
          obtain ⟨k, rfl⟩ := Nat.exists_eq_succ_of_ne_zero hpos.ne'
          refine ⟨j, c, hc, k, hi.imp Nat.succ.inj Nat.succ.inj, m, ?_⟩
          rw [← hnewest k]
          exact hok

end Pass

namespace Pass

variable {p : Pass KvCacheManager}

/-- The partial-prefill loop takes nothing out of the batch. -/
theorem partialLoop_keeps (cands : List (SequenceId × ℕ × ℕ)) :
    ∀ p : Pass KvCacheManager, p.out.scheduled ≠ [] →
      (p.partialLoop cands).out.scheduled ≠ [] := by
  induction cands with
  | nil => exact fun p h => h
  | cons c cands ih =>
    obtain ⟨id, already, remaining⟩ := c
    intro p h
    unfold partialLoop
    split
    · exact h
    split
    · exact ih p h
    split
    · exact ih p h
    split
    · exact ih p h
    · exact ih _ (List.append_ne_nil_of_left_ne_nil h _)

/-- **Somebody in the middle of a prompt gets a chunk of it.** -/
theorem schedulePartialPrefills_ne_nil (hs : p.sched.Sound) (hready : p.sched.Ready)
    (hused : p.used = 0) (room : 0 < p.budget)
    (hmid : ∃ r ∈ p.sched.running, r.state = .prefilling) :
    p.schedulePartialPrefills.out.scheduled ≠ [] := by
  obtain ⟨r, hr, hstate⟩ := hmid
  have hleft : ∀ {r : Sequence}, r ∈ p.sched.running → r.state = .prefilling →
      r.computedPrefixLen < r.prompt.length := by
    intro r hr hstate
    have hres := hs.resident hr (by simp [hstate])
    rcases hres.stage with ⟨-, hlt⟩ | ⟨hdec, -⟩
    · exact hlt
    · exact absurd (hdec.symm.trans hstate) (by simp)
  have hmem : (r.id, r.computedPrefixLen, r.remainingPrefill)
      ∈ partialCandidates p.sched.running := by
    refine List.mem_map_of_mem (List.mem_filter.mpr ⟨hr, ?_⟩)
    rw [hstate]
    refine Bool.and_eq_true_iff.mpr ⟨by simp, ?_⟩
    simpa [Sequence.isPrefillComplete] using hleft hr hstate
  unfold schedulePartialPrefills
  rcases hcands : partialCandidates p.sched.running with - | ⟨c, cands⟩
  · rw [hcands] at hmem
    exact absurd hmem List.not_mem_nil
  -- the first of them has the whole budget
  have hc : c ∈ partialCandidates p.sched.running := hcands ▸ List.mem_cons_self
  obtain ⟨q, hq, rfl⟩ := List.mem_map.mp hc
  obtain ⟨hq, hcond⟩ := List.mem_filter.mp hq
  have hqstate : q.state = .prefilling := of_decide_eq_true (Bool.and_eq_true_iff.mp hcond).1
  have hstart := hready q (List.mem_append_left _ hq)
  have hfits : ∃ chunk, chunkFor p.sched.config q.remainingPrefill (p.budget - p.used)
      = some chunk ∧ chunk ≠ 0 :=
    chunkFor_pos (Nat.sub_pos_of_lt (hleft hq hqstate)) (by rw [hused]; exact room)
      (fun hoff => (Nat.sub_le _ _).trans (by rw [hused]; exact hstart.budget hoff))
  obtain ⟨chunk, hchunk, hpos⟩ := hfits
  have hfind : p.sched.running.findKey Sequence.id q.id = some q :=
    (List.findKey_eq_some_iff hs.nodup_running).mpr ⟨hq, rfl⟩
  unfold partialLoop
  rw [if_neg (by rw [hused]; exact not_le.mpr room), hchunk]
  simp only [hpos, hfind, if_false]
  exact partialLoop_keeps _ _ (List.append_ne_nil_of_right_ne_nil _ (List.cons_ne_nil _ _))

end Pass

/-! ## Bounds of a run -/

section Running

variable {C : Type*} [KvCacheManagerLike C]

/-- **Step lemma.** Nobody is let in without a slot. -/
theorem PassMove.running_le {p p' : Pass C} (hm : PassMove p p')
    (hle : p.sched.running.length ≤ p.sched.config.maxNumSeqs) :
    p'.sched.running.length ≤ p.sched.config.maxNumSeqs := by
  cases hm with
  | refused answer result => rw [result]; exact hle
  | decoded room answer cand result => rw [result]; exact hle
  | evicted result =>
    obtain ⟨older, victim, hrun, rfl⟩ := Pass.preemptOne_eq_some result
    rw [hrun, List.length_append] at hle
    exact (Nat.le_add_right _ _).trans hle
  | resumed found cand pos room result =>
    rw [result]
    show (p.sched.running.updateKey _ _ _).length ≤ _
    rw [List.length_updateKey]
    exact hle
  | admitted head first slot pos left room answer result =>
    rw [result]
    show (p.sched.running ++ [_]).length ≤ _
    rw [List.length_append]
    exact slot
  | readmitted head started slot pos left room result =>
    rw [result]
    show (p.sched.running ++ [_]).length ≤ _
    rw [List.length_append]
    exact slot
  | putBack head available answer result => rw [result]; exact hle

/-- **Run lemma.** -/
theorem PassMoves.running_le {p p' : Pass C} (hm : PassMoves p p')
    (hle : p.sched.running.length ≤ p.sched.config.maxNumSeqs) :
    p'.sched.running.length ≤ p.sched.config.maxNumSeqs := by
  induction hm with
  | refl => exact hle
  | tail hms hm ih =>
    have hconfig := PassMoves.config hms
    rw [← hconfig] at ih ⊢
    exact hm.running_le ih

end Running

namespace Service

variable {config : SchedulerConfig} {n bs firstId : ℕ} {flag : Bool} {v : Service KvCacheManager}

/-- **What every operation but scheduling does to the roster**: it takes
sequences off, or adds one whose prompt fits the pool. -/
theorem roster_of_ne_schedule (v : Service KvCacheManager) {op : SchedulerOp}
    (hop : op ≠ .schedule) {x : SequenceId × List TokenId} (hx : x ∈ (op.run v).sched.roster) :
    x ∈ v.sched.roster
      ∨ v.sched.cache.blocksNeededFor x.2.length ≤ v.sched.cache.totalBlocks := by
  have hsub : ∀ {running waiting : List Sequence},
      (∀ r ∈ running, ∃ q ∈ v.sched.running, (q.id, q.prompt) = (r.id, r.prompt)) →
      (∀ w ∈ waiting, w ∈ v.sched.waiting) →
      x ∈ (running ++ waiting).map (fun q => (q.id, q.prompt)) → x ∈ v.sched.roster := by
    intro running waiting hrun hwait hx
    obtain ⟨q, hq, rfl⟩ := List.mem_map.mp hx
    rcases List.mem_append.mp hq with hq | hq
    · obtain ⟨a, ha, heq⟩ := hrun q hq
      exact List.mem_map.mpr ⟨a, List.mem_append_left _ ha, heq⟩
    · exact List.mem_map.mpr ⟨q, List.mem_append_right _ (hwait q hq), rfl⟩
  have hself : ∀ r ∈ v.sched.running,
      ∃ q ∈ v.sched.running, (q.id, q.prompt) = (r.id, r.prompt) :=
    fun r hr => ⟨r, hr, rfl⟩
  have hends : ∀ {q r : Sequence}, q.Ends r → (q.id, q.prompt) = (r.id, r.prompt) :=
    fun he => by rw [he.id, he.prompt]
  cases op with
  | addRequest prompt params now =>
    change x ∈ (v.sched.addRequest _).1.roster at hx
    rcases v.sched.addRequest_cases (.new ⟨v.nextId⟩ prompt params now) with
      ⟨e, he⟩ | ⟨hok, hfits⟩
    · rw [he] at hx
      exact Or.inl hx
    · rw [hok] at hx
      obtain ⟨q, hq, rfl⟩ := List.mem_map.mp hx
      rcases List.mem_append.mp hq with hq | hq
      · exact Or.inl (List.mem_map.mpr ⟨q, List.mem_append_left _ hq, rfl⟩)
      rcases List.mem_append.mp hq with hq | hq
      · exact Or.inl (List.mem_map.mpr ⟨q, List.mem_append_right _ hq, rfl⟩)
      · obtain rfl := List.mem_singleton.mp hq
        exact Or.inr hfits
  | schedule => exact absurd rfl hop
  | onToken id token eosIds =>
    change x ∈ (v.sched.onToken id token eosIds).1.roster at hx
    unfold Scheduler.onToken at hx
    split at hx
    · exact Or.inl hx
    · refine Or.inl (hsub (fun r hr => ?_) (fun w hw => hw) hx)
      rcases List.of_mem_updateKey hr with hr | ⟨a, ha, rfl⟩
      · exact hself r hr
      · exact ⟨a, ha, hends (a.ends_tokenReceived token eosIds)⟩
  | reapFinished =>
    exact Or.inl (hsub (fun r hr => hself r (List.mem_filter.mp hr).1) (fun w hw => hw) hx)
  | cancel id =>
    change x ∈ (v.sched.cancel id).1.roster at hx
    unfold Scheduler.cancel at hx
    split at hx
    · exact Or.inl (hsub hself (fun w hw => List.eraseP_subset hw) hx)
    split at hx
    · exact Or.inl (hsub (fun r hr => hself r (List.eraseP_subset hr)) (fun w hw => hw) hx)
    · exact Or.inl hx
  | expireTimeouts now =>
    change x ∈ (v.sched.expireTimeouts now).1.roster at hx
    unfold Scheduler.expireTimeouts at hx
    split at hx
    · exact Or.inl hx
    · refine Or.inl (hsub (fun r hr => ?_) (fun w hw => (List.mem_filter.mp hw).1) hx)
      obtain ⟨a, ha, rfl⟩ := List.mem_map.mp hr
      refine ⟨a, ha, ?_⟩
      split
      · exact hends (a.ends_finish _)
      · rfl
  | commitPrefill id =>
    change x ∈ (v.sched.commitPrefill id).roster at hx
    unfold Scheduler.commitPrefill at hx
    split at hx
    · exact Or.inl hx
    · split at hx
      · exact Or.inl hx
      · exact Or.inl hx

/-- **Every prompt in service fits the pool.** -/
theorem Reachable.fits (hbs : 1 ≤ bs) (hn : n ≤ 2 ^ 32)
    (h : v.Reachable config (KvCacheManager.new n bs flag) firstId) :
    ∀ x ∈ v.sched.roster, BlockTable.blocksRequired x.2.length bs ≤ n := by
  induction h with
  | start => exact fun x hx => absurd hx List.not_mem_nil
  | @step v op hv ih =>
    intro x hx
    by_cases hop : op = .schedule
    · subst hop
      refine ih x ?_
      have hcontents : v.sched.passes.sched.contents = v.sched.contents :=
        PassMoves.contents v.sched.passes_moves
      rw [← Scheduler.map_contents, ← hcontents, Scheduler.map_contents]
      exact hx
    · rcases v.roster_of_ne_schedule hop hx with hold | hfits
      · exact ih x hold
      · have hc := hv.cache hbs hn
        unfold KvCacheManager.blocksNeededFor at hfits
        rw [hc.blockSize hbs hn, hc.totalBlocks hbs hn] at hfits
        exact hfits

section Running

variable {C : Type*} [KvCacheManagerLike C]

/-- Between the calls nobody is let in. -/
theorem running_length_le (v : Service C) {op : SchedulerOp} (hop : op ≠ .schedule) :
    (op.run v).sched.running.length ≤ v.sched.running.length := by
  cases op with
  | addRequest prompt params now =>
    show (v.sched.addRequest _).1.running.length ≤ _
    rcases v.sched.addRequest_cases (.new ⟨v.nextId⟩ prompt params now) with ⟨e, he⟩ | ⟨hok, -⟩
    · rw [he]
    · rw [hok]
  | schedule => exact absurd rfl hop
  | onToken id token eosIds =>
    show (v.sched.onToken id token eosIds).1.running.length ≤ _
    unfold Scheduler.onToken
    split
    · exact le_rfl
    · show (v.sched.running.updateKey _ _ _).length ≤ _
      rw [List.length_updateKey]
  | reapFinished => exact List.length_filter_le _ _
  | cancel id =>
    show (v.sched.cancel id).1.running.length ≤ _
    unfold Scheduler.cancel
    split
    · exact le_rfl
    split
    · exact List.eraseP_sublist.length_le
    · exact le_rfl
  | expireTimeouts now =>
    show (v.sched.expireTimeouts now).1.running.length ≤ _
    unfold Scheduler.expireTimeouts
    split
    · exact le_rfl
    · show (v.sched.running.map _).length ≤ _
      rw [List.length_map]
  | commitPrefill id =>
    show (v.sched.commitPrefill id).running.length ≤ _
    unfold Scheduler.commitPrefill
    split
    · exact le_rfl
    · split <;> exact le_rfl

/-- **No more sequences run than the configuration allows.** -/
theorem Reachable.running_le {cache : C} {v : Service C}
    (h : v.Reachable config cache firstId) : v.sched.running.length ≤ config.maxNumSeqs := by
  induction h with
  | start => exact Nat.zero_le _
  | @step v op hv ih =>
    by_cases hop : op = .schedule
    · subst hop
      have hle := PassMoves.running_le v.sched.passes_moves (by
        show v.sched.running.length ≤ v.sched.config.maxNumSeqs
        rw [hv.config]
        exact ih)
      change _ ≤ v.sched.config.maxNumSeqs at hle
      rw [hv.config] at hle
      exact hle
    · exact (v.running_length_le hop).trans ih

end Running

end Service

/-! ## The batch is not empty -/

/-- **Some decoder can grow** when the decoders are on their own: the one at
place `j`, with the `j` or the `j + 1` newest running sequences evicted. -/
def Scheduler.GrowsByEvicting (s : Scheduler KvCacheManager) : Prop :=
  ∃ j c, (Pass.decodeCandidates s.running)[j]? = some c ∧ ∃ i, (i = j ∨ i = j + 1)
    ∧ ∃ m, KvCacheManagerLike.appendToken (s.cache.freeAll (s.newest i)) c.1 = (m, .ok ())

namespace Scheduler.Sound

variable {s : Scheduler KvCacheManager}

/-- Nobody is in the middle of a prompt, and nobody is finished: everybody
decodes. -/
theorem decoding (h : s.Sound) {r : Sequence} (hr : r ∈ s.running) (hlive : r.state ≠ .finished)
    (hno : r.state ≠ .prefilling) : r.state = .decoding := by
  have hres := h.resident hr hlive
  exact hres.stage.elim (fun hmid => absurd hmid.1 hno) And.left

/-- **With the decode pass first** something is scheduled. -/
theorem schedule_ne_nil_decode_first (h : s.Sound) (hready : s.Ready)
    (hfirst : s.config.prioritizeDecode = true) (hslots : 0 < s.config.maxNumSeqs)
    (hbudget : 0 < s.config.maxNumBatchedTokens)
    (hrunning : s.running.length ≤ s.config.maxNumSeqs) (hwork : s.hasWork = true) :
    s.schedule.2.scheduled ≠ [] := by
  intro hnil
  change s.passes.out.scheduled = [] at hnil
  unfold Scheduler.passes at hnil
  rw [if_pos hfirst] at hnil
  set p := s.pass.scheduleDecodes with hp
  have hpnil : p.out.scheduled = [] := by
    by_contra hne
    exact Pass.scheduled_ne_nil p.schedulePrefills_moves hne hnil
  obtain ⟨gone, hev, hgone⟩ := Pass.decodeLoop_evicts (Pass.decodeCandidates s.running)
    (p := s.pass) h hbudget hpnil
  have hev : s.pass.Evicted p gone := hev
  have hps : p.sched.Sound := PassMoves.sound s.pass.scheduleDecodes_moves h
  have hpready : p.sched.Ready := hev.ready hready
  have hbudget' : 0 < p.budget := by
    unfold Pass.budget
    rw [hev.config]
    exact hbudget
  -- nobody is left in the middle of a prompt
  have hmid : ∀ r ∈ p.sched.running, r.state ≠ .prefilling := by
    intro r hr hstate
    exact Pass.scheduled_ne_nil (Pass.admissionLoop_moves _)
      (Pass.schedulePartialPrefills_ne_nil hps hpready hev.used hbudget' ⟨r, hr, hstate⟩) hnil
  have hself : p.schedulePartialPrefills = p :=
    Pass.schedulePartialPrefills_eq_self (fun r hr => by simp [hmid r hr])
  have hlive : ∀ r ∈ s.running, r.state ≠ .finished := fun r hr =>
    (hready r (List.mem_append_left _ hr)).live
  have hwaits : p.sched.waiting ≠ [] ∧ p.sched.running.length < p.sched.config.maxNumSeqs := by
    rw [hev.config, hev.waiting]
    have hsplit : s.running = p.sched.running ++ gone := hev.running
    rcases List.eq_nil_or_concat gone with rfl | ⟨gone', q, rfl⟩
    · -- nobody was evicted, so nobody decodes, so nobody runs
      rw [List.append_nil] at hsplit
      have hidle : s.running = [] := by
        by_contra hne
        obtain ⟨r, hr⟩ := List.exists_mem_of_ne_nil _ hne
        have hdec := h.decoding hr (hlive r hr) (hmid r (hsplit ▸ hr))
        refine hgone ?_ hne rfl
        exact List.ne_nil_of_mem (List.mem_map_of_mem (List.mem_filter.mpr ⟨hr, by simp [hdec]⟩))
      refine ⟨fun hw => ?_, ?_⟩
      · have hw : s.waiting = [] := hw
        unfold Scheduler.hasWork at hwork
        rw [hw, hidle] at hwork
        exact absurd hwork (by simp)
      · rw [← hsplit, hidle]
        exact hslots
    · refine ⟨by simp, ?_⟩
      have hlen := congrArg List.length hsplit
      rw [List.concat_eq_append, List.length_append, List.length_append,
        List.length_singleton] at hlen
      show _ < s.config.maxNumSeqs
      omega
  refine Pass.admissionLoop_ne_nil p hps hpready hwaits.2 hev.used hbudget' hwaits.1 ?_
  rw [← hself]
  exact hnil

/-- **With the prefill pass first** something is scheduled unless the decoders
are on their own and none of them can grow. -/
theorem schedule_ne_nil_prefill_first_iff (h : s.Sound) (hready : s.Ready)
    (hfirst : s.config.prioritizeDecode = false) (hbudget : 0 < s.config.maxNumBatchedTokens) :
    s.schedule.2.scheduled ≠ [] ↔ (∃ r ∈ s.running, r.state = .prefilling)
      ∨ (s.waiting ≠ [] ∧ s.running.length < s.config.maxNumSeqs) ∨ s.GrowsByEvicting := by
  have hpasses : s.passes = s.pass.schedulePrefills.scheduleDecodes := by
    unfold Scheduler.passes
    rw [if_neg (by simp [hfirst])]
  show s.passes.out.scheduled ≠ [] ↔ _
  rw [hpasses]
  have hmore : s.pass.schedulePrefills.out.scheduled ≠ [] →
      s.pass.schedulePrefills.scheduleDecodes.out.scheduled ≠ [] :=
    Pass.scheduled_ne_nil (Pass.scheduleDecodes_moves _)
  by_cases hmid : ∃ r ∈ s.running, r.state = .prefilling
  · refine iff_of_true (hmore ?_) (Or.inl hmid)
    exact Pass.scheduled_ne_nil (Pass.admissionLoop_moves _)
      (Pass.schedulePartialPrefills_ne_nil (p := s.pass) h hready rfl hbudget hmid)
  have hself : s.pass.schedulePartialPrefills = s.pass :=
    Pass.schedulePartialPrefills_eq_self (fun r hr => by
      have hno : r.state ≠ .prefilling := fun hstate => hmid ⟨r, hr, hstate⟩
      simp [hno])
  by_cases hadmit : s.waiting ≠ [] ∧ s.running.length < s.config.maxNumSeqs
  · refine iff_of_true (hmore ?_) (Or.inr (Or.inl hadmit))
    unfold Pass.schedulePrefills
    rw [hself]
    exact Pass.admissionLoop_ne_nil s.pass h hready hadmit.2 rfl hbudget hadmit.1
  -- the admission loop stops at once
  have hstop : s.pass.schedulePrefills = s.pass := by
    unfold Pass.schedulePrefills
    rw [hself]
    by_cases hw : s.waiting = []
    · exact Pass.admissionLoop_of_waiting_nil hw
    · have hfull : s.pass.sched.config.maxNumSeqs ≤ s.pass.sched.running.length :=
        not_lt.mp (fun hslot => hadmit ⟨hw, hslot⟩)
      rw [Pass.admissionLoop, if_pos (Or.inl hfull)]
  rw [hstop]
  have hiff := Pass.decodeLoop_ne_nil_iff (Pass.decodeCandidates s.running) (p := s.pass) h
    hbudget rfl
  exact hiff.trans ⟨fun hg => Or.inr (Or.inr hg),
    fun hor => (hor.resolve_left hmid).resolve_left hadmit⟩

end Scheduler.Sound

namespace Service

variable {config : SchedulerConfig} {n bs firstId : ℕ} {flag : Bool} {v : Service KvCacheManager}

/-- **Whether a call schedules anything**, in any state of any run with work
outstanding and nobody running finished, when everybody in service can be
scheduled – a prompt that is not empty and, without chunking, within the
budget – and nobody waiting is finished. With the decode pass first it always
does. With the prefill pass first it does if and only if somebody is in the
middle of a prompt, somebody waits and a slot is free, or a decoder can
grow. -/
theorem schedule_nonempty_iff (hbs : 1 ≤ bs) (hn : n ≤ 2 ^ 32) (hvalid : config.validate = .ok ())
    (h : v.Reachable config (KvCacheManager.new n bs flag) firstId)
    (hwork : v.sched.hasWork = true) (hlive : ∀ q ∈ v.sched.queue, q.state ≠ .finished)
    (hprompts : ∀ q ∈ v.sched.queue, q.prompt ≠ []
      ∧ (config.enableChunkedPrefill = false → q.prompt.length ≤ config.maxNumBatchedTokens)) :
    v.sched.schedule.2.isEmpty = false ↔ config.prioritizeDecode = true
      ∨ (∃ r ∈ v.sched.running, r.state = .prefilling)
      ∨ (v.sched.waiting ≠ [] ∧ v.sched.running.length < config.maxNumSeqs)
      ∨ v.sched.GrowsByEvicting := by
  have hs := (h.sound hbs hn).sched
  have hc := h.cache hbs hn
  have hconfig := h.config
  obtain ⟨hslots, hbudget⟩ := SchedulerConfig.pos_of_validate hvalid
  have hready : v.sched.Ready := by
    intro q hq
    obtain ⟨hne, hfit⟩ := hprompts q hq
    refine ⟨List.length_pos_iff.mpr hne, by rw [hconfig]; exact hfit, ?_, hlive q hq⟩
    unfold KvCacheManager.blocksNeededFor
    rw [hc.blockSize hbs hn, hc.totalBlocks hbs hn]
    exact h.fits hbs hn (q.id, q.prompt) (List.mem_map_of_mem hq)
  have hempty : v.sched.schedule.2.isEmpty = false ↔ v.sched.schedule.2.scheduled ≠ [] := by
    unfold SchedulerOutput.isEmpty
    rw [← Bool.not_eq_true, List.isEmpty_iff]
  rw [hempty]
  rcases hfirst : config.prioritizeDecode with - | -
  · rw [hs.schedule_ne_nil_prefill_first_iff hready (by rw [hconfig]; exact hfirst)
      (by rw [hconfig]; exact hbudget), hconfig]
    simp
  · refine iff_of_true ?_ (Or.inl rfl)
    refine hs.schedule_ne_nil_decode_first hready ?_ ?_ ?_ ?_ hwork
    · rw [hconfig]
      exact hfirst
    · rw [hconfig]
      exact hslots
    · rw [hconfig]
      exact hbudget
    · rw [hconfig]
      exact h.running_le

/-- No chunking, and a prompt of five tokens for a budget of four, with a
short one behind it. -/
def tooLongForOneBatch : Service KvCacheManager :=
  SchedulerOp.runAll
    (.start { maxNumSeqs := 4, maxNumBatchedTokens := 4, enableChunkedPrefill := false }
      (KvCacheManager.new 4 4 true) 1)
    [.addRequest [1, 2, 3, 4, 5] {} 0, .addRequest [1, 2] {} 0]

/-- **A prompt that can never be scheduled is let in**, and stalls the one
behind it: nobody runs, every block is free, and nothing is scheduled. -/
theorem schedule_stalls :
    SchedulerConfig.validate
      { maxNumSeqs := 4, maxNumBatchedTokens := 4, enableChunkedPrefill := false } = .ok ()
    ∧ tooLongForOneBatch.Reachable
      { maxNumSeqs := 4, maxNumBatchedTokens := 4, enableChunkedPrefill := false }
      (KvCacheManager.new 4 4 true) 1
    ∧ tooLongForOneBatch.sched.hasWork = true ∧ tooLongForOneBatch.sched.running = []
    ∧ tooLongForOneBatch.sched.schedule.2.isEmpty = true
    ∧ tooLongForOneBatch.sched.schedule.1.waiting = tooLongForOneBatch.sched.waiting :=
  ⟨by decide, Reachable.start.runAll _, by decide +kernel, by decide +kernel, by decide +kernel,
    by decide +kernel⟩

/-- Two requests that can be scheduled. -/
theorem schedule_nonempty_iff_two :
    (SchedulerOp.runAll (.start {} (KvCacheManager.new 4 4 true) 1)
      [.addRequest [1, 2, 3, 4, 5] {} 0, .addRequest [1, 2] {} 0]).sched.schedule.2.isEmpty
      = false := by
  have hreach : (SchedulerOp.runAll (.start {} (KvCacheManager.new 4 4 true) 1)
      [.addRequest [1, 2, 3, 4, 5] {} 0, .addRequest [1, 2] {} 0]).Reachable {}
      (KvCacheManager.new 4 4 true) 1 := Reachable.start.runAll _
  exact (schedule_nonempty_iff (by decide) (by decide) (by decide) hreach (by decide +kernel)
    (by decide +kernel) (by decide +kernel)).mpr (Or.inl rfl)

end Service
