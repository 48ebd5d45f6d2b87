import OrionServe.SchedulerOldest
import OrionServe.SchedulerTokens
import OrionServe.SchedulerReuse

/-!
# What a call does for the head of the service

The sequence at the head of the order of service is the one that a call
should get on with. Whatever the passes evict, they evict from the other end,
so that the head is left alone unless nobody else is there to be evicted. The
passes are followed here one by one for what each does to the head: a decode
pass gives it its entry, or evicts everybody; a prefill pass gives it the
next chunk of its prompt, or lets it in; and the admission loop leaves it in
place as long as the second in the order of service fits next to it.

An eviction helps only if it frees a block. It does in a cache in which
nothing has been published: there no block is in two tables.
-/

namespace KvCacheManager

variable {n bs : ℕ} {flag : Bool} {m m' : KvCacheManager} {seq : SequenceId}

/-- **A cache that shares nothing**: one of a run in which nothing has been
published. -/
structure Unshared (n bs : ℕ) (flag : Bool) (m : KvCacheManager) : Prop where
  reachable : Reachable True n bs flag m
  unpublished : ∀ b, ¬ m.Published b

/-- **To free a sequence that has tokens frees a block** where nothing is
shared. -/
theorem Unshared.freeBlocks_free (hbs : 1 ≤ bs) (hn : n ≤ 2 ^ 32) (h : m.Unshared n bs flag)
    {t : BlockTable} (ht : m.tables.lookup seq = some t) (hpos : 0 < t.numTokens) :
    0 < (m.free seq).freeBlocks := by
  have hs : m.Settled := (h.reachable.settled hbs hn).2
  have hs' : (m.free seq).Settled := hs.free seq
  -- the first block of the table is in no other one
  have hnum : 0 < t.blocks.length := by
    have hsize : t.blocks.length = t.numTokens ⌈/⌉ m.blockSize := (hs.sized ht).numBlocks
    rw [hsize]
    refine Nat.pos_of_ne_zero (fun hzero => ?_)
    have hle := (ceilDiv_le_iff_le_mul hs.blockSize).mp hzero.le
    omega
  have hocc : m.Occurs seq 0 t.blocks[0] := ⟨t, ht, List.getElem?_eq_getElem hnum⟩
  have hgone : t.blocks[0] ∉ (m.free seq).tables.heldAt BlockTable.blocks m.tables.keys := by
    intro hmem
    obtain ⟨q, -, u, hu, hin⟩ := AList.mem_heldAt.mp hmem
    rw [lookup_free] at hu
    split at hu
    · exact absurd hu (by simp)
    next hq =>
    obtain ⟨j, hj⟩ := List.mem_iff_getElem?.mp hin
    refine h.unpublished _ ((h.reachable.marked hbs hn).shared hocc ⟨u, hu, hj⟩ (fun heq => ?_))
    exact hq (Prod.mk.inj heq).1.symm
  have hkeys : ∀ q u, m.tables.lookup q = some u → q ∈ m.tables.keys := by
    intro q u hu
    exact AList.mem_keys.mp (AList.lookup_isSome.mp (by rw [hu]; rfl))
  have hsub : ∀ q u, (m.free seq).tables.lookup q = some u → m.tables.lookup q = some u := by
    intro q u hu
    rw [lookup_free] at hu
    split at hu
    · exact absurd hu (by simp)
    · exact hu
  have hless : (m.free seq).footprint m.tables.keys < m.footprint m.tables.keys := by
    refine AList.footprint_lt (fun q u hq hu => ⟨hq, hsub q u hu⟩) ?_ hgone
    exact AList.mem_heldAt.mpr ⟨seq, hkeys seq t ht, t, ht, List.getElem_mem hnum⟩
  have hall := hs.exact.freeBlocks_add_footprint hkeys
  have hall' := hs'.exact.freeBlocks_add_footprint
    (fun q u hu => hkeys q u (hsub q u hu))
  have htotal : (m.free seq).totalBlocks = m.totalBlocks :=
    Moves.totalBlocks (free_moves False m seq)
  omega

end KvCacheManager

/-- Whoever runs and is not finished has a table that is not empty. -/
theorem Scheduler.Sound.table_pos {s : Scheduler KvCacheManager} (h : s.Sound) {r : Sequence}
    (hr : r ∈ s.running) (hlive : r.state ≠ .finished) :
    ∃ t, s.cache.tables.lookup r.id = some t ∧ 0 < t.numTokens := by
  have hres := h.resident hr hlive
  obtain ⟨decodes, -, -, -, -, -, -, t, ht, hnum⟩ := hres.entries
  have hstart := hres.started
  have hle := hres.stage.le
  exact ⟨t, ht, by omega⟩

namespace Pass

variable {n bs : ℕ} {flag : Bool} {p p' : Pass KvCacheManager} {head : Sequence}
  {rest : List Sequence}

/-! ## Entries -/

/-- What is in the batch stays in it. -/
theorem scheduled_subset (hm : PassMoves p p') : p.out.scheduled ⊆ p'.out.scheduled := by
  obtain ⟨new, -, hout, -⟩ := PassMoves.recorded hm
  rw [hout]
  exact List.subset_append_left _ _

/-- **A decoder with an entry is due a token.** -/
theorem due_of_entry (hs : p.sched.Sound) {d : ScheduledSequence} (hd : d ∈ p.out.scheduled)
    {r : Sequence} (hr : r ∈ p.sched.running) (hid : r.id = d.id) (hdec : r.state = .decoding) :
    p.sched.Due p.out.scheduled := by
  have hres := hs.resident hr (by simp [hdec])
  have hthrough : r.computedPrefixLen = r.prompt.length := by
    rcases hres.stage with ⟨hmid, -⟩ | ⟨-, heq⟩
    · exact absurd (hmid.symm.trans hdec) (by simp)
    · exact heq
  refine ⟨d, hd, Scheduler.takesToken_iff.mpr ⟨r, ?_, by rw [hdec]; simp, hthrough.ge⟩⟩
  exact (List.findKey_eq_some_iff hs.nodup_running).mpr ⟨hr, hid⟩

/-! ## The decode pass -/

/-- **The head stays** in a decode pass, unless everybody is evicted. -/
theorem decodeLoop_head {cands : List (SequenceId × ℕ)} (hs : p.sched.Sound)
    (hguard : p.DecodeGuard cands) (hrun : p.sched.running = head :: rest) :
    (p.decodeLoop cands).sched.running = []
    ∨ ∃ rest', (p.decodeLoop cands).sched.running = head :: rest' := by
  obtain ⟨gone, hgone, -, -⟩ := decodeLoop_gone cands hs hguard
  rcases hleft : (p.decodeLoop cands).sched.running with - | ⟨r, rest'⟩
  · exact Or.inl rfl
  · rw [hleft, hrun] at hgone
    obtain rfl := (List.cons.inj hgone).1
    exact Or.inr ⟨rest', rfl⟩

/-- **A decode pass that spends the budget** leaves somebody who is due a token:
the turn that spends it is the last one. -/
theorem decodeLoop_spent (cands : List (SequenceId × ℕ)) :
    ∀ {p : Pass KvCacheManager}, p.sched.Sound → p.DecodeGuard cands → p.used < p.budget →
      (p.decodeLoop cands).budget ≤ (p.decodeLoop cands).used →
      (p.decodeLoop cands).sched.Due (p.decodeLoop cands).out.scheduled := by
  induction cands with
  | nil => exact fun {p} _ _ room hspent => absurd room (not_lt.mpr hspent)
  | cons c cands ih =>
    obtain ⟨id, totalLen⟩ := c
    intro p hs hguard room hspent
    rcases decodeLoop_turn hs hguard with ⟨hloop, -⟩ | ⟨p', hturn, hs', hguard', hloop⟩
    · rw [hloop] at hspent
      exact absurd room (not_lt.mpr hspent)
    rw [hloop] at hspent ⊢
    by_cases room' : p'.used < p'.budget
    · exact ih hs' hguard' room' hspent
    -- nothing comes after this turn, and it has made an entry
    have hstop : p'.decodeLoop cands = p' := by
      rcases cands with - | ⟨c, cands⟩
      · rfl
      · unfold decodeLoop
        rw [if_pos (not_lt.mp room')]
    have hentry : ∀ {q : Pass KvCacheManager} {m : KvCacheManager}, q.sched.Sound →
        q.DecodeGuard ((id, totalLen) :: cands) → q.sched.cache.appendToken id = (m, .ok ()) →
        p' = (q.withCache m).emit (decodeEntry id totalLen) → p'.sched.Due p'.out.scheduled := by
      rintro q m hq hguardq hok rfl
      obtain ⟨-, -, -, ⟨t, ht⟩, -⟩ := hq.settled.append_ok hok
      obtain ⟨r, hr, hid⟩ := List.mem_map.mp (hq.tables id t ht)
      refine due_of_entry hs' (d := decodeEntry id totalLen) ?_ hr hid
        (hguardq hq.nodup _ List.mem_cons_self r hr hid).1
      exact List.mem_append_right _ (List.mem_singleton.mpr rfl)
    rw [hstop]
    cases hturn with
    | grown answer result => exact hentry hs hguard answer result
    | @evicted p₁ e refusal eviction next =>
      have hs₁ := (PassMove.evicted eviction).sound hs
      obtain ⟨victim, hrun, hevicted⟩ := Evicted.of_preemptOne eviction
      rcases next with ⟨m, answer, result⟩ | ⟨-, rfl⟩
      · refine hentry hs₁ ?_ answer result
        refine hguard.mono (PassMove.evicted eviction).ids ?_ (List.Subset.refl _)
        rw [hrun]
        exact List.subset_append_left _ _
      · refine absurd ?_ room'
        unfold budget
        rw [hevicted.used, hevicted.config]
        exact room

/-- **The head decodes first**: it is given an entry and stays, or everybody is
evicted. If its table cannot grow, the newest sequence is evicted, and that
makes room unless it is the head itself. -/
theorem decodeLoop_serves {cands : List (SequenceId × ℕ)} (hbs : 1 ≤ bs) (hn : n ≤ 2 ^ 32)
    (hs : p.sched.Sound) (hu : p.sched.cache.Unshared n bs flag)
    (hguard : p.DecodeGuard ((head.id, head.totalLen) :: cands)) (room : p.used < p.budget)
    (hlive : ∀ r ∈ p.sched.running, r.state ≠ .finished)
    (hrun : p.sched.running = head :: rest) (hdec : head.state = .decoding) :
    (p.decodeLoop ((head.id, head.totalLen) :: cands)).sched.running = []
    ∨ (∃ rest', (p.decodeLoop ((head.id, head.totalLen) :: cands)).sched.running = head :: rest')
      ∧ ∃ d ∈ (p.decodeLoop ((head.id, head.totalLen) :: cands)).out.scheduled,
        d.id = head.id := by
  refine (decodeLoop_head hs hguard hrun).imp_right (fun hhead => ⟨hhead, ?_⟩)
  rcases decodeLoop_turn hs hguard with ⟨-, hstop⟩ | ⟨p', hturn, hs', hguard', hloop⟩
  · rcases hstop with hspent | hnone
    · exact absurd room (not_lt.mpr hspent)
    · exact absurd (hrun.symm.trans hnone) (by simp)
  rw [hloop] at hhead ⊢
  have hkeep := scheduled_subset (decodeLoop_moves cands hguard')
  have hentry : ∀ {q : Pass KvCacheManager},
      p' = q.emit (decodeEntry head.id head.totalLen) →
      ∃ d ∈ (p'.decodeLoop cands).out.scheduled, d.id = head.id := by
    rintro q rfl
    refine ⟨decodeEntry head.id head.totalLen, hkeep ?_, rfl⟩
    exact List.mem_append_right _ (List.mem_singleton.mpr rfl)
  cases hturn with
  | grown answer result => exact hentry result
  | @evicted p₁ e refusal eviction next =>
    rcases next with ⟨m, answer, result⟩ | ⟨⟨e', refusal'⟩, rfl⟩
    · exact hentry result
    -- the victim is not the head, or nobody would be left
    obtain ⟨older, victim, hsplit, rfl⟩ := preemptOne_eq_some eviction
    obtain ⟨gone, hgone, -, -⟩ := decodeLoop_gone cands hs' hguard'
    obtain ⟨rest', hrest'⟩ := hhead
    have holder : head ∈ older := by
      have hgone' : older = _ ++ gone := hgone
      rw [hgone', hrest']
      exact List.mem_append_left _ List.mem_cons_self
    have hne : head.id ≠ victim.id :=
      List.key_ne_of_append (hsplit ▸ hs.nodup_running) holder (List.mem_singleton_self _)
    obtain ⟨t, ht, -⟩ := hs.table_pos (hrun ▸ List.mem_cons_self) (by rw [hdec]; simp)
    obtain ⟨u, hu', hpos⟩ := hs.table_pos (hsplit ▸ List.mem_append_right _ List.mem_cons_self)
      (hlive victim (hsplit ▸ List.mem_append_right _ List.mem_cons_self))
    have hkept : (p.sched.cache.free victim.id).tables.lookup head.id = some t := by
      rw [KvCacheManager.lookup_free, if_neg hne, ht]
    have hfree := hu.freeBlocks_free hbs hn hu' hpos
    rcases ((hs.settled.free victim.id).append_refused refusal') with hnone | ⟨-, hnofree⟩
    · exact absurd (hnone.symm.trans hkept) (by simp)
    · exact absurd hnofree hfree.ne'

/-! ## The partial prefills -/

/-- The partial prefills leave a head that decodes alone. -/
theorem schedulePartialPrefills_front (hs : p.sched.Sound) (hrun : p.sched.running = head :: rest)
    (hdec : head.state ≠ .prefilling) :
    ∃ rest', p.schedulePartialPrefills.sched.running = head :: rest' := by
  refine p.schedulePartialPrefills_resumes.front [head] rest hrun (fun c hc hmem => ?_)
  obtain ⟨r, hr, rfl⟩ := List.mem_map.mp hc
  obtain ⟨hr, hmid⟩ := List.mem_filter.mp hr
  have hid : r.id = head.id := List.mem_singleton.mp hmem
  obtain rfl : r = head := List.eq_of_key_eq hs.nodup_running hr (hrun ▸ List.mem_cons_self) hid
  exact hdec (of_decide_eq_true (Bool.and_eq_true_iff.mp hmid).1)

/-- **A head in the middle of its prompt goes on first.** -/
theorem schedulePartialPrefills_serves (hs : p.sched.Sound)
    (hrun : p.sched.running = head :: rest) (hmid : head.state = .prefilling)
    (hleft : head.computedPrefixLen < head.prompt.length) (room : p.used < p.budget) {chunk : ℕ}
    (hc : chunkFor p.sched.config head.remainingPrefill (p.budget - p.used) = some chunk)
    (hpos : chunk ≠ 0) :
    (∃ rest', p.schedulePartialPrefills.sched.running = resumed head chunk :: rest')
    ∧ ∃ d ∈ p.schedulePartialPrefills.out.scheduled, d.id = head.id := by
  obtain ⟨cands, hcands⟩ : ∃ cands, partialCandidates p.sched.running
      = (head.id, head.computedPrefixLen, head.remainingPrefill) :: cands :=
    ⟨_, hrun ▸ partialCandidates_cons hmid hleft rest⟩
  have hguard := p.partialGuard_candidates hs.nodup
  rw [hcands] at hguard
  set p₁ : Pass KvCacheManager := ({ p with
    sched := { p.sched with running := resumed head chunk :: rest } } : Pass KvCacheManager).emit
    ⟨head.id, chunk, head.computedPrefixLen, true⟩ with hp₁
  have hloop : p.schedulePartialPrefills = p₁.partialLoop cands := by
    have hfind : p.sched.running.findKey Sequence.id head.id = some head :=
      (List.findKey_eq_some_iff hs.nodup_running).mpr ⟨hrun ▸ List.mem_cons_self, rfl⟩
    have hupdate : p.sched.running.updateKey Sequence.id head.id (resumed · chunk)
        = resumed head chunk :: rest := by
      rw [hrun]
      simp [List.updateKey]
    unfold schedulePartialPrefills
    rw [hcands]
    simp only [partialLoop, if_neg (not_le.mpr room), hc, if_neg hpos, hfind, hupdate, hp₁]
  have hrest : p₁.Resumes (p₁.partialLoop cands) cands := by
    refine partialLoop_calm cands (fun c hcand => ?_)
    have hmem : c ∈ partialCandidates p.sched.running := hcands ▸ List.mem_cons_of_mem _ hcand
    obtain ⟨r, hr, rfl⟩ := List.mem_map.mp hmem
    have hids : p₁.sched.running.map Sequence.id = p.sched.running.map Sequence.id := by
      show (resumed head chunk).id :: rest.map Sequence.id = _
      rw [hrun, resumed_id]
      rfl
    rw [hids]
    exact List.mem_map_of_mem (List.mem_filter.mp hr).1
  rw [hloop]
  refine ⟨hrest.front [resumed head chunk] rest rfl (fun c hcand hmem => ?_), ?_⟩
  · have hid : c.1 = head.id := (List.mem_singleton.mp hmem).trans (resumed_id head chunk)
    have hin : c.1 ∈ cands.map Prod.fst := List.mem_map_of_mem hcand
    rw [hid] at hin
    exact (List.nodup_cons.mp hguard.1).1 hin
  · obtain ⟨es, hes, -⟩ := hrest.scheduled
    refine ⟨⟨head.id, chunk, head.computedPrefixLen, true⟩, ?_, rfl⟩
    rw [hes]
    exact List.mem_append_left _ (List.mem_append_right _ (List.mem_singleton.mpr rfl))

/-! ## The admissions -/

/-- **Whoever waits at the head of the service is let in**, with a chunk of its
prompt, unless prompts are not chunked and there is no room for all of it. -/
theorem admissionLoop_serves (hs : p.sched.Sound) (hstart : p.sched.Startable head)
    (slot : 0 < p.sched.config.maxNumSeqs) (room : p.used < p.budget)
    (hidle : p.sched.running = []) (hw : p.sched.waiting = head :: rest) :
    (p.admissionLoop = p ∧ p.sched.config.enableChunkedPrefill = false
      ∧ p.budget - p.used < head.prompt.length)
    ∨ ∃ chunk c, chunk ≠ 0 ∧ chunk ≤ head.prompt.length
      ∧ KvCacheManagerLike.allocate p.sched.cache head.id head.prompt = (c, .ok ())
      ∧ p.admissionLoop = ((p.withCache c).bringIn head rest chunk).admissionLoop
      ∧ PassMove p ((p.withCache c).bringIn head rest chunk) := by
  have hmem : head ∈ p.sched.waiting := hw ▸ List.mem_cons_self
  obtain ⟨-, hzero, -⟩ := hs.atStart hmem hstart.live
  have hall : head.promptLen - head.computedPrefixLen = head.prompt.length := by
    rw [hzero, Nat.sub_zero]
    rfl
  by_cases hfit : p.sched.config.enableChunkedPrefill = false
      → head.prompt.length ≤ p.budget - p.used
  swap
  · obtain ⟨hoff, hlong⟩ := Classical.not_imp.mp hfit
    refine Or.inl ⟨admissionLoop_blocked hw (fun chunk hc => ?_), hoff, not_le.mp hlong⟩
    unfold chunkFor at hc
    rw [hall, hoff, if_neg (by simp), if_neg hlong] at hc
    exact absurd hc (by simp)
  obtain ⟨chunk, hc, hpos⟩ : ∃ chunk, chunkFor p.sched.config head.prompt.length
      (p.budget - p.used) = some chunk ∧ chunk ≠ 0 :=
    chunkFor_pos hstart.prompt (Nat.sub_pos_of_lt room) hfit
  rw [← hall] at hc
  have hcan : KvCacheManagerLike.canAllocate p.sched.cache head.promptLen = true := by
    have hfits := hstart.fits
    rw [← hs.freeBlocks_idle hidle] at hfits
    exact decide_eq_true hfits
  have hslot : p.sched.running.length < p.sched.config.maxNumSeqs := by
    rw [hidle]
    exact slot
  rcases ha : KvCacheManagerLike.allocate p.sched.cache head.id head.prompt with ⟨c, e | ⟨⟩⟩
  · exact absurd ha (hs.allocate_ne_error hmem hcan)
  · have hle := chunkFor_le hc
    have hle' : chunk ≤ head.prompt.length := hle.1.trans hall.le
    exact Or.inr ⟨chunk, c, hpos, hle', rfl,
      admissionLoop_admit hslot room hw hc hpos hzero hcan ha,
      .admitted hw hzero hslot (Nat.pos_of_ne_zero hpos) hle' hle.2 ha rfl⟩

/-- **An admission loop that evicts nobody** adds to the running queue. -/
theorem admissionLoop_adds (p : Pass KvCacheManager)
    (h : p.admissionLoop.out.preempted = p.out.preempted) :
    ∃ new, p.admissionLoop.sched.running = p.sched.running ++ new := by
  fun_induction admissionLoop p with
  | case1 p hstop => exact ⟨[], (List.append_nil _).symm⟩
  | case2 p hgo hnil => exact ⟨[], (List.append_nil _).symm⟩
  | case3 p hgo seq rest hw hc => exact ⟨[], (List.append_nil _).symm⟩
  | case4 p hgo seq rest hw hc => exact ⟨[], (List.append_nil _).symm⟩
  | case5 p hgo seq rest hw chunk hc hpos hfirst hcan c hok ih =>
    obtain ⟨new, hnew⟩ := ih h
    exact ⟨prefilled seq chunk :: new, by rw [hnew]; exact List.append_assoc _ [_] new⟩
  | case6 p hgo seq rest hw chunk hc hpos hfirst hcan c e herr =>
    exact ⟨[], (List.append_nil _).symm⟩
  | case7 p hgo seq rest hw chunk hc hpos hfirst hcan hev => exact ⟨[], (List.append_nil _).symm⟩
  | case8 p hgo seq rest hw chunk hc hpos hfirst hcan p₁ hev ih =>
    -- the eviction is on record
    obtain ⟨new, -, -, hpre⟩ := PassMoves.recorded (admissionLoop_moves p₁)
    obtain ⟨older, victim, -, rfl⟩ := preemptOne_eq_some hev
    rw [hpre, List.append_assoc] at h
    exact absurd (List.append_cancel_left (h.trans (List.append_nil _).symm)) (by simp)
  | case9 p hgo seq rest hw chunk hc hpos hfirst ih =>
    obtain ⟨new, hnew⟩ := ih h
    exact ⟨prefilled seq chunk :: new, by rw [hnew]; exact List.append_assoc _ [_] new⟩

/-- **What keeps the head of the running queue safe** in an admission loop:
nobody waits, no slot is free, the second in the order of service fits next to
the head, or the loop evicts nobody. -/
def HeadSafe (p : Pass KvCacheManager) : Prop :=
  p.sched.waiting = [] ∨ p.sched.config.maxNumSeqs ≤ p.sched.running.length
  ∨ (∃ first second rest, p.sched.roster = first :: second :: rest
    ∧ p.sched.cache.blocksNeededFor second.2.length + p.sched.cache.footprint [first.1]
      ≤ p.sched.cache.totalBlocks)
  ∨ p.admissionLoop.out.preempted = p.out.preempted

/-- And then it stays. -/
theorem admissionLoop_head (hs : p.sched.Sound) (hsafe : p.HeadSafe)
    (hrun : p.sched.running = head :: rest) :
    ∃ rest', p.admissionLoop.sched.running = head :: rest' := by
  rcases hsafe with hnone | hfull | ⟨first, second, others, hroster, hfits⟩ | hcalm
  · rw [admissionLoop_of_waiting_nil hnone]
    exact ⟨rest, hrun⟩
  · have hstop : p.admissionLoop = p := by
      rw [admissionLoop, if_pos (Or.inl hfull)]
    rw [hstop]
    exact ⟨rest, hrun⟩
  · have hlen : [first].length ≤ p.sched.running.length := by
      rw [hrun]
      exact Nat.succ_le_succ (Nat.zero_le _)
    have hqueue : p.sched.roster = [first] ++ second :: others := hroster
    obtain ⟨-, htake⟩ := admissionLoop_keeps p ⟨hs, hqueue, hfits⟩ hlen
    rw [hrun] at htake
    rcases hleft : p.admissionLoop.sched.running with - | ⟨r, rest'⟩
    · rw [hleft] at htake
      exact absurd htake (by simp)
    · rw [hleft] at htake
      obtain rfl := (List.cons.inj htake).1
      exact ⟨rest', rfl⟩
  · obtain ⟨new, hnew⟩ := p.admissionLoop_adds hcalm
    exact ⟨rest ++ new, by rw [hnew, hrun]; rfl⟩

end Pass
