import OrionServe.SchedulerHeadway

/-!
# Where the head of the service stands

Between two turns of a workload nobody is finished, everybody can be scheduled
and nothing has been published: `Serving` says so, and every pass keeps it.

The head of the order of service is ahead of its next token by the part of its
prompt that is to be read. A decoder is ahead by more than its whole prompt:
it gets its token in the next call or is evicted in it, and then starts again
from its prompt. What the others have to read counts as well: it gets less in
a call that reads and evicts nobody.
-/

variable {n bs : ℕ} {flag : Bool}

namespace Sequence

/-- How far a sequence is from its next token. -/
def ahead (q : Sequence) : ℕ :=
  if q.state = .decoding then q.prompt.length + 1 else q.remainingPrefill

theorem ahead_decoding {q : Sequence} (h : q.state = .decoding) :
    q.ahead = q.prompt.length + 1 := if_pos h

theorem ahead_le {q : Sequence} (h : q.state ≠ .decoding) : q.ahead ≤ q.prompt.length := by
  unfold ahead
  rw [if_neg h]
  exact Nat.sub_le _ _

/-- A chunk that ends the prompt or brings its end nearer. -/
theorem InStage.decoding_or {q : Sequence} (h : q.InStage) {k : ℕ}
    (hk : k < q.computedPrefixLen) : q.state = .decoding ∨ q.ahead < q.prompt.length - k := by
  rcases h with ⟨hmid, hlt⟩ | ⟨hdec, -⟩
  · refine Or.inr ?_
    unfold ahead remainingPrefill
    rw [if_neg (by rw [hmid]; simp)]
    omega
  · exact Or.inl hdec

end Sequence

namespace Scheduler

/-- How far the head of the order of service is from its next token. -/
def ahead {C : Type*} (s : Scheduler C) : ℕ := s.queue.head?.elim 0 Sequence.ahead

/-- What there is to read of the prompts in service. -/
def unread {C : Type*} (s : Scheduler C) : ℕ := (s.queue.map Sequence.remainingPrefill).sum

/-- **A workload between two turns.** -/
structure Serving (n bs : ℕ) (flag : Bool) (s : Scheduler KvCacheManager) : Prop where
  sound : s.Sound
  cache : s.cache.Unshared n bs flag
  ready : s.Ready
  /-- Without chunks nobody is in the middle of its prompt. -/
  whole : s.config.enableChunkedPrefill = false → ∀ r ∈ s.running, r.state ≠ .prefilling
  slots : 0 < s.config.maxNumSeqs
  budget : 0 < s.config.maxNumBatchedTokens

end Scheduler

section Moves

variable {p p' : Pass KvCacheManager}

/-- A scheduling call keeps everybody ready. -/
theorem PassMoves.ready (hm : PassMoves p p') (hs : p.sched.Sound) (h : p.sched.Ready) :
    p'.sched.Ready := by
  intro q' hq'
  obtain ⟨q, hq, hmoved⟩ := MovedAll.exists_of_mem (PassMoves.moved hm) hq'
  obtain ⟨hbs, htotal⟩ := PassMoves.poolSize hm hs
  have hstart := h q hq
  have htotal : p'.sched.cache.totalBlocks = p.sched.cache.totalBlocks := htotal
  have hneed : ∀ k, p'.sched.cache.blocksNeededFor k = p.sched.cache.blocksNeededFor k :=
    fun k => congrArg (BlockTable.blocksRequired k) hbs
  refine ⟨?_, ?_, ?_, hmoved.live hstart.live⟩
  · rw [hmoved.prompt]
    exact hstart.prompt
  · rw [hmoved.prompt, PassMoves.config hm]
    exact hstart.budget
  · rw [hmoved.prompt, hneed, htotal]
    exact hstart.fits

/-- Nor does it publish anything. -/
theorem PassMoves.unshared (hm : PassMoves p p') (hs : p.sched.Sound)
    (h : p.sched.cache.Unshared n bs flag) : p'.sched.cache.Unshared n bs flag := by
  induction hm with
  | refl => exact h
  | tail hmoves hmove ih =>
    obtain ⟨new, htr, hnew⟩ := hmove.cacheTrace (PassMoves.sound hmoves hs)
    refine ⟨Service.cache_of_move hmove ih.reachable, fun b hb => ih.unpublished b ?_⟩
    exact KvCacheManager.published_append new htr (fun e he => hnew e he b) hb

/-- **A move that neither evicts nor decodes** pays for what it reads. -/
theorem PassMove.unread (hm : PassMove p p') (hs : p.sched.Sound) :
    p.out.preempted.length < p'.out.preempted.length
    ∨ (∃ d ∈ p'.out.scheduled, d.isPrefill = false)
    ∨ p'.sched.unread + p'.used = p.sched.unread + p.used := by
  have hbring : ∀ {p₁ : Pass KvCacheManager} {seq : Sequence} {rest : List Sequence} {chunk : ℕ},
      p₁.sched.running = p.sched.running → p₁.used = p.used → p.sched.waiting = seq :: rest →
      chunk ≤ seq.promptLen - seq.computedPrefixLen →
      (p₁.bringIn seq rest chunk).sched.unread + (p₁.bringIn seq rest chunk).used
        = p.sched.unread + p.used := by
    intro p₁ seq rest chunk hrun hused head left
    have hrest : (Pass.prefilled seq chunk).remainingPrefill + chunk = seq.remainingPrefill := by
      have hadv : (Pass.prefilled seq chunk).computedPrefixLen
          = min (seq.computedPrefixLen + chunk) seq.prompt.length := by
        simp only [Pass.prefilled]
        split <;> split <;> simp [Sequence.advancePrefill]
      unfold Sequence.promptLen at left
      unfold Sequence.remainingPrefill
      rw [hadv, Pass.prefilled_prompt]
      omega
    show ((p₁.sched.running ++ [Pass.prefilled seq chunk] ++ rest).map _).sum + (p₁.used + chunk)
      = ((p.sched.running ++ p.sched.waiting).map _).sum + p.used
    rw [hrun, hused, head]
    simp only [List.map_append, List.map_cons, List.map_nil, List.sum_append, List.sum_cons,
      List.sum_nil]
    omega
  cases hm with
  | refused answer result => rw [result]; exact Or.inr (Or.inr rfl)
  | decoded room answer cand result =>
    rw [result]
    refine Or.inr (Or.inl ⟨_, List.mem_append_right _ (List.mem_singleton.mpr rfl), rfl⟩)
  | evicted result =>
    obtain ⟨older, victim, -, rfl⟩ := Pass.preemptOne_eq_some result
    refine Or.inl ?_
    show _ < (p.out.preempted ++ [victim.id]).length
    rw [List.length_append]
    exact Nat.lt_succ_self _
  | @resumed seq chunk already found cand pos room result =>
    have hrest : (Pass.resumed seq chunk).remainingPrefill + chunk = seq.remainingPrefill := by
      obtain ⟨hmid, -, hle⟩ := cand hs.nodup
      have hadv : (Pass.resumed seq chunk).computedPrefixLen
          = min (seq.computedPrefixLen + chunk) seq.prompt.length := by
        simp only [Pass.resumed]
        split <;> simp [Sequence.advancePrefill]
      unfold Sequence.remainingPrefill at hle ⊢
      rw [hadv, Pass.resumed_prompt]
      omega
    have hsum := List.sum_updateKey (f := (Pass.resumed · chunk))
      (g := Sequence.remainingPrefill) found
    rw [result]
    refine Or.inr (Or.inr ?_)
    show (((p.sched.running.updateKey _ _ _) ++ p.sched.waiting).map _).sum + (p.used + chunk)
      = ((p.sched.running ++ p.sched.waiting).map _).sum + p.used
    rw [List.map_append, List.map_append, List.sum_append, List.sum_append]
    omega
  | admitted head first slot pos left room answer result =>
    rw [result]
    refine Or.inr (Or.inr (hbring rfl rfl head ?_))
    rw [first]
    exact left
  | readmitted head started slot pos left room result =>
    rw [result]
    exact Or.inr (Or.inr (hbring rfl rfl head left))
  | putBack head available answer result =>
    exact absurd answer (hs.allocate_ne_error (head ▸ List.mem_cons_self) available)

/-- **A pass that reads and evicts nobody** leaves less to read. -/
theorem PassMoves.unread (hm : PassMoves p p') (hs : p.sched.Sound)
    (hpre : p'.out.preempted = p.out.preempted)
    (hread : ∀ d ∈ p'.out.scheduled, d.isPrefill = true) :
    p'.sched.unread + p'.used = p.sched.unread + p.used := by
  induction hm with
  | refl => rfl
  | @tail p₁ p₂ hmoves hmove ih =>
    obtain ⟨before, -, -, hpre₁⟩ := PassMoves.recorded hmoves
    obtain ⟨after, -, -, hpre₂⟩ := PassMoves.recorded (Relation.ReflTransGen.single hmove)
    have hkeep := Pass.scheduled_subset (Relation.ReflTransGen.single hmove)
    have hsame : p₁.out.preempted = p.out.preempted := by
      rw [hpre₂, hpre₁, List.append_assoc] at hpre
      have hnone := List.append_cancel_left (hpre.trans (List.append_nil _).symm)
      rw [hpre₁, (List.append_eq_nil_iff.mp hnone).1, List.append_nil]
    rcases hmove.unread (PassMoves.sound hmoves hs) with hev | ⟨d, hd, hdec⟩ | heq
    · rw [hpre, hsame] at hev
      exact absurd hev (lt_irrefl _)
    · exact absurd ((hread d hd).symm.trans hdec) (by simp)
    · exact heq.trans (ih hsame (fun d hd => hread d (hkeep hd)))

end Moves

namespace KvCacheManager

/-- **What one sequence holds**: the blocks of its tokens, at most, and some if
it has any. -/
theorem Settled.footprint_single {m : KvCacheManager} (h : m.Settled) {seq : SequenceId}
    {t : BlockTable} (ht : m.tables.lookup seq = some t) :
    m.footprint [seq] ≤ m.blocksNeededFor t.numTokens
    ∧ (0 < t.numTokens → 0 < m.footprint [seq]) := by
  have hsize : t.blocks.length = m.blocksNeededFor t.numTokens := (h.sized ht).numBlocks
  have hheld : m.footprint [seq] = t.blocks.toFinset.card := by
    unfold footprint AList.footprint AList.heldAt
    rw [List.flatMap_singleton, ht]
    rfl
  rw [hheld, ← hsize]
  refine ⟨List.toFinset_card_le _, fun hpos => ?_⟩
  have hnum : 0 < t.blocks.length := by
    rw [hsize]
    refine Nat.pos_of_ne_zero (fun hzero => ?_)
    have hle := (ceilDiv_le_iff_le_mul h.blockSize).mp hzero.le
    omega
  exact Finset.card_pos.mpr ⟨t.blocks[0], List.mem_toFinset.mpr (List.getElem_mem hnum)⟩

end KvCacheManager

namespace Pass

variable {p : Pass KvCacheManager} {head : Sequence} {rest : List Sequence} {k : ℕ}

/-! ## Served sequences -/

/-- **The head of the running queue is in the batch**, and is through with its
prompt or nearer to its end than `k`. -/
def Served (p : Pass KvCacheManager) (k : ℕ) : Prop :=
  ∃ q rest, p.sched.running = q :: rest ∧ (∃ d ∈ p.out.scheduled, d.id = q.id)
    ∧ (q.state = .decoding ∨ q.ahead < k)

/-- So at the end of a call somebody is due a token, or the head has come
nearer to its own. -/
theorem Served.progress (h : p.Served k) (hs : p.sched.Sound) :
    p.sched.Due p.out.scheduled ∨ p.sched.ahead < k := by
  obtain ⟨q, rest, hrun, ⟨d, hd, hid⟩, hdec | hless⟩ := h
  · exact Or.inl (due_of_entry hs hd (hrun ▸ List.mem_cons_self) hid.symm hdec)
  · refine Or.inr ?_
    show (p.sched.running ++ p.sched.waiting).head?.elim 0 Sequence.ahead < k
    rw [hrun]
    exact hless

/-- An admission loop that leaves the head in place. -/
theorem Served.admissionLoop (h : p.Served k) (hs : p.sched.Sound) (hsafe : p.HeadSafe) :
    p.admissionLoop.Served k := by
  obtain ⟨q, rest, hrun, ⟨d, hd, hid⟩, hst⟩ := h
  obtain ⟨rest', hrest⟩ := admissionLoop_head hs hsafe hrun
  exact ⟨q, rest', hrest, ⟨d, scheduled_subset (admissionLoop_moves p) hd, hid⟩, hst⟩

/-- A decode pass that leaves somebody. -/
theorem Served.scheduleDecodes (h : p.Served k) (hs : p.sched.Sound)
    (hleft : p.scheduleDecodes.sched.running ≠ []) : p.scheduleDecodes.Served k := by
  obtain ⟨q, rest, hrun, ⟨d, hd, hid⟩, hst⟩ := h
  rcases decodeLoop_head hs p.decodeGuard_candidates hrun with hnone | ⟨rest', hrest⟩
  · exact absurd hnone hleft
  · exact ⟨q, rest', hrest, ⟨d, scheduled_subset (scheduleDecodes_moves p) hd, hid⟩, hst⟩

/-- **The prefill pass begins with the head** if it is in the middle of its
prompt. -/
theorem schedulePartialPrefills_served (h : p.sched.Serving n bs flag) (room : p.used < p.budget)
    (hrun : p.sched.running = head :: rest) (hnot : head.state ≠ .decoding) :
    p.schedulePartialPrefills.Served head.ahead := by
  have hmem : head ∈ p.sched.running := hrun ▸ List.mem_cons_self
  have hlive := (h.ready head (List.mem_append_left _ hmem)).live
  have hres := h.sound.resident hmem hlive
  obtain ⟨hmid, hlt⟩ := hres.stage.resolve_right (fun hdec => hnot hdec.1)
  have hon : p.sched.config.enableChunkedPrefill = true := by
    rcases hoff : p.sched.config.enableChunkedPrefill with - | -
    · exact absurd hmid (h.whole hoff head hmem)
    · rfl
  have hc : chunkFor p.sched.config head.remainingPrefill (p.budget - p.used)
      = some (min head.remainingPrefill (p.budget - p.used)) := if_pos hon
  have hleft : 0 < head.remainingPrefill := Nat.sub_pos_of_lt hlt
  have hpos : 0 < min head.remainingPrefill (p.budget - p.used) :=
    lt_min hleft (Nat.sub_pos_of_lt room)
  set chunk := min head.remainingPrefill (p.budget - p.used) with hchunk
  obtain ⟨⟨rest', hrest⟩, d, hd, hid⟩ :=
    schedulePartialPrefills_serves h.sound hrun hmid hlt room hc hpos.ne'
  have hle : head.computedPrefixLen + chunk ≤ head.prompt.length := by
    have hle := (chunkFor_le hc).1
    unfold Sequence.remainingPrefill at hle
    omega
  obtain ⟨hcomputed, hstage⟩ := resumed_inStage hmid hle
  refine ⟨_, rest', hrest, ⟨d, hd, by rw [resumed_id]; exact hid⟩, ?_⟩
  have hahead : head.ahead = head.prompt.length - head.computedPrefixLen := if_neg hnot
  rw [hahead, ← resumed_prompt head chunk]
  exact hstage.decoding_or (by rw [hcomputed]; omega)

/-- A decoder at the head keeps its entry through the partial prefills. -/
theorem schedulePartialPrefills_keeps (hs : p.sched.Sound) (hrun : p.sched.running = head :: rest)
    (hdec : head.state = .decoding) (hd : ∃ d ∈ p.out.scheduled, d.id = head.id) :
    p.schedulePartialPrefills.Served k := by
  obtain ⟨rest', hrest⟩ := schedulePartialPrefills_front hs hrun (by rw [hdec]; simp)
  obtain ⟨d, hd, hid⟩ := hd
  have hmoves := partialLoop_moves (partialCandidates p.sched.running) p.partialGuard_candidates
  exact ⟨head, rest', hrest, ⟨d, scheduled_subset hmoves hd, hid⟩, Or.inl hdec⟩

/-- **The admission loop begins with the head** if nobody runs, unless prompts
are not chunked and there is no room for all of it. -/
theorem admissionLoop_served (h : p.sched.Serving n bs flag) (room : p.used < p.budget)
    (hidle : p.sched.running = []) (hw : p.sched.waiting = head :: rest)
    (hsafe : ∀ {p₁ : Pass KvCacheManager}, PassMove p p₁ → p₁.admissionLoop = p.admissionLoop →
      (∃ q, p₁.sched.running = [q]
        ∧ p₁.sched.cache.footprint [q.id] ≤ p₁.sched.cache.blocksNeededFor head.promptLen) →
      p₁.HeadSafe) :
    (p.admissionLoop = p ∧ p.sched.config.enableChunkedPrefill = false
      ∧ p.budget - p.used < head.prompt.length)
    ∨ p.admissionLoop.Served head.prompt.length := by
  have hmem : head ∈ p.sched.waiting := hw ▸ List.mem_cons_self
  have hstart := h.ready head (List.mem_append_right _ hmem)
  obtain ⟨hstate, hzero, -⟩ := h.sound.atStart hmem hstart.live
  refine (admissionLoop_serves h.sound hstart h.slots room hidle hw).imp_right ?_
  rintro ⟨chunk, c, hpos, hle, ha, hloop, hmove⟩
  obtain ⟨hcomputed, hstage⟩ := prefilled_inStage hstate hzero hle
  set p₁ := (p.withCache c).bringIn head rest chunk with hp₁
  have hrun₁ : p₁.sched.running = [prefilled head chunk] := by
    show p.sched.running ++ [prefilled head chunk] = _
    rw [hidle]
    rfl
  have hfoot : p₁.sched.cache.footprint [head.id]
      ≤ p₁.sched.cache.blocksNeededFor head.promptLen := by
    obtain ⟨hs', t, hadm⟩ := KvCacheManager.like_allocate_ok h.sound.settled ha
    have ht : c.tables.lookup head.id = some t := by rw [hadm.tables, AList.lookup_insert]
    have hnum : t.numTokens = head.promptLen := hadm.numTokens
    rw [← hnum]
    exact (hs'.footprint_single ht).1
  have hentry : p₁.Served head.prompt.length := by
    refine ⟨_, [], hrun₁, ⟨⟨head.id, chunk, head.computedPrefixLen, true⟩, ?_, ?_⟩, ?_⟩
    · exact List.mem_append_right _ (List.mem_singleton.mpr rfl)
    · exact (prefilled_id head chunk).symm
    · have hnear := hstage.decoding_or (by rw [hcomputed]; exact Nat.pos_of_ne_zero hpos)
      rw [prefilled_prompt, Nat.sub_zero] at hnear
      exact hnear
  rw [hloop]
  refine hentry.admissionLoop (hmove.sound h.sound) (hsafe hmove hloop.symm ⟨_, hrun₁, ?_⟩)
  rw [prefilled_id]
  exact hfoot

end Pass
