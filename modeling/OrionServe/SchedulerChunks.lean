import OrionServe.SchedulerTokens
import OrionServe.SchedulerOldest

/-!
# How a prompt is cut into chunks

The first chunk of a prompt is issued by the admission loop and the others by
the partial-prefill loop. Both record what they issue, and both move the
sequence on when the last of its prompt has been issued. So at any time the
chunks issued for a running sequence since it was let in are spans that tile
its prompt as far as it counts as computed, and it decodes exactly when that
is all of it.

One call issues one chunk for a sequence, unless it evicts the sequence in
between: the partial pass goes through its candidates once, the decode pass
issues none, and whoever is let in has been given nothing since it was
evicted.

None of this depends on what the cache answers.
-/

/-- The chunks of a sequence's prompt since its last eviction, newest first. -/
def chunksSince (id : SequenceId) (trace : List SchedEvent) : List (ℕ × ℕ) :=
  ((entriesSince id trace).filter ScheduledSequence.isPrefill).map ScheduledSequence.span

section Chunks

variable {id : SequenceId} {past : List SchedEvent}

/-- One more chunk. -/
theorem chunksSince_self {e : ScheduledSequence} (h : e.isPrefill = true) :
    chunksSince e.id (.scheduled e :: past) = e.span :: chunksSince e.id past := by
  unfold chunksSince
  rw [entriesSince_scheduled_self, List.filter_cons_of_pos h]
  rfl

/-- A decode step is not a chunk. -/
theorem chunksSince_decode {e : ScheduledSequence} (h : e.isPrefill = false) :
    chunksSince id (.scheduled e :: past) = chunksSince id past := by
  unfold chunksSince
  by_cases hid : e.id = id
  · subst hid
    rw [entriesSince_scheduled_self, List.filter_cons_of_neg (by rw [h]; simp)]
  · rw [entriesSince_scheduled_ne hid]

/-- An event about another sequence. -/
theorem chunksSince_cons_ne {e : SchedEvent} (h : e.seqId ≠ id) :
    chunksSince id (e :: past) = chunksSince id past := by
  unfold chunksSince
  rw [entriesSince_cons_ne h]

/-- No chunk of the sequence at all. -/
theorem chunksSince_eq_nil (h : ∀ e, .scheduled e ∈ past → e.isPrefill = true → e.id ≠ id) :
    chunksSince id past = [] := by
  induction past with
  | nil => rfl
  | cons x past ih =>
    have hrest := ih (fun e he => h e (List.mem_cons_of_mem _ he))
    by_cases hx : x.seqId = id
    · cases x with
      | scheduled e =>
        have hdec : e.isPrefill = false := by
          rw [Bool.eq_false_iff]
          exact fun hpre => h e List.mem_cons_self hpre hx
        rw [chunksSince_decode hdec]
        exact hrest
      | preempted u =>
        unfold chunksSince
        rw [entriesSince_preempted_self hx]
        rfl
    · rw [chunksSince_cons_ne hx]
      exact hrest

/-- **No chunk since the last eviction** means that there was an eviction after
every chunk. -/
theorem exists_preempted_of_chunksSince_nil {mid : List SchedEvent} {e : ScheduledSequence}
    (hid : e.id = id) (hpre : e.isPrefill = true)
    (h : chunksSince id (mid ++ .scheduled e :: past) = []) :
    ∃ v, .preempted v ∈ mid ∧ v.id = id := by
  induction mid with
  | nil =>
    subst hid
    rw [List.nil_append, chunksSince_self hpre] at h
    exact absurd h (by simp)
  | cons x mid ih =>
    by_cases hx : ∃ v, x = .preempted v ∧ v.id = id
    · obtain ⟨v, rfl, hv⟩ := hx
      exact ⟨v, List.mem_cons_self, hv⟩
    have hrest : chunksSince id (mid ++ .scheduled e :: past) = [] := by
      by_cases hne : x.seqId = id
      · cases x with
        | preempted v => exact absurd ⟨v, rfl, hne⟩ hx
        | scheduled d =>
          obtain rfl : d.id = id := hne
          rcases hd : d.isPrefill with - | -
          · rw [List.cons_append, chunksSince_decode hd] at h
            exact h
          · rw [List.cons_append, chunksSince_self hd] at h
            exact absurd h (by simp)
      · rw [List.cons_append, chunksSince_cons_ne hne] at h
        exact h
    obtain ⟨v, hv, hvid⟩ := ih hrest
    exact ⟨v, List.mem_cons_of_mem _ hv, hvid⟩

end Chunks

/-- **A sequence and its chunks**: it is in the middle of its prompt or
through, and the chunks issued for it tile the prompt as far as it is
computed. -/
structure Sequence.Tiled (r : Sequence) (trace : List SchedEvent) : Prop where
  stage : r.InStage
  tiles : Span.TilesTo (chunksSince r.id trace) r.computedPrefixLen

/-- An eviction of a sequence that was not finished, at that time. -/
def EvictedTiled : SchedEvent → List SchedEvent → Prop
  | .preempted u, past => u.state ≠ .finished → u.Tiled past
  | .scheduled _, _ => True

variable {C : Type*} [KvCacheManagerLike C]

/-- **The stages of the sequences in service**, over any cache. -/
structure Scheduler.Staged (s : Scheduler C) : Prop where
  nodup : s.ids.Nodup
  running : ∀ r ∈ s.running, r.state ≠ .finished → r.Tiled s.trace
  waiting : ∀ w ∈ s.waiting, w.state ≠ .finished →
    w.state = .waiting ∧ w.computedPrefixLen = 0 ∧ chunksSince w.id s.trace = []
  evicted : Justified EvictedTiled s.trace

namespace Pass

variable {p p' : Pass C}

/-- The first chunk of a sequence that waits. -/
theorem tiled_prefilled {seq : Sequence} {chunk : ℕ} {trace : List SchedEvent}
    (hwait : seq.state = .waiting ∧ seq.computedPrefixLen = 0 ∧ chunksSince seq.id trace = [])
    (hpos : 0 < chunk) (hle : chunk ≤ seq.prompt.length) :
    (prefilled seq chunk).Tiled
      (.scheduled ⟨seq.id, chunk, seq.computedPrefixLen, true⟩ :: trace) := by
  obtain ⟨hstate, hzero, hnone⟩ := hwait
  obtain ⟨hcomputed, hstage⟩ := prefilled_inStage hstate hzero hle
  refine ⟨hstage, ?_⟩
  have hself : chunksSince seq.id
      (.scheduled ⟨seq.id, chunk, seq.computedPrefixLen, true⟩ :: trace)
        = (seq.computedPrefixLen, chunk) :: chunksSince seq.id trace :=
    chunksSince_self (e := ⟨seq.id, chunk, seq.computedPrefixLen, true⟩) rfl
  rw [prefilled_id, hcomputed, hself, hnone, hzero]
  exact ⟨hpos, Nat.zero_add chunk, rfl⟩

/-- Another chunk. -/
theorem tiled_resumed {seq : Sequence} {chunk : ℕ} {trace : List SchedEvent}
    (h : seq.Tiled trace) (hstate : seq.state = .prefilling) (hpos : 0 < chunk)
    (hle : chunk ≤ seq.remainingPrefill) :
    (resumed seq chunk).Tiled
      (.scheduled ⟨seq.id, chunk, seq.computedPrefixLen, true⟩ :: trace) := by
  have hsum : seq.computedPrefixLen + chunk ≤ seq.prompt.length := by
    have hrem : seq.remainingPrefill = seq.prompt.length - seq.computedPrefixLen := rfl
    have hwithin := h.stage.le
    omega
  obtain ⟨hcomputed, hstage⟩ := resumed_inStage hstate hsum
  refine ⟨hstage, ?_⟩
  have hself : chunksSince seq.id
      (.scheduled ⟨seq.id, chunk, seq.computedPrefixLen, true⟩ :: trace)
        = (seq.computedPrefixLen, chunk) :: chunksSince seq.id trace :=
    chunksSince_self (e := ⟨seq.id, chunk, seq.computedPrefixLen, true⟩) rfl
  rw [resumed_id, hcomputed, hself]
  exact h.tiles.cons hpos

omit [KvCacheManagerLike C] in
/-- **Whoever is let in** starts its prompt, or is finished and stays so. -/
theorem staged_bringIn (h : p.sched.Staged) {seq : Sequence} {rest : List Sequence} {chunk : ℕ}
    (head : p.sched.waiting = seq :: rest) (hpos : 0 < chunk)
    (hle : chunk ≤ seq.prompt.length) : (p.bringIn seq rest chunk).sched.Staged := by
  have hids : (p.bringIn seq rest chunk).sched.ids = p.sched.ids := by
    unfold Scheduler.ids
    rw [head]
    simp [bringIn, emit]
  have hne : ∀ {q : Sequence}, q ∈ p.sched.running ∨ q ∈ rest → q.id ≠ seq.id := by
    have hnd := h.nodup
    unfold Scheduler.ids at hnd
    rw [head, List.map_append, List.map_cons] at hnd
    obtain ⟨-, hwait, hdisj⟩ := List.nodup_append.mp hnd
    rintro q (hq | hq) heq
    · exact hdisj _ (List.mem_map_of_mem hq) _ List.mem_cons_self heq
    · exact (List.nodup_cons.mp hwait).1 (heq ▸ List.mem_map_of_mem hq)
  have hframe : ∀ {q : Sequence}, q ∈ p.sched.running ∨ q ∈ rest →
      chunksSince q.id (p.bringIn seq rest chunk).sched.trace = chunksSince q.id p.sched.trace :=
    fun hq => chunksSince_cons_ne (hne hq).symm
  have hmem : seq ∈ p.sched.waiting := head ▸ List.mem_cons_self
  refine ⟨hids ▸ h.nodup, fun r hr hlive => ?_, fun w hw hlive => ?_, ⟨trivial, h.evicted⟩⟩
  · rcases List.mem_append.mp hr with hr | hr
    · have hold := h.running r hr hlive
      exact ⟨hold.stage, by rw [hframe (Or.inl hr)]; exact hold.tiles⟩
    · obtain rfl := List.mem_singleton.mp hr
      have hseq : seq.state ≠ .finished := fun hfin => hlive (prefilled_of_finished hfin)
      exact tiled_prefilled (h.waiting seq hmem hseq) hpos hle
  · have hw' : w ∈ rest := hw
    obtain ⟨hstate, hzero, hnone⟩ := h.waiting w (head ▸ List.mem_cons_of_mem _ hw') hlive
    exact ⟨hstate, hzero, (hframe (Or.inr hw')).trans hnone⟩

omit [KvCacheManagerLike C] in
/-- What is put back waits as before. -/
theorem staged_putBack (h : p.sched.Staged) {seq : Sequence} {rest : List Sequence} {c : C}
    (head : p.sched.waiting = seq :: rest) :
    ({ p.sched with cache := c, waiting := seq.preempt.1 :: rest } : Scheduler C).Staged := by
  have hmem : seq ∈ p.sched.waiting := head ▸ List.mem_cons_self
  refine ⟨?_, h.running, fun w hw hlive => ?_, h.evicted⟩
  · have hnd := h.nodup
    unfold Scheduler.ids at hnd ⊢
    rw [head] at hnd
    simpa using hnd
  · rcases List.mem_cons.mp hw with rfl | hw
    · have hseq : seq.state ≠ .finished := fun hfin => hlive (Sequence.preempt_finished hfin)
      obtain ⟨hstate, hzero, hnone⟩ := h.waiting seq hmem hseq
      rcases seq.preempt_cases with ⟨-, hbusy⟩ | ⟨hsame, -⟩
      · rw [hstate] at hbusy
        exact absurd hbusy (by simp)
      · rw [hsame]
        exact ⟨hstate, hzero, hnone⟩
    · exact h.waiting w (head ▸ List.mem_cons_of_mem _ hw) hlive

end Pass

namespace PassMove

variable {p p' : Pass C}

/-- **Step lemma.** -/
theorem staged (hm : PassMove p p') (h : p.sched.Staged) : p'.sched.Staged := by
  cases hm with
  | refused answer result =>
    rw [result]
    exact ⟨h.nodup, h.running, h.waiting, h.evicted⟩
  | @decoded id totalLen c room answer cand result =>
    have hframe : ∀ q, chunksSince q (.scheduled (Pass.decodeEntry id totalLen) :: p.sched.trace)
        = chunksSince q p.sched.trace := fun q => chunksSince_decode rfl
    rw [result]
    refine ⟨h.nodup, fun r hr hlive => ?_, fun w hw hlive => ?_, ⟨trivial, h.evicted⟩⟩
    · have hold := h.running r hr hlive
      exact ⟨hold.stage, (hframe r.id).symm ▸ hold.tiles⟩
    · obtain ⟨hstate, hzero, hnone⟩ := h.waiting w hw hlive
      exact ⟨hstate, hzero, (hframe w.id).trans hnone⟩
  | evicted result =>
    obtain ⟨older, victim, hrun, rfl⟩ := Pass.preemptOne_eq_some result
    have hvictim : victim ∈ p.sched.running := hrun ▸ List.mem_append_right _ List.mem_cons_self
    have hnd := h.nodup
    unfold Scheduler.ids at hnd
    rw [hrun, List.append_assoc, List.map_append] at hnd
    obtain ⟨-, hrest, hdisj⟩ := List.nodup_append.mp hnd
    refine ⟨?_, fun r hr hlive => ?_, fun w hw hlive => ?_, ⟨?_, h.evicted⟩⟩
    · have hids := (PassMove.evicted result).ids
      rw [hids]
      exact h.nodup
    · have hold := h.running r (hrun ▸ List.mem_append_left _ hr) hlive
      have hne : victim.id ≠ r.id := fun heq =>
        hdisj r.id (List.mem_map_of_mem hr) victim.id List.mem_cons_self heq.symm
      exact ⟨hold.stage, (chunksSince_cons_ne (e := .preempted victim) hne).symm ▸ hold.tiles⟩
    · rcases List.mem_cons.mp hw with rfl | hw
      · rcases victim.preempt_cases with ⟨hs, -⟩ | ⟨hs, hidle⟩
        · rw [hs]
          refine ⟨rfl, rfl, ?_⟩
          unfold chunksSince
          have hnone : entriesSince victim.id (.preempted victim :: p.sched.trace) = [] :=
            entriesSince_preempted_self rfl
          rw [hnone]
          rfl
        · -- a sequence that cannot be put back is finished
          rw [hs] at hlive
          have hstage := (h.running victim hvictim hlive).stage
          rcases hidle with hwait | hfin
          · rcases hstage with ⟨hmid, -⟩ | ⟨hdec, -⟩
            · exact absurd (hwait.symm.trans hmid) (by simp)
            · exact absurd (hwait.symm.trans hdec) (by simp)
          · exact absurd hfin hlive
      · obtain ⟨hstate, hzero, hnone⟩ := h.waiting w hw hlive
        have hne : victim.id ≠ w.id := fun heq =>
          (List.nodup_cons.mp hrest).1 (heq ▸ List.mem_map_of_mem hw)
        exact ⟨hstate, hzero, (chunksSince_cons_ne (e := .preempted victim) hne).trans hnone⟩
    · exact fun hlive => h.running victim hvictim hlive
  | @resumed seq chunk already found cand pos room result =>
    obtain ⟨hstate, rfl, hle⟩ := cand h.nodup
    have hmem := List.mem_of_findKey found
    have hlive : seq.state ≠ .finished := by rw [hstate]; simp
    have hnd := Pass.nodup_running h.nodup
    have hids := (PassMove.resumed found cand pos room result).ids
    have hframe : ∀ {q : Sequence}, seq.id ≠ q.id →
        chunksSince q.id
            (.scheduled ⟨seq.id, chunk, seq.computedPrefixLen, true⟩ :: p.sched.trace)
          = chunksSince q.id p.sched.trace := fun hne => chunksSince_cons_ne hne
    refine ⟨hids ▸ h.nodup, ?_, ?_, ?_⟩
    · rw [result]
      intro r hr hrlive
      rcases List.mem_updateKey hnd hr with ⟨hr, hne⟩ | ⟨a, ha, hid, rfl⟩
      · have hold := h.running r hr hrlive
        exact ⟨hold.stage, (hframe (Ne.symm hne)).symm ▸ hold.tiles⟩
      · obtain rfl : a = seq := List.eq_of_key_eq hnd ha hmem hid
        exact Pass.tiled_resumed (h.running a ha hlive) hstate pos hle
    · rw [result]
      intro w hw hwlive
      obtain ⟨hwstate, hzero, hnone⟩ := h.waiting w hw hwlive
      have hne : seq.id ≠ w.id := List.key_ne_of_append h.nodup hmem hw
      exact ⟨hwstate, hzero, (hframe hne).trans hnone⟩
    · rw [result]
      exact ⟨trivial, h.evicted⟩
  | @admitted seq rest chunk c head first slot pos left room answer result =>
    rw [result]
    have hcache : (p.withCache c).sched.Staged := ⟨h.nodup, h.running, h.waiting, h.evicted⟩
    exact Pass.staged_bringIn hcache head pos left
  | readmitted head started slot pos left room result =>
    rw [result]
    exact Pass.staged_bringIn h head pos (left.trans (Nat.sub_le _ _))
  | putBack head available answer result =>
    rw [result]
    exact Pass.staged_putBack h head

/-- A chunk is for somebody in service. -/
theorem chunk_ids (hm : PassMove p p') :
    ∀ e, .scheduled e ∈ p'.sched.trace → e.isPrefill = true →
      .scheduled e ∈ p.sched.trace ∨ e.id ∈ p.sched.ids := by
  have hadd : ∀ {x : SchedEvent}, (∀ e, x = .scheduled e → e.isPrefill = true →
      e.id ∈ p.sched.ids) → ∀ e, .scheduled e ∈ x :: p.sched.trace → e.isPrefill = true →
      .scheduled e ∈ p.sched.trace ∨ e.id ∈ p.sched.ids := by
    intro x hx e he hpre
    rcases List.mem_cons.mp he with he | he
    · exact Or.inr (hx e he.symm hpre)
    · exact Or.inl he
  have hqueue : ∀ {q : Sequence} {start chunk : ℕ} {pre : Bool}, q.id ∈ p.sched.ids →
      ∀ e, SchedEvent.scheduled ⟨q.id, chunk, start, pre⟩ = .scheduled e → e.isPrefill = true →
        e.id ∈ p.sched.ids := by
    rintro q start chunk pre hq e he -
    rw [← SchedEvent.scheduled.inj he]
    exact hq
  cases hm with
  | refused answer result => rw [result]; exact fun e he _ => Or.inl he
  | decoded room answer cand result =>
    rw [result]
    refine hadd (fun e he hpre => ?_)
    rw [← SchedEvent.scheduled.inj he] at hpre
    exact absurd hpre (by simp [Pass.decodeEntry])
  | evicted result =>
    obtain ⟨older, victim, hrun, rfl⟩ := Pass.preemptOne_eq_some result
    exact hadd (fun e he => absurd he (by simp))
  | resumed found cand pos room result =>
    rw [result]
    exact hadd (hqueue (Scheduler.mem_ids_iff.mpr
      (Or.inl (List.mem_map_of_mem (List.mem_of_findKey found)))))
  | admitted head first slot pos left room answer result =>
    rw [result]
    exact hadd (hqueue (Scheduler.mem_ids_iff.mpr (Or.inr (head ▸ List.mem_cons_self))))
  | readmitted head started slot pos left room result =>
    rw [result]
    exact hadd (hqueue (Scheduler.mem_ids_iff.mpr (Or.inr (head ▸ List.mem_cons_self))))
  | putBack head available answer result => rw [result]; exact fun e he _ => Or.inl he

end PassMove

namespace PassMoves

variable {p p' : Pass C}

/-- **Run lemma.** -/
theorem staged (hm : PassMoves p p') (h : p.sched.Staged) : p'.sched.Staged := by
  induction hm with
  | refl => exact h
  | tail _ hmove ih => exact hmove.staged ih

theorem chunk_ids (hm : PassMoves p p') :
    ∀ e, .scheduled e ∈ p'.sched.trace → e.isPrefill = true →
      .scheduled e ∈ p.sched.trace ∨ e.id ∈ p.sched.ids := by
  induction hm with
  | refl => exact fun e he _ => Or.inl he
  | tail hmoves hmove ih =>
    intro e he hpre
    rcases hmove.chunk_ids e he hpre with he | he
    · exact ih e he hpre
    · exact Or.inr (PassMoves.ids hmoves ▸ he)

end PassMoves

/-! ## One chunk in a call -/

/-- **One chunk of a sequence**, or an eviction between any two: a sequence that a
call has evicted may be admitted again by the same call, and is then given its
first chunk once more. -/
def OneChunk (id : SequenceId) (events : List SchedEvent) : Prop :=
  ∀ later mid earlier e e', events = later ++ .scheduled e' :: (mid ++ .scheduled e :: earlier) →
    e.id = id → e'.id = id → e.isPrefill = true → e'.isPrefill = true →
    ∃ u, .preempted u ∈ mid ∧ u.id = id

namespace OneChunk

variable {id : SequenceId} {events : List SchedEvent}

/-- An event that comes after no chunk of the sequence, or is none. -/
theorem cons {x : SchedEvent} (h : OneChunk id events)
    (hx : ∀ e', x = .scheduled e' → e'.id = id → e'.isPrefill = true →
      ∀ mid earlier e, events = mid ++ .scheduled e :: earlier → e.id = id →
        e.isPrefill = true → ∃ u, .preempted u ∈ mid ∧ u.id = id) :
    OneChunk id (x :: events) := by
  intro later mid earlier e e' hsplit hid hid' hpre hpre'
  rcases later with - | ⟨y, later⟩
  · obtain ⟨rfl, hrest⟩ := List.cons.inj hsplit
    exact hx e' rfl hid' hpre' mid earlier e hrest hid hpre
  · exact h later mid earlier e e' (List.cons.inj hsplit).2 hid hid' hpre hpre'

/-- Stretches without chunks may follow. -/
theorem append (h : OneChunk id events) :
    ∀ {new : List SchedEvent}, (∀ e, .scheduled e ∈ new → e.isPrefill = false) →
      OneChunk id (new ++ events)
  | [], _ => h
  | x :: new, hnew => by
    refine (append h (fun e he => hnew e (List.mem_cons_of_mem _ he))).cons ?_
    rintro e' rfl - hpre'
    exact absurd ((hnew e' List.mem_cons_self).symm.trans hpre') (by simp)

/-- Chunks that are all of different sequences. -/
theorem of_nodup
    (h : (((events.filterMap SchedEvent.entry).filter ScheduledSequence.isPrefill).map
      ScheduledSequence.id).Nodup) : OneChunk id events := by
  intro later mid earlier e e' hsplit hid hid' hpre hpre'
  rw [hsplit, List.filterMap_append, List.filter_append, List.map_append] at h
  have hrest := (List.nodup_append.mp h).2.1
  change (((e' :: ((mid ++ .scheduled e :: earlier).filterMap SchedEvent.entry)).filter _).map
    _).Nodup at hrest
  rw [List.filter_cons_of_pos hpre', List.map_cons] at hrest
  refine absurd ?_ (List.nodup_cons.mp hrest).1
  rw [hid', ← hid]
  refine List.mem_map_of_mem (List.mem_filter.mpr ⟨List.mem_filterMap.mpr ?_, hpre⟩)
  exact ⟨.scheduled e, List.mem_append_right _ List.mem_cons_self, rfl⟩

end OneChunk

namespace Pass

/-- **What the moves of the decode pass keep, the pass keeps.** -/
theorem decodeLoop_invariant {P : Pass C → Prop} (hcache : ∀ p c, P p → P (p.withCache c))
    (hemit : ∀ p id totalLen, P p → P (p.emit (decodeEntry id totalLen)))
    (hevict : ∀ p p', p.preemptOne = some p' → P p → P p') (cands : List (SequenceId × ℕ)) :
    ∀ p, P p → P (p.decodeLoop cands) := by
  induction cands with
  | nil => exact fun p hp => hp
  | cons c cands ih =>
    intro p hp
    obtain ⟨id, totalLen⟩ := c
    unfold decodeLoop
    split
    · exact hp
    split
    · exact ih _ (hemit _ _ _ (hcache _ _ hp))
    split
    · exact hcache _ _ hp
    · next p₁ hev =>
      have hp₁ : P p₁ := hevict _ _ hev (hcache _ _ hp)
      split
      · exact ih _ (hemit _ _ _ (hcache _ _ hp₁))
      · exact ih _ (hcache _ _ hp₁)

/-- **The decode pass issues no chunk.** -/
theorem decodeLoop_trace (cands : List (SequenceId × ℕ)) (p : Pass C) :
    ∃ new, (p.decodeLoop cands).sched.trace = new ++ p.sched.trace
      ∧ ∀ e, .scheduled e ∈ new → e.isPrefill = false := by
  refine decodeLoop_invariant (P := fun q => ∃ new, q.sched.trace = new ++ p.sched.trace
    ∧ ∀ e, .scheduled e ∈ new → e.isPrefill = false) ?_ ?_ ?_ cands p
    ⟨[], rfl, fun e he => absurd he List.not_mem_nil⟩
  · exact fun q c h => h
  · rintro q id totalLen ⟨new, hnew, hall⟩
    refine ⟨.scheduled (decodeEntry id totalLen) :: new, congrArg _ hnew, fun e he => ?_⟩
    rcases List.mem_cons.mp he with he | he
    · rw [SchedEvent.scheduled.inj he]
      rfl
    · exact hall e he
  · rintro q q' hev ⟨new, hnew, hall⟩
    obtain ⟨older, victim, -, rfl⟩ := preemptOne_eq_some hev
    refine ⟨.preempted victim :: new, congrArg _ hnew, fun e he => ?_⟩
    rcases List.mem_cons.mp he with he | he
    · exact absurd he (by simp)
    · exact hall e he

/-- **The decode pass takes sequences off the end** of the running queue and
does nothing else to it. -/
theorem decodeLoop_running (cands : List (SequenceId × ℕ)) (p : Pass C) :
    (p.decodeLoop cands).sched.running <+: p.sched.running
      ∧ (p.decodeLoop cands).sched.config = p.sched.config := by
  refine decodeLoop_invariant (P := fun q => q.sched.running <+: p.sched.running
    ∧ q.sched.config = p.sched.config) ?_ ?_ ?_ cands p ⟨List.prefix_rfl, rfl⟩
  · exact fun q c h => h
  · exact fun q id totalLen h => h
  · rintro q q' hev ⟨hpre, hconfig⟩
    obtain ⟨older, victim, hrun, rfl⟩ := preemptOne_eq_some hev
    refine ⟨List.IsPrefix.trans ?_ hpre, hconfig⟩
    rw [hrun]
    exact List.prefix_append older [victim]

omit [KvCacheManagerLike C] in
/-- **The partial pass issues a chunk for a candidate once**, and evicts
nobody. -/
theorem partialLoop_trace (cands : List (SequenceId × ℕ × ℕ)) :
    ∀ p : Pass C, ∃ es : List ScheduledSequence,
      (p.partialLoop cands).sched.trace = es.reverse.map .scheduled ++ p.sched.trace
      ∧ (es.map ScheduledSequence.id).Sublist (cands.map Prod.fst) := by
  induction cands with
  | nil => exact fun p => ⟨[], rfl, .refl _⟩
  | cons c cands ih =>
    intro p
    obtain ⟨id, already, remaining⟩ := c
    have hskip : ∀ q : Pass C, q.sched.trace = p.sched.trace →
        ∃ es : List ScheduledSequence,
          (q.partialLoop cands).sched.trace = es.reverse.map .scheduled ++ p.sched.trace
          ∧ (es.map ScheduledSequence.id).Sublist (id :: cands.map Prod.fst) := by
      intro q hq
      obtain ⟨es, hes, hsub⟩ := ih q
      exact ⟨es, hq ▸ hes, hsub.trans (List.sublist_cons_self _ _)⟩
    show ∃ es : List ScheduledSequence, _ ∧ (es.map _).Sublist (id :: cands.map Prod.fst)
    unfold partialLoop
    split
    · exact ⟨[], rfl, List.nil_sublist _⟩
    split
    · exact hskip p rfl
    split
    · exact hskip p rfl
    split
    · exact hskip p rfl
    · next chunk _ _ _ _ _ =>
      obtain ⟨es, hes, hsub⟩ := ih (({ p with sched := { p.sched with
        running := p.sched.running.updateKey Sequence.id id (resumed · chunk) } }
        : Pass C).emit ⟨id, chunk, already, true⟩)
      refine ⟨⟨id, chunk, already, true⟩ :: es, ?_, hsub.cons_cons id⟩
      rw [hes, List.reverse_cons, List.map_append, List.append_assoc]
      rfl

end Pass

/-! ## One call -/

namespace Pass

/-- **An admission starts a prompt anew**: since the last chunk of the sequence
it was evicted. -/
theorem admissionLoop_oneChunk {id : SequenceId} {base : List SchedEvent} (p : Pass C)
    (hs : p.sched.Staged) (hlive : ∀ q ∈ p.sched.queue, q.id = id → q.state ≠ .finished)
    (new : List SchedEvent) (htrace : p.sched.trace = new ++ base) (hone : OneChunk id new) :
    ∃ new', p.admissionLoop.sched.trace = new' ++ base ∧ OneChunk id new' := by
  have hkept : ∀ {p p' : Pass C}, PassMove p p' →
      (∀ q ∈ p.sched.queue, q.id = id → q.state ≠ .finished) →
      ∀ q ∈ p'.sched.queue, q.id = id → q.state ≠ .finished := by
    intro p p' hm hlive q' hq' hid
    obtain ⟨q, hq, hmoved⟩ := MovedAll.exists_of_mem hm.moved hq'
    exact hmoved.live (hlive q hq (hmoved.id.symm.trans hid))
  -- the entry of an admission
  have hentry : ∀ {p : Pass C} {seq : Sequence} {rest : List Sequence} {chunk : ℕ}
      {new : List SchedEvent}, p.sched.Staged →
      (∀ q ∈ p.sched.queue, q.id = id → q.state ≠ .finished) →
      p.sched.waiting = seq :: rest → p.sched.trace = new ++ base → OneChunk id new →
      OneChunk id (.scheduled ⟨seq.id, chunk, seq.computedPrefixLen, true⟩ :: new) := by
    intro p seq rest chunk new hs hlive hw htrace hone
    refine hone.cons ?_
    rintro e' he' hid' - mid earlier e hsplit hid hpre
    obtain rfl : seq.id = id := by
      rw [← hid', ← SchedEvent.scheduled.inj he']
    have hmem : seq ∈ p.sched.waiting := hw ▸ List.mem_cons_self
    have hnone := (hs.waiting seq hmem (hlive seq (List.mem_append_right _ hmem) rfl)).2.2
    rw [htrace, hsplit, List.append_assoc] at hnone
    exact exists_preempted_of_chunksSince_nil hid hpre hnone
  fun_induction admissionLoop p generalizing new with
  | case1 p hstop => exact ⟨new, htrace, hone⟩
  | case2 p hgo hw => exact ⟨new, htrace, hone⟩
  | case3 p hgo seq rest hw hc => exact ⟨new, htrace, hone⟩
  | case4 p hgo seq rest hw hc => exact ⟨new, htrace, hone⟩
  | case5 p hgo seq rest hw chunk hc hpos hfirst hcan c hok ih =>
    obtain ⟨hslot, hroom⟩ := not_or.mp hgo
    obtain ⟨hle, hfits⟩ := chunkFor_le hc
    have hmove : PassMove p ((p.withCache c).bringIn seq rest chunk) :=
      .admitted hw hfirst (not_le.mp hslot) (Nat.pos_of_ne_zero hpos)
        (hle.trans (Nat.sub_le _ _)) hfits hok rfl
    exact ih (hmove.staged hs) (hkept hmove hlive) _ (congrArg _ htrace)
      (hentry hs hlive hw htrace hone)
  | case6 p hgo seq rest hw chunk hc hpos hfirst hcan c e herr => exact ⟨new, htrace, hone⟩
  | case7 p hgo seq rest hw chunk hc hpos hfirst hcan hev => exact ⟨new, htrace, hone⟩
  | case8 p hgo seq rest hw chunk hc hpos hfirst hcan p₁ hev ih =>
    have hmove : PassMove p p₁ := .evicted hev
    obtain ⟨older, victim, hrun, rfl⟩ := preemptOne_eq_some hev
    refine ih (hmove.staged hs) (hkept hmove hlive) (.preempted victim :: new)
      (congrArg _ htrace) (hone.cons (fun e' he' => absurd he' (by simp)))
  | case9 p hgo seq rest hw chunk hc hpos hfirst ih =>
    obtain ⟨hslot, hroom⟩ := not_or.mp hgo
    obtain ⟨hle, hfits⟩ := chunkFor_le hc
    have hmove : PassMove p (p.bringIn seq rest chunk) :=
      .readmitted hw hfirst (not_le.mp hslot) (Nat.pos_of_ne_zero hpos) hle hfits rfl
    exact ih (hmove.staged hs) (hkept hmove hlive) _ (congrArg _ htrace)
      (hentry hs hlive hw htrace hone)

end Pass

namespace Scheduler

variable {s : Scheduler C}

omit [KvCacheManagerLike C] in
/-- The partial pass after events that are no chunks. -/
theorem Staged.oneChunk_partial {p : Pass C} (hs : p.sched.Staged) (id : SequenceId)
    {base new : List SchedEvent} (htrace : p.sched.trace = new ++ base)
    (hnew : ∀ e, .scheduled e ∈ new → e.isPrefill = false) :
    ∃ new', p.schedulePartialPrefills.sched.trace = new' ++ base ∧ OneChunk id new' := by
  obtain ⟨es, hes, hsub⟩ := Pass.partialLoop_trace (Pass.partialCandidates p.sched.running) p
  refine ⟨es.reverse.map .scheduled ++ new, ?_, OneChunk.of_nodup ?_⟩
  · rw [List.append_assoc, ← htrace]
    exact hes
  have hentries : (es.reverse.map SchedEvent.scheduled).filterMap SchedEvent.entry
      = es.reverse := by
    rw [List.filterMap_map]
    exact List.filterMap_some
  have hnone : (new.filterMap SchedEvent.entry).filter ScheduledSequence.isPrefill = [] := by
    refine List.filter_eq_nil_iff.mpr (fun e he => ?_)
    obtain ⟨x, hx, hxe⟩ := List.mem_filterMap.mp he
    rcases x with d | u
    · obtain rfl := Option.some.inj hxe
      rw [hnew d hx]
      simp
    · exact absurd hxe (by simp [SchedEvent.entry])
  rw [List.filterMap_append, List.filter_append, hnone, List.append_nil, hentries]
  have hcands := (p.partialGuard_candidates hs.nodup).1.sublist hsub
  rw [← List.nodup_reverse, ← List.map_reverse] at hcands
  exact hcands.sublist (List.filter_sublist.map _)

/-- **One chunk of a sequence in a call**, or an eviction between any two. -/
theorem Staged.schedule_oneChunk (hs : s.Staged) {id : SequenceId}
    (hlive : ∀ q ∈ s.queue, q.id = id → q.state ≠ .finished) :
    ∃ new, s.schedule.1.trace = new ++ s.trace ∧ OneChunk id new := by
  have hprefills : ∀ {p : Pass C}, PassMoves s.pass p → ∀ {new : List SchedEvent},
      p.sched.trace = new ++ s.trace → (∀ e, .scheduled e ∈ new → e.isPrefill = false) →
      ∃ new', p.schedulePrefills.sched.trace = new' ++ s.trace ∧ OneChunk id new' := by
    intro p hmoves new htrace hnew
    have hp := PassMoves.staged hmoves hs
    obtain ⟨new', htrace', hone'⟩ := hp.oneChunk_partial id htrace hnew
    have hpartial := Pass.partialLoop_moves _ p.partialGuard_candidates
    refine Pass.admissionLoop_oneChunk _ (PassMoves.staged hpartial hp) (fun q' hq' hid => ?_)
      new' htrace' hone'
    obtain ⟨q, hq, hmoved⟩ := MovedAll.exists_of_mem
      (PassMoves.moved (hmoves.trans hpartial)) hq'
    exact hmoved.live (hlive q hq (hmoved.id.symm.trans hid))
  show ∃ new, s.passes.sched.trace = new ++ s.trace ∧ _
  unfold passes
  split
  · obtain ⟨new, htrace, hnew⟩ := Pass.decodeLoop_trace (Pass.decodeCandidates s.running) s.pass
    exact hprefills (Pass.scheduleDecodes_moves _) htrace hnew
  · have hnone : ∀ e, SchedEvent.scheduled e ∈ [] → e.isPrefill = false :=
      fun e he => absurd he List.not_mem_nil
    obtain ⟨new, htrace, hone⟩ := hprefills (p := s.pass) .refl rfl hnone
    obtain ⟨new', htrace', hnew'⟩ := Pass.decodeLoop_trace
      (Pass.decodeCandidates s.pass.schedulePrefills.sched.running) s.pass.schedulePrefills
    refine ⟨new' ++ new, ?_, hone.append hnew'⟩
    rw [List.append_assoc, ← htrace]
    exact htrace'

end Scheduler
