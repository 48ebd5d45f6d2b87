import OrionServe.Scheduler

/-!
# The moves of a scheduling call

The three passes of `schedule` do six things to the scheduler: a sequence is
given a decode step, a partial prefill is resumed, the head of the waiting
queue is admitted – with an allocation, or without one when part of its
prompt counts as computed – the newest running sequence is evicted, and a
refusal of the cache is noted. `PassMove` lists them with the conditions
under which the passes make them, and a call is shown once to be a run of
them, for any cache whatsoever.

No move changes the list of ids `running ++ waiting`.
-/

variable {C : Type*} [KvCacheManagerLike C]

/-- The ids of both queues, in the order of service. -/
def Scheduler.ids (s : Scheduler C) : List SequenceId :=
  (s.running ++ s.waiting).map Sequence.id

/-- The same with the prompts. -/
def Scheduler.roster (s : Scheduler C) : List (SequenceId × List TokenId) :=
  (s.running ++ s.waiting).map (fun q => (q.id, q.prompt))

/-- The same with the prompts and the generated tokens. -/
def Scheduler.contents (s : Scheduler C) :
    List (SequenceId × List TokenId × List TokenId) :=
  (s.running ++ s.waiting).map (fun q => (q.id, q.prompt, q.output))

/-- **One move of a pass.** What a candidate list says of a running sequence
is only known to be true of *the* sequence with that id, so it is stated for
schedulers in which no id occurs twice. -/
inductive PassMove (p p' : Pass C) : Prop
  /-- The cache refused to grow. -/
  | refused {id : SequenceId} {c : C} {e : EngineError}
      (answer : KvCacheManagerLike.appendToken p.sched.cache id = (c, .error e))
      (result : p' = p.withCache c)
  /-- A decode step. -/
  | decoded {id : SequenceId} {totalLen : ℕ} {c : C}
      (room : p.used < p.budget)
      (answer : KvCacheManagerLike.appendToken p.sched.cache id = (c, .ok ()))
      (cand : p.sched.ids.Nodup → ∀ seq ∈ p.sched.running, seq.id = id →
        seq.state = .decoding ∧ totalLen = seq.totalLen)
      (result : p' = (p.withCache c).emit (Pass.decodeEntry id totalLen))
  /-- An eviction. -/
  | evicted (result : p.preemptOne = some p')
  /-- Another chunk of a prompt that is not through. -/
  | resumed {seq : Sequence} {chunk already : ℕ}
      (found : p.sched.running.findKey Sequence.id seq.id = some seq)
      (cand : p.sched.ids.Nodup → seq.state = .prefilling
        ∧ already = seq.computedPrefixLen ∧ chunk ≤ seq.remainingPrefill)
      (pos : 0 < chunk) (room : chunk ≤ p.budget - p.used)
      (result : p' = ({ p with sched := { p.sched with
          running := p.sched.running.updateKey Sequence.id seq.id (Pass.resumed · chunk) } }
        : Pass C).emit ⟨seq.id, chunk, already, true⟩)
  /-- An admission. -/
  | admitted {seq : Sequence} {rest : List Sequence} {chunk : ℕ} {c : C}
      (head : p.sched.waiting = seq :: rest) (first : seq.computedPrefixLen = 0)
      (slot : p.sched.running.length < p.sched.config.maxNumSeqs)
      (pos : 0 < chunk) (left : chunk ≤ seq.promptLen)
      (room : chunk ≤ p.budget - p.used)
      (answer : KvCacheManagerLike.allocate p.sched.cache seq.id seq.prompt = (c, .ok ()))
      (result : p' = (p.withCache c).bringIn seq rest chunk)
  /-- An admission without an allocation. -/
  | readmitted {seq : Sequence} {rest : List Sequence} {chunk : ℕ}
      (head : p.sched.waiting = seq :: rest) (started : seq.computedPrefixLen ≠ 0)
      (slot : p.sched.running.length < p.sched.config.maxNumSeqs)
      (pos : 0 < chunk) (left : chunk ≤ seq.promptLen - seq.computedPrefixLen)
      (room : chunk ≤ p.budget - p.used)
      (result : p' = p.bringIn seq rest chunk)
  /-- An allocation that failed although the cache had said it would not. -/
  | putBack {seq : Sequence} {rest : List Sequence} {c : C} {e : EngineError}
      (head : p.sched.waiting = seq :: rest)
      (available : KvCacheManagerLike.canAllocate p.sched.cache seq.promptLen = true)
      (answer : KvCacheManagerLike.allocate p.sched.cache seq.id seq.prompt = (c, .error e))
      (result : p' = { p with sched := { p.sched with
        cache := c, waiting := seq.preempt.1 :: rest } })

/-- A run of moves. -/
abbrev PassMoves : Pass C → Pass C → Prop := Relation.ReflTransGen PassMove

namespace Pass

/-! ## The ids -/

@[simp] theorem resumed_id (s : Sequence) (chunk : ℕ) : (resumed s chunk).id = s.id := by
  simp only [resumed]
  split <;> simp

@[simp] theorem resumed_prompt (s : Sequence) (chunk : ℕ) :
    (resumed s chunk).prompt = s.prompt := by
  simp only [resumed]
  split <;> simp

@[simp] theorem resumed_output (s : Sequence) (chunk : ℕ) :
    (resumed s chunk).output = s.output := by
  simp only [resumed]
  split <;> simp

@[simp] theorem prefilled_id (s : Sequence) (chunk : ℕ) : (prefilled s chunk).id = s.id := by
  simp only [prefilled]
  split <;> split <;> simp

@[simp] theorem prefilled_prompt (s : Sequence) (chunk : ℕ) :
    (prefilled s chunk).prompt = s.prompt := by
  simp only [prefilled]
  split <;> split <;> simp

@[simp] theorem prefilled_output (s : Sequence) (chunk : ℕ) :
    (prefilled s chunk).output = s.output := by
  simp only [prefilled]
  split <;> split <;> simp

end Pass

omit [KvCacheManagerLike C] in
theorem Scheduler.map_fst_roster (s : Scheduler C) : s.roster.map Prod.fst = s.ids := by
  unfold Scheduler.roster Scheduler.ids
  rw [List.map_map]
  rfl

omit [KvCacheManagerLike C] in
theorem Scheduler.map_contents (s : Scheduler C) :
    s.contents.map (fun c => (c.1, c.2.1)) = s.roster := by
  unfold Scheduler.contents Scheduler.roster
  rw [List.map_map]
  rfl

/-- **No move changes the order of service**: an admission takes the first
waiting sequence to the last running place, which is where it was in the
list, and an eviction takes it back. Nor does one touch a prompt or an
output. -/
theorem PassMove.contents {p p' : Pass C} (h : PassMove p p') :
    p'.sched.contents = p.sched.contents := by
  unfold Scheduler.contents
  cases h with
  | refused answer result => rw [result]; rfl
  | decoded room answer cand result => rw [result]; rfl
  | evicted result =>
    obtain ⟨older, victim, hrun, rfl⟩ := Pass.preemptOne_eq_some result
    rw [hrun]
    simp
  | resumed found cand pos room result =>
    rw [result]
    show (p.sched.running.updateKey _ _ _ ++ p.sched.waiting).map _ = _
    rw [List.map_append, List.map_append, List.map_updateKey_of_eq]
    intro a
    rw [Pass.resumed_id, Pass.resumed_prompt, Pass.resumed_output]
  | admitted head first slot pos left room answer result =>
    rw [result, head]
    simp [Pass.bringIn, Pass.emit, Pass.withCache]
  | readmitted head started slot pos left room result =>
    rw [result, head]
    simp [Pass.bringIn, Pass.emit]
  | putBack head available answer result =>
    rw [result, head]
    simp

theorem PassMove.roster {p p' : Pass C} (h : PassMove p p') :
    p'.sched.roster = p.sched.roster := by
  rw [← Scheduler.map_contents, ← Scheduler.map_contents, h.contents]

theorem PassMove.ids {p p' : Pass C} (h : PassMove p p') :
    p'.sched.ids = p.sched.ids := by
  rw [← Scheduler.map_fst_roster, ← Scheduler.map_fst_roster, h.roster]

theorem PassMoves.ids {p p' : Pass C} (h : PassMoves p p') :
    p'.sched.ids = p.sched.ids := by
  induction h with
  | refl => rfl
  | tail _ hmove ih => exact hmove.ids.trans ih

namespace Pass

omit [KvCacheManagerLike C] in
/-- What is running has no id twice either. -/
theorem nodup_running {p : Pass C} (h : p.sched.ids.Nodup) :
    (p.sched.running.map Sequence.id).Nodup := by
  unfold Scheduler.ids at h
  rw [List.map_append] at h
  exact (List.nodup_append.mp h).1

/-! ## The decode pass -/

/-- A candidate list is true of the running sequences. -/
def DecodeGuard (p : Pass C) (cands : List (SequenceId × ℕ)) : Prop :=
  p.sched.ids.Nodup → ∀ c ∈ cands, ∀ seq ∈ p.sched.running, seq.id = c.1 →
    seq.state = .decoding ∧ c.2 = seq.totalLen

omit [KvCacheManagerLike C] in
theorem decodeGuard_candidates (p : Pass C) :
    p.DecodeGuard (decodeCandidates p.sched.running) := by
  intro hnd c hc seq hseq hid
  obtain ⟨s, hs, rfl⟩ := List.mem_map.mp hc
  obtain ⟨hs, hstate⟩ := List.mem_filter.mp hs
  obtain rfl : seq = s := List.eq_of_key_eq (nodup_running hnd) hseq hs hid
  exact ⟨by simpa using hstate, rfl⟩

omit [KvCacheManagerLike C] in
/-- A candidate list stays true when the running queue only shrinks. -/
theorem DecodeGuard.mono {p p' : Pass C} {cands rest : List (SequenceId × ℕ)}
    (h : p.DecodeGuard cands) (hids : p'.sched.ids = p.sched.ids)
    (hrun : p'.sched.running ⊆ p.sched.running) (hrest : rest ⊆ cands) :
    p'.DecodeGuard rest := by
  intro hnd c hc seq hseq hid
  exact h (hids ▸ hnd) c (hrest hc) seq (hrun hseq) hid

/-- **The decode loop is a run of moves.** -/
theorem decodeLoop_moves (cands : List (SequenceId × ℕ)) :
    ∀ {p : Pass C}, p.DecodeGuard cands → PassMoves p (p.decodeLoop cands) := by
  induction cands with
  | nil => exact fun _ => .refl
  | cons c cands ih =>
    intro p hguard
    obtain ⟨id, totalLen⟩ := c
    have hcand := fun hnd => hguard hnd _ List.mem_cons_self
    have hsub : cands ⊆ (id, totalLen) :: cands := List.subset_cons_self _ _
    unfold decodeLoop
    split
    · exact .refl
    · next hroom =>
      split
      · next c hok =>
        have hmove : PassMove p ((p.withCache c).emit (decodeEntry id totalLen)) :=
          .decoded (not_le.mp hroom) hok hcand rfl
        exact Relation.ReflTransGen.head hmove
          (ih (hguard.mono hmove.ids (List.Subset.refl _) hsub))
      · next c e herr =>
        have hfail : PassMove p (p.withCache c) := .refused herr rfl
        split
        · exact Relation.ReflTransGen.single hfail
        · next p₁ hev =>
          have hevict : PassMove (p.withCache c) p₁ := .evicted hev
          have hguard₁ : p₁.DecodeGuard ((id, totalLen) :: cands) := by
            refine hguard.mono (hevict.ids.trans hfail.ids) ?_ (List.Subset.refl _)
            obtain ⟨older, victim, hrun, rfl⟩ := preemptOne_eq_some hev
            show older ⊆ p.sched.running
            have hrun : p.sched.running = older ++ [victim] := hrun
            rw [hrun]
            exact List.subset_append_left _ _
          have hroom₁ : p₁.used < p₁.budget := by
            obtain ⟨older, victim, hrun, rfl⟩ := preemptOne_eq_some hev
            exact not_le.mp hroom
          have hpre := (Relation.ReflTransGen.single hfail).tail hevict
          split
          · next c₁ hok =>
            have hmove : PassMove p₁ ((p₁.withCache c₁).emit (decodeEntry id totalLen)) :=
              .decoded hroom₁ hok (fun hnd => hguard₁ hnd _ List.mem_cons_self) rfl
            exact (hpre.tail hmove).trans
              (ih (hguard₁.mono hmove.ids (List.Subset.refl _) hsub))
          · next c₁ e₁ herr₁ =>
            have hmove : PassMove p₁ (p₁.withCache c₁) := .refused herr₁ rfl
            exact (hpre.tail hmove).trans
              (ih (hguard₁.mono hmove.ids (List.Subset.refl _) hsub))

theorem scheduleDecodes_moves (p : Pass C) : PassMoves p p.scheduleDecodes :=
  decodeLoop_moves _ p.decodeGuard_candidates

/-! ## The prefill pass -/

/-- A candidate list is true of the running sequences, and names none
twice. -/
def PartialGuard (p : Pass C) (cands : List (SequenceId × ℕ × ℕ)) : Prop :=
  p.sched.ids.Nodup → (cands.map Prod.fst).Nodup
    ∧ ∀ c ∈ cands, ∀ seq ∈ p.sched.running, seq.id = c.1 → seq.state = .prefilling
      ∧ c.2.1 = seq.computedPrefixLen ∧ c.2.2 = seq.remainingPrefill

omit [KvCacheManagerLike C] in
theorem partialGuard_candidates (p : Pass C) :
    p.PartialGuard (partialCandidates p.sched.running) := by
  intro hnd
  have hrun := nodup_running hnd
  refine ⟨?_, fun c hc seq hseq hid => ?_⟩
  · unfold partialCandidates
    rw [List.map_map]
    exact hrun.sublist (List.filter_sublist.map _)
  · obtain ⟨s, hs, rfl⟩ := List.mem_map.mp hc
    obtain ⟨hs, hstate⟩ := List.mem_filter.mp hs
    obtain rfl : seq = s := List.eq_of_key_eq hrun hseq hs hid
    rw [Bool.and_eq_true, decide_eq_true_iff] at hstate
    exact ⟨hstate.1, rfl, rfl⟩

omit [KvCacheManagerLike C] in
/-- Skipping a candidate. -/
theorem PartialGuard.tail {p : Pass C} {c : SequenceId × ℕ × ℕ}
    {cands : List (SequenceId × ℕ × ℕ)} (h : p.PartialGuard (c :: cands)) :
    p.PartialGuard cands := fun hnd =>
  ⟨(List.nodup_cons.mp (h hnd).1).2,
    fun c' hc' => (h hnd).2 c' (List.mem_cons_of_mem _ hc')⟩

/-- **The partial-prefill loop is a run of moves.** -/
theorem partialLoop_moves (cands : List (SequenceId × ℕ × ℕ)) :
    ∀ {p : Pass C}, p.PartialGuard cands → PassMoves p (p.partialLoop cands) := by
  induction cands with
  | nil => exact fun _ => .refl
  | cons c cands ih =>
    intro p hguard
    obtain ⟨id, already, remaining⟩ := c
    unfold partialLoop
    split
    · exact .refl
    split
    · exact ih hguard.tail
    next chunk hchunk =>
      split
      · exact ih hguard.tail
      next hpos =>
        split
        · exact ih hguard.tail
        next seq hfound =>
          obtain rfl : seq.id = id := List.key_of_findKey hfound
          have hle := chunkFor_le hchunk
          have hmove : PassMove p (({ p with sched := { p.sched with
              running := p.sched.running.updateKey Sequence.id seq.id (resumed · chunk) } }
              : Pass C).emit ⟨seq.id, chunk, already, true⟩) := by
            refine .resumed hfound (fun hnd => ?_) (Nat.pos_of_ne_zero hpos) hle.2 rfl
            obtain ⟨hstate, hal, hrem⟩ := (hguard hnd).2 _ List.mem_cons_self seq
              (List.mem_of_findKey hfound) rfl
            exact ⟨hstate, hal, hrem ▸ hle.1⟩
          refine Relation.ReflTransGen.head hmove (ih (fun hnd => ?_))
          rw [hmove.ids] at hnd
          obtain ⟨hnot, hnd'⟩ := List.nodup_cons.mp (hguard hnd).1
          refine ⟨hnd', fun c hc s hs hid => ?_⟩
          have hmem : c.1 ∈ cands.map Prod.fst := List.mem_map_of_mem hc
          have hne : s.id ≠ seq.id := fun heq => hnot (heq ▸ hid ▸ hmem)
          rcases List.mem_updateKey (nodup_running hnd) hs with ⟨hs, -⟩ | ⟨a, -, ha, rfl⟩
          · exact (hguard hnd).2 c (List.mem_cons_of_mem _ hc) s hs hid
          · exact absurd ((resumed_id a chunk).trans ha) hne

/-- **The admission loop is a run of moves.** -/
theorem admissionLoop_moves (p : Pass C) : PassMoves p p.admissionLoop := by
  fun_induction admissionLoop p with
  | case1 p hstop => exact .refl
  | case2 p hgo hw => exact .refl
  | case3 p hgo seq rest hw hc => exact .refl
  | case4 p hgo seq rest hw hc => exact .refl
  | case5 p hgo seq rest hw chunk hc hpos hfirst hcan c hok ih =>
    obtain ⟨hslot, hroom⟩ := not_or.mp hgo
    obtain ⟨hle, hfits⟩ := chunkFor_le hc
    refine Relation.ReflTransGen.head ?_ ih
    exact .admitted hw hfirst (not_le.mp hslot) (Nat.pos_of_ne_zero hpos)
      (hle.trans (Nat.sub_le _ _)) hfits hok rfl
  | case6 p hgo seq rest hw chunk hc hpos hfirst hcan c e herr =>
    exact Relation.ReflTransGen.single (.putBack hw hcan herr rfl)
  | case7 p hgo seq rest hw chunk hc hpos hfirst hcan hev => exact .refl
  | case8 p hgo seq rest hw chunk hc hpos hfirst hcan p₁ hev ih =>
    exact Relation.ReflTransGen.head (.evicted hev) ih
  | case9 p hgo seq rest hw chunk hc hpos hfirst ih =>
    obtain ⟨hslot, hroom⟩ := not_or.mp hgo
    obtain ⟨hle, hfits⟩ := chunkFor_le hc
    refine Relation.ReflTransGen.head ?_ ih
    exact .readmitted hw hfirst (not_le.mp hslot) (Nat.pos_of_ne_zero hpos) hle hfits rfl

theorem schedulePrefills_moves (p : Pass C) : PassMoves p p.schedulePrefills :=
  (partialLoop_moves _ p.partialGuard_candidates).trans (admissionLoop_moves _)

end Pass

/-- **A scheduling call is a run of moves**, in either order of the passes. -/
theorem Scheduler.passes_moves (s : Scheduler C) : PassMoves s.pass s.passes := by
  unfold Scheduler.passes
  split
  · exact (Pass.scheduleDecodes_moves _).trans (Pass.schedulePrefills_moves _)
  · exact (Pass.schedulePrefills_moves _).trans (Pass.scheduleDecodes_moves _)
