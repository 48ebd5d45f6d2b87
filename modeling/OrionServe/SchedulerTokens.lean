import OrionServe.SchedulerTurns
import OrionServe.SchedulerQueues

/-!
# What a turn takes off a workload

A workload ends when every request has had its last token. How far that is
away is the sum over the requests in service of the tokens they may still get:
a `schedule` call leaves it alone, wherever it moves the sequences, and every
token that is taken makes it smaller. A turn in which no token is taken is
the call and nothing else.

No pass finishes a sequence, and a token that finishes one does so because it
stops it or is the last one it asked for. So whatever a turn reaps has ended
with `Stop` or `Length`.
-/

variable {C : Type*} [KvCacheManagerLike C]

/-! ## The passes leave requests alone -/

/-- **What a pass may do to a sequence**: it keeps the request and what has
been generated for it, and finishes nobody. -/
structure Sequence.Moved (q q' : Sequence) : Prop where
  id : q'.id = q.id
  prompt : q'.prompt = q.prompt
  output : q'.output = q.output
  params : q'.params = q.params
  live : q.state ≠ .finished → q'.state ≠ .finished

namespace Sequence

variable {q q' q'' : Sequence}

theorem Moved.refl (q : Sequence) : q.Moved q := ⟨rfl, rfl, rfl, rfl, fun h => h⟩

theorem Moved.trans (h : q.Moved q') (h' : q'.Moved q'') : q.Moved q'' where
  id := h'.id.trans h.id
  prompt := h'.prompt.trans h.prompt
  output := h'.output.trans h.output
  params := h'.params.trans h.params
  live hne := h'.live (h.live hne)

theorem moved_transitionTo (q : Sequence) {st : SequenceState} (hst : st ≠ .finished) :
    q.Moved (q.transitionTo st).1 := by
  unfold transitionTo
  split
  · exact ⟨rfl, rfl, rfl, rfl, fun _ => hst⟩
  · exact .refl q

theorem moved_advancePrefill (q : Sequence) (chunk : ℕ) : q.Moved (q.advancePrefill chunk) :=
  ⟨rfl, rfl, rfl, rfl, fun h => h⟩

theorem moved_preempt (q : Sequence) : q.Moved q.preempt.1 := by
  unfold preempt
  split
  · exact ⟨rfl, rfl, rfl, rfl, fun _ => by simp⟩
  · exact .refl q

theorem moved_resumed (q : Sequence) (chunk : ℕ) : q.Moved (Pass.resumed q chunk) := by
  simp only [Pass.resumed]
  split
  · exact (q.moved_advancePrefill chunk).trans (moved_transitionTo _ (by simp))
  · exact q.moved_advancePrefill chunk

theorem moved_prefilled (q : Sequence) (chunk : ℕ) : q.Moved (Pass.prefilled q chunk) := by
  set q₁ := q.advancePrefill chunk with hq₁
  set q₂ := if q₁.state = .waiting then (q₁.transitionTo .prefilling).1 else q₁ with hq₂
  have hstart : q.Moved q₂ := by
    rw [hq₂]
    split
    · exact (q.moved_advancePrefill chunk).trans (moved_transitionTo _ (by simp))
    · exact q.moved_advancePrefill chunk
  show q.Moved (if q₂.isPrefillComplete then (q₂.transitionTo .decoding).1 else q₂)
  split
  · exact hstart.trans (moved_transitionTo _ (by simp))
  · exact hstart

end Sequence

/-- Two queues, sequence by sequence in the order of service. -/
abbrev MovedAll : List Sequence → List Sequence → Prop := List.Forall₂ Sequence.Moved

namespace MovedAll

theorem refl (l : List Sequence) : MovedAll l l :=
  List.forall₂_same.mpr (fun q _ => .refl q)

theorem trans {l l' l'' : List Sequence} (h : MovedAll l l') (h' : MovedAll l' l'') :
    MovedAll l l'' := by
  induction h generalizing l'' with
  | nil => exact h'
  | cons hq _ ih =>
    cases h' with
    | cons hq' hl' => exact .cons (hq.trans hq') (ih hl')

/-- One sequence moved, the others left. -/
theorem middle {l r : List Sequence} {q q' : Sequence} (h : q.Moved q') :
    MovedAll (l ++ q :: r) (l ++ q' :: r) :=
  List.rel_append (refl l) (.cons h (refl r))

/-- Whoever is there now was there before. -/
theorem exists_of_mem {l l' : List Sequence} (h : MovedAll l l') {q' : Sequence}
    (hq' : q' ∈ l') : ∃ q ∈ l, q.Moved q' := by
  induction h with
  | nil => exact absurd hq' List.not_mem_nil
  | @cons a b l l' hq _ ih =>
    rcases List.mem_cons.mp hq' with rfl | hq'
    · exact ⟨a, List.mem_cons_self, hq⟩
    · obtain ⟨q, hmem, hm⟩ := ih hq'
      exact ⟨q, List.mem_cons_of_mem _ hmem, hm⟩

/-- One record changed. -/
theorem updateKey (id : SequenceId) {f : Sequence → Sequence}
    (hf : ∀ q : Sequence, q.Moved (f q)) :
    ∀ l : List Sequence, MovedAll l (l.updateKey Sequence.id id f)
  | [] => .nil
  | q :: l => by
    show MovedAll (q :: l) (if q.id = id then f q :: l else q :: l.updateKey Sequence.id id f)
    split
    · exact .cons (hf q) (refl l)
    · exact .cons (.refl q) (updateKey id hf l)

end MovedAll

/-- **No move changes the order of service**, nor a request. -/
theorem PassMove.moved {p p' : Pass C} (hm : PassMove p p') :
    MovedAll p.sched.queue p'.sched.queue := by
  have hbring : ∀ {p : Pass C} {seq : Sequence} {rest : List Sequence} {chunk : ℕ},
      p.sched.waiting = seq :: rest →
      MovedAll p.sched.queue (p.bringIn seq rest chunk).sched.queue := by
    intro p seq rest chunk head
    show MovedAll (p.sched.running ++ p.sched.waiting)
      ((p.sched.running ++ [Pass.prefilled seq chunk]) ++ rest)
    rw [head, List.append_assoc]
    exact MovedAll.middle (seq.moved_prefilled chunk)
  cases hm with
  | refused answer result => rw [result]; exact MovedAll.refl _
  | decoded room answer cand result => rw [result]; exact MovedAll.refl _
  | evicted result =>
    obtain ⟨older, victim, hrun, rfl⟩ := Pass.preemptOne_eq_some result
    show MovedAll (p.sched.running ++ _) (older ++ victim.preempt.1 :: _)
    rw [hrun, List.append_assoc]
    exact MovedAll.middle victim.moved_preempt
  | @resumed seq chunk already found cand pos room result =>
    rw [result]
    show MovedAll (p.sched.running ++ _) (p.sched.running.updateKey _ _ _ ++ _)
    exact List.rel_append (MovedAll.updateKey seq.id (fun q => q.moved_resumed chunk) _)
      (MovedAll.refl _)
  | @admitted seq rest chunk c head first slot pos left room answer result =>
    rw [result]
    exact hbring (p := p.withCache c) head
  | readmitted head started slot pos left room result =>
    rw [result]
    exact hbring head
  | @putBack seq rest c e head available answer result =>
    rw [result]
    show MovedAll (p.sched.running ++ p.sched.waiting) (p.sched.running ++ seq.preempt.1 :: rest)
    rw [head]
    exact MovedAll.middle seq.moved_preempt

/-- Nor does a scheduling call. -/
theorem PassMoves.moved {p p' : Pass C} (hm : PassMoves p p') :
    MovedAll p.sched.queue p'.sched.queue := by
  induction hm with
  | refl => exact MovedAll.refl _
  | tail _ hmove ih => exact MovedAll.trans ih hmove.moved

/-! ## The tokens to go -/

namespace Sequence

variable {q q' : Sequence}

/-- The tokens a request may still get. The limit is looked at when a token
has come, so a limit of none is a limit of one. -/
def togo (q : Sequence) : ℕ := max 1 q.params.maxTokens - q.output.length

/-- A request that waits for a token. -/
structure Going (q : Sequence) : Prop where
  live : q.state ≠ .finished
  below : q.output.length < max 1 q.params.maxTokens

/-- A request that has had its last token. -/
def Ended (q : Sequence) : Prop :=
  q.state = .finished ∧ (q.finishReason = some .stop ∨ q.finishReason = some .length)

theorem Moved.togo (h : q.Moved q') : q'.togo = q.togo := by
  unfold Sequence.togo
  rw [h.params, h.output]

theorem Moved.going (h : q.Moved q') (hg : q.Going) : q'.Going where
  live := h.live hg.live
  below := by
    rw [h.params, h.output]
    exact hg.below

theorem tokenReceived_id (token : TokenId) (eosIds : List TokenId) (q : Sequence) :
    (Scheduler.tokenReceived token eosIds q).id = q.id := by
  simp only [Scheduler.tokenReceived]
  split
  · exact finish_id _ _
  · rfl

/-- **A token**: the request goes on, or has ended. -/
theorem Going.tokenReceived (h : q.Going) (token : TokenId) (eosIds : List TokenId) :
    (Scheduler.tokenReceived token eosIds q).togo < q.togo
    ∧ ((Scheduler.tokenReceived token eosIds q).Going
      ∨ (Scheduler.tokenReceived token eosIds q).Ended) := by
  have hlen : (q.pushToken token).output.length = q.output.length + 1 := by
    show (q.output ++ [token]).length = _
    rw [List.length_append, List.length_singleton]
  have hless : (q.pushToken token).togo < q.togo := by
    have hbelow := h.below
    show max 1 q.params.maxTokens - (q.pushToken token).output.length < _
    unfold togo
    rw [hlen]
    omega
  have hlive : (q.pushToken token).state ≠ .finished := h.live
  have hfinish : ∀ r, ((q.pushToken token).finish r).togo = (q.pushToken token).togo
      ∧ (q.pushToken token).finish r
        = { q.pushToken token with state := .finished, finishReason := some r } := by
    intro r
    unfold finish
    rw [if_neg hlive]
    exact ⟨rfl, rfl⟩
  simp only [Scheduler.tokenReceived]
  rcases hstop : Scheduler.stopReason (q.pushToken token) token eosIds
      (q.pushToken token).params with - | r
  · refine ⟨hless, Or.inl ⟨hlive, ?_⟩⟩
    -- the limit has not been reached
    unfold Scheduler.stopReason at hstop
    split at hstop
    · exact absurd hstop (by simp)
    split at hstop
    · exact absurd hstop (by simp)
    · next hmore =>
      unfold reachedMaxTokens at hmore
      exact lt_max_of_lt_right (not_le.mp (fun hle => hmore (decide_eq_true hle)))
  · refine ⟨?_, Or.inr ?_⟩
    · show ((q.pushToken token).finish r).togo < _
      rw [(hfinish r).1]
      exact hless
    · show ((q.pushToken token).finish r).Ended
      rw [(hfinish r).2]
      refine ⟨rfl, ?_⟩
      unfold Scheduler.stopReason at hstop
      split at hstop
      · exact Or.inl hstop.symm
      split at hstop
      · exact Or.inr hstop.symm
      · exact absurd hstop (by simp)

theorem Ended.tokenReceived (h : q.Ended) (token : TokenId) (eosIds : List TokenId) :
    (Scheduler.tokenReceived token eosIds q).Ended := by
  simp only [Scheduler.tokenReceived]
  split
  · unfold finish
    rw [if_pos (show (q.pushToken token).state = .finished from h.1)]
    exact h
  · exact h

end Sequence

theorem MovedAll.map_togo {l l' : List Sequence} (h : MovedAll l l') :
    l'.map Sequence.togo = l.map Sequence.togo := by
  induction h with
  | nil => rfl
  | cons hq _ ih => exact congrArg₂ List.cons hq.togo ih

namespace Scheduler

variable {s s' : Scheduler C} {eosIds : List TokenId} {tokens : ℕ → TokenId}

/-- The tokens that the requests in service may still get. -/
def togo (s : Scheduler C) : ℕ := (s.queue.map Sequence.togo).sum

/-- Whether somebody is due a token when the batch comes back. -/
def Due (s : Scheduler C) (scheduled : List ScheduledSequence) : Prop :=
  ∃ d ∈ scheduled, s.takesToken d.id = true

omit [KvCacheManagerLike C] in
theorem togo_of_moved (h : MovedAll s.queue s'.queue) : s'.togo = s.togo :=
  congrArg List.sum (MovedAll.map_togo h)

omit [KvCacheManagerLike C] in
theorem going_of_moved (h : MovedAll s.queue s'.queue) (hg : ∀ q ∈ s.queue, q.Going) :
    ∀ q ∈ s'.queue, q.Going := by
  intro q' hq'
  obtain ⟨q, hq, hm⟩ := MovedAll.exists_of_mem h hq'
  exact hm.going (hg q hq)

/-! ## The tokens of a batch -/

omit [KvCacheManagerLike C] in
/-- A running sequence that is due a token. -/
theorem takesToken_iff {id : SequenceId} : s.takesToken id = true ↔
    ∃ q, s.runningSequence id = some q ∧ q.state ≠ .finished
      ∧ q.prompt.length ≤ q.computedPrefixLen := by
  unfold takesToken
  rcases s.runningSequence id with - | q
  · simp
  · simp [Sequence.isFinished, Sequence.isPrefillComplete]

/-- What the tokens of a batch leave: running sequences that wait for a token
or have had their last. -/
def Answering (s : Scheduler C) : Prop := ∀ q ∈ s.running, q.Going ∨ q.Ended

omit [KvCacheManagerLike C] in
/-- **The answer to one entry**: nothing, or a token and one less to go. -/
theorem answerEntry_cases (eosIds : List TokenId) (tokens : ℕ → TokenId) (h : s.Answering)
    (x : ScheduledSequence × ℕ) :
    (s.takesToken x.1.id = false ∧ answerEntry eosIds tokens s x = s)
    ∨ (s.takesToken x.1.id = true ∧ (answerEntry eosIds tokens s x).togo < s.togo
      ∧ (answerEntry eosIds tokens s x).Answering
      ∧ ∃ running, answerEntry eosIds tokens s x = { s with running := running }
        ∧ running.map (fun q => (q.id, q.prompt))
          = s.running.map (fun q => (q.id, q.prompt))) := by
  rcases htakes : s.takesToken x.1.id with - | -
  · refine Or.inl ⟨rfl, ?_⟩
    unfold answerEntry
    rw [htakes]
    rfl
  obtain ⟨q, hq, hlive, -⟩ := takesToken_iff.mp htakes
  have hgoing : q.Going := by
    refine (h q (List.mem_of_findKey hq)).resolve_right (fun hend => hlive hend.1)
  have hanswer : answerEntry eosIds tokens s x = { s with
      running := List.updateKey Sequence.id x.1.id (tokenReceived (tokens x.2) eosIds)
        s.running } := by
    unfold answerEntry
    rw [htakes, if_pos rfl]
    unfold onToken
    rw [hq]
  refine Or.inr ⟨rfl, ?_, ?_, _, hanswer, ?_⟩
  · rw [hanswer]
    show ((_ ++ s.waiting).map _).sum < ((s.running ++ s.waiting).map _).sum
    rw [List.map_append, List.map_append, List.sum_append, List.sum_append]
    refine Nat.add_lt_add_right (Nat.lt_of_add_lt_add_right (n := q.togo) ?_) _
    rw [List.sum_updateKey hq]
    exact Nat.add_lt_add_left (hgoing.tokenReceived (tokens x.2) eosIds).1 _
  · rw [hanswer]
    intro r hr
    rcases List.of_mem_updateKey hr with hr | ⟨a, ha, rfl⟩
    · exact h r hr
    · rcases h a ha with hg | he
      · exact (hg.tokenReceived _ _).2
      · exact Or.inr (he.tokenReceived _ _)
  · refine List.map_updateKey_of_eq (fun a => ?_)
    rw [Sequence.tokenReceived_id, (a.ends_tokenReceived (tokens x.2) eosIds).prompt]

variable (eosIds tokens) in
omit [KvCacheManagerLike C] in
/-- **The answer to a batch**: if nobody is due a token it is nothing, and
otherwise there is less to go. -/
theorem answer_spec (xs : List (ScheduledSequence × ℕ)) :
    ∀ {s : Scheduler C}, s.Answering →
      (xs.foldl (answerEntry eosIds tokens) s).Answering
      ∧ (∃ running, xs.foldl (answerEntry eosIds tokens) s = { s with running := running }
        ∧ running.map (fun q => (q.id, q.prompt)) = s.running.map (fun q => (q.id, q.prompt)))
      ∧ (xs.foldl (answerEntry eosIds tokens) s).togo ≤ s.togo
      ∧ ((∃ x ∈ xs, s.takesToken x.1.id = true) →
        (xs.foldl (answerEntry eosIds tokens) s).togo < s.togo)
      ∧ ((∀ x ∈ xs, s.takesToken x.1.id = false) →
        xs.foldl (answerEntry eosIds tokens) s = s) := by
  induction xs with
  | nil =>
    exact fun {s} h => ⟨h, ⟨s.running, rfl, rfl⟩, le_rfl,
      fun ⟨x, hx, _⟩ => absurd hx List.not_mem_nil,
      fun _ => rfl⟩
  | cons x xs ih =>
    intro s h
    rw [List.foldl_cons]
    rcases answerEntry_cases eosIds tokens h x with
      ⟨hno, hsame⟩ | ⟨hyes, hless, hans, running, hrun, hids⟩
    · rw [hsame]
      obtain ⟨hans, hrun, hle, hlt, hidle⟩ := ih h
      refine ⟨hans, hrun, hle, ?_,
        fun hall => hidle (fun y hy => hall y (List.mem_cons_of_mem _ hy))⟩
      rintro ⟨y, hy, hdue⟩
      rcases List.mem_cons.mp hy with rfl | hy
      · exact absurd (hno.symm.trans hdue) (by simp)
      · exact hlt ⟨y, hy, hdue⟩
    · obtain ⟨hans', ⟨running', hrun', hids'⟩, hle, -, -⟩ := ih hans
      refine ⟨hans', ⟨running', ?_, ?_⟩, hle.trans hless.le, fun _ => hle.trans_lt hless,
        fun hall => ?_⟩
      · rw [hrun', hrun]
      · rw [hids', hrun]
        exact hids
      · exact absurd ((hall x List.mem_cons_self).symm.trans hyes) (by simp)

/-! ## Whole turns -/

/-- Whom a turn takes out of the running queue. -/
def reaped (eosIds : List TokenId) (tokens : ℕ → TokenId) (s : Scheduler C) : List Sequence :=
  (s.schedule.1.answer eosIds tokens s.schedule.2.scheduled).reapFinished.2

omit [KvCacheManagerLike C] in
/-- Somebody of a batch is due a token, by the batch with its places. -/
theorem due_iff {scheduled : List ScheduledSequence} : s.Due scheduled
    ↔ ∃ x ∈ scheduled.zipIdx, s.takesToken x.1.id = true := by
  constructor
  · rintro ⟨d, hd, htakes⟩
    obtain ⟨i, hi⟩ := List.mem_iff_getElem?.mp hd
    exact ⟨(d, i), List.mem_zipIdx_iff_getElem?.mpr hi, htakes⟩
  · rintro ⟨⟨d, i⟩, hx, htakes⟩
    exact ⟨d, List.mem_of_getElem? (List.mem_zipIdx_iff_getElem?.mp hx), htakes⟩

/-- Reaping takes what it takes off what there is to go. -/
theorem reapFinished_togo_le (s : Scheduler C) : s.reapFinished.1.togo ≤ s.togo := by
  have hsub : (s.running.filter (fun r => !r.isFinished) ++ s.waiting).Sublist s.queue :=
    List.filter_sublist.append_right _
  exact (hsub.map Sequence.togo).sum_le_sum (fun _ _ => Nat.zero_le _)

/-- Nobody is finished, nobody is reaped. -/
theorem reapFinished_of_live (h : ∀ q ∈ s.running, q.state ≠ .finished) :
    s.reapFinished.1 = s := by
  have hnone : s.running.filter Sequence.isFinished = [] := by
    refine List.filter_eq_nil_iff.mpr (fun q hq => ?_)
    simpa [Sequence.isFinished] using h q hq
  have hall : s.running.filter (fun r => !r.isFinished) = s.running := by
    refine List.filter_eq_self.mpr (fun q hq => ?_)
    simpa [Sequence.isFinished] using h q hq
  unfold reapFinished
  rw [hnone, hall]
  rfl

/-- **What a turn does to the requests in service**: each is still there or
has ended, those that are there go on, and there is less to go if somebody
was due a token. Otherwise the turn was the call and nothing else. -/
structure Advances (s s₁ s' : Scheduler C) (scheduled : List ScheduledSequence)
    (gone : List Sequence) : Prop where
  going : ∀ q ∈ s'.queue, q.Going
  kept : ∀ q ∈ s.queue, (∃ q' ∈ s'.queue, q'.id = q.id) ∨ ∃ r ∈ gone, r.id = q.id ∧ r.Ended
  less : s₁.Due scheduled → s'.togo < s.togo
  same : ¬ s₁.Due scheduled → s' = s₁

/-- **Step lemma.** -/
theorem turn_advances (h : ∀ q ∈ s.queue, q.Going) :
    s.Advances s.schedule.1 (s.turn eosIds tokens).1 s.schedule.2.scheduled
      (s.reaped eosIds tokens) := by
  have hmoved : MovedAll s.queue s.schedule.1.queue := PassMoves.moved s.passes_moves
  set s₁ := s.schedule.1 with hs₁
  have hgoing₁ : ∀ q ∈ s₁.queue, q.Going := going_of_moved hmoved h
  have hids : s₁.ids = s.ids := s.schedule_ids
  obtain ⟨hans, ⟨running, hrun, hkeys⟩, hle, hless, hsame⟩ :=
    answer_spec eosIds tokens s.schedule.2.scheduled.zipIdx
      (s := s₁) (fun q hq => Or.inl (hgoing₁ q (List.mem_append_left _ hq)))
  have hfold : s₁.answer eosIds tokens s.schedule.2.scheduled
      = s.schedule.2.scheduled.zipIdx.foldl (answerEntry eosIds tokens) s₁ := rfl
  rw [← hfold] at hans hrun hle hless hsame
  have hturn : (s.turn eosIds tokens).1
      = (s₁.answer eosIds tokens s.schedule.2.scheduled).reapFinished.1 := rfl
  have hgone : s.reaped eosIds tokens
      = (s₁.answer eosIds tokens s.schedule.2.scheduled).reapFinished.2 := rfl
  rw [hturn, hgone]
  set s₂ := s₁.answer eosIds tokens s.schedule.2.scheduled with hs₂
  have hwait : s₂.waiting = s₁.waiting := by rw [hrun]
  refine ⟨fun q hq => ?_, fun q hq => ?_, fun hdue => ?_, fun hno => ?_⟩
  · rcases List.mem_append.mp hq with hq | hq
    · obtain ⟨hq, hlive⟩ := List.mem_filter.mp hq
      refine (hans q hq).resolve_right (fun hend => ?_)
      simp [Sequence.isFinished, hend.1] at hlive
    · refine hgoing₁ q (List.mem_append_right _ ?_)
      rw [← hwait]
      exact hq
  · have hid : q.id ∈ s₁.ids := by
      rw [hids]
      exact mem_ids_of_mem_queue hq
    rcases mem_ids_iff.mp hid with hid | hid
    · have hid₂ : q.id ∈ s₂.running.map Sequence.id := by
        have hmap := congrArg (List.map Prod.fst) hkeys
        rw [List.map_map, List.map_map] at hmap
        rw [hrun]
        exact hmap.symm ▸ hid
      obtain ⟨r, hr, hrid⟩ := List.mem_map.mp hid₂
      rcases hfin : r.isFinished with - | -
      · exact Or.inl ⟨r, List.mem_append_left _ (List.mem_filter.mpr ⟨hr, by simp [hfin]⟩), hrid⟩
      · refine Or.inr ⟨r, List.mem_filter.mpr ⟨hr, hfin⟩, hrid, ?_⟩
        exact (hans r hr).resolve_left (fun hgo => hgo.live (of_decide_eq_true hfin))
    · obtain ⟨w, hw, hwid⟩ := List.mem_map.mp hid
      refine Or.inl ⟨w, List.mem_append_right _ ?_, hwid⟩
      show w ∈ s₂.waiting
      rw [hwait]
      exact hw
  · calc s₂.reapFinished.1.togo
        ≤ s₂.togo := s₂.reapFinished_togo_le
      _ < s₁.togo := hless (due_iff.mp hdue)
      _ = s.togo := togo_of_moved hmoved
  · have hidle : s₂ = s₁ := by
      refine hsame (fun x hx => ?_)
      rcases htakes : s₁.takesToken x.1.id with - | -
      · rfl
      · exact absurd (due_iff.mpr ⟨x, hx, htakes⟩) hno
    rw [hidle]
    exact reapFinished_of_live (fun q hq => (hgoing₁ q (List.mem_append_left _ hq)).live)

end Scheduler
