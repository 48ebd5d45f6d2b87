import OrionServe.SchedulerTokens
import OrionServe.SchedulerStages

/-!
# The context length

`add_request` compares the prompt and the tokens asked for with the longest
sequence the model takes. The two are added before they are compared, and
the sum is a `usize`, so that a request for nearly `2 ^ 64` tokens is let in
after any prompt. `validate` bounds `max_tokens` from below only.

A request whose two lengths add up without leaving `usize` is let in only if
it fits. From then on nothing is scheduled past the limit: a prefill entry is
a part of the prompt, and a decode entry is for a sequence that goes on, which
has fewer tokens than it asked for. This is so over any cache, whoever is
evicted and admitted again.
-/

variable {C : Type*} [KvCacheManagerLike C]

namespace Scheduler

/-- Whether `add_request` adds two lengths whose sum is no `usize`: it comes
to the sum unless the queue is full. -/
def SumOverflows (s : Scheduler C) (seq : Sequence) : Prop :=
  s.waiting.length < s.config.maxWaitingRequests
    ∧ 2 ^ 64 ≤ seq.promptLen + seq.params.maxTokens

/-- **The check of the context length does what it is for**: it overflows on
nothing, and lets in nothing that is too long. -/
def ContextChecked (s : Scheduler C) (seq : Sequence) : Prop :=
  ¬ s.SumOverflows seq
    ∧ ∀ id, (s.addRequest seq).2 = .ok id →
      seq.promptLen + seq.params.maxTokens ≤ s.maxModelLen

/-- A request that is let in has passed the check, as it is. -/
theorem addRequest_ok {s : Scheduler C} {seq : Sequence} {id : SequenceId}
    (h : (s.addRequest seq).2 = .ok id) : s.waiting.length < s.config.maxWaitingRequests
      ∧ (seq.promptLen + seq.params.maxTokens) % 2 ^ 64 ≤ s.maxModelLen := by
  unfold addRequest at h
  split at h
  · exact absurd h (by simp)
  next hroom =>
  split at h
  · exact absurd h (by simp)
  next hfits => exact ⟨not_le.mp hroom, not_lt.mp hfits⟩

/-- **Exactly when it does.** -/
theorem contextChecked_iff (s : Scheduler C) (seq : Sequence) : s.ContextChecked seq ↔
    s.config.maxWaitingRequests ≤ s.waiting.length
      ∨ seq.promptLen + seq.params.maxTokens < 2 ^ 64 := by
  constructor
  · rintro ⟨hno, -⟩
    by_contra! hboth
    exact hno hboth
  · rintro (hfull | hsmall)
    · refine ⟨fun hover => absurd hfull (not_le.mpr hover.1), fun id hok => ?_⟩
      exact absurd hfull (not_le.mpr (addRequest_ok hok).1)
    · refine ⟨fun hover => absurd hsmall (not_lt.mpr hover.2), fun id hok => ?_⟩
      have hle := (addRequest_ok hok).2
      rwa [Nat.mod_eq_of_lt hsmall] at hle

end Scheduler

/-! ## Requests within the limit -/

/-- **A request within the limit**: prompt and tokens asked for fit, and as
long as it goes on it has fewer. -/
structure Sequence.Within (limit : ℕ) (q : Sequence) : Prop where
  asks : 1 ≤ q.params.maxTokens
  room : q.promptLen + q.params.maxTokens ≤ limit
  going : q.state ≠ .finished → q.Going

namespace Sequence.Within

variable {limit : ℕ} {q q' : Sequence}

/-- What goes on has room for another token. -/
theorem totalLen_lt (h : q.Within limit) (hlive : q.state ≠ .finished) : q.totalLen < limit := by
  have hbelow := (h.going hlive).below
  have hroom := h.room
  rw [max_eq_right h.asks] at hbelow
  exact lt_of_lt_of_le (Nat.add_lt_add_left hbelow _) hroom

theorem promptLen_le (h : q.Within limit) : q.promptLen ≤ limit :=
  (Nat.le_add_right _ _).trans h.room

/-- A record that asks for the same and goes on only if the other did. -/
theorem congr (h : q.Within limit) (hprompt : q'.prompt = q.prompt)
    (hparams : q'.params = q.params)
    (hgoing : q'.state ≠ .finished → q'.Going) : q'.Within limit where
  asks := by
    rw [hparams]
    exact h.asks
  room := by
    show q'.prompt.length + _ ≤ limit
    rw [hprompt, hparams]
    exact h.room
  going := hgoing

theorem tokenReceived (h : q.Within limit) (token : TokenId) (eosIds : List TokenId) :
    (Scheduler.tokenReceived token eosIds q).Within limit := by
  have hsame : (Scheduler.tokenReceived token eosIds q).prompt = q.prompt
      ∧ (Scheduler.tokenReceived token eosIds q).params = q.params := by
    simp only [Scheduler.tokenReceived]
    split
    · exact ⟨finish_prompt _ _, finish_params _ _⟩
    · exact ⟨rfl, rfl⟩
  refine h.congr hsame.1 hsame.2 (fun hlive => ?_)
  by_cases hfin : q.state = .finished
  · -- a finished sequence stays finished
    refine absurd ?_ hlive
    simp only [Scheduler.tokenReceived]
    split
    · exact finish_state _ _
    · exact hfin
  · exact ((h.going hfin).tokenReceived token eosIds).2.resolve_right (fun hend => hlive hend.1)

end Sequence.Within

namespace Scheduler

variable {limit : ℕ} {s s' : Scheduler C}

/-- **Everybody in service is within the limit.** -/
def Within (limit : ℕ) (s : Scheduler C) : Prop := ∀ q ∈ s.queue, q.Within limit

omit [KvCacheManagerLike C] in
theorem Within.of_subset (h : s.Within limit) (hsub : ∀ q ∈ s'.queue, q ∈ s.queue) :
    s'.Within limit := fun q hq => h q (hsub q hq)

/-- The passes of a call move requests and leave them as they are. -/
theorem Within.moves {p p' : Pass C} (h : p.sched.Within limit) (hnd : p.sched.ids.Nodup)
    (hm : PassMoves p p') : p'.sched.Within limit := by
  intro q' hq'
  obtain ⟨q, hq, hmoved⟩ := MovedAll.exists_of_mem hm.moved hq'
  refine (h q hq).congr hmoved.prompt hmoved.params (fun hlive => ?_)
  obtain ⟨x, hx, hid, hxlive⟩ := hm.unfinished q' hq' hlive
  obtain rfl := eq_of_id_eq hnd hx hq (hid.trans hmoved.id)
  exact hmoved.going ((h x hx).going hxlive)

/-! ## What each operation does -/

theorem Within.addRequest (h : s.Within limit) {seq : Sequence} (hout : seq.output = [])
    (hasks : 1 ≤ seq.params.maxTokens)
    (hsmall : seq.promptLen + seq.params.maxTokens < 2 ^ 64) (hlimit : s.maxModelLen = limit) :
    (s.addRequest seq).1.Within limit := by
  rcases s.addRequest_cases seq with ⟨e, he⟩ | ⟨hok, -⟩
  · rw [he]
    exact h
  · have hfits := ((s.contextChecked_iff seq).mpr (Or.inr hsmall)).2 seq.id (by rw [hok])
    rw [hok]
    intro q hq
    rw [queue, ← List.append_assoc] at hq
    rcases List.mem_append.mp hq with hq | hq
    · exact h q hq
    · rw [List.mem_singleton.mp hq]
      refine ⟨hasks, hlimit ▸ hfits, fun hlive => ⟨hlive, ?_⟩⟩
      rw [hout]
      exact lt_of_lt_of_le Nat.zero_lt_one (le_max_left _ _)

omit [KvCacheManagerLike C] in
theorem Within.onToken (h : s.Within limit) (id : SequenceId) (token : TokenId)
    (eosIds : List TokenId) : (s.onToken id token eosIds).1.Within limit := by
  unfold Scheduler.onToken
  split
  · exact h
  · intro q hq
    rcases List.mem_append.mp hq with hq | hq
    · rcases List.of_mem_updateKey hq with hq | ⟨a, ha, rfl⟩
      · exact h q (List.mem_append_left _ hq)
      · exact (h a (List.mem_append_left _ ha)).tokenReceived token eosIds
    · exact h q (List.mem_append_right _ hq)

omit [KvCacheManagerLike C] in
theorem Within.expireTimeouts (h : s.Within limit) (now : Instant) :
    (s.expireTimeouts now).1.Within limit := by
  intro q' hq'
  obtain ⟨q, hq, -, hprompt, -, hparams, -⟩ := of_mem_expireTimeouts hq'
  refine (h q hq).congr hprompt hparams (fun hlive => ?_)
  exact (h q' (mem_queue_of_expireTimeouts hq' hlive)).going hlive

theorem Within.reapFinished (h : s.Within limit) : s.reapFinished.1.Within limit :=
  h.of_subset (fun _ hq => (List.mem_append.mp hq).elim
    (fun hq => List.mem_append_left _ (List.mem_filter.mp hq).1)
    (fun hq => List.mem_append_right _ hq))

theorem Within.cancel (h : s.Within limit) (id : SequenceId) : (s.cancel id).1.Within limit := by
  unfold Scheduler.cancel
  split
  · exact h.of_subset (fun q hq => (List.mem_append.mp hq).elim (List.mem_append_left _)
      (fun hq => List.mem_append_right _ (List.mem_of_mem_eraseP hq)))
  split
  · exact h.of_subset (fun q hq => (List.mem_append.mp hq).elim
      (fun hq => List.mem_append_left _ (List.mem_of_mem_eraseP hq))
      (List.mem_append_right _))
  · exact h

end Scheduler

/-! ## What is scheduled -/

/-- **The prefill entries so far end within the limit.** -/
def Pass.PrefillsWithin (limit : ℕ) (p : Pass C) : Prop :=
  ∀ e ∈ p.out.scheduled, e.isPrefill = true → e.startPosition + e.numTokens ≤ limit

section Passes

variable {limit : ℕ} {p p' : Pass C}

omit [KvCacheManagerLike C] in
/-- One more entry. -/
theorem Pass.PrefillsWithin.emit (h : p.PrefillsWithin limit) {e : ScheduledSequence}
    (hout : p'.out.scheduled = p.out.scheduled ++ [e])
    (he : e.isPrefill = true → e.startPosition + e.numTokens ≤ limit) :
    p'.PrefillsWithin limit := by
  intro x hx
  rw [hout] at hx
  rcases List.mem_append.mp hx with hx | hx
  · exact h x hx
  · rw [List.mem_singleton.mp hx]
    exact he

/-- **Step lemma**: a prefill entry is a part of a prompt. -/
theorem PassMove.prefillsWithin (hm : PassMove p p') (hnd : p.sched.ids.Nodup)
    (hs : p.sched.Within limit) (h : p.PrefillsWithin limit) : p'.PrefillsWithin limit := by
  have hhead : ∀ {seq : Sequence} {rest : List Sequence}, p.sched.waiting = seq :: rest →
      seq.Within limit := by
    intro seq rest head
    refine hs seq (List.mem_append_right _ ?_)
    rw [head]
    exact List.mem_cons_self
  cases hm with
  | refused answer result => rw [result]; exact h
  | decoded room answer cand result =>
    rw [result]
    exact h.emit rfl (fun hpre => absurd hpre (by simp [Pass.decodeEntry]))
  | evicted result =>
    obtain ⟨older, victim, -, rfl⟩ := Pass.preemptOne_eq_some result
    exact h
  | @resumed seq chunk already found cand pos room result =>
    rw [result]
    refine h.emit rfl (fun _ => ?_)
    obtain ⟨-, hstart, hleft⟩ := cand hnd
    have hlen := (hs seq (List.mem_append_left _ (List.mem_of_findKey found))).promptLen_le
    show already + chunk ≤ limit
    unfold Sequence.remainingPrefill at hleft
    unfold Sequence.promptLen at hlen
    omega
  | @admitted seq rest chunk c head first slot pos left room answer result =>
    rw [result]
    refine h.emit rfl (fun _ => ?_)
    show seq.computedPrefixLen + chunk ≤ limit
    rw [first, Nat.zero_add]
    exact left.trans (hhead head).promptLen_le
  | @readmitted seq rest chunk head started slot pos left room result =>
    rw [result]
    refine h.emit rfl (fun _ => ?_)
    have hlen := (hhead head).promptLen_le
    show seq.computedPrefixLen + chunk ≤ limit
    omega
  | putBack head available answer result => rw [result]; exact h

/-- **Run lemma.** -/
theorem PassMoves.prefillsWithin (hm : PassMoves p p') (hnd : p.sched.ids.Nodup)
    (hs : p.sched.Within limit) (h : p.PrefillsWithin limit) : p'.PrefillsWithin limit := by
  induction hm with
  | refl => exact h
  | tail hmoves hmove ih =>
    refine hmove.prefillsWithin ?_ (hs.moves hnd hmoves) ih
    rw [PassMoves.ids hmoves]
    exact hnd

/-- A decode entry is for a sequence that goes on. -/
theorem Pass.scheduleDecodes_within (hs : p.sched.Within limit) {d : ScheduledSequence}
    (hd : d ∈ p.scheduleDecodes.out.scheduled) (hnew : d ∉ p.out.scheduled) :
    d.startPosition + d.numTokens ≤ limit := by
  obtain ⟨c, hc, rfl⟩ := (decodeLoop_scheduled _ p d hd).resolve_left hnew
  obtain ⟨r, hr, rfl⟩ := List.mem_map.mp hc
  obtain ⟨hr, hstate⟩ := List.mem_filter.mp hr
  refine (hs r (List.mem_append_left _ hr)).totalLen_lt ?_
  rw [of_decide_eq_true hstate]
  simp

end Passes

/-- **Every entry of a call** on a scheduler whose requests are within the
limit. -/
theorem Scheduler.Within.schedule {limit : ℕ} {s : Scheduler C} (h : s.Within limit)
    (hnd : s.ids.Nodup) :
    ∀ e ∈ s.schedule.2.scheduled, e.startPosition + e.numTokens ≤ limit := by
  intro e he
  by_cases hpre : e.isPrefill = true
  · exact PassMoves.prefillsWithin s.passes_moves hnd h
      (fun x hx => absurd hx List.not_mem_nil) e he hpre
  change e ∈ s.passes.out.scheduled at he
  unfold Scheduler.passes at he
  split at he
  · have hold := (Pass.schedulePrefills_scheduled _ e he).resolve_right hpre
    exact Pass.scheduleDecodes_within (p := s.pass) h hold List.not_mem_nil
  · have hmoves := s.pass.schedulePrefills_moves
    refine Pass.scheduleDecodes_within (h.moves (p := s.pass) hnd hmoves) he (fun hold => ?_)
    exact (s.pass.schedulePrefills_scheduled e hold).elim
      (fun h => absurd h List.not_mem_nil) hpre

/-! ## Runs -/

/-- A call whose request, if it makes one and the queue is not full, is valid and
adds up to a `usize`. -/
def SchedulerOp.Sized (s : Scheduler C) : SchedulerOp → Prop
  | .addRequest prompt params _ =>
    s.config.maxWaitingRequests ≤ s.waiting.length
      ∨ params.validate = .ok () ∧ prompt.length + params.maxTokens < 2 ^ 64
  | _ => True

namespace Service

variable {config : SchedulerConfig} {cache : C} {firstId : ℕ} {v : Service C}

/-- **Step lemma**, for the requests in service. -/
theorem within_run {limit : ℕ} (h : v.sched.Within limit) (hnd : v.sched.ids.Nodup)
    (hlimit : v.sched.maxModelLen = limit) {op : SchedulerOp} (hop : op.Sized v.sched) :
    (op.run v).sched.Within limit := by
  cases op with
  | addRequest prompt params now =>
    rcases hop with hfull | ⟨hvalid, hsum⟩
    · have hsame : (v.sched.addRequest (.new ⟨v.nextId⟩ prompt params now)).1 = v.sched := by
        unfold Scheduler.addRequest
        rw [if_pos hfull]
      show (v.sched.addRequest (.new ⟨v.nextId⟩ prompt params now)).1.Within limit
      rw [hsame]
      exact h
    · exact h.addRequest rfl (SamplingParams.maxTokens_pos hvalid) hsum hlimit
  | schedule => exact h.moves (p := v.sched.pass) hnd v.sched.passes_moves
  | onToken id token eosIds => exact h.onToken id token eosIds
  | reapFinished => exact h.reapFinished
  | cancel id => exact h.cancel id
  | expireTimeouts now => exact h.expireTimeouts now
  | commitPrefill id =>
    intro q hq
    change q ∈ (v.sched.commitPrefill id).queue at hq
    rw [Scheduler.commitPrefill_queue] at hq
    exact h q hq

/-- **Run lemma.** -/
theorem ReachableIf.within
    (h : v.ReachableIf (fun v op => op.Sized v.sched) config cache firstId) :
    v.sched.Within (config.maxModelLen.getD usizeMax) := by
  induction h with
  | start => exact fun q hq => absurd hq List.not_mem_nil
  | @step v op hv hop ih =>
    refine within_run ih hv.reachable.inOrder.nodup ?_ hop
    unfold Scheduler.maxModelLen
    rw [hv.reachable.config]

/-- **The context length holds**, exactly for the requests whose two lengths
add up to a `usize`: those are the ones whose check does what it is for, and
in a run that makes no others nothing is scheduled past the limit. The sum is
formed before it is compared, and a full queue is answered before that. -/
theorem context_length (config : SchedulerConfig) (cache : C) (firstId : ℕ) :
    (∀ (s : Scheduler C) (seq : Sequence), s.ContextChecked seq ↔
      s.config.maxWaitingRequests ≤ s.waiting.length
        ∨ seq.promptLen + seq.params.maxTokens < 2 ^ 64)
    ∧ ∀ v : Service C, v.ReachableIf (fun v op => op.Sized v.sched) config cache firstId →
      ∀ e ∈ v.sched.schedule.2.scheduled,
        e.startPosition + e.numTokens ≤ config.maxModelLen.getD usizeMax :=
  ⟨Scheduler.contextChecked_iff,
    fun _ h => h.within.schedule h.reachable.inOrder.nodup⟩

/-- A request that fits, and its first decode entry. -/
theorem context_length_fitting :
    let v := SchedulerOp.runAll
      (.start { maxModelLen := some 8 } (KvCacheManager.new 4 4 true) 1)
      [.addRequest [1, 2, 3] { maxTokens := 2 } 0, .schedule, .onToken ⟨1⟩ 7 []]
    v.sched.schedule.2.scheduled = [⟨⟨1⟩, 1, 4, false⟩]
      ∧ ∀ e ∈ v.sched.schedule.2.scheduled, e.startPosition + e.numTokens ≤ 8 := by
  intro v
  have hv : v.ReachableIf (fun v op => op.Sized v.sched) { maxModelLen := some 8 }
      (KvCacheManager.new 4 4 true) 1 :=
    ReachableIf.start.runAll _ ⟨Or.inr ⟨by decide +kernel, by decide⟩, trivial, trivial, trivial⟩
  exact ⟨by decide +kernel,
    (context_length { maxModelLen := some 8 } (KvCacheManager.new 4 4 true) 1).2 v hv⟩

/-- **A request for almost `2 ^ 64` tokens** is let in after any prompt, here
by a scheduler that takes sequences of four tokens at most, and its first
decode entry is already behind them. -/
theorem context_length_wraps :
    let config : SchedulerConfig := { maxModelLen := some 4 }
    let params : SamplingParams := { maxTokens := 2 ^ 64 - 1 }
    let v := Service.start config (KvCacheManager.new 4 4 true) 1
    let seq : Sequence := .new ⟨1⟩ [1, 2, 3] params 0
    config.validate = .ok () ∧ params.validate = .ok ()
      ∧ v.sched.SumOverflows seq ∧ (v.sched.addRequest seq).2 = .ok ⟨1⟩
      ∧ v.sched.maxModelLen < seq.promptLen + seq.params.maxTokens
      ∧ (SchedulerOp.runAll v [.addRequest [1, 2, 3] params 0, .schedule,
          .onToken ⟨1⟩ 7 []]).sched.schedule.2.scheduled = [⟨⟨1⟩, 1, 4, false⟩] := by
  refine ⟨by decide +kernel, by decide +kernel, ⟨by decide, by decide⟩, by decide +kernel,
    by decide, by decide +kernel⟩

end Service
