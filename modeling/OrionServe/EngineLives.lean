import OrionServe.EngineStreams
import OrionServe.SchedulerTokens

/-!
# The life of a request

What a caller is told about a request is the story of one small machine. It
goes on, token after token, until a token ends it, it is cancelled or timed
out, or a token is not taken; then it is over, and nothing more is sent. How
many tokens there are and which of them may be the last is said by the
request's parameters.

The engine keeps the machine going in several places at once. `Lives` says
for one request where it is in its life: while it goes on, it is active and
its sequence is in a queue and unfinished, with just the tokens that were
sent; once it is over it is not active. Every operation of the engine leaves
a request alone or takes it on in its life.
-/

/-- **A token that ends the generation**, if enough have been generated. -/
def SamplingParams.StopsAt (params : SamplingParams) (eosIds : List TokenId) (index : ℕ)
    (token : TokenId) : Prop :=
  (token ∈ eosIds ∨ token ∈ params.stopTokenIds) ∧ params.minTokens ≤ index + 1

/-- **A generation that goes on** after these tokens. -/
structure GoesOn (params : SamplingParams) (eosIds tokens : List TokenId) : Prop where
  below : tokens.length < params.maxTokens
  quiet : ∀ i t, tokens[i]? = some t → ¬ params.StopsAt eosIds i t

/-- **How a generation ends**: with which tokens, for which reason, and with
how many tokens reported. -/
inductive Ending (params : SamplingParams) (eosIds : List TokenId) :
    List TokenId → FinishReason → ℕ → Prop
  | stop {tokens : List TokenId} {t : TokenId} (before : GoesOn params eosIds tokens)
      (stops : params.StopsAt eosIds tokens.length t) :
      Ending params eosIds (tokens ++ [t]) .stop (tokens.length + 1)
  | length {tokens : List TokenId} {t : TokenId} (before : GoesOn params eosIds tokens)
      (goes : ¬ params.StopsAt eosIds tokens.length t)
      (full : tokens.length + 1 = params.maxTokens) :
      Ending params eosIds (tokens ++ [t]) .length (tokens.length + 1)
  | cancelled {tokens : List TokenId} (before : GoesOn params eosIds tokens) :
      Ending params eosIds tokens .cancelled 0
  | timeout {tokens : List TokenId} {n : ℕ} (before : GoesOn params eosIds tokens)
      (count : n = tokens.length ∨ n = 0) : Ending params eosIds tokens .timeout n

/-- **Where a request is in its life.** -/
inductive Life where
  | going (tokens : List TokenId)
  /-- Over, with a terminal event that was taken or not. -/
  | ended (tokens : List TokenId) (reason : FinishReason) (completion : ℕ) (told : Bool)
  /-- Over, with a token that was not taken. -/
  | dropped (tokens : List TokenId) (token : TokenId)

namespace Life

/-- What was sent in this life and whether it was taken, oldest first. -/
def sent (promptLen : ℕ) : Life → List (StreamEvent × Bool)
  | going tokens => (Engine.tokenEvents tokens).map (·, true)
  | ended tokens reason completion told =>
    (Engine.tokenEvents tokens).map (·, true) ++ [(.done reason promptLen completion, told)]
  | dropped tokens token =>
    (Engine.tokenEvents tokens).map (·, true) ++ [(.token token "" tokens.length, false)]

/-- The tokens go with the parameters. -/
def Valid (params : SamplingParams) (eosIds : List TokenId) : Life → Prop
  | going tokens => GoesOn params eosIds tokens
  | ended tokens reason completion _ => Ending params eosIds tokens reason completion
  | dropped tokens _ => GoesOn params eosIds tokens

/-- It is not over. -/
def IsGoing : Life → Prop
  | going _ => True
  | _ => False

/-- If it has ended, the tokens were counted. -/
def Counted : Life → Prop
  | ended tokens _ completion _ => completion = tokens.length
  | _ => True

/-- **It ends like this**, unless it is over already. -/
def EndsAs (reason : FinishReason) (completion : ℕ) : Life → Life → Prop
  | going tokens, life' => ∃ told, life' = ended tokens reason completion told
  | life, life' => life' = life

/-- **A stretch in which tokens are counted**; a life that is over stays as it
is. -/
structure Counts (life life' : Life) : Prop where
  counted : life.Counted → life'.Counted
  stays : ¬ life.IsGoing → life' = life

theorem Counts.refl (life : Life) : life.Counts life := ⟨id, fun _ => rfl⟩

theorem Counts.trans {life life' life'' : Life} (h : life.Counts life')
    (h' : life'.Counts life'') : life.Counts life'' where
  counted hc := h'.counted (h.counted hc)
  stays hno := by
    obtain rfl := h.stays hno
    exact h'.stays hno

theorem EndsAs.eq_of_over {reason : FinishReason} {completion : ℕ} {life life' : Life}
    (h : life.EndsAs reason completion life') (hno : ¬ life.IsGoing) : life' = life := by
  cases life with
  | going tokens => exact absurd trivial hno
  | ended _ _ _ _ => exact h
  | dropped _ _ => exact h

theorem EndsAs.not_going {reason : FinishReason} {completion : ℕ} {life life' : Life}
    (h : life.EndsAs reason completion life') : ¬ life'.IsGoing := by
  cases life with
  | going tokens =>
    obtain ⟨told, rfl⟩ := h
    exact fun hgo => hgo
  | ended _ _ _ _ =>
    obtain rfl : life' = _ := h
    exact fun hgo => hgo
  | dropped _ _ =>
    obtain rfl : life' = _ := h
    exact fun hgo => hgo

end Life

/-! ## One token -/

section Token

variable {params : SamplingParams} {eosIds tokens : List TokenId} {t : TokenId}

theorem goesOn_nil (h : 0 < params.maxTokens) : GoesOn params eosIds [] :=
  ⟨h, fun _ _ hi => absurd hi (by simp)⟩

/-- An ending has no more tokens than were asked for. -/
theorem Ending.length_le {reason : FinishReason} {n : ℕ}
    (h : Ending params eosIds tokens reason n) : tokens.length ≤ params.maxTokens := by
  cases h with
  | stop before stops =>
    rw [List.length_append]
    exact before.below
  | length before goes full =>
    rw [List.length_append]
    exact full.le
  | cancelled before => exact before.below.le
  | timeout before count => exact before.below.le

/-- It reports no more tokens than there are. -/
theorem Ending.count_le {reason : FinishReason} {n : ℕ}
    (h : Ending params eosIds tokens reason n) : n ≤ tokens.length := by
  cases h with
  | stop before stops => rw [List.length_append, List.length_singleton]
  | length before goes full => rw [List.length_append, List.length_singleton]
  | cancelled before => exact Nat.zero_le _
  | timeout before count =>
    rcases count with rfl | rfl
    · exact le_rfl
    · exact Nat.zero_le _

/-- One that is called `length` has as many. -/
theorem Ending.full {n : ℕ} (h : Ending params eosIds tokens .length n) :
    tokens.length = params.maxTokens := by
  cases h with
  | length before goes full =>
    rw [List.length_append]
    exact full

/-- A token that ends nothing. -/
theorem GoesOn.concat (h : GoesOn params eosIds tokens)
    (hgo : ¬ params.StopsAt eosIds tokens.length t)
    (hmore : tokens.length + 1 < params.maxTokens) :
    GoesOn params eosIds (tokens ++ [t]) := by
  refine ⟨?_, fun i x hi => ?_⟩
  · rw [List.length_append, List.length_singleton]
    exact hmore
  · rcases lt_trichotomy i tokens.length with hlt | rfl | hgt
    · rw [List.getElem?_append_left hlt] at hi
      exact h.quiet i x hi
    · rw [List.getElem?_concat_length] at hi
      rw [← Option.some.inj hi]
      exact hgo
    · have hnone : (tokens ++ [t])[i]? = none := by
        refine List.getElem?_eq_none ?_
        rw [List.length_append, List.length_singleton]
        exact hgt
      rw [hnone] at hi
      exact absurd hi (by simp)

/-- **What the scheduler makes of a token** for a request that goes on. -/
theorem stopReason_pushToken {q : Sequence} (h : GoesOn params eosIds q.output)
    (hparams : q.params = params) :
    match Scheduler.stopReason (q.pushToken t) t eosIds q.params with
    | none => GoesOn params eosIds (q.output ++ [t])
    | some reason => Ending params eosIds (q.output ++ [t]) reason (q.output.length + 1) := by
  have hlen : (q.pushToken t).output.length = q.output.length + 1 := by
    show (q.output ++ [t]).length = _
    rw [List.length_append, List.length_singleton]
  have hmay : (q.pushToken t).mayStopOnEos = decide (params.minTokens ≤ q.output.length + 1) := by
    show decide (q.params.minTokens ≤ (q.pushToken t).output.length) = _
    rw [hparams, hlen]
  have hmax : (q.pushToken t).reachedMaxTokens
      = decide (params.maxTokens ≤ q.output.length + 1) := by
    show decide (q.params.maxTokens ≤ (q.pushToken t).output.length) = _
    rw [hparams, hlen]
  have hstops : ((eosIds.contains t || q.params.stopTokenIds.contains t)
      && (q.pushToken t).mayStopOnEos) = true ↔ params.StopsAt eosIds q.output.length t := by
    rw [hmay, hparams, Bool.and_eq_true, Bool.or_eq_true, decide_eq_true_iff,
      List.contains_iff_mem, List.contains_iff_mem]
    rfl
  unfold Scheduler.stopReason
  split
  · next hcond =>
    split at hcond
    · exact absurd hcond (by simp)
    next hno =>
    split at hcond
    · exact absurd hcond (by simp)
    next hmore =>
    rw [hmax, decide_eq_true_iff, not_le] at hmore
    exact h.concat (fun hs => hno (hstops.mpr hs)) hmore
  · next reason hcond =>
    split at hcond
    · next hyes =>
      obtain rfl := Option.some.inj hcond
      exact .stop h (hstops.mp hyes)
    next hno =>
    split at hcond
    · next hfull =>
      obtain rfl := Option.some.inj hcond
      rw [hmax, decide_eq_true_iff] at hfull
      exact .length h (fun hs => hno (hstops.mpr hs)) (le_antisymm h.below hfull)
    · exact absurd hcond (by simp)

end Token

/-! ## A request in an engine -/

namespace Engine

variable {M S F : Type*} {e e' e'' : Engine M S} {id : SequenceId} {params : SamplingParams}
  {promptLen : ℕ} {eosIds tokens : List TokenId} {pend pend' : Prop} {life : Life}
  {now : Instant}

/-- What was sent for a request and whether it was taken, oldest first. -/
def historyOf (e : Engine M S) (id : SequenceId) : List (StreamEvent × Bool) :=
  ((e.sent.filter (fun x => x.id = id)).map (fun x => (x.event, x.taken))).reverse

theorem historyOf_cons {x : SentEvent} (h : e'.sent = x :: e.sent) (q : SequenceId) :
    e'.historyOf q
      = if x.id = q then e.historyOf q ++ [(x.event, x.taken)] else e.historyOf q := by
  unfold historyOf
  rw [h, List.filter_cons]
  by_cases hx : x.id = q
  · rw [if_pos (decide_eq_true hx), if_pos hx, List.map_cons, List.reverse_cons]
  · rw [if_neg (by simpa using hx), if_neg hx]

/-- **A request that goes on**: it is active, and its sequence, wherever it
is, has these tokens and is not finished – or its end is pending. -/
structure Holds (id : SequenceId) (params : SamplingParams) (promptLen : ℕ) (pend : Prop)
    (e : Engine M S) (tokens : List TokenId) : Prop where
  active : ∃ req, e.active.lookup id = some req ∧ req.promptLen = promptLen
  sequence : ∀ q ∈ e.scheduler.queue, q.id = id → q.output = tokens ∧ q.params = params
    ∧ q.prompt.length = promptLen ∧ (q.state = .finished → pend)

/-- **Where a request is in its life.** -/
structure Lives (id : SequenceId) (params : SamplingParams) (promptLen : ℕ)
    (eosIds : List TokenId) (pend : Prop) (e : Engine M S) (life : Life) : Prop where
  valid : life.Valid params eosIds
  history : e.historyOf id = life.sent promptLen
  going : ∀ tokens, life = .going tokens → e.Holds id params promptLen pend tokens
  closed : ¬ life.IsGoing → e.active.lookup id = none
  idLt : id.raw < e.nextId
  eos : e.eosIds = eosIds

/-- **Nothing happens to a request**, but that its end may become pending. -/
structure Untouched (id : SequenceId) (pend : Prop) (e e' : Engine M S) : Prop where
  history : e'.historyOf id = e.historyOf id
  active : ∀ req, e.active.lookup id = some req →
    ∃ req', e'.active.lookup id = some req' ∧ req'.promptLen = req.promptLen
  inactive : e.active.lookup id = none → e'.active.lookup id = none
  sequence : ∀ q' ∈ e'.scheduler.queue, q'.id = id → ∃ q ∈ e.scheduler.queue, q.id = id
    ∧ q'.output = q.output ∧ q'.params = q.params ∧ q'.prompt = q.prompt
    ∧ (q'.state = .finished → q.state = .finished ∨ pend)
  nextId : e.nextId ≤ e'.nextId
  eos : e'.eosIds = e.eosIds

theorem Untouched.refl (id : SequenceId) (pend : Prop) (e : Engine M S) :
    e.Untouched id pend e :=
  ⟨rfl, fun req hr => ⟨req, hr, rfl⟩, fun h => h,
    fun q hq hid => ⟨q, hq, hid, rfl, rfl, rfl, Or.inl⟩, le_rfl, rfl⟩

theorem Untouched.trans (h : e.Untouched id pend e') (h' : e'.Untouched id pend e'') :
    e.Untouched id pend e'' where
  history := h'.history.trans h.history
  active req hr := by
    obtain ⟨req', hr', hlen⟩ := h.active req hr
    obtain ⟨req'', hr'', hlen'⟩ := h'.active req' hr'
    exact ⟨req'', hr'', hlen'.trans hlen⟩
  inactive hn := h'.inactive (h.inactive hn)
  sequence q'' hq'' hid := by
    obtain ⟨q', hq', hid', hout', hpar', hprompt', hfin'⟩ := h'.sequence q'' hq'' hid
    obtain ⟨q, hq, hid₀, hout, hpar, hprompt, hfin⟩ := h.sequence q' hq' hid'
    exact ⟨q, hq, hid₀, hout'.trans hout, hpar'.trans hpar, hprompt'.trans hprompt,
      fun hf => (hfin' hf).elim hfin Or.inr⟩
  nextId := h.nextId.trans h'.nextId
  eos := h'.eos.trans h.eos

/-- Whatever moves the sequence at most, and says nothing. -/
theorem Untouched.of_moved (h : ∀ q' ∈ e'.scheduler.queue, ∃ q ∈ e.scheduler.queue, q.Moved q')
    (ha : e'.active = e.active) (ht : e'.sent = e.sent) (hn : e.nextId ≤ e'.nextId)
    (he : e'.eosIds = e.eosIds) : e.Untouched id pend e' where
  history := by
    unfold historyOf
    rw [ht]
  active req hr := ⟨req, ha ▸ hr, rfl⟩
  inactive hnone := ha ▸ hnone
  sequence q' hq' hid := by
    obtain ⟨q, hq, hm⟩ := h q' hq'
    refine ⟨q, hq, hm.id.symm.trans hid, hm.output, hm.params, hm.prompt, fun hfin => Or.inl ?_⟩
    by_contra hlive
    exact hm.live hlive hfin
  nextId := hn
  eos := he

/-- The request record of a request changes, but not its prompt. -/
theorem untouched_setRequest {id' : SequenceId} {req req' : ActiveRequest S}
    (hreq : e.active.lookup id' = some req) (hlen : req'.promptLen = req.promptLen) :
    e.Untouched id pend { e with active := e.active.insert id' req' } where
  history := rfl
  active r hr := by
    by_cases hid : id = id'
    · subst hid
      obtain rfl := Option.some.inj (hreq.symm.trans hr)
      exact ⟨req', AList.lookup_insert _, hlen⟩
    · exact ⟨r, (AList.lookup_insert_ne hid).trans hr, rfl⟩
  inactive hn := by
    have hid : id ≠ id' := by
      rintro rfl
      rw [hn] at hreq
      exact absurd hreq (by simp)
    exact (AList.lookup_insert_ne hid).trans hn
  sequence q hq hid := ⟨q, hq, hid, rfl, rfl, rfl, Or.inl⟩
  nextId := le_rfl
  eos := rfl

/-- The terminal event of another request, or of none. -/
theorem untouched_sendLast {id' : SequenceId} {ev : ActiveRequest S → StreamEvent}
    (h : id' ≠ id ∨ e.active.lookup id = none) : e.Untouched id pend (e.sendLast id' ev) := by
  unfold Engine.sendLast
  split
  · exact .refl id pend e
  next req hreq =>
  have hne : id' ≠ id := by
    rcases h with hne | hnone
    · exact hne
    · rintro rfl
      rw [hnone] at hreq
      exact absurd hreq (by simp)
  exact
    { history := (historyOf_cons (e := e) rfl id).trans (if_neg hne)
      active := fun r hr => ⟨r, (AList.lookup_erase_ne (Ne.symm hne)).trans hr, rfl⟩
      inactive := fun hn => (AList.lookup_erase_ne (Ne.symm hne)).trans hn
      sequence := fun q hq hid => ⟨q, hq, hid, rfl, rfl, rfl, Or.inl⟩
      nextId := le_rfl
      eos := rfl }

/-- The terminal event of a request that is active. -/
theorem sendLast_of_lookup {req : ActiveRequest S} {ev : ActiveRequest S → StreamEvent}
    (hreq : e.active.lookup id = some req) :
    e.sendLast id ev = { e with
      active := e.active.erase id
      sent := ⟨id, ev req, (req.events.trySend (ev req)).2⟩ :: e.sent } := by
  unfold Engine.sendLast
  rw [hreq]

namespace Lives

/-- A request that nothing happens to. -/
theorem untouched (h : e.Lives id params promptLen eosIds pend life)
    (hu : e.Untouched id pend' e') (hp : pend → pend') :
    e'.Lives id params promptLen eosIds pend' life where
  valid := h.valid
  history := hu.history.trans h.history
  going tokens hlife := by
    obtain ⟨⟨req, hreq, hlen⟩, hseq⟩ := h.going tokens hlife
    obtain ⟨req', hreq', hlen'⟩ := hu.active req hreq
    refine ⟨⟨req', hreq', hlen'.trans hlen⟩, fun q' hq' hid => ?_⟩
    obtain ⟨q, hq, hqid, hout, hpar, hprompt, hfin⟩ := hu.sequence q' hq' hid
    obtain ⟨hout₀, hpar₀, hlen₀, hfin₀⟩ := hseq q hq hqid
    exact ⟨hout.trans hout₀, hpar.trans hpar₀, (congrArg _ hprompt).trans hlen₀,
      fun hf => (hfin hf).elim (fun hq => hp (hfin₀ hq)) (fun hpend => hpend)⟩
  closed hno := hu.inactive (h.closed hno)
  idLt := h.idLt.trans_le hu.nextId
  eos := hu.eos.trans h.eos

/-- A life that is over has nothing pending. -/
theorem of_closed (h : e.Lives id params promptLen eosIds pend life) (hlife : ¬ life.IsGoing) :
    e.Lives id params promptLen eosIds pend' life where
  valid := h.valid
  history := h.history
  going _ heq := absurd (heq ▸ trivial) hlife
  closed := h.closed
  idLt := h.idLt
  eos := h.eos

/-- **The terminal event of the request.** -/
theorem told (h : e.Lives id params promptLen eosIds pend life)
    {ev : ActiveRequest S → StreamEvent} {reason : FinishReason} {n : ℕ}
    (hev : ∀ req, ev req = .done reason req.promptLen n)
    (hend : ∀ tokens, life = .going tokens → Ending params eosIds tokens reason n) :
    ∃ life', (e.sendLast id ev).Lives id params promptLen eosIds pend' life'
      ∧ life.EndsAs reason n life' := by
  cases life with
  | ended _ reason' n' told =>
    have hclosed : (e.sendLast id ev).Lives id params promptLen eosIds pend _ :=
      h.untouched (untouched_sendLast (Or.inr (h.closed (fun hgo => hgo)))) (fun hp => hp)
    exact ⟨_, hclosed.of_closed (fun hgo => hgo), rfl⟩
  | dropped _ token =>
    have hclosed : (e.sendLast id ev).Lives id params promptLen eosIds pend _ :=
      h.untouched (untouched_sendLast (Or.inr (h.closed (fun hgo => hgo)))) (fun hp => hp)
    exact ⟨_, hclosed.of_closed (fun hgo => hgo), rfl⟩
  | going tokens =>
    obtain ⟨⟨req, hreq, hlen⟩, -⟩ := h.going tokens rfl
    refine ⟨.ended tokens reason n (req.events.trySend (ev req)).2, ?_, _, rfl⟩
    rw [sendLast_of_lookup hreq]
    refine ⟨hend tokens rfl, ?_, fun _ hlife => absurd hlife (by simp),
      fun _ => AList.lookup_erase _ _, h.idLt, h.eos⟩
    rw [historyOf_cons (e := e) rfl id, if_pos rfl, h.history]
    show _ = (tokenEvents tokens).map (·, true) ++ [(.done reason promptLen n, _)]
    rw [hev req, hlen]
    rfl

end Lives

/-! ## A row of the output -/

/-- What a token for one sequence leaves of another. -/
theorem queue_onToken {s : Scheduler KvCacheManager} {id' : SequenceId} {token : TokenId}
    {eosIds : List TokenId} (hnd : s.ids.Nodup) {q' : Sequence}
    (hq' : q' ∈ (s.onToken id' token eosIds).1.queue) :
    (q' ∈ s.queue ∧ (q'.id ≠ id' ∨ s.runningSequence id' = none))
      ∨ ∃ q ∈ s.running, q.id = id' ∧ q' = Scheduler.tokenReceived token eosIds q := by
  have hrun : (s.running.map Sequence.id).Nodup := Pass.nodup_running (p := s.pass) hnd
  unfold Scheduler.onToken at hq'
  split at hq'
  · next hnone => exact Or.inl ⟨hq', Or.inr hnone⟩
  next seq hseq =>
  rcases List.mem_append.mp hq' with hq' | hq'
  · rcases List.mem_updateKey hrun hq' with ⟨hq', hne⟩ | ⟨a, ha, haid, rfl⟩
    · exact Or.inl ⟨List.mem_append_left _ hq', Or.inl hne⟩
    · exact Or.inr ⟨a, ha, haid, rfl⟩
  · -- the one with this id is running
    refine Or.inl ⟨List.mem_append_right _ hq', Or.inl (fun hid => ?_)⟩
    have hmem := List.mem_append_left s.waiting (List.mem_of_findKey hseq)
    have hsame := Scheduler.eq_of_id_eq hnd (List.mem_append_right _ hq') hmem
      (hid.trans (List.key_of_findKey hseq).symm)
    have hall : (s.running ++ s.waiting).Nodup := List.Nodup.of_map _ hnd
    exact (List.nodup_append.mp hall).2.2 seq (List.mem_of_findKey hseq) q' hq' hsame.symm

/-- Who is there after a cancellation was there before. -/
theorem mem_queue_of_cancel {s : Scheduler KvCacheManager} {id' : SequenceId} {q : Sequence}
    (hq : q ∈ (s.cancel id').1.queue) : q ∈ s.queue := by
  unfold Scheduler.cancel at hq
  split at hq
  · exact (List.mem_append.mp hq).elim (List.mem_append_left _)
      (fun hw => List.mem_append_right _ (List.mem_of_mem_eraseP hw))
  split at hq
  · exact (List.mem_append.mp hq).elim
      (fun hr => List.mem_append_left _ (List.mem_of_mem_eraseP hr))
      (List.mem_append_right _)
  · exact hq

/-- Silent cancellation of another request. -/
theorem untouched_cancelSilently {id' : SequenceId} (hne : id' ≠ id) :
    e.Untouched id pend (e.cancelSilently id') where
  history := rfl
  active req hr := ⟨req, (AList.lookup_erase_ne (Ne.symm hne)).trans hr, rfl⟩
  inactive hn := (AList.lookup_erase_ne (Ne.symm hne)).trans hn
  sequence q' hq' hid := ⟨q', mem_queue_of_cancel hq', hid, rfl, rfl, rfl, Or.inl⟩
  nextId := le_rfl
  eos := rfl

/-- A token for another request. -/
theorem untouched_sendToken (hnd : e.scheduler.ids.Nodup) {id' : SequenceId} (hne : id' ≠ id)
    {req : ActiveRequest S} {token : TokenId} {ev : StreamEvent} :
    e.Untouched id pend
      (send { e with scheduler := (e.scheduler.onToken id' token e.eosIds).1 } id' req ev).1 where
  history := (historyOf_cons (e := e) rfl id).trans (if_neg hne)
  active r hr := ⟨r, (AList.lookup_insert_ne (Ne.symm hne)).trans hr, rfl⟩
  inactive hn := (AList.lookup_insert_ne (Ne.symm hne)).trans hn
  sequence q' hq' hid := by
    rcases queue_onToken hnd hq' with ⟨hmem, -⟩ | ⟨q, -, hqid, rfl⟩
    · exact ⟨q', hmem, hid, rfl, rfl, rfl, Or.inl⟩
    · have hsame := (Scheduler.tokenReceived_id token e.eosIds q).symm.trans hid
      exact absurd (hqid.symm.trans hsame) hne
  nextId := le_rfl
  eos := rfl

namespace Lives

/-- **A token for the request**, at the end of those it has. -/
theorem sendToken (h : e.Lives id params promptLen eosIds False (.going tokens))
    (hnd : e.scheduler.ids.Nodup) {seq : Sequence} {req : ActiveRequest S}
    (hseq : e.scheduler.runningSequence id = some seq) (hreq : e.active.lookup id = some req)
    (sampler : S) (token : TokenId) :
    let req' : ActiveRequest S := { req with sampler := sampler }
    let r := send { e with scheduler := (e.scheduler.onToken id token e.eosIds).1 } id req'
      (.token token "" (seq.allTokens.length - req'.promptLen))
    r.1.historyOf id = e.historyOf id ++ [(.token token "" tokens.length, r.2)]
    ∧ seq.output = tokens ∧ seq.params = params ∧ seq.prompt.length = promptLen
    ∧ seq.state ≠ .finished
    ∧ r.1.scheduler.runningSequence id = some (Scheduler.tokenReceived token e.eosIds seq)
    ∧ (∃ req', r.1.active.lookup id = some req' ∧ req'.promptLen = promptLen)
    ∧ ∀ q ∈ r.1.scheduler.queue, q.id = id → q = Scheduler.tokenReceived token e.eosIds seq := by
  intro req' r
  obtain ⟨⟨req₀, hreq₀, hlen⟩, hsequence⟩ := h.going tokens rfl
  obtain rfl := Option.some.inj (hreq.symm.trans hreq₀)
  have hmem := List.mem_append_left e.scheduler.waiting (List.mem_of_findKey hseq)
  have hid : seq.id = id := List.key_of_findKey hseq
  obtain ⟨hout, hpar, hprompt, hlive⟩ := hsequence seq hmem hid
  have hindex : seq.allTokens.length - req'.promptLen = tokens.length := by
    show (seq.prompt ++ seq.output).length - req.promptLen = _
    rw [List.length_append, hprompt, hlen, hout, Nat.add_sub_cancel_left]
  have hall : ∀ q ∈ r.1.scheduler.queue, q.id = id →
      q = Scheduler.tokenReceived token e.eosIds seq := by
    intro q hq hqid
    rcases queue_onToken hnd hq with ⟨-, hne | hnone⟩ | ⟨x, hx, hxid, rfl⟩
    · exact absurd hqid hne
    · rw [hnone] at hseq
      exact absurd hseq (by simp)
    · rw [Scheduler.eq_of_id_eq hnd (List.mem_append_left _ hx) hmem (hxid.trans hid.symm)]
  have hnd' : (r.1.scheduler.running.map Sequence.id).Nodup := by
    show ((e.scheduler.onToken id token e.eosIds).1.running.map Sequence.id).Nodup
    rw [onToken_running hseq]
    show ((e.scheduler.running.updateKey _ _ _).map Sequence.id).Nodup
    rw [List.map_updateKey (Scheduler.tokenReceived_id token e.eosIds)]
    exact Pass.nodup_running (p := e.scheduler.pass) hnd
  refine ⟨?_, hout, hpar, hprompt, hlive, ?_, ⟨_, AList.lookup_insert _, hlen⟩, hall⟩
  · rw [← hindex]
    exact (historyOf_cons (e := e) rfl id).trans (if_pos rfl)
  · refine (List.findKey_eq_some_iff hnd').mpr
      ⟨?_, (Scheduler.tokenReceived_id token e.eosIds seq).trans hid⟩
    show _ ∈ (e.scheduler.onToken id token e.eosIds).1.running
    rw [onToken_running hseq]
    exact List.mem_updateKey_self hseq

/-- **A token that was taken**: the request goes on with it, or ends with
it. -/
theorem tokenTaken {seq : Sequence} {token : TokenId} {stop : Option FinishReason}
    (hstop : stop = Scheduler.stopReason (seq.pushToken token) token eosIds seq.params)
    (hvalid : GoesOn params eosIds seq.output) (hpar : seq.params = params)
    (hlive : seq.state ≠ .finished)
    (hhist : e.historyOf id = (tokenEvents (seq.output ++ [token])).map (·, true))
    (hself : e.scheduler.runningSequence id = some (Scheduler.tokenReceived token eosIds seq))
    (hreq : ∃ req, e.active.lookup id = some req ∧ req.promptLen = promptLen)
    (hprompt : seq.prompt.length = promptLen)
    (hall : ∀ q ∈ e.scheduler.queue, q.id = id → q = Scheduler.tokenReceived token eosIds seq)
    (hlt : id.raw < e.nextId) (heos : e.eosIds = eosIds) :
    ∃ life', (match stop with
      | some reason => e.finishRequest id reason
      | none => e).Lives id params promptLen eosIds False life' ∧ life'.Counted := by
  have hreason := stopReason_pushToken (t := token) hvalid hpar
  have houtput := tokenReceived_output token eosIds seq
  rw [← hstop] at hreason
  cases stop with
  | some reason =>
    obtain ⟨req, hreq, hlen⟩ := hreq
    have hcount : (e.scheduler.runningSequence id).elim 0 Sequence.outputLen
        = seq.output.length + 1 := by
      rw [hself]
      show (Scheduler.tokenReceived token eosIds seq).output.length = _
      rw [houtput, List.length_append]
      rfl
    show ∃ life', (e.sendLast id _).Lives id params promptLen eosIds False life' ∧ life'.Counted
    rw [hcount, sendLast_of_lookup hreq]
    have hone : seq.output.length + 1 = (seq.output ++ [token]).length := by
      rw [List.length_append, List.length_singleton]
    refine ⟨.ended (seq.output ++ [token]) reason (seq.output.length + 1)
      (req.events.trySend (.done reason req.promptLen (seq.output.length + 1))).2, ⟨hreason,
      (historyOf_cons (e := e) rfl id).trans ?_, fun _ hlife => absurd hlife (by simp),
      fun _ => AList.lookup_erase _ _, hlt, heos⟩, hone⟩
    rw [if_pos rfl, hhist, hlen]
    rfl
  | none =>
    refine ⟨.going (seq.output ++ [token]), ⟨hreason, hhist, fun ts hlife => ?_,
      fun hno => absurd trivial hno, hlt, heos⟩, trivial⟩
    obtain rfl : seq.output ++ [token] = ts := by simpa using hlife
    refine ⟨hreq, fun q hq hqid => ?_⟩
    obtain rfl := hall q hq hqid
    have hpush : Scheduler.tokenReceived token eosIds seq = seq.pushToken token := by
      simp only [Scheduler.tokenReceived]
      rw [show Scheduler.stopReason (seq.pushToken token) token eosIds
        (seq.pushToken token).params = none from hstop.symm]
    rw [hpush]
    exact ⟨rfl, hpar, hprompt, fun hfin => absurd hfin hlive⟩

/-- **A row of the output.** -/
theorem sampleAndEmit [Sampler S F] (h : e.Lives id params promptLen eosIds False life)
    (hnd : e.scheduler.ids.Nodup) (id' : SequenceId) (logits : List F) :
    ∃ life', (e.sampleAndEmit id' logits).1.Lives id params promptLen eosIds False life'
      ∧ life.Counts life' := by
  unfold Engine.sampleAndEmit
  split
  · exact ⟨life, h, .refl life⟩
  next seq hseq =>
  split
  · exact ⟨life, h, .refl life⟩
  next req hreq =>
  split
  · exact ⟨life, h.untouched (untouched_setRequest hreq rfl) (fun hp => hp), .refl life⟩
  next sampler token _ =>
  simp only []
  set req' : ActiveRequest S := { req with sampler := sampler } with hreq'
  by_cases hid : id' = id
  · subst hid
    -- a request that has a record goes on
    obtain ⟨tokens, rfl⟩ : ∃ tokens, life = .going tokens := by
      cases life with
      | going tokens => exact ⟨tokens, rfl⟩
      | ended _ _ _ _ => exact absurd (hreq.symm.trans (h.closed (fun hgo => hgo))) (by simp)
      | dropped _ _ => exact absurd (hreq.symm.trans (h.closed (fun hgo => hgo))) (by simp)
    obtain ⟨hhist, hout, hpar, hprompt, hlive, hself, ⟨req₁, hreq₁, hlen₁⟩, hall⟩ :=
      h.sendToken hnd hseq hreq sampler token
    have hvalid : GoesOn params eosIds seq.output := hout.symm ▸ h.valid
    split
    · next e' hsend =>
      obtain rfl : (send _ _ _ _).1 = e' := congrArg Prod.fst hsend
      rw [show (send _ _ _ _).2 = false from congrArg Prod.snd hsend] at hhist
      refine ⟨.dropped tokens token, ⟨h.valid, ?_, fun _ hlife => absurd hlife (by simp),
        fun _ => AList.lookup_erase _ _, h.idLt, h.eos⟩,
        ⟨fun _ => trivial, fun hno => absurd trivial hno⟩⟩
      exact hhist.trans (by rw [h.history]; rfl)
    · next e' hsend =>
      obtain rfl : (send _ _ _ _).1 = e' := congrArg Prod.fst hsend
      rw [show (send _ _ _ _).2 = true from congrArg Prod.snd hsend] at hhist
      have hhist' : historyOf _ id' = (tokenEvents (tokens ++ [token])).map (·, true) :=
        hhist.trans (by rw [h.history, tokenEvents_append, List.map_append]; rfl)
      have hstop : (e.scheduler.onToken id' token e.eosIds).2
          = Scheduler.stopReason (seq.pushToken token) token eosIds seq.params := by
        rw [onToken_running hseq, h.eos]
      obtain ⟨life', hlife', hcounted⟩ := tokenTaken hstop hvalid hpar hlive (hout.symm ▸ hhist')
        (h.eos ▸ hself) ⟨req₁, hreq₁, hlen₁⟩ hprompt (h.eos ▸ hall) h.idLt h.eos
      refine ⟨life', ?_, ⟨fun _ => hcounted, fun hno => absurd trivial hno⟩⟩
      split
      · next reason hreason =>
        rw [hreason] at hlife'
        exact hlife'
      · next hreason =>
        rw [hreason] at hlife'
        exact hlife'
  · have hother : e.Untouched id False (send { e with
        scheduler := (e.scheduler.onToken id' token e.eosIds).1 } id' req'
        (.token token "" (seq.allTokens.length - req'.promptLen))).1 :=
      untouched_sendToken hnd hid
    split
    · next e' hsend =>
      obtain rfl : (send _ _ _ _).1 = e' := congrArg Prod.fst hsend
      exact ⟨life, h.untouched (hother.trans (untouched_cancelSilently hid)) (fun hp => hp),
        .refl life⟩
    · next e' hsend =>
      obtain rfl : (send _ _ _ _).1 = e' := congrArg Prod.fst hsend
      split
      · exact ⟨life, h.untouched (hother.trans (untouched_sendLast (Or.inl hid))) (fun hp => hp),
          .refl life⟩
      · exact ⟨life, h.untouched hother (fun hp => hp), .refl life⟩

theorem emitRows [Sampler S F] (out : ForwardOutput F) (rows : List (SequenceId × ℕ)) :
    ∀ {e : Engine M S} {life : Life}, e.Lives id params promptLen eosIds False life →
      e.Tracks [] [] →
      ∃ life', (e.emitRows out rows).1.Lives id params promptLen eosIds False life'
        ∧ life.Counts life' := by
  induction rows with
  | nil => exact fun {_ life} h _ => ⟨_, h, .refl life⟩
  | cons r rows ih =>
    obtain ⟨id', row⟩ := r
    intro e life h ht
    unfold Engine.emitRows
    split
    · exact ih h ht
    split
    · exact ⟨life, h, .refl life⟩
    next logits _ =>
    obtain ⟨life', hone, hcounts⟩ := h.sampleAndEmit ht.nodup id' logits
    have htone := ht.sampleAndEmit id' logits
    split
    · next e' he' =>
      rw [he'] at hone htone
      obtain ⟨life'', hrest, hcounts'⟩ := ih hone htone
      exact ⟨life'', hrest, hcounts.trans hcounts'⟩
    · next e' err he' =>
      rw [he'] at hone
      exact ⟨life', hone, hcounts⟩

/-! ## The other operations -/

/-- A call that takes sequences out at most. -/
theorem called (h : e.Lives id params promptLen eosIds pend life) {s : Scheduler KvCacheManager}
    (hs : ∀ q ∈ s.queue, q ∈ e.scheduler.queue) :
    Lives id params promptLen eosIds pend { e with scheduler := s } life := by
  have hsame : e.Untouched id pend { e with scheduler := s } :=
    .of_moved (fun q hq => ⟨q, hs q hq, .refl q⟩) rfl rfl le_rfl rfl
  exact h.untouched hsame (fun hp => hp)

theorem cancel (h : e.Lives id params promptLen eosIds False life) (id' : SequenceId) :
    ∃ life', (e.cancel id').Lives id params promptLen eosIds False life'
      ∧ if id' = id ∧ (e.scheduler.cancel id').2 = true then life.EndsAs .cancelled 0 life'
        else life' = life := by
  have hcall : Lives id params promptLen eosIds False
      { e with scheduler := (e.scheduler.cancel id').1 } life :=
    h.called (fun q hq => mem_queue_of_cancel hq)
  unfold Engine.cancel
  split
  · next s hs =>
    rw [hs] at hcall
    by_cases hid : id' = id
    · subst hid
      have hvalid : ∀ tokens, life = .going tokens → GoesOn params eosIds tokens := by
        rintro tokens rfl
        exact h.valid
      obtain ⟨life', hlife', hends⟩ := hcall.told (fun req => rfl)
        (fun tokens hlife => .cancelled (hvalid tokens hlife))
      exact ⟨life', hlife', by rwa [if_pos ⟨rfl, congrArg Prod.snd hs⟩]⟩
    · exact ⟨life, hcall.untouched (untouched_sendLast (Or.inl hid)) (fun hp => hp),
        by rw [if_neg (fun hboth => hid hboth.1)]⟩
  · next s hs =>
    rw [hs] at hcall
    exact ⟨life, hcall, by rw [if_neg (by simp [hs])]⟩

/-- **Reaping** takes only finished sequences, and a request that goes on has
none. -/
theorem reap (h : e.Lives id params promptLen eosIds False life) :
    e.reap.Lives id params promptLen eosIds False life := by
  have hsub : ∀ q ∈ e.scheduler.reapFinished.1.queue, q ∈ e.scheduler.queue := fun q hq =>
    (List.mem_append.mp hq).elim (fun hr => List.mem_append_left _ (List.mem_filter.mp hr).1)
      (List.mem_append_right _)
  have hreaped : ∀ r ∈ e.scheduler.reapFinished.2, life.IsGoing → r.id ≠ id := by
    intro r hr hgo hid
    obtain ⟨hmem, hfin⟩ := List.mem_filter.mp hr
    cases life with
    | going tokens =>
      have hseq := (h.going tokens rfl).sequence r (List.mem_append_left _ hmem) hid
      exact hseq.2.2.2 (of_decide_eq_true hfin)
    | ended _ _ _ _ => exact hgo
    | dropped _ _ => exact hgo
  have hloop : ∀ (l : List Sequence), (∀ r ∈ l, life.IsGoing → r.id ≠ id) →
      ∀ {e : Engine M S}, e.Lives id params promptLen eosIds False life →
      Lives id params promptLen eosIds False (l.foldl (fun e r => e.sendLast r.id (fun req =>
        .done (r.finishReason.getD .stop) req.promptLen r.outputLen)) e) life := by
    intro l
    induction l with
    | nil => exact fun _ _ h => h
    | cons r l ih =>
      intro hl e h
      refine ih (fun x hx => hl x (List.mem_cons_of_mem _ hx))
        (h.untouched (untouched_sendLast ?_) (fun hp => hp))
      by_cases hgo : life.IsGoing
      · exact Or.inl (hl r List.mem_cons_self hgo)
      · exact Or.inr (h.closed hgo)
  exact hloop _ hreaped (h.called hsub)

/-- The terminal events of the requests that have timed out. -/
theorem timedOut (ids : List SequenceId) :
    ∀ {e : Engine M S} {life : Life}, e.Lives id params promptLen eosIds (id ∈ ids) life →
      ∃ life', (ids.foldl (fun e x => e.finishRequest x .timeout) e).Lives id params promptLen
        eosIds False life'
        ∧ if id ∈ ids then
            life.EndsAs .timeout
              ((e.scheduler.runningSequence id).elim 0 Sequence.outputLen) life'
          else life' = life := by
  induction ids with
  | nil =>
    intro e life h
    exact ⟨life, h.untouched (.refl id False e) (fun hp => absurd hp List.not_mem_nil),
      by rw [if_neg List.not_mem_nil]⟩
  | cons x ids ih =>
    intro e life h
    by_cases hx : x = id
    · subst hx
      have htold : ∃ life', (e.finishRequest x .timeout).Lives x params promptLen eosIds
          (x ∈ ids) life' ∧ life.EndsAs .timeout
            ((e.scheduler.runningSequence x).elim 0 Sequence.outputLen) life' := by
        refine h.told (fun req => rfl) (fun tokens hlife => ?_)
        have hvalid := h.valid
        rw [hlife] at hvalid
        refine .timeout hvalid ?_
        -- a request that has not started yet has no sequence in the running queue
        rcases hseq : e.scheduler.runningSequence x with - | seq
        · exact Or.inr rfl
        · exact Or.inl (congrArg List.length ((h.going tokens hlife).sequence seq
            (List.mem_append_left _ (List.mem_of_findKey hseq)) (List.key_of_findKey hseq)).1)
      obtain ⟨life', hlife', hends⟩ := htold
      obtain ⟨life'', hlife'', hlast⟩ := ih hlife'
      have hsame : life'' = life' := by
        split at hlast
        · exact hlast.eq_of_over hends.not_going
        · exact hlast
      refine ⟨life'', hlife'', ?_⟩
      rw [if_pos List.mem_cons_self, hsame]
      exact hends
    · have hother : (e.finishRequest x .timeout).Lives id params promptLen eosIds
          (id ∈ ids) life :=
        h.untouched (untouched_sendLast (Or.inl hx))
          (fun hp => (List.mem_cons.mp hp).resolve_left (Ne.symm hx))
      obtain ⟨life', hlife', hlast⟩ := ih hother
      refine ⟨life', hlife', ?_⟩
      have hsched : (e.finishRequest x .timeout).scheduler = e.scheduler := by
        unfold Engine.finishRequest Engine.sendLast
        split <;> rfl
      rw [hsched] at hlast
      simpa only [List.mem_cons, Ne.symm hx, false_or] using hlast

theorem expire (h : e.Lives id params promptLen eosIds False life) (now : Instant) :
    ∃ life', (e.expire now).Lives id params promptLen eosIds False life'
      ∧ if id ∈ (e.scheduler.expireTimeouts now).2 then
          life.EndsAs .timeout (((e.scheduler.expireTimeouts now).1.runningSequence id).elim 0
            Sequence.outputLen) life'
        else life' = life := by
  refine timedOut _ (h.untouched ?_ False.elim)
  refine
    { history := rfl
      active := fun req hr => ⟨req, hr, rfl⟩
      inactive := fun hn => hn
      sequence := fun q' hq' hid => ?_
      nextId := le_rfl
      eos := rfl }
  obtain ⟨q, hq, hqid, hprompt, hout, hpar, hfin⟩ := Scheduler.of_mem_expireTimeouts hq'
  exact ⟨q, hq, hqid.symm.trans hid, hout, hpar, hprompt,
    fun hf => (hfin hf).imp_right (fun hmem => hid ▸ hmem)⟩

/-- Between the `schedule` call and the forward pass. -/
theorem scheduled (h : (e.expire now).Lives id params promptLen eosIds False life) :
    (e.scheduled now).Lives id params promptLen eosIds False life := by
  have hmoves := PassMoves.moved (e.expire now).scheduler.passes_moves
  have hsame : (e.expire now).Untouched id False (e.scheduled now) :=
    .of_moved (fun q hq => MovedAll.exists_of_mem hmoves hq) rfl rfl le_rfl rfl
  exact h.untouched hsame (fun hp => hp)

theorem publish (h : e.Lives id params promptLen eosIds pend life)
    (scheduled : List ScheduledSequence) :
    (e.publish scheduled).Lives id params promptLen eosIds pend life := by
  induction scheduled generalizing e with
  | nil => exact h
  | cons x scheduled ih =>
    refine ih (e := e.publish [x]) (h.called (fun q hq => ?_))
    have hq' :
        q ∈ (if x.isPrefill then e.scheduler.commitPrefill x.id else e.scheduler).queue := hq
    split at hq'
    · rw [Scheduler.commitPrefill_queue] at hq'
      exact hq'
    · exact hq'

theorem receive (h : e.Lives id params promptLen eosIds False life) (id' : SequenceId) :
    (e.receive id').Lives id params promptLen eosIds False life := by
  unfold Engine.receive
  split
  · exact h
  · next req hreq => exact h.untouched (untouched_setRequest hreq rfl) (fun hp => hp)

theorem hangUp (h : e.Lives id params promptLen eosIds False life) (id' : SequenceId) :
    (e.hangUp id').Lives id params promptLen eosIds False life := by
  unfold Engine.hangUp
  split
  · exact h
  · next req hreq => exact h.untouched (untouched_setRequest hreq rfl) (fun hp => hp)

/-- **Another request.** -/
theorem submit (h : e.Lives id params promptLen eosIds False life) (prompt : List TokenId)
    (params' : SamplingParams) (events : Channel) (sampler : S) (now : Instant) :
    (e.submit prompt params' events sampler now).1.Lives id params promptLen eosIds False
      life := by
  unfold Engine.submit
  split
  · exact h
  set seq : Sequence := .new ⟨e.nextId⟩ prompt params' now with hseq
  have hne : id ≠ seq.id := by
    rintro hid
    exact absurd (congrArg SequenceId.raw hid) h.idLt.ne
  rcases e.scheduler.addRequest_cases seq with ⟨err, hadd⟩ | ⟨hadd, -⟩
  · rw [hadd]
    have hsame : e.Untouched id False { e with nextId := e.nextId + 1 } :=
      .of_moved (fun q hq => ⟨q, hq, .refl q⟩) rfl rfl (Nat.le_succ _) rfl
    exact h.untouched hsame (fun hp => hp)
  · rw [hadd]
    have hother : ∀ q ∈ e.scheduler.running ++ (e.scheduler.waiting ++ [seq]), q.id = id →
        q ∈ e.scheduler.queue := by
      intro q hq hid
      rw [← List.append_assoc] at hq
      refine (List.mem_append.mp hq).resolve_right (fun hmem => hne ?_)
      rw [← hid, List.mem_singleton.mp hmem]
    refine Lives.untouched h ?_ False.elim
    exact
      { history := rfl
        active := fun req hr => ⟨req, (AList.lookup_insert_ne hne).trans hr, rfl⟩
        inactive := fun hn => (AList.lookup_insert_ne hne).trans hn
        sequence := fun q hq hid => ⟨q, hother q hq hid, hid, rfl, rfl, rfl, Or.inl⟩
        nextId := Nat.le_succ _
        eos := rfl }

variable [LanguageModel M F] [Sampler S F]

/-- **What a step does after the timeouts** counts the tokens. -/
theorem step (h : (e.expire now).Lives id params promptLen eosIds False life)
    (ht : e.Tracks [] []) :
    ∃ life', (e.step now).1.Lives id params promptLen eosIds False life' ∧ life.Counts life' := by
  have hmid := h.scheduled
  have hfwd : ∀ b, ((e.scheduled now).runForward b).1.Lives id params promptLen eosIds False
      life := by
    intro b
    have hsame : (e.scheduled now).Untouched id False ((e.scheduled now).runForward b).1 :=
      .of_moved (fun q hq => ⟨q, hq, .refl q⟩) rfl rfl le_rfl rfl
    exact hmid.untouched hsame (fun hp => hp)
  have htfwd : ∀ b, ((e.scheduled now).runForward b).1.Tracks [] [] :=
    fun _ => (ht.scheduled now).congr rfl rfl rfl rfl
  rcases e.step_stages now with ⟨-, hstep⟩ | ⟨err, -, hstep⟩
    | ⟨b, -, ⟨err, -, hstep⟩ | ⟨out, -, hlast⟩⟩
  · rw [hstep]
    exact ⟨life, hmid.reap, .refl life⟩
  · rw [hstep]
    exact ⟨life, hmid, .refl life⟩
  · rw [hstep]
    exact ⟨life, hfwd b, .refl life⟩
  obtain ⟨life', hrows, hcounts⟩ := (hfwd b).emitRows out out.sequenceIds.zipIdx (htfwd b)
  rcases hlast with ⟨err, hstep⟩ | hstep
  · rw [hstep]
    exact ⟨life', hrows, hcounts⟩
  · rw [hstep]
    exact ⟨life', (hrows.publish _).reap, hcounts⟩

/-- **Step lemma.** -/
theorem run (h : e.Lives id params promptLen eosIds False life) (ht : e.Tracks [] [])
    (op : EngineOp S) : ∃ life', (op.run e).Lives id params promptLen eosIds False life' := by
  cases op with
  | submit prompt params events sampler now =>
    exact ⟨life, h.submit prompt params events sampler now⟩
  | cancel id =>
    obtain ⟨life', hlife', -⟩ := h.cancel id
    exact ⟨life', hlife'⟩
  | step now =>
    obtain ⟨life', hexpired, -⟩ := h.expire now
    obtain ⟨life'', hlife'', -⟩ := hexpired.step ht
    exact ⟨life'', hlife''⟩
  | receive id => exact ⟨life, h.receive id⟩
  | hangUp id => exact ⟨life, h.hangUp id⟩

/-- **Run lemma.** -/
theorem runAll (ops : List (EngineOp S)) :
    ∀ {e : Engine M S} {life : Life}, e.Lives id params promptLen eosIds False life →
      e.Tracks [] [] →
      ∃ life', (EngineOp.runAll e ops).Lives id params promptLen eosIds False life' := by
  induction ops with
  | nil => exact fun {_ life} h _ => ⟨life, h⟩
  | cons op ops ih =>
    intro e life h ht
    obtain ⟨life', hone⟩ := h.run ht op
    exact ih hone (ht.run op)

end Lives

/-! ## A whole life -/

/-- **A request that is let in**, spelled out. -/
theorem submit_of_ok {prompt : List TokenId} {events : Channel} {sampler : S} {now : Instant}
    (hok : (e.submit prompt params events sampler now).2 = .ok id) :
    params.validate = .ok () ∧ id = ⟨e.nextId⟩
    ∧ (e.submit prompt params events sampler now).1 = { e with
        scheduler := { e.scheduler with
          waiting := e.scheduler.waiting ++ [.new ⟨e.nextId⟩ prompt params now] }
        active := e.active.insert ⟨e.nextId⟩ ⟨events, sampler, prompt.length⟩
        nextId := e.nextId + 1 } := by
  unfold Engine.submit at hok ⊢
  split at hok
  · exact absurd hok (by simp)
  next hvalid =>
  rcases e.scheduler.addRequest_cases (.new ⟨e.nextId⟩ prompt params now)
    with ⟨err, hadd⟩ | ⟨hadd, -⟩
  · rw [hadd] at hok
    exact absurd hok (by simp)
  · rw [hadd] at hok ⊢
    exact ⟨hvalid, (Except.ok.inj hok).symm, rfl⟩

/-- Its sequence is the new one. -/
theorem sequence_submit (ht : e.Tracks [] []) {prompt : List TokenId} {events : Channel}
    {sampler : S} {now : Instant} (hok : (e.submit prompt params events sampler now).2 = .ok id)
    {q : Sequence} (hq : q ∈ (e.submit prompt params events sampler now).1.scheduler.queue)
    (hid : q.id = id) : q = .new ⟨e.nextId⟩ prompt params now := by
  obtain ⟨-, rfl, heq⟩ := submit_of_ok hok
  rw [heq] at hq
  have hq' : q ∈ e.scheduler.running
      ++ (e.scheduler.waiting ++ [.new ⟨e.nextId⟩ prompt params now]) := hq
  rw [← List.append_assoc] at hq'
  refine List.mem_singleton.mp ((List.mem_append.mp hq').resolve_left (fun hold => ?_))
  have hlt := ht.idsLt q.id (Scheduler.mem_ids_of_mem_queue hold)
  exact absurd (congrArg SequenceId.raw hid) hlt.ne

/-- It goes on, with no token yet. -/
theorem lives_submit (ht : e.Tracks [] []) {prompt : List TokenId} {events : Channel}
    {sampler : S}
    {now : Instant} (hok : (e.submit prompt params events sampler now).2 = .ok id) :
    (e.submit prompt params events sampler now).1.Lives id params prompt.length e.eosIds False
      (.going []) := by
  have hsequence : ∀ q ∈ (e.submit prompt params events sampler now).1.scheduler.queue,
      q.id = id → q = .new ⟨e.nextId⟩ prompt params now :=
    fun q hq hid => sequence_submit ht hok hq hid
  obtain ⟨hvalid, rfl, heq⟩ := submit_of_ok hok
  rw [heq] at hsequence ⊢
  refine ⟨goesOn_nil (SamplingParams.maxTokens_pos hvalid), ?_, fun tokens hlife => ?_,
    fun hno => absurd trivial hno, Nat.lt_succ_self _, rfl⟩
  · -- nothing was sent under this id yet
    show ((e.sent.filter (fun x => x.id = ⟨e.nextId⟩)).map _).reverse = []
    rw [List.filter_eq_nil_iff.mpr]
    · rfl
    · intro x hx
      have hne : x.id ≠ ⟨e.nextId⟩ := fun hid =>
        absurd (congrArg SequenceId.raw hid) (ht.sentLt x hx).ne
      simpa using hne
  · obtain rfl : [] = tokens := by simpa using hlife
    refine ⟨⟨_, AList.lookup_insert _, rfl⟩, fun q hq hid => ?_⟩
    obtain rfl := hsequence q hq hid
    exact ⟨rfl, rfl, rfl, fun hfin => absurd hfin (by simp)⟩

theorem eventsOf_eq_map : e.eventsOf id = (e.historyOf id).map Prod.fst := by
  unfold eventsOf historyOf
  rw [List.map_reverse, List.map_map]
  rfl

theorem taken_of_mem_historyOf (h : e.AllTaken id) {x : StreamEvent × Bool}
    (hx : x ∈ e.historyOf id) : x.2 = true := by
  obtain ⟨y, hy, rfl⟩ := List.mem_map.mp (List.mem_reverse.mp hx)
  obtain ⟨hmem, hid⟩ := List.mem_filter.mp hy
  exact h y hmem (of_decide_eq_true hid)

end Engine

/-! ## The limits of a request -/

/-- **The limits and the stop conditions of a request**, for the tokens that it
was sent and all the events. The reason in the terminal event is the client's
only word on why there are no more tokens, so each reason is held to what the
request asked for. -/
structure WithinLimits (params : SamplingParams) (eosIds tokens : List TokenId)
    (events : List StreamEvent) : Prop where
  atMost : tokens.length ≤ params.maxTokens
  length : ∀ p c, .done .length p c ∈ events → tokens.length = params.maxTokens
  stop : ∀ p c, .done .stop p c ∈ events → ∃ before t, tokens = before ++ [t]
    ∧ (t ∈ eosIds ∨ t ∈ params.stopTokenIds) ∧ params.minTokens ≤ tokens.length
  /-- A token that may end the generation is the last one. -/
  earlier : ∀ i t, tokens[i]? = some t → params.minTokens ≤ i + 1 →
    t ∈ eosIds ∨ t ∈ params.stopTokenIds → i + 1 = tokens.length

section Limits

variable {params : SamplingParams} {eosIds tokens : List TokenId}

/-- While it goes on. -/
theorem GoesOn.withinLimits (h : GoesOn params eosIds tokens) {events : List StreamEvent}
    (hlength : ∀ p c, .done .length p c ∉ events) (hstop : ∀ p c, .done .stop p c ∉ events) :
    WithinLimits params eosIds tokens events where
  atMost := h.below.le
  length p c hmem := absurd hmem (hlength p c)
  stop p c hmem := absurd hmem (hstop p c)
  earlier i t hi hmin hin := absurd ⟨hin, hmin⟩ (h.quiet i t hi)

/-- When a token has ended it. -/
theorem GoesOn.withinLimits_concat (h : GoesOn params eosIds tokens) {t : TokenId}
    {events : List StreamEvent}
    (hlength : ∀ p c, .done .length p c ∈ events → tokens.length + 1 = params.maxTokens)
    (hstop : ∀ p c, .done .stop p c ∈ events → params.StopsAt eosIds tokens.length t) :
    WithinLimits params eosIds (tokens ++ [t]) events := by
  have hlen : (tokens ++ [t]).length = tokens.length + 1 := by
    rw [List.length_append, List.length_singleton]
  refine ⟨hlen.le.trans h.below, fun p c hmem => hlen.trans (hlength p c hmem),
    fun p c hmem => ⟨tokens, t, rfl, (hstop p c hmem).1, hlen ▸ (hstop p c hmem).2⟩,
    fun i x hi hmin hin => ?_⟩
  have hlt := (List.getElem?_eq_some_iff.mp hi).1
  rw [hlen] at hlt ⊢
  rcases Nat.lt_succ_iff_lt_or_eq.mp hlt with hi' | rfl
  · rw [List.getElem?_append_left hi'] at hi
    exact absurd ⟨hin, hmin⟩ (h.quiet i x hi)
  · rfl

/-- When it has ended. -/
theorem Ending.withinLimits {reason : FinishReason} {n p c : ℕ}
    (h : Ending params eosIds tokens reason n) :
    WithinLimits params eosIds tokens (Engine.tokenEvents tokens ++ [.done reason p c]) := by
  -- there is one terminal event
  have hmem : ∀ {tokens : List TokenId} {reason reason' : FinishReason} {p' c' : ℕ},
      .done reason' p' c' ∈ Engine.tokenEvents tokens ++ [.done reason p c] →
        reason' = reason := by
    intro tokens reason reason' p' c' hmem
    rcases List.mem_append.mp hmem with hmem | hmem
    · exact absurd hmem Engine.done_notMem_tokenEvents
    · have heq := List.mem_singleton.mp hmem
      injection heq
  cases h with
  | stop before stops =>
    exact before.withinLimits_concat (fun _ _ hd => absurd (hmem hd) (by simp))
      (fun _ _ _ => stops)
  | length before goes full =>
    exact before.withinLimits_concat (fun _ _ _ => full)
      (fun _ _ hd => absurd (hmem hd) (by simp))
  | cancelled before =>
    exact before.withinLimits (fun _ _ hd => absurd (hmem hd) (by simp))
      (fun _ _ hd => absurd (hmem hd) (by simp))
  | timeout before count =>
    exact before.withinLimits (fun _ _ hd => absurd (hmem hd) (by simp))
      (fun _ _ hd => absurd (hmem hd) (by simp))

end Limits

namespace Engine

variable {M S F : Type*} [LanguageModel M F] [Sampler S F] {e : Engine M S} {id : SequenceId}
  {config : SchedulerConfig} {n bs firstId : ℕ} {flag : Bool} {model : M}

/-- **Token limits and stop conditions hold over whole runs.** An accepted
request whose channel took whatever was sent on it has received its tokens and
at most one terminal event after them, and they are within its limits. What was
sent before an eviction counts: the sequence keeps its output when it starts
anew. -/
theorem stream_withinLimits (h : e.Reachable config n bs flag model firstId)
    {prompt : List TokenId} {params : SamplingParams} {events : Channel} {sampler : S}
    {now : Instant} (hok : (e.submit prompt params events sampler now).2 = .ok id)
    (ops : List (EngineOp S))
    (hopen : (EngineOp.runAll (e.submit prompt params events sampler now).1 ops).AllTaken id) :
    let e' := EngineOp.runAll (e.submit prompt params events sampler now).1 ops
    ∃ tokens, (e'.eventsOf id = tokenEvents tokens
        ∨ ∃ reason p c, e'.eventsOf id = tokenEvents tokens ++ [.done reason p c])
      ∧ WithinLimits params e.eosIds tokens (e'.eventsOf id) := by
  intro e'
  obtain ⟨life, hlife⟩ := (lives_submit h.tracks hok).runAll ops
    (h.tracks.submit prompt params events sampler now)
  have hevents : e'.eventsOf id = (life.sent prompt.length).map Prod.fst := by
    rw [eventsOf_eq_map, hlife.history]
  cases life with
  | going tokens =>
    have htokens : e'.eventsOf id = tokenEvents tokens :=
      hevents.trans (List.map_map.trans (List.map_id _))
    refine ⟨tokens, Or.inl htokens, ?_⟩
    rw [htokens]
    exact GoesOn.withinLimits hlife.valid (fun _ _ => done_notMem_tokenEvents)
      (fun _ _ => done_notMem_tokenEvents)
  | ended tokens reason completion told =>
    have htokens : e'.eventsOf id
        = tokenEvents tokens ++ [.done reason prompt.length completion] := by
      refine hevents.trans (List.map_append.trans ?_)
      exact congrArg (· ++ _) (List.map_map.trans (List.map_id _))
    refine ⟨tokens, Or.inr ⟨reason, prompt.length, completion, htokens⟩, ?_⟩
    rw [htokens]
    exact Ending.withinLimits hlife.valid
  | dropped tokens token =>
    -- the last token was not taken
    have hlast : (StreamEvent.token token "" tokens.length, false) ∈ e'.historyOf id := by
      rw [hlife.history]
      exact List.mem_append_right _ (List.mem_singleton.mpr rfl)
    exact absurd (taken_of_mem_historyOf hopen hlast) (by simp)

/-- A request for at least two tokens, whose stop token comes twice. -/
theorem stream_withinLimits_stopTwice :
    let params : SamplingParams := { maxTokens := 5, minTokens := 2, stopTokenIds := [7] }
    let e' := EngineOp.runAll
      ((MockModel.engine 4 []).submit [1, 2, 3] params ⟨8, [], true⟩ ⟨7⟩ 0).1
      [.step 0, .step 0, .step 0]
    e'.eventsOf ⟨1⟩ = [.token 7 "" 0, .token 7 "" 1, .done .stop 3 2]
    ∧ ∃ tokens, (e'.eventsOf ⟨1⟩ = tokenEvents tokens
        ∨ ∃ reason p c, e'.eventsOf ⟨1⟩ = tokenEvents tokens ++ [.done reason p c])
      ∧ WithinLimits params (MockModel.engine 4 []).eosIds tokens (e'.eventsOf ⟨1⟩) := by
  intro params e'
  have hstart : (MockModel.engine 4 []).Reachable {} 4 4 true ⟨[]⟩ 1 := .start
  have hok : ((MockModel.engine 4 []).submit [1, 2, 3] params ⟨8, [], true⟩ ⟨7⟩ 0).2
      = .ok ⟨1⟩ := by
    decide +kernel
  have h := stream_withinLimits hstart hok [.step 0, .step 0, .step 0] (by decide +kernel)
  exact ⟨by decide +kernel, h⟩

end Engine
