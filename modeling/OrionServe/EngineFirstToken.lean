import OrionServe.EngineDraws
import OrionServe.EnginePrefills

/-!
# The first token of a request

A request that is let in waits for its prompt to be computed, in one chunk or in
many, in whatever company. The token that it is sent first is the one that its
sampler, as it came with the request, picks from the logits that the transformer
without a cache has for the prompt (`Engine.firstToken_recomputed`) – as long as
a step with a part of a prompt comes to its end, and no sequence is evicted
after it got a chunk and brought back in the same call.

A step that fails on its way leaves sequences whose prompt is through and that
were not sent a token. Their next row is that of a decode step, for the last
token of the prompt once more.
-/

/-! ## What the calls of the scheduler do to the output -/

/-- **What happens to a running sequence without `schedule`**: it stays where
it is or ends, and its output grows. -/
structure Sequence.Grows (q q' : Sequence) : Prop where
  ends : q.Ends q'
  output : q.output <+: q'.output

theorem Sequence.Grows.refl (q : Sequence) : q.Grows q := ⟨.refl q, List.prefix_rfl⟩

theorem Sequence.grows_finish (q : Sequence) (reason : FinishReason) :
    q.Grows (q.finish reason) :=
  ⟨q.ends_finish reason, by rw [Sequence.finish_output]⟩

theorem Sequence.grows_tokenReceived (q : Sequence) (token : TokenId) (eosIds : List TokenId) :
    q.Grows (Scheduler.tokenReceived token eosIds q) := by
  refine ⟨q.ends_tokenReceived token eosIds, ?_⟩
  rw [Engine.tokenReceived_output]
  exact List.prefix_append _ _

namespace Sequence.Grows

variable {q q' q'' : Sequence}

theorem trans (h : q.Grows q') (h' : q'.Grows q'') : q.Grows q'' where
  ends :=
    { id := h'.ends.id.trans h.ends.id
      prompt := h'.ends.prompt.trans h.ends.prompt
      computed := h'.ends.computed.trans h.ends.computed
      state := by
        rcases h'.ends.state with hst | hfin
        · rw [hst]
          exact h.ends.state
        · exact Or.inr hfin }
  output := h.output.trans h'.output

/-- A decoder was one before. -/
theorem decoding (h : q.Grows q') (hst : q'.state = .decoding) : q.state = .decoding := by
  rcases h.ends.state with heq | hfin
  · exact heq.symm.trans hst
  · exact absurd (hst.symm.trans hfin) (by simp)

theorem isPrefillComplete (h : q.Grows q') : q'.isPrefillComplete = q.isPrefillComplete := by
  unfold Sequence.isPrefillComplete
  rw [h.ends.prompt, h.ends.computed]

/-- Who has no output had none. -/
theorem output_eq_nil (h : q.Grows q') (hnil : q'.output = []) : q.output = [] :=
  List.prefix_nil.mp (hnil ▸ h.output)

end Sequence.Grows

/-- Who is running afterwards was running before. -/
def Scheduler.Grown (s s' : Scheduler KvCacheManager) : Prop :=
  ∀ q' ∈ s'.running, ∃ q ∈ s.running, q.Grows q'

theorem Scheduler.Grown.refl (s : Scheduler KvCacheManager) : s.Grown s :=
  fun q hq => ⟨q, hq, .refl q⟩

theorem Scheduler.Grown.trans {s s' s'' : Scheduler KvCacheManager} (h : s.Grown s')
    (h' : s'.Grown s'') : s.Grown s'' := by
  intro q'' hq''
  obtain ⟨q', hq', hg'⟩ := h' q'' hq''
  obtain ⟨q, hq, hg⟩ := h q' hq'
  exact ⟨q, hq, hg.trans hg'⟩

/-- **Every call but `schedule`.** -/
theorem Service.grown_run {v : Service KvCacheManager} (h : v.sched.Sound) {op : SchedulerOp}
    (hop : op ≠ .schedule) : v.sched.Grown (op.run v).sched := by
  have hsub : ∀ {s' : Scheduler KvCacheManager}, (∀ q ∈ s'.running, q ∈ v.sched.running) →
      v.sched.Grown s' := fun hrun q hq => ⟨q, hrun q hq, .refl q⟩
  cases op with
  | addRequest prompt params now =>
    show v.sched.Grown (v.sched.addRequest _).1
    rcases v.sched.addRequest_cases (.new ⟨v.nextId⟩ prompt params now) with ⟨e, he⟩ | ⟨hok, -⟩
    · rw [he]
      exact .refl _
    · rw [hok]
      exact hsub (fun q hq => hq)
  | schedule => exact absurd rfl hop
  | onToken id token eosIds =>
    show v.sched.Grown (v.sched.onToken id token eosIds).1
    unfold Scheduler.onToken
    split
    · exact .refl _
    · intro q' hq'
      rcases List.mem_updateKey h.nodup_running hq' with ⟨hq, -⟩ | ⟨q, hq, -, rfl⟩
      · exact ⟨q', hq, .refl q'⟩
      · exact ⟨q, hq, q.grows_tokenReceived token eosIds⟩
  | reapFinished => exact hsub (fun q hq => (List.mem_filter.mp hq).1)
  | cancel id =>
    show v.sched.Grown (v.sched.cancel id).1
    unfold Scheduler.cancel
    split
    · exact hsub (fun q hq => hq)
    split
    · exact hsub (fun q hq => ((List.mem_eraseKey h.nodup_running).mp hq).1)
    · exact .refl _
  | expireTimeouts now =>
    show v.sched.Grown (v.sched.expireTimeouts now).1
    unfold Scheduler.expireTimeouts
    split
    · exact .refl _
    · intro q' hq'
      obtain ⟨q, hq, rfl⟩ := List.mem_map.mp hq'
      refine ⟨q, hq, ?_⟩
      show q.Grows (if Scheduler.isExpired now _ q then q.finish .timeout else q)
      split
      · exact q.grows_finish _
      · exact .refl q
  | commitPrefill id =>
    show v.sched.Grown (v.sched.commitPrefill id)
    unfold Scheduler.commitPrefill
    split
    · exact .refl _
    · split
      · exact hsub (fun q hq => hq)
      · exact .refl _

/-! ## The first entry of a call -/

/-- The first entry that a call has made for a sequence. -/
def SchedulerOutput.firstFor (out : SchedulerOutput) (id : SequenceId) :
    Option ScheduledSequence := out.scheduled.findKey ScheduledSequence.id id

/-- One more entry. -/
theorem SchedulerOutput.firstFor_append {out out' : SchedulerOutput} {d : ScheduledSequence}
    (h : out'.scheduled = out.scheduled ++ [d]) (id : SequenceId) :
    out'.firstFor id = (out.firstFor id).or (if d.id = id then some d else none) := by
  unfold firstFor List.findKey
  rw [h, List.find?_append, List.find?_singleton]
  simp

/-- **Where a sequence without output begins**: its first entry is a part of its
prompt, and when it decodes there is one. -/
structure Pass.Begins (id : SequenceId) (p : Pass KvCacheManager) : Prop where
  prefill : ∀ q ∈ p.sched.queue, q.id = id → q.output = [] →
    ∀ d, p.out.firstFor id = some d → d.isPrefill = true
  entry : ∀ q ∈ p.sched.running, q.id = id → q.output = [] → q.state = .decoding →
    (p.out.firstFor id).isSome = true

namespace PassMove

variable {p p' : Pass KvCacheManager} {id : SequenceId}

/-- **The entry of a move**, if it makes one: it is for a part of a prompt, or
for a decoder. Whoever else runs afterwards did so before. -/
theorem entry_cases (hm : PassMove p p') (hs : p.sched.Sound) :
    (p'.out.scheduled = p.out.scheduled ∧ ∀ q ∈ p'.sched.running, q ∈ p.sched.running)
    ∨ ∃ d, p'.out.scheduled = p.out.scheduled ++ [d]
      ∧ (∀ q ∈ p'.sched.running, q.id ≠ d.id → q ∈ p.sched.running)
      ∧ (d.isPrefill = true ∨ ∃ q ∈ p.sched.running, q.id = d.id ∧ q.state = .decoding) := by
  cases hm with
  | refused answer result =>
    subst result
    exact Or.inl ⟨rfl, fun q hq => hq⟩
  | @decoded id totalLen c room answer cand result =>
    subst result
    refine Or.inr ⟨_, rfl, fun q hq _ => hq, Or.inr ?_⟩
    obtain ⟨-, t, t', happ⟩ := KvCacheManager.like_appendToken_ok hs.settled answer
    obtain ⟨q, hq, hid⟩ := List.mem_map.mp (hs.tables _ _ happ.table)
    exact ⟨q, hq, hid, (cand hs.nodup q hq hid).1⟩
  | evicted result =>
    obtain ⟨older, victim, hrun, rfl⟩ := Pass.preemptOne_eq_some result
    refine Or.inl ⟨rfl, fun q hq => ?_⟩
    rw [hrun]
    exact List.mem_append_left _ hq
  | @resumed seq chunk already found cand pos room result =>
    subst result
    refine Or.inr ⟨_, rfl, fun q hq hne => ?_, Or.inl rfl⟩
    rcases List.mem_updateKey hs.nodup_running hq with ⟨hq, -⟩ | ⟨a, -, hid, rfl⟩
    · exact hq
    · exact absurd ((Pass.resumed_id a chunk).trans hid) hne
  | @admitted seq rest chunk c head first slot pos left room answer result =>
    subst result
    refine Or.inr ⟨_, rfl, fun q hq hne => ?_, Or.inl rfl⟩
    refine (List.mem_append.mp hq).resolve_right (fun hq => hne ?_)
    rw [List.mem_singleton.mp hq]
    exact Pass.prefilled_id seq chunk
  | @readmitted seq rest chunk head started slot pos left room result =>
    subst result
    refine Or.inr ⟨_, rfl, fun q hq hne => ?_, Or.inl rfl⟩
    refine (List.mem_append.mp hq).resolve_right (fun hq => hne ?_)
    rw [List.mem_singleton.mp hq]
    exact Pass.prefilled_id seq chunk
  | putBack head available answer result =>
    subst result
    exact Or.inl ⟨rfl, fun q hq => hq⟩

/-- **Step lemma.** -/
theorem begins (hm : PassMove p p') (hs : p.sched.Sound) (h : p.Begins id) : p'.Begins id := by
  -- nobody gets any output
  have hback : ∀ q' ∈ p'.sched.queue, q'.id = id → q'.output = [] →
      ∃ q ∈ p.sched.queue, q.id = id ∧ q.output = [] := by
    intro q' hq' hid hnil
    obtain ⟨q, hq, hmoved⟩ := MovedAll.exists_of_mem hm.moved hq'
    exact ⟨q, hq, hmoved.id.symm.trans hid, hmoved.output.symm.trans hnil⟩
  rcases hm.entry_cases hs with ⟨hout, hrun⟩ | ⟨d, hout, hrun, hd⟩
  · have hsame : p'.out.firstFor id = p.out.firstFor id := by
      unfold SchedulerOutput.firstFor
      rw [hout]
    refine ⟨fun q' hq' hid hnil d hd => ?_, fun q hq hid hnil hdec => ?_⟩
    · obtain ⟨q, hq, hqid, hqnil⟩ := hback q' hq' hid hnil
      exact h.prefill q hq hqid hqnil d (hsame ▸ hd)
    · rw [hsame]
      exact h.entry q (hrun q hq) hid hnil hdec
  have hfirst := SchedulerOutput.firstFor_append hout id
  refine ⟨fun q' hq' hid hnil d' hd' => ?_, fun q hq hid hnil hdec => ?_⟩
  · obtain ⟨q, hq, hqid, hqnil⟩ := hback q' hq' hid hnil
    rcases hold : p.out.firstFor id with - | d₀
    · rw [hfirst, hold, Option.none_or] at hd'
      split at hd'
      · next heq =>
        obtain rfl := Option.some.inj hd'
        rcases hd with hpre | ⟨a, ha, haid, hdec⟩
        · exact hpre
        -- a decoder without output has an entry already
        obtain rfl := Scheduler.eq_of_id_eq hs.nodup (List.mem_append_left _ ha) hq
          ((haid.trans heq).trans hqid.symm)
        have hsome := h.entry a ha hqid hqnil hdec
        rw [hold] at hsome
        exact absurd hsome (by simp)
      · exact absurd hd' (by simp)
    · rw [hfirst, hold, Option.some_or] at hd'
      obtain rfl := Option.some.inj hd'
      exact h.prefill q hq hqid hqnil d₀ hold
  · rw [hfirst]
    by_cases heq : d.id = id
    · rw [if_pos heq]
      rcases p.out.firstFor id with - | d₀ <;> rfl
    · have hsome := h.entry q (hrun q hq (fun hne => heq (hne.symm.trans hid))) hid hnil hdec
      obtain ⟨d₀, hd₀⟩ := Option.isSome_iff_exists.mp hsome
      rw [hd₀]
      rfl

end PassMove

/-- **Run lemma.** -/
theorem PassMoves.begins {p p' : Pass KvCacheManager} {id : SequenceId} (hm : PassMoves p p')
    (hs : p.sched.Sound) (h : p.Begins id) : p'.Begins id := by
  induction hm with
  | refl => exact h
  | tail hmoves hmove ih => exact hmove.begins (PassMoves.sound hmoves hs) ih

namespace Engine

variable {M S F : Type*} {e e' : Engine M S} {id : SequenceId} {config : SchedulerConfig}
  {n bs firstId : ℕ} {flag : Bool}

/-- **A quiet stretch.** -/
theorem InService.grown (hbs : 1 ≤ bs) (hn : n ≤ 2 ^ 32)
    (h : e.InService config n bs flag firstId) (hq : e.Quiet e') :
    e.scheduler.Grown e'.scheduler := by
  refine h.kept (P := e.scheduler.Grown) (fun v hv op hop hg => hg.trans ?_) hq (.refl _)
  exact Service.grown_run (hv.sound hbs hn).sched hop

/-! ## The rows of a step -/

/-- The engine after a token for a sequence, and the event for it. -/
def tell (e : Engine M S) (id : SequenceId) (req : ActiveRequest S) (sampler : S)
    (token : TokenId) (index : ℕ) : Engine M S :=
  (send { e with scheduler := (e.scheduler.onToken id token e.eosIds).1 } id
    { req with sampler := sampler } (.token token "" index)).1

section Rows

variable [Sampler S F] {out : ForwardOutput F} {row : ℕ} {rows : List (SequenceId × ℕ)}

/-- **The ways a sample can go**: there is nobody to sample for; the sampler
fails; or there is a token, after which the caller may be dropped or done. -/
theorem sampleAndEmit_cases (e : Engine M S) (id : SequenceId) (logits : List F) :
    ((e.scheduler.runningSequence id = none ∨ e.active.lookup id = none)
      ∧ e.sampleAndEmit id logits = (e, .ok ()))
    ∨ ∃ seq req, e.scheduler.runningSequence id = some seq ∧ e.active.lookup id = some req
      ∧ ((∃ sampler err,
          Sampler.sample req.sampler logits seq.allTokens seq.params = (sampler, .error err)
          ∧ e.sampleAndEmit id logits
            = ({ e with active := e.active.insert id { req with sampler := sampler } },
                .error err))
        ∨ ∃ sampler token index,
          Sampler.sample req.sampler logits seq.allTokens seq.params = (sampler, .ok token)
          ∧ (e.sampleAndEmit id logits).2 = .ok ()
          ∧ ((e.sampleAndEmit id logits).1 = e.tell id req sampler token index
            ∨ (e.sampleAndEmit id logits).1
              = (e.tell id req sampler token index).cancelSilently id
            ∨ ∃ reason, (e.sampleAndEmit id logits).1
              = (e.tell id req sampler token index).finishRequest id reason)) := by
  unfold Engine.sampleAndEmit
  split
  · next hnone => exact Or.inl ⟨Or.inl hnone, rfl⟩
  next seq hseq =>
  split
  · next hnone => exact Or.inl ⟨Or.inr hnone, rfl⟩
  next req hreq =>
  refine Or.inr ⟨seq, req, hseq, hreq, ?_⟩
  split
  · next sampler err hsample => exact Or.inl ⟨sampler, err, hsample, rfl⟩
  next sampler token hsample =>
  refine Or.inr ⟨sampler, token, seq.allTokens.length - req.promptLen, hsample, ?_⟩
  simp only []
  split
  · next e' hsend =>
    obtain rfl : (send _ _ _ _).1 = e' := congrArg Prod.fst hsend
    exact ⟨rfl, Or.inr (Or.inl rfl)⟩
  · next e' hsend =>
    obtain rfl : (send _ _ _ _).1 = e' := congrArg Prod.fst hsend
    split
    · next reason _ => exact ⟨rfl, Or.inr (Or.inr ⟨reason, rfl⟩)⟩
    · exact ⟨rfl, Or.inl rfl⟩

/-- **The ways a row can go**: its sequence is in the middle of its prompt; the
row is not there; or it is sampled, which may fail. -/
theorem emitRows_cases (e : Engine M S) (out : ForwardOutput F) (id : SequenceId) (row : ℕ)
    (rows : List (SequenceId × ℕ)) :
    (∃ q, e.scheduler.runningSequence id = some q ∧ q.isPrefillComplete = false
      ∧ e.emitRows out ((id, row) :: rows) = e.emitRows out rows)
    ∨ (∃ err, e.emitRows out ((id, row) :: rows) = (e, .error err))
    ∨ ∃ logits, out.row row = some logits
      ∧ (∀ q, e.scheduler.runningSequence id = some q → q.isPrefillComplete = true)
      ∧ ((∃ err, (e.sampleAndEmit id logits).2 = .error err
          ∧ e.emitRows out ((id, row) :: rows) = ((e.sampleAndEmit id logits).1, .error err))
        ∨ (e.sampleAndEmit id logits).2 = .ok ()
          ∧ e.emitRows out ((id, row) :: rows)
            = (e.sampleAndEmit id logits).1.emitRows out rows) := by
  obtain ⟨r, hr⟩ : ∃ r, r = e.emitRows out ((id, row) :: rows) := ⟨_, rfl⟩
  rw [← hr]
  rw [Engine.emitRows] at hr
  split at hr
  · next hmid =>
    obtain ⟨q, hq, hnot⟩ := (Option.any_eq_true _ _).mp hmid
    exact Or.inl ⟨q, hq, by simpa using hnot, hr⟩
  next hthrough =>
  split at hr
  · next hnone => exact Or.inr (Or.inl ⟨_, hr⟩)
  next logits hrow =>
  refine Or.inr (Or.inr ⟨logits, hrow, fun q hq => ?_, ?_⟩)
  · rw [hq] at hthrough
    simpa using hthrough
  split at hr
  · next e' he' => exact Or.inr ⟨by rw [he'], by rw [hr, he']⟩
  · next e' err he' => exact Or.inl ⟨err, by rw [he'], by rw [hr, he']⟩

/-! ## The first token -/

/-- **A request and its first token**: if it was sent a token, the first is what
the sampler `s` picks from logits in `L`; and as long as it has none, its
sampler is still `s`. -/
structure Opens (id : SequenceId) (L : List F → Prop) (prompt : List TokenId)
    (params : SamplingParams) (s : S) (e : Engine M S) : Prop where
  said : ∀ t ∈ (tokensIn (e.eventsOf id)).head?,
    ∃ l, L l ∧ (Sampler.sample s l prompt params).2 = .ok t
  going : ∀ req, e.active.lookup id = some req → ∀ q ∈ e.scheduler.queue, q.id = id →
    q.prompt = prompt ∧ q.params = params ∧ q.output = tokensIn (e.eventsOf id)
      ∧ (q.output = [] → req.sampler = s)

variable {L : List F → Prop} {prompt : List TokenId} {params : SamplingParams} {s : S}

theorem Opens.leaves (h : e.Opens id L prompt params s) (hl : e.Leaves id e') :
    e'.Opens id L prompt params s where
  said := by
    rw [hl.said]
    exact h.said
  going req' hreq' q' hq' hid := by
    obtain ⟨req, hreq, hsampler⟩ := hl.active req' hreq'
    obtain ⟨q, hq, hqid, hprompt, hparams, houtput⟩ := hl.queue q' hq' hid
    rw [hl.said, hprompt, hparams, houtput, hsampler]
    exact h.going req hreq q hq hqid

omit [Sampler S F] in
/-- What a token does to the output of its sequence and to what was sent. -/
theorem tell_output (req : ActiveRequest S) (sampler : S) (token : TokenId) (index : ℕ)
    (hnd : e.scheduler.ids.Nodup) {seq : Sequence}
    (hseq : e.scheduler.runningSequence id = some seq) :
    tokensIn ((e.tell id req sampler token index).eventsOf id)
        = tokensIn (e.eventsOf id) ++ [token]
      ∧ ∀ q ∈ (e.tell id req sampler token index).scheduler.queue, q.id = id →
        q.prompt = seq.prompt ∧ q.params = seq.params ∧ q.output = seq.output ++ [token] := by
  refine ⟨?_, fun q hq hqid => ?_⟩
  · unfold tell
    rw [eventsOf_cons (e := e) rfl id, if_pos rfl, tokensIn_append]
    rfl
  · rcases queue_onToken hnd hq with ⟨-, hne | hnone⟩ | ⟨a, ha, haid, rfl⟩
    · exact absurd hqid hne
    · exact absurd (hseq.symm.trans hnone) (by simp)
    · have hid : seq.id = id := List.key_of_findKey hseq
      obtain rfl := Scheduler.eq_of_id_eq hnd (List.mem_append_left _ ha)
        (List.mem_append_left _ (List.mem_of_findKey hseq)) (haid.trans hid.symm)
      exact ⟨(a.ends_tokenReceived token e.eosIds).prompt, tokenReceived_params _ _ a,
        tokenReceived_output _ _ a⟩

/-- **A row for the request.** -/
theorem Opens.sampleAndEmit (h : e.Opens id L prompt params s) (ht : e.Tracks [] [])
    {logits : List F} (hrow : ∀ req, e.active.lookup id = some req →
      ∀ q, e.scheduler.runningSequence id = some q → q.output = [] →
        L logits ∧ (e.sampleAndEmit id logits).2 = .ok ()) :
    (e.sampleAndEmit id logits).1.Opens id L prompt params s := by
  rcases e.sampleAndEmit_cases id logits with ⟨-, hsame⟩ | ⟨seq, req, hseq, hreq, hcases⟩
  · rw [hsame]
    exact h
  have hmem := List.mem_append_left e.scheduler.waiting (List.mem_of_findKey hseq)
  have hid : seq.id = id := List.key_of_findKey hseq
  obtain ⟨hprompt, hparams, houtput, hsampler⟩ := h.going req hreq seq hmem hid
  rcases hcases with ⟨sampler, err, -, hfail⟩ | ⟨sampler, token, index, hsample, -, hend⟩
  · rw [hfail]
    refine ⟨h.said, fun r hr q hq hqid => ?_⟩
    obtain rfl := Scheduler.eq_of_id_eq ht.nodup hq hmem (hqid.trans hid.symm)
    refine ⟨hprompt, hparams, houtput, fun hnil => ?_⟩
    -- a first row does not fail
    have hok := (hrow req hreq q hseq hnil).2
    rw [hfail] at hok
    exact absurd hok (by simp)
  obtain ⟨hsaid, hqueue⟩ := tell_output req sampler token index ht.nodup hseq
  have htold : (e.tell id req sampler token index).Opens id L prompt params s := by
    refine ⟨fun t htok => ?_, fun r _ q hq hqid => ?_⟩
    · rw [hsaid] at htok
      rcases hnil : tokensIn (e.eventsOf id) with - | ⟨t₀, rest⟩
      · -- the first token
        rw [hnil] at htok houtput
        obtain rfl := Option.some.inj htok
        refine ⟨logits, (hrow req hreq seq hseq houtput).1, ?_⟩
        have hall : seq.allTokens = prompt := by
          unfold Sequence.allTokens
          rw [houtput, List.append_nil, hprompt]
        rw [hsampler houtput, hall, hparams] at hsample
        rw [hsample]
      · rw [hnil] at htok
        refine h.said t ?_
        rw [hnil]
        exact htok
    · obtain ⟨hqprompt, hqparams, hqoutput⟩ := hqueue q hq hqid
      refine ⟨hqprompt.trans hprompt, hqparams.trans hparams, ?_, fun hnil => ?_⟩
      · rw [hsaid, hqoutput, houtput]
      · rw [hqoutput] at hnil
        exact absurd hnil (by simp)
  rcases hend with hend | hend | ⟨reason, hend⟩
  · rw [hend]
    exact htold
  · rw [hend]
    exact htold.leaves (Leaves.cancelSilently _ _)
  · rw [hend]
    exact htold.leaves (Leaves.sendLast _ _ (fun _ => ⟨_, _, _, rfl⟩))

/-- A request that is still active after its row has a token. -/
theorem output_of_sampleAndEmit (hnd : e.scheduler.ids.Nodup) {logits : List F}
    (hok : (e.sampleAndEmit id logits).2 = .ok ()) {q : Sequence}
    (hq : q ∈ (e.sampleAndEmit id logits).1.scheduler.running) (hid : q.id = id)
    (hactive : ((e.sampleAndEmit id logits).1.active.lookup id).isSome = true) :
    q.output ≠ [] := by
  rcases e.sampleAndEmit_cases id logits with ⟨hnone | hnone, hsame⟩ | ⟨seq, req, hseq, -, hcases⟩
  · rw [hsame] at hq
    exact absurd (List.mem_map.mpr ⟨q, hq, hid⟩) (List.findKey_eq_none_iff.mp hnone)
  · rw [hsame] at hactive
    exact absurd hactive (by rw [hnone]; simp)
  rcases hcases with ⟨sampler, err, -, hfail⟩ | ⟨sampler, token, index, -, -, hend⟩
  · rw [hfail] at hok
    exact absurd hok (by simp)
  have hgone : ∀ req' : AList (fun _ : SequenceId => ActiveRequest S),
      ((req'.erase id).lookup id).isSome = true → False := by
    intro req' hsome
    rw [AList.lookup_erase] at hsome
    exact absurd hsome (by simp)
  rcases hend with hend | hend | ⟨reason, hend⟩
  · rw [hend] at hq
    rw [((tell_output req _ _ _ hnd hseq).2 q (List.mem_append_left _ hq) hid).2.2]
    simp
  · rw [hend] at hactive
    exact (hgone _ hactive).elim
  · rw [hend] at hactive
    unfold Engine.finishRequest Engine.sendLast at hactive
    split at hactive
    · next hnone => exact absurd hactive (by rw [hnone]; simp)
    · exact (hgone _ hactive).elim

/-- A decoder's prompt is through. -/
theorem isPrefillComplete_of_decoding {s : Scheduler KvCacheManager} (hs : s.Sound) {q : Sequence}
    (hq : q ∈ s.running) (hdec : q.state = .decoding) : q.isPrefillComplete = true := by
  have hres := hs.resident hq (by simp [hdec])
  rcases hres.stage with ⟨hmid, -⟩ | ⟨-, heq⟩
  · exact absurd (hmid.symm.trans hdec) (by simp)
  · exact decide_eq_true heq.ge

section Loop

variable (hbs : 1 ≤ bs) (hn : n ≤ 2 ^ 32)

include hbs hn

/-- **The rows of a step**: the first of a request without output is the one
with logits in `L`, and comes to its end. -/
theorem Opens.emitRows (out : ForwardOutput F) (rows : List (SequenceId × ℕ)) :
    ∀ {e : Engine M S},
    e.InService config n bs flag firstId → e.Tracks [] [] → e.Opens id L prompt params s →
    (∀ req, e.active.lookup id = some req → ∀ q ∈ e.scheduler.running, q.id = id →
      q.isPrefillComplete = true → q.output = [] → ∀ x, rows.findKey Prod.fst id = some x →
        (e.emitRows out rows).2 = .ok () ∧ ∃ l, out.row x.2 = some l ∧ L l) →
    (e.emitRows out rows).1.Opens id L prompt params s := by
  induction rows with
  | nil => exact fun _ _ h _ => h
  | cons x rows ih =>
    obtain ⟨id', row⟩ := x
    intro e hin ht h hfirst
    have hskip : id' ≠ id → List.findKey Prod.fst id ((id', row) :: rows)
        = List.findKey Prod.fst id rows := fun hne => List.find?_cons_of_neg (by simpa using hne)
    rcases e.emitRows_cases out id' row rows with ⟨q₀, hq₀, hmid, hsame⟩ | ⟨err, hsame⟩
      | ⟨logits, hrow, hthrough, hcases⟩
    · rw [hsame]
      refine ih hin ht h (fun req hreq q hq hid hdone hnil => ?_)
      have hne : id' ≠ id := by
        rintro rfl
        obtain rfl := Scheduler.eq_of_id_eq ht.nodup (List.mem_append_left _ hq)
          (List.mem_append_left _ (List.mem_of_findKey hq₀))
          (hid.trans (List.key_of_findKey hq₀).symm)
        exact absurd (hdone.symm.trans hmid) (by simp)
      have hfirst' := hfirst req hreq q hq hid hdone hnil
      rw [hsame, hskip hne] at hfirst'
      exact hfirst'
    · rw [hsame]
      exact h
    have hin' := hin.quiet (quiet_sampleAndEmit e id' logits)
    have hgrown := hin.grown hbs hn (quiet_sampleAndEmit e id' logits)
    have ht' := ht.sampleAndEmit id' logits
    by_cases heq : id' = id
    · subst heq
      have hone : (e.sampleAndEmit id' logits).1.Opens id' L prompt params s := by
        refine h.sampleAndEmit ht (fun req hreq q hq hnil => ?_)
        obtain ⟨hok, l, hl, hin⟩ := hfirst req hreq q (List.mem_of_findKey hq)
          (List.key_of_findKey hq) (hthrough q hq) hnil (id', row)
          (List.find?_cons_of_pos (by simp))
        obtain rfl := Option.some.inj (hl.symm.trans hrow)
        refine ⟨hin, ?_⟩
        rcases hcases with ⟨err, -, hfail⟩ | ⟨hgood, -⟩
        · rw [hfail] at hok
          exact absurd hok (by simp)
        · exact hgood
      rcases hcases with ⟨err, -, hfail⟩ | ⟨hgood, hrest⟩
      · rw [hfail]
        exact hone
      · rw [hrest]
        refine ih hin' ht' hone (fun req hreq q hq hid hdone hnil => ?_)
        exact absurd hnil (output_of_sampleAndEmit ht.nodup hgood hq hid (by rw [hreq]; rfl))
    · have hone := Leaves.sampleAndEmit (F := F) ht.nodup heq logits
      rcases hcases with ⟨err, -, hfail⟩ | ⟨hgood, hrest⟩
      · rw [hfail]
        exact h.leaves hone
      · rw [hrest]
        refine ih hin' ht' (h.leaves hone) (fun req hreq q' hq' hid hdone hnil => ?_)
        obtain ⟨q, hq, hg⟩ := hgrown q' hq'
        obtain ⟨req₀, hreq₀, -⟩ := hone.active req hreq
        have hfirst' := hfirst req₀ hreq₀ q hq (hg.ends.id.symm.trans hid)
          (hg.isPrefillComplete.symm.trans hdone) (hg.output_eq_nil hnil)
        rw [hrest, hskip heq] at hfirst'
        exact hfirst'

/-- **Who had a row has a token.** -/
theorem output_of_emitRows (rows : List (SequenceId × ℕ)) : ∀ {e : Engine M S},
    e.InService config n bs flag firstId → e.Tracks [] [] → (e.emitRows out rows).2 = .ok () →
    id ∈ rows.map Prod.fst → ∀ q ∈ (e.emitRows out rows).1.scheduler.running, q.id = id →
    q.state = .decoding → q.output ≠ [] := by
  induction rows with
  | nil => exact fun _ _ _ hmem => absurd hmem List.not_mem_nil
  | cons x rows ih =>
    obtain ⟨id', row⟩ := x
    intro e hin ht hok hmem q' hq' hid hdec
    have hrest : id' ≠ id → id ∈ rows.map Prod.fst := fun hne =>
      (List.mem_cons.mp hmem).resolve_left (fun heq => hne heq.symm)
    rcases e.emitRows_cases out id' row rows with ⟨q₀, hq₀, hmid, hsame⟩ | ⟨err, hsame⟩
      | ⟨logits, -, -, ⟨err, -, hfail⟩ | ⟨hgood, hsame⟩⟩
    · rw [hsame] at hok hq'
      by_cases heq : id' = id
      · -- it would not decode yet
        obtain ⟨q, hq, hg⟩ := hin.grown hbs hn (quiet_emitRows out rows e) q' hq'
        have hqid : q.id = id' := (hg.ends.id.symm.trans hid).trans heq.symm
        obtain rfl := Scheduler.eq_of_id_eq ht.nodup (List.mem_append_left _ hq)
          (List.mem_append_left _ (List.mem_of_findKey hq₀))
          (hqid.trans (List.key_of_findKey hq₀).symm)
        have hdone := isPrefillComplete_of_decoding (hin.sound hbs hn) hq (hg.decoding hdec)
        exact absurd (hdone.symm.trans hmid) (by simp)
      · exact ih hin ht hok (hrest heq) q' hq' hid hdec
    · rw [hsame] at hok
      exact absurd hok (by simp)
    · rw [hfail] at hok
      exact absurd hok (by simp)
    rw [hsame] at hok hq'
    have hin' := hin.quiet (quiet_sampleAndEmit e id' logits)
    have ht' := ht.sampleAndEmit id' logits
    by_cases heq : id' = id
    · subst heq
      obtain ⟨q, hq, hg⟩ := hin'.grown hbs hn (quiet_emitRows out rows _) q' hq'
      have hqid : q.id = id' := hg.ends.id.symm.trans hid
      have hlive : q.state ≠ .finished := by
        rw [hg.decoding hdec]
        simp
      have hactive := ht'.requested q (List.mem_append_left _ hq) hlive
      rw [hqid] at hactive
      exact fun hnil => output_of_sampleAndEmit ht.nodup hgood hq hqid hactive
        (hg.output_eq_nil hnil)
    · exact ih hin' ht' hok (hrest heq) q' hq' hid hdec

end Loop

end Rows

/-! ## Steps -/

/-- **Every decoder has had its first token.** So it is between operations, if
no step fails on its way. -/
def Begun (id : SequenceId) (e : Engine M S) : Prop :=
  ∀ q ∈ e.scheduler.running, q.id = id → q.state = .decoding → q.output ≠ []

theorem Begun.quiet (hbs : 1 ≤ bs) (hn : n ≤ 2 ^ 32) (hin : e.InService config n bs flag firstId)
    (h : e.Begun id) (hq : e.Quiet e') : e'.Begun id := by
  intro q' hq' hid hdec hnil
  obtain ⟨q, hmem, hg⟩ := hin.grown hbs hn hq q' hq'
  exact h q hmem (hg.ends.id.symm.trans hid) (hg.decoding hdec) (hg.output_eq_nil hnil)

/-- A call finds every decoder begun, and makes an entry for each new one. -/
theorem Begun.begins (hbs : 1 ≤ bs) (hn : n ≤ 2 ^ 32) (hin : e.InService config n bs flag firstId)
    (h : e.Begun id) (now : Instant) : (e.expire now).scheduler.passes.Begins id := by
  have hs := (hin.quiet (e.quiet_expire now)).sound hbs hn
  refine PassMoves.begins (e.expire now).scheduler.passes_moves hs ⟨?_, ?_⟩
  · intro q _ _ _ d hd
    exact absurd hd (by simp [SchedulerOutput.firstFor, Scheduler.pass, SchedulerOutput.empty,
      List.findKey])
  · intro q hq hid hnil hdec
    exact absurd hnil (h.quiet hbs hn hin (e.quiet_expire now) q hq hid hdec)

/-- The first entry of a sequence that runs is the first in the batch. -/
theorem findKey_served {s : Scheduler KvCacheManager} {out : SchedulerOutput}
    (h : (s.runningSequence id).isSome = true) :
    (served s out).findKey ScheduledSequence.id id = out.firstFor id := by
  unfold served SchedulerOutput.firstFor List.findKey
  rw [List.find?_filter]
  refine congrArg (List.find? · out.scheduled) (funext (fun d => ?_))
  by_cases hid : d.id = id
  · rw [hid, h]
    simp
  · simp [hid]

/-- The first row for an id is that of the first record with it. -/
theorem exists_of_findKey_zipIdx {α : Type*} {key : α → SequenceId} {l : List α}
    {x : SequenceId × ℕ} (h : (l.map key).zipIdx.findKey Prod.fst id = some x) :
    ∃ a, l[x.2]? = some a ∧ l.findKey key id = some a := by
  obtain ⟨hkey, i, hi, hget, hbefore⟩ := List.find?_eq_some_iff_getElem.mp h
  rw [List.length_zipIdx, List.length_map] at hi
  rw [List.getElem_zipIdx] at hget
  obtain rfl := hget
  refine ⟨l[i], by simp [List.getElem?_eq_getElem hi], ?_⟩
  refine List.find?_eq_some_iff_getElem.mpr ⟨by simpa using hkey, i, hi, rfl, fun j hj => ?_⟩
  simpa using hbefore j hj

section Run

variable {F D S : Type*} [Scalars F D] [Sampler S F] {m : TransformerModel F}
  {e : Engine (TransformerModel F) S} {prompt : List TokenId} {params : SamplingParams} {s : S}

/-- **An operation that goes through**: a step in order in which no chunk is
left behind by the counter of its sequence – it is when the sequence is evicted
and brought back in the same call – and which comes to its end if its batch has
a part of a prompt. -/
def GoesThrough (e : Engine (TransformerModel F) S) : EngineOp S → Prop
  | .step now => Orderly (e.scheduled now).scheduler (e.output now)
    ∧ (∀ d ∈ (e.output now).scheduled, d.isPrefill = true →
        ∀ r ∈ (e.scheduled now).scheduler.running, r.id = d.id →
          r.computedPrefixLen ≤ d.startPosition + d.numTokens)
    ∧ (e.HasPrefill now → ∃ k, (e.step now).2 = .ok k)
  | _ => True

theorem GoesThrough.inOrder {op : EngineOp S} (h : e.GoesThrough op) : e.InOrder op := by
  cases op with
  | step now =>
    obtain ⟨ho, -, hends⟩ := h
    refine ⟨ho, fun hpre => ?_⟩
    obtain ⟨k, hk⟩ := hends hpre
    rcases e.step_cases now with ⟨hempty, -, -⟩ | ⟨err, -, -, hfail⟩
      | ⟨b, hb, ⟨err, -, -, hfail⟩ | ⟨hout, -⟩⟩
    · exact absurd hempty hpre.isEmpty_ne
    · exact absurd (hfail.symm.trans hk) (by simp)
    · exact absurd (hfail.symm.trans hk) (by simp)
    · exact ⟨b, hb, hout⟩
  | _ => trivial

/-- A step that comes to its end has emitted its rows. -/
theorem emitRows_of_step {now : Instant} {k : ℕ} (hpre : e.HasPrefill now)
    (hstep : (e.step now).2 = .ok k) {b : ForwardBatch}
    (hb : buildBatch (e.scheduled now).scheduler (e.output now) = .ok b) {out : ForwardOutput F}
    (hout : ((e.scheduled now).runForward b).2 = .ok out) :
    (((e.scheduled now).runForward b).1.emitRows out out.sequenceIds.zipIdx).2 = .ok () := by
  have hserve : e.step now = if (e.output now).isEmpty then ((e.scheduled now).reap, .ok 0)
      else (e.scheduled now).serve (e.output now) := rfl
  rw [hserve, if_neg hpre.isEmpty_ne] at hstep
  unfold serve at hstep
  split at hstep
  · exact absurd hstep (by simp)
  next b' hb' =>
  obtain rfl := Except.ok.inj (hb'.symm.trans hb)
  split at hstep
  · exact absurd hstep (by simp)
  next e' out' hfwd =>
  rw [hfwd] at hout ⊢
  obtain rfl := Except.ok.inj hout
  split at hstep
  · exact absurd hstep (by simp)
  · next e'' hemit => rw [hemit]

/-- **The first row of a request** has the logits of its whole prompt. -/
theorem first_row {s : Scheduler KvCacheManager} (hs : s.Sound)
    (ho : Orderly s.schedule.1 s.schedule.2) (hbegins : s.passes.Begins id)
    (hreach : ∀ d ∈ s.schedule.2.scheduled, d.isPrefill = true → ∀ r ∈ s.schedule.1.running,
      r.id = d.id → r.computedPrefixLen ≤ d.startPosition + d.numTokens)
    (hvocab : m.head.rows = m.metadata.vocabSize) {b : ForwardBatch}
    (hb : buildBatch s.schedule.1 s.schedule.2 = .ok b) {out : ForwardOutput F}
    (hanswers : m.Answers (jobsOf s.schedule.1 s.schedule.2) out) {q : Sequence}
    (hq : q ∈ s.schedule.1.running) (hid : q.id = id) (hdone : q.isPrefillComplete = true)
    (hnil : q.output = []) {x : SequenceId × ℕ}
    (hx : out.sequenceIds.zipIdx.findKey Prod.fst id = some x) :
    (∃ d ∈ s.schedule.2.scheduled, d.isPrefill = true)
      ∧ ∃ l, out.row x.2 = some l ∧ m.logitsOf q.prompt = .ok l := by
  have hfind : s.schedule.1.runningSequence id = some q :=
    (List.findKey_eq_some_iff hs.schedule.nodup_running).mpr ⟨hq, hid⟩
  rw [ids_of_answers hs hb hanswers] at hx
  obtain ⟨d, hget, hfirst⟩ := exists_of_findKey_zipIdx hx
  rw [findKey_served (by rw [hfind]; rfl)] at hfirst
  have hmem : d ∈ s.schedule.2.scheduled := List.mem_of_findKey hfirst
  have hpre := hbegins.prefill q (List.mem_append_left _ hq) hid hnil d hfirst
  obtain ⟨r, hr, hrid, l, hl, hlogits⟩ := row_of_answers hs ho hvocab hb hanswers hget hpre
  obtain rfl := List.eq_of_key_eq hs.schedule.nodup_running hr hq
    ((hrid.trans (List.key_of_findKey hfirst)).trans hid.symm)
  refine ⟨⟨d, hmem, hpre⟩, l, hl, ?_⟩
  have hall : r.prompt.length ≤ d.startPosition + d.numTokens :=
    (of_decide_eq_true hdone).trans (hreach d hmem hpre r hr hrid)
  rwa [List.take_of_length_le hall] at hlogits

/-- **Step lemma**: a step that goes through. -/
theorem Opens.step (hbs : 1 ≤ bs) (hn : n ≤ 2 ^ 32) (hfit : m.ResidualsFit)
    (hsize : m.blockSize = bs) (hvocab : m.head.rows = m.metadata.vocabSize)
    (h : e.ReachableIf InOrder config n bs flag m firstId)
    (hopens : e.Opens id (fun l => m.logitsOf prompt = .ok l) prompt params s)
    (hbegun : e.Begun id) {now : Instant} (hgo : e.GoesThrough (.step now)) :
    (e.step now).1.Opens id (fun l => m.logitsOf prompt = .ok l) prompt params s
      ∧ (e.step now).1.Begun id := by
  obtain ⟨ho, hreach, hends⟩ := hgo
  have hin := h.reachable.inService
  have hs := (hin.quiet (e.quiet_expire now)).sound hbs hn
  have hin₂ := hin.scheduled now
  have ht₂ := h.reachable.tracks.scheduled now
  have hopens₂ := hopens.leaves (Leaves.scheduled e now)
  have hbegins := hbegun.begins hbs hn hin now
  -- a decoder that has just got through its prompt has an entry for a part of it
  have hentry : ∀ q ∈ (e.scheduled now).scheduler.running, q.id = id → q.state = .decoding →
      q.output = [] → ∃ d, (e.output now).firstFor id = some d ∧ d.isPrefill = true := by
    intro q hq hid hdec hnil
    obtain ⟨d, hd⟩ := Option.isSome_iff_exists.mp (hbegins.entry q hq hid hnil hdec)
    exact ⟨d, hd, hbegins.prefill q (List.mem_append_left _ hq) hid hnil d hd⟩
  have hidle : ¬ e.HasPrefill now → (e.scheduled now).Begun id := by
    intro hnone q hq hid hdec hnil
    obtain ⟨d, hd, hpre⟩ := hentry q hq hid hdec hnil
    exact hnone ⟨d, List.mem_of_findKey hd, hpre⟩
  rcases e.step_stages now with ⟨hempty, hstep⟩ | ⟨err, hbuild, hstep⟩
    | ⟨b, hb, ⟨err, hfwd, hstep⟩ | ⟨out, hout, hlast⟩⟩
  · rw [hstep]
    exact ⟨hopens₂.leaves (Leaves.reap _),
      (hidle (fun hpre => hpre.isEmpty_ne hempty)).quiet hbs hn hin₂ (quiet_reap _)⟩
  · have hnone : ¬ e.HasPrefill now := fun hpre => by
      obtain ⟨k, hk⟩ := hends hpre
      rw [hstep] at hk
      exact absurd hk (by simp)
    rw [hstep]
    exact ⟨hopens₂, hidle hnone⟩
  · have hnone : ¬ e.HasPrefill now := fun hpre => by
      obtain ⟨k, hk⟩ := hends hpre
      rw [hstep] at hk
      exact absurd hk (by simp)
    rw [hstep]
    exact ⟨hopens₂.leaves (.of_sub (fun _ hq => hq) rfl rfl), hidle hnone⟩
  have hanswers := h.answers hbs hn hfit hsize ho hb hout
  set e₃ := ((e.scheduled now).runForward b).1 with he₃
  have hin₃ : e₃.InService config n bs flag firstId := hin₂.runForward b
  have ht₃ : e₃.Tracks [] [] := ht₂.congr rfl rfl rfl rfl
  have hopens₃ : e₃.Opens id (fun l => m.logitsOf prompt = .ok l) prompt params s :=
    hopens₂.leaves (.of_sub (fun _ hq => hq) rfl rfl)
  have hemits : e.HasPrefill now → (e₃.emitRows out out.sequenceIds.zipIdx).2 = .ok () := by
    intro hpre
    obtain ⟨k, hk⟩ := hends hpre
    exact emitRows_of_step hpre hk hb hout
  have hemit := Opens.emitRows hbs hn out out.sequenceIds.zipIdx hin₃ ht₃ hopens₃
    (fun req hreq q hq hid hdone hnil x hx => by
      obtain ⟨hpre, l, hl, hlogits⟩ := first_row hs ho hbegins hreach hvocab hb hanswers hq hid
        hdone hnil hx
      have hprompt := (hopens₃.going req hreq q (List.mem_append_left _ hq) hid).1
      exact ⟨hemits hpre, l, hl, hprompt ▸ hlogits⟩)
  have hbegun₃ : (e₃.emitRows out out.sequenceIds.zipIdx).1.Begun id := by
    intro q' hq' hid hdec hnil
    obtain ⟨q, hq, hg⟩ := hin₃.grown hbs hn (quiet_emitRows out _ e₃) q' hq'
    have hqid := hg.ends.id.symm.trans hid
    obtain ⟨d, hd, hpre⟩ := hentry q hq hqid (hg.decoding hdec) (hg.output_eq_nil hnil)
    have hfind : (e.scheduled now).scheduler.runningSequence id = some q :=
      (List.findKey_eq_some_iff hs.schedule.nodup_running).mpr ⟨hq, hqid⟩
    refine output_of_emitRows hbs hn out.sequenceIds.zipIdx hin₃ ht₃
      (hemits ⟨d, List.mem_of_findKey hd, hpre⟩) ?_ q' hq' hid hdec hnil
    rw [List.zipIdx_map_fst, ids_of_answers hs hb hanswers]
    refine List.mem_map.mpr ⟨d, ?_, List.key_of_findKey hd⟩
    exact List.mem_of_findKey
      ((findKey_served (Option.isSome_iff_exists.mpr ⟨q, hfind⟩)).trans hd)
  rcases hlast with ⟨err, hstep⟩ | hstep
  · rw [hstep]
    exact ⟨hemit, hbegun₃⟩
  · rw [hstep]
    have hin₄ := hin₃.quiet (quiet_emitRows out out.sequenceIds.zipIdx e₃)
    exact ⟨(hemit.leaves (Leaves.publish _ _)).leaves (Leaves.reap _),
      hbegun₃.quiet hbs hn hin₄ ((quiet_publish _ _).trans (quiet_reap _))⟩

/-- **Run lemma.** -/
theorem Opens.runAll (hbs : 1 ≤ bs) (hn : n ≤ 2 ^ 32) (hfit : m.ResidualsFit)
    (hsize : m.blockSize = bs) (hvocab : m.head.rows = m.metadata.vocabSize)
    (ops : List (EngineOp S)) :
    ∀ {e : Engine (TransformerModel F) S} {promptLen : ℕ} {eosIds : List TokenId} {life : Life},
      e.ReachableIf InOrder config n bs flag m firstId →
      e.Opens id (fun l => m.logitsOf prompt = .ok l) prompt params s → e.Begun id →
      e.Lives id params promptLen eosIds False life → Meets GoesThrough e ops →
      (EngineOp.runAll e ops).Opens id (fun l => m.logitsOf prompt = .ok l) prompt params s := by
  induction ops with
  | nil => exact fun _ h _ _ _ => h
  | cons op ops ih =>
    intro e promptLen eosIds life h hopens hbegun hlife hmeets
    obtain ⟨hgo, hrest⟩ := hmeets
    obtain ⟨life', hlife'⟩ := hlife.run h.reachable.tracks op
    obtain ⟨hopens', hbegun'⟩ : (op.run e).Opens id (fun l => m.logitsOf prompt = .ok l) prompt
        params s ∧ (op.run e).Begun id := by
      have hbegun' : (∀ now, op ≠ .step now) → (op.run e).Begun id := fun hop =>
        hbegun.quiet hbs hn h.reachable.inService (e.quiet_of_ne_step hop)
      cases op with
      | submit prompt' params' events sampler now =>
        exact ⟨hopens.leaves (Leaves.submit hlife.idLt _ _ _ _ _), hbegun' (by simp)⟩
      | cancel id' => exact ⟨hopens.leaves (Leaves.cancel e id'), hbegun' (by simp)⟩
      | step now => exact hopens.step hbs hn hfit hsize hvocab h hbegun hgo
      | receive id' => exact ⟨hopens.leaves (Leaves.receive e id'), hbegun' (by simp)⟩
      | hangUp id' => exact ⟨hopens.leaves (Leaves.hangUp e id'), hbegun' (by simp)⟩
    exact ih (h.step op hgo.inOrder) hopens' hbegun' hlife' hrest

/-- A run that goes through is in order. -/
theorem ReachableIf.inOrder (h : e.ReachableIf GoesThrough config n bs flag m firstId) :
    e.ReachableIf InOrder config n bs flag m firstId := by
  induction h with
  | start => exact .start
  | step op _ hop ih => exact ih.step op hop.inOrder

omit [Scalars F D] in
/-- **A request that is let in** was sent nothing yet. -/
theorem opens_submit {M : Type*} [LanguageModel M F] {model : M} {e : Engine M S}
    (h : e.Reachable config n bs flag model firstId) {L : List F → Prop} {events : Channel}
    {now : Instant} (hok : (e.submit prompt params events s now).2 = .ok id) :
    (e.submit prompt params events s now).1.Opens id L prompt params s
      ∧ (e.submit prompt params events s now).1.Begun id := by
  have hlife := lives_submit h.tracks hok
  have hsaid : tokensIn ((e.submit prompt params events s now).1.eventsOf id) = [] := by
    rw [eventsOf_eq_map, hlife.history]
    rfl
  refine ⟨⟨fun t ht => ?_, fun req hreq q hq hid => ?_⟩, fun q hq hid hdec => ?_⟩
  · rw [hsaid] at ht
    exact absurd ht (by simp)
  · obtain rfl := sequence_submit h.tracks hok hq hid
    obtain rfl := Option.some.inj ((channel_submit hok).symm.trans hreq)
    rw [hsaid]
    exact ⟨rfl, rfl, rfl, fun _ => rfl⟩
  · obtain rfl := sequence_submit h.tracks hok (List.mem_append_left _ hq) hid
    exact absurd hdec (by simp [Sequence.new])

end Run

end Engine

/-- **The first token of a request is right.** In every run that goes through,
whatever else the engine is given – other prompts in the same batches, chunks,
shared blocks, evictions, cancellations, timeouts – the first token that a
request is sent is the one that the sampler it came with picks from the logits
of the transformer without a cache for its prompt. -/
theorem Engine.firstToken_recomputed {F D S : Type*} [Scalars F D] [Sampler S F]
    {m : TransformerModel F} {config : SchedulerConfig} {n bs firstId : ℕ} {flag : Bool}
    (hbs : 1 ≤ bs) (hn : n ≤ 2 ^ 32) (hfit : m.ResidualsFit) (hsize : m.blockSize = bs)
    (hvocab : m.head.rows = m.metadata.vocabSize) {e : Engine (TransformerModel F) S}
    (h : e.ReachableIf GoesThrough config n bs flag m firstId) {prompt : List TokenId}
    {params : SamplingParams} {events : Channel} {s : S} {now : Instant} {id : SequenceId}
    (hok : (e.submit prompt params events s now).2 = .ok id) (ops : List (EngineOp S))
    (hrun : Meets GoesThrough (e.submit prompt params events s now).1 ops) {t : TokenId}
    (ht : (tokensIn ((EngineOp.runAll (e.submit prompt params events s now).1 ops).eventsOf
      id)).head? = some t) :
    ∃ l, m.logitsOf prompt = .ok l ∧ (Sampler.sample s l prompt params).2 = .ok t := by
  obtain ⟨hopens, hbegun⟩ :=
    opens_submit (L := fun l => m.logitsOf prompt = .ok l) h.reachable hok
  have hsubmit : (e.submit prompt params events s now).1.ReachableIf InOrder config n bs flag m
      firstId := h.inOrder.step (.submit prompt params events s now) trivial
  have hlife := lives_submit h.reachable.tracks hok
  exact (hopens.runAll hbs hn hfit hsize hvocab ops hsubmit hbegun hlife hrun).said t ht

namespace Engine

open TinyModel

/-- A prompt of two tokens that goes through one at a time. -/
theorem firstToken_recomputed_halfway : ∃ l, fitting.logitsOf [0, 0] = .ok l
    ∧ (Sampler.sample FirstToken.first l [0, 0] { maxTokens := 4 }).2 = .ok 0 := by
  have hrun : Meets GoesThrough submitted [.step 0, .step 0] :=
    ⟨⟨orderly_submitted, by decide +kernel, fun _ => ⟨1, by decide +kernel⟩⟩,
      ⟨orderly_halfway, by decide +kernel, fun _ => ⟨1, by decide +kernel⟩⟩, trivial⟩
  have hstart : tokenwise.ReachableIf GoesThrough
      { maxNumBatchedTokens := 1 } 2 2 true fitting 1 :=
    .start
  have hok : (tokenwise.submit [0, 0] { maxTokens := 4 } ⟨4, [], true⟩ FirstToken.first 0).2
      = .ok ⟨1⟩ := by decide +kernel
  exact firstToken_recomputed (by decide) (by decide) residualsFit_fitting rfl rfl hstart hok
    [.step 0, .step 0] hrun (by decide +kernel)

end Engine
