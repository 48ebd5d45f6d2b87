import OrionServe.Engine
import OrionServe.SchedulerEntries

/-!
# Runs of the engine

Whatever the engine does to its scheduler it does by calling it. `Handles`
says that one point of a run comes after another by a list of such calls,
with the model left alone in between, and `Quiet` that none of them is
`schedule`. Every operation of the engine but the step is quiet, and a step
is quiet up to its `schedule` call and again from the forward pass on –
`step_cases` says which ways it can go.

So the scheduler of a reachable engine is one that its own runs reach, and
what holds of those holds here: before a step, and between the `schedule`
call and the forward pass.
-/

variable {M S F : Type*}

namespace Engine

/-- A scheduler in service inside an engine. -/
structure Serves (e : Engine M S) (v : Service KvCacheManager) : Prop where
  sched : v.sched = e.scheduler
  nextId : v.nextId = e.nextId

/-- **From `e` to `e'` by these calls of the scheduler**, without a forward
pass. -/
structure Handles (ops : List SchedulerOp) (e e' : Engine M S) : Prop where
  serves : ∀ v, e.Serves v → e'.Serves (SchedulerOp.runAll v ops)
  model : e'.model = e.model
  forwards : e'.forwards = e.forwards

/-- **From `e` to `e'` without scheduling anything.** -/
def Quiet (e e' : Engine M S) : Prop :=
  ∃ ops, SchedulerOp.schedule ∉ ops ∧ Handles ops e e'

section Quiet

variable {e e' e'' : Engine M S}

theorem Handles.trans {ops ops' : List SchedulerOp} (h : Handles ops e e')
    (h' : Handles ops' e' e'') : Handles (ops ++ ops') e e'' where
  serves v hv := by
    show e''.Serves ((ops ++ ops').foldl SchedulerOp.run v)
    rw [List.foldl_append]
    exact h'.serves _ (h.serves v hv)
  model := h'.model.trans h.model
  forwards := h'.forwards.trans h.forwards

/-- Nothing that the scheduler sees. -/
theorem Quiet.of_same (hs : e'.scheduler = e.scheduler) (hn : e'.nextId = e.nextId)
    (hm : e'.model = e.model) (hf : e'.forwards = e.forwards) : e.Quiet e' :=
  ⟨[], List.not_mem_nil, fun _ hv => ⟨hv.sched.trans hs.symm, hv.nextId.trans hn.symm⟩, hm, hf⟩

theorem Quiet.refl (e : Engine M S) : e.Quiet e := .of_same rfl rfl rfl rfl

theorem Quiet.trans (h : e.Quiet e') (h' : e'.Quiet e'') : e.Quiet e'' := by
  obtain ⟨ops, hops, hh⟩ := h
  obtain ⟨ops', hops', hh'⟩ := h'
  refine ⟨ops ++ ops', fun hmem => ?_, hh.trans hh'⟩
  exact (List.mem_append.mp hmem).elim hops hops'

/-- One call. -/
theorem Quiet.call (op : SchedulerOp) (hop : op ≠ .schedule)
    (hserves : ∀ v, e.Serves v → e'.Serves (op.run v)) (hm : e'.model = e.model)
    (hf : e'.forwards = e.forwards) : e.Quiet e' :=
  ⟨[op], fun hmem => hop (List.mem_singleton.mp hmem).symm, hserves, hm, hf⟩

/-- A loop of quiet steps. -/
theorem Quiet.foldl {α : Type*} {f : Engine M S → α → Engine M S}
    (hf : ∀ e a, Quiet e (f e a)) (l : List α) : ∀ e, Quiet e (l.foldl f e) := by
  induction l with
  | nil => exact .refl
  | cons a l ih => exact fun e => (hf e a).trans (ih (f e a))

/-! ## The operations -/

theorem quiet_sendLast (e : Engine M S) (id : SequenceId)
    (ev : ActiveRequest S → StreamEvent) : e.Quiet (e.sendLast id ev) := by
  unfold sendLast
  split
  · exact .refl e
  · exact .of_same rfl rfl rfl rfl

theorem quiet_submit (e : Engine M S) (prompt : List TokenId) (params : SamplingParams)
    (events : Channel) (sampler : S) (now : Instant) :
    e.Quiet (e.submit prompt params events sampler now).1 := by
  have hserves : ∀ {e' : Engine M S},
      e'.scheduler = (e.scheduler.addRequest (.new ⟨e.nextId⟩ prompt params now)).1 →
      e'.nextId = e.nextId + 1 →
      ∀ v, e.Serves v → e'.Serves ((SchedulerOp.addRequest prompt params now).run v) := by
    intro e' hs hn v hv
    constructor
    · show (v.sched.addRequest (.new ⟨v.nextId⟩ prompt params now)).1 = _
      rw [hv.sched, hv.nextId, hs]
    · show v.nextId + 1 = _
      rw [hv.nextId, hn]
  unfold submit
  split
  · exact .refl e
  split
  · next s id hadd =>
    exact .call (.addRequest prompt params now) (by simp)
      (hserves (by rw [hadd]) rfl) rfl rfl
  · next s err hadd =>
    exact .call (.addRequest prompt params now) (by simp)
      (hserves (by rw [hadd]) rfl) rfl rfl

/-- A cancellation, whatever becomes of the request. -/
theorem quiet_cancelled (id : SequenceId) (hs : e'.scheduler = (e.scheduler.cancel id).1)
    (hn : e'.nextId = e.nextId) (hm : e'.model = e.model) (hf : e'.forwards = e.forwards) :
    e.Quiet e' := by
  refine .call (.cancel id) (by simp) (fun v hv => ⟨?_, hv.nextId.trans hn.symm⟩) hm hf
  show (v.sched.cancel id).1 = _
  rw [hv.sched, hs]

theorem quiet_cancel (e : Engine M S) (id : SequenceId) : e.Quiet (e.cancel id) := by
  unfold cancel
  split
  · next s hs =>
    have hcancel : e.Quiet { e with scheduler := s } :=
      quiet_cancelled id (by rw [hs]) rfl rfl rfl
    exact hcancel.trans (quiet_sendLast _ _ _)
  · next s hs => exact quiet_cancelled id (by rw [hs]) rfl rfl rfl

theorem quiet_cancelSilently (e : Engine M S) (id : SequenceId) :
    e.Quiet (e.cancelSilently id) := quiet_cancelled id rfl rfl rfl rfl

theorem quiet_finishRequest (e : Engine M S) (id : SequenceId) (reason : FinishReason) :
    e.Quiet (e.finishRequest id reason) := quiet_sendLast e id _

theorem quiet_reap (e : Engine M S) : e.Quiet e.reap := by
  have hreap : e.Quiet { e with scheduler := e.scheduler.reapFinished.1 } := by
    refine .call .reapFinished (by simp) (fun v hv => ⟨?_, hv.nextId⟩) rfl rfl
    show v.sched.reapFinished.1 = _
    rw [hv.sched]
  exact hreap.trans (Quiet.foldl (fun e (r : Sequence) => quiet_sendLast e r.id _) _ _)

theorem quiet_expire (e : Engine M S) (now : Instant) : e.Quiet (e.expire now) := by
  have hexpire : e.Quiet { e with scheduler := (e.scheduler.expireTimeouts now).1 } := by
    refine .call (.expireTimeouts now) (by simp) (fun v hv => ⟨?_, hv.nextId⟩) rfl rfl
    show (v.sched.expireTimeouts now).1 = _
    rw [hv.sched]
  exact hexpire.trans (Quiet.foldl (fun e id => quiet_finishRequest e id .timeout) _ _)

/-- What timeouts do to the scheduler; the terminal events do nothing more. -/
theorem expire_scheduler (e : Engine M S) (now : Instant) :
    (e.expire now).scheduler = (e.scheduler.expireTimeouts now).1 := by
  have hfold : ∀ (ids : List SequenceId) (e : Engine M S),
      (ids.foldl (fun e id => e.finishRequest id .timeout) e).scheduler = e.scheduler := by
    intro ids
    induction ids with
    | nil => exact fun e => rfl
    | cons id ids ih =>
      intro e
      refine (ih (e.finishRequest id .timeout)).trans ?_
      show (e.sendLast id _).scheduler = _
      unfold sendLast
      split <;> rfl
  exact hfold _ _

theorem quiet_publish (e : Engine M S) (scheduled : List ScheduledSequence) :
    e.Quiet (e.publish scheduled) := by
  induction scheduled generalizing e with
  | nil => exact .refl e
  | cons x scheduled ih =>
    have hone : e.Quiet (e.publish [x]) := by
      by_cases hx : x.isPrefill = true
      · refine .call (.commitPrefill x.id) (by simp) (fun v hv => ⟨?_, hv.nextId⟩) rfl rfl
        show v.sched.commitPrefill x.id
          = (if x.isPrefill then e.scheduler.commitPrefill x.id else e.scheduler)
        rw [if_pos hx, hv.sched]
      · refine .of_same ?_ rfl rfl rfl
        show (if x.isPrefill then e.scheduler.commitPrefill x.id else e.scheduler) = _
        rw [if_neg hx]
    exact hone.trans (ih (e.publish [x]))

theorem quiet_sampleAndEmit [Sampler S F] (e : Engine M S) (id : SequenceId)
    (logits : List F) : e.Quiet (e.sampleAndEmit id logits).1 := by
  unfold sampleAndEmit
  split
  · exact .refl e
  split
  · exact .refl e
  next req _ =>
  split
  · exact .of_same rfl rfl rfl rfl
  next sampler token _ =>
  -- the token goes to the scheduler, whatever the channel does
  have htoken : ∀ ev : StreamEvent, e.Quiet
      (send { e with scheduler := (e.scheduler.onToken id token e.eosIds).1 } id
        { req with sampler := sampler } ev).1 := by
    intro ev
    refine .call (.onToken id token e.eosIds) (by simp)
      (fun v hv => ⟨?_, hv.nextId⟩) rfl rfl
    show (v.sched.onToken id token e.eosIds).1 = _
    rw [hv.sched]
    rfl
  simp only []
  split
  · next e' hsend =>
    have he' := congrArg Prod.fst hsend
    exact (he' ▸ htoken _).trans (quiet_cancelSilently _ _)
  · next e' hsend =>
    have he' := congrArg Prod.fst hsend
    split
    · exact (he' ▸ htoken _).trans (quiet_finishRequest _ _ _)
    · exact he' ▸ htoken _

theorem quiet_emitRows [Sampler S F] (out : ForwardOutput F)
    (rows : List (SequenceId × ℕ)) :
    ∀ e : Engine M S, e.Quiet (e.emitRows out rows).1 := by
  induction rows with
  | nil => exact fun e => .refl e
  | cons r rows ih =>
    obtain ⟨id, row⟩ := r
    intro e
    unfold emitRows
    split
    · exact ih e
    split
    · exact .refl e
    next logits _ =>
    have hone := quiet_sampleAndEmit e id logits
    split
    · next e' he' =>
      rw [he'] at hone
      exact hone.trans (ih e')
    · next e' err he' =>
      rw [he'] at hone
      exact hone

end Quiet

/-! ## The step -/

/-- The engine between the `schedule` call and the forward pass. -/
def scheduled (e : Engine M S) (now : Instant) : Engine M S :=
  { e.expire now with scheduler := (e.expire now).scheduler.schedule.1 }

/-- What that call returned. -/
def output (e : Engine M S) (now : Instant) : SchedulerOutput :=
  (e.expire now).scheduler.schedule.2

variable [LanguageModel M F] [Sampler S F]

/-- **The stages of a step**, and where it can stop: after the `schedule`
call, because there is nothing to do or no batch; after the forward pass; after
the tokens; or at the end. -/
theorem step_stages (e : Engine M S) (now : Instant) :
    ((e.output now).isEmpty = true ∧ e.step now = ((e.scheduled now).reap, .ok 0))
    ∨ (∃ err, buildBatch (e.scheduled now).scheduler (e.output now) = .error err
      ∧ e.step now = (e.scheduled now, .error err))
    ∨ ∃ b, buildBatch (e.scheduled now).scheduler (e.output now) = .ok b
      ∧ ((∃ err, ((e.scheduled now).runForward b).2 = .error err
          ∧ e.step now = (((e.scheduled now).runForward b).1, .error err))
        ∨ ∃ out, ((e.scheduled now).runForward b).2 = .ok out
          ∧ ((∃ err, e.step now = ((((e.scheduled now).runForward b).1.emitRows out
              out.sequenceIds.zipIdx).1, .error err))
            ∨ e.step now = (((((e.scheduled now).runForward b).1.emitRows out
              out.sequenceIds.zipIdx).1.publish (e.output now).scheduled).reap,
                .ok out.sequenceIds.length))) := by
  have hstep : e.step now = if (e.output now).isEmpty then ((e.scheduled now).reap, .ok 0)
      else (e.scheduled now).serve (e.output now) := rfl
  rw [hstep]
  split
  · next hempty => exact Or.inl ⟨hempty, rfl⟩
  refine Or.inr ?_
  unfold serve
  split
  · next err hbuild => exact Or.inl ⟨err, hbuild, rfl⟩
  next b hbuild =>
  refine Or.inr ⟨b, hbuild, ?_⟩
  split
  · next e' err hfwd => exact Or.inl ⟨err, by rw [hfwd], by rw [hfwd]⟩
  next e' out hfwd =>
  refine Or.inr ⟨out, by rw [hfwd], ?_⟩
  rw [hfwd]
  split
  · next e'' err hemit => exact Or.inl ⟨err, by rw [hemit]⟩
  · next e'' hemit => exact Or.inr (by rw [hemit])

/-- **The ways a step can go**: once the forward pass is through, it is
quiet. -/
theorem step_cases (e : Engine M S) (now : Instant) :
    ((e.output now).isEmpty = true ∧ (e.step now).1 = (e.scheduled now).reap
      ∧ (e.step now).2 = .ok 0)
    ∨ (∃ err, buildBatch (e.scheduled now).scheduler (e.output now) = .error err
      ∧ (e.step now).1 = e.scheduled now ∧ (e.step now).2 = .error err)
    ∨ ∃ b, buildBatch (e.scheduled now).scheduler (e.output now) = .ok b
      ∧ ((∃ err, ((e.scheduled now).runForward b).2 = .error err
          ∧ (e.step now).1 = ((e.scheduled now).runForward b).1 ∧ (e.step now).2 = .error err)
        ∨ ((∃ out, ((e.scheduled now).runForward b).2 = .ok out)
          ∧ ((e.scheduled now).runForward b).1.Quiet (e.step now).1)) := by
  rcases e.step_stages now with ⟨hempty, hstep⟩ | ⟨err, hbuild, hstep⟩
    | ⟨b, hbuild, ⟨err, hfwd, hstep⟩ | ⟨out, hfwd, hlast⟩⟩
  · exact Or.inl ⟨hempty, by rw [hstep], by rw [hstep]⟩
  · exact Or.inr (Or.inl ⟨err, hbuild, by rw [hstep], by rw [hstep]⟩)
  · exact Or.inr (Or.inr ⟨b, hbuild, Or.inl ⟨err, hfwd, by rw [hstep], by rw [hstep]⟩⟩)
  · have hrows := quiet_emitRows out out.sequenceIds.zipIdx ((e.scheduled now).runForward b).1
    refine Or.inr (Or.inr ⟨b, hbuild, Or.inr ⟨⟨out, hfwd⟩, ?_⟩⟩)
    rcases hlast with ⟨err, hstep⟩ | hstep
    · rw [hstep]
      exact hrows
    · rw [hstep]
      exact hrows.trans ((quiet_publish _ _).trans (quiet_reap _))

/-- Everything but a step is quiet. -/
theorem quiet_of_ne_step (e : Engine M S) {op : EngineOp S} (hop : ∀ now, op ≠ .step now) :
    e.Quiet (op.run e) := by
  cases op with
  | submit prompt params events sampler now => exact quiet_submit e _ _ _ _ _
  | cancel id => exact quiet_cancel e id
  | step now => exact absurd rfl (hop now)
  | receive id =>
    show e.Quiet (e.receive id)
    unfold receive
    split
    · exact .refl e
    · exact .of_same rfl rfl rfl rfl
  | hangUp id =>
    show e.Quiet (e.hangUp id)
    unfold hangUp
    split
    · exact .refl e
    · exact .of_same rfl rfl rfl rfl

/-! ## Whole runs -/

/-- **The states a run can reach**: those of a fresh engine after any operations
in any order. What the operations return is no part of it: a run goes on after a
step that failed, as the engine loop does. -/
inductive Reachable (config : SchedulerConfig) (n bs : ℕ) (flag : Bool) (model : M)
    (firstId : ℕ) : Engine M S → Prop
  | start : Reachable config n bs flag model firstId
      (.new (.new config (KvCacheManager.new n bs flag)) model firstId)
  | step {e : Engine M S} (op : EngineOp S) (h : Reachable config n bs flag model firstId e) :
      Reachable config n bs flag model firstId (op.run e)

/-- A list of operations leads from a reachable state to a reachable one. -/
theorem Reachable.runAll {config : SchedulerConfig} {n bs : ℕ} {flag : Bool} {model : M}
    {firstId : ℕ} (ops : List (EngineOp S)) :
    ∀ {e : Engine M S}, e.Reachable config n bs flag model firstId →
      Reachable config n bs flag model firstId (EngineOp.runAll e ops) := by
  induction ops with
  | nil => exact fun h => h
  | cons op ops ih => exact fun h => ih (h.step op)

variable {config : SchedulerConfig} {n bs firstId : ℕ} {flag : Bool} {model : M}
  {e e' : Engine M S}

/-- The scheduler of an engine is one that its own runs reach. -/
def InService (config : SchedulerConfig) (n bs : ℕ) (flag : Bool) (firstId : ℕ)
    (e : Engine M S) : Prop :=
  ∃ v, v.Reachable config (KvCacheManager.new n bs flag) firstId ∧ e.Serves v

omit [LanguageModel M F] [Sampler S F] in
theorem InService.quiet (h : e.InService config n bs flag firstId) (hq : e.Quiet e') :
    e'.InService config n bs flag firstId := by
  obtain ⟨v, hv, hserves⟩ := h
  obtain ⟨ops, -, hops⟩ := hq
  exact ⟨_, hv.runAll ops, hops.serves v hserves⟩

omit [LanguageModel M F] [Sampler S F] in
/-- So it is in the middle of a step. -/
theorem InService.scheduled (h : e.InService config n bs flag firstId) (now : Instant) :
    (e.scheduled now).InService config n bs flag firstId := by
  obtain ⟨v, hv, hserves⟩ := h.quiet (e.quiet_expire now)
  refine ⟨_, hv.step .schedule, ?_, hserves.nextId⟩
  show v.sched.schedule.1 = (e.expire now).scheduler.schedule.1
  rw [hserves.sched]

omit [Sampler S F] in
/-- A forward pass changes nothing that the scheduler sees. -/
theorem InService.runForward (h : e.InService config n bs flag firstId) (b : ForwardBatch) :
    (e.runForward b).1.InService config n bs flag firstId := by
  obtain ⟨v, hv, hserves⟩ := h
  exact ⟨v, hv, hserves.sched, hserves.nextId⟩

/-- **Step lemma.** -/
theorem InService.run (h : e.InService config n bs flag firstId) (op : EngineOp S) :
    (op.run e).InService config n bs flag firstId := by
  by_cases hop : ∀ now, op ≠ .step now
  · exact h.quiet (e.quiet_of_ne_step hop)
  obtain ⟨now, hnow⟩ := not_forall.mp hop
  obtain rfl := not_not.mp hnow
  show (e.step now).1.InService config n bs flag firstId
  have hmid := h.scheduled now
  rcases e.step_cases now with ⟨-, hstep, -⟩ | ⟨err, -, hstep, -⟩ | ⟨b, -, hfwd⟩
  · rw [hstep]
    exact hmid.quiet (quiet_reap _)
  · rw [hstep]
    exact hmid
  · have hforward := hmid.runForward b
    rcases hfwd with ⟨err, -, hstep, -⟩ | ⟨-, hquiet⟩
    · rw [hstep]
      exact hforward
    · exact hforward.quiet hquiet

/-- **The scheduler of a run is one that its own runs reach.** -/
theorem Reachable.inService (h : e.Reachable config n bs flag model firstId) :
    e.InService config n bs flag firstId := by
  induction h with
  | start => exact ⟨_, .start, rfl, rfl⟩
  | step op _ ih => exact ih.run op

/-- **The states of a run each of whose operations meets a condition** in the
state that it finds. -/
inductive ReachableIf (P : Engine M S → EngineOp S → Prop) (config : SchedulerConfig)
    (n bs : ℕ) (flag : Bool) (model : M) (firstId : ℕ) : Engine M S → Prop
  | start : ReachableIf P config n bs flag model firstId
      (.new (.new config (KvCacheManager.new n bs flag)) model firstId)
  | step {e : Engine M S} (op : EngineOp S)
      (h : ReachableIf P config n bs flag model firstId e) (hop : P e op) :
      ReachableIf P config n bs flag model firstId (op.run e)

/-- Such a state is reachable. -/
theorem ReachableIf.reachable {P : Engine M S → EngineOp S → Prop}
    (h : e.ReachableIf P config n bs flag model firstId) :
    e.Reachable config n bs flag model firstId := by
  induction h with
  | start => exact .start
  | step op _ _ ih => exact ih.step op

/-- A condition that another one implies in every state of a run. -/
theorem ReachableIf.weaken {P Q : Engine M S → EngineOp S → Prop}
    (h : e.ReachableIf P config n bs flag model firstId)
    (hPQ : ∀ (e : Engine M S) op, e.Reachable config n bs flag model firstId → P e op → Q e op) :
    e.ReachableIf Q config n bs flag model firstId := by
  induction h with
  | start => exact .start
  | step op he hop ih => exact ih.step op (hPQ _ op he.reachable hop)

omit [LanguageModel M F] [Sampler S F] in
/-- **What every call but `schedule` keeps, a quiet stretch keeps.** -/
theorem InService.kept {P : Scheduler KvCacheManager → Prop}
    (hP : ∀ v : Service KvCacheManager,
      v.Reachable config (KvCacheManager.new n bs flag) firstId → ∀ op, op ≠ .schedule →
        P v.sched → P (SchedulerOp.run v op).sched)
    (h : e.InService config n bs flag firstId) (hq : e.Quiet e') (he : P e.scheduler) :
    P e'.scheduler := by
  obtain ⟨v, hv, hserves⟩ := h
  obtain ⟨ops, hno, hops⟩ := hq
  have hrun : ∀ (ops : List SchedulerOp) (v : Service KvCacheManager),
      v.Reachable config (KvCacheManager.new n bs flag) firstId → SchedulerOp.schedule ∉ ops →
      P v.sched → P (SchedulerOp.runAll v ops).sched := by
    intro ops
    induction ops with
    | nil => exact fun v _ _ hv => hv
    | cons op ops ih =>
      intro v hv hno hpv
      obtain ⟨hop, hops⟩ := not_or.mp (List.mem_cons.not.mp hno)
      exact ih _ (hv.step op) hops (hP v hv op (Ne.symm hop) hpv)
  rw [← (hops.serves v hserves).sched]
  exact hrun ops v hv hno (hserves.sched.symm ▸ he)

omit [LanguageModel M F] [Sampler S F] in
theorem InService.sound (hbs : 1 ≤ bs) (hn : n ≤ 2 ^ 32)
    (h : e.InService config n bs flag firstId) : e.scheduler.Sound := by
  obtain ⟨v, hv, hserves⟩ := h
  exact hserves.sched ▸ (hv.sound hbs hn).sched

omit [LanguageModel M F] [Sampler S F] in
theorem InService.cache (hbs : 1 ≤ bs) (hn : n ≤ 2 ^ 32)
    (h : e.InService config n bs flag firstId) :
    KvCacheManager.Reachable True n bs flag e.scheduler.cache := by
  obtain ⟨v, hv, hserves⟩ := h
  exact hserves.sched ▸ hv.cache hbs hn

end Engine
