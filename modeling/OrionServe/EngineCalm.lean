import OrionServe.EngineReads
import OrionServe.SchedulerStages

/-!
# Runs with nothing in the way

Some results are about runs whose calls do not do certain things: evict a
sequence that is finished (`Service.SparesFinished`), name a sequence twice in
a batch (`Engine.NamesOnce`), lose a batch with a part of a prompt
(`Engine.LosesNothing`), bring a sequence back in the call that evicted it
(`Engine.InOrder`). Whether a call does them is known when it is over.

A call with nothing in its way does none of them, and whether it is one can be
told before: it depends on who runs and who waits, on the budget, and on the
blocks that are free (`Scheduler.Calm`). The results are stated here once more,
for runs all of whose calls find nothing in their way.

Such a call evicts nobody and makes one entry for a sequence at most. So a part
of a prompt ends where its sequence then stands, and a decode entry is for a
sequence that was decoding before.
-/

/-! ## Where the entries of a call end -/

/-- **Each part of a prompt ends where its sequence then stands**, as long as
nobody is evicted and nobody has two entries. -/
def Pass.EndsAtCounter (p : Pass KvCacheManager) : Prop :=
  p.out.preempted = [] → (p.out.scheduled.map ScheduledSequence.id).Nodup →
    ∀ d ∈ p.out.scheduled, d.isPrefill = true → ∀ r ∈ p.sched.running, r.id = d.id →
      r.computedPrefixLen = d.startPosition + d.numTokens

/-- **Each decode entry is for a sequence that was decoding** before the call, or
has an entry for a part of its prompt as well. -/
structure Pass.DecodesOld (s : Scheduler KvCacheManager) (p : Pass KvCacheManager) : Prop where
  running : ∀ r ∈ p.sched.running, r.state = .decoding →
    (∃ q ∈ s.running, q.id = r.id ∧ q.state = .decoding)
      ∨ ∃ d ∈ p.out.scheduled, d.id = r.id ∧ d.isPrefill = true
  entries : ∀ d ∈ p.out.scheduled, d.isPrefill = false →
    (∃ q ∈ s.running, q.id = d.id ∧ q.state = .decoding)
      ∨ ∃ d' ∈ p.out.scheduled, d'.id = d.id ∧ d'.isPrefill = true

theorem Pass.prefilled_computed {seq : Sequence} {chunk : ℕ}
    (h : seq.computedPrefixLen + chunk ≤ seq.prompt.length) :
    (Pass.prefilled seq chunk).computedPrefixLen = seq.computedPrefixLen + chunk := by
  simp only [Pass.prefilled]
  split <;> split <;> simp [Sequence.advancePrefill, min_eq_left h]

namespace PassMove

variable {p p' : Pass KvCacheManager} {s : Scheduler KvCacheManager}

/-- An admission. -/
theorem endsAtCounter_bringIn {c : KvCacheManager} {seq : Sequence} {rest : List Sequence}
    {chunk : ℕ} (hs : p.sched.Sound) (h : p.EndsAtCounter) (head : p.sched.waiting = seq :: rest)
    (hle : seq.computedPrefixLen + chunk ≤ seq.prompt.length) :
    ((p.withCache c).bringIn seq rest chunk).EndsAtCounter := by
  intro hnone hnd d hd hpre r hr hid
  have hmem : seq ∈ p.sched.waiting := head ▸ List.mem_cons_self
  have hnd : ((p.out.scheduled ++ [ScheduledSequence.mk seq.id chunk seq.computedPrefixLen
      true]).map ScheduledSequence.id).Nodup := hnd
  rcases List.mem_append.mp hd with hold | hnew <;> rcases List.mem_append.mp hr with hr | hr
  · exact h hnone (hnd.sublist ((List.sublist_append_left _ _).map _)) d hold hpre r hr hid
  · obtain rfl := List.mem_singleton.mp hr
    rw [Pass.prefilled_id] at hid
    exact absurd hid (List.key_ne_of_append hnd hold (List.mem_singleton_self _)).symm
  · obtain rfl := List.mem_singleton.mp hnew
    exact absurd hid (hs.apart hr hmem)
  · obtain rfl := List.mem_singleton.mp hnew
    obtain rfl := List.mem_singleton.mp hr
    exact Pass.prefilled_computed hle

/-- **Step lemma.** -/
theorem endsAtCounter (hm : PassMove p p') (hs : p.sched.Sound) (h : p.EndsAtCounter) :
    p'.EndsAtCounter := by
  cases hm with
  | refused answer result =>
    subst result
    exact h
  | @decoded id totalLen c room answer cand result =>
    subst result
    intro hnone hnd d hd hpre
    have hnd : ((p.out.scheduled ++ [Pass.decodeEntry id totalLen]).map
      ScheduledSequence.id).Nodup := hnd
    rcases List.mem_append.mp hd with hold | hnew
    · exact h hnone (hnd.sublist ((List.sublist_append_left _ _).map _)) d hold hpre
    · obtain rfl := List.mem_singleton.mp hnew
      exact absurd hpre (by simp [Pass.decodeEntry])
  | evicted result =>
    obtain ⟨older, victim, -, rfl⟩ := Pass.preemptOne_eq_some result
    intro hnone
    exact absurd hnone (List.append_ne_nil_of_right_ne_nil _ (List.cons_ne_nil _ _))
  | @resumed seq chunk already found cand pos room result =>
    have hmem := List.mem_of_findKey found
    obtain ⟨hstate, rfl, hle⟩ := cand hs.nodup
    have hsum : seq.computedPrefixLen + chunk ≤ seq.prompt.length := by
      have hrem : seq.remainingPrefill = seq.prompt.length - seq.computedPrefixLen := rfl
      omega
    subst result
    intro hnone hnd d hd hpre r hr hid
    have hnd : ((p.out.scheduled ++ [ScheduledSequence.mk seq.id chunk seq.computedPrefixLen
      true]).map ScheduledSequence.id).Nodup := hnd
    rcases List.mem_append.mp hd with hold | hnew <;>
      rcases List.mem_updateKey hs.nodup_running hr with ⟨hr, hne⟩ | ⟨a, ha, haid, rfl⟩
    · exact h hnone (hnd.sublist ((List.sublist_append_left _ _).map _)) d hold hpre r hr hid
    · rw [Pass.resumed_id, haid] at hid
      exact absurd hid (List.key_ne_of_append hnd hold (List.mem_singleton_self _)).symm
    · obtain rfl := List.mem_singleton.mp hnew
      exact absurd hid hne
    · obtain rfl := List.mem_singleton.mp hnew
      obtain rfl : a = seq := List.eq_of_key_eq hs.nodup_running ha hmem haid
      exact (Pass.resumed_inStage hstate hsum).1
  | admitted head first slot pos left room answer result =>
    subst result
    refine endsAtCounter_bringIn hs h head ?_
    rw [first, Nat.zero_add]
    exact left
  | @readmitted seq rest chunk head started slot pos left room result =>
    subst result
    refine endsAtCounter_bringIn (c := p.sched.cache) hs h head ?_
    have hlen : seq.promptLen = seq.prompt.length := rfl
    omega
  | putBack head available answer result =>
    exact absurd answer (hs.allocate_ne_error (head ▸ List.mem_cons_self) available)

/-- **Step lemma.** -/
theorem decodesOld (hm : PassMove p p') (hs : p.sched.Sound) (h : p.DecodesOld s) :
    p'.DecodesOld s := by
  rcases hm.entry_cases hs with ⟨hout, hrun⟩ | ⟨d, hout, hrun, hd⟩
  · refine ⟨fun r hr hdec => ?_, ?_⟩
    · rw [hout]
      exact h.running r (hrun r hr) hdec
    · rw [hout]
      exact h.entries
  have hmore : ∀ {id : SequenceId},
      (∃ q ∈ s.running, q.id = id ∧ q.state = .decoding)
        ∨ (∃ d ∈ p.out.scheduled, d.id = id ∧ d.isPrefill = true) →
      (∃ q ∈ s.running, q.id = id ∧ q.state = .decoding)
        ∨ ∃ d ∈ p'.out.scheduled, d.id = id ∧ d.isPrefill = true := by
    intro id hid
    refine hid.imp_right (fun ⟨d', hd', hrest⟩ => ⟨d', ?_, hrest⟩)
    rw [hout]
    exact List.mem_append_left _ hd'
  have hnew : (∃ q ∈ s.running, q.id = d.id ∧ q.state = .decoding)
      ∨ ∃ d' ∈ p'.out.scheduled, d'.id = d.id ∧ d'.isPrefill = true := by
    rcases hd with hpre | ⟨q, hq, hqid, hdec⟩
    · refine Or.inr ⟨d, ?_, rfl, hpre⟩
      rw [hout]
      exact List.mem_append_right _ (List.mem_singleton_self _)
    · exact hmore (hqid ▸ h.running q hq hdec)
  refine ⟨fun r hr hdec => ?_, fun d' hd' hdec => ?_⟩
  · by_cases heq : r.id = d.id
    · rw [heq]
      exact hnew
    · exact hmore (h.running r (hrun r hr heq) hdec)
  · rw [hout] at hd'
    rcases List.mem_append.mp hd' with hold | hlast
    · exact hmore (h.entries d' hold hdec)
    · obtain rfl := List.mem_singleton.mp hlast
      exact hnew

end PassMove

/-- **Run lemma.** -/
theorem PassMoves.endsAtCounter {p p' : Pass KvCacheManager} (hm : PassMoves p p')
    (hs : p.sched.Sound) (h : p.EndsAtCounter) : p'.EndsAtCounter := by
  induction hm with
  | refl => exact h
  | tail hmoves hmove ih => exact hmove.endsAtCounter (PassMoves.sound hmoves hs) ih

/-- **Run lemma.** -/
theorem PassMoves.decodesOld {p p' : Pass KvCacheManager} {s : Scheduler KvCacheManager}
    (hm : PassMoves p p') (hs : p.sched.Sound) (h : p.DecodesOld s) : p'.DecodesOld s := by
  induction hm with
  | refl => exact h
  | tail hmoves hmove ih => exact hmove.decodesOld (PassMoves.sound hmoves hs) ih

/-- **Run lemma.** A table that a call opens is for a prompt of the roster. -/
theorem PassMoves.opened {p p' : Pass KvCacheManager} (hm : PassMoves p p') (hs : p.sched.Sound)
    {id : SequenceId} {prompt : List TokenId} (h : .opened id prompt ∈ p'.sched.cache.trace) :
    .opened id prompt ∈ p.sched.cache.trace ∨ (id, prompt) ∈ p.sched.roster := by
  induction hm with
  | refl => exact Or.inl h
  | @tail p₁ p₂ hmoves hmove ih =>
    obtain ⟨new, htr, -, -, hopen⟩ := hmove.cacheEvents (PassMoves.sound hmoves hs)
    rw [htr] at h
    rcases List.mem_append.mp h with hnew | hold
    · obtain ⟨w, hw, rfl, rfl⟩ := hopen _ hnew id prompt rfl
      refine Or.inr ?_
      rw [← Scheduler.map_contents, ← PassMoves.contents hmoves, Scheduler.map_contents]
      exact List.mem_map.mpr ⟨w, List.mem_append_right _ hw, rfl⟩
    · exact ih hold

namespace Scheduler

variable {s : Scheduler KvCacheManager}

/-- **With nothing in the way, each part of a prompt ends where its sequence then
stands.** -/
theorem Sound.computed_of_calm (hs : s.Sound) (hc : s.Calm) {d : ScheduledSequence}
    (hd : d ∈ s.schedule.2.scheduled) (hpre : d.isPrefill = true) {r : Sequence}
    (hr : r ∈ s.schedule.1.running) (hid : r.id = d.id) :
    r.computedPrefixLen = d.startPosition + d.numTokens := by
  have hends := PassMoves.endsAtCounter s.passes_moves hs
    (fun _ _ d hd => absurd hd List.not_mem_nil)
  exact hends (hs.calm_preempted hc) (hs.wellFormed_of_calm hc).once d hd hpre r hr hid

/-- **With nothing in the way, who decodes was decoding before.** -/
theorem Sound.decoding_of_calm (hs : s.Sound) (hc : s.Calm) {d : ScheduledSequence}
    (hd : d ∈ s.schedule.2.scheduled) (hdec : d.isPrefill = false) :
    ∃ q ∈ s.running, q.id = d.id ∧ q.state = .decoding := by
  have hold : s.passes.DecodesOld s := PassMoves.decodesOld s.passes_moves hs
    ⟨fun r hr hst => Or.inl ⟨r, hr, rfl, hst⟩, fun d hd => absurd hd List.not_mem_nil⟩
  refine (hold.entries d hd hdec).resolve_right (fun ⟨d', hd', hid, hpre⟩ => ?_)
  obtain rfl := List.eq_of_key_eq (hs.wellFormed_of_calm hc).once hd' hd hid
  exact absurd (hpre.symm.trans hdec) (by simp)

end Scheduler

/-! ## Runs of the scheduler -/

namespace Service

variable {config : SchedulerConfig} {n bs firstId : ℕ} {flag : Bool}
  {v : Service KvCacheManager}

/-- A `schedule` call finds nothing in its way, or nobody who has finished. -/
def FindsCalm (v : Service KvCacheManager) (op : SchedulerOp) : Prop :=
  op = .schedule → v.sched.Calm ∨ ∀ r ∈ v.sched.running, r.state ≠ .finished

/-- It evicts no finished sequence. -/
theorem FindsCalm.sparesFinished (hbs : 1 ≤ bs) (hn : n ≤ 2 ^ 32)
    (hv : v.Reachable config (KvCacheManager.new n bs flag) firstId) {op : SchedulerOp}
    (h : v.FindsCalm op) : v.SparesFinished op := by
  intro hop r hr hfinished
  rcases h hop with hcalm | hnone
  · rw [(hv.sound hbs hn).sched.calm_preempted hcalm]
    exact List.not_mem_nil
  · exact absurd hfinished (hnone r hr)

/-- **The queues agree with the states** in every run whose `schedule` calls
find nothing in their way, or nobody who has finished. -/
theorem agrees_of_findsCalm (hbs : 1 ≤ bs) (hn : n ≤ 2 ^ 32)
    (h : v.ReachableIf FindsCalm config (KvCacheManager.new n bs flag) firstId) :
    v.sched.Agrees := by
  have hspares : v.ReachableIf SparesFinished config (KvCacheManager.new n bs flag) firstId :=
    h.weaken (fun _ _ hv hop => hop.sparesFinished hbs hn hv)
  exact (hspares.tidy hbs hn).agrees (h.reachable.sound hbs hn).sched

end Service

/-! ## Runs of the engine -/

namespace Engine

section Calm

variable {M S F : Type*} {e : Engine M S} {config : SchedulerConfig} {n bs firstId : ℕ}
  {flag : Bool} {id : SequenceId} {now : Instant}

/-- **A step that finds nothing in its way.** -/
def FindsCalm (e : Engine M S) : EngineOp S → Prop
  | .step now => (e.expire now).scheduler.Calm
  | _ => True

/-- It builds a batch, which names a sequence once at most. -/
theorem FindsCalm.buildBatch (hbs : 1 ≤ bs) (hn : n ≤ 2 ^ 32)
    (hin : e.InService config n bs flag firstId) (h : e.FindsCalm (.step now)) :
    ∃ b, buildBatch (e.scheduled now).scheduler (e.output now) = .ok b
      ∧ b.sequenceIds.Nodup := by
  have hs := (hin.quiet (e.quiet_expire now)).sound hbs hn
  have hwf := hs.wellFormed_of_calm h
  obtain ⟨b, hb⟩ : ∃ b, Engine.buildBatch (e.scheduled now).scheduler (e.output now) = .ok b := by
    refine buildBatch_isOk_iff.mpr (fun d hd _ hnone => ?_)
    have hheld : ((e.scheduled now).scheduler.cache.blockTable d.id).isSome = true :=
      (hwf.held d hd).2
    obtain ⟨t, ht⟩ := Option.isSome_iff_exists.mp hheld
    unfold KvCacheManager.rawBlockTable at hnone
    rw [ht] at hnone
    exact absurd hnone (by simp)
  exact ⟨b, hb, hwf.once.sublist (ids_buildBatch hb)⟩

/-- No sequence is named twice. -/
theorem FindsCalm.namesOnce (hbs : 1 ≤ bs) (hn : n ≤ 2 ^ 32)
    (hin : e.InService config n bs flag firstId) {op : EngineOp S} (h : e.FindsCalm op) :
    e.NamesOnce id op := by
  cases op with
  | step now =>
    intro b hb
    obtain ⟨b', hb', hnd⟩ := FindsCalm.buildBatch hbs hn hin h
    obtain rfl := Except.ok.inj (hb.symm.trans hb')
    exact List.nodup_iff_count_le_one.mp hnd id
  | _ => trivial

variable [LanguageModel M F]

/-- **A step that finds nothing in its way, and a model that answers**: every
batch that `validate` lets through comes back with logits. The positions of the
prompts in service fit into a `u32`. -/
def FindsCalmAnswering (e : Engine M S) (op : EngineOp S) : Prop :=
  e.FindsCalm op
    ∧ (∀ now, op = .step now → ∀ x ∈ (e.expire now).scheduler.roster, x.2.length ≤ 2 ^ 32)
    ∧ ∀ b : ForwardBatch, b.validate = .ok () →
      ∃ out, (LanguageModel.forward e.model b).2 = .ok out

/-- It loses no part of a prompt. -/
theorem FindsCalmAnswering.losesNothing (hbs : 1 ≤ bs) (hn : n ≤ 2 ^ 32)
    (hin : e.InService config n bs flag firstId) {op : EngineOp S}
    (h : e.FindsCalmAnswering op) : e.LosesNothing op := by
  obtain ⟨hcalm, hshort, hanswers⟩ := h
  cases op with
  | step now =>
    refine ⟨hshort now rfl, fun _ => ?_⟩
    obtain ⟨b, hb, -⟩ := FindsCalm.buildBatch hbs hn hin hcalm
    have hvalid : b.validate = .ok () :=
      (ForwardBatch.validate_eq_ok_iff b).mpr (buildBatch_ok hb).1
    have hmodel : (e.scheduled now).model = e.model := by
      obtain ⟨ops, -, hops⟩ := e.quiet_expire now
      exact hops.model
    obtain ⟨out, hout⟩ := hanswers b hvalid
    rw [← hmodel] at hout
    exact ⟨b, hb, out, hout⟩
  | _ => trivial

variable [Sampler S F] {model : M}

/-- **Blocks are published only after they were computed**, in every run whose
steps find nothing in their way, over a model that answers. -/
theorem computed_of_findsCalm (hbs : 1 ≤ bs) (hn : n ≤ 2 ^ 32)
    (h : e.ReachableIf FindsCalmAnswering config n bs flag model firstId) {hash : BlockHash}
    {entry : CacheEntry} (he : e.scheduler.cache.prefixCache.entries.lookup hash = some entry) :
    ∃ seq prompt i,
      Since (fun x => x = .published seq prompt i entry.block)
        (fun x => x.fresh ≠ some entry.block) e.scheduler.cache.trace
      ∧ (prompt.drop (i * bs)).take bs = entry.tokens
      ∧ ∀ off < bs, ∃ token, entry.tokens[off]? = some token
        ∧ Written (fun x => x.fresh ≠ some entry.block) bs e.forwards e.scheduler.cache.trace
          seq token (i * bs + off) (entry.block, off) := by
  have hloses : e.ReachableIf LosesNothing config n bs flag model firstId :=
    h.weaken (fun _ _ he hop => hop.losesNothing hbs hn he.inService)
  exact (hloses.computed hbs hn).entry hbs hn h.reachable.inService he

/-- A list of operations whose steps find nothing in their way. -/
theorem Meets.namesOnce (hbs : 1 ≤ bs) (hn : n ≤ 2 ^ 32) {P : Engine M S → EngineOp S → Prop}
    (ops : List (EngineOp S)) : ∀ {e : Engine M S}, e.Reachable config n bs flag model firstId →
      Meets (fun e op => P e op ∧ e.FindsCalm op) e ops →
      Meets (fun e op => P e op ∧ e.NamesOnce id op) e ops := by
  induction ops with
  | nil => exact fun _ _ => trivial
  | cons op ops ih =>
    intro e he hmeets
    obtain ⟨⟨hP, hcalm⟩, hrest⟩ := hmeets
    exact ⟨⟨hP, hcalm.namesOnce hbs hn he.inService⟩, ih (he.step op) hrest⟩

end Calm

section TwoRuns

variable {M₁ M₂ F R : Type*} [LanguageModel M₁ F] [LanguageModel M₂ F] [LogitOps F] [RngLike R F]
  {prompt : List TokenId} {params : SamplingParams}

/-- **Seeded and greedy output does not depend on the other traffic**, in two
runs whose steps find nothing in their way. -/
theorem streamed_of_findsCalm {config₁ config₂ : SchedulerConfig}
    {n₁ n₂ bs₁ bs₂ firstId₁ firstId₂ : ℕ} {flag₁ flag₂ : Bool} {model₁ : M₁} {model₂ : M₂}
    {e₁ : Engine M₁ (DefaultSampler R)} {e₂ : Engine M₂ (DefaultSampler R)}
    {id₁ id₂ : SequenceId} {events₁ events₂ : Channel} {entropy₁ entropy₂ : R}
    {now₁ now₂ : Instant} (hbs₁ : 1 ≤ bs₁) (hn₁ : n₁ ≤ 2 ^ 32) (hbs₂ : 1 ≤ bs₂)
    (hn₂ : n₂ ≤ 2 ^ 32)
    (h₁ : e₁.Reachable config₁ n₁ bs₁ flag₁ model₁ firstId₁)
    (h₂ : e₂.Reachable config₂ n₂ bs₂ flag₂ model₂ firstId₂)
    (hdet : params.isDeterministic = true)
    (hok₁ : (e₁.submit prompt params events₁ (.forParams params entropy₁) now₁).2 = .ok id₁)
    (hok₂ : (e₂.submit prompt params events₂ (.forParams params entropy₂) now₂).2 = .ok id₂)
    (f : List TokenId → List TokenId → List F) (ops₁ ops₂ : List (EngineOp (DefaultSampler R)))
    (hrun₁ : Meets (fun e op => e.RowsFollow id₁ f op ∧ e.FindsCalm op)
      (e₁.submit prompt params events₁ (.forParams params entropy₁) now₁).1 ops₁)
    (hrun₂ : Meets (fun e op => e.RowsFollow id₂ f op ∧ e.FindsCalm op)
      (e₂.submit prompt params events₂ (.forParams params entropy₂) now₂).1 ops₂) :
    let e₁' := EngineOp.runAll
      (e₁.submit prompt params events₁ (.forParams params entropy₁) now₁).1 ops₁
    let e₂' := EngineOp.runAll
      (e₂.submit prompt params events₂ (.forParams params entropy₂) now₂).1 ops₂
    e₁'.streamed id₁ <+: e₂'.streamed id₂ ∨ e₂'.streamed id₂ <+: e₁'.streamed id₁ := by
  intro e₁' e₂'
  have hstart₁ : (e₁.submit prompt params events₁ (.forParams params entropy₁) now₁).1.Reachable
      config₁ n₁ bs₁ flag₁ model₁ firstId₁ := h₁.step (.submit prompt params events₁ _ now₁)
  have hstart₂ : (e₂.submit prompt params events₂ (.forParams params entropy₂) now₂).1.Reachable
      config₂ n₂ bs₂ flag₂ model₂ firstId₂ := h₂.step (.submit prompt params events₂ _ now₂)
  exact prefix_or_prefix_of_drawn hdet
    (exists_drawn_streamed h₁ hok₁ ops₁ (Meets.namesOnce hbs₁ hn₁ ops₁ hstart₁ hrun₁))
    (exists_drawn_streamed h₂ hok₂ ops₂ (Meets.namesOnce hbs₂ hn₂ ops₂ hstart₂ hrun₂))

end TwoRuns

end Engine

/-! ## Runs in order -/

namespace Engine

section InOrder

variable {F D S : Type*} [Scalars F D] [Sampler S F] {m : TransformerModel F}
  {config : SchedulerConfig} {n bs firstId : ℕ} {flag : Bool}
  {e : Engine (TransformerModel F) S} {id : SequenceId} {now : Instant}

/-- **A step that finds order**: nothing is in the way of its call, the positions
of those in service fit into 32 bits, and no digests collide, those of the
prompts in service included. A batch with a part of a prompt comes back with
logits. -/
def FindsOrder (e : Engine (TransformerModel F) S) : EngineOp S → Prop
  | .step now => (e.expire now).scheduler.Calm
    ∧ (∀ q ∈ (e.expire now).scheduler.queue, q.prompt.length + q.output.length < 2 ^ 32)
    ∧ KvCacheManager.NoCollisions (e.expire now).scheduler.cache.blockSize
      ((e.expire now).scheduler.roster.map (fun x => .opened x.1 x.2)
        ++ (e.expire now).scheduler.cache.trace)
    ∧ (e.HasPrefill now → e.Forwards now)
  | _ => True

omit [Sampler S F] in
/-- It is in order. -/
theorem FindsOrder.inOrder (hbs : 1 ≤ bs) (hn : n ≤ 2 ^ 32)
    (hin : e.InService config n bs flag firstId) {op : EngineOp S} (h : e.FindsOrder op) :
    e.InOrder op := by
  cases op with
  | step now =>
    obtain ⟨hcalm, hshort, hapart, hsent⟩ := h
    have hin₁ := hin.quiet (e.quiet_expire now)
    have hs := hin₁.sound hbs hn
    have hmoves := (e.expire now).scheduler.passes_moves
    refine ⟨⟨fun r hr => ?_, fun d hd hpre r hr hid => ?_, fun s p t q hp hq => ?_⟩, hsent⟩
    · obtain ⟨q, hq, hmoved⟩ := MovedAll.exists_of_mem (PassMoves.moved hmoves)
        (List.mem_append_left _ hr)
      rw [hmoved.prompt, hmoved.output]
      exact hshort q hq
    · exact (hs.computed_of_calm hcalm hd hpre hr hid).ge
    · have hbefore : ∀ {s p}, BlockEvent.opened s p
            ∈ (e.scheduled now).scheduler.cache.trace →
          .opened s p ∈ (e.expire now).scheduler.roster.map (fun x => .opened x.1 x.2)
            ++ (e.expire now).scheduler.cache.trace := by
        intro s p hp
        rcases PassMoves.opened hmoves hs hp with hold | hmem
        · exact List.mem_append_right _ hold
        · exact List.mem_append_left _ (List.mem_map.mpr ⟨(s, p), hmem, rfl⟩)
      rw [((hin.scheduled now).cache hbs hn).blockSize hbs hn]
      rw [(hin₁.cache hbs hn).blockSize hbs hn] at hapart
      exact hapart s p t q (hbefore hp) (hbefore hq)
  | _ => trivial

/-- **A step that finds order, and a sequence that does not decode yet.** -/
def FindsPrefilling (id : SequenceId) (e : Engine (TransformerModel F) S) (op : EngineOp S) :
    Prop :=
  e.FindsOrder op ∧ ∀ now, op = .step now →
    ∀ r ∈ (e.expire now).scheduler.running, r.id = id → r.state ≠ .decoding

omit [Sampler S F] in
/-- It prefills the sequence only. -/
theorem FindsPrefilling.prefills (hbs : 1 ≤ bs) (hn : n ≤ 2 ^ 32)
    (hin : e.InService config n bs flag firstId) {op : EngineOp S}
    (h : e.FindsPrefilling id op) : e.Prefills id op := by
  refine ⟨h.1.inOrder hbs hn hin, ?_⟩
  rintro now rfl d hd hid
  have hs := (hin.quiet (e.quiet_expire now)).sound hbs hn
  have hpre : d.isPrefill = true := by
    by_contra hdec
    obtain ⟨q, hq, hqid, hst⟩ :=
      hs.decoding_of_calm h.1.1 hd (Bool.eq_false_iff.mpr hdec)
    exact h.2 now rfl q hq (hqid.trans hid) hst
  exact ⟨hpre, fun r hr hrid =>
    (hs.computed_of_calm h.1.1 hd hpre hr (hrid.trans hid.symm)).le⟩

theorem ReachableIf.inOrder_of_findsOrder (hbs : 1 ≤ bs) (hn : n ≤ 2 ^ 32)
    (h : e.ReachableIf FindsOrder config n bs flag m firstId) :
    e.ReachableIf InOrder config n bs flag m firstId :=
  h.weaken (fun _ _ he hop => hop.inOrder hbs hn he.inService)

/-- **A row reads its sequence's own entries exactly when it is one of the
prompt**, in every run whose steps find order. -/
theorem readsOwn_of_findsOrder (hbs : 1 ≤ bs) (hn : n ≤ 2 ^ 32) (hfit : m.ResidualsFit)
    (hsize : m.blockSize = bs) (h : e.ReachableIf FindsOrder config n bs flag m firstId)
    (hop : e.FindsOrder (.step now)) {b : ForwardBatch}
    (hb : buildBatch (e.scheduled now).scheduler (e.output now) = .ok b) {out : ForwardOutput F}
    (hout : ((e.scheduled now).runForward b).2 = .ok out) {row : Row} (hrow : row ∈ b.rows) :
    ∃ seq ∈ (e.scheduled now).scheduler.running, seq.id = row.id
      ∧ (((e.scheduled now).runForward b).1.ReadsOwn bs row seq
        ↔ row.position < seq.prompt.length) :=
  readsOwn_iff hbs hn hfit hsize (h.inOrder_of_findsOrder hbs hn)
    (hop.inOrder hbs hn h.reachable.inService) hb hout hrow

/-- A list of operations that find the sequence prefilling. -/
theorem Meets.prefills (hbs : 1 ≤ bs) (hn : n ≤ 2 ^ 32) (ops : List (EngineOp S)) :
    ∀ {e : Engine (TransformerModel F) S}, e.Reachable config n bs flag m firstId →
      Meets (FindsPrefilling id) e ops → Meets (Prefills id) e ops := by
  induction ops with
  | nil => exact fun _ _ => trivial
  | cons op ops ih =>
    intro e he hmeets
    obtain ⟨hop, hrest⟩ := hmeets
    exact ⟨hop.prefills hbs hn he.inService, ih (he.step op) hrest⟩

/-- **What is streamed to a sequence that does not decode yet** does not depend
on who had the blocks before, nor on the other traffic: in two runs whose steps
find order it is two prefixes of one list. -/
theorem streamed_of_findsPrefilling (hbs : 1 ≤ bs) (hn : n ≤ 2 ^ 32) (hfit : m.ResidualsFit)
    (hsize : m.blockSize = bs) (hvocab : m.head.rows = m.metadata.vocabSize)
    {e₁ e₂ : Engine (TransformerModel F) S}
    (h₁ : e₁.ReachableIf FindsOrder config n bs flag m firstId)
    (h₂ : e₂.ReachableIf FindsOrder config n bs flag m firstId)
    {prompt : List TokenId} {params : SamplingParams} {s : S} {events₁ events₂ : Channel}
    {now₁ now₂ : Instant} {id₁ id₂ : SequenceId}
    (hok₁ : (e₁.submit prompt params events₁ s now₁).2 = .ok id₁)
    (hok₂ : (e₂.submit prompt params events₂ s now₂).2 = .ok id₂)
    (ops₁ ops₂ : List (EngineOp S))
    (hrun₁ : Meets (FindsPrefilling id₁) (e₁.submit prompt params events₁ s now₁).1 ops₁)
    (hrun₂ : Meets (FindsPrefilling id₂) (e₂.submit prompt params events₂ s now₂).1 ops₂) :
    let e₁' := EngineOp.runAll (e₁.submit prompt params events₁ s now₁).1 ops₁
    let e₂' := EngineOp.runAll (e₂.submit prompt params events₂ s now₂).1 ops₂
    e₁'.streamed id₁ <+: e₂'.streamed id₂ ∨ e₂'.streamed id₂ <+: e₁'.streamed id₁ := by
  intro e₁' e₂'
  have hprefills₁ := Meets.prefills hbs hn ops₁
    (h₁.reachable.step (.submit prompt params events₁ s now₁)) hrun₁
  have hprefills₂ := Meets.prefills hbs hn ops₂
    (h₂.reachable.step (.submit prompt params events₂ s now₂)) hrun₂
  exact prefix_or_prefix_of_prefills hbs hn hfit hsize hvocab (h₁.inOrder_of_findsOrder hbs hn)
    (h₂.inOrder_of_findsOrder hbs hn) hok₁ hok₂ ops₁ ops₂ hprefills₁ hprefills₂

end InOrder

end Engine
