import OrionServe.EngineContents
import OrionServe.PassFrame

/-!
# Prefill in a run of the engine

The engine with the transformer as its model. In a run that is in order, the
arena has what the scheduler counts as computed, before every operation
(`Engine.ReachableIf.backs`); so a row of logits for a part of a prompt is the
row of the transformer without a cache (`Engine.prefills_recomputed`).

To be in order, a batch with a part of a prompt must come back with logits – a
batch of decode steps need not. No digests may collide, or blocks of other
prompts are taken for one's own. And no sequence may be evicted after it got a
chunk and be brought back in the same call: the chunk stays in the batch, with
positions that its new table has nothing in front of.
-/

open Tensor Scalars

/-! ## The transformer in the engine -/

/-- The error of a failed pass. A panic ends the source's engine loop; here it
is one more error, and the run goes on. -/
def Fault.toEngineError : Fault → EngineError
  | .error e => e
  | .panicked => .internal ["the forward pass panicked"]

namespace TransformerModel

variable {F D : Type*} [Scalars F D] {m : TransformerModel F} {kv kv' : KvStore F}
  {jobs : List Job} {out : ForwardOutput F} {c : Contents}

instance : LanguageModel (TransformerModel F) F where
  eosTokenIds m := m.metadata.eosTokenIds
  forward m b := ((m.forward b).1, (m.forward b).2.mapError Fault.toEngineError)

omit [Scalars F D] in
theorem withKv_congr (hkv : kv.toKvShape = m.kv.toKvShape) (h : kv = kv') :
    m.withKv kv hkv = m.withKv kv' (h ▸ hkv) := by
  subst h
  rfl

/-- What the engine sees of a pass over another arena. -/
theorem exists_forward_withKv (hkv : kv.toKvShape = m.kv.toKvShape) (b : ForwardBatch) :
    ∃ hkv', LanguageModel.forward (m.withKv kv hkv) b = (m.withKv (m.forwardOn b kv).1 hkv',
      (m.forwardOn b kv).2.mapError Fault.toEngineError) := by
  have hsame : (m.withKv kv hkv).forwardOn b kv = m.forwardOn b kv := forwardOn_withKv hkv
  refine ⟨(m.shape_forwardOn b kv).trans hkv, Prod.ext ?_ ?_⟩
  · have hshape : ((m.withKv kv hkv).forwardOn b kv).1.toKvShape = m.kv.toKvShape :=
      (congrArg (fun r => r.1.toKvShape) hsame).trans ((m.shape_forwardOn b kv).trans hkv)
    exact withKv_congr hshape (congrArg Prod.fst hsame)
  · exact congrArg (fun r => r.2.mapError Fault.toEngineError) hsame

theorem mapError_eq_ok_iff {r : Except Fault (ForwardOutput F)} :
    r.mapError Fault.toEngineError = .ok out ↔ r = .ok out := by
  rcases r with e | out'
  · exact ⟨fun h => absurd h (by simp [Except.mapError]), fun h => absurd h (by simp)⟩
  · simp [Except.mapError]

/-- The rows of jobs that ran have slots. -/
theorem located_of_forwardOn (hfit : m.ResidualsFit) (hkv : kv.toKvShape = m.kv.toKvShape)
    (h : m.forwardOn (.ofSlots (jobs.map Job.slot)) kv = (kv', .ok out)) :
    ∀ j ∈ jobs, ∀ row ∈ j.slot.rows, (locate row.table row.position m.blockSize).isSome := by
  intro j hj row hrow
  have hplace : row.place ∈ (ForwardBatch.ofSlots (jobs.map Job.slot)).places := by
    rw [places_ofSlots]
    exact List.mem_flatMap.mpr ⟨j, hj, List.mem_map_of_mem hrow⟩
  have hne : (ForwardBatch.ofSlots (jobs.map Job.slot)).tokens ≠ [] := by
    obtain ⟨ha, -⟩ := ForwardBatch.foldl_push ForwardBatch.aligned_empty (jobs.map Job.slot)
    refine List.ne_nil_of_length_pos ?_
    rw [ForwardBatch.ofSlots, ← ForwardBatch.length_places ha]
    exact List.length_pos_of_mem hplace
  obtain ⟨⟨-, hlocated, -⟩, -⟩ := (forwardOn_eq_ok_iff hfit hne hkv).mp h
  exact hlocated _ hplace

/-- **A pass over rows of which nothing is known**, whatever becomes of it: the
arena goes on having its contents, except where a row wrote. -/
theorem faithful_unknown (hc : m.Faithful c kv)
    (hunknown : ∀ j ∈ jobs, ∀ row ∈ j.slot.rows, j.text.length ≤ row.position) :
    m.Faithful (m.contentsAfter c jobs) (m.forwardOn (.ofSlots (jobs.map Job.slot)) kv).1 := by
  obtain ⟨ha, -⟩ := ForwardBatch.foldl_push ForwardBatch.aligned_empty (jobs.map Job.slot)
  intro layer hlayer a tokens htokens
  by_cases hrow : ∃ j ∈ jobs, ∃ row ∈ j.slot.rows, m.slotOf row.place = a
  · have hnone : m.contentsAfter c jobs a = none :=
      contentsAfter_eq (fun j hj row hr _ => if_neg (not_lt.mpr (hunknown j hj row hr)))
        (Or.inr hrow)
    exact absurd (hnone.symm.trans htokens) (by simp)
  · have hsame : m.contentsAfter c jobs a = c a :=
      contentsAfter_eq (fun j hj row hr hslot => absurd ⟨j, hj, row, hr, hslot⟩ hrow) (Or.inl rfl)
    rw [hsame] at htokens
    have hkept : SameAt a kv (m.forwardOn (.ofSlots (jobs.map Job.slot)) kv).1 := by
      refine sameAt_forwardOn (fun slots hslots hmem => hrow ?_) kv
      obtain ⟨-, rfl⟩ := (slots_eq_ok_iff ha).mp hslots
      obtain ⟨p, hp, hpa⟩ := List.mem_map.mp hmem
      have hp : p ∈ (ForwardBatch.ofSlots (jobs.map Job.slot)).places := hp
      rw [places_ofSlots] at hp
      obtain ⟨j, hj, hp⟩ := List.mem_flatMap.mp hp
      obtain ⟨row, hr, rfl⟩ := List.mem_map.mp hp
      exact ⟨j, hj, row, hr, hpa⟩
    exact (hkept layer).trans (hc layer hlayer a tokens htokens)

end TransformerModel

namespace Engine

section Run

variable {F D S : Type*} [Scalars F D] {m : TransformerModel F} {config : SchedulerConfig}
  {n bs firstId : ℕ} {flag : Bool} {e e' : Engine (TransformerModel F) S}

/-- **The arena of an engine has what counts as computed.** -/
def Backs (m : TransformerModel F) (e : Engine (TransformerModel F) S) : Prop :=
  ∃ c kv hkv, e.model = m.withKv kv hkv ∧ m.Faithful c kv ∧ e.scheduler.Stored c

/-- **An operation in order**: a step whose call is within bounds, and whose
batch, if it has a part of a prompt, comes back with logits. Submitting and
cancelling are always in order: they leave the arena alone. -/
def InOrder (e : Engine (TransformerModel F) S) : EngineOp S → Prop
  | .step now => Orderly (e.scheduled now).scheduler (e.output now)
    ∧ (e.HasPrefill now → e.Forwards now)
  | _ => True

/-- A quiet stretch. -/
theorem Backs.quiet (hbs : 1 ≤ bs) (hn : n ≤ 2 ^ 32)
    (hin : e.InService config n bs flag firstId) (h : e.Backs m) (hq : e.Quiet e') :
    e'.Backs m := by
  obtain ⟨c, kv, hkv, hmodel, hc, hstored⟩ := h
  have hsame : e'.model = e.model := by
    obtain ⟨ops, -, hops⟩ := hq
    exact hops.model
  refine ⟨c, kv, hkv, hsame.trans hmodel, hc, ?_⟩
  refine hin.kept (P := Scheduler.Stored c) (fun v hv op hop hst => ?_) hq hstored
  have hs := (hv.sound hbs hn).sched
  exact (Service.quietly_run hs hop).stored hs hst

/-- Where a step runs its batch: the call has made an entry for what it counts
as computed. -/
theorem Backs.scheduled (hbs : 1 ≤ bs) (hn : n ≤ 2 ^ 32)
    (hin : e.InService config n bs flag firstId) (h : e.Backs m) (now : Instant) :
    ∃ c kv hkv, (e.scheduled now).model = m.withKv kv hkv ∧ m.Faithful c kv
      ∧ (e.expire now).scheduler.passes.Stored c := by
  obtain ⟨c, kv, hkv, hmodel, hc, hstored⟩ := h.quiet hbs hn hin (e.quiet_expire now)
  have hs := (hin.quiet (e.quiet_expire now)).sound hbs hn
  exact ⟨c, kv, hkv, hmodel, hc, PassMoves.stored (e.expire now).scheduler.passes_moves hs
    (fun r hr hhas q hq => Or.inl (hstored r hr hhas q hq))⟩

/-- **A batch that comes back with logits** has computed what the call counts
as computed, and its answer is that of the transformer without a cache. -/
theorem answers_of_forward (hbs : 1 ≤ bs) (hn : n ≤ 2 ^ 32) (hfit : m.ResidualsFit)
    (hsize : m.blockSize = bs) (hin : e.InService config n bs flag firstId) {now : Instant}
    (ho : Orderly (e.scheduled now).scheduler (e.output now)) {c : TransformerModel.Contents}
    {kv : KvStore F} (hkv : kv.toKvShape = m.kv.toKvShape) (hc : m.Faithful c kv)
    (hst : (e.expire now).scheduler.passes.Stored c) {kv' : KvStore F} {out : ForwardOutput F}
    (h : m.forwardOn (.ofSlots ((jobsOf (e.scheduled now).scheduler (e.output now)).map Job.slot))
      kv = (kv', .ok out)) :
    (∃ c', m.Faithful c' kv' ∧ (e.scheduled now).scheduler.Stored c')
      ∧ m.Answers (jobsOf (e.scheduled now).scheduler (e.output now)) out := by
  have hs := (hin.quiet (e.quiet_expire now)).sound hbs hn
  have hcache := (hin.scheduled now).cache hbs hn
  have hsize' : m.blockSize = (e.scheduled now).scheduler.cache.blockSize :=
    hsize.trans (hcache.blockSize hbs hn).symm
  have hstored := stored_after hs ho (hcache.coherent hbs hn) hsize'
    (TransformerModel.located_of_forwardOn hfit hkv h) hst
  obtain ⟨hfaithful, hanswers⟩ :=
    TransformerModel.forwardOn_ofSlots hfit hkv hc (coherent_jobs hs ho hsize' hstored) h
  exact ⟨⟨_, hfaithful, hstored⟩, hanswers⟩

/-- **A batch without a part of a prompt** leaves what counts as computed
alone, whatever becomes of it. -/
theorem stored_of_no_prefill (hbs : 1 ≤ bs) (hn : n ≤ 2 ^ 32) (hsize : m.blockSize = bs)
    (hin : e.InService config n bs flag firstId) {now : Instant}
    (ho : Orderly (e.scheduled now).scheduler (e.output now)) (hnone : ¬ e.HasPrefill now)
    {c : TransformerModel.Contents} {kv : KvStore F} (hc : m.Faithful c kv)
    (hst : (e.expire now).scheduler.passes.Stored c) :
    ∃ c', m.Faithful c' (m.forwardOn (.ofSlots
        ((jobsOf (e.scheduled now).scheduler (e.output now)).map Job.slot)) kv).1
      ∧ (e.scheduled now).scheduler.Stored c' := by
  have hs := (hin.quiet (e.quiet_expire now)).sound hbs hn
  have hcache := (hin.scheduled now).cache hbs hn
  have hsize' : m.blockSize = (e.scheduled now).scheduler.cache.blockSize :=
    hsize.trans (hcache.blockSize hbs hn).symm
  by_cases hlocated : ∀ j ∈ jobsOf (e.scheduled now).scheduler (e.output now),
      ∀ row ∈ j.slot.rows, (locate row.table row.position m.blockSize).isSome
  · refine ⟨_, TransformerModel.faithful_unknown hc (fun j hj row hrow => ?_),
      stored_after hs ho (hcache.coherent hbs hn) hsize' hlocated hst⟩
    obtain ⟨d, hd, r, hr, t, hid, -, -, rfl⟩ := exists_of_mem_jobs hj
    obtain ⟨-, ⟨hpre, -⟩ | hbehind⟩ := row_of_entry hs ho hd hr hid hrow
    · exact absurd ⟨d, hd, hpre⟩ hnone
    · exact (List.length_take_le' _ _).trans ((Nat.le_add_right _ _).trans hbehind)
  · -- a row without a slot ends the pass before it writes anything
    refine ⟨c, fun layer hlayer a tokens htokens => ?_,
      hst.of_no_prefill (fun d hd hpre => hnone ⟨d, hd, hpre⟩)⟩
    obtain ⟨ha, -⟩ := ForwardBatch.foldl_push ForwardBatch.aligned_empty
      ((jobsOf (e.scheduled now).scheduler (e.output now)).map Job.slot)
    have hkept := TransformerModel.sameAt_forwardOn (m := m) (a := a)
      (b := .ofSlots ((jobsOf (e.scheduled now).scheduler (e.output now)).map Job.slot))
      (fun slots hslots => (hlocated (fun j hj row hrow => ?_)).elim) kv
    · exact (hkept layer).trans (hc layer hlayer a tokens htokens)
    · refine ((TransformerModel.slots_eq_ok_iff ha).mp hslots).1 row.place ?_
      show _ ∈ (ForwardBatch.ofSlots _).places
      rw [TransformerModel.places_ofSlots]
      exact List.mem_flatMap.mpr ⟨j, hj, List.mem_map_of_mem hrow⟩

/-- **Step lemma.** -/
theorem Backs.step [Sampler S F] (hbs : 1 ≤ bs) (hn : n ≤ 2 ^ 32) (hfit : m.ResidualsFit)
    (hsize : m.blockSize = bs) (hin : e.InService config n bs flag firstId) (h : e.Backs m)
    {now : Instant} (hstep : e.InOrder (.step now)) : (e.step now).1.Backs m := by
  obtain ⟨ho, hsent⟩ := hstep
  obtain ⟨c, kv, hkv, hmodel, hc, hst⟩ := h.scheduled hbs hn hin now
  have hin₂ := hin.scheduled now
  have hidle : ¬ e.HasPrefill now → (e.scheduled now).Backs m := fun hnone =>
    ⟨c, kv, hkv, hmodel, hc, hst.of_no_prefill (fun d hd hpre => hnone ⟨d, hd, hpre⟩)⟩
  rcases e.step_cases now with ⟨hempty, hstep, -⟩ | ⟨err, hbuild, hstep, -⟩ | ⟨b, hbuild, hfwd⟩
  · rw [hstep]
    exact (hidle (fun hpre => hpre.isEmpty_ne hempty)).quiet hbs hn hin₂ (quiet_reap _)
  · rw [hstep]
    refine hidle (fun hpre => ?_)
    obtain ⟨b, hb, -⟩ := hsent hpre
    exact absurd (hbuild.symm.trans hb) (by simp)
  obtain rfl := buildBatch_eq_ofSlots hbuild
  obtain ⟨hkv', hpass⟩ := TransformerModel.exists_forward_withKv hkv
    (.ofSlots ((jobsOf (e.scheduled now).scheduler (e.output now)).map Job.slot))
  rw [← hmodel] at hpass
  have hmodel' := congrArg Prod.fst hpass
  rcases hfwd with ⟨err, hfail, hstep, -⟩ | ⟨⟨out, hout⟩, hquiet⟩
  · rw [hstep]
    have hnone : ¬ e.HasPrefill now := by
      intro hpre
      obtain ⟨b', hb', out, hout⟩ := hsent hpre
      obtain rfl := Except.ok.inj (hbuild.symm.trans hb')
      exact absurd (hfail.symm.trans hout) (by simp)
    obtain ⟨c', hc', hst'⟩ := stored_of_no_prefill hbs hn hsize hin ho hnone hc hst
    exact ⟨c', _, hkv', hmodel', hc', hst'⟩
  · have hok := TransformerModel.mapError_eq_ok_iff.mp ((congrArg Prod.snd hpass).symm.trans hout)
    obtain ⟨⟨c', hc', hst'⟩, -⟩ :=
      answers_of_forward hbs hn hfit hsize hin ho hkv hc hst (Prod.ext rfl hok)
    exact Backs.quiet hbs hn (hin₂.runForward _) ⟨c', _, hkv', hmodel', hc', hst'⟩ hquiet

/-- **Run lemma.** -/
theorem ReachableIf.backs [Sampler S F] (hbs : 1 ≤ bs) (hn : n ≤ 2 ^ 32) (hfit : m.ResidualsFit)
    (hsize : m.blockSize = bs) (h : e.ReachableIf InOrder config n bs flag m firstId) :
    e.Backs m := by
  induction h with
  | start => exact ⟨fun _ => none, m.kv, rfl, rfl, TransformerModel.faithful_none,
      fun r hr => absurd hr List.not_mem_nil⟩
  | @step e op h hop ih =>
    have hin := h.reachable.inService
    by_cases hstep : ∀ now, op ≠ .step now
    · exact ih.quiet hbs hn hin (e.quiet_of_ne_step hstep)
    · obtain ⟨now, hnow⟩ := not_forall.mp hstep
      obtain rfl := not_not.mp hnow
      exact ih.step hbs hn hfit hsize hin hop

end Run

/-! ## What a step answers -/

/-- The entries that are in the batch: those whose sequences still run. -/
def served (s : Scheduler KvCacheManager) (out : SchedulerOutput) : List ScheduledSequence :=
  out.scheduled.filter (fun d => (s.runningSequence d.id).isSome)

/-- Each of them has a job. -/
theorem served_jobs {s : Scheduler KvCacheManager} (hs : s.Sound) {b : ForwardBatch}
    (hb : buildBatch s.schedule.1 s.schedule.2 = .ok b) :
    List.Forall₂ (fun d j => entryJob s.schedule.1 d = some j)
      (served s.schedule.1 s.schedule.2) (jobsOf s.schedule.1 s.schedule.2) := by
  have hall : ∀ d ∈ s.schedule.2.scheduled, (s.schedule.1.runningSequence d.id).isSome →
      ∃ j, entryJob s.schedule.1 d = some j := by
    intro d hd hsome
    obtain ⟨r, hfind⟩ := Option.isSome_iff_exists.mp hsome
    have hr := List.mem_of_findKey hfind
    have hid : r.id = d.id := List.key_of_findKey hfind
    obtain ⟨table, htable⟩ := Option.ne_none_iff_exists'.mp
      (buildBatch_isOk_iff.mp ⟨b, hb⟩ d hd (by rw [hfind]; simp))
    obtain ⟨t, ht, -⟩ := Option.map_eq_some_iff.mp htable
    have hlive : r.state ≠ .finished := by
      intro hfin
      have hnone := hs.booked.spent d hd r hr hid hfin
      rw [hid] at hnone
      exact absurd (hnone.symm.trans ht) (by simp)
    refine ⟨_, entryJob_eq_some_iff.mpr ⟨r, t, hfind, ht, ?_, rfl⟩⟩
    rcases hs.booked.suits d hd (r.id, r.prompt, r.output)
      (List.mem_map.mpr ⟨r, List.mem_append_left _ hr, rfl⟩) hid with
      ⟨hpre, hpos, hle⟩ | ⟨hdec, -⟩
    · refine List.ne_nil_of_length_pos ?_
      rw [length_entryTokens_prefill hpre hle]
      exact hpos
    · obtain ⟨x, hx⟩ := entryTokens_decode hdec (hs.schedule.prompt_pos hr hlive)
      rw [hx]
      simp
  unfold served jobsOf
  clear hb
  generalize s.schedule.2.scheduled = ds at hall
  induction ds with
  | nil => exact .nil
  | cons d ds ih =>
    obtain ⟨hd, hds⟩ := List.forall_mem_cons.mp hall
    rcases hfind : s.schedule.1.runningSequence d.id with - | r
    · have hnone : entryJob s.schedule.1 d = none := by
        unfold entryJob
        rw [hfind]
        rfl
      rw [List.filterMap_cons_none hnone, List.filter_cons, hfind]
      exact ih hds
    · obtain ⟨j, hj⟩ := hd (by rw [hfind]; rfl)
      rw [List.filterMap_cons_some hj, List.filter_cons, hfind]
      exact .cons hj (ih hds)

section Answers

variable {F D : Type*} [Scalars F D] {m : TransformerModel F} {s : Scheduler KvCacheManager}
  {out : ForwardOutput F}

/-- The rows of an answer are those of the entries in the batch. -/
theorem ids_of_answers (hs : s.Sound) {b : ForwardBatch}
    (hb : buildBatch s.schedule.1 s.schedule.2 = .ok b)
    (h : m.Answers (jobsOf s.schedule.1 s.schedule.2) out) :
    out.sequenceIds = (served s.schedule.1 s.schedule.2).map ScheduledSequence.id := by
  have hids : ∀ {ds : List ScheduledSequence} {js : List Job},
      List.Forall₂ (fun d j => entryJob s.schedule.1 d = some j) ds js →
      js.map (fun j => j.slot.id) = ds.map ScheduledSequence.id := by
    intro ds js hall
    induction hall with
    | nil => rfl
    | cons hj _ ih =>
      obtain ⟨r, t, -, -, -, rfl⟩ := entryJob_eq_some_iff.mp hj
      rw [List.map_cons, List.map_cons, ih]
      rfl
  exact h.2.1.trans (hids (served_jobs hs hb))

/-- **The row of a part of a prompt** has the logits of the prompt up to
there. -/
theorem row_of_answers (hs : s.Sound) (ho : Orderly s.schedule.1 s.schedule.2)
    (hvocab : m.head.rows = m.metadata.vocabSize) {b : ForwardBatch}
    (hb : buildBatch s.schedule.1 s.schedule.2 = .ok b)
    (h : m.Answers (jobsOf s.schedule.1 s.schedule.2) out) {i : ℕ} {d : ScheduledSequence}
    (hd : (served s.schedule.1 s.schedule.2)[i]? = some d) (hpre : d.isPrefill = true) :
    ∃ r ∈ s.schedule.1.running, r.id = d.id ∧ ∃ l, out.row i = some l
      ∧ m.logitsOf (r.prompt.take (d.startPosition + d.numTokens)) = .ok l := by
  have hjobs := served_jobs hs hb
  obtain ⟨hi, hget⟩ := List.getElem?_eq_some_iff.mp hd
  have hjob := hjobs.get hi (hjobs.length_eq ▸ hi)
  obtain ⟨r, t, hfind, ht, hne, hj⟩ := entryJob_eq_some_iff.mp hjob
  have hmem : d ∈ s.schedule.2.scheduled :=
    List.mem_of_mem_filter (hget ▸ List.getElem_mem hi)
  change s.schedule.1.runningSequence (served s.schedule.1 s.schedule.2)[i].id = some r at hfind
  change s.schedule.1.cache.blockTable (served s.schedule.1 s.schedule.2)[i].id = some t at ht
  rw [hget] at hfind ht
  have hr := List.mem_of_findKey hfind
  have hid : r.id = d.id := List.key_of_findKey hfind
  refine ⟨r, hr, hid, ?_⟩
  have hcounted := ho.counted d hmem hpre r hr hid
  have hle := resident_of_entry hs hmem hr hid (hid ▸ ht)
  have hshort := ho.short r hr
  have hget' : (jobsOf s.schedule.1 s.schedule.2)[i]?
      = some ⟨slotOf r t.blocks d, r.prompt.take r.computedPrefixLen⟩ := by
    rw [List.getElem?_eq_getElem (hjobs.length_eq ▸ hi)]
    refine congrArg some (Eq.trans hj ?_)
    change Job.mk (slotOf r t.blocks (served s.schedule.1 s.schedule.2)[i]) _ = _
    rw [hget]
  refine h.row hvocab hget' ?_
  have hstop : (entryTokens r d).length = d.numTokens :=
    length_entryTokens_prefill hpre (hcounted.trans hle)
  show _ ∈ Job.context ⟨slotOf r t.blocks d, _⟩
  unfold Job.context
  show _ ∈ (if d.startPosition + (entryTokens r d).length
      ≤ (r.prompt.take r.computedPrefixLen).length
    ∧ d.startPosition + (entryTokens r d).length ≤ 2 ^ 32 then _ else _)
  rw [hstop, if_pos ⟨by rw [List.length_take, min_eq_left hle]; exact hcounted, by omega⟩]
  show some ((r.prompt.take r.computedPrefixLen).take
    (d.startPosition + (entryTokens r d).length)) = some _
  rw [hstop, List.take_take, min_eq_left hcounted]

end Answers

/-- **A step of a run in order** gets the answer of the transformer without a
cache. -/
theorem ReachableIf.answers {F D S : Type*} [Scalars F D] [Sampler S F]
    {m : TransformerModel F} {config : SchedulerConfig} {n bs firstId : ℕ} {flag : Bool}
    (hbs : 1 ≤ bs) (hn : n ≤ 2 ^ 32) (hfit : m.ResidualsFit) (hsize : m.blockSize = bs)
    {e : Engine (TransformerModel F) S} (h : e.ReachableIf InOrder config n bs flag m firstId)
    {now : Instant} (ho : Orderly (e.scheduled now).scheduler (e.output now)) {b : ForwardBatch}
    (hb : buildBatch (e.scheduled now).scheduler (e.output now) = .ok b) {out : ForwardOutput F}
    (hout : ((e.scheduled now).runForward b).2 = .ok out) :
    m.Answers (jobsOf (e.scheduled now).scheduler (e.output now)) out := by
  have hin := h.reachable.inService
  obtain ⟨c, kv, hkv, hmodel, hc, hst⟩ := (h.backs hbs hn hfit hsize).scheduled hbs hn hin now
  obtain rfl := buildBatch_eq_ofSlots hb
  obtain ⟨hkv', hpass⟩ := TransformerModel.exists_forward_withKv hkv
    (.ofSlots ((jobsOf (e.scheduled now).scheduler (e.output now)).map Job.slot))
  rw [← hmodel] at hpass
  have hok := TransformerModel.mapError_eq_ok_iff.mp ((congrArg Prod.snd hpass).symm.trans hout)
  exact (answers_of_forward hbs hn hfit hsize hin ho hkv hc hst (Prod.ext rfl hok)).2

end Engine

/-- **Prefill is right in every run that is in order.** The engine may chunk
prompts, batch chunks of several sequences with decode steps, let sequences
share cached blocks, evict them and start them anew; a row of logits that a step
gets for a part of a prompt is the one that the transformer without a cache has
for the prompt up to there. -/
theorem Engine.prefills_recomputed {F D S : Type*} [Scalars F D] [Sampler S F]
    {m : TransformerModel F} {config : SchedulerConfig} {n bs firstId : ℕ} {flag : Bool}
    (hbs : 1 ≤ bs) (hn : n ≤ 2 ^ 32) (hfit : m.ResidualsFit) (hsize : m.blockSize = bs)
    (hvocab : m.head.rows = m.metadata.vocabSize) {e : Engine (TransformerModel F) S}
    (h : e.ReachableIf InOrder config n bs flag m firstId) {now : Instant}
    (ho : Orderly (e.scheduled now).scheduler (e.output now)) {b : ForwardBatch}
    (hb : buildBatch (e.scheduled now).scheduler (e.output now) = .ok b) {out : ForwardOutput F}
    (hout : ((e.scheduled now).runForward b).2 = .ok out) :
    out.sequenceIds
        = (served (e.scheduled now).scheduler (e.output now)).map ScheduledSequence.id
      ∧ ∀ i d, (served (e.scheduled now).scheduler (e.output now))[i]? = some d →
        d.isPrefill = true → ∃ r ∈ (e.scheduled now).scheduler.running, r.id = d.id
          ∧ ∃ l, out.row i = some l
            ∧ m.logitsOf (r.prompt.take (d.startPosition + d.numTokens)) = .ok l := by
  have hs := (h.reachable.inService.quiet (e.quiet_expire now)).sound hbs hn
  have hanswers := h.answers hbs hn hfit hsize ho hb hout
  exact ⟨ids_of_answers hs hb hanswers,
    fun i d hd hpre => row_of_answers hs ho hvocab hb hanswers hd hpre⟩

namespace TinyModel

/-- A sampler that always takes the first token of the vocabulary. -/
inductive FirstToken
  | first

instance : Sampler FirstToken ℚ where
  sample s _ _ _ := (s, .ok 0)

/-- An engine that prefills one token at a time, over the arena of the model. -/
def tokenwise : Engine (TransformerModel ℚ) FirstToken :=
  .new (.new { maxNumBatchedTokens := 1 } (KvCacheManager.new 2 2 true)) fitting 1

/-- With a prompt of two tokens. -/
def submitted : Engine (TransformerModel ℚ) FirstToken :=
  EngineOp.runAll tokenwise [.submit [0, 0] { maxTokens := 4 } ⟨4, [], true⟩ .first 0]

/-- After the first of them. -/
def halfway : Engine (TransformerModel ℚ) FirstToken := EngineOp.runAll submitted [.step 0]

/-- The batch of one token, at a position of the prompt. -/
def tokenBatch (position : ℕ) : ForwardBatch :=
  ⟨[0], [position], [⟨1⟩], [1], [position + 1], [[⟨0⟩]], true⟩

end TinyModel

namespace Engine

open TinyModel

/-- One request alone cannot collide with another. -/
theorem noCollisions_alone (m : KvCacheManager) (hsize : m.blockSize = 2)
    (htrace : m.trace = [.handedOut ⟨1⟩ ⟨0⟩, .opened ⟨1⟩ [0, 0]]) :
    KvCacheManager.NoCollisions m.blockSize m.trace := by
  rw [hsize, htrace]
  rintro s p t q hp hq i j hj hi -
  obtain ⟨rfl, rfl⟩ : s = ⟨1⟩ ∧ p = [0, 0] := by simpa using hp
  obtain ⟨rfl, rfl⟩ : t = ⟨1⟩ ∧ q = [0, 0] := by simpa using hq
  have hj : (j + 1) * 2 ≤ 2 := hj
  have hi : (i + 1) * 2 ≤ 2 := hi
  obtain rfl : i = j := by omega
  rfl

theorem orderly_submitted : Orderly (submitted.scheduled 0).scheduler (submitted.output 0) :=
  ⟨by decide +kernel, by decide +kernel,
    noCollisions_alone _ (by decide +kernel) (by decide +kernel)⟩

theorem orderly_halfway : Orderly (halfway.scheduled 0).scheduler (halfway.output 0) :=
  ⟨by decide +kernel, by decide +kernel,
    noCollisions_alone _ (by decide +kernel) (by decide +kernel)⟩

theorem residualsFit_fitting : fitting.ResidualsFit := by
  intro w hw
  rw [List.mem_singleton.mp hw]
  exact ⟨rfl, rfl⟩

/-- The second token of the prompt goes through after the first. -/
theorem prefills_recomputed_halfway : fitting.logitsOf [0, 0] = .ok [-1] := by
  have hsubmitted : submitted.ReachableIf InOrder
      { maxNumBatchedTokens := 1 } 2 2 true fitting 1 :=
    ReachableIf.start.step
      (.submit [0, 0] { maxTokens := 4 } ⟨4, [], true⟩ FirstToken.first 0) trivial
  have hhalfway : halfway.ReachableIf InOrder { maxNumBatchedTokens := 1 } 2 2 true fitting 1 :=
    hsubmitted.step (.step 0) ⟨orderly_submitted, fun _ => ⟨tokenBatch 0, by decide +kernel,
      ⟨[-1], 1, [⟨1⟩]⟩, by decide +kernel⟩⟩
  have hb : buildBatch (halfway.scheduled 0).scheduler (halfway.output 0)
      = .ok (tokenBatch 1) := by
    decide +kernel
  have hout : ((halfway.scheduled 0).runForward (tokenBatch 1)).2 = .ok ⟨[-1], 1, [⟨1⟩]⟩ := by
    decide +kernel
  obtain ⟨-, hrows⟩ := prefills_recomputed (by decide) (by decide) residualsFit_fitting rfl rfl
    hhalfway orderly_halfway hb hout
  obtain ⟨r, hr, -, l, hl, hlogits⟩ := hrows 0 ⟨⟨1⟩, 1, 1, true⟩ (by decide +kernel) rfl
  have hrunning : (halfway.scheduled 0).scheduler.running.map Sequence.prompt = [[0, 0]] := by
    decide +kernel
  have hprompt : r.prompt = [0, 0] :=
    List.mem_singleton.mp (hrunning ▸ List.mem_map_of_mem (f := Sequence.prompt) hr)
  rw [hprompt] at hlogits
  obtain rfl := Option.some.inj hl
  exact hlogits

end Engine
