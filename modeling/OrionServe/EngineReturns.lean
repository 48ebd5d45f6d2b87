import OrionServe.EngineFirstToken
import OrionServe.EngineSlots
import OrionServe.LoadedModel
import OrionServe.SchedulerContext
import OrionServe.SamplingDistribution

/-!
# When a step returns

With a loaded model behind it, a step can fail in many places: a sequence
without a table, arrays that disagree, a token outside of the vocabulary, a
position behind the rotations or behind the blocks of its table, a kernel that
does not get the shape it asks for, a row that is not there, a sampler that
gets no logits. In a run whose prompts are in the vocabulary and whose lengths
add up, all of these are ruled out but one: a decode entry asks for the
position behind everything generated, and its table may end before it
(`Engine.step_returns_iff`).

For that, every sequence in service stays one that the model can read
(`Sequence.Legible`), and the model of the engine stays the one it was given,
up to its arena (`Engine.Hosts`).
-/

/-- **A sampler that picks** an index of every row that is not empty. -/
def Sampler.Picks (S F : Type*) [Sampler S F] : Prop :=
  ∀ (s : S) (l : List F) (previous : List TokenId) (params : SamplingParams), l ≠ [] →
    ∃ t, (Sampler.sample s l previous params).2 = .ok t ∧ t.toNat < l.length

/-! ## The default sampler -/

namespace ExactSampling

variable {K : Type*} [Field K] [LinearOrder K]

theorem length_applyTemperature (row : List K) (t : K) :
    (applyTemperature row t).length = row.length := by
  unfold applyTemperature
  split
  · rfl
  · exact List.length_map _

theorem length_softmax [IsStrictOrderedRing K] {E : ExactArith K} {row : List K} :
    (softmax E row).length = row.length := by
  by_cases h : Above row
  · rw [softmax_eq_map h, List.length_map]
  · rw [softmax_of_le h, List.length_map]

/-- A draw from a row that is not empty is one of its indices. -/
theorem sampleFrom_lt {probs : List K} (hne : probs ≠ []) (r : K) :
    sampleFrom probs r < probs.length := by
  have hpos := List.length_pos_of_ne_nil hne
  unfold sampleFrom
  rcases hcross : probs.firstCross (fun c => decide (r < c)) 0 with - | i
  · rcases hlast : (List.range probs.length).reverse.find? (fun i => 0 < probs.getD i 0)
      with - | i
    · exact Nat.sub_lt hpos Nat.one_pos
    · exact List.mem_range.mp (List.mem_reverse.mp (List.mem_of_find?_eq_some hlast))
  · exact (List.firstCross_eq_some_iff.mp hcross).1

/-- **The default sampler picks** an index of the row, whatever its generator
draws. -/
theorem picks [IsStrictOrderedRing K] {R : Type*} [RngLike R K] (E : ExactArith K) :
    let _ : LogitOps K := logitOps E
    Sampler.Picks (DefaultSampler R) K := by
  intro ops s l previous params hne
  have hlen := length_scaledRow l previous params
  have hmod : ∀ {i : ℕ}, i < l.length → (UInt32.ofNat i).toNat < l.length := fun hi => by
    rw [UInt32.toNat_ofNat']
    exact (Nat.mod_le _ _).trans_lt hi
  have hsample := sample_eq_sampleWith E s l previous params
  rcases hmode : params.mode with - | -
  · -- the row is not scaled
    rw [scaledRow, length_applyTemperature] at hlen
    set row := applyRepetitionPenalty l previous (params.repetitionPenalty.value : K) with hrow
    have hne' : row ≠ [] := List.ne_nil_of_length_pos (hlen ▸ List.length_pos_of_ne_nil hne)
    obtain ⟨i, hi, htie⟩ := exists_argmax hne'
    refine ⟨UInt32.ofNat i, hsample.trans (sampleWith_of_greedy hmode hne previous _ hi), hmod ?_⟩
    rw [← hlen]
    exact (List.getElem?_eq_some_iff.mp (mem_ties_iff.mp htie)).1
  · refine ⟨_, hsample.trans (sampleWith_of_stochastic hmode hne previous _), hmod ?_⟩
    have hne' : scaledRow l previous params ≠ [] :=
      List.ne_nil_of_length_pos (hlen ▸ List.length_pos_of_ne_nil hne)
    rw [← hlen, ← length_filtered E _ params.topK (params.topP.value : K),
      ← length_softmax (E := E)]
    refine sampleFrom_lt (List.ne_nil_of_length_pos ?_) _
    rw [length_softmax]
    exact List.length_pos_of_ne_nil (filtered_ne_nil hne')

end ExactSampling

/-! ## Who goes on has tokens to go -/

section Going

variable {C : Type*} [KvCacheManagerLike C]

/-- **Step lemma.** -/
theorem Service.going_run {v : Service C} (hnd : v.sched.ids.Nodup)
    (h : ∀ q ∈ v.sched.queue, q.state ≠ .finished → q.Going) (op : SchedulerOp) :
    ∀ q ∈ (op.run v).sched.queue, q.state ≠ .finished → q.Going := by
  have hsub : ∀ {s : Scheduler C}, (∀ q ∈ s.queue, q ∈ v.sched.queue) →
      ∀ q ∈ s.queue, q.state ≠ .finished → q.Going := fun hs q hq => h q (hs q hq)
  cases op with
  | addRequest prompt params now =>
    show ∀ q ∈ (v.sched.addRequest _).1.queue, _
    rcases v.sched.addRequest_cases (.new ⟨v.nextId⟩ prompt params now) with ⟨e, he⟩ | ⟨hok, -⟩
    · rw [he]
      exact h
    · rw [hok]
      intro q hq hlive
      rw [Scheduler.queue, ← List.append_assoc] at hq
      rcases List.mem_append.mp hq with hq | hq
      · exact h q hq hlive
      · rw [List.mem_singleton.mp hq]
        exact ⟨by simp [Sequence.new], lt_of_lt_of_le Nat.zero_lt_one (le_max_left _ _)⟩
  | schedule =>
    intro q' hq' hlive
    have hmoves := v.sched.passes_moves
    obtain ⟨q, hq, hmoved⟩ := MovedAll.exists_of_mem hmoves.moved hq'
    obtain ⟨x, hx, hid, hxlive⟩ := hmoves.unfinished q' hq' hlive
    obtain rfl := Scheduler.eq_of_id_eq hnd hx hq (hid.trans hmoved.id)
    exact hmoved.going (h x hx hxlive)
  | onToken id token eosIds =>
    show ∀ q ∈ (v.sched.onToken id token eosIds).1.queue, _
    unfold Scheduler.onToken
    split
    · exact h
    intro q' hq' hlive
    rcases List.mem_append.mp hq' with hrun | hwait
    · rcases List.of_mem_updateKey hrun with hq | ⟨q, hq, rfl⟩
      · exact h q' (List.mem_append_left _ hq) hlive
      have hbefore : q.state ≠ .finished := by
        intro hfin
        refine hlive ?_
        simp only [Scheduler.tokenReceived]
        split
        · exact Sequence.finish_state _ _
        · exact hfin
      have htoken := (h q (List.mem_append_left _ hq) hbefore).tokenReceived token eosIds
      exact htoken.2.resolve_right (fun hended => hlive hended.1)
    · exact h q' (List.mem_append_right _ hwait) hlive
  | reapFinished =>
    exact hsub (fun q hq => (List.mem_append.mp hq).elim
      (fun hq => List.mem_append_left _ (List.mem_filter.mp hq).1) (List.mem_append_right _))
  | cancel id =>
    show ∀ q ∈ (v.sched.cancel id).1.queue, _
    unfold Scheduler.cancel
    split
    · exact hsub (fun q hq => (List.mem_append.mp hq).elim (List.mem_append_left _)
        (fun hq => List.mem_append_right _ (List.mem_of_mem_eraseP hq)))
    split
    · exact hsub (fun q hq => (List.mem_append.mp hq).elim
        (fun hq => List.mem_append_left _ (List.mem_of_mem_eraseP hq)) (List.mem_append_right _))
    · exact h
  | expireTimeouts now =>
    intro q' hq' hlive
    exact h q' (Scheduler.mem_queue_of_expireTimeouts hq' hlive) hlive
  | commitPrefill id =>
    intro q hq
    change q ∈ (v.sched.commitPrefill id).queue at hq
    rw [Scheduler.commitPrefill_queue] at hq
    exact h q hq

/-- **Run lemma.** -/
theorem Service.Reachable.going {config : SchedulerConfig} {cache : C} {firstId : ℕ}
    {v : Service C} (h : v.Reachable config cache firstId) :
    ∀ q ∈ v.sched.queue, q.state ≠ .finished → q.Going := by
  induction h with
  | start => exact fun q hq => absurd hq List.not_mem_nil
  | step op hv ih => exact Service.going_run hv.inOrder.nodup ih op

end Going

/-! ## Sequences that a model can read -/

/-- **A sequence that a model can read**: its tokens are in the vocabulary, and
its prompt and the tokens it asks for are within the context length. -/
structure Sequence.Legible (vocab limit : ℕ) (q : Sequence) : Prop where
  prompt : ∀ t ∈ q.prompt, t.toNat < vocab
  output : ∀ t ∈ q.output, t.toNat < vocab
  asks : 1 ≤ q.params.maxTokens
  room : q.prompt.length + q.params.maxTokens ≤ limit

namespace Sequence.Legible

variable {vocab limit : ℕ} {q q' : Sequence}

theorem congr (h : q.Legible vocab limit) (hprompt : q'.prompt = q.prompt)
    (hparams : q'.params = q.params) (houtput : q'.output = q.output) :
    q'.Legible vocab limit where
  prompt := by
    rw [hprompt]
    exact h.prompt
  output := by
    rw [houtput]
    exact h.output
  asks := by
    rw [hparams]
    exact h.asks
  room := by
    rw [hprompt, hparams]
    exact h.room

/-- Another token. -/
theorem append (h : q.Legible vocab limit) {token : TokenId} (htoken : token.toNat < vocab)
    (hprompt : q'.prompt = q.prompt) (hparams : q'.params = q.params)
    (houtput : q'.output = q.output ++ [token]) : q'.Legible vocab limit where
  prompt := by
    rw [hprompt]
    exact h.prompt
  output := by
    rw [houtput]
    exact List.forall_mem_append.mpr ⟨h.output, List.forall_mem_singleton.mpr htoken⟩
  asks := by
    rw [hparams]
    exact h.asks
  room := by
    rw [hprompt, hparams]
    exact h.room

/-- Who goes on has fewer tokens than the limit. -/
theorem length_lt (h : q.Legible vocab limit) (hgoing : q.Going) :
    q.prompt.length + q.output.length < limit := by
  have hbelow := hgoing.below
  rw [max_eq_right h.asks] at hbelow
  exact (Nat.add_lt_add_left hbelow _).trans_le h.room

/-- What an entry takes of it. -/
theorem entryTokens (h : q.Legible vocab limit) (d : ScheduledSequence) :
    ∀ t ∈ Engine.entryTokens q d, t.toNat < vocab := by
  intro t ht
  unfold Engine.entryTokens at ht
  split at ht
  · exact h.prompt t (List.mem_of_mem_take (List.mem_of_mem_drop ht))
  split at ht
  · next t' hlast =>
    rw [List.mem_singleton.mp ht]
    exact h.output t' (List.mem_of_mem_getLast? hlast)
  · exact h.prompt t (List.mem_of_mem_getLast? (Option.mem_toList.mp ht))

end Sequence.Legible

namespace Engine

section Legible

variable {M S F : Type*} {e e' : Engine M S} {vocab limit : ℕ}

/-- Everybody in service can be read. -/
def Legible (vocab limit : ℕ) (e : Engine M S) : Prop :=
  ∀ q ∈ e.scheduler.queue, q.Legible vocab limit

theorem Legible.leaves (h : e.Legible vocab limit) (hl : ∀ id, e.Leaves id e') :
    e'.Legible vocab limit := by
  intro q' hq'
  obtain ⟨q, hq, -, hprompt, hparams, houtput⟩ := (hl q'.id).queue q' hq' rfl
  exact (h q hq).congr hprompt hparams houtput

/-- **An operation that a model can read**: the prompt of a request is in the
vocabulary, and its length and the tokens asked for add up to a `usize`. -/
def Readable (vocab : ℕ) : EngineOp S → Prop
  | .submit prompt params _ _ _ =>
    (∀ t ∈ prompt, t.toNat < vocab) ∧ prompt.length + params.maxTokens < 2 ^ 64
  | _ => True

theorem Legible.submit (h : e.Legible vocab limit) (hlimit : e.scheduler.maxModelLen = limit)
    {prompt : List TokenId} {params : SamplingParams} (events : Channel) (sampler : S)
    (now : Instant) (hop : Readable vocab (.submit prompt params events sampler now)) :
    (e.submit prompt params events sampler now).1.Legible vocab limit := by
  obtain ⟨hprompt, hsmall⟩ := hop
  unfold Engine.submit
  split
  · exact h
  next hvalid =>
  rcases e.scheduler.addRequest_cases (.new ⟨e.nextId⟩ prompt params now) with
    ⟨err, he⟩ | ⟨hok, -⟩
  · rw [he]
    exact h
  · have hfits := ((e.scheduler.contextChecked_iff (.new ⟨e.nextId⟩ prompt params now)).mpr
      (Or.inr hsmall)).2 ⟨e.nextId⟩ (by rw [hok]; rfl)
    rw [hok]
    intro q hq
    change q ∈ e.scheduler.running ++ (e.scheduler.waiting ++ [_]) at hq
    rw [← List.append_assoc] at hq
    rcases List.mem_append.mp hq with hq | hq
    · exact h q hq
    · rw [List.mem_singleton.mp hq]
      exact ⟨hprompt, fun t ht => absurd ht List.not_mem_nil, SamplingParams.maxTokens_pos hvalid,
        hlimit ▸ hfits⟩

variable [Sampler S F]

/-- **A token for a sequence** is picked from a row over the vocabulary. -/
theorem Legible.sampleAndEmit (hS : Sampler.Picks S F) (h : e.Legible vocab limit)
    (hnd : e.scheduler.ids.Nodup) (id : SequenceId) {logits : List F} (hne : logits ≠ [])
    (hlen : logits.length = vocab) :
    (e.sampleAndEmit id logits).2 = .ok ()
      ∧ (e.sampleAndEmit id logits).1.Legible vocab limit := by
  rcases e.sampleAndEmit_cases id logits with ⟨-, hsame⟩ | ⟨seq, req, hseq, hreq, hcases⟩
  · rw [hsame]
    exact ⟨rfl, h⟩
  obtain ⟨t, hpick, hlt⟩ := hS req.sampler logits seq.allTokens seq.params hne
  rcases hcases with ⟨sampler, err, hsample, -⟩ | ⟨sampler, token, index, hsample, hok, hend⟩
  · rw [hsample] at hpick
    exact absurd hpick (by simp)
  rw [hsample] at hpick
  obtain rfl := Except.ok.inj hpick
  have htold : (e.tell id req sampler token index).Legible vocab limit := by
    intro q hq
    by_cases hid : q.id = id
    · obtain ⟨hprompt, hparams, houtput⟩ :=
        (tell_output req sampler token index hnd hseq).2 q hq hid
      exact (h seq (List.mem_append_left _ (List.mem_of_findKey hseq))).append (hlen ▸ hlt)
        hprompt hparams houtput
    · rcases queue_onToken hnd hq with ⟨hq, -⟩ | ⟨a, -, haid, rfl⟩
      · exact h q hq
      · exact absurd ((a.ends_tokenReceived token e.eosIds).id.trans haid) hid
  refine ⟨hok, ?_⟩
  rcases hend with hend | hend | ⟨reason, hend⟩
  · rw [hend]
    exact htold
  · rw [hend]
    exact htold.leaves (fun id' => Leaves.cancelSilently _ _)
  · rw [hend]
    exact htold.leaves (fun id' => Leaves.sendLast _ _ (fun _ => ⟨_, _, _, rfl⟩))

end Legible

end Engine

/-! ## The batch of a step -/

/-- **A slot that a model can run**: all that `ForwardBatch.WellShaped` asks of a
batch. -/
structure BatchSlot.Shaped {F : Type*} (s : BatchSlot) (metadata : ModelMetadata F)
    (numBlocks blockSize : ℕ) : Prop where
  nonempty : s.tokens ≠ []
  tokens : ∀ t ∈ s.tokens, t.toNat < metadata.vocabSize
  positions : ∀ row ∈ s.rows, row.position < metadata.maxPositionEmbeddings
  covered : ∀ row ∈ s.rows, row.position < s.table.length * blockSize
  blocks : ∀ a ∈ s.table, a.index < numBlocks

namespace ForwardBatch

variable {F : Type*} {metadata : ModelMetadata F} {numBlocks blockSize : ℕ}

theorem blockTables_foldl_push (slots : List BatchSlot) (b : ForwardBatch) :
    (slots.foldl .push b).blockTables = b.blockTables ++ slots.map BatchSlot.table := by
  induction slots generalizing b with
  | nil => exact (List.append_nil _).symm
  | cons s slots ih =>
    rw [List.foldl_cons, ih, List.map_cons]
    exact List.append_assoc _ _ _

/-- **A batch of slots that the model can run.** -/
theorem wellShaped_ofSlots {jobs : List Job}
    (h : ∀ j ∈ jobs, j.slot.Shaped metadata numBlocks blockSize) :
    (ofSlots (jobs.map Job.slot)).WellShaped metadata numBlocks blockSize := by
  obtain ⟨ha, -, htokens, -, hcounts⟩ := foldl_push aligned_empty (jobs.map Job.slot)
  have hplaces := TransformerModel.places_ofSlots jobs
  have hrow : ∀ p ∈ (ofSlots (jobs.map Job.slot)).places,
      ∃ j ∈ jobs, ∃ row ∈ j.slot.rows, p = ⟨row.position, j.slot.table⟩ := by
    intro p hp
    rw [hplaces] at hp
    obtain ⟨j, hj, hp⟩ := List.mem_flatMap.mp hp
    obtain ⟨row, hrow, rfl⟩ := List.mem_map.mp hp
    obtain ⟨i, t, -, rfl⟩ := BatchSlot.mem_rows_iff.mp hrow
    exact ⟨j, hj, _, hrow, rfl⟩
  refine ⟨(validate_eq_ok_iff _).mpr ha, fun k hk => ?_, fun t ht => ?_, fun p hp => ?_,
    fun p hp => ?_, fun t ht a hat => ?_⟩
  · change k ∈ ((jobs.map Job.slot).foldl ForwardBatch.push empty).slotTokenCounts at hk
    rw [hcounts] at hk
    obtain ⟨s, hs, rfl⟩ := List.mem_map.mp hk
    obtain ⟨j, hj, rfl⟩ := List.mem_map.mp hs
    exact List.length_pos_of_ne_nil (h j hj).nonempty
  · change t ∈ ((jobs.map Job.slot).foldl ForwardBatch.push empty).tokens at ht
    rw [htokens] at ht
    obtain ⟨s, hs, ht⟩ := List.mem_flatMap.mp ht
    obtain ⟨j, hj, rfl⟩ := List.mem_map.mp hs
    exact (h j hj).tokens t ht
  · rw [positions_places (b := ofSlots _) ha] at hp
    obtain ⟨x, hx, rfl⟩ := List.mem_map.mp hp
    obtain ⟨j, hj, row, hr, rfl⟩ := hrow x hx
    exact (h j hj).positions row hr
  · obtain ⟨j, hj, row, hr, rfl⟩ := hrow p hp
    exact (h j hj).covered row hr
  · change t ∈ ((jobs.map Job.slot).foldl ForwardBatch.push empty).blockTables at ht
    rw [blockTables_foldl_push] at ht
    obtain ⟨s, hs, rfl⟩ := List.mem_map.mp ht
    obtain ⟨j, hj, rfl⟩ := List.mem_map.mp hs
    exact (h j hj).blocks a hat

end ForwardBatch

namespace Engine

section Batch

variable {F : Type*} {metadata : ModelMetadata F} {s : Scheduler KvCacheManager} {limit n : ℕ}

/-- **The jobs of a call with room** for its entries, when everybody can be
read. -/
theorem shaped_jobs (hs : s.Sound) (hroom : Roomy s.schedule.1 s.schedule.2)
    (hlegible : ∀ q ∈ s.schedule.1.queue, q.Legible metadata.vocabSize limit)
    (hgoing : ∀ q ∈ s.schedule.1.queue, q.state ≠ .finished → q.Going)
    (hlimit : limit ≤ metadata.maxPositionEmbeddings)
    (hblocks : s.schedule.1.cache.pool.totalBlocks = n) {j : Job}
    (hj : j ∈ jobsOf s.schedule.1 s.schedule.2) :
    j.slot.Shaped metadata n s.schedule.1.cache.blockSize := by
  obtain ⟨d, hd, r, hr, t, hid, ht, hne, rfl⟩ := exists_of_mem_jobs hj
  have hmem : r ∈ s.schedule.1.queue := List.mem_append_left _ hr
  have hread := hlegible r hmem
  obtain ⟨hlive, hdecode⟩ := hroom d hd r hr hid
  -- where the rows are: in the prompt, or behind everything generated
  have hrows : ∀ row ∈ (slotOf r t.blocks d).rows, row.position < limit
      ∧ row.position < t.numBlocks * s.schedule.1.cache.blockSize := by
    intro row hrow
    rcases hs.booked.suits d hd (r.id, r.prompt, r.output)
      (List.mem_map.mpr ⟨r, hmem, rfl⟩) hid with ⟨hpre, -, hle⟩ | ⟨hdec, -, hstart⟩
    · obtain ⟨-, hlt⟩ := position_prefill hpre hle hrow
      exact ⟨hlt.trans_le ((Nat.le_add_right _ _).trans hread.room),
        hlt.trans_le (hs.schedule.prompt_le_table hr ht)⟩
    · obtain ⟨tok, htok⟩ := rows_decode (t := t) hdec (hs.schedule.prompt_pos hr hlive)
      rw [htok] at hrow
      rw [List.mem_singleton.mp hrow]
      have hstart : d.startPosition = r.prompt.length + r.output.length := hstart
      refine ⟨?_, ?_⟩
      · show d.startPosition % 2 ^ 32 < limit
        rw [hstart]
        exact (Nat.mod_le _ _).trans_lt (hread.length_lt (hgoing r hmem hlive))
      · show d.startPosition % 2 ^ 32 < _
        rw [hstart]
        exact hdecode hdec t ht
  refine ⟨hne, hread.entryTokens d, fun row hrow => (hrows row hrow).1.trans_le hlimit,
    fun row hrow => (hrows row hrow).2, fun a ha => ?_⟩
  rw [← hblocks]
  exact hs.schedule.settled.exact.ranged.mem_ids ht ha

/-- **A batch whose rows are located** has room for its entries. -/
theorem roomy_of_located (hs : s.Sound) {b : ForwardBatch}
    (hb : buildBatch s.schedule.1 s.schedule.2 = .ok b)
    (hlocated : ∀ j ∈ jobsOf s.schedule.1 s.schedule.2, ∀ row ∈ j.slot.rows,
      (locate row.table row.position s.schedule.1.cache.blockSize).isSome) :
    Roomy s.schedule.1 s.schedule.2 := by
  intro d hd r hr hid
  have hfind : s.schedule.1.runningSequence d.id = some r :=
    (List.findKey_eq_some_iff hs.schedule.nodup_running).mpr ⟨hr, hid⟩
  have hback := buildBatch_isOk_iff.mp ⟨b, hb⟩ d hd (by rw [hfind]; simp)
  have hlive : r.state ≠ .finished := by
    intro hfin
    have hnone := hs.booked.spent d hd r hr hid hfin
    rw [hid] at hnone
    apply hback
    show (s.passes.sched.cache.tables.lookup d.id).map BlockTable.blocks = none
    rw [hnone]
    rfl
  refine ⟨hlive, fun hdec t ht => ?_⟩
  have hprompt := hs.schedule.prompt_pos hr hlive
  obtain ⟨tok, htok⟩ := entryTokens_decode hdec hprompt
  have hjob : (⟨slotOf r t.blocks d, r.prompt.take r.computedPrefixLen⟩ : Job)
      ∈ jobsOf s.schedule.1 s.schedule.2 :=
    List.mem_filterMap.mpr ⟨d, hd, entryJob_eq_some_iff.mpr
      ⟨r, t, hfind, hid ▸ ht, by rw [htok]; simp, rfl⟩⟩
  obtain ⟨x, hx⟩ := rows_decode (t := t) hdec hprompt
  have hsome := hlocated _ hjob _ (hx ▸ List.mem_cons_self)
  rcases hs.booked.suits d hd (r.id, r.prompt, r.output)
    (List.mem_map.mpr ⟨r, List.mem_append_left _ hr, rfl⟩) hid with ⟨hpre, -⟩ | ⟨-, -, hstart⟩
  · exact absurd (hpre.symm.trans hdec) (by simp)
  rw [locate_isSome_iff hs.schedule.settled.blockSize, hstart] at hsome
  exact hsome

end Batch

end Engine

/-! ## The model of the engine -/

namespace TransformerModel

variable {F D : Type*} [Scalars F D] {m : TransformerModel F} {b : ForwardBatch}
  {kv kv' : KvStore F} {out : ForwardOutput F}

/-- An answer has rows over the vocabulary. -/
theorem vocabSize_of_forwardOn (hfit : m.ResidualsFit) (hkv : kv.toKvShape = m.kv.toKvShape)
    (h : m.forwardOn b kv = (kv', .ok out)) : out.vocabSize = m.metadata.vocabSize := by
  by_cases hne : b.tokens = []
  · rw [forwardOn_nil (aligned_of_forwardOn h) hne] at h
    obtain rfl := Except.ok.inj (congrArg Prod.snd h)
    rfl
  · obtain ⟨-, _, _, -, -, -, _, -, rfl⟩ := (forwardOn_eq_ok_iff hfit hne hkv).mp h
    rfl

end TransformerModel

theorem ForwardOutput.length_row {F : Type*} {out : ForwardOutput F} {i : ℕ} {l : List F}
    (h : out.row i = some l) : l.length = out.vocabSize := by
  unfold row at h
  split at h
  · obtain rfl := Option.some.inj h
    rw [List.length_take, List.length_drop, min_eq_left (by omega)]
  · exact absurd h (by simp)

namespace Engine

section Hosts

variable {F D S : Type*} [Scalars F D] {m : TransformerModel F}
    {e e' : Engine (TransformerModel F) S}

/-- **The model of an engine** is the one it was given, up to its arena. -/
def Hosts (m : TransformerModel F) (e : Engine (TransformerModel F) S) : Prop :=
  ∃ kv hkv, e.model = m.withKv kv hkv

omit [Scalars F D] in
theorem Hosts.of_eq (h : e.Hosts m) (hmodel : e'.model = e.model) : e'.Hosts m := by
  obtain ⟨kv, hkv, hm⟩ := h
  exact ⟨kv, hkv, hmodel.trans hm⟩

omit [Scalars F D] in
theorem Hosts.quiet (h : e.Hosts m) (hq : e.Quiet e') : e'.Hosts m := by
  obtain ⟨ops, -, hops⟩ := hq
  exact h.of_eq hops.model

/-- A forward pass, and what it was over. -/
theorem Hosts.runForward (h : e.Hosts m) (b : ForwardBatch) : (e.runForward b).1.Hosts m
    ∧ ∃ kv, kv.toKvShape = m.kv.toKvShape
      ∧ ∀ out, (e.runForward b).2 = .ok out ↔ (m.forwardOn b kv).2 = .ok out := by
  obtain ⟨kv, hkv, hmodel⟩ := h
  obtain ⟨hkv', hpass⟩ := TransformerModel.exists_forward_withKv hkv b
  rw [← hmodel] at hpass
  refine ⟨⟨_, hkv', congrArg Prod.fst hpass⟩, kv, hkv, fun out => ?_⟩
  have hanswer : (e.runForward b).2 = (m.forwardOn b kv).2.mapError Fault.toEngineError :=
    congrArg Prod.snd hpass
  rw [hanswer]
  exact TransformerModel.mapError_eq_ok_iff

end Hosts

/-! ## The rows of an answer -/

section Rows

variable {M S F : Type*} [Sampler S F] {e : Engine M S} {vocab limit n bs firstId : ℕ}
  {config : SchedulerConfig} {flag : Bool}

/-- **All rows are emitted** if they are there. -/
theorem Legible.emitRows (hS : Sampler.Picks S F) (out : ForwardOutput F)
    (hvocab : out.vocabSize = vocab) (hpos : vocab ≠ 0) (rows : List (SequenceId × ℕ)) :
    ∀ {e : Engine M S}, e.InService config n bs flag firstId → e.Legible vocab limit →
      (e.emitRows out rows).1.Legible vocab limit
        ∧ ((∀ x ∈ rows, ∃ l, out.row x.2 = some l) → (e.emitRows out rows).2 = .ok ()) := by
  induction rows with
  | nil => exact fun _ h => ⟨h, fun _ => rfl⟩
  | cons x rows ih =>
    intro e hin h
    obtain ⟨id, row⟩ := x
    obtain ⟨r, hr⟩ : ∃ r, r = e.emitRows out ((id, row) :: rows) := ⟨_, rfl⟩
    rw [← hr]
    rw [Engine.emitRows] at hr
    split at hr
    · obtain ⟨hlegible, hok⟩ := ih hin h
      rw [hr]
      exact ⟨hlegible, fun hall => hok (fun x hx => hall x (List.mem_cons_of_mem _ hx))⟩
    split at hr
    · next hnone =>
      rw [hr]
      refine ⟨h, fun hall => ?_⟩
      obtain ⟨l, hl⟩ := hall (id, row) List.mem_cons_self
      exact absurd (hnone.symm.trans hl) (by simp)
    next logits hrow =>
    have hlen := ForwardOutput.length_row hrow
    rw [hvocab] at hlen
    have hne : logits ≠ [] := List.ne_nil_of_length_pos (by omega)
    obtain ⟨hemit, hlegible⟩ := h.sampleAndEmit hS hin.nodup id hne hlen
    have hin' := hin.quiet (quiet_sampleAndEmit e id logits)
    split at hr
    · next e' he' =>
      rw [he'] at hlegible hin'
      obtain ⟨hrest, hok⟩ := ih hin' hlegible
      rw [hr]
      exact ⟨hrest, fun hall => hok (fun x hx => hall x (List.mem_cons_of_mem _ hx))⟩
    · next e' err he' =>
      rw [he'] at hemit
      exact absurd hemit (by simp)

end Rows

/-! ## Whole runs -/

section Run

variable {F D S : Type*} [Scalars F D] [Sampler S F] {m : TransformerModel F} {ffn : ℕ}
  {config : SchedulerConfig} {n bs firstId : ℕ} {flag : Bool}
  {e : Engine (TransformerModel F) S}

/-- **An engine that its model can serve.** -/
structure Ready (m : TransformerModel F) (config : SchedulerConfig)
    (e : Engine (TransformerModel F) S) : Prop where
  hosts : e.Hosts m
  legible : e.Legible m.metadata.vocabSize (config.maxModelLen.getD usizeMax)

omit [Sampler S F] in
/-- Where a step runs its batch. -/
theorem Ready.scheduled (h : e.Ready m config) (now : Instant) :
    (e.scheduled now).Ready m config :=
  ⟨(h.hosts.quiet (e.quiet_expire now)).of_eq rfl,
    h.legible.leaves (fun _ => Leaves.scheduled e now)⟩

/-- **Step lemma.** -/
theorem Ready.run (hS : Sampler.Picks S F) (hb : m.Built ffn)
    (hin : e.InService config n bs flag firstId) (h : e.Ready m config) {op : EngineOp S}
    (hop : Readable m.metadata.vocabSize op) : (op.run e).Ready m config := by
  have hmaxLen : e.scheduler.maxModelLen = config.maxModelLen.getD usizeMax := by
    obtain ⟨v, hv, hserves⟩ := hin
    rw [← hserves.sched, Scheduler.maxModelLen, hv.config]
  have hquiet : (∀ now, op ≠ .step now) → (op.run e).Hosts m := fun hne =>
    h.hosts.quiet (e.quiet_of_ne_step hne)
  cases op with
  | submit prompt params events sampler now =>
    exact ⟨hquiet (by simp), h.legible.submit hmaxLen events sampler now hop⟩
  | cancel id => exact ⟨hquiet (by simp), h.legible.leaves (fun _ => Leaves.cancel e id)⟩
  | receive id => exact ⟨hquiet (by simp), h.legible.leaves (fun _ => Leaves.receive e id)⟩
  | hangUp id => exact ⟨hquiet (by simp), h.legible.leaves (fun _ => Leaves.hangUp e id)⟩
  | step now =>
    have hmid := h.scheduled now
    show (e.step now).1.Ready m config
    rcases e.step_stages now with ⟨-, hstep⟩ | ⟨err, -, hstep⟩
      | ⟨b, -, ⟨err, -, hstep⟩ | ⟨out, hout, hlast⟩⟩
    · rw [hstep]
      exact ⟨hmid.hosts.quiet (quiet_reap _), hmid.legible.leaves (fun _ => Leaves.reap _)⟩
    · rw [hstep]
      exact hmid
    · rw [hstep]
      exact ⟨(hmid.hosts.runForward b).1, hmid.legible⟩
    obtain ⟨hhosts, kv, hkv, hpass⟩ := hmid.hosts.runForward b
    have hvocab := TransformerModel.vocabSize_of_forwardOn (TransformerModel.residualsFit hb) hkv
      (Prod.ext rfl ((hpass out).mp hout))
    have hin₃ := (hin.scheduled now).runForward b
    have hlegible : ((e.scheduled now).runForward b).1.Legible m.metadata.vocabSize
      (config.maxModelLen.getD usizeMax) := hmid.legible
    have hemit := (hlegible.emitRows hS out hvocab hb.consistent.vocab out.sequenceIds.zipIdx
      hin₃).1
    have hhosts' := hhosts.quiet (quiet_emitRows out out.sequenceIds.zipIdx _)
    rcases hlast with ⟨err, hstep⟩ | hstep
    · rw [hstep]
      exact ⟨hhosts', hemit⟩
    · rw [hstep]
      exact ⟨hhosts'.quiet ((quiet_publish _ _).trans (quiet_reap _)),
        (hemit.leaves (fun _ => Leaves.publish _ _)).leaves (fun _ => Leaves.reap _)⟩

/-- **Run lemma.** -/
theorem ReachableIf.ready (hS : Sampler.Picks S F) (hb : m.Built ffn)
    (h : e.ReachableIf (fun _ op => Readable m.metadata.vocabSize op) config n bs flag m
      firstId) :
    e.Ready m config := by
  induction h with
  | start => exact ⟨⟨m.kv, rfl, rfl⟩, fun q hq => absurd hq List.not_mem_nil⟩
  | step op h hop ih => exact ih.run hS hb h.reachable.inService hop

omit [Scalars F D] in
/-- A step whose rows are all emitted comes to its end. -/
theorem step_of_emitRows {M : Type*} [LanguageModel M F] {e : Engine M S} {now : Instant}
    (hne : (e.output now).isEmpty ≠ true) {b : ForwardBatch}
    (hb : buildBatch (e.scheduled now).scheduler (e.output now) = .ok b) {out : ForwardOutput F}
    (hout : ((e.scheduled now).runForward b).2 = .ok out)
    (hemit : (((e.scheduled now).runForward b).1.emitRows out out.sequenceIds.zipIdx).2
      = .ok ()) : (e.step now).2 = .ok out.sequenceIds.length := by
  have hserve : e.step now = if (e.output now).isEmpty then ((e.scheduled now).reap, .ok 0)
      else (e.scheduled now).serve (e.output now) := rfl
  rw [hserve, if_neg hne]
  unfold serve
  rw [hb]
  simp only
  split
  · next e' err hfwd =>
    rw [hfwd] at hout
    exact absurd hout (by simp)
  next e' out' hfwd =>
  rw [hfwd] at hout hemit
  obtain rfl := Except.ok.inj hout
  simp only at hemit
  split
  · next e'' err hfail =>
    rw [hfail] at hemit
    exact absurd hemit (by simp)
  · rfl

omit [Sampler S F] in
/-- **A batch with room comes back with logits**, one row for each sequence. -/
theorem Ready.forward (hb : m.Built ffn) (hsized : m.metadata.Sized) (hbs : 1 ≤ bs)
    (hn : n ≤ 2 ^ 32) (hsize : m.blockSize = bs) (hblocks : m.kv.numBlocks = n)
    (hmax : config.maxModelLen.getD usizeMax ≤ m.metadata.maxPositionEmbeddings)
    (hin : e.InService config n bs flag firstId) (h : e.Ready m config) {now : Instant}
    (hroom : Roomy (e.scheduled now).scheduler (e.output now)) {b : ForwardBatch}
    (hbuild : buildBatch (e.scheduled now).scheduler (e.output now) = .ok b) :
    ∃ out, ((e.scheduled now).runForward b).2 = .ok out
      ∧ out.Answers b m.metadata.vocabSize := by
  have hs := (hin.quiet (e.quiet_expire now)).sound hbs hn
  have hin₂ := hin.scheduled now
  have hready := h.scheduled now
  obtain rfl := buildBatch_eq_ofSlots hbuild
  have hgoing : ∀ q ∈ (e.scheduled now).scheduler.queue, q.state ≠ .finished → q.Going := by
    obtain ⟨v, hv, hserves⟩ := hin₂
    rw [← hserves.sched]
    exact hv.going
  have hcache := hin₂.cache hbs hn
  have hshaped := ForwardBatch.wellShaped_ofSlots (fun j hj =>
    shaped_jobs hs hroom hready.legible hgoing hmax (hcache.totalBlocks hbs hn) hj)
  rw [show (e.expire now).scheduler.schedule.1.cache.blockSize = bs from hcache.blockSize hbs hn,
    ← hsize, ← hblocks] at hshaped
  obtain ⟨-, kv, hkv, hpass⟩ := hready.hosts.runForward
    (.ofSlots ((jobsOf (e.scheduled now).scheduler (e.output now)).map Job.slot))
  obtain ⟨out, hout, hans⟩ :=
    (TransformerModel.forwardOn_answers_iff hb hshaped hkv).mpr (Or.inr hsized)
  exact ⟨out, (hpass out).mpr hout, hans⟩

/-- **A step with room comes to its end**, and says how many sequences ran. -/
theorem Ready.returns (hS : Sampler.Picks S F) (hb : m.Built ffn) (hsized : m.metadata.Sized)
    (hbs : 1 ≤ bs) (hn : n ≤ 2 ^ 32) (hsize : m.blockSize = bs) (hblocks : m.kv.numBlocks = n)
    (hmax : config.maxModelLen.getD usizeMax ≤ m.metadata.maxPositionEmbeddings)
    (hin : e.InService config n bs flag firstId) (h : e.Ready m config) {now : Instant}
    (hroom : Roomy (e.scheduled now).scheduler (e.output now)) :
    (e.step now).2 = .ok (served (e.scheduled now).scheduler (e.output now)).length := by
  have hs := (hin.quiet (e.quiet_expire now)).sound hbs hn
  obtain ⟨b, hresolved, -⟩ := (hs.accepted_iff.mpr hroom).resolved
  have hbuild : buildBatch (e.scheduled now).scheduler (e.output now) = .ok b := hresolved
  by_cases hempty : (e.output now).isEmpty = true
  · have hnil : (e.output now).scheduled = [] := List.isEmpty_iff.mp hempty
    have hstep : e.step now = ((e.scheduled now).reap, .ok 0) := if_pos hempty
    rw [hstep, served, hnil]
    rfl
  obtain ⟨out, hout, hans⟩ := h.forward hb hsized hbs hn hsize hblocks hmax hin hroom hbuild
  have hids : out.sequenceIds.length
      = (served (e.scheduled now).scheduler (e.output now)).length := by
    rw [hans.ids, buildBatch_eq_ofSlots hbuild]
    obtain ⟨-, -, -, hids, -⟩ := ForwardBatch.foldl_push ForwardBatch.aligned_empty
      ((jobsOf (e.scheduled now).scheduler (e.output now)).map Job.slot)
    rw [ForwardBatch.ofSlots, hids]
    show ([] ++ _ : List SequenceId).length = _
    rw [List.nil_append, List.length_map, List.length_map]
    exact (served_jobs hs hbuild).length_eq.symm
  have hin₃ := (hin.scheduled now).runForward b
  have hlegible : ((e.scheduled now).runForward b).1.Legible m.metadata.vocabSize
    (config.maxModelLen.getD usizeMax) := (h.scheduled now).legible
  rw [← hids]
  refine step_of_emitRows hempty hbuild hout ((hlegible.emitRows hS out hans.width
    hb.consistent.vocab out.sequenceIds.zipIdx hin₃).2 (fun x hx => ?_))
  obtain ⟨-, hi, -⟩ := List.mem_zipIdx hx
  rw [Nat.zero_add, hans.ids] at hi
  obtain ⟨l, hl, -⟩ := Option.map_eq_some_iff.mp (hans.length_row hi)
  exact ⟨l, hl⟩

end Run

end Engine

/-- **When a step returns**, and what: with a loaded model and a sampler that
picks a token from any row, in every run whose prompts are in the vocabulary
and whose requests add up, a step fails exactly when some entry of its batch
is of a sequence that is running and finished, or a decode entry whose position
– the one behind everything generated – is not within its block table. A step
that does not fail returns how many sequences ran. -/
theorem Engine.step_returns_iff {F D S : Type*} [Scalars F D] [Sampler S F]
    (hS : Sampler.Picks S F) {m : TransformerModel F} {ffn : ℕ} (hb : m.Built ffn)
    (hsized : m.metadata.Sized) {config : SchedulerConfig} {n bs firstId : ℕ} {flag : Bool}
    (hbs : 1 ≤ bs) (hn : n ≤ 2 ^ 32) (hsize : m.blockSize = bs) (hblocks : m.kv.numBlocks = n)
    (hmax : config.maxModelLen.getD usizeMax ≤ m.metadata.maxPositionEmbeddings)
    {e : Engine (TransformerModel F) S}
    (h : e.ReachableIf (fun _ op => Readable m.metadata.vocabSize op) config n bs flag m firstId)
    (now : Instant) (k : ℕ) :
    (e.step now).2 = .ok k ↔
      (∀ d ∈ (e.output now).scheduled, ∀ r ∈ (e.scheduled now).scheduler.running, r.id = d.id →
        r.state ≠ .finished ∧ (d.isPrefill = false → ∀ t,
          (e.scheduled now).scheduler.cache.blockTable r.id = some t →
          (r.prompt.length + r.output.length) % 2 ^ 32 < t.numBlocks * bs))
      ∧ k = (served (e.scheduled now).scheduler (e.output now)).length := by
  have hin := h.reachable.inService
  have hs := (hin.quiet (e.quiet_expire now)).sound hbs hn
  have hready := h.ready hS hb
  have hin₂ := hin.scheduled now
  have hbs' : (e.scheduled now).scheduler.cache.blockSize = bs :=
    (hin₂.cache hbs hn).blockSize hbs hn
  have hroomy : Roomy (e.scheduled now).scheduler (e.output now) ↔
      ∀ d ∈ (e.output now).scheduled, ∀ r ∈ (e.scheduled now).scheduler.running, r.id = d.id →
        r.state ≠ .finished ∧ (d.isPrefill = false → ∀ t,
          (e.scheduled now).scheduler.cache.blockTable r.id = some t →
          (r.prompt.length + r.output.length) % 2 ^ 32 < t.numBlocks * bs) := by
    unfold Roomy
    rw [hbs']
  rw [← hroomy]
  have hreturns : Roomy (e.scheduled now).scheduler (e.output now) → (e.step now).2
      = .ok (served (e.scheduled now).scheduler (e.output now)).length :=
    hready.returns hS hb hsized hbs hn hsize hblocks hmax hin
  refine ⟨fun hk => ?_, fun hk => hk.2 ▸ hreturns hk.1⟩
  have hroom : Roomy (e.scheduled now).scheduler (e.output now) := by
    rcases e.step_stages now with ⟨hempty, -⟩ | ⟨err, -, hstep⟩
      | ⟨b, hbuild, ⟨err, -, hstep⟩ | ⟨out, hout, -⟩⟩
    · have hnil : (e.output now).scheduled = [] := List.isEmpty_iff.mp hempty
      intro d hd
      rw [hnil] at hd
      exact absurd hd List.not_mem_nil
    · rw [hstep] at hk
      exact absurd hk (by simp)
    · rw [hstep] at hk
      exact absurd hk (by simp)
    obtain ⟨-, kv, hkv, hpass⟩ := (hready.scheduled now).hosts.runForward b
    obtain rfl := buildBatch_eq_ofSlots hbuild
    refine roomy_of_located hs hbuild (fun j hj row hrow => ?_)
    have hlocated := TransformerModel.located_of_forwardOn (TransformerModel.residualsFit hb) hkv
      (Prod.ext rfl ((hpass out).mp hout)) j hj row hrow
    rw [hsize, ← hbs'] at hlocated
    exact hlocated
  exact ⟨hroom, Except.ok.inj (hk.symm.trans (hreturns hroom))⟩

/-! ## The first decode step of one token -/

namespace TinyModel

/-- `fitting` with eight positions. -/
def longer : TransformerModel ℚ :=
  { fitting with
    metadata := { metadata with maxPositionEmbeddings := 8 }
    rope := ⟨List.replicate 8 1, List.replicate 8 0, 2, 8⟩ }

theorem built_longer : longer.Built 1 where
  consistent := {
    heads := one_ne_zero
    layers := one_ne_zero
    kvHeads := one_ne_zero
    grouped := rfl
    headDim := two_ne_zero
    vocab := one_ne_zero }
  shaped := {
    embedTokens := ⟨rfl, rfl⟩
    numLayers := rfl
    layers := List.forall_mem_singleton.mpr {
      inputNorm := rfl
      qProj := ⟨rfl, rfl⟩
      kProj := ⟨rfl, rfl⟩
      vProj := ⟨rfl, rfl⟩
      oProj := ⟨rfl, rfl⟩
      qBias := rfl
      kBias := rfl
      vBias := rfl
      postAttnNorm := rfl
      gateProj := ⟨rfl, rfl⟩
      upProj := ⟨rfl, rfl⟩
      downProj := ⟨rfl, rfl⟩ }
    finalNorm := rfl
    lmHead := fun _ h => absurd h (by simp [longer, fitting, model, weights]) }
  rope := rfl

theorem picks_firstToken : Sampler.Picks FirstToken ℚ :=
  fun _ _ _ _ hne => ⟨0, rfl, List.length_pos_of_ne_nil hne⟩

/-- A request for three tokens after a prompt of one. -/
def asked : Engine (TransformerModel ℚ) FirstToken :=
  EngineOp.runAll (.new (.new { maxModelLen := some 8 } (KvCacheManager.new 2 2 true)) longer 1)
    [.submit [0] { maxTokens := 3 } ⟨4, [], true⟩ .first 0]

/-- After its first token. -/
def answered : Engine (TransformerModel ℚ) FirstToken := EngineOp.runAll asked [.step 0]

end TinyModel

open TinyModel Engine in
/-- The prompt goes through, and the step for the second token fails: it asks
for position 2, and its table ends at 1. -/
theorem Engine.step_returns_iff_asked :
    (asked.step 0).2 = .ok 1 ∧ ∀ k, (answered.step 0).2 ≠ .ok k := by
  have hsized : longer.metadata.Sized := ⟨one_ne_zero, by decide⟩
  have hasked : asked.ReachableIf (fun _ op => Readable longer.metadata.vocabSize op)
      { maxModelLen := some 8 } 2 2 true longer 1 :=
    ReachableIf.start.step (.submit [0] { maxTokens := 3 } ⟨4, [], true⟩ FirstToken.first 0)
      ⟨List.forall_mem_singleton.mpr Nat.zero_lt_one, by decide⟩
  constructor
  · refine (step_returns_iff picks_firstToken built_longer hsized (by decide) (by decide) rfl rfl
      le_rfl hasked 0 1).mpr ⟨fun d hd r hr _ => ⟨?_, fun hdec => ?_⟩, by decide +kernel⟩
    · have hstate : ∀ r ∈ (asked.scheduled 0).scheduler.running, r.state ≠ .finished := by
        decide +kernel
      exact hstate r hr
    · have hprefill : ∀ d ∈ (asked.output 0).scheduled, d.isPrefill = true := by decide +kernel
      exact absurd ((hprefill d hd).symm.trans hdec) (by simp)
  · intro k hk
    have hanswered := hasked.step (.step 0) trivial
    obtain ⟨hroom, -⟩ := (step_returns_iff picks_firstToken built_longer hsized (by decide)
      (by decide) rfl rfl le_rfl hanswered 0 k).mp hk
    have hout : (answered.output 0).scheduled = [⟨⟨1⟩, 1, 2, false⟩] := by decide +kernel
    have hrun : (answered.scheduled 0).scheduler.running.map
        (fun r => (r.id, r.prompt.length + r.output.length)) = [(⟨1⟩, 2)] := by decide +kernel
    have htable : (answered.scheduled 0).scheduler.cache.blockTable ⟨1⟩ = some ⟨[⟨0⟩], 2⟩ := by
      decide +kernel
    obtain ⟨r, hr, hpair⟩ := List.mem_map.mp (hrun ▸ List.mem_singleton_self _)
    obtain ⟨hid, hlen⟩ := Prod.mk.inj hpair
    have hlt := (hroom ⟨⟨1⟩, 1, 2, false⟩ (hout ▸ List.mem_singleton_self _) r hr hid).2 rfl
      ⟨[⟨0⟩], 2⟩ (hid ▸ htable)
    rw [hlen] at hlt
    exact absurd hlt (by decide)
