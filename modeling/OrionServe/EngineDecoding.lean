import OrionServe.Decoding
import OrionServe.EngineReturns

/-!
# From the network to the client

In exact arithmetic, with the default sampler, the first token that a request
is sent is the one that the sampler draws from the logits of the decoder for
the prompt (`Engine.firstToken_decodes`): the layers of the server – queues,
chunks, shared blocks, batches, kernels – leave no trace in it. The engine
relates it to the transformer without a cache, and that is the decoder.

A run has to keep to what the server can do (`Engine.Served`). That its steps
come to their end is no part of it: they do, as long as there is room.
-/

namespace Engine

open Decoder TransformerModel

section Served

variable {F D S : Type*} [Scalars F D] [Sampler S F] {m : TransformerModel F} {ffn : ℕ}
  {config : SchedulerConfig} {n bs firstId : ℕ} {flag : Bool}
  {e : Engine (TransformerModel F) S}

/-- **An operation that the server keeps up with**: a request that the model can
read, or a step within bounds in which no chunk is left behind by the counter of
its sequence, and which has room for its entries if one is for a part of a
prompt. -/
def Served (vocab : ℕ) (e : Engine (TransformerModel F) S) : EngineOp S → Prop
  | .step now => Orderly (e.scheduled now).scheduler (e.output now)
    ∧ (∀ d ∈ (e.output now).scheduled, d.isPrefill = true →
        ∀ r ∈ (e.scheduled now).scheduler.running, r.id = d.id →
          r.computedPrefixLen ≤ d.startPosition + d.numTokens)
    ∧ (e.HasPrefill now → Roomy (e.scheduled now).scheduler (e.output now))
  | op => Readable vocab op

omit [Scalars F D] [Sampler S F] in
theorem Served.readable {vocab : ℕ} {op : EngineOp S} (h : e.Served vocab op) :
    Readable vocab op := by
  cases op with
  | step now => trivial
  | _ => exact h

/-- **It goes through.** -/
theorem Served.goesThrough (hS : Sampler.Picks S F) (hb : m.Built ffn)
    (hsized : m.metadata.Sized) (hbs : 1 ≤ bs) (hn : n ≤ 2 ^ 32) (hsize : m.blockSize = bs)
    (hblocks : m.kv.numBlocks = n)
    (hmax : config.maxModelLen.getD usizeMax ≤ m.metadata.maxPositionEmbeddings)
    (hin : e.InService config n bs flag firstId) (hready : e.Ready m config) {op : EngineOp S}
    (h : e.Served m.metadata.vocabSize op) : e.GoesThrough op := by
  cases op with
  | step now =>
    obtain ⟨ho, hreach, hroom⟩ := h
    exact ⟨ho, hreach, fun hpre =>
      ⟨_, hready.returns hS hb hsized hbs hn hsize hblocks hmax hin (hroom hpre)⟩⟩
  | _ => trivial

/-- A run that the server keeps up with. -/
theorem ReachableIf.ready_of_served (hS : Sampler.Picks S F) (hb : m.Built ffn)
    (h : e.ReachableIf (Served m.metadata.vocabSize) config n bs flag m firstId) :
    e.Ready m config := by
  induction h with
  | start => exact ReachableIf.start.ready hS hb
  | step op h hop ih => exact ih.run hS hb h.reachable.inService hop.readable

/-- **Such a run goes through.** -/
theorem ReachableIf.goesThrough (hS : Sampler.Picks S F) (hb : m.Built ffn)
    (hsized : m.metadata.Sized) (hbs : 1 ≤ bs) (hn : n ≤ 2 ^ 32) (hsize : m.blockSize = bs)
    (hblocks : m.kv.numBlocks = n)
    (hmax : config.maxModelLen.getD usizeMax ≤ m.metadata.maxPositionEmbeddings)
    (h : e.ReachableIf (Served m.metadata.vocabSize) config n bs flag m firstId) :
    e.ReachableIf GoesThrough config n bs flag m firstId := by
  induction h with
  | start => exact .start
  | step op h hop ih =>
    exact ih.step op (hop.goesThrough hS hb hsized hbs hn hsize hblocks hmax
      h.reachable.inService (h.ready_of_served hS hb))

/-- And so do further operations. -/
theorem Meets.goesThrough (hS : Sampler.Picks S F) (hb : m.Built ffn)
    (hsized : m.metadata.Sized) (hbs : 1 ≤ bs) (hn : n ≤ 2 ^ 32) (hsize : m.blockSize = bs)
    (hblocks : m.kv.numBlocks = n)
    (hmax : config.maxModelLen.getD usizeMax ≤ m.metadata.maxPositionEmbeddings)
    (ops : List (EngineOp S)) : ∀ {e : Engine (TransformerModel F) S},
      e.ReachableIf (Served m.metadata.vocabSize) config n bs flag m firstId →
      Meets (Served m.metadata.vocabSize) e ops → Meets GoesThrough e ops := by
  induction ops with
  | nil => exact fun _ _ => trivial
  | cons op ops ih =>
    intro e h hmeets
    obtain ⟨hop, hrest⟩ := hmeets
    exact ⟨hop.goesThrough hS hb hsized hbs hn hsize hblocks hmax h.reachable.inService
      (h.ready_of_served hS hb), ih (h.step op hop) hrest⟩

end Served

end Engine

open Decoder TransformerModel in
/-- **From the network to the client.** Take a model that was loaded, with exact
arithmetic, and any run that the server keeps up with: any other requests, in
the same batches and blocks, that the model can read. The first token that a
request is sent is the one the default sampler draws, with the first number of
its own generator and its own parameters, from the logits that the decoder has
at the last position of the prompt. The scheduler may not admit more positions
than the model has: otherwise a step fails for somebody else, and what it should
have written is read. -/
theorem Engine.firstToken_decodes {R : Type*} [RngLike R ℝ] [Scalars ℝ ℝ] [ExactScalars]
    [ops : LogitOps ℝ] {E : ExactArith ℝ} (hops : ops = ExactSampling.logitOps E)
    {m : TransformerModel ℝ} {ffn : ℕ} (hb : m.Built ffn) (hsized : m.metadata.Sized)
    {config : SchedulerConfig} {n bs firstId : ℕ} {flag : Bool} (hbs : 1 ≤ bs) (hn : n ≤ 2 ^ 32)
    (hsize : m.blockSize = bs) (hblocks : m.kv.numBlocks = n)
    (hmax : config.maxModelLen.getD usizeMax ≤ m.metadata.maxPositionEmbeddings)
    {e : Engine (TransformerModel ℝ) (DefaultSampler R)}
    (h : e.ReachableIf (Served m.metadata.vocabSize) config n bs flag m firstId)
    {prompt : List TokenId} {params : SamplingParams} {events : Channel} {s : DefaultSampler R}
    {now : Instant} {id : SequenceId}
    (hreadable : Readable m.metadata.vocabSize (.submit prompt params events s now))
    (hok : (e.submit prompt params events s now).2 = .ok id)
    (rest : List (EngineOp (DefaultSampler R)))
    (hrun : Meets (Served m.metadata.vocabSize) (e.submit prompt params events s now).1 rest)
    {t : TokenId}
    (ht : (tokensIn ((EngineOp.runAll (e.submit prompt params events s now).1 rest).eventsOf
      id)).head? = some t) :
    ExactSampling.sampleWith E (RngLike.random s.rng).2
      (row m.metadata.vocabSize ((m.decoder ffn).logits (textOf prompt) (prompt.length - 1)))
      prompt params = .ok t := by
  have hS : Sampler.Picks (DefaultSampler R) ℝ := by
    subst hops
    exact ExactSampling.picks E
  have hsubmit : (e.submit prompt params events s now).1.ReachableIf (Served m.metadata.vocabSize)
      config n bs flag m firstId := h.step (.submit prompt params events s now) hreadable
  have hthrough := hsubmit.goesThrough hS hb hsized hbs hn hsize hblocks hmax
  obtain ⟨hopens, hbegun⟩ :=
    opens_submit (L := fun l => m.logitsOf prompt = .ok l) h.reachable hok
  have hlife := lives_submit h.reachable.tracks hok
  obtain ⟨l, hl, hsample⟩ := (hopens.runAll hbs hn (residualsFit hb) hsize (head_shape hb).1 rest
    hthrough.inOrder hbegun hlife
    (Meets.goesThrough hS hb hsized hbs hn hsize hblocks hmax rest hsubmit hrun)).said t ht
  -- the transformer without a cache has no logits for no tokens
  have hne : prompt ≠ [] := by
    rintro rfl
    rw [logitsOf] at hl
    rcases hx : m.hiddenOf m.metadata.numLayers [] with err | x
    · rw [hx] at hl
      cases hl
    · exact absurd hx hiddenOf_nil
  have hlast : prompt.length - 1 + 1 = prompt.length :=
    Nat.sub_add_cancel (List.length_pos_of_ne_nil hne)
  have hrow : l = row m.metadata.vocabSize
      ((m.decoder ffn).logits (textOf prompt) (prompt.length - 1)) := by
    refine logitsOf_decodes hb (by omega) ?_
    rw [hlast, List.take_length]
    exact hl
  rw [← hrow]
  subst hops
  exact (ExactSampling.sample_eq_sampleWith E s l prompt params).symm.trans hsample

/-! ## Two requests over the reals -/

namespace Engine

/-- A sequence that is sampled is sent a token. -/
theorem exists_token_of_sampleAndEmit {M S F : Type*} [Sampler S F] {e : Engine M S}
    {id : SequenceId} (hnd : e.scheduler.ids.Nodup)
    (hseq : (e.scheduler.runningSequence id).isSome) (hreq : (e.active.lookup id).isSome)
    {logits : List F} (hok : (e.sampleAndEmit id logits).2 = .ok ()) :
    ∃ t, tokensIn ((e.sampleAndEmit id logits).1.eventsOf id)
      = tokensIn (e.eventsOf id) ++ [t] := by
  rcases e.sampleAndEmit_cases id logits with ⟨hnone | hnone, -⟩ | ⟨seq, req, hseq, -, hcases⟩
  · rw [hnone] at hseq
    exact absurd hseq (by simp)
  · rw [hnone] at hreq
    exact absurd hreq (by simp)
  rcases hcases with ⟨sampler, err, -, hfail⟩ | ⟨sampler, token, index, -, -, hend⟩
  · rw [hfail] at hok
    exact absurd hok (by simp)
  have hsaid := (tell_output req sampler token index hnd hseq).1
  refine ⟨token, ?_⟩
  rcases hend with hend | hend | ⟨reason, hend⟩
  · rw [hend, hsaid]
  · rw [hend, (Leaves.cancelSilently _ _).said, hsaid]
  · rw [hend, ← hsaid]
    exact (Leaves.sendLast _ _ (fun _ => ⟨_, _, _, rfl⟩)).said

end Engine

namespace RealModel

open ExactSampling Tensor Engine

/-- The model, with two blocks of two slots. -/
noncomputable def wider : TransformerModel ℝ :=
  let _ : Scalars ℝ ℝ := realScalars
  { model with
    kv := .new ⟨1, 2, 2, 1, 2⟩
    fits := rfl }

theorem built_wider : @TransformerModel.Built ℝ ℝ realScalars wider 1 :=
  let _ : Scalars ℝ ℝ := realScalars
  ⟨built.consistent, built.shaped, built.rope⟩

/-- A request for one token after a prompt of one. -/
noncomputable def request (token : TokenId) : EngineOp (DefaultSampler (NextDraw ℝ)) :=
  .submit [token] { maxTokens := 1 } ⟨4, [], true⟩ ⟨⟨0⟩⟩ 0

/-- A server of the model, whose first request was cancelled. -/
noncomputable def server : Engine (TransformerModel ℝ) (DefaultSampler (NextDraw ℝ)) :=
  let _ : Scalars ℝ ℝ := realScalars
  let _ : LogitOps ℝ := logitOps realArith
  EngineOp.runAll
    (.new (.new { maxModelLen := some 2 } (KvCacheManager.new 2 2 true)) wider 1)
    [request 0, .cancel ⟨1⟩]

/-- The server with the request for the token `1`. -/
noncomputable def asked : Engine (TransformerModel ℝ) (DefaultSampler (NextDraw ℝ)) :=
  (server.submit [1] { maxTokens := 1 } ⟨4, [], true⟩ ⟨⟨0⟩⟩ 0).1

/-- And another one, that will be in the same batch. -/
noncomputable def joined : Engine (TransformerModel ℝ) (DefaultSampler (NextDraw ℝ)) :=
  (asked.submit [0] { maxTokens := 1 } ⟨4, [], true⟩ ⟨⟨0⟩⟩ 0).1

theorem readable_request (token : TokenId) (h : token.toNat < 2) :
    Readable wider.metadata.vocabSize (request token) :=
  ⟨List.forall_mem_singleton.mpr h, show 1 + 1 < 2 ^ 64 by decide⟩

theorem roomy_joined : Engine.Roomy (joined.scheduled 0).scheduler (joined.output 0) := by
  intro d hd r hr _
  have hstate : ∀ r ∈ (joined.scheduled 0).scheduler.running, r.state ≠ .finished := by
    decide +kernel
  have hprefill : ∀ d ∈ (joined.output 0).scheduled, d.isPrefill = true := by decide +kernel
  exact ⟨hstate r hr, fun hdec => absurd ((hprefill d hd).symm.trans hdec) (by simp)⟩

theorem noCollisions_joined : KvCacheManager.NoCollisions
    (joined.scheduled 0).scheduler.cache.blockSize
      (joined.scheduled 0).scheduler.cache.trace := by
  have hsize : (joined.scheduled 0).scheduler.cache.blockSize = 2 := by decide +kernel
  have htrace : (joined.scheduled 0).scheduler.cache.trace
      = [.handedOut ⟨3⟩ ⟨1⟩, .opened ⟨3⟩ [0], .handedOut ⟨2⟩ ⟨0⟩, .opened ⟨2⟩ [1]] := by
    decide +kernel
  rw [hsize, htrace]
  -- no prompt fills a block
  rintro s p t q hp - i j hj
  have hlen : p.length = 1 := by
    rcases (by simpa using hp : s = ⟨3⟩ ∧ p = [0] ∨ s = ⟨2⟩ ∧ p = [1]) with
      ⟨-, rfl⟩ | ⟨-, rfl⟩
    · rfl
    · rfl
  rw [hlen] at hj
  omega

theorem served_joined : joined.Served 2 (.step 0) :=
  ⟨⟨by decide +kernel, by decide +kernel, noCollisions_joined⟩, by decide +kernel,
    fun _ => roomy_joined⟩

/-- The batch of the two. -/
def joinedBatch : ForwardBatch :=
  ⟨[1, 0], [0, 0], [⟨2⟩, ⟨3⟩], [1, 1], [1, 1], [[⟨0⟩], [⟨1⟩]], true⟩

/-- The operations up to there. -/
theorem reachable_server :
    let _ : Scalars ℝ ℝ := realScalars
    let _ : LogitOps ℝ := logitOps realArith
    server.ReachableIf (Served wider.metadata.vocabSize) { maxModelLen := some 2 } 2 2 true wider
      1 :=
  let _ : Scalars ℝ ℝ := realScalars
  let _ : LogitOps ℝ := logitOps realArith
  (ReachableIf.start.step (request 0) (readable_request 0 Nat.zero_lt_two)).step
    (.cancel ⟨1⟩) trivial

/-- The step sends the first of the two a token. -/
theorem exists_token_joined :
    let _ : Scalars ℝ ℝ := realScalars
    let _ : LogitOps ℝ := logitOps realArith
    ∃ t, tokensIn ((joined.step 0).1.eventsOf ⟨2⟩) = [t] := by
  intro scalars ops
  have hS : Sampler.Picks (DefaultSampler (NextDraw ℝ)) ℝ := picks realArith
  have hjoined : joined.ReachableIf (Served wider.metadata.vocabSize)
      { maxModelLen := some 2 } 2 2 true wider 1 :=
    (reachable_server.step (request 1) (readable_request 1 Nat.one_lt_two)).step (request 0)
      (readable_request 0 Nat.zero_lt_two)
  have hin := hjoined.reachable.inService
  have hready := hjoined.ready_of_served hS built_wider
  have hbuild : Engine.buildBatch (joined.scheduled 0).scheduler (joined.output 0)
      = .ok joinedBatch := by decide +kernel
  obtain ⟨out, hout, hans⟩ := hready.forward built_wider ⟨one_ne_zero, by decide⟩ (by decide)
    (by decide) rfl rfl le_rfl hin roomy_joined hbuild
  set e := ((joined.scheduled 0).runForward joinedBatch).1 with he
  have hids : out.sequenceIds = [⟨2⟩, ⟨3⟩] := hans.ids
  have hin₃ : e.InService { maxModelLen := some 2 } 2 2 true 1 :=
    (hin.scheduled 0).runForward joinedBatch
  have hlegible : e.Legible 2 2 := (hready.scheduled 0).legible
  have hemit := (hlegible.emitRows hS out hans.width two_ne_zero [(⟨2⟩, 0), (⟨3⟩, 1)] hin₃).2
    (fun x hx => by
      have hrow : x.2 < 2 := by
        rcases List.mem_pair.mp hx with rfl | rfl
        · exact Nat.zero_lt_two
        · exact Nat.one_lt_two
      obtain ⟨l, hl, -⟩ := Option.map_eq_some_iff.mp (hans.length_row hrow)
      exact ⟨l, hl⟩)
  -- what is left of the step says nothing more
  have hrest : tokensIn ((joined.step 0).1.eventsOf ⟨2⟩)
      = tokensIn ((e.emitRows out [(⟨2⟩, 0), (⟨3⟩, 1)]).1.eventsOf ⟨2⟩) := by
    rcases joined.step_stages 0 with ⟨hempty, -⟩ | ⟨err, hfail, -⟩
      | ⟨b, hb, ⟨err, hfail, -⟩ | ⟨out', hout', hlast⟩⟩
    · have hsome : (joined.output 0).isEmpty = false := by decide +kernel
      exact absurd (hempty.symm.trans hsome) (by simp)
    · exact absurd (hfail.symm.trans hbuild) (by simp)
    · obtain rfl := Except.ok.inj (hb.symm.trans hbuild)
      exact absurd (hfail.symm.trans hout) (by simp)
    obtain rfl := Except.ok.inj (hb.symm.trans hbuild)
    obtain rfl := Except.ok.inj (hout'.symm.trans hout)
    rw [hids] at hlast
    rcases hlast with ⟨err, hstep⟩ | hstep
    · rw [hstep]
      rfl
    · rw [hstep, (Leaves.reap _).said, (Leaves.publish _ _).said]
      rfl
  rw [hrest]
  rcases e.emitRows_cases out ⟨2⟩ 0 [(⟨3⟩, 1)] with ⟨q, hq, hmid, -⟩ | ⟨err, hfail⟩
    | ⟨l, -, -, ⟨err, hfail, hrow⟩ | ⟨hok, hrow⟩⟩
  · have hthrough : ∀ q ∈ (joined.scheduled 0).scheduler.running,
        q.isPrefillComplete = true := by decide +kernel
    exact absurd ((hthrough q (List.mem_of_findKey hq)).symm.trans hmid) (by simp)
  · rw [hfail] at hemit
    exact absurd hemit (by simp)
  · rw [hrow] at hemit
    exact absurd hemit (by simp)
  · have hseq : ((joined.scheduled 0).scheduler.runningSequence ⟨2⟩).isSome = true := by
      decide +kernel
    have hreq : ((joined.scheduled 0).active.lookup ⟨2⟩).isSome = true := by decide +kernel
    obtain ⟨t, ht⟩ := exists_token_of_sampleAndEmit hin₃.nodup hseq hreq hok
    have htracks : e.Tracks [] [] := (hjoined.reachable.tracks.scheduled 0).congr rfl rfl rfl rfl
    -- the other row is another request's
    have hother : (e.sampleAndEmit ⟨2⟩ l).1.Leaves ⟨2⟩
        ((e.sampleAndEmit ⟨2⟩ l).1.emitRows out [(⟨3⟩, 1)]).1 :=
      Leaves.emitRows out [(⟨3⟩, 1)] (htracks.sampleAndEmit ⟨2⟩ l) (by decide)
    refine ⟨t, ?_⟩
    rw [hrow, hother.said, ht]
    rfl

end RealModel

open RealModel ExactSampling Tensor in
/-- The answer to one token, in a batch with another request and after one that
was cancelled, is drawn from the decoder's logits for it alone. -/
theorem Engine.firstToken_decodes_one :
    let _ : Scalars ℝ ℝ := realScalars
    let _ : LogitOps ℝ := logitOps realArith
    (joined.output 0).scheduled = [⟨⟨2⟩, 1, 0, true⟩, ⟨⟨3⟩, 1, 0, true⟩]
    ∧ ∃ t, tokensIn ((EngineOp.runAll asked [request 0, .step 0]).eventsOf ⟨2⟩) = [t]
      ∧ sampleWith realArith 0 (Decoder.row wider.metadata.vocabSize
        ((wider.decoder 1).logits (TransformerModel.textOf [1]) 0)) [1] { maxTokens := 1 }
        = .ok t := by
  intro scalars ops
  have _ : ExactScalars := exactScalars_realScalars
  obtain ⟨t, ht⟩ := exists_token_joined
  have hok : (server.submit [1] { maxTokens := 1 } ⟨4, [], true⟩ ⟨⟨0⟩⟩ 0).2 = .ok ⟨2⟩ := by
    decide +kernel
  have hrun : Meets (Served 2) asked [request 0, .step 0] :=
    ⟨readable_request 0 Nat.zero_lt_two, served_joined, trivial⟩
  exact ⟨by decide +kernel, t, ht, firstToken_decodes rfl built_wider ⟨one_ne_zero, by decide⟩
    (by decide) (by decide) rfl rfl le_rfl (e := server) reachable_server
    (readable_request 1 Nat.one_lt_two) hok [request 0, .step 0] hrun (congrArg List.head? ht)⟩
