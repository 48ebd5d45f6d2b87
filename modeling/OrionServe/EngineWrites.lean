import OrionServe.EngineSlots
import OrionServe.SchedulerReuse

/-!
# What the forward passes have written

A row of a forward pass writes the KV entry of one token: into the slot that
its position has in the block table it comes with. The history of the
forward passes and the one of the cache together say what is in a slot. A
pass has a *stamp*, the length of the cache's history at the time, so the
events since then are those that are newer.

`commit_prefill` publishes blocks on the word of a counter, and the counter
goes up when a chunk is *scheduled*. As long as every batch with a part of a
prompt reaches the model and comes back with logits, what the counter says
was computed was computed, and the index names blocks with KV entries in
every slot. When one does not, the step returns early, the counter stays
where it is, and the blocks of the lost chunk are published when the last
chunk is through.
-/

/-- The events of a history that came after its first `stamp`. -/
def eventsAfter (stamp : ℕ) (trace : List BlockEvent) : List BlockEvent :=
  trace.take (trace.length - stamp)

/-- Newer events, and the older ones. -/
theorem mem_eventsAfter_append {stamp : ℕ} {new trace : List BlockEvent} {x : BlockEvent}
    (hx : x ∈ eventsAfter stamp (new ++ trace)) : x ∈ new ∨ x ∈ eventsAfter stamp trace := by
  unfold eventsAfter at hx ⊢
  rw [List.take_append, List.length_append] at hx
  refine (List.mem_append.mp hx).imp List.mem_of_mem_take (fun hx => ?_)
  rw [show new.length + trace.length - stamp - new.length = trace.length - stamp by omega] at hx
  exact hx

/-- Nothing is newer than the end of the history. -/
theorem eventsAfter_length (trace : List BlockEvent) : eventsAfter trace.length trace = [] := by
  unfold eventsAfter
  rw [Nat.sub_self, List.take_zero]

/-- **A slot was written** by a forward pass that succeeded, for this token at
this position of this sequence, and all that happened to the cache since then
is a `K`. -/
def Written (K : BlockEvent → Prop) (bs : ℕ) (fs : List ForwardPass) (trace : List BlockEvent)
    (id : SequenceId) (token : TokenId) (position : ℕ) (slot : BlockId × ℕ) : Prop :=
  ∃ f ∈ fs, f.succeeded = true ∧ (∀ x ∈ eventsAfter f.stamp trace, K x)
    ∧ ∃ row ∈ f.batch.rows, row.id = id ∧ row.token = token ∧ row.position = position
      ∧ locate row.table row.position bs = some slot

namespace Written

variable {K K' : BlockEvent → Prop} {bs : ℕ} {fs fs' : List ForwardPass}
  {trace new : List BlockEvent} {id : SequenceId} {token : TokenId} {position : ℕ}
  {slot : BlockId × ℕ}

/-- Harmless events. -/
theorem append (h : Written K bs fs trace id token position slot) (hnew : ∀ x ∈ new, K x) :
    Written K bs fs (new ++ trace) id token position slot := by
  obtain ⟨f, hf, hok, hsince, hrow⟩ := h
  exact ⟨f, hf, hok, fun x hx => (mem_eventsAfter_append hx).elim (hnew x) (hsince x), hrow⟩

/-- More forward passes. -/
theorem later (h : Written K bs fs trace id token position slot) (hsub : fs ⊆ fs') :
    Written K bs fs' trace id token position slot := by
  obtain ⟨f, hf, hrest⟩ := h
  exact ⟨f, hsub hf, hrest⟩

theorem mono (h : Written K bs fs trace id token position slot) (hK : ∀ x, K x → K' x) :
    Written K' bs fs trace id token position slot := by
  obtain ⟨f, hf, hok, hsince, hrow⟩ := h
  exact ⟨f, hf, hok, fun x hx => hK x (hsince x hx), hrow⟩

end Written

/-! ## The computed part of a prompt -/

/-- An event that leaves a sequence its table and a block its contents. -/
def KeepsTo (id : SequenceId) (b : BlockId) (e : BlockEvent) : Prop :=
  e.fresh ≠ some b ∧ ∀ p, e ≠ .opened id p

/-- **A position of a prompt is in the cache**: it was written where the block
table has it, since the table was opened and the block handed out. -/
def InCache (fs : List ForwardPass) (m : KvCacheManager) (r : Sequence) (q : ℕ) : Prop :=
  ∃ b token, m.Occurs r.id (q / m.blockSize) b ∧ r.prompt[q]? = some token
    ∧ Written (KeepsTo r.id b) m.blockSize fs m.trace r.id token q (b, q % m.blockSize)

/-- **Published blocks are computed**: every slot was written for the sequence
that published the block, since it was handed out. -/
def PublishedWritten (fs : List ForwardPass) (m : KvCacheManager) : Prop :=
  ∀ s p i b, Since (fun e => e = .published s p i b) (fun e => e.fresh ≠ some b) m.trace →
    ∀ off < m.blockSize, ∃ token, p[i * m.blockSize + off]? = some token
      ∧ Written (fun e => e.fresh ≠ some b) m.blockSize fs m.trace s token
        (i * m.blockSize + off) (b, off)

/-- **What counts as computed was computed.** -/
structure Scheduler.Computed (fs : List ForwardPass) (s : Scheduler KvCacheManager) : Prop where
  running : ∀ r ∈ s.running, s.cache.isAllocated r.id = true →
    ∀ q < r.computedPrefixLen, InCache fs s.cache r q
  published : PublishedWritten fs s.cache

/-- The same in the middle of a call, when the entries made so far are still
to be computed. -/
structure Pass.Computed (fs : List ForwardPass) (p : Pass KvCacheManager) : Prop where
  running : ∀ r ∈ p.sched.running, p.sched.cache.isAllocated r.id = true →
    ∀ q < r.computedPrefixLen, InCache fs p.sched.cache r q
      ∨ ∃ d ∈ p.out.scheduled, d.id = r.id ∧ d.isPrefill = true ∧ Span.Contains d.span q
  published : PublishedWritten fs p.sched.cache

namespace InCache

variable {fs fs' : List ForwardPass} {m m' : KvCacheManager} {r r' : Sequence} {q : ℕ}

/-- A table that keeps its blocks, and events that leave them alone. -/
theorem frame (h : InCache fs m r q) (hid : r'.id = r.id) (hprompt : r'.prompt = r.prompt)
    (hbs : m'.blockSize = m.blockSize) {new : List BlockEvent}
    (htr : m'.trace = new ++ m.trace)
    (hplace : ∀ {i b}, m.Occurs r.id i b → m'.Occurs r.id i b)
    (hnew : ∀ {i b}, m.Occurs r.id i b → ∀ x ∈ new, KeepsTo r.id b x) : InCache fs m' r' q := by
  obtain ⟨b, token, ho, htoken, hw⟩ := h
  unfold InCache
  rw [hid, hprompt, hbs, htr]
  exact ⟨b, token, hplace ho, htoken, hw.append (hnew ho)⟩

theorem later (h : InCache fs m r q) (hsub : fs ⊆ fs') : InCache fs' m r q := by
  obtain ⟨b, token, ho, htoken, hw⟩ := h
  exact ⟨b, token, ho, htoken, hw.later hsub⟩

end InCache

namespace PublishedWritten

variable {fs fs' : List ForwardPass} {m m' : KvCacheManager}

theorem later (h : PublishedWritten fs m) (hsub : fs ⊆ fs') : PublishedWritten fs' m := by
  intro s p i b hs off hoff
  obtain ⟨token, htoken, hw⟩ := h s p i b hs off hoff
  exact ⟨token, htoken, hw.later hsub⟩

/-- Events of which none publishes a block. -/
theorem append (h : PublishedWritten fs m) (hbs : m'.blockSize = m.blockSize)
    {new : List BlockEvent} (htr : m'.trace = new ++ m.trace)
    (hnew : ∀ e ∈ new, ∀ b, ¬ KvCacheManager.PublishesBlock b e) : PublishedWritten fs m' := by
  intro s p i b hs off hoff
  rw [htr] at hs
  rw [hbs] at hoff ⊢
  have hno : ∀ x ∈ new, ¬ x = .published s p i b := by
    rintro x hx rfl
    exact hnew _ hx b rfl
  obtain ⟨hkeep, hpast⟩ := hs.before hno
  obtain ⟨token, htoken, hw⟩ := h s p i b hpast off hoff
  rw [htr]
  exact ⟨token, htoken, hw.append hkeep⟩

/-- **A commit of a computed prompt.** -/
theorem commit (h : PublishedWritten fs m) {r : Sequence}
    (hbs : 0 < m.blockSize) (hsize : m'.blockSize = m.blockSize)
    (hr : m.isAllocated r.id = true → ∀ q < r.prompt.length, InCache fs m r q)
    {new : List BlockEvent} (htr : m'.trace = new ++ m.trace)
    (hnew : ∀ e ∈ new, ∃ i b, e = .published r.id r.prompt i b ∧ m.Occurs r.id i b
      ∧ (i + 1) * m.blockSize ≤ r.prompt.length) : PublishedWritten fs m' := by
  intro s p i b hs off hoff
  rw [htr] at hs
  rw [hsize] at hoff ⊢
  have hplain : ∀ x ∈ new, x.fresh ≠ some b := by
    intro x hx
    obtain ⟨j, c, rfl, -⟩ := hnew x hx
    simp [BlockEvent.fresh]
  rw [htr]
  by_cases hmem : .published s p i b ∈ new
  · obtain ⟨j, c, heq, ho, hfull⟩ := hnew _ hmem
    obtain ⟨rfl, rfl, rfl, rfl⟩ := BlockEvent.published.inj heq
    have hlt : i * m.blockSize + off < r.prompt.length := by
      rw [Nat.succ_mul] at hfull
      omega
    have hdiv : (i * m.blockSize + off) / m.blockSize = i := by
      rw [Nat.mul_comm, Nat.mul_add_div hbs, Nat.div_eq_of_lt hoff, Nat.add_zero]
    have hmod : (i * m.blockSize + off) % m.blockSize = off := by
      rw [Nat.mul_comm, Nat.mul_add_mod, Nat.mod_eq_of_lt hoff]
    have hhas : m.isAllocated r.id = true := by
      obtain ⟨t, ht, -⟩ := ho
      exact Option.isSome_iff_exists.mpr ⟨t, ht⟩
    obtain ⟨c, token, ho', htoken, hw⟩ := hr hhas _ hlt
    rw [hdiv] at ho'
    rw [hmod] at hw
    -- the table has one block at this place
    obtain rfl : c = b := by
      obtain ⟨t, ht, hc⟩ := ho'
      obtain ⟨u, hu, hb⟩ := ho
      obtain rfl := Option.some.inj (ht.symm.trans hu)
      exact Option.some.inj (hc.symm.trans hb)
    exact ⟨token, htoken, (hw.mono (fun x hx => hx.1)).append hplain⟩
  · have hno : ∀ x ∈ new, ¬ x = .published s p i b := fun x hx heq => hmem (heq ▸ hx)
    obtain ⟨token, htoken, hw⟩ := h s p i b (hs.before hno).2 off hoff
    exact ⟨token, htoken, hw.append hplain⟩

end PublishedWritten

/-! ## A scheduling call -/

namespace PassMove

variable {p p' : Pass KvCacheManager}

/-- **What a move does to the cache's history**: a block handed out was in
nobody's table, and a table opened is for the prompt of a sequence that was
waiting. -/
theorem cacheEvents (hm : PassMove p p') (h : p.sched.Sound) :
    ∃ new, p'.sched.cache.trace = new ++ p.sched.cache.trace
      ∧ (∀ e ∈ new, ∀ b, ¬ KvCacheManager.PublishesBlock b e)
      ∧ (∀ e ∈ new, ∀ b ∈ p.sched.cache.held, e.fresh ≠ some b)
      ∧ ∀ e ∈ new, ∀ id prompt, e = .opened id prompt →
        ∃ w ∈ p.sched.waiting, w.id = id ∧ w.prompt = prompt := by
  obtain ⟨new, htr, hpub⟩ := hm.cacheTrace h
  have hcall : ∀ op : CacheOp, (op.run p.sched.cache).trace = new ++ p.sched.cache.trace →
      ∀ e ∈ new, ∀ b ∈ p.sched.cache.held, e.fresh ≠ some b := by
    intro op htr e he b hb hfresh
    exact (h.settled.handedOut op htr).2 b (List.mem_filterMap.mpr ⟨e, he, hfresh⟩) hb
  have hsame : p'.sched.cache = p.sched.cache → new = [] := fun hc => by
    rw [hc] at htr
    exact List.self_eq_append_left.mp htr
  refine ⟨new, htr, hpub, ?_⟩
  cases hm with
  | refused answer result =>
    obtain rfl := KvCacheManager.like_appendToken_error h.settled answer
    rw [hsame (by rw [result]; rfl)]
    simp
  | @decoded id totalLen c room answer cand result =>
    obtain ⟨-, t, t', happ⟩ := KvCacheManager.like_appendToken_ok h.settled answer
    obtain ⟨new', htr', hnew⟩ := happ.trace
    obtain rfl := congrArg Prod.fst answer
    rw [result] at htr
    refine ⟨hcall (.appendToken id) htr, fun e he q prompt heq => ?_⟩
    obtain rfl : new = new' := List.append_cancel_right (htr.symm.trans htr')
    rcases hnew e he with ⟨blk, rfl⟩ | ⟨blk, rfl⟩ <;> exact absurd heq (by simp)
  | evicted result =>
    obtain ⟨older, victim, -, rfl⟩ := Pass.preemptOne_eq_some result
    obtain ⟨new', htr', hnew⟩ := p.sched.cache.free_trace victim.id
    obtain rfl : new = new' := List.append_cancel_right (htr.symm.trans htr')
    refine ⟨hcall (.free victim.id) htr, fun e he q prompt heq => ?_⟩
    rw [hnew e he] at heq
    exact absurd heq (by simp)
  | resumed found cand pos room result =>
    rw [hsame (by rw [result]; rfl)]
    simp
  | @admitted seq rest chunk c head first slot pos left room answer result =>
    obtain ⟨new', htr', hnew⟩ := KvCacheManager.like_allocate_trace answer
    obtain rfl := congrArg Prod.fst answer
    rw [result] at htr
    refine ⟨hcall (.allocate seq.id seq.prompt) htr, fun e he q prompt heq => ?_⟩
    obtain rfl : new = new' ++ [.opened seq.id seq.prompt] := by
      refine List.append_cancel_right (htr.symm.trans ?_)
      rw [List.append_assoc]
      exact htr'
    rcases List.mem_append.mp he with he | he
    · rcases hnew e he with ⟨k, blk, rfl⟩ | ⟨blk, rfl⟩ <;> exact absurd heq (by simp)
    · obtain ⟨rfl, rfl⟩ := BlockEvent.opened.inj ((List.mem_singleton.mp he).symm.trans heq)
      exact ⟨seq, head ▸ List.mem_cons_self, rfl, rfl⟩
  | readmitted head started slot pos left room result =>
    rw [hsame (by rw [result]; rfl)]
    simp
  | putBack head available answer result =>
    exact absurd answer (h.allocate_ne_error (head ▸ List.mem_cons_self) available)

/-- **Step lemma.** An entry is made for what is then counted as computed. -/
theorem computed {fs : List ForwardPass} (hm : PassMove p p') (hs : p.sched.Sound)
    (h : p.Computed fs) : p'.Computed fs := by
  have hbs : p'.sched.cache.blockSize = p.sched.cache.blockSize :=
    PassMoves.blockSize (.single hm) hs
  obtain ⟨new, htr, hpub, hfresh, hopen⟩ := hm.cacheEvents hs
  -- whoever was running and keeps its places
  have hkeep : ∀ {r r' : Sequence}, r ∈ p.sched.running → r'.id = r.id → r'.prompt = r.prompt →
      (∀ {i b}, p.sched.cache.Occurs r.id i b → p'.sched.cache.Occurs r.id i b) →
      p.sched.cache.isAllocated r.id = true → p.out.scheduled ⊆ p'.out.scheduled →
      ∀ q < r.computedPrefixLen, InCache fs p'.sched.cache r' q
        ∨ ∃ d ∈ p'.out.scheduled, d.id = r'.id ∧ d.isPrefill = true ∧ Span.Contains d.span q := by
    intro r r' hr hid hprompt hplace hhas hout q hq
    refine (h.running r hr hhas q hq).imp (fun hin => ?_) (fun ⟨d, hd, hdid, hd'⟩ =>
      ⟨d, hout hd, hdid.trans hid.symm, hd'⟩)
    refine hin.frame hid hprompt hbs htr hplace (fun ho x hx => ⟨hfresh x hx _ ho.mem_held, ?_⟩)
    rintro prompt rfl
    obtain ⟨w, hw, hwid, -⟩ := hopen _ hx r.id prompt rfl
    exact hs.apart hr hw hwid.symm
  -- in particular when its table is left alone
  have hother : ∀ {r : Sequence}, r ∈ p.sched.running →
      p'.sched.cache.tables.lookup r.id = p.sched.cache.tables.lookup r.id →
      p.out.scheduled ⊆ p'.out.scheduled → p'.sched.cache.isAllocated r.id = true →
      ∀ q < r.computedPrefixLen, InCache fs p'.sched.cache r q
        ∨ ∃ d ∈ p'.out.scheduled, d.id = r.id ∧ d.isPrefill = true ∧ Span.Contains d.span q := by
    intro r hr htable hout hhas
    refine hkeep hr rfl rfl (fun ho => ?_) ?_ hout
    · unfold KvCacheManager.Occurs
      rw [htable]
      exact ho
    · unfold KvCacheManager.isAllocated KvCacheManager.blockTable at hhas ⊢
      rw [← htable]
      exact hhas
  refine ⟨?_, h.published.append hbs htr hpub⟩
  cases hm with
  | refused answer result =>
    obtain rfl := KvCacheManager.like_appendToken_error hs.settled answer
    rw [result]
    exact h.running
  | @decoded id totalLen c room answer cand result =>
    obtain ⟨-, t, t', happ⟩ := KvCacheManager.like_appendToken_ok hs.settled answer
    rw [result] at hkeep hother ⊢
    intro r hr hhas
    have hout : p.out.scheduled ⊆ p.out.scheduled ++ [Pass.decodeEntry id totalLen] :=
      List.subset_append_left _ _
    by_cases hid : r.id = id
    · subst hid
      refine hkeep hr rfl rfl (fun {i b} ho => ?_) (Option.isSome_iff_exists.mpr ⟨t, happ.table⟩)
        hout
      obtain ⟨u, hu, hb⟩ := ho
      obtain rfl := Option.some.inj (happ.table.symm.trans hu)
      have htable : c.tables.lookup r.id = some t' := by rw [happ.tables, AList.lookup_insert]
      refine ⟨t', htable, ?_⟩
      rcases happ.blocks with ⟨-, hblocks⟩ | ⟨-, blk, hblocks⟩
      · rw [hblocks]
        exact hb
      · rw [hblocks, List.getElem?_append_left (List.getElem?_eq_some_iff.mp hb).1]
        exact hb
    · refine hother hr ?_ hout hhas
      show c.tables.lookup r.id = _
      rw [happ.tables, AList.lookup_insert_ne hid]
  | evicted result =>
    obtain ⟨older, victim, hrun, rfl⟩ := Pass.preemptOne_eq_some result
    intro r hr hhas
    have hmem : r ∈ p.sched.running := by
      rw [hrun]
      exact List.mem_append_left _ hr
    refine hother hmem ?_ (List.Subset.refl _) hhas
    have hne : r.id ≠ victim.id :=
      List.key_ne_of_append (hrun ▸ hs.nodup_running) hr (List.mem_singleton_self _)
    show (p.sched.cache.free victim.id).tables.lookup r.id = _
    rw [KvCacheManager.free_tables, AList.lookup_erase_ne hne]
  | @resumed seq chunk already found cand pos room result =>
    have hmem := List.mem_of_findKey found
    obtain ⟨hstate, rfl, hle⟩ := cand hs.nodup
    have hsum : seq.computedPrefixLen + chunk ≤ seq.prompt.length := by
      have hrem : seq.remainingPrefill = seq.prompt.length - seq.computedPrefixLen := rfl
      omega
    rw [result] at hkeep hother ⊢
    have hout : p.out.scheduled
        ⊆ p.out.scheduled ++ [⟨seq.id, chunk, seq.computedPrefixLen, true⟩] :=
      List.subset_append_left _ _
    intro r hr hhas
    rcases List.mem_updateKey hs.nodup_running hr with ⟨hr, -⟩ | ⟨a, ha, hid, rfl⟩
    · exact hother hr rfl hout hhas
    · obtain rfl : a = seq := List.eq_of_key_eq hs.nodup_running ha hmem hid
      rw [(Pass.resumed_inStage hstate hsum).1]
      intro q hq
      rw [Pass.resumed_id] at hhas
      rcases lt_or_ge q a.computedPrefixLen with hlt | hge
      · exact hkeep ha (Pass.resumed_id _ _) (Pass.resumed_prompt _ _) (fun ho => ho) hhas hout q
          hlt
      · refine Or.inr ⟨_, List.mem_append_right _ (List.mem_singleton_self _), ?_, rfl, hge, hq⟩
        exact (Pass.resumed_id _ _).symm
  | @admitted seq rest chunk c head first slot pos left room answer result =>
    have hmem : seq ∈ p.sched.waiting := head ▸ List.mem_cons_self
    obtain ⟨hstate, -, -⟩ := hs.atStart_of_zero hmem first
    obtain ⟨-, t, hadm⟩ := KvCacheManager.like_allocate_ok hs.settled answer
    rw [result] at hother ⊢
    intro r hr hhas
    rcases List.mem_append.mp hr with hr | hr
    · refine hother hr ?_ (List.subset_append_left _ _) hhas
      show c.tables.lookup r.id = _
      rw [hadm.tables, AList.lookup_insert_ne (hs.apart hr hmem)]
    · obtain rfl := List.mem_singleton.mp hr
      rw [(Pass.prefilled_inStage hstate first left).1]
      intro q hq
      refine Or.inr ⟨_, List.mem_append_right _ (List.mem_singleton_self _), ?_, rfl, ?_, ?_⟩
      · exact (Pass.prefilled_id _ _).symm
      · show seq.computedPrefixLen ≤ q
        rw [first]
        exact Nat.zero_le q
      · show q < seq.computedPrefixLen + chunk
        rw [first, Nat.zero_add]
        exact hq
  | @readmitted seq rest chunk head started slot pos left room result =>
    have hmem : seq ∈ p.sched.waiting := head ▸ List.mem_cons_self
    rw [result] at hother ⊢
    intro r hr hhas
    rcases List.mem_append.mp hr with hr | hr
    · exact hother hr rfl (List.subset_append_left _ _) hhas
    · -- it has no table
      obtain rfl := List.mem_singleton.mp hr
      have hnone := hs.absent hmem
      unfold KvCacheManager.isAllocated KvCacheManager.blockTable at hhas
      rw [Pass.prefilled_id] at hhas
      change (p.sched.cache.tables.lookup seq.id).isSome = true at hhas
      rw [hnone] at hhas
      exact absurd hhas (by simp)
  | putBack head available answer result =>
    exact absurd answer (hs.allocate_ne_error (head ▸ List.mem_cons_self) available)

end PassMove

/-- **Run lemma.** -/
theorem PassMoves.computed {fs : List ForwardPass} {p p' : Pass KvCacheManager}
    (hm : PassMoves p p') (hs : p.sched.Sound) (h : p.Computed fs) : p'.Computed fs := by
  induction hm with
  | refl => exact h
  | tail hmoves hmove ih => exact hmove.computed (PassMoves.sound hmoves hs) ih

/-- The counters of a call that is over, when no part of a prompt is to be
computed. -/
theorem Pass.Computed.of_no_prefill {fs : List ForwardPass} {p : Pass KvCacheManager}
    (h : p.Computed fs) (hnone : ∀ d ∈ p.out.scheduled, d.isPrefill = false) :
    p.sched.Computed fs where
  running r hr hhas q hq := (h.running r hr hhas q hq).resolve_right
    (fun ⟨d, hd, _, hpre, _⟩ => absurd (hpre.symm.trans (hnone d hd)) (by simp))
  published := h.published

/-- More forward passes. -/
theorem Scheduler.Computed.later {fs fs' : List ForwardPass} {s : Scheduler KvCacheManager}
    (h : s.Computed fs) (hsub : fs ⊆ fs') : s.Computed fs' where
  running r hr hhas q hq := (h.running r hr hhas q hq).later hsub
  published := h.published.later hsub

/-- **Every other call of the scheduler.** -/
theorem Service.Quietly.computed {fs : List ForwardPass} {s s' : Scheduler KvCacheManager}
    (hq : Service.Quietly s s') (hs : s.Sound) (h : s.Computed fs) : s'.Computed fs := by
  rcases hq.cache with ⟨gone, hcache, hgone⟩ | ⟨a, ha, hdone, hcache⟩
  · obtain ⟨new, htr, hnew⟩ := Service.freeAll_trace gone s.cache
    have hbs := KvCacheManager.Moves.blockSize (KvCacheManager.freeAll_moves False gone s.cache)
    rw [← hcache] at htr hbs
    refine ⟨fun r' hr' hhas q hlt => ?_, h.published.append hbs htr (fun e he b hb => ?_)⟩
    · obtain ⟨r, hr, hends⟩ := hq.running r' hr'
      have htable : s'.cache.tables.lookup r.id = s.cache.tables.lookup r.id := by
        rw [hcache, KvCacheManager.freeAll_lookup, if_neg (hends.id ▸ hgone r' hr')]
      have hhas' : s.cache.isAllocated r.id = true := by
        unfold KvCacheManager.isAllocated KvCacheManager.blockTable at hhas ⊢
        rw [← htable, ← hends.id]
        exact hhas
      refine (h.running r hr hhas' q (hends.computed ▸ hlt)).frame hends.id hends.prompt hbs htr
        (fun ho => ?_) (fun _ x hx => ?_)
      · unfold KvCacheManager.Occurs
        rw [htable]
        exact ho
      · obtain ⟨id, rfl⟩ := hnew x hx
        exact ⟨by simp [BlockEvent.fresh], by simp⟩
    · obtain ⟨id, rfl⟩ := hnew e he
      exact hb
  · obtain ⟨new, htr, hnew⟩ := s.cache.commitPrefill_events hs.settled.blockSize a.id a.prompt
    have hcommit := s.cache.commitPrefill_moves False hs.settled.tallied a.id a.prompt False.elim
    have hbs := KvCacheManager.Moves.blockSize hcommit.1
    have htables := hcommit.2.tables
    rw [← hcache] at htr hbs htables
    refine ⟨fun r' hr' hhas q hlt => ?_, h.published.commit hs.settled.blockSize hbs
      (fun hhas q hlt => h.running a ha hhas q (hlt.trans_le (of_decide_eq_true hdone))) htr hnew⟩
    obtain ⟨r, hr, hends⟩ := hq.running r' hr'
    have hhas' : s.cache.isAllocated r.id = true := by
      unfold KvCacheManager.isAllocated KvCacheManager.blockTable at hhas ⊢
      rw [← htables, ← hends.id]
      exact hhas
    refine (h.running r hr hhas' q (hends.computed ▸ hlt)).frame hends.id hends.prompt hbs htr
      (KvCacheManager.occurs_congr htables).mpr (fun _ x hx => ?_)
    obtain ⟨i, b, rfl, -⟩ := hnew x hx
    exact ⟨by simp [BlockEvent.fresh], by simp⟩

namespace Engine

/-! ## A forward pass -/

/-- A token of a prefill entry. -/
theorem getElem?_entryTokens {seq : Sequence} {d : ScheduledSequence} (hpre : d.isPrefill = true)
    (hle : d.startPosition + d.numTokens ≤ seq.promptLen) {i : ℕ} (hi : i < d.numTokens) :
    (entryTokens seq d)[i]? = seq.prompt[d.startPosition + i]? := by
  unfold entryTokens
  rw [if_pos hpre, min_eq_left hle, List.getElem?_drop,
    List.getElem?_take_of_lt (Nat.add_lt_add_left hi _)]

/-- **A forward pass that succeeds computes the entries of its batch.** -/
theorem computed_forward {fs : List ForwardPass} {s : Scheduler KvCacheManager} (hs : s.Sound)
    (hshort : ∀ r ∈ s.schedule.1.running, r.prompt.length ≤ 2 ^ 32) (h : s.passes.Computed fs)
    {b : ForwardBatch} (hb : buildBatch s.schedule.1 s.schedule.2 = .ok b) :
    s.schedule.1.Computed (⟨b, s.schedule.1.cache.trace.length, true⟩ :: fs) := by
  refine ⟨fun r hr hhas q hq => ?_, h.published.later (List.subset_cons_self _ _)⟩
  rcases h.running r hr hhas q hq with hin | ⟨d, hd, hdid, hpre, hspan⟩
  · exact hin.later (List.subset_cons_self _ _)
  obtain ⟨t, ht⟩ := Option.isSome_iff_exists.mp hhas
  have hs' := hs.schedule
  have hle : d.startPosition + d.numTokens ≤ r.prompt.length := by
    rcases hs.booked.suits d hd (r.id, r.prompt, r.output)
      (List.mem_map.mpr ⟨r, List.mem_append_left _ hr, rfl⟩) hdid.symm with
      ⟨-, -, hle⟩ | ⟨hdec, -⟩
    · exact hle
    · exact absurd (hpre.symm.trans hdec) (by simp)
  have hq₁ : d.startPosition ≤ q := hspan.1
  have hq₂ : q < d.startPosition + d.numTokens := hspan.2
  have hlt : q < r.prompt.length := hq₂.trans_le hle
  have hshort' := hshort r hr
  -- the table reaches the position
  have hplace : q / s.schedule.1.cache.blockSize < t.blocks.length := by
    rw [Nat.div_lt_iff_lt_mul hs'.settled.blockSize]
    exact hlt.trans_le (hs'.prompt_le_table hr ht)
  have hblock := List.getElem?_eq_getElem hplace
  have hfind : s.schedule.1.runningSequence d.id = some r :=
    (List.findKey_eq_some_iff hs'.nodup_running).mpr ⟨hr, hdid.symm⟩
  refine ⟨_, _, ⟨t, ht, hblock⟩, List.getElem?_eq_getElem hlt, ⟨b, _, true⟩, List.mem_cons_self,
    rfl, ?_, ⟨d.id, _, q, d.startPosition + (entryTokens r d).length, t.blocks⟩, ?_, hdid, rfl,
    rfl, ?_⟩
  · rw [eventsAfter_length]
    exact fun x hx => absurd hx List.not_mem_nil
  · show _ ∈ b.rows
    rw [(buildBatch_ok hb).2]
    refine List.mem_flatMap.mpr ⟨d, hd, ?_⟩
    rw [entryRows_eq hfind (hdid ▸ ht)]
    refine BatchSlot.mem_rows_iff.mpr ⟨q - d.startPosition, r.prompt[q], ?_, ?_⟩
    · show (entryTokens r d)[q - d.startPosition]? = _
      rw [getElem?_entryTokens hpre hle (by omega), Nat.add_sub_cancel' hq₁,
        List.getElem?_eq_getElem hlt]
    · show _ = Row.mk d.id _ ((d.startPosition + (q - d.startPosition)) % 2 ^ 32) _ _
      rw [Nat.add_sub_cancel' hq₁, Nat.mod_eq_of_lt (hlt.trans_le hshort')]
      rfl
  · show (t.blocks[q / _]?).map _ = _
    rw [hblock]
    rfl

/-! ## Runs that lose no part of a prompt -/

section Run

variable {M S F : Type*} [LanguageModel M F] {config : SchedulerConfig} {n bs firstId : ℕ}
  {flag : Bool} {model : M} {e e' : Engine M S}

/-- The step has a part of a prompt in its batch. -/
def HasPrefill (e : Engine M S) (now : Instant) : Prop :=
  ∃ d ∈ (e.output now).scheduled, d.isPrefill = true

omit [LanguageModel M F] in
theorem HasPrefill.isEmpty_ne {now : Instant} (h : e.HasPrefill now) :
    (e.output now).isEmpty ≠ true := by
  obtain ⟨d, hd, -⟩ := h
  intro hempty
  have hnil : (e.output now).scheduled = [] := List.isEmpty_iff.mp hempty
  rw [hnil] at hd
  exact absurd hd List.not_mem_nil

/-- The batch of the step is built and comes back with logits. -/
def Forwards (e : Engine M S) (now : Instant) : Prop :=
  ∃ b, buildBatch (e.scheduled now).scheduler (e.output now) = .ok b
    ∧ ∃ out, ((e.scheduled now).runForward b).2 = .ok out

/-- **An operation that loses no part of a prompt**: a step whose batch has
one gets it computed, for prompts whose positions a `u32` can say. A step that
fails takes nothing back, so what it has lost counts as computed all the same. -/
def LosesNothing (e : Engine M S) : EngineOp S → Prop
  | .step now => (∀ x ∈ (e.expire now).scheduler.roster, x.2.length ≤ 2 ^ 32)
    ∧ (e.HasPrefill now → e.Forwards now)
  | _ => True

/-- What counts as computed was computed, by the forward passes of the
engine. -/
def Computed (e : Engine M S) : Prop := e.scheduler.Computed e.forwards

omit [LanguageModel M F] in
/-- A quiet stretch. -/
theorem Computed.quiet (hbs : 1 ≤ bs) (hn : n ≤ 2 ^ 32)
    (hin : e.InService config n bs flag firstId) (h : e.Computed) (hq : e.Quiet e') :
    e'.Computed := by
  have hforwards : e'.forwards = e.forwards := by
    obtain ⟨ops, -, hops⟩ := hq
    exact hops.forwards
  unfold Computed
  rw [hforwards]
  refine hin.kept (P := Scheduler.Computed e.forwards) (fun v hv op hop hcomp => ?_) hq h
  have hs := (hv.sound hbs hn).sched
  exact (Service.quietly_run hs hop).computed hs hcomp

/-- The prompts that run after a call are those of the roster before it. -/
theorem mem_roster_of_scheduled {s : Scheduler KvCacheManager} {r : Sequence}
    (hr : r ∈ s.schedule.1.running) : (r.id, r.prompt) ∈ s.roster := by
  have hroster : s.passes.sched.roster = s.roster := by
    rw [← Scheduler.map_contents, ← Scheduler.map_contents, PassMoves.contents s.passes_moves]
    rfl
  rw [← hroster]
  exact List.mem_map.mpr ⟨r, List.mem_append_left _ hr, rfl⟩

omit [LanguageModel M F] in
/-- Where a step runs its batch: the call has made an entry for what it counts
as computed. -/
theorem Computed.passes (hbs : 1 ≤ bs) (hn : n ≤ 2 ^ 32)
    (hin : e.InService config n bs flag firstId) (h : e.Computed) (now : Instant) :
    (e.expire now).scheduler.passes.Computed (e.expire now).forwards := by
  have h₁ : (e.expire now).Computed := h.quiet hbs hn hin (e.quiet_expire now)
  have hs := (hin.quiet (e.quiet_expire now)).sound hbs hn
  refine PassMoves.computed (e.expire now).scheduler.passes_moves hs
    ⟨fun r hr hhas q hq => ?_, ?_⟩
  · exact Or.inl (h₁.running r hr hhas q hq)
  · exact h₁.published

/-- **A batch that comes back with logits** has computed what the call counts as
computed. -/
theorem Computed.runForward (hbs : 1 ≤ bs) (hn : n ≤ 2 ^ 32)
    (hin : e.InService config n bs flag firstId) (h : e.Computed) {now : Instant}
    (hshort : ∀ r ∈ (e.scheduled now).scheduler.running, r.prompt.length ≤ 2 ^ 32)
    {b : ForwardBatch}
    (hbuild : buildBatch (e.scheduled now).scheduler (e.output now) = .ok b)
    {out : ForwardOutput F} (hmodel : ((e.scheduled now).runForward b).2 = .ok out) :
    ((e.scheduled now).runForward b).1.Computed := by
  have hs := (hin.quiet (e.quiet_expire now)).sound hbs hn
  have hcomp := computed_forward hs hshort (h.passes hbs hn hin now) hbuild
  have hok : (LanguageModel.forward (e.scheduled now).model b).2.toBool = true := by
    change (LanguageModel.forward (e.scheduled now).model b).2 = .ok out at hmodel
    rw [hmodel]
    rfl
  show (e.scheduled now).scheduler.Computed
    (⟨b, _, (LanguageModel.forward (e.scheduled now).model b).2.toBool⟩ :: _)
  rw [hok]
  exact hcomp

/-- **Step lemma.** -/
theorem Computed.step [Sampler S F] (hbs : 1 ≤ bs) (hn : n ≤ 2 ^ 32)
    (hin : e.InService config n bs flag firstId) (h : e.Computed) {now : Instant}
    (hshort : ∀ r ∈ (e.scheduled now).scheduler.running, r.prompt.length ≤ 2 ^ 32)
    (hsent : e.HasPrefill now → e.Forwards now) : (e.step now).1.Computed := by
  have hin₂ := hin.scheduled now
  have hpass := h.passes hbs hn hin now
  -- a step that has no part of a prompt has nothing to lose
  have hnone : ¬ e.HasPrefill now → (e.scheduled now).Computed := fun hno =>
    hpass.of_no_prefill (fun d hd => Bool.eq_false_iff.mpr (fun hpre => hno ⟨d, hd, hpre⟩))
  have hlost : ¬ e.Forwards now → (e.scheduled now).Computed := fun hno =>
    hnone (fun hpre => hno (hsent hpre))
  rcases e.step_cases now with ⟨hempty, hstep, -⟩ | ⟨err, hbuild, hstep, -⟩ | ⟨b, hbuild, hfwd⟩
  · rw [hstep]
    exact (hnone (fun hpre => hpre.isEmpty_ne hempty)).quiet hbs hn hin₂ (quiet_reap _)
  · rw [hstep]
    refine hlost ?_
    rintro ⟨b, hb, -⟩
    exact absurd (hbuild.symm.trans hb) (by simp)
  rcases hfwd with ⟨err, hmodel, hstep, -⟩ | ⟨⟨out, hmodel⟩, hquiet⟩
  · rw [hstep]
    refine (hlost ?_).later (List.subset_cons_self _ _)
    rintro ⟨b', hb', out, hout⟩
    obtain rfl := Except.ok.inj (hbuild.symm.trans hb')
    exact absurd (hmodel.symm.trans hout) (by simp)
  · exact (h.runForward hbs hn hin hshort hbuild hmodel).quiet hbs hn (hin₂.runForward b) hquiet

/-- A step that loses no part of a prompt. -/
theorem Computed.step_of_losesNothing [Sampler S F] (hbs : 1 ≤ bs) (hn : n ≤ 2 ^ 32)
    (hin : e.InService config n bs flag firstId) (h : e.Computed) {now : Instant}
    (hstep : e.LosesNothing (.step now)) : (e.step now).1.Computed :=
  h.step hbs hn hin (fun _ hr => hstep.1 _ (mem_roster_of_scheduled hr)) hstep.2

/-- **Run lemma.** -/
theorem ReachableIf.computed [Sampler S F] (hbs : 1 ≤ bs) (hn : n ≤ 2 ^ 32)
    (h : e.ReachableIf LosesNothing config n bs flag model firstId) : e.Computed := by
  induction h with
  | start =>
    refine ⟨fun r hr => absurd hr List.not_mem_nil, fun s p i b hs => ?_⟩
    exact hs.elim
  | @step e op h hop ih =>
    have hin := h.reachable.inService
    by_cases hstep : ∀ now, op ≠ .step now
    · exact ih.quiet hbs hn hin (e.quiet_of_ne_step hstep)
    · obtain ⟨now, hnow⟩ := not_forall.mp hstep
      obtain rfl := not_not.mp hnow
      exact ih.step_of_losesNothing hbs hn hin hop

omit [LanguageModel M F] in
/-- **What an entry of the index was made of**, where what counts as computed
was computed. -/
theorem Computed.entry (hbs : 1 ≤ bs) (hn : n ≤ 2 ^ 32) (h : e.Computed)
    (hin : e.InService config n bs flag firstId) {hash : BlockHash} {entry : CacheEntry}
    (he : e.scheduler.cache.prefixCache.entries.lookup hash = some entry) :
    ∃ seq prompt i,
      Since (fun x => x = .published seq prompt i entry.block)
        (fun x => x.fresh ≠ some entry.block) e.scheduler.cache.trace
      ∧ (prompt.drop (i * bs)).take bs = entry.tokens
      ∧ ∀ off < bs, ∃ token, entry.tokens[off]? = some token
        ∧ Written (fun x => x.fresh ≠ some entry.block) bs e.forwards e.scheduler.cache.trace
          seq token (i * bs + off) (entry.block, off) := by
  have hc := hin.cache hbs hn
  obtain ⟨later, seq, prompt, i, earlier, htr, -, htokens, hlater⟩ :=
    (hc.coherent hbs hn).origin he
  rw [hc.blockSize hbs hn] at htokens
  have hkeep : ∀ x ∈ later, x.fresh ≠ some entry.block := by
    intro x hx hfresh
    cases x with
    | handedOut s b => exact (hlater _ hx s).1 (by rw [Option.some.inj hfresh])
    | opened | adopted | published | appended | released =>
      exact absurd hfresh (by simp [BlockEvent.fresh])
  have hsince : Since (fun x => x = .published seq prompt i entry.block)
      (fun x => x.fresh ≠ some entry.block) e.scheduler.cache.trace := by
    rw [htr]
    exact Since.append hkeep (Since.now rfl)
  refine ⟨seq, prompt, i, hsince, htokens, fun off hoff => ?_⟩
  have hpub := h.published seq prompt i entry.block hsince
  rw [hc.blockSize hbs hn] at hpub
  obtain ⟨token, htoken, hw⟩ := hpub off hoff
  refine ⟨token, ?_, hw⟩
  rw [← htokens, List.getElem?_take_of_lt hoff, List.getElem?_drop]
  exact htoken

/-- **Blocks are published only after they were computed**, in every run that
loses no part of a prompt: an index entry names a block and its tokens, and
since that block was last handed out every slot of it was written, by a
forward pass that succeeded, with the token of the entry at the position of
the slot in the sequence that published it. -/
theorem index_computed [Sampler S F] (hbs : 1 ≤ bs) (hn : n ≤ 2 ^ 32)
    (h : e.ReachableIf LosesNothing config n bs flag model firstId) {hash : BlockHash}
    {entry : CacheEntry} (he : e.scheduler.cache.prefixCache.entries.lookup hash = some entry) :
    ∃ seq prompt i,
      Since (fun x => x = .published seq prompt i entry.block)
        (fun x => x.fresh ≠ some entry.block) e.scheduler.cache.trace
      ∧ (prompt.drop (i * bs)).take bs = entry.tokens
      ∧ ∀ off < bs, ∃ token, entry.tokens[off]? = some token
        ∧ Written (fun x => x.fresh ≠ some entry.block) bs e.forwards e.scheduler.cache.trace
          seq token (i * bs + off) (entry.block, off) :=
  (h.computed hbs hn).entry hbs hn h.reachable.inService he

end Run

/-! ## A lost chunk -/

/-- An engine that prefills four tokens at a time, over a pool of `n` blocks
of four. -/
def MockModel.chunking (n : ℕ) (failures : List Bool) : Engine MockModel MockSampler :=
  .new (.new { maxNumSeqs := 4, maxNumBatchedTokens := 4 } (KvCacheManager.new n 4 true))
    ⟨failures⟩ 1

/-- A prompt of eight tokens whose first chunk is lost, after the second. -/
def MockModel.lostChunk : Engine MockModel MockSampler :=
  EngineOp.runAll (MockModel.chunking 4 [true])
    [MockModel.request [1, 2, 3, 4, 5, 6, 7, 8], .step 0, .step 0]

/-- **A block is published that was never written**: the first chunk is lost
with its forward pass, the second comes through, and the index names the
block of the first. -/
theorem unwritten_block_published :
    SchedulerConfig.validate { maxNumSeqs := 4, maxNumBatchedTokens := 4 } = .ok ()
    ∧ MockModel.lostChunk.Reachable { maxNumSeqs := 4, maxNumBatchedTokens := 4 } 4 4 true
      ⟨[true]⟩ 1
    ∧ MockModel.lostChunk.scheduler.cache.prefixCache.entries.lookup
      (hashBlock none [1, 2, 3, 4]) = some ⟨⟨0⟩, [1, 2, 3, 4]⟩
    ∧ ∀ f ∈ MockModel.lostChunk.forwards, f.succeeded = true → ∀ row ∈ f.batch.rows,
      ∀ off, locate row.table row.position 4 ≠ some (⟨0⟩, off) := by
  refine ⟨by decide, Reachable.start.runAll _, by decide +kernel, fun f hf hok row hrow off => ?_⟩
  have hrows : ∀ row ∈ (MockModel.lostChunk.forwards.filter ForwardPass.succeeded).flatMap
      (fun f => f.batch.rows), (locate row.table row.position 4).map Prod.fst ≠ some ⟨0⟩ := by
    decide +kernel
  intro hslot
  refine hrows row (List.mem_flatMap.mpr ⟨f, List.mem_filter.mpr ⟨hf, hok⟩, hrow⟩) ?_
  rw [hslot]
  rfl

/-- The batch of the one step it takes to prefill a prompt of four tokens. -/
def MockModel.prefillBatch : ForwardBatch where
  tokens := [1, 2, 3, 4]
  positions := [0, 1, 2, 3]
  sequenceIds := [⟨1⟩]
  slotTokenCounts := [4]
  contextLens := [4]
  blockTables := [[⟨0⟩]]
  hasPrefill := true

/-- A run that loses nothing: the slot of the last token. -/
theorem index_computed_single :
    let e := EngineOp.runAll (MockModel.engine 4 []) [MockModel.request [1, 2, 3, 4], .step 0]
    Written (fun x => x.fresh ≠ some ⟨0⟩) 4 e.forwards e.scheduler.cache.trace ⟨1⟩ 4 3
      (⟨0⟩, 3) := by
  intro e
  have hstep : LosesNothing (EngineOp.runAll (MockModel.engine 4 [])
      [MockModel.request [1, 2, 3, 4]]) (.step 0) := by
    refine ⟨by decide +kernel, fun _ => ⟨MockModel.prefillBatch, by decide +kernel, ?_⟩⟩
    exact ⟨⟨[0], 1, [⟨1⟩]⟩, rfl⟩
  have hstart : (MockModel.engine 4 []).ReachableIf LosesNothing {} 4 4 true ⟨[]⟩ 1 := .start
  have hsubmit : (EngineOp.runAll (MockModel.engine 4 [])
      [MockModel.request [1, 2, 3, 4]]).ReachableIf LosesNothing {} 4 4 true ⟨[]⟩ 1 :=
    hstart.step (MockModel.request [1, 2, 3, 4]) trivial
  have he : e.ReachableIf LosesNothing {} 4 4 true ⟨[]⟩ 1 := hsubmit.step (.step 0) hstep
  have hentry : e.scheduler.cache.prefixCache.entries.lookup (hashBlock none [1, 2, 3, 4])
      = some ⟨⟨0⟩, [1, 2, 3, 4]⟩ := by
    decide +kernel
  obtain ⟨seq, prompt, i, hsince, htokens, hall⟩ :=
    index_computed (by decide) (by decide) he hentry
  have htrace : e.scheduler.cache.trace
      = [.published ⟨1⟩ [1, 2, 3, 4] 0 ⟨0⟩, .handedOut ⟨1⟩ ⟨0⟩, .opened ⟨1⟩ [1, 2, 3, 4]] := by
    decide +kernel
  rw [htrace] at hsince
  obtain ⟨rfl, rfl, rfl, -⟩ : ⟨1⟩ = seq ∧ [1, 2, 3, 4] = prompt ∧ 0 = i ∧ True := by
    rcases hsince with h | ⟨-, h | ⟨-, h | ⟨-, h⟩⟩⟩
    · obtain ⟨rfl, rfl, rfl, -⟩ := BlockEvent.published.inj h
      exact ⟨rfl, rfl, rfl, trivial⟩
    · exact absurd h (by simp)
    · exact absurd h (by simp)
    · exact h.elim
  obtain ⟨token, htoken, hw⟩ := hall 3 (by decide)
  obtain rfl : 4 = token := Option.some.inj htoken
  exact hw

end Engine
