import OrionServe.EngineBatch
import OrionServe.SchedulerBatch

/-!
# Which batches a step accepts

A batch is refused when an entry has no block table, and when a position lies
behind the blocks of its row's table. Neither concerns a prefill entry of a
sequence in service: its slice lies within the prompt, and the table covers
the prompt. A finished sequence, though, can be scheduled without a table.
And a decode entry asks for the position behind everything generated, while
`append_token` makes room up to the position before: the two come apart
wherever that position begins a new block, and for good once an eviction has
thrown away the room of the generated tokens.
-/

namespace Engine

variable {s : Scheduler KvCacheManager} {out : SchedulerOutput}

/-- **A batch that a step accepts**: no slice leaves its prompt, no entry is
without tokens, `build_batch` succeeds, and every position is resolved. A slice
that leaves its prompt is clipped at best, and an entry without tokens passed
over, without a word; the others fail the step for all who are in the batch. -/
structure Accepted (s : Scheduler KvCacheManager) (out : SchedulerOutput) : Prop where
  inRange : ∀ e ∈ out.scheduled, e.isPrefill = true → ∀ seq,
    s.runningSequence e.id = some seq → e.startPosition + e.numTokens ≤ seq.promptLen
  nonempty : ∀ e ∈ out.scheduled, ∀ seq, s.runningSequence e.id = some seq →
    entryTokens seq e ≠ []
  resolved : ∃ b, buildBatch s out = .ok b
    ∧ ∀ row ∈ b.rows, (locate row.table row.position s.cache.blockSize).isSome = true

/-- **Room for every entry**: its sequence, if it still runs, is not finished,
and the position of a decode entry – 32 bits of it – is within the table. -/
def Roomy (s : Scheduler KvCacheManager) (out : SchedulerOutput) : Prop :=
  ∀ e ∈ out.scheduled, ∀ r ∈ s.running, r.id = e.id → r.state ≠ .finished
    ∧ (e.isPrefill = false → ∀ t, s.cache.blockTable r.id = some t →
      (r.prompt.length + r.output.length) % 2 ^ 32 < t.numBlocks * s.cache.blockSize)

/-! ## The rows of an entry -/

/-- The slice of a prefill entry. -/
theorem length_entryTokens_prefill {seq : Sequence} {e : ScheduledSequence}
    (hpre : e.isPrefill = true) (hle : e.startPosition + e.numTokens ≤ seq.promptLen) :
    (entryTokens seq e).length = e.numTokens := by
  have hmin : min (e.startPosition + e.numTokens) seq.prompt.length
      = e.startPosition + e.numTokens := min_eq_left hle
  unfold entryTokens Sequence.promptLen
  rw [if_pos hpre, hmin, List.length_drop, List.length_take, hmin]
  exact Nat.add_sub_cancel_left _ _

/-- The one token of a decode entry. -/
theorem entryTokens_decode {seq : Sequence} {e : ScheduledSequence}
    (hdec : e.isPrefill = false) (hprompt : 0 < seq.prompt.length) :
    ∃ t, entryTokens seq e = [t] := by
  unfold entryTokens
  rw [if_neg (by simp [hdec])]
  split
  · next t _ => exact ⟨t, rfl⟩
  · rw [List.getLast?_eq_some_getLast (List.ne_nil_of_length_pos hprompt)]
    exact ⟨_, rfl⟩

/-- The rows of an entry, when it has a sequence and a table. -/
theorem entryRows_eq {e : ScheduledSequence} {seq : Sequence} {t : BlockTable}
    (hseq : s.runningSequence e.id = some seq) (ht : s.cache.blockTable e.id = some t) :
    entryRows s e = (slotOf seq t.blocks e).rows := by
  unfold entryRows KvCacheManager.rawBlockTable
  rw [hseq, ht]
  rfl

/-- A row of a prefill entry is within the prompt. -/
theorem position_prefill {e : ScheduledSequence} {seq : Sequence} {t : BlockTable}
    (hpre : e.isPrefill = true) (hle : e.startPosition + e.numTokens ≤ seq.promptLen)
    {row : Row} (hrow : row ∈ (slotOf seq t.blocks e).rows) :
    row.table = t.blocks ∧ row.position < seq.prompt.length := by
  obtain ⟨i, tok, hi, rfl⟩ := BatchSlot.mem_rows_iff.mp hrow
  have hlt : i < e.numTokens := by
    rw [← length_entryTokens_prefill hpre hle]
    exact (List.getElem?_eq_some_iff.mp hi).1
  refine ⟨rfl, ?_⟩
  calc (e.startPosition + i) % 2 ^ 32 ≤ e.startPosition + i := Nat.mod_le _ _
    _ < e.startPosition + e.numTokens := Nat.add_lt_add_left hlt _
    _ ≤ seq.prompt.length := hle

/-- The row of a decode entry. -/
theorem rows_decode {e : ScheduledSequence} {seq : Sequence} {t : BlockTable}
    (hdec : e.isPrefill = false) (hprompt : 0 < seq.prompt.length) :
    ∃ tok, (slotOf seq t.blocks e).rows
      = [⟨e.id, tok, e.startPosition % 2 ^ 32, e.startPosition + 1, t.blocks⟩] := by
  obtain ⟨tok, htok⟩ := entryTokens_decode hdec hprompt
  refine ⟨tok, ?_⟩
  have htokens : (slotOf seq t.blocks e).tokens = [tok] := htok
  unfold BatchSlot.rows BatchSlot.positions
  rw [htokens]
  rfl

end Engine

namespace Scheduler.Sound

open Engine

variable {s : Scheduler KvCacheManager}

/-- A table covers the prompt of its sequence. -/
theorem prompt_le_table (h : s.Sound) {r : Sequence} (hr : r ∈ s.running) {t : BlockTable}
    (ht : s.cache.tables.lookup r.id = some t) :
    r.prompt.length ≤ t.numBlocks * s.cache.blockSize := by
  have hsource : s.cache.promptOf r.id = some r.prompt :=
    (h.running r hr).elim Resident.source (fun hs => hs.source t ht)
  have hsized := h.settled.sized ht
  obtain ⟨p, hp, hlen⟩ := hsized.prompt
  obtain rfl : r.prompt = p := Option.some.inj (hsource.symm.trans hp)
  rw [hsized.numBlocks]
  exact hlen.trans (Nat.le_ceilDiv_mul h.settled.blockSize _)

/-- A running sequence has a prompt. -/
theorem prompt_pos (h : s.Sound) {r : Sequence} (hr : r ∈ s.running)
    (hlive : r.state ≠ .finished) : 0 < r.prompt.length := by
  have hres := h.resident hr hlive
  exact hres.started.trans hres.stage.le

/-- **When a batch is accepted**, for the scheduler and the output that
`build_batch` is given. -/
theorem accepted_iff (h : s.Sound) :
    Accepted s.schedule.1 s.schedule.2 ↔ Roomy s.schedule.1 s.schedule.2 := by
  have hs := h.schedule
  have hbooked := h.booked
  have hsuits : ∀ e ∈ s.schedule.2.scheduled, ∀ r ∈ s.schedule.1.running, r.id = e.id →
      e.Suits r.prompt r.output := fun e he r hr hid =>
    hbooked.suits e he (r.id, r.prompt, r.output)
      (List.mem_map.mpr ⟨r, List.mem_append_left _ hr, rfl⟩) hid
  have hfind : ∀ {r : Sequence} {id : SequenceId}, r ∈ s.schedule.1.running → r.id = id →
      s.schedule.1.runningSequence id = some r := fun hr hid =>
    (List.findKey_eq_some_iff hs.nodup_running).mpr ⟨hr, hid⟩
  constructor
  · intro hacc e he r hr hid
    obtain ⟨b, hb, hrows⟩ := hacc.resolved
    have hback := buildBatch_isOk_iff.mp ⟨b, hb⟩ e he (by rw [hfind hr hid]; simp)
    have hlive : r.state ≠ .finished := by
      intro hfin
      have hnone := hbooked.spent e he r hr hid hfin
      rw [hid] at hnone
      apply hback
      show (s.passes.sched.cache.tables.lookup e.id).map BlockTable.blocks = none
      rw [hnone]
      rfl
    refine ⟨hlive, fun hdec t ht => ?_⟩
    rcases hsuits e he r hr hid with ⟨hpre, -⟩ | ⟨-, -, hstart⟩
    · exact absurd (hpre.symm.trans hdec) (by simp)
    obtain ⟨tok, htok⟩ := rows_decode (t := t) hdec (hs.prompt_pos hr hlive)
    have hmem := (buildBatch_ok hb).2 ▸ List.mem_flatMap.mpr ⟨e, he, by
      rw [entryRows_eq (hfind hr hid) (hid ▸ ht), htok]
      exact List.mem_cons_self⟩
    have hsome := hrows _ hmem
    rw [locate_isSome_iff hs.settled.blockSize, hstart] at hsome
    exact hsome
  · intro hroom
    have htable : ∀ e ∈ s.schedule.2.scheduled, ∀ r ∈ s.schedule.1.running, r.id = e.id →
        ∃ t, s.schedule.1.cache.blockTable e.id = some t := by
      intro e he r hr hid
      obtain ⟨t, ht⟩ := (hs.resident hr (hroom e he r hr hid).1).table
      exact ⟨t, hid ▸ ht⟩
    have hseq : ∀ {e : ScheduledSequence} {seq : Sequence},
        s.schedule.1.runningSequence e.id = some seq →
        seq ∈ s.schedule.1.running ∧ seq.id = e.id := fun hf =>
      ⟨List.mem_of_findKey hf, List.key_of_findKey hf⟩
    refine ⟨fun e he hpre seq hf => ?_, fun e he seq hf => ?_, ?_⟩
    · obtain ⟨hr, hid⟩ := hseq hf
      rcases hsuits e he seq hr hid with ⟨-, -, hle⟩ | ⟨hdec, -⟩
      · exact hle
      · exact absurd (hpre.symm.trans hdec) (by simp)
    · obtain ⟨hr, hid⟩ := hseq hf
      rcases hsuits e he seq hr hid with ⟨hpre, hpos, hle⟩ | ⟨hdec, -⟩
      · refine List.ne_nil_of_length_pos ?_
        rw [length_entryTokens_prefill hpre hle]
        exact hpos
      · obtain ⟨t, ht⟩ := entryTokens_decode hdec
          (hs.prompt_pos hr (hroom e he seq hr hid).1)
        rw [ht]
        simp
    · obtain ⟨b, hb⟩ := buildBatch_isOk_iff.mpr (fun e he hne => by
        obtain ⟨seq, hf⟩ := Option.ne_none_iff_exists'.mp hne
        obtain ⟨hr, hid⟩ := hseq hf
        obtain ⟨t, ht⟩ := htable e he seq hr hid
        show (s.schedule.1.cache.blockTable e.id).map BlockTable.blocks ≠ none
        rw [ht]
        simp)
      refine ⟨b, hb, fun row hrow => ?_⟩
      rw [(buildBatch_ok hb).2] at hrow
      obtain ⟨e, he, hrow⟩ := List.mem_flatMap.mp hrow
      rcases hf : s.schedule.1.runningSequence e.id with - | seq
      · unfold entryRows at hrow
        rw [hf] at hrow
        exact absurd hrow List.not_mem_nil
      obtain ⟨hr, hid⟩ := hseq hf
      obtain ⟨t, ht⟩ := htable e he seq hr hid
      rw [entryRows_eq hf ht] at hrow
      rcases hsuits e he seq hr hid with ⟨hpre, -, hle⟩ | ⟨hdec, -, hstart⟩
      · obtain ⟨htab, hpos⟩ := position_prefill hpre hle hrow
        rw [htab, locate_isSome_iff hs.settled.blockSize]
        exact hpos.trans_le (hs.prompt_le_table hr (hid ▸ ht))
      · obtain ⟨hlive, hin⟩ := hroom e he seq hr hid
        obtain ⟨tok, htok⟩ := rows_decode (t := t) hdec (hs.prompt_pos hr hlive)
        rw [htok] at hrow
        rw [List.mem_singleton.mp hrow, locate_isSome_iff hs.settled.blockSize, hstart]
        exact hin hdec t (hid ▸ ht)

/-! ## A call with nothing in its way -/

/-- **The decode entries of a calm call** are those of the decoders the budget
reaches. -/
theorem calm_decode_entry (h : s.Sound) (hc : s.Calm) {d : ScheduledSequence}
    (hdec : d.isPrefill = false) :
    d ∈ s.schedule.2.scheduled ↔ ∃ c ∈ s.decodes, d = Pass.decodeEntry c.1 c.2 := by
  have hmap : d ∈ s.decodes.map (fun c => Pass.decodeEntry c.1 c.2)
      ↔ ∃ c ∈ s.decodes, d = Pass.decodeEntry c.1 c.2 := by
    rw [List.mem_map]
    exact exists_congr (fun c => and_congr_right (fun _ => eq_comm))
  rw [← hmap]
  show d ∈ s.passes.out.scheduled ↔ _
  rcases hfirst : s.config.prioritizeDecode with - | -
  · obtain ⟨-, -, hd⟩ := h.calm_prefill_first hc hfirst
    rw [hd.scheduled]
    refine ⟨fun hmem => (List.mem_append.mp hmem).resolve_left (fun hpre => ?_),
      List.mem_append_right _⟩
    rcases s.pass.schedulePrefills_scheduled d hpre with hnone | hpre
    · exact absurd hnone List.not_mem_nil
    · exact absurd (hpre.symm.trans hdec) (by simp)
  · obtain ⟨p₁, -, hpasses, hd, hp⟩ := h.calm_decode_first hc hfirst
    have hold : p₁.out.scheduled = s.decodes.map (fun c => Pass.decodeEntry c.1 c.2) :=
      hd.scheduled
    rw [← hold]
    constructor
    · intro hmem
      rw [hpasses] at hmem
      rcases p₁.schedulePrefills_scheduled d hmem with hmem | hpre
      · exact hmem
      · exact absurd (hpre.symm.trans hdec) (by simp)
    · intro hmem
      obtain ⟨es, -, -, hes, -⟩ := hp.scheduled
      rw [hes]
      exact List.mem_append_left _ hmem

/-- **A decode step of a calm call** adds one token to the table its sequence
had. -/
theorem calm_numTokens (h : s.Sound) (hc : s.Calm)
    (hwf : WellFormedBatch s.schedule.1 s.schedule.2) {r r' : Sequence} (hr : r ∈ s.running)
    (hr' : r' ∈ s.schedule.1.running) (hid : r'.id = r.id) (hlive : r.state ≠ .finished)
    (hlive' : r'.state ≠ .finished) {d : ScheduledSequence}
    (hd : d ∈ s.schedule.2.scheduled) (hdec : d.isPrefill = false) (hdid : r.id = d.id)
    {t t' : BlockTable} (ht : s.cache.blockTable r.id = some t)
    (ht' : s.schedule.1.cache.blockTable r'.id = some t')
    (hprompt : r'.prompt = r.prompt) : t'.numTokens = t.numTokens + 1 := by
  have hlast : ∀ {m : KvCacheManager} {trace : List SchedEvent} {q : Sequence} {u : BlockTable},
      Resident m trace q → m.blockTable q.id = some u →
      u.numTokens = q.prompt.length
        + ((entriesSince q.id trace).filter (fun e => !e.isPrefill)).length := by
    intro m trace q u hres hu
    obtain ⟨decodes, prefills, hes, hdecs, hpres, -, -, u', hu', hnum⟩ := hres.entries
    obtain rfl : u' = u := Option.some.inj (hu'.symm.trans hu)
    rw [hes, List.filter_append, List.filter_eq_self.mpr (fun e he => by simp [hdecs e he]),
      List.filter_eq_nil_iff.mpr (fun e he => by simp [hpres e he]), List.append_nil]
    exact hnum
  have hres := h.resident hr hlive
  have hres' := h.schedule.resident hr' hlive'
  have hkept : r.id ∉ s.schedule.2.preempted := by
    rw [h.calm_preempted hc]
    exact List.not_mem_nil
  obtain ⟨new, hnew, hfilter⟩ := s.entriesSince_kept hkept
  -- the entry is the only one of its sequence in the batch
  have hone : s.schedule.2.scheduled.filter (fun e => e.id = r.id) = [d] := by
    have hmem : d ∈ s.schedule.2.scheduled.filter (fun e => e.id = r.id) :=
      List.mem_filter.mpr ⟨hd, decide_eq_true hdid.symm⟩
    have hnd : ((s.schedule.2.scheduled.filter (fun e => e.id = r.id)).map
        ScheduledSequence.id).Nodup := hwf.once.sublist (List.filter_sublist.map _)
    have hall : ∀ x ∈ s.schedule.2.scheduled.filter (fun e => e.id = r.id), x = d := by
      intro x hx
      refine List.eq_of_key_eq hwf.once (List.mem_filter.mp hx).1 hd ?_
      exact (of_decide_eq_true (List.mem_filter.mp hx).2).trans hdid
    rcases hl : s.schedule.2.scheduled.filter (fun e => e.id = r.id) with - | ⟨a, rest⟩
    · rw [hl] at hmem
      exact absurd hmem List.not_mem_nil
    rw [hl] at hall hnd
    obtain rfl := hall a List.mem_cons_self
    rcases rest with - | ⟨b, rest⟩
    · exact hl
    · obtain rfl := hall b (List.mem_cons_of_mem _ List.mem_cons_self)
      exact absurd hnd (by simp)
  rw [hlast hres' ht', hlast hres ht, hid, hnew, hfilter, hone, hprompt, List.filter_append]
  simp [hdec]
  omega

/-- The sequence of a decode entry, before a calm call and after it. -/
theorem calm_room (h : s.Sound) (hc : s.Calm)
    (hwf : WellFormedBatch s.schedule.1 s.schedule.2) {r r' : Sequence} (hr : r ∈ s.running)
    (hr' : r' ∈ s.schedule.1.running) (hid : r'.id = r.id) (hdecoding : r.state = .decoding)
    (hlive' : r'.state ≠ .finished) {d : ScheduledSequence}
    (hd : d ∈ s.schedule.2.scheduled) (hdec : d.isPrefill = false) (hdid : r.id = d.id)
    {t t' : BlockTable} (ht : s.cache.blockTable r.id = some t)
    (ht' : s.schedule.1.cache.blockTable r'.id = some t') :
    r'.prompt.length + r'.output.length = r.prompt.length + r.output.length
    ∧ t'.numBlocks * s.schedule.1.cache.blockSize
      = BlockTable.blocksRequired (t.numTokens + 1) s.cache.blockSize * s.cache.blockSize := by
  have hlive : r.state ≠ .finished := by rw [hdecoding]; simp
  have hsame : (r'.id, r'.prompt, r'.output) = (r.id, r.prompt, r.output) := by
    refine Scheduler.contents_eq h.nodup ?_ (List.mem_map.mpr
      ⟨r, List.mem_append_left _ hr, rfl⟩) hid
    have hcontents : s.passes.sched.contents = s.contents := PassMoves.contents s.passes_moves
    rw [← hcontents]
    exact List.mem_map.mpr ⟨r', List.mem_append_left _ hr', rfl⟩
  obtain ⟨-, hrest⟩ := Prod.mk.inj hsame
  obtain ⟨hprompt, houtput⟩ := Prod.mk.inj hrest
  refine ⟨by rw [hprompt, houtput], ?_⟩
  have hnum := h.calm_numTokens hc hwf hr hr' hid hlive hlive' hd hdec hdid ht ht' hprompt
  have hsize : s.schedule.1.cache.blockSize = s.cache.blockSize :=
    PassMoves.blockSize s.passes_moves h
  rw [(h.schedule.settled.sized ht').numBlocks, hnum, hsize]

/-- **When the batch of a calm call is accepted**, by the state before it:
every decoder the budget reaches must find the position behind everything
generated in the table that one more token gives it. -/
theorem calm_accepted_iff (h : s.Sound) (hc : s.Calm)
    (hwf : WellFormedBatch s.schedule.1 s.schedule.2) :
    Accepted s.schedule.1 s.schedule.2 ↔ ∀ r ∈ s.running, (r.id, r.totalLen) ∈ s.decodes →
      ∀ t, s.cache.blockTable r.id = some t →
        (r.prompt.length + r.output.length) % 2 ^ 32
          < BlockTable.blocksRequired (t.numTokens + 1) s.cache.blockSize
            * s.cache.blockSize := by
  rw [h.accepted_iff]
  have hcand : ∀ c ∈ s.decodes,
      ∃ q ∈ s.running, q.state = .decoding ∧ (q.id, q.totalLen) = c := by
    intro c hc
    obtain ⟨q, hq, rfl⟩ := List.mem_map.mp (List.take_subset _ _ hc)
    obtain ⟨hq, hst⟩ := List.mem_filter.mp hq
    exact ⟨q, hq, of_decide_eq_true hst, rfl⟩
  -- a well-formed batch holds nobody finished
  have hlive : ∀ e ∈ s.schedule.2.scheduled, ∀ r ∈ s.schedule.1.running, r.id = e.id →
      r.state ≠ .finished := by
    intro e he r hr hid hfin
    have hnone := h.booked.spent e he r hr hid hfin
    have hheld := (hwf.held e he).2
    unfold KvCacheManager.isAllocated KvCacheManager.blockTable at hheld
    rw [hid] at hnone
    change s.schedule.1.cache.tables.lookup e.id = none at hnone
    rw [hnone] at hheld
    exact absurd hheld (by simp)
  constructor
  · intro hroom r hr hmem t ht
    have hd : Pass.decodeEntry r.id r.totalLen ∈ s.schedule.2.scheduled :=
      (h.calm_decode_entry hc rfl).mpr ⟨_, hmem, rfl⟩
    obtain ⟨hrun, hheld⟩ := hwf.held _ hd
    obtain ⟨r', hr', hid⟩ := List.mem_map.mp hrun
    change r'.id = r.id at hid
    obtain ⟨q, hq, hdecoding, hqc⟩ := hcand _ hmem
    obtain rfl : q = r := List.eq_of_key_eq h.nodup_running hq hr (Prod.mk.inj hqc).1
    obtain ⟨t', ht'⟩ := Option.isSome_iff_exists.mp hheld
    change s.schedule.1.cache.blockTable q.id = some t' at ht'
    rw [← hid] at ht'
    obtain ⟨hlen, hblocks⟩ := h.calm_room hc hwf hr hr' hid hdecoding
      (hlive _ hd r' hr' hid) hd rfl rfl ht ht'
    rw [← hlen, ← hblocks]
    exact (hroom _ hd r' hr' hid).2 rfl t' ht'
  · intro hall e he r' hr' hid
    refine ⟨hlive e he r' hr' hid, fun hdec t' ht' => ?_⟩
    obtain ⟨c, hmem, rfl⟩ := (h.calm_decode_entry hc hdec).mp he
    obtain ⟨r, hr, hdecoding, rfl⟩ := hcand c hmem
    change r'.id = r.id at hid
    obtain ⟨t, ht⟩ := (h.resident hr (by simp [hdecoding])).table
    obtain ⟨hlen, hblocks⟩ := h.calm_room hc hwf hr hr' hid hdecoding
      (hlive _ he r' hr' hid) he rfl rfl ht ht'
    rw [hlen, hblocks]
    exact hall r hr hmem t ht

end Scheduler.Sound

namespace Engine

variable {M S F : Type*} [LanguageModel M F] [Sampler S F]
  {config : SchedulerConfig} {n bs firstId : ℕ} {flag : Bool} {model : M} {e : Engine M S}

/-- **When a step accepts its own batch**, in every run, with every
configuration, model and sampler. Given what `schedule` left behind, exactly
when each sequence that has an entry and is still running is not finished
and, for a decode entry, the position behind its prompt and output – 32 bits
of it – is within its block table. Where nothing is in the way of the
`schedule` call, exactly when every decoder that the budget reaches finds
that position in the blocks which its tokens and one more need. -/
theorem batch_accepted_iff (hbs : 1 ≤ bs) (hn : n ≤ 2 ^ 32)
    (h : e.Reachable config n bs flag model firstId) (now : Instant) :
    (Accepted (e.scheduled now).scheduler (e.output now) ↔
      ∀ d ∈ (e.output now).scheduled, ∀ r ∈ (e.scheduled now).scheduler.running, r.id = d.id →
        r.state ≠ .finished ∧ (d.isPrefill = false → ∀ t,
          (e.scheduled now).scheduler.cache.blockTable r.id = some t →
          (r.prompt.length + r.output.length) % 2 ^ 32 < t.numBlocks * bs))
    ∧ ((e.expire now).scheduler.Calm →
      (Accepted (e.scheduled now).scheduler (e.output now) ↔
        ∀ r ∈ (e.expire now).scheduler.running,
          (r.id, r.totalLen) ∈ (e.expire now).scheduler.decodes →
          ∀ t, (e.expire now).scheduler.cache.blockTable r.id = some t →
            (r.prompt.length + r.output.length) % 2 ^ 32
              < BlockTable.blocksRequired (t.numTokens + 1) bs * bs)) := by
  have hin := h.inService.quiet (e.quiet_expire now)
  have hs := hin.sound hbs hn
  have hsize := (hin.cache hbs hn).blockSize hbs hn
  have hsize' := ((h.inService.scheduled now).cache hbs hn).blockSize hbs hn
  constructor
  · have hiff := hs.accepted_iff
    unfold Roomy at hiff
    rw [show (e.expire now).scheduler.schedule.1.cache.blockSize = bs from hsize'] at hiff
    exact hiff
  · intro hc
    have hiff := hs.calm_accepted_iff hc (hs.wellFormed_of_calm hc)
    rw [hsize] at hiff
    exact hiff

/-- **A step fails on its own bookkeeping**: the first decode step of a prompt
of three tokens, in blocks of four, asks for position 4, and the table ends
at 3. -/
theorem decode_position_unresolved :
    SchedulerConfig.validate {} = .ok ()
    ∧ MockModel.firstDecode.Reachable {} 4 4 true ⟨[]⟩ 1
    ∧ ¬ Accepted (MockModel.firstDecode.scheduled 0).scheduler
      (MockModel.firstDecode.output 0) := by
  refine ⟨by decide, Reachable.start.runAll _, fun hacc => ?_⟩
  obtain ⟨b, hb, hall⟩ := hacc.resolved
  obtain rfl := Except.ok.inj (buildBatch_firstDecode.symm.trans hb)
  have hrows : MockModel.decodeBatch.rows = [⟨⟨1⟩, 7, 4, 5, [⟨0⟩]⟩] := by decide
  have hsome := hall _ (hrows ▸ List.mem_cons_self)
  have hsize : (MockModel.firstDecode.scheduled 0).scheduler.cache.blockSize = 4 := by
    decide +kernel
  rw [hsize] at hsome
  exact absurd hsome (by decide)

/-- A prompt of two tokens in such blocks: its first decode step finds
position 3. -/
theorem batch_accepted_iff_two :
    let e := EngineOp.runAll (MockModel.engine 4 []) [MockModel.request [1, 2], .step 0]
    Accepted (e.scheduled 0).scheduler (e.output 0) := by
  intro e
  have he : e.Reachable {} 4 4 true ⟨[]⟩ 1 := Reachable.start.runAll _
  have hout : (e.output 0).scheduled = [⟨⟨1⟩, 1, 3, false⟩] := by decide +kernel
  have hrun : (e.scheduled 0).scheduler.running.map
      (fun r => (r.state, r.prompt.length + r.output.length)) = [(.decoding, 3)] := by
    decide +kernel
  have htable : (e.scheduled 0).scheduler.cache.blockTable ⟨1⟩ = some ⟨[⟨0⟩], 3⟩ := by
    decide +kernel
  refine (batch_accepted_iff (by decide) (by decide) he 0).1.mpr (fun d hd r hr hid => ?_)
  rw [hout] at hd
  obtain rfl := List.mem_singleton.mp hd
  have hmem := List.mem_map_of_mem
    (f := fun r : Sequence => (r.state, r.prompt.length + r.output.length)) hr
  rw [hrun] at hmem
  obtain ⟨hstate, hlen⟩ := Prod.mk.inj (List.mem_singleton.mp hmem)
  refine ⟨by rw [hstate]; simp, fun _ t ht => ?_⟩
  rw [hid, htable] at ht
  obtain rfl := Option.some.inj ht
  rw [hlen]
  decide

end Engine
