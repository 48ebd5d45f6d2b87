import OrionServe.CacheComplete
import OrionServe.EngineWrites
import OrionServe.SchedulerHeadway
import OrionServe.Serving

/-!
# What the arena holds for the scheduler

The counter of a sequence says how much of its prompt is computed. It is right
about the arena when each slot that the block table has for such a position
holds the prompt up to there (`Scheduler.Stored`). A scheduling call counts
chunks that are still to be computed, and makes an entry for each; what else it
counts was counted before, at the same place of the same table
(`PassMove.progress`).

The jobs of the batch then make the counter right again. Several of them may
write one slot, in a block that sequences share: then they are at the same
position of prompts that agree up to there, and write the same thing
(`KvCacheManager.Coherent.agree`). A decode step writes behind the prompt, in a
block of its own.
-/

/-- **A place of a prompt holds the prompt up to there.** -/
def Holds (c : BlockId × ℕ → Option (List TokenId)) (m : KvCacheManager) (r : Sequence)
    (q : ℕ) : Prop :=
  ∃ b, m.Occurs r.id (q / m.blockSize) b
    ∧ c (b, q % m.blockSize) = some (r.prompt.take (q + 1))

/-- **What counts as computed is held.** -/
def Scheduler.Stored (c : BlockId × ℕ → Option (List TokenId)) (s : Scheduler KvCacheManager) :
    Prop :=
  ∀ r ∈ s.running, s.cache.isAllocated r.id = true →
    ∀ q < r.computedPrefixLen, Holds c s.cache r q

/-- An entry of a call for this position of this sequence. -/
def SchedulerOutput.Covers (out : SchedulerOutput) (id : SequenceId) (q : ℕ) : Prop :=
  ∃ d ∈ out.scheduled, d.id = id ∧ d.isPrefill = true ∧ Span.Contains d.span q

/-- The same in the middle of a call, when the entries made so far are still
to be computed. -/
def Pass.Stored (c : BlockId × ℕ → Option (List TokenId)) (p : Pass KvCacheManager) : Prop :=
  ∀ r ∈ p.sched.running, p.sched.cache.isAllocated r.id = true → ∀ q < r.computedPrefixLen,
    Holds c p.sched.cache r q ∨ p.out.Covers r.id q

/-- What a call counts as computed when no part of a prompt is to be computed. -/
theorem Pass.Stored.of_no_prefill {c : BlockId × ℕ → Option (List TokenId)}
    {p : Pass KvCacheManager} (h : p.Stored c)
    (hnone : ∀ d ∈ p.out.scheduled, d.isPrefill ≠ true) : p.sched.Stored c :=
  fun r hr hhas q hq => (h r hr hhas q hq).resolve_right
    (fun ⟨d, hd, _, hpre, _⟩ => hnone d hd hpre)

/-- A table that keeps its blocks. -/
theorem Holds.frame {c : BlockId × ℕ → Option (List TokenId)} {m m' : KvCacheManager}
    {r r' : Sequence} {q : ℕ} (h : Holds c m r q) (hid : r'.id = r.id)
    (hprompt : r'.prompt = r.prompt) (hbs : m'.blockSize = m.blockSize)
    (hplace : ∀ {i b}, m.Occurs r.id i b → m'.Occurs r.id i b) : Holds c m' r' q := by
  obtain ⟨b, ho, hc⟩ := h
  unfold Holds
  rw [hid, hprompt, hbs]
  exact ⟨b, hplace ho, hc⟩

namespace PassMove

variable {p p' : Pass KvCacheManager}

/-- **Where progress comes from**: what a running sequence with a table counts
as computed after a move it counted before, at the same places, or there is an
entry for it. -/
theorem progress (hm : PassMove p p') (hs : p.sched.Sound) {r' : Sequence}
    (hr' : r' ∈ p'.sched.running) (hhas : p'.sched.cache.isAllocated r'.id = true) {q : ℕ}
    (hq : q < r'.computedPrefixLen) :
    (∃ r ∈ p.sched.running, r'.id = r.id ∧ r'.prompt = r.prompt
      ∧ p.sched.cache.isAllocated r.id = true ∧ q < r.computedPrefixLen
      ∧ ∀ {i b}, p.sched.cache.Occurs r.id i b → p'.sched.cache.Occurs r.id i b)
    ∨ p'.out.Covers r'.id q := by
  -- whoever was running and whose table is left alone
  have hkept : ∀ {r : Sequence}, r ∈ p.sched.running → r'.id = r.id → r'.prompt = r.prompt →
      p'.sched.cache.tables.lookup r.id = p.sched.cache.tables.lookup r.id →
      q < r.computedPrefixLen → ∃ r ∈ p.sched.running, r'.id = r.id ∧ r'.prompt = r.prompt
        ∧ p.sched.cache.isAllocated r.id = true ∧ q < r.computedPrefixLen
        ∧ ∀ {i b}, p.sched.cache.Occurs r.id i b → p'.sched.cache.Occurs r.id i b := by
    intro r hr hid hprompt htable hlt
    refine ⟨r, hr, hid, hprompt, ?_, hlt, fun ho => ?_⟩
    · unfold KvCacheManager.isAllocated KvCacheManager.blockTable at hhas ⊢
      rw [← htable, ← hid]
      exact hhas
    · unfold KvCacheManager.Occurs
      rw [htable]
      exact ho
  cases hm with
  | refused answer result =>
    obtain rfl := KvCacheManager.like_appendToken_error hs.settled answer
    subst result
    exact Or.inl (hkept hr' rfl rfl rfl hq)
  | @decoded id totalLen c room answer cand result =>
    obtain ⟨-, t, t', happ⟩ := KvCacheManager.like_appendToken_ok hs.settled answer
    subst result
    refine Or.inl ?_
    by_cases hid : r'.id = id
    · subst hid
      refine ⟨r', hr', rfl, rfl, Option.isSome_iff_exists.mpr ⟨t, happ.table⟩, hq, ?_⟩
      intro i b ho
      obtain ⟨u, hu, hb⟩ := ho
      obtain rfl := Option.some.inj (happ.table.symm.trans hu)
      have htable : c.tables.lookup r'.id = some t' := by rw [happ.tables, AList.lookup_insert]
      refine ⟨t', htable, ?_⟩
      rcases happ.blocks with ⟨-, hblocks⟩ | ⟨-, blk, hblocks⟩
      · rw [hblocks]
        exact hb
      · rw [hblocks, List.getElem?_append_left (List.getElem?_eq_some_iff.mp hb).1]
        exact hb
    · refine hkept hr' rfl rfl ?_ hq
      show c.tables.lookup r'.id = _
      rw [happ.tables, AList.lookup_insert_ne hid]
  | evicted result =>
    obtain ⟨older, victim, hrun, rfl⟩ := Pass.preemptOne_eq_some result
    have hmem : r' ∈ p.sched.running := by
      rw [hrun]
      exact List.mem_append_left _ hr'
    refine Or.inl (hkept hmem rfl rfl ?_ hq)
    have hne : r'.id ≠ victim.id :=
      List.key_ne_of_append (hrun ▸ hs.nodup_running) hr' (List.mem_singleton_self _)
    show (p.sched.cache.free victim.id).tables.lookup r'.id = _
    rw [KvCacheManager.free_tables, AList.lookup_erase_ne hne]
  | @resumed seq chunk already found cand pos room result =>
    have hmem := List.mem_of_findKey found
    obtain ⟨hstate, rfl, hle⟩ := cand hs.nodup
    have hsum : seq.computedPrefixLen + chunk ≤ seq.prompt.length := by
      have hrem : seq.remainingPrefill = seq.prompt.length - seq.computedPrefixLen := rfl
      omega
    subst result
    rcases List.mem_updateKey hs.nodup_running hr' with ⟨hr, -⟩ | ⟨a, ha, hid, rfl⟩
    · exact Or.inl (hkept hr rfl rfl rfl hq)
    · obtain rfl : a = seq := List.eq_of_key_eq hs.nodup_running ha hmem hid
      rw [(Pass.resumed_inStage hstate hsum).1] at hq
      rcases lt_or_ge q a.computedPrefixLen with hlt | hge
      · exact Or.inl (hkept ha (Pass.resumed_id _ _) (Pass.resumed_prompt _ _) rfl hlt)
      · refine Or.inr ⟨_, List.mem_append_right _ (List.mem_singleton_self _), ?_, rfl, hge, hq⟩
        exact (Pass.resumed_id _ _).symm
  | @admitted seq rest chunk c head first slot pos left room answer result =>
    have hmem : seq ∈ p.sched.waiting := head ▸ List.mem_cons_self
    obtain ⟨hstate, -, -⟩ := hs.atStart_of_zero hmem first
    obtain ⟨-, t, hadm⟩ := KvCacheManager.like_allocate_ok hs.settled answer
    subst result
    rcases List.mem_append.mp hr' with hr | hr
    · refine Or.inl (hkept hr rfl rfl ?_ hq)
      show c.tables.lookup r'.id = _
      rw [hadm.tables, AList.lookup_insert_ne (hs.apart hr hmem)]
    · obtain rfl := List.mem_singleton.mp hr
      rw [(Pass.prefilled_inStage hstate first left).1] at hq
      refine Or.inr ⟨_, List.mem_append_right _ (List.mem_singleton_self _), ?_, rfl, ?_, ?_⟩
      · exact (Pass.prefilled_id _ _).symm
      · show seq.computedPrefixLen ≤ q
        rw [first]
        exact Nat.zero_le q
      · show q < seq.computedPrefixLen + chunk
        rw [first, Nat.zero_add]
        exact hq
  | @readmitted seq rest chunk head started slot pos left room result =>
    have hmem : seq ∈ p.sched.waiting := head ▸ List.mem_cons_self
    subst result
    rcases List.mem_append.mp hr' with hr | hr
    · exact Or.inl (hkept hr rfl rfl rfl hq)
    · -- it has no table
      obtain rfl := List.mem_singleton.mp hr
      have hnone := hs.absent hmem
      unfold KvCacheManager.isAllocated KvCacheManager.blockTable at hhas
      rw [Pass.prefilled_id] at hhas
      change (p.sched.cache.tables.lookup seq.id).isSome = true at hhas
      rw [hnone] at hhas
      exact absurd hhas (by simp)
  | putBack head available answer result =>
    exact absurd answer (hs.allocate_ne_error (head ▸ List.mem_cons_self) available)

end PassMove

/-- **A scheduling call** makes an entry for what it then counts as computed. -/
theorem PassMoves.stored {c : BlockId × ℕ → Option (List TokenId)} {p p' : Pass KvCacheManager}
    (hm : PassMoves p p') (hs : p.sched.Sound) (h : p.Stored c) : p'.Stored c := by
  induction hm with
  | refl => exact h
  | @tail p₁ p₂ hmoves hmove ih =>
    have hs₁ := PassMoves.sound hmoves hs
    have hbs : p₂.sched.cache.blockSize = p₁.sched.cache.blockSize :=
      PassMoves.blockSize (.single hmove) hs₁
    intro r' hr' hhas q hq
    rcases hmove.progress hs₁ hr' hhas hq with ⟨r, hr, hid, hprompt, hhad, hlt, hplace⟩ | hcovers
    · refine (ih r hr hhad q hlt).imp (fun hold => hold.frame hid hprompt hbs hplace)
        (fun ⟨d, hd, hdid, hd'⟩ => ?_)
      exact ⟨d, Pass.scheduled_subset (.single hmove) hd, hdid.trans hid.symm, hd'⟩
    · exact Or.inr hcovers

/-- **Every other call of the scheduler.** -/
theorem Service.Quietly.stored {c : BlockId × ℕ → Option (List TokenId)}
    {s s' : Scheduler KvCacheManager} (hq : Service.Quietly s s') (hs : s.Sound)
    (h : s.Stored c) : s'.Stored c := by
  have hkeep : (∀ r' ∈ s'.running, s'.cache.tables.lookup r'.id = s.cache.tables.lookup r'.id) →
      s'.cache.blockSize = s.cache.blockSize → s'.Stored c := by
    intro htables hbs r' hr' hhas q hlt
    obtain ⟨r, hr, hends⟩ := hq.running r' hr'
    have htable := htables r' hr'
    rw [hends.id] at htable
    refine (h r hr ?_ q (hends.computed ▸ hlt)).frame hends.id hends.prompt hbs (fun ho => ?_)
    · unfold KvCacheManager.isAllocated KvCacheManager.blockTable at hhas ⊢
      rw [← htable, ← hends.id]
      exact hhas
    · unfold KvCacheManager.Occurs
      rw [htable]
      exact ho
  rcases hq.cache with ⟨gone, hcache, hgone⟩ | ⟨a, ha, hdone, hcache⟩
  · refine hkeep (fun r' hr' => ?_) ?_
    · rw [hcache, KvCacheManager.freeAll_lookup, if_neg (hgone r' hr')]
    · rw [hcache]
      exact KvCacheManager.Moves.blockSize (KvCacheManager.freeAll_moves False gone s.cache)
  · have hcommit := s.cache.commitPrefill_moves False hs.settled.tallied a.id a.prompt False.elim
    have hbs := KvCacheManager.Moves.blockSize hcommit.1
    rw [← hcache] at hcommit hbs
    exact hkeep (fun r' _ => by rw [hcommit.2.tables]) hbs

/-! ## One block at two places -/

/-- **A block at two places is at the same one of two prompts that agree** up
to and including it, as long as no digests collide. -/
theorem KvCacheManager.Coherent.agree {m : KvCacheManager} (h : m.Coherent)
    (hbs : 0 < m.blockSize) (hfree : NoCollisions m.blockSize m.trace) {s s' : SequenceId}
    {p p' : List TokenId} {i j : ℕ} {b : BlockId} (ho : m.Occurs s i b) (ho' : m.Occurs s' j b)
    (hp : m.promptOf s = some p) (hp' : m.promptOf s' = some p') (hne : (s, i) ≠ (s', j)) :
    i = j ∧ (i + 1) * m.blockSize ≤ p.length ∧ (i + 1) * m.blockSize ≤ p'.length
      ∧ p.take ((i + 1) * m.blockSize) = p'.take ((i + 1) * m.blockSize) := by
  obtain ⟨g, hkey, hkey'⟩ := h.shared ho ho' hne
  have hchain : ∀ {s : SequenceId} {p : List TokenId} {i : ℕ}, m.promptOf s = some p →
      m.key s i = some g → (i + 1) * m.blockSize ≤ p.length ∧ chainHash m.blockSize p i = g := by
    intro s p i hp hkey
    unfold key at hkey
    rw [hp, Option.bind_some] at hkey
    split at hkey
    · next hfull => exact ⟨hfull, Option.some.inj hkey⟩
    · exact absurd hkey (by simp)
  obtain ⟨hfull, hg⟩ := hchain hp hkey
  obtain ⟨hfull', hg'⟩ := hchain hp' hkey'
  have htake := hfree s' p' s p (mem_trace_of_promptOf hp') (mem_trace_of_promptOf hp) i j hfull'
    hfull (hg'.trans hg.symm)
  have hlen := congrArg List.length htake
  rw [List.length_take, List.length_take, min_eq_left hfull, min_eq_left hfull'] at hlen
  obtain rfl : i = j := Nat.succ.inj (Nat.eq_of_mul_eq_mul_right hbs hlen.symm)
  exact ⟨rfl, hfull, hfull', htake.symm⟩

namespace Engine

/-! ## The jobs of a batch -/

/-- What an entry has in the batch: its slot, and of the prompt of its sequence
what counts as computed. -/
def entryJob (s : Scheduler KvCacheManager) (d : ScheduledSequence) : Option Job :=
  (s.runningSequence d.id).bind fun seq => (s.cache.rawBlockTable d.id).bind fun table =>
    if (entryTokens seq d).isEmpty then none
    else some ⟨slotOf seq table d, seq.prompt.take seq.computedPrefixLen⟩

/-- The jobs of a batch. -/
def jobsOf (s : Scheduler KvCacheManager) (out : SchedulerOutput) : List Job :=
  out.scheduled.filterMap (entryJob s)

section Jobs

variable {s : Scheduler KvCacheManager} {out : SchedulerOutput} {b : ForwardBatch}
  {d : ScheduledSequence} {j : Job}

theorem entryJob_eq_some_iff : entryJob s d = some j ↔ ∃ r t, s.runningSequence d.id = some r
    ∧ s.cache.blockTable d.id = some t ∧ entryTokens r d ≠ []
    ∧ j = ⟨slotOf r t.blocks d, r.prompt.take r.computedPrefixLen⟩ := by
  unfold entryJob KvCacheManager.rawBlockTable
  rw [Option.bind_eq_some_iff]
  refine exists_congr (fun r => ?_)
  rcases s.cache.blockTable d.id with - | t
  · simp
  · rcases hempty : (entryTokens r d).isEmpty with - | -
    · have hne : entryTokens r d ≠ [] := by simpa using hempty
      simp [hne, eq_comm]
    · have hnil : entryTokens r d = [] := List.isEmpty_iff.mp hempty
      simp [hnil]

/-- One entry of `build_batch`. -/
theorem addEntry_eq_ok {b' : ForwardBatch} (h : addEntry s b d = .ok b') :
    b' = ((entryJob s d).toList.map Job.slot).foldl .push b := by
  unfold addEntry at h
  unfold entryJob
  split at h
  · next hgone =>
    rw [hgone]
    exact (Except.ok.inj h).symm
  next seq hseq =>
  split at h
  · exact absurd h (by simp)
  next table htable =>
  rw [hseq, Option.bind_some, htable, Option.bind_some]
  split at h
  · next hempty =>
    rw [if_pos hempty]
    exact (Except.ok.inj h).symm
  · next hne =>
    rw [if_neg hne]
    exact (Except.ok.inj h).symm

theorem addEntries_eq_ok (es : List ScheduledSequence) : ∀ {b b' : ForwardBatch},
    addEntries s b es = .ok b' →
      b' = ((es.filterMap (entryJob s)).map Job.slot).foldl .push b := by
  induction es with
  | nil => exact fun h => (Except.ok.inj h).symm
  | cons e es ih =>
    intro b b' h
    unfold addEntries at h
    split at h
    · next b₁ hone =>
      rw [ih h, addEntry_eq_ok hone, ← List.foldl_append, ← List.map_append]
      rcases hjob : entryJob s e with - | j
      · rw [List.filterMap_cons_none hjob]
        rfl
      · rw [List.filterMap_cons_some hjob]
        rfl
    · exact absurd h (by simp)

/-- **The batch is made of its jobs.** -/
theorem buildBatch_eq_ofSlots (h : buildBatch s out = .ok b) :
    b = .ofSlots ((jobsOf s out).map Job.slot) := by
  unfold buildBatch at h
  split at h
  · exact absurd h (by simp)
  next b₁ hadd =>
  split at h
  · exact absurd h (by simp)
  · obtain rfl := Except.ok.inj h
    exact addEntries_eq_ok _ hadd

end Jobs

/-! ## The forward pass of a call -/

/-- **A call within bounds**: positions fit into 32 bits, every part of a prompt
in the batch counts as computed – it does unless its sequence was evicted after
it and brought back in the same call – and no digests collide. -/
structure Orderly (s : Scheduler KvCacheManager) (out : SchedulerOutput) : Prop where
  short : ∀ r ∈ s.running, r.prompt.length + r.output.length < 2 ^ 32
  counted : ∀ d ∈ out.scheduled, d.isPrefill = true → ∀ r ∈ s.running, r.id = d.id →
    d.startPosition + d.numTokens ≤ r.computedPrefixLen
  apart : KvCacheManager.NoCollisions s.cache.blockSize s.cache.trace

section Forward

variable {F D : Type*} [Scalars F D] {m : TransformerModel F} {c : TransformerModel.Contents}
  {s : Scheduler KvCacheManager} {d : ScheduledSequence} {r : Sequence} {t : BlockTable}

/-- The sequence of an entry with a table is not finished. -/
theorem resident_of_entry (hs : s.Sound) (hd : d ∈ s.schedule.2.scheduled)
    (hr : r ∈ s.schedule.1.running) (hid : r.id = d.id)
    (ht : s.schedule.1.cache.blockTable r.id = some t) :
    r.computedPrefixLen ≤ r.prompt.length := by
  refine (hs.schedule.resident hr (fun hfin => ?_)).stage.le
  exact absurd ((hs.booked.spent d hd r hr hid hfin).symm.trans ht) (by simp)

/-- **A row of an entry** is in the computed part of the prompt, or behind the
prompt and the output. -/
theorem row_of_entry (hs : s.Sound) (ho : Orderly s.schedule.1 s.schedule.2)
    (hd : d ∈ s.schedule.2.scheduled) (hr : r ∈ s.schedule.1.running) (hid : r.id = d.id)
    {row : Row} (hrow : row ∈ (slotOf r t.blocks d).rows) :
    row.table = t.blocks
      ∧ ((d.isPrefill = true ∧ row.position < r.computedPrefixLen
          ∧ r.prompt[row.position]? = some row.token)
        ∨ r.prompt.length + r.output.length ≤ row.position) := by
  obtain ⟨i, tok, htok, rfl⟩ := BatchSlot.mem_rows_iff.mp hrow
  refine ⟨rfl, ?_⟩
  have hshort := ho.short r hr
  have htok : (entryTokens r d)[i]? = some tok := htok
  obtain ⟨hi, -⟩ := List.getElem?_eq_some_iff.mp htok
  rcases hs.booked.suits d hd (r.id, r.prompt, r.output)
    (List.mem_map.mpr ⟨r, List.mem_append_left _ hr, rfl⟩) hid with
    ⟨hpre, -, hle⟩ | ⟨hdec, -, hstart⟩
  · have hle : d.startPosition + d.numTokens ≤ r.prompt.length := hle
    have hcounted := ho.counted d hd hpre r hr hid
    rw [length_entryTokens_prefill hpre hle] at hi
    rw [getElem?_entryTokens hpre hle hi] at htok
    have hposition : (d.startPosition + i) % 2 ^ 32 = d.startPosition + i :=
      Nat.mod_eq_of_lt (by omega)
    refine Or.inl ⟨hpre, ?_, ?_⟩
    · show (d.startPosition + i) % 2 ^ 32 < _
      rw [hposition]
      omega
    · show r.prompt[(d.startPosition + i) % 2 ^ 32]? = some tok
      rw [hposition]
      exact htok
  · have hone : (entryTokens r d).length ≤ 1 := by
      unfold entryTokens
      rw [if_neg (by simp [hdec])]
      split
      · exact le_rfl
      · rcases r.prompt.getLast? with - | x
        · exact Nat.zero_le 1
        · exact le_rfl
    have hstart : d.startPosition = r.prompt.length + r.output.length := hstart
    obtain rfl : i = 0 := by omega
    refine Or.inr ?_
    show _ ≤ (d.startPosition + 0) % 2 ^ 32
    rw [Nat.add_zero, hstart, Nat.mod_eq_of_lt hshort]

/-- Who a job is of. -/
theorem exists_of_mem_jobs {j : Job} (hj : j ∈ jobsOf s.schedule.1 s.schedule.2) :
    ∃ d ∈ s.schedule.2.scheduled, ∃ r ∈ s.schedule.1.running, ∃ t, r.id = d.id
      ∧ s.schedule.1.cache.blockTable r.id = some t ∧ entryTokens r d ≠ []
      ∧ j = ⟨slotOf r t.blocks d, r.prompt.take r.computedPrefixLen⟩ := by
  obtain ⟨d, hd, hjob⟩ := List.mem_filterMap.mp hj
  obtain ⟨r, t, hfind, ht, hne, rfl⟩ := entryJob_eq_some_iff.mp hjob
  have hid := List.key_of_findKey hfind
  exact ⟨d, hd, r, List.mem_of_findKey hfind, t, hid, hid ▸ ht, hne, rfl⟩

/-- **What a call counts as computed is held once its jobs have written.** -/
theorem stored_after (hs : s.Sound) (ho : Orderly s.schedule.1 s.schedule.2)
    (hcache : s.schedule.1.cache.Coherent) (hbs : m.blockSize = s.schedule.1.cache.blockSize)
    (hlocated : ∀ j ∈ jobsOf s.schedule.1 s.schedule.2, ∀ row ∈ j.slot.rows,
      (locate row.table row.position m.blockSize).isSome)
    (h : s.passes.Stored c) :
    s.schedule.1.Stored (m.contentsAfter c (jobsOf s.schedule.1 s.schedule.2)) := by
  have hs' := hs.schedule
  intro r hr hhas q hq
  obtain ⟨t, ht⟩ := Option.isSome_iff_exists.mp hhas
  have hsource := hs'.ownCommit hr hhas
  -- every row that writes the slot is about this prefix
  have hall : ∀ b, s.schedule.1.cache.Occurs r.id (q / s.schedule.1.cache.blockSize) b →
      ∀ j ∈ jobsOf s.schedule.1 s.schedule.2, ∀ row ∈ j.slot.rows,
        m.slotOf row.place = (b, q % s.schedule.1.cache.blockSize) →
        (if row.position < j.text.length then some (j.text.take (row.position + 1)) else none)
          = some (r.prompt.take (q + 1)) := by
    intro b hplace j hj row hrow hslot
    have hloc := TransformerModel.slotOf_eq (p := row.place) (hlocated j hj row hrow)
    obtain ⟨d, hd, r', hr', t', hid', ht', -, rfl⟩ := exists_of_mem_jobs hj
    obtain ⟨htable, hposition⟩ := row_of_entry hs ho hd hr' hid' hrow
    have hle' := resident_of_entry hs hd hr' hid' ht'
    rw [hslot, hbs] at hloc
    change locate row.table row.position _ = _ at hloc
    rw [htable] at hloc
    obtain ⟨b', hb', heq⟩ := Option.map_eq_some_iff.mp hloc
    obtain ⟨rfl, hmod⟩ := Prod.mk.inj heq
    have hplace' : s.schedule.1.cache.Occurs r'.id
      (row.position / s.schedule.1.cache.blockSize) b' := ⟨t', ht', hb'⟩
    -- it is the same position, of the same prompt up to there
    obtain ⟨hpos, hlt, htake⟩ : row.position = q ∧ q < r'.computedPrefixLen
        ∧ r'.prompt.take (q + 1) = r.prompt.take (q + 1) := by
      by_cases hsame : (r'.id, row.position / s.schedule.1.cache.blockSize)
          = (r.id, q / s.schedule.1.cache.blockSize)
      · obtain ⟨hid, hdiv⟩ := Prod.mk.inj hsame
        obtain rfl := List.eq_of_key_eq hs'.nodup_running hr' hr hid
        refine ⟨?_, hq, rfl⟩
        rw [← Nat.div_add_mod row.position s.schedule.1.cache.blockSize, hdiv, hmod,
          Nat.div_add_mod]
      · have hsource' := hs'.ownCommit hr' (Option.isSome_iff_exists.mpr ⟨t', ht'⟩)
        obtain ⟨hdiv, hfull', hfull, htake⟩ := hcache.agree hs'.settled.blockSize ho.apart hplace'
          hplace hsource' hsource hsame
        have hpos : row.position = q := by
          rw [← Nat.div_add_mod row.position s.schedule.1.cache.blockSize, hdiv, hmod,
            Nat.div_add_mod]
        have hin : q < (row.position / s.schedule.1.cache.blockSize + 1)
            * s.schedule.1.cache.blockSize := by
          rw [hdiv]
          exact (Nat.div_lt_iff_lt_mul hs'.settled.blockSize).mp (Nat.lt_succ_self _)
        refine ⟨hpos, ?_, ?_⟩
        · rcases hposition with ⟨-, hlt, -⟩ | hbehind
          · exact hpos ▸ hlt
          · omega
        · have hcut := congrArg (List.take (q + 1)) htake
          rwa [List.take_take, List.take_take, min_eq_left hin] at hcut
    have htext : row.position < (r'.prompt.take r'.computedPrefixLen).length := by
      rw [List.length_take, min_eq_left hle', hpos]
      exact hlt
    rw [if_pos htext, List.take_take, hpos, min_eq_left hlt, htake]
  rcases h r hr hhas q hq with ⟨b, hplace, hc⟩ | ⟨d, hd, hdid, hpre, hspan⟩
  · exact ⟨b, hplace, TransformerModel.contentsAfter_eq (hall b hplace) (Or.inl hc)⟩
  -- one of its own rows writes the slot
  have hle : d.startPosition + d.numTokens ≤ r.prompt.length := by
    rcases hs.booked.suits d hd (r.id, r.prompt, r.output)
      (List.mem_map.mpr ⟨r, List.mem_append_left _ hr, rfl⟩) hdid.symm with
      ⟨-, -, hle⟩ | ⟨hdec, -⟩
    · exact hle
    · exact absurd (hpre.symm.trans hdec) (by simp)
  have hq₁ : d.startPosition ≤ q := hspan.1
  have hq₂ : q < d.startPosition + d.numTokens := hspan.2
  have hlt : q < r.prompt.length := hq₂.trans_le hle
  have hreach : q / s.schedule.1.cache.blockSize < t.blocks.length := by
    rw [Nat.div_lt_iff_lt_mul hs'.settled.blockSize]
    exact hlt.trans_le (hs'.prompt_le_table hr ht)
  have hplace : s.schedule.1.cache.Occurs r.id (q / s.schedule.1.cache.blockSize)
      t.blocks[q / s.schedule.1.cache.blockSize] := ⟨t, ht, List.getElem?_eq_getElem hreach⟩
  have hfind : s.schedule.1.runningSequence d.id = some r :=
    (List.findKey_eq_some_iff hs'.nodup_running).mpr ⟨hr, hdid.symm⟩
  have htoken : (entryTokens r d)[q - d.startPosition]? = some r.prompt[q] := by
    rw [getElem?_entryTokens hpre hle (by omega), Nat.add_sub_cancel' hq₁,
      List.getElem?_eq_getElem hlt]
  have hjob := entryJob_eq_some_iff.mpr ⟨r, t, hfind, hdid ▸ ht,
    List.ne_nil_of_length_pos ((Nat.zero_le _).trans_lt (List.getElem?_eq_some_iff.mp htoken).1),
    rfl⟩
  refine ⟨_, hplace, TransformerModel.contentsAfter_eq (hall _ hplace)
    (Or.inr ⟨_, List.mem_filterMap.mpr ⟨d, hd, hjob⟩, _,
      BatchSlot.mem_rows_iff.mpr ⟨q - d.startPosition, r.prompt[q], htoken, rfl⟩, ?_⟩)⟩
  have hshort := ho.short r hr
  have hposition : (d.startPosition + (q - d.startPosition)) % 2 ^ 32 = q := by
    rw [Nat.add_sub_cancel' hq₁, Nat.mod_eq_of_lt (by omega)]
  show (locate t.blocks
      ((d.startPosition + (q - d.startPosition)) % 2 ^ 32) m.blockSize).getD _ = _
  rw [hposition, hbs]
  unfold locate
  rw [List.getElem?_eq_getElem hreach]
  rfl

/-- **The jobs of a call find their own text.** -/
theorem coherent_jobs (hs : s.Sound) (ho : Orderly s.schedule.1 s.schedule.2)
    (hbs : m.blockSize = s.schedule.1.cache.blockSize)
    (h : s.schedule.1.Stored (m.contentsAfter c (jobsOf s.schedule.1 s.schedule.2))) :
    m.Coherent c (jobsOf s.schedule.1 s.schedule.2) := by
  intro j hj
  obtain ⟨d, hd, r, hr, t, hid, ht, hne, rfl⟩ := exists_of_mem_jobs hj
  have hlen : (r.prompt.take r.computedPrefixLen).length = r.computedPrefixLen := by
    rw [List.length_take, min_eq_left (resident_of_entry hs hd hr hid ht)]
  refine ⟨⟨hne, fun row hrow hlt => ?_⟩, fun row hrow hlt pos hpos a ha => ?_⟩
  · simp only [hlen] at hlt ⊢
    rw [List.getElem?_take_of_lt hlt]
    obtain ⟨-, ⟨-, -, htoken⟩ | hbehind⟩ := row_of_entry hs ho hd hr hid hrow
    · exact htoken
    · exact absurd (hlt.trans_le (resident_of_entry hs hd hr hid ht))
        (not_lt.mpr ((Nat.le_add_right _ _).trans hbehind))
  · simp only [hlen] at hlt
    have hin : pos < r.computedPrefixLen := hpos.trans_lt hlt
    obtain ⟨b, ⟨u, hu, hb⟩, hc⟩ := h r hr (Option.isSome_iff_exists.mpr ⟨t, ht⟩) pos hin
    obtain rfl : u = t := Option.some.inj (hu.symm.trans ht)
    have ha : locate u.blocks pos m.blockSize = some a := ha
    unfold locate at ha
    rw [hbs, hb] at ha
    obtain rfl := Option.some.inj ha
    rw [hc, List.take_take, min_eq_left hin]

end Forward

end Engine
