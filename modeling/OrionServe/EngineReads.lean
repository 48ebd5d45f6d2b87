import OrionServe.EngineFirstToken

/-!
# Whose entries a sequence reads

For a row at some position, attention reads the slots of all positions up to it
in the block table that the row comes with. Blocks are handed on as they are, so
a slot may hold what another sequence has left there. `FindsOwn` says that it
does not: the slot was last written for the token that the sequence has at this
position, by a row of its own or of a sequence that has the same tokens up to
there, since the block was last handed out.

A run in order keeps this for every row of a prompt, and for no row of a decode
step (`Engine.readsOwn_iff`): a decode row is one position late, so that the
sequence has no token at the position that it writes and reads last. What the
arena holds is traced back to the rows that wrote it (`Records`); that they did
so since the block was handed out is known from `Scheduler.Computed`.

A sequence that has no decode rows is then sent tokens that follow from its
prompt, its parameters and its sampler, whoever had the blocks before
(`Engine.exists_drawn_of_prefills`).
-/

/-! ## The last write of a slot -/

/-- The rows of a pass that write a slot, in their order. A pass with a row that
has no slot ends before it writes anything. -/
def ForwardPass.writesAt (bs : ℕ) (a : BlockId × ℕ) (f : ForwardPass) : List Row :=
  if ∀ row ∈ f.batch.rows, (locate row.table row.position bs).isSome = true then
    f.batch.rows.filter (fun row => locate row.table row.position bs = some a)
  else []

/-- **The last write of a slot**: the newest pass that writes it, and the last
row that does so there. Of the passes with slots for all rows none is left out:
one that fails may have failed after its writes. -/
def lastWrite (bs : ℕ) (fs : List ForwardPass) (a : BlockId × ℕ) : Option (ForwardPass × Row) :=
  fs.findSome? (fun f => ((f.writesAt bs a).getLast?).map (fun row => (f, row)))

/-- **A sequence finds its own entry in a slot** for a position: the last write
is one of a pass that succeeded, for the token of the sequence at that position.
It was made by the sequence itself, or by one whose prompt is the same up to and
including the position, and the block was not handed out since. -/
def FindsOwn (bs : ℕ) (fs : List ForwardPass) (trace : List BlockEvent) (seq : Sequence) (q : ℕ)
    (a : BlockId × ℕ) : Prop :=
  ∃ f row, lastWrite bs fs a = some (f, row) ∧ f.succeeded = true ∧ row.position = q
    ∧ seq.allTokens[q]? = some row.token
    ∧ (row.id = seq.id ∨ ∃ prompt, .opened row.id prompt ∈ trace
        ∧ prompt.take (q + 1) = seq.allTokens.take (q + 1))
    ∧ ∀ x ∈ eventsAfter f.stamp trace, x.fresh ≠ some a.1

section LastWrite

variable {bs : ℕ} {f g : ForwardPass} {fs : List ForwardPass} {a : BlockId × ℕ} {row row' : Row}

/-- A pass that does not write the slot. -/
theorem lastWrite_cons_of_nil (h : f.writesAt bs a = []) :
    lastWrite bs (f :: fs) a = lastWrite bs fs a := by
  unfold lastWrite
  rw [List.findSome?_cons, h]
  rfl

/-- A pass that does. -/
theorem lastWrite_cons_of_last (h : (f.writesAt bs a).getLast? = some row) :
    lastWrite bs (f :: fs) a = some (f, row) := by
  unfold lastWrite
  rw [List.findSome?_cons, h]
  rfl

/-- A row of a pass that has slots for all of its rows. -/
theorem ForwardPass.mem_writesAt
    (hall : ∀ row ∈ f.batch.rows, (locate row.table row.position bs).isSome = true)
    (hrow : row ∈ f.batch.rows) (ha : locate row.table row.position bs = some a) :
    row ∈ f.writesAt bs a := by
  unfold writesAt
  rw [if_pos hall]
  exact List.mem_filter.mpr ⟨hrow, by simpa using ha⟩

/-- No write of the slot is newer than the last one. -/
theorem stamp_le_of_lastWrite (hsorted : fs.Pairwise (fun f g => g.stamp ≤ f.stamp))
    (hg : g ∈ fs) (hrow : row' ∈ g.writesAt bs a) (h : lastWrite bs fs a = some (f, row)) :
    g.stamp ≤ f.stamp := by
  induction fs with
  | nil => exact absurd hg List.not_mem_nil
  | cons f₀ fs ih =>
    obtain ⟨hf₀, hfs⟩ := List.pairwise_cons.mp hsorted
    rcases hlast : (f₀.writesAt bs a).getLast? with - | row₀
    · have hnil := List.getLast?_eq_none_iff.mp hlast
      rw [lastWrite_cons_of_nil hnil] at h
      refine ih hfs ((List.mem_cons.mp hg).resolve_left ?_) h
      rintro rfl
      rw [hnil] at hrow
      exact absurd hrow List.not_mem_nil
    · rw [lastWrite_cons_of_last hlast] at h
      obtain ⟨rfl, -⟩ := Prod.mk.inj (Option.some.inj h)
      rcases List.mem_cons.mp hg with rfl | hg
      · exact le_rfl
      · exact hf₀ g hg

/-- Fewer events came after a later pass. -/
theorem eventsAfter_subset {stamp stamp' : ℕ} (h : stamp ≤ stamp') (trace : List BlockEvent) :
    eventsAfter stamp' trace ⊆ eventsAfter stamp trace :=
  (List.take_sublist_take_left (Nat.sub_le_sub_left h _)).subset

end LastWrite

/-- **The passes of a history**, newest first: each has a stamp in the history of
the cache, and one that succeeded had slots for all of its rows. -/
structure Logged (bs : ℕ) (fs : List ForwardPass) (trace : List BlockEvent) : Prop where
  sorted : fs.Pairwise (fun f g => g.stamp ≤ f.stamp)
  past : ∀ f ∈ fs, f.stamp ≤ trace.length
  located : ∀ f ∈ fs, f.succeeded = true → ∀ row ∈ f.batch.rows,
    (locate row.table row.position bs).isSome = true

/-- **Contents that the history accounts for**: what a slot is said to hold is
the prompt, up to the position of the row that wrote it last, of the sequence of
that row. -/
def Records (bs : ℕ) (fs : List ForwardPass) (trace : List BlockEvent)
    (c : TransformerModel.Contents) : Prop :=
  ∀ a tokens, c a = some tokens → ∃ f row prompt, lastWrite bs fs a = some (f, row)
    ∧ f.succeeded = true ∧ .opened row.id prompt ∈ trace
    ∧ prompt[row.position]? = some row.token ∧ tokens = prompt.take (row.position + 1)

namespace Logged

variable {bs : ℕ} {fs : List ForwardPass} {trace new : List BlockEvent}

theorem append (h : Logged bs fs trace) (new : List BlockEvent) :
    Logged bs fs (new ++ trace) where
  sorted := h.sorted
  past f hf := (h.past f hf).trans (by rw [List.length_append]; exact Nat.le_add_left _ _)
  located := h.located

/-- One more pass. -/
theorem cons (h : Logged bs fs trace) {b : ForwardBatch} {ok : Bool}
    (hlocated : ok = true → ∀ row ∈ b.rows, (locate row.table row.position bs).isSome = true) :
    Logged bs (⟨b, trace.length, ok⟩ :: fs) trace where
  sorted := List.pairwise_cons.mpr ⟨h.past, h.sorted⟩
  past := List.forall_mem_cons.mpr ⟨le_rfl, h.past⟩
  located := List.forall_mem_cons.mpr ⟨hlocated, h.located⟩

end Logged

namespace Records

variable {F D : Type*} [Scalars F D] {m : TransformerModel F} {bs : ℕ} {f : ForwardPass}
  {fs : List ForwardPass} {trace : List BlockEvent} {c : TransformerModel.Contents}

omit [Scalars F D] in
theorem append (h : Records bs fs trace c) (new : List BlockEvent) :
    Records bs fs (new ++ trace) c := by
  intro a tokens ha
  obtain ⟨f, row, prompt, hlast, hok, hopened, hrest⟩ := h a tokens ha
  exact ⟨f, row, prompt, hlast, hok, List.mem_append_right _ hopened, hrest⟩

omit [Scalars F D] in
/-- A pass that writes nothing. -/
theorem cons_of_nil (h : Records bs fs trace c) (hnil : ∀ a, f.writesAt bs a = []) :
    Records bs (f :: fs) trace c := by
  intro a tokens ha
  rw [lastWrite_cons_of_nil (hnil a)]
  exact h a tokens ha

/-- **A pass over jobs**: where the text of a job is known, it is a part of the
prompt of the job's sequence, and the pass succeeds. -/
theorem cons_of_jobs (h : Records m.blockSize fs trace c) {jobs : List Job}
    (hrows : f.batch.rows = jobs.flatMap (fun j => j.slot.rows))
    (hlocated : ∀ j ∈ jobs, ∀ row ∈ j.slot.rows,
      (locate row.table row.position m.blockSize).isSome = true)
    (hjobs : ∀ j ∈ jobs, ∀ row ∈ j.slot.rows, row.position < j.text.length →
      f.succeeded = true ∧ ∃ prompt, .opened row.id prompt ∈ trace
        ∧ prompt[row.position]? = some row.token
        ∧ j.text.take (row.position + 1) = prompt.take (row.position + 1)) :
    Records m.blockSize (f :: fs) trace (m.contentsAfter c jobs) := by
  intro a tokens htokens
  rw [TransformerModel.contentsAfter_eq_last] at htokens
  set pairs := jobs.flatMap (fun j => j.slot.rows.map (fun r => (j, r))) with hpairs
  have hmem : ∀ x ∈ pairs, x.1 ∈ jobs ∧ x.2 ∈ x.1.slot.rows := by
    intro x hx
    obtain ⟨j, hj, hx⟩ := List.mem_flatMap.mp hx
    obtain ⟨row, hrow, rfl⟩ := List.mem_map.mp hx
    exact ⟨hj, hrow⟩
  -- the rows of the batch, each with its job
  have hbatch : f.batch.rows = pairs.map Prod.snd := by
    rw [hrows, hpairs, List.map_flatMap]
    simp
  have hall : ∀ row ∈ f.batch.rows,
      (locate row.table row.position m.blockSize).isSome = true := by
    intro row hrow
    rw [hbatch] at hrow
    obtain ⟨x, hx, rfl⟩ := List.mem_map.mp hrow
    exact hlocated x.1 (hmem x hx).1 x.2 (hmem x hx).2
  have hwrites : f.writesAt m.blockSize a
      = (pairs.filter (fun x => m.slotOf x.2.place = a)).map Prod.snd := by
    unfold ForwardPass.writesAt
    rw [if_pos hall, hbatch, List.filter_map]
    refine congrArg (List.map Prod.snd) (List.filter_congr (fun x hx => ?_))
    have hslot := TransformerModel.slotOf_eq (p := x.2.place)
      (hlocated x.1 (hmem x hx).1 x.2 (hmem x hx).2)
    change locate x.2.table x.2.position m.blockSize = _ at hslot
    simp [hslot]
  rcases hlast : (pairs.filter (fun x => m.slotOf x.2.place = a)).getLast? with - | ⟨j, row⟩
  · rw [hlast] at htokens
    have hnil : f.writesAt m.blockSize a = [] := by
      rw [hwrites, List.getLast?_eq_none_iff.mp hlast]
      rfl
    rw [lastWrite_cons_of_nil hnil]
    exact h a tokens htokens
  · rw [hlast] at htokens
    obtain ⟨hj, hrow⟩ := hmem _ (List.mem_filter.mp (List.mem_of_getLast? hlast)).1
    have hsays : (if row.position < j.text.length
        then some (j.text.take (row.position + 1)) else none) = some tokens := htokens
    split at hsays
    · next hlt =>
      obtain ⟨hok, prompt, hopened, htoken, htext⟩ := hjobs j hj row hrow hlt
      refine ⟨f, row, prompt, lastWrite_cons_of_last ?_, hok, hopened, htoken, ?_⟩
      · rw [hwrites, List.getLast?_map, hlast]
        rfl
      · exact (Option.some.inj hsays).symm.trans htext
    · exact absurd hsays (by simp)

end Records

/-- **What counts as computed is found**: the row that wrote a slot last was at
the position that the sequence has the slot for. -/
theorem findsOwn_of_computed {bs : ℕ} {fs : List ForwardPass} {s : Scheduler KvCacheManager}
    {c : TransformerModel.Contents} (hlog : Logged bs fs s.cache.trace)
    (hrec : Records bs fs s.cache.trace c) (hst : s.Stored c) (hcomp : s.Computed fs)
    (hbs : s.cache.blockSize = bs) {r : Sequence} (hr : r ∈ s.running) {t : BlockTable}
    (ht : s.cache.blockTable r.id = some t) (hle : r.computedPrefixLen ≤ r.prompt.length) {q : ℕ}
    (hq : q < r.computedPrefixLen) {a : BlockId × ℕ} (ha : locate t.blocks q bs = some a) :
    FindsOwn bs fs s.cache.trace r q a := by
  subst hbs
  have hhas : s.cache.isAllocated r.id = true := Option.isSome_iff_exists.mpr ⟨t, ht⟩
  have hlt : q < r.prompt.length := hq.trans_le hle
  -- the slot is the one that its table has for the position
  have hplace : ∀ {b}, s.cache.Occurs r.id (q / s.cache.blockSize) b →
      a = (b, q % s.cache.blockSize) := by
    rintro b ⟨u, hu, hb⟩
    obtain rfl := Option.some.inj (hu.symm.trans ht)
    unfold locate at ha
    rw [hb] at ha
    exact (Option.some.inj ha).symm
  obtain ⟨b, ho, hc⟩ := hst r hr hhas q hq
  obtain rfl := hplace ho
  obtain ⟨f, row, prompt, hlast, hok, hopened, htoken, htake⟩ := hrec _ _ hc
  have hrow : row.position < prompt.length := (List.getElem?_eq_some_iff.mp htoken).1
  have hpos : row.position = q := by
    have hlen := congrArg List.length htake
    rw [List.length_take, List.length_take] at hlen
    omega
  subst hpos
  have hall : r.allTokens.take (row.position + 1) = r.prompt.take (row.position + 1) :=
    List.take_append_of_le_length hlt
  refine ⟨f, row, hlast, hok, rfl, ?_, Or.inr ⟨prompt, hopened, htake.symm.trans hall.symm⟩, ?_⟩
  · have hget := congrArg (·[row.position]?) (hall.trans htake)
    simp only [List.getElem?_take_of_lt (Nat.lt_succ_self _)] at hget
    exact hget.trans htoken
  · -- an older pass wrote the slot since the block was handed out
    obtain ⟨b', token, ho', -, g, hg, hgood, hsince, row', hrow', -, -, -, hloc⟩ :=
      hcomp.running r hr hhas _ hq
    obtain rfl : b' = b := congrArg Prod.fst (hplace ho').symm
    have hwrites := ForwardPass.mem_writesAt (hlog.located g hg hgood) hrow' hloc
    have hle := stamp_le_of_lastWrite hlog.sorted hg hwrites hlast
    exact fun x hx => (hsince x (eventsAfter_subset hle _ hx)).1

namespace Engine

section Run

variable {F D S : Type*} [Scalars F D] {m : TransformerModel F} {config : SchedulerConfig}
  {n bs firstId : ℕ} {flag : Bool} {e e' : Engine (TransformerModel F) S}

/-! ## Every write is accounted for -/

omit [Scalars F D] in
/-- **The history of an engine accounts for what counts as computed.** -/
structure Traced (bs : ℕ) (e : Engine (TransformerModel F) S) : Prop where
  logged : Logged bs e.forwards e.scheduler.cache.trace
  held : ∃ c, Records bs e.forwards e.scheduler.cache.trace c ∧ e.scheduler.Stored c

omit [Scalars F D] in
/-- A quiet stretch. -/
theorem Traced.quiet (hbs : 1 ≤ bs) (hn : n ≤ 2 ^ 32)
    (hin : e.InService config n bs flag firstId) (h : e.Traced bs) (hq : e.Quiet e') :
    e'.Traced bs := by
  obtain ⟨hlog, c, hrec, hst⟩ := h
  have hforwards : e'.forwards = e.forwards := by
    obtain ⟨ops, -, hops⟩ := hq
    exact hops.forwards
  obtain ⟨⟨new, htr⟩, hst'⟩ := hin.kept
    (P := fun s => (∃ new, s.cache.trace = new ++ e.scheduler.cache.trace) ∧ s.Stored c)
    (fun v hv op hop ⟨⟨new, htr⟩, hst⟩ => by
      have hs := (hv.sound hbs hn).sched
      obtain ⟨one, hone⟩ := Service.cacheTrace_run hs op
      exact ⟨⟨one ++ new, by rw [hone, htr, List.append_assoc]⟩,
        (Service.quietly_run hs hop).stored hs hst⟩)
    hq ⟨⟨[], rfl⟩, hst⟩
  refine ⟨?_, c, ?_, hst'⟩
  · rw [hforwards, htr]
    exact hlog.append new
  · rw [hforwards, htr]
    exact hrec.append new

omit [Scalars F D] in
/-- Where a step runs its batch: the call has made an entry for what it counts
as computed. -/
theorem Traced.scheduled (hbs : 1 ≤ bs) (hn : n ≤ 2 ^ 32)
    (hin : e.InService config n bs flag firstId) (h : e.Traced bs) (now : Instant) :
    Logged bs (e.scheduled now).forwards (e.scheduled now).scheduler.cache.trace
      ∧ ∃ c, Records bs (e.scheduled now).forwards (e.scheduled now).scheduler.cache.trace c
        ∧ (e.expire now).scheduler.passes.Stored c := by
  obtain ⟨hlog, c, hrec, hst⟩ := h.quiet hbs hn hin (e.quiet_expire now)
  have hs := (hin.quiet (e.quiet_expire now)).sound hbs hn
  obtain ⟨new, htr⟩ := Service.cacheTrace_run
    (v := ⟨(e.expire now).scheduler, 0, [], []⟩) hs .schedule
  have htr : (e.scheduled now).scheduler.cache.trace
      = new ++ (e.expire now).scheduler.cache.trace := htr
  rw [htr]
  exact ⟨hlog.append new, c, hrec.append new, PassMoves.stored
    (e.expire now).scheduler.passes_moves hs (fun r hr hhas q hq => Or.inl (hst r hr hhas q hq))⟩

omit [Scalars F D] in
/-- A call without a part of a prompt. -/
theorem Traced.scheduled_of_no_prefill (hbs : 1 ≤ bs) (hn : n ≤ 2 ^ 32)
    (hin : e.InService config n bs flag firstId) (h : e.Traced bs) {now : Instant}
    (hnone : ¬ e.HasPrefill now) : (e.scheduled now).Traced bs := by
  obtain ⟨hlog, c, hrec, hst⟩ := h.scheduled hbs hn hin now
  exact ⟨hlog, c, hrec, hst.of_no_prefill (fun d hd hpre => hnone ⟨d, hd, hpre⟩)⟩

omit [Scalars F D] in
/-- The rows of a batch are those of its jobs. -/
theorem rows_ofSlots (jobs : List Job) :
    (ForwardBatch.ofSlots (jobs.map Job.slot)).rows = jobs.flatMap (fun j => j.slot.rows) := by
  obtain ⟨-, hr, -⟩ := ForwardBatch.foldl_push ForwardBatch.aligned_empty (jobs.map Job.slot)
  rw [ForwardBatch.ofSlots, hr]
  show (jobs.map Job.slot).flatMap BatchSlot.rows = _
  rw [List.flatMap_map]

/-- **A batch that comes back with logits** had slots for all of its rows. -/
theorem ReachableIf.located [Sampler S F] (hbs : 1 ≤ bs) (hn : n ≤ 2 ^ 32)
    (hfit : m.ResidualsFit) (hsize : m.blockSize = bs)
    (h : e.ReachableIf InOrder config n bs flag m firstId) {now : Instant} {b : ForwardBatch}
    (hb : buildBatch (e.scheduled now).scheduler (e.output now) = .ok b) {out : ForwardOutput F}
    (hout : ((e.scheduled now).runForward b).2 = .ok out) :
    ∀ row ∈ b.rows, (locate row.table row.position bs).isSome = true := by
  have hin := h.reachable.inService
  obtain ⟨c, kv, hkv, hmodel, -, -⟩ := (h.backs hbs hn hfit hsize).scheduled hbs hn hin now
  obtain rfl := buildBatch_eq_ofSlots hb
  obtain ⟨hkv', hpass⟩ := TransformerModel.exists_forward_withKv hkv
    (.ofSlots ((jobsOf (e.scheduled now).scheduler (e.output now)).map Job.slot))
  rw [← hmodel] at hpass
  have hok := TransformerModel.mapError_eq_ok_iff.mp ((congrArg Prod.snd hpass).symm.trans hout)
  intro row hrow
  rw [rows_ofSlots] at hrow
  obtain ⟨j, hj, hrow⟩ := List.mem_flatMap.mp hrow
  have hlocated := TransformerModel.located_of_forwardOn hfit hkv (Prod.ext rfl hok) j hj row hrow
  rwa [hsize] at hlocated

/-- **The forward pass of a step**: what it writes is accounted for. -/
theorem Traced.runForward [Sampler S F] (hbs : 1 ≤ bs) (hn : n ≤ 2 ^ 32) (hfit : m.ResidualsFit)
    (hsize : m.blockSize = bs) (h : e.ReachableIf InOrder config n bs flag m firstId)
    (ht : e.Traced bs) {now : Instant} (hop : e.InOrder (.step now)) {b : ForwardBatch}
    (hb : buildBatch (e.scheduled now).scheduler (e.output now) = .ok b) :
    ((e.scheduled now).runForward b).1.Traced bs := by
  obtain ⟨ho, hsent⟩ := hop
  have hin := h.reachable.inService
  have hs := (hin.quiet (e.quiet_expire now)).sound hbs hn
  have hcache := (hin.scheduled now).cache hbs hn
  have hsize' : m.blockSize = (e.scheduled now).scheduler.cache.blockSize :=
    hsize.trans (hcache.blockSize hbs hn).symm
  obtain ⟨hlog, c, hrec, hst⟩ := ht.scheduled hbs hn hin now
  -- a batch with a part of a prompt comes back with logits
  have hgood : e.HasPrefill now →
      (LanguageModel.forward (e.scheduled now).model b).2.toBool = true := by
    intro hpre
    obtain ⟨b', hb', out, hout⟩ := hsent hpre
    obtain rfl := Except.ok.inj (hb.symm.trans hb')
    change (LanguageModel.forward (e.scheduled now).model b).2 = .ok out at hout
    rw [hout]
    rfl
  have hlocated : (LanguageModel.forward (e.scheduled now).model b).2.toBool = true →
      ∀ row ∈ b.rows, (locate row.table row.position bs).isSome = true := by
    intro htrue
    rcases hout : (LanguageModel.forward (e.scheduled now).model b).2 with err | out
    · rw [hout] at htrue
      exact absurd htrue (by simp [Except.toBool])
    · exact h.located hbs hn hfit hsize hb hout
  refine ⟨hlog.cons hlocated, ?_⟩
  show ∃ c, Records bs (⟨b, _, _⟩ :: (e.scheduled now).forwards)
    (e.scheduled now).scheduler.cache.trace c ∧ (e.scheduled now).scheduler.Stored c
  obtain rfl := buildBatch_eq_ofSlots hb
  by_cases hall : ∀ row ∈ (ForwardBatch.ofSlots
      ((jobsOf (e.scheduled now).scheduler (e.output now)).map Job.slot)).rows,
      (locate row.table row.position bs).isSome = true
  · have hall' : ∀ j ∈ jobsOf (e.scheduled now).scheduler (e.output now), ∀ row ∈ j.slot.rows,
        (locate row.table row.position m.blockSize).isSome = true := by
      intro j hj row hrow
      rw [hsize]
      refine hall row ?_
      rw [rows_ofSlots]
      exact List.mem_flatMap.mpr ⟨j, hj, hrow⟩
    refine ⟨_, ?_, stored_after hs ho (hcache.coherent hbs hn) hsize' hall' hst⟩
    subst hsize
    refine hrec.cons_of_jobs (rows_ofSlots _) hall' (fun j hj row hrow hlt => ?_)
    -- a row within the text is one of a part of a prompt
    obtain ⟨d, hd, r, hr, t, hid, ht, -, rfl⟩ := exists_of_mem_jobs hj
    have hlen : (r.prompt.take r.computedPrefixLen).length = r.computedPrefixLen := by
      rw [List.length_take, min_eq_left (resident_of_entry hs hd hr hid ht)]
    have hlt : row.position < (r.prompt.take r.computedPrefixLen).length := hlt
    rw [hlen] at hlt
    obtain ⟨-, ⟨hpre, -, htoken⟩ | hbehind⟩ := row_of_entry hs ho hd hr hid hrow
    · obtain ⟨i, tok, -, rfl⟩ := BatchSlot.mem_rows_iff.mp hrow
      have hsource := hs.schedule.ownCommit hr (Option.isSome_iff_exists.mpr ⟨t, ht⟩)
      refine ⟨hgood ⟨d, hd, hpre⟩, r.prompt, ?_, htoken, ?_⟩
      · show BlockEvent.opened d.id r.prompt ∈ _
        rw [← hid]
        exact KvCacheManager.mem_trace_of_promptOf hsource
      · show (r.prompt.take r.computedPrefixLen).take _ = _
        rw [List.take_take, min_eq_left hlt]
    · exact absurd (hlt.trans_le (resident_of_entry hs hd hr hid ht))
        (not_lt.mpr ((Nat.le_add_right _ _).trans hbehind))
  · -- a row without a slot ends the pass before it writes anything
    exact ⟨c, hrec.cons_of_nil (fun a => if_neg hall),
      hst.of_no_prefill (fun d hd hpre => hall (hlocated (hgood ⟨d, hd, hpre⟩)))⟩

/-- **Step lemma.** -/
theorem Traced.step [Sampler S F] (hbs : 1 ≤ bs) (hn : n ≤ 2 ^ 32) (hfit : m.ResidualsFit)
    (hsize : m.blockSize = bs) (h : e.ReachableIf InOrder config n bs flag m firstId)
    (ht : e.Traced bs) {now : Instant} (hop : e.InOrder (.step now)) :
    (e.step now).1.Traced bs := by
  have hin := h.reachable.inService
  have hin₂ := hin.scheduled now
  have hidle : ¬ e.HasPrefill now → (e.scheduled now).Traced bs :=
    ht.scheduled_of_no_prefill hbs hn hin
  rcases e.step_cases now with ⟨hempty, hstep, -⟩ | ⟨err, hbuild, hstep, -⟩ | ⟨b, hbuild, hfwd⟩
  · rw [hstep]
    exact (hidle (fun hpre => hpre.isEmpty_ne hempty)).quiet hbs hn hin₂ (quiet_reap _)
  · rw [hstep]
    refine hidle (fun hpre => ?_)
    obtain ⟨b, hb, -⟩ := hop.2 hpre
    exact absurd (hbuild.symm.trans hb) (by simp)
  have htraced := ht.runForward hbs hn hfit hsize h hop hbuild
  rcases hfwd with ⟨err, -, hstep, -⟩ | ⟨-, hquiet⟩
  · rw [hstep]
    exact htraced
  · exact htraced.quiet hbs hn (hin₂.runForward b) hquiet

/-- **Run lemma.** What counts as computed was computed, and every write is
accounted for. -/
theorem ReachableIf.traced [Sampler S F] (hbs : 1 ≤ bs) (hn : n ≤ 2 ^ 32) (hfit : m.ResidualsFit)
    (hsize : m.blockSize = bs) (h : e.ReachableIf InOrder config n bs flag m firstId) :
    e.Traced bs ∧ e.Computed := by
  induction h with
  | start =>
    refine ⟨⟨⟨.nil, by simp [Engine.new], by simp [Engine.new]⟩, fun _ => none,
      fun _ _ hnone => absurd hnone (by simp), fun r hr => absurd hr List.not_mem_nil⟩,
      fun r hr => absurd hr List.not_mem_nil, fun s p i b hs => ?_⟩
    exact hs.elim
  | @step e op h hop ih =>
    obtain ⟨htraced, hcomp⟩ := ih
    have hin := h.reachable.inService
    by_cases hstep : ∀ now, op ≠ .step now
    · have hq := e.quiet_of_ne_step hstep
      exact ⟨htraced.quiet hbs hn hin hq, hcomp.quiet hbs hn hin hq⟩
    · obtain ⟨now, hnow⟩ := not_forall.mp hstep
      obtain rfl := not_not.mp hnow
      refine ⟨htraced.step hbs hn hfit hsize h hop, hcomp.step hbs hn hin (fun r hr => ?_) hop.2⟩
      have hshort := hop.1.short r hr
      omega

/-! ## What a row reads -/

/-- **A row reads its sequence's own entries**: the slots of all positions up to
its own, in the table that it comes with, hold what the sequence has there. -/
def ReadsOwn (bs : ℕ) (e : Engine (TransformerModel F) S) (row : Row) (seq : Sequence) : Prop :=
  ∀ q ≤ row.position, ∀ a, locate row.table q bs = some a →
    FindsOwn bs e.forwards e.scheduler.cache.trace seq q a

/-- **A row of a run in order reads its sequence's own entries exactly when it is
one of the prompt.** The pass has written all rows of a layer when it reads. A
decode row submits the last token at the position behind it, where the sequence
has none. -/
theorem readsOwn_iff [Sampler S F] (hbs : 1 ≤ bs) (hn : n ≤ 2 ^ 32) (hfit : m.ResidualsFit)
    (hsize : m.blockSize = bs) (h : e.ReachableIf InOrder config n bs flag m firstId)
    {now : Instant} (hop : e.InOrder (.step now)) {b : ForwardBatch}
    (hb : buildBatch (e.scheduled now).scheduler (e.output now) = .ok b) {out : ForwardOutput F}
    (hout : ((e.scheduled now).runForward b).2 = .ok out) {row : Row} (hrow : row ∈ b.rows) :
    ∃ seq ∈ (e.scheduled now).scheduler.running, seq.id = row.id
      ∧ (((e.scheduled now).runForward b).1.ReadsOwn bs row seq
        ↔ row.position < seq.prompt.length) := by
  have hin := h.reachable.inService
  have hs := (hin.quiet (e.quiet_expire now)).sound hbs hn
  have hsize' := ((hin.scheduled now).cache hbs hn).blockSize hbs hn
  obtain ⟨htraced, hcomp⟩ := h.traced hbs hn hfit hsize
  obtain ⟨hlog, c, hrec, hst⟩ := htraced.runForward hbs hn hfit hsize h hop hb
  have hcomp' := hcomp.runForward hbs hn hin (fun r hr => by
    have hshort := hop.1.short r hr
    omega) hb hout
  have hlocated := h.located hbs hn hfit hsize hb hout row hrow
  have hjob : ∃ j ∈ jobsOf (e.scheduled now).scheduler (e.output now), row ∈ j.slot.rows := by
    rw [buildBatch_eq_ofSlots hb, rows_ofSlots] at hrow
    exact List.mem_flatMap.mp hrow
  obtain ⟨j, hj, hrow⟩ := hjob
  obtain ⟨d, hd, r, hr, t, hid, ht, -, rfl⟩ := exists_of_mem_jobs hj
  have hle := resident_of_entry hs hd hr hid ht
  obtain ⟨htable, hposition⟩ := row_of_entry hs hop.1 hd hr hid hrow
  obtain ⟨i, tok, -, hrowid⟩ := BatchSlot.mem_rows_iff.mp hrow
  refine ⟨r, hr, hid.trans (congrArg Row.id hrowid).symm, ?_⟩
  rcases hposition with ⟨-, hlt, -⟩ | hbehind
  · refine ⟨fun _ => hlt.trans_le hle, fun _ q hq a ha => ?_⟩
    rw [htable] at ha
    exact findsOwn_of_computed hlog hrec hst hcomp' hsize' hr ht hle (hq.trans_lt hlt) ha
  · refine ⟨fun hown => ?_, fun hlt => ?_⟩
    · -- there is no token at its own position
      obtain ⟨a, ha⟩ := Option.isSome_iff_exists.mp hlocated
      obtain ⟨g, w, -, -, -, htoken, -⟩ := hown row.position le_rfl a ha
      have hlt := (List.getElem?_eq_some_iff.mp htoken).1
      rw [Sequence.allTokens, List.length_append] at hlt
      exact absurd hlt (not_lt.mpr hbehind)
    · exact absurd (Nat.le_of_add_right_le hbehind) (not_le.mpr hlt)

/-! ## A sequence without decode rows -/

/-- **An operation that prefills a sequence only**: it is in order, and every
entry that the call makes for the sequence is a part of its prompt, up to where
its counter then stands. -/
def Prefills (id : SequenceId) (e : Engine (TransformerModel F) S) (op : EngineOp S) : Prop :=
  e.InOrder op ∧ ∀ now, op = .step now → ∀ d ∈ (e.output now).scheduled, d.id = id →
    d.isPrefill = true ∧ ∀ r ∈ (e.scheduled now).scheduler.running, r.id = id →
      r.computedPrefixLen ≤ d.startPosition + d.numTokens

/-- The logits of a prompt, whatever came after it. -/
def promptLogits (m : TransformerModel F) (prompt _output : List TokenId) : List F :=
  (m.logitsOf prompt).toOption.getD []

variable [Sampler S F] {id : SequenceId} {f : List TokenId → List TokenId → List F}
  {prompt : List TokenId} {params : SamplingParams} {s : S}

/-- **The rows of the output**, when those of the request have logits that do
not depend on what it was sent. -/
theorem Draws.emitRows_of_const {M : Type*} (hbs : 1 ≤ bs) (hn : n ≤ 2 ^ 32)
    (out : ForwardOutput F) (rows : List (SequenceId × ℕ)) : ∀ {e : Engine M S},
    e.InService config n bs flag firstId → e.Tracks [] [] → e.Draws id f prompt params s →
    (∀ row, (id, row) ∈ rows → ∀ logits, out.row row = some logits →
      ∀ q ∈ e.scheduler.running, q.id = id → q.isPrefillComplete = true →
        ∀ output, logits = f q.prompt output) →
    (e.emitRows out rows).1.Draws id f prompt params s := by
  induction rows with
  | nil => exact fun _ _ h _ => h
  | cons x rows ih =>
    obtain ⟨id', row⟩ := x
    intro e hin ht h hrows
    have hrest : ∀ row, (id, row) ∈ rows → ∀ logits, out.row row = some logits →
        ∀ q ∈ e.scheduler.running, q.id = id → q.isPrefillComplete = true →
          ∀ output, logits = f q.prompt output :=
      fun row hmem => hrows row (List.mem_cons_of_mem _ hmem)
    rcases e.emitRows_cases out id' row rows with ⟨-, -, -, hsame⟩ | ⟨err, hsame⟩
      | ⟨logits, hrow, hthrough, hcases⟩
    · rw [hsame]
      exact ih hin ht h hrest
    · rw [hsame]
      exact h
    have hone : (e.sampleAndEmit id' logits).1.Draws id f prompt params s := by
      by_cases heq : id' = id
      · subst heq
        exact h.sampleAndEmit ht (fun q hq => hrows row List.mem_cons_self logits hrow q
          (List.mem_of_findKey hq) (List.key_of_findKey hq) (hthrough q hq) _)
      · exact h.leaves (Leaves.sampleAndEmit ht.nodup heq logits)
    rcases hcases with ⟨err, -, hfail⟩ | ⟨-, hsame⟩
    · rw [hfail]
      exact hone
    · rw [hsame]
      have hgrown := hin.grown hbs hn (quiet_sampleAndEmit e id' logits)
      refine ih (hin.quiet (quiet_sampleAndEmit e id' logits)) (ht.sampleAndEmit id' logits) hone
        (fun row hmem logits hrow q' hq' hid hdone output => ?_)
      obtain ⟨q, hq, hg⟩ := hgrown q' hq'
      rw [hg.ends.prompt]
      exact hrest row hmem logits hrow q hq (hg.ends.id.symm.trans hid)
        (hg.isPrefillComplete.symm.trans hdone) output

/-- **Step lemma.** -/
theorem Draws.step_of_prefills (hbs : 1 ≤ bs) (hn : n ≤ 2 ^ 32) (hfit : m.ResidualsFit)
    (hsize : m.blockSize = bs) (hvocab : m.head.rows = m.metadata.vocabSize)
    (h : e.ReachableIf InOrder config n bs flag m firstId)
    (hdraws : e.Draws id (promptLogits m) prompt params s) {now : Instant}
    (hop : e.Prefills id (.step now)) :
    (e.step now).1.Draws id (promptLogits m) prompt params s := by
  obtain ⟨⟨ho, -⟩, hprefills⟩ := hop
  have hin := h.reachable.inService
  have hs := (hin.quiet (e.quiet_expire now)).sound hbs hn
  have hin₂ := hin.scheduled now
  have ht₂ := h.reachable.tracks.scheduled now
  have hmid := hdraws.leaves (Leaves.scheduled e now)
  have hfwd : ∀ b, ((e.scheduled now).runForward b).1.Draws id (promptLogits m) prompt params s :=
    fun b => hmid.leaves (.of_sub (fun _ hq => hq) rfl rfl)
  rcases e.step_stages now with ⟨-, hstep⟩ | ⟨err, -, hstep⟩
    | ⟨b, hb, ⟨err, -, hstep⟩ | ⟨out, hout, hlast⟩⟩
  · rw [hstep]
    exact hmid.leaves (Leaves.reap _)
  · rw [hstep]
    exact hmid
  · rw [hstep]
    exact hfwd b
  have hanswers := h.answers hbs hn hfit hsize ho hb hout
  have hemit := Draws.emitRows_of_const hbs hn out out.sequenceIds.zipIdx (hin₂.runForward b)
    (ht₂.congr rfl rfl rfl rfl) (hfwd b) (fun i hmem logits hrow q hq hid hdone output => by
      have hid' := List.mem_zipIdx_iff_getElem?.mp hmem
      rw [ids_of_answers hs hb hanswers, List.getElem?_map] at hid'
      obtain ⟨d, hget, hdid⟩ := Option.map_eq_some_iff.mp hid'
      have hd : d ∈ (e.output now).scheduled := List.mem_of_mem_filter (List.mem_of_getElem? hget)
      obtain ⟨hpre, hreach⟩ := hprefills now rfl d hd hdid
      obtain ⟨r, hr, hrid, l, hl, hlogits⟩ := row_of_answers hs ho hvocab hb hanswers hget hpre
      obtain rfl := List.eq_of_key_eq hs.schedule.nodup_running hr hq
        ((hrid.trans hdid).trans hid.symm)
      have hall : r.prompt.length ≤ d.startPosition + d.numTokens :=
        (of_decide_eq_true hdone).trans (hreach r hr hid)
      rw [List.take_of_length_le hall] at hlogits
      unfold promptLogits
      rw [hlogits]
      exact Option.some.inj (hrow.symm.trans hl))
  rcases hlast with ⟨err, hstep⟩ | hstep
  · rw [hstep]
    exact hemit
  · rw [hstep]
    exact (hemit.leaves (Leaves.publish _ _)).leaves (Leaves.reap _)

/-- **Run lemma.** -/
theorem Draws.runAll_of_prefills (hbs : 1 ≤ bs) (hn : n ≤ 2 ^ 32) (hfit : m.ResidualsFit)
    (hsize : m.blockSize = bs) (hvocab : m.head.rows = m.metadata.vocabSize)
    (ops : List (EngineOp S)) :
    ∀ {e : Engine (TransformerModel F) S} {promptLen : ℕ} {eosIds : List TokenId} {life : Life},
      e.ReachableIf InOrder config n bs flag m firstId →
      e.Draws id (promptLogits m) prompt params s →
      e.Lives id params promptLen eosIds False life → Meets (Prefills id) e ops →
      (EngineOp.runAll e ops).Draws id (promptLogits m) prompt params s := by
  induction ops with
  | nil => exact fun _ h _ _ => h
  | cons op ops ih =>
    intro e promptLen eosIds life h hdraws hlife hmeets
    obtain ⟨hop, hrest⟩ := hmeets
    obtain ⟨life', hlife'⟩ := hlife.run h.reachable.tracks op
    refine ih (h.step op hop.1) ?_ hlife' hrest
    cases op with
    | submit prompt' params' events sampler now =>
      exact hdraws.leaves (Leaves.submit hlife.idLt _ _ _ _ _)
    | cancel id' => exact hdraws.leaves (Leaves.cancel e id')
    | step now => exact hdraws.step_of_prefills hbs hn hfit hsize hvocab h hop
    | receive id' => exact hdraws.leaves (Leaves.receive e id')
    | hangUp id' => exact hdraws.leaves (Leaves.hangUp e id')

/-- **What a run streams to a sequence without decode rows** is drawn from the
logits of its prompt. -/
theorem exists_drawn_of_prefills (hbs : 1 ≤ bs) (hn : n ≤ 2 ^ 32) (hfit : m.ResidualsFit)
    (hsize : m.blockSize = bs) (hvocab : m.head.rows = m.metadata.vocabSize)
    (h : e.ReachableIf InOrder config n bs flag m firstId) {events : Channel} {now : Instant}
    (hok : (e.submit prompt params events s now).2 = .ok id) (ops : List (EngineOp S))
    (hrun : Meets (Prefills id) (e.submit prompt params events s now).1 ops) :
    ∃ x, Drawn (promptLogits m) prompt params s x
      ∧ (EngineOp.runAll (e.submit prompt params events s now).1 ops).streamed id <+: x.2 := by
  have hlife := lives_submit h.reachable.tracks hok
  have hsubmit : (e.submit prompt params events s now).1.ReachableIf InOrder config n bs flag m
      firstId := h.step (.submit prompt params events s now) trivial
  have hdraws := (draws_submit h.reachable hok).runAll_of_prefills hbs hn hfit hsize hvocab ops
    hsubmit hlife hrun
  obtain ⟨life', hlife'⟩ := hlife.runAll ops hsubmit.reachable.tracks
  obtain ⟨x, hx, hsaid⟩ := hdraws.said
  exact ⟨x, hx, hlife'.streamed_prefix.trans hsaid⟩

/-- **Two such runs** stream prefixes of one list. -/
theorem prefix_or_prefix_of_prefills (hbs : 1 ≤ bs) (hn : n ≤ 2 ^ 32) (hfit : m.ResidualsFit)
    (hsize : m.blockSize = bs) (hvocab : m.head.rows = m.metadata.vocabSize)
    {e₁ e₂ : Engine (TransformerModel F) S}
    (h₁ : e₁.ReachableIf InOrder config n bs flag m firstId)
    (h₂ : e₂.ReachableIf InOrder config n bs flag m firstId) {events₁ events₂ : Channel}
    {now₁ now₂ : Instant} {id₁ id₂ : SequenceId}
    (hok₁ : (e₁.submit prompt params events₁ s now₁).2 = .ok id₁)
    (hok₂ : (e₂.submit prompt params events₂ s now₂).2 = .ok id₂) (ops₁ ops₂ : List (EngineOp S))
    (hrun₁ : Meets (Prefills id₁) (e₁.submit prompt params events₁ s now₁).1 ops₁)
    (hrun₂ : Meets (Prefills id₂) (e₂.submit prompt params events₂ s now₂).1 ops₂) :
    (EngineOp.runAll (e₁.submit prompt params events₁ s now₁).1 ops₁).streamed id₁
        <+: (EngineOp.runAll (e₂.submit prompt params events₂ s now₂).1 ops₂).streamed id₂
      ∨ (EngineOp.runAll (e₂.submit prompt params events₂ s now₂).1 ops₂).streamed id₂
        <+: (EngineOp.runAll (e₁.submit prompt params events₁ s now₁).1 ops₁).streamed id₁ := by
  obtain ⟨x, hx, hpre₁⟩ := exists_drawn_of_prefills hbs hn hfit hsize hvocab h₁ hok₁ ops₁ hrun₁
  obtain ⟨y, hy, hpre₂⟩ := exists_drawn_of_prefills hbs hn hfit hsize hvocab h₂ hok₂ ops₂ hrun₂
  rcases hx.prefix_or_prefix hy with hle | hle
  · exact List.prefix_or_prefix_of_prefix (hpre₁.trans hle) hpre₂
  · exact List.prefix_or_prefix_of_prefix hpre₁ (hpre₂.trans hle)

end Run

end Engine

/-! ## Blocks that are handed on -/

namespace TinyModel

/-- The larger of two logits. -/
inductive LargerToken
  | larger

instance : Sampler LargerToken ℚ where
  sample s logits _ _ := (s, .ok (if logits[0]?.getD 0 < logits[1]?.getD 0 then 1 else 0))

/-- A model of two tokens and four positions, with one block of four slots. The
sign of its logits depends on how many of the values it reads are zero. -/
def pair : TransformerModel ℚ where
  metadata := { metadata with vocabSize := 2, maxPositionEmbeddings := 4 }
  weights := { weights ⟨[-5 / 4, 0], 1, 2, rfl⟩ with embedTokens := ⟨[1, 2], 2, 1, rfl⟩ }
  rope := ⟨List.replicate 4 1, List.replicate 4 0, 2, 4⟩
  kv := .new ⟨1, 1, 4, 1, 2⟩
  blockSize := 4
  fits := rfl

/-- An engine whose pool is that block. -/
def oneBlock : Engine (TransformerModel ℚ) LargerToken :=
  .new (.new {} (KvCacheManager.new 1 4 true)) pair 1

/-- A request of which the first token is all there is to send. -/
def single (prompt : List TokenId) : EngineOp LargerToken :=
  .submit prompt { maxTokens := 1 } ⟨4, [], true⟩ .larger 0

/-- After a request that is over. -/
def handedOn (prompt : List TokenId) : Engine (TransformerModel ℚ) LargerToken :=
  EngineOp.runAll oneBlock [single prompt, .step 0]

/-- The request `[0]` after it. -/
def next (prompt : List TokenId) : Engine (TransformerModel ℚ) LargerToken :=
  EngineOp.runAll (handedOn prompt) [single [0]]

/-- The batch of its first decode step. -/
def decodeBatch : ForwardBatch :=
  ⟨[0], [2], [⟨2⟩], [1], [3], [[⟨0⟩]], false⟩

end TinyModel

namespace Engine

open TinyModel

end Engine

namespace Engine

open TinyModel

end Engine
