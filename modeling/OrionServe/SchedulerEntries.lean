import OrionServe.SchedulerReach

/-!
# What the entries of a batch say

An entry is made at some point of a `schedule` call and read after the call,
when the batch is built. In between the passes may go on, but they touch no
prompt and no output. So what an entry says of its sequence is true when it
is read: a prefill entry is a part of the prompt, and a decode entry starts
at the position behind everything generated so far.

The history of the call holds exactly the entries and evictions that its
output lists.
-/

namespace ScheduledSequence

/-- What an entry says of the sequence it is for. -/
def Suits (e : ScheduledSequence) (prompt output : List TokenId) : Prop :=
  (e.isPrefill = true ∧ 0 < e.numTokens ∧ e.startPosition + e.numTokens ≤ prompt.length)
  ∨ (e.isPrefill = false ∧ e.numTokens = 1
    ∧ e.startPosition = prompt.length + output.length)

end ScheduledSequence

namespace SchedEvent

/-- The entry an event records. -/
def entry : SchedEvent → Option ScheduledSequence
  | .scheduled e => some e
  | .preempted _ => none

/-- The victim an event records. -/
def victim : SchedEvent → Option SequenceId
  | .scheduled _ => none
  | .preempted v => some v.id

end SchedEvent

section History

variable {C : Type*} [KvCacheManagerLike C] {p p' : Pass C}

/-- A move records what it puts into the output. -/
theorem PassMove.recorded (hm : PassMove p p') :
    ∃ new, new.length ≤ 1 ∧ p'.sched.trace = new ++ p.sched.trace
      ∧ p'.out.scheduled = p.out.scheduled ++ new.filterMap SchedEvent.entry
      ∧ p'.out.preempted = p.out.preempted ++ new.filterMap SchedEvent.victim := by
  cases hm with
  | refused answer result =>
    rw [result]
    exact ⟨[], Nat.zero_le _, rfl, (List.append_nil _).symm, (List.append_nil _).symm⟩
  | decoded room answer cand result =>
    rw [result]
    exact ⟨[_], le_rfl, rfl, rfl, (List.append_nil _).symm⟩
  | evicted result =>
    obtain ⟨older, victim, hrun, rfl⟩ := Pass.preemptOne_eq_some result
    exact ⟨[_], le_rfl, rfl, (List.append_nil _).symm, rfl⟩
  | resumed found cand pos room result =>
    rw [result]
    exact ⟨[_], le_rfl, rfl, rfl, (List.append_nil _).symm⟩
  | admitted head first slot pos left room answer result =>
    rw [result]
    exact ⟨[_], le_rfl, rfl, rfl, (List.append_nil _).symm⟩
  | readmitted head started slot pos left room result =>
    rw [result]
    exact ⟨[_], le_rfl, rfl, rfl, (List.append_nil _).symm⟩
  | putBack head available answer result =>
    rw [result]
    exact ⟨[], Nat.zero_le _, rfl, (List.append_nil _).symm, (List.append_nil _).symm⟩

/-- **The history of a call is its output**, read backwards. -/
theorem PassMoves.recorded (hm : PassMoves p p') :
    ∃ new, p'.sched.trace = new ++ p.sched.trace
      ∧ p'.out.scheduled = p.out.scheduled ++ new.reverse.filterMap SchedEvent.entry
      ∧ p'.out.preempted = p.out.preempted ++ new.reverse.filterMap SchedEvent.victim := by
  induction hm with
  | refl => exact ⟨[], rfl, (List.append_nil _).symm, (List.append_nil _).symm⟩
  | tail _ hmove ih =>
    obtain ⟨new, htr, hsch, hpre⟩ := ih
    obtain ⟨one, hlen, htr₁, hsch₁, hpre₁⟩ := hmove.recorded
    have hrev : one.reverse = one := by
      rcases one with - | ⟨e, - | ⟨e', rest⟩⟩
      · rfl
      · rfl
      · exact absurd hlen (by simp)
    refine ⟨one ++ new, ?_, ?_, ?_⟩
    · rw [htr₁, htr, List.append_assoc]
    · rw [hsch₁, hsch, List.reverse_append, List.filterMap_append, hrev, List.append_assoc]
    · rw [hpre₁, hpre, List.reverse_append, List.filterMap_append, hrev, List.append_assoc]

/-! ## Decode entries over any cache -/

omit [KvCacheManagerLike C] in
/-- The contents name each sequence once. -/
theorem Scheduler.contents_eq {s : Scheduler C} (h : s.ids.Nodup)
    {c c' : SequenceId × List TokenId × List TokenId} (hc : c ∈ s.contents)
    (hc' : c' ∈ s.contents) (hid : c.1 = c'.1) : c = c' := by
  have hkeys : (s.contents.map Prod.fst).Nodup := by
    have hmap : s.contents.map Prod.fst = s.ids := by
      unfold Scheduler.contents Scheduler.ids
      rw [List.map_map]
      rfl
    rw [hmap]
    exact h
  exact List.eq_of_key_eq hkeys hc hc' hid

/-- Passes touch no prompt and no output. -/
theorem PassMoves.contents (hm : PassMoves p p') :
    p'.sched.contents = p.sched.contents := by
  induction hm with
  | refl => rfl
  | tail _ hmove ih => exact hmove.contents.trans ih

namespace Pass

/-- The decode loop makes entries for its candidates and no others. -/
theorem decodeLoop_scheduled (cands : List (SequenceId × ℕ)) :
    ∀ p : Pass C, ∀ e ∈ (p.decodeLoop cands).out.scheduled,
      e ∈ p.out.scheduled ∨ ∃ c ∈ cands, e = decodeEntry c.1 c.2 := by
  induction cands with
  | nil => exact fun p e he => Or.inl he
  | cons c cands ih =>
    obtain ⟨id, totalLen⟩ := c
    -- what the rest of the loop adds, after an entry for this candidate or without one
    have hrest : ∀ p q : Pass C, p.out.scheduled = q.out.scheduled →
        ∀ e ∈ (p.decodeLoop cands).out.scheduled, e ∈ q.out.scheduled
          ∨ ∃ c ∈ (id, totalLen) :: cands, e = decodeEntry c.1 c.2 := by
      intro p q hout e he
      refine (ih p e he).imp (fun h => hout ▸ h) ?_
      exact fun ⟨c, hc, heq⟩ => ⟨c, List.mem_cons_of_mem _ hc, heq⟩
    have hentry : ∀ p q : Pass C, p.out.scheduled = q.out.scheduled →
        ∀ e ∈ ((p.emit (decodeEntry id totalLen)).decodeLoop cands).out.scheduled,
          e ∈ q.out.scheduled ∨ ∃ c ∈ (id, totalLen) :: cands, e = decodeEntry c.1 c.2 := by
      intro p q hout e he
      rcases hrest _ (p.emit (decodeEntry id totalLen)) rfl e he with he | he
      · refine (List.mem_append.mp he).imp (fun h => hout ▸ h) (fun h => ?_)
        exact ⟨_, List.mem_cons_self, List.mem_singleton.mp h⟩
      · exact Or.inr he
    intro p e he
    unfold decodeLoop at he
    split at he
    · exact Or.inl he
    split at he
    · next c _ => exact hentry (p.withCache c) p rfl e he
    split at he
    · exact Or.inl he
    next p₁ hev =>
    have hout : p₁.out.scheduled = p.out.scheduled := by
      obtain ⟨older, victim, -, rfl⟩ := preemptOne_eq_some hev
      rfl
    split at he
    · next c _ => exact hentry (p₁.withCache c) p hout e he
    · next c _ _ => exact hrest (p₁.withCache c) p hout e he

omit [KvCacheManagerLike C] in
/-- The partial-prefill loop makes prefill entries. -/
theorem partialLoop_scheduled (cands : List (SequenceId × ℕ × ℕ)) :
    ∀ p : Pass C, ∀ e ∈ (p.partialLoop cands).out.scheduled,
      e ∈ p.out.scheduled ∨ e.isPrefill = true := by
  induction cands with
  | nil => exact fun p e he => Or.inl he
  | cons c cands ih =>
    obtain ⟨id, already, remaining⟩ := c
    intro p e he
    unfold partialLoop at he
    split at he
    · exact Or.inl he
    split at he
    · exact ih p e he
    split at he
    · exact ih p e he
    split at he
    · exact ih p e he
    refine (ih _ e he).elim (fun h => ?_) Or.inr
    refine (List.mem_append.mp h).imp (fun h => h) (fun h => ?_)
    rw [List.mem_singleton.mp h]

/-- So does the admission loop. -/
theorem admissionLoop_scheduled (p : Pass C) :
    ∀ e ∈ p.admissionLoop.out.scheduled, e ∈ p.out.scheduled ∨ e.isPrefill = true := by
  have hbring : ∀ (p q : Pass C) (seq : Sequence) (rest : List Sequence) (chunk : ℕ),
      p.out.scheduled = q.out.scheduled →
      ∀ e ∈ (p.bringIn seq rest chunk).out.scheduled,
        e ∈ q.out.scheduled ∨ e.isPrefill = true := by
    intro p q seq rest chunk hout e he
    refine (List.mem_append.mp he).imp (fun h => hout ▸ h) (fun h => ?_)
    rw [List.mem_singleton.mp h]
  fun_induction admissionLoop p with
  | case5 p _ seq rest _ chunk _ _ _ _ c _ ih =>
    exact fun e he => (ih e he).elim (hbring (p.withCache c) p seq rest chunk rfl e) Or.inr
  | case8 p _ seq rest _ chunk _ _ _ _ p₁ hev ih =>
    obtain ⟨older, victim, -, rfl⟩ := preemptOne_eq_some hev
    exact ih
  | case9 p _ seq rest _ chunk _ _ _ ih =>
    exact fun e he => (ih e he).elim (hbring p p seq rest chunk rfl e) Or.inr
  | _ => exact fun e he => Or.inl he

theorem schedulePrefills_scheduled (p : Pass C) :
    ∀ e ∈ p.schedulePrefills.out.scheduled, e ∈ p.out.scheduled ∨ e.isPrefill = true :=
  fun e he => (p.schedulePartialPrefills.admissionLoop_scheduled e he).elim
    (p.partialLoop_scheduled _ e) Or.inr

/-- **A decode entry starts behind everything generated.** -/
theorem scheduleDecodes_scheduled {p : Pass C} (h : p.sched.ids.Nodup)
    {d : ScheduledSequence} (hd : d ∈ p.scheduleDecodes.out.scheduled)
    (hnew : d ∉ p.out.scheduled) :
    d.numTokens = 1 ∧ ∀ c ∈ p.sched.contents, c.1 = d.id →
      d.startPosition = c.2.1.length + c.2.2.length := by
  obtain ⟨c, hc, rfl⟩ := (decodeLoop_scheduled _ p d hd).resolve_left hnew
  refine ⟨rfl, fun x hx hid => ?_⟩
  obtain ⟨r, hr, rfl⟩ := List.mem_map.mp hc
  have hmem : (r.id, r.prompt, r.output) ∈ p.sched.contents :=
    List.mem_map.mpr ⟨r, List.mem_append_left _ (List.mem_filter.mp hr).1, rfl⟩
  obtain rfl := Scheduler.contents_eq h hx hmem hid
  rfl

end Pass

/-- **Every decode entry of a call**, over any cache: one token, behind
everything generated. -/
theorem Scheduler.schedule_decode {s : Scheduler C} (h : s.ids.Nodup)
    {d : ScheduledSequence} (hd : d ∈ s.schedule.2.scheduled) (hdec : d.isPrefill = false)
    {r : Sequence} (hr : r ∈ s.schedule.1.running) (hid : r.id = d.id) :
    d.numTokens = 1 ∧ d.startPosition = r.totalLen := by
  have hmoves := s.passes_moves
  have hmem : (r.id, r.prompt, r.output) ∈ s.contents := by
    have hc : s.passes.sched.contents = s.contents := PassMoves.contents hmoves
    rw [← hc]
    exact List.mem_map.mpr ⟨r, List.mem_append_left _ hr, rfl⟩
  have hnone : ∀ e : ScheduledSequence, e.isPrefill = true → e ≠ d := by
    rintro e he rfl
    exact absurd (he.symm.trans hdec) (by simp)
  change d ∈ s.passes.out.scheduled at hd
  unfold Scheduler.passes at hd
  split at hd
  · have hold : d ∈ s.pass.scheduleDecodes.out.scheduled :=
      (Pass.schedulePrefills_scheduled _ d hd).resolve_right (fun he => hnone d he rfl)
    obtain ⟨hone, hstart⟩ := Pass.scheduleDecodes_scheduled h hold List.not_mem_nil
    exact ⟨hone, hstart (r.id, r.prompt, r.output) hmem hid⟩
  · have hprefills := s.pass.schedulePrefills_moves
    have hnot : d ∉ s.pass.schedulePrefills.out.scheduled := fun he =>
      (s.pass.schedulePrefills_scheduled d he).elim (fun h => absurd h List.not_mem_nil)
        (fun h => hnone d h rfl)
    have hnd : s.pass.schedulePrefills.sched.ids.Nodup := by
      rw [PassMoves.ids hprefills]
      exact h
    obtain ⟨hone, hstart⟩ := Pass.scheduleDecodes_scheduled hnd hd hnot
    refine ⟨hone, hstart (r.id, r.prompt, r.output) ?_ hid⟩
    rw [PassMoves.contents hprefills]
    exact hmem

/-- **The entries of a sequence in the history of a call** that did not evict
it: those of the call on top of those before. -/
theorem Scheduler.entriesSince_kept (s : Scheduler C) {id : SequenceId}
    (hnot : id ∉ s.schedule.2.preempted) :
    ∃ new, entriesSince id s.schedule.1.trace = new ++ entriesSince id s.trace
      ∧ new = (s.schedule.2.scheduled.filter (fun e => e.id = id)).reverse := by
  obtain ⟨new, htr, hsch, hpre⟩ := PassMoves.recorded s.passes_moves
  change s.schedule.1.trace = new ++ s.trace at htr
  change s.schedule.2.scheduled = [] ++ new.reverse.filterMap SchedEvent.entry at hsch
  change s.schedule.2.preempted = [] ++ new.reverse.filterMap SchedEvent.victim at hpre
  rw [List.nil_append] at hsch hpre
  have hall : ∀ v, .preempted v ∈ new → v.id ≠ id := by
    rintro v hv rfl
    refine hnot ?_
    rw [hpre]
    exact List.mem_filterMap.mpr ⟨_, List.mem_reverse.mpr hv, rfl⟩
  rw [htr, hsch]
  clear htr hsch hpre hnot
  refine ⟨_, ?_, rfl⟩
  induction new with
  | nil => rfl
  | cons e new ih =>
    have hrest := ih (fun v hv => hall v (List.mem_cons_of_mem _ hv))
    rw [List.reverse_cons, List.filterMap_append, List.filter_append, List.reverse_append]
    cases e with
    | scheduled x =>
      by_cases hid : x.id = id
      · subst hid
        rw [List.cons_append, entriesSince_scheduled_self, hrest]
        simp [SchedEvent.entry]
      · rw [List.cons_append, entriesSince_scheduled_ne hid, hrest]
        simp [SchedEvent.entry, hid]
    | preempted v =>
      rw [List.cons_append, entriesSince_preempted_ne (hall v List.mem_cons_self), hrest]
      simp [SchedEvent.entry]

end History

namespace Scheduler.Sound

variable {s : Scheduler KvCacheManager}

/-- The content of a sequence, by its id. -/
theorem content_eq (h : s.Sound) {q : Sequence} (hq : q ∈ s.running ∨ q ∈ s.waiting)
    {c : SequenceId × List TokenId × List TokenId} (hc : c ∈ s.contents)
    (hid : c.1 = q.id) : c = (q.id, q.prompt, q.output) := by
  obtain ⟨x, hx, rfl⟩ := List.mem_map.mp hc
  have hnd : ((s.running ++ s.waiting).map Sequence.id).Nodup := h.nodup
  rw [List.eq_of_key_eq hnd hx (List.mem_append.mpr hq) hid]

/-- A running sequence that holds a table, by its id. -/
theorem mem_of_table (h : s.Sound) {id : SequenceId} {t : BlockTable}
    (ht : s.cache.tables.lookup id = some t) : ∃ r ∈ s.running, r.id = id :=
  List.mem_map.mp (h.tables id t ht)

end Scheduler.Sound

/-- **What the entries made so far say is true**, and one that is for a
finished sequence is for one without a table. -/
structure Pass.Booked (p : Pass KvCacheManager) : Prop where
  suits : ∀ e ∈ p.out.scheduled, ∀ c ∈ p.sched.contents, c.1 = e.id → e.Suits c.2.1 c.2.2
  spent : ∀ e ∈ p.out.scheduled, ∀ r ∈ p.sched.running, r.id = e.id →
    r.state = .finished → p.sched.cache.tables.lookup r.id = none

namespace PassMove

variable {p p' : Pass KvCacheManager}

/-- A new entry next to those there are. -/
theorem suits_emit (h : p.Booked) {e : ScheduledSequence} {q : Sequence}
    (hs : p.sched.Sound) (hq : q ∈ p.sched.running ∨ q ∈ p.sched.waiting)
    (hid : q.id = e.id) (he : e.Suits q.prompt q.output)
    (hout : p'.out.scheduled = p.out.scheduled ++ [e])
    (hcontents : p'.sched.contents = p.sched.contents) :
    ∀ e ∈ p'.out.scheduled, ∀ c ∈ p'.sched.contents, c.1 = e.id → e.Suits c.2.1 c.2.2 := by
  intro x hx c hc hcx
  rw [hout] at hx
  rw [hcontents] at hc
  rcases List.mem_append.mp hx with hx | hx
  · exact h.suits x hx c hc hcx
  · obtain rfl := List.mem_singleton.mp hx
    rw [hs.content_eq hq hc (hcx.trans hid.symm)]
    exact he

/-- **Step lemma.** -/
theorem booked (hm : PassMove p p') (hs : p.sched.Sound) (h : p.Booked) : p'.Booked := by
  have hcontents := hm.contents
  have hs' := hm.sound hs
  cases hm with
  | refused answer result =>
    obtain rfl := KvCacheManager.like_appendToken_error hs.settled answer
    rw [result]
    exact h
  | @decoded id totalLen c room answer cand result =>
    obtain ⟨-, t, t', happ⟩ := KvCacheManager.like_appendToken_ok hs.settled answer
    obtain ⟨q, hq, hid⟩ := hs.mem_of_table happ.table
    obtain ⟨hstate, hlen⟩ := cand hs.nodup q hq hid
    refine ⟨suits_emit h hs (Or.inl hq) (e := Pass.decodeEntry id totalLen) hid
      (Or.inr ⟨rfl, rfl, hlen⟩) (by rw [result]; rfl) hcontents, ?_⟩
    rw [result]
    intro e he r hr hre hfin
    have hne : r.id ≠ id := fun heq => by
      obtain rfl : r = q := List.eq_of_key_eq hs.nodup_running hr hq (heq.trans hid.symm)
      exact absurd (hfin.symm.trans hstate) (by simp)
    have hold : e ∈ p.out.scheduled :=
      List.mem_of_mem_concat he (fun heq => hne (hre.trans heq))
    show c.tables.lookup r.id = none
    rw [happ.tables, AList.lookup_insert_ne hne]
    exact h.spent e hold r hr hre hfin
  | evicted result =>
    obtain ⟨older, victim, hrun, rfl⟩ := Pass.preemptOne_eq_some result
    refine ⟨fun e he c hc => h.suits e he c (hcontents ▸ hc), fun e he r hr hre hfin => ?_⟩
    have hr' : r ∈ p.sched.running := by
      rw [hrun]
      exact List.mem_append_left _ hr
    show (p.sched.cache.free victim.id).tables.lookup r.id = none
    rw [KvCacheManager.free_tables]
    by_cases hid : r.id = victim.id
    · rw [hid, AList.lookup_erase]
    · rw [AList.lookup_erase_ne hid]
      exact h.spent e he r hr' hre hfin
  | @resumed seq chunk already found cand pos room result =>
    have hmem := List.mem_of_findKey found
    obtain ⟨hstate, rfl, hle⟩ := cand hs.nodup
    have hsum : seq.computedPrefixLen + chunk ≤ seq.prompt.length := by
      have hrem : seq.remainingPrefill = seq.prompt.length - seq.computedPrefixLen := rfl
      omega
    refine ⟨suits_emit h hs (Or.inl hmem) (e := ⟨seq.id, chunk, seq.computedPrefixLen, true⟩)
      rfl (Or.inl ⟨rfl, pos, hsum⟩) (by rw [result]; rfl) hcontents, ?_⟩
    rw [result]
    intro e he r hr hre hfin
    rcases List.mem_updateKey hs.nodup_running hr with ⟨hr, hne⟩ | ⟨a, ha, hid, rfl⟩
    · have hold : e ∈ p.out.scheduled :=
        List.mem_of_mem_concat he (fun heq => hne (hre.trans heq))
      exact h.spent e hold r hr hre hfin
    · obtain rfl : a = seq := List.eq_of_key_eq hs.nodup_running ha hmem hid
      exact absurd hfin (Pass.resumed_inStage hstate hsum).2.not_finished
  | @admitted seq rest chunk c head first slot pos left room answer result =>
    obtain ⟨-, t, hadm⟩ := KvCacheManager.like_allocate_ok hs.settled answer
    have hmem : seq ∈ p.sched.waiting := head ▸ List.mem_cons_self
    obtain ⟨hstate, -, -⟩ := hs.atStart_of_zero hmem first
    refine ⟨suits_emit h hs (Or.inr hmem) (e := ⟨seq.id, chunk, seq.computedPrefixLen, true⟩)
      rfl (Or.inl ⟨rfl, pos, by rw [first, Nat.zero_add]; exact left⟩)
      (by rw [result]; rfl) hcontents, ?_⟩
    rw [result]
    intro e he r hr hre hfin
    rcases List.mem_append.mp hr with hr | hr
    · have hne := hs.apart hr hmem
      have hold : e ∈ p.out.scheduled :=
        List.mem_of_mem_concat he (fun heq => hne (hre.trans heq))
      show c.tables.lookup r.id = none
      rw [hadm.tables, AList.lookup_insert_ne hne]
      exact h.spent e hold r hr hre hfin
    · obtain rfl := List.mem_singleton.mp hr
      exact absurd hfin (Pass.prefilled_inStage hstate first left).2.not_finished
  | @readmitted seq rest chunk head started slot pos left room result =>
    have hmem : seq ∈ p.sched.waiting := head ▸ List.mem_cons_self
    have hlen : seq.computedPrefixLen + chunk ≤ seq.prompt.length := by
      have hp : seq.promptLen = seq.prompt.length := rfl
      omega
    refine ⟨suits_emit h hs (Or.inr hmem) (e := ⟨seq.id, chunk, seq.computedPrefixLen, true⟩)
      rfl (Or.inl ⟨rfl, pos, hlen⟩) (by rw [result]; rfl) hcontents, ?_⟩
    rw [result]
    intro e he r hr hre hfin
    show p.sched.cache.tables.lookup r.id = none
    rcases List.mem_append.mp hr with hr | hr
    · have hold : e ∈ p.out.scheduled :=
        List.mem_of_mem_concat he (fun heq => hs.apart hr hmem (hre.trans heq))
      exact h.spent e hold r hr hre hfin
    · obtain rfl := List.mem_singleton.mp hr
      rw [Pass.prefilled_id]
      exact hs.absent hmem
  | putBack head available answer result =>
    rw [result]
    rw [result] at hcontents
    refine ⟨fun e he c hc => h.suits e he c (hcontents ▸ hc), fun e he r hr hre hfin => ?_⟩
    exact absurd answer (hs.allocate_ne_error (head ▸ List.mem_cons_self) available)

end PassMove

/-- **Run lemma.** -/
theorem PassMoves.booked {p p' : Pass KvCacheManager} (hm : PassMoves p p')
    (hs : p.sched.Sound) (h : p.Booked) : p'.Booked := by
  induction hm with
  | refl => exact h
  | tail hmoves hmove ih => exact hmove.booked (PassMoves.sound hmoves hs) ih

/-- **The entries of a call**, read after the call. -/
theorem Scheduler.Sound.booked {s : Scheduler KvCacheManager} (h : s.Sound) :
    s.passes.Booked := by
  refine PassMoves.booked s.passes_moves h ⟨fun e he => ?_, fun e he => ?_⟩
  · exact absurd he List.not_mem_nil
  · exact absurd he List.not_mem_nil
