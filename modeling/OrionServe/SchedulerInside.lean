import OrionServe.SchedulerChunks

/-!
# The sequence in the middle of its prompt

A chunk that does not reach the end of the prompt takes all that was left of
the budget. Therefore nobody is let in behind a sequence in the middle of its
prompt, and after a call there is one such sequence at most, the newest.

With it the stages of the sequences in service hold over whole runs: whoever
runs is a candidate of the partial pass or of the decode pass, and the chunks
of a prompt tile it. None of this depends on what the cache answers.
-/

variable {C : Type*} [KvCacheManagerLike C]

/-- **One at most is in the middle of its prompt**, the newest; and without
chunking nobody is. -/
structure OneInside (running : List Sequence) (config : SchedulerConfig) : Prop where
  last : running.Pairwise (fun a _ => a.state ≠ .prefilling)
  whole : config.enableChunkedPrefill = false → ∀ r ∈ running, r.state ≠ .prefilling

namespace OneInside

variable {running running' : List Sequence} {config : SchedulerConfig}

theorem sublist (h : OneInside running config) (hsub : running'.Sublist running) :
    OneInside running' config :=
  ⟨h.last.sublist hsub, fun hflag r hr => h.whole hflag r (hsub.subset hr)⟩

/-- Whoever is in the middle of its prompt is the newest. -/
theorem exists_older (h : OneInside running config) {r : Sequence} (hr : r ∈ running)
    (hpre : r.state = .prefilling) :
    ∃ older, running = older ++ [r] ∧ ∀ a ∈ older, a.state ≠ .prefilling := by
  obtain ⟨older, newer, hrun⟩ := List.append_of_mem hr
  have hlast := h.last
  rw [hrun] at hlast
  obtain ⟨-, hbehind, hbefore⟩ := List.pairwise_append.mp hlast
  have hnil : newer = [] := by
    refine List.eq_nil_iff_forall_not_mem.mpr (fun x hx => ?_)
    exact (List.pairwise_cons.mp hbehind).1 x hx hpre
  subst hnil
  exact ⟨older, hrun, fun a ha => hbefore a ha r List.mem_cons_self⟩

/-- The newest may be in the middle of its prompt, with chunking. -/
theorem concat {older : List Sequence} (hold : ∀ a ∈ older, a.state ≠ .prefilling)
    (hflag : config.enableChunkedPrefill = true) (r : Sequence) :
    OneInside (older ++ [r]) config := by
  refine ⟨List.pairwise_append.mpr ⟨List.pairwise_of_forall_mem_list (fun a ha _ _ => hold a ha),
    List.pairwise_singleton _ _, fun a ha _ _ => hold a ha⟩, fun hoff => ?_⟩
  exact absurd (hflag.symm.trans hoff) (by simp)

/-- Nobody at all. -/
theorem of_none (h : ∀ r ∈ running, r.state ≠ .prefilling) : OneInside running config :=
  ⟨List.pairwise_of_forall_mem_list (fun a ha _ _ => h a ha), fun _ => h⟩

/-- A change that puts nobody into the middle of a prompt. -/
theorem map (h : OneInside running config) {f : Sequence → Sequence}
    (hf : ∀ r, (f r).state = .prefilling → r.state = .prefilling) :
    OneInside (running.map f) config := by
  refine ⟨List.pairwise_map.mpr (h.last.imp (fun hne hpre => hne (hf _ hpre))), ?_⟩
  intro hflag r hr
  obtain ⟨q, hq, rfl⟩ := List.mem_map.mp hr
  exact fun hpre => h.whole hflag q hq (hf q hpre)

end OneInside

namespace Pass

variable {p : Pass C}

/-- **Between the passes**: whoever is in the middle of a prompt has used up
the budget. -/
structure Inside (p : Pass C) : Prop where
  one : OneInside p.sched.running p.sched.config
  spent : p.used < p.budget → ∀ r ∈ p.sched.running, r.state ≠ .prefilling

/-- A chunk is all that is left of the prompt, or all that is left of the
budget; without chunking it is the former. -/
theorem chunkFor_eq {config : SchedulerConfig} {remaining room chunk : ℕ}
    (h : chunkFor config remaining room = some chunk) :
    chunk = remaining ∨ (chunk = room ∧ config.enableChunkedPrefill = true) := by
  unfold chunkFor at h
  split at h
  · next hflag =>
    obtain rfl := Option.some.inj h
    rcases le_total remaining room with hle | hle
    · exact Or.inl (min_eq_left hle)
    · exact Or.inr ⟨min_eq_right hle, hflag⟩
  · split at h
    · exact Or.inl (Option.some.inj h).symm
    · exact absurd h (by simp)

/-- **After a chunk** a sequence is through with its prompt or has used up the
budget. -/
theorem chunk_spends {seq' : Sequence} {config : SchedulerConfig}
    {already chunk room : ℕ} (hchunk : chunkFor config (seq'.prompt.length - already) room
      = some chunk) (hcomputed : seq'.computedPrefixLen = already + chunk)
    (hstage : seq'.InStage) (hpre : seq'.state = .prefilling) :
    chunk = room ∧ config.enableChunkedPrefill = true := by
  refine (chunkFor_eq hchunk).resolve_left (fun hall => ?_)
  rcases hstage with ⟨-, hlt⟩ | ⟨hdec, -⟩
  · omega
  · rw [hpre] at hdec
    exact absurd hdec (by simp)

/-- When nobody but the newest is in the middle of a prompt it is the one
candidate. -/
theorem partialCandidates_concat {older : List Sequence} {r : Sequence}
    (hold : ∀ a ∈ older, a.state ≠ .prefilling) (hpre : r.state = .prefilling)
    (hlt : r.computedPrefixLen < r.prompt.length) :
    partialCandidates (older ++ [r]) = [(r.id, r.computedPrefixLen, r.remainingPrefill)] := by
  have hself : (decide (r.state = .prefilling) && !r.isPrefillComplete) = true := by
    have hmore : r.isPrefillComplete = false := decide_eq_false (not_le.mpr hlt)
    rw [hpre, hmore]
    rfl
  unfold partialCandidates
  rw [List.filter_append, List.filter_eq_nil_iff.mpr (fun a ha => by simp [hold a ha]),
    List.nil_append,
    List.filter_eq_self.mpr (fun x hx => List.mem_singleton.mp hx ▸ hself)]
  rfl

omit [KvCacheManagerLike C] in
/-- **The partial pass** resumes the one sequence there is. -/
theorem schedulePartialPrefills_inside (hs : p.sched.Staged)
    (h : OneInside p.sched.running p.sched.config) : p.schedulePartialPrefills.Inside := by
  by_cases hnone : ∀ r ∈ p.sched.running, r.state ≠ .prefilling
  · -- nobody is in the middle of a prompt
    have hcands : partialCandidates p.sched.running = [] := by
      unfold partialCandidates
      rw [List.filter_eq_nil_iff.mpr (fun r hr => by simp [hnone r hr])]
      rfl
    have hsame : p.schedulePartialPrefills = p := by
      unfold schedulePartialPrefills
      rw [hcands]
      rfl
    rw [hsame]
    exact ⟨h, fun _ => hnone⟩
  obtain ⟨r, hr, hpre⟩ : ∃ r ∈ p.sched.running, r.state = .prefilling := by
    by_contra hno
    exact hnone (fun r hr hpre => hno ⟨r, hr, hpre⟩)
  have hlt : r.computedPrefixLen < r.prompt.length := by
    rcases (hs.running r hr (by rw [hpre]; simp)).stage with ⟨-, hlt⟩ | ⟨hdec, -⟩
    · exact hlt
    · rw [hpre] at hdec
      exact absurd hdec (by simp)
  have hflag : p.sched.config.enableChunkedPrefill = true := by
    by_contra hoff
    exact h.whole (Bool.eq_false_iff.mpr hoff) r hr hpre
  obtain ⟨older, hrun, hold⟩ := h.exists_older hr hpre
  have hnd := nodup_running hs.nodup
  have hfound : p.sched.running.findKey Sequence.id r.id = some r :=
    (List.findKey_eq_some_iff hnd).mpr ⟨hr, rfl⟩
  have hkey : r.id ∉ older.map Sequence.id := by
    rintro hmem
    obtain ⟨a, ha, hid⟩ := List.mem_map.mp hmem
    exact List.key_ne_of_append (hrun ▸ hnd) ha (List.mem_singleton_self r) hid
  unfold schedulePartialPrefills
  rw [hrun, partialCandidates_concat hold hpre hlt]
  unfold partialLoop
  split
  · next hfull => exact ⟨h, fun hroom => absurd hfull (not_le.mpr hroom)⟩
  next hroom =>
    have hpos : 0 < r.remainingPrefill := Nat.sub_pos_of_lt hlt
    obtain ⟨chunk, hchunk⟩ : ∃ chunk,
        chunkFor p.sched.config r.remainingPrefill (p.budget - p.used) = some chunk := by
      unfold chunkFor
      rw [if_pos hflag]
      exact ⟨_, rfl⟩
    have hne : chunk ≠ 0 := by
      rcases chunkFor_eq hchunk with rfl | ⟨rfl, -⟩
      · exact hpos.ne'
      · exact (Nat.sub_pos_of_lt (not_le.mp hroom)).ne'
    have hwrite : p.sched.running.updateKey Sequence.id r.id (resumed · chunk)
        = older ++ [resumed r chunk] := by
      rw [hrun, List.updateKey_append hkey]
      show older ++ (if r.id = r.id then [resumed r chunk] else _) = _
      rw [if_pos rfl]
    have hle := (chunkFor_le hchunk).1
    have hsum : r.computedPrefixLen + chunk ≤ r.prompt.length := by
      have hrem : r.remainingPrefill = r.prompt.length - r.computedPrefixLen := rfl
      omega
    obtain ⟨hcomputed, hstage⟩ := resumed_inStage hpre hsum
    simp only [hchunk, hne, if_false, hfound, partialLoop]
    refine ⟨?_, fun hleft x hx hxpre => ?_⟩
    · show OneInside (p.sched.running.updateKey Sequence.id r.id (resumed · chunk)) _
      rw [hwrite]
      exact .concat hold hflag _
    · change x ∈ p.sched.running.updateKey Sequence.id r.id (resumed · chunk) at hx
      rw [hwrite] at hx
      rcases List.mem_append.mp hx with hx | hx
      · exact hold x hx hxpre
      · obtain rfl := List.mem_singleton.mp hx
        have hrest : chunkFor p.sched.config
            ((resumed r chunk).prompt.length - r.computedPrefixLen) (p.budget - p.used)
              = some chunk := by
          rw [resumed_prompt]
          exact hchunk
        have hspent := (chunk_spends hrest hcomputed hstage hxpre).1
        change p.used + chunk < p.budget at hleft
        omega

omit [KvCacheManagerLike C] in
/-- Whoever is let in while nobody is in the middle of a prompt. -/
theorem bringIn_inside {seq : Sequence} {rest : List Sequence} {chunk : ℕ}
    (hqueued : seq.state ≠ .finished → seq.state = .waiting ∧ seq.computedPrefixLen = 0)
    (hroom : p.used < p.budget) (h : p.Inside)
    (hchunk : chunkFor p.sched.config (seq.promptLen - seq.computedPrefixLen)
      (p.budget - p.used) = some chunk) : (p.bringIn seq rest chunk).Inside := by
  have hold := h.spent hroom
  have hnew : (prefilled seq chunk).state = .prefilling →
      chunk = p.budget - p.used ∧ p.sched.config.enableChunkedPrefill = true := by
    intro hpre
    have hlive : seq.state ≠ .finished := fun hfin => by
      rw [prefilled_of_finished hfin] at hpre
      exact absurd hpre (by simp)
    obtain ⟨hstate, hzero⟩ := hqueued hlive
    have hle := (chunkFor_le hchunk).1.trans (Nat.sub_le _ _)
    obtain ⟨hcomputed, hstage⟩ := prefilled_inStage hstate hzero hle
    have hrest : chunkFor p.sched.config
        ((prefilled seq chunk).prompt.length - seq.computedPrefixLen) (p.budget - p.used)
          = some chunk := by
      rw [prefilled_prompt]
      exact hchunk
    exact chunk_spends hrest (by rw [hcomputed, hzero, Nat.zero_add]) hstage hpre
  have hall : ∀ x ∈ p.sched.running ++ [prefilled seq chunk], x.state = .prefilling →
      chunk = p.budget - p.used ∧ p.sched.config.enableChunkedPrefill = true := by
    intro x hx hpre
    rcases List.mem_append.mp hx with hx | hx
    · exact absurd hpre (hold x hx)
    · obtain rfl := List.mem_singleton.mp hx
      exact hnew hpre
  refine ⟨⟨?_, fun hoff x hx hpre => ?_⟩, fun hleft x hx hpre => ?_⟩
  · exact List.pairwise_append.mpr ⟨h.one.last, List.pairwise_singleton _ _,
      fun a ha _ _ => hold a ha⟩
  · exact absurd ((hall x hx hpre).2.symm.trans hoff) (by simp)
  · have hspent := (hall x hx hpre).1
    change p.used + chunk < p.budget at hleft
    omega

/-- **The admission loop** lets nobody in behind a sequence in the middle of
its prompt. -/
theorem admissionLoop_inside (p : Pass C) (hs : p.sched.Staged) (h : p.Inside) :
    p.admissionLoop.Inside := by
  fun_induction admissionLoop p with
  | case1 p hstop => exact h
  | case2 p hgo hw => exact h
  | case3 p hgo seq rest hw hc => exact h
  | case4 p hgo seq rest hw hc => exact h
  | case5 p hgo seq rest hw chunk hc hpos hfirst hcan c hok ih =>
    obtain ⟨hslot, hroom⟩ := not_or.mp hgo
    obtain ⟨hle, hfits⟩ := chunkFor_le hc
    have hmove : PassMove p ((p.withCache c).bringIn seq rest chunk) :=
      .admitted hw hfirst (not_le.mp hslot) (Nat.pos_of_ne_zero hpos)
        (hle.trans (Nat.sub_le _ _)) hfits hok rfl
    have hqueued := hs.waiting seq (hw ▸ List.mem_cons_self)
    exact ih (hmove.staged hs) (bringIn_inside (p := p.withCache c)
      (fun hne => ⟨(hqueued hne).1, (hqueued hne).2.1⟩)
      (not_le.mp hroom)
      ⟨h.one, h.spent⟩ hc)
  | case6 p hgo seq rest hw chunk hc hpos hfirst hcan c e herr => exact ⟨h.one, h.spent⟩
  | case7 p hgo seq rest hw chunk hc hpos hfirst hcan hev => exact h
  | case8 p hgo seq rest hw chunk hc hpos hfirst hcan p₁ hev ih =>
    refine ih ((PassMove.evicted hev).staged hs) ?_
    obtain ⟨older, victim, hrun, rfl⟩ := preemptOne_eq_some hev
    have hsub : older.Sublist p.sched.running := hrun ▸ List.sublist_append_left _ _
    exact ⟨h.one.sublist hsub, fun hroom r hr => h.spent hroom r (hsub.subset hr)⟩
  | case9 p hgo seq rest hw chunk hc hpos hfirst ih =>
    obtain ⟨hslot, hroom⟩ := not_or.mp hgo
    obtain ⟨hle, hfits⟩ := chunkFor_le hc
    have hmove : PassMove p (p.bringIn seq rest chunk) :=
      .readmitted hw hfirst (not_le.mp hslot) (Nat.pos_of_ne_zero hpos) hle hfits rfl
    have hqueued := hs.waiting seq (hw ▸ List.mem_cons_self)
    exact ih (hmove.staged hs) (bringIn_inside
      (fun hne => ⟨(hqueued hne).1, (hqueued hne).2.1⟩) (not_le.mp hroom) h hc)

end Pass

namespace Scheduler

variable {s : Scheduler C}

/-- **After a call** the newest running sequence is the only one that may be
in the middle of its prompt. -/
theorem Staged.schedule_oneInside (hs : s.Staged) (h : OneInside s.running s.config) :
    OneInside s.schedule.1.running s.config := by
  have hprefills : ∀ {p : Pass C}, PassMoves s.pass p →
      OneInside p.sched.running p.sched.config → p.schedulePrefills.Inside := by
    intro p hmoves hp
    have hstaged := PassMoves.staged hmoves hs
    exact Pass.admissionLoop_inside _ (PassMoves.staged
      (Pass.partialLoop_moves _ p.partialGuard_candidates) hstaged)
      (Pass.schedulePartialPrefills_inside hstaged hp)
  have hconfig : s.schedule.1.config = s.config := PassMoves.config s.passes_moves
  rw [← hconfig]
  show OneInside s.passes.sched.running s.passes.sched.config
  unfold passes
  split
  · obtain ⟨hpre, hsame⟩ := Pass.decodeLoop_running (Pass.decodeCandidates s.running) s.pass
    refine (hprefills (Pass.scheduleDecodes_moves _) ?_).one
    rw [show s.pass.scheduleDecodes.sched.config = s.config from hsame]
    exact h.sublist hpre.sublist
  · have hone := (hprefills (p := s.pass) .refl h).one
    obtain ⟨hpre, hsame⟩ := Pass.decodeLoop_running
      (Pass.decodeCandidates s.pass.schedulePrefills.sched.running) s.pass.schedulePrefills
    rw [show s.pass.schedulePrefills.scheduleDecodes.sched.config
      = s.pass.schedulePrefills.sched.config from hsame]
    exact hone.sublist hpre.sublist

end Scheduler

/-! ## Whole runs -/

namespace Service

variable {config : SchedulerConfig} {cache : C} {firstId : ℕ} {v : Service C}

/-- **What an operation other than scheduling does to the running queue**: it
takes sequences out, and those that stay go on or end. -/
theorem running_ends (h : v.sched.ids.Nodup) {op : SchedulerOp} (hop : op ≠ .schedule) :
    ∃ f : Sequence → Sequence, (∀ r : Sequence, r.Ends (f r))
      ∧ (op.run v).sched.running.Sublist (v.sched.running.map f) := by
  have hnd : (v.sched.running.map Sequence.id).Nodup :=
    Pass.nodup_running (p := v.sched.pass) h
  have hsub : ∀ {running' : List Sequence}, running'.Sublist v.sched.running →
      ∃ f : Sequence → Sequence, (∀ r : Sequence, r.Ends (f r))
        ∧ running'.Sublist (v.sched.running.map f) := by
    intro running' hsub
    refine ⟨id, fun r => .refl r, ?_⟩
    rw [List.map_id]
    exact hsub
  cases op with
  | addRequest prompt params now =>
    refine hsub ?_
    show (v.sched.addRequest _).1.running.Sublist _
    rcases v.sched.addRequest_cases (.new ⟨v.nextId⟩ prompt params now) with ⟨e, he⟩ | ⟨hok, -⟩
    · rw [he]
    · rw [hok]
  | schedule => exact absurd rfl hop
  | onToken id token eosIds =>
    show ∃ f : Sequence → Sequence, _ ∧ (v.sched.onToken id token eosIds).1.running.Sublist _
    unfold Scheduler.onToken
    split
    · exact hsub (.refl _)
    · refine ⟨fun r => if r.id = id then Scheduler.tokenReceived token eosIds r else r,
        fun r => ?_, ?_⟩
      show r.Ends (if r.id = id then _ else r)
      split
      · exact r.ends_tokenReceived token eosIds
      · exact .refl r
      · rw [← List.updateKey_eq_map hnd]
  | reapFinished => exact hsub List.filter_sublist
  | cancel id =>
    refine hsub ?_
    show (v.sched.cancel id).1.running.Sublist _
    unfold Scheduler.cancel
    split
    · exact .refl _
    split
    · exact List.eraseP_sublist
    · exact .refl _
  | expireTimeouts now =>
    show ∃ f : Sequence → Sequence, _ ∧ (v.sched.expireTimeouts now).1.running.Sublist _
    unfold Scheduler.expireTimeouts
    split
    · exact hsub (.refl _)
    · next secs _ =>
      refine ⟨fun r => if Scheduler.isExpired now (durationFromSecs secs) r
        then r.finish .timeout else r, fun r => ?_, .refl _⟩
      show r.Ends (if Scheduler.isExpired now _ r then _ else r)
      split
      · exact r.ends_finish _
      · exact .refl r
  | commitPrefill id =>
    refine hsub ?_
    show (v.sched.commitPrefill id).running.Sublist _
    unfold Scheduler.commitPrefill
    split
    · exact .refl _
    · split <;> exact .refl _

/-- Nobody comes to wait but by asking. -/
theorem waiting_of_ne_schedule {op : SchedulerOp} (hop : op ≠ .schedule) :
    ∀ w ∈ (op.run v).sched.waiting, w ∈ v.sched.waiting
      ∨ ∃ prompt params now, w = .new ⟨v.nextId⟩ prompt params now := by
  cases op with
  | addRequest prompt params now =>
    show ∀ w ∈ (v.sched.addRequest _).1.waiting, _
    rcases v.sched.addRequest_cases (.new ⟨v.nextId⟩ prompt params now) with ⟨e, he⟩ | ⟨hok, -⟩
    · rw [he]
      exact fun w hw => Or.inl hw
    · rw [hok]
      intro w hw
      rcases List.mem_append.mp hw with hw | hw
      · exact Or.inl hw
      · exact Or.inr ⟨prompt, params, now, List.mem_singleton.mp hw⟩
  | schedule => exact absurd rfl hop
  | onToken id token eosIds =>
    show ∀ w ∈ (v.sched.onToken id token eosIds).1.waiting, _
    unfold Scheduler.onToken
    split <;> exact fun w hw => Or.inl hw
  | reapFinished => exact fun w hw => Or.inl hw
  | cancel id =>
    show ∀ w ∈ (v.sched.cancel id).1.waiting, _
    unfold Scheduler.cancel
    split
    · exact fun w hw => Or.inl (List.mem_of_mem_eraseP hw)
    · split <;> exact fun w hw => Or.inl hw
  | expireTimeouts now =>
    show ∀ w ∈ (v.sched.expireTimeouts now).1.waiting, _
    unfold Scheduler.expireTimeouts
    split
    · exact fun w hw => Or.inl hw
    · exact fun w hw => Or.inl (List.mem_filter.mp hw).1
  | commitPrefill id =>
    show ∀ w ∈ (v.sched.commitPrefill id).waiting, _
    unfold Scheduler.commitPrefill
    split
    · exact fun w hw => Or.inl hw
    · split <;> exact fun w hw => Or.inl hw

/-- **What holds in every state of a run**, over any cache. -/
structure Staged (v : Service C) (config : SchedulerConfig) : Prop where
  inOrder : v.InOrder
  sched : v.sched.Staged
  chunks : ∀ e, .scheduled e ∈ v.sched.trace → e.isPrefill = true → e.id.raw < v.nextId
  inside : OneInside v.sched.running config

/-- **Step lemma.** -/
theorem Staged.run (h : v.Staged config) (hconfig : v.sched.config = config)
    (op : SchedulerOp) : (op.run v).Staged config := by
  have hin := h.inOrder.run op
  by_cases hop : op = .schedule
  · subst hop
    refine ⟨hin, PassMoves.staged v.sched.passes_moves h.sched, fun e he hpre => ?_, ?_⟩
    · rcases PassMoves.chunk_ids v.sched.passes_moves e he hpre with he | hid
      · exact h.chunks e he hpre
      · exact h.inOrder.fresh e.id (h.inOrder.order.subset hid)
    · rw [← hconfig]
      exact h.sched.schedule_oneInside (hconfig ▸ h.inside)
  obtain ⟨f, hends, hsub⟩ := running_ends h.sched.nodup hop
  have htrace := v.trace_of_ne_schedule hop
  have hnext : v.nextId ≤ (op.run v).nextId := by
    cases op with
    | addRequest prompt params now => exact Nat.le_succ _
    | _ => exact le_rfl
  refine ⟨hin, ⟨hin.nodup, fun r' hr' hlive => ?_, fun w hw hlive => ?_,
    htrace ▸ h.sched.evicted⟩, fun e he hpre => ?_, ?_⟩
  · obtain ⟨r, hr, rfl⟩ := List.mem_map.mp (hsub.subset hr')
    have hr' := hends r
    have hsame := hr'.state.resolve_right hlive
    have hold := h.sched.running r hr (hsame ▸ hlive)
    refine ⟨?_, ?_⟩
    · unfold Sequence.InStage
      rw [hsame, hr'.computed, hr'.prompt]
      exact hold.stage
    · rw [htrace, hr'.id, hr'.computed]
      exact hold.tiles
  · rw [htrace]
    rcases waiting_of_ne_schedule hop w hw with hw | ⟨prompt, params, now, rfl⟩
    · exact h.sched.waiting w hw hlive
    · -- nothing is in the history under a new id
      refine ⟨rfl, rfl, chunksSince_eq_nil (fun e he hpre hid => ?_)⟩
      have hlt := h.chunks e he hpre
      rw [hid] at hlt
      exact absurd hlt (lt_irrefl v.nextId)
  · rw [htrace] at he
    exact (h.chunks e he hpre).trans_le hnext
  · refine (h.inside.map (fun r hpre => ?_)).sublist hsub
    rcases (hends r).state with hsame | hfin
    · exact hsame.symm.trans hpre
    · rw [hfin] at hpre
      exact absurd hpre (by simp)

/-- **Run lemma.** -/
theorem Reachable.staged (h : v.Reachable config cache firstId) : v.Staged config := by
  induction h with
  | start =>
    refine ⟨Reachable.start.inOrder, ⟨List.nodup_nil, ?_, ?_, trivial⟩, ?_, .of_none ?_⟩
    · exact fun r hr => absurd hr List.not_mem_nil
    · exact fun w hw => absurd hw List.not_mem_nil
    · exact fun e he => absurd he List.not_mem_nil
    · exact fun r hr => absurd hr List.not_mem_nil
  | step op hv ih => exact ih.run hv.config op

/-- **Prefill chunks tile the prompt**, over any cache, in every configuration
and in either order of the passes. In every state of a run the chunks issued
for a running sequence since it was let in are consecutive spans of its
prompt, and it decodes exactly when they are all of it. Nothing has been
issued for a sequence that waits, and what was evicted had been given its
spans in the same way until then. One call issues one chunk for a sequence,
unless it evicts it in between. -/
theorem chunks_tile (h : v.Reachable config cache firstId) :
    (∀ r ∈ v.sched.running, r.state ≠ .finished →
      r.computedPrefixLen ≤ r.prompt.length
      ∧ Span.TilesTo (chunksSince r.id v.sched.trace) r.computedPrefixLen
      ∧ (r.state = .decoding ↔ Span.TilesTo (chunksSince r.id v.sched.trace) r.prompt.length)
      ∧ (r.state = .prefilling ∨ r.state = .decoding))
    ∧ (∀ w ∈ v.sched.waiting, w.state ≠ .finished → chunksSince w.id v.sched.trace = [])
    ∧ (∀ later u past, v.sched.trace = later ++ .preempted u :: past → u.state ≠ .finished →
      u.computedPrefixLen ≤ u.prompt.length
      ∧ Span.TilesTo (chunksSince u.id past) u.computedPrefixLen
      ∧ (u.state = .decoding ↔ Span.TilesTo (chunksSince u.id past) u.prompt.length))
    ∧ ∀ id, (∀ q ∈ v.sched.queue, q.id = id → q.state ≠ .finished) →
      ∃ new, v.sched.schedule.1.trace = new ++ v.sched.trace
        ∧ v.sched.schedule.2.scheduled = new.reverse.filterMap SchedEvent.entry
        ∧ v.sched.schedule.2.preempted = new.reverse.filterMap SchedEvent.victim
        ∧ OneChunk id new := by
  have hs := h.staged
  have hiff : ∀ {r : Sequence} {trace : List SchedEvent}, r.Tiled trace →
      (r.state = .decoding ↔ Span.TilesTo (chunksSince r.id trace) r.prompt.length) := by
    intro r trace ht
    constructor
    · intro hdec
      rcases ht.stage with ⟨hmid, -⟩ | ⟨-, hfull⟩
      · exact absurd (hmid.symm.trans hdec) (by simp)
      · exact hfull ▸ ht.tiles
    · intro htile
      have hlen : r.computedPrefixLen = r.prompt.length := ht.tiles.sum.symm.trans htile.sum
      rcases ht.stage with ⟨-, hlt⟩ | ⟨hdec, -⟩
      · exact absurd hlen hlt.ne
      · exact hdec
  refine ⟨fun r hr hlive => ?_, fun w hw hlive => (hs.sched.waiting w hw hlive).2.2,
    fun later u past hsplit hlive => ?_, fun id hlive => ?_⟩
  · have ht := hs.sched.running r hr hlive
    exact ⟨ht.stage.le, ht.tiles, hiff ht, ht.stage.imp And.left And.left⟩
  · have ht : u.Tiled past := Justified.iff_forall.mp hs.sched.evicted later _ past hsplit hlive
    exact ⟨ht.stage.le, ht.tiles, hiff ht⟩
  · obtain ⟨new, htrace, hone⟩ := hs.sched.schedule_oneChunk hlive
    obtain ⟨new', htrace', hscheduled, hpreempted⟩ := PassMoves.recorded v.sched.passes_moves
    obtain rfl : new' = new := List.append_cancel_right (htrace'.symm.trans htrace)
    exact ⟨new', htrace, hscheduled, hpreempted, hone⟩

/-- A prompt of six tokens, four to a call: after one call it is in the middle
of its prompt, after two it decodes. -/
theorem chunks_tile_sixTokens :
    let v := SchedulerOp.runAll (.start { maxNumSeqs := 2, maxNumBatchedTokens := 4 }
        (KvCacheManager.new 4 4 true) 1)
      [.addRequest [1, 2, 3, 4, 5, 6] {} 0, .schedule, .schedule]
    chunksSince ⟨1⟩ v.sched.trace = [(4, 2), (0, 4)]
    ∧ ∀ r ∈ v.sched.running, r.state ≠ .finished → r.computedPrefixLen ≤ r.prompt.length
      ∧ Span.TilesTo (chunksSince r.id v.sched.trace) r.computedPrefixLen := by
  intro v
  have hreach : v.Reachable { maxNumSeqs := 2, maxNumBatchedTokens := 4 }
    (KvCacheManager.new 4 4 true) 1 := Reachable.start.runAll _
  refine ⟨by decide +kernel, fun r hr hlive => ?_⟩
  obtain ⟨hle, htile, -⟩ := (chunks_tile hreach).1 r hr hlive
  exact ⟨hle, htile⟩

/-- **Nobody is stranded between the passes**, over any cache. In every state
of a run a running sequence that is not finished is a candidate of the
partial pass or of the decode pass, and has prompt left or not accordingly.
After a call one running sequence at most is in the middle of its prompt, and
it is the newest. -/
theorem never_stranded (h : v.Reachable config cache firstId) :
    (∀ r ∈ v.sched.running, r.state ≠ .finished →
      (r.state = .prefilling ∧ 0 < r.remainingPrefill
        ∧ (r.id, r.computedPrefixLen, r.remainingPrefill)
          ∈ Pass.partialCandidates v.sched.running)
      ∨ (r.state = .decoding ∧ r.remainingPrefill = 0
        ∧ (r.id, r.totalLen) ∈ Pass.decodeCandidates v.sched.running))
    ∧ ∀ older r newer, v.sched.schedule.1.running = older ++ r :: newer →
      r.state = .prefilling → newer = [] ∧ ∀ a ∈ older, a.state ≠ .prefilling := by
  have hs := h.staged
  refine ⟨fun r hr hlive => ?_, fun older r newer hrun hpre => ?_⟩
  · rcases (hs.sched.running r hr hlive).stage with ⟨hmid, hlt⟩ | ⟨hdec, hfull⟩
    · refine Or.inl ⟨hmid, Nat.sub_pos_of_lt hlt, ?_⟩
      refine List.mem_map_of_mem (List.mem_filter.mpr ⟨hr, ?_⟩)
      have hmore : r.isPrefillComplete = false := decide_eq_false (not_le.mpr hlt)
      show (decide (r.state = .prefilling) && !r.isPrefillComplete) = true
      rw [hmid, hmore]
      rfl
    · refine Or.inr ⟨hdec, Nat.sub_eq_zero_of_le hfull.ge, ?_⟩
      exact List.mem_map_of_mem (List.mem_filter.mpr ⟨hr, decide_eq_true hdec⟩)
  · have hlast := (h.step .schedule).staged.inside.last
    change v.sched.schedule.1.running.Pairwise _ at hlast
    rw [hrun] at hlast
    obtain ⟨-, hbehind, hbefore⟩ := List.pairwise_append.mp hlast
    refine ⟨List.eq_nil_iff_forall_not_mem.mpr (fun x hx => ?_), fun a ha => ?_⟩
    · exact (List.pairwise_cons.mp hbehind).1 x hx hpre
    · exact hbefore a ha r List.mem_cons_self

/-- Two prompts, the budget of one call for a part of the second. -/
theorem never_stranded_twoPrompts :
    let v := SchedulerOp.runAll (.start { maxNumSeqs := 2, maxNumBatchedTokens := 4 }
        (KvCacheManager.new 4 4 true) 1)
      [.addRequest [1, 2] {} 0, .addRequest [3, 4, 5, 6] {} 0]
    v.sched.schedule.1.running.length = 2
    ∧ ∀ older r newer, v.sched.schedule.1.running = older ++ r :: newer →
      r.state = .prefilling → newer = [] ∧ ∀ a ∈ older, a.state ≠ .prefilling := by
  intro v
  have hreach : v.Reachable { maxNumSeqs := 2, maxNumBatchedTokens := 4 }
    (KvCacheManager.new 4 4 true) 1 := Reachable.start.runAll _
  exact ⟨by decide +kernel, (never_stranded hreach).2⟩

end Service
