import OrionServe.EngineChannels
import OrionServe.Sampling

/-!
# What a request is sent does not depend on the others

With a model whose logits for a sequence are a function of its prompt and of
the tokens it has generated, and a sampler that is given with the request,
there is one list of tokens that a request can be sent: each is drawn from the
state the sampler was left in and from the tokens before it. How far a run gets
in the list depends on everybody, what is in it on nobody.

`Draws` says that the engine keeps to that list. All it does leaves that alone,
but a row of the output for the request takes one more token – provided its
logits are those of the tokens the request has by then.
-/

namespace Engine

variable {M S F : Type*} [Sampler S F]

/-! ## The list of draws -/

/-- **One draw**: the token is appended, or there is none. -/
def draw (f : List TokenId → List TokenId → List F) (prompt : List TokenId)
    (params : SamplingParams) (x : S × List TokenId) : S × List TokenId :=
  match Sampler.sample x.1 (f prompt x.2) (prompt ++ x.2) params with
  | (s, .ok token) => (s, x.2 ++ [token])
  | (s, .error _) => (s, x.2)

/-- A state that draws lead to. -/
def Drawn (f : List TokenId → List TokenId → List F) (prompt : List TokenId)
    (params : SamplingParams) (s : S) (x : S × List TokenId) : Prop :=
  ∃ k, x = (draw f prompt params)^[k] (s, [])

variable {f : List TokenId → List TokenId → List F} {prompt : List TokenId}
  {params : SamplingParams} {s : S} {x y : S × List TokenId}

theorem Drawn.start : Drawn f prompt params s (s, []) := ⟨0, rfl⟩

theorem Drawn.draw (h : Drawn f prompt params s x) :
    Drawn f prompt params s (draw f prompt params x) := by
  obtain ⟨k, rfl⟩ := h
  exact ⟨k + 1, (Function.iterate_succ_apply' _ k _).symm⟩

/-- Draws only add to the tokens. -/
theorem prefix_iterate_draw (k : ℕ) (x : S × List TokenId) :
    x.2 <+: ((Engine.draw f prompt params)^[k] x).2 := by
  induction k with
  | zero => exact List.prefix_rfl
  | succ k ih =>
    rw [Function.iterate_succ_apply']
    refine ih.trans ?_
    show _ <+: (Engine.draw f prompt params _).2
    unfold Engine.draw
    split
    · exact List.prefix_append _ _
    · exact List.prefix_rfl

/-- **Of two lists of draws one is a prefix of the other.** -/
theorem Drawn.prefix_or_prefix (h : Drawn f prompt params s x) (h' : Drawn f prompt params s y) :
    x.2 <+: y.2 ∨ y.2 <+: x.2 := by
  obtain ⟨k, rfl⟩ := h
  obtain ⟨k', rfl⟩ := h'
  rcases le_total k k' with hle | hle
  · obtain ⟨j, rfl⟩ := Nat.exists_eq_add_of_le' hle
    rw [Function.iterate_add_apply]
    exact Or.inl (prefix_iterate_draw j _)
  · obtain ⟨j, rfl⟩ := Nat.exists_eq_add_of_le' hle
    rw [Function.iterate_add_apply]
    exact Or.inr (prefix_iterate_draw j _)

/-! ## A request and its draws -/

variable {e e' e'' : Engine M S} {id : SequenceId}

/-- **The engine keeps to the list of draws**: what was sent is part of it, and
while the request is active its sampler and its output are where the list has
got to. -/
structure Draws (id : SequenceId) (f : List TokenId → List TokenId → List F)
    (prompt : List TokenId) (params : SamplingParams) (s : S) (e : Engine M S) : Prop where
  said : ∃ x, Drawn f prompt params s x ∧ tokensIn (e.eventsOf id) <+: x.2
  going : ∀ req, e.active.lookup id = some req → ∀ q ∈ e.scheduler.queue, q.id = id →
    q.prompt = prompt ∧ q.params = params ∧ q.output = tokensIn (e.eventsOf id)
      ∧ Drawn f prompt params s (req.sampler, q.output)

omit [Sampler S F] in
/-- **A stretch in which a request is sent no token**, and its sampler draws
none. -/
structure Leaves (id : SequenceId) (e e' : Engine M S) : Prop where
  said : tokensIn (e'.eventsOf id) = tokensIn (e.eventsOf id)
  active : ∀ req', e'.active.lookup id = some req' →
    ∃ req, e.active.lookup id = some req ∧ req'.sampler = req.sampler
  queue : ∀ q' ∈ e'.scheduler.queue, q'.id = id → ∃ q ∈ e.scheduler.queue, q.id = id
    ∧ q'.prompt = q.prompt ∧ q'.params = q.params ∧ q'.output = q.output

theorem Draws.leaves (h : e.Draws id f prompt params s) (hl : e.Leaves id e') :
    e'.Draws id f prompt params s where
  said := by
    rw [hl.said]
    exact h.said
  going req' hreq' q' hq' hid := by
    obtain ⟨req, hreq, hsampler⟩ := hl.active req' hreq'
    obtain ⟨q, hq, hqid, hprompt, hparams, houtput⟩ := hl.queue q' hq' hid
    rw [hl.said, hprompt, hparams, houtput, hsampler]
    exact h.going req hreq q hq hqid

namespace Leaves

omit [Sampler S F]

theorem refl (id : SequenceId) (e : Engine M S) : e.Leaves id e :=
  ⟨rfl, fun req hreq => ⟨req, hreq, rfl⟩, fun q hq hid => ⟨q, hq, hid, rfl, rfl, rfl⟩⟩

theorem trans (h : e.Leaves id e') (h' : e'.Leaves id e'') : e.Leaves id e'' where
  said := h'.said.trans h.said
  active req'' hreq'' := by
    obtain ⟨req', hreq', hs'⟩ := h'.active req'' hreq''
    obtain ⟨req, hreq, hs⟩ := h.active req' hreq'
    exact ⟨req, hreq, hs'.trans hs⟩
  queue q'' hq'' hid := by
    obtain ⟨q', hq', hid', hprompt', hparams', houtput'⟩ := h'.queue q'' hq'' hid
    obtain ⟨q, hq, hid₀, hprompt, hparams, houtput⟩ := h.queue q' hq' hid'
    exact ⟨q, hq, hid₀, hprompt'.trans hprompt, hparams'.trans hparams, houtput'.trans houtput⟩

/-- A loop. -/
theorem foldl {α : Type*} {g : Engine M S → α → Engine M S} (hg : ∀ e a, Leaves id e (g e a))
    (l : List α) : ∀ e, Leaves id e (l.foldl g e) := by
  induction l with
  | nil => exact .refl id
  | cons a l ih => exact fun e => (hg e a).trans (ih (g e a))

/-- A call of the scheduler that keeps the contents of the sequences. -/
theorem of_queue {e' : Engine M S} (hs : ∀ q' ∈ e'.scheduler.queue, ∃ q ∈ e.scheduler.queue,
      q'.id = q.id ∧ q'.prompt = q.prompt ∧ q'.params = q.params ∧ q'.output = q.output)
    (ha : e'.active = e.active) (ht : e'.sent = e.sent) : e.Leaves id e' where
  said := by
    unfold eventsOf
    rw [ht]
  active req' hreq' := ⟨req', ha ▸ hreq', rfl⟩
  queue q' hq' hid := by
    obtain ⟨q, hq, hqid, hrest⟩ := hs q' hq'
    exact ⟨q, hq, hqid.symm.trans hid, hrest⟩

theorem of_sub (hs : ∀ q' ∈ e'.scheduler.queue, q' ∈ e.scheduler.queue)
    (ha : e'.active = e.active) (ht : e'.sent = e.sent) : e.Leaves id e' :=
  of_queue (fun q' hq' => ⟨q', hs q' hq', rfl, rfl, rfl, rfl⟩) ha ht

/-- The record of another request, or the same sampler. -/
theorem setRequest {id' : SequenceId} {req req' : ActiveRequest S}
    (hreq : e.active.lookup id' = some req) (h : id' ≠ id ∨ req'.sampler = req.sampler) :
    e.Leaves id { e with active := e.active.insert id' req' } where
  said := rfl
  active r hr := by
    by_cases hid : id = id'
    · subst hid
      rw [show r = req' from Option.some.inj (hr.symm.trans (AList.lookup_insert _))]
      exact ⟨req, hreq, h.resolve_left (fun hne => hne rfl)⟩
    · exact ⟨r, (AList.lookup_insert_ne hid).symm.trans hr, rfl⟩
  queue q hq hid := ⟨q, hq, hid, rfl, rfl, rfl⟩

/-- A request that is dropped. -/
theorem erase {id' : SequenceId} {s : Scheduler KvCacheManager}
    (hs : ∀ q ∈ s.queue, q ∈ e.scheduler.queue) :
    e.Leaves id { e with scheduler := s, active := e.active.erase id' } where
  said := rfl
  active r hr := by
    by_cases hid : id = id'
    · subst hid
      exact absurd (hr.symm.trans (AList.lookup_erase _ _)) (by simp)
    · exact ⟨r, (AList.lookup_erase_ne hid).symm.trans hr, rfl⟩
  queue q hq hid := ⟨q, hs q hq, hid, rfl, rfl, rfl⟩

theorem cancelSilently (e : Engine M S) (id' : SequenceId) :
    e.Leaves id (e.cancelSilently id') := erase (fun _ hq => mem_queue_of_cancel hq)

/-- A terminal event is no token. -/
theorem sendLast (e : Engine M S) (id' : SequenceId) {ev : ActiveRequest S → StreamEvent}
    (hev : ∀ req, ∃ reason p c, ev req = .done reason p c) : e.Leaves id (e.sendLast id' ev) := by
  unfold Engine.sendLast
  split
  · exact .refl id e
  next req hreq =>
  have herase : e.Leaves id { e with active := e.active.erase id' } := erase (fun _ hq => hq)
  refine ⟨?_, herase.active, herase.queue⟩
  obtain ⟨reason, p, c, hdone⟩ := hev req
  rw [eventsOf_cons (e := e) rfl id]
  split
  · show tokensIn (e.eventsOf id ++ [ev req]) = _
    rw [tokensIn_append, hdone]
    exact List.append_nil _
  · rfl

/-- A token for another request. -/
theorem sendToken (hnd : e.scheduler.ids.Nodup) {id' : SequenceId} (hne : id' ≠ id)
    {req : ActiveRequest S} {token : TokenId} {ev : StreamEvent} :
    e.Leaves id
      (send { e with scheduler := (e.scheduler.onToken id' token e.eosIds).1 } id' req ev).1 where
  said := congrArg tokensIn ((eventsOf_cons (e := e) rfl id).trans (if_neg hne))
  active r hr := ⟨r, (AList.lookup_insert_ne (Ne.symm hne)).symm.trans hr, rfl⟩
  queue q' hq' hid := by
    rcases queue_onToken hnd hq' with ⟨hmem, -⟩ | ⟨q, -, hqid, rfl⟩
    · exact ⟨q', hmem, hid, rfl, rfl, rfl⟩
    · have hsame := (Scheduler.tokenReceived_id token e.eosIds q).symm.trans hid
      exact absurd (hqid.symm.trans hsame) hne

/-! ### The operations -/

theorem cancel (e : Engine M S) (id' : SequenceId) : e.Leaves id (e.cancel id') := by
  have hcall : e.Leaves id { e with scheduler := (e.scheduler.cancel id').1 } :=
    of_sub (fun _ hq => mem_queue_of_cancel hq) rfl rfl
  unfold Engine.cancel
  split
  · next s hs =>
    rw [hs] at hcall
    exact hcall.trans (sendLast _ _ (fun _ => ⟨_, _, _, rfl⟩))
  · next s hs =>
    rw [hs] at hcall
    exact hcall

theorem reap (e : Engine M S) : e.Leaves id e.reap := by
  have hcall : e.Leaves id { e with scheduler := e.scheduler.reapFinished.1 } := by
    refine of_sub (fun q hq => ?_) rfl rfl
    exact (List.mem_append.mp hq).elim
      (fun hr => List.mem_append_left _ (List.mem_filter.mp hr).1)
      (List.mem_append_right _)
  exact hcall.trans (foldl (fun e (r : Sequence) =>
    sendLast e r.id (fun _ => ⟨_, _, _, rfl⟩)) _ _)

theorem expire (e : Engine M S) (now : Instant) : e.Leaves id (e.expire now) := by
  have hcall : e.Leaves id { e with scheduler := (e.scheduler.expireTimeouts now).1 } := by
    refine of_queue (fun q' hq' => ?_) rfl rfl
    obtain ⟨q, hq, hqid, hprompt, houtput, hparams, -⟩ := Scheduler.of_mem_expireTimeouts hq'
    exact ⟨q, hq, hqid, hprompt, hparams, houtput⟩
  exact hcall.trans (foldl (fun e id' => sendLast e id' (fun _ => ⟨_, _, _, rfl⟩)) _ _)

/-- Between the `schedule` call and the forward pass. -/
theorem scheduled (e : Engine M S) (now : Instant) : e.Leaves id (e.scheduled now) := by
  have hmoves := PassMoves.moved (e.expire now).scheduler.passes_moves
  have hcall : (e.expire now).Leaves id (e.scheduled now) := by
    refine of_queue (fun q' hq' => ?_) rfl rfl
    obtain ⟨q, hq, hm⟩ := MovedAll.exists_of_mem hmoves hq'
    exact ⟨q, hq, hm.id, hm.prompt, hm.params, hm.output⟩
  exact (expire e now).trans hcall

theorem publish (e : Engine M S) (scheduled : List ScheduledSequence) :
    e.Leaves id (e.publish scheduled) := by
  induction scheduled generalizing e with
  | nil => exact .refl id e
  | cons x scheduled ih =>
    have hone : e.Leaves id (e.publish [x]) := by
      refine of_sub (fun q hq => ?_) rfl rfl
      have hq' : q ∈ (if x.isPrefill then e.scheduler.commitPrefill x.id
        else e.scheduler).queue := hq
      split at hq'
      · rw [Scheduler.commitPrefill_queue] at hq'
        exact hq'
      · exact hq'
    exact hone.trans (ih (e.publish [x]))

theorem submit (hlt : id.raw < e.nextId) (prompt : List TokenId) (params : SamplingParams)
    (events : Channel) (sampler : S) (now : Instant) :
    e.Leaves id (e.submit prompt params events sampler now).1 := by
  unfold Engine.submit
  split
  · exact .refl id e
  set seq : Sequence := .new ⟨e.nextId⟩ prompt params now with hseq
  have hne : id ≠ seq.id := fun hid => absurd (congrArg SequenceId.raw hid) hlt.ne
  rcases e.scheduler.addRequest_cases seq with ⟨err, hadd⟩ | ⟨hadd, -⟩
  · rw [hadd]
    exact of_sub (fun _ hq => hq) rfl rfl
  · rw [hadd]
    refine ⟨rfl, fun r hr => ⟨r, (AList.lookup_insert_ne hne).symm.trans hr, rfl⟩,
      fun q hq hid => ⟨q, ?_, hid, rfl, rfl, rfl⟩⟩
    have hq' : q ∈ e.scheduler.running ++ (e.scheduler.waiting ++ [seq]) := hq
    rw [← List.append_assoc] at hq'
    refine (List.mem_append.mp hq').resolve_right (fun hmem => hne ?_)
    rw [← hid, List.mem_singleton.mp hmem]

/-- At the caller's end. -/
theorem receive (e : Engine M S) (id' : SequenceId) : e.Leaves id (e.receive id') := by
  unfold Engine.receive
  split
  · exact .refl id e
  · next req hreq => exact setRequest hreq (Or.inr rfl)

theorem hangUp (e : Engine M S) (id' : SequenceId) : e.Leaves id (e.hangUp id') := by
  unfold Engine.hangUp
  split
  · exact .refl id e
  · next req hreq => exact setRequest hreq (Or.inr rfl)

/-- A row of the output for another request. -/
theorem sampleAndEmit [Sampler S F] (hnd : e.scheduler.ids.Nodup) {id' : SequenceId}
    (hne : id' ≠ id) (logits : List F) : e.Leaves id (e.sampleAndEmit id' logits).1 := by
  unfold Engine.sampleAndEmit
  split
  · exact .refl id e
  split
  · exact .refl id e
  next req hreq =>
  split
  · exact setRequest hreq (Or.inl hne)
  next sampler token _ =>
  set req' : ActiveRequest S := { req with sampler := sampler } with hreq'
  have htoken : ∀ ev : StreamEvent, e.Leaves id (send { e with
      scheduler := (e.scheduler.onToken id' token e.eosIds).1 } id' req' ev).1 :=
    fun ev => sendToken hnd hne
  simp only []
  split
  · next e' hsend =>
    obtain rfl : (send _ _ _ _).1 = e' := congrArg Prod.fst hsend
    exact (htoken _).trans (cancelSilently _ _)
  · next e' hsend =>
    obtain rfl : (send _ _ _ _).1 = e' := congrArg Prod.fst hsend
    split
    · exact (htoken _).trans (sendLast _ _ (fun _ => ⟨_, _, _, rfl⟩))
    · exact htoken _

/-- Rows of the output for others. -/
theorem emitRows [Sampler S F] (out : ForwardOutput F) (rows : List (SequenceId × ℕ)) :
    ∀ {e : Engine M S}, e.Tracks [] [] → id ∉ rows.map Prod.fst →
      e.Leaves id (e.emitRows out rows).1 := by
  induction rows with
  | nil => exact fun {e} _ _ => .refl id e
  | cons r rows ih =>
    obtain ⟨id', row⟩ := r
    intro e ht hid
    obtain ⟨hne, hrest⟩ := not_or.mp (List.mem_cons.not.mp hid)
    unfold Engine.emitRows
    split
    · exact ih ht hrest
    split
    · exact .refl id e
    next logits _ =>
    have hone := sampleAndEmit ht.nodup (Ne.symm hne) logits
    have htone := ht.sampleAndEmit id' logits
    split
    · next e' he' =>
      rw [he'] at hone htone
      exact hone.trans (ih htone hrest)
    · next e' err he' =>
      rw [he'] at hone
      exact hone

end Leaves

/-! ## A row for the request -/

omit [Sampler S F] in
theorem tokenReceived_params (token : TokenId) (eosIds : List TokenId) (q : Sequence) :
    (Scheduler.tokenReceived token eosIds q).params = q.params := by
  simp only [Scheduler.tokenReceived]
  split
  · exact Sequence.finish_params _ _
  · rfl

namespace Draws

/-- **A row for the request**, with the logits of its prompt and of the tokens it
has: one draw. -/
theorem sampleAndEmit (h : e.Draws id f prompt params s) (ht : e.Tracks [] []) {logits : List F}
    (hlogits : ∀ q, e.scheduler.runningSequence id = some q → logits = f q.prompt q.output) :
    (e.sampleAndEmit id logits).1.Draws id f prompt params s := by
  unfold Engine.sampleAndEmit
  split
  · exact h
  next seq hseq =>
  split
  · exact h
  next req hreq =>
  have hmem := List.mem_append_left e.scheduler.waiting (List.mem_of_findKey hseq)
  have hid : seq.id = id := List.key_of_findKey hseq
  obtain ⟨hprompt, hparams, houtput, hdrawn⟩ := h.going req hreq seq hmem hid
  have hdraw := hdrawn.draw
  have hrow : logits = f prompt seq.output := hprompt ▸ hlogits seq hseq
  have hall : seq.allTokens = prompt ++ seq.output := congrArg (· ++ _) hprompt
  -- what the sampler was asked is what the next draw asks
  unfold Engine.draw at hdraw
  rw [← hrow, ← hall, ← hparams] at hdraw
  split
  · next sampler err hsample =>
    simp only [hsample] at hdraw
    refine ⟨h.said, fun r hr q hq hqid => ?_⟩
    obtain rfl := Option.some.inj (hr.symm.trans (AList.lookup_insert _))
    obtain rfl := Scheduler.eq_of_id_eq ht.nodup hq hmem (hqid.trans hid.symm)
    exact ⟨hprompt, hparams, houtput, hparams ▸ hdraw⟩
  next sampler token hsample =>
  simp only [hsample] at hdraw
  rw [hparams] at hdraw
  set req' : ActiveRequest S := { req with sampler := sampler } with hreq'
  have htoken : ∀ index : ℕ, (send { e with
      scheduler := (e.scheduler.onToken id token e.eosIds).1 } id req'
      (.token token "" index)).1.Draws id f prompt params s := by
    intro index
    have hsaid : tokensIn ((send { e with
        scheduler := (e.scheduler.onToken id token e.eosIds).1 } id req'
        (.token token "" index)).1.eventsOf id) = seq.output ++ [token] := by
      rw [eventsOf_cons (e := e) rfl id, if_pos rfl, tokensIn_append, ← houtput]
      rfl
    refine ⟨⟨_, hdraw, ?_⟩, fun r hr q hq hqid => ?_⟩
    · rw [hsaid]
    · rw [hsaid]
      obtain rfl := Option.some.inj (hr.symm.trans (AList.lookup_insert _))
      rcases queue_onToken ht.nodup hq with ⟨-, hne | hnone⟩ | ⟨a, ha, haid, rfl⟩
      · exact absurd hqid hne
      · rw [hnone] at hseq
        exact absurd hseq (by simp)
      · obtain rfl := Scheduler.eq_of_id_eq ht.nodup (List.mem_append_left _ ha) hmem
          (haid.trans hid.symm)
        rw [tokenReceived_output]
        exact ⟨((a.ends_tokenReceived token e.eosIds).prompt).trans hprompt,
          (tokenReceived_params token e.eosIds a).trans hparams, rfl, hdraw⟩
  simp only []
  split
  · next e' hsend =>
    obtain rfl : (send _ _ _ _).1 = e' := congrArg Prod.fst hsend
    exact (htoken _).leaves (Leaves.cancelSilently _ _)
  · next e' hsend =>
    obtain rfl : (send _ _ _ _).1 = e' := congrArg Prod.fst hsend
    split
    · exact (htoken _).leaves (Leaves.sendLast _ _ (fun _ => ⟨_, _, _, rfl⟩))
    · exact htoken _

/-- **The rows of the output**, among them one for the request at most. -/
theorem emitRows (out : ForwardOutput F) (rows : List (SequenceId × ℕ)) :
    ∀ {e : Engine M S}, e.Draws id f prompt params s → e.Tracks [] [] →
      (rows.map Prod.fst).count id ≤ 1 →
      (∀ row, (id, row) ∈ rows → ∀ logits, out.row row = some logits →
        ∀ q ∈ e.scheduler.queue, q.id = id → logits = f q.prompt q.output) →
      (e.emitRows out rows).1.Draws id f prompt params s := by
  induction rows with
  | nil => exact fun h _ _ _ => h
  | cons r rows ih =>
    obtain ⟨id', row⟩ := r
    intro e h ht hcount hlogits
    rw [List.map_cons, List.count_cons] at hcount
    have hle : (rows.map Prod.fst).count id ≤ 1 := (Nat.le_add_right _ _).trans hcount
    have hrest : ∀ row, (id, row) ∈ rows → ∀ logits, out.row row = some logits →
        ∀ q ∈ e.scheduler.queue, q.id = id → logits = f q.prompt q.output :=
      fun row hmem => hlogits row (List.mem_cons_of_mem _ hmem)
    unfold Engine.emitRows
    split
    · exact ih h ht hle hrest
    split
    · exact h
    next logits hrow =>
    have htone := ht.sampleAndEmit id' logits
    by_cases hid : id' = id
    · subst hid
      have hone := h.sampleAndEmit ht (fun q hq => hlogits row List.mem_cons_self logits hrow q
        (List.mem_append_left _ (List.mem_of_findKey hq)) (List.key_of_findKey hq))
      -- it was the only one
      have habsent : id' ∉ rows.map Prod.fst := by
        rw [beq_self_eq_true, if_pos rfl] at hcount
        exact List.count_eq_zero.mp (by omega)
      split
      · next e' he' =>
        rw [he'] at hone htone
        exact hone.leaves (Leaves.emitRows out rows htone habsent)
      · next e' err he' =>
        rw [he'] at hone
        exact hone
    · have hone := Leaves.sampleAndEmit (F := F) ht.nodup hid logits
      split
      · next e' he' =>
        rw [he'] at hone htone
        refine ih (h.leaves hone) htone hle (fun row hmem logits hrow q' hq' hqid => ?_)
        obtain ⟨q, hq, hqid, hprompt, -, houtput⟩ := hone.queue q' hq' hqid
        rw [hprompt, houtput]
        exact hrest row hmem logits hrow q hq hqid
      · next e' err he' =>
        rw [he'] at hone
        exact h.leaves hone

end Draws

/-! ## Runs -/

section Runs

variable [LanguageModel M F]

/-- **The assumption on the model**: its rows are those of the batch, and the
logits of a sequence are a function of its prompt and of the tokens it has
generated when the batch is built. -/
def RowsFollow (id : SequenceId) (f : List TokenId → List TokenId → List F) (e : Engine M S) :
    EngineOp S → Prop
  | .step now => ∀ b out, buildBatch (e.scheduled now).scheduler (e.output now) = .ok b →
      ((e.scheduled now).runForward b).2 = .ok out →
      out.sequenceIds = b.sequenceIds
      ∧ ∀ row logits, (id, row) ∈ out.sequenceIds.zipIdx → out.row row = some logits →
        ∀ q ∈ (e.scheduled now).scheduler.queue, q.id = id → logits = f q.prompt q.output
  | _ => True

/-- **No batch names the sequence twice.** A row is sampled for each time that it is
named, so a second one would draw from the generator again, and with logits that
were computed before the first token was there. -/
def NamesOnce (id : SequenceId) (e : Engine M S) : EngineOp S → Prop
  | .step now => ∀ b, buildBatch (e.scheduled now).scheduler (e.output now) = .ok b →
      b.sequenceIds.count id ≤ 1
  | _ => True

/-- Every operation of a run meets a condition in the state that it finds. -/
def Meets (P : Engine M S → EngineOp S → Prop) : Engine M S → List (EngineOp S) → Prop
  | _, [] => True
  | e, op :: ops => P e op ∧ Meets P (op.run e) ops

namespace Draws

theorem step (h : e.Draws id f prompt params s) (ht : e.Tracks [] []) {now : Instant}
    (hrows : e.RowsFollow id f (.step now)) (hone : e.NamesOnce id (.step now)) :
    (e.step now).1.Draws id f prompt params s := by
  have hmid := h.leaves (Leaves.scheduled e now)
  have hfwd : ∀ b, ((e.scheduled now).runForward b).1.Draws id f prompt params s := by
    intro b
    have hsame : (e.scheduled now).Leaves id ((e.scheduled now).runForward b).1 :=
      .of_sub (fun _ hq => hq) rfl rfl
    exact hmid.leaves hsame
  have htfwd : ∀ b, ((e.scheduled now).runForward b).1.Tracks [] [] :=
    fun _ => (ht.scheduled now).congr rfl rfl rfl rfl
  rcases e.step_stages now with ⟨-, hstep⟩ | ⟨err, -, hstep⟩
    | ⟨b, hbuild, ⟨err, -, hstep⟩ | ⟨out, hout, hlast⟩⟩
  · rw [hstep]
    exact hmid.leaves (Leaves.reap _)
  · rw [hstep]
    exact hmid
  · rw [hstep]
    exact hfwd b
  obtain ⟨hids, hlogits⟩ := hrows b out hbuild hout
  have hemit := (hfwd b).emitRows out out.sequenceIds.zipIdx (htfwd b)
    (by
      rw [List.zipIdx_map_fst, hids]
      exact hone b hbuild)
    (fun row hmem logits hrow q hq => hlogits row logits hmem hrow q hq)
  rcases hlast with ⟨err, hstep⟩ | hstep
  · rw [hstep]
    exact hemit
  · rw [hstep]
    exact (hemit.leaves (Leaves.publish _ _)).leaves (Leaves.reap _)

/-- **Step lemma.** -/
theorem run (h : e.Draws id f prompt params s) (ht : e.Tracks [] []) (hlt : id.raw < e.nextId)
    {op : EngineOp S} (hrows : e.RowsFollow id f op) (hone : e.NamesOnce id op) :
    (op.run e).Draws id f prompt params s := by
  cases op with
  | submit prompt params events sampler now =>
    exact h.leaves (Leaves.submit hlt prompt params events sampler now)
  | cancel id => exact h.leaves (Leaves.cancel e id)
  | step now => exact h.step ht hrows hone
  | receive id => exact h.leaves (Leaves.receive e id)
  | hangUp id => exact h.leaves (Leaves.hangUp e id)

/-- **Run lemma.** -/
theorem runAll (ops : List (EngineOp S)) :
    ∀ {e : Engine M S} {promptLen : ℕ} {eosIds : List TokenId} {life : Life},
      e.Draws id f prompt params s → e.Tracks [] [] →
      e.Lives id params promptLen eosIds False life →
      Meets (fun e op => e.RowsFollow id f op ∧ e.NamesOnce id op) e ops →
      (EngineOp.runAll e ops).Draws id f prompt params s := by
  induction ops with
  | nil => exact fun h _ _ _ => h
  | cons op ops ih =>
    intro e promptLen eosIds life h ht hlife hmeets
    obtain ⟨⟨hrows, hone⟩, hrest⟩ := hmeets
    obtain ⟨life', hlife'⟩ := hlife.run ht op
    exact ih (h.run ht hlife.idLt hrows hone) (ht.run op) hlife' hrest

end Draws

/-- **A request that is let in** is at the start of its list. -/
theorem draws_submit {config : SchedulerConfig} {n bs firstId : ℕ} {flag : Bool} {model : M}
    (h : e.Reachable config n bs flag model firstId) {events : Channel} {now : Instant}
    (hok : (e.submit prompt params events s now).2 = .ok id) :
    (e.submit prompt params events s now).1.Draws id f prompt params s := by
  have hlife := lives_submit h.tracks hok
  have hsaid : tokensIn ((e.submit prompt params events s now).1.eventsOf id) = [] := by
    rw [eventsOf_eq_map, hlife.history]
    rfl
  refine ⟨⟨_, .start, ?_⟩, fun req hreq q hq hid => ?_⟩
  · rw [hsaid]
  · obtain rfl := sequence_submit h.tracks hok hq hid
    obtain rfl := Option.some.inj ((channel_submit hok).symm.trans hreq)
    rw [hsaid]
    exact ⟨rfl, rfl, rfl, .start⟩

end Runs

/-! ## Two runs -/

section TwoRuns

variable {M₁ M₂ R : Type*} [LanguageModel M₁ F] [LanguageModel M₂ F] [LogitOps F] [RngLike R F]

omit [Sampler S F] in
/-- Draws of a greedy request are the same from every state of the generator. -/
theorem iterate_draw_of_greedy (h : params.mode = .greedy) (k : ℕ) (r r' : DefaultSampler R) :
    ((draw f prompt params)^[k] (r, [])).2 = ((draw f prompt params)^[k] (r', [])).2 := by
  induction k with
  | zero => rfl
  | succ k ih =>
    rw [Function.iterate_succ_apply', Function.iterate_succ_apply']
    set x := (draw f prompt params)^[k] (r, []) with hx
    set y := (draw f prompt params)^[k] (r', []) with hy
    have hanswer := DefaultSampler.sample_of_greedy h x.1 y.1 (f prompt x.2) (prompt ++ x.2)
    unfold Engine.draw
    rw [← ih]
    rcases hsx : Sampler.sample x.1 (f prompt x.2) (prompt ++ x.2) params with ⟨rx, ax⟩
    rcases hsy : Sampler.sample y.1 (f prompt x.2) (prompt ++ x.2) params with ⟨ry, ay⟩
    rw [hsx, hsy] at hanswer
    obtain rfl : ax = ay := hanswer
    cases ax <;> rfl

omit [Sampler S F] in
/-- **Seeded and greedy draws do not depend on the entropy.** -/
theorem drawn_of_isDeterministic (hdet : params.isDeterministic = true) (entropy entropy' : R)
    {x : DefaultSampler R × List TokenId}
    (hx : Drawn f prompt params (DefaultSampler.forParams params entropy) x) :
    ∃ y : DefaultSampler R × List TokenId,
      Drawn f prompt params (DefaultSampler.forParams params entropy') y ∧ y.2 = x.2 := by
  obtain ⟨k, rfl⟩ := hx
  refine ⟨_, ⟨k, rfl⟩, ?_⟩
  rcases hseed : params.seed with - | seed
  · -- without a seed it is greedy
    refine iterate_draw_of_greedy ?_ k _ _
    unfold SamplingParams.isDeterministic at hdet
    rw [hseed] at hdet
    simpa using hdet
  · have hsame : DefaultSampler.forParams params entropy'
        = DefaultSampler.forParams params entropy := by
      unfold DefaultSampler.forParams
      rw [hseed]
    rw [hsame]

/-- The tokens that the channel of a request has taken. -/
def streamed {M S : Type*} (e : Engine M S) (id : SequenceId) : List TokenId :=
  tokensIn (e.takenOf id)

omit [Sampler S F] in
/-- They are among those that were sent. -/
theorem Lives.streamed_prefix {promptLen : ℕ} {eosIds : List TokenId} {life : Life}
    (h : e.Lives id params promptLen eosIds False life) :
    e.streamed id <+: tokensIn (e.eventsOf id) := by
  have hsent : ∀ (tokens : List TokenId) (rest : List (StreamEvent × Bool)),
      tokensIn (takenEvents rest) <+: tokensIn (rest.map Prod.fst) →
      tokensIn (takenEvents ((tokenEvents tokens).map (·, true) ++ rest))
        <+: tokensIn (((tokenEvents tokens).map (·, true) ++ rest).map Prod.fst) := by
    intro tokens rest hrest
    rw [tokensIn_sent, takenEvents_sent, tokensIn_append, tokensIn_tokenEvents]
    exact (List.prefix_append_right_inj tokens).mpr hrest
  unfold streamed takenOf
  rw [eventsOf_eq_map, h.history]
  cases life with
  | going tokens =>
    have hgoing := hsent tokens [] List.prefix_rfl
    rw [List.append_nil] at hgoing
    exact hgoing
  | ended tokens reason completion told =>
    refine hsent tokens _ ?_
    cases told <;> exact List.prefix_rfl
  | dropped tokens token => exact hsent tokens _ List.nil_prefix

omit [LogitOps F] [RngLike R F] [LanguageModel M₁ F] [LanguageModel M₂ F] in
/-- **What a run streams is on the list.** -/
theorem exists_drawn_streamed [LanguageModel M F] {config : SchedulerConfig} {n bs firstId : ℕ}
    {flag : Bool} {model : M} {events : Channel} {now : Instant}
    (h : e.Reachable config n bs flag model firstId)
    (hok : (e.submit prompt params events s now).2 = .ok id) (ops : List (EngineOp S))
    (hrun : Meets (fun e op => e.RowsFollow id f op ∧ e.NamesOnce id op)
      (e.submit prompt params events s now).1 ops) :
    ∃ x, Drawn f prompt params s x
      ∧ (EngineOp.runAll (e.submit prompt params events s now).1 ops).streamed id <+: x.2 := by
  have ht := h.tracks.submit prompt params events s now
  have hlife := lives_submit h.tracks hok
  have hdraws := (draws_submit h hok).runAll ops ht hlife hrun
  obtain ⟨life', hlife'⟩ := hlife.runAll ops ht
  obtain ⟨x, hx, hsaid⟩ := hdraws.said
  exact ⟨x, hx, hlife'.streamed_prefix.trans hsaid⟩

omit [LanguageModel M₁ F] [LanguageModel M₂ F] in
/-- **Two lists on the lists of one generator.** -/
theorem prefix_or_prefix_of_drawn (hdet : params.isDeterministic = true) {entropy₁ entropy₂ : R}
    {l₁ l₂ : List TokenId}
    (h₁ : ∃ x, Drawn f prompt params (DefaultSampler.forParams params entropy₁) x ∧ l₁ <+: x.2)
    (h₂ : ∃ x, Drawn f prompt params (DefaultSampler.forParams params entropy₂) x ∧ l₂ <+: x.2) :
    l₁ <+: l₂ ∨ l₂ <+: l₁ := by
  obtain ⟨x₁, hx₁, hpre₁⟩ := h₁
  obtain ⟨x₂, hx₂, hpre₂⟩ := h₂
  obtain ⟨y₁, hy₁, hsame⟩ := drawn_of_isDeterministic hdet entropy₁ entropy₂ hx₁
  rw [← hsame] at hpre₁
  rcases hy₁.prefix_or_prefix hx₂ with hle | hle
  · exact List.prefix_or_prefix_of_prefix (hpre₁.trans hle) hpre₂
  · exact List.prefix_or_prefix_of_prefix hpre₁ (hpre₂.trans hle)

/-- **Seeded and greedy output does not depend on the other traffic.** Two runs
that let in the same prompt with the same parameters, over models that follow
the same function and in which no batch names the sequence twice: of the two
lists of tokens that were streamed one is a prefix of the other. Each request has
a generator of its own, and the n-th number is drawn for the n-th token. -/
theorem streamed_prefix_or_prefix {config₁ config₂ : SchedulerConfig}
    {n₁ n₂ bs₁ bs₂ firstId₁ firstId₂ : ℕ} {flag₁ flag₂ : Bool} {model₁ : M₁} {model₂ : M₂}
    {e₁ : Engine M₁ (DefaultSampler R)} {e₂ : Engine M₂ (DefaultSampler R)}
    {id₁ id₂ : SequenceId} {events₁ events₂ : Channel} {entropy₁ entropy₂ : R}
    {now₁ now₂ : Instant}
    (h₁ : e₁.Reachable config₁ n₁ bs₁ flag₁ model₁ firstId₁)
    (h₂ : e₂.Reachable config₂ n₂ bs₂ flag₂ model₂ firstId₂)
    (hdet : params.isDeterministic = true)
    (hok₁ : (e₁.submit prompt params events₁ (.forParams params entropy₁) now₁).2 = .ok id₁)
    (hok₂ : (e₂.submit prompt params events₂ (.forParams params entropy₂) now₂).2 = .ok id₂)
    (f : List TokenId → List TokenId → List F) (ops₁ ops₂ : List (EngineOp (DefaultSampler R)))
    (hrun₁ : Meets (fun e op => e.RowsFollow id₁ f op ∧ e.NamesOnce id₁ op)
      (e₁.submit prompt params events₁ (.forParams params entropy₁) now₁).1 ops₁)
    (hrun₂ : Meets (fun e op => e.RowsFollow id₂ f op ∧ e.NamesOnce id₂ op)
      (e₂.submit prompt params events₂ (.forParams params entropy₂) now₂).1 ops₂) :
    let e₁' := EngineOp.runAll
      (e₁.submit prompt params events₁ (.forParams params entropy₁) now₁).1 ops₁
    let e₂' := EngineOp.runAll
      (e₂.submit prompt params events₂ (.forParams params entropy₂) now₂).1 ops₂
    e₁'.streamed id₁ <+: e₂'.streamed id₂ ∨ e₂'.streamed id₂ <+: e₁'.streamed id₁ := by
  intro e₁' e₂'
  exact prefix_or_prefix_of_drawn hdet (exists_drawn_streamed h₁ hok₁ ops₁ hrun₁)
    (exists_drawn_streamed h₂ hok₂ ops₂ hrun₂)

end TwoRuns

end Engine

/-! ## A model that counts

Its logits say how many tokens there are: a row points at the length of the
prompt and the output when the batch is built. A row that submits one token is
that of a decode step, whose context counts the token to come. -/

/-- The row of a vocabulary of sixteen that points at a token. -/
def pointAt (k : ℕ) : List ℕ := (List.range 16).map (fun i => if i = k then 1 else 0)

/-- The logits are numbers, of which the greedy sampler takes the first of the
largest ones. -/
instance : LogitOps ℕ where
  applyRepetitionPenalty logits _ _ := logits
  applyTemperature logits _ := logits
  applyTopK logits _ := logits
  applyTopP logits _ := logits
  softmax logits := logits
  argmax logits := logits.argmax id |>.map (fun l => logits.idxOf l)
  sampleFrom probs _ := probs.idxOf 1

instance : RngLike ℕ ℕ where
  seedFromU64 seed := seed.toNat
  random r := (r + 1, r)

structure CountingModel where

namespace CountingModel

instance : LanguageModel CountingModel ℕ where
  eosTokenIds _ := []
  forward m b := (m, .ok
    { logits := (b.slotTokenCounts.zip b.contextLens).flatMap
        (fun x => pointAt (if x.1 = 1 then x.2 - 1 else x.2))
      vocabSize := 16
      sequenceIds := b.sequenceIds })

/-- An engine with room for four tokens a step. -/
def engine (prioritizeDecode : Bool) : Engine CountingModel (DefaultSampler ℕ) :=
  .new (.new { prioritizeDecode := prioritizeDecode, maxNumSeqs := 2, maxNumBatchedTokens := 4 }
    (KvCacheManager.new 4 4 true)) ⟨⟩ 1

def params : SamplingParams := { temperature := .finite 0 }

/-- The engine after the request for `[1, 2, 3]`, which has the id 1. -/
def requested (prioritizeDecode : Bool) : Engine CountingModel (DefaultSampler ℕ) :=
  ((engine prioritizeDecode).submit [1, 2, 3] params ⟨8, [], true⟩ (.forParams params 0) 0).1

/-- The request of somebody else. -/
def other : EngineOp (DefaultSampler ℕ) := .submit [9] params ⟨8, [], true⟩ ⟨0⟩ 0

/-- The function that the model follows. -/
def lengths (prompt output : List TokenId) : List ℕ := pointAt (prompt.length + output.length)

/-- What one step has to be checked for: the rows of the request. -/
def Counts (e : Engine CountingModel (DefaultSampler ℕ)) : Prop :=
  ∀ b ∈ (Engine.buildBatch (e.scheduled 0).scheduler (e.output 0)).toOption,
    ∀ out ∈ ((e.scheduled 0).runForward b).2.toOption,
      ∀ r ∈ out.sequenceIds.zipIdx, r.1 = ⟨1⟩ → ∀ q ∈ (e.scheduled 0).scheduler.queue,
        q.id = ⟨1⟩ → out.row r.2 = some (lengths q.prompt q.output)

instance (e : Engine CountingModel (DefaultSampler ℕ)) : Decidable (Counts e) :=
  inferInstanceAs (Decidable (∀ b ∈ Except.toOption _, ∀ out ∈ Except.toOption _, _))

theorem Counts.rowsFollow {e : Engine CountingModel (DefaultSampler ℕ)} (h : Counts e) :
    e.RowsFollow ⟨1⟩ lengths (.step 0) := by
  intro b out hbuild hforward
  refine ⟨?_, fun row logits hmem hrow q hq hid => ?_⟩
  · obtain rfl := Except.ok.inj hforward
    rfl
  · have hsame := h b (by rw [hbuild]; rfl) out (by rw [hforward]; rfl) _ hmem rfl q hq hid
    exact Option.some.inj (hrow.symm.trans hsame)

/-- And how many of them there are. -/
def CountsOnce (e : Engine CountingModel (DefaultSampler ℕ)) : Prop :=
  ∀ b ∈ (Engine.buildBatch (e.scheduled 0).scheduler (e.output 0)).toOption,
    b.sequenceIds.count ⟨1⟩ ≤ 1

instance (e : Engine CountingModel (DefaultSampler ℕ)) : Decidable (CountsOnce e) :=
  inferInstanceAs (Decidable (∀ b ∈ Except.toOption _, _))

theorem CountsOnce.namesOnce {e : Engine CountingModel (DefaultSampler ℕ)} (h : CountsOnce e) :
    e.NamesOnce ⟨1⟩ (.step 0) := fun b hbuild => h b (by rw [hbuild]; rfl)

end CountingModel

namespace Engine

open CountingModel

/-- With decodes first the request has two tokens alone, and one so far in
company. -/
theorem streamed_prefix_or_prefix_three :
    streamed (EngineOp.runAll (requested true) [.step 0, .step 0]) ⟨1⟩ = [3, 4]
    ∧ streamed (EngineOp.runAll (requested true) [other, .step 0]) ⟨1⟩ = [3]
    ∧ (streamed (EngineOp.runAll (requested true) [.step 0, .step 0]) ⟨1⟩
        <+: streamed (EngineOp.runAll (requested true) [other, .step 0]) ⟨1⟩
      ∨ streamed (EngineOp.runAll (requested true) [other, .step 0]) ⟨1⟩
        <+: streamed (EngineOp.runAll (requested true) [.step 0, .step 0]) ⟨1⟩) := by
  have hstart : (CountingModel.engine true).Reachable
      { prioritizeDecode := true, maxNumSeqs := 2, maxNumBatchedTokens := 4 } 4 4 true ⟨⟩ 1 :=
    .start
  have hok : ((CountingModel.engine true).submit [1, 2, 3] CountingModel.params ⟨8, [], true⟩
      (.forParams CountingModel.params 0) 0).2 = .ok ⟨1⟩ := by decide +kernel
  have halone : Meets (fun e op => RowsFollow ⟨1⟩ lengths e op ∧ NamesOnce ⟨1⟩ e op)
      (requested true) [.step 0, .step 0] :=
    ⟨⟨Counts.rowsFollow (by decide +kernel), CountsOnce.namesOnce (by decide +kernel)⟩,
      ⟨Counts.rowsFollow (by decide +kernel), CountsOnce.namesOnce (by decide +kernel)⟩, trivial⟩
  have hshared : Meets (fun e op => RowsFollow ⟨1⟩ lengths e op ∧ NamesOnce ⟨1⟩ e op)
      (requested true) [other, .step 0] :=
    ⟨⟨trivial, trivial⟩,
      ⟨Counts.rowsFollow (by decide +kernel), CountsOnce.namesOnce (by decide +kernel)⟩, trivial⟩
  exact ⟨by decide +kernel, by decide +kernel, streamed_prefix_or_prefix hstart hstart
    (by decide +kernel) hok hok lengths _ _ halone hshared⟩

/-- **The same request is sent other tokens in other company.** With prefills
first the step that completes the prompt decodes it as well, if the budget
allows: alone the request has two rows in one batch, and both are sampled from
the logits after the prompt; with somebody else's prompt in the batch it has
one. -/
theorem streamed_depends_on_traffic :
    (CountingModel.engine false).Reachable
      { prioritizeDecode := false, maxNumSeqs := 2, maxNumBatchedTokens := 4 } 4 4 true ⟨⟩ 1
    ∧ CountingModel.params.isDeterministic = true
    ∧ ((CountingModel.engine false).submit [1, 2, 3] CountingModel.params ⟨8, [], true⟩
        (.forParams CountingModel.params 0) 0).2 = .ok ⟨1⟩
    ∧ Meets (RowsFollow ⟨1⟩ lengths) (requested false) [.step 0]
    ∧ Meets (RowsFollow ⟨1⟩ lengths) (requested false) [other, .step 0, .step 0]
    ∧ streamed (EngineOp.runAll (requested false) [.step 0]) ⟨1⟩ = [3, 3]
    ∧ streamed (EngineOp.runAll (requested false) [other, .step 0, .step 0]) ⟨1⟩ = [3, 4] := by
  refine ⟨.start, by decide +kernel, by decide +kernel, ⟨Counts.rowsFollow ?_, trivial⟩,
    ⟨trivial, Counts.rowsFollow ?_, Counts.rowsFollow ?_, trivial⟩, ?_, ?_⟩
  all_goals decide +kernel

end Engine
