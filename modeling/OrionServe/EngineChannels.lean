import OrionServe.EngineLives

/-!
# The channel of a request

The history of a request only grows, and while the request is active the
buffer of its channel holds what was taken and not yet received. `Speaks`
says so of one stretch of a run: what was said in it comes at the end, and
the part of it that was taken is at the end of the buffer.
-/

namespace Engine

variable {M S F : Type*} {e e' e'' : Engine M S} {id : SequenceId}

/-- Of what was sent, the events that the channel took. -/
def takenEvents (said : List (StreamEvent × Bool)) : List StreamEvent :=
  (said.filter Prod.snd).map Prod.fst

theorem takenEvents_append (l l' : List (StreamEvent × Bool)) :
    takenEvents (l ++ l') = takenEvents l ++ takenEvents l' := by
  unfold takenEvents
  rw [List.filter_append, List.map_append]

theorem takenEvents_true (l : List StreamEvent) : takenEvents (l.map (·, true)) = l := by
  unfold takenEvents
  rw [List.filter_eq_self.mpr]
  · rw [List.map_map]
    exact List.map_id _
  · intro x hx
    obtain ⟨ev, -, rfl⟩ := List.mem_map.mp hx
    rfl

/-- What the channel of a request has taken, oldest first. -/
def takenOf (e : Engine M S) (id : SequenceId) : List StreamEvent := takenEvents (e.historyOf id)

/-- **A stretch of a run, as the caller of a request hears it.** -/
def Speaks (id : SequenceId) (e e' : Engine M S) : Prop :=
  ∃ new, e'.historyOf id = e.historyOf id ++ new
    ∧ ∀ req', e'.active.lookup id = some req' → ∃ req, e.active.lookup id = some req
      ∧ req'.events.buffer = req.events.buffer ++ takenEvents new

theorem Speaks.taken (h : e.Speaks id e') : e.takenOf id <+: e'.takenOf id := by
  obtain ⟨new, hnew, -⟩ := h
  unfold takenOf
  rw [hnew, takenEvents_append]
  exact List.prefix_append _ _

theorem Speaks.trans (h : e.Speaks id e') (h' : e'.Speaks id e'') : e.Speaks id e'' := by
  obtain ⟨new, hnew, hbuffer⟩ := h
  obtain ⟨new', hnew', hbuffer'⟩ := h'
  refine ⟨new ++ new', by rw [hnew', hnew, List.append_assoc], fun req'' hreq'' => ?_⟩
  obtain ⟨req', hreq', hb'⟩ := hbuffer' req'' hreq''
  obtain ⟨req, hreq, hb⟩ := hbuffer req' hreq'
  refine ⟨req, hreq, ?_⟩
  rw [hb', hb, takenEvents_append, List.append_assoc]

/-- Nothing is said. -/
theorem Speaks.of_silent (ht : e'.sent = e.sent)
    (ha : ∀ req', e'.active.lookup id = some req' → ∃ req, e.active.lookup id = some req
      ∧ req'.events.buffer = req.events.buffer) : e.Speaks id e' := by
  refine ⟨[], ?_, fun req' hreq' => ?_⟩
  · unfold historyOf
    rw [ht, List.append_nil]
  · obtain ⟨req, hreq, hb⟩ := ha req' hreq'
    exact ⟨req, hreq, hb.trans (List.append_nil _).symm⟩

theorem Speaks.of_same (ht : e'.sent = e.sent) (ha : e'.active = e.active) : e.Speaks id e' :=
  .of_silent ht (fun req' hreq' => ⟨req', ha ▸ hreq', rfl⟩)

theorem Speaks.refl (id : SequenceId) (e : Engine M S) : e.Speaks id e := .of_same rfl rfl

/-- A loop. -/
theorem Speaks.foldl {α : Type*} {f : Engine M S → α → Engine M S}
    (hf : ∀ e a, Speaks id e (f e a)) (l : List α) : ∀ e, Speaks id e (l.foldl f e) := by
  induction l with
  | nil => exact .refl id
  | cons a l ih => exact fun e => (hf e a).trans (ih (f e a))

/-- Another record for a request, with the same buffer if it is this one. -/
theorem speaks_setRequest {id' : SequenceId} {req req' : ActiveRequest S}
    (hreq : e.active.lookup id' = some req)
    (h : id' ≠ id ∨ req'.events.buffer = req.events.buffer) :
    e.Speaks id { e with active := e.active.insert id' req' } := by
  refine .of_silent rfl (fun r hr => ?_)
  by_cases hid : id = id'
  · subst hid
    rw [show r = req' from Option.some.inj (hr.symm.trans (AList.lookup_insert _))]
    exact ⟨req, hreq, h.resolve_left (fun hne => hne rfl)⟩
  · exact ⟨r, (AList.lookup_insert_ne hid).symm.trans hr, rfl⟩

/-- A request that is dropped. -/
theorem speaks_erase {id' : SequenceId} {s : Scheduler KvCacheManager} :
    e.Speaks id { e with scheduler := s, active := e.active.erase id' } := by
  refine .of_silent rfl (fun r hr => ?_)
  by_cases hid : id = id'
  · subst hid
    exact absurd (hr.symm.trans (AList.lookup_erase _ _)) (by simp)
  · exact ⟨r, (AList.lookup_erase_ne hid).symm.trans hr, rfl⟩

theorem speaks_sendLast (e : Engine M S) (id' : SequenceId) (ev : ActiveRequest S → StreamEvent) :
    e.Speaks id (e.sendLast id' ev) := by
  unfold sendLast
  split
  · exact .refl id e
  next req hreq =>
  refine ⟨if id' = id then [(ev req, (req.events.trySend (ev req)).2)] else [],
    (historyOf_cons (e := e) rfl id).trans ?_, fun r hr => ?_⟩
  · split
    · rfl
    · exact (List.append_nil _).symm
  · by_cases hid : id = id'
    · subst hid
      exact absurd (hr.symm.trans (AList.lookup_erase _ _)) (by simp)
    · refine ⟨r, (AList.lookup_erase_ne hid).symm.trans hr, ?_⟩
      rw [if_neg (Ne.symm hid)]
      exact (List.append_nil _).symm

/-- **An event for a request that goes on** is at the end of the buffer, if it
was taken. -/
theorem speaks_send {id' : SequenceId} {req req' : ActiveRequest S} {s : Scheduler KvCacheManager}
    (hreq : e.active.lookup id' = some req) (hsame : req'.events = req.events)
    (ev : StreamEvent) :
    e.Speaks id (send { e with scheduler := s } id' req' ev).1 := by
  refine ⟨if id' = id then [(ev, (req'.events.trySend ev).2)] else [],
    (historyOf_cons (e := e) rfl id).trans ?_, fun r hr => ?_⟩
  · split
    · rfl
    · exact (List.append_nil _).symm
  by_cases hid : id = id'
  · subst hid
    obtain rfl := Option.some.inj (hr.symm.trans (AList.lookup_insert _))
    refine ⟨req, hreq, ?_⟩
    rw [if_pos rfl, ← hsame]
    show (req'.events.trySend ev).1.buffer = _
    unfold Channel.trySend
    split
    · rfl
    · exact (List.append_nil _).symm
  · refine ⟨r, (AList.lookup_insert_ne hid).symm.trans hr, ?_⟩
    rw [if_neg (Ne.symm hid)]
    exact (List.append_nil _).symm

/-! ## The tokens among the events -/

/-- The tokens among the events. -/
def tokensIn (events : List StreamEvent) : List TokenId :=
  events.filterMap (fun
    | .token token _ _ => some token
    | _ => none)

@[simp] theorem tokensIn_nil : tokensIn [] = [] := rfl

theorem tokensIn_append (l l' : List StreamEvent) :
    tokensIn (l ++ l') = tokensIn l ++ tokensIn l' := List.filterMap_append

theorem tokensIn_tokenEvents (tokens : List TokenId) :
    tokensIn (tokenEvents tokens) = tokens := by
  unfold tokensIn tokenEvents
  rw [List.filterMap_map]
  show tokens.zipIdx.filterMap (some ∘ Prod.fst) = tokens
  rw [List.filterMap_eq_map, List.zipIdx_map_fst]

/-- The tokens among what was sent with the tokens `tokens`. -/
theorem tokensIn_sent (tokens : List TokenId) (rest : List (StreamEvent × Bool)) :
    tokensIn (((tokenEvents tokens).map (·, true) ++ rest).map Prod.fst)
      = tokens ++ tokensIn (rest.map Prod.fst) := by
  rw [List.map_append, tokensIn_append, List.map_map]
  exact congrArg (· ++ _) ((congrArg _ (List.map_id _)).trans (tokensIn_tokenEvents tokens))

theorem takenEvents_sent (tokens : List TokenId) (rest : List (StreamEvent × Bool)) :
    takenEvents ((tokenEvents tokens).map (·, true) ++ rest)
      = tokenEvents tokens ++ takenEvents rest := by
  rw [takenEvents_append, takenEvents_true]

/-! ## The operations -/

theorem speaks_reap (e : Engine M S) : e.Speaks id e.reap := by
  have hreap : e.Speaks id { e with scheduler := e.scheduler.reapFinished.1 } := .of_same rfl rfl
  exact hreap.trans (Speaks.foldl (fun e (r : Sequence) => speaks_sendLast e r.id _) _ _)

theorem speaks_expire (e : Engine M S) (now : Instant) : e.Speaks id (e.expire now) := by
  have hexpire : e.Speaks id { e with scheduler := (e.scheduler.expireTimeouts now).1 } :=
    .of_same rfl rfl
  exact hexpire.trans (Speaks.foldl (fun e id => speaks_sendLast e id _) _ _)

theorem speaks_cancel (e : Engine M S) (id' : SequenceId) : e.Speaks id (e.cancel id') := by
  unfold cancel
  split
  · next s _ =>
    have hcancel : e.Speaks id { e with scheduler := s } := .of_same rfl rfl
    exact hcancel.trans (speaks_sendLast _ _ _)
  · exact .of_same rfl rfl

theorem speaks_submit (hlt : id.raw < e.nextId) (prompt : List TokenId) (params : SamplingParams)
    (events : Channel) (sampler : S) (now : Instant) :
    e.Speaks id (e.submit prompt params events sampler now).1 := by
  unfold submit
  split
  · exact .refl id e
  rcases e.scheduler.addRequest_cases (.new ⟨e.nextId⟩ prompt params now)
    with ⟨err, hadd⟩ | ⟨hadd, -⟩
  · rw [hadd]
    exact .of_same rfl rfl
  · rw [hadd]
    refine .of_silent rfl (fun r hr => ⟨r, ?_, rfl⟩)
    have hne : id ≠ ⟨e.nextId⟩ := fun hid => absurd (congrArg SequenceId.raw hid) hlt.ne
    exact (AList.lookup_insert_ne hne).symm.trans hr

/-- The channel of a request that is let in. -/
theorem channel_submit {prompt : List TokenId} {params : SamplingParams} {events : Channel}
    {sampler : S} {now : Instant}
    (hok : (e.submit prompt params events sampler now).2 = .ok id) :
    (e.submit prompt params events sampler now).1.active.lookup id
      = some ⟨events, sampler, prompt.length⟩ := by
  obtain ⟨-, rfl, heq⟩ := submit_of_ok hok
  rw [heq]
  exact AList.lookup_insert _

theorem speaks_sampleAndEmit [Sampler S F] (e : Engine M S) (id' : SequenceId) (logits : List F) :
    e.Speaks id (e.sampleAndEmit id' logits).1 := by
  unfold sampleAndEmit
  split
  · exact .refl id e
  split
  · exact .refl id e
  next req hreq =>
  split
  · exact speaks_setRequest hreq (Or.inr rfl)
  next sampler token _ =>
  set req' : ActiveRequest S := { req with sampler := sampler } with hreq'
  have hsame : req'.events = req.events := rfl
  have htoken : ∀ ev : StreamEvent, e.Speaks id (send { e with
      scheduler := (e.scheduler.onToken id' token e.eosIds).1 } id' req' ev).1 :=
    fun ev => speaks_send hreq hsame ev
  simp only []
  split
  · next e' hsend =>
    obtain rfl : (send _ _ _ _).1 = e' := congrArg Prod.fst hsend
    exact (htoken _).trans speaks_erase
  · next e' hsend =>
    obtain rfl : (send _ _ _ _).1 = e' := congrArg Prod.fst hsend
    split
    · exact (htoken _).trans (speaks_sendLast _ _ _)
    · exact htoken _

theorem speaks_emitRows [Sampler S F] (out : ForwardOutput F) (rows : List (SequenceId × ℕ)) :
    ∀ e : Engine M S, e.Speaks id (e.emitRows out rows).1 := by
  induction rows with
  | nil => exact .refl id
  | cons r rows ih =>
    obtain ⟨id', row⟩ := r
    intro e
    unfold emitRows
    split
    · exact ih e
    split
    · exact .refl id e
    next logits _ =>
    have hone : e.Speaks id (e.sampleAndEmit id' logits).1 := speaks_sampleAndEmit e id' logits
    split
    · next e' he' =>
      rw [he'] at hone
      exact hone.trans (ih e')
    · next e' err he' =>
      rw [he'] at hone
      exact hone

variable [LanguageModel M F] [Sampler S F]

theorem speaks_step (e : Engine M S) (now : Instant) : e.Speaks id (e.step now).1 := by
  have hschedule : (e.expire now).Speaks id (e.scheduled now) := .of_same rfl rfl
  have hmid : e.Speaks id (e.scheduled now) := (e.speaks_expire now).trans hschedule
  have hfwd : ∀ b, e.Speaks id ((e.scheduled now).runForward b).1 :=
    fun _ => hmid.trans (.of_same rfl rfl)
  rcases e.step_stages now with ⟨-, hstep⟩ | ⟨err, -, hstep⟩
    | ⟨b, -, ⟨err, -, hstep⟩ | ⟨out, -, hlast⟩⟩
  · rw [hstep]
    exact hmid.trans (speaks_reap _)
  · rw [hstep]
    exact hmid
  · rw [hstep]
    exact hfwd b
  have hrows := (hfwd b).trans (speaks_emitRows out out.sequenceIds.zipIdx _)
  rcases hlast with ⟨err, hstep⟩ | hstep
  · rw [hstep]
    exact hrows
  · rw [hstep]
    have hpublish : ∀ e' : Engine M S, e'.Speaks id (e'.publish (e.output now).scheduled) :=
      fun _ => .of_same rfl rfl
    exact (hrows.trans (hpublish _)).trans (speaks_reap _)

/-- **What is said to a caller comes at the end**, whatever the engine does. -/
theorem speaks_run (hlt : id.raw < e.nextId) {op : EngineOp S} (hop : op ≠ .receive id) :
    e.Speaks id (op.run e) := by
  cases op with
  | submit prompt params events sampler now =>
    exact speaks_submit hlt prompt params events sampler now
  | cancel id' => exact speaks_cancel e id'
  | step now => exact speaks_step e now
  | receive id' =>
    have hne : id' ≠ id := by
      rintro rfl
      exact hop rfl
    show e.Speaks id (e.receive id')
    unfold receive
    split
    · exact .refl id e
    · next req hreq => exact speaks_setRequest hreq (Or.inl hne)
  | hangUp id' =>
    show e.Speaks id (e.hangUp id')
    unfold hangUp
    split
    · exact .refl id e
    · next req hreq => exact speaks_setRequest hreq (Or.inr rfl)

/-! ## The end of a life -/

/-- What is said last: a terminal event, or one that was not taken. -/
def IsLast (x : StreamEvent × Bool) : Prop :=
  x.2 = false ∨ ∃ reason p c, x.1 = .done reason p c

theorem not_isLast_of_mem {tokens : List TokenId} {x : StreamEvent × Bool}
    (hx : x ∈ (tokenEvents tokens).map (·, true)) : ¬ IsLast x := by
  obtain ⟨ev, hev, rfl⟩ := List.mem_map.mp hx
  rintro (hfalse | ⟨reason, p, c, rfl⟩)
  · exact absurd hfalse (by simp)
  · exact done_notMem_tokenEvents hev

/-- **Nothing follows what is said last.** -/
theorem eq_nil_of_isLast {life : Life} {promptLen : ℕ} {l r : List (StreamEvent × Bool)}
    {x : StreamEvent × Bool} (hsent : life.sent promptLen = l ++ x :: r) (hx : IsLast x) :
    r = [] := by
  have hmem : x ∈ l ++ x :: r := List.mem_append_right _ List.mem_cons_self
  have hone : ∀ {tokens : List TokenId} {y : StreamEvent × Bool},
      l ++ x :: r = (tokenEvents tokens).map (·, true) ++ [y] → r = [] := by
    intro tokens y heq
    rcases List.eq_nil_or_concat r with hr | ⟨r', z, rfl⟩
    · exact hr
    · have hsplit : (l ++ x :: r') ++ [z] = (tokenEvents tokens).map (·, true) ++ [y] := by
        rw [← heq, List.append_assoc, List.concat_eq_append]
        rfl
      have hinit : l ++ x :: r' = (tokenEvents tokens).map (·, true) :=
        (List.append_inj' hsplit rfl).1
      have hx' : x ∈ (tokenEvents tokens).map (·, true) := by
        rw [← hinit]
        exact List.mem_append_right _ List.mem_cons_self
      exact absurd hx (not_isLast_of_mem hx')
  cases life with
  | going tokens =>
    have heq : l ++ x :: r = (tokenEvents tokens).map (·, true) := hsent.symm
    rw [heq] at hmem
    exact absurd hx (not_isLast_of_mem hmem)
  | ended tokens reason completion told => exact hone hsent.symm
  | dropped tokens token => exact hone hsent.symm

/-- A life that is over has its last word. -/
theorem exists_isLast {life : Life} (h : ¬ life.IsGoing) (promptLen : ℕ) :
    ∃ l x, life.sent promptLen = l ++ [x] ∧ IsLast x := by
  cases life with
  | going tokens => exact absurd trivial h
  | ended tokens reason completion told => exact ⟨_, _, rfl, Or.inr ⟨_, _, _, rfl⟩⟩
  | dropped tokens token => exact ⟨_, _, rfl, Or.inl rfl⟩

variable {params : SamplingParams} {promptLen : ℕ} {eosIds : List TokenId} {life : Life}

theorem Lives.not_going (h : e.Lives id params promptLen eosIds False life)
    (hnone : e.active.lookup id = none) : ¬ life.IsGoing := by
  intro hgo
  cases life with
  | going tokens =>
    obtain ⟨⟨req, hreq, -⟩, -⟩ := h.going tokens rfl
    rw [hnone] at hreq
    exact absurd hreq (by simp)
  | ended _ _ _ _ => exact hgo
  | dropped _ _ => exact hgo

/-- **When a life is over, it stays over**, and nothing more is said. -/
theorem Lives.over_run (h : e.Lives id params promptLen eosIds False life) (ht : e.Tracks [] [])
    (hover : ¬ life.IsGoing) {op : EngineOp S} (hop : op ≠ .receive id) :
    (op.run e).historyOf id = e.historyOf id ∧ (op.run e).active.lookup id = none := by
  obtain ⟨life', hlife'⟩ := h.run ht op
  obtain ⟨new, hnew, -⟩ : e.Speaks id (op.run e) := speaks_run h.idLt hop
  obtain ⟨l, x, hx, hlast⟩ := exists_isLast hover promptLen
  have hsent : life'.sent promptLen = l ++ x :: new := by
    rw [← hlife'.history, hnew, h.history, hx, List.append_assoc]
    rfl
  obtain rfl := eq_nil_of_isLast hsent hlast
  refine ⟨hnew.trans (List.append_nil _), hlife'.closed (fun hgo => ?_)⟩
  cases life' with
  | going tokens =>
    have hx' : x ∈ (Life.going tokens).sent promptLen := by
      rw [hsent]
      exact List.mem_append_right _ List.mem_cons_self
    exact absurd hlast (not_isLast_of_mem hx')
  | ended _ _ _ _ => exact hgo
  | dropped _ _ => exact hgo

/-- At the caller's end nothing is said. -/
theorem sent_receive (e : Engine M S) (id : SequenceId) : (e.receive id).sent = e.sent := by
  unfold receive
  split <;> rfl

theorem sent_hangUp (e : Engine M S) (id : SequenceId) : (e.hangUp id).sent = e.sent := by
  unfold hangUp
  split <;> rfl

/-- A request that is active stays so, with one event less in its buffer. -/
theorem lookup_receive (e : Engine M S) (id : SequenceId) :
    (e.receive id).active.lookup id = (e.active.lookup id).map (fun req =>
      { req with events := { req.events with buffer := req.events.buffer.tail } }) := by
  unfold receive
  split
  · next hnone =>
    rw [hnone]
    rfl
  · next req hreq =>
    rw [hreq]
    exact AList.lookup_insert _

theorem takenOf_congr (h : e'.sent = e.sent) (id : SequenceId) :
    e'.takenOf id = e.takenOf id := by
  unfold takenOf historyOf
  rw [h]

/-! ## Everybody who is active -/

/-- A request that is active after a submission, and was not before, is the one
that was let in. -/
theorem submit_ok_of_lookup {prompt : List TokenId} {params : SamplingParams} {events : Channel}
    {sampler : S} {now : Instant} (hnone : e.active.lookup id = none)
    (hsome : ((e.submit prompt params events sampler now).1.active.lookup id).isSome = true) :
    (e.submit prompt params events sampler now).2 = .ok id := by
  unfold submit at hsome ⊢
  split at hsome
  · rw [hnone] at hsome
    exact absurd hsome (by simp)
  rcases e.scheduler.addRequest_cases (.new ⟨e.nextId⟩ prompt params now)
    with ⟨err, hadd⟩ | ⟨hadd, -⟩
  · rw [hadd] at hsome
    have hsome' : (e.active.lookup id).isSome = true := hsome
    rw [hnone] at hsome'
    exact absurd hsome' (by simp)
  · rw [hadd] at hsome ⊢
    by_cases hid : id = ⟨e.nextId⟩
    · rw [hid]
      rfl
    · have hsome' : ((e.active.insert ⟨e.nextId⟩ _).lookup id).isSome = true := hsome
      rw [AList.lookup_insert_ne hid, hnone] at hsome'
      exact absurd hsome' (by simp)

/-- Whatever else the engine does makes nobody active. -/
theorem isSome_of_run {op : EngineOp S}
    (hop : ∀ prompt params events sampler now, op ≠ .submit prompt params events sampler now)
    (hsome : ((op.run e).active.lookup id).isSome = true) :
    (e.active.lookup id).isSome = true := by
  have hspeaks : ∀ {e' : Engine M S}, e.Speaks id e' → (e'.active.lookup id).isSome = true →
      (e.active.lookup id).isSome = true := by
    rintro e' ⟨new, -, hback⟩ hsome
    obtain ⟨req', hreq'⟩ := Option.isSome_iff_exists.mp hsome
    obtain ⟨req, hreq, -⟩ := hback req' hreq'
    rw [hreq]
    rfl
  cases op with
  | submit prompt params events sampler now => exact absurd rfl (hop _ _ _ _ _)
  | cancel id' => exact hspeaks (speaks_cancel e id') hsome
  | step now => exact hspeaks (speaks_step e now) hsome
  | receive id' =>
    by_cases hid : id' = id
    · have hlookup := e.lookup_receive id
      rw [hid] at hsome
      have hsome' : ((e.receive id).active.lookup id).isSome = true := hsome
      rw [hlookup, Option.isSome_map] at hsome'
      exact hsome'
    · refine hspeaks ?_ hsome
      show e.Speaks id (e.receive id')
      unfold receive
      split
      · exact .refl id e
      · next req hreq => exact speaks_setRequest hreq (Or.inl hid)
  | hangUp id' =>
    refine hspeaks ?_ hsome
    show e.Speaks id (e.hangUp id')
    unfold hangUp
    split
    · exact .refl id e
    · next req hreq => exact speaks_setRequest hreq (Or.inr rfl)

/-- **In every reachable state, a request that is active has a life.** -/
theorem Reachable.lives {config : SchedulerConfig} {n bs firstId : ℕ} {flag : Bool}
    {model : M} (h : e.Reachable config n bs flag model firstId)
    (hsome : (e.active.lookup id).isSome = true) :
    ∃ params promptLen eosIds life, e.Lives id params promptLen eosIds False life := by
  induction h with
  | start => exact absurd hsome (by simp [Engine.new])
  | @step e op h ih =>
    rcases hbefore : (e.active.lookup id).isSome with - | -
    · -- it was let in just now
      by_cases hop : ∀ prompt params events sampler now,
          op ≠ .submit prompt params events sampler now
      · exact absurd (hbefore.symm.trans (isSome_of_run hop hsome)) (by simp)
      · push Not at hop
        obtain ⟨prompt, params, events, sampler, now, rfl⟩ := hop
        have hok := submit_ok_of_lookup
          (Option.not_isSome_iff_eq_none.mp (by simp [hbefore])) hsome
        exact ⟨params, _, _, _, lives_submit h.tracks hok⟩
    · obtain ⟨params, promptLen, eosIds, life, hlife⟩ := ih hbefore
      obtain ⟨life', hlife'⟩ := hlife.run h.tracks op
      exact ⟨params, promptLen, eosIds, life', hlife'⟩

/-- **Who is active has an unfinished sequence.** -/
theorem Reachable.unfinished_of_active {config : SchedulerConfig} {n bs firstId : ℕ} {flag : Bool}
    {model : M} (h : e.Reachable config n bs flag model firstId)
    (hsome : (e.active.lookup id).isSome = true) :
    ∃ q ∈ e.scheduler.queue, q.id = id ∧ q.state ≠ .finished := by
  obtain ⟨params, promptLen, eosIds, life, hlife⟩ := h.lives hsome
  obtain ⟨req, hreq⟩ := Option.isSome_iff_exists.mp hsome
  obtain ⟨q, hq, hid, -⟩ := (h.tracks.known id req hreq).resolve_left
    (fun hp => absurd hp.1 List.not_mem_nil)
  refine ⟨q, hq, hid, fun hfin => ?_⟩
  cases life with
  | going tokens => exact (((hlife.going tokens rfl).sequence q hq hid).2.2.2 hfin)
  | ended _ _ _ _ =>
    rw [hlife.closed (fun hgo => hgo)] at hsome
    exact absurd hsome (by simp)
  | dropped _ _ =>
    rw [hlife.closed (fun hgo => hgo)] at hsome
    exact absurd hsome (by simp)

end Engine
