import OrionServe.EngineBatch
import OrionServe.SchedulerQueues

/-!
# Requests and their streams

Three owners know of a request: a queue of the scheduler, the block tables
and the map of active requests with its event channel. They are updated by
separate calls on many exits – a normal end, a full channel, a cancellation,
a timeout in either queue, an error in the middle of the emit loop.

`Tracks` says that they agree: an active request has its sequence in a
queue, and the tokens sent for it are those of the sequence, in order, with
their indices; an unfinished sequence has its request; and a request that was
accepted and is no longer active was sent one terminal event, as the last.
Between a call of the scheduler and the terminal events it owes, the ids
concerned are *pending*.
-/

namespace Engine

variable {M S F : Type*} {e e' : Engine M S} {accepted pending : List SequenceId}
  {id : SequenceId}

/-! ## What was sent -/

/-- The events sent for a request, oldest first. -/
def eventsOf (e : Engine M S) (id : SequenceId) : List StreamEvent :=
  ((e.sent.filter (fun x => x.id = id)).map SentEvent.event).reverse

/-- The channel of a request took every event sent for it: it was never full
and never closed. -/
def AllTaken (e : Engine M S) (id : SequenceId) : Prop :=
  ∀ x ∈ e.sent, x.id = id → x.taken = true

instance (e : Engine M S) (id : SequenceId) : Decidable (e.AllTaken id) :=
  inferInstanceAs (Decidable (∀ x ∈ e.sent, x.id = id → x.taken = true))

/-- The events of a list of tokens, with their indices. -/
def tokenEvents (tokens : List TokenId) : List StreamEvent :=
  tokens.zipIdx.map (fun t => .token t.1 "" t.2)

theorem tokenEvents_append (tokens : List TokenId) (t : TokenId) :
    tokenEvents (tokens ++ [t]) = tokenEvents tokens ++ [.token t "" tokens.length] := by
  unfold tokenEvents
  rw [List.zipIdx_append, List.map_append]
  simp

/-- One more event. -/
theorem eventsOf_cons {x : SentEvent} (h : e'.sent = x :: e.sent) (q : SequenceId) :
    e'.eventsOf q = if x.id = q then e.eventsOf q ++ [x.event] else e.eventsOf q := by
  unfold eventsOf
  rw [h, List.filter_cons]
  by_cases hx : x.id = q
  · rw [if_pos (decide_eq_true hx), if_pos hx, List.map_cons, List.reverse_cons]
  · rw [if_neg (by simpa using hx), if_neg hx]

theorem allTaken_cons {x : SentEvent} (h : e'.sent = x :: e.sent) (q : SequenceId) :
    e'.AllTaken q ↔ (x.id = q → x.taken = true) ∧ e.AllTaken q := by
  unfold AllTaken
  rw [h, List.forall_mem_cons]

/-- **The owners of a request agree.** -/
structure Tracks (accepted pending : List SequenceId) (e : Engine M S) : Prop where
  nodup : e.scheduler.ids.Nodup
  /-- An active request has its sequence, and was sent its tokens; while it is
  pending it has only the latter. -/
  known : ∀ id req, e.active.lookup id = some req →
    (id ∈ pending ∧ ∃ tokens, e.AllTaken id → e.eventsOf id = tokenEvents tokens)
    ∨ ∃ q ∈ e.scheduler.queue, q.id = id ∧ q.prompt.length = req.promptLen
      ∧ (e.AllTaken id → e.eventsOf id = tokenEvents q.output)
  /-- An unfinished sequence has its request. -/
  requested : ∀ q ∈ e.scheduler.queue, q.state ≠ .finished →
    (e.active.lookup q.id).isSome = true
  /-- An accepted request that is not active was sent its terminal event, as
  the last. -/
  closed : ∀ id ∈ accepted, e.active.lookup id = none → e.AllTaken id →
    ∃ tokens reason p c, e.eventsOf id = tokenEvents tokens ++ [.done reason p c]
  idsLt : ∀ id ∈ e.scheduler.ids, id.raw < e.nextId
  activeLt : ∀ id req, e.active.lookup id = some req → id.raw < e.nextId
  sentLt : ∀ x ∈ e.sent, x.id.raw < e.nextId

namespace Tracks

/-- What the owners hold is all that counts. -/
theorem congr (h : e.Tracks accepted pending) (hs : e'.scheduler = e.scheduler)
    (ha : e'.active = e.active) (ht : e'.sent = e.sent) (hn : e'.nextId = e.nextId) :
    e'.Tracks accepted pending := by
  have hev : ∀ q, e'.eventsOf q = e.eventsOf q := fun q => by
    unfold eventsOf
    rw [ht]
  have htaken : ∀ q, e'.AllTaken q ↔ e.AllTaken q := fun q => by
    unfold AllTaken
    rw [ht]
  refine ⟨hs ▸ h.nodup, fun id req hreq => ?_, fun q hq hne => ?_, fun id hacc hnone hall => ?_,
    fun id hid => ?_, fun id req hreq => ?_, fun x hx => ?_⟩
  · rw [hev, htaken, hs]
    exact h.known id req (ha ▸ hreq)
  · rw [ha]
    exact h.requested q (hs ▸ hq) hne
  · rw [hev]
    exact h.closed id hacc (ha ▸ hnone) ((htaken id).mp hall)
  · rw [hn]
    exact h.idsLt id (hs ▸ hid)
  · rw [hn]
    exact h.activeLt id req (ha ▸ hreq)
  · rw [hn]
    exact h.sentLt x (ht ▸ hx)

/-- **A call of the scheduler**: whom it takes out is pending until the
terminal event is sent. -/
theorem thins (h : e.Tracks accepted pending) {s : Scheduler KvCacheManager}
    {gone : List SequenceId} (ht : e.scheduler.Thins s gone) :
    Tracks accepted (gone ++ pending) { e with scheduler := s } where
  nodup := ht.nodup
  known id req hreq := by
    rcases h.known id req hreq with ⟨hmem, hevents⟩ | ⟨q, hq, rfl, hlen, hevents⟩
    · exact Or.inl ⟨List.mem_append_right _ hmem, hevents⟩
    rcases ht.kept q hq with hgone | ⟨q', hq', hid, hprompt, houtput⟩
    · exact Or.inl ⟨List.mem_append_left _ hgone, q.output, hevents⟩
    · refine Or.inr ⟨q', hq', hid, ?_, ?_⟩
      · rw [hprompt]
        exact hlen
      · rw [houtput]
        exact hevents
  requested q' hq' hne := by
    obtain ⟨q, hq, hid, hqne⟩ := ht.unfinished q' hq' hne
    show (e.active.lookup q'.id).isSome = true
    rw [← hid]
    exact h.requested q hq hqne
  closed := h.closed
  idsLt id hid := h.idsLt id (ht.sub id hid)
  activeLt := h.activeLt
  sentLt := h.sentLt

/-- **The terminal event** of a request whose sequence is gone or finished. -/
theorem sendLast (h : e.Tracks accepted pending) {rest : List SequenceId}
    (hrest : ∀ x ∈ pending, x = id ∨ x ∈ rest)
    (hfin : ∀ q ∈ e.scheduler.queue, q.id = id → q.state = .finished)
    {ev : ActiveRequest S → StreamEvent}
    (hev : ∀ req, ∃ reason p c, ev req = .done reason p c) :
    (e.sendLast id ev).Tracks accepted rest := by
  unfold Engine.sendLast
  split
  · next hnone =>
    refine ⟨h.nodup, fun q req hreq => ?_, h.requested, h.closed, h.idsLt, h.activeLt, h.sentLt⟩
    refine (h.known q req hreq).imp_left (fun hp => ⟨(hrest q hp.1).resolve_left ?_, hp.2⟩)
    rintro rfl
    rw [hnone] at hreq
    exact absurd hreq (by simp)
  next req hreq =>
  set e' : Engine M S := { e with
    active := e.active.erase id
    sent := ⟨id, ev req, (req.events.trySend (ev req)).2⟩ :: e.sent } with he'
  have hcons : e'.sent = ⟨id, ev req, (req.events.trySend (ev req)).2⟩ :: e.sent := rfl
  -- nothing changes for the others
  have hother : ∀ q, q ≠ id → e'.eventsOf q = e.eventsOf q ∧ (e'.AllTaken q ↔ e.AllTaken q)
      ∧ e'.active.lookup q = e.active.lookup q := fun q hq =>
    ⟨(eventsOf_cons hcons q).trans (if_neg (Ne.symm hq)),
      (allTaken_cons hcons q).trans
        ⟨fun hall => hall.2, fun hall => ⟨fun heq => absurd heq.symm hq, hall⟩⟩,
      AList.lookup_erase_ne hq⟩
  have hgone : e'.active.lookup id = none := AList.lookup_erase _ _
  refine ⟨h.nodup, fun q r hr => ?_, fun q hq hne => ?_, fun q hacc hnone hall => ?_, h.idsLt,
    fun q r hr => ?_, fun x hx => ?_⟩
  · have hq : q ≠ id := by
      rintro rfl
      rw [hgone] at hr
      exact absurd hr (by simp)
    obtain ⟨hevents, htaken, hlookup⟩ := hother q hq
    rw [hlookup] at hr
    rw [hevents, htaken]
    exact (h.known q r hr).imp_left (fun hp => ⟨(hrest q hp.1).resolve_left hq, hp.2⟩)
  · have hq' : q.id ≠ id := fun hid => hne (hfin q hq hid)
    rw [(hother q.id hq').2.2]
    exact h.requested q hq hne
  · by_cases hq : q = id
    · subst hq
      obtain ⟨reason, p, c, hdone⟩ := hev req
      have hall' := ((allTaken_cons hcons q).mp hall).2
      have htokens : ∃ tokens, e.eventsOf q = tokenEvents tokens := by
        rcases h.known q req hreq with ⟨-, tokens, hevents⟩ | ⟨x, -, -, -, hevents⟩
        · exact ⟨tokens, hevents hall'⟩
        · exact ⟨x.output, hevents hall'⟩
      obtain ⟨tokens, htokens⟩ := htokens
      refine ⟨tokens, reason, p, c, ?_⟩
      rw [eventsOf_cons hcons q, if_pos rfl, htokens, hdone]
    · obtain ⟨hevents, htaken, hlookup⟩ := hother q hq
      rw [hevents]
      exact h.closed q hacc (hlookup ▸ hnone) (htaken.mp hall)
  · have hq : q ≠ id := by
      rintro rfl
      rw [hgone] at hr
      exact absurd hr (by simp)
    rw [(hother q hq).2.2] at hr
    exact h.activeLt q r hr
  · rcases List.mem_cons.mp hx with rfl | hx
    · exact h.activeLt id req hreq
    · exact h.sentLt x hx

/-- The terminal events a call owes, one after the other. -/
theorem sendAll {α : Type*} (f : α → SequenceId)
    (ev : Engine M S → α → ActiveRequest S → StreamEvent)
    (hev : ∀ e a req, ∃ reason p c, ev e a req = .done reason p c) (l : List α) :
    ∀ {e : Engine M S}, e.Tracks accepted (l.map f ++ pending) →
      (∀ a ∈ l, ∀ q ∈ e.scheduler.queue, q.id = f a → q.state = .finished) →
      (l.foldl (fun e a => e.sendLast (f a) (ev e a)) e).Tracks accepted pending := by
  induction l with
  | nil => exact fun h _ => h
  | cons a l ih =>
    intro e h hfin
    have hone : (e.sendLast (f a) (ev e a)).Tracks accepted (l.map f ++ pending) :=
      h.sendLast (fun x hx => List.mem_cons.mp hx) (hfin a List.mem_cons_self) (hev e a)
    have hsame : (e.sendLast (f a) (ev e a)).scheduler = e.scheduler := by
      unfold Engine.sendLast
      split <;> rfl
    refine ih hone (fun b hb q hq => hfin b (List.mem_cons_of_mem _ hb) q ?_)
    rw [← hsame]
    exact hq

/-- Another request record for the same prompt. -/
theorem setRequest (h : e.Tracks accepted pending) {req req' : ActiveRequest S}
    (hreq : e.active.lookup id = some req) (hlen : req'.promptLen = req.promptLen) :
    Tracks accepted pending { e with active := e.active.insert id req' } := by
  have hcases : ∀ q r, (e.active.insert id req').lookup q = some r →
      ∃ r₀, e.active.lookup q = some r₀ ∧ r₀.promptLen = r.promptLen := by
    intro q r hr
    by_cases hq : q = id
    · subst hq
      rw [AList.lookup_insert] at hr
      obtain rfl := Option.some.inj hr
      exact ⟨req, hreq, hlen.symm⟩
    · rw [AList.lookup_insert_ne hq] at hr
      exact ⟨r, hr, rfl⟩
  have hsome : ∀ q, (e.active.lookup q).isSome = true →
      ((e.active.insert id req').lookup q).isSome = true := by
    intro q hq
    by_cases hid : q = id
    · rw [hid, AList.lookup_insert]
      rfl
    · rw [AList.lookup_insert_ne hid]
      exact hq
  refine ⟨h.nodup, fun q r hr => ?_, fun q hq hne => hsome _ (h.requested q hq hne),
    fun q hacc hnone hall => ?_, h.idsLt, fun q r hr => ?_, h.sentLt⟩
  · obtain ⟨r₀, hr₀, hlen₀⟩ := hcases q r hr
    rw [← hlen₀]
    exact h.known q r₀ hr₀
  · refine h.closed q hacc ?_ hall
    rcases hq : e.active.lookup q with - | r
    · rfl
    · have hsome' := hsome q (by rw [hq]; rfl)
      rw [show (e.active.insert id req').lookup q = none from hnone] at hsome'
      exact absurd hsome' (by simp)
  · obtain ⟨r₀, hr₀, -⟩ := hcases q r hr
    exact h.activeLt q r₀ hr₀

/-- **A caller that is gone**: its request is dropped, with an event lost. -/
theorem dropSilently (h : e.Tracks accepted [id]) (hlost : ¬ e.AllTaken id)
    (hfin : ∀ q ∈ e.scheduler.queue, q.id = id → q.state = .finished) :
    Tracks accepted [] { e with active := e.active.erase id } := by
  have hne : ∀ q r, (e.active.erase id).lookup q = some r →
      q ≠ id ∧ e.active.lookup q = some r := by
    intro q r hr
    have hq : q ≠ id := by
      rintro rfl
      rw [AList.lookup_erase] at hr
      exact absurd hr (by simp)
    rw [AList.lookup_erase_ne hq] at hr
    exact ⟨hq, hr⟩
  refine ⟨h.nodup, fun q r hr => ?_, fun q hq hqne => ?_, fun q hacc hnone hall => ?_, h.idsLt,
    fun q r hr => h.activeLt q r (hne q r hr).2, h.sentLt⟩
  · obtain ⟨hq, hr⟩ := hne q r hr
    exact (h.known q r hr).imp_left (fun hp => absurd (List.mem_singleton.mp hp.1) hq)
  · show ((e.active.erase id).lookup q.id).isSome = true
    rw [AList.lookup_erase_ne (fun hid => hqne (hfin q hq hid))]
    exact h.requested q hq hqne
  · have hq : q ≠ id := fun hid => hlost (hid ▸ hall)
    have hnone' : (e.active.erase id).lookup q = none := hnone
    rw [AList.lookup_erase_ne hq] at hnone'
    exact h.closed q hacc hnone' hall

end Tracks

/-! ## Tokens -/

/-- What a token does to the output. -/
theorem tokenReceived_output (token : TokenId) (eosIds : List TokenId) (q : Sequence) :
    (Scheduler.tokenReceived token eosIds q).output = q.output ++ [token] := by
  simp only [Scheduler.tokenReceived]
  split
  · exact Sequence.finish_output _ _
  · rfl

/-- A token with which a sequence ends leaves it finished. -/
theorem tokenReceived_state {token : TokenId} {eosIds : List TokenId} {q : Sequence}
    (h : q.state = .finished
      ∨ (Scheduler.stopReason (q.pushToken token) token eosIds q.params).isSome = true) :
    (Scheduler.tokenReceived token eosIds q).state = .finished := by
  simp only [Scheduler.tokenReceived]
  split
  · exact Sequence.finish_state _ _
  · next hnone =>
    rcases h with h | h
    · exact h
    · have hnone' : Scheduler.stopReason (q.pushToken token) token eosIds q.params = none := hnone
      rw [hnone'] at h
      exact absurd h (by simp)

/-- The scheduler after a token for a running sequence. -/
theorem onToken_running {s : Scheduler KvCacheManager} {seq : Sequence} {token : TokenId}
    {eosIds : List TokenId} (hseq : s.runningSequence id = some seq) :
    s.onToken id token eosIds
      = ({ s with running :=
            s.running.updateKey Sequence.id id (Scheduler.tokenReceived token eosIds) },
        Scheduler.stopReason (seq.pushToken token) token eosIds seq.params) := by
  unfold Scheduler.onToken
  rw [hseq]

/-- **A token**: the scheduler records it, and the event carries its place in
the output. -/
theorem Tracks.sendToken (h : e.Tracks accepted []) {seq : Sequence}
    {req req' : ActiveRequest S} (hseq : e.scheduler.runningSequence id = some seq)
    (hreq : e.active.lookup id = some req) (hlen : req'.promptLen = req.promptLen)
    (token : TokenId) :
    (send { e with scheduler := (e.scheduler.onToken id token e.eosIds).1 } id req'
      (.token token "" (seq.allTokens.length - req'.promptLen))).1.Tracks accepted [] := by
  rw [onToken_running hseq]
  set received := Scheduler.tokenReceived token e.eosIds with hreceived
  set ev : StreamEvent := .token token "" (seq.allTokens.length - req'.promptLen) with hev
  set e' := (send { e with scheduler := { e.scheduler with
    running := e.scheduler.running.updateKey Sequence.id id received } } id req' ev).1 with he'
  have hmem : seq ∈ e.scheduler.queue := List.mem_append_left _ (List.mem_of_findKey hseq)
  have hid : seq.id = id := List.key_of_findKey hseq
  have hrid : ∀ q, (received q).id = q.id := Scheduler.tokenReceived_id token e.eosIds
  have hprompt : ∀ q, (received q).prompt = q.prompt := fun q =>
    (q.ends_tokenReceived token e.eosIds).prompt
  have hids : e'.scheduler.ids = e.scheduler.ids := by
    show ((e.scheduler.running.updateKey Sequence.id id received) ++ _).map _ = _
    rw [List.map_append, List.map_updateKey hrid, ← List.map_append]
    rfl
  have hcons : e'.sent = ⟨id, ev, (req'.events.trySend ev).2⟩ :: e.sent := rfl
  -- what is in the queues afterwards
  have hself : received seq ∈ e'.scheduler.queue :=
    List.mem_append_left _ (List.mem_updateKey_self hseq)
  have hother : ∀ q ∈ e.scheduler.queue, q.id ≠ id → q ∈ e'.scheduler.queue := by
    intro q hq hne
    rcases List.mem_append.mp hq with hq | hq
    · exact List.mem_append_left _ (List.mem_updateKey_of_ne hq hne)
    · exact List.mem_append_right _ hq
  have hback : ∀ q ∈ e'.scheduler.queue, q.state ≠ .finished →
      ∃ a ∈ e.scheduler.queue, a.id = q.id ∧ a.state ≠ .finished := by
    intro q hq hne
    rcases List.mem_append.mp hq with hq | hq
    · rcases List.of_mem_updateKey hq with hq | ⟨a, ha, rfl⟩
      · exact ⟨q, List.mem_append_left _ hq, rfl, hne⟩
      · exact ⟨a, List.mem_append_left _ ha, (hrid a).symm,
          fun hf => hne (tokenReceived_state (Or.inl hf))⟩
    · exact ⟨q, List.mem_append_right _ hq, rfl, hne⟩
  have hlookup : ∀ q, q ≠ id → e'.active.lookup q = e.active.lookup q := fun q hq =>
    AList.lookup_insert_ne hq
  have hnew : e'.active.lookup id = some { req' with events := (req'.events.trySend ev).1 } :=
    AList.lookup_insert _
  have hold : ∀ q, q ≠ id → e'.eventsOf q = e.eventsOf q ∧ (e'.AllTaken q ↔ e.AllTaken q) :=
    fun q hq => ⟨(eventsOf_cons hcons q).trans (if_neg (Ne.symm hq)),
      (allTaken_cons hcons q).trans
        ⟨fun hall => hall.2, fun hall => ⟨fun heq => absurd heq.symm hq, hall⟩⟩⟩
  refine ⟨hids ▸ h.nodup, fun q r hr => Or.inr ?_, fun q hq hne => ?_,
    fun q hacc hnone hall => ?_, fun q hq => h.idsLt q (hids ▸ hq), fun q r hr => ?_,
    fun x hx => ?_⟩
  · by_cases hq : q = id
    · subst hq
      rw [hnew] at hr
      obtain rfl := Option.some.inj hr
      -- the sequence of the request is the one that was sampled for
      obtain ⟨x, hx, hxid, hxlen, hevents⟩ := (h.known q req hreq).resolve_left
        (fun hp => absurd hp.1 List.not_mem_nil)
      obtain rfl := Scheduler.eq_of_id_eq h.nodup hx hmem (hxid.trans hid.symm)
      refine ⟨received x, hself, (hrid x).trans hid, ?_, fun hall => ?_⟩
      · rw [hprompt]
        exact hxlen.trans hlen.symm
      · have hindex : x.allTokens.length - req'.promptLen = x.output.length := by
          unfold Sequence.allTokens
          rw [List.length_append, hlen, ← hxlen, Nat.add_sub_cancel_left]
        rw [eventsOf_cons hcons q, if_pos rfl, hevents ((allTaken_cons hcons q).mp hall).2,
          tokenReceived_output, tokenEvents_append, hev, hindex]
    · rw [hlookup q hq] at hr
      obtain ⟨x, hx, rfl, hxlen, hevents⟩ := (h.known q r hr).resolve_left
        (fun hp => absurd hp.1 List.not_mem_nil)
      rw [(hold x.id hq).1, (hold x.id hq).2]
      exact ⟨x, hother x hx hq, rfl, hxlen, hevents⟩
  · by_cases hq' : q.id = id
    · rw [hq', hnew]
      rfl
    · obtain ⟨a, ha, haid, hane⟩ := hback q hq hne
      rw [hlookup q.id hq', ← haid]
      exact h.requested a ha hane
  · have hq : q ≠ id := by
      rintro rfl
      rw [hnew] at hnone
      exact absurd hnone (by simp)
    rw [(hold q hq).1]
    exact h.closed q hacc ((hlookup q hq).symm.trans hnone) ((hold q hq).2.mp hall)
  · by_cases hq : q = id
    · exact hq ▸ h.activeLt id req hreq
    · exact h.activeLt q r ((hlookup q hq).symm.trans hr)
  · rcases List.mem_cons.mp hx with rfl | hx
    · exact h.activeLt id req hreq
    · exact h.sentLt x hx

/-! ## The operations -/

namespace Tracks

theorem cancelSilently (h : e.Tracks accepted []) (hlost : ¬ e.AllTaken id) :
    (e.cancelSilently id).Tracks accepted [] := by
  have ht := Scheduler.thins_cancel h.nodup id
  exact (h.thins ht).dropSilently hlost
    (fun q hq hid => ht.absent q hq (List.mem_singleton.mpr hid))

theorem cancel (h : e.Tracks accepted []) (id : SequenceId) :
    (e.cancel id).Tracks accepted [] := by
  have ht := Scheduler.thins_cancel h.nodup id
  have hthin := h.thins ht
  unfold Engine.cancel
  split
  · next s hs =>
    rw [hs] at ht hthin
    exact hthin.sendLast (fun x hx => Or.inl (List.mem_singleton.mp hx))
      (fun q hq hid => ht.absent q hq (List.mem_singleton.mpr hid)) (fun req => ⟨_, _, _, rfl⟩)
  · next s hs =>
    -- it was nowhere to be found, so nothing changed
    have hsame : s = e.scheduler := by
      have hfst : (e.scheduler.cancel id).1 = s := congrArg Prod.fst hs
      have hsnd : (e.scheduler.cancel id).2 = false := congrArg Prod.snd hs
      unfold Scheduler.cancel at hfst hsnd
      split at hsnd
      · exact absurd hsnd (by simp)
      split at hsnd
      · exact absurd hsnd (by simp)
      · next hw hr =>
        rw [if_neg hw, if_neg hr] at hfst
        exact hfst.symm
    exact h.congr hsame rfl rfl rfl

theorem finishRequest (h : e.Tracks accepted []) (reason : FinishReason)
    (hfin : ∀ q ∈ e.scheduler.queue, q.id = id → q.state = .finished) :
    (e.finishRequest id reason).Tracks accepted [] :=
  h.sendLast (fun _ hx => absurd hx List.not_mem_nil) hfin (fun _ => ⟨_, _, _, rfl⟩)

theorem reap (h : e.Tracks accepted []) : e.reap.Tracks accepted [] := by
  have ht := Scheduler.thins_reapFinished h.nodup
  refine sendAll Sequence.id (fun _ r req =>
    .done (r.finishReason.getD .stop) req.promptLen r.outputLen)
    (fun _ _ _ => ⟨_, _, _, rfl⟩) _ (h.thins ht) (fun r hr q hq hid => ?_)
  exact ht.absent q hq (hid ▸ List.mem_map_of_mem hr)

theorem expire (h : e.Tracks accepted []) (now : Instant) :
    (e.expire now).Tracks accepted [] := by
  have ht := Scheduler.thins_expireTimeouts h.nodup now
  refine sendAll (fun id => id) (fun e id req =>
    .done .timeout req.promptLen ((e.scheduler.runningSequence id).elim 0 Sequence.outputLen))
    (fun _ _ _ => ⟨_, _, _, rfl⟩) _ ?_ (fun id hid q hq hq' => ht.absent q hq (hq' ▸ hid))
  rw [List.map_id']
  exact h.thins ht

/-- Between the `schedule` call and the forward pass. -/
theorem scheduled (h : e.Tracks accepted []) (now : Instant) :
    (e.scheduled now).Tracks accepted [] :=
  (h.expire now).thins (Scheduler.thins_schedule (h.expire now).nodup)

theorem publish (h : e.Tracks accepted []) (scheduled : List ScheduledSequence) :
    (e.publish scheduled).Tracks accepted [] := by
  induction scheduled generalizing e with
  | nil => exact h
  | cons x scheduled ih =>
    have hone : (e.publish [x]).Tracks accepted [] := by
      by_cases hx : x.isPrefill = true
      · have hcommit : e.publish [x]
            = { e with scheduler := e.scheduler.commitPrefill x.id } := by
          show { e with scheduler :=
            if x.isPrefill then e.scheduler.commitPrefill x.id else e.scheduler } = _
          rw [if_pos hx]
        rw [hcommit]
        exact h.thins (Scheduler.thins_commitPrefill h.nodup x.id)
      · refine h.congr ?_ rfl rfl rfl
        show (if x.isPrefill then e.scheduler.commitPrefill x.id else e.scheduler) = _
        rw [if_neg hx]
    exact ih hone

/-- **A row of the output**: the token goes out with its index, and a caller
that does not take it, or that it is the last one for, leaves. -/
theorem sampleAndEmit [Sampler S F] (h : e.Tracks accepted []) (id : SequenceId)
    (logits : List F) : (e.sampleAndEmit id logits).1.Tracks accepted [] := by
  unfold Engine.sampleAndEmit
  split
  · exact h
  next seq hseq =>
  split
  · exact h
  next req hreq =>
  split
  · exact h.setRequest hreq rfl
  next sampler token _ =>
  set req' : ActiveRequest S := { req with sampler := sampler } with hreq'
  have hlen : req'.promptLen = req.promptLen := rfl
  have htoken := h.sendToken hseq hreq hlen token
  simp only []
  split
  · next e' hsend =>
    obtain rfl : (send _ _ _ _).1 = e' := congrArg Prod.fst hsend
    have hfull := congrArg Prod.snd hsend
    refine htoken.cancelSilently (fun hall => ?_)
    -- the event that was not taken
    have htaken := hall _ List.mem_cons_self rfl
    exact absurd (htaken.symm.trans hfull) (by simp)
  · next e' hsend =>
    obtain rfl : (send _ _ _ _).1 = e' := congrArg Prod.fst hsend
    split
    · next reason hreason =>
      refine htoken.finishRequest reason (fun q hq hid => ?_)
      -- the sequence ended with the token
      rw [onToken_running hseq] at hreason
      have hfin : (Scheduler.tokenReceived token e.eosIds seq).state = .finished :=
        tokenReceived_state (Or.inr (by
          show (Scheduler.stopReason _ _ _ _).isSome = true
          rw [show Scheduler.stopReason (seq.pushToken token) token e.eosIds seq.params
            = some reason from hreason]
          rfl))
      have hself : Scheduler.tokenReceived token e.eosIds seq ∈
          (e.scheduler.onToken id token e.eosIds).1.queue := by
        rw [onToken_running hseq]
        exact List.mem_append_left _ (List.mem_updateKey_self hseq)
      have hidself : (Scheduler.tokenReceived token e.eosIds seq).id = id :=
        (Scheduler.tokenReceived_id _ _ seq).trans (List.key_of_findKey hseq)
      obtain rfl := Scheduler.eq_of_id_eq htoken.nodup hq hself (hid.trans hidself.symm)
      exact hfin
    · exact htoken

theorem emitRows [Sampler S F] (out : ForwardOutput F) (rows : List (SequenceId × ℕ)) :
    ∀ {e : Engine M S}, e.Tracks accepted [] → (e.emitRows out rows).1.Tracks accepted [] := by
  induction rows with
  | nil => exact fun h => h
  | cons r rows ih =>
    obtain ⟨id, row⟩ := r
    intro e h
    unfold Engine.emitRows
    split
    · exact ih h
    split
    · exact h
    next logits _ =>
    have hone := h.sampleAndEmit id logits
    split
    · next e' he' =>
      rw [he'] at hone
      exact ih hone
    · next e' err he' =>
      rw [he'] at hone
      exact hone

/-- **A request that is let in**: nothing was sent under its id yet. -/
theorem enter (h : e.Tracks accepted []) {seq : Sequence} (hid : seq.id.raw = e.nextId)
    (houtput : seq.output = []) {req : ActiveRequest S} (hlen : req.promptLen = seq.prompt.length)
    (e' : Engine M S)
    (hs : e'.scheduler = { e.scheduler with waiting := e.scheduler.waiting ++ [seq] })
    (ha : e'.active = e.active.insert seq.id req) (ht : e'.sent = e.sent)
    (hn : e'.nextId = e.nextId + 1) : e'.Tracks accepted [] := by
  have hqueue : e'.scheduler.queue = e.scheduler.queue ++ [seq] := by
    show e'.scheduler.running ++ e'.scheduler.waiting = _
    rw [hs]
    exact (List.append_assoc _ _ _).symm
  have hids : e'.scheduler.ids = e.scheduler.ids ++ [seq.id] := by
    show e'.scheduler.queue.map _ = e.scheduler.queue.map _ ++ _
    rw [hqueue, List.map_append]
    rfl
  have hfresh : ∀ q : SequenceId, q.raw < e.nextId → q ≠ seq.id := by
    rintro q hq rfl
    exact absurd hid hq.ne
  have hnothing : e'.eventsOf seq.id = [] := by
    unfold eventsOf
    rw [ht, List.filter_eq_nil_iff.mpr]
    · rfl
    · intro x hx
      simpa using hfresh x.id (h.sentLt x hx)
  have hev : ∀ q, e'.eventsOf q = e.eventsOf q := fun q => by
    unfold eventsOf
    rw [ht]
  have htaken : ∀ q, e'.AllTaken q ↔ e.AllTaken q := fun q => by
    unfold AllTaken
    rw [ht]
  have hlookup : ∀ q, q ≠ seq.id → e'.active.lookup q = e.active.lookup q := fun q hq => by
    rw [ha, AList.lookup_insert_ne hq]
  have hnew : e'.active.lookup seq.id = some req := by
    rw [ha, AList.lookup_insert]
  have hlt : seq.id.raw < e'.nextId := by
    rw [hid, hn]
    exact Nat.lt_succ_self _
  have hle : ∀ {k : ℕ}, k < e.nextId → k < e'.nextId := fun hk => by
    rw [hn]
    exact Nat.lt_succ_of_lt hk
  refine ⟨?_, fun q r hr => Or.inr ?_, fun q hq hne => ?_, fun q hacc hnone hall => ?_,
    fun q hq => ?_, fun q r hr => ?_, fun x hx => hle (h.sentLt x (ht ▸ hx))⟩
  · rw [hids]
    refine List.nodup_append.mpr ⟨h.nodup, List.nodup_singleton _, fun a ha b hb => ?_⟩
    rw [List.mem_singleton.mp hb]
    exact hfresh a (h.idsLt a ha)
  · rw [hqueue]
    by_cases hq : q = seq.id
    · subst hq
      rw [hnew] at hr
      obtain rfl := Option.some.inj hr
      refine ⟨seq, List.mem_append_right _ (List.mem_singleton.mpr rfl), rfl, hlen.symm,
        fun _ => ?_⟩
      rw [hnothing, houtput]
      rfl
    · rw [hlookup q hq] at hr
      rw [hev, htaken]
      obtain ⟨x, hx, hrest⟩ := (h.known q r hr).resolve_left
        (fun hp => absurd hp.1 List.not_mem_nil)
      exact ⟨x, List.mem_append_left _ hx, hrest⟩
  · rw [hqueue] at hq
    rcases List.mem_append.mp hq with hq | hq
    · rw [hlookup q.id (hfresh q.id (h.idsLt _ (Scheduler.mem_ids_of_mem_queue hq)))]
      exact h.requested q hq hne
    · rw [List.mem_singleton.mp hq, hnew]
      rfl
  · have hq : q ≠ seq.id := by
      rintro rfl
      rw [hnew] at hnone
      exact absurd hnone (by simp)
    rw [hev]
    exact h.closed q hacc ((hlookup q hq).symm.trans hnone) ((htaken q).mp hall)
  · rw [hids] at hq
    rcases List.mem_append.mp hq with hq | hq
    · exact hle (h.idsLt q hq)
    · rw [List.mem_singleton.mp hq]
      exact hlt
  · by_cases hq : q = seq.id
    · rw [hq]
      exact hlt
    · exact hle (h.activeLt q r ((hlookup q hq).symm.trans hr))

/-- A later id for the next request. -/
theorem skipId (h : e.Tracks accepted []) :
    Tracks accepted [] { e with nextId := e.nextId + 1 } :=
  ⟨h.nodup, h.known, h.requested, h.closed, fun q hq => Nat.lt_succ_of_lt (h.idsLt q hq),
    fun q r hr => Nat.lt_succ_of_lt (h.activeLt q r hr),
    fun x hx => Nat.lt_succ_of_lt (h.sentLt x hx)⟩

theorem submit (h : e.Tracks accepted []) (prompt : List TokenId) (params : SamplingParams)
    (events : Channel) (sampler : S) (now : Instant) :
    (e.submit prompt params events sampler now).1.Tracks accepted [] := by
  unfold Engine.submit
  split
  · exact h
  rcases e.scheduler.addRequest_cases (.new ⟨e.nextId⟩ prompt params now)
    with ⟨err, hadd⟩ | ⟨hadd, -⟩
  · rw [hadd]
    exact h.skipId
  · rw [hadd]
    set seq : Sequence := .new ⟨e.nextId⟩ prompt params now with hseq
    have hid : seq.id.raw = e.nextId := rfl
    exact h.enter hid rfl rfl _ rfl rfl rfl rfl

/-- The caller's end of a channel. -/
theorem receive (h : e.Tracks accepted []) (id : SequenceId) :
    (e.receive id).Tracks accepted [] := by
  unfold Engine.receive
  split
  · exact h
  · next req hreq => exact h.setRequest hreq rfl

theorem hangUp (h : e.Tracks accepted []) (id : SequenceId) :
    (e.hangUp id).Tracks accepted [] := by
  unfold Engine.hangUp
  split
  · exact h
  · next req hreq => exact h.setRequest hreq rfl

variable [LanguageModel M F] [Sampler S F]

theorem step (h : e.Tracks accepted []) (now : Instant) :
    (e.step now).1.Tracks accepted [] := by
  have hmid := h.scheduled now
  have hfwd : ∀ b, ((e.scheduled now).runForward b).1.Tracks accepted [] :=
    fun _ => hmid.congr rfl rfl rfl rfl
  rcases e.step_stages now with ⟨-, hstep⟩ | ⟨err, -, hstep⟩
    | ⟨b, -, ⟨err, -, hstep⟩ | ⟨out, -, ⟨err, hstep⟩ | hstep⟩⟩
  · rw [hstep]
    exact hmid.reap
  · rw [hstep]
    exact hmid
  · rw [hstep]
    exact hfwd b
  · rw [hstep]
    exact (hfwd b).emitRows out _
  · rw [hstep]
    exact (((hfwd b).emitRows out _).publish _).reap

/-- **Step lemma.** -/
theorem run (h : e.Tracks accepted []) (op : EngineOp S) : (op.run e).Tracks accepted [] := by
  cases op with
  | submit prompt params events sampler now => exact h.submit prompt params events sampler now
  | cancel id => exact h.cancel id
  | step now => exact h.step now
  | receive id => exact h.receive id
  | hangUp id => exact h.hangUp id

/-- **Run lemma.** -/
theorem runAll (ops : List (EngineOp S)) :
    ∀ {e : Engine M S}, e.Tracks accepted [] → (EngineOp.runAll e ops).Tracks accepted [] := by
  induction ops with
  | nil => exact fun h => h
  | cons op ops ih => exact fun h => ih (h.run op)

end Tracks

variable [LanguageModel M F] [Sampler S F] {config : SchedulerConfig} {n bs firstId : ℕ}
  {flag : Bool} {model : M}

/-- In every reachable state the owners of a request agree. -/
theorem Reachable.tracks (h : e.Reachable config n bs flag model firstId) : e.Tracks [] [] := by
  induction h with
  | start =>
    exact ⟨List.nodup_nil, fun _ _ hr => absurd hr (by simp [Engine.new]),
      fun _ hq => absurd hq List.not_mem_nil, fun _ hacc => absurd hacc List.not_mem_nil,
      fun _ hid => absurd hid List.not_mem_nil, fun _ _ hr => absurd hr (by simp [Engine.new]),
      fun _ hx => absurd hx List.not_mem_nil⟩
  | step op _ ih => exact ih.run op

/-! ## The stream of a request -/

/-- A token event is not a terminal one. -/
theorem done_notMem_tokenEvents {tokens : List TokenId} {reason : FinishReason} {p c : ℕ} :
    .done reason p c ∉ tokenEvents tokens := by
  intro hmem
  obtain ⟨t, -, heq⟩ := List.mem_map.mp hmem
  exact absurd heq (by simp)

/-- An accepted request is active. -/
theorem lookup_submit {prompt : List TokenId} {params : SamplingParams} {events : Channel}
    {sampler : S} {now : Instant}
    (hok : (e.submit prompt params events sampler now).2 = .ok id) :
    ((e.submit prompt params events sampler now).1.active.lookup id).isSome = true := by
  unfold submit at hok ⊢
  split at hok
  · exact absurd hok (by simp)
  next hvalid =>
  rcases e.scheduler.addRequest_cases (.new ⟨e.nextId⟩ prompt params now)
    with ⟨err, hadd⟩ | ⟨hadd, -⟩
  · rw [hadd] at hok
    exact absurd hok (by simp)
  · rw [hadd] at hok
    obtain rfl := Except.ok.inj hok
    rw [hadd]
    show ((e.active.insert _ _).lookup _).isSome = true
    rw [AList.lookup_insert]
    rfl

/-- **Streams are well formed.** In every run, with every model and sampler,
an accepted request whose channel took whatever was sent on it has received
its tokens, numbered from zero, and after them at most one terminal event –
which was sent if and only if the request is no longer active. So a client that
reads to the end of its stream misses nothing and waits for nothing. -/
theorem stream_wellFormed (h : e.Reachable config n bs flag model firstId)
    {prompt : List TokenId} {params : SamplingParams} {events : Channel} {sampler : S}
    {now : Instant} (hok : (e.submit prompt params events sampler now).2 = .ok id)
    (ops : List (EngineOp S))
    (hopen : (EngineOp.runAll (e.submit prompt params events sampler now).1 ops).AllTaken id) :
    let e' := EngineOp.runAll (e.submit prompt params events sampler now).1 ops
    (∃ tokens, e'.eventsOf id = tokenEvents tokens
      ∨ ∃ reason p c, e'.eventsOf id = tokenEvents tokens ++ [.done reason p c])
    ∧ ((∃ reason p c, .done reason p c ∈ e'.eventsOf id) ↔ e'.active.lookup id = none) := by
  intro e'
  have hsubmit := h.tracks.submit prompt params events sampler now
  have hactive := lookup_submit hok
  -- from here on the request is one of those that are owed a terminal event
  have haccept : (e.submit prompt params events sampler now).1.Tracks [id] [] :=
    ⟨hsubmit.nodup, hsubmit.known, hsubmit.requested, fun q hq hnone => by
      rw [List.mem_singleton.mp hq] at hnone
      rw [hnone] at hactive
      exact absurd hactive (by simp), hsubmit.idsLt, hsubmit.activeLt, hsubmit.sentLt⟩
  have hend : e'.Tracks [id] [] := haccept.runAll ops
  rcases hlookup : e'.active.lookup id with - | req
  · obtain ⟨tokens, reason, p, c, hevents⟩ :=
      hend.closed id (List.mem_singleton.mpr rfl) hlookup hopen
    refine ⟨⟨tokens, Or.inr ⟨reason, p, c, hevents⟩⟩, fun _ => rfl, fun _ => ⟨reason, p, c, ?_⟩⟩
    rw [hevents]
    exact List.mem_append_right _ (List.mem_singleton.mpr rfl)
  · obtain ⟨q, -, -, -, hevents⟩ := (hend.known id req hlookup).resolve_left
      (fun hp => absurd hp.1 List.not_mem_nil)
    refine ⟨⟨q.output, Or.inl (hevents hopen)⟩, fun ⟨reason, p, c, hdone⟩ => ?_,
      fun hnone => absurd hnone (by simp)⟩
    rw [hevents hopen] at hdone
    exact absurd hdone done_notMem_tokenEvents

/-- A prompt of three tokens that is cancelled after its first token. -/
theorem stream_wellFormed_cancelled :
    let e' := EngineOp.runAll (MockModel.engine 4 []) [MockModel.request [1, 2, 3], .step 0,
      .cancel ⟨1⟩]
    e'.eventsOf ⟨1⟩ = [.token 7 "" 0, .done .cancelled 3 0]
    ∧ (∃ reason p c, .done reason p c ∈ e'.eventsOf ⟨1⟩) ∧ e'.active.lookup ⟨1⟩ = none := by
  have hstart : (MockModel.engine 4 []).Reachable {} 4 4 true ⟨[]⟩ 1 := .start
  have hok : ((MockModel.engine 4 []).submit [1, 2, 3] {} ⟨8, [], true⟩ ⟨7⟩ 0).2 = .ok ⟨1⟩ := by
    decide +kernel
  have h := (stream_wellFormed hstart hok [.step 0, .cancel ⟨1⟩] (by decide +kernel)).2
  intro e'
  have hnone : e'.active.lookup ⟨1⟩ = none := by decide +kernel
  exact ⟨by decide +kernel, h.mpr hnone, hnone⟩

end Engine
