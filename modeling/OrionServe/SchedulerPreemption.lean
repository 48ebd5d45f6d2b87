import OrionServe.SchedulerReach

/-!
# What an eviction loses

`Sequence::preempt` keeps the generated tokens and throws the prefill
progress away, on the grounds that “on restart the prompt is prompt plus
tokens so far”. Admission, however, sizes and allocates from the prompt alone.
So what is computed again after an eviction is the prompt and nothing else:
the prefill entries up to the next decode entry tile exactly the prompt, and
the table of a sequence that decodes again covers the prompt and one token
for each decode entry. A sequence that had generated nothing gets everything
back, any other one loses the cache entries of all it had generated.
-/

namespace SchedEvent

/-- Whether an event is a prefill entry. -/
def isPrefill : SchedEvent → Bool
  | .scheduled e => e.isPrefill
  | .preempted _ => false

end SchedEvent

/-- A stretch of the history after an eviction of `u` in which `u` is neither
evicted again nor decoded. -/
def Recomputes (u : Sequence) (mid : List SchedEvent) : Prop :=
  ∀ e ∈ mid, e.seqId = u.id → e.isPrefill = true

instance (u : Sequence) (mid : List SchedEvent) : Decidable (Recomputes u mid) :=
  inferInstanceAs (Decidable (∀ e ∈ mid, e.seqId = u.id → e.isPrefill = true))

namespace Recomputes

variable {u : Sequence} {mid : List SchedEvent}

theorem not_preempted (h : Recomputes u mid) :
    ∀ v, .preempted v ∈ mid → v.id ≠ u.id :=
  fun v hv hid => absurd (h _ hv hid) (by simp [SchedEvent.isPrefill])

theorem entries (h : Recomputes u mid) :
    ∀ e ∈ mid.filterMap (SchedEvent.entryOf u.id), e.isPrefill = true := by
  intro e he
  obtain ⟨x, hx, hxe⟩ := List.mem_filterMap.mp he
  cases x with
  | scheduled s =>
    simp only [SchedEvent.entryOf] at hxe
    split at hxe
    · next hid =>
      obtain rfl := Option.some.inj hxe
      exact h _ hx hid
    · exact absurd hxe (by simp)
  | preempted v => exact absurd hxe (by simp [SchedEvent.entryOf])

end Recomputes

namespace Service

variable {config : SchedulerConfig} {n bs firstId : ℕ} {flag : Bool}
  {v : Service KvCacheManager}

/-- **Between an eviction and the next decode entry** the prompt is computed,
and nothing else. -/
theorem Sound.tiles_prompt (h : v.Sound) {later mid earlier : List SchedEvent}
    {d : ScheduledSequence} {u : Sequence}
    (htrace : v.sched.trace = later ++ .scheduled d :: (mid ++ .preempted u :: earlier))
    (hid : d.id = u.id) (hdec : d.isPrefill = false) (hmid : Recomputes u mid) :
    Span.TilesTo (prefillsOf u.id mid) u.prompt.length := by
  have howed := Justified.iff_forall.mp h.sched.restarts later _ _ htrace
  have htiles := howed hdec u mid earlier rfl hid.symm
  rw [hid] at htiles
  exact htiles hmid.not_preempted hmid.entries

/-- **A table when its sequence decodes again**: as long as there is no decode
entry it holds the prompt. -/
theorem Sound.table_decoding (h : v.Sound) {mid earlier : List SchedEvent} {u r : Sequence}
    (htrace : v.sched.trace = mid ++ .preempted u :: earlier) (hmid : Recomputes u mid)
    (hr : r ∈ v.sched.running) (hid : r.id = u.id) (hdec : r.state = .decoding) :
    ∃ t, v.sched.cache.blockTable r.id = some t ∧ t.numTokens = u.prompt.length := by
  have hres := h.sched.resident hr (by simp [hdec])
  obtain ⟨decodes, prefills, hes, hall, -, -, -, t, ht, hnum⟩ := hres.entries
  have hnil : decodes = [] := by
    refine List.eq_nil_iff_forall_not_mem.mpr (fun e he => ?_)
    rw [htrace, hid, entriesSince_append rfl hmid.not_preempted] at hes
    have hpre := hmid.entries e (by rw [hes]; exact List.mem_append_left _ he)
    exact absurd (hpre.symm.trans (hall e he)) (by simp)
  have hprompt : r.prompt = u.prompt := by
    refine h.sched.evictions u ?_ (r.id, r.prompt) ?_ hid
    · rw [htrace]
      exact List.mem_append_right _ List.mem_cons_self
    · exact List.mem_map.mpr ⟨r, List.mem_append_left _ hr, rfl⟩
  refine ⟨t, ht, ?_⟩
  rw [hnum, hnil, hprompt]
  rfl

/-- **Preemption loses the generated tokens.** Take an eviction of a sequence
with prompt `p` and `k` generated tokens, in any run. The prefill entries
between it and the next decode entry of the sequence cover all `|p| + k`
tokens exactly when `k = 0`, and so does the block table in a state where the
sequence is decoding again and has not been given a decode step. -/
theorem recomputed_iff (hbs : 1 ≤ bs) (hn : n ≤ 2 ^ 32)
    (h : v.Reachable config (KvCacheManager.new n bs flag) firstId) :
    (∀ later d mid u earlier,
      v.sched.trace = later ++ .scheduled d :: (mid ++ .preempted u :: earlier) →
      d.id = u.id → d.isPrefill = false → Recomputes u mid →
      (Span.Covers (prefillsOf u.id mid) (u.prompt.length + u.output.length)
        ↔ u.output.length = 0))
    ∧ ∀ mid u earlier r, v.sched.trace = mid ++ .preempted u :: earlier →
      Recomputes u mid → r ∈ v.sched.running → r.id = u.id → r.state = .decoding →
      ∃ t, v.sched.cache.blockTable r.id = some t
        ∧ (u.prompt.length + u.output.length ≤ t.numTokens ↔ u.output.length = 0) := by
  have hs := h.sound hbs hn
  have hfits : ∀ p k : ℕ, p + k ≤ p ↔ k = 0 := fun p k => by omega
  refine ⟨fun later d mid u earlier htrace hid hdec hmid => ?_,
    fun mid u earlier r htrace hmid hr hid hdec => ?_⟩
  · rw [(hs.tiles_prompt htrace hid hdec hmid).covers_iff]
    exact hfits _ _
  · obtain ⟨t, ht, hnum⟩ := hs.table_decoding htrace hmid hr hid hdec
    refine ⟨t, ht, ?_⟩
    rw [hnum]
    exact hfits _ _

/-- A prompt of three tokens in a cache of a single block of four: it is
evicted with two generated tokens, which no longer fit, and starts over. -/
def evictedAlone : Service KvCacheManager :=
  SchedulerOp.runAll (.start {} (KvCacheManager.new 1 4 true) 1)
    [.addRequest [1, 2, 3] {} 0, .schedule, .onToken ⟨1⟩ 50 [], .schedule,
      .onToken ⟨1⟩ 51 [], .schedule, .schedule]

/-- The sequence as it was evicted. -/
def evictedVictim : Sequence where
  id := ⟨1⟩
  prompt := [1, 2, 3]
  output := [50, 51]
  computedPrefixLen := 3
  state := .decoding
  finishReason := none
  params := {}
  arrivedAt := 0

/-- What happened to it: a prefill and a decode entry, the eviction, the
prefill of the prompt alone and the next decode entry. -/
theorem evictedAlone_trace :
    evictedAlone.sched.trace = [] ++ .scheduled ⟨⟨1⟩, 1, 5, false⟩
      :: ([.scheduled ⟨⟨1⟩, 3, 0, true⟩] ++ .preempted evictedVictim
        :: [.scheduled ⟨⟨1⟩, 1, 4, false⟩, .scheduled ⟨⟨1⟩, 3, 0, true⟩]) := by
  decide +kernel

/-- **Not all tokens are computed again**: five tokens were there, three are
covered. -/
theorem generated_tokens_not_recomputed :
    evictedAlone.Reachable {} (KvCacheManager.new 1 4 true) 1
    ∧ ∃ later d mid u earlier, evictedAlone.sched.trace
        = later ++ .scheduled d :: (mid ++ .preempted u :: earlier)
      ∧ d.id = u.id ∧ d.isPrefill = false ∧ Recomputes u mid
      ∧ ¬ Span.Covers (prefillsOf u.id mid) (u.prompt.length + u.output.length) :=
  ⟨Reachable.start.runAll _, _, _, _, _, _, evictedAlone_trace, rfl, rfl, by decide, by decide⟩

/-- The same run: the condition fails, and so does the cover. -/
theorem recomputed_iff_evictedAlone :
    ¬ Span.Covers (prefillsOf ⟨1⟩ [.scheduled ⟨⟨1⟩, 3, 0, true⟩]) (3 + 2) := by
  have hv : evictedAlone.Reachable {} (KvCacheManager.new 1 4 true) 1 :=
    Reachable.start.runAll _
  have hiff := (recomputed_iff (by decide) (by decide) hv).1 _ _ _ _ _ evictedAlone_trace
    rfl rfl (by decide)
  exact fun hc => absurd (hiff.mp hc) (by decide)

end Service
