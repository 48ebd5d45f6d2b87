import OrionServe.Lib.Places
import OrionServe.SchedulerBatch
import OrionServe.SchedulerProgress
import OrionServe.SchedulerTurns

/-!
# Who is safe from eviction

Evictions take the newest running sequence first, so that the oldest one can
always finish. That works as long as they stop in time. The decode pass
evicts once for each candidate that cannot grow – and a candidate that has
been evicted since the list was made cannot grow, so its own turn evicts the
next one. The admission loop evicts until the head of the waiting queue fits,
and the head it evicts for may be the sequence evicted last.

Both passes are followed here by what the first so many sequences hold
between them. No move changes the order of service `running ++ waiting`, so
that these sequences are safe as long as the running queue is not shorter; and
it gets no shorter in the admission loop if the sequence after them fits next
to them. The decode pass evicts everybody only if each of its turns evicts
somebody, which takes that no block is free, that the older half of the
sequences is full, and that the newer ones give back a block at most each.
-/

namespace KvCacheManager

/-- **What it takes that each turn of a decode pass evicts somebody**, from
turn `i` on, when the running sequences `ids` all decode: at turn `j` the `j`
newest are gone and, as long as the candidate is not among them, no block is
free, the candidate is full, and the victim gives back one block at most. -/
structure EvictsFrom (m : KvCacheManager) (ids : List SequenceId) (i : ℕ) : Prop where
  spent : 2 * i < ids.length → m.freeBlocks = 0
  full : ∀ j, i ≤ j → 2 * j < ids.length → ∀ id, ids[j]? = some id → m.isFull id = true
  single : ∀ j, i ≤ j → 2 * (j + 1) < ids.length →
    m.footprint (ids.take (ids.length - j)) ≤ m.footprint (ids.take (ids.length - (j + 1))) + 1

end KvCacheManager

/-- The blocks of the tables are those of the running sequences. -/
theorem Scheduler.Sound.freeBlocks_add {s : Scheduler KvCacheManager} (h : s.Sound) :
    s.cache.freeBlocks + s.cache.footprint (s.running.map Sequence.id) = s.cache.totalBlocks :=
  h.settled.exact.freeBlocks_add_footprint h.tables

namespace Pass

variable {p : Pass KvCacheManager}

/-! ## The decode pass -/

/-- **One turn of the decode pass**: an entry, an eviction and an entry, or an
eviction and nothing. -/
inductive DecodeTurn (p p' : Pass KvCacheManager) (id : SequenceId) (totalLen : ℕ) : Prop
  | grown {c : KvCacheManager} (answer : p.sched.cache.appendToken id = (c, .ok ()))
      (result : p' = (p.withCache c).emit (decodeEntry id totalLen))
  | evicted {p₁ : Pass KvCacheManager} {e : EngineError}
      (refusal : p.sched.cache.appendToken id = (p.sched.cache, .error e))
      (eviction : p.preemptOne = some p₁)
      (next : (∃ c, p₁.sched.cache.appendToken id = (c, .ok ())
          ∧ p' = (p₁.withCache c).emit (decodeEntry id totalLen))
        ∨ (∃ e, p₁.sched.cache.appendToken id = (p₁.sched.cache, .error e)) ∧ p' = p₁)

/-- A turn keeps the scheduler sound and the rest of the candidate list
true. -/
theorem DecodeTurn.sound {p' : Pass KvCacheManager} {id : SequenceId} {totalLen : ℕ}
    {cands : List (SequenceId × ℕ)} (h : DecodeTurn p p' id totalLen) (hs : p.sched.Sound)
    (room : p.used < p.budget) (hguard : p.DecodeGuard ((id, totalLen) :: cands)) :
    p'.sched.Sound ∧ p'.DecodeGuard cands := by
  have hsub : cands ⊆ (id, totalLen) :: cands := List.subset_cons_self _ _
  cases h with
  | @grown c answer result =>
    have hmove : PassMove p p' :=
      .decoded room answer (fun hnd => hguard hnd _ List.mem_cons_self) result
    subst result
    exact ⟨hmove.sound hs, hguard.mono hmove.ids (List.Subset.refl _) hsub⟩
  | @evicted p₁ e refusal eviction next =>
    have hs₁ := (PassMove.evicted eviction).sound hs
    obtain ⟨victim, hrun, hevicted⟩ := Evicted.of_preemptOne eviction
    have hguard₁ : p₁.DecodeGuard ((id, totalLen) :: cands) := by
      refine hguard.mono (PassMove.evicted eviction).ids ?_ (List.Subset.refl _)
      rw [hrun]
      exact List.subset_append_left _ _
    have room₁ : p₁.used < p₁.budget := by
      unfold budget
      rw [hevicted.used, hevicted.config]
      exact room
    rcases next with ⟨c, answer, result⟩ | ⟨-, rfl⟩
    · have hmove : PassMove p₁ p' :=
        .decoded room₁ answer (fun hnd => hguard₁ hnd _ List.mem_cons_self) result
      subst result
      exact ⟨hmove.sound hs₁, hguard₁.mono hmove.ids (List.Subset.refl _) hsub⟩
    · exact ⟨hs₁, hguard₁.mono rfl (List.Subset.refl _) hsub⟩

/-- The decode pass goes from turn to turn, until the budget is spent, nobody
is left to evict or nobody is left to decode. -/
theorem decodeLoop_turn (hs : p.sched.Sound) {id : SequenceId} {totalLen : ℕ}
    {cands : List (SequenceId × ℕ)} (hguard : p.DecodeGuard ((id, totalLen) :: cands)) :
    (p.decodeLoop ((id, totalLen) :: cands) = p ∧ (p.budget ≤ p.used ∨ p.sched.running = []))
    ∨ ∃ p', DecodeTurn p p' id totalLen ∧ p'.sched.Sound ∧ p'.DecodeGuard cands
      ∧ p.decodeLoop ((id, totalLen) :: cands) = p'.decodeLoop cands := by
  by_cases room : p.used < p.budget
  swap
  · refine Or.inl ⟨?_, Or.inl (not_lt.mp room)⟩
    unfold decodeLoop
    rw [if_pos (not_lt.mp room)]
  have hgoes : ∀ {p' : Pass KvCacheManager}, DecodeTurn p p' id totalLen →
      p.decodeLoop ((id, totalLen) :: cands) = p'.decodeLoop cands →
      ∃ p', DecodeTurn p p' id totalLen ∧ p'.sched.Sound ∧ p'.DecodeGuard cands
        ∧ p.decodeLoop ((id, totalLen) :: cands) = p'.decodeLoop cands := by
    intro p' hturn hloop
    obtain ⟨hs', hguard'⟩ := hturn.sound hs room hguard
    exact ⟨p', hturn, hs', hguard', hloop⟩
  rcases decodeLoop_cons hs room id totalLen cands with
    ⟨c, hok, hloop⟩ | ⟨⟨e, herr⟩, ⟨hev, hloop⟩ | ⟨p₁, hev, ⟨c, hok, hloop⟩ | ⟨herr₁, hloop⟩⟩⟩
  · exact Or.inr (hgoes (.grown hok rfl) hloop)
  · exact Or.inl ⟨hloop, Or.inr (preemptOne_eq_none hev)⟩
  · exact Or.inr (hgoes (.evicted herr hev (Or.inl ⟨c, hok, rfl⟩)) hloop)
  · exact Or.inr (hgoes (.evicted herr hev (Or.inr ⟨herr₁, rfl⟩)) hloop)

/-- **What a turn takes off the running queue**: nobody, or the newest
sequence. -/
theorem DecodeTurn.gone {p' : Pass KvCacheManager} {id : SequenceId} {totalLen : ℕ}
    (h : DecodeTurn p p' id totalLen) : ∃ gone, p.sched.running = p'.sched.running ++ gone
      ∧ p'.out.preempted = p.out.preempted ++ (gone.map Sequence.id).reverse
      ∧ gone.length ≤ 1 := by
  cases h with
  | grown answer result =>
    subst result
    exact ⟨[], (List.append_nil _).symm, (List.append_nil _).symm, Nat.zero_le 1⟩
  | @evicted p₁ e refusal eviction next =>
    obtain ⟨older, victim, hrun, rfl⟩ := preemptOne_eq_some eviction
    refine ⟨[victim], ?_⟩
    rcases next with ⟨c, -, rfl⟩ | ⟨-, rfl⟩
    · exact ⟨hrun, rfl, le_rfl⟩
    · exact ⟨hrun, rfl, le_rfl⟩

/-- **What a decode pass takes off the running queue**: its newest sequences,
one for a candidate at most. -/
theorem decodeLoop_gone (cands : List (SequenceId × ℕ)) :
    ∀ {p : Pass KvCacheManager}, p.sched.Sound → p.DecodeGuard cands → ∃ gone,
      p.sched.running = (p.decodeLoop cands).sched.running ++ gone
      ∧ (p.decodeLoop cands).out.preempted = p.out.preempted ++ (gone.map Sequence.id).reverse
      ∧ gone.length ≤ cands.length := by
  have hstay : ∀ (p : Pass KvCacheManager) (k : ℕ), ∃ gone,
      p.sched.running = p.sched.running ++ gone
      ∧ p.out.preempted = p.out.preempted ++ (gone.map Sequence.id).reverse ∧ gone.length ≤ k :=
    fun p k => ⟨[], (List.append_nil _).symm, (List.append_nil _).symm, Nat.zero_le k⟩
  induction cands with
  | nil => exact fun {p} _ _ => hstay p 0
  | cons c cands ih =>
    intro p hs hguard
    rcases decodeLoop_turn hs hguard with ⟨hloop, -⟩ | ⟨p', hturn, hs', hguard', hloop⟩
    · rw [hloop]
      exact hstay p _
    · rw [hloop]
      obtain ⟨first, hfirst, hpre, hone⟩ := hturn.gone
      obtain ⟨gone, hgone, hpre', hlen⟩ := ih hs' hguard'
      refine ⟨gone ++ first, ?_, ?_, ?_⟩
      · rw [hfirst, hgone, List.append_assoc]
      · rw [hpre', hpre, List.map_append, List.reverse_append, List.append_assoc]
      · rw [List.length_append, List.length_cons]
        exact Nat.add_le_add hlen hone

/-- **What a turn does to a footprint**: it adds the block of a full candidate
that is part of it, at most, and no other table gets fuller. -/
theorem DecodeTurn.footprint {p' : Pass KvCacheManager} {id : SequenceId} {totalLen : ℕ}
    (h : DecodeTurn p p' id totalLen) (hs : p.sched.Sound) (ids : List SequenceId) :
    p'.sched.cache.footprint ids ≤ p.sched.cache.footprint ids
        + (if id ∈ ids ∧ p.sched.cache.isFull id = true then 1 else 0)
    ∧ ∀ q, q ≠ id → p'.sched.cache.isFull q = true → p.sched.cache.isFull q = true := by
  have hgrow : ∀ {m m' : KvCacheManager}, m.Settled → m.appendToken id = (m', .ok ()) →
      ∀ q, q ≠ id → m'.isFull q = m.isFull q := by
    intro m m' hm hok q hq
    obtain ⟨-, hbs, -, -, hother, -, -⟩ := hm.append_ok hok
    exact KvCacheManager.isFull_congr (hother q hq) hbs
  cases h with
  | @grown c answer result =>
    subst result
    obtain ⟨-, -, -, -, -, -, hfoot⟩ := hs.settled.append_ok answer
    exact ⟨(hfoot ids).le, fun q hq hfull => (hgrow hs.settled answer q hq).symm.trans hfull⟩
  | @evicted p₁ e refusal eviction next =>
    have hs₁ := (PassMove.evicted eviction).sound hs
    obtain ⟨older, victim, -, rfl⟩ := preemptOne_eq_some eviction
    have hle : (p.sched.cache.free victim.id).footprint ids ≤ p.sched.cache.footprint ids :=
      KvCacheManager.footprint_free_le
    rcases next with ⟨c, answer, rfl⟩ | ⟨-, rfl⟩
    · obtain ⟨-, -, -, -, -, -, hfoot⟩ := hs₁.settled.append_ok answer
      refine ⟨(hfoot ids).le.trans (Nat.add_le_add hle ?_), fun q hq hfull => ?_⟩
      · split
        · next hand =>
          rw [if_pos ⟨hand.1, KvCacheManager.isFull_of_free hand.2⟩]
        · exact Nat.zero_le _
      · exact KvCacheManager.isFull_of_free ((hgrow hs₁.settled answer q hq).symm.trans hfull)
    · exact ⟨hle.trans (Nat.le_add_right _ _),
        fun q _ hfull => KvCacheManager.isFull_of_free hfull⟩

/-- **What a decode pass does to a footprint**: it adds a block for each of
its full candidates, at most. -/
theorem decodeLoop_footprint (ids : List SequenceId) (cands : List (SequenceId × ℕ)) :
    ∀ {p : Pass KvCacheManager}, p.sched.Sound → p.DecodeGuard cands →
      (cands.map Prod.fst).Nodup →
      (p.decodeLoop cands).sched.cache.footprint ids ≤ p.sched.cache.footprint ids
        + cands.countP (fun c => c.1 ∈ ids ∧ p.sched.cache.isFull c.1 = true) := by
  induction cands with
  | nil => exact fun {p} _ _ _ => Nat.le_add_right _ _
  | cons c cands ih =>
    obtain ⟨id, totalLen⟩ := c
    intro p hs hguard hnd
    obtain ⟨hnot, hnd⟩ := List.nodup_cons.mp hnd
    rcases decodeLoop_turn hs hguard with ⟨hloop, -⟩ | ⟨p', hturn, hs', hguard', hloop⟩
    · rw [hloop]
      exact Nat.le_add_right _ _
    rw [hloop, List.countP_cons]
    obtain ⟨hfoot, hfull⟩ := hturn.footprint hs ids
    have hrest : cands.countP (fun c => c.1 ∈ ids ∧ p'.sched.cache.isFull c.1 = true)
        ≤ cands.countP (fun c => c.1 ∈ ids ∧ p.sched.cache.isFull c.1 = true) := by
      refine List.countP_mono_left (fun c hc hand => ?_)
      obtain ⟨hin, hf⟩ := of_decide_eq_true hand
      refine decide_eq_true ⟨hin, hfull c.1 ?_ hf⟩
      rintro rfl
      exact hnot (List.mem_map.mpr ⟨c, hc, rfl⟩)
    calc (p'.decodeLoop cands).sched.cache.footprint ids
        ≤ p'.sched.cache.footprint ids
          + cands.countP (fun c => c.1 ∈ ids ∧ p'.sched.cache.isFull c.1 = true) :=
          ih hs' hguard' hnd
      _ ≤ p.sched.cache.footprint ids
          + (if id ∈ ids ∧ p.sched.cache.isFull id = true then 1 else 0)
          + cands.countP (fun c => c.1 ∈ ids ∧ p.sched.cache.isFull c.1 = true) :=
          Nat.add_le_add hfoot hrest
      _ = _ := by
          simp only [decide_eq_true_eq]
          omega

/-- A refusal to a sequence that decodes: its table is full, and no block is
free. -/
theorem full_of_refused (hs : p.sched.Sound) {r : Sequence} (hr : r ∈ p.sched.running)
    (hdecoding : r.state = .decoding) {e : EngineError}
    (refusal : p.sched.cache.appendToken r.id = (p.sched.cache, .error e)) :
    p.sched.cache.isFull r.id = true ∧ p.sched.cache.freeBlocks = 0 := by
  obtain ⟨t, ht⟩ := (hs.resident hr (by simp [hdecoding])).table
  exact (hs.settled.append_refused refusal).resolve_left
    (fun hnone => absurd (hnone.symm.trans ht) (by simp))

/-- **How a turn that evicts changes the footprints** of those who are older
than the victim: all alike, from the candidate on. -/
theorem exists_footprint_shift {ids : List SequenceId} (hnd : ids.Nodup) {i k : ℕ}
    {id victim : SequenceId} (hi : ids[i]? = some id) (hk : ids[k]? = some victim)
    {m m' : KvCacheManager} (hm : (m.free victim).Settled)
    (hnext : (m.free victim).appendToken id = (m', .ok ()) ∨ m' = m.free victim) :
    ∃ d, ∀ n, i < n → n ≤ k →
      m'.footprint (ids.take n) = m.footprint (ids.take n) + d := by
  have hout : ∀ n, n ≤ k → (m.free victim).footprint (ids.take n)
      = m.footprint (ids.take n) := by
    intro n hn
    refine KvCacheManager.footprint_free (fun hmem => ?_)
    exact absurd ((hnd.mem_take_iff hk).mp hmem) (not_lt.mpr hn)
  rcases hnext with answer | rfl
  · obtain ⟨-, -, -, -, -, -, hfoot⟩ := hm.append_ok answer
    refine ⟨if (m.free victim).isFull id = true then 1 else 0, fun n hn hle => ?_⟩
    rw [hfoot (ids.take n), hout n hle]
    simp only [(hnd.mem_take_iff hi).mpr hn, true_and]
  · exact ⟨0, fun n _ hle => hout n hle⟩

/-- After an eviction at most one block is free, if none is after the second
try. -/
theorem freeBlocks_le_one {p₁ p' : Pass KvCacheManager} {r : Sequence} {totalLen : ℕ}
    (hs : p₁.sched.Sound) (hr : r ∈ p₁.sched.running) (hdecoding : r.state = .decoding)
    (next : (∃ c, p₁.sched.cache.appendToken r.id = (c, .ok ())
        ∧ p' = (p₁.withCache c).emit (decodeEntry r.id totalLen))
      ∨ (∃ e, p₁.sched.cache.appendToken r.id = (p₁.sched.cache, .error e)) ∧ p' = p₁)
    (hspent : p'.sched.cache.freeBlocks = 0) : p₁.sched.cache.freeBlocks ≤ 1 := by
  rcases next with ⟨c, answer, rfl⟩ | ⟨⟨e, refusal⟩, -⟩
  · obtain ⟨-, -, -, -, -, hfree, -⟩ := hs.settled.append_ok answer
    rw [show c.freeBlocks = 0 from hspent, Nat.zero_add] at hfree
    refine hfree.le.trans ?_
    split
    · exact le_rfl
    · exact Nat.zero_le 1
  · exact (full_of_refused hs hr hdecoding refusal).2.le.trans (Nat.zero_le 1)

/-- **A turn that evicts**, when the later ones evict as well. -/
theorem evictsFrom_of_evicted {ids : List SequenceId} (hnd : ids.Nodup) {i totalLen : ℕ}
    {id : SequenceId} (hi : ids[i]? = some id) {p₁ p' : Pass KvCacheManager} {e : EngineError}
    (hs : p.sched.Sound) (hdecoding : ∀ r ∈ p.sched.running, r.state = .decoding)
    (hrun : p.sched.running.map Sequence.id = ids.take (ids.length - i))
    (hrun₁ : p₁.sched.running.map Sequence.id = ids.take (ids.length - (i + 1)))
    (refusal : p.sched.cache.appendToken id = (p.sched.cache, .error e))
    (eviction : p.preemptOne = some p₁)
    (next : (∃ c, p₁.sched.cache.appendToken id = (c, .ok ())
        ∧ p' = (p₁.withCache c).emit (decodeEntry id totalLen))
      ∨ (∃ e, p₁.sched.cache.appendToken id = (p₁.sched.cache, .error e)) ∧ p' = p₁)
    (hfull : ∀ q, q ≠ id → p'.sched.cache.isFull q = true → p.sched.cache.isFull q = true)
    (hev : p'.sched.cache.EvictsFrom ids (i + 1)) : p.sched.cache.EvictsFrom ids i := by
  have hs₁ := (PassMove.evicted eviction).sound hs
  obtain ⟨older, victim, hsplit, rfl⟩ := preemptOne_eq_some eviction
  obtain ⟨hlt, -⟩ := List.getElem?_eq_some_iff.mp hi
  -- the victim was the last of those left
  have hvictim : ids[ids.length - (i + 1)]? = some victim.id := by
    rw [hsplit, List.map_append, show ids.length - i = ids.length - (i + 1) + 1 by omega] at hrun
    exact (List.eq_take_of_concat hrun (by omega)).2
  -- a candidate that is not among the newest runs before and after
  have hmem : ∀ {r : ℕ}, i < r → id ∈ ids.take r := fun hr => (hnd.mem_take_iff hi).mpr hr
  have hrefused : 2 * i < ids.length →
      p.sched.cache.isFull id = true ∧ p.sched.cache.freeBlocks = 0 := by
    intro h2
    have hin : id ∈ p.sched.running.map Sequence.id := hrun ▸ hmem (by omega)
    obtain ⟨r, hr, rfl⟩ := List.mem_map.mp hin
    exact full_of_refused hs hr (hdecoding r hr) refusal
  obtain ⟨d, hshift⟩ : ∃ d, ∀ n, i < n → n ≤ ids.length - (i + 1) →
      p'.sched.cache.footprint (ids.take n) = p.sched.cache.footprint (ids.take n) + d := by
    refine exists_footprint_shift hnd hi hvictim hs₁.settled ?_
    rcases next with ⟨c, answer, rfl⟩ | ⟨-, rfl⟩
    · exact Or.inl answer
    · exact Or.inr rfl
  refine ⟨fun h2 => (hrefused h2).2, fun j hj h2 q hq => ?_, fun j hj h2 => ?_⟩
  · rcases Nat.eq_or_lt_of_le hj with rfl | hij
    · obtain rfl := Option.some.inj (hi.symm.trans hq)
      exact (hrefused h2).1
    · refine hfull q ?_ (hev.full j hij h2 q hq)
      rintro rfl
      have hij' : i < j := hij
      obtain ⟨hlt', hget⟩ := List.getElem?_eq_some_iff.mp hq
      obtain ⟨hlt'', hget'⟩ := List.getElem?_eq_some_iff.mp hi
      have heq := (List.Nodup.getElem_inj_iff hnd).mp (hget'.trans hget.symm)
      omega
  · rcases Nat.eq_or_lt_of_le hj with rfl | hij
    · -- the victim of this turn gives back one block at most
      have hin : id ∈ older.map Sequence.id := hrun₁ ▸ hmem (by omega)
      obtain ⟨r, hr, rfl⟩ := List.mem_map.mp hin
      have hle := freeBlocks_le_one hs₁ hr (hdecoding r (hsplit ▸ List.mem_append_left _ hr))
        next (hev.spent h2)
      have hall := hs.freeBlocks_add
      have hall₁ := hs₁.freeBlocks_add
      rw [hrun] at hall
      rw [hrun₁] at hall₁
      have hout : (p.sched.cache.free victim.id).footprint (ids.take (ids.length - (i + 1)))
          = p.sched.cache.footprint (ids.take (ids.length - (i + 1))) := by
        refine KvCacheManager.footprint_free (fun hvic => ?_)
        exact absurd ((hnd.mem_take_iff hvictim).mp hvic) (lt_irrefl _)
      have htotal : (p.sched.cache.free victim.id).totalBlocks = p.sched.cache.totalBlocks :=
        KvCacheManager.Moves.totalBlocks (KvCacheManager.free_moves False _ _)
      change (p.sched.cache.free victim.id).freeBlocks
        + (p.sched.cache.free victim.id).footprint _
          = (p.sched.cache.free victim.id).totalBlocks at hall₁
      change (p.sched.cache.free victim.id).freeBlocks ≤ 1 at hle
      omega
    · have hij' : i < j := hij
      have hstep := hev.single j hij h2
      rw [hshift _ (by omega) (by omega), hshift _ (by omega) (by omega)] at hstep
      omega

/-- **A decode pass that evicts everybody evicts at each turn.** The induction
is on the candidates left, with the turn as `i`: then the `i` newest of the
sequences are gone, and candidate number `i` is next. -/
theorem decodeLoop_evictsFrom {ids : List SequenceId} (hnd : ids.Nodup)
    (cands : List (SequenceId × ℕ)) :
    ∀ (i : ℕ) {p : Pass KvCacheManager}, p.sched.Sound → p.DecodeGuard cands →
      (∀ r ∈ p.sched.running, r.state = .decoding) →
      p.sched.running.map Sequence.id = ids.take (ids.length - i) →
      cands.map Prod.fst = ids.drop i → (p.decodeLoop cands).sched.running = [] →
      p.sched.cache.EvictsFrom ids i := by
  induction cands with
  | nil =>
    intro i p _ _ _ _ hcands _
    have hlen : ids.length ≤ i := List.drop_eq_nil_iff.mp hcands.symm
    exact ⟨fun h => by omega, fun j hj h => by omega, fun j hj h => by omega⟩
  | cons c cands ih =>
    obtain ⟨id, totalLen⟩ := c
    intro i p hs hguard hdecoding hrun hcands hnil
    have hi : ids[i]? = some id := by
      rw [← List.head?_drop, ← hcands]
      rfl
    obtain ⟨hlt, -⟩ := List.getElem?_eq_some_iff.mp hi
    have hrest : cands.map Prod.fst = ids.drop (i + 1) := by
      rw [← List.tail_drop, ← hcands]
      rfl
    have hlenrun : p.sched.running.length = ids.length - i := by
      have hlen := congrArg List.length hrun
      rw [List.length_map, List.length_take, min_eq_left (Nat.sub_le _ _)] at hlen
      exact hlen
    rcases decodeLoop_turn hs hguard with ⟨hloop, -⟩ | ⟨p', hturn, hs', hguard', hloop⟩
    · -- the pass has stopped with somebody running
      rw [hloop] at hnil
      rw [hnil, List.length_nil] at hlenrun
      omega
    rw [hloop] at hnil
    have hfull := (hturn.footprint hs []).2
    cases hturn with
    | @grown m answer result =>
      -- too few candidates are left
      obtain ⟨gone, hgone, -, hlen⟩ := decodeLoop_gone cands hs' hguard'
      rw [hnil, List.nil_append] at hgone
      have hsame : p'.sched.running = p.sched.running := by rw [result]; rfl
      have hcount := congrArg List.length hrest
      rw [List.length_map, List.length_drop] at hcount
      rw [← hgone, hsame, hlenrun] at hlen
      omega
    | @evicted p₁ e refusal eviction next =>
      have hrun' : p'.sched.running = p₁.sched.running := by
        rcases next with ⟨c, -, rfl⟩ | ⟨-, rfl⟩
        · rfl
        · rfl
      obtain ⟨older, victim, hsplit, hp₁⟩ := preemptOne_eq_some eviction
      have holder : p₁.sched.running = older := by rw [hp₁]
      have hrun₁ : p₁.sched.running.map Sequence.id = ids.take (ids.length - (i + 1)) := by
        rw [hsplit, List.map_append,
          show ids.length - i = ids.length - (i + 1) + 1 by omega] at hrun
        rw [holder]
        exact (List.eq_take_of_concat hrun (by omega)).1
      have hdecoding' : ∀ r ∈ p'.sched.running, r.state = .decoding := by
        rw [hrun', holder]
        exact fun r hr => hdecoding r (hsplit ▸ List.mem_append_left _ hr)
      have hev := ih (i + 1) hs' hguard' hdecoding' (by rw [hrun']; exact hrun₁) hrest hnil
      exact evictsFrom_of_evicted hnd hi hs hdecoding hrun hrun₁ refusal eviction next hfull hev

/-! ## The admission loop -/

/-- **The first so many sequences are kept**: they still run, the evictions
are not theirs, and their tables stay. -/
structure KeepsFirst (p p' : Pass KvCacheManager) (first : List (SequenceId × List TokenId)) :
    Prop where
  running : first.length ≤ p'.sched.running.length
  preempted : ∀ x ∈ first, x.1 ∈ p'.out.preempted → x.1 ∈ p.out.preempted
  tables : ∀ x ∈ first, p'.sched.cache.tables.lookup x.1 = p.sched.cache.tables.lookup x.1

theorem KeepsFirst.refl {first : List (SequenceId × List TokenId)}
    (hlen : first.length ≤ p.sched.running.length) : p.KeepsFirst p first :=
  ⟨hlen, fun _ _ h => h, fun _ _ => rfl⟩

theorem KeepsFirst.trans {p' p'' : Pass KvCacheManager} {first : List (SequenceId × List TokenId)}
    (h : p.KeepsFirst p' first) (h' : p'.KeepsFirst p'' first) : p.KeepsFirst p'' first where
  running := h'.running
  preempted x hx hmem := h.preempted x hx (h'.preempted x hx hmem)
  tables x hx := (h'.tables x hx).trans (h.tables x hx)

/-- The first so many in the order of service run, when so many run. -/
theorem first_running {first rest : List (SequenceId × List TokenId)}
    (hroster : p.sched.roster = first ++ rest) (hlen : first.length ≤ p.sched.running.length) :
    first = (p.sched.running.map (fun q => (q.id, q.prompt))).take first.length := by
  have htake := congrArg (List.take first.length) hroster
  unfold Scheduler.roster at htake
  rw [List.map_append, List.take_left,
    List.take_append_of_le_length (by rw [List.length_map]; exact hlen)] at htake
  exact htake.symm

section NextFits

variable {first rest : List (SequenceId × List TokenId)} {v : SequenceId × List TokenId}

/-- **The sequence after the first so many fits next to them.** -/
structure NextFits (p : Pass KvCacheManager) (first : List (SequenceId × List TokenId))
    (v : SequenceId × List TokenId) (rest : List (SequenceId × List TokenId)) : Prop where
  sound : p.sched.Sound
  roster : p.sched.roster = first ++ v :: rest
  fits : p.sched.cache.blocksNeededFor v.2.length
    + p.sched.cache.footprint (first.map Prod.fst) ≤ p.sched.cache.totalBlocks

/-- The pool, the footprint and the order of service after a move. -/
theorem NextFits.move {p' : Pass KvCacheManager} (h : p.NextFits first v rest)
    (hm : PassMove p p') (hkept : p.KeepsFirst p' first) : p'.NextFits first v rest := by
  obtain ⟨hbs, htotal⟩ := PassMoves.poolSize (Relation.ReflTransGen.single hm) h.sound
  refine ⟨hm.sound h.sound, hm.roster.trans h.roster, ?_⟩
  have hsame : p'.sched.cache.footprint (first.map Prod.fst)
      = p.sched.cache.footprint (first.map Prod.fst) := by
    refine AList.footprint_congr (fun a ha => ?_)
    obtain ⟨x, hx, rfl⟩ := List.mem_map.mp ha
    exact hkept.tables x hx
  have hfits := h.fits
  unfold KvCacheManager.blocksNeededFor at hfits ⊢
  rw [hsame, hbs, htotal]
  exact hfits

/-- Whoever comes in is not among the first. -/
theorem NextFits.bringIn (h : p.NextFits first v rest)
    (hlen : first.length ≤ p.sched.running.length) {seq : Sequence} {rest' : List Sequence}
    (hwait : p.sched.waiting = seq :: rest') (chunk : ℕ) {c : KvCacheManager}
    (htables : ∀ id, id ≠ seq.id → c.tables.lookup id = p.sched.cache.tables.lookup id) :
    p.KeepsFirst ((p.withCache c).bringIn seq rest' chunk) first := by
  refine ⟨?_, fun x hx h => h, fun x hx => htables x.1 ?_⟩
  · show _ ≤ (p.sched.running ++ [_]).length
    rw [List.length_append]
    exact hlen.trans (Nat.le_add_right _ _)
  · rw [first_running h.roster hlen] at hx
    obtain ⟨r, hr, rfl⟩ := List.mem_map.mp (List.mem_of_mem_take hx)
    exact h.sound.apart hr (hwait ▸ List.mem_cons_self)

/-- When the head of the queue does not fit it is not the one after the first,
so that one runs. -/
theorem NextFits.length_le_older (h : p.NextFits first v rest)
    (hlen : first.length ≤ p.sched.running.length) {older : List Sequence} {victim : Sequence}
    (hrun : p.sched.running = older ++ [victim]) {seq : Sequence} {rest' : List Sequence}
    (hwait : p.sched.waiting = seq :: rest')
    (hfull : ¬ KvCacheManagerLike.canAllocate p.sched.cache seq.promptLen = true) :
    first.length ≤ older.length := by
  by_contra hgt
  have hroster := h.roster
  have hall : first.length = p.sched.running.length := by
    rw [hrun, List.length_append, List.length_singleton] at hlen ⊢
    omega
  have hrunning : first = p.sched.running.map (fun q => (q.id, q.prompt)) := by
    rw [first_running hroster hlen, List.take_of_length_le]
    rw [List.length_map]
    exact hall.ge
  have hhead : v = (seq.id, seq.prompt) := by
    unfold Scheduler.roster at hroster
    rw [List.map_append, hwait, ← hrunning] at hroster
    exact (List.cons.inj (List.append_cancel_left hroster)).1.symm
  have hids : p.sched.running.map Sequence.id = first.map Prod.fst := by
    rw [hrunning, List.map_map]
    rfl
  have hfree := h.sound.freeBlocks_add
  have hfits := h.fits
  rw [hids] at hfree
  rw [hhead] at hfits
  refine hfull (decide_eq_true ?_)
  show p.sched.cache.blocksNeededFor seq.prompt.length ≤ p.sched.cache.freeBlocks
  change p.sched.cache.blocksNeededFor seq.prompt.length
    + p.sched.cache.footprint (first.map Prod.fst) ≤ p.sched.cache.totalBlocks at hfits
  omega

/-- An eviction keeps the first so many, if they are older than the victim. -/
theorem NextFits.evicted (h : p.NextFits first v rest)
    (hlen : first.length ≤ p.sched.running.length) {older : List Sequence} {victim : Sequence}
    (hrun : p.sched.running = older ++ [victim]) (hshort : first.length ≤ older.length)
    {p₁ : Pass KvCacheManager} (hrun₁ : p₁.sched.running = older)
    (hcache : p₁.sched.cache = p.sched.cache.free victim.id)
    (hpre : p₁.out.preempted = p.out.preempted ++ [victim.id]) : p.KeepsFirst p₁ first := by
  have hnot : ∀ x ∈ first, x.1 ≠ victim.id := by
    intro x hx heq
    rw [first_running h.roster hlen, hrun, List.map_append,
      List.take_append_of_le_length (by rw [List.length_map]; exact hshort)] at hx
    obtain ⟨r, hr, rfl⟩ := List.mem_map.mp (List.mem_of_mem_take hx)
    exact List.key_ne_of_append (hrun ▸ h.sound.nodup_running) hr (List.mem_singleton_self _) heq
  refine ⟨hrun₁ ▸ hshort, fun x hx hmem => ?_, fun x hx => ?_⟩
  · rw [hpre] at hmem
    rcases List.mem_append.mp hmem with hmem | hmem
    · exact hmem
    · exact absurd (List.mem_singleton.mp hmem) (hnot x hx)
  · rw [hcache, KvCacheManager.lookup_free, if_neg (hnot x hx)]

/-- **The admission loop keeps the first so many sequences**, and does not touch
them, when the one after them fits next to them. It runs, so that it is
evicted before they are, or it is the head of the queue, and admitted. -/
theorem admissionLoop_keeps (p : Pass KvCacheManager) (h : p.NextFits first v rest)
    (hlen : first.length ≤ p.sched.running.length) :
    p.KeepsFirst p.admissionLoop first
    ∧ p.admissionLoop.sched.running.take first.length = p.sched.running.take first.length := by
  fun_induction admissionLoop p with
  | case1 p hstop => exact ⟨.refl hlen, rfl⟩
  | case2 p hgo hnil => exact ⟨.refl hlen, rfl⟩
  | case3 p hgo seq rest' hwait hc => exact ⟨.refl hlen, rfl⟩
  | case4 p hgo seq rest' hwait hc => exact ⟨.refl hlen, rfl⟩
  | case5 p hgo seq rest' hwait chunk hc hpos hfirst hcan c hok ih =>
    obtain ⟨hslot, hroom⟩ := not_or.mp hgo
    obtain ⟨hle, hinroom⟩ := chunkFor_le hc
    have hmove : PassMove p ((p.withCache c).bringIn seq rest' chunk) :=
      .admitted hwait hfirst (not_le.mp hslot) (Nat.pos_of_ne_zero hpos)
        (hle.trans (Nat.sub_le _ _)) hinroom hok rfl
    obtain ⟨-, t, hadmits⟩ := KvCacheManager.like_allocate_ok h.sound.settled hok
    have hkept := h.bringIn hlen hwait chunk (c := c)
      (fun id hid => by rw [hadmits.tables, AList.lookup_insert_ne hid])
    obtain ⟨hrest, htake⟩ := ih (h.move hmove hkept) hkept.running
    exact ⟨hkept.trans hrest, htake.trans (List.take_append_of_le_length hlen)⟩
  | case6 p hgo seq rest' hwait chunk hc hpos hfirst hcan c e herr =>
    exact absurd herr (h.sound.allocate_ne_error (hwait ▸ List.mem_cons_self) hcan)
  | case7 p hgo seq rest' hwait chunk hc hpos hfirst hcan hev => exact ⟨.refl hlen, rfl⟩
  | case8 p hgo seq rest' hwait chunk hc hpos hfirst hcan p₁ hev ih =>
    have hmove : PassMove p p₁ := .evicted hev
    obtain ⟨older, victim, hrun, hp₁⟩ := preemptOne_eq_some hev
    have hshort := h.length_le_older hlen hrun hwait hcan
    have hkept : p.KeepsFirst p₁ first :=
      h.evicted hlen hrun hshort (by rw [hp₁]) (by rw [hp₁]; rfl) (by rw [hp₁])
    obtain ⟨hrest, htake⟩ := ih (h.move hmove hkept) hkept.running
    refine ⟨hkept.trans hrest, htake.trans ?_⟩
    rw [hrun, hp₁]
    exact (List.take_append_of_le_length hshort).symm
  | case9 p hgo seq rest' hwait chunk hc hpos hfirst ih =>
    obtain ⟨hslot, hroom⟩ := not_or.mp hgo
    obtain ⟨hle, hinroom⟩ := chunkFor_le hc
    have hmove : PassMove p (p.bringIn seq rest' chunk) :=
      .readmitted hwait hfirst (not_le.mp hslot) (Nat.pos_of_ne_zero hpos) hle hinroom rfl
    have hkept : p.KeepsFirst (p.bringIn seq rest' chunk) first :=
      h.bringIn hlen hwait chunk (c := p.sched.cache) (fun _ _ => rfl)
    obtain ⟨hrest, htake⟩ := ih (h.move hmove hkept) hkept.running
    exact ⟨hkept.trans hrest, htake.trans (List.take_append_of_le_length hlen)⟩

end NextFits

/-- And so does the prefill pass, whose partial prefills evict nobody. -/
theorem schedulePrefills_keepsFirst {first rest : List (SequenceId × List TokenId)}
    {v : SequenceId × List TokenId} (p : Pass KvCacheManager) (hs : p.sched.Sound)
    (hroster : p.sched.roster = first ++ v :: rest)
    (hlen : first.length ≤ p.sched.running.length)
    (hfits : p.sched.cache.blocksNeededFor v.2.length
      + p.sched.cache.footprint (first.map Prod.fst) ≤ p.sched.cache.totalBlocks) :
    p.KeepsFirst p.schedulePrefills first := by
  have hr := p.schedulePartialPrefills_resumes
  have hmoves := partialLoop_moves (partialCandidates p.sched.running) p.partialGuard_candidates
  have hs₁ : p.schedulePartialPrefills.sched.Sound := PassMoves.sound hmoves hs
  have hroster₁ : p.schedulePartialPrefills.sched.roster = first ++ v :: rest := by
    rw [← hroster, ← Scheduler.map_contents, ← Scheduler.map_contents]
    exact congrArg _ (PassMoves.contents hmoves)
  have hkept : p.KeepsFirst p.schedulePartialPrefills first := by
    refine ⟨by rw [hr.length]; exact hlen, fun x _ hmem => ?_, fun x _ => ?_⟩
    · rw [← hr.preempted]
      exact hmem
    · rw [hr.cache]
  refine hkept.trans (admissionLoop_keeps _ ⟨hs₁, hroster₁, ?_⟩ hkept.running).1
  rw [hr.cache]
  exact hfits

/-! ## The oldest sequence in the decode pass -/

/-- **A decode pass leaves somebody** unless each of its turns evicts. -/
theorem scheduleDecodes_leaves (hs : p.sched.Sound)
    (hnot : ¬ ((∀ r ∈ p.sched.running, r.state = .decoding)
      ∧ p.sched.cache.EvictsFrom (p.sched.running.map Sequence.id) 0)) :
    p.scheduleDecodes.sched.running ≠ [] := by
  intro hnil
  refine hnot ?_
  have hguard := p.decodeGuard_candidates
  obtain ⟨gone, hgone, -, hlen⟩ := decodeLoop_gone (decodeCandidates p.sched.running) hs hguard
  have hnil' : (p.decodeLoop (decodeCandidates p.sched.running)).sched.running = [] := hnil
  rw [hnil', List.nil_append] at hgone
  -- there are as many candidates as sequences
  have hall : ∀ r ∈ p.sched.running, r.state = .decoding := by
    unfold decodeCandidates at hlen
    rw [← hgone, List.length_map] at hlen
    have heq := List.length_filter_eq_length_iff.mp
      (le_antisymm (List.length_filter_le _ _) hlen)
    exact fun r hr => of_decide_eq_true (heq r hr)
  refine ⟨hall, decodeLoop_evictsFrom hs.nodup_running _ 0 hs hguard hall ?_ ?_ hnil'⟩
  · rw [Nat.sub_zero, List.take_length]
  · unfold decodeCandidates
    rw [List.filter_eq_self.mpr (fun r hr => decide_eq_true (hall r hr)), List.map_map,
      List.drop_zero]
    rfl

/-- Who still runs after a decode pass has not been evicted by it. -/
theorem not_preempted_of_mem (hs : p.sched.Sound) {r : Sequence}
    (hr : r ∈ p.scheduleDecodes.sched.running) (hid : r.id ∈ p.scheduleDecodes.out.preempted) :
    r.id ∈ p.out.preempted := by
  obtain ⟨gone, hgone, hpre, -⟩ := decodeLoop_gone (decodeCandidates p.sched.running) hs
    p.decodeGuard_candidates
  have hpre' : p.scheduleDecodes.out.preempted
      = p.out.preempted ++ (gone.map Sequence.id).reverse := hpre
  rw [hpre'] at hid
  rcases List.mem_append.mp hid with hid | hid
  · exact hid
  obtain ⟨q, hq, hqid⟩ := List.mem_map.mp (List.mem_reverse.mp hid)
  exact absurd hqid.symm (List.key_ne_of_append (hgone ▸ hs.nodup_running) hr hq)

end Pass

/-! ## Whole calls -/

namespace Scheduler

variable {s : Scheduler KvCacheManager}

/-- **Room beside the first `k`**: the prompt of the sequence after the first
`k` in the order of service fits next to what these hold and `growth` blocks
more. -/
def RoomBeside (s : Scheduler KvCacheManager) (k growth : ℕ) : Prop :=
  ∃ v, s.queue[k]? = some v ∧ s.cache.blocksNeededFor v.promptLen
    + (s.cache.footprint ((s.queue.take k).map Sequence.id) + growth) ≤ s.cache.totalBlocks

/-- The blocks that the decoders among the first `k` sequences need for their
next tokens. -/
def growth (s : Scheduler KvCacheManager) (k : ℕ) : ℕ :=
  (s.running.take k).countP (fun r => r.state = .decoding ∧ s.cache.isFull r.id = true)

/-- **The oldest running sequence is out of danger.** With the decode pass
first: some turn of it does not evict, and the second sequence fits next to
the oldest; or the decode pass evicts nobody, and for some `k` sequence number
`k + 1` fits next to the first `k`. With the prefill pass first: its
admissions have room in turn, and it uses up the budget or leaves a decode
pass some turn of which does not evict; or for some `k` sequence number
`k + 1` fits next to the first `k`, and the oldest sequence has room in its
last block. -/
def KeepsOldest (s : Scheduler KvCacheManager) : Prop :=
  if s.config.prioritizeDecode then
    (s.RoomBeside 1 (s.growth 1) ∧ ¬ ((∀ r ∈ s.running, r.state = .decoding)
      ∧ s.cache.EvictsFrom (s.running.map Sequence.id) 0))
    ∨ (Grows s.cache (s.decodes.map Prod.fst)
      ∧ ∃ k, 0 < k ∧ k ≤ s.running.length ∧ s.RoomBeside k (s.growth k))
  else
    (Fits s.cache (s.admissions s.prefillRoom) ∧ (s.decodeQuota = 0
      ∨ ¬ (allocateAll s.cache (s.admissions s.prefillRoom)).EvictsFrom
        (s.running.map Sequence.id ++ (s.admissions s.prefillRoom).map (fun x => x.1.id)) 0))
    ∨ ((∃ k, 0 < k ∧ k ≤ s.running.length ∧ s.RoomBeside k 0)
      ∧ ∀ oldest, s.running.head? = some oldest → s.cache.isFull oldest.id = false)

namespace Sound

/-- The first `k` in the order of service are the oldest `k` that run. -/
theorem first_queue (s : Scheduler KvCacheManager) {k : ℕ} (hk : k ≤ s.running.length)
    {v : Sequence} (hv : s.queue[k]? = some v) :
    s.roster = (s.running.take k).map (fun q => (q.id, q.prompt))
      ++ (v.id, v.prompt) :: (s.queue.drop (k + 1)).map (fun q => (q.id, q.prompt)) := by
  obtain ⟨hlt, hget⟩ := List.getElem?_eq_some_iff.mp hv
  have hsplit : s.queue = s.running.take k ++ v :: s.queue.drop (k + 1) := by
    have htake : s.queue.take k = s.running.take k := List.take_append_of_le_length hk
    rw [← htake, ← hget, List.cons_getElem_drop_succ, List.take_append_drop]
  show s.queue.map _ = _
  conv_lhs => rw [hsplit]
  rw [List.map_append, List.map_cons]

/-- **Prefill pass**: the oldest `k` are kept when there is room beside
them. -/
theorem schedulePrefills_keepsFirst (h : s.Sound) {k : ℕ} (hk : k ≤ s.running.length)
    (hroom : s.RoomBeside k 0) : s.pass.KeepsFirst s.pass.schedulePrefills
      ((s.running.take k).map (fun q => (q.id, q.prompt))) := by
  obtain ⟨v, hv, hfits⟩ := hroom
  refine Pass.schedulePrefills_keepsFirst s.pass h (first_queue s hk hv) ?_ ?_
  · rw [List.length_map, List.length_take]
    exact min_le_right _ _
  · rw [List.map_map]
    have htake : s.queue.take k = s.running.take k := List.take_append_of_le_length hk
    rw [htake, Nat.add_zero] at hfits
    exact hfits

/-- **What a decode pass does to the footprint of the oldest `k`**: it adds a
block for each decoder among them that is full, at most. -/
theorem scheduleDecodes_footprint (h : s.Sound) {k : ℕ} (hk : k ≤ s.running.length) :
    s.pass.scheduleDecodes.sched.cache.footprint ((s.queue.take k).map Sequence.id)
      ≤ s.cache.footprint ((s.queue.take k).map Sequence.id) + s.growth k := by
  have hfoot := Pass.decodeLoop_footprint ((s.queue.take k).map Sequence.id)
    (Pass.decodeCandidates s.running) h s.pass.decodeGuard_candidates
    (h.nodup_running.sublist (by
      unfold Pass.decodeCandidates
      rw [List.map_map]
      exact List.filter_sublist.map _))
  have htake : s.queue.take k = s.running.take k := List.take_append_of_le_length hk
  refine hfoot.trans (Nat.add_le_add_left ?_ _)
  -- the candidates that count are among the first `k`
  unfold Pass.decodeCandidates growth
  rw [List.countP_map, List.countP_filter, htake]
  conv_lhs => rw [← List.take_append_drop k s.running, List.countP_append]
  have hnone : (s.running.drop k).countP (fun r =>
      ((fun c : SequenceId × ℕ => decide (c.1 ∈ (s.running.take k).map Sequence.id
        ∧ s.cache.isFull c.1 = true)) ∘ fun q : Sequence => (q.id, q.totalLen)) r
        && decide (r.state = .decoding)) = 0 := by
    refine List.countP_eq_zero.mpr (fun r hr hand => ?_)
    obtain ⟨hin, -⟩ := of_decide_eq_true (Bool.and_eq_true_iff.mp hand).1
    have hnd := h.nodup_running
    rw [← List.take_append_drop k s.running, List.map_append] at hnd
    exact (List.nodup_append.mp hnd).2.2 _ hin _ (List.mem_map_of_mem hr) rfl
  have hpass : s.pass.sched.cache = s.cache := rfl
  rw [List.take_append_drop, hpass, hnone, Nat.add_zero]
  refine List.countP_mono_left (fun r _ hand => ?_)
  obtain ⟨hin, hstate⟩ := Bool.and_eq_true_iff.mp hand
  exact decide_eq_true ⟨of_decide_eq_true hstate, (of_decide_eq_true hin).2⟩

/-- **Decode pass first**: the oldest `k` are kept by a call when the decode
pass leaves them and there is room beside them, with the next token of each
decoder among them. -/
theorem not_preempted_decode_first (h : s.Sound) (hfirst : s.config.prioritizeDecode = true)
    {k : ℕ} (hk : k ≤ s.pass.scheduleDecodes.sched.running.length)
    (hroom : s.RoomBeside k (s.growth k)) :
    ∀ r ∈ s.running.take k, r.id ∉ s.schedule.2.preempted := by
  obtain ⟨v, hv, hfits⟩ := hroom
  have hpasses : s.passes = s.pass.scheduleDecodes.schedulePrefills := if_pos hfirst
  have hguard := s.pass.decodeGuard_candidates
  obtain ⟨gone, hgone, -, -⟩ := Pass.decodeLoop_gone (Pass.decodeCandidates s.running) h hguard
  have hgone' : s.running = s.pass.scheduleDecodes.sched.running ++ gone := hgone
  have hle : k ≤ s.running.length := by
    rw [hgone', List.length_append]
    exact hk.trans (Nat.le_add_right _ _)
  have hgrown := h.scheduleDecodes_footprint hle
  set p := s.pass.scheduleDecodes with hp
  have hmoves : PassMoves s.pass p := Pass.scheduleDecodes_moves _
  have hs : p.sched.Sound := PassMoves.sound hmoves h
  have htake : s.queue.take k = s.running.take k := List.take_append_of_le_length hle
  have htake' : s.running.take k = p.sched.running.take k := by
    rw [hgone', List.take_append_of_le_length hk]
  obtain ⟨hbs, htotal⟩ := PassMoves.poolSize hmoves h
  have hroster : p.sched.roster = (s.running.take k).map (fun q => (q.id, q.prompt))
      ++ (v.id, v.prompt) :: (s.queue.drop (k + 1)).map (fun q => (q.id, q.prompt)) := by
    rw [← first_queue s hle hv, ← Scheduler.map_contents, ← Scheduler.map_contents]
    exact congrArg _ (PassMoves.contents hmoves)
  have hkept : p.KeepsFirst p.schedulePrefills
      ((s.running.take k).map (fun q => (q.id, q.prompt))) := by
    refine Pass.schedulePrefills_keepsFirst p hs hroster ?_ ?_
    · rw [List.length_map, List.length_take]
      exact (min_le_left _ _).trans hk
    · have hids : ((s.running.take k).map (fun q => (q.id, q.prompt))).map Prod.fst
          = (s.queue.take k).map Sequence.id := by
        rw [htake, List.map_map]
        rfl
      have hsize : p.sched.cache.blocksNeededFor v.prompt.length
          = s.cache.blocksNeededFor v.promptLen := congrArg (BlockTable.blocksRequired _) hbs
      have htotal : p.sched.cache.totalBlocks = s.cache.totalBlocks := htotal
      rw [hids, hsize, htotal]
      exact (Nat.add_le_add_left hgrown _).trans hfits
  intro r hr hmem
  have hmem : r.id ∈ p.schedulePrefills.out.preempted := by
    rw [← hpasses]
    exact hmem
  have hin := hkept.preempted (r.id, r.prompt) (List.mem_map_of_mem hr) hmem
  rw [htake'] at hr
  exact absurd (Pass.not_preempted_of_mem (p := s.pass) h (List.mem_of_mem_take hr) hin)
    List.not_mem_nil

/-- A call with the decode pass first. -/
theorem oldest_decode_first (h : s.Sound) (hfirst : s.config.prioritizeDecode = true)
    {oldest : Sequence} {rest : List Sequence} (hrun : s.running = oldest :: rest)
    (hc : (s.RoomBeside 1 (s.growth 1) ∧ ¬ ((∀ r ∈ s.running, r.state = .decoding)
        ∧ s.cache.EvictsFrom (s.running.map Sequence.id) 0))
      ∨ (Grows s.cache (s.decodes.map Prod.fst)
        ∧ ∃ k, 0 < k ∧ k ≤ s.running.length ∧ s.RoomBeside k (s.growth k))) :
    oldest.id ∉ s.schedule.2.preempted := by
  have hmem : ∀ {k}, 0 < k → oldest ∈ s.running.take k := by
    intro k hk
    obtain ⟨j, rfl⟩ := Nat.exists_eq_succ_of_ne_zero hk.ne'
    rw [hrun]
    exact List.mem_cons_self
  rcases hc with ⟨hroom, hnot⟩ | ⟨hgrows, k, hpos, hk, hroom⟩
  · have hne := Pass.scheduleDecodes_leaves (p := s.pass) h hnot
    refine h.not_preempted_decode_first hfirst ?_ hroom _ (hmem Nat.one_pos)
    exact List.length_pos_iff.mpr hne
  · have hquota : s.decodeQuota = s.pass.budget - s.pass.used := if_pos hfirst
    unfold decodes at hgrows
    rw [hquota] at hgrows
    have hd := Pass.decodeLoop_calm (p := s.pass) (Pass.decodeCandidates s.running) hgrows
    refine h.not_preempted_decode_first hfirst ?_ hroom _ (hmem hpos)
    exact hk.trans (congrArg List.length hd.running).ge

/-- The decode pass of a call with the prefill pass first. -/
theorem oldest_decodes_last (h : s.Sound) {p : Pass KvCacheManager} (hmoves : PassMoves s.pass p)
    (hpasses : s.passes = p.scheduleDecodes) {oldest : Sequence} {rest : List Sequence}
    (hrun : s.running = oldest :: rest)
    (hkept : oldest.id ∉ p.out.preempted)
    (hnot : ¬ p.sched.cache.EvictsFrom (p.sched.running.map Sequence.id) 0) :
    oldest.id ∉ s.schedule.2.preempted := by
  have hs : p.sched.Sound := PassMoves.sound hmoves h
  have hleft := Pass.scheduleDecodes_leaves hs (fun hand => hnot hand.2)
  obtain ⟨gone, hgone, -, -⟩ := Pass.decodeLoop_gone (Pass.decodeCandidates p.sched.running) hs
    p.decodeGuard_candidates
  have hgone' : p.sched.running = p.scheduleDecodes.sched.running ++ gone := hgone
  -- the head of the running queue is still the oldest sequence
  obtain ⟨r, others, hr⟩ := List.exists_cons_of_ne_nil hleft
  have hid : r.id = oldest.id := by
    have hids : p.sched.ids = s.ids := PassMoves.ids hmoves
    unfold ids at hids
    rw [hgone', hr, hrun] at hids
    exact (List.cons.inj hids).1
  intro hmem
  have hmem : oldest.id ∈ p.scheduleDecodes.out.preempted := by
    rw [← hpasses]
    exact hmem
  rw [← hid] at hmem hkept
  exact hkept (Pass.not_preempted_of_mem hs (hr ▸ List.mem_cons_self) hmem)

/-- **A prefill pass that comes first** and whose admissions have room: it is
followed by nothing if there is no room left for decode entries, and by a decode pass
over the sequences that ran and those it admitted otherwise. -/
theorem prefills_first (h : s.Sound) (hlast : s.config.prioritizeDecode = false)
    (hfits : Fits s.cache (s.admissions s.prefillRoom)) :
    s.passes = s.pass.schedulePrefills.scheduleDecodes
    ∧ s.pass.schedulePrefills.out.preempted = []
    ∧ (s.decodeQuota = 0 → s.pass.schedulePrefills.budget ≤ s.pass.schedulePrefills.used)
    ∧ s.pass.schedulePrefills.sched.cache = allocateAll s.cache (s.admissions s.prefillRoom)
    ∧ s.pass.schedulePrefills.sched.running.map Sequence.id = s.running.map Sequence.id
      ++ (s.admissions s.prefillRoom).map (fun x => x.1.id) := by
  have hnot : ¬ s.config.prioritizeDecode = true := by rw [hlast]; simp
  have hroom : s.prefillRoom = s.pass.budget - s.pass.used := if_neg hnot
  rw [hroom] at hfits ⊢
  have hp := Pass.prefills_calm s.pass h hfits
  obtain ⟨hr, ht⟩ := s.pass.prefills_halves h hfits
  refine ⟨if_neg hnot, hp.preempted, fun hquota => ?_, hp.cache, ?_⟩
  · have hq : s.decodeQuota = s.config.maxNumBatchedTokens
      - s.prefillTokens s.config.maxNumBatchedTokens := if_neg hnot
    have hused : s.pass.schedulePrefills.used
      = 0 + s.prefillTokens (s.config.maxNumBatchedTokens - 0) := hp.used
    have hbudget : s.pass.schedulePrefills.budget = s.config.maxNumBatchedTokens :=
      congrArg SchedulerConfig.maxNumBatchedTokens hp.config
    rw [hbudget, hused, Nat.sub_zero, Nat.zero_add]
    exact Nat.le_of_sub_eq_zero (hq.symm.trans hquota)
  · have hpart : s.pass.schedulePartialPrefills.sched.running.map Sequence.id
        = s.running.map Sequence.id := by
      have hids : s.pass.schedulePartialPrefills.sched.ids = s.ids :=
        PassMoves.ids (Pass.partialLoop_moves _ s.pass.partialGuard_candidates)
      unfold ids at hids
      rw [hr.waiting, List.map_append, List.map_append] at hids
      exact List.append_cancel_right hids
    rw [ht.running, List.map_append, hpart, List.map_map]
    refine congrArg (_ ++ ·) (List.map_congr_left (fun x _ => ?_))
    exact Pass.prefilled_id x.1 x.2

/-- A call with the prefill pass first. -/
theorem oldest_prefill_first (h : s.Sound) (hlast : s.config.prioritizeDecode = false)
    {oldest : Sequence} {rest : List Sequence} (hrun : s.running = oldest :: rest)
    (hc : (Fits s.cache (s.admissions s.prefillRoom) ∧ (s.decodeQuota = 0
        ∨ ¬ (allocateAll s.cache (s.admissions s.prefillRoom)).EvictsFrom
          (s.running.map Sequence.id ++ (s.admissions s.prefillRoom).map (fun x => x.1.id)) 0))
      ∨ ((∃ k, 0 < k ∧ k ≤ s.running.length ∧ s.RoomBeside k 0)
        ∧ ∀ r, s.running.head? = some r → s.cache.isFull r.id = false)) :
    oldest.id ∉ s.schedule.2.preempted := by
  have hnot : ¬ s.config.prioritizeDecode = true := by rw [hlast]; simp
  have hpasses : s.passes = s.pass.schedulePrefills.scheduleDecodes := if_neg hnot
  have hmoves : PassMoves s.pass s.pass.schedulePrefills := Pass.schedulePrefills_moves _
  rcases hc with ⟨hfits, hrest⟩ | ⟨⟨k, hpos, hk, hbeside⟩, hfull⟩
  · obtain ⟨-, hpre, hspent, hcache, hids⟩ := h.prefills_first hlast hfits
    have hkept : oldest.id ∉ s.pass.schedulePrefills.out.preempted := by
      rw [hpre]
      exact List.not_mem_nil
    rcases hrest with hquota | hnotall
    · have hidle : s.passes = s.pass.schedulePrefills :=
        hpasses.trans (Pass.scheduleDecodes_idle (Or.inr (hspent hquota)))
      show oldest.id ∉ s.passes.out.preempted
      rw [hidle]
      exact hkept
    · refine h.oldest_decodes_last hmoves hpasses hrun hkept ?_
      rw [hids, hcache]
      exact hnotall
  · have hkeep := h.schedulePrefills_keepsFirst hk hbeside
    have hin : (oldest.id, oldest.prompt)
        ∈ (s.running.take k).map (fun q => (q.id, q.prompt)) := by
      obtain ⟨j, rfl⟩ := Nat.exists_eq_succ_of_ne_zero hpos.ne'
      rw [hrun]
      exact List.mem_cons_self
    have hne : s.pass.schedulePrefills.sched.running ≠ [] := by
      refine List.ne_nil_of_length_pos (lt_of_lt_of_le ?_ hkeep.running)
      exact List.length_pos_of_mem hin
    refine h.oldest_decodes_last hmoves hpasses hrun
      (fun hmem => absurd (hkeep.preempted _ hin hmem) List.not_mem_nil) (fun hall => ?_)
    -- the first turn would find the oldest sequence full
    obtain ⟨r, others, hr⟩ := List.exists_cons_of_ne_nil hne
    have hid : r.id = oldest.id := by
      have hids : s.pass.schedulePrefills.sched.ids = s.ids := PassMoves.ids hmoves
      unfold ids at hids
      rw [hr, hrun] at hids
      exact (List.cons.inj hids).1
    have hisfull := hall.full 0 le_rfl (by rw [hr]; simp) r.id (by rw [hr]; rfl)
    rw [hid, KvCacheManager.isFull_congr (hkeep.tables _ hin)
      (PassMoves.blockSize hmoves h)] at hisfull
    have hnotfull := hfull oldest (by rw [hrun]; rfl)
    exact absurd (hisfull.symm.trans hnotfull) (by simp)

end Sound

end Scheduler

namespace Service

variable {config : SchedulerConfig} {n bs firstId : ℕ} {flag : Bool} {v : Service KvCacheManager}

/-- **The oldest running sequence is safe** in every state of every run in
which nothing is in the way of the call, or the oldest sequence is out of
danger. Victims are taken from the end of the list, so what it takes is that the
others are not all used up before a decoder gets its block. -/
theorem oldest_not_preempted (hbs : 1 ≤ bs) (hn : n ≤ 2 ^ 32)
    (h : v.Reachable config (KvCacheManager.new n bs flag) firstId)
    {oldest second : Sequence} {rest : List Sequence}
    (hrun : v.sched.running = oldest :: second :: rest)
    (hc : v.sched.Calm ∨ v.sched.KeepsOldest) :
    oldest.id ∉ v.sched.schedule.2.preempted := by
  have hs := (h.sound hbs hn).sched
  rcases hc with hcalm | hkeeps
  · rw [hs.calm_preempted hcalm]
    exact List.not_mem_nil
  unfold Scheduler.KeepsOldest at hkeeps
  split at hkeeps
  · next hfirst => exact hs.oldest_decode_first hfirst hrun hkeeps
  · next hlast => exact hs.oldest_prefill_first (by simpa using hlast) hrun hkeeps

/-- Two prompts of a block each in a cache of two blocks, both through. -/
def twoFull : Service KvCacheManager :=
  SchedulerOp.runAll (.start {} (KvCacheManager.new 2 4 true) 1)
    [.addRequest [1, 2, 3, 4] {} 0, .addRequest [5, 6, 7, 8] {} 0, .schedule]

/-- **The oldest running sequence is evicted**: the decode pass evicts the
newer one, which makes room for the older one to grow, and the turn of the
newer one evicts the older one. -/
theorem oldest_preempted :
    SchedulerConfig.validate {} = .ok ()
    ∧ twoFull.Reachable {} (KvCacheManager.new 2 4 true) 1
    ∧ twoFull.sched.running.map Sequence.id = [⟨1⟩, ⟨2⟩]
    ∧ twoFull.sched.schedule.2.preempted = [⟨2⟩, ⟨1⟩] :=
  ⟨by decide, Reachable.start.runAll _, by decide +kernel, by decide +kernel⟩

/-- A full sequence and two short ones in a cache of three blocks. -/
def fullAndTwo : Service KvCacheManager :=
  SchedulerOp.runAll (.start { maxNumSeqs := 4, maxNumBatchedTokens := 16 }
      (KvCacheManager.new 3 4 true) 1)
    [.addRequest [1, 2, 3, 4] {} 0, .addRequest [5, 6] {} 0, .addRequest [7, 8] {} 0, .schedule]

/-- The newest sequence is evicted for the oldest one, and in its own turn
evicts the second one, which fits next to the oldest one again. -/
theorem oldest_not_preempted_fullAndTwo :
    (⟨1⟩ : SequenceId) ∉ fullAndTwo.sched.schedule.2.preempted := by
  have hreach : fullAndTwo.Reachable { maxNumSeqs := 4, maxNumBatchedTokens := 16 }
      (KvCacheManager.new 3 4 true) 1 := Reachable.start.runAll _
  have hids : fullAndTwo.sched.running.map (fun q => (q.id, q.promptLen))
      = [(⟨1⟩, 4), (⟨2⟩, 2), (⟨3⟩, 2)] := by decide +kernel
  obtain ⟨oldest, others, hrun, holdest, hothers⟩ := List.map_eq_cons_iff.mp hids
  obtain ⟨second, rest, rfl, hsecond, -⟩ := List.map_eq_cons_iff.mp hothers
  rw [← (Prod.mk.inj holdest).1]
  refine oldest_not_preempted (by decide) (by decide) hreach hrun (Or.inr ?_)
  unfold Scheduler.KeepsOldest
  rw [if_pos (by decide +kernel)]
  refine Or.inl ⟨⟨second, ?_, ?_⟩, fun hand => ?_⟩
  · unfold Scheduler.queue
    rw [hrun]
    rfl
  · rw [(Prod.mk.inj hsecond).2]
    decide +kernel
  have hfull := hand.2.full 1 (by decide) (by decide +kernel) ⟨2⟩ (by decide +kernel)
  exact absurd hfull (by decide +kernel)

end Service
