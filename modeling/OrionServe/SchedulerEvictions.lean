import OrionServe.SchedulerOldest

/-!
# For whom the decode pass evicts

An eviction of the decode pass is due when its candidate still runs, its
table is full and no block is free. The pass cannot tell: whatever the cache
answers, an append that is refused evicts the newest sequence. As long as the
candidate runs, the answer means what the pass takes it to mean. But the
candidates are collected before the first eviction, and a candidate that has
been evicted since has no table, so that its turn evicts somebody else.

Whether that happens can be read off the books before the pass: who runs, how
many blocks are free, how many entries there is room for. A full candidate
takes a free block; if there is none the newest sequence leaves, and the
blocks that only it holds are free. The books are right until the first
candidate whose turn comes after it has left, and that turn is the first
eviction that is not due.
-/

namespace Pass

section Evictions

variable {C : Type*} [KvCacheManagerLike C]

/-- **The evictions of a decode loop** in their order: for which candidate,
and the pass at that moment. -/
def decodeEvictions (p : Pass C) : List (SequenceId × ℕ) → List (SequenceId × Pass C)
  | [] => []
  | (id, totalLen) :: rest =>
    if p.budget ≤ p.used then []
    else
      match KvCacheManagerLike.appendToken p.sched.cache id with
      | (c, .ok ()) => decodeEvictions ((p.withCache c).emit (decodeEntry id totalLen)) rest
      | (c, .error _) =>
        match (p.withCache c).preemptOne with
        | none => []
        | some p₁ =>
          (id, p.withCache c) ::
            match KvCacheManagerLike.appendToken p₁.sched.cache id with
            | (c, .ok ()) =>
              decodeEvictions ((p₁.withCache c).emit (decodeEntry id totalLen)) rest
            | (c, .error _) => decodeEvictions (p₁.withCache c) rest

/-- Who is evicted next. -/
def victim (p : Pass C) : Option SequenceId := p.sched.running.getLast?.map Sequence.id

/-- **These are all of them**: their victims are what the loop adds to
`preempted`. -/
theorem decodeLoop_preempted (cands : List (SequenceId × ℕ)) : ∀ p : Pass C,
    (p.decodeLoop cands).out.preempted
      = p.out.preempted ++ (p.decodeEvictions cands).filterMap (fun e => e.2.victim) := by
  induction cands with
  | nil => exact fun p => (List.append_nil _).symm
  | cons c cands ih =>
    obtain ⟨id, totalLen⟩ := c
    intro p
    unfold decodeLoop decodeEvictions
    by_cases hstop : p.budget ≤ p.used
    · simp only [if_pos hstop]
      exact (List.append_nil _).symm
    simp only [if_neg hstop]
    rcases KvCacheManagerLike.appendToken p.sched.cache id with ⟨c, e | ⟨⟩⟩
    swap
    · exact ih _
    rcases hev : (p.withCache c).preemptOne with - | p₁
    · simp only [hev]
      exact (List.append_nil _).symm
    obtain ⟨older, gone, hrun, hp₁⟩ := preemptOne_eq_some hev
    have hpre : p₁.out.preempted = p.out.preempted ++ [gone.id] := by rw [hp₁]; rfl
    have hvictim : (p.withCache c).victim = some gone.id := by
      unfold victim
      rw [hrun, List.getLast?_concat]
      rfl
    simp only [hev, List.filterMap_cons, hvictim]
    rw [List.append_cons, ← hpre]
    rcases KvCacheManagerLike.appendToken p₁.sched.cache id with ⟨c', e | ⟨⟩⟩
    · exact ih _
    · exact ih _

end Evictions

variable {p p' : Pass KvCacheManager} {id : SequenceId}

/-- **An eviction for a candidate is due**: it runs, all slots of its blocks
are taken, and no block is free. Anything less and the eviction throws away what
a sequence has computed for nothing. -/
structure Due (p : Pass KvCacheManager) (id : SequenceId) : Prop where
  running : id ∈ p.sched.running.map Sequence.id
  full : ∃ t, p.sched.cache.blockTable id = some t
    ∧ t.numTokens = t.numBlocks * p.sched.cache.blockSize
  spent : p.sched.cache.freeBlocks = 0

/-- A candidate that runs has a table. -/
theorem DecodeGuard.table (hs : p.sched.Sound) {totalLen : ℕ} {cands : List (SequenceId × ℕ)}
    (hguard : p.DecodeGuard ((id, totalLen) :: cands))
    (hid : id ∈ p.sched.running.map Sequence.id) :
    ∃ t, p.sched.cache.tables.lookup id = some t := by
  obtain ⟨r, hr, rfl⟩ := List.mem_map.mp hid
  obtain ⟨hdecoding, -⟩ := hguard hs.nodup _ List.mem_cons_self r hr rfl
  exact (hs.resident hr (by simp [hdecoding])).table

/-- **A refusal to a candidate that has a table**: the eviction is due. -/
theorem due_of_refused (hs : p.sched.Sound) {e : EngineError} {t : BlockTable}
    (ht : p.sched.cache.tables.lookup id = some t)
    (refusal : p.sched.cache.appendToken id = (p.sched.cache, .error e)) :
    p.Due id ∧ p.sched.cache.isFull id = true := by
  obtain ⟨hfull, hfree⟩ := (hs.settled.append_refused refusal).resolve_left
    (fun hnone => absurd (hnone.symm.trans ht) (by simp))
  refine ⟨⟨hs.tables id t ht, ⟨t, ht, ?_⟩, hfree⟩, hfull⟩
  obtain ⟨u, hu, hlt⟩ := KvCacheManager.isFull_iff.mp hfull
  obtain rfl := Option.some.inj (ht.symm.trans hu)
  have hsized := hs.settled.sized ht
  obtain ⟨k, hk⟩ := (hsized.needs_block_iff hs.settled.blockSize).mp hlt
  rw [hsized.numBlocks, hk]
  unfold BlockTable.blocksRequired
  rw [← smul_eq_mul, smul_ceilDiv hs.settled.blockSize, smul_eq_mul, mul_comm]

/-- **The evictions turn by turn**: there are none left once the budget is
spent or nobody runs; otherwise a turn evicts for its candidate exactly if the
append is refused. -/
theorem decodeEvictions_turn (hs : p.sched.Sound) {totalLen : ℕ} {cands : List (SequenceId × ℕ)}
    (hguard : p.DecodeGuard ((id, totalLen) :: cands)) :
    (p.decodeEvictions ((id, totalLen) :: cands) = []
      ∧ (p.budget ≤ p.used ∨ p.sched.running = []))
    ∨ (p.used < p.budget ∧ p.sched.running ≠ []
      ∧ ∃ p', DecodeTurn p p' id totalLen ∧ p'.sched.Sound ∧ p'.DecodeGuard cands
        ∧ ((∃ c, p.sched.cache.appendToken id = (c, .ok ()))
            ∧ p.decodeEvictions ((id, totalLen) :: cands) = p'.decodeEvictions cands
          ∨ (∃ e, p.sched.cache.appendToken id = (p.sched.cache, .error e))
            ∧ p.decodeEvictions ((id, totalLen) :: cands)
              = (id, p) :: p'.decodeEvictions cands)) := by
  obtain ⟨evs, hevs⟩ : ∃ evs, evs = p.decodeEvictions ((id, totalLen) :: cands) := ⟨_, rfl⟩
  rw [← hevs]
  unfold decodeEvictions at hevs
  by_cases room : p.used < p.budget
  swap
  · rw [if_pos (not_lt.mp room)] at hevs
    exact Or.inl ⟨hevs, Or.inl (not_lt.mp room)⟩
  rw [if_neg (not_le.mpr room)] at hevs
  rcases happ : KvCacheManagerLike.appendToken p.sched.cache id with ⟨c, e | ⟨⟩⟩
  swap
  · -- the table grows at once
    rw [happ] at hevs
    obtain ⟨-, -, -, ⟨t, ht⟩, -⟩ := hs.settled.append_ok happ
    have hturn : DecodeTurn p ((p.withCache c).emit (decodeEntry id totalLen)) id totalLen :=
      .grown happ rfl
    obtain ⟨hs', hguard'⟩ := hturn.sound hs room hguard
    refine Or.inr ⟨room, fun hnil => ?_, _, hturn, hs', hguard', Or.inl ⟨⟨c, happ⟩, hevs⟩⟩
    have hmem := hs.tables id t ht
    rw [hnil] at hmem
    exact absurd hmem List.not_mem_nil
  obtain rfl := KvCacheManager.like_appendToken_error hs.settled happ
  have hsame : p.withCache p.sched.cache = p := rfl
  simp only [happ, hsame] at hevs
  rcases hev : p.preemptOne with - | p₁
  · rw [hev] at hevs
    exact Or.inl ⟨hevs, Or.inr (preemptOne_eq_none hev)⟩
  simp only [hev] at hevs
  have hs₁ := (PassMove.evicted hev).sound hs
  obtain ⟨victim, hrun, -⟩ := Evicted.of_preemptOne hev
  have hne : p.sched.running ≠ [] := by
    rw [hrun]
    exact List.append_ne_nil_of_right_ne_nil _ (List.cons_ne_nil _ _)
  rcases happ₁ : KvCacheManagerLike.appendToken p₁.sched.cache id with ⟨c, e' | ⟨⟩⟩
  · obtain rfl := KvCacheManager.like_appendToken_error hs₁.settled happ₁
    simp only [happ₁] at hevs
    have hturn : DecodeTurn p p₁ id totalLen := .evicted happ hev (Or.inr ⟨⟨e', happ₁⟩, rfl⟩)
    obtain ⟨hs', hguard'⟩ := hturn.sound hs room hguard
    exact Or.inr ⟨room, hne, _, hturn, hs', hguard', Or.inr ⟨⟨e, happ⟩, hevs⟩⟩
  · simp only [happ₁] at hevs
    have hturn : DecodeTurn p ((p₁.withCache c).emit (decodeEntry id totalLen)) id totalLen :=
      .evicted happ hev (Or.inl ⟨c, happ₁, rfl⟩)
    obtain ⟨hs', hguard'⟩ := hturn.sound hs room hguard
    exact Or.inr ⟨room, hne, _, hturn, hs', hguard', Or.inr ⟨⟨e, happ⟩, hevs⟩⟩

end Pass

/-! ## The books -/

/-- **The books of a decode pass**: who is left, how many blocks are free, and
how many entries there is room for. -/
structure DecodeBooks where
  left : List SequenceId
  free : ℕ
  room : ℕ

namespace DecodeBooks

variable {m : KvCacheManager} {b : DecodeBooks} {id : SequenceId}

/-- **A turn in the books**, with the tables as they were before the pass. A
full candidate takes a free block; if there is none the newest sequence
leaves, and what only it held is free. -/
def turn (m : KvCacheManager) (b : DecodeBooks) (id : SequenceId) : DecodeBooks :=
  if m.isFull id = true then
    if b.free = 0 then
      let given := m.footprint b.left - m.footprint b.left.dropLast
      if id ∈ b.left.dropLast ∧ 0 < given then ⟨b.left.dropLast, given - 1, b.room - 1⟩
      else ⟨b.left.dropLast, given, b.room⟩
    else ⟨b.left, b.free - 1, b.room - 1⟩
  else ⟨b.left, b.free, b.room - 1⟩

/-- **No turn comes too late**: whoever's turn comes, while there is room and
somebody is left, is left. -/
def InTime (m : KvCacheManager) : DecodeBooks → List SequenceId → Prop
  | _, [] => True
  | b, id :: ids =>
    0 < b.room → b.left ≠ [] → id ∈ b.left ∧ InTime m (b.turn m id) ids

instance decidableInTime (m : KvCacheManager) :
    ∀ (b : DecodeBooks) (ids : List SequenceId), Decidable (b.InTime m ids)
  | _, [] => isTrue trivial
  | b, id :: ids =>
    have := decidableInTime m (b.turn m id) ids
    inferInstanceAs (Decidable (_ → _ → _ ∧ _))

/-- With a free block for each full candidate nobody leaves. -/
theorem inTime_of_free (ids : List SequenceId) : ∀ {b : DecodeBooks}, ids ⊆ b.left →
    ids.countP m.isFull ≤ b.free → b.InTime m ids := by
  induction ids with
  | nil => exact fun _ _ => trivial
  | cons id ids ih =>
    intro b hleft hfree
    rw [List.countP_cons] at hfree
    have hrest : ids ⊆ b.left := fun x hx => hleft (List.mem_cons_of_mem _ hx)
    refine fun _ _ => ⟨hleft List.mem_cons_self, ?_⟩
    unfold turn
    split
    · next hfull =>
      rw [if_pos hfull] at hfree
      rw [if_neg (by omega)]
      exact ih hrest (Nat.le_sub_of_add_le hfree)
    · next hroom =>
      rw [if_neg hroom] at hfree
      exact ih hrest hfree

end DecodeBooks

namespace Pass

/-- The books before a decode pass. -/
def books (p : Pass KvCacheManager) : DecodeBooks :=
  ⟨p.sched.running.map Sequence.id, p.sched.cache.freeBlocks, p.budget - p.used⟩

/-- **The books are right**, with the tables of `m` before the pass and `ids`
still to come: the served ones that are left (`before`) are the oldest, and
they have taken `grown` blocks since. -/
structure Kept (m : KvCacheManager) (b : DecodeBooks) (p : Pass KvCacheManager)
    (ids : List SequenceId) : Prop where
  books : p.books = b
  full : ∀ q ∈ ids, q ∈ b.left → p.sched.cache.isFull q = m.isFull q
  line : ∃ before after gone grown, b.left = before ++ after
    ∧ ids.Sublist (after ++ gone) ∧ (before ++ (after ++ gone)).Nodup
    ∧ ∀ part, before ⊆ part → part ⊆ b.left →
      p.sched.cache.footprint part = m.footprint part + grown

variable {p : Pass KvCacheManager} {m : KvCacheManager} {b : DecodeBooks} {id : SequenceId}
  {ids : List SequenceId}

/-- The books are right at the start. -/
theorem Kept.start (hs : p.sched.Sound) :
    Kept p.sched.cache p.books p ((decodeCandidates p.sched.running).map Prod.fst) where
  books := rfl
  full _ _ _ := rfl
  line := by
    refine ⟨[], p.books.left, [], 0, rfl, ?_, ?_, fun _ _ _ => rfl⟩
    · rw [List.append_nil]
      unfold decodeCandidates
      rw [List.map_map]
      exact List.filter_sublist.map _
    · rw [List.append_nil]
      exact hs.nodup_running

/-- Where the next candidate is, if it is left. -/
theorem Kept.split (h : Kept m b p (id :: ids)) (hid : id ∈ b.left) :
    ∃ before after gone grown, b.left = before ++ id :: after ∧ ids.Sublist (after ++ gone)
      ∧ (before ++ id :: (after ++ gone)).Nodup
      ∧ ∀ part, before ⊆ part → part ⊆ b.left →
        p.sched.cache.footprint part = m.footprint part + grown := by
  obtain ⟨before, after, gone, grown, hleft, hsub, hnd, hfoot⟩ := h.line
  -- it is not among those served before
  have hin : id ∈ after := by
    rw [hleft] at hid
    refine (List.mem_append.mp hid).resolve_left (fun hbefore => ?_)
    exact (List.nodup_append.mp hnd).2.2 id hbefore id (hsub.subset List.mem_cons_self) rfl
  obtain ⟨between, after, rfl⟩ := List.append_of_mem hin
  rw [List.append_assoc, List.cons_append] at hsub hnd
  refine ⟨before ++ between, after, gone, grown, ?_, ?_, ?_, fun part hpart => ?_⟩
  · rw [hleft, List.append_assoc]
  · exact hsub.tail_of_nodup (List.nodup_append.mp hnd).2.1
  · rw [List.append_assoc]
    exact hnd
  · exact hfoot part (fun x hx => hpart (List.mem_append_left _ hx))

/-- Room for entries is used up one by one. -/
theorem books_emit (c : KvCacheManager) (id : SequenceId) (totalLen : ℕ) :
    ((p.withCache c).emit (decodeEntry id totalLen)).books
      = ⟨p.books.left, c.freeBlocks, p.books.room - 1⟩ := by
  unfold books
  rw [Nat.sub_sub]
  rfl

/-- **Step lemma** for a table that grows. -/
theorem Kept.grown (h : Kept m b p (id :: ids)) (hs : p.sched.Sound) (hid : id ∈ b.left)
    {c : KvCacheManager} {totalLen : ℕ} (answer : p.sched.cache.appendToken id = (c, .ok ())) :
    Kept m (b.turn m id) ((p.withCache c).emit (decodeEntry id totalLen)) ids := by
  obtain ⟨before, after, gone, grown, hleft, hsub, hnd, hfoot⟩ := h.split hid
  obtain ⟨-, hbs, -, -, hother, hfree, hgrow⟩ := hs.settled.append_ok answer
  have hfull := h.full id List.mem_cons_self hid
  rw [hfull] at hfree
  have hb : b.free = p.sched.cache.freeBlocks := congrArg DecodeBooks.free h.books.symm
  have hturn : b.turn m id = ⟨b.left, c.freeBlocks, b.room - 1⟩ := by
    unfold DecodeBooks.turn
    split
    · next hyes =>
      rw [if_pos hyes] at hfree
      rw [if_neg (by omega), hb, hfree]
      rfl
    · next hno =>
      rw [if_neg hno] at hfree
      rw [hb, hfree]
      rfl
  rw [hturn]
  refine ⟨?_, fun q hq hqleft => ?_, before ++ [id], after, gone,
    grown + if m.isFull id = true then 1 else 0, ?_, hsub, ?_, fun part hpart hpartleft => ?_⟩
  · rw [books_emit, h.books]
  · have hne : q ≠ id := by
      rintro rfl
      have hnot := (List.nodup_cons.mp (List.nodup_append.mp hnd).2.1).1
      exact hnot (hsub.subset hq)
    show c.isFull q = _
    rw [KvCacheManager.isFull_congr (hother q hne) hbs]
    exact h.full q (List.mem_cons_of_mem _ hq) hqleft
  · rw [hleft, List.append_assoc]
    rfl
  · rw [List.append_assoc]
    exact hnd
  · show c.footprint part = _
    have hin : id ∈ part := hpart (List.mem_append_right _ List.mem_cons_self)
    rw [hgrow, hfoot part (fun x hx => hpart (List.mem_append_left _ hx)) hpartleft, hfull]
    simp only [hin, true_and]
    rw [Nat.add_assoc]

/-- The books are right for fewer to come. -/
theorem Kept.tail (h : Kept m b p (id :: ids)) : Kept m b p ids where
  books := h.books
  full q hq := h.full q (List.mem_cons_of_mem _ hq)
  line := by
    obtain ⟨before, after, gone, grown, hleft, hsub, hrest⟩ := h.line
    exact ⟨before, after, gone, grown, hleft, (List.sublist_cons_self _ _).trans hsub, hrest⟩

/-- **Step lemma** for an eviction, with nothing free and the candidate left:
the newest sequence leaves, and its blocks are free as far as nobody else
holds them. -/
theorem Kept.leave (h : Kept m b p (id :: ids)) (hs : p.sched.Sound) (hid : id ∈ b.left)
    (hspent : p.sched.cache.freeBlocks = 0) {p₁ : Pass KvCacheManager}
    (eviction : p.preemptOne = some p₁) :
    Kept m ⟨b.left.dropLast, m.footprint b.left - m.footprint b.left.dropLast, b.room⟩ p₁
      (id :: ids) := by
  have hs₁ := (PassMove.evicted eviction).sound hs
  obtain ⟨older, victim, hrun, hp₁⟩ := preemptOne_eq_some eviction
  obtain ⟨before, after, gone, grown, hline, hsub, hnd, hfoot⟩ := h.line
  have hmap : p.sched.running.map Sequence.id = b.left := congrArg DecodeBooks.left h.books
  have hleft : b.left = older.map Sequence.id ++ [victim.id] := by
    rw [← hmap, hrun, List.map_append]
    rfl
  have hdrop : b.left.dropLast = older.map Sequence.id := by rw [hleft, List.dropLast_concat]
  have hrun₁ : p₁.sched.running = older := by rw [hp₁]
  have hcache₁ : p₁.sched.cache = p.sched.cache.free victim.id := by rw [hp₁]; rfl
  have hnot : victim.id ∉ older.map Sequence.id := by
    have hnodup := hs.nodup_running
    rw [hmap, hleft] at hnodup
    exact fun hmem => (List.nodup_append.mp hnodup).2.2 _ hmem _ List.mem_cons_self rfl
  -- the victim has not been served: the candidate is left and comes later than the served ones
  obtain ⟨after, rfl⟩ : ∃ after', after = after' ++ [victim.id] := by
    rcases List.eq_nil_or_concat after with rfl | ⟨after', last, rfl⟩
    · rw [List.append_nil] at hline
      have hmem := hsub.subset List.mem_cons_self
      exact absurd rfl ((List.nodup_append.mp hnd).2.2 id (hline ▸ hid) id hmem)
    · rw [hleft, List.concat_eq_append, ← List.append_assoc] at hline
      exact ⟨after', by rw [(List.append_inj' hline rfl).2, List.concat_eq_append]⟩
  have holder : older.map Sequence.id = before ++ after := by
    rw [hleft, ← List.append_assoc] at hline
    exact (List.append_inj' hline rfl).1
  have hfoot₁ : ∀ part, before ⊆ part → part ⊆ older.map Sequence.id →
      p₁.sched.cache.footprint part = m.footprint part + grown := by
    intro part hpart hpartleft
    rw [hcache₁, KvCacheManager.footprint_free (fun hmem => hnot (hpartleft hmem))]
    refine hfoot part hpart (fun x hx => ?_)
    rw [hleft]
    exact List.mem_append_left _ (hpartleft hx)
  rw [hdrop]
  refine ⟨?_, fun q hq hqleft => ?_, before, after, victim.id :: gone, grown, holder, ?_, ?_,
    hfoot₁⟩
  · -- all blocks are free or held by those who run, before and after
    have hall := hs.freeBlocks_add
    have hall₁ := hs₁.freeBlocks_add
    have htotal : p₁.sched.cache.totalBlocks = p.sched.cache.totalBlocks := by
      rw [hcache₁]
      exact KvCacheManager.Moves.totalBlocks (KvCacheManager.free_moves False _ victim.id)
    have hbefore : before ⊆ older.map Sequence.id := by
      rw [holder]
      exact List.subset_append_left _ _
    have hwhole := hfoot b.left (fun x hx => by
      rw [hleft]
      exact List.mem_append_left _ (hbefore hx)) (List.Subset.refl _)
    rw [hmap, hwhole, hspent] at hall
    rw [hrun₁, hfoot₁ _ hbefore (List.Subset.refl _)] at hall₁
    have hgiven : p₁.sched.cache.freeBlocks
        = m.footprint b.left - m.footprint (older.map Sequence.id) := by omega
    have hroom : p₁.budget - p₁.used = b.room := by
      rw [← congrArg DecodeBooks.room h.books, hp₁]
      rfl
    unfold Pass.books
    rw [hrun₁, hgiven, hroom]
  · -- the tables of the others stay
    have hsame : p₁.sched.cache.isFull q = p.sched.cache.isFull q := by
      rw [hcache₁]
      refine KvCacheManager.isFull_congr ?_
        (KvCacheManager.Moves.blockSize (KvCacheManager.free_moves False _ victim.id))
      rw [KvCacheManager.lookup_free, if_neg]
      rintro rfl
      exact hnot hqleft
    rw [hsame]
    refine h.full q hq ?_
    rw [hleft]
    exact List.mem_append_left _ hqleft
  · rw [List.append_assoc] at hsub
    exact hsub
  · rw [List.append_assoc] at hnd
    exact hnd

/-- **Step lemma** for a turn that evicts. -/
theorem Kept.evicted (h : Kept m b p (id :: ids)) (hs : p.sched.Sound) {totalLen : ℕ}
    {cands : List (SequenceId × ℕ)} (hguard : p.DecodeGuard ((id, totalLen) :: cands))
    (hid : id ∈ b.left) {p₁ : Pass KvCacheManager} {e : EngineError}
    (refusal : p.sched.cache.appendToken id = (p.sched.cache, .error e))
    (eviction : p.preemptOne = some p₁)
    (next : (∃ c, p₁.sched.cache.appendToken id = (c, .ok ())
        ∧ p' = (p₁.withCache c).emit (decodeEntry id totalLen))
      ∨ (∃ e, p₁.sched.cache.appendToken id = (p₁.sched.cache, .error e)) ∧ p' = p₁) :
    Kept m (b.turn m id) p' ids := by
  have hmap : p.sched.running.map Sequence.id = b.left := congrArg DecodeBooks.left h.books
  obtain ⟨t, ht⟩ := hguard.table hs (hmap ▸ hid)
  obtain ⟨hdue, hfull⟩ := due_of_refused hs ht refusal
  have hfullm := (h.full id List.mem_cons_self hid).symm.trans hfull
  have hb : b.free = 0 := (congrArg DecodeBooks.free h.books).symm.trans hdue.spent
  have hs₁ := (PassMove.evicted eviction).sound hs
  have h₁ := h.leave hs hid hdue.spent eviction
  have hmap₁ : p₁.sched.running.map Sequence.id = b.left.dropLast :=
    congrArg DecodeBooks.left h₁.books
  have hfree₁ : p₁.sched.cache.freeBlocks = m.footprint b.left - m.footprint b.left.dropLast :=
    congrArg DecodeBooks.free h₁.books
  rcases next with ⟨c, answer, rfl⟩ | ⟨⟨e', answer⟩, rfl⟩
  · -- there is a block now, and the table grows
    obtain ⟨-, -, -, ⟨u, hu⟩, -, hfree, -⟩ := hs₁.settled.append_ok answer
    have hid₁ : id ∈ b.left.dropLast := hmap₁ ▸ hs₁.tables id u hu
    have hpos : 0 < m.footprint b.left - m.footprint b.left.dropLast := by
      rw [h₁.full id List.mem_cons_self hid₁, if_pos hfullm] at hfree
      omega
    have hgrown : Kept m (DecodeBooks.turn m _ id)
        ((p₁.withCache c).emit (decodeEntry id totalLen)) ids := h₁.grown hs₁ hid₁ answer
    unfold DecodeBooks.turn at hgrown ⊢
    rw [if_pos hfullm, if_neg hpos.ne'] at hgrown
    rw [if_pos hfullm, if_pos hb, if_pos ⟨hid₁, hpos⟩]
    exact hgrown
  · have hno : ¬ (id ∈ b.left.dropLast
        ∧ 0 < m.footprint b.left - m.footprint b.left.dropLast) := by
      rintro ⟨hid₁, hpos⟩
      obtain ⟨older, victim, hrun, hp₁⟩ := preemptOne_eq_some eviction
      have hguard₁ := hguard.mono (PassMove.evicted eviction).ids
        (by rw [hrun, hp₁]; exact List.subset_append_left _ _) (List.Subset.refl _)
      obtain ⟨u, hu⟩ := hguard₁.table hs₁ (hmap₁ ▸ hid₁)
      rw [← hfree₁] at hpos
      exact hpos.ne' (due_of_refused hs₁ hu answer).1.spent
    unfold DecodeBooks.turn
    rw [if_pos hfullm, if_pos hb, if_neg hno]
    exact h₁.tail

/-- **The evictions of a decode loop are due exactly if no turn comes too
late.** The induction is on the candidates; while the books are right a
refusal to somebody who is left is due, and one to somebody who has left is
not. -/
theorem Kept.due_iff (cands : List (SequenceId × ℕ)) :
    ∀ {p : Pass KvCacheManager} {b : DecodeBooks}, p.sched.Sound → p.DecodeGuard cands →
      Kept m b p (cands.map Prod.fst) →
      ((∀ e ∈ p.decodeEvictions cands, e.2.Due e.1) ↔ b.InTime m (cands.map Prod.fst)) := by
  induction cands with
  | nil => exact fun {p b} _ _ _ => ⟨fun _ => trivial, fun _ e he => absurd he List.not_mem_nil⟩
  | cons c cands ih =>
    obtain ⟨id, totalLen⟩ := c
    intro p b hs hguard h
    have hmap : p.sched.running.map Sequence.id = b.left := congrArg DecodeBooks.left h.books
    have hroom : p.budget - p.used = b.room := congrArg DecodeBooks.room h.books
    rcases decodeEvictions_turn hs hguard with
      ⟨hnone, hstop⟩ | ⟨room, hne, p', hturn, hs', hguard', hevs⟩
    · rw [hnone]
      refine ⟨fun _ hpos hleft => ?_, fun _ e he => absurd he List.not_mem_nil⟩
      rcases hstop with hstop | hstop
      · omega
      · rw [hstop] at hmap
        exact absurd hmap.symm hleft
    have hstep : b.InTime m (((id, totalLen) :: cands).map Prod.fst)
        ↔ id ∈ b.left ∧ (b.turn m id).InTime m (cands.map Prod.fst) := by
      refine ⟨fun hin => hin (by omega) ?_, fun hand _ _ => hand⟩
      rw [← hmap]
      exact fun hnil => hne (List.map_eq_nil_iff.mp hnil)
    rw [hstep]
    by_cases hid : id ∈ b.left
    · have hkept : Kept m (b.turn m id) p' (cands.map Prod.fst) := by
        cases hturn with
        | grown answer result =>
          subst result
          exact h.grown hs hid answer
        | evicted refusal eviction next => exact h.evicted hs hguard hid refusal eviction next
      rw [← ih hs' hguard' hkept]
      rcases hevs with ⟨-, hevs⟩ | ⟨⟨e, refusal⟩, hevs⟩
      · rw [hevs]
        exact ⟨fun hall => ⟨hid, hall⟩, fun hand => hand.2⟩
      · obtain ⟨t, ht⟩ := hguard.table hs (hmap ▸ hid)
        rw [hevs, List.forall_mem_cons]
        exact ⟨fun hall => ⟨hid, hall.2⟩,
          fun hand => ⟨(due_of_refused hs ht refusal).1, hand.2⟩⟩
    · -- whoever has left has no table
      rcases hevs with ⟨⟨c, answer⟩, -⟩ | ⟨-, hevs⟩
      · obtain ⟨-, -, -, ⟨t, ht⟩, -⟩ := hs.settled.append_ok answer
        exact absurd (hmap ▸ hs.tables id t ht) hid
      · rw [hevs, List.forall_mem_cons]
        exact ⟨fun hall => absurd (hmap ▸ hall.1.running) hid, fun hand => absurd hand.1 hid⟩

end Pass

namespace Scheduler

variable {C : Type*} [KvCacheManagerLike C]

/-- The pass that a call makes `schedule_decodes` start from. -/
def decodeStart (s : Scheduler C) : Pass C :=
  if s.config.prioritizeDecode then s.pass else s.pass.schedulePrefills

/-- **The evictions that `schedule_decodes` performs in a call.** -/
def decodeEvictions (s : Scheduler C) : List (SequenceId × Pass C) :=
  s.decodeStart.decodeEvictions (Pass.decodeCandidates s.decodeStart.sched.running)

/-- They are part of the call. -/
theorem decodeEvictions_preempted (s : Scheduler C) :
    s.passes = (if s.config.prioritizeDecode then s.decodeStart.scheduleDecodes.schedulePrefills
      else s.decodeStart.scheduleDecodes)
    ∧ s.decodeStart.scheduleDecodes.out.preempted = s.decodeStart.out.preempted
      ++ s.decodeEvictions.filterMap (fun e => e.2.victim) := by
  refine ⟨?_, Pass.decodeLoop_preempted _ _⟩
  unfold passes decodeStart
  split
  · rfl
  · rfl

/-- **No decoder has its turn after it has left**, going by the books before
the decode pass. The pass walks over a list that it made at its start, and does
not look whether the next one on it still runs; the books say who is evicted when,
from the fill of the tables and the number of free blocks. -/
def DecodesInTime (s : Scheduler KvCacheManager) : Prop :=
  s.decodeStart.books.InTime s.decodeStart.sched.cache
    ((Pass.decodeCandidates s.decodeStart.sched.running).map Prod.fst)

/-- A free block for each full decoder is enough. -/
theorem decodesInTime_of_free {s : Scheduler KvCacheManager}
    (h : ((Pass.decodeCandidates s.decodeStart.sched.running).map Prod.fst).countP
      s.decodeStart.sched.cache.isFull ≤ s.decodeStart.sched.cache.freeBlocks) :
    s.DecodesInTime := by
  refine DecodeBooks.inTime_of_free _ (fun id hid => ?_) h
  obtain ⟨c, hc, rfl⟩ := List.mem_map.mp hid
  obtain ⟨r, hr, rfl⟩ := List.mem_map.mp hc
  exact List.mem_map_of_mem (List.mem_of_mem_filter hr)

end Scheduler

namespace Service

variable {config : SchedulerConfig} {n bs firstId : ℕ} {flag : Bool} {v : Service KvCacheManager}

/-- **Decode evicts only when it must**, in a reachable state, exactly if no
decoder has its turn after it has left. For one that has left `append_token` fails
whatever is free, and the pass takes every failure for a lack of blocks. -/
theorem decode_evictions_due_iff (hbs : 1 ≤ bs) (hn : n ≤ 2 ^ 32)
    (h : v.Reachable config (KvCacheManager.new n bs flag) firstId) :
    (∀ e ∈ v.sched.decodeEvictions, e.2.Due e.1) ↔ v.sched.DecodesInTime := by
  have hs := (h.sound hbs hn).sched
  have hstart : v.sched.decodeStart.sched.Sound := by
    unfold Scheduler.decodeStart
    split
    · exact hs
    · exact PassMoves.sound (Pass.schedulePrefills_moves _) hs
  exact Pass.Kept.due_iff _ hstart v.sched.decodeStart.decodeGuard_candidates (.start hstart)

/-- A short prompt and a full one, in a cache of a block each. -/
def shortAndFull : Service KvCacheManager :=
  SchedulerOp.runAll (.start {} (KvCacheManager.new 2 2 true) 1)
    [.addRequest [1] {} 0, .addRequest [2, 3] {} 0, .schedule]

/-- The newer one is evicted in its own turn, and it must be. -/
theorem decode_evictions_due_shortAndFull :
    shortAndFull.sched.decodeEvictions.map Prod.fst = [⟨2⟩]
    ∧ ∀ e ∈ shortAndFull.sched.decodeEvictions, e.2.Due e.1 := by
  have hreach : shortAndFull.Reachable {} (KvCacheManager.new 2 2 true) 1 :=
    Reachable.start.runAll _
  exact ⟨by decide +kernel,
    (decode_evictions_due_iff (by decide) (by decide) hreach).mpr (by
      unfold Scheduler.DecodesInTime
      decide +kernel)⟩

/-- **An eviction for a candidate that has itself been evicted**: the older
one of two full sequences is evicted in the turn of the newer one, which the
turn of the older one has evicted. -/
theorem decode_evictions_not_due :
    SchedulerConfig.validate {} = .ok ()
    ∧ twoFull.Reachable {} (KvCacheManager.new 2 4 true) 1
    ∧ twoFull.sched.decodeEvictions.map (fun e => (e.1, e.2.victim))
      = [(⟨1⟩, some ⟨2⟩), (⟨2⟩, some ⟨1⟩)]
    ∧ ¬ ∀ e ∈ twoFull.sched.decodeEvictions, e.2.Due e.1 := by
  refine ⟨by decide, Reachable.start.runAll _, by decide +kernel, fun hall => ?_⟩
  have hevs : twoFull.sched.decodeEvictions.map
      (fun e => (e.1, e.2.sched.running.map Sequence.id))
        = [(⟨1⟩, [⟨1⟩, ⟨2⟩]), (⟨2⟩, [⟨1⟩])] := by
    decide +kernel
  obtain ⟨first, rest, hcons, -, hrest⟩ := List.map_eq_cons_iff.mp hevs
  obtain ⟨second, rest, rfl, hsecond, -⟩ := List.map_eq_cons_iff.mp hrest
  have hdue := hall second (by rw [hcons]; exact List.mem_cons_of_mem _ List.mem_cons_self)
  have hmem := hdue.running
  rw [(Prod.mk.inj hsecond).1, (Prod.mk.inj hsecond).2] at hmem
  exact absurd hmem (by decide)

end Service
