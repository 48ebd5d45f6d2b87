import OrionServe.Scheduler
import OrionServe.Lib.Loops

/-!
# The admission loop ends

The loop of `schedule_prefills` is unconditional and moves sequences between
the two queues in both directions, so neither queue measures its progress.
What does is the budget first and the running queue second: an admission
spends some of the budget, an eviction keeps it and shortens the running
queue.

Here the loop is the body it is in the source, one iteration at a time. The
cache it asks may answer differently in every iteration, whatever it
answered before: `K i` is the implementation that iteration `i` meets.
-/

variable {C : Type*}

namespace Pass

section Turn

variable [KvCacheManagerLike C]

/-- One iteration of the admission loop: it goes round again with the pass on
the left, or breaks with the one on the right. -/
def admissionTurn (p : Pass C) : Pass C ⊕ Pass C :=
  if p.sched.config.maxNumSeqs ≤ p.sched.running.length ∨ p.budget ≤ p.used then .inr p
  else
    match p.sched.waiting with
    | [] => .inr p
    | seq :: rest =>
      match chunkFor p.sched.config (seq.promptLen - seq.computedPrefixLen)
          (p.budget - p.used) with
      | none => .inr p
      | some chunk =>
        if chunk = 0 then .inr p
        else if seq.computedPrefixLen = 0 then
          if KvCacheManagerLike.canAllocate p.sched.cache seq.promptLen then
            match KvCacheManagerLike.allocate p.sched.cache seq.id seq.prompt with
            | (c, .ok ()) => .inl ((p.withCache c).bringIn seq rest chunk)
            | (c, .error _) =>
              .inr { p with sched := { p.sched with
                cache := c, waiting := seq.preempt.1 :: rest } }
          else
            match p.preemptOne with
            | none => .inr p
            | some p => .inl p
        else .inl (p.bringIn seq rest chunk)

/-- What a round that is not the last has done: it admitted the head of the
queue with some of the budget, or it evicted. -/
theorem admissionTurn_cases {p p' : Pass C} (h : p.admissionTurn = .inl p') :
    (∃ (c : C) (seq : Sequence) (rest : List Sequence) (chunk : ℕ),
        p.sched.waiting = seq :: rest ∧ chunk ≠ 0 ∧ chunk ≤ p.budget - p.used
          ∧ p' = (p.withCache c).bringIn seq rest chunk)
      ∨ p.preemptOne = some p' := by
  unfold admissionTurn at h
  split at h
  · exact absurd h (by simp)
  split at h
  · exact absurd h (by simp)
  next seq rest hw =>
  split at h
  · exact absurd h (by simp)
  next chunk hc =>
  have hroom := (chunkFor_le hc).2
  split at h
  · exact absurd h (by simp)
  next hpos =>
  split at h
  · split at h
    · split at h
      · next c _ => exact .inl ⟨c, seq, rest, chunk, hw, hpos, hroom, (Sum.inl.inj h).symm⟩
      · exact absurd h (by simp)
    · split at h
      · exact absurd h (by simp)
      · next p₁ hp => exact .inr (hp.trans (congrArg some (Sum.inl.inj h)))
  · exact .inl ⟨p.sched.cache, seq, rest, chunk, hw, hpos, hroom, (Sum.inl.inj h).symm⟩

/-- **Every round that is not the last decreases the measure.** -/
theorem admissionTurn_decreases {p p' : Pass C} (h : p.admissionTurn = .inl p') :
    p'.admissionMeasure < p.admissionMeasure := by
  rcases admissionTurn_cases h with ⟨c, seq, rest, chunk, hw, hpos, hroom, rfl⟩ | hev
  · exact admissionMeasure_bringIn (p := p.withCache c) hw hpos hroom
  · exact admissionMeasure_preemptOne hev

/-- The loop is its first iteration and what follows it. -/
theorem admissionLoop_eq_turn (p : Pass C) :
    p.admissionLoop = Sum.elim admissionLoop id p.admissionTurn := by
  rw [admissionLoop, admissionTurn]
  split
  · rfl
  split
  · next hw => rw [hw]; rfl
  next seq rest hw =>
  rw [hw]
  show _ = Sum.elim admissionLoop id (match chunkFor p.sched.config
    (seq.promptLen - seq.computedPrefixLen) (p.budget - p.used) with
    | none => _
    | some chunk => _)
  split
  · next hc => rw [hc]; rfl
  next chunk hc =>
  rw [hc]
  dsimp only
  split
  · rfl
  split
  · split
    · rcases KvCacheManagerLike.allocate p.sched.cache seq.id seq.prompt with ⟨c, e | ⟨⟩⟩
      · rfl
      · rfl
    · split <;> next hp => rw [hp]; rfl
  · rfl

end Turn

/-- **The admission loop ends**, from any state and under any configuration,
when the cache answers in every iteration as it pleases. Where the answers
are those of one implementation, what it ends with is `admissionLoop`. Every
iteration but the last admits the head of the queue, with some of the budget, or
evicts somebody who runs. -/
theorem admission_ends (K : ℕ → KvCacheManagerLike C) (p : Pass C) :
    (Loop.runFrom (fun i => @admissionTurn C (K i)) 0 (p.admissionMeasure + 1) p).isSome
      ∧ ∀ i, Loop.runFrom (fun _ => @admissionTurn C (K i)) 0 (p.admissionMeasure + 1) p
        = some (@admissionLoop C (K i) p) := by
  have hends : ∀ K' : ℕ → KvCacheManagerLike C,
      (Loop.runFrom (fun i => @admissionTurn C (K' i)) 0 (p.admissionMeasure + 1) p).isSome :=
    fun K' => Loop.runFrom_isSome
      (fun i _ _ h => @admissionTurn_decreases C (K' i) _ _ h) 0 p (Nat.lt_succ_self _)
  refine ⟨hends K, fun i => ?_⟩
  obtain ⟨r, hr⟩ := Option.isSome_iff_exists.mp (hends (fun _ => K i))
  rw [hr, Loop.runFrom_eq_of_unfold (@admissionLoop_eq_turn C (K i)) 0 p hr]

end Pass
