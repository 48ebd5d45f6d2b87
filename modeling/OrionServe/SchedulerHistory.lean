import OrionServe.SchedulerRun
import OrionServe.Lib.Tiling

/-!
# What the history says about one sequence

The history of the scheduler holds every entry of every batch and every
eviction. For one sequence it splits at its last eviction: `entriesSince` are
the entries it was given since then, newest first, and `prefillsOf` the spans
of prompt among any stretch of the history.
-/

namespace SchedEvent

/-- The sequence an event is about. -/
def seqId : SchedEvent → SequenceId
  | .scheduled e => e.id
  | .preempted v => v.id

/-- The entry an event records for a sequence. -/
def entryOf (id : SequenceId) : SchedEvent → Option ScheduledSequence
  | .scheduled e => if e.id = id then some e else none
  | .preempted _ => none

end SchedEvent

namespace ScheduledSequence

/-- The positions an entry submits. -/
def span (e : ScheduledSequence) : ℕ × ℕ := (e.startPosition, e.numTokens)

end ScheduledSequence

open SchedEvent in
/-- The entries of a sequence since its last eviction, newest first. -/
def entriesSince (id : SequenceId) : List SchedEvent → List ScheduledSequence
  | [] => []
  | .preempted v :: past => if v.id = id then [] else entriesSince id past
  | .scheduled e :: past =>
    if e.id = id then e :: entriesSince id past else entriesSince id past

/-- The spans of a sequence's prompt in a stretch of the history. -/
def prefillsOf (id : SequenceId) (events : List SchedEvent) : List (ℕ × ℕ) :=
  ((events.filterMap (SchedEvent.entryOf id)).filter ScheduledSequence.isPrefill).map
    ScheduledSequence.span

variable {id : SequenceId} {past events : List SchedEvent}

@[simp] theorem entriesSince_scheduled_self (e : ScheduledSequence) :
    entriesSince e.id (.scheduled e :: past) = e :: entriesSince e.id past := if_pos rfl

theorem entriesSince_scheduled_ne {e : ScheduledSequence} (h : e.id ≠ id) :
    entriesSince id (.scheduled e :: past) = entriesSince id past := if_neg h

theorem entriesSince_preempted_self {v : Sequence} (h : v.id = id) :
    entriesSince id (.preempted v :: past) = [] := if_pos h

theorem entriesSince_preempted_ne {v : Sequence} (h : v.id ≠ id) :
    entriesSince id (.preempted v :: past) = entriesSince id past := if_neg h

/-- An event about another sequence. -/
theorem entriesSince_cons_ne {e : SchedEvent} (h : e.seqId ≠ id) :
    entriesSince id (e :: past) = entriesSince id past := by
  cases e with
  | scheduled e => exact entriesSince_scheduled_ne h
  | preempted v => exact entriesSince_preempted_ne h

/-- Nothing is known of a sequence the history does not mention. -/
theorem entriesSince_eq_nil (h : ∀ e ∈ past, e.seqId ≠ id) : entriesSince id past = [] := by
  induction past with
  | nil => rfl
  | cons e past ih =>
    rw [entriesSince_cons_ne (h e List.mem_cons_self)]
    exact ih (fun x hx => h x (List.mem_cons_of_mem _ hx))

/-- **After an eviction** the entries are those of the stretch since then. -/
theorem entriesSince_append {u : Sequence} (hu : u.id = id)
    (hmid : ∀ v, .preempted v ∈ events → v.id ≠ id) :
    entriesSince id (events ++ .preempted u :: past)
      = events.filterMap (SchedEvent.entryOf id) := by
  induction events with
  | nil => exact entriesSince_preempted_self hu
  | cons e events ih =>
    have hrest := ih (fun v hv => hmid v (List.mem_cons_of_mem _ hv))
    cases e with
    | scheduled e =>
      by_cases hid : e.id = id
      · subst hid
        rw [List.cons_append, entriesSince_scheduled_self, hrest,
          List.filterMap_cons_some (b := e) (by exact if_pos rfl)]
      · rw [List.cons_append, entriesSince_scheduled_ne hid, hrest,
          List.filterMap_cons_none (by exact if_neg hid)]
    | preempted v =>
      rw [List.cons_append, entriesSince_preempted_ne (hmid v List.mem_cons_self), hrest,
        List.filterMap_cons_none rfl]
