import OrionServe.Core

/-!
# The sequence: one request and where it is in its lifecycle

A sequence owns its token history and its lifecycle state. It does not own
its KV blocks – the block table lives in the cache manager, keyed by the
sequence's id.

Of the timing record only the arrival time is kept, since the timeout scan
reads it; the other stamps feed metrics and nothing reads them back.
-/

/-- Where a sequence is in its lifecycle. -/
inductive SequenceState where
  /-- Waiting for cache blocks and a batch slot. -/
  | waiting : SequenceState
  /-- Prompt tokens are being processed. -/
  | prefilling : SequenceState
  /-- Generating one token per engine step. -/
  | decoding : SequenceState
  /-- Terminal. -/
  | finished : SequenceState
  deriving DecidableEq, Repr

/-- Whether `self -> next` is a legal transition. -/
def SequenceState.canTransitionTo : SequenceState → SequenceState → Bool
  | .waiting, .prefilling => true
  | .waiting, .finished => true
  | .prefilling, .prefilling => true
  | .prefilling, .decoding => true
  | .prefilling, .waiting => true
  | .prefilling, .finished => true
  | .decoding, .decoding => true
  | .decoding, .waiting => true
  | .decoding, .finished => true
  | _, _ => false

/-- Why a sequence stopped generating. -/
inductive FinishReason where
  | stop : FinishReason
  | stopSequence : String → FinishReason
  | length : FinishReason
  | cancelled : FinishReason
  | timeout : FinishReason
  | error : String → FinishReason
  deriving DecidableEq, Repr

/-- One decoding sequence: prompt, generated tokens and state. -/
structure Sequence where
  id : SequenceId
  /-- Prompt tokens. Never mutated after construction. -/
  prompt : List TokenId
  /-- Tokens produced by the model, in order. -/
  output : List TokenId
  /-- How many tokens of `prompt` already have KV entries computed. -/
  computedPrefixLen : ℕ
  state : SequenceState
  finishReason : Option FinishReason
  params : SamplingParams
  arrivedAt : Instant
  deriving DecidableEq

namespace Sequence

/-- Creates a sequence in the `Waiting` state. The id is the next value of
the process-wide counter, which the caller threads through. -/
def new (id : SequenceId) (prompt : List TokenId) (params : SamplingParams)
    (now : Instant) : Sequence where
  id := id
  prompt := prompt
  output := []
  computedPrefixLen := 0
  state := .waiting
  finishReason := none
  params := params
  arrivedAt := now

def promptLen (s : Sequence) : ℕ := s.prompt.length

def outputLen (s : Sequence) : ℕ := s.output.length

/-- Total logical length: everything that needs a KV entry. -/
def totalLen (s : Sequence) : ℕ := s.prompt.length + s.output.length

/-- How many prompt tokens still need prefilling. -/
def remainingPrefill (s : Sequence) : ℕ := s.prompt.length - s.computedPrefixLen

/-- Whether every prompt token has been through the model. -/
def isPrefillComplete (s : Sequence) : Bool :=
  s.prompt.length ≤ s.computedPrefixLen

def isFinished (s : Sequence) : Bool := s.state = .finished

/-- Attempts a state transition; an illegal one leaves the sequence
untouched and returns `false`. -/
def transitionTo (s : Sequence) (next : SequenceState) : Sequence × Bool :=
  if s.state.canTransitionTo next then ({ s with state := next }, true)
  else (s, false)

/-- Records that `n` more prompt tokens have been prefilled. -/
def advancePrefill (s : Sequence) (n : ℕ) : Sequence :=
  { s with computedPrefixLen := min (s.computedPrefixLen + n) s.prompt.length }

/-- Appends a generated token. -/
def pushToken (s : Sequence) (token : TokenId) : Sequence :=
  { s with output := s.output ++ [token] }

/-- Moves the sequence to `Finished`; the first reason wins. -/
def finish (s : Sequence) (reason : FinishReason) : Sequence :=
  if s.state = .finished then s
  else { s with state := .finished, finishReason := some reason }

/-- Returns the sequence to `Waiting` after preemption, discarding prefill
progress. A state that may not go back to `Waiting` is left as it is. -/
def preempt (s : Sequence) : Sequence × Bool :=
  if s.state.canTransitionTo .waiting then
    ({ s with state := .waiting, computedPrefixLen := 0 }, true)
  else (s, false)

/-- The whole context, prompt included. -/
def allTokens (s : Sequence) : List TokenId := s.prompt ++ s.output

/-- Whether the sequence has produced its caller-requested maximum. -/
def reachedMaxTokens (s : Sequence) : Bool := s.params.maxTokens ≤ s.output.length

/-- Whether EOS is currently allowed to terminate the sequence. -/
def mayStopOnEos (s : Sequence) : Bool := s.params.minTokens ≤ s.output.length

/-! ## What each operation leaves alone

Nothing a sequence goes through touches its identity, its prompt or its
parameters. -/

@[simp] theorem new_id (id : SequenceId) (p : List TokenId) (sp : SamplingParams)
    (now : Instant) : (new id p sp now).id = id := rfl

@[simp] theorem new_state (id : SequenceId) (p : List TokenId) (sp : SamplingParams)
    (now : Instant) : (new id p sp now).state = .waiting := rfl

@[simp] theorem transitionTo_id (s : Sequence) (st : SequenceState) :
    (s.transitionTo st).1.id = s.id := by
  unfold transitionTo; split <;> rfl

@[simp] theorem transitionTo_prompt (s : Sequence) (st : SequenceState) :
    (s.transitionTo st).1.prompt = s.prompt := by
  unfold transitionTo; split <;> rfl

@[simp] theorem transitionTo_output (s : Sequence) (st : SequenceState) :
    (s.transitionTo st).1.output = s.output := by
  unfold transitionTo; split <;> rfl

@[simp] theorem transitionTo_computedPrefixLen (s : Sequence) (st : SequenceState) :
    (s.transitionTo st).1.computedPrefixLen = s.computedPrefixLen := by
  unfold transitionTo; split <;> rfl

@[simp] theorem transitionTo_isPrefillComplete (s : Sequence) (st : SequenceState) :
    (s.transitionTo st).1.isPrefillComplete = s.isPrefillComplete := by
  unfold isPrefillComplete; simp

@[simp] theorem advancePrefill_id (s : Sequence) (n : ℕ) :
    (s.advancePrefill n).id = s.id := rfl

@[simp] theorem advancePrefill_prompt (s : Sequence) (n : ℕ) :
    (s.advancePrefill n).prompt = s.prompt := rfl

@[simp] theorem advancePrefill_output (s : Sequence) (n : ℕ) :
    (s.advancePrefill n).output = s.output := rfl

@[simp] theorem advancePrefill_state (s : Sequence) (n : ℕ) :
    (s.advancePrefill n).state = s.state := rfl

@[simp] theorem pushToken_id (s : Sequence) (t : TokenId) :
    (s.pushToken t).id = s.id := rfl

@[simp] theorem pushToken_prompt (s : Sequence) (t : TokenId) :
    (s.pushToken t).prompt = s.prompt := rfl

@[simp] theorem finish_id (s : Sequence) (r : FinishReason) :
    (s.finish r).id = s.id := by
  unfold finish; split <;> rfl

@[simp] theorem finish_prompt (s : Sequence) (r : FinishReason) :
    (s.finish r).prompt = s.prompt := by
  unfold finish; split <;> rfl

@[simp] theorem finish_output (s : Sequence) (r : FinishReason) :
    (s.finish r).output = s.output := by
  unfold finish; split <;> rfl

@[simp] theorem finish_params (s : Sequence) (r : FinishReason) :
    (s.finish r).params = s.params := by
  unfold finish; split <;> rfl

@[simp] theorem finish_computedPrefixLen (s : Sequence) (r : FinishReason) :
    (s.finish r).computedPrefixLen = s.computedPrefixLen := by
  unfold finish; split <;> rfl

@[simp] theorem finish_state (s : Sequence) (r : FinishReason) :
    (s.finish r).state = .finished := by
  unfold finish; split
  · assumption
  · rfl

@[simp] theorem preempt_id (s : Sequence) : s.preempt.1.id = s.id := by
  unfold preempt; split <;> rfl

@[simp] theorem preempt_prompt (s : Sequence) : s.preempt.1.prompt = s.prompt := by
  unfold preempt; split <;> rfl

@[simp] theorem preempt_output (s : Sequence) : s.preempt.1.output = s.output := by
  unfold preempt; split <;> rfl

/-- **Preemption keeps the generated tokens apart from the prompt**: what it
puts back on the queue has the same prompt as before, and only a sequence
that may return to `Waiting` loses its prefill progress. -/
theorem preempt_cases (s : Sequence) :
    (s.preempt = ({ s with state := .waiting, computedPrefixLen := 0 }, true)
      ∧ (s.state = .prefilling ∨ s.state = .decoding))
    ∨ (s.preempt = (s, false) ∧ (s.state = .waiting ∨ s.state = .finished)) := by
  unfold preempt
  cases h : s.state <;> simp [SequenceState.canTransitionTo]

end Sequence
