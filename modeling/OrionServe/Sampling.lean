import OrionServe.Engine

/-!
# Sampling

The default sampler draws from a generator of its own: a request with a seed
starts from the state that the seed gives, any other from entropy. A greedy
request does not draw at all.

The arithmetic on a row of logits – the penalty, the filters, the softmax – is
left to the scalars. Each of these is a function of its arguments; what is
modelled is the order in which they are applied and when the generator is
drawn from.
-/

/-- How a token is chosen. -/
inductive SamplingMode where
  | greedy
  | stochastic
  deriving DecidableEq

namespace SamplingParams

/-- Temperature `0.0` is the conventional spelling of greedy. -/
def mode (p : SamplingParams) : SamplingMode :=
  if p.temperature = .finite 0 then .greedy else .stochastic

/-- Whether the request is reproducible: either greedy, or seeded. -/
def isDeterministic (p : SamplingParams) : Bool := p.mode = .greedy || p.seed.isSome

end SamplingParams

/-- What the sampler does with rows of logits over `F`. -/
class LogitOps (F : Type*) where
  applyRepetitionPenalty : List F → List TokenId → F32 → List F
  applyTemperature : List F → F32 → List F
  applyTopK : List F → ℕ → List F
  applyTopP : List F → F32 → List F
  softmax : List F → List F
  /-- The index of the largest logit, the lowest one of several. -/
  argmax : List F → Option ℕ
  /-- The index at which a distribution exceeds a number. -/
  sampleFrom : List F → F → ℕ

/-- A generator of random numbers over `F`. -/
class RngLike (R : Type*) (F : outParam Type*) where
  seedFromU64 : UInt64 → R
  /-- Draws a number between zero and one. -/
  random : R → R × F

/-- The default sampler: repetition penalty, temperature, top-k, top-p. -/
structure DefaultSampler (R : Type*) where
  rng : R

namespace DefaultSampler

variable {R F : Type*} [LogitOps F] [RngLike R F]

omit [LogitOps F] in
/-- Creates a sampler honouring the seed, falling back to entropy. -/
def forParams (params : SamplingParams) (entropy : R) : DefaultSampler R :=
  match params.seed with
  | some seed => ⟨RngLike.seedFromU64 seed⟩
  | none => ⟨entropy⟩

instance : Sampler (DefaultSampler R) F where
  sample s logits previousTokens params :=
    if logits.isEmpty then (s, .error (.internal ["sampler received an empty logits row"]))
    else
      let logits := LogitOps.applyRepetitionPenalty logits previousTokens params.repetitionPenalty
      match params.mode with
      | .greedy =>
        match LogitOps.argmax logits with
        | none => (s, .error (.internal ["argmax over empty logits"]))
        | some idx => (s, .ok (UInt32.ofNat idx))
      | .stochastic =>
        let logits := LogitOps.applyTemperature logits params.temperature
        let logits := LogitOps.applyTopK logits params.topK
        let logits := LogitOps.applyTopP logits params.topP
        let probs := LogitOps.softmax logits
        let (rng, r) := RngLike.random s.rng
        (⟨rng⟩, .ok (UInt32.ofNat (LogitOps.sampleFrom probs r)))

/-- **A greedy request does not look at the generator**, nor change it. -/
theorem sample_of_greedy {params : SamplingParams} (h : params.mode = .greedy)
    (s s' : DefaultSampler R) (logits : List F) (previous : List TokenId) :
    (Sampler.sample s logits previous params).2
      = (Sampler.sample s' logits previous params).2 := by
  simp only [Sampler.sample, h]
  split
  · rfl
  · split <;> rfl

end DefaultSampler
