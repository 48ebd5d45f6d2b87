import Mathlib.Tactic
import Mathlib.Algebra.Order.Floor.Div

/-!
# Identifiers, errors and configuration

The vocabulary every other crate of the engine speaks: the newtypes that
keep a block index apart from a sequence id, the error a serving call
returns, the parameters of one request and the configuration of the
scheduler.

A message is kept as the pieces a `format!` call puts together – its
literal text and the values it interpolates – so that what an error says
and which value it names can be read off it without printing a float.

`usize` counts are natural numbers. Where the source relies on a width –
the sum `add_request` compares with the context length, the `u32` a block
index is stored in – the operation carries its modulus.
-/

/-- A token id as produced by the tokenizer and consumed by the model. -/
abbrev TokenId := UInt32

/-- Identifies one decoding sequence. -/
structure SequenceId where
  raw : ℕ
  deriving DecidableEq, Repr

/-- Index of a physical block in the KV cache pool. -/
structure BlockId where
  raw : ℕ
  deriving DecidableEq, Repr

/-- The position of a block in the pool. -/
def BlockId.index (id : BlockId) : ℕ := id.raw

/-- `BlockId(i as u32)`: the cast keeps the low 32 bits. -/
def BlockId.ofIndex (i : ℕ) : BlockId := ⟨i % 2 ^ 32⟩

theorem BlockId.index_injective : Function.Injective BlockId.index := by
  rintro ⟨a⟩ ⟨b⟩ (rfl : a = b)
  rfl

/-- An `f32` that arrives in a request: a rational, or one of the values a
range check has to refuse. -/
inductive F32 where
  | finite : ℚ → F32
  | inf : F32
  | negInf : F32
  | nan : F32
  deriving DecidableEq

namespace F32

/-- `f32::is_finite`. -/
def isFinite : F32 → Bool
  | .finite _ => true
  | _ => false

/-- `a < b` on `f32`: every comparison with a NaN is false. -/
def lt : F32 → F32 → Bool
  | .finite a, .finite b => a < b
  | .finite _, .inf => true
  | .negInf, .finite _ => true
  | .negInf, .inf => true
  | _, _ => false

/-- `a <= b` on `f32`. -/
def le : F32 → F32 → Bool
  | .nan, _ => false
  | _, .nan => false
  | a, b => !(b.lt a)

/-- The number a finite `f32` is; any other one counts as zero. -/
def value : F32 → ℚ
  | .finite q => q
  | _ => 0

end F32

/-- A piece of a formatted message. -/
inductive Fragment where
  | text : String → Fragment
  | nat : ℕ → Fragment
  | seq : SequenceId → Fragment
  | blk : BlockId → Fragment
  | float : F32 → Fragment
  deriving DecidableEq

/-- What a `format!` call produces, with its arguments still visible. -/
abbrev Message := List Fragment

instance : Coe String Fragment := ⟨Fragment.text⟩

/-- Errors raised while validating operator-supplied configuration. -/
inductive ConfigError where
  | invalidValue (field : String) (reason : Message)
  | inconsistent (reason : Message)
  deriving DecidableEq

/-- Errors raised while serving an inference request. The variants kept are
those the scheduler, the cache and the engine loop return. -/
inductive EngineError where
  /-- The request itself is invalid. -/
  | invalidRequest (reason : Message)
  /-- The prompt does not fit in the model context window. -/
  | contextLengthExceeded (promptTokens maxTokens contextLen : ℕ)
  /-- The admission queue is full. -/
  | queueFull (queued limit : ℕ)
  /-- The KV cache is exhausted. -/
  | cacheExhausted (needed available : ℕ)
  /-- A compute backend failed. -/
  | backend (stage : String) (reason : Message)
  /-- An invariant the engine relies on was violated. -/
  | internal (reason : Message)
  deriving DecidableEq

/-- Per-request sampling configuration. -/
structure SamplingParams where
  /-- Softmax temperature; `0.0` means greedy decoding. -/
  temperature : F32 := .finite 1
  /-- Nucleus sampling mass in `(0.0, 1.0]`. -/
  topP : F32 := .finite 1
  /-- Keep only the `k` highest-logit tokens; `0` disables the filter. -/
  topK : ℕ := 0
  /-- Penalty applied to tokens already present in the context. -/
  repetitionPenalty : F32 := .finite 1
  /-- Hard cap on generated tokens for this request. -/
  maxTokens : ℕ := 16
  /-- Minimum tokens to generate before EOS is allowed to terminate. -/
  minTokens : ℕ := 0
  /-- RNG seed; `none` draws from entropy. -/
  seed : Option UInt64 := none
  /-- Stop generating when any of these token ids is produced. -/
  stopTokenIds : List TokenId := []
  /-- Stop generating when any of these strings appears in the output. -/
  stopSequences : List String := []
  /-- How many logprobs to return. -/
  logprobs : Option ℕ := none
  deriving DecidableEq

/-- Upper bound on `logprobs`. -/
def maxLogprobs : ℕ := 20

/-- Upper bound on the number of stop sequences. -/
def maxStopSequences : ℕ := 16

/-- `SamplingParams::validate`: every field against its legal range, in the
order the source checks them. -/
def SamplingParams.validate (p : SamplingParams) : Except EngineError Unit :=
  if !p.temperature.isFinite || p.temperature.lt (.finite 0) then
    .error (.invalidRequest
      ["temperature must be a finite value >= 0.0, got ", .float p.temperature])
  else if !p.topP.isFinite || p.topP.le (.finite 0) || (F32.finite 1).lt p.topP then
    .error (.invalidRequest ["top_p must be in (0.0, 1.0], got ", .float p.topP])
  else if !p.repetitionPenalty.isFinite || p.repetitionPenalty.le (.finite 0) then
    .error (.invalidRequest
      ["repetition_penalty must be a finite value > 0.0, got ",
        .float p.repetitionPenalty])
  else if p.maxTokens = 0 then
    .error (.invalidRequest ["max_tokens must be at least 1"])
  else if p.maxTokens < p.minTokens then
    .error (.invalidRequest
      ["min_tokens (", .nat p.minTokens, ") must not exceed max_tokens (",
        .nat p.maxTokens, ")"])
  else if p.logprobs.any (maxLogprobs < ·) then
    .error (.invalidRequest
      ["logprobs must be <= ", .nat maxLogprobs, ", got ",
        .nat (p.logprobs.getD 0)])
  else if maxStopSequences < p.stopSequences.length then
    .error (.invalidRequest
      ["at most ", .nat maxStopSequences, " stop sequences are allowed, got ",
        .nat p.stopSequences.length])
  else if p.stopSequences.any String.isEmpty then
    .error (.invalidRequest ["stop sequences must not be empty"])
  else
    .ok ()

/-- Valid parameters ask for a token. -/
theorem SamplingParams.maxTokens_pos {p : SamplingParams} (h : p.validate = .ok ()) :
    0 < p.maxTokens := by
  refine Nat.pos_of_ne_zero (fun hzero => ?_)
  unfold SamplingParams.validate at h
  split at h
  · exact absurd h (by simp)
  split at h
  · exact absurd h (by simp)
  split at h
  · exact absurd h (by simp)
  -- the fourth check
  exact absurd h (by simp)

/-- And they have no empty stop string. -/
theorem SamplingParams.stopSequences_ne_nil {p : SamplingParams} (h : p.validate = .ok ()) :
    ∀ s ∈ p.stopSequences.map String.toList, s ≠ [] := by
  have hall : p.stopSequences.any String.isEmpty = false := by
    rw [Bool.eq_false_iff]
    intro hany
    unfold SamplingParams.validate at h
    rw [if_pos hany] at h
    repeat' split at h
    all_goals exact absurd h (by simp)
  rintro s hs rfl
  obtain ⟨t, ht, hnil⟩ := List.mem_map.mp hs
  refine List.any_eq_false.mp hall t ht ?_
  rw [String.isEmpty_iff]
  exact String.toList_eq_nil_iff.mp hnil

/-- Scheduler policy and batch budgets. `preemption_mode` is not kept: no
scheduling pass reads it. -/
structure SchedulerConfig where
  /-- Maximum sequences resident in the running set. -/
  maxNumSeqs : ℕ := 256
  /-- Token budget for one engine step, across prefill and decode. -/
  maxNumBatchedTokens : ℕ := 8192
  /-- Longest prompt plus output the engine will accept. -/
  maxModelLen : Option ℕ := none
  /-- Split long prefills into chunks that fit the token budget. -/
  enableChunkedPrefill : Bool := true
  /-- Requests allowed to wait for admission before the engine sheds load. -/
  maxWaitingRequests : ℕ := 1024
  /-- Wall-clock budget for a request, queueing included. -/
  requestTimeoutSecs : Option ℕ := some 300
  /-- Bias toward decode over prefill when both are eligible. -/
  prioritizeDecode : Bool := true
  deriving DecidableEq

/-- `SchedulerConfig::validate`, in the order the source checks the
fields. -/
def SchedulerConfig.validate (c : SchedulerConfig) : Except ConfigError Unit :=
  if c.maxNumSeqs = 0 then
    .error (.invalidValue "scheduler.max_num_seqs" ["must be at least 1"])
  else if c.maxNumBatchedTokens = 0 then
    .error (.invalidValue "scheduler.max_num_batched_tokens" ["must be at least 1"])
  else if c.maxNumBatchedTokens < c.maxNumSeqs then
    .error (.inconsistent
      ["scheduler.max_num_batched_tokens (", .nat c.maxNumBatchedTokens,
        ") is below scheduler.max_num_seqs (", .nat c.maxNumSeqs,
        "): a decode-only step could not give every running sequence one token"])
  else if c.maxModelLen = some 0 then
    .error (.invalidValue "scheduler.max_model_len" ["must be at least 1 when set"])
  else if !c.enableChunkedPrefill && c.maxModelLen.any (c.maxNumBatchedTokens < ·) then
    .error (.inconsistent
      ["scheduler.max_model_len (", .nat (c.maxModelLen.getD 0),
        ") exceeds scheduler.max_num_batched_tokens (", .nat c.maxNumBatchedTokens,
        ") with chunked prefill disabled: ",
        "a full-length prompt could never be scheduled"])
  else if c.maxWaitingRequests = 0 then
    .error (.invalidValue "scheduler.max_waiting_requests" ["must be at least 1"])
  else if c.requestTimeoutSecs = some 0 then
    .error (.invalidValue "scheduler.request_timeout_secs"
      ["must be at least 1 second when set"])
  else
    .ok ()

/-- `usize::MAX` on a 64-bit target. -/
def usizeMax : ℕ := 2 ^ 64 - 1

/-- A point of the monotonic clock, in nanoseconds. -/
abbrev Instant := ℕ

/-- `Duration::from_secs`, in nanoseconds. -/
def durationFromSecs (secs : ℕ) : ℕ := secs * 1000000000
