import OrionServe.Batching

/-!
# Chunked prefill equals a full prefill

A sequence may be run through the model in one pass or in several, each taking
up where the one before it ended. A later chunk finds in the arena what the
full pass would have written there itself, layer by layer, because no row
writes to the slot of an earlier one – the positions of a sequence have slots
of their own when its block table names no block twice. So the chunks leave
the arena that the full pass leaves, and the last of them gives its logits
(`TransformerModel.forward_chunks`).

As for batches, the residual connections have to fit.
-/

open Tensor Scalars

/-- Consecutive positions of one sequence. -/
def placesFrom (table : List BlockId) (start len : ℕ) : List Place :=
  (List.range' start len).map (fun pos => ⟨pos, table⟩)

namespace ForwardBatch

/-- Consecutive tokens of one sequence, from a position on. -/
def chunk (id : SequenceId) (table : List BlockId) (start : ℕ) (tokens : List TokenId) :
    ForwardBatch where
  tokens := tokens
  positions := List.range' start tokens.length
  sequenceIds := [id]
  slotTokenCounts := [tokens.length]
  contextLens := [start + tokens.length]
  blockTables := [table]
  hasPrefill := true

variable {id : SequenceId} {table : List BlockId} {start : ℕ} {tokens : List TokenId}

/-- It is the batch of one slot, as long as its positions are `u32`s. -/
theorem chunk_eq_push (h : start + tokens.length ≤ 2 ^ 32) :
    chunk id table start tokens = empty.push ⟨id, tokens, start, table, true⟩ := by
  unfold chunk push BatchSlot.positions
  congr 1
  refine (List.map_id _).symm.trans (List.map_congr_left (fun p hp => ?_))
  rw [List.mem_range'_1] at hp
  exact (Nat.mod_eq_of_lt (show p < 2 ^ 32 by omega)).symm

theorem aligned_chunk : (chunk id table start tokens).Aligned where
  counts := rfl
  contexts := rfl
  tables := rfl
  positions := List.length_range'
  sum := List.sum_singleton

theorem places_chunk : (chunk id table start tokens).places
    = placesFrom table start tokens.length := by
  have hseq : (chunk id table start tokens).seqOfRow = List.replicate tokens.length 0 := by
    show [(tokens.length, 0)].flatMap _ = _
    rw [List.flatMap_singleton]
  unfold places placesFrom
  rw [hseq]
  show ((List.range' start tokens.length).zip _).map _ = _
  refine List.ext_getElem (by simp) (fun i hi hi' => ?_)
  simp [chunk]

end ForwardBatch

namespace TransformerModel

variable {F D : Type*} [Scalars F D] {m : TransformerModel F} {kv kv' : KvStore F}
  {id : SequenceId} {table : List BlockId} {start : ℕ} {tokens : List TokenId}
  {out : ForwardOutput F}

/-- The only row of logits. -/
theorem logits_singleton {n : ℕ} {hs : List m.Hidden} {ls : List F} (hlen : hs.length = n)
    (hn : n ≠ 0) :
    m.logits [n] (.ofRows hs) = .ok ls
      ↔ m.HeadChecked ∧ ∃ x, hs.getLast? = some x ∧ ls = (m.logitsRow x).1 := by
  have hlast : lastRows 0 [n] = .ok [n - 1] := by
    rw [lastRows, if_neg hn, Nat.zero_add]
    rfl
  rw [logits_eq_ok_iff, hlast]
  refine and_congr_right (fun _ => ?_)
  constructor
  · rintro ⟨last, hl, rs, hrs, rfl⟩
    obtain rfl := Except.ok.inj hl
    obtain ⟨x, rest, hx, hrest, rfl⟩ := List.forall₂_cons_left_iff.mp hrs
    obtain rfl := List.forall₂_nil_left_iff.mp hrest
    refine ⟨x, ?_, List.flatMap_singleton _ _⟩
    rw [List.getLast?_eq_getElem?, hlen]
    exact hx
  · rintro ⟨x, hx, rfl⟩
    rw [List.getLast?_eq_getElem?, hlen] at hx
    exact ⟨_, rfl, [x], .cons hx .nil, (List.flatMap_singleton _ _).symm⟩

/-- The rows that consecutive tokens start with. -/
def Starts (m : TransformerModel F) (table : List BlockId) (start : ℕ) (tokens : List TokenId)
    (ps : List (Place × m.Hidden)) : Prop :=
  ps.map Prod.fst = placesFrom table start tokens.length
    ∧ List.Forall₂ (fun tok p => m.embedRow tok = .ok p.2) tokens ps

/-- **A forward pass over consecutive tokens.** -/
theorem forwardOn_chunk_iff (hfit : m.ResidualsFit) (hne : tokens ≠ [])
    (hkv : kv.toKvShape = m.kv.toKvShape) :
    m.forwardOn (.chunk id table start tokens) kv = (kv', .ok out)
      ↔ (m.Located (placesFrom table start tokens.length)
          ∧ m.AllChecked (List.range m.metadata.numLayers) ∧ m.HeadChecked)
        ∧ ∃ ps qs, m.Starts table start tokens ps ∧ kv'.toKvShape = m.kv.toKvShape
          ∧ m.stack.Run (List.range m.metadata.numLayers) kv.view ps kv'.view qs
          ∧ ∃ q, qs.getLast? = some q
            ∧ out = ⟨(m.logitsRow q.2).1, m.metadata.vocabSize, [id]⟩ := by
  have htokens : (ForwardBatch.chunk id table start tokens).tokens ≠ [] := hne
  rw [forwardOn_eq_ok_iff hfit htokens hkv]
  have hlogits : ∀ {ps qs : List (Place × m.Hidden)} {ls : List F},
      m.Starts table start tokens ps →
      m.stack.Run (List.range m.metadata.numLayers) kv.view ps kv'.view qs →
      (m.logits [tokens.length] (.ofRows (qs.map Prod.snd)) = .ok ls
        ↔ m.HeadChecked ∧ ∃ q, qs.getLast? = some q ∧ ls = (m.logitsRow q.2).1) := by
    intro ps qs ls hps hrun
    have hlen := congrArg List.length hrun.map_fst
    rw [List.length_map, List.length_map, ← hps.2.length_eq] at hlen
    rw [logits_singleton (by rw [List.length_map, hlen])
      (Nat.ne_of_gt (List.length_pos_of_ne_nil hne)), List.getLast?_map]
    simp only [Option.map_eq_some_iff]
    exact and_congr_right (fun _ => ⟨fun ⟨_, ⟨q, hq, hx⟩, hl⟩ => ⟨q, hq, hx ▸ hl⟩,
      fun ⟨q, hq, hl⟩ => ⟨_, ⟨q, hq, rfl⟩, hl⟩⟩)
  unfold Embedded
  rw [ForwardBatch.places_chunk]
  constructor
  · rintro ⟨⟨-, hloc, hall⟩, ps, qs, hps, hkv', hrun, ls, hls, rfl⟩
    obtain ⟨hhead, q, hq, rfl⟩ := (hlogits hps hrun).mp hls
    exact ⟨⟨hloc, hall, hhead⟩, ps, qs, hps, hkv', hrun, q, hq, rfl⟩
  · rintro ⟨⟨hloc, hall, hhead⟩, ps, qs, hps, hkv', hrun, q, hq, rfl⟩
    exact ⟨⟨ForwardBatch.aligned_chunk, hloc, hall⟩, ps, qs, hps, hkv', hrun, _,
      (hlogits hps hrun).mpr ⟨hhead, q, hq, rfl⟩, rfl⟩

/-! ## Positions have slots of their own -/

/-- **A block table without repetition resolves positions to different slots.** -/
theorem locate_injective {bs : ℕ} (htable : table.Nodup) {p q : ℕ} {a : BlockId × ℕ}
    (hp : locate table p bs = some a) (hq : locate table q bs = some a) : p = q := by
  unfold locate at hp hq
  rw [Option.map_eq_some_iff] at hp hq
  obtain ⟨x, hx, rfl⟩ := hp
  obtain ⟨y, hy, hxy⟩ := hq
  obtain ⟨rfl, hmod⟩ := Prod.mk.inj hxy
  have hdiv : p / bs = q / bs := by
    refine (List.getElem?_inj ?_ htable).mp (hx.trans hy.symm)
    exact (List.getElem?_eq_some_iff.mp hx).1
  rw [← Nat.div_add_mod p bs, ← Nat.div_add_mod q bs, hdiv, hmod]

/-- The slots of the positions below a bound. -/
def slotsBelow (m : TransformerModel F) (table : List BlockId) (n : ℕ) : Set (BlockId × ℕ) :=
  {a | ∃ pos < n, locate table pos m.blockSize = some a}

theorem within_slotsBelow {ps : List (Place × m.Hidden)} {n : ℕ}
    (hloc : m.Located (placesFrom table start n))
    (hps : ps.map Prod.fst = placesFrom table start n) :
    m.stack.Within ps (m.slotsBelow table (start + n)) := by
  intro p hp
  have hmem : p.1 ∈ placesFrom table start n := hps ▸ List.mem_map_of_mem hp
  have hslot := slotOf_eq (hloc p.1 hmem)
  obtain ⟨pos, hpos, hplace⟩ := List.mem_map.mp hmem
  rw [List.mem_range'_1] at hpos
  rw [← hplace] at hslot ⊢
  refine ⟨⟨pos, hpos.2, hslot⟩, fun a ⟨pos', hpos', ha⟩ => ⟨pos', ?_, ha⟩⟩
  exact lt_of_le_of_lt hpos' hpos.2

/-- A later row writes at no slot of an earlier position. -/
theorem notMem_slotsBelow {ps : List (Place × m.Hidden)} {n : ℕ} (htable : table.Nodup)
    (hloc : m.Located (placesFrom table start n))
    (hps : ps.map Prod.fst = placesFrom table start n) :
    ∀ a ∈ m.stack.addrs ps, a ∉ m.slotsBelow table start := by
  rintro a ha ⟨pos, hpos, hlocate⟩
  obtain ⟨p, hp, rfl⟩ := List.mem_map.mp ha
  have hmem : p.1 ∈ placesFrom table start n := hps ▸ List.mem_map_of_mem hp
  have hslot := slotOf_eq (hloc p.1 hmem)
  obtain ⟨pos', hpos', hplace⟩ := List.mem_map.mp hmem
  rw [List.mem_range'_1] at hpos'
  rw [← hplace] at hslot hlocate
  have heq : pos = pos' := locate_injective htable hlocate hslot
  omega

/-! ## One chunk after the other -/

/-- Runs chunks one after the other, the first from position `start`. -/
def forwardChunks (id : SequenceId) (table : List BlockId) :
    ℕ → List (List TokenId) → TransformerModel F →
      TransformerModel F × Except Fault (List (ForwardOutput F))
  | _, [], m => (m, .ok [])
  | start, chunk :: chunks, m =>
    Attempt.andThen (m.forward (.chunk id table start chunk)) (fun m out =>
      Attempt.andThen (forwardChunks id table (start + chunk.length) chunks m) (fun m outs =>
        (m, .ok (out :: outs))))

/-- The same over an arena. -/
inductive Chunks (m : TransformerModel F) (id : SequenceId) (table : List BlockId) :
    ℕ → List (List TokenId) → KvStore F → KvStore F → List (ForwardOutput F) → Prop
  | nil (start : ℕ) (kv : KvStore F) : Chunks m id table start [] kv kv []
  | cons {start : ℕ} {chunk : List TokenId} {chunks : List (List TokenId)}
      {kv kv₁ kv' : KvStore F} {out : ForwardOutput F} {outs : List (ForwardOutput F)} :
      m.forwardOn (.chunk id table start chunk) kv = (kv₁, .ok out) →
      Chunks m id table (start + chunk.length) chunks kv₁ kv' outs →
      Chunks m id table start (chunk :: chunks) kv kv' (out :: outs)

theorem forwardChunks_eq_ok {chunks : List (List TokenId)} {m m' : TransformerModel F}
    {outs : List (ForwardOutput F)} (h : forwardChunks id table start chunks m = (m', .ok outs))
    (m₀ : TransformerModel F) (hm₀ : ∃ kv h, m = m₀.withKv kv h) :
    ∃ kv' h', m' = m₀.withKv kv' h' ∧ Chunks m₀ id table start chunks m.kv kv' outs := by
  induction chunks generalizing start m outs with
  | nil =>
    obtain rfl : m = m' := congrArg Prod.fst h
    obtain rfl := Except.ok.inj (congrArg Prod.snd h)
    obtain ⟨kv, hkv, rfl⟩ := hm₀
    exact ⟨kv, hkv, rfl, .nil _ _⟩
  | cons chunk chunks ih =>
    obtain ⟨m₁, out, hfirst, h⟩ := Attempt.andThen_eq_ok_iff.mp h
    obtain ⟨m₂, outs', hrest, h⟩ := Attempt.andThen_eq_ok_iff.mp h
    obtain rfl : m₂ = m' := congrArg Prod.fst h
    obtain rfl := Except.ok.inj (congrArg Prod.snd h)
    obtain ⟨kv, hkv, rfl⟩ := hm₀
    obtain ⟨kv₁, hkv₁, hrun, rfl⟩ := forward_eq_ok_iff.mp hfirst
    obtain ⟨kv', hkv', rfl, hchunks⟩ := ih hrest ⟨kv₁, hkv₁.trans hkv, rfl⟩
    exact ⟨kv', hkv', rfl, .cons ((forwardOn_withKv hkv).symm.trans hrun) hchunks⟩

theorem placesFrom_append (table : List BlockId) (start n k : ℕ) :
    placesFrom table start n ++ placesFrom table (start + n) k
      = placesFrom table start (n + k) := by
  unfold placesFrom
  rw [← List.map_append, List.range'_append_1]

/-- **The chunks together are one pass**: they leave the arena of a pass over
all their tokens, and the last of them returns what it returns. -/
theorem Chunks.flatten (hfit : m.ResidualsFit) (htable : table.Nodup)
    {chunks : List (List TokenId)} (hne : ∀ chunk ∈ chunks, chunk ≠ [])
    {outs : List (ForwardOutput F)} (hkv : kv.toKvShape = m.kv.toKvShape)
    (h : Chunks m id table start chunks kv kv' outs) {last : ForwardOutput F}
    (hlast : outs.getLast? = some last) :
    m.forwardOn (.chunk id table start chunks.flatten) kv = (kv', .ok last) := by
  induction h with
  | nil => exact absurd hlast (by simp)
  | @cons start chunk chunks kv kv₁ kv' out outs hfirst hrest ih =>
    obtain ⟨hchunk, hne⟩ := List.forall_mem_cons.mp hne
    cases hrest with
    | nil =>
      obtain rfl := Option.some.inj hlast
      rwa [List.flatten_cons, List.flatten_nil, List.append_nil]
    | @cons _ chunk₂ chunks _ kv₂ _ out₂ outs hsecond hrest =>
      have hkv₁ : kv₁.toKvShape = m.kv.toKvShape := by
        have hshape := m.shape_forwardOn (.chunk id table start chunk) kv
        rw [hfirst] at hshape
        exact hshape.trans hkv
      have hrun := ih hne hkv₁ (by rwa [List.getLast?_cons_cons] at hlast)
      have hne₂ : (chunk₂ :: chunks).flatten ≠ [] := by
        rw [List.flatten_cons]
        exact List.append_ne_nil_of_left_ne_nil (hne chunk₂ List.mem_cons_self) _
      obtain ⟨⟨hloc₁, hall, hhead⟩, ps₁, qs₁, hps₁, -, hrun₁, -, -⟩ :=
        (forwardOn_chunk_iff hfit hchunk hkv).mp hfirst
      obtain ⟨⟨hloc₂, -, -⟩, ps₂, qs₂, hps₂, hkv', hrun₂, q, hq, rfl⟩ :=
        (forwardOn_chunk_iff hfit hne₂ hkv₁).mp hrun
      have hlen : (chunk :: chunk₂ :: chunks).flatten.length
          = chunk.length + (chunk₂ :: chunks).flatten.length := by
        rw [List.flatten_cons, List.length_append]
      have hall₁₂ := LayerStack.Run.append List.nodup_range hrun₁ hrun₂
        (within_slotsBelow hloc₁ hps₁.1) (notMem_slotsBelow htable hloc₂ hps₂.1)
      refine (forwardOn_chunk_iff hfit ?_ hkv).mpr ⟨⟨?_, hall, hhead⟩, ps₁ ++ ps₂, qs₁ ++ qs₂,
        ⟨?_, ?_⟩, hkv', hall₁₂, q, ?_, rfl⟩
      · rw [List.flatten_cons]
        exact List.append_ne_nil_of_left_ne_nil hchunk _
      · rw [hlen, ← placesFrom_append]
        exact List.forall_mem_append.mpr ⟨hloc₁, hloc₂⟩
      · rw [hlen, ← placesFrom_append, List.map_append, hps₁.1, hps₂.1]
      · rw [List.flatten_cons]
        exact List.rel_append hps₁.2 hps₂.2
      · rw [List.getLast?_append, hq]
        rfl

end TransformerModel

/-- **Chunked prefill equals a full prefill.** When the residual connections
fit, chunks of a token list, run one after the other over a table that names
no block twice, leave the model that one pass over the whole list leaves, and
the last of them returns what that pass returns. A row reads the rows before it
from the arena in either case, where the chunk before has written them. -/
theorem TransformerModel.forward_chunks {F D : Type*} [Scalars F D] {m m' : TransformerModel F}
    (hfit : m.ResidualsFit) {id : SequenceId} {table : List BlockId} (htable : table.Nodup)
    {chunks : List (List TokenId)} (hne : ∀ chunk ∈ chunks, chunk ≠ [])
    {outs : List (ForwardOutput F)}
    (h : forwardChunks id table 0 chunks m = (m', .ok outs)) {last : ForwardOutput F}
    (hlast : outs.getLast? = some last) :
    m.forward (.chunk id table 0 chunks.flatten) = (m', .ok last) := by
  obtain ⟨kv', hkv', rfl, hchunks⟩ := forwardChunks_eq_ok h m ⟨m.kv, rfl, rfl⟩
  exact forward_eq_ok_iff.mpr ⟨kv', hkv', hchunks.flatten hfit htable hne rfl hlast, rfl⟩

namespace TransformerModel

open TinyModel

/-- Two tokens in two chunks, with weights that fit. -/
theorem forward_chunks_two :
    fitting.forward (.chunk ⟨1⟩ [⟨0⟩] 0 [[0], [0]].flatten)
      = ((forwardChunks ⟨1⟩ [⟨0⟩] 0 [[0], [0]] fitting).1, .ok ⟨[-1], 1, [⟨1⟩]⟩) := by
  have hchunks : forwardChunks ⟨1⟩ [⟨0⟩] 0 [[0], [0]] fitting
      = ((forwardChunks ⟨1⟩ [⟨0⟩] 0 [[0], [0]] fitting).1,
        .ok [⟨[-1], 1, [⟨1⟩]⟩, ⟨[-1], 1, [⟨1⟩]⟩]) :=
    Prod.ext rfl (by decide +kernel)
  refine forward_chunks (fun w hw => ?_) (by decide) (by decide) hchunks rfl
  rw [List.mem_singleton.mp hw]
  exact ⟨rfl, rfl⟩

/-- With an output projection of the wrong height, two chunks give other logits
than one pass. -/
theorem forward_chunks_misfit :
    TransformerModel.new TinyModel.metadata misfit.weights 2 2 = .ok misfit
      ∧ (forwardChunks ⟨1⟩ [⟨0⟩] 0 [[0], [0]] misfit).2
        = .ok [⟨[1], 1, [⟨1⟩]⟩, ⟨[1], 1, [⟨1⟩]⟩]
      ∧ (misfit.forward (.chunk ⟨1⟩ [⟨0⟩] 0 [0, 0])).2 = .ok ⟨[-1], 1, [⟨1⟩]⟩ := by
  refine ⟨rfl, ?_, ?_⟩
  · decide +kernel
  · decide +kernel

end TransformerModel
