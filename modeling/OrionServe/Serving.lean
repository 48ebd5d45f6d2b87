import OrionServe.Recomputation

/-!
# Serving from the cache

A run over one arena is a list of batches. Each batch has jobs of several
sequences: chunks of prompts, single tokens, in any order and any mix, over
block tables that may share blocks. What makes the run right is said of tables
and tokens alone: at each position that a row reads, its table leads to a slot
that holds the sequence's own text up to there (`TransformerModel.Coherent`).
As long as this is so, the logits of every job are those of the transformer
without a cache (`TransformerModel.forwardAll_recomputes`) – whatever else is
in the batches: of rows behind the known text of their sequence nothing is
asked, and nothing is said.
-/

open Tensor Scalars

/-! ## Batches of slots -/

/-- The batch that slots make, one pushed after the other. -/
def ForwardBatch.ofSlots (slots : List BatchSlot) : ForwardBatch := slots.foldl .push .empty

theorem ForwardBatch.foldl_push {b : ForwardBatch} (hb : b.Aligned) (slots : List BatchSlot) :
    (slots.foldl .push b).Aligned
      ∧ (slots.foldl .push b).rows = b.rows ++ slots.flatMap BatchSlot.rows
      ∧ (slots.foldl .push b).tokens = b.tokens ++ slots.flatMap BatchSlot.tokens
      ∧ (slots.foldl .push b).sequenceIds = b.sequenceIds ++ slots.map BatchSlot.id
      ∧ (slots.foldl .push b).slotTokenCounts
        = b.slotTokenCounts ++ slots.map (fun s => s.tokens.length) := by
  induction slots generalizing b with
  | nil => simpa using hb
  | cons s slots ih =>
    obtain ⟨ha, hr, ht, hi, hc⟩ := ih (hb.push s)
    refine ⟨ha, ?_, ?_, ?_, ?_⟩
    · rw [List.foldl_cons, hr, ForwardBatch.rows_push hb, List.flatMap_cons, List.append_assoc]
    · rw [List.foldl_cons, ht, List.flatMap_cons, ← List.append_assoc]
      rfl
    · rw [List.foldl_cons, hi, List.map_cons]
      exact List.append_assoc _ _ _
    · rw [List.foldl_cons, hc, List.map_cons]
      exact List.append_assoc _ _ _

theorem ForwardBatch.token_rows {b : ForwardBatch} (hb : b.Aligned) :
    b.rows.map Row.token = b.tokens := by
  have hlen : b.tokens.length = (b.positions.zip b.seqOfRow).length := by
    rw [List.length_zip, length_seqOfRow, hb.sum, hb.positions, min_self]
  conv_rhs => rw [← List.map_id b.tokens]
  unfold rows
  refine List.map_zipWith_fst ?_ hlen
  exact fun _ _ => rfl

/-- What a sequence has in a pass, and the text of the sequence as far as it is
known. -/
structure Job where
  slot : BatchSlot
  text : List TokenId

namespace Job

/-- Where the rows of a job are. -/
def places (j : Job) : List Place := j.slot.rows.map Row.place

/-- The text up to each of its rows. -/
def prefixes (j : Job) : List (Option (List TokenId)) :=
  j.slot.rows.map (fun r =>
    if r.position < j.text.length then some (j.text.take (r.position + 1)) else none)

/-- The rows have the tokens of the text. -/
structure Fits (j : Job) : Prop where
  nonempty : j.slot.tokens ≠ []
  tokens : ∀ r ∈ j.slot.rows, r.position < j.text.length → j.text[r.position]? = some r.token

/-- The text up to the last token of the slot, if it is known that far. -/
def context (j : Job) : Option (List TokenId) :=
  let stop := j.slot.start + j.slot.tokens.length
  if stop ≤ j.text.length ∧ stop ≤ 2 ^ 32 then some (j.text.take stop) else none

variable {j : Job}

instance : Decidable j.Fits :=
  decidable_of_iff (j.slot.tokens ≠ []
    ∧ ∀ r ∈ j.slot.rows, r.position < j.text.length → j.text[r.position]? = some r.token)
    ⟨fun h => ⟨h.1, h.2⟩, fun h => ⟨h.nonempty, h.tokens⟩⟩

theorem length_rows : j.slot.rows.length = j.slot.tokens.length := by
  simp [BatchSlot.rows, BatchSlot.length_positions]

/-- What a row stands for, if anything. -/
theorem mem_prefix_iff {r : Row} {tokens : List TokenId} :
    tokens ∈ (if r.position < j.text.length then some (j.text.take (r.position + 1)) else none)
      ↔ r.position < j.text.length ∧ tokens = j.text.take (r.position + 1) := by
  split
  · next h => exact ⟨fun heq => ⟨h, (Option.some.inj heq).symm⟩, fun heq => congrArg _ heq.2.symm⟩
  · next h => exact ⟨fun heq => absurd heq (by simp), fun heq => absurd heq.1 h⟩

/-- Each row has the last token of what it stands for. -/
theorem Fits.prefixes (h : j.Fits) : List.Forall₂ (fun r o => ∀ tokens ∈ o,
    tokens.length = r.position + 1 ∧ tokens.getLast? = some r.token) j.slot.rows j.prefixes := by
  refine List.forall₂_map_right_iff.mpr (List.forall₂_same.mpr (fun r hr tokens htokens => ?_))
  obtain ⟨hlt, rfl⟩ := mem_prefix_iff.mp htokens
  rw [List.length_take, min_eq_left hlt, List.getLast?_take, if_neg (Nat.succ_ne_zero _),
    Nat.add_sub_cancel, h.tokens r hr hlt]
  exact ⟨rfl, rfl⟩

/-- The last row of a job stands for its context. -/
theorem Fits.last (h : j.Fits) {context : List TokenId} (hctx : context ∈ j.context) :
    j.prefixes[j.slot.tokens.length - 1]? = some (some context) := by
  unfold Job.context at hctx
  simp only at hctx
  split at hctx
  · next hstop =>
    obtain rfl := Option.some.inj hctx
    have hpos := List.length_pos_of_ne_nil h.nonempty
    have hi : j.slot.tokens.length - 1 < j.slot.rows.length := by
      rw [length_rows]
      omega
    have hposition : (j.slot.rows[j.slot.tokens.length - 1]).position
        = j.slot.start + j.slot.tokens.length - 1 := by
      simp only [BatchSlot.rows, List.getElem_zipWith, BatchSlot.positions, List.getElem_map,
        List.getElem_range', Nat.one_mul]
      rw [Nat.mod_eq_of_lt (by omega)]
      omega
    rw [Job.prefixes, List.getElem?_map, List.getElem?_eq_getElem hi, Option.map_some, hposition,
      if_pos (by omega), Nat.sub_add_cancel (by omega)]
  · exact absurd hctx (by simp)

end Job

namespace TransformerModel

variable {F D : Type*} [Scalars F D] {m : TransformerModel F} {kv kv' : KvStore F}
  {b : ForwardBatch} {out : ForwardOutput F} {jobs : List Job} {gs : List (Option (List TokenId))}

/-- Which tokens the slots of the arena hold the keys and values of. -/
abbrev Contents := BlockId × ℕ → Option (List TokenId)

variable (m) in
/-- **The arena has the keys and values of its contents**, at every layer. -/
def Faithful (c : Contents) (kv : KvStore F) : Prop :=
  ∀ layer ∈ List.range m.metadata.numLayers, m.meaning.Faithful c layer (kv.view layer)

/-- An arena is faithful to contents that say nothing. -/
theorem faithful_none : m.Faithful (fun _ => none) kv :=
  fun _ _ _ _ h => absurd h (by simp)

/-! ## One batch -/

/-- **A forward pass over rows that find what they expect.** -/
theorem forwardOn_recomputes (hfit : m.ResidualsFit) (hne : b.tokens ≠ [])
    (hkv : kv.toKvShape = m.kv.toKvShape) (h : m.forwardOn b kv = (kv', .ok out))
    (hgs : List.Forall₂ (fun r o => ∀ tokens ∈ o,
      tokens.length = r.position + 1 ∧ tokens.getLast? = some r.token) b.rows gs)
    {c : Contents} (hc : m.Faithful c kv) (hfind : m.meaning.Coherent c b.places gs) :
    m.Faithful (m.stack.contents c b.places gs) kv' ∧ out.vocabSize = m.metadata.vocabSize
      ∧ out.sequenceIds = b.sequenceIds
      ∧ ∃ last ls, lastRows 0 b.slotTokenCounts = .ok last ∧ out.logits = ls.flatten
        ∧ (∀ l ∈ ls, l.length = m.head.rows)
        ∧ List.Forall₂ (fun i l => ∀ tokens, gs[i]? = some (some tokens) →
          m.logitsOf tokens = .ok l) last ls := by
  obtain ⟨⟨haligned, hlocated, -⟩, ps, qs, hps, -, hrun, ls, hls, rfl⟩ :=
    (forwardOn_eq_ok_iff hfit hne hkv).mp h
  -- the rows start out standing for their tokens
  have hstands : List.Forall₂ (fun p o => ∀ tokens ∈ o,
      m.meaning.Stands (List.range m.metadata.numLayers) p.1 p.2 tokens) ps gs := by
    have hplaces := hps.1.trans (ForwardBatch.places_eq haligned)
    have htokens : b.tokens = b.rows.map Row.token := (ForwardBatch.token_rows haligned).symm
    have hembed := hps.2
    rw [htokens, List.forall₂_map_left_iff] at hembed
    refine List.forall₂_iff_get.mpr
      ⟨hembed.length_eq.symm.trans hgs.length_eq, fun i hi hi' tokens hmem => ?_⟩
    have hrow : i < b.rows.length := hgs.length_eq ▸ hi'
    obtain ⟨hlen, hlast⟩ := hgs.get hrow hi' tokens hmem
    have hx := hembed.get hrow hi
    have hplace : (ps.get ⟨i, hi⟩).1 = (b.rows.get ⟨i, hrow⟩).place := by
      have hget := congrArg (fun l => l[i]?) hplaces
      simpa [List.getElem?_map, List.getElem?_eq_getElem hi, List.getElem?_eq_getElem hrow]
        using hget
    refine ⟨?_, ?_, 0, Nat.zero_le _, List.range_eq_range', ?_⟩
    · rw [hplace, hlen]
      rfl
    · refine hlocated _ ?_
      rw [← hps.1]
      exact List.mem_map_of_mem (List.get_mem ps ⟨i, hi⟩)
    · rw [hiddenOf, hlast]
      exact hx
  have hfind' : m.meaning.Coherent c (ps.map Prod.fst) gs := hps.1 ▸ hfind
  obtain ⟨hfaithful, hends⟩ := LayerStack.Run.faithful occurs_layer List.nodup_range hrun
    ⟨kv, hkv, rfl⟩ hstands hc hfind'
  refine ⟨hps.1 ▸ hfaithful, rfl, rfl, ?_⟩
  obtain ⟨-, last, hlast, rs, hrs, rfl⟩ := logits_eq_ok_iff.mp hls
  refine ⟨last, rs.map (fun r => (m.logitsRow r).1), hlast, ?_, ?_, ?_⟩
  · rw [List.flatMap_def]
  · exact List.forall_mem_map.mpr (fun r _ => (m.logitsRow r).2)
  · refine List.forall₂_map_right_iff.mpr (hrs.imp (fun i r hr => ?_))
    rw [List.getElem?_map, Option.map_eq_some_iff] at hr
    obtain ⟨q, hq, rfl⟩ := hr
    intro tokens htokens
    obtain ⟨hi, rfl⟩ := List.getElem?_eq_some_iff.mp hq
    obtain ⟨hi', hget⟩ := List.getElem?_eq_some_iff.mp htokens
    obtain ⟨-, -, layer, hle, hlayer, hx⟩ := hends.get hi hi' tokens hget
    have hlast : layer = m.metadata.numLayers :=
      hle.antisymm (Nat.le_of_sub_eq_zero (List.range'_eq_nil_iff.mp hlayer.symm))
    rw [logitsOf, ← hlast]
    exact congrArg (Except.map _) hx

/-! ## Jobs -/

variable (m) in
/-- The contents after jobs have been run. -/
def contentsAfter (c : Contents) (jobs : List Job) : Contents :=
  m.stack.contents c (jobs.flatMap Job.places) (jobs.flatMap Job.prefixes)

variable (m) in
/-- **Jobs find their own text**: the slot of each position that a row within
the text reads holds, once all have written, the text up to there. -/
def Coherent (c : Contents) (jobs : List Job) : Prop :=
  ∀ j ∈ jobs, j.Fits ∧ ∀ r ∈ j.slot.rows, r.position < j.text.length → ∀ pos ≤ r.position,
    ∀ a ∈ locate j.slot.table pos m.blockSize,
      m.contentsAfter c jobs a = some (j.text.take (pos + 1))

variable (m) in
/-- **The answer of a pass over jobs**: one row of logits for each, that of the
transformer without a cache where the text is known. -/
def Answers (jobs : List Job) (out : ForwardOutput F) : Prop :=
  out.vocabSize = m.metadata.vocabSize ∧ out.sequenceIds = jobs.map (fun j => j.slot.id)
    ∧ ∃ ls, out.logits = ls.flatten ∧ (∀ l ∈ ls, l.length = m.head.rows)
      ∧ List.Forall₂ (fun j l => ∀ context ∈ j.context, m.logitsOf context = .ok l) jobs ls

instance (c : Contents) (jobs : List Job) : Decidable (m.Coherent c jobs) := by
  unfold Coherent
  infer_instance

theorem places_ofSlots (jobs : List Job) :
    (ForwardBatch.ofSlots (jobs.map Job.slot)).places = jobs.flatMap Job.places := by
  obtain ⟨ha, hr, -⟩ := ForwardBatch.foldl_push ForwardBatch.aligned_empty (jobs.map Job.slot)
  rw [ForwardBatch.ofSlots, ForwardBatch.places_eq ha, hr]
  show ((jobs.map Job.slot).flatMap BatchSlot.rows).map Row.place = _
  rw [List.flatMap_map, List.map_flatMap]
  rfl

/-- What jobs write, row by row. -/
theorem writes_jobs (jobs : List Job) :
    List.zipWith (fun p g => (m.slotOf p, g)) (jobs.flatMap Job.places)
      (jobs.flatMap Job.prefixes)
      = jobs.flatMap (fun j => j.slot.rows.map (fun r => (m.slotOf r.place,
        if r.position < j.text.length then some (j.text.take (r.position + 1)) else none))) := by
  induction jobs with
  | nil => rfl
  | cons j jobs ih =>
    have hlen : j.places.length = j.prefixes.length := by
      rw [Job.places, Job.prefixes, List.length_map, List.length_map]
    rw [List.flatMap_cons, List.flatMap_cons, List.flatMap_cons, List.zipWith_append hlen, ih,
      Job.places, Job.prefixes, List.zipWith_map, List.zipWith_self]

/-- A slot where every row that writes it has one thing to say holds that, if it
did before or a row writes it at all. -/
theorem contentsAfter_eq {c : Contents} {a : BlockId × ℕ} {v : Option (List TokenId)}
    (hall : ∀ j ∈ jobs, ∀ r ∈ j.slot.rows, m.slotOf r.place = a →
      (if r.position < j.text.length then some (j.text.take (r.position + 1)) else none) = v)
    (hv : c a = v ∨ ∃ j ∈ jobs, ∃ r ∈ j.slot.rows, m.slotOf r.place = a) :
    m.contentsAfter c jobs a = v := by
  show LayerStack.put c (List.zipWith (fun p g => (m.slotOf p, g)) _ _) a = v
  rw [writes_jobs]
  refine LayerStack.put_eq_of_forall (fun w hw ha => ?_) (hv.imp_right (fun hrow => ?_))
  · obtain ⟨j, hj, hw⟩ := List.mem_flatMap.mp hw
    obtain ⟨r, hr, rfl⟩ := List.mem_map.mp hw
    exact hall j hj r hr ha
  · obtain ⟨j, hj, r, hr, rfl⟩ := hrow
    exact List.mem_map.mpr ⟨_, List.mem_flatMap.mpr ⟨j, hj, List.mem_map.mpr ⟨r, hr, rfl⟩⟩, rfl⟩

/-- **What is in a slot once jobs have written** is what the last row that writes
it has to say; or what was there, if there is none. -/
theorem contentsAfter_eq_last (c : Contents) (jobs : List Job) (a : BlockId × ℕ) :
    m.contentsAfter c jobs a
      = ((((jobs.flatMap (fun j => j.slot.rows.map (fun r => (j, r)))).filter
            (fun x => m.slotOf x.2.place = a)).getLast?).map
          (fun x => if x.2.position < x.1.text.length
            then some (x.1.text.take (x.2.position + 1)) else none)).getD (c a) := by
  show LayerStack.put c (List.zipWith (fun p g => (m.slotOf p, g)) _ _) a = _
  have hwrites : jobs.flatMap (fun j => j.slot.rows.map (fun r => (m.slotOf r.place,
        if r.position < j.text.length then some (j.text.take (r.position + 1)) else none)))
      = (jobs.flatMap (fun j => j.slot.rows.map (fun r => (j, r)))).map
        (fun x => (m.slotOf x.2.place, if x.2.position < x.1.text.length
          then some (x.1.text.take (x.2.position + 1)) else none)) := by
    simp only [List.map_flatMap, List.map_map]
    rfl
  rw [writes_jobs, hwrites, LayerStack.put_eq_last, List.filter_map, List.getLast?_map,
    Option.map_map]
  rfl

/-- The last row of each job stands for the job's context. -/
theorem lastRows_jobs (before : List (Option (List TokenId))) (hjobs : ∀ j ∈ jobs, j.Fits) :
    ∃ last, lastRows before.length (jobs.map (fun j => j.slot.tokens.length)) = .ok last
      ∧ List.Forall₂ (fun i j => ∀ context ∈ j.context,
        (before ++ jobs.flatMap Job.prefixes)[i]? = some (some context)) last jobs := by
  induction jobs generalizing before with
  | nil => exact ⟨[], rfl, .nil⟩
  | cons j jobs ih =>
    obtain ⟨hj, hjobs⟩ := List.forall_mem_cons.mp hjobs
    have hlen : j.prefixes.length = j.slot.tokens.length := by
      rw [Job.prefixes, List.length_map, Job.length_rows]
    have hpos := List.length_pos_of_ne_nil hj.nonempty
    obtain ⟨last, hlast, hrest⟩ := ih (before ++ j.prefixes) hjobs
    rw [List.length_append, hlen] at hlast
    refine ⟨(before.length + j.slot.tokens.length - 1) :: last, ?_,
      .cons (fun context hctx => ?_) ?_⟩
    · rw [List.map_cons, lastRows, if_neg (Nat.ne_of_gt hpos), hlast]
      rfl
    · rw [List.getElem?_append_right (by omega), List.flatMap_cons,
        List.getElem?_append_left (by omega), ← hj.last hctx]
      congr 1
      omega
    · rw [List.flatMap_cons, ← List.append_assoc]
      exact hrest

/-- Jobs that find their own tokens do so row by row. -/
theorem Coherent.rows {c : Contents} (h : m.Coherent c jobs) :
    m.meaning.Coherent c (jobs.flatMap Job.places) (jobs.flatMap Job.prefixes) := by
  have hjob : ∀ j ∈ jobs, List.Forall₂ (fun p o => ∀ tokens ∈ o, ∀ a tokens',
      m.meaning.Expects p tokens a tokens' → m.contentsAfter c jobs a = some tokens')
      j.places j.prefixes := by
    intro j hj
    obtain ⟨-, hread⟩ := h j hj
    refine List.forall₂_map_left_iff.mpr (List.forall₂_map_right_iff.mpr
      (List.forall₂_same.mpr (fun r hr tokens htokens a tokens' => ?_)))
    obtain ⟨hlt, rfl⟩ := Job.mem_prefix_iff.mp htokens
    obtain ⟨i, t, -, rfl⟩ := BatchSlot.mem_rows_iff.mp hr
    rintro ⟨pos, hpos, ha, rfl⟩
    have hle : pos + 1 ≤ (j.slot.start + i) % 2 ^ 32 + 1 := Nat.succ_le_succ hpos
    rw [List.take_take, min_eq_left hle]
    exact hread _ hr hlt pos hpos a ha
  unfold LayerStack.Meaning.Coherent
  show List.Forall₂ (fun p o => ∀ tokens ∈ o, ∀ a tokens',
    m.meaning.Expects p tokens a tokens' → m.contentsAfter c jobs a = some tokens') _ _
  generalize m.contentsAfter c jobs = c' at hjob
  clear h
  induction jobs with
  | nil => exact .nil
  | cons j jobs ih =>
    obtain ⟨hj, hjobs⟩ := List.forall_mem_cons.mp hjob
    exact List.rel_append hj (ih hjobs)

/-- **One batch of jobs.** -/
theorem forwardOn_ofSlots (hfit : m.ResidualsFit) (hkv : kv.toKvShape = m.kv.toKvShape)
    {c : Contents} (hc : m.Faithful c kv) (hjobs : m.Coherent c jobs)
    (h : m.forwardOn (.ofSlots (jobs.map Job.slot)) kv = (kv', .ok out)) :
    m.Faithful (m.contentsAfter c jobs) kv' ∧ m.Answers jobs out := by
  obtain ⟨ha, hr, ht, hi, hn⟩ :=
    ForwardBatch.foldl_push ForwardBatch.aligned_empty (jobs.map Job.slot)
  have hfits : ∀ j ∈ jobs, j.Fits := fun j hj => (hjobs j hj).1
  by_cases hnil : jobs = []
  · subst hnil
    obtain ⟨rfl, hout⟩ := Prod.mk.inj
      ((forwardOn_nil ForwardBatch.aligned_empty rfl).symm.trans h)
    obtain rfl := Except.ok.inj hout
    exact ⟨hc, rfl, rfl, [], rfl, fun _ hl => absurd hl List.not_mem_nil, .nil⟩
  have hne : (ForwardBatch.ofSlots (jobs.map Job.slot)).tokens ≠ [] := by
    obtain ⟨j, hj⟩ := List.exists_mem_of_ne_nil _ hnil
    rw [ForwardBatch.ofSlots, ht]
    intro hempty
    refine (hfits j hj).nonempty (List.flatMap_eq_nil_iff.mp ?_ j.slot (List.mem_map_of_mem hj))
    exact hempty
  have hprefixes : List.Forall₂ (fun r o => ∀ tokens ∈ o,
      tokens.length = r.position + 1 ∧ tokens.getLast? = some r.token)
      (ForwardBatch.ofSlots (jobs.map Job.slot)).rows (jobs.flatMap Job.prefixes) := by
    rw [ForwardBatch.ofSlots, hr]
    show List.Forall₂ _ ((jobs.map Job.slot).flatMap BatchSlot.rows) _
    rw [List.flatMap_map]
    clear ha hr ht hi hn h hnil hne hjobs
    induction jobs with
    | nil => exact .nil
    | cons j jobs ih =>
      obtain ⟨hj, hjobs⟩ := List.forall_mem_cons.mp hfits
      exact List.rel_append hj.prefixes (ih hjobs)
  have hplaces := places_ofSlots jobs
  obtain ⟨hfaithful, hvocab, hids, last, ls, hlast, hlogits, hlen, hls⟩ :=
    forwardOn_recomputes hfit hne hkv h hprefixes hc (hplaces ▸ hjobs.rows)
  rw [hplaces] at hfaithful
  refine ⟨hfaithful, hvocab, ?_, ls, hlogits, hlen, ?_⟩
  · rw [hids, ForwardBatch.ofSlots, hi, List.map_map]
    rfl
  · obtain ⟨last', hlast', hcontexts⟩ := lastRows_jobs [] hfits
    rw [ForwardBatch.ofSlots, hn, List.map_map] at hlast
    obtain rfl := Except.ok.inj (hlast.symm.trans hlast')
    refine List.forall₂_iff_get.mpr
      ⟨hcontexts.length_eq.symm.trans hls.length_eq, fun i hi hi' => ?_⟩
    have hil : i < last.length := hls.length_eq ▸ hi'
    intro context hctx
    exact hls.get hil hi' context (hcontexts.get hil hi context hctx)

/-- Where the rows of the LM head are the vocabulary, the answer is read row by
row. -/
theorem Answers.row (h : m.Answers jobs out) (hvocab : m.head.rows = m.metadata.vocabSize)
    {i : ℕ} {j : Job} (hj : jobs[i]? = some j) {context : List TokenId}
    (hctx : context ∈ j.context) : ∃ l, out.row i = some l ∧ m.logitsOf context = .ok l := by
  obtain ⟨hsize, -, ls, hlogits, hlen, hls⟩ := h
  obtain ⟨hi, rfl⟩ := List.getElem?_eq_some_iff.mp hj
  have hi' : i < ls.length := hls.length_eq ▸ hi
  have hwidth : ∀ l ∈ ls, (id l).length = out.vocabSize := fun l hl =>
    (hlen l hl).trans (hvocab.trans hsize.symm)
  refine ⟨ls[i], ?_, hls.get hi hi' context hctx⟩
  have hflat : out.logits = ls.flatMap id := by rw [hlogits, List.flatMap_id]
  have hcut := List.slice_flatMap hwidth (List.getElem?_eq_getElem hi')
  rw [← hflat] at hcut
  have hfits : i * out.vocabSize + out.vocabSize ≤ out.logits.length := by
    rw [hflat, List.length_flatMap_of_const hwidth, ← Nat.succ_mul]
    exact Nat.mul_le_mul_right _ hi'
  unfold ForwardOutput.row
  rw [if_pos hfits]
  exact congrArg some hcut

/-! ## A run -/

/-- Runs batches one after the other. -/
def forwardAll : List ForwardBatch → TransformerModel F →
    TransformerModel F × Except Fault (List (ForwardOutput F))
  | [], m => (m, .ok [])
  | b :: bs, m =>
    Attempt.andThen (m.forward b) (fun m out =>
      Attempt.andThen (forwardAll bs m) (fun m outs => (m, .ok (out :: outs))))

variable (m) in
/-- **Every batch is coherent**, with the contents that those before it leave. The
contents are what the blocks should hold, not what the arena does hold; that the
two agree is what is proved. -/
def CoherentRun : Contents → List (List Job) → Prop
  | _, [] => True
  | c, jobs :: rest => m.Coherent c jobs ∧ CoherentRun (m.contentsAfter c jobs) rest

/-- **A step keeps the arena faithful**, and so does a run; its outputs are
recomputed. -/
theorem forwardAll_faithful (hfit : m.ResidualsFit) {batches : List (List Job)} {c : Contents}
    (hrun : m.CoherentRun c batches) {kv : KvStore F} (hkv : kv.toKvShape = m.kv.toKvShape)
    (hc : m.Faithful c kv) {m' : TransformerModel F} {outs : List (ForwardOutput F)}
    (h : forwardAll (batches.map (fun jobs => .ofSlots (jobs.map Job.slot))) (m.withKv kv hkv)
      = (m', .ok outs)) :
    List.Forall₂ m.Answers batches outs := by
  induction batches generalizing c kv m' outs with
  | nil =>
    obtain rfl := Except.ok.inj (congrArg Prod.snd h)
    exact .nil
  | cons jobs batches ih =>
    obtain ⟨hjobs, hrest⟩ := hrun
    rw [List.map_cons, forwardAll, Attempt.andThen_eq_ok_iff] at h
    obtain ⟨m₁, out, hfirst, h⟩ := h
    obtain ⟨m₂, outs', hlater, h⟩ := Attempt.andThen_eq_ok_iff.mp h
    obtain rfl := Except.ok.inj (congrArg Prod.snd h)
    obtain ⟨kv₁, hkv₁, hpass, rfl⟩ := forward_eq_ok_iff.mp hfirst
    have hpass := (forwardOn_withKv hkv).symm.trans hpass
    obtain ⟨hfaithful, hout⟩ := forwardOn_ofSlots hfit hkv hc hjobs hpass
    exact .cons hout (ih hrest (hkv₁.trans hkv) hfaithful hlater)

end TransformerModel

/-- **Serving from the cache is recomputing.** Take batches of jobs in which,
whatever their order and whatever blocks they share, every row within the text
of its sequence finds that text at the positions it reads. If the passes over
them succeed, from any arena, the logits of each job are those of the
transformer without a cache for the text up to there. -/
theorem TransformerModel.forwardAll_recomputes {F D : Type*} [Scalars F D]
    {m m' : TransformerModel F} (hfit : m.ResidualsFit) {batches : List (List Job)}
    (hrun : m.CoherentRun (fun _ => none) batches) {outs : List (ForwardOutput F)}
    (h : forwardAll (batches.map (fun jobs => .ofSlots (jobs.map Job.slot))) m = (m', .ok outs)) :
    List.Forall₂ m.Answers batches outs :=
  forwardAll_faithful hfit hrun rfl faithful_none h

namespace TinyModel

/-- A prompt of one token; then a second sequence that adopts its slot and goes
on in the same block, beside a third that computes everything itself. -/
def adopting : List (List Job) :=
  [[⟨⟨⟨1⟩, [0], 0, [⟨0⟩], true⟩, [0]⟩],
    [⟨⟨⟨2⟩, [0], 1, [⟨0⟩], false⟩, [0, 0]⟩, ⟨⟨⟨3⟩, [0, 0], 0, [⟨1⟩], true⟩, [0, 0]⟩]]

end TinyModel

open TinyModel in
/-- What is adopted is as good as what is computed. -/
theorem TransformerModel.forwardAll_recomputes_adopting :
    ∃ l₁ l₂ l₃, fitting.logitsOf [0] = .ok l₁ ∧ fitting.logitsOf [0, 0] = .ok l₂
      ∧ fitting.logitsOf [0, 0] = .ok l₃ ∧ l₂ ++ l₃ = [-1, -1] := by
  have hrun : forwardAll (adopting.map (fun jobs => .ofSlots (jobs.map Job.slot))) fitting
      = ((forwardAll (adopting.map (fun jobs => .ofSlots (jobs.map Job.slot))) fitting).1,
        .ok [⟨[-1], 1, [⟨1⟩]⟩, ⟨[-1, -1], 1, [⟨2⟩, ⟨3⟩]⟩]) := by
    refine Prod.ext rfl ?_
    decide +kernel
  have hcoherent : fitting.CoherentRun (fun _ => none) adopting :=
    show fitting.Coherent _ _ ∧ fitting.Coherent _ _ ∧ True from
      ⟨by decide +kernel, by decide +kernel, trivial⟩
  have hfit : fitting.ResidualsFit := by
    intro w hw
    rw [List.mem_singleton.mp hw]
    exact ⟨rfl, rfl⟩
  obtain ⟨⟨-, -, ls₁, -, -, h₁⟩, hall⟩ :=
    List.forall₂_cons.mp (forwardAll_recomputes hfit hcoherent hrun)
  obtain ⟨⟨-, -, ls, hls, -, h₂⟩, -⟩ := List.forall₂_cons.mp hall
  obtain ⟨l₁, -, hl₁, -, rfl⟩ := List.forall₂_cons_left_iff.mp h₁
  obtain ⟨l₂, _, hl₂, h₃, rfl⟩ := List.forall₂_cons_left_iff.mp h₂
  obtain ⟨l₃, _, hl₃, h₄, rfl⟩ := List.forall₂_cons_left_iff.mp h₃
  obtain rfl := List.forall₂_nil_left_iff.mp h₄
  exact ⟨l₁, l₂, l₃, hl₁ _ rfl, hl₂ _ rfl, hl₃ _ rfl, by simpa using hls.symm⟩
