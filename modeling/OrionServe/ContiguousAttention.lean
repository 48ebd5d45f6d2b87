import OrionServe.Batching

/-!
# Paged attention and contiguous attention

`paged_attention` finds the key and the value of a position through the block
table, one position at a time, and computes head by head into one output
buffer. Here is what it is meant to compute: attention of each query head
over the keys and values of its group's KV head, which lie side by side in
the order of the positions – `groupedAttention`. The two are the same for
every store and table, failures included, and so the placement of the
positions is of no account.
-/

open Tensor Scalars

section Reference

variable {F D : Type*} [Scalars F D]

/-- Attention of one query head over keys and values that lie side by side. A
value of weight zero does not count. -/
def headAttention (headDim : ℕ) (q : List F) (keys values : List (List F)) : List F :=
  let scale : F := div one (sqrt (ofNat headDim))
  let weights := softmaxInplace (keys.map (fun k => mul (dot q k) scale))
  (weights.zip values).foldl
    (fun o p => if isZero p.1 then o
      else List.zipInto (fun acc val => add acc (mul p.1 val)) o p.2)
    (List.replicate headDim zero)

/-- **Grouped-query attention over contiguous lists**, one key and one value
list for each KV head. -/
def groupedAttention (numQueryHeads numKvHeads headDim : ℕ) (query : List F)
    (keys values : ℕ → Except Fault (List (List F))) : Except Fault (List F) :=
  ((List.range numQueryHeads).mapM (fun h => do
    let ks ← keys (h / (numQueryHeads / numKvHeads))
    let vs ← values (h / (numQueryHeads / numKvHeads))
    return headAttention headDim (query.slice (h * headDim) headDim) ks vs)).map List.flatten

/-- The keys or the values of the positions up to the query's, of one KV head,
read through the block table. -/
def AttentionArgs.contiguous (args : AttentionArgs) (store : KvStore F) (isValue : Bool)
    (kvHead : ℕ) : Except Fault (List (List F)) :=
  (List.range (args.queryPosition + 1)).mapM (fun pos =>
    args.fetch (store.view args.layer) pos kvHead isValue (.internal ["position ", .nat pos,
      " is outside the block table of ", .nat args.blockTable.length, " blocks"]))

omit [Scalars F D] in
/-- The arguments are those of the store, and the table names blocks it
has. -/
structure AttentionArgs.Fits (args : AttentionArgs) (store : KvStore F) : Prop where
  layer : args.layer < store.numLayers
  blockSize : args.blockSize = store.blockSize
  numKvHeads : args.numKvHeads = store.numKvHeads
  blocks : ∀ b ∈ args.blockTable, b.index < store.numBlocks

variable {store : KvStore F} {args : AttentionArgs} {query q : List F} {kvHead n : ℕ}

theorem length_headAttention (headDim : ℕ) (q : List F) (keys values : List (List F)) :
    (headAttention headDim q keys values).length = headDim := by
  have hkeep : ∀ (ps : List (F × List F)) (o : List F),
      (ps.foldl (fun o p => if isZero p.1 then o
        else List.zipInto (fun acc val => add acc (mul p.1 val)) o p.2) o).length = o.length := by
    intro ps
    induction ps with
    | nil => exact fun o => rfl
    | cons p ps ih =>
      intro o
      rw [List.foldl_cons, ih]
      split
      · rfl
      · exact List.length_zipInto _ _ _
  show (List.foldl _ (List.replicate headDim zero) _).length = headDim
  rw [hkeep, List.length_replicate]

omit [Scalars F D] in
/-- Where there is a key there is a value. -/
theorem KvStore.view_value_of_key {layer : ℕ} {a : BlockId × ℕ} {k : List F}
    (h : store.view layer a kvHead false = .ok k) :
    ∃ v, store.view layer a kvHead true = .ok v := by
  unfold KvStore.view KvStore.read at h ⊢
  split at h
  · exact absurd h (by simp)
  · exact ⟨_, rfl⟩

omit [Scalars F D] in
/-- Values can be read where keys can. -/
theorem AttentionArgs.contiguous_value_of_key {keys : List (List F)}
    (h : args.contiguous store false kvHead = .ok keys) :
    ∃ values, args.contiguous store true kvHead = .ok values := by
  have hvalue : ∀ pos ∈ List.range (args.queryPosition + 1), ∃ v,
      args.fetch (store.view args.layer) pos kvHead true (.internal ["position ", .nat pos,
        " is outside the block table of ", .nat args.blockTable.length, " blocks"]) = .ok v := by
    intro pos hpos
    have hreads := List.mapM_eq_ok_iff.mp h
    have hpos' : pos < (List.range (args.queryPosition + 1)).length := by
      rw [List.length_range]
      exact List.mem_range.mp hpos
    have hk := hreads.get hpos' (hreads.length_eq ▸ hpos')
    simp only [List.get_eq_getElem, List.getElem_range] at hk
    unfold fetch at hk ⊢
    split at hk
    · exact absurd hk (by simp)
    · next hloc => exact KvStore.view_value_of_key hk
  choose! f hf using hvalue
  refine ⟨(List.range (args.queryPosition + 1)).map f, List.mapM_eq_ok_iff.mpr ?_⟩
  exact List.forall₂_map_right_iff.mpr (List.forall₂_same.mpr hf)

/-- **One head**: the scores of the keys through the table and the weighted sum
of the values through the table. -/
theorem AttentionArgs.headOutput_eq :
    args.headOutput (store.view args.layer) q kvHead = (do
      let ks ← args.contiguous store false kvHead
      let vs ← args.contiguous store true kvHead
      return headAttention args.headDim q ks vs) := by
  have hscores : args.scores (store.view args.layer) q kvHead
      = (args.contiguous store false kvHead).map
        (List.map (fun k => mul (dot q k) (div one (sqrt (ofNat args.headDim))))) :=
    List.mapM_map_eq _
  unfold headOutput
  rw [hscores]
  rcases hks : args.contiguous store false kvHead with e | ks
  · rfl
  obtain ⟨vs, hvs⟩ := contiguous_value_of_key hks
  rw [hvs]
  have hreads := List.mapM_eq_ok_iff.mp hvs
  have hlen : (softmaxInplace (ks.map (fun k =>
      mul (dot q k) (div one (sqrt (ofNat args.headDim)))))).length = vs.length := by
    rw [length_softmaxInplace, List.length_map, ← (List.mapM_eq_ok_iff.mp hks).length_eq,
      hreads.length_eq]
  have hfetch : ∀ i (hi : i < vs.length), args.fetch (store.view args.layer) (0 + i) kvHead true
      (.internal ["position ", .nat (0 + i), " unmapped"]) = .ok vs[i] := by
    intro i hi
    have hread := hreads.get (hreads.length_eq ▸ hi) hi
    simp only [List.get_eq_getElem, List.getElem_range] at hread
    rw [Nat.zero_add]
    unfold fetch at hread ⊢
    split at hread
    · exact absurd hread (by simp)
    · exact hread
  exact List.foldlM_zipIdx
    (f := fun pos => args.fetch (store.view args.layer) pos kvHead true
      (.internal ["position ", .nat pos, " unmapped"]))
    (fun (o : List F) (w : F) v => List.zipInto (fun acc val => add acc (mul w val)) o v)
    (fun w => isZero w) hlen hfetch

/-- **Head by head into one buffer**, which is overwritten altogether. -/
theorem pagedAttention_eq {out : RowVec F n}
    (hquery : query.length = args.numQueryHeads * args.headDim) (hout : n = query.length)
    (hkv : args.numKvHeads ≠ 0) (hgroup : args.numKvHeads ∣ args.numQueryHeads) :
    (pagedAttention store query args out).map Subtype.val
      = groupedAttention args.numQueryHeads args.numKvHeads args.headDim query
        (args.contiguous store false) (args.contiguous store true) := by
  have hsize : ¬ (query.length ≠ args.numQueryHeads * args.headDim ∨ n ≠ query.length) :=
    not_or.mpr ⟨not_not.mpr hquery, not_not.mpr hout⟩
  have hgroup' : ¬ (args.numKvHeads = 0 ∨ args.numQueryHeads % args.numKvHeads ≠ 0) :=
    not_or.mpr ⟨hkv, not_not.mpr (Nat.mod_eq_zero_of_dvd hgroup)⟩
  -- the heads of the reference, one by one
  set head : ℕ → Except Fault (List F) := fun h => args.headOutput (store.view args.layer)
    (query.slice (h * args.headDim) args.headDim)
    (h / (args.numQueryHeads / args.numKvHeads)) with hhead
  have hlen : ∀ h v, head h = .ok v → v.length = args.headDim := by
    intro h v hv
    simp only [hhead, AttentionArgs.headOutput_eq] at hv
    rcases hks : args.contiguous store false _ with e | ks
    · rw [hks] at hv
      exact absurd hv (by simp [bind, Except.bind])
    obtain ⟨vs, hvs⟩ := AttentionArgs.contiguous_value_of_key hks
    rw [hks, hvs] at hv
    rw [← Except.ok.inj hv]
    exact length_headAttention _ _ _ _
  -- what the buffer is, forgetting its length
  have hbuffer : ∀ (hs : List ℕ) (o : RowVec F n),
      (hs.foldlM (fun (o : RowVec F n) h => do
        let v ← head h
        return (⟨o.1.patch (h * args.headDim) v, by rw [List.length_patch, o.2]⟩ : RowVec F n))
        o).map Subtype.val
      = hs.foldlM (fun o h => do return o.patch (h * args.headDim) (← head h)) o.1 := by
    intro hs
    induction hs with
    | nil => exact fun o => rfl
    | cons h hs ih =>
      intro o
      rw [List.foldlM_cons, List.foldlM_cons]
      rcases hv : head h with e | v
      · rfl
      · exact ih _
  have hall : out.1.length = args.numQueryHeads * args.headDim := by
    rw [out.2, hout, hquery]
  show (attendOver (store.view args.layer) query args out).map Subtype.val = _
  unfold attendOver
  rw [if_neg hsize, if_neg hgroup']
  refine (hbuffer (List.range args.numQueryHeads) out).trans ?_
  rw [List.foldlM_patch hlen hall.ge, ← hall, List.drop_length]
  unfold groupedAttention
  simp only [List.append_nil, hhead, AttentionArgs.headOutput_eq]

omit [Scalars F D] in
/-- Where the arguments fit the store and the table covers the query, keys and
values can be read. -/
theorem AttentionArgs.Fits.contiguous (h : args.Fits store) (hbs : 1 ≤ args.blockSize)
    (hcover : args.queryPosition < args.blockTable.length * args.blockSize)
    (hhead : kvHead < args.numKvHeads) (isValue : Bool) :
    ∃ rows, args.contiguous store isValue kvHead = .ok rows := by
  have hread : ∀ pos ∈ List.range (args.queryPosition + 1), ∃ v,
      args.fetch (store.view args.layer) pos kvHead isValue (.internal ["position ", .nat pos,
        " is outside the block table of ", .nat args.blockTable.length, " blocks"]) = .ok v := by
    intro pos hpos
    have hle : pos ≤ args.queryPosition := Nat.le_of_lt_succ (List.mem_range.mp hpos)
    have hblock : pos / args.blockSize < args.blockTable.length :=
      Nat.div_lt_of_lt_mul (Nat.mul_comm _ args.blockSize ▸ hle.trans_lt hcover)
    have hin : store.InBounds args.layer args.blockTable[pos / args.blockSize]
        (pos % args.blockSize) :=
      ⟨h.layer, h.blocks _ (List.getElem_mem hblock), h.blockSize ▸ Nat.mod_lt _ hbs⟩
    have hcheck := KvShape.checkBounds_eq_ok_iff.mpr
      ⟨hin, h.numKvHeads ▸ hhead, rfl⟩
    unfold fetch locate
    rw [List.getElem?_eq_getElem hblock]
    show ∃ v, store.read _ _ _ _ _ = _
    unfold KvStore.read
    rw [hcheck]
    exact ⟨_, rfl⟩
  choose! f hf using hread
  refine ⟨(List.range (args.queryPosition + 1)).map f, List.mapM_eq_ok_iff.mpr ?_⟩
  exact List.forall₂_map_right_iff.mpr (List.forall₂_same.mpr hf)

/-- The reference asks for the KV heads there are. -/
theorem groupedAttention_congr {numQueryHeads numKvHeads headDim : ℕ}
    {keys keys' values values' : ℕ → Except Fault (List (List F))}
    (hgroup : numKvHeads ∣ numQueryHeads)
    (hkeys : ∀ h < numKvHeads, keys h = keys' h)
    (hvalues : ∀ h < numKvHeads, values h = values' h) :
    groupedAttention numQueryHeads numKvHeads headDim query keys values
      = groupedAttention numQueryHeads numKvHeads headDim query keys' values' := by
  unfold groupedAttention
  refine congrArg (Except.map List.flatten) (List.mapM_congr (fun h hh => ?_))
  have hlt : h / (numQueryHeads / numKvHeads) < numKvHeads := by
    refine Nat.div_lt_of_lt_mul ?_
    rw [Nat.div_mul_cancel hgroup]
    exact List.mem_range.mp hh
  rw [hkeys _ hlt, hvalues _ hlt]

/-- **Paged attention is attention over the contiguous lists** of keys and
values that the table leads to, for every store, whatever it fails with
included; the lists can be read where the arguments fit the store. So two
stores and tables with the same keys and values at the positions up to the
query's give the same result, wherever they have them and whatever they hold
besides. -/
theorem pagedAttention_contiguous (store : KvStore F) (query : List F) (args : AttentionArgs)
    (out : RowVec F n) (hbs : 1 ≤ args.blockSize)
    (hcover : args.queryPosition < args.blockTable.length * args.blockSize)
    (hquery : query.length = args.numQueryHeads * args.headDim) (hout : n = query.length)
    (hkv : args.numKvHeads ≠ 0) (hgroup : args.numKvHeads ∣ args.numQueryHeads) :
    (pagedAttention store query args out).map Subtype.val
      = groupedAttention args.numQueryHeads args.numKvHeads args.headDim query
        (args.contiguous store false) (args.contiguous store true)
    ∧ (args.Fits store → ∀ h < args.numKvHeads, ∀ isValue,
        ∃ rows, args.contiguous store isValue h = .ok rows)
    ∧ ∀ (store' : KvStore F) (args' : AttentionArgs) (out' : RowVec F n),
        args'.numQueryHeads = args.numQueryHeads → args'.numKvHeads = args.numKvHeads →
        args'.headDim = args.headDim →
        (∀ h < args.numKvHeads, ∀ isValue,
          args'.contiguous store' isValue h = args.contiguous store isValue h) →
        pagedAttention store' query args' out' = pagedAttention store query args out := by
  refine ⟨pagedAttention_eq hquery hout hkv hgroup,
    fun hfits h hh isValue => hfits.contiguous hbs hcover hh isValue, ?_⟩
  intro store' args' out' hheads hkvs hdim hsame
  have hmap : (pagedAttention store' query args' out').map Subtype.val
      = (pagedAttention store query args out).map Subtype.val := by
    rw [pagedAttention_eq hquery hout hkv hgroup, pagedAttention_eq
      (hquery.trans (by rw [hheads, hdim])) hout (hkvs ▸ hkv)
      (by rw [hkvs, hheads]; exact hgroup), hheads, hkvs, hdim]
    exact groupedAttention_congr hgroup (fun h hh => hsame h hh false)
      (fun h hh => hsame h hh true)
  rcases hr' : pagedAttention store' query args' out' with e' | r'
  · rcases hr : pagedAttention store query args out with e | r
    · rw [hr', hr] at hmap
      exact congrArg Except.error (Except.error.inj hmap)
    · rw [hr', hr] at hmap
      exact absurd hmap (by simp [Except.map])
  · rcases hr : pagedAttention store query args out with e | r
    · rw [hr', hr] at hmap
      exact absurd hmap (by simp [Except.map])
    · rw [hr', hr] at hmap
      exact congrArg Except.ok (Subtype.ext (Except.ok.inj hmap))

end Reference

/-! ## Two placements -/

namespace TinyStore

/-- Two positions of one layer with one head of one dimension, a block each. -/
def shape : KvShape := ⟨1, 2, 1, 1, 1⟩

/-- The keys are 1 and 2, the values 3 and 4. -/
def inOrder : KvStore ℚ := ⟨shape, [1, 3, 2, 4], rfl⟩

/-- The same with the blocks the other way round. -/
def scattered : KvStore ℚ := ⟨shape, [2, 4, 1, 3], rfl⟩

/-- Two query heads at the second position. -/
def args (blockTable : List BlockId) : AttentionArgs := ⟨blockTable, 2, 1, 0, 2, 1, 1, 1⟩

end TinyStore

open TinyStore in
/-- A scattered placement gives what a contiguous one does. -/
theorem pagedAttention_contiguous_scattered :
    pagedAttention scattered [1, 2] (args [⟨1⟩, ⟨0⟩]) (⟨[7, 7], rfl⟩ : RowVec ℚ 2)
      = pagedAttention inOrder [1, 2] (args [⟨0⟩, ⟨1⟩]) ⟨[0, 0], rfl⟩ :=
  (pagedAttention_contiguous inOrder [1, 2] (args [⟨0⟩, ⟨1⟩]) ⟨[0, 0], rfl⟩ (by decide)
    (by decide) (by decide) (by decide) (by decide) (by decide)).2.2 scattered
    (args [⟨1⟩, ⟨0⟩]) ⟨[7, 7], rfl⟩ rfl rfl rfl (by decide +kernel)
