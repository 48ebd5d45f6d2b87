import OrionServe.Lib.Layers
import OrionServe.Transformer

/-!
# What a layer writes

The rows of a batch write their keys and values head by head. A row whose slot
is one of the arena, and whose key and value are long enough, has its slot
overwritten – all heads of it – and changes nothing else; that is one update
of the arena's view, and the rows together are one update after the other.
-/

open Tensor Scalars

namespace TransformerModel

variable {F D : Type*} [Scalars F D] (m : TransformerModel F) {kv kv' : KvStore F}
  {layer : ℕ} {a : BlockId × ℕ} {krow vrow : List F}

/-- What can be read at a slot after this key and value were written to it. -/
def entry (krow vrow : List F) (head : ℕ) (isValue : Bool) : Except Fault (List F) :=
  if head < m.metadata.numKvHeads then
    .ok ((if isValue then vrow else krow).slice (head * m.metadata.headDim) m.metadata.headDim)
  else .error (m.kv.headFault head)

/-- A key and a value can be written at this slot. -/
structure Writable (layer : ℕ) (a : BlockId × ℕ) (krow vrow : List F) : Prop where
  inBounds : m.kv.InBounds layer a.1 a.2
  key : m.metadata.numKvHeads * m.metadata.headDim ≤ krow.length
  value : m.metadata.numKvHeads * m.metadata.headDim ≤ vrow.length

variable {m}

theorem numKvHeads_eq (h : kv.toKvShape = m.kv.toKvShape) :
    kv.numKvHeads = m.metadata.numKvHeads := by
  rw [h, m.fits]

theorem headDim_eq (h : kv.toKvShape = m.kv.toKvShape) : kv.headDim = m.metadata.headDim := by
  rw [h, m.fits]

/-- A head of a row that can be written. -/
theorem Writable.le_length (h : m.Writable layer a krow vrow) {head : ℕ}
    (hh : head < m.metadata.numKvHeads) :
    (head + 1) * m.metadata.headDim ≤ krow.length
      ∧ (head + 1) * m.metadata.headDim ≤ vrow.length :=
  have hle := Nat.mul_le_mul_right m.metadata.headDim hh
  ⟨hle.trans h.key, hle.trans h.value⟩

theorem length_headSlice {l : List F} {head hd : ℕ} (h : (head + 1) * hd ≤ l.length) :
    (l.slice (head * hd) hd).length = hd :=
  List.length_slice (by rwa [← Nat.succ_mul])

/-- One head of a row is written, and nothing else. -/
theorem writeHead_of_writable (hkv : kv.toKvShape = m.kv.toKvShape)
    (h : m.Writable layer a krow vrow) {head : ℕ} (hh : head < m.metadata.numKvHeads) :
    ∃ kv', m.writeHead layer a krow vrow kv head = (kv', .ok ())
      ∧ kv'.toKvShape = m.kv.toKvShape
      ∧ ∀ l b h' v, kv'.view l b h' v
        = if l = layer ∧ b = a ∧ h' = head then m.entry krow vrow h' v
          else kv.view l b h' v := by
  obtain ⟨hk, hv⟩ := h.le_length hh
  have hwrite : ∀ {kv₀ : KvStore F}, kv₀.toKvShape = m.kv.toKvShape → ∀ (v : Bool) {l : List F},
      (head + 1) * m.metadata.headDim ≤ l.length →
      (kv₀.write layer a.1 a.2 head v
        (l.slice (head * m.metadata.headDim) m.metadata.headDim)).2 = .ok () := by
    intro kv₀ hkv₀ v l hl
    refine KvStore.write_eq_ok_iff.mpr ⟨hkv₀ ▸ h.inBounds, numKvHeads_eq hkv₀ ▸ hh, ?_⟩
    rw [length_headSlice hl, headDim_eq hkv₀]
  have hok₁ := hwrite hkv false hk
  obtain ⟨kv₁, hkv₁⟩ : ∃ kv₁, kv₁ = (kv.write layer a.1 a.2 head false
    (krow.slice (head * m.metadata.headDim) m.metadata.headDim)).1 := ⟨_, rfl⟩
  have hshape₁ : kv₁.toKvShape = m.kv.toKvShape := hkv₁ ▸ KvStore.shape_write.trans hkv
  have hok₂ := hwrite hshape₁ true hv
  refine ⟨(kv₁.write layer a.1 a.2 head true
    (vrow.slice (head * m.metadata.headDim) m.metadata.headDim)).1, ?_,
    KvStore.shape_write.trans hshape₁, ?_⟩
  · unfold writeHead
    simp only
    rw [if_neg (not_lt.mpr hk), Attempt.andThen_eq_ok_iff]
    refine ⟨kv₁, (), Prod.ext hkv₁.symm hok₁, ?_⟩
    rw [if_neg (not_lt.mpr hv)]
    exact Prod.ext rfl hok₂
  · intro l b h' v
    by_cases hat : l = layer ∧ b = a ∧ h' = head
    · obtain ⟨rfl, rfl, rfl⟩ := hat
      rw [if_pos ⟨rfl, rfl, rfl⟩, entry, if_pos hh]
      cases v with
      | true => exact KvStore.read_write_self hok₂
      | false =>
        refine (KvStore.read_write_of_ne (fun hne => Bool.false_ne_true hne.2.2.2)).trans ?_
        exact hkv₁ ▸ KvStore.read_write_self hok₁
    · rw [if_neg hat]
      have hother : ∀ v', ¬ (l = layer ∧ (b.1, b.2) = (a.1, a.2) ∧ h' = head ∧ v = v') :=
        fun v' heq => hat ⟨heq.1, heq.2.1, heq.2.2.1⟩
      refine (KvStore.read_write_of_ne (hother true)).trans ?_
      exact hkv₁ ▸ KvStore.read_write_of_ne (hother false)

theorem writable_of_writeHead (hkv : kv.toKvShape = m.kv.toKvShape) {head : ℕ}
    (h : m.writeHead layer a krow vrow kv head = (kv', .ok ())) :
    m.kv.InBounds layer a.1 a.2 ∧ (head + 1) * m.metadata.headDim ≤ krow.length
      ∧ (head + 1) * m.metadata.headDim ≤ vrow.length := by
  unfold writeHead at h
  simp only at h
  by_cases hk : krow.length < (head + 1) * m.metadata.headDim
  · rw [if_pos hk] at h
    exact absurd (congrArg Prod.snd h) (by simp)
  rw [if_neg hk, Attempt.andThen_eq_ok_iff] at h
  obtain ⟨kv₁, ⟨⟩, hfirst, hsecond⟩ := h
  by_cases hv : vrow.length < (head + 1) * m.metadata.headDim
  · rw [if_pos hv] at hsecond
    exact absurd (congrArg Prod.snd hsecond) (by simp)
  exact ⟨hkv ▸ (KvStore.write_eq_ok_iff.mp (congrArg Prod.snd hfirst)).1, not_lt.mp hk,
    not_lt.mp hv⟩

/-- Several heads of a row are written, and nothing else. -/
theorem writeHeads_of_writable (hkv : kv.toKvShape = m.kv.toKvShape)
    (h : m.Writable layer a krow vrow) {heads : List ℕ}
    (hh : ∀ head ∈ heads, head < m.metadata.numKvHeads) :
    ∃ kv', Attempt.forEach (m.writeHead layer a krow vrow) kv heads = (kv', .ok ())
      ∧ kv'.toKvShape = m.kv.toKvShape
      ∧ ∀ l b h' v, kv'.view l b h' v
        = if l = layer ∧ b = a ∧ h' ∈ heads then m.entry krow vrow h' v
          else kv.view l b h' v := by
  induction heads generalizing kv with
  | nil => exact ⟨kv, rfl, hkv, fun l b h' v => (if_neg (by simp)).symm⟩
  | cons head heads ih =>
    obtain ⟨kv₁, hfirst, hkv₁, hview₁⟩ :=
      writeHead_of_writable hkv h (hh head List.mem_cons_self)
    obtain ⟨kv', hrest, hkv', hview⟩ := ih hkv₁ (fun x hx => hh x (List.mem_cons_of_mem _ hx))
    refine ⟨kv', Attempt.forEach_cons_eq_ok_iff.mpr ⟨kv₁, hfirst, hrest⟩, hkv', ?_⟩
    intro l b h' v
    rw [hview, hview₁]
    split_ifs <;> simp_all

/-- **A row that can be written has its slot overwritten**, and nothing else. -/
theorem writeRow_of_writable (hkv : kv.toKvShape = m.kv.toKvShape)
    (h : m.Writable layer a krow vrow) :
    ∃ kv', m.writeRow layer kv (a, krow, vrow) = (kv', .ok ())
      ∧ kv'.toKvShape = m.kv.toKvShape
      ∧ kv'.view = Function.update kv.view layer
        (Function.update (kv.view layer) a (m.entry krow vrow)) := by
  have hheads : ∀ head ∈ List.range m.metadata.numKvHeads, head < m.metadata.numKvHeads :=
    fun head hmem => List.mem_range.mp hmem
  obtain ⟨kv', hwrite, hkv', hview⟩ := writeHeads_of_writable hkv h hheads
  refine ⟨kv', hwrite, hkv', ?_⟩
  funext l b h' v
  rw [hview]
  by_cases hl : l = layer
  · subst hl
    rw [Function.update_self]
    by_cases hb : b = a
    · subst hb
      rw [Function.update_self]
      by_cases hh : h' < m.metadata.numKvHeads
      · rw [if_pos ⟨rfl, rfl, List.mem_range.mpr hh⟩]
      · rw [if_neg (fun hmem => hh (List.mem_range.mp hmem.2.2)), entry, if_neg hh]
        -- there is no such head, before and after
        have hin : kv.InBounds l b.1 b.2 := hkv ▸ h.inBounds
        show kv.read l b.1 b.2 h' v = _
        unfold KvStore.read
        rw [hin.checkBounds_of_head (numKvHeads_eq hkv ▸ not_lt.mp hh), hkv]
    · rw [Function.update_of_ne hb, if_neg (fun hmem => hb hmem.2.1)]
  · rw [Function.update_of_ne hl, if_neg (fun hmem => hl hmem.1)]

/-- Only a row that can be written is. -/
theorem writable_of_writeRow (hkv : kv.toKvShape = m.kv.toKvShape)
    (hheads : m.metadata.numKvHeads ≠ 0)
    (h : m.writeRow layer kv (a, krow, vrow) = (kv', .ok ())) :
    m.Writable layer a krow vrow := by
  -- the last head reaches as far as all of them
  obtain ⟨n, hn⟩ := Nat.exists_eq_succ_of_ne_zero hheads
  have hmem : n ∈ List.range m.metadata.numKvHeads :=
    List.mem_range.mpr (hn ▸ Nat.lt_succ_self n)
  obtain ⟨kv₁, kv₂, hkv₁, hlast⟩ := Attempt.forEach_step
    (P := fun kv : KvStore F => kv.toKvShape = m.kv.toKvShape)
    (fun _ head hkv => m.shape_writeHead hkv layer a krow vrow head) hkv h hmem
  obtain ⟨hin, hk, hv⟩ := writable_of_writeHead hkv₁ hlast
  exact ⟨hin, hn ▸ hk, hn ▸ hv⟩

/-- Rows that can be written are, one after the other. -/
theorem exists_writeRows (hkv : kv.toKvShape = m.kv.toKvShape)
    {rows : List ((BlockId × ℕ) × List F × List F)}
    (h : ∀ r ∈ rows, m.Writable layer r.1 r.2.1 r.2.2) :
    ∃ kv', Attempt.forEach (m.writeRow layer) kv rows = (kv', .ok ())
      ∧ kv'.toKvShape = m.kv.toKvShape
      ∧ kv'.view = Function.update kv.view layer (LayerStack.put (kv.view layer)
        (rows.map (fun r => (r.1, m.entry r.2.1 r.2.2)))) := by
  induction rows generalizing kv with
  | nil => exact ⟨kv, rfl, hkv, (Function.update_eq_self layer kv.view).symm⟩
  | cons r rows ih =>
    obtain ⟨hr, hrows⟩ := List.forall_mem_cons.mp h
    obtain ⟨kv₁, hfirst, hkv₁, hview₁⟩ := writeRow_of_writable hkv hr
    obtain ⟨kv', hrest, hkv', hview⟩ := ih hkv₁ hrows
    refine ⟨kv', Attempt.forEach_cons_eq_ok_iff.mpr ⟨kv₁, hfirst, hrest⟩, hkv', ?_⟩
    rw [hview, hview₁, Function.update_self, Function.update_idem]
    rfl

/-- **The rows of a batch are written** exactly when each can be, and then the
arena has each row's slot overwritten, one after the other. -/
theorem writeRows_eq_ok_iff (hkv : kv.toKvShape = m.kv.toKvShape)
    (hheads : m.metadata.numKvHeads ≠ 0) {rows : List ((BlockId × ℕ) × List F × List F)} :
    Attempt.forEach (m.writeRow layer) kv rows = (kv', .ok ())
      ↔ (∀ r ∈ rows, m.Writable layer r.1 r.2.1 r.2.2) ∧ kv'.toKvShape = m.kv.toKvShape
        ∧ kv'.view = Function.update kv.view layer (LayerStack.put (kv.view layer)
          (rows.map (fun r => (r.1, m.entry r.2.1 r.2.2)))) := by
  constructor
  · intro h
    have hrows : ∀ r ∈ rows, m.Writable layer r.1 r.2.1 r.2.2 := by
      intro r hr
      obtain ⟨kv₁, kv₂, hkv₁, hstep⟩ := Attempt.forEach_step
        (P := fun kv : KvStore F => kv.toKvShape = m.kv.toKvShape)
        (fun _ r hkv => m.shape_writeRow hkv layer r) hkv h hr
      exact writable_of_writeRow hkv₁ hheads hstep
    obtain ⟨kv₁, hwrite, hshape, hview⟩ := exists_writeRows hkv hrows
    obtain rfl : kv' = kv₁ := congrArg Prod.fst (h.symm.trans hwrite)
    exact ⟨hrows, hshape, hview⟩
  · rintro ⟨hrows, hkv', hview⟩
    obtain ⟨kv₁, hwrite, hshape, hview₁⟩ := exists_writeRows hkv hrows
    rw [KvStore.ext_of_view (hkv'.trans hshape.symm) (hview.trans hview₁.symm)]
    exact hwrite

end TransformerModel
