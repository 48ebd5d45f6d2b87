import OrionServe.Batching

/-!
# What a forward pass leaves alone

A pass writes in the slots of its rows and nowhere else. This is so whatever
becomes of it: a pass that fails, or panics, leaves what it wrote before, but
in those slots only (`TransformerModel.forward_frame`). So passes over other
slots, however many and whatever becomes of them, do not touch what a batch
has written; and as long as nothing that its rows read was overwritten either,
the batch may be run again. It gets the same answer, and the arena stays as it
is (`TransformerModel.forward_again`).
-/

open Tensor Scalars

namespace TransformerModel

variable {F D : Type*} [Scalars F D] {m : TransformerModel F} {kv kv₀ : KvStore F}
  {b : ForwardBatch} {a : BlockId × ℕ}

/-! ## Whatever becomes of it -/

/-- An arena that has, at a slot, what another one has. -/
def SameAt (a : BlockId × ℕ) (kv₀ kv : KvStore F) : Prop := ∀ l, kv.view l a = kv₀.view l a

omit [Scalars F D] in
/-- A vector written at another slot. -/
theorem SameAt.write (h : SameAt a kv₀ kv) {layer head : ℕ} {a' : BlockId × ℕ} (ha : a' ≠ a)
    (isValue : Bool) (vector : List F) :
    SameAt a kv₀ (kv.write layer a'.1 a'.2 head isValue vector).1 := by
  intro l
  refine (funext fun h' => funext fun v => ?_ : _ = kv.view l a).trans (h l)
  exact KvStore.read_write_of_ne (fun heq => ha heq.2.1.symm)

theorem SameAt.writeRow (h : SameAt a kv₀ kv) {layer : ℕ}
    {r : (BlockId × ℕ) × List F × List F} (ha : r.1 ≠ a) :
    SameAt a kv₀ (m.writeRow layer kv r).1 := by
  refine Attempt.forEach_invariant (P := SameAt a kv₀) (fun kv head hkv => ?_) h _
  simp only [writeHead]
  split
  · exact hkv
  refine Attempt.andThen_invariant (P := SameAt a kv₀) (hkv.write ha false _)
    (fun kv _ hkv => ?_)
  show SameAt a kv₀ (ite _ _ _ : KvStore F × Except Fault Unit).1
  split
  · exact hkv
  · exact hkv.write ha true _

theorem SameAt.layerForward (h : SameAt a kv₀ kv) {slots : List (BlockId × ℕ)} (ha : a ∉ slots)
    (layer : ℕ) (hidden : Tensor.Matrix F) (positions seqOfRow : List ℕ)
    (blockTables : List (List BlockId)) (contextLens : List ℕ) :
    SameAt a kv₀ (m.layerForward layer hidden positions slots seqOfRow blockTables
      contextLens kv).1 := by
  unfold TransformerModel.layerForward
  split
  · exact h
  split
  · exact h
  refine Attempt.andThen_invariant (P := SameAt a kv₀)
    (Attempt.forEach_invariant_of_mem (fun r hr kv hkv => hkv.writeRow ?_) h) (fun _ _ hkv => hkv)
  rintro rfl
  exact ha (List.of_mem_zip hr).1

theorem SameAt.layersForward (h : SameAt a kv₀ kv) {slots : List (BlockId × ℕ)} (ha : a ∉ slots)
    (layers : List ℕ) (hidden : Tensor.Matrix F) :
    SameAt a kv₀ (m.layersForward b slots layers hidden kv).1 := by
  induction layers generalizing hidden kv with
  | nil => exact h
  | cons layer layers ih =>
    exact Attempt.andThen_invariant (P := SameAt a kv₀) (h.layerForward ha layer hidden _ _ _ _)
      (fun _ hidden hkv => ih hkv hidden)

theorem sameAt_forwardOn (ha : ∀ slots, m.slots b = .ok slots → a ∉ slots) (kv : KvStore F) :
    SameAt a kv (m.forwardOn b kv).1 := by
  have hrefl : SameAt a kv kv := fun _ => rfl
  unfold forwardOn
  split
  · exact hrefl
  split
  · exact hrefl
  split
  · exact hrefl
  next slots hslots =>
  split
  · exact hrefl
  · exact Attempt.andThen_invariant (P := SameAt a kv)
      (hrefl.layersForward (ha slots hslots) _ _) (fun _ _ hkv => hkv)

/-! ## Passes over other slots -/

variable (m) in
/-- A batch has no row whose slot is among these. -/
def Avoids (A : Set (BlockId × ℕ)) (b : ForwardBatch) : Prop :=
  ∀ p ∈ b.places, ∀ a ∈ A, locate p.table p.position m.blockSize ≠ some a

/-- The model after passes, whatever becomes of them. -/
def passAll (m : TransformerModel F) (bs : List ForwardBatch) : TransformerModel F :=
  bs.foldl (fun m b => (m.forward b).1) m

theorem Avoids.notMem_slots {A : Set (BlockId × ℕ)} (h : m.Avoids A b) (ha : a ∈ A)
    {slots : List (BlockId × ℕ)} (hslots : m.slots b = .ok slots) : a ∉ slots := by
  intro hmem
  obtain ⟨i, hi, rfl⟩ := List.getElem_of_mem hmem
  have hrows := List.mapM_eq_ok_iff.mp hslots
  have hlen := hrows.length_eq
  have hrow := hrows.get (i := i) (hlen ▸ hi) hi
  obtain ⟨p, hp⟩ : ∃ p, p = (b.positions.zip b.seqOfRow).get ⟨i, hlen ▸ hi⟩ := ⟨_, rfl⟩
  have hmem : (⟨p.1, b.blockTables[p.2]?.getD []⟩ : Place) ∈ b.places :=
    List.mem_map.mpr ⟨p, hp ▸ List.get_mem _ _, rfl⟩
  rw [← hp] at hrow
  have hfind := h _ hmem _ ha
  rcases ht : b.blockTables[p.2]? with - | table
  · rw [ht] at hrow
    exact absurd hrow (by simp)
  rw [ht] at hrow hfind
  simp only [Option.getD_some] at hrow hfind
  rcases hl : locate table p.1 m.blockSize with - | a'
  · rw [hl] at hrow
    exact absurd hrow (by simp)
  · rw [hl] at hrow hfind
    exact hfind (congrArg some (Except.ok.inj hrow))

/-- **Step lemma.** -/
theorem sameAt_forward {A : Set (BlockId × ℕ)} (h : m.Avoids A b) (ha : a ∈ A) :
    SameAt a m.kv (m.forward b).1.kv :=
  sameAt_forwardOn (fun _ hslots => h.notMem_slots ha hslots) m.kv

/-- Passes change nothing but what is in the arena. -/
theorem passAll_eq (m : TransformerModel F) (bs : List ForwardBatch) :
    ∃ kv hkv, m.passAll bs = m.withKv kv hkv := by
  induction bs generalizing m with
  | nil => exact ⟨m.kv, rfl, rfl⟩
  | cons b bs ih =>
    obtain ⟨kv, hkv, hrun⟩ := ih (m.forward b).1
    exact ⟨kv, hkv.trans (m.shape_forwardOn b m.kv), hrun⟩

/-- **Run lemma.** -/
theorem sameAt_passAll {a : BlockId × ℕ} {bs : List ForwardBatch}
    (h : ∀ b ∈ bs, m.Avoids {a} b) : SameAt a m.kv (m.passAll bs).kv := by
  induction bs generalizing m with
  | nil => exact fun _ => rfl
  | cons b bs ih =>
    obtain ⟨hb, hbs⟩ := List.forall_mem_cons.mp h
    have hrest : SameAt a (m.forward b).1.kv ((m.forward b).1.passAll bs).kv := ih hbs
    exact fun l => (hrest l).trans (sameAt_forward hb (Set.mem_singleton a) l)

/-- **A run of passes leaves alone what is not in the slots of their rows**,
whether the passes succeed, fail or panic, and whatever the shapes of the
weights: it changes the arena only, not its dimensions, and in it no slot that
no row resolves to. -/
theorem forward_frame (m : TransformerModel F) (bs : List ForwardBatch) :
    ∃ kv hkv, m.passAll bs = m.withKv kv hkv
      ∧ ∀ a, (∀ b ∈ bs, m.Avoids {a} b) → ∀ l, kv.view l a = m.kv.view l a := by
  obtain ⟨kv, hkv, hrun⟩ := m.passAll_eq bs
  refine ⟨kv, hkv, hrun, fun a ha => ?_⟩
  have hsame := sameAt_passAll ha
  rw [hrun] at hsame
  exact hsame

/-! ## The same batch again -/

variable (m) in
/-- The slots that the rows of a batch read. -/
def readBy (b : ForwardBatch) : Set (BlockId × ℕ) :=
  {a | ∃ p ∈ b.places, ∃ pos ≤ p.position, locate p.table pos m.blockSize = some a}

theorem within_readBy {ps : List (Place × m.Hidden)} (hlocated : m.Located b.places)
    (hps : ps.map Prod.fst = b.places) : m.stack.Within ps (m.readBy b) := by
  intro p hp
  have hmem : p.1 ∈ b.places := hps ▸ List.mem_map_of_mem hp
  exact ⟨⟨p.1, hmem, p.1.position, le_rfl, slotOf_eq (hlocated p.1 hmem)⟩,
    fun a ⟨pos, hpos, ha⟩ => ⟨p.1, hmem, pos, hpos, ha⟩⟩

end TransformerModel

/-- **A batch may be run again**: once it has succeeded, and after any passes,
successful or not, that write in none of the slots its rows read, it gets the
same answer and changes nothing. So a step that is lost after its pass can be
done over, as long as the blocks are still the same sequences'. -/
theorem TransformerModel.forward_again {F D : Type*} [Scalars F D] {m m₁ : TransformerModel F}
    (hfit : m.ResidualsFit) {b : ForwardBatch} {out : ForwardOutput F}
    (h : m.forward b = (m₁, .ok out)) {later : List ForwardBatch}
    (hlater : ∀ c ∈ later, m.Avoids (m.readBy b) c) :
    (m₁.passAll later).forward b = (m₁.passAll later, .ok out) := by
  obtain ⟨kv₁, hkv₁, hrun₁, rfl⟩ := forward_eq_ok_iff.mp h
  obtain ⟨kv₂, hkv₂, hpasses⟩ := (m.withKv kv₁ hkv₁).passAll_eq later
  have hsame : ∀ a, (∀ c ∈ later, (m.withKv kv₁ hkv₁).Avoids {a} c) → SameAt a kv₁ kv₂ := by
    intro a ha
    have hframe := sameAt_passAll ha
    rw [hpasses] at hframe
    exact hframe
  rw [hpasses]
  refine forward_eq_ok_iff.mpr ⟨kv₂, rfl, ?_, rfl⟩
  have hshape : kv₂.toKvShape = m.kv.toKvShape := hkv₂.trans hkv₁
  show (m.withKv kv₂ hshape).forwardOn b kv₂ = (kv₂, .ok out)
  rw [forwardOn_withKv]
  by_cases hne : b.tokens = []
  · have haligned := aligned_of_forwardOn hrun₁
    rw [forwardOn_nil haligned hne] at hrun₁ ⊢
    obtain rfl := Except.ok.inj (congrArg Prod.snd hrun₁)
    rfl
  obtain ⟨⟨haligned, hlocated, hchecked⟩, ps, qs, hps, -, hlayers, ls, hls, rfl⟩ :=
    (forwardOn_eq_ok_iff hfit hne rfl).mp hrun₁
  refine (forwardOn_eq_ok_iff hfit hne hshape).mpr ⟨⟨haligned, hlocated, hchecked⟩, ps, qs, hps,
    hshape, ?_, ls, hls, rfl⟩
  refine hlayers.again List.nodup_range (within_readBy hlocated hps.1) (fun l _ a ha => ?_)
  refine hsame a (fun c hc p hp x hx hloc => ?_) l
  rw [Set.mem_singleton_iff.mp hx] at hloc
  exact hlater c hc p hp a ha hloc

namespace TinyModel

/-- A batch that writes in the second block and fails on a sequence without
tokens. -/
def failing : ForwardBatch :=
  ⟨[0], [0], [⟨2⟩, ⟨3⟩], [1, 0], [1, 0], [[⟨1⟩], [⟨1⟩]], true⟩

/-- The model after one token in the first block. -/
def afterFirst : TransformerModel ℚ := (fitting.forward (batch 1 0)).1

end TinyModel

open TinyModel in
/-- The batch that fails in between has overwritten a slot. -/
theorem TransformerModel.forward_again_failing :
    (afterFirst.forward failing).2.toBool = false
      ∧ (afterFirst.passAll [failing]).kv.read 0 ⟨1⟩ 0 0 true ≠ afterFirst.kv.read 0 ⟨1⟩ 0 0 true
      ∧ (afterFirst.passAll [failing]).forward (batch 1 0)
        = (afterFirst.passAll [failing], .ok ⟨[-1], 1, [⟨1⟩]⟩) := by
  have hfit : fitting.ResidualsFit := by
    intro w hw
    rw [List.mem_singleton.mp hw]
    exact ⟨rfl, rfl⟩
  have hfirst : fitting.forward (batch 1 0) = (afterFirst, .ok ⟨[-1], 1, [⟨1⟩]⟩) :=
    Prod.ext rfl (by decide +kernel)
  refine ⟨by decide +kernel, by decide +kernel,
    forward_again hfit hfirst (fun c hc p hp a ha => ?_)⟩
  rw [List.mem_singleton.mp hc] at hp
  rw [List.mem_singleton.mp hp]
  obtain ⟨q, hq, pos, hpos, hloc⟩ := ha
  rw [List.mem_singleton.mp hq] at hpos hloc
  obtain rfl := Nat.le_zero.mp hpos
  obtain rfl := Option.some.inj hloc
  decide
