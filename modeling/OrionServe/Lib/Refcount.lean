import Mathlib.Tactic

/-!
# Reference counting, abstractly

A population of resources, the references that are held to them – a list,
in which a resource occurs once per reference – a count per resource and a
queue of the unreferenced ones. `RefBalanced` says the bookkeeping is exact:
each count is the number of references, and the queue holds, once each, the
resources nobody refers to.

Three moves keep it: taking the resource at the head of the queue, sharing
one more reference, and dropping one. They are stated for any counts that
agree with the move on the population, so that an implementation keeping
its counts in an array, a map or a record can use them as they are.
-/

variable {ι : Type*} [DecidableEq ι]

/-- **The bookkeeping of a reference-counted population is exact.** -/
structure RefBalanced (dom : Set ι) (count : ι → ℕ) (free held : List ι) : Prop where
  /-- A count is the number of references. -/
  count_eq : ∀ i ∈ dom, count i = held.count i
  /-- Only members of the population are referenced. -/
  held_mem : ∀ i ∈ held, i ∈ dom
  /-- The queue lists nobody twice. -/
  free_nodup : free.Nodup
  /-- The queue is the unreferenced part of the population. -/
  mem_free : ∀ i, i ∈ free ↔ i ∈ dom ∧ i ∉ held

namespace RefBalanced

variable {dom : Set ι} {count count' : ι → ℕ} {free held held' : List ι} {i : ι}

/-- Nothing is referenced at the start and everything is in the queue. -/
theorem init (hfree : free.Nodup) (hmem : ∀ i, i ∈ free ↔ i ∈ dom)
    (hcount : ∀ i ∈ dom, count i = 0) : RefBalanced dom count free [] where
  count_eq i hi := by rw [hcount i hi, List.count_nil]
  held_mem i hi := absurd hi (List.not_mem_nil)
  free_nodup := hfree
  mem_free i := by rw [hmem i]; simp

/-- The order in which the references are listed does not matter. -/
theorem perm (h : RefBalanced dom count free held) (hp : held.Perm held') :
    RefBalanced dom count free held' where
  count_eq i hi := (h.count_eq i hi).trans (hp.count_eq i)
  held_mem i hi := h.held_mem i (hp.mem_iff.mpr hi)
  free_nodup := h.free_nodup
  mem_free i := by rw [h.mem_free i, hp.mem_iff]

/-- Only the counts of the population matter. -/
theorem congr_count (h : RefBalanced dom count free held)
    (hc : ∀ j ∈ dom, count' j = count j) : RefBalanced dom count' free held :=
  { h with count_eq := fun i hi => (hc i hi).trans (h.count_eq i hi) }

/-- A resource is in the queue exactly when its count is zero. -/
theorem mem_free_iff_count (h : RefBalanced dom count free held) (hi : i ∈ dom) :
    i ∈ free ↔ count i = 0 := by
  rw [h.mem_free i, h.count_eq i hi, List.count_eq_zero]
  exact and_iff_right hi

/-- **Taking the head of the queue**: it gets its first reference. -/
theorem take (h : RefBalanced dom count (i :: free) held)
    (hc : ∀ j ∈ dom, count' j = if j = i then 1 else count j) :
    RefBalanced dom count' free (i :: held) := by
  obtain ⟨hdom, hheld⟩ := (h.mem_free i).mp List.mem_cons_self
  have hnd := List.nodup_cons.mp h.free_nodup
  refine ⟨fun j hj => ?_, fun j hj => ?_, hnd.2, fun j => ?_⟩
  · rw [hc j hj, List.count_cons, h.count_eq j hj]
    by_cases hji : j = i
    · subst hji
      simp [List.count_eq_zero.mpr hheld]
    · simp [hji, Ne.symm hji]
  · rcases List.mem_cons.mp hj with rfl | hj
    · exact hdom
    · exact h.held_mem j hj
  · have hj := h.mem_free j
    rw [List.mem_cons] at hj ⊢
    by_cases hji : j = i
    · subst hji
      simp [hnd.1]
    · simpa [hji] using hj

/-- **Sharing**: one more reference; a resource nobody referred to leaves
the queue. -/
theorem share (h : RefBalanced dom count free held) (hi : i ∈ dom)
    (hc : ∀ j ∈ dom, count' j = if j = i then count j + 1 else count j) :
    RefBalanced dom count' (if count i = 0 then free.erase i else free)
      (i :: held) := by
  have hfree : (if count i = 0 then free.erase i else free) = free.erase i := by
    split
    · rfl
    · next hne =>
      exact (List.erase_of_not_mem
        (fun hm => hne ((h.mem_free_iff_count hi).mp hm))).symm
  rw [hfree]
  refine ⟨fun j hj => ?_, fun j hj => ?_, h.free_nodup.erase i, fun j => ?_⟩
  · rw [hc j hj, List.count_cons, h.count_eq j hj]
    by_cases hji : j = i
    · simp [hji]
    · simp [hji, Ne.symm hji]
  · rcases List.mem_cons.mp hj with rfl | hj
    · exact hi
    · exact h.held_mem j hj
  · rw [h.free_nodup.mem_erase_iff, h.mem_free j, List.mem_cons, not_or]
    tauto

/-- A held resource has a positive count, so dropping a reference to it is
never a drop too many. -/
theorem count_pos (h : RefBalanced dom count free held) (hi : i ∈ held) :
    0 < count i := by
  rw [h.count_eq i (h.held_mem i hi)]
  exact List.count_pos_iff.mpr hi

/-- **Dropping** one reference; the last one puts the resource at the back
of the queue. -/
theorem drop (h : RefBalanced dom count free held) (hp : held.Perm (i :: held'))
    (hc : ∀ j ∈ dom, count' j = if j = i then count j - 1 else count j) :
    RefBalanced dom count' (if count i = 1 then free ++ [i] else free) held' := by
  have h' := h.perm hp
  have hdom : i ∈ dom := h'.held_mem i List.mem_cons_self
  have hcount : count i = held'.count i + 1 := by
    rw [h'.count_eq i hdom, List.count_cons_self]
  have hnot : i ∉ free := fun hm => by
    have := (h'.mem_free_iff_count hdom).mp hm
    omega
  refine ⟨fun j hj => ?_, fun j hj => h'.held_mem j (List.mem_cons_of_mem _ hj),
    ?_, fun j => ?_⟩
  · rw [hc j hj]
    by_cases hji : j = i
    · subst hji
      rw [if_pos rfl, hcount, Nat.add_sub_cancel]
    · rw [if_neg hji, h'.count_eq j hj, List.count_cons_of_ne (Ne.symm hji)]
  · split
    · exact List.nodup_append.mpr ⟨h.free_nodup, List.nodup_singleton i,
        fun a ha b hb hab => hnot (by
          rw [← List.mem_singleton.mp hb, ← hab]; exact ha)⟩
    · exact h.free_nodup
  · have hj := h'.mem_free j
    rw [List.mem_cons, not_or] at hj
    by_cases hji : j = i
    · subst hji
      split
      · next hone =>
        have : j ∉ held' := List.count_eq_zero.mp (by omega)
        simp [hdom, this]
      · next hone =>
        have : j ∈ held' := List.count_pos_iff.mp (by omega)
        simp [hnot, this]
    · have : j ∈ (if count i = 1 then free ++ [i] else free) ↔ j ∈ free := by
        split <;> simp [hji]
      rw [this, hj]
      simp [hji]

/-- **Once nothing is held the queue is the whole population.** -/
theorem free_perm_of_held_nil {all : List ι} (h : RefBalanced dom count free [])
    (hnd : all.Nodup) (hall : ∀ i, i ∈ all ↔ i ∈ dom) : free.Perm all :=
  (List.perm_ext_iff_of_nodup h.free_nodup hnd).mpr (fun i => by
    rw [h.mem_free i, hall i]
    simp)

end RefBalanced
