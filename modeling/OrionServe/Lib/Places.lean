import Mathlib.Tactic

/-!
# Where an element of a list is

A list without repetitions has each of its elements at one place. The place
tells whether a beginning of the list has the element, how often it occurs,
and what comes after it; and an element that comes for the first time right
after a list is the last of what that list begins.
-/

namespace List

variable {α : Type*} {l l' l₁ l₂ : List α} {a b : α} {i k n : ℕ}

/-- An element at one place of a list only is there once. -/
theorem count_eq_one_of_getElem? [DecidableEq α] (h : l[i]? = some a)
    (hone : ∀ j, l[j]? = some a → j = i) : l.count a = 1 := by
  obtain ⟨hi, ha⟩ := List.getElem?_eq_some_iff.mp h
  have hsplit : l = l.take i ++ a :: l.drop (i + 1) := by
    rw [← ha, List.getElem_cons_drop, List.take_append_drop]
  have hbefore : a ∉ l.take i := by
    intro hmem
    obtain ⟨j, hj⟩ := List.mem_iff_getElem?.mp hmem
    rw [List.getElem?_take] at hj
    split at hj
    · next hlt => exact absurd (hone j hj) (Nat.ne_of_lt hlt)
    · exact absurd hj (by simp)
  have hafter : a ∉ l.drop (i + 1) := by
    intro hmem
    obtain ⟨j, hj⟩ := List.mem_iff_getElem?.mp hmem
    rw [List.getElem?_drop] at hj
    exact absurd (hone _ hj) (by omega)
  rw [hsplit, List.count_append, List.count_eq_zero.mpr hbefore, List.count_cons_self,
    List.count_eq_zero.mpr hafter]

/-- Which beginnings of a list without repetitions have the element. -/
theorem Nodup.mem_take_iff (h : l.Nodup) (hk : l[k]? = some a) : a ∈ l.take n ↔ k < n := by
  rw [List.mem_take_iff_getElem]
  obtain ⟨hlt, rfl⟩ := List.getElem?_eq_some_iff.mp hk
  constructor
  · rintro ⟨j, hj, heq⟩
    obtain rfl := (List.Nodup.getElem_inj_iff h).mp heq
    exact (lt_min_iff.mp hj).1
  · exact fun hkn => ⟨k, lt_min hkn hlt, rfl⟩

/-- The last of the first `n + 1` elements. -/
theorem eq_take_of_concat (h : l' ++ [a] = l.take (n + 1)) (hn : n < l.length) :
    l' = l.take n ∧ l[n]? = some a := by
  rw [List.take_add_one, List.getElem?_eq_getElem hn] at h
  obtain ⟨hinit, hlast⟩ := List.append_inj' h rfl
  refine ⟨hinit, ?_⟩
  rw [List.getElem?_eq_getElem hn]
  exact congrArg some (List.singleton_inj.mp hlast).symm

/-- What comes after an element in a sublist comes after it. -/
theorem Sublist.tail_of_nodup (h : (a :: l).Sublist (l₁ ++ a :: l₂))
    (hnd : (l₁ ++ a :: l₂).Nodup) : l.Sublist l₂ := by
  induction l₁ with
  | nil => exact List.cons_sublist_cons.mp h
  | cons b l₁ ih =>
    obtain ⟨hnot, hnd⟩ := List.nodup_cons.mp hnd
    cases h with
    | cons _ h => exact ih h hnd
    | cons_cons _ h =>
      exact absurd (List.mem_append_right l₁ List.mem_cons_self) hnot

/-- What is not in a list, and comes within one element more, is that element. -/
theorem eq_of_append_cons (h : l₁ ++ a :: l₂ = l ++ [b]) (ha : a ∉ l) : l₁ = l ∧ a = b := by
  rcases List.eq_nil_or_concat l₂ with rfl | ⟨l₂', z, rfl⟩
  · obtain ⟨hl, hlast⟩ := List.append_inj' h rfl
    exact ⟨hl, List.singleton_inj.mp hlast⟩
  · have hsplit : (l₁ ++ a :: l₂') ++ [z] = l ++ [b] := by
      rw [← h, List.append_assoc, List.concat_eq_append]
      rfl
    refine absurd ?_ ha
    rw [← (List.append_inj' hsplit rfl).1]
    exact List.mem_append_right _ List.mem_cons_self

end List
