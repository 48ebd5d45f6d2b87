import Mathlib.Tactic

/-!
# Queues of records with an identity

A list of records that are told apart by a key: finding the record with a
key, writing to it and taking it out. Finding takes the first match; when no
key occurs twice it is *the* record with that key, and a write or a removal
concerns it alone.
-/

namespace List

variable {α κ : Type*} [DecidableEq κ] {key : α → κ} {k : κ} {l : List α} {a b : α}

/-- A write to the first record with a key. -/
def updateKey (key : α → κ) (k : κ) (f : α → α) : List α → List α
  | [] => []
  | a :: l => if key a = k then f a :: l else a :: updateKey key k f l

/-- The record with a key. -/
def findKey (key : α → κ) (k : κ) (l : List α) : Option α := l.find? (fun a => key a = k)

/-- Taking out the first record with a key. -/
def eraseKey (key : α → κ) (k : κ) (l : List α) : List α := l.eraseP (fun a => key a = k)

theorem mem_of_findKey (h : l.findKey key k = some a) : a ∈ l := List.mem_of_find?_eq_some h

theorem key_of_findKey (h : l.findKey key k = some a) : key a = k := by
  simpa using List.find?_some h

theorem findKey_eq_none_iff : l.findKey key k = none ↔ k ∉ l.map key := by
  unfold findKey
  simp

omit [DecidableEq κ] in
/-- Two records with one key are one record. -/
theorem eq_of_key_eq (h : (l.map key).Nodup) (ha : a ∈ l) (hb : b ∈ l)
    (hk : key a = key b) : a = b :=
  List.inj_on_of_nodup_map h ha hb hk

omit [DecidableEq κ] in
/-- Two parts of a queue without repeated keys have none in common. -/
theorem key_ne_of_append {l₁ l₂ : List α} (h : ((l₁ ++ l₂).map key).Nodup) (ha : a ∈ l₁)
    (hb : b ∈ l₂) : key a ≠ key b := by
  rw [List.map_append] at h
  exact (List.nodup_append.mp h).2.2 _ (List.mem_map_of_mem ha) _ (List.mem_map_of_mem hb)

omit [DecidableEq κ] in
/-- What is in a queue with one record more under another key was in it
before. -/
theorem mem_of_mem_concat (h : a ∈ l ++ [b]) (hk : key a ≠ key b) : a ∈ l := by
  rcases List.mem_append.mp h with h | h
  · exact h
  · exact absurd (congrArg key (List.mem_singleton.mp h)) hk

/-- **Without repeated keys, finding is membership.** -/
theorem findKey_eq_some_iff (h : (l.map key).Nodup) :
    l.findKey key k = some a ↔ a ∈ l ∧ key a = k := by
  constructor
  · exact fun hf => ⟨mem_of_findKey hf, key_of_findKey hf⟩
  · rintro ⟨ha, rfl⟩
    rcases hf : l.findKey key (key a) with - | b
    · exact absurd (List.mem_map_of_mem ha) (findKey_eq_none_iff.mp hf)
    · rw [eq_of_key_eq h (mem_of_findKey hf) ha (key_of_findKey hf)]

section Update

variable {f : α → α}

/-- What a write does not touch can be read off the list as before. -/
theorem map_updateKey_of_eq {β : Type*} {g : α → β} (hf : ∀ a, g (f a) = g a) :
    (l.updateKey key k f).map g = l.map g := by
  induction l with
  | nil => rfl
  | cons a l ih =>
    unfold updateKey
    split
    · rw [List.map_cons, List.map_cons, hf]
    · rw [List.map_cons, List.map_cons, ih]

/-- A sum over the records, after one of them has changed. -/
theorem sum_updateKey {g : α → ℕ} (h : l.findKey key k = some a) :
    ((l.updateKey key k f).map g).sum + g a = (l.map g).sum + g (f a) := by
  induction l with
  | nil => exact absurd h (by simp [findKey])
  | cons b l ih =>
    by_cases hb : key b = k
    · have hself : (b :: l).findKey key k = some b := by simp [findKey, hb]
      obtain rfl := Option.some.inj (hself.symm.trans h)
      simp only [updateKey, if_pos hb, List.map_cons, List.sum_cons]
      omega
    · have hrest : l.findKey key k = some a := by
        rw [← h]
        simp [findKey, hb]
      have hsum := ih hrest
      simp only [updateKey, if_neg hb, List.map_cons, List.sum_cons]
      omega

/-- A write that keeps the key keeps the list of keys. -/
theorem map_updateKey (hf : ∀ a, key (f a) = key a) :
    (l.updateKey key k f).map key = l.map key := map_updateKey_of_eq hf

theorem length_updateKey : (l.updateKey key k f).length = l.length := by
  induction l with
  | nil => rfl
  | cons a l ih =>
    unfold updateKey
    split
    · rfl
    · rw [List.length_cons, List.length_cons, ih]

/-- **What a write leaves**: the other records, and the one written. -/
theorem mem_updateKey (h : (l.map key).Nodup) (hb : b ∈ l.updateKey key k f) :
    (b ∈ l ∧ key b ≠ k) ∨ ∃ a ∈ l, key a = k ∧ b = f a := by
  induction l with
  | nil => exact absurd hb List.not_mem_nil
  | cons a l ih =>
    obtain ⟨hnot, hnd⟩ := List.nodup_cons.mp h
    unfold updateKey at hb
    split at hb
    · next hk =>
      rcases List.mem_cons.mp hb with rfl | hb
      · exact Or.inr ⟨a, List.mem_cons_self, hk, rfl⟩
      · refine Or.inl ⟨List.mem_cons_of_mem _ hb, fun hkb => hnot ?_⟩
        have hmem : key b ∈ l.map key := List.mem_map_of_mem hb
        rwa [hkb, ← hk] at hmem
    · next hk =>
      rcases List.mem_cons.mp hb with rfl | hb
      · exact Or.inl ⟨List.mem_cons_self, hk⟩
      · rcases ih hnd hb with ⟨hb, hkb⟩ | ⟨c, hc, hkc, rfl⟩
        · exact Or.inl ⟨List.mem_cons_of_mem _ hb, hkb⟩
        · exact Or.inr ⟨c, List.mem_cons_of_mem _ hc, hkc, rfl⟩

/-- The record written is there. -/
theorem mem_updateKey_self (h : l.findKey key k = some a) :
    f a ∈ l.updateKey key k f := by
  induction l with
  | nil => exact absurd h (by simp [findKey])
  | cons b l ih =>
    unfold findKey at h
    unfold updateKey
    by_cases hk : key b = k
    · rw [List.find?_cons_of_pos (by simpa using hk)] at h
      rw [if_pos hk, Option.some.inj h]
      exact List.mem_cons_self
    · rw [List.find?_cons_of_neg (by simpa using hk)] at h
      rw [if_neg hk]
      exact List.mem_cons_of_mem _ (ih h)

/-- The other records are still there. -/
theorem mem_updateKey_of_ne (hb : b ∈ l) (hk : key b ≠ k) :
    b ∈ l.updateKey key k f := by
  induction l with
  | nil => exact absurd hb List.not_mem_nil
  | cons a l ih =>
    unfold updateKey
    rcases List.mem_cons.mp hb with rfl | hb
    · rw [if_neg hk]
      exact List.mem_cons_self
    · split
      · exact List.mem_cons_of_mem _ hb
      · exact List.mem_cons_of_mem _ (ih hb)

/-- What is there after a write was there before, or is what was written. -/
theorem of_mem_updateKey (hb : b ∈ l.updateKey key k f) : b ∈ l ∨ ∃ a ∈ l, b = f a := by
  induction l with
  | nil => exact absurd hb List.not_mem_nil
  | cons a l ih =>
    unfold updateKey at hb
    split at hb
    · rcases List.mem_cons.mp hb with rfl | hb
      · exact Or.inr ⟨a, List.mem_cons_self, rfl⟩
      · exact Or.inl (List.mem_cons_of_mem _ hb)
    · rcases List.mem_cons.mp hb with rfl | hb
      · exact Or.inl List.mem_cons_self
      · exact (ih hb).imp (List.mem_cons_of_mem _)
          (fun ⟨x, hx, heq⟩ => ⟨x, List.mem_cons_of_mem _ hx, heq⟩)

/-- A record is there as it was, or as written. -/
theorem mem_updateKey_or (hb : b ∈ l) :
    b ∈ l.updateKey key k f ∨ f b ∈ l.updateKey key k f := by
  induction l with
  | nil => exact absurd hb List.not_mem_nil
  | cons a l ih =>
    unfold updateKey
    split
    · rcases List.mem_cons.mp hb with rfl | hb
      · exact Or.inr List.mem_cons_self
      · exact Or.inl (List.mem_cons_of_mem _ hb)
    · rcases List.mem_cons.mp hb with rfl | hb
      · exact Or.inl List.mem_cons_self
      · exact (ih hb).imp (List.mem_cons_of_mem _) (List.mem_cons_of_mem _)

/-- Writing behind records with other keys. -/
theorem updateKey_append {l' : List α} (h : k ∉ l.map key) :
    (l ++ l').updateKey key k f = l ++ l'.updateKey key k f := by
  induction l with
  | nil => rfl
  | cons a l ih =>
    rw [List.map_cons, List.mem_cons, not_or] at h
    show (a :: (l ++ l')).updateKey key k f = a :: (l ++ _)
    conv_lhs => unfold updateKey
    rw [if_neg (Ne.symm h.1), ih h.2]

/-- **Without repeated keys, a write is a change of all records with the key.** -/
theorem updateKey_eq_map (h : (l.map key).Nodup) :
    l.updateKey key k f = l.map (fun a => if key a = k then f a else a) := by
  induction l with
  | nil => rfl
  | cons a l ih =>
    obtain ⟨hnot, hnd⟩ := List.nodup_cons.mp h
    unfold updateKey
    rw [List.map_cons]
    split
    · next hk =>
      refine congrArg _ (List.map_congr_left (fun b hb => ?_) |>.trans (List.map_id l)).symm
      have hne : key b ≠ k := fun hkb => hnot (hk ▸ hkb ▸ List.mem_map_of_mem hb)
      exact if_neg hne
    · rw [ih hnd]

end Update

section Erase

/-- Taking a record out takes its key out. -/
theorem map_eraseKey : (l.eraseKey key k).map key = (l.map key).erase k := by
  induction l with
  | nil => rfl
  | cons a l ih =>
    unfold eraseKey at ih ⊢
    by_cases hk : key a = k
    · rw [List.eraseP_cons_of_pos (by simpa using hk), List.map_cons, hk,
        List.erase_cons_head]
    · rw [List.eraseP_cons_of_neg (by simpa using hk), List.map_cons, List.map_cons,
        List.erase_cons_tail (by simpa using hk), ih]

/-- **Without repeated keys, what is left has other keys.** -/
theorem mem_eraseKey (h : (l.map key).Nodup) :
    b ∈ l.eraseKey key k ↔ b ∈ l ∧ key b ≠ k := by
  constructor
  · intro hb
    refine ⟨List.mem_of_mem_eraseP hb, fun hk => ?_⟩
    have hmem : key b ∈ (l.eraseKey key k).map key := List.mem_map_of_mem hb
    rw [map_eraseKey, hk] at hmem
    exact h.not_mem_erase hmem
  · rintro ⟨hb, hk⟩
    exact (List.mem_eraseP_of_neg (by simpa using hk)).mpr hb

end Erase

end List
