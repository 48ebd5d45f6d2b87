import Mathlib.Data.List.AList
import Mathlib.Tactic

/-!
# What the values of a finite map hold between them

A finite map whose values each hold a list of resources, and the list of
everything held. Inserting, replacing and erasing a key change that list by
exactly the value concerned, up to the order in which the map lists its
keys – which is what a count of occurrences over all values needs.

The footprint of some keys is the number of different resources that their
values hold between them: a resource that several of them share counts once.
-/

namespace AList

variable {κ β ι : Type*} [DecidableEq κ]

/-- A present entry can be brought to the front. -/
theorem entries_perm_of_lookup {s : AList (fun _ : κ => β)} {a : κ} {b : β}
    (h : s.lookup a = some b) :
    s.entries.Perm (⟨a, b⟩ :: (s.erase a).entries) := by
  have hmem : a ∈ s.entries.keys := AList.lookup_isSome.mp (by rw [h]; rfl)
  obtain ⟨b', l₁, l₂, hl₁, hs, he⟩ := List.exists_of_kerase hmem
  have hb : b' = b := by
    have hlook : s.lookup a = some b' := by
      unfold AList.lookup
      rw [hs, List.dlookup_append, List.dlookup_eq_none.mpr hl₁]
      simp
    exact Option.some.inj (hlook.symm.trans h)
  subst hb
  show s.entries.Perm (⟨a, b'⟩ :: s.entries.kerase a)
  rw [he, hs]
  exact List.perm_middle

/-- Everything the values of a map hold, `f` reading one value. -/
def flat (f : β → List ι) (s : AList (fun _ : κ => β)) : List ι :=
  s.entries.flatMap (fun e => f e.2)

/-- A lookup reads one of the entries. -/
theorem mem_entries_of_lookup {s : AList (fun _ : κ => β)} {a : κ} {b : β}
    (h : s.lookup a = some b) : (⟨a, b⟩ : Sigma fun _ : κ => β) ∈ s.entries :=
  List.of_mem_dlookup (Option.mem_def.mpr h)

/-- What a map holds is what one of its values holds. -/
theorem mem_flat {f : β → List ι} {s : AList (fun _ : κ => β)} {x : ι} :
    x ∈ s.flat f ↔ ∃ a b, s.lookup a = some b ∧ x ∈ f b := by
  unfold flat
  rw [List.mem_flatMap]
  constructor
  · rintro ⟨⟨a, b⟩, hmem, hx⟩
    exact ⟨a, b, List.mem_dlookup s.nodupKeys hmem, hx⟩
  · rintro ⟨a, b, h, hx⟩
    exact ⟨⟨a, b⟩, mem_entries_of_lookup h, hx⟩

/-- **Taking a key out** leaves what the other values hold. -/
theorem flat_perm_of_lookup (f : β → List ι) {s : AList (fun _ : κ => β)} {a : κ}
    {b : β} (h : s.lookup a = some b) :
    (s.flat f).Perm (f b ++ (s.erase a).flat f) := by
  unfold flat
  exact ((entries_perm_of_lookup h).flatMap_right _).trans
    (List.Perm.of_eq List.flatMap_cons)

/-- **Writing a key** adds what the new value holds to what the other keys
hold. -/
theorem flat_insert (f : β → List ι) (s : AList (fun _ : κ => β)) (a : κ) (b : β) :
    (s.insert a b).flat f = f b ++ (s.erase a).flat f := by
  unfold flat
  rw [AList.entries_insert, List.flatMap_cons]
  rfl

/-- Erasing an absent key changes nothing. -/
theorem erase_of_lookup_eq_none {s : AList (fun _ : κ => β)} {a : κ}
    (h : s.lookup a = none) : s.erase a = s :=
  AList.ext (List.kerase_of_notMem_keys (AList.lookup_eq_none.mp h))

/-- Writing a key that was absent keeps everything held before. -/
theorem flat_insert_of_lookup_eq_none (f : β → List ι)
    {s : AList (fun _ : κ => β)} {a : κ} (b : β) (h : s.lookup a = none) :
    (s.insert a b).flat f = f b ++ s.flat f := by
  rw [flat_insert, erase_of_lookup_eq_none h]

/-! ## The footprint of some keys -/

/-- Everything the values at some keys hold. -/
def heldAt (f : β → List ι) (s : AList (fun _ : κ => β)) (keys : List κ) : List ι :=
  keys.flatMap (fun a => (s.lookup a).elim [] f)

theorem mem_heldAt {f : β → List ι} {s : AList (fun _ : κ => β)} {keys : List κ} {x : ι} :
    x ∈ s.heldAt f keys ↔ ∃ a ∈ keys, ∃ b, s.lookup a = some b ∧ x ∈ f b := by
  unfold heldAt
  rw [List.mem_flatMap]
  refine exists_congr (fun a => and_congr_right (fun _ => ?_))
  cases s.lookup a with
  | none => simp
  | some b => simp

variable [DecidableEq ι] {f : β → List ι} {s s' : AList (fun _ : κ => β)} {keys keys' : List κ}

/-- How many resources the values at some keys hold between them. -/
def footprint (f : β → List ι) (s : AList (fun _ : κ => β)) (keys : List κ) : ℕ :=
  (s.heldAt f keys).toFinset.card

/-- The footprint depends on the values at the keys. -/
theorem footprint_congr (h : ∀ a ∈ keys, s'.lookup a = s.lookup a) :
    s'.footprint f keys = s.footprint f keys := by
  unfold footprint
  congr 1
  ext x
  rw [List.mem_toFinset, List.mem_toFinset, mem_heldAt, mem_heldAt]
  refine exists_congr (fun a => and_congr_right (fun ha => ?_))
  rw [h a ha]

/-- Fewer keys, each with the value it had. -/
theorem heldAt_subset
    (h : ∀ a b, a ∈ keys' → s'.lookup a = some b → a ∈ keys ∧ s.lookup a = some b) :
    (s'.heldAt f keys').toFinset ⊆ (s.heldAt f keys).toFinset := by
  intro x hx
  rw [List.mem_toFinset, mem_heldAt] at hx ⊢
  obtain ⟨a, ha, b, hb, hx⟩ := hx
  obtain ⟨ha', hb'⟩ := h a b ha hb
  exact ⟨a, ha', b, hb', hx⟩

/-- They hold no more. -/
theorem footprint_le
    (h : ∀ a b, a ∈ keys' → s'.lookup a = some b → a ∈ keys ∧ s.lookup a = some b) :
    s'.footprint f keys' ≤ s.footprint f keys := Finset.card_le_card (heldAt_subset h)

/-- They hold less when some resource is gone. -/
theorem footprint_lt
    (h : ∀ a b, a ∈ keys' → s'.lookup a = some b → a ∈ keys ∧ s.lookup a = some b)
    {x : ι} (hx : x ∈ s.heldAt f keys) (hx' : x ∉ s'.heldAt f keys') :
    s'.footprint f keys' < s.footprint f keys := by
  refine Finset.card_lt_card ((Finset.ssubset_iff_of_subset (heldAt_subset h)).mpr ⟨x, ?_, ?_⟩)
  · exact List.mem_toFinset.mpr hx
  · exact fun hmem => hx' (List.mem_toFinset.mp hmem)

/-- The footprint of all keys. -/
theorem footprint_eq_flat (h : ∀ a b, s.lookup a = some b → a ∈ keys) :
    s.footprint f keys = (s.flat f).dedup.length := by
  rw [← List.card_toFinset]
  unfold footprint
  congr 1
  ext x
  rw [List.mem_toFinset, List.mem_toFinset, mem_heldAt, mem_flat]
  constructor
  · rintro ⟨a, -, b, hb, hx⟩
    exact ⟨a, b, hb, hx⟩
  · rintro ⟨a, b, hb, hx⟩
    exact ⟨a, h a b hb, b, hb, hx⟩

/-- **A value that takes one more resource**, which nobody held, adds one to
the footprint of the keys it is among. -/
theorem footprint_insert_of_fresh {a : κ} {b b' : β} {x : ι} (ha : a ∈ keys)
    (hb : s.lookup a = some b) (hb' : f b' = f b ++ [x]) (hx : x ∉ s.flat f) :
    (s.insert a b').footprint f keys = s.footprint f keys + 1 := by
  have hnot : x ∉ (s.heldAt f keys).toFinset := by
    rw [List.mem_toFinset, mem_heldAt]
    rintro ⟨q, -, c, hc, hxc⟩
    exact hx (mem_flat.mpr ⟨q, c, hc, hxc⟩)
  unfold footprint
  rw [← Finset.card_insert_of_notMem hnot]
  congr 1
  ext y
  rw [Finset.mem_insert, List.mem_toFinset, List.mem_toFinset, mem_heldAt, mem_heldAt]
  constructor
  · rintro ⟨q, hq, c, hc, hy⟩
    by_cases hqa : q = a
    · subst hqa
      rw [AList.lookup_insert] at hc
      obtain rfl := Option.some.inj hc
      rw [hb', List.mem_append, List.mem_singleton] at hy
      exact hy.elim (fun h => Or.inr ⟨q, hq, b, hb, h⟩) Or.inl
    · rw [AList.lookup_insert_ne hqa] at hc
      exact Or.inr ⟨q, hq, c, hc, hy⟩
  · rintro (rfl | ⟨q, hq, c, hc, hy⟩)
    · exact ⟨a, ha, b', AList.lookup_insert _, by rw [hb']; simp⟩
    · by_cases hqa : q = a
      · subst hqa
        obtain rfl := Option.some.inj (hb.symm.trans hc)
        exact ⟨q, hq, b', AList.lookup_insert _, by rw [hb']; exact List.mem_append_left _ hy⟩
      · exact ⟨q, hq, c, by rw [AList.lookup_insert_ne hqa]; exact hc, hy⟩

/-- A value that holds what it held before leaves every footprint. -/
theorem footprint_insert_of_eq {a : κ} {b b' : β} (hb : s.lookup a = some b) (hb' : f b' = f b) :
    (s.insert a b').footprint f keys = s.footprint f keys := by
  unfold footprint
  congr 1
  ext y
  rw [List.mem_toFinset, List.mem_toFinset, mem_heldAt, mem_heldAt]
  refine exists_congr (fun q => and_congr_right (fun _ => ?_))
  by_cases hqa : q = a
  · subst hqa
    rw [AList.lookup_insert, hb]
    simp [hb']
  · rw [AList.lookup_insert_ne hqa]

end AList
