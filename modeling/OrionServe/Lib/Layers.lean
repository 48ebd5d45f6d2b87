import Mathlib.Tactic

/-!
# Layered passes over a shared store

Rows go through a stack of layers, all of them through one layer before any
goes to the next. A layer has a part of the store to itself. In it, every row
first writes an entry at its own address, one row after the other; only then
every row reads what it is allowed to read, and takes its next state.

What a row does not read or write does not matter to it. From this alone
follow the two facts that make it sound to cut rows into passes or to put
passes together. Rows that write nowhere where earlier ones write or read may
as well go through all the layers after them (`Run.append`); and rows that
have nothing in common with the earlier ones may go in either order, or
together (`Run.parallel`). And a pass whose rows find everything as they left
it may be repeated: nothing changes (`Run.again`).
-/

/-- **A stack of layers `κ`** over a store of entries `β` at addresses `α`, for
rows `ρ` with states `χ`. -/
structure LayerStack (κ α β ρ χ : Type*) where
  /-- Where a row writes. -/
  addr : ρ → α
  /-- What a row may read. -/
  reads : ρ → Set α
  /-- The entry a row writes at a layer. -/
  entry : κ → ρ → χ → β → Prop
  /-- The state a row takes when the layer's part of the store is this. -/
  next : κ → ρ → χ → (α → β) → χ → Prop
  next_congr : ∀ {k r x f g y}, (∀ a ∈ reads r, f a = g a) → next k r x f y → next k r x g y

namespace LayerStack

variable {κ α β ρ χ : Type*}

/-! ## Writing entries -/

/-- Writes entries at their addresses, one after the other. -/
def put [DecidableEq α] (f : α → β) (ws : List (α × β)) : α → β :=
  ws.foldl (fun f w => Function.update f w.1 w.2) f

section Put

variable [DecidableEq α] {f g : α → β} {ws ws' : List (α × β)} {a : α}

theorem put_append : put f (ws ++ ws') = put (put f ws) ws' := List.foldl_append

/-- Nothing is written at another address. -/
theorem put_of_notMem (ha : a ∉ ws.map Prod.fst) : put f ws a = f a := by
  induction ws generalizing f with
  | nil => rfl
  | cons w ws ih =>
    rw [List.map_cons, List.mem_cons, not_or] at ha
    show put (Function.update f w.1 w.2) ws a = f a
    rw [ih ha.2, Function.update_of_ne ha.1]

/-- What is at an address afterwards depends on what was there alone. -/
theorem put_congr (h : f a = g a) : put f ws a = put g ws a := by
  induction ws generalizing f g with
  | nil => exact h
  | cons w ws ih =>
    refine ih ?_
    show Function.update f w.1 w.2 a = Function.update g w.1 w.2 a
    by_cases ha : a = w.1
    · subst ha
      rw [Function.update_self, Function.update_self]
    · rw [Function.update_of_ne ha, Function.update_of_ne ha, h]

/-- What is at an address that is written depends on what is written alone. -/
theorem put_of_mem (ha : a ∈ ws.map Prod.fst) : put f ws a = put g ws a := by
  induction ws generalizing f g with
  | nil => exact absurd ha List.not_mem_nil
  | cons w ws ih =>
    by_cases hlater : a ∈ ws.map Prod.fst
    · exact ih hlater
    · obtain rfl := (List.mem_cons.mp ha).resolve_right hlater
      show put (Function.update f w.1 w.2) ws w.1 = put (Function.update g w.1 w.2) ws w.1
      rw [put_of_notMem hlater, put_of_notMem hlater, Function.update_self, Function.update_self]

/-- An address where everything written is one thing holds it, if it did before
or is written at all. -/
theorem put_eq_of_forall {v : β} (hall : ∀ w ∈ ws, w.1 = a → w.2 = v)
    (hv : f a = v ∨ a ∈ ws.map Prod.fst) : put f ws a = v := by
  induction ws generalizing f with
  | nil => exact hv.resolve_right List.not_mem_nil
  | cons w ws ih =>
    obtain ⟨hw, hws⟩ := List.forall_mem_cons.mp hall
    refine ih hws ?_
    show Function.update f w.1 w.2 a = v ∨ a ∈ ws.map Prod.fst
    by_cases ha : a = w.1
    · subst ha
      rw [Function.update_self]
      exact Or.inl (hw rfl)
    · rw [Function.update_of_ne ha]
      exact hv.imp_right (fun hmem => (List.mem_cons.mp hmem).resolve_left ha)

/-- What is at an address afterwards is what was written there last. -/
theorem put_eq_last : put f ws a
    = (((ws.filter (fun w => w.1 = a)).getLast?).map Prod.snd).getD (f a) := by
  induction ws using List.reverseRecOn with
  | nil => rfl
  | append_singleton ws w ih =>
    rw [put_append, List.filter_append]
    show Function.update (put f ws) w.1 w.2 a = _
    by_cases ha : w.1 = a
    · rw [List.filter_cons_of_pos (by simpa using ha), List.filter_nil,
        List.getLast?_append_of_ne_nil _ (List.cons_ne_nil _ _), ← ha, Function.update_self]
      rfl
    · rw [List.filter_cons_of_neg (by simpa using ha), List.filter_nil, List.append_nil,
        Function.update_of_ne (Ne.symm ha), ih]

end Put

/-! ## One layer -/

section Layers

variable (M : LayerStack κ α β ρ χ)

/-- The addresses that rows write at. -/
def addrs (ps : List (ρ × χ)) : List α := ps.map (fun p => M.addr p.1)

/-- Rows write and read within `A` only. -/
def Within (ps : List (ρ × χ)) (A : Set α) : Prop :=
  ∀ p ∈ ps, M.addr p.1 ∈ A ∧ M.reads p.1 ⊆ A

/-- **All rows go through the layer `k`**: first the writes, then the reads. -/
def Layer [DecidableEq κ] [DecidableEq α] (k : κ) (s : κ → α → β) (ps : List (ρ × χ))
    (t : κ → α → β) (qs : List (ρ × χ)) : Prop :=
  ∃ ws, List.Forall₂ (fun p w => w.1 = M.addr p.1 ∧ M.entry k p.1 p.2 w.2) ps ws
    ∧ t = Function.update s k (put (s k) ws)
    ∧ List.Forall₂ (fun p q => q.1 = p.1 ∧ M.next k p.1 p.2 (t k) q.2) ps qs

variable {M}

theorem map_fst_of_forall₂ {k : κ} {ps : List (ρ × χ)} {ws : List (α × β)}
    (h : List.Forall₂ (fun p w => w.1 = M.addr p.1 ∧ M.entry k p.1 p.2 w.2) ps ws) :
    ws.map Prod.fst = M.addrs ps := by
  induction h with
  | nil => rfl
  | cons hp _ ih =>
    show _ :: _ = _ :: _
    rw [hp.1, ih]
    rfl

variable {k : κ} {ps qs ps₁ ps₂ qs₁ qs₂ : List (ρ × χ)} {A A' : Set α}

theorem addrs_congr (h : qs.map Prod.fst = ps.map Prod.fst) : M.addrs qs = M.addrs ps := by
  show qs.map (M.addr ∘ Prod.fst) = ps.map (M.addr ∘ Prod.fst)
  rw [← List.map_map, h, List.map_map]

theorem Within.congr (hA : M.Within ps A) (h : qs.map Prod.fst = ps.map Prod.fst) :
    M.Within qs A := by
  intro q hq
  have hmem : q.1 ∈ ps.map Prod.fst := h ▸ List.mem_map_of_mem hq
  obtain ⟨p, hp, hpq⟩ := List.mem_map.mp hmem
  exact hpq ▸ hA p hp

theorem Within.addr_mem (hA : M.Within ps A) {a : α} (ha : a ∈ M.addrs ps) : a ∈ A := by
  obtain ⟨p, hp, rfl⟩ := List.mem_map.mp ha
  exact (hA p hp).1

variable [DecidableEq κ] [DecidableEq α] {s s' t u : κ → α → β}

namespace Layer

/-- The rows stay the same; only their states change. -/
theorem map_fst (h : M.Layer k s ps t qs) : qs.map Prod.fst = ps.map Prod.fst := by
  obtain ⟨-, -, -, h⟩ := h
  induction h with
  | nil => rfl
  | cons hp _ ih => rw [List.map_cons, List.map_cons, hp.1, ih]

theorem frame (h : M.Layer k s ps t qs) {k' : κ} {a : α}
    (ha : k' ≠ k ∨ a ∉ M.addrs ps) : t k' a = s k' a := by
  obtain ⟨ws, hws, rfl, -⟩ := h
  by_cases hk : k' = k
  · subst hk
    rw [Function.update_self]
    exact put_of_notMem (map_fst_of_forall₂ hws ▸ ha.resolve_left (fun hne => hne rfl))
  · rw [Function.update_of_ne hk]

/-- Rows do the same from any store that agrees on what they touch. -/
theorem congr (h : M.Layer k s ps t qs) (hA : M.Within ps A)
    (hs : ∀ k', ∀ a ∈ A, s' k' a = s k' a) :
    ∃ t', M.Layer k s' ps t' qs ∧ ∀ k', ∀ a ∈ A, t' k' a = t k' a := by
  obtain ⟨ws, hws, rfl, hnext⟩ := h
  have hagree : ∀ k', ∀ a ∈ A, Function.update s' k (put (s' k) ws) k' a
      = Function.update s k (put (s k) ws) k' a := by
    intro k' a ha
    by_cases hk : k' = k
    · subst hk
      rw [Function.update_self, Function.update_self]
      exact put_congr (hs k' a ha)
    · rw [Function.update_of_ne hk, Function.update_of_ne hk, hs k' a ha]
  refine ⟨_, ⟨ws, hws, rfl, ?_⟩, hagree⟩
  refine List.forall₂_iff_zip.mpr ⟨hnext.length_eq, ?_⟩
  intro p q hpq
  obtain ⟨hrow, hq⟩ := List.forall₂_iff_zip.mp hnext |>.2 hpq
  refine ⟨hrow, M.next_congr (fun a ha => ?_) hq⟩
  exact (hagree k a ((hA p (List.of_mem_zip hpq).1).2 ha)).symm

/-- **Two groups of rows go through a layer together** as they do apart, when
the second group finds in its store what the first one writes here, and itself
writes nowhere where the first one writes or reads. -/
theorem joint {s₁ t₁ s₂ t₂ J : κ → α → β} (h₁ : M.Layer k s₁ ps₁ t₁ qs₁)
    (h₂ : M.Layer k s₂ ps₂ t₂ qs₂) (hA : M.Within ps₁ A) (hdis : ∀ a ∈ M.addrs ps₂, a ∉ A)
    (hJ₁ : ∀ k', ∀ a ∈ A, J k' a = s₁ k' a)
    (hJ₂ : ∀ k', ∀ a ∉ M.addrs ps₁, J k' a = s₂ k' a)
    (hs₂ : ∀ a ∈ M.addrs ps₁, s₂ k a = t₁ k a) :
    ∃ T, M.Layer k J (ps₁ ++ ps₂) T (qs₁ ++ qs₂)
      ∧ (∀ k', ∀ a ∈ A, T k' a = t₁ k' a) ∧ (∀ k', ∀ a ∉ M.addrs ps₁, T k' a = t₂ k' a) := by
  have hframe₂ : ∀ a ∈ A, t₂ k a = s₂ k a :=
    fun a ha => h₂.frame (Or.inr (fun hmem => hdis a hmem ha))
  obtain ⟨ws₁, hws₁, rfl, hnext₁⟩ := h₁
  obtain ⟨ws₂, hws₂, rfl, hnext₂⟩ := h₂
  have hat₁ : ∀ k', ∀ a ∈ A, Function.update J k (put (J k) (ws₁ ++ ws₂)) k' a
      = Function.update s₁ k (put (s₁ k) ws₁) k' a := by
    intro k' a ha
    by_cases hk : k' = k
    · subst hk
      rw [Function.update_self, Function.update_self, put_append]
      rw [put_of_notMem (fun hmem => hdis a (map_fst_of_forall₂ hws₂ ▸ hmem) ha)]
      exact put_congr (hJ₁ k' a ha)
    · rw [Function.update_of_ne hk, Function.update_of_ne hk, hJ₁ k' a ha]
  have hat₂ : ∀ k', ∀ a ∉ M.addrs ps₁, Function.update J k (put (J k) (ws₁ ++ ws₂)) k' a
      = Function.update s₂ k (put (s₂ k) ws₂) k' a := by
    intro k' a ha
    by_cases hk : k' = k
    · subst hk
      rw [Function.update_self, Function.update_self, put_append]
      refine put_congr ?_
      rw [put_of_notMem (map_fst_of_forall₂ hws₁ ▸ ha), hJ₂ k' a ha]
    · rw [Function.update_of_ne hk, Function.update_of_ne hk, hJ₂ k' a ha]
  refine ⟨_, ⟨ws₁ ++ ws₂, List.rel_append hws₁ hws₂, rfl, List.rel_append ?_ ?_⟩, hat₁, hat₂⟩
  · refine List.forall₂_iff_zip.mpr ⟨hnext₁.length_eq, ?_⟩
    intro p q hpq
    obtain ⟨hrow, hq⟩ := List.forall₂_iff_zip.mp hnext₁ |>.2 hpq
    refine ⟨hrow, M.next_congr (fun a ha => ?_) hq⟩
    exact (hat₁ k a ((hA p (List.of_mem_zip hpq).1).2 ha)).symm
  · -- the second group sees the same part of the store, the first one's entries included
    refine hnext₂.imp (fun p q hpq => ⟨hpq.1, M.next_congr (fun a _ => ?_) hpq.2⟩)
    by_cases ha : a ∈ M.addrs ps₁
    · obtain ⟨p, hp, rfl⟩ := List.mem_map.mp ha
      have hmem := (hA p hp).1
      rw [hat₁ k _ hmem, hframe₂ _ hmem, hs₂ _ ha]
    · exact (hat₂ k a ha).symm

/-- A layer that has what the rows leave there can be gone through again, and
stays as it is. -/
theorem again (h : M.Layer k s ps t qs) (hA : M.Within ps A) {u : κ → α → β}
    (hu : ∀ a ∈ A, u k a = t k a) : M.Layer k u ps u qs := by
  obtain ⟨ws, hws, rfl, hnext⟩ := h
  have hsame : put (u k) ws = u k := by
    funext a
    by_cases ha : a ∈ ws.map Prod.fst
    · rw [hu a (hA.addr_mem (map_fst_of_forall₂ hws ▸ ha)), Function.update_self]
      exact put_of_mem ha
    · exact put_of_notMem ha
  refine ⟨ws, hws, by rw [hsame, Function.update_eq_self], ?_⟩
  refine List.forall₂_iff_zip.mpr ⟨hnext.length_eq, ?_⟩
  intro p q hpq
  obtain ⟨hrow, hq⟩ := (List.forall₂_iff_zip.mp hnext).2 hpq
  exact ⟨hrow, M.next_congr (fun a ha => (hu a ((hA p (List.of_mem_zip hpq).1).2 ha)).symm) hq⟩

end Layer

/-! ## A whole pass -/

variable (M) in
/-- **Rows go through the layers one after the other.** -/
inductive Run [DecidableEq κ] [DecidableEq α] :
    List κ → (κ → α → β) → List (ρ × χ) → (κ → α → β) → List (ρ × χ) → Prop
  | nil (s : κ → α → β) (ps : List (ρ × χ)) : Run [] s ps s ps
  | cons {k : κ} {ks : List κ} {s t u : κ → α → β} {ps qs rs : List (ρ × χ)} :
      M.Layer k s ps t qs → Run ks t qs u rs → Run (k :: ks) s ps u rs

namespace Run

variable {ks : List κ}

theorem map_fst (h : M.Run ks s ps t qs) : qs.map Prod.fst = ps.map Prod.fst := by
  induction h with
  | nil => rfl
  | cons hl _ ih => exact ih.trans hl.map_fst

/-- Only the layers of the pass change, and only where a row writes. -/
theorem frame (h : M.Run ks s ps t qs) {k' : κ} {a : α} (ha : k' ∉ ks ∨ a ∉ M.addrs ps) :
    t k' a = s k' a := by
  induction h with
  | nil => rfl
  | cons hl _ ih =>
    rw [ih (ha.imp (fun hk hmem => hk (List.mem_cons_of_mem _ hmem))
      (fun hmem => addrs_congr hl.map_fst ▸ hmem))]
    exact hl.frame (ha.imp (fun hk heq => hk (heq ▸ List.mem_cons_self)) id)

theorem congr (h : M.Run ks s ps t qs) (hA : M.Within ps A)
    (hs : ∀ k', ∀ a ∈ A, s' k' a = s k' a) :
    ∃ t', M.Run ks s' ps t' qs ∧ ∀ k', ∀ a ∈ A, t' k' a = t k' a := by
  induction h generalizing s' with
  | nil _ ps => exact ⟨s', nil s' ps, hs⟩
  | cons hl _ ih =>
    obtain ⟨m, hm, hmA⟩ := hl.congr hA hs
    obtain ⟨t', ht, htA⟩ := ih (hA.congr hl.map_fst) hmA
    exact ⟨t', cons hm ht, htA⟩

/-- **A pass may be repeated** as long as what its rows write and read is as
they left it: they come out as they did, and change nothing. -/
theorem again (hks : ks.Nodup) (h : M.Run ks s ps t qs) (hA : M.Within ps A) {u : κ → α → β}
    (hu : ∀ k ∈ ks, ∀ a ∈ A, u k a = t k a) : M.Run ks u ps u qs := by
  induction h with
  | nil _ ps => exact nil u ps
  | @cons k ks s m t ps ns qs hl hr ih =>
    obtain ⟨hk, hks'⟩ := List.nodup_cons.mp hks
    refine cons (hl.again hA (fun a ha => ?_)) (ih hks' (hA.congr hl.map_fst)
      (fun k' hk' => hu k' (List.mem_cons_of_mem _ hk')))
    rw [hu k List.mem_cons_self a ha]
    exact hr.frame (Or.inl hk)

/-- Two groups of rows go through the layers together as they do apart. The
second group's store already has all that the first one writes. -/
theorem joint {s₁ t₁ s₂ t₂ J : κ → α → β} (hks : ks.Nodup) (h₁ : M.Run ks s₁ ps₁ t₁ qs₁)
    (h₂ : M.Run ks s₂ ps₂ t₂ qs₂) (hA : M.Within ps₁ A) (hdis : ∀ a ∈ M.addrs ps₂, a ∉ A)
    (hJ₁ : ∀ k', ∀ a ∈ A, J k' a = s₁ k' a)
    (hJ₂ : ∀ k', ∀ a ∉ M.addrs ps₁, J k' a = s₂ k' a)
    (hs₂ : ∀ k' ∈ ks, ∀ a ∈ M.addrs ps₁, s₂ k' a = t₁ k' a) :
    ∃ T, M.Run ks J (ps₁ ++ ps₂) T (qs₁ ++ qs₂)
      ∧ (∀ k', ∀ a ∈ A, T k' a = t₁ k' a) ∧ (∀ k', ∀ a ∉ M.addrs ps₁, T k' a = t₂ k' a) := by
  induction h₁ generalizing s₂ ps₂ J with
  | nil s ps =>
    cases h₂ with
    | nil => exact ⟨J, nil J _, hJ₁, hJ₂⟩
  | @cons k ks s₁ m₁ t₁ ps₁ ns₁ qs₁ hl₁ hr₁ ih =>
    cases h₂ with
    | @cons _ _ _ m₂ _ _ ns₂ _ hl₂ hr₂ =>
      obtain ⟨hk, hks'⟩ := List.nodup_cons.mp hks
      have haddr₁ := addrs_congr (M := M) hl₁.map_fst
      have haddr₂ := addrs_congr (M := M) hl₂.map_fst
      -- a later layer leaves what was written in this one
      have hsk : ∀ a ∈ M.addrs ps₁, s₂ k a = m₁ k a := by
        intro a ha
        rw [hs₂ k List.mem_cons_self a ha]
        exact hr₁.frame (Or.inl hk)
      obtain ⟨T, hT, hT₁, hT₂⟩ := hl₁.joint hl₂ hA hdis hJ₁ hJ₂ hsk
      have hm₂ : ∀ k' ∈ ks, ∀ a ∈ M.addrs ns₁, m₂ k' a = t₁ k' a := by
        intro k' hk' a ha
        have hne : k' ≠ k := fun heq => hk (heq ▸ hk')
        rw [hl₂.frame (Or.inl hne)]
        exact hs₂ k' (List.mem_cons_of_mem _ hk') a (haddr₁ ▸ ha)
      obtain ⟨U, hU, hU₁, hU₂⟩ := ih hks' hr₂ (hA.congr hl₁.map_fst)
        (fun a ha => hdis a (haddr₂ ▸ ha)) hT₁ (fun k' a ha => hT₂ k' a (haddr₁ ▸ ha)) hm₂
      exact ⟨U, cons hT hU, hU₁, fun k' a ha => hU₂ k' a (haddr₁.symm ▸ ha)⟩

/-- **Rows that write nowhere where earlier rows write or read** may go through
the layers together with them. -/
theorem append (hks : ks.Nodup) (h₁ : M.Run ks s ps₁ t qs₁) (h₂ : M.Run ks t ps₂ u qs₂)
    (hA : M.Within ps₁ A) (hdis : ∀ a ∈ M.addrs ps₂, a ∉ A) :
    M.Run ks s (ps₁ ++ ps₂) u (qs₁ ++ qs₂) := by
  obtain ⟨T, hT, hT₁, hT₂⟩ := joint hks h₁ h₂ hA hdis (fun _ _ _ => rfl)
    (fun k' a ha => (h₁.frame (Or.inr ha)).symm) (fun _ _ _ _ => rfl)
  have hTu : T = u := by
    funext k' a
    by_cases ha : a ∈ A
    · rw [hT₁ k' a ha]
      exact (h₂.frame (Or.inr (fun hmem => hdis a hmem ha))).symm
    · refine hT₂ k' a (fun hmem => ha ?_)
      obtain ⟨p, hp, rfl⟩ := List.mem_map.mp hmem
      exact (hA p hp).1
  exact hTu ▸ hT

/-- **Rows that have nothing in common** may go one group after the other, in
either order, or together: each takes the states it takes on its own, and the
store ends up the same. -/
theorem parallel (hks : ks.Nodup) (h₁ : M.Run ks s ps₁ t qs₁) (h₂ : M.Run ks s ps₂ u qs₂)
    (hA : M.Within ps₁ A) (hA' : M.Within ps₂ A') (hdis : ∀ a ∈ A, a ∉ A') :
    ∃ v, M.Run ks t ps₂ v qs₂ ∧ M.Run ks u ps₁ v qs₁
      ∧ M.Run ks s (ps₁ ++ ps₂) v (qs₁ ++ qs₂) := by
  have hoff₁ : ∀ k', ∀ a ∈ A', t k' a = s k' a := fun k' a ha =>
    h₁.frame (Or.inr (fun hmem => hdis _ (hA.addr_mem hmem) ha))
  have hoff₂ : ∀ k', ∀ a ∈ A, u k' a = s k' a := fun k' a ha =>
    h₂.frame (Or.inr (fun hmem => hdis _ ha (hA'.addr_mem hmem)))
  obtain ⟨v, hv, hvA⟩ := h₂.congr hA' hoff₁
  obtain ⟨v', hv', hvA'⟩ := h₁.congr hA hoff₂
  have hvv : v' = v := by
    funext k' a
    by_cases ha : a ∈ M.addrs ps₁
    · rw [hvA' k' a (hA.addr_mem ha)]
      exact (hv.frame (Or.inr (fun hmem => hdis _ (hA.addr_mem ha)
        (hA'.addr_mem hmem)))).symm
    · rw [hv'.frame (Or.inr ha)]
      by_cases ha' : a ∈ M.addrs ps₂
      · exact (hvA k' a (hA'.addr_mem ha')).symm
      · rw [hv.frame (Or.inr ha'), h₁.frame (Or.inr ha), h₂.frame (Or.inr ha')]
  exact ⟨v, hv, hvv ▸ hv', append hks h₁ hv hA
    (fun a ha hmem => hdis _ hmem (hA'.addr_mem ha))⟩

end Run

end Layers

end LayerStack
