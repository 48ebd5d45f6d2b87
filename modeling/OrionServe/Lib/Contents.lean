import OrionServe.Lib.Layers

/-!
# What a layered store holds

An entry of a layered store says nothing about what it is an entry of. Here
rows stand for things, and what a row writes at a layer is the entry that the
thing it stands for has there (`LayerStack.Meaning`). Which address holds
which thing – the *contents* of the store – can then be kept beside it: a row
that writes puts its own thing at its address, whatever the layers do. A row
need not stand for anything, and then nobody knows what is at its address.

A store is faithful to its contents when it has, at every layer, the entries
of the things they name. A pass keeps it so, and each of its rows goes on
standing for its thing, as long as the rows that stand for something find what
they expect at the addresses they read (`LayerStack.Run.faithful`). So what a
row comes out with depends on what it stands for alone, and not on who wrote
what it reads, when, or in which pass.
-/

namespace LayerStack

variable {κ α β δ ρ χ γ : Type*}

/-- Related entries written at the same addresses keep two stores related,
address by address. -/
theorem put_rel [DecidableEq α] {R : β → δ → Prop} {f : α → β} {g : α → δ}
    {ws : List (α × β)} {us : List (α × δ)} (hfg : ∀ a, R (f a) (g a))
    (hws : List.Forall₂ (fun w u => w.1 = u.1 ∧ R w.2 u.2) ws us) (a : α) :
    R (put f ws a) (put g us a) := by
  induction hws generalizing f g with
  | nil => exact hfg a
  | @cons w u ws us hwu _ ih =>
    refine ih (fun a => ?_)
    show R (Function.update f w.1 w.2 a) (Function.update g u.1 u.2 a)
    by_cases ha : a = w.1
    · subst ha
      rw [Function.update_self, hwu.1, Function.update_self]
      exact hwu.2
    · rw [Function.update_of_ne ha, Function.update_of_ne (hwu.1 ▸ ha)]
      exact hfg a

variable (M : LayerStack κ α β ρ χ)

/-- **What rows stand for.** -/
structure Meaning (γ : Type*) where
  /-- The entry of a thing at a layer. -/
  entry : κ → γ → β
  /-- A row in a state, with these layers to go, stands for a thing. -/
  Stands : List κ → ρ → χ → γ → Prop
  /-- A row that stands for a thing expects another at an address. -/
  Expects : ρ → γ → α → γ → Prop
  /-- The stores that occur. -/
  Occurs : (κ → α → β) → Prop
  entry_eq : ∀ {k ks r x g v}, Stands (k :: ks) r x g → M.entry k r x v → v = entry k g
  stands_next : ∀ {k ks r x g s y}, Stands (k :: ks) r x g → Occurs s →
    (∀ a g', Expects r g a g' → s k a = entry k g') → M.next k r x (s k) y → Stands ks r y g

variable [DecidableEq α]

/-- The contents after rows have written what they stand for. -/
def contents (c : α → Option γ) (rs : List ρ) (gs : List (Option γ)) : α → Option γ :=
  put c (List.zipWith (fun r g => (M.addr r, g)) rs gs)

variable {M} (N : M.Meaning γ)

namespace Meaning

/-- **A store's part for a layer has the entries of its contents.** -/
def Faithful (c : α → Option γ) (k : κ) (f : α → β) : Prop :=
  ∀ a g, c a = some g → f a = N.entry k g

/-- **Rows find what they expect**, once all of them have written. -/
def Coherent (c : α → Option γ) (rs : List ρ) (gs : List (Option γ)) : Prop :=
  List.Forall₂ (fun r o => ∀ g ∈ o, ∀ a g', N.Expects r g a g' →
    M.contents c rs gs a = some g') rs gs

end Meaning

variable [DecidableEq κ] {N} {k : κ} {ks : List κ} {s t : κ → α → β} {ps qs : List (ρ × χ)}
  {gs : List (Option γ)} {c : α → Option γ}

omit [DecidableEq α] [DecidableEq κ] in
/-- Rows that find what they expect go on standing for their things. -/
theorem stands_of_forall₂ {c' : α → Option γ} (ht : N.Occurs t)
    (hps : List.Forall₂ (fun p o => ∀ g ∈ o, N.Stands (k :: ks) p.1 p.2 g) ps gs)
    (hc : N.Faithful c' k (t k))
    (hfind : List.Forall₂ (fun p o => ∀ g ∈ o, ∀ a g', N.Expects p.1 g a g' → c' a = some g')
      ps gs)
    (hnext : List.Forall₂ (fun p q => q.1 = p.1 ∧ M.next k p.1 p.2 (t k) q.2) ps qs) :
    List.Forall₂ (fun q o => ∀ g ∈ o, N.Stands ks q.1 q.2 g) qs gs := by
  induction hnext generalizing gs with
  | nil =>
    cases hps
    exact .nil
  | cons hq _ ih =>
    cases hps with
    | cons hp hps =>
      cases hfind with
      | cons hf hfind =>
        refine .cons (fun g hg => ?_) (ih hps hfind)
        rw [hq.1]
        exact N.stands_next (hp g hg) ht (fun a g' hg' => hc a g' (hf g hg a g' hg')) hq.2

/-- A layer writes entries of what its rows stand for, and leaves the rows
standing for it. -/
theorem Layer.faithful (h : M.Layer k s ps t qs) (ht : N.Occurs t)
    (hps : List.Forall₂ (fun p o => ∀ g ∈ o, N.Stands (k :: ks) p.1 p.2 g) ps gs)
    (hc : N.Faithful c k (s k)) (hfind : N.Coherent c (ps.map Prod.fst) gs) :
    N.Faithful (M.contents c (ps.map Prod.fst) gs) k (t k)
      ∧ List.Forall₂ (fun q o => ∀ g ∈ o, N.Stands ks q.1 q.2 g) qs gs := by
  obtain ⟨ws, hws, rfl, hnext⟩ := h
  have hwrites : List.Forall₂ (fun w u => w.1 = u.1 ∧ ∀ g, u.2 = some g → w.2 = N.entry k g)
      ws (List.zipWith (fun r g => (M.addr r, g)) (ps.map Prod.fst) gs) := by
    clear hfind hnext hc ht
    induction hws generalizing gs with
    | nil =>
      cases hps
      exact .nil
    | cons hw _ ih =>
      cases hps with
      | cons hp hps =>
        exact .cons ⟨hw.1, fun g hg => N.entry_eq (hp g hg) hw.2⟩ (ih hps)
  have hfaithful : N.Faithful (M.contents c (ps.map Prod.fst) gs) k
      (Function.update s k (put (s k) ws) k) := by
    rw [Function.update_self]
    exact fun a => put_rel (R := fun v o => ∀ g, o = some g → v = N.entry k g) hc hwrites a
  exact ⟨hfaithful, stands_of_forall₂ ht hps hfaithful (List.forall₂_map_left_iff.mp hfind) hnext⟩

/-- **A pass keeps the store faithful to its contents**, and its rows stand for
what they stood for at its start. -/
theorem Run.faithful (hoccurs : ∀ {k s ps t qs}, M.Layer k s ps t qs → N.Occurs s → N.Occurs t)
    (hks : ks.Nodup) (h : M.Run ks s ps t qs) (hs : N.Occurs s)
    (hps : List.Forall₂ (fun p o => ∀ g ∈ o, N.Stands ks p.1 p.2 g) ps gs)
    (hc : ∀ k ∈ ks, N.Faithful c k (s k)) (hfind : N.Coherent c (ps.map Prod.fst) gs) :
    (∀ k ∈ ks, N.Faithful (M.contents c (ps.map Prod.fst) gs) k (t k))
      ∧ List.Forall₂ (fun q o => ∀ g ∈ o, N.Stands [] q.1 q.2 g) qs gs := by
  induction h with
  | nil => exact ⟨fun _ hk => absurd hk List.not_mem_nil, hps⟩
  | @cons k ks s m t ps ns qs hl hr ih =>
    obtain ⟨hk, hks⟩ := List.nodup_cons.mp hks
    obtain ⟨hck, hcs⟩ := List.forall_mem_cons.mp hc
    obtain ⟨hfirst, hns⟩ := hl.faithful (hoccurs hl hs) hps hck hfind
    have hlater : ∀ k' ∈ ks, N.Faithful c k' (m k') := by
      intro k' hk' a g hg
      rw [hl.frame (Or.inl (fun heq => hk (heq ▸ hk')))]
      exact hcs k' hk' a g hg
    rw [← hl.map_fst] at hfirst hfind ⊢
    obtain ⟨hrest, hqs⟩ := ih hks (hoccurs hl hs) hns hlater hfind
    refine ⟨List.forall_mem_cons.mpr ⟨fun a g hg => ?_, hrest⟩, hqs⟩
    rw [hr.frame (Or.inl hk)]
    exact hfirst a g hg

end LayerStack
