import Mathlib.Tactic

/-!
# Reading a history backwards

A history is a list of events, the newest first, so that what happens next
is put in front. `Since E K h` is the past-time “since”: some event of the
history is an `E`, and everything that happened after it is a `K`. It is how
an invariant says that a fact was established at some point and that
nothing has spoilt it in the meantime. `Justified P h` says of every event of
the history that what came before it satisfies `P`.
-/

variable {ε : Type*}

/-- **An `E` happened, and only `K` since.** The newest event comes first, and one
that is both may be taken for the `E` or passed over. -/
def Since (E K : ε → Prop) : List ε → Prop
  | [] => False
  | e :: past => E e ∨ (K e ∧ Since E K past)

namespace Since

variable {E E' K K' : ε → Prop} {e : ε} {past new : List ε}

/-- The event that has just happened. -/
theorem now (he : E e) : Since E K (e :: past) := Or.inl he

/-- **Step rule**: a harmless event leaves it true. -/
theorem step (he : K e) (h : Since E K past) : Since E K (e :: past) :=
  Or.inr ⟨he, h⟩

/-- **Run rule**: so does any number of them. -/
theorem append (hnew : ∀ e ∈ new, K e) (h : Since E K past) :
    Since E K (new ++ past) := by
  induction new with
  | nil => exact h
  | cons e new ih =>
    exact step (hnew e List.mem_cons_self)
      (ih (fun x hx => hnew x (List.mem_cons_of_mem _ hx)))

/-- Back before events of which none is an `E`: they were harmless. -/
theorem before (h : Since E K (new ++ past)) (hnew : ∀ x ∈ new, ¬ E x) :
    (∀ x ∈ new, K x) ∧ Since E K past := by
  induction new with
  | nil => exact ⟨fun x hx => absurd hx List.not_mem_nil, h⟩
  | cons e new ih =>
    obtain ⟨he, hrest⟩ := h.resolve_left (hnew e List.mem_cons_self)
    obtain ⟨hk, hpast⟩ := ih hrest (fun x hx => hnew x (List.mem_cons_of_mem _ hx))
    exact ⟨List.forall_mem_cons.mpr ⟨he, hk⟩, hpast⟩

theorem mono (hE : ∀ e, E e → E' e) (hK : ∀ e, K e → K' e)
    (h : Since E K past) : Since E' K' past := by
  induction past with
  | nil => exact h
  | cons e past ih => exact Or.imp (hE e) (And.imp (hK e) ih) h

/-- **The event itself**, with what lies on either side of it. -/
theorem iff_exists {h : List ε} :
    Since E K h ↔ ∃ new e past, h = new ++ e :: past ∧ E e ∧ ∀ x ∈ new, K x := by
  constructor
  · intro hs
    induction h with
    | nil => exact hs.elim
    | cons e h ih =>
      rcases hs with he | ⟨hk, hs⟩
      · exact ⟨[], e, h, rfl, he, fun x hx => absurd hx List.not_mem_nil⟩
      · obtain ⟨new, e', past, rfl, he', hnew⟩ := ih hs
        refine ⟨e :: new, e', past, rfl, he', fun x hx => ?_⟩
        rcases List.mem_cons.mp hx with rfl | hx
        · exact hk
        · exact hnew x hx
  · rintro ⟨new, e, past, rfl, he, hnew⟩
    exact append hnew (now he)

/-- The most recent event that is not a `K` is the `E`. -/
theorem of_last (h : Since E K (new ++ e :: past)) (hnew : ∀ x ∈ new, ¬ E x)
    (he : ¬ K e) : E e := by
  induction new with
  | nil => exact h.resolve_right (fun hk => he hk.1)
  | cons x new ih =>
    have hrest := (h.resolve_left (hnew x List.mem_cons_self)).2
    exact ih hrest (fun y hy => hnew y (List.mem_cons_of_mem _ hy))

end Since

/-- **Every event was justified by what came before it.** -/
def Justified (P : ε → List ε → Prop) : List ε → Prop
  | [] => True
  | e :: past => P e past ∧ Justified P past

namespace Justified

variable {P : ε → List ε → Prop} {new : List ε}

/-- The event, picked out of the history. -/
theorem iff_forall {h : List ε} :
    Justified P h ↔ ∀ new e past, h = new ++ e :: past → P e past := by
  constructor
  · intro hj
    induction h with
    | nil =>
      intro new e past he
      exact absurd he.symm (by simp)
    | cons x h ih =>
      intro new e past he
      rcases new with - | ⟨y, new⟩
      · obtain ⟨rfl, rfl⟩ := List.cons.inj he
        exact hj.1
      · exact ih hj.2 new e past (List.cons.inj he).2
  · intro hall
    induction h with
    | nil => trivial
    | cons x h ih =>
      exact ⟨hall [] x h rfl,
        ih (fun new e past he => hall (x :: new) e past (by rw [he]; rfl))⟩

end Justified
