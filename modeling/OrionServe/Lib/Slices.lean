import Mathlib.Tactic

/-!
# Slices of a flat list, and loops that may fail

Arrays of fixed-width records are kept flat: the `i`-th record of width `n` is
the slice from `i * n`. Writing a slice leaves every slice that does not meet
it, and a flat list is determined by its records.

A loop that collects one result for each element, or stops at the first
failure, is `List.mapM` in `Except`; it succeeds exactly when every element
has its result, which is what `List.Forall₂` says.
-/

universe u

namespace Except

variable {ε : Type*} {α β : Type u}

/-- From a step that has its result the rest goes on. -/
theorem bind_eq_ok_iff {r : Except ε α} {f : α → Except ε β} {b : β} :
    (r >>= f) = .ok b ↔ ∃ a, r = .ok a ∧ f a = .ok b := by
  cases r with
  | error e => exact ⟨nofun, nofun⟩
  | ok a => exact ⟨fun h => ⟨a, rfl, h⟩, fun ⟨_, h, h'⟩ => Except.ok.inj h ▸ h'⟩

theorem pure_eq_ok_iff {a b : α} : (pure a : Except ε α) = .ok b ↔ a = b :=
  ⟨Except.ok.inj, congrArg Except.ok⟩

end Except

namespace List

variable {α β γ ε : Type*}

/-! ## Slices -/

/-- The `n` elements from `off` on. -/
def slice (l : List α) (off n : ℕ) : List α := (l.drop off).take n

/-- Overwrites the elements from `off` on; what is beyond the end is dropped. -/
def patch (l : List α) (off : ℕ) (seg : List α) : List α :=
  l.mapIdx (fun i x => if i < off then x else seg.getD (i - off) x)

/-- Combines each element with the one beside it, as long as there is one. -/
def zipInto (f : α → β → α) : List α → List β → List α
  | [], _ => []
  | x :: xs, [] => x :: xs
  | x :: xs, y :: ys => f x y :: zipInto f xs ys

@[simp] theorem length_patch (l : List α) (off : ℕ) (seg : List α) :
    (l.patch off seg).length = l.length := length_mapIdx

@[simp] theorem length_zipInto (f : α → β → α) (xs : List α) (ys : List β) :
    (zipInto f xs ys).length = xs.length := by
  induction xs generalizing ys with
  | nil => rfl
  | cons x xs ih =>
    cases ys with
    | nil => rfl
    | cons y ys => rw [zipInto, length_cons, length_cons, ih]

theorem zipInto_append {f : α → β → α} {xs xs' : List α} {ys ys' : List β}
    (h : xs.length = ys.length) :
    zipInto f (xs ++ xs') (ys ++ ys') = zipInto f xs ys ++ zipInto f xs' ys' := by
  induction xs generalizing ys with
  | nil =>
    rw [length_nil] at h
    rw [eq_nil_of_length_eq_zero h.symm]
    rfl
  | cons x xs ih =>
    cases ys with
    | nil => exact absurd h (Nat.succ_ne_zero _)
    | cons y ys =>
      rw [cons_append, cons_append, zipInto, zipInto, cons_append, ih (Nat.succ_injective h)]

theorem getElem?_slice (l : List α) (off n i : ℕ) :
    (l.slice off n)[i]? = if i < n then l[off + i]? else none := by
  unfold slice
  rw [getElem?_take, getElem?_drop]

theorem length_slice {l : List α} {off n : ℕ} (h : off + n ≤ l.length) :
    (l.slice off n).length = n := by
  unfold slice
  rw [length_take, length_drop]
  omega

theorem getElem?_patch (l : List α) (off : ℕ) (seg : List α) (i : ℕ) :
    (l.patch off seg)[i]?
      = l[i]?.map (fun x => if i < off then x else seg.getD (i - off) x) := getElem?_mapIdx

/-- What was written is there. -/
theorem slice_patch {l : List α} {off : ℕ} {seg : List α} (h : off + seg.length ≤ l.length) :
    (l.patch off seg).slice off seg.length = seg := by
  ext1 i
  rw [getElem?_slice]
  by_cases hi : i < seg.length
  · rw [if_pos hi, getElem?_patch, getElem?_eq_getElem (by omega : off + i < l.length),
      Option.map_some, if_neg (by omega), Nat.add_sub_cancel_left, getD_eq_getElem?_getD,
      getElem?_eq_getElem hi, Option.getD_some]
  · rw [if_neg hi, getElem?_eq_none (not_lt.mp hi)]

/-- **What does not meet the overwritten slice is left.** -/
theorem slice_patch_of_disjoint {l seg : List α} {off off' n : ℕ}
    (h : off + seg.length ≤ off' ∨ off' + n ≤ off) :
    (l.patch off seg).slice off' n = l.slice off' n := by
  ext1 i
  rw [getElem?_slice, getElem?_slice]
  by_cases hi : i < n
  · rw [if_pos hi, if_pos hi, getElem?_patch]
    rcases hx : l[off' + i]? with - | x
    · rfl
    rw [Option.map_some]
    by_cases hlt : off' + i < off
    · rw [if_pos hlt]
    · rw [if_neg hlt, getD_eq_getElem?_getD, getElem?_eq_none (by omega), Option.getD_none]
  · rw [if_neg hi, if_neg hi]

/-- The `i`-th record of records laid end to end. -/
theorem slice_flatMap {f : β → List α} {n : ℕ} {rs : List β} (hn : ∀ r ∈ rs, (f r).length = n)
    {i : ℕ} {r : β} (hr : rs[i]? = some r) : (rs.flatMap f).slice (i * n) n = f r := by
  induction rs generalizing i with
  | nil => exact absurd hr (by simp)
  | cons r' rs ih =>
    have hlen := hn r' mem_cons_self
    rw [flatMap_cons]
    unfold slice at ih ⊢
    cases i with
    | zero =>
      rw [getElem?_cons_zero, Option.some.injEq] at hr
      subst hr
      rw [Nat.zero_mul, drop_zero, take_append_of_le_length hlen.ge, take_of_length_le hlen.le]
    | succ i =>
      have hoff : (i + 1) * n = (f r').length + i * n := by
        rw [hlen]
        ring
      rw [hoff, ← drop_drop, drop_left]
      exact ih (fun x hx => hn x (mem_cons_of_mem _ hx)) (by rwa [getElem?_cons_succ] at hr)

theorem length_flatMap_of_const {f : β → List α} {n : ℕ} {rs : List β}
    (hn : ∀ r ∈ rs, (f r).length = n) : (rs.flatMap f).length = rs.length * n := by
  rw [length_flatMap, map_congr_left hn, map_const', sum_replicate, smul_eq_mul]

/-- Writing behind a beginning. -/
theorem patch_append {l rest seg : List α} (h : seg.length ≤ rest.length) :
    (l ++ rest).patch l.length seg = (l ++ seg) ++ rest.drop seg.length := by
  ext1 i
  rw [getElem?_patch, append_assoc]
  by_cases hi : i < l.length
  · rw [getElem?_append_left hi, getElem?_append_left hi, getElem?_eq_getElem hi,
      Option.map_some, if_pos hi]
  have hle : l.length ≤ i := not_lt.mp hi
  rw [getElem?_append_right hle, getElem?_append_right hle, getElem?_append]
  simp only [if_neg hi]
  split
  · next hseg =>
    rw [getElem?_eq_getElem (hseg.trans_le h), Option.map_some, getD_eq_getElem?_getD,
      getElem?_eq_getElem hseg, Option.getD_some]
  · next hseg =>
    rw [getElem?_drop, Nat.add_sub_cancel' (not_lt.mp hseg)]
    rcases rest[i - l.length]? with - | x
    · rfl
    · rw [Option.map_some, getD_eq_getElem?_getD, getElem?_eq_none (not_lt.mp hseg),
        Option.getD_none]

/-! ## Loops that may fail -/

/-- **A collecting loop succeeds** exactly when every element has its result. -/
theorem mapM_eq_ok_iff {f : α → Except ε β} {xs : List α} {ys : List β} :
    xs.mapM f = .ok ys ↔ Forall₂ (fun x y => f x = .ok y) xs ys := by
  induction xs generalizing ys with
  | nil =>
    rw [forall₂_nil_left_iff]
    constructor
    · intro h
      exact (Except.ok.inj h).symm
    · rintro rfl
      rfl
  | cons x xs ih =>
    rw [mapM_cons]
    rcases hx : f x with e | y
    · constructor
      · intro h
        exact absurd h (by simp [bind, Except.bind])
      · intro h
        obtain ⟨y, ys', hy, -, -⟩ := forall₂_cons_left_iff.mp h
        exact absurd (hx.symm.trans hy) (by simp)
    · rcases hxs : xs.mapM f with e | zs
      · constructor
        · intro h
          exact absurd h (by simp [bind, Except.bind])
        · intro h
          obtain ⟨y', ys', -, hys, -⟩ := forall₂_cons_left_iff.mp h
          exact absurd (hxs.symm.trans (ih.mpr hys)) (by simp)
      · show Except.ok (y :: zs) = Except.ok ys ↔ _
        constructor
        · intro h
          rw [← Except.ok.inj h]
          exact Forall₂.cons hx (ih.mp hxs)
        · intro h
          obtain ⟨y', ys', hy, hys, rfl⟩ := forall₂_cons_left_iff.mp h
          rw [Except.ok.inj (hx.symm.trans hy), Except.ok.inj (hxs.symm.trans (ih.mpr hys))]

theorem mapM_congr {f g : α → Except ε β} {xs : List α} (h : ∀ x ∈ xs, f x = g x) :
    xs.mapM f = xs.mapM g := by
  induction xs with
  | nil => rfl
  | cons x xs ih =>
    rw [mapM_cons, mapM_cons, h x mem_cons_self, ih (fun y hy => h y (mem_cons_of_mem _ hy))]

/-- What is computed from each result may be computed at the end. -/
theorem mapM_map_eq {β γ : Type u} {f : α → Except ε β} {g : β → γ} (xs : List α) :
    (xs.mapM fun x => do return g (← f x)) = (xs.mapM f).map (map g) := by
  induction xs with
  | nil => rfl
  | cons x xs ih =>
    rw [mapM_cons, mapM_cons, ih]
    rcases f x with e | y
    · rfl
    · rcases xs.mapM f with e | ys <;> rfl

/-- **A buffer filled record by record**, from the left: what has been computed
lies before what the buffer held. -/
theorem foldlM_patch {f : ℕ → Except ε (List α)} {w : ℕ} {out : List α} {m : ℕ}
    (hlen : ∀ i, ∀ v, f i = .ok v → v.length = w) (hroom : m * w ≤ out.length) :
    ((range m).foldlM (fun o i => do return o.patch (i * w) (← f i)) out)
      = ((range m).mapM f).map (fun vs => vs.flatten ++ out.drop (m * w)) := by
  induction m with
  | zero =>
    rw [Nat.zero_mul, drop_zero]
    rfl
  | succ m ih =>
    rw [range_succ, foldlM_append, mapM_append,
      ih ((Nat.mul_le_mul_right w m.le_succ).trans hroom)]
    rcases hvs : (range m).mapM f with e | vs
    · rfl
    rcases hv : f m with e | v
    · simp only [foldlM_cons, mapM_cons, hv]
      rfl
    have hwidth := hlen m v hv
    have hflat : vs.flatten.length = m * w := by
      have hall := mapM_eq_ok_iff.mp hvs
      have hlens : ∀ u ∈ vs, u.length = w := by
        intro u hu
        obtain ⟨i, hi, rfl⟩ := getElem_of_mem hu
        exact hlen _ _ (hall.get (hall.length_eq ▸ hi) hi)
      rw [length_flatten, map_congr_left hlens, map_const', sum_replicate, smul_eq_mul,
        ← hall.length_eq, length_range]
    have hrest : v.length ≤ (out.drop (m * w)).length := by
      rw [length_drop, hwidth]
      have hroom' : m * w + w ≤ out.length := by rwa [← Nat.succ_mul]
      omega
    have hpatch := patch_append (l := vs.flatten) hrest
    rw [hflat, hwidth, drop_drop, ← Nat.succ_mul] at hpatch
    simp only [foldlM_cons, foldlM_nil, mapM_cons, mapM_nil, hv]
    show Except.ok ((vs.flatten ++ out.drop (m * w)).patch (m * w) v)
      = Except.ok ((vs ++ [v]).flatten ++ out.drop ((m + 1) * w))
    rw [hpatch, flatten_append, flatten_singleton]

/-- **A loop over the numbered elements** that fetches what belongs to each
number goes over the elements with what was fetched, when nothing is
missing. -/
theorem foldlM_zipIdx {β γ : Type u} {f : ℕ → Except ε β} (step : γ → α → β → γ)
    (skip : α → Bool) {xs : List α} {ys : List β} {k : ℕ} {c : γ} (hlen : xs.length = ys.length)
    (hf : ∀ i (hi : i < ys.length), f (k + i) = .ok ys[i]) :
    ((xs.zipIdx k).foldlM (fun c p =>
      if skip p.1 then Except.ok c else do return step c p.1 (← f p.2)) c)
      = .ok ((xs.zip ys).foldl (fun c p => if skip p.1 then c else step c p.1 p.2) c) := by
  induction xs generalizing ys k c with
  | nil =>
    rw [eq_nil_of_length_eq_zero hlen.symm]
    rfl
  | cons x xs ih =>
    cases ys with
    | nil => exact absurd hlen (Nat.succ_ne_zero _)
    | cons y ys =>
      have hrest : ∀ i (hi : i < ys.length), f (k + 1 + i) = .ok ys[i] := by
        intro i hi
        have hnext := hf (i + 1) (Nat.succ_lt_succ hi)
        rwa [← Nat.add_assoc, Nat.add_right_comm] at hnext
      rw [zipIdx_cons, foldlM_cons, zip_cons_cons, foldl_cons]
      show ((if skip x then Except.ok c else do return step c x (← f k)) >>= _) = _
      split
      · exact ih (Nat.succ_injective hlen) hrest
      · rw [show f k = Except.ok y from hf 0 (Nat.succ_pos _)]
        exact ih (Nat.succ_injective hlen) hrest

/-- A loop that keeps the length of a list keeps it to its end. -/
theorem length_foldl_of_length_eq {f : List α → β → List α}
    (h : ∀ l b, (f l b).length = l.length) (bs : List β) (l : List α) :
    (bs.foldl f l).length = l.length := by
  induction bs generalizing l with
  | nil => rfl
  | cons b bs ih => rw [foldl_cons, ih, h]

theorem foldlM_congr_of_mem {f g : γ → α → Except ε γ} {xs : List α} {c : γ}
    (h : ∀ c, ∀ x ∈ xs, f c x = g c x) : xs.foldlM f c = xs.foldlM g c := by
  induction xs generalizing c with
  | nil => rfl
  | cons x xs ih =>
    rw [foldlM_cons, foldlM_cons, h c x mem_cons_self]
    exact bind_congr (fun c' => ih (fun c y hy => h c y (mem_cons_of_mem _ hy)))

/-- A loop returns when every step of it does. -/
theorem exists_foldlM_eq_ok {f : γ → α → Except ε γ} {xs : List α} {c : γ}
    (h : ∀ c, ∀ x ∈ xs, ∃ c', f c x = .ok c') : ∃ c', xs.foldlM f c = .ok c' := by
  induction xs generalizing c with
  | nil => exact ⟨c, rfl⟩
  | cons x xs ih =>
    obtain ⟨c₁, hstep⟩ := h c x mem_cons_self
    obtain ⟨c', hrest⟩ := @ih c₁ (fun c y hy => h c y (mem_cons_of_mem _ hy))
    rw [foldlM_cons]
    exact ⟨c', Except.bind_eq_ok_iff.mpr ⟨c₁, hstep, hrest⟩⟩

/-- In a loop that returns every step does. -/
theorem exists_step_of_foldlM {f : γ → α → Except ε γ} {xs : List α} {c c' : γ}
    (h : xs.foldlM f c = .ok c') {x : α} (hx : x ∈ xs) : ∃ c₁ c₂, f c₁ x = .ok c₂ := by
  induction xs generalizing c with
  | nil => exact absurd hx not_mem_nil
  | cons y ys ih =>
    rw [foldlM_cons] at h
    obtain ⟨c₁, hstep, hrest⟩ := Except.bind_eq_ok_iff.mp h
    rcases mem_cons.mp hx with rfl | hx
    · exact ⟨c, c₁, hstep⟩
    · exact ih hrest hx

/-! ## Lists side by side -/

theorem exists_forall₂ {R : α → β → Prop} {xs : List α} (h : ∀ x ∈ xs, ∃ y, R x y) :
    ∃ ys, Forall₂ R xs ys := by
  induction xs with
  | nil => exact ⟨[], .nil⟩
  | cons x xs ih =>
    obtain ⟨⟨y, hy⟩, hrest⟩ := forall_mem_cons.mp h
    obtain ⟨ys, hys⟩ := ih hrest
    exact ⟨y :: ys, .cons hy hys⟩

/-- A collecting loop returns when every element has its result. -/
theorem exists_mapM_eq_ok {β : Type u} {f : α → Except ε β} {xs : List α}
    (h : ∀ x ∈ xs, ∃ y, f x = .ok y) : ∃ ys, xs.mapM f = .ok ys := by
  obtain ⟨ys, hys⟩ := exists_forall₂ h
  exact ⟨ys, mapM_eq_ok_iff.mpr hys⟩

/-- What is computed for each element may be collected first. -/
theorem forall₂_exists_iff {R : α → γ → Prop} {g : α → γ → β} {xs : List α} {ys : List β} :
    Forall₂ (fun x y => ∃ z, R x z ∧ y = g x z) xs ys
      ↔ ∃ zs, Forall₂ R xs zs ∧ ys = zipWith g xs zs := by
  constructor
  · intro h
    induction h with
    | nil => exact ⟨[], Forall₂.nil, rfl⟩
    | cons hx _ ih =>
      obtain ⟨z, hz, rfl⟩ := hx
      obtain ⟨zs, hzs, rfl⟩ := ih
      exact ⟨z :: zs, Forall₂.cons hz hzs, rfl⟩
  · rintro ⟨zs, h, rfl⟩
    induction h with
    | nil => exact Forall₂.nil
    | cons hz _ ih => exact Forall₂.cons ⟨_, hz, rfl⟩ ih

theorem forall_mem_zipWith_iff {g : α → β → γ} {P : γ → Prop} {xs : List α} {ys : List β}
    (h : xs.length = ys.length) :
    (∀ z ∈ zipWith g xs ys, P z) ↔ Forall₂ (fun x y => P (g x y)) xs ys := by
  induction xs generalizing ys with
  | nil =>
    rw [eq_nil_of_length_eq_zero h.symm]
    exact ⟨fun _ => Forall₂.nil, fun _ z hz => absurd hz not_mem_nil⟩
  | cons x xs ih =>
    cases ys with
    | nil => exact absurd h (Nat.succ_ne_zero _)
    | cons y ys =>
      rw [zipWith_cons_cons, forall_mem_cons, forall₂_cons, ih (Nat.succ_injective h)]

/-- Reading one side only of lists of the same length. -/
theorem map_zipWith_snd {δ : Type*} {g : α → β → γ} {f : γ → δ} {k : β → δ}
    (hf : ∀ x y, f (g x y) = k y) {xs : List α} {ys : List β} (h : xs.length = ys.length) :
    (zipWith g xs ys).map f = ys.map k := by
  induction xs generalizing ys with
  | nil => rw [eq_nil_of_length_eq_zero h.symm]; rfl
  | cons x xs ih =>
    cases ys with
    | nil => exact absurd h (Nat.succ_ne_zero _)
    | cons y ys => rw [zipWith_cons_cons, map_cons, map_cons, hf, ih (Nat.succ_injective h)]

theorem map_zipWith_fst {δ : Type*} {g : α → β → γ} {f : γ → δ} {k : α → δ}
    (hf : ∀ x y, f (g x y) = k x) {xs : List α} {ys : List β} (h : xs.length = ys.length) :
    (zipWith g xs ys).map f = xs.map k := by
  rw [zipWith_comm]
  exact map_zipWith_snd (fun y x => hf x y) h.symm

end List

/-! ## Steps that change a state and may fail -/

namespace Attempt

variable {σ ε α β : Type*}

/-- Goes on from the state reached with the result, unless there is none. What
was done to the state before a failure stays. -/
def andThen (r : σ × Except ε α) (f : σ → α → σ × Except ε β) : σ × Except ε β :=
  match r.2 with
  | .error e => (r.1, .error e)
  | .ok a => f r.1 a

/-- Takes a step for each element. -/
def forEach (f : σ → α → σ × Except ε Unit) : σ → List α → σ × Except ε Unit
  | s, [] => (s, .ok ())
  | s, x :: xs => andThen (f s x) (fun s _ => forEach f s xs)

theorem andThen_eq_ok_iff {r : σ × Except ε α} {f : σ → α → σ × Except ε β} {t : σ} {b : β} :
    andThen r f = (t, .ok b) ↔ ∃ s a, r = (s, .ok a) ∧ f s a = (t, .ok b) := by
  obtain ⟨s, e | a⟩ := r
  · constructor
    · intro h
      exact absurd (congrArg Prod.snd h) (by simp [andThen])
    · rintro ⟨_, _, h, -⟩
      exact absurd (congrArg Prod.snd h) (by simp)
  · constructor
    · intro h
      exact ⟨s, a, rfl, h⟩
    · rintro ⟨_, _, ⟨⟩, h⟩
      exact h

theorem forEach_cons_eq_ok_iff {f : σ → α → σ × Except ε Unit} {s t : σ} {x : α} {xs : List α} :
    forEach f s (x :: xs) = (t, .ok ())
      ↔ ∃ m, f s x = (m, .ok ()) ∧ forEach f m xs = (t, .ok ()) := by
  rw [forEach, andThen_eq_ok_iff]
  exact ⟨fun ⟨m, _, h⟩ => ⟨m, h⟩, fun ⟨m, h⟩ => ⟨m, (), h⟩⟩

/-- **Step rule**: what the parts keep, in every state they may go on from, is
kept, also by a failure. -/
theorem andThen_invariant {P : σ → Prop} {r : σ × Except ε α}
    {f : σ → α → σ × Except ε β} (hr : P r.1) (hf : ∀ s a, P s → P (f s a).1) :
    P (andThen r f).1 := by
  obtain ⟨s, e | a⟩ := r
  · exact hr
  · exact hf s a hr

/-- **Run rule** for the loop. -/
theorem forEach_invariant {P : σ → Prop} {f : σ → α → σ × Except ε Unit}
    (hf : ∀ s a, P s → P (f s a).1) {s : σ} (hs : P s) (xs : List α) :
    P (forEach f s xs).1 := by
  induction xs generalizing s with
  | nil => exact hs
  | cons x xs ih => exact andThen_invariant (hf s x hs) (fun t _ ht => ih ht)

/-- The same for what only the steps for the elements need to keep. -/
theorem forEach_invariant_of_mem {P : σ → Prop} {f : σ → α → σ × Except ε Unit} {s : σ}
    {xs : List α} (hf : ∀ x ∈ xs, ∀ s, P s → P (f s x).1) (hs : P s) : P (forEach f s xs).1 := by
  induction xs generalizing s with
  | nil => exact hs
  | cons x xs ih =>
    obtain ⟨hx, hxs⟩ := List.forall_mem_cons.mp hf
    exact andThen_invariant (hx s hs) (fun t _ ht => ih hxs ht)

/-- A loop that succeeded took every step successfully, from a state with what
all steps keep. -/
theorem forEach_step {P : σ → Prop} {f : σ → α → σ × Except ε Unit}
    (hf : ∀ s a, P s → P (f s a).1) {s t : σ} {xs : List α} (hs : P s)
    (h : forEach f s xs = (t, .ok ())) {x : α} (hx : x ∈ xs) :
    ∃ s' t', P s' ∧ f s' x = (t', .ok ()) := by
  induction xs generalizing s with
  | nil => exact absurd hx List.not_mem_nil
  | cons y ys ih =>
    obtain ⟨m, hfirst, hrest⟩ := forEach_cons_eq_ok_iff.mp h
    rcases List.mem_cons.mp hx with rfl | hx
    · exact ⟨s, m, hs, hfirst⟩
    · refine ih ?_ hrest hx
      have hm := hf s y hs
      rwa [hfirst] at hm

end Attempt
