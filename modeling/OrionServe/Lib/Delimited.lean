import OrionServe.Lib.Search

/-!
# Fields between delimiters

A delimiter that does not overlap itself marks where a field ends exactly when
the field does not contain it: the first occurrence in the field, the delimiter
and whatever follows is then the delimiter, since no occurrence can begin in
the field and end behind it (`List.cut_append`).

Records of two fields, each ended by a delimiter of its own and all of them
introduced by the same opening, are read back one after the other. What is read
back is what was written exactly when no field contains the delimiter that
ends it (`List.Framing.unframe_iff`).
-/

namespace List

variable {α : Type*}

/-- No proper end of a delimiter is a beginning of it. -/
def Unbordered (d : List α) : Prop := ∀ k < d.length, 0 < k → ¬ d.drop k <+: d

instance [DecidableEq α] (d : List α) : Decidable (Unbordered d) := by
  unfold Unbordered
  infer_instance

variable {a b d l r : List α}

/-- **No occurrence across the seam.** -/
theorem Unbordered.not_prefix_drop (hd : Unbordered d) (ha : ¬ d <:+: a) {i : ℕ}
    (hi : i < a.length) : ¬ d <+: (a ++ (d ++ r)).drop i := by
  intro h
  rw [drop_append_of_le_length hi.le] at h
  have hpos : 0 < (a.drop i).length := by
    rw [length_drop]
    omega
  rcases Nat.lt_or_ge (a.drop i).length d.length with hlong | hshort
  · -- the delimiter begins in the field and ends in the next one
    obtain ⟨u, hu⟩ := prefix_of_prefix_length_le (prefix_append _ _) h hlong.le
    have hdrop : d.drop (a.drop i).length = u := by
      conv_lhs => rw [← hu, drop_left]
    refine hd _ hlong hpos ?_
    rw [hdrop]
    have hrest : u <+: d ++ r := by
      rw [← hu, prefix_append_right_inj] at h
      rwa [hu] at h
    refine prefix_of_prefix_length_le hrest (prefix_append d r) ?_
    rw [← hdrop, length_drop]
    exact Nat.sub_le _ _
  · refine ha (IsInfix.trans ?_ (drop_suffix i a).isInfix)
    exact (prefix_of_prefix_length_le h (prefix_append _ _) hshort).isInfix

variable [DecidableEq α]

/-- A first match is one, and the first. -/
theorem firstMatch_eq_some {i : ℕ} (h : firstMatch d l = some i) :
    i ≤ l.length ∧ d <+: l.drop i ∧ ∀ j < i, ¬ d <+: l.drop j := by
  induction l generalizing i with
  | nil =>
    unfold firstMatch at h
    split at h
    · next hnil =>
      obtain rfl := Option.some.inj h
      exact ⟨le_rfl, hnil ▸ nil_prefix, fun j hj => absurd hj (Nat.not_lt_zero j)⟩
    · exact absurd h (by simp)
  | cons x l ih =>
    unfold firstMatch at h
    split at h
    · next hpre =>
      obtain rfl := Option.some.inj h
      exact ⟨Nat.zero_le _, hpre, fun j hj => absurd hj (Nat.not_lt_zero j)⟩
    · next hno =>
      obtain ⟨i, hi, rfl⟩ := Option.map_eq_some_iff.mp h
      obtain ⟨hle, hpre, hfirst⟩ := ih hi
      refine ⟨Nat.succ_le_succ hle, hpre, fun j hj => ?_⟩
      rcases j with - | j
      · exact hno
      · exact hfirst j (Nat.lt_of_succ_lt_succ hj)

/-- Cuts a text at the first occurrence of a delimiter, which is dropped. -/
def cut (d l : List α) : Option (List α × List α) :=
  (firstMatch d l).map (fun i => (l.take i, l.drop (i + d.length)))

theorem cut_append (hd : Unbordered d) (ha : ¬ d <:+: a) :
    cut d (a ++ (d ++ r)) = some (a, r) := by
  have hfirst : firstMatch d (d ++ r) = some 0 := by
    cases hdr : d ++ r with
    | nil =>
      obtain ⟨rfl, -⟩ := append_eq_nil_iff.mp hdr
      rfl
    | cons x l => exact if_pos (hdr ▸ prefix_append d r)
  rw [cut, firstMatch_append (fun i hi => hd.not_prefix_drop ha hi), hfirst, Option.map_some,
    Option.map_some, Nat.add_zero, take_left, ← length_append, ← append_assoc, drop_left]

/-- What comes before a cut does not contain the delimiter. -/
theorem not_infix_of_cut (hne : d ≠ []) (h : cut d l = some (a, r)) : ¬ d <:+: a := by
  obtain ⟨i, hi, heq⟩ := Option.map_eq_some_iff.mp h
  obtain ⟨rfl, rfl⟩ := Prod.mk.inj heq
  obtain ⟨hle, -, hfirst⟩ := firstMatch_eq_some hi
  intro hin
  obtain ⟨j, hj, hpre⟩ := infix_iff_prefix_drop.mp hin
  have hlen := hpre.length_le
  have hpos := length_pos_of_ne_nil hne
  rw [length_drop, length_take, min_eq_left hle] at hlen
  refine hfirst j (by omega) (hpre.trans ?_)
  rw [drop_take]
  exact take_prefix _ _

/-- **How records of two fields are laid out.** -/
structure Framing (α : Type*) where
  opening : List α
  /-- Ends the first field. -/
  middle : List α
  /-- Ends the second field. -/
  close : List α
  middle_ne : middle ≠ []
  close_ne : close ≠ []
  middle_unbordered : Unbordered middle
  close_unbordered : Unbordered close

namespace Framing

variable (f : Framing α) {last : List α}

omit [DecidableEq α] in
/-- A record. -/
def frame (m : List α × List α) : List α :=
  f.opening ++ (m.1 ++ (f.middle ++ (m.2 ++ f.close)))

/-- Records, and the first field of one more. -/
def frames (last : List α) (ms : List (List α × List α)) : List α :=
  ms.flatMap f.frame ++ (f.opening ++ (last ++ f.middle))

/-- Neither field contains the delimiter that ends it. -/
def Clean (m : List α × List α) : Prop := ¬ f.middle <:+: m.1 ∧ ¬ f.close <:+: m.2

instance (m : List α × List α) : Decidable (f.Clean m) := by
  unfold Clean
  infer_instance

/-- Reads records back, so many at most, up to the one that is open. -/
def unframe (last : List α) : ℕ → List α → Option (List (List α × List α))
  | 0, _ => none
  | n + 1, l =>
    if f.opening <+: l then
      (cut f.middle (l.drop f.opening.length)).bind (fun p =>
        if p.2 = [] then (if p.1 = last then some [] else none)
        else (cut f.close p.2).bind (fun q =>
          (unframe last n q.2).map (fun ms => (p.1, q.1) :: ms)))
    else none

/-- What is read back is clean. -/
theorem clean_of_unframe {n : ℕ} {ms : List (List α × List α)}
    (h : f.unframe last n l = some ms) : ∀ m ∈ ms, f.Clean m := by
  induction n generalizing l ms with
  | zero => exact absurd h nofun
  | succ n ih =>
    rw [unframe] at h
    split at h
    · obtain ⟨p, hp, h⟩ := Option.bind_eq_some_iff.mp h
      split at h
      · split at h
        · rw [← Option.some.inj h]
          exact fun m hm => absurd hm not_mem_nil
        · exact absurd h nofun
      · obtain ⟨q, hq, h⟩ := Option.bind_eq_some_iff.mp h
        obtain ⟨ms', hms', rfl⟩ := Option.map_eq_some_iff.mp h
        exact forall_mem_cons.mpr
          ⟨⟨not_infix_of_cut f.middle_ne hp, not_infix_of_cut f.close_ne hq⟩, ih hms'⟩
    · exact absurd h nofun

/-- **Clean records are read back.** -/
theorem unframe_frames (hlast : ¬ f.middle <:+: last) {n : ℕ} {ms : List (List α × List α)}
    (hn : ms.length < n) (h : ∀ m ∈ ms, f.Clean m) :
    f.unframe last n (f.frames last ms) = some ms := by
  induction ms generalizing n with
  | nil =>
    obtain ⟨n, rfl⟩ := Nat.exists_eq_succ_of_ne_zero (Nat.ne_of_gt hn)
    have hcut := cut_append (r := []) f.middle_unbordered hlast
    rw [append_nil] at hcut
    rw [frames, flatMap_nil, nil_append, unframe, if_pos (prefix_append _ _), drop_left, hcut,
      Option.bind_some, if_pos rfl, if_pos rfl]
  | cons m ms ih =>
    obtain ⟨n, rfl⟩ := Nat.exists_eq_succ_of_ne_zero (Nat.ne_of_gt (Nat.zero_lt_of_lt hn))
    obtain ⟨⟨hfirst, hsecond⟩, hms⟩ := forall_mem_cons.mp h
    have hrest := ih (Nat.lt_of_succ_lt_succ hn) hms
    have hlayout : f.frames last (m :: ms)
        = f.opening ++ (m.1 ++ (f.middle ++ (m.2 ++ (f.close ++ f.frames last ms)))) := by
      rw [frames, flatMap_cons, frame, frames]
      simp only [append_assoc]
    have hopen : m.2 ++ (f.close ++ f.frames last ms) ≠ [] := by
      refine append_ne_nil_of_right_ne_nil _ (append_ne_nil_of_left_ne_nil f.close_ne _)
    rw [hlayout, unframe, if_pos (prefix_append _ _), drop_left,
      cut_append f.middle_unbordered hfirst, Option.bind_some, if_neg hopen,
      cut_append f.close_unbordered hsecond, Option.bind_some, hrest, Option.map_some]

omit [DecidableEq α] in
/-- There is something of every record. -/
theorem length_le_frames (ms : List (List α × List α)) :
    ms.length ≤ (f.frames last ms).length := by
  have hone : ∀ m, 1 ≤ (f.frame m).length := by
    intro m
    have := length_pos_of_ne_nil f.close_ne
    simp only [frame, length_append]
    omega
  rw [frames, length_append]
  refine (Nat.le_add_right _ _).trans' ?_
  induction ms with
  | nil => exact Nat.zero_le _
  | cons m ms ih =>
    rw [flatMap_cons, length_append, length_cons]
    have := hone m
    omega

/-- **Records are read back exactly when they are clean.** -/
theorem unframe_iff (hlast : ¬ f.middle <:+: last) {n : ℕ} {ms : List (List α × List α)}
    (hn : ms.length < n) :
    f.unframe last n (f.frames last ms) = some ms ↔ ∀ m ∈ ms, f.Clean m :=
  ⟨f.clean_of_unframe, f.unframe_frames hlast hn⟩

end Framing

end List
