import OrionServe.CacheIndex

/-!
# What a prefix hit hands out

A lookup compares the tokens of one block and the chained digest of
everything before it. So an adopted block agrees with what the prompt asks
for in its own tokens and in a 64-bit digest of its prefix – and in the
prefix itself exactly as far as the digests of the prompts of the run tell
them apart.

Two chunks with the same digest exist, and they suffice to adopt a block
computed under another prefix: the entry of the first chunk is evicted, the
colliding chunk takes its place under the same digest, and the second block
of the old prompt is found through it.
-/

namespace KvCacheManager

variable {n bs : ℕ} {flag : Bool} {m m' : KvCacheManager}

/-- Chunk `i` of a prompt, with the chained digest up to it, matches chunk `j`
of another. -/
def SameDigest (bs : ℕ) (p : List TokenId) (j : ℕ) (q : List TokenId) (i : ℕ) : Prop :=
  (j + 1) * bs ≤ p.length ∧ (i + 1) * bs ≤ q.length
    ∧ chainHash bs p j = chainHash bs q i
    ∧ (p.drop (j * bs)).take bs = (q.drop (i * bs)).take bs

/-- A publication of this block. -/
def PublicationOf (blk : BlockId) (P : List TokenId → ℕ → Prop) : BlockEvent → Prop
  | .published _ p j b => b = blk ∧ P p j
  | _ => False

/-- An event other than a publication of this block. -/
def NoPublicationOf (blk : BlockId) : BlockEvent → Prop
  | .published _ _ _ b => b ≠ blk
  | _ => True

/-- **What an event owes to its past.** An adopted block was last published
under the digest and with the tokens looked up, and whatever is adopted or
published belongs to a prompt some table was opened for. -/
def Owed (bs : ℕ) : BlockEvent → List BlockEvent → Prop
  | .adopted t q i b, past => .opened t q ∈ past
    ∧ Since (PublicationOf b fun p j => SameDigest bs p j q i) (NoPublicationOf b) past
  | .published s p _ _, past => .opened s p ∈ past
  | _, _ => True

/-- The prompt on record is one that a table was opened for. -/
theorem mem_trace_of_promptOf {seq : SequenceId} {prompt : List TokenId}
    (h : m.promptOf seq = some prompt) : .opened seq prompt ∈ m.trace := by
  obtain ⟨e, he, hsome⟩ := List.exists_of_findSome?_eq_some h
  cases e with
  | opened s p =>
    have hsome : (if s = seq then some p else none) = some prompt := hsome
    split at hsome
    · next hs =>
      rw [← hs, ← Option.some.inj hsome]
      exact he
    · exact absurd hsome (by simp)
  | adopted | handedOut | appended | published | released => exact absurd hsome (by simp)

/-- **Step lemma.** -/
theorem Move.justified (hmove : Move True m m') (h : m.Coherent)
    (hj : Justified (Owed m.blockSize) m.trace) :
    Justified (Owed m.blockSize) m'.trace := by
  cases hmove with
  | opened absent pool index tables trace => rw [trace]; exact ⟨trivial, hj⟩
  | @adopted seq prompt t blk table source full entry pool index tables trace =>
    rw [trace]
    refine ⟨⟨mem_trace_of_promptOf source, ?_⟩, hj⟩
    refine (h.since entry).mono (fun e he => ?_) (fun e he => ?_)
    · cases e with
      | published s p j b =>
        obtain ⟨hb, hchain, htok, hfull⟩ := he
        exact ⟨hb, hfull, full, hchain, htok⟩
      | opened | adopted | handedOut | appended | released => exact he.elim
    · cases e with
      | published s p j b => exact he
      | opened | adopted | handedOut | appended | released => trivial
  | handedOut table pool index tables trace => rw [trace]; exact ⟨trivial, hj⟩
  | sized table pool index tables trace => rw [trace]; exact hj
  | appended table last past pool index tables trace => rw [trace]; exact ⟨trivial, hj⟩
  | hashed source table block full pool index tables trace => rw [trace]; exact hj
  | published source table block full hash tokens absent pool index tables trace =>
    rw [trace]
    exact ⟨mem_trace_of_promptOf (source trivial), hj⟩
  | released table pool index tables trace => rw [trace]; exact ⟨trivial, hj⟩
  | forgot free hash pool index tables trace => rw [trace]; exact hj
  | cleared pool index tables trace => rw [trace]; exact hj
  | idle pool index tables trace => rw [trace]; exact hj

/-- **Run lemma.** -/
theorem Moves.justified (hmoves : Moves True m m') (hpos : 0 < m.blockSize)
    (hx : m.Exact) (h : m.Coherent) (hj : Justified (Owed m.blockSize) m.trace) :
    Justified (Owed m.blockSize) m'.trace := by
  induction hmoves with
  | refl => exact hj
  | tail hmoves hmove ih =>
    rw [← Moves.blockSize hmoves] at ih ⊢
    exact hmove.justified (Moves.coherent hmoves hpos hx h) ih

/-- Every event of a run is justified. -/
theorem Reachable.justified (hbs : 1 ≤ bs) (hn : n ≤ 2 ^ 32)
    (h : Reachable True n bs flag m) : Justified (Owed bs) m.trace :=
  (h.settled hbs hn).1.justified hbs (settled_new hbs hn flag).exact
    (coherent_new n bs flag) trivial

/-! ## Collisions -/

/-- **The digests tell the prompts of the run apart**: two full chunks with
the same tokens and the same chained digest have the same prefix. A lookup
compares the tokens of one chunk, so for what lies before it the digest is all
there is. -/
def CollisionFree (bs : ℕ) (trace : List BlockEvent) : Prop :=
  ∀ s p t q, .opened s p ∈ trace → .opened t q ∈ trace → ∀ i j,
    SameDigest bs p j q i → p.take ((j + 1) * bs) = q.take ((i + 1) * bs)

/-- **A prefix hit agrees with its publication as long as no digests
collide**: in every run whose prompts the chained digests tell apart, the
prompt under whose commit an adopted block was last published agrees with the
adopting prompt up to and including that block. Keys and values depend on all
the tokens before theirs; so these are the ones the adopting sequence needs. -/
theorem adopted_agrees (hbs : 1 ≤ bs) (hn : n ≤ 2 ^ 32)
    (h : Reachable True n bs flag m) (hfree : CollisionFree bs m.trace)
    {later earlier : List BlockEvent} {t : SequenceId} {q : List TokenId} {i : ℕ}
    {b : BlockId} (htr : m.trace = later ++ .adopted t q i b :: earlier) :
    (∃ mid s p j older, earlier = mid ++ .published s p j b :: older
      ∧ ∀ x ∈ mid, NoPublicationOf b x)
    ∧ ∀ mid s p j older, earlier = mid ++ .published s p j b :: older →
        (∀ x ∈ mid, NoPublicationOf b x) →
        p.take ((i + 1) * bs) = q.take ((i + 1) * bs) := by
  have howed := (Justified.iff_forall.mp (h.justified hbs hn)) later _ earlier htr
  obtain ⟨hopened, hsince⟩ := howed
  have hexcl : ∀ x, NoPublicationOf b x →
      ¬ PublicationOf b (fun p j => SameDigest bs p j q i) x := by
    intro x hx hp
    cases x with
    | published s p j b' => exact hx hp.1
    | opened | adopted | handedOut | appended | released => exact hp
  refine ⟨?_, fun mid s p j older hearlier hmid => ?_⟩
  · obtain ⟨mid, x, older, hearlier, hx, hmid⟩ := Since.iff_exists.mp hsince
    cases x with
    | published s p j b' =>
      obtain ⟨rfl, -⟩ := hx
      exact ⟨mid, s, p, j, older, hearlier, hmid⟩
    | opened | adopted | handedOut | appended | released => exact hx.elim
  · rw [hearlier] at hsince
    obtain ⟨-, hsame⟩ := hsince.of_last (fun x hx => hexcl x (hmid x hx)) (fun hk => hk rfl)
    -- the publication belongs to a prompt of the run, so the digests decide
    have hpub := (Justified.iff_forall.mp (h.justified hbs hn))
      (later ++ .adopted t q i b :: mid) (.published s p j b) older
      (by rw [htr, hearlier]; simp)
    have hp : BlockEvent.opened s p ∈ m.trace := by
      rw [htr, hearlier]
      exact List.mem_append_right _ (List.mem_cons_of_mem _
        (List.mem_append_right _ (List.mem_cons_of_mem _ hpub)))
    have hq : BlockEvent.opened t q ∈ m.trace := by
      rw [htr]
      exact List.mem_append_right _ (List.mem_cons_of_mem _ hopened)
    have htake := hfree s p t q hp hq i j hsame
    have hlen := congrArg List.length htake
    rw [List.length_take, List.length_take, min_eq_left hsame.1,
      min_eq_left hsame.2.1] at hlen
    rw [← htake, hlen]

/-- Two prompts that share their first block. -/
theorem adopted_agrees_shared_prefix :
    let m := CacheOp.runAll (new 4 2 true) [.allocate ⟨1⟩ [7, 8, 9],
      .commitPrefill ⟨1⟩ [7, 8, 9], .allocate ⟨2⟩ [7, 8, 5]]
    ∃ mid s p j older, m.trace = [.handedOut ⟨2⟩ ⟨2⟩] ++ .adopted ⟨2⟩ [7, 8, 5] 0 ⟨0⟩ ::
        (mid ++ .published s p j ⟨0⟩ :: older)
      ∧ p.take 2 = [7, 8] := by
  intro m
  have hm : Reachable True 4 2 true m :=
    Reachable.start.runAll _ (fun _ => by decide +kernel)
  have htr : m.trace = [.handedOut ⟨2⟩ ⟨2⟩] ++ .adopted ⟨2⟩ [7, 8, 5] 0 ⟨0⟩ ::
      ([.opened ⟨2⟩ [7, 8, 5]] ++ .published ⟨1⟩ [7, 8, 9] 0 ⟨0⟩ ::
        [.handedOut ⟨1⟩ ⟨1⟩, .handedOut ⟨1⟩ ⟨0⟩, .opened ⟨1⟩ [7, 8, 9]]) := by
    decide +kernel
  have hfree : CollisionFree 2 m.trace := by
    intro s p t q hp hq i j hsame
    have hprompt : ∀ {s p}, BlockEvent.opened s p ∈ m.trace →
        p.length = 3 ∧ p.take 2 = [7, 8] := by
      intro s p hp
      rw [htr] at hp
      simp only [List.mem_append, List.mem_cons, List.not_mem_nil, reduceCtorEq,
        BlockEvent.opened.injEq, or_false, false_or] at hp
      rcases hp with ⟨-, rfl⟩ | ⟨-, rfl⟩ <;> exact ⟨rfl, rfl⟩
    obtain ⟨hlp, htp⟩ := hprompt hp
    obtain ⟨hlq, htq⟩ := hprompt hq
    have hj : j = 0 := by
      have := hsame.1
      omega
    have hi : i = 0 := by
      have := hsame.2.1
      omega
    subst hi hj
    exact htp.trans htq.symm
  have hagree := (adopted_agrees (by decide) (by decide) hm hfree htr).2 _ _ _ _ _ rfl
    (by simp [NoPublicationOf])
  exact ⟨_, _, _, _, _, htr, hagree⟩

/-! ## A collision -/

/-- A block of four tokens. -/
def firstBlock : List TokenId := [13882, 2682, 1312216174, 0]

/-- Another one, with the same digest. -/
def collidingBlock : List TokenId := [30818, 12877, 0, 0]

example : hashBlock none firstBlock = hashBlock none collidingBlock := by decide +kernel

/-- The prompt whose second block is found under the wrong prefix. -/
def publishedPrompt : List TokenId := firstBlock ++ [1, 2, 3, 4]

/-- The prompt that finds it. -/
def adoptingPrompt : List TokenId := collidingBlock ++ [1, 2, 3, 4]

/-- The first prompt is published and freed, the entry of its first block is
evicted, the colliding block takes that digest, and a third prompt finds the
second block of the first. -/
def collidingRun : List CacheOp :=
  [.allocate ⟨1⟩ publishedPrompt, .commitPrefill ⟨1⟩ publishedPrompt, .free ⟨1⟩,
    .evictCached 1, .allocate ⟨2⟩ collidingBlock, .commitPrefill ⟨2⟩ collidingBlock,
    .allocate ⟨3⟩ adoptingPrompt]

/-- **A prefix hit can hand out a block computed under another prefix.** -/
theorem adopted_block_of_other_prefix :
    ∃ m, Reachable True 4 4 true m
      ∧ ∃ t q i b mid s p j older,
        m.trace = .adopted t q i b :: (mid ++ .published s p j b :: older)
        ∧ (∀ x ∈ mid, NoPublicationOf b x)
        ∧ p.take ((i + 1) * 4) ≠ q.take ((i + 1) * 4) := by
  refine ⟨CacheOp.runAll (new 4 4 true) collidingRun,
    Reachable.start.runAll _ (fun _ => by decide +kernel),
    ⟨3⟩, adoptingPrompt, 1, ⟨1⟩,
    [.adopted ⟨3⟩ adoptingPrompt 0 ⟨2⟩, .opened ⟨3⟩ adoptingPrompt,
      .published ⟨2⟩ collidingBlock 0 ⟨2⟩, .handedOut ⟨2⟩ ⟨2⟩,
      .opened ⟨2⟩ collidingBlock, .released ⟨1⟩],
    ⟨1⟩, publishedPrompt, 1,
    [.published ⟨1⟩ publishedPrompt 0 ⟨0⟩, .handedOut ⟨1⟩ ⟨1⟩, .handedOut ⟨1⟩ ⟨0⟩,
      .opened ⟨1⟩ publishedPrompt],
    by decide +kernel, ?_, by decide⟩
  simp [NoPublicationOf]

end KvCacheManager
