import OrionServe.CacheRun

/-!
# The prefix index is never stale

An index entry says that a block holds the KV of a certain chunk of a
certain prefix. The index owns no reference, so whether the entry is still
true depends on every path that changes a block.

The invariant that carries it is `Coherent`. Each place of each table has a
**key**: the chained hash of the prompt's chunk there, if the prompt has a
full chunk there. A block that occurs at two places has one key at both, and
a block the index names has, wherever it occurs, the key it is indexed
under. A place past the full chunks of the prompt has no key, so the block
there occurs nowhere else and is in no index entry – which is why
`append_token` may write to it.
-/

namespace KvCacheManager

variable {own : Prop} {n bs : ℕ} {flag : Bool} {m m' : KvCacheManager}
variable {seq : SequenceId} {blk : BlockId}

/-- Block `blk` is at place `i` of the table of `seq`. -/
def Occurs (m : KvCacheManager) (seq : SequenceId) (i : ℕ) (blk : BlockId) : Prop :=
  ∃ t, m.tables.lookup seq = some t ∧ t.blocks[i]? = some blk

/-- The chained hash of the full chunk at place `i` of a sequence's prompt. -/
def key (m : KvCacheManager) (seq : SequenceId) (i : ℕ) : Option BlockHash :=
  (m.promptOf seq).bind fun prompt =>
    if (i + 1) * m.blockSize ≤ prompt.length then some (chainHash m.blockSize prompt i)
    else none

/-- The event that made an index entry. -/
def Publishes (bs : ℕ) (h : BlockHash) (e : CacheEntry) : BlockEvent → Prop
  | .published _ prompt i blk => blk = e.block ∧ chainHash bs prompt i = h
      ∧ (prompt.drop (i * bs)).take bs = e.tokens ∧ (i + 1) * bs ≤ prompt.length
  | _ => False

/-- An event that leaves the contents of a block alone: it neither hands the
block out, nor records a token in it, nor publishes it again. -/
def Spares (blk : BlockId) : BlockEvent → Prop
  | .handedOut _ b => b ≠ blk
  | .appended _ b => b ≠ blk
  | .published _ _ _ b => b ≠ blk
  | _ => True

/-- **The index is coherent with the pool and the tables.** -/
structure Coherent (m : KvCacheManager) : Prop where
  /-- An indexed block carries the hash it is indexed under, and is full. -/
  recorded : ∀ {h e}, m.prefixCache.entries.lookup h = some e →
    m.pool.hashOf e.block = some h ∧ m.pool.tokensOf e.block = m.blockSize
      ∧ e.tokens.length = m.blockSize
  /-- A block at two places has one key. -/
  shared : ∀ {s i s' j b}, m.Occurs s i b → m.Occurs s' j b → (s, i) ≠ (s', j) →
    ∃ h, m.key s i = some h ∧ m.key s' j = some h
  /-- An indexed block has its key wherever it occurs. -/
  named : ∀ {h e s i}, m.prefixCache.entries.lookup h = some e →
    m.Occurs s i e.block → m.key s i = some h
  /-- Nothing has touched an indexed block since it was published. -/
  since : ∀ {h e}, m.prefixCache.entries.lookup h = some e →
    Since (Publishes m.blockSize h e) (Spares e.block) m.trace

/-! ## Places -/

theorem occurs_congr (ht : m'.tables = m.tables) {s : SequenceId} {i : ℕ} {b : BlockId} :
    m'.Occurs s i b ↔ m.Occurs s i b := by
  unfold Occurs
  rw [ht]

/-- A table written anew changes the places of its sequence only. -/
theorem occurs_insert {t : BlockTable} (ht : m'.tables = m.tables.insert seq t)
    {s : SequenceId} {i : ℕ} {b : BlockId} (h : m'.Occurs s i b) :
    (s = seq ∧ t.blocks[i]? = some b) ∨ (s ≠ seq ∧ m.Occurs s i b) := by
  obtain ⟨u, hu, hb⟩ := h
  rw [ht] at hu
  by_cases hs : s = seq
  · subst hs
    rw [AList.lookup_insert] at hu
    obtain rfl := Option.some.inj hu
    exact Or.inl ⟨rfl, hb⟩
  · rw [AList.lookup_insert_ne hs] at hu
    exact Or.inr ⟨hs, u, hu, hb⟩

/-- One block pushed: the places are the old ones and the last. -/
theorem occurs_push {t : BlockTable} (htab : m.tables.lookup seq = some t)
    (ht : m'.tables = m.tables.insert seq (t.push blk)) {s : SequenceId} {i : ℕ}
    {b : BlockId} (h : m'.Occurs s i b) :
    m.Occurs s i b ∨ (s = seq ∧ i = t.numBlocks ∧ b = blk) := by
  rcases occurs_insert ht h with ⟨rfl, hb⟩ | ⟨-, hb⟩
  · rw [BlockTable.push_blocks, List.getElem?_append] at hb
    split at hb
    · exact Or.inl ⟨t, htab, hb⟩
    · next hlt =>
      obtain ⟨hi, hb⟩ := List.getElem?_eq_some_iff.mp hb
      rw [List.length_singleton] at hi
      have hzero : i - t.blocks.length = 0 := by omega
      refine Or.inr ⟨rfl, ?_, ?_⟩
      · show i = t.blocks.length
        omega
      · rw [← hb]
        simp [hzero]
  · exact Or.inl hb

/-- A held block occurs somewhere, and only a held one does. -/
theorem Occurs.mem_held {s : SequenceId} {i : ℕ} {b : BlockId} (h : m.Occurs s i b) :
    b ∈ m.held := by
  obtain ⟨t, ht, hb⟩ := h
  exact AList.mem_flat.mpr ⟨s, t, ht, List.mem_of_getElem? hb⟩

theorem key_congr (hp : m'.promptOf seq = m.promptOf seq)
    (hbs : m'.blockSize = m.blockSize) (i : ℕ) : m'.key seq i = m.key seq i := by
  unfold key
  rw [hp, hbs]

/-- The key of a full chunk. -/
theorem key_of_full {prompt : List TokenId} {i : ℕ}
    (hp : m.promptOf seq = some prompt) (hfull : (i + 1) * m.blockSize ≤ prompt.length) :
    m.key seq i = some (chainHash m.blockSize prompt i) := by
  unfold key
  rw [hp, Option.bind_some, if_pos hfull]

/-- Past the prompt there is no key. -/
theorem key_of_past {i : ℕ} (hpast : ∀ prompt, m.promptOf seq = some prompt →
      prompt.length < (i + 1) * m.blockSize) : m.key seq i = none := by
  unfold key
  rcases hp : m.promptOf seq with - | prompt
  · rfl
  · rw [Option.bind_some, if_neg (not_le.mpr (hpast prompt hp))]

/-! ## The moves keep it -/

namespace Coherent

/-- A change that adds no place and no entry and spares the blocks
indexed. -/
theorem of_sub (h : m.Coherent) (hbs : m'.blockSize = m.blockSize)
    (new : List BlockEvent) (htr : m'.trace = new ++ m.trace)
    (hplace : ∀ {s i b}, m'.Occurs s i b → m.Occurs s i b ∧ m'.key s i = m.key s i)
    (hentry : ∀ {g e}, m'.prefixCache.entries.lookup g = some e →
      m.prefixCache.entries.lookup g = some e
        ∧ m'.pool.hashOf e.block = m.pool.hashOf e.block
        ∧ m'.pool.tokensOf e.block = m.pool.tokensOf e.block
        ∧ ∀ x ∈ new, Spares e.block x) : m'.Coherent where
  recorded he := by
    obtain ⟨he', hh, ht, -⟩ := hentry he
    rw [hh, ht, hbs]
    exact h.recorded he'
  shared h₁ h₂ hne := by
    obtain ⟨h₁, hk₁⟩ := hplace h₁
    obtain ⟨h₂, hk₂⟩ := hplace h₂
    rw [hk₁, hk₂]
    exact h.shared h₁ h₂ hne
  named he ho := by
    obtain ⟨ho, hk⟩ := hplace ho
    rw [hk]
    exact h.named (hentry he).1 ho
  since he := by
    obtain ⟨he', -, -, hspare⟩ := hentry he
    rw [htr, hbs]
    exact (h.since he').append hspare

/-- One block pushed at the end of a table: the new place must agree with the
old places of the block and with its index entries. -/
theorem push (h : m.Coherent) (hmove : Move own m m') {t : BlockTable}
    (htab : m.tables.lookup seq = some t)
    (ht : m'.tables = m.tables.insert seq (t.push blk)) {x : BlockEvent}
    (htr : m'.trace = x :: m.trace) (hx : ∀ q p, x ≠ .opened q p)
    (hplace : ∀ {s i}, m.Occurs s i blk →
      ∃ g, m.key s i = some g ∧ m.key seq t.numBlocks = some g)
    (hname : ∀ {g e}, m'.prefixCache.entries.lookup g = some e → e.block = blk →
      m.key seq t.numBlocks = some g)
    (hentry : ∀ {g e}, m'.prefixCache.entries.lookup g = some e →
      m.prefixCache.entries.lookup g = some e
        ∧ m'.pool.hashOf e.block = m.pool.hashOf e.block
        ∧ m'.pool.tokensOf e.block = m.pool.tokensOf e.block
        ∧ Spares e.block x) : m'.Coherent := by
  have hbs : m'.blockSize = m.blockSize := hmove.poolSize.1
  have hkey : ∀ s i, m'.key s i = m.key s i := fun s i =>
    key_congr (by rw [promptOf_cons htr hx]) hbs i
  refine ⟨fun he => ?_, fun {s i s' j b} h₁ h₂ hne => ?_, fun {g e s i} he ho => ?_,
    fun he => ?_⟩
  · obtain ⟨he', hh, htok, -⟩ := hentry he
    rw [hh, htok, hbs]
    exact h.recorded he'
  · rw [hkey, hkey]
    -- two old places, one old and the new one, or the new one twice
    rcases occurs_push htab ht h₁ with h₁ | ⟨rfl, rfl, rfl⟩
    · rcases occurs_push htab ht h₂ with h₂ | ⟨rfl, rfl, rfl⟩
      · exact h.shared h₁ h₂ hne
      · exact hplace h₁
    · rcases occurs_push htab ht h₂ with h₂ | ⟨rfl, rfl, -⟩
      · obtain ⟨g, hg₁, hg₂⟩ := hplace h₂
        exact ⟨g, hg₂, hg₁⟩
      · exact absurd rfl hne
  · rw [hkey]
    rcases occurs_push htab ht ho with ho | ⟨rfl, rfl, hb⟩
    · exact h.named (hentry he).1 ho
    · exact hname he hb
  · obtain ⟨he', -, -, hspare⟩ := hentry he
    rw [htr, hbs]
    exact (h.since he').step hspare

/-- **Adopting a block**: its entry and all its places have the key of the
new place. -/
theorem adopted (h : m.Coherent) (hmove : Move own m m') {t : BlockTable}
    {prompt : List TokenId} (table : m.tables.lookup seq = some t)
    (source : m.promptOf seq = some prompt)
    (full : (t.numBlocks + 1) * m.blockSize ≤ prompt.length)
    (entry : m.prefixCache.entries.lookup (chainHash m.blockSize prompt t.numBlocks)
      = some ⟨blk, (prompt.drop (t.numBlocks * m.blockSize)).take m.blockSize⟩)
    (pool : m.pool.Shares m'.pool blk)
    (index : m'.prefixCache.entries = m.prefixCache.entries)
    (tables : m'.tables = m.tables.insert seq (t.push blk))
    (trace : m'.trace = .adopted seq prompt t.numBlocks blk :: m.trace) :
    m'.Coherent := by
  have hkey := key_of_full source full
  refine h.push hmove table tables trace (by simp) (fun ho => ?_) (fun {g e} he hb => ?_)
    (fun he => ?_)
  · exact ⟨_, h.named entry ho, hkey⟩
  · rw [index] at he
    have hg := (h.recorded he).1
    rw [hb, (h.recorded entry).1] at hg
    rw [hkey]
    exact hg
  · rw [index] at he
    exact ⟨he, pool.hashOf _, pool.tokensOf _, trivial⟩

/-- **Handing a block out**: it occurred nowhere, and its entry, the one
under the hash it carried, is dropped. -/
theorem handedOut (h : m.Coherent) (hx : m.Exact) (hmove : Move own m m')
    {t : BlockTable} (table : m.tables.lookup seq = some t)
    (pool : m.pool.Refills m'.pool blk)
    (index : m'.prefixCache.entries
      = (m.prefixCache.removeEvicted (m.pool.hashOf blk) blk).entries)
    (tables : m'.tables = m.tables.insert seq (t.push blk))
    (trace : m'.trace = .handedOut seq blk :: m.trace) : m'.Coherent := by
  have hfree : blk ∈ m.pool.freeList := by
    rw [pool.freeList]
    exact List.mem_cons_self
  have hnot : blk ∉ m.held := ((RefBalanced.mem_free hx blk).mp hfree).2
  have hentry : ∀ {g e}, m'.prefixCache.entries.lookup g = some e →
      m.prefixCache.entries.lookup g = some e ∧ e.block ≠ blk := by
    intro g e he
    rw [index] at he
    rcases hh : m.pool.hashOf blk with - | h₀
    · rw [hh] at he
      refine ⟨he, fun hb => ?_⟩
      have hrec := (h.recorded he).1
      rw [hb, hh] at hrec
      exact absurd hrec (by simp)
    · rw [hh] at he
      obtain ⟨he', hne⟩ := PrefixCache.lookup_of_remove_lookup he
      refine ⟨he', fun hb => hne ⟨?_, hb⟩⟩
      have hrec := (h.recorded he').1
      rw [hb, hh] at hrec
      exact (Option.some.inj hrec).symm
  refine h.push hmove table tables trace (by simp) (fun ho => absurd ho.mem_held hnot)
    (fun he hb => absurd hb (hentry he).2) (fun he => ?_)
  obtain ⟨he', hb⟩ := hentry he
  exact ⟨he', (pool.hashOf _).trans (if_neg hb), pool.tokensOf _ hb, Ne.symm hb⟩

/-- **Recording a token**: the last block is past the prompt, so the index
does not name it. -/
theorem appended (h : m.Coherent) (hmove : Move own m m') {t : BlockTable} {k : ℕ}
    (table : m.tables.lookup seq = some t)
    (last : t.blocks.getLast? = some blk)
    (past : ∀ prompt, m.promptOf seq = some prompt →
      prompt.length < t.numBlocks * m.blockSize)
    (pool : m.pool.Records m'.pool blk k none)
    (index : m'.prefixCache.entries = m.prefixCache.entries)
    (tables : m'.tables = m.tables)
    (trace : m'.trace = .appended seq blk :: m.trace) : m'.Coherent := by
  have hbs : m'.blockSize = m.blockSize := hmove.poolSize.1
  have hpos : t.numBlocks - 1 + 1 = t.numBlocks := by
    have hne := List.length_pos_of_mem (List.mem_of_getLast? last)
    show t.blocks.length - 1 + 1 = t.blocks.length
    omega
  have hplace : m.Occurs seq (t.numBlocks - 1) blk :=
    ⟨t, table, by rw [List.getLast?_eq_getElem?] at last; exact last⟩
  have hkey : m.key seq (t.numBlocks - 1) = none :=
    key_of_past (fun prompt hp => by rw [hpos]; exact past prompt hp)
  have hname : ∀ {g e}, m.prefixCache.entries.lookup g = some e → e.block ≠ blk := by
    rintro g e he rfl
    have hk := h.named he hplace
    rw [hkey] at hk
    exact absurd hk (by simp)
  refine h.of_sub hbs [_] trace (fun ho => ⟨(occurs_congr tables).mp ho, ?_⟩)
    (fun he => ?_)
  · exact key_congr (by rw [promptOf_cons trace (by simp)]) hbs _
  · rw [index] at he
    have hb := hname he
    refine ⟨he, (pool.hashOf _).trans (if_neg hb), (pool.tokensOf _).trans (if_neg hb),
      fun x hx => ?_⟩
    rw [List.mem_singleton.mp hx]
    exact Ne.symm hb

/-- **Recording a computed block**: whatever entry names it already has this
very hash. -/
theorem hashed (h : m.Coherent) (hmove : Move own m m') {t : BlockTable} {i : ℕ}
    {prompt : List TokenId} (source : m.promptOf seq = some prompt)
    (table : m.tables.lookup seq = some t) (block : t.blocks[i]? = some blk)
    (full : (i + 1) * m.blockSize ≤ prompt.length)
    (pool : m.pool.Records m'.pool blk m.blockSize
      (some (chainHash m.blockSize prompt i)))
    (index : m'.prefixCache.entries = m.prefixCache.entries)
    (tables : m'.tables = m.tables) (trace : m'.trace = m.trace) : m'.Coherent := by
  have hbs : m'.blockSize = m.blockSize := hmove.poolSize.1
  refine h.of_sub hbs [] trace (fun ho => ⟨(occurs_congr tables).mp ho, ?_⟩)
    (fun {g e} he => ?_)
  · exact key_congr (by rw [promptOf_of_trace_eq trace]) hbs _
  · rw [index] at he
    refine ⟨he, ?_, ?_, by simp⟩
    · rw [pool.hashOf]
      split
      · next hb =>
        have hk := h.named he (hb ▸ ⟨t, table, block⟩ : m.Occurs seq i e.block)
        rw [key_of_full source full] at hk
        rw [hk]
        exact (h.recorded he).1.symm
      · rfl
    · rw [pool.tokensOf]
      split
      · exact (h.recorded he).2.1.symm
      · rfl

/-- **Publishing a block**: no entry named it before, for such an entry would
be under this very hash. -/
theorem published (h : m.Coherent) (hmove : Move own m m') {t : BlockTable} {i : ℕ}
    {prompt : List TokenId} (hpos : 0 < m.blockSize)
    (source : m.promptOf seq = some prompt)
    (table : m.tables.lookup seq = some t) (block : t.blocks[i]? = some blk)
    (full : (i + 1) * m.blockSize ≤ prompt.length)
    (hash : m.pool.hashOf blk = some (chainHash m.blockSize prompt i))
    (tokens : m.pool.tokensOf blk = m.blockSize)
    (absent : m.prefixCache.entries.lookup (chainHash m.blockSize prompt i) = none)
    (pool : m'.pool = m.pool)
    (index : m'.prefixCache.entries = m.prefixCache.entries.insert
      (chainHash m.blockSize prompt i)
      ⟨blk, (prompt.drop (i * m.blockSize)).take m.blockSize⟩)
    (tables : m'.tables = m.tables)
    (trace : m'.trace = .published seq prompt i blk :: m.trace) : m'.Coherent := by
  have hbs : m'.blockSize = m.blockSize := hmove.poolSize.1
  have hplace : m.Occurs seq i blk := ⟨t, table, block⟩
  have hkey := key_of_full source full
  have hkeys : ∀ s j, m'.key s j = m.key s j := fun s j =>
    key_congr (by rw [promptOf_cons trace (by simp)]) hbs j
  have hnew : ∀ {g e}, m.prefixCache.entries.lookup g = some e → e.block ≠ blk := by
    rintro g e he rfl
    have hk := h.named he hplace
    rw [hkey] at hk
    rw [← Option.some.inj hk, absent] at he
    exact absurd he (by simp)
  have hentry : ∀ {g e}, m'.prefixCache.entries.lookup g = some e →
      (g = chainHash m.blockSize prompt i
        ∧ e = ⟨blk, (prompt.drop (i * m.blockSize)).take m.blockSize⟩)
      ∨ m.prefixCache.entries.lookup g = some e := by
    intro g e he
    rw [index] at he
    by_cases hg : g = chainHash m.blockSize prompt i
    · rw [hg, AList.lookup_insert] at he
      exact Or.inl ⟨hg, (Option.some.inj he).symm⟩
    · rw [AList.lookup_insert_ne hg] at he
      exact Or.inr he
  refine ⟨fun {g e} he => ?_, fun {s j s' k b} h₁ h₂ hne => ?_, fun {g e s j} he ho => ?_,
    fun {g e} he => ?_⟩
  · rw [pool, hbs]
    rcases hentry he with ⟨rfl, rfl⟩ | he
    · exact ⟨hash, tokens, (List.length_take_drop_eq_iff hpos prompt i).mpr full⟩
    · exact h.recorded he
  · rw [hkeys, hkeys]
    exact h.shared ((occurs_congr tables).mp h₁) ((occurs_congr tables).mp h₂) hne
  · rw [hkeys]
    have ho := (occurs_congr tables).mp ho
    rcases hentry he with ⟨rfl, rfl⟩ | he
    · by_cases hsame : (s, j) = (seq, i)
      · obtain ⟨rfl, rfl⟩ := Prod.mk.injEq .. ▸ hsame
        exact hkey
      · obtain ⟨g, hg₁, hg₂⟩ := h.shared ho hplace hsame
        rw [hkey] at hg₂
        rw [hg₁, ← hg₂]
    · exact h.named he ho
  · rw [trace, hbs]
    rcases hentry he with ⟨rfl, rfl⟩ | he
    · exact Since.now ⟨rfl, rfl, rfl, full⟩
    · exact (h.since he).step (Ne.symm (hnew he))

/-- **Forgetting a free block** drops the one entry that names it. -/
theorem forgot (h : m.Coherent) (hmove : Move own m m') {g : BlockHash}
    (hash : m.pool.hashOf blk = some g)
    (pool : m.pool.Records m'.pool blk 0 none)
    (index : m'.prefixCache.entries = (m.prefixCache.remove g blk).entries)
    (tables : m'.tables = m.tables) (trace : m'.trace = m.trace) : m'.Coherent := by
  have hbs : m'.blockSize = m.blockSize := hmove.poolSize.1
  refine h.of_sub hbs [] trace (fun ho => ⟨(occurs_congr tables).mp ho, ?_⟩)
    (fun {g' e} he => ?_)
  · exact key_congr (by rw [promptOf_of_trace_eq trace]) hbs _
  · rw [index] at he
    obtain ⟨he', hne⟩ := PrefixCache.lookup_of_remove_lookup he
    have hb : e.block ≠ blk := by
      rintro rfl
      have hrec := (h.recorded he').1
      rw [hash] at hrec
      exact hne ⟨(Option.some.inj hrec).symm, rfl⟩
    exact ⟨he', (pool.hashOf _).trans (if_neg hb), (pool.tokensOf _).trans (if_neg hb),
      by simp⟩

/-- **A move of the tables alone**: an opened table is empty, a sized one
keeps its blocks, a released one is gone with its blocks' contents kept. -/
theorem tables_only (h : m.Coherent) (hmove : Move own m m') (new : List BlockEvent)
    (htr : m'.trace = new ++ m.trace) (hnew : ∀ x ∈ new, ∀ b, Spares b x)
    (hplace : ∀ {s i b}, m'.Occurs s i b →
      m.Occurs s i b ∧ m'.promptOf s = m.promptOf s)
    (index : m'.prefixCache.entries = m.prefixCache.entries)
    (hhash : ∀ b, m'.pool.hashOf b = m.pool.hashOf b)
    (htok : ∀ b, m'.pool.tokensOf b = m.pool.tokensOf b) : m'.Coherent := by
  have hbs : m'.blockSize = m.blockSize := hmove.poolSize.1
  refine h.of_sub hbs new htr (fun ho => ?_) (fun he => ?_)
  · obtain ⟨ho, hp⟩ := hplace ho
    exact ⟨ho, key_congr hp hbs _⟩
  · rw [index] at he
    exact ⟨he, hhash _, htok _, fun x hx => hnew x hx _⟩

end Coherent

/-- **Step lemma**: every move keeps the index coherent, as long as a commit
is for the prompt of its table. -/
theorem Move.coherent (hmove : Move True m m') (hpos : 0 < m.blockSize)
    (hx : m.Exact) (h : m.Coherent) : m'.Coherent := by
  have hbs : m'.blockSize = m.blockSize := hmove.poolSize.1
  have hm := hmove
  cases hmove with
  | @opened seq prompt absent pool index tables trace =>
    refine h.tables_only hm [_] trace (by simp [Spares]) (fun {s i b} ho => ?_) index
      (by rw [pool]; exact fun _ => rfl) (by rw [pool]; exact fun _ => rfl)
    rcases occurs_insert tables ho with ⟨-, hb⟩ | ⟨hs, ho⟩
    · exact absurd hb (by simp [BlockTable.new])
    · exact ⟨ho, (promptOf_opened trace s).trans (if_neg hs)⟩
  | adopted table source full entry pool index tables trace =>
    exact h.adopted hm table source full entry pool index tables trace
  | handedOut table pool index tables trace =>
    exact h.handedOut hx hm table pool index tables trace
  | @sized seq t n table pool index tables trace =>
    refine h.tables_only hm [] trace (by simp) (fun {s i b} ho => ?_) index
      (by rw [pool]; exact fun _ => rfl) (by rw [pool]; exact fun _ => rfl)
    refine ⟨?_, by rw [promptOf_of_trace_eq trace]⟩
    rcases occurs_insert tables ho with ⟨rfl, hb⟩ | ⟨-, ho⟩
    · exact ⟨t, table, hb⟩
    · exact ho
  | appended table last past pool index tables trace =>
    exact h.appended hm table last past pool index tables trace
  | hashed source table block full pool index tables trace =>
    exact h.hashed hm (source trivial) table block full pool index tables trace
  | published source table block full hash tokens absent pool index tables trace =>
    exact h.published hm hpos (source trivial) table block full hash tokens absent pool index
      tables trace
  | @released seq t table pool index tables trace =>
    obtain ⟨-, -, hhash, htok⟩ := BlockPool.releaseAll_contents t.blocks m.pool
    refine h.tables_only hm [_] trace (by simp [Spares]) (fun {s i b} ho => ?_) index
      (by rw [pool]; exact hhash) (by rw [pool]; exact htok)
    refine ⟨?_, by rw [promptOf_cons trace (by simp)]⟩
    obtain ⟨u, hu, hb⟩ := ho
    rw [tables] at hu
    by_cases hs : s = seq
    · subst hs
      rw [AList.lookup_erase] at hu
      exact absurd hu (by simp)
    · rw [AList.lookup_erase_ne hs] at hu
      exact ⟨u, hu, hb⟩
  | forgot free hash pool index tables trace =>
    exact h.forgot hm hash pool index tables trace
  | cleared pool index tables trace =>
    refine h.of_sub hbs [] trace (fun ho => ⟨(occurs_congr tables).mp ho, ?_⟩)
      (fun he => absurd he (by rw [index]; simp))
    exact key_congr (by rw [promptOf_of_trace_eq trace]) hbs _
  | idle pool index tables trace =>
    exact h.tables_only hm [] trace (by simp)
      (fun ho => ⟨(occurs_congr tables).mp ho, by rw [promptOf_of_trace_eq trace]⟩)
      index (by rw [pool]; exact fun _ => rfl) (by rw [pool]; exact fun _ => rfl)

/-- **Run lemma.** -/
theorem Moves.coherent (hmoves : Moves True m m') (hpos : 0 < m.blockSize)
    (hx : m.Exact) (h : m.Coherent) : m'.Coherent := by
  induction hmoves with
  | refl => exact h
  | tail hmoves hmove ih =>
    exact hmove.coherent (by rw [Moves.blockSize hmoves]; exact hpos)
      (Moves.exact hmoves hx) ih

/-- An empty index is coherent. -/
theorem coherent_new (n bs : ℕ) (flag : Bool) : (new n bs flag).Coherent where
  recorded he := absurd he (by simp [new, PrefixCache.new])
  shared h₁ := by
    obtain ⟨t, ht, -⟩ := h₁
    exact absurd ht (by simp [new])
  named he := absurd he (by simp [new, PrefixCache.new])
  since he := absurd he (by simp [new, PrefixCache.new])

/-- Every reachable manager has a coherent index. -/
theorem Reachable.coherent (hbs : 1 ≤ bs) (hn : n ≤ 2 ^ 32)
    (h : Reachable True n bs flag m) : m.Coherent :=
  (h.settled hbs hn).1.coherent hbs (settled_new hbs hn flag).exact
    (coherent_new n bs flag)

/-- Where an entry was published. -/
theorem Coherent.origin (h : m.Coherent) {hash : BlockHash} {e : CacheEntry}
    (he : m.prefixCache.entries.lookup hash = some e) : ∃ later seq prompt i earlier,
      m.trace = later ++ .published seq prompt i e.block :: earlier
      ∧ chainHash m.blockSize prompt i = hash
      ∧ (prompt.drop (i * m.blockSize)).take m.blockSize = e.tokens
      ∧ ∀ x ∈ later, ∀ s, x ≠ .handedOut s e.block ∧ x ≠ .appended s e.block := by
  obtain ⟨later, x, earlier, htr, hx, hlater⟩ := Since.iff_exists.mp (h.since he)
  cases x with
  | published seq prompt i blk =>
    obtain ⟨rfl, hchain, htokens, -⟩ := hx
    refine ⟨later, seq, prompt, i, earlier, htr, hchain, htokens, fun x hx s => ⟨?_, ?_⟩⟩
    · rintro rfl
      exact hlater _ hx rfl
    · rintro rfl
      exact hlater _ hx rfl
  | opened | adopted | handedOut | appended | released => exact hx.elim

/-- **The prefix index is never stale**: in every state of every run in which
a commit is for the prompt of its table, an entry names a block that carries
this very hash and is full, and since the event that published the block
under that hash it has neither been handed out nor had a token recorded. -/
theorem index_never_stale (hbs : 1 ≤ bs) (hn : n ≤ 2 ^ 32)
    (h : Reachable True n bs flag m) {hash : BlockHash} {e : CacheEntry}
    (he : m.prefixCache.entries.lookup hash = some e) :
    m.pool.hashOf e.block = some hash
    ∧ m.pool.tokensOf e.block = bs ∧ e.tokens.length = bs
    ∧ ∃ later seq prompt i earlier,
        m.trace = later ++ .published seq prompt i e.block :: earlier
        ∧ chainHash bs prompt i = hash
        ∧ (prompt.drop (i * bs)).take bs = e.tokens
        ∧ ∀ x ∈ later, ∀ s, x ≠ .handedOut s e.block ∧ x ≠ .appended s e.block := by
  have hc := h.coherent hbs hn
  have hsize := h.blockSize hbs hn
  obtain ⟨hhash, htok, hlen⟩ := hc.recorded he
  rw [hsize] at htok hlen
  have horigin := hc.origin he
  rw [hsize] at horigin
  exact ⟨hhash, htok, hlen, horigin⟩

/-- The entry of the first block of a committed prompt. -/
theorem index_never_stale_committed :
    let m := CacheOp.runAll (new 4 2 true)
      [.allocate ⟨1⟩ [7, 8, 9], .commitPrefill ⟨1⟩ [7, 8, 9], .appendToken ⟨1⟩]
    m.pool.hashOf ⟨0⟩ = some (hashBlock none [7, 8]) ∧ m.pool.tokensOf ⟨0⟩ = 2 := by
  intro m
  have hm : Reachable True 4 2 true m :=
    Reachable.start.runAll _ (fun _ => by decide +kernel)
  have he : m.prefixCache.entries.lookup (hashBlock none [7, 8]) = some ⟨⟨0⟩, [7, 8]⟩ := by
    decide +kernel
  have hfresh := index_never_stale (by decide) (by decide) hm he
  exact ⟨hfresh.1, hfresh.2.1⟩

/-! ## A pool its ids cannot number

A block id is a `u32`. In a pool of `2^32 + 1` blocks the last one gets the
id of the first, the free list names that block twice, and it can be handed
out while a table still holds it: the bound is needed. -/

/-- What `allocate` does when nothing is indexed. -/
structure AllocatesCold (m m' : KvCacheManager) (seq : SequenceId)
    (prompt : List TokenId) : Prop where
  tables : m'.tables = m.tables.insert seq
    ⟨m.pool.freeList.take (m.blocksNeededFor prompt.length), prompt.length⟩
  freeList : m'.pool.freeList
    = m.pool.freeList.drop (m.blocksNeededFor prompt.length)
  cold : m'.prefixCache.Cold
  promptOf : ∀ q, m'.promptOf q = if q = seq then some prompt else m.promptOf q
  enabled : m'.prefixCachingEnabled = m.prefixCachingEnabled
  blockSize : m'.blockSize = m.blockSize
  totalBlocks : m'.totalBlocks = m.totalBlocks

theorem allocate_cold {prompt : List TokenId} (hnone : m.tables.lookup seq = none)
    (hcold : m.prefixCache.Cold)
    (hfit : m.blocksNeededFor prompt.length ≤ m.freeBlocks) :
    m.AllocatesCold (m.allocate seq prompt).1 seq prompt := by
  rcases m.allocate_cases False seq prompt with
    ⟨hhas, -⟩ | ⟨-, hfew, -⟩ | ⟨s, -, -, hloop, ha, hl, hm⟩
  · unfold isAllocated blockTable at hhas
    rw [hnone] at hhas
    exact absurd hhas (by simp)
  · exact absurd hfit (not_le.mpr hfew)
  · obtain ⟨s', hs', hc, hblocks, hrest⟩ := AllocState.allocateChunks_cold seq prompt
      (prompt.chunks m.blockSize) (s := m.allocState seq prompt) hcold
      (by rw [List.length_chunks]; exact hfit)
    obtain rfl : s = s' := (Prod.mk.inj (hloop.symm.trans hs')).1
    rw [List.length_chunks] at hblocks hrest
    rw [ha]
    refine ⟨?_, hrest, hc, hl.promptOf, rfl, hm.blockSize, hm.totalBlocks⟩
    have htable : s.table.setNumTokens prompt.length
        = ⟨m.pool.freeList.take (m.blocksNeededFor prompt.length), prompt.length⟩ := by
      unfold BlockTable.setNumTokens
      rw [hblocks]
      rfl
    show m.tables.insert seq (s.table.setNumTokens prompt.length) = _
    rw [htable]

/-- Committing one full block that is indexed under nothing. -/
theorem commitPrefill_single {b : BlockId} {c : List TokenId}
    (henabled : m.prefixCachingEnabled = true)
    (ht : m.tables.lookup seq = some ⟨[b], c.length⟩) (hc : m.blockSize = c.length)
    (hpos : 0 < c.length) (hb : b ∈ m.pool.ids) (hcold : m.prefixCache.Cold) :
    (m.commitPrefill seq c).prefixCache.entries.lookup (hashBlock none c) = some ⟨b, c⟩
      ∧ (m.commitPrefill seq c).tables = m.tables
      ∧ (m.commitPrefill seq c).blockSize = m.blockSize
      ∧ b ∈ (m.commitPrefill seq c).pool.ids := by
  have hchunks : c.chunks m.blockSize = [c] := by
    have hone : c.length ⌈/⌉ c.length = 1 := by
      refine le_antisymm ((Nat.ceilDiv_le_iff_le_mul_right hpos).mpr (by simp)) ?_
      exact (Nat.lt_ceilDiv_iff_mul_lt hpos).mpr (by simpa using hpos)
    unfold List.chunks
    rw [hc, hone]
    simp
  have hcommit : m.commitPrefill seq c
      = { m.commitChunk seq c 0 b (hashBlock none c) c with
          chainTips := m.chainTips.insert seq (hashBlock none c) } := by
    have hloop : m.commitChunks seq c none 0 [c] [b]
        = (m.commitChunk seq c 0 b (hashBlock none c) c, some (hashBlock none c)) := by
      unfold commitChunks
      rw [if_pos hc.symm]
      rfl
    unfold commitPrefill
    rw [if_pos henabled]
    simp only [blockTable, ht, hchunks, hloop]
    rfl
  have hids : ∀ p : BlockPool, p.totalBlocks = m.pool.totalBlocks → b ∈ p.ids :=
    fun p hp => by rw [BlockPool.Exact.ids_eq hp]; exact hb
  obtain ⟨-, hbs, htotal, -⟩ := BlockPool.setContents_fst m.pool b c.length
    (some (hashBlock none c))
  rw [hcommit]
  refine ⟨?_, rfl, hbs, hids _ htotal⟩
  show (m.prefixCache.insert (hashBlock none c) b c).entries.lookup _ = _
  rw [PrefixCache.insert_lookup, if_pos rfl, hcold]
  rfl

/-- Appending to a table whose one block still has room. -/
theorem appendToken_single {b : BlockId} (hbs : m.blockSize = 2)
    (ht : m.tables.lookup seq = some ⟨[b], 1⟩) (hb : b ∈ m.pool.ids) :
    (m.appendToken seq).1.pool.hashOf b = none
      ∧ (m.appendToken seq).1.prefixCache = m.prefixCache := by
  rcases BlockPool.setContents_cases m.pool b 2 none with ⟨hbad, -⟩ | ⟨pool, hp, hr⟩
  · rcases hbad with hbad | hbad
    · exact absurd hb hbad
    · exact absurd hbs.ge (not_le.mpr hbad)
  have hgrow : m.growTable seq ⟨[b], 1⟩ 2 = (m, .ok ()) := by
    unfold growTable
    rw [hbs]
    refine if_neg ?_
    show ¬ 1 < 2 ⌈/⌉ 2
    decide
  have happ : (m.appendToken seq).1.pool = pool
      ∧ (m.appendToken seq).1.prefixCache = m.prefixCache := by
    have hlast : ((BlockTable.mk [b] 1).setNumTokens (1 + 1)).blocks.getLast? = some b :=
      rfl
    have hfill : ∀ k, 1 + 1 - (((BlockTable.mk [b] 1).setNumTokens (1 + 1)).numBlocks - 1) * k
        = 2 := fun k => by
      show 1 + 1 - 0 * k = 2
      rw [Nat.zero_mul]
    simp only [appendToken, blockTable, ht, hgrow, recordToken, hlast, hfill, hp, and_self]
  exact ⟨by rw [happ.1, hr.hashOf, if_pos rfl], happ.2⟩

/-- **An index entry can be stale once two blocks share an id**: the first
block is held and published by one sequence, its twin is handed out to
another, and a token recorded there wipes the hash of both. -/
theorem index_stale_of_twin {n : ℕ} {mid : List BlockId} {b : BlockId}
    (hfree : (new n 2 true).pool.freeList = b :: mid ++ [b]) (hb : b.index < n) :
    ∃ m hash e, Reachable True n 2 true m
      ∧ m.prefixCache.entries.lookup hash = some e ∧ m.pool.hashOf e.block ≠ some hash := by
  set m₀ := new n 2 true with hm₀
  have hlen : m₀.freeBlocks = mid.length + 2 := by
    show m₀.pool.freeList.length = _
    rw [hfree]
    simp
  have htotal : m₀.totalBlocks = n := BlockPool.new_totalBlocks n 2
  have hneed : ∀ {m : KvCacheManager} {k : ℕ}, m.blockSize = 2 →
      m.blocksNeededFor k = k ⌈/⌉ 2 := fun hbs => by
    unfold blocksNeededFor BlockTable.blocksRequired
    rw [hbs]
  have hceil : ∀ k, 2 * k ⌈/⌉ 2 = k := fun k => by
    rw [Nat.ceilDiv_eq_add_pred_div]
    omega
  -- the first sequence takes the block
  set m₁ := (m₀.allocate ⟨1⟩ [7, 7]).1 with hm₁
  have h₁ : m₀.AllocatesCold m₁ ⟨1⟩ [7, 7] := allocate_cold (by rw [hm₀]; rfl) (fun _ => rfl)
    (by rw [hneed rfl, hlen]; show 2 * 1 ⌈/⌉ 2 ≤ _; rw [hceil]; omega)
  have hk₁ : m₀.blocksNeededFor ([7, 7] : List TokenId).length = 1 := by
    rw [hneed rfl]
    exact hceil 1
  have hfree₁ : m₁.pool.freeList = mid ++ [b] := by
    rw [h₁.freeList, hk₁, hfree]
    rfl
  -- a long prompt takes every block but its twin
  set m₂ := (m₁.allocate ⟨2⟩ (List.replicate (2 * mid.length) 9)).1 with hm₂
  have hk₂ : m₁.blocksNeededFor (List.replicate (2 * mid.length) (9 : TokenId)).length
      = mid.length := by
    rw [hneed h₁.blockSize, List.length_replicate, hceil]
  have h₂ : m₁.AllocatesCold m₂ ⟨2⟩ (List.replicate (2 * mid.length) 9) := allocate_cold
    (by rw [h₁.tables, AList.lookup_insert_ne (by decide)]; rfl) h₁.cold
    (by
      rw [hk₂]
      show _ ≤ m₁.pool.freeList.length
      rw [hfree₁, List.length_append]
      exact Nat.le_add_right _ _)
  have hfree₂ : m₂.pool.freeList = [b] := by
    rw [h₂.freeList, hk₂, hfree₁, List.drop_left]
  -- the third sequence takes the twin
  set m₃ := (m₂.allocate ⟨3⟩ [5]).1 with hm₃
  have hbs₂ : m₂.blockSize = 2 := h₂.blockSize.trans h₁.blockSize
  have hk₃ : m₂.blocksNeededFor ([5] : List TokenId).length = 1 := by rw [hneed hbs₂]; decide
  have h₃ : m₂.AllocatesCold m₃ ⟨3⟩ [5] := allocate_cold
    (by
      rw [h₂.tables, AList.lookup_insert_ne (by decide), h₁.tables,
        AList.lookup_insert_ne (by decide)]
      rfl) h₂.cold
    (by
      rw [hk₃]
      show _ ≤ m₂.pool.freeList.length
      rw [hfree₂]
      exact le_rfl)
  have hbs₃ : m₃.blockSize = 2 := h₃.blockSize.trans hbs₂
  have hids₃ : b ∈ m₃.pool.ids := by
    show b.index < m₃.totalBlocks
    rw [h₃.totalBlocks, h₂.totalBlocks, h₁.totalBlocks, htotal]
    exact hb
  have htab₁ : m₃.tables.lookup ⟨1⟩ = some ⟨[b], 2⟩ := by
    rw [h₃.tables, AList.lookup_insert_ne (by decide), h₂.tables,
      AList.lookup_insert_ne (by decide), h₁.tables, AList.lookup_insert, hk₁, hfree]
    rfl
  have htab₃ : m₃.tables.lookup ⟨3⟩ = some ⟨[b], 1⟩ := by
    rw [h₃.tables, AList.lookup_insert, hk₃, hfree₂]
    rfl
  have hown : m₃.promptOf ⟨1⟩ = some [7, 7] := by
    rw [h₃.promptOf, if_neg (by decide), h₂.promptOf, if_neg (by decide), h₁.promptOf,
      if_pos rfl]
  -- the first publishes, the third writes
  set m₄ := m₃.commitPrefill ⟨1⟩ [7, 7] with hm₄
  obtain ⟨hentry, htables, hbs₄, hids₄⟩ := commitPrefill_single (c := [7, 7])
    (by rw [h₃.enabled, h₂.enabled, h₁.enabled]; rfl) htab₁ hbs₃ (by decide) hids₃ h₃.cold
  obtain ⟨hhash, hindex⟩ := appendToken_single (hbs₄.trans hbs₃)
    (by rw [htables]; exact htab₃) hids₄
  refine ⟨(m₄.appendToken ⟨3⟩).1, hashBlock none [7, 7], ⟨b, [7, 7]⟩, ?_, ?_, ?_⟩
  · have hr₃ : Reachable True n 2 true m₃ :=
      ((Reachable.start.step (.allocate ⟨1⟩ [7, 7]) (fun _ => trivial)).step
        (.allocate ⟨2⟩ (List.replicate (2 * mid.length) 9)) (fun _ => trivial)).step
        (.allocate ⟨3⟩ [5]) (fun _ => trivial)
    exact (hr₃.step (.commitPrefill ⟨1⟩ [7, 7]) (fun _ _ => hown)).step
      (.appendToken ⟨3⟩) (fun _ => trivial)
  · rw [hindex]
    exact hentry
  · rw [hhash]
    simp

/-- The ids of a new pool, the first and the last set apart. -/
theorem new_freeList_ends (k bs : ℕ) (flag : Bool) :
    (new (k + 2) bs flag).pool.freeList = BlockId.ofIndex 0 ::
      (List.range k).map (fun i => BlockId.ofIndex (i + 1)) ++ [BlockId.ofIndex (k + 1)] := by
  show (List.range (k + 2)).map BlockId.ofIndex = _
  rw [List.range_succ, List.map_append, List.range_succ_eq_map, List.map_cons,
    List.map_map, List.map_singleton]
  rfl

/-- **The bound on the pool is needed**: with one block more than a `u32`
numbers, an index entry can be stale. -/
theorem index_stale_above_u32 :
    ∃ m hash e, Reachable True (2 ^ 32 + 1) 2 true m
      ∧ m.prefixCache.entries.lookup hash = some e
      ∧ m.pool.hashOf e.block ≠ some hash := by
  obtain ⟨k, hk, hwrap⟩ : ∃ k, 2 ^ 32 + 1 = k + 2 ∧ (k + 1) % 2 ^ 32 = 0 :=
    ⟨2 ^ 32 - 1, by norm_num, by norm_num⟩
  have htwin : BlockId.ofIndex (k + 1) = BlockId.ofIndex 0 := congrArg BlockId.mk hwrap
  have hends := new_freeList_ends k 2 true
  rw [htwin] at hends
  rw [hk]
  exact index_stale_of_twin hends (Nat.succ_pos _)

end KvCacheManager
