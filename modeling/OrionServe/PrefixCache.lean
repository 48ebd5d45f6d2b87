import OrionServe.BlockTable
import OrionServe.Lib.AssocMap

/-!
# The prefix index

A hash-indexed map from computed prefixes to physical blocks. It holds no
references of its own: an entry may name a block whose count is zero, and
whoever recycles that block has to drop the entry. Each entry keeps the
tokens its block holds, compared on every lookup.
-/

/-- What a cached block covers. -/
structure CacheEntry where
  block : BlockId
  /-- The exact tokens this block holds. -/
  tokens : List TokenId
  deriving DecidableEq

/-- Hash-indexed map from computed prefixes to physical blocks. -/
structure PrefixCache where
  entries : AList (fun _ : BlockHash => CacheEntry)
  hits : ℕ
  misses : ℕ

namespace PrefixCache

def new : PrefixCache := ⟨∅, 0, 0⟩

/-- Looks up a block by chained hash, verifying token equality, and counts
a hit or a miss. -/
def lookup (c : PrefixCache) (hash : BlockHash) (tokens : List TokenId) :
    PrefixCache × Option BlockId :=
  match c.entries.lookup hash with
  | some entry =>
    if entry.tokens = tokens then ({ c with hits := c.hits + 1 }, some entry.block)
    else ({ c with misses := c.misses + 1 }, none)
  | none => ({ c with misses := c.misses + 1 }, none)

/-- Publishes a finished block under its hash; an existing entry stays. -/
def insert (c : PrefixCache) (hash : BlockHash) (block : BlockId)
    (tokens : List TokenId) : PrefixCache :=
  match c.entries.lookup hash with
  | some _ => c
  | none => { c with entries := c.entries.insert hash ⟨block, tokens⟩ }

/-- Drops the entry for `hash`, if the block it names is still `block`. -/
def remove (c : PrefixCache) (hash : BlockHash) (block : BlockId) : PrefixCache :=
  match c.entries.lookup hash with
  | some entry =>
    if entry.block = block then { c with entries := c.entries.erase hash } else c
  | none => c

/-- Empties the index. -/
def clear (c : PrefixCache) : PrefixCache := { c with entries := ∅ }

/-- Drops the entry of a recycled block, when the pool reports that it
carried a hash. -/
def removeEvicted (c : PrefixCache) (evicted : Option BlockHash) (block : BlockId) :
    PrefixCache :=
  match evicted with
  | some h => c.remove h block
  | none => c

/-! ## What the index holds afterwards -/

/-- A lookup changes the counters only. -/
@[simp] theorem lookup_entries (c : PrefixCache) (h : BlockHash)
    (ts : List TokenId) : (c.lookup h ts).1.entries = c.entries := by
  unfold lookup
  split
  · split <;> rfl
  · rfl

/-- A hit names a block whose entry carries exactly the tokens asked
for. -/
theorem lookup_snd_eq_some {c : PrefixCache} {h : BlockHash} {ts : List TokenId}
    {b : BlockId} :
    (c.lookup h ts).2 = some b ↔ c.entries.lookup h = some ⟨b, ts⟩ := by
  unfold lookup
  rcases he : c.entries.lookup h with - | ⟨b', ts'⟩
  · simp
  · by_cases ht : ts' = ts
    · simp [ht]
    · simp [ht]

/-- An insertion keeps the entry that was there and otherwise writes the
new one. -/
theorem insert_lookup (c : PrefixCache) (h g : BlockHash) (b : BlockId)
    (ts : List TokenId) :
    (c.insert h b ts).entries.lookup g
      = if g = h then (c.entries.lookup h).or (some ⟨b, ts⟩)
        else c.entries.lookup g := by
  unfold insert
  by_cases hg : g = h
  · subst hg
    rcases he : c.entries.lookup g with - | e
    · simp
    · simp [he]
  · rcases he : c.entries.lookup h with - | e
    · simp [hg]
    · simp [hg]

/-- A removal drops one entry, and only if it names the block. -/
theorem remove_lookup (c : PrefixCache) (h g : BlockHash) (b : BlockId) :
    (c.remove h b).entries.lookup g
      = if g = h ∧ (c.entries.lookup h).any (fun e => e.block = b) then none
        else c.entries.lookup g := by
  unfold remove
  rcases he : c.entries.lookup h with - | e
  · simp
  · by_cases hb : e.block = b
    · by_cases hg : g = h
      · subst hg
        simp [hb]
      · simp [hb, hg]
    · simp [hb]

/-- A removal keeps every entry that names another block. -/
theorem remove_lookup_of_ne {c : PrefixCache} {h g : BlockHash} {b : BlockId}
    {e : CacheEntry} (he : c.entries.lookup g = some e) (hb : e.block ≠ b) :
    (c.remove h b).entries.lookup g = some e := by
  rw [remove_lookup, if_neg, he]
  rintro ⟨rfl, hany⟩
  rw [he] at hany
  exact hb (by simpa using hany)

/-- An entry that names another block survives an eviction. -/
theorem removeEvicted_lookup_of_ne {c : PrefixCache} {evicted : Option BlockHash}
    {g : BlockHash} {b : BlockId} {e : CacheEntry} (he : c.entries.lookup g = some e)
    (hb : e.block ≠ b) : (c.removeEvicted evicted b).entries.lookup g = some e := by
  cases evicted with
  | none => exact he
  | some h => exact remove_lookup_of_ne he hb

/-- What survives a removal was there before, and does not name the block
under the removed hash. -/
theorem lookup_of_remove_lookup {c : PrefixCache} {h g : BlockHash} {b : BlockId}
    {e : CacheEntry} (he : (c.remove h b).entries.lookup g = some e) :
    c.entries.lookup g = some e ∧ ¬(g = h ∧ e.block = b) := by
  rw [remove_lookup] at he
  split at he
  · exact absurd he (by simp)
  · next hn =>
    refine ⟨he, fun hc => hn ⟨hc.1, ?_⟩⟩
    rw [← hc.1, he]
    simpa using hc.2

/-- What survives the eviction of a block was there before. -/
theorem lookup_of_removeEvicted_lookup {c : PrefixCache} {evicted : Option BlockHash}
    {g : BlockHash} {b : BlockId} {e : CacheEntry}
    (he : (c.removeEvicted evicted b).entries.lookup g = some e) :
    c.entries.lookup g = some e := by
  cases evicted with
  | none => exact he
  | some h => exact (lookup_of_remove_lookup he).1

/-- Nothing is indexed. -/
def Cold (c : PrefixCache) : Prop := ∀ g, c.entries.lookup g = none

/-- An empty index stays empty when a block is evicted. -/
theorem Cold.removeEvicted {c : PrefixCache} (h : c.Cold) (evicted : Option BlockHash)
    (b : BlockId) : (c.removeEvicted evicted b).Cold := by
  intro g
  rcases he : (c.removeEvicted evicted b).entries.lookup g with - | e
  · rfl
  · rw [← lookup_of_removeEvicted_lookup he, h g]

end PrefixCache
