import DCache.LRU.Cache

/-! A pass of `get` over all keys, from the least to the most recently used. After each proper
part of it the list is rotated; after the whole pass it stands as before. -/
namespace DCache.LRU
open DCache.Lib
variable {K V : Type} [DecidableEq K]

theorem without_head {e : Entry K V} {es : List (Entry K V)} (hn : (keysOf (e :: es)).Nodup) :
    without (e :: es) e.key = es := by
  unfold without
  rw [List.filter_cons_of_neg (by simp)]
  exact without_of_notMem (List.nodup_cons.mp hn).1

theorem mark_concat {e : Entry K V} {es : List (Entry K V)} (he : e.key ∉ keysOf es) (b : Bool) :
    mark (es ++ [e]) e.key b = es ++ [{ e with dirty := b }] := by
  have hrest := mark_of_notMem he b
  unfold mark at hrest ⊢
  rw [List.map_append, hrest, List.map_singleton, if_pos rfl]

omit [DecidableEq K] in
theorem Recency.eq_of_entries {r r' : Recency K V} (hcap : r.cap = r'.cap)
    (hes : r.entries = r'.entries) : r = r' := by
  obtain ⟨cap, entries, _, _, _⟩ := r
  obtain rfl : cap = r'.cap := hcap
  obtain rfl : entries = r'.entries := hes
  rfl

theorem find_head (e : Entry K V) (es : List (Entry K V)) : find (e :: es) e.key = some e := by
  rw [find, List.find?_cons_of_pos (by simp)]

namespace Cache
variable (c : Cache K V)

/-- A `get` of the oldest key makes it the most recent. -/
theorem get_head {e : Entry K V} {es : List (Entry K V)} (h : c.entries = e :: es) :
    ∃ c', c.get e.key = some (e.val, c') ∧ c'.entries = es ++ [e] ∧ c'.spec.cap = c.spec.cap := by
  have hn := c.nodup
  obtain ⟨c', hget, hes⟩ := c.get_of_find e.key (h ▸ find_head e es)
  refine ⟨c', hget, ?_, ?_⟩
  · rw [hes, h, without_head (h ▸ hn)]
  · rw [c.spec_of_get hget]
    rfl

/-- The keys at the old end are taken round to the recent end, in their order. -/
theorem run_get {es₁ es₂ : List (Entry K V)} (h : c.entries = es₁ ++ es₂) :
    ∃ c', run Cache.get c (keysOf es₁) = some (es₁.map Entry.val, c') ∧
      c'.entries = es₂ ++ es₁ ∧ c'.spec.cap = c.spec.cap := by
  induction es₁ generalizing c es₂ with
  | nil => exact ⟨c, rfl, by rw [h, List.nil_append, List.append_nil], rfl⟩
  | cons e es₁ ih =>
    obtain ⟨c₁, hget, hes, hcap⟩ := c.get_head h
    obtain ⟨c', hrun, hes', hcap'⟩ := ih c₁ (hes.trans (List.append_assoc es₁ es₂ [e]))
    refine ⟨c', ?_, ?_, hcap'.trans hcap⟩
    · rw [keysOf_cons, run_cons hget, hrun]
      rfl
    · rw [hes', List.append_assoc, List.singleton_append]

/-- The complete pass reads every value once and leaves the cache as it was, so that what is
evicted next is the same. -/
theorem run_get_all : ∃ c', run Cache.get c c.lruKeysOneshot = some (c.entries.map Entry.val, c') ∧
    c'.entries = c.entries ∧ Simulates c'.raw c.spec ∧
    ∀ k v, (c'.set k v).entries = (c.set k v).entries := by
  obtain ⟨c', hrun, hes, hcap⟩ := c.run_get (List.append_nil c.entries).symm
  have hspec : c'.spec = c.spec := Recency.eq_of_entries hcap hes
  refine ⟨c', ?_, hes, hspec ▸ c'.sim, ?_⟩
  · rw [lruKeysOneshot_eq, hrun]
  · intro k v
    rw [entries_set, entries_set, hspec]

end Cache
end DCache.LRU
