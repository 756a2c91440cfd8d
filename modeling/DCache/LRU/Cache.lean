import DCache.LRU.Simulation

/-! Caches that carry the list of entries they represent, so that a well-linked cache is the
only kind there is. A call runs the pointer code; its effect on the entries is the abstract one. -/
namespace DCache.LRU
open DCache.Lib

structure Cache (K V : Type) [DecidableEq K] where
  raw : ThreadSafeLRUCache K V
  spec : Recency K V
  sim : Simulates raw spec

namespace Cache
variable {K V : Type} [DecidableEq K] (c : Cache K V) (k k' : K) (v : V) (b : Bool)

def new [Inhabited K] [Inhabited V] (cap : ℕ) (hcap : 1 ≤ cap) : Cache K V :=
  ⟨.new cap, .empty cap hcap, .new cap hcap⟩

/-- The entries, from the least to the most recently used. -/
def entries : List (Entry K V) := c.spec.entries

def hasKey : Bool := c.raw.hasKey k

def isDirty : Bool := (c.raw.isDirty k).get (by rw [c.sim.isDirty k]; rfl)

def lruKeysOneshot : List K := c.raw.lruKeysOneshot.get (by rw [c.sim.lruKeysOneshot]; rfl)

theorem isSome_set : (c.raw.set k v).isSome = true := by
  obtain ⟨c', h, -⟩ := c.sim.set k v
  rw [h]; rfl

def set : Cache K V :=
  ⟨(c.raw.set k v).get (c.isSome_set k v), c.spec.set k v, by
    obtain ⟨c', h, hs⟩ := c.sim.set k v
    simpa only [h, Option.get_some] using hs⟩

theorem isSome_writeDirty : (c.raw.writeDirty k b).isSome = true := by
  obtain ⟨c', h, -⟩ := c.sim.writeDirty k b
  rw [h]; rfl

def writeDirty : Cache K V :=
  ⟨(c.raw.writeDirty k b).get (c.isSome_writeDirty k b), c.spec.writeDirty k b, by
    obtain ⟨c', h, hs⟩ := c.sim.writeDirty k b
    simpa only [h, Option.get_some] using hs⟩

def setDirty : Cache K V := c.writeDirty k true

def setClean : Cache K V := c.writeDirty k false

/-- A `get` of an absent key dereferences the null pointer. -/
theorem get_absent (h : c.hasKey k = false) : c.raw.get k = none := by
  have hm : c.raw.map k = none := by simpa [hasKey, ThreadSafeLRUCache.hasKey] using h
  simp [ThreadSafeLRUCache.get, ThreadSafeLRUCache.makeRecently, ThreadSafeLRUCache.index, hm,
    Doublelist.remove, Heap.prev?, c.raw.cache.heap.null]

theorem simulates_get {raw : ThreadSafeLRUCache K V} (h : c.raw.get k = some (v, raw)) :
    Simulates raw (c.spec.promote k) := by
  have hk : c.hasKey k = true := by
    by_contra hk
    rw [c.get_absent k (by simpa using hk)] at h
    cases h
  obtain ⟨v', c', r', hc, hr, hs⟩ := c.sim.get hk
  obtain ⟨e, -, ho⟩ := Option.map_eq_some_iff.mp hr
  obtain ⟨-, rfl⟩ := Prod.mk.inj ho
  rw [hc, Option.some.injEq, Prod.mk.injEq] at h
  exact h.2 ▸ hs

/-- `none` is the fault of a read of an absent key. -/
def get : Option (V × Cache K V) :=
  match h : c.raw.get k with
  | none => none
  | some (v, raw) => some (v, ⟨raw, c.spec.promote k, c.simulates_get k v h⟩)

@[simp] theorem entries_new [Inhabited K] [Inhabited V] (cap : ℕ) (hcap : 1 ≤ cap) :
    (new cap hcap : Cache K V).entries = [] := rfl

theorem nodup : (keysOf c.entries).Nodup := c.spec.nodup

@[simp] theorem hasKey_iff : c.hasKey k = true ↔ k ∈ keysOf c.entries := by
  rw [hasKey, c.sim.hasKey k, Recency.hasKey, decide_eq_true_eq]
  rfl

theorem isDirty_eq : c.isDirty k = (find c.entries k).any Entry.dirty := by
  simp only [isDirty, c.sim.isDirty k, Option.get_some]
  rfl

@[simp] theorem lruKeysOneshot_eq : c.lruKeysOneshot = keysOf c.entries := by
  simp only [lruKeysOneshot, c.sim.lruKeysOneshot, Option.get_some]
  rfl

theorem isDirty_iff : c.isDirty k = true ↔ ∃ e, find c.entries k = some e ∧ e.dirty = true := by
  rw [isDirty_eq, Option.any_eq_true]

theorem entries_set : (c.set k v).entries = c.spec.kept k ++ [⟨k, v, false⟩] := rfl

theorem entries_setDirty : (c.setDirty k).entries = mark c.entries k true := rfl

@[simp] theorem find_set_self : find (c.set k v).entries k = some ⟨k, v, false⟩ := by
  rw [entries_set, find_append, find_eq_none.mpr (c.spec.notMem_kept k)]
  simp [find]

/-- A `set` of another key keeps an entry or evicts it. -/
theorem find_set_of_ne {k k' : K} (h : k' ≠ k) :
    find (c.set k v).entries k' = find c.entries k' ∨ find (c.set k v).entries k' = none := by
  have hset : find (c.set k v).entries k' = find (c.spec.kept k) k' := c.spec.find_set_of_ne v h
  rw [hset]
  rcases c.spec.find_kept h with hf | ⟨hf, -⟩
  · exact Or.inl hf
  · exact Or.inr (find_eq_none.mpr hf)

theorem spec_of_get {k : K} {v : V} {c' : Cache K V} (h : c.get k = some (v, c')) :
    c'.spec = c.spec.promote k := by
  unfold get at h
  split at h
  · cases h
  · obtain ⟨-, rfl⟩ := Prod.mk.inj (Option.some.inj h)
    rfl

/-- A `get` of a present key yields its value and moves its entry to the recent end. -/
theorem get_of_find {e : Entry K V} (h : find c.entries k = some e) :
    ∃ c', c.get k = some (e.val, c') ∧ c'.entries = without c.entries k ++ [e] := by
  have hk : c.hasKey k = true := (c.hasKey_iff k).mpr (find_isSome.mp (by simp [h]))
  obtain ⟨v, raw, r', hc, hr, hs⟩ := c.sim.get hk
  obtain ⟨e', he', ho⟩ := Option.map_eq_some_iff.mp hr
  obtain rfl : e' = e := Option.some.inj (he'.symm.trans h)
  obtain ⟨rfl, rfl⟩ := Prod.mk.inj ho
  refine ⟨⟨raw, c.spec.promote k, hs⟩, ?_, ?_⟩
  · unfold get
    split
    · next hn => simp [hc] at hn
    · next hn =>
      rw [hc, Option.some.injEq, Prod.mk.injEq] at hn
      obtain ⟨rfl, rfl⟩ := hn
      rfl
  · change without c.spec.entries k ++ (find c.spec.entries k).toList = _
    simp only [he', Option.toList_some, entries]

@[simp] theorem find_setDirty : find (c.setDirty k).entries k' =
    (find c.entries k').map (fun e => if k' = k then { e with dirty := true } else e) :=
  find_mark _ _ _ _

@[simp] theorem keysOf_setDirty : keysOf (c.setDirty k).entries = keysOf c.entries :=
  keysOf_mark _ _ _

/-- Moving the entry of `k` to the recent end changes no look-up. -/
theorem find_promoted {e : Entry K V} (h : find c.entries k = some e) :
    find (without c.entries k ++ [e]) k' = find c.entries k' := by
  have hkey := find_key h
  rw [find_append]
  by_cases hk : k' = k
  · subst hk
    rw [find_without_self, h]
    simp [find, hkey]
  · rw [find_without_of_ne _ hk]
    have : find [e] k' = none := by simp [find, hkey, Ne.symm hk]
    rw [this, Option.or_none]

/-- A `get` that returns has found an entry, and it changes no look-up. -/
theorem of_get {c' : Cache K V} (h : c.get k = some (v, c')) :
    (∃ b, find c.entries k = some ⟨k, v, b⟩) ∧
      ∀ k', find c'.entries k' = find c.entries k' := by
  cases hf : find c.entries k with
  | none =>
    have hk : c.hasKey k = false := by
      rw [← Bool.not_eq_true, hasKey_iff]
      exact find_eq_none.mp hf
    have hnone : c.get k = none := by
      unfold get
      split
      · rfl
      · next hn => rw [c.get_absent k hk] at hn; cases hn
    rw [hnone] at h
    cases h
  | some e =>
    obtain ⟨c'', hget, hes⟩ := c.get_of_find k hf
    obtain ⟨rfl, rfl⟩ := Prod.mk.inj (Option.some.inj (hget.symm.trans h))
    refine ⟨⟨e.dirty, ?_⟩, fun k' => by rw [hes, c.find_promoted k k' hf]⟩
    rw [← find_key hf]

end Cache
end DCache.LRU
