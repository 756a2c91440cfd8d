import DCache.LRU.Refinement
import DCache.Lib.Run

/-! Calls and whole call sequences: the pointer structure simulates the abstract cache. -/
namespace DCache.LRU
open DCache.Lib

/-- The public operations of the cache. -/
inductive Call (K V : Type) where
  | set (k : K) (v : V)
  | get (k : K)
  | setDirty (k : K)
  | setClean (k : K)
  | isDirty (k : K)
  | hasKey (k : K)
  | lruKeysOneshot

inductive Result (K V : Type) where
  | done
  | value (v : V)
  | flag (b : Bool)
  | keys (ks : List K)
deriving DecidableEq

variable {K V : Type}

/-- The pointer structure represents the abstract cache: links in both directions describe one
chain, `size_` is its length and the map sends exactly its keys to their nodes. -/
def Simulates (c : ThreadSafeLRUCache K V) (r : Recency K V) : Prop :=
  (∃ ps, c.Rep ps r.entries) ∧ c.cap = r.cap

namespace Simulates
variable {c : ThreadSafeLRUCache K V} {r : Recency K V}

theorem new [Inhabited K] [Inhabited V] (cap : ℕ) (hcap : 1 ≤ cap) :
    Simulates (ThreadSafeLRUCache.new cap : ThreadSafeLRUCache K V) (Recency.empty cap hcap) :=
  ⟨⟨[], ThreadSafeLRUCache.new_rep _⟩, rfl⟩

theorem lruKeysOneshot (h : Simulates c r) : c.lruKeysOneshot = some r.keys := by
  obtain ⟨⟨ps, hc⟩, -⟩ := h
  exact ThreadSafeLRUCache.lruKeysOneshot_spec hc

end Simulates

variable [DecidableEq K]

def ThreadSafeLRUCache.exec (c : ThreadSafeLRUCache K V) :
    Call K V → Option (Result K V × ThreadSafeLRUCache K V)
  | .set k v => (c.set k v).map fun c => (.done, c)
  | .get k => (c.get k).map fun o => (.value o.1, o.2)
  | .setDirty k => (c.setDirty k).map fun c => (.done, c)
  | .setClean k => (c.setClean k).map fun c => (.done, c)
  | .isDirty k => (c.isDirty k).map fun b => (.flag b, c)
  | .hasKey k => some (.flag (c.hasKey k), c)
  | .lruKeysOneshot => c.lruKeysOneshot.map fun ks => (.keys ks, c)

def Recency.exec (r : Recency K V) : Call K V → Option (Result K V × Recency K V)
  | .set k v => some (.done, r.set k v)
  | .get k => (r.get k).map fun o => (.value o.1, o.2)
  | .setDirty k => some (.done, r.writeDirty k true)
  | .setClean k => some (.done, r.writeDirty k false)
  | .isDirty k => some (.flag (r.isDirty k), r)
  | .hasKey k => some (.flag (r.hasKey k), r)
  | .lruKeysOneshot => some (.keys r.keys, r)

/-- A `get` is made only on a key that `hasKey` reports present. -/
def ThreadSafeLRUCache.Guarded (c : ThreadSafeLRUCache K V) (call : Call K V) : Prop :=
  ∀ k, call = .get k → c.hasKey k = true

namespace Simulates
variable {c : ThreadSafeLRUCache K V} {r : Recency K V}

theorem hasKey (h : Simulates c r) (k : K) : c.hasKey k = r.hasKey k := by
  obtain ⟨⟨ps, hc⟩, -⟩ := h
  rw [Bool.eq_iff_iff, ThreadSafeLRUCache.hasKey, hc.isSome_map, Recency.hasKey,
    decide_eq_true_eq]
  rfl

theorem set (h : Simulates c r) (k : K) (v : V) :
    ∃ c', c.set k v = some c' ∧ Simulates c' (r.set k v) := by
  obtain ⟨⟨ps, hc⟩, hcap⟩ := h
  suffices hkept : ∃ c₁ ps₁, (if (c.map k).isSome then c.deleteKey k
      else if c.cap = c.cache.size_ then c.removeLeastRecently else some c) = some c₁ ∧
      c₁.cap = r.cap ∧ c₁.Rep ps₁ (r.kept k) by
    obtain ⟨c₁, ps₁, h₁, hcap₁, hc₁⟩ := hkept
    obtain ⟨c₂, ps₂, h₂, hcap₂, hc₂⟩ :=
      ThreadSafeLRUCache.addRecently_spec hc₁ (r.notMem_kept k) v
    refine ⟨c₂, ?_, ⟨ps₂, hc₂⟩, hcap₂.trans hcap₁⟩
    unfold ThreadSafeLRUCache.set
    split_ifs at h₁ ⊢ <;> simp_all
  by_cases hk : k ∈ r.keys
  · obtain ⟨es₁, e, es₂, hs, rfl, -, hw⟩ := exists_split r.nodup hk
    rw [if_pos (hc.isSome_map.mpr hk), Recency.kept, if_pos hk, hw]
    obtain ⟨c', ps', h', hcap', hc'⟩ := ThreadSafeLRUCache.deleteKey_spec (hs ▸ hc)
    exact ⟨c', ps', h', hcap'.trans hcap, hc'⟩
  · rw [if_neg (mt hc.isSome_map.mp hk), Recency.kept, if_neg hk, hc.holds.size]
    by_cases hl : r.entries.length = r.cap
    · rw [if_pos hl, if_pos (by rw [hcap]; exact_mod_cast hl.symm)]
      cases hes : r.entries with
      | nil =>
        have := r.pos
        simp [hes] at hl
        omega
      | cons e es =>
        obtain ⟨c', ps', h', hcap', hc'⟩ := ThreadSafeLRUCache.removeLeastRecently_spec (hes ▸ hc)
        exact ⟨c', ps', h', hcap'.trans hcap, hc'⟩
    · rw [if_neg hl, if_neg (by rw [hcap]; exact_mod_cast Ne.symm hl)]
      exact ⟨c, ps, rfl, hcap, hc⟩

theorem get (h : Simulates c r) {k : K} (hk : c.hasKey k = true) :
    ∃ v c' r', c.get k = some (v, c') ∧ r.get k = some (v, r') ∧ Simulates c' r' := by
  have hk' : k ∈ r.keys := by simpa [h.hasKey k, Recency.hasKey] using hk
  obtain ⟨⟨ps, hc⟩, hcap⟩ := h
  obtain ⟨es₁, e, es₂, hs, rfl, hf, hw⟩ := exists_split r.nodup hk'
  obtain ⟨c', ps', h', hcap', hm, hc'⟩ := ThreadSafeLRUCache.makeRecently_spec (hs ▸ hc)
  refine ⟨e.val, c', r.promote e.key, ?_, by simp [Recency.get, hf], ⟨ps', ?_⟩, hcap'.trans hcap⟩
  · have hlast : ThreadSafeLRUCache.Rep c' ps' (es₁ ++ es₂ ++ [e]) := hc'
    obtain ⟨-, p, -, -, -, hp, hmp⟩ := hlast.split
    simp [ThreadSafeLRUCache.get, h', ThreadSafeLRUCache.index, hmp, hp]
  · simpa [Recency.promote, hw, hf] using hc'

theorem writeDirty (h : Simulates c r) (k : K) (b : Bool) :
    ∃ c', c.writeDirty k b = some c' ∧ Simulates c' (r.writeDirty k b) := by
  obtain ⟨⟨ps, hc⟩, hcap⟩ := h
  obtain ⟨c', h', hcap', hc'⟩ := ThreadSafeLRUCache.writeDirty_spec (k := k) hc b
  exact ⟨c', h', ⟨ps, hc'⟩, hcap'.trans hcap⟩

theorem isDirty (h : Simulates c r) (k : K) : c.isDirty k = some (r.isDirty k) := by
  obtain ⟨⟨ps, hc⟩, -⟩ := h
  by_cases hk : k ∈ r.keys
  · obtain ⟨es₁, e, es₂, hs, rfl, hf, -⟩ := exists_split r.nodup hk
    rw [ThreadSafeLRUCache.isDirty_spec (hs ▸ hc), Recency.isDirty, hf]
    rfl
  · have hm := mt hc.isSome_map.mp hk
    simp [ThreadSafeLRUCache.isDirty, hm, Recency.isDirty, find_eq_none.mpr hk]

/-- One call: no fault, the same result, and the states stay related. -/
theorem exec (h : Simulates c r) {call : Call K V} (hg : c.Guarded call) :
    ∃ o c' r', c.exec call = some (o, c') ∧ r.exec call = some (o, r') ∧ Simulates c' r' := by
  cases call with
  | set k v =>
    obtain ⟨c', h', hs⟩ := h.set k v
    exact ⟨.done, c', _, by simp [ThreadSafeLRUCache.exec, h'], rfl, hs⟩
  | get k =>
    obtain ⟨v, c', r', h', hr, hs⟩ := h.get (hg k rfl)
    exact ⟨.value v, c', r', by simp [ThreadSafeLRUCache.exec, h'],
      by simp [Recency.exec, hr], hs⟩
  | setDirty k =>
    obtain ⟨c', h', hs⟩ := h.writeDirty k true
    exact ⟨.done, c', _, by simp [ThreadSafeLRUCache.exec, ThreadSafeLRUCache.setDirty, h'], rfl, hs⟩
  | setClean k =>
    obtain ⟨c', h', hs⟩ := h.writeDirty k false
    exact ⟨.done, c', _, by simp [ThreadSafeLRUCache.exec, ThreadSafeLRUCache.setClean, h'], rfl, hs⟩
  | isDirty k => exact ⟨_, c, r, by simp [ThreadSafeLRUCache.exec, h.isDirty k], rfl, h⟩
  | hasKey k => exact ⟨_, c, r, by simp [ThreadSafeLRUCache.exec, h.hasKey k], rfl, h⟩
  | lruKeysOneshot => exact ⟨_, c, r, by simp [ThreadSafeLRUCache.exec, h.lruKeysOneshot], rfl, h⟩

end Simulates

section Runs
variable [Inhabited K] [Inhabited V]

/-- A fresh cache of any capacity simulates the abstract one along every guarded sequence of
calls, with the same results. -/
theorem ThreadSafeLRUCache.refines_recency (cap : ℕ) (hcap : 1 ≤ cap) (calls : List (Call K V))
    (hg : Allowed ThreadSafeLRUCache.exec ThreadSafeLRUCache.Guarded
      (ThreadSafeLRUCache.new cap) calls) :
    ∃ os c r, run ThreadSafeLRUCache.exec (ThreadSafeLRUCache.new cap) calls = some (os, c) ∧
      run Recency.exec (Recency.empty cap hcap) calls = some (os, r) ∧ Simulates c r :=
  Lib.run_simulates (fun _ _ _ h hg => h.exec hg) (Simulates.new cap hcap) hg

/-- Two entries in a cache of capacity 2, the older one promoted, and a third that evicts. -/
theorem ThreadSafeLRUCache.refines_recency_evicting :
    ∃ os c r, run ThreadSafeLRUCache.exec (ThreadSafeLRUCache.new 2)
        [.set 1 10, .set 2 20, .get 1, .set 3 30, .hasKey 2, .lruKeysOneshot] = some (os, c) ∧
      run Recency.exec (Recency.empty 2 (by decide))
        [.set 1 10, .set 2 20, .get 1, .set 3 30, .hasKey 2, .lruKeysOneshot] =
          some (os, r) ∧ Simulates (K := ℕ) (V := ℕ) c r := by
  apply ThreadSafeLRUCache.refines_recency 2 (by decide) _
  refine ⟨nofun, nofun, ?_, nofun, nofun, nofun, trivial⟩
  rintro k ⟨⟩
  rfl

end Runs
end DCache.LRU
