import DCache.Lib.OrdMap
import DCache.Ring.RbRuns

/-! The red-black tree of `util_rbtree.c` as a map ordered by key, where no key is inserted twice. -/
namespace DCache.Ring
open DCache.Lib

namespace RbTree
variable {V : Type} {t : RbTree V} {m : OrdMap ℤ V} {addr : ℤ → ℕ} {k : ℤ} {v : V} {p : ℕ}
  {n : TreeCell (RbItem V)}

/-- The tree holds the bindings of the map, each in the node at `addr`, and no other node is
allocated. -/
structure Tracks (addr : ℤ → ℕ) (t : RbTree V) (m : OrdMap ℤ V) : Prop where
  stores : Stores t (m.entries.map fun e => (e.1, addr e.1))
  data : ∀ k v, m.find? k = some v → t.memory.data? (addr k) = some ⟨k, v⟩

namespace Tracks

theorem init [Inhabited V] (addr : ℤ → ℕ) : Tracks addr (init : RbTree V) .empty :=
  ⟨Stores.init, nofun⟩

theorem mem_nodes (hv : m.find? k = some v) :
    addr k ∈ (m.entries.map fun e => (e.1, addr e.1)).map Prod.snd := by
  rw [List.map_map]
  exact List.mem_map.mpr ⟨(k, v), m.mem_entries.mpr hv, rfl⟩

theorem keyAt (h : Tracks addr t m) (hv : m.find? k = some v) : t.keyAt (addr k) = k := by
  rw [RbTree.keyAt, h.data k v hv]
  rfl

/-- Different keys stand in different nodes. -/
theorem inj {k' : ℤ} {v' : V} (h : Tracks addr t m) (hv : m.find? k = some v)
    (hv' : m.find? k' = some v') (he : addr k = addr k') : k = k' := by
  rw [← h.keyAt hv, he, h.keyAt hv']

theorem size (h : Tracks addr t m) : t.size = m.size := by
  rw [h.stores.nodes.size]
  simp [OrdMap.size]

theorem search (h : Tracks addr t m) (k : ℤ) :
    t.search k = some ((m.find? k).map fun _ => addr k) := by
  obtain ⟨o, ho, hnone, hsome⟩ := h.stores.nodes.search k
  rw [ho]
  cases o with
  | none =>
    cases hv : m.find? k with
    | none => rfl
    | some v => exact absurd (h.keyAt hv) (hnone rfl _ (mem_nodes hv))
  | some p =>
    obtain ⟨hmem, hkey⟩ := hsome p rfl
    rw [List.map_map] at hmem
    obtain ⟨⟨k', v'⟩, he, rfl⟩ := List.mem_map.mp hmem
    have hv' := m.mem_entries.mp he
    obtain rfl : k' = k := (h.keyAt hv').symm.trans hkey
    rw [hv']
    rfl

theorem lookup (h : Tracks addr t m) (k : ℤ) :
    t.lookup k = some ((m.ceil? k).map fun e => addr e.1) := by
  rw [h.stores.nodes.lookup k, List.map_map, List.find?_map, List.head?_map, OrdMap.ceil?]
  have hfind : m.entries.find? ((fun p => decide (k ≤ t.keyAt p)) ∘
      (Prod.snd ∘ fun e : ℤ × V => (e.1, addr e.1))) = m.entries.find? fun e => k ≤ e.1 := by
    apply List.find?_congr
    rintro ⟨k', v'⟩ he
    simp [h.keyAt (m.mem_entries.mp he)]
  rw [hfind]
  cases m.entries.find? fun e => decide (k ≤ e.1) <;> cases m.entries.head? <;> rfl

/-- A travel meets the bindings in the order of the keys. -/
theorem midTravel {σ : Type} (h : Tracks addr t m) (opera : ℕ → σ → Option σ) (d : σ) :
    t.midTravel opera d = m.entries.foldlM (fun d e => opera (addr e.1) d) d := by
  rw [h.stores.nodes.midTravel, List.map_map, List.foldlM_map]
  rfl

theorem put (h : Tracks addr t m) (hr : Rooted t) (hk : m.find? k = none)
    (hp : t.memory p = none) (hzero : p ≠ nullPtr) (hn : n.data = ⟨k, v⟩) :
    ∃ t', t.put p n = some t' ∧ Rooted t' ∧
      Tracks (Function.update addr k p) t' (m.insert k v) := by
  obtain ⟨t', ht', hr', h', hdata, hother⟩ := h.stores.put (n := n) hr hp hzero
  have hne : ∀ k' v', m.find? k' = some v' → k' ≠ k ∧ addr k' ≠ p := by
    intro k' v' hv'
    refine ⟨?_, ?_⟩
    · rintro rfl
      rw [hk] at hv'
      cases hv'
    · rintro rfl
      have hd := h.data k' v' hv'
      rw [TreeMem.data?, hp] at hd
      cases hd
  refine ⟨t', ht', hr', ?_, ?_⟩
  · have hmap : ((m.insert k v).entries.map fun e => (e.1, Function.update addr k p e.1)) =
        (m.entries.map fun e => (e.1, addr e.1)).orderedInsert (fun a b => a.1 < b.1)
          (n.data.key, p) := by
      obtain ⟨l₁, l₂, hm, hi, hlt, hgt⟩ := m.entries_insert_of_none v hk
      have hsame : ∀ l : List (ℤ × V), (∀ e ∈ l, e ∈ m.entries) →
          (l.map fun e => (e.1, Function.update addr k p e.1)) = l.map fun e => (e.1, addr e.1) := by
        intro l hl
        apply List.map_congr_left
        intro e he
        rw [Function.update_of_ne (hne e.1 e.2 (m.mem_entries.mp (hl e he))).1]
      rw [hi, List.map_append, List.map_cons, Function.update_self, hn,
        hsame l₁ fun e he => hm ▸ List.mem_append_left l₂ he,
        hsame l₂ fun e he => hm ▸ List.mem_append_right l₁ he, hm, List.map_append]
      symm
      apply orderedInsert_append
      · intro e he
        obtain ⟨b, hb, rfl⟩ := List.mem_map.mp he
        exact not_lt.mpr (hlt b hb).le
      · intro e he
        obtain ⟨b, hb, rfl⟩ := List.mem_map.mp he
        exact hgt b hb
    rw [hmap]
    exact h'
  · intro k' v' hv'
    rw [OrdMap.find?_insert] at hv'
    by_cases hkk : k' = k
    · subst hkk
      rw [if_pos rfl, Option.some.injEq] at hv'
      rw [Function.update_self, hdata, hn, hv']
    · rw [if_neg hkk] at hv'
      rw [Function.update_of_ne hkk, hother _ (hne k' v' hv').2]
      exact h.data k' v' hv'

/-- Where a tree is not rooted before or after, one node is left in it. -/
theorem remove (h : Tracks addr t m) (hv : m.find? k = some v) :
    ∃ t', t.remove (addr k) = some t' ∧ Tracks addr t' (m.erase k) ∧
      (Rooted t ∨ t.size = 1 → Rooted t' ∨ t'.size = 1) := by
  obtain ⟨t', ht', h', hsize, hr, hother⟩ := h.stores.remove (mem_nodes hv)
  have hmap : ((m.entries.map fun e => (e.1, addr e.1)).filter fun e => e.2 ≠ addr k) =
      (m.erase k).entries.map fun e => (e.1, addr e.1) := by
    rw [List.filter_map, OrdMap.erase]
    congr 1
    apply List.filter_congr
    rintro ⟨k', v'⟩ he
    have hv' := m.mem_entries.mp he
    simp only [Function.comp_apply, ne_eq, decide_not]
    congr 2
    rw [eq_iff_iff]
    exact ⟨fun he => h.inj hv' hv he, fun he => by rw [he]⟩
  rw [hmap] at h'
  refine ⟨t', ht', ⟨h', ?_⟩, ?_⟩
  · intro k' v' hv'
    rw [OrdMap.find?_erase] at hv'
    split_ifs at hv' with hkk
    rw [hother _ fun he => hkk (h.inj hv' hv he)]
    exact h.data k' v' hv'
  · rintro (hrooted | hone)
    · by_cases hbad : t.size = 2 ∧ t.root = addr k
      · right
        rw [hsize, hbad.1]
      · exact Or.inl ((hr hrooted).mpr hbad)
    · left
      have hzero := h'.nodes.size
      rw [hsize, hone] at hzero
      have hnil := List.eq_nil_of_length_eq_zero hzero.symm
      exact (hnil ▸ h'.nodes).rooted_of_nil

end Tracks
end RbTree
end DCache.Ring
