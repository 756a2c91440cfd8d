import DCache.LRU.Cache
import DCache.Lib.Run

/-! Two caches that serve the same accesses. What the smaller one holds the larger one holds too, in
the same order, so a larger capacity loses no hit. -/
namespace DCache.LRU
open DCache.Lib

/-- A `set`, or a read that asks `hasKey` first. -/
inductive Access (K V : Type)
  | set (key : K) (val : V)
  | read (key : K)

variable {K V : Type}

namespace Recency

/-- The smaller cache holds a part of what the larger one holds, and a proper part only when it is
full. -/
structure Included (r r' : Recency K V) : Prop where
  capacity : r.cap ≤ r'.cap
  entries : r.entries.Sublist r'.entries
  full : r.entries.length = r.cap ∨ r.entries.length = r'.entries.length

section Included
variable {r r' : Recency K V} {k : K}

theorem Included.keys (h : Included r r') (hk : k ∈ r.keys) : k ∈ r'.keys :=
  (h.entries.map Entry.key).subset hk

/-- A key of the larger cache only is missing in a full one. -/
theorem Included.full_of_notMem (h : Included r r') (hk : k ∉ r.keys) (hk' : k ∈ r'.keys) :
    r.entries.length = r.cap := by
  apply h.full.resolve_right
  intro hl
  have he := h.entries.eq_of_length hl
  unfold Recency.keys at hk hk'
  rw [he] at hk
  exact hk hk'

/-- Until the smaller cache is full, there is no difference. -/
theorem Included.eq_of_room (h : Included r r') (hl : r.entries.length ≠ r.cap) :
    r.entries = r'.entries :=
  h.entries.eq_of_length (h.full.resolve_left hl)

variable [DecidableEq K]

theorem Included.find_eq (h : Included r r') (hk : k ∈ r.keys) :
    find r'.entries k = find r.entries k := by
  obtain ⟨e, he⟩ := Option.isSome_iff_exists.mp (find_isSome.mpr hk)
  have hkey := find_key he
  rw [he, ← hkey]
  exact find_of_mem r'.nodup (h.entries.subset (find_mem he))

theorem length_without {es : List (Entry K V)} (hn : (keysOf es).Nodup) (hk : k ∈ keysOf es) :
    (without es k).length + 1 = es.length := by
  obtain ⟨es₁, e, es₂, hs, -, -, hw⟩ := exists_split hn hk
  rw [hw, hs]
  simp only [List.length_append, List.length_cons]
  omega

theorem Included.kept (h : Included r r') (k : K) : (r.kept k).Sublist (r'.kept k) ∧
    ((r.kept k).length + 1 = r.cap ∨ (r.kept k).length = (r'.kept k).length) := by
  have hp := r.pos
  have hcap := h.capacity
  unfold Recency.kept
  by_cases hk : k ∈ r.keys
  · have hk' := h.keys hk
    have hl := length_without r.nodup hk
    have hl' := length_without r'.nodup hk'
    have hf := h.full
    rw [if_pos hk, if_pos hk']
    refine ⟨h.entries.filter _, ?_⟩
    omega
  · rw [if_neg hk]
    by_cases hk' : k ∈ r'.keys
    · -- the larger cache replaces its entry, and the smaller one drops its oldest
      have hfull := h.full_of_notMem hk hk'
      rw [if_pos hk', if_pos hfull]
      constructor
      · have hw : without r.entries k = r.entries := without_of_notMem hk
        have hsub : (without r.entries k).Sublist (without r'.entries k) := h.entries.filter _
        rw [hw] at hsub
        exact (List.tail_sublist _).trans hsub
      · left
        rw [List.length_tail]
        omega
    · rw [if_neg hk']
      by_cases hfull : r.entries.length = r.cap
      · rw [if_pos hfull]
        constructor
        · split_ifs
          · exact h.entries.tail
          · exact (List.tail_sublist _).trans h.entries
        · left
          rw [List.length_tail]
          omega
      · have hsame := h.eq_of_room hfull
        have hb := r.bounded
        have hroom : r'.entries.length ≠ r'.cap := by
          rw [← hsame]
          omega
        rw [if_neg hfull, if_neg hroom, hsame]
        exact ⟨List.Sublist.refl _, Or.inr rfl⟩

theorem Included.set (h : Included r r') (k : K) (v : V) : Included (r.set k v) (r'.set k v) := by
  obtain ⟨hsub, hl⟩ := h.kept k
  refine ⟨h.capacity, hsub.append_right _, ?_⟩
  simp only [Recency.set, List.length_append, List.length_singleton]
  omega

theorem length_promote (hk : k ∈ r.keys) : (r.promote k).entries.length = r.entries.length := by
  obtain ⟨e, he⟩ := Option.isSome_iff_exists.mp (find_isSome.mpr hk)
  have hl := length_without r.nodup hk
  simp only [promote, he, Option.toList_some, List.length_append, List.length_singleton]
  exact hl

theorem Included.promote (h : Included r r') (hk : k ∈ r.keys) :
    Included (r.promote k) (r'.promote k) := by
  refine ⟨h.capacity, ?_, ?_⟩
  · have hw : (without r.entries k).Sublist (without r'.entries k) := h.entries.filter _
    simp only [Recency.promote, h.find_eq hk]
    exact hw.append_right _
  · rw [length_promote hk, length_promote (h.keys hk)]
    exact h.full

/-- A key that only the larger cache holds may move there. -/
theorem Included.promote_right (h : Included r r') (hk : k ∉ r.keys) (hk' : k ∈ r'.keys) :
    Included r (r'.promote k) := by
  refine ⟨h.capacity, ?_, Or.inl (h.full_of_notMem hk hk')⟩
  have hw : without r.entries k = r.entries := without_of_notMem hk
  have hsub : (without r.entries k).Sublist (without r'.entries k) := h.entries.filter _
  rw [hw] at hsub
  exact hsub.trans (List.sublist_append_left _ _)

end Included
end Recency

namespace Cache
variable [DecidableEq K]

/-- What a client sees of an access: the value of a hit. -/
def serve (c : Cache K V) : Access K V → Option (Option V × Cache K V)
  | .set k v => some (none, c.set k v)
  | .read k => if c.hasKey k then (c.get k).map fun o => (some o.1, o.2) else some (none, c)

/-- Everything that the smaller cache answers with, the larger one answers with. -/
def HitsToo (hit hit' : Option V) : Prop := ∀ v, hit = some v → hit' = some v

section Serve
variable {c c' : Cache K V} {k : K}

theorem serve_hit (hk : k ∈ c.spec.keys) : ∃ e c₁, find c.entries k = some e ∧
    c.serve (.read k) = some (some e.val, c₁) ∧ c₁.spec = c.spec.promote k := by
  obtain ⟨e, he⟩ := Option.isSome_iff_exists.mp (find_isSome.mpr hk)
  obtain ⟨c₁, hget, -⟩ := c.get_of_find k he
  refine ⟨e, c₁, he, ?_, c.spec_of_get hget⟩
  rw [serve, if_pos ((c.hasKey_iff k).mpr hk), hget]
  rfl

theorem serve_miss (hk : k ∉ c.spec.keys) : c.serve (.read k) = some (none, c) := by
  unfold serve
  exact if_neg fun h => hk ((c.hasKey_iff k).mp h)

theorem serve_included (h : c.spec.Included c'.spec) (a : Access K V) : ∃ hit c₁ hit' c₁',
    c.serve a = some (hit, c₁) ∧ c'.serve a = some (hit', c₁') ∧ c₁.spec.Included c₁'.spec ∧
      HitsToo hit hit' := by
  cases a with
  | set k v => exact ⟨none, c.set k v, none, c'.set k v, rfl, rfl, h.set k v, nofun⟩
  | read k =>
    by_cases hk : k ∈ c.spec.keys
    · obtain ⟨e, c₁, he, hs, hc₁⟩ := serve_hit hk
      obtain ⟨e', c₁', he', hs', hc₁'⟩ := serve_hit (h.keys hk)
      have hee : some e' = some e := he'.symm.trans ((h.find_eq hk).trans he)
      obtain rfl := Option.some.inj hee
      refine ⟨_, c₁, _, c₁', hs, hs', ?_, fun v hv => hv⟩
      rw [hc₁, hc₁']
      exact h.promote hk
    · by_cases hk' : k ∈ c'.spec.keys
      · obtain ⟨e', c₁', -, hs', hc₁'⟩ := serve_hit hk'
        refine ⟨none, c, _, c₁', serve_miss hk, hs', ?_, nofun⟩
        rw [hc₁']
        exact h.promote_right hk hk'
      · exact ⟨none, c, none, c', serve_miss hk, serve_miss hk', h, nofun⟩

end Serve

/-- After every sequence of accesses to two fresh caches. -/
theorem included_of_serve [Inhabited K] [Inhabited V] {cap cap' : ℕ} (hcap : 1 ≤ cap)
    (hle : cap ≤ cap') (accesses : List (Access K V)) : ∃ hits small hits' large,
      run serve (new cap hcap) accesses = some (hits, small) ∧
      run serve (new cap' (hcap.trans hle)) accesses = some (hits', large) ∧
      (small.entries.map fun e => (e.key, e.val)).Sublist
        (large.entries.map fun e => (e.key, e.val)) ∧
      List.Forall₂ HitsToo hits hits' := by
  have hnew : (new cap hcap : Cache K V).spec.Included (new cap' (hcap.trans hle)).spec :=
    ⟨hle, List.Sublist.refl _, Or.inr rfl⟩
  obtain ⟨hits, small, hits', large, hr, hr', h, hq⟩ :=
    run_related (R := fun (c c' : Cache K V) => c.spec.Included c'.spec)
      (fun _ _ a h _ => serve_included h a) hnew (allowed_trivial _ accesses)
  exact ⟨hits, small, hits', large, hr, hr', h.entries.map _, hq⟩

/-- A cache of two entries keeps the hit that a cache of one has lost. -/
theorem included_one_two : ∃ hits small hits' large,
    run serve (new 1 (Nat.le_refl 1) : Cache ℕ ℕ) [.set 1 10, .set 2 20, .read 1, .read 2] =
      some (hits, small) ∧
    run serve (new 2 (Nat.le_succ 1)) [.set 1 10, .set 2 20, .read 1, .read 2] =
      some (hits', large) ∧
    (small.entries.map fun e => (e.key, e.val)).Sublist
      (large.entries.map fun e => (e.key, e.val)) ∧
    List.Forall₂ HitsToo hits hits' :=
  included_of_serve (Nat.le_refl 1) (Nat.le_succ 1) _

end Cache
end DCache.LRU
