import DCache.LRU.Recency
import DCache.Lib.Recent

/-! A cache that is filled with a list of pairs, by writes that a dirty entry refuses. -/
namespace DCache.LRU
open DCache.Lib

variable {K V : Type}

/-- Lists whose elements are told apart by `f`, and have the same images in the same order. -/
theorem eq_of_map_eq {α β : Type*} {f : α → β} {l l' : List α} (hn : (l'.map f).Nodup)
    (h : l.map f = l'.map f) (hs : l ⊆ l') : l = l' := by
  have hlen : l.length = l'.length := by simpa using congrArg List.length h
  refine List.ext_getElem hlen fun i hi hi' => ?_
  refine List.inj_on_of_nodup_map hn (hs (List.getElem_mem hi)) (List.getElem_mem hi') ?_
  have hi₂ := congrArg (fun l => l[i]?) h
  simpa [hi, hi'] using hi₂

variable [DecidableEq K]

namespace Recency

/-- A write that a dirty entry refuses. -/
def store (r : Recency K V) (k : K) (v : V) : Recency K V := if r.isDirty k then r else r.set k v

def storeAll (r : Recency K V) (ps : List (K × V)) : Recency K V :=
  ps.foldl (fun r p => r.store p.1 p.2) r

/-- No write of these keys, in their order, finds the dirty entry of its key: there are enough
other keys behind that entry and before the write to drop it. -/
def Yields (r : Recency K V) (ks : List K) : Prop :=
  ∀ e ∈ r.entries, e.dirty = true → ∀ l l', ks = l ++ e.key :: l' →
    r.cap ≤ (afterLast e.key (r.keys ++ l)).dedup.length

theorem storeAll_append (r : Recency K V) (ps ps' : List (K × V)) :
    r.storeAll (ps ++ ps') = (r.storeAll ps).storeAll ps' := List.foldl_append

theorem storeAll_cons (r : Recency K V) (p : K × V) (ps : List (K × V)) :
    r.storeAll (p :: ps) = (r.store p.1 p.2).storeAll ps := rfl

theorem isDirty_iff (r : Recency K V) {k : K} :
    r.isDirty k = true ↔ ∃ e ∈ r.entries, e.key = k ∧ e.dirty = true := by
  rw [isDirty, Option.any_eq_true]
  constructor
  · rintro ⟨e, he, hd⟩
    exact ⟨e, find_mem he, find_key he, hd⟩
  · rintro ⟨e, he, rfl, hd⟩
    exact ⟨e, find_of_mem r.nodup he, hd⟩

theorem not_isDirty_of_clean (r : Recency K V) (h : ∀ e ∈ r.entries, e.dirty = false) (k : K) :
    ¬ r.isDirty k = true := by
  rw [isDirty_iff]
  rintro ⟨e, he, -, hd⟩
  rw [h e he] at hd
  cases hd

/-- What a cache holds after writes of `ps` of which none was refused. -/
structure Filled (r : Recency K V) (ps : List (K × V)) (r' : Recency K V) : Prop where
  capacity : r'.cap = r.cap
  order : r'.keys = recent r.cap (r.keys ++ ps.map Prod.fst)
  stored : ∀ e ∈ r'.entries, e.key ∈ ps.map Prod.fst → (e.key, e.val) ∈ ps ∧ e.dirty = false
  old : ∀ e ∈ r'.entries, e.key ∉ ps.map Prod.fst → e ∈ r.entries

section Filled
variable {r r' : Recency K V} {ps : List (K × V)}

theorem Filled.nil (r : Recency K V) : Filled r [] r where
  capacity := rfl
  order := by
    have hlen : r.keys.length ≤ r.cap := r.length_keys ▸ r.bounded
    have hn : r.keys.Nodup := r.nodup
    rw [List.map_nil, List.append_nil, recent_of_nodup hn hlen]
  stored _ _ h := absurd h List.not_mem_nil
  old _ he _ := he

theorem Filled.set (h : Filled r ps r') (k : K) (v : V) : Filled r (ps ++ [(k, v)]) (r'.set k v) := by
  have hkept : ∀ e ∈ r'.kept k, e.key ≠ k := by
    rintro e he rfl
    exact r'.notMem_kept e.key (List.mem_map_of_mem he)
  refine ⟨h.capacity, ?_, fun e he hk => ?_, fun e he hk => ?_⟩
  · have hkeys := r'.keysOf_kept k
    rw [h.order, h.capacity] at hkeys
    rw [List.map_append, List.map_singleton, ← List.append_assoc, recent_concat r.pos, ← hkeys]
    exact keysOf_append _ _
  · rcases List.mem_append.mp he with he | he
    · rw [List.map_append, List.mem_append] at hk
      have hmem : e.key ∈ ps.map Prod.fst := hk.resolve_right fun h => hkept e he (by simpa using h)
      obtain ⟨hps, hd⟩ := h.stored e (r'.kept_subset k he) hmem
      exact ⟨List.mem_append_left _ hps, hd⟩
    · obtain rfl := List.mem_singleton.mp he
      exact ⟨List.mem_append_right _ (List.mem_singleton.mpr rfl), rfl⟩
  · rw [List.map_append, List.mem_append, not_or] at hk
    rcases List.mem_append.mp he with he | he
    · exact h.old e (r'.kept_subset k he) hk.1
    · obtain rfl := List.mem_singleton.mp he
      exact absurd (List.mem_singleton.mpr rfl) hk.2

/-- An entry that the writes have not replaced is an entry of before. -/
theorem Filled.exists_entry (h : Filled r ps r') {k : K} (hk : k ∈ r'.keys)
    (hps : k ∉ ps.map Prod.fst) : ∃ e ∈ r'.entries, e.key = k ∧ e ∈ r.entries := by
  obtain ⟨e, he, rfl⟩ := List.mem_map.mp hk
  exact ⟨e, he, rfl, h.old e he hps⟩

theorem Filled.mem_keys_iff (h : Filled r ps r') {k : K} (hr : k ∈ r.keys) :
    k ∈ r'.keys ↔ (afterLast k (r.keys ++ ps.map Prod.fst)).dedup.length < r.cap := by
  rw [h.order, mem_recent, and_iff_right (List.mem_append_left _ hr)]

/-- Either no write is refused, or there is a first one that is. -/
theorem filled_or_refused (r : Recency K V) (ps : List (K × V)) :
    Filled r ps (r.storeAll ps) ∨ ∃ ps₁ p ps₂, ps = ps₁ ++ p :: ps₂ ∧
      Filled r ps₁ (r.storeAll ps₁) ∧ (r.storeAll ps₁).isDirty p.1 = true := by
  induction ps using List.reverseRecOn with
  | nil => exact Or.inl (.nil r)
  | append_singleton ps p ih =>
    rcases ih with hf | ⟨ps₁, q, ps₂, rfl, hf, hd⟩
    · by_cases hd : (r.storeAll ps).isDirty p.1 = true
      · exact Or.inr ⟨ps, p, [], rfl, hf, hd⟩
      · left
        rw [storeAll_append, storeAll_cons, store, if_neg hd]
        exact hf.set p.1 p.2
    · exact Or.inr ⟨ps₁, q, ps₂ ++ [p], by simp, hf, hd⟩

theorem filled_of_yields (hn : (ps.map Prod.fst).Nodup) (hy : r.Yields (ps.map Prod.fst)) :
    Filled r ps (r.storeAll ps) := by
  rcases r.filled_or_refused ps with hf | ⟨ps₁, p, ps₂, rfl, hf, hd⟩
  · exact hf
  · rw [List.map_append, List.map_cons] at hn hy
    have hp : p.1 ∉ ps₁.map Prod.fst := fun h =>
      (List.nodup_append'.mp hn).2.2 h List.mem_cons_self
    obtain ⟨e, he, hk, hdirty⟩ := ((r.storeAll ps₁).isDirty_iff).mp hd
    have hold : e ∈ r.entries := hf.old e he (hk ▸ hp)
    have hlt := (hf.mem_keys_iff (List.mem_map_of_mem hold)).mp (List.mem_map_of_mem he)
    exact absurd (hy e hold hdirty _ _ (by rw [hk])) (by omega)

/-- Writes make no entry dirty. -/
theorem filled_of_clean (h : ∀ e ∈ r.entries, e.dirty = false) : Filled r ps (r.storeAll ps) := by
  rcases r.filled_or_refused ps with hf | ⟨ps₁, p, ps₂, rfl, hf, hd⟩
  · exact hf
  · obtain ⟨e, he, -, hdirty⟩ := ((r.storeAll ps₁).isDirty_iff).mp hd
    have hclean : e.dirty = false := by
      by_cases hk : e.key ∈ ps₁.map Prod.fst
      · exact (hf.stored e he hk).2
      · exact h e (hf.old e he hk)
    rw [hclean] at hdirty
    cases hdirty

theorem exists_refused_of_not_yields (hn : (ps.map Prod.fst).Nodup)
    (hy : ¬ r.Yields (ps.map Prod.fst)) :
    ∃ ps₁ p ps₂, ps = ps₁ ++ p :: ps₂ ∧ (r.storeAll ps₁).isDirty p.1 = true := by
  simp only [Yields, not_forall, not_le] at hy
  obtain ⟨e, he, hdirty, l, l', hsplit, hlt⟩ := hy
  obtain ⟨ps₁, rest, rfl, rfl, hrest⟩ := List.map_eq_append_iff.mp hsplit
  obtain ⟨p, ps₂, rfl, hk, rfl⟩ := List.map_eq_cons_iff.mp hrest
  rcases r.filled_or_refused ps₁ with hf | ⟨ps₃, q, ps₄, rfl, -, hd⟩
  · have hp : e.key ∉ ps₁.map Prod.fst := fun h => by
      rw [List.map_append, List.map_cons, hk] at hn
      exact (List.nodup_append'.mp hn).2.2 h List.mem_cons_self
    have hmem := (hf.mem_keys_iff (List.mem_map_of_mem he)).mpr hlt
    obtain ⟨e', he', hk', hold⟩ := hf.exists_entry hmem hp
    obtain rfl := List.inj_on_of_nodup_map r.nodup hold he hk'
    exact ⟨ps₁, p, ps₂, rfl, ((r.storeAll ps₁).isDirty_iff).mpr ⟨e', he', hk.symm, hdirty⟩⟩
  · exact ⟨ps₃, q, ps₄ ++ p :: ps₂, by simp, hd⟩

end Filled

section Refused
variable {r : Recency K V} {k k' : K} {v : V}

/-- The entry of `k` is dirty, or it has been dropped for want of room. -/
def Stuck (r : Recency K V) (k : K) : Prop :=
  r.isDirty k = true ∨ k ∉ r.keys ∧ r.entries.length = r.cap

theorem Stuck.store (h : r.Stuck k) (hk : k ≠ k') : (r.store k' v).Stuck k := by
  rw [Recency.store]
  split_ifs with hd
  · exact h
  · have hfind := r.find_set_of_ne v hk
    rcases h with hdirty | ⟨hmem, hfull⟩
    · rcases r.find_kept hk with hkept | ⟨hkept, hfull⟩
      · apply Or.inl
        rw [isDirty, hfind, hkept]
        exact hdirty
      · exact Or.inr ⟨by rwa [keys, ← find_eq_none, hfind, find_eq_none], r.length_set hfull k' v⟩
    · refine Or.inr ⟨?_, r.length_set hfull k' v⟩
      rw [keys, ← find_eq_none, hfind, find_eq_none]
      exact fun hkept => hmem ((r.keysOf_kept_sublist k').subset hkept)

theorem Stuck.storeAll (h : r.Stuck k) {ps : List (K × V)} (hk : k ∉ ps.map Prod.fst) :
    (r.storeAll ps).Stuck k := by
  induction ps generalizing r with
  | nil => exact h
  | cons p ps ih =>
    rw [List.map_cons, List.mem_cons, not_or] at hk
    exact ih (h.store hk.1) hk.2

end Refused

theorem cap_store (r : Recency K V) (k : K) (v : V) : (r.store k v).cap = r.cap := by
  unfold store
  split_ifs <;> rfl

theorem cap_storeAll (r : Recency K V) (ps : List (K × V)) : (r.storeAll ps).cap = r.cap := by
  induction ps generalizing r with
  | nil => rfl
  | cons p ps ih => exact (ih _).trans (r.cap_store _ _)

/-- A dirty entry stays as long as the cache does not fill up. -/
theorem isDirty_or_full_storeAll {r : Recency K V} {k : K}
    (h : r.isDirty k = true ∨ r.entries.length = r.cap) (ps : List (K × V)) :
    (r.storeAll ps).isDirty k = true ∨ (r.storeAll ps).entries.length = r.cap := by
  induction ps generalizing r with
  | nil => exact h
  | cons p ps ih =>
    rw [storeAll_cons, ← r.cap_store p.1 p.2]
    apply ih
    rw [cap_store, store]
    split_ifs with hd
    · exact h
    · rcases h with hdirty | hfull
      · have hk : k ≠ p.1 := by
          rintro rfl
          exact hd hdirty
        rcases r.find_kept hk with hkept | ⟨-, hfull⟩
        · left
          rw [isDirty, r.find_set_of_ne p.2 hk, hkept]
          exact hdirty
        · exact Or.inr (r.length_set hfull p.1 p.2)
      · exact Or.inr (r.length_set hfull p.1 p.2)

/-- A refused write leaves its key stuck to the end. -/
theorem stuck_of_refused {r : Recency K V} {ps₁ ps₂ : List (K × V)} {p : K × V}
    (hn : ((ps₁ ++ p :: ps₂).map Prod.fst).Nodup) (hd : (r.storeAll ps₁).isDirty p.1 = true) :
    (r.storeAll (ps₁ ++ p :: ps₂)).Stuck p.1 := by
  rw [List.map_append, List.map_cons, List.nodup_append', List.nodup_cons] at hn
  rw [storeAll_append, storeAll_cons, Recency.store, if_pos hd]
  exact Stuck.storeAll (Or.inl hd) hn.2.1.1

section Entries
variable {r : Recency K V} {ks : List K} {cs : List (Entry K V)} {v : V}
variable (hn : (keysOf cs).Nodup) (hclean : ∀ e ∈ cs, e.dirty = false) (hl : ks.length ≤ r.cap)

/-- The keys, each written with the same value. -/
def pairs (v : V) (ks : List K) : List (K × V) := ks.map fun k => (k, v)

omit [DecidableEq K] in
@[simp] theorem map_fst_pairs (v : V) (ks : List K) : (pairs v ks).map Prod.fst = ks := by
  rw [pairs, List.map_map]
  exact List.map_id ks

include hn hclean hl

/-- Where no write is refused, the cache holds `cs`, all of it written, if and only if the last
writes of the keys are those of `cs`, with its values, and nothing of before is left. -/
theorem entries_iff_of_filled (hf : Filled r (pairs v ks) (r.storeAll (pairs v ks))) :
    (r.storeAll (pairs v ks)).entries = cs ∧ keysOf cs ⊆ ks ↔
      ks.dedup = keysOf cs ∧ (∀ e ∈ cs, e.val = v) ∧ (cs.length = r.cap ∨ r.keys ⊆ keysOf cs) := by
  have hlen : ks.dedup.length ≤ r.cap := (List.dedup_sublist ks).length_le.trans hl
  have horder : keysOf (r.storeAll (pairs v ks)).entries = recent r.cap (r.keys ++ ks.dedup) := by
    rw [recent, List.dedup_append, List.dedup_idem, ← List.dedup_append]
    have h := hf.order
    rwa [map_fst_pairs] at h
  have hroom := recent_append_eq_iff (List.nodup_dedup ks) hlen r.keys
  have hval : ∀ e ∈ (r.storeAll (pairs v ks)).entries, e.key ∈ ks → e.val = v ∧ e.dirty = false := by
    intro e he hk
    obtain ⟨hmem, hd⟩ := hf.stored e he (by rwa [map_fst_pairs])
    obtain ⟨k, -, hpair⟩ := List.mem_map.mp hmem
    exact ⟨(Prod.mk.inj hpair).2.symm, hd⟩
  have hcs : (keysOf cs).length = cs.length := List.length_map _
  constructor
  · rintro ⟨rfl, hsub⟩
    have hsuffix : ks.dedup <:+ keysOf (r.storeAll (pairs v ks)).entries :=
      horder ▸ suffix_recent_append (List.nodup_dedup ks) hlen r.keys
    have hkeys := hsuffix.eq_of_length_le
      (hn.subperm fun k hk => List.mem_dedup.mpr (hsub hk)).length_le
    refine ⟨hkeys, fun e he => (hval e he (hsub (List.mem_map_of_mem he))).1, ?_⟩
    rw [← hcs, ← hkeys]
    exact hroom.mp (horder.symm.trans hkeys.symm)
  · rintro ⟨hkeys, hvals, hreplaced⟩
    rw [hkeys, hcs] at hroom
    rw [hkeys, hroom.mpr hreplaced] at horder
    have hsub : keysOf cs ⊆ ks := hkeys ▸ List.dedup_subset ks
    refine ⟨eq_of_map_eq (f := Entry.key) hn horder fun e he => ?_, hsub⟩
    have hk : e.key ∈ keysOf cs := horder ▸ List.mem_map_of_mem he
    obtain ⟨e', he', hkey⟩ := List.mem_map.mp hk
    obtain ⟨hv, hd⟩ := hval e he (hsub hk)
    obtain ⟨k, w, b⟩ := e
    obtain ⟨k', w', b'⟩ := e'
    obtain rfl : k' = k := hkey
    obtain rfl : w = v := hv
    obtain rfl : b = false := hd
    obtain rfl : w' = w := hvals _ he'
    obtain rfl : b' = false := hclean _ he'
    exact he'

omit [DecidableEq K] hclean in
/-- A full cache of keys that were all written has taken in each key once. -/
theorem nodup_of_full (hsub : keysOf cs ⊆ ks) (hfull : cs.length = r.cap) :
    ks.Nodup ∧ ks ⊆ keysOf cs := by
  have hcs : (keysOf cs).length = cs.length := List.length_map _
  have hperm : (keysOf cs).Perm ks := (hn.subperm hsub).perm_of_length_le (by omega)
  exact ⟨hperm.nodup_iff.mp hn, hperm.symm.subset⟩

/-- A refused write cannot end in a cache of clean entries that were all written. -/
theorem not_refused_of_entries (h : (r.storeAll (pairs v ks)).entries = cs) (hsub : keysOf cs ⊆ ks)
    {ps₁ ps₂ : List (K × V)} {p : K × V} (hsplit : pairs v ks = ps₁ ++ p :: ps₂) :
    ¬ (r.storeAll ps₁).isDirty p.1 = true := by
  intro hd
  have hnot := not_isDirty_of_clean (r.storeAll (pairs v ks)) (h ▸ hclean) p.1
  have hkeys : ks = (ps₁ ++ p :: ps₂).map Prod.fst := by rw [← hsplit, map_fst_pairs]
  have hend := isDirty_or_full_storeAll (Or.inl hd) (p :: ps₂)
  rw [← storeAll_append, ← hsplit, cap_storeAll, h] at hend
  obtain ⟨hnodup, hmem⟩ := nodup_of_full hn hl hsub (hend.resolve_left hnot)
  -- so the key is missing in the end, which has all keys that were written
  have hstuck := stuck_of_refused (hkeys ▸ hnodup) hd
  rw [← hsplit] at hstuck
  rcases hstuck with hdirty | ⟨hgone, -⟩
  · exact hnot hdirty
  · rw [keys, h] at hgone
    exact hgone (hmem (by rw [hkeys]; simp))

theorem filled_of_entries (h : (r.storeAll (pairs v ks)).entries = cs) (hsub : keysOf cs ⊆ ks) :
    Filled r (pairs v ks) (r.storeAll (pairs v ks)) := by
  rcases r.filled_or_refused (pairs v ks) with hf | ⟨ps₁, p, ps₂, hsplit, -, hd⟩
  · exact hf
  · exact absurd hd (not_refused_of_entries hn hclean hl h hsub hsplit)

theorem yields_of_entries (h : (r.storeAll (pairs v ks)).entries = cs) (hsub : keysOf cs ⊆ ks) :
    r.Yields (keysOf cs) := by
  have hf := filled_of_entries hn hclean hl h hsub
  have hkeys : ks.dedup = keysOf cs := ((entries_iff_of_filled hn hclean hl hf).mp ⟨h, hsub⟩).1
  have hbound : cs.length ≤ r.cap := by
    rw [← h, ← r.cap_storeAll (pairs v ks)]
    exact (r.storeAll (pairs v ks)).bounded
  rcases hbound.lt_or_eq with hlt | hfull
  · -- a cache with room left has dropped nothing
    intro e he hdirty
    have hstart : r.isDirty e.key = true := (r.isDirty_iff).mpr ⟨e, he, rfl, hdirty⟩
    rcases isDirty_or_full_storeAll (Or.inl hstart) (pairs v ks) with hd | hl'
    · exact absurd hd (not_isDirty_of_clean _ (h ▸ hclean) e.key)
    · rw [h] at hl'
      omega
  · obtain ⟨hnodup, -⟩ := nodup_of_full hn hl hsub hfull
    rw [← hkeys, hnodup.dedup]
    by_contra hy
    rw [← map_fst_pairs v ks] at hnodup hy
    obtain ⟨ps₁, p, ps₂, hsplit, hd⟩ := r.exists_refused_of_not_yields hnodup hy
    exact not_refused_of_entries hn hclean hl h hsub hsplit hd

omit hn hclean in
theorem filled_of_replaced (hkeys : ks.dedup = keysOf cs)
    (hreplaced : cs.length = r.cap ∨ r.keys ⊆ keysOf cs) (hy : r.Yields (keysOf cs)) :
    Filled r (pairs v ks) (r.storeAll (pairs v ks)) := by
  have hcs : (keysOf cs).length = cs.length := List.length_map _
  by_cases hnodup : ks.Nodup
  · rw [hnodup.dedup] at hkeys
    exact r.filled_of_yields (by rwa [map_fst_pairs]) (by rwa [map_fst_pairs, hkeys])
  · -- a key that is written twice leaves room, so no dirty entry could make way
    have hlt : cs.length < ks.length := by
      rw [← hcs, ← hkeys]
      refine (List.dedup_sublist ks).length_le.lt_of_ne fun hlen => hnodup ?_
      rw [← List.dedup_eq_self]
      exact (List.dedup_sublist ks).eq_of_length hlen
    have hsub : r.keys ⊆ keysOf cs := hreplaced.resolve_left (by omega)
    apply filled_of_clean
    intro e he
    by_contra hd
    obtain ⟨l, l', hsplit⟩ := List.append_of_mem (hsub (List.mem_map_of_mem he))
    have hcount := hy e he (by simpa using hd) l l' hsplit
    have hafter : (afterLast e.key (r.keys ++ l)).dedup ⊆ keysOf cs := by
      intro k hk
      have hk' : k ∈ r.keys ++ l := (List.rtakeWhile_suffix _ _).subset (List.mem_dedup.mp hk)
      rcases List.mem_append.mp hk' with hk' | hk'
      · exact hsub hk'
      · exact hsplit ▸ List.mem_append_left _ hk'
    have hle := ((List.nodup_dedup _).subperm hafter).length_le
    omega

/-- Writes of the keys `ks` leave a cache that holds `cs`, all of it written by them, if and only if
the last writes are those of `cs`, with its values, they fill the cache or replace all keys of
before, and no write of them is refused. -/
theorem storeAll_entries_iff :
    (r.storeAll (pairs v ks)).entries = cs ∧ keysOf cs ⊆ ks ↔
      ks.dedup = keysOf cs ∧ (∀ e ∈ cs, e.val = v) ∧
        (cs.length = r.cap ∨ r.keys ⊆ keysOf cs) ∧ r.Yields (keysOf cs) := by
  constructor
  · rintro ⟨h, hsub⟩
    have hf := filled_of_entries hn hclean hl h hsub
    obtain ⟨hkeys, hvals, hreplaced⟩ := (entries_iff_of_filled hn hclean hl hf).mp ⟨h, hsub⟩
    exact ⟨hkeys, hvals, hreplaced, yields_of_entries hn hclean hl h hsub⟩
  · rintro ⟨hkeys, hvals, hreplaced, hy⟩
    have hf : Filled r (pairs v ks) (r.storeAll (pairs v ks)) :=
      filled_of_replaced hl hkeys hreplaced hy
    exact (entries_iff_of_filled hn hclean hl hf).mpr ⟨hkeys, hvals, hreplaced⟩

end Entries
end Recency
end DCache.LRU
