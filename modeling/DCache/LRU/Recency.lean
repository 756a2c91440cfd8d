import DCache.LRU.Pointers
import Mathlib.Data.List.Basic

/-! The abstract cache: a bounded list of entries with distinct keys, ordered from the least to
the most recently used. -/
namespace DCache.LRU

variable {K V : Type}

/-- The keys of a list of entries, in its order. -/
def keysOf (es : List (Entry K V)) : List K := es.map Entry.key

@[simp] theorem keysOf_nil : keysOf ([] : List (Entry K V)) = [] := rfl

@[simp] theorem keysOf_cons (e : Entry K V) (es : List (Entry K V)) :
    keysOf (e :: es) = e.key :: keysOf es := rfl

@[simp] theorem keysOf_append (es es' : List (Entry K V)) :
    keysOf (es ++ es') = keysOf es ++ keysOf es' := List.map_append

theorem nodup_concat {es : List (Entry K V)} {e : Entry K V} (hn : (keysOf es).Nodup)
    (he : e.key ∉ keysOf es) : (keysOf (es ++ [e])).Nodup := by
  rw [keysOf_append]
  exact List.nodup_append'.mpr ⟨hn, by simp, by simpa using he⟩

variable [DecidableEq K]

/-- The entry of `k`, if there is one. -/
def find (es : List (Entry K V)) (k : K) : Option (Entry K V) := es.find? (fun e => e.key = k)

def without (es : List (Entry K V)) (k : K) : List (Entry K V) := es.filter (fun e => e.key ≠ k)

def mark (es : List (Entry K V)) (k : K) (b : Bool) : List (Entry K V) :=
  es.map (fun e => if e.key = k then { e with dirty := b } else e)

@[simp] theorem keysOf_mark (es : List (Entry K V)) (k : K) (b : Bool) :
    keysOf (mark es k b) = keysOf es := by
  simp only [keysOf, mark, List.map_map]
  refine List.map_congr_left fun e _ => ?_
  simp only [Function.comp_apply]
  split_ifs <;> rfl

@[simp] theorem length_mark (es : List (Entry K V)) (k : K) (b : Bool) :
    (mark es k b).length = es.length := List.length_map _

theorem mark_of_notMem {es : List (Entry K V)} {k : K} (hk : k ∉ keysOf es) (b : Bool) :
    mark es k b = es := by
  rw [mark, List.map_congr_left (g := id), List.map_id]
  intro e he
  rw [if_neg]
  · rfl
  · rintro rfl
    exact hk (List.mem_map_of_mem he)

theorem keysOf_without (es : List (Entry K V)) (k : K) :
    keysOf (without es k) = (keysOf es).filter (fun k' => k' ≠ k) := by
  simp only [keysOf, without, List.filter_map]
  rfl

@[simp] theorem notMem_keysOf_without (es : List (Entry K V)) (k : K) :
    k ∉ keysOf (without es k) := by
  rw [keysOf_without]
  simp

theorem without_of_notMem {es : List (Entry K V)} {k : K} (hk : k ∉ keysOf es) :
    without es k = es := by
  refine List.filter_eq_self.mpr fun e he => ?_
  simp only [decide_eq_true_eq]
  rintro rfl
  exact hk (List.mem_map_of_mem he)

/-- Where the keys are distinct, the entry of a present key splits the list. -/
theorem exists_split {es : List (Entry K V)} {k : K} (hn : (keysOf es).Nodup)
    (hk : k ∈ keysOf es) : ∃ es₁ e es₂, es = es₁ ++ e :: es₂ ∧ e.key = k ∧
      find es k = some e ∧ without es k = es₁ ++ es₂ := by
  obtain ⟨e, he, rfl⟩ := List.mem_map.mp hk
  obtain ⟨es₁, es₂, rfl⟩ := List.append_of_mem he
  simp only [keysOf_append, keysOf_cons, List.nodup_append, List.nodup_cons] at hn
  obtain ⟨-, ⟨h₂, -⟩, hd⟩ := hn
  have h₁ : e.key ∉ keysOf es₁ := fun h => hd _ h _ (by simp) rfl
  refine ⟨es₁, e, es₂, rfl, rfl, ?_, ?_⟩
  · have hnone : es₁.find? (fun e' => decide (e'.key = e.key)) = none := by
      refine List.find?_eq_none.mpr fun x hx hxe => h₁ ?_
      rw [← of_decide_eq_true hxe]
      exact List.mem_map_of_mem hx
    simp [find, List.find?_append, hnone]
  · have e₁ : es₁.filter (fun e' => e'.key ≠ e.key) = es₁ := without_of_notMem h₁
    have e₂ : es₂.filter (fun e' => e'.key ≠ e.key) = es₂ := without_of_notMem h₂
    rw [without, List.filter_append, e₁, List.filter_cons_of_neg (by simp), e₂]

theorem find_eq_none {es : List (Entry K V)} {k : K} : find es k = none ↔ k ∉ keysOf es := by
  simp [find, keysOf, List.find?_eq_none]

theorem find_isSome {es : List (Entry K V)} {k : K} :
    (find es k).isSome = true ↔ k ∈ keysOf es := by
  rw [Option.isSome_iff_ne_none, ne_eq, find_eq_none, not_not]

theorem find_key {es : List (Entry K V)} {k : K} {e : Entry K V} (h : find es k = some e) :
    e.key = k := by
  simpa using List.find?_some h

theorem find_mem {es : List (Entry K V)} {k : K} {e : Entry K V} (h : find es k = some e) :
    e ∈ es := List.mem_of_find?_eq_some h

theorem find_append (es es' : List (Entry K V)) (k : K) :
    find (es ++ es') k = (find es k).or (find es' k) := List.find?_append

@[simp] theorem find_without_self (es : List (Entry K V)) (k : K) :
    find (without es k) k = none := find_eq_none.mpr (notMem_keysOf_without es k)

theorem find_without_of_ne (es : List (Entry K V)) {k k' : K} (h : k' ≠ k) :
    find (without es k) k' = find es k' := by
  simp only [find, without, List.find?_filter]
  congr 1
  funext e
  by_cases he : e.key = k'
  · simp [he, h]
  · simp [he]

theorem find_mark (es : List (Entry K V)) (k k' : K) (b : Bool) :
    find (mark es k b) k' =
      (find es k').map (fun e => if k' = k then { e with dirty := b } else e) := by
  simp only [find, mark, List.find?_map]
  have hp : ((fun e : Entry K V => decide (e.key = k')) ∘
      (fun e => if e.key = k then { e with dirty := b } else e)) =
      fun e => decide (e.key = k') := by
    funext e
    simp only [Function.comp_apply]
    split_ifs <;> rfl
  rw [hp]
  cases he : es.find? (fun e => decide (e.key = k')) with
  | none => rfl
  | some e =>
    have hk : e.key = k' := by simpa using List.find?_some he
    simp [hk]

theorem find_of_mem {es : List (Entry K V)} (hn : (keysOf es).Nodup) {e : Entry K V}
    (he : e ∈ es) : find es e.key = some e := by
  obtain ⟨es₁, e', es₂, hs, hk, hf, -⟩ := exists_split hn (List.mem_map_of_mem he)
  rw [hf]
  have hm := find_mem hf
  exact congrArg some (List.inj_on_of_nodup_map hn hm he hk)

/-- A cache content: at most `cap` entries with distinct keys. -/
structure Recency (K V : Type) where
  cap : ℕ
  entries : List (Entry K V)
  pos : 1 ≤ cap
  nodup : (keysOf entries).Nodup
  bounded : entries.length ≤ cap

namespace Recency

def empty (cap : ℕ) (hcap : 1 ≤ cap) : Recency K V := ⟨cap, [], hcap, by simp, by simp⟩

def keys (r : Recency K V) : List K := keysOf r.entries

def hasKey (r : Recency K V) (k : K) : Bool := decide (k ∈ r.keys)

def isDirty (r : Recency K V) (k : K) : Bool := (find r.entries k).any Entry.dirty

/-- What `set` keeps: everything but the entry it replaces, or but the oldest entry of a full
cache. -/
def kept (r : Recency K V) (k : K) : List (Entry K V) :=
  if k ∈ r.keys then without r.entries k
  else if r.entries.length = r.cap then r.entries.tail else r.entries

theorem keysOf_kept_sublist (r : Recency K V) (k : K) :
    (keysOf (r.kept k)).Sublist (keysOf r.entries) := by
  unfold kept
  split_ifs
  · exact List.filter_sublist.map _
  · exact (List.tail_sublist _).map _
  · exact List.Sublist.refl _

theorem kept_subset (r : Recency K V) (k : K) : r.kept k ⊆ r.entries := by
  unfold kept
  split_ifs
  · exact List.filter_sublist.subset
  · exact List.tail_subset _
  · exact List.Subset.refl _

omit [DecidableEq K] in
theorem length_keys (r : Recency K V) : r.keys.length = r.entries.length := List.length_map _

theorem keysOf_kept (r : Recency K V) (k : K) : keysOf (r.kept k) =
    if k ∈ r.keys then r.keys.filter (fun k' => k' ≠ k)
      else if r.keys.length = r.cap then r.keys.tail else r.keys := by
  unfold kept
  rw [length_keys]
  split_ifs
  · exact keysOf_without _ _
  · exact List.map_tail
  · rfl

/-- What `set` drops of the other keys it drops for want of room. -/
theorem find_kept (r : Recency K V) {k k' : K} (h : k' ≠ k) :
    find (r.kept k) k' = find r.entries k' ∨
      k' ∉ keysOf (r.kept k) ∧ r.entries.length = r.cap := by
  unfold kept
  split_ifs with hk hl
  · exact Or.inl (find_without_of_ne _ h)
  · cases hes : r.entries with
    | nil => exact Or.inl rfl
    | cons e es =>
      by_cases he : e.key = k'
      · have hn := r.nodup
        rw [hes, keysOf_cons, List.nodup_cons, he] at hn
        exact Or.inr ⟨hn.1, hes ▸ hl⟩
      · exact Or.inl (by simp [find, he])
  · exact Or.inl rfl

theorem notMem_kept (r : Recency K V) (k : K) : k ∉ keysOf (r.kept k) := by
  by_cases hk : k ∈ r.keys
  · rw [kept, if_pos hk]
    exact notMem_keysOf_without _ _
  · exact fun h => hk ((r.keysOf_kept_sublist k).subset h)

theorem length_kept (r : Recency K V) (k : K) : (r.kept k).length < r.cap := by
  have hb := r.bounded
  have hp := r.pos
  by_cases hk : k ∈ r.keys
  · obtain ⟨es₁, e, es₂, hs, -, -, hw⟩ := exists_split r.nodup hk
    rw [kept, if_pos hk, hw]
    rw [hs] at hb
    simp only [List.length_append, List.length_cons] at hb ⊢
    omega
  · rw [kept, if_neg hk]
    split_ifs with hl
    · rw [List.length_tail]; omega
    · omega

def set (r : Recency K V) (k : K) (v : V) : Recency K V where
  cap := r.cap
  entries := r.kept k ++ [⟨k, v, false⟩]
  pos := r.pos
  nodup := nodup_concat (r.nodup.sublist (r.keysOf_kept_sublist k)) (r.notMem_kept k)
  bounded := by
    have := r.length_kept k
    simp only [List.length_append, List.length_singleton]
    omega

/-- A full cache stays full. -/
theorem length_set (r : Recency K V) (hl : r.entries.length = r.cap) (k : K) (v : V) :
    (r.set k v).entries.length = r.cap := by
  have hp := r.pos
  have hkept : (r.kept k).length + 1 = r.cap := by
    by_cases hk : k ∈ r.keys
    · obtain ⟨es₁, e, es₂, hs, -, -, hw⟩ := exists_split r.nodup hk
      rw [kept, if_pos hk, hw, ← hl, hs]
      simp only [List.length_append, List.length_cons]
      omega
    · rw [kept, if_neg hk, if_pos hl, List.length_tail]
      omega
  rw [← hkept]
  exact List.length_append

theorem find_set_of_ne (r : Recency K V) {k k' : K} (v : V) (h : k' ≠ k) :
    find (r.set k v).entries k' = find (r.kept k) k' := by
  have hlast : find [(⟨k, v, false⟩ : Entry K V)] k' = none := by simp [find, Ne.symm h]
  calc find (r.kept k ++ [⟨k, v, false⟩]) k' = (find (r.kept k) k').or none := by
        rw [find_append, hlast]
    _ = find (r.kept k) k' := Option.or_none

/-- Move the entry of `k` to the recent end. -/
def promote (r : Recency K V) (k : K) : Recency K V where
  cap := r.cap
  entries := without r.entries k ++ (find r.entries k).toList
  pos := r.pos
  nodup := by
    cases hf : find r.entries k with
    | none =>
      rw [without_of_notMem (find_eq_none.mp hf)]
      simpa using r.nodup
    | some e =>
      have hn : (keysOf (without r.entries k)).Nodup := by
        rw [keysOf_without]
        exact r.nodup.filter _
      apply nodup_concat hn
      rw [find_key hf]
      exact notMem_keysOf_without _ _
  bounded := by
    by_cases hk : k ∈ r.keys
    · obtain ⟨es₁, e, es₂, hs, -, hf, hw⟩ := exists_split r.nodup hk
      have hb := r.bounded
      rw [hw, hf]
      rw [hs] at hb
      simp only [List.length_append, List.length_cons, Option.toList_some,
        List.length_nil] at hb ⊢
      omega
    · rw [without_of_notMem hk, find_eq_none.mpr hk]
      simpa using r.bounded

def get (r : Recency K V) (k : K) : Option (V × Recency K V) :=
  (find r.entries k).map (fun e => (e.val, r.promote k))

def writeDirty (r : Recency K V) (k : K) (b : Bool) : Recency K V where
  cap := r.cap
  entries := mark r.entries k b
  pos := r.pos
  nodup := by rw [keysOf_mark]; exact r.nodup
  bounded := by rw [length_mark]; exact r.bounded

end Recency
end DCache.LRU
