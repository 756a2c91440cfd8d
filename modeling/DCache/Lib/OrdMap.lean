import Mathlib.Order.Basic
import Mathlib.Data.List.Pairwise
import Mathlib.Data.List.Basic
import Mathlib.Data.List.Sort

/-! Finite maps over an ordered key type, iterated in key order: the strictly sorted list of
their bindings. -/
namespace DCache.Lib

structure OrdMap (K V : Type) [LinearOrder K] where
  entries : List (K × V)
  sorted : entries.Pairwise (fun a b => a.1 < b.1)

namespace OrdMap
variable {K V W : Type} [LinearOrder K]

def empty : OrdMap K V := ⟨[], .nil⟩

def find? (m : OrdMap K V) (k : K) : Option V := (m.entries.find? (fun e => e.1 = k)).map Prod.snd

def contains (m : OrdMap K V) (k : K) : Bool := (m.find? k).isSome

def values (m : OrdMap K V) : List V := m.entries.map Prod.snd

def size (m : OrdMap K V) : ℕ := m.entries.length

def insertList (k : K) (v : V) : List (K × V) → List (K × V)
  | [] => [(k, v)]
  | e :: l =>
    if k < e.1 then (k, v) :: e :: l
    else if k = e.1 then (k, v) :: l
    else e :: insertList k v l

/-- The bindings below and above the key. -/
theorem insertList_split (k : K) (v : V) {l : List (K × V)}
    (h : l.Pairwise (fun a b => a.1 < b.1)) : ∃ l₁ l₂, insertList k v l = l₁ ++ (k, v) :: l₂ ∧
      (∀ e ∈ l₁, e.1 < k) ∧ (∀ e ∈ l₂, k < e.1) ∧
      (l = l₁ ++ l₂ ∨ ∃ v', l = l₁ ++ (k, v') :: l₂) := by
  induction l with
  | nil => exact ⟨[], [], rfl, nofun, nofun, Or.inl rfl⟩
  | cons e l ih =>
    obtain ⟨he, hl⟩ := List.pairwise_cons.mp h
    rw [insertList]
    split_ifs with h₁ h₂
    · refine ⟨[], e :: l, rfl, nofun, fun e' he' => ?_, Or.inl rfl⟩
      rcases List.mem_cons.mp he' with rfl | he'
      · exact h₁
      · exact h₁.trans (he e' he')
    · exact ⟨[], l, rfl, nofun, fun e' he' => h₂ ▸ he e' he', Or.inr ⟨e.2, by simp [h₂]⟩⟩
    · obtain ⟨l₁, l₂, hi, hlt, hgt, hs⟩ := ih hl
      refine ⟨e :: l₁, l₂, by rw [hi, List.cons_append], fun e' he' => ?_, hgt, ?_⟩
      · rcases List.mem_cons.mp he' with rfl | he'
        · exact lt_of_le_of_ne (not_lt.mp h₁) (Ne.symm h₂)
        · exact hlt e' he'
      · rcases hs with hs | ⟨v', hs⟩
        · exact Or.inl (by rw [hs, List.cons_append])
        · exact Or.inr ⟨v', by rw [hs, List.cons_append]⟩

private theorem pairwise_split {k : K} {v : V} {l₁ l₂ : List (K × V)}
    (hm : (l₁ ++ l₂).Pairwise (fun a b => a.1 < b.1)) (hlt : ∀ e ∈ l₁, e.1 < k)
    (hgt : ∀ e ∈ l₂, k < e.1) : (l₁ ++ (k, v) :: l₂).Pairwise (fun a b => a.1 < b.1) := by
  rw [List.pairwise_append] at hm
  rw [List.pairwise_append, List.pairwise_cons]
  refine ⟨hm.1, ⟨hgt, hm.2.1⟩, fun a ha b hb => ?_⟩
  rcases List.mem_cons.mp hb with rfl | hb
  · exact hlt a ha
  · exact hm.2.2 a ha b hb

/-- `m[k] = v` -/
def insert (m : OrdMap K V) (k : K) (v : V) : OrdMap K V where
  entries := insertList k v m.entries
  sorted := by
    obtain ⟨l₁, l₂, hi, hlt, hgt, hs⟩ := insertList_split k v m.sorted
    have hm := m.sorted
    rw [hi]
    rcases hs with hs | ⟨v', hs⟩
    · exact pairwise_split (hs ▸ hm) hlt hgt
    · refine pairwise_split ((hs ▸ hm).sublist ?_) hlt hgt
      exact (List.Sublist.refl l₁).append (List.sublist_cons_self _ _)

def erase (m : OrdMap K V) (k : K) : OrdMap K V :=
  ⟨m.entries.filter (fun e => e.1 ≠ k), m.sorted.filter _⟩

/-- `m.insert({k, v})`: a binding that is there stays. -/
def tryInsert (m : OrdMap K V) (k : K) (v : V) : OrdMap K V :=
  if m.contains k then m else m.insert k v

/-- `m[k]` as an operand: the binding of `k`, put in with a default value if there is none. -/
def index (m : OrdMap K V) (k : K) (default : V) : V × OrdMap K V :=
  ((m.find? k).getD default, m.tryInsert k default)

/-- The first binding at or above `k`, or the least of all: a look-up on a ring. -/
def ceil? (m : OrdMap K V) (k : K) : Option (K × V) :=
  (m.entries.find? (fun e => k ≤ e.1)).or m.entries.head?

/-- The first binding behind the key `after`, or the first of all: where an iterator goes. -/
def above? (m : OrdMap K V) (after : Option K) : Option (K × V) :=
  m.entries.find? (fun e => after.all (fun k => k < e.1))

def mapVal (f : V → W) (m : OrdMap K V) : OrdMap K W :=
  ⟨m.entries.map (fun e => (e.1, f e.2)), List.pairwise_map.mpr m.sorted⟩

section Lookup
variable (m : OrdMap K V) {k k' : K} {v v' : V}

theorem mem_entries : (k, v) ∈ m.entries ↔ m.find? k = some v := by
  obtain ⟨l, hl⟩ := m
  simp only [find?]
  induction l with
  | nil => simp
  | cons e l ih =>
    obtain ⟨he, hl⟩ := List.pairwise_cons.mp hl
    by_cases hk : e.1 = k
    · have hn : (k, v) ∉ l := fun hm => absurd (he (k, v) hm) (by simp [hk])
      simp only [List.mem_cons, hn, or_false, List.find?_cons_of_pos, hk, decide_true,
        Option.map_some, Option.some.injEq]
      constructor
      · rintro rfl; rfl
      · rintro rfl; exact Prod.ext hk.symm rfl
    · have hne : (k, v) ≠ e := fun h => hk (h ▸ rfl)
      simp only [List.mem_cons, hne, false_or]
      rw [ih hl, List.find?_cons_of_neg (by simpa using hk)]

theorem contains_iff : m.contains k = true ↔ ∃ v, m.find? k = some v := Option.isSome_iff_exists

theorem find?_eq_none_iff : m.find? k = none ↔ ∀ v, (k, v) ∉ m.entries := by
  simp only [mem_entries, Option.eq_none_iff_forall_ne_some, ne_eq]

/-- Two maps with the same look-ups are the same. -/
theorem ext_find? {m m' : OrdMap K V} (h : ∀ k, m.find? k = m'.find? k) : m = m' := by
  obtain ⟨l, hl⟩ := m
  obtain ⟨l', hl'⟩ := m'
  have hirr : Std.Irrefl (fun a b : K × V => a.1 < b.1) := ⟨fun a => lt_irrefl a.1⟩
  have hasymm : Std.Antisymm (fun a b : K × V => a.1 < b.1) :=
    ⟨fun a b h₁ h₂ => absurd h₁ (lt_asymm h₂)⟩
  have : l = l' := List.Pairwise.eq_of_mem_iff hl hl' fun ⟨k, v⟩ => by
    rw [mem_entries ⟨l, hl⟩, mem_entries ⟨l', hl'⟩, h]
  subst this
  rfl

theorem mem_values : v ∈ m.values ↔ ∃ k, m.find? k = some v := by
  simp [values, ← mem_entries]

@[simp] theorem find?_empty : (empty : OrdMap K V).find? k = none := rfl

@[simp] theorem values_empty : (empty : OrdMap K V).values = [] := rfl

@[simp] theorem find?_insert :
    (m.insert k v).find? k' = if k' = k then some v else m.find? k' := by
  obtain ⟨l₁, l₂, hi, hlt, hgt, hs⟩ := insertList_split k v m.sorted
  have hi : (m.insert k v).entries = l₁ ++ (k, v) :: l₂ := hi
  have h₁ : l₁.find? (fun e => e.1 = k) = none :=
    List.find?_eq_none.mpr fun e he => by simpa using (hlt e he).ne
  unfold find?
  rw [hi]
  split_ifs with h
  · subst h
    rw [List.find?_append, h₁]
    simp
  · have hskip (w : V) : (l₁ ++ (k, w) :: l₂).find? (fun e => e.1 = k') =
        (l₁ ++ l₂).find? (fun e => e.1 = k') := by
      rw [List.find?_append, List.find?_append, List.find?_cons_of_neg (by simpa using Ne.symm h)]
    rw [hskip]
    rcases hs with hs | ⟨v', hs⟩
    · rw [hs]
    · rw [hs, hskip]

@[simp] theorem find?_erase :
    (m.erase k).find? k' = if k' = k then none else m.find? k' := by
  split_ifs with h
  · subst h
    rw [find?_eq_none_iff]
    intro v hv
    simp [erase] at hv
  · cases hf : m.find? k' with
    | none =>
      rw [find?_eq_none_iff] at hf ⊢
      exact fun v hv => hf v (List.mem_of_mem_filter hv)
    | some v =>
      rw [← mem_entries] at hf ⊢
      exact List.mem_filter.mpr ⟨hf, by simpa using h⟩

/-- A new binding goes between those of the smaller and of the larger keys. -/
theorem entries_insert_of_none (v : V) (h : m.find? k = none) : ∃ l₁ l₂, m.entries = l₁ ++ l₂ ∧
    (m.insert k v).entries = l₁ ++ (k, v) :: l₂ ∧
    (∀ e ∈ l₁, e.1 < k) ∧ (∀ e ∈ l₂, k < e.1) := by
  obtain ⟨l₁, l₂, hi, hlt, hgt, hs⟩ := insertList_split k v m.sorted
  refine ⟨l₁, l₂, ?_, hi, hlt, hgt⟩
  rcases hs with hs | ⟨v', hs⟩
  · exact hs
  · refine absurd ?_ (m.find?_eq_none_iff.mp h v')
    rw [hs]
    exact List.mem_append_right _ List.mem_cons_self

theorem nodup_keys : (m.entries.map Prod.fst).Nodup :=
  (List.pairwise_map.mpr m.sorted).imp ne_of_lt

/-- A binding that goes stands between those of the smaller and of the larger keys. -/
theorem entries_erase_of_some (h : m.find? k = some v) : ∃ l₁ l₂, m.entries = l₁ ++ (k, v) :: l₂ ∧
    (m.erase k).entries = l₁ ++ l₂ ∧ (∀ e ∈ l₁, e.1 < k) ∧ (∀ e ∈ l₂, k < e.1) := by
  obtain ⟨l₁, l₂, hm⟩ := List.append_of_mem (m.mem_entries.mpr h)
  have hs := m.sorted
  rw [hm, List.pairwise_append, List.pairwise_cons] at hs
  obtain ⟨-, ⟨hgt, -⟩, hlt⟩ := hs
  have hlt : ∀ e ∈ l₁, e.1 < k := fun e he => hlt e he _ List.mem_cons_self
  have h₁ : l₁.filter (fun e => decide (e.1 ≠ k)) = l₁ :=
    List.filter_eq_self.mpr fun e he => by simpa using (hlt e he).ne
  have h₂ : l₂.filter (fun e => decide (e.1 ≠ k)) = l₂ :=
    List.filter_eq_self.mpr fun e he => by simpa using (hgt e he).ne'
  refine ⟨l₁, l₂, hm, ?_, hlt, hgt⟩
  change m.entries.filter (fun e => decide (e.1 ≠ k)) = l₁ ++ l₂
  rw [hm, List.filter_append, List.filter_cons_of_neg (by simp), h₁, h₂]

private theorem mem_below {k : K} {l l₁ l₂ : List (K × V)} {m : OrdMap K V} (hm : m.entries = l)
    (hlt : ∀ e ∈ l₁, e.1 < k) (hgt : ∀ e ∈ l₂, k < e.1)
    (hl : ∀ e, e ∈ l ↔ e ∈ l₁ ∨ e.1 = k ∧ e ∈ l ∨ e ∈ l₂) (v : V) :
    (v ∈ l₁.map Prod.snd ↔ ∃ k', m.find? k' = some v ∧ k' < k) ∧
      (v ∈ l₂.map Prod.snd ↔ ∃ k', m.find? k' = some v ∧ k < k') := by
  subst hm
  simp only [← mem_entries, List.mem_map, Prod.exists, exists_eq_right]
  constructor
  · refine exists_congr fun k' => ⟨fun h => ⟨(hl _).mpr (Or.inl h), hlt _ h⟩, fun ⟨h, hk⟩ => ?_⟩
    rcases (hl _).mp h with h | ⟨rfl, -⟩ | h
    · exact h
    · exact absurd hk (lt_irrefl _)
    · exact absurd (hgt _ h) (lt_asymm hk)
  · refine exists_congr fun k' =>
      ⟨fun h => ⟨(hl _).mpr (Or.inr (Or.inr h)), hgt _ h⟩, fun ⟨h, hk⟩ => ?_⟩
    rcases (hl _).mp h with h | ⟨rfl, -⟩ | h
    · exact absurd (hlt _ h) (lt_asymm hk)
    · exact absurd hk (lt_irrefl _)
    · exact h

/-- A new value goes between those of the smaller and of the larger keys. -/
theorem values_insert_of_none (v : V) (h : m.find? k = none) : ∃ vs vs', m.values = vs ++ vs' ∧
    (m.insert k v).values = vs ++ v :: vs' ∧
    ∀ w, (w ∈ vs ↔ ∃ k', m.find? k' = some w ∧ k' < k) ∧
      (w ∈ vs' ↔ ∃ k', m.find? k' = some w ∧ k < k') := by
  obtain ⟨l₁, l₂, hm, hi, hlt, hgt⟩ := m.entries_insert_of_none v h
  refine ⟨l₁.map Prod.snd, l₂.map Prod.snd, by rw [values, hm, List.map_append],
    by rw [values, hi, List.map_append, List.map_cons], mem_below hm hlt hgt fun e => ?_⟩
  rw [List.mem_append]
  tauto

/-- A value that goes stands between those of the smaller and of the larger keys. -/
theorem values_erase_of_some (h : m.find? k = some v) : ∃ vs vs', m.values = vs ++ v :: vs' ∧
    (m.erase k).values = vs ++ vs' ∧
    ∀ w, (w ∈ vs ↔ ∃ k', m.find? k' = some w ∧ k' < k) ∧
      (w ∈ vs' ↔ ∃ k', m.find? k' = some w ∧ k < k') := by
  obtain ⟨l₁, l₂, hm, he, hlt, hgt⟩ := m.entries_erase_of_some h
  refine ⟨l₁.map Prod.snd, l₂.map Prod.snd, by rw [values, hm, List.map_append, List.map_cons],
    by rw [values, he, List.map_append], mem_below hm hlt hgt fun e => ?_⟩
  rw [List.mem_append, List.mem_cons]
  constructor
  · rintro (h | rfl | h)
    · exact Or.inl h
    · exact Or.inr (Or.inl ⟨rfl, Or.inr (Or.inl rfl)⟩)
    · exact Or.inr (Or.inr h)
  · tauto

theorem tryInsert_of_some (v' : V) (h : m.find? k = some v) : m.tryInsert k v' = m := by
  simp [tryInsert, contains, h]

theorem tryInsert_of_none (v : V) (h : m.find? k = none) : m.tryInsert k v = m.insert k v := by
  simp [tryInsert, contains, h]

theorem find?_tryInsert (v : V) :
    (m.tryInsert k v).find? k' = (m.find? k').or (if k' = k then some v else none) := by
  cases h : m.find? k with
  | some w =>
    rw [m.tryInsert_of_some v h]
    split_ifs with hk
    · rw [hk, h, Option.some_or]
    · rw [Option.or_none]
  | none =>
    rw [m.tryInsert_of_none v h, find?_insert]
    split_ifs with hk
    · rw [hk, h, Option.none_or]
    · rw [Option.or_none]

theorem contains_tryInsert (v : V) :
    (m.tryInsert k v).contains k' = true ↔ k' = k ∨ m.contains k' = true := by
  by_cases hc : m.contains k = true
  · rw [tryInsert, if_pos hc]
    refine ⟨Or.inr, ?_⟩
    rintro (rfl | h)
    · exact hc
    · exact h
  · rw [tryInsert, if_neg hc, contains, find?_insert]
    split_ifs with hk
    · simp [hk]
    · simp [hk, contains]

/-- A binding of the new map is an old one or the one put in. -/
theorem find?_of_tryInsert (h : (m.tryInsert k v).find? k' = some v') :
    m.find? k' = some v' ∨ k' = k ∧ v' = v := by
  unfold tryInsert at h
  split_ifs at h with hc
  · exact Or.inl h
  · rw [find?_insert] at h
    split_ifs at h with hk
    · exact Or.inr ⟨hk, (Option.some.inj h).symm⟩
    · exact Or.inl h

theorem index_of_some (d : V) (h : m.find? k = some v) : m.index k d = (v, m) := by
  rw [index, h, m.tryInsert_of_some d h, Option.getD_some]

@[simp] theorem find?_mapVal (f : V → W) : (m.mapVal f).find? k = (m.find? k).map f := by
  simp only [find?, mapVal, List.find?_map, Option.map_map]
  rfl

@[simp] theorem values_mapVal (f : V → W) : (m.mapVal f).values = m.values.map f := by
  simp [values, mapVal]

theorem mapVal_congr {f g : V → W} (h : ∀ v ∈ m.values, f v = g v) : m.mapVal f = m.mapVal g := by
  refine ext_find? fun k => ?_
  rw [find?_mapVal, find?_mapVal]
  cases hk : m.find? k with
  | none => rfl
  | some v => simp [h v (m.mem_values.mpr ⟨k, hk⟩)]

theorem size_insert_of_none (v : V) (h : m.find? k = none) : (m.insert k v).size = m.size + 1 := by
  obtain ⟨l₁, l₂, hm, hi, -⟩ := m.entries_insert_of_none v h
  simp only [size, hm, hi, List.length_append, List.length_cons]
  omega

theorem size_erase_of_some (h : m.find? k = some v) : (m.erase k).size = m.size - 1 := by
  obtain ⟨l₁, l₂, hm, he, -⟩ := m.entries_erase_of_some h
  simp only [size, hm, he, List.length_append, List.length_cons]
  omega

theorem mapVal_erase (f : V → W) : (m.erase k).mapVal f = (m.mapVal f).erase k := by
  refine ext_find? fun k' => ?_
  simp only [find?_mapVal, find?_erase]
  split_ifs <;> rfl

theorem mapVal_insert (f : V → W) : (m.insert k v).mapVal f = (m.mapVal f).insert k (f v) := by
  refine ext_find? fun k' => ?_
  simp only [find?_mapVal, find?_insert]
  split_ifs <;> rfl

end Lookup

section Ring
variable (m : OrdMap K V) (k : K)

theorem ceil?_mem {e : K × V} (h : m.ceil? k = some e) : e ∈ m.entries := by
  rcases Option.or_eq_some_iff.mp h with h | ⟨-, h⟩
  · exact List.mem_of_find?_eq_some h
  · exact List.mem_of_head? h

/-- A look-up of a key that is there finds it. -/
theorem ceil?_of_find? {v : V} (h : m.find? k = some v) : m.ceil? k = some (k, v) := by
  obtain ⟨l₁, l₂, hm, -, hlt, -⟩ := m.entries_erase_of_some h
  have h₁ : l₁.find? (fun e => decide (k ≤ e.1)) = none :=
    List.find?_eq_none.mpr fun e he => by simpa using hlt e he
  rw [ceil?, hm, List.find?_append, h₁, Option.none_or, List.find?_cons_of_pos (by simp)]
  rfl

theorem ceil?_eq_none_iff : m.ceil? k = none ↔ m.entries = [] := by
  simp only [ceil?, Option.or_eq_none_iff, List.head?_eq_none_iff, and_iff_right_iff_imp]
  intro h
  rw [h]
  rfl

/-- The key is the least one at or above `k`, or the least of all where there is none. -/
def Meets (k' : K) : Prop :=
  (k ≤ k' ∧ ∀ k'', m.contains k'' = true → k ≤ k'' → k' ≤ k'') ∨
    ∀ k'', m.contains k'' = true → k'' < k ∧ k' ≤ k''

variable {m k} in
theorem Meets.unique {k₁ k₂ : K} (h₁ : m.Meets k k₁) (h₂ : m.Meets k k₂)
    (hc₁ : m.contains k₁ = true) (hc₂ : m.contains k₂ = true) : k₁ = k₂ := by
  rcases h₁ with ⟨hle₁, hleast₁⟩ | hbelow₁ <;> rcases h₂ with ⟨hle₂, hleast₂⟩ | hbelow₂
  · exact le_antisymm (hleast₁ k₂ hc₂ hle₂) (hleast₂ k₁ hc₁ hle₁)
  · exact absurd (hbelow₂ k₁ hc₁).1 (not_lt.mpr hle₁)
  · exact absurd (hbelow₁ k₂ hc₂).1 (not_lt.mpr hle₂)
  · exact le_antisymm (hbelow₁ k₂ hc₂).2 (hbelow₂ k₁ hc₁).2

private theorem meets_of_ceil? {e : K × V} (h : m.ceil? k = some e) : m.Meets k e.1 := by
  have hs := m.sorted
  have hmem : ∀ k'', m.contains k'' = true → ∃ v, (k'', v) ∈ m.entries := fun k'' hc => by
    obtain ⟨v, hv⟩ := m.contains_iff.mp hc
    exact ⟨v, m.mem_entries.mpr hv⟩
  rcases Option.or_eq_some_iff.mp h with h | ⟨hnone, hhead⟩
  · obtain ⟨hle, l₁, l₂, hl, hskip⟩ := List.find?_eq_some_iff_append.mp h
    refine Or.inl ⟨by simpa using hle, fun k'' hc hk => ?_⟩
    obtain ⟨v, hv⟩ := hmem k'' hc
    rw [hl] at hv hs
    rcases List.mem_append.mp hv with hv | hv
    · have hlt := hskip _ hv
      simp [hk] at hlt
    · rcases List.mem_cons.mp hv with rfl | hv
      · exact le_rfl
      · exact ((List.pairwise_cons.mp (List.pairwise_append.mp hs).2.1).1 _ hv).le
  · refine Or.inr fun k'' hc => ?_
    obtain ⟨v, hv⟩ := hmem k'' hc
    refine ⟨by simpa using List.find?_eq_none.mp hnone _ hv, ?_⟩
    obtain ⟨l, hl⟩ := List.head?_eq_some_iff.mp hhead
    rw [hl] at hv hs
    rcases List.mem_cons.mp hv with rfl | hv
    · exact le_rfl
    · exact ((List.pairwise_cons.mp hs).1 _ hv).le

theorem ceil?_eq_some_iff {k' : K} {v : V} :
    m.ceil? k = some (k', v) ↔ m.find? k' = some v ∧ m.Meets k k' := by
  constructor
  · intro h
    exact ⟨m.mem_entries.mp (m.ceil?_mem k h), m.meets_of_ceil? k h⟩
  · rintro ⟨hv, hmeets⟩
    have hc : m.contains k' = true := m.contains_iff.mpr ⟨v, hv⟩
    cases h : m.ceil? k with
    | none =>
      have hmem := m.mem_entries.mpr hv
      rw [(m.ceil?_eq_none_iff k).mp h] at hmem
      cases hmem
    | some e =>
      have he : m.find? e.1 = some e.2 := m.mem_entries.mp (m.ceil?_mem k h)
      have hke : e.1 = k' :=
        (m.meets_of_ceil? k h).unique hmeets (m.contains_iff.mpr ⟨_, he⟩) hc
      rw [hke, hv] at he
      exact congrArg some (Prod.ext hke (Option.some.inj he).symm)

/-- A look-up that finds a binding of a part of the map finds it in that part. -/
theorem ceil?_of_subset {m' : OrdMap K V} {e : K × V}
    (hsub : ∀ k' v, m.find? k' = some v → m'.find? k' = some v) (h : m'.ceil? k = some e)
    (he : m.find? e.1 = some e.2) : m.ceil? k = some e := by
  obtain ⟨-, hmeets⟩ := (m'.ceil?_eq_some_iff k).mp h
  have hc : ∀ k', m.contains k' = true → m'.contains k' = true := fun k' hk' => by
    obtain ⟨v, hv⟩ := m.contains_iff.mp hk'
    exact m'.contains_iff.mpr ⟨v, hsub k' v hv⟩
  refine (m.ceil?_eq_some_iff k).mpr ⟨he, ?_⟩
  rcases hmeets with ⟨hle, hleast⟩ | hbelow
  · exact Or.inl ⟨hle, fun k'' hk'' => hleast k'' (hc k'' hk'')⟩
  · exact Or.inr fun k'' hk'' => hbelow k'' (hc k'' hk'')

theorem ceil?_mapVal (f : V → W) :
    (m.mapVal f).ceil? k = (m.ceil? k).map (fun e => (e.1, f e.2)) := by
  simp only [ceil?, mapVal, List.find?_map, List.head?_map, Option.map_or]
  rfl

end Ring

section Iterator
variable {m : OrdMap K V} {k : K}

theorem above?_none : m.above? none = m.entries.head? := by
  unfold above?
  cases m.entries <;> simp

theorem above?_of_entries {l₁ l₂ : List (K × V)} {e : K × V} (h : m.entries = l₁ ++ e :: l₂) :
    m.above? (some e.1) = l₂.head? := by
  have hs := m.sorted
  rw [h, List.pairwise_append, List.pairwise_cons] at hs
  obtain ⟨-, ⟨hgt, -⟩, hlt⟩ := hs
  have hskip : ∀ a ∈ l₁, ¬ e.1 < a.1 := fun a ha => not_lt.mpr (hlt a ha e List.mem_cons_self).le
  have hl₁ : l₁.find? (fun a => decide (e.1 < a.1)) = none := by
    simpa [List.find?_eq_none] using hskip
  simp only [above?, Option.all_some, h, List.find?_append, hl₁, List.find?_cons, lt_irrefl,
    decide_false, Option.none_or]
  cases l₂ with
  | nil => rfl
  | cons b l₂ => simp [hgt b List.mem_cons_self]

/-- An iterator passes no key. -/
theorem above?_le {after : Option K} (hk : m.contains k = true) (h : ∀ k' ∈ after, k' < k) :
    ∃ e, m.above? after = some e ∧ e.1 ≤ k := by
  obtain ⟨v, hv⟩ := m.contains_iff.mp hk
  have hmem : (k, v) ∈ m.entries := m.mem_entries.mpr hv
  have hq : after.all (fun k' => k' < k) = true := by
    cases after with
    | none => rfl
    | some k' => simpa using h k' rfl
  obtain ⟨e, he⟩ : ∃ e, m.above? after = some e :=
    Option.isSome_iff_exists.mp (List.find?_isSome.mpr ⟨(k, v), hmem, hq⟩)
  refine ⟨e, he, ?_⟩
  obtain ⟨-, l₁, l₂, hl, hl₁⟩ := List.find?_eq_some_iff_append.mp he
  have hs := m.sorted
  rw [hl, List.pairwise_append, List.pairwise_cons] at hs
  rw [hl] at hmem
  rcases List.mem_append.mp hmem with hin | hin
  · have hfalse := hl₁ _ hin
    rw [hq] at hfalse
    cases hfalse
  · rcases List.mem_cons.mp hin with rfl | hin
    · exact le_rfl
    · exact (hs.2.1.1 _ hin).le

theorem contains_of_above? {after : Option K} {e : K × V} (h : m.above? after = some e) :
    m.contains e.1 = true :=
  m.contains_iff.mpr ⟨e.2, m.mem_entries.mp (List.mem_of_find?_eq_some h)⟩

end Iterator

end OrdMap
end DCache.Lib
