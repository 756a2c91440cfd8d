import DCache.Lib.Link

/-! Lists on linked cells with a size counter, and maps that lead from a key to its cell. The
lemmas say what splicing a cell in or out does to the list of data, whatever the order of the
stores that splice it. -/
namespace DCache.Lib

structure DList (α : Type) where
  heap : Heap (Cell α)
  head : ℕ
  tail : ℕ
  size_ : ℤ

namespace DList
variable {α : Type}

/-- Two sentinels that name each other. -/
def new (blank : α) : DList α :=
  let h := Heap.empty.alloc ⟨blank, 0, 0⟩
  let head := Heap.fresh (Heap.empty : Heap (Cell α))
  let tail := h.fresh
  ⟨((h.alloc ⟨blank, 0, 0⟩).setNext head tail).setPrev tail head, head, tail, 0⟩

/-- The cells at `ps` between the sentinels hold the data `es`. -/
structure Holds (l : DList α) (ps : List ℕ) (es : List α) : Prop where
  linked : Linked l.heap l.head ps l.tail
  data : ps.map l.heap.data? = es.map some
  size : l.size_ = es.length

variable {l : DList α} {h : Heap (Cell α)} {ps ps₁ ps₂ : List ℕ} {es es₁ es₂ : List α} {a b x : ℕ}
  {e : α}

theorem new_holds (blank : α) : (new blank).Holds [] [] :=
  ⟨linked_nil.mpr ⟨by simp [new, Heap.fresh, Heap.empty, Heap.alloc], rfl, rfl⟩, rfl, rfl⟩

theorem Holds.length_eq (hl : l.Holds ps es) : ps.length = es.length := by
  simpa using congrArg List.length hl.data

/-- An entry of the list sits in a cell of its own. -/
theorem Holds.split (hl : l.Holds ps (es₁ ++ e :: es₂)) :
    ∃ ps₁ p ps₂, ps = ps₁ ++ p :: ps₂ ∧ ps₁.map l.heap.data? = es₁.map some ∧
      l.heap.data? p = some e ∧ ps₂.map l.heap.data? = es₂.map some := by
  have hd := hl.data
  rw [List.map_append, List.map_cons] at hd
  obtain ⟨ps₁, qs, rfl, h₁, hq⟩ := List.map_eq_append_iff.mp hd
  obtain ⟨p, ps₂, rfl, hp, h₂⟩ := List.map_eq_cons_iff.mp hq
  exact ⟨ps₁, p, ps₂, rfl, h₁, hp, h₂⟩

theorem Holds.data_of_mem (hl : l.Holds ps es) (hx : x ∈ ps) :
    ∃ e ∈ es, l.heap.data? x = some e := by
  have hm : l.heap.data? x ∈ es.map some := hl.data ▸ List.mem_map_of_mem hx
  obtain ⟨e, he, hxe⟩ := List.mem_map.mp hm
  exact ⟨e, he, hxe.symm⟩

theorem Holds.unique {qs : List ℕ} {es' : List α} (hl : l.Holds ps es) (hl' : l.Holds qs es') :
    ps = qs ∧ es = es' := by
  obtain rfl := hl.linked.unique hl'.linked
  refine ⟨rfl, ?_⟩
  have hd := hl.data.symm.trans hl'.data
  exact List.map_injective_iff.mpr (Option.some_injective α) hd

/-- The cell before the tail, where a new one is put in. -/
theorem Holds.last (hl : l.Holds ps es) : ∃ a, l.heap.prev? l.tail = some a ∧
    a ∈ path l.head ps l.tail ∧ a ≠ l.tail ∧ (l.heap.cells a).isSome = true ∧
      (l.heap.cells l.tail).isSome = true := by
  obtain ⟨a, ha, ham⟩ := hl.linked.prev_tail
  have hmem : a ∈ path l.head ps l.tail := mem_path.mpr (by tauto)
  exact ⟨a, ha, hmem, hl.linked.ne_tail ham, hl.linked.isSome a hmem,
    Heap.isSome_cells_of_prev? ha⟩

/-- A heap whose links differ by `x` standing before the tail. -/
theorem Holds.pushBack (hl : l.Holds ps es) (hx : x ∉ path l.head ps l.tail)
    (hd : l.heap.data? x = some e) (ha : l.heap.prev? l.tail = some a)
    (hdata : h.data? = l.heap.data?)
    (hn : ∀ p, h.next? p = if p = x then some l.tail else if p = a then some x else l.heap.next? p)
    (hp : ∀ p, h.prev? p = if p = l.tail then some x else if p = x then some a
      else l.heap.prev? p) :
    Holds ⟨h, l.head, l.tail, l.size_ + 1⟩ (ps ++ [x]) (es ++ [e]) := by
  have hx' := hx
  simp only [mem_path, not_or] at hx'
  refine ⟨hl.linked.pushBack ha hx ?_ ?_ ?_ ?_ ?_, ?_, ?_⟩
  · intro p hpm
    rw [hn, if_neg]
    rintro rfl
    exact hpm.elim hx'.1 hx'.2.1
  · intro p hpm
    rw [hp, if_neg (hl.linked.ne_tail (Or.inr hpm)), if_neg]
    rintro rfl
    exact hx'.2.1 hpm
  · rw [hn, if_pos rfl]
  · rw [hp, if_neg hx'.2.2, if_pos rfl]
  · rw [hp, if_pos rfl]
  · simp [hdata, hl.data, hd]
  · simp [hl.size]

/-- The neighbours of a cell of the list. -/
theorem Holds.neighbours (hl : l.Holds (ps₁ ++ x :: ps₂) es) :
    ∃ a b, l.heap.prev? x = some a ∧ l.heap.next? x = some b ∧ a ≠ x ∧
      (l.heap.cells a).isSome = true ∧ (l.heap.cells b).isSome = true := by
  obtain ⟨a, b, ha, hb, ham, hbm⟩ := hl.linked.neighbours
  refine ⟨a, b, ha, hb, ?_, ?_, ?_⟩
  · rintro rfl
    refine hl.linked.notMem_rest (mem_path.mpr ?_)
    rcases ham with rfl | ham <;> simp [*]
  · exact hl.linked.isSome a (mem_path.mpr (by rcases ham with rfl | ham <;> simp [*]))
  · exact hl.linked.isSome b (mem_path.mpr (by rcases hbm with hbm | rfl <;> simp [*]))

/-- A heap whose links join the neighbours of `x`. -/
theorem Holds.unlink (hl : l.Holds (ps₁ ++ x :: ps₂) (es₁ ++ e :: es₂))
    (hlen : ps₁.length = es₁.length) (ha : l.heap.prev? x = some a) (hb : l.heap.next? x = some b)
    (hdata : h.data? = l.heap.data?)
    (hn : ∀ p, h.next? p = if p = a then some b else l.heap.next? p)
    (hp : ∀ p, h.prev? p = if p = b then some a else l.heap.prev? p) :
    Holds ⟨h, l.head, l.tail, l.size_ - 1⟩ (ps₁ ++ ps₂) (es₁ ++ es₂) := by
  refine ⟨hl.linked.unlink ha hb (fun p _ => hn p) (fun p _ => hp p), ?_, ?_⟩
  · have hd := hl.data
    rw [List.map_append, List.map_append, List.map_cons, List.map_cons] at hd
    obtain ⟨hd₁, hd₂⟩ := List.append_inj hd (by simpa using hlen)
    rw [hdata, List.map_append, List.map_append, hd₁, (List.cons.inj hd₂).2]
  · have hs := hl.size
    simp only [List.length_append, List.length_cons] at hs ⊢
    push_cast at hs ⊢
    omega

/-- Releasing a cell outside the list. -/
theorem Holds.erase (hl : l.Holds ps es) (hx : x ∉ path l.head ps l.tail) :
    Holds { l with heap := l.heap.erase x } ps es := by
  have hne : ∀ p ∈ path l.head ps l.tail, p ≠ x := fun p hp h => hx (h ▸ hp)
  refine ⟨hl.linked.congr ?_ ?_, ?_, hl.size⟩
  · intro p hp
    simp [hne p (mem_path.mpr (by tauto))]
  · intro p hp
    simp [hne p (mem_path.mpr (by tauto))]
  · rw [← hl.data]
    refine List.map_congr_left fun p hp => ?_
    simp [hne p (mem_path.mpr (by tauto))]

/-- Allocating a cell does not touch the list, and the cell lies outside it. -/
theorem Holds.alloc (hl : l.Holds ps es) (c : Cell α) :
    Holds { l with heap := l.heap.alloc c } ps es ∧ l.heap.fresh ∉ path l.head ps l.tail := by
  have hx : l.heap.fresh ∉ path l.head ps l.tail := by
    intro hx
    have := hl.linked.isSome _ hx
    simp at this
  have hne : ∀ p ∈ path l.head ps l.tail, p ≠ l.heap.fresh := fun p hp h => hx (h ▸ hp)
  refine ⟨⟨hl.linked.congr ?_ ?_, ?_, hl.size⟩, hx⟩
  · intro p hp
    simp [hne p (mem_path.mpr (by tauto))]
  · intro p hp
    simp [hne p (mem_path.mpr (by tauto))]
  · rw [← hl.data]
    refine List.map_congr_left fun p hp => ?_
    simp [hne p (mem_path.mpr (by tauto))]

section Index
variable {K : Type} {key : α → K} {map map' : K → Option ℕ} {k : K} {l' : DList α}

/-- The map sends exactly the keys of the list to their cells. -/
structure Indexed (key : α → K) (l : DList α) (map : K → Option ℕ) (ps : List ℕ)
    (es : List α) : Prop where
  holds : l.Holds ps es
  index : ∀ k p, map k = some p ↔ p ∈ ps ∧ (l.heap.data? p).map key = some k

theorem Indexed.isSome_map (hc : Indexed key l map ps es) :
    (map k).isSome = true ↔ k ∈ es.map key := by
  constructor
  · intro hk
    obtain ⟨p, hp⟩ := Option.isSome_iff_exists.mp hk
    obtain ⟨hps, hkey⟩ := (hc.index k p).mp hp
    obtain ⟨e, he, hd⟩ := hc.holds.data_of_mem hps
    rw [hd, Option.map_some, Option.some.injEq] at hkey
    exact hkey ▸ List.mem_map_of_mem he
  · intro hk
    obtain ⟨e, he, rfl⟩ := List.mem_map.mp hk
    obtain ⟨es₁, es₂, rfl⟩ := List.append_of_mem he
    obtain ⟨ps₁, p, ps₂, rfl, -, hp, -⟩ := hc.holds.split
    rw [(hc.index (key e) p).mpr ⟨by simp, by simp [hp]⟩]
    rfl

/-- The cell that the map yields for the key of an entry, and its place in the list. -/
theorem Indexed.split (hc : Indexed key l map ps (es₁ ++ e :: es₂)) :
    ∃ ps₁ p ps₂, ps = ps₁ ++ p :: ps₂ ∧ ps₁.length = es₁.length ∧
      l.heap.data? p = some e ∧ map (key e) = some p := by
  obtain ⟨ps₁, p, ps₂, rfl, h₁, hp, -⟩ := hc.holds.split
  exact ⟨ps₁, p, ps₂, rfl, by simpa using congrArg List.length h₁, hp,
    (hc.index (key e) p).mpr ⟨by simp, by simp [hp]⟩⟩

variable [DecidableEq K]

/-- Unlinking and releasing the cell of an entry, with its key gone from the map. -/
theorem Indexed.drop (hc : Indexed key l map (ps₁ ++ x :: ps₂) (es₁ ++ e :: es₂))
    (hx : l.heap.data? x = some e) (hm : map (key e) = some x) (hh : l'.head = l.head)
    (ht : l'.tail = l.tail) (hd : l'.heap.data? = l.heap.data?)
    (hl : l'.Holds (ps₁ ++ ps₂) (es₁ ++ es₂))
    (hf : ∀ k, map' k = if k = key e then none else map k) :
    Indexed key { l' with heap := l'.heap.erase x } map' (ps₁ ++ ps₂) (es₁ ++ es₂) := by
  have hn : x ∉ path l'.head (ps₁ ++ ps₂) l'.tail := by
    rw [hh, ht]
    exact hc.holds.linked.notMem_rest
  have hnx : x ∉ ps₁ ++ ps₂ := fun h => hn (mem_path.mpr (Or.inr (Or.inl h)))
  refine ⟨hl.erase hn, fun k q => ?_⟩
  simp only [hf, Heap.data?_erase, hd]
  by_cases hq : q = x
  · subst hq
    have hk : (if k = key e then none else map k) ≠ some q := by
      split_ifs with hk
      · simp
      · intro h
        have := ((hc.index k q).mp h).2
        rw [hx, Option.map_some, Option.some.injEq] at this
        exact hk this.symm
    simp [hk]
  · rw [if_neg hq]
    by_cases hk : k = key e
    · have hne : ¬ (q ∈ ps₁ ++ ps₂ ∧ (l.heap.data? q).map key = some k) := by
        rintro ⟨hmem, hkey⟩
        have := (hc.index k q).mpr ⟨by simp at hmem ⊢; tauto, hkey⟩
        rw [hk, hm, Option.some.injEq] at this
        exact hq this.symm
      simp only [if_pos hk, reduceCtorEq, hne]
    · rw [if_neg hk, hc.index k q]
      simp [hq]

/-- Linking a new cell in at the end, with its key led to it. -/
theorem Indexed.push (hc : Indexed key l map ps es) (hk : map (key e) = none)
    (hx : x ∉ ps) (hl : l'.Holds (ps ++ [x]) (es ++ [e]))
    (hd : ∀ p, l'.heap.data? p = if p = x then some e else l.heap.data? p)
    (hf : ∀ k, map' k = if k = key e then some x else map k) :
    Indexed key l' map' (ps ++ [x]) (es ++ [e]) := by
  refine ⟨hl, fun k q => ?_⟩
  simp only [hd, hf]
  by_cases hkk : k = key e
  · subst hkk
    have hold : ¬ (q ∈ ps ∧ (l.heap.data? q).map key = some (key e)) := by
      rw [← hc.index, hk]
      simp
    by_cases hq : q = x
    · simp [hq]
    · simpa [hq, Ne.symm hq] using hold
  · rw [if_neg hkk, hc.index k q]
    by_cases hq : q = x
    · simp [hq, hx, Ne.symm hkk]
    · simp [hq]

end Index
end DList
end DCache.Lib
