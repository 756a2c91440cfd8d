import DCache.LRU.Recency

/-! The pointer structure simulates the abstract cache: no call faults and every call keeps
links, size counter and hash map in step with the list of entries. -/
namespace DCache.LRU
open DCache.Lib

variable {K V : Type}

namespace Doublelist
variable {l : Doublelist K V} {ps ps₁ ps₂ : List ℕ} {es es₁ es₂ : List (Entry K V)} {x : ℕ}
  {e : Entry K V}

/-- What an `addLast` of a node outside the list does. -/
theorem addLast_spec (hl : l.Holds ps es) (hx : x ∉ path l.head ps l.tail)
    (hd : l.heap.data? x = some e) : ∃ l', addLast l x = some l' ∧
      l'.heap.data? = l.heap.data? ∧ l'.Holds (ps ++ [x]) (es ++ [e]) := by
  obtain ⟨a, ha, ham, hat, has, hts⟩ := hl.last
  have hxs := Heap.isSome_cells_of_data? hd
  have hax : a ≠ x := fun h => hx (h ▸ ham)
  have hxt : x ≠ l.tail := fun h => hx (mem_path.mpr (Or.inr (Or.inr h)))
  let h := (((l.heap.setPrev x a).setNext x l.tail).setNext a x).setPrev l.tail x
  have hrun : addLast l x = some ⟨h, l.head, l.tail, l.size_ + 1⟩ := by
    simp [addLast, ha, Heap.writePrev_of_isSome, Heap.writeNext_of_isSome, hxs, hts, has,
      Ne.symm hxt, h]
  have hdata : h.data? = l.heap.data? := by
    funext p
    simp [h]
  refine ⟨_, hrun, hdata, hl.pushBack hx hd ha hdata (fun p => ?_) (fun p => ?_)⟩
  · by_cases hpx : p = x
    · simp [h, hpx, hxs, Ne.symm hax]
    · simp [h, hpx, has]
  · by_cases hpt : p = l.tail
    · simp [h, hpt, hts]
    · simp [h, hpt, hxs]

/-- What the removal of a node of the list does; the node itself stays allocated. -/
theorem remove_spec (hl : l.Holds (ps₁ ++ x :: ps₂) (es₁ ++ e :: es₂))
    (h₁ : ps₁.length = es₁.length) : ∃ l', remove l x = some l' ∧ l'.head = l.head ∧
      l'.tail = l.tail ∧ l'.heap.data? = l.heap.data? ∧
      l'.Holds (ps₁ ++ ps₂) (es₁ ++ es₂) := by
  obtain ⟨a, b, ha, hb, hax, has, hbs⟩ := hl.neighbours
  let h := (l.heap.setNext a b).setPrev b a
  have hdata : h.data? = l.heap.data? := by
    funext p
    simp [h]
  have hrun : remove l x = some ⟨h, l.head, l.tail, l.size_ - 1⟩ := by
    simp [remove, ha, hb, Heap.writePrev_of_isSome, Heap.writeNext_of_isSome, has, hbs, h,
      Ne.symm hax]
  exact ⟨_, hrun, rfl, rfl, hdata, hl.unlink h₁ ha hb hdata (fun p => by simp [h, has])
    (fun p => by simp [h, hbs])⟩

end Doublelist

namespace ThreadSafeLRUCache
variable {c : ThreadSafeLRUCache K V} {ps : List ℕ} {es es₁ es₂ : List (Entry K V)}
  {e : Entry K V} {k : K} {v : V}

/-- The list holds `es` and the map sends exactly the keys of the list to their nodes. -/
abbrev Rep (c : ThreadSafeLRUCache K V) (ps : List ℕ) (es : List (Entry K V)) : Prop :=
  DList.Indexed Entry.key c.cache c.map ps es

theorem new_rep [Inhabited K] [Inhabited V] (cap : ℤ) :
    Rep (new cap : ThreadSafeLRUCache K V) [] [] :=
  ⟨DList.new_holds _, by simp [new]⟩

theorem makeRecently_spec (hc : Rep c ps (es₁ ++ e :: es₂)) :
    ∃ c' ps', c.makeRecently e.key = some c' ∧ c'.cap = c.cap ∧ c'.map = c.map ∧
      Rep c' ps' (es₁ ++ es₂ ++ [e]) := by
  obtain ⟨ps₁, p, ps₂, rfl, hlen, hp, hm⟩ := hc.split
  obtain ⟨l, hl, hh, ht, hd, hl'⟩ := Doublelist.remove_spec hc.holds hlen
  have hn : p ∉ path l.head (ps₁ ++ ps₂) l.tail := by
    rw [hh, ht]
    exact hc.holds.linked.notMem_rest
  obtain ⟨l₂, hadd, hd₂, hl₂⟩ := Doublelist.addLast_spec hl' hn (e := e) (hd ▸ hp)
  refine ⟨{ c with cache := l₂ }, ps₁ ++ ps₂ ++ [p], ?_, rfl, rfl, hl₂, fun k q => ?_⟩
  · simp [makeRecently, index, hm, hl, hadd]
  · simp only [hd₂, hd, hc.index k q, List.mem_append, List.mem_cons]
    tauto

theorem isDirty_spec (hc : Rep c ps (es₁ ++ e :: es₂)) : c.isDirty e.key = some e.dirty := by
  obtain ⟨ps₁, p, ps₂, rfl, -, hp, hm⟩ := hc.split
  simp [isDirty, index, hm, hp]

/-- The traversal loop collects the keys of what lies between `travel` and the tail. -/
theorem keysFrom_spec {l : Doublelist K V} {head travel fuel : ℕ}
    (hl : Linked l.heap head ps l.tail) (hd : ps.map l.heap.data? = es.map some)
    (hn : l.heap.next? head = some travel) (hf : ps.length < fuel) :
    keysFrom l fuel travel = some (keysOf es) := by
  induction ps generalizing head travel fuel es with
  | nil =>
    obtain ⟨fuel, rfl⟩ := Nat.exists_eq_succ_of_ne_zero (by omega : fuel ≠ 0)
    obtain rfl : travel = l.tail :=
      Option.some.inj (hn.symm.trans (linked_nil.mp hl).2.1)
    obtain rfl : es = [] := by simpa using hd.symm
    simp [keysFrom]
  | cons p ps ih =>
    obtain ⟨fuel, rfl⟩ := Nat.exists_eq_succ_of_ne_zero (by omega : fuel ≠ 0)
    obtain ⟨-, hadj, ht⟩ := linked_cons.mp hl
    obtain rfl : travel = p := Option.some.inj (hn.symm.trans hadj.1)
    obtain ⟨e, es', rfl, hde, hds⟩ := List.map_eq_cons_iff.mp hd.symm
    obtain ⟨next, hnext⟩ : ∃ q, l.heap.next? travel = some q := by
      cases ps with
      | nil => exact ⟨_, (linked_nil.mp ht).2.1⟩
      | cons q ps => exact ⟨_, (linked_cons.mp ht).2.1.1⟩
    have hpt : travel ≠ l.tail := hl.ne_tail (Or.inr (by simp))
    simp only [List.length_cons, Nat.succ_eq_add_one] at hf
    have hrest := ih ht hds.symm hnext (by omega : ps.length < fuel)
    simp [keysFrom, hpt, ← hde, hnext, hrest]

theorem lruKeysOneshot_spec (hc : Rep c ps es) : c.lruKeysOneshot = some (keysOf es) := by
  obtain ⟨travel, ht⟩ : ∃ q, c.cache.heap.next? c.cache.head = some q := by
    cases ps with
    | nil => exact ⟨_, (linked_nil.mp hc.holds.linked).2.1⟩
    | cons q ps => exact ⟨_, (linked_cons.mp hc.holds.linked).2.1.1⟩
  have hf := hc.holds.linked.length_le
  simp [lruKeysOneshot, ht,
    keysFrom_spec hc.holds.linked hc.holds.data ht (by omega : ps.length < c.cache.heap.next)]

variable [DecidableEq K]

theorem deleteKey_spec (hc : Rep c ps (es₁ ++ e :: es₂)) :
    ∃ c' ps', c.deleteKey e.key = some c' ∧ c'.cap = c.cap ∧ Rep c' ps' (es₁ ++ es₂) := by
  obtain ⟨ps₁, p, ps₂, rfl, hlen, hp, hm⟩ := hc.split
  obtain ⟨l, hl, hh, ht, hd, hl'⟩ := Doublelist.remove_spec hc.holds hlen
  have hps : (l.heap.cells p).isSome = true := Heap.isSome_cells_of_data? (hd ▸ hp)
  refine ⟨{ c with cache := { l with heap := l.heap.erase p },
                   map := fun k => if k = e.key then none else c.map k },
    ps₁ ++ ps₂, ?_, rfl, hc.drop hp hm hh ht hd hl' fun _ => rfl⟩
  simp [deleteKey, index, hm, hl, Heap.free_of_isSome hps]

theorem removeLeastRecently_spec (hc : Rep c ps (e :: es)) :
    ∃ c' ps', c.removeLeastRecently = some c' ∧ c'.cap = c.cap ∧ Rep c' ps' es := by
  have hc' : Rep c ps ([] ++ e :: es) := hc
  obtain ⟨ps₁, p, ps₂, rfl, hlen, hp, hm⟩ := hc'.split
  obtain rfl : ps₁ = [] := List.length_eq_zero_iff.mp hlen
  obtain ⟨l, hl, hh, ht, hd, hl'⟩ := Doublelist.remove_spec hc'.holds hlen
  have hps : (l.heap.cells p).isSome = true := Heap.isSome_cells_of_data? (hd ▸ hp)
  have hfirst : c.cache.heap.next? c.cache.head = some p :=
    (linked_cons.mp hc.holds.linked).2.1.1
  have hpt : p ≠ c.cache.tail := hc.holds.linked.ne_tail (Or.inr (by simp))
  refine ⟨{ c with cache := { l with heap := l.heap.erase p },
                   map := fun k => if k = e.key then none else c.map k },
    ps₂, ?_, rfl, hc'.drop hp hm hh ht hd hl' fun _ => rfl⟩
  simp [removeLeastRecently, Doublelist.removeFirst, hfirst, hpt, hl, hd, hp,
    Heap.free_of_isSome hps]

theorem addRecently_spec (hc : Rep c ps es) (hk : k ∉ keysOf es) (v : V) :
    ∃ c' ps', c.addRecently k v = some c' ∧ c'.cap = c.cap ∧
      Rep c' ps' (es ++ [⟨k, v, false⟩]) := by
  obtain ⟨hl, hx⟩ := hc.holds.alloc ⟨⟨k, v, false⟩, 0, 0⟩
  obtain ⟨l, hadd, hd, hl'⟩ := Doublelist.addLast_spec hl hx (e := ⟨k, v, false⟩) (by simp)
  have hmap : c.map k = none := by
    rw [← Option.not_isSome_iff_eq_none, hc.isSome_map]
    exact hk
  have hxp : c.cache.heap.fresh ∉ ps := fun h => hx (mem_path.mpr (Or.inr (Or.inl h)))
  refine ⟨{ c with cache := l,
                   map := fun k' => if k' = k then some c.cache.heap.fresh else c.map k' },
    ps ++ [c.cache.heap.fresh], ?_, rfl,
    hc.push hmap hxp hl' (fun p => by simp [hd]) fun _ => rfl⟩
  simp [addRecently, hadd, hmap]

theorem writeDirty_spec (hc : Rep c ps es) (b : Bool) :
    ∃ c', c.writeDirty k b = some c' ∧ c'.cap = c.cap ∧ Rep c' ps (mark es k b) := by
  by_cases hk : (c.map k).isSome = true
  · obtain ⟨p, hp⟩ := Option.isSome_iff_exists.mp hk
    obtain ⟨hps, hkey⟩ := (hc.index k p).mp hp
    have hsome : (c.cache.heap.cells p).isSome = true := by
      obtain ⟨e, -, hd⟩ := hc.holds.data_of_mem hps
      exact Heap.isSome_cells_of_data? hd
    let h := c.cache.heap.setData p (fun e => { e with dirty := b })
    -- within the list, the node of `k` is the only one whose key is `k`
    have hdata : ∀ q ∈ ps, h.data? q = (c.cache.heap.data? q).map
        (fun e => if e.key = k then { e with dirty := b } else e) := by
      intro q hq
      obtain ⟨e, -, hd⟩ := hc.holds.data_of_mem hq
      simp only [h, Heap.data?_setData, hd, Option.map_some]
      by_cases hqp : q = p
      · subst hqp
        rw [hd, Option.map_some, Option.some.injEq] at hkey
        simp [hd, hkey]
      · have hne : e.key ≠ k := by
          intro he
          have := (hc.index k q).mpr ⟨hq, by simp [hd, he]⟩
          rw [hp, Option.some.injEq] at this
          exact hqp this.symm
        simp [hqp, hne]
    refine ⟨{ c with cache := { c.cache with heap := h } }, ?_, rfl, ⟨?_, ?_, ?_⟩, fun k' q => ?_⟩
    · simp [writeDirty, index, hp, Heap.writeData_of_isSome hsome, h]
    · exact hc.holds.linked.congr (fun q _ => by simp [h]) (fun q _ => by simp [h])
    · rw [List.map_congr_left hdata, mark, List.map_map]
      have := congrArg (List.map (Option.map
        (fun e : Entry K V => if e.key = k then { e with dirty := b } else e))) hc.holds.data
      simpa [List.map_map, Function.comp_def] using this
    · simp [hc.holds.size]
    · rw [hc.index k' q]
      refine and_congr_right fun hq => ?_
      show _ ↔ (h.data? q).map Entry.key = some k'
      rw [hdata q hq, Option.map_map]
      have hf : Entry.key ∘ (fun e : Entry K V => if e.key = k then { e with dirty := b } else e) =
          Entry.key := by
        funext e
        simp only [Function.comp_apply]
        split_ifs <;> rfl
      rw [hf]
  · have hkeys := mark_of_notMem (mt hc.isSome_map.mpr hk) b
    exact ⟨c, by simp [writeDirty, hk], rfl, hkeys.symm ▸ hc⟩

end ThreadSafeLRUCache
end DCache.LRU
