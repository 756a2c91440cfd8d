import DCache.Lib.DList
import DCache.Lib.Cyclic

/-! The circular list of servers (`master_server/serverList.h`): its pointer code, and the list
of elements that it represents. `none` is a read or write through a null or released pointer. -/
namespace DCache.Master
open DCache.Lib

variable {T : Type}

abbrev DLinkList (T : Type) := DList T

namespace DLinkList

def addLast (l : DLinkList T) (node : ℕ) : Option (DLinkList T) := do
  let last ← l.heap.prev? l.tail
  let h ← l.heap.writeNext last node
  let last ← h.prev? l.tail
  let h ← h.writePrev node last
  let h ← h.writeNext node l.tail
  let h ← h.writePrev l.tail node
  some ⟨h, l.head, l.tail, l.size_ + 1⟩

def delNode (l : DLinkList T) (node : ℕ) : Option (DLinkList T) := do
  let prev ← l.heap.prev? node
  let next ← l.heap.next? node
  let h ← l.heap.writeNext prev next
  let next ← h.next? node
  let prev ← h.prev? node
  let h ← h.writePrev next prev
  let h ← h.free node
  some ⟨h, l.head, l.tail, l.size_ - 1⟩

end DLinkList

structure ServerList (T : Type) where
  map_ : T → Option ℕ
  list : DLinkList T

namespace ServerList

def new [Inhabited T] : ServerList T := ⟨fun _ => none, DList.new default⟩

def isExisted (c : ServerList T) (t : T) : Bool := (c.map_ t).isSome

def size (c : ServerList T) : ℤ := c.list.size_

/-- `map_[t]`; the null pointer that `operator[]` puts in for an absent element. -/
def index (c : ServerList T) (t : T) : ℕ := (c.map_ t).getD 0

def getNext (c : ServerList T) (t : T) : Option T := do
  let node ← c.list.heap.next? (c.index t)
  if node = c.list.tail then do
    let first ← c.list.heap.next? c.list.head
    c.list.heap.data? first
  else c.list.heap.data? node

def getPrev (c : ServerList T) (t : T) : Option T := do
  let node ← c.list.heap.prev? (c.index t)
  if node = c.list.head then do
    let last ← c.list.heap.prev? c.list.tail
    c.list.heap.data? last
  else c.list.heap.data? node

variable [DecidableEq T]

def add (c : ServerList T) (t : T) : Option (ServerList T) := do
  let node := c.list.heap.fresh
  let l ← DLinkList.addLast { c.list with heap := c.list.heap.alloc ⟨t, 0, 0⟩ } node
  some ⟨fun u => if u = t then some node else c.map_ u, l⟩

def del (c : ServerList T) (t : T) : Option (ServerList T) := do
  let l ← DLinkList.delNode c.list (c.index t)
  some ⟨fun u => if u = t then none else c.map_ u, l⟩

end ServerList

namespace DLinkList
variable {l : DLinkList T} {ps ps₁ ps₂ : List ℕ} {es es₁ es₂ : List T} {x : ℕ} {e : T}

private theorem addLast_holds (hl : l.Holds ps es) (hx : x ∉ path l.head ps l.tail)
    (hd : l.heap.data? x = some e) : ∃ l' : DLinkList T, addLast l x = some l' ∧
      l'.heap.data? = l.heap.data? ∧ l'.Holds (ps ++ [x]) (es ++ [e]) := by
  obtain ⟨a, ha, ham, hat, has, hts⟩ := hl.last
  have hxs := Heap.isSome_cells_of_data? hd
  have hax : a ≠ x := fun h => hx (h ▸ ham)
  have hxt : x ≠ l.tail := fun h => hx (mem_path.mpr (Or.inr (Or.inr h)))
  let h := (((l.heap.setNext a x).setPrev x a).setNext x l.tail).setPrev l.tail x
  have hrun : addLast l x = some ⟨h, l.head, l.tail, l.size_ + 1⟩ := by
    simp [addLast, ha, Heap.writePrev_of_isSome, Heap.writeNext_of_isSome, hxs, hts, has, h]
  have hdata : h.data? = l.heap.data? := by
    funext p
    simp [h]
  refine ⟨_, hrun, hdata, hl.pushBack hx hd ha hdata (fun p => ?_) (fun p => ?_)⟩
  · by_cases hpx : p = x
    · simp [h, hpx, hxs]
    · simp [h, hpx, has]
  · by_cases hpt : p = l.tail
    · simp [h, hpt, hts]
    · simp [h, hpt, hxs]

private theorem delNode_holds (hl : l.Holds (ps₁ ++ x :: ps₂) (es₁ ++ e :: es₂))
    (hlen : ps₁.length = es₁.length) (hd : l.heap.data? x = some e) :
    ∃ l' : DLinkList T, delNode l x = some { l' with heap := l'.heap.erase x } ∧ l'.head = l.head ∧
      l'.tail = l.tail ∧ l'.heap.data? = l.heap.data? ∧
      l'.Holds (ps₁ ++ ps₂) (es₁ ++ es₂) := by
  obtain ⟨a, b, ha, hb, hax, has, hbs⟩ := hl.neighbours
  have hxs := Heap.isSome_cells_of_data? hd
  let h := (l.heap.setNext a b).setPrev b a
  have hdata : h.data? = l.heap.data? := by
    funext p
    simp [h]
  have hrun : delNode l x = some ⟨h.erase x, l.head, l.tail, l.size_ - 1⟩ := by
    simp [delNode, ha, hb, Heap.writePrev_of_isSome, Heap.writeNext_of_isSome,
      Heap.free_of_isSome, has, hbs, hxs, h, Ne.symm hax]
  exact ⟨⟨h, l.head, l.tail, l.size_ - 1⟩, hrun, rfl, rfl, hdata, hl.unlink hlen ha hb hdata
    (fun p => by simp [h, has]) (fun p => by simp [h, hbs])⟩

end DLinkList

namespace ServerList

/-- The elements in the order in which they were added. -/
def Rep (c : ServerList T) (es : List T) : Prop := ∃ ps, DList.Indexed id c.list c.map_ ps es

variable {c : ServerList T} {es : List T} {t : T}

theorem Rep.new [Inhabited T] : Rep (new : ServerList T) [] :=
  ⟨[], DList.new_holds _, by simp [ServerList.new]⟩

theorem Rep.isExisted (hc : Rep c es) : c.isExisted t = true ↔ t ∈ es := by
  obtain ⟨ps, hps⟩ := hc
  simpa [ServerList.isExisted] using hps.isSome_map (k := t)

theorem Rep.size (hc : Rep c es) : c.size = es.length := by
  obtain ⟨ps, hps⟩ := hc
  exact hps.holds.size

private theorem Rep.index_of_notMem (hc : Rep c es) (ht : t ∉ es) : c.index t = 0 := by
  have hn : c.map_ t = none := by
    rw [← Option.not_isSome_iff_eq_none]
    exact mt hc.isExisted.mp ht
  rw [index, hn, Option.getD_none]

/-- A look-up of an absent element dereferences the null pointer. -/
theorem Rep.getNext_of_notMem (hc : Rep c es) (ht : t ∉ es) : c.getNext t = none := by
  simp [ServerList.getNext, hc.index_of_notMem ht, Heap.next?, c.list.heap.null]

theorem Rep.getPrev_of_notMem (hc : Rep c es) (ht : t ∉ es) : c.getPrev t = none := by
  simp [ServerList.getPrev, hc.index_of_notMem ht, Heap.prev?, c.list.heap.null]

/-- A cell of the list is named by one element only. -/
theorem Rep.nodup (hc : Rep c es) : es.Nodup := by
  obtain ⟨ps, hps⟩ := hc
  have hnd : ps.Nodup := by
    have := hps.holds.linked.nodup
    rw [path, List.nodup_cons, List.nodup_append'] at this
    exact this.2.1
  have hinj : (ps.map c.list.heap.data?).Nodup := by
    refine List.Nodup.map_on (fun p hp q hq hpq => ?_) hnd
    obtain ⟨e, -, he⟩ := hps.holds.data_of_mem hp
    have h₁ := (hps.index e p).mpr ⟨hp, by simp [he]⟩
    have h₂ := (hps.index e q).mpr ⟨hq, by simp [← hpq, he]⟩
    exact Option.some.inj (h₁.symm.trans h₂)
  rw [hps.holds.data] at hinj
  exact hinj.of_map _

private theorem data_headD {f : ℕ → Option T} {ps : List ℕ} (h : ps.map f = es.map some)
    (hne : es ≠ []) (a : ℕ) (d : T) : f (ps.headD a) = some (es.headD d) := by
  obtain ⟨e, es, rfl⟩ := List.exists_cons_of_ne_nil hne
  obtain ⟨p, ps, rfl, hp, -⟩ := List.map_eq_cons_iff.mp h
  exact hp

private theorem data_getLastD {f : ℕ → Option T} {ps : List ℕ} (h : ps.map f = es.map some)
    (hne : es ≠ []) (a : ℕ) (d : T) : f (ps.getLastD a) = some (es.getLastD d) := by
  obtain ⟨es, e, rfl⟩ := (List.eq_nil_or_concat' es).resolve_left hne
  rw [List.map_append] at h
  obtain ⟨ps, qs, rfl, -, hq⟩ := List.map_eq_append_iff.mp h
  obtain ⟨p, qs, rfl, hp, hqs⟩ := List.map_eq_cons_iff.mp hq
  obtain rfl : qs = [] := List.map_eq_nil_iff.mp hqs
  rw [List.getLastD_concat, List.getLastD_concat, hp]

section Listed

/-- The entries of the list, which may name an element more than once. The map leads to one of its
entries, if it has the element. -/
def Listed (c : ServerList T) (es : List T) : Prop :=
  ∃ ps, c.list.Holds ps es ∧ ∀ t p, c.map_ t = some p → p ∈ ps ∧ c.list.heap.data? p = some t

theorem Listed.new [Inhabited T] : Listed (new : ServerList T) [] := ⟨[], DList.new_holds _, nofun⟩

theorem Rep.listed (hc : Rep c es) : Listed c es := by
  obtain ⟨ps, hps⟩ := hc
  refine ⟨ps, hps.holds, fun t p h => ?_⟩
  simpa using (hps.index t p).mp h

theorem Listed.unique {es' : List T} (hc : Listed c es) (hc' : Listed c es') : es = es' := by
  obtain ⟨ps, hps, -⟩ := hc
  obtain ⟨ps', hps', -⟩ := hc'
  exact (hps.unique hps').2

theorem Listed.size (hc : Listed c es) : c.size = es.length := by
  obtain ⟨ps, hps, -⟩ := hc
  exact hps.size

/-- The cell to which the map leads. -/
private theorem Listed.cell (hc : Listed c es) (ht : c.isExisted t = true) :
    ∃ ps₁ p ps₂, c.list.Holds (ps₁ ++ p :: ps₂) es ∧ c.index t = p ∧
      c.list.heap.data? p = some t ∧ ∀ u q, c.map_ u = some q →
        q ∈ ps₁ ++ p :: ps₂ ∧ c.list.heap.data? q = some u := by
  obtain ⟨ps, hps, hmap⟩ := hc
  obtain ⟨p, hp⟩ := Option.isSome_iff_exists.mp ht
  obtain ⟨hmem, hd⟩ := hmap t p hp
  obtain ⟨ps₁, ps₂, rfl⟩ := List.append_of_mem hmem
  exact ⟨ps₁, p, ps₂, hps, by rw [index, hp, Option.getD_some], hd, hmap⟩

theorem Listed.exists_getNext (hc : Listed c es) (ht : c.isExisted t = true) :
    ∃ u ∈ es, c.getNext t = some u := by
  obtain ⟨ps₁, p, ps₂, hl, hindex, -⟩ := hc.cell ht
  rw [ServerList.getNext, hindex, hl.linked.next?_mid, Option.bind_eq_bind, Option.bind_some]
  cases ps₂ with
  | nil =>
    rw [List.headD_nil, if_pos rfl, hl.linked.next?_head, Option.bind_some]
    apply hl.data_of_mem
    cases ps₁ <;> simp
  | cons q ps₂ =>
    rw [List.headD_cons, if_neg (hl.linked.ne_tail (Or.inr (by simp)))]
    exact hl.data_of_mem (by simp)

theorem Listed.exists_getPrev (hc : Listed c es) (ht : c.isExisted t = true) :
    ∃ u ∈ es, c.getPrev t = some u := by
  obtain ⟨ps₁, p, ps₂, hl, hindex, -⟩ := hc.cell ht
  rw [ServerList.getPrev, hindex, hl.linked.prev?_mid, Option.bind_eq_bind, Option.bind_some]
  have hlast : ∀ (ps : List ℕ) (a : ℕ), ps ≠ [] → ps.getLastD a ∈ ps := fun ps a hne => by
    obtain ⟨qs, q, rfl⟩ := (List.eq_nil_or_concat' ps).resolve_left hne
    simp
  rcases eq_or_ne ps₁ [] with rfl | hne
  · rw [List.getLastD_nil, if_pos rfl, hl.linked.prev?_tail, Option.bind_some]
    exact hl.data_of_mem (hlast _ _ (by simp))
  · have hmem := hlast ps₁ c.list.head hne
    rw [if_neg]
    · exact hl.data_of_mem (List.mem_append_left _ hmem)
    · intro h
      have hn := hl.linked.nodup
      rw [path, List.nodup_cons] at hn
      exact hn.1 (List.mem_append_left _ (List.mem_append_left _ (h ▸ hmem)))

end Listed

variable [DecidableEq T]

theorem Rep.getNext (hc : Rep c es) (ht : t ∈ es) : c.getNext t = some (es.next t ht) := by
  have hn := hc.nodup
  obtain ⟨ps, hps⟩ := hc
  obtain ⟨es₁, es₂, rfl⟩ := List.append_of_mem ht
  obtain ⟨ps₁, p, ps₂, rfl, h₁, hp, h₂⟩ := hps.holds.split
  have hm : c.index t = p := by
    rw [index, (hps.index t p).mpr ⟨by simp, by simp [hp]⟩, Option.getD_some]
  have hl := hps.holds.linked
  rw [next_split hn, ServerList.getNext, hm, hl.next?_mid, Option.bind_eq_bind, Option.bind_some]
  rcases eq_or_ne es₂ [] with rfl | hne
  · -- the last element: round to the head
    obtain rfl : ps₂ = [] := List.map_eq_nil_iff.mp h₂
    rw [List.headD_nil, if_pos rfl, hl.next?_head, Option.bind_some,
      data_headD hps.holds.data (by simp) _ t, List.nil_append]
    cases es₁ <;> rfl
  · have hne' : ps₂ ≠ [] := by
      rintro rfl
      exact hne (List.map_eq_nil_iff.mp h₂.symm)
    obtain ⟨q, qs, rfl⟩ := List.exists_cons_of_ne_nil hne'
    obtain ⟨e, es, rfl⟩ := List.exists_cons_of_ne_nil hne
    rw [if_neg (hl.ne_tail (Or.inr (by simp))), data_headD h₂ hne _ t]
    rfl

theorem Rep.getPrev (hc : Rep c es) (ht : t ∈ es) : c.getPrev t = some (es.prev t ht) := by
  have hn := hc.nodup
  obtain ⟨ps, hps⟩ := hc
  obtain ⟨es₁, es₂, rfl⟩ := List.append_of_mem ht
  obtain ⟨ps₁, p, ps₂, rfl, h₁, hp, h₂⟩ := hps.holds.split
  have hm : c.index t = p := by
    rw [index, (hps.index t p).mpr ⟨by simp, by simp [hp]⟩, Option.getD_some]
  have hl := hps.holds.linked
  rw [prev_split hn, ServerList.getPrev, hm, hl.prev?_mid, Option.bind_eq_bind, Option.bind_some]
  rcases List.eq_nil_or_concat' es₁ with rfl | ⟨es₁, e, rfl⟩
  · -- the first element: round to the tail
    obtain rfl : ps₁ = [] := List.map_eq_nil_iff.mp h₁
    rw [List.getLastD_nil, if_pos rfl, hl.prev?_tail, Option.bind_some,
      data_getLastD hps.holds.data (by simp) _ t, List.nil_append, List.append_nil,
      List.getLastD_cons]
  · have hlast := data_getLastD h₁ (by simp) c.list.head t
    have hmem : ps₁.getLastD c.list.head ∈ ps₁ := by
      have hne : ps₁ ≠ [] := by
        rintro rfl
        simp at h₁
      obtain ⟨qs, q, rfl⟩ := (List.eq_nil_or_concat' ps₁).resolve_left hne
      simp
    rw [if_neg, hlast]
    · simp [List.getLastD_eq_getLast?]
    · intro h
      have hnd := hl.nodup
      rw [path, List.nodup_cons] at hnd
      exact hnd.1 (List.mem_append_left _ (List.mem_append_left _ (h ▸ hmem)))

theorem Rep.add (hc : Rep c es) (ht : t ∉ es) : ∃ c', c.add t = some c' ∧ Rep c' (es ++ [t]) := by
  obtain ⟨ps, hps⟩ := hc
  obtain ⟨hl, hx⟩ := hps.holds.alloc ⟨t, 0, 0⟩
  obtain ⟨l, hadd, hd, hl'⟩ := DLinkList.addLast_holds hl hx (e := t) (by simp)
  have hmap : c.map_ (id t) = none := by
    rw [← Option.not_isSome_iff_eq_none, hps.isSome_map]
    simpa using ht
  have hxp : c.list.heap.fresh ∉ ps := fun h => hx (mem_path.mpr (Or.inr (Or.inl h)))
  refine ⟨⟨fun u => if u = t then some c.list.heap.fresh else c.map_ u, l⟩, ?_, _,
    hps.push hmap hxp hl' (fun p => ?_) fun _ => rfl⟩
  · simp [ServerList.add, hadd]
  · simp [hd]

theorem Rep.del {es₁ es₂ : List T} (hc : Rep c (es₁ ++ t :: es₂)) :
    ∃ c', c.del t = some c' ∧ Rep c' (es₁ ++ es₂) := by
  obtain ⟨ps, hps⟩ := hc
  obtain ⟨ps₁, p, ps₂, rfl, hlen, hp, hm⟩ := hps.split
  obtain ⟨l, hdel, hh, ht, hd, hl⟩ := DLinkList.delNode_holds hps.holds hlen hp
  have hm' : c.map_ t = some p := hm
  refine ⟨⟨fun u => if u = t then none else c.map_ u, { l with heap := l.heap.erase p }⟩, ?_, _,
    hps.drop hp hm hh ht hd hl fun _ => rfl⟩
  simp [ServerList.del, index, hm', hdel]

theorem Listed.add (hc : Listed c es) (t : T) : ∃ c', c.add t = some c' ∧ Listed c' (es ++ [t]) ∧
    ∀ u, c'.isExisted u = true ↔ u = t ∨ c.isExisted u = true := by
  obtain ⟨ps, hps, hmap⟩ := hc
  obtain ⟨hl, hx⟩ := hps.alloc ⟨t, 0, 0⟩
  obtain ⟨l, hadd, hd, hl'⟩ := DLinkList.addLast_holds hl hx (e := t) (by simp)
  refine ⟨⟨fun u => if u = t then some c.list.heap.fresh else c.map_ u, l⟩, ?_,
    ⟨_, hl', fun u p hu => ?_⟩, fun u => ?_⟩
  · simp [ServerList.add, hadd]
  · dsimp only at hu ⊢
    rw [hd]
    split_ifs at hu with h
    · rw [← Option.some.inj hu, h]
      simp
    · obtain ⟨hmem, hdata⟩ := hmap u p hu
      have hne : p ≠ c.list.heap.fresh := by
        rintro rfl
        exact hx (mem_path.mpr (Or.inr (Or.inl hmem)))
      refine ⟨List.mem_append_left _ hmem, ?_⟩
      simpa [hne] using hdata
  · simp only [ServerList.isExisted]
    split_ifs with h <;> simp [h]

/-- An entry of the element goes, and the map forgets the element. -/
theorem Listed.del (hc : Listed c es) (ht : c.isExisted t = true) : ∃ es₁ es₂ c',
    es = es₁ ++ t :: es₂ ∧ c.del t = some c' ∧ Listed c' (es₁ ++ es₂) ∧
      ∀ u, c'.isExisted u = true ↔ u ≠ t ∧ c.isExisted u = true := by
  obtain ⟨ps₁, p, ps₂, hps, hindex, hd, hmap⟩ := hc.cell ht
  obtain ⟨es₁, rest, rfl, h₁, hrest⟩ : ∃ es₁ rest, es = es₁ ++ rest ∧
      es₁.map some = ps₁.map c.list.heap.data? ∧
      rest.map some = c.list.heap.data? p :: ps₂.map c.list.heap.data? := by
    apply List.map_eq_append_iff.mp
    rw [← hps.data, List.map_append, List.map_cons]
  obtain ⟨e, es₂, rfl, he, -⟩ := List.map_eq_cons_iff.mp hrest
  obtain rfl : e = t := Option.some.inj (he.trans hd)
  have hlen : ps₁.length = es₁.length := by simpa using (congrArg List.length h₁).symm
  obtain ⟨l, hdel, hhead, htail, hdata, hl⟩ := DLinkList.delNode_holds hps hlen hd
  have hout : p ∉ path l.head (ps₁ ++ ps₂) l.tail := by
    rw [hhead, htail]
    exact hps.linked.notMem_rest
  refine ⟨es₁, es₂, ⟨fun u => if u = e then none else c.map_ u, { l with heap := l.heap.erase p }⟩,
    rfl, ?_, ⟨_, hl.erase hout, fun u q hu => ?_⟩, fun u => ?_⟩
  · simp [ServerList.del, hindex, hdel]
  · dsimp only at hu ⊢
    split_ifs at hu with hue
    obtain ⟨hmem, hq⟩ := hmap u q hu
    have hne : q ≠ p := by
      rintro rfl
      exact hue (Option.some.inj (hq.symm.trans hd))
    rw [Heap.data?_erase, if_neg hne, hdata]
    refine ⟨?_, hq⟩
    simp only [List.mem_append, List.mem_cons] at hmem ⊢
    tauto
  · simp only [ServerList.isExisted]
    split_ifs with h <;> simp [h]

end ServerList
end DCache.Master
