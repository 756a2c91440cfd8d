import DCache.Lib.Heap

/-! Doubly linked cells on a heap, and the chains they form between two sentinels. The
lemmas say how the chain changes when a cell is spliced in or out. -/
namespace DCache.Lib

/-- A list cell: its data and the addresses of its two neighbours. -/
structure Cell (α : Type*) where
  data : α
  next : ℕ
  prev : ℕ

namespace Heap
variable {α : Type*}

def next? (h : Heap (Cell α)) (p : ℕ) : Option ℕ := (h.cells p).map Cell.next
def prev? (h : Heap (Cell α)) (p : ℕ) : Option ℕ := (h.cells p).map Cell.prev
def data? (h : Heap (Cell α)) (p : ℕ) : Option α := (h.cells p).map Cell.data

def setNext (h : Heap (Cell α)) (p q : ℕ) : Heap (Cell α) :=
  h.update p (fun c => { c with next := q })

def setPrev (h : Heap (Cell α)) (p q : ℕ) : Heap (Cell α) :=
  h.update p (fun c => { c with prev := q })

def setData (h : Heap (Cell α)) (p : ℕ) (f : α → α) : Heap (Cell α) :=
  h.update p (fun c => { c with data := f c.data })

/-- `p->next = q`. -/
def writeNext (h : Heap (Cell α)) (p q : ℕ) : Option (Heap (Cell α)) :=
  h.modify p (fun c => { c with next := q })

/-- `p->prev = q`. -/
def writePrev (h : Heap (Cell α)) (p q : ℕ) : Option (Heap (Cell α)) :=
  h.modify p (fun c => { c with prev := q })

def writeData (h : Heap (Cell α)) (p : ℕ) (f : α → α) : Option (Heap (Cell α)) :=
  h.modify p (fun c => { c with data := f c.data })

section Accessors
variable (h : Heap (Cell α)) (p q r : ℕ) (f : α → α)

@[simp] theorem next?_setNext : (h.setNext p q).next? r =
    if r = p then if (h.cells p).isSome then some q else none else h.next? r := by
  simp only [next?, setNext, cells_update]
  cases h.cells p <;> split_ifs <;> simp_all

@[simp] theorem next?_setPrev : (h.setPrev p q).next? r = h.next? r := by
  simp only [next?, setPrev, cells_update]
  split_ifs with hr
  · subst hr; cases h.cells r <;> rfl
  · rfl

@[simp] theorem next?_setData : (h.setData p f).next? r = h.next? r := by
  simp only [next?, setData, cells_update]
  split_ifs with hr
  · subst hr; cases h.cells r <;> rfl
  · rfl

@[simp] theorem prev?_setPrev : (h.setPrev p q).prev? r =
    if r = p then if (h.cells p).isSome then some q else none else h.prev? r := by
  simp only [prev?, setPrev, cells_update]
  cases h.cells p <;> split_ifs <;> simp_all

@[simp] theorem prev?_setNext : (h.setNext p q).prev? r = h.prev? r := by
  simp only [prev?, setNext, cells_update]
  split_ifs with hr
  · subst hr; cases h.cells r <;> rfl
  · rfl

@[simp] theorem prev?_setData : (h.setData p f).prev? r = h.prev? r := by
  simp only [prev?, setData, cells_update]
  split_ifs with hr
  · subst hr; cases h.cells r <;> rfl
  · rfl

@[simp] theorem data?_setNext : (h.setNext p q).data? r = h.data? r := by
  simp only [data?, setNext, cells_update]
  split_ifs with hr
  · subst hr; cases h.cells r <;> rfl
  · rfl

@[simp] theorem data?_setPrev : (h.setPrev p q).data? r = h.data? r := by
  simp only [data?, setPrev, cells_update]
  split_ifs with hr
  · subst hr; cases h.cells r <;> rfl
  · rfl

@[simp] theorem data?_setData :
    (h.setData p f).data? r = if r = p then (h.data? p).map f else h.data? r := by
  simp only [data?, setData, cells_update]
  split_ifs <;> cases h.cells p <;> rfl

@[simp] theorem isSome_setNext :
    ((h.setNext p q).cells r).isSome = (h.cells r).isSome := isSome_cells_update h p r _

@[simp] theorem isSome_setPrev :
    ((h.setPrev p q).cells r).isSome = (h.cells r).isSome := isSome_cells_update h p r _

@[simp] theorem isSome_setData :
    ((h.setData p f).cells r).isSome = (h.cells r).isSome := isSome_cells_update h p r _

@[simp] theorem next?_alloc (c : Cell α) :
    (h.alloc c).next? r = if r = h.fresh then some c.next else h.next? r := by
  simp only [next?, cells_alloc]
  split_ifs <;> rfl

@[simp] theorem prev?_alloc (c : Cell α) :
    (h.alloc c).prev? r = if r = h.fresh then some c.prev else h.prev? r := by
  simp only [prev?, cells_alloc]
  split_ifs <;> rfl

@[simp] theorem data?_alloc (c : Cell α) :
    (h.alloc c).data? r = if r = h.fresh then some c.data else h.data? r := by
  simp only [data?, cells_alloc]
  split_ifs <;> rfl

@[simp] theorem next?_erase : (h.erase p).next? r = if r = p then none else h.next? r := by
  simp only [next?, cells_erase]
  split_ifs <;> rfl

@[simp] theorem prev?_erase : (h.erase p).prev? r = if r = p then none else h.prev? r := by
  simp only [prev?, cells_erase]
  split_ifs <;> rfl

@[simp] theorem data?_erase : (h.erase p).data? r = if r = p then none else h.data? r := by
  simp only [data?, cells_erase]
  split_ifs <;> rfl

end Accessors

theorem isSome_cells_of_next? {h : Heap (Cell α)} {p q : ℕ} (hp : h.next? p = some q) :
    (h.cells p).isSome = true := by
  cases hc : h.cells p with
  | none => simp [next?, hc] at hp
  | some c => rfl

theorem isSome_cells_of_prev? {h : Heap (Cell α)} {p q : ℕ} (hp : h.prev? p = some q) :
    (h.cells p).isSome = true := by
  cases hc : h.cells p with
  | none => simp [prev?, hc] at hp
  | some c => rfl

theorem isSome_cells_of_data? {h : Heap (Cell α)} {p : ℕ} {a : α} (hp : h.data? p = some a) :
    (h.cells p).isSome = true := by
  cases hc : h.cells p with
  | none => simp [data?, hc] at hp
  | some c => rfl

theorem writeNext_of_isSome {h : Heap (Cell α)} {p : ℕ} (hp : (h.cells p).isSome = true)
    (q : ℕ) : h.writeNext p q = some (h.setNext p q) := modify_of_isSome hp _

theorem writePrev_of_isSome {h : Heap (Cell α)} {p : ℕ} (hp : (h.cells p).isSome = true)
    (q : ℕ) : h.writePrev p q = some (h.setPrev p q) := modify_of_isSome hp _

theorem writeData_of_isSome {h : Heap (Cell α)} {p : ℕ} (hp : (h.cells p).isSome = true)
    (f : α → α) : h.writeData p f = some (h.setData p f) := modify_of_isSome hp _

end Heap

section Chains
variable {α : Type*} {h h' : Heap (Cell α)} {head tail : ℕ} {ps : List ℕ}

/-- `p` and `q` name each other as neighbours. -/
def Adj (h : Heap (Cell α)) (p q : ℕ) : Prop := h.next? p = some q ∧ h.prev? q = some p

/-- The addresses of a chain, its sentinels included. -/
def path (head : ℕ) (ps : List ℕ) (tail : ℕ) : List ℕ := head :: (ps ++ [tail])

/-- Forward and backward links both describe `ps` between the sentinels. -/
structure Linked (h : Heap (Cell α)) (head : ℕ) (ps : List ℕ) (tail : ℕ) : Prop where
  chain : (path head ps tail).IsChain (Adj h)
  nodup : (path head ps tail).Nodup

@[simp] theorem mem_path {p : ℕ} : p ∈ path head ps tail ↔ p = head ∨ p ∈ ps ∨ p = tail := by
  simp [path]

theorem path_append_cons (ps qs : List ℕ) (x : ℕ) :
    path head (ps ++ x :: qs) tail = (head :: ps) ++ x :: (qs ++ [tail]) := by
  simp [path]

theorem linked_nil : Linked h head [] tail ↔ head ≠ tail ∧ Adj h head tail := by
  constructor
  · rintro ⟨hc, hn⟩
    simpa [path, and_comm] using And.intro hc hn
  · rintro ⟨hne, ha⟩
    exact ⟨by simpa [path] using ha, by simpa [path] using hne⟩

theorem linked_cons {p : ℕ} : Linked h head (p :: ps) tail ↔
    (head ≠ p ∧ head ∉ ps ∧ head ≠ tail) ∧ Adj h head p ∧ Linked h p ps tail := by
  constructor
  · rintro ⟨hc, hn⟩
    simp only [path, List.cons_append, List.isChain_cons_cons] at hc
    rw [path, List.nodup_cons] at hn
    refine ⟨by simpa using hn.1, hc.1, hc.2, hn.2⟩
  · rintro ⟨hne, ha, hc, hn⟩
    constructor
    · simp only [path, List.cons_append, List.isChain_cons_cons]
      exact ⟨ha, hc⟩
    · rw [path, List.nodup_cons]
      exact ⟨by simpa using hne, hn⟩

/-- Only the links along the chain matter. -/
theorem Linked.congr (hl : Linked h head ps tail)
    (hn : ∀ p, p = head ∨ p ∈ ps → h'.next? p = h.next? p)
    (hp : ∀ p, p ∈ ps ∨ p = tail → h'.prev? p = h.prev? p) : Linked h' head ps tail := by
  induction ps generalizing head with
  | nil =>
    obtain ⟨hne, ha⟩ := linked_nil.mp hl
    exact linked_nil.mpr ⟨hne, (hn head (Or.inl rfl)).trans ha.1, (hp tail (Or.inr rfl)).trans ha.2⟩
  | cons p ps ih =>
    obtain ⟨hne, ha, ht⟩ := linked_cons.mp hl
    refine linked_cons.mpr ⟨hne, ⟨?_, ?_⟩, ih ht ?_ ?_⟩
    · exact (hn head (Or.inl rfl)).trans ha.1
    · exact (hp p (Or.inl (by simp))).trans ha.2
    · intro q hq
      exact hn q (Or.inr (by simpa using hq))
    · intro q hq
      exact hp q (by rcases hq with hq | hq <;> simp [hq])

theorem Linked.isSome (hl : Linked h head ps tail) :
    ∀ p ∈ path head ps tail, (h.cells p).isSome = true := by
  induction ps generalizing head with
  | nil =>
    have ha := (linked_nil.mp hl).2
    intro p hp
    rcases mem_path.mp hp with rfl | hp | rfl
    · exact Heap.isSome_cells_of_next? ha.1
    · exact absurd hp (by simp)
    · exact Heap.isSome_cells_of_prev? ha.2
  | cons q ps ih =>
    obtain ⟨-, ha, ht⟩ := linked_cons.mp hl
    intro p hp
    rcases mem_path.mp hp with rfl | hp
    · exact Heap.isSome_cells_of_next? ha.1
    · exact ih ht p (by simpa [or_assoc] using hp)

/-- The tail sentinel is the head of nothing. -/
theorem Linked.ne_tail {p : ℕ} (hl : Linked h head ps tail) (hp : p = head ∨ p ∈ ps) :
    p ≠ tail := by
  rintro rfl
  have hn := hl.nodup
  rw [path, ← List.cons_append, List.nodup_append'] at hn
  exact hn.2.2 (by simpa using hp) (by simp)

/-- A cell of the chain is no cell of the rest. -/
theorem Linked.notMem_rest {x : ℕ} {qs : List ℕ} (hl : Linked h head (ps ++ x :: qs) tail) :
    x ∉ path head (ps ++ qs) tail := by
  have hn := hl.nodup
  rw [path_append_cons, List.nodup_middle, List.nodup_cons] at hn
  simpa [path] using hn.1

/-- The chain is no longer than the number of addresses handed out. -/
theorem Linked.length_le (hl : Linked h head ps tail) : ps.length + 2 ≤ h.next := by
  have hb := Heap.length_le_next hl.nodup hl.isSome
  have hlen : (path head ps tail).length = ps.length + 2 := by simp [path]
  omega

/-- The tail's predecessor is a cell of the chain or the head. -/
theorem Linked.prev_tail (hl : Linked h head ps tail) :
    ∃ a, h.prev? tail = some a ∧ (a = head ∨ a ∈ ps) := by
  induction ps generalizing head with
  | nil => exact ⟨head, (linked_nil.mp hl).2.2, Or.inl rfl⟩
  | cons p ps ih =>
    obtain ⟨a, ha, hm⟩ := ih (linked_cons.mp hl).2.2
    exact ⟨a, ha, Or.inr (by simpa using hm)⟩

theorem Linked.next?_head (hl : Linked h head ps tail) : h.next? head = some (ps.headD tail) := by
  cases ps with
  | nil => exact (linked_nil.mp hl).2.1
  | cons p ps => exact (linked_cons.mp hl).2.1.1

theorem Linked.prev?_tail (hl : Linked h head ps tail) :
    h.prev? tail = some (ps.getLastD head) := by
  induction ps generalizing head with
  | nil => exact (linked_nil.mp hl).2.2
  | cons p ps ih => rw [ih (linked_cons.mp hl).2.2, List.getLastD_cons]

theorem Linked.next?_mid {x : ℕ} {qs : List ℕ} (hl : Linked h head (ps ++ x :: qs) tail) :
    h.next? x = some (qs.headD tail) := by
  induction ps generalizing head with
  | nil => exact (linked_cons.mp hl).2.2.next?_head
  | cons p ps ih => exact ih (linked_cons.mp hl).2.2

theorem Linked.prev?_mid {x : ℕ} {qs : List ℕ} (hl : Linked h head (ps ++ x :: qs) tail) :
    h.prev? x = some (ps.getLastD head) := by
  induction ps generalizing head with
  | nil => exact (linked_cons.mp hl).2.1.2
  | cons p ps ih => rw [ih (linked_cons.mp hl).2.2, List.getLastD_cons]

/-- The links determine the cells. -/
theorem Linked.unique {qs : List ℕ} (hl : Linked h head ps tail) (hl' : Linked h head qs tail) :
    ps = qs := by
  induction ps generalizing head qs with
  | nil =>
    cases qs with
    | nil => rfl
    | cons q qs =>
      have hq : tail = q := Option.some.inj (hl.next?_head.symm.trans hl'.next?_head)
      exact absurd hq.symm (hl'.ne_tail (Or.inr List.mem_cons_self))
  | cons p ps ih =>
    have hp := hl.next?_head
    cases qs with
    | nil =>
      have hq : p = tail := Option.some.inj (hp.symm.trans hl'.next?_head)
      exact absurd hq (hl.ne_tail (Or.inr List.mem_cons_self))
    | cons q qs =>
      obtain rfl : p = q := Option.some.inj (hp.symm.trans hl'.next?_head)
      rw [ih (linked_cons.mp hl).2.2 (linked_cons.mp hl').2.2]

/-- Splicing `x` in between the last cell and the tail. -/
theorem Linked.pushBack {a x : ℕ} (hl : Linked h head ps tail) (ha : h.prev? tail = some a)
    (hx : x ∉ path head ps tail)
    (hn : ∀ p, p = head ∨ p ∈ ps → h'.next? p = if p = a then some x else h.next? p)
    (hp : ∀ p ∈ ps, h'.prev? p = h.prev? p) (hxn : h'.next? x = some tail)
    (hxp : h'.prev? x = some a) (htp : h'.prev? tail = some x) :
    Linked h' head (ps ++ [x]) tail := by
  induction ps generalizing head with
  | nil =>
    obtain ⟨hne, hadj⟩ := linked_nil.mp hl
    obtain rfl : head = a := Option.some.inj (hadj.2.symm.trans ha)
    simp only [mem_path, List.not_mem_nil, false_or, not_or] at hx
    have hhx : h'.next? head = some x := by rw [hn head (Or.inl rfl), if_pos rfl]
    exact linked_cons.mpr ⟨⟨Ne.symm hx.1, by simp, hne⟩, ⟨hhx, hxp⟩,
      linked_nil.mpr ⟨hx.2, hxn, htp⟩⟩
  | cons p ps ih =>
    obtain ⟨hne, hadj, ht⟩ := linked_cons.mp hl
    -- the last cell lies behind the head, so the head's own link stays
    have hha : head ≠ a := by
      obtain ⟨a', ha', hm⟩ := ht.prev_tail
      obtain rfl : a' = a := Option.some.inj (ha'.symm.trans ha)
      rintro rfl
      rcases hm with rfl | hm
      · exact hne.1 rfl
      · exact hne.2.1 hm
    simp only [mem_path, List.mem_cons, not_or] at hx
    refine linked_cons.mpr ⟨⟨hne.1, ?_, hne.2.2⟩, ⟨?_, ?_⟩, ih ht ?_ ?_ ?_⟩
    · simpa using ⟨hne.2.1, Ne.symm hx.1⟩
    · rw [hn head (Or.inl rfl), if_neg hha]
      exact hadj.1
    · exact (hp p (by simp)).trans hadj.2
    · simpa [and_assoc] using hx.2
    · intro q hq
      exact hn q (Or.inr (by simpa using hq))
    · intro q hq
      exact hp q (by simp [hq])

/-- The neighbours of a cell of the chain. -/
theorem Linked.neighbours {x : ℕ} {qs : List ℕ} (hl : Linked h head (ps ++ x :: qs) tail) :
    ∃ a b, h.prev? x = some a ∧ h.next? x = some b ∧ (a = head ∨ a ∈ ps) ∧
      (b ∈ qs ∨ b = tail) := by
  induction ps generalizing head with
  | nil =>
    obtain ⟨-, hadj, ht⟩ := linked_cons.mp hl
    cases qs with
    | nil => exact ⟨head, tail, hadj.2, (linked_nil.mp ht).2.1, Or.inl rfl, Or.inr rfl⟩
    | cons q qs =>
      exact ⟨head, q, hadj.2, (linked_cons.mp ht).2.1.1, Or.inl rfl, Or.inl (by simp)⟩
  | cons p ps ih =>
    obtain ⟨a, b, ha, hb, ham, hbm⟩ := ih (linked_cons.mp hl).2.2
    exact ⟨a, b, ha, hb, Or.inr (by simpa using ham), hbm⟩

/-- Splicing `x` out: its neighbours `a` and `b` are joined. -/
theorem Linked.unlink {a b x : ℕ} {qs : List ℕ} (hl : Linked h head (ps ++ x :: qs) tail)
    (ha : h.prev? x = some a) (hb : h.next? x = some b)
    (hn : ∀ p, p = head ∨ p ∈ ps ++ qs → h'.next? p = if p = a then some b else h.next? p)
    (hp : ∀ p, p ∈ ps ++ qs ∨ p = tail → h'.prev? p = if p = b then some a else h.prev? p) :
    Linked h' head (ps ++ qs) tail := by
  induction ps generalizing head with
  | nil =>
    obtain ⟨hne, hadj, ht⟩ := linked_cons.mp hl
    obtain rfl : head = a := Option.some.inj (hadj.2.symm.trans ha)
    have hhn : h'.next? head = some b := by rw [hn head (Or.inl rfl), if_pos rfl]
    cases qs with
    | nil =>
      obtain rfl : tail = b := Option.some.inj ((linked_nil.mp ht).2.1.symm.trans hb)
      exact linked_nil.mpr ⟨hne.2.2, hhn, by rw [hp tail (Or.inr rfl), if_pos rfl]⟩
    | cons q qs =>
      obtain ⟨-, hxq, hq⟩ := linked_cons.mp ht
      obtain rfl : q = b := Option.some.inj (hxq.1.symm.trans hb)
      have hqn := List.nodup_cons.mp hq.nodup
      simp only [List.mem_cons, not_or] at hne
      refine linked_cons.mpr ⟨⟨hne.2.1.1, hne.2.1.2, hne.2.2⟩, ⟨hhn, ?_⟩, hq.congr ?_ ?_⟩
      · rw [hp q (Or.inl (by simp)), if_pos rfl]
      · intro p hpm
        rw [hn p (Or.inr (by simpa using hpm)), if_neg]
        rintro rfl
        rcases hpm with rfl | hpm
        · exact hne.2.1.1 rfl
        · exact hne.2.1.2 hpm
      · intro p hpm
        rw [hp p (by rcases hpm with hpm | hpm <;> simp [hpm]), if_neg]
        rintro rfl
        exact hqn.1 (by simpa [or_comm] using hpm.symm)
  | cons p ps ih =>
    rw [List.cons_append] at hl
    obtain ⟨hne, hadj, ht⟩ := linked_cons.mp hl
    obtain ⟨a', b', ha', hb', ham, hbm⟩ := ht.neighbours
    obtain rfl : a' = a := Option.some.inj (ha'.symm.trans ha)
    obtain rfl : b' = b := Option.some.inj (hb'.symm.trans hb)
    have hpn := List.nodup_cons.mp ht.nodup
    simp only [List.mem_append, List.mem_cons, not_or] at hne
    refine linked_cons.mpr ⟨⟨hne.1, by simp [hne.2.1.1, hne.2.1.2.2], hne.2.2⟩, ⟨?_, ?_⟩, ih ht ?_ ?_⟩
    · rw [hn head (Or.inl rfl), if_neg]
      · exact hadj.1
      · rintro rfl
        rcases ham with rfl | ham
        · exact hne.1 rfl
        · exact hne.2.1.1 ham
    · rw [hp p (Or.inl (by simp)), if_neg]
      · exact hadj.2
      · rintro rfl
        apply hpn.1
        rcases hbm with hbm | rfl <;> simp [*]
    · intro q hq
      exact hn q (Or.inr (by simpa using hq))
    · intro q hq
      exact hp q (by rcases hq with hq | rfl <;> simp_all)

end Chains
end DCache.Lib
