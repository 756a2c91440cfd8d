import DCache.Lib.Run
import DCache.Lib.Window

/-! The bounded queue of the log, a circular array under one lock, against the list of its items.
Every operation holds the lock throughout. `none` is an access outside the array, the end of the
process, or a wait that nobody ends. -/
namespace DCache.Log
open DCache.Lib

structure BlockQueue (T : Type) where
  mArray : List T
  mSize : ℤ
  mMaxSize : ℤ
  mFront : ℤ
  mBack : ℤ
deriving DecidableEq

namespace BlockQueue
variable {T : Type}

def new [Inhabited T] (maxSize : ℤ) : Option (BlockQueue T) :=
  if maxSize ≤ 0 then none else some ⟨List.replicate maxSize.toNat default, 0, maxSize, -1, -1⟩

/-- `m_array[i]` -/
def item (q : BlockQueue T) (i : ℤ) : Option T := if 0 ≤ i then q.mArray[i.toNat]? else none

/-- `m_array[i] = x` -/
def writeItem (q : BlockQueue T) (i : ℤ) (x : T) : Option (BlockQueue T) :=
  if 0 ≤ i ∧ i.toNat < q.mArray.length then some { q with mArray := q.mArray.set i.toNat x }
  else none

def clear (q : BlockQueue T) : BlockQueue T := { q with mSize := 0, mFront := -1, mBack := -1 }

def full (q : BlockQueue T) : Bool := q.mSize ≥ q.mMaxSize

def empty (q : BlockQueue T) : Bool := 0 = q.mSize

/-- The item that is stored in `value`, `none` when the call returns false. -/
def front (q : BlockQueue T) : Option (Option T × BlockQueue T) :=
  if 0 = q.mSize then some (none, q) else (q.item q.mFront).map fun value => (some value, q)

def back (q : BlockQueue T) : Option (Option T × BlockQueue T) :=
  if 0 = q.mSize then some (none, q) else (q.item q.mBack).map fun value => (some value, q)

def size (q : BlockQueue T) : ℤ := q.mSize

def push (q : BlockQueue T) (item : T) : Option (Bool × BlockQueue T) :=
  if q.mSize ≥ q.mMaxSize then some (false, q)
  else do
    let q := { q with mBack := (q.mBack + 1).tmod q.mMaxSize }
    let q ← q.writeItem q.mBack item
    some (true, { q with mSize := q.mSize + 1 })

/-- What both forms of `pop` do with a queue that is not empty. -/
def take (q : BlockQueue T) : Option (Option T × BlockQueue T) := do
  let q := { q with mFront := (q.mFront + 1).tmod q.mMaxSize }
  let item ← q.item q.mFront
  some (some item, { q with mSize := q.mSize - 1 })

/-- The list holds the results of the waits. While one thread waits and no other comes, the queue
stays empty. -/
def pop (q : BlockQueue T) : List Bool → Option (Option T × BlockQueue T)
  | [] => if q.mSize ≤ 0 then none else q.take
  | woken :: waits =>
    if q.mSize ≤ 0 then if woken then q.pop waits else some (none, q) else q.take

def popTimeout (q : BlockQueue T) (woken : Bool) : Option (Option T × BlockQueue T) :=
  if q.mSize ≤ 0 ∧ woken = false then some (none, q)
  else if q.mSize ≤ 0 then some (none, q)
  else q.take

/-- The items, from the one that `pop` returns next on. -/
def items (q : BlockQueue T) : List T := window q.mArray (q.mFront + 1).toNat q.mSize.toNat

end BlockQueue

/-- The calls other than the peeks. -/
inductive Call (T : Type) where
  | push (item : T)
  | pop (waits : List Bool)
  | popTimeout (woken : Bool)
  | size
  | empty
  | full
  | clear

inductive Result (T : Type) where
  | done
  | flag (b : Bool)
  | number (n : ℤ)
  | popped (item : Option T)
deriving DecidableEq

variable {T : Type}

def BlockQueue.exec (q : BlockQueue T) : Call T → Option (Result T × BlockQueue T)
  | .push item => (q.push item).map fun o => (.flag o.1, o.2)
  | .pop waits => (q.pop waits).map fun o => (.popped o.1, o.2)
  | .popTimeout woken => (q.popTimeout woken).map fun o => (.popped o.1, o.2)
  | .size => some (.number q.size, q)
  | .empty => some (.flag q.empty, q)
  | .full => some (.flag q.full, q)
  | .clear => some (.done, q.clear)

/-- A `pop` that may wait is called on a queue with items in it. -/
def BlockQueue.Guarded (q : BlockQueue T) (call : Call T) : Prop :=
  ∀ waits, call = .pop waits → q.empty = false

/-- A first-in first-out list of at most `maxSize` items. -/
structure Fifo (T : Type) where
  maxSize : ℕ
  items : List T
  pos : 1 ≤ maxSize
  bounded : items.length ≤ maxSize

theorem one_le_toNat {n : ℤ} (h : 1 ≤ n) : 1 ≤ n.toNat := by omega

namespace Fifo
variable (f : Fifo T)

def new (maxSize : ℕ) (h : 1 ≤ maxSize) : Fifo T := ⟨maxSize, [], h, Nat.zero_le _⟩

def cleared : Fifo T := ⟨f.maxSize, [], f.pos, Nat.zero_le _⟩

/-- The item goes to the end, if there is room. -/
def push (x : T) : Bool × Fifo T :=
  if h : f.items.length < f.maxSize then
    (true, ⟨f.maxSize, f.items ++ [x], f.pos, by rw [List.length_append]; exact h⟩)
  else (false, f)

/-- The item at the head goes. -/
def pop : Option T × Fifo T :=
  (f.items.head?, ⟨f.maxSize, f.items.tail, f.pos, by
    have := f.bounded
    rw [List.length_tail]
    omega⟩)

def exec : Call T → Option (Result T × Fifo T)
  | .push x => some (.flag (f.push x).1, (f.push x).2)
  | .pop _ => some (.popped f.pop.1, f.pop.2)
  | .popTimeout _ => some (.popped f.pop.1, f.pop.2)
  | .size => some (.number f.items.length, f)
  | .empty => some (.flag f.items.isEmpty, f)
  | .full => some (.flag (f.items.length = f.maxSize), f)
  | .clear => some (.done, f.cleared)

end Fifo

namespace BlockQueue

/-- The queue holds the items of the list, from position `i` of the array on; `j` is the position
behind them. The cursors stand one position before both, so that they start outside the array. -/
structure Layout (q : BlockQueue T) (f : Fifo T) (i j : ℕ) : Prop where
  maxSize : q.mMaxSize = f.maxSize
  length : q.mArray.length = f.maxSize
  size : q.mSize = f.items.length
  front : q.mFront = (i : ℤ) - 1
  back : q.mBack = (j : ℤ) - 1
  first : i ≤ f.maxSize
  last : j ≤ f.maxSize
  cursors : j ≡ i + f.items.length [MOD f.maxSize]
  fresh : j = 0 → i = 0 ∧ f.items = []
  items : f.items = window q.mArray i f.items.length

/-- Every index that the operations use stays within the array, however often they go round. -/
def Represents (q : BlockQueue T) (f : Fifo T) : Prop := ∃ i j, Layout q f i j

variable {q : BlockQueue T} {f : Fifo T} {i j : ℕ}

theorem layout_new [Inhabited T] {maxSize : ℤ} (h : 1 ≤ maxSize) :
    ∃ q : BlockQueue T, new maxSize = some q ∧
      Layout q (.new maxSize.toNat (one_le_toNat h)) 0 0 := by
  refine ⟨_, if_neg (by omega), ?_⟩
  have hn : ((maxSize.toNat : ℕ) : ℤ) = maxSize := Int.toNat_of_nonneg (by omega)
  constructor
  · exact hn.symm
  · exact List.length_replicate
  · rfl
  · rfl
  · rfl
  · exact Nat.zero_le _
  · exact Nat.zero_le _
  · rfl
  · exact fun _ => ⟨rfl, rfl⟩
  · rfl

theorem item_natCast (q : BlockQueue T) (i : ℕ) : q.item i = q.mArray[i]? :=
  if_pos (Int.natCast_nonneg i)

theorem writeItem_natCast (q : BlockQueue T) (h : i < q.mArray.length) (x : T) :
    q.writeItem i x = some { q with mArray := q.mArray.set i x } :=
  if_pos ⟨Int.natCast_nonneg i, h⟩

namespace Layout

theorem empty_iff (h : Layout q f i j) : q.empty = true ↔ f.items = [] := by
  have hs := h.size
  simp only [BlockQueue.empty, decide_eq_true_eq, ← List.length_eq_zero_iff]
  omega

theorem clear (h : Layout q f i j) : Layout q.clear f.cleared 0 0 where
  maxSize := h.maxSize
  length := h.length
  size := rfl
  front := rfl
  back := rfl
  first := Nat.zero_le _
  last := Nat.zero_le _
  cursors := rfl
  fresh := fun _ => ⟨rfl, rfl⟩
  items := rfl

theorem push_full (h : Layout q f i j) (hl : f.items.length = f.maxSize) (x : T) :
    q.push x = some (false, q) := by
  have hs := h.size
  have hm := h.maxSize
  exact if_pos (by omega)

/-- A `push` with room left writes behind the last item. -/
theorem push (h : Layout q f i j) (hl : f.items.length < f.maxSize) (x : T) :
    ∃ q', q.push x = some (true, q') ∧ q'.mFront = q.mFront ∧
      q'.mArray = q.mArray.set (j % f.maxSize) x ∧
      Layout q' (f.push x).2 i (j % f.maxSize + 1) := by
  have hs := h.size
  have hm := h.maxSize
  have hlen := h.length
  have hslot : j % f.maxSize < f.maxSize := Nat.mod_lt _ f.pos
  have hpush : (f.push x).2.items = f.items ++ [x] := by rw [Fifo.push, dif_pos hl]
  have hmax : (f.push x).2.maxSize = f.maxSize := by rw [Fifo.push, dif_pos hl]
  have hback : (q.mBack + 1).tmod q.mMaxSize = ((j % f.maxSize : ℕ) : ℤ) := by
    rw [h.back, h.maxSize, sub_add_cancel, Int.ofNat_tmod]
  refine ⟨⟨q.mArray.set (j % f.maxSize) x, q.mSize + 1, q.mMaxSize, q.mFront, (j % f.maxSize : ℕ)⟩,
    ?_, rfl, rfl, ?_⟩
  · have hw := writeItem_natCast { q with mBack := (j % f.maxSize : ℕ) }
      (show j % f.maxSize < q.mArray.length by omega) x
    rw [BlockQueue.push, if_neg (by omega), hback]
    simp only [hw, Option.bind_eq_bind, Option.bind_some]
  · constructor
    · rw [hmax]; exact hm
    · rw [hmax, List.length_set]; exact hlen
    · rw [hpush, List.length_append]
      exact congrArg (· + 1) hs
    · exact h.front
    · exact (add_sub_cancel_right ((j % f.maxSize : ℕ) : ℤ) 1).symm
    · rw [hmax]; exact h.first
    · rw [hmax]; exact hslot
    · rw [hmax, hpush, List.length_append, List.length_singleton, ← Nat.add_assoc]
      exact ((Nat.mod_modEq j f.maxSize).trans h.cursors).add_right 1
    · intro h0
      omega
    · have hj : j % f.maxSize = (i + f.items.length) % q.mArray.length := by
        rw [hlen]; exact h.cursors
      rw [hpush, List.length_append, List.length_singleton, hj, window_set (hlen ▸ hl), ← h.items]

/-- A `pop` reads the first item, and the cursor comes to stand on it. -/
theorem take (h : Layout q f i j) (hne : f.items ≠ []) :
    ∃ x q', q.take = some (some x, q') ∧ f.items.head? = some x ∧ q'.mArray = q.mArray ∧
      q.mArray[i % f.maxSize]? = some x ∧ Layout q' f.pop.2 (i % f.maxSize + 1) j := by
  have hs := h.size
  have hm := h.maxSize
  have hlen := h.length
  have hb := f.bounded
  have hslot : i % f.maxSize < f.maxSize := Nat.mod_lt _ f.pos
  obtain ⟨k, hk⟩ : ∃ k, f.items.length = k + 1 :=
    Nat.exists_eq_succ_of_ne_zero (mt List.length_eq_zero_iff.mp hne)
  obtain ⟨x, hx, hw⟩ := window_succ (i := i) (show k < q.mArray.length by omega)
  have hitems : f.items = x :: window q.mArray (i + 1) k := by rw [h.items, hk, hw]
  rw [hlen] at hx
  have hpop : f.pop.2.items = window q.mArray (i + 1) k := congrArg List.tail hitems
  have hlen' : (window q.mArray (i + 1) k).length = k := length_window (by omega)
  have hfront : (q.mFront + 1).tmod q.mMaxSize = ((i % f.maxSize : ℕ) : ℤ) := by
    rw [h.front, h.maxSize, sub_add_cancel, Int.ofNat_tmod]
  refine ⟨x, ⟨q.mArray, q.mSize - 1, q.mMaxSize, (i % f.maxSize : ℕ), q.mBack⟩, ?_,
    by rw [hitems]; rfl, rfl, hx, ?_⟩
  · simp only [BlockQueue.take, hfront, item_natCast, hx, Option.bind_eq_bind, Option.bind_some]
  · have hnext : (i + 1) % q.mArray.length = (i % f.maxSize + 1) % q.mArray.length := by
      rw [hlen, Nat.mod_add_mod]
    constructor
    · exact hm
    · exact hlen
    · rw [hpop, hlen', hs, hk]
      exact add_sub_cancel_right (k : ℤ) 1
    · exact (add_sub_cancel_right ((i % f.maxSize : ℕ) : ℤ) 1).symm
    · exact h.back
    · exact hslot
    · exact h.last
    · have hc := h.cursors
      rw [hpop, hlen']
      rw [hk, Nat.add_comm k 1, ← Nat.add_assoc] at hc
      exact hc.trans (((Nat.mod_modEq i f.maxSize).symm.add_right 1).add_right k)
    · intro h0
      exact absurd (h.fresh h0).2 hne
    · rw [hpop, hlen']
      exact window_congr hnext

theorem pop (h : Layout q f i j) (hne : f.items ≠ []) (waits : List Bool) :
    q.pop waits = q.take := by
  have hs := h.size
  have hpos := List.length_pos_iff.mpr hne
  cases waits with
  | nil => exact if_neg (by omega)
  | cons woken waits => exact if_neg (by omega)

theorem popTimeout (h : Layout q f i j) (hne : f.items ≠ []) (woken : Bool) :
    q.popTimeout woken = q.take := by
  have hs := h.size
  have hpos := List.length_pos_iff.mpr hne
  exact (if_neg (by omega)).trans (if_neg (by omega))

/-- A timed `pop` of an empty queue gives up, whether it is woken or not. -/
theorem popTimeout_empty (h : Layout q f i j) (he : f.items = []) (woken : Bool) :
    q.popTimeout woken = some (none, q) := by
  have hs := h.size
  rw [he] at hs
  have hle : q.mSize ≤ 0 := hs.le
  unfold BlockQueue.popTimeout
  split_ifs <;> rfl

theorem items_eq (h : Layout q f i j) : q.items = f.items := by
  have hfront : (q.mFront + 1).toNat = i := by
    rw [h.front]
    omega
  have hsize : q.mSize.toNat = f.items.length := by
    rw [h.size]
    exact Int.toNat_natCast _
  rw [BlockQueue.items, hfront, hsize]
  exact h.items.symm

theorem full_eq (h : Layout q f i j) : q.full = decide (f.items.length = f.maxSize) := by
  have hs := h.size
  have hm := h.maxSize
  have hb := f.bounded
  exact decide_eq_decide.mpr (by omega)

end Layout

/-- What a call with the result `r` makes of the queue and of the list. -/
inductive Effect (q : BlockQueue T) (f : Fifo T) :
    Call T → Result T → BlockQueue T → Fifo T → Prop
  | kept (call : Call T) (r : Result T) (hpush : ∀ x, call = .push x → r = .flag false)
      (hclear : call ≠ .clear) (hpop : ∀ x, r ≠ .popped (some x)) : Effect q f call r q f
  | pushed (x : T) (q' : BlockQueue T) (hl : f.items.length < f.maxSize)
      (h : q.push x = some (true, q')) : Effect q f (.push x) (.flag true) q' (f.push x).2
  | popped (call : Call T) (x : T) (q' : BlockQueue T) (hne : f.items ≠ [])
      (hcall : (∃ waits, call = .pop waits) ∨ ∃ woken, call = .popTimeout woken)
      (h : q.take = some (some x, q')) : Effect q f call (.popped (some x)) q' f.pop.2
  | cleared : Effect q f .clear .done q.clear f.cleared

namespace Layout

/-- One call: no index outside the array, and the result that the list gives. -/
theorem effect (h : Layout q f i j) {call : Call T} (hg : q.Guarded call) :
    ∃ r q' f', q.exec call = some (r, q') ∧ f.exec call = some (r, f') ∧
      Effect q f call r q' f' := by
  cases call with
  | push x =>
    have hb := f.bounded
    by_cases hl : f.items.length < f.maxSize
    · obtain ⟨q', hpush, -⟩ := h.push hl x
      refine ⟨.flag true, q', (f.push x).2, ?_, ?_, .pushed x q' hl hpush⟩
      · rw [BlockQueue.exec, hpush]; rfl
      · rw [Fifo.exec, Fifo.push, dif_pos hl]
    · refine ⟨.flag false, q, f, ?_, ?_, .kept _ _ (fun _ _ => rfl) nofun nofun⟩
      · rw [BlockQueue.exec, h.push_full (by omega) x]; rfl
      · rw [Fifo.exec, Fifo.push, dif_neg hl]
  | pop waits =>
    have hne : f.items ≠ [] := fun he => by
      have hempty := hg waits rfl
      rw [h.empty_iff.mpr he] at hempty
      cases hempty
    obtain ⟨x, q', htake, hx, -⟩ := h.take hne
    refine ⟨.popped (some x), q', f.pop.2, ?_, ?_, .popped _ x q' hne (.inl ⟨waits, rfl⟩) htake⟩
    · rw [BlockQueue.exec, h.pop hne, htake]; rfl
    · rw [Fifo.exec, Fifo.pop, hx]
  | popTimeout woken =>
    by_cases he : f.items = []
    · have hsame : f.pop = (none, f) := by
        obtain ⟨n, items, hn, hb⟩ := f
        obtain rfl : items = [] := he
        rfl
      refine ⟨.popped none, q, f, ?_, ?_, .kept _ _ nofun nofun nofun⟩
      · rw [BlockQueue.exec, h.popTimeout_empty he]; rfl
      · rw [Fifo.exec, hsame]
    · obtain ⟨x, q', htake, hx, -⟩ := h.take he
      refine ⟨.popped (some x), q', f.pop.2, ?_, ?_, .popped _ x q' he (.inr ⟨woken, rfl⟩) htake⟩
      · rw [BlockQueue.exec, h.popTimeout he, htake]; rfl
      · rw [Fifo.exec, Fifo.pop, hx]
  | size =>
    exact ⟨_, q, f, rfl, by rw [BlockQueue.size, h.size]; rfl, .kept _ _ nofun nofun nofun⟩
  | empty =>
    have he : q.empty = f.items.isEmpty := by
      rw [Bool.eq_iff_iff, h.empty_iff, List.isEmpty_iff]
    exact ⟨_, q, f, rfl, by rw [he]; rfl, .kept _ _ nofun nofun nofun⟩
  | full => exact ⟨_, q, f, rfl, by rw [h.full_eq]; rfl, .kept _ _ nofun nofun nofun⟩
  | clear => exact ⟨.done, q.clear, f.cleared, rfl, rfl, .cleared⟩

end Layout

theorem Represents.exec (h : Represents q f) {call : Call T} (hg : q.Guarded call) :
    ∃ r q' f', q.exec call = some (r, q') ∧ f.exec call = some (r, f') ∧ Represents q' f' := by
  obtain ⟨i, j, hq⟩ := h
  obtain ⟨r, q', f', hexec, hlist, heffect⟩ := hq.effect hg
  refine ⟨r, q', f', hexec, hlist, ?_⟩
  cases heffect with
  | kept => exact ⟨i, j, hq⟩
  | pushed x _ hl hpush =>
    obtain ⟨q'', hpush', -, -, hq'⟩ := hq.push hl x
    obtain ⟨-, rfl⟩ := Prod.mk.inj (Option.some.inj (hpush.symm.trans hpush'))
    exact ⟨_, _, hq'⟩
  | popped _ x _ hne _ htake =>
    obtain ⟨x', q'', htake', -, -, -, hq'⟩ := hq.take hne
    obtain ⟨-, rfl⟩ := Prod.mk.inj (Option.some.inj (htake.symm.trans htake'))
    exact ⟨_, _, hq'⟩
  | cleared => exact ⟨0, 0, hq.clear⟩

/-- The array is in order. -/
def Sound (q : BlockQueue T) : Prop := ∃ f, Represents q f

theorem Sound.push (h : Sound q) (hfull : q.full = false) (x : T) :
    ∃ q', q.push x = some (true, q') ∧ q'.items = q.items ++ [x] ∧ Sound q' := by
  obtain ⟨f, i, j, hq⟩ := h
  have hb := f.bounded
  have hl : f.items.length < f.maxSize := by
    rw [hq.full_eq, decide_eq_false_iff_not] at hfull
    omega
  obtain ⟨q', hpush, -, -, hq'⟩ := hq.push hl x
  refine ⟨q', hpush, ?_, _, _, _, hq'⟩
  rw [hq.items_eq, hq'.items_eq, Fifo.push, dif_pos hl]

theorem Sound.push_full (h : Sound q) (hfull : q.full = true) (x : T) :
    q.push x = some (false, q) := by
  obtain ⟨f, i, j, hq⟩ := h
  rw [hq.full_eq, decide_eq_true_eq] at hfull
  exact hq.push_full hfull x

theorem Sound.pop (h : Sound q) (hempty : ¬ q.empty = true) :
    ∃ x q', q.pop [] = some (some x, q') ∧ q.items = x :: q'.items ∧ Sound q' := by
  obtain ⟨f, i, j, hq⟩ := h
  rw [hq.empty_iff] at hempty
  obtain ⟨x, q', htake, hx, -, -, hq'⟩ := hq.take hempty
  refine ⟨x, q', (hq.pop hempty []).trans htake, ?_, _, _, _, hq'⟩
  rw [hq.items_eq, hq'.items_eq]
  exact List.eq_cons_of_mem_head? hx

/-- A fresh queue answers every sequence of calls as the list does. -/
theorem refines_fifo [Inhabited T] (maxSize : ℤ) (h : 1 ≤ maxSize) :
    ∃ q : BlockQueue T, new maxSize = some q ∧ ∀ calls, Allowed exec Guarded q calls →
      ∃ rs q' f, run exec q calls = some (rs, q') ∧
        run Fifo.exec (.new maxSize.toNat (one_le_toNat h)) calls = some (rs, f) ∧
          Represents q' f := by
  obtain ⟨q, hnew, hq⟩ := layout_new (T := T) h
  exact ⟨q, hnew, fun calls hg =>
    run_simulates (fun _ _ _ hr hok => hr.exec hok) ⟨0, 0, hq⟩ hg⟩

/-- A queue for two items that goes round, gives up a `push` and a timed `pop`, and is cleared. -/
theorem refines_fifo_round : ∃ q : BlockQueue ℕ, new 2 = some q ∧
    ∃ rs q' f, run exec q [.push 1, .push 2, .push 3, .pop [], .push 4, .pop [], .clear,
        .popTimeout false, .push 5, .full] = some (rs, q') ∧
      run Fifo.exec (.new (2 : ℤ).toNat (by decide)) [.push 1, .push 2, .push 3, .pop [], .push 4,
        .pop [], .clear, .popTimeout false, .push 5, .full] = some (rs, f) ∧ Represents q' f := by
  obtain ⟨q, hq, h⟩ := refines_fifo (T := ℕ) 2 (by decide)
  obtain rfl : q = ⟨[0, 0], 0, 2, -1, -1⟩ := (Option.some.inj hq).symm
  refine ⟨_, hq, h _ ⟨nofun, nofun, nofun, ?_, nofun, ?_, nofun, nofun, nofun, nofun, trivial⟩⟩
  · rintro _ ⟨⟩; rfl
  · rintro _ ⟨⟩; rfl

end BlockQueue
end DCache.Log
