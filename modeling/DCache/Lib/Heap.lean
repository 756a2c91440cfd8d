import Mathlib.Data.List.Chain
import Mathlib.Data.List.Nodup
import Mathlib.Data.Finset.Card
import Mathlib.Tactic.Common

/-! Heaps of separately allocated blocks. An address is handed out once, so a read of a
released block is a fault for ever and never meets a younger block. `none` is a fault. -/
namespace DCache.Lib

/-- Address 0 is the null pointer; addresses from `next` on were never handed out. -/
structure Heap (α : Type*) where
  cells : ℕ → Option α
  next : ℕ
  unused : ∀ p, next ≤ p → cells p = none
  null : cells 0 = none

namespace Heap
variable {α : Type*}

def empty : Heap α := ⟨fun _ => none, 1, fun _ _ => rfl, rfl⟩

/-- Rewrite the block at `p`; nothing happens where there is no block. -/
def update (h : Heap α) (p : ℕ) (f : α → α) : Heap α where
  cells q := if q = p then (h.cells p).map f else h.cells q
  next := h.next
  unused q hq := by
    have := h.unused q hq
    split_ifs with hp
    · simp [← hp, this]
    · exact this
  null := by
    split_ifs with hp
    · simp [← hp, h.null]
    · exact h.null

/-- A store through `p`. -/
def modify (h : Heap α) (p : ℕ) (f : α → α) : Option (Heap α) :=
  if (h.cells p).isSome then some (h.update p f) else none

/-- The address that the next allocation returns. -/
def fresh (h : Heap α) : ℕ := max h.next 1

def alloc (h : Heap α) (a : α) : Heap α where
  cells q := if q = h.fresh then some a else h.cells q
  next := h.fresh + 1
  unused q hq := by
    have hq' : h.next ≤ q := by unfold fresh at hq; omega
    rw [if_neg (by omega), h.unused q hq']
  null := by rw [if_neg (by unfold fresh; omega), h.null]

def erase (h : Heap α) (p : ℕ) : Heap α where
  cells q := if q = p then none else h.cells q
  next := h.next
  unused q hq := by simp [h.unused q hq]
  null := by simp [h.null]

/-- Releasing an address that holds no block is a fault (a second release included). -/
def free (h : Heap α) (p : ℕ) : Option (Heap α) :=
  if (h.cells p).isSome then some (h.erase p) else none

@[simp] theorem cells_empty (p : ℕ) : (empty : Heap α).cells p = none := rfl

@[simp] theorem cells_update (h : Heap α) (p q : ℕ) (f : α → α) :
    (h.update p f).cells q = if q = p then (h.cells p).map f else h.cells q := rfl

@[simp] theorem cells_alloc (h : Heap α) (a : α) (q : ℕ) :
    (h.alloc a).cells q = if q = h.fresh then some a else h.cells q := rfl

@[simp] theorem cells_erase (h : Heap α) (p q : ℕ) :
    (h.erase p).cells q = if q = p then none else h.cells q := rfl

@[simp] theorem isSome_cells_update (h : Heap α) (p q : ℕ) (f : α → α) :
    ((h.update p f).cells q).isSome = (h.cells q).isSome := by
  rw [cells_update]
  split_ifs with hq
  · simp [hq]
  · rfl

@[simp] theorem cells_fresh (h : Heap α) : h.cells h.fresh = none :=
  h.unused _ (by unfold fresh; omega)

theorem modify_of_isSome {h : Heap α} {p : ℕ} (hp : (h.cells p).isSome = true) (f : α → α) :
    h.modify p f = some (h.update p f) := by
  rw [modify, if_pos hp]

theorem free_of_isSome {h : Heap α} {p : ℕ} (hp : (h.cells p).isSome = true) :
    h.free p = some (h.erase p) := by
  rw [free, if_pos hp]

theorem lt_next_of_isSome {h : Heap α} {p : ℕ} (hp : (h.cells p).isSome = true) :
    p < h.next := by
  by_contra hn
  rw [h.unused p (by omega)] at hp
  exact absurd hp (by simp)

/-- Distinct live addresses are at most as many as the addresses handed out. -/
theorem length_le_next {h : Heap α} {ps : List ℕ} (hn : ps.Nodup)
    (hl : ∀ p ∈ ps, (h.cells p).isSome = true) : ps.length ≤ h.next := by
  have hs : ps.toFinset ⊆ Finset.range h.next := by
    intro p hp
    exact Finset.mem_range.mpr (lt_next_of_isSome (hl p (List.mem_toFinset.mp hp)))
  have hc := Finset.card_le_card hs
  rwa [List.toFinset_card_of_nodup hn, Finset.card_range] at hc

end Heap
end DCache.Lib
