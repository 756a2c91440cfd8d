import Mathlib.Data.List.Basic
import Mathlib.Logic.Function.Basic

/-! Items that are handed from hand to hand, and through lists. An item is neither lost nor doubled
while every step hands it on. -/
namespace DCache.Lib
variable {H L α : Type}

@[ext] structure Custody (H L α : Type) where
  hand : H → Option α
  list : L → List α

namespace Custody

inductive Place (H L : Type)
  | hand (h : H)
  | slot (l : L) (n : ℕ)

def At (c : Custody H L α) : Place H L → α → Prop
  | .hand h, a => c.hand h = some a
  | .slot l n, a => (c.list l)[n]? = some a

/-- The item is in one place. -/
def Once (c : Custody H L α) (a : α) : Prop := ∃! p, c.At p a

section Hand
variable [DecidableEq H] (c : Custody H L α) (h : H) (a : α)

/-- A hand gets an item. -/
def receive : Custody H L α := { c with hand := Function.update c.hand h (some a) }

def drop : Custody H L α := { c with hand := Function.update c.hand h none }

variable {c h a} {b : α} {p : Place H L}

theorem receive_at :
    (c.receive h a).At p b ↔ p = .hand h ∧ b = a ∨ p ≠ .hand h ∧ c.At p b := by
  cases p with
  | hand h' =>
    by_cases hh : h' = h
    · subst hh
      simp [At, receive, eq_comm]
    · simp [At, receive, hh]
  | slot l n => simp [At, receive]

theorem drop_at : (c.drop h).At p b ↔ p ≠ .hand h ∧ c.At p b := by
  cases p with
  | hand h' =>
    by_cases hh : h' = h
    · subst hh
      simp [At, drop]
    · simp [At, drop, hh]
  | slot l n => simp [At, drop]

theorem once_receive (hnew : ∀ p, ¬ c.At p a) : (c.receive h a).Once a := by
  refine ⟨.hand h, receive_at.mpr (Or.inl ⟨rfl, rfl⟩), ?_⟩
  intro p hp
  rcases receive_at.mp hp with ⟨hp, -⟩ | ⟨-, hp⟩
  · exact hp
  · exact absurd hp (hnew p)

theorem Once.receive (ho : c.Once b) (hh : c.hand h = none) (hne : b ≠ a) :
    (c.receive h a).Once b := by
  obtain ⟨p, hp, hu⟩ := ho
  refine ⟨p, receive_at.mpr (Or.inr ⟨?_, hp⟩), ?_⟩
  · rintro rfl
    cases hh.symm.trans hp
  · intro p' hp'
    rcases receive_at.mp hp' with ⟨-, hb⟩ | ⟨-, hp'⟩
    · exact absurd hb hne
    · exact hu p' hp'

/-- What a hand drops is gone. -/
theorem Once.not_drop (ho : c.Once a) (hh : c.hand h = some a) : ¬ (c.drop h).Once a := by
  rintro ⟨p, hp, -⟩
  obtain ⟨hne, hp⟩ := drop_at.mp hp
  exact hne (ho.unique hp hh)

end Hand

section Lists
variable [DecidableEq H] [DecidableEq L] (c : Custody H L α) (h : H) (l : L) (a : α)

/-- The hand gives its item to the end of a list. -/
def deposit : Custody H L α where
  hand := Function.update c.hand h none
  list := Function.update c.list l (c.list l ++ [a])

/-- The hand takes the first item of a list. -/
def take (rest : List α) : Custody H L α where
  hand := Function.update c.hand h (some a)
  list := Function.update c.list l rest

variable {c h l a} {b : α} {p : Place H L} {rest : List α}

theorem deposit_at : (c.deposit h l a).At p b ↔
    p = .slot l (c.list l).length ∧ b = a ∨ p ≠ .hand h ∧ c.At p b := by
  cases p with
  | hand h' =>
    by_cases hh : h' = h
    · subst hh
      simp [At, deposit]
    · simp [At, deposit, hh]
  | slot l' n =>
    by_cases hl : l' = l
    · subst hl
      by_cases hn : n = (c.list l').length
      · subst hn
        simp [At, deposit, eq_comm]
      · have hget : (c.list l' ++ [a])[n]? = (c.list l')[n]? := by
          rcases Nat.lt_or_gt_of_ne hn with hlt | hgt
          · exact List.getElem?_append_left hlt
          · rw [List.getElem?_eq_none (by simp; omega), List.getElem?_eq_none (by omega)]
        simp [At, deposit, hn, hget]
    · simp [At, deposit, hl]

theorem Once.deposit (ho : c.Once b) (hh : c.hand h = some a) : (c.deposit h l a).Once b := by
  obtain ⟨p, hp, hu⟩ := ho
  by_cases hph : p = .hand h
  · subst hph
    obtain rfl : a = b := Option.some.inj (hh.symm.trans hp)
    refine ⟨_, deposit_at.mpr (Or.inl ⟨rfl, rfl⟩), ?_⟩
    intro p' hp'
    rcases deposit_at.mp hp' with ⟨hp', -⟩ | ⟨hne, hp'⟩
    · exact hp'
    · exact absurd (hu p' hp') hne
  · refine ⟨p, deposit_at.mpr (Or.inr ⟨hph, hp⟩), ?_⟩
    intro p' hp'
    rcases deposit_at.mp hp' with ⟨-, rfl⟩ | ⟨-, hp'⟩
    · exact absurd (hu (.hand h) hh).symm hph
    · exact hu p' hp'

/-- The place that an item had before the first item was taken. -/
def untake (h : H) (l : L) : Place H L → Place H L
  | .hand h' => if h' = h then .slot l 0 else .hand h'
  | .slot l' n => if l' = l then .slot l' (n + 1) else .slot l' n

theorem take_at (hh : c.hand h = none) (hl : c.list l = a :: rest) :
    (c.take h l a rest).At p b ↔ c.At (untake h l p) b := by
  cases p with
  | hand h' =>
    by_cases hh' : h' = h
    · subst hh'
      simp [At, take, untake, hl]
    · simp [At, take, untake, hh']
  | slot l' n =>
    by_cases hl' : l' = l
    · subst hl'
      simp [At, take, untake, hl]
    · simp [At, take, untake, hl']

/-- An item that is not in the empty hand has its place after the step. -/
theorem exists_untake (hh : c.hand h = none) (hp : c.At p b) :
    ∃ p', untake h l p' = p := by
  cases p with
  | hand h' =>
    have hne : h' ≠ h := by
      rintro rfl
      cases hh.symm.trans hp
    exact ⟨.hand h', if_neg hne⟩
  | slot l' n =>
    by_cases hl' : l' = l
    · subst hl'
      cases n with
      | zero => exact ⟨.hand h, if_pos rfl⟩
      | succ n => exact ⟨.slot l' n, if_pos rfl⟩
    · exact ⟨.slot l' n, if_neg hl'⟩

theorem untake_injective : Function.Injective (untake (H := H) (L := L) h l) := by
  intro p p' he
  cases p <;> cases p' <;> simp only [untake] at he <;> split_ifs at he <;> simp_all

theorem Once.take (ho : c.Once b) (hh : c.hand h = none) (hl : c.list l = a :: rest) :
    (c.take h l a rest).Once b := by
  obtain ⟨p, hp, hu⟩ := ho
  obtain ⟨p', rfl⟩ := exists_untake (l := l) hh hp
  refine ⟨p', (take_at hh hl).mpr hp, ?_⟩
  intro p'' hp''
  exact untake_injective (hu _ ((take_at hh hl).mp hp''))

variable {c' : Custody H L α}

/-- Nothing changes, or one item is handed on. -/
inductive Handed (c : Custody H L α) : Custody H L α → Prop
  | same : Handed c c
  | deposit (h : H) (l : L) (a : α) (hh : c.hand h = some a) : Handed c (c.deposit h l a)
  | take (h : H) (l : L) (a : α) (rest : List α) (hh : c.hand h = none)
    (hl : c.list l = a :: rest) : Handed c (c.take h l a rest)

theorem Handed.once (hc : Handed c c') (ho : c.Once b) : c'.Once b := by
  cases hc with
  | same => exact ho
  | deposit h l a hh => exact ho.deposit hh
  | take h l a rest hh hl => exact ho.take hh hl

/-- No item comes from nowhere. -/
theorem Handed.exists_at (hc : Handed c c') (hp : c'.At p b) : ∃ p, c.At p b := by
  cases hc with
  | same => exact ⟨p, hp⟩
  | deposit h l a hh =>
    rcases deposit_at.mp hp with ⟨-, rfl⟩ | ⟨-, hp⟩
    · exact ⟨.hand h, hh⟩
    · exact ⟨p, hp⟩
  | take h l a rest hh hl => exact ⟨_, (take_at hh hl).mp hp⟩

end Lists
end Custody
end DCache.Lib
