import Mathlib.Data.List.Rotate
import Mathlib.Data.Nat.ModEq

/-! Windows of a circular array: the elements that stand from one position on, going round. -/
namespace DCache.Lib
variable {α : Type*}

/-- The `k` elements from position `i` on. -/
def window (a : List α) (i k : ℕ) : List α := (a.rotate i).take k

variable {a : List α} {i j k : ℕ} {x : α}

theorem length_window (h : k ≤ a.length) : (window a i k).length = k := by
  rw [window, List.length_take, List.length_rotate]
  omega

theorem getElem?_window (hk : k ≤ a.length) (hj : j < k) :
    (window a i k)[j]? = a[(i + j) % a.length]? := by
  rw [window, List.getElem?_take_of_lt hj, List.getElem?_rotate (by omega), Nat.add_comm]

/-- Only the position modulo the length matters. -/
theorem window_congr (h : i % a.length = j % a.length) : window a i k = window a j k := by
  rw [window, window, ← List.rotate_mod, h, List.rotate_mod]

/-- The first element of a window and the rest, which is the window one position further on. -/
theorem window_succ (h : k < a.length) : ∃ x, a[i % a.length]? = some x ∧
    window a i (k + 1) = x :: window a (i + 1) k := by
  have hpos : i % a.length < a.length := Nat.mod_lt _ (by omega)
  refine ⟨a[i % a.length], List.getElem?_eq_getElem hpos, ?_⟩
  apply List.ext_getElem?
  intro j
  rcases Nat.lt_or_ge j (k + 1) with hj | hj
  · rw [getElem?_window (by omega) hj]
    cases j with
    | zero => simp [hpos]
    | succ j =>
      rw [List.getElem?_cons_succ, getElem?_window (by omega) (by omega)]
      congr 2
      omega
  · rw [List.getElem?_eq_none (by rw [length_window (by omega)]; exact hj),
      List.getElem?_eq_none (by rw [List.length_cons, length_window (by omega)]; exact hj)]

/-- What is written just behind a window extends it. -/
theorem window_set (h : k < a.length) (x : α) :
    window (a.set ((i + k) % a.length) x) i (k + 1) = window a i k ++ [x] := by
  have hpos : (i + k) % a.length < a.length := Nat.mod_lt _ (by omega)
  have hlen : k + 1 ≤ (a.set ((i + k) % a.length) x).length := by rw [List.length_set]; exact h
  apply List.ext_getElem?
  intro j
  rcases Nat.lt_trichotomy j k with hj | rfl | hj
  · have hne : (i + k) % a.length ≠ (i + j) % a.length := by
      intro he
      have hmod : k % a.length = j % a.length := Nat.ModEq.add_left_cancel rfl he
      rw [Nat.mod_eq_of_lt h, Nat.mod_eq_of_lt (by omega)] at hmod
      omega
    rw [getElem?_window hlen (by omega), List.length_set,
      List.getElem?_set_ne hne, List.getElem?_append_left (by rw [length_window h.le]; exact hj),
      getElem?_window h.le hj]
  · rw [getElem?_window hlen (by omega), List.length_set,
      List.getElem?_set_self hpos,
      List.getElem?_append_right (by rw [length_window h.le])]
    simp [length_window h.le]
  · rw [List.getElem?_eq_none (by rw [length_window hlen]; exact hj),
      List.getElem?_eq_none (by rw [List.length_append, length_window h.le]; exact hj)]

/-- The last element of a window. -/
theorem getLast?_window (h : k < a.length) :
    (window a i (k + 1)).getLast? = a[(i + k) % a.length]? := by
  rw [List.getLast?_eq_getElem?, length_window h, getElem?_window h (by omega)]
  simp

end DCache.Lib
