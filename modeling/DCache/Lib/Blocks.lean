import Mathlib.Logic.Function.Iterate
import Mathlib.Data.List.Basic

/-! Messages that are taken block by block. -/
namespace DCache.Lib
variable {α σ : Type*} (f : σ → List α → σ) (n : ℕ)

/-- A block is taken into the state. -/
def takeBlock (x : σ × List α) : σ × List α := (f x.1 (x.2.take n), x.2.drop n)

/-- The state after all full blocks, and what is left of the message. -/
def absorb (s : σ) (xs : List α) : σ × List α := (takeBlock f n)^[xs.length / n] (s, xs)

variable {f n} {s : σ} {xs : List α}

theorem absorb_of_lt (h : xs.length < n) : absorb f n s xs = (s, xs) := by
  rw [absorb, Nat.div_eq_of_lt h]
  rfl

theorem absorb_of_le (hn : 0 < n) (h : n ≤ xs.length) :
    absorb f n s xs = absorb f n (f s (xs.take n)) (xs.drop n) := by
  have hdiv : xs.length / n = (xs.drop n).length / n + 1 := by
    rw [List.length_drop, ← Nat.div_eq_sub_div hn h]
  rw [absorb, hdiv, Function.iterate_succ_apply]
  rfl

/-- Blocks within a prefix do not see what follows. -/
theorem iterate_takeBlock_append {k : ℕ} (h : n * k ≤ xs.length) (ys : List α) :
    (takeBlock f n)^[k] (s, xs ++ ys) =
      (((takeBlock f n)^[k] (s, xs)).1, ((takeBlock f n)^[k] (s, xs)).2 ++ ys) := by
  induction k generalizing s xs with
  | zero => rfl
  | succ k ih =>
    rw [Nat.mul_succ] at h
    have hblock : takeBlock f n (s, xs ++ ys) = (f s (xs.take n), xs.drop n ++ ys) := by
      rw [takeBlock, List.take_append_of_le_length (by omega),
        List.drop_append_of_le_length (by omega)]
    rw [Function.iterate_succ_apply, hblock, ih (by rw [List.length_drop]; omega)]
    rfl

theorem snd_iterate_takeBlock (k : ℕ) :
    ((takeBlock f n)^[k] (s, xs)).2 = xs.drop (n * k) := by
  induction k generalizing s xs with
  | zero => rfl
  | succ k ih =>
    rw [Function.iterate_succ_apply, takeBlock, ih, List.drop_drop, Nat.mul_succ, Nat.add_comm]

theorem length_absorb : (absorb f n s xs).2.length = xs.length % n := by
  rw [absorb, snd_iterate_takeBlock, List.length_drop, Nat.mod_eq_sub_mul_div]

/-- A message may come in pieces. -/
theorem absorb_append (hn : 0 < n) (ys : List α) :
    absorb f n s (xs ++ ys) = absorb f n (absorb f n s xs).1 ((absorb f n s xs).2 ++ ys) := by
  have hcount : (xs ++ ys).length / n =
      ((absorb f n s xs).2 ++ ys).length / n + xs.length / n := by
    rw [List.length_append, List.length_append, length_absorb, ← Nat.add_mul_div_left _ _ hn]
    congr 1
    have hmod := Nat.mod_add_div xs.length n
    omega
  rw [absorb, hcount, Function.iterate_add_apply,
    iterate_takeBlock_append (Nat.mul_div_le xs.length n)]
  rfl

end DCache.Lib
