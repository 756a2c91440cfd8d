import Mathlib.Data.List.Cycle

/-! Neighbours on a cycle given by a list without duplicates: how they change when an element
is taken out, and the walks that follow them. -/
namespace DCache.Lib
variable {α : Type*} {l l₁ l₂ : List α} {x t : α}

private theorem isRotated_split (l₁ l₂ : List α) (t : α) : l₁ ++ t :: l₂ ~r t :: (l₂ ++ l₁) := by
  simpa using (List.isRotated_append : l₁ ++ t :: l₂ ~r (t :: l₂) ++ l₁)

private theorem notMem_others (hn : (l₁ ++ t :: l₂).Nodup) : t ∉ l₂ ++ l₁ := by
  simpa [and_comm] using (List.nodup_cons.mp (List.nodup_middle.mp hn)).1

variable [DecidableEq α]

theorem next_head (h : t ∈ t :: l) : (t :: l).next t h = l.headD t := by
  cases l with
  | nil => simp
  | cons y ys => simp

theorem prev_head (h : t ∈ t :: l) : (t :: l).prev t h = l.getLastD t := by
  rw [List.prev_getLast_cons]
  cases l with
  | nil => rfl
  | cons y ys => simp [List.getLastD]

/-- The successor is the first of what follows, going round. -/
theorem next_split (hn : (l₁ ++ t :: l₂).Nodup) (ht : t ∈ l₁ ++ t :: l₂) :
    (l₁ ++ t :: l₂).next t ht = (l₂ ++ l₁).headD t := by
  rw [List.isRotated_next_eq (isRotated_split l₁ l₂ t) hn ht, next_head]

theorem prev_split (hn : (l₁ ++ t :: l₂).Nodup) (ht : t ∈ l₁ ++ t :: l₂) :
    (l₁ ++ t :: l₂).prev t ht = (l₂ ++ l₁).getLastD t := by
  rw [List.isRotated_prev_eq (isRotated_split l₁ l₂ t) hn ht, prev_head]

/-- An element is its own neighbour only when it is alone. -/
theorem next_eq_self_iff (hn : (l₁ ++ t :: l₂).Nodup) (ht : t ∈ l₁ ++ t :: l₂) :
    (l₁ ++ t :: l₂).next t ht = t ↔ l₂ ++ l₁ = [] := by
  have hm := notMem_others hn
  rw [next_split hn]
  cases hl : l₂ ++ l₁ with
  | nil => simp
  | cons y ys =>
    rw [hl] at hm
    have hy : y ≠ t := fun h => hm (h ▸ List.mem_cons_self)
    simp [hy]

theorem prev_eq_self_iff (hn : (l₁ ++ t :: l₂).Nodup) (ht : t ∈ l₁ ++ t :: l₂) :
    (l₁ ++ t :: l₂).prev t ht = t ↔ l₂ ++ l₁ = [] := by
  have hm := notMem_others hn
  rw [prev_split hn]
  rcases (l₂ ++ l₁).eq_nil_or_concat' with hl | ⟨ys, y, hl⟩
  · simp [hl]
  · rw [hl] at hm ⊢
    have hy : y ≠ t := fun h => hm (h ▸ List.mem_append_right _ List.mem_cons_self)
    rw [List.getLastD_concat]
    simp [hy]

/-- Two neighbours of an element are the same only where there is no third element. -/
theorem next_eq_prev_iff (hn : (l₁ ++ t :: l₂).Nodup) (ht : t ∈ l₁ ++ t :: l₂) :
    (l₁ ++ t :: l₂).next t ht = (l₁ ++ t :: l₂).prev t ht ↔ (l₁ ++ l₂).length ≤ 1 := by
  have hlen : (l₁ ++ l₂).length = (l₂ ++ l₁).length := by
    rw [List.length_append, List.length_append, Nat.add_comm]
  have hrest : (l₂ ++ l₁).Nodup :=
    List.nodup_append_comm.mp (List.nodup_cons.mp (List.nodup_middle.mp hn)).2
  rw [next_split hn, prev_split hn, hlen]
  match h : l₂ ++ l₁ with
  | [] => simp
  | [x] => simp
  | x :: y :: l =>
    rw [h] at hrest
    refine iff_of_false (fun he => ?_) (by simp)
    rw [List.headD_cons, List.getLastD_cons, List.getLastD_cons] at he
    exact (List.nodup_cons.mp hrest).1 (he ▸ List.getLastD_mem_cons)

/-- Taking `x` out joins its two neighbours and leaves all other successors as they were. -/
theorem next_remove (hn : (l₁ ++ x :: l₂).Nodup) (hx : x ∈ l₁ ++ x :: l₂) (ht : t ∈ l₁ ++ l₂)
    (ht' : t ∈ l₁ ++ x :: l₂) : (l₁ ++ l₂).next t ht =
      if t = (l₁ ++ x :: l₂).prev x hx then (l₁ ++ x :: l₂).next x hx
      else (l₁ ++ x :: l₂).next t ht' := by
  have hrot := isRotated_split l₁ l₂ x
  have hn' : (x :: (l₂ ++ l₁)).Nodup := hrot.nodup_iff.mp hn
  have hr : l₁ ++ l₂ ~r l₂ ++ l₁ := List.isRotated_append
  have hm : (l₁ ++ l₂).Nodup := hr.nodup_iff.mpr (List.nodup_cons.mp hn').2
  rw [List.isRotated_next_eq hr hm ht, List.isRotated_next_eq hrot hn ht', prev_split hn hx,
    next_split hn hx]
  have htm : t ∈ l₂ ++ l₁ := hr.mem_iff.mp ht
  have htx : t ∈ x :: (l₂ ++ l₁) := List.mem_cons_of_mem _ htm
  change (l₂ ++ l₁).next t htm = if _ then _ else (x :: (l₂ ++ l₁)).next t htx
  generalize l₂ ++ l₁ = m at hn' htm htx
  obtain ⟨a, b, rfl⟩ := List.append_of_mem htm
  have hnm := (List.nodup_cons.mp hn').2
  rw [next_split hnm]
  have hsplit : (x :: (a ++ t :: b)).next t htx = (b ++ x :: a).headD t := by
    have hn'' : ((x :: a) ++ t :: b).Nodup := hn'
    exact next_split hn'' htx
  rw [hsplit]
  rcases b.eq_nil_or_concat' with rfl | ⟨b, z, rfl⟩
  · rw [if_pos (by simp)]
    cases a <;> simp
  · have htz : t ≠ z := by
      rintro rfl
      exact (List.nodup_cons.mp (List.nodup_append'.mp hnm).2.1).1 (by simp)
    have hlast : (a ++ t :: (b ++ [z])).getLastD x = z := by
      rw [← List.cons_append, ← List.append_assoc, List.getLastD_concat]
    rw [hlast, if_neg htz]
    cases b <;> simp

/-- A walk of `n` steps: the elements that it leaves behind, and where it ends. -/
def walk (f : α → Option α) : ℕ → α → Option (List α × α)
  | 0, t => some ([], t)
  | n + 1, t => do
    let u ← f t
    let (visited, v) ← walk f n u
    some (t :: visited, v)

/-- Successors lead through `xs` to what follows it on the cycle. -/
theorem walk_next {f : α → Option α} (hf : ∀ t (h : t ∈ l), f t = some (l.next t h))
    (hn : l.Nodup) (xs : List α) {ys : List α} (hr : l ~r (t :: xs) ++ ys) :
    walk f (xs.length + 1) t = some (t :: xs, (ys ++ [t]).headD t) := by
  induction xs generalizing t ys with
  | nil =>
    have ht : t ∈ l := hr.mem_iff.mpr (by simp)
    have hnext : l.next t ht = (ys ++ [t]).headD t := by
      rw [List.isRotated_next_eq hr hn ht]
      change (t :: ys).next t _ = _
      rw [next_head]
      cases ys <;> rfl
    simp [walk, hf t ht, hnext]
  | cons x xs ih =>
    have ht : t ∈ l := hr.mem_iff.mpr (by simp)
    have hnext : l.next t ht = x := by
      rw [List.isRotated_next_eq hr hn ht]
      change (t :: (x :: xs ++ ys)).next t _ = _
      rw [next_head]
      rfl
    -- `t` is now the last of the cycle
    have hr' : l ~r (x :: xs) ++ (ys ++ [t]) := by
      apply hr.trans
      have h : [t] ++ (x :: xs ++ ys) ~r (x :: xs ++ ys) ++ [t] := List.isRotated_append
      simpa [List.append_assoc] using h
    have hend : (ys ++ [t] ++ [x]).headD x = (ys ++ [t]).headD t := by
      cases ys <;> rfl
    rw [List.length_cons, walk, hf t ht, hnext, Option.bind_eq_bind, Option.bind_some, ih hr', hend]
    rfl

/-- A walk round the cycle visits every element once and comes back. -/
theorem walk_round {f : α → Option α} (hf : ∀ t (h : t ∈ l), f t = some (l.next t h))
    (hn : l.Nodup) (ht : t ∈ l) :
    ∃ visited, walk f l.length t = some (visited, t) ∧ visited ~r l := by
  obtain ⟨l₁, l₂, rfl⟩ := List.append_of_mem ht
  have hr := isRotated_split l₁ l₂ t
  have hr' : l₁ ++ t :: l₂ ~r (t :: (l₂ ++ l₁)) ++ [] := by simpa using hr
  have h := walk_next hf hn (l₂ ++ l₁) hr'
  refine ⟨t :: (l₂ ++ l₁), ?_, hr.symm⟩
  rw [hr.perm.length_eq, List.length_cons, h]
  rfl

end DCache.Lib
