import Mathlib.Data.List.Basic
import Mathlib.Data.List.TakeWhile

/-! Lines of a text, and the positions from which it begins with a line out of a list of words. -/
namespace DCache.Lib
variable {β : Type*} [DecidableEq β] (sep : β) (words : List (List β))

/-- The first line is finished, and it is one of the words. -/
def BeginsWord (s : List β) : Prop := sep ∈ s ∧ s.takeWhile (fun b => b ≠ sep) ∈ words

instance (s : List β) : Decidable (BeginsWord sep words s) := inferInstanceAs (Decidable (_ ∧ _))

/-- The number of positions from which the rest of the text begins with a word. -/
def heads : List β → ℕ
  | [] => 0
  | b :: s => (if BeginsWord sep words (b :: s) then 1 else 0) + heads s

variable {sep words} {s t line rest : List β} {b : β}

theorem takeWhile_sep (h : sep ∉ line) (rest : List β) :
    (line ++ sep :: rest).takeWhile (fun b => b ≠ sep) = line := by
  rw [List.takeWhile_append_of_pos (by simpa [List.forall_mem_ne'] using h)]
  simp

/-- The first separator tells the first line from the rest. -/
theorem append_sep_inj {line' rest' : List β} (h : sep ∉ line) (h' : sep ∉ line')
    (he : line ++ sep :: rest = line' ++ sep :: rest') : line = line' ∧ rest = rest' := by
  have hline : line = line' := by
    rw [← takeWhile_sep h rest, he, takeWhile_sep h' rest']
  subst hline
  exact ⟨rfl, (List.cons.inj (List.append_cancel_left he)).2⟩

theorem beginsWord_line (h : sep ∉ line) :
    BeginsWord sep words (line ++ sep :: rest) ↔ line ∈ words := by
  rw [BeginsWord, takeWhile_sep h]
  simp

theorem beginsWord_append (h : BeginsWord sep words s) (t : List β) :
    BeginsWord sep words (s ++ t) := by
  obtain ⟨line, rest, rfl, hline⟩ := List.eq_append_cons_of_mem h.1
  rw [beginsWord_line hline] at h
  rw [List.append_assoc, List.cons_append, beginsWord_line hline]
  exact h

/-- Nothing is lost behind the text that is cut off. -/
theorem heads_append_le (s t : List β) : heads sep words t ≤ heads sep words (s ++ t) := by
  induction s with
  | nil => exact le_rfl
  | cons b s ih =>
    rw [List.cons_append, heads]
    omega

/-- The word that the text begins with is lost with whatever is cut off. -/
theorem heads_append_of_begins (hs : s ≠ []) (h : BeginsWord sep words (s ++ t)) :
    heads sep words t + 1 ≤ heads sep words (s ++ t) := by
  cases s with
  | nil => exact absurd rfl hs
  | cons b s =>
    have hrest : heads sep words t ≤ heads sep words (s ++ t) := heads_append_le s t
    rw [List.cons_append] at h ⊢
    rw [heads, if_pos h]
    omega

/-- A word begins at the line's own start or nowhere in it. -/
theorem heads_line (hsep : sep ∉ line) (hnil : [] ∉ words)
    (htail : ∀ t, t <:+ line → t ≠ line → t ∉ words) (rest : List β) :
    heads sep words (line ++ sep :: rest) =
      (if line ∈ words then 1 else 0) + heads sep words rest := by
  induction line with
  | nil =>
    have h : ¬ BeginsWord sep words ([] ++ sep :: rest) :=
      mt (beginsWord_line List.not_mem_nil).mp hnil
    rw [List.nil_append] at h
    rw [List.nil_append, heads, if_neg h, if_neg hnil]
  | cons b line ih =>
    have hline : sep ∉ line := fun h => hsep (List.mem_cons_of_mem b h)
    have hnot : line ∉ words := htail line (List.suffix_cons b line) (by simp)
    have hrest := ih hline fun t ht hne => htail t (ht.trans (List.suffix_cons b line)) fun h => by
      have := ht.length_le
      rw [h, List.length_cons] at this
      omega
    have hbegin : BeginsWord sep words (b :: line ++ sep :: rest) ↔ b :: line ∈ words :=
      beginsWord_line hsep
    rw [if_neg hnot, Nat.zero_add] at hrest
    rw [List.cons_append] at hbegin ⊢
    rw [heads, hrest]
    simp only [hbegin]

/-- No word begins with `b`. -/
theorem heads_cons_of_forall (hb : b ≠ sep) (h : ∀ w ∈ words, w.head? ≠ some b) (s : List β) :
    heads sep words (b :: s) = heads sep words s := by
  have hnot : ¬ BeginsWord sep words (b :: s) := by
    rintro ⟨-, hmem⟩
    apply h _ hmem
    simp [hb]
  rw [heads, if_neg hnot, Nat.zero_add]

end DCache.Lib
