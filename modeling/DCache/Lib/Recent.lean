import Mathlib.Data.List.DropRight
import Mathlib.Data.List.Dedup

/-! The last few distinct elements of a sequence, in the order of their last occurrences. -/
namespace DCache.Lib

variable {α : Type*}

theorem rtake_append_of_length {l l' : List α} {n : ℕ} (h : l'.length = n ∨ l'.length ≤ n ∧ l = []) :
    (l ++ l').rtake n = l' := by
  rcases h with rfl | ⟨hn, rfl⟩
  · simp [List.rtake]
  · simp [List.rtake, Nat.sub_eq_zero_of_le hn]

variable [DecidableEq α]

def recent (n : ℕ) (l : List α) : List α := l.dedup.rtake n

/-- What follows the last occurrence of `a`. -/
def afterLast (a : α) (l : List α) : List α := l.rtakeWhile (fun b => b ≠ a)

theorem dedup_concat (l : List α) (a : α) :
    (l ++ [a]).dedup = l.dedup.filter (fun b => b ≠ a) ++ [a] := by
  induction l with
  | nil => simp
  | cons b l ih =>
    rw [List.cons_append]
    by_cases hb : b ∈ l
    · rw [List.dedup_cons_of_mem (by simp [hb]), ih, List.dedup_cons_of_mem hb]
    · rw [List.dedup_cons_of_notMem hb]
      by_cases hba : b = a
      · rw [List.dedup_cons_of_mem (by simp [hba]), ih, List.filter_cons_of_neg (by simp [hba])]
      · rw [List.dedup_cons_of_notMem (by simp [hb, hba]), ih,
          List.filter_cons_of_pos (by simpa using hba), List.cons_append]

theorem length_recent_le (n : ℕ) (l : List α) : (recent n l).length ≤ n := by
  simp only [recent, List.rtake, List.length_drop]
  omega

theorem nodup_recent (n : ℕ) (l : List α) : (recent n l).Nodup :=
  (List.nodup_dedup l).sublist (List.drop_sublist _ _)

theorem recent_nil (n : ℕ) : recent n ([] : List α) = [] := by simp [recent]

theorem recent_of_nodup {n : ℕ} {l : List α} (hl : l.Nodup) (hn : l.length ≤ n) :
    recent n l = l := by
  rw [recent, hl.dedup, List.rtake, Nat.sub_eq_zero_of_le hn, List.drop_zero]

/-- Distinct last elements are in the window if there is room for them. -/
theorem suffix_recent_append {n : ℕ} {l' : List α} (hl : l'.Nodup) (hn : l'.length ≤ n)
    (l : List α) : l' <:+ recent n (l ++ l') := by
  obtain ⟨pre, hpre⟩ := List.suffix_union_right l l'
  have hd : (l ++ l').dedup = pre ++ l' := by rw [List.dedup_append, hl.dedup, hpre]
  rw [recent, hd, List.rtake, List.drop_append_of_le_length]
  · exact List.suffix_append _ _
  · rw [List.length_append]
    omega

/-- The window holds nothing but the last elements if they fill it or nothing else came before. -/
theorem recent_append_eq_iff {n : ℕ} {l' : List α} (hl : l'.Nodup) (hn : l'.length ≤ n)
    (l : List α) : recent n (l ++ l') = l' ↔ l'.length = n ∨ l ⊆ l' := by
  constructor
  · intro h
    by_cases hlt : l'.length = n
    · exact Or.inl hlt
    · have hlen := congrArg List.length h
      rw [recent, List.rtake, List.length_drop] at hlen
      have hzero : (l ++ l').dedup.length - n = 0 := by omega
      rw [recent, List.rtake, hzero, List.drop_zero] at h
      refine Or.inr fun a ha => ?_
      rw [← h]
      exact List.mem_dedup.mpr (List.mem_append_left _ ha)
  · rintro (rfl | hsub)
    · exact ((suffix_recent_append hl le_rfl l).eq_of_length_le (length_recent_le _ _)).symm
    · have hd : (l ++ l').dedup = l' := (hsub.dedup_append_right).trans hl.dedup
      rw [recent, hd, List.rtake, Nat.sub_eq_zero_of_le hn, List.drop_zero]

/-- A longer sequence drops the older occurrence of its last element, or else the oldest element
of a full window. -/
theorem recent_concat {n : ℕ} (hn : 1 ≤ n) (l : List α) (a : α) :
    recent n (l ++ [a]) =
      (if a ∈ recent n l then (recent n l).filter (fun b => b ≠ a)
        else if (recent n l).length = n then (recent n l).tail else recent n l) ++ [a] := by
  obtain ⟨m, rfl⟩ := Nat.exists_eq_add_of_le' hn
  -- `A` is what the window has lost, `B` the window
  let A := l.dedup.rdrop (m + 1)
  let B := recent (m + 1) l
  have hD : l.dedup = A ++ B := (List.take_append_drop _ _).symm
  have hA : B.length < m + 1 → A = [] := by
    intro hB
    simp only [A, B, recent, List.rtake, List.rdrop, List.length_drop] at hB ⊢
    rw [show l.dedup.length - (m + 1) = 0 by omega, List.take_zero]
  have hB := length_recent_le (m + 1) l
  have hAB : recent (m + 1) (l ++ [a]) =
      (A.filter (fun b => b ≠ a) ++ B.filter (fun b => b ≠ a)).rtake m ++ [a] := by
    rw [recent, dedup_concat, List.rtake_concat_succ, hD, List.filter_append]
  rw [hAB]
  congr 1
  change _ = if a ∈ B then B.filter (fun b => b ≠ a) else if B.length = m + 1 then B.tail else B
  change B.length ≤ m + 1 at hB
  by_cases ha : a ∈ B
  · have hf : (B.filter (fun b => b ≠ a)).length = B.length - 1 := by
      have he : B.filter (fun b => b ≠ a) = B.erase a := by
        rw [(nodup_recent (m + 1) l).erase_eq_filter a]
        congr 1
        funext b
        simp [bne, ← Bool.beq_eq_decide_eq]
      rw [he, List.length_erase_of_mem ha]
    rw [if_pos ha]
    apply rtake_append_of_length
    rw [hf]
    by_cases hlt : B.length < m + 1
    · exact Or.inr ⟨by omega, by simp [hA hlt]⟩
    · exact Or.inl (by omega)
  · have hfil : B.filter (fun b => b ≠ a) = B :=
      List.filter_eq_self.mpr fun b hb => by
        simp only [decide_eq_true_eq]
        rintro rfl
        exact ha hb
    rw [if_neg ha, hfil]
    split_ifs with hl
    · obtain ⟨b, B', hb⟩ := List.exists_cons_of_length_eq_add_one hl
      rw [hb, List.tail_cons, ← List.singleton_append, ← List.append_assoc]
      refine rtake_append_of_length (Or.inl ?_)
      have := hb ▸ hl
      simpa using this
    · exact rtake_append_of_length (Or.inr ⟨by omega, by simp [hA (by omega)]⟩)

/-- Membership in the window counts the distinct elements behind the last occurrence. -/
theorem mem_recent {n : ℕ} {l : List α} {a : α} :
    a ∈ recent n l ↔ a ∈ l ∧ (afterLast a l).dedup.length < n := by
  by_cases hl : a ∈ l
  · obtain ⟨r₁, r₂, hr, hn⟩ := List.eq_append_cons_of_mem (List.mem_reverse.mpr hl)
    obtain rfl : l = r₂.reverse ++ a :: r₁.reverse := by
      have := congrArg List.reverse hr
      simpa using this
    have hafter : afterLast a (r₂.reverse ++ a :: r₁.reverse) = r₁.reverse := by
      rw [afterLast, List.rtakeWhile, hr, List.takeWhile_append_of_pos]
      · simp
      · intro b hb
        simp only [decide_eq_true_eq]
        rintro rfl
        exact hn hb
    obtain ⟨pre, hpre⟩ := List.suffix_union_right r₂.reverse (a :: r₁.reverse.dedup)
    have hd : (r₂.reverse ++ a :: r₁.reverse).dedup = pre ++ a :: r₁.reverse.dedup := by
      rw [List.dedup_append, List.dedup_cons_of_notMem (by simpa using hn), hpre]
    have hnd := List.nodup_dedup (r₂.reverse ++ a :: r₁.reverse)
    rw [hd, List.nodup_append', List.nodup_cons] at hnd
    have hapre : a ∉ pre := fun h => hnd.2.2 h (by simp)
    rw [hafter, recent, hd, List.rtake, List.drop_append]
    simp only [List.length_append, List.length_cons, hl, true_and, List.mem_append]
    constructor
    · rintro (h | h)
      · exact absurd (List.mem_of_mem_drop h) hapre
      · by_contra hlt
        obtain ⟨k, hk⟩ := Nat.exists_eq_add_of_le' (show
          1 ≤ pre.length + (r₁.reverse.dedup.length + 1) - n - pre.length by omega)
        rw [hk, List.drop_succ_cons] at h
        exact hnd.2.1.1 (List.mem_of_mem_drop h)
    · intro hlt
      right
      rw [show pre.length + (r₁.reverse.dedup.length + 1) - n - pre.length = 0 by omega]
      simp
  · have hnr : a ∉ recent n l := fun h =>
      hl (List.mem_dedup.mp (List.mem_of_mem_drop h))
    simp [hl, hnr]

/-- The window is the part of the whole order that lies in the window. -/
theorem dedup_filter_mem_recent (n : ℕ) (l : List α) :
    l.dedup.filter (fun a => a ∈ recent n l) = recent n l := by
  have hD : l.dedup = l.dedup.rdrop n ++ recent n l := (List.take_append_drop _ _).symm
  have hn := List.nodup_dedup l
  rw [hD, List.nodup_append'] at hn
  conv_lhs => rw [hD]
  rw [List.filter_append, List.filter_eq_nil_iff.mpr, List.nil_append,
    List.filter_eq_self.mpr]
  · intro a ha
    simpa using ha
  · intro a ha
    simpa using fun h => hn.2.2 ha h

end DCache.Lib
