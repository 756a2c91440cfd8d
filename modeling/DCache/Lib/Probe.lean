import Mathlib.Data.List.TakeWhile
import Mathlib.Tactic.SplitIfs

/-! Computations that look at a buffer by index. What a computation does is decided by the bytes
that it reads. -/
namespace DCache.Lib

/-- A result, an access that is not allowed, or a read and what follows it. -/
inductive Probe (β : Type) (α : Type) where
  | done (a : α)
  | fault
  | read (i : ℕ) (next : β → Probe β α)

namespace Probe
variable {α β γ : Type}

def bind : Probe β α → (α → Probe β γ) → Probe β γ
  | done a, f => f a
  | fault, _ => fault
  | read i next, f => read i fun b => (next b).bind f

instance : Monad (Probe β) where
  pure := done
  bind := bind

/-- `none` is a read behind the end of the buffer. -/
def eval (buf : List β) : Probe β α → Option α
  | done a => some a
  | fault => none
  | read i next => buf[i]?.bind fun b => (next b).eval buf

/-- The indices that are read. -/
def reads (buf : List β) : Probe β α → List ℕ
  | done _ => []
  | fault => []
  | read i next => i :: buf[i]?.elim [] fun b => (next b).reads buf

variable {buf buf' : List β} {p : Probe β α} {f : α → Probe β γ} {a : α}

@[simp] theorem eval_pure (buf : List β) (a : α) : (pure a : Probe β α).eval buf = some a := rfl

@[simp] theorem reads_pure (buf : List β) (a : α) : (pure a : Probe β α).reads buf = [] := rfl

@[simp] theorem eval_bind (buf : List β) (p : Probe β α) (f : α → Probe β γ) :
    (p >>= f).eval buf = (p.eval buf).bind fun a => (f a).eval buf := by
  induction p with
  | done a => rfl
  | fault => rfl
  | read i next ih =>
    change buf[i]?.bind (fun b => ((next b) >>= f).eval buf) =
      (buf[i]?.bind fun b => (next b).eval buf).bind fun a => (f a).eval buf
    rw [Option.bind_assoc]
    congr 1
    funext b
    exact ih b

theorem reads_bind (buf : List β) (p : Probe β α) (f : α → Probe β γ) :
    (p >>= f).reads buf = p.reads buf ++ (p.eval buf).elim [] fun a => (f a).reads buf := by
  induction p with
  | done a => rfl
  | fault => rfl
  | read i next ih =>
    change i :: buf[i]?.elim [] (fun b => ((next b) >>= f).reads buf) =
      (i :: buf[i]?.elim [] fun b => (next b).reads buf) ++
        (buf[i]?.bind fun b => (next b).eval buf).elim [] fun a => (f a).reads buf
    cases buf[i]? with
    | none => rfl
    | some b =>
      simp only [Option.elim_some, Option.bind_some, List.cons_append]
      rw [ih b]

/-- Buffers that agree where a computation reads are the same to it. -/
theorem eval_reads_congr (h : ∀ i ∈ p.reads buf, buf'[i]? = buf[i]?) :
    p.eval buf' = p.eval buf ∧ p.reads buf' = p.reads buf := by
  induction p with
  | done a => exact ⟨rfl, rfl⟩
  | fault => exact ⟨rfl, rfl⟩
  | read i next ih =>
    have hi : buf'[i]? = buf[i]? := h i List.mem_cons_self
    simp only [eval, reads, hi]
    cases hb : buf[i]? with
    | none => exact ⟨rfl, rfl⟩
    | some b =>
      obtain ⟨heval, hreads⟩ := ih b fun j hj => h j (List.mem_cons_of_mem i (by
        rw [hb]
        exact hj))
      exact ⟨heval, congrArg (List.cons i) hreads⟩

section Within

/-- The computation ends, and all that it reads is below `n`. -/
def Within (p : Probe β α) (n : ℕ) (buf : List β) : Prop :=
  (p.eval buf).isSome = true ∧ ∀ i ∈ p.reads buf, i < n

/-- Whatever is in the `size` cells behind `bytes`, the computation ends with the same result, and
all that it reads is in `bytes`. -/
def UsesOnly (p : Probe β α) (size : ℕ) (bytes : List β) : Prop :=
  ∃ a, ∀ stale : List β, (bytes ++ stale).length = size →
    p.eval (bytes ++ stale) = some a ∧ ∀ i ∈ p.reads (bytes ++ stale), i < bytes.length

/-- One content of the other cells is enough to see it. -/
theorem usesOnly_iff {size : ℕ} {bytes stale : List β} (hs : (bytes ++ stale).length = size) :
    UsesOnly p size bytes ↔ p.Within bytes.length (bytes ++ stale) := by
  constructor
  · rintro ⟨a, h⟩
    obtain ⟨heval, hreads⟩ := h stale hs
    exact ⟨by rw [heval]; rfl, hreads⟩
  · rintro ⟨hsome, hreads⟩
    obtain ⟨a, ha⟩ := Option.isSome_iff_exists.mp hsome
    refine ⟨a, fun stale' _ => ?_⟩
    have hagree : ∀ i ∈ p.reads (bytes ++ stale), (bytes ++ stale')[i]? = (bytes ++ stale)[i]? := by
      intro i hi
      rw [List.getElem?_append_left (hreads i hi), List.getElem?_append_left (hreads i hi)]
    obtain ⟨heval, hreads'⟩ := eval_reads_congr hagree
    rw [heval, hreads']
    exact ⟨ha, hreads⟩

theorem within_pure (n : ℕ) (buf : List β) (a : α) : (pure a : Probe β α).Within n buf :=
  ⟨rfl, nofun⟩

theorem within_bind {n : ℕ} (ha : p.eval buf = some a) :
    (p >>= f).Within n buf ↔ p.Within n buf ∧ (f a).Within n buf := by
  simp only [Within, eval_bind, reads_bind, ha, Option.bind_some, Option.elim_some,
    Option.isSome_some, true_and, List.mem_append]
  constructor
  · rintro ⟨hsome, hreads⟩
    exact ⟨fun i hi => hreads i (Or.inl hi), hsome, fun i hi => hreads i (Or.inr hi)⟩
  · rintro ⟨hp, hsome, hf⟩
    exact ⟨hsome, fun i hi => hi.elim (hp i) (hf i)⟩

theorem Within.of_bind {n : ℕ} (h : (p >>= f).Within n buf) : p.Within n buf := by
  obtain ⟨a, ha⟩ : ∃ a, p.eval buf = some a := by
    have hsome := h.1
    rw [eval_bind] at hsome
    exact Option.isSome_iff_exists.mp (Option.isSome_of_isSome_bind hsome)
  exact ((within_bind ha).mp h).1

end Within

section Scan
variable [DecidableEq β] (sep : β)

/-- A loop that collects from index `i` on, up to `sep`, at most `left` times. -/
def scan (past : List β × ℕ → Probe β (List β × ℕ)) : ℕ → ℕ → List β → Probe β (List β × ℕ)
  | 0, i, acc => past (acc, i)
  | left + 1, i, acc => .read i fun b =>
      if b = sep then .done (acc, i) else scan past left (i + 1) (acc ++ [b])

variable {sep} {past : List β × ℕ → Probe β (List β × ℕ)} {left i : ℕ} {acc : List β}

private theorem takeWhile_drop (h : i < buf.length) :
    (buf.drop i).takeWhile (fun b => b ≠ sep) =
      if buf[i] = sep then [] else buf[i] :: (buf.drop (i + 1)).takeWhile (fun b => b ≠ sep) := by
  rw [List.drop_eq_getElem_cons h, List.takeWhile_cons]
  by_cases hb : buf[i] = sep
  · rw [if_pos hb, if_neg (by simpa using hb)]
  · rw [if_neg hb, if_pos (by simpa using hb)]

omit [DecidableEq β] in
private theorem mem_take_drop (h : i < buf.length) :
    sep ∈ (buf.drop i).take (left + 1) ↔ buf[i] = sep ∨ sep ∈ (buf.drop (i + 1)).take left := by
  rw [List.drop_eq_getElem_cons h, List.take_succ_cons, List.mem_cons, eq_comm]

/-- The result of a loop that stops at `sep`. -/
theorem eval_scan_of_mem (h : i + left ≤ buf.length) (hsep : sep ∈ (buf.drop i).take left) :
    (scan sep past left i acc).eval buf =
      some (acc ++ (buf.drop i).takeWhile (fun b => b ≠ sep),
        i + ((buf.drop i).takeWhile (fun b => b ≠ sep)).length) := by
  induction left generalizing i acc with
  | zero => simp at hsep
  | succ left ih =>
    have hi : i < buf.length := by omega
    rw [mem_take_drop hi] at hsep
    rw [scan, eval, List.getElem?_eq_getElem hi, Option.bind_some, takeWhile_drop hi]
    split_ifs with hb
    · rw [List.append_nil, List.length_nil, Nat.add_zero]
      rfl
    · rw [ih (by omega) (hsep.resolve_left hb), List.append_assoc, List.length_cons,
        Nat.add_right_comm]
      rfl

/-- The result of a loop that meets no `sep`. -/
theorem eval_scan_of_notMem (h : i + left ≤ buf.length) (hsep : sep ∉ (buf.drop i).take left) :
    (scan sep past left i acc).eval buf =
      (past (acc ++ (buf.drop i).take left, i + left)).eval buf := by
  induction left generalizing i acc with
  | zero => simp [scan]
  | succ left ih =>
    have hi : i < buf.length := by omega
    rw [mem_take_drop hi, not_or] at hsep
    rw [scan, eval, List.getElem?_eq_getElem hi, Option.bind_some, if_neg hsep.1,
      ih (by omega) hsep.2, List.append_assoc, Nat.add_right_comm, List.drop_eq_getElem_cons hi]
    rfl

/-- What a loop reads, where no reads come behind it. -/
theorem mem_reads_scan (hpast : ∀ o, (past o).reads buf = []) (h : i + left ≤ buf.length) (j : ℕ) :
    j ∈ (scan sep past left i acc).reads buf ↔
      i ≤ j ∧ j < i + left ∧ j ≤ i + ((buf.drop i).takeWhile (fun b => b ≠ sep)).length := by
  induction left generalizing i acc with
  | zero =>
    rw [scan, hpast]
    apply iff_of_false List.not_mem_nil
    omega
  | succ left ih =>
    have hi : i < buf.length := by omega
    rw [scan, reads, List.getElem?_eq_getElem hi, Option.elim_some, List.mem_cons,
      takeWhile_drop hi]
    split_ifs with hb
    · rw [reads, List.length_nil]
      simp only [List.not_mem_nil, or_false]
      omega
    · rw [ih (by omega), List.length_cons]
      omega

end Scan

end Probe
end DCache.Lib
