import Mathlib.Tactic.Common

/-! Loops that may fault. -/
namespace DCache.Lib
variable {σ : Type*} {cond : σ → Option Bool} {body : σ → Option σ}

/-- `while (cond) body`. `none` is a fault, or more than `fuel` rounds. -/
def whileLoop (cond : σ → Option Bool) (body : σ → Option σ) : ℕ → σ → Option σ
  | 0, s => (cond s).bind fun b => if b then none else some s
  | fuel + 1, s => (cond s).bind fun b =>
    if b then (body s).bind (whileLoop cond body fuel) else some s

theorem whileLoop_stop {fuel : ℕ} {s : σ} (h : cond s = some false) :
    whileLoop cond body fuel s = some s := by
  cases fuel <;> simp [whileLoop, h]

theorem whileLoop_go {fuel : ℕ} {s s' : σ} (h : cond s = some true) (hb : body s = some s') :
    whileLoop cond body (fuel + 1) s = whileLoop cond body fuel s' := by
  simp [whileLoop, h, hb]

/-- A loop that ends needs no more fuel. -/
theorem whileLoop_mono {n m : ℕ} {s s' : σ} (h : whileLoop cond body n s = some s') (hle : n ≤ m) :
    whileLoop cond body m s = some s' := by
  induction n generalizing m s with
  | zero =>
    obtain ⟨b, hb, hs⟩ := Option.bind_eq_some_iff.mp h
    cases b with
    | true => cases hs
    | false =>
      rw [whileLoop_stop hb]
      exact hs
  | succ n ih =>
    obtain ⟨b, hb, hs⟩ := Option.bind_eq_some_iff.mp h
    cases b with
    | true =>
      obtain ⟨s₁, hs₁, hrest⟩ := Option.bind_eq_some_iff.mp hs
      cases m with
      | zero => omega
      | succ m =>
        rw [whileLoop_go hb hs₁]
        exact ih hrest (by omega)
    | false =>
      rw [whileLoop_stop hb]
      exact hs

theorem whileLoop_unique {n m : ℕ} {s s₁ s₂ : σ} (h₁ : whileLoop cond body n s = some s₁)
    (h₂ : whileLoop cond body m s = some s₂) : s₁ = s₂ := by
  have h := whileLoop_mono h₁ (Nat.le_add_right n m)
  rw [whileLoop_mono h₂ (Nat.le_add_left m n)] at h
  exact (Option.some.inj h).symm

/-- A rule for loops: the invariant bounds the number of rounds that are left. -/
theorem whileLoop_rule {I : ℕ → σ → Prop}
    (hround : ∀ n s, I n s → cond s = some false ∨
      cond s = some true ∧ ∃ m s', m < n ∧ body s = some s' ∧ I m s')
    {n fuel : ℕ} {s : σ} (hs : I n s) (hf : n ≤ fuel) :
    ∃ m s', whileLoop cond body fuel s = some s' ∧ I m s' ∧ cond s' = some false := by
  induction fuel generalizing n s with
  | zero =>
    rcases hround n s hs with hstop | ⟨-, m, s', hlt, -⟩
    · exact ⟨n, s, whileLoop_stop hstop, hs, hstop⟩
    · omega
  | succ fuel ih =>
    rcases hround n s hs with hstop | ⟨hgo, m, s', hlt, hb, hs'⟩
    · exact ⟨n, s, whileLoop_stop hstop, hs, hstop⟩
    · rw [whileLoop_go hgo hb]
      exact ih hs' (by omega)

end DCache.Lib
