import DCache.Lib.Run
import Mathlib.Algebra.BigOperators.Group.Finset.Basic
import Mathlib.Data.Fintype.Basic

/-! Threads that take atomic steps on a shared memory in any order. The code of a thread is the
operation that it does next and, for every result of it, the code that is left. -/
namespace DCache.Lib

/-- What an operation does: it has to wait, it faults, or it returns a result. -/
inductive Outcome (ρ σ : Type)
  | blocked
  | fault
  | ok (res : ρ) (mem : σ)

theorem Outcome.of_ok {ρ σ : Type} {a b : ρ} {m m' : σ} (h : Outcome.ok a m = .ok b m') :
    a = b ∧ m = m' := by
  cases h
  exact ⟨rfl, rfl⟩

namespace Outcome
variable {ρ ρ' σ : Type}

/-- A function that may fault. -/
def ofOption : Option (ρ × σ) → Outcome ρ σ
  | none => fault
  | some (r, m) => ok r m

def map (f : ρ → ρ') : Outcome ρ σ → Outcome ρ' σ
  | blocked => blocked
  | fault => fault
  | ok r m => ok (f r) m

theorem of_ofOption {o : Option (ρ × σ)} {r : ρ} {m : σ} (h : ofOption o = ok r m) :
    o = some (r, m) := by
  cases o with
  | none => cases h
  | some o =>
    obtain ⟨rfl, rfl⟩ := of_ok h
    rfl

theorem of_map {o : Outcome ρ σ} {f : ρ → ρ'} {r' : ρ'} {m : σ} (h : o.map f = ok r' m) :
    ∃ r, o = ok r m ∧ f r = r' := by
  cases o with
  | ok r m =>
    obtain ⟨rfl, rfl⟩ := of_ok h
    exact ⟨r, rfl, rfl⟩
  | _ => cases h

end Outcome

section Code
variable {Op : Type}

inductive Code (Res : Op → Type)
  | done
  | call (op : Op) (next : Res op → Code Res)

variable {Res : Op → Type} {σ : Type}

/-- An operation that is done, and its result. -/
structure Action (Res : Op → Type) where
  op : Op
  res : Res op

namespace Code

/-- Some way to go on leads to an operation in `target`, with no result on the way that meets
`cut`. -/
def May (target : Op → Prop) (cut : (op : Op) → Res op → Prop) : Code Res → Prop
  | .done => False
  | .call op next => target op ∨ ∃ r, ¬ cut op r ∧ May target cut (next r)

variable {target target' : Op → Prop} {cut : (op : Op) → Res op → Prop} {op : Op}
  {next : Res op → Code Res} {r : Res op}

@[simp] theorem not_may_done : ¬ (done : Code Res).May target cut := fun h => h

/-- What may happen after a step may happen before it, unless its result cuts the way. -/
theorem May.of_next (h : (next r).May target cut) (hr : ¬ cut op r) :
    (call op next).May target cut := Or.inr ⟨r, hr, h⟩

theorem not_may_call (hop : ¬ target op) (h : ∀ r, ¬ cut op r → ¬ (next r).May target cut) :
    ¬ (call op next).May target cut := by
  rintro (ht | ⟨r, hr, hm⟩)
  · exact hop ht
  · exact h r hr hm

theorem May.mono {cut' : (op : Op) → Res op → Prop} {c : Code Res} (h : c.May target cut)
    (ht : ∀ op, target op → target' op) (hc : ∀ op r, cut' op r → cut op r) :
    c.May target' cut' := by
  induction c with
  | done => exact h
  | call op next ih =>
    rcases h with h | ⟨r, hr, h⟩
    · exact Or.inl (ht op h)
    · exact Or.inr ⟨r, fun hcut => hr (hc op r hcut), ih r h⟩

/-- All operations of the code are in `ops`. -/
def Only (ops : Op → Prop) : Code Res → Prop
  | .done => True
  | .call op next => ops op ∧ ∀ r, Only ops (next r)

variable {ops ops' : Op → Prop} {c : Code Res}

theorem Only.mono (h : c.Only ops) (hops : ∀ op, ops op → ops' op) : c.Only ops' := by
  induction c with
  | done => trivial
  | call op next ih => exact ⟨hops op h.1, fun r => ih r (h.2 r)⟩

theorem Only.not_may (h : c.Only ops) (hops : ∀ op, ops op → ¬ target op) : ¬ c.May target cut := by
  induction c with
  | done => exact not_may_done
  | call op next ih => exact not_may_call (hops op h.1) fun r _ => ih r (h.2 r)

/-- What a thread may do next and with what code it may go on, given what it knows of the memory;
what it knows after an operation, and what it may know when it is done. -/
structure Protocol (η : Type) (Res : Op → Type) where
  allows : η → (op : Op) → (Res op → Code Res) → Prop
  after : η → (op : Op) → Res op → η → Prop
  ends : η → Prop

def Obeys {η : Type} (P : Protocol η Res) : η → Code Res → Prop
  | v, .done => P.ends v
  | v, .call op next => P.allows v op next ∧ ∀ r v', P.after v op r v' → Obeys P v' (next r)

/-- What a thread does that runs alone. `none` is a fault, or a wait without end. -/
def exec (perform : (op : Op) → σ → Outcome (Res op) σ) :
    Code Res → σ → Option (List (Action Res) × σ)
  | .done, m => some ([], m)
  | .call op next, m =>
    match perform op m with
    | .ok r m => (exec perform (next r) m).map (fun o => (⟨op, r⟩ :: o.1, o.2))
    | _ => none

end Code

/-- Threads `ι`, each with its code, over one memory. -/
structure Pool (ι σ : Type) (Res : Op → Type) where
  mem : σ
  code : ι → Code Res

namespace Pool
variable {ι : Type} [DecidableEq ι] {perform : ι → (op : Op) → σ → Outcome (Res op) σ}

/-- A step of one thread, and the operation that it does. A thread that is done or has to wait
changes nothing. -/
def step (perform : ι → (op : Op) → σ → Outcome (Res op) σ) (p : Pool ι σ Res) (i : ι) :
    Option (Option (ι × Action Res) × Pool ι σ Res) :=
  match p.code i with
  | .done => some (none, p)
  | .call op next =>
    match perform i op p.mem with
    | .blocked => some (none, p)
    | .fault => none
    | .ok r m => some (some (i, ⟨op, r⟩), ⟨m, Function.update p.code i (next r)⟩)

variable {p p' : Pool ι σ Res} {i : ι} {o : Option (ι × Action Res)} {op : Op}
  {next : Res op → Code Res} {r : Res op} {m : σ}

theorem step_ok (hc : p.code i = .call op next) (hp : perform i op p.mem = .ok r m) :
    p.step perform i = some (some (i, ⟨op, r⟩), ⟨m, Function.update p.code i (next r)⟩) := by
  simp only [step, hc, hp]

/-- All that a step can do. -/
theorem step_cases (h : p.step perform i = some (o, p')) :
    (o = none ∧ p' = p) ∨ ∃ op next r m, p.code i = .call op next ∧
      perform i op p.mem = .ok r m ∧ o = some (i, ⟨op, r⟩) ∧
      p' = ⟨m, Function.update p.code i (next r)⟩ := by
  unfold step at h
  cases hc : p.code i with
  | done =>
    simp only [hc, Option.some.injEq, Prod.mk.injEq] at h
    exact Or.inl ⟨h.1.symm, h.2.symm⟩
  | call op next =>
    simp only [hc] at h
    cases hp : perform i op p.mem with
    | blocked =>
      simp only [hp, Option.some.injEq, Prod.mk.injEq] at h
      exact Or.inl ⟨h.1.symm, h.2.symm⟩
    | fault => simp [hp] at h
    | ok r m =>
      simp only [hp, Option.some.injEq, Prod.mk.injEq] at h
      exact Or.inr ⟨op, next, r, m, rfl, hp, h.1.symm, h.2.symm⟩

/-- A thread that is scheduled alone does what `exec` says. -/
theorem run_of_exec {c : Code Res} {actions : List (Action Res)}
    (h : c.exec (perform i) p.mem = some (actions, m)) (hc : p.code i = c) :
    run (step perform) p (List.replicate actions.length i) =
      some (actions.map (fun a => some (i, a)), ⟨m, Function.update p.code i .done⟩) := by
  induction c generalizing p actions with
  | done =>
    obtain ⟨rfl, rfl⟩ := Prod.mk.inj (Option.some.inj h)
    simp [← hc]
  | call op next ih =>
    unfold Code.exec at h
    cases hp : perform i op p.mem with
    | blocked => simp [hp] at h
    | fault => simp [hp] at h
    | ok r m₁ =>
      simp only [hp, Option.map_eq_some_iff] at h
      obtain ⟨⟨rest, m₂⟩, hrest, ho⟩ := h
      obtain ⟨rfl, rfl⟩ := Prod.mk.inj ho
      have hih := ih r (p := ⟨m₁, Function.update p.code i (next r)⟩) hrest (by simp)
      rw [List.length_cons, List.replicate_succ, run_cons (step_ok hc hp), hih]
      simp

end Pool
end Code

section Count
variable {ι β : Type} [Fintype ι] (q : β → Bool)

/-- How many threads are at a point that meets `q`. -/
def count (f : ι → β) : ℕ := ∑ i, if q (f i) then 1 else 0

variable {q}

theorem count_eq_zero {f : ι → β} : count q f = 0 ↔ ∀ i, q (f i) = false := by
  simp [count]

variable [DecidableEq ι]

private theorem count_update (f : ι → β) (i : ι) (b : β) :
    count q (Function.update f i b) + (if q (f i) then 1 else 0) =
      count q f + if q b then 1 else 0 := by
  have hrest : ∑ j ∈ Finset.univ.erase i, (if q (Function.update f i b j) then 1 else 0) =
      ∑ j ∈ Finset.univ.erase i, if q (f j) then 1 else 0 := by
    refine Finset.sum_congr rfl fun j hj => ?_
    rw [Function.update_of_ne (Finset.ne_of_mem_erase hj)]
  have h₁ := Finset.add_sum_erase Finset.univ (fun j => if q (f j) then 1 else 0)
    (Finset.mem_univ i)
  have h₂ := Finset.add_sum_erase Finset.univ
    (fun j => if q (Function.update f i b j) then 1 else 0) (Finset.mem_univ i)
  simp only [Function.update_self] at h₂
  unfold count
  omega

variable {f : ι → β} {i : ι} {b : β}

theorem count_stay (hf : q (f i) = false) (hb : q b = false) :
    count q (Function.update f i b) = count q f := by
  have h := count_update (q := q) f i b
  rw [hf, hb] at h
  simpa using h

theorem count_enter (hf : q (f i) = false) (hb : q b = true) :
    count q (Function.update f i b) = count q f + 1 := by
  have h := count_update (q := q) f i b
  rw [hf, hb] at h
  simpa using h

theorem count_leave (hf : q (f i) = true) (hb : q b = false) :
    count q (Function.update f i b) + 1 = count q f := by
  have h := count_update (q := q) f i b
  rw [hf, hb] at h
  simpa using h

end Count
end DCache.Lib
