import DCache.Lib.Threads
import Mathlib.Data.Nat.Pairing
import Mathlib.Logic.Hydra

/-! Machines that come to rest. A schedule is fair when each agent has its turn again and again. Where
every event that changes the state makes a measure smaller, a fair run ends in a state where no agent
changes anything, if no step faults. -/
namespace DCache.Lib
variable {σ ε ρ α κ : Type}

/-- The first `n` events of a schedule. -/
def taken (sched : ℕ → ε) (n : ℕ) : List ε := (List.range n).map sched

/-- No agents but those in `A` have turns. -/
structure Fair (agent : ε → κ) (A : Set κ) (sched : ℕ → ε) : Prop where
  only : ∀ n, agent (sched n) ∈ A
  again : ∀ k ∈ A, ∀ n, ∃ m, n ≤ m ∧ agent (sched m) = k

/-- Every agent has an event that changes nothing. -/
def AtRest (step : σ → ε → Option (ρ × σ)) (agent : ε → κ) (A : Set κ) (s : σ) : Prop :=
  ∀ k ∈ A, ∃ e r, agent e = k ∧ step s e = some (r, s)

theorem taken_succ (sched : ℕ → ε) (n : ℕ) : taken sched (n + 1) = taken sched n ++ [sched n] := by
  rw [taken, List.range_succ, List.map_append]
  rfl

/-- A fair schedule of any sequence of events. -/
theorem fair_unpair {agent : ε → κ} {A : Set κ} {f : ℕ → ε} (hA : ∀ k, k ∈ A ↔ ∃ i, agent (f i) = k) :
    Fair agent A fun n => f n.unpair.1 where
  only n := (hA _).mpr ⟨n.unpair.1, rfl⟩
  again := by
    intro k hk n
    obtain ⟨i, rfl⟩ := (hA k).mp hk
    refine ⟨Nat.pair i n, Nat.right_le_pair i n, ?_⟩
    rw [Nat.unpair_pair]

section Settles
variable {step : σ → ε → Option (ρ × σ)} {ok : σ → ε → Prop} {q : ε → Prop} {agent : ε → κ} {A : Set κ}
  {sched : ℕ → ε} {I : σ → Prop} {less : α → α → Prop} {s : σ} {es : List ε}

/-- What holds in every state that the events lead to may be asked of them. -/
theorem allowed_of_invariant
    (hkept : ∀ s e r s', I s → q e → step s e = some (r, s') → I s')
    (hok : ∀ s e, I s → q e → ok s e) (hs : I s) (hq : ∀ e ∈ es, q e) : Allowed step ok s es := by
  induction es generalizing s with
  | nil => trivial
  | cons e es ih =>
    obtain ⟨he, hes⟩ := List.forall_mem_cons.mp hq
    refine ⟨hok s e hs he, ?_⟩
    cases hstep : step s e with
    | none => trivial
    | some o => exact ih (hkept s e o.1 o.2 hs he hstep) hes

/-- The rule for fair runs after any other run. -/
theorem Fair.settles (hfair : Fair agent A sched) (hwf : WellFounded less) (μ : σ → α)
    (hkept : ∀ s e r s', I s → ok s e → step s e = some (r, s') → I s')
    (hless : ∀ s e r s', I s → agent e ∈ A → step s e = some (r, s') → s' = s ∨ less (μ s') (μ s))
    (hs : I s) (ha : ∀ n, Allowed step ok s (es ++ taken sched n)) :
    ∃ n, run step s (es ++ taken sched n) = none ∨ ∃ rs s',
      run step s (es ++ taken sched n) = some (rs, s') ∧ I s' ∧ AtRest step agent A s' := by
  by_cases hfault : ∃ n, run step s (es ++ taken sched n) = none
  · obtain ⟨n, hn⟩ := hfault
    exact ⟨n, Or.inl hn⟩
  have hruns : ∀ n, ∃ o : List ρ × σ, run step s (es ++ taken sched n) = some o :=
    fun n => Option.ne_none_iff_exists'.mp fun hn => hfault ⟨n, hn⟩
  choose f hf using hruns
  have hI : ∀ n, I (f n).2 := fun n => run_kept hkept hs (ha n) (hf n)
  have hnext : ∀ n, ∃ r, step (f n).2 (sched n) = some (r, (f (n + 1)).2) := by
    intro n
    have hrun := hf (n + 1)
    rw [taken_succ, ← List.append_assoc, run_append, hf n, Option.bind_some,
      Option.map_eq_some_iff] at hrun
    obtain ⟨⟨rs, s'⟩, hlast, ho⟩ := hrun
    cases hstep : step (f n).2 (sched n) with
    | none => simp [run, hstep] at hlast
    | some o =>
      obtain ⟨r, s₁⟩ := o
      rw [run_cons hstep, run_nil] at hlast
      obtain ⟨-, rfl⟩ := Prod.mk.inj (Option.some.inj hlast)
      exact ⟨r, by rw [← ho]⟩
  -- the measure is smallest at some point, and no event changes the state from there on
  obtain ⟨_, ⟨n, rfl⟩, hmin⟩ := hwf.has_min (Set.range fun n => μ (f n).2) ⟨_, 0, rfl⟩
  have hstays : ∀ m, n ≤ m → (f m).2 = (f n).2 := by
    intro m hm
    induction m, hm using Nat.le_induction with
    | base => rfl
    | succ m _ ih =>
      obtain ⟨r, hr⟩ := hnext m
      rcases hless _ _ _ _ (hI m) (hfair.only m) hr with he | hl
      · rw [he, ih]
      · rw [ih] at hl
        exact absurd hl (hmin _ ⟨m + 1, rfl⟩)
  refine ⟨n, Or.inr ⟨(f n).1, (f n).2, hf n, hI n, ?_⟩⟩
  intro k hk
  obtain ⟨m, hm, rfl⟩ := hfair.again k hk n
  obtain ⟨r, hr⟩ := hnext m
  rw [hstays m hm, hstays (m + 1) (by omega)] at hr
  exact ⟨sched m, r, rfl, hr⟩

end Settles

section Code
variable {Op : Type} {Res : Op → Type} {ι μ : Type}

/-- The code that is left after a step. -/
inductive Code.Next : Code Res → Code Res → Prop
  | intro (op : Op) (next : Res op → Code Res) (r : Res op) : Next (next r) (.call op next)

theorem Code.wellFounded_next : WellFounded (@Code.Next Op Res) := by
  constructor
  intro c
  induction c with
  | done => exact ⟨_, nofun⟩
  | call op next ih =>
    constructor
    rintro _ ⟨_, _, r⟩
    exact ih r

theorem Code.next_ne {op : Op} {next : Res op → Code Res} (r : Res op) : next r ≠ .call op next := by
  intro h
  have hnext := Code.Next.intro op next r
  rw [h] at hnext
  exact wellFounded_next.irrefl.irrefl _ hnext

section Measure
variable {β : Type} {less : β → β → Prop} [DecidableEq ι] {S : Finset ι} {f : ι → β} {i : ι} {b : β}

/-- The parts of finitely many threads. -/
def parts (S : Finset ι) (f : ι → β) : Multiset β := S.val.map f

/-- One part gets smaller. -/
theorem cutExpand_update (hi : i ∈ S) (h : less b (f i)) :
    Relation.CutExpand less (parts S (Function.update f i b)) (parts S f) := by
  have hS : S.val = i ::ₘ (S.erase i).val := by
    rw [← Finset.insert_val_of_notMem (Finset.notMem_erase i S), Finset.insert_erase hi]
  have hrest : (S.erase i).val.map (Function.update f i b) = (S.erase i).val.map f :=
    Multiset.map_congr rfl fun j hj => Function.update_of_ne (Finset.ne_of_mem_erase hj) _ _
  rw [parts, parts, hS, Multiset.map_cons, Multiset.map_cons, Function.update_self, hrest,
    ← Multiset.singleton_add, ← Multiset.singleton_add]
  exact Relation.cutExpand_single_add h _

end Measure

theorem Code.next_less [DecidableEq ι] {S : Finset ι} {code : ι → Code Res} {i : ι} {op : Op}
    {next : Res op → Code Res} (hi : i ∈ S) (hc : code i = .call op next) (r : Res op) :
    Relation.CutExpand Code.Next (parts S (Function.update code i (next r))) (parts S code) := by
  refine cutExpand_update hi ?_
  rw [hc]
  exact .intro op next r

namespace Pool
variable [DecidableEq ι] {perform : ι → (op : Op) → μ → Outcome (Res op) μ} {p p' : Pool ι μ Res}
  {i : ι} {o : Option (ι × Action Res)}

/-- A thread whose step changes nothing is done, or waits. -/
theorem of_step_self (h : p.step perform i = some (o, p)) : p.code i = .done ∨
    ∃ op next, p.code i = .call op next ∧ perform i op p.mem = .blocked := by
  cases hc : p.code i with
  | done => exact Or.inl rfl
  | call op next =>
    refine Or.inr ⟨op, next, rfl, ?_⟩
    cases hp : perform i op p.mem with
    | blocked => rfl
    | fault => simp [step, hc, hp] at h
    | ok r m =>
      rw [step_ok hc hp, Option.some.injEq, Prod.mk.injEq] at h
      have hcode : Function.update p.code i (next r) i = p.code i :=
        congrFun (congrArg Pool.code h.2) i
      rw [Function.update_self, hc] at hcode
      exact absurd hcode (Code.next_ne r)

end Pool
end Code
end DCache.Lib
