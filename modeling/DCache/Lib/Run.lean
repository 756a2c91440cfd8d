import Mathlib.Data.List.Forall2
import Mathlib.Logic.Relation

/-! Runs of machines whose step may fault and returns a result, with the rules that carry a
property or a simulation of one step to whole runs. -/
namespace DCache.Lib

variable {σ τ ε ρ : Type}

/-- The results of a run, oldest first, and the state it ends in. -/
def run (step : σ → ε → Option (ρ × σ)) : σ → List ε → Option (List ρ × σ)
  | s, [] => some ([], s)
  | s, e :: es => do
    let (r, s) ← step s e
    let (rs, s) ← run step s es
    some (r :: rs, s)

/-- Every event of a run meets `ok` in the state in which it is taken. -/
def Allowed (step : σ → ε → Option (ρ × σ)) (ok : σ → ε → Prop) : σ → List ε → Prop
  | _, [] => True
  | s, e :: es => ok s e ∧ match step s e with
    | none => True
    | some (_, s) => Allowed step ok s es

instance decidableAllowed {step : σ → ε → Option (ρ × σ)} {ok : σ → ε → Prop}
    [∀ s e, Decidable (ok s e)] : (s : σ) → (es : List ε) → Decidable (Allowed step ok s es)
  | _, [] => isTrue trivial
  | s, e :: es =>
    have : Decidable (match step s e with
        | none => True
        | some (_, s) => Allowed step ok s es) :=
      match step s e with
      | none => isTrue trivial
      | some (_, s) => decidableAllowed s es
    inferInstanceAs (Decidable (_ ∧ _))

/-- The machine with a history variable, which the machine does not read. -/
def annotate {γ : Type} (step : σ → ε → Option (ρ × σ)) (next : γ → σ → ε → ρ → γ) (s : σ × γ)
    (e : ε) : Option (ρ × (σ × γ)) :=
  (step s.1 e).map fun o => (o.1, (o.2, next s.2 s.1 e o.1))

section Runs
variable {step : σ → ε → Option (ρ × σ)} {step' : τ → ε → Option (ρ × τ)} {ok : σ → ε → Prop}
  {s s' : σ} {e : ε} {es es' : List ε} {r : ρ} {rs : List ρ}

@[simp] theorem run_nil : run step s [] = some ([], s) := rfl

theorem run_cons (h : step s e = some (r, s')) :
    run step s (e :: es) = (run step s' es).map (fun o => (r :: o.1, o.2)) := by
  simp only [run, h, Option.bind_eq_bind, Option.bind_some]
  cases run step s' es <;> rfl

theorem allowed_cons (h : step s e = some (r, s')) :
    Allowed step ok s (e :: es) ↔ ok s e ∧ Allowed step ok s' es := by
  simp [Allowed, h]

theorem allowed_trivial (s : σ) (es : List ε) : Allowed step (fun _ _ => True) s es := by
  induction es generalizing s with
  | nil => trivial
  | cons e es ih =>
    refine ⟨trivial, ?_⟩
    cases step s e with
    | none => trivial
    | some o => exact ih o.2

theorem run_append (es es' : List ε) (s : σ) : run step s (es ++ es') =
    (run step s es).bind fun o => (run step o.2 es').map (fun o' => (o.1 ++ o'.1, o'.2)) := by
  induction es generalizing s with
  | nil => simp
  | cons e es ih =>
    cases h : step s e with
    | none => simp [run, h]
    | some o =>
      obtain ⟨r, s'⟩ := o
      rw [List.cons_append, run_cons h, run_cons h, ih]
      cases run step s' es with
      | none => rfl
      | some o => cases h' : run step o.2 es' <;> simp [h']

/-- A history variable changes no run. -/
theorem run_annotate {γ : Type} (next : γ → σ → ε → ρ → γ) (g : γ)
    (h : run step s es = some (rs, s')) :
    ∃ g', run (annotate step next) (s, g) es = some (rs, (s', g')) := by
  induction es generalizing s g rs with
  | nil =>
    obtain ⟨rfl, rfl⟩ := Prod.mk.inj (Option.some.inj h)
    exact ⟨g, rfl⟩
  | cons e es ih =>
    cases he : step s e with
    | none => simp [run, he] at h
    | some o =>
      obtain ⟨r, s₁⟩ := o
      rw [run_cons he, Option.map_eq_some_iff] at h
      obtain ⟨⟨rs₁, s₂⟩, hrest, ho⟩ := h
      obtain ⟨rfl, rfl⟩ := Prod.mk.inj ho
      obtain ⟨g', hg⟩ := ih (next g s e r) hrest
      have hstep : annotate step next (s, g) e = some (r, (s₁, next g s e r)) := by
        simp only [annotate, he, Option.map_some]
      refine ⟨g', ?_⟩
      rw [run_cons hstep, hg]
      rfl

theorem of_annotate {γ : Type} {next : γ → σ → ε → ρ → γ} {g : γ} {x : σ × γ}
    (h : annotate step next (s, g) e = some (r, x)) : step s e = some (r, x.1) ∧ x.2 = next g s e r := by
  obtain ⟨⟨r', s'⟩, hstep, ho⟩ := Option.map_eq_some_iff.mp h
  obtain ⟨rfl, rfl⟩ := Prod.mk.inj ho
  exact ⟨hstep, rfl⟩

theorem Allowed.annotate {γ : Type} (next : γ → σ → ε → ρ → γ) (g : γ) (ha : Allowed step ok s es) :
    Allowed (annotate step next) (fun x e => ok x.1 e) (s, g) es := by
  induction es generalizing s g with
  | nil => trivial
  | cons e es ih =>
    refine ⟨ha.1, ?_⟩
    have hrest := ha.2
    unfold Lib.annotate
    cases hstep : step s e with
    | none => trivial
    | some o =>
      rw [hstep] at hrest
      exact ih _ hrest

/-- A first result comes from a first event. -/
theorem run_uncons (h : run step s es = some (r :: rs, s')) :
    ∃ e es' s₁, es = e :: es' ∧ step s e = some (r, s₁) ∧ run step s₁ es' = some (rs, s') := by
  cases es with
  | nil => cases h
  | cons e es =>
    cases he : step s e with
    | none => simp [run, he] at h
    | some o =>
      obtain ⟨r₀, s₀⟩ := o
      rw [run_cons he, Option.map_eq_some_iff] at h
      obtain ⟨⟨rest, s₁⟩, hrest, ho⟩ := h
      obtain ⟨hlist, rfl⟩ := Prod.mk.inj ho
      obtain ⟨rfl, rfl⟩ := List.cons.inj hlist
      exact ⟨e, es, s₀, rfl, he, hrest⟩

/-- Every result comes from an event, in the state that the results before it lead to. -/
theorem run_split {rs₁ rs₂ : List ρ} (h : run step s es = some (rs₁ ++ r :: rs₂, s')) :
    ∃ es₁ e es₂ s₁ s₂, es = es₁ ++ e :: es₂ ∧ run step s es₁ = some (rs₁, s₁) ∧
      step s₁ e = some (r, s₂) ∧ run step s₂ es₂ = some (rs₂, s') := by
  induction rs₁ generalizing s es with
  | nil =>
    obtain ⟨e, es', s₁, rfl, he, hrest⟩ := run_uncons h
    exact ⟨[], e, es', s, s₁, rfl, rfl, he, hrest⟩
  | cons r₁ rs₁ ih =>
    obtain ⟨e₁, es', s₀, rfl, he₁, hrest⟩ := run_uncons h
    obtain ⟨es₁, e, es₂, s₁, s₂, rfl, h₁, h₂, h₃⟩ := ih hrest
    refine ⟨e₁ :: es₁, e, es₂, s₁, s₂, rfl, ?_, h₂, h₃⟩
    rw [run_cons he₁, h₁]
    rfl

theorem Allowed.mono {ok' : σ → ε → Prop} (ha : Allowed step ok s es)
    (h : ∀ s e, ok s e → ok' s e) : Allowed step ok' s es := by
  induction es generalizing s with
  | nil => trivial
  | cons e es ih =>
    refine ⟨h s e ha.1, ?_⟩
    have hrest := ha.2
    cases hstep : step s e with
    | none => trivial
    | some o =>
      rw [hstep] at hrest
      exact ih hrest

theorem Allowed.conj {ok' : σ → ε → Prop} (ha : Allowed step ok s es)
    (hb : Allowed step ok' s es) : Allowed step (fun s e => ok s e ∧ ok' s e) s es := by
  induction es generalizing s with
  | nil => trivial
  | cons e es ih =>
    refine ⟨⟨ha.1, hb.1⟩, ?_⟩
    have hrest := ha.2
    have hrest' := hb.2
    cases h : step s e with
    | none => trivial
    | some o =>
      rw [h] at hrest hrest'
      exact ih hrest hrest'

theorem allowed_of_forall (h : ∀ e ∈ es, ∀ s, ok s e) : Allowed step ok s es := by
  induction es generalizing s with
  | nil => trivial
  | cons e es ih =>
    obtain ⟨he, hes⟩ := List.forall_mem_cons.mp h
    refine ⟨he s, ?_⟩
    cases step s e with
    | none => trivial
    | some o => exact ih hes

theorem Allowed.and {q : ε → Prop} (ha : Allowed step ok s es) (hq : ∀ e ∈ es, q e) :
    Allowed step (fun s e => q e ∧ ok s e) s es := by
  have hes : Allowed step (fun _ e => q e) s es := allowed_of_forall fun e he _ => hq e he
  exact hes.conj ha

theorem Allowed.append (ha : Allowed step ok s es) (hr : run step s es = some (rs, s'))
    (ha' : Allowed step ok s' es') : Allowed step ok s (es ++ es') := by
  induction es generalizing s rs with
  | nil =>
    obtain ⟨-, rfl⟩ := Prod.mk.inj (Option.some.inj hr)
    exact ha'
  | cons e es ih =>
    refine ⟨ha.1, ?_⟩
    have hrest := ha.2
    cases h : step s e with
    | none => trivial
    | some o =>
      rw [h] at hrest
      obtain ⟨r, s₁⟩ := o
      rw [run_cons h, Option.map_eq_some_iff] at hr
      obtain ⟨⟨rs₁, s₂⟩, h₁, ho⟩ := hr
      obtain ⟨-, rfl⟩ := Prod.mk.inj ho
      exact ih hrest h₁

theorem Allowed.of_append (ha : Allowed step ok s (es ++ es')) : Allowed step ok s es := by
  induction es generalizing s with
  | nil => trivial
  | cons e es ih =>
    refine ⟨ha.1, ?_⟩
    have hrest := ha.2
    cases h : step s e with
    | none => trivial
    | some o =>
      rw [h] at hrest
      exact ih hrest

/-- An event of an allowed run meets `ok` in the state that the run reaches before it. -/
theorem Allowed.at_event (ha : Allowed step ok s (es ++ e :: es'))
    (hr : run step s es = some (rs, s')) : ok s' e := by
  induction es generalizing s rs with
  | nil =>
    simp only [run_nil, Option.some.injEq, Prod.mk.injEq] at hr
    exact hr.2 ▸ ha.1
  | cons e' es ih =>
    cases h : step s e' with
    | none => simp [run, h] at hr
    | some o =>
      obtain ⟨r, s₁⟩ := o
      rw [run_cons h, Option.map_eq_some_iff] at hr
      obtain ⟨⟨rs₁, s₂⟩, h₁, ho⟩ := hr
      obtain ⟨-, rfl⟩ := Prod.mk.inj ho
      exact ih ((allowed_cons h).mp ha).2 h₁

/-- A progress rule: where allowed steps never fault and keep `I`, allowed runs do not fault
and end in `I`. -/
theorem run_invariant {I : σ → Prop}
    (hstep : ∀ s e, I s → ok s e → ∃ r s', step s e = some (r, s') ∧ I s')
    (hs : I s) (ha : Allowed step ok s es) : ∃ rs s', run step s es = some (rs, s') ∧ I s' := by
  induction es generalizing s with
  | nil => exact ⟨[], s, rfl, hs⟩
  | cons e es ih =>
    obtain ⟨r, s₁, h₁, hI⟩ := hstep s e hs ha.1
    obtain ⟨rs, s₂, h₂, hI₂⟩ := ih hI ((allowed_cons h₁).mp ha).2
    exact ⟨r :: rs, s₂, by rw [run_cons h₁, h₂]; rfl, hI₂⟩

/-- A history rule: what every allowed step keeps of the results so far and the state holds at the
end of every allowed run. -/
theorem run_history {I : List ρ → σ → Prop}
    (hstep : ∀ rs s e r s', I rs s → ok s e → step s e = some (r, s') → I (rs ++ [r]) s')
    {rs₀ : List ρ} (hs : I rs₀ s) (ha : Allowed step ok s es)
    (hr : run step s es = some (rs, s')) : I (rs₀ ++ rs) s' := by
  induction es generalizing s rs₀ rs with
  | nil =>
    obtain ⟨rfl, rfl⟩ := Prod.mk.inj (Option.some.inj hr)
    simpa using hs
  | cons e es ih =>
    cases h : step s e with
    | none => simp [run, h] at hr
    | some o =>
      obtain ⟨r, s₁⟩ := o
      rw [run_cons h, Option.map_eq_some_iff] at hr
      obtain ⟨⟨rs₁, s₂⟩, h₁, ho⟩ := hr
      obtain ⟨rfl, rfl⟩ := Prod.mk.inj ho
      have hI := ih (hstep rs₀ s e r s₁ hs ha.1 h) ((allowed_cons h).mp ha).2 h₁
      simpa using hI

/-- A progress rule for what is kept of the results so far and the state. -/
theorem run_progress {I : List ρ → σ → Prop}
    (hstep : ∀ rs s e, I rs s → ok s e → ∃ r s', step s e = some (r, s') ∧ I (rs ++ [r]) s')
    {rs₀ : List ρ} (hs : I rs₀ s) (ha : Allowed step ok s es) :
    ∃ rs s', run step s es = some (rs, s') ∧ I (rs₀ ++ rs) s' := by
  induction es generalizing s rs₀ with
  | nil => exact ⟨[], s, rfl, by rwa [List.append_nil]⟩
  | cons e es ih =>
    obtain ⟨r, s₁, h₁, hI⟩ := hstep rs₀ s e hs ha.1
    obtain ⟨rs, s₂, h₂, hI₂⟩ := ih hI ((allowed_cons h₁).mp ha).2
    exact ⟨r :: rs, s₂, by rw [run_cons h₁, h₂]; rfl, by rwa [List.append_cons]⟩

/-- An invariant rule for runs that do not fault. -/
theorem run_kept {I : σ → Prop}
    (hstep : ∀ s e r s', I s → ok s e → step s e = some (r, s') → I s')
    (hs : I s) (ha : Allowed step ok s es) (hr : run step s es = some (rs, s')) : I s' :=
  @run_history _ _ _ _ _ _ _ _ _ (fun _ s => I s) (fun _ s e r s' => hstep s e r s')
    [] hs ha hr

/-- An exactness rule: where allowed steps keep `I`, which gives `P`, and every other step breaks `P`,
all states of a run satisfy `P` if and only if the run is allowed. -/
theorem forall_prefix_iff_allowed {I P : σ → Prop} {q : σ → ε → Prop} (hI : ∀ s, I s → P s)
    (hgood : ∀ s e r s', I s → q s e → ok s e → step s e = some (r, s') → I s')
    (hbad : ∀ s e, I s → q s e → ¬ ok s e → ∃ r s', step s e = some (r, s') ∧ ¬ P s')
    (hs : I s) (ha : Allowed step q s es) :
    (∀ es₁, es₁ <+: es → ∀ rs s', run step s es₁ = some (rs, s') → P s') ↔
      Allowed step ok s es := by
  have hnil : ∀ s, I s → ∀ rs s', run step s [] = some (rs, s') → P s' := fun s hs rs s' h => by
    rw [run_nil, Option.some.injEq, Prod.mk.injEq] at h
    exact h.2 ▸ hI s hs
  induction es generalizing s with
  | nil =>
    refine iff_of_true (fun es₁ h => ?_) trivial
    rw [List.prefix_nil.mp h]
    exact hnil s hs
  | cons e es ih =>
    by_cases hok : ok s e
    · cases hstep : step s e with
      | none =>
        refine iff_of_true (fun es₁ h => ?_) ⟨hok, by rw [hstep]; trivial⟩
        rcases List.prefix_cons_iff.mp h with rfl | ⟨es₂, rfl, -⟩
        · exact hnil s hs
        · intro rs s' hr
          simp [run, hstep] at hr
      | some o =>
        obtain ⟨r, s₁⟩ := o
        have hI₁ := hgood s e r s₁ hs ha.1 hok hstep
        rw [allowed_cons hstep, and_iff_right hok]
        refine Iff.trans ?_ (ih hI₁ ((allowed_cons hstep).mp ha).2)
        constructor
        · intro h es₁ hes₁ rs s' hr
          apply h (e :: es₁) ((List.prefix_cons_inj e).mpr hes₁) (r :: rs) s'
          rw [run_cons hstep, hr]
          rfl
        · intro h es₁ hes₁
          rcases List.prefix_cons_iff.mp hes₁ with rfl | ⟨es₂, rfl, hes₂⟩
          · exact hnil s hs
          · intro rs s' hr
            rw [run_cons hstep] at hr
            obtain ⟨⟨rs', s₂⟩, hrest, ho⟩ := Option.map_eq_some_iff.mp hr
            obtain ⟨-, rfl⟩ := Prod.mk.inj ho
            exact h es₂ hes₂ rs' s₂ hrest
    · refine iff_of_false (fun h => ?_) fun h => hok h.1
      obtain ⟨r, s₁, hstep, hP⟩ := hbad s e hs ha.1 hok
      refine hP (h [e] ⟨es, rfl⟩ [r] s₁ ?_)
      rw [run_cons hstep]
      rfl

/-- A rule for two machines: where related states take the same allowed event to related states and
related results, whole runs do. -/
theorem run_related {ρ' : Type} {step' : τ → ε → Option (ρ' × τ)} {R : σ → τ → Prop}
    {Q : ρ → ρ' → Prop} (hstep : ∀ s t e, R s t → ok s e → ∃ r s' r' t',
      step s e = some (r, s') ∧ step' t e = some (r', t') ∧ R s' t' ∧ Q r r')
    {t : τ} (hs : R s t) (ha : Allowed step ok s es) : ∃ rs s' rs' t', run step s es = some (rs, s') ∧
      run step' t es = some (rs', t') ∧ R s' t' ∧ List.Forall₂ Q rs rs' := by
  induction es generalizing s t with
  | nil => exact ⟨[], s, [], t, rfl, rfl, hs, .nil⟩
  | cons e es ih =>
    obtain ⟨r, s₁, r', t₁, h₁, h₁', hR, hQ⟩ := hstep s t e hs ha.1
    obtain ⟨rs, s₂, rs', t₂, h₂, h₂', hR₂, hQ₂⟩ := ih hR ((allowed_cons h₁).mp ha).2
    exact ⟨r :: rs, s₂, r' :: rs', t₂, by rw [run_cons h₁, h₂]; rfl,
      by rw [run_cons h₁', h₂']; rfl, hR₂, .cons hQ hQ₂⟩

/-- A simulation rule: related machines that take the same allowed event return the same result
and stay related, so they agree on whole runs. -/
theorem run_simulates {R : σ → τ → Prop}
    (hstep : ∀ s t e, R s t → ok s e →
      ∃ r s' t', step s e = some (r, s') ∧ step' t e = some (r, t') ∧ R s' t')
    {t : τ} (hs : R s t) (ha : Allowed step ok s es) :
    ∃ rs s' t', run step s es = some (rs, s') ∧ run step' t es = some (rs, t') ∧ R s' t' := by
  have hsame : ∀ s t e, R s t → ok s e → ∃ r s' r' t',
      step s e = some (r, s') ∧ step' t e = some (r', t') ∧ R s' t' ∧ r = r' := by
    intro s t e hst ho
    obtain ⟨r, s', t', h, h', hR⟩ := hstep s t e hst ho
    exact ⟨r, s', r, t', h, h', hR, rfl⟩
  obtain ⟨rs, s', rs', t', h, h', hR, hQ⟩ := run_related hsame hs ha
  rw [List.forall₂_eq_eq_eq] at hQ
  exact ⟨rs, s', t', h, hQ ▸ h', hR⟩

/-- A simulation rule with faults: related machines that take the same allowed event fault together,
or return the same result and stay related. -/
theorem run_agrees {R : σ → τ → Prop} {ok' : τ → ε → Prop}
    (hstep : ∀ s t e, R s t → ok' t e → step s e = none ∧ step' t e = none ∨
      ∃ r s' t', step s e = some (r, s') ∧ step' t e = some (r, t') ∧ R s' t')
    {t : τ} (hs : R s t) (ha : Allowed step' ok' t es) :
    run step s es = none ∧ run step' t es = none ∨
      ∃ rs s' t', run step s es = some (rs, s') ∧ run step' t es = some (rs, t') ∧ R s' t' := by
  induction es generalizing s t with
  | nil => exact Or.inr ⟨[], s, t, rfl, rfl, hs⟩
  | cons e es ih =>
    rcases hstep s t e hs ha.1 with ⟨h, h'⟩ | ⟨r, s₁, t₁, h, h', hR⟩
    · exact Or.inl ⟨by simp [run, h], by simp [run, h']⟩
    · rcases ih hR ((allowed_cons h').mp ha).2 with ⟨h₁, h₁'⟩ | ⟨rs, s₂, t₂, h₁, h₁', hR₂⟩
      · exact Or.inl ⟨by rw [run_cons h, h₁]; rfl, by rw [run_cons h', h₁']; rfl⟩
      · exact Or.inr ⟨r :: rs, s₂, t₂, by rw [run_cons h, h₁]; rfl, by rw [run_cons h', h₁']; rfl, hR₂⟩

/-- A refinement rule: where every allowed step has the effect `f` on what the state stands for,
a run has all the effects one after the other. -/
theorem run_foldl {R : σ → τ → Prop} {f : τ → ε → τ}
    (hstep : ∀ s t e, R s t → ok s e → ∃ r s', step s e = some (r, s') ∧ R s' (f t e))
    {t : τ} (hs : R s t) (ha : Allowed step ok s es) :
    ∃ rs s', run step s es = some (rs, s') ∧ R s' (es.foldl f t) := by
  induction es generalizing s t with
  | nil => exact ⟨[], s, rfl, hs⟩
  | cons e es ih =>
    obtain ⟨r, s₁, h₁, hR⟩ := hstep s t e hs ha.1
    obtain ⟨rs, s₂, h₂, hR₂⟩ := ih hR ((allowed_cons h₁).mp ha).2
    exact ⟨r :: rs, s₂, by rw [run_cons h₁, h₂]; rfl, hR₂⟩

end Runs

/-- A fold that may fault follows one that does not, where every round does. -/
theorem foldlM_follows {R : σ → τ → Prop} {f : σ → ε → Option σ} {g : τ → ε → τ}
    (hstep : ∀ s t e, R s t → ∃ s', f s e = some s' ∧ R s' (g t e)) (es : List ε) {s : σ} {t : τ}
    (hs : R s t) : ∃ s', es.foldlM f s = some s' ∧ R s' (es.foldl g t) := by
  induction es generalizing s t with
  | nil => exact ⟨s, rfl, hs⟩
  | cons e es ih =>
    obtain ⟨s₁, h₁, hR⟩ := hstep s t e hs
    obtain ⟨s₂, h₂, hR₂⟩ := ih hR
    exact ⟨s₂, by rw [List.foldlM_cons, h₁]; exact h₂, hR₂⟩

/-- The states that steps satisfying `ok` reach from `s`. -/
abbrev Reaches (step : σ → ε → Option (ρ × σ)) (ok : σ → ε → Prop) : σ → σ → Prop :=
  Relation.ReflTransGen fun s s' => ∃ e r, ok s e ∧ step s e = some (r, s')

/-- A property of the start that every such step keeps holds in every state reached. -/
theorem Reaches.invariant {step : σ → ε → Option (ρ × σ)} {ok : σ → ε → Prop} {I : σ → Prop}
    (hstep : ∀ s e r s', I s → ok s e → step s e = some (r, s') → I s')
    {s s' : σ} (hs : I s) (h : Reaches step ok s s') : I s' := by
  induction h with
  | refl => exact hs
  | tail _ h ih =>
    obtain ⟨e, r, ho, he⟩ := h
    exact hstep _ e r _ ih ho he

end DCache.Lib
