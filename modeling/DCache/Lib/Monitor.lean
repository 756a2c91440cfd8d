import DCache.Lib.Run

/-! An object under one mutex with one condition variable. A call takes the mutex and works on the
object in moves. A thread that sleeps on the condition variable has given the mutex back, and has to
take it again once it is woken. -/
namespace DCache.Lib

/-- What the owner of the mutex does next. The call ends with `leave`, and shows its effect. -/
inductive Move (π σ ε : Type)
  | work (next : π) (obj : σ)
  | broadcast (next : π)
  | sleep
  | leave (effect : Option ε)

/-- The code of the calls, from point to point. `none` is a fault. After a wait, which may have
failed, a thread goes on at the point `wake`. -/
structure Monitor (π σ ε : Type) where
  move : π → σ → Option (Move π σ ε)
  wake : π → Bool → π

/-- Where a thread is: in no call, before the mutex, in its section, or in a wait. -/
inductive Place (π : Type)
  | out
  | entering (p : π)
  | inside (p : π)
  | asleep (p : π)

structure Monitored (ι π σ : Type) where
  obj : σ
  owner : Option ι
  place : ι → Place π

/-- `wake` also stands for a wait that ends without a signal, by a failure or a timeout. -/
inductive MonitorEvent (ι π : Type)
  | call (i : ι) (p : π)
  | lock (i : ι)
  | move (i : ι)
  | wake (i : ι) (ok : Bool)

variable {ι π σ ε : Type}

/-- What a broadcast makes of a thread. -/
def Place.wake (M : Monitor π σ ε) : Place π → Place π
  | .asleep p => .entering (M.wake p true)
  | place => place

namespace Monitored

/-- The point in the section, if a thread is in it. -/
def holding (s : Monitored ι π σ) : Option π :=
  s.owner.bind fun i =>
    match s.place i with
    | .inside p => some p
    | _ => none

section Step
variable [DecidableEq ι] (M : Monitor π σ ε)

def goes (s : Monitored ι π σ) (i : ι) (place : Place π) : Monitored ι π σ :=
  { s with place := Function.update s.place i place }

/-- The owner `i` does a move, and shows the effect of a call that ends. -/
def perform (s : Monitored ι π σ) (i : ι) (p : π) :
    Move π σ ε → Option (ι × ε) × Monitored ι π σ
  | .work next obj => (none, { s.goes i (.inside next) with obj := obj })
  | .broadcast next =>
    (none, { s with place := Function.update (fun j => (s.place j).wake M) i (.inside next) })
  | .sleep => (none, { s.goes i (.asleep p) with owner := none })
  | .leave effect => (effect.map fun e => (i, e), { s.goes i .out with owner := none })

/-- An event of a thread that is not at that place, or that has to wait for the mutex, changes
nothing. -/
def step (s : Monitored ι π σ) : MonitorEvent ι π → Option (Option (ι × ε) × Monitored ι π σ)
  | .call i p =>
    match s.place i with
    | .out => some (none, s.goes i (.entering p))
    | _ => some (none, s)
  | .lock i =>
    match s.place i, s.owner with
    | .entering p, none => some (none, { s.goes i (.inside p) with owner := some i })
    | _, _ => some (none, s)
  | .move i =>
    match s.place i with
    | .inside p => (M.move p s.obj).map (s.perform M i p)
    | _ => some (none, s)
  | .wake i ok =>
    match s.place i with
    | .asleep p => some (none, s.goes i (.entering (M.wake p ok)))
    | _ => some (none, s)

/-- All that a step can do. -/
theorem step_cases {M : Monitor π σ ε} {s s' : Monitored ι π σ} {e : MonitorEvent ι π}
    {r : Option (ι × ε)} (h : s.step M e = some (r, s')) : s' = s ∨
      (∃ i p, (s.place i = .out ∨ ∃ q, s.place i = .asleep q) ∧ s' = s.goes i (.entering p)) ∨
      (∃ i p, s.place i = .entering p ∧ s.owner = none ∧
        s' = { s.goes i (.inside p) with owner := some i }) ∨
      ∃ i p m, s.place i = .inside p ∧ M.move p s.obj = some m ∧ s' = (s.perform M i p m).2 := by
  cases e with
  | call i p =>
    cases hi : s.place i with
    | out =>
      simp only [step, hi, Option.some.injEq, Prod.mk.injEq] at h
      exact Or.inr (Or.inl ⟨i, p, Or.inl hi, h.2.symm⟩)
    | _ =>
      simp only [step, hi, Option.some.injEq, Prod.mk.injEq] at h
      exact Or.inl h.2.symm
  | lock i =>
    cases hi : s.place i with
    | entering p =>
      cases ho : s.owner with
      | none =>
        simp only [step, hi, ho, Option.some.injEq, Prod.mk.injEq] at h
        exact Or.inr (Or.inr (Or.inl ⟨i, p, hi, rfl, h.2.symm⟩))
      | some j =>
        simp only [step, hi, ho, Option.some.injEq, Prod.mk.injEq] at h
        exact Or.inl h.2.symm
    | _ =>
      simp only [step, hi, Option.some.injEq, Prod.mk.injEq] at h
      exact Or.inl h.2.symm
  | move i =>
    cases hi : s.place i with
    | inside p =>
      simp only [step, hi, Option.map_eq_some_iff] at h
      obtain ⟨m, hm, hs'⟩ := h
      exact Or.inr (Or.inr (Or.inr ⟨i, p, m, hi, hm, (congrArg Prod.snd hs').symm⟩))
    | _ =>
      simp only [step, hi, Option.some.injEq, Prod.mk.injEq] at h
      exact Or.inl h.2.symm
  | wake i ok =>
    cases hi : s.place i with
    | asleep p =>
      simp only [step, hi, Option.some.injEq, Prod.mk.injEq] at h
      exact Or.inr (Or.inl ⟨i, M.wake p ok, Or.inr ⟨p, hi⟩, h.2.symm⟩)
    | _ =>
      simp only [step, hi, Option.some.injEq, Prod.mk.injEq] at h
      exact Or.inl h.2.symm

end Step
section Place
variable {s : Monitored ι π σ} {i : ι} {p : π}

/-- The owner of the mutex is the one thread that is in its section. -/
def Exclusive (s : Monitored ι π σ) : Prop := ∀ i, s.owner = some i ↔ ∃ p, s.place i = .inside p

theorem Exclusive.holding (h : Exclusive s) (hi : s.place i = .inside p) : s.holding = some p := by
  rw [Monitored.holding, (h i).mpr ⟨p, hi⟩, Option.bind_some, hi]

theorem Exclusive.unique (h : Exclusive s) {j : ι} {q : π} (hi : s.place i = .inside p)
    (hj : s.place j = .inside q) : i = j := by
  have howner := (h i).mpr ⟨p, hi⟩
  rw [(h j).mpr ⟨q, hj⟩] at howner
  exact (Option.some.inj howner).symm

theorem holding_of_owner (h : s.owner = none) : s.holding = none := by
  rw [Monitored.holding, h]
  rfl

end Place
end Monitored

section Rules
variable {M : Monitor π σ ε} {Entry : π → Prop} {I : Option π → σ → List ε → Prop}

/-- What holds after a move from `p`: `I none` while nobody is in a section, and `I (some p)` while a
thread is at `p` of its section. The last argument of `I` is what was shown so far. -/
def Monitor.After (M : Monitor π σ ε) (Entry : π → Prop) (I : Option π → σ → List ε → Prop) (p : π)
    (s : σ) (h : List ε) : Move π σ ε → Prop
  | .work next s' => I (some next) s' h
  | .broadcast next => I (some next) s h
  | .sleep => I none s h ∧ ∀ ok, Entry (M.wake p ok)
  | .leave e => I none s (h ++ e.toList)

/-- The moves do not fault, and keep `I`. -/
structure Monitor.Keeps (M : Monitor π σ ε) (Entry : π → Prop) (I : Option π → σ → List ε → Prop) :
    Prop where
  lock : ∀ {p s h}, I none s h → Entry p → I (some p) s h
  move : ∀ {p s h}, I (some p) s h → ∃ m, M.move p s = some m ∧ M.After Entry I p s h m

/-- The effects of a run, in the order of the sections. -/
def effects (rs : List (Option (ι × ε))) : List ε := (rs.filterMap id).map Prod.snd

/-- The invariant of the runs. -/
structure Monitor.Sound (M : Monitor π σ ε) (Entry : π → Prop) (I : Option π → σ → List ε → Prop)
    (rs : List (Option (ι × ε))) (s : Monitored ι π σ) : Prop where
  exclusive : s.Exclusive
  entering : ∀ i p, s.place i = .entering p → Entry p
  asleep : ∀ i p ok, s.place i = .asleep p → Entry (M.wake p ok)
  obj : I s.holding s.obj (effects rs)

/-- The calls start at points where a thread may enter. -/
def Monitored.Calls (Entry : π → Prop) (_ : Monitored ι π σ) : MonitorEvent ι π → Prop
  | .call _ p => Entry p
  | _ => True

theorem effects_append_none (rs : List (Option (ι × ε))) : effects (rs ++ [none]) = effects rs := by
  simp [effects]

theorem effects_append (rs : List (Option (ι × ε))) (i : ι) (e : Option ε) :
    effects (rs ++ [e.map fun e => (i, e)]) = effects rs ++ e.toList := by
  cases e <;> simp [effects]

/-- The threads other than `i` stay where they are, or wake up. -/
def Monitored.Others (M : Monitor π σ ε) (i : ι) (s s' : Monitored ι π σ) : Prop :=
  ∀ j, j ≠ i → s'.place j = s.place j ∨ s'.place j = (s.place j).wake M

namespace Monitor.Sound
variable {rs rs' : List (Option (ι × ε))} {s s' : Monitored ι π σ} {i : ι}

theorem others (h : M.Sound Entry I rs s) (ho : s.Others M i s')
    (hnone : ∀ j, j ≠ i → ∀ q, s.place j ≠ .inside q) {j : ι} (hj : j ≠ i) :
    (∀ q, s'.place j ≠ .inside q) ∧ (∀ q, s'.place j = .entering q → Entry q) ∧
      ∀ q ok, s'.place j = .asleep q → Entry (M.wake q ok) := by
  rcases ho j hj with he | he
  · rw [he]
    exact ⟨hnone j hj, h.entering j, h.asleep j⟩
  · rw [he]
    cases hp : s.place j with
    | out => exact ⟨nofun, nofun, nofun⟩
    | entering p =>
      refine ⟨nofun, ?_, nofun⟩
      rintro _ ⟨⟩
      exact h.entering j p hp
    | inside p => exact absurd hp (hnone j hj p)
    | asleep p =>
      refine ⟨nofun, ?_, nofun⟩
      rintro _ ⟨⟩
      exact h.asleep j p true hp

/-- The thread `i` is in its section now. -/
theorem of_inside (h : M.Sound Entry I rs s) (ho : s.Others M i s')
    (hnone : ∀ j, j ≠ i → ∀ q, s.place j ≠ .inside q) {q : π} (hi : s'.place i = .inside q)
    (howner : s'.owner = some i) (hobj : I (some q) s'.obj (effects rs')) :
    M.Sound Entry I rs' s' := by
  have hex : s'.Exclusive := by
    intro j
    rw [howner]
    constructor
    · rintro ⟨⟩
      exact ⟨q, hi⟩
    · rintro ⟨p, hp⟩
      by_contra hj
      exact (h.others ho hnone fun he => hj (congrArg some he.symm)).1 p hp
  refine ⟨hex, ?_, ?_, ?_⟩
  · intro j p hp
    by_cases hj : j = i
    · rw [hj, hi] at hp
      cases hp
    · exact (h.others ho hnone hj).2.1 p hp
  · intro j p ok hp
    by_cases hj : j = i
    · rw [hj, hi] at hp
      cases hp
    · exact (h.others ho hnone hj).2.2 p ok hp
  · rw [hex.holding hi]
    exact hobj

/-- The thread `i` has given the mutex back. -/
theorem of_outside (h : M.Sound Entry I rs s) (ho : s.Others M i s')
    (hnone : ∀ j, j ≠ i → ∀ q, s.place j ≠ .inside q)
    (hi : s'.place i = .out ∨ ∃ q, s'.place i = .asleep q ∧ ∀ ok, Entry (M.wake q ok))
    (howner : s'.owner = none) (hobj : I none s'.obj (effects rs')) : M.Sound Entry I rs' s' := by
  have hout : ∀ q, s'.place i ≠ .inside q ∧ s'.place i ≠ .entering q := by
    intro q
    rcases hi with hi | ⟨p, hi, -⟩ <;> rw [hi] <;> exact ⟨nofun, nofun⟩
  refine ⟨?_, ?_, ?_, ?_⟩
  · intro j
    rw [howner]
    refine iff_of_false nofun ?_
    rintro ⟨p, hp⟩
    by_cases hj : j = i
    · exact (hout p).1 (hj ▸ hp)
    · exact (h.others ho hnone hj).1 p hp
  · intro j p hp
    by_cases hj : j = i
    · exact absurd (hj ▸ hp) (hout p).2
    · exact (h.others ho hnone hj).2.1 p hp
  · intro j p ok hp
    by_cases hj : j = i
    · rcases hi with hi | ⟨q, hi, hentry⟩
      · rw [hj, hi] at hp
        cases hp
      · rw [hj, hi] at hp
        obtain rfl := Place.asleep.inj hp
        exact hentry ok
    · exact (h.others ho hnone hj).2.2 p ok hp
  · rw [Monitored.holding_of_owner howner]
    exact hobj

end Monitor.Sound

namespace Monitor.Keeps
variable [DecidableEq ι] {rs : List (Option (ι × ε))} {s : Monitored ι π σ} {i : ι} {p : π}

/-- A thread outside its section comes to another place outside. -/
theorem goes (h : M.Sound Entry I rs s) {place : Place π} (hi : ∀ p, s.place i ≠ .inside p)
    (hplace : ∀ p, place ≠ .inside p) (hentering : ∀ p, place = .entering p → Entry p)
    (hasleep : ∀ p, place ≠ .asleep p) : M.Sound Entry I (rs ++ [none]) (s.goes i place) := by
  have hne : ∀ j p, s.place j = .inside p → j ≠ i := by
    rintro j p hj rfl
    exact hi p hj
  have hiff : ∀ j p, (s.goes i place).place j = .inside p ↔ s.place j = .inside p := by
    intro j p
    by_cases hj : j = i
    · subst hj
      simp [Monitored.goes, hplace, hi]
    · simp [Monitored.goes, hj]
  have hex : (s.goes i place).Exclusive := by
    intro j
    simp only [hiff]
    exact h.exclusive j
  refine ⟨hex, ?_, ?_, ?_⟩
  · intro j q hj
    by_cases hji : j = i
    · subst hji
      exact hentering q (by simpa [Monitored.goes] using hj)
    · exact h.entering j q (by simpa [Monitored.goes, hji] using hj)
  · intro j q ok hj
    by_cases hji : j = i
    · subst hji
      exact absurd (by simpa [Monitored.goes] using hj) (hasleep q)
    · exact h.asleep j q ok (by simpa [Monitored.goes, hji] using hj)
  · rw [effects_append_none]
    have hobj := h.obj
    cases howner : s.owner with
    | none =>
      rw [Monitored.holding_of_owner howner] at hobj
      rw [Monitored.holding_of_owner (s := s.goes i place) howner]
      exact hobj
    | some j =>
      obtain ⟨q, hq⟩ := (h.exclusive j).mp howner
      rw [h.exclusive.holding hq] at hobj
      rw [hex.holding ((hiff j q).mpr hq)]
      exact hobj

theorem lock_step (hM : M.Keeps Entry I) (h : M.Sound Entry I rs s) (hi : s.place i = .entering p)
    (howner : s.owner = none) :
    M.Sound Entry I (rs ++ [none]) { s.goes i (.inside p) with owner := some i } := by
  have hobj := h.obj
  rw [Monitored.holding_of_owner howner] at hobj
  refine h.of_inside (fun j hj => Or.inl (Function.update_of_ne hj _ _)) ?_
    (Function.update_self _ _ _) rfl ?_
  · intro j _ q hq
    have hj := (h.exclusive j).mpr ⟨q, hq⟩
    rw [howner] at hj
    cases hj
  · rw [effects_append_none]
    exact hM.lock hobj (h.entering i p hi)

theorem perform_step (hM : M.Keeps Entry I) (h : M.Sound Entry I rs s) (hi : s.place i = .inside p)
    {m : Move π σ ε} (hm : M.move p s.obj = some m) :
    M.Sound Entry I (rs ++ [(s.perform M i p m).1]) (s.perform M i p m).2 := by
  have howner := (h.exclusive i).mpr ⟨p, hi⟩
  have hobj := h.obj
  rw [h.exclusive.holding hi] at hobj
  have hnone : ∀ j, j ≠ i → ∀ q, s.place j ≠ .inside q :=
    fun j hj q hq => hj (h.exclusive.unique hq hi)
  have hkept : ∀ place, s.Others M i (s.goes i place) :=
    fun _ j hj => Or.inl (Function.update_of_ne hj _ _)
  have hafter : M.After Entry I p s.obj (effects rs) m := by
    obtain ⟨m', hm', hafter⟩ := hM.move hobj
    obtain rfl := Option.some.inj (hm'.symm.trans hm)
    exact hafter
  cases m with
  | work next obj =>
    refine h.of_inside (hkept _) hnone (Function.update_self _ _ _) howner ?_
    rw [Monitored.perform, effects_append_none]
    exact hafter
  | broadcast next =>
    have hwoken : s.Others M i (s.perform M i p (.broadcast next)).2 := by
      intro j hj
      right
      simp [Monitored.perform, hj]
    refine h.of_inside (q := next) hwoken hnone (by simp [Monitored.perform]) howner ?_
    rw [Monitored.perform, effects_append_none]
    exact hafter
  | sleep =>
    obtain ⟨hfree, hentry⟩ := hafter
    refine h.of_outside (hkept _) hnone (Or.inr ⟨p, Function.update_self _ _ _, hentry⟩) rfl ?_
    rw [Monitored.perform, effects_append_none]
    exact hfree
  | leave e =>
    refine h.of_outside (hkept _) hnone (Or.inl (Function.update_self _ _ _)) rfl ?_
    rw [Monitored.perform, effects_append]
    exact hafter

theorem step (hM : M.Keeps Entry I) (h : M.Sound Entry I rs s) {e : MonitorEvent ι π}
    (he : s.Calls Entry e) :
    ∃ r s', s.step M e = some (r, s') ∧ M.Sound Entry I (rs ++ [r]) s' := by
  have hsame : M.Sound Entry I (rs ++ [none]) s :=
    ⟨h.exclusive, h.entering, h.asleep, by rw [effects_append_none]; exact h.obj⟩
  cases e with
  | call i p =>
    cases hi : s.place i with
    | out =>
      refine ⟨none, s.goes i (.entering p), by simp only [Monitored.step, hi], ?_⟩
      refine goes h (by simp [hi]) (fun _ => nofun) ?_ (fun _ => nofun)
      rintro _ ⟨⟩
      exact he
    | entering q | inside q | asleep q => exact ⟨none, s, by simp [Monitored.step, hi], hsame⟩
  | lock i =>
    cases hi : s.place i with
    | entering p =>
      cases howner : s.owner with
      | none => exact ⟨none, _, by simp only [Monitored.step, hi, howner], lock_step hM h hi howner⟩
      | some j => exact ⟨none, s, by simp only [Monitored.step, hi, howner], hsame⟩
    | out | inside q | asleep q => exact ⟨none, s, by simp [Monitored.step, hi], hsame⟩
  | move i =>
    cases hi : s.place i with
    | inside p =>
      have hobj := h.obj
      rw [h.exclusive.holding hi] at hobj
      obtain ⟨m, hm, -⟩ := hM.move hobj
      exact ⟨_, _, by simp only [Monitored.step, hi, hm, Option.map_some], perform_step hM h hi hm⟩
    | out | entering q | asleep q => exact ⟨none, s, by simp [Monitored.step, hi], hsame⟩
  | wake i ok =>
    cases hi : s.place i with
    | asleep p =>
      refine ⟨none, s.goes i (.entering (M.wake p ok)), by simp only [Monitored.step, hi], ?_⟩
      refine goes h (by simp [hi]) (fun _ => nofun) ?_ (fun _ => nofun)
      rintro _ ⟨⟩
      exact h.asleep i p ok hi
    | out | entering q | inside q => exact ⟨none, s, by simp [Monitored.step, hi], hsame⟩

end Monitor.Keeps

/-- Who makes a wait pointless owes a broadcast, and pays before the section ends. -/
structure Monitor.Wakes (M : Monitor π σ ε) (ready : π → σ → Prop) (owes : π → Prop) : Prop where
  work : ∀ {p s p' s'}, M.move p s = some (.work p' s') →
    (owes p → owes p') ∧ ∀ q, ready q s' → ready q s ∨ owes p'
  sleep : ∀ {p s}, M.move p s = some .sleep → ¬ ready p s ∧ ¬ owes p
  leave : ∀ {p s e}, M.move p s = some (.leave e) → ¬ owes p

/-- A thread sleeps on only while what it waits for is missing, or a broadcast is under way. -/
def Monitored.NoneLost (ready : π → σ → Prop) (owes : π → Prop) (s : Monitored ι π σ) : Prop :=
  ∀ i q, s.place i = .asleep q → ready q s.obj → ∃ j p, s.place j = .inside p ∧ owes p

section Wakes
variable {ready : π → σ → Prop} {owes : π → Prop} {s s' : Monitored ι π σ} {i : ι} {p : π}

/-- A thread comes to a place where it does not sleep from one where it owes nothing. -/
theorem Monitored.NoneLost.update [DecidableEq ι] (h : s.NoneLost ready owes) {place : Place π}
    (hs' : s'.place = Function.update s.place i place) (hobj : s'.obj = s.obj)
    (hplace : ∀ q, place ≠ .asleep q) (hi : ∀ p, s.place i = .inside p → ¬ owes p) :
    s'.NoneLost ready owes := by
  intro j q hj hready
  rw [hs'] at hj
  rw [hobj] at hready
  have hji : j ≠ i := by
    rintro rfl
    rw [Function.update_self] at hj
    exact hplace q hj
  rw [Function.update_of_ne hji] at hj
  obtain ⟨k, p, hk, howes⟩ := h j q hj hready
  have hki : k ≠ i := by
    rintro rfl
    exact hi p hk howes
  exact ⟨k, p, by rw [hs', Function.update_of_ne hki]; exact hk, howes⟩

theorem Monitor.Wakes.perform [DecidableEq ι] (hW : M.Wakes ready owes) (hex : s.Exclusive)
    (h : s.NoneLost ready owes) (hi : s.place i = .inside p) {m : Move π σ ε}
    (hm : M.move p s.obj = some m) : (s.perform M i p m).2.NoneLost ready owes := by
  have howes : ∀ {j q}, s.place j = .asleep q → ready q s.obj → owes p := by
    intro j q hj hready
    obtain ⟨k, p', hk, hp'⟩ := h j q hj hready
    obtain rfl := hex.unique hk hi
    rw [hi] at hk
    exact Place.inside.inj hk ▸ hp'
  cases m with
  | work next obj =>
    obtain ⟨hkeep, hmore⟩ := hW.work hm
    intro j q hj hready
    have hji : j ≠ i := by
      rintro rfl
      simp [Monitored.perform, Monitored.goes] at hj
    simp only [Monitored.perform, Monitored.goes, Function.update_of_ne hji] at hj
    refine ⟨i, next, by simp [Monitored.perform, Monitored.goes], ?_⟩
    exact (hmore q hready).elim (fun hr => hkeep (howes hj hr)) id
  | broadcast next =>
    intro j q hj
    by_cases hji : j = i
    · subst hji
      simp [Monitored.perform] at hj
    · cases hp : s.place j <;> simp [Monitored.perform, hji, hp, Place.wake] at hj
  | sleep =>
    obtain ⟨hready, hp⟩ := hW.sleep hm
    intro j q hj hq
    by_cases hji : j = i
    · subst hji
      obtain rfl : p = q := by simpa [Monitored.perform, Monitored.goes] using hj
      exact absurd hq hready
    · simp only [Monitored.perform, Monitored.goes, Function.update_of_ne hji] at hj
      exact absurd (howes hj hq) hp
  | leave e =>
    refine h.update rfl rfl (fun _ => nofun) ?_
    intro q hq
    rw [hi] at hq
    exact Place.inside.inj hq ▸ hW.leave hm

theorem Monitor.Wakes.step [DecidableEq ι] (hW : M.Wakes ready owes) (hex : s.Exclusive)
    (h : s.NoneLost ready owes) {e : MonitorEvent ι π} {r : Option (ι × ε)}
    (hstep : s.step M e = some (r, s')) : s'.NoneLost ready owes := by
  rcases Monitored.step_cases hstep with rfl | ⟨i, p, hi, rfl⟩ | ⟨i, p, hi, -, rfl⟩ |
    ⟨i, p, m, hi, hm, rfl⟩
  · exact h
  · refine h.update rfl rfl (fun _ => nofun) ?_
    rcases hi with hi | ⟨q, hi⟩ <;> simp [hi]
  · exact h.update rfl rfl (fun _ => nofun) (by simp [hi])
  · exact hW.perform hex h hi hm

end Wakes

/-- A thread can go on: it takes the mutex, or does a move. -/
def Monitored.CanGo (M : Monitor π σ ε) (s : Monitored ι π σ) (i : ι) : Prop :=
  (∃ p, s.place i = .entering p ∧ s.owner = none) ∨
    ∃ p m, s.place i = .inside p ∧ M.move p s.obj = some m

/-- There is no deadlock: where no thread can go on, all are outside or asleep. -/
theorem Monitor.Sound.out_or_asleep (hM : M.Keeps Entry I) {rs : List (Option (ι × ε))}
    {s : Monitored ι π σ} (h : M.Sound Entry I rs s) (hstuck : ∀ i, ¬ s.CanGo M i) (i : ι) :
    s.place i = .out ∨ ∃ q, s.place i = .asleep q := by
  have hin : ∀ j p, s.place j ≠ .inside p := by
    intro j p hj
    have hobj := h.obj
    rw [h.exclusive.holding hj] at hobj
    obtain ⟨m, hm, -⟩ := hM.move hobj
    exact hstuck j (Or.inr ⟨p, m, hj, hm⟩)
  cases hi : s.place i with
  | out => exact Or.inl rfl
  | asleep q => exact Or.inr ⟨q, rfl⟩
  | inside p => exact absurd hi (hin i p)
  | entering p =>
    refine absurd (Or.inl ⟨p, hi, ?_⟩) (hstuck i)
    by_contra howner
    obtain ⟨j, hj⟩ := Option.ne_none_iff_exists'.mp howner
    obtain ⟨q, hq⟩ := (h.exclusive j).mp hj
    exact hin j q hq

/-- A fresh object: all threads are outside. -/
def Monitored.start (obj : σ) : Monitored ι π σ := ⟨obj, none, fun _ => .out⟩

/-- The rule for whole runs. -/
theorem Monitor.Keeps.run [DecidableEq ι] (hM : M.Keeps Entry I) {ready : π → σ → Prop}
    {owes : π → Prop} (hW : M.Wakes ready owes) {obj : σ} (hobj : I none obj [])
    {events : List (MonitorEvent ι π)}
    (ha : Allowed (Monitored.step M) (Monitored.Calls Entry) (Monitored.start obj) events) :
    ∃ rs s, run (Monitored.step M) (Monitored.start obj) events = some (rs, s) ∧
      M.Sound Entry I rs s ∧ s.NoneLost ready owes := by
  have hstart : M.Sound Entry I [] (Monitored.start (ι := ι) obj) :=
    ⟨fun _ => iff_of_false nofun nofun, nofun, nofun, hobj⟩
  have hstep : ∀ rs (s : Monitored ι π σ) e, M.Sound Entry I rs s ∧ s.NoneLost ready owes →
      s.Calls Entry e → ∃ r s', s.step M e = some (r, s') ∧
        M.Sound Entry I (rs ++ [r]) s' ∧ s'.NoneLost ready owes := by
    rintro rs s e ⟨h, hlost⟩ he
    obtain ⟨r, s', h₁, hs'⟩ := hM.step h he
    exact ⟨r, s', h₁, hs', hW.step h.exclusive hlost h₁⟩
  have hinit : M.Sound Entry I [] (Monitored.start (ι := ι) obj) ∧
      (Monitored.start (ι := ι) obj).NoneLost ready owes := ⟨hstart, nofun⟩
  exact run_progress hstep hinit ha

end Rules
end DCache.Lib
