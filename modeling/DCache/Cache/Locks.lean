import DCache.Cache.Marks

/-! The mutexes of a cache server. Every thread unlocks what it has locked, as long as a move reads
the same `state` at its end as at its start. -/
namespace DCache.CacheThreads
open DCache.Lib

/-- What a thread knows of the memory: the mutexes that it holds, and `state` where nobody else
changes it. -/
structure View where
  held : Set Table
  state : Option ℤ

namespace View

def after (v : View) : Op → View
  | .lock t => { v with held := insert t v.held }
  | .unlock t => { v with held := v.held \ {t} }
  | .writeState state => { v with state := v.state.map fun _ => state }
  | _ => v

end View

/-- When a thread may use `state`, what it then reads, of which table it may mark keys, and whether
it may store values. -/
structure Policy where
  reads : View → Prop
  returns : View → ℤ → Prop
  writes : View → Prop
  marks : View → Table → Prop
  stores : View → Prop

/-- The thread may unlock a mutex. -/
def Unlocks (c : Prog) : Prop := c.May (fun op => ∃ t, op = .unlock t) fun _ _ => False

namespace Policy
variable (P : Policy)

/-- No key waits to be marked when a mutex is taken, `state` is read or a value is stored, and what
is unlocked is unlocked once. -/
def Allows (v : View) : (op : Op) → (op.Res → Prog) → Prop
  | .lock t, next => t ∉ v.held ∧ ∀ key, ¬ Pending key (next ())
  | .unlock t, next => t ∈ v.held ∧ ¬ Unlocks (next ())
  | .set t _ _, next => (t ∈ v.held ∧ P.stores v) ∧ ∀ key, ¬ Pending key (next ())
  | .readState, next => P.reads v ∧ ∀ r key, ¬ Pending key (next r)
  | .writeState _, _ => P.writes v
  | .setDirty t _, _ => P.marks v t
  | _, _ => True

def Returned (v : View) : (op : Op) → op.Res → Prop
  | .readState, state => P.returns v state
  | _, _ => True

def protocol : Code.Protocol View Op.Res where
  allows := P.Allows
  after v op r v' := v' = v.after op ∧ P.Returned v op r
  ends v := v.held = ∅

abbrev Obeys (v : View) (c : Prog) : Prop := c.Obeys P.protocol v

/-- A move with the mutex that it has chosen by what it read reads at its end what leads to the
same mutex. -/
structure Steady (state : Option ℤ) : Prop where
  reads : ∀ held, P.reads ⟨held, state⟩
  returns : ∀ r r', P.returns ⟨∅, state⟩ r → P.returns ⟨{tableOf r}, state⟩ r' →
    tableOf r' = tableOf r
  writes : ∀ r, P.returns ⟨{.lruBackup}, state⟩ r → r ≠ 0 → P.writes ⟨∅, state⟩
  marks : ∀ r, P.returns ⟨∅, state⟩ r → P.marks ⟨{tableOf r}, state⟩ .lru

end Policy

section Codes
variable {P : Policy} {v : View} {state : Option ℤ} {op : Op} {next : op.Res → Prog}

theorem obeys_call (hop : P.Allows v op next)
    (h : ∀ r, P.Returned v op r → P.Obeys (v.after op) (next r)) : P.Obeys v (.call op next) := by
  refine ⟨hop, ?_⟩
  rintro r v' ⟨rfl, hr⟩
  exact h r hr

theorem obeys_leave (t : Table) :
    P.Obeys ⟨{t}, state⟩ (leave t) := by
  refine obeys_call ⟨Set.mem_singleton t, Code.not_may_done⟩ fun _ _ => ?_
  change ({t} : Set Table) \ {t} = ∅
  exact sdiff_self

theorem obeys_setIn {t : Table} (h : P.stores ⟨{t}, state⟩) (key value : Str) :
    P.Obeys ⟨∅, state⟩ (setIn t key value) := by
  have hwrite : P.Obeys ⟨{t}, state⟩
      (.call (.set t key value) fun _ => leave t) :=
    obeys_call ⟨⟨Set.mem_singleton t, h⟩, fun _ => not_marks_leave t⟩ fun _ _ => obeys_leave t
  refine obeys_call ⟨Set.notMem_empty t, fun _ => not_marks_locked _ _ _⟩ fun _ _ => ?_
  change P.Obeys ⟨insert t ∅, state⟩ _
  rw [insert_empty_eq]
  refine obeys_call trivial fun (present : Bool) _ => ?_
  cases present with
  | false => exact hwrite
  | true =>
    refine obeys_call trivial fun (dirty : Bool) _ => ?_
    cases dirty with
    | false => exact hwrite
    | true => exact obeys_leave t

theorem obeys_reply (cfd : ℤ) (msg : Str) (sent : Bool) : P.Obeys ⟨∅, state⟩ (reply cfd msg sent) :=
  obeys_call trivial fun _ _ => rfl

theorem obeys_getFrom (t : Table) (key : Str) (cfd : ℤ) (sent : Bool) :
    P.Obeys ⟨∅, state⟩ (getFrom t key cfd sent) := by
  have hread : P.Obeys ⟨∅, state⟩ (readFrom t key cfd sent) := by
    refine obeys_call trivial fun (present : Bool) _ => ?_
    cases present with
    | false => exact obeys_reply _ _ _
    | true => exact obeys_call trivial fun _ _ => obeys_reply _ _ _
  refine obeys_call trivial fun (present : Bool) _ => ?_
  cases present with
  | false => exact hread
  | true =>
    refine obeys_call trivial fun (dirty : Bool) _ => ?_
    cases dirty with
    | false => exact hread
    | true => exact obeys_reply _ _ _

theorem obeys_handle (h : ∀ t, P.stores ⟨{t}, state⟩) (request : CacheServer.Request)
    (sent : Bool) : P.Obeys ⟨∅, state⟩ (handle request sent) := by
  unfold handle
  split_ifs
  · exact obeys_setIn (h _) _ _
  · exact obeys_getFrom _ _ _ _
  · exact obeys_setIn (h _) _ _
  · exact obeys_getFrom _ _ _ _
  · exact obeys_call trivial fun _ _ => rfl

theorem obeys_update (net : CacheServer.Net) (sent : ℕ → Bool) (ipPort : Str) :
    P.Obeys ⟨∅, state⟩ (update net sent ipPort) := by
  have hloop : ∀ keys n, P.Obeys ⟨∅, state⟩ (updateLoop net.cfd sent n keys) := by
    intro keys
    induction keys with
    | nil => exact fun n => rfl
    | cons key keys ih =>
      exact fun n => obeys_call trivial fun _ _ => obeys_call trivial fun _ _ => ih (n + 1)
  refine obeys_call trivial fun _ _ => obeys_call trivial fun _ _ => ?_
  split_ifs
  · exact obeys_call trivial fun _ _ => obeys_call trivial fun _ _ => hloop _ _
  · exact rfl

theorem obeys_endMove {t : Table} (hreads : P.reads ⟨{t}, state⟩)
    (hwrites : ∀ r, P.returns ⟨{.lruBackup}, state⟩ r → r ≠ 0 → P.writes ⟨∅, state⟩)
    (h : ∀ r, P.returns ⟨{t}, state⟩ r → tableOf r = t) : P.Obeys ⟨{t}, state⟩ endMove := by
  refine obeys_call ⟨hreads, fun r _ => not_marks_release r⟩ fun (r : ℤ) hr => ?_
  have ht : tableOf r = t := h r hr
  unfold release
  by_cases hr0 : r = 0
  · rw [tableOf, if_pos hr0] at ht
    subst ht
    simp only [hr0, if_true]
    exact obeys_leave .lru
  · rw [tableOf, if_neg hr0] at ht
    subst ht
    simp only [hr0, if_false]
    have hrest : ¬ Unlocks (.call (.writeState 0) fun _ => .call (.writeBackupInvalid 1) fun _ =>
        .done) :=
      Code.not_may_call (by simp) fun _ _ => Code.not_may_call (by simp) fun _ _ =>
        Code.not_may_done
    refine obeys_call ⟨Set.mem_singleton _, hrest⟩ fun _ _ => ?_
    change P.Obeys ⟨{Table.lruBackup} \ {Table.lruBackup}, state⟩ _
    rw [sdiff_self]
    exact obeys_call (hwrites r hr hr0) fun _ _ => obeys_call trivial fun _ _ => rfl

theorem obeys_handOff {t : Table} {more : Prog} (hmarks : P.marks ⟨{t}, state⟩ .lru)
    (hend : P.Obeys ⟨{t}, state⟩ endMove) (hmore : P.Obeys ⟨{t}, state⟩ more)
    (net : CacheServer.Net) (key newAddr : Str) :
    P.Obeys ⟨{t}, state⟩ (handOff net key newAddr more) := by
  have hsend : P.Obeys ⟨{t}, state⟩ (sendKey net key more) := by
    refine obeys_call trivial fun _ _ => ?_
    split_ifs
    · exact obeys_call hmarks fun _ _ => hmore
    · exact hend
  unfold handOff
  split_ifs
  · exact obeys_call trivial fun _ _ => obeys_call trivial fun _ _ => hsend
  · exact obeys_call trivial fun _ _ => obeys_call trivial fun _ _ => hend
  · exact hsend

theorem obeys_moveLoop {t : Table} (hmarks : P.marks ⟨{t}, state⟩ .lru)
    (hend : P.Obeys ⟨{t}, state⟩ endMove) (localAddr : Str) (net : ℕ → CacheServer.Net)
    (keys : List Str) (n : ℕ) : P.Obeys ⟨{t}, state⟩ (moveLoop localAddr net n keys) := by
  induction keys generalizing n with
  | nil => exact hend
  | cons key keys ih =>
    refine obeys_call trivial fun _ _ => obeys_call trivial fun (present : Bool) _ => ?_
    cases present with
    | false => exact ih (n + 1)
    | true =>
      refine obeys_call trivial fun _ _ => obeys_call trivial fun (newAddr : Str) _ => ?_
      by_cases hl : newAddr = localAddr
      · simp only [hl, ne_eq, not_true_eq_false, if_false]
        exact ih (n + 1)
      · simp only [ne_eq, hl, not_false_eq_true, if_true]
        exact obeys_handOff hmarks hend (ih (n + 1)) _ _ _

theorem obeys_move (h : P.Steady state) (localAddr : Str) (net : ℕ → CacheServer.Net) :
    P.Obeys ⟨∅, state⟩ (move localAddr net) := by
  refine obeys_call ⟨h.reads _, fun r key => not_marks_takeKeys (cuts_get key) _ _ r⟩
    fun (r : ℤ) hr => ?_
  refine obeys_call trivial fun (keys : List Str) _ => ?_
  refine obeys_call ⟨Set.notMem_empty _, fun key => not_marks_moveLoop (cuts_get key) _ _ _ _⟩
    fun _ _ => ?_
  change P.Obeys ⟨insert (tableOf r) ∅, state⟩ _
  rw [insert_empty_eq]
  have hend : P.Obeys ⟨{tableOf r}, state⟩ endMove :=
    obeys_endMove (h.reads _) h.writes fun r' hr' => h.returns r r' hr hr'
  exact obeys_moveLoop (h.marks r hr) hend localAddr net keys 0

end Codes

section Memory
variable {cbHashfunc : Str → ℤ} {i j : ℕ} {op : Op} {r : op.Res} {m m' : Shared}

def held (m : Shared) (i : ℕ) : Set Table := {t | m.mutex t = some i}

/-- Only `lock` and `unlock` touch the mutexes. -/
theorem mutex_of_perform (h : perform cbHashfunc i op m = .ok r m') :
    (∃ t, op = .lock t ∧ m.mutex t = none ∧ m'.mutex = Function.update m.mutex t (some i)) ∨
    (∃ t, op = .unlock t ∧ m'.mutex = Function.update m.mutex t none) ∨
    (∀ t, op ≠ .lock t ∧ op ≠ .unlock t) ∧ m'.mutex = m.mutex := by
  cases op with
  | lock t =>
    obtain ⟨hfree, rfl⟩ := of_perform_lock h
    exact Or.inl ⟨t, rfl, hfree, rfl⟩
  | unlock t =>
    obtain ⟨-, rfl⟩ := Outcome.of_ok h
    exact Or.inr (Or.inl ⟨t, rfl, rfl⟩)
  | get t key =>
    obtain ⟨c, -, rfl⟩ := of_perform_get h
    exact Or.inr (Or.inr ⟨by simp, rfl⟩)
  | owner key =>
    obtain ⟨-, rfl⟩ := of_perform_owner h
    exact Or.inr (Or.inr ⟨by simp, rfl⟩)
  | _ =>
    obtain ⟨-, rfl⟩ := Outcome.of_ok h
    exact Or.inr (Or.inr ⟨by simp, rfl⟩)

theorem state_withTable (s : CacheServer) (t : Table) (c : LRU.Cache Str Str) :
    (withTable s t c).state = s.state := by
  cases t <;> rfl

/-- Only `writeState` changes `state`. -/
theorem state_of_perform (h : perform cbHashfunc i op m = .ok r m') :
    (∃ state, op = .writeState state ∧ m'.server.state = state) ∨
    (∀ state, op ≠ .writeState state) ∧ m'.server.state = m.server.state := by
  cases op with
  | writeState state =>
    obtain ⟨-, rfl⟩ := Outcome.of_ok h
    exact Or.inl ⟨state, rfl, rfl⟩
  | lock t =>
    obtain ⟨-, rfl⟩ := of_perform_lock h
    exact Or.inr ⟨by simp, rfl⟩
  | get t key =>
    obtain ⟨c, -, rfl⟩ := of_perform_get h
    exact Or.inr ⟨by simp, state_withTable _ _ _⟩
  | owner key =>
    obtain ⟨-, rfl⟩ := of_perform_owner h
    exact Or.inr ⟨by simp, rfl⟩
  | set t key value =>
    obtain ⟨-, rfl⟩ := Outcome.of_ok h
    exact Or.inr ⟨by simp, state_withTable _ _ _⟩
  | setDirty t key =>
    obtain ⟨-, rfl⟩ := Outcome.of_ok h
    exact Or.inr ⟨by simp, state_withTable _ _ _⟩
  | _ =>
    obtain ⟨-, rfl⟩ := Outcome.of_ok h
    exact Or.inr ⟨by simp, rfl⟩

/-- No step changes the ring, the server's own address or the queue. -/
theorem frame_of_perform (h : perform cbHashfunc i op m = .ok r m') :
    m'.server.cacheServerHash = m.server.cacheServerHash ∧
      m'.server.localAddr = m.server.localAddr ∧ m'.server.workqueue = m.server.workqueue := by
  have htable : ∀ t c, (withTable m.server t c).cacheServerHash = m.server.cacheServerHash ∧
      (withTable m.server t c).localAddr = m.server.localAddr ∧
      (withTable m.server t c).workqueue = m.server.workqueue := fun t c => by
    cases t <;> exact ⟨rfl, rfl, rfl⟩
  cases op with
  | lock t =>
    obtain ⟨-, rfl⟩ := of_perform_lock h
    exact ⟨rfl, rfl, rfl⟩
  | get t key =>
    obtain ⟨c, -, rfl⟩ := of_perform_get h
    exact htable t c
  | owner key =>
    obtain ⟨-, rfl⟩ := of_perform_owner h
    exact ⟨rfl, rfl, rfl⟩
  | set t key value =>
    obtain ⟨-, rfl⟩ := Outcome.of_ok h
    exact htable t _
  | setDirty t key =>
    obtain ⟨-, rfl⟩ := Outcome.of_ok h
    exact htable t _
  | _ =>
    obtain ⟨-, rfl⟩ := Outcome.of_ok h
    exact ⟨rfl, rfl, rfl⟩

theorem held_of_perform (state : Option ℤ) (h : perform cbHashfunc i op m = .ok r m')
    (hop : ∀ t, op = .unlock t → t ∈ held m i) :
    held m' i = (View.after ⟨held m i, state⟩ op).held ∧ ∀ j ≠ i, held m' j = held m j := by
  rcases mutex_of_perform h with ⟨t, rfl, hfree, hm⟩ | ⟨t, rfl, hm⟩ | ⟨hne, hm⟩
  · refine ⟨?_, fun j hj => ?_⟩ <;> ext t' <;> by_cases ht : t' = t
    · simp [held, View.after, hm, ht]
    · simp [held, View.after, hm, ht]
    · simp [held, hm, ht, hfree, Ne.symm hj]
    · simp [held, hm, ht]
  · have hmine : m.mutex t = some i := hop t rfl
    refine ⟨?_, fun j hj => ?_⟩ <;> ext t' <;> by_cases ht : t' = t
    · simp [held, View.after, hm, ht]
    · simp [held, View.after, hm, ht]
    · simp [held, hm, ht, hmine, Ne.symm hj]
    · simp [held, hm, ht]
  · have hsame : ∀ j, held m' j = held m j := fun j => by simp only [held, hm]
    refine ⟨?_, fun j _ => hsame j⟩
    rw [hsame]
    cases op with
    | lock t => exact absurd rfl (hne t).1
    | unlock t => exact absurd rfl (hne t).2
    | _ => rfl

end Memory

section Discipline
variable {cbHashfunc : Str → ℤ} {p p' : System} {e : Event} {o : Obs} {P : Policy}
  {known : ℕ → ℤ → Option ℤ}

def view (known : ℕ → ℤ → Option ℤ) (m : Shared) (i : ℕ) : View :=
  ⟨held m i, known i m.server.state⟩

/-- Every thread keeps to the policy with what is left of its code. -/
def Disciplined (P : Policy) (known : ℕ → ℤ → Option ℤ) (p : System) : Prop :=
  ∀ i, P.Obeys (view known p.mem i) (p.code i)

theorem disciplined_idle (s : CacheServer) : Disciplined P known (idle s) := fun i => by
  change {t : Table | none = some i} = ∅
  simp

/-- Who unlocks a mutex has locked it. -/
theorem Disciplined.unlock (hp : Disciplined P known p) {i : ℕ} {t : Table}
    {next : Unit → Prog} (h : p.code i = .call (.unlock t) next) : p.mem.mutex t = some i := by
  have hi := hp i
  rw [h] at hi
  exact hi.1.1

theorem Disciplined.set (hp : Disciplined P known p) {i : ℕ} {t : Table} {key value : Str}
    {next : Unit → Prog} (h : p.code i = .call (.set t key value) next) :
    p.mem.mutex t = some i := by
  have hi := hp i
  rw [h] at hi
  exact hi.1.1.1

/-- A thread that is done holds nothing. -/
theorem Disciplined.done (hp : Disciplined P known p) {i : ℕ} (h : p.code i = .done) :
    held p.mem i = ∅ := by
  have hi := hp i
  rw [h] at hi
  exact hi

/-- When all threads are done, the mutexes are free. -/
theorem Disciplined.free (hp : Disciplined P known p) (hdone : ∀ i, p.code i = .done) (t : Table) :
    p.mem.mutex t = none := by
  cases hm : p.mem.mutex t with
  | none => rfl
  | some i =>
    have hi : t ∈ held p.mem i := hm
    rw [hp.done (hdone i)] at hi
    exact absurd hi (Set.notMem_empty t)

theorem Disciplined.step (hp : Disciplined P known p) (h : step cbHashfunc p e = some (o, p'))
    (hstart : ∀ i c s, starts p.mem.server e = some (i, c, s) → P.Obeys ⟨∅, known i s.state⟩ c ∧
      ∀ j ≠ i, known j s.state = known j p.mem.server.state)
    (hread : ∀ i next, e = .step i → p.code i = .call .readState next →
      P.returns (view known p.mem i) p.mem.server.state)
    (hwrite : ∀ i state, P.writes (view known p.mem i) →
      known i state = (known i p.mem.server.state).map (fun _ => state) ∧
      ∀ j ≠ i, known j state = known j p.mem.server.state) : Disciplined P known p' := by
  cases step_cases h with
  | idle => exact hp
  | appended request hroom => exact hp
  | @started _ i c server hs hdone =>
    obtain ⟨hobeys, hother⟩ := hstart i c server hs
    intro j
    by_cases hj : j = i
    · subst hj
      have hheld := hp.done hdone
      change held ⟨server, p.mem.mutex⟩ j = ∅ at hheld
      simp only [view, hheld, Function.update_self]
      exact hobeys
    · have hj' := hp j
      simp only [view] at hj' ⊢
      rw [Function.update_of_ne hj, hother j hj]
      exact hj'
  | @acted i op next r m hcode hop =>
    have hi := hp i
    rw [hcode] at hi
    obtain ⟨hallows, hnext⟩ := hi
    have hunlock : ∀ t, op = .unlock t → t ∈ held p.mem i := by
      rintro t rfl
      exact hallows.1
    obtain ⟨hheld, hothers⟩ := held_of_perform (known i p.mem.server.state) hop hunlock
    have hself : view known m i = (view known p.mem i).after op ∧
        ∀ j ≠ i, view known m j = view known p.mem j := by
      rcases state_of_perform hop with ⟨state, rfl, hs⟩ | ⟨hne, hs⟩
      · obtain ⟨hmine, hother⟩ := hwrite i state hallows
        refine ⟨?_, fun j hj => ?_⟩
        · simp only [view, hheld, hs, hmine, View.after]
        · simp only [view, hothers j hj, hs, hother j hj]
      · refine ⟨?_, fun j hj => ?_⟩
        · simp only [view, hheld, hs]
          cases op with
          | writeState state => exact absurd rfl (hne state)
          | _ => rfl
        · simp only [view, hothers j hj, hs]
    have hreturned : P.Returned (view known p.mem i) op r := by
      cases op with
      | readState =>
        obtain ⟨rfl, -⟩ := Outcome.of_ok hop
        exact hread i next rfl hcode
      | _ => trivial
    intro j
    change P.Obeys (view known m j) (Function.update p.code i (next r) j)
    by_cases hj : j = i
    · subst hj
      rw [Function.update_self]
      exact hnext r _ ⟨hself.1, hreturned⟩
    · rw [Function.update_of_ne hj, hself.2 j hj]
      exact hp j

end Discipline

section Pairing

/-- What is known of `state` is nothing, and a move reads what fits the mutex that it holds. -/
def pairing : Policy where
  reads _ := True
  returns v state := (Table.lru ∈ v.held → state = 0) ∧ (Table.lruBackup ∈ v.held → state ≠ 0)
  writes _ := True
  marks _ _ := True
  stores _ := True

theorem pairing_steady : pairing.Steady none where
  reads _ := trivial
  returns r r' _ h' := by
    unfold tableOf at h' ⊢
    by_cases hr : r = 0
    · rw [if_pos hr] at h' ⊢
      rw [if_pos (h'.1 rfl)]
    · rw [if_neg hr] at h' ⊢
      rw [if_neg (h'.2 rfl)]
  writes _ _ _ := trivial
  marks _ _ := trivial

/-- A move that holds `lru_mutex` does not find another `state` than 0, and one that holds
`lru_backup_mutex` does not find 0. -/
def ReadsSame (p : System) : Event → Prop
  | .step i => ∀ next, p.code i = .call .readState next →
    (p.mem.mutex .lru = some i → p.mem.server.state = 0) ∧
    (p.mem.mutex .lruBackup = some i → p.mem.server.state ≠ 0)
  | _ => True

variable {cbHashfunc : Str → ℤ} {s : CacheServer} {es : List Event} {obs : List Obs} {p p' : System}

theorem Disciplined.step_pairing {e : Event} {o : Obs}
    (hp : Disciplined pairing (fun _ _ => none) p) (he : ReadsSame p e)
    (h : CacheThreads.step cbHashfunc p e = some (o, p')) :
    Disciplined pairing (fun _ _ => none) p' := by
  refine hp.step h (fun i c server hs => ⟨?_, fun _ _ => rfl⟩) ?_ (fun _ _ _ => ⟨rfl, fun _ _ => rfl⟩)
  · rcases starts_cases hs with ⟨request, rest, sent, -, -, rfl, -⟩ | ⟨net, -, rfl, -⟩ |
      ⟨net, -, rfl, -⟩ | ⟨net, sent, ipPort, -, rfl, -⟩
    · exact obeys_handle (fun _ => trivial) request sent
    · exact obeys_move pairing_steady _ net
    · exact obeys_move pairing_steady _ net
    · exact obeys_update net sent ipPort
  · rintro i next rfl hcode
    exact he next hcode

/-- As long as every move reads the same `state` at its end as at its start, each mutex is unlocked
by the thread that locked it, and both are free when no thread runs. -/
theorem locks_paired_of_run (ha : Allowed (CacheThreads.step cbHashfunc) ReadsSame (idle s) es)
    (h : Lib.run (CacheThreads.step cbHashfunc) (idle s) es = some (obs, p)) :
    (∀ i t next, p.code i = .call (.unlock t) next → p.mem.mutex t = some i) ∧
      ((∀ i, p.code i = .done) → ∀ t, p.mem.mutex t = none) := by
  have hp : Disciplined pairing (fun _ _ => none) p :=
    run_kept (fun _ _ _ _ hp he hstep => hp.step_pairing he hstep) (disciplined_idle s) ha h
  exact ⟨fun i t next hcode => hp.unlock hcode, hp.free⟩

end Pairing

section Overlap

def someNet : ℕ → CacheServer.Net := fun _ => ⟨7, ⟨0, 0, .any⟩, true, true⟩

def setK : CacheServer.Request := ⟨Code.setValue, [], lit "k", lit "v", 5⟩

/-- A move of `RECOVER_BACKUP` and a worker that stores a value take turns; then comes a move of
`MOVE_DATA`. -/
def movesAndSet : List Event :=
  [.append setK, .recoverBackup 1 someNet, .step 1, .step 1, .step 1, .dequeue 2 true, .step 2,
    .step 1, .step 2, .step 1, .step 2, .step 1, .step 2, .step 1, .moveData 3 someNet, .step 3,
    .step 3, .step 3, .step 3, .step 3, .step 3, .step 3, .step 3, .step 3, .step 3, .step 3,
    .step 3, .step 3]

set_option maxRecDepth 4000 in
theorem locks_paired_of_moves : ∃ obs p,
    Allowed (CacheThreads.step fun _ => 0) ReadsSame (idle .new) movesAndSet ∧
    Lib.run (CacheThreads.step fun _ => 0) (idle .new) movesAndSet = some (obs, p) ∧
    .acted 2 ⟨.set .lru (lit "k") (lit "v"), ()⟩ ∈ obs ∧
    (∀ i t next, p.code i = .call (.unlock t) next → p.mem.mutex t = some i) ∧
      (∀ i, p.code i = .done) ∧ ∀ t, p.mem.mutex t = none := by
  have hother : ∀ (p : System) i op next, p.code i = .call op next → op ≠ .readState →
      ReadsSame p (.step i) := by
    intro p i op next hp hop next' hcode
    rw [hp] at hcode
    cases hcode
    exact absurd rfl hop
  have ha : Allowed (CacheThreads.step fun _ => 0) ReadsSame (idle .new) movesAndSet := by
    refine ⟨trivial, trivial, fun _ _ => ⟨nofun, nofun⟩, hother _ _ _ _ rfl ?_,
      hother _ _ _ _ rfl ?_, trivial, hother _ _ _ _ rfl ?_, fun _ _ => ⟨nofun, fun _ => one_ne_zero⟩,
      hother _ _ _ _ rfl ?_, hother _ _ _ _ rfl ?_, hother _ _ _ _ rfl ?_, hother _ _ _ _ rfl ?_,
      hother _ _ _ _ rfl ?_, hother _ _ _ _ rfl ?_, trivial, fun _ _ => ⟨nofun, nofun⟩,
      hother _ _ _ _ rfl ?_, hother _ _ _ _ rfl ?_, hother _ _ _ _ rfl ?_, hother _ _ _ _ rfl ?_,
      hother _ _ _ _ rfl ?_, hother _ _ _ _ rfl ?_, hother _ _ _ _ rfl ?_, hother _ _ _ _ rfl ?_,
      hother _ _ _ _ rfl ?_, hother _ _ _ _ rfl ?_, fun _ _ => ⟨fun _ => rfl, nofun⟩,
      hother _ _ _ _ rfl ?_, trivial⟩ <;> rintro ⟨⟩
  obtain ⟨obs, p, hrun, hset, hdone⟩ : ∃ obs p,
      Lib.run (CacheThreads.step fun _ => 0) (idle .new) movesAndSet = some (obs, p) ∧
      .acted 2 ⟨.set .lru (lit "k") (lit "v"), ()⟩ ∈ obs ∧ ∀ i, p.code i = .done := by
    refine ⟨_, _, rfl, List.mem_of_getElem? (i := 10) rfl, fun i => ?_⟩
    match i with
    | 0 | 1 | 2 | 3 => rfl
    | n + 4 => rfl
  obtain ⟨hunlock, hfree⟩ := locks_paired_of_run ha hrun
  exact ⟨obs, p, ha, hrun, hset, hunlock, hdone, hfree hdone⟩

/-- `RECOVER_BACKUP` comes while a move of `MOVE_DATA` is in its loop. -/
def overlap : List Event :=
  [.moveData 1 someNet, .step 1, .step 1, .step 1, .recoverBackup 2 someNet]

/-- The first move reads 1 and unlocks the mutex of the backup, which it does not hold. The second
move, which has read 1 before, locks it, reads 0 and unlocks the other one. -/
theorem not_locks_paired : (∃ obs p next,
    Lib.run (CacheThreads.step fun _ => 0) (idle .new) (overlap ++ [.step 1]) = some (obs, p) ∧
      p.code 1 = .call (.unlock .lruBackup) next ∧ p.mem.mutex .lruBackup = none) ∧
    ∃ obs p, Lib.run (CacheThreads.step fun _ => 0) (idle .new) (overlap ++ [.step 2, .step 2,
      .step 1, .step 1, .step 1, .step 1, .step 2, .step 2, .step 2]) = some (obs, p) ∧
      (∀ i, p.code i = .done) ∧ p.mem.mutex .lruBackup = some 2 := by
  refine ⟨⟨_, _, _, rfl, rfl, rfl⟩, ⟨_, _, rfl, fun i => ?_, rfl⟩⟩
  by_cases h₂ : i = 2
  · subst h₂
    rfl
  · by_cases h₁ : i = 1
    · subst h₁
      rfl
    · simp [h₁, h₂, idle]

end Overlap
end DCache.CacheThreads
