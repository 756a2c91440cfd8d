import DCache.Cache.Locks
import DCache.Lib.Settle

/-! The threads of a cache server come to rest. A thread locks one mutex at most, so nobody who holds
one waits for another. When no more requests come, every fair schedule ends with the queue empty, all
threads done and both mutexes free, as long as every mutex is unlocked by the thread that locked it. -/
namespace DCache.CacheThreads
open DCache.Lib

section Codes
variable {t : Table} {key value : Str} {c : Prog}

/-- The thread may lock a mutex. -/
def Locks (c : Prog) : Prop := c.May (fun op => ∃ t, op = .lock t) fun _ _ => False

def Op.NoLock (op : Op) : Prop := ∀ t, op ≠ .lock t

theorem not_locks_of_noLock (h : c.Only Op.NoLock) : ¬ Locks c := by
  refine h.not_may ?_
  rintro op hop ⟨t, rfl⟩
  exact hop t rfl

/-- Behind the lock of a mutex there is no other. -/
def taking : Code.Protocol Unit Op.Res where
  allows _ op next := (∃ t, op = .lock t) → ∀ r, ¬ Locks (next r)
  after _ _ _ _ := True
  ends _ := True

abbrev LocksOnce (c : Prog) : Prop := c.Obeys taking ()

theorem locksOnce_of_noLock (h : c.Only Op.NoLock) : LocksOnce c := by
  induction c with
  | done => trivial
  | call op next ih =>
    refine ⟨?_, fun r _ _ => ih r (h.2 r)⟩
    rintro ⟨t, rfl⟩
    exact absurd rfl (h.1 t)

theorem noLock_leave : (leave t).Only Op.NoLock := ⟨nofun, fun _ => trivial⟩

theorem noLock_locked : (locked t key value).Only Op.NoLock := by
  have hwrite : Code.Only Op.NoLock (.call (.set t key value) fun _ => leave t) :=
    ⟨nofun, fun _ => noLock_leave⟩
  refine ⟨nofun, fun (present : Bool) => ?_⟩
  cases present with
  | false => exact hwrite
  | true =>
    refine ⟨nofun, fun (dirty : Bool) => ?_⟩
    cases dirty with
    | false => exact hwrite
    | true => exact noLock_leave

theorem noLock_getFrom {cfd : ℤ} {sent : Bool} : (getFrom t key cfd sent).Only Op.NoLock := by
  refine only_getFrom.mono ?_
  rintro op (_ | _ | _ | _) <;> exact nofun

theorem noLock_update {net : CacheServer.Net} {sent : ℕ → Bool} {ipPort : Str} :
    (update net sent ipPort).Only Op.NoLock := by
  refine only_update.mono ?_
  rintro op (_ | _ | _) <;> exact nofun

theorem noLock_endMove : endMove.Only Op.NoLock := by
  refine only_endMove.mono ?_
  rintro op (_ | _ | _ | _) <;> exact nofun

theorem noLock_handOff {net : CacheServer.Net} {newAddr : Str} {more : Prog}
    (h : more.Only Op.NoLock) : (handOff net key newAddr more).Only Op.NoLock := by
  have hsend : (sendKey net key more).Only Op.NoLock := by
    refine ⟨nofun, fun _ => ?_⟩
    split_ifs
    · exact ⟨nofun, fun _ => h⟩
    · exact noLock_endMove
  unfold handOff
  split_ifs
  · exact ⟨nofun, fun _ => ⟨nofun, fun _ => hsend⟩⟩
  · exact ⟨nofun, fun _ => ⟨nofun, fun _ => noLock_endMove⟩⟩
  · exact hsend

theorem noLock_moveLoop {localAddr : Str} {net : ℕ → CacheServer.Net} (keys : List Str) (n : ℕ) :
    (moveLoop localAddr net n keys).Only Op.NoLock := by
  induction keys generalizing n with
  | nil => exact noLock_endMove
  | cons key keys ih =>
    refine ⟨nofun, fun _ => ⟨nofun, fun (present : Bool) => ?_⟩⟩
    cases present with
    | false => exact ih (n + 1)
    | true =>
      refine ⟨nofun, fun _ => ⟨nofun, fun (newAddr : Str) => ?_⟩⟩
      by_cases hl : newAddr = localAddr
      · simp only [hl, ne_eq, not_true_eq_false, if_false]
        exact ih (n + 1)
      · simp only [ne_eq, hl, not_false_eq_true, if_true]
        exact noLock_handOff (ih (n + 1))

theorem locksOnce_setIn : LocksOnce (setIn t key value) :=
  ⟨fun _ _ => not_locks_of_noLock noLock_locked, fun _ _ _ => locksOnce_of_noLock noLock_locked⟩

theorem locksOnce_handle (request : CacheServer.Request) (sent : Bool) :
    LocksOnce (handle request sent) := by
  unfold handle
  split_ifs
  · exact locksOnce_setIn
  · exact locksOnce_of_noLock noLock_getFrom
  · exact locksOnce_setIn
  · exact locksOnce_of_noLock noLock_getFrom
  · exact locksOnce_of_noLock ⟨nofun, fun _ => trivial⟩

theorem locksOnce_move (localAddr : Str) (net : ℕ → CacheServer.Net) :
    LocksOnce (move localAddr net) := by
  refine ⟨nofun, fun (state : ℤ) _ _ => ⟨nofun, fun (keys : List Str) _ _ => ?_⟩⟩
  have hloop : (moveLoop localAddr net 0 keys).Only Op.NoLock := noLock_moveLoop keys 0
  exact ⟨fun _ _ => not_locks_of_noLock hloop, fun _ _ _ => locksOnce_of_noLock hloop⟩

theorem locksOnce_of_starts {e : Event} {s s' : CacheServer} {i : ℕ}
    (h : starts s e = some (i, c, s')) : LocksOnce c := by
  rcases starts_cases h with ⟨request, rest, sent, -, -, rfl, -⟩ | ⟨net, -, rfl, -⟩ |
    ⟨net, -, rfl, -⟩ | ⟨net, sent, ipPort, -, rfl, -⟩
  · exact locksOnce_handle request sent
  · exact locksOnce_move _ net
  · exact locksOnce_move _ net
  · exact locksOnce_of_noLock noLock_update

end Codes

section Waiting
variable {cbHashfunc : Str → ℤ} {p p' : System} {e : Event} {o : Obs}

/-- Who may lock a mutex holds none. -/
structure Single (p : System) : Prop where
  once : ∀ i, LocksOnce (p.code i)
  free : ∀ i, Locks (p.code i) → held p.mem i = ∅

theorem single_idle (s : CacheServer) : Single (idle s) where
  once _ := trivial
  free _ h := absurd h Code.not_may_done

theorem Single.step (hp : Single p) (hdisc : Disciplined pairing (fun _ _ => none) p)
    (h : CacheThreads.step cbHashfunc p e = some (o, p')) : Single p' := by
  cases step_cases h with
  | idle => exact hp
  | appended request hroom => exact ⟨hp.once, hp.free⟩
  | @started _ i c server hs hdone =>
    have hheld : held p.mem i = ∅ := hdisc.done hdone
    constructor
    · intro j
      by_cases hj : j = i
      · subst hj
        simpa using locksOnce_of_starts hs
      · simpa [hj] using hp.once j
    · intro j hlocks
      by_cases hj : j = i
      · subst hj
        exact hheld
      · exact hp.free j (by simpa [hj] using hlocks)
  | @acted i op next r m hcode hop =>
    have honce := hp.once i
    rw [hcode] at honce
    have hunlock : ∀ t, op = .unlock t → t ∈ held p.mem i := by
      rintro t rfl
      exact hdisc.unlock hcode
    obtain ⟨hmine, hothers⟩ := held_of_perform none hop hunlock
    constructor
    · intro j
      by_cases hj : j = i
      · subst hj
        simpa using honce.2 r () trivial
      · simpa [hj] using hp.once j
    · intro j hlocks
      by_cases hj : j = i
      · subst hj
        replace hlocks : Locks (next r) := by simpa using hlocks
        have hnone : held p.mem j = ∅ := hp.free j (by rw [hcode]; exact hlocks.of_next id)
        change held m j = ∅
        rw [hmine, hnone]
        cases op with
        | lock t => exact absurd hlocks (honce.1 ⟨t, rfl⟩ r)
        | unlock t => exact Set.empty_sdiff _
        | _ => rfl
      · rw [← hp.free j (by simpa [hj] using hlocks)]
        exact hothers j hj

/-- Only a mutex that is taken makes a thread wait. -/
theorem lock_of_blocked {i : ℕ} {op : Op} {m : Shared} (h : perform cbHashfunc i op m = .blocked) :
    ∃ t j, op = .lock t ∧ m.mutex t = some j := by
  cases op with
  | lock t =>
    cases hm : m.mutex t with
    | none =>
      rw [perform_lock hm] at h
      cases h
    | some j => exact ⟨t, j, rfl, hm⟩
  | get t key =>
    cases hget : (table m.server t).get key with
    | none => simp only [perform, hget, reduceCtorEq] at h
    | some o =>
      rw [perform_get hget] at h
      cases h
  | owner key =>
    cases howner : m.server.cacheServerHash.conhashGetCacheServer cbHashfunc key with
    | none => simp only [perform, howner, reduceCtorEq] at h
    | some addr =>
      rw [perform_owner howner] at h
      cases h
  | _ => cases h

/-- A thread's turn: it goes on, or takes a request from the queue. -/
inductive Turn
  | goes (i : ℕ)
  | takes (i : ℕ)

def Event.turn : Event → Option Turn
  | .step i => some (.goes i)
  | .dequeue i _ => some (.takes i)
  | _ => none

/-- Only the workers take requests. -/
def turns (workers : Finset ℕ) : Set (Option Turn) :=
  {k | (∃ i, k = some (.goes i)) ∨ ∃ i ∈ workers, k = some (.takes i)}

theorem of_turn_goes {i : ℕ} (h : e.turn = some (.goes i)) : e = .step i := by
  cases e <;> simp_all [Event.turn]

theorem of_turn_takes {i : ℕ} (h : e.turn = some (.takes i)) : ∃ sent, e = .dequeue i sent := by
  cases e <;> simp_all [Event.turn]

variable {workers : Finset ℕ}

/-- When no turn changes anything, all threads are done. -/
theorem Single.done_of_atRest (hp : Single p) (hdisc : Disciplined pairing (fun _ _ => none) p)
    (hrest : AtRest (CacheThreads.step cbHashfunc) Event.turn (turns workers) p) (i : ℕ) :
    p.code i = .done := by
  have hcases : ∀ j, p.code j = .done ∨ ∃ t k next, p.code j = .call (.lock t) next ∧
      p.mem.mutex t = some k := by
    intro j
    obtain ⟨e, r, he, hr⟩ := hrest (some (.goes j)) (Or.inl ⟨j, rfl⟩)
    obtain rfl := of_turn_goes he
    obtain ⟨⟨a, q⟩, hq, ho⟩ := Option.map_eq_some_iff.mp hr
    obtain ⟨-, rfl⟩ := Prod.mk.inj ho
    rcases Pool.of_step_self hq with hdone | ⟨op, next, hcode, hblocked⟩
    · exact Or.inl hdone
    · obtain ⟨t, k, rfl, hm⟩ := lock_of_blocked hblocked
      exact Or.inr ⟨t, k, next, hcode, hm⟩
  rcases hcases i with hdone | ⟨t, j, next, hcode, hm⟩
  · exact hdone
  -- the thread that holds the mutex neither waits nor is done
  have hj : t ∈ held p.mem j := hm
  rcases hcases j with hdone | ⟨t', k, next', hcode', -⟩
  · rw [hdisc.done hdone] at hj
    exact absurd hj (Set.notMem_empty t)
  · rw [hp.free j (by rw [hcode']; exact Or.inl ⟨t', rfl⟩)] at hj
    exact absurd hj (Set.notMem_empty t)

/-- A worker that is done takes the next request. -/
theorem workqueue_of_atRest (hworkers : workers.Nonempty) (hdone : ∀ i, p.code i = .done)
    (hrest : AtRest (CacheThreads.step cbHashfunc) Event.turn (turns workers) p) :
    p.mem.server.workqueue = [] := by
  obtain ⟨i, hi⟩ := hworkers
  obtain ⟨e, r, he, hr⟩ := hrest (some (.takes i)) (Or.inr ⟨i, hi, rfl⟩)
  obtain ⟨sent, rfl⟩ := of_turn_takes he
  cases hq : p.mem.server.workqueue with
  | nil => rfl
  | cons request rest =>
    have hstarts : starts p.mem.server (.dequeue i sent) =
        some (i, handle request sent, { p.mem.server with workqueue := rest }) := by
      simp only [starts, hq]
    simp only [CacheThreads.step, hstarts, isDone_iff.mpr (hdone i), if_true] at hr
    have hsame : rest = p.mem.server.workqueue :=
      congrArg (fun o : Obs × System => o.2.mem.server.workqueue) (Option.some.inj hr)
    rw [hq] at hsame
    simp at hsame

end Waiting

section Rest
variable {cbHashfunc : Str → ℤ} {s : CacheServer} {es : List Event} {sched : ℕ → Event}
  {workers : Finset ℕ}

/-- The number of the thread that an event starts. -/
def Event.thread : Event → ℕ
  | .dequeue i _ | .moveData i _ | .recoverBackup i _ | .updateBackup i _ _ _ => i
  | _ => 0

theorem thread_of_starts {e : Event} {s' : CacheServer} {i : ℕ} {c : Prog}
    (h : starts s e = some (i, c, s')) : e.thread = i := by
  rcases starts_cases h with ⟨request, rest, sent, rfl, -⟩ | ⟨net, rfl, -⟩ | ⟨net, rfl, -⟩ |
    ⟨net, sent, ipPort, rfl, -⟩ <;> rfl

/-- The threads from `n` on have not been started. -/
theorem done_of_step {n i : ℕ} {p p' : System} {e : Event} {o : Obs}
    (hp : ∀ i, n ≤ i → p.code i = .done) (he : e.thread < n) (hi : n ≤ i)
    (h : step cbHashfunc p e = some (o, p')) : p'.code i = .done := by
  cases step_cases h with
  | idle => exact hp i hi
  | appended request hroom => exact hp i hi
  | @started _ j c server hs hdone =>
    have hj := thread_of_starts hs
    rw [← hp i hi]
    exact Function.update_of_ne (by omega) _ _
  | @acted j op next r m hcode hop =>
    have hne : i ≠ j := by
      rintro rfl
      rw [hp i hi] at hcode
      cases hcode
    rw [← hp i hi]
    exact Function.update_of_ne hne _ _

/-- How many requests wait in the queue, and what is left of the threads below `n`. -/
def leftover (n : ℕ) (p : System) : ℕ × Multiset Prog :=
  (p.mem.server.workqueue.length, parts (Finset.range n) p.code)

/-- A turn that changes anything takes a request from the queue, or brings a thread nearer to its end. -/
theorem leftover_less {n : ℕ} {p p' : System} {e : Event} {o : Obs} (hp : ∀ i, n ≤ i → p.code i = .done)
    (he : e.turn ∈ turns workers) (h : step cbHashfunc p e = some (o, p')) : p' = p ∨
      Prod.Lex (· < ·) (Relation.CutExpand Code.Next) (leftover n p') (leftover n p) := by
  cases step_cases h with
  | idle => exact Or.inl rfl
  | appended request hroom => rcases he with ⟨i, hi⟩ | ⟨i, -, hi⟩ <;> cases hi
  | @started _ i c server hs hdone =>
    rcases starts_cases hs with ⟨request, rest, sent, -, hq, -, rfl⟩ | ⟨net, rfl, -⟩ |
      ⟨net, rfl, -⟩ | ⟨net, sent, ipPort, rfl, -⟩
    · refine Or.inr (.left _ _ ?_)
      rw [hq]
      exact Nat.lt_succ_self rest.length
    all_goals rcases he with ⟨j, hj⟩ | ⟨j, -, hj⟩ <;> cases hj
  | @acted i op next r m hcode hop =>
    have hi : i < n := by
      by_contra hi
      rw [hp i (by omega)] at hcode
      cases hcode
    have hqueue : m.server.workqueue = p.mem.server.workqueue := (frame_of_perform hop).2.2
    right
    change Prod.Lex _ _ (m.server.workqueue.length, _) (p.mem.server.workqueue.length, _)
    rw [hqueue]
    exact .right _ (Code.next_less (Finset.mem_range.mpr hi) hcode r)

/-- Finitely many threads are started. -/
theorem exists_bound (es : List Event) (hfair : Fair Event.turn (turns workers) sched) :
    ∃ n, ∀ m, ∀ e ∈ es ++ taken sched m, e.thread < n := by
  obtain ⟨n, hn⟩ :=
    (insert 0 ((es.map Event.thread).toFinset ∪ workers)).exists_nat_subset_range
  refine ⟨n, fun m e he => Finset.mem_range.mp (hn ?_)⟩
  rcases List.mem_append.mp he with he | he
  · exact Finset.mem_insert_of_mem (Finset.mem_union_left _
      (List.mem_toFinset.mpr (List.mem_map_of_mem he)))
  · obtain ⟨k, -, rfl⟩ := List.mem_map.mp he
    rcases hfair.only k with ⟨i, hi⟩ | ⟨i, hi, hturn⟩
    · rw [of_turn_goes hi]
      exact Finset.mem_insert_self 0 _
    · obtain ⟨sent, hsent⟩ := of_turn_takes hturn
      rw [hsent]
      exact Finset.mem_insert_of_mem (Finset.mem_union_right _ hi)

/-- When no more requests come, every fair schedule brings all threads to their ends, and none of the
requests that were received stays in the queue, unless it comes to a fault. -/
theorem rests_of_run (hworkers : workers.Nonempty) (hfair : Fair Event.turn (turns workers) sched)
    (ha : ∀ n, Allowed (step cbHashfunc) ReadsSame (idle s) (es ++ taken sched n)) :
    ∃ n, run (step cbHashfunc) (idle s) (es ++ taken sched n) = none ∨ ∃ obs p,
      run (step cbHashfunc) (idle s) (es ++ taken sched n) = some (obs, p) ∧
        (∀ i, p.code i = .done) ∧ (∀ t, p.mem.mutex t = none) ∧ p.mem.server.workqueue = [] := by
  obtain ⟨n, hbound⟩ := exists_bound es hfair
  let I : System → Prop := fun p => Disciplined pairing (fun _ _ => none) p ∧ Single p ∧
    ∀ i, n ≤ i → p.code i = .done
  have hkept : ∀ p e o p', I p → e.thread < n ∧ ReadsSame p e →
      step cbHashfunc p e = some (o, p') → I p' := by
    rintro p e o p' ⟨hdisc, hsingle, hdone⟩ ⟨he, hreads⟩ h
    exact ⟨hdisc.step_pairing hreads h, hsingle.step hdisc h, fun i hi => done_of_step hdone he hi h⟩
  have hidle : I (idle s) := ⟨disciplined_idle s, single_idle s, fun _ _ => rfl⟩
  obtain ⟨m, hm⟩ := hfair.settles (wellFounded_lt.prod_lex Code.wellFounded_next.cutExpand) (leftover n)
    hkept (fun p e o p' hp he h => leftover_less hp.2.2 he h) hidle fun m => (ha m).and (hbound m)
  refine ⟨m, hm.imp id ?_⟩
  rintro ⟨obs, p, hrun, ⟨hdisc, hsingle, -⟩, hrest⟩
  have hdone := hsingle.done_of_atRest hdisc hrest
  exact ⟨obs, p, hrun, hdone, hdisc.free hdone, workqueue_of_atRest hworkers hdone hrest⟩

/-- Without a move no thread reads `state`. -/
theorem readsSame_of_noMove (hes : ∀ e ∈ es, ∀ i net, e ≠ .moveData i net ∧ e ≠ .recoverBackup i net) :
    Allowed (step cbHashfunc) ReadsSame (idle s) es := by
  have hkept : ∀ (p : System) e o p', (∀ i, (p.code i).Only fun op => op ≠ .readState) →
      (∀ i net, e ≠ .moveData i net ∧ e ≠ .recoverBackup i net) →
      step cbHashfunc p e = some (o, p') → ∀ i, (p'.code i).Only fun op => op ≠ .readState := by
    intro p e o p' hp he h i
    cases step_cases h with
    | idle => exact hp i
    | appended request hroom => exact hp i
    | @started _ j c server hs hdone =>
      have hc : c.Only fun op => op ≠ .readState := by
        rcases starts_cases hs with ⟨request, rest, sent, -, -, rfl, -⟩ | ⟨net, rfl, -⟩ |
          ⟨net, rfl, -⟩ | ⟨net, sent, ipPort, -, rfl, -⟩
        · unfold handle
          split_ifs
          · exact only_setIn.mono (by rintro _ (_ | _ | _ | _ | _) <;> exact nofun)
          · exact only_getFrom.mono (by rintro _ (_ | _ | _ | _) <;> exact nofun)
          · exact only_setIn.mono (by rintro _ (_ | _ | _ | _ | _) <;> exact nofun)
          · exact only_getFrom.mono (by rintro _ (_ | _ | _ | _) <;> exact nofun)
          · exact ⟨nofun, fun _ => trivial⟩
        · exact absurd rfl (he _ _).1
        · exact absurd rfl (he _ _).2
        · exact only_update.mono (by rintro _ (_ | _ | _) <;> exact nofun)
      by_cases hi : i = j
      · subst hi
        simpa using hc
      · simpa [hi] using hp i
    | @acted j op next r m hcode hop =>
      by_cases hi : i = j
      · subst hi
        have hnext := hp i
        rw [hcode] at hnext
        simpa using hnext.2 r
      · simpa [hi] using hp i
  refine allowed_of_invariant hkept ?_ (fun _ => trivial) hes
  intro p e hp _
  cases e with
  | step i =>
    intro next hcode
    have hi := hp i
    rw [hcode] at hi
    exact absurd rfl hi.1
  | _ => trivial

/-- The turns of two workers and of all threads. -/
def someTurns : ℕ → Event
  | 0 => .dequeue 1 true
  | 1 => .dequeue 2 true
  | i + 2 => .step i

theorem mem_turns_two (k : Option Turn) : k ∈ turns {1, 2} ↔ ∃ i, (someTurns i).turn = k := by
  constructor
  · rintro (⟨i, rfl⟩ | ⟨i, hi, rfl⟩)
    · exact ⟨i + 2, rfl⟩
    · rcases Finset.mem_insert.mp hi with rfl | hi
      · exact ⟨0, rfl⟩
      · rw [Finset.mem_singleton.mp hi]
        exact ⟨1, rfl⟩
  · rintro ⟨_ | _ | i, rfl⟩
    · exact Or.inr ⟨1, by decide, rfl⟩
    · exact Or.inr ⟨2, by decide, rfl⟩
    · exact Or.inl ⟨i, rfl⟩

/-- A write, a read of the same key and a refresh of a backup; the worker 1 holds the mutex of the
write when the worker 2 takes the read. -/
def busyStart : List Event :=
  [.append ⟨Code.setValue, [], lit "k", lit "v", 5⟩, .append ⟨Code.getValue, [], lit "k", [], 6⟩,
    .append ⟨Code.setValue, [], lit "k", lit "w", 5⟩, .updateBackup 3 (someNet 0) (fun _ => true)
      (lit "10.0.0.2:6001"), .dequeue 1 true, .step 1, .dequeue 2 true]

theorem rests_of_busyStart : ∃ n, run (step fun _ => 0) (idle .new)
      (busyStart ++ taken (fun n => someTurns n.unpair.1) n) = none ∨ ∃ obs p,
    run (step fun _ => 0) (idle .new) (busyStart ++ taken (fun n => someTurns n.unpair.1) n) =
        some (obs, p) ∧
      (∀ i, p.code i = .done) ∧ (∀ t, p.mem.mutex t = none) ∧ p.mem.server.workqueue = [] := by
  refine rests_of_run (Finset.insert_nonempty 1 {2}) (fair_unpair mem_turns_two) fun n =>
    readsSame_of_noMove ?_
  intro e he i net
  rcases List.mem_append.mp he with he | he
  · simp only [busyStart, List.mem_cons, List.not_mem_nil, or_false] at he
    rcases he with rfl | rfl | rfl | rfl | rfl | rfl | rfl <;> exact ⟨nofun, nofun⟩
  · obtain ⟨k, -, rfl⟩ := List.mem_map.mp he
    rcases k.unpair.1 with _ | _ | j <;> exact ⟨nofun, nofun⟩

end Rest
end DCache.CacheThreads
