import DCache.Cache.Threads

/-! A cache server with its threads. The event loop queues requests and starts threads, the workers
take requests from the queue, and every thread goes on step by step, in any order. -/
namespace DCache.CacheThreads
open DCache.Lib
open CacheServer (Net Request)

abbrev System := Pool ℕ Shared Op.Res

/-- No thread runs, and both mutexes are free. -/
def idle (s : CacheServer) : System := ⟨⟨s, fun _ => none⟩, fun _ => .done⟩

/-- `recoverBackup` sets `state` before it starts its thread. Threads are numbered. -/
inductive Event
  | append (request : Request)
  | dequeue (i : ℕ) (sent : Bool)
  | moveData (i : ℕ) (net : ℕ → Net)
  | recoverBackup (i : ℕ) (net : ℕ → Net)
  | updateBackup (i : ℕ) (net : Net) (sent : ℕ → Bool) (ipPort : Str)
  | step (i : ℕ)

/-- What an event does that changes anything. -/
inductive Obs
  | idle
  | appended (request : Request)
  | started (i : ℕ)
  | acted (i : ℕ) (action : Action Op.Res)

/-- The thread that an event starts, its code, and what the event does to the server. A worker that is
woken by the semaphore and takes a request is one event here, and an empty queue starts nothing. -/
def starts (s : CacheServer) : Event → Option (ℕ × Prog × CacheServer)
  | .dequeue i sent =>
    match s.workqueue with
    | [] => none
    | request :: rest => some (i, handle request sent, { s with workqueue := rest })
  | .moveData i net => some (i, move s.localAddr net, s)
  | .recoverBackup i net => some (i, move s.localAddr net, { s with state := 1 })
  | .updateBackup i net sent ipPort => some (i, update net sent ipPort, s)
  | _ => none

def isDone : Prog → Bool
  | .done => true
  | _ => false

/-- A worker that is busy takes no request, and a number that is in use starts no thread. -/
def step (cbHashfunc : Str → ℤ) (p : System) : Event → Option (Obs × System)
  | .append request =>
    let (ok, server) := p.mem.server.append request
    some (if ok then .appended request else .idle, { p with mem := { p.mem with server := server } })
  | .step i => (p.step (perform cbHashfunc) i).map fun o =>
    (match o.1 with
      | none => .idle
      | some (i, action) => .acted i action, o.2)
  | e =>
    match starts p.mem.server e with
    | none => some (.idle, p)
    | some (i, c, server) =>
      if isDone (p.code i) then
        some (.started i, ⟨{ p.mem with server := server }, Function.update p.code i c⟩)
      else some (.idle, p)

section Cases
variable {cbHashfunc : Str → ℤ} {p p' : System} {e : Event} {o : Obs}

theorem isDone_iff {c : Prog} : isDone c = true ↔ c = .done := by
  cases c <;> simp [isDone]

/-- All that an event can do. -/
inductive Transition (cbHashfunc : Str → ℤ) (p : System) : Event → Obs → System → Prop
  | idle (e : Event) : Transition cbHashfunc p e .idle p
  | appended (request : Request) (hroom : p.mem.server.workqueue.length < CacheServer.maxRequests) :
    Transition cbHashfunc p (.append request) (.appended request) { p with
      mem := { p.mem with
        server := { p.mem.server with workqueue := p.mem.server.workqueue ++ [request] } } }
  | started {e : Event} {i : ℕ} {c : Prog} {server : CacheServer}
    (hstart : starts p.mem.server e = some (i, c, server)) (hdone : p.code i = .done) :
    Transition cbHashfunc p e (.started i)
      ⟨{ p.mem with server := server }, Function.update p.code i c⟩
  | acted {i : ℕ} {op : Op} {next : op.Res → Prog} {r : op.Res} {m : Shared}
    (hcode : p.code i = .call op next) (hop : perform cbHashfunc i op p.mem = .ok r m) :
    Transition cbHashfunc p (.step i) (.acted i ⟨op, r⟩) ⟨m, Function.update p.code i (next r)⟩

theorem step_cases (h : step cbHashfunc p e = some (o, p')) : Transition cbHashfunc p e o p' := by
  have hstart : ∀ {e}, (match starts p.mem.server e with
      | none => some (Obs.idle, p)
      | some (i, c, server) => if isDone (p.code i) = true then
          some (.started i, ⟨{ p.mem with server := server }, Function.update p.code i c⟩)
        else some (.idle, p)) = some (o, p') → Transition cbHashfunc p e o p' := by
    intro e h
    cases hs : starts p.mem.server e with
    | none =>
      rw [hs] at h
      obtain ⟨rfl, rfl⟩ := Prod.mk.inj (Option.some.inj h)
      exact .idle e
    | some t =>
      obtain ⟨i, c, server⟩ := t
      simp only [hs] at h
      split_ifs at h with hdone
      · obtain ⟨rfl, rfl⟩ := Prod.mk.inj (Option.some.inj h)
        exact .started hs (isDone_iff.mp hdone)
      · obtain ⟨rfl, rfl⟩ := Prod.mk.inj (Option.some.inj h)
        exact .idle e
  cases e with
  | append request =>
    by_cases hfull : p.mem.server.workqueue.length ≥ CacheServer.maxRequests
    · have happend : p.mem.server.append request = (false, p.mem.server) := if_pos hfull
      simp only [step, happend] at h
      obtain ⟨rfl, rfl⟩ := Prod.mk.inj (Option.some.inj h)
      exact .idle _
    · have happend : p.mem.server.append request = (true, { p.mem.server with
          workqueue := p.mem.server.workqueue ++ [request] }) := if_neg hfull
      simp only [step, happend] at h
      obtain ⟨rfl, rfl⟩ := Prod.mk.inj (Option.some.inj h)
      exact .appended request (by omega)
  | step i =>
    obtain ⟨⟨a, q⟩, hq, ho⟩ := Option.map_eq_some_iff.mp h
    obtain ⟨rfl, rfl⟩ := Prod.mk.inj ho
    rcases Pool.step_cases hq with ⟨rfl, rfl⟩ | ⟨op, next, r, m, hcode, hop, rfl, rfl⟩
    · exact .idle _
    · exact .acted hcode hop
  | dequeue i sent => exact hstart h
  | moveData i net => exact hstart h
  | recoverBackup i net => exact hstart h
  | updateBackup i net sent ipPort => exact hstart h

/-- An operation that returns is a step of its thread. -/
theorem step_acted {i : ℕ} {op : Op} {next : op.Res → Prog} {r : op.Res} {m : Shared}
    (hcode : p.code i = .call op next) (hop : perform cbHashfunc i op p.mem = .ok r m) :
    step cbHashfunc p (.step i) =
      some (.acted i ⟨op, r⟩, ⟨m, Function.update p.code i (next r)⟩) := by
  change (p.step (perform cbHashfunc) i).map _ = _
  rw [Pool.step_ok hcode hop]
  rfl

section Table
variable {i : ℕ} {op : Op} {r : op.Res} {m m' : Shared}

theorem table_withTable (s : CacheServer) (t t' : Table) (c : LRU.Cache Str Str) :
    table (withTable s t c) t' = if t' = t then c else table s t' := by
  cases t <;> cases t' <;> rfl

/-- All that a step can do to one entry of a table: it stores it, evicts it by another, or marks
it. -/
theorem find_of_perform (h : perform cbHashfunc i op m = .ok r m') (t : Table) (key : Str) :
    LRU.find (table m'.server t).entries key = LRU.find (table m.server t).entries key ∨
    (∃ value, op = .set t key value ∧
      LRU.find (table m'.server t).entries key = some ⟨key, value, false⟩) ∨
    (∃ key' value, op = .set t key' value ∧ key' ≠ key ∧
      LRU.find (table m'.server t).entries key = none) ∨
    op = .setDirty t key ∧ LRU.find (table m'.server t).entries key =
      (LRU.find (table m.server t).entries key).map (fun e => { e with dirty := true }) := by
  cases op with
  | lock t' =>
    obtain ⟨-, rfl⟩ := of_perform_lock h
    exact Or.inl rfl
  | owner key' =>
    obtain ⟨-, rfl⟩ := of_perform_owner h
    exact Or.inl rfl
  | get t' key' =>
    obtain ⟨c, hget, rfl⟩ := of_perform_get h
    left
    change LRU.find (table (withTable m.server t' c) t).entries key = _
    rw [table_withTable]
    split_ifs with ht
    · subst ht
      exact ((table m.server t).of_get key' _ hget).2 key
    · rfl
  | set t' key' value =>
    obtain ⟨-, rfl⟩ := Outcome.of_ok h
    change LRU.find (table (withTable m.server t' ((table m.server t').set key' value)) t).entries
      key = _ ∨ (∃ _, _ ∧ LRU.find (table (withTable m.server t' _) t).entries key = _) ∨
      (∃ _ _, _ ∧ _ ∧ LRU.find (table (withTable m.server t' _) t).entries key = _) ∨ _
    rw [table_withTable]
    by_cases ht : t = t'
    · subst ht
      rw [if_pos rfl]
      by_cases hk : key' = key
      · subst hk
        exact Or.inr (Or.inl ⟨value, rfl, (table m.server t).find_set_self key' value⟩)
      · rcases (table m.server t).find_set_of_ne value (Ne.symm hk) with hf | hf
        · exact Or.inl hf
        · exact Or.inr (Or.inr (Or.inl ⟨key', value, rfl, hk, hf⟩))
    · rw [if_neg ht]
      exact Or.inl rfl
  | setDirty t' key' =>
    obtain ⟨-, rfl⟩ := Outcome.of_ok h
    change LRU.find (table (withTable m.server t' ((table m.server t').setDirty key')) t).entries
      key = _ ∨ _ ∨ _ ∨ _ ∧ LRU.find (table (withTable m.server t' _) t).entries key = _
    rw [table_withTable]
    by_cases ht : t = t'
    · subst ht
      rw [if_pos rfl, LRU.Cache.find_setDirty]
      by_cases hk : key = key'
      · subst hk
        refine Or.inr (Or.inr (Or.inr ⟨rfl, ?_⟩))
        simp only [if_true]
      · simp [hk]
    · rw [if_neg ht]
      exact Or.inl rfl
  | _ =>
    obtain ⟨-, rfl⟩ := Outcome.of_ok h
    exact Or.inl rfl

end Table

/-- A thread is started with one of these. -/
theorem starts_cases {s s' : CacheServer} {i : ℕ} {c : Prog} (h : starts s e = some (i, c, s')) :
    (∃ request rest sent, e = .dequeue i sent ∧ s.workqueue = request :: rest ∧
      c = handle request sent ∧ s' = { s with workqueue := rest }) ∨
    (∃ net, e = .moveData i net ∧ c = move s.localAddr net ∧ s' = s) ∨
    (∃ net, e = .recoverBackup i net ∧ c = move s.localAddr net ∧ s' = { s with state := 1 }) ∨
    ∃ net sent ipPort, e = .updateBackup i net sent ipPort ∧ c = update net sent ipPort ∧
      s' = s := by
  cases e with
  | append request => cases h
  | step i => cases h
  | dequeue j sent =>
    unfold starts at h
    cases hq : s.workqueue with
    | nil =>
      rw [hq] at h
      cases h
    | cons request rest =>
      simp only [hq, Option.some.injEq, Prod.mk.injEq] at h
      obtain ⟨rfl, rfl, rfl⟩ := h
      exact Or.inl ⟨request, rest, sent, rfl, rfl, rfl, rfl⟩
  | moveData j net =>
    simp only [starts, Option.some.injEq, Prod.mk.injEq] at h
    obtain ⟨rfl, rfl, rfl⟩ := h
    exact Or.inr (Or.inl ⟨net, rfl, rfl, rfl⟩)
  | recoverBackup j net =>
    simp only [starts, Option.some.injEq, Prod.mk.injEq] at h
    obtain ⟨rfl, rfl, rfl⟩ := h
    exact Or.inr (Or.inr (Or.inl ⟨net, rfl, rfl, rfl⟩))
  | updateBackup j net sent ipPort =>
    simp only [starts, Option.some.injEq, Prod.mk.injEq] at h
    obtain ⟨rfl, rfl, rfl⟩ := h
    exact Or.inr (Or.inr (Or.inr ⟨net, sent, ipPort, rfl, rfl, rfl⟩))

theorem table_of_starts {s s' : CacheServer} {i : ℕ} {c : Prog} (h : starts s e = some (i, c, s'))
    (t : Table) : table s' t = table s t := by
  rcases starts_cases h with ⟨_, _, _, -, -, -, rfl⟩ | ⟨_, -, -, rfl⟩ | ⟨_, -, -, rfl⟩ |
    ⟨_, _, _, -, -, rfl⟩ <;> cases t <;> rfl

theorem frame_of_starts {s s' : CacheServer} {i : ℕ} {c : Prog} (h : starts s e = some (i, c, s')) :
    s'.cacheServerHash = s.cacheServerHash ∧ s'.localAddr = s.localAddr := by
  rcases starts_cases h with ⟨_, _, _, -, -, -, rfl⟩ | ⟨_, -, -, rfl⟩ | ⟨_, -, -, rfl⟩ |
    ⟨_, _, _, -, -, rfl⟩ <;> exact ⟨rfl, rfl⟩

theorem state_of_starts {s s' : CacheServer} {i : ℕ} {c : Prog} (h : starts s e = some (i, c, s'))
    (hnet : ∀ net, e ≠ .recoverBackup i net) : s'.state = s.state := by
  rcases starts_cases h with ⟨_, _, _, -, -, -, rfl⟩ | ⟨_, -, -, rfl⟩ | ⟨net, he, -, -⟩ |
    ⟨_, _, _, -, -, rfl⟩
  · rfl
  · rfl
  · exact absurd he (hnet net)
  · rfl

/-- A thread that is scheduled alone does what the function of the server does. -/
theorem run_of_runs {i : ℕ} {calls : List CacheServer.SysCall} {m : Shared}
    (h : Runs cbHashfunc i (p.code i) p.mem calls m) :
    ∃ n obs, run (step cbHashfunc) p (List.replicate n (.step i)) =
      some (obs, ⟨m, Function.update p.code i .done⟩) := by
  have hsteps : ∀ (n : ℕ) (p p' : System) (os : List (Option (ℕ × Action Op.Res))),
      run (Pool.step (perform cbHashfunc)) p (List.replicate n i) = some (os, p') →
        ∃ obs, run (step cbHashfunc) p (List.replicate n (.step i)) = some (obs, p') := by
    intro n
    induction n with
    | zero =>
      intro p p' os h
      obtain ⟨-, rfl⟩ := Prod.mk.inj (Option.some.inj h)
      exact ⟨[], rfl⟩
    | succ n ih =>
      intro p p' os h
      cases hp : p.step (perform cbHashfunc) i with
      | none => simp [List.replicate_succ, run, hp] at h
      | some o =>
        rw [List.replicate_succ, run_cons hp, Option.map_eq_some_iff] at h
        obtain ⟨⟨os', p₁⟩, hrest, ho⟩ := h
        obtain ⟨-, rfl⟩ := Prod.mk.inj ho
        obtain ⟨obs, hobs⟩ := ih _ _ _ hrest
        let seen : Obs := match o.1 with
          | none => .idle
          | some (i, action) => .acted i action
        have hstep : step cbHashfunc p (.step i) = some (seen, o.2) := by
          change (p.step (perform cbHashfunc) i).map _ = _
          rw [hp]
          rfl
        refine ⟨seen :: obs, ?_⟩
        rw [List.replicate_succ, run_cons hstep, hobs]
        rfl
  obtain ⟨actions, hexec, -⟩ := h
  obtain ⟨obs, hobs⟩ := hsteps _ _ _ _ (Pool.run_of_exec hexec rfl)
  exact ⟨actions.length, obs, hobs⟩

end Cases

section Stored
variable {cbHashfunc : Str → ℤ} {p p' : System} {e : Event} {o : Obs}

/-- The value that is stored under the key in `lru`, if any. -/
def Obs.stored (key : Str) : Obs → Option Str
  | .acted _ ⟨.set .lru key' value, _⟩ => if key' = key then some value else none
  | _ => none

/-- The values that were stored under the key in `lru`, in their order. -/
def stored (key : Str) (obs : List Obs) : List Str := obs.filterMap (Obs.stored key)

/-- The value that was stored last, or the one at the start. -/
def lastStored (s : CacheServer) (key : Str) (obs : List Obs) : Option Str :=
  (stored key obs).getLast?.or ((LRU.find s.lru.entries key).map LRU.Entry.val)

theorem stored_concat (key : Str) (obs : List Obs) (o : Obs) :
    stored key (obs ++ [o]) = stored key obs ++ (o.stored key).toList := by
  rw [stored, List.filterMap_append, stored]
  cases h : o.stored key <;> simp [h]

theorem stored_acted {i : ℕ} {op : Op} {r : op.Res} {key value : Str}
    (h : Obs.stored key (.acted i ⟨op, r⟩) = some value) : op = .set .lru key value := by
  cases op with
  | set t key' value' =>
    cases t with
    | lru =>
      simp only [Obs.stored] at h
      split_ifs at h with hk
      rw [hk, Option.some.inj h]
    | lruBackup => cases h
  | _ => cases h

/-- An entry has the value that was stored last under its key. -/
def Recorded (s : CacheServer) (obs : List Obs) (p : System) : Prop :=
  ∀ key e, LRU.find p.mem.server.lru.entries key = some e → lastStored s key obs = some e.val

theorem recorded_idle (s : CacheServer) : Recorded s [] (idle s) := fun key e he => by
  change (LRU.find s.lru.entries key).map LRU.Entry.val = some e.val
  have hfind : LRU.find s.lru.entries key = some e := he
  rw [hfind]
  rfl

theorem Recorded.step {s : CacheServer} {obs : List Obs} (hp : Recorded s obs p)
    (h : step cbHashfunc p e = some (o, p')) : Recorded s (obs ++ [o]) p' := by
  have hsame : ∀ key, o.stored key = none → lastStored s key (obs ++ [o]) = lastStored s key obs := by
    intro key ho
    rw [lastStored, stored_concat, ho]
    simp [lastStored]
  cases step_cases h with
  | idle =>
    intro key e he
    rw [hsame key rfl]
    exact hp key e he
  | appended request hroom =>
    intro key e he
    rw [hsame key rfl]
    exact hp key e he
  | @started _ i c server hs hdone =>
    intro key e he
    rw [hsame key rfl]
    apply hp key e
    have htable := table_of_starts hs .lru
    simp only [table] at htable
    rw [← htable]
    exact he
  | @acted i op next r m hcode hop =>
    intro key e he
    have hfind := find_of_perform hop .lru key
    simp only [table] at hfind
    cases ho : Obs.stored key (.acted i ⟨op, r⟩) with
    | some value =>
      obtain rfl := stored_acted ho
      obtain ⟨-, rfl⟩ := Outcome.of_ok hop
      have hset : LRU.find (p.mem.server.lru.set key value).entries key = some e := he
      rw [LRU.Cache.find_set_self, Option.some.injEq] at hset
      rw [lastStored, stored_concat, ho, ← hset]
      simp
    | none =>
      rw [hsame key ho]
      rcases hfind with hf | ⟨value, rfl, -⟩ | ⟨key', value, -, -, hf⟩ | ⟨-, hf⟩
      · rw [hf] at he
        exact hp key e he
      · simp [Obs.stored] at ho
      · rw [hf] at he
        cases he
      · rw [hf] at he
        obtain ⟨e', he', rfl⟩ := Option.map_eq_some_iff.mp he
        exact hp key e' he'

end Stored
end DCache.CacheThreads
