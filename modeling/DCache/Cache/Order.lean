import DCache.Cache.Locks

/-! The order of writes. Requests are taken from the queue in the order in which they were received,
and the workers store their values in the order in which they lock `lru_mutex`. -/
namespace DCache.CacheThreads
open DCache.Lib
open CacheServer (Net Request)

/-- The thread may store a value under the key in `lru`. -/
def StoresKey (key : Str) (c : Prog) : Prop :=
  c.May (fun op => ∃ value, op = .set .lru key value) fun _ _ => False

/-- The value that the request sets the key to. -/
def setOf (key : Str) (request : Request) : Option Str :=
  if request.requestType = Code.setValue ∧ request.key = key then some request.value else none

section Codes
variable {key : Str}

theorem not_stores_done : ¬ StoresKey key .done := Code.not_may_done

theorem not_stores_leave (t : Table) : ¬ StoresKey key (leave t) :=
  Code.not_may_call (by simp) fun _ _ => not_stores_done

theorem not_stores_setIn {t : Table} {key' : Str} (h : t = .lru → key' ≠ key) (value : Str) :
    ¬ StoresKey key (setIn t key' value) := by
  apply only_setIn.not_may
  rintro op hop ⟨value', rfl⟩
  cases hop
  exact h rfl rfl

theorem not_stores_getFrom (t : Table) (key' : Str) (cfd : ℤ) (sent : Bool) :
    ¬ StoresKey key (getFrom t key' cfd sent) :=
  only_getFrom.not_may fun op hop => by cases hop <;> simp

theorem not_stores_handle {request : Request} (h : setOf key request = none) (sent : Bool) :
    ¬ StoresKey key (handle request sent) := by
  unfold handle
  split_ifs with hset
  · refine not_stores_setIn (fun _ hk => ?_) _
    rw [setOf, if_pos ⟨hset, hk⟩] at h
    cases h
  · exact not_stores_getFrom _ _ _ _
  · exact not_stores_setIn (fun ht => by cases ht) _
  · exact not_stores_getFrom _ _ _ _
  · exact Code.not_may_call (by simp) fun _ _ => not_stores_done

theorem not_stores_update (net : Net) (sent : ℕ → Bool) (ipPort : Str) :
    ¬ StoresKey key (update net sent ipPort) :=
  only_update.not_may fun op hop => by cases hop <;> simp

theorem not_stores_move (localAddr : Str) (net : ℕ → Net) : ¬ StoresKey key (move localAddr net) := by
  refine only_move.not_may fun op hop => ?_
  cases hop with
  | endMove h => cases h <;> simp
  | _ => simp

end Codes

section History

def Obs.accepted (key : Str) : Obs → Option Str
  | .appended request => setOf key request
  | _ => none

/-- The values that the key is set to by the requests that were received, in their order. -/
def received (key : Str) (s : CacheServer) (obs : List Obs) : List Str :=
  s.workqueue.filterMap (setOf key) ++ obs.filterMap (Obs.accepted key)

/-- The key was not found dirty. -/
def NoneRefused (key : Str) (obs : List Obs) : Prop :=
  ∀ i, .acted i ⟨.isDirty .lru key, true⟩ ∉ obs

/-- The workers that have taken a request to set the key and have not locked `lru_mutex` since, with
the values, in the order in which they took them. -/
def waiting (key : Str) (w : List (ℕ × Str)) (p : System) : Event → Obs → List (ℕ × Str)
  | .dequeue _ _, .started i =>
    match p.mem.server.workqueue.head?.bind (setOf key) with
    | none => w
    | some value => w ++ [(i, value)]
  | _, .acted i ⟨.lock .lru, _⟩ => w.filter (fun x => x.1 ≠ i)
  | _, _ => w

/-- The system with the list of the waiting workers. -/
def stepWaiting (cbHashfunc : Str → ℤ) (key : Str) :
    System × List (ℕ × Str) → Event → Option (Obs × (System × List (ℕ × Str))) :=
  annotate (step cbHashfunc) (waiting key)

/-- A worker does not overtake another one that waits to set the same key. -/
def InTurn (key : Str) (x : System × List (ℕ × Str)) : Event → Prop
  | .step i => x.1.mem.mutex .lru = none → ∀ value, x.1.code i = setValue key value →
    x.2.head?.map Prod.fst = some i
  | _ => True

/-- A worker in its section. -/
def InSection (key value : Str) (c : Prog) : Prop :=
  c = locked .lru key value ∨
  c = (.call (.isDirty .lru key) fun (dirty : Bool) =>
    if dirty then leave .lru else .call (.set .lru key value) fun _ => leave .lru) ∨
  c = .call (.set .lru key value) fun _ => leave .lru

/-- The values that are still to be stored are those of the workers that wait, and that of the worker
in its section. -/
structure Carries (key : Str) (p : System) (w : List (ℕ × Str)) (inside : Option Str) : Prop where
  nodup : (w.map Prod.fst).Nodup
  waits : ∀ x ∈ w, p.code x.1 = setValue key x.2
  holds : ∀ value, inside = some value →
    ∃ i, p.mem.mutex .lru = some i ∧ InSection key value (p.code i)
  others : ∀ i, StoresKey key (p.code i) →
    i ∈ w.map Prod.fst ∨ inside.isSome = true ∧ p.mem.mutex .lru = some i

/-- What was stored, and what is still to be stored. -/
def underway (key : Str) (obs : List Obs) (p : System) (w : List (ℕ × Str))
    (inside : Option Str) : List Str :=
  stored key obs ++ (inside.toList ++ (w.map Prod.snd ++
    p.mem.server.workqueue.filterMap (setOf key)))

/-- `l` is what was received, less what was refused. -/
def Agrees (key : Str) (s : CacheServer) (obs : List Obs) (l : List Str) : Prop :=
  l.Sublist (received key s obs) ∧ (NoneRefused key obs → l = received key s obs)

def InOrder (key : Str) (s : CacheServer) (obs : List Obs) (x : System × List (ℕ × Str)) : Prop :=
  ∃ inside, Carries key x.1 x.2 inside ∧ Agrees key s obs (underway key obs x.1 x.2 inside)

end History

section Lists
variable {key : Str} {s : CacheServer} {obs : List Obs} {o : Obs} {l l' : List Str}

theorem received_concat : received key s (obs ++ [o]) =
    received key s obs ++ (o.accepted key).toList := by
  rw [received, received, List.filterMap_append, List.append_assoc]
  cases h : o.accepted key <;> simp [h]

theorem NoneRefused.of_concat (h : NoneRefused key (obs ++ [o])) : NoneRefused key obs :=
  fun i hmem => h i (List.mem_append_left _ hmem)

theorem Agrees.quiet (h : Agrees key s obs l) (ho : o.accepted key = none) :
    Agrees key s (obs ++ [o]) l := by
  rw [Agrees, received_concat, ho]
  simpa using ⟨h.1, fun hnone => h.2 hnone.of_concat⟩

theorem Agrees.accept (h : Agrees key s obs l) :
    Agrees key s (obs ++ [o]) (l ++ (o.accepted key).toList) := by
  rw [Agrees, received_concat]
  exact ⟨h.1.append_right _, fun hnone => by rw [h.2 hnone.of_concat]⟩

theorem Agrees.refuse {i : ℕ} (h : Agrees key s obs l) (hl : l'.Sublist l) :
    Agrees key s (obs ++ [.acted i ⟨.isDirty .lru key, true⟩]) l' := by
  refine ⟨?_, fun hnone => ?_⟩
  · rw [received_concat]
    exact (hl.trans h.1).trans (List.sublist_append_left _ _)
  · exact absurd (List.mem_append_right _ (List.mem_singleton_self _)) (hnone i)

end Lists

section Carries
variable {key value : Str} {p : System} {w : List (ℕ × Str)} {inside : Option Str} {i : ℕ}
  {c : Prog} {m : Shared}

theorem code_self : (⟨m, Function.update p.code i c⟩ : System).code i = c := Function.update_self ..

theorem code_of_ne {k : ℕ} (h : k ≠ i) :
    (⟨m, Function.update p.code i c⟩ : System).code k = p.code k := Function.update_of_ne h ..

theorem ne_of_inSection (h : InSection key value c) : c ≠ .done ∧ ∀ value', c ≠ setValue key value' := by
  rcases h with rfl | rfl | rfl <;> exact ⟨nofun, nofun⟩

/-- A thread that does not carry a value goes on. -/
theorem Carries.other (hp : Carries key p w inside) (hi : i ∉ w.map Prod.fst)
    (hin : ∀ value, inside = some value →
      m.mutex .lru = p.mem.mutex .lru ∧ p.mem.mutex .lru ≠ some i)
    (hc : ¬ StoresKey key c) : Carries key ⟨m, Function.update p.code i c⟩ w inside where
  nodup := hp.nodup
  waits x hx := by
    have hne : x.1 ≠ i := fun heq => hi (heq ▸ List.mem_map_of_mem hx)
    rw [code_of_ne hne]
    exact hp.waits x hx
  holds value hvalue := by
    obtain ⟨k, hk, hsection⟩ := hp.holds value hvalue
    obtain ⟨hsame, hother⟩ := hin value hvalue
    have hne : k ≠ i := fun heq => hother (heq ▸ hk)
    refine ⟨k, hsame.trans hk, ?_⟩
    rw [code_of_ne hne]
    exact hsection
  others k hk := by
    by_cases hki : k = i
    · subst hki
      rw [code_self] at hk
      exact absurd hk hc
    · rw [code_of_ne hki] at hk
      refine (hp.others k hk).imp_right fun hinside => ⟨hinside.1, ?_⟩
      obtain ⟨value, hvalue⟩ := Option.isSome_iff_exists.mp hinside.1
      exact (hin value hvalue).1.trans hinside.2

/-- Who is done neither waits nor is in its section. -/
theorem Carries.of_done (hp : Carries key p w inside) (hdone : p.code i = .done) :
    i ∉ w.map Prod.fst ∧ (inside.isSome = true → p.mem.mutex .lru ≠ some i) := by
  constructor
  · intro hmem
    obtain ⟨x, hx, rfl⟩ := List.mem_map.mp hmem
    have hwait := hp.waits x hx
    rw [hdone] at hwait
    cases hwait
  · intro hinside hi
    obtain ⟨value, rfl⟩ := Option.isSome_iff_exists.mp hinside
    obtain ⟨k, hk, hsection⟩ := hp.holds value rfl
    obtain rfl : k = i := Option.some.inj (hk.symm.trans hi)
    exact (ne_of_inSection hsection).1 hdone

theorem Carries.start (hp : Carries key p w inside) (hdone : p.code i = .done)
    (hm : m.mutex = p.mem.mutex) (hc : ¬ StoresKey key c) :
    Carries key ⟨m, Function.update p.code i c⟩ w inside := by
  obtain ⟨hi, hin⟩ := hp.of_done hdone
  refine hp.other hi (fun value hvalue => ⟨by rw [hm], hin ?_⟩) hc
  rw [hvalue]
  rfl

/-- A worker takes a request to set the key. -/
theorem Carries.take (hp : Carries key p w inside) (hdone : p.code i = .done)
    (hm : m.mutex = p.mem.mutex) :
    Carries key ⟨m, Function.update p.code i (setValue key value)⟩ (w ++ [(i, value)]) inside := by
  obtain ⟨hi, hin⟩ := hp.of_done hdone
  refine ⟨?_, fun x hx => ?_, fun v hv => ?_, fun k hk => ?_⟩
  · rw [List.map_append, List.nodup_append]
    refine ⟨hp.nodup, by simp, fun a ha b hb hab => hi ?_⟩
    obtain rfl : b = i := by simpa using hb
    exact hab ▸ ha
  · rcases List.mem_append.mp hx with hx | hx
    · have hne : x.1 ≠ i := fun heq => hi (heq ▸ List.mem_map_of_mem hx)
      rw [code_of_ne hne]
      exact hp.waits x hx
    · rw [List.mem_singleton.mp hx, code_self]
  · obtain ⟨k, hk, hsection⟩ := hp.holds v hv
    have hne : k ≠ i := fun heq => hin (by rw [hv]; rfl) (heq ▸ hk)
    refine ⟨k, by rw [hm]; exact hk, ?_⟩
    rw [code_of_ne hne]
    exact hsection
  · rw [List.map_append, List.mem_append]
    by_cases hki : k = i
    · subst hki
      exact Or.inl (Or.inr (List.mem_singleton_self _))
    · rw [code_of_ne hki] at hk
      rw [hm]
      exact (hp.others k hk).imp_left Or.inl

/-- The worker that has waited longest enters its section. -/
theorem Carries.enter (hp : Carries key p ((i, value) :: w) inside)
    (hfree : p.mem.mutex .lru = none) :
    inside = none ∧ Carries key ⟨p.mem.setMutex .lru (some i),
      Function.update p.code i (locked .lru key value)⟩ w (some value) := by
  have hout : inside = none := by
    cases hinside : inside with
    | none => rfl
    | some v =>
      obtain ⟨k, hk, -⟩ := hp.holds v hinside
      rw [hfree] at hk
      cases hk
  subst hout
  have hnodup := hp.nodup
  rw [List.map_cons, List.nodup_cons] at hnodup
  have hmutex : (p.mem.setMutex .lru (some i)).mutex .lru = some i := by
    simp [Shared.setMutex]
  refine ⟨rfl, hnodup.2, fun x hx => ?_, fun v hv => ?_, fun k hk => ?_⟩
  · have hmem : x.1 ∈ w.map Prod.fst := List.mem_map_of_mem hx
    have hne : x.1 ≠ i := fun heq => hnodup.1 (heq ▸ hmem)
    rw [code_of_ne hne]
    exact hp.waits x (List.mem_cons_of_mem _ hx)
  · obtain rfl := Option.some.inj hv
    refine ⟨i, hmutex, ?_⟩
    rw [code_self]
    exact Or.inl rfl
  · by_cases hki : k = i
    · subst hki
      exact Or.inr ⟨rfl, hmutex⟩
    · rw [code_of_ne hki] at hk
      rcases hp.others k hk with hmem | ⟨hsome, -⟩
      · exact Or.inl ((List.mem_cons.mp hmem).resolve_left hki)
      · cases hsome

/-- The worker in its section goes on in it. -/
theorem Carries.proceed (hp : Carries key p w (some value)) (hi : p.mem.mutex .lru = some i)
    (hm : m.mutex = p.mem.mutex) (hc : InSection key value c) :
    Carries key ⟨m, Function.update p.code i c⟩ w (some value) := by
  obtain ⟨k, hk, hsection⟩ := hp.holds value rfl
  obtain rfl : k = i := Option.some.inj (hk.symm.trans hi)
  refine ⟨hp.nodup, fun x hx => ?_, fun v hv => ?_, fun j hj => ?_⟩
  · have hne : x.1 ≠ k := fun heq => (ne_of_inSection hsection).2 x.2 (heq ▸ hp.waits x hx)
    rw [code_of_ne hne]
    exact hp.waits x hx
  · obtain rfl := Option.some.inj hv
    refine ⟨k, by rw [hm]; exact hk, ?_⟩
    rw [code_self]
    exact hc
  · rw [hm]
    by_cases hjk : j = k
    · subst hjk
      exact Or.inr ⟨rfl, hk⟩
    · rw [code_of_ne hjk] at hj
      exact hp.others j hj

/-- It has stored its value, or was refused. -/
theorem Carries.finish (hp : Carries key p w (some value)) (hi : p.mem.mutex .lru = some i)
    (hc : ¬ StoresKey key c) : Carries key ⟨m, Function.update p.code i c⟩ w none := by
  obtain ⟨k, hk, hsection⟩ := hp.holds value rfl
  obtain rfl : k = i := Option.some.inj (hk.symm.trans hi)
  refine ⟨hp.nodup, fun x hx => ?_, nofun, fun j hj => ?_⟩
  · have hne : x.1 ≠ k := fun heq => (ne_of_inSection hsection).2 x.2 (heq ▸ hp.waits x hx)
    rw [code_of_ne hne]
    exact hp.waits x hx
  · by_cases hjk : j = k
    · subst hjk
      rw [code_self] at hj
      exact absurd hj hc
    · rw [code_of_ne hjk] at hj
      refine Or.inl ((hp.others j hj).resolve_right fun hin => hjk ?_)
      exact Option.some.inj (hin.2.symm.trans hk)

end Carries

section Step
variable {cbHashfunc : Str → ℤ} {key : Str} {s : CacheServer} {obs : List Obs} {o : Obs} {e : Event}
  {p p' : System} {w : List (ℕ × Str)} {x x' : System × List (ℕ × Str)}

theorem waiting_idle : waiting key w p e .idle = w := by
  cases e <;> rfl

theorem waiting_acted {i : ℕ} {op : Op} {r : op.Res} (h : ∀ t, op ≠ .lock t) :
    waiting key w p (.step i) (.acted i ⟨op, r⟩) = w := by
  cases op with
  | lock t => exact absurd rfl (h t)
  | _ => rfl

/-- A thread starts. -/
theorem InOrder.started {i : ℕ} {c : Prog} {server : CacheServer} (hx : InOrder key s obs (p, w))
    (hs : starts p.mem.server e = some (i, c, server)) (hdone : p.code i = .done) :
    InOrder key s (obs ++ [.started i]) (⟨{ p.mem with server := server },
      Function.update p.code i c⟩, waiting key w p e (.started i)) := by
  obtain ⟨inside, hcarries, hagrees⟩ := hx
  have hstored : stored key (obs ++ [.started i]) = stored key obs := by
    rw [stored_concat]
    exact List.append_nil _
  have hquiet := hagrees.quiet (o := .started i) rfl
  rcases starts_cases hs with ⟨request, rest, sent, rfl, hq, rfl, rfl⟩ | ⟨net, rfl, rfl, rfl⟩ |
    ⟨net, rfl, rfl, rfl⟩ | ⟨net, sent, ipPort, rfl, rfl, rfl⟩
  · cases hset : setOf key request with
    | none =>
      have hw : waiting key w p (.dequeue i sent) (.started i) = w := by
        simp only [waiting, hq, List.head?_cons, Option.bind_some, hset]
      rw [hw]
      refine ⟨inside, hcarries.start hdone rfl (not_stores_handle hset sent), ?_⟩
      have hsame : p.mem.server.workqueue.filterMap (setOf key) = rest.filterMap (setOf key) := by
        rw [hq, List.filterMap_cons_none hset]
      rw [underway, hsame] at hquiet
      rw [underway, hstored]
      exact hquiet
    | some value =>
      have hw : waiting key w p (.dequeue i sent) (.started i) = w ++ [(i, value)] := by
        simp only [waiting, hq, List.head?_cons, Option.bind_some, hset]
      have hhandle : handle request sent = setValue key value := by
        unfold setOf at hset
        split_ifs at hset with hmeets
        obtain ⟨htype, rfl⟩ := hmeets
        obtain rfl := Option.some.inj hset
        rw [handle, if_pos htype]
      rw [hw, hhandle]
      refine ⟨inside, hcarries.take hdone rfl, ?_⟩
      have hsame : p.mem.server.workqueue.filterMap (setOf key) =
          value :: rest.filterMap (setOf key) := by
        rw [hq, List.filterMap_cons_some hset]
      rw [underway, hsame] at hquiet
      rw [underway, hstored]
      simpa using hquiet
  · refine ⟨inside, hcarries.start hdone rfl (not_stores_move _ net), ?_⟩
    rw [underway, hstored]
    exact hquiet
  · refine ⟨inside, hcarries.start hdone rfl (not_stores_move _ net), ?_⟩
    rw [underway, hstored]
    exact hquiet
  · refine ⟨inside, hcarries.start hdone rfl (not_stores_update net sent ipPort), ?_⟩
    rw [underway, hstored]
    exact hquiet

section Acted
variable {i : ℕ} {op : Op} {next : op.Res → Prog} {r : op.Res} {m : Shared}

/-- The thread carries no value. -/
theorem InOrder.acted_other {inside : Option Str} (hcarries : Carries key p w inside)
    (hagrees : Agrees key s obs (underway key obs p w inside)) (hi : i ∉ w.map Prod.fst)
    (hin : inside.isSome = true → p.mem.mutex .lru ≠ some i)
    (hdisc : Disciplined pairing (fun _ _ => none) p) (hcode : p.code i = .call op next)
    (hop : perform cbHashfunc i op p.mem = .ok r m) :
    InOrder key s (obs ++ [.acted i ⟨op, r⟩]) (⟨m, Function.update p.code i (next r)⟩,
      waiting key w p (.step i) (.acted i ⟨op, r⟩)) := by
  have hno : ¬ StoresKey key (p.code i) := fun hstores =>
    (hcarries.others i hstores).elim hi fun h => hin h.1 h.2
  have hnext : ¬ StoresKey key (next r) := fun hstores => hno (by
    rw [hcode]
    exact Code.May.of_next hstores id)
  have hstored : Obs.stored key (.acted i ⟨op, r⟩) = none := by
    rw [Option.eq_none_iff_forall_ne_some]
    intro value hvalue
    apply hno
    rw [hcode]
    exact Or.inl ⟨value, stored_acted hvalue⟩
  have hw : waiting key w p (.step i) (.acted i ⟨op, r⟩) = w := by
    by_cases hlock : op = .lock .lru
    · subst hlock
      refine List.filter_eq_self.mpr fun x hx => decide_eq_true fun heq => hi ?_
      exact heq ▸ List.mem_map_of_mem hx
    · cases op with
      | lock t =>
        cases t with
        | lru => exact absurd rfl hlock
        | lruBackup => rfl
      | _ => rfl
  have hmutex : ∀ value, inside = some value →
      m.mutex .lru = p.mem.mutex .lru ∧ p.mem.mutex .lru ≠ some i := by
    rintro value rfl
    have hother : p.mem.mutex .lru ≠ some i := hin rfl
    refine ⟨?_, hother⟩
    rcases mutex_of_perform hop with ⟨t, rfl, hfree, hm⟩ | ⟨t, rfl, hm⟩ | ⟨-, hm⟩
    · have ht : Table.lru ≠ t := by
        rintro rfl
        obtain ⟨k, hk, -⟩ := hcarries.holds value rfl
        rw [hfree] at hk
        cases hk
      rw [hm, Function.update_of_ne ht]
    · have ht : Table.lru ≠ t := by
        rintro rfl
        exact hother (hdisc.unlock hcode)
      rw [hm, Function.update_of_ne ht]
    · rw [hm]
  rw [hw]
  refine ⟨inside, hcarries.other hi hmutex hnext, ?_⟩
  have hsame : underway key (obs ++ [.acted i ⟨op, r⟩])
      ⟨m, Function.update p.code i (next r)⟩ w inside = underway key obs p w inside := by
    rw [underway, underway, stored_concat, hstored, (frame_of_perform hop).2.2]
    simp
  rw [hsame]
  exact hagrees.quiet rfl

/-- The worker that has waited longest locks the mutex. -/
theorem InOrder.acted_waiting {inside : Option Str} (hcarries : Carries key p w inside)
    (hagrees : Agrees key s obs (underway key obs p w inside)) (hi : i ∈ w.map Prod.fst)
    (hturn : InTurn key (p, w) (.step i)) (hcode : p.code i = .call op next)
    (hop : perform cbHashfunc i op p.mem = .ok r m) :
    InOrder key s (obs ++ [.acted i ⟨op, r⟩]) (⟨m, Function.update p.code i (next r)⟩,
      waiting key w p (.step i) (.acted i ⟨op, r⟩)) := by
  obtain ⟨⟨k, value⟩, hx, rfl⟩ := List.mem_map.mp hi
  have hwait : p.code k = setValue key value := hcarries.waits _ hx
  have hlock : op = .lock .lru := by
    rw [hcode] at hwait
    cases hwait
    rfl
  subst hlock
  obtain ⟨hfree, rfl⟩ := of_perform_lock hop
  have hhead := hturn hfree value hwait
  cases w with
  | nil => cases hx
  | cons y rest =>
    obtain ⟨k', value'⟩ := y
    obtain rfl : k' = k := Option.some.inj hhead
    have hfirst : p.code k' = setValue key value' := hcarries.waits _ List.mem_cons_self
    obtain ⟨rfl, henter⟩ := hcarries.enter hfree
    have hnodup := hcarries.nodup
    rw [List.map_cons, List.nodup_cons] at hnodup
    have hw : waiting key ((k', value') :: rest) p (.step k') (.acted k' ⟨.lock .lru, r⟩) = rest := by
      change List.filter _ _ = rest
      rw [List.filter_cons_of_neg (by simp)]
      refine List.filter_eq_self.mpr fun x hx => decide_eq_true fun heq => hnodup.1 ?_
      have hmem : x.1 ∈ rest.map Prod.fst := List.mem_map_of_mem hx
      exact heq ▸ hmem
    rw [hcode] at hfirst
    cases hfirst
    rw [hw]
    refine ⟨some value', henter, ?_⟩
    have hsame : underway key (obs ++ [.acted k' ⟨.lock .lru, r⟩])
        ⟨p.mem.setMutex .lru (some k'), Function.update p.code k' (locked .lru key value')⟩ rest
          (some value') = underway key obs p ((k', value') :: rest) none := by
      rw [underway, underway, stored_concat]
      simp [Obs.stored, Shared.setMutex]
    rw [hsame]
    exact hagrees.quiet rfl

/-- The worker in its section goes on. -/
theorem InOrder.acted_inside {value : Str} (hcarries : Carries key p w (some value))
    (hagrees : Agrees key s obs (underway key obs p w (some value)))
    (hi : p.mem.mutex .lru = some i) (hcode : p.code i = .call op next)
    (hop : perform cbHashfunc i op p.mem = .ok r m) :
    InOrder key s (obs ++ [.acted i ⟨op, r⟩]) (⟨m, Function.update p.code i (next r)⟩,
      waiting key w p (.step i) (.acted i ⟨op, r⟩)) := by
  obtain ⟨k, hk, hsection⟩ := hcarries.holds value rfl
  obtain rfl : k = i := Option.some.inj (hk.symm.trans hi)
  have hqueue := (frame_of_perform hop).2.2
  rw [hcode] at hsection
  rcases hsection with h | h | h
  · cases h
    obtain ⟨-, rfl⟩ := Outcome.of_ok hop
    rw [waiting_acted (by simp)]
    refine ⟨some value, hcarries.proceed hi rfl ?_, ?_⟩
    · cases (r : Bool) with
      | false => exact Or.inr (Or.inr rfl)
      | true => exact Or.inr (Or.inl rfl)
    · rw [underway, stored_concat]
      simpa [Obs.stored, underway] using hagrees.quiet (o := .acted k ⟨.hasKey .lru key, r⟩) rfl
  · cases h
    obtain ⟨-, rfl⟩ := Outcome.of_ok hop
    rw [waiting_acted (by simp)]
    cases hr : (r : Bool) with
    | false =>
      refine ⟨some value, hcarries.proceed hi rfl (Or.inr (Or.inr rfl)), ?_⟩
      rw [underway, stored_concat]
      simpa [Obs.stored, underway] using hagrees.quiet (o := .acted k ⟨.isDirty .lru key, false⟩) rfl
    | true =>
      refine ⟨none, hcarries.finish hi (not_stores_leave _), hagrees.refuse ?_⟩
      rw [underway, underway, stored_concat]
      simp [Obs.stored]
  · cases h
    rw [waiting_acted (by simp)]
    refine ⟨none, hcarries.finish hi (not_stores_leave _), ?_⟩
    have hsame : underway key (obs ++ [.acted k ⟨.set .lru key value, r⟩])
        ⟨m, Function.update p.code k (leave .lru)⟩ w none = underway key obs p w (some value) := by
      rw [underway, underway, stored_concat, hqueue]
      simp [Obs.stored]
    have hquiet := hagrees.quiet (o := .acted k ⟨.set .lru key value, r⟩) rfl
    rw [← hsame] at hquiet
    exact hquiet

end Acted

theorem InOrder.step (hx : InOrder key s obs x) (hdisc : Disciplined pairing (fun _ _ => none) x.1)
    (hturn : InTurn key x e) (h : stepWaiting cbHashfunc key x e = some (o, x')) :
    InOrder key s (obs ++ [o]) x' := by
  obtain ⟨p, w⟩ := x
  obtain ⟨⟨o, p'⟩, hstep, ho⟩ := Option.map_eq_some_iff.mp h
  obtain ⟨rfl, rfl⟩ := Prod.mk.inj ho
  change CacheThreads.step cbHashfunc p e = some (o, p') at hstep
  cases step_cases hstep with
  | idle =>
    obtain ⟨inside, hcarries, hagrees⟩ := hx
    simp only [waiting_idle]
    refine ⟨inside, hcarries, ?_⟩
    rw [underway, stored_concat]
    simpa [Obs.stored, underway] using hagrees.quiet (o := .idle) rfl
  | appended request hroom =>
    obtain ⟨inside, hcarries, hagrees⟩ := hx
    refine ⟨inside, ⟨hcarries.nodup, hcarries.waits, hcarries.holds, hcarries.others⟩, ?_⟩
    have haccept := hagrees.accept (o := .appended request)
    rw [underway, stored_concat]
    cases hset : setOf key request with
    | none =>
      rw [Obs.accepted, hset] at haccept
      simpa [Obs.stored, underway, waiting, hset] using haccept
    | some value =>
      rw [Obs.accepted, hset] at haccept
      simpa [Obs.stored, underway, waiting, hset] using haccept
  | started hs hdone => exact hx.started hs hdone
  | @acted i op next r m hcode hop =>
    obtain ⟨inside, hcarries, hagrees⟩ := hx
    by_cases hi : i ∈ w.map Prod.fst
    · exact .acted_waiting hcarries hagrees hi hturn hcode hop
    · by_cases hin : inside.isSome = true ∧ p.mem.mutex .lru = some i
      · obtain ⟨value, rfl⟩ := Option.isSome_iff_exists.mp hin.1
        exact .acted_inside hcarries hagrees hin.2 hcode hop
      · exact .acted_other hcarries hagrees hi (not_and.mp hin) hdisc hcode hop

theorem inOrder_idle : InOrder key s [] (idle s, []) :=
  ⟨none, ⟨List.nodup_nil, fun _ hx => absurd hx List.not_mem_nil, nofun,
    fun _ h => absurd h not_stores_done⟩, by simp [Agrees, underway, received, stored, idle]⟩

theorem stores_of_inSection {value : Str} {c : Prog} (h : InSection key value c) :
    StoresKey key c := by
  have hset : StoresKey key (.call (.set .lru key value) fun _ => leave .lru) := Or.inl ⟨value, rfl⟩
  rcases h with rfl | rfl | rfl
  · exact Or.inr ⟨false, id, hset⟩
  · exact Or.inr ⟨false, id, hset⟩
  · exact hset

/-- Where no worker locks `lru_mutex` before another one that has taken an earlier request to set
the same key, the values are stored in the order in which they were received; and when no request to
set the key is left, and the key was never found dirty, all of them were stored, so that the value
of the key is the last one. -/
theorem stored_in_order_of_run {es : List Event}
    (ha : Allowed (stepWaiting cbHashfunc key) (fun x e => ReadsSame x.1 e ∧ InTurn key x e)
      (idle s, []) es)
    (h : run (CacheThreads.step cbHashfunc) (idle s) es = some (obs, p)) :
    (stored key obs).Sublist (received key s obs) ∧
    ((∀ i, ¬ StoresKey key (p.code i)) → p.mem.server.workqueue.filterMap (setOf key) = [] →
      NoneRefused key obs → stored key obs = received key s obs ∧
        ∀ e value, LRU.find p.mem.server.lru.entries key = some e →
          (received key s obs).getLast? = some value → e.val = value) := by
  obtain ⟨w, hrun⟩ := run_annotate (waiting key) [] h
  have hproject : ∀ {x e o x'}, stepWaiting cbHashfunc key x e = some (o, x') →
      CacheThreads.step cbHashfunc x.1 e = some (o, x'.1) := fun hannotated =>
    (of_annotate hannotated).1
  obtain ⟨-, hrecorded, hinside⟩ := run_history
    (I := fun obs x => Disciplined pairing (fun _ _ => none) x.1 ∧ Recorded s obs x.1 ∧
      InOrder key s obs x)
    (fun _ _ _ _ _ hI hok hstep => ⟨hI.1.step_pairing hok.1 (hproject hstep),
      hI.2.1.step (hproject hstep), hI.2.2.step hI.1 hok.2 hstep⟩)
    ⟨disciplined_idle s, recorded_idle s, inOrder_idle⟩ ha hrun
  rw [List.nil_append] at hrecorded hinside
  obtain ⟨inside, hcarries, hsub, hall⟩ := hinside
  refine ⟨(List.sublist_append_left _ _).trans hsub, fun hnone hqueue hnever => ?_⟩
  have hw : w = [] := by
    rw [List.eq_nil_iff_forall_not_mem]
    intro x hx
    apply hnone x.1
    rw [hcarries.waits x hx]
    exact Or.inr ⟨(), id, stores_of_inSection (Or.inl rfl)⟩
  have hout : inside = none := by
    rw [Option.eq_none_iff_forall_ne_some]
    intro value hvalue
    obtain ⟨i, -, hsection⟩ := hcarries.holds value hvalue
    exact hnone i (stores_of_inSection hsection)
  have hstored : stored key obs = received key s obs := by
    have hl := hall hnever
    rw [underway, hqueue, hw, hout] at hl
    simpa using hl
  refine ⟨hstored, fun e value he hlast => ?_⟩
  have hval : lastStored s key obs = some e.val := hrecorded key e he
  rw [lastStored, hstored, hlast] at hval
  exact (Option.some.inj hval).symm

end Step

section Overtaking

def firstSet : Request := ⟨Code.setValue, [], lit "k", lit "a", 5⟩

def secondSet : Request := ⟨Code.setValue, [], lit "k", lit "b", 5⟩

/-- Two workers have taken the two requests. -/
def bothTaken : List Event := [.append firstSet, .append secondSet, .dequeue 1 true, .dequeue 2 true]

/-- What the two workers do one after the other. -/
def bothStored (i j : ℕ) : List Event :=
  bothTaken ++ [.step i, .step i, .step i, .step i] ++
    [.step j, .step j, .step j, .step j, .step j]

theorem stored_in_order_of_two : ∃ obs p,
    Allowed (stepWaiting (fun _ => 0) (lit "k"))
      (fun x e => ReadsSame x.1 e ∧ InTurn (lit "k") x e) (idle .new, []) (bothStored 1 2) ∧
    run (CacheThreads.step fun _ => 0) (idle .new) (bothStored 1 2) = some (obs, p) ∧
    (stored (lit "k") obs).Sublist (received (lit "k") .new obs) ∧
    ((∀ i, ¬ StoresKey (lit "k") (p.code i)) →
      p.mem.server.workqueue.filterMap (setOf (lit "k")) = [] →
      NoneRefused (lit "k") obs → stored (lit "k") obs = received (lit "k") .new obs ∧
        ∀ e value, LRU.find p.mem.server.lru.entries (lit "k") = some e →
          (received (lit "k") .new obs).getLast? = some value → e.val = value) := by
  have ha : Allowed (stepWaiting (fun _ => 0) (lit "k"))
      (fun x e => ReadsSame x.1 e ∧ InTurn (lit "k") x e) (idle .new, []) (bothStored 1 2) :=
    ⟨⟨trivial, trivial⟩, ⟨trivial, trivial⟩, ⟨trivial, trivial⟩, ⟨trivial, trivial⟩,
      ⟨nofun, fun _ _ _ => rfl⟩, ⟨nofun, fun _ => nofun⟩, ⟨nofun, fun _ => nofun⟩,
      ⟨nofun, fun _ => nofun⟩, ⟨nofun, fun _ _ _ => rfl⟩, ⟨nofun, fun _ => nofun⟩,
      ⟨nofun, fun _ => nofun⟩, ⟨nofun, fun _ => nofun⟩, ⟨nofun, fun _ => nofun⟩, trivial⟩
  exact ⟨_, _, ha, rfl, stored_in_order_of_run ha rfl⟩

/-- The worker that has taken the later request is faster. -/
theorem not_stored_in_order : ∃ obs p,
    run (CacheThreads.step fun _ => 0) (idle .new) (bothStored 2 1) = some (obs, p) ∧
    (∀ i, p.code i = .done) ∧ NoneRefused (lit "k") obs ∧
    received (lit "k") .new obs = [lit "a", lit "b"] ∧
    stored (lit "k") obs = [lit "b", lit "a"] ∧
    LRU.find p.mem.server.lru.entries (lit "k") = some ⟨lit "k", lit "a", false⟩ := by
  refine ⟨[.appended firstSet, .appended secondSet, .started 1, .started 2,
      .acted 2 ⟨.lock .lru, ()⟩, .acted 2 ⟨.hasKey .lru (lit "k"), false⟩,
      .acted 2 ⟨.set .lru (lit "k") (lit "b"), ()⟩, .acted 2 ⟨.unlock .lru, ()⟩,
      .acted 1 ⟨.lock .lru, ()⟩, .acted 1 ⟨.hasKey .lru (lit "k"), true⟩,
      .acted 1 ⟨.isDirty .lru (lit "k"), false⟩, .acted 1 ⟨.set .lru (lit "k") (lit "a"), ()⟩,
      .acted 1 ⟨.unlock .lru, ()⟩], _, rfl, fun i => ?_, fun i hmem => ?_, rfl, rfl, rfl⟩
  · by_cases h₁ : i = 1
    · subst h₁
      rfl
    · by_cases h₂ : i = 2
      · subst h₂
        rfl
      · simp [h₁, h₂, idle]
  · simp only [List.mem_cons, List.not_mem_nil, or_false, reduceCtorEq, false_or,
      Obs.acted.injEq] at hmem
    rcases hmem with h | h | h | h | h | h | h | h | h <;> cases congrArg Action.op h.2
    cases h.2

end Overtaking
end DCache.CacheThreads
