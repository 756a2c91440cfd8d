import DCache.Cache.HandOver
import DCache.LRU.Pass
import DCache.Ring.Refinement

/-! What the copying loops leave in `lru`. `update` leaves it as it was. `move` goes through a
prefix of the snapshot: what it has sent is dirty, and what stands behind the first call that
fails is not touched. -/
namespace DCache.CacheServer
open DCache.Lib DCache.LRU

/-- A `connect` or a `send` that returned -1. -/
def SysCall.Failed : SysCall → Prop
  | .connect _ _ ok => ok = false
  | .send _ _ ok => ok = false
  | _ => False

section HandOff
variable {net : Net} {key newAddr buf : Str} {fd : ℤ} {ok : Bool} {call : SysCall}

/-- A hand-off ends with its first call that fails: the `connect`, or else the `send`. -/
theorem handOff_cases (net : Net) (key newAddr : Str) :
    (net.connected = false ∧ handOff net key newAddr = ([.socket net.cfd, .close net.cfd,
      .connect net.cfd (str2sockAddr net.res newAddr) false], false)) ∨
    ∃ opening, (∀ call ∈ opening, (∀ fd buf ok, call ≠ .send fd buf ok) ∧ ¬ call.Failed) ∧
      handOff net key newAddr =
        (opening ++ [.send net.cfd (moveMsg key) net.sent], net.sent) := by
  unfold handOff
  by_cases hconn : newAddr ≠ [] ∧ net.connected = false
  · exact Or.inl ⟨hconn.2, by rw [if_pos hconn, hconn.2]⟩
  · refine Or.inr ⟨_, ?_, if_neg hconn⟩
    intro call hcall
    by_cases hne : newAddr = []
    · simp only [hne, ne_eq, not_true_eq_false, if_false, List.mem_singleton] at hcall
      subst hcall
      exact ⟨nofun, id⟩
    · have hc : net.connected = true := by simpa [hne] using hconn
      simp only [ne_eq, hne, not_false_eq_true, if_true, List.mem_cons, List.not_mem_nil,
        or_false] at hcall
      rcases hcall with rfl | rfl | rfl
      · exact ⟨nofun, id⟩
      · exact ⟨nofun, id⟩
      · exact ⟨nofun, fun hf => by cases hc.symm.trans hf⟩

theorem of_send_mem_handOff (h : .send fd buf ok ∈ (handOff net key newAddr).1) :
    buf = moveMsg key ∧ ok = net.sent := by
  rcases handOff_cases net key newAddr with ⟨-, he⟩ | ⟨opening, hopening, he⟩
  · rw [he] at h
    simp at h
  · rw [he] at h
    rcases List.mem_append.mp h with h | h
    · exact absurd rfl ((hopening _ h).1 fd buf ok)
    · obtain ⟨-, hbuf, hok⟩ := SysCall.send.inj (List.mem_singleton.mp h)
      exact ⟨hbuf, hok⟩

/-- The key is sent exactly where the hand-off succeeds. -/
theorem handOff_sent_iff : (handOff net key newAddr).2 = true ↔
    ∃ fd buf, .send fd buf true ∈ (handOff net key newAddr).1 := by
  constructor
  · intro h
    rcases handOff_cases net key newAddr with ⟨-, he⟩ | ⟨opening, -, he⟩
    · rw [he] at h
      cases h
    · rw [he] at h ⊢
      have hsent : net.sent = true := h
      exact ⟨net.cfd, moveMsg key, by simp [hsent]⟩
  · rintro ⟨fd, buf, h⟩
    have hsent := (of_send_mem_handOff h).2
    rcases handOff_cases net key newAddr with ⟨-, he⟩ | ⟨opening, -, he⟩
    · rw [he] at h
      simp at h
    · rw [he]
      exact hsent.symm

/-- A call that fails is the last one. -/
theorem handOff_failed (h : call ∈ (handOff net key newAddr).1) (hf : call.Failed) :
    (handOff net key newAddr).2 = false ∧ (handOff net key newAddr).1.getLast? = some call := by
  rcases handOff_cases net key newAddr with ⟨-, he⟩ | ⟨opening, hopening, he⟩
  · rw [he] at h ⊢
    simp only [List.mem_cons, List.not_mem_nil, or_false] at h
    rcases h with rfl | rfl | rfl
    · cases hf
    · cases hf
    · exact ⟨rfl, rfl⟩
  · rw [he] at h ⊢
    rcases List.mem_append.mp h with h | h
    · exact absurd hf (hopening _ h).2
    · obtain rfl := List.mem_singleton.mp h
      exact ⟨hf, List.getLast?_concat⟩

theorem exists_failed (h : (handOff net key newAddr).2 = false) :
    ∃ call ∈ (handOff net key newAddr).1, call.Failed := by
  rcases handOff_cases net key newAddr with ⟨-, he⟩ | ⟨opening, -, he⟩
  · rw [he]
    exact ⟨.connect net.cfd (str2sockAddr net.res newAddr) false, by simp, rfl⟩
  · rw [he] at h ⊢
    exact ⟨.send net.cfd (moveMsg key) net.sent, by simp, h⟩

end HandOff

section Turn
variable {held : Str → Bool} {owner : Str → Option Str} {localAddr key : Str} {net : Net}
  {t : Turn}

theorem exists_turn (h : held key = true → (owner key).isSome = true) (localAddr : Str)
    (net : Net) : ∃ t, turn held owner localAddr net key = some t := by
  unfold turn
  by_cases hk : held key = true
  · obtain ⟨newAddr, ho⟩ := Option.isSome_iff_exists.mp (h hk)
    rw [if_pos hk, ho]
    exact ⟨_, rfl⟩
  · rw [if_neg hk]
    exact ⟨_, rfl⟩

theorem turn_sent_iff (h : turn held owner localAddr net key = some t) :
    t.marked = true ↔ ∃ fd buf, .send fd buf true ∈ t.calls := by
  rcases turn_cases h with ⟨rfl, -⟩ | ⟨-, newAddr, -, -, rfl⟩
  · simp
  · exact handOff_sent_iff

/-- A turn ends the loop with a call that fails. -/
theorem turn_failed (h : turn held owner localAddr net key = some t) :
    (∀ call ∈ t.calls, call.Failed → t.more = false ∧ t.calls.getLast? = some call) ∧
      (t.more = false → ∃ call ∈ t.calls, call.Failed) := by
  rcases turn_cases h with ⟨rfl, -⟩ | ⟨-, newAddr, -, -, rfl⟩
  · refine ⟨fun call hcall hf => ?_, nofun⟩
    obtain rfl := List.mem_singleton.mp hcall
    cases hf
  · exact ⟨fun call hcall hf => handOff_failed hcall hf, exists_failed⟩

end Turn

/-- The request for the key was sent. -/
def Sent (calls : List (Str × SysCall)) (key : Str) : Prop :=
  ∃ fd buf, (key, .send fd buf true) ∈ calls

theorem sent_append {calls calls' : List (Str × SysCall)} {key : Str} :
    Sent (calls ++ calls') key ↔ Sent calls key ∨ Sent calls' key := by
  simp only [Sent, List.mem_append, exists_or]

/-- The marked keys are those that were sent. -/
theorem mem_marks_iff {held : Str → Bool} {owner : Str → Option Str} {localAddr : Str}
    {net : ℕ → Net} {i : ℕ} {keys : List Str} {calls : List (Str × SysCall)} {marks : List Str}
    (h : handOver held owner localAddr net i keys = some (calls, marks)) (key : Str) :
    key ∈ marks ↔ Sent calls key := by
  induction keys generalizing i calls marks with
  | nil =>
    obtain ⟨rfl, rfl⟩ := Prod.mk.inj (Option.some.inj h)
    simp [Sent]
  | cons k keys ih =>
    simp only [handOver, Option.bind_eq_bind] at h
    obtain ⟨t, ht, h⟩ := Option.bind_eq_some_iff.mp h
    have hturn : key ∈ (if t.marked = true then [k] else []) ↔
        Sent (t.calls.map fun call => (k, call)) key := by
      have hsent := turn_sent_iff ht
      by_cases hk : key = k
      · subst hk
        by_cases hm : t.marked = true
        · simpa [Sent, hm] using hsent.mp hm
        · simpa [Sent, hm] using fun fd buf hmem => hm (hsent.mpr ⟨fd, buf, hmem⟩)
      · have hne : ¬ k = key := fun he => hk he.symm
        split_ifs <;> simp [Sent, hk, hne]
    by_cases hmore : t.more = true
    · rw [if_pos hmore] at h
      obtain ⟨⟨calls', marks'⟩, hr, he⟩ := Option.bind_eq_some_iff.mp h
      obtain ⟨rfl, rfl⟩ := Prod.mk.inj (Option.some.inj he)
      rw [List.mem_append, sent_append, hturn, ih hr]
    · rw [if_neg hmore, Option.some.injEq, Prod.mk.injEq] at h
      obtain ⟨rfl, rfl⟩ := h
      exact hturn

/-- The loop went through `ks₁`, and over `ks₂` only when a call failed, with which it ended. -/
structure StopsAt (calls : List (Str × SysCall)) (ks₁ ks₂ : List Str) : Prop where
  reached : ∀ c ∈ calls, c.1 ∈ ks₁
  failed : ∀ c ∈ calls, c.2.Failed → calls.getLast? = some c ∧ ks₁.getLast? = some c.1
  behind : ks₂ ≠ [] → ∃ c ∈ calls, c.2.Failed

variable (cbHashfunc : Str → ℤ)

/-- The loop promotes the entries that it reaches, one after the other. -/
theorem entries_of_moveLoop {net : ℕ → Net} {es done : List (Entry Str Str)} {i : ℕ}
    {s s' : CacheServer} {calls : List (Str × SysCall)} (hes : s.lru.entries = es ++ done)
    (h : moveLoop cbHashfunc net i s (keysOf es) = some (calls, s')) :
    ∃ es₁ es₂ es₁', es = es₁ ++ es₂ ∧ s'.lru.entries = es₂ ++ (done ++ es₁') ∧
      keysOf es₁' = keysOf es₁ ∧ StopsAt calls (keysOf es₁) (keysOf es₂) := by
  induction es generalizing s done i calls with
  | nil =>
    obtain ⟨rfl, rfl⟩ := Prod.mk.inj (Option.some.inj h)
    refine ⟨[], [], [], rfl, ?_, rfl, nofun, nofun, fun h => absurd rfl h⟩
    rw [hes, List.append_nil]
  | cons e es ih =>
    have hes : s.lru.entries = e :: (es ++ done) := hes
    have hhas : s.lru.hasKey e.key = true := by
      rw [Cache.hasKey_iff, hes]
      exact List.mem_cons_self
    obtain ⟨lru, hget, hlru, -⟩ := s.lru.get_head hes
    simp only [keysOf_cons, moveLoop, s.moveKey_of_get cbHashfunc (net i) hhas hget,
      Option.bind_eq_bind] at h
    obtain ⟨o, hkey, h⟩ := Option.bind_eq_some_iff.mp h
    obtain ⟨t, ht, rfl⟩ := Option.map_eq_some_iff.mp hkey
    obtain ⟨hfailed, hstop⟩ := turn_failed ht
    -- the entry at the recent end, marked when it was sent
    obtain ⟨e', hkey', hlru'⟩ : ∃ e' : Entry Str Str, e'.key = e.key ∧
        (if t.marked = true then lru.setDirty e.key else lru).entries = es ++ (done ++ [e']) := by
      by_cases hm : t.marked = true
      · refine ⟨{ e with dirty := true }, rfl, ?_⟩
        have hn := s.lru.nodup
        rw [hes, keysOf_cons, List.nodup_cons] at hn
        rw [if_pos hm, Cache.entries_setDirty, hlru, mark_concat hn.1, List.append_assoc]
      · exact ⟨e, rfl, by rw [if_neg hm, hlru, List.append_assoc]⟩
    by_cases hmore : t.more = true
    · simp only [hmore, if_true] at h
      obtain ⟨⟨calls', s₁⟩, hrest, ho⟩ := Option.bind_eq_some_iff.mp h
      obtain ⟨rfl, rfl⟩ := Prod.mk.inj (Option.some.inj ho)
      obtain ⟨es₁, es₂, es₁', rfl, hentries, hkeys, hst⟩ := ih hlru' hrest
      refine ⟨e :: es₁, es₂, e' :: es₁', rfl, ?_, ?_, ?_, ?_, ?_⟩
      · rw [hentries, List.append_assoc done]
        rfl
      · rw [keysOf_cons, keysOf_cons, hkey', hkeys]
      · intro c hc
        rcases List.mem_append.mp hc with hc | hc
        · obtain ⟨call, -, rfl⟩ := List.mem_map.mp hc
          exact List.mem_cons_self
        · exact List.mem_cons_of_mem _ (hst.reached c hc)
      · intro c hc hf
        rcases List.mem_append.mp hc with hc | hc
        · obtain ⟨call, hcall, rfl⟩ := List.mem_map.mp hc
          rw [(hfailed call hcall hf).1] at hmore
          cases hmore
        · obtain ⟨hlast, hks⟩ := hst.failed c hc hf
          constructor
          · rw [List.getLast?_append, hlast, Option.some_or]
          · rw [keysOf_cons, List.getLast?_cons, hks]
            rfl
      · intro hne
        obtain ⟨c, hc, hf⟩ := hst.behind hne
        exact ⟨c, List.mem_append_right _ hc, hf⟩
    · simp only [hmore] at h
      obtain ⟨rfl, rfl⟩ := Prod.mk.inj (Option.some.inj h)
      refine ⟨[e], es, [e'], rfl, hlru', by rw [keysOf_cons, keysOf_cons, hkey'], ?_, ?_, ?_⟩
      · intro c hc
        obtain ⟨call, -, rfl⟩ := List.mem_map.mp hc
        exact List.mem_cons_self
      · intro c hc hf
        obtain ⟨call, hcall, rfl⟩ := List.mem_map.mp hc
        refine ⟨?_, rfl⟩
        rw [List.getLast?_map, (hfailed call hcall hf).2]
        rfl
      · intro _
        obtain ⟨call, hcall, hf⟩ := hstop (Bool.eq_false_iff.mpr hmore)
        exact ⟨(e.key, call), List.mem_map_of_mem hcall, hf⟩

section Move
variable {cbHashfunc} {s s' : CacheServer} {net : ℕ → Net} {calls : List (Str × SysCall)}

theorem dirty_of_marked {c c' : Cache Str Str} {marks : List Str} (h : Marked c marks c')
    (hm : ∀ key ∈ marks, c.hasKey key = true) (key : Str) :
    c'.isDirty key = true ↔ c.isDirty key = true ∨ key ∈ marks := by
  rw [Cache.isDirty_eq, Cache.isDirty_eq, h key]
  cases hf : find c.entries key with
  | none =>
    have habs : key ∉ marks := fun hmem => by
      have hkey := find_isSome.mpr ((c.hasKey_iff key).mp (hm key hmem))
      rw [hf] at hkey
      cases hkey
    simp [habs]
  | some e =>
    by_cases hmem : key ∈ marks <;> simp [hmem]

theorem values_of_marked {c c' : Cache Str Str} {marks : List Str} (h : Marked c marks c')
    (key : Str) : (find c'.entries key).map Entry.val = (find c.entries key).map Entry.val := by
  rw [h key, Option.map_map]
  congr 1
  funext e
  simp only [Function.comp_apply]
  split_ifs <;> rfl

theorem isSome_move {ring : OrdMap ℤ Str} (hring : s.cacheServerHash.Rep ring) :
    (s.move cbHashfunc net).isSome = true := by
  have hlook : ∀ keys i, (s.moveTranscript cbHashfunc net i keys).isSome = true := by
    intro keys
    induction keys with
    | nil => exact fun i => rfl
    | cons key keys ih =>
      intro i
      have howner : s.lru.hasKey key = true →
          (s.cacheServerHash.conhashGetCacheServer cbHashfunc key).isSome = true := fun _ => by
        rw [hring.conhashGetCacheServer]
        rfl
      obtain ⟨t, ht⟩ := exists_turn howner s.localAddr (net i)
      obtain ⟨⟨calls, marks⟩, hrest⟩ := Option.isSome_iff_exists.mp (ih (i + 1))
      simp only [moveTranscript] at hrest ⊢
      simp only [handOver, ht, hrest, Option.bind_eq_bind, Option.bind_some]
      split_ifs <;> rfl
  rcases s.move_eq cbHashfunc net with ⟨ht, -⟩ | ⟨calls, marks, s', -, hm, -⟩
  · have hsome := hlook s.moveKeys 0
    rw [ht] at hsome
    cases hsome
  · rw [hm]
    rfl

/-- What `move` leaves in state 0, whatever the outcomes of its calls are: dirty is what was dirty
or was sent, only keys of other servers are sent, the entries behind a call that fails stay in
their places, and no value changes. -/
structure HandsOverSent (cbHashfunc : Str → ℤ) (s : CacheServer) (calls : List (Str × SysCall))
    (s' : CacheServer) : Prop where
  dirty : ∀ key, s'.lru.isDirty key = true ↔ s.lru.isDirty key = true ∨ Sent calls key
  foreign : ∀ key fd buf ok, (key, .send fd buf ok) ∈ calls → buf = moveMsg key ∧
    ∃ newAddr, s.cacheServerHash.conhashGetCacheServer cbHashfunc key = some newAddr ∧
      newAddr ≠ s.localAddr
  behind : ∃ es₁ es₂ es₁', s.lru.entries = es₁ ++ es₂ ∧ s'.lru.entries = es₂ ++ es₁' ∧
    keysOf es₁' = keysOf es₁ ∧ StopsAt calls (keysOf es₁) (keysOf es₂)
  values : ∀ key, (find s'.lru.entries key).map Entry.val = (find s.lru.entries key).map Entry.val

/-- In state 0 the loop of `move` goes through a prefix of the entries and promotes them. -/
theorem stopsAt_of_move (hstate : s.state = 0) (h : s.move cbHashfunc net = some (calls, s')) :
    ∃ es₁ es₂ es₁', s.lru.entries = es₁ ++ es₂ ∧ s'.lru.entries = es₂ ++ es₁' ∧
      keysOf es₁' = keysOf es₁ ∧ StopsAt calls (keysOf es₁) (keysOf es₂) := by
  have hloop : ∃ s₁, moveLoop cbHashfunc net 0 s (keysOf s.lru.entries) =
      some (calls, s₁) ∧ s₁.lru = s'.lru := by
    unfold move at h
    rw [if_pos hstate, Cache.lruKeysOneshot_eq] at h
    obtain ⟨⟨calls₁, s₁⟩, hloop, ho⟩ := Option.bind_eq_some_iff.mp h
    refine ⟨s₁, ?_, ?_⟩ <;> simp only at ho <;> split_ifs at ho
    all_goals
      obtain ⟨rfl, rfl⟩ := Prod.mk.inj (Option.some.inj ho)
    · exact hloop
    · exact hloop
    · rfl
    · rfl
  obtain ⟨s₁, hloop, hlru⟩ := hloop
  rw [← hlru]
  exact entries_of_moveLoop cbHashfunc (List.append_nil _).symm hloop

/-- With the ring that `updateHash` builds, `move` returns. -/
theorem handsOverSent_of_move (cbHashfunc : Str → ℤ) (s : CacheServer) (net : ℕ → Net)
    (hstate : s.state = 0) :
    (∀ ring, s.cacheServerHash.Rep ring → (s.move cbHashfunc net).isSome = true) ∧
      ∀ calls s', s.move cbHashfunc net = some (calls, s') →
        HandsOverSent cbHashfunc s calls s' := by
  refine ⟨fun ring hring => isSome_move hring, fun calls s' hmove => ?_⟩
  have hkeys : s.moveKeys = keysOf s.lru.entries := if_pos hstate
  rcases s.move_eq cbHashfunc net with ⟨-, hnone⟩ | ⟨calls', marks, s'', ht, hm, hl, -⟩
  · cases hnone.symm.trans hmove
  obtain ⟨rfl, rfl⟩ := Prod.mk.inj (Option.some.inj (hm.symm.trans hmove))
  have hheld : ∀ key ∈ marks, s.lru.hasKey key = true := fun key hmem =>
    ((of_handOver ht).2 hmem).2.1
  constructor
  · intro key
    rw [dirty_of_marked hl hheld, mem_marks_iff ht]
  · intro key fd buf ok hmem
    rcases ((of_handOver ht).1 _ hmem).2 with ⟨fd', hfd⟩ | ⟨-, newAddr, ho, hne, j, hj⟩
    · cases hfd
    · exact ⟨(of_send_mem_handOff hj).1, newAddr, ho, hne⟩
  · exact stopsAt_of_move hstate hm
  · exact values_of_marked hl

/-- Two keys of another server, and no connection. -/
theorem handsOverSent_unconnected :
    let s : CacheServer := { CacheServer.new with
      lru := (CacheServer.new.lru.set (lit "k") (lit "v")).set (lit "l") [] }
    (∀ ring, s.cacheServerHash.Rep ring →
        (s.move (fun _ => 0) fun _ => ⟨7, ⟨0, 0, .any⟩, false, true⟩).isSome = true) ∧
      ∀ calls s', s.move (fun _ => 0) (fun _ => ⟨7, ⟨0, 0, .any⟩, false, true⟩) =
        some (calls, s') → HandsOverSent (fun _ => 0) s calls s' :=
  handsOverSent_of_move (fun _ => 0) _ _ rfl

end Move

section Update
variable {s s' : CacheServer} {net : Net} {sent : ℕ → Bool} {ipPort : Str} {calls : List SysCall}

theorem updateLoop_of_run {keys vs : List Str} {lru : Cache Str Str}
    (h : Lib.run Cache.get s.lru keys = some (vs, lru)) (cfd : ℤ) (sent : ℕ → Bool) (i : ℕ) :
    ∃ calls, updateLoop cfd sent i s keys = some (calls, { s with lru := lru }) := by
  induction keys generalizing s vs i with
  | nil =>
    obtain ⟨-, rfl⟩ := Prod.mk.inj (Option.some.inj h)
    exact ⟨[], rfl⟩
  | cons key keys ih =>
    simp only [Lib.run, Option.bind_eq_bind] at h
    obtain ⟨⟨value, lru₁⟩, hget, h⟩ := Option.bind_eq_some_iff.mp h
    obtain ⟨⟨vs', lru₂⟩, hrest, ho⟩ := Option.bind_eq_some_iff.mp h
    obtain ⟨-, rfl⟩ := Prod.mk.inj (Option.some.inj ho)
    obtain ⟨calls, hloop⟩ := ih (s := { s with lru := lru₁ }) hrest (i + 1)
    refine ⟨.send cfd (writeMsg Code.setBackupValue key value) (sent i) :: calls, ?_⟩
    simp only [updateLoop, hget, hloop, Option.bind_eq_bind, Option.bind_some]

/-- `update` always returns, and what it has read stands where it stood. -/
theorem update_entries (s : CacheServer) (net : Net) (sent : ℕ → Bool) (ipPort : Str) :
    ∃ calls s', s.update net sent ipPort = some (calls, s') ∧
      s'.lru.entries = s.lru.entries := by
  cases hc : net.connected with
  | false =>
    unfold update
    rw [hc]
    exact ⟨_, s, rfl, rfl⟩
  | true =>
    obtain ⟨lru, hrun, hes, -⟩ := s.lru.run_get_all
    obtain ⟨calls, hloop⟩ := updateLoop_of_run hrun net.cfd sent 0
    refine ⟨[.socket net.cfd, .connect net.cfd (str2sockAddr net.res ipPort) true] ++
      .send net.cfd Code.backupInvalid net.sent :: calls, { s with lru := lru }, ?_, hes⟩
    simp only [update, hc, if_true, hloop, Option.bind_eq_bind, Option.bind_some]

end Update
end DCache.CacheServer
