import DCache.Cache.Server

/-! The loop of `move` without the table: the calls that are made and the keys that are marked
dirty depend only on the keys that are held and on the owners that the ring answers with. -/
namespace DCache.CacheServer
open DCache.Lib DCache.LRU

/-- Every connect and every send succeeds. -/
def Reliable (net : ℕ → Net) : Prop := ∀ i, (net i).connected = true ∧ (net i).sent = true

/-- The calls that hand a key to its new owner, and whether all of them succeed. -/
def handOff (net : Net) (key newAddr : Str) : List SysCall × Bool :=
  let connect := [.socket net.cfd, .close net.cfd,
    .connect net.cfd (str2sockAddr net.res newAddr) net.connected]
  if newAddr ≠ [] ∧ net.connected = false then (connect, false)
  else ((if newAddr ≠ [] then connect else [.socket net.cfd]) ++
    [.send net.cfd (moveMsg key) net.sent], net.sent)

theorem handOff_ok {net : Net} (hc : net.connected = true) (hs : net.sent = true)
    (key newAddr : Str) : handOff net key newAddr =
      ((if newAddr ≠ [] then [.socket net.cfd, .close net.cfd,
        .connect net.cfd (str2sockAddr net.res newAddr) true] else [.socket net.cfd]) ++
        [.send net.cfd (moveMsg key) true], true) := by
  simp only [handOff, hc, hs, Bool.true_eq_false, and_false, if_false]

structure Turn where
  calls : List SysCall
  more : Bool
  marked : Bool

section Transcript
variable (held : Str → Bool) (owner : Str → Option Str) (localAddr : Str) (net : ℕ → Net)

/-- The keys that are held and belong to another address. -/
def Foreign (key : Str) : Prop :=
  held key = true ∧ ∃ newAddr, owner key = some newAddr ∧ newAddr ≠ localAddr

def turn (net : Net) (key : Str) : Option Turn :=
  if held key = true then (owner key).map fun newAddr =>
    if newAddr = localAddr then ⟨[.socket net.cfd], true, false⟩
    else ⟨(handOff net key newAddr).1, (handOff net key newAddr).2, (handOff net key newAddr).2⟩
  else some ⟨[.socket net.cfd], true, false⟩

/-- All calls, with the keys of their turns, and the keys that are marked. -/
def handOver : ℕ → List Str → Option (List (Str × SysCall) × List Str)
  | _, [] => some ([], [])
  | i, key :: keys => do
    let t ← turn held owner localAddr (net i) key
    let calls := t.calls.map (fun call => (key, call))
    let marks := if t.marked then [key] else []
    if t.more then do
      let (calls', marks') ← handOver (i + 1) keys
      some (calls ++ calls', marks ++ marks')
    else some (calls, marks)

variable {held owner localAddr net} {key : Str}

/-- A turn either hands its key off or only opens a descriptor. -/
theorem turn_cases {net : Net} {t : Turn} (h : turn held owner localAddr net key = some t) :
    (t = ⟨[.socket net.cfd], true, false⟩ ∧ ¬ Foreign held owner localAddr key) ∨
    (held key = true ∧ ∃ newAddr, owner key = some newAddr ∧ newAddr ≠ localAddr ∧
      t = ⟨(handOff net key newAddr).1, (handOff net key newAddr).2,
        (handOff net key newAddr).2⟩) := by
  unfold turn at h
  by_cases hk : held key = true
  · rw [if_pos hk] at h
    obtain ⟨newAddr, ho, ht⟩ := Option.map_eq_some_iff.mp h
    by_cases hl : newAddr = localAddr
    · rw [if_pos hl] at ht
      refine Or.inl ⟨ht.symm, fun ⟨_, a, ha, hne⟩ => hne ?_⟩
      rw [← hl]
      exact Option.some.inj (ha.symm.trans ho)
    · rw [if_neg hl] at ht
      exact Or.inr ⟨hk, newAddr, ho, hl, ht.symm⟩
  · rw [if_neg hk] at h
    exact Or.inl ⟨(Option.some.inj h).symm, fun hf => hk hf.1⟩

theorem turn_calls {net : Net} {t : Turn} (h : turn held owner localAddr net key = some t)
    {call : SysCall} (hc : call ∈ t.calls) : call = .socket net.cfd ∨ held key = true ∧
      ∃ newAddr, owner key = some newAddr ∧ newAddr ≠ localAddr ∧
        call ∈ (handOff net key newAddr).1 := by
  rcases turn_cases h with ⟨rfl, -⟩ | ⟨hk, newAddr, ho, hl, rfl⟩
  · exact Or.inl (List.mem_singleton.mp hc)
  · exact Or.inr ⟨hk, newAddr, ho, hl, hc⟩

theorem turn_marked {net : Net} {t : Turn} (h : turn held owner localAddr net key = some t)
    (hm : t.marked = true) : Foreign held owner localAddr key := by
  rcases turn_cases h with ⟨rfl, -⟩ | ⟨hk, newAddr, ho, hl, -⟩
  · cases hm
  · exact ⟨hk, newAddr, ho, hl⟩

theorem turn_owner {net : Net} {t : Turn} (h : turn held owner localAddr net key = some t)
    (hk : held key = true) : (owner key).isSome = true := by
  rw [turn, if_pos hk] at h
  obtain ⟨newAddr, ho, -⟩ := Option.map_eq_some_iff.mp h
  rw [ho]
  rfl

/-- A turn whose calls succeed goes on, and marks the key of another address. -/
theorem turn_reliable (localAddr : Str) {net : Net} (hc : net.connected = true) (hs : net.sent = true)
    (hlook : held key = true → (owner key).isSome = true) : ∃ t,
      turn held owner localAddr net key = some t ∧ t.more = true ∧
        (Foreign held owner localAddr key → t.marked = true) ∧
        ∀ newAddr, held key = true → owner key = some newAddr → newAddr ≠ localAddr →
          t.calls = (handOff net key newAddr).1 := by
  unfold turn Foreign
  by_cases hk : held key = true
  · obtain ⟨a, ho⟩ := Option.isSome_iff_exists.mp (hlook hk)
    by_cases hl : a = localAddr <;> simp [hk, ho, hl, handOff_ok hc hs]
  · simp [hk]

/-- Only foreign keys are handed off or marked. -/
theorem of_handOver {i : ℕ} {keys : List Str} {calls : List (Str × SysCall)} {marks : List Str}
    (h : handOver held owner localAddr net i keys = some (calls, marks)) :
    (∀ call, (key, call) ∈ calls → key ∈ keys ∧ ((∃ fd, call = .socket fd) ∨ held key = true ∧
      ∃ newAddr, owner key = some newAddr ∧ newAddr ≠ localAddr ∧
        ∃ j, call ∈ (handOff (net j) key newAddr).1)) ∧
    (key ∈ marks → key ∈ keys ∧ Foreign held owner localAddr key) := by
  induction keys generalizing i calls marks with
  | nil =>
    obtain ⟨rfl, rfl⟩ := Prod.mk.inj (Option.some.inj h)
    exact ⟨nofun, nofun⟩
  | cons k keys ih =>
    simp only [handOver, Option.bind_eq_bind] at h
    obtain ⟨t, ht, h⟩ := Option.bind_eq_some_iff.mp h
    -- what the first turn adds
    have hcalls : ∀ call, (key, call) ∈ t.calls.map (fun call => (k, call)) →
        key ∈ k :: keys ∧ ((∃ fd, call = .socket fd) ∨ held key = true ∧ ∃ newAddr,
          owner key = some newAddr ∧ newAddr ≠ localAddr ∧
            ∃ j, call ∈ (handOff (net j) key newAddr).1) := by
      intro call hcall
      obtain ⟨c, hc, he⟩ := List.mem_map.mp hcall
      obtain ⟨rfl, rfl⟩ := Prod.mk.inj he
      refine ⟨List.mem_cons_self, ?_⟩
      rcases turn_calls ht hc with hc | ⟨hk, newAddr, ho, hl, hc⟩
      · exact Or.inl ⟨_, hc⟩
      · exact Or.inr ⟨hk, newAddr, ho, hl, i, hc⟩
    have hmarks : key ∈ (if t.marked = true then [k] else []) →
        key ∈ k :: keys ∧ Foreign held owner localAddr key := by
      intro hm
      split_ifs at hm with hmk
      · obtain rfl := List.mem_singleton.mp hm
        exact ⟨List.mem_cons_self, turn_marked ht hmk⟩
      · cases hm
    by_cases hmore : t.more = true
    · rw [if_pos hmore] at h
      obtain ⟨⟨calls', marks'⟩, hr, he⟩ := Option.bind_eq_some_iff.mp h
      obtain ⟨rfl, rfl⟩ := Prod.mk.inj (Option.some.inj he)
      obtain ⟨ihc, ihm⟩ := ih hr
      constructor
      · intro call hcall
        rcases List.mem_append.mp hcall with hcall | hcall
        · exact hcalls call hcall
        · exact (ihc call hcall).imp_left (List.mem_cons_of_mem _)
      · intro hm
        rcases List.mem_append.mp hm with hm | hm
        · exact hmarks hm
        · exact (ihm hm).imp_left (List.mem_cons_of_mem _)
    · rw [if_neg hmore, Option.some.injEq, Prod.mk.injEq] at h
      obtain ⟨rfl, rfl⟩ := h
      exact ⟨hcalls, hmarks⟩

/-- Where all calls succeed and no owner is missing, the loop completes, and it hands off and
marks every foreign key. -/
theorem handOver_reliable (localAddr : Str) (hnet : Reliable net) {keys : List Str}
    (hlook : ∀ key ∈ keys, held key = true → (owner key).isSome = true) (i : ℕ) :
    ∃ calls marks, handOver held owner localAddr net i keys = some (calls, marks) ∧
      (∀ key ∈ keys, Foreign held owner localAddr key → key ∈ marks) ∧
      ∀ key ∈ keys, ∀ newAddr, held key = true → owner key = some newAddr →
        newAddr ≠ localAddr → ∃ j,
          ((handOff (net j) key newAddr).1.map (fun call => (key, call))).Sublist calls := by
  induction keys generalizing i with
  | nil => exact ⟨[], [], rfl, nofun, nofun⟩
  | cons k keys ih =>
    obtain ⟨hk, hkeys⟩ := List.forall_mem_cons.mp hlook
    obtain ⟨t, ht, hmore, hmark, hcalls⟩ :=
      turn_reliable localAddr (hnet i).1 (hnet i).2 hk
    obtain ⟨calls, marks, hr, hms, hcs⟩ := ih hkeys (i + 1)
    refine ⟨t.calls.map (fun call => (k, call)) ++ calls, (if t.marked then [k] else []) ++ marks,
      by simp [handOver, ht, hmore, hr], ?_, ?_⟩
    · refine List.forall_mem_cons.mpr ⟨fun hf => ?_, fun key hmem hf => ?_⟩
      · rw [if_pos (hmark hf)]
        exact List.mem_append_left _ (List.mem_singleton_self _)
      · exact List.mem_append_right _ (hms key hmem hf)
    · refine List.forall_mem_cons.mpr ⟨fun a hk ho hl => ⟨i, ?_⟩, fun key hmem a hk ho hl => ?_⟩
      · rw [hcalls a hk ho hl]
        exact List.sublist_append_left _ _
      · obtain ⟨j, hj⟩ := hcs key hmem a hk ho hl
        exact ⟨j, hj.trans (List.sublist_append_right _ _)⟩

/-- A loop whose calls all succeed asks for the owner of every key that is held. -/
theorem owner_of_handOver (hnet : Reliable net) {i : ℕ} {keys : List Str}
    (h : (handOver held owner localAddr net i keys).isSome = true) :
    ∀ key ∈ keys, held key = true → (owner key).isSome = true := by
  induction keys generalizing i with
  | nil => exact nofun
  | cons k keys ih =>
    obtain ⟨o, h⟩ := Option.isSome_iff_exists.mp h
    simp only [handOver, Option.bind_eq_bind] at h
    obtain ⟨t, ht, h⟩ := Option.bind_eq_some_iff.mp h
    have hk : held k = true → (owner k).isSome = true := turn_owner ht
    obtain ⟨t', ht', hmore, -⟩ :=
      turn_reliable localAddr (hnet i).1 (hnet i).2 hk
    obtain rfl := Option.some.inj (ht.symm.trans ht')
    rw [if_pos hmore] at h
    obtain ⟨r, hr, -⟩ := Option.bind_eq_some_iff.mp h
    exact List.forall_mem_cons.mpr ⟨hk, ih (by rw [hr]; rfl)⟩

end Transcript

section Refinement

/-- The table `c'` is `c` up to order, with the keys `marks` dirty. -/
def Marked (c : Cache Str Str) (marks : List Str) (c' : Cache Str Str) : Prop :=
  ∀ k, find c'.entries k =
    (find c.entries k).map (fun e => if k ∈ marks then { e with dirty := true } else e)

theorem Marked.hasKey {c c' : Cache Str Str} {marks : List Str} (h : Marked c marks c') :
    c'.hasKey = c.hasKey := by
  funext k
  rw [Bool.eq_iff_iff, Cache.hasKey_iff, Cache.hasKey_iff, ← find_isSome, ← find_isSome, h k,
    Option.isSome_map]

theorem Marked.nil (c : Cache Str Str) : Marked c [] c := fun k => by simp

theorem Marked.trans {c c' c'' : Cache Str Str} {ms ms' : List Str} (h : Marked c ms c')
    (h' : Marked c' ms' c'') : Marked c (ms ++ ms') c'' := by
  intro k
  rw [h' k, h k, Option.map_map]
  congr 1
  funext e
  by_cases hk : k ∈ ms <;> by_cases hk' : k ∈ ms' <;> simp [hk, hk']

variable (cbHashfunc : Str → ℤ)

/-- The turns of `s.move`. -/
def moveTurn (s : CacheServer) : Net → Str → Option Turn :=
  turn s.lru.hasKey (s.cacheServerHash.conhashGetCacheServer cbHashfunc) s.localAddr

def moveTranscript (s : CacheServer) (net : ℕ → Net) :
    ℕ → List Str → Option (List (Str × SysCall) × List Str) :=
  handOver s.lru.hasKey (s.cacheServerHash.conhashGetCacheServer cbHashfunc) s.localAddr net

theorem moveKey_of_absent (s : CacheServer) (net : Net) {key : Str} (hk : s.lru.hasKey key = false) :
    s.moveTurn cbHashfunc net key = some ⟨[.socket net.cfd], true, false⟩ ∧
      s.moveKey cbHashfunc net key = some ([.socket net.cfd], true, s) := by
  unfold moveTurn turn moveKey
  rw [hk]
  exact ⟨rfl, rfl⟩

/-- A turn for a key that is there promotes it and marks it when it is sent. -/
theorem moveKey_of_get (s : CacheServer) (net : Net) {key value : Str} {lru : Cache Str Str}
    (hk : s.lru.hasKey key = true) (hget : s.lru.get key = some (value, lru)) :
    s.moveKey cbHashfunc net key = (s.moveTurn cbHashfunc net key).map fun t =>
      (t.calls, t.more, { s with lru := if t.marked then lru.setDirty key else lru }) := by
  unfold moveTurn turn moveKey
  simp only [hk, if_true, hget, Option.bind_eq_bind, Option.bind_some]
  cases ho : s.cacheServerHash.conhashGetCacheServer cbHashfunc key with
  | none => rfl
  | some newAddr =>
    simp only [Option.bind_some, Option.map_some]
    by_cases hl : newAddr = s.localAddr
    · simp [hl]
    · simp only [ne_eq, hl, not_false_eq_true, if_true, if_false]
      by_cases hconn : newAddr ≠ [] ∧ net.connected = false
      · simp [handOff, hconn]
      · cases hsent : net.sent <;> simp [handOff, hconn, hsent]

theorem moveKey_eq (s : CacheServer) (net : Net) (key : Str) :
    (s.moveTurn cbHashfunc net key = none ∧ s.moveKey cbHashfunc net key = none) ∨
    ∃ t lru, s.moveTurn cbHashfunc net key = some t ∧
      s.moveKey cbHashfunc net key = some (t.calls, t.more, { s with lru := lru }) ∧
      Marked s.lru (if t.marked then [key] else []) lru := by
  by_cases hk : s.lru.hasKey key = true
  · obtain ⟨e, he⟩ := Option.isSome_iff_exists.mp (find_isSome.mpr ((s.lru.hasKey_iff key).mp hk))
    obtain ⟨lru, hget, hes⟩ := s.lru.get_of_find key he
    have hlru : Marked s.lru [] lru := fun k => by
      rw [hes, s.lru.find_promoted key k he]
      simp
    rw [s.moveKey_of_get cbHashfunc net hk hget]
    cases ht : s.moveTurn cbHashfunc net key with
    | none => exact Or.inl ⟨rfl, rfl⟩
    | some t =>
      refine Or.inr ⟨t, _, rfl, rfl, ?_⟩
      by_cases hm : t.marked = true
      · have hdirty : Marked lru [key] (lru.setDirty key) := fun k => by simp
        rw [if_pos hm, if_pos hm]
        exact hlru.trans hdirty
      · rw [if_neg hm, if_neg hm]
        exact hlru
  · obtain ⟨ht, hm⟩ := s.moveKey_of_absent cbHashfunc net (Bool.eq_false_iff.mpr hk)
    exact Or.inr ⟨_, s.lru, ht, hm, Marked.nil s.lru⟩

theorem moveLoop_eq (net : ℕ → Net) (keys : List Str) (i : ℕ) (s : CacheServer) :
    (s.moveTranscript cbHashfunc net i keys = none ∧ moveLoop cbHashfunc net i s keys = none) ∨
    ∃ calls marks lru, s.moveTranscript cbHashfunc net i keys = some (calls, marks) ∧
      moveLoop cbHashfunc net i s keys = some (calls, { s with lru := lru }) ∧
      Marked s.lru marks lru := by
  induction keys generalizing i s with
  | nil => exact Or.inr ⟨[], [], s.lru, rfl, rfl, .nil _⟩
  | cons key keys ih =>
    simp only [moveTranscript, handOver, moveLoop, Option.bind_eq_bind]
    change (Option.bind (s.moveTurn cbHashfunc (net i) key) _ = none ∧ _) ∨
      ∃ calls marks lru, Option.bind (s.moveTurn cbHashfunc (net i) key) _ = some (calls, marks) ∧ _
    rcases s.moveKey_eq cbHashfunc (net i) key with ⟨ht, hm⟩ | ⟨t, lru, ht, hm, hl⟩
    · exact Or.inl ⟨by rw [ht]; rfl, by rw [hm]; rfl⟩
    · simp only [ht, hm, Option.bind_some]
      by_cases hmore : t.more = true
      · simp only [hmore, if_true]
        have hsame : moveTranscript cbHashfunc { s with lru := lru } net (i + 1) keys =
            s.moveTranscript cbHashfunc net (i + 1) keys := by
          simp only [moveTranscript, hl.hasKey]
        rcases ih (i + 1) { s with lru := lru } with ⟨ht', hm'⟩ | ⟨calls, marks, lru', ht', hm', hl'⟩
        · rw [hsame] at ht'
          exact Or.inl ⟨by rw [moveTranscript] at ht'; rw [ht']; rfl, by rw [hm']; rfl⟩
        · rw [hsame, moveTranscript] at ht'
          exact Or.inr ⟨_, _, lru', by rw [ht']; rfl, by rw [hm']; rfl, hl.trans hl'⟩
      · simp only [hmore]
        exact Or.inr ⟨_, _, lru, rfl, rfl, hl⟩

/-- The snapshot that `move` goes through. -/
def moveKeys (s : CacheServer) : List Str :=
  if s.state = 0 then keysOf s.lru.entries else keysOf s.lruBackup.entries

/-- A move makes the calls of its transcript, and marks the keys of it. -/
theorem move_eq (s : CacheServer) (net : ℕ → Net) :
    (s.moveTranscript cbHashfunc net 0 s.moveKeys = none ∧ s.move cbHashfunc net = none) ∨
    ∃ calls marks s', s.moveTranscript cbHashfunc net 0 s.moveKeys = some (calls, marks) ∧
      s.move cbHashfunc net = some (calls, s') ∧ Marked s.lru marks s'.lru ∧
      s'.cacheServerHash = s.cacheServerHash ∧ s'.localAddr = s.localAddr := by
  have hkeys : (if s.state = 0 then s.lru.lruKeysOneshot else s.lruBackup.lruKeysOneshot) =
      s.moveKeys := by
    simp only [moveKeys, Cache.lruKeysOneshot_eq]
  unfold move
  simp only [hkeys, Option.bind_eq_bind]
  rcases moveLoop_eq cbHashfunc net s.moveKeys 0 s with
    ⟨ht, hm⟩ | ⟨calls, marks, lru, ht, hm, hl⟩
  · exact Or.inl ⟨ht, by rw [hm]; rfl⟩
  · refine Or.inr ⟨calls, marks, if s.state = 0 then { s with lru := lru }
      else { s with lru := lru, state := 0, backupInvalid := 1 }, ht, ?_, ?_, ?_⟩
    · simp only [hm, Option.bind_some]
      split_ifs <;> rfl
    · split_ifs <;> exact hl
    · split_ifs <;> exact ⟨rfl, rfl⟩

end Refinement
end DCache.CacheServer
