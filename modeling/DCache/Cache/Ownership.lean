import DCache.Cache.Exclusion
import DCache.Cache.Writes

/-! What a move of `MOVE_DATA` leaves behind. It takes its list of keys before it locks the mutex of
the writers, so a key that is stored in between is not looked at. -/
namespace DCache.CacheThreads
open DCache.Lib
open CacheServer (Net Reliable)

section Codes
variable {localAddr key key' : Str} {net : Net} {more : Prog}

/-- The step tells that the key is absent, that it is owned by this server or that it is marked; or
it does not belong to a move that has read 0. -/
def Settles (localAddr key : Str) : (op : Op) → op.Res → Prop
  | .setDirty .lru key', _ => key' = key
  | .owner key', addr => key' = key ∧ addr = localAddr
  | .hasKey .lru key', present => key' = key ∧ present = false
  | .lruKeysOneshot .lru, keys => key ∉ (show List Str from keys)
  | .readState, state => state ≠ (0 : ℤ)
  | _, _ => False

/-- The thread may unlock `lru_mutex` without having settled the key. -/
def Misses (localAddr key : Str) (c : Prog) : Prop :=
  c.May (fun op => op = .unlock .lru) (Settles localAddr key)

theorem misses_call {op : Op} {next : op.Res → Prog} (hop : op ≠ .unlock .lru)
    (h : Misses localAddr key (.call op next)) :
    ∃ r, ¬ Settles localAddr key op r ∧ Misses localAddr key (next r) := h.resolve_left hop

theorem misses_handOff (hc : net.connected = true) (hs : net.sent = true) {newAddr : Str}
    (h : Misses localAddr key (handOff net key' newAddr more)) :
    key' ≠ key ∧ Misses localAddr key more := by
  have hsend : Misses localAddr key (sendKey net key' more) →
      key' ≠ key ∧ Misses localAddr key more := by
    intro h
    obtain ⟨_, -, h⟩ := misses_call (by simp) h
    rw [hs, if_pos rfl] at h
    obtain ⟨_, hne, h⟩ := misses_call (by simp) h
    exact ⟨hne, h⟩
  unfold handOff at h
  simp only [hc, if_true] at h
  split_ifs at h with haddr
  · obtain ⟨_, -, h⟩ := misses_call (by simp) h
    obtain ⟨_, -, h⟩ := misses_call (by simp) h
    exact hsend h
  · exact hsend h

/-- A turn of the loop settles its key. -/
theorem misses_moveKey (hc : net.connected = true) (hs : net.sent = true)
    (h : Misses localAddr key (moveKey localAddr net key' more)) :
    key' ≠ key ∧ Misses localAddr key more := by
  obtain ⟨_, -, h⟩ := misses_call (by simp) h
  obtain ⟨present, hpresent, h⟩ := misses_call (by simp) h
  cases (present : Bool) with
  | false => exact ⟨fun hk => hpresent ⟨hk, rfl⟩, h⟩
  | true =>
    obtain ⟨_, -, h⟩ := misses_call (by simp) h
    obtain ⟨(newAddr : Str), howner, h⟩ := misses_call (by simp) h
    change Misses localAddr key
      (if newAddr ≠ localAddr then handOff net key' newAddr more else more) at h
    split_ifs at h with hl
    · exact misses_handOff hc hs h
    · exact ⟨fun hk => howner ⟨hk, not_not.mp hl⟩, h⟩

theorem notMem_of_misses_moveLoop {net : ℕ → Net} (hnet : Reliable net) {keys : List Str} {n : ℕ}
    (h : Misses localAddr key (moveLoop localAddr net n keys)) : key ∉ keys := by
  induction keys generalizing n with
  | nil => exact List.not_mem_nil
  | cons key' keys ih =>
    obtain ⟨hne, hrest⟩ := misses_moveKey (hnet n).1 (hnet n).2 h
    exact List.not_mem_cons_of_ne_of_not_mem (Ne.symm hne) (ih hrest)

/-- A move without failures misses the keys that are not in its list. -/
theorem notMem_of_misses {net : ℕ → Net} (hnet : Reliable net) {keys : List Str}
    (h : Misses localAddr key (moveKeys localAddr net .lru keys)) : key ∉ keys := by
  obtain ⟨_, -, h⟩ := misses_call (by simp) h
  exact notMem_of_misses_moveLoop hnet h

theorem not_misses_takeKeys {net : ℕ → Net} (hnet : Reliable net) :
    ¬ Misses localAddr key (takeKeys localAddr net 0) := by
  intro h
  obtain ⟨keys, hkeys, h⟩ := misses_call (by simp) h
  exact hkeys (notMem_of_misses hnet h)

theorem not_misses_move {net : ℕ → Net} (hnet : Reliable net) :
    ¬ Misses localAddr key (move localAddr net) := by
  intro h
  obtain ⟨state, hstate, h⟩ := misses_call (by simp) h
  obtain rfl : state = (0 : ℤ) := not_not.mp hstate
  exact not_misses_takeKeys hnet h

theorem Misses.unlocks {c : Prog} (h : Misses localAddr key c) : Unlocks c :=
  h.mono (fun _ hop => ⟨.lru, hop⟩) fun _ _ hf => hf.elim

end Codes

section Policy

/-- The thread that moves knows that `state` is 0, and it stores nothing. -/
def settling : Policy where
  reads v := v.state ≠ none
  returns v state := v.state = some state
  writes _ := False
  marks _ _ := True
  stores v := v.state = none

theorem settling_steady : settling.Steady (some 0) where
  reads _ := Option.some_ne_none 0
  returns r r' h h' := by
    have hr : (0 : ℤ) = r := Option.some.inj h
    have hr' : (0 : ℤ) = r' := Option.some.inj h'
    rw [← hr, ← hr']
  writes r h hr := hr (Option.some.inj h).symm
  marks _ _ := trivial

end Policy

section Step
variable {cbHashfunc : Str → ℤ} {j : ℕ} {p p' : System} {e : Event} {o : Obs}

/-- The thread `j` runs moves of `MOVE_DATA` whose calls all succeed, and nothing else; no other
thread moves. -/
def MovesOnly (j : ℕ) : Event → Prop
  | .moveData i net => i = j ∧ Reliable net
  | .recoverBackup _ _ => False
  | .dequeue i _ | .updateBackup i _ _ _ => i ≠ j
  | _ => True

/-- What is stored while the move has its list of keys, and has not locked `lru_mutex` yet, is in
the list or is owned by this server. -/
def StoresListed (cbHashfunc : Str → ℤ) (j : ℕ) (p : System) : Event → Prop
  | .step i => ∀ key value next, p.code i = .call (.set .lru key value) next →
    ∀ net keys, p.code j = moveKeys p.mem.server.localAddr net .lru keys →
      key ∈ keys ∨ p.mem.server.Owns cbHashfunc key
  | _ => True

/-- Where the thread may be that moves and does not hold `lru_mutex`. -/
def Outside (localAddr : Str) (c : Prog) : Prop :=
  ¬ Unlocks c ∨ ∃ net, Reliable net ∧ (c = move localAddr net ∨ c = takeKeys localAddr net 0 ∨
    ∃ keys, c = moveKeys localAddr net .lru keys)

def Settled (cbHashfunc : Str → ℤ) (s : CacheServer) (key : Str) : Prop :=
  ∀ e, LRU.find s.lru.entries key = some e → e.dirty = true ∨ s.Owns cbHashfunc key

/-- Every key that the move may miss is settled. -/
structure Settling (cbHashfunc : Str → ℤ) (j : ℕ) (p : System) : Prop where
  disciplined : Disciplined settling (knownTo j) p
  state : p.mem.server.state = 0
  place : p.mem.mutex .lru = some j ∨ Outside p.mem.server.localAddr (p.code j)
  settled : ∀ key, Misses p.mem.server.localAddr key (p.code j) →
    Settled cbHashfunc p.mem.server key

theorem settling_idle {s : CacheServer} (hs : s.state = 0) : Settling cbHashfunc j (idle s) where
  disciplined := disciplined_idle s
  state := hs
  place := Or.inr (Or.inl Code.not_may_done)
  settled _ h := absurd h Code.not_may_done

theorem Disciplined.step_settling (hp : Disciplined settling (knownTo j) p)
    (hs : p.mem.server.state = 0) (hj : MovesOnly j e)
    (h : CacheThreads.step cbHashfunc p e = some (o, p')) :
    Disciplined settling (knownTo j) p' := by
  refine hp.step_known (fun _ hv => hv) (fun _ _ hv => hv) (fun _ hv => hv.elim)
    (fun i c s hstart => ?_) h
  rcases starts_cases hstart with ⟨request, rest, sent, rfl, -, rfl, rfl⟩ | ⟨net, rfl, rfl, rfl⟩ |
    ⟨net, rfl, -, -⟩ | ⟨net, sent, ipPort, -, rfl, rfl⟩
  · exact ⟨obeys_handle (fun _ => if_neg hj) request sent, Or.inr rfl⟩
  · obtain ⟨rfl, -⟩ := hj
    rw [knownTo, if_pos rfl, hs]
    exact ⟨obeys_move settling_steady _ net, Or.inl rfl⟩
  · exact hj.elim
  · exact ⟨obeys_update net sent ipPort, Or.inr rfl⟩

/-- A step that settles the key for the move. -/
theorem settled_of_settles {i : ℕ} {op : Op} {r : op.Res} {m m' : Shared} {key : Str}
    (hs : m.server.state = 0) (hop : perform cbHashfunc i op m = .ok r m')
    (h : Settles m.server.localAddr key op r) : Settled cbHashfunc m'.server key := by
  cases op with
  | setDirty t key' =>
    cases t with
    | lruBackup => exact h.elim
    | lru =>
      obtain rfl : key' = key := h
      obtain ⟨-, rfl⟩ := Outcome.of_ok hop
      intro e he
      have hmark : LRU.find (m.server.lru.setDirty key').entries key' = some e := he
      rw [LRU.Cache.find_setDirty] at hmark
      obtain ⟨e', -, rfl⟩ := Option.map_eq_some_iff.mp hmark
      exact Or.inl (by simp)
  | owner key' =>
    obtain ⟨rfl, haddr⟩ := h
    obtain ⟨howner, rfl⟩ := of_perform_owner hop
    intro e _
    right
    rw [CacheServer.Owns, howner]
    exact congrArg some haddr
  | hasKey t key' =>
    cases t with
    | lruBackup => exact h.elim
    | lru =>
      obtain ⟨rfl, habsent⟩ := h
      obtain ⟨hr, rfl⟩ := Outcome.of_ok hop
      intro e he
      have hkey : m.server.lru.hasKey key' = true := by
        rw [m.server.lru.hasKey_iff, ← LRU.find_isSome, he]
        rfl
      have : m.server.lru.hasKey key' = false := hr.trans habsent
      rw [hkey] at this
      cases this
  | lruKeysOneshot t =>
    cases t with
    | lruBackup => exact h.elim
    | lru =>
      obtain ⟨rfl, rfl⟩ := Outcome.of_ok hop
      intro e he
      have hmem : key ∈ m.server.lru.lruKeysOneshot := by
        rw [LRU.Cache.lruKeysOneshot_eq, ← LRU.find_isSome, he]
        rfl
      exact absurd hmem h
  | readState =>
    obtain ⟨rfl, -⟩ := Outcome.of_ok hop
    exact absurd hs h
  | _ => exact h.elim

/-- A step that stores nothing under the key keeps it settled. -/
theorem Settled.perform {i : ℕ} {op : Op} {r : op.Res} {m m' : Shared} {key : Str}
    (h : Settled cbHashfunc m.server key) (hop : perform cbHashfunc i op m = .ok r m')
    (hset : ∀ value, op = .set .lru key value → m.server.Owns cbHashfunc key) :
    Settled cbHashfunc m'.server key := by
  obtain ⟨hring, hlocal, -⟩ := frame_of_perform hop
  have howns : m.server.Owns cbHashfunc key → m'.server.Owns cbHashfunc key := fun ho => by
    rw [CacheServer.Owns, hring, hlocal]
    exact ho
  have hfind := find_of_perform hop .lru key
  simp only [table] at hfind
  intro e he
  rcases hfind with hf | ⟨value, hop, -⟩ | ⟨key', value, -, -, hf⟩ | ⟨-, hf⟩
  · rw [hf] at he
    exact (h e he).imp_right howns
  · exact Or.inr (howns (hset value hop))
  · rw [hf] at he
    cases he
  · rw [hf] at he
    obtain ⟨e', -, rfl⟩ := Option.map_eq_some_iff.mp he
    exact Or.inl rfl

/-- A mutex that is held stays held until it is unlocked. -/
theorem mutex_of_held {i : ℕ} {op : Op} {r : op.Res} {m m' : Shared}
    (hop : perform cbHashfunc i op m = .ok r m') (hj : m.mutex .lru = some j)
    (hne : op ≠ .unlock .lru) : m'.mutex .lru = some j := by
  rcases mutex_of_perform hop with ⟨t, rfl, hfree, hm⟩ | ⟨t, rfl, hm⟩ | ⟨-, hm⟩
  · rw [hm, Function.update_of_ne, hj]
    rintro rfl
    rw [hj] at hfree
    cases hfree
  · rw [hm, Function.update_of_ne, hj]
    rintro rfl
    exact hne rfl
  · rw [hm, hj]

/-- The thread that moves goes on outside the section, enters it, or leaves it for good. -/
theorem Settling.place_step (hp : Settling cbHashfunc j p) {op : Op} {next : op.Res → Prog}
    {r : op.Res} {m : Shared} (hcode : p.code j = .call op next)
    (hop : perform cbHashfunc j op p.mem = .ok r m) :
    m.mutex .lru = some j ∨ Outside p.mem.server.localAddr (next r) := by
  rcases hp.place with hheld | hout | ⟨net, hnet, hmove | htake | ⟨keys, hkeys⟩⟩
  · by_cases hunlock : op = .unlock .lru
    · subst hunlock
      have hj := hp.disciplined j
      rw [hcode] at hj
      exact Or.inr (Or.inl hj.1.2)
    · exact Or.inl (mutex_of_held hop hheld hunlock)
  · refine Or.inr (Or.inl fun hrest => hout ?_)
    rw [hcode]
    exact Code.May.of_next hrest id
  · rw [hcode] at hmove
    cases hmove
    obtain ⟨rfl, rfl⟩ := Outcome.of_ok hop
    rw [hp.state]
    exact Or.inr (Or.inr ⟨net, hnet, Or.inr (Or.inl rfl)⟩)
  · rw [hcode] at htake
    cases htake
    exact Or.inr (Or.inr ⟨net, hnet, Or.inr (Or.inr ⟨r, rfl⟩)⟩)
  · rw [hcode] at hkeys
    cases hkeys
    obtain ⟨-, rfl⟩ := of_perform_lock hop
    exact Or.inl (by simp [Shared.setMutex])

/-- Nothing is stored under a key that the move may miss, unless the server owns it. -/
theorem Settling.owns_of_set (hp : Settling cbHashfunc j p) {i : ℕ} {key value : Str}
    {next : Unit → Prog} (hstores : StoresListed cbHashfunc j p (.step i))
    (hcode : p.code i = .call (.set .lru key value) next)
    (hmiss : Misses p.mem.server.localAddr key (p.code j)) : p.mem.server.Owns cbHashfunc key := by
  have hheld : p.mem.mutex .lru = some i := hp.disciplined.set hcode
  have hij : i ≠ j := by
    rintro rfl
    have hi := hp.disciplined i
    rw [hcode] at hi
    have hnone : knownTo i i p.mem.server.state = none := hi.1.1.2
    rw [knownTo, if_pos rfl] at hnone
    cases hnone
  rcases hp.place with hj | hout | ⟨net, hnet, hmove | htake | ⟨keys, hkeys⟩⟩
  · exact absurd (Option.some.inj (hheld.symm.trans hj)) hij
  · exact absurd hmiss.unlocks hout
  · rw [hmove] at hmiss
    exact absurd hmiss (not_misses_move hnet)
  · rw [htake] at hmiss
    exact absurd hmiss (not_misses_takeKeys hnet)
  · rcases hstores key value next hcode net keys hkeys with hmem | howns
    · rw [hkeys] at hmiss
      exact absurd hmem (notMem_of_misses hnet hmiss)
    · exact howns

theorem Settling.step (hp : Settling cbHashfunc j p) (hj : MovesOnly j e)
    (hstores : StoresListed cbHashfunc j p e)
    (h : CacheThreads.step cbHashfunc p e = some (o, p')) : Settling cbHashfunc j p' := by
  have hdisc := hp.disciplined.step_settling hp.state hj h
  cases step_cases h with
  | idle => exact hp
  | appended request hroom => exact ⟨hdisc, hp.state, hp.place, hp.settled⟩
  | @started _ i c server hs hdone =>
    obtain ⟨hring, hlocal⟩ := frame_of_starts hs
    have hstate : server.state = 0 := by
      rw [state_of_starts hs, hp.state]
      rintro net rfl
      exact hj
    have hsettled : ∀ key, Settled cbHashfunc p.mem.server key → Settled cbHashfunc server key := by
      intro key hkey e he
      have htable : server.lru = p.mem.server.lru := table_of_starts hs .lru
      rw [htable] at he
      rw [CacheServer.Owns, hring, hlocal]
      exact hkey e he
    by_cases hij : j = i
    · subst hij
      rcases starts_cases hs with ⟨request, rest, sent, rfl, -⟩ | ⟨net, rfl, rfl, -⟩ |
        ⟨net, rfl, -⟩ | ⟨net, sent, ipPort, rfl, -⟩
      · exact absurd rfl hj
      · refine ⟨hdisc, hstate, Or.inr (Or.inr ⟨net, hj.2, Or.inl ?_⟩), fun key hmiss => ?_⟩
        · simp only [Function.update_self, hlocal]
        · simp only [Function.update_self, hlocal] at hmiss
          exact absurd hmiss (not_misses_move hj.2)
      · exact hj.elim
      · exact absurd rfl hj
    · refine ⟨hdisc, hstate, ?_, fun key hmiss => ?_⟩
      · simp only [Function.update_of_ne hij, hlocal]
        exact hp.place
      · simp only [Function.update_of_ne hij, hlocal] at hmiss
        exact hsettled key (hp.settled key hmiss)
  | @acted i op next r m hcode hop =>
    obtain ⟨-, hlocal, -⟩ := frame_of_perform hop
    have hstate : m.server.state = 0 := by
      rcases state_of_perform hop with ⟨state, rfl, -⟩ | ⟨-, hs⟩
      · have hi := hp.disciplined i
        rw [hcode] at hi
        exact hi.1.elim
      · rw [hs, hp.state]
    have hkeep : ∀ key, Misses p.mem.server.localAddr key (p.code j) →
        Settled cbHashfunc m.server key := fun key hmiss =>
      (hp.settled key hmiss).perform hop fun value hset => by
        subst hset
        exact hp.owns_of_set hstores hcode hmiss
    by_cases hij : j = i
    · subst hij
      refine ⟨hdisc, hstate, ?_, fun key hmiss => ?_⟩
      · simp only [Function.update_self, hlocal]
        exact hp.place_step hcode hop
      · simp only [Function.update_self, hlocal] at hmiss
        by_cases hsettle : Settles p.mem.server.localAddr key op r
        · exact settled_of_settles hp.state hop hsettle
        · apply hkeep key
          rw [hcode]
          exact Code.May.of_next hmiss hsettle
    · refine ⟨hdisc, hstate, ?_, fun key hmiss => ?_⟩
      · simp only [Function.update_of_ne hij, hlocal]
        refine hp.place.imp_left fun hj => mutex_of_held hop hj ?_
        rintro rfl
        exact hij (Option.some.inj (hj.symm.trans (hp.disciplined.unlock hcode)))
      · simp only [Function.update_of_ne hij, hlocal] at hmiss
        exact hkeep key hmiss

/-- Where every key that is stored between the list of keys and the lock is in the list or owned: a
move without failures that comes to unlock `lru_mutex` leaves only keys that are dirty or owned. -/
theorem owned_or_dirty_of_run {s : CacheServer} {es : List Event} {obs : List Obs}
    (hs : s.state = 0) (hes : ∀ e ∈ es, MovesOnly j e)
    (ha : Allowed (CacheThreads.step cbHashfunc) (StoresListed cbHashfunc j) (idle s) es)
    (h : run (CacheThreads.step cbHashfunc) (idle s) es = some (obs, p)) :
    ∀ next, p.code j = .call (.unlock .lru) next →
      ∀ key e, LRU.find p.mem.server.lru.entries key = some e → e.dirty = false →
        p.mem.server.Owns cbHashfunc key := by
  have hp : Settling cbHashfunc j p := run_kept (fun _ _ _ _ hp he hstep => hp.step he.1 he.2 hstep)
    (settling_idle hs) (ha.and hes) h
  intro next hcode key e he hclean
  have hmiss : Misses p.mem.server.localAddr key (p.code j) := by
    rw [hcode]
    exact Or.inl rfl
  rcases hp.settled key hmiss e he with hd | howns
  · rw [hclean] at hd
    cases hd
  · exact howns

end Step

section Snapshot

def setX : CacheServer.Request := ⟨Code.setValue, [], lit "x", lit "w", 5⟩

/-- A key of as many bytes as a label of the other server has. -/
def foreign : Str := lit "a key of 17 bytes"

/-- A server on a ring of two that holds a key of its own and one of the other server. The hash of a
text is its length. -/
def sharing : CacheServer :=
  { CacheServer.new with
    lru := (CacheServer.new.lru.set (lit "k") (lit "v")).set foreign (lit "v")
    localAddr := lit "0.0.0.0:6000"
    cacheServerHash := ([lit "0.0.0.0:6000", lit "10.0.0.2:6001"].foldlM
      (fun c ipPort => Ring.ConHash.conhashAddCacheServer (fun s => s.length) c ipPort)
        Ring.ConHash.new).getD .new }

/-- A worker stores a key of this server after the move has taken its list, and the move goes on to
the unlock of `lru_mutex`. -/
def storeOwned : List Event :=
  .moveData 1 someNet :: .step 1 :: .step 1 :: .append setX :: .dequeue 2 true ::
    List.replicate 4 (.step 2) ++ List.replicate 14 (.step 1)

set_option maxRecDepth 4000 in
theorem owned_or_dirty_of_storeOwned : ∃ obs p next,
    run (step fun s => s.length) (idle sharing) storeOwned = some (obs, p) ∧
    p.code 1 = .call (.unlock .lru) next ∧
    p.mem.server.lru.entries =
      [⟨lit "x", lit "w", false⟩, ⟨lit "k", lit "v", false⟩, ⟨foreign, lit "v", true⟩] ∧
    ∀ key e, LRU.find p.mem.server.lru.entries key = some e → e.dirty = false →
      p.mem.server.Owns (fun s => s.length) key := by
  have hes : ∀ e ∈ storeOwned, MovesOnly 1 e := by
    simp [storeOwned, MovesOnly, CacheServer.Reliable, someNet]
  have howns : sharing.Owns (fun s => s.length) (lit "x") := by
    change sharing.cacheServerHash.conhashGetCacheServer _ _ = _
    decide +kernel
  have hother : ∀ (p : System) i op next, p.code i = .call op next →
      (∀ key value, op ≠ .set .lru key value) →
        StoresListed (fun s => s.length) 1 p (.step i) := by
    intro p i op next hp hop key value next' hcode
    rw [hp] at hcode
    cases hcode
    exact absurd rfl (hop key value)
  have ha : Allowed (step fun s => s.length) (StoresListed (fun s => s.length) 1) (idle sharing)
      storeOwned := by
    refine ⟨trivial, hother _ _ _ _ rfl ?_, hother _ _ _ _ rfl ?_, trivial, trivial,
      hother _ _ _ _ rfl ?_, hother _ _ _ _ rfl ?_, ?_, hother _ _ _ _ rfl ?_,
      hother _ _ _ _ rfl ?_, hother _ _ _ _ rfl ?_, hother _ _ _ _ rfl ?_, hother _ _ _ _ rfl ?_,
      hother _ _ _ _ rfl ?_, hother _ _ _ _ rfl ?_, hother _ _ _ _ rfl ?_, hother _ _ _ _ rfl ?_,
      hother _ _ _ _ rfl ?_, hother _ _ _ _ rfl ?_, hother _ _ _ _ rfl ?_, hother _ _ _ _ rfl ?_,
      hother _ _ _ _ rfl ?_, hother _ _ _ _ rfl ?_, trivial⟩
    case refine_5 =>
      intro key value next hcode net keys _
      cases hcode
      exact Or.inr howns
    all_goals rintro _ _ ⟨⟩
  obtain ⟨obs, p, next, hrun, hcode, hentries⟩ : ∃ obs p next,
      run (step fun s => s.length) (idle sharing) storeOwned = some (obs, p) ∧
      p.code 1 = .call (.unlock .lru) next ∧ p.mem.server.lru.entries =
        [⟨lit "x", lit "w", false⟩, ⟨lit "k", lit "v", false⟩, ⟨foreign, lit "v", true⟩] :=
    ⟨_, _, _, rfl, rfl, rfl⟩
  exact ⟨obs, p, next, hrun, hcode, hentries, owned_or_dirty_of_run rfl hes ha hrun _ hcode⟩

/-- The worker stores `x` after the move has taken its list of keys. -/
def lateStore : List Event :=
  .moveData 1 someNet :: .step 1 :: .step 1 :: .append setX :: .dequeue 2 true ::
    List.replicate 4 (.step 2) ++ List.replicate 10 (.step 1)

set_option maxRecDepth 4000 in
theorem not_owned_or_dirty : ∃ obs p next,
    run (step fun _ => 0) (idle onePair) lateStore = some (obs, p) ∧
    p.code 1 = .call (.unlock .lru) next ∧
    LRU.find p.mem.server.lru.entries (lit "x") = some ⟨lit "x", lit "w", false⟩ ∧
    ¬ p.mem.server.Owns (fun _ => 0) (lit "x") := by
  refine ⟨_, _, _, rfl, rfl, rfl, fun howns => ?_⟩
  cases howns

end Snapshot
end DCache.CacheThreads
