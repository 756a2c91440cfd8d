import DCache.Cache.Locks
import DCache.Cache.Migration

/-! Keys that are sent to another server. An entry that was handed over stays in the table, marked
dirty; a later `move` or `update` sends it again, unless the ring gives it back to this server
before. -/
namespace DCache.CacheThreads
open DCache.Lib
open CacheServer (Net SysCall moveMsg writeMsg moveMsg_eq wireName takeWhile_cstr_line)

section Messages
variable {key key' value : Str}

/-- The message is a `SET_VALUE` or `SET_BACKUP_VALUE` for the key. -/
def NamesKey (key buf : Str) : Prop :=
  (buf.takeWhile (fun b => b ≠ newline) = Code.setValue ∨
    buf.takeWhile (fun b => b ≠ newline) = Code.setBackupValue) ∧
  ((buf.dropWhile (fun b => b ≠ newline)).drop 1).takeWhile (fun b => b ≠ newline) = wireName key

theorem namesKey_moveMsg : NamesKey key (moveMsg key') ↔ wireName key' = wireName key := by
  have hline : newline ∉ Code.setValue := by decide
  rw [NamesKey, moveMsg_eq, takeWhile_line hline, dropWhile_line hline]
  exact and_iff_right (Or.inl rfl)

theorem namesKey_writeMsg :
    NamesKey key (writeMsg Code.setBackupValue key' value) ↔ wireName key' = wireName key := by
  have hline : newline ∉ Code.setBackupValue := by decide
  have hbuf : writeMsg Code.setBackupValue key' value =
      Code.setBackupValue ++ newline :: (cstr key' ++ newline :: cstr value) := by
    simp [writeMsg]
  rw [NamesKey, hbuf, takeWhile_line hline, dropWhile_line hline]
  change (_ ∧ (cstr key' ++ newline :: cstr value).takeWhile _ = _) ↔ _
  rw [takeWhile_cstr_line]
  exact and_iff_right (Or.inr rfl)

theorem not_namesKey_line {line rest : Str} (hline : newline ∉ line) (hset : line ≠ Code.setValue)
    (hbackup : line ≠ Code.setBackupValue) : ¬ NamesKey key (line ++ newline :: rest) := by
  rintro ⟨h, -⟩
  rw [takeWhile_line hline] at h
  exact h.elim hset hbackup

theorem not_namesKey_of_notMem {text : Str} (hline : newline ∉ text) (hset : text ≠ Code.setValue)
    (hbackup : text ≠ Code.setBackupValue) : ¬ NamesKey key text := by
  rintro ⟨h, -⟩
  rw [takeWhile_of_notMem hline] at h
  exact h.elim hset hbackup

end Messages

section Codes
variable {key key' : Str} {t : Table}

/-- The step sends the key to another server. -/
def Transmits (key : Str) : Op → Prop
  | .sysCall (.send _ buf _) => NamesKey key buf
  | _ => False

/-- The step decides whether the key is sent. -/
def Decides (key : Str) : (op : Op) → op.Res → Prop
  | .owner key', _ => wireName key' = wireName key
  | .lruKeysOneshot _, keys => ∃ key' ∈ (show List Str from keys), wireName key' = wireName key
  | _, _ => False

/-- It is decided that the thread may send the key. -/
def Underway (key : Str) (c : Prog) : Prop := c.May (Transmits key) (Decides key)

theorem not_underway_reply (cfd : ℤ) {msg : Str} (sent : Bool) (h : ¬ NamesKey key msg) :
    ¬ Underway key (reply cfd msg sent) :=
  Code.not_may_call h fun _ _ => Code.not_may_done

theorem not_underway_setIn (value : Str) : ¬ Underway key (setIn t key' value) :=
  only_setIn.not_may fun op hop h => by cases hop <;> exact h

theorem not_underway_getFrom (cfd : ℤ) (sent : Bool) : ¬ Underway key (getFrom t key' cfd sent) := by
  have hread : ¬ Underway key (readFrom t key' cfd sent) := by
    refine Code.not_may_call id fun (present : Bool) _ => ?_
    cases present with
    | false => exact not_underway_reply _ _ (not_namesKey_of_notMem (by decide) (by decide) (by decide))
    | true =>
      refine Code.not_may_call id fun (value : Str) _ => not_underway_reply _ _ ?_
      have hmsg : cstr (Code.getSuccess ++ [newline] ++ value) =
          Code.getSuccess ++ newline :: cstr value := by
        rw [cstr_append_of_notMem _ (by decide), List.append_assoc, List.singleton_append]
      rw [hmsg]
      exact not_namesKey_line (by decide) (by decide) (by decide)
  refine Code.not_may_call id fun (present : Bool) _ => ?_
  cases present with
  | false => exact hread
  | true =>
    refine Code.not_may_call id fun (dirty : Bool) _ => ?_
    cases dirty with
    | false => exact hread
    | true => exact not_underway_reply _ _ (not_namesKey_of_notMem (by decide) (by decide) (by decide))

theorem not_underway_handle (request : CacheServer.Request) (sent : Bool) :
    ¬ Underway key (handle request sent) := by
  unfold handle
  split_ifs
  · exact not_underway_setIn _
  · exact not_underway_getFrom _ _
  · exact not_underway_setIn _
  · exact not_underway_getFrom _ _
  · exact Code.not_may_call id fun _ _ => Code.not_may_done

theorem name_of_underway_updateLoop {cfd : ℤ} {sent : ℕ → Bool} {keys : List Str} {n : ℕ}
    (h : Underway key (updateLoop cfd sent n keys)) :
    ∃ key' ∈ keys, wireName key' = wireName key := by
  induction keys generalizing n with
  | nil => exact absurd h Code.not_may_done
  | cons key' keys ih =>
    rcases h with h | ⟨value, -, h | ⟨_, -, h⟩⟩
    · exact h.elim
    · exact ⟨key', List.mem_cons_self, namesKey_writeMsg.mp h⟩
    · obtain ⟨key'', hmem, hname⟩ := ih h
      exact ⟨key'', List.mem_cons_of_mem key' hmem, hname⟩

theorem not_underway_update (net : Net) (sent : ℕ → Bool) (ipPort : Str) :
    ¬ Underway key (update net sent ipPort) := by
  refine Code.not_may_call id fun _ _ => Code.not_may_call id fun _ _ => ?_
  split_ifs
  · refine Code.not_may_call ?_ fun _ _ => Code.not_may_call id fun (keys : List Str) hkeys h => ?_
    · exact not_namesKey_of_notMem (by decide) (by decide) (by decide)
    · exact hkeys (name_of_underway_updateLoop h)
  · exact Code.not_may_done

theorem not_underway_endMove : ¬ Underway key endMove :=
  only_endMove.not_may fun op hop h => by cases hop <;> exact h

theorem not_underway_handOff {more : Prog} {net : Net} {newAddr : Str}
    (hname : wireName key' ≠ wireName key) (hmore : ¬ Underway key more) :
    ¬ Underway key (handOff net key' newAddr more) := by
  have hsend : ¬ Underway key (sendKey net key' more) := by
    refine Code.not_may_call (fun h => hname (namesKey_moveMsg.mp h)) fun _ _ => ?_
    split_ifs
    · exact Code.not_may_call id fun _ _ => hmore
    · exact not_underway_endMove
  unfold handOff
  split_ifs
  · exact Code.not_may_call id fun _ _ => Code.not_may_call id fun _ _ => hsend
  · exact Code.not_may_call id fun _ _ => Code.not_may_call id fun _ _ => not_underway_endMove
  · exact hsend

/-- A move asks for the owner of every key before it sends it. -/
theorem not_underway_moveLoop (localAddr : Str) (net : ℕ → Net) (keys : List Str) (n : ℕ) :
    ¬ Underway key (moveLoop localAddr net n keys) := by
  induction keys generalizing n with
  | nil => exact not_underway_endMove
  | cons key' keys ih =>
    refine Code.not_may_call id fun _ _ => Code.not_may_call id fun (present : Bool) _ => ?_
    cases present with
    | false => exact ih (n + 1)
    | true =>
      refine Code.not_may_call id fun _ _ => Code.not_may_call id fun (newAddr : Str) hname => ?_
      by_cases hl : newAddr = localAddr
      · simp only [hl, ne_eq, not_true_eq_false, if_false]
        exact ih (n + 1)
      · simp only [ne_eq, hl, not_false_eq_true, if_true]
        exact not_underway_handOff hname (ih (n + 1))

theorem not_underway_move (localAddr : Str) (net : ℕ → Net) : ¬ Underway key (move localAddr net) :=
  Code.not_may_call id fun (_ : ℤ) _ => Code.not_may_call id fun (_ : List Str) _ =>
    Code.not_may_call id fun _ _ => not_underway_moveLoop _ _ _ _

theorem not_underway_of_starts {e : Event} {s s' : CacheServer} {i : ℕ} {c : Prog}
    (h : starts s e = some (i, c, s')) : ¬ Underway key c := by
  rcases starts_cases h with ⟨request, rest, sent, -, -, rfl, -⟩ | ⟨net, -, rfl, -⟩ |
    ⟨net, -, rfl, -⟩ | ⟨net, sent, ipPort, -, rfl, -⟩
  · exact not_underway_handle request sent
  · exact not_underway_move _ net
  · exact not_underway_move _ net
  · exact not_underway_update net sent ipPort

end Codes

section Policy
variable {localAddr : Str}

/-- No key is under way when the ring names this server and after a key was marked; the keys of a
snapshot are under way in `update` only. -/
def Decided (localAddr : Str) : (op : Op) → (op.Res → Prog) → Prop
  | .owner _, next => ∀ key, ¬ Underway key (next localAddr)
  | .setDirty _ _, next => ∀ key, ¬ Underway key (next ())
  | .lruKeysOneshot _, next => (∃ cfd sent, next = updateLoop cfd sent 0) ∨
    ∀ keys key, ¬ Underway key (next keys)
  | _, _ => True

def guiding (localAddr : Str) : Code.Protocol Unit Op.Res where
  allows _ := Decided localAddr
  after _ _ _ _ := True
  ends _ := True

abbrev Guided (localAddr : Str) (c : Prog) : Prop := c.Obeys (guiding localAddr) ()

theorem guided_call {op : Op} {next : op.Res → Prog} (hop : Decided localAddr op next)
    (h : ∀ r, Guided localAddr (next r)) : Guided localAddr (.call op next) :=
  ⟨hop, fun r _ _ => h r⟩

/-- The operations that neither read a list of keys nor the ring nor mark. -/
def Op.Plain : Op → Prop
  | .owner _ | .setDirty _ _ | .lruKeysOneshot _ => False
  | _ => True

theorem guided_of_plain {c : Prog} (h : c.Only Op.Plain) : Guided localAddr c := by
  induction c with
  | done => trivial
  | call op next ih =>
    refine guided_call ?_ fun r => ih r (h.2 r)
    have hop : op.Plain := h.1
    cases op <;> first | exact trivial | exact hop.elim

theorem guided_handle (request : CacheServer.Request) (sent : Bool) :
    Guided localAddr (handle request sent) := by
  have hset : ∀ t, (setIn t request.key request.value).Only Op.Plain := fun t =>
    only_setIn.mono fun op hop => by cases hop <;> trivial
  have hget : ∀ t, (getFrom t request.key request.cfd sent).Only Op.Plain := fun t =>
    only_getFrom.mono fun op hop => by cases hop <;> trivial
  unfold handle
  split_ifs
  · exact guided_of_plain (hset .lru)
  · exact guided_of_plain (hget .lru)
  · exact guided_of_plain (hset .lruBackup)
  · exact guided_of_plain (hget .lruBackup)
  · exact guided_of_plain ⟨trivial, fun _ => trivial⟩

theorem guided_updateLoop {cfd : ℤ} {sent : ℕ → Bool} (keys : List Str) (n : ℕ) :
    Guided localAddr (updateLoop cfd sent n keys) := by
  induction keys generalizing n with
  | nil => trivial
  | cons key keys ih =>
    exact guided_call trivial fun _ => guided_call trivial fun _ => ih (n + 1)

theorem guided_update (net : Net) (sent : ℕ → Bool) (ipPort : Str) :
    Guided localAddr (update net sent ipPort) := by
  refine guided_call trivial fun _ => guided_call trivial fun _ => ?_
  split_ifs
  · refine guided_call trivial fun _ => guided_call (Or.inl ⟨net.cfd, sent, rfl⟩) fun keys => ?_
    exact guided_updateLoop keys 0
  · trivial

theorem guided_endMove : Guided localAddr endMove :=
  guided_of_plain (only_endMove.mono fun op hop => by cases hop <;> trivial)

theorem guided_handOff {more : Prog} {net : Net} {key newAddr : Str}
    (hmore : Guided localAddr more) (hdone : ∀ key, ¬ Underway key more) :
    Guided localAddr (handOff net key newAddr more) := by
  have hsend : Guided localAddr (sendKey net key more) := by
    refine guided_call trivial fun _ => ?_
    split_ifs
    · exact guided_call hdone fun _ => hmore
    · exact guided_endMove
  unfold handOff
  split_ifs
  · exact guided_call trivial fun _ => guided_call trivial fun _ => hsend
  · exact guided_call trivial fun _ => guided_call trivial fun _ => guided_endMove
  · exact hsend

theorem guided_moveLoop (net : ℕ → Net) (keys : List Str) (n : ℕ) :
    Guided localAddr (moveLoop localAddr net n keys) := by
  induction keys generalizing n with
  | nil => exact guided_endMove
  | cons key keys ih =>
    refine guided_call trivial fun _ => guided_call trivial fun (present : Bool) => ?_
    cases present with
    | false => exact ih (n + 1)
    | true =>
      have hdone : ∀ key, ¬ Underway key (moveLoop localAddr net (n + 1) keys) := fun key =>
        not_underway_moveLoop localAddr net keys (n + 1)
      refine guided_call trivial fun _ => guided_call (fun key => ?_) fun (newAddr : Str) => ?_
      · simp only [ne_eq, not_true_eq_false, if_false]
        exact hdone key
      · by_cases hl : newAddr = localAddr
        · simp only [hl, ne_eq, not_true_eq_false, if_false]
          exact ih (n + 1)
        · simp only [ne_eq, hl, not_false_eq_true, if_true]
          exact guided_handOff (ih (n + 1)) hdone

theorem guided_move (net : ℕ → Net) : Guided localAddr (move localAddr net) := by
  refine guided_call trivial fun (state : ℤ) => guided_call (Or.inr fun keys key => ?_)
    fun (keys : List Str) => guided_call trivial fun _ => guided_moveLoop net keys 0
  exact Code.not_may_call id fun _ _ => not_underway_moveLoop localAddr net keys 0

theorem guided_of_starts {e : Event} {s s' : CacheServer} {i : ℕ} {c : Prog}
    (h : starts s e = some (i, c, s')) : Guided s.localAddr c := by
  rcases starts_cases h with ⟨request, rest, sent, -, -, rfl, -⟩ | ⟨net, -, rfl, -⟩ |
    ⟨net, -, rfl, -⟩ | ⟨net, sent, ipPort, -, rfl, -⟩
  · exact guided_handle request sent
  · exact guided_move net
  · exact guided_move net
  · exact guided_update net sent ipPort

end Policy

section Runs
variable {cbHashfunc : Str → ℤ} {s : CacheServer} {p p' : System} {o : Obs}

/-- What happens to a server of a cluster: its own events, and the address lists that the master sends
when servers join and leave. -/
inductive ClusterEvent
  | act (e : Event)
  | updateHash (ipPorts : List Str)

def clusterStep (cbHashfunc : Str → ℤ) (p : System) : ClusterEvent → Option (Obs × System)
  | .act e => step cbHashfunc p e
  | .updateHash ipPorts => (p.mem.server.updateHash cbHashfunc ipPorts).map fun server =>
    (.idle, { p with mem := { p.mem with server := server } })

/-- When a move asks for the owner of a key that is marked dirty, it is this server; when `update`
takes its list of keys, none of them is marked; and no thread marks a key that another one is to
send. -/
def Untainted (cbHashfunc : Str → ℤ) (p : System) : ClusterEvent → Prop
  | .act (.step i) =>
    match p.code i with
    | .call (.owner key) _ => ∀ key', wireName key' = wireName key →
      p.mem.server.lru.isDirty key' = true →
        p.mem.server.cacheServerHash.conhashGetCacheServer cbHashfunc key =
          some p.mem.server.localAddr
    | .call (.lruKeysOneshot _) next => (∃ cfd sent, next = updateLoop cfd sent 0) →
      ∀ key, p.mem.server.lru.isDirty key = false
    | .call (.setDirty _ key) _ => ∀ j ≠ i, ¬ Underway key (p.code j)
    | _ => True
  | _ => True

/-- What is to be sent is clean. -/
structure Clean (p : System) : Prop where
  guided : ∀ i, Guided p.mem.server.localAddr (p.code i)
  clean : ∀ i key, Underway key (p.code i) → p.mem.server.lru.isDirty key = false

theorem clean_idle (s : CacheServer) : Clean (idle s) :=
  ⟨fun _ => trivial, fun _ _ h => absurd h Code.not_may_done⟩

theorem isDirty_of_find {c c' : LRU.Cache Str Str} {key : Str}
    (h : LRU.find c'.entries key = LRU.find c.entries key) : c'.isDirty key = c.isDirty key := by
  rw [LRU.Cache.isDirty_eq, LRU.Cache.isDirty_eq, h]

/-- A clean key is clean after a step that does not mark it. -/
theorem isDirty_of_perform {i : ℕ} {op : Op} {r : op.Res} {m m' : Shared} {key : Str}
    (h : perform cbHashfunc i op m = .ok r m') (hmark : op ≠ .setDirty .lru key)
    (hclean : m.server.lru.isDirty key = false) : m'.server.lru.isDirty key = false := by
  rcases find_of_perform h .lru key with hf | ⟨value, -, hf⟩ | ⟨key', value, -, -, hf⟩ | ⟨hop, -⟩
  · exact (isDirty_of_find hf).trans hclean
  · change LRU.find m'.server.lru.entries key = _ at hf
    rw [LRU.Cache.isDirty_eq, hf]
    rfl
  · change LRU.find m'.server.lru.entries key = _ at hf
    rw [LRU.Cache.isDirty_eq, hf]
    rfl
  · exact absurd hop hmark

theorem localAddr_of_perform {i : ℕ} {op : Op} {r : op.Res} {m m' : Shared}
    (h : perform cbHashfunc i op m = .ok r m') : m'.server.localAddr = m.server.localAddr := by
  cases op with
  | lock t =>
    obtain ⟨-, rfl⟩ := of_perform_lock h
    rfl
  | owner key =>
    obtain ⟨-, rfl⟩ := of_perform_owner h
    rfl
  | get t key =>
    obtain ⟨c, -, rfl⟩ := of_perform_get h
    cases t <;> rfl
  | set t key value =>
    obtain ⟨-, rfl⟩ := Outcome.of_ok h
    cases t <;> rfl
  | setDirty t key =>
    obtain ⟨-, rfl⟩ := Outcome.of_ok h
    cases t <;> rfl
  | _ =>
    obtain ⟨-, rfl⟩ := Outcome.of_ok h
    rfl

/-- A step of a thread. -/
theorem Clean.step_op {i : ℕ} {op : Op} {next : op.Res → Prog} {r : op.Res} {m : Shared}
    (hp : Clean p) (hcode : p.code i = .call op next) (hop : perform cbHashfunc i op p.mem = .ok r m)
    (hok : Untainted cbHashfunc p (.act (.step i))) :
    Clean ⟨m, Function.update p.code i (next r)⟩ := by
  have hi := hp.guided i
  rw [hcode] at hi
  have hallows : Decided p.mem.server.localAddr op next := hi.1
  have hlocal := localAddr_of_perform hop
  simp only [Untainted, hcode] at hok
  constructor
  · intro j
    change Guided m.server.localAddr _
    rw [hlocal]
    by_cases hji : j = i
    · subst hji
      simp only [Function.update_self]
      exact hi.2 r () trivial
    · simp only [Function.update_of_ne hji]
      exact hp.guided j
  · intro j key hj
    by_cases hji : j = i
    · subst hji
      simp only [Function.update_self] at hj
      by_cases hcut : Decides key op r
      · cases op with
        | owner key' =>
          obtain ⟨howner, rfl⟩ := of_perform_owner hop
          by_contra hdirty
          have hself := hok key hcut.symm (by simpa using hdirty)
          obtain rfl : r = p.mem.server.localAddr := Option.some.inj (howner.symm.trans hself)
          exact hallows key hj
        | lruKeysOneshot t =>
          obtain ⟨-, rfl⟩ := Outcome.of_ok hop
          rcases hallows with hupdate | hnone
          · exact hok hupdate key
          · exact absurd hj (hnone r key)
        | _ => exact hcut.elim
      · refine isDirty_of_perform hop ?_ (hp.clean j key ?_)
        · rintro rfl
          exact hallows key hj
        · rw [hcode]
          exact Code.May.of_next hj hcut
    · simp only [Function.update_of_ne hji] at hj
      refine isDirty_of_perform hop ?_ (hp.clean j key hj)
      rintro rfl
      exact hok j hji hj

theorem Clean.step {e : ClusterEvent} (hp : Clean p) (hok : Untainted cbHashfunc p e)
    (h : clusterStep cbHashfunc p e = some (o, p')) : Clean p' := by
  cases e with
  | updateHash ipPorts =>
    obtain ⟨server, hserver, ho⟩ := Option.map_eq_some_iff.mp h
    obtain ⟨-, rfl⟩ := Prod.mk.inj ho
    obtain ⟨hash, -, hs⟩ := Option.bind_eq_some_iff.mp hserver
    obtain rfl := Option.some.inj hs
    exact ⟨hp.guided, hp.clean⟩
  | act e =>
    cases step_cases h with
    | idle => exact hp
    | appended request hroom => exact ⟨hp.guided, hp.clean⟩
    | @started _ i c server hs hdone =>
      have hlocal := (frame_of_starts hs).2
      have htable := table_of_starts hs .lru
      constructor
      · intro j
        change Guided server.localAddr _
        rw [hlocal]
        by_cases hji : j = i
        · subst hji
          simp only [Function.update_self]
          exact guided_of_starts hs
        · simp only [Function.update_of_ne hji]
          exact hp.guided j
      · intro j key hj
        change (table server .lru).isDirty key = false
        rw [htable]
        by_cases hji : j = i
        · subst hji
          simp only [Function.update_self] at hj
          exact absurd hj (not_underway_of_starts hs)
        · simp only [Function.update_of_ne hji] at hj
          exact hp.clean j key hj
    | acted hcode hop => exact hp.step_op hcode hop hok

/-- As long as moves ask for the owners of no dirty keys but the server's own, and `update` takes its
list of keys while none is dirty, and no thread marks a key that another one is to send, the keys
that are sent are clean. -/
theorem none_stale_of_run {es : List ClusterEvent} {obs : List Obs}
    (ha : Allowed (clusterStep cbHashfunc) (Untainted cbHashfunc) (idle s) es)
    (h : run (clusterStep cbHashfunc) (idle s) es = some (obs, p)) :
    (∀ i key cfd ok next, p.code i = .call (.sysCall (.send cfd (moveMsg key) ok)) next →
      p.mem.server.lru.isDirty key = false) ∧
    ∀ i key value cfd ok next,
      p.code i = .call (.sysCall (.send cfd (writeMsg Code.setBackupValue key value) ok)) next →
        p.mem.server.lru.isDirty key = false := by
  have hp : Clean p := run_kept (fun _ _ _ _ hp he hstep => hp.step he hstep) (clean_idle s) ha h
  constructor
  · intro i key cfd ok next hcode
    apply hp.clean i key
    rw [hcode]
    exact Or.inl (namesKey_moveMsg.mpr rfl)
  · intro i key value cfd ok next hcode
    apply hp.clean i key
    rw [hcode]
    exact Or.inl (namesKey_writeMsg.mpr rfl)

end Runs

section Moves

/-- The server stores a pair, and is told that another server owns it. -/
def expansion : List ClusterEvent :=
  .act (.append setK) :: .act (.dequeue 1 true) :: List.replicate 4 (.act (.step 1)) ++
    [.updateHash [lit "10.0.0.2:6001"]]

/-- The first steps of a move. -/
def moves (i n : ℕ) : List ClusterEvent :=
  .act (.moveData i someNet) :: List.replicate n (.act (.step i))

/-- Where no entry is marked, no key can be sent that is. -/
theorem untainted_of_clean {cbHashfunc : Str → ℤ} {p : System} {i : ℕ}
    (h : ∀ e ∈ p.mem.server.lru.entries, e.dirty = false)
    (hmark : ∀ t key next, p.code i ≠ .call (.setDirty t key) next) :
    Untainted cbHashfunc p (.act (.step i)) := by
  have hclean : ∀ key, p.mem.server.lru.isDirty key = false := fun key => by
    by_contra hdirty
    obtain ⟨e, he, hd⟩ := (p.mem.server.lru.isDirty_iff key).mp (by simpa using hdirty)
    rw [h e (LRU.find_mem he)] at hd
    cases hd
  cases hcode : p.code i with
  | done => simp only [Untainted, hcode]
  | call op next =>
    cases op with
    | owner key =>
      simp only [Untainted, hcode]
      intro key' _ hdirty
      rw [hclean key'] at hdirty
      cases hdirty
    | lruKeysOneshot t =>
      simp only [Untainted, hcode]
      exact fun _ => hclean
    | setDirty t key => exact absurd hcode (hmark t key next)
    | _ => simp only [Untainted, hcode]

set_option maxRecDepth 4000 in
theorem none_stale_of_move : ∃ obs p,
    run (clusterStep fun _ => 0) (idle .new) (expansion ++ moves 2 9) = some (obs, p) ∧
    (∃ next, p.code 2 = .call (.sysCall (.send 7 (moveMsg (lit "k")) true)) next) ∧
    (∀ i key cfd ok next, p.code i = .call (.sysCall (.send cfd (moveMsg key) ok)) next →
      p.mem.server.lru.isDirty key = false) ∧
    ∀ i key value cfd ok next,
      p.code i = .call (.sysCall (.send cfd (writeMsg Code.setBackupValue key value) ok)) next →
        p.mem.server.lru.isDirty key = false := by
  have hclean : ∀ e ∈ [(⟨lit "k", lit "v", false⟩ : LRU.Entry Str Str)], e.dirty = false := by
    intro e he
    obtain rfl := List.mem_singleton.mp he
    rfl
  have ha : Allowed (clusterStep fun _ => 0) (Untainted fun _ => 0) (idle .new)
      (expansion ++ moves 2 9) :=
    ⟨trivial, trivial, trivial, trivial, trivial, trivial, trivial, trivial, trivial,
      untainted_of_clean hclean nofun, trivial, trivial, trivial, trivial,
      untainted_of_clean hclean nofun, trivial, trivial, trivial⟩
  exact ⟨_, _, rfl, ⟨_, rfl⟩, none_stale_of_run ha rfl⟩

set_option maxRecDepth 4000 in
/-- A second move sends the key again. -/
theorem not_none_stale : ∃ obs p next,
    run (clusterStep fun _ => 0) (idle .new) (expansion ++ moves 2 13 ++ moves 3 9) = some (obs, p) ∧
    p.code 3 = .call (.sysCall (.send 7 (moveMsg (lit "k")) true)) next ∧
    p.mem.server.lru.isDirty (lit "k") = true := by
  exact ⟨_, _, _, rfl, rfl, rfl⟩

end Moves
end DCache.CacheThreads
