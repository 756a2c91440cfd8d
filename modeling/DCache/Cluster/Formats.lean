import DCache.Cache.Migration
import DCache.Cache.Passes
import DCache.Cluster.Framing
import DCache.Master.Disconnect

/-! The texts that the servers format into arrays of `bufSize` bytes. A key comes out of a request
with a shorter command word than that of the message in which `update` or `move` passes it on. -/
namespace DCache.Cluster
open DCache.Lib DCache.LRU DCache.Ring DCache.Master
open CacheServer (Net SysCall Foreign TextsFit writeMsg moveMsg moveLoop updateLoop handOver lookup)

section Lengths

/-- The bytes of an address list, a newline behind each address. -/
def listBytes (addrs : List Str) : ℕ := (addrs.map fun a => a.length + 1).sum

theorem fits_updateHashText_iff {addrs : List Str} (h : ∀ a ∈ addrs, (0 : Byte) ∉ a) :
    Fits (updateHashText addrs) ↔ listBytes addrs ≤ 1011 := by
  have hzero : (0 : Byte) ∉ addrs.flatMap (fun a => a ++ [newline]) := by
    rw [List.mem_flatMap]
    rintro ⟨a, ha, hmem⟩
    rcases List.mem_append.mp hmem with hmem | hmem
    · exact h a ha hmem
    · exact absurd (List.mem_singleton.mp hmem) (by decide)
  have hlength : (updateHashText addrs).length = 12 + listBytes addrs := by
    rw [updateHashText, cstr_eq_self.mpr hzero, List.length_append, List.length_flatMap]
    simp only [List.length_append, List.length_singleton, listBytes]
    rfl
  rw [Fits, hlength, bufSize]
  omega

theorem fits_writeMsg_iff (key : Str) :
    Fits (writeMsg Code.setBackupValue key []) ↔ (cstr key).length ≤ 1005 := by
  have hlength : (writeMsg Code.setBackupValue key []).length = 18 + (cstr key).length := by
    have hopt : Code.setBackupValue.length = 16 := rfl
    have hvalue : (cstr []).length = 0 := rfl
    simp only [writeMsg, List.length_append, List.length_singleton, hopt, hvalue]
    omega
  rw [Fits, hlength, bufSize]
  omega

theorem fits_moveMsg_iff (key : Str) : Fits (moveMsg key) ↔ (cstr key).length ≤ 1013 := by
  have hlength : (moveMsg key).length = 10 + (cstr key).length := by
    rw [moveMsg, cstr_append_of_notMem _ (by decide), List.length_append]
    rfl
  rw [Fits, hlength, bufSize]
  omega

end Lengths

section Inputs
variable (cbHashfunc : Str → ℤ)

/-- What a cache server meets: connections, messages, turns of a worker, and the threads that
messages of the master start. -/
inductive Input
  | listen (cfd : ℤ) (addr : SockAddrIn)
  | client (cfd : ℤ) (recv : Recv) (stale : Str)
  | master (recv : Recv)
  | work (sent : Bool)
  | move (net : ℕ → Net)
  | update (net : Net) (sent : ℕ → Bool) (ipPort : Str)

def handle (s : CacheServer) : Input → Option (Unit × CacheServer)
  | .listen cfd addr =>
    some ((), { s with connectedMap := s.connectedMap.tryInsert cfd (sockAddr2str addr) })
  | .client cfd recv stale => (s.dealwithClientMsg cfd recv stale).map fun o => ((), o.2)
  | .master recv => (s.dealwithMasterMsg cbHashfunc recv).map fun o => ((), o.2.2)
  | .work sent => (s.run sent).map fun o => ((), o.2)
  | .move net => (s.move cbHashfunc net).map fun o => ((), o.2)
  | .update net sent ipPort => (s.update net sent ipPort).map fun o => ((), o.2)

/-- All pairs of a table satisfy `P`. -/
def Pairs (P : Str → Str → Prop) (c : Cache Str Str) : Prop :=
  ∀ key e, find c.entries key = some e → P key e.val

/-- No value gets past `dealwithClientMsg`, and the keys that are to be stored satisfy `P`. -/
structure Received (P : Str → Prop) (s : CacheServer) : Prop where
  lru : Pairs (fun key value => value = [] ∧ P key) s.lru
  backup : Pairs (fun _ value => value = []) s.lruBackup
  queue : ∀ r ∈ s.workqueue, r.value = [] ∧ (r.requestType = Code.setValue → P r.key)

/-- If a `SET_VALUE` is received then its key satisfies `P`. -/
def Brings (P : Str → Prop) : Input → Prop
  | .client _ (.data bytes) stale =>
    CacheServer.untilNewline (bytes ++ stale) = some Code.setValue →
      P ((bytes.drop 10).takeWhile (fun b => b ≠ newline))
  | _ => True

theorem Received.startListen (P : Str → Prop) (port : ℤ) :
    Received P (CacheServer.new.startListen port) :=
  ⟨nofun, nofun, nofun⟩

variable {Q : Str → Str → Prop} {c c' : Cache Str Str} {key value msg : Str}

theorem Pairs.congr (hc : Pairs Q c) (h : ∀ k, find c'.entries k = find c.entries k) :
    Pairs Q c' :=
  fun k e he => hc k e (h k ▸ he)

theorem Pairs.get (hc : Pairs Q c) (h : c.get key = some (value, c')) :
    Q key value ∧ Pairs Q c' := by
  obtain ⟨⟨b, hb⟩, hfind⟩ := c.of_get key value h
  exact ⟨hc key _ hb, hc.congr hfind⟩

theorem Pairs.store (hc : Pairs Q c) (h : Q key value) :
    Pairs Q (CacheServer.store c key value) := by
  unfold CacheServer.store
  split_ifs
  · exact hc
  · intro k e he
    by_cases hk : k = key
    · subst hk
      rw [Cache.find_set_self, Option.some.injEq] at he
      rw [← he]
      exact h
    · rcases c.find_set_of_ne value hk with hsame | hgone
      · exact hc k e (hsame ▸ he)
      · rw [hgone] at he
        cases he

/-- An answer is a word, and at most one newline. -/
theorem Pairs.lookup (hc : Pairs Q c) (hvalue : ∀ key value, Q key value → value = [])
    (h : lookup c key = some (msg, c')) : Fits msg ∧ Pairs Q c' := by
  unfold CacheServer.lookup at h
  split_ifs at h
  · cases h
    exact ⟨by decide, hc⟩
  · obtain ⟨⟨value, c₁⟩, hget, h⟩ := Option.bind_eq_some_iff.mp h
    obtain ⟨hq, hc₁⟩ := hc.get hget
    obtain rfl := hvalue key value hq
    cases h
    exact ⟨by decide, hc₁⟩
  · cases h
    exact ⟨by decide, hc⟩

theorem Pairs.marked {marks : List Str} (hc : Pairs Q c)
    (h : CacheServer.Marked c marks c') : Pairs Q c' := by
  intro k e he
  have hval := CacheServer.values_of_marked h k
  rw [he, Option.map_some] at hval
  obtain ⟨e', he', hv⟩ := Option.map_eq_some_iff.mp hval.symm
  rw [← hv]
  exact hc k e' he'

variable {cbHashfunc} {P : Str → Prop} {s s' : CacheServer} {e : Input} {net : ℕ → Net}
  {calls : List SysCall}

/-- The writes of `update`: one for every key. -/
theorem updateLoop_spec {cfd : ℤ} {sent : ℕ → Bool} {i : ℕ} {keys : List Str}
    (hs : Pairs (fun _ value => value = []) s.lru)
    (h : updateLoop cfd sent i s keys = some (calls, s')) :
    (∃ lru, s' = { s with lru := lru } ∧ ∀ k, find lru.entries k = find s.lru.entries k) ∧
      (∀ call ∈ calls, ∃ key ∈ keys, ∃ ok,
        call = .send cfd (writeMsg Code.setBackupValue key []) ok) ∧
      ∀ key ∈ keys, ∃ ok, .send cfd (writeMsg Code.setBackupValue key []) ok ∈ calls := by
  induction keys generalizing s calls i with
  | nil =>
    obtain ⟨rfl, rfl⟩ := Prod.mk.inj (Option.some.inj h)
    exact ⟨⟨_, rfl, fun _ => rfl⟩, nofun, nofun⟩
  | cons key keys ih =>
    obtain ⟨⟨value, lru⟩, hget, h⟩ := Option.bind_eq_some_iff.mp h
    obtain ⟨rfl, hlru⟩ := hs.get hget
    obtain ⟨-, hfind⟩ := s.lru.of_get key [] hget
    obtain ⟨⟨calls', s₁⟩, hloop, h⟩ := Option.bind_eq_some_iff.mp h
    cases h
    obtain ⟨⟨lru', rfl, hfind'⟩, hcalls, hkeys⟩ := ih (s := { s with lru := lru }) hlru hloop
    refine ⟨⟨lru', rfl, fun k => (hfind' k).trans (hfind k)⟩,
      List.forall_mem_cons.mpr ⟨?_, fun call hc => ?_⟩,
      List.forall_mem_cons.mpr ⟨⟨sent i, List.mem_cons_self⟩, fun k hk => ?_⟩⟩
    · exact ⟨key, List.mem_cons_self, sent i, rfl⟩
    · obtain ⟨k, hk, hcall⟩ := hcalls call hc
      exact ⟨k, List.mem_cons_of_mem _ hk, hcall⟩
    · obtain ⟨ok, hok⟩ := hkeys k hk
      exact ⟨ok, List.mem_cons_of_mem _ hok⟩

/-- `update` formats its first message and a write for every key, and keeps the table. -/
theorem of_update {net : Net} {sent : ℕ → Bool} {ipPort : Str}
    (hs : Pairs (fun _ value => value = []) s.lru)
    (h : s.update net sent ipPort = some (calls, s')) :
    (∃ lru, s' = { s with lru := lru } ∧ ∀ k, find lru.entries k = find s.lru.entries k) ∧
      (∀ cfd buf ok, .send cfd buf ok ∈ calls → buf = Code.backupInvalid ∨
        ∃ key ∈ keysOf s.lru.entries, buf = writeMsg Code.setBackupValue key []) ∧
      (net.connected = true → ∀ key ∈ keysOf s.lru.entries,
        ∃ ok, .send net.cfd (writeMsg Code.setBackupValue key []) ok ∈ calls) := by
  unfold CacheServer.update at h
  by_cases hc : net.connected = true
  · simp only [hc, if_true] at h
    obtain ⟨⟨rest, s₁⟩, hloop, h⟩ := Option.bind_eq_some_iff.mp h
    cases h
    rw [Cache.lruKeysOneshot_eq] at hloop
    obtain ⟨hframe, hcalls, hkeys⟩ := updateLoop_spec hs hloop
    refine ⟨hframe, fun cfd buf ok hmem => ?_, fun _ key hkey => ?_⟩
    · simp only [List.cons_append, List.nil_append, List.mem_cons, reduceCtorEq, false_or,
        SysCall.send.injEq] at hmem
      rcases hmem with ⟨-, rfl, -⟩ | hmem
      · exact Or.inl rfl
      · obtain ⟨key, hkey, ok', he⟩ := hcalls _ hmem
        cases he
        exact Or.inr ⟨key, hkey, rfl⟩
    · obtain ⟨ok, hok⟩ := hkeys key hkey
      exact ⟨ok, List.mem_append_right _ (List.mem_cons_of_mem _ hok)⟩
  · simp only [hc] at h
    cases h
    refine ⟨⟨s.lru, rfl, fun _ => rfl⟩, fun cfd buf ok hmem => ?_, fun hc' => absurd hc' hc⟩
    simp at hmem

theorem of_move {calls : List (Str × SysCall)} (h : s.move cbHashfunc net = some (calls, s')) :
    ∃ lru marks state invalid, s' = { s with
      lru := lru, state := state, backupInvalid := invalid } ∧
      CacheServer.Marked s.lru marks lru := by
  obtain ⟨⟨calls', s₁⟩, hloop, h⟩ := Option.bind_eq_some_iff.mp h
  rcases CacheServer.moveLoop_eq cbHashfunc net
    (if s.state = 0 then s.lru.lruKeysOneshot else s.lruBackup.lruKeysOneshot) 0 s with
    ⟨-, hnone⟩ | ⟨calls₁, marks, lru, -, hloop', hl⟩
  · cases hnone.symm.trans hloop
  · cases hloop'.symm.trans hloop
    dsimp only at h
    split_ifs at h
    · cases h
      exact ⟨lru, marks, _, _, rfl, hl⟩
    · cases h
      exact ⟨lru, marks, _, _, rfl, hl⟩

theorem Received.valueless (hs : Received P s) : Pairs (fun _ value => value = []) s.lru :=
  fun k e he => (hs.lru k e he).1

theorem Received.run {o : Option Str} {sent : Bool} (hs : Received P s)
    (h : s.run sent = some (o, s')) : Received P s' := by
  unfold CacheServer.run at h
  cases hw : s.workqueue with
  | nil =>
    rw [hw] at h
    cases h
    exact hs
  | cons request rest =>
    rw [hw] at h
    dsimp only at h
    obtain ⟨hvalue, hkey⟩ := hs.queue request (hw ▸ List.mem_cons_self)
    have hrest := fun r hr => hs.queue r (hw ▸ List.mem_cons_of_mem request hr)
    rw [hvalue] at h
    split_ifs at h with htype
    · cases h
      exact ⟨hs.lru.store ⟨rfl, hkey htype⟩, hs.backup, hrest⟩
    · obtain ⟨o₁, hget, ho⟩ := Option.map_eq_some_iff.mp h
      obtain ⟨⟨msg, c⟩, hlook, h⟩ := Option.bind_eq_some_iff.mp hget
      cases h
      cases ho
      exact ⟨(hs.lru.lookup (fun _ _ hq => hq.1) hlook).2, hs.backup, hrest⟩
    · cases h
      exact ⟨hs.lru, hs.backup.store rfl, hrest⟩
    · obtain ⟨o₁, hget, ho⟩ := Option.map_eq_some_iff.mp h
      obtain ⟨⟨msg, c⟩, hlook, h⟩ := Option.bind_eq_some_iff.mp hget
      cases h
      cases ho
      exact ⟨hs.lru, (hs.backup.lookup (fun _ _ hq => hq) hlook).2, hrest⟩
    · cases h
      exact ⟨hs.lru, hs.backup, hrest⟩

theorem Received.handle (hs : Received P s) (he : Brings P e) {u : Unit}
    (h : handle cbHashfunc s e = some (u, s')) : Received P s' := by
  cases e with
  | listen cfd addr =>
    cases h
    exact ⟨hs.lru, hs.backup, hs.queue⟩
  | client cfd recv stale =>
    obtain ⟨⟨ret, s₁⟩, hmsg, h⟩ := Option.map_eq_some_iff.mp h
    cases h
    obtain ⟨m, q, rfl, hq⟩ := CacheServer.of_dealwithClientMsg s cfd stale hmsg
    refine ⟨hs.lru, hs.backup, fun r hr => ?_⟩
    rcases List.mem_append.mp hr with hr | hr
    · exact hs.queue r hr
    · rcases hq with rfl | ⟨bytes, r', rfl, rfl, hopt, hkey, hvalue⟩
      · cases hr
      · rw [List.mem_singleton.mp hr]
        refine ⟨hvalue, fun htype => ?_⟩
        rw [htype] at hopt hkey
        rw [hkey]
        exact he hopt
  | master recv =>
    obtain ⟨⟨ret, thread, s₁⟩, hmsg, h⟩ := Option.map_eq_some_iff.mp h
    cases h
    obtain ⟨c, state, rfl⟩ := CacheServer.of_dealwithMasterMsg hmsg
    exact ⟨hs.lru, hs.backup, hs.queue⟩
  | work sent =>
    obtain ⟨⟨o, s₁⟩, hrun, h⟩ := Option.map_eq_some_iff.mp h
    cases h
    exact hs.run hrun
  | move net =>
    obtain ⟨⟨calls, s₁⟩, hmove, h⟩ := Option.map_eq_some_iff.mp h
    cases h
    obtain ⟨lru, marks, state, invalid, rfl, hl⟩ := of_move hmove
    exact ⟨hs.lru.marked hl, hs.backup, hs.queue⟩
  | update net sent ipPort =>
    obtain ⟨⟨calls, s₁⟩, hupdate, h⟩ := Option.map_eq_some_iff.mp h
    cases h
    obtain ⟨⟨lru, rfl, hfind⟩, -⟩ := of_update hs.valueless hupdate
    exact ⟨hs.lru.congr hfind, hs.backup, hs.queue⟩

theorem received_of_run {port : ℤ} {es : List Input} {us : List Unit}
    (hes : Allowed (handle cbHashfunc) (fun _ => Brings P) (CacheServer.new.startListen port) es)
    (h : run (handle cbHashfunc) (CacheServer.new.startListen port) es = some (us, s)) :
    Received P s :=
  run_kept (I := Received P) (fun _ _ _ _ hs he h => hs.handle he h) (.startListen P port) hes h

theorem received_of_any_run {port : ℤ} {es : List Input} {us : List Unit}
    (h : run (handle cbHashfunc) (CacheServer.new.startListen port) es = some (us, s)) :
    Received (fun _ => True) s := by
  refine received_of_run (allowed_of_forall fun e _ _ => ?_) h
  cases e with
  | client cfd recv stale => cases recv <;> simp [Brings]
  | _ => trivial

/-- At most `bufSize` bytes are received at once. -/
def Receivable : Input → Prop
  | .client _ (.data bytes) _ => bytes.length ≤ bufSize
  | _ => True

end Inputs

section Announcements
variable {cbHashfunc : Str → ℤ} {s s' : MasterServer} {m : OrdMap ℤ Str}

/-- The addresses of a table are C strings. -/
def CStrings (m : OrdMap ℤ Str) : Prop := ∀ f a, m.find? f = some a → (0 : Byte) ∉ a

/-- The listening addresses when `Register`, or the end of a connection, calls `UpdateHash`. -/
inductive Announced (s : MasterServer) : OrdMap ℤ Str → Prop
  | register (cacheServer : SockAddrIn) (cfd : ℤ) :
    Announced s (s.listenMap.tryInsert cfd (sockAddr2str cacheServer))
  | disconnect (cfd : ℤ) : Announced s (s.listenMap.erase cfd)

theorem CStrings.tryInsert (hm : CStrings m) {a : Str} (ha : (0 : Byte) ∉ a) (f : ℤ) :
    CStrings (m.tryInsert f a) := by
  intro g b hg
  rcases m.find?_of_tryInsert hg with hg | ⟨-, rfl⟩
  · exact hm g b hg
  · exact ha

theorem CStrings.erase (hm : CStrings m) (f : ℤ) : CStrings (m.erase f) := by
  intro g b hg
  rw [OrdMap.find?_erase] at hg
  split_ifs at hg
  exact hm g b hg

theorem CStrings.announced (hs : CStrings s.listenMap) (h : Announced s m) : CStrings m := by
  cases h with
  | register cacheServer cfd => exact hs.tryInsert (zero_notMem_sockAddr2str cacheServer) cfd
  | disconnect cfd => exact hs.erase cfd

theorem listenMap_foldl_send (fds : List ℤ) (s : MasterServer) (msg : Str) :
    (fds.foldl (fun s fd => s.send fd msg) s).listenMap = s.listenMap := by
  induction fds generalizing s with
  | nil => rfl
  | cons fd fds ih => exact ih (s.send fd msg)

theorem listenMap_updateHash (s : MasterServer) : s.updateHash.listenMap = s.listenMap := by
  obtain ⟨out, conn, hupdate, -⟩ := updateHash_spec s
  rw [hupdate]

theorem CStrings.notifyBackup {a : Str} {cfd : ℤ} (hs : CStrings s.listenMap)
    (h : s.notifyBackup a cfd = some s') : CStrings s'.listenMap := by
  unfold MasterServer.notifyBackup at h
  split_ifs at h
  · obtain ⟨prev, -, h⟩ := Option.bind_eq_some_iff.mp h
    obtain ⟨next, -, h⟩ := Option.bind_eq_some_iff.mp h
    dsimp only at h
    split_ifs at h
    · cases h
      exact (hs.tryInsert List.not_mem_nil _).tryInsert List.not_mem_nil _
    · cases h
      exact hs
  · cases h
    exact hs

theorem CStrings.register {sa : SockAddrIn} {cfd r : ℤ} (hs : CStrings s.listenMap)
    (h : s.register cbHashfunc sa cfd = some (r, s')) : CStrings s'.listenMap := by
  have hadd := hs.tryInsert (zero_notMem_sockAddr2str sa) cfd
  obtain ⟨l, -, h⟩ := Option.bind_eq_some_iff.mp h
  dsimp only at h
  split_ifs at h
  · cases h
    exact hadd
  · obtain ⟨c, -, h⟩ := Option.bind_eq_some_iff.mp h
    obtain ⟨s₁, hnotify, h⟩ := Option.bind_eq_some_iff.mp h
    cases h
    refine CStrings.notifyBackup ?_ hnotify
    rw [listenMap_foldl_send, listenMap_updateHash]
    exact hadd

theorem CStrings.notifyRecover (hs : CStrings s.listenMap) (cfd prevFd nextFd : ℤ) :
    CStrings (s.notifyRecover cfd prevFd nextFd).listenMap := by
  unfold MasterServer.notifyRecover
  split_ifs
  · exact hs
  · exact hs.tryInsert List.not_mem_nil nextFd

theorem CStrings.disconnected {a : Str} {cfd r : ℤ} (hs : CStrings s.listenMap)
    (h : s.disconnected cfd a = some (r, s')) : CStrings s'.listenMap := by
  obtain ⟨prev, -, h⟩ := Option.bind_eq_some_iff.mp h
  obtain ⟨next, -, h⟩ := Option.bind_eq_some_iff.mp h
  obtain ⟨l, -, h⟩ := Option.bind_eq_some_iff.mp h
  cases h
  refine CStrings.notifyRecover ?_ _ _ _
  rw [listenMap_updateHash]
  exact hs.erase cfd

theorem CStrings.step {e : Master.Event} {r : ℤ} (hs : CStrings s.listenMap)
    (h : s.step cbHashfunc e = some (r, s')) : CStrings s'.listenMap := by
  cases MasterServer.turn_of_step h with
  | frame hlist hlisten => exact hlisten ▸ hs
  | disconnected fd a connectedMap hex h =>
    exact CStrings.disconnected (s := { s with connectedMap := connectedMap }) hs h
  | register rest sa fd h => exact CStrings.register (s := { s with workqueue := rest }) hs h

theorem cStrings_of_run {evs : List Master.Event} {rs : List ℤ}
    (h : run (MasterServer.step cbHashfunc) .new evs = some (rs, s)) : CStrings s.listenMap :=
  run_kept (I := fun s => CStrings s.listenMap) (fun _ _ _ _ hs _ h => hs.step h)
    (fun _ _ h => by cases h) (allowed_trivial _ evs) h

end Announcements

section Texts
variable {cbHashfunc : Str → ℤ} {s : CacheServer}

/-- What `update` formats fits, whatever its calls return. -/
def UpdateFits (s : CacheServer) : Prop := ∀ net sent ipPort calls s',
  s.update net sent ipPort = some (calls, s') → ∀ cfd buf ok, .send cfd buf ok ∈ calls → Fits buf

/-- What `move` formats in its first turns fits, whatever its calls return. -/
def MoveFits (cbHashfunc : Str → ℤ) (s : CacheServer) : Prop := ∀ net keys, keys <+: s.moveKeys →
  ∀ calls s', moveLoop cbHashfunc net 0 s keys = some (calls, s') → TextsFit calls

/-- The keys of other servers that `move` comes to have at most `n` bytes. Behind a look-up that
reads a released node it comes to none. -/
def HandsOverShort (cbHashfunc : Str → ℤ) (s : CacheServer) (n : ℕ) : Prop :=
  ∀ keys key, keys ++ [key] <+: s.moveKeys →
    (∀ k ∈ keys, s.lru.hasKey k = true →
      (s.cacheServerHash.conhashGetCacheServer cbHashfunc k).isSome = true) →
    Foreign s.lru.hasKey (s.cacheServerHash.conhashGetCacheServer cbHashfunc) s.localAddr key →
    (cstr key).length ≤ n

theorem updateFits_iff (hs : Pairs (fun _ value => value = []) s.lru) :
    UpdateFits s ↔ ∀ key ∈ keysOf s.lru.entries, (cstr key).length ≤ 1005 := by
  constructor
  · intro hfits key hkey
    let net : Net := ⟨0, ⟨0, 0, .any⟩, true, true⟩
    obtain ⟨calls, s', hupdate, -⟩ := s.update_entries net (fun _ => true) []
    obtain ⟨-, -, hsent⟩ := of_update hs hupdate
    obtain ⟨ok, hok⟩ := hsent rfl key hkey
    exact (fits_writeMsg_iff key).mp (hfits net _ _ calls s' hupdate _ _ ok hok)
  · intro hshort net sent ipPort calls s' hupdate cfd buf ok hmem
    obtain ⟨-, htexts, -⟩ := of_update hs hupdate
    rcases htexts cfd buf ok hmem with rfl | ⟨key, hkey, rfl⟩
    · decide
    · exact (fits_writeMsg_iff key).mpr (hshort key hkey)

/-- Before the loop sends a key it has found the owners of the keys in front of it. -/
theorem of_send_mem_handOver {held : Str → Bool} {owner : Str → Option Str}
    {localAddr key buf : Str} {net : ℕ → Net} {i : ℕ} {keys : List Str}
    {calls : List (Str × SysCall)} {marks : List Str} {cfd : ℤ} {ok : Bool}
    (h : handOver held owner localAddr net i keys = some (calls, marks))
    (hc : (key, .send cfd buf ok) ∈ calls) :
    ∃ ks rest, keys = ks ++ key :: rest ∧
      (∀ k ∈ ks, held k = true → (owner k).isSome = true) ∧
      Foreign held owner localAddr key ∧ buf = moveMsg key := by
  induction keys generalizing i calls marks with
  | nil =>
    cases h
    cases hc
  | cons k keys ih =>
    obtain ⟨t, ht, h⟩ := Option.bind_eq_some_iff.mp h
    have hturn : ∀ call, (key, call) ∈ t.calls.map (fun call => (k, call)) →
        call = .send cfd buf ok →
          k = key ∧ Foreign held owner localAddr key ∧ buf = moveMsg key := by
      intro call hcall hsend
      obtain ⟨c, hc, he⟩ := List.mem_map.mp hcall
      obtain ⟨rfl, rfl⟩ := Prod.mk.inj he
      subst hsend
      rcases CacheServer.turn_calls ht hc with hc | ⟨hk, newAddr, ho, hl, hc⟩
      · cases hc
      · exact ⟨rfl, ⟨hk, newAddr, ho, hl⟩, (CacheServer.of_send_mem_handOff hc).1⟩
    by_cases hmore : t.more = true
    · simp only [hmore, if_true] at h
      obtain ⟨⟨calls', marks'⟩, hr, he⟩ := Option.bind_eq_some_iff.mp h
      cases he
      rcases List.mem_append.mp hc with hc | hc
      · obtain ⟨rfl, hf, hbuf⟩ := hturn _ hc rfl
        exact ⟨[], keys, rfl, nofun, hf, hbuf⟩
      · obtain ⟨ks, rest, rfl, howners, hf, hbuf⟩ := ih hr hc
        refine ⟨k :: ks, rest, rfl, List.forall_mem_cons.mpr ⟨?_, howners⟩, hf, hbuf⟩
        exact fun hk => CacheServer.turn_owner ht hk
    · simp only [hmore] at h
      cases h
      obtain ⟨rfl, hf, hbuf⟩ := hturn _ hc rfl
      exact ⟨[], keys, rfl, nofun, hf, hbuf⟩

theorem moveFits_iff : MoveFits cbHashfunc s ↔ HandsOverShort cbHashfunc s 1013 := by
  constructor
  · intro hfits keys key hprefix howners hforeign
    have hnet : CacheServer.Reliable fun _ => ⟨0, ⟨0, 0, .any⟩, true, true⟩ := fun _ => ⟨rfl, rfl⟩
    obtain ⟨hk, newAddr, ho, hl⟩ := hforeign
    have hall : ∀ k ∈ keys ++ [key], s.lru.hasKey k = true →
        (s.cacheServerHash.conhashGetCacheServer cbHashfunc k).isSome = true := by
      intro k hmem
      rcases List.mem_append.mp hmem with hmem | hmem
      · exact howners k hmem
      · rw [List.mem_singleton.mp hmem, ho]
        exact fun _ => rfl
    obtain ⟨calls, marks, hover, -, hcalls⟩ :=
      CacheServer.handOver_reliable s.localAddr hnet hall 0
    obtain ⟨j, hj⟩ := hcalls key (by simp) newAddr hk ho hl
    rcases CacheServer.moveLoop_eq cbHashfunc (fun _ => ⟨0, ⟨0, 0, .any⟩, true, true⟩)
      (keys ++ [key]) 0 s with ⟨hnone, -⟩ | ⟨calls', marks', lru, hover', hloop, -⟩
    · cases hnone.symm.trans hover
    · cases hover.symm.trans hover'
      rw [CacheServer.handOff_ok rfl rfl] at hj
      have hmem := hj.subset
        (List.mem_map_of_mem (List.mem_append_right _ (List.mem_singleton_self _)))
      exact (fits_moveMsg_iff key).mp (hfits _ _ hprefix _ _ hloop key _ _ _ hmem)
  · intro hshort net keys hprefix calls s' hloop key cfd buf ok hmem
    rcases CacheServer.moveLoop_eq cbHashfunc net keys 0 s with
      ⟨-, hnone⟩ | ⟨calls', marks, lru, hover, hloop', -⟩
    · cases hnone.symm.trans hloop
    · cases hloop'.symm.trans hloop
      obtain ⟨ks, rest, rfl, howners, hforeign, rfl⟩ := of_send_mem_handOver hover hmem
      refine (fits_moveMsg_iff key).mpr (hshort ks key ?_ howners hforeign)
      refine List.IsPrefix.trans ?_ hprefix
      exact ⟨rest, by rw [List.append_assoc]; rfl⟩

/-- The texts of the five functions in every state that the master and a cache server reach. Answers
always fit; an address list, a backup and a hand-over fit exactly within these bounds. -/
theorem formats_fit_iff (cbHashfunc : Str → ℤ) {m : MasterServer} {evs : List Master.Event}
    {rs : List ℤ} (hm : run (MasterServer.step cbHashfunc) .new evs = some (rs, m)) {port : ℤ}
    {es : List Input} {us : List Unit}
    (hs : run (handle cbHashfunc) (CacheServer.new.startListen port) es = some (us, s)) :
    (∀ listenMap, Announced m listenMap →
      (Fits (updateHashText listenMap.values) ↔ listBytes listenMap.values ≤ 1011)) ∧
    (∀ key sent ret msg s', s.getValue key sent = some (ret, msg, s') → Fits msg) ∧
    (∀ key sent ret msg s', s.getBackupValue key sent = some (ret, msg, s') → Fits msg) ∧
    (UpdateFits s ↔ ∀ key ∈ keysOf s.lru.entries, (cstr key).length ≤ 1005) ∧
    (MoveFits cbHashfunc s ↔ HandsOverShort cbHashfunc s 1013) := by
  have hr := received_of_any_run hs
  refine ⟨fun listenMap hl => fits_updateHashText_iff fun a ha => ?_,
    fun key sent ret msg s' h => ?_, fun key sent ret msg s' h => ?_,
    updateFits_iff hr.valueless, moveFits_iff⟩
  · obtain ⟨f, hf⟩ := listenMap.mem_values.mp ha
    exact (cStrings_of_run hm).announced hl f a hf
  · obtain ⟨⟨msg', c⟩, hlook, h⟩ := Option.bind_eq_some_iff.mp h
    cases h
    exact (hr.lru.lookup (fun _ _ hq => hq.1) hlook).1
  · obtain ⟨⟨msg', c⟩, hlook, h⟩ := Option.bind_eq_some_iff.mp h
    cases h
    exact (hr.backup.lookup (fun _ _ hq => hq) hlook).1

/-- A server that was told to store a key holds it. -/
theorem exists_run_store (cbHashfunc : Str → ℤ) (port : ℤ) {key : Str} (hkey : newline ∉ key) :
    ∃ us s, run (handle cbHashfunc) (CacheServer.new.startListen port)
        [.client 7 (.data (Code.setValue ++ newline :: key)) [], .work true] = some (us, s) ∧
      key ∈ keysOf s.lru.entries := by
  have hline := (CacheServer.new.startListen port).dealwithClientMsg_line 7 []
    (show newline ∉ Code.setValue by decide) (by decide)
    (show 0 < CacheServer.maxRequests by decide) key
  rw [takeWhile_of_notMem hkey] at hline
  refine ⟨[(), ()], { CacheServer.new.startListen port with
    lru := (CacheServer.store CacheServer.new.lru key [])
    connectedMap := CacheServer.new.connectedMap.tryInsert 7 [] }, ?_, ?_⟩
  · rw [run_cons (by rw [handle, hline]; rfl)]
    rfl
  · have hstore : CacheServer.store CacheServer.new.lru key [] =
        CacheServer.new.lru.set key [] := rfl
    rw [hstore, Cache.entries_set, keysOf_append]
    exact List.mem_append_right _ List.mem_cons_self

def longKey (n : ℕ) : Str := List.replicate n 97

theorem notMem_longKey {b : Byte} (hb : b ≠ 97) (n : ℕ) : b ∉ longKey n :=
  fun h => hb (List.eq_of_mem_replicate h)

theorem formats_fit_iff_longKey :
    let es : List Input := [.client 7 (.data (Code.setValue ++ newline :: longKey 1005)) [],
      .work true]
    ∃ us s, run (handle fun _ => 0) (CacheServer.new.startListen 6000) es = some (us, s) ∧
      (∀ listenMap, Announced .new listenMap →
        (Fits (updateHashText listenMap.values) ↔ listBytes listenMap.values ≤ 1011)) ∧
      (∀ key sent ret msg s', s.getValue key sent = some (ret, msg, s') → Fits msg) ∧
      (∀ key sent ret msg s', s.getBackupValue key sent = some (ret, msg, s') → Fits msg) ∧
      (UpdateFits s ↔ ∀ key ∈ keysOf s.lru.entries, (cstr key).length ≤ 1005) ∧
      (MoveFits (fun _ => 0) s ↔ HandsOverShort (fun _ => 0) s 1013) := by
  intro es
  obtain ⟨us, s, hrun, -⟩ :=
    exists_run_store (fun _ => 0) 6000 (notMem_longKey (b := newline) (by decide) 1005)
  have hnew : run (MasterServer.step fun _ => 0) .new [] = some ([], .new) := rfl
  exact ⟨us, s, hrun, formats_fit_iff (fun _ => 0) hnew hrun⟩

/-- A key of 1006 bytes is received with its request, and too long for `update`. -/
theorem not_updateFits_longKey :
    let es : List Input := [.client 7 (.data (Code.setValue ++ newline :: longKey 1006)) [],
      .work true]
    (∀ e ∈ es, Receivable e) ∧
      ∃ us s, run (handle fun _ => 0) (CacheServer.new.startListen 6000) es = some (us, s) ∧
        ¬ UpdateFits s := by
  intro es
  constructor
  · refine List.forall_mem_cons.mpr ⟨?_, List.forall_mem_cons.mpr ⟨trivial, nofun⟩⟩
    change (Code.setValue ++ newline :: longKey 1006).length ≤ 1024
    rw [List.length_append, List.length_cons, longKey, List.length_replicate]
    decide
  · obtain ⟨us, s, hrun, hkey⟩ :=
      exists_run_store (fun _ => 0) 6000 (notMem_longKey (b := newline) (by decide) 1006)
    refine ⟨us, s, hrun, fun hfits => ?_⟩
    have hlength := (updateFits_iff (received_of_any_run hrun).valueless).mp hfits _ hkey
    rw [cstr_eq_self.mpr (notMem_longKey (by decide) 1006), longKey, List.length_replicate]
      at hlength
    omega

end Texts
end DCache.Cluster
