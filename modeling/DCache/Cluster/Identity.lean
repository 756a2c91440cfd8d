import DCache.Cache.Migration
import DCache.Master.Registry

/-! The name of a cache server: the one that the master derives from the peer address and the
announced port, and the one that the server gives itself. -/
namespace DCache.Cluster
open DCache.Lib DCache.Ring DCache.Master

/-- The peer's address with the announced port in the place of its own. -/
def listenAddr (peer : SockAddrIn) (port : ℕ) : SockAddrIn := { peer with sinPort := htons port }

def identifier (peer : SockAddrIn) (port : ℕ) : Str := sockAddr2str (listenAddr peer port)

/-- A registration from `peer` that announces `port` comes to `Register` under `ident`, and
`Register` puts `ident` into the ring and into the address list that it sends out. -/
structure RegistersAs (cbHashfunc : Str → ℤ) (peer : SockAddrIn) (port : ℕ) (ident : Str) :
    Prop where
  queued : ∀ (m : MasterServer) (cfd : ℤ) (res : SockAddrIn),
    m.connectedMap.find? cfd = some (sockAddr2str peer) → m.workqueue.length < maxRequests →
    ∃ m' request, m.dealwithCacheServer cfd (.data (CacheServer.registration port)) res =
        some (0, m') ∧ m'.workqueue = m.workqueue ++ [request] ∧
      request.requestType = .register ∧ request.cfd = cfd ∧
      sockAddr2str request.clientAddr = ident
  registered : ∀ (m : MasterServer) (es : List Str) (cfd : ℤ) (sa : SockAddrIn),
    Registry m es → m.connectedMap.contains cfd = true → m.listenMap.find? cfd = none →
    cfd ∉ queuedFds m.workqueue → sockAddr2str sa = ident →
    ∃ m', m.register cbHashfunc sa cfd = some (0, m') ∧
      (m'.masterHash.nodesMap ident).isSome = true ∧ m'.listenMap.find? cfd = some ident ∧
      ∀ f, m'.listenMap.contains f = true →
        updateHashText m'.listenMap.values ++ [0] ∈ m'.outbox f

theorem cstr_registration (port : ℕ) :
    cstr (CacheServer.registration port) = CacheServer.registration port := by
  refine cstr_eq_self.mpr fun h => ?_
  rw [CacheServer.registration, formatInt, if_neg (by omega)] at h
  have hd := isDigit_of_mem_decimal h
  revert hd
  decide

variable {cbHashfunc : Str → ℤ} {peer : SockAddrIn} {port : ℕ}

/-- The master reads the port that is announced and the address that the peer has. -/
theorem dealwithCacheServer_registration (hf : peer.sinFamily = afInet) (hp : peer.sinPort ≠ 0)
    (hport : port < 65536) (m : MasterServer) {cfd : ℤ} (res : SockAddrIn)
    (hc : m.connectedMap.find? cfd = some (sockAddr2str peer))
    (hq : m.workqueue.length < maxRequests) :
    m.dealwithCacheServer cfd (.data (CacheServer.registration port)) res =
      some (0, { m with
        workqueue := m.workqueue ++ [⟨.register, listenAddr peer port, [], cfd⟩] }) := by
  have hfull : ¬ m.workqueue.length ≥ maxRequests := by omega
  have hatoi : atoi (CacheServer.registration port) = port := atoi_formatInt (by omega)
  simp only [MasterServer.dealwithCacheServer, OrdMap.index_of_some _ _ hc,
    str2sockAddr_sockAddr2str peer res hf hp, cstr_registration, hatoi, MasterServer.append,
    if_neg hfull, if_true, listenAddr]

theorem registersAs_identifier (hf : peer.sinFamily = afInet) (hp : peer.sinPort ≠ 0)
    (hport : port < 65536) : RegistersAs cbHashfunc peer port (identifier peer port) where
  queued m cfd res hc hq :=
    ⟨_, _, dealwithCacheServer_registration hf hp hport m res hc hq, rfl, rfl, rfl, rfl⟩
  registered m es cfd sa hm hc hl hq hsa := by
    obtain ⟨a, ha⟩ := m.connectedMap.contains_iff.mp hc
    obtain ⟨l, c, prevFd, nextFd, nextAddr, hlist, hown, hadd, -, -, hreg⟩ :=
      hm.register_eq cbHashfunc ha hl hq sa
    rw [← hsa]
    refine ⟨_, hreg, ?_, by simp [MasterServer.deliver, Registry.registered], fun f hf => ?_⟩
    · obtain ⟨c', hc', -, hmap⟩ :=
        hm.owned.conhashAddCacheServer cbHashfunc (sockAddr2str sa)
      obtain rfl := Option.some.inj (hadd.symm.trans hc')
      change (c.nodesMap (sockAddr2str sa)).isSome = true
      rw [hmap, if_pos rfl]
      rfl
    · change (m.listenMap.insert cfd (sockAddr2str sa)).contains f = true at hf
      refine List.mem_append_right _ (List.mem_append_left _ ?_)
      rw [announcements, if_pos hf]
      exact List.mem_append_left _ (List.mem_singleton_self _)

/-- The two names agree if and only if the peer's address is the wildcard that the server binds. -/
theorem identifier_eq_localAddr_iff (hf : peer.sinFamily = afInet) (h₁ : 1 ≤ port)
    (h₂ : port ≤ 65535) :
    identifier peer port = (CacheServer.new.startListen port).localAddr ↔
      peer.sinAddr = .any := by
  have hne : htons port ≠ 0 := by
    intro h
    have := ntohs_htons (p := port) (by omega)
    rw [h] at this
    have h0 : ntohs 0 = 0 := by decide
    omega
  have hread : ∀ a : InAddr, str2sockAddr ⟨0, 0, .any⟩ (sockAddr2str ⟨afInet, htons port, a⟩) =
      ⟨afInet, htons port, a⟩ := fun a => str2sockAddr_sockAddr2str _ _ rfl hne
  have hid : identifier peer port = sockAddr2str ⟨afInet, htons port, peer.sinAddr⟩ := by
    rw [identifier, listenAddr, hf]
  change _ = sockAddr2str ⟨afInet, htons port, .any⟩ ↔ _
  rw [hid]
  constructor
  · intro h
    have := (hread peer.sinAddr).symm.trans ((congrArg _ h).trans (hread .any))
    exact congrArg SockAddrIn.sinAddr this
  · intro h
    rw [h]

/-- A move in `state` 0 of a server that listens on `port` and got its ring from the master sends
no key away whose owner is `ident`, and leaves its entry alone. -/
def KeepsOwn (cbHashfunc : Str → ℤ) (port : ℕ) (ident : Str) : Prop :=
  ∀ (s₀ s s' : CacheServer) (addrs : List Str) (net : ℕ → CacheServer.Net)
    (calls : List (Str × CacheServer.SysCall)),
    s₀.localAddr = (CacheServer.new.startListen port).localAddr → s₀.state = 0 →
    s₀.updateHash cbHashfunc addrs = some s → s.move cbHashfunc net = some (calls, s') →
    ∀ key, s.cacheServerHash.conhashGetCacheServer cbHashfunc key = some ident →
      (∀ cfd buf ok, (key, .send cfd buf ok) ∉ calls) ∧
        LRU.find s'.lru.entries key = LRU.find s.lru.entries key

theorem keepsOwn_iff {ident : Str} (hid : IsAddress ident) : KeepsOwn cbHashfunc port ident ↔
    ident = (CacheServer.new.startListen port).localAddr := by
  constructor
  · intro h
    by_contra hne
    -- one key, and a ring of this server alone
    let s₀ : CacheServer :=
      { CacheServer.new.startListen port with lru := CacheServer.new.lru.set [] [] }
    obtain ⟨c, hs, hr⟩ := s₀.updateHash_eq cbHashfunc (List.nodup_singleton ident)
      (by simpa using hid)
    have hown := CacheServer.owner_of_single hr
    let s : CacheServer := { s₀ with cacheServerHash := c }
    have hkeys : s.moveKeys = [[]] := rfl
    have hcan : s.CanMove cbHashfunc := by
      constructor
      · intro key _ _
        change (c.conhashGetCacheServer cbHashfunc key).isSome = true
        rw [hown key]
        rfl
      · intro key hk _
        rw [hkeys, List.mem_singleton] at hk
        subst hk
        decide
    let net : ℕ → CacheServer.Net := fun _ => ⟨7, ⟨0, 0, .any⟩, true, true⟩
    obtain ⟨calls, s', hm, -, hsent⟩ :=
      CacheServer.exists_move (show CacheServer.Reliable net from fun _ => ⟨rfl, rfl⟩) hcan
    have hkey : s.lru.hasKey [] = true := by
      rw [LRU.Cache.hasKey_iff]
      exact List.mem_singleton_self _
    obtain ⟨⟨cfd, hmem⟩, -⟩ := hsent [] (by rw [hkeys]; exact List.mem_singleton_self _) hkey
      ident hne (hown [])
    exact (h s₀ s s' [ident] net calls rfl rfl hs hm [] (hown [])).1 _ _ _ hmem
  · rintro rfl s₀ s s' addrs net calls hl - hs hm key ho
    obtain ⟨c, -, he⟩ := Option.bind_eq_some_iff.mp hs
    have hlocal : s.localAddr = s₀.localAddr := by rw [← Option.some.inj he]
    have hstay : ¬ s.Leaves cbHashfunc key := by
      rintro ⟨-, addr, ho', hne⟩
      exact hne (by rw [hlocal, hl]; exact Option.some.inj (ho'.symm.trans ho))
    exact ⟨fun cfd buf ok hc => hstay (CacheServer.of_send hm hc).2.1,
      CacheServer.find_of_move hm hstay⟩

/-- The identifier under which the master registers a server is the name that the server compares
owners with, and its own keys stay with it, if and only if it connects from the wildcard address. -/
theorem self_identification_iff (cbHashfunc : Str → ℤ) {peer : SockAddrIn}
    (hf : peer.sinFamily = afInet) (hp : peer.sinPort ≠ 0) {port : ℕ} (h₁ : 1 ≤ port)
    (h₂ : port ≤ 65535) :
    RegistersAs cbHashfunc peer port (identifier peer port) ∧
      (identifier peer port = (CacheServer.new.startListen port).localAddr ↔
        peer.sinAddr = .any) ∧
      (KeepsOwn cbHashfunc port (identifier peer port) ↔ peer.sinAddr = .any) :=
  ⟨registersAs_identifier hf hp (by omega), identifier_eq_localAddr_iff hf h₁ h₂,
    (keepsOwn_iff (isAddress_sockAddr2str _)).trans (identifier_eq_localAddr_iff hf h₁ h₂)⟩

theorem self_identification_iff_of_peer :
    RegistersAs (fun _ => 0) ⟨afInet, htons 40000, ⟨10, 0, 0, 1⟩⟩ 6000
        (identifier ⟨afInet, htons 40000, ⟨10, 0, 0, 1⟩⟩ 6000) ∧
      (identifier ⟨afInet, htons 40000, ⟨10, 0, 0, 1⟩⟩ 6000 =
        (CacheServer.new.startListen (6000 : ℕ)).localAddr ↔ (⟨10, 0, 0, 1⟩ : InAddr) = .any) ∧
      (KeepsOwn (fun _ => 0) 6000 (identifier ⟨afInet, htons 40000, ⟨10, 0, 0, 1⟩⟩ 6000) ↔
        (⟨10, 0, 0, 1⟩ : InAddr) = .any) :=
  self_identification_iff (fun _ => 0) rfl (by decide) (by decide) (by decide)

/-- A server that connects from `10.0.0.1` and announces 6000 is not registered as what it calls
itself, whatever the hash function is. -/
theorem not_registersAs_localAddr : ¬ ∃ cbHashfunc : Str → ℤ,
    RegistersAs cbHashfunc ⟨afInet, htons 40000, ⟨10, 0, 0, 1⟩⟩ 6000
      (CacheServer.new.startListen (6000 : ℕ)).localAddr := by
  rintro ⟨cbHashfunc, h⟩
  let peer : SockAddrIn := ⟨afInet, htons 40000, ⟨10, 0, 0, 1⟩⟩
  let m : MasterServer := (MasterServer.new.dealwithNewConn 5 peer).2
  have hc : m.connectedMap.find? 5 = some (sockAddr2str peer) := rfl
  obtain ⟨m', request, hm, hw, -, -, hident⟩ := h.queued m 5 ⟨0, 0, .any⟩ hc (by decide)
  have hread := dealwithCacheServer_registration (show peer.sinFamily = afInet from rfl) (by decide)
    (show 6000 < 65536 by decide) m ⟨0, 0, .any⟩ hc (by decide)
  obtain ⟨-, rfl⟩ := Prod.mk.inj (Option.some.inj (hm.symm.trans hread))
  obtain rfl := List.singleton_inj.mp (List.append_cancel_left hw)
  have hany := (identifier_eq_localAddr_iff (show peer.sinFamily = afInet from rfl) (by decide)
    (by decide)).mp hident
  exact absurd hany (by decide)

end DCache.Cluster
