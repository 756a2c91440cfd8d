import DCache.Master.Topology

/-! The reply of `GetDistribute`. The owner of a key is a listening address, and the backup is looked
up under it in a list of connection addresses. -/
namespace DCache.Master
open DCache.Lib DCache.Ring MasterServer

variable {cbHashfunc : Str → ℤ} {s s' : MasterServer} {es es' : List Str} {e : Event}

/-- The addresses of the connections are written by `sock_addr2str`. -/
def PeerAddresses (s : MasterServer) : Prop :=
  ∀ f a, s.connectedMap.find? f = some a → ∃ sa, a = sockAddr2str sa

theorem Transition.peerAddresses (hs : PeerAddresses s) (ht : Transition cbHashfunc s es e s' es') :
    PeerAddresses s' := by
  cases ht with
  | idle => exact hs
  | accepted cfd clientAddr hc hl ha =>
    intro f a hf
    change (s.connectedMap.insert cfd (sockAddr2str clientAddr)).find? f = some a at hf
    rw [OrdMap.find?_insert] at hf
    split_ifs at hf
    · exact ⟨clientAddr, (Option.some.inj hf).symm⟩
    · exact hs f a hf
  | queued => exact hs
  | registered => exact hs
  | departed es₁ es₂ a cfd =>
    intro f b hf
    change (s.connectedMap.erase cfd).find? f = some b at hf
    rw [OrdMap.find?_erase] at hf
    split_ifs at hf
    exact hs f b hf

theorem exists_topology_of_run {evs : List Event}
    (h : Allowed (MasterServer.step cbHashfunc) OneRegistration .new evs) :
    ∃ rs s es, run (MasterServer.step cbHashfunc) .new evs = some (rs, s) ∧ Registry s es ∧
      Topology s es ∧ PeerAddresses s := by
  obtain ⟨rs, s, hr, es, hs, hT, hp⟩ := run_invariant
    (I := fun s => ∃ es, Registry s es ∧ Topology s es ∧ PeerAddresses s)
    (fun s e ⟨es, hs, hT, hp⟩ he => by
      obtain ⟨r, s', es', hstep, ht⟩ := hs.step cbHashfunc he
      exact ⟨r, s', hstep, es', ht.registry hs, ht.topology hs hT, ht.peerAddresses hp⟩)
    ⟨[], Registry.new, by simp [Topology], by simp [PeerAddresses, MasterServer.new]⟩ h
  exact ⟨rs, s, es, hr, hs, hT, hp⟩

/-- What `GetDistribute` sends: the owner of the key, and the entry behind it in the list of
connections if the owner is one. -/
theorem Registry.getDistribute_eq (hs : Registry s es) (hp : PeerAddresses s) {key ipPort : Str}
    (ho : s.masterHash.conhashGetCacheServer cbHashfunc key = some ipPort) (hz : 0 ∉ ipPort)
    (clientAddr : SockAddrIn) : s.getDistribute cbHashfunc clientAddr key =
      some (0, { s with replies := s.replies ++ [(clientAddr,
        if h : ipPort ∈ es then ipPort ++ [newline] ++ es.next ipPort h else ipPort)] }) := by
  by_cases hmem : ipPort ∈ es
  · obtain ⟨f, -, -, hf, -⟩ := hs.entry (List.next_mem es ipPort hmem)
    obtain ⟨sa, hsa⟩ := hp f _ hf
    have hmsg : cstr (ipPort ++ [newline] ++ es.next ipPort hmem) =
        ipPort ++ [newline] ++ es.next ipPort hmem := by
      rw [cstr_eq_self, hsa]
      simp only [List.mem_append, List.mem_singleton, not_or]
      exact ⟨⟨hz, by decide⟩, zero_notMem_sockAddr2str sa⟩
    simp only [getDistribute, ho, hs.list.isExisted.mpr hmem, hs.list.getNext hmem, if_true,
      Option.bind_eq_bind, Option.bind_some, hmsg, dif_pos hmem]
  · simp only [getDistribute, ho, mt hs.list.isExisted.mp hmem, Bool.false_eq_true, if_false,
      Option.bind_eq_bind, Option.bind_some, cstr_eq_self.mpr hz, dif_neg hmem]

/-- The reply for a key names its owner and the server to which `f` was last told to back up. -/
def RepliesBackup (cbHashfunc : Str → ℤ) (s : MasterServer) (clientAddr : SockAddrIn) (key : Str)
    (f : ℤ) : Prop :=
  ∃ ipPort backup s', s.masterHash.conhashGetCacheServer cbHashfunc key = some ipPort ∧
    lastBackup (s.outbox f) = some backup ∧
    s.getDistribute cbHashfunc clientAddr key = some (0, s') ∧
    s'.replies = s.replies ++ [(clientAddr, ipPort ++ [newline] ++ backup)]

/-- The listening address of the server behind `f` in the list of connections. -/
def SuccessorListens (s : MasterServer) (f : ℤ) (addr : Str) : Prop :=
  ∃ t u g, s.registedMap.find? t = some f ∧ s.connectList.getNext t = some u ∧
    s.registedMap.find? u = some g ∧ s.listenMap.find? g = some addr

/-- A listening server was last told to back up to the server behind it. -/
theorem Registry.successorListens_iff (hs : Registry s es) (hT : Topology s es)
    (hlen : 2 ≤ s.registedMap.size) {f : ℤ} {addr : Str} (hf : s.listenMap.contains f = true) :
    SuccessorListens s f addr ↔ lastBackup (s.outbox f) = some addr := by
  obtain ⟨t, ht⟩ := s.connectedMap.contains_iff.mp (hs.listening f hf)
  have hreg : s.registedMap.find? t = some f := (hs.registed t f).mpr ⟨hf, ht⟩
  have hmem : t ∈ es := (hs.members t).mpr (s.registedMap.contains_iff.mpr ⟨f, hreg⟩)
  obtain ⟨g, addr', hg, -, hga⟩ := hs.entry (List.next_mem es t hmem)
  have hlast := hT (hs.size_eq ▸ hlen) t hmem f g addr' hreg hg hga
  constructor
  · rintro ⟨t', u, g', ht', hu, hg', hga'⟩
    obtain rfl := hs.registed_inj ht' hreg
    rw [hs.list.getNext hmem, Option.some.injEq] at hu
    obtain rfl := hu
    obtain rfl : g' = g := Option.some.inj (hg'.symm.trans hg)
    exact hlast.trans (hga.symm.trans hga')
  · intro h
    obtain rfl : addr' = addr := Option.some.inj (hlast.symm.trans h)
    exact ⟨t, _, g, hreg, hs.list.getNext hmem, hg, hga⟩

/-- In every state with two servers at least, the reply names the backup of the owner if and only if
the owner's listening address is itself an entry of the list of connections, and the one behind it is
where the owner's successor listens. -/
theorem replies_backup_iff (cbHashfunc : Str → ℤ) (evs : List Event)
    (h : Allowed (MasterServer.step cbHashfunc) OneRegistration .new evs) :
    ∃ rs s, run (MasterServer.step cbHashfunc) .new evs = some (rs, s) ∧
      (2 ≤ s.registedMap.size → ∀ clientAddr key ipPort f,
        s.masterHash.conhashGetCacheServer cbHashfunc key = some ipPort →
        s.listenMap.find? f = some ipPort →
        (RepliesBackup cbHashfunc s clientAddr key f ↔ s.connectList.isExisted ipPort = true ∧
          ∃ addr, s.connectList.getNext ipPort = some addr ∧ SuccessorListens s f addr)) := by
  obtain ⟨rs, s, es, hr, hs, hT, hp⟩ := exists_topology_of_run h
  refine ⟨rs, s, hr, fun hlen clientAddr key ipPort f ho hf => ?_⟩
  have hz : 0 ∉ ipPort := by
    obtain ⟨sa, rfl⟩ := hs.addresses f ipPort hf
    exact zero_notMem_sockAddr2str sa
  have hget := hs.getDistribute_eq hp ho hz clientAddr
  have hsucc : ∀ addr, SuccessorListens s f addr ↔ lastBackup (s.outbox f) = some addr :=
    fun addr => hs.successorListens_iff hT hlen (s.listenMap.contains_iff.mpr ⟨ipPort, hf⟩)
  simp only [hsucc, hs.list.isExisted]
  constructor
  · rintro ⟨ipPort', backup, s', ho', hlast, hs', hreplies⟩
    obtain rfl : ipPort' = ipPort := Option.some.inj (ho'.symm.trans ho)
    rw [hget, Option.some.injEq, Prod.mk.injEq] at hs'
    obtain ⟨-, rfl⟩ := hs'
    have hmsg := List.append_cancel_left hreplies
    simp only [List.cons.injEq, Prod.mk.injEq, true_and, and_true] at hmsg
    split_ifs at hmsg with hmem
    · refine ⟨hmem, _, hs.list.getNext hmem, ?_⟩
      rw [hlast, List.append_cancel_left hmsg]
    · have hlength := congrArg List.length hmsg
      simp only [List.length_append, List.length_singleton] at hlength
      omega
  · rintro ⟨hmem, addr, hnext, hlast⟩
    rw [hs.list.getNext hmem, Option.some.injEq] at hnext
    refine ⟨ipPort, addr, _, ho, hlast, hget, ?_⟩
    rw [dif_pos hmem, hnext]

/-- Two servers on one host that register one after the other. -/
def twoServers : List Event :=
  [.newConn 5 ⟨afInet, htons 40000, ⟨10, 0, 0, 1⟩⟩, .newConn 6 ⟨afInet, htons 40001, ⟨10, 0, 0, 1⟩⟩,
    .cacheServer 5 (.data (lit "6000")) ⟨0, 0, .any⟩,
    .cacheServer 6 (.data (lit "6001")) ⟨0, 0, .any⟩, .work, .work]

set_option maxRecDepth 4000 in
theorem replies_backup_iff_two :
    ∃ rs s, run (MasterServer.step fun _ => 0) .new twoServers = some (rs, s) ∧
      (RepliesBackup (fun _ => 0) s ⟨afInet, htons 50000, ⟨10, 0, 0, 9⟩⟩ (lit "k") 5 ↔
        s.connectList.isExisted (lit "10.0.0.1:6000") = true ∧
          ∃ addr, s.connectList.getNext (lit "10.0.0.1:6000") = some addr ∧
            SuccessorListens s 5 addr) := by
  obtain ⟨rs, s, hr, hs⟩ := replies_backup_iff (fun _ => 0) twoServers ⟨⟨by decide, by decide⟩,
    ⟨by decide, by decide⟩, ⟨by decide, by decide, by decide⟩, ⟨by decide, by decide, by decide⟩,
    trivial, by
      split
      · trivial
      · exact ⟨trivial, by split <;> trivial⟩⟩
  refine ⟨rs, s, hr, ?_⟩
  obtain ⟨-, rfl⟩ := Prod.mk.inj (Option.some.inj hr)
  exact hs (by decide) _ _ _ _ rfl rfl

set_option maxRecDepth 4000 in
/-- The reply holds the owner's address only. -/
theorem not_replies_backup :
    ∃ rs s, run (MasterServer.step fun _ => 0) .new twoServers = some (rs, s) ∧
      s.registedMap.size = 2 ∧
      s.masterHash.conhashGetCacheServer (fun _ => 0) (lit "k") = some (lit "10.0.0.1:6000") ∧
      s.listenMap.find? 5 = some (lit "10.0.0.1:6000") ∧
      ¬ RepliesBackup (fun _ => 0) s ⟨afInet, htons 50000, ⟨10, 0, 0, 9⟩⟩ (lit "k") 5 := by
  refine ⟨_, _, rfl, rfl, rfl, rfl, ?_⟩
  rintro ⟨ipPort, backup, s', ho, -, hget, hreplies⟩
  obtain rfl : ipPort = lit "10.0.0.1:6000" := (Option.some.inj ho).symm
  obtain ⟨-, rfl⟩ := Prod.mk.inj (Option.some.inj hget)
  have hlength : [13] = [(lit "10.0.0.1:6000" ++ [newline] ++ backup).length] :=
    congrArg (List.map fun reply : SockAddrIn × Str => reply.2.length) hreplies
  have haddr : (lit "10.0.0.1:6000").length = 13 := rfl
  simp only [List.cons.injEq, and_true, List.length_append, List.length_singleton, haddr] at hlength
  omega

end DCache.Master
