import DCache.Master.Disconnect

/-! A registration that fails. `Register` looks at the result of the insertion only after the
address is in the circular list, which takes an address any number of times. -/
namespace DCache.Master
open DCache.Lib DCache.Ring MasterServer

/-- The tables and what was sent are the same. -/
structure Unchanged (s s' : MasterServer) : Prop where
  registed : s'.registedMap = s.registedMap
  connected : s'.connectedMap = s.connectedMap
  listening : s'.listenMap = s.listenMap
  listed : ∀ es, s'.connectList.Listed es ↔ s.connectList.Listed es
  existed : ∀ a, s'.connectList.isExisted a = s.connectList.isExisted a
  masterHash : s'.masterHash = s.masterHash
  outbox : s'.outbox = s.outbox
  replies : s'.replies = s.replies

/-- If `Register` returns -1 then it has changed nothing. -/
def FailsUnchanged (cbHashfunc : Str → ℤ) (s : MasterServer) (cacheServer : SockAddrIn) (cfd : ℤ) :
    Prop :=
  ∀ s', s.register cbHashfunc cacheServer cfd = some (-1, s') → Unchanged s s'

/-- `connectedMap[cfd]` -/
def peerAddr (s : MasterServer) (cfd : ℤ) : Str := (s.connectedMap.index cfd []).1

variable {cbHashfunc : Str → ℤ} {s s' s'' : MasterServer} {es : List Str} {a : Str} {cfd r : ℤ}
  {sa : SockAddrIn} {e : Event}

section Runs

theorem exists_listed_register (hl : s.connectList.Listed es)
    (h : s.register cbHashfunc sa cfd = some (r, s')) : ∃ es', s'.connectList.Listed es' := by
  obtain ⟨l, hadd, hl', -⟩ := hl.add (s.connectedMap.index cfd []).1
  unfold MasterServer.register at h
  simp only [Option.bind_eq_bind] at h
  rw [hadd, Option.bind_some] at h
  split_ifs at h with hin
  · obtain ⟨-, rfl⟩ := Prod.mk.inj (Option.some.inj h)
    exact ⟨_, hl'⟩
  · obtain ⟨c, -, h⟩ := Option.bind_eq_some_iff.mp h
    obtain ⟨s₃, hnotify, h⟩ := Option.bind_eq_some_iff.mp h
    obtain ⟨-, rfl⟩ := Prod.mk.inj (Option.some.inj h)
    have hq := (quiet_updateHash { joined { s with connectedMap := (s.connectedMap.index cfd []).2 }
      (s.connectedMap.index cfd []).1 cfd (sockAddr2str sa) l with masterHash := c }).trans
      (quiet_foldl_send s.registedMap.values _ moveDataMsg)
    have hl₂ := hl'
    rw [← show _ = l from hq.connectList] at hl₂
    obtain ⟨s₄, hnotify', hq'⟩ := exists_notifyBackup hl₂ (s.connectedMap.index cfd []).1 cfd
    obtain rfl : s₄ = s₃ := Option.some.inj (hnotify'.symm.trans hnotify)
    exact ⟨_, hq'.connectList ▸ hl₂⟩

/-- The pointers stay a list, whatever reaches the master. -/
theorem exists_listed_step (hl : s.connectList.Listed es)
    (h : s.step cbHashfunc e = some (r, s')) : ∃ es', s'.connectList.Listed es' := by
  cases turn_of_step h with
  | frame hlist hlisten => exact ⟨es, hlist ▸ hl⟩
  | disconnected fd a connectedMap hex h =>
    obtain ⟨prev, next, es₁, es₂, s₁, -, -, -, hd, hdep⟩ := exists_departure
      (s := { s with connectedMap := connectedMap }) hl hex fd
    obtain ⟨-, rfl⟩ := Prod.mk.inj (Option.some.inj (hd.symm.trans h))
    exact ⟨_, hdep.listed⟩
  | register rest sa fd h => exact exists_listed_register (s := { s with workqueue := rest }) hl h

theorem exists_listed_of_run {evs : List Event} {rs : List ℤ}
    (h : run (MasterServer.step cbHashfunc) .new evs = some (rs, s)) :
    ∃ es, s.connectList.Listed es :=
  run_kept (I := fun s => ∃ es, s.connectList.Listed es)
    (fun _ _ _ _ ⟨_, hl⟩ _ h => exists_listed_step hl h) ⟨[], .new⟩ (allowed_trivial _ evs) h

end Runs

section Failure

/-- All that a registration that fails does: the address is in the list once more, and the
connection gets entries where it had none. -/
theorem register_of_contains (cbHashfunc : Str → ℤ) (hl : s.connectList.Listed es) (sa : SockAddrIn)
    (hin : s.registedMap.contains (peerAddr s cfd) = true) :
    ∃ l, s.register cbHashfunc sa cfd = some (-1, { s with
        connectedMap := s.connectedMap.tryInsert cfd []
        listenMap := s.listenMap.tryInsert cfd (sockAddr2str sa)
        connectList := l }) ∧
      l.Listed (es ++ [peerAddr s cfd]) ∧
      ∀ b, l.isExisted b = true ↔ b = peerAddr s cfd ∨ s.connectList.isExisted b = true := by
  simp only [peerAddr] at hin ⊢
  obtain ⟨l, hadd, hl', hex⟩ := hl.add (s.connectedMap.index cfd []).1
  obtain ⟨fd, hfd⟩ := s.registedMap.contains_iff.mp hin
  refine ⟨l, ?_, hl', hex⟩
  unfold MasterServer.register
  simp only [Option.bind_eq_bind]
  rw [hadd, Option.bind_some, if_pos hin]
  simp only [joined, Option.some.injEq, Prod.mk.injEq, true_and]
  rw [s.registedMap.tryInsert_of_some cfd hfd]
  rfl

/-- A registration fails only if the peer's address is registered. -/
theorem contains_of_register (h : s.register cbHashfunc sa cfd = some (-1, s')) :
    s.registedMap.contains (peerAddr s cfd) = true := by
  by_contra hin
  unfold MasterServer.register at h
  simp only [Option.bind_eq_bind] at h
  obtain ⟨l, -, h⟩ := Option.bind_eq_some_iff.mp h
  simp only [peerAddr] at hin
  rw [if_neg hin] at h
  obtain ⟨c, -, h⟩ := Option.bind_eq_some_iff.mp h
  obtain ⟨s₁, -, h⟩ := Option.bind_eq_some_iff.mp h
  simp at h

/-- In every state that the master can reach, `Register` leaves things as they are when it fails
if and only if it does not fail: the address that the connection comes from is not registered. -/
theorem failsUnchanged_iff (cbHashfunc : Str → ℤ) {evs : List Event} {rs : List ℤ}
    (h : run (MasterServer.step cbHashfunc) .new evs = some (rs, s)) (sa : SockAddrIn) (cfd : ℤ) :
    FailsUnchanged cbHashfunc s sa cfd ↔ s.registedMap.contains (peerAddr s cfd) = false := by
  obtain ⟨es, hl⟩ := exists_listed_of_run h
  constructor
  · intro hf
    rw [← Bool.not_eq_true]
    intro hin
    obtain ⟨l, hreg, hl', -⟩ := register_of_contains cbHashfunc hl sa hin
    have hsame : l.Listed es := ((hf _ hreg).listed es).mpr hl
    have hlength := congrArg List.length (hsame.unique hl')
    rw [List.length_append, List.length_singleton] at hlength
    omega
  · intro hin s' hs'
    rw [contains_of_register hs'] at hin
    cases hin

/-- Where a registered server registers again, an entry for it stays in the list when it leaves,
and no look-up leads there. -/
theorem orphan_of_failed {rs : List ℤ} {evs : List Event}
    (hrun : run (MasterServer.step cbHashfunc) .new evs = some (rs, s))
    (hex : s.connectList.isExisted (peerAddr s cfd) = true)
    (hfail : s.register cbHashfunc sa cfd = some (-1, s'))
    (hleave : s'.disconnected cfd (peerAddr s cfd) = some (r, s'')) :
    s''.connectList.isExisted (peerAddr s cfd) = false ∧
      ∃ es, s''.connectList.Listed es ∧ peerAddr s cfd ∈ es := by
  obtain ⟨es, hl⟩ := exists_listed_of_run hrun
  obtain ⟨es₁, es₂, -, rfl, -⟩ := hl.del hex
  obtain ⟨l, hreg, hl', hex'⟩ :=
    register_of_contains cbHashfunc hl sa (contains_of_register hfail)
  obtain ⟨-, hs'⟩ := Prod.mk.inj (Option.some.inj (hreg.symm.trans hfail))
  have hlist : s'.connectList = l := by rw [← hs']
  rw [← hlist] at hl' hex'
  obtain ⟨prev, next, es₃, es₄, s₁, -, -, hes, hd, hdep⟩ :=
    exists_departure hl' ((hex' _).mpr (Or.inl rfl)) cfd
  obtain ⟨-, rfl⟩ := Prod.mk.inj (Option.some.inj (hd.symm.trans hleave))
  constructor
  · rw [← Bool.not_eq_true, hdep.existed]
    exact fun h => h.1 rfl
  · refine ⟨_, hdep.listed, ?_⟩
    -- of the two entries the departure takes one
    have hcount := congrArg (List.count (peerAddr s cfd)) hes
    simp only [List.count_append, List.count_cons_self, List.count_nil] at hcount
    have hpos : 0 < List.count (peerAddr s cfd) (es₃ ++ es₄) := by
      rw [List.count_append]
      omega
    exact List.count_pos_iff.mp hpos

/-- One server has registered and its port number comes again. -/
def portTwice : List Event :=
  [.newConn 5 ⟨afInet, htons 40000, ⟨10, 0, 0, 1⟩⟩, .cacheServer 5 (.data (lit "60")) ⟨0, 0, .any⟩,
    .work, .cacheServer 5 (.data (lit "00")) ⟨0, 0, .any⟩]

theorem failsUnchanged_iff_twice :
    ∃ rs s, run (MasterServer.step fun _ => 0) .new portTwice = some (rs, s) ∧
      (FailsUnchanged (fun _ => 0) s ⟨afInet, htons 0, ⟨10, 0, 0, 1⟩⟩ 5 ↔
        s.registedMap.contains (peerAddr s 5) = false) := by
  refine ⟨_, _, rfl, ?_⟩
  exact @failsUnchanged_iff _ (fun _ => 0) portTwice _ rfl _ 5

set_option maxRecDepth 4000 in
/-- The second registration fails and leaves a list of two entries for one server. -/
theorem not_failsUnchanged :
    ∃ rs s, run (MasterServer.step fun _ => 0) .new portTwice = some (rs, s) ∧
      ¬ FailsUnchanged (fun _ => 0) s ⟨afInet, htons 0, ⟨10, 0, 0, 1⟩⟩ 5 := by
  refine ⟨_, _, rfl, fun h => ?_⟩
  have hs := h _ rfl
  obtain ⟨es, hl⟩ := @exists_listed_of_run (fun _ => 0) _ portTwice _ rfl
  have hone : (1 : ℤ) = es.length := hl.size
  have htwo : (2 : ℤ) = es.length := ((hs.listed es).mpr hl).size
  omega

end Failure

end DCache.Master
