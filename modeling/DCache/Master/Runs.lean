import DCache.Master.Registry

/-! What an event can do to the master, and the invariant of its tables over all runs. -/
namespace DCache.Master
open DCache.Lib DCache.Ring MasterServer

/-- Events that the master can meet when every connection sends one registration message: open
connections have distinct descriptors and peers, and messages and ends of stream come from open
connections. -/
def OneRegistration (s : MasterServer) : Event → Prop
  | .newConn cfd clientAddr => cfd ∉ s.openFds ∧
      ∀ f ∈ s.openFds, s.connectedMap.find? f ≠ some (sockAddr2str clientAddr)
  | .client _ _ _ => False
  | .cacheServer cfd (.data _) _ => cfd ∈ s.openFds ∧ s.listenMap.find? cfd = none ∧
      cfd ∉ queuedFds s.workqueue
  | .cacheServer cfd _ _ => cfd ∈ s.openFds
  | .work => True

/-- The tables after a connection is accepted. -/
def accepted (s : MasterServer) (cfd : ℤ) (a : Str) : MasterServer :=
  { s with
    openFds := insert cfd s.openFds
    watched := insert cfd s.watched
    outbox := fun g => if g = cfd then [] else s.outbox g
    connectedMap := s.connectedMap.insert cfd a }

/-- Events that leave the master as it is. -/
def Ignored (s : MasterServer) : Event → Prop
  | .newConn _ _ => False
  | .client _ _ _ => False
  | .cacheServer _ .failed _ => True
  | .cacheServer cfd .closed _ => s.listenMap.find? cfd = none
  | .cacheServer _ (.data _) _ => s.workqueue.length ≥ maxRequests
  | .work => s.workqueue = []

/-- The effects of events on tables that describe the registrations `es`. -/
inductive Transition (cbHashfunc : Str → ℤ) (s : MasterServer) (es : List Str) :
    Event → MasterServer → List Str → Prop
  | idle (e : Event) (he : Ignored s e) : Transition cbHashfunc s es e s es
  | accepted (cfd : ℤ) (clientAddr : SockAddrIn) (hc : s.connectedMap.find? cfd = none)
      (hl : s.listenMap.find? cfd = none)
      (ha : ∀ f, s.connectedMap.find? f ≠ some (sockAddr2str clientAddr)) :
      Transition cbHashfunc s es (.newConn cfd clientAddr)
        (accepted s cfd (sockAddr2str clientAddr)) es
  | queued (cfd : ℤ) (buf : Str) (res clientAddr : SockAddrIn)
      (hc : s.connectedMap.contains cfd = true) (hl : s.listenMap.find? cfd = none)
      (hq : cfd ∉ queuedFds s.workqueue) :
      Transition cbHashfunc s es (.cacheServer cfd (.data buf) res)
        { s with workqueue := s.workqueue ++ [⟨.register, clientAddr, [], cfd⟩] } es
  | registered (r : Request) (rest : List Request) (a : Str) (l : ServerList Str) (c : ConHash)
      (prevFd nextFd : ℤ) (nextAddr : Str) (hw : s.workqueue = r :: rest)
      (hq : r.cfd ∉ queuedFds rest) (hc : s.connectedMap.find? r.cfd = some a)
      (hl : s.listenMap.find? r.cfd = none) (hlist : l.Rep (es ++ [a])) (hown : c.Owned)
      (hadd : s.masterHash.conhashAddCacheServer cbHashfunc (sockAddr2str r.clientAddr) = some c)
      (hnb : ∃ ha,
        (s.registedMap.insert a r.cfd).find? ((es ++ [a]).prev a ha) = some prevFd ∧
        (s.registedMap.insert a r.cfd).find? ((es ++ [a]).next a ha) = some nextFd)
      (hna : (s.listenMap.insert r.cfd (sockAddr2str r.clientAddr)).find? nextFd = some nextAddr) :
      Transition cbHashfunc s es .work
        ((Registry.registered { s with workqueue := rest } a r.cfd (sockAddr2str r.clientAddr) l
          c).deliver fun g => announcements s r.cfd (sockAddr2str r.clientAddr) g ++
            backupMsgs es prevFd r.cfd (updateBackupText (sockAddr2str r.clientAddr) ++ [0])
              (updateBackupText nextAddr ++ [0]) g)
        (es ++ [a])
  | departed (es₁ es₂ : List Str) (a : Str) (cfd : ℤ) (res : SockAddrIn) (l : ServerList Str)
      (prevFd nextFd : ℤ) (nextAddr : Str) (hes : es = es₁ ++ a :: es₂)
      (hf : s.registedMap.find? a = some cfd) (hlist : l.Rep (es₁ ++ es₂))
      (hnb : ∃ ha, s.registedMap.find? ((es₁ ++ a :: es₂).prev a ha) = some prevFd ∧
        s.registedMap.find? ((es₁ ++ a :: es₂).next a ha) = some nextFd)
      (hna : s.listenMap.find? nextFd = some nextAddr) :
      Transition cbHashfunc s es (.cacheServer cfd .closed res)
        ((departed s a cfd l).deliver fun g =>
          (if (s.listenMap.erase cfd).contains g = true then
            [updateHashText (s.listenMap.erase cfd).values ++ [0]] else []) ++
          backupMsgs (es₁ ++ es₂) nextFd prevFd recoverBackupMsg (updateBackupText nextAddr) g)
        (es₁ ++ es₂)

variable {cbHashfunc : Str → ℤ} {s s' : MasterServer} {es es' : List Str} {e : Event}

theorem queuedFds_cons {r : Request} {rest : List Request} (hr : r.requestType = .register) :
    queuedFds (r :: rest) = r.cfd :: queuedFds rest := by
  simp [queuedFds, hr]

theorem queuedFds_append (q : List Request) {r : Request} (hr : r.requestType = .register) :
    queuedFds (q ++ [r]) = queuedFds q ++ [r.cfd] := by
  simp [queuedFds, hr]

/-- A request that is taken from the queue leaves the tables as they are. -/
theorem Registry.dequeue {r : Request} {rest : List Request} (hs : Registry s es)
    (hw : s.workqueue = r :: rest) : Registry { s with workqueue := rest } es := by
  have hr := hs.registers r (hw ▸ List.mem_cons_self)
  have honce := hs.once
  have hqueued := hs.queued
  rw [hw, queuedFds_cons hr] at honce hqueued
  refine ⟨hs.list, hs.registed, hs.members, hs.peers, hs.listening, hs.opened,
    (List.nodup_cons.mp honce).2, fun f hf => hqueued f (List.mem_cons_of_mem _ hf),
    fun r' hr' => hs.registers r' (hw ▸ List.mem_cons_of_mem _ hr'), hs.addresses, hs.owned⟩

/-- Every event that can happen is one of the transitions, and none faults. -/
theorem Registry.step (cbHashfunc : Str → ℤ) (hs : Registry s es) (he : OneRegistration s e) :
    ∃ r s' es', s.step cbHashfunc e = some (r, s') ∧ Transition cbHashfunc s es e s' es' := by
  -- reading the address of an open connection puts no entry in
  have hopen : ∀ cfd ∈ s.openFds, ∃ a, s.connectedMap.find? cfd = some a := fun cfd h =>
    s.connectedMap.contains_iff.mp ((hs.opened cfd).mp h)
  cases e with
  | newConn cfd clientAddr =>
    obtain ⟨hcfd, hpeer⟩ := he
    have hc : s.connectedMap.find? cfd = none := by
      simpa [OrdMap.contains] using mt (hs.opened cfd).mpr hcfd
    have hl : s.listenMap.find? cfd = none := by
      have := mt (hs.listening cfd)
      simpa [OrdMap.contains, hc] using this
    refine ⟨0, accepted s cfd (sockAddr2str clientAddr), es, ?_,
      .accepted cfd clientAddr hc hl fun f hf => ?_⟩
    · simp only [MasterServer.step, dealwithNewConn, OrdMap.tryInsert_of_none _ _ hc, accepted]
    · refine hpeer f ((hs.opened f).mpr ?_) hf
      simp [OrdMap.contains, hf]
  | client _ _ _ => exact he.elim
  | cacheServer cfd recv res =>
    cases recv with
    | failed =>
      obtain ⟨a, ha⟩ := hopen cfd he
      refine ⟨-1, s, es, ?_, .idle _ trivial⟩
      simp only [MasterServer.step, dealwithCacheServer, OrdMap.index_of_some _ _ ha]
    | closed =>
      obtain ⟨a, ha⟩ := hopen cfd he
      by_cases hreg : a ∈ es
      · obtain ⟨f, -, hf, hfa, -⟩ := hs.entry hreg
        obtain rfl := hs.peers f cfd a hfa ha
        obtain ⟨es₁, es₂, rfl⟩ := List.append_of_mem hreg
        obtain ⟨l, prevFd, nextFd, nextAddr, hlist, hp, hn, hna, hd⟩ := hs.disconnected_eq hf hreg
        refine ⟨0, _, _, ?_,
          .departed es₁ es₂ a f res l prevFd nextFd nextAddr rfl hf hlist ⟨hreg, hp, hn⟩ hna⟩
        simp only [MasterServer.step, dealwithCacheServer, OrdMap.index_of_some _ _ ha,
          hs.list.isExisted.mpr hreg, if_true]
        exact hd
      · have hl : s.listenMap.find? cfd = none := by
          by_contra hne
          have hreg' := (hs.registed a cfd).mpr ⟨Option.isSome_iff_ne_none.mpr hne, ha⟩
          exact hreg ((hs.members a).mpr (s.registedMap.contains_iff.mpr ⟨cfd, hreg'⟩))
        refine ⟨0, s, es, ?_, .idle _ hl⟩
        simp only [MasterServer.step, dealwithCacheServer, OrdMap.index_of_some _ _ ha,
          mt hs.list.isExisted.mp hreg, Bool.false_eq_true, if_false]
    | data buf =>
      obtain ⟨hcfd, hl, hq⟩ := he
      obtain ⟨a, ha⟩ := hopen cfd hcfd
      by_cases hfull : s.workqueue.length ≥ maxRequests
      · refine ⟨-1, s, es, ?_, .idle _ hfull⟩
        simp [MasterServer.step, dealwithCacheServer, OrdMap.index_of_some _ _ ha, append, hfull]
      · refine ⟨0, _, es, ?_, .queued cfd buf res
          { str2sockAddr res a with sinPort := htons (atoi (cstr buf)) }
          ((hs.opened cfd).mp hcfd) hl hq⟩
        simp [MasterServer.step, dealwithCacheServer, OrdMap.index_of_some _ _ ha, append, hfull]
  | work =>
    cases hw : s.workqueue with
    | nil => exact ⟨0, s, es, by simp [MasterServer.step, MasterServer.run, hw], .idle _ hw⟩
    | cons r rest =>
      have hr := hs.registers r (hw ▸ List.mem_cons_self)
      have hs' := hs.dequeue hw
      have hmem : r.cfd ∈ queuedFds s.workqueue := by
        rw [hw, queuedFds_cons hr]
        exact List.mem_cons_self
      have hq : r.cfd ∉ queuedFds rest := by
        have := hs.once
        rw [hw, queuedFds_cons hr] at this
        exact (List.nodup_cons.mp this).1
      obtain ⟨hcon, hl⟩ := hs.queued r.cfd hmem
      obtain ⟨a, ha⟩ := s.connectedMap.contains_iff.mp hcon
      obtain ⟨l, c, prevFd, nextFd, nextAddr, hlist, hown, hadd, hnb, hna, hd⟩ :=
        hs'.register_eq cbHashfunc ha hl hq r.clientAddr
      refine ⟨0, _, _, ?_, .registered r rest a l c prevFd nextFd nextAddr hw hq ha hl hlist hown
        hadd hnb hna⟩
      simp only [MasterServer.step, MasterServer.run, hw, hr]
      exact hd

/-- Every transition keeps the tables in agreement. -/
theorem Transition.registry (hs : Registry s es) (ht : Transition cbHashfunc s es e s' es') :
    Registry s' es' := by
  cases ht with
  | idle => exact hs
  | accepted cfd clientAddr hc hl ha =>
    have hfind : ∀ f, (DCache.Master.accepted s cfd
        (sockAddr2str clientAddr)).connectedMap.find? f =
        if f = cfd then some (sockAddr2str clientAddr) else s.connectedMap.find? f :=
      fun f => OrdMap.find?_insert _
    refine ⟨hs.list, fun b f => ?_, hs.members, fun f g b hf hg => ?_, fun f hf => ?_, fun f => ?_,
      hs.once, fun f hf => ?_, hs.registers, hs.addresses, hs.owned⟩
    · refine (hs.registed b f).trans (and_congr_right fun hlf => ?_)
      rw [hfind, if_neg]
      rintro rfl
      simp [OrdMap.contains, hl] at hlf
    · rw [hfind] at hf hg
      split_ifs at hf hg with h₁ h₂ h₂
      · rw [h₁, h₂]
      · exact absurd (hg.trans hf.symm) (ha g)
      · exact absurd (hf.trans hg.symm) (ha f)
      · exact hs.peers f g b hf hg
    · rw [OrdMap.contains, hfind]
      split_ifs
      · rfl
      · exact hs.listening f hf
    · rw [OrdMap.contains, hfind]
      change f ∈ insert cfd s.openFds ↔ _
      rw [Finset.mem_insert, hs.opened]
      split_ifs with h <;> simp [h, OrdMap.contains]
    · obtain ⟨hcf, hlf⟩ := hs.queued f hf
      refine ⟨?_, hlf⟩
      rw [OrdMap.contains, hfind]
      split_ifs
      · rfl
      · exact hcf
  | queued cfd buf res clientAddr hc hl hq =>
    refine ⟨hs.list, hs.registed, hs.members, hs.peers, hs.listening, hs.opened, ?_, fun f hf => ?_,
      fun r' hr' => ?_, hs.addresses, hs.owned⟩
    · rw [queuedFds_append _ rfl, List.nodup_append']
      exact ⟨hs.once, List.nodup_singleton _, by simpa using hq⟩
    · rw [queuedFds_append _ rfl] at hf
      rcases List.mem_append.mp hf with hf | hf
      · exact hs.queued f hf
      · exact List.mem_singleton.mp hf ▸ ⟨hc, hl⟩
    · rcases List.mem_append.mp hr' with hr' | hr'
      · exact hs.registers r' hr'
      · exact List.mem_singleton.mp hr' ▸ rfl
  | registered r rest a l c prevFd nextFd nextAddr hw hq hc hl hlist hown hadd hnb hna =>
    exact ((hs.dequeue hw).registered_registry hc hl hq hlist hown r.clientAddr).deliver _
  | departed es₁ es₂ a cfd res l prevFd nextFd nextAddr hes hf hlist hnb hna =>
    subst hes
    exact (hs.departed_registry hf hlist).deliver _

/-- What the four tables promise about each other. -/
structure TablesAgree (s : MasterServer) : Prop where
  registed : ∀ a f, s.registedMap.find? a = some f ↔
    s.listenMap.contains f = true ∧ s.connectedMap.find? f = some a
  injective : ∀ a b f, s.registedMap.find? a = some f → s.registedMap.find? b = some f → a = b
  list : ∃ es, s.connectList.Rep es ∧ es.Nodup ∧ ∀ a, a ∈ es ↔ s.registedMap.contains a = true
  neighbours : ∀ a, s.registedMap.contains a = true →
    (∃ b, s.connectList.getPrev a = some b ∧ s.registedMap.contains b = true) ∧
      ∃ b, s.connectList.getNext a = some b ∧ s.registedMap.contains b = true
  lookups : ∀ a b, s.connectList.getPrev a = some b ∨ s.connectList.getNext a = some b →
    s.registedMap.contains b = true

theorem Registry.tablesAgree (hs : Registry s es) : TablesAgree s where
  registed := hs.registed
  injective _ _ _ ha hb := hs.registed_inj ha hb
  list := ⟨es, hs.list, hs.list.nodup, hs.members⟩
  neighbours a ha := by
    have hmem := (hs.members a).mpr ha
    exact ⟨⟨_, hs.list.getPrev hmem, (hs.members _).mp (List.prev_mem _ _ hmem)⟩,
      _, hs.list.getNext hmem, (hs.members _).mp (List.next_mem _ _ hmem)⟩
  lookups a b h := by
    have hmem : a ∈ es := by
      by_contra ha
      rw [hs.list.getPrev_of_notMem ha, hs.list.getNext_of_notMem ha] at h
      simp at h
    rw [hs.list.getPrev hmem, hs.list.getNext hmem, Option.some.injEq, Option.some.injEq] at h
    rcases h with rfl | rfl
    · exact (hs.members _).mp (List.prev_mem _ _ hmem)
    · exact (hs.members _).mp (List.next_mem _ _ hmem)

/-- Runs do not fault and keep a registry. -/
theorem exists_registry_of_run {evs : List Event}
    (h : Allowed (MasterServer.step cbHashfunc) OneRegistration .new evs) :
    ∃ rs s es, run (MasterServer.step cbHashfunc) .new evs = some (rs, s) ∧ Registry s es := by
  obtain ⟨rs, s, hr, es, hs⟩ := run_invariant (I := fun s => ∃ es, Registry s es)
    (fun s e ⟨es, hs⟩ he => by
      obtain ⟨r, s', es', hstep, ht⟩ := hs.step cbHashfunc he
      exact ⟨r, s', hstep, es', ht.registry hs⟩) ⟨[], Registry.new⟩ h
  exact ⟨rs, s, es, hr, hs⟩

/-- In every state that the master reaches the tables agree, whatever the order of connections,
registrations, work and ends of connections. -/
theorem tables_agree_of_run (cbHashfunc : Str → ℤ) (evs : List Event)
    (h : Allowed (MasterServer.step cbHashfunc) OneRegistration .new evs) :
    ∃ rs s, run (MasterServer.step cbHashfunc) .new evs = some (rs, s) ∧ TablesAgree s := by
  obtain ⟨rs, s, es, hr, hs⟩ := exists_registry_of_run h
  exact ⟨rs, s, hr, hs.tablesAgree⟩

/-- A close that overtakes the queued registration. -/
theorem tables_agree_of_early_close : ∃ rs s, run (MasterServer.step fun _ => 0) .new
    [.newConn 5 ⟨afInet, htons 40000, ⟨10, 0, 0, 1⟩⟩,
      .cacheServer 5 (.data (lit "6000")) ⟨0, 0, .any⟩,
      .cacheServer 5 .closed ⟨0, 0, .any⟩, .work] = some (rs, s) ∧ TablesAgree s :=
  tables_agree_of_run (fun _ => 0) _ ⟨⟨by decide, by decide⟩, ⟨by decide, by decide, by decide⟩,
    by change (5 : ℤ) ∈ _; decide, trivial, by split <;> trivial⟩

end DCache.Master
