import DCache.Master.Topology

/-! Backups to the server itself. Of two neighbours that are one and the same server, `Register`
excludes the case that can arise there, a ring of one; a departure that leaves one server goes
unnoticed, and that server is told to back up to itself. -/
namespace DCache.Master
open DCache.Lib DCache.Ring MasterServer

/-- No server was told to back up to its own listening address. -/
def NoSelfBackup (s : MasterServer) : Prop :=
  ∀ f addr, s.listenMap.find? f = some addr → ∀ msg ∈ s.outbox f, backupTarget msg ≠ some addr

/-- The listening address that is registered is no other server's. -/
def DistinctAddress (s : MasterServer) : Event → Prop
  | .work => ∀ r rest, s.workqueue = r :: rest → sockAddr2str r.clientAddr ∉ s.listenMap.values
  | _ => True

/-- The server that leaves is not one of two. -/
def LeavesNotOne (s : MasterServer) : Event → Prop
  | .cacheServer cfd .closed _ => s.listenMap.contains cfd = true → s.registedMap.size ≠ 2
  | _ => True

structure SelfFree (s : MasterServer) : Prop where
  distinct : ∀ f g addr, s.listenMap.find? f = some addr → s.listenMap.find? g = some addr → f = g
  silent : ∀ f, s.listenMap.find? f = none → s.connectedMap.contains f = true →
    ∀ msg ∈ s.outbox f, backupTarget msg = none
  others : NoSelfBackup s

variable {cbHashfunc : Str → ℤ} {s s' : MasterServer} {es es' es₁ es₂ : List Str}
  {a : Str} {e : Event}

/-- The messages about backups are for the two neighbours. -/
theorem SelfFree.accepted (hf : SelfFree s) (cfd : ℤ) (clientAddr : SockAddrIn) :
    SelfFree (accepted s cfd (sockAddr2str clientAddr)) where
  distinct := hf.distinct
  silent f hlf hc msg hmsg := by
    change msg ∈ (if f = cfd then [] else s.outbox f) at hmsg
    split_ifs at hmsg with he
    · cases hmsg
    · refine hf.silent f hlf ?_ msg hmsg
      change (s.connectedMap.insert cfd _).contains f = true at hc
      rwa [OrdMap.contains, OrdMap.find?_insert, if_neg he] at hc
  others f addr hfa msg hmsg := by
    change msg ∈ (if f = cfd then [] else s.outbox f) at hmsg
    split_ifs at hmsg
    · cases hmsg
    · exact hf.others f addr hfa msg hmsg

/-- A message that comes when a server joins names the new server to its predecessor, or its
successor to it. -/
theorem of_mem_join {cfd prevFd g : ℤ} {addr nextAddr msg : Str}
    (h : msg ∈ announcements s cfd addr g ++ backupMsgs es prevFd cfd
      (updateBackupText addr ++ [0]) (updateBackupText nextAddr ++ [0]) g) :
    backupTarget msg = none ∨ es ≠ [] ∧ (g = prevFd ∧ msg = updateBackupText addr ++ [0] ∨
      g = cfd ∧ msg = updateBackupText nextAddr ++ [0]) := by
  rcases List.mem_append.mp h with h | h
  · exact Or.inl (backupTarget_of_mem_announcements h)
  · exact Or.inr (of_mem_backupMsgs h)

theorem of_mem_leave {c : Prop} [Decidable c] {addrs : List Str} {prevFd nextFd g : ℤ}
    {nextAddr msg : Str}
    (h : msg ∈ (if c then [updateHashText addrs ++ [0]] else []) ++
      backupMsgs es nextFd prevFd recoverBackupMsg (updateBackupText nextAddr) g) :
    backupTarget msg = none ∨ es ≠ [] ∧ g = prevFd ∧ msg = updateBackupText nextAddr := by
  rcases List.mem_append.mp h with h | h
  · exact Or.inl (backupTarget_of_mem_hash h)
  · obtain ⟨hne, ⟨-, rfl⟩ | ⟨hg, rfl⟩⟩ := of_mem_backupMsgs h
    · exact Or.inl backupTarget_recoverBackupMsg
    · exact Or.inr ⟨hne, hg, rfl⟩

theorem SelfFree.registered (hf : SelfFree s) {a : Str} {sa : SockAddrIn}
    {cfd prevFd nextFd : ℤ} {nextAddr : Str} {l : ServerList Str} {c : ConHash}
    {m : ℤ → List Str}
    (hs' : Registry ((Registry.registered s a cfd (sockAddr2str sa) l c).deliver m) (es ++ [a]))
    (hl : s.listenMap.find? cfd = none) (hc : s.connectedMap.find? cfd = some a)
    (hfresh : sockAddr2str sa ∉ s.listenMap.values) (hmem : a ∈ es ++ [a])
    (hp : (s.registedMap.insert a cfd).find? ((es ++ [a]).prev a hmem) = some prevFd)
    (hn : (s.registedMap.insert a cfd).find? ((es ++ [a]).next a hmem) = some nextFd)
    (hna : (s.listenMap.insert cfd (sockAddr2str sa)).find? nextFd = some nextAddr) :
    SelfFree ((Registry.registered s a cfd (sockAddr2str sa) l c).deliver fun g =>
      announcements s cfd (sockAddr2str sa) g ++ backupMsgs es prevFd cfd
        (updateBackupText (sockAddr2str sa) ++ [0]) (updateBackupText nextAddr ++ [0]) g) := by
  have hcfd : (s.registedMap.insert a cfd).find? a = some cfd := by simp
  have hnew : (s.listenMap.insert cfd (sockAddr2str sa)).find? cfd = some (sockAddr2str sa) := by
    simp
  have hold : ∀ {f : ℤ}, f ≠ cfd →
      (s.listenMap.insert cfd (sockAddr2str sa)).find? f = s.listenMap.find? f := fun hfc => by
    rw [OrdMap.find?_insert, if_neg hfc]
  -- with others in the ring neither neighbour is the new server
  have hprev : es ≠ [] → prevFd ≠ cfd := fun hes he =>
    hes ((prev_eq_self_iff hs'.list.nodup hmem).mp ((hs'.fd_eq_iff hp hcfd).mp he))
  have hnext : es ≠ [] → nextFd ≠ cfd := fun hes he =>
    hes ((next_eq_self_iff hs'.list.nodup hmem).mp ((hs'.fd_eq_iff hn hcfd).mp he))
  have hdistinct : ∀ f g addr, (s.listenMap.insert cfd (sockAddr2str sa)).find? f = some addr →
      (s.listenMap.insert cfd (sockAddr2str sa)).find? g = some addr → f = g := by
    have hother : ∀ {f : ℤ}, f ≠ cfd →
        (s.listenMap.insert cfd (sockAddr2str sa)).find? f ≠ some (sockAddr2str sa) :=
      fun hfc h => hfresh (s.listenMap.mem_values.mpr ⟨_, (hold hfc).symm.trans h⟩)
    intro f g addr hfa hga
    by_cases hfc : f = cfd <;> by_cases hgc : g = cfd
    · exact hfc.trans hgc.symm
    · rw [hfc, hnew] at hfa
      obtain rfl := Option.some.inj hfa
      exact absurd hga (hother hgc)
    · rw [hgc, hnew] at hga
      obtain rfl := Option.some.inj hga
      exact absurd hfa (hother hfc)
    · exact hf.distinct f g addr ((hold hfc).symm.trans hfa) ((hold hgc).symm.trans hga)
  obtain ⟨na, rfl⟩ := hs'.addresses nextFd nextAddr hna
  refine ⟨hdistinct, fun f hlf hcf msg hmsg => ?_, fun f addr hfa msg hmsg => ?_⟩
  · have hfc : f ≠ cfd := fun he => by
      rw [he] at hlf
      cases hnew.symm.trans hlf
    rcases List.mem_append.mp hmsg with hmsg | hmsg
    · exact hf.silent f ((hold hfc).symm.trans hlf) hcf msg hmsg
    · rcases of_mem_join hmsg with hmsg | ⟨-, ⟨rfl, -⟩ | ⟨he, -⟩⟩
      · exact hmsg
      · have hlisten := ((hs'.registed _ _).mp hp).1
        obtain ⟨addr, haddr⟩ := OrdMap.contains_iff _ |>.mp hlisten
        cases haddr.symm.trans hlf
      · exact absurd he hfc
  · rcases List.mem_append.mp hmsg with hmsg | hmsg
    · by_cases hfc : f = cfd
      · subst hfc
        rw [hf.silent f hl (s.connectedMap.contains_iff.mpr ⟨a, hc⟩) msg hmsg]
        exact nofun
      · exact hf.others f addr ((hold hfc).symm.trans hfa) msg hmsg
    · rcases of_mem_join hmsg with hmsg | ⟨hes, ⟨rfl, rfl⟩ | ⟨rfl, rfl⟩⟩
      · rw [hmsg]
        exact (Option.some_ne_none addr).symm
      · rw [backupTarget_updateBackupText]
        exact fun he => hprev hes (hdistinct _ _ _ (he ▸ hfa) hnew)
      · rw [backupTarget_updateBackupText]
        exact fun he => hnext hes (hdistinct _ _ _ hna (he ▸ hfa))

theorem SelfFree.departed (hs : Registry s (es₁ ++ a :: es₂)) (hf : SelfFree s)
    {cfd prevFd nextFd : ℤ} {nextAddr : Str} {l : ServerList Str} (hmem : a ∈ es₁ ++ a :: es₂)
    (hp : s.registedMap.find? ((es₁ ++ a :: es₂).prev a hmem) = some prevFd)
    (hn : s.registedMap.find? ((es₁ ++ a :: es₂).next a hmem) = some nextFd)
    (hna : s.listenMap.find? nextFd = some nextAddr) (hlen : (es₁ ++ es₂).length ≠ 1) :
    SelfFree ((departed s a cfd l).deliver fun g =>
      (if (s.listenMap.erase cfd).contains g = true then
        [updateHashText (s.listenMap.erase cfd).values ++ [0]] else []) ++
      backupMsgs (es₁ ++ es₂) nextFd prevFd recoverBackupMsg (updateBackupText nextAddr) g) := by
  have hkept : ∀ {f addr}, (s.listenMap.erase cfd).find? f = some addr →
      f ≠ cfd ∧ s.listenMap.find? f = some addr := fun hfa => by
    rw [OrdMap.find?_erase] at hfa
    split_ifs at hfa with hfc
    exact ⟨hfc, hfa⟩
  obtain ⟨na, rfl⟩ := hs.addresses nextFd nextAddr hna
  have htarget : backupTarget (updateBackupText (sockAddr2str na)) = some (sockAddr2str na) := by
    have := backupTarget_updateBackupText na []
    rwa [List.append_nil] at this
  refine ⟨fun f g addr hfa hga => hf.distinct f g addr (hkept hfa).2 (hkept hga).2,
    fun f hlf hcf msg hmsg => ?_, fun f addr hfa msg hmsg => ?_⟩
  · have hfc : f ≠ cfd := fun he => by
      change (s.connectedMap.erase cfd).contains f = true at hcf
      rw [OrdMap.contains, OrdMap.find?_erase, if_pos he] at hcf
      cases hcf
    change (s.listenMap.erase cfd).find? f = none at hlf
    change (s.connectedMap.erase cfd).contains f = true at hcf
    rw [OrdMap.find?_erase, if_neg hfc] at hlf
    rw [OrdMap.contains, OrdMap.find?_erase, if_neg hfc] at hcf
    rcases List.mem_append.mp hmsg with hmsg | hmsg
    · exact hf.silent f hlf hcf msg hmsg
    · rcases of_mem_leave hmsg with hmsg | ⟨-, rfl, -⟩
      · exact hmsg
      · obtain ⟨addr, haddr⟩ := s.listenMap.contains_iff.mp ((hs.registed _ _).mp hp).1
        cases haddr.symm.trans hlf
  · rcases List.mem_append.mp hmsg with hmsg | hmsg
    · exact hf.others f addr (hkept hfa).2 msg hmsg
    · rcases of_mem_leave hmsg with hmsg | ⟨hne, rfl, rfl⟩
      · rw [hmsg]
        exact (Option.some_ne_none addr).symm
      · rw [htarget]
        intro he
        -- the predecessor would be the successor, with no third server
        have hsame := hf.distinct f nextFd addr (hkept hfa).2 (he ▸ hna)
        have hone := (next_eq_prev_iff hs.list.nodup hmem).mp
          ((hs.fd_eq_iff hn hp).mp hsame.symm)
        have := List.length_pos_iff.mpr hne
        omega

theorem Transition.selfFree (hs : Registry s es) (hf : SelfFree s) (hd : DistinctAddress s e)
    (hok : LeavesNotOne s e) (ht : Transition cbHashfunc s es e s' es') : SelfFree s' := by
  have hs' := ht.registry hs
  cases ht with
  | idle => exact hf
  | accepted cfd clientAddr hc hl ha => exact hf.accepted cfd clientAddr
  | queued cfd buf res clientAddr hc hl hq => exact ⟨hf.distinct, hf.silent, hf.others⟩
  | registered r rest a l c prevFd nextFd nextAddr hw hq hc hl hlist hown hadd hnb hna =>
    obtain ⟨hmem, hp, hn⟩ := hnb
    have hf' : SelfFree { s with workqueue := rest } := ⟨hf.distinct, hf.silent, hf.others⟩
    exact hf'.registered hs' hl hc (hd r rest hw) hmem hp hn hna
  | departed es₁ es₂ a cfd res l prevFd nextFd nextAddr hes hcfd hlist hnb hna =>
    subst hes
    obtain ⟨hmem, hp, hn⟩ := hnb
    refine hf.departed hs hmem hp hn hna fun hlen => ?_
    have hlisten := ((hs.registed _ _).mp hcfd).1
    refine hok hlisten ?_
    rw [hs.size_eq, List.length_append, List.length_cons]
    rw [List.length_append] at hlen
    omega

/-- The departure that leaves one server sends it a backup order that names it. -/
theorem not_noSelfBackup_departed (hs : Registry s (es₁ ++ a :: es₂)) {cfd prevFd nextFd : ℤ}
    {nextAddr : Str} {l : ServerList Str} (hcfd : s.registedMap.find? a = some cfd)
    (hmem : a ∈ es₁ ++ a :: es₂)
    (hp : s.registedMap.find? ((es₁ ++ a :: es₂).prev a hmem) = some prevFd)
    (hn : s.registedMap.find? ((es₁ ++ a :: es₂).next a hmem) = some nextFd)
    (hna : s.listenMap.find? nextFd = some nextAddr) (hlen : (es₁ ++ es₂).length = 1) :
    ¬ NoSelfBackup ((departed s a cfd l).deliver fun g =>
      (if (s.listenMap.erase cfd).contains g = true then
        [updateHashText (s.listenMap.erase cfd).values ++ [0]] else []) ++
      backupMsgs (es₁ ++ es₂) nextFd prevFd recoverBackupMsg (updateBackupText nextAddr) g) := by
  intro h
  have hne : es₁ ++ es₂ ≠ [] := fun he => by simp [he] at hlen
  have hsame : nextFd = prevFd :=
    (hs.fd_eq_iff hn hp).mpr ((next_eq_prev_iff hs.list.nodup hmem).mpr hlen.le)
  have hother : prevFd ≠ cfd := fun he => by
    have := (prev_eq_self_iff hs.list.nodup hmem).mp ((hs.fd_eq_iff hp hcfd).mp he)
    refine hne (List.append_eq_nil_iff.mpr ?_)
    exact (List.append_eq_nil_iff.mp this).symm
  obtain ⟨na, rfl⟩ := hs.addresses nextFd nextAddr hna
  have hlisten : (s.listenMap.erase cfd).find? prevFd = some (sockAddr2str na) := by
    rw [OrdMap.find?_erase, if_neg hother, ← hsame, hna]
  refine h prevFd (sockAddr2str na) hlisten (updateBackupText (sockAddr2str na)) ?_ ?_
  · refine List.mem_append_right _ (List.mem_append_right _ ?_)
    rw [backupMsgs, if_neg hne]
    exact List.mem_append_right _ (by rw [if_pos rfl]; exact List.mem_singleton_self _)
  · have := backupTarget_updateBackupText na []
    rwa [List.append_nil] at this

theorem leavesNotOne_of_ignored (h : Ignored s e) : LeavesNotOne s e := by
  cases e with
  | cacheServer cfd recv res =>
    cases recv with
    | closed =>
      have hnone : s.listenMap.find? cfd = none := h
      intro hlisten
      rw [OrdMap.contains, hnone] at hlisten
      cases hlisten
    | failed => trivial
    | data buf => trivial
  | newConn => trivial
  | client => trivial
  | work => trivial

/-- In a run of registrations and disconnections no server is told to back up to itself, in any
state, exactly when no server leaves that was one of two. -/
theorem noSelfBackup_iff (cbHashfunc : Str → ℤ) (evs : List Event)
    (h : Allowed (MasterServer.step cbHashfunc)
      (fun s e => OneRegistration s e ∧ DistinctAddress s e) .new evs) :
    (∀ evs₁, evs₁ <+: evs → ∀ rs s, run (MasterServer.step cbHashfunc) .new evs₁ = some (rs, s) →
      NoSelfBackup s) ↔ Allowed (MasterServer.step cbHashfunc) LeavesNotOne .new evs := by
  refine forall_prefix_iff_allowed (I := fun s => ∃ es, Registry s es ∧ SelfFree s)
    (P := NoSelfBackup) (fun s ⟨es, _, hf⟩ => hf.others) ?_ ?_
    ⟨[], Registry.new, nofun, nofun, nofun⟩ h
  · rintro s e r s' ⟨es, hs, hf⟩ ⟨he, hd⟩ hok hstep
    obtain ⟨r', s'', es', hstep', ht⟩ := hs.step cbHashfunc he
    obtain ⟨-, rfl⟩ := Prod.mk.inj (Option.some.inj (hstep'.symm.trans hstep))
    exact ⟨es', ht.registry hs, ht.selfFree hs hf hd hok⟩
  · rintro s e ⟨es, hs, hf⟩ ⟨he, hd⟩ hbad
    obtain ⟨r, s', es', hstep, ht⟩ := hs.step cbHashfunc he
    refine ⟨r, s', hstep, ?_⟩
    cases ht with
    | idle _ hidle => exact absurd (leavesNotOne_of_ignored hidle) hbad
    | accepted => exact absurd trivial hbad
    | queued => exact absurd trivial hbad
    | registered => exact absurd trivial hbad
    | departed es₁ es₂ a cfd res l prevFd nextFd nextAddr hes hcfd hlist hnb hna =>
      subst hes
      obtain ⟨hmem, hp, hn⟩ := hnb
      apply not_noSelfBackup_departed hs hcfd hmem hp hn hna
      simp only [LeavesNotOne, not_forall, not_not] at hbad
      obtain ⟨-, hsize⟩ := hbad
      rw [hs.size_eq, List.length_append, List.length_cons] at hsize
      rw [List.length_append]
      omega

/-- Two servers on one host have registered. -/
def bothRegistered : List Event :=
  [.newConn 5 ⟨afInet, htons 40000, ⟨10, 0, 0, 1⟩⟩, .newConn 6 ⟨afInet, htons 40001, ⟨10, 0, 0, 1⟩⟩,
    .cacheServer 5 (.data (lit "6000")) ⟨0, 0, .any⟩, .work,
    .cacheServer 6 (.data (lit "6001")) ⟨0, 0, .any⟩, .work]

theorem distinctAddress_of_head {r : Request} {rest : List Request} (hw : s.workqueue = r :: rest)
    (h : sockAddr2str r.clientAddr ∉ s.listenMap.values) : DistinctAddress s .work := by
  intro r' rest' hw'
  obtain ⟨rfl, -⟩ := List.cons.inj (hw.symm.trans hw')
  exact h

set_option maxRecDepth 4000 in
theorem allowed_bothRegistered : Allowed (MasterServer.step fun _ => 0)
    (fun s e => OneRegistration s e ∧ DistinctAddress s e) .new
    (bothRegistered ++ [.cacheServer 6 .closed ⟨0, 0, .any⟩]) := by
  refine ⟨⟨⟨by decide, by decide⟩, trivial⟩, ⟨⟨by decide, by decide⟩, trivial⟩,
    ⟨⟨by decide, by decide, by decide⟩, trivial⟩,
    ⟨trivial, distinctAddress_of_head rfl (by decide)⟩,
    ⟨⟨by decide, by decide, by decide⟩, trivial⟩,
    ⟨trivial, distinctAddress_of_head rfl (by decide)⟩,
    ⟨(by decide : (6 : ℤ) ∈ ({6, 5} : Finset ℤ)), trivial⟩, trivial⟩

theorem noSelfBackup_iff_two :
    (∀ evs₁, evs₁ <+: bothRegistered → ∀ rs s,
      run (MasterServer.step fun _ => 0) .new evs₁ = some (rs, s) → NoSelfBackup s) ↔
    Allowed (MasterServer.step fun _ => 0) LeavesNotOne .new bothRegistered :=
  noSelfBackup_iff (fun _ => 0) bothRegistered allowed_bothRegistered.of_append

set_option maxRecDepth 4000 in
/-- The server that is left is told to back up to its own address. -/
theorem not_noSelfBackup :
    Allowed (MasterServer.step fun _ => 0) (fun s e => OneRegistration s e ∧ DistinctAddress s e)
      .new (bothRegistered ++ [.cacheServer 6 .closed ⟨0, 0, .any⟩]) ∧
    ∃ rs s, run (MasterServer.step fun _ => 0) .new
        (bothRegistered ++ [.cacheServer 6 .closed ⟨0, 0, .any⟩]) = some (rs, s) ∧
      ¬ NoSelfBackup s := by
  refine ⟨allowed_bothRegistered, _, _, rfl, fun h => ?_⟩
  refine h 5 (lit "10.0.0.1:6000") rfl (updateBackupText (lit "10.0.0.1:6000")) ?_ rfl
  decide

end DCache.Master
