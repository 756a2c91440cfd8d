import DCache.Master.Runs

/-! The end of a connection in every state that the master can be in, however often connections
register. Only a connection that is registered leaves the tables. -/
namespace DCache.Master
open DCache.Lib DCache.Ring MasterServer

/-- Events that can reach the master: a new connection gets a descriptor that is not open, and
messages and ends of stream come from open connections. -/
def Deliverable (s : MasterServer) : Event → Prop
  | .newConn cfd _ => cfd ∉ s.openFds
  | .client _ _ _ => False
  | .cacheServer cfd _ _ => cfd ∈ s.openFds
  | .work => True

variable {cbHashfunc : Str → ℤ} {s s' s'' : MasterServer} {es : List Str} {a : Str} {cfd : ℤ}
  {e : Event}

section Quiet

/-- Steps that only send, and put entries into tables. -/
structure Quiet (s s' : MasterServer) : Prop where
  openFds : s'.openFds = s.openFds
  workqueue : s'.workqueue = s.workqueue
  connectList : s'.connectList = s.connectList
  masterHash : s'.masterHash = s.masterHash
  connected : ∀ f, s.connectedMap.contains f = true → s'.connectedMap.contains f = true

theorem Quiet.refl (s : MasterServer) : Quiet s s := ⟨rfl, rfl, rfl, rfl, fun _ h => h⟩

theorem Quiet.trans (h : Quiet s s') (h' : Quiet s' s'') : Quiet s s'' :=
  ⟨h'.openFds.trans h.openFds, h'.workqueue.trans h.workqueue,
    h'.connectList.trans h.connectList, h'.masterHash.trans h.masterHash,
    fun f hf => h'.connected f (h.connected f hf)⟩

theorem quiet_send (s : MasterServer) (fd : ℤ) (msg : Str) : Quiet s (s.send fd msg) :=
  ⟨rfl, rfl, rfl, rfl, fun _ h => h⟩

theorem quiet_foldl_send (fds : List ℤ) (s : MasterServer) (msg : Str) :
    Quiet s (fds.foldl (fun s fd => s.send fd msg) s) := by
  induction fds generalizing s with
  | nil => exact .refl s
  | cons fd fds ih => exact (quiet_send s fd msg).trans (ih _)

/-- Logging puts an entry in for every listening descriptor that has none. -/
theorem updateHash_spec (s : MasterServer) : ∃ out conn,
    s.updateHash = { s with outbox := out, connectedMap := conn } ∧
    ∀ f, conn.find? f =
      (s.connectedMap.find? f).or (if s.listenMap.contains f = true then some [] else none) := by
  have key : ∀ (fds : List ℤ) (s : MasterServer) (msg : Str), ∃ out conn,
      fds.foldl (updateHashTo msg) s = { s with outbox := out, connectedMap := conn } ∧
      ∀ f, conn.find? f = (s.connectedMap.find? f).or (if f ∈ fds then some [] else none) := by
    intro fds
    induction fds with
    | nil => exact fun s msg => ⟨s.outbox, s.connectedMap, rfl, fun f => by simp⟩
    | cons fd fds ih =>
      intro s msg
      obtain ⟨out, conn, hfold, hconn⟩ := ih (updateHashTo msg s fd) msg
      refine ⟨out, conn, hfold, fun f => ?_⟩
      have hone : (updateHashTo msg s fd).connectedMap = s.connectedMap.tryInsert fd [] := rfl
      rw [hconn, hone, OrdMap.find?_tryInsert, Option.or_assoc]
      congr 1
      by_cases hf : f = fd <;> simp [hf]
  obtain ⟨out, conn, hfold, hconn⟩ :=
    key (s.listenMap.entries.map Prod.fst) s (updateHashText s.listenMap.values)
  refine ⟨out, conn, hfold, fun f => ?_⟩
  rw [hconn]
  simp only [mem_fds]

theorem quiet_updateHash (s : MasterServer) : Quiet s s.updateHash := by
  obtain ⟨out, conn, hupdate, hconn⟩ := updateHash_spec s
  rw [hupdate]
  refine ⟨rfl, rfl, rfl, rfl, fun f hf => ?_⟩
  obtain ⟨v, hv⟩ := s.connectedMap.contains_iff.mp hf
  exact conn.contains_iff.mpr ⟨v, by rw [hconn, hv, Option.some_or]⟩

theorem exists_notifyBackup (hl : ServerList.Listed s.connectList es) (a : Str) (cfd : ℤ) :
    ∃ s', s.notifyBackup a cfd = some s' ∧ Quiet s s' := by
  unfold notifyBackup
  split_ifs with hex
  · obtain ⟨p, -, hp⟩ := hl.exists_getPrev hex
    obtain ⟨n, -, hn⟩ := hl.exists_getNext hex
    simp only [hp, hn, Option.bind_eq_bind, Option.bind_some]
    split_ifs
    · exact ⟨_, rfl, rfl, rfl, rfl, rfl, fun _ h => h⟩
    · exact ⟨_, rfl, rfl, rfl, rfl, rfl, fun _ h => h⟩
  · exact ⟨s, rfl, .refl s⟩

end Quiet

section Departure

/-- All that the end of a registered connection does. -/
structure Departure (s : MasterServer) (cfd : ℤ) (a : Str) (prev next : Str) (es₁ es₂ : List Str)
    (s' : MasterServer) : Prop where
  openFds : s'.openFds = s.openFds.erase cfd
  watched : s'.watched = s.watched.erase cfd
  workqueue : s'.workqueue = s.workqueue
  masterHash : s'.masterHash = s.masterHash
  listed : s'.connectList.Listed (es₁ ++ es₂)
  existed : ∀ b, s'.connectList.isExisted b = true ↔ b ≠ a ∧ s.connectList.isExisted b = true
  registed : ∀ b, s'.registedMap.find? b = if b = a then none
    else (s.registedMap.find? b).or (if b = prev ∨ b = next then some 0 else none)
  connected : ∀ f, s'.connectedMap.find? f = if f = cfd then none
    else (s.connectedMap.find? f).or (if s.listenMap.contains f = true then some [] else none)
  listening : ∀ f, s'.listenMap.find? f = if f = cfd then none
    else (s.listenMap.find? f).or
      (if f = (s.registedMap.find? next).getD 0 ∧ (s.registedMap.find? prev).getD 0 ≠ cfd then
        some [] else none)

private theorem notifyRecover_spec (s : MasterServer) (cfd prevFd nextFd : ℤ) : ∃ out listen,
    s.notifyRecover cfd prevFd nextFd = { s with outbox := out, listenMap := listen } ∧
    ∀ f, listen.find? f = (s.listenMap.find? f).or
      (if f = nextFd ∧ nextFd ≠ cfd ∧ prevFd ≠ cfd then some [] else none) := by
  unfold notifyRecover
  split_ifs with h
  · refine ⟨s.outbox, s.listenMap, rfl, fun f => ?_⟩
    rw [if_neg, Option.or_none]
    tauto
  · obtain ⟨hn, hp⟩ := not_or.mp h
    refine ⟨_, _, rfl, fun f => ?_⟩
    change (s.listenMap.tryInsert nextFd []).find? f = _
    rw [OrdMap.find?_tryInsert]
    simp only [hn, hp, ne_eq, not_false_eq_true, and_true]

theorem exists_departure (hl : s.connectList.Listed es) (hex : s.connectList.isExisted a = true)
    (cfd : ℤ) : ∃ prev next es₁ es₂ s', s.connectList.getPrev a = some prev ∧
      s.connectList.getNext a = some next ∧ es = es₁ ++ a :: es₂ ∧
      s.disconnected cfd a = some (0, s') ∧ Departure s cfd a prev next es₁ es₂ s' := by
  obtain ⟨prev, -, hp⟩ := hl.exists_getPrev hex
  obtain ⟨next, -, hn⟩ := hl.exists_getNext hex
  obtain ⟨es₁, es₂, l, hes, hdel, hl', hex'⟩ := hl.del hex
  -- the tables after both look-ups
  have hreg : ∀ b, ((s.registedMap.tryInsert prev 0).tryInsert next 0).find? b =
      (s.registedMap.find? b).or (if b = prev ∨ b = next then some 0 else none) := by
    intro b
    rw [OrdMap.find?_tryInsert, OrdMap.find?_tryInsert, Option.or_assoc]
    by_cases hb : b = prev
    · rw [if_pos hb, if_pos (Or.inl hb), Option.some_or]
    · simp only [hb, if_false, Option.none_or, false_or]
      split_ifs <;> rfl
  have hnext : ((s.registedMap.tryInsert prev 0).find? next).getD 0 =
      (s.registedMap.find? next).getD 0 := by
    rw [OrdMap.find?_tryInsert]
    cases s.registedMap.find? next with
    | some f => rfl
    | none => split_ifs <;> rfl
  let s₂ := departed { s with registedMap := (s.registedMap.tryInsert prev 0).tryInsert next 0 }
    a cfd l
  obtain ⟨out, conn, hupdate, hconn⟩ := updateHash_spec s₂
  obtain ⟨out', listen, hrecover, hlisten⟩ := notifyRecover_spec s₂.updateHash cfd
    ((s.registedMap.find? prev).getD 0) ((s.registedMap.find? next).getD 0)
  rw [hupdate] at hrecover hlisten
  refine ⟨prev, next, es₁, es₂, { s₂ with outbox := out', connectedMap := conn, listenMap := listen },
    hp, hn, hes, ?_, rfl, rfl, rfl, rfl, hl', hex', fun b => ?_, fun f => ?_, fun f => ?_⟩
  · unfold disconnected
    simp only [hp, hn, hdel, Option.bind_eq_bind, Option.bind_some, OrdMap.index, hnext]
    rw [← hrecover, ← hupdate]
  · change (((s.registedMap.tryInsert prev 0).tryInsert next 0).erase a).find? b = _
    rw [OrdMap.find?_erase, hreg]
    split_ifs <;> rfl
  · change conn.find? f = _
    rw [hconn]
    change ((s.connectedMap.erase cfd).find? f).or
      (if (s.listenMap.erase cfd).contains f = true then some [] else none) = _
    rw [OrdMap.find?_erase]
    by_cases hf : f = cfd
    · rw [if_pos hf, if_pos hf, Option.none_or, if_neg]
      simp [OrdMap.contains, hf]
    · have hkept : (s.listenMap.erase cfd).contains f = s.listenMap.contains f := by
        rw [OrdMap.contains, OrdMap.find?_erase, if_neg hf]
        rfl
      rw [hkept, if_neg hf, if_neg hf]
  · change listen.find? f = _
    rw [hlisten]
    change ((s.listenMap.erase cfd).find? f).or _ = _
    rw [OrdMap.find?_erase]
    by_cases hf : f = cfd
    · rw [if_pos hf, if_pos hf, if_neg, Option.or_none]
      rintro ⟨hnf, hne, -⟩
      exact hne (hnf.symm.trans hf)
    · rw [if_neg hf, if_neg hf]
      congr 1
      refine if_congr (and_congr_right fun hnf => and_iff_right ?_) rfl rfl
      exact fun hne => hf (hnf.trans hne)

end Departure

section Invariant

/-- What holds of the tables even where connections register twice. -/
structure Sound (s : MasterServer) : Prop where
  listed : ∃ es, s.connectList.Listed es
  opened : ∀ f ∈ s.openFds, s.connectedMap.contains f = true
  registers : ∀ r ∈ s.workqueue, r.requestType = .register
  owned : s.masterHash.Owned

theorem Sound.new : Sound .new := ⟨⟨[], .new⟩, nofun, nofun, .new⟩

theorem Sound.quiet (hs : Sound s) (h : Quiet s s') : Sound s' where
  listed := h.connectList ▸ hs.listed
  opened f hf := h.connected f (hs.opened f (h.openFds ▸ hf))
  registers := h.workqueue ▸ hs.registers
  owned := h.masterHash ▸ hs.owned

theorem Sound.register (cbHashfunc : Str → ℤ) (hs : Sound s) (sa : SockAddrIn) (cfd : ℤ) :
    ∃ r s', s.register cbHashfunc sa cfd = some (r, s') ∧ Sound s' := by
  obtain ⟨es, hl⟩ := hs.listed
  obtain ⟨l, hadd, hl', -⟩ := hl.add (s.connectedMap.index cfd []).1
  let s₁ := joined { s with connectedMap := (s.connectedMap.index cfd []).2 }
    (s.connectedMap.index cfd []).1 cfd (sockAddr2str sa) l
  have hs₁ : Sound s₁ := ⟨⟨_, hl'⟩, fun f hf =>
    (OrdMap.contains_tryInsert _ _).mpr (Or.inr (hs.opened f hf)), hs.registers, hs.owned⟩
  unfold MasterServer.register
  simp only [Option.bind_eq_bind]
  rw [hadd, Option.bind_some]
  split_ifs with hin
  · exact ⟨-1, s₁, rfl, hs₁⟩
  · obtain ⟨c, hc, hown, -⟩ := hs.owned.conhashAddCacheServer cbHashfunc (sockAddr2str sa)
    let s₂ : MasterServer := { s₁ with masterHash := c }
    have hq := (quiet_updateHash s₂).trans (quiet_foldl_send s.registedMap.values _ moveDataMsg)
    have hs₂ : Sound s₂ := ⟨hs₁.listed, hs₁.opened, hs₁.registers, hown⟩
    have hl₂ : s₂.connectList.Listed (es ++ [(s.connectedMap.index cfd []).1]) := hl'
    rw [← hq.connectList] at hl₂
    obtain ⟨s', hnotify, hq'⟩ := exists_notifyBackup hl₂ (s.connectedMap.index cfd []).1 cfd
    refine ⟨0, s', ?_, hs₂.quiet (hq.trans hq')⟩
    change (s.masterHash.conhashAddCacheServer cbHashfunc (sockAddr2str sa)).bind _ = _
    rw [hc, Option.bind_some, hnotify]
    rfl

theorem Sound.step (cbHashfunc : Str → ℤ) (hs : Sound s) (he : Deliverable s e) :
    ∃ r s', s.step cbHashfunc e = some (r, s') ∧ Sound s' := by
  cases e with
  | newConn cfd clientAddr =>
    refine ⟨_, _, rfl, hs.listed, fun f hf => ?_, hs.registers, hs.owned⟩
    apply (OrdMap.contains_tryInsert _ _).mpr
    exact (Finset.mem_insert.mp hf).imp_right (hs.opened f)
  | client clientUdpAddr bytes stale => exact he.elim
  | cacheServer cfd recv res =>
    obtain ⟨a, ha⟩ := s.connectedMap.contains_iff.mp (hs.opened cfd he)
    cases recv with
    | failed =>
      refine ⟨-1, s, ?_, hs⟩
      simp only [MasterServer.step, dealwithCacheServer, OrdMap.index_of_some _ _ ha]
    | closed =>
      simp only [MasterServer.step, dealwithCacheServer, OrdMap.index_of_some _ _ ha]
      split_ifs with hex
      · obtain ⟨es, hl⟩ := hs.listed
        obtain ⟨prev, next, es₁, es₂, s', -, -, -, hd, hs'⟩ := exists_departure hl hex cfd
        refine ⟨0, s', hd, ⟨_, hs'.listed⟩, fun f hf => ?_, ?_, ?_⟩
        · rw [hs'.openFds, Finset.mem_erase] at hf
          obtain ⟨v, hv⟩ := s.connectedMap.contains_iff.mp (hs.opened f hf.2)
          exact s'.connectedMap.contains_iff.mpr
            ⟨v, by rw [hs'.connected, if_neg hf.1, hv, Option.some_or]⟩
        · rw [hs'.workqueue]
          exact hs.registers
        · rw [hs'.masterHash]
          exact hs.owned
      · exact ⟨0, s, rfl, hs⟩
    | data buf =>
      by_cases hfull : s.workqueue.length ≥ maxRequests
      · refine ⟨-1, s, ?_, hs⟩
        simp [MasterServer.step, dealwithCacheServer, OrdMap.index_of_some _ _ ha, append, hfull]
      · let r : Request := ⟨.register, { str2sockAddr res a with sinPort := htons (atoi (cstr buf)) },
          [], cfd⟩
        refine ⟨0, { s with workqueue := s.workqueue ++ [r] }, ?_, hs.listed, hs.opened,
          fun r' hr' => ?_, hs.owned⟩
        · simp [MasterServer.step, dealwithCacheServer, OrdMap.index_of_some _ _ ha, append, hfull, r]
        · rcases List.mem_append.mp hr' with hr' | hr'
          · exact hs.registers r' hr'
          · rw [List.mem_singleton.mp hr']
  | work =>
    cases hw : s.workqueue with
    | nil => exact ⟨0, s, by simp [MasterServer.step, MasterServer.run, hw], hs⟩
    | cons r rest =>
      have hr := hs.registers r (hw ▸ List.mem_cons_self)
      have hs' : Sound { s with workqueue := rest } :=
        ⟨hs.listed, hs.opened, fun r' hr' => hs.registers r' (hw ▸ List.mem_cons_of_mem _ hr'),
          hs.owned⟩
      simp only [MasterServer.step, MasterServer.run, hw, hr]
      exact hs'.register cbHashfunc r.clientAddr r.cfd

end Invariant

section Cleanup

/-- The descriptor is closed and unwatched, it and its address leave all tables, and all other
entries stay. -/
structure Cleaned (s : MasterServer) (cfd : ℤ) (a : Str) (s' : MasterServer) : Prop where
  closed : s'.openFds = s.openFds.erase cfd
  unwatched : s'.watched = s.watched.erase cfd
  connected : ∀ f, s'.connectedMap.find? f = if f = cfd then none else s.connectedMap.find? f
  listening : ∀ f, s'.listenMap.find? f = if f = cfd then none else s.listenMap.find? f
  registed : ∀ b, s'.registedMap.find? b = if b = a then none else s.registedMap.find? b
  existed : ∀ b, s'.connectList.isExisted b = true ↔ b ≠ a ∧ s.connectList.isExisted b = true
  listed : ∃ es, s.connectList.Listed es ∧ s'.connectList.Listed (es.filter (fun b => b ≠ a))

/-- The descriptor that `registedMap[addr]` yields. -/
def registedFd (s : MasterServer) (addr : Str) : ℤ := (s.registedMap.find? addr).getD 0

/-- The connection is registered, once, and every look-up on the way out finds its entry. -/
structure Leaves (s : MasterServer) (cfd : ℤ) (a : Str) : Prop where
  existed : s.connectList.isExisted a = true
  once : ∃ es, s.connectList.Listed es ∧ es.count a = 1
  registed : ∀ b, s.connectList.getPrev a = some b ∨ s.connectList.getNext a = some b →
    b = a ∨ s.registedMap.contains b = true
  connected : ∀ f, s.listenMap.contains f = true → s.connectedMap.contains f = true
  listening : ∀ prev next, s.connectList.getPrev a = some prev →
    s.connectList.getNext a = some next → registedFd s prev ≠ cfd → registedFd s next ≠ cfd →
    s.listenMap.contains (registedFd s next) = true

private theorem or_some_eq_iff {V : Type} {o : Option V} {v : V} :
    o.or (some v) = o ↔ o.isSome = true := by
  cases o <;> simp

theorem Departure.cleaned_iff {prev next : Str} {es₁ es₂ : List Str}
    (hd : Departure s cfd a prev next es₁ es₂ s') (hl : s.connectList.Listed (es₁ ++ a :: es₂))
    (hex : s.connectList.isExisted a = true) (hp : s.connectList.getPrev a = some prev)
    (hn : s.connectList.getNext a = some next) (hc : s.connectedMap.contains cfd = true) :
    Cleaned s cfd a s' ↔ Leaves s cfd a := by
  constructor
  · intro h
    refine ⟨hex, ⟨_, hl, ?_⟩, fun b hb => ?_, fun f hf => ?_, fun prev' next' hp' hn' hpc hnc => ?_⟩
    · obtain ⟨es, hes, hes'⟩ := h.listed
      obtain rfl := hes.unique hl
      have hnot : a ∉ es₁ ++ es₂ := by
        rw [← hes'.unique hd.listed, List.mem_filter]
        simp
      rw [List.mem_append, not_or] at hnot
      rw [List.count_append, List.count_cons_self, List.count_eq_zero.mpr hnot.1,
        List.count_eq_zero.mpr hnot.2]
    · refine or_iff_not_imp_left.mpr fun hba => ?_
      have hreg := (hd.registed b).symm.trans (h.registed b)
      have hb' : b = prev ∨ b = next := by
        rw [hp, hn, Option.some.injEq, Option.some.injEq] at hb
        exact hb.imp Eq.symm Eq.symm
      rw [if_neg hba, if_neg hba, if_pos hb'] at hreg
      exact or_some_eq_iff.mp hreg
    · by_cases hfc : f = cfd
      · rw [hfc, hc]
      · have hcon := (hd.connected f).symm.trans (h.connected f)
        rw [if_neg hfc, if_neg hfc, if_pos hf] at hcon
        exact or_some_eq_iff.mp hcon
    · obtain rfl : prev' = prev := Option.some.inj (hp'.symm.trans hp)
      obtain rfl : next' = next := Option.some.inj (hn'.symm.trans hn)
      have hlis := (hd.listening (registedFd s next')).symm.trans (h.listening _)
      rw [if_neg hnc, if_neg hnc, if_pos ⟨rfl, hpc⟩] at hlis
      exact or_some_eq_iff.mp hlis
  · intro h
    refine ⟨hd.openFds, hd.watched, fun f => ?_, fun f => ?_, fun b => ?_, hd.existed,
      ⟨_, hl, ?_⟩⟩
    · rw [hd.connected]
      split_ifs with hfc hf
      · rfl
      · exact or_some_eq_iff.mpr (h.connected f hf)
      · rw [Option.or_none]
    · rw [hd.listening]
      split_ifs with hfc hf
      · rfl
      · obtain ⟨rfl, hpc⟩ := hf
        exact or_some_eq_iff.mpr (h.listening prev next hp hn hpc hfc)
      · rw [Option.or_none]
    · rw [hd.registed]
      split_ifs with hba hb
      · rfl
      · have hb' : s.connectList.getPrev a = some b ∨ s.connectList.getNext a = some b := by
          rw [hp, hn, Option.some.injEq, Option.some.injEq]
          exact hb.imp Eq.symm Eq.symm
        exact or_some_eq_iff.mpr ((h.registed b hb').resolve_left hba)
      · rw [Option.or_none]
    · obtain ⟨es, hes, hcount⟩ := h.once
      obtain rfl := hes.unique hl
      rw [List.count_append, List.count_cons_self] at hcount
      have h₁ : a ∉ es₁ := List.count_eq_zero.mp (by omega)
      have h₂ : a ∉ es₂ := List.count_eq_zero.mp (by omega)
      have hkeep : ∀ l : List Str, a ∉ l → l.filter (fun b => decide (b ≠ a)) = l := fun l hal => by
        refine List.filter_eq_self.mpr fun b hb => decide_eq_true ?_
        rintro rfl
        exact hal hb
      rw [List.filter_append, List.filter_cons_of_neg (by simp), hkeep _ h₁, hkeep _ h₂]
      exact hd.listed

/-- In every state that the master reaches, an end of stream cleans up after an open connection if
and only if the connection is registered, once, and its neighbours are registered servers. -/
theorem cleaned_after_close_iff (cbHashfunc : Str → ℤ) (evs : List Event)
    (h : Allowed (MasterServer.step cbHashfunc) Deliverable .new evs) :
    ∃ rs s, run (MasterServer.step cbHashfunc) .new evs = some (rs, s) ∧
      ∀ cfd ∈ s.openFds, ∃ a, s.connectedMap.find? cfd = some a ∧ ∀ res,
        ((∃ r s', s.dealwithCacheServer cfd .closed res = some (r, s') ∧ Cleaned s cfd a s') ↔
          Leaves s cfd a) := by
  obtain ⟨rs, s, hr, hs⟩ := run_invariant (I := Sound)
    (fun s e hs he => hs.step cbHashfunc he) Sound.new h
  refine ⟨rs, s, hr, fun cfd hcfd => ?_⟩
  have hc := hs.opened cfd hcfd
  obtain ⟨a, ha⟩ := s.connectedMap.contains_iff.mp hc
  refine ⟨a, ha, fun res => ?_⟩
  simp only [dealwithCacheServer, OrdMap.index_of_some _ _ ha]
  by_cases hex : s.connectList.isExisted a = true
  · obtain ⟨es, hl⟩ := hs.listed
    obtain ⟨prev, next, es₁, es₂, s', hp, hn, rfl, hd, hdep⟩ := exists_departure hl hex cfd
    rw [if_pos hex, ← hdep.cleaned_iff hl hex hp hn hc]
    constructor
    · rintro ⟨r, s'', hd', hclean⟩
      obtain ⟨-, rfl⟩ := Prod.mk.inj (Option.some.inj (hd'.symm.trans hd))
      exact hclean
    · exact fun hclean => ⟨0, s', hd, hclean⟩
  · rw [if_neg hex]
    refine iff_of_false ?_ fun hleaves => hex hleaves.existed
    rintro ⟨r, s', hs', hclean⟩
    obtain ⟨-, rfl⟩ := Prod.mk.inj (Option.some.inj hs')
    have hmem := hcfd
    rw [hclean.closed] at hmem
    exact Finset.notMem_erase cfd _ hmem

/-- A server that is alone, and a connection that has not registered. -/
theorem cleaned_after_close_iff_two :
    let evs : List Event := [.newConn 5 ⟨afInet, htons 40000, ⟨10, 0, 0, 1⟩⟩,
      .cacheServer 5 (.data (lit "6000")) ⟨0, 0, .any⟩, .work,
      .newConn 6 ⟨afInet, htons 40001, ⟨10, 0, 0, 1⟩⟩]
    ∃ rs s, run (MasterServer.step fun _ => 0) .new evs = some (rs, s) ∧
      ∃ a, s.connectedMap.find? 5 = some a ∧ ∀ res,
        ((∃ r s', s.dealwithCacheServer 5 .closed res = some (r, s') ∧ Cleaned s 5 a s') ↔
          Leaves s 5 a) := by
  intro evs
  have h : Allowed (MasterServer.step fun _ => 0) Deliverable .new evs :=
    ⟨by change (5 : ℤ) ∉ _; decide, by change (5 : ℤ) ∈ _; decide, trivial,
      by change (6 : ℤ) ∉ _; decide, trivial⟩
  obtain ⟨rs, s, hr, hs⟩ := cleaned_after_close_iff (fun _ => 0) evs h
  refine ⟨rs, s, hr, hs 5 ?_⟩
  obtain ⟨-, rfl⟩ := Prod.mk.inj (Option.some.inj hr)
  decide

/-- A connection that ends before it has registered stays open. -/
theorem not_cleaned_unregistered : ∃ rs s, run (MasterServer.step fun _ => 0) .new
    [.newConn 5 ⟨afInet, htons 40000, ⟨10, 0, 0, 1⟩⟩] = some (rs, s) ∧ 5 ∈ s.openFds ∧
      ∀ a res, ¬ ∃ r s', s.dealwithCacheServer 5 .closed res = some (r, s') ∧ Cleaned s 5 a s' := by
  refine ⟨_, _, rfl, by decide, ?_⟩
  rintro a res ⟨r, s', hs', hclean⟩
  obtain ⟨-, rfl⟩ := Prod.mk.inj (Option.some.inj hs')
  have hclosed := hclean.closed
  revert hclosed
  decide

/-- Where no connection registers twice, these are the connections that have a listening address. -/
theorem Registry.leaves_iff (hs : Registry s es) (ha : s.connectedMap.find? cfd = some a) :
    Leaves s cfd a ↔ s.listenMap.contains cfd = true := by
  constructor
  · intro h
    obtain ⟨f, addr, -, hf, hl⟩ := hs.entry (hs.list.isExisted.mp h.existed)
    obtain rfl := hs.peers f cfd a hf ha
    exact s.listenMap.contains_iff.mpr ⟨addr, hl⟩
  · intro hl
    have hreg : s.registedMap.find? a = some cfd := (hs.registed a cfd).mpr ⟨hl, ha⟩
    have hmem : a ∈ es := (hs.members a).mpr (s.registedMap.contains_iff.mpr ⟨cfd, hreg⟩)
    refine ⟨hs.list.isExisted.mpr hmem, ⟨es, hs.list.listed, ?_⟩, fun b hb => Or.inr ?_,
      hs.listening, fun prev next _ hn _ _ => ?_⟩
    · exact List.count_eq_one_of_mem hs.list.nodup hmem
    · rw [hs.list.getPrev hmem, hs.list.getNext hmem, Option.some.injEq, Option.some.injEq] at hb
      rcases hb with rfl | rfl
      · exact (hs.members _).mp (List.prev_mem _ _ hmem)
      · exact (hs.members _).mp (List.next_mem _ _ hmem)
    · rw [hs.list.getNext hmem, Option.some.injEq] at hn
      obtain ⟨g, addr, hg, -, hga⟩ := hs.entry (hn ▸ List.next_mem _ _ hmem)
      rw [registedFd, hg, Option.getD_some]
      exact s.listenMap.contains_iff.mpr ⟨addr, hga⟩

end Cleanup
end DCache.Master
