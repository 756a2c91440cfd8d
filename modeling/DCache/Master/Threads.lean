import Mathlib.Logic.Relation
import DCache.Lib.Threads
import DCache.Master.Server

/-! The handlers of the master that run on threads of their own, cut into the steps between which
other threads can run: the sections of the mutexes, the calls of `send` and the other accesses to
the tables. A thread that runs alone does what the handler does. -/
namespace DCache.MasterThreads
open DCache.Lib DCache.Master

/-- What is sent besides `UPDATE_HASH`. -/
inductive Command
  | moveData
  | recoverBackup
  | updateBackup (addr : Str) (nul : Bool)

def Command.text : Command → Str
  | .moveData => moveDataMsg
  | .recoverBackup => recoverBackupMsg
  | .updateBackup addr nul => updateBackupText addr ++ if nul then [0] else []

/-- `join` and `leave` are the sections of `m_conn_lock`, `addHash` and `owner` those of
`hash_mutex`. -/
inductive Op
  | connectedAddr (cfd : ℤ)
  | registed
  | join (newAddr : Str) (cfd : ℤ) (cacheServer : SockAddrIn)
  | addHash (addr : Str)
  | updateHash
  | isExisted (addr : Str)
  | getPrev (addr : Str)
  | getNext (addr : Str)
  | registedFd (addr : Str)
  | listenAddr (fd : ℤ)
  | close (cfd : ℤ)
  | leave (addr : Str) (cfd : ℤ)
  | send (fd : ℤ) (command : Command)
  | append (request : Request)
  | owner (key : Str)
  | reply (clientAddr : SockAddrIn) (msg : Str)

def Op.Res : Op → Type
  | .join _ _ _ | .isExisted _ | .append _ => Bool
  | .registed => List ℤ
  | .registedFd _ => ℤ
  | .connectedAddr _ | .getPrev _ | .getNext _ | .listenAddr _ | .owner _ => Str
  | _ => Unit

abbrev Prog := Code Op.Res

/-- The tables without the server. -/
def left (s : MasterServer) (addr : Str) (cfd : ℤ) (connectList : ServerList Str) : MasterServer :=
  { s with
    connectedMap := s.connectedMap.erase cfd
    registedMap := s.registedMap.erase addr
    listenMap := s.listenMap.erase cfd
    connectList := connectList }

def perform (cbHashfunc : Str → ℤ) : (op : Op) → MasterServer → Outcome op.Res MasterServer
  | .connectedAddr cfd, s =>
    .ok (s.connectedMap.index cfd []).1
      { s with connectedMap := (s.connectedMap.index cfd []).2 }
  | .registed, s => .ok s.registedMap.values s
  | .join newAddr cfd cacheServer, s =>
    .ofOption ((s.connectList.add newAddr).map fun connectList =>
      (!s.registedMap.contains newAddr,
        s.joined newAddr cfd (sockAddr2str cacheServer) connectList))
  | .addHash addr, s =>
    .ofOption ((s.masterHash.conhashAddCacheServer cbHashfunc addr).map fun masterHash =>
      ((), { s with masterHash := masterHash }))
  | .updateHash, s => .ok () s
  | .isExisted addr, s => .ok (s.connectList.isExisted addr) s
  | .getPrev addr, s => .ofOption ((s.connectList.getPrev addr).map fun a => (a, s))
  | .getNext addr, s => .ofOption ((s.connectList.getNext addr).map fun a => (a, s))
  | .registedFd addr, s =>
    .ok (s.registedMap.index addr 0).1 { s with registedMap := (s.registedMap.index addr 0).2 }
  | .listenAddr fd, s =>
    .ok (s.listenMap.index fd []).1 { s with listenMap := (s.listenMap.index fd []).2 }
  | .close cfd, s => .ok () { s with openFds := s.openFds.erase cfd, watched := s.watched.erase cfd }
  | .leave addr cfd, s =>
    .ofOption ((s.connectList.del addr).map fun connectList => ((), left s addr cfd connectList))
  | .send fd command, s => .ok () (s.send fd command.text)
  | .append request, s => .ok (s.append request).1 (s.append request).2
  | .owner key, s =>
    .ofOption ((s.masterHash.conhashGetCacheServer cbHashfunc key).map fun a => (a, s))
  | .reply clientAddr msg, s => .ok () { s with replies := s.replies ++ [(clientAddr, cstr msg)] }

section Handlers

def moveNotices (more : Prog) : List ℤ → Prog
  | [] => more
  | fd :: fds => .call (.send fd .moveData) fun _ => moveNotices more fds

def notifyBackup (newAddr : Str) (cfd : ℤ) : Prog :=
  .call (.isExisted newAddr) fun (existed : Bool) =>
    if existed then .call (.getPrev newAddr) fun (prevServerAddr : Str) =>
      .call (.getNext newAddr) fun (nextServerAddr : Str) =>
      .call (.registedFd prevServerAddr) fun (prevFd : ℤ) =>
      .call (.registedFd nextServerAddr) fun (nextFd : ℤ) =>
        if nextFd ≠ cfd ∨ prevFd ≠ cfd then .call (.listenAddr cfd) fun (addr : Str) =>
          .call (.send prevFd (.updateBackup addr true)) fun _ =>
          .call (.listenAddr nextFd) fun (addr : Str) =>
          .call (.send cfd (.updateBackup addr true)) fun _ => .done
        else .done
    else .done

/-- `Register` -/
def register (cacheServer : SockAddrIn) (cfd : ℤ) : Prog :=
  .call (.connectedAddr cfd) fun (newAddr : Str) =>
    .call .registed fun (notity : List ℤ) =>
    .call (.join newAddr cfd cacheServer) fun (inserted : Bool) =>
      if inserted then .call (.addHash (sockAddr2str cacheServer)) fun _ =>
        .call .updateHash fun _ => moveNotices (notifyBackup newAddr cfd) notity
      else .done

def getDistribute (clientAddr : SockAddrIn) (key : Str) : Prog :=
  .call (.owner key) fun (ipPort : Str) =>
    .call (.isExisted ipPort) fun (existed : Bool) =>
      if existed then .call (.getNext ipPort) fun (backup : Str) =>
        .call (.reply clientAddr (ipPort ++ [newline] ++ backup)) fun _ => .done
      else .call (.reply clientAddr ipPort) fun _ => .done

/-- What a worker does with a request that it has taken from the queue. -/
def handle (request : Request) : Prog :=
  match request.requestType with
  | .getDistribute => getDistribute request.clientAddr request.key
  | .register => register request.clientAddr request.cfd

def notifyRecover (cfd prevFd nextFd : ℤ) : Prog :=
  if nextFd = cfd ∨ prevFd = cfd then .done
  else .call (.send nextFd .recoverBackup) fun _ => .call (.listenAddr nextFd) fun (addr : Str) =>
    .call (.send prevFd (.updateBackup addr false)) fun _ => .done

def disconnected (cfd : ℤ) (strClientAddr : Str) : Prog :=
  .call (.getPrev strClientAddr) fun (prevServerAddr : Str) =>
    .call (.getNext strClientAddr) fun (nextServerAddr : Str) =>
    .call (.registedFd prevServerAddr) fun (prevFd : ℤ) =>
    .call (.registedFd nextServerAddr) fun (nextFd : ℤ) =>
    .call (.close cfd) fun _ => .call (.leave strClientAddr cfd) fun _ =>
      .call .updateHash fun _ => notifyRecover cfd prevFd nextFd

def dealwithCacheServer (cfd : ℤ) (recv : Recv) (res : SockAddrIn) : Prog :=
  .call (.connectedAddr cfd) fun (strClientAddr : Str) =>
    match recv with
    | .failed => .done
    | .closed => .call (.isExisted strClientAddr) fun (existed : Bool) =>
        if existed then disconnected cfd strClientAddr else .done
    | .data buf => .call (.append ⟨.register, { str2sockAddr res strClientAddr with
        sinPort := htons (atoi (cstr buf)) }, [], cfd⟩) fun _ => .done

end Handlers

section Update

/-- Where a thread is in `UpdateHash`: it builds the list in the section of `m_conn_lock`; then it
goes through `listenMap` as it is at that moment, from the key behind `after` on, sends the list and
logs that. -/
inductive Update
  | build
  | advance (addrs : List Str) (after : Option ℤ)
  | deliver (addrs : List Str) (fd : ℤ)
  | note (addrs : List Str) (fd : ℤ)

/-- An iterator whose entry was erased faults. One whose entry was erased and put in again under the
same key goes on here, though it is invalid in the source as well: what is shown of all runs of the
model covers the runs of the source. -/
def Update.step : Update → MasterServer → Outcome (Option Update) MasterServer
  | .build, s => .ok (some (.advance s.listenMap.values none)) s
  | .advance addrs after, s =>
    if after.all s.listenMap.contains then
      .ok ((s.listenMap.above? after).map fun e => .deliver addrs e.1) s
    else .fault
  | .deliver addrs fd, s =>
    .ok (some (.note addrs fd)) (s.send fd (updateHashText addrs ++ [0]))
  | .note addrs fd, s =>
    .ok (some (.advance addrs (some fd)))
      { s with connectedMap := (s.connectedMap.index fd []).2 }

/-- A thread that is in `UpdateHash` goes on with its code afterwards. -/
structure Thread where
  update : Option Update
  code : Prog

def called : Op → Option Update
  | .updateHash => some .build
  | _ => none

def Thread.step (cbHashfunc : Str → ℤ) (t : Thread) (s : MasterServer) :
    Outcome Thread MasterServer :=
  match t.update, t.code with
  | some u, c => (u.step s).map fun u => ⟨u, c⟩
  | none, .done => .blocked
  | none, .call op next => (perform cbHashfunc op s).map fun r => ⟨called op, next r⟩

/-- All that a thread can do. -/
theorem Thread.step_cases {cbHashfunc : Str → ℤ} {t t' : Thread} {s s' : MasterServer}
    (h : t.step cbHashfunc s = .ok t' s') :
    (∃ u u', t.update = some u ∧ u.step s = .ok u' s' ∧ t' = ⟨u', t.code⟩) ∨
    ∃ op next r, t.update = none ∧ t.code = .call op next ∧ perform cbHashfunc op s = .ok r s' ∧
      t' = ⟨called op, next r⟩ := by
  obtain ⟨update, code⟩ := t
  cases update with
  | some u =>
    obtain ⟨u', hu, rfl⟩ := Outcome.of_map h
    exact Or.inl ⟨u, u', rfl, hu, rfl⟩
  | none =>
    cases code with
    | done => cases h
    | call op next =>
      obtain ⟨r, hr, rfl⟩ := Outcome.of_map h
      exact Or.inr ⟨op, next, r, rfl, rfl, hr, rfl⟩

end Update

section Alone
variable {cbHashfunc : Str → ℤ} {s s' s₁ : MasterServer} {c : Prog} {y : Thread × MasterServer}

/-- A thread that runs alone comes from one point to the other. -/
def Goes (cbHashfunc : Str → ℤ) : Thread × MasterServer → Thread × MasterServer → Prop :=
  Relation.ReflTransGen fun x y => x.1.step cbHashfunc x.2 = .ok y.1 y.2

theorem Goes.call (op : Op) (r : op.Res) {next : op.Res → Prog}
    (hop : perform cbHashfunc op s = .ok r s₁)
    (h : Goes cbHashfunc (⟨called op, next r⟩, s₁) y) :
    Goes cbHashfunc (⟨none, .call op next⟩, s) y := by
  refine Relation.ReflTransGen.head ?_ h
  simp only [Thread.step, hop, Outcome.map]

theorem Goes.update {u : Update} {u' : Option Update} (hu : u.step s = .ok u' s₁)
    (h : Goes cbHashfunc (⟨u', c⟩, s₁) y) : Goes cbHashfunc (⟨some u, c⟩, s) y := by
  refine Relation.ReflTransGen.head ?_ h
  simp only [Thread.step, hu, Outcome.map]

theorem step_advance {addrs : List Str} {l₁ l₂ : List (ℤ × Str)} {after : Option ℤ}
    (hl : s.listenMap.entries = l₁ ++ l₂)
    (hafter : after = none ∧ l₁ = [] ∨ ∃ l e, l₁ = l ++ [e] ∧ after = some e.1) :
    (Update.advance addrs after).step s = .ok (l₂.head?.map fun e => .deliver addrs e.1) s := by
  rcases hafter with ⟨rfl, rfl⟩ | ⟨l, e, rfl, rfl⟩
  · rw [List.nil_append] at hl
    simp only [Update.step, Option.all_none, if_true, OrdMap.above?_none, hl]
  · rw [List.append_assoc, List.singleton_append] at hl
    have hmem : (e.1, e.2) ∈ s.listenMap.entries := by
      rw [hl]
      exact List.mem_append_right _ List.mem_cons_self
    have hcontains : s.listenMap.contains e.1 = true :=
      s.listenMap.contains_iff.mpr ⟨e.2, s.listenMap.mem_entries.mp hmem⟩
    simp only [Update.step, Option.all_some, hcontains, if_true, OrdMap.above?_of_entries hl]

/-- The turns of the loop that are left. -/
theorem goes_advance {addrs : List Str} {l₁ l₂ : List (ℤ × Str)} {after : Option ℤ}
    (hl : s.listenMap.entries = l₁ ++ l₂)
    (hafter : after = none ∧ l₁ = [] ∨ ∃ l e, l₁ = l ++ [e] ∧ after = some e.1) :
    Goes cbHashfunc (⟨some (.advance addrs after), c⟩, s) (⟨none, c⟩,
      (l₂.map Prod.fst).foldl (MasterServer.updateHashTo (updateHashText addrs)) s) := by
  have hstep : (Update.advance addrs after).step s =
      .ok (l₂.head?.map fun e => .deliver addrs e.1) s := step_advance hl hafter
  induction l₂ generalizing l₁ after s with
  | nil => exact Goes.update hstep Relation.ReflTransGen.refl
  | cons e l₂ ih =>
    have hl' : (MasterServer.updateHashTo (updateHashText addrs) s e.1).listenMap.entries =
        (l₁ ++ [e]) ++ l₂ := by
      rw [List.append_assoc]
      exact hl
    have hrest : some e.1 = none ∧ l₁ ++ [e] = [] ∨
        ∃ l e', l₁ ++ [e] = l ++ [e'] ∧ some e.1 = some e'.1 := Or.inr ⟨l₁, e, rfl, rfl⟩
    exact Goes.update hstep (Goes.update rfl (Goes.update rfl
      (ih hl' hrest (step_advance hl' hrest))))

/-- `UpdateHash` -/
theorem goes_updateHash : Goes cbHashfunc (⟨some .build, c⟩, s) (⟨none, c⟩, s.updateHash) := by
  have hall : s.listenMap.entries = [] ++ s.listenMap.entries := rfl
  exact Goes.update rfl (goes_advance hall (Or.inl ⟨rfl, rfl⟩))

theorem goes_moveNotices {more : Prog} (fds : List ℤ)
    (h : Goes cbHashfunc (⟨none, more⟩, fds.foldl (fun s fd => s.send fd moveDataMsg) s) y) :
    Goes cbHashfunc (⟨none, moveNotices more fds⟩, s) y := by
  induction fds generalizing s with
  | nil => exact h
  | cons fd fds ih => exact Goes.call (.send fd .moveData) () rfl (ih h)

theorem perform_getPrev {a b : Str} (h : s.connectList.getPrev a = some b) :
    perform cbHashfunc (.getPrev a) s = .ok b s := by
  change Outcome.ofOption ((s.connectList.getPrev a).map fun b => (b, s)) = _
  rw [h]
  rfl

theorem perform_getNext {a b : Str} (h : s.connectList.getNext a = some b) :
    perform cbHashfunc (.getNext a) s = .ok b s := by
  change Outcome.ofOption ((s.connectList.getNext a).map fun b => (b, s)) = _
  rw [h]
  rfl

theorem goes_notifyBackup {newAddr : Str} {cfd : ℤ} (h : s.notifyBackup newAddr cfd = some s') :
    Goes cbHashfunc (⟨none, notifyBackup newAddr cfd⟩, s) (⟨none, .done⟩, s') := by
  unfold MasterServer.notifyBackup at h
  apply Goes.call (.isExisted newAddr) _ rfl
  change Goes cbHashfunc (⟨none, if s.connectList.isExisted newAddr = true then _ else _⟩, s) _
  split_ifs at h ⊢ with hex
  · obtain ⟨prevServerAddr, hprev, h⟩ := Option.bind_eq_some_iff.mp h
    obtain ⟨nextServerAddr, hnext, h⟩ := Option.bind_eq_some_iff.mp h
    apply Goes.call (.getPrev newAddr) _ (perform_getPrev hprev)
    apply Goes.call (.getNext newAddr) _ (perform_getNext hnext)
    apply Goes.call (.registedFd prevServerAddr) _ rfl
    apply Goes.call (.registedFd nextServerAddr) _ rfl
    change Goes cbHashfunc (⟨none, if ((s.registedMap.index prevServerAddr 0).2.index nextServerAddr
      0).1 ≠ cfd ∨ (s.registedMap.index prevServerAddr 0).1 ≠ cfd then _ else _⟩, _) _
    dsimp only at h
    split_ifs at h ⊢ with hne
    · obtain rfl := Option.some.inj h
      refine Goes.call (.listenAddr cfd) _ rfl (Goes.call (.send _ _) () rfl ?_)
      refine Goes.call (.listenAddr _) _ rfl (Goes.call (.send _ _) () rfl ?_)
      exact Relation.ReflTransGen.refl
    · obtain rfl := Option.some.inj h
      exact Relation.ReflTransGen.refl
  · obtain rfl := Option.some.inj h
    exact Relation.ReflTransGen.refl

/-- `Register` -/
theorem goes_register {cacheServer : SockAddrIn} {cfd ret : ℤ}
    (h : s.register cbHashfunc cacheServer cfd = some (ret, s')) :
    Goes cbHashfunc (⟨none, register cacheServer cfd⟩, s) (⟨none, .done⟩, s') := by
  obtain ⟨connectList, hadd, h⟩ := Option.bind_eq_some_iff.mp h
  change s.connectList.add (s.connectedMap.index cfd []).1 = some connectList at hadd
  let s₁ := { s with connectedMap := (s.connectedMap.index cfd []).2 }
  let s₂ := s₁.joined (s.connectedMap.index cfd []).1 cfd (sockAddr2str cacheServer) connectList
  change (if s.registedMap.contains (s.connectedMap.index cfd []).1 = true then some (-1, s₂)
    else (s₂.masterHash.conhashAddCacheServer cbHashfunc (sockAddr2str cacheServer)).bind _) =
      some (ret, s') at h
  have hjoin : perform cbHashfunc (.join (s.connectedMap.index cfd []).1 cfd cacheServer) s₁ =
      .ok (!s.registedMap.contains (s.connectedMap.index cfd []).1) s₂ := by
    change Outcome.ofOption ((s.connectList.add _).map _) = _
    rw [hadd]
    rfl
  refine Goes.call (.connectedAddr cfd) _ rfl (Goes.call .registed _ rfl (Goes.call _ _ hjoin ?_))
  split_ifs at h with hc
  · obtain ⟨-, rfl⟩ := Prod.mk.inj (Option.some.inj h)
    rw [hc]
    exact Relation.ReflTransGen.refl
  · obtain ⟨masterHash, hhash, h⟩ := Option.bind_eq_some_iff.mp h
    obtain ⟨s₃, hbackup, h⟩ := Option.bind_eq_some_iff.mp h
    obtain ⟨-, rfl⟩ := Prod.mk.inj (Option.some.inj h)
    have hadded : perform cbHashfunc (.addHash (sockAddr2str cacheServer)) s₂ =
        .ok () { s₂ with masterHash := masterHash } := by
      change Outcome.ofOption ((s₂.masterHash.conhashAddCacheServer _ _).map _) = _
      rw [hhash]
      rfl
    rw [Bool.eq_false_iff.mpr hc]
    refine Goes.call (.addHash _) () hadded (Goes.call .updateHash () rfl (goes_updateHash.trans ?_))
    exact goes_moveNotices _ (goes_notifyBackup hbackup)

theorem goes_getDistribute {clientAddr : SockAddrIn} {key : Str} {ret : ℤ}
    (h : s.getDistribute cbHashfunc clientAddr key = some (ret, s')) :
    Goes cbHashfunc (⟨none, getDistribute clientAddr key⟩, s) (⟨none, .done⟩, s') := by
  obtain ⟨ipPort, howner, h⟩ := Option.bind_eq_some_iff.mp h
  have hfound : perform cbHashfunc (.owner key) s = .ok ipPort s := by
    change Outcome.ofOption ((s.masterHash.conhashGetCacheServer _ key).map _) = _
    rw [howner]
    rfl
  refine Goes.call (.owner key) ipPort hfound (Goes.call (.isExisted ipPort) _ rfl ?_)
  change Goes cbHashfunc (⟨none, if s.connectList.isExisted ipPort = true then _ else _⟩, s) _
  dsimp only at h
  split_ifs at h ⊢ with hex
  · obtain ⟨backup, hnext, h⟩ := Option.bind_eq_some_iff.mp h
    obtain ⟨-, rfl⟩ := Prod.mk.inj (Option.some.inj h)
    exact Goes.call (.getNext ipPort) backup (perform_getNext hnext)
      (Goes.call (.reply _ _) () rfl Relation.ReflTransGen.refl)
  · obtain ⟨-, rfl⟩ := Prod.mk.inj (Option.some.inj h)
    exact Goes.call (.reply _ _) () rfl Relation.ReflTransGen.refl

/-- One turn of a worker's loop. -/
theorem goes_handle {request : Request} {rest : List Request} {ret : ℤ}
    (hq : s.workqueue = request :: rest) (h : s.run cbHashfunc = some (ret, s')) :
    Goes cbHashfunc (⟨none, handle request⟩, { s with workqueue := rest }) (⟨none, .done⟩, s') := by
  unfold MasterServer.run at h
  simp only [hq] at h
  unfold handle
  cases hr : request.requestType with
  | getDistribute =>
    rw [hr] at h
    exact goes_getDistribute h
  | register =>
    rw [hr] at h
    exact goes_register h

theorem goes_notifyRecover {cfd prevFd nextFd : ℤ} :
    Goes cbHashfunc (⟨none, notifyRecover cfd prevFd nextFd⟩, s)
      (⟨none, .done⟩, s.notifyRecover cfd prevFd nextFd) := by
  unfold notifyRecover MasterServer.notifyRecover
  split_ifs with hself
  · exact Relation.ReflTransGen.refl
  · apply Goes.call (.send nextFd .recoverBackup) () rfl
    refine Goes.call (.listenAddr nextFd) _ rfl (Goes.call (.send _ _) () rfl ?_)
    have hmsg : ∀ addr, (Command.updateBackup addr false).text = updateBackupText addr := fun addr =>
      List.append_nil _
    rw [hmsg]
    exact Relation.ReflTransGen.refl

/-- What the event loop does with a cache server. -/
theorem goes_dealwithCacheServer {cfd ret : ℤ} {recv : Recv} {res : SockAddrIn}
    (h : s.dealwithCacheServer cfd recv res = some (ret, s')) :
    Goes cbHashfunc (⟨none, dealwithCacheServer cfd recv res⟩, s) (⟨none, .done⟩, s') := by
  apply Goes.call (.connectedAddr cfd) _ rfl
  cases recv with
  | failed =>
    obtain ⟨-, rfl⟩ := Prod.mk.inj (Option.some.inj h)
    exact Relation.ReflTransGen.refl
  | data buf =>
    obtain ⟨-, rfl⟩ := Prod.mk.inj (Option.some.inj h)
    exact Goes.call (.append _) _ rfl Relation.ReflTransGen.refl
  | closed =>
    let a := (s.connectedMap.index cfd []).1
    let s₁ := { s with connectedMap := (s.connectedMap.index cfd []).2 }
    change (if s.connectList.isExisted a = true then s₁.disconnected cfd a else some (0, s₁)) =
      some (ret, s') at h
    apply Goes.call (.isExisted a) _ rfl
    change Goes cbHashfunc (⟨none, if s.connectList.isExisted a = true then _ else _⟩, _) _
    split_ifs at h ⊢ with hex
    · obtain ⟨prevServerAddr, hprev, h⟩ := Option.bind_eq_some_iff.mp h
      obtain ⟨nextServerAddr, hnext, h⟩ := Option.bind_eq_some_iff.mp h
      obtain ⟨connectList, hdel, h⟩ := Option.bind_eq_some_iff.mp h
      obtain ⟨-, rfl⟩ := Prod.mk.inj (Option.some.inj h)
      apply Goes.call (.getPrev a) _ (perform_getPrev hprev)
      apply Goes.call (.getNext a) _ (perform_getNext hnext)
      apply Goes.call (.registedFd prevServerAddr) _ rfl
      apply Goes.call (.registedFd nextServerAddr) _ rfl
      apply Goes.call (.close cfd) () rfl
      refine Goes.call (.leave a cfd) () ?_ (Goes.call .updateHash () rfl
        (goes_updateHash.trans goes_notifyRecover))
      change Outcome.ofOption ((s.connectList.del a).map _) = _
      rw [hdel]
      rfl
    · obtain ⟨-, rfl⟩ := Prod.mk.inj (Option.some.inj h)
      exact Relation.ReflTransGen.refl

end Alone
end DCache.MasterThreads
