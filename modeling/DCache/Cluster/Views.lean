import DCache.Cluster.Messages
import DCache.Master.Schedule

/-! The address lists that the cache servers are told while registrations and disconnections run on
several threads. Every server has been sent the current list or some thread still has to send it,
unless a list that is no longer current is sent after it. -/
namespace DCache.MasterThreads
open DCache.Lib DCache.Master
open Cluster (hashList lastHash)

section Codes

/-- The thread calls `UpdateHash` before it does anything that others can see in `listenMap`. -/
def Announces (c : Prog) : Prop :=
  (∃ next, c = .call .updateHash next) ∨
    ∃ addr next, c = .call (.addHash addr) fun _ => .call .updateHash next

def Allows : (op : Op) → (op.Res → Prog) → Prop
  | .join _ _ _, next => Announces (next true)
  | .leave _ _, next => Announces (next ())
  | _, _ => True

/-- Who changes `listenMap` calls `UpdateHash` next. -/
def announcing : Code.Protocol Unit Op.Res where
  allows _ := Allows
  after _ _ _ _ := True
  ends _ := True

abbrev Follows (c : Prog) : Prop := c.Obeys announcing ()

theorem follows_call {op : Op} {next : op.Res → Prog} (hop : Allows op next)
    (h : ∀ r, Follows (next r)) : Follows (.call op next) := ⟨hop, fun r _ _ => h r⟩

theorem follows_moveNotices {more : Prog} (h : Follows more) (fds : List ℤ) :
    Follows (moveNotices more fds) := by
  induction fds with
  | nil => exact h
  | cons fd fds ih => exact follows_call trivial fun _ => ih

theorem follows_notifyBackup (newAddr : Str) (cfd : ℤ) : Follows (notifyBackup newAddr cfd) := by
  refine follows_call trivial fun (existed : Bool) => ?_
  split_ifs
  · refine follows_call trivial fun _ => follows_call trivial fun _ => ?_
    refine follows_call trivial fun (prevFd : ℤ) => follows_call trivial fun (nextFd : ℤ) => ?_
    split_ifs
    · exact follows_call trivial fun _ => follows_call trivial fun _ =>
        follows_call trivial fun _ => follows_call trivial fun _ => trivial
    · exact trivial
  · exact trivial

theorem follows_register (cacheServer : SockAddrIn) (cfd : ℤ) :
    Follows (register cacheServer cfd) := by
  refine follows_call trivial fun (newAddr : Str) => follows_call trivial fun (notity : List ℤ) => ?_
  refine follows_call (Or.inr ⟨_, _, rfl⟩) fun (inserted : Bool) => ?_
  split_ifs
  · exact follows_call trivial fun _ => follows_call trivial fun _ =>
      follows_moveNotices (follows_notifyBackup newAddr cfd) notity
  · exact trivial

theorem follows_handle (request : Request) : Follows (handle request) := by
  unfold handle
  cases request.requestType with
  | register => exact follows_register _ _
  | getDistribute =>
    refine follows_call trivial fun _ => follows_call trivial fun (existed : Bool) => ?_
    split_ifs
    · exact follows_call trivial fun _ => follows_call trivial fun _ => trivial
    · exact follows_call trivial fun _ => trivial

theorem follows_dealwithCacheServer (cfd : ℤ) (recv : Recv) (res : SockAddrIn) :
    Follows (dealwithCacheServer cfd recv res) := by
  refine follows_call trivial fun (strClientAddr : Str) => ?_
  cases recv with
  | failed => exact trivial
  | data buf => exact follows_call trivial fun _ => trivial
  | closed =>
    refine follows_call trivial fun (existed : Bool) => ?_
    split_ifs
    · refine follows_call trivial fun _ => follows_call trivial fun _ => ?_
      refine follows_call trivial fun (prevFd : ℤ) => follows_call trivial fun (nextFd : ℤ) => ?_
      refine follows_call trivial fun _ => follows_call (Or.inl ⟨_, rfl⟩) fun _ => ?_
      refine follows_call trivial fun _ => ?_
      unfold notifyRecover
      split_ifs
      · exact trivial
      · exact follows_call trivial fun _ => follows_call trivial fun _ =>
          follows_call trivial fun _ => trivial
    · exact trivial

end Codes

section Memory
variable {cbHashfunc : Str → ℤ} {s s' : MasterServer} {op : Op} {r : op.Res}

/-- What an operation does to `listenMap` and to `registedMap`. -/
theorem tables_of_perform (h : perform cbHashfunc op s = .ok r s') :
    (∃ newAddr cfd cacheServer, op = .join newAddr cfd cacheServer ∧
      s'.listenMap = s.listenMap.tryInsert cfd (sockAddr2str cacheServer) ∧
      s'.registedMap = s.registedMap.tryInsert newAddr cfd) ∨
    (∃ addr cfd, op = .leave addr cfd ∧ s'.listenMap = s.listenMap.erase cfd ∧
      s'.registedMap = s.registedMap.erase addr) ∨
    (∃ fd, op = .listenAddr fd ∧ s'.listenMap = s.listenMap.tryInsert fd [] ∧
      s'.registedMap = s.registedMap) ∨
    (∃ addr, op = .registedFd addr ∧ s'.listenMap = s.listenMap ∧
      s'.registedMap = s.registedMap.tryInsert addr 0) ∨
    s'.listenMap = s.listenMap ∧ s'.registedMap = s.registedMap := by
  cases op with
  | join newAddr cfd cacheServer =>
    obtain ⟨l, -, ho⟩ := Option.map_eq_some_iff.mp (Outcome.of_ofOption h)
    obtain ⟨-, rfl⟩ := Prod.mk.inj ho
    exact Or.inl ⟨newAddr, cfd, cacheServer, rfl, rfl, rfl⟩
  | leave addr cfd =>
    obtain ⟨l, -, ho⟩ := Option.map_eq_some_iff.mp (Outcome.of_ofOption h)
    obtain ⟨-, rfl⟩ := Prod.mk.inj ho
    exact Or.inr (Or.inl ⟨addr, cfd, rfl, rfl, rfl⟩)
  | listenAddr fd =>
    obtain ⟨-, rfl⟩ := Outcome.of_ok h
    exact Or.inr (Or.inr (Or.inl ⟨fd, rfl, rfl, rfl⟩))
  | registedFd addr =>
    obtain ⟨-, rfl⟩ := Outcome.of_ok h
    exact Or.inr (Or.inr (Or.inr (Or.inl ⟨addr, rfl, rfl, rfl⟩)))
  | addHash addr | getPrev addr | getNext addr | owner key =>
    obtain ⟨a, -, ho⟩ := Option.map_eq_some_iff.mp (Outcome.of_ofOption h)
    obtain ⟨-, rfl⟩ := Prod.mk.inj ho
    exact Or.inr (Or.inr (Or.inr (Or.inr ⟨rfl, rfl⟩)))
  | append request =>
    obtain ⟨-, rfl⟩ := Outcome.of_ok h
    refine Or.inr (Or.inr (Or.inr (Or.inr ?_)))
    unfold MasterServer.append
    split_ifs <;> exact ⟨rfl, rfl⟩
  | _ =>
    obtain ⟨-, rfl⟩ := Outcome.of_ok h
    exact Or.inr (Or.inr (Or.inr (Or.inr ⟨rfl, rfl⟩)))

theorem hashList_text (command : Command) : hashList command.text = none := by
  cases command with
  | moveData => exact Cluster.hashList_moveDataMsg
  | recoverBackup => exact Cluster.hashList_recoverBackupMsg
  | updateBackup addr nul => exact Cluster.hashList_updateBackupText addr _

theorem lastHash_send (s : MasterServer) (fd : ℤ) (msg : Str) (f : ℤ) :
    lastHash ((s.send fd msg).outbox f) =
      if f = fd then (hashList msg).or (lastHash (s.outbox f)) else lastHash (s.outbox f) := by
  change lastHash (if f = fd then s.outbox f ++ [msg] else s.outbox f) = _
  split_ifs
  · rw [Cluster.lastHash_append, Cluster.lastHash_singleton]
  · rfl

/-- No operation sends a list. -/
theorem lastHash_of_perform (h : perform cbHashfunc op s = .ok r s') (f : ℤ) :
    lastHash (s'.outbox f) = lastHash (s.outbox f) := by
  cases op with
  | send fd command =>
    obtain ⟨-, rfl⟩ := Outcome.of_ok h
    rw [lastHash_send, hashList_text, Option.none_or, ite_self]
  | join newAddr cfd cacheServer =>
    obtain ⟨l, -, ho⟩ := Option.map_eq_some_iff.mp (Outcome.of_ofOption h)
    obtain ⟨-, rfl⟩ := Prod.mk.inj ho
    rfl
  | leave addr cfd =>
    obtain ⟨l, -, ho⟩ := Option.map_eq_some_iff.mp (Outcome.of_ofOption h)
    obtain ⟨-, rfl⟩ := Prod.mk.inj ho
    rfl
  | addHash addr | getPrev addr | getNext addr | owner key =>
    obtain ⟨a, -, ho⟩ := Option.map_eq_some_iff.mp (Outcome.of_ofOption h)
    obtain ⟨-, rfl⟩ := Prod.mk.inj ho
    rfl
  | append request =>
    obtain ⟨-, rfl⟩ := Outcome.of_ok h
    unfold MasterServer.append
    split_ifs <;> rfl
  | _ =>
    obtain ⟨-, rfl⟩ := Outcome.of_ok h
    rfl

end Memory

section Told
variable {cbHashfunc : Str → ℤ} {p p' : System} {e : Event} {u : Unit} {f : ℤ} {addrs : List Str}

/-- A thread in `UpdateHash` is still to send the list `addrs` to the connection. -/
def Update.Owes (addrs : List Str) (f : ℤ) : Update → Prop
  | .build => True
  | .advance l after => l = addrs ∧ ∀ fd ∈ after, fd < f
  | .deliver l fd => l = addrs ∧ fd ≤ f
  | .note l fd => l = addrs ∧ fd < f

def Thread.Owes (addrs : List Str) (f : ℤ) (t : Thread) : Prop :=
  match t.update with
  | some u => u.Owes addrs f
  | none => Announces t.code

/-- Some thread is still to send the current list to the connection. -/
def Owed (p : System) (f : ℤ) : Prop := ∃ i, (p.thread i).Owes p.mem.listenMap.values f

/-- A list that is not current goes to a server only while the current one is still to be sent to
it; what is looked up in `listenMap` and `registedMap` is there; a registration that fails adds
nothing to `listenMap`; a connection that is closed is registered under one address; and a new
connection has a descriptor that `listenMap` does not hold. -/
def Orderly (p : System) : Event → Prop
  | .newConn cfd _ => p.mem.listenMap.contains cfd = false
  | .step i =>
    match (p.thread i).update, (p.thread i).code with
    | some (.deliver addrs fd), _ => p.mem.listenMap.contains fd = true →
      addrs = p.mem.listenMap.values ∨ Owed p fd
    | none, .call (.listenAddr fd) _ => p.mem.listenMap.contains fd = true
    | none, .call (.registedFd addr) _ => p.mem.registedMap.contains addr = true
    | none, .call (.join newAddr cfd _) _ => p.mem.registedMap.contains newAddr = true →
      p.mem.listenMap.contains cfd = true
    | none, .call (.leave addr cfd) _ => ∀ a, p.mem.registedMap.find? a = some cfd → a = addr
    | _, _ => True
  | _ => True

/-- Every server was last sent the current list, or is still to be sent it. -/
structure Informed (p : System) : Prop where
  follows : ∀ i, Follows (p.thread i).code
  addresses : ∀ f addr, p.mem.listenMap.find? f = some addr → ∃ sa, addr = sockAddr2str sa
  listed : ∀ a f, p.mem.registedMap.find? a = some f → p.mem.listenMap.contains f = true
  told : ∀ f, p.mem.listenMap.contains f = true →
    lastHash (p.mem.outbox f) = some p.mem.listenMap.values ∨ Owed p f

theorem not_announces_done : ¬ Announces .done := by
  rintro (⟨next, h⟩ | ⟨addr, next, h⟩) <;> cases h

theorem informed_idle : Informed (idle .new) where
  follows _ := trivial
  addresses _ _ h := by cases h
  listed _ _ h := by cases h
  told _ h := by cases h

section Change
variable {i : Option ℕ} {t : Thread} {mem : MasterServer}

/-- A thread goes on, and the tables stay as they are. -/
theorem Informed.of_same (hp : Informed p) (hmap : mem.listenMap = p.mem.listenMap)
    (hregisted : mem.registedMap = p.mem.registedMap) (hfollows : Follows t.code)
    (howes : ∀ f, p.mem.listenMap.contains f = true →
      (p.thread i).Owes p.mem.listenMap.values f →
        t.Owes p.mem.listenMap.values f ∨ lastHash (mem.outbox f) = some p.mem.listenMap.values)
    (hsent : ∀ f, p.mem.listenMap.contains f = true →
      lastHash (mem.outbox f) = lastHash (p.mem.outbox f) ∨
        lastHash (mem.outbox f) = some p.mem.listenMap.values ∨ Owed p f) :
    Informed ⟨mem, Function.update p.thread i t⟩ := by
  have howed : ∀ f, p.mem.listenMap.contains f = true → Owed p f →
      lastHash (mem.outbox f) = some p.mem.listenMap.values ∨
        Owed ⟨mem, Function.update p.thread i t⟩ f := by
    rintro f hf ⟨j, hj⟩
    by_cases hji : j = i
    · subst hji
      rcases howes f hf hj with ht | hlast
      · refine Or.inr ⟨j, ?_⟩
        simp only [Function.update_self, hmap]
        exact ht
      · exact Or.inl hlast
    · refine Or.inr ⟨j, ?_⟩
      simp only [Function.update_of_ne hji, hmap]
      exact hj
  refine ⟨fun j => ?_, fun f addr hf => ?_, fun a f hf => ?_, fun f hf => ?_⟩
  · by_cases hji : j = i
    · subst hji
      simp only [Function.update_self]
      exact hfollows
    · simp only [Function.update_of_ne hji]
      exact hp.follows j
  · rw [hmap] at hf
    exact hp.addresses f addr hf
  · rw [hregisted] at hf
    rw [hmap]
    exact hp.listed a f hf
  · rw [hmap] at hf ⊢
    rcases hsent f hf with hsame | hlast | ho
    · rw [hsame]
      rcases hp.told f hf with htold | ho
      · exact Or.inl htold
      · rw [← hsame]
        exact howed f hf ho
    · exact Or.inl hlast
    · exact howed f hf ho

/-- A thread changes `listenMap`, and calls `UpdateHash` next. -/
theorem Informed.of_announces (hp : Informed p) {c : Prog} (hc : Announces c) (hfollows : Follows c)
    (haddr : ∀ f addr, mem.listenMap.find? f = some addr → ∃ sa, addr = sockAddr2str sa)
    (hlisted : ∀ a f, mem.registedMap.find? a = some f → mem.listenMap.contains f = true) :
    Informed ⟨mem, Function.update p.thread i ⟨none, c⟩⟩ := by
  refine ⟨fun j => ?_, haddr, hlisted, fun f _ => Or.inr ⟨i, ?_⟩⟩
  · by_cases hji : j = i
    · subst hji
      simp only [Function.update_self]
      exact hfollows
    · simp only [Function.update_of_ne hji]
      exact hp.follows j
  · simp only [Function.update_self]
    exact hc

/-- A thread starts. -/
theorem Informed.of_done (hp : Informed p) (hmap : mem.listenMap = p.mem.listenMap)
    (hregisted : mem.registedMap = p.mem.registedMap) (hsent : mem.outbox = p.mem.outbox)
    (hdone : p.thread i = .done) {c : Prog} (hfollows : Follows c) :
    Informed ⟨mem, Function.update p.thread i ⟨none, c⟩⟩ := by
  refine hp.of_same hmap hregisted hfollows (fun f _ howes => ?_) fun f _ => Or.inl (by rw [hsent])
  rw [hdone] at howes
  exact absurd howes not_announces_done

/-- A step of `UpdateHash`. -/
theorem Informed.step_update {u : Update} {u' : Option Update} (hp : Informed p)
    (hu : (p.thread i).update = some u) (hstep : u.step p.mem = .ok u' mem)
    (hok : Orderly p (.step i)) :
    Informed ⟨mem, Function.update p.thread i ⟨u', (p.thread i).code⟩⟩ := by
  have howes : ∀ f, (p.thread i).Owes p.mem.listenMap.values f →
      u.Owes p.mem.listenMap.values f := fun f h => by
    rw [Thread.Owes, hu] at h
    exact h
  cases u with
  | build =>
    obtain ⟨rfl, rfl⟩ := Outcome.of_ok hstep
    exact hp.of_same rfl rfl (hp.follows i) (fun f _ _ => Or.inl ⟨rfl, nofun⟩) fun f _ => Or.inl rfl
  | advance l after =>
    simp only [Update.step] at hstep
    split_ifs at hstep with hall
    obtain ⟨rfl, rfl⟩ := Outcome.of_ok hstep
    refine hp.of_same rfl rfl (hp.follows i) (fun f hf hf' => Or.inl ?_) fun f _ => Or.inl rfl
    obtain ⟨rfl, hlt⟩ := howes f hf'
    obtain ⟨e, he, hle⟩ := OrdMap.above?_le hf hlt
    rw [he]
    exact ⟨rfl, hle⟩
  | deliver l fd =>
    obtain ⟨rfl, rfl⟩ := Outcome.of_ok hstep
    have hlast : l = p.mem.listenMap.values →
        lastHash ((p.mem.send fd (updateHashText l ++ [0])).outbox fd) =
          some p.mem.listenMap.values := by
      rintro rfl
      rw [lastHash_send, if_pos rfl, Cluster.hashList_updateHashText, Option.some_or]
      refine Cluster.isText_addrs fun addr haddr => ?_
      obtain ⟨f, hf⟩ := p.mem.listenMap.mem_values.mp haddr
      exact hp.addresses f addr hf
    simp only [Orderly, hu] at hok
    refine hp.of_same rfl rfl (hp.follows i) (fun f _ hf' => ?_) fun f hf => ?_
    · obtain ⟨hl, hle⟩ := howes f hf'
      by_cases hfd : f = fd
      · subst hfd
        exact Or.inr (hlast hl)
      · exact Or.inl ⟨hl, lt_of_le_of_ne hle (Ne.symm hfd)⟩
    · by_cases hfd : f = fd
      · subst hfd
        exact Or.inr ((hok hf).imp_left hlast)
      · left
        rw [lastHash_send, if_neg hfd]
  | note l fd =>
    obtain ⟨rfl, rfl⟩ := Outcome.of_ok hstep
    refine hp.of_same rfl rfl (hp.follows i) (fun f _ hf' => Or.inl ?_) fun f _ => Or.inl rfl
    obtain ⟨hl, hlt⟩ := howes f hf'
    refine ⟨hl, ?_⟩
    rintro fd' ⟨⟩
    exact hlt

/-- A step outside of `UpdateHash`. -/
theorem Informed.step_op {op : Op} {next : op.Res → Prog} {r : op.Res} (hp : Informed p)
    (hu : (p.thread i).update = none) (hcode : (p.thread i).code = .call op next)
    (hop : perform cbHashfunc op p.mem = .ok r mem) (hok : Orderly p (.step i)) :
    Informed ⟨mem, Function.update p.thread i ⟨called op, next r⟩⟩ := by
  have hfollows := hp.follows i
  rw [hcode] at hfollows
  obtain ⟨hallows, hnext⟩ := hfollows
  have hnext : Follows (next r) := hnext r () trivial
  have howes : ∀ f, (p.thread i).Owes p.mem.listenMap.values f → Announces (.call op next) :=
    fun f h => by
      rw [Thread.Owes, hu, hcode] at h
      exact h
  have hsent := lastHash_of_perform hop
  simp only [Orderly, hu, hcode] at hok
  rcases tables_of_perform hop with ⟨newAddr, cfd, cacheServer, rfl, hmap, hreg⟩ |
    ⟨addr, cfd, rfl, hmap, hreg⟩ | ⟨fd, rfl, hmap, hreg⟩ | ⟨addr, rfl, hmap, hreg⟩ | ⟨hmap, hreg⟩
  · cases hr : (r : Bool) with
    | true =>
      refine hp.of_announces hallows (hr ▸ hnext) (fun f addr hf => ?_) fun a f hf => ?_
      · rw [hmap] at hf
        rcases OrdMap.find?_of_tryInsert _ hf with hf | ⟨-, rfl⟩
        · exact hp.addresses f addr hf
        · exact ⟨cacheServer, rfl⟩
      · rw [hreg] at hf
        rw [hmap, OrdMap.contains_tryInsert]
        rcases OrdMap.find?_of_tryInsert _ hf with hf | ⟨-, rfl⟩
        · exact Or.inr (hp.listed a f hf)
        · exact Or.inl rfl
    | false =>
      have hknown : p.mem.registedMap.contains newAddr = true := by
        obtain ⟨l, -, ho⟩ := Option.map_eq_some_iff.mp (Outcome.of_ofOption hop)
        obtain ⟨hr', -⟩ := Prod.mk.inj ho
        have : (!p.mem.registedMap.contains newAddr) = false := hr'.trans hr
        simpa using this
      rw [OrdMap.tryInsert, if_pos (hok hknown)] at hmap
      rw [OrdMap.tryInsert, if_pos hknown] at hreg
      refine hp.of_same hmap hreg (hr ▸ hnext) (fun f _ hf' => ?_) fun f _ => Or.inl (hsent f)
      rcases howes f hf' with ⟨next', h⟩ | ⟨addr, next', h⟩ <;> cases h
  · refine hp.of_announces hallows hnext (fun f addr' hf => ?_) fun a f hf => ?_
    · rw [hmap, OrdMap.find?_erase] at hf
      split_ifs at hf
      exact hp.addresses f addr' hf
    · rw [hreg, OrdMap.find?_erase] at hf
      split_ifs at hf with ha
      have hne : f ≠ cfd := by
        rintro rfl
        exact ha (hok a hf)
      rw [hmap, OrdMap.contains, OrdMap.find?_erase, if_neg hne]
      exact hp.listed a f hf
  · rw [OrdMap.tryInsert, if_pos hok] at hmap
    refine hp.of_same hmap hreg hnext (fun f _ hf' => ?_) fun f _ => Or.inl (hsent f)
    rcases howes f hf' with ⟨next', h⟩ | ⟨addr, next', h⟩ <;> cases h
  · rw [OrdMap.tryInsert, if_pos hok] at hreg
    refine hp.of_same hmap hreg hnext (fun f _ hf' => ?_) fun f _ => Or.inl (hsent f)
    rcases howes f hf' with ⟨next', h⟩ | ⟨addr, next', h⟩ <;> cases h
  · refine hp.of_same hmap hreg hnext (fun f _ hf' => Or.inl ?_) fun f _ => Or.inl (hsent f)
    rcases howes f hf' with ⟨next', h⟩ | ⟨addr, next', h⟩
    · cases h
      exact trivial
    · cases h
      exact Or.inl ⟨next', rfl⟩

end Change

theorem Informed.step (hp : Informed p) (hok : Orderly p e)
    (h : MasterThreads.step cbHashfunc p e = some (u, p')) : Informed p' := by
  cases step_cases h with
  | idle => exact hp
  | accepted cfd clientAddr =>
    refine ⟨hp.follows, hp.addresses, hp.listed, fun f hf => ?_⟩
    have hne : f ≠ cfd := by
      rintro rfl
      have hno : p.mem.listenMap.contains f = false := hok
      have hyes : p.mem.listenMap.contains f = true := hf
      rw [hno] at hyes
      cases hyes
    have hout : (p.mem.dealwithNewConn cfd clientAddr).2.outbox f = p.mem.outbox f := if_neg hne
    rw [hout]
    exact hp.told f hf
  | asked clientUdpAddr bytes stale =>
    obtain ⟨hmap, hreg, hout⟩ :
        (p.mem.dealwithClient clientUdpAddr bytes stale).2.listenMap = p.mem.listenMap ∧
        (p.mem.dealwithClient clientUdpAddr bytes stale).2.registedMap = p.mem.registedMap ∧
        (p.mem.dealwithClient clientUdpAddr bytes stale).2.outbox = p.mem.outbox := by
      unfold MasterServer.dealwithClient MasterServer.append
      dsimp only
      split_ifs <;> exact ⟨rfl, rfl, rfl⟩
    refine ⟨hp.follows, ?_, ?_, ?_⟩
    · rw [hmap]
      exact hp.addresses
    · rw [hmap, hreg]
      exact hp.listed
    · simp only [Owed, hmap, hout]
      exact hp.told
  | watched cfd recv res hdone =>
    exact hp.of_done rfl rfl rfl hdone (follows_dealwithCacheServer cfd recv res)
  | taken i request rest hq hdone =>
    refine hp.of_done ?_ ?_ ?_ hdone (follows_handle request) <;> rfl
  | acted hstep =>
    rcases Thread.step_cases hstep with ⟨v, v', hv, hupdate, rfl⟩ | ⟨op, next, r, hv, hcode, hop, rfl⟩
    · exact hp.step_update hv hupdate hok
    · exact hp.step_op hv hcode hop hok

/-- When no handler runs, every registered server was last sent the addresses that are in
`listenMap`. -/
theorem views_converge_of_run {es : List Event} {us : List Unit}
    (ha : Allowed (MasterThreads.step cbHashfunc) Orderly (idle .new) es)
    (h : run (MasterThreads.step cbHashfunc) (idle .new) es = some (us, p)) :
    (∀ i, p.thread i = .done) → ∀ a f, p.mem.registedMap.find? a = some f →
      lastHash (p.mem.outbox f) = some p.mem.listenMap.values := by
  have hp : Informed p := run_kept (fun _ _ _ _ hp he hstep => hp.step he hstep) informed_idle ha h
  intro hdone a f hf
  rcases hp.told f (hp.listed a f hf) with htold | ⟨i, howes⟩
  · exact htold
  · rw [hdone i] at howes
    exact absurd howes not_announces_done

end Told

section Stale

/-- The peer address of a cache server. -/
def peer (port : ℤ) : SockAddrIn := ⟨afInet, htons port, ⟨10, 0, 0, 1⟩⟩

/-- A cache server connects, and sends its port. -/
def connects (cfd port : ℤ) (registration : Str) : List Event :=
  [.newConn cfd (peer port), .cacheServer cfd (.data registration) (peer 0), .step none, .step none]

/-- One registration, from its start to its end. -/
def oneServer : List Event :=
  connects 5 40000 (lit "6000") ++ .dequeue 1 :: List.replicate 15 (.step (some 1))

/-- Two servers register at the same time. The worker 1 sends a list that is outdated when the worker 2
has put in the second server, and the worker 2 sends the current one afterwards. -/
def bothRegister : List Event :=
  connects 5 40000 (lit "6000") ++ connects 6 40001 (lit "6001") ++
    .dequeue 1 :: List.replicate 7 (.step (some 1)) ++
    .dequeue 2 :: List.replicate 3 (.step (some 2)) ++ List.replicate 15 (.step (some 1)) ++
    List.replicate 20 (.step (some 2))

/-- A worker that takes no request does nothing. -/
theorem done_of_run {cbHashfunc : Str → ℤ} {s : MasterServer} {n : ℕ} {es : List Event}
    {us : List Unit} {p : System} (hes : ∀ e ∈ es, ∀ i, e = .dequeue i → i < n)
    (h : run (step cbHashfunc) (idle s) es = some (us, p)) :
    ∀ i, n ≤ i → p.thread (some i) = .done := by
  have hok : Allowed (step cbHashfunc) (fun _ e => ∀ i, e = .dequeue i → i < n) (idle s) es :=
    allowed_of_forall fun e he _ => hes e he
  refine run_kept (I := fun p => ∀ i, n ≤ i → p.thread (some i) = .done)
    (fun p e u p' hp he hstep i hi => ?_) (fun _ _ => rfl) hok h
  cases step_cases hstep with
  | idle => exact hp i hi
  | accepted => exact hp i hi
  | asked => exact hp i hi
  | watched => exact hp i hi
  | taken j request rest hq hdone =>
    have hj := he j rfl
    have hne : some i ≠ some j := fun h => by
      have := Option.some.inj h
      omega
    exact (Function.update_of_ne hne _ _).trans (hp i hi)
  | @acted j t mem hact =>
    have hne : some i ≠ j := by
      rintro rfl
      rw [hp i hi] at hact
      cases hact
    exact (Function.update_of_ne hne _ _).trans (hp i hi)

/-- The code begins with what `Announces` asks for. -/
def announces : Prog → Bool
  | .call .updateHash _ => true
  | .call (.addHash _) next => match next () with
    | .call .updateHash _ => true
    | _ => false
  | _ => false

theorem announces_of_test {c : Prog} (h : announces c = true) : Announces c := by
  cases c with
  | done => cases h
  | call op next =>
    cases op with
    | updateHash => exact Or.inl ⟨next, rfl⟩
    | addHash addr =>
      cases hn : next () with
      | done => simp [announces, hn] at h
      | call op' next' =>
        cases op' with
        | updateHash => exact Or.inr ⟨addr, next', congrArg (Code.call _) (funext fun _ => hn)⟩
        | _ => simp [announces, hn] at h
    | _ => cases h

/-- A test for `Orderly`, where the worker `w` is the one that may still have to send. -/
def orderly (w : ℕ) (p : System) : Event → Bool
  | .newConn cfd _ => !p.mem.listenMap.contains cfd
  | .step i =>
    match (p.thread i).update, (p.thread i).code with
    | some (.deliver addrs _), _ => addrs = p.mem.listenMap.values ||
      (p.thread (some w)).update.isNone && announces (p.thread (some w)).code
    | none, .call (.listenAddr fd) _ => p.mem.listenMap.contains fd
    | none, .call (.registedFd addr) _ => p.mem.registedMap.contains addr
    | none, .call (.join newAddr _ _) _ => !p.mem.registedMap.contains newAddr
    | none, .call (.leave _ _) _ => false
    | _, _ => true
  | _ => true

theorem orderly_of_test {w : ℕ} {p : System} {e : Event} (h : orderly w p e = true) :
    Orderly p e := by
  cases e with
  | newConn cfd clientAddr => simpa [orderly, Orderly] using h
  | step i =>
    obtain ⟨⟨u, c⟩, ht⟩ : ∃ t, p.thread i = t := ⟨_, rfl⟩
    simp only [orderly, ht] at h
    simp only [Orderly, ht]
    cases u with
    | some u =>
      cases u with
      | deliver addrs fd =>
        intro _
        simp only [Bool.or_eq_true, decide_eq_true_eq, Bool.and_eq_true, Option.isNone_iff_eq_none] at h
        refine h.imp_right fun ⟨hnone, hw⟩ => ⟨some w, ?_⟩
        rw [Thread.Owes, hnone]
        exact announces_of_test hw
      | _ => trivial
    | none =>
      cases c with
      | done => trivial
      | call op next =>
        cases op with
        | listenAddr fd => exact h
        | registedFd addr => exact h
        | join newAddr cfd cacheServer =>
          intro hreg
          have hnew : (!p.mem.registedMap.contains newAddr) = true := h
          rw [hreg] at hnew
          cases hnew
        | leave addr cfd => cases h
        | _ => trivial
  | _ => trivial

theorem views_converge_of_both : ∃ us p,
    run (step fun _ => 0) (idle .new) bothRegister = some (us, p) ∧
    p.mem.listenMap.values = [lit "10.0.0.1:6000", lit "10.0.0.1:6001"] ∧
    (∀ i, p.thread i = .done) ∧
    ∀ a f, p.mem.registedMap.find? a = some f →
      lastHash (p.mem.outbox f) = some p.mem.listenMap.values := by
  have htest : Allowed (step fun _ => 0) (fun p e => orderly 2 p e = true) (idle .new)
      bothRegister := by
    decide +kernel
  have ha : Allowed (step fun _ => 0) Orderly (idle .new) bothRegister :=
    htest.mono fun _ _ => orderly_of_test
  have hend : (run (step fun _ => 0) (idle .new) bothRegister).map (fun o =>
      (o.2.mem.listenMap.values, [none, some 0, some 1, some 2].map fun i => (o.2.thread i).isDone)) =
        some ([lit "10.0.0.1:6000", lit "10.0.0.1:6001"], [true, true, true, true]) := by
    decide +kernel
  obtain ⟨⟨us, p⟩, hrun, hend⟩ := Option.map_eq_some_iff.mp hend
  simp only [List.map_cons, List.map_nil, Prod.mk.injEq, List.cons.injEq, Thread.isDone_iff,
    and_true] at hend
  obtain ⟨hvalues, h₀, h₁, h₂, h₃⟩ := hend
  have hthreads : ∀ i, p.thread i = .done := by
    have hrest := done_of_run (n := 3) (by simp [bothRegister, connects]) hrun
    intro i
    match i with
    | none => exact h₀
    | some 0 => exact h₁
    | some 1 => exact h₂
    | some 2 => exact h₃
    | some (n + 3) => exact hrest _ (by omega)
  exact ⟨us, p, hrun, hvalues, hthreads, views_converge_of_run ha hrun hthreads⟩

/-- The worker 1 has built its list, and is about to send it, when the worker 2 carries out the next
registration. -/
def twoServers : List Event :=
  connects 5 40000 (lit "6000") ++ connects 6 40001 (lit "6001") ++
    .dequeue 1 :: List.replicate 7 (.step (some 1)) ++
    .dequeue 2 :: List.replicate 23 (.step (some 2)) ++ List.replicate 15 (.step (some 1))

set_option maxRecDepth 4000 in
/-- The list of the worker 1 arrives last. -/
theorem not_views_converge : ∃ us p,
    run (step fun _ => 0) (idle .new) twoServers = some (us, p) ∧ (∀ i, p.thread i = .done) ∧
    p.mem.listenMap.values = [lit "10.0.0.1:6000", lit "10.0.0.1:6001"] ∧
    p.mem.registedMap.values = [5, 6] ∧
    lastHash (p.mem.outbox 5) = some [lit "10.0.0.1:6000"] ∧
    lastHash (p.mem.outbox 6) = some [lit "10.0.0.1:6000"] := by
  refine ⟨_, _, rfl, fun i => ?_, rfl, rfl, rfl, rfl⟩
  match i with
  | none => rfl
  | some 1 => rfl
  | some 2 => rfl
  | some 0 => rfl
  | some (n + 3) => rfl

end Stale
end DCache.MasterThreads
