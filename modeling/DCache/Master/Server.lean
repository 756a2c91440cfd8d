import Mathlib.Data.Finset.Basic
import DCache.Master.ServerList
import DCache.Ring.ConHash

/-! The master server (`master_server/master_service.cpp`). A handler runs to completion, so an
event is one call; what the network sees is the list of messages sent on each connection. `none`
is the use of a null or released pointer. -/
namespace DCache.Master
open DCache.Lib DCache.Ring

inductive RequestType
  | register
  | getDistribute
deriving DecidableEq

/-- An entry of `m_workqueue`. -/
structure Request where
  requestType : RequestType
  clientAddr : SockAddrIn
  key : Str
  cfd : ℤ

/-- `m_max_requests` -/
def maxRequests : ℕ := 20

/-- `openFds` and `watched` are the open connections and those in the epoll set, `outbox` what
was sent on each connection since it was accepted, `replies` the datagrams sent to clients. -/
structure MasterServer where
  masterHash : ConHash
  registedMap : OrdMap Str ℤ
  connectedMap : OrdMap ℤ Str
  listenMap : OrdMap ℤ Str
  connectList : ServerList Str
  workqueue : List Request
  openFds : Finset ℤ
  watched : Finset ℤ
  outbox : ℤ → List Str
  replies : List (SockAddrIn × Str)

/-- `"%s\n"` of `MOVE_DATA`, sent with its NUL. -/
def moveDataMsg : Str := Code.moveData ++ [newline] ++ [0]

/-- `"%s\n"` of `RECOVER_BACKUP`, sent without its NUL. -/
def recoverBackupMsg : Str := Code.recoverBackup ++ [newline]

/-- `"%s\n%s\n"` of `UPDATE_BACKUP` and the address to back up to. -/
def updateBackupText (addr : Str) : Str := Code.updateBackup ++ [newline] ++ cstr addr ++ [newline]

/-- `"%s\n%s"` of `UPDATE_HASH` and the addresses, each followed by a newline. -/
def updateHashText (addrs : List Str) : Str :=
  Code.updateHash ++ [newline] ++ cstr (addrs.flatMap (fun a => a ++ [newline]))

namespace MasterServer

def new : MasterServer where
  masterHash := .new
  registedMap := .empty
  connectedMap := .empty
  listenMap := .empty
  connectList := .new
  workqueue := []
  openFds := ∅
  watched := ∅
  outbox := fun _ => []
  replies := []

def send (s : MasterServer) (fd : ℤ) (msg : Str) : MasterServer :=
  { s with outbox := fun g => if g = fd then s.outbox g ++ [msg] else s.outbox g }

/-- Logging a send reads `connectedMap[fd]`. -/
def updateHashTo (msg : Str) (s : MasterServer) (fd : ℤ) : MasterServer :=
  let s := s.send fd (msg ++ [0])
  { s with connectedMap := (s.connectedMap.index fd []).2 }

def updateHash (s : MasterServer) : MasterServer :=
  (s.listenMap.entries.map Prod.fst).foldl (updateHashTo (updateHashText s.listenMap.values)) s

def append (s : MasterServer) (request : Request) : Bool × MasterServer :=
  if s.workqueue.length ≥ maxRequests then (false, s)
  else (true, { s with workqueue := s.workqueue ++ [request] })

variable (cbHashfunc : Str → ℤ)

def getDistribute (s : MasterServer) (clientAddr : SockAddrIn) (key : Str) :
    Option (ℤ × MasterServer) := do
  let ipPort ← s.masterHash.conhashGetCacheServer cbHashfunc key
  let msg ← if s.connectList.isExisted ipPort then do
      let backup ← s.connectList.getNext ipPort
      some (ipPort ++ [newline] ++ backup)
    else some ipPort
  some (0, { s with replies := s.replies ++ [(clientAddr, cstr msg)] })

/-- The last part of `Register`: the new server and its predecessor are told whom to back up
to, unless the new server is the only one. -/
def notifyBackup (s : MasterServer) (newAddr : Str) (cfd : ℤ) : Option MasterServer :=
  if s.connectList.isExisted newAddr then do
    let prevServerAddr ← s.connectList.getPrev newAddr
    let nextServerAddr ← s.connectList.getNext newAddr
    let (prevFd, registedMap) := s.registedMap.index prevServerAddr 0
    let (nextFd, registedMap) := registedMap.index nextServerAddr 0
    let s := { s with registedMap := registedMap }
    if nextFd ≠ cfd ∨ prevFd ≠ cfd then
      let (addr, listenMap) := s.listenMap.index cfd []
      let s := { s with listenMap := listenMap }
      let s := s.send prevFd (updateBackupText addr ++ [0])
      let (addr, listenMap) := s.listenMap.index nextFd []
      let s := { s with listenMap := listenMap }
      some (s.send cfd (updateBackupText addr ++ [0]))
    else some s
  else some s

/-- The tables with a new registration; `insert` keeps a binding that is there. -/
def joined (s : MasterServer) (newAddr : Str) (cfd : ℤ) (cacheServerStr : Str)
    (connectList : ServerList Str) : MasterServer :=
  { s with
    registedMap := s.registedMap.tryInsert newAddr cfd
    listenMap := s.listenMap.tryInsert cfd cacheServerStr
    connectList := connectList }

def register (s : MasterServer) (cacheServer : SockAddrIn) (cfd : ℤ) :
    Option (ℤ × MasterServer) := do
  let cacheServerStr := sockAddr2str cacheServer
  let (newAddr, connectedMap) := s.connectedMap.index cfd []
  let notity := s.registedMap
  let connectList ← s.connectList.add newAddr
  let s := joined { s with connectedMap := connectedMap } newAddr cfd cacheServerStr connectList
  if notity.contains newAddr then some (-1, s)
  else do
    let masterHash ← s.masterHash.conhashAddCacheServer cbHashfunc cacheServerStr
    let s := updateHash { s with masterHash := masterHash }
    let s := notity.values.foldl (fun s fd => s.send fd moveDataMsg) s
    let s ← s.notifyBackup newAddr cfd
    some (0, s)

/-- `accept` returned `cfd` for a peer at `clientAddr`. -/
def dealwithNewConn (s : MasterServer) (cfd : ℤ) (clientAddr : SockAddrIn) :
    ℤ × MasterServer :=
  (0, { s with
    openFds := insert cfd s.openFds
    watched := insert cfd s.watched
    outbox := fun g => if g = cfd then [] else s.outbox g
    connectedMap := s.connectedMap.tryInsert cfd (sockAddr2str clientAddr) })

/-- `stale` is what the buffer holds behind the received bytes. -/
def dealwithClient (s : MasterServer) (clientUdpAddr : SockAddrIn) (bytes stale : Str) :
    ℤ × MasterServer :=
  let (ret, s) := s.append ⟨.getDistribute, clientUdpAddr, cstr (bytes ++ stale), -1⟩
  (if ret then 0 else -1, s)

/-- The connection is closed and leaves all tables. -/
def departed (s : MasterServer) (strClientAddr : Str) (cfd : ℤ) (connectList : ServerList Str) :
    MasterServer :=
  { s with
    openFds := s.openFds.erase cfd
    watched := s.watched.erase cfd
    connectedMap := s.connectedMap.erase cfd
    registedMap := s.registedMap.erase strClientAddr
    listenMap := s.listenMap.erase cfd
    connectList := connectList }

/-- The last part of a disconnection: the successor recovers its backup and the predecessor backs
up to the successor, unless the server that left is one of them. -/
def notifyRecover (s : MasterServer) (cfd prevFd nextFd : ℤ) : MasterServer :=
  if nextFd = cfd ∨ prevFd = cfd then s
  else
    let s := s.send nextFd recoverBackupMsg
    let (addr, listenMap) := s.listenMap.index nextFd []
    let s := { s with listenMap := listenMap }
    s.send prevFd (updateBackupText addr)

/-- The end of a registered server's connection. -/
def disconnected (s : MasterServer) (cfd : ℤ) (strClientAddr : Str) :
    Option (ℤ × MasterServer) := do
  let prevServerAddr ← s.connectList.getPrev strClientAddr
  let nextServerAddr ← s.connectList.getNext strClientAddr
  let (prevFd, registedMap) := s.registedMap.index prevServerAddr 0
  let (nextFd, registedMap) := registedMap.index nextServerAddr 0
  let connectList ← s.connectList.del strClientAddr
  let s := departed { s with registedMap := registedMap } strClientAddr cfd connectList
  some (0, s.updateHash.notifyRecover cfd prevFd nextFd)

/-- `res` is what the uninitialised address of `str2sock_addr` holds. -/
def dealwithCacheServer (s : MasterServer) (cfd : ℤ) (recv : Recv) (res : SockAddrIn) :
    Option (ℤ × MasterServer) :=
  let (strClientAddr, connectedMap) := s.connectedMap.index cfd []
  let s := { s with connectedMap := connectedMap }
  match recv with
  | .failed => some (-1, s)
  | .closed =>
    if s.connectList.isExisted strClientAddr then s.disconnected cfd strClientAddr
    else some (0, s)
  | .data buf =>
    let clientListenAddr :=
      { str2sockAddr res strClientAddr with sinPort := htons (atoi (cstr buf)) }
    let (ret, s) := s.append ⟨.register, clientListenAddr, [], cfd⟩
    some (if ret then 0 else -1, s)

/-- One turn of a worker's loop. -/
def run (s : MasterServer) : Option (ℤ × MasterServer) :=
  match s.workqueue with
  | [] => some (0, s)
  | request :: rest =>
    let s := { s with workqueue := rest }
    match request.requestType with
    | .getDistribute => s.getDistribute cbHashfunc request.clientAddr request.key
    | .register => s.register cbHashfunc request.clientAddr request.cfd

end MasterServer

inductive Event
  | newConn (cfd : ℤ) (clientAddr : SockAddrIn)
  | client (clientUdpAddr : SockAddrIn) (bytes stale : Str)
  | cacheServer (cfd : ℤ) (recv : Recv) (res : SockAddrIn)
  | work

/-- The result is what the handler returns. -/
def MasterServer.step (cbHashfunc : Str → ℤ) (s : MasterServer) : Event → Option (ℤ × MasterServer)
  | .newConn cfd clientAddr => some (s.dealwithNewConn cfd clientAddr)
  | .client clientUdpAddr bytes stale => some (s.dealwithClient clientUdpAddr bytes stale)
  | .cacheServer cfd recv res => s.dealwithCacheServer cfd recv res
  | .work => s.run cbHashfunc

namespace MasterServer
variable {cbHashfunc : Str → ℤ} {s s' : MasterServer} {e : Event} {r : ℤ}

/-- Only `Register` and the handler of a disconnection change the tables of the registered
servers. -/
inductive Turn (cbHashfunc : Str → ℤ) (s : MasterServer) (r : ℤ) (s' : MasterServer) : Prop
  | frame (hlist : s'.connectList = s.connectList) (hlisten : s'.listenMap = s.listenMap)
  | disconnected (cfd : ℤ) (a : Str) (connectedMap : OrdMap ℤ Str)
    (hex : s.connectList.isExisted a = true)
    (h : MasterServer.disconnected { s with connectedMap := connectedMap } cfd a = some (r, s'))
  | register (rest : List Request) (cacheServer : SockAddrIn) (cfd : ℤ)
    (h : MasterServer.register cbHashfunc { s with workqueue := rest } cacheServer cfd =
      some (r, s'))

theorem append_eq (s : MasterServer) (request : Request) :
    ∃ workqueue, (s.append request).2 = { s with workqueue := workqueue } := by
  unfold append
  split_ifs
  · exact ⟨s.workqueue, rfl⟩
  · exact ⟨_, rfl⟩

theorem of_getDistribute {clientAddr : SockAddrIn} {key : Str}
    (h : s.getDistribute cbHashfunc clientAddr key = some (r, s')) :
    ∃ replies, s' = { s with replies := replies } := by
  obtain ⟨ipPort, -, h⟩ := Option.bind_eq_some_iff.mp h
  dsimp only at h
  split_ifs at h
  · obtain ⟨backup, -, h⟩ := Option.bind_eq_some_iff.mp h
    obtain ⟨-, rfl⟩ := Prod.mk.inj (Option.some.inj h)
    exact ⟨_, rfl⟩
  · obtain ⟨-, rfl⟩ := Prod.mk.inj (Option.some.inj h)
    exact ⟨_, rfl⟩

theorem turn_of_step (h : s.step cbHashfunc e = some (r, s')) : Turn cbHashfunc s r s' := by
  cases e with
  | newConn cfd clientAddr =>
    obtain ⟨-, rfl⟩ := Prod.mk.inj (Option.some.inj h)
    exact .frame rfl rfl
  | client clientUdpAddr bytes stale =>
    have hs' : (s.append _).2 = s' := congrArg Prod.snd (Option.some.inj h)
    obtain ⟨workqueue, hw⟩ := s.append_eq _
    rw [hw] at hs'
    subst hs'
    exact .frame rfl rfl
  | cacheServer cfd recv res =>
    cases recv with
    | failed =>
      obtain ⟨-, rfl⟩ := Prod.mk.inj (Option.some.inj h)
      exact .frame rfl rfl
    | closed =>
      simp only [step, dealwithCacheServer] at h
      split_ifs at h with hex
      · exact .disconnected cfd _ _ hex h
      · obtain ⟨-, rfl⟩ := Prod.mk.inj (Option.some.inj h)
        exact .frame rfl rfl
    | data buf =>
      have hs' : (append { s with connectedMap := (s.connectedMap.index cfd []).2 } _).2 = s' :=
        congrArg Prod.snd (Option.some.inj h)
      obtain ⟨workqueue, hw⟩ := append_eq { s with connectedMap := (s.connectedMap.index cfd []).2 } _
      rw [hw] at hs'
      subst hs'
      exact .frame rfl rfl
  | work =>
    simp only [step, MasterServer.run] at h
    cases hw : s.workqueue with
    | nil =>
      rw [hw] at h
      obtain ⟨-, rfl⟩ := Prod.mk.inj (Option.some.inj h)
      exact .frame rfl rfl
    | cons request rest =>
      rw [hw] at h
      dsimp only at h
      cases hr : request.requestType with
      | getDistribute =>
        rw [hr] at h
        obtain ⟨replies, rfl⟩ := of_getDistribute h
        exact .frame rfl rfl
      | register =>
        rw [hr] at h
        exact .register rest _ _ h

end MasterServer
end DCache.Master
