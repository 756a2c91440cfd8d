import DCache.LRU.Cache
import DCache.Ring.ConHash

/-! The cache server (`cache_server/cache_service.cpp`). A call runs to completion, so the mutexes
are left out; what `socket`, `connect` and `send` return is an input, and the calls made are an
output. `none` is the use of a released pointer, a read of an absent key or a read behind the end
of a buffer. -/
namespace DCache
open DCache.Lib DCache.Ring

/-- An entry of `CacheServer::m_workqueue`. -/
structure CacheServer.Request where
  requestType : Str
  clientAddr : Str
  key : Str
  value : Str
  cfd : ℤ
deriving DecidableEq

structure CacheServer where
  lru : LRU.Cache Str Str
  lruBackup : LRU.Cache Str Str
  state : ℤ
  backupInvalid : ℤ
  cacheServerHash : ConHash
  localAddr : Str
  connectedMap : OrdMap ℤ Str
  workqueue : List CacheServer.Request

namespace CacheServer

/-- `lru_size` -/
def lruSize : ℕ := 5

/-- `m_max_requests` -/
def maxRequests : ℕ := 20

def new : CacheServer where
  lru := .new lruSize (by decide)
  lruBackup := .new lruSize (by decide)
  state := 0
  backupInvalid := 0
  cacheServerHash := .new
  localAddr := []
  connectedMap := .empty
  workqueue := []

/-- The address that `startListen` binds and remembers as `local_addr`. -/
def listenSockAddr (port : ℤ) : SockAddrIn := ⟨afInet, htons port, .any⟩

def startListen (s : CacheServer) (port : ℤ) : CacheServer :=
  { s with localAddr := sockAddr2str (listenSockAddr port) }

/-- What `connToMaster` sends to register. -/
def registration (port : ℤ) : Str := formatInt port

section Requests

/-- The answer to a read of a table: the text that is sent. -/
def lookup (c : LRU.Cache Str Str) (key : Str) : Option (Str × LRU.Cache Str Str) :=
  if c.hasKey key && c.isDirty key then some (Code.dirtyData, c)
  else if c.hasKey key then do
    let (value, c) ← c.get key
    some (cstr (Code.getSuccess ++ [newline] ++ value), c)
  else some (Code.dataNotExist, c)

/-- A write to a table is refused when the key is dirty. -/
def store (c : LRU.Cache Str Str) (key value : Str) : LRU.Cache Str Str :=
  if c.hasKey key && c.isDirty key then c else c.set key value

/-- `sent` says whether `send` succeeds; the second component is what it sends. -/
def getValue (s : CacheServer) (key : Str) (sent : Bool) : Option (ℤ × Str × CacheServer) := do
  let (msg, lru) ← lookup s.lru key
  some (if sent then 0 else -1, msg, { s with lru := lru })

def setValue (s : CacheServer) (key value : Str) : ℤ × CacheServer :=
  (0, { s with lru := store s.lru key value })

def getBackupValue (s : CacheServer) (key : Str) (sent : Bool) :
    Option (ℤ × Str × CacheServer) := do
  let (msg, lruBackup) ← lookup s.lruBackup key
  some (if sent then 0 else -1, msg, { s with lruBackup := lruBackup })

def setBackupValue (s : CacheServer) (key value : Str) : ℤ × CacheServer :=
  (0, { s with lruBackup := store s.lruBackup key value })

def append (s : CacheServer) (request : Request) : Bool × CacheServer :=
  if s.workqueue.length ≥ maxRequests then (false, s)
  else (true, { s with workqueue := s.workqueue ++ [request] })

/-- One turn of a worker's loop; the text that it sends, if any. -/
def run (s : CacheServer) (sent : Bool) : Option (Option Str × CacheServer) :=
  match s.workqueue with
  | [] => some (none, s)
  | request :: rest =>
    let s := { s with workqueue := rest }
    if request.requestType = Code.setValue then
      some (none, (s.setValue request.key request.value).2)
    else if request.requestType = Code.getValue then
      (s.getValue request.key sent).map (fun o => (some o.2.1, o.2.2))
    else if request.requestType = Code.setBackupValue then
      some (none, (s.setBackupValue request.key request.value).2)
    else if request.requestType = Code.getBackupValue then
      (s.getBackupValue request.key sent).map (fun o => (some o.2.1, o.2.2))
    else some (none, { s with connectedMap := (s.connectedMap.index request.cfd []).2 })

end Requests

section Move
variable (cbHashfunc : Str → ℤ)

def updateHash (s : CacheServer) (ipPorts : List Str) : Option CacheServer := do
  let hash ← ipPorts.foldlM (fun c ipPort => c.conhashAddCacheServer cbHashfunc ipPort) ConHash.new
  some { s with cacheServerHash := hash }

/-- What the system calls of one turn of the loop in `move` return, and what the uninitialised
address of `str2sock_addr` holds. -/
structure Net where
  cfd : ℤ
  res : SockAddrIn
  connected : Bool
  sent : Bool

inductive SysCall
  | socket (cfd : ℤ)
  | close (cfd : ℤ)
  | connect (cfd : ℤ) (addr : SockAddrIn) (ok : Bool)
  | send (cfd : ℤ) (buf : Str) (ok : Bool)
deriving DecidableEq

/-- The message that hands a key over. -/
def moveMsg (key : Str) : Str := cstr (Code.setValue ++ [newline] ++ key)

/-- One turn: the calls made, whether the loop goes on, and the state. `cur_addr` is a variable of
the turn, so it is empty when it is compared. -/
def moveKey (s : CacheServer) (net : Net) (key : Str) :
    Option (List SysCall × Bool × CacheServer) :=
  if s.lru.hasKey key then do
    let (_, lru) ← s.lru.get key
    let s := { s with lru := lru }
    let newAddr ← s.cacheServerHash.conhashGetCacheServer cbHashfunc key
    if newAddr ≠ s.localAddr then
      let calls := if newAddr ≠ [] then [.socket net.cfd, .close net.cfd,
          .connect net.cfd (str2sockAddr net.res newAddr) net.connected]
        else [.socket net.cfd]
      if newAddr ≠ [] ∧ net.connected = false then some (calls, false, s)
      else
        let calls := calls ++ [.send net.cfd (moveMsg key) net.sent]
        if net.sent then some (calls, true, { s with lru := s.lru.setDirty key })
        else some (calls, false, s)
    else some ([.socket net.cfd], true, s)
  else some ([.socket net.cfd], true, s)

/-- The loop over the snapshot of keys; every call is listed with the key of its turn. -/
def moveLoop (net : ℕ → Net) : ℕ → CacheServer → List Str →
    Option (List (Str × SysCall) × CacheServer)
  | _, s, [] => some ([], s)
  | i, s, key :: keys => do
    let (calls, more, s) ← s.moveKey cbHashfunc (net i) key
    let calls := calls.map (fun call => (key, call))
    if more then do
      let (rest, s) ← moveLoop net (i + 1) s keys
      some (calls ++ rest, s)
    else some (calls, s)

def move (s : CacheServer) (net : ℕ → Net) : Option (List (Str × SysCall) × CacheServer) := do
  let keys := if s.state = 0 then s.lru.lruKeysOneshot else s.lruBackup.lruKeysOneshot
  let (calls, s) ← moveLoop cbHashfunc net 0 s keys
  if s.state = 0 then some (calls, s) else some (calls, { s with state := 0, backupInvalid := 1 })

end Move

section Update

/-- A write as `update` formats it. -/
def writeMsg (opt key value : Str) : Str :=
  opt ++ [newline] ++ cstr key ++ [newline] ++ cstr value

def updateLoop (cfd : ℤ) (sent : ℕ → Bool) : ℕ → CacheServer → List Str →
    Option (List SysCall × CacheServer)
  | _, s, [] => some ([], s)
  | i, s, key :: keys => do
    let (value, lru) ← s.lru.get key
    let (calls, s) ← updateLoop cfd sent (i + 1) { s with lru := lru } keys
    some (.send cfd (writeMsg Code.setBackupValue key value) (sent i) :: calls, s)

/-- `sent` says which of the sends in the loop succeed; no result of a `send` is looked at. -/
def update (s : CacheServer) (net : Net) (sent : ℕ → Bool) (ipPort : Str) :
    Option (List SysCall × CacheServer) :=
  let calls := [.socket net.cfd, .connect net.cfd (str2sockAddr net.res ipPort) net.connected]
  if net.connected then do
    let (rest, s) ← updateLoop net.cfd sent 0 s s.lru.lruKeysOneshot
    some (calls ++ .send net.cfd Code.backupInvalid net.sent :: rest, s)
  else some (calls, s)

end Update

section Messages

/-- A thread that a message starts. -/
inductive Thread
  | move
  | update (ipPort : Str)
deriving DecidableEq

/-- The thread that is started; the source has no `return`. -/
def recoverBackup (s : CacheServer) : Option Thread × CacheServer :=
  (some .move, { s with state := 1 })

/-- The loop that collects the lines of an address list; an unfinished line is dropped. -/
def ipPortLines : Str → Str → List Str
  | _, [] => []
  | temp, b :: s => if b = newline then temp :: ipPortLines [] s else ipPortLines (temp ++ [b]) s

/-- The loop `while (buf[i] != '\n')`: the text up to the newline, which has to be there. -/
def untilNewline (buf : Str) : Option Str :=
  if newline ∈ buf then some (buf.takeWhile (fun b => b ≠ newline)) else none

variable (cbHashfunc : Str → ℤ)

/-- The 0 stands for a `return` that the source does not have, and has no meaning. -/
def dealwithMasterMsg (s : CacheServer) (recv : Recv) : Option (ℤ × Option Thread × CacheServer) :=
  match recv with
  | .failed => some (-1, none, s)
  | .closed => some (-1, none, s)
  | .data bytes => do
    let buf := bytes ++ List.replicate (bufSize - bytes.length) 0
    let temp ← untilNewline buf
    let i := temp.length
    if temp = Code.moveData then some (0, some .move, s)
    else if temp = Code.updateHash then do
      let s ← s.updateHash cbHashfunc (ipPortLines [] (bytes.drop (i + 1)))
      some (0, none, s)
    else if temp = Code.updateBackup then do
      let temp ← untilNewline (buf.drop (i + 1))
      some (0, some (.update temp), s)
    else if temp = Code.recoverBackup then
      let (thread, s) := s.recoverBackup
      some (0, thread, s)
    else some (0, none, s)

/-- `stale` is what the buffer holds behind the received bytes. Here too the 0 stands for a `return`
that is missing. -/
def dealwithClientMsg (s : CacheServer) (cfd : ℤ) (recv : Recv) (stale : Str) :
    Option (ℤ × CacheServer) :=
  match recv with
  | .closed => some (-1, { s with connectedMap := (s.connectedMap.index cfd []).2.erase cfd })
  | .failed => some (-1, s)
  | .data bytes => do
    let opt ← untilNewline (bytes ++ stale)
    if opt = Code.backupInvalid then some (0, s)
    else
      let i := opt.length + 1
      let key := (bytes.drop i).takeWhile (fun b => b ≠ newline)
      let i := i + key.length
      let value := if opt = Code.setValue ∨ opt = Code.setBackupValue then
          (bytes.drop i).takeWhile (fun b => b ≠ newline)
        else []
      let (clientAddr, connectedMap) := s.connectedMap.index cfd []
      let s := { s with connectedMap := connectedMap }
      let (ret, s) := s.append ⟨opt, clientAddr, key, value, cfd⟩
      some (if ret then 0 else -1, s)

variable {cbHashfunc} in
/-- A message of the master changes the ring and `state`, and nothing else. -/
theorem of_dealwithMasterMsg {s s' : CacheServer} {recv : Recv} {ret : ℤ} {thread : Option Thread}
    (h : s.dealwithMasterMsg cbHashfunc recv = some (ret, thread, s')) :
    ∃ c state, s' = { s with cacheServerHash := c, state := state } := by
  cases recv with
  | failed =>
    cases h
    exact ⟨_, _, rfl⟩
  | closed =>
    cases h
    exact ⟨_, _, rfl⟩
  | data bytes =>
    unfold dealwithMasterMsg at h
    obtain ⟨temp, -, h⟩ := Option.bind_eq_some_iff.mp h
    dsimp only at h
    split_ifs at h
    · cases h
      exact ⟨_, _, rfl⟩
    · obtain ⟨s₁, hupdate, h⟩ := Option.bind_eq_some_iff.mp h
      obtain ⟨c, -, hc⟩ := Option.bind_eq_some_iff.mp hupdate
      cases h
      cases hc
      exact ⟨c, _, rfl⟩
    · obtain ⟨ipPort, -, h⟩ := Option.bind_eq_some_iff.mp h
      cases h
      exact ⟨_, _, rfl⟩
    · cases h
      exact ⟨_, _, rfl⟩
    · cases h
      exact ⟨_, _, rfl⟩

end Messages

end CacheServer
end DCache
