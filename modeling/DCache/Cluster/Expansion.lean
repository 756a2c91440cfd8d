import DCache.Cache.Stale
import DCache.Master.Schedule

/-! A cluster in which servers join while a client reads one key. The master and the cache servers
go on thread by thread; the client asks the master once, and goes through the addresses of the
reply until one of the servers answers otherwise than that it has no valid value. -/
namespace DCache.Expansion
open DCache.Lib
open CacheServer (Net IsText wireName)

/-- What does not change in a run: where the processes listen, the address of the client's socket
and the key that it reads. -/
structure Setting where
  cbHashfunc : Str → ℤ
  host : Str → ℤ
  clientAddr : SockAddrIn
  key : Str

/-- How far the read has come: the client asks, a worker of the master takes the request and looks
up an address, the client has a list of addresses to go through, its request waits at the first of
them, a worker takes it, an answer ends the read. -/
inductive Read
  | idle
  | asked
  | looking (i : ℕ)
  | named (i : ℕ) (addr : Str)
  | reading (addrs : List Str)
  | waiting (addr : Str) (addrs : List Str)
  | served (i : ℕ) (addr : Str) (addrs : List Str)
  | ended (answer : Str)

/-- `server g` is the process that is or will be at the other end of connection `g` of the master;
it has read the first `received g` messages that the master sent there. -/
structure System where
  master : MasterThreads.System
  server : ℤ → CacheThreads.System
  received : ℤ → ℕ
  read : Read

/-- A process reads the next message of the master, or one that another process than the client
sent to it. The thread that a message starts has a number `i`. -/
inductive Event
  | master (e : MasterThreads.Event)
  | deliver (g : ℤ) (i : ℕ) (net : ℕ → Net) (sent : ℕ → Bool)
  | recv (g cfd : ℤ) (bytes stale : Str)
  | dequeue (g : ℤ) (i : ℕ) (sent : Bool)
  | step (g : ℤ) (i : ℕ)
  | ask (stale : Str)
  | get (cfd : ℤ) (stale : Str)

/-- The addresses of a reply, one on a line. -/
def addresses (text : Str) : List Str := text.splitOn newline

/-- The request of a client that reads `key`. -/
def getMsg (key : Str) : Str := Code.getValue ++ newline :: cstr key

/-- The answer that carries `value`. -/
def success (value : Str) : Str := Code.getSuccess ++ newline :: value

namespace Read
variable (x : Setting) (m : MasterThreads.System)

/-- The worker looks up an address. -/
def looked (i : ℕ) : Read :=
  match m.thread (some i) with
  | ⟨none, .call (.owner key) _⟩ =>
    match m.mem.masterHash.conhashGetCacheServer x.cbHashfunc key with
    | some addr => .named i (wireName addr)
    | none => .looking i
  | _ => .looking i

/-- The worker replies. -/
def replied (i : ℕ) (addr : Str) : Read :=
  match m.thread (some i) with
  | ⟨none, .call (.reply _ msg) _⟩ => .reading (addresses (cstr msg))
  | _ => .named i addr

/-- The part of the master in the read. -/
def afterMaster : MasterThreads.Event → Read → Read
  | .dequeue i, .asked =>
    match m.mem.workqueue with
    | [] => .asked
    | request :: _ =>
      if (m.thread (some i)).isDone ∧ request.requestType = .getDistribute then .looking i
      else .asked
  | .step i, .looking j => if i = some j then looked x m j else .looking j
  | .step i, .named j addr => if i = some j then replied m j addr else .named j addr
  | _, r => r

/-- A worker of the server `g` takes the client's request. -/
def afterDequeue (g : ℤ) (i : ℕ) (p : CacheThreads.System) : Read → Read
  | .waiting addr addrs =>
    match p.mem.server.workqueue with
    | [] => .waiting addr addrs
    | request :: _ =>
      if CacheThreads.isDone (p.code i) ∧ request.requestType = Code.getValue ∧ x.host addr = g then
        .served i addr addrs
      else .waiting addr addrs
  | r => r

/-- What the worker sends is the answer; `DIRTY_DATA` and `DATA_NOT_EXIST` send the client on. -/
def afterStep (g : ℤ) : CacheThreads.Obs → Read → Read
  | .acted i ⟨.sysCall (.send _ msg _), _⟩, .served j addr addrs =>
    if i = j ∧ x.host addr = g then
      if msg = Code.dirtyData ∨ msg = Code.dataNotExist then .reading addrs else .ended msg
    else .served j addr addrs
  | _, r => r

end Read

namespace System
variable (x : Setting) (s : System)

/-- What the master sent on a connection and the server did not read yet. -/
def pending (g : ℤ) : List Str := (s.master.mem.outbox g).drop (s.received g)

def setServer (g : ℤ) (p : CacheThreads.System) : System :=
  { s with server := Function.update s.server g p }

/-- A new connection has no messages on it. -/
def afterMaster (e : MasterThreads.Event) (m : MasterThreads.System) : System :=
  { s with
    master := m
    received := match e with
      | .newConn cfd _ => if (s.master.thread none).isDone then Function.update s.received cfd 0
          else s.received
      | _ => s.received
    read := s.read.afterMaster x s.master e }

end System

/-- The code of a thread that a message of the master starts. -/
def threadCode (localAddr : Str) (net : ℕ → Net) (sent : ℕ → Bool) :
    CacheServer.Thread → CacheThreads.Prog
  | .move => CacheThreads.move localAddr net
  | .update ipPort => CacheThreads.update (net 0) sent ipPort

/-- The event loop goes on with `server`, and starts a thread if there is one to start. -/
def spawn (p : CacheThreads.System) (server : CacheServer) (thread : Option CacheServer.Thread)
    (i : ℕ) (net : ℕ → Net) (sent : ℕ → Bool) : CacheThreads.System where
  mem := { p.mem with server := server }
  code := match thread with
    | none => p.code
    | some t => Function.update p.code i (threadCode server.localAddr net sent t)

section Step
variable (x : Setting) (s : System)

/-- A number that is in use starts no thread. -/
def deliver (g : ℤ) (i : ℕ) (net : ℕ → Net) (sent : ℕ → Bool) : Option (Unit × System) :=
  match s.pending g with
  | [] => some ((), s)
  | msg :: _ =>
    if CacheThreads.isDone ((s.server g).code i) then
      ((s.server g).mem.server.dealwithMasterMsg x.cbHashfunc (.data msg)).map fun o =>
        ((), { s.setServer g (spawn (s.server g) o.2.2 o.2.1 i net sent) with
          received := Function.update s.received g (s.received g + 1) })
    else some ((), s)

def recv (g cfd : ℤ) (bytes stale : Str) : Option System :=
  ((s.server g).mem.server.dealwithClientMsg cfd (.data bytes) stale).map fun o =>
    s.setServer g { s.server g with mem := { (s.server g).mem with server := o.2 } }

def step : Event → Option (Unit × System)
  | .master e => (MasterThreads.step x.cbHashfunc s.master e).map fun o =>
    ((), s.afterMaster x e o.2)
  | .deliver g i net sent => deliver x s g i net sent
  | .recv g cfd bytes stale => (recv s g cfd bytes stale).map fun s => ((), s)
  | .dequeue g i sent =>
    (CacheThreads.step x.cbHashfunc (s.server g) (.dequeue i sent)).map fun o =>
      ((), { s.setServer g o.2 with read := s.read.afterDequeue x g i (s.server g) })
  | .step g i => (CacheThreads.step x.cbHashfunc (s.server g) (.step i)).map fun o =>
    ((), { s.setServer g o.2 with read := s.read.afterStep x g o.1 })
  | .ask stale =>
    match s.read with
    | .idle =>
      if (s.master.thread none).isDone then
        (MasterThreads.step x.cbHashfunc s.master (.client x.clientAddr (x.key ++ [0]) stale)).map
          fun o => ((), { s with master := o.2, read := .asked })
      else some ((), s)
    | _ => some ((), s)
  | .get cfd stale =>
    match s.read with
    | .reading (addr :: addrs) => (recv s (x.host addr) cfd (getMsg x.key) stale).map fun s =>
      ((), { s with read := .waiting addr addrs })
    | _ => some ((), s)

end Step
end DCache.Expansion
