import DCache.Lib.Run
import DCache.Master.Threads

/-! The master with its threads: the event loop, and workers that take requests from the queue. They
go on step by step, in any order. -/
namespace DCache.MasterThreads
open DCache.Lib DCache.Master

/-- The thread `none` is the event loop. -/
structure System where
  mem : MasterServer
  thread : Option ℕ → Thread

def Thread.done : Thread := ⟨none, .done⟩

def idle (s : MasterServer) : System := ⟨s, fun _ => .done⟩

/-- The first three are what the event loop takes from the network. -/
inductive Event
  | newConn (cfd : ℤ) (clientAddr : SockAddrIn)
  | client (clientUdpAddr : SockAddrIn) (bytes stale : Str)
  | cacheServer (cfd : ℤ) (recv : Recv) (res : SockAddrIn)
  | dequeue (i : ℕ)
  | step (i : Option ℕ)

def Thread.isDone (t : Thread) : Bool :=
  match t.update, t.code with
  | none, .done => true
  | _, _ => false

theorem Thread.isDone_iff {t : Thread} : t.isDone = true ↔ t = .done := by
  obtain ⟨u, c⟩ := t
  cases u <;> cases c <;> simp [isDone, done]

/-- A thread that is busy takes nothing. -/
def step (cbHashfunc : Str → ℤ) (p : System) : Event → Option (Unit × System)
  | .newConn cfd clientAddr =>
    if (p.thread none).isDone then
      some ((), { p with mem := (p.mem.dealwithNewConn cfd clientAddr).2 })
    else some ((), p)
  | .client clientUdpAddr bytes stale =>
    if (p.thread none).isDone then
      some ((), { p with mem := (p.mem.dealwithClient clientUdpAddr bytes stale).2 })
    else some ((), p)
  | .cacheServer cfd recv res =>
    if (p.thread none).isDone then
      some ((), { p with
        thread := Function.update p.thread none ⟨none, dealwithCacheServer cfd recv res⟩ })
    else some ((), p)
  | .dequeue i =>
    match p.mem.workqueue with
    | [] => some ((), p)
    | request :: rest =>
      if (p.thread (some i)).isDone then
        some ((), ⟨{ p.mem with workqueue := rest },
          Function.update p.thread (some i) ⟨none, handle request⟩⟩)
      else some ((), p)
  | .step i =>
    match (p.thread i).step cbHashfunc p.mem with
    | .blocked => some ((), p)
    | .fault => none
    | .ok t mem => some ((), ⟨mem, Function.update p.thread i t⟩)

section Cases
variable {cbHashfunc : Str → ℤ} {p p' : System} {e : Event} {u : Unit}

/-- All that an event can do. -/
inductive Transition (cbHashfunc : Str → ℤ) (p : System) : Event → System → Prop
  | idle (e : Event) : Transition cbHashfunc p e p
  | accepted (cfd : ℤ) (clientAddr : SockAddrIn) :
    Transition cbHashfunc p (.newConn cfd clientAddr)
      { p with mem := (p.mem.dealwithNewConn cfd clientAddr).2 }
  | asked (clientUdpAddr : SockAddrIn) (bytes stale : Str) :
    Transition cbHashfunc p (.client clientUdpAddr bytes stale)
      { p with mem := (p.mem.dealwithClient clientUdpAddr bytes stale).2 }
  | watched (cfd : ℤ) (recv : Recv) (res : SockAddrIn) (hdone : p.thread none = .done) :
    Transition cbHashfunc p (.cacheServer cfd recv res) { p with
      thread := Function.update p.thread none ⟨none, dealwithCacheServer cfd recv res⟩ }
  | taken (i : ℕ) (request : Request) (rest : List Request)
    (hq : p.mem.workqueue = request :: rest) (hdone : p.thread (some i) = .done) :
    Transition cbHashfunc p (.dequeue i) ⟨{ p.mem with workqueue := rest },
      Function.update p.thread (some i) ⟨none, handle request⟩⟩
  | acted {i : Option ℕ} {t : Thread} {mem : MasterServer}
    (hstep : (p.thread i).step cbHashfunc p.mem = .ok t mem) :
    Transition cbHashfunc p (.step i) ⟨mem, Function.update p.thread i t⟩

theorem step_cases (h : step cbHashfunc p e = some (u, p')) : Transition cbHashfunc p e p' := by
  cases e with
  | newConn cfd clientAddr =>
    unfold step at h
    split_ifs at h
    · cases h
      exact .accepted cfd clientAddr
    · cases h
      exact .idle _
  | client clientUdpAddr bytes stale =>
    unfold step at h
    split_ifs at h
    · cases h
      exact .asked clientUdpAddr bytes stale
    · cases h
      exact .idle _
  | cacheServer cfd recv res =>
    unfold step at h
    split_ifs at h with hdone
    · cases h
      exact .watched cfd recv res (Thread.isDone_iff.mp hdone)
    · cases h
      exact .idle _
  | dequeue i =>
    unfold step at h
    cases hq : p.mem.workqueue with
    | nil =>
      simp only [hq] at h
      cases h
      exact .idle _
    | cons request rest =>
      simp only [hq] at h
      split_ifs at h with hdone
      · cases h
        exact .taken i request rest hq (Thread.isDone_iff.mp hdone)
      · cases h
        exact .idle _
  | step i =>
    unfold step at h
    cases ht : (p.thread i).step cbHashfunc p.mem with
    | blocked =>
      simp only [ht] at h
      cases h
      exact .idle _
    | fault =>
      simp only [ht] at h
      cases h
    | ok t mem =>
      simp only [ht] at h
      cases h
      exact .acted ht

end Cases
end DCache.MasterThreads
