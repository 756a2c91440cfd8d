import Mathlib.Data.Finset.Basic
import DCache.Lib.Run
import DCache.Cache.Server

/-! The event loop of a cache server: its descriptors, and those that epoll reports. Only a
descriptor in the epoll set gets its messages read. -/
namespace DCache
open DCache.Lib

/-- `masterSockfd` and `lfd` are `none` as long as they are not assigned. `ended` is a history
variable: the descriptors whose end of stream was handled and that were not opened again. -/
structure EventLoop where
  server : CacheServer
  masterSockfd : Option ℤ
  lfd : Option ℤ
  watched : Finset ℤ
  openFds : Finset ℤ
  ended : Finset ℤ

inductive LoopEvent
  | connToMaster (fd : ℤ) (connected : Bool)
  | startListen (fd port : ℤ) (bound listening : Bool)
  | listenMsg (cfd : ℤ) (addr : SockAddrIn)
  | masterMsg (recv : Recv)
  | clientMsg (cfd : ℤ) (recv : Recv) (stale : Str)
  | work (sent : Bool)

namespace EventLoop

def new : EventLoop := ⟨.new, none, none, ∅, ∅, ∅⟩

/-- A system call returned `fd`. -/
def opened (s : EventLoop) (fd : ℤ) : EventLoop :=
  if 0 ≤ fd then { s with openFds := insert fd s.openFds, ended := s.ended.erase fd } else s

def epollAddfd (s : EventLoop) (fd : ℤ) : EventLoop := { s with watched := insert fd s.watched }

def epollDelfd (s : EventLoop) (fd : ℤ) : EventLoop := { s with watched := s.watched.erase fd }

def connToMaster (s : EventLoop) (fd : ℤ) (connected : Bool) : ℤ × EventLoop :=
  let s := { s.opened fd with masterSockfd := some fd }
  if connected then (0, s.epollAddfd fd) else (-1, s)

def startListen (s : EventLoop) (fd port : ℤ) (bound listening : Bool) : ℤ × EventLoop :=
  let s := { s.opened fd with lfd := some fd }
  if fd = -1 then (-1, s)
  else if bound = false ∨ listening = false then (-1, s)
  else
    let s := s.epollAddfd fd
    (0, { s with server := s.server.startListen port })

/-- `accept` returned `cfd` for a peer at `addr`. -/
def dealwithListenMsg (s : EventLoop) (cfd : ℤ) (addr : SockAddrIn) : ℤ × EventLoop :=
  if cfd < 0 then (-1, s)
  else
    let s := s.opened cfd
    (0, { s with server := { s.server with
      connectedMap := s.server.connectedMap.tryInsert cfd (sockAddr2str addr) } })

variable (cbHashfunc : Str → ℤ)

/-- The threads that a message starts do not touch the descriptors of the loop. -/
def dealwithMasterMsg (s : EventLoop) (recv : Recv) : Option (ℤ × EventLoop) := do
  let (ret, _, server) ← s.server.dealwithMasterMsg cbHashfunc recv
  let s := { s with server := server }
  match recv, s.masterSockfd with
  | .closed, some fd => some (ret, { s.epollDelfd fd with ended := insert fd s.ended })
  | _, _ => some (ret, s)

def dealwithClientMsg (s : EventLoop) (cfd : ℤ) (recv : Recv) (stale : Str) :
    Option (ℤ × EventLoop) := do
  let (ret, server) ← s.server.dealwithClientMsg cfd recv stale
  let s := { s with server := server }
  match recv with
  | .closed => some (ret, { s.epollDelfd cfd with ended := insert cfd s.ended })
  | _ => some (ret, s)

def step (s : EventLoop) : LoopEvent → Option (ℤ × EventLoop)
  | .connToMaster fd connected => some (s.connToMaster fd connected)
  | .startListen fd port bound listening => some (s.startListen fd port bound listening)
  | .listenMsg cfd addr => some (s.dealwithListenMsg cfd addr)
  | .masterMsg recv => s.dealwithMasterMsg cbHashfunc recv
  | .clientMsg cfd recv stale => s.dealwithClientMsg cfd recv stale
  | .work sent => (s.server.run sent).map fun o => (0, { s with server := o.2 })

/-- Events that can happen: the program connects once and listens once, a system call returns a
descriptor that is not open, and epoll reports descriptors that are watched. -/
def Possible (s : EventLoop) : LoopEvent → Prop
  | .connToMaster fd connected =>
    s.masterSockfd = none ∧ fd ∉ s.openFds ∧ (connected = true → 0 ≤ fd)
  | .startListen fd _ _ _ => s.lfd = none ∧ fd ∉ s.openFds ∧ (fd = -1 ∨ 0 ≤ fd)
  | .listenMsg cfd _ => (∃ f ∈ s.watched, s.lfd = some f) ∧ cfd ∉ s.openFds
  | .masterMsg _ => ∃ f ∈ s.watched, s.masterSockfd = some f
  | .clientMsg cfd _ _ => cfd ∈ s.watched ∧ s.masterSockfd ≠ some cfd ∧ s.lfd ≠ some cfd
  | .work _ => True

/-- The watched descriptors are those of the connections, besides the loop's own two, and one whose
end was handled is neither watched nor connected nor open. -/
structure Watched (s : EventLoop) : Prop where
  connected : ∀ f, s.server.connectedMap.contains f = true → f ∈ s.watched
  owned : ∀ f ∈ s.watched,
    s.lfd = some f ∨ s.masterSockfd = some f ∨ s.server.connectedMap.contains f = true
  ended : ∀ f ∈ s.ended,
    f ∉ s.watched ∧ s.server.connectedMap.contains f = false ∧ f ∉ s.openFds

/-- No connection is accepted, and the master's end of stream is not handled. -/
def Harmless : LoopEvent → Prop
  | .listenMsg cfd _ => cfd < 0
  | .masterMsg .closed => False
  | _ => True

section Invariant

/-- A loop that has accepted nothing. -/
structure Idle (s : EventLoop) : Prop where
  owned : ∀ f ∈ s.watched, s.lfd = some f ∨ s.masterSockfd = some f
  subset : s.watched ⊆ s.openFds
  unconnected : ∀ f, s.server.connectedMap.contains f = false
  workqueue : s.server.workqueue = []
  ended : s.ended = ∅

variable {cbHashfunc : Str → ℤ} {s s' : EventLoop} {e : LoopEvent} {r : ℤ}

theorem Idle.new : Idle .new := ⟨nofun, Finset.empty_subset _, fun _ => rfl, rfl, rfl⟩

theorem Idle.watched (hs : Idle s) : Watched s where
  connected f hf := by
    rw [hs.unconnected] at hf
    cases hf
  owned f hf := (hs.owned f hf).imp_right Or.inl
  ended f hf := by
    rw [hs.ended] at hf
    cases hf

theorem mem_openFds_opened (s : EventLoop) {fd : ℤ} (h : 0 ≤ fd) : fd ∈ (s.opened fd).openFds := by
  rw [opened, if_pos h]
  exact Finset.mem_insert_self fd _

@[simp] theorem watched_opened (s : EventLoop) (fd : ℤ) : (s.opened fd).watched = s.watched := by
  unfold opened
  split_ifs <;> rfl

@[simp] theorem lfd_opened (s : EventLoop) (fd : ℤ) : (s.opened fd).lfd = s.lfd := by
  unfold opened
  split_ifs <;> rfl

@[simp] theorem masterSockfd_opened (s : EventLoop) (fd : ℤ) :
    (s.opened fd).masterSockfd = s.masterSockfd := by
  unfold opened
  split_ifs <;> rfl

theorem Idle.opened (hs : Idle s) (fd : ℤ) : Idle (s.opened fd) := by
  unfold EventLoop.opened
  split_ifs
  · exact ⟨hs.owned, hs.subset.trans (Finset.subset_insert fd _), hs.unconnected, hs.workqueue, by
      rw [hs.ended, Finset.erase_empty]⟩
  · exact hs

/-- A new descriptor of the loop itself may be watched. -/
theorem Idle.epollAddfd (hs : Idle s) {fd : ℤ} (hfd : fd ∈ s.openFds)
    (hown : s.lfd = some fd ∨ s.masterSockfd = some fd) : Idle (s.epollAddfd fd) := by
  refine ⟨fun f hf => ?_, Finset.insert_subset hfd hs.subset, hs.unconnected, hs.workqueue, hs.ended⟩
  rcases Finset.mem_insert.mp hf with rfl | hf
  · exact hown
  · exact hs.owned f hf

theorem Idle.step (hs : Idle s) (hp : Possible s e) (he : Harmless e)
    (h : s.step cbHashfunc e = some (r, s')) : Idle s' := by
  cases e with
  | connToMaster fd connected =>
    obtain ⟨hnone, hfd, hnn⟩ := hp
    have hs' : (s.connToMaster fd connected).2 = s' := congrArg Prod.snd (Option.some.inj h)
    have ho := hs.opened fd
    have hs₁ : Idle { s.opened fd with masterSockfd := some fd } := by
      refine ⟨fun f hf => Or.inl ?_, ho.subset, ho.unconnected, ho.workqueue, ho.ended⟩
      apply (ho.owned f hf).resolve_right
      rw [masterSockfd_opened, hnone]
      exact nofun
    rw [← hs', connToMaster]
    dsimp only
    split_ifs with hc
    · exact hs₁.epollAddfd (mem_openFds_opened s (hnn hc)) (Or.inr rfl)
    · exact hs₁
  | startListen fd port bound listening =>
    obtain ⟨hnone, hfd, hnn⟩ := hp
    have hs' : (s.startListen fd port bound listening).2 = s' := congrArg Prod.snd (Option.some.inj h)
    have ho := hs.opened fd
    have hs₁ : Idle { s.opened fd with lfd := some fd } := by
      refine ⟨fun f hf => Or.inr ?_, ho.subset, ho.unconnected, ho.workqueue, ho.ended⟩
      apply (ho.owned f hf).resolve_left
      rw [lfd_opened, hnone]
      exact nofun
    rw [← hs', startListen]
    dsimp only
    split_ifs with hneg hfail
    · exact hs₁
    · exact hs₁
    · have hadd := hs₁.epollAddfd (mem_openFds_opened s (hnn.resolve_left hneg)) (Or.inl rfl)
      exact ⟨hadd.owned, hadd.subset, hadd.unconnected, hadd.workqueue, hadd.ended⟩
  | listenMsg cfd addr =>
    have hs' : (s.dealwithListenMsg cfd addr).2 = s' := congrArg Prod.snd (Option.some.inj h)
    have hneg : cfd < 0 := he
    rw [← hs', dealwithListenMsg, if_pos hneg]
    exact hs
  | masterMsg recv =>
    have hopen : recv ≠ .closed := by
      rintro rfl
      exact he
    obtain ⟨⟨ret, thread, server⟩, hserver, h⟩ := Option.bind_eq_some_iff.mp h
    obtain ⟨c, state, hs₁⟩ := CacheServer.of_dealwithMasterMsg hserver
    have hconn : server.connectedMap = s.server.connectedMap := by rw [hs₁]
    have hqueue : server.workqueue = s.server.workqueue := by rw [hs₁]
    have hs' : { s with server := server } = s' := by
      cases recv with
      | closed => exact absurd rfl hopen
      | failed => exact (Prod.mk.inj (Option.some.inj h)).2
      | data bytes => exact (Prod.mk.inj (Option.some.inj h)).2
    subst hs'
    exact ⟨hs.owned, hs.subset, fun f => by rw [← hs.unconnected f, ← hconn], hqueue.trans hs.workqueue,
      hs.ended⟩
  | clientMsg cfd recv stale =>
    obtain ⟨hcfd, hm, hl⟩ := hp
    rcases hs.owned cfd hcfd with h | h
    · exact absurd h hl
    · exact absurd h hm
  | work sent =>
    obtain ⟨o, ho, heq⟩ := Option.map_eq_some_iff.mp h
    obtain ⟨-, rfl⟩ := Prod.mk.inj heq
    rw [CacheServer.run, hs.workqueue] at ho
    obtain rfl := Option.some.inj ho
    exact hs

/-- An accepted connection is not watched, and the master's descriptor stays open. -/
theorem Idle.not_watched (cbHashfunc : Str → ℤ) (hs : Idle s) (hp : Possible s e)
    (he : ¬ Harmless e) : ∃ r s', s.step cbHashfunc e = some (r, s') ∧ ¬ Watched s' := by
  cases e with
  | connToMaster fd connected => exact absurd trivial he
  | startListen fd port bound listening => exact absurd trivial he
  | listenMsg cfd addr =>
    have hneg : ¬ cfd < 0 := he
    refine ⟨_, (s.dealwithListenMsg cfd addr).2, rfl, fun hw => ?_⟩
    rw [dealwithListenMsg, if_neg hneg] at hw
    have hmem := hw.connected cfd ((OrdMap.contains_tryInsert _ _).mpr (Or.inl rfl))
    rw [watched_opened] at hmem
    exact hp.2 (hs.subset hmem)
  | masterMsg recv =>
    cases recv with
    | closed =>
      obtain ⟨f, hf, hm⟩ := hp
      refine ⟨-1, { s.epollDelfd f with ended := insert f s.ended }, ?_, fun hw => ?_⟩
      · change (match Recv.closed, s.masterSockfd with
          | .closed, some fd => some ((-1 : ℤ), { s.epollDelfd fd with ended := insert fd s.ended })
          | _, _ => some (-1, s)) = _
        rw [hm]
      · exact (hw.ended f (Finset.mem_insert_self f _)).2.2 (hs.subset hf)
    | failed => exact absurd trivial he
    | data bytes => exact absurd trivial he
  | clientMsg cfd recv stale => exact absurd trivial he
  | work sent => exact absurd trivial he

end Invariant

section Runs

/-- The epoll set is right in every state that a loop reaches, if and only if the loop accepts no
connection and the master does not close its own. -/
theorem watched_iff (cbHashfunc : Str → ℤ) (es : List LoopEvent)
    (h : Allowed (step cbHashfunc) Possible .new es) :
    (∀ es₁, es₁ <+: es → ∀ rs s, run (step cbHashfunc) .new es₁ = some (rs, s) → Watched s) ↔
      Allowed (step cbHashfunc) (fun _ e => Harmless e) .new es :=
  forall_prefix_iff_allowed (I := Idle) (P := Watched) (fun _ hs => hs.watched)
    (fun _ _ _ _ hs hp he hstep => hs.step hp he hstep)
    (fun _ _ hs hp he => hs.not_watched cbHashfunc hp he) .new h

/-- A client connects to a server that has registered. -/
theorem watched_iff_client :
    let es : List LoopEvent := [.connToMaster 3 true, .startListen 4 6000 true true,
      .listenMsg 5 ⟨afInet, htons 50000, ⟨10, 0, 0, 9⟩⟩]
    (∀ es₁, es₁ <+: es → ∀ rs s, run (step fun _ => 0) .new es₁ = some (rs, s) → Watched s) ↔
      Allowed (step fun _ => 0) (fun _ e => Harmless e) .new es := by
  refine watched_iff (fun _ => 0) _ ⟨⟨rfl, by decide, by decide⟩, ⟨rfl, by decide, by decide⟩,
    ⟨⟨4, by decide, rfl⟩, by decide⟩, trivial⟩

/-- The connection of the client is in the table and not in the epoll set. -/
theorem not_watched_client : ∃ rs s, run (step fun _ => 0) .new [.connToMaster 3 true,
    .startListen 4 6000 true true, .listenMsg 5 ⟨afInet, htons 50000, ⟨10, 0, 0, 9⟩⟩] =
      some (rs, s) ∧ ¬ Watched s := by
  refine ⟨_, _, rfl, fun hw => ?_⟩
  have hmem := hw.connected 5 rfl
  revert hmem
  decide

end Runs
end EventLoop
end DCache
