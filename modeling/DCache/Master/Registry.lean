import DCache.Lib.Run
import DCache.Ring.Refinement
import DCache.Master.Server

/-! The tables of the master agree: what each handler does to them, and the invariant that
every run keeps. -/
namespace DCache.Master
open DCache.Lib DCache.Ring

namespace MasterServer
variable {cbHashfunc : Str → ℤ} {s : MasterServer} {es es₁ es₂ : List Str} {a : Str} {cfd : ℤ}

/-- Messages `f g` are sent on every connection `g`. -/
def deliver (s : MasterServer) (f : ℤ → List Str) : MasterServer :=
  { s with outbox := fun g => s.outbox g ++ f g }

theorem send_eq (s : MasterServer) (fd : ℤ) (msg : Str) :
    s.send fd msg = s.deliver (fun g => if g = fd then [msg] else []) := by
  have h : (s.send fd msg).outbox = fun g => s.outbox g ++ if g = fd then [msg] else [] := by
    funext g
    by_cases hg : g = fd <;> simp [send, hg]
  rw [deliver, ← h]
  rfl

theorem deliver_deliver (s : MasterServer) (f f' : ℤ → List Str) :
    (s.deliver f).deliver f' = s.deliver (fun g => f g ++ f' g) := by
  simp [deliver, List.append_assoc]

theorem deliver_nil (s : MasterServer) : s.deliver (fun _ => []) = s := by
  simp [deliver]

/-- One message to each of several connections. -/
theorem foldl_send {fds : List ℤ} (hn : fds.Nodup) (s : MasterServer) (msg : Str) :
    fds.foldl (fun s fd => s.send fd msg) s =
      s.deliver (fun g => if g ∈ fds then [msg] else []) := by
  induction fds generalizing s with
  | nil => simp [deliver_nil]
  | cons fd fds ih =>
    obtain ⟨hfd, hn⟩ := List.nodup_cons.mp hn
    rw [List.foldl_cons, ih hn, send_eq, deliver_deliver]
    congr 1
    funext g
    by_cases hg : g = fd
    · subst hg
      simp [hfd]
    · simp [hg]

theorem mem_fds {V : Type} (m : OrdMap ℤ V) {f : ℤ} :
    f ∈ m.entries.map Prod.fst ↔ m.contains f = true := by
  rw [OrdMap.contains_iff]
  simp [← OrdMap.mem_entries]

/-- The hash message goes to every listening server; the log line reads only what is there. -/
theorem updateHash_eq (h : ∀ f, s.listenMap.contains f = true → s.connectedMap.contains f = true) :
    s.updateHash = s.deliver (fun g =>
      if s.listenMap.contains g = true then [updateHashText s.listenMap.values ++ [0]] else []) := by
  have key : ∀ (fds : List ℤ) (s : MasterServer) (msg : Str),
      (∀ f ∈ fds, s.connectedMap.contains f = true) →
      fds.foldl (updateHashTo msg) s = fds.foldl (fun s fd => s.send fd (msg ++ [0])) s := by
    intro fds
    induction fds with
    | nil => exact fun _ _ _ => rfl
    | cons fd fds ih =>
      intro s msg hfds
      obtain ⟨v, hv⟩ := s.connectedMap.contains_iff.mp (hfds fd List.mem_cons_self)
      have hone : updateHashTo msg s fd = s.send fd (msg ++ [0]) := by
        simp only [updateHashTo, send, s.connectedMap.index_of_some [] hv]
      rw [List.foldl_cons, List.foldl_cons, hone]
      exact ih _ _ fun f hf => hfds f (List.mem_cons_of_mem _ hf)
  unfold updateHash
  rw [key _ _ _ fun f hf => h f ((mem_fds _).mp hf), foldl_send (OrdMap.nodup_keys _)]
  simp only [mem_fds]

end MasterServer

/-- What `Register` sends to `g` before it comes to the backups. -/
def announcements (s : MasterServer) (cfd : ℤ) (addr : Str) (g : ℤ) : List Str :=
  (if (s.listenMap.insert cfd addr).contains g = true then
    [updateHashText (s.listenMap.insert cfd addr).values ++ [0]] else []) ++
  if s.listenMap.contains g = true then [moveDataMsg] else []

/-- What `g` is sent about backups when a server joins or leaves: `msg₁` goes to `fd₁` and then
`msg₂` to `fd₂`, unless there are no other servers. -/
def backupMsgs (others : List Str) (fd₁ fd₂ : ℤ) (msg₁ msg₂ : Str) (g : ℤ) : List Str :=
  if others = [] then [] else (if g = fd₁ then [msg₁] else []) ++ if g = fd₂ then [msg₂] else []

theorem of_mem_backupMsgs {others : List Str} {fd₁ fd₂ g : ℤ} {msg₁ msg₂ msg : Str}
    (h : msg ∈ backupMsgs others fd₁ fd₂ msg₁ msg₂ g) :
    others ≠ [] ∧ (g = fd₁ ∧ msg = msg₁ ∨ g = fd₂ ∧ msg = msg₂) := by
  by_cases hne : others = []
  · rw [backupMsgs, if_pos hne] at h
    cases h
  · rw [backupMsgs, if_neg hne] at h
    refine ⟨hne, ?_⟩
    rcases List.mem_append.mp h with h | h
    · split_ifs at h with hg
      · exact Or.inl ⟨hg, List.mem_singleton.mp h⟩
      · cases h
    · split_ifs at h with hg
      · exact Or.inr ⟨hg, List.mem_singleton.mp h⟩
      · cases h

/-- The connections whose registration waits in the queue. -/
def queuedFds (q : List Request) : List ℤ :=
  (q.filter (fun r => r.requestType = .register)).map Request.cfd

/-- The four tables describe the same registrations `es`, in the order in which they came. -/
structure Registry (s : MasterServer) (es : List Str) : Prop where
  list : s.connectList.Rep es
  registed : ∀ a f, s.registedMap.find? a = some f ↔
    s.listenMap.contains f = true ∧ s.connectedMap.find? f = some a
  members : ∀ a, a ∈ es ↔ s.registedMap.contains a = true
  peers : ∀ f g a, s.connectedMap.find? f = some a → s.connectedMap.find? g = some a → f = g
  listening : ∀ f, s.listenMap.contains f = true → s.connectedMap.contains f = true
  opened : ∀ f, f ∈ s.openFds ↔ s.connectedMap.contains f = true
  once : (queuedFds s.workqueue).Nodup
  queued : ∀ f ∈ queuedFds s.workqueue, s.connectedMap.contains f = true ∧ s.listenMap.find? f = none
  registers : ∀ r ∈ s.workqueue, r.requestType = .register
  addresses : ∀ f addr, s.listenMap.find? f = some addr → ∃ sa, addr = sockAddr2str sa
  owned : s.masterHash.Owned

namespace Registry
open MasterServer
variable {cbHashfunc : Str → ℤ} {s : MasterServer} {es es₁ es₂ : List Str} {a b : Str} {cfd f g : ℤ}

theorem new : Registry .new [] where
  list := .new
  registed := by simp [MasterServer.new, OrdMap.contains]
  members := by simp [MasterServer.new, OrdMap.contains]
  peers := by simp [MasterServer.new]
  listening := by simp [MasterServer.new, OrdMap.contains]
  opened := by simp [MasterServer.new, OrdMap.contains]
  once := List.nodup_nil
  queued := nofun
  registers := nofun
  addresses := by simp [MasterServer.new]
  owned := .new

/-- Sending does not touch the tables. -/
theorem deliver (hs : Registry s es) (m : ℤ → List Str) : Registry (s.deliver m) es :=
  ⟨hs.list, hs.registed, hs.members, hs.peers, hs.listening, hs.opened, hs.once, hs.queued,
    hs.registers, hs.addresses, hs.owned⟩

theorem registed_inj (hs : Registry s es) (ha : s.registedMap.find? a = some f)
    (hb : s.registedMap.find? b = some f) : a = b :=
  Option.some.inj (((hs.registed a f).mp ha).2.symm.trans ((hs.registed b f).mp hb).2)

theorem fd_eq_iff (hs : Registry s es) (hb : s.registedMap.find? b = some f)
    (ha : s.registedMap.find? a = some g) : f = g ↔ b = a := by
  constructor
  · rintro rfl
    exact hs.registed_inj hb ha
  · rintro rfl
    exact Option.some.inj (hb.symm.trans ha)

/-- A registered server has a connection and a listening address. -/
theorem entry (hs : Registry s es) (ha : a ∈ es) : ∃ f addr,
    s.registedMap.find? a = some f ∧ s.connectedMap.find? f = some a ∧
      s.listenMap.find? f = some addr := by
  obtain ⟨f, hf⟩ := s.registedMap.contains_iff.mp ((hs.members a).mp ha)
  obtain ⟨hl, hc⟩ := (hs.registed a f).mp hf
  obtain ⟨addr, haddr⟩ := s.listenMap.contains_iff.mp hl
  exact ⟨f, addr, hf, hc, haddr⟩

/-- The registered descriptors are the listening ones, each once. -/
theorem nodup_values (hs : Registry s es) : s.registedMap.values.Nodup := by
  rw [OrdMap.values]
  refine List.Nodup.map_on (fun e he e' he' hee => ?_) ?_
  · have h := s.registedMap.mem_entries.mp he
    have h' := s.registedMap.mem_entries.mp he'
    exact Prod.ext (hs.registed_inj h (hee ▸ h')) hee
  · exact s.registedMap.sorted.imp fun h he => (ne_of_lt h) (congrArg Prod.fst he)

theorem mem_values (hs : Registry s es) :
    f ∈ s.registedMap.values ↔ s.listenMap.contains f = true := by
  rw [OrdMap.mem_values]
  constructor
  · rintro ⟨a, ha⟩
    exact ((hs.registed a f).mp ha).1
  · intro hl
    obtain ⟨a, ha⟩ := s.connectedMap.contains_iff.mp (hs.listening f hl)
    exact ⟨a, (hs.registed a f).mpr ⟨hl, ha⟩⟩

section Join

theorem notMem_of_new (hs : Registry s es) (hc : s.connectedMap.find? cfd = some a)
    (hl : s.listenMap.find? cfd = none) : a ∉ es := by
  intro ha
  obtain ⟨f, addr, -, hf, haddr⟩ := hs.entry ha
  obtain rfl := hs.peers f cfd a hf hc
  rw [hl] at haddr
  cases haddr

/-- The state after the first two parts of `Register`. -/
def registered (s : MasterServer) (a : Str) (cfd : ℤ) (addr : Str) (l : ServerList Str)
    (c : ConHash) : MasterServer :=
  { s with
    registedMap := s.registedMap.insert a cfd
    listenMap := s.listenMap.insert cfd addr
    connectList := l
    masterHash := c }

theorem registered_registry (hs : Registry s es) (hc : s.connectedMap.find? cfd = some a)
    (hl : s.listenMap.find? cfd = none) (hq : cfd ∉ queuedFds s.workqueue) {l : ServerList Str}
    {c : ConHash} (hlist : l.Rep (es ++ [a])) (hown : c.Owned) (sa : SockAddrIn) :
    Registry (registered s a cfd (sockAddr2str sa) l c) (es ++ [a]) where
  list := hlist
  registed b f := by
    simp only [registered, OrdMap.find?_insert, OrdMap.contains]
    by_cases hf : f = cfd
    · subst hf
      simp only [if_true, Option.isSome_some, true_and, hc, Option.some.injEq]
      by_cases hb : b = a
      · simp [hb]
      · rw [if_neg hb]
        refine iff_of_false (fun h => ?_) (fun h => hb h.symm)
        rw [hs.registed, hc] at h
        exact hb (Option.some.inj h.2).symm
    · rw [if_neg hf]
      by_cases hb : b = a
      · subst hb
        rw [if_pos rfl]
        refine iff_of_false (fun h => hf (Option.some.inj h).symm) (fun h => hf ?_)
        exact hs.peers f cfd b h.2 hc
      · rw [if_neg hb]
        exact hs.registed b f
  members b := by
    simp only [registered, List.mem_append, List.mem_singleton, hs.members, OrdMap.contains,
      OrdMap.find?_insert]
    by_cases hb : b = a <;> simp [hb]
  peers := hs.peers
  listening f hf := by
    simp only [registered, OrdMap.contains, OrdMap.find?_insert] at hf ⊢
    by_cases hfc : f = cfd
    · simp [hfc, hc]
    · rw [if_neg hfc] at hf
      exact hs.listening f hf
  opened := hs.opened
  once := hs.once
  queued f hf := by
    refine ⟨(hs.queued f hf).1, ?_⟩
    simp only [registered, OrdMap.find?_insert]
    rw [if_neg]
    · exact (hs.queued f hf).2
    · rintro rfl
      exact hq hf
  registers := hs.registers
  addresses f addr h := by
    simp only [registered, OrdMap.find?_insert] at h
    split_ifs at h
    · exact ⟨sa, (Option.some.inj h).symm⟩
    · exact hs.addresses f addr h
  owned := hown

/-- Who is told to back up to whom after a registration. -/
theorem notifyBackup_eq (hs : Registry s es) (ha : a ∈ es) {addr : Str}
    (haddr : s.listenMap.find? cfd = some addr) :
    ∃ prevFd nextFd nextAddr, s.registedMap.find? (es.prev a ha) = some prevFd ∧
      s.registedMap.find? (es.next a ha) = some nextFd ∧ s.listenMap.find? nextFd = some nextAddr ∧
      s.notifyBackup a cfd = some (if nextFd ≠ cfd ∨ prevFd ≠ cfd then
        (s.send prevFd (updateBackupText addr ++ [0])).send cfd (updateBackupText nextAddr ++ [0])
        else s) := by
  obtain ⟨prevFd, -, hp, -, -⟩ := hs.entry (List.prev_mem es a ha)
  obtain ⟨nextFd, nextAddr, hn, -, hna⟩ := hs.entry (List.next_mem es a ha)
  refine ⟨prevFd, nextFd, nextAddr, hp, hn, hna, ?_⟩
  unfold notifyBackup
  rw [if_pos (hs.list.isExisted.mpr ha), hs.list.getPrev ha, hs.list.getNext ha]
  simp only [Option.bind_eq_bind, Option.bind_some, OrdMap.index_of_some _ _ hp,
    OrdMap.index_of_some _ _ hn]
  split_ifs
  · simp only [OrdMap.index_of_some _ _ haddr, send, OrdMap.index_of_some _ _ hna]
  · rfl

/-- `Register` on a connection that is not registered yet. -/
theorem register_eq (cbHashfunc : Str → ℤ) (hs : Registry s es) (hc : s.connectedMap.find? cfd = some a)
    (hl : s.listenMap.find? cfd = none) (hq : cfd ∉ queuedFds s.workqueue) (sa : SockAddrIn) :
    ∃ l c prevFd nextFd nextAddr, l.Rep (es ++ [a]) ∧ c.Owned ∧
      s.masterHash.conhashAddCacheServer cbHashfunc (sockAddr2str sa) = some c ∧
      (∃ ha, (registered s a cfd (sockAddr2str sa) l c).registedMap.find? ((es ++ [a]).prev a ha) =
          some prevFd ∧
        (registered s a cfd (sockAddr2str sa) l c).registedMap.find? ((es ++ [a]).next a ha) =
          some nextFd) ∧
      (s.listenMap.insert cfd (sockAddr2str sa)).find? nextFd = some nextAddr ∧
      s.register cbHashfunc sa cfd = some (0, (registered s a cfd (sockAddr2str sa) l c).deliver
        fun g => announcements s cfd (sockAddr2str sa) g ++ backupMsgs es prevFd cfd
          (updateBackupText (sockAddr2str sa) ++ [0]) (updateBackupText nextAddr ++ [0]) g) := by
  have ha := hs.notMem_of_new hc hl
  have hr : s.registedMap.find? a = none := by
    simpa [OrdMap.contains] using mt (hs.members a).mpr ha
  obtain ⟨l, hadd, hlist⟩ := hs.list.add ha
  obtain ⟨c, hcon, hown, -⟩ :=
    hs.owned.conhashAddCacheServer cbHashfunc (sockAddr2str sa)
  have hj := hs.registered_registry hc hl hq hlist hown sa
  have hno : s.registedMap.contains a = false := by simp [OrdMap.contains, hr]
  have hmem : a ∈ es ++ [a] := List.mem_append_right _ List.mem_cons_self
  have hreg : s.register cbHashfunc sa cfd =
      (((registered s a cfd (sockAddr2str sa) l c).deliver
        (announcements s cfd (sockAddr2str sa))).notifyBackup a cfd).map (fun s => (0, s)) := by
    unfold MasterServer.register
    simp only [OrdMap.index_of_some _ _ hc, hadd, joined, hcon, hno, Option.bind_eq_bind,
      Option.bind_some, OrdMap.tryInsert_of_none _ _ hr, OrdMap.tryInsert_of_none _ _ hl,
      Bool.false_eq_true, if_false, foldl_send hs.nodup_values, hs.mem_values]
    change ((((registered s a cfd (sockAddr2str sa) l c).updateHash).deliver _).notifyBackup
      a cfd).bind _ = _
    rw [updateHash_eq hj.listening, deliver_deliver, Option.map_eq_bind]
    rfl
  have haddr : ((registered s a cfd (sockAddr2str sa) l c).deliver
      (announcements s cfd (sockAddr2str sa))).listenMap.find? cfd = some (sockAddr2str sa) := by
    simp [MasterServer.deliver, registered]
  obtain ⟨prevFd, nextFd, nextAddr, hp, hn, hna, hb⟩ :=
    (hj.deliver (announcements s cfd (sockAddr2str sa))).notifyBackup_eq hmem haddr
  refine ⟨l, c, prevFd, nextFd, nextAddr, hlist, hown, hcon, ⟨hmem, hp, hn⟩, hna, ?_⟩
  -- the code compares descriptors to see whether the new server is alone
  have hcfd : (registered s a cfd (sockAddr2str sa) l c).registedMap.find? a = some cfd := by
    simp [registered]
  have hnext : nextFd = cfd ↔ es = [] :=
    (hj.fd_eq_iff hn hcfd).trans (next_eq_self_iff hlist.nodup hmem)
  have hprev : prevFd = cfd ↔ es = [] :=
    (hj.fd_eq_iff hp hcfd).trans (prev_eq_self_iff hlist.nodup hmem)
  rw [hreg, hb, Option.map_some]
  by_cases hes : es = []
  · rw [if_neg (by simp [hnext.mpr hes, hprev.mpr hes])]
    simp only [backupMsgs, if_pos hes, List.append_nil]
  · rw [if_pos (Or.inl (mt hnext.mp hes)), send_eq, send_eq, deliver_deliver, deliver_deliver]
    simp only [backupMsgs, if_neg hes]

end Join

section Leave

theorem departed_registry (hs : Registry s (es₁ ++ a :: es₂))
    (hf : s.registedMap.find? a = some cfd) {l : ServerList Str} (hlist : l.Rep (es₁ ++ es₂)) :
    Registry (departed s a cfd l) (es₁ ++ es₂) where
  list := hlist
  registed b f := by
    obtain ⟨hlc, hcc⟩ := (hs.registed a cfd).mp hf
    simp only [departed, OrdMap.find?_erase, OrdMap.contains]
    by_cases hfc : f = cfd
    · subst hfc
      simp only [if_true, Option.isSome_none, Bool.false_eq_true, false_and, iff_false]
      split_ifs with hb
      · simp
      · intro h
        exact hb (hs.registed_inj h hf)
    · simp only [if_neg hfc]
      by_cases hb : b = a
      · subst hb
        rw [if_pos rfl]
        refine iff_of_false (by simp) (fun h => hfc ?_)
        exact hs.peers f cfd b h.2 hcc
      · rw [if_neg hb]
        exact hs.registed b f
  members b := by
    have hn := hs.list.nodup
    have hm := hs.members b
    rw [List.nodup_middle, List.nodup_cons] at hn
    simp only [departed, OrdMap.contains, OrdMap.find?_erase]
    by_cases hb : b = a
    · subst hb
      simp [hn.1]
    · rw [if_neg hb, ← OrdMap.contains, ← hm]
      simp [hb]
  peers f g b h h' := by
    simp only [departed, OrdMap.find?_erase] at h h'
    split_ifs at h h'
    exact hs.peers f g b h h'
  listening f h := by
    simp only [departed, OrdMap.contains, OrdMap.find?_erase] at h ⊢
    split_ifs at h ⊢
    · exact h
    · exact hs.listening f h
  opened f := by
    simp only [departed, OrdMap.contains, OrdMap.find?_erase, Finset.mem_erase]
    split_ifs with h
    · simp [h]
    · simpa [h, OrdMap.contains] using hs.opened f
  once := hs.once
  queued f h := by
    obtain ⟨hlc, -⟩ := (hs.registed a cfd).mp hf
    obtain ⟨hc, hl⟩ := hs.queued f h
    have hne : f ≠ cfd := by
      rintro rfl
      simp [OrdMap.contains, hl] at hlc
    simp only [departed, OrdMap.contains, OrdMap.find?_erase, if_neg hne]
    exact ⟨hc, hl⟩
  registers := hs.registers
  addresses f addr h := by
    simp only [departed, OrdMap.find?_erase] at h
    split_ifs at h
    exact hs.addresses f addr h
  owned := hs.owned

/-- What the end of a registered server's connection brings about. -/
theorem disconnected_eq (hs : Registry s (es₁ ++ a :: es₂))
    (hf : s.registedMap.find? a = some cfd) (ha : a ∈ es₁ ++ a :: es₂) :
    ∃ l prevFd nextFd nextAddr, l.Rep (es₁ ++ es₂) ∧
      s.registedMap.find? ((es₁ ++ a :: es₂).prev a ha) = some prevFd ∧
      s.registedMap.find? ((es₁ ++ a :: es₂).next a ha) = some nextFd ∧
      s.listenMap.find? nextFd = some nextAddr ∧
      s.disconnected cfd a = some (0, (departed s a cfd l).deliver fun g =>
        (if (s.listenMap.erase cfd).contains g = true then
          [updateHashText (s.listenMap.erase cfd).values ++ [0]] else []) ++
        backupMsgs (es₁ ++ es₂) nextFd prevFd recoverBackupMsg (updateBackupText nextAddr) g) := by
  obtain ⟨prevFd, -, hp, -, -⟩ := hs.entry (List.prev_mem _ a ha)
  obtain ⟨nextFd, nextAddr, hn, -, hna⟩ := hs.entry (List.next_mem _ a ha)
  obtain ⟨l, hdel, hlist⟩ := hs.list.del
  refine ⟨l, prevFd, nextFd, nextAddr, hlist, hp, hn, hna, ?_⟩
  have hothers : es₂ ++ es₁ = [] ↔ es₁ ++ es₂ = [] := by simp [and_comm]
  have hnext : nextFd = cfd ↔ es₁ ++ es₂ = [] :=
    ((hs.fd_eq_iff hn hf).trans (next_eq_self_iff hs.list.nodup ha)).trans hothers
  have hprev : prevFd = cfd ↔ es₁ ++ es₂ = [] :=
    ((hs.fd_eq_iff hp hf).trans (prev_eq_self_iff hs.list.nodup ha)).trans hothers
  have hupd := updateHash_eq (hs.departed_registry hf hlist).listening
  unfold MasterServer.disconnected notifyRecover
  simp only [hs.list.getPrev ha, hs.list.getNext ha, hdel, Option.bind_eq_bind, Option.bind_some,
    OrdMap.index_of_some _ _ hp, OrdMap.index_of_some _ _ hn, hnext, hprev, or_self]
  by_cases hes : es₁ ++ es₂ = []
  · simp only [backupMsgs, if_pos hes, List.append_nil, hupd]
    rfl
  · have hl : (departed s a cfd l).listenMap.find? nextFd = some nextAddr := by
      simp only [departed, OrdMap.find?_erase, if_neg (mt hnext.mp hes), hna]
    have hr := send_eq (departed s a cfd l).updateHash nextFd recoverBackupMsg
    simp only [backupMsgs, if_neg hes]
    rw [hr, hupd, deliver_deliver]
    simp only [MasterServer.deliver, OrdMap.index_of_some _ _ hl]
    rw [send_eq]
    simp only [MasterServer.deliver, List.append_assoc]
    rfl

end Leave

end Registry
end DCache.Master
