import DCache.Cache.Writes
import DCache.Cluster.Messages
import DCache.Master.Runs

/-! The master and its cache servers. A message that the master sends waits on its connection until
the server reads it; the servers' own work goes on in between. -/
namespace DCache.Cluster
open DCache.Lib DCache.Ring DCache.Master

/-- `server g` is the process at the other end of connection `g`, which has read the first
`received g` messages that the master sent there. -/
structure System where
  master : MasterServer
  server : ℤ → CacheServer
  received : ℤ → ℕ

inductive Event
  | master (e : Master.Event)
  | deliver (g : ℤ)
  | server (g : ℤ) (e : CacheServer.Event)

namespace System

def new : System := ⟨.new, fun _ => .new, fun _ => 0⟩

/-- What the master sent on a connection and the server did not read yet. -/
def pending (s : System) (g : ℤ) : List Str := (s.master.outbox g).drop (s.received g)

/-- The process at the end of a connection after one of its steps. -/
def setServer (s : System) (g : ℤ) (c : CacheServer) : System :=
  { s with server := fun f => if f = g then c else s.server f }

/-- A new connection is that of a new process. -/
def connected (s : System) : Master.Event → System
  | .newConn cfd _ =>
    { s.setServer cfd .new with received := fun f => if f = cfd then 0 else s.received f }
  | _ => s

variable (cbHashfunc : Str → ℤ)

/-- The result is what the handler returns. -/
def step (s : System) : Event → Option (ℤ × System)
  | .master e => do
    let (ret, m) ← s.master.step cbHashfunc e
    some (ret, { s.connected e with master := m })
  | .deliver g =>
    match s.pending g with
    | [] => some (0, s)
    | msg :: _ => do
      let (ret, _, c) ← (s.server g).dealwithMasterMsg cbHashfunc (.data msg)
      some (ret, { s.setServer g c with
        received := fun f => if f = g then s.received g + 1 else s.received f })
  | .server g e => do
    let ((ret, _), c) ← (s.server g).step cbHashfunc e
    some (ret, s.setServer g c)

end System

section MasterRing
variable (cbHashfunc : Str → ℤ)

/-- A server whose descriptor is below `cfd` has the point `h`. -/
def HeldBelow (m : OrdMap ℤ Str) (cfd h : ℤ) : Prop :=
  ∃ g b, m.find? g = some b ∧ g < cfd ∧ h ∈ labelHashes cbHashfunc b

def HeldAbove (m : OrdMap ℤ Str) (cfd h : ℤ) : Prop :=
  ∃ g b, m.find? g = some b ∧ cfd < g ∧ h ∈ labelHashes cbHashfunc b

/-- A registration announces an address that none before it announced. -/
def NewAddress (m : MasterServer) : Master.Event → Prop
  | .work => ∀ r rest, m.workqueue = r :: rest →
      m.masterHash.nodesMap (sockAddr2str r.clientAddr) = none
  | _ => True

/-- The server that joins shares no point with a later descriptor unless an earlier one has it as
well, and the server that leaves has no point that no earlier descriptor has. -/
def KeepsRing (m : MasterServer) : Master.Event → Prop
  | .work => ∀ r rest, m.workqueue = r :: rest →
      ∀ h ∈ labelHashes cbHashfunc (sockAddr2str r.clientAddr),
        HeldAbove cbHashfunc m.listenMap r.cfd h → HeldBelow cbHashfunc m.listenMap r.cfd h
  | .cacheServer cfd .closed _ => ∀ a, m.listenMap.find? cfd = some a →
      ∀ h ∈ labelHashes cbHashfunc a, HeldBelow cbHashfunc m.listenMap cfd h
  | _ => True

/-- The ring of the master is that of the addresses it last sent to each server. -/
structure MasterRing (m : MasterServer) : Prop where
  ring : m.masterHash.Rep (HashRing.build (labelHashes cbHashfunc) m.listenMap.values)
  distinct : m.listenMap.values.Nodup
  known : ∀ a ∈ m.listenMap.values, (m.masterHash.nodesMap a).isSome = true
  sent : ∀ g, ∀ msg ∈ m.outbox g, Sent msg
  last : ∀ g, m.listenMap.contains g = true → lastHash (m.outbox g) = some m.listenMap.values

variable {cbHashfunc} {m m' : MasterServer} {es es' : List Str} {e : Master.Event}

theorem MasterRing.new : MasterRing cbHashfunc .new where
  ring := .new
  distinct := List.nodup_nil
  known := nofun
  sent := nofun
  last g h := by simp [MasterServer.new, OrdMap.contains] at h

/-- An announcement is an address list and commands after it. -/
theorem announce (listens : Prop) [Decidable listens] {addrs old cmds : List Str}
    (hn : addrs.Nodup) (ha : ∀ a ∈ addrs, ∃ sa, a = sockAddr2str sa) (hold : ∀ msg ∈ old, Sent msg)
    (hcmds : ∀ msg ∈ cmds, Sent msg ∧ hashList msg = none) :
    (∀ msg ∈ old ++ ((if listens then [updateHashText addrs ++ [0]] else []) ++ cmds), Sent msg) ∧
    (listens → lastHash (old ++ ((if listens then [updateHashText addrs ++ [0]] else []) ++ cmds)) =
      some addrs) := by
  constructor
  · intro msg hmsg
    rcases List.mem_append.mp hmsg with hmsg | hmsg
    · exact hold msg hmsg
    rcases List.mem_append.mp hmsg with hmsg | hmsg
    · split_ifs at hmsg
      · exact List.mem_singleton.mp hmsg ▸ .hash addrs hn ha
      · cases hmsg
    · exact (hcmds msg hmsg).1
  · intro hl
    rw [if_pos hl, lastHash_append, lastHash_append, lastHash_singleton,
      lastHash_eq_none fun msg hmsg => (hcmds msg hmsg).2, hashList_updateHashText (isText_addrs ha)]
    rfl

/-- What follows the address list when a server joins. -/
theorem command_of_join (moves : Prop) [Decidable moves] (others : List Str) (fd₁ fd₂ g : ℤ)
    (addr₁ addr₂ : Str) : ∀ msg ∈ (if moves then [moveDataMsg] else []) ++ backupMsgs others fd₁ fd₂
      (updateBackupText addr₁ ++ [0]) (updateBackupText addr₂ ++ [0]) g,
    Sent msg ∧ hashList msg = none := by
  intro msg hmsg
  rcases List.mem_append.mp hmsg with hmsg | hmsg
  · split_ifs at hmsg
    · exact List.mem_singleton.mp hmsg ▸ ⟨sent_moveDataMsg, hashList_moveDataMsg⟩
    · cases hmsg
  · obtain ⟨-, ⟨-, rfl⟩ | ⟨-, rfl⟩⟩ := of_mem_backupMsgs hmsg <;>
      exact ⟨sent_updateBackupText _ _, hashList_updateBackupText _ _⟩

/-- What follows it when a server leaves. -/
theorem command_of_leave (others : List Str) (fd₁ fd₂ g : ℤ) (addr : Str) :
    ∀ msg ∈ backupMsgs others fd₁ fd₂ recoverBackupMsg (updateBackupText addr) g,
    Sent msg ∧ hashList msg = none := by
  intro msg hmsg
  obtain ⟨-, ⟨-, rfl⟩ | ⟨-, rfl⟩⟩ := of_mem_backupMsgs hmsg
  · exact ⟨sent_recoverBackupMsg, hashList_recoverBackupMsg⟩
  · have hsent := sent_updateBackupText addr []
    have hnone := hashList_updateBackupText addr []
    rw [List.append_nil] at hsent hnone
    exact ⟨hsent, hnone⟩

theorem sockAddr2str_ne_null (sa : SockAddrIn) : sockAddr2str sa ≠ lit "NULL" := fun h =>
  notMem_sockAddr2str (b := 78) sa (by decide) (by decide) (by decide) (h ▸ by decide)

theorem exists_sockAddr_of_mem (hm : Registry m es) {a : Str} (ha : a ∈ m.listenMap.values) :
    ∃ sa, a = sockAddr2str sa := by
  obtain ⟨f, hf⟩ := m.listenMap.mem_values.mp ha
  exact hm.addresses f a hf

/-- A server joins the ring of the master where the address list has it. -/
theorem MasterRing.join (hr : MasterRing cbHashfunc m) {cfd : ℤ} {a : Str} {c : ConHash}
    (ha : IsAddress a) (hl : m.listenMap.find? cfd = none) (hnew : m.masterHash.nodesMap a = none)
    (hshared : ∀ h ∈ labelHashes cbHashfunc a, HeldAbove cbHashfunc m.listenMap cfd h →
      HeldBelow cbHashfunc m.listenMap cfd h)
    (hadd : m.masterHash.conhashAddCacheServer cbHashfunc a = some c) :
    c.Rep (HashRing.build (labelHashes cbHashfunc) (m.listenMap.insert cfd a).values) ∧
      (m.listenMap.insert cfd a).values.Nodup ∧
      ∀ b ∈ (m.listenMap.insert cfd a).values, (c.nodesMap b).isSome = true := by
  obtain ⟨c', hc', hrep, hmap⟩ := hr.ring.conhashAddCacheServer cbHashfunc ha hnew
  obtain rfl := Option.some.inj (hadd.symm.trans hc')
  obtain ⟨as, as', hv, hv', hmem⟩ := m.listenMap.values_insert_of_none a hl
  refine ⟨?_, ?_, fun b hb => ?_⟩
  · rw [hv', ← HashRing.add_build (fun h hh => ?_), ← hv]
    · exact hrep
    · rintro ⟨b, hb, hbh⟩
      obtain ⟨g, hg, hlow⟩ := (hmem b).2.mp hb
      obtain ⟨g', b', hg', hlow', hb'⟩ := hshared h hh ⟨g, b, hg, hlow, hbh⟩
      exact ⟨b', (hmem b').1.mpr ⟨g', hg', hlow'⟩, hb'⟩
  · have hd := hr.distinct
    have hnot : a ∉ m.listenMap.values := fun hmem => by
      have := hr.known a hmem
      rw [hnew] at this
      cases this
    rw [hv] at hd hnot
    rw [hv']
    exact List.nodup_middle.mpr (List.nodup_cons.mpr ⟨hnot, hd⟩)
  · rw [hmap]
    split_ifs with hba
    · rfl
    · refine hr.known b ?_
      rw [hv]
      rw [hv', List.mem_append, List.mem_cons] at hb
      rw [List.mem_append]
      tauto

/-- A server that has no point of its own leaves no trace in the ring. -/
theorem MasterRing.leave (hr : MasterRing cbHashfunc m) {cfd : ℤ} {a : Str}
    (hl : m.listenMap.find? cfd = some a)
    (hheld : ∀ h ∈ labelHashes cbHashfunc a, HeldBelow cbHashfunc m.listenMap cfd h) :
    m.masterHash.Rep (HashRing.build (labelHashes cbHashfunc) (m.listenMap.erase cfd).values) ∧
      (m.listenMap.erase cfd).values.Sublist m.listenMap.values := by
  obtain ⟨as, as', hv, hv', hmem⟩ := m.listenMap.values_erase_of_some hl
  constructor
  · rw [hv', ← HashRing.build_drop (a := a) (fun h hh => ?_), ← hv]
    · exact hr.ring
    · obtain ⟨g, b, hg, hlow, hb⟩ := hheld h hh
      exact ⟨b, (hmem b).1.mpr ⟨g, hg, hlow⟩, hb⟩
  · rw [hv, hv']
    exact (List.Sublist.refl _).append (List.sublist_cons_self _ _)

/-- An event that keeps the ring leaves the master's ring equal to that of the last address list
which it sent. -/
theorem MasterRing.transition (hm : Registry m es) (hr : MasterRing cbHashfunc m)
    (hnew : NewAddress m e) (hkeep : KeepsRing cbHashfunc m e)
    (ht : Transition cbHashfunc m es e m' es') : MasterRing cbHashfunc m' := by
  have hm' := ht.registry hm
  cases ht with
  | idle => exact hr
  | accepted cfd clientAddr hc hl ha =>
    refine ⟨hr.ring, hr.distinct, hr.known, fun g msg hmsg => ?_, fun g hg => ?_⟩
    · by_cases hgc : g = cfd
      · simp [accepted, hgc] at hmsg
      · exact hr.sent g msg (by simpa [accepted, hgc] using hmsg)
    · have hgc : g ≠ cfd := by
        rintro rfl
        simp [accepted, OrdMap.contains, hl] at hg
      have hout : (accepted m cfd (sockAddr2str clientAddr)).outbox g = m.outbox g := if_neg hgc
      rw [hout]
      exact hr.last g hg
  | queued cfd buf res clientAddr hc hl hq => exact ⟨hr.ring, hr.distinct, hr.known, hr.sent, hr.last⟩
  | registered r rest a l c prevFd nextFd nextAddr hw hq hc hl hlist hown hadd hnb hna =>
    obtain ⟨hring, hdist, hknown⟩ := hr.join (isAddress_sockAddr2str r.clientAddr) hl
      (hnew r rest hw) (hkeep r rest hw) hadd
    have haddrs : ∀ b ∈ (m.listenMap.insert r.cfd (sockAddr2str r.clientAddr)).values,
        ∃ sa, b = sockAddr2str sa := fun b hb => exists_sockAddr_of_mem hm' hb
    have hout := fun g => announce
      ((m.listenMap.insert r.cfd (sockAddr2str r.clientAddr)).contains g = true) hdist haddrs
      (hr.sent g) (command_of_join (m.listenMap.contains g = true) es prevFd r.cfd g
        (sockAddr2str r.clientAddr) nextAddr)
    simp only [← List.append_assoc] at hout
    refine ⟨hring, hdist, hknown, fun g => ?_, fun g hg => ?_⟩
    · simpa only [MasterServer.deliver, Registry.registered, announcements, ← List.append_assoc]
        using (hout g).1
    · simpa only [MasterServer.deliver, Registry.registered, announcements, ← List.append_assoc]
        using (hout g).2 hg
  | departed es₁ es₂ a cfd res l prevFd nextFd nextAddr hes hf hlist hnb hna =>
    obtain ⟨hlc, -⟩ := (hm.registed a cfd).mp hf
    obtain ⟨addr, haddr⟩ := m.listenMap.contains_iff.mp hlc
    obtain ⟨hring, hsub⟩ := hr.leave haddr (hkeep addr haddr)
    have hdist := hr.distinct.sublist hsub
    have hout := fun g => announce ((m.listenMap.erase cfd).contains g = true) hdist
      (fun b hb => exists_sockAddr_of_mem hm (hsub.subset hb)) (hr.sent g)
      (command_of_leave (es₁ ++ es₂) nextFd prevFd g nextAddr)
    exact ⟨hring, hdist, fun b hb => hr.known b (hsub.subset hb), fun g => (hout g).1,
      fun g hg => (hout g).2 hg⟩

/-- For some key the master answers with another owner than a ring built from its address list. -/
def Diverges (cbHashfunc : Str → ℤ) (m : MasterServer) : Prop :=
  ∃ key, ∀ c : ConHash, c.Rep (HashRing.build (labelHashes cbHashfunc) m.listenMap.values) →
    m.masterHash.conhashGetCacheServer cbHashfunc key ≠ c.conhashGetCacheServer cbHashfunc key

/-- The label of a point is a key that hashes to it, so the holder of the point owns this key. -/
theorem owner_of_label {c : ConHash} {r : OrdMap ℤ Str} (hr : c.Rep r) {a b : Str}
    (ha : IsAddress a) {i : ℕ} (hf : r.find? (cbHashfunc (label a i)) = some b) :
    c.conhashGetCacheServer cbHashfunc (label a i) = some b := by
  rw [hr.conhashGetCacheServer, cstr_label ha, HashRing.owner_of_find? hf]
  rfl

/-- A server that joins below the holder of a point takes it on the servers' rings only. -/
theorem MasterRing.diverges_of_join (hr : MasterRing cbHashfunc m) {cfd h : ℤ} {a : Str}
    {c : ConHash} (ha : IsAddress a) (hl : m.listenMap.find? cfd = none)
    (hnew : m.masterHash.nodesMap a = none) (hh : h ∈ labelHashes cbHashfunc a)
    (habove : HeldAbove cbHashfunc m.listenMap cfd h)
    (hbelow : ¬ HeldBelow cbHashfunc m.listenMap cfd h)
    (hadd : m.masterHash.conhashAddCacheServer cbHashfunc a = some c) :
    ∃ key, ∀ c' : ConHash,
      c'.Rep (HashRing.build (labelHashes cbHashfunc) (m.listenMap.insert cfd a).values) →
      c.conhashGetCacheServer cbHashfunc key ≠ c'.conhashGetCacheServer cbHashfunc key := by
  obtain ⟨c₁, hc₁, hrep, -⟩ := hr.ring.conhashAddCacheServer cbHashfunc ha hnew
  obtain rfl := Option.some.inj (hadd.symm.trans hc₁)
  obtain ⟨as, as', -, hv', hmem⟩ := m.listenMap.values_insert_of_none a hl
  obtain ⟨i, -, rfl⟩ := List.mem_map.mp hh
  obtain ⟨g, b₀, hg, -, hb₀⟩ := habove
  -- on the master the point stays with a server that was there
  obtain ⟨b, hb⟩ : ∃ b, (HashRing.build (labelHashes cbHashfunc) m.listenMap.values).find?
      (cbHashfunc (label a i)) = some b := by
    rw [HashRing.find?_build]
    exact Option.isSome_iff_exists.mp (List.find?_isSome.mpr
      ⟨b₀, m.listenMap.mem_values.mpr ⟨g, hg⟩, by simpa using hb₀⟩)
  have hne : b ≠ a := by
    rintro rfl
    rw [HashRing.find?_build] at hb
    have := hr.known b (List.mem_of_find?_eq_some hb)
    rw [hnew] at this
    cases this
  have hfree : ∀ b ∈ as, cbHashfunc (label a i) ∉ labelHashes cbHashfunc b := by
    intro b hb hbh
    obtain ⟨g, hg, hlow⟩ := (hmem b).1.mp hb
    exact hbelow ⟨g, b, hg, hlow, hbh⟩
  refine ⟨label a i, fun c' hc' heq => hne ?_⟩
  have hmaster := owner_of_label (b := b) hrep ha (by rw [HashRing.find?_add, hb]; rfl)
  rw [hv'] at hc'
  have hserver := owner_of_label hc' ha (HashRing.find?_build_of_free hfree hh)
  exact Option.some.inj (hmaster.symm.trans (heq.trans hserver))

/-- A server that leaves keeps its points on the master's ring. -/
theorem MasterRing.owner_of_left (hm : Registry m es) (hr : MasterRing cbHashfunc m) {cfd h : ℤ}
    {a : Str} (hl : m.listenMap.find? cfd = some a) (hh : h ∈ labelHashes cbHashfunc a)
    (hbelow : ¬ HeldBelow cbHashfunc m.listenMap cfd h) :
    (∃ key, m.masterHash.conhashGetCacheServer cbHashfunc key = some a) ∧
      a ∉ (m.listenMap.erase cfd).values := by
  obtain ⟨as, as', hv, hv', hmem⟩ := m.listenMap.values_erase_of_some hl
  obtain ⟨i, -, rfl⟩ := List.mem_map.mp hh
  obtain ⟨sa, rfl⟩ := hm.addresses cfd a hl
  have hfree : ∀ b ∈ as, cbHashfunc (label (sockAddr2str sa) i) ∉ labelHashes cbHashfunc b := by
    intro b hb hbh
    obtain ⟨g, hg, hlow⟩ := (hmem b).1.mp hb
    exact hbelow ⟨g, b, hg, hlow, hbh⟩
  constructor
  · refine ⟨_, owner_of_label hr.ring (isAddress_sockAddr2str sa) (i := i) ?_⟩
    rw [hv]
    exact HashRing.find?_build_of_free hfree hh
  · have hd := hr.distinct
    rw [hv, List.nodup_middle, List.nodup_cons] at hd
    rw [hv']
    exact hd.1

/-- An event that does not keep the ring makes the master's ring another one. -/
theorem MasterRing.diverges (hm : Registry m es) (hr : MasterRing cbHashfunc m)
    (hnew : NewAddress m e) (hkeep : ¬ KeepsRing cbHashfunc m e)
    (ht : Transition cbHashfunc m es e m' es') : Diverges cbHashfunc m' := by
  cases ht with
  | idle _ he =>
    cases e with
    | newConn _ _ => exact he.elim
    | client _ _ _ => exact he.elim
    | cacheServer cfd recv _ =>
      cases recv with
      | failed => exact absurd trivial hkeep
      | closed =>
        refine absurd (fun a ha => ?_) hkeep
        rw [Ignored] at he
        rw [he] at ha
        cases ha
      | data _ => exact absurd trivial hkeep
    | work =>
      refine absurd (fun r rest hw => ?_) hkeep
      rw [Ignored] at he
      rw [he] at hw
      cases hw
  | accepted => exact absurd trivial hkeep
  | queued => exact absurd trivial hkeep
  | registered r rest a l c prevFd nextFd nextAddr hw hq hc hl hlist hown hadd hnb hna =>
    have hshared : ∃ h ∈ labelHashes cbHashfunc (sockAddr2str r.clientAddr),
        HeldAbove cbHashfunc m.listenMap r.cfd h ∧ ¬ HeldBelow cbHashfunc m.listenMap r.cfd h := by
      by_contra hno
      push Not at hno
      refine hkeep fun r' rest' hw' => ?_
      obtain ⟨rfl, rfl⟩ := List.cons.inj (hw.symm.trans hw')
      exact hno
    obtain ⟨h, hh, habove, hbelow⟩ := hshared
    exact hr.diverges_of_join (isAddress_sockAddr2str _) hl (hnew r rest hw) hh habove hbelow hadd
  | departed es₁ es₂ a cfd res l prevFd nextFd nextAddr hes hf hlist hnb hna =>
    have hown : ∃ addr, m.listenMap.find? cfd = some addr ∧ ∃ h ∈ labelHashes cbHashfunc addr,
        ¬ HeldBelow cbHashfunc m.listenMap cfd h := by
      by_contra hno
      push Not at hno
      exact hkeep hno
    obtain ⟨addr, haddr, h, hh, hbelow⟩ := hown
    obtain ⟨⟨key, hkey⟩, hgone⟩ := hr.owner_of_left hm haddr hh hbelow
    refine ⟨key, fun c hc heq => ?_⟩
    have howner := Option.some.inj
      (hkey.symm.trans (heq.trans (hc.conhashGetCacheServer cbHashfunc key)))
    rcases HashRing.owner_build (labelHashes cbHashfunc)
      (m.listenMap.erase cfd).values (fun a _ => labelHashes_ne_nil cbHashfunc a)
      (cbHashfunc (cstr key)) with ⟨b, hb, ho⟩ | ⟨-, ho⟩
    · exact hgone (by rwa [howner.trans (congrArg (Option.getD · (lit "NULL")) ho)])
    · obtain ⟨sa, rfl⟩ := hm.addresses cfd addr haddr
      exact sockAddr2str_ne_null sa (howner.trans (congrArg (Option.getD · (lit "NULL")) ho))

end MasterRing
end DCache.Cluster
