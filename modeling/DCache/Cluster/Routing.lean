import DCache.Cluster.System

/-! Routing: the master and the servers look for the owner of a key on rings of their own, which
agree as long as no registration and no end of a connection tells them apart. -/
namespace DCache.Cluster
open DCache.Lib DCache.Ring DCache.Master

variable (cbHashfunc : Str → ℤ)

/-- Events of a run in which every connection registers once, under an address of its own, and
every message is read by one `recv`; servers change their ring only when they are told to. -/
def Admissible (s : System) : Event → Prop
  | .master e => OneRegistration s.master e ∧ NewAddress s.master e
  | .deliver g => ∀ msg rest, s.pending g = msg :: rest → msg.length ≤ bufSize
  | .server g e => (∀ ipPorts, e ≠ .updateHash ipPorts) ∧
      ((s.server g).step cbHashfunc e).isSome = true

/-- Events of the master that keep its ring equal to the one that the servers rebuild. -/
def RingStays (s : System) : Event → Prop
  | .master e => KeepsRing cbHashfunc s.master e
  | _ => True

/-- When no message to a registered server is pending, the owner of a key that the master computes
is the address of a registered server, unless there is none, and every registered server computes
the same owner. -/
def RoutingAgrees (s : System) : Prop :=
  (∀ g, s.master.listenMap.contains g = true → s.pending g = []) → ∀ key,
    ∃ owner, s.master.masterHash.conhashGetCacheServer cbHashfunc key = some owner ∧
      ((∃ g, s.master.listenMap.find? g = some owner) ∨
        owner = lit "NULL" ∧ ∀ g, s.master.listenMap.find? g = none) ∧
      ∀ g, s.master.listenMap.contains g = true →
        (s.server g).cacheServerHash.conhashGetCacheServer cbHashfunc key = some owner

/-- Every server has rebuilt its ring from the last address list that it read. -/
structure Routes (s : System) (es : List Str) : Prop where
  registry : Registry s.master es
  ring : MasterRing cbHashfunc s.master
  received : ∀ g, s.received g ≤ (s.master.outbox g).length
  rebuilt : ∀ g addrs, lastHash ((s.master.outbox g).take (s.received g)) = some addrs →
    (s.server g).cacheServerHash.Rep (HashRing.build (labelHashes cbHashfunc) addrs)

variable {cbHashfunc} {s : System} {es : List Str}

theorem Routes.new (cbHashfunc : Str → ℤ) : Routes cbHashfunc .new [] where
  registry := .new
  ring := .new
  received _ := Nat.zero_le _
  rebuilt g addrs h := by simp [System.new, MasterServer.new] at h

/-- The messages on a connection grow until the connection is a new one. -/
theorem outbox_of_transition {m m' : MasterServer} {es' : List Str} {e : Master.Event}
    (ht : Transition cbHashfunc m es e m' es') (g : ℤ) :
    (∃ clientAddr, e = .newConn g clientAddr) ∨ ∃ new, m'.outbox g = m.outbox g ++ new := by
  cases ht with
  | idle => exact Or.inr ⟨[], (List.append_nil _).symm⟩
  | accepted cfd clientAddr hc hl ha =>
    by_cases hg : g = cfd
    · exact Or.inl ⟨clientAddr, by rw [hg]⟩
    · refine Or.inr ⟨[], ?_⟩
      rw [List.append_nil]
      exact if_neg hg
  | queued cfd buf res clientAddr hc hl hq => exact Or.inr ⟨[], (List.append_nil _).symm⟩
  | registered r rest a l c prevFd nextFd nextAddr hw hq hc hl hlist hown hadd hnb hna =>
    exact Or.inr ⟨_, rfl⟩
  | departed es₁ es₂ a cfd res l prevFd nextFd nextAddr hes hf hlist hnb hna =>
    exact Or.inr ⟨_, rfl⟩

theorem connected_of_ne {e : Master.Event} {g : ℤ} (h : ∀ clientAddr, e ≠ .newConn g clientAddr) :
    (s.connected e).server g = s.server g ∧ (s.connected e).received g = s.received g := by
  cases e with
  | newConn cfd clientAddr =>
    have hg : g ≠ cfd := by
      rintro rfl
      exact h clientAddr rfl
    exact ⟨if_neg hg, if_neg hg⟩
  | client _ _ _ => exact ⟨rfl, rfl⟩
  | cacheServer _ _ _ => exact ⟨rfl, rfl⟩
  | work => exact ⟨rfl, rfl⟩

theorem Routes.master (hs : Routes cbHashfunc s es) {m' : MasterServer} {es' : List Str}
    {e : Master.Event} (hnew : NewAddress s.master e) (hkeep : KeepsRing cbHashfunc s.master e)
    (ht : Transition cbHashfunc s.master es e m' es') :
    Routes cbHashfunc { s.connected e with master := m' } es' := by
  -- a connection is new, or has messages that come after those of before
  have hcon : ∀ g, (s.connected e).received g = 0 ∨
      (s.connected e).server g = s.server g ∧ (s.connected e).received g = s.received g ∧
        ∃ new, m'.outbox g = s.master.outbox g ++ new := by
    intro g
    by_cases hg : ∃ clientAddr, e = .newConn g clientAddr
    · obtain ⟨clientAddr, rfl⟩ := hg
      exact Or.inl (if_pos rfl)
    · obtain ⟨hserver, hreceived⟩ := connected_of_ne (s := s) fun addr h => hg ⟨addr, h⟩
      exact Or.inr ⟨hserver, hreceived, (outbox_of_transition ht g).resolve_left hg⟩
  refine ⟨ht.registry hs.registry, hs.ring.transition hs.registry hnew hkeep ht, fun g => ?_,
    fun g addrs h => ?_⟩
  · rcases hcon g with h0 | ⟨-, hr, new, hout⟩
    · simp only [h0, Nat.zero_le]
    · simp only [hr, hout, List.length_append]
      exact (hs.received g).trans (Nat.le_add_right _ _)
  · rcases hcon g with h0 | ⟨hc, hr, new, hout⟩
    · simp [h0] at h
    · simp only [hr, hout, List.take_append_of_le_length (hs.received g)] at h
      simp only [hc]
      exact hs.rebuilt g addrs h

theorem Routes.master_step (hs : Routes cbHashfunc s es) {e : Master.Event}
    (he : Admissible cbHashfunc s (.master e)) (hstay : RingStays cbHashfunc s (.master e)) :
    ∃ r m' es', s.step cbHashfunc (.master e) = some (r, { s.connected e with master := m' }) ∧
      Transition cbHashfunc s.master es e m' es' ∧
      Routes cbHashfunc { s.connected e with master := m' } es' := by
  obtain ⟨r, m', es', hm, ht⟩ := hs.registry.step cbHashfunc he.1
  exact ⟨r, m', es', by rw [System.step, hm]; rfl, ht, hs.master he.2 hstay ht⟩

/-- What a server reads is what the master sent next. -/
theorem Routes.deliver (hs : Routes cbHashfunc s es) {g : ℤ} {msg : Str} {rest : List Str}
    (hp : s.pending g = msg :: rest) : ∃ c,
      s.step cbHashfunc (.deliver g) = some (0, { s.setServer g c with
        received := fun f => if f = g then s.received g + 1 else s.received f }) ∧
      Routes cbHashfunc { s.setServer g c with
        received := fun f => if f = g then s.received g + 1 else s.received f } es := by
  have hlt : s.received g < (s.master.outbox g).length := by
    by_contra hge
    rw [System.pending, List.drop_eq_nil_of_le (by omega)] at hp
    cases hp
  have hmsg : (s.master.outbox g)[s.received g] = msg := by
    rw [System.pending, List.drop_eq_getElem_cons hlt] at hp
    exact (List.cons.inj hp).1
  obtain ⟨thread, c, hc, hcommand, hhash⟩ := dealwithMasterMsg_sent cbHashfunc
    (s.server g) (hs.ring.sent g msg (hmsg ▸ List.getElem_mem hlt))
  refine ⟨c, by simp only [System.step, hp, hc]; rfl, hs.registry, hs.ring, fun f => ?_,
    fun f addrs h => ?_⟩
  · dsimp only [System.setServer]
    split_ifs with hf
    · rw [hf]
      exact hlt
    · exact hs.received f
  · dsimp only [System.setServer] at h ⊢
    by_cases hf : f = g
    · subst hf
      rw [if_pos rfl] at h ⊢
      rw [List.take_succ_eq_append_getElem hlt, hmsg, lastHash_append, lastHash_singleton] at h
      cases hl : hashList msg with
      | none =>
        rw [hl, Option.none_or] at h
        rw [hcommand hl]
        exact hs.rebuilt f addrs h
      | some addrs' =>
        rw [hl, Option.some_or, Option.some.injEq] at h
        exact hhash addrs (h ▸ hl)
    · rw [if_neg hf] at h ⊢
      exact hs.rebuilt f addrs h

/-- Events of a good run do not fault, and they keep the rings in step. -/
theorem Routes.step (hs : Routes cbHashfunc s es) {e : Event} (he : Admissible cbHashfunc s e)
    (hstay : RingStays cbHashfunc s e) :
    ∃ r s' es', s.step cbHashfunc e = some (r, s') ∧ Routes cbHashfunc s' es' := by
  cases e with
  | master e =>
    obtain ⟨r, m', es', hm, -, hs'⟩ := hs.master_step he hstay
    exact ⟨r, _, es', hm, hs'⟩
  | deliver g =>
    cases hp : s.pending g with
    | nil => exact ⟨0, s, es, by simp only [System.step, hp], hs⟩
    | cons msg rest =>
      obtain ⟨c, hc, hr⟩ := hs.deliver hp
      exact ⟨0, _, es, hc, hr⟩
  | server g e =>
    obtain ⟨⟨⟨r, o⟩, c⟩, hc⟩ := Option.isSome_iff_exists.mp he.2
    have hring := CacheServer.ring_of_step he.1 hc
    refine ⟨r, s.setServer g c, es, by rw [System.step, hc]; rfl, hs.registry, hs.ring, hs.received,
      fun f addrs h => ?_⟩
    by_cases hf : f = g
    · subst hf
      simp only [System.setServer, if_true, hring]
      exact hs.rebuilt f addrs h
    · simp only [System.setServer, if_neg hf]
      exact hs.rebuilt f addrs h

theorem Routes.agrees (hs : Routes cbHashfunc s es) : RoutingAgrees cbHashfunc s := by
  intro hidle key
  have hmaster := hs.ring.ring.conhashGetCacheServer cbHashfunc key
  refine ⟨_, hmaster, ?_, fun g hg => ?_⟩
  · rcases HashRing.owner_build (labelHashes cbHashfunc)
      s.master.listenMap.values (fun a _ => labelHashes_ne_nil cbHashfunc a)
      (cbHashfunc (cstr key)) with ⟨a, ha, ho⟩ | ⟨hnil, ho⟩
    · rw [ho]
      exact Or.inl (s.master.listenMap.mem_values.mp ha)
    · rw [ho]
      refine Or.inr ⟨rfl, fun g => ?_⟩
      cases hg : s.master.listenMap.find? g with
      | none => rfl
      | some a =>
        have hmem := s.master.listenMap.mem_values.mpr ⟨g, hg⟩
        rw [hnil] at hmem
        cases hmem
  · -- the server has read everything, so also the last address list
    have hall : (s.master.outbox g).take (s.received g) = s.master.outbox g := by
      apply List.take_of_length_le
      have := hidle g hg
      rwa [System.pending, List.drop_eq_nil_iff] at this
    have hrep := hs.rebuilt g _ (by rw [hall]; exact hs.ring.last g hg)
    exact hrep.conhashGetCacheServer cbHashfunc key

/-- In every state of every run in which each registration and each end of a connection keeps the
ring, routing agrees. A next one that does not keep it makes the master's ring another one than
that of the address list which it sends. -/
theorem routing_agrees_of_run (cbHashfunc : Str → ℤ) (evs : List Event)
    (h : Allowed (System.step cbHashfunc)
      (fun s e => Admissible cbHashfunc s e ∧ RingStays cbHashfunc s e) .new evs) :
    ∃ rs s, run (System.step cbHashfunc) .new evs = some (rs, s) ∧ RoutingAgrees cbHashfunc s ∧
      ∀ e r s', Admissible cbHashfunc s (.master e) → ¬ RingStays cbHashfunc s (.master e) →
        s.step cbHashfunc (.master e) = some (r, s') → Diverges cbHashfunc s'.master := by
  obtain ⟨rs, s, hr, es, hs⟩ := run_invariant (I := fun s => ∃ es, Routes cbHashfunc s es)
    (fun s e ⟨es, hs⟩ ⟨he, hstay⟩ => by
      obtain ⟨r, s', es', hstep, hs'⟩ := hs.step he hstay
      exact ⟨r, s', hstep, es', hs'⟩)
    ⟨[], Routes.new cbHashfunc⟩ h
  refine ⟨rs, s, hr, hs.agrees, fun e r s' he hgo hstep => ?_⟩
  obtain ⟨r', m', es', hm, ht⟩ := hs.registry.step cbHashfunc he.1
  have hs' : s' = { s.connected e with master := m' } := by
    rw [System.step, hm] at hstep
    exact (Prod.mk.inj (Option.some.inj hstep)).2.symm
  rw [hs']
  exact hs.ring.diverges hs.registry he.2 hgo ht

section Leave

/-- Two servers join and read their messages, and the second one leaves. -/
def leaveEvents : List Event :=
  [.master (.newConn 5 ⟨afInet, htons 40000, ⟨10, 0, 0, 1⟩⟩),
    .master (.cacheServer 5 (.data (lit "6000")) ⟨0, 0, .any⟩), .master .work,
    .master (.newConn 6 ⟨afInet, htons 40001, ⟨10, 0, 0, 1⟩⟩),
    .master (.cacheServer 6 (.data (lit "6001")) ⟨0, 0, .any⟩), .master .work] ++
    List.replicate 4 (.deliver 5) ++ List.replicate 2 (.deliver 6) ++
    .master (.cacheServer 6 .closed ⟨0, 0, .any⟩) :: List.replicate 3 (.deliver 5)

/-- A test for events of the master that meet the hypotheses. -/
def keepsRing (cbHashfunc : Str → ℤ) (m : MasterServer) : Master.Event → Bool
  | .newConn cfd clientAddr => cfd ∉ m.openFds ∧
      ∀ f ∈ m.openFds, m.connectedMap.find? f ≠ some (sockAddr2str clientAddr)
  | .cacheServer cfd (.data _) _ => cfd ∈ m.openFds ∧ m.listenMap.find? cfd = none ∧
      cfd ∉ queuedFds m.workqueue
  | .cacheServer cfd .closed _ => cfd ∈ m.openFds ∧ ∀ a ∈ m.listenMap.find? cfd,
      ∀ h ∈ labelHashes cbHashfunc a,
        ∃ e ∈ m.listenMap.entries, e.1 < cfd ∧ h ∈ labelHashes cbHashfunc e.2
  | .work => ∀ r ∈ m.workqueue.head?,
      m.masterHash.nodesMap (sockAddr2str r.clientAddr) = none ∧
        ∀ e ∈ m.listenMap.entries, e.1 ≤ r.cfd
  | _ => false

def ringStays (cbHashfunc : Str → ℤ) (s : System) : Event → Bool
  | .master e => keepsRing cbHashfunc s.master e
  | .deliver g => ∀ msg ∈ (s.pending g).head?, msg.length ≤ bufSize
  | .server _ _ => false

theorem keepsRing_of_test {cbHashfunc : Str → ℤ} {m : MasterServer} {e : Master.Event}
    (h : keepsRing cbHashfunc m e = true) :
    (OneRegistration m e ∧ NewAddress m e) ∧ KeepsRing cbHashfunc m e := by
  cases e with
  | newConn cfd clientAddr =>
    have hnew := of_decide_eq_true h
    exact ⟨⟨hnew, trivial⟩, trivial⟩
  | client fd buf sent => cases h
  | cacheServer cfd recv peer =>
    cases recv with
    | failed => cases h
    | data buf =>
      have hopen := of_decide_eq_true h
      exact ⟨⟨hopen, trivial⟩, trivial⟩
    | closed =>
      obtain ⟨hopen, hheld⟩ := of_decide_eq_true h
      refine ⟨⟨hopen, trivial⟩, fun a ha p hp => ?_⟩
      obtain ⟨⟨g, b⟩, hg, hlt, hb⟩ := hheld a ha p hp
      exact ⟨g, b, m.listenMap.mem_entries.mp hg, hlt, hb⟩
  | work =>
    have hhead : ∀ r rest, m.workqueue = r :: rest → _ := fun r rest hq =>
      of_decide_eq_true h r (by rw [hq]; rfl)
    refine ⟨⟨trivial, fun r rest hq => (hhead r rest hq).1⟩, fun r rest hq p _ ⟨g, b, hg, hlt, _⟩ => ?_⟩
    exact absurd ((hhead r rest hq).2 _ (m.listenMap.mem_entries.mpr hg)) (not_le_of_gt hlt)

theorem ringStays_of_test {cbHashfunc : Str → ℤ} {s : System} {e : Event}
    (h : ringStays cbHashfunc s e = true) :
    Admissible cbHashfunc s e ∧ RingStays cbHashfunc s e := by
  cases e with
  | master e => exact keepsRing_of_test h
  | deliver g => exact ⟨fun msg rest hp => of_decide_eq_true h msg (by rw [hp]; rfl), trivial⟩
  | server g e => cases h

theorem routing_agrees_of_leave : ∃ rs s,
    run (System.step fun _ => 0) .new leaveEvents = some (rs, s) ∧
      s.master.listenMap.values = [lit "10.0.0.1:6000"] ∧ s.pending 5 = [] ∧
      RoutingAgrees (fun _ => 0) s ∧
      ∀ e r s', Admissible (fun _ => 0) s (.master e) → ¬ RingStays (fun _ => 0) s (.master e) →
        s.step (fun _ => 0) (.master e) = some (r, s') → Diverges (fun _ => 0) s'.master := by
  have htest : Allowed (System.step fun _ => 0) (fun s e => ringStays (fun _ => 0) s e = true) .new
      leaveEvents := by
    decide +kernel
  obtain ⟨rs, s, hrun, hs⟩ := routing_agrees_of_run (fun _ => 0) leaveEvents
    (htest.mono fun _ _ => ringStays_of_test)
  have hend : (run (System.step fun _ => 0) .new leaveEvents).map (fun o =>
      (o.2.master.listenMap.values, o.2.pending 5)) = some ([lit "10.0.0.1:6000"], []) := by
    decide +kernel
  rw [hrun] at hend
  obtain ⟨hvalues, hpending⟩ := Prod.mk.inj (Option.some.inj hend)
  exact ⟨rs, s, hrun, hvalues, hpending, hs⟩

/-- A server connects from `10.0.0.1`, announces port 6000 and reads its first address list. -/
def joinEvents : List Event :=
  [.master (.newConn 5 ⟨afInet, htons 40000, ⟨10, 0, 0, 1⟩⟩),
    .master (.cacheServer 5 (.data (lit "6000")) ⟨0, 0, .any⟩), .master .work, .deliver 5]

private theorem join_run (cbHashfunc : Str → ℤ) :
    ∃ rs s es sa, run (System.step cbHashfunc) .new joinEvents = some (rs, s) ∧
      Routes cbHashfunc s es ∧ 5 ∈ s.master.openFds ∧
      s.master.listenMap = OrdMap.empty.insert 5 (sockAddr2str sa) := by
  -- the connection
  obtain ⟨r₁, m₁, es₁, hs₁, ht₁, h₁⟩ := (Routes.new cbHashfunc).master_step
    (e := .newConn 5 ⟨afInet, htons 40000, ⟨10, 0, 0, 1⟩⟩) ⟨⟨by decide, by decide⟩, trivial⟩ trivial
  cases ht₁ with | idle _ he => exact he.elim | accepted hc₁ hl₁ ha₁ => ?_
  -- its registration
  obtain ⟨r₂, m₂, es₂, hs₂, ht₂, h₂⟩ := h₁.master_step
    (e := .cacheServer 5 (.data (lit "6000")) ⟨0, 0, .any⟩)
    ⟨⟨Finset.mem_insert_self _ _, rfl, List.not_mem_nil⟩, trivial⟩ trivial
  cases ht₂ with
  | idle _ he => exact absurd he (by change ¬ (0 : ℕ) ≥ 20; decide)
  | queued _ _ _ sa hc₂ hl₂ hq₂ => ?_
  obtain ⟨r₃, m₃, es₃, hs₃, ht₃, h₃⟩ := h₂.master_step (e := .work)
    ⟨trivial, fun _ _ _ => rfl⟩ (by rintro r rest - h - ⟨g, b, hg, -⟩; cases hg)
  cases ht₃ with
  | idle _ he => exact absurd he (List.cons_ne_nil _ _)
  | registered r rest a l c prevFd nextFd nextAddr hw hq hc hl hlist hown hadd hnb hna => ?_
  obtain ⟨rfl, rfl⟩ := List.cons.inj hw
  -- the only message is the list of the one address
  obtain ⟨c', hs₄, h₄⟩ := h₃.deliver (show System.pending _ 5 =
    [updateHashText [sockAddr2str sa] ++ [0]] from rfl)
  refine ⟨[r₁, r₂, r₃, 0], _, _, sa, ?_, h₄, Finset.mem_insert_self _ _, rfl⟩
  rw [joinEvents, run_cons hs₁, run_cons hs₂, run_cons hs₃, run_cons hs₄]
  rfl

/-- When the only server has left, the master still sends every key to it, whatever the hash
function is. -/
theorem not_routing_agrees_of_leave : ¬ ∃ cbHashfunc : Str → ℤ, ∀ rs s,
    run (System.step cbHashfunc) .new
      (joinEvents ++ [.master (.cacheServer 5 .closed ⟨0, 0, .any⟩)]) = some (rs, s) →
    RoutingAgrees cbHashfunc s := by
  rintro ⟨cbHashfunc, h⟩
  obtain ⟨rs, s, es, sa, hrun, hs, hopen, hlisten⟩ := join_run cbHashfunc
  have hl : s.master.listenMap.find? 5 = some (sockAddr2str sa) := by
    rw [hlisten]
    rfl
  obtain ⟨r, m', es', hm, ht⟩ := hs.registry.step cbHashfunc
    (e := .cacheServer 5 .closed ⟨0, 0, .any⟩) hopen
  have hmaster : m'.masterHash = s.master.masterHash ∧
      m'.listenMap = s.master.listenMap.erase 5 := by
    cases ht with
    | idle _ he =>
      rw [Ignored, hl] at he
      cases he
    | departed => exact ⟨rfl, rfl⟩
  obtain ⟨hring, hgone⟩ := hmaster
  have hnone : ∀ g, m'.listenMap.find? g = none := by
    intro g
    rw [hgone, hlisten, OrdMap.find?_erase, OrdMap.find?_insert]
    split_ifs <;> rfl
  -- the first point of the server on the master's ring
  obtain ⟨p, hp⟩ := List.exists_mem_of_ne_nil _ (labelHashes_ne_nil cbHashfunc (sockAddr2str sa))
  have hbelow : ¬ HeldBelow cbHashfunc s.master.listenMap 5 p := by
    rintro ⟨g, b, hg, hlt, -⟩
    rw [hlisten, OrdMap.find?_insert, if_neg hlt.ne] at hg
    cases hg
  obtain ⟨⟨key, hkey⟩, -⟩ := hs.ring.owner_of_left hs.registry hl hp hbelow
  have hlast : run (System.step cbHashfunc) s [.master (.cacheServer 5 .closed ⟨0, 0, .any⟩)] =
      some ([r], { s with master := m' }) := by
    rw [run_cons (by rw [System.step, hm]; rfl)]
    rfl
  have hagree := h (rs ++ [r]) { s with master := m' } (by
    rw [run_append, hrun, Option.bind_some, hlast]
    rfl)
  obtain ⟨owner, ho, hwho, -⟩ := hagree (fun g hg => by simp [OrdMap.contains, hnone] at hg) key
  rw [hring, hkey, Option.some.injEq] at ho
  subst ho
  rcases hwho with ⟨g, hg⟩ | ⟨hnull, -⟩
  · rw [hnone] at hg
    cases hg
  · exact sockAddr2str_ne_null sa hnull

end Leave
end DCache.Cluster
