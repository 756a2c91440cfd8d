import DCache.Master.Runs

/-! The backup topology: each server was last told to back up to its successor in the circular
list. Joining and leaving change the successor of one server, and this one is told. -/
namespace DCache.Master
open DCache.Lib DCache.Ring MasterServer

/-- The address that an `UPDATE_BACKUP` message names; none for another message. -/
def backupTarget (msg : Str) : Option Str :=
  if msg.takeWhile (fun b => b ≠ newline) = Code.updateBackup then
    some (((msg.dropWhile (fun b => b ≠ newline)).drop 1).takeWhile (fun b => b ≠ newline))
  else none

/-- The target of the last `UPDATE_BACKUP` among the messages. -/
def lastBackup (msgs : List Str) : Option Str := (msgs.filterMap backupTarget).getLast?

theorem lastBackup_append (l m : List Str) : lastBackup (l ++ m) = (lastBackup m).or (lastBackup l) := by
  rw [lastBackup, List.filterMap_append, List.getLast?_append]
  rfl

/-- Other messages in between do not count. -/
theorem lastBackup_skip {l m m' : List Str} (h : ∀ msg ∈ m, backupTarget msg = none) :
    lastBackup (l ++ (m ++ m')) = lastBackup (l ++ m') := by
  have hm : m.filterMap backupTarget = [] := List.filterMap_eq_nil_iff.mpr h
  simp only [lastBackup, List.filterMap_append, hm, List.nil_append]

/-- The message names the address that was put into it. -/
theorem backupTarget_updateBackupText (sa : SockAddrIn) (rest : Str) :
    backupTarget (updateBackupText (sockAddr2str sa) ++ rest) = some (sockAddr2str sa) := by
  have hmsg : updateBackupText (sockAddr2str sa) ++ rest =
      Code.updateBackup ++ newline :: (sockAddr2str sa ++ newline :: rest) := by
    simp [updateBackupText, cstr_eq_self.mpr (zero_notMem_sockAddr2str sa)]
  rw [hmsg, backupTarget, takeWhile_line (by decide), if_pos rfl, dropWhile_line (by decide),
    takeWhile_line (newline_notMem_sockAddr2str sa)]

theorem backupTarget_updateHashText (addrs : List Str) (rest : Str) :
    backupTarget (updateHashText addrs ++ rest) = none := by
  simp only [updateHashText, List.append_assoc, List.cons_append, List.nil_append]
  rw [backupTarget, takeWhile_line (by decide), if_neg (by decide)]

theorem backupTarget_moveDataMsg : backupTarget moveDataMsg = none := by decide

theorem backupTarget_recoverBackupMsg : backupTarget recoverBackupMsg = none := by decide

theorem backupTarget_of_mem_hash {c : Prop} [Decidable c] {addrs : List Str} {msg : Str}
    (h : msg ∈ if c then [updateHashText addrs ++ [0]] else []) : backupTarget msg = none := by
  split_ifs at h
  · exact List.mem_singleton.mp h ▸ backupTarget_updateHashText _ _
  · exact absurd h List.not_mem_nil

theorem backupTarget_of_mem_announcements {s : MasterServer} {cfd : ℤ} {addr msg : Str} {g : ℤ}
    (h : msg ∈ announcements s cfd addr g) : backupTarget msg = none := by
  rcases List.mem_append.mp h with h | h
  · exact backupTarget_of_mem_hash h
  · split_ifs at h
    · exact List.mem_singleton.mp h ▸ backupTarget_moveDataMsg
    · exact absurd h List.not_mem_nil

private theorem lastBackup_nil : lastBackup [] = none := rfl

private theorem lastBackup_singleton (msg : Str) : lastBackup [msg] = backupTarget msg := by
  cases h : backupTarget msg <;> simp [lastBackup, h]

/-- The second message comes after the first. -/
theorem lastBackup_backupMsgs {others : List Str} (h : others ≠ []) (fd₁ fd₂ g : ℤ)
    (msg₁ msg₂ : Str) (l : List Str) : lastBackup (l ++ backupMsgs others fd₁ fd₂ msg₁ msg₂ g) =
      ((if g = fd₂ then backupTarget msg₂ else none).or
        (if g = fd₁ then backupTarget msg₁ else none)).or (lastBackup l) := by
  rw [backupMsgs, if_neg h, lastBackup_append, lastBackup_append]
  split_ifs <;> simp only [lastBackup_singleton, lastBackup_nil]

/-- Every server was told its successor's listening address, as soon as there are two servers. -/
def Topology (s : MasterServer) (es : List Str) : Prop :=
  2 ≤ es.length → ∀ t (ht : t ∈ es) f g addr, s.registedMap.find? t = some f →
    s.registedMap.find? (es.next t ht) = some g → s.listenMap.find? g = some addr →
    lastBackup (s.outbox f) = some addr

variable {cbHashfunc : Str → ℤ} {s s' : MasterServer} {es es' : List Str} {e : Event}

private theorem two_le_length {l : List Str} {x y : Str} (hx : x ∈ l) (hy : y ∈ l) (h : x ≠ y) :
    2 ≤ l.length := by
  match l with
  | [] => exact absurd hx List.not_mem_nil
  | [z] => exact absurd ((List.mem_singleton.mp hx).trans (List.mem_singleton.mp hy).symm) h
  | _ :: _ :: _ => simp

theorem Transition.topology (hs : Registry s es) (hT : Topology s es)
    (ht : Transition cbHashfunc s es e s' es') : Topology s' es' := by
  have hs' := ht.registry hs
  cases ht with
  | idle => exact hT
  | accepted cfd clientAddr hc hl ha =>
    intro hlen t hmem f g addr hf hg hga
    -- the new connection is not a registered one
    have hne : f ≠ cfd := by
      rintro rfl
      have := ((hs.registed t f).mp hf).1
      simp [OrdMap.contains, hl] at this
    have hout : (DCache.Master.accepted s cfd (sockAddr2str clientAddr)).outbox f = s.outbox f :=
      if_neg hne
    rw [hout]
    exact hT hlen t hmem f g addr hf hg hga
  | queued cfd buf res clientAddr hc hl hq => exact hT
  | registered r rest a l c prevFd nextFd nextAddr hw hq hc hl hlist hown hadd hnb hna =>
    obtain ⟨hmem, hp, hn⟩ := hnb
    intro hlen t ht f g addr hf hg hga
    have hes : es ≠ [] := by
      rintro rfl
      simp at hlen
    have hcfd : (s.registedMap.insert a r.cfd).find? a = some r.cfd := by simp
    change lastBackup (s.outbox f ++ _) = _
    rw [lastBackup_skip fun _ => backupTarget_of_mem_announcements, lastBackup_backupMsgs hes,
      backupTarget_updateBackupText]
    by_cases hta : t = a
    · -- the new server is told its successor
      subst hta
      obtain rfl : f = r.cfd := Option.some.inj (hf.symm.trans hcfd)
      obtain rfl : g = nextFd := Option.some.inj (hg.symm.trans hn)
      obtain rfl : addr = nextAddr := Option.some.inj (hga.symm.trans hna)
      obtain ⟨sa, rfl⟩ := hs'.addresses g addr hga
      rw [if_pos rfl, backupTarget_updateBackupText]
      rfl
    · have hfc : f ≠ r.cfd := mt (hs'.fd_eq_iff hf hcfd).mp hta
      rw [if_neg hfc, Option.none_or]
      by_cases htp : t = (es ++ [a]).prev a hmem
      · -- its predecessor is told the new server
        subst htp
        obtain rfl : f = prevFd := Option.some.inj (hf.symm.trans hp)
        have hnext := List.next_prev _ hlist.nodup a hmem
        rw [hnext] at hg
        obtain rfl : g = r.cfd := Option.some.inj (hg.symm.trans hcfd)
        have hga' : addr = sockAddr2str r.clientAddr := by
          simpa [deliver, Registry.registered] using hga.symm
        rw [if_pos rfl, hga']
        rfl
      · -- every other server keeps its successor
        have hfp : f ≠ prevFd := mt (hs'.fd_eq_iff hf hp).mp htp
        rw [if_neg hfp, Option.none_or]
        have htes : t ∈ es := (List.mem_append.mp ht).resolve_right (by simpa using hta)
        have hkeep : es.next t htes = (es ++ [a]).next t ht := by
          have htes' : t ∈ es ++ [] := by simpa using htes
          have h := next_remove hlist.nodup hmem htes' ht
          rw [if_neg htp] at h
          simpa using h
        have hnta : (es ++ [a]).next t ht ≠ a := by
          intro h
          apply htp
          have := List.prev_next _ hlist.nodup t ht
          simp only [h] at this
          exact this.symm
        have hpes : (es ++ [a]).prev a hmem ∈ es := by
          refine (List.mem_append.mp (List.prev_mem _ _ hmem)).resolve_right fun h => hes ?_
          exact (prev_eq_self_iff hlist.nodup hmem).mp (List.mem_singleton.mp h)
        have hf' : s.registedMap.find? t = some f := by
          simpa [deliver, Registry.registered, hta] using hf
        have hg' : s.registedMap.find? (es.next t htes) = some g := by
          rw [hkeep]
          simpa [deliver, Registry.registered, hnta] using hg
        have hgc : g ≠ r.cfd := mt (hs'.fd_eq_iff hg hcfd).mp hnta
        have hga' : s.listenMap.find? g = some addr := by
          simpa [deliver, Registry.registered, hgc] using hga
        exact hT (two_le_length htes hpes htp) t htes f g addr hf' hg' hga'
  | departed es₁ es₂ a cfd res l prevFd nextFd nextAddr hes hcfd hlist hnb hna =>
    subst hes
    obtain ⟨hmem, hp, hn⟩ := hnb
    intro hlen t ht f g addr hf hg hga
    have hes : es₁ ++ es₂ ≠ [] := by
      intro h
      simp [h] at hlen
    have ht' : t ∈ es₁ ++ a :: es₂ := by
      simp only [List.mem_append, List.mem_cons] at ht ⊢
      tauto
    have hta : t ≠ a := by
      rintro rfl
      exact (List.nodup_cons.mp (List.nodup_middle.mp hs.list.nodup)).1 ht
    have hf' : s.registedMap.find? t = some f := by
      change (s.registedMap.erase a).find? t = some f at hf
      rwa [OrdMap.find?_erase, if_neg hta] at hf
    have hg' : s.registedMap.find? ((es₁ ++ es₂).next t ht) = some g := by
      change (s.registedMap.erase a).find? _ = some g at hg
      rw [OrdMap.find?_erase] at hg
      split_ifs at hg
      exact hg
    have hga' : s.listenMap.find? g = some addr := by
      change (s.listenMap.erase cfd).find? g = some addr at hga
      rw [OrdMap.find?_erase] at hga
      split_ifs at hga
      exact hga
    change lastBackup (s.outbox f ++ _) = _
    rw [lastBackup_skip fun _ => backupTarget_of_mem_hash, lastBackup_backupMsgs hes,
      backupTarget_recoverBackupMsg, ite_self, Option.or_none]
    rw [next_remove hs.list.nodup hmem ht ht'] at hg'
    split_ifs at hg' with htp
    · -- the predecessor is told its new successor
      subst htp
      obtain rfl : f = prevFd := Option.some.inj (hf'.symm.trans hp)
      obtain rfl : g = nextFd := Option.some.inj (hg'.symm.trans hn)
      obtain rfl : addr = nextAddr := Option.some.inj (hga'.symm.trans hna)
      obtain ⟨sa, rfl⟩ := hs.addresses g addr hna
      have htarget := backupTarget_updateBackupText sa []
      rw [List.append_nil] at htarget
      rw [if_pos rfl, htarget]
      rfl
    · -- every other server keeps its successor
      have hfp : f ≠ prevFd := mt (hs.fd_eq_iff hf' hp).mp htp
      rw [if_neg hfp, Option.none_or]
      exact hT (two_le_length ht' hmem hta) t ht' f g addr hf' hg' hga'

/-- For every registered server, the target of the last `UPDATE_BACKUP` that was sent to it is
the listening address of its successor. -/
def BackupTopology (s : MasterServer) : Prop :=
  2 ≤ s.registedMap.size → ∀ t f, s.registedMap.find? t = some f →
    ∃ u g addr, s.connectList.getNext t = some u ∧ s.registedMap.find? u = some g ∧
      s.listenMap.find? g = some addr ∧ lastBackup (s.outbox f) = some addr

theorem Registry.size_eq (hs : Registry s es) : s.registedMap.size = es.length := by
  have hp : (s.registedMap.entries.map Prod.fst).Perm es := by
    refine (List.perm_ext_iff_of_nodup s.registedMap.nodup_keys hs.list.nodup).mpr fun a => ?_
    rw [hs.members, OrdMap.contains_iff]
    simp [← OrdMap.mem_entries]
  rw [OrdMap.size, ← hp.length_eq, List.length_map]

/-- After every handler of every run each server was last told its successor. -/
theorem backup_topology_of_run (cbHashfunc : Str → ℤ) (evs : List Event)
    (h : Allowed (MasterServer.step cbHashfunc) OneRegistration .new evs) :
    ∃ rs s, run (MasterServer.step cbHashfunc) .new evs = some (rs, s) ∧ BackupTopology s := by
  obtain ⟨rs, s, hr, es, hs, hT⟩ := run_invariant (I := fun s => ∃ es, Registry s es ∧ Topology s es)
    (fun s e ⟨es, hs, hT⟩ he => by
      obtain ⟨r, s', es', hstep, ht⟩ := hs.step cbHashfunc he
      exact ⟨r, s', hstep, es', ht.registry hs, ht.topology hs hT⟩)
    ⟨[], Registry.new, by simp [Topology]⟩ h
  refine ⟨rs, s, hr, fun hlen t f hf => ?_⟩
  have ht : t ∈ es := (hs.members t).mpr (s.registedMap.contains_iff.mpr ⟨f, hf⟩)
  obtain ⟨g, addr, hg, -, hga⟩ := hs.entry (List.next_mem es t ht)
  exact ⟨_, g, addr, hs.list.getNext ht, hg, hga,
    hT (hs.size_eq ▸ hlen) t ht f g addr hf hg hga⟩

/-- Two servers that register one after the other. -/
theorem backup_topology_of_two : ∃ rs s, run (MasterServer.step fun _ => 0) .new
    [.newConn 5 ⟨afInet, htons 40000, ⟨10, 0, 0, 1⟩⟩,
      .newConn 6 ⟨afInet, htons 40001, ⟨10, 0, 0, 1⟩⟩,
      .cacheServer 5 (.data (lit "6000")) ⟨0, 0, .any⟩,
      .cacheServer 6 (.data (lit "6001")) ⟨0, 0, .any⟩, .work, .work] = some (rs, s) ∧
      BackupTopology s := by
  refine backup_topology_of_run (fun _ => 0) _ ⟨⟨by decide, by decide⟩, ⟨by decide, by decide⟩,
    ⟨by decide, by decide, by decide⟩, ⟨by decide, by decide, by decide⟩, trivial, ?_⟩
  split
  · trivial
  · exact ⟨trivial, by split <;> trivial⟩

end DCache.Master
