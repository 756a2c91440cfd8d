import DCache.Cache.Membership
import DCache.Cache.Requests
import DCache.Master.Server

/-! The messages of the master as the cache servers read them. -/
namespace DCache.Cluster
open DCache.Lib DCache.Ring DCache.Master

/-- The address list of an `UPDATE_HASH` message; none for another message. -/
def hashList (msg : Str) : Option (List Str) :=
  if msg.takeWhile (fun b => b ≠ newline) = Code.updateHash then
    some (CacheServer.ipPortLines [] ((msg.dropWhile (fun b => b ≠ newline)).drop 1))
  else none

/-- The list of the last `UPDATE_HASH` among the messages. -/
def lastHash (msgs : List Str) : Option (List Str) := (msgs.filterMap hashList).getLast?

@[simp] theorem lastHash_nil : lastHash [] = none := rfl

theorem lastHash_append (l m : List Str) : lastHash (l ++ m) = (lastHash m).or (lastHash l) := by
  rw [lastHash, List.filterMap_append, List.getLast?_append]
  rfl

theorem lastHash_singleton (msg : Str) : lastHash [msg] = hashList msg := by
  unfold lastHash
  cases h : hashList msg <;> simp [h]

theorem lastHash_eq_none {msgs : List Str} (h : ∀ msg ∈ msgs, hashList msg = none) :
    lastHash msgs = none := by
  rw [lastHash, List.filterMap_eq_nil_iff.mpr h]
  rfl

/-- What the master sends: lists of distinct addresses, and commands of one line or two. -/
inductive Sent : Str → Prop
  | hash (addrs : List Str) (hn : addrs.Nodup) (ha : ∀ a ∈ addrs, ∃ sa, a = sockAddr2str sa) :
      Sent (updateHashText addrs ++ [0])
  | command (opt rest : Str) (hopt : newline ∉ opt) (hne : opt ≠ Code.updateHash)
      (hb : opt = Code.updateBackup → newline ∈ rest) : Sent (opt ++ newline :: rest)

theorem sent_moveDataMsg : Sent moveDataMsg :=
  .command Code.moveData [0] (by decide) (by decide) (fun h => absurd h (by decide))

theorem sent_recoverBackupMsg : Sent recoverBackupMsg :=
  .command Code.recoverBackup [] (by decide) (by decide) (fun h => absurd h (by decide))

theorem sent_updateBackupText (addr rest : Str) : Sent (updateBackupText addr ++ rest) := by
  have hmsg : updateBackupText addr ++ rest =
      Code.updateBackup ++ newline :: (cstr addr ++ newline :: rest) := by
    simp [updateBackupText]
  rw [hmsg]
  exact .command _ _ (by decide) (by decide) fun _ => by simp

theorem hashList_command {opt : Str} (hopt : newline ∉ opt) (hne : opt ≠ Code.updateHash)
    (rest : Str) : hashList (opt ++ newline :: rest) = none := by
  rw [hashList, takeWhile_line hopt, if_neg hne]

theorem hashList_moveDataMsg : hashList moveDataMsg = none :=
  hashList_command (show newline ∉ Code.moveData by decide) (by decide) [0]

theorem hashList_recoverBackupMsg : hashList recoverBackupMsg = none :=
  hashList_command (show newline ∉ Code.recoverBackup by decide) (by decide) []

theorem hashList_updateBackupText (addr rest : Str) :
    hashList (updateBackupText addr ++ rest) = none := by
  have hmsg : updateBackupText addr ++ rest =
      Code.updateBackup ++ newline :: (cstr addr ++ newline :: rest) := by
    simp [updateBackupText]
  rw [hmsg, hashList_command (by decide) (by decide)]

theorem isText_sockAddr2str (sa : SockAddrIn) : CacheServer.IsText (sockAddr2str sa) :=
  ⟨newline_notMem_sockAddr2str sa, zero_notMem_sockAddr2str sa⟩

theorem isText_addrs {addrs : List Str} (ha : ∀ a ∈ addrs, ∃ sa, a = sockAddr2str sa) :
    ∀ a ∈ addrs, CacheServer.IsText a := by
  intro a h
  obtain ⟨sa, rfl⟩ := ha a h
  exact isText_sockAddr2str sa

section HashText
variable {addrs : List Str} (ha : ∀ a ∈ addrs, CacheServer.IsText a)
include ha

/-- Addresses have no NUL in them, so none is cut off. -/
theorem updateHashText_eq : updateHashText addrs =
    Code.updateHash ++ newline :: addrs.flatMap (fun a => a ++ [newline]) := by
  have hnul : (0 : Byte) ∉ addrs.flatMap (fun a => a ++ [newline]) := by
    intro h
    obtain ⟨a, hmem, h0⟩ := List.mem_flatMap.mp h
    rcases List.mem_append.mp h0 with h0 | h0
    · exact (ha a hmem).2 h0
    · exact absurd (List.mem_singleton.mp h0) (by decide)
  rw [updateHashText, cstr_eq_self.mpr hnul]
  simp

theorem ipPortLines_hash :
    CacheServer.ipPortLines [] (addrs.flatMap (fun a => a ++ [newline]) ++ [0]) = addrs :=
  CacheServer.ipPortLines_flatMap (fun a h => (ha a h).1) (by decide)

theorem hashList_updateHashText : hashList (updateHashText addrs ++ [0]) = some addrs := by
  rw [updateHashText_eq ha, List.append_assoc, List.cons_append, hashList,
    takeWhile_line (by decide), if_pos rfl, dropWhile_line (by decide), ipPortLines_hash ha]

end HashText

section Read
variable (cbHashfunc : Str → ℤ) (s : CacheServer)

/-- The first line of a message decides what is done, whatever fills the array behind it. -/
private theorem untilNewline_buf {opt : Str} (hopt : newline ∉ opt) (rest fill : Str) :
    CacheServer.untilNewline (opt ++ newline :: rest ++ fill) = some opt := by
  rw [List.append_assoc, List.cons_append, CacheServer.untilNewline_line hopt]

theorem dealwithMasterMsg_hash (rest : Str) :
    s.dealwithMasterMsg cbHashfunc (.data (Code.updateHash ++ newline :: rest)) =
      (s.updateHash cbHashfunc (CacheServer.ipPortLines [] rest)).map (fun s => (0, none, s)) := by
  have hnl : newline ∉ Code.updateHash := by decide
  have hne : Code.updateHash ≠ Code.moveData := by decide
  simp only [CacheServer.dealwithMasterMsg, untilNewline_buf hnl,
    Option.bind_eq_bind, Option.bind_some, if_neg hne, if_true, drop_line]
  cases s.updateHash cbHashfunc (CacheServer.ipPortLines [] rest) <;> rfl

theorem dealwithMasterMsg_command {opt rest : Str} (hopt : newline ∉ opt)
    (hne : opt ≠ Code.updateHash) (hb : opt = Code.updateBackup → newline ∈ rest) :
    ∃ thread s', s.dealwithMasterMsg cbHashfunc (.data (opt ++ newline :: rest)) =
      some (0, thread, s') ∧ s'.cacheServerHash = s.cacheServerHash := by
  simp only [CacheServer.dealwithMasterMsg, untilNewline_buf hopt, Option.bind_eq_bind,
    Option.bind_some, if_neg hne]
  split_ifs with hmove hbackup hrecover
  · exact ⟨_, _, rfl, rfl⟩
  · obtain ⟨line, rest', hrest⟩ := List.append_of_mem (hb hbackup)
    have hread : newline ∈ List.drop (opt.length + 1) (opt ++ newline :: rest ++
        List.replicate (bufSize - (opt ++ newline :: rest).length) 0) := by
      rw [List.append_assoc, List.cons_append, drop_line, hrest]
      simp
    rw [CacheServer.untilNewline, if_pos hread]
    exact ⟨_, _, rfl, rfl⟩
  · exact ⟨_, _, rfl, rfl⟩
  · exact ⟨_, _, rfl, rfl⟩

/-- A server that reads an address list rebuilds its ring from it, and a command leaves the ring
alone. No message of the master makes it fault. -/
theorem dealwithMasterMsg_sent {msg : Str} (hmsg : Sent msg) :
    ∃ thread s', s.dealwithMasterMsg cbHashfunc (.data msg) = some (0, thread, s') ∧
      (hashList msg = none → s'.cacheServerHash = s.cacheServerHash) ∧
      ∀ addrs, hashList msg = some addrs →
        s'.cacheServerHash.Rep (HashRing.build (labelHashes cbHashfunc) addrs) := by
  cases hmsg with
  | hash addrs hn ha =>
    obtain ⟨c, hc, hr⟩ := s.updateHash_eq cbHashfunc hn fun a h => by
      obtain ⟨sa, rfl⟩ := ha a h
      exact isAddress_sockAddr2str sa
    have hlist := hashList_updateHashText (isText_addrs ha)
    refine ⟨none, { s with cacheServerHash := c }, ?_, fun h => ?_, fun addrs' h => ?_⟩
    · rw [updateHashText_eq (isText_addrs ha), List.append_assoc, List.cons_append,
        dealwithMasterMsg_hash, ipPortLines_hash (isText_addrs ha), hc]
      rfl
    · rw [hlist] at h
      cases h
    · obtain rfl := Option.some.inj (hlist.symm.trans h)
      exact hr
  | command opt rest hopt hne hb =>
    obtain ⟨thread, s', hs, hring⟩ :=
      dealwithMasterMsg_command cbHashfunc s hopt hne hb
    refine ⟨thread, s', hs, fun _ => hring, fun addrs h => ?_⟩
    rw [hashList_command hopt hne] at h
    cases h

end Read
end DCache.Cluster
