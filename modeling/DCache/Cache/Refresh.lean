import DCache.LRU.Refill
import DCache.Cache.Pipelining

/-! The refresh of a backup: the messages of `update`, read one by one by another server, whose
worker executes what they queue. -/
namespace DCache.CacheServer
open DCache.Lib DCache.LRU

/-- The texts that are sent, one for each `send`. -/
def messages (calls : List SysCall) : List Str :=
  calls.filterMap fun call => match call with
    | .send _ buf _ => some buf
    | _ => none

/-- Every message is read by a `recv` of its own, which has room for it, and every request that is
queued is executed, in any order of the two that finds room in the queue. The array holds what it
holds behind a message. -/
inductive Processes (cfd : ℤ) : List Str → CacheServer → CacheServer → Prop
  | done {r : CacheServer} (hqueue : r.workqueue = []) : Processes cfd [] r r
  | recv {r r' r'' : CacheServer} {bytes stale : Str} {ret : ℤ} {rest : List Str}
      (hbytes : bytes.length ≤ bufSize) (hstale : stale.length = bufSize - bytes.length)
      (hroom : r.workqueue.length < maxRequests)
      (hmsg : r.dealwithClientMsg cfd (.data bytes) stale = some (ret, r'))
      (hrest : Processes cfd rest r' r'') : Processes cfd (bytes :: rest) r r''
  | work {r r' r'' : CacheServer} {sent : Bool} {out : Option Str} {rest : List Str}
      (hqueue : r.workqueue ≠ []) (hrun : r.run sent = some (out, r'))
      (hrest : Processes cfd rest r' r'') : Processes cfd rest r r''

/-- The entries that a backup is to hold. -/
def cleanEntries (s : CacheServer) : List (Entry Str Str) :=
  s.lru.entries.filter fun e => !e.dirty

/-- The keys of the messages of `update`, as the receiver reads them. -/
def sentNames (s : CacheServer) : List Str := (keysOf s.lru.entries).map wireName

/-- The backup holds exactly the clean entries, in their order and all of them clean, and nothing
that did not come with the messages. -/
structure Refreshed (s r : CacheServer) : Prop where
  entries : r.lruBackup.entries = s.cleanEntries
  sent : keysOf r.lruBackup.entries ⊆ s.sentNames

/-- What a refresh can carry over from `s` to the backup of `r`. -/
structure Refreshable (s r : CacheServer) : Prop where
  fits : ∀ e ∈ s.lru.entries, (cstr e.key).length + (cstr e.val).length ≤ 1005
  named : s.sentNames.dedup = keysOf s.cleanEntries
  empty : ∀ e ∈ s.cleanEntries, e.val = []
  replaced : s.cleanEntries.length = s.lru.raw.cap ∨
    keysOf r.lruBackup.entries ⊆ keysOf s.cleanEntries
  yields : r.lruBackup.spec.Yields (keysOf s.cleanEntries)

section Worker
variable {r r' : CacheServer} {q : Request} {rest : List Request} {sent : Bool} {out : Option Str}

theorem spec_store (c : LRU.Cache Str Str) (key value : Str) :
    (store c key value).spec = c.spec.store key value := by
  have hdirty : (c.hasKey key && c.isDirty key) = c.spec.isDirty key := by
    rw [Bool.eq_iff_iff, Bool.and_eq_true, Cache.hasKey_iff, Cache.isDirty_iff,
      Recency.isDirty, Option.any_eq_true]
    apply and_iff_right_of_imp
    rintro ⟨e, he, -⟩
    exact find_isSome.mp (by rw [he]; rfl)
  rw [store, hdirty, Recency.store]
  split_ifs <;> rfl

/-- A request that the messages of `update` can leave in the queue. -/
def Quiet (q : Request) : Prop :=
  q.requestType = Code.setBackupValue ∨ Code.backupInvalid <+: q.requestType

/-- The write to the backup that a request stands for. -/
def writes (q : Request) : List (Str × Str) :=
  if q.requestType = Code.setBackupValue then [(q.key, q.value)] else []

theorem ne_of_invalid_isPrefix {opt word : Str} (h : Code.backupInvalid <+: opt)
    (hword : word.head? ≠ some 98) : opt ≠ word := by
  rintro rfl
  obtain ⟨t, rfl⟩ := h
  exact hword (by rw [List.head?_append]; rfl)

/-- The work on a request that is no read and no write to `lru`. -/
theorem of_run_quiet (hq : Quiet q) (hqueue : r.workqueue = q :: rest)
    (h : r.run sent = some (out, r')) :
    r'.workqueue = rest ∧ r'.lruBackup.spec = r.lruBackup.spec.storeAll (writes q) := by
  simp only [run, hqueue] at h
  rcases hq with hopt | hopt
  · rw [writes, if_pos hopt]
    rw [hopt, if_neg (by decide), if_neg (by decide), if_pos rfl] at h
    obtain ⟨-, rfl⟩ := Prod.mk.inj (Option.some.inj h)
    exact ⟨rfl, spec_store _ _ _⟩
  · have hne : q.requestType ≠ Code.setBackupValue := ne_of_invalid_isPrefix hopt (by decide)
    rw [writes, if_neg hne]
    rw [if_neg (ne_of_invalid_isPrefix hopt (by decide)),
      if_neg (ne_of_invalid_isPrefix hopt (by decide)), if_neg hne,
      if_neg (ne_of_invalid_isPrefix hopt (by decide))] at h
    obtain ⟨-, rfl⟩ := Prod.mk.inj (Option.some.inj h)
    exact ⟨rfl, rfl⟩

end Worker

section Reader
variable {r r' : CacheServer} {cfd ret : ℤ} {stale key value : Str}

/-- What a message of `update` puts into the queue, and that it puts nothing else anywhere. -/
structure Queues (r r' : CacheServer) (ps : List (Str × Str)) : Prop where
  backup : r'.lruBackup = r.lruBackup
  queued : ∃ qs, r'.workqueue = r.workqueue ++ qs ∧ (∀ q ∈ qs, Quiet q) ∧ qs.flatMap writes = ps

theorem writeMsg_line (key value : Str) : writeMsg Code.setBackupValue key value =
    Code.setBackupValue ++ newline :: (cstr key ++ newline :: cstr value) := by
  simp [writeMsg]

/-- A write is queued with the name of its key and without its value. -/
theorem dealwithClientMsg_write (hroom : r.workqueue.length < maxRequests) (cfd : ℤ)
    (key value stale : Str) :
    r.dealwithClientMsg cfd (.data (writeMsg Code.setBackupValue key value)) stale =
      some (0, { r with
        connectedMap := (r.connectedMap.index cfd []).2
        workqueue := r.workqueue ++ [⟨Code.setBackupValue, (r.connectedMap.index cfd []).1,
          wireName key, [], cfd⟩] }) := by
  rw [writeMsg_line, dealwithClientMsg_line _ _ _ (by decide) (by decide) hroom,
    takeWhile_cstr_line]

theorem queues_of_write (hroom : r.workqueue.length < maxRequests)
    (h : r.dealwithClientMsg cfd (.data (writeMsg Code.setBackupValue key value)) stale =
      some (ret, r')) : Queues r r' [(wireName key, [])] := by
  rw [dealwithClientMsg_write hroom] at h
  obtain ⟨-, rfl⟩ := Prod.mk.inj (Option.some.inj h)
  refine ⟨rfl, _, rfl, ?_, rfl⟩
  intro q hq
  obtain rfl := List.mem_singleton.mp hq
  exact Or.inl rfl

/-- `BACKUP_INVALID` has no effect, or it is read as a part of the type of an unknown request. -/
theorem queues_of_invalid (hroom : r.workqueue.length < maxRequests)
    (h : r.dealwithClientMsg cfd (.data Code.backupInvalid) stale = some (ret, r')) :
    Queues r r' [] := by
  have hfull : ¬ r.workqueue.length ≥ maxRequests := by omega
  have hword : newline ∉ Code.backupInvalid := by decide
  cases hopt : untilNewline (Code.backupInvalid ++ stale) with
  | none => simp [dealwithClientMsg, hopt] at h
  | some opt =>
    have hprefix : Code.backupInvalid <+: opt := by
      rw [untilNewline] at hopt
      split_ifs at hopt
      obtain rfl := Option.some.inj hopt
      rw [List.takeWhile_append_of_pos (by simpa [List.forall_mem_ne'] using hword)]
      exact List.prefix_append _ _
    simp only [dealwithClientMsg, hopt, Option.bind_eq_bind, Option.bind_some, append,
      if_neg hfull] at h
    by_cases hinv : opt = Code.backupInvalid
    · rw [if_pos hinv] at h
      obtain ⟨-, rfl⟩ := Prod.mk.inj (Option.some.inj h)
      exact ⟨rfl, [], (List.append_nil _).symm, by simp, rfl⟩
    · rw [if_neg hinv] at h
      obtain ⟨-, rfl⟩ := Prod.mk.inj (Option.some.inj h)
      refine ⟨rfl, _, rfl, ?_, ?_⟩
      · intro q hq
        obtain rfl := List.mem_singleton.mp hq
        exact Or.inr hprefix
      · have hne : opt ≠ Code.setBackupValue := ne_of_invalid_isPrefix hprefix (by decide)
        rw [List.flatMap_singleton, writes, if_neg hne]

/-- The text of a write, or of `BACKUP_INVALID`. -/
def messageText : Option (Str × Str) → Str
  | none => Code.backupInvalid
  | some p => writeMsg Code.setBackupValue p.1 p.2

theorem queues_of_message {item : Option (Str × Str)} (hroom : r.workqueue.length < maxRequests)
    (h : r.dealwithClientMsg cfd (.data (messageText item)) stale = some (ret, r')) :
    Queues r r' (item.toList.map fun p => (wireName p.1, [])) := by
  cases item with
  | none => exact queues_of_invalid hroom h
  | some p => exact queues_of_write hroom h

/-- A processing makes the writes that are queued at its beginning, and then those of the messages
with the names of their keys and no values. -/
theorem of_processes {items : List (Option (Str × Str))}
    (h : Processes cfd (items.map messageText) r r') (hquiet : ∀ q ∈ r.workqueue, Quiet q) :
    r'.lruBackup.spec = r.lruBackup.spec.storeAll (r.workqueue.flatMap writes ++
      items.flatMap fun item => item.toList.map fun p => (wireName p.1, [])) := by
  generalize htexts : items.map messageText = texts at h
  induction h generalizing items with
  | done hqueue =>
    obtain rfl := List.map_eq_nil_iff.mp htexts
    rw [hqueue]
    rfl
  | @recv r r₁ r' bytes stale ret rest hbytes hstale hroom hmsg hrest ih =>
    obtain ⟨item, items, rfl, rfl, rfl⟩ := List.map_eq_cons_iff.mp htexts
    obtain ⟨hbackup, qs, hqueue, hqs, hwrites⟩ := queues_of_message hroom hmsg
    have hquiet' : ∀ q ∈ r₁.workqueue, Quiet q := by
      intro q hq
      rw [hqueue, List.mem_append] at hq
      exact hq.elim (hquiet q) (hqs q)
    rw [ih hquiet' rfl, hbackup, hqueue, List.flatMap_append, hwrites, List.flatMap_cons,
      List.append_assoc]
  | @work r r₁ r' sent out rest hne hrun hrest ih =>
    obtain ⟨q, queue, hqueue⟩ := List.exists_cons_of_ne_nil hne
    rw [hqueue] at hquiet
    obtain ⟨hq, hquiet'⟩ := List.forall_mem_cons.mp hquiet
    obtain ⟨hqueue', hspec⟩ := of_run_quiet hq hqueue hrun
    rw [ih (hqueue' ▸ hquiet') htexts, hspec, hqueue', hqueue, List.flatMap_cons,
      List.append_assoc, Recency.storeAll_append _ (writes q)]

end Reader

section Progress
variable (cfd : ℤ)

theorem run_setBackupValue {r : CacheServer} {q : Request} {rest : List Request}
    (hqueue : r.workqueue = q :: rest) (hopt : q.requestType = Code.setBackupValue) (sent : Bool) :
    r.run sent = some (none, ({ r with workqueue := rest }.setBackupValue q.key q.value).2) := by
  simp only [run, hqueue]
  rw [hopt, if_neg (by decide), if_neg (by decide), if_pos rfl]

theorem exists_processes_writes {ps : List (Str × Str)}
    (hfits : ∀ p ∈ ps, Fits (messageText (some p))) (r : CacheServer) (hqueue : r.workqueue = []) :
    ∃ r', Processes cfd (ps.map fun p => messageText (some p)) r r' := by
  induction ps generalizing r with
  | nil => exact ⟨r, .done hqueue⟩
  | cons p ps ih =>
    obtain ⟨hp, hps⟩ := List.forall_mem_cons.mp hfits
    have hroom : r.workqueue.length < maxRequests := by
      rw [hqueue]
      decide
    obtain ⟨r', hr'⟩ := ih hps ({ r with
      connectedMap := (r.connectedMap.index cfd []).2
      workqueue := [] }.setBackupValue (wireName p.1) []).2 rfl
    have hmsg := dealwithClientMsg_write hroom cfd p.1 p.2
      (List.replicate (bufSize - (messageText (some p)).length) 0)
    rw [hqueue, List.nil_append] at hmsg
    have hrun := run_setBackupValue (r := { r with
      connectedMap := (r.connectedMap.index cfd []).2
      workqueue := [⟨Code.setBackupValue, (r.connectedMap.index cfd []).1, wireName p.1, [], cfd⟩] })
      rfl rfl true
    exact ⟨r', .recv (Nat.le_of_succ_le hp) List.length_replicate hroom hmsg
      (.work (by simp) hrun hr')⟩

theorem exists_processes {ps : List (Str × Str)}
    (hfits : ∀ p ∈ ps, Fits (messageText (some p))) (r : CacheServer) (hqueue : r.workqueue = []) :
    ∃ r', Processes cfd ((none :: ps.map some).map messageText) r r' := by
  obtain ⟨r', hr'⟩ := exists_processes_writes cfd hfits r hqueue
  have hroom : r.workqueue.length < maxRequests := by
    rw [hqueue]
    decide
  have hmsg : r.dealwithClientMsg cfd (.data Code.backupInvalid)
      (newline :: List.replicate (bufSize - Code.backupInvalid.length - 1) 0) = some (0, r) := by
    simp only [dealwithClientMsg, untilNewline_line (show newline ∉ Code.backupInvalid by decide),
      Option.bind_eq_bind, Option.bind_some, if_true]
  rw [List.map_cons, List.map_map]
  refine ⟨r', .recv (by decide) ?_ hroom hmsg hr'⟩
  rw [List.length_cons, List.length_replicate]
  decide

end Progress

section Sender
variable (s : CacheServer)

theorem exists_updateLoop (cfd : ℤ) (sent : ℕ → Bool) {es : List (Entry Str Str)} (i : ℕ)
    (h : ∀ e ∈ es, find s.lru.entries e.key = some e) :
    ∃ calls s', updateLoop cfd sent i s (keysOf es) = some (calls, s') ∧
      messages calls = es.map fun e => messageText (some (e.key, e.val)) := by
  induction es generalizing s i with
  | nil => exact ⟨[], s, rfl, rfl⟩
  | cons e es ih =>
    obtain ⟨he, hes⟩ := List.forall_mem_cons.mp h
    obtain ⟨lru, hget, hentries⟩ := s.lru.get_of_find e.key he
    obtain ⟨calls, s', hloop, hmsgs⟩ := ih { s with lru := lru } (i + 1) fun e' he' => by
      rw [hentries, s.lru.find_promoted _ _ he]
      exact hes e' he'
    refine ⟨.send cfd (writeMsg Code.setBackupValue e.key e.val) (sent i) :: calls, s', ?_, ?_⟩
    · simp only [keysOf_cons, updateLoop, hget, Option.bind_eq_bind, Option.bind_some, hloop]
    · exact congrArg (messageText (some (e.key, e.val)) :: ·) hmsgs

/-- The pairs of `lru`, as `update` sends them. -/
def sentPairs : List (Str × Str) := s.lru.entries.map fun e => (e.key, e.val)

theorem exists_update {net : Net} (hnet : net.connected = true) (sent : ℕ → Bool) (ipPort : Str) :
    ∃ calls s', s.update net sent ipPort = some (calls, s') ∧
      messages calls = (none :: s.sentPairs.map some).map messageText := by
  obtain ⟨calls, s', hloop, hmsgs⟩ := s.exists_updateLoop net.cfd sent 0
    fun e he => find_of_mem s.lru.nodup he
  refine ⟨[.socket net.cfd, .connect net.cfd (str2sockAddr net.res ipPort) net.connected] ++
    .send net.cfd Code.backupInvalid net.sent :: calls, s', ?_, ?_⟩
  · simp only [update, hnet, if_true, Cache.lruKeysOneshot_eq, hloop, Option.bind_eq_bind,
      Option.bind_some]
  · rw [sentPairs, List.map_cons, List.map_map, List.map_map]
    exact congrArg (Code.backupInvalid :: ·) hmsgs

/-- The messages of `update` fit its array if and only if their keys and values do. -/
theorem fits_messages_iff :
    (∀ msg ∈ (none :: s.sentPairs.map some).map messageText, Fits msg) ↔
      ∀ e ∈ s.lru.entries, (cstr e.key).length + (cstr e.val).length ≤ 1005 := by
  have hlength : ∀ e : Entry Str Str, Fits (messageText (some (e.key, e.val))) ↔
      (cstr e.key).length + (cstr e.val).length ≤ 1005 := by
    intro e
    have hopt : Code.setBackupValue.length = 16 := rfl
    simp only [messageText, writeMsg, Fits, bufSize, List.length_append, List.length_singleton, hopt]
    omega
  have hinvalid : Fits (messageText none) := by decide
  rw [List.map_cons, List.forall_mem_cons, and_iff_right hinvalid, List.map_map,
    List.forall_mem_map, sentPairs, List.forall_mem_map]
  exact forall₂_congr fun e _ => hlength e

end Sender

section Refresh
variable {s r r' : CacheServer} {cfd : ℤ}

/-- For keys that a line can carry the names are right where no entry is dirty. -/
theorem named_iff_of_isText (h : ∀ key ∈ keysOf s.lru.entries, IsText key) :
    s.sentNames.dedup = keysOf s.cleanEntries ↔ ∀ e ∈ s.lru.entries, e.dirty = false := by
  have hnames : s.sentNames = keysOf s.lru.entries := by
    conv_rhs => rw [← List.map_id (keysOf s.lru.entries)]
    exact List.map_congr_left fun key hkey => wireName_eq_self.mpr (h key hkey)
  rw [hnames, s.lru.nodup.dedup]
  constructor
  · intro hkeys e he
    have hlen : s.lru.entries.length = s.cleanEntries.length := by
      simpa [keysOf] using congrArg List.length hkeys
    have hall : s.cleanEntries = s.lru.entries := List.filter_sublist.eq_of_length hlen.symm
    have hmem : e ∈ s.cleanEntries := hall ▸ he
    simpa using (List.mem_filter.mp hmem).2
  · intro hclean
    have hall : s.cleanEntries = s.lru.entries :=
      List.filter_eq_self.mpr fun e he => by rw [hclean e he]; rfl
    rw [hall]

/-- The backup after a processing: the names of the keys are written with empty values. -/
theorem spec_of_processes (hqueue : r.workqueue = [])
    (h : Processes cfd ((none :: s.sentPairs.map some).map messageText) r r') :
    r'.lruBackup.spec = r.lruBackup.spec.storeAll (Recency.pairs [] s.sentNames) := by
  have hwrites : (none :: s.sentPairs.map some).flatMap
      (fun item => item.toList.map fun p => (wireName p.1, [])) =
        Recency.pairs ([] : Str) s.sentNames := by
    simp only [sentPairs, sentNames, keysOf, Recency.pairs, List.flatMap_cons, Option.toList_none,
      List.map_nil, List.nil_append, List.flatMap_map, List.map_map]
    exact List.map_eq_flatMap.symm
  have hspec := of_processes h (by simp [hqueue])
  rwa [hqueue, List.flatMap_nil, List.nil_append, hwrites] at hspec

theorem refreshed_iff_of_processes (hcap : r.lruBackup.raw.cap = s.lru.raw.cap)
    (hqueue : r.workqueue = [])
    (h : Processes cfd ((none :: s.sentPairs.map some).map messageText) r r') :
    Refreshed s r' ↔ s.sentNames.dedup = keysOf s.cleanEntries ∧
      (∀ e ∈ s.cleanEntries, e.val = []) ∧
        (s.cleanEntries.length = s.lru.raw.cap ∨
          keysOf r.lruBackup.entries ⊆ keysOf s.cleanEntries) ∧
          r.lruBackup.spec.Yields (keysOf s.cleanEntries) := by
  have hcap' : r.lruBackup.spec.cap = s.lru.spec.cap := by
    have hcast : (r.lruBackup.spec.cap : ℤ) = s.lru.spec.cap := by
      rw [← r.lruBackup.sim.2, ← s.lru.sim.2, hcap]
    exact_mod_cast hcast
  have hfull : (s.cleanEntries.length : ℤ) = s.lru.raw.cap ↔
      s.cleanEntries.length = r.lruBackup.spec.cap := by
    rw [← hcap, r.lruBackup.sim.2, Nat.cast_inj]
  have hlen : s.sentNames.length ≤ r.lruBackup.spec.cap := by
    rw [hcap', sentNames, keysOf, List.length_map, List.length_map]
    exact s.lru.spec.bounded
  have hnodup : (keysOf s.cleanEntries).Nodup :=
    s.lru.nodup.sublist (List.filter_sublist.map Entry.key)
  have hclean : ∀ e ∈ s.cleanEntries, e.dirty = false := fun e he => by
    simpa using (List.mem_filter.mp he).2
  have hentries : r'.lruBackup.entries =
      (r.lruBackup.spec.storeAll (Recency.pairs [] s.sentNames)).entries := by
    rw [LRU.Cache.entries, spec_of_processes hqueue h]
  have hiff : Refreshed s r' ↔
      (r.lruBackup.spec.storeAll (Recency.pairs [] s.sentNames)).entries = s.cleanEntries ∧
        keysOf s.cleanEntries ⊆ s.sentNames := by
    rw [← hentries]
    exact ⟨fun h => ⟨h.entries, h.entries ▸ h.sent⟩, fun h => ⟨h.1, h.1.symm ▸ h.2⟩⟩
  rw [hiff, Recency.storeAll_entries_iff hnodup hclean hlen, hfull]
  rfl

/-- The messages of `update` can be processed if they fit its array, and however they are, they fit
it and the backup is refreshed if and only if the keys of the clean entries are those that the
receiver reads, these entries have no values, they fill the cache or have all the keys of the
previous backup, and no write is refused. -/
theorem refreshed_iff (hcap : r.lruBackup.raw.cap = s.lru.raw.cap) (hqueue : r.workqueue = [])
    {net : Net} (hnet : net.connected = true) (sent : ℕ → Bool) (ipPort : Str) (cfd : ℤ) :
    ∃ calls s', s.update net sent ipPort = some (calls, s') ∧
      ((∀ msg ∈ messages calls, Fits msg) → ∃ r', Processes cfd (messages calls) r r') ∧
      ∀ r', Processes cfd (messages calls) r r' →
        ((∀ msg ∈ messages calls, Fits msg) ∧ Refreshed s r' ↔ Refreshable s r) := by
  obtain ⟨calls, s', hupdate, hmsgs⟩ := s.exists_update hnet sent ipPort
  refine ⟨calls, s', hupdate, ?_⟩
  rw [hmsgs]
  refine ⟨fun hfits => exists_processes cfd (fun p hp => hfits _ ?_) r hqueue, fun r' hr' => ?_⟩
  · simp only [List.map_cons, List.mem_cons, List.map_map]
    exact Or.inr (List.mem_map_of_mem hp)
  · rw [fits_messages_iff, refreshed_iff_of_processes hcap hqueue hr']
    exact ⟨fun ⟨hfits, hnamed, hempty, hreplaced, hyields⟩ =>
      ⟨hfits, hnamed, hempty, hreplaced, hyields⟩,
      fun h => ⟨h.fits, h.named, h.empty, h.replaced, h.yields⟩⟩

end Refresh

/-- A server that stores one pair. -/
def storing (key value : Str) : CacheServer :=
  { CacheServer.new with lru := CacheServer.new.lru.set key value }

def connectedNet : Net := ⟨5, ⟨afInet, htons 6001, .any⟩, true, true⟩

theorem refreshed_iff_empty : ∃ calls s',
    (storing (lit "k") []).update connectedNet (fun _ => true) (lit "10.0.0.2:6001") =
      some (calls, s') ∧
      ((∀ msg ∈ messages calls, Fits msg) → ∃ r', Processes 7 (messages calls) .new r') ∧
      ∀ r', Processes 7 (messages calls) .new r' →
        ((∀ msg ∈ messages calls, Fits msg) ∧ Refreshed (storing (lit "k") []) r' ↔
          Refreshable (storing (lit "k") []) .new) :=
  refreshed_iff rfl rfl rfl _ _ _

/-- The value of the pair is lost on its way into the backup. -/
theorem not_refreshed : ∃ calls s',
    (storing (lit "k") (lit "v")).update connectedNet (fun _ => true) (lit "10.0.0.2:6001") =
      some (calls, s') ∧
      (∃ r', Processes 7 (messages calls) .new r') ∧
      ∀ r', Processes 7 (messages calls) .new r' → ¬ Refreshed (storing (lit "k") (lit "v")) r' := by
  have hfits : ∀ p ∈ (storing (lit "k") (lit "v")).sentPairs, Fits (messageText (some p)) := by
    decide
  obtain ⟨calls, s', hupdate, hmsgs⟩ := (storing (lit "k") (lit "v")).exists_update
    (show connectedNet.connected = true from rfl) (fun _ => true) (lit "10.0.0.2:6001")
  refine ⟨calls, s', hupdate, ?_⟩
  rw [hmsgs]
  refine ⟨exists_processes 7 hfits .new rfl, fun r' hr' hrefreshed => ?_⟩
  have hempty := ((refreshed_iff_of_processes rfl rfl hr').mp hrefreshed).2.1
  exact absurd (hempty ⟨lit "k", lit "v", false⟩ (by decide)) (by decide)

end DCache.CacheServer
