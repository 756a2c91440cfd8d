import DCache.Lib.Threads
import DCache.Cache.HandOver

/-! The functions of a cache server that run on threads of their own, cut into the steps between
which other threads can run: the operations of the mutexes, the accesses to `state`, the calls of
`ThreadSafeLRUCache`, the look-ups in the ring and the system calls. A thread that runs alone does
what the function of the server does. -/
namespace DCache.CacheThreads
open DCache.Lib
open CacheServer (SysCall Net Request moveMsg writeMsg)

/-- `lru` with `lru_mutex`, or `lru_backup` with `lru_backup_mutex`. -/
inductive Table
  | lru
  | lruBackup
deriving DecidableEq

/-- A system call is listed with its result. -/
inductive Op
  | lock (t : Table)
  | unlock (t : Table)
  | readState
  | writeState (state : ℤ)
  | writeBackupInvalid (backupInvalid : ℤ)
  | hasKey (t : Table) (key : Str)
  | isDirty (t : Table) (key : Str)
  | get (t : Table) (key : Str)
  | set (t : Table) (key value : Str)
  | setDirty (t : Table) (key : Str)
  | lruKeysOneshot (t : Table)
  | owner (key : Str)
  | clientAddr (cfd : ℤ)
  | sysCall (call : SysCall)
deriving DecidableEq

def Op.Res : Op → Type
  | .readState => ℤ
  | .hasKey _ _ | .isDirty _ _ => Bool
  | .get _ _ | .owner _ | .clientAddr _ => Str
  | .lruKeysOneshot _ => List Str
  | _ => Unit

abbrev Prog := Code Op.Res

/-- The server, and which thread holds which mutex. -/
structure Shared where
  server : CacheServer
  mutex : Table → Option ℕ

def table (s : CacheServer) : Table → LRU.Cache Str Str
  | .lru => s.lru
  | .lruBackup => s.lruBackup

def withTable (s : CacheServer) : Table → LRU.Cache Str Str → CacheServer
  | .lru, c => { s with lru := c }
  | .lruBackup, c => { s with lruBackup := c }

namespace Shared

def setMutex (m : Shared) (t : Table) (o : Option ℕ) : Shared :=
  { m with mutex := Function.update m.mutex t o }

def setTable (m : Shared) (t : Table) (c : LRU.Cache Str Str) : Shared :=
  { m with server := withTable m.server t c }

end Shared

/-- A step of the thread `i`. A mutex that is unlocked is free, whoever held it. -/
def perform (cbHashfunc : Str → ℤ) (i : ℕ) : (op : Op) → Shared → Outcome op.Res Shared
  | .lock t, m => if m.mutex t = none then .ok () (m.setMutex t (some i)) else .blocked
  | .unlock t, m => .ok () (m.setMutex t none)
  | .readState, m => .ok m.server.state m
  | .writeState v, m => .ok () { m with server := { m.server with state := v } }
  | .writeBackupInvalid v, m => .ok () { m with server := { m.server with backupInvalid := v } }
  | .hasKey t key, m => .ok ((table m.server t).hasKey key) m
  | .isDirty t key, m => .ok ((table m.server t).isDirty key) m
  | .get t key, m =>
    match (table m.server t).get key with
    | none => .fault
    | some (value, c) => .ok value (m.setTable t c)
  | .set t key value, m => .ok () (m.setTable t ((table m.server t).set key value))
  | .setDirty t key, m => .ok () (m.setTable t ((table m.server t).setDirty key))
  | .lruKeysOneshot t, m => .ok (table m.server t).lruKeysOneshot m
  | .owner key, m =>
    match m.server.cacheServerHash.conhashGetCacheServer cbHashfunc key with
    | none => .fault
    | some addr => .ok addr m
  | .clientAddr cfd, m =>
    .ok (m.server.connectedMap.index cfd []).1
      { m with server := { m.server with connectedMap := (m.server.connectedMap.index cfd []).2 } }
  | .sysCall _, m => .ok () m

section Perform
variable {cbHashfunc : Str → ℤ} {i : ℕ} {m m' : Shared} {t : Table} {key : Str}

theorem perform_lock (h : m.mutex t = none) :
    perform cbHashfunc i (.lock t) m = .ok () (m.setMutex t (some i)) := if_pos h

theorem of_perform_lock {r : Unit} (h : perform cbHashfunc i (.lock t) m = .ok r m') :
    m.mutex t = none ∧ m' = m.setMutex t (some i) := by
  by_cases hfree : m.mutex t = none
  · rw [perform_lock hfree] at h
    exact ⟨hfree, (Outcome.of_ok h).2.symm⟩
  · have hblocked : perform cbHashfunc i (.lock t) m = .blocked := if_neg hfree
    rw [hblocked] at h
    cases h

theorem perform_get {value : Str} {c : LRU.Cache Str Str}
    (h : (table m.server t).get key = some (value, c)) :
    perform cbHashfunc i (.get t key) m = .ok value (m.setTable t c) := by
  simp only [perform, h]

theorem of_perform_get {value : Str} (h : perform cbHashfunc i (.get t key) m = .ok value m') :
    ∃ c, (table m.server t).get key = some (value, c) ∧ m' = m.setTable t c := by
  cases hget : (table m.server t).get key with
  | none =>
    have hfault : perform cbHashfunc i (.get t key) m = .fault := by simp only [perform, hget]
    rw [hfault] at h
    cases h
  | some o =>
    rw [perform_get hget] at h
    obtain ⟨rfl, rfl⟩ := Outcome.of_ok h
    exact ⟨o.2, rfl, rfl⟩

theorem perform_owner {addr : Str}
    (h : m.server.cacheServerHash.conhashGetCacheServer cbHashfunc key = some addr) :
    perform cbHashfunc i (.owner key) m = .ok addr m := by
  simp only [perform, h]

theorem of_perform_owner {addr : Str} (h : perform cbHashfunc i (.owner key) m = .ok addr m') :
    m.server.cacheServerHash.conhashGetCacheServer cbHashfunc key = some addr ∧ m' = m := by
  cases howner : m.server.cacheServerHash.conhashGetCacheServer cbHashfunc key with
  | none =>
    have hfault : perform cbHashfunc i (.owner key) m = .fault := by simp only [perform, howner]
    rw [hfault] at h
    cases h
  | some addr' =>
    rw [perform_owner howner] at h
    obtain ⟨rfl, rfl⟩ := Outcome.of_ok h
    exact ⟨rfl, rfl⟩

end Perform

section Requests

def reply (cfd : ℤ) (msg : Str) (sent : Bool) : Prog :=
  .call (.sysCall (.send cfd msg sent)) fun _ => .done

/-- The second half of a read, which asks the table once more. -/
def readFrom (t : Table) (key : Str) (cfd : ℤ) (sent : Bool) : Prog :=
  .call (.hasKey t key) fun (present : Bool) =>
    if present then .call (.get t key) fun (value : Str) =>
      reply cfd (cstr (Code.getSuccess ++ [newline] ++ value)) sent
    else reply cfd Code.dataNotExist sent

def getFrom (t : Table) (key : Str) (cfd : ℤ) (sent : Bool) : Prog :=
  .call (.hasKey t key) fun (present : Bool) =>
    if present then .call (.isDirty t key) fun (dirty : Bool) =>
      if dirty then reply cfd Code.dirtyData sent else readFrom t key cfd sent
    else readFrom t key cfd sent

def leave (t : Table) : Prog := .call (.unlock t) fun _ => .done

/-- The section of a write. -/
def locked (t : Table) (key value : Str) : Prog :=
  .call (.hasKey t key) fun (present : Bool) =>
    if present then .call (.isDirty t key) fun (dirty : Bool) =>
      if dirty then leave t else .call (.set t key value) fun _ => leave t
    else .call (.set t key value) fun _ => leave t

def setIn (t : Table) (key value : Str) : Prog := .call (.lock t) fun _ => locked t key value

def getValue : Str → ℤ → Bool → Prog := getFrom .lru

def setValue : Str → Str → Prog := setIn .lru

def getBackupValue : Str → ℤ → Bool → Prog := getFrom .lruBackup

def setBackupValue : Str → Str → Prog := setIn .lruBackup

/-- What a worker does with a request that it has taken from the queue. -/
def handle (request : Request) (sent : Bool) : Prog :=
  if request.requestType = Code.setValue then setValue request.key request.value
  else if request.requestType = Code.getValue then getValue request.key request.cfd sent
  else if request.requestType = Code.setBackupValue then setBackupValue request.key request.value
  else if request.requestType = Code.getBackupValue then
    getBackupValue request.key request.cfd sent
  else .call (.clientAddr request.cfd) fun _ => .done

end Requests

section Update

def updateLoop (cfd : ℤ) (sent : ℕ → Bool) : ℕ → List Str → Prog
  | _, [] => .done
  | i, key :: keys => .call (.get .lru key) fun (value : Str) =>
    .call (.sysCall (.send cfd (writeMsg Code.setBackupValue key value) (sent i))) fun _ =>
      updateLoop cfd sent (i + 1) keys

def update (net : Net) (sent : ℕ → Bool) (ipPort : Str) : Prog :=
  .call (.sysCall (.socket net.cfd)) fun _ =>
    .call (.sysCall (.connect net.cfd (str2sockAddr net.res ipPort) net.connected)) fun _ =>
      if net.connected then
        .call (.sysCall (.send net.cfd Code.backupInvalid net.sent)) fun _ =>
          .call (.lruKeysOneshot .lru) fun (keys : List Str) => updateLoop net.cfd sent 0 keys
      else .done

end Update

section Move

def release (state : ℤ) : Prog :=
  if state = 0 then leave .lru
  else .call (.unlock .lruBackup) fun _ => .call (.writeState 0) fun _ =>
    .call (.writeBackupInvalid 1) fun _ => .done

/-- `state` is read again to know which mutex to unlock. -/
def endMove : Prog := .call .readState release

/-- A key is marked dirty once it is sent; a call that fails breaks off the loop. -/
def sendKey (net : Net) (key : Str) (more : Prog) : Prog :=
  .call (.sysCall (.send net.cfd (moveMsg key) net.sent)) fun _ =>
    if net.sent then .call (.setDirty .lru key) fun _ => more else endMove

def handOff (net : Net) (key newAddr : Str) (more : Prog) : Prog :=
  if newAddr ≠ [] then .call (.sysCall (.close net.cfd)) fun _ =>
    .call (.sysCall (.connect net.cfd (str2sockAddr net.res newAddr) net.connected)) fun _ =>
      if net.connected then sendKey net key more else endMove
  else sendKey net key more

/-- One turn of the loop, and what comes after it. -/
def moveKey (localAddr : Str) (net : Net) (key : Str) (more : Prog) : Prog :=
  .call (.sysCall (.socket net.cfd)) fun _ => .call (.hasKey .lru key) fun (present : Bool) =>
    if present then .call (.get .lru key) fun _ => .call (.owner key) fun (newAddr : Str) =>
      if newAddr ≠ localAddr then handOff net key newAddr more else more
    else more

def moveLoop (localAddr : Str) (net : ℕ → Net) : ℕ → List Str → Prog
  | _, [] => endMove
  | i, key :: keys => moveKey localAddr (net i) key (moveLoop localAddr net (i + 1) keys)

/-- What `move` does once it has its list of keys. -/
def moveKeys (localAddr : Str) (net : ℕ → Net) (t : Table) (keys : List Str) : Prog :=
  .call (.lock t) fun _ => moveLoop localAddr net 0 keys

/-- The table whose keys are moved, and whose mutex is locked. -/
def tableOf (state : ℤ) : Table := if state = 0 then .lru else .lruBackup

def takeKeys (localAddr : Str) (net : ℕ → Net) (state : ℤ) : Prog :=
  .call (.lruKeysOneshot (tableOf state)) fun (keys : List Str) =>
    moveKeys localAddr net (tableOf state) keys

def move (localAddr : Str) (net : ℕ → Net) : Prog := .call .readState (takeKeys localAddr net)

end Move

section Operations
variable {t : Table} {key value : Str}

/-- The operations of a write. -/
inductive WriteOp (t : Table) (key : Str) : Op → Prop
  | lock : WriteOp t key (.lock t)
  | hasKey : WriteOp t key (.hasKey t key)
  | isDirty : WriteOp t key (.isDirty t key)
  | set (value : Str) : WriteOp t key (.set t key value)
  | unlock : WriteOp t key (.unlock t)

/-- The operations of a read. -/
inductive ReadOp (t : Table) (key : Str) : Op → Prop
  | hasKey : ReadOp t key (.hasKey t key)
  | isDirty : ReadOp t key (.isDirty t key)
  | get : ReadOp t key (.get t key)
  | sysCall (call : SysCall) : ReadOp t key (.sysCall call)

inductive UpdateOp : Op → Prop
  | lruKeysOneshot : UpdateOp (.lruKeysOneshot .lru)
  | get (key : Str) : UpdateOp (.get .lru key)
  | sysCall (call : SysCall) : UpdateOp (.sysCall call)

inductive EndMoveOp : Op → Prop
  | readState : EndMoveOp .readState
  | unlock (t : Table) : EndMoveOp (.unlock t)
  | writeState (state : ℤ) : EndMoveOp (.writeState state)
  | writeBackupInvalid (backupInvalid : ℤ) : EndMoveOp (.writeBackupInvalid backupInvalid)

inductive MoveOp : Op → Prop
  | endMove {op : Op} (h : EndMoveOp op) : MoveOp op
  | lruKeysOneshot (t : Table) : MoveOp (.lruKeysOneshot t)
  | lock (t : Table) : MoveOp (.lock t)
  | hasKey (key : Str) : MoveOp (.hasKey .lru key)
  | get (key : Str) : MoveOp (.get .lru key)
  | owner (key : Str) : MoveOp (.owner key)
  | setDirty (key : Str) : MoveOp (.setDirty .lru key)
  | sysCall (call : SysCall) : MoveOp (.sysCall call)

theorem only_leave : (leave t).Only (WriteOp t key) := ⟨.unlock, fun _ => trivial⟩

theorem only_locked : (locked t key value).Only (WriteOp t key) := by
  have hwrite : Code.Only (WriteOp t key) (.call (.set t key value) fun _ => leave t) :=
    ⟨.set value, fun _ => only_leave⟩
  refine ⟨.hasKey, fun (present : Bool) => ?_⟩
  cases present with
  | false => exact hwrite
  | true =>
    refine ⟨.isDirty, fun (dirty : Bool) => ?_⟩
    cases dirty with
    | false => exact hwrite
    | true => exact only_leave

theorem only_setIn : (setIn t key value).Only (WriteOp t key) := ⟨.lock, fun _ => only_locked⟩

theorem only_getFrom {cfd : ℤ} {sent : Bool} : (getFrom t key cfd sent).Only (ReadOp t key) := by
  have hreply : ∀ msg, (reply cfd msg sent).Only (ReadOp t key) :=
    fun _ => ⟨.sysCall _, fun _ => trivial⟩
  have hread : (readFrom t key cfd sent).Only (ReadOp t key) := by
    refine ⟨.hasKey, fun (present : Bool) => ?_⟩
    cases present with
    | false => exact hreply _
    | true => exact ⟨.get, fun _ => hreply _⟩
  refine ⟨.hasKey, fun (present : Bool) => ?_⟩
  cases present with
  | false => exact hread
  | true =>
    refine ⟨.isDirty, fun (dirty : Bool) => ?_⟩
    cases dirty with
    | false => exact hread
    | true => exact hreply _

theorem only_update {net : Net} {sent : ℕ → Bool} {ipPort : Str} :
    (update net sent ipPort).Only UpdateOp := by
  have hloop : ∀ keys n, (updateLoop net.cfd sent n keys).Only UpdateOp := by
    intro keys
    induction keys with
    | nil => exact fun n => trivial
    | cons key keys ih => exact fun n => ⟨.get key, fun _ => ⟨.sysCall _, fun _ => ih (n + 1)⟩⟩
  refine ⟨.sysCall _, fun _ => ⟨.sysCall _, fun _ => ?_⟩⟩
  split_ifs
  · exact ⟨.sysCall _, fun _ => ⟨.lruKeysOneshot, fun _ => hloop _ _⟩⟩
  · trivial

theorem only_release {state : ℤ} : (release state).Only EndMoveOp := by
  unfold release
  split_ifs
  · exact ⟨.unlock _, fun _ => trivial⟩
  · exact ⟨.unlock _, fun _ => ⟨.writeState 0, fun _ => ⟨.writeBackupInvalid 1, fun _ => trivial⟩⟩⟩

theorem only_endMove : endMove.Only EndMoveOp := ⟨.readState, fun _ => only_release⟩

theorem only_handOff {net : Net} {newAddr : Str} {more : Prog} (h : more.Only MoveOp) :
    (handOff net key newAddr more).Only MoveOp := by
  have hend : endMove.Only MoveOp := only_endMove.mono fun _ => .endMove
  have hsend : (sendKey net key more).Only MoveOp := by
    refine ⟨.sysCall _, fun _ => ?_⟩
    split_ifs
    · exact ⟨.setDirty key, fun _ => h⟩
    · exact hend
  unfold handOff
  split_ifs
  · exact ⟨.sysCall _, fun _ => ⟨.sysCall _, fun _ => hsend⟩⟩
  · exact ⟨.sysCall _, fun _ => ⟨.sysCall _, fun _ => hend⟩⟩
  · exact hsend

theorem only_moveLoop {localAddr : Str} {net : ℕ → Net} (keys : List Str) (n : ℕ) :
    (moveLoop localAddr net n keys).Only MoveOp := by
  induction keys generalizing n with
  | nil => exact only_endMove.mono fun _ => .endMove
  | cons key keys ih =>
    refine ⟨.sysCall _, fun _ => ⟨.hasKey key, fun (present : Bool) => ?_⟩⟩
    cases present with
    | false => exact ih (n + 1)
    | true =>
      refine ⟨.get key, fun _ => ⟨.owner key, fun (newAddr : Str) => ?_⟩⟩
      by_cases hl : newAddr = localAddr
      · simp only [hl, ne_eq, not_true_eq_false, if_false]
        exact ih (n + 1)
      · simp only [ne_eq, hl, not_false_eq_true, if_true]
        exact only_handOff (ih (n + 1))

theorem only_move {localAddr : Str} {net : ℕ → Net} : (move localAddr net).Only MoveOp :=
  ⟨.endMove .readState, fun _ => ⟨.lruKeysOneshot _, fun (keys : List Str) =>
    ⟨.lock _, fun _ => only_moveLoop keys 0⟩⟩⟩

end Operations

section Alone
variable {cbHashfunc : Str → ℤ} {i : ℕ} {m m' m₁ : Shared} {s s' : CacheServer}
  {mutex : Table → Option ℕ}

def Op.call? : Op → Option SysCall
  | .sysCall call => some call
  | _ => none

/-- A thread that runs alone comes to its end: the system calls that it makes, and the memory. -/
def Runs (cbHashfunc : Str → ℤ) (i : ℕ) (c : Prog) (m : Shared) (calls : List SysCall)
    (m' : Shared) : Prop :=
  ∃ actions, c.exec (perform cbHashfunc i) m = some (actions, m') ∧
    actions.filterMap (fun a => a.op.call?) = calls

theorem runs_done : Runs cbHashfunc i .done m [] m := ⟨[], rfl, rfl⟩

theorem Runs.call (op : Op) (r : op.Res) {next : op.Res → Prog} {calls : List SysCall}
    (hp : perform cbHashfunc i op m = .ok r m₁) (h : Runs cbHashfunc i (next r) m₁ calls m') :
    Runs cbHashfunc i (.call op next) m (op.call?.toList ++ calls) m' := by
  obtain ⟨actions, hexec, hcalls⟩ := h
  refine ⟨⟨op, r⟩ :: actions, ?_, ?_⟩
  · simp only [Code.exec, hp, hexec, Option.map_some]
  · subst hcalls
    cases hc : op.call? with
    | none => simp [hc]
    | some c => simp [hc]

theorem setMutex_free {t : Table} (h : m.mutex t = none) (o : Option ℕ) :
    (m.setMutex t o).setMutex t none = m := by
  have : Function.update m.mutex t none = m.mutex := by rw [← h, Function.update_eq_self]
  simp [Shared.setMutex, this]

/-- A write to a table whose mutex is free. -/
theorem runs_setIn {t : Table} (h : m.mutex t = none) (key value : Str) :
    Runs cbHashfunc i (setIn t key value) m []
      (m.setTable t (CacheServer.store (table m.server t) key value)) := by
  have hunlock : ∀ c, Runs cbHashfunc i (leave t)
      ((m.setMutex t (some i)).setTable t c) [] (m.setTable t c) := fun c =>
    Runs.call (.unlock t) () (congrArg (Outcome.ok ())
      (setMutex_free (m := m.setTable t c) h (some i))) runs_done
  have hself : (m.setMutex t (some i)).setTable t (table m.server t) = m.setMutex t (some i) := by
    cases t <;> rfl
  have hwrite : Runs cbHashfunc i (.call (.set t key value) fun _ => leave t)
      (m.setMutex t (some i)) [] (m.setTable t ((table m.server t).set key value)) :=
    Runs.call (.set t key value) () rfl (hunlock _)
  have hleave := hunlock (table m.server t)
  rw [hself] at hleave
  refine Runs.call (.lock t) () (perform_lock h) (Runs.call (.hasKey t key) _ rfl ?_)
  change Runs cbHashfunc i (if (table m.server t).hasKey key = true then _ else _) _ _ _
  unfold CacheServer.store
  cases hk : (table m.server t).hasKey key with
  | false => exact hwrite
  | true =>
    apply Runs.call (.isDirty t key) _ rfl
    change Runs cbHashfunc i (if (table m.server t).isDirty key = true then _ else _) _ _ _
    cases hd : (table m.server t).isDirty key with
    | false => exact hwrite
    | true => exact hleave

/-- A read of a table. -/
theorem runs_getFrom {t : Table} {key msg : Str} {c : LRU.Cache Str Str}
    (h : CacheServer.lookup (table m.server t) key = some (msg, c)) (cfd : ℤ) (sent : Bool) :
    Runs cbHashfunc i (getFrom t key cfd sent) m [.send cfd msg sent] (m.setTable t c) := by
  have hself : m.setTable t (table m.server t) = m := by cases t <;> rfl
  have hreply : ∀ msg m, Runs cbHashfunc i (reply cfd msg sent) m [.send cfd msg sent] m :=
    fun msg m => Runs.call (.sysCall (.send cfd msg sent)) () rfl runs_done
  unfold CacheServer.lookup at h
  apply Runs.call (.hasKey t key) _ rfl
  change Runs cbHashfunc i (if (table m.server t).hasKey key = true then _ else _) _ _ _
  cases hk : (table m.server t).hasKey key with
  | false =>
    simp only [hk, Bool.false_and, Bool.false_eq_true, if_false, Option.some.injEq,
      Prod.mk.injEq] at h
    obtain ⟨rfl, rfl⟩ := h
    apply Runs.call (.hasKey t key) _ rfl
    change Runs cbHashfunc i (if (table m.server t).hasKey key = true then _ else _) _ _ _
    rw [hk, hself]
    exact hreply _ m
  | true =>
    apply Runs.call (.isDirty t key) _ rfl
    change Runs cbHashfunc i (if (table m.server t).isDirty key = true then _ else _) _ _ _
    cases hd : (table m.server t).isDirty key with
    | true =>
      simp only [hk, hd, Bool.and_self, if_true, Option.some.injEq, Prod.mk.injEq] at h
      obtain ⟨rfl, rfl⟩ := h
      rw [hself]
      exact hreply _ m
    | false =>
      cases hget : (table m.server t).get key with
      | none => simp [hk, hd, hget] at h
      | some o =>
        obtain ⟨value, c'⟩ := o
        simp only [hk, hd, Bool.and_false, Bool.false_eq_true, if_false, if_true, hget,
          Option.bind_eq_bind, Option.bind_some, Option.some.injEq, Prod.mk.injEq] at h
        obtain ⟨rfl, rfl⟩ := h
        apply Runs.call (.hasKey t key) _ rfl
        change Runs cbHashfunc i (if (table m.server t).hasKey key = true then _ else _) _ _ _
        rw [hk]
        exact Runs.call (.get t key) value (perform_get hget) (hreply _ _)

theorem runs_updateLoop {cfd : ℤ} {sent : ℕ → Bool} {keys : List Str} {n : ℕ}
    {calls : List SysCall} (h : CacheServer.updateLoop cfd sent n s keys = some (calls, s')) :
    Runs cbHashfunc i (updateLoop cfd sent n keys) ⟨s, mutex⟩ calls ⟨s', mutex⟩ := by
  induction keys generalizing n s calls with
  | nil =>
    obtain ⟨rfl, rfl⟩ := Prod.mk.inj (Option.some.inj h)
    exact runs_done
  | cons key keys ih =>
    simp only [CacheServer.updateLoop, Option.bind_eq_bind] at h
    obtain ⟨⟨value, lru⟩, hget, h⟩ := Option.bind_eq_some_iff.mp h
    obtain ⟨⟨rest, s₁⟩, hrest, ho⟩ := Option.bind_eq_some_iff.mp h
    obtain ⟨rfl, rfl⟩ := Prod.mk.inj (Option.some.inj ho)
    exact Runs.call (.get .lru key) value (perform_get hget)
      (Runs.call (.sysCall _) () rfl (ih hrest))

theorem runs_update {net : Net} {sent : ℕ → Bool} {ipPort : Str} {calls : List SysCall}
    (h : s.update net sent ipPort = some (calls, s')) :
    Runs cbHashfunc i (update net sent ipPort) ⟨s, mutex⟩ calls ⟨s', mutex⟩ := by
  unfold CacheServer.update at h
  have hstart : ∀ {calls}, Runs cbHashfunc i _ ⟨s, mutex⟩ calls ⟨s', mutex⟩ →
      Runs cbHashfunc i (update net sent ipPort) ⟨s, mutex⟩ (.socket net.cfd ::
        .connect net.cfd (str2sockAddr net.res ipPort) net.connected :: calls) ⟨s', mutex⟩ :=
    fun hrest => Runs.call (.sysCall _) () rfl (Runs.call (.sysCall _) () rfl hrest)
  cases hc : net.connected with
  | false =>
    simp only [hc, Bool.false_eq_true, if_false, Option.some.injEq, Prod.mk.injEq] at h
    obtain ⟨rfl, rfl⟩ := h
    rw [hc] at hstart
    exact hstart runs_done
  | true =>
    simp only [hc, if_true, Option.bind_eq_bind] at h
    obtain ⟨⟨rest, s₁⟩, hrest, ho⟩ := Option.bind_eq_some_iff.mp h
    obtain ⟨rfl, rfl⟩ := Prod.mk.inj (Option.some.inj ho)
    rw [hc] at hstart
    exact hstart (Runs.call (.sysCall _) () rfl
      (Runs.call (.lruKeysOneshot .lru) _ rfl (runs_updateLoop hrest)))

theorem runs_handOff_refused {net : Net} {key newAddr : Str} {more : Prog} {calls : List SysCall}
    (haddr : newAddr ≠ []) (hc : net.connected = false) (h : Runs cbHashfunc i endMove m calls m') :
    Runs cbHashfunc i (handOff net key newAddr more) m (.close net.cfd ::
      .connect net.cfd (str2sockAddr net.res newAddr) net.connected :: calls) m' := by
  have hcode : handOff net key newAddr more = .call (.sysCall (.close net.cfd)) fun _ =>
      .call (.sysCall (.connect net.cfd (str2sockAddr net.res newAddr) net.connected)) fun _ =>
        endMove := by
    simp only [handOff, if_pos haddr, hc, Bool.false_eq_true, if_false]
  rw [hcode]
  exact Runs.call (.sysCall _) () rfl (Runs.call (.sysCall _) () rfl h)

theorem runs_handOff {net : Net} {key newAddr : Str} {more : Prog} {calls : List SysCall}
    (hok : newAddr ≠ [] → net.connected = true)
    (h : if net.sent = true then
        Runs cbHashfunc i more (m.setTable .lru (m.server.lru.setDirty key)) calls m'
      else Runs cbHashfunc i endMove m calls m') :
    Runs cbHashfunc i (handOff net key newAddr more) m
      ((if newAddr ≠ [] then [.close net.cfd,
        .connect net.cfd (str2sockAddr net.res newAddr) net.connected] else []) ++
        .send net.cfd (moveMsg key) net.sent :: calls) m' := by
  have hsend : Runs cbHashfunc i (sendKey net key more) m
      (.send net.cfd (moveMsg key) net.sent :: calls) m' := by
    apply Runs.call (.sysCall _) () rfl
    split_ifs at h ⊢
    · exact Runs.call (.setDirty .lru key) () rfl h
    · exact h
  unfold handOff
  by_cases haddr : newAddr = []
  · rw [if_neg (not_not_intro haddr), if_neg (not_not_intro haddr)]
    exact hsend
  · rw [if_pos haddr, if_pos haddr, hok haddr, if_pos rfl]
    exact Runs.call (.sysCall _) () rfl (Runs.call (.sysCall _) () rfl hsend)

theorem runs_moveKey {net : Net} {key : Str} {more : Prog} {loop : Bool}
    {calls calls' : List SysCall} (h : s.moveKey cbHashfunc net key = some (calls, loop, s'))
    (hrest : Runs cbHashfunc i (if loop then more else endMove) ⟨s', mutex⟩ calls' m') :
    Runs cbHashfunc i (moveKey s.localAddr net key more) ⟨s, mutex⟩ (calls ++ calls') m' := by
  unfold CacheServer.moveKey at h
  have hturn : ∀ {calls}, Runs cbHashfunc i _ ⟨s, mutex⟩ calls m' →
      Runs cbHashfunc i (moveKey s.localAddr net key more) ⟨s, mutex⟩
        (.socket net.cfd :: calls) m' :=
    fun hrest => Runs.call (.sysCall _) () rfl (Runs.call (.hasKey .lru key) _ rfl hrest)
  change ∀ {calls}, Runs cbHashfunc i (if s.lru.hasKey key = true then _ else _) _ calls m' → _
    at hturn
  cases hk : s.lru.hasKey key with
  | false =>
    simp only [hk, Bool.false_eq_true, if_false, Option.some.injEq, Prod.mk.injEq] at h
    obtain ⟨rfl, rfl, rfl⟩ := h
    rw [hk] at hturn
    exact hturn hrest
  | true =>
    simp only [hk, if_true, Option.bind_eq_bind] at h
    obtain ⟨⟨value, lru⟩, hget, h⟩ := Option.bind_eq_some_iff.mp h
    obtain ⟨newAddr, howner, h⟩ := Option.bind_eq_some_iff.mp h
    rw [hk] at hturn
    have hlooked : ∀ {calls}, Runs cbHashfunc i _ ⟨{ s with lru := lru }, mutex⟩ calls m' →
        Runs cbHashfunc i (moveKey s.localAddr net key more) ⟨s, mutex⟩
          (.socket net.cfd :: calls) m' :=
      fun hrest => hturn (Runs.call (.get .lru key) value (perform_get hget)
        (Runs.call (.owner key) newAddr (perform_owner howner) hrest))
    by_cases hl : newAddr = s.localAddr
    · rw [if_neg (not_not_intro hl), Option.some.injEq] at h
      simp only [Prod.mk.injEq] at h
      obtain ⟨rfl, rfl, rfl⟩ := h
      rw [if_neg (not_not_intro hl)] at hlooked
      exact hlooked hrest
    · rw [if_pos hl] at h hlooked
      by_cases hrefused : newAddr ≠ [] ∧ net.connected = false
      · obtain ⟨haddr, hc⟩ := hrefused
        rw [if_pos ⟨haddr, hc⟩, if_pos haddr, Option.some.injEq] at h
        simp only [Prod.mk.injEq] at h
        obtain ⟨rfl, rfl, rfl⟩ := h
        exact hlooked (runs_handOff_refused haddr hc hrest)
      · have hok : newAddr ≠ [] → net.connected = true := fun haddr => by
          simpa [haddr] using hrefused
        rw [if_neg hrefused] at h
        have hcalls : ∀ {out}, out = (if newAddr ≠ [] then [SysCall.socket net.cfd,
            .close net.cfd, .connect net.cfd (str2sockAddr net.res newAddr) net.connected]
            else [.socket net.cfd]) ++ [.send net.cfd (moveMsg key) net.sent] →
            out ++ calls' = .socket net.cfd :: ((if newAddr ≠ [] then [.close net.cfd,
              .connect net.cfd (str2sockAddr net.res newAddr) net.connected] else []) ++
              .send net.cfd (moveMsg key) net.sent :: calls') := by
          rintro out rfl
          split_ifs <;> simp
        cases hs : net.sent with
        | true =>
          rw [hs, if_pos rfl, Option.some.injEq] at h
          simp only [Prod.mk.injEq] at h
          obtain ⟨hout, rfl, rfl⟩ := h
          rw [hcalls (by rw [← hout, hs])]
          refine hlooked (runs_handOff hok ?_)
          rw [hs, if_pos rfl]
          exact hrest
        | false =>
          rw [hs, if_neg Bool.false_ne_true, Option.some.injEq] at h
          simp only [Prod.mk.injEq] at h
          obtain ⟨hout, rfl, rfl⟩ := h
          rw [hcalls (by rw [← hout, hs])]
          refine hlooked (runs_handOff hok ?_)
          rw [hs, if_neg Bool.false_ne_true]
          exact hrest

theorem localAddr_of_moveKey {net : Net} {key : Str} {loop : Bool} {calls : List SysCall}
    (h : s.moveKey cbHashfunc net key = some (calls, loop, s')) : s'.localAddr = s.localAddr := by
  rcases s.moveKey_eq cbHashfunc net key with ⟨-, hm⟩ | ⟨turn, lru, -, hm, -⟩
  · rw [hm] at h
    cases h
  · obtain ⟨-, rfl⟩ := Prod.mk.inj (Prod.mk.inj (Option.some.inj (hm.symm.trans h))).2
    rfl

theorem runs_moveLoop {net : ℕ → Net} {keys : List Str} {n : ℕ} {calls : List (Str × SysCall)}
    (h : s.moveLoop cbHashfunc net n keys = some (calls, s'))
    (hend : Runs cbHashfunc i endMove ⟨s', mutex⟩ [] m') :
    Runs cbHashfunc i (moveLoop s.localAddr net n keys) ⟨s, mutex⟩ (calls.map Prod.snd) m' := by
  induction keys generalizing n s calls with
  | nil =>
    obtain ⟨rfl, rfl⟩ := Prod.mk.inj (Option.some.inj h)
    exact hend
  | cons key keys ih =>
    simp only [CacheServer.moveLoop, Option.bind_eq_bind] at h
    obtain ⟨⟨calls₁, loop, s₁⟩, hturn, h⟩ := Option.bind_eq_some_iff.mp h
    have hsnd : (calls₁.map fun call => (key, call)).map Prod.snd = calls₁ := by simp
    cases loop with
    | false =>
      obtain ⟨rfl, rfl⟩ := Prod.mk.inj (Option.some.inj h)
      have hbreak : Runs cbHashfunc i (moveLoop s.localAddr net n (key :: keys)) ⟨s, mutex⟩
          (calls₁ ++ []) m' := runs_moveKey hturn hend
      rw [List.append_nil] at hbreak
      rw [hsnd]
      exact hbreak
    | true =>
      obtain ⟨⟨calls₂, s₂⟩, hrest, ho⟩ := Option.bind_eq_some_iff.mp h
      obtain ⟨rfl, rfl⟩ := Prod.mk.inj (Option.some.inj ho)
      have hloop := ih hrest
      simp only [localAddr_of_moveKey hturn] at hloop
      rw [List.map_append, hsnd]
      exact runs_moveKey hturn hloop

/-- The end of a move that holds the mutex of its list of keys. -/
theorem runs_endMove {t : Table} (ht : t = tableOf s.state)
    (h : mutex t = none) : Runs cbHashfunc i endMove ⟨s, Function.update mutex t (some i)⟩ []
      ⟨if s.state = 0 then s else { s with state := 0, backupInvalid := 1 }, mutex⟩ := by
  have hfree : Function.update (Function.update mutex t (some i)) t none = mutex := by
    rw [Function.update_idem, ← h, Function.update_eq_self]
  have hunlock : ∀ s, perform cbHashfunc i (.unlock t) ⟨s, Function.update mutex t (some i)⟩ =
      .ok () ⟨s, mutex⟩ := fun s => by
    rw [perform, Shared.setMutex, hfree]
  apply Runs.call .readState s.state rfl
  unfold release
  by_cases hs : s.state = 0
  · rw [tableOf, if_pos hs] at ht
    subst ht
    rw [if_pos hs, if_pos hs]
    exact Runs.call (.unlock .lru) () (hunlock s) runs_done
  · rw [tableOf, if_neg hs] at ht
    subst ht
    rw [if_neg hs, if_neg hs]
    exact Runs.call (.unlock .lruBackup) () (hunlock s) (Runs.call (.writeState 0) () rfl
      (Runs.call (.writeBackupInvalid 1) () rfl runs_done))

/-- A move that finds both mutexes free. -/
theorem runs_move {net : ℕ → Net} {calls : List (Str × SysCall)}
    (hfree : ∀ t, mutex t = none) (h : s.move cbHashfunc net = some (calls, s')) :
    Runs cbHashfunc i (move s.localAddr net) ⟨s, mutex⟩ (calls.map Prod.snd) ⟨s', mutex⟩ := by
  simp only [CacheServer.move, Option.bind_eq_bind] at h
  obtain ⟨⟨calls', s₁⟩, hloop, h⟩ := Option.bind_eq_some_iff.mp h
  obtain ⟨rfl, rfl⟩ : calls' = calls ∧
      (if s₁.state = 0 then s₁ else { s₁ with state := 0, backupInvalid := 1 }) = s' := by
    split_ifs at h ⊢ <;> exact Prod.mk.inj (Option.some.inj h)
  have hstate : s₁.state = s.state := by
    rcases CacheServer.moveLoop_eq cbHashfunc net
      (if s.state = 0 then s.lru.lruKeysOneshot else s.lruBackup.lruKeysOneshot) 0 s with
      ⟨-, hm⟩ | ⟨calls, marks, lru, -, hm, -⟩
    · rw [hm] at hloop
      cases hloop
    · obtain ⟨-, rfl⟩ := Prod.mk.inj (Option.some.inj (hm.symm.trans hloop))
      rfl
  let t := tableOf s.state
  have hkeys : (table s t).lruKeysOneshot =
      if s.state = 0 then s.lru.lruKeysOneshot else s.lruBackup.lruKeysOneshot := by
    simp only [t, tableOf]
    split_ifs <;> rfl
  have hlock : perform cbHashfunc i (.lock t) ⟨s, mutex⟩ =
      .ok () ⟨s, Function.update mutex t (some i)⟩ := perform_lock (hfree t)
  have hend : Runs cbHashfunc i endMove _ _ _ := runs_endMove (i := i) (s := s₁) (t := t)
    (by rw [hstate]) (hfree t)
  refine Runs.call .readState s.state rfl (Runs.call (.lruKeysOneshot t) _ rfl
    (Runs.call (.lock t) () hlock ?_))
  change Runs cbHashfunc i (moveLoop s.localAddr net 0 (table s t).lruKeysOneshot) _ _ _
  rw [hkeys]
  exact runs_moveLoop hloop hend

end Alone
end DCache.CacheThreads
