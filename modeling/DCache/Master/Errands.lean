import DCache.Master.Threads

/-! What the threads of the master may still do: which addresses and descriptors they have read and
are to look up or to send to, and which servers they are to put into the tables or to take out. -/
namespace DCache.MasterThreads
open DCache.Lib DCache.Master

section Codes

/-- The result is the address. -/
def Names (a : Str) : (op : Op) → op.Res → Prop
  | .getPrev _, b => b = a
  | .getNext _, b => b = a
  | _, _ => False

/-- The thread may look up an address in `registedMap` that it has already. -/
def Seeks (a : Str) (c : Prog) : Prop := c.May (fun op => op = .registedFd a) (Names a)

/-- The result is the descriptor, or says that a server is in the list. -/
def Finds (f : ℤ) : (op : Op) → op.Res → Prop
  | .registedFd _, g => g = f
  | .isExisted _, existed => existed = true
  | _, _ => False

/-- The thread may look up a descriptor in `listenMap` that it has already. -/
def Reads (f : ℤ) (c : Prog) : Prop := c.May (fun op => op = .listenAddr f) (Finds f)

/-- The result has the descriptor. -/
def Gives (f : ℤ) : (op : Op) → op.Res → Prop
  | .registedFd _, g => g = f
  | .registed, fds => f ∈ (show List ℤ from fds)
  | _, _ => False

/-- The thread may send to a descriptor that it has already. -/
def Sends (f : ℤ) (c : Prog) : Prop := c.May (fun op => ∃ command, op = .send f command) (Gives f)

/-- The result is the address that the connection came from. -/
def Addresses (a : Str) : (op : Op) → op.Res → Prop
  | .connectedAddr _, b => b = a
  | _, _ => False

/-- The thread may put the server into the tables, under an address that it has already. -/
def Joins (a : Str) (f : ℤ) (c : Prog) : Prop :=
  c.May (fun op => ∃ cacheServer, op = .join a f cacheServer) (Addresses a)

/-- The thread may take the server out of the tables. -/
def Leaves (a : Str) (f : ℤ) (c : Prog) : Prop := c.May (fun op => op = .leave a f) (Addresses a)

/-- The request is to register the connection. -/
def Registers (f : ℤ) (request : Request) : Prop := request.requestType = .register ∧ request.cfd = f

/-- The thread may register the connection, or ask for that. -/
def Holds (f : ℤ) (c : Prog) : Prop :=
  c.May (fun op => (∃ a cacheServer, op = .join a f cacheServer) ∨
    ∃ request, op = .append request ∧ Registers f request) fun _ _ => False

/-- The operations that neither register nor take out a server, nor ask for the address of one. -/
def Op.Plain : Op → Prop
  | .connectedAddr _ | .join _ _ _ | .leave _ _ | .append _ => False
  | _ => True

variable {a : Str} {f cfd : ℤ} {c : Prog}

theorem holds_of_joins (h : Joins a f c) : Holds f c :=
  h.mono (fun _ ⟨cacheServer, h⟩ => Or.inl ⟨a, cacheServer, h⟩) fun _ _ => False.elim

theorem not_holds_of_plain (h : c.Only Op.Plain) : ¬ Holds f c := by
  refine h.not_may fun op hop => ?_
  rintro (⟨a, cacheServer, rfl⟩ | ⟨request, rfl, -⟩) <;> exact hop

theorem not_leaves_of_plain (h : c.Only Op.Plain) : ¬ Leaves a f c := by
  refine h.not_may fun op hop => ?_
  rintro rfl
  exact hop

theorem plain_moveNotices {more : Prog} (h : more.Only Op.Plain) (fds : List ℤ) :
    (moveNotices more fds).Only Op.Plain := by
  induction fds with
  | nil => exact h
  | cons fd fds ih => exact ⟨trivial, fun _ => ih⟩

theorem plain_notifyBackup (newAddr : Str) (cfd : ℤ) : (notifyBackup newAddr cfd).Only Op.Plain := by
  refine ⟨trivial, fun (existed : Bool) => ?_⟩
  dsimp only
  split_ifs
  · refine ⟨trivial, fun _ => ⟨trivial, fun _ => ⟨trivial, fun (prevFd : ℤ) => ?_⟩⟩⟩
    refine ⟨trivial, fun (nextFd : ℤ) => ?_⟩
    dsimp only
    split_ifs
    · exact ⟨trivial, fun _ => ⟨trivial, fun _ => ⟨trivial, fun _ => ⟨trivial, fun _ => trivial⟩⟩⟩⟩
    · trivial
  · trivial

theorem plain_notifyRecover (cfd prevFd nextFd : ℤ) :
    (notifyRecover cfd prevFd nextFd).Only Op.Plain := by
  unfold notifyRecover
  split_ifs
  · trivial
  · exact ⟨trivial, fun _ => ⟨trivial, fun _ => ⟨trivial, fun _ => trivial⟩⟩⟩

/-- The operations of `GetDistribute`. -/
def Op.Answers : Op → Prop
  | .owner _ | .isExisted _ | .getNext _ | .reply _ _ => True
  | _ => False

theorem answers_getDistribute (clientAddr : SockAddrIn) (key : Str) :
    (getDistribute clientAddr key).Only Op.Answers := by
  refine ⟨trivial, fun _ => ⟨trivial, fun (existed : Bool) => ?_⟩⟩
  dsimp only
  split_ifs
  · exact ⟨trivial, fun _ => ⟨trivial, fun _ => trivial⟩⟩
  · exact ⟨trivial, fun _ => trivial⟩

theorem plain_getDistribute (clientAddr : SockAddrIn) (key : Str) :
    (getDistribute clientAddr key).Only Op.Plain :=
  (answers_getDistribute clientAddr key).mono fun op hop => by
    cases op <;> first | exact trivial | exact hop.elim

theorem not_seeks_moveNotices {more : Prog} (h : ¬ Seeks a more) (fds : List ℤ) :
    ¬ Seeks a (moveNotices more fds) := by
  induction fds with
  | nil => exact h
  | cons fd fds ih => exact Code.not_may_call (by simp) fun _ _ => ih

/-- The neighbours' addresses come from the list. -/
theorem not_seeks_notifyBackup (newAddr : Str) (cfd : ℤ) : ¬ Seeks a (notifyBackup newAddr cfd) := by
  refine Code.not_may_call (by simp) fun (existed : Bool) _ => ?_
  split_ifs
  · refine Code.not_may_call (by simp) fun (prevServerAddr : Str) hprev => ?_
    refine Code.not_may_call (by simp) fun (nextServerAddr : Str) hnext => ?_
    refine Code.not_may_call (fun h => hprev (Op.registedFd.inj h)) fun (prevFd : ℤ) _ => ?_
    refine Code.not_may_call (fun h => hnext (Op.registedFd.inj h)) fun (nextFd : ℤ) _ => ?_
    split_ifs
    · exact Code.not_may_call (by simp) fun _ _ => Code.not_may_call (by simp) fun _ _ =>
        Code.not_may_call (by simp) fun _ _ => Code.not_may_call (by simp) fun _ _ =>
        Code.not_may_done
    · exact Code.not_may_done
  · exact Code.not_may_done

theorem not_seeks_notifyRecover (cfd prevFd nextFd : ℤ) :
    ¬ Seeks a (notifyRecover cfd prevFd nextFd) := by
  unfold notifyRecover
  split_ifs
  · exact Code.not_may_done
  · exact Code.not_may_call (by simp) fun _ _ => Code.not_may_call (by simp) fun _ _ =>
      Code.not_may_call (by simp) fun _ _ => Code.not_may_done

theorem not_reads_moveNotices {more : Prog} (h : ¬ Reads f more) (fds : List ℤ) :
    ¬ Reads f (moveNotices more fds) := by
  induction fds with
  | nil => exact h
  | cons fd fds ih => exact Code.not_may_call (by simp) fun _ _ => ih

theorem not_reads_notifyBackup (newAddr : Str) (cfd : ℤ) : ¬ Reads f (notifyBackup newAddr cfd) := by
  refine Code.not_may_call (by simp) fun (existed : Bool) hexisted => ?_
  split_ifs with hex
  · exact absurd hex hexisted
  · exact Code.not_may_done

/-- Once it has found its server in the list, a registration looks up the connection's own
descriptor. -/
theorem eq_of_reads_found {newAddr : Str} {next : Bool → Prog}
    (hc : notifyBackup newAddr cfd = .call (.isExisted newAddr) next) (h : Reads f (next true)) :
    f = cfd := by
  obtain ⟨-, hnext⟩ := Code.call.inj hc
  obtain rfl := eq_of_heq hnext
  by_contra hne
  refine absurd h (Code.not_may_call (by simp) fun (prevServerAddr : Str) _ => ?_)
  refine Code.not_may_call (by simp) fun (nextServerAddr : Str) _ => ?_
  refine Code.not_may_call (by simp) fun (prevFd : ℤ) _ => ?_
  refine Code.not_may_call (by simp) fun (nextFd : ℤ) hfd => ?_
  split_ifs
  · refine Code.not_may_call (fun h => hne (Op.listenAddr.inj h).symm) fun _ _ => ?_
    refine Code.not_may_call (by simp) fun _ _ => ?_
    refine Code.not_may_call (fun h => hfd (Op.listenAddr.inj h)) fun _ _ => ?_
    exact Code.not_may_call (by simp) fun _ _ => Code.not_may_done
  · exact Code.not_may_done

theorem ne_of_reads_notifyRecover {prevFd nextFd : ℤ} (h : Reads f (notifyRecover cfd prevFd nextFd)) :
    f ≠ cfd := by
  unfold notifyRecover at h
  split_ifs at h with hself
  · exact absurd h Code.not_may_done
  · rintro rfl
    refine absurd h (Code.not_may_call (by simp) fun _ _ => ?_)
    refine Code.not_may_call (fun h => hself (Or.inl (Op.listenAddr.inj h))) fun _ _ => ?_
    exact Code.not_may_call (by simp) fun _ _ => Code.not_may_done

theorem not_sends_notifyRecover {prevFd nextFd : ℤ} (hprev : f ≠ prevFd) (hnext : f ≠ nextFd) :
    ¬ Sends f (notifyRecover cfd prevFd nextFd) := by
  unfold notifyRecover
  split_ifs
  · exact Code.not_may_done
  · refine Code.not_may_call (fun ⟨_, h⟩ => hnext (Op.send.inj h).1.symm) fun _ _ => ?_
    refine Code.not_may_call (by simp) fun _ _ => ?_
    exact Code.not_may_call (fun ⟨_, h⟩ => hprev (Op.send.inj h).1.symm) fun _ _ => Code.not_may_done

theorem not_sends_notifyBackup (newAddr : Str) (hne : f ≠ cfd) :
    ¬ Sends f (notifyBackup newAddr cfd) := by
  refine Code.not_may_call (by simp) fun (existed : Bool) _ => ?_
  split_ifs
  · refine Code.not_may_call (by simp) fun (prevServerAddr : Str) _ => ?_
    refine Code.not_may_call (by simp) fun (nextServerAddr : Str) _ => ?_
    refine Code.not_may_call (by simp) fun (prevFd : ℤ) hprev => ?_
    refine Code.not_may_call (by simp) fun (nextFd : ℤ) _ => ?_
    split_ifs
    · refine Code.not_may_call (by simp) fun _ _ => ?_
      refine Code.not_may_call (fun ⟨_, h⟩ => hprev (Op.send.inj h).1) fun _ _ => ?_
      refine Code.not_may_call (by simp) fun _ _ => ?_
      exact Code.not_may_call (fun ⟨_, h⟩ => hne (Op.send.inj h).1.symm) fun _ _ => Code.not_may_done
    · exact Code.not_may_done
  · exact Code.not_may_done

theorem not_sends_moveNotices {more : Prog} (h : ¬ Sends f more) {fds : List ℤ} (hf : f ∉ fds) :
    ¬ Sends f (moveNotices more fds) := by
  induction fds with
  | nil => exact h
  | cons fd fds ih =>
    refine Code.not_may_call ?_ fun _ _ => ih fun hmem => hf (List.mem_cons_of_mem fd hmem)
    rintro ⟨_, h⟩
    exact hf ((Op.send.inj h).1 ▸ List.mem_cons_self)

end Codes

section Handlers
variable {a : Str} {f cfd : ℤ}

/-- What the steps that touch the tables leave to do: who has put a server in puts in no other; who
has taken a server out looks up nothing more that has to do with it. -/
def Settles : (op : Op) → (op.Res → Prog) → Prop
  | .connectedAddr cfd, next => ∀ r a f, Joins a f (next r) ∨ Leaves a f (next r) → f = cfd
  | .join _ _ _, next => ∀ r, (next r).Only Op.Plain
  | .append _, next => ∀ r, (next r).Only Op.Plain
  | .leave _ cfd, next => ∀ r, (next r).Only Op.Plain ∧ ¬ Reads cfd (next r) ∧ ∀ a, ¬ Seeks a (next r)
  | _, _ => True

def settling : Code.Protocol Unit Op.Res where
  allows _ := Settles
  after _ _ _ _ := True
  ends _ := True

/-- What a thread still has to do is in order. -/
abbrev Tidy (c : Prog) : Prop := c.Obeys settling ()

theorem tidy_call {op : Op} {next : op.Res → Prog} (hop : Settles op next) (h : ∀ r, Tidy (next r)) :
    Tidy (.call op next) := ⟨hop, fun r _ _ => h r⟩

theorem tidy_of_plain {c : Prog} (h : c.Only Op.Plain) : Tidy c := by
  induction c with
  | done => trivial
  | call op next ih =>
    refine tidy_call ?_ fun r => ih r (h.2 r)
    have hop : op.Plain := h.1
    cases op <;> first | exact trivial | exact hop.elim

/-- What is left of `Register` after the section of the lock. -/
theorem plain_joined (cacheServer : SockAddrIn) (newAddr : Str) (cfd : ℤ) (notity : List ℤ)
    (inserted : Bool) : Code.Only Op.Plain (if inserted = true then
      .call (.addHash (sockAddr2str cacheServer)) fun _ =>
        .call .updateHash fun _ => moveNotices (notifyBackup newAddr cfd) notity
    else .done : Prog) := by
  split_ifs
  · exact ⟨trivial, fun _ => ⟨trivial, fun _ => plain_moveNotices (plain_notifyBackup newAddr cfd) _⟩⟩
  · trivial

theorem tidy_register (cacheServer : SockAddrIn) (cfd : ℤ) : Tidy (register cacheServer cfd) := by
  refine tidy_call (fun (newAddr : Str) a f h => ?_) fun (newAddr : Str) =>
    tidy_call trivial fun (notity : List ℤ) => ?_
  · by_contra hne
    rcases h with h | h
    · refine absurd h (Code.not_may_call (by simp) fun _ _ => Code.not_may_call ?_ fun _ _ => ?_)
      · rintro ⟨_, h⟩
        exact hne (Op.join.inj h).2.1.symm
      · exact fun h => not_holds_of_plain (plain_joined _ _ _ _ _) (holds_of_joins h)
    · exact absurd h (Code.not_may_call (by simp) fun _ _ => Code.not_may_call (by simp) fun _ _ =>
        not_leaves_of_plain (plain_joined _ _ _ _ _))
  · refine tidy_call (fun inserted => plain_joined _ _ _ _ _) fun inserted => ?_
    exact tidy_of_plain (plain_joined _ _ _ _ _)

theorem not_joins_disconnected (strClientAddr : Str) : ¬ Joins a f (disconnected cfd strClientAddr) :=
  Code.not_may_call (by simp) fun (prevServerAddr : Str) _ =>
    Code.not_may_call (by simp) fun (nextServerAddr : Str) _ =>
    Code.not_may_call (by simp) fun (prevFd : ℤ) _ =>
    Code.not_may_call (by simp) fun (nextFd : ℤ) _ =>
    Code.not_may_call (by simp) fun _ _ => Code.not_may_call (by simp) fun _ _ =>
    Code.not_may_call (by simp) fun _ _ h =>
      not_holds_of_plain (plain_notifyRecover _ _ _) (holds_of_joins h)

theorem eq_of_leaves_disconnected {strClientAddr : Str}
    (h : Leaves a f (disconnected cfd strClientAddr)) : strClientAddr = a ∧ f = cfd := by
  by_contra hne
  refine absurd h (Code.not_may_call (by simp) fun (prevServerAddr : Str) _ => ?_)
  refine Code.not_may_call (by simp) fun (nextServerAddr : Str) _ => ?_
  refine Code.not_may_call (by simp) fun (prevFd : ℤ) _ => ?_
  refine Code.not_may_call (by simp) fun (nextFd : ℤ) _ => ?_
  refine Code.not_may_call (by simp) fun _ _ => ?_
  refine Code.not_may_call (fun h => hne ⟨(Op.leave.inj h).1, (Op.leave.inj h).2.symm⟩) fun _ _ => ?_
  exact Code.not_may_call (by simp) fun _ _ => not_leaves_of_plain (plain_notifyRecover _ _ _)

theorem tidy_disconnected (cfd : ℤ) (strClientAddr : Str) : Tidy (disconnected cfd strClientAddr) := by
  refine tidy_call trivial fun (prevServerAddr : Str) => tidy_call trivial fun (nextServerAddr : Str) =>
    tidy_call trivial fun (prevFd : ℤ) => tidy_call trivial fun (nextFd : ℤ) =>
    tidy_call trivial fun _ => tidy_call (fun _ => ⟨?_, ?_, fun a => ?_⟩) fun _ => ?_
  · exact ⟨trivial, fun _ => plain_notifyRecover _ _ _⟩
  · exact Code.not_may_call (by simp) fun _ _ h => ne_of_reads_notifyRecover h rfl
  · exact Code.not_may_call (by simp) fun _ _ => not_seeks_notifyRecover _ _ _
  · exact tidy_of_plain ⟨trivial, fun _ => plain_notifyRecover _ _ _⟩

theorem tidy_dealwithCacheServer (cfd : ℤ) (recv : Recv) (res : SockAddrIn) :
    Tidy (dealwithCacheServer cfd recv res) := by
  refine tidy_call (fun (strClientAddr : Str) a f h => ?_) fun (strClientAddr : Str) => ?_
  · cases recv with
    | failed =>
      rcases h with h | h
      · exact absurd h Code.not_may_done
      · exact absurd h Code.not_may_done
    | data buf =>
      rcases h with h | h
      · exact absurd h (Code.not_may_call (by simp) fun _ _ => Code.not_may_done)
      · exact absurd h (Code.not_may_call (by simp) fun _ _ => Code.not_may_done)
    | closed =>
      by_contra hne
      rcases h with h | h
      · refine absurd h (Code.not_may_call (by simp) fun (existed : Bool) _ => ?_)
        split_ifs
        · exact not_joins_disconnected strClientAddr
        · exact Code.not_may_done
      · refine absurd h (Code.not_may_call (by simp) fun (existed : Bool) _ => ?_)
        split_ifs
        · exact fun h => hne (eq_of_leaves_disconnected h).2
        · exact Code.not_may_done
  · cases recv with
    | failed => trivial
    | data buf => exact tidy_call (fun _ => trivial) fun _ => trivial
    | closed =>
      refine tidy_call trivial fun (existed : Bool) => ?_
      split_ifs
      · exact tidy_disconnected cfd strClientAddr
      · trivial

/-- What a thread that starts may do: it has no address and no descriptor but that of its own
connection. -/
structure Fresh (c : Prog) : Prop where
  tidy : Tidy c
  joins : ∀ a f, ¬ Joins a f c
  leaves : ∀ a f, ¬ Leaves a f c
  seeks : ∀ a, ¬ Seeks a c
  reads : ∀ f, ¬ Reads f c

theorem fresh_register (cacheServer : SockAddrIn) (cfd : ℤ) : Fresh (register cacheServer cfd) where
  tidy := tidy_register cacheServer cfd
  joins a f := by
    refine Code.not_may_call (by simp) fun (newAddr : Str) haddr => Code.not_may_call (by simp)
      fun (notity : List ℤ) _ => Code.not_may_call ?_ fun _ _ h => ?_
    · rintro ⟨_, h⟩
      exact haddr (Op.join.inj h).1
    · exact not_holds_of_plain (plain_joined _ _ _ _ _) (holds_of_joins h)
  leaves a f := Code.not_may_call (by simp) fun (newAddr : Str) _ => Code.not_may_call (by simp)
    fun (notity : List ℤ) _ => Code.not_may_call (by simp) fun _ _ =>
      not_leaves_of_plain (plain_joined _ _ _ _ _)
  seeks a := by
    refine Code.not_may_call (by simp) fun (newAddr : Str) _ => Code.not_may_call (by simp)
      fun (notity : List ℤ) _ => Code.not_may_call (by simp) fun (inserted : Bool) _ => ?_
    split_ifs
    · exact Code.not_may_call (by simp) fun _ _ => Code.not_may_call (by simp) fun _ _ =>
        not_seeks_moveNotices (not_seeks_notifyBackup newAddr cfd) notity
    · exact Code.not_may_done
  reads f := by
    refine Code.not_may_call (by simp) fun (newAddr : Str) _ => Code.not_may_call (by simp)
      fun (notity : List ℤ) _ => Code.not_may_call (by simp) fun (inserted : Bool) _ => ?_
    split_ifs
    · exact Code.not_may_call (by simp) fun _ _ => Code.not_may_call (by simp) fun _ _ =>
        not_reads_moveNotices (not_reads_notifyBackup newAddr cfd) notity
    · exact Code.not_may_done

theorem eq_of_sends_register {cacheServer : SockAddrIn} (h : Sends f (register cacheServer cfd)) :
    f = cfd := by
  by_contra hne
  refine absurd h (Code.not_may_call (by simp) fun (newAddr : Str) _ => Code.not_may_call (by simp)
    fun (notity : List ℤ) hnotity => Code.not_may_call (by simp) fun (inserted : Bool) _ => ?_)
  split_ifs
  · exact Code.not_may_call (by simp) fun _ _ => Code.not_may_call (by simp) fun _ _ =>
      not_sends_moveNotices (not_sends_notifyBackup newAddr hne) hnotity
  · exact Code.not_may_done

theorem eq_of_holds_register {cacheServer : SockAddrIn} (h : Holds f (register cacheServer cfd)) :
    f = cfd := by
  by_contra hne
  refine absurd h (Code.not_may_call (by simp) fun (newAddr : Str) _ => Code.not_may_call (by simp)
    fun (notity : List ℤ) _ => Code.not_may_call ?_ fun _ _ => ?_)
  · rintro (⟨_, _, h⟩ | ⟨_, h, -⟩)
    · exact hne (Op.join.inj h).2.1.symm
    · cases h
  · exact not_holds_of_plain (plain_joined _ _ _ _ _)

theorem fresh_getDistribute (clientAddr : SockAddrIn) (key : Str) :
    Fresh (getDistribute clientAddr key) where
  tidy := tidy_of_plain (plain_getDistribute clientAddr key)
  joins a f h := not_holds_of_plain (plain_getDistribute clientAddr key) (holds_of_joins h)
  leaves a f := not_leaves_of_plain (plain_getDistribute clientAddr key)
  seeks a := (answers_getDistribute clientAddr key).not_may fun op hop => by
    rintro rfl
    exact hop
  reads f := (answers_getDistribute clientAddr key).not_may fun op hop => by
    rintro rfl
    exact hop

theorem not_sends_getDistribute (clientAddr : SockAddrIn) (key : Str) :
    ¬ Sends f (getDistribute clientAddr key) :=
  (answers_getDistribute clientAddr key).not_may fun op hop => by
    rintro ⟨command, rfl⟩
    exact hop

theorem fresh_handle (request : Request) : Fresh (handle request) := by
  unfold handle
  cases request.requestType with
  | getDistribute => exact fresh_getDistribute _ _
  | register => exact fresh_register _ _

/-- A worker sends on its own to the connection of its request only. -/
theorem registers_of_sends {request : Request} (h : Sends f (handle request)) :
    Registers f request := by
  unfold handle at h
  cases hr : request.requestType with
  | getDistribute =>
    rw [hr] at h
    exact absurd h (not_sends_getDistribute _ _)
  | register =>
    rw [hr] at h
    exact ⟨hr, (eq_of_sends_register h).symm⟩

theorem registers_of_holds {request : Request} (h : Holds f (handle request)) :
    Registers f request := by
  unfold handle at h
  cases hr : request.requestType with
  | getDistribute =>
    rw [hr] at h
    exact absurd h (not_holds_of_plain (plain_getDistribute _ _))
  | register =>
    rw [hr] at h
    exact ⟨hr, (eq_of_holds_register h).symm⟩

/-- The workers take no server out. -/
def Op.Stays : Op → Prop
  | .leave _ _ => False
  | _ => True

theorem stays_of_plain {c : Prog} (h : c.Only Op.Plain) : c.Only Op.Stays := h.mono fun op hop => by
  cases op <;> first | exact trivial | exact hop.elim

theorem stays_handle (request : Request) : (handle request).Only Op.Stays := by
  unfold handle
  cases request.requestType with
  | getDistribute => exact stays_of_plain (plain_getDistribute _ _)
  | register => exact ⟨trivial, fun _ => ⟨trivial, fun _ => ⟨trivial, fun _ =>
      stays_of_plain (plain_joined _ _ _ _ _)⟩⟩⟩

/-- What a disconnection may not do, `dealwithCacheServer` may not do. -/
theorem not_may_dealwithCacheServer {target : Op → Prop} {cut : (op : Op) → op.Res → Prop} {recv : Recv}
    {res : SockAddrIn} (hconnected : ¬ target (.connectedAddr cfd))
    (happend : ∀ request, ¬ target (.append request)) (hisExisted : ∀ a, ¬ target (.isExisted a))
    (h : ∀ strClientAddr : Str, ¬ cut (.connectedAddr cfd) strClientAddr →
      ¬ cut (.isExisted strClientAddr) true → ¬ (disconnected cfd strClientAddr).May target cut) :
    ¬ (dealwithCacheServer cfd recv res).May target cut := by
  refine Code.not_may_call hconnected fun (strClientAddr : Str) haddr => ?_
  cases recv with
  | failed => exact Code.not_may_done
  | data buf => exact Code.not_may_call (happend _) fun _ _ => Code.not_may_done
  | closed =>
    refine Code.not_may_call (hisExisted _) fun (existed : Bool) hexisted => ?_
    cases existed with
    | false => exact Code.not_may_done
    | true => exact h strClientAddr haddr hexisted

theorem fresh_dealwithCacheServer (cfd : ℤ) (recv : Recv) (res : SockAddrIn) :
    Fresh (dealwithCacheServer cfd recv res) where
  tidy := tidy_dealwithCacheServer cfd recv res
  joins a f := not_may_dealwithCacheServer (by simp) (by simp) (by simp) fun strClientAddr _ _ =>
    not_joins_disconnected strClientAddr
  leaves a f := not_may_dealwithCacheServer (by simp) (by simp) (by simp) fun strClientAddr haddr _ h =>
    haddr (eq_of_leaves_disconnected h).1
  seeks a := by
    refine not_may_dealwithCacheServer (by simp) (by simp) (by simp) fun strClientAddr _ _ => ?_
    refine Code.not_may_call (by simp) fun (prevServerAddr : Str) hprev => ?_
    refine Code.not_may_call (by simp) fun (nextServerAddr : Str) hnext => ?_
    refine Code.not_may_call (fun h => hprev (Op.registedFd.inj h)) fun (prevFd : ℤ) _ => ?_
    refine Code.not_may_call (fun h => hnext (Op.registedFd.inj h)) fun (nextFd : ℤ) _ => ?_
    exact Code.not_may_call (by simp) fun _ _ => Code.not_may_call (by simp) fun _ _ =>
      Code.not_may_call (by simp) fun _ _ => not_seeks_notifyRecover _ _ _
  reads f := not_may_dealwithCacheServer (by simp) (by simp) (by simp) fun _ _ hexisted _ =>
    hexisted rfl

theorem not_sends_dealwithCacheServer (cfd : ℤ) (recv : Recv) (res : SockAddrIn) :
    ¬ Sends f (dealwithCacheServer cfd recv res) := by
  refine not_may_dealwithCacheServer (by simp) (by simp) (by simp) fun strClientAddr _ _ => ?_
  refine Code.not_may_call (by simp) fun (prevServerAddr : Str) _ => ?_
  refine Code.not_may_call (by simp) fun (nextServerAddr : Str) _ => ?_
  refine Code.not_may_call (by simp) fun (prevFd : ℤ) hprev => ?_
  refine Code.not_may_call (by simp) fun (nextFd : ℤ) hnext => ?_
  exact Code.not_may_call (by simp) fun _ _ => Code.not_may_call (by simp) fun _ _ =>
    Code.not_may_call (by simp) fun _ _ =>
      not_sends_notifyRecover (fun h => hprev h.symm) fun h => hnext h.symm

/-- The event loop asks for a registration only when the connection sends its port. -/
theorem data_of_holds {recv : Recv} {res : SockAddrIn} (h : Holds f (dealwithCacheServer cfd recv res)) :
    f = cfd ∧ ∃ buf, recv = .data buf := by
  rcases h with (⟨_, _, h⟩ | ⟨_, h, -⟩) | ⟨strClientAddr, -, h⟩
  · cases h
  · cases h
  · cases recv with
    | failed => exact absurd h Code.not_may_done
    | data buf =>
      rcases h with (⟨_, _, h⟩ | ⟨_, h, -, hf⟩) | ⟨_, -, h⟩
      · cases h
      · obtain rfl := Op.append.inj h
        exact ⟨hf.symm, buf, rfl⟩
      · exact absurd h Code.not_may_done
    | closed =>
      refine absurd h (Code.not_may_call (by simp) fun (existed : Bool) _ => ?_)
      split_ifs
      · exact Code.not_may_call (by simp) fun _ _ => Code.not_may_call (by simp) fun _ _ =>
          Code.not_may_call (by simp) fun _ _ => Code.not_may_call (by simp) fun _ _ =>
          Code.not_may_call (by simp) fun _ _ => Code.not_may_call (by simp) fun _ _ =>
          Code.not_may_call (by simp) fun _ _ => not_holds_of_plain (plain_notifyRecover _ _ _)
      · exact Code.not_may_done

end Handlers
end DCache.MasterThreads
