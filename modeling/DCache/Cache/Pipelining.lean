import DCache.Cache.Requests

/-! The stream of requests on one connection of a cache server, cut into the chunks that `recv`
hands over. Each call of `dealwithClientMsg` takes one chunk for one request. -/
namespace DCache.CacheServer
open DCache.Lib

/-- A request as it is written to a connection. -/
inductive ClientRequest
  | setValue (key value : Str)
  | setBackupValue (key value : Str)
  | getValue (key : Str)
  | getBackupValue (key : Str)

namespace ClientRequest

def opt : ClientRequest → Str
  | .setValue _ _ => Code.setValue
  | .setBackupValue _ _ => Code.setBackupValue
  | .getValue _ => Code.getValue
  | .getBackupValue _ => Code.getBackupValue

def key : ClientRequest → Str
  | .setValue key _ | .setBackupValue key _ | .getValue key | .getBackupValue key => key

def value : ClientRequest → Str
  | .setValue _ value | .setBackupValue _ value => value
  | _ => []

/-- What follows the first line. A write has no terminator after its value. -/
def body : ClientRequest → Str
  | .setValue key value | .setBackupValue key value => key ++ newline :: value
  | .getValue key | .getBackupValue key => key

def encode (r : ClientRequest) : Str := r.opt ++ newline :: r.body

def content (r : ClientRequest) (cfd : ℤ) : Str × Str × Str × ℤ := (r.opt, r.key, r.value, cfd)

theorem newline_notMem_opt (r : ClientRequest) : newline ∉ r.opt := by
  cases r <;> simp only [opt] <;> decide

theorem opt_ne_nil (r : ClientRequest) : r.opt ≠ [] := by
  cases r <;> simp only [opt] <;> decide

theorem opt_ne_backupInvalid (r : ClientRequest) : r.opt ≠ Code.backupInvalid := by
  cases r <;> simp only [opt] <;> decide

/-- The message that `update` formats is that of a write. -/
theorem writeMsg_eq (key value : Str) : writeMsg Code.setBackupValue key value =
    (setBackupValue (cstr key) (cstr value)).encode := by
  simp [writeMsg, encode, body, opt]

end ClientRequest

/-- The bytes of a stream: the requests, with the `BACKUP_INVALID` of `update` before them or
without it. -/
def streamText (invalid : Bool) (requests : List ClientRequest) : Str :=
  (if invalid then Code.backupInvalid else []) ++ (requests.map ClientRequest.encode).flatten

/-- What of a queued request the request on the wire decides. -/
def Request.content (q : Request) : Str × Str × Str × ℤ := (q.requestType, q.key, q.value, q.cfd)

/-- The calls for the chunks of one connection, each in the state that it finds, and the requests
that they queue. `stale i` is what the array holds behind the bytes of the `i`-th call. -/
def receive (cfd : ℤ) (stale : ℕ → Str) : ℕ → List (CacheServer × Str) → Option (List Request)
  | _, [] => some []
  | i, (s, bytes) :: calls => do
    let (_, s') ← s.dealwithClientMsg cfd (.data bytes) (stale i)
    let queued ← receive cfd stale (i + 1) calls
    some (s'.workqueue.drop s.workqueue.length ++ queued)

/-- Whatever the array holds, the requests queued are those sent, in their order. -/
def Received (cfd : ℤ) (calls : List (CacheServer × Str)) (requests : List ClientRequest) : Prop :=
  ∀ stale : ℕ → Str,
    (∀ i call, calls[i]? = some call → call.2.length + (stale i).length = bufSize) →
    ∃ queued, receive cfd stale 0 calls = some queued ∧
      queued.map Request.content = requests.map (fun r => r.content cfd)

/-- Calls for the chunks of a stream, with room for a request in the queue at each of them. -/
structure IsReception (invalid : Bool) (requests : List ClientRequest)
    (calls : List (CacheServer × Str)) : Prop where
  flatten : (calls.map Prod.snd).flatten = streamText invalid requests
  length : ∀ call ∈ calls, 1 ≤ call.2.length ∧ call.2.length ≤ bufSize
  room : ∀ call ∈ calls, call.1.workqueue.length < maxRequests

/-- The type and the key of the request that a chunk is read as, or no request. -/
def readRequest (bytes : Str) : Option (List (Str × Str)) :=
  (untilNewline bytes).map fun opt =>
    if opt = Code.backupInvalid then []
    else [(opt, (bytes.drop (opt.length + 1)).takeWhile (fun b => b ≠ newline))]

def readRequests : List Str → Option (List (Str × Str))
  | [] => some []
  | bytes :: chunks => do
    let first ← readRequest bytes
    let rest ← readRequests chunks
    some (first ++ rest)

section Read
variable {line rest bytes : Str}

theorem readRequest_line (h : newline ∉ line) : readRequest (line ++ newline :: rest) =
    some (if line = Code.backupInvalid then []
      else [(line, rest.takeWhile (fun b => b ≠ newline))]) := by
  rw [readRequest, untilNewline_line h, Option.map_some, drop_line]

theorem readRequest_of_notMem (h : newline ∉ bytes) : readRequest bytes = none := by
  rw [readRequest, untilNewline, if_neg h, Option.map_none]

theorem of_readRequests_cons {chunks : List Str} {out : List (Str × Str)}
    (h : readRequests (bytes :: chunks) = some out) : ∃ first rest,
      readRequest bytes = some first ∧ readRequests chunks = some rest ∧ out = first ++ rest := by
  cases hfirst : readRequest bytes with
  | none => simp [readRequests, hfirst] at h
  | some first =>
    cases hrest : readRequests chunks with
    | none => simp [readRequests, hfirst, hrest] at h
    | some rest =>
      have hout : first ++ rest = out := by simpa [readRequests, hfirst, hrest] using h
      exact ⟨first, rest, rfl, rfl, hout.symm⟩

end Read

section Receive
variable {cfd : ℤ}

/-- The request that the type and the key give: no value is read. -/
def contentOf (cfd : ℤ) (p : Str × Str) : Str × Str × Str × ℤ := (p.1, p.2, [], cfd)

/-- A call with room in the queue queues what its chunk is read as. -/
theorem dealwithClientMsg_queued (cfd : ℤ) {s : CacheServer} {bytes stale : Str}
    (hroom : s.workqueue.length < maxRequests) (hstale : newline ∈ bytes ∨ newline ∉ stale) :
    (s.dealwithClientMsg cfd (.data bytes) stale).map
        (fun o => (o.2.workqueue.drop s.workqueue.length).map Request.content) =
      (readRequest bytes).map (fun l => l.map (contentOf cfd)) := by
  by_cases hmem : newline ∈ bytes
  · obtain ⟨line, rest, rfl, hline⟩ := List.eq_append_cons_of_mem hmem
    rw [readRequest_line hline]
    by_cases hinv : line = Code.backupInvalid
    · have hread : untilNewline (line ++ newline :: rest ++ stale) = some line := by
        rw [List.append_assoc, List.cons_append, untilNewline_line hline]
      simp only [dealwithClientMsg, hread, Option.bind_eq_bind, Option.bind_some, if_pos hinv,
        Option.map_some, List.drop_length, List.map_nil]
    · rw [s.dealwithClientMsg_line cfd stale hline hinv hroom rest, if_neg hinv]
      simp [Request.content, contentOf]
  · have hnone : newline ∉ bytes ++ stale := by
      rw [List.mem_append]
      exact not_or.mpr ⟨hmem, hstale.resolve_left hmem⟩
    rw [readRequest_of_notMem hmem]
    simp [dealwithClientMsg, untilNewline, hnone]

theorem receive_eq (cfd : ℤ) (stale : ℕ → Str) {calls : List (CacheServer × Str)}
    (hroom : ∀ call ∈ calls, call.1.workqueue.length < maxRequests) (i : ℕ)
    (hstale : ∀ k call, calls[k]? = some call → newline ∈ call.2 ∨ newline ∉ stale (i + k)) :
    (receive cfd stale i calls).map (fun l => l.map Request.content) =
      (readRequests (calls.map Prod.snd)).map (fun l => l.map (contentOf cfd)) := by
  induction calls generalizing i with
  | nil => rfl
  | cons call calls ih =>
    obtain ⟨s, bytes⟩ := call
    have hone := dealwithClientMsg_queued cfd (hroom (s, bytes) List.mem_cons_self)
      (hstale 0 _ rfl)
    have hrest := ih (fun c hc => hroom c (List.mem_cons_of_mem _ hc)) (i + 1) fun k c hk => by
      have h := hstale (k + 1) c (by simpa using hk)
      rwa [show i + (k + 1) = i + 1 + k by omega] at h
    rw [Nat.add_zero] at hone
    cases hread : readRequest bytes with
    | none =>
      rw [hread, Option.map_none, Option.map_eq_none_iff] at hone
      simp [receive, readRequests, hone, hread]
    | some first =>
      rw [hread, Option.map_some, Option.map_eq_some_iff] at hone
      obtain ⟨⟨ret, s'⟩, hcall, hqueued⟩ := hone
      cases hreads : readRequests (calls.map Prod.snd) with
      | none =>
        rw [hreads, Option.map_none, Option.map_eq_none_iff] at hrest
        simp [receive, readRequests, hcall, hread, hreads, hrest]
      | some rest =>
        rw [hreads, Option.map_some, Option.map_eq_some_iff] at hrest
        obtain ⟨queued, hreceive, hrest⟩ := hrest
        simp only at hqueued
        simp [receive, readRequests, hcall, hread, hreads, hreceive, ← hqueued, ← hrest]

end Receive

section Chunks
variable {chunks : List Str} {requests : List ClientRequest} {r : ClientRequest} {bytes : Str}

theorem stream_cons : streamText false (r :: requests) = r.encode ++ streamText false requests := by
  simp [streamText]

theorem newline_mem_of_readRequest {l : List (Str × Str)} (h : readRequest bytes = some l) :
    newline ∈ bytes := by
  by_contra hmem
  rw [readRequest_of_notMem hmem] at h
  cases h

/-- A chunk that is read as `r`: its first line is the type and its second line the key. -/
theorem of_readRequest (h : readRequest bytes = some [(r.opt, r.key)]) :
    newline ∉ r.key ∧ ∃ rest, bytes = r.opt ++ newline :: rest ∧
      rest.takeWhile (fun b => b ≠ newline) = r.key := by
  obtain ⟨line, rest, rfl, hline⟩ := List.eq_append_cons_of_mem (newline_mem_of_readRequest h)
  rw [readRequest_line hline] at h
  split_ifs at h with hinv
  · cases h
  · simp only [Option.some.injEq, List.cons.injEq, Prod.mk.injEq, and_true] at h
    obtain ⟨hopt, hkey⟩ := h
    refine ⟨?_, rest, by rw [hopt], hkey⟩
    rw [← hkey]
    intro hmem
    simpa using List.mem_takeWhile_imp hmem

/-- Without a value, the key is followed by a newline or by nothing. -/
theorem ClientRequest.body_eq (h : r.value = []) : r.body = r.key ∨ r.body = r.key ++ [newline] := by
  cases r with
  | setValue key value =>
    obtain rfl : value = [] := h
    exact Or.inr rfl
  | setBackupValue key value =>
    obtain rfl : value = [] := h
    exact Or.inr rfl
  | getValue key => exact Or.inl rfl
  | getBackupValue key => exact Or.inl rfl

/-- A chunk out of a message that is read as the message's request starts where the message
does. -/
theorem start_of_readRequest {before behind : Str} (hvalue : r.value = [])
    (hencode : before ++ bytes ++ behind = r.encode)
    (h : readRequest bytes = some [(r.opt, r.key)]) : before = [] := by
  obtain ⟨hkey, rest, rfl, hrest⟩ := of_readRequest h
  have hopt := r.newline_notMem_opt
  by_cases hmem : newline ∈ before
  · -- then the chunk's first line lies within the key
    obtain ⟨line, before, rfl, hline⟩ := List.eq_append_cons_of_mem hmem
    have hbody : (before ++ r.opt) ++ newline :: (rest ++ behind) = r.body := by
      have hcut := congrArg (fun s => (s.dropWhile (fun b => b ≠ newline)).drop 1) hencode
      simp only [ClientRequest.encode, List.append_assoc, List.cons_append] at hcut
      rw [dropWhile_line hline, dropWhile_line hopt] at hcut
      simpa using hcut
    rcases r.body_eq hvalue with heq | heq
    · refine absurd ?_ hkey
      rw [← heq, ← hbody]
      simp
    · rw [heq, eq_comm, List.append_cons_inj_of_notMem hkey List.not_mem_nil] at hbody
      obtain ⟨hbefore, -, hnil⟩ := hbody
      obtain rfl : rest = [] := (List.append_eq_nil_iff.mp hnil.symm).1
      rw [← hrest] at hbefore
      exact absurd (List.append_eq_nil_iff.mp hbefore.symm).2 r.opt_ne_nil
  · have hline : newline ∉ before ++ r.opt := by simp [hmem, hopt]
    have hfirst := congrArg (fun s => s.takeWhile (fun b => b ≠ newline)) hencode
    simp only [ClientRequest.encode] at hfirst
    rw [takeWhile_line hopt, show before ++ (r.opt ++ newline :: rest) ++ behind =
      (before ++ r.opt) ++ newline :: (rest ++ behind) by simp, takeWhile_line hline] at hfirst
    simpa using hfirst

/-- A chunk that is read as the message's request is all of the message, or all but the newline at
its end. -/
theorem rest_of_readRequest {behind : Str} (hvalue : r.value = [])
    (hencode : bytes ++ behind = r.encode) (h : readRequest bytes = some [(r.opt, r.key)]) :
    behind = [] ∨ behind = [newline] := by
  obtain ⟨hkey, rest, rfl, hrest⟩ := of_readRequest h
  rw [ClientRequest.encode, List.append_assoc, List.cons_append, List.append_cancel_left_eq,
    List.cons.injEq] at hencode
  have hbody : rest ++ behind = r.body := hencode.2
  by_cases hmem : newline ∈ rest
  · obtain ⟨line, tail, rfl, hline⟩ := List.eq_append_cons_of_mem hmem
    rw [takeWhile_line hline] at hrest
    have hlen := congrArg List.length hbody
    rcases r.body_eq hvalue with heq | heq
    · rw [heq, ← hrest] at hlen
      simp at hlen
    · rw [heq, ← hrest] at hlen
      simp only [List.append_assoc, List.cons_append, List.length_append, List.length_cons,
        List.length_nil] at hlen
      exact Or.inl (List.length_eq_zero_iff.mp (by omega))
  · rw [takeWhile_of_notMem hmem] at hrest
    subst hrest
    rcases r.body_eq hvalue with heq | heq
    · rw [heq] at hbody
      exact Or.inl (by simpa using hbody)
    · rw [heq] at hbody
      exact Or.inr (List.append_cancel_left hbody)

/-- What the chunks of a stream are read as must be the requests of the stream. -/
def ReadAs (chunks : List Str) (requests : List ClientRequest) : Prop :=
  readRequests chunks = some (requests.map fun r => (r.opt, r.key))

/-- The chunk is read as no request, or as the next one. -/
theorem ReadAs.cases (h : ReadAs (bytes :: chunks) requests) :
    (∃ rest, bytes = Code.backupInvalid ++ newline :: rest ∧ ReadAs chunks requests) ∨
      ∃ r rest, requests = r :: rest ∧ readRequest bytes = some [(r.opt, r.key)] ∧
        ReadAs chunks rest := by
  obtain ⟨first, rest, hfirst, hrest, hout⟩ := of_readRequests_cons h
  obtain ⟨line, tail, rfl, hline⟩ := List.eq_append_cons_of_mem (newline_mem_of_readRequest hfirst)
  have hread := hfirst
  rw [readRequest_line hline] at hfirst
  split_ifs at hfirst with hinv
  · obtain rfl : [] = first := Option.some.inj hfirst
    refine Or.inl ⟨tail, by rw [hinv], ?_⟩
    rw [ReadAs, hrest, hout, List.nil_append]
  · obtain rfl := Option.some.inj hfirst
    cases requests with
    | nil => cases hout
    | cons r requests =>
      rw [List.map_cons, List.singleton_append, List.cons.injEq] at hout
      refine Or.inr ⟨r, requests, rfl, ?_, ?_⟩
      · rw [hread, ← hout.1]
      · rw [ReadAs, hrest, hout.2]

/-- Once a part of the stream has been passed over, one request too few is read. -/
theorem not_readAs_of_passed {before : Str} (hbefore : before ≠ [])
    (hflat : before ++ chunks.flatten = streamText false requests)
    (hvalue : ∀ r ∈ requests, r.value = []) : ¬ ReadAs chunks requests := by
  induction chunks generalizing before requests with
  | nil =>
    intro h
    have hnil : requests = [] := by simpa [ReadAs, readRequests] using h
    subst hnil
    simp [streamText] at hflat
    exact hbefore hflat
  | cons bytes chunks ih =>
    intro h
    rcases h.cases with ⟨rest, hbytes, hrest⟩ | ⟨r, rest, rfl, hread, hrest⟩
    · have hne : before ++ bytes ≠ [] := by simp [hbefore]
      refine ih hne ?_ hvalue hrest
      rw [← hflat, List.flatten_cons, List.append_assoc]
    · rw [stream_cons, List.flatten_cons, ← List.append_assoc] at hflat
      obtain ⟨hr, hvalues⟩ := List.forall_mem_cons.mp hvalue
      rcases List.append_eq_append_iff.mp hflat with ⟨t, hencode, ht⟩ | ⟨t, hencode, ht⟩
      · exact hbefore (start_of_readRequest hr hencode.symm hread)
      · by_cases htnil : t = []
        · subst htnil
          have hwhole : before ++ bytes ++ [] = r.encode := by simpa using hencode
          exact hbefore (start_of_readRequest hr hwhole hread)
        · exact ih htnil ht.symm hvalues hrest

/-- A chunk that is shorter than its message leaves a newline behind, and what follows is read as
a request without a type. -/
theorem not_readAs_newline {rest : Str} (hne : ∀ bytes ∈ chunks, bytes ≠ [])
    (hflat : chunks.flatten = newline :: rest) : ¬ ReadAs chunks requests := by
  intro h
  cases chunks with
  | nil => cases hflat
  | cons bytes chunks =>
    obtain ⟨b, bytes, rfl⟩ := List.exists_cons_of_ne_nil (hne _ List.mem_cons_self)
    obtain ⟨rfl, -⟩ := List.cons.inj hflat
    rcases h.cases with ⟨tail, hbytes, -⟩ | ⟨r, tail, -, hread, -⟩
    · have hhead := congrArg List.head? hbytes
      rw [List.head?_append, show Code.backupInvalid.head? = some 98 by decide] at hhead
      simp [newline] at hhead
    · obtain ⟨-, tail, hbytes, -⟩ := of_readRequest hread
      have hopt := r.newline_notMem_opt
      cases hr : r.opt with
      | nil => exact r.opt_ne_nil hr
      | cons b opt =>
        rw [hr, List.cons_append, List.cons.injEq] at hbytes
        rw [hr, ← hbytes.1] at hopt
        exact hopt List.mem_cons_self

/-- The chunks of which the requests are read are the messages. -/
theorem chunks_eq_of_readAs (hne : ∀ bytes ∈ chunks, bytes ≠ [])
    (hflat : chunks.flatten = streamText false requests)
    (hvalue : ∀ r ∈ requests, r.value = []) (h : ReadAs chunks requests) :
    chunks = requests.map ClientRequest.encode := by
  induction requests generalizing chunks with
  | nil =>
    cases chunks with
    | nil => rfl
    | cons bytes chunks => exact absurd (List.append_eq_nil_iff.mp hflat).1 (hne _ List.mem_cons_self)
  | cons r requests ih =>
    cases chunks with
    | nil => simp [ReadAs, readRequests] at h
    | cons bytes chunks =>
      obtain ⟨hr, hvalues⟩ := List.forall_mem_cons.mp hvalue
      have hchunks : ∀ bytes ∈ chunks, bytes ≠ [] := fun c hc => hne c (List.mem_cons_of_mem _ hc)
      rw [List.flatten_cons, stream_cons] at hflat
      rcases h.cases with ⟨rest, rfl, -⟩ | ⟨r', rest', hcons, hread, hrest⟩
      · have hfirst := congrArg (fun s => s.takeWhile (fun b => b ≠ newline)) hflat
        simp only [ClientRequest.encode, List.append_assoc, List.cons_append] at hfirst
        rw [takeWhile_line (by decide), takeWhile_line r.newline_notMem_opt] at hfirst
        exact absurd hfirst.symm r.opt_ne_backupInvalid
      · obtain ⟨rfl, rfl⟩ := List.cons.inj hcons
        have hwhole : ∀ t, t = [] → r.encode = bytes ++ t →
            chunks.flatten = t ++ streamText false requests →
            bytes :: chunks = (r :: requests).map ClientRequest.encode := by
          rintro t rfl hencode hflat
          rw [List.map_cons, hencode, List.append_nil, ih hchunks hflat hvalues hrest]
        rcases List.append_eq_append_iff.mp hflat with ⟨t, hencode, ht⟩ | ⟨t, hencode, ht⟩
        · rcases rest_of_readRequest hr hencode.symm hread with rfl | rfl
          · exact hwhole [] rfl hencode ht
          · exact absurd hrest (not_readAs_newline hchunks ht)
        · rcases eq_or_ne t [] with rfl | htne
          · exact hwhole [] rfl (by simpa using hencode.symm) (by simpa using ht.symm)
          · exact absurd hrest (not_readAs_of_passed htne ht.symm hvalues)

/-- The bytes of `BACKUP_INVALID` become a part of the next request's type. -/
theorem not_readAs_invalid (hne : ∀ bytes ∈ chunks, bytes ≠ [])
    (hflat : chunks.flatten = streamText true requests) : ¬ ReadAs chunks requests := by
  intro h
  cases chunks with
  | nil =>
    have hhead := congrArg List.head? hflat
    rw [streamText, if_pos rfl, List.head?_append, show Code.backupInvalid.head? = some 98 by decide]
      at hhead
    cases hhead
  | cons bytes chunks =>
    rw [List.flatten_cons, streamText, if_pos rfl] at hflat
    obtain ⟨first, rest, hfirst, -, -⟩ := of_readRequests_cons h
    have hmem := newline_mem_of_readRequest hfirst
    cases requests with
    | nil =>
      rw [List.map_nil, List.flatten_nil, List.append_nil] at hflat
      have : newline ∈ Code.backupInvalid := by
        rw [← hflat]
        exact List.mem_append_left _ hmem
      exact absurd this (by decide)
    | cons r requests =>
      have hline : newline ∉ Code.backupInvalid ++ r.opt := by
        simp only [List.mem_append, r.newline_notMem_opt, or_false]
        decide
      obtain ⟨line, tail, rfl, hnew⟩ := List.eq_append_cons_of_mem hmem
      have hword := congrArg (fun s => s.takeWhile (fun b => b ≠ newline)) hflat
      simp only [List.map_cons, List.flatten_cons, ClientRequest.encode, List.append_assoc,
        List.cons_append] at hword
      rw [takeWhile_line hnew, ← List.append_assoc, takeWhile_line hline] at hword
      rcases h.cases with ⟨rest, hbytes, -⟩ | ⟨r', rest', hcons, hread, -⟩
      · have hline' := congrArg (fun s => s.takeWhile (fun b => b ≠ newline)) hbytes
        rw [takeWhile_line hnew, takeWhile_line (by decide), hword] at hline'
        simp [r.opt_ne_nil] at hline'
      · obtain ⟨rfl, -⟩ := List.cons.inj hcons
        obtain ⟨-, tail', hbytes, -⟩ := of_readRequest hread
        have hline' := congrArg (fun s => s.takeWhile (fun b => b ≠ newline)) hbytes
        rw [takeWhile_line hnew, takeWhile_line r.newline_notMem_opt, hword] at hline'
        simp [show Code.backupInvalid ≠ [] by decide] at hline'

theorem readRequest_encode (hvalue : r.value = []) (hkey : newline ∉ r.key) :
    readRequest r.encode = some [(r.opt, r.key)] := by
  rw [ClientRequest.encode, readRequest_line r.newline_notMem_opt, if_neg r.opt_ne_backupInvalid]
  rcases r.body_eq hvalue with heq | heq
  · rw [heq, takeWhile_of_notMem hkey]
  · rw [heq, takeWhile_line hkey]

theorem readAs_encode (h : ∀ r ∈ requests, r.value = [] ∧ newline ∉ r.key) :
    ReadAs (requests.map ClientRequest.encode) requests := by
  induction requests with
  | nil => rfl
  | cons r requests ih =>
    obtain ⟨⟨hvalue, hkey⟩, hrest⟩ := List.forall_mem_cons.mp h
    have hread : readRequests (requests.map ClientRequest.encode) = some _ := ih hrest
    simp [ReadAs, readRequests, readRequest_encode hvalue hkey, hread]

theorem notMem_key_of_readAs (h : ReadAs chunks requests) : ∀ r ∈ requests, newline ∉ r.key := by
  induction chunks generalizing requests with
  | nil =>
    have hnil : requests = [] := by simpa [ReadAs, readRequests] using h
    simp [hnil]
  | cons bytes chunks ih =>
    rcases h.cases with ⟨rest, -, hrest⟩ | ⟨r, rest, rfl, hread, hrest⟩
    · exact ih hrest
    · exact List.forall_mem_cons.mpr ⟨(of_readRequest hread).1, ih hrest⟩

theorem newline_mem_of_readRequests {out : List (Str × Str)} (h : readRequests chunks = some out) :
    ∀ bytes ∈ chunks, newline ∈ bytes := by
  induction chunks generalizing out with
  | nil => simp
  | cons bytes chunks ih =>
    obtain ⟨first, rest, hfirst, hrest, -⟩ := of_readRequests_cons h
    exact List.forall_mem_cons.mpr ⟨newline_mem_of_readRequest hfirst, ih hrest⟩

end Chunks

section Reception
variable {cfd : ℤ} {calls : List (CacheServer × Str)} {requests : List ClientRequest}

/-- Only what is read of the received bytes is queued for certain. -/
theorem received_iff_readAs (hlength : ∀ call ∈ calls, call.2.length ≤ bufSize)
    (hroom : ∀ call ∈ calls, call.1.workqueue.length < maxRequests) :
    Received cfd calls requests ↔
      (∀ r ∈ requests, r.value = []) ∧ ReadAs (calls.map Prod.snd) requests := by
  constructor
  · intro h
    -- an array without a newline behind the bytes
    obtain ⟨queued, hqueued, hcontent⟩ :=
      h (fun i => List.replicate (bufSize - ((calls[i]?).map (fun c => c.2.length)).getD 0) 0)
        fun i call hi => by
          have hle := hlength call (List.mem_of_getElem? hi)
          simp only [hi, Option.map_some, Option.getD_some, List.length_replicate]
          omega
    have hreads := receive_eq cfd (fun i => List.replicate
      (bufSize - ((calls[i]?).map (fun c => c.2.length)).getD 0) 0) hroom 0 fun k call hk =>
        Or.inr fun hm => by simpa [newline] using (List.mem_replicate.mp hm).2
    rw [hqueued, Option.map_some, hcontent, eq_comm, Option.map_eq_some_iff] at hreads
    obtain ⟨out, hout, hsame⟩ := hreads
    have hpair : ∀ p : Str × Str, (contentOf cfd p).1 = p.1 ∧ (contentOf cfd p).2.1 = p.2 :=
      fun p => ⟨rfl, rfl⟩
    have hfst := congrArg (List.map fun c : Str × Str × Str × ℤ => (c.1, c.2.1)) hsame
    have hval := congrArg (List.map fun c : Str × Str × Str × ℤ => c.2.2.1) hsame
    simp only [List.map_map] at hfst hval
    refine ⟨fun r hr => ?_, ?_⟩
    · have : r.value ∈ List.map ((fun c => c.2.2.1) ∘ contentOf cfd) out := by
        rw [hval]
        exact List.mem_map.mpr ⟨r, hr, rfl⟩
      obtain ⟨p, -, hp⟩ := List.mem_map.mp this
      exact hp.symm
    · rw [ReadAs, hout, Option.some.injEq]
      calc out = out.map ((fun c => (c.1, c.2.1)) ∘ contentOf cfd) := (List.map_id out).symm
        _ = requests.map (fun r => (r.opt, r.key)) := hfst
  · rintro ⟨hvalue, hread⟩ stale hstale
    have hmem := newline_mem_of_readRequests hread
    have hreads := receive_eq cfd stale hroom 0 fun k call hk => Or.inl <|
      hmem _ (List.mem_map.mpr ⟨call, List.mem_of_getElem? hk, rfl⟩)
    rw [hread, Option.map_some, Option.map_eq_some_iff] at hreads
    obtain ⟨queued, hqueued, hcontent⟩ := hreads
    refine ⟨queued, hqueued, ?_⟩
    rw [hcontent, List.map_map]
    refine List.map_congr_left fun r hr => ?_
    simp [contentOf, ClientRequest.content, hvalue r hr]

/-- The requests queued are those sent, if and only if no `BACKUP_INVALID` comes before them, none
carries a value or a key of more than one line, and every `recv` hands over one message. -/
theorem received_iff (invalid : Bool) (h : IsReception invalid requests calls) :
    Received cfd calls requests ↔
      invalid = false ∧ (∀ r ∈ requests, r.value = [] ∧ newline ∉ r.key) ∧
        calls.map Prod.snd = requests.map ClientRequest.encode := by
  rw [received_iff_readAs (fun c hc => (h.length c hc).2) h.room]
  have hne : ∀ bytes ∈ calls.map Prod.snd, bytes ≠ [] := by
    intro bytes hb
    obtain ⟨call, hcall, rfl⟩ := List.mem_map.mp hb
    exact List.ne_nil_of_length_pos (h.length call hcall).1
  constructor
  · rintro ⟨hvalue, hread⟩
    cases invalid with
    | true => exact absurd hread (not_readAs_invalid hne h.flatten)
    | false =>
      have hkey := notMem_key_of_readAs hread
      exact ⟨rfl, fun r hr => ⟨hvalue r hr, hkey r hr⟩,
        chunks_eq_of_readAs hne h.flatten hvalue hread⟩
  · rintro ⟨-, hrequests, hchunks⟩
    refine ⟨fun r hr => (hrequests r hr).1, ?_⟩
    rw [hchunks]
    exact readAs_encode hrequests

end Reception

def getK : ClientRequest := .getValue (lit "k")

theorem received_iff_two :
    IsReception false [getK, getK] [(.new, getK.encode), (.new, getK.encode)] ∧
      (Received 5 [(.new, getK.encode), (.new, getK.encode)] [getK, getK] ↔
        false = false ∧ (∀ r ∈ [getK, getK], r.value = [] ∧ newline ∉ r.key) ∧
          [(CacheServer.new, getK.encode), (.new, getK.encode)].map Prod.snd =
            [getK, getK].map ClientRequest.encode) := by
  have h : IsReception false [getK, getK] [(.new, getK.encode), (.new, getK.encode)] :=
    ⟨by decide, by decide, by decide⟩
  exact ⟨h, received_iff false h⟩

/-- Two requests that arrive together, whatever the array holds behind them: one is queued, with a
key that has the next request in it. -/
theorem not_received_merged : IsReception false [getK, getK] [(.new, getK.encode ++ getK.encode)] ∧
    ¬ ∃ stale queued, receive 5 stale 0 [(.new, getK.encode ++ getK.encode)] = some queued ∧
      queued.map Request.content = [getK, getK].map (fun r => r.content 5) := by
  refine ⟨⟨by decide, by decide, by decide⟩, ?_⟩
  rintro ⟨stale, queued, hqueued, hcontent⟩
  have hroom : ∀ call ∈ [(CacheServer.new, getK.encode ++ getK.encode)],
      call.1.workqueue.length < maxRequests := by decide
  have hreads := receive_eq 5 stale hroom 0 fun k call hk => Or.inl <| by
      have := List.mem_of_getElem? hk
      rw [List.mem_singleton] at this
      rw [this]
      decide
  have hone : readRequests [getK.encode ++ getK.encode] =
      some [(Code.getValue, lit "kget_value")] := by decide
  rw [List.map_singleton, hqueued, hone, Option.map_some, hcontent, Option.map_some] at hreads
  have hlen := congrArg List.length (Option.some.inj hreads)
  cases hlen

section Update

/-- The text of a `send`. -/
def SysCall.sentText : SysCall → Str
  | .send _ buf _ => buf
  | _ => []

/-- What the loop of `update` sends is a stream of writes. -/
theorem updateLoop_stream {cfd : ℤ} {sent : ℕ → Bool} {keys : List Str} {i : ℕ}
    {s s' : CacheServer} {calls : List SysCall}
    (h : updateLoop cfd sent i s keys = some (calls, s')) :
    ∃ requests : List ClientRequest, (∀ r ∈ requests, r.opt = Code.setBackupValue) ∧
      (calls.map SysCall.sentText).flatten = streamText false requests := by
  induction keys generalizing i s calls with
  | nil =>
    obtain ⟨rfl, -⟩ := Prod.mk.inj (Option.some.inj h)
    exact ⟨[], by simp, rfl⟩
  | cons key keys ih =>
    cases hget : s.lru.get key with
    | none => simp [updateLoop, hget] at h
    | some o =>
      obtain ⟨value, lru⟩ := o
      cases hrest : updateLoop cfd sent (i + 1) { s with lru := lru } keys with
      | none => simp [updateLoop, hget, hrest] at h
      | some o =>
        obtain ⟨rest, s''⟩ := o
        simp only [updateLoop, hget, hrest, Option.bind_eq_bind, Option.bind_some,
          Option.some.injEq, Prod.mk.injEq] at h
        obtain ⟨rfl, rfl⟩ := h
        obtain ⟨requests, hopt, hflat⟩ := ih hrest
        refine ⟨.setBackupValue (cstr key) (cstr value) :: requests,
          List.forall_mem_cons.mpr ⟨rfl, hopt⟩, ?_⟩
        rw [stream_cons, ← hflat, ← ClientRequest.writeMsg_eq]
        rfl

/-- What `update` sends is the `BACKUP_INVALID` and a stream of writes. -/
theorem update_stream {s s' : CacheServer} {net : Net} {sent : ℕ → Bool} {ipPort : Str}
    {calls : List SysCall} (hc : net.connected = true)
    (h : s.update net sent ipPort = some (calls, s')) :
    ∃ requests : List ClientRequest, (∀ r ∈ requests, r.opt = Code.setBackupValue) ∧
      (calls.map SysCall.sentText).flatten = streamText true requests := by
  cases hloop : updateLoop net.cfd sent 0 s s.lru.lruKeysOneshot with
  | none =>
    simp only [update, hc, if_true, hloop] at h
    cases h
  | some o =>
    obtain ⟨rest, s''⟩ := o
    simp only [update, hc, if_true, hloop, Option.bind_eq_bind, Option.bind_some,
      Option.some.injEq, Prod.mk.injEq] at h
    obtain ⟨rfl, -⟩ := h
    obtain ⟨requests, hopt, hflat⟩ := updateLoop_stream hloop
    refine ⟨requests, hopt, ?_⟩
    have hempty : streamText false requests = (requests.map ClientRequest.encode).flatten := rfl
    rw [streamText, if_pos rfl, ← hempty, ← hflat]
    rfl

end Update
end DCache.CacheServer
