import DCache.Cluster.Expansion

/-! The read of a client while servers join, from the master's reply to the answer: what each stage
of it rests on. -/
namespace DCache.Expansion
open DCache.Lib
open CacheServer (IsText wireName)
open CacheThreads (Op Prog Shared getFrom readFrom reply)

section Texts

theorem addresses_cons (text : Str) :
    ∃ rest, addresses text = text.takeWhile (fun b => b ≠ newline) :: rest := by
  by_cases h : newline ∈ text
  · obtain ⟨line, rest, rfl, hline⟩ := List.eq_append_cons_of_mem h
    refine ⟨addresses rest, ?_⟩
    rw [takeWhile_line hline]
    exact List.splitOn_append_cons_self_of_not_mem hline rest
  · refine ⟨[], ?_⟩
    rw [takeWhile_of_notMem h]
    exact List.splitOn_eq_singleton h

/-- A text in front of a newline reads as it does alone. -/
theorem takeWhile_cstr_line (text rest : Str) :
    (cstr (text ++ newline :: rest)).takeWhile (fun b => b ≠ newline) = wireName text := by
  rw [wireName]
  by_cases h₀ : (0 : Byte) ∈ text
  · obtain ⟨text₁, text₂, rfl, htext⟩ := List.eq_append_cons_of_mem h₀
    have hcut : ∀ t, cstr (text₁ ++ 0 :: t) = text₁ := fun t => by
      rw [cstr_append_of_notMem _ htext]
      exact List.append_nil _
    rw [List.append_assoc, List.cons_append, hcut, hcut]
  · have hnl : cstr (newline :: rest) = newline :: cstr rest := rfl
    rw [cstr_append_of_notMem _ h₀, hnl, cstr_eq_self.mpr h₀]
    by_cases h : newline ∈ text
    · obtain ⟨line, rest', rfl, hline⟩ := List.eq_append_cons_of_mem h
      rw [List.append_assoc, List.cons_append, takeWhile_line hline, takeWhile_line hline]
    · rw [takeWhile_line h, takeWhile_of_notMem h]

/-- The first address of a reply is the one that was looked up. -/
theorem addresses_reply (ipPort : Str) :
    ∃ rest, addresses (cstr ipPort) = wireName ipPort :: rest :=
  addresses_cons _

theorem addresses_reply_backup (ipPort backup : Str) :
    ∃ rest, addresses (cstr (ipPort ++ [newline] ++ backup)) = wireName ipPort :: rest := by
  have htext : ipPort ++ [newline] ++ backup = ipPort ++ newline :: backup := by simp
  rw [htext, ← takeWhile_cstr_line ipPort backup]
  exact addresses_cons _

end Texts

section Entries
variable (key value : Str) (p p' : CacheThreads.System)

/-- The server holds the pair, and it is not marked. -/
def Clean : Prop := LRU.find p.mem.server.lru.entries key = some ⟨key, value, false⟩

/-- The server holds the pair. -/
def Kept : Prop := ∃ b, LRU.find p.mem.server.lru.entries key = some ⟨key, value, b⟩

end Entries

section Conditions
variable (x : Setting) (value : Str) (s : System)

/-- The read goes to the server, and may still come to a step of the kind there. -/
def Relies (g : ℤ) (target : Op → Prop) : Prop :=
  match s.read with
  | .named _ addr | .reading (addr :: _) | .waiting addr _ => x.host addr = g
  | .served i addr _ => x.host addr = g ∧ ((s.server g).code i).May target fun _ _ => False
  | _ => False

/-- No other client takes part, the answer to this one can be sent, and the key is not evicted. -/
def Possible : Event → Prop
  | .master (.client _ _ _) => False
  | .recv _ _ bytes stale => CacheServer.untilNewline (bytes ++ stale) ≠ some Code.getValue
  | .dequeue g _ sent => ∀ request rest, (s.server g).mem.server.workqueue = request :: rest →
      request.requestType = Code.getValue → sent = true
  | .step g i => ∀ o p', CacheThreads.step x.cbHashfunc (s.server g) (.step i) = some (o, p') →
      (s.server g).mem.server.lru.hasKey x.key = true → p'.mem.server.lru.hasKey x.key = true
  | _ => True

instance : (e : Event) → Decidable (Possible x s e)
  | .master (.client _ _ _) => isFalse id
  | .master (.newConn _ _) | .master (.cacheServer _ _ _) | .master (.dequeue _)
  | .master (.step _) => isTrue trivial
  | .recv _ _ _ _ => inferInstanceAs (Decidable (_ ≠ _))
  | .dequeue g _ sent =>
    match h : (s.server g).mem.server.workqueue with
    | [] => isTrue fun _ _ hq => absurd (h.symm.trans hq) nofun
    | request :: _ => decidable_of_iff (request.requestType = Code.getValue → sent = true)
      ⟨fun hsent _ _ hq => (List.cons.inj (h.symm.trans hq)).1 ▸ hsent, fun hp => hp request _ h⟩
  | .step g i =>
    match h : CacheThreads.step x.cbHashfunc (s.server g) (.step i) with
    | none => isTrue fun _ _ hs => absurd (h.symm.trans hs) nofun
    | some (o, p') => decidable_of_iff ((s.server g).mem.server.lru.hasKey x.key = true →
        p'.mem.server.lru.hasKey x.key = true)
      ⟨fun hkeep _ _ hs => (Prod.mk.inj (Option.some.inj (h.symm.trans hs))).2 ▸ hkeep,
        fun hp => hp o p' h⟩
  | .deliver _ _ _ _ | .ask _ | .get _ _ => isTrue trivial

/-- The address that is looked up for the client is that of a server which holds the pair, clean; no
thread marks the key there while the read may still ask for the mark, and none stores another value
under it while the read may still fetch it. -/
def Undisturbed : Event → Prop
  | .master (.step (some i)) => s.read = .looking i → ∀ key' next addr,
      s.master.thread (some i) = ⟨none, .call (.owner key') next⟩ →
      s.master.mem.masterHash.conhashGetCacheServer x.cbHashfunc key' = some addr →
        Clean x.key value (s.server (x.host (wireName addr)))
  | .step g i =>
    (∀ next, (s.server g).code i = .call (.setDirty .lru x.key) next →
      ¬ Relies x s g (· = .isDirty .lru x.key)) ∧
    ∀ value' next, (s.server g).code i = .call (.set .lru x.key value') next →
      Relies x s g (· = .get .lru x.key) → value' = value
  | _ => True

end Conditions

section Stages
variable {key value : Str} {p p' : CacheThreads.System} {i : ℕ}

/-- Where the worker is with the client's request, and what the answer rests on. -/
inductive Stage (key value : Str) (p : CacheThreads.System) (i : ℕ) : Prop
  | start (cfd : ℤ) (sent : Bool) (hcode : p.code i = CacheThreads.getValue key cfd sent)
    (h : Clean key value p)
  | present (cfd : ℤ) (sent : Bool)
    (hcode : p.code i = .call (.isDirty .lru key) fun (dirty : Bool) =>
      if dirty then reply cfd Code.dirtyData sent else readFrom .lru key cfd sent)
    (h : Clean key value p)
  | clean (cfd : ℤ) (sent : Bool) (hcode : p.code i = readFrom .lru key cfd sent)
    (h : Kept key value p)
  | found (cfd : ℤ) (sent : Bool) (hcode : p.code i = .call (.get .lru key) fun (value : Str) =>
      reply cfd (cstr (Code.getSuccess ++ [newline] ++ value)) sent) (h : Kept key value p)
  | fetched (cfd : ℤ) (sent : Bool) (hcode : p.code i = reply cfd (success value) sent)

theorem Stage.ne_done (h : Stage key value p i) : p.code i ≠ .done := by
  cases h with
  | _ cfd sent hcode => rw [hcode]; exact nofun

/-- The entry of the key is looked up as before, and no thread is disturbed that is at work. -/
structure Frame (key : Str) (p p' : CacheThreads.System) : Prop where
  entry : LRU.find p'.mem.server.lru.entries key = LRU.find p.mem.server.lru.entries key
  code : ∀ i, p.code i ≠ .done → p'.code i = p.code i

theorem Frame.clean (hf : Frame key p p') (h : Clean key value p) : Clean key value p' :=
  hf.entry.trans h

theorem Frame.kept (hf : Frame key p p') (h : Kept key value p) : Kept key value p' := by
  obtain ⟨b, hb⟩ := h
  exact ⟨b, hf.entry.trans hb⟩

theorem Frame.stage (hf : Frame key p p') (h : Stage key value p i) : Stage key value p' i := by
  have hcode := hf.code i h.ne_done
  cases h with
  | start cfd sent hc h => exact .start cfd sent (hcode.trans hc) (hf.clean h)
  | present cfd sent hc h => exact .present cfd sent (hcode.trans hc) (hf.clean h)
  | clean cfd sent hc h => exact .clean cfd sent (hcode.trans hc) (hf.kept h)
  | found cfd sent hc h => exact .found cfd sent (hcode.trans hc) (hf.kept h)
  | fetched cfd sent hc => exact .fetched cfd sent (hcode.trans hc)

variable {cbHashfunc : Str → ℤ} {j : ℕ} {op : Op} {r : op.Res} {m : Shared}
  {code : ℕ → Prog}

theorem Clean.kept (h : Clean key value p) : Kept key value p := ⟨false, h⟩

theorem Kept.hasKey (h : Kept key value p) : p.mem.server.lru.hasKey key = true := by
  obtain ⟨b, hb⟩ := h
  rw [LRU.Cache.hasKey_iff, ← LRU.find_isSome, hb]
  rfl

/-- A step that neither stores another value under the key nor evicts it. -/
theorem Kept.acted (h : Kept key value p)
    (hop : CacheThreads.perform cbHashfunc j op p.mem = .ok r m)
    (hset : ∀ value', op = .set .lru key value' → value' = value)
    (hevict : p.mem.server.lru.hasKey key = true → m.server.lru.hasKey key = true) :
    Kept key value ⟨m, code⟩ := by
  rcases CacheThreads.find_of_perform hop .lru key with hf | ⟨value', rfl, hf⟩ |
    ⟨key', value', rfl, hk, hf⟩ | ⟨rfl, hf⟩
  · obtain ⟨b, hb⟩ := h
    exact ⟨b, hf.trans hb⟩
  · exact ⟨false, hset value' rfl ▸ hf⟩
  · have hkeep := hevict h.hasKey
    rw [LRU.Cache.hasKey_iff, ← LRU.find_isSome] at hkeep
    have hnone : LRU.find m.server.lru.entries key = none := hf
    rw [hnone] at hkeep
    cases hkeep
  · obtain ⟨b, hb⟩ := h
    refine ⟨true, hf.trans ?_⟩
    change (LRU.find p.mem.server.lru.entries key).map _ = _
    rw [hb]
    rfl

theorem Clean.acted (h : Clean key value p)
    (hop : CacheThreads.perform cbHashfunc j op p.mem = .ok r m)
    (hmark : op ≠ .setDirty .lru key)
    (hset : ∀ value', op = .set .lru key value' → value' = value)
    (hevict : p.mem.server.lru.hasKey key = true → m.server.lru.hasKey key = true) :
    Clean key value ⟨m, code⟩ := by
  have hkept : Kept key value ⟨m, code⟩ := h.kept.acted hop hset hevict
  rcases CacheThreads.find_of_perform hop .lru key with hf | ⟨value', rfl, hf⟩ |
    ⟨key', value', rfl, hk, hf⟩ | ⟨rfl, -⟩
  · exact hf.trans h
  · exact hset value' rfl ▸ hf
  · obtain ⟨b, hb⟩ := hkept
    rw [show LRU.find m.server.lru.entries key = none from hf] at hb
    cases hb
  · exact absurd rfl hmark

/-- The worker comes from one stage to the next, and answers with the value at the end. -/
theorem Stage.own {next : op.Res → Prog} (hvalue : 0 ∉ value) (hs : Stage key value p i)
    (hcode : p.code i = .call op next)
    (hop : CacheThreads.perform cbHashfunc i op p.mem = .ok r m) :
    Stage key value ⟨m, Function.update p.code i (next r)⟩ i ∧ (∀ call, op ≠ .sysCall call) ∨
      ∃ cfd sent, op = .sysCall (.send cfd (success value) sent) := by
  cases hs with
  | start cfd sent hc h =>
    rw [hc] at hcode
    cases hcode
    obtain ⟨rfl, rfl⟩ := Outcome.of_ok hop
    have hkey : p.mem.server.lru.hasKey key = true := h.kept.hasKey
    exact Or.inl ⟨.present cfd sent ((Function.update_self i _ _).trans (if_pos hkey)) h, nofun⟩
  | present cfd sent hc h =>
    rw [hc] at hcode
    cases hcode
    obtain ⟨rfl, rfl⟩ := Outcome.of_ok hop
    have hclean : ¬ p.mem.server.lru.isDirty key = true := by
      rw [LRU.Cache.isDirty_eq, show LRU.find p.mem.server.lru.entries key = _ from h]
      exact Bool.false_ne_true
    exact Or.inl
      ⟨.clean cfd sent ((Function.update_self i _ _).trans (if_neg hclean)) h.kept, nofun⟩
  | clean cfd sent hc h =>
    rw [hc] at hcode
    cases hcode
    obtain ⟨rfl, rfl⟩ := Outcome.of_ok hop
    exact Or.inl ⟨.found cfd sent ((Function.update_self i _ _).trans (if_pos h.hasKey)) h, nofun⟩
  | found cfd sent hc h =>
    rw [hc] at hcode
    cases hcode
    obtain ⟨c, hget, rfl⟩ := CacheThreads.of_perform_get hop
    obtain ⟨⟨b, hb⟩, -⟩ := p.mem.server.lru.of_get key _ hget
    obtain ⟨b', hb'⟩ := h
    obtain rfl : value = r := congrArg LRU.Entry.val (Option.some.inj (hb'.symm.trans hb))
    have hanswer : cstr (Code.getSuccess ++ [newline] ++ value) = success value := by
      have hhead : (0 : Byte) ∉ Code.getSuccess ++ [newline] := by decide
      rw [cstr_append_of_notMem _ hhead, cstr_eq_self.mpr hvalue, List.append_assoc]
      rfl
    exact Or.inl ⟨.fetched cfd sent ((Function.update_self i _ _).trans
      (congrArg (fun msg => reply cfd msg sent) hanswer)), nofun⟩
  | fetched cfd sent hc =>
    rw [hc] at hcode
    cases hcode
    exact Or.inr ⟨cfd, sent, rfl⟩

variable (cbHashfunc) in
/-- The worker waits for nothing, and the entry that it fetches is there. -/
theorem Stage.progress (hs : Stage key value p i) :
    ∃ op next r m, p.code i = .call op next ∧
      CacheThreads.perform cbHashfunc i op p.mem = .ok r m := by
  cases hs with
  | found cfd sent hc h =>
    obtain ⟨b, hb⟩ := h
    obtain ⟨c, hget, -⟩ := p.mem.server.lru.get_of_find key hb
    exact ⟨_, _, _, _, hc, CacheThreads.perform_get (t := .lru) hget⟩
  | _ cfd sent hc => exact ⟨_, _, _, _, hc, rfl⟩

theorem may_get_readFrom (key : Str) (cfd : ℤ) (sent : Bool) :
    (readFrom .lru key cfd sent).May (· = .get .lru key) fun _ _ => False :=
  Code.May.of_next (r := true) (Or.inl rfl) id

/-- A step of another thread leaves the worker where it is. -/
theorem Stage.acted {next : op.Res → Prog} (hs : Stage key value p i) (hij : i ≠ j)
    (hop : CacheThreads.perform cbHashfunc j op p.mem = .ok r m)
    (hmark : (p.code i).May (· = .isDirty .lru key) (fun _ _ => False) → op ≠ .setDirty .lru key)
    (hset : (p.code i).May (· = .get .lru key) (fun _ _ => False) →
      ∀ value', op = .set .lru key value' → value' = value)
    (hevict : p.mem.server.lru.hasKey key = true → m.server.lru.hasKey key = true) :
    Stage key value ⟨m, Function.update p.code j (next r)⟩ i := by
  have hstay : Function.update p.code j (next r) i = p.code i := Function.update_of_ne hij _ _
  cases hs with
  | start cfd sent hc h =>
    rw [hc] at hmark hset
    have hget : (CacheThreads.getValue key cfd sent).May (· = .get .lru key) fun _ _ => False :=
      Code.May.of_next (r := true)
        (Code.May.of_next (r := false) (may_get_readFrom key cfd sent) id) id
    have hdirty : (CacheThreads.getValue key cfd sent).May (· = .isDirty .lru key)
        fun _ _ => False := Code.May.of_next (r := true) (Or.inl rfl) id
    exact .start cfd sent (hstay.trans hc) (h.acted hop (hmark hdirty) (hset hget) hevict)
  | present cfd sent hc h =>
    rw [hc] at hmark hset
    have hget := hset (Code.May.of_next (r := false) (may_get_readFrom key cfd sent) id)
    exact .present cfd sent (hstay.trans hc) (h.acted hop (hmark (Or.inl rfl)) hget hevict)
  | clean cfd sent hc h =>
    rw [hc] at hset
    have hget := hset (may_get_readFrom key cfd sent)
    exact .clean cfd sent (hstay.trans hc) (h.acted hop hget hevict)
  | found cfd sent hc h =>
    rw [hc] at hset
    exact .found cfd sent (hstay.trans hc) (h.acted hop (hset (Or.inl rfl)) hevict)
  | fetched cfd sent hc => exact .fetched cfd sent (hstay.trans hc)

end Stages
section Master
variable {x : Setting} {value : Str} {s : System} {m : MasterThreads.System} {i : ℕ} {addr : Str}
  {e : MasterThreads.Event}
open MasterThreads (Thread)

/-- A worker of the master that has looked up an address, and is to reply with it. -/
inductive Naming (t : Thread) (addr : Str) : Prop
  | looked (clientAddr : SockAddrIn) (ipPort : Str)
    (ht : t = ⟨none, .call (.isExisted ipPort) fun (existed : Bool) =>
      if existed then .call (.getNext ipPort) fun (backup : Str) =>
        .call (.reply clientAddr (ipPort ++ [newline] ++ backup)) fun _ => .done
      else .call (.reply clientAddr ipPort) fun _ => .done⟩) (haddr : wireName ipPort = addr)
  | listed (clientAddr : SockAddrIn) (ipPort : Str)
    (ht : t = ⟨none, .call (.getNext ipPort) fun (backup : Str) =>
      .call (.reply clientAddr (ipPort ++ [newline] ++ backup)) fun _ => .done⟩)
    (haddr : wireName ipPort = addr)
  | replying (clientAddr : SockAddrIn) (msg : Str)
    (ht : t = ⟨none, .call (.reply clientAddr msg) fun _ => .done⟩)
    (haddr : ∃ rest, addresses (cstr msg) = addr :: rest)

theorem Naming.ne_done {t : Thread} (h : Naming t addr) : t ≠ .done := by
  cases h with
  | _ _ _ ht => rw [ht]; exact nofun

/-- A step of another thread, or another event, leaves a worker at its work. -/
theorem thread_frame {p p' : MasterThreads.System} {cbHashfunc : Str → ℤ} {u : Unit}
    (h : MasterThreads.step cbHashfunc p e = some (u, p')) (hbusy : p.thread (some i) ≠ .done)
    (he : e ≠ .step (some i)) : p'.thread (some i) = p.thread (some i) := by
  cases MasterThreads.step_cases h with
  | idle => rfl
  | accepted => rfl
  | asked => rfl
  | watched cfd recv res hdone =>
    have hne : some i ≠ none := nofun
    exact Function.update_of_ne hne ⟨none, MasterThreads.dealwithCacheServer cfd recv res⟩ p.thread
  | taken j request rest hq hdone =>
    refine Function.update_of_ne ?_ _ _
    rintro ⟨⟩
    exact hbusy hdone
  | acted hstep =>
    refine Function.update_of_ne ?_ _ _
    rintro rfl
    exact he rfl

theorem Read.afterMaster_eq {r : Read} (hasked : r ≠ .asked)
    (hlooking : ∀ i, r = .looking i → e ≠ .step (some i))
    (hnamed : ∀ i addr, r = .named i addr → e ≠ .step (some i)) : r.afterMaster x m e = r := by
  cases r with
  | asked => exact absurd rfl hasked
  | looking j =>
    cases e with
    | step i =>
      have hne : i ≠ some j := by
        rintro rfl
        exact hlooking j rfl rfl
      exact if_neg hne
    | _ => rfl
  | named j addr =>
    cases e with
    | step i =>
      have hne : i ≠ some j := by
        rintro rfl
        exact hnamed j addr rfl rfl
      exact if_neg hne
    | _ => rfl
  | _ => cases e <;> rfl

/-- What is known of the read. -/
def Promising (x : Setting) (value : Str) (s : System) : Prop :=
  match s.read with
  | .idle | .asked => True
  | .looking i => ∃ clientAddr key,
    s.master.thread (some i) = ⟨none, MasterThreads.getDistribute clientAddr key⟩
  | .named i addr => Naming (s.master.thread (some i)) addr ∧
    Clean x.key value (s.server (x.host addr))
  | .reading [] => False
  | .reading (addr :: _) | .waiting addr _ => Clean x.key value (s.server (x.host addr))
  | .served i addr _ => Stage x.key value (s.server (x.host addr)) i
  | .ended answer => answer = success value

/-- The step of a worker that is to do an operation. -/
theorem of_step_call {p p' : MasterThreads.System} {cbHashfunc : Str → ℤ} {u : Unit}
    {op : MasterThreads.Op} {next : op.Res → MasterThreads.Prog}
    (ht : p.thread (some i) = ⟨none, .call op next⟩)
    (h : MasterThreads.step cbHashfunc p (.step (some i)) = some (u, p')) :
    MasterThreads.perform cbHashfunc op p.mem = .blocked ∨ ∃ r mem,
      MasterThreads.perform cbHashfunc op p.mem = .ok r mem ∧
        p'.thread (some i) = ⟨MasterThreads.called op, next r⟩ := by
  simp only [MasterThreads.step, ht, Thread.step] at h
  cases hop : MasterThreads.perform cbHashfunc op p.mem with
  | blocked => exact Or.inl rfl
  | fault =>
    rw [hop] at h
    cases h
  | ok r mem =>
    rw [hop] at h
    obtain ⟨-, rfl⟩ := Prod.mk.inj (Option.some.inj h)
    exact Or.inr ⟨r, mem, rfl, Function.update_self _ _ _⟩

theorem ofOption_ne_blocked {ρ σ : Type} (o : Option (ρ × σ)) : Outcome.ofOption o ≠ .blocked := by
  cases o <;> exact nofun

/-- The worker looks up the owner, and its address is that of a server with a clean entry. -/
theorem promising_looked {clientAddr : SockAddrIn} {key : Str} {u : Unit}
    (hread : s.read = .looking i)
    (ht : s.master.thread (some i) = ⟨none, MasterThreads.getDistribute clientAddr key⟩)
    (hu : Undisturbed x value s (.master (.step (some i))))
    (h : MasterThreads.step x.cbHashfunc s.master (.step (some i)) = some (u, m)) :
    Promising x value (s.afterMaster x (.step (some i)) m) := by
  rcases of_step_call ht h with hop | ⟨r, mem, hop, hthread⟩
  · exact absurd hop (ofOption_ne_blocked _)
  · obtain ⟨ipPort, hget, ho⟩ := Option.map_eq_some_iff.mp (Outcome.of_ofOption hop)
    have hr : ipPort = r := congrArg Prod.fst ho
    have hafter : (s.afterMaster x (.step (some i)) m).read = .named i (wireName ipPort) := by
      simp only [System.afterMaster, hread, Read.afterMaster, if_true, Read.looked, ht,
        MasterThreads.getDistribute, hget]
    unfold Promising
    rw [hafter]
    exact ⟨.looked clientAddr r hthread (congrArg wireName hr.symm),
      hu hread key _ ipPort ht hget⟩

/-- The worker that has looked up an address goes on to its reply, and sends it. -/
theorem promising_named {u : Unit} (hread : s.read = .named i addr)
    (hp : Naming (s.master.thread (some i)) addr)
    (hc : Clean x.key value (s.server (x.host addr)))
    (h : MasterThreads.step x.cbHashfunc s.master (.step (some i)) = some (u, m)) :
    Promising x value (s.afterMaster x (.step (some i)) m) := by
  have hnext : ∀ read, Read.replied s.master i addr = read →
      (s.afterMaster x (.step (some i)) m).read = read := by
    intro read h
    simp only [System.afterMaster, hread, Read.afterMaster, if_true, h]
  unfold Promising
  cases hp with
  | looked clientAddr ipPort ht haddr =>
    rcases of_step_call ht h with hop | ⟨r, mem, hop, hthread⟩
    · cases hop
    · rw [hnext (.named i addr) (by rw [Read.replied, ht])]
      cases r with
      | true => exact ⟨.listed clientAddr ipPort hthread haddr, hc⟩
      | false =>
        refine ⟨.replying clientAddr ipPort hthread ?_, hc⟩
        exact haddr ▸ addresses_reply ipPort
  | listed clientAddr ipPort ht haddr =>
    rcases of_step_call ht h with hop | ⟨backup, mem, hop, hthread⟩
    · exact absurd hop (ofOption_ne_blocked _)
    · rw [hnext (.named i addr) (by rw [Read.replied, ht])]
      refine ⟨.replying clientAddr _ hthread ?_, hc⟩
      exact haddr ▸ addresses_reply_backup ipPort backup
  | replying clientAddr msg ht haddr =>
    obtain ⟨rest, hrest⟩ := haddr
    rw [hnext (.reading (addr :: rest)) (by rw [Read.replied, ht, ← hrest])]
    exact hc

/-- A worker of the master takes a request while the client waits for its reply. -/
theorem promising_asked {u : Unit} {j : ℕ} (hread : s.read = .asked)
    (h : MasterThreads.step x.cbHashfunc s.master (.dequeue j) = some (u, m)) :
    Promising x value (s.afterMaster x (.dequeue j) m) := by
  cases hq : s.master.mem.workqueue with
  | nil =>
    have hafter : (s.afterMaster x (.dequeue j) m).read = .asked := by
      simp only [System.afterMaster, hread, Read.afterMaster, hq]
    unfold Promising
    rw [hafter]
    trivial
  | cons request rest =>
    simp only [MasterThreads.step, hq] at h
    by_cases htaken : (s.master.thread (some j)).isDone ∧ request.requestType = .getDistribute
    · rw [if_pos htaken.1] at h
      obtain ⟨-, rfl⟩ := Prod.mk.inj (Option.some.inj h)
      have hafter : (s.afterMaster x (.dequeue j) ⟨{ s.master.mem with workqueue := rest },
          Function.update s.master.thread (some j) ⟨none, MasterThreads.handle request⟩⟩).read =
            .looking j := by
        simp only [System.afterMaster, hread, Read.afterMaster, hq, if_pos htaken]
      have hcode : MasterThreads.handle request =
          MasterThreads.getDistribute request.clientAddr request.key := by
        simp only [MasterThreads.handle, htaken.2]
      unfold Promising
      rw [hafter]
      exact ⟨request.clientAddr, request.key,
        (Function.update_self _ _ _).trans (congrArg (Thread.mk none) hcode)⟩
    · have hafter : (s.afterMaster x (.dequeue j) m).read = .asked := by
        simp only [System.afterMaster, hread, Read.afterMaster, hq, if_neg htaken]
      unfold Promising
      rw [hafter]
      trivial

theorem Frame.rfl {key : Str} {p : CacheThreads.System} : Frame key p p :=
  ⟨Eq.refl _, fun _ _ => Eq.refl _⟩

/-- An event with no part in the read. -/
theorem Promising.frame {s' : System} (hp : Promising x value s) (hread : s'.read = s.read)
    (hm : ∀ i, s.master.thread (some i) ≠ .done →
      (s.read = .looking i ∨ ∃ addr, s.read = .named i addr) →
        s'.master.thread (some i) = s.master.thread (some i))
    (hf : ∀ g, Frame x.key (s.server g) (s'.server g)) : Promising x value s' := by
  unfold Promising at hp ⊢
  rw [hread]
  cases hr : s.read with
  | idle => trivial
  | asked => trivial
  | looking i =>
    rw [hr] at hp
    obtain ⟨clientAddr, key, ht⟩ := hp
    have hbusy : s.master.thread (some i) ≠ .done := by
      rw [ht]
      exact nofun
    exact ⟨clientAddr, key, (hm i hbusy (Or.inl hr)).trans ht⟩
  | named i addr =>
    rw [hr] at hp
    refine ⟨?_, (hf _).clean hp.2⟩
    rw [hm i hp.1.ne_done (Or.inr ⟨addr, hr⟩)]
    exact hp.1
  | reading addrs =>
    rw [hr] at hp
    cases addrs with
    | nil => exact hp
    | cons addr addrs => exact (hf _).clean hp
  | waiting addr addrs =>
    rw [hr] at hp
    exact (hf _).clean hp
  | served i addr addrs =>
    rw [hr] at hp
    exact (hf _).stage hp
  | ended answer =>
    rw [hr] at hp
    exact hp

theorem promising_afterMaster {u : Unit} (hp : Promising x value s)
    (hread : s.read.afterMaster x s.master e = s.read)
    (hlooking : ∀ i, s.read = .looking i → e ≠ .step (some i))
    (hnamed : ∀ i addr, s.read = .named i addr → e ≠ .step (some i))
    (h : MasterThreads.step x.cbHashfunc s.master e = some (u, m)) :
    Promising x value (s.afterMaster x e m) := by
  refine hp.frame hread (fun i hbusy hi => thread_frame h hbusy ?_) fun g => Frame.rfl
  rcases hi with hi | ⟨addr, hi⟩
  · exact hlooking i hi
  · exact hnamed i addr hi

theorem Promising.master {u : Unit} (hp : Promising x value s)
    (hu : Undisturbed x value s (.master e))
    (h : MasterThreads.step x.cbHashfunc s.master e = some (u, m)) :
    Promising x value (s.afterMaster x e m) := by
  cases hr : s.read with
  | asked =>
    have hother : ∀ e, (∀ j, e ≠ MasterThreads.Event.dequeue j) →
        (Read.asked).afterMaster x s.master e = .asked := by
      intro e he
      cases e with
      | dequeue j => exact absurd rfl (he j)
      | _ => rfl
    by_cases he : ∃ j, e = .dequeue j
    · obtain ⟨j, rfl⟩ := he
      exact promising_asked hr h
    · refine promising_afterMaster hp ?_ (fun i hi => ?_) (fun i addr hi => ?_) h
      · rw [hr]
        exact hother e fun j hj => he ⟨j, hj⟩
      · rw [hr] at hi
        cases hi
      · rw [hr] at hi
        cases hi
  | looking i =>
    by_cases he : e = .step (some i)
    · subst he
      unfold Promising at hp
      rw [hr] at hp
      obtain ⟨clientAddr, key, ht⟩ := hp
      exact promising_looked hr ht hu h
    · have hlooking : ∀ j, Read.looking i = .looking j → e ≠ .step (some j) := by
        rintro j ⟨⟩
        exact he
      refine promising_afterMaster hp ?_ (fun j hj => hlooking j (hr ▸ hj)) (fun j addr hj => ?_) h
      · rw [hr]
        exact Read.afterMaster_eq nofun hlooking nofun
      · rw [hr] at hj
        cases hj
  | named i addr =>
    by_cases he : e = .step (some i)
    · subst he
      unfold Promising at hp
      rw [hr] at hp
      exact promising_named hr hp.1 hp.2 h
    · have hnamed : ∀ j addr', Read.named i addr = .named j addr' → e ≠ .step (some j) := by
        rintro j addr' ⟨⟩
        exact he
      refine promising_afterMaster hp ?_ (fun j hj => ?_)
        (fun j addr' hj => hnamed j addr' (hr ▸ hj)) h
      · rw [hr]
        exact Read.afterMaster_eq nofun nofun hnamed
      · rw [hr] at hj
        cases hj
  | _ =>
    refine promising_afterMaster hp ?_ (fun i hi => ?_) (fun i addr hi => ?_) h
    · rw [hr]
      exact Read.afterMaster_eq nofun nofun nofun
    · rw [hr] at hi
      cases hi
    · rw [hr] at hi
      cases hi

end Master
end DCache.Expansion
