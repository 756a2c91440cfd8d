import DCache.Lib.Run
import DCache.Cache.Migration

/-! Writes on the server that owns the key. A key that was handed over stays dirty, so a server
that gets it back refuses to write it. -/
namespace DCache.CacheServer
open DCache.Lib DCache.LRU

/-- What can change the tables and the ring of a server. -/
inductive Event
  | updateHash (ipPorts : List Str)
  | recoverBackup
  | move (net : ℕ → Net)
  | setValue (key value : Str)
  | getValue (key : Str) (sent : Bool)
  | setBackupValue (key value : Str)
  | getBackupValue (key : Str) (sent : Bool)

section Step
variable (cbHashfunc : Str → ℤ)

/-- The results are what the function returns and the text that it sends. -/
def step (s : CacheServer) : Event → Option ((ℤ × Option Str) × CacheServer)
  | .updateHash ipPorts => (s.updateHash cbHashfunc ipPorts).map (fun s => ((0, none), s))
  | .recoverBackup => some ((0, none), s.recoverBackup.2)
  | .move net => (s.move cbHashfunc net).map (fun o => ((0, none), o.2))
  | .setValue key value => some (((s.setValue key value).1, none), (s.setValue key value).2)
  | .getValue key sent => (s.getValue key sent).map (fun o => ((o.1, some o.2.1), o.2.2))
  | .setBackupValue key value =>
    some (((s.setBackupValue key value).1, none), (s.setBackupValue key value).2)
  | .getBackupValue key sent =>
    (s.getBackupValue key sent).map (fun o => ((o.1, some o.2.1), o.2.2))

/-- The server finds its own name when it looks for the owner of the key. -/
def Owns (s : CacheServer) (key : Str) : Prop :=
  s.cacheServerHash.conhashGetCacheServer cbHashfunc key = some s.localAddr

/-- No key that the server owns is dirty. -/
def Writable (s : CacheServer) : Prop := ∀ key, s.Owns cbHashfunc key → s.lru.isDirty key = false

/-- An address list does not give a dirty key back to the server. -/
def StaysAway (s : CacheServer) : Event → Prop
  | .updateHash ipPorts => ∀ s', s.updateHash cbHashfunc ipPorts = some s' → s'.Writable cbHashfunc
  | _ => True

end Step

section Write
variable (s : CacheServer) {key value : Str}

/-- The text of an answer is a C string and fits its array. -/
def Replyable (value : Str) : Prop := 0 ∉ value ∧ Fits (Code.getSuccess ++ [newline] ++ value)

/-- A write that returns 0 is answered by the next read. -/
def AcceptsWrite (key value : Str) : Prop :=
  (s.setValue key value).1 = 0 → ∀ sent, ∃ ret s',
    (s.setValue key value).2.getValue key sent =
      some (ret, Code.getSuccess ++ [newline] ++ value, s') ∧
    Fits (Code.getSuccess ++ [newline] ++ value)

theorem lookup_of_clean {c : Cache Str Str} {e : Entry Str Str} (h : find c.entries key = some e)
    (hd : e.dirty = false) : ∃ c', lookup c key =
      some (Code.getSuccess ++ [newline] ++ cstr e.val, c') ∧
      c'.entries = without c.entries key ++ [e] := by
  obtain ⟨c', hget, hes⟩ := c.get_of_find key h
  have hdirty : c.isDirty key = false := by rw [Cache.isDirty_eq, h]; simpa using hd
  have hkey : c.hasKey key = true := (c.hasKey_iff key).mpr (find_isSome.mp (by rw [h]; rfl))
  refine ⟨c', ?_, hes⟩
  simp only [lookup, hkey, hdirty, Bool.and_false, Bool.false_eq_true, if_false, if_true, hget,
    Option.bind_eq_bind, Option.bind_some]
  rw [cstr_append_of_notMem _ (by decide)]

theorem lookup_of_dirty {c : Cache Str Str} (h : c.isDirty key = true) :
    lookup c key = some (Code.dirtyData, c) := by
  obtain ⟨e, he, -⟩ := (c.isDirty_iff key).mp h
  have hkey : c.hasKey key = true := (c.hasKey_iff key).mpr (find_isSome.mp (by rw [he]; rfl))
  rw [lookup, if_pos (by rw [hkey, h]; rfl)]

theorem store_of_dirty {c : Cache Str Str} (h : c.isDirty key = true) (value : Str) :
    store c key value = c := by
  obtain ⟨e, he, -⟩ := (c.isDirty_iff key).mp h
  have hkey : c.hasKey key = true := (c.hasKey_iff key).mpr (find_isSome.mp (by rw [he]; rfl))
  rw [store, if_pos (by rw [hkey, h]; rfl)]

/-- `setValue` returns 0 in any case, and writes unless the key is dirty. -/
theorem acceptsWrite_iff :
    s.AcceptsWrite key value ↔ s.lru.isDirty key = false ∧ Replyable value := by
  cases hd : s.lru.isDirty key with
  | true =>
    refine iff_of_false (fun h => ?_) (fun h => Bool.noConfusion h.1)
    obtain ⟨ret, s', hget, -⟩ := h rfl true
    have hset : (s.setValue key value).2 = s := by rw [setValue, store_of_dirty hd]
    rw [hset, getValue, lookup_of_dirty hd] at hget
    have hmsg : Code.dirtyData.head? = Code.getSuccess.head? :=
      congrArg (fun o => o.2.1.head?) (Option.some.inj hget)
    exact absurd hmsg (by decide)
  | false =>
    obtain ⟨c', hl, -⟩ := lookup_of_clean (s.find_setValue_self hd value) rfl
    have hget : ∀ sent, (s.setValue key value).2.getValue key sent =
        some (if sent then 0 else -1, Code.getSuccess ++ [newline] ++ cstr value,
          { (s.setValue key value).2 with lru := c' }) := fun sent => by
      rw [getValue, hl]
      rfl
    constructor
    · intro h
      obtain ⟨ret, s', hs, hfit⟩ := h rfl true
      obtain ⟨-, hmsg, -⟩ : _ ∧ _ = _ ∧ _ := by
        simpa only [Prod.mk.injEq] using Option.some.inj ((hget true).symm.trans hs)
      exact ⟨rfl, cstr_eq_self.mp (List.append_cancel_left hmsg), hfit⟩
    · rintro ⟨-, h0, hfit⟩ - sent
      exact ⟨_, _, by rw [hget, cstr_eq_self.mpr h0], hfit⟩

end Write

section Runs
variable {cbHashfunc : Str → ℤ} {s s' : CacheServer}

/-- Reading a table changes no flag. -/
theorem isDirty_of_lookup {c c' : Cache Str Str} {key msg : Str}
    (h : lookup c key = some (msg, c')) (k : Str) : c'.isDirty k = c.isDirty k := by
  unfold lookup at h
  split_ifs at h with hd hk
  · rw [← (Prod.mk.inj (Option.some.inj h)).2]
  · obtain ⟨e, he⟩ := Option.isSome_iff_exists.mp (find_isSome.mpr ((c.hasKey_iff key).mp hk))
    obtain ⟨c'', hget, hes⟩ := c.get_of_find key he
    rw [hget] at h
    obtain ⟨-, rfl⟩ := Prod.mk.inj (Option.some.inj h)
    rw [Cache.isDirty_eq, Cache.isDirty_eq, hes, c.find_promoted key k he]
  · rw [← (Prod.mk.inj (Option.some.inj h)).2]

/-- Writing to a table makes no key dirty. -/
theorem isDirty_of_store (c : Cache Str Str) (key value : Str) {k : Str}
    (h : c.isDirty k = false) : (store c key value).isDirty k = false := by
  unfold store
  split_ifs with hd
  · exact h
  · rw [Cache.isDirty_eq] at h ⊢
    by_cases hk : k = key
    · rw [hk, c.find_set_self key value]
      rfl
    · rcases c.find_set_of_ne value hk with hf | hf
      · rw [hf, h]
      · rw [hf]
        rfl

/-- A move makes no key dirty that the server owns. -/
theorem isDirty_of_move {net : ℕ → Net} {calls : List (Str × SysCall)}
    (h : s.move cbHashfunc net = some (calls, s')) {key : Str} (ho : s.Owns cbHashfunc key) :
    s'.lru.isDirty key = s.lru.isDirty key := by
  have hstay : ¬ s.Leaves cbHashfunc key := by
    rintro ⟨-, addr, ha, hl⟩
    exact hl (Option.some.inj (ha.symm.trans ho))
  rw [Cache.isDirty_eq, Cache.isDirty_eq, find_of_move h hstay]

/-- What an answer to a read leaves of the server. -/
theorem of_getValue {key msg : Str} {sent : Bool} {ret : ℤ}
    (h : s.getValue key sent = some (ret, msg, s')) :
    ∃ lru, lookup s.lru key = some (msg, lru) ∧ s' = { s with lru := lru } := by
  obtain ⟨⟨msg', lru⟩, hl, h⟩ := Option.bind_eq_some_iff.mp h
  simp only [Option.some.injEq, Prod.mk.injEq] at h
  obtain ⟨-, rfl, rfl⟩ := h
  exact ⟨lru, hl, rfl⟩

theorem of_getBackupValue {key msg : Str} {sent : Bool} {ret : ℤ}
    (h : s.getBackupValue key sent = some (ret, msg, s')) :
    ∃ lruBackup, s' = { s with lruBackup := lruBackup } := by
  obtain ⟨⟨msg', lruBackup⟩, -, h⟩ := Option.bind_eq_some_iff.mp h
  simp only [Option.some.injEq, Prod.mk.injEq] at h
  obtain ⟨-, -, rfl⟩ := h
  exact ⟨lruBackup, rfl⟩

/-- Only an address list can make a dirty key one's own. -/
theorem Writable.step (hs : s.Writable cbHashfunc) {e : Event} {r : ℤ × Option Str}
    (he : s.StaysAway cbHashfunc e) (h : s.step cbHashfunc e = some (r, s')) :
    s'.Writable cbHashfunc := by
  cases e with
  | updateHash ipPorts =>
    obtain ⟨s₁, h₁, ho⟩ := Option.map_eq_some_iff.mp h
    obtain ⟨-, rfl⟩ := Prod.mk.inj ho
    exact he s₁ h₁
  | recoverBackup =>
    obtain ⟨-, rfl⟩ := Prod.mk.inj (Option.some.inj h)
    exact hs
  | move net =>
    obtain ⟨⟨calls, s₁⟩, h₁, ho⟩ := Option.map_eq_some_iff.mp h
    obtain ⟨-, rfl⟩ := Prod.mk.inj ho
    obtain ⟨hring, hlocal⟩ := move_frame h₁
    intro key hown
    have hown' : s.Owns cbHashfunc key := by
      unfold Owns at hown
      rwa [hring, hlocal] at hown
    exact (isDirty_of_move h₁ hown').trans (hs key hown')
  | setValue key value =>
    obtain ⟨-, rfl⟩ := Prod.mk.inj (Option.some.inj h)
    exact fun k hown => isDirty_of_store _ _ _ (hs k hown)
  | getValue key sent =>
    obtain ⟨⟨ret, msg, s₁⟩, h₁, ho⟩ := Option.map_eq_some_iff.mp h
    obtain ⟨-, rfl⟩ := Prod.mk.inj ho
    obtain ⟨lru, hl, rfl⟩ := of_getValue h₁
    exact fun k hown => (isDirty_of_lookup hl k).trans (hs k hown)
  | setBackupValue key value =>
    obtain ⟨-, rfl⟩ := Prod.mk.inj (Option.some.inj h)
    exact hs
  | getBackupValue key sent =>
    obtain ⟨⟨ret, msg, s₁⟩, h₁, ho⟩ := Option.map_eq_some_iff.mp h
    obtain ⟨-, rfl⟩ := Prod.mk.inj ho
    obtain ⟨lruBackup, rfl⟩ := of_getBackupValue h₁
    exact hs

/-- Only an address list changes the ring. -/
theorem ring_of_step {e : Event} {r : ℤ × Option Str} (he : ∀ ipPorts, e ≠ .updateHash ipPorts)
    (h : s.step cbHashfunc e = some (r, s')) : s'.cacheServerHash = s.cacheServerHash := by
  cases e with
  | updateHash ipPorts => exact absurd rfl (he ipPorts)
  | recoverBackup =>
    obtain ⟨-, rfl⟩ := Prod.mk.inj (Option.some.inj h)
    rfl
  | move net =>
    obtain ⟨⟨calls, s₁⟩, h₁, ho⟩ := Option.map_eq_some_iff.mp h
    obtain ⟨-, rfl⟩ := Prod.mk.inj ho
    exact (move_frame h₁).1
  | setValue key value =>
    obtain ⟨-, rfl⟩ := Prod.mk.inj (Option.some.inj h)
    rfl
  | getValue key sent =>
    obtain ⟨⟨ret, msg, s₁⟩, h₁, ho⟩ := Option.map_eq_some_iff.mp h
    obtain ⟨-, rfl⟩ := Prod.mk.inj ho
    obtain ⟨lru, -, rfl⟩ := of_getValue h₁
    rfl
  | setBackupValue key value =>
    obtain ⟨-, rfl⟩ := Prod.mk.inj (Option.some.inj h)
    rfl
  | getBackupValue key sent =>
    obtain ⟨⟨ret, msg, s₁⟩, h₁, ho⟩ := Option.map_eq_some_iff.mp h
    obtain ⟨-, rfl⟩ := Prod.mk.inj ho
    obtain ⟨lruBackup, rfl⟩ := of_getBackupValue h₁
    rfl

theorem writable_startListen (port : ℤ) : (CacheServer.new.startListen port).Writable cbHashfunc :=
  fun key _ => by
    rw [Cache.isDirty_eq]
    rfl

/-- As long as no address list gives a dirty key back to the server, the server answers what was
written last to a key that it owns, for every value that an answer can carry. An address list that
does so makes it refuse every value of some key that it owns. -/
theorem owner_accepts_writes_of_run (cbHashfunc : Str → ℤ) (port : ℤ) {s : CacheServer}
    (h : Reaches (CacheServer.step cbHashfunc) (StaysAway cbHashfunc)
      (CacheServer.new.startListen port) s) :
    (∀ key, s.Owns cbHashfunc key → ∀ value, s.AcceptsWrite key value ↔ Replyable value) ∧
    ∀ ipPorts s', s.updateHash cbHashfunc ipPorts = some s' →
      ¬ s.StaysAway cbHashfunc (.updateHash ipPorts) →
        ∃ key, s'.Owns cbHashfunc key ∧ ∀ value, ¬ s'.AcceptsWrite key value := by
  have hs : s.Writable cbHashfunc :=
    h.invariant (I := Writable cbHashfunc) (fun _ _ _ _ hs he hstep => hs.step he hstep)
      (writable_startListen port)
  constructor
  · intro key hown value
    rw [acceptsWrite_iff, hs key hown]
    exact and_iff_right rfl
  · intro ipPorts s' hs' hback
    have hdirty : ¬ s'.Writable cbHashfunc := fun hw => hback fun s'' h'' => by
      obtain rfl := Option.some.inj (hs'.symm.trans h'')
      exact hw
    simp only [Writable, not_forall] at hdirty
    obtain ⟨key, hown, hd⟩ := hdirty
    exact ⟨key, hown, fun value hw => hd ((acceptsWrite_iff s').mp hw).1⟩

theorem localAddr_startListen :
    (CacheServer.new.startListen 6000).localAddr = lit "0.0.0.0:6000" := by
  have hport : ntohs (htons 6000) = (6000 : ℕ) := ntohs_htons (p := 6000) (by decide)
  simp only [startListen, listenSockAddr, sockAddr2str, hport, port2str_eq]
  norm_num [digitChars, inetNtoa, decimal, InAddr.any]
  decide

/-- A server with this ring that has stored one pair. -/
def written (c : Ring.ConHash) : CacheServer :=
  ({ CacheServer.new.startListen 6000 with cacheServerHash := c }.setValue (lit "k") (lit "v")).2

theorem isDirty_written (c : Ring.ConHash) (key : Str) : (written c).lru.isDirty key = false :=
  isDirty_of_store _ _ _ (by rw [Cache.isDirty_eq]; rfl)

/-- A server that is alone on the ring, and then sees its key go to the only other one. -/
theorem exists_handOver (cbHashfunc : Str → ℤ) : ∃ c₁ c₃ calls s₄,
    (CacheServer.new.startListen 6000).updateHash cbHashfunc [lit "0.0.0.0:6000"] =
      some { CacheServer.new.startListen 6000 with cacheServerHash := c₁ } ∧
    (written c₁).Owns cbHashfunc (lit "k") ∧
    (written c₁).updateHash cbHashfunc [lit "10.0.0.2:6001"] =
      some { written c₁ with cacheServerHash := c₃ } ∧
    { written c₁ with cacheServerHash := c₃ }.move cbHashfunc reliableNet = some (calls, s₄) ∧
    s₄.lru.isDirty (lit "k") = true ∧
    ∃ c₅, s₄.updateHash cbHashfunc [lit "0.0.0.0:6000"] = some { s₄ with cacheServerHash := c₅ } ∧
      Owns cbHashfunc { s₄ with cacheServerHash := c₅ } (lit "k") := by
  have hnet : Reliable reliableNet := fun _ => ⟨rfl, rfl⟩
  obtain ⟨c₁, hs₁, hr₁⟩ := (CacheServer.new.startListen 6000).updateHash_eq cbHashfunc
    (List.nodup_singleton (lit "0.0.0.0:6000")) (by decide)
  have hown₁ : (written c₁).Owns cbHashfunc (lit "k") :=
    (owner_of_single hr₁ _).trans (congrArg some localAddr_startListen.symm)
  have hset : find (written c₁).lru.entries (lit "k") = some ⟨lit "k", lit "v", false⟩ :=
    find_setValue_self _ rfl _
  obtain ⟨c₃, hs₃, hr₃⟩ := (written c₁).updateHash_eq cbHashfunc
    (List.nodup_singleton (lit "10.0.0.2:6001")) (by decide)
  let s₃ : CacheServer := { written c₁ with cacheServerHash := c₃ }
  have hown₃ := owner_of_single hr₃
  have hmem : lit "k" ∈ s₃.moveKeys := find_isSome.mp (by rw [hset]; rfl)
  have hleave : s₃.Leaves cbHashfunc (lit "k") := by
    refine ⟨(Cache.hasKey_iff _ _).mpr hmem, _, hown₃ _, fun heq => ?_⟩
    have hlocal : lit "10.0.0.2:6001" = lit "0.0.0.0:6000" := heq.trans localAddr_startListen
    exact absurd hlocal (by decide)
  have hcan : s₃.CanMove cbHashfunc := by
    constructor
    · intro key _ _
      rw [hown₃ key]
      rfl
    · intro key hk _
      have hkeys : s₃.moveKeys = [lit "k"] := rfl
      rw [hkeys, List.mem_singleton] at hk
      subst hk
      decide
  obtain ⟨calls, s₄, hs₄, -, -⟩ := exists_move hnet hcan
  obtain ⟨c₅, hs₅, hr₅⟩ := s₄.updateHash_eq cbHashfunc
    (List.nodup_singleton (lit "0.0.0.0:6000")) (by decide)
  refine ⟨c₁, c₃, calls, s₄, hs₁, hown₁, hs₃, hs₄, isDirty_of_leaves hnet hs₄ hmem hleave, c₅, hs₅,
    ?_⟩
  rw [Owns, owner_of_single hr₅, (move_frame hs₄).2]
  exact congrArg some localAddr_startListen.symm

/-- The server owns a key and answers what is written to it; later it has handed the key over, and an
address list that gives it back makes it refuse every value of a key. -/
theorem owner_accepts_writes_of_handOver : ∃ s₂ s₄ rs,
    Lib.run (CacheServer.step fun _ => 0) (CacheServer.new.startListen 6000)
      [.updateHash [lit "0.0.0.0:6000"], .setValue (lit "k") (lit "v")] =
        some ([(0, none), (0, none)], s₂) ∧
    Lib.run (CacheServer.step fun _ => 0) s₂
      [.updateHash [lit "10.0.0.2:6001"], .move reliableNet] = some (rs, s₄) ∧
    s₂.Owns (fun _ => 0) (lit "k") ∧ s₄.lru.isDirty (lit "k") = true ∧
    (∀ value, s₂.AcceptsWrite (lit "k") value ↔ Replyable value) ∧
    ∃ s₅, s₄.updateHash (fun _ => 0) [lit "0.0.0.0:6000"] = some s₅ ∧
      ∃ key, s₅.Owns (fun _ => 0) key ∧ ∀ value, ¬ s₅.AcceptsWrite key value := by
  obtain ⟨c₁, c₃, calls, s₄, hs₁, hown₁, hs₃, hs₄, hdirty, c₅, hs₅, hown₅⟩ :=
    exists_handOver fun _ => 0
  have hreach₂ : Reaches (CacheServer.step fun _ => 0) (StaysAway fun _ => 0)
      (CacheServer.new.startListen 6000) (written c₁) := by
    refine .tail (.single ⟨.updateHash [lit "0.0.0.0:6000"], (0, none), fun s' hs' => ?_, ?_⟩)
      ⟨.setValue (lit "k") (lit "v"), (0, none), trivial, rfl⟩
    · obtain rfl := Option.some.inj (hs₁.symm.trans hs')
      exact fun key _ => by
        rw [Cache.isDirty_eq]
        rfl
    · rw [CacheServer.step, hs₁]
      rfl
  have hreach₃ : Reaches (CacheServer.step fun _ => 0) (StaysAway fun _ => 0)
      (CacheServer.new.startListen 6000) { written c₁ with cacheServerHash := c₃ } := by
    refine .tail hreach₂ ⟨.updateHash [lit "10.0.0.2:6001"], (0, none), fun s' hs' => ?_, ?_⟩
    · obtain rfl := Option.some.inj (hs₃.symm.trans hs')
      exact fun key _ => isDirty_written c₁ key
    · rw [CacheServer.step, hs₃]
      rfl
  have hreach₄ : Reaches (CacheServer.step fun _ => 0) (StaysAway fun _ => 0)
      (CacheServer.new.startListen 6000) s₄ := by
    refine .tail hreach₃ ⟨.move reliableNet, (0, none), trivial, ?_⟩
    rw [CacheServer.step, hs₄]
    rfl
  have hback : ¬ s₄.StaysAway (fun _ => 0) (.updateHash [lit "0.0.0.0:6000"]) := fun h => by
    have hclean := h _ hs₅ _ hown₅
    rw [hdirty] at hclean
    cases hclean
  refine ⟨written c₁, s₄, [(0, none), (0, none)], ?_, ?_, hown₁, hdirty,
    (owner_accepts_writes_of_run _ 6000 hreach₂).1 _ hown₁, _, hs₅,
    (owner_accepts_writes_of_run _ 6000 hreach₄).2 _ _ hs₅ hback⟩
  · rw [run_cons (by rw [CacheServer.step, hs₁]; rfl), run_cons rfl]
    rfl
  · rw [run_cons (by rw [CacheServer.step, hs₃]; rfl), run_cons (by rw [CacheServer.step, hs₄]; rfl)]
    rfl

/-- The key goes to another server and comes back: the server owns it and refuses the write. -/
theorem not_acceptsWrite_returned : ¬ ∃ cbHashfunc : Str → ℤ, ∀ rs s,
    Lib.run (CacheServer.step cbHashfunc) (CacheServer.new.startListen 6000)
      [.updateHash [lit "0.0.0.0:6000"], .setValue (lit "k") (lit "v"),
        .updateHash [lit "10.0.0.2:6001"], .move fun _ => ⟨7, ⟨0, 0, .any⟩, true, true⟩,
        .updateHash [lit "0.0.0.0:6000"]] = some (rs, s) →
      s.Owns cbHashfunc (lit "k") → s.AcceptsWrite (lit "k") (lit "w") := by
  rintro ⟨cbHashfunc, h⟩
  obtain ⟨c₁, c₃, calls, s₄, hs₁, -, hs₃, hs₄, hdirty, c₅, hs₅, hown₅⟩ := exists_handOver cbHashfunc
  have hset : { CacheServer.new.startListen 6000 with cacheServerHash := c₁ }.step cbHashfunc
      (.setValue (lit "k") (lit "v")) = some ((0, none), written c₁) := rfl
  have hrun : Lib.run (CacheServer.step cbHashfunc) (CacheServer.new.startListen 6000)
      [.updateHash [lit "0.0.0.0:6000"], .setValue (lit "k") (lit "v"),
        .updateHash [lit "10.0.0.2:6001"], .move reliableNet, .updateHash [lit "0.0.0.0:6000"]] =
      some (List.replicate 5 (0, none), { s₄ with cacheServerHash := c₅ }) := by
    rw [run_cons (by rw [CacheServer.step, hs₁]; rfl), run_cons hset,
      run_cons (by rw [CacheServer.step, hs₃]; rfl), run_cons (by rw [CacheServer.step, hs₄]; rfl),
      run_cons (by rw [CacheServer.step, hs₅]; rfl)]
    rfl
  have hclean := ((acceptsWrite_iff _).mp (h _ _ hrun hown₅)).1
  rw [hdirty] at hclean
  cases hclean

end Runs
end DCache.CacheServer
