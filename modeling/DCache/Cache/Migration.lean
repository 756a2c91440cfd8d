import DCache.Cache.HandOver
import DCache.Cache.Membership
import DCache.Cache.Requests

/-! What `move` does to the data: which keys and values reach the servers that own them, when the
tables are extended (`state` 0) and when a backup is recovered (`state` 1). -/
namespace DCache.CacheServer
open DCache.Lib DCache.LRU

section Messages

theorem moveMsg_eq (key : Str) : moveMsg key = Code.setValue ++ newline :: cstr key := by
  rw [moveMsg, List.append_assoc, cstr_append_of_notMem _ (by decide),
    cstr_append_of_notMem _ (by decide)]
  rfl

/-- The message adds exactly the request to write `value` to `key`. -/
def Carries (msg key value : Str) : Prop :=
  ∀ (s : CacheServer) (cfd : ℤ) (stale : Str), s.workqueue.length < maxRequests →
    ∃ ret s' addr, s.dealwithClientMsg cfd (.data msg) stale = some (ret, s') ∧
      s'.workqueue = s.workqueue ++ [⟨Code.setValue, addr, key, value, cfd⟩]

/-- The message adds one request, which `setValue` executes on any table in which `key` is not
dirty so that `key` has the value `value` afterwards. -/
def Delivers (msg key value : Str) : Prop :=
  ∀ (s : CacheServer) (cfd : ℤ) (stale : Str), s.workqueue.length < maxRequests →
    ∃ ret s' request, s.dealwithClientMsg cfd (.data msg) stale = some (ret, s') ∧
      s'.workqueue = s.workqueue ++ [request] ∧ request.requestType = Code.setValue ∧
      ∀ b : CacheServer, b.lru.isDirty key = false →
        (find (b.setValue request.key request.value).2.lru.entries key).map Entry.val = some value

/-- The key that a receiver reads from the message of a move. -/
private theorem read_moveMsg (key : Str) (s : CacheServer) (cfd : ℤ) (stale : Str)
    (hq : s.workqueue.length < maxRequests) : ∃ s' addr,
      s.dealwithClientMsg cfd (.data (moveMsg key)) stale = some (0, s') ∧
      s'.workqueue = s.workqueue ++ [⟨Code.setValue, addr, wireName key, [], cfd⟩] := by
  rw [moveMsg_eq, s.dealwithClientMsg_line cfd stale (by decide) (by decide) hq]
  exact ⟨_, _, rfl, rfl⟩

theorem carries_moveMsg {key value : Str} :
    Carries (moveMsg key) key value ↔ IsText key ∧ value = [] := by
  constructor
  · intro h
    obtain ⟨ret, s', addr, hs, hw⟩ := h .new 0 [] (by decide)
    obtain ⟨s'', addr', hs', hw'⟩ := read_moveMsg key .new 0 [] (by decide)
    obtain ⟨-, rfl⟩ := Prod.mk.inj (Option.some.inj (hs.symm.trans hs'))
    have hlast := List.append_cancel_left (hw.symm.trans hw')
    simp only [List.cons.injEq, Request.mk.injEq] at hlast
    exact ⟨wireName_eq_self.mp hlast.1.2.2.1.symm, hlast.1.2.2.2.1⟩
  · rintro ⟨hk, rfl⟩ s cfd stale hq
    obtain ⟨s', addr, hs, hw⟩ := read_moveMsg key s cfd stale hq
    exact ⟨0, s', addr, hs, by rw [hw, wireName_eq_self.mpr hk]⟩

theorem find_setValue_self (b : CacheServer) {key : Str} (h : b.lru.isDirty key = false)
    (value : Str) : find (b.setValue key value).2.lru.entries key = some ⟨key, value, false⟩ := by
  simp only [setValue, store, h, Bool.and_false, Bool.false_eq_true, if_false]
  exact b.lru.find_set_self key value

theorem delivers_moveMsg {key value : Str} :
    Delivers (moveMsg key) key value ↔ IsText key ∧ value = [] := by
  constructor
  · intro h
    obtain ⟨ret, s', request, hs, hw, -, hset⟩ := h .new 0 [] (by decide)
    obtain ⟨s'', addr, hs', hw'⟩ := read_moveMsg key .new 0 [] (by decide)
    obtain ⟨-, rfl⟩ := Prod.mk.inj (Option.some.inj (hs.symm.trans hs'))
    obtain rfl := List.singleton_inj.mp (List.append_cancel_left (hw.symm.trans hw'))
    -- a receiver without any keys
    have hclean : ∀ k, CacheServer.new.lru.isDirty k = false := fun k => by
      rw [Cache.isDirty_eq]
      rfl
    have hval := hset .new (hclean key)
    by_cases hk : wireName key = key
    · refine ⟨wireName_eq_self.mp hk, ?_⟩
      rw [hk, find_setValue_self _ (hclean key)] at hval
      exact (Option.some.inj hval).symm
    · have hnone : find (CacheServer.new.setValue (wireName key)
          []).2.lru.entries key = none := by
        simp only [setValue, store, hclean, Bool.and_false, Bool.false_eq_true, if_false]
        rcases Cache.find_set_of_ne CacheServer.new.lru [] (Ne.symm hk) with h | h
        · exact h
        · exact h
      rw [hnone] at hval
      cases hval
  · rintro ⟨hk, rfl⟩ s cfd stale hq
    obtain ⟨s', addr, hs, hw⟩ := read_moveMsg key s cfd stale hq
    refine ⟨0, s', _, hs, hw, rfl, fun b hb => ?_⟩
    rw [wireName_eq_self.mpr hk, find_setValue_self b hb]
    rfl

end Messages

section Moves
variable (cbHashfunc : Str → ℤ)

/-- The keys of the table that the ring gives to another server. -/
def Leaves (s : CacheServer) : Str → Prop :=
  Foreign s.lru.hasKey (s.cacheServerHash.conhashGetCacheServer cbHashfunc) s.localAddr

/-- Every message fits the array that it is written to. -/
def TextsFit (calls : List (Str × SysCall)) : Prop :=
  ∀ key cfd buf ok, (key, .send cfd buf ok) ∈ calls → Fits buf

/-- The message is sent for `key` on a connection to `addr`. -/
def SentTo (calls : List (Str × SysCall)) (key addr buf : Str) : Prop :=
  ∃ cfd res, [(key, .connect cfd (str2sockAddr res addr) true),
    (key, .send cfd buf true)].Sublist calls

/-- A move that runs to its end: it meets no released node, and no array overflows. -/
structure CanMove (s : CacheServer) : Prop where
  owners : ∀ key ∈ s.moveKeys, s.lru.hasKey key = true →
    (s.cacheServerHash.conhashGetCacheServer cbHashfunc key).isSome = true
  texts : ∀ key ∈ s.moveKeys, s.Leaves cbHashfunc key → Fits (moveMsg key)

variable {cbHashfunc} {s s' : CacheServer} {net : ℕ → Net} {calls : List (Str × SysCall)}
  {key addr : Str}

/-- A message of a move is that of a key which leaves. -/
theorem of_send (h : s.move cbHashfunc net = some (calls, s')) {cfd : ℤ} {buf : Str} {ok : Bool}
    (hc : (key, .send cfd buf ok) ∈ calls) :
    key ∈ s.moveKeys ∧ s.Leaves cbHashfunc key ∧ buf = moveMsg key := by
  rcases s.move_eq cbHashfunc net with ⟨-, hm⟩ | ⟨calls', marks, s'', ht, hm, -⟩
  · rw [hm] at h
    cases h
  obtain ⟨rfl, rfl⟩ := Prod.mk.inj (Option.some.inj (hm.symm.trans h))
  obtain ⟨hmem, ⟨fd, hsock⟩ | ⟨hk, newAddr, ho, hl, j, hj⟩⟩ := (of_handOver ht).1 _ hc
  · cases hsock
  · refine ⟨hmem, ⟨hk, newAddr, ho, hl⟩, ?_⟩
    unfold handOff at hj
    split_ifs at hj <;> simp at hj
    all_goals exact hj.2.1

/-- A connection of a move is made to the address of the owner. -/
theorem of_connect (h : s.move cbHashfunc net = some (calls, s')) {cfd : ℤ} {sa : SockAddrIn}
    {ok : Bool} (hc : (key, .connect cfd sa ok) ∈ calls) :
    ∃ newAddr, newAddr ≠ [] ∧ newAddr ≠ s.localAddr ∧
      s.cacheServerHash.conhashGetCacheServer cbHashfunc key = some newAddr := by
  rcases s.move_eq cbHashfunc net with ⟨-, hm⟩ | ⟨calls', marks, s'', ht, hm, -⟩
  · rw [hm] at h
    cases h
  obtain ⟨rfl, rfl⟩ := Prod.mk.inj (Option.some.inj (hm.symm.trans h))
  obtain ⟨-, ⟨fd, hsock⟩ | ⟨-, newAddr, ho, hl, j, hj⟩⟩ := (of_handOver ht).1 _ hc
  · cases hsock
  · refine ⟨newAddr, fun hnil => ?_, hl, ho⟩
    simp [handOff, hnil] at hj

/-- A key that is not to leave keeps its entry. -/
theorem find_of_move (h : s.move cbHashfunc net = some (calls, s'))
    (hk : ¬ s.Leaves cbHashfunc key) : find s'.lru.entries key = find s.lru.entries key := by
  rcases s.move_eq cbHashfunc net with ⟨-, hm⟩ | ⟨calls', marks, s'', ht, hm, hl, -⟩
  · rw [hm] at h
    cases h
  obtain ⟨rfl, rfl⟩ := Prod.mk.inj (Option.some.inj (hm.symm.trans h))
  have hmark : key ∉ marks := fun hmem => hk ((of_handOver ht).2 hmem).2
  rw [hl key]
  simp [hmark]

theorem move_frame (h : s.move cbHashfunc net = some (calls, s')) :
    s'.cacheServerHash = s.cacheServerHash ∧ s'.localAddr = s.localAddr := by
  rcases s.move_eq cbHashfunc net with ⟨-, hm⟩ | ⟨calls', marks, s'', -, hm, -, hf⟩
  · rw [hm] at h
    cases h
  · obtain ⟨-, rfl⟩ := Prod.mk.inj (Option.some.inj (hm.symm.trans h))
    exact hf

variable (hnet : Reliable net)
include hnet

/-- Where all calls succeed, a move hands over every key that leaves. -/
theorem exists_move (h : s.CanMove cbHashfunc) : ∃ calls s',
    s.move cbHashfunc net = some (calls, s') ∧ TextsFit calls ∧
      ∀ key ∈ s.moveKeys, s.lru.hasKey key = true → ∀ addr ≠ s.localAddr,
        s.cacheServerHash.conhashGetCacheServer cbHashfunc key = some addr →
        (∃ cfd, (key, .send cfd (moveMsg key) true) ∈ calls) ∧
          (addr ≠ [] → SentTo calls key addr (moveMsg key)) := by
  rcases s.move_eq cbHashfunc net with ⟨ht, hm⟩ | ⟨calls, marks, s', ht, hm, -⟩
  · obtain ⟨_, _, ht', -⟩ := handOver_reliable s.localAddr hnet h.owners 0
    cases ht.symm.trans ht'
  · refine ⟨calls, s', hm, fun key cfd buf ok hc => ?_, fun key hmem hk addr hl ho => ?_⟩
    · obtain ⟨hmem, hleave, rfl⟩ := of_send hm hc
      exact h.texts key hmem hleave
    · obtain ⟨calls', marks', ht', -, hcalls⟩ :=
        handOver_reliable s.localAddr hnet h.owners 0
      obtain ⟨rfl, rfl⟩ := Prod.mk.inj (Option.some.inj (ht'.symm.trans ht))
      obtain ⟨j, hj⟩ := hcalls key hmem addr hk ho hl
      rw [handOff_ok (hnet j).1 (hnet j).2] at hj
      refine ⟨⟨(net j).cfd, hj.subset (by simp)⟩, fun hne => ⟨(net j).cfd, (net j).res, ?_⟩⟩
      rw [if_pos hne] at hj
      refine List.Sublist.trans ?_ hj
      exact ((List.Sublist.refl _).cons _).cons _

/-- Every key that leaves is dirty afterwards. -/
theorem isDirty_of_leaves (h : s.move cbHashfunc net = some (calls, s')) (hmem : key ∈ s.moveKeys)
    (hk : s.Leaves cbHashfunc key) : s'.lru.isDirty key = true := by
  rcases s.move_eq cbHashfunc net with ⟨-, hm⟩ | ⟨calls', marks, s'', ht, hm, hl, -⟩
  · rw [hm] at h
    cases h
  obtain ⟨rfl, rfl⟩ := Prod.mk.inj (Option.some.inj (hm.symm.trans h))
  obtain ⟨calls'', marks', ht', hmarks, -⟩ := handOver_reliable s.localAddr hnet
    (owner_of_handOver hnet (by rw [← moveTranscript, ht]; rfl)) 0
  obtain ⟨rfl, rfl⟩ := Prod.mk.inj (Option.some.inj (ht'.symm.trans ht))
  obtain ⟨e, he⟩ := Option.isSome_iff_exists.mp (find_isSome.mpr ((s.lru.hasKey_iff key).mp hk.1))
  rw [Cache.isDirty_eq, hl key, he, Option.map_some, if_pos (hmarks key hmem hk)]
  rfl

theorem canMove_of_move (h : s.move cbHashfunc net = some (calls, s')) (hfit : TextsFit calls) :
    s.CanMove cbHashfunc := by
  rcases s.move_eq cbHashfunc net with ⟨-, hm⟩ | ⟨calls', marks, s'', ht, hm, -⟩
  · rw [hm] at h
    cases h
  obtain ⟨rfl, rfl⟩ := Prod.mk.inj (Option.some.inj (hm.symm.trans h))
  have howners := owner_of_handOver hnet (by rw [← moveTranscript, ht]; rfl)
  refine ⟨howners, fun key hmem hkey => ?_⟩
  obtain ⟨hk, addr, ho, hl⟩ := hkey
  obtain ⟨calls'', marks', ht', -, hcalls⟩ :=
    handOver_reliable s.localAddr hnet howners 0
  obtain ⟨rfl, rfl⟩ := Prod.mk.inj (Option.some.inj (ht'.symm.trans ht))
  obtain ⟨j, hj⟩ := hcalls key hmem addr hk ho hl
  rw [handOff_ok (hnet j).1 (hnet j).2] at hj
  exact hfit key (net j).cfd _ true (hj.subset (by simp))

end Moves

section Expansion
variable (cbHashfunc : Str → ℤ)

/-- The move completes, and it sends a message for `key` that delivers `value`. -/
def HandsOver (s : CacheServer) (net : ℕ → Net) (key value : Str) : Prop :=
  ∃ calls s', s.move cbHashfunc net = some (calls, s') ∧ TextsFit calls ∧
    ∃ cfd msg, (key, .send cfd msg true) ∈ calls ∧ Delivers msg key value

variable {cbHashfunc} {net : ℕ → Net}

theorem HandsOver.value_eq_nil {s : CacheServer} {key value : Str}
    (h : HandsOver cbHashfunc s net key value) : IsText key ∧ value = [] := by
  obtain ⟨calls, s', hm, -, cfd, msg, hsend, hmsg⟩ := h
  obtain ⟨-, -, rfl⟩ := of_send hm hsend
  exact delivers_moveMsg.mp hmsg

/-- A clean pair whose key has a new owner gets there if and only if the value is empty, a message
can carry the key, and the move runs to its end. -/
theorem handsOver_iff (hnet : Reliable net) (s : CacheServer) (hstate : s.state = 0)
    {key value newAddr : Str} (hkey : find s.lru.entries key = some ⟨key, value, false⟩)
    (howner : s.cacheServerHash.conhashGetCacheServer cbHashfunc key = some newAddr)
    (hother : newAddr ≠ s.localAddr) :
    HandsOver cbHashfunc s net key value ↔
      value = [] ∧ IsText key ∧ s.CanMove cbHashfunc := by
  have hmem : key ∈ keysOf s.lru.entries := find_isSome.mp (by rw [hkey]; rfl)
  constructor
  · intro h
    obtain ⟨hk, hv⟩ := h.value_eq_nil
    obtain ⟨calls, s', hm, hfit, -⟩ := h
    exact ⟨hv, hk, canMove_of_move hnet hm hfit⟩
  · rintro ⟨hv, hk, hcan⟩
    obtain ⟨calls, s', hm, hfit, hsent⟩ := exists_move hnet hcan
    obtain ⟨⟨cfd, hsend⟩, -⟩ := hsent key (by rwa [moveKeys, if_pos hstate])
      ((s.lru.hasKey_iff key).mpr hmem) newAddr hother howner
    exact ⟨calls, s', hm, hfit, cfd, _, hsend, delivers_moveMsg.mpr ⟨hk, hv⟩⟩

/-- A server at `0.0.0.0:6000` that holds one pair. -/
def holding (c : Ring.ConHash) (key value : Str) : CacheServer :=
  { CacheServer.new with
    lru := CacheServer.new.lru.set key value
    localAddr := lit "0.0.0.0:6000"
    cacheServerHash := c }

/-- Calls that all succeed. -/
def reliableNet : ℕ → Net := fun _ => ⟨7, ⟨0, 0, .any⟩, true, true⟩

/-- The ring of one server at another address. -/
theorem exists_newServer (cbHashfunc : Str → ℤ) : ∃ c,
    Ring.ConHash.new.conhashAddCacheServer cbHashfunc (lit "10.0.0.2:6001") = some c ∧
      ∀ key, c.conhashGetCacheServer cbHashfunc key = some (lit "10.0.0.2:6001") :=
  exists_single cbHashfunc (by decide)

theorem handsOver_iff_empty : ∃ c,
    Ring.ConHash.new.conhashAddCacheServer (fun _ => 0) (lit "10.0.0.2:6001") = some c ∧
    (HandsOver (fun _ => 0) (holding c (lit "k") []) reliableNet (lit "k") [] ↔
      ([] : Str) = [] ∧ IsText (lit "k") ∧ (holding c (lit "k") []).CanMove fun _ => 0) := by
  obtain ⟨c, hc, howner⟩ := exists_newServer fun _ => 0
  exact ⟨c, hc, handsOver_iff (fun _ => ⟨rfl, rfl⟩) _ rfl (Cache.find_set_self _ _ _)
    (howner _) (by change lit "10.0.0.2:6001" ≠ lit "0.0.0.0:6000"; decide)⟩

/-- A pair with a value is not handed over, whatever the hash function is. -/
theorem not_handsOver_value : ¬ ∃ cbHashfunc : Str → ℤ, ∀ c,
    Ring.ConHash.new.conhashAddCacheServer cbHashfunc (lit "10.0.0.2:6001") = some c →
    find (holding c (lit "k") (lit "v")).lru.entries (lit "k") =
      some ⟨lit "k", lit "v", false⟩ →
    c.conhashGetCacheServer cbHashfunc (lit "k") = some (lit "10.0.0.2:6001") →
    HandsOver cbHashfunc (holding c (lit "k") (lit "v")) reliableNet (lit "k") (lit "v") := by
  rintro ⟨cbHashfunc, h⟩
  obtain ⟨c, hc, howner⟩ := exists_newServer cbHashfunc
  have hv := (h c hc (Cache.find_set_self _ _ _) (howner _)).value_eq_nil.2
  exact absurd hv (by decide)

end Expansion
end DCache.CacheServer
