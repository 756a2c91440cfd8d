import DCache.Cache.Locks

/-! `ThreadSafeLRUCache::get` is called for keys that the table had a moment ago. The entry is still
there as long as no write evicts a key that a thread is about to read. -/
namespace DCache.CacheThreads
open DCache.Lib

/-- The result of the step tells that the table has the key. -/
def Checks (t : Table) (key : Str) : (op : Op) → op.Res → Prop
  | .hasKey t' key', present => t' = t ∧ key' = key ∧ present = true
  | .lruKeysOneshot t', keys => t' = t ∧ key ∈ (show List Str from keys)
  | _, _ => False

/-- The thread may read the key without another check. -/
def Expects (t : Table) (key : Str) (c : Prog) : Prop :=
  c.May (fun op => op = .get t key) (Checks t key)

section Codes
variable {t t' : Table} {key key' : Str}

theorem not_expects_reply (cfd : ℤ) (msg : Str) (sent : Bool) : ¬ Expects t key (reply cfd msg sent) :=
  Code.not_may_call (by simp) fun _ _ => Code.not_may_done

theorem not_expects_setIn (value : Str) : ¬ Expects t key (setIn t' key' value) :=
  only_setIn.not_may fun op hop => by cases hop <;> simp

theorem not_expects_getFrom (cfd : ℤ) (sent : Bool) : ¬ Expects t key (getFrom t' key' cfd sent) := by
  have hread : ¬ Expects t key (readFrom t' key' cfd sent) := by
    refine Code.not_may_call (by simp) fun (present : Bool) hcheck => ?_
    cases present with
    | false => exact not_expects_reply _ _ _
    | true =>
      refine Code.not_may_call ?_ fun _ _ => not_expects_reply _ _ _
      rintro h
      obtain ⟨rfl, rfl⟩ : t' = t ∧ key' = key := by simpa using h
      exact hcheck ⟨rfl, rfl, rfl⟩
  refine Code.not_may_call (by simp) fun (present : Bool) _ => ?_
  cases present with
  | false => exact hread
  | true =>
    refine Code.not_may_call (by simp) fun (dirty : Bool) _ => ?_
    cases dirty with
    | false => exact hread
    | true => exact not_expects_reply _ _ _

theorem not_expects_handle (request : CacheServer.Request) (sent : Bool) :
    ¬ Expects t key (handle request sent) := by
  unfold handle
  split_ifs
  · exact not_expects_setIn _
  · exact not_expects_getFrom _ _
  · exact not_expects_setIn _
  · exact not_expects_getFrom _ _
  · exact Code.not_may_call (by simp) fun _ _ => Code.not_may_done

/-- The loop of `update` reads its keys without a check. -/
theorem mem_of_expects_updateLoop {cfd : ℤ} {sent : ℕ → Bool} {keys : List Str} {n : ℕ}
    (h : Expects t key (updateLoop cfd sent n keys)) : t = .lru ∧ key ∈ keys := by
  induction keys generalizing n with
  | nil => exact absurd h Code.not_may_done
  | cons key' keys ih =>
    rcases h with h | ⟨value, -, h | ⟨_, -, h⟩⟩
    · obtain ⟨rfl, rfl⟩ : Table.lru = t ∧ key' = key := by simpa using h
      exact ⟨rfl, List.mem_cons_self⟩
    · cases h
    · obtain ⟨ht, hk⟩ := ih h
      exact ⟨ht, List.mem_cons_of_mem _ hk⟩

theorem not_expects_update (net : CacheServer.Net) (sent : ℕ → Bool) (ipPort : Str) :
    ¬ Expects t key (update net sent ipPort) := by
  refine Code.not_may_call (by simp) fun _ _ => Code.not_may_call (by simp) fun _ _ => ?_
  split_ifs
  · refine Code.not_may_call (by simp) fun _ _ =>
      Code.not_may_call (by simp) fun (keys : List Str) hcheck => ?_
    intro h
    obtain ⟨rfl, hk⟩ := mem_of_expects_updateLoop h
    exact hcheck ⟨rfl, hk⟩
  · exact Code.not_may_done

theorem not_expects_endMove : ¬ Expects t key endMove :=
  only_endMove.not_may fun op hop => by cases hop <;> simp

theorem not_expects_handOff {more : Prog} (hmore : ¬ Expects t key more) (net : CacheServer.Net)
    (newAddr : Str) : ¬ Expects t key (handOff net key' newAddr more) := by
  have hsend : ¬ Expects t key (sendKey net key' more) := by
    refine Code.not_may_call (by simp) fun _ _ => ?_
    split_ifs
    · exact Code.not_may_call (by simp) fun _ _ => hmore
    · exact not_expects_endMove
  unfold handOff
  split_ifs
  · exact Code.not_may_call (by simp) fun _ _ => Code.not_may_call (by simp) fun _ _ => hsend
  · exact Code.not_may_call (by simp) fun _ _ => Code.not_may_call (by simp) fun _ _ =>
      not_expects_endMove
  · exact hsend

theorem not_expects_moveLoop (localAddr : Str) (net : ℕ → CacheServer.Net) (keys : List Str) (n : ℕ) :
    ¬ Expects t key (moveLoop localAddr net n keys) := by
  induction keys generalizing n with
  | nil => exact not_expects_endMove
  | cons key' keys ih =>
    refine Code.not_may_call (by simp) fun _ _ =>
      Code.not_may_call (by simp) fun (present : Bool) hcheck => ?_
    cases present with
    | false => exact ih (n + 1)
    | true =>
      refine Code.not_may_call ?_ fun _ _ => Code.not_may_call (by simp) fun (newAddr : Str) _ => ?_
      · rintro h
        obtain ⟨rfl, rfl⟩ : Table.lru = t ∧ key' = key := by simpa using h
        exact hcheck ⟨rfl, rfl, rfl⟩
      · by_cases hl : newAddr = localAddr
        · simp only [hl, ne_eq, not_true_eq_false, if_false]
          exact ih (n + 1)
        · simp only [ne_eq, hl, not_false_eq_true, if_true]
          exact not_expects_handOff (ih (n + 1)) _ _

theorem not_expects_move (localAddr : Str) (net : ℕ → CacheServer.Net) :
    ¬ Expects t key (move localAddr net) :=
  Code.not_may_call (by simp) fun (_ : ℤ) _ => Code.not_may_call (by simp) fun (_ : List Str) _ =>
    Code.not_may_call (by simp) fun _ _ => not_expects_moveLoop _ _ _ _

theorem not_expects_of_starts {e : Event} {s s' : CacheServer} {i : ℕ} {c : Prog}
    (h : starts s e = some (i, c, s')) : ¬ Expects t key c := by
  rcases starts_cases h with ⟨request, rest, sent, -, -, rfl, -⟩ | ⟨net, -, rfl, -⟩ |
    ⟨net, -, rfl, -⟩ | ⟨net, sent, ipPort, -, rfl, -⟩
  · exact not_expects_handle request sent
  · exact not_expects_move _ net
  · exact not_expects_move _ net
  · exact not_expects_update net sent ipPort

end Codes

section Runs
variable {cbHashfunc : Str → ℤ} {s : CacheServer} {es : List Event} {obs : List Obs} {p p' : System}

/-- A write does not evict a key that some thread is about to read without another check. -/
def SparesExpected (p : System) : Event → Prop
  | .step i => ∀ t key value next, p.code i = .call (.set t key value) next →
    ∀ key', (table p.mem.server t).hasKey key' = true →
      ((table p.mem.server t).set key value).hasKey key' = false → ∀ j, ¬ Expects t key' (p.code j)
  | _ => True

/-- What a thread may read without another check is there. -/
def Present (p : System) : Prop :=
  ∀ i t key, Expects t key (p.code i) → (table p.mem.server t).hasKey key = true

theorem hasKey_iff_find {c : LRU.Cache Str Str} {key : Str} :
    c.hasKey key = true ↔ (LRU.find c.entries key).isSome = true := by
  rw [c.hasKey_iff, LRU.find_isSome]

/-- A step that evicts no such key keeps what is there. -/
theorem hasKey_of_perform {i : ℕ} {op : Op} {r : op.Res} {m m' : Shared} {t : Table} {key : Str}
    (h : perform cbHashfunc i op m = .ok r m')
    (hset : ∀ key' value, op = .set t key' value → ((table m.server t).set key' value).hasKey key = true)
    (hkey : (table m.server t).hasKey key = true) : (table m'.server t).hasKey key = true := by
  rw [hasKey_iff_find] at hkey ⊢
  rcases find_of_perform h t key with hf | ⟨value, -, hf⟩ | ⟨key', value, rfl, -, hf⟩ | ⟨-, hf⟩
  · rw [hf]
    exact hkey
  · rw [hf]
    rfl
  · have hkept := hset key' value rfl
    obtain ⟨-, rfl⟩ := Outcome.of_ok h
    change (LRU.find (table (withTable m.server t _) t).entries key) = none at hf
    rw [table_withTable, if_pos rfl] at hf
    rw [hasKey_iff_find, hf] at hkept
    cases hkept
  · rw [hf, Option.isSome_map]
    exact hkey

/-- After a check the key is there. -/
theorem hasKey_of_checks {i : ℕ} {op : Op} {r : op.Res} {m m' : Shared} {t : Table} {key : Str}
    (h : perform cbHashfunc i op m = .ok r m') (hcheck : Checks t key op r) :
    (table m.server t).hasKey key = true ∧ m' = m := by
  cases op with
  | hasKey t' key' =>
    obtain ⟨rfl, rfl, hpresent⟩ := hcheck
    obtain ⟨rfl, rfl⟩ := Outcome.of_ok h
    exact ⟨hpresent, rfl⟩
  | lruKeysOneshot t' =>
    obtain ⟨rfl, hk⟩ := hcheck
    obtain ⟨rfl, rfl⟩ := Outcome.of_ok h
    refine ⟨?_, rfl⟩
    rw [LRU.Cache.hasKey_iff, ← LRU.Cache.lruKeysOneshot_eq]
    exact hk
  | _ => exact absurd hcheck id

theorem Present.step {e : Event} {o : Obs} (hp : Present p) (he : SparesExpected p e)
    (h : CacheThreads.step cbHashfunc p e = some (o, p')) : Present p' := by
  cases step_cases h with
  | idle => exact hp
  | appended request hroom =>
    intro i t key hexp
    have hkey := hp i t key hexp
    cases t <;> exact hkey
  | @started _ i c server hs hdone =>
    intro j t key hexp
    rw [table_of_starts hs]
    by_cases hj : j = i
    · subst hj
      simp only [Function.update_self] at hexp
      exact absurd hexp (not_expects_of_starts hs)
    · simp only [Function.update_of_ne hj] at hexp
      exact hp j t key hexp
  | @acted i op next r m hcode hop =>
    -- what is there before the step is still there after it
    have hkeep : ∀ j t key, Expects t key (p.code j) → (table m.server t).hasKey key = true := by
      intro j t key hexp
      refine hasKey_of_perform hop ?_ (hp j t key hexp)
      rintro key' value rfl
      by_contra hlost
      exact he t key' value next hcode key (hp j t key hexp) (Bool.eq_false_iff.mpr hlost) j hexp
    intro j t key hexp
    by_cases hj : j = i
    · subst hj
      simp only [Function.update_self] at hexp
      by_cases hcheck : Checks t key op r
      · obtain ⟨hkey, rfl⟩ := hasKey_of_checks hop hcheck
        exact hkey
      · apply hkeep j t key
        rw [hcode]
        exact Code.May.of_next hexp hcheck
    · simp only [Function.update_of_ne hj] at hexp
      exact hkeep j t key hexp

/-- As long as no write evicts a key that some thread is about to read without another check, `get`
is called for keys only that the table has. -/
theorem present_of_run (ha : Allowed (CacheThreads.step cbHashfunc) SparesExpected (idle s) es)
    (h : Lib.run (CacheThreads.step cbHashfunc) (idle s) es = some (obs, p)) :
    ∀ i t key next, p.code i = .call (.get t key) next →
      (table p.mem.server t).hasKey key = true := by
  have hidle : Present (idle s) := fun i t key hexp => absurd hexp Code.not_may_done
  have hp : Present p := run_kept (fun _ _ _ _ hp he hstep => hp.step he hstep) hidle ha h
  intro i t key next hcode
  apply hp i t key
  rw [hcode]
  exact Or.inl rfl

end Runs

section Eviction

/-- A server whose table has room for one entry, and holds `a`. -/
def oneEntry : CacheServer :=
  { CacheServer.new with lru := (LRU.Cache.new 1 (by decide)).set (lit "a") [] }

def getA : CacheServer.Request := ⟨Code.getValue, [], lit "a", [], 5⟩

def setB : CacheServer.Request := ⟨Code.setValue, [], lit "b", [], 5⟩

/-- The worker 1 has asked three times about `a`, and reads it next. -/
def beforeGet : List Event := [.append getA, .dequeue 1 true, .step 1, .step 1, .step 1]

def setA : CacheServer.Request := ⟨Code.setValue, [], lit "a", lit "v", 5⟩

/-- While nobody reads, `b` takes the place of `a`, and `a` that of `b`; then the worker 2 writes `a`
again where the worker 1 has asked three times about it and reads it next. -/
def writesAndRead : List Event :=
  .append setB :: .dequeue 2 true :: List.replicate 4 (.step 2) ++
    .append setA :: .dequeue 2 true :: List.replicate 4 (.step 2) ++
    beforeGet ++ .append setA :: .dequeue 2 true :: List.replicate 4 (.step 2)

set_option maxRecDepth 4000 in
theorem present_of_writesAndRead : ∃ obs p next,
    Allowed (step fun _ => 0) SparesExpected (idle oneEntry) writesAndRead ∧
    run (step fun _ => 0) (idle oneEntry) writesAndRead = some (obs, p) ∧
    p.code 1 = .call (.get .lru (lit "a")) next ∧ p.mem.server.lru.hasKey (lit "a") = true := by
  have hother : ∀ (p : System) i op next, p.code i = .call op next →
      (∀ t key value, op ≠ .set t key value) → SparesExpected p (.step i) := by
    intro p i op next hp hop t key value next' hcode
    rw [hp] at hcode
    cases hcode
    exact absurd rfl (hop t key value)
  have halone : ∀ (p : System) i t key value, p.code i = .call (.set t key value) (fun _ => leave t) →
      (∀ j ≠ i, p.code j = .done) → SparesExpected p (.step i) := by
    intro p i t key value hp hdone t' key' value' next hcode k _ _ j
    by_cases hj : j = i
    · rw [hj, hp]
      exact Code.not_may_call (by simp) fun _ _ => Code.not_may_call (by simp) fun _ _ =>
        Code.not_may_done
    · rw [hdone j hj]
      exact Code.not_may_done
  -- a write of the only key evicts nothing
  have hsame : ∀ (p : System) i key value next, p.code i = .call (.set .lru key value) next →
      LRU.keysOf p.mem.server.lru.entries = [key] → SparesExpected p (.step i) := by
    intro p i key value next hp hkeys t key' value' next' hcode k hkey hgone
    rw [hp] at hcode
    cases hcode
    have hmem : k ∈ LRU.keysOf p.mem.server.lru.entries := (LRU.Cache.hasKey_iff _ _).mp hkey
    rw [hkeys, List.mem_singleton] at hmem
    subst hmem
    have hset : (p.mem.server.lru.set k value).hasKey k = true := by
      rw [hasKey_iff_find, LRU.Cache.find_set_self]
      rfl
    exact absurd (hset.symm.trans hgone) (by decide)
  have ha : Allowed (step fun _ => 0) SparesExpected (idle oneEntry) writesAndRead := by
    refine ⟨trivial, trivial, hother _ _ _ _ rfl ?_, hother _ _ _ _ rfl ?_,
      halone _ _ _ _ _ rfl fun j hj => ?_, hother _ _ _ _ rfl ?_, trivial, trivial,
      hother _ _ _ _ rfl ?_, hother _ _ _ _ rfl ?_, halone _ _ _ _ _ rfl fun j hj => ?_,
      hother _ _ _ _ rfl ?_, trivial, trivial, hother _ _ _ _ rfl ?_, hother _ _ _ _ rfl ?_,
      hother _ _ _ _ rfl ?_, trivial, trivial, hother _ _ _ _ rfl ?_, hother _ _ _ _ rfl ?_,
      hother _ _ _ _ rfl ?_, hsame _ _ _ _ _ rfl rfl, trivial⟩
    case refine_3 | refine_7 =>
      match j with
      | 0 | 1 => rfl
      | 2 => exact absurd rfl hj
      | n + 3 => rfl
    all_goals rintro _ _ _ ⟨⟩
  obtain ⟨obs, p, next, hrun, hcode⟩ : ∃ obs p next,
      run (step fun _ => 0) (idle oneEntry) writesAndRead = some (obs, p) ∧
      p.code 1 = .call (.get .lru (lit "a")) next := ⟨_, _, _, rfl, rfl⟩
  exact ⟨obs, p, next, ha, hrun, hcode, present_of_run ha hrun 1 .lru _ next hcode⟩

/-- Before the worker 1 reads `a`, the worker 2 writes `b`. -/
theorem not_present_evicted : ∃ obs p next,
    run (step fun _ => 0) (idle oneEntry)
      (beforeGet ++ [.append setB, .dequeue 2 true, .step 2, .step 2, .step 2]) = some (obs, p) ∧
    p.code 1 = .call (.get .lru (lit "a")) next ∧ p.mem.server.lru.hasKey (lit "a") = false :=
  ⟨_, _, _, rfl, rfl, rfl⟩

end Eviction
end DCache.CacheThreads
