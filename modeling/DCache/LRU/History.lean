import DCache.LRU.Simulation
import DCache.Lib.Recent

/-! The content of a cache read off the calls that were made on it. -/
namespace DCache.LRU
open DCache.Lib

variable {K V : Type}

/-- A `set` or a `get` touches its key. -/
def Call.touched : Call K V → Option K
  | .set k _ => some k
  | .get k => some k
  | _ => none

/-- The touched keys, oldest touch first. -/
def touches (calls : List (Call K V)) : List K := calls.filterMap Call.touched

@[simp] theorem touches_nil : touches ([] : List (Call K V)) = [] := rfl

@[simp] theorem touches_append (calls calls' : List (Call K V)) :
    touches (calls ++ calls') = touches calls ++ touches calls' := List.filterMap_append

theorem touches_singleton (call : Call K V) : touches [call] = call.touched.toList := by
  cases h : call.touched <;> simp [touches, h]

variable [DecidableEq K]

/-- The value that a call stores under `k`. -/
def Call.stored (k : K) : Call K V → Option V
  | .set k' v => if k' = k then some v else none
  | _ => none

/-- Whether a call is the `set_dirty` among the three calls that decide the flag of `k`. -/
def Call.flagged (k : K) : Call K V → Option Bool
  | .set k' _ => if k' = k then some false else none
  | .setDirty k' => if k' = k then some true else none
  | .setClean k' => if k' = k then some false else none
  | _ => none

/-- `k` has been touched, and fewer than `cap` distinct other keys after its last touch. -/
def Present (cap : ℕ) (calls : List (Call K V)) (k : K) : Prop :=
  k ∈ touches calls ∧ (afterLast k (touches calls)).dedup.length < cap

instance (cap : ℕ) (calls : List (Call K V)) : DecidablePred (Present cap calls) :=
  fun _ => inferInstanceAs (Decidable (_ ∧ _))

/-- The value of the last `set` of `k`. -/
def lastStored (calls : List (Call K V)) (k : K) : Option V :=
  calls.reverse.findSome? (Call.stored k)

/-- Whether the last of the flag-deciding calls of `k` was `set_dirty`. -/
def lastFlagged (calls : List (Call K V)) (k : K) : Option Bool :=
  calls.reverse.findSome? (Call.flagged k)

theorem present_iff {cap : ℕ} {calls : List (Call K V)} {k : K} :
    Present cap calls k ↔ k ∈ recent cap (touches calls) := mem_recent.symm

theorem lastStored_append (calls calls' : List (Call K V)) (k : K) :
    lastStored (calls ++ calls') k = (lastStored calls' k).or (lastStored calls k) := by
  simp [lastStored, List.findSome?_append]

theorem lastFlagged_append (calls calls' : List (Call K V)) (k : K) :
    lastFlagged (calls ++ calls') k = (lastFlagged calls' k).or (lastFlagged calls k) := by
  simp [lastFlagged, List.findSome?_append]

@[simp] theorem lastStored_singleton (call : Call K V) (k : K) :
    lastStored [call] k = call.stored k := by
  simp only [lastStored, List.reverse_singleton, List.findSome?_cons, List.findSome?_nil]
  cases call.stored k <;> rfl

@[simp] theorem lastFlagged_singleton (call : Call K V) (k : K) :
    lastFlagged [call] k = call.flagged k := by
  simp only [lastFlagged, List.reverse_singleton, List.findSome?_cons, List.findSome?_nil]
  cases call.flagged k <;> rfl

/-- What the abstract cache holds after `calls`. -/
structure Reflects (cap : ℕ) (calls : List (Call K V)) (r : Recency K V) : Prop where
  capacity : r.cap = cap
  order : r.keys = recent cap (touches calls)
  stored : ∀ e ∈ r.entries, lastStored calls e.key = some e.val
  flagged : ∀ e ∈ r.entries, lastFlagged calls e.key = some e.dirty

namespace Reflects
variable {cap : ℕ} {calls : List (Call K V)} {r : Recency K V}

theorem empty (hcap : 1 ≤ cap) : Reflects cap [] (Recency.empty cap hcap : Recency K V) :=
  ⟨rfl, (recent_nil cap).symm, nofun, nofun⟩

theorem present_iff (h : Reflects cap calls r) {k : K} : Present cap calls k ↔ k ∈ r.keys := by
  rw [LRU.present_iff, h.order]

/-- A call that leaves the entries alone and decides nothing about them. -/
theorem skip (h : Reflects cap calls r) {call : Call K V} (ht : call.touched = none)
    (hs : ∀ k, call.stored k = none) (hf : ∀ k, call.flagged k = none) :
    Reflects cap (calls ++ [call]) r := by
  refine ⟨h.capacity, ?_, fun e he => ?_, fun e he => ?_⟩
  · simp [touches_singleton, ht, h.order]
  · simp [lastStored_append, hs, h.stored e he]
  · simp [lastFlagged_append, hf, h.flagged e he]

theorem set (h : Reflects cap calls r) (k : K) (v : V) :
    Reflects cap (calls ++ [.set k v]) (r.set k v) := by
  have hcap : 1 ≤ cap := h.capacity ▸ r.pos
  have hne : ∀ e ∈ r.kept k, k ≠ e.key := by
    rintro e he rfl
    exact r.notMem_kept e.key (List.mem_map_of_mem he)
  refine ⟨h.capacity, ?_, fun e he => ?_, fun e he => ?_⟩
  · have hkept := r.keysOf_kept k
    rw [h.capacity] at hkept
    rw [touches_append, touches_singleton, Call.touched, Option.toList_some,
      recent_concat hcap, ← h.order, ← hkept]
    exact keysOf_append _ _
  · rcases List.mem_append.mp he with he | he
    · simp [lastStored_append, Call.stored, hne e he, h.stored e (r.kept_subset k he)]
    · obtain rfl := List.mem_singleton.mp he
      simp [lastStored_append, Call.stored]
  · rcases List.mem_append.mp he with he | he
    · simp [lastFlagged_append, Call.flagged, hne e he, h.flagged e (r.kept_subset k he)]
    · obtain rfl := List.mem_singleton.mp he
      simp [lastFlagged_append, Call.flagged]

theorem get (h : Reflects cap calls r) {k : K} {e : Entry K V} (hf : find r.entries k = some e) :
    Reflects cap (calls ++ [.get k]) (r.promote k) := by
  have hcap : 1 ≤ cap := h.capacity ▸ r.pos
  have hmem : ∀ e' ∈ (r.promote k).entries, e' ∈ r.entries := by
    intro e' he'
    rcases List.mem_append.mp he' with he' | he'
    · exact List.filter_sublist.subset he'
    · rw [hf, Option.toList_some, List.mem_singleton] at he'
      exact he' ▸ find_mem hf
  refine ⟨h.capacity, ?_, fun e' he' => ?_, fun e' he' => ?_⟩
  · have hk : k ∈ r.keys := find_isSome.mp (by simp [hf])
    rw [touches_append, touches_singleton, Call.touched, Option.toList_some,
      recent_concat hcap, ← h.order, if_pos hk]
    simp only [Recency.keys, Recency.promote, hf, Option.toList_some, keysOf_append,
      keysOf_without, keysOf_cons, keysOf_nil, find_key hf]
  · simp [lastStored_append, Call.stored, h.stored e' (hmem e' he')]
  · simp [lastFlagged_append, Call.flagged, h.flagged e' (hmem e' he')]

theorem writeDirty (h : Reflects cap calls r) {k : K} {b : Bool} {call : Call K V}
    (ht : call.touched = none) (hs : ∀ k', call.stored k' = none)
    (hf : ∀ k', call.flagged k' = if k = k' then some b else none) :
    Reflects cap (calls ++ [call]) (r.writeDirty k b) := by
  refine ⟨h.capacity, ?_, fun e he => ?_, fun e he => ?_⟩
  · rw [touches_append, touches_singleton, ht, Option.toList_none, List.append_nil, ← h.order]
    exact keysOf_mark _ _ _
  · obtain ⟨e', he', rfl⟩ := List.mem_map.mp he
    split_ifs with hk
    · simp [lastStored_append, hs, h.stored e' he']
    · simp [lastStored_append, hs, h.stored e' he']
  · obtain ⟨e', he', rfl⟩ := List.mem_map.mp he
    split_ifs with hk
    · simp [lastFlagged_append, hf, hk]
    · simp [lastFlagged_append, hf, Ne.symm hk, h.flagged e' he']

/-- One call extends the history. -/
theorem exec (h : Reflects cap calls r) {call : Call K V} {o : Result K V} {r' : Recency K V}
    (he : r.exec call = some (o, r')) : Reflects cap (calls ++ [call]) r' := by
  cases call with
  | set k v =>
    obtain ⟨-, rfl⟩ := by simpa [Recency.exec] using he
    exact h.set k v
  | get k =>
    simp only [Recency.exec, Recency.get, Option.map_map, Option.map_eq_some_iff] at he
    obtain ⟨e, hf, ho⟩ := he
    obtain ⟨-, rfl⟩ := Prod.mk.inj ho
    exact h.get hf
  | setDirty k =>
    obtain ⟨-, rfl⟩ := by simpa [Recency.exec] using he
    exact h.writeDirty rfl (fun _ => rfl) (fun _ => rfl)
  | setClean k =>
    obtain ⟨-, rfl⟩ := by simpa [Recency.exec] using he
    exact h.writeDirty rfl (fun _ => rfl) (fun _ => rfl)
  | isDirty k =>
    obtain ⟨-, rfl⟩ := by simpa [Recency.exec] using he
    exact h.skip rfl (fun _ => rfl) (fun _ => rfl)
  | hasKey k =>
    obtain ⟨-, rfl⟩ := by simpa [Recency.exec] using he
    exact h.skip rfl (fun _ => rfl) (fun _ => rfl)
  | lruKeysOneshot =>
    obtain ⟨-, rfl⟩ := by simpa [Recency.exec] using he
    exact h.skip rfl (fun _ => rfl) (fun _ => rfl)

theorem run (h : Reflects cap calls r) {calls' : List (Call K V)} {os : List (Result K V)}
    {r' : Recency K V} (hr : Lib.run Recency.exec r calls' = some (os, r')) :
    Reflects cap (calls ++ calls') r' := by
  induction calls' generalizing calls r os with
  | nil =>
    simp only [run_nil, Option.some.injEq, Prod.mk.injEq] at hr
    simpa [← hr.2] using h
  | cons call calls' ih =>
    cases he : r.exec call with
    | none => simp [Lib.run, he] at hr
    | some o =>
      rw [run_cons he, Option.map_eq_some_iff] at hr
      obtain ⟨⟨os', r₂⟩, hr', ho⟩ := hr
      obtain ⟨-, rfl⟩ := Prod.mk.inj ho
      simpa using ih (h.exec he) hr'

end Reflects

section Insertion
variable {cap : ℕ} {calls pre since : List (Call K V)} {k : K}

/-- `since` starts with the call that last inserted `k`: `k` was absent before it and has been
present ever since. -/
structure InsertedSince (cap : ℕ) (calls : List (Call K V)) (k : K)
    (pre since : List (Call K V)) : Prop where
  split : calls = pre ++ since
  absent : ¬ Present cap pre k
  inserts : ∃ v post, since = .set k v :: post
  stays : ∀ mid, mid <+: since → mid ≠ [] → Present cap (pre ++ mid) k

theorem not_present_nil (cap : ℕ) (k : K) : ¬ Present cap ([] : List (Call K V)) k := by
  simp [Present]

/-- Only a touch makes a key present. -/
theorem Present.of_concat {call : Call K V} (hcap : 1 ≤ cap)
    (h : Present cap (calls ++ [call]) k) : call.touched = some k ∨ Present cap calls k := by
  rw [present_iff] at h ⊢
  cases ht : call.touched with
  | none =>
    rw [touches_append, touches_singleton, ht, Option.toList_none, List.append_nil] at h
    exact Or.inr h
  | some k' =>
    rw [touches_append, touches_singleton, ht, Option.toList_some, recent_concat hcap,
      List.mem_append, List.mem_singleton] at h
    rcases h with h | rfl
    · right
      split_ifs at h
      · exact List.mem_of_mem_filter h
      · exact List.mem_of_mem_tail h
      · exact h
    · exact Or.inl rfl

/-- A present key has a last insertion, by induction on the history from its end: either the key
was present one call earlier, or the last call is the `set` that inserted it. -/
theorem exists_insertedSince (hcap : 1 ≤ cap)
    (hget : ∀ pre k post, calls = pre ++ .get k :: post → Present cap pre k)
    (hk : Present cap calls k) : ∃ pre since, InsertedSince cap calls k pre since := by
  induction calls using List.reverseRecOn with
  | nil => exact absurd hk (not_present_nil cap k)
  | append_singleton calls call ih =>
    by_cases hold : Present cap calls k
    · have hget' : ∀ pre k post, calls = pre ++ .get k :: post → Present cap pre k :=
        fun pre k post h => hget pre k (post ++ [call]) (by simp [h])
      obtain ⟨pre, since, hi⟩ := ih hget' hold
      obtain ⟨v, post, hpost⟩ := hi.inserts
      refine ⟨pre, since ++ [call], by simp [hi.split], hi.absent,
        ⟨v, post ++ [call], by simp [hpost]⟩, fun mid hmid hne => ?_⟩
      rcases List.prefix_concat_iff.mp hmid with rfl | hmid
      · rwa [← List.append_assoc, ← hi.split]
      · exact hi.stays mid hmid hne
    · have ht : call.touched = some k := (hk.of_concat hcap).resolve_right hold
      cases call with
      | set k' v =>
        obtain rfl : k' = k := by simpa [Call.touched] using ht
        refine ⟨calls, [.set k' v], rfl, hold, ⟨v, [], rfl⟩, fun mid hmid hne => ?_⟩
        obtain ⟨t, rfl, ht'⟩ := (List.prefix_cons_iff.mp hmid).resolve_left hne
        rwa [List.prefix_nil.mp ht']
      | get k' =>
        obtain rfl : k' = k := by simpa [Call.touched] using ht
        exact absurd (hget calls k' [] rfl) hold
      | setDirty _ => simp [Call.touched] at ht
      | setClean _ => simp [Call.touched] at ht
      | isDirty _ => simp [Call.touched] at ht
      | hasKey _ => simp [Call.touched] at ht
      | lruKeysOneshot => simp [Call.touched] at ht

/-- What decides the flag of `k` lies behind its last insertion. -/
theorem InsertedSince.lastFlagged (h : InsertedSince cap calls k pre since) :
    lastFlagged calls k = lastFlagged since k := by
  obtain ⟨v, post, rfl⟩ := h.inserts
  have hsome : (LRU.lastFlagged (.set k v :: post) k).isSome = true := by
    rw [← List.singleton_append, lastFlagged_append, Option.isSome_or]
    simp [Call.flagged]
  rw [h.split, lastFlagged_append]
  exact Option.or_of_isSome hsome

end Insertion

namespace ThreadSafeLRUCache
variable [Inhabited K] [Inhabited V]

/-- A guarded history of a fresh cache reads only present keys. -/
theorem present_of_get (cap : ℕ) (hcap : 1 ≤ cap) {calls pre post : List (Call K V)} {k : K}
    (hg : Allowed exec Guarded (new cap) calls) (hs : calls = pre ++ .get k :: post) :
    Present cap pre k := by
  subst hs
  obtain ⟨os, c, r, hc, hr, hsim⟩ :=
    run_simulates (fun _ _ _ h he => h.exec he) (Simulates.new cap hcap) hg.of_append
  have hk := hg.at_event hc k rfl
  have hrefl := (Reflects.empty hcap).run hr
  rw [List.nil_append] at hrefl
  rw [hrefl.present_iff]
  simpa [hsim.hasKey k, Recency.hasKey] using hk

/-- The content of a cache after any guarded history: which keys are present, their values, their
dirty flags and their order. -/
theorem eviction_law (cap : ℕ) (hcap : 1 ≤ cap) (calls : List (Call K V))
    (hg : Allowed exec Guarded (new cap) calls) :
    ∃ os c, run exec (new cap) calls = some (os, c) ∧
      (∀ k, c.hasKey k = true ↔ Present cap calls k) ∧
      (∀ k, Present cap calls k → ∃ v c', c.get k = some (v, c') ∧ lastStored calls k = some v) ∧
      (∀ k, Present cap calls k → ∃ pre since b, InsertedSince cap calls k pre since ∧
        c.isDirty k = some b ∧ lastFlagged since k = some b) ∧
      c.lruKeysOneshot = some ((touches calls).dedup.filter (fun k => Present cap calls k)) := by
  obtain ⟨os, c, r, hc, hr, hsim⟩ :=
    run_simulates (fun _ _ _ h he => h.exec he) (Simulates.new cap hcap) hg
  have hrefl := (Reflects.empty hcap).run hr
  rw [List.nil_append] at hrefl
  refine ⟨os, c, hc, fun k => ?_, fun k hk => ?_, fun k hk => ?_, ?_⟩
  · rw [hsim.hasKey k, hrefl.present_iff, Recency.hasKey, decide_eq_true_eq]
  · have hk' := hrefl.present_iff.mp hk
    obtain ⟨v, c', r', hget, hget', -⟩ := hsim.get (k := k) (by
      rw [hsim.hasKey k, Recency.hasKey, decide_eq_true_eq]
      exact hk')
    obtain ⟨e, he, ho⟩ := Option.map_eq_some_iff.mp hget'
    obtain ⟨rfl, -⟩ := Prod.mk.inj ho
    exact ⟨_, c', hget, find_key he ▸ hrefl.stored e (find_mem he)⟩
  · obtain ⟨pre, since, hi⟩ := exists_insertedSince hcap
      (fun pre k post hs => present_of_get cap hcap hg hs) hk
    obtain ⟨e, he⟩ := Option.isSome_iff_exists.mp (find_isSome.mpr (hrefl.present_iff.mp hk))
    refine ⟨pre, since, e.dirty, hi, ?_, ?_⟩
    · rw [hsim.isDirty k, Recency.isDirty, he]
      rfl
    · rw [← hi.lastFlagged, ← find_key he]
      exact hrefl.flagged e (find_mem he)
  · rw [hsim.lruKeysOneshot, hrefl.order, ← dedup_filter_mem_recent]
    simp only [← present_iff]

/-- The least recently used key is evicted, the promoted and flagged one is kept. -/
theorem eviction_law_promoted :
    ∃ os c, run exec (new 2 : ThreadSafeLRUCache ℕ ℕ)
        [.set 1 10, .set 2 20, .setDirty 1, .get 1, .set 3 30] = some (os, c) ∧
      ∀ k, c.hasKey k = true ↔
        Present 2 [.set 1 10, .set 2 20, .setDirty 1, .get 1, .set (V := ℕ) 3 30] k := by
  have hg : Allowed exec Guarded (new 2 : ThreadSafeLRUCache ℕ ℕ)
      [.set 1 10, .set 2 20, .setDirty 1, .get 1, .set 3 30] := by
    refine ⟨nofun, nofun, nofun, ?_, nofun, trivial⟩
    rintro k ⟨⟩
    rfl
  obtain ⟨os, c, hr, hp, -⟩ := eviction_law 2 (by decide) _ hg
  exact ⟨os, c, hr, hp⟩

end ThreadSafeLRUCache
end DCache.LRU
