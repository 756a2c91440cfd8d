import DCache.Cache.Passes

/-! The order that an aborted `move` leaves. The loop promotes every key that it inspects, so a
call that fails in the middle of the snapshot leaves the inspected keys behind the others. -/
namespace DCache.CacheServer
open DCache.Lib DCache.LRU

/-- Exchanging the two parts of a list without repetitions moves something, unless one is empty. -/
theorem exchange_eq_iff {α : Type} {xs ys : List α} (hn : (xs ++ ys).Nodup) (hne : xs ≠ []) :
    ys ++ xs = xs ++ ys ↔ ys = [] := by
  constructor
  · intro h
    cases xs with
    | nil => exact absurd rfl hne
    | cons x xs =>
      cases ys with
      | nil => rfl
      | cons y ys =>
        have hxy : y = x := (List.cons.inj h).1
        have hx : x ∉ xs ++ y :: ys := (List.nodup_cons.mp hn).1
        apply absurd _ hx
        rw [hxy]
        exact List.mem_append_right _ List.mem_cons_self
  · rintro rfl
    rw [List.nil_append, List.append_nil]

theorem getLast?_eq_iff {α : Type} {xs ys : List α} {x : α} (hn : (xs ++ x :: ys).Nodup) :
    (xs ++ x :: ys).getLast? = some x ↔ ys = [] := by
  constructor
  · intro h
    rcases List.eq_nil_or_concat' ys with rfl | ⟨zs, z, rfl⟩
    · rfl
    · rw [← List.cons_append, ← List.append_assoc, List.getLast?_concat, Option.some.injEq] at h
      have hx := (List.nodup_cons.mp (List.nodup_append.mp hn).2.1).1
      apply absurd _ hx
      rw [h]
      exact List.mem_append_right _ List.mem_cons_self
  · rintro rfl
    exact List.getLast?_concat

/-- The loop sent the request for the key. -/
def wasSent (calls : List (Str × SysCall)) (key : Str) : Bool :=
  calls.any fun c => match c.2 with
    | .send _ _ ok => decide (c.1 = key) && ok
    | _ => false

theorem wasSent_iff {calls : List (Str × SysCall)} {key : Str} :
    wasSent calls key = true ↔ Sent calls key := by
  unfold wasSent Sent
  rw [List.any_eq_true]
  constructor
  · rintro ⟨⟨key', call⟩, hc, h⟩
    cases call with
    | send fd buf ok =>
      simp only [Bool.and_eq_true, decide_eq_true_eq] at h
      obtain ⟨rfl, rfl⟩ := h
      exact ⟨fd, buf, hc⟩
    | socket fd => cases h
    | close fd => cases h
    | connect fd addr ok => cases h
  · rintro ⟨fd, buf, hc⟩
    refine ⟨_, hc, ?_⟩
    simp

/-- The keys of the table that were not handed off, the least recently used first. -/
def notSent (calls : List (Str × SysCall)) (s : CacheServer) : List Str :=
  (keysOf s.lru.entries).filter fun key => !wasSent calls key

section Loop
variable {held : Str → Bool} {owner : Str → Option Str} {localAddr : Str} {net : ℕ → Net}
  {keys : List Str} {calls : List (Str × SysCall)} {marks : List Str} {c : Str × SysCall}

/-- A turn that ends the loop marks nothing. -/
theorem turn_stopped {net : Net} {key : Str} {t : Turn}
    (h : turn held owner localAddr net key = some t) (hmore : t.more = false) :
    t.marked = false := by
  rcases turn_cases h with ⟨rfl, -⟩ | ⟨-, newAddr, -, -, rfl⟩
  · cases hmore
  · exact hmore

/-- The key at which the loop stops is not marked. -/
theorem notMem_marks_of_failed {i : ℕ} (hn : keys.Nodup)
    (h : handOver held owner localAddr net i keys = some (calls, marks))
    (hc : c ∈ calls) (hf : c.2.Failed) : c.1 ∉ marks := by
  induction keys generalizing i calls marks with
  | nil =>
    obtain ⟨rfl, rfl⟩ := Prod.mk.inj (Option.some.inj h)
    cases hc
  | cons k keys ih =>
    obtain ⟨hk, hkeys⟩ := List.nodup_cons.mp hn
    simp only [handOver, Option.bind_eq_bind] at h
    obtain ⟨t, ht, h⟩ := Option.bind_eq_some_iff.mp h
    have hfailed := (turn_failed ht).1
    by_cases hmore : t.more = true
    · rw [if_pos hmore] at h
      obtain ⟨⟨calls', marks'⟩, hr, he⟩ := Option.bind_eq_some_iff.mp h
      obtain ⟨rfl, rfl⟩ := Prod.mk.inj (Option.some.inj he)
      rcases List.mem_append.mp hc with hc | hc
      · obtain ⟨call, hcall, rfl⟩ := List.mem_map.mp hc
        rw [(hfailed call hcall hf).1] at hmore
        cases hmore
      · have hcall : (c.1, c.2) ∈ calls' := hc
        have hmem : c.1 ∈ keys := ((of_handOver hr).1 _ hcall).1
        rw [List.mem_append, not_or]
        constructor
        · split_ifs
          · intro hck
            exact hk (List.mem_singleton.mp hck ▸ hmem)
          · exact List.not_mem_nil
        · exact ih hkeys hr hc
    · rw [if_neg hmore, Option.some.injEq, Prod.mk.injEq] at h
      obtain ⟨rfl, rfl⟩ := h
      rw [if_neg (by rw [turn_stopped ht (Bool.eq_false_iff.mpr hmore)]; exact Bool.false_ne_true)]
      exact List.not_mem_nil

end Loop

/-- What a pass that a failing call ends at `key` leaves of the order: the keys behind `key` come
first, then the inspected ones, each group in its order. So the keys that were not handed off stand
in the same order as before exactly when `key` was the most recently used one. -/
structure Regroups (s : CacheServer) (calls : List (Str × SysCall)) (key : Str)
    (s' : CacheServer) : Prop where
  parts : ∃ ks₁ ks₂, keysOf s.lru.entries = ks₁ ++ key :: ks₂ ∧
    keysOf s'.lru.entries = ks₂ ++ (ks₁ ++ [key]) ∧ notSent calls s =
      ks₁.filter (fun k => !wasSent calls k) ++ key :: ks₂ ∧
    notSent calls s' = ks₂ ++ (ks₁.filter (fun k => !wasSent calls k) ++ [key])
  same : notSent calls s' = notSent calls s ↔ (keysOf s.lru.entries).getLast? = some key

section Move
variable {cbHashfunc : Str → ℤ} {s s' : CacheServer} {net : ℕ → Net}
  {calls : List (Str × SysCall)} {c : Str × SysCall}

theorem notSent_of_failed (hstate : s.state = 0) (h : s.move cbHashfunc net = some (calls, s'))
    (hc : c ∈ calls) (hf : c.2.Failed) : ¬ Sent calls c.1 := by
  rcases s.move_eq cbHashfunc net with ⟨-, hm⟩ | ⟨calls', marks, s'', ht, hm, -⟩
  · rw [hm] at h
    cases h
  · have he := Option.some.inj (hm.symm.trans h)
    have hcalls : calls' = calls := congrArg Prod.fst he
    subst hcalls
    have hkeys : s.moveKeys = keysOf s.lru.entries := if_pos hstate
    rw [← mem_marks_iff ht]
    exact notMem_marks_of_failed (hkeys ▸ s.lru.nodup) ht hc hf

theorem regroups_of_failed (hstate : s.state = 0) (h : s.move cbHashfunc net = some (calls, s'))
    (hc : c ∈ calls) (hf : c.2.Failed) : Regroups s calls c.1 s' := by
  obtain ⟨es₁, es₂, es₁', hes, hes', hkeys, hstop⟩ := stopsAt_of_move hstate h
  have hns := notSent_of_failed hstate h hc hf
  obtain ⟨-, hlast⟩ := hstop.failed c hc hf
  obtain ⟨ks₁, hks₁⟩ := List.getLast?_eq_some_iff.mp hlast
  have hbefore : keysOf s.lru.entries = ks₁ ++ c.1 :: keysOf es₂ := by
    rw [hes, keysOf_append, hks₁, List.append_assoc, List.singleton_append]
  have hafter : keysOf s'.lru.entries = keysOf es₂ ++ (ks₁ ++ [c.1]) := by
    rw [hes', keysOf_append, hkeys, hks₁]
  have hn : (ks₁ ++ c.1 :: keysOf es₂).Nodup := hbefore ▸ s.lru.nodup
  have hkey : (!wasSent calls c.1) = true := by
    rw [Bool.not_eq_true', Bool.eq_false_iff, Ne, wasSent_iff]
    exact hns
  -- the keys behind the failing one are not reached
  have hbehind : ∀ k ∈ keysOf es₂, (!wasSent calls k) = true := by
    intro k hk
    rw [Bool.not_eq_true', Bool.eq_false_iff, Ne, wasSent_iff]
    rintro ⟨fd, buf, hmem⟩
    have hreached := hstop.reached _ hmem
    rw [hks₁] at hreached
    have hdisj := List.nodup_append.mp
      (show ((ks₁ ++ [c.1]) ++ keysOf es₂).Nodup by simpa using hn)
    exact hdisj.2.2 k hreached k hk rfl
  have hfilter : (keysOf es₂).filter (fun k => !wasSent calls k) = keysOf es₂ :=
    List.filter_eq_self.mpr hbehind
  have hone : [c.1].filter (fun k => !wasSent calls k) = [c.1] :=
    List.filter_eq_self.mpr (by simpa using hkey)
  have hunsent : notSent calls s =
      (ks₁.filter (fun k => !wasSent calls k) ++ [c.1]) ++ keysOf es₂ := by
    unfold notSent
    rw [hbefore, List.append_cons, List.filter_append, List.filter_append, hone, hfilter]
  have hunsent' : notSent calls s' =
      keysOf es₂ ++ (ks₁.filter (fun k => !wasSent calls k) ++ [c.1]) := by
    unfold notSent
    rw [hafter, List.filter_append, List.filter_append, hone, hfilter]
  constructor
  · exact ⟨ks₁, keysOf es₂, hbefore, hafter, hunsent.trans (List.append_cons _ _ _).symm, hunsent'⟩
  · have hnodup : (notSent calls s).Nodup := s.lru.nodup.filter _
    rw [hunsent] at hnodup
    rw [hunsent, hunsent', exchange_eq_iff hnodup (by simp), hbefore]
    exact (getLast?_eq_iff hn).symm

/-- Whatever the table, the ring and the position of the failing call are. -/
theorem regroups_of_move (cbHashfunc : Str → ℤ) (s : CacheServer) (net : ℕ → Net)
    (hstate : s.state = 0) :
    (∀ ring, s.cacheServerHash.Rep ring → (s.move cbHashfunc net).isSome = true) ∧
      ∀ calls s' c, s.move cbHashfunc net = some (calls, s') → c ∈ calls → c.2.Failed →
        Regroups s calls c.1 s' :=
  ⟨fun _ hring => isSome_move hring, fun _ _ _ h hc hf => regroups_of_failed hstate h hc hf⟩

/-- A server with two pairs, whose keys belong to another server. -/
def twoPairs : CacheServer :=
  { CacheServer.new with
    lru := (CacheServer.new.lru.set (lit "k") (lit "v")).set (lit "l") (lit "w")
    localAddr := lit "0.0.0.0:6000"
    cacheServerHash := ((Ring.ConHash.new.conhashAddCacheServer (fun _ => 0)
      (lit "10.0.0.2:6001")).getD .new) }

def refusedCall : SysCall := .connect 7 (str2sockAddr ⟨0, 0, .any⟩ (lit "10.0.0.2:6001")) false

/-- A move that cannot connect for the older of two keys. -/
theorem exists_refused : ∃ s', twoPairs.move (fun _ => 0) (fun _ => ⟨7, ⟨0, 0, .any⟩, false, true⟩) =
    some ([(lit "k", .socket 7), (lit "k", .close 7), (lit "k", refusedCall)], s') :=
  ⟨_, rfl⟩

theorem regroups_twoPairs : ∃ calls s', twoPairs.move (fun _ => 0)
      (fun _ => ⟨7, ⟨0, 0, .any⟩, false, true⟩) = some (calls, s') ∧
    Regroups twoPairs calls (lit "k") s' := by
  obtain ⟨s', h⟩ := exists_refused
  exact ⟨_, s', h, (regroups_of_move (fun _ => 0) twoPairs _ rfl).2 _ s' (lit "k", refusedCall) h
    (by simp) rfl⟩

/-- The move that fails for `k` makes `l` the next key to be evicted. -/
theorem not_same_order : ¬ ∀ (cbHashfunc : Str → ℤ) (s : CacheServer) (net : ℕ → Net)
    (calls : List (Str × SysCall)) (s' : CacheServer) (c : Str × SysCall), s.state = 0 →
      s.move cbHashfunc net = some (calls, s') → c ∈ calls → c.2.Failed →
      notSent calls s' = notSent calls s := by
  intro hall
  obtain ⟨s', h⟩ := exists_refused
  have hkey : (lit "k", refusedCall) ∈ [(lit "k", .socket 7), (lit "k", .close 7),
      (lit "k", refusedCall)] := by simp
  have hlast := (regroups_of_failed rfl h hkey rfl).same.mp (hall _ _ _ _ s' _ rfl h hkey rfl)
  have hkeys : (keysOf twoPairs.lru.entries).getLast? = some (lit "l") := rfl
  rw [hkeys] at hlast
  exact absurd hlast (by decide)

end Move
end DCache.CacheServer
