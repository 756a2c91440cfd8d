import Mathlib.Data.Finset.Card
import DCache.Cache.Migration

/-! Recovery of a backup: what `move` does in `state` 1. -/
namespace DCache.CacheServer
open DCache.Lib DCache.LRU

/-- `lru` has room for the keys of both tables, and none of them is dirty in it. -/
def Room (s : CacheServer) : Prop :=
  (keysOf s.lru.entries ++ keysOf s.lruBackup.entries).toFinset.card ≤ s.lru.raw.cap ∧
    ∀ key ∈ keysOf s.lru.entries ++ keysOf s.lruBackup.entries, s.lru.isDirty key = false

variable (cbHashfunc : Str → ℤ)

/-- The move completes, and every clean pair of the backup is sent to its owner or, if that is the
server itself, is in its table. -/
def Recovers (s : CacheServer) (net : ℕ → Net) : Prop :=
  ∃ calls s', s.move cbHashfunc net = some (calls, s') ∧ TextsFit calls ∧
    ∀ key value, find s.lruBackup.entries key = some ⟨key, value, false⟩ →
      (∃ addr msg, s.cacheServerHash.conhashGetCacheServer cbHashfunc key = some addr ∧
        SentTo calls key addr msg ∧ Carries msg key value) ∨
      (s.cacheServerHash.conhashGetCacheServer cbHashfunc key = some s.localAddr ∧
        (s.Room → find s'.lru.entries key = some ⟨key, value, false⟩))

/-- What the loop can restore: an empty value whose key stands in `lru` as well, or a pair that
does not have to be restored. -/
def Restorable (s : CacheServer) (key value : Str) : Prop :=
  (value = [] ∧ IsText key ∧ s.lru.hasKey key = true ∧ ∃ addr ≠ s.localAddr, addr ≠ [] ∧
    s.cacheServerHash.conhashGetCacheServer cbHashfunc key = some addr) ∨
  (s.cacheServerHash.conhashGetCacheServer cbHashfunc key = some s.localAddr ∧
    (s.Room → find s.lru.entries key = some ⟨key, value, false⟩))

variable {cbHashfunc} {s : CacheServer} {net : ℕ → Net}

theorem not_leaves_of_own {key : Str}
    (h : s.cacheServerHash.conhashGetCacheServer cbHashfunc key = some s.localAddr) :
    ¬ s.Leaves cbHashfunc key := by
  rintro ⟨-, addr, ho, hl⟩
  exact hl (Option.some.inj (ho.symm.trans h))

theorem Recovers.restorable (h : s.Recovers cbHashfunc net) {key value : Str}
    (hpair : find s.lruBackup.entries key = some ⟨key, value, false⟩) :
    s.Restorable cbHashfunc key value := by
  obtain ⟨calls, s', hm, -, hall⟩ := h
  rcases hall key value hpair with ⟨addr, msg, ho, ⟨cfd, res, hsub⟩, hmsg⟩ | ⟨ho, hroom⟩
  · obtain ⟨-, hleave, rfl⟩ := of_send hm
      (hsub.subset (List.mem_cons_of_mem _ List.mem_cons_self))
    obtain ⟨addr', hne, hl, ho'⟩ := of_connect hm (hsub.subset List.mem_cons_self)
    obtain rfl := Option.some.inj (ho.symm.trans ho')
    obtain ⟨hk, hv⟩ := carries_moveMsg.mp hmsg
    exact Or.inl ⟨hv, hk, hleave.1, addr, hl, hne, ho⟩
  · exact Or.inr ⟨ho, fun hr => (find_of_move hm (not_leaves_of_own ho)) ▸ hroom hr⟩

/-- A recovery restores the backup if and only if it runs to its end and every clean pair of the
backup is one that the loop can restore. -/
theorem recovers_iff (hstate : s.state = 1) (hnet : Reliable net) :
    s.Recovers cbHashfunc net ↔ s.CanMove cbHashfunc ∧
      ∀ key value, find s.lruBackup.entries key = some ⟨key, value, false⟩ →
        s.Restorable cbHashfunc key value := by
  constructor
  · intro h
    refine ⟨?_, fun key value hpair => h.restorable hpair⟩
    obtain ⟨calls, s', hm, hfit, -⟩ := h
    exact canMove_of_move hnet hm hfit
  · rintro ⟨hcan, hall⟩
    obtain ⟨calls, s', hm, hfit, hsent⟩ := exists_move hnet hcan
    refine ⟨calls, s', hm, hfit, fun key value hpair => ?_⟩
    rcases hall key value hpair with ⟨hv, hk, hlru, addr, hl, hne, ho⟩ | ⟨ho, hroom⟩
    · have hmem : key ∈ s.moveKeys := by
        rw [moveKeys, if_neg (by rw [hstate]; decide)]
        exact find_isSome.mp (by rw [hpair]; rfl)
      exact Or.inl ⟨addr, _, ho, (hsent key hmem hlru addr hl ho).2 hne,
        carries_moveMsg.mpr ⟨hk, hv⟩⟩
    · exact Or.inr ⟨ho, fun hr => by rw [find_of_move hm (not_leaves_of_own ho), hroom hr]⟩

/-- A server that is told to recover a backup of one pair, and holds nothing itself. -/
def backingUp (c : Ring.ConHash) (key value : Str) : CacheServer :=
  { CacheServer.new with
    lruBackup := CacheServer.new.lruBackup.set key value
    localAddr := lit "0.0.0.0:6000"
    cacheServerHash := c
    state := 1 }

theorem recovers_iff_single : ∃ c,
    Ring.ConHash.new.conhashAddCacheServer (fun _ => 0) (lit "10.0.0.2:6001") = some c ∧
    ((backingUp c (lit "k") []).Recovers (fun _ => 0) reliableNet ↔
      (backingUp c (lit "k") []).CanMove (fun _ => 0) ∧
      ∀ key value, find (backingUp c (lit "k") []).lruBackup.entries key =
          some ⟨key, value, false⟩ →
        (backingUp c (lit "k") []).Restorable (fun _ => 0) key value) := by
  obtain ⟨c, hc, -⟩ := exists_newServer fun _ => 0
  exact ⟨c, hc, recovers_iff rfl fun _ => ⟨rfl, rfl⟩⟩

/-- A pair that is in the backup only is not recovered, whatever the hash function is. -/
theorem not_recovers_backup : ¬ ∃ cbHashfunc : Str → ℤ, ∀ c,
    Ring.ConHash.new.conhashAddCacheServer cbHashfunc (lit "10.0.0.2:6001") = some c →
    c.conhashGetCacheServer cbHashfunc (lit "k") = some (lit "10.0.0.2:6001") →
    (backingUp c (lit "k") (lit "v")).Recovers cbHashfunc reliableNet := by
  rintro ⟨cbHashfunc, h⟩
  obtain ⟨c, hc, howner⟩ := exists_newServer cbHashfunc
  rcases (h c hc (howner _)).restorable (Cache.find_set_self _ (lit "k") (lit "v")) with h | ⟨ho, -⟩
  · exact absurd h.1 (by decide)
  · have hlocal : lit "10.0.0.2:6001" ≠ lit "0.0.0.0:6000" := by decide
    exact hlocal (Option.some.inj ((howner _).symm.trans ho))

end DCache.CacheServer
