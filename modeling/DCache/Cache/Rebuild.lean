import DCache.Ring.Changes
import DCache.Cache.Membership

/-! The master keeps its ring by additions and deletions, a cache server rebuilds its own from a list
of addresses. Where no two servers have a hash in common, both rings answer alike. -/
namespace DCache.CacheServer
open DCache.Lib DCache.Ring DCache.Ring.ConHash

section Spread
variable {cbHashfunc : Str → ℤ} {as : List Str} {c c' : ConHash} {r : OrdMap ℤ Str} {a : Str}

/-- The points on the ring are the label hashes of the addresses that are present. -/
structure Spread (cbHashfunc : Str → ℤ) (as : List Str) (c : ConHash) (r : OrdMap ℤ Str) : Prop where
  models : Models cbHashfunc c r
  known : ∀ a, c.nodesMap a ≠ none → a ∈ as ∧ IsAddress a
  points : ∀ h a, r.find? h = some a ↔ c.nodesMap a ≠ none ∧ h ∈ labelHashes cbHashfunc a

theorem Spread.new (cbHashfunc : Str → ℤ) (as : List Str) : Spread cbHashfunc as .new .empty :=
  ⟨.new cbHashfunc, fun _ h => absurd rfl h, fun _ _ => ⟨nofun, fun h => absurd rfl h.1⟩⟩

theorem Spread.add (hs : Spread cbHashfunc as c r)
    (hapart : HashRing.Apart (labelHashes cbHashfunc) as) (hmem : a ∈ as) (ha : IsAddress a)
    (habs : c.nodesMap a = none) : ∃ c', c.conhashAddCacheServer cbHashfunc a = some c' ∧
      Spread cbHashfunc as c' (HashRing.add (labelHashes cbHashfunc) r a) := by
  obtain ⟨c', hadd, hm, hmap⟩ := hs.models.add ha fun p hp => by
    rw [habs] at hp
    cases hp
  have hpresent : ∀ b, c'.nodesMap b ≠ none ↔ b = a ∨ c.nodesMap b ≠ none := by
    intro b
    rw [hmap]
    split_ifs with hb
    · exact iff_of_true nofun (Or.inl hb)
    · rw [or_iff_right hb]
  refine ⟨c', hadd, hm, fun b hb => ?_, fun h b => ?_⟩
  · rcases (hpresent b).mp hb with rfl | hb
    · exact ⟨hmem, ha⟩
    · exact hs.known b hb
  · rw [HashRing.find?_add, hpresent, Option.or_eq_some_iff, hs.points]
    constructor
    · rintro (⟨hb, hh⟩ | ⟨-, hb⟩)
      · exact ⟨Or.inr hb, hh⟩
      · split_ifs at hb with hh
        obtain rfl := Option.some.inj hb
        exact ⟨Or.inl rfl, hh⟩
    · rintro ⟨rfl | hb, hh⟩
      · refine Or.inr ⟨?_, by rw [if_pos hh]⟩
        -- the holder would share the point with the address, and would be present
        cases hf : r.find? h with
        | none => rfl
        | some d =>
          obtain ⟨hd, hhd⟩ := (hs.points h d).mp hf
          rw [hapart d (hs.known d hd).1 b hmem h hhd hh] at hd
          exact absurd habs hd
      · exact Or.inl ⟨hb, hh⟩

theorem Spread.del (hs : Spread cbHashfunc as c r) (ha : IsAddress a) :
    ∃ c', c.conhashDelCacheServer cbHashfunc a = some c' ∧
      Spread cbHashfunc as c' (HashRing.remove (labelHashes cbHashfunc) r a) := by
  obtain ⟨c', hdel, hm, hmap⟩ := hs.models.del ha
  have hpresent : ∀ b, c'.nodesMap b ≠ none ↔ b ≠ a ∧ c.nodesMap b ≠ none := by
    intro b
    rw [hmap]
    split_ifs with hb
    · exact iff_of_false (fun h => h rfl) (fun h => h.1 hb)
    · rw [and_iff_right hb]
  refine ⟨c', hdel, hm, fun b hb => hs.known b ((hpresent b).mp hb).2, fun h b => ?_⟩
  rw [hs.models.placed.find?_remove, hpresent, and_assoc, ← hs.points]
  split_ifs with hf
  · apply iff_of_false nofun
    rintro ⟨hb, hb'⟩
    exact hb (Option.some.inj (hb'.symm.trans hf))
  · refine (and_iff_right_of_imp ?_).symm
    rintro hb rfl
    exact hf hb

theorem exists_spread (cbHashfunc : Str → ℤ) {es : List Change}
    (ha : Allowed (change cbHashfunc) Proper .new es)
    (hapart : HashRing.Apart (labelHashes cbHashfunc) (es.map Change.ipPort)) :
    ∃ us c, Lib.run (change cbHashfunc) .new es = some (us, c) ∧
      ∃ r, Spread cbHashfunc (es.map Change.ipPort) c r := by
  have hall := ha.and (q := fun e => e.ipPort ∈ es.map Change.ipPort) fun e he =>
    List.mem_map_of_mem he
  refine run_invariant (I := fun c => ∃ r, Spread cbHashfunc (es.map Change.ipPort) c r) ?_
    ⟨_, .new cbHashfunc _⟩ hall
  rintro c e ⟨r, hs⟩ ⟨hmem, he⟩
  cases e with
  | add a =>
    obtain ⟨ha, habs⟩ : IsAddress a ∧ c.nodesMap a = none := he
    change a ∈ es.map Change.ipPort at hmem
    obtain ⟨c', hadd, hs'⟩ := hs.add hapart hmem ha habs
    exact ⟨(), c', by rw [change, hadd]; rfl, _, hs'⟩
  | del a =>
    obtain ⟨ha, -⟩ : IsAddress a ∧ c.nodesMap a ≠ none := he
    obtain ⟨c', hdel, hs'⟩ := hs.del ha
    exact ⟨(), c', by rw [change, hdel]; rfl, _, hs'⟩

end Spread

section Rebuild
variable {cbHashfunc : Str → ℤ}

/-- The address that a key belongs to: the one with the least hash at or above that of the key, or
with the least hash of all where there is none, or `NULL` where no address is present. -/
def Answers (cbHashfunc : Str → ℤ) (addrs : List Str) (key addr : Str) : Prop :=
  let h := cbHashfunc (cstr key)
  addrs = [] ∧ addr = lit "NULL" ∨
    addr ∈ addrs ∧ ∃ p ∈ labelHashes cbHashfunc addr,
      (h ≤ p ∧ ∀ b ∈ addrs, ∀ q ∈ labelHashes cbHashfunc b, h ≤ q → p ≤ q) ∨
        ∀ b ∈ addrs, ∀ q ∈ labelHashes cbHashfunc b, q < h ∧ p ≤ q

theorem exists_answers {addrs : List Str}
    (hapart : HashRing.Apart (labelHashes cbHashfunc) addrs) (key : Str) :
    Answers cbHashfunc addrs key ((HashRing.owner (HashRing.build (labelHashes cbHashfunc) addrs)
      (cbHashfunc (cstr key))).getD (lit "NULL")) := by
  rcases HashRing.owner_build (labelHashes cbHashfunc) addrs
    (fun a _ => labelHashes_ne_nil cbHashfunc a) (cbHashfunc (cstr key)) with
    ⟨a, -, ho⟩ | ⟨hnil, ho⟩
  · rw [ho]
    exact Or.inr (hapart.owner_build_iff.mp ho)
  · rw [ho]
    exact Or.inl ⟨hnil, rfl⟩

/-- The ring that a history of additions and deletions leaves answers like the one that is rebuilt
from the addresses that are present at its end, in whatever order they come. -/
theorem rebuilt_ring_answers (cbHashfunc : Str → ℤ) {es : List Change}
    (ha : Allowed (change cbHashfunc) Proper .new es)
    (hapart : HashRing.Apart (labelHashes cbHashfunc) (es.map Change.ipPort)) :
    ∃ us c, Lib.run (change cbHashfunc) .new es = some (us, c) ∧
      ∀ (s : CacheServer) (addrs : List Str), addrs.Nodup →
        (∀ a, a ∈ addrs ↔ c.nodesMap a ≠ none) →
        ∃ s', s.updateHash cbHashfunc addrs = some s' ∧ ∀ key, ∃ addr,
          Answers cbHashfunc addrs key addr ∧
          c.conhashGetCacheServer cbHashfunc key = some addr ∧
          s'.cacheServerHash.conhashGetCacheServer cbHashfunc key = some addr := by
  obtain ⟨us, c, hrun, r, hs⟩ := exists_spread cbHashfunc ha hapart
  refine ⟨us, c, hrun, fun s addrs hn hmem => ?_⟩
  have hpresent : ∀ a ∈ addrs, a ∈ es.map Change.ipPort ∧ IsAddress a := fun a ha =>
    hs.known a ((hmem a).mp ha)
  have hapart' := hapart.of_subset fun a ha => (hpresent a ha).1
  have hbuild : r = HashRing.build (labelHashes cbHashfunc) addrs := by
    refine hapart'.eq_build fun h a => ?_
    rw [hs.points, hmem]
  have hrep : c.Rep (HashRing.build (labelHashes cbHashfunc) addrs) := hbuild ▸ hs.models.rep
  obtain ⟨c', hupdate, hrep'⟩ := s.updateHash_eq cbHashfunc hn fun a ha => (hpresent a ha).2
  refine ⟨_, hupdate, fun key => ⟨_, exists_answers hapart' key, ?_, ?_⟩⟩
  · exact hrep.conhashGetCacheServer cbHashfunc key
  · exact hrep'.conhashGetCacheServer cbHashfunc key

/-- Texts of one length have different hashes if they are read as numbers. -/
theorem rebuilt_ring_answers_of_two :
    let cbHashfunc : Str → ℤ := fun s => s.foldl (fun n b => 256 * n + b) 0
    let es := [Change.add (lit "10.0.0.1:6000"), .add (lit "10.0.0.2:6000"),
      .del (lit "10.0.0.1:6000")]
    ∃ us c s', Lib.run (change cbHashfunc) .new es = some (us, c) ∧
      new.updateHash cbHashfunc [lit "10.0.0.2:6000"] = some s' ∧
      ∀ key, ∃ addr, Answers cbHashfunc [lit "10.0.0.2:6000"] key addr ∧
        c.conhashGetCacheServer cbHashfunc key = some addr ∧
        s'.cacheServerHash.conhashGetCacheServer cbHashfunc key = some addr := by
  intro cbHashfunc es
  have ha : Allowed (change cbHashfunc) Proper .new es := by
    refine ⟨⟨by decide, rfl⟩, ⟨by decide, rfl⟩, ⟨by decide, nofun⟩, trivial⟩
  have hapart : HashRing.Apart (labelHashes cbHashfunc) (es.map Change.ipPort) := by
    unfold HashRing.Apart
    decide +kernel
  obtain ⟨us, c, hrun, hc⟩ := rebuilt_ring_answers cbHashfunc ha hapart
  obtain ⟨p, q, hmap⟩ : ∃ p q, ∀ a, c.nodesMap a = if a = lit "10.0.0.1:6000" then none
      else if a = lit "10.0.0.2:6000" then some p
      else if a = lit "10.0.0.1:6000" then some q else none := by
    obtain ⟨-, rfl⟩ := Prod.mk.inj (Option.some.inj hrun)
    exact ⟨_, _, fun a => rfl⟩
  have hmem : ∀ a, a ∈ [lit "10.0.0.2:6000"] ↔ c.nodesMap a ≠ none := by
    intro a
    rw [hmap, List.mem_singleton]
    split_ifs with h₁ h₂
    · rw [h₁]
      decide
    · exact iff_of_true h₂ nofun
    · exact iff_of_false h₂ fun h => h rfl
  obtain ⟨s', hupdate, hs'⟩ := hc new _ (List.nodup_singleton _) hmem
  exact ⟨us, c, s', hrun, hupdate, hs'⟩

end Rebuild
end DCache.CacheServer
