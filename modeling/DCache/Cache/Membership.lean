import DCache.Ring.Refinement
import DCache.Cache.Server

/-! The ring that a cache server rebuilds from a list of addresses. -/
namespace DCache.CacheServer
open DCache.Lib DCache.Ring

section UpdateHash
variable (cbHashfunc : Str → ℤ)

/-- Distinct addresses that are added to an empty consistent hash make the ring of them. -/
theorem foldlM_conhashAddCacheServer {addrs : List Str} (hn : addrs.Nodup)
    (ha : ∀ a ∈ addrs, IsAddress a) : ∃ c,
      addrs.foldlM (fun c a => c.conhashAddCacheServer cbHashfunc a) ConHash.new = some c ∧
      c.Rep (HashRing.build (labelHashes cbHashfunc) addrs) := by
  have key : ∀ (as as₀ : List Str) (c : ConHash), (as₀ ++ as).Nodup → (∀ a ∈ as, IsAddress a) →
      c.Rep (HashRing.build (labelHashes cbHashfunc) as₀) →
      (∀ b, b ∉ as₀ → c.nodesMap b = none) → ∃ c',
        as.foldlM (fun c a => c.conhashAddCacheServer cbHashfunc a) c = some c' ∧
        c'.Rep (HashRing.build (labelHashes cbHashfunc) (as₀ ++ as)) := by
    intro as
    induction as with
    | nil => exact fun as₀ c _ _ hr _ => ⟨c, rfl, by rwa [List.append_nil]⟩
    | cons a as ih =>
      intro as₀ c hn ha hr hout
      have hnot : a ∉ as₀ := fun h => by
        have := (List.nodup_append'.mp hn).2.2 h
        simp at this
      obtain ⟨c₁, hadd, hr₁, hmap⟩ := hr.conhashAddCacheServer cbHashfunc
        (ha a List.mem_cons_self) (hout a hnot)
      have hbuild : HashRing.add (labelHashes cbHashfunc)
          (HashRing.build (labelHashes cbHashfunc) as₀) a =
          HashRing.build (labelHashes cbHashfunc) (as₀ ++ [a]) := by
        simp only [HashRing.build, List.foldl_append, List.foldl_cons, List.foldl_nil]
      obtain ⟨c₂, hfold, hr₂⟩ := ih (as₀ ++ [a]) c₁ (by simpa using hn)
        (fun b hb => ha b (List.mem_cons_of_mem _ hb)) (hbuild ▸ hr₁) (fun b hb => by
          simp only [List.mem_append, List.mem_singleton, not_or] at hb
          rw [hmap, if_neg hb.2, hout b hb.1])
      refine ⟨c₂, ?_, by simpa using hr₂⟩
      rw [List.foldlM_cons, hadd]
      exact hfold
  exact key addrs [] .new hn ha .new fun _ _ => rfl

theorem updateHash_eq (s : CacheServer) {addrs : List Str} (hn : addrs.Nodup)
    (ha : ∀ a ∈ addrs, IsAddress a) : ∃ c,
      s.updateHash cbHashfunc addrs = some { s with cacheServerHash := c } ∧
      c.Rep (HashRing.build (labelHashes cbHashfunc) addrs) := by
  obtain ⟨c, hc, hr⟩ := foldlM_conhashAddCacheServer cbHashfunc hn ha
  exact ⟨c, by rw [updateHash, hc]; rfl, hr⟩

variable {cbHashfunc} in
/-- A server that is alone on the ring owns every key. -/
theorem owner_of_single {c : ConHash} {a : Str}
    (hr : c.Rep (HashRing.build (labelHashes cbHashfunc) [a])) (key : Str) :
    c.conhashGetCacheServer cbHashfunc key = some a := by
  rw [hr.conhashGetCacheServer]
  rcases HashRing.owner_build (labelHashes cbHashfunc) [a] (fun b _ => labelHashes_ne_nil cbHashfunc b)
    (cbHashfunc (cstr key)) with ⟨b, hb, ho⟩ | ⟨h, -⟩
  · rw [ho, List.mem_singleton.mp hb]
    rfl
  · cases h

theorem exists_single {a : Str} (ha : IsAddress a) : ∃ c,
    ConHash.new.conhashAddCacheServer cbHashfunc a = some c ∧
      ∀ key, c.conhashGetCacheServer cbHashfunc key = some a := by
  obtain ⟨c, hc, hr, -⟩ := ConHash.Rep.new.conhashAddCacheServer cbHashfunc ha rfl
  have hbuild : HashRing.add (labelHashes cbHashfunc) .empty a =
      HashRing.build (labelHashes cbHashfunc) [a] := by
    rw [HashRing.build, List.foldl_cons, List.foldl_nil]
  rw [hbuild] at hr
  exact ⟨c, hc, owner_of_single hr⟩

end UpdateHash

theorem ipPortLines_line {line : Str} (h : newline ∉ line) (temp rest : Str) :
    ipPortLines temp (line ++ newline :: rest) = (temp ++ line) :: ipPortLines [] rest := by
  induction line generalizing temp with
  | nil => simp [ipPortLines]
  | cons b line ih =>
    obtain ⟨hb, hline⟩ := not_or.mp (mt List.mem_cons.mpr h)
    rw [List.cons_append, ipPortLines, if_neg (Ne.symm hb), ih hline]
    simp

theorem ipPortLines_of_notMem {line : Str} (h : newline ∉ line) (temp : Str) :
    ipPortLines temp line = [] := by
  induction line generalizing temp with
  | nil => rfl
  | cons b line ih =>
    obtain ⟨hb, hline⟩ := not_or.mp (mt List.mem_cons.mpr h)
    rw [ipPortLines, if_neg (Ne.symm hb), ih hline]

/-- The addresses of a list are its finished lines. -/
theorem ipPortLines_flatMap {addrs : List Str} (h : ∀ a ∈ addrs, newline ∉ a) {rest : Str}
    (hr : newline ∉ rest) :
    ipPortLines [] (addrs.flatMap (fun a => a ++ [newline]) ++ rest) = addrs := by
  induction addrs with
  | nil => exact ipPortLines_of_notMem hr []
  | cons a addrs ih =>
    obtain ⟨ha, haddrs⟩ := List.forall_mem_cons.mp h
    rw [List.flatMap_cons, List.append_assoc, List.append_assoc, List.singleton_append,
      ipPortLines_line ha, ih haddrs, List.nil_append]

end DCache.CacheServer
