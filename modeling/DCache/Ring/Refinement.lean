import DCache.Ring.ConHash

/-! A consistent hash is a ring of addresses: `Rep` relates the two, and the operations on
nodes and virtual nodes are those of the ring. -/
namespace DCache.Ring
open DCache.Lib

variable (cbHashfunc : Str → ℤ)

/-- The text that is hashed for a virtual node of an address. -/
def label (a : Str) (i : ℕ) : Str := a ++ 45 :: decimal3 i

def labelHashes (a : Str) : List ℤ := (List.range numReplicas).map (fun i => cbHashfunc (label a i))

theorem labelHashes_ne_nil (a : Str) : labelHashes cbHashfunc a ≠ [] := by
  simp [labelHashes, numReplicas]

/-- A text that `iden` holds whole. -/
def IsAddress (a : Str) : Prop := a.length ≤ 63 ∧ 0 ∉ a

instance (a : Str) : Decidable (IsAddress a) := inferInstanceAs (Decidable (_ ∧ _))

theorem isAddress_sockAddr2str (sa : SockAddrIn) : IsAddress (sockAddr2str sa) :=
  ⟨(length_sockAddr2str sa).trans (by decide), zero_notMem_sockAddr2str sa⟩

theorem cstr_label {a : Str} (ha : IsAddress a) (i : ℕ) : cstr (label a i) = label a i := by
  refine cstr_eq_self.mpr fun h => ?_
  simp only [label, decimal3, List.mem_append, List.mem_cons, List.mem_replicate] at h
  rcases h with h | h | ⟨-, h⟩ | h
  · exact ha.2 h
  · exact absurd h (by decide)
  · exact absurd h (by decide)
  · exact absurd (isDigit_of_mem_decimal h) (by decide)

def nodeFor (a : Str) : NodeS := ⟨a, numReplicas, nodeFlagInit ||| nodeFlagIn⟩

def idenAt (heap : Heap NodeS) (p : ℕ) : Str := ((heap.cells p).map NodeS.iden).getD []

namespace ConHash

structure Rep (c : ConHash) (r : OrdMap ℤ Str) : Prop where
  owned : ∀ a p, c.nodesMap a = some p → c.heap.cells p = some (nodeFor a)
  live : ∀ v ∈ c.conhash.vnodeTree.values, ∃ a, c.nodesMap a = some v.node
  view : c.conhash.vnodeTree.mapVal (fun v => idenAt c.heap v.node) = r
  count : c.conhash.ivnodes = c.conhash.vnodeTree.size

theorem Rep.new : Rep new .empty := ⟨nofun, nofun, rfl, rfl⟩

end ConHash

theorem node2string_eq {a : Str} (ha : IsAddress a) (r : ℕ) (f : BitVec 32) {i : ℕ} (hi : i < 1000) :
    node2string ⟨a, r, f⟩ i = label a i := by
  have hd : (decimal i).length ≤ 3 := length_decimal_le (by norm_num) (by omega)
  have h63 := ha.1
  rw [node2string, List.take_of_length_le]
  · rfl
  · simp only [List.length_append, List.length_cons, decimal3, List.length_replicate]
    omega

section AddReplicas
variable {cbHashfunc} (f : VirtualNode → Str) (p : ℕ) (node : NodeS) (c : ConHashS)

private theorem addReplica_view {i : ℕ} {a : Str} (hp : ∀ h, f ⟨h, p⟩ = a) :
    (addReplica cbHashfunc p node c i).vnodeTree.mapVal f =
      HashRing.addPoint a (c.vnodeTree.mapVal f) (cbHashfunc (node2string node i)) := by
  unfold addReplica HashRing.addPoint OrdMap.contains
  rw [OrdMap.find?_mapVal]
  cases h : c.vnodeTree.find? (cbHashfunc (node2string node i)) with
  | none => simp [h, OrdMap.mapVal_insert, hp]
  | some v => simp [h]

private theorem addReplica_values {i : ℕ} {v : VirtualNode}
    (hv : v ∈ (addReplica cbHashfunc p node c i).vnodeTree.values) :
    v ∈ c.vnodeTree.values ∨ v.node = p := by
  unfold addReplica at hv
  cases h : c.vnodeTree.find? (cbHashfunc (node2string node i)) with
  | some w => simp only [h] at hv; exact Or.inl hv
  | none =>
    simp only [h, OrdMap.mem_values, OrdMap.find?_insert] at hv
    obtain ⟨k, hk⟩ := hv
    split_ifs at hk
    · exact Or.inr (by rw [← Option.some.inj hk])
    · exact Or.inl (c.vnodeTree.mem_values.mpr ⟨k, hk⟩)

private theorem addReplica_count {i : ℕ} (h : c.ivnodes = c.vnodeTree.size) :
    (addReplica cbHashfunc p node c i).ivnodes =
      (addReplica cbHashfunc p node c i).vnodeTree.size := by
  unfold addReplica
  cases hf : c.vnodeTree.find? (cbHashfunc (node2string node i)) with
  | none => simp [hf, c.vnodeTree.size_insert_of_none _ hf, h]
  | some v => simpa [hf] using h

variable (cbHashfunc) in
/-- The replicas of a node take their points on the ring. -/
private theorem addReplicas_spec {a : Str} (hp : ∀ h, f ⟨h, p⟩ = a) (ha : IsAddress a)
    (fl : BitVec 32) (hc : c.ivnodes = c.vnodeTree.size) :
    let c' := addReplicas cbHashfunc c p ⟨a, numReplicas, fl⟩
    c'.vnodeTree.mapVal f = HashRing.add (labelHashes cbHashfunc) (c.vnodeTree.mapVal f) a ∧
      (∀ v ∈ c'.vnodeTree.values, v ∈ c.vnodeTree.values ∨ v.node = p) ∧
      c'.ivnodes = c'.vnodeTree.size := by
  have key : ∀ (is : List ℕ) (c : ConHashS), (∀ i ∈ is, i < 1000) →
      c.ivnodes = c.vnodeTree.size →
      let c' := is.foldl (addReplica cbHashfunc p ⟨a, numReplicas, fl⟩) c
      c'.vnodeTree.mapVal f = (is.map (fun i => cbHashfunc (label a i))).foldl
          (HashRing.addPoint a) (c.vnodeTree.mapVal f) ∧
        (∀ v ∈ c'.vnodeTree.values, v ∈ c.vnodeTree.values ∨ v.node = p) ∧
        c'.ivnodes = c'.vnodeTree.size := by
    intro is
    induction is with
    | nil => exact fun c _ hc => ⟨rfl, fun v hv => Or.inl hv, hc⟩
    | cons i is ih =>
      intro c his hc
      obtain ⟨hv, hl, hn⟩ := ih (addReplica cbHashfunc p ⟨a, numReplicas, fl⟩ c i)
        (fun j hj => his j (List.mem_cons_of_mem _ hj)) (addReplica_count p _ c hc)
      refine ⟨?_, fun v hv => ?_, hn⟩
      · rw [List.foldl_cons, hv, addReplica_view f p _ c hp,
          node2string_eq ha _ _ (his i List.mem_cons_self)]
        rfl
      · rcases hl v hv with h | h
        · exact addReplica_values p _ c h
        · exact Or.inr h
  exact key (List.range numReplicas) c (fun i hi => by
    have := List.mem_range.mp hi
    unfold numReplicas at this
    omega) hc

end AddReplicas

namespace ConHash
variable {c : ConHash} {r : OrdMap ℤ Str}

/-- The new node and its virtual nodes, before the node it replaces is released. -/
private theorem add_eq (a : Str) : ∃ h : Heap NodeS,
    (∀ q, h.cells q = if q = c.heap.fresh then
      some ⟨(cstr (cstr a)).take 63, numReplicas, nodeFlagInit ||| nodeFlagIn⟩
      else c.heap.cells q) ∧
    c.conhashAddCacheServer cbHashfunc a =
      (match c.nodesMap a with
        | none => some h
        | some old => h.free old).map fun h' =>
        ⟨addReplicas cbHashfunc c.conhash c.heap.fresh
            ⟨(cstr (cstr a)).take 63, numReplicas, nodeFlagInit⟩,
          fun b => if b = a then some c.heap.fresh else c.nodesMap b, h'⟩ := by
  let node : NodeS := ⟨(cstr (cstr a)).take 63, numReplicas, nodeFlagInit⟩
  let h₁ := (c.heap.alloc ⟨[], 0, 0⟩).update c.heap.fresh (conhashSetNode (cstr a) numReplicas)
  let h₂ := h₁.update c.heap.fresh (fun n => { n with flag := n.flag ||| nodeFlagIn })
  have hp : h₁.cells c.heap.fresh = some node := by simp [h₁, conhashSetNode, node]
  have hm₁ : (c.heap.alloc ⟨[], 0, 0⟩).modify c.heap.fresh
      (conhashSetNode (cstr a) numReplicas) = some h₁ := Heap.modify_of_isSome (by simp) _
  have hm₂ : h₁.modify c.heap.fresh (fun n => { n with flag := n.flag ||| nodeFlagIn }) =
      some h₂ := Heap.modify_of_isSome (by simp [hp]) _
  have hflag : ¬ (nodeFlagInit &&& nodeFlagInit = 0 ∨ nodeFlagInit &&& nodeFlagIn ≠ 0) := by decide
  have hn : conhashAddNode cbHashfunc c.conhash h₁ c.heap.fresh =
      some (0, addReplicas cbHashfunc c.conhash c.heap.fresh node, h₂) := by
    simp only [conhashAddNode, hp, node, hm₂, hflag, if_false, Option.bind_eq_bind,
      Option.bind_some]
  refine ⟨h₂, fun q => ?_, ?_⟩
  · by_cases hq : q = c.heap.fresh
    · subst hq
      simp [h₂, hp, node]
    · simp [h₂, h₁, hq]
  · simp only [ConHash.conhashAddCacheServer, hm₁, hn, Option.bind_eq_bind, Option.bind_some]
    cases c.nodesMap a with
    | none => rfl
    | some old =>
      dsimp only
      cases h₂.free old <;> rfl

/-- What an addition does to the virtual nodes and to `nodes_map`. -/
theorem of_conhashAddCacheServer {a : Str} {c' : ConHash}
    (h : c.conhashAddCacheServer cbHashfunc a = some c') :
    c'.conhash = addReplicas cbHashfunc c.conhash c.heap.fresh
        ⟨(cstr (cstr a)).take 63, numReplicas, nodeFlagInit⟩ ∧
      ∀ b, c'.nodesMap b = if b = a then some c.heap.fresh else c.nodesMap b := by
  obtain ⟨heap, -, hadd⟩ := add_eq (c := c) cbHashfunc a
  rw [hadd] at h
  obtain ⟨heap', -, rfl⟩ := Option.map_eq_some_iff.mp h
  dsimp only
  exact ⟨rfl, fun b => rfl⟩

/-- Every node that `nodes_map` owns is allocated, and under one address only. -/
structure Owned (c : ConHash) : Prop where
  live : ∀ a p, c.nodesMap a = some p → (c.heap.cells p).isSome = true
  inj : ∀ a b p, c.nodesMap a = some p → c.nodesMap b = some p → a = b

theorem Owned.new : Owned new := ⟨nofun, nofun⟩

theorem Owned.ne_fresh (hc : Owned c) {a : Str} {p : ℕ} (ha : c.nodesMap a = some p) :
    p ≠ c.heap.fresh := by
  rintro rfl
  simpa using hc.live a _ ha

/-- Adding an address never faults, not even one that is there. -/
theorem Owned.conhashAddCacheServer (hc : Owned c) (a : Str) :
    ∃ c', c.conhashAddCacheServer cbHashfunc a = some c' ∧ Owned c' ∧
      ∀ b, c'.nodesMap b = if b = a then some c.heap.fresh else c.nodesMap b := by
  obtain ⟨h, hcells, hadd⟩ := add_eq cbHashfunc a
  -- the heap that is left: all nodes but the one that was held under `a`
  obtain ⟨h', hh', hlive⟩ : ∃ h', (match c.nodesMap a with
      | none => some h
      | some old => h.free old) = some h' ∧
      ∀ q, (h.cells q).isSome = true → c.nodesMap a ≠ some q → (h'.cells q).isSome = true := by
    cases hm : c.nodesMap a with
    | none => exact ⟨h, rfl, fun q hq _ => hq⟩
    | some old =>
      refine ⟨h.erase old, Heap.free_of_isSome ?_, fun q hq hqo => ?_⟩
      · rw [hcells, if_neg (hc.ne_fresh hm)]
        exact hc.live a old hm
      · have hne : q ≠ old := fun h => hqo (h ▸ rfl)
        rwa [Heap.cells_erase, if_neg hne]
  refine ⟨_, by rw [hadd, hh']; rfl, ⟨fun b q hb => ?_, fun b b' q hb hb' => ?_⟩, fun b => rfl⟩
  · dsimp only at hb ⊢
    by_cases hba : b = a
    · rw [if_pos hba, Option.some.injEq] at hb
      subst hb
      exact hlive _ (by simp [hcells]) (fun hf => hc.ne_fresh hf rfl)
    · rw [if_neg hba] at hb
      refine hlive q ?_ (fun hf => hba (hc.inj b a q hb hf))
      rw [hcells, if_neg (hc.ne_fresh hb)]
      exact hc.live b q hb
  · dsimp only at hb hb'
    split_ifs at hb hb' with h₁ h₂ h₂
    · rw [h₁, h₂]
    · exact absurd (Option.some.inj hb).symm (hc.ne_fresh hb')
    · exact absurd (Option.some.inj hb').symm (hc.ne_fresh hb)
    · exact hc.inj b b' q hb hb'

theorem Rep.inj (hr : Rep c r) {a b : Str} {p : ℕ} (ha : c.nodesMap a = some p)
    (hb : c.nodesMap b = some p) : a = b := by
  have h := (hr.owned a p ha).symm.trans (hr.owned b p hb)
  exact congrArg NodeS.iden (Option.some.inj h)

/-- An address joins the ring under which no node stands, or one without virtual nodes. -/
theorem Rep.add_of_free (hr : Rep c r) {a : Str} (ha : IsAddress a)
    (hfree : ∀ p, c.nodesMap a = some p → ∀ v ∈ c.conhash.vnodeTree.values, v.node ≠ p) :
    ∃ c', c.conhashAddCacheServer cbHashfunc a = some c' ∧
      Rep c' (HashRing.add (labelHashes cbHashfunc) r a) ∧
      ∀ b, c'.nodesMap b = if b = a then some c.heap.fresh else c.nodesMap b := by
  obtain ⟨h, hcells, hadd⟩ := add_eq cbHashfunc a
  have hc := cstr_eq_self.mpr ha.2
  rw [hc, hc, List.take_of_length_le ha.1] at hcells hadd
  have hne : ∀ b p, c.nodesMap b = some p → p ≠ c.heap.fresh := by
    rintro b p hb rfl
    have := hr.owned b _ hb
    rw [Heap.cells_fresh] at this
    cases this
  -- the heap that is left: all nodes but the one that stood under the address
  obtain ⟨h', hh', hcells'⟩ : ∃ h', (match c.nodesMap a with
      | none => some h
      | some old => h.free old) = some h' ∧
      ∀ q, c.nodesMap a ≠ some q → h'.cells q = h.cells q := by
    cases hm : c.nodesMap a with
    | none => exact ⟨h, rfl, fun q _ => rfl⟩
    | some old =>
      refine ⟨h.erase old, Heap.free_of_isSome ?_, fun q hq => ?_⟩
      · rw [hcells, if_neg (hne a old hm), hr.owned a old hm]
        rfl
      · rw [Heap.cells_erase, if_neg]
        rintro rfl
        exact hq rfl
  have hnew : h'.cells c.heap.fresh = some (nodeFor a) := by
    rw [hcells' _ fun hf => hne a _ hf rfl, hcells, if_pos rfl, nodeFor]
  have hkept : ∀ b q, c.nodesMap b = some q → b ≠ a → h'.cells q = c.heap.cells q := by
    intro b q hb hba
    have hold : c.nodesMap a ≠ some q := fun hq => hba (hr.inj hb hq)
    rw [hcells' q hold, hcells, if_neg (hne b q hb)]
  have hlive : ∀ v ∈ c.conhash.vnodeTree.values, ∃ b, c.nodesMap b = some v.node ∧ b ≠ a := by
    intro v hv
    obtain ⟨b, hb⟩ := hr.live v hv
    refine ⟨b, hb, ?_⟩
    rintro rfl
    exact hfree _ hb v hv rfl
  obtain ⟨hview, hvals, hcount⟩ := addReplicas_spec cbHashfunc
    (fun v => idenAt h' v.node) c.heap.fresh c.conhash
    (fun _ => by simp [idenAt, hnew, nodeFor]) ha nodeFlagInit hr.count
  rw [hh', Option.map_some] at hadd
  refine ⟨_, hadd, ⟨fun b q hb => ?_, fun v hv => ?_, ?_, hcount⟩, fun b => rfl⟩
  · dsimp only at hb ⊢
    by_cases hba : b = a
    · rw [if_pos hba, Option.some.injEq] at hb
      rw [← hb, hba, hnew]
    · rw [if_neg hba] at hb
      rw [hkept b q hb hba, hr.owned b q hb]
  · dsimp only at hv ⊢
    rcases hvals v hv with hv | hv
    · obtain ⟨b, hb, hba⟩ := hlive v hv
      exact ⟨b, by rw [if_neg hba, hb]⟩
    · exact ⟨a, by rw [if_pos rfl, hv]⟩
  · have hsame : c.conhash.vnodeTree.mapVal (fun v => idenAt h' v.node) = r := by
      rw [← hr.view]
      refine OrdMap.mapVal_congr _ fun v hv => ?_
      obtain ⟨b, hb, hba⟩ := hlive v hv
      simp only [idenAt, hkept b _ hb hba]
    rw [hsame] at hview
    exact hview

/-- A new address joins the ring. -/
theorem Rep.conhashAddCacheServer (hr : Rep c r) {a : Str} (ha : IsAddress a)
    (habs : c.nodesMap a = none) : ∃ c', c.conhashAddCacheServer cbHashfunc a = some c' ∧
      Rep c' (HashRing.add (labelHashes cbHashfunc) r a) ∧
      ∀ b, c'.nodesMap b = if b = a then some c.heap.fresh else c.nodesMap b :=
  hr.add_of_free cbHashfunc ha fun p hp => by
    rw [habs] at hp
    cases hp

/-- A look-up never meets a released node, and answers with the owner of the key's hash. -/
theorem Rep.conhashGetCacheServer (hr : Rep c r) (key : Str) :
    c.conhashGetCacheServer cbHashfunc key =
      some ((HashRing.owner r (cbHashfunc (cstr key))).getD (lit "NULL")) := by
  set h := cbHashfunc (cstr key)
  have hceil := c.conhash.vnodeTree.ceil?_mapVal h (fun v => idenAt c.heap v.node)
  rw [hr.view] at hceil
  unfold ConHash.conhashGetCacheServer conhashLookup HashRing.owner
  rw [hceil]
  cases hv : c.conhash.vnodeTree.ceil? h with
  | none => split_ifs <;> rfl
  | some e =>
    have hmem := c.conhash.vnodeTree.ceil?_mem h hv
    have hne : c.conhash.ivnodes ≠ 0 := by
      rw [hr.count, OrdMap.size, ne_eq, List.length_eq_zero_iff]
      exact List.ne_nil_of_mem hmem
    obtain ⟨a, ha⟩ := hr.live e.2 (List.mem_map_of_mem hmem)
    simp only [if_neg hne, Option.map_some, hr.owned a _ ha, idenAt, Option.getD_some]

end ConHash
end DCache.Ring
