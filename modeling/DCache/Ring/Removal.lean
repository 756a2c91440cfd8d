import DCache.Ring.Refinement

/-! An address leaves the ring: its virtual nodes go, and then its node is released. -/
namespace DCache.Ring
open DCache.Lib

/-- A virtual node stands under its own hash. -/
def Keyed (c : ConHashS) : Prop := ∀ h v, c.vnodeTree.find? h = some v → v.hash = h

section Replicas
variable {cbHashfunc : Str → ℤ} {p : ℕ} {node : NodeS} {c : ConHashS}

private theorem keyed_addReplica (hc : Keyed c) (i : ℕ) :
    Keyed (addReplica cbHashfunc p node c i) := by
  intro h v hv
  unfold addReplica at hv
  cases hf : c.vnodeTree.find? (cbHashfunc (node2string node i)) with
  | some w =>
    simp only [hf] at hv
    exact hc h v hv
  | none =>
    simp only [hf, OrdMap.find?_insert] at hv
    split_ifs at hv with hh
    · rw [← Option.some.inj hv, hh]
    · exact hc h v hv

theorem Keyed.addReplicas (hc : Keyed c) : Keyed (addReplicas cbHashfunc c p node) := by
  unfold Ring.addReplicas
  generalize List.range node.replicas = is
  induction is generalizing c with
  | nil => exact hc
  | cons i is ih => exact ih (keyed_addReplica hc i)

/-- A virtual node that stands in the ring stays there when others are added. -/
theorem find?_addReplicas {h : ℤ} {v : VirtualNode} (hv : c.vnodeTree.find? h = some v) :
    (addReplicas cbHashfunc c p node).vnodeTree.find? h = some v := by
  unfold addReplicas
  generalize List.range node.replicas = is
  induction is generalizing c with
  | nil => exact hv
  | cons i is ih =>
    apply ih
    unfold addReplica
    cases hf : c.vnodeTree.find? (cbHashfunc (node2string node i)) with
    | some w => simpa only [hf] using hv
    | none =>
      simp only [hf, OrdMap.find?_insert]
      rw [if_neg, hv]
      rintro rfl
      rw [hv] at hf
      cases hf

/-- All that the removal of one replica does. -/
private theorem delReplica_cases (hc : Keyed c) (i : ℕ) :
    (delReplica cbHashfunc p node c i = c ∧
      ∀ v, c.vnodeTree.find? (cbHashfunc (node2string node i)) = some v → v.node ≠ p) ∨
    ∃ v, c.vnodeTree.find? (cbHashfunc (node2string node i)) = some v ∧ v.node = p ∧
      delReplica cbHashfunc p node c i =
        ⟨c.vnodeTree.erase (cbHashfunc (node2string node i)), c.ivnodes - 1⟩ := by
  unfold delReplica
  cases hf : c.vnodeTree.find? (cbHashfunc (node2string node i)) with
  | none => exact Or.inl ⟨by simp only [hf], nofun⟩
  | some v =>
    have hhash : v.hash = cbHashfunc (node2string node i) := hc _ v hf
    by_cases hp : v.node = p
    · exact Or.inr ⟨v, rfl, hp, by simp only [hf, hhash, hp, and_self, if_true]⟩
    · refine Or.inl ⟨by simp only [hf, hp, and_false, if_false], fun w hw => ?_⟩
      rwa [← Option.some.inj hw]

private theorem mem_values_erase {m : OrdMap ℤ VirtualNode} {h : ℤ} {v : VirtualNode}
    (hv : v ∈ (m.erase h).values) : v ∈ m.values := by
  obtain ⟨k, hk⟩ := (OrdMap.mem_values _).mp hv
  rw [OrdMap.find?_erase] at hk
  split_ifs at hk
  exact m.mem_values.mpr ⟨k, hk⟩

variable (cbHashfunc) in
/-- The replicas of a node give up their points on the ring. -/
theorem delReplicas_spec {f : VirtualNode → Str} {a : Str} (ha : IsAddress a)
    (hp : ∀ v ∈ c.vnodeTree.values, f v = a ↔ v.node = p) (hkeyed : Keyed c)
    (hcount : c.ivnodes = c.vnodeTree.size) :
    let c' := delReplicas cbHashfunc c p (nodeFor a)
    c'.vnodeTree.mapVal f = HashRing.remove (labelHashes cbHashfunc) (c.vnodeTree.mapVal f) a ∧
      (∀ v ∈ c'.vnodeTree.values, v ∈ c.vnodeTree.values) ∧ Keyed c' ∧
      c'.ivnodes = c'.vnodeTree.size := by
  have key : ∀ (is : List ℕ) (c : ConHashS), (∀ i ∈ is, i < 1000) →
      (∀ v ∈ c.vnodeTree.values, f v = a ↔ v.node = p) → Keyed c →
      c.ivnodes = c.vnodeTree.size →
      let c' := is.foldl (delReplica cbHashfunc p (nodeFor a)) c
      c'.vnodeTree.mapVal f = (is.map (fun i => cbHashfunc (label a i))).foldl
          (HashRing.removePoint a) (c.vnodeTree.mapVal f) ∧
        (∀ v ∈ c'.vnodeTree.values, v ∈ c.vnodeTree.values) ∧ Keyed c' ∧
        c'.ivnodes = c'.vnodeTree.size := by
    intro is
    induction is with
    | nil => exact fun c _ _ hk hn => ⟨rfl, fun v hv => hv, hk, hn⟩
    | cons i is ih =>
      intro c his hp hk hn
      have hlabel : node2string (nodeFor a) i = label a i :=
        node2string_eq ha _ _ (his i List.mem_cons_self)
      have hrest : ∀ j ∈ is, j < 1000 := fun j hj => his j (List.mem_cons_of_mem _ hj)
      rw [List.foldl_cons, List.map_cons, List.foldl_cons]
      rcases delReplica_cases hk i with
        ⟨hsame, hother⟩ | ⟨v, hv, hvp, herase⟩
      · have hpoint : HashRing.removePoint a (c.vnodeTree.mapVal f) (cbHashfunc (label a i)) =
            c.vnodeTree.mapVal f := by
          rw [HashRing.removePoint, OrdMap.find?_mapVal, if_neg]
          intro hf
          obtain ⟨v, hv, hva⟩ := Option.map_eq_some_iff.mp hf
          have hmem : v ∈ c.vnodeTree.values := c.vnodeTree.mem_values.mpr ⟨_, hv⟩
          rw [hlabel] at hother
          exact hother v hv ((hp v hmem).mp hva)
        rw [hsame, hpoint]
        exact ih c hrest hp hk hn
      · have hmem : v ∈ c.vnodeTree.values := c.vnodeTree.mem_values.mpr ⟨_, hv⟩
        rw [hlabel] at hv herase
        have hpoint : HashRing.removePoint a (c.vnodeTree.mapVal f) (cbHashfunc (label a i)) =
            (c.vnodeTree.erase (cbHashfunc (label a i))).mapVal f := by
          rw [HashRing.removePoint, OrdMap.find?_mapVal, hv, Option.map_some,
            (hp v hmem).mpr hvp, if_pos rfl, OrdMap.mapVal_erase]
        have hkeep : Keyed ⟨c.vnodeTree.erase (cbHashfunc (label a i)), c.ivnodes - 1⟩ := by
          intro h w hw
          rw [OrdMap.find?_erase] at hw
          split_ifs at hw
          exact hk h w hw
        obtain ⟨hview, hvals, hkeyed, hcount⟩ := ih _ hrest
          (fun w hw => hp w (mem_values_erase hw)) hkeep
          (by rw [hn, c.vnodeTree.size_erase_of_some hv])
        rw [herase, hpoint]
        exact ⟨hview, fun w hw => mem_values_erase (hvals w hw), hkeyed, hcount⟩
  exact key (List.range numReplicas) c (fun i hi => by
    have := List.mem_range.mp hi
    unfold numReplicas at this
    omega) hp hkeyed hcount

end Replicas

namespace ConHash
variable {c : ConHash} {r : OrdMap ℤ Str}

/-- The points of a ring that are held by an address belong to its node. -/
theorem Rep.iden_iff (hr : Rep c r) {a : Str} {p : ℕ} (hp : c.nodesMap a = some p)
    {v : VirtualNode} (hv : v ∈ c.conhash.vnodeTree.values) :
    idenAt c.heap v.node = a ↔ v.node = p := by
  obtain ⟨b, hb⟩ := hr.live v hv
  have hiden : idenAt c.heap v.node = b := by
    rw [idenAt, hr.owned b _ hb]
    rfl
  rw [hiden]
  constructor
  · rintro rfl
    exact Option.some.inj (hb.symm.trans hp)
  · intro hvp
    rw [hvp] at hb
    exact hr.inj hb hp

/-- A deletion is the removal of the virtual nodes, and then of the node. -/
private theorem del_eq (cbHashfunc : Str → ℤ) (hr : Rep c r) {a : Str} {p : ℕ}
    (hp : c.nodesMap a = some p) : ∃ h : Heap NodeS,
    (∀ q, h.cells q = if q = p then none else c.heap.cells q) ∧
    c.conhashDelCacheServer cbHashfunc a =
      some ⟨delReplicas cbHashfunc c.conhash p (nodeFor a),
        fun b => if b = a then none else c.nodesMap b, h⟩ := by
  let h₁ := c.heap.update p (fun n => { n with flag := n.flag &&& ~~~nodeFlagIn })
  have hnode : c.heap.cells p = some (nodeFor a) := hr.owned a p hp
  have hlive : (c.heap.cells p).isSome = true := by
    rw [hnode]
    rfl
  have hm : c.heap.modify p (fun n => { n with flag := n.flag &&& ~~~nodeFlagIn }) = some h₁ :=
    Heap.modify_of_isSome hlive _
  have hf : h₁.free p = some (h₁.erase p) := Heap.free_of_isSome (by simp [h₁, hnode])
  have hflag : ¬ ((nodeFor a).flag &&& nodeFlagInit = 0 ∨ (nodeFor a).flag &&& nodeFlagIn = 0) := by
    change ¬ ((nodeFlagInit ||| nodeFlagIn) &&& nodeFlagInit = 0 ∨
      (nodeFlagInit ||| nodeFlagIn) &&& nodeFlagIn = 0)
    decide
  have hdel : conhashDelNode cbHashfunc c.conhash c.heap p =
      some (0, delReplicas cbHashfunc c.conhash p (nodeFor a), h₁) := by
    simp only [conhashDelNode, hnode, hm, hflag, if_false, Option.bind_eq_bind, Option.bind_some]
  refine ⟨h₁.erase p, fun q => ?_, ?_⟩
  · rw [Heap.cells_erase]
    by_cases hq : q = p
    · rw [if_pos hq, if_pos hq]
    · rw [if_neg hq, if_neg hq, Heap.cells_update, if_neg hq]
  · simp only [conhashDelCacheServer, hp, hdel, hf, Option.bind_eq_bind, Option.bind_some]

/-- An address leaves the ring. -/
theorem Rep.conhashDelCacheServer (cbHashfunc : Str → ℤ) (hr : Rep c r)
    (hplaced : HashRing.Placed (labelHashes cbHashfunc) r) (hkeyed : Keyed c.conhash) {a : Str}
    (ha : IsAddress a) {p : ℕ} (hp : c.nodesMap a = some p) :
    ∃ c', c.conhashDelCacheServer cbHashfunc a = some c' ∧
      Rep c' (HashRing.remove (labelHashes cbHashfunc) r a) ∧ Keyed c'.conhash ∧
      ∀ b, c'.nodesMap b = if b = a then none else c.nodesMap b := by
  obtain ⟨h, hcells, hdel⟩ := del_eq cbHashfunc hr hp
  obtain ⟨hview, hvals, hkeyed', hcount⟩ := delReplicas_spec cbHashfunc
    ha (fun v hv => hr.iden_iff hp hv) hkeyed hr.count
  rw [hr.view] at hview
  -- no virtual node of the address is left
  have hgone : ∀ v ∈ (delReplicas cbHashfunc c.conhash p (nodeFor a)).vnodeTree.values,
      v.node ≠ p := by
    intro v hv hvp
    have hiden := (hr.iden_iff hp (hvals v hv)).mpr hvp
    obtain ⟨k, hk⟩ := (OrdMap.mem_values _).mp hv
    have hk' : (HashRing.remove (labelHashes cbHashfunc) r a).find? k = some a := by
      rw [← hview, OrdMap.find?_mapVal, hk, Option.map_some, hiden]
    rw [hplaced.find?_remove] at hk'
    split_ifs at hk' with hka
    exact hka hk'
  refine ⟨_, hdel, ⟨fun b q hb => ?_, fun v hv => ?_, ?_, hcount⟩, ?_, fun b => rfl⟩
  · dsimp only at hb ⊢
    split_ifs at hb with hba
    have hqp : q ≠ p := fun hq => hba (hr.inj hb (hq ▸ hp))
    rw [hcells, if_neg hqp, hr.owned b q hb]
  · dsimp only at hv ⊢
    obtain ⟨b, hb⟩ := hr.live v (hvals v hv)
    refine ⟨b, ?_⟩
    rw [if_neg, hb]
    rintro rfl
    exact hgone v hv (Option.some.inj (hb.symm.trans hp))
  · rw [← hview]
    refine OrdMap.mapVal_congr _ fun v hv => ?_
    simp only [idenAt, hcells, if_neg (hgone v hv)]
  · dsimp only
    exact hkeyed'

theorem conhashDelCacheServer_of_none (cbHashfunc : Str → ℤ) {a : Str} (h : c.nodesMap a = none) :
    c.conhashDelCacheServer cbHashfunc a = some c := by
  simp only [ConHash.conhashDelCacheServer, h]

end ConHash
end DCache.Ring
