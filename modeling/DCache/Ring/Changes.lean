import DCache.Lib.Run
import DCache.Ring.Removal

/-! Addresses that join and leave a consistent hash, in any order. A ring keeps raw pointers to the
nodes that `nodes_map` owns: they stay valid as long as no address is added that has virtual nodes
already. -/
namespace DCache.Ring
open DCache.Lib

/-- A call of `conhash_add_CacheServer` or of `conhash_del_CacheServer`. -/
inductive Change
  | add (ipPort : Str)
  | del (ipPort : Str)

def Change.ipPort : Change → Str
  | .add ipPort | .del ipPort => ipPort

/-- The ring of addresses after the call. -/
def Change.apply (points : Str → List ℤ) (r : OrdMap ℤ Str) : Change → OrdMap ℤ Str
  | .add ipPort => HashRing.add points r ipPort
  | .del ipPort => HashRing.remove points r ipPort

namespace ConHash

def change (cbHashfunc : Str → ℤ) (c : ConHash) : Change → Option (Unit × ConHash)
  | .add ipPort => (c.conhashAddCacheServer cbHashfunc ipPort).map fun c => ((), c)
  | .del ipPort => (c.conhashDelCacheServer cbHashfunc ipPort).map fun c => ((), c)

/-- An address that is added has no virtual nodes in the ring. -/
def Unused (c : ConHash) : Change → Prop
  | .add ipPort => ∀ p, c.nodesMap ipPort = some p → ∀ v ∈ c.conhash.vnodeTree.values, v.node ≠ p
  | .del _ => True

/-- Absent addresses are added, and present ones deleted. -/
def Proper (c : ConHash) : Change → Prop
  | .add ipPort => IsAddress ipPort ∧ c.nodesMap ipPort = none
  | .del ipPort => IsAddress ipPort ∧ c.nodesMap ipPort ≠ none

/-- A consistent hash that stands for a ring whose points are held by members that have them. -/
structure Models (cbHashfunc : Str → ℤ) (c : ConHash) (r : OrdMap ℤ Str) : Prop where
  rep : Rep c r
  keyed : Keyed c.conhash
  placed : HashRing.Placed (labelHashes cbHashfunc) r

section Step
variable {cbHashfunc : Str → ℤ} {c c' : ConHash} {r : OrdMap ℤ Str} {e : Change}

theorem Models.new (cbHashfunc : Str → ℤ) : Models cbHashfunc .new .empty :=
  ⟨.new, nofun, HashRing.placed_empty⟩

theorem Models.add (hm : Models cbHashfunc c r) {a : Str} (ha : IsAddress a)
    (hfree : Unused c (.add a)) : ∃ c', c.conhashAddCacheServer cbHashfunc a = some c' ∧
      Models cbHashfunc c' (HashRing.add (labelHashes cbHashfunc) r a) ∧
      ∀ b, c'.nodesMap b = if b = a then some c.heap.fresh else c.nodesMap b := by
  obtain ⟨c', hadd, hrep, hmap⟩ := hm.rep.add_of_free cbHashfunc ha hfree
  have hkeyed : Keyed c'.conhash := by
    rw [(of_conhashAddCacheServer cbHashfunc hadd).1]
    exact hm.keyed.addReplicas
  exact ⟨c', hadd, ⟨hrep, hkeyed, hm.placed.add a⟩, hmap⟩

/-- Only addresses that `nodes_map` has hold points. -/
theorem Models.exists_node (hm : Models cbHashfunc c r) {k : ℤ} {a : Str}
    (h : r.find? k = some a) : ∃ p, c.nodesMap a = some p := by
  rw [← hm.rep.view, OrdMap.find?_mapVal] at h
  obtain ⟨v, hv, hiden⟩ := Option.map_eq_some_iff.mp h
  obtain ⟨b, hb⟩ := hm.rep.live v ((OrdMap.mem_values _).mpr ⟨k, hv⟩)
  rw [idenAt, hm.rep.owned b _ hb] at hiden
  exact ⟨v.node, hiden ▸ hb⟩

theorem Models.del (hm : Models cbHashfunc c r) {a : Str} (ha : IsAddress a) :
    ∃ c', c.conhashDelCacheServer cbHashfunc a = some c' ∧
      Models cbHashfunc c' (HashRing.remove (labelHashes cbHashfunc) r a) ∧
      ∀ b, c'.nodesMap b = if b = a then none else c.nodesMap b := by
  cases hp : c.nodesMap a with
  | some p =>
    obtain ⟨c', hdel, hrep, hkeyed, hmap⟩ :=
      hm.rep.conhashDelCacheServer cbHashfunc hm.placed hm.keyed ha hp
    exact ⟨c', hdel, ⟨hrep, hkeyed, hm.placed.remove a⟩, hmap⟩
  | none =>
    have hsame : HashRing.remove (labelHashes cbHashfunc) r a = r := by
      refine OrdMap.ext_find? fun k => ?_
      rw [hm.placed.find?_remove, ite_eq_right_iff]
      intro hk
      obtain ⟨p, hnode⟩ := hm.exists_node hk
      rw [hp] at hnode
      cases hnode
    refine ⟨c, conhashDelCacheServer_of_none cbHashfunc hp, by rwa [hsame], fun b => ?_⟩
    split_ifs with hb
    · rw [hb, hp]
    · rfl

theorem Models.change (hm : Models cbHashfunc c r) (ha : IsAddress e.ipPort) (hfree : Unused c e) :
    ∃ c', c.change cbHashfunc e = some ((), c') ∧
      Models cbHashfunc c' (e.apply (labelHashes cbHashfunc) r) := by
  cases e with
  | add a =>
    change IsAddress a at ha
    obtain ⟨c', hadd, hm', -⟩ := hm.add ha hfree
    exact ⟨c', by rw [ConHash.change, hadd]; rfl, hm'⟩
  | del a =>
    change IsAddress a at ha
    obtain ⟨c', hdel, hm', -⟩ := hm.del ha
    exact ⟨c', by rw [ConHash.change, hdel]; rfl, hm'⟩

theorem Proper.unused (h : Proper c e) : Unused c e := by
  cases e with
  | add a =>
    intro p hp
    rw [h.2] at hp
    cases hp
  | del a => trivial

theorem Proper.isAddress (h : Proper c e) : IsAddress e.ipPort := by
  cases e with
  | add a => exact h.1
  | del a => exact h.1

end Step

section Ownership
variable {cbHashfunc : Str → ℤ} {c c' : ConHash} {r : OrdMap ℤ Str} {e : Change}

/-- The virtual nodes refer to nodes that `nodes_map` owns under their addresses, and a look-up reads
no released node and answers with no deleted address. -/
structure RingOwned (cbHashfunc : Str → ℤ) (c : ConHash) : Prop where
  nodes : ∀ v ∈ c.conhash.vnodeTree.values, ∃ node, c.heap.cells v.node = some node ∧
    c.nodesMap node.iden = some v.node
  lookups : ∀ key, ∃ addr, c.conhashGetCacheServer cbHashfunc key = some addr ∧
    (addr = lit "NULL" ∨ ∃ p, c.nodesMap addr = some p)

theorem Models.ringOwned (hm : Models cbHashfunc c r) : RingOwned cbHashfunc c where
  nodes v hv := by
    obtain ⟨a, ha⟩ := hm.rep.live v hv
    exact ⟨nodeFor a, hm.rep.owned a _ ha, ha⟩
  lookups key := by
    refine ⟨_, hm.rep.conhashGetCacheServer cbHashfunc key, ?_⟩
    cases ho : HashRing.owner r (cbHashfunc (cstr key)) with
    | none => exact Or.inl rfl
    | some a =>
      obtain ⟨k, hk⟩ := HashRing.exists_point_of_owner ho
      exact Or.inr (hm.exists_node hk)

/-- When an address is added that has virtual nodes, these keep the node that is released. -/
theorem not_ringOwned_of_used (hm : Models cbHashfunc c r) (hused : ¬ Unused c e)
    (h : c.change cbHashfunc e = some ((), c')) : ¬ RingOwned cbHashfunc c' := by
  cases e with
  | del a => exact absurd trivial hused
  | add a =>
    obtain ⟨c₁, hadd, ho⟩ := Option.map_eq_some_iff.mp h
    obtain ⟨-, rfl⟩ := Prod.mk.inj ho
    obtain ⟨htree, hmap⟩ := of_conhashAddCacheServer cbHashfunc hadd
    unfold Unused at hused
    push Not at hused
    obtain ⟨p, hp, v, hv, rfl⟩ := hused
    obtain ⟨k, hk⟩ := (OrdMap.mem_values _).mp hv
    intro howned
    obtain ⟨node, -, hnode⟩ := howned.nodes v
      ((OrdMap.mem_values _).mpr ⟨k, by rw [htree]; exact find?_addReplicas hk⟩)
    rw [hmap] at hnode
    split_ifs at hnode with hiden
    · have hfresh := hm.rep.owned a _ hp
      rw [← Option.some.inj hnode, Heap.cells_fresh] at hfresh
      cases hfresh
    · exact hiden (hm.rep.inj hnode hp)

theorem exists_change (cbHashfunc : Str → ℤ) (hm : Models cbHashfunc c r) (ha : IsAddress e.ipPort) :
    ∃ c', c.change cbHashfunc e = some ((), c') := by
  have howned : Owned c := ⟨fun a p hp => by rw [hm.rep.owned a p hp]; rfl, fun a b p => hm.rep.inj⟩
  cases e with
  | add a =>
    obtain ⟨c', hadd, -⟩ := howned.conhashAddCacheServer cbHashfunc a
    exact ⟨c', by rw [ConHash.change, hadd]; rfl⟩
  | del a =>
    change IsAddress a at ha
    obtain ⟨c', hdel, -⟩ := hm.del ha
    exact ⟨c', by rw [ConHash.change, hdel]; rfl⟩

/-- Changes of addresses without virtual nodes never fault. -/
theorem exists_models {es : List Change} (hal : Allowed (change cbHashfunc)
    (fun c e => IsAddress e.ipPort ∧ Unused c e) .new es) :
    ∃ us c, run (change cbHashfunc) .new es = some (us, c) ∧ ∃ r, Models cbHashfunc c r := by
  refine run_invariant (I := fun c => ∃ r, Models cbHashfunc c r) ?_ ⟨_, .new cbHashfunc⟩ hal
  rintro c e ⟨r, hm⟩ ⟨ha, hfree⟩
  obtain ⟨c', hc', hm'⟩ := hm.change ha hfree
  exact ⟨(), c', hc', _, hm'⟩

/-- In every state of a history the ring is owned, if and only if no address is ever added that has
virtual nodes in the ring. -/
theorem ring_owned_iff (cbHashfunc : Str → ℤ) (es : List Change)
    (ha : ∀ e ∈ es, IsAddress e.ipPort) :
    (∀ es₁, es₁ <+: es → ∃ us c, run (change cbHashfunc) .new es₁ = some (us, c) ∧
      RingOwned cbHashfunc c) ↔ Allowed (change cbHashfunc) Unused .new es := by
  have hiff : (∀ es₁, es₁ <+: es → ∀ us c, run (change cbHashfunc) .new es₁ = some (us, c) →
      RingOwned cbHashfunc c) ↔ Allowed (change cbHashfunc) Unused .new es := by
    refine forall_prefix_iff_allowed (I := fun c => ∃ r, Models cbHashfunc c r) ?_ ?_ ?_
      ⟨_, .new cbHashfunc⟩ ((allowed_trivial new es).and ha)
    · rintro c ⟨r, hm⟩
      exact hm.ringOwned
    · rintro c e us c' ⟨r, hm⟩ ⟨hae, -⟩ hfree hc'
      obtain ⟨c₁, hc₁, hm'⟩ := hm.change hae hfree
      obtain ⟨-, rfl⟩ := Prod.mk.inj (Option.some.inj (hc₁.symm.trans hc'))
      exact ⟨_, hm'⟩
    · rintro c e ⟨r, hm⟩ ⟨hae, -⟩ hused
      obtain ⟨c', hc'⟩ := exists_change cbHashfunc hm hae
      exact ⟨(), c', hc', not_ringOwned_of_used hm hused hc'⟩
  constructor
  · intro h
    refine hiff.mp fun es₁ hes₁ us c hrun => ?_
    obtain ⟨us', c', hrun', howned⟩ := h es₁ hes₁
    obtain ⟨-, rfl⟩ := Prod.mk.inj (Option.some.inj (hrun'.symm.trans hrun))
    exact howned
  · rintro h es₁ ⟨es₂, rfl⟩
    obtain ⟨us, c, hrun, r, hm⟩ :=
      exists_models (h.of_append.and fun e he => ha e (List.mem_append_left _ he))
    exact ⟨us, c, hrun, hm.ringOwned⟩

/-- A server that leaves and comes back. -/
theorem ring_owned_of_return :
    let es := [.add (lit "10.0.0.1:6000"), .del (lit "10.0.0.1:6000"), .add (lit "10.0.0.1:6000")]
    ∀ es₁, es₁ <+: es → ∃ us c, run (change fun _ => 0) .new es₁ = some (us, c) ∧
      RingOwned (fun _ => 0) c := by
  refine (ring_owned_iff (fun _ => 0) _ (by decide)).mpr ⟨nofun, trivial, nofun, trivial⟩

set_option maxRecDepth 4000 in
/-- A server that comes back without having left: the look-up reads the node that was released. -/
theorem not_ring_owned_added_again : ∃ us c,
    run (change fun _ => 0) .new [.add (lit "10.0.0.1:6000"), .add (lit "10.0.0.1:6000")] =
      some (us, c) ∧
    c.conhashGetCacheServer (fun _ => 0) (lit "a") = none ∧ ¬ RingOwned (fun _ => 0) c := by
  refine ⟨_, _, rfl, rfl, fun howned => ?_⟩
  obtain ⟨addr, haddr, -⟩ := howned.lookups (lit "a")
  cases haddr

end Ownership

section Disruption
variable {cbHashfunc : Str → ℤ} {c : ConHash} {r : OrdMap ℤ Str} {x : Str}

theorem Models.get_add (hm : Models cbHashfunc c r) (hx : IsAddress x) (habs : c.nodesMap x = none)
    (key : Str) : ∃ c' addr addr', c.conhashAddCacheServer cbHashfunc x = some c' ∧
      c.conhashGetCacheServer cbHashfunc key = some addr ∧
      c'.conhashGetCacheServer cbHashfunc key = some addr' ∧ (addr' = addr ∨ addr' = x) := by
  obtain ⟨c', hadd, hrep, -⟩ := hm.rep.conhashAddCacheServer cbHashfunc hx habs
  refine ⟨c', _, _, hadd, hm.rep.conhashGetCacheServer cbHashfunc key,
    hrep.conhashGetCacheServer cbHashfunc key, ?_⟩
  rcases HashRing.owner_add (labelHashes cbHashfunc) r x (cbHashfunc (cstr key)) with ho | ho
  · exact Or.inl (by rw [ho])
  · exact Or.inr (by rw [ho]; rfl)

theorem Models.get_del (hm : Models cbHashfunc c r) (hx : IsAddress x) (key : Str) :
    ∃ c' addr, c.conhashDelCacheServer cbHashfunc x = some c' ∧
      c.conhashGetCacheServer cbHashfunc key = some addr ∧
      (addr ≠ x → c'.conhashGetCacheServer cbHashfunc key = some addr) := by
  obtain ⟨c', hdel, hm', -⟩ := hm.del hx
  refine ⟨c', _, hdel, hm.rep.conhashGetCacheServer cbHashfunc key, fun hne => ?_⟩
  rw [hm'.rep.conhashGetCacheServer, HashRing.owner_remove hm.placed]
  intro ho
  rw [ho] at hne
  exact hne rfl

/-- An address that joins takes keys for itself only, and one that leaves gives up its own only. -/
theorem minimal_disruption (cbHashfunc : Str → ℤ) {es : List Change}
    (ha : Allowed (change cbHashfunc) Proper .new es) :
    ∃ us c, run (change cbHashfunc) .new es = some (us, c) ∧ ∀ x, IsAddress x → ∀ key,
      (c.nodesMap x = none → ∃ c' addr addr', c.conhashAddCacheServer cbHashfunc x = some c' ∧
        c.conhashGetCacheServer cbHashfunc key = some addr ∧
        c'.conhashGetCacheServer cbHashfunc key = some addr' ∧ (addr' = addr ∨ addr' = x)) ∧
      (c.nodesMap x ≠ none → ∃ c' addr, c.conhashDelCacheServer cbHashfunc x = some c' ∧
        c.conhashGetCacheServer cbHashfunc key = some addr ∧
        (addr ≠ x → c'.conhashGetCacheServer cbHashfunc key = some addr)) := by
  obtain ⟨us, c, hrun, r, hm⟩ := exists_models (ha.mono fun c e he => ⟨he.isAddress, he.unused⟩)
  refine ⟨us, c, hrun, fun x hx key => ⟨fun habs => hm.get_add hx habs key, fun _ => ?_⟩⟩
  exact hm.get_del hx key

/-- The second of two servers leaves. -/
theorem minimal_disruption_of_two :
    let es := [Change.add (lit "10.0.0.1:6000"), .add (lit "10.0.0.2:6000")]
    ∃ us c, run (change fun s => s.length) .new es = some (us, c) ∧
      ∃ c' addr, c.conhashDelCacheServer (fun s => s.length) (lit "10.0.0.2:6000") = some c' ∧
        c.conhashGetCacheServer (fun s => s.length) (lit "a") = some addr ∧
        (addr ≠ lit "10.0.0.2:6000" →
          c'.conhashGetCacheServer (fun s => s.length) (lit "a") = some addr) := by
  have ha : Allowed (change fun s => s.length) Proper .new
      [.add (lit "10.0.0.1:6000"), .add (lit "10.0.0.2:6000")] :=
    ⟨⟨by decide, rfl⟩, ⟨by decide, rfl⟩, trivial⟩
  obtain ⟨us, c, hrun, hc⟩ := minimal_disruption (fun s => s.length) ha
  have hpresent : c.nodesMap (lit "10.0.0.2:6000") ≠ none := by
    obtain ⟨-, rfl⟩ := Prod.mk.inj (Option.some.inj hrun)
    exact nofun
  exact ⟨us, c, hrun, (hc _ (by decide) (lit "a")).2 hpresent⟩

end Disruption
end ConHash
end DCache.Ring
