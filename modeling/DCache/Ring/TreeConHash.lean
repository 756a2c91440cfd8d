import Mathlib.Order.Lattice.Nat
import DCache.Ring.RbMap
import DCache.Ring.Removal

/-! The consistent hash over the red-black tree of `util_rbtree.c`, as the repository has it, and
that it answers like the one over an ordered map. -/
namespace DCache.Ring
open DCache.Lib

instance : Inhabited VirtualNode := ⟨⟨0, 0⟩⟩

namespace Tree

structure ConHashS where
  vnodeTree : RbTree VirtualNode
  ivnodes : ℕ

structure ConHash where
  conhash : ConHashS
  nodesMap : Str → Option ℕ
  heap : Heap NodeS

/-- `__conhash_get_rbnode`, with the virtual node inside. An insertion sets the other fields. -/
def getRbnode (node : ℕ) (hash : ℤ) : TreeCell (RbItem VirtualNode) :=
  ⟨⟨hash, ⟨hash, node⟩⟩, .black, nullPtr, nullPtr, nullPtr⟩

variable (cbHashfunc : Str → ℤ) (malloc : RbMem VirtualNode → ℕ)

def addReplica (p : ℕ) (node : NodeS) (c : ConHashS) (i : ℕ) : Option ConHashS := do
  let hash := cbHashfunc (node2string node i)
  match ← c.vnodeTree.search hash with
  | none =>
    let vnodeTree ← c.vnodeTree.put (malloc c.vnodeTree.memory) (getRbnode p hash)
    some ⟨vnodeTree, c.ivnodes + 1⟩
  | some _ => some c

def addReplicas (c : ConHashS) (p : ℕ) (node : NodeS) : Option ConHashS :=
  (List.range node.replicas).foldlM (addReplica cbHashfunc malloc p node) c

def delReplica (p : ℕ) (node : NodeS) (c : ConHashS) (i : ℕ) : Option ConHashS := do
  let hash := cbHashfunc (node2string node i)
  match ← c.vnodeTree.search hash with
  | none => some c
  | some rbnode =>
    let vnode := (← c.vnodeTree.memory.data? rbnode).data
    if vnode.hash = hash ∧ vnode.node = p then
      some ⟨← c.vnodeTree.remove rbnode, c.ivnodes - 1⟩
    else some c

def delReplicas (c : ConHashS) (p : ℕ) (node : NodeS) : Option ConHashS :=
  (List.range node.replicas).foldlM (delReplica cbHashfunc p node) c

def conhashAddNode (c : ConHashS) (heap : Heap NodeS) (p : ℕ) :
    Option (ℤ × ConHashS × Heap NodeS) := do
  let node ← heap.cells p
  if node.flag &&& nodeFlagInit = 0 ∨ node.flag &&& nodeFlagIn ≠ 0 then some (-1, c, heap)
  else do
    let heap ← heap.modify p (fun n => { n with flag := n.flag ||| nodeFlagIn })
    some (0, ← addReplicas cbHashfunc malloc c p node, heap)

def conhashDelNode (c : ConHashS) (heap : Heap NodeS) (p : ℕ) :
    Option (ℤ × ConHashS × Heap NodeS) := do
  let node ← heap.cells p
  if node.flag &&& nodeFlagInit = 0 ∨ node.flag &&& nodeFlagIn = 0 then some (-1, c, heap)
  else do
    let heap ← heap.modify p (fun n => { n with flag := n.flag &&& ~~~nodeFlagIn })
    some (0, ← delReplicas cbHashfunc c p node, heap)

/-- `NULL` is `none` inside. -/
def conhashLookup (c : ConHashS) (object : Str) : Option (Option ℕ) :=
  if c.ivnodes = 0 then some none
  else do
    match ← c.vnodeTree.lookup (cbHashfunc object) with
    | none => some none
    | some rbnode => some (some (← c.vnodeTree.memory.data? rbnode).data.node)

/-- `__get_vnodes`; `cur` is the length of `values`. -/
def getVnode (c : ConHashS) (size : ℕ) (node : ℕ) (values : List ℤ) : Option (List ℤ) :=
  if values.length < size then do
    some (values ++ [(← c.vnodeTree.memory.data? node).key])
  else some values

/-- What is written to `values`. -/
def conhashGetVnodes (c : ConHashS) (size : ℕ) : Option (List ℤ) :=
  if size = 0 then some [] else c.vnodeTree.midTravel (getVnode c size) []

/-- One round of the loop of `conhash_fini`. The state is the tree, and the nodes that are released. -/
def finiRound (x : RbTree VirtualNode × List ℕ) : Option (RbTree VirtualNode × List ℕ) := do
  let rbnode := x.1.root
  some (← x.1.remove rbnode, x.2 ++ [rbnode])

def conhashFini (c : ConHashS) : Option (RbTree VirtualNode × List ℕ) :=
  whileLoop (fun x => some !x.1.isempty) finiRound c.vnodeTree.size (c.vnodeTree, [])

namespace ConHash

def new : ConHash := ⟨⟨.init, 0⟩, fun _ => none, .empty⟩

def conhashAddCacheServer (c : ConHash) (ipPort : Str) : Option ConHash := do
  let p := c.heap.fresh
  let heap ← (c.heap.alloc ⟨[], 0, 0⟩).modify p (conhashSetNode (cstr ipPort) numReplicas)
  let (_, conhash, heap) ← conhashAddNode cbHashfunc malloc c.conhash heap p
  let heap ← match c.nodesMap ipPort with
    | none => some heap
    | some old => heap.free old
  some ⟨conhash, fun a => if a = ipPort then some p else c.nodesMap a, heap⟩

def conhashDelCacheServer (c : ConHash) (ipPort : Str) : Option ConHash :=
  match c.nodesMap ipPort with
  | none => some c
  | some p => do
    let (_, conhash, heap) ← conhashDelNode cbHashfunc c.conhash c.heap p
    let heap ← heap.free p
    some ⟨conhash, fun a => if a = ipPort then none else c.nodesMap a, heap⟩

def conhashGetCacheServer (c : ConHash) (key : Str) : Option Str := do
  match ← conhashLookup cbHashfunc c.conhash (cstr key) with
  | none => some (lit "NULL")
  | some p => (c.heap.cells p).map NodeS.iden

end ConHash
end Tree

/-- The calls of the class, and of the functions that report on the virtual nodes. -/
inductive RingCall
  | add (ipPort : Str)
  | del (ipPort : Str)
  | get (key : Str)
  | vnodes (size : ℕ)
  | vnodesNum

inductive RingAnswer
  | done
  | server (ipPort : Str)
  | hashes (values : List ℤ)
  | count (n : ℕ)
deriving DecidableEq

namespace Tree.ConHash

def call (cbHashfunc : Str → ℤ) (malloc : RbMem VirtualNode → ℕ) (c : ConHash) :
    RingCall → Option (RingAnswer × ConHash)
  | .add ipPort => (c.conhashAddCacheServer cbHashfunc malloc ipPort).map fun c => (.done, c)
  | .del ipPort => (c.conhashDelCacheServer cbHashfunc ipPort).map fun c => (.done, c)
  | .get key => (c.conhashGetCacheServer cbHashfunc key).map fun s => (.server s, c)
  | .vnodes size => (conhashGetVnodes c.conhash size).map fun vs => (.hashes vs, c)
  | .vnodesNum => some (.count c.conhash.ivnodes, c)

end Tree.ConHash

namespace ConHash

/-- The same calls where the virtual nodes are an ordered map. -/
def call (cbHashfunc : Str → ℤ) (c : ConHash) : RingCall → Option (RingAnswer × ConHash)
  | .add ipPort => (c.conhashAddCacheServer cbHashfunc ipPort).map fun c => (.done, c)
  | .del ipPort => (c.conhashDelCacheServer cbHashfunc ipPort).map fun c => (.done, c)
  | .get key => (c.conhashGetCacheServer cbHashfunc key).map fun s => (.server s, c)
  | .vnodes size => some (.hashes ((c.conhash.vnodeTree.entries.map Prod.fst).take size), c)
  | .vnodesNum => some (.count c.conhash.vnodeTree.size, c)

/-- A deletion that takes virtual nodes away does not leave one alone. -/
def LeavesNotOne (cbHashfunc : Str → ℤ) (c : ConHash) : RingCall → Prop
  | .del ipPort => (c.conhashDelCacheServer cbHashfunc ipPort).map
      (fun c => c.conhash.vnodeTree.size) = some 1 → c.conhash.vnodeTree.size = 1
  | _ => True

end ConHash

instance (cbHashfunc : Str → ℤ) (c : ConHash) :
    (e : RingCall) → Decidable (c.LeavesNotOne cbHashfunc e)
  | .del _ => inferInstanceAs (Decidable (_ → _))
  | .add _ | .get _ | .vnodes _ | .vnodesNum => isTrue trivial

namespace Tree
open RbTree
variable {cbHashfunc : Str → ℤ} {malloc : RbMem VirtualNode → ℕ}

/-- What is allocated is not in use. -/
def Mallocs (malloc : RbMem VirtualNode → ℕ) : Prop :=
  ∀ (t : RbTree VirtualNode) l, Stores t l → t.memory (malloc t.memory) = none ∧
    malloc t.memory ≠ nullPtr

/-- The tree holds the virtual nodes of the map, and both count them. -/
structure Follows (c : ConHashS) (c' : Ring.ConHashS) : Prop where
  tracks : ∃ addr, Tracks addr c.vnodeTree c'.vnodeTree
  ivnodes : c.ivnodes = c'.ivnodes
  count : c'.ivnodes = c'.vnodeTree.size

/-- A tree of `n` nodes while some are taken away: its root is in place, or one node is left of more. -/
def Shrinks (n : ℕ) (t : RbTree VirtualNode) : Prop := (Rooted t ∨ t.size = 1 ∧ 1 < n) ∧ t.size ≤ n

section Replicas
variable (cbHashfunc) {c : ConHashS} {c' : Ring.ConHashS} (p : ℕ) (node : NodeS)

theorem addReplica_follows (hm : Mallocs malloc) (h : Follows c c') (hr : Rooted c.vnodeTree)
    (i : ℕ) : ∃ c₁, addReplica cbHashfunc malloc p node c i = some c₁ ∧
      Follows c₁ (Ring.addReplica cbHashfunc p node c' i) ∧ Rooted c₁.vnodeTree := by
  obtain ⟨⟨addr, ht⟩, hiv, hcount⟩ := h
  have hsearch := ht.search (cbHashfunc (node2string node i))
  set hash := cbHashfunc (node2string node i) with hhash
  cases hv : c'.vnodeTree.find? hash with
  | some v =>
    have hsame : Ring.addReplica cbHashfunc p node c' i = c' := by
      simp [Ring.addReplica, ← hhash, hv]
    rw [hv] at hsearch
    rw [hsame]
    exact ⟨c, by simp [addReplica, ← hhash, hsearch], ⟨⟨addr, ht⟩, hiv, hcount⟩, hr⟩
  | none =>
    have hnew : Ring.addReplica cbHashfunc p node c' i =
        ⟨c'.vnodeTree.insert hash ⟨hash, p⟩, c'.ivnodes + 1⟩ := by
      simp only [Ring.addReplica, ← hhash, hv]
    rw [hv] at hsearch
    rw [hnew]
    obtain ⟨hfree, hzero⟩ := hm _ _ ht.stores
    obtain ⟨t', ht', hr', htracks⟩ := ht.put (n := getRbnode p hash) hr hv hfree hzero rfl
    refine ⟨⟨t', c.ivnodes + 1⟩, by simp [addReplica, ← hhash, hsearch, ht'],
      ⟨⟨_, htracks⟩, ?_, ?_⟩, hr'⟩
    · rw [hiv]
    · rw [hcount, c'.vnodeTree.size_insert_of_none _ hv]

theorem delReplica_follows (h : Follows c c') {n : ℕ} (hr : Shrinks n c.vnodeTree) (i : ℕ) :
    ∃ c₁, delReplica cbHashfunc p node c i = some c₁ ∧
      Follows c₁ (Ring.delReplica cbHashfunc p node c' i) ∧ Shrinks n c₁.vnodeTree := by
  obtain ⟨⟨addr, ht⟩, hiv, hcount⟩ := h
  have hsearch := ht.search (cbHashfunc (node2string node i))
  cases hv : c'.vnodeTree.find? (cbHashfunc (node2string node i)) with
  | none =>
    have hsame : Ring.delReplica cbHashfunc p node c' i = c' := by simp [Ring.delReplica, hv]
    rw [hv] at hsearch
    rw [hsame]
    exact ⟨c, by simp [delReplica, hsearch], ⟨⟨addr, ht⟩, hiv, hcount⟩, hr⟩
  | some v =>
    rw [hv] at hsearch
    have hdata := ht.data _ v hv
    by_cases hown : v.hash = cbHashfunc (node2string node i) ∧ v.node = p
    · have hdel : Ring.delReplica cbHashfunc p node c' i =
          ⟨c'.vnodeTree.erase (cbHashfunc (node2string node i)), c'.ivnodes - 1⟩ := by
        simp only [Ring.delReplica, hv, hown, and_self, if_true]
      obtain ⟨t', ht', htracks, hr'⟩ := ht.remove hv
      have hpos : 0 < c'.vnodeTree.size :=
        List.length_pos_of_mem (c'.vnodeTree.mem_entries.mpr hv)
      have hlt : t'.size < c.vnodeTree.size := by
        rw [htracks.size, c'.vnodeTree.size_erase_of_some hv, ht.size]
        omega
      have hshrinks : Shrinks n t' := by
        refine ⟨(hr' (hr.1.imp_right And.left)).imp_right fun hone => ⟨hone, ?_⟩, ?_⟩
        · have := hr.2
          omega
        · exact hlt.le.trans hr.2
      rw [hdel]
      refine ⟨⟨t', c.ivnodes - 1⟩, by simp [delReplica, hsearch, hdata, hown, ht'],
        ⟨⟨addr, htracks⟩, ?_, ?_⟩, hshrinks⟩
      · rw [hiv]
      · rw [hcount, c'.vnodeTree.size_erase_of_some hv]
    · have hsame : Ring.delReplica cbHashfunc p node c' i = c' := by
        simp only [Ring.delReplica, hv, hown, if_false]
      rw [hsame]
      exact ⟨c, by simp [delReplica, hsearch, hdata, hown], ⟨⟨addr, ht⟩, hiv, hcount⟩, hr⟩

end Replicas

section Calls
variable {c : ConHashS} {c' : Ring.ConHashS}

section Nodes
variable (cbHashfunc) (heap : Heap NodeS) (p : ℕ)

theorem conhashAddNode_follows (hm : Mallocs malloc) (h : Follows c c') (hr : Rooted c.vnodeTree) :
    conhashAddNode cbHashfunc malloc c heap p = none ∧
        Ring.conhashAddNode cbHashfunc c' heap p = none ∨
      ∃ r c₁ c₁' heap', conhashAddNode cbHashfunc malloc c heap p = some (r, c₁, heap') ∧
        Ring.conhashAddNode cbHashfunc c' heap p = some (r, c₁', heap') ∧ Follows c₁ c₁' ∧
          Rooted c₁.vnodeTree := by
  cases hnode : heap.cells p with
  | none => exact Or.inl ⟨by simp [conhashAddNode, hnode], by simp [Ring.conhashAddNode, hnode]⟩
  | some node =>
    right
    by_cases hflag : node.flag &&& nodeFlagInit = 0 ∨ node.flag &&& nodeFlagIn ≠ 0
    · exact ⟨-1, c, c', heap,
        by simp only [conhashAddNode, hnode, hflag, if_true, Option.bind_eq_bind, Option.bind_some],
        by simp only [Ring.conhashAddNode, hnode, hflag, if_true, Option.bind_eq_bind,
          Option.bind_some], h, hr⟩
    · obtain ⟨c₁, hc₁, h₁, hr₁⟩ := foldlM_follows
        (R := fun c (c' : Ring.ConHashS) => Follows c c' ∧ Rooted c.vnodeTree)
        (fun _ _ i hR => addReplica_follows cbHashfunc p node hm hR.1 hR.2 i)
        (List.range node.replicas) ⟨h, hr⟩
      obtain ⟨heap', hmodify⟩ : ∃ heap',
          heap.modify p (fun n => { n with flag := n.flag ||| nodeFlagIn }) = some heap' :=
        ⟨_, Heap.modify_of_isSome (by rw [hnode]; rfl) _⟩
      have hc₁ : addReplicas cbHashfunc malloc c p node = some c₁ := hc₁
      refine ⟨0, c₁, Ring.addReplicas cbHashfunc c' p node, heap', ?_, ?_, h₁, hr₁⟩
      · simp only [conhashAddNode, hnode, hflag, hmodify, hc₁, if_false, Option.bind_eq_bind,
          Option.bind_some]
      · simp only [Ring.conhashAddNode, hnode, hflag, hmodify, if_false, Option.bind_eq_bind,
          Option.bind_some]

theorem conhashDelNode_follows (h : Follows c c') (hr : Rooted c.vnodeTree) :
    conhashDelNode cbHashfunc c heap p = none ∧ Ring.conhashDelNode cbHashfunc c' heap p = none ∨
      ∃ r c₁ c₁' heap', conhashDelNode cbHashfunc c heap p = some (r, c₁, heap') ∧
        Ring.conhashDelNode cbHashfunc c' heap p = some (r, c₁', heap') ∧ Follows c₁ c₁' ∧
          (Rooted c₁.vnodeTree ∨ c₁.vnodeTree.size = 1 ∧ 1 < c.vnodeTree.size) := by
  cases hnode : heap.cells p with
  | none => exact Or.inl ⟨by simp [conhashDelNode, hnode], by simp [Ring.conhashDelNode, hnode]⟩
  | some node =>
    right
    by_cases hflag : node.flag &&& nodeFlagInit = 0 ∨ node.flag &&& nodeFlagIn = 0
    · exact ⟨-1, c, c', heap,
        by simp only [conhashDelNode, hnode, hflag, if_true, Option.bind_eq_bind, Option.bind_some],
        by simp only [Ring.conhashDelNode, hnode, hflag, if_true, Option.bind_eq_bind,
          Option.bind_some], h, Or.inl hr⟩
    · obtain ⟨c₁, hc₁, h₁, hr₁⟩ := foldlM_follows
        (R := fun c₁ (c₁' : Ring.ConHashS) =>
          Follows c₁ c₁' ∧ Shrinks c.vnodeTree.size c₁.vnodeTree)
        (fun _ _ i hR => delReplica_follows cbHashfunc p node hR.1 hR.2 i)
        (List.range node.replicas) ⟨h, Or.inl hr, le_rfl⟩
      obtain ⟨heap', hmodify⟩ : ∃ heap',
          heap.modify p (fun n => { n with flag := n.flag &&& ~~~nodeFlagIn }) = some heap' :=
        ⟨_, Heap.modify_of_isSome (by rw [hnode]; rfl) _⟩
      have hc₁ : delReplicas cbHashfunc c p node = some c₁ := hc₁
      refine ⟨0, c₁, Ring.delReplicas cbHashfunc c' p node, heap', ?_, ?_, h₁, hr₁.1⟩
      · simp only [conhashDelNode, hnode, hflag, hmodify, hc₁, if_false, Option.bind_eq_bind,
          Option.bind_some]
      · simp only [Ring.conhashDelNode, hnode, hflag, hmodify, if_false, Option.bind_eq_bind,
          Option.bind_some]

end Nodes

theorem conhashLookup_follows (h : Follows c c') (object : Str) :
    conhashLookup cbHashfunc c object = some (Ring.conhashLookup cbHashfunc c' object) := by
  obtain ⟨⟨addr, ht⟩, hiv, -⟩ := h
  rw [conhashLookup, Ring.conhashLookup, hiv]
  split_ifs
  · rfl
  · rw [ht.lookup]
    cases he : c'.vnodeTree.ceil? (cbHashfunc object) with
    | none => rfl
    | some e =>
      have hdata := ht.data e.1 e.2 (c'.vnodeTree.mem_entries.mp (c'.vnodeTree.ceil?_mem _ he))
      simp [hdata]

/-- The array gets the first hashes in order. -/
theorem conhashGetVnodes_follows (h : Follows c c') (size : ℕ) :
    conhashGetVnodes c size = some ((c'.vnodeTree.entries.map Prod.fst).take size) := by
  obtain ⟨⟨addr, ht⟩, -, -⟩ := h
  have hfold : ∀ (l : List (ℤ × VirtualNode)) (values : List ℤ), (∀ e ∈ l, e ∈ c'.vnodeTree.entries) →
      values.length ≤ size → l.foldlM (fun d e => getVnode c size (addr e.1) d) values =
        some (values ++ (l.map Prod.fst).take (size - values.length)) := by
    intro l
    induction l with
    | nil =>
      intro values _ _
      simp
    | cons e l ih =>
      intro values hl hle
      have hdata := ht.data e.1 e.2 (c'.vnodeTree.mem_entries.mp (hl e List.mem_cons_self))
      have hrest := fun e' he' => hl e' (List.mem_cons_of_mem e he')
      rw [List.foldlM_cons]
      by_cases hlt : values.length < size
      · have hstep : getVnode c size (addr e.1) values = some (values ++ [e.1]) := by
          simp [getVnode, hlt, hdata]
        rw [hstep, Option.bind_eq_bind, Option.bind_some, ih _ hrest (by simp; omega)]
        obtain ⟨k, hk⟩ : ∃ k, size - values.length = k + 1 := ⟨size - values.length - 1, by omega⟩
        have hk' : size - (values ++ [e.1]).length = k := by
          rw [List.length_append, List.length_singleton]
          omega
        rw [hk, hk', List.map_cons, List.take_succ_cons, List.append_assoc, List.singleton_append]
      · have hstep : getVnode c size (addr e.1) values = some values := if_neg hlt
        have hzero : size - values.length = 0 := by omega
        rw [hstep, Option.bind_eq_bind, Option.bind_some, ih _ hrest hle, hzero, List.take_zero,
          List.take_zero]
  rw [conhashGetVnodes]
  split_ifs with hsize
  · rw [hsize, List.take_zero]
  · rw [ht.midTravel, hfold c'.vnodeTree.entries [] (fun _ he => he) (Nat.zero_le size)]
    rfl

end Calls

namespace ConHash
variable {c : ConHash} {c' : Ring.ConHash}

/-- The two differ in where the virtual nodes are. -/
structure Matches (c : ConHash) (c' : Ring.ConHash) : Prop where
  follows : Follows c.conhash c'.conhash
  rooted : Rooted c.conhash.vnodeTree
  nodesMap : c.nodesMap = c'.nodesMap
  heap : c.heap = c'.heap

theorem Matches.new : Matches new .new :=
  ⟨⟨⟨fun _ => 0, Tracks.init _⟩, rfl, rfl⟩, Stores.init.nodes.rooted_of_nil, rfl, rfl⟩

theorem Matches.add (cbHashfunc : Str → ℤ) (hm : Mallocs malloc) (h : Matches c c')
    (ipPort : Str) :
    c.conhashAddCacheServer cbHashfunc malloc ipPort = none ∧
        c'.conhashAddCacheServer cbHashfunc ipPort = none ∨
      ∃ c₁ c₁', c.conhashAddCacheServer cbHashfunc malloc ipPort = some c₁ ∧
        c'.conhashAddCacheServer cbHashfunc ipPort = some c₁' ∧ Matches c₁ c₁' := by
  obtain ⟨conhash, nodesMap, heap⟩ := c
  obtain ⟨conhash', nodesMap', heap'⟩ := c'
  obtain ⟨hf, hr, hmap, hheap⟩ := h
  dsimp only at hf hr hmap hheap
  subst hmap hheap
  simp only [conhashAddCacheServer, Ring.ConHash.conhashAddCacheServer]
  cases (heap.alloc ⟨[], 0, 0⟩).modify heap.fresh (conhashSetNode (cstr ipPort) numReplicas) with
  | none => exact Or.inl ⟨rfl, rfl⟩
  | some heap₁ =>
    rcases conhashAddNode_follows cbHashfunc heap₁ heap.fresh hm hf
      hr with ⟨h, h'⟩ | ⟨r, c₁, c₁', heap₂, h, h', hf₁, hr₁⟩
    · exact Or.inl ⟨by simp [h], by simp [h']⟩
    · simp only [h, h', Option.bind_eq_bind, Option.bind_some]
      cases nodesMap ipPort with
      | none => exact Or.inr ⟨⟨c₁, _, heap₂⟩, ⟨c₁', _, heap₂⟩, rfl, rfl, hf₁, hr₁, rfl, rfl⟩
      | some old =>
        dsimp only
        cases heap₂.free old with
        | none => exact Or.inl ⟨rfl, rfl⟩
        | some heap₃ => exact Or.inr ⟨⟨c₁, _, heap₃⟩, ⟨c₁', _, heap₃⟩, rfl, rfl, hf₁, hr₁, rfl, rfl⟩

theorem Matches.del (h : Matches c c') {ipPort : Str}
    (hleaves : c'.LeavesNotOne cbHashfunc (.del ipPort)) :
    c.conhashDelCacheServer cbHashfunc ipPort = none ∧
        c'.conhashDelCacheServer cbHashfunc ipPort = none ∨
      ∃ c₁ c₁', c.conhashDelCacheServer cbHashfunc ipPort = some c₁ ∧
        c'.conhashDelCacheServer cbHashfunc ipPort = some c₁' ∧ Matches c₁ c₁' := by
  have hsame := h
  obtain ⟨conhash, nodesMap, heap⟩ := c
  obtain ⟨conhash', nodesMap', heap'⟩ := c'
  obtain ⟨hf, hr, hmap, hheap⟩ := h
  dsimp only at hf hr hmap hheap
  subst hmap hheap
  unfold Ring.ConHash.LeavesNotOne at hleaves
  simp only [conhashDelCacheServer, Ring.ConHash.conhashDelCacheServer] at hleaves ⊢
  cases hp : nodesMap ipPort with
  | none => exact Or.inr ⟨_, _, rfl, rfl, hsame⟩
  | some p =>
    rw [hp] at hleaves
    rcases conhashDelNode_follows cbHashfunc heap p hf hr with
      ⟨h, h'⟩ | ⟨r, c₁, c₁', heap₂, h, h', hf₁, hr₁⟩
    · exact Or.inl ⟨by simp [h], by simp [h']⟩
    · simp only [h', Option.bind_eq_bind, Option.bind_some] at hleaves
      simp only [h, h', Option.bind_eq_bind, Option.bind_some]
      cases hfree : heap₂.free p with
      | none => exact Or.inl ⟨rfl, rfl⟩
      | some heap₃ =>
        rw [hfree] at hleaves
        obtain ⟨addr, ht⟩ := hf₁.tracks
        have hrooted : Rooted c₁.vnodeTree := by
          refine hr₁.resolve_right fun ⟨hone, hmore⟩ => ?_
          obtain ⟨addr', ht'⟩ := hf.tracks
          rw [ht.size] at hone
          rw [ht'.size] at hmore
          exact hmore.ne' (hleaves (by simp [hone]))
        exact Or.inr ⟨⟨c₁, _, heap₃⟩, ⟨c₁', _, heap₃⟩, rfl, rfl, hf₁, hrooted, rfl, rfl⟩

/-- Every call faults in both, or answers the same in both. -/
theorem Matches.call (hm : Mallocs malloc) (h : Matches c c') {e : RingCall}
    (hleaves : c'.LeavesNotOne cbHashfunc e) :
    c.call cbHashfunc malloc e = none ∧ c'.call cbHashfunc e = none ∨
      ∃ r c₁ c₁', c.call cbHashfunc malloc e = some (r, c₁) ∧
        c'.call cbHashfunc e = some (r, c₁') ∧ Matches c₁ c₁' := by
  cases e with
  | add ipPort =>
    rcases h.add cbHashfunc hm ipPort with ⟨h₁, h₁'⟩ | ⟨c₁, c₁', h₁, h₁', hmatch⟩
    · exact Or.inl ⟨by simp [ConHash.call, h₁], by simp [Ring.ConHash.call, h₁']⟩
    · exact Or.inr ⟨.done, c₁, c₁', by simp [ConHash.call, h₁], by simp [Ring.ConHash.call, h₁'],
        hmatch⟩
  | del ipPort =>
    rcases h.del hleaves with ⟨h₁, h₁'⟩ | ⟨c₁, c₁', h₁, h₁', hmatch⟩
    · exact Or.inl ⟨by simp [ConHash.call, h₁], by simp [Ring.ConHash.call, h₁']⟩
    · exact Or.inr ⟨.done, c₁, c₁', by simp [ConHash.call, h₁], by simp [Ring.ConHash.call, h₁'],
        hmatch⟩
  | get key =>
    have hget : c.conhashGetCacheServer cbHashfunc key = c'.conhashGetCacheServer cbHashfunc key := by
      rw [conhashGetCacheServer, Ring.ConHash.conhashGetCacheServer, conhashLookup_follows h.follows,
        h.heap]
      cases Ring.conhashLookup cbHashfunc c'.conhash (cstr key) <;> rfl
    simp only [ConHash.call, Ring.ConHash.call, hget]
    cases c'.conhashGetCacheServer cbHashfunc key with
    | none => exact Or.inl ⟨rfl, rfl⟩
    | some s => exact Or.inr ⟨.server s, c, c', rfl, rfl, h⟩
  | vnodes size =>
    refine Or.inr ⟨_, c, c', ?_, rfl, h⟩
    simp only [ConHash.call, conhashGetVnodes_follows h.follows, Option.map_some]
  | vnodesNum =>
    refine Or.inr ⟨_, c, c', ?_, rfl, h⟩
    simp only [ConHash.call, h.follows.ivnodes, h.follows.count]

/-- A run of one is a run of the other. -/
theorem matches_of_run (hm : Mallocs malloc) {calls : List RingCall}
    (ha : Allowed (Ring.ConHash.call cbHashfunc) (Ring.ConHash.LeavesNotOne cbHashfunc) .new calls) :
    run (call cbHashfunc malloc) new calls = none ∧
        run (Ring.ConHash.call cbHashfunc) .new calls = none ∨
      ∃ rs c c', run (call cbHashfunc malloc) new calls = some (rs, c) ∧
        run (Ring.ConHash.call cbHashfunc) .new calls = some (rs, c') ∧ Matches c c' := by
  have hstep : ∀ c c' e, Matches c c' → c'.LeavesNotOne cbHashfunc e →
      c.call cbHashfunc malloc e = none ∧ c'.call cbHashfunc e = none ∨
        ∃ r c₁ c₁', c.call cbHashfunc malloc e = some (r, c₁) ∧
          c'.call cbHashfunc e = some (r, c₁') ∧ Matches c₁ c₁' :=
    fun c c' e h hleaves => h.call hm hleaves
  exact run_agrees hstep Matches.new ha

/-- The red-black tree serves every sequence of calls as an ordered map would, as long as no deletion
takes virtual nodes away and leaves one alone. -/
theorem run_agrees_ordMap (hm : Mallocs malloc) {calls : List RingCall}
    (ha : Allowed (Ring.ConHash.call cbHashfunc) (Ring.ConHash.LeavesNotOne cbHashfunc) .new calls) :
    (run (call cbHashfunc malloc) new calls).map Prod.fst =
      (run (Ring.ConHash.call cbHashfunc) .new calls).map Prod.fst := by
  rcases matches_of_run hm ha with ⟨h, h'⟩ | ⟨rs, c, c', h, h', -⟩
  · rw [h, h']
    rfl
  · rw [h, h']
    rfl

/-- The first address that is free. -/
noncomputable def firstFree (memory : RbMem VirtualNode) : ℕ :=
  sInf {p | memory p = none ∧ p ≠ nullPtr}

theorem mallocs_firstFree : Mallocs firstFree := by
  intro t l h
  apply Nat.sInf_mem (s := {p | t.memory p = none ∧ p ≠ nullPtr})
  obtain ⟨p, hp⟩ :=
    Infinite.exists_notMem_finset (insert nullPtr (insert null (l.map Prod.snd).toFinset))
  rw [Finset.mem_insert, Finset.mem_insert, List.mem_toFinset, not_or, ← h.owned p] at hp
  exact ⟨p, by simpa using hp.2, hp.1⟩

/-- Three servers come, the first one goes. -/
def someCalls : List RingCall :=
  [.add (lit "a"), .add (lit "bb"), .add (lit "ccc"), .del (lit "a"), .get (lit "x"), .vnodes 1,
    .vnodesNum]

theorem run_agrees_ordMap_someCalls :
    (run (call (fun s => s.length) firstFree) new someCalls).map Prod.fst =
      some [.done, .done, .done, .done, .server (lit "bb"), .hashes [6], .count 2] := by
  rw [run_agrees_ordMap mallocs_firstFree]
  · decide +kernel
  · decide +kernel

end ConHash

section Fini
variable {t : RbTree VirtualNode} {l : List (ℤ × ℕ)}

/-- Each round of `conhash_fini` releases the root, until nothing is left. -/
theorem conhashFini_loop (h : Stores t l) (ps : List ℕ) :
    ∃ t' qs, whileLoop (fun x : RbTree VirtualNode × List ℕ => some !x.1.isempty) finiRound t.size
        (t, ps) = some (t', ps ++ qs) ∧ qs.Perm (l.map Prod.snd) ∧ Stores t' [] := by
  induction hn : t.size generalizing t l ps with
  | zero =>
    have hsize := h.nodes.size
    rw [hn, List.length_map] at hsize
    obtain rfl := List.eq_nil_of_length_eq_zero hsize.symm
    refine ⟨t, [], ?_, .refl _, h⟩
    rw [List.append_nil, whileLoop_stop]
    rw [h.nodes.isempty_iff.mpr rfl, Bool.not_true]
  | succ n ih =>
    have hgo : t.isempty = false := by
      rw [← Bool.not_eq_true, h.nodes.isempty_iff]
      intro hnil
      have hsize := h.nodes.size
      rw [hnil, hn] at hsize
      cases hsize
    have hmem : t.root ∈ l.map Prod.snd := h.nodes.root_mem (of_decide_eq_false hgo)
    obtain ⟨t₁, ht₁, h₁, hsize₁, -⟩ := h.remove hmem
    obtain ⟨t', qs, hloop, hqs, h'⟩ := ih h₁ (ps ++ [t.root]) (by omega)
    have hround : finiRound (t, ps) = some (t₁, ps ++ [t.root]) := by
      rw [finiRound, ht₁]
      rfl
    refine ⟨t', t.root :: qs, ?_, ?_, h'⟩
    · rw [whileLoop_go (by rw [hgo, Bool.not_false]) hround, hloop, List.append_assoc,
        List.singleton_append]
    · refine ((hqs.cons _).trans (.of_eq ?_)).trans (List.perm_cons_erase hmem).symm
      rw [h.nodes.nodup.erase_eq_filter, List.filter_map]
      simp only [Function.comp_def, ne_eq, decide_not, bne, beq_eq_decide]

end Fini

/-- After any such run `conhash_fini` ends. It releases every node of the tree once, as many as there
are virtual nodes, and the sentinel alone is left. -/
theorem conhashFini_run (hm : Mallocs malloc) {calls : List RingCall}
    (ha : Allowed (Ring.ConHash.call cbHashfunc) (Ring.ConHash.LeavesNotOne cbHashfunc) .new calls)
    {rs : List RingAnswer} {c : ConHash}
    (hrun : run (ConHash.call cbHashfunc malloc) .new calls = some (rs, c)) :
    ∃ t ps, conhashFini c.conhash = some (t, ps) ∧ ps.Nodup ∧ ps.length = c.conhash.ivnodes ∧
      (∀ p, p ∈ ps ↔ p ≠ null ∧ (c.conhash.vnodeTree.memory p).isSome = true) ∧
      ∀ p, (t.memory p).isSome = true ↔ p = null := by
  rcases ConHash.matches_of_run hm ha with ⟨h, -⟩ | ⟨rs', c₁, c', h, -, hmatch⟩
  · rw [h] at hrun
    cases hrun
  · rw [h] at hrun
    obtain ⟨rfl, rfl⟩ := Prod.mk.inj (Option.some.inj hrun)
    obtain ⟨⟨⟨addr, ht⟩, hiv, hcount⟩, -, -, -⟩ := hmatch
    obtain ⟨t, ps, hloop, hperm, hdone⟩ := conhashFini_loop ht.stores []
    refine ⟨t, ps, hloop, hperm.nodup_iff.mpr ht.stores.nodes.nodup, ?_, fun p => ?_, fun p => ?_⟩
    · rw [hperm.length_eq, ← ht.stores.nodes.size, hiv, hcount, ht.size]
    · rw [hperm.mem_iff, ht.stores.owned p]
      constructor
      · intro hp
        refine ⟨?_, Or.inr hp⟩
        rintro rfl
        exact ht.stores.nodes.null_notMem hp
      · rintro ⟨hne, hp⟩
        exact hp.resolve_left hne
    · rw [hdone.owned p]
      simp

theorem conhashFini_run_someCalls : ∃ rs c t ps,
    run (ConHash.call (fun s => s.length) ConHash.firstFree) .new ConHash.someCalls =
        some (rs, c) ∧ conhashFini c.conhash = some (t, ps) ∧ ps.Nodup ∧
      ps.length = c.conhash.ivnodes := by
  have ha : Allowed (Ring.ConHash.call fun s => s.length)
      (Ring.ConHash.LeavesNotOne fun s => s.length) .new ConHash.someCalls := by decide +kernel
  rcases ConHash.matches_of_run ConHash.mallocs_firstFree ha with ⟨-, h⟩ | ⟨rs, c, -, hrun, -, -⟩
  · have hsome : (run (Ring.ConHash.call fun s => s.length) .new ConHash.someCalls).isSome = true := by
      decide +kernel
    rw [h] at hsome
    cases hsome
  · obtain ⟨t, ps, hfini, hnodup, hlength, -⟩ := conhashFini_run ConHash.mallocs_firstFree ha hrun
    exact ⟨rs, c, t, ps, hrun, hfini, hnodup, hlength⟩

end Tree
end DCache.Ring
