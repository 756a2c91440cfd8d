import DCache.Lib.Heap
import DCache.Lib.HashRing
import DCache.EndPoint

/-! The consistent hash (`consistent_hash.h` over `conhash/`). The nodes stand on a heap and
`nodes_map` owns them; the red-black tree of virtual nodes is a map ordered by hash. `none` is
the use of a released node. -/
namespace DCache.Ring
open DCache.Lib

def nodeFlagInit : BitVec 32 := 1

def nodeFlagIn : BitVec 32 := 2

/-- `iden` is the text in `char iden[64]`. -/
structure NodeS where
  iden : Str
  replicas : ℕ
  flag : BitVec 32

structure VirtualNode where
  hash : ℤ
  node : ℕ

structure ConHashS where
  vnodeTree : OrdMap ℤ VirtualNode
  ivnodes : ℕ

structure ConHash where
  conhash : ConHashS
  nodesMap : Str → Option ℕ
  heap : Heap NodeS

def numReplicas : ℕ := 32

/-- `conhash_set_node`; `strncpy` leaves the last byte of `iden` zero. -/
def conhashSetNode (iden : Str) (replica : ℕ) (_ : NodeS) : NodeS :=
  ⟨(cstr iden).take 63, replica, nodeFlagInit⟩

/-- `snprintf(buf, 127, "%s-%03d", ..)` -/
def node2string (node : NodeS) (replicaIdx : ℕ) : Str :=
  (node.iden ++ 45 :: decimal3 replicaIdx).take 126

variable (cbHashfunc : Str → ℤ)

def addReplica (p : ℕ) (node : NodeS) (c : ConHashS) (i : ℕ) : ConHashS :=
  let hash := cbHashfunc (node2string node i)
  match c.vnodeTree.find? hash with
  | none => ⟨c.vnodeTree.insert hash ⟨hash, p⟩, c.ivnodes + 1⟩
  | some _ => c

def addReplicas (c : ConHashS) (p : ℕ) (node : NodeS) : ConHashS :=
  (List.range node.replicas).foldl (addReplica cbHashfunc p node) c

def delReplica (p : ℕ) (node : NodeS) (c : ConHashS) (i : ℕ) : ConHashS :=
  let hash := cbHashfunc (node2string node i)
  match c.vnodeTree.find? hash with
  | none => c
  | some vnode =>
    if vnode.hash = hash ∧ vnode.node = p then ⟨c.vnodeTree.erase hash, c.ivnodes - 1⟩ else c

def delReplicas (c : ConHashS) (p : ℕ) (node : NodeS) : ConHashS :=
  (List.range node.replicas).foldl (delReplica cbHashfunc p node) c

def conhashAddNode (c : ConHashS) (heap : Heap NodeS) (p : ℕ) :
    Option (ℤ × ConHashS × Heap NodeS) := do
  let node ← heap.cells p
  if node.flag &&& nodeFlagInit = 0 ∨ node.flag &&& nodeFlagIn ≠ 0 then some (-1, c, heap)
  else do
    let heap ← heap.modify p (fun n => { n with flag := n.flag ||| nodeFlagIn })
    some (0, addReplicas cbHashfunc c p node, heap)

def conhashDelNode (c : ConHashS) (heap : Heap NodeS) (p : ℕ) :
    Option (ℤ × ConHashS × Heap NodeS) := do
  let node ← heap.cells p
  if node.flag &&& nodeFlagInit = 0 ∨ node.flag &&& nodeFlagIn = 0 then some (-1, c, heap)
  else do
    let heap ← heap.modify p (fun n => { n with flag := n.flag &&& ~~~nodeFlagIn })
    some (0, delReplicas cbHashfunc c p node, heap)

/-- `NULL` is `none`. -/
def conhashLookup (c : ConHashS) (object : Str) : Option ℕ :=
  if c.ivnodes = 0 then none
  else (c.vnodeTree.ceil? (cbHashfunc object)).map (fun e => e.2.node)

namespace ConHash

def new : ConHash := ⟨⟨.empty, 0⟩, fun _ => none, .empty⟩

/-- The node that `nodes_map` held under the same address is released last. -/
def conhashAddCacheServer (c : ConHash) (ipPort : Str) : Option ConHash := do
  let p := c.heap.fresh
  let heap ← (c.heap.alloc ⟨[], 0, 0⟩).modify p (conhashSetNode (cstr ipPort) numReplicas)
  let (_, conhash, heap) ← conhashAddNode cbHashfunc c.conhash heap p
  let heap ← match c.nodesMap ipPort with
    | none => some heap
    | some old => heap.free old
  some ⟨conhash, fun a => if a = ipPort then some p else c.nodesMap a, heap⟩

def conhashDelCacheServer (c : ConHash) (ipPort : Str) : Option ConHash :=
  match c.nodesMap ipPort with
  | none => some c
  | some p => do
    let (_, conhash, heap) ← conhashDelNode cbHashfunc c.conhash c.heap p
    let heap ← heap.free p
    some ⟨conhash, fun a => if a = ipPort then none else c.nodesMap a, heap⟩

def conhashGetCacheServer (c : ConHash) (key : Str) : Option Str :=
  match conhashLookup cbHashfunc c.conhash (cstr key) with
  | none => some (lit "NULL")
  | some p => (c.heap.cells p).map NodeS.iden

end ConHash
end DCache.Ring
