import DCache.Lib.DList

/-! The pointer structure of `cache_server/lru.h`. Every operation runs under `m_mutex`, so a
call is one step; `none` is a read or write through a null or released pointer. -/
namespace DCache.LRU
open DCache.Lib

/-- What a list node stores beside its two links. -/
structure Entry (K V : Type) where
  key : K
  val : V
  dirty : Bool
deriving DecidableEq

abbrev Node (K V : Type) := Cell (Entry K V)

abbrev Doublelist (K V : Type) := DList (Entry K V)

namespace Doublelist
variable {K V : Type}

def new [Inhabited K] [Inhabited V] : Doublelist K V := DList.new ⟨default, default, false⟩

/-- The tail side holds the most recently used entry. -/
def addLast (l : Doublelist K V) (x : ℕ) : Option (Doublelist K V) := do
  let last ← l.heap.prev? l.tail
  let h ← l.heap.writePrev x last
  let h ← h.writeNext x l.tail
  let last ← h.prev? l.tail
  let h ← h.writeNext last x
  let h ← h.writePrev l.tail x
  some { l with heap := h, size_ := l.size_ + 1 }

def remove (l : Doublelist K V) (x : ℕ) : Option (Doublelist K V) := do
  let prev ← l.heap.prev? x
  let next ← l.heap.next? x
  let h ← l.heap.writeNext prev next
  let next ← h.next? x
  let prev ← h.prev? x
  let h ← h.writePrev next prev
  some { l with heap := h, size_ := l.size_ - 1 }

/-- Returns the null pointer on an empty list. -/
def removeFirst (l : Doublelist K V) : Option (ℕ × Doublelist K V) := do
  let first ← l.heap.next? l.head
  if first = l.tail then some (0, l)
  else do
    let l ← remove l first
    some (first, l)

end Doublelist

structure ThreadSafeLRUCache (K V : Type) where
  map : K → Option ℕ
  cache : Doublelist K V
  cap : ℤ

namespace ThreadSafeLRUCache
variable {K V : Type} [DecidableEq K]

def new [Inhabited K] [Inhabited V] (cap : ℤ) : ThreadSafeLRUCache K V :=
  ⟨fun _ => none, Doublelist.new, cap⟩

/-- `map[key]`; the null pointer that `operator[]` puts in for an absent key. -/
def index (c : ThreadSafeLRUCache K V) (key : K) : ℕ := (c.map key).getD 0

def makeRecently (c : ThreadSafeLRUCache K V) (key : K) : Option (ThreadSafeLRUCache K V) := do
  let x := c.index key
  let l ← Doublelist.remove c.cache x
  let l ← Doublelist.addLast l x
  some { c with cache := l }

def addRecently (c : ThreadSafeLRUCache K V) (key : K) (val : V) :
    Option (ThreadSafeLRUCache K V) := do
  let x := c.cache.heap.fresh
  let l ← Doublelist.addLast
    { c.cache with heap := c.cache.heap.alloc ⟨⟨key, val, false⟩, 0, 0⟩ } x
  -- `map.insert` keeps an entry that is there already
  some { c with
    cache := l
    map := fun k => if k = key then some ((c.map key).getD x) else c.map k }

def deleteKey (c : ThreadSafeLRUCache K V) (key : K) : Option (ThreadSafeLRUCache K V) := do
  let x := c.index key
  let l ← Doublelist.remove c.cache x
  let h ← l.heap.free x
  some { c with
    cache := { l with heap := h }
    map := fun k => if k = key then none else c.map k }

def removeLeastRecently (c : ThreadSafeLRUCache K V) : Option (ThreadSafeLRUCache K V) := do
  let (deletedNode, l) ← Doublelist.removeFirst c.cache
  let e ← l.heap.data? deletedNode
  let h ← l.heap.free deletedNode
  some { c with
    cache := { l with heap := h }
    map := fun k => if k = e.key then none else c.map k }

def set (c : ThreadSafeLRUCache K V) (key : K) (val : V) : Option (ThreadSafeLRUCache K V) :=
  if (c.map key).isSome then do
    let c ← c.deleteKey key
    c.addRecently key val
  else do
    let c ← if c.cap = c.cache.size_ then c.removeLeastRecently else some c
    c.addRecently key val

/-- The caller has to ask `hasKey` first. -/
def get (c : ThreadSafeLRUCache K V) (key : K) : Option (V × ThreadSafeLRUCache K V) := do
  let c ← c.makeRecently key
  let e ← c.cache.heap.data? (c.index key)
  some (e.val, c)

def hasKey (c : ThreadSafeLRUCache K V) (key : K) : Bool := (c.map key).isSome

/-- The `while` loop of `lru_keys_oneshot`, from `travel` to the tail sentinel. -/
def keysFrom (l : Doublelist K V) : ℕ → ℕ → Option (List K)
  | 0, _ => none
  | fuel + 1, travel =>
    if travel = l.tail then some []
    else do
      let e ← l.heap.data? travel
      let next ← l.heap.next? travel
      let v ← keysFrom l fuel next
      some (e.key :: v)

/-- A chain visits an address at most once, so the addresses handed out bound the loop. -/
def lruKeysOneshot (c : ThreadSafeLRUCache K V) : Option (List K) := do
  let travel ← c.cache.heap.next? c.cache.head
  keysFrom c.cache c.cache.heap.next travel

def writeDirty (c : ThreadSafeLRUCache K V) (key : K) (b : Bool) :
    Option (ThreadSafeLRUCache K V) :=
  if (c.map key).isSome then do
    let h ← c.cache.heap.writeData (c.index key) (fun e => { e with dirty := b })
    some { c with cache := { c.cache with heap := h } }
  else some c

def setDirty (c : ThreadSafeLRUCache K V) (key : K) : Option (ThreadSafeLRUCache K V) :=
  c.writeDirty key true

def setClean (c : ThreadSafeLRUCache K V) (key : K) : Option (ThreadSafeLRUCache K V) :=
  c.writeDirty key false

def isDirty (c : ThreadSafeLRUCache K V) (key : K) : Option Bool :=
  if (c.map key).isSome then do
    let e ← c.cache.heap.data? (c.index key)
    some (e.dirty == true)
  else some false

end ThreadSafeLRUCache
end DCache.LRU
