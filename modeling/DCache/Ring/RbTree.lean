import DCache.Lib.TreeHeap
import DCache.Lib.While
import Mathlib.Algebra.Order.Ring.Int

/-! The red-black tree of `util_rbtree.c`. The nodes stand in memory, and a tree of no nodes is its
sentinel. Where the source has a statement and its mirror image, the side is a parameter. `none` is
an access to memory that is not there, or a loop with more rounds than there are nodes. -/
namespace DCache.Ring
open DCache.Lib

/-- What a node carries. -/
structure RbItem (V : Type) where
  key : ℤ
  data : V

abbrev RbMem (V : Type) := TreeMem (RbItem V)

/-- `memory` holds the sentinel, the nodes of the tree, and any others. -/
structure RbTree (V : Type) where
  root : ℕ
  size : ℕ
  memory : RbMem V

/-- `NULL` -/
def nullPtr : ℕ := 0

/-- `_NULL(rbtree)` -/
def null : ℕ := 1

namespace RbTree
variable {V : Type}

/-- The fields of the sentinel are those of a block from `calloc`. -/
def init [Inhabited V] : RbTree V where
  root := null
  size := 0
  memory p := if p = null then some ⟨⟨0, default⟩, .black, nullPtr, nullPtr, nullPtr⟩ else none

/-- `util_rbtree_isempty` -/
def isempty (t : RbTree V) : Bool := t.root = null

/-- `p->color = c` -/
def paint (t : RbTree V) (p : ℕ) (c : Color) : Option (RbTree V) := do
  let memory ← t.memory.modify p fun n => n.setColor c
  some { t with memory := memory }

/-- `p->parent = q` -/
def setParent (t : RbTree V) (p q : ℕ) : Option (RbTree V) := do
  let memory ← t.memory.modify p fun n => n.setParent q
  some { t with memory := memory }

/-- `p->left = q` or `p->right = q` -/
def setChild (t : RbTree V) (p : ℕ) (s : Side) (q : ℕ) : Option (RbTree V) := do
  let memory ← t.memory.modify p fun n => n.setChild s q
  some { t with memory := memory }

/-- `if (p != null) p->parent = q` -/
def adopt (t : RbTree V) (p q : ℕ) : Option (RbTree V) := if p ≠ null then t.setParent p q else some t

/-- `new` takes the place of `old` below `old->parent`. -/
def replaceBelow (t : RbTree V) (old new : ℕ) : Option (RbTree V) :=
  if old = t.root then some { t with root := new }
  else do
    let parent ← t.memory.parent? old
    if (← t.memory.child? parent .left) = old then t.setChild parent .left new
    else t.setChild parent .right new

/-- `rbtree_left_rotate` for the left side: the child on the other side takes the place of `node`. -/
def rotate (s : Side) (t : RbTree V) (node : ℕ) : Option (RbTree V) := do
  let rc ← t.memory.child? node s.other
  let rclc ← t.memory.child? rc s
  let t ← t.setParent rc (← t.memory.parent? node)
  let t ← t.replaceBelow node rc
  let t ← t.setParent node rc
  let t ← t.setChild rc s node
  let t ← t.setChild node s.other rclc
  t.adopt rclc node

def leftRotate (t : RbTree V) (node : ℕ) : Option (RbTree V) := t.rotate .left node

def rightRotate (t : RbTree V) (node : ℕ) : Option (RbTree V) := t.rotate .right node

/-- On which side of its parent a node is: the test `p == p->parent->left`. -/
def sideOf (t : RbTree V) (p parent : ℕ) : Option Side := do
  some (if p = (← t.memory.child? parent .left) then .left else .right)

/-- One round of the loop of `rbtree_insert_fixup`; `s` is the side that `p` is on. -/
def insertRound (x : RbTree V × ℕ) : Option (RbTree V × ℕ) := do
  let (t, node) := x
  let p ← t.memory.parent? node
  let pp ← t.memory.parent? p
  let s ← t.sideOf p pp
  let u ← t.memory.child? pp s.other
  if (← t.memory.color? u) = .red then
    let t ← t.paint u .black
    let t ← t.paint p .black
    let pp ← t.memory.parent? p
    let t ← t.paint pp .red
    some (t, ← t.memory.parent? p)
  else
    let (t, node, p) ←
      if node = (← t.memory.child? p s.other) then
        let t ← t.rotate s p
        pure (t, p, ← t.memory.parent? p)
      else pure (t, node, p)
    let t ← t.paint p .black
    let t ← t.paint (← t.memory.parent? p) .red
    let t ← t.rotate s.other (← t.memory.parent? p)
    some (t, node)

/-- `util_rbt_isred(node->parent)` -/
def belowRed (x : RbTree V × ℕ) : Option Bool := do
  let parent ← x.1.memory.parent? x.2
  some ((← x.1.memory.color? parent) = .red)

def insertFixup (t : RbTree V) (node : ℕ) : Option (RbTree V) := do
  let (t, _) ← whileLoop belowRed insertRound (t.size + 1) (t, node)
  t.paint t.root .black

/-- One round of the loop that finds the insert position. The state is `x` and `y`. -/
def descendRound (t : RbTree V) (key : ℤ) (xy : ℕ × ℕ) : Option (ℕ × ℕ) := do
  let k := (← t.memory.data? xy.1).key
  some (← t.memory.child? xy.1 (if key < k then .left else .right), xy.1)

def descend (t : RbTree V) (key : ℤ) (x : ℕ) : Option (ℕ × ℕ) :=
  whileLoop (fun xy => some (xy.1 ≠ null)) (t.descendRound key) t.size (x, nullPtr)

def insert (t : RbTree V) (node : ℕ) : Option (RbTree V) :=
  if node = nullPtr ∨ node = null then some t
  else do
    let t ←
      if t.root = null then ({ t with root := node } : RbTree V).setParent node null
      else do
        let key := (← t.memory.data? node).key
        let (_, y) ← t.descend key t.root
        let t ← t.setParent node y
        if key < (← t.memory.data? y).key then t.setChild y .left node
        else t.setChild y .right node
    let t ← t.setChild node .left null
    let t ← t.setChild node .right null
    let t ← t.paint node .red
    let t ← t.insertFixup node
    some { t with size := t.size + 1 }

/-- `rbt_clear_node` -/
def clearNode (t : RbTree V) (p : ℕ) : Option (RbTree V) := do
  let t ← t.setChild p .left nullPtr
  let t ← t.setChild p .right nullPtr
  t.setParent p nullPtr

/-- `util_rbsubtree_min` and `util_rbsubtree_max` -/
def subtreeEnd (t : RbTree V) (s : Side) (node : ℕ) : Option ℕ :=
  if node = null then some nullPtr
  else whileLoop (fun p => (t.memory.child? p s).map (· ≠ null)) (fun p => t.memory.child? p s)
    t.size node

def subtreeMin (t : RbTree V) (node : ℕ) : Option ℕ := t.subtreeEnd .left node

def subtreeMax (t : RbTree V) (node : ℕ) : Option ℕ := t.subtreeEnd .right node

def min (t : RbTree V) : Option ℕ := t.subtreeMin t.root

def max (t : RbTree V) : Option ℕ := t.subtreeMax t.root

/-- `(node != rbtree->root) && util_rbt_isblack(node)` -/
def tooLow (x : RbTree V × ℕ) : Option Bool :=
  if x.2 ≠ x.1.root then (x.1.memory.color? x.2).map (· = .black) else some false

/-- In `rbtree_delete_fixup`, a sibling `w` that is red goes up. -/
def turnSibling (t : RbTree V) (node : ℕ) (s : Side) (w : ℕ) : Option (RbTree V × ℕ) := do
  if (← t.memory.color? w) = .red then
    let t ← t.paint w .black
    let t ← t.paint (← t.memory.parent? node) .red
    let t ← t.rotate s (← t.memory.parent? node)
    some (t, ← t.memory.child? (← t.memory.parent? node) s.other)
  else some (t, w)

/-- Where the far child of `w` is black, the near one goes up. -/
def turnNear (t : RbTree V) (node : ℕ) (s : Side) (w : ℕ) : Option (RbTree V × ℕ) := do
  if (← t.memory.color? (← t.memory.child? w s.other)) = .black then
    let t ← t.paint (← t.memory.child? w s) .black
    let t ← t.paint w .red
    let t ← t.rotate s.other w
    some (t, ← t.memory.child? (← t.memory.parent? node) s.other)
  else some (t, w)

/-- The rotation that ends the loop. -/
def raiseSibling (t : RbTree V) (node : ℕ) (s : Side) (w : ℕ) : Option (RbTree V × ℕ) := do
  let t ← t.paint w (← t.memory.color? (← t.memory.parent? node))
  let t ← t.paint (← t.memory.parent? node) .black
  let t ← t.paint (← t.memory.child? w s.other) .black
  let t ← t.rotate s (← t.memory.parent? node)
  some (t, t.root)

/-- One round of the loop of `rbtree_delete_fixup`; `s` is the side that `node` is on. -/
def deleteRound (x : RbTree V × ℕ) : Option (RbTree V × ℕ) := do
  let (t, node) := x
  let parent ← t.memory.parent? node
  let s ← t.sideOf node parent
  let (t, w) ← t.turnSibling node s (← t.memory.child? parent s.other)
  let near ← t.memory.child? w s
  let far ← t.memory.child? w s.other
  if (← t.memory.color? near) = .black ∧ (← t.memory.color? far) = .black then
    let t ← t.paint w .red
    some (t, ← t.memory.parent? node)
  else
    let (t, w) ← t.turnNear node s w
    t.raiseSibling node s w

def deleteFixup (t : RbTree V) (node : ℕ) : Option (RbTree V) := do
  let (t, node) ← whileLoop tooLow deleteRound (t.size + 1) (t, node)
  t.paint node .black

/-- `temp` is removed from its position, and `subst` takes it. -/
def unlink (t : RbTree V) (node temp subst : ℕ) : Option (RbTree V) := do
  let parent ← t.memory.parent? temp
  let t ← t.setParent subst (if parent = node then temp else parent)
  let parent ← t.memory.parent? temp
  if temp = (← t.memory.child? parent .left) then t.setChild parent .left subst
  else t.setChild parent .right subst

/-- `temp` takes the place of `node` in the tree. -/
def substitute (t : RbTree V) (node temp : ℕ) : Option (RbTree V) := do
  let t ← t.setParent temp (← t.memory.parent? node)
  let t ← t.replaceBelow node temp
  let t ← t.setChild temp .right (← t.memory.child? node .right)
  let t ← t.setChild temp .left (← t.memory.child? node .left)
  let t ← t.adopt (← t.memory.child? temp .left) temp
  let t ← t.adopt (← t.memory.child? temp .right) temp
  t.paint temp (← t.memory.color? node)

/-- The deleted position is that of `temp`. -/
def findDeleted (t : RbTree V) (node : ℕ) : Option (ℕ × ℕ) := do
  let left ← t.memory.child? node .left
  let right ← t.memory.child? node .right
  if left = null then some (node, right)
  else if right = null then some (node, left)
  else
    let temp ← t.subtreeMin right
    if (← t.memory.child? temp .left) ≠ null then some (temp, ← t.memory.child? temp .left)
    else some (temp, ← t.memory.child? temp .right)

def delete (t : RbTree V) (node : ℕ) : Option (RbTree V) :=
  if node = nullPtr ∨ node = null then some t
  else do
    let t := { t with size := t.size - 1 }
    let (temp, subst) ← t.findDeleted node
    if temp = t.root then do
      let t ← ({ t with root := subst } : RbTree V).paint subst .black
      t.clearNode temp
    else do
      let isblack := (← t.memory.color? temp) = .black
      let t ← t.unlink node temp subst
      let t ← if temp ≠ node then t.substitute node temp else some t
      let t ← t.clearNode node
      if isblack then t.deleteFixup subst else some t

/-- `(node != null) && (key != node->key)` -/
def keyDiffers (t : RbTree V) (key : ℤ) (node : ℕ) : Option Bool :=
  if node = null then some false else (t.memory.data? node).map fun i => key ≠ i.key

def searchRound (t : RbTree V) (key : ℤ) (node : ℕ) : Option ℕ := do
  let k := (← t.memory.data? node).key
  t.memory.child? node (if key < k then .left else .right)

/-- `NULL` is `none` inside. -/
def search (t : RbTree V) (key : ℤ) : Option (Option ℕ) := do
  let node ← whileLoop (t.keyDiffers key) (t.searchRound key) t.size t.root
  some (if node = null then none else some node)

/-- One round of the loop of `util_rbtree_lookup`. The state is `node` and `temp`. -/
def lookupRound (t : RbTree V) (key : ℤ) (x : ℕ × ℕ) : Option (ℕ × ℕ) := do
  let k := (← t.memory.data? x.2).key
  if key ≤ k then some (x.2, ← t.memory.child? x.2 .left)
  else some (x.1, ← t.memory.child? x.2 .right)

def lookup (t : RbTree V) (key : ℤ) : Option (Option ℕ) :=
  if t.isempty then some none
  else do
    let (node, _) ← whileLoop (fun x => some (x.2 ≠ null)) (t.lookupRound key) t.size
      (nullPtr, t.root)
    if node ≠ nullPtr then some (some node) else some (some (← t.min))

/-- The recursion of `rbtree_mid_travel`, with `opera` a fold over the nodes. -/
def midTravelFrom {σ : Type} (t : RbTree V) (opera : ℕ → σ → Option σ) : ℕ → ℕ → σ → Option σ
  | 0, _, _ => none
  | fuel + 1, node, data => do
    let left ← t.memory.child? node .left
    let data ← if left ≠ null then t.midTravelFrom opera fuel left data else some data
    let data ← opera node data
    let right ← t.memory.child? node .right
    if right ≠ null then t.midTravelFrom opera fuel right data else some data

def midTravel {σ : Type} (t : RbTree V) (opera : ℕ → σ → Option σ) (data : σ) : Option σ :=
  if t.isempty then some data else t.midTravelFrom opera t.size t.root data

/-- `rbtree_check_t`, but for `null` -/
structure Check where
  rbh : ℕ
  maxd : ℕ
  fini : ℕ

/-- `__check_rb_height` -/
def Check.height (check : Check) (level curheight : ℕ) : Check :=
  let rbh := if check.rbh = 0 then curheight else check.rbh
  let maxd := if check.maxd < level then level else check.maxd
  ⟨rbh, maxd, if rbh ≠ curheight then 3 else check.fini⟩

/-- The tests at the child on the side `s`, and whether it is gone into. -/
def checkChild (t : RbTree V) (node : ℕ) (s : Side) (child : ℕ) (check : Check) :
    Option (Bool × Check) := do
  let red := (← t.memory.color? node) = .red ∧ (← t.memory.color? child) = .red
  let key := (← t.memory.data? node).key
  let childKey := (← t.memory.data? child).key
  let wrong := match s with
    | .left => decide (key < childKey)
    | .right => decide (key > childKey)
  some (if red then (false, { check with fini := 4 })
    else if wrong then (false, { check with fini := 5 })
    else (true, check))

/-- The recursion of `rbtree_check_subtree`. A colour is red or black. -/
def checkSubtree (t : RbTree V) : ℕ → ℕ → Check → ℕ → ℕ → Option Check
  | 0, _, _, _, _ => none
  | fuel + 1, node, check, level, curheight =>
    if check.fini ≠ 0 then some check
    else do
      let curheight := if (← t.memory.color? node) = .black then curheight + 1 else curheight
      let left ← t.memory.child? node .left
      let right ← t.memory.child? node .right
      if left = null then some (check.height level curheight)
      else
        let (go, check) ← t.checkChild node .left left check
        if go then
          let check ← t.checkSubtree fuel left check (level + 1) curheight
          if right = null then some (check.height level curheight)
          else
            let (go, check) ← t.checkChild node .right right check
            if go then t.checkSubtree fuel right check (level + 1) curheight else some check
        else some check

/-- `util_rbtree_check`: the result, `*blackheight` and `*maxdepth`, where these are set. -/
def check (t : RbTree V) : Option (ℕ × Option (ℕ × ℕ)) :=
  if t.root = null then some (0, none)
  else do
    if (← t.memory.color? t.root) ≠ .black then some (1, none)
    else
      let check ← t.checkSubtree t.size t.root ⟨0, 0, 0⟩ 1 0
      some (check.fini, some (check.rbh, check.maxd))

end RbTree
end DCache.Ring
