import DCache.Ring.RbCheck
import Mathlib.Data.List.Find
import Mathlib.Data.Nat.Log

/-! Runs of the red-black tree of `util_rbtree.c`. -/
namespace DCache.Ring
open DCache.Lib DCache.Lib.CTree

/-- What a caller does: it inserts nodes that it allocates, and releases nodes that it deletes. -/
inductive RbOp (V : Type)
  | put (p : ℕ) (n : TreeCell (RbItem V))
  | remove (p : ℕ)

namespace RbTree
variable {V : Type} {t : RbTree V} {nodes : List ℕ} {l : List (ℤ × ℕ)}

namespace Represents

theorem search (h : Represents t nodes) (k : ℤ) :
    ∃ o, t.search k = some o ∧ (o = none → ∀ p ∈ nodes, t.keyAt p ≠ k) ∧
      ∀ p, o = some p → p ∈ nodes ∧ t.keyAt p = k := by
  obtain ⟨⟨T, rp, m, hT, -, -, rfl⟩, hs, hsize, -⟩ := h
  exact search_spec hT hs hsize.ge k

theorem lookup (h : Represents t nodes) (k : ℤ) :
    t.lookup k = some ((nodes.find? fun p => k ≤ t.keyAt p).or nodes.head?) := by
  obtain ⟨⟨T, rp, m, hT, -, -, rfl⟩, hs, hsize, hzero⟩ := h
  exact lookup_spec hT hs hsize.ge hzero k

theorem min (h : Represents t nodes) : t.min = some (nodes.head?.getD nullPtr) := by
  obtain ⟨⟨T, rp, m, hT, -, -, rfl⟩, -, hsize, -⟩ := h
  by_cases hnil : T = .nil
  · have hroot := hT.root_eq_null.mpr hnil
    subst hnil
    exact if_pos hroot
  · obtain ⟨L, c, q, v, rfl, hside, hend⟩ := subtreeEnd_spec (K := []) hT hnil
      ((height_le_size T).trans hsize.ge) .left
    rw [RbTree.min, subtreeMin, hT.tree.root, hend, inorder_plug, before_eq_nil hside]
    rfl

theorem max (h : Represents t nodes) : t.max = some (nodes.getLast?.getD nullPtr) := by
  obtain ⟨⟨T, rp, m, hT, -, -, rfl⟩, -, hsize, -⟩ := h
  by_cases hnil : T = .nil
  · have hroot := hT.root_eq_null.mpr hnil
    subst hnil
    exact if_pos hroot
  · obtain ⟨L, c, q, v, rfl, hside, hend⟩ := subtreeEnd_spec (K := []) hT hnil
      ((height_le_size T).trans hsize.ge) .right
    rw [RbTree.max, subtreeMax, hT.tree.root, hend, inorder_plug, after_eq_nil hside]
    simp [nodeAt, inorder]

theorem midTravel {σ : Type} (h : Represents t nodes) (opera : ℕ → σ → Option σ) (d : σ) :
    t.midTravel opera d = nodes.foldlM (fun d p => opera p d) d := by
  obtain ⟨⟨T, rp, m, hT, -, -, rfl⟩, -, hsize, -⟩ := h
  exact midTravel_spec opera hT hsize.ge d

/-- A way down is not longer than twice the logarithm of the number of nodes. -/
theorem height_le (h : Represents t nodes) : ∃ T rp n, Holds t rp T ∧ Sorted t T ∧ IsRb n T ∧
    T.color = .black ∧ T.size = t.size ∧ T.height ≤ 2 * Nat.log 2 (t.size + 1) := by
  obtain ⟨⟨T, rp, n, hT, hn, hcolor, rfl⟩, hs, hsize, -⟩ := h
  refine ⟨T, rp, n, hT, hs, hn, hcolor, hsize.symm, ?_⟩
  have hheight := hn.height_le.2 hcolor
  have hlog : n ≤ Nat.log 2 (t.size + 1) := by
    rw [hsize]
    exact Nat.le_log_of_pow_le Nat.one_lt_two hn.pow_le
  omega

end Represents

def step (t : RbTree V) : RbOp V → Option (Unit × RbTree V)
  | .put p n => (t.put p n).map fun t => ((), t)
  | .remove p => (t.remove p).map fun t => ((), t)

/-- What is allocated is not in use, and what is deleted is a node. -/
def Sound (t : RbTree V) : RbOp V → Prop
  | .put p _ => (t.memory p).isSome = false ∧ p ≠ nullPtr
  | .remove p => p ≠ null ∧ (t.memory p).isSome = true

/-- No node is left alone below a node that is gone. -/
def KeepsTop (t : RbTree V) : RbOp V → Prop
  | .put _ _ => True
  | .remove p => ¬ (t.size = 2 ∧ t.root = p)

instance (t : RbTree V) : (op : RbOp V) → Decidable (Sound t op)
  | .put _ _ => inferInstanceAs (Decidable (_ ∧ _))
  | .remove _ => inferInstanceAs (Decidable (_ ∧ _))

instance (t : RbTree V) : (op : RbOp V) → Decidable (KeepsTop t op)
  | .put _ _ => inferInstanceAs (Decidable True)
  | .remove _ => inferInstanceAs (Decidable (¬ _))

/-- The nodes under their keys, in the order of the keys and then of the insertions. -/
def effect (l : List (ℤ × ℕ)) : RbOp V → List (ℤ × ℕ)
  | .put p n => l.orderedInsert (fun a b => a.1 < b.1) (n.data.key, p)
  | .remove p => l.filter fun e => e.2 ≠ p

theorem Stores.step {op : RbOp V} (h : Stores t l) (hr : Rooted t) (hs : Sound t op) :
    ∃ t', t.step op = some ((), t') ∧ Stores t' (effect l op) ∧ (Rooted t' ↔ KeepsTop t op) := by
  cases op with
  | put p n =>
    obtain ⟨t', ht', hr', h', -⟩ := h.put (n := n) hr (by simpa using hs.1) hs.2
    exact ⟨t', by rw [RbTree.step, ht']; rfl, h', iff_of_true hr' trivial⟩
  | remove p =>
    have hp : p ∈ l.map Prod.snd := ((h.owned p).mp hs.2).resolve_left hs.1
    obtain ⟨t', ht', h', -, hr', -⟩ := h.remove hp
    exact ⟨t', by rw [RbTree.step, ht']; rfl, h', hr' hr⟩

theorem stores_of_run [Inhabited V] {ops : List (RbOp V)}
    (ha : Allowed step (fun t op => Sound t op ∧ KeepsTop t op) init ops) :
    ∃ rs t, run step init ops = some (rs, t) ∧ Stores t (ops.foldl effect []) ∧ Rooted t := by
  refine run_foldl (R := fun t l => Stores t l ∧ Rooted t) ?_
    ⟨Stores.init, Stores.init.nodes.rooted_of_nil⟩ ha
  rintro t l op ⟨h, hr⟩ ⟨hs, hk⟩
  obtain ⟨t', ht', h', hr'⟩ := h.step hr hs
  exact ⟨(), t', ht', h', hr'.mpr hk⟩

section Runs
variable [Inhabited V] {ops : List (RbOp V)}

/-- Three nodes, two of them under one key, and the first of these two is released again. -/
def someOps : List (RbOp ℕ) :=
  [.put 2 ⟨⟨10, 1⟩, .black, 9, 9, 9⟩, .put 3 ⟨⟨20, 2⟩, .red, 8, 8, 8⟩,
    .put 4 ⟨⟨20, 3⟩, .black, 7, 7, 7⟩, .remove 3]

private theorem allowed_someOps :
    Allowed step (fun t op => Sound t op ∧ KeepsTop t op) init someOps := by decide

/-- No run faults, and what it leaves is a red-black tree over the nodes in order. -/
theorem rbtree_run (ha : Allowed step (fun t op => Sound t op ∧ KeepsTop t op) init ops) :
    ∃ rs t T n, run step init ops = some (rs, t) ∧ Holds t null T ∧ IsRb n T ∧
      T.color = .black ∧ T.inorder = (ops.foldl effect []).map Prod.snd ∧
      (∀ e ∈ ops.foldl effect [], t.keyAt e.2 = e.1) ∧ t.size = (ops.foldl effect []).length ∧
      ∀ p, (t.memory p).isSome = true ↔ p = null ∨ p ∈ T.inorder := by
  obtain ⟨rs, t, hrun, ⟨⟨⟨T, rp, n, hT, hn, hcolor, hin⟩, -, hsize, -⟩, hkeys, howned⟩, hr⟩ :=
    stores_of_run ha
  refine ⟨rs, t, T, n, hrun, hr.holds hT, hn, hcolor, hin, hkeys, by simpa using hsize, ?_⟩
  rw [hin]
  exact howned

theorem rbtree_run_someOps : ∃ rs t T n, run step init someOps = some (rs, t) ∧ Holds t null T ∧
    IsRb n T ∧ T.color = .black ∧ T.inorder = [2, 4] := by
  obtain ⟨rs, t, T, n, hrun, hT, hn, hcolor, hin, -⟩ := rbtree_run allowed_someOps
  exact ⟨rs, t, T, n, hrun, hT, hn, hcolor, hin⟩

/-- The root is below the sentinel all the time, if and only if no deletion takes the root of a tree
of two nodes. -/
theorem rooted_iff_keepsTop (ha : Allowed step Sound init ops) :
    (∀ ops₁, ops₁ <+: ops → ∀ rs t, run step init ops₁ = some (rs, t) → Rooted t) ↔
      Allowed step KeepsTop init ops := by
  apply forall_prefix_iff_allowed (I := fun t => ∃ l, Stores t l ∧ Rooted t) (q := Sound)
  · rintro t ⟨l, -, hr⟩
    exact hr
  · rintro t op r t' ⟨l, h, hr⟩ hs hk hstep
    obtain ⟨t₁, ht₁, h₁, hr₁⟩ := h.step hr hs
    rw [ht₁] at hstep
    obtain ⟨-, rfl⟩ := Prod.mk.inj (Option.some.inj hstep)
    exact ⟨_, h₁, hr₁.mpr hk⟩
  · rintro t op ⟨l, h, hr⟩ hs hk
    obtain ⟨t₁, ht₁, -, hr₁⟩ := h.step hr hs
    exact ⟨(), t₁, ht₁, fun hr => hk (hr₁.mp hr)⟩
  · exact ⟨[], Stores.init, Stores.init.nodes.rooted_of_nil⟩
  · exact ha

theorem rooted_iff_keepsTop_two : ¬ ∀ ops₁,
    ops₁ <+: [.put 2 ⟨⟨10, 1⟩, .black, 9, 9, 9⟩, .put 3 ⟨⟨20, 2⟩, .red, 8, 8, 8⟩, .remove 2] →
      ∀ rs (t : RbTree ℕ), run step init ops₁ = some (rs, t) → Rooted t := by
  rw [rooted_iff_keepsTop (by decide)]
  decide

/-- The insertions after such a deletion may read the node that was released. -/
example : run step (init : RbTree ℕ) [.put 2 ⟨⟨10, 1⟩, .black, 9, 9, 9⟩,
    .put 3 ⟨⟨20, 2⟩, .red, 8, 8, 8⟩, .remove 2, .put 4 ⟨⟨30, 3⟩, .black, 7, 7, 7⟩,
    .put 5 ⟨⟨40, 4⟩, .black, 7, 7, 7⟩, .put 6 ⟨⟨50, 5⟩, .black, 7, 7, 7⟩] = none := by decide

/-- What the tree answers is what the ordered list says. -/
theorem rbtree_queries (ha : Allowed step (fun t op => Sound t op ∧ KeepsTop t op) init ops) :
    ∃ rs t, run step init ops = some (rs, t) ∧ let l := ops.foldl effect []
      (∀ k, ∃ o, t.search k = some o ∧ (o = none → ∀ p, (k, p) ∉ l) ∧
        ∀ p, o = some p → (k, p) ∈ l) ∧
      (∀ k, t.lookup k = some (((l.find? fun e => k ≤ e.1).or l.head?).map Prod.snd)) ∧
      t.min = some ((l.head?.map Prod.snd).getD nullPtr) ∧
      t.max = some ((l.getLast?.map Prod.snd).getD nullPtr) ∧
      ∀ (σ : Type) (opera : ℕ → σ → Option σ) (d : σ),
        t.midTravel opera d = l.foldlM (fun d e => opera e.2 d) d := by
  obtain ⟨rs, t, hrun, ⟨hnodes, hkeys, -⟩, -⟩ := stores_of_run ha
  refine ⟨rs, t, hrun, ?_⟩
  generalize ops.foldl effect [] = l at hnodes hkeys ⊢
  refine ⟨fun k => ?_, fun k => ?_, ?_, ?_, fun σ opera d => ?_⟩
  · obtain ⟨o, ho, hnone, hsome⟩ := hnodes.search k
    refine ⟨o, ho, ?_, ?_⟩
    · intro hn p hp
      exact hnone hn p (List.mem_map_of_mem hp) (hkeys _ hp)
    · intro p hp
      obtain ⟨hmem, hk⟩ := hsome p hp
      obtain ⟨e, he, rfl⟩ := List.mem_map.mp hmem
      rw [← hk, hkeys e he]
      exact he
  · rw [hnodes.lookup k, List.find?_map, List.head?_map]
    have hfind : l.find? ((fun p => decide (k ≤ t.keyAt p)) ∘ Prod.snd) =
        l.find? fun e => k ≤ e.1 := by
      apply List.find?_congr
      intro e he
      simp [hkeys e he]
    rw [hfind]
    cases l.find? fun e => decide (k ≤ e.1) <;> rfl
  · rw [hnodes.min, List.head?_map]
  · rw [hnodes.max, List.getLast?_map]
  · rw [hnodes.midTravel opera d, List.foldlM_map]

theorem rbtree_queries_someOps : ∃ rs t, run step init someOps = some (rs, t) ∧
    t.lookup 15 = some (some 4) ∧ t.lookup 21 = some (some 2) ∧ t.max = some 4 := by
  obtain ⟨rs, t, hrun, -, hlookup, -, hmax, -⟩ := rbtree_queries allowed_someOps
  exact ⟨rs, t, hrun, hlookup 15, hlookup 21, hmax⟩

/-- The walks down the tree, for a query and for an insertion, end after no more rounds than twice the
logarithm of the number of nodes, and a travel goes no deeper. -/
theorem rbtree_rounds (ha : Allowed step (fun t op => Sound t op ∧ KeepsTop t op) init ops) :
    ∃ rs t, run step init ops = some (rs, t) ∧ let n := 2 * Nat.log 2 (t.size + 1)
      (∀ k, ∃ q, whileLoop (t.keyDiffers k) (t.searchRound k) n t.root = some q ∧
        t.search k = some (if q = null then none else some q)) ∧
      (∀ k, ∃ x, whileLoop (fun x => some (x.2 ≠ null)) (t.lookupRound k) n (nullPtr, t.root) =
          some x ∧
        whileLoop (fun x => some (x.2 ≠ null)) (t.lookupRound k) t.size (nullPtr, t.root) =
          some x) ∧
      (∀ k, ∃ x, whileLoop (fun xy => some (xy.1 ≠ null)) (t.descendRound k) n (t.root, nullPtr) =
          some x ∧ t.descend k t.root = some x) ∧
      ∀ (σ : Type) (opera : ℕ → σ → Option σ) (d : σ), t.root ≠ null →
        t.midTravelFrom opera n t.root d = t.midTravel opera d := by
  obtain ⟨rs, t, hrun, ⟨hnodes, -, -⟩, -⟩ := stores_of_run ha
  obtain ⟨T, rp, m, hT, hs, -, -, hsize, hheight⟩ := hnodes.height_le
  have hfull : T.height ≤ t.size := (height_le_size T).trans hsize.le
  refine ⟨rs, t, hrun, fun k => ?_, fun k => ?_, fun k => ?_, fun σ opera d hroot => ?_⟩
  · obtain ⟨q, hq, -⟩ := search_loop hT hs hheight k
    obtain ⟨q', hq', -⟩ := search_loop hT hs hfull k
    refine ⟨q, hq, ?_⟩
    rw [RbTree.search, hq', whileLoop_unique hq hq']
    rfl
  · obtain ⟨y, hy⟩ := lookup_loop hT hs hheight k
    obtain ⟨y', hy'⟩ := lookup_loop hT hs hfull k
    exact ⟨_, hy, by rw [hy', whileLoop_unique hy hy']⟩
  · obtain ⟨K, hctx, hx, -⟩ := descend_loop hT hs hheight k
    obtain ⟨K', hctx', hx', -⟩ := descend_loop hT hs hfull k
    exact ⟨_, hx, by rw [descend, hx', whileLoop_unique hx hx']⟩
  · have hne : T ≠ .nil := fun he => hroot (hT.root_eq_null.mpr he)
    rw [midTravel_spec opera hT hsize.le, hT.tree.root]
    exact midTravelFrom_spec (K := []) opera hT hne hheight d

theorem rbtree_rounds_someOps : ∃ rs t, run step init someOps = some (rs, t) ∧
    ∀ k, ∃ q, whileLoop (t.keyDiffers k) (t.searchRound k) (2 * Nat.log 2 (t.size + 1)) t.root =
      some q ∧ t.search k = some (if q = null then none else some q) := by
  obtain ⟨rs, t, hrun, hsearch, -⟩ := rbtree_rounds allowed_someOps
  exact ⟨rs, t, hrun, hsearch⟩

/-- The check finds nothing wrong, and the number of nodes lies between what full trees of the two
heights have that it reports. -/
theorem rbtree_check (ha : Allowed step (fun t op => Sound t op ∧ KeepsTop t op) init ops) :
    ∃ rs t, run step init ops = some (rs, t) ∧ (t.check = some (0, none) ∧ t.size = 0 ∨
      ∃ blackheight maxdepth, t.check = some (0, some (blackheight, maxdepth)) ∧
        2 ^ blackheight ≤ t.size + 1 ∧ t.size < 2 ^ (maxdepth + 1) ∧
          maxdepth ≤ 2 * blackheight) := by
  obtain ⟨rs, t, hrun, ⟨hnodes, -, -⟩, -⟩ := stores_of_run ha
  obtain ⟨T, rp, m, hT, hs, hm, hcolor, hsize, -⟩ := hnodes.height_le
  refine ⟨rs, t, hrun, ?_⟩
  rcases check_spec hT hs hm hcolor hsize.le with ⟨rfl, hcheck⟩ | ⟨maxd, hcheck, hle, hge⟩
  · exact Or.inl ⟨hcheck, hsize.symm⟩
  · refine Or.inr ⟨m, maxd, hcheck, ?_, ?_, hle.trans (hm.height_le.2 hcolor)⟩
    · rw [← hsize]
      exact hm.pow_le
    · rw [← hsize]
      exact lt_of_lt_of_le T.size_lt_pow (Nat.pow_le_pow_right Nat.two_pos hge)

theorem rbtree_check_someOps : ∃ rs t, run step init someOps = some (rs, t) ∧
    (t.check = some (0, none) ∧ t.size = 0 ∨
      ∃ blackheight maxdepth, t.check = some (0, some (blackheight, maxdepth)) ∧
        2 ^ blackheight ≤ t.size + 1 ∧ t.size < 2 ^ (maxdepth + 1) ∧
          maxdepth ≤ 2 * blackheight) :=
  rbtree_check allowed_someOps

end Runs
end RbTree
end DCache.Ring
