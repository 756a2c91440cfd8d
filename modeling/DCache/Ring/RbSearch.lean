import DCache.Ring.RbMoves

/-! The walks down and through the red-black tree of `util_rbtree.c`. -/
namespace DCache.Ring
open DCache.Lib DCache.Lib.CTree

namespace RbTree
variable {V : Type} {t t' : RbTree V} {rp p : ℕ} {c : Color}
  {T u l r : CTree ℕ} {K : List (Frame ℕ)} {k : ℤ}

/-- The key that stands at an address. -/
def keyAt (t : RbTree V) (p : ℕ) : ℤ := ((t.memory.data? p).map RbItem.key).getD 0

/-- Keys that are equal may stand in the tree more than once. -/
def Sorted (t : RbTree V) (T : CTree ℕ) : Prop :=
  T.inorder.Pairwise fun p q => t.keyAt p ≤ t.keyAt q

theorem Keeps.keyAt (h : Keeps t t') (p : ℕ) : t'.keyAt p = t.keyAt p := by
  rw [RbTree.keyAt, h.data p]
  rfl

namespace Holds

theorem data? (h : Holds t rp T) (hp : p ∈ T.inorder) :
    ∃ i, t.memory.data? p = some i ∧ i.key = t.keyAt p := by
  obtain ⟨n, hn⟩ := h.tree.shape.isSome hp
  have hdata : t.memory.data? p = some n.data := by
    rw [TreeMem.data?, hn]
    rfl
  refine ⟨n.data, hdata, ?_⟩
  rw [RbTree.keyAt, hdata]
  rfl

theorem root_eq_null (h : Holds t rp T) : t.root = null ↔ T = .nil := by
  rw [h.tree.root]
  exact rootAddr_eq_iff h.tree.null

/-- The root of a subtree is the sentinel where the subtree is empty. -/
theorem rootAddr_eq_null (h : Holds t rp (plug K u)) : rootAddr null u = null ↔ u = .nil :=
  rootAddr_eq_iff h.null_notMem

/-- What the walks read at a node. -/
theorem step (h : Holds t rp (plug K (.node c l p r))) :
    t.memory.child? p .left = some (rootAddr null l) ∧
      t.memory.child? p .right = some (rootAddr null r) ∧
      ∃ i, t.memory.data? p = some i ∧ i.key = t.keyAt p := by
  refine ⟨Holds.child?_near (s := .left) h, Holds.child?_far (s := .left) h, h.data? ?_⟩
  exact mem_plug.mpr (Or.inl (List.mem_append_right _ List.mem_cons_self))

end Holds

/-- A walk reads the key at the root of a subtree that is not empty, and goes into a lower one. -/
theorem exists_node (hu : u ≠ .nil) : ∃ c l p r, u = .node c l p r ∧ rootAddr null u = p ∧
    l.height < u.height ∧ r.height < u.height := by
  cases u with
  | nil => exact absurd rfl hu
  | node c l p r =>
    refine ⟨c, l, p, r, rfl, rfl, ?_, ?_⟩ <;> rw [CTree.height] <;> omega

section Walks
variable (h : Holds t rp T) {fuel : ℕ}
include h

/-- The walk ends at the place for the key: behind all that are not greater. -/
theorem descend_loop (hs : Sorted t T) (hfuel : T.height ≤ fuel) (k : ℤ) :
    ∃ K, T = plug K .nil ∧
      whileLoop (fun xy => some (xy.1 ≠ null)) (t.descendRound k) fuel (t.root, nullPtr) =
        some (null, top nullPtr K) ∧
      (∀ p ∈ before K, t.keyAt p ≤ k) ∧ ∀ p ∈ after K, k < t.keyAt p := by
  let I : ℕ → ℕ × ℕ → Prop := fun n x => ∃ K u, T = plug K u ∧
    x = (rootAddr null u, top nullPtr K) ∧ u.height ≤ n ∧
      (∀ p ∈ before K, t.keyAt p ≤ k) ∧ ∀ p ∈ after K, k < t.keyAt p
  have hround : ∀ n x, I n x → some (decide (x.1 ≠ null)) = some false ∨
      some (decide (x.1 ≠ null)) = some true ∧
        ∃ m x', m < n ∧ t.descendRound k x = some x' ∧ I m x' := by
    rintro n _ ⟨K, u, rfl, rfl, hheight, hbefore, hafter⟩
    by_cases hu : u = .nil
    · subst hu
      exact Or.inl (by simp [rootAddr])
    · right
      have hne : rootAddr null u ≠ null := fun he => hu (h.rootAddr_eq_null.mp he)
      obtain ⟨c, l, p, r, rfl, hp, hl, hr⟩ := exists_node hu
      obtain ⟨hleft, hright, i, hi, hkey⟩ := h.step
      rw [hp] at hne ⊢
      refine ⟨by simp [hne], ?_⟩
      by_cases hk : k < i.key
      · refine ⟨l.height, (rootAddr null l, p), by omega, by simp [descendRound, hi, hk, hleft],
          ⟨.left, c, p, r⟩ :: K, l, rfl, rfl, le_rfl, forall_before_left hbefore, ?_⟩
        apply forall_after_left hs (fun x y hxy hx => lt_of_lt_of_le hx hxy) ?_ hafter
        rwa [← hkey]
      · refine ⟨r.height, (rootAddr null r, p), by omega, by simp [descendRound, hi, hk, hright],
          ⟨.right, c, p, l⟩ :: K, r, rfl, rfl, le_rfl, ?_, hafter⟩
        apply forall_before_right hs (fun x y hxy hy => hxy.trans hy) ?_ hbefore
        rw [← hkey]
        exact not_lt.mp hk
  have hstart : I T.height (t.root, nullPtr) :=
    ⟨[], T, rfl, by rw [h.tree.root]; rfl, le_rfl, by rintro _ ⟨⟩, by rintro _ ⟨⟩⟩
  obtain ⟨_, _, hloop, ⟨K, u, hT, rfl, -, hbefore, hafter⟩, hstop⟩ :=
    whileLoop_rule hround hstart hfuel
  subst hT
  obtain rfl : u = .nil := h.rootAddr_eq_null.mp (by simpa using hstop)
  exact ⟨K, rfl, hloop, hbefore, hafter⟩

/-- The search ends at a node with the key, or nowhere when there is none. -/
theorem search_loop (hs : Sorted t T) (hfuel : T.height ≤ fuel) (k : ℤ) :
    ∃ q, whileLoop (t.keyDiffers k) (t.searchRound k) fuel t.root = some q ∧
      (q = null → ∀ p ∈ T.inorder, t.keyAt p ≠ k) ∧
      (q ≠ null → q ∈ T.inorder ∧ t.keyAt q = k) := by
  let I : ℕ → ℕ → Prop := fun n x => ∃ K u, T = plug K u ∧ x = rootAddr null u ∧
    u.height ≤ n ∧ (∀ p ∈ before K, t.keyAt p < k) ∧ ∀ p ∈ after K, k < t.keyAt p
  have hround : ∀ n x, I n x → t.keyDiffers k x = some false ∨ t.keyDiffers k x = some true ∧
      ∃ m x', m < n ∧ t.searchRound k x = some x' ∧ I m x' := by
    rintro n _ ⟨K, u, rfl, rfl, hheight, hbefore, hafter⟩
    by_cases hu : u = .nil
    · subst hu
      exact Or.inl (if_pos rfl)
    · have hne : rootAddr null u ≠ null := fun he => hu (h.rootAddr_eq_null.mp he)
      obtain ⟨c, l, p, r, rfl, hp, hl, hr⟩ := exists_node hu
      obtain ⟨hleft, hright, i, hi, hkey⟩ := h.step
      rw [hp] at hne ⊢
      rcases lt_trichotomy k i.key with hk | hk | hk
      · refine Or.inr ⟨by simp [keyDiffers, hne, hi, hk.ne], l.height, rootAddr null l, by omega,
          by simp [searchRound, hi, hk, hleft], ⟨.left, c, p, r⟩ :: K, l, rfl, rfl, le_rfl,
          forall_before_left hbefore, ?_⟩
        apply forall_after_left hs (fun x y hxy hx => lt_of_lt_of_le hx hxy) ?_ hafter
        rwa [← hkey]
      · exact Or.inl (by simp [keyDiffers, hne, hi, hk])
      · refine Or.inr ⟨by simp [keyDiffers, hne, hi, hk.ne'], r.height, rootAddr null r, by omega,
          by simp [searchRound, hi, not_lt.mpr hk.le, hright], ⟨.right, c, p, l⟩ :: K, r, rfl,
          rfl, le_rfl, ?_, hafter⟩
        apply forall_before_right hs (fun x y hxy hy => lt_of_le_of_lt hxy hy) ?_ hbefore
        rwa [← hkey]
  have hstart : I T.height t.root := ⟨[], T, rfl, h.tree.root, le_rfl, nofun, nofun⟩
  obtain ⟨_, q, hloop, ⟨K, u, rfl, rfl, -, hbefore, hafter⟩, hstop⟩ :=
    whileLoop_rule hround hstart hfuel
  refine ⟨_, hloop, ?_, ?_⟩
  · intro hq p hp
    obtain rfl : u = .nil := h.rootAddr_eq_null.mp hq
    rw [inorder_plug, inorder, List.append_nil] at hp
    rcases List.mem_append.mp hp with hp | hp
    · exact (hbefore p hp).ne
    · exact (hafter p hp).ne'
  · intro hq
    have hu : u ≠ .nil := fun he => hq (h.rootAddr_eq_null.mpr he)
    have hmem : rootAddr null u ∈ (plug K u).inorder := mem_plug.mpr (Or.inl (rootAddr_mem hu))
    obtain ⟨i, hi, hkey⟩ := h.data? hmem
    refine ⟨hmem, ?_⟩
    rw [keyDiffers, if_neg hq, hi] at hstop
    rw [← hkey]
    exact (by simpa using hstop : k = i.key).symm

/-- The look-up ends with the first node whose key is not smaller. -/
theorem lookup_loop (hs : Sorted t T) (hfuel : T.height ≤ fuel) (k : ℤ) :
    ∃ y, whileLoop (fun x => some (x.2 ≠ null)) (t.lookupRound k) fuel (nullPtr, t.root) =
      some ((T.inorder.find? fun p => k ≤ t.keyAt p).getD nullPtr, y) := by
  let I : ℕ → ℕ × ℕ → Prop := fun n x => ∃ K u, T = plug K u ∧
    x = ((after K).head?.getD nullPtr, rootAddr null u) ∧ u.height ≤ n ∧
      (∀ p ∈ before K, t.keyAt p < k) ∧ ∀ p ∈ after K, k ≤ t.keyAt p
  have hround : ∀ n x, I n x → some (decide (x.2 ≠ null)) = some false ∨
      some (decide (x.2 ≠ null)) = some true ∧
        ∃ m x', m < n ∧ t.lookupRound k x = some x' ∧ I m x' := by
    rintro n _ ⟨K, u, rfl, rfl, hheight, hbefore, hafter⟩
    by_cases hu : u = .nil
    · subst hu
      exact Or.inl (by simp [rootAddr])
    · right
      have hne : rootAddr null u ≠ null := fun he => hu (h.rootAddr_eq_null.mp he)
      obtain ⟨c, l, p, r, rfl, hp, hl, hr⟩ := exists_node hu
      obtain ⟨hleft, hright, i, hi, hkey⟩ := h.step
      rw [hp] at hne ⊢
      refine ⟨by simp [hne], ?_⟩
      by_cases hk : k ≤ i.key
      · refine ⟨l.height, (p, rootAddr null l), by omega, by simp [lookupRound, hi, hk, hleft],
          ⟨.left, c, p, r⟩ :: K, l, rfl, rfl, le_rfl, forall_before_left hbefore, ?_⟩
        apply forall_after_left hs (fun x y hxy hx => hx.trans hxy) ?_ hafter
        rwa [← hkey]
      · refine ⟨r.height, ((after K).head?.getD nullPtr, rootAddr null r), by omega,
          by simp [lookupRound, hi, hk, hright], ⟨.right, c, p, l⟩ :: K, r, rfl, rfl, le_rfl, ?_,
          hafter⟩
        apply forall_before_right hs (fun x y hxy hy => lt_of_le_of_lt hxy hy) ?_ hbefore
        rw [← hkey]
        exact not_le.mp hk
  have hstart : I T.height (nullPtr, t.root) :=
    ⟨[], T, rfl, by rw [h.tree.root]; rfl, le_rfl, by rintro _ ⟨⟩, by rintro _ ⟨⟩⟩
  obtain ⟨_, _, hloop, ⟨K, u, rfl, rfl, -, hbefore, hafter⟩, hstop⟩ :=
    whileLoop_rule hround hstart hfuel
  obtain rfl : u = .nil := h.rootAddr_eq_null.mp (by simpa using hstop)
  have hfind : (plug K .nil).inorder.find? (fun p => k ≤ t.keyAt p) = (after K).head? := by
    rw [inorder_plug, inorder, List.append_nil, List.find?_append]
    have hlow : (before K).find? (fun p => decide (k ≤ t.keyAt p)) = none := by
      rw [List.find?_eq_none]
      intro p hp
      simpa using hbefore p hp
    rw [hlow, Option.none_or]
    cases hctx : after K with
    | nil => rfl
    | cons p l =>
      rw [hctx] at hafter
      rw [List.find?_cons_of_pos (by simpa using hafter p List.mem_cons_self)]
      rfl
  exact ⟨_, hfind ▸ hloop⟩

end Walks

theorem descend_spec (h : Holds t rp T) (hs : Sorted t T) (hsize : T.size ≤ t.size) (k : ℤ) :
    ∃ K, T = plug K .nil ∧ t.descend k t.root = some (null, top nullPtr K) ∧
      (∀ p ∈ before K, t.keyAt p ≤ k) ∧ ∀ p ∈ after K, k < t.keyAt p :=
  descend_loop h hs ((height_le_size T).trans hsize) k

theorem search_spec (h : Holds t rp T) (hs : Sorted t T) (hsize : T.size ≤ t.size) (k : ℤ) :
    ∃ o, t.search k = some o ∧ (o = none → ∀ p ∈ T.inorder, t.keyAt p ≠ k) ∧
      ∀ p, o = some p → p ∈ T.inorder ∧ t.keyAt p = k := by
  obtain ⟨q, hloop, hnone, hsome⟩ := search_loop h hs ((height_le_size T).trans hsize) k
  refine ⟨if q = null then none else some q, ?_, ?_, ?_⟩
  · rw [search, hloop]
    rfl
  · intro ho
    exact hnone (by simpa using ho)
  · intro p hp
    rw [Option.ite_none_left_eq_some] at hp
    obtain ⟨hq, hp⟩ := hp
    rw [← Option.some.inj hp]
    exact hsome hq

/-- The way along one side ends at the first or the last node. -/
theorem subtreeEnd_spec (h : Holds t rp (plug K u)) (hu : u ≠ .nil) (hsize : u.height ≤ t.size)
    (s : Side) : ∃ L c q v, u = plug L (nodeAt s c .nil q v) ∧ (∀ f ∈ L, f.side = s) ∧
      t.subtreeEnd s (rootAddr null u) = some q := by
  let I : ℕ → ℕ → Prop := fun n x => ∃ L w, u = plug L w ∧ w ≠ .nil ∧ x = rootAddr null w ∧
    w.height ≤ n ∧ ∀ f ∈ L, f.side = s
  have hround : ∀ n x, I n x → (t.memory.child? x s).map (fun y => decide (y ≠ null)) = some false ∨
      (t.memory.child? x s).map (fun y => decide (y ≠ null)) = some true ∧
        ∃ m x', m < n ∧ t.memory.child? x s = some x' ∧ I m x' := by
    rintro n _ ⟨L, w, rfl, hw, rfl, hheight, hside⟩
    obtain ⟨c, x, q, v, rfl⟩ := exists_nodeAt hw s
    rw [← plug_append] at h
    have hchild := h.child?_near
    rw [rootAddr_nodeAt, hchild]
    have hx : Holds t rp (plug (⟨s, c, q, v⟩ :: (L ++ K)) x) := h
    by_cases hnil : x = .nil
    · exact Or.inl (by simp [hnil, rootAddr])
    · have hne : rootAddr null x ≠ null := fun he => hnil (hx.rootAddr_eq_null.mp he)
      refine Or.inr ⟨by simp [hne], x.height, _, ?_, rfl, ⟨s, c, q, v⟩ :: L, x, rfl, hnil, rfl,
        le_rfl, ?_⟩
      · exact lt_of_lt_of_le height_lt_nodeAt hheight
      · intro f hf
        rcases List.mem_cons.mp hf with rfl | hf
        · rfl
        · exact hside f hf
  have hstart : I u.height (rootAddr null u) := ⟨[], u, rfl, hu, rfl, le_rfl, by rintro _ ⟨⟩⟩
  obtain ⟨_, _, hloop, ⟨L, w, rfl, hw, rfl, -, hside⟩, hstop⟩ :=
    whileLoop_rule hround hstart hsize
  obtain ⟨c, x, q, v, rfl⟩ := exists_nodeAt hw s
  rw [← plug_append] at h
  have hx : Holds t rp (plug (⟨s, c, q, v⟩ :: (L ++ K)) x) := h
  rw [rootAddr_nodeAt, h.child?_near] at hstop
  obtain rfl : x = .nil := hx.rootAddr_eq_null.mp (by simpa using hstop)
  have hne : rootAddr null (plug L (nodeAt s c .nil q v)) ≠ null := by
    rw [plug_append] at h
    exact fun he => hu (h.rootAddr_eq_null.mp he)
  refine ⟨L, c, q, v, rfl, hside, ?_⟩
  rw [subtreeEnd, if_neg hne, hloop, rootAddr_nodeAt]

/-- Where no node has a key that is not smaller, the first node is taken. -/
theorem lookup_spec (h : Holds t rp T) (hs : Sorted t T) (hsize : T.size ≤ t.size)
    (hzero : nullPtr ∉ T.inorder) (k : ℤ) :
    t.lookup k = some ((T.inorder.find? fun p => k ≤ t.keyAt p).or T.inorder.head?) := by
  by_cases hT : T = .nil
  · have hroot := h.root_eq_null.mpr hT
    subst hT
    simp [lookup, isempty, hroot, inorder]
  · have hroot : t.root ≠ null := fun he => hT (h.root_eq_null.mp he)
    obtain ⟨y, hloop⟩ := lookup_loop h hs ((height_le_size T).trans hsize) k
    have hempty : t.isempty = false := by simp [isempty, hroot]
    simp only [lookup, hempty, hloop, Option.bind_eq_bind, Option.bind_some]
    cases hfind : T.inorder.find? fun p => decide (k ≤ t.keyAt p) with
    | some p =>
      have hp : p ≠ nullPtr := by
        rintro rfl
        exact hzero (List.mem_of_find?_eq_some hfind)
      simp [hp]
    | none =>
      obtain ⟨L, c, q, v, rfl, hside, hend⟩ := subtreeEnd_spec (K := []) h hT
        ((height_le_size T).trans hsize) .left
      have hhead : (plug L (nodeAt .left c .nil q v)).inorder.head? = some q := by
        rw [inorder_plug, before_eq_nil hside]
        rfl
      rw [← h.tree.root] at hend
      simp [RbTree.min, subtreeMin, hend, hhead]

/-- The travel visits the nodes of a subtree in order. -/
theorem midTravelFrom_spec {σ : Type} (opera : ℕ → σ → Option σ) {fuel : ℕ}
    (h : Holds t rp (plug K u)) (hu : u ≠ .nil) (hfuel : u.height ≤ fuel) (d : σ) :
    t.midTravelFrom opera fuel (rootAddr null u) d = u.inorder.foldlM (fun d p => opera p d) d := by
  induction fuel generalizing K u d with
  | zero =>
    obtain ⟨c, l, p, r, rfl, -, hl, -⟩ := exists_node hu
    omega
  | succ fuel ih =>
    obtain ⟨c, l, p, r, rfl, hp, hl, hr⟩ := exists_node hu
    obtain ⟨hleft, hright, -⟩ := h.step
    have hsub : ∀ {K : List (Frame ℕ)} {u : CTree ℕ} {d : σ}, Holds t rp (plug K u) →
        u.height ≤ fuel → (if rootAddr null u ≠ null then
            t.midTravelFrom opera fuel (rootAddr null u) d else some d) =
          u.inorder.foldlM (fun d p => opera p d) d := by
      intro K u d h hheight
      by_cases hu : u = .nil
      · subst hu
        exact if_neg (not_not.mpr rfl)
      · rw [if_pos fun he => hu (h.rootAddr_eq_null.mp he)]
        exact ih h hu hheight d
    have hl := hsub (K := ⟨.left, c, p, r⟩ :: K) (u := l) (d := d) h (by omega)
    have hr := fun d => hsub (K := ⟨.right, c, p, l⟩ :: K) (u := r) (d := d) h (by omega)
    rw [midTravelFrom, hp, hleft, hright, inorder, List.foldlM_append, ← hl]
    simp only [Option.bind_eq_bind, Option.bind_some, List.foldlM_cons, hr]
    split_ifs <;> rfl

theorem midTravel_spec {σ : Type} (opera : ℕ → σ → Option σ) (h : Holds t rp T)
    (hsize : T.size ≤ t.size) (d : σ) :
    t.midTravel opera d = T.inorder.foldlM (fun d p => opera p d) d := by
  by_cases hT : T = .nil
  · have hroot := h.root_eq_null.mpr hT
    subst hT
    simp [midTravel, isempty, hroot, inorder]
  · have hroot : t.root ≠ null := fun he => hT (h.root_eq_null.mp he)
    have hempty : t.isempty = false := by simp [isempty, hroot]
    rw [midTravel, hempty, if_neg Bool.false_ne_true, h.tree.root]
    exact midTravelFrom_spec (K := []) opera h hT ((height_le_size T).trans hsize) d

end RbTree
end DCache.Ring
