import DCache.Ring.RbTree

/-! What the assignments and the rotations of the red-black tree make of the tree that the memory
holds. -/
namespace DCache.Ring
open DCache.Lib DCache.Lib.CTree

namespace RbTree
variable {V : Type} {t t' t₁ t₂ : RbTree V} {rp p q : ℕ} {s : Side} {c d k : Color}
  {u v w T T' : CTree ℕ} {K : List (Frame ℕ)} {f : Frame ℕ} {n n' : TreeCell (RbItem V)}

/-- The memory holds the tree, and the sentinel is black. The address above the root is `rp`. -/
structure Holds (t : RbTree V) (rp : ℕ) (T : CTree ℕ) : Prop where
  tree : HoldsTree t.memory null rp t.root T
  sentinel : t.memory.color? null = some .black

/-- No item changes, and nothing about the sentinel. -/
structure Keeps (t t' : RbTree V) : Prop where
  data : ∀ p, t'.memory.data? p = t.memory.data? p
  sentinel : t'.memory null = t.memory null
  size : t'.size = t.size

namespace Keeps

theorem refl (t : RbTree V) : Keeps t t := ⟨fun _ => rfl, rfl, rfl⟩

theorem trans (h : Keeps t t₁) (h' : Keeps t₁ t₂) : Keeps t t₂ :=
  ⟨fun p => (h'.data p).trans (h.data p), h'.sentinel.trans h.sentinel, h'.size.trans h.size⟩

end Keeps

/-- The links or the colour of one node change. -/
structure Assigned (t : RbTree V) (p : ℕ) (n' : TreeCell (RbItem V)) (t' : RbTree V) : Prop where
  here : t'.memory p = some n'
  other : ∀ x, x ≠ p → t'.memory x = t.memory x
  root : t'.root = t.root
  size : t'.size = t.size
  data : ∀ x, t'.memory.data? x = t.memory.data? x

namespace Assigned

theorem update (h : t.memory p = some n) (hn : n'.data = n.data) :
    Assigned t p n' { t with memory := Function.update t.memory p (some n') } := by
  refine ⟨Function.update_self _ _ _, fun x hx => Function.update_of_ne hx _ _, rfl, rfl, ?_⟩
  intro x
  by_cases hx : x = p
  · subst hx
    simp [TreeMem.data?, h, hn]
  · simp [TreeMem.data?, hx]

theorem keeps (h : Assigned t p n' t') (hp : p ≠ null) : Keeps t t' :=
  ⟨h.data, h.other null (Ne.symm hp), h.size⟩

theorem shape {par : ℕ} (h : Assigned t p n' t') (hs : Shape t.memory null par u)
    (hp : p ∉ u.inorder) : Shape t'.memory null par u := by
  apply hs.congr
  intro x hx
  apply h.other
  rintro rfl
  exact hp hx

theorem ctxShape (h : Assigned t p n' t') (hs : CtxShape t.memory null rp q K)
    (hp : p ∉ around K) : CtxShape t'.memory null rp q K := by
  apply hs.congr
  intro x hx
  apply h.other
  rintro rfl
  exact hp hx

end Assigned

theorem paint_of (h : t.memory p = some n) (k : Color) :
    ∃ t', t.paint p k = some t' ∧ Assigned t p (n.setColor k) t' := by
  refine ⟨_, ?_, .update h rfl⟩
  rw [paint, TreeMem.modify_of h]
  rfl

theorem setParent_of (h : t.memory p = some n) (q : ℕ) :
    ∃ t', t.setParent p q = some t' ∧ Assigned t p (n.setParent q) t' := by
  refine ⟨_, ?_, .update h rfl⟩
  rw [setParent, TreeMem.modify_of h]
  rfl

theorem setChild_of (h : t.memory p = some n) (s : Side) (q : ℕ) :
    ∃ t', t.setChild p s q = some t' ∧ Assigned t p (n.setChild s q) t' := by
  refine ⟨_, ?_, .update h (by simp)⟩
  rw [setChild, TreeMem.modify_of h]
  rfl

theorem rootAddr_plug_congr (h : rootAddr null u = rootAddr null v) :
    rootAddr null (plug K u) = rootAddr null (plug K v) := by
  induction K generalizing u v with
  | nil => exact h
  | cons f K ih => exact @ih (f.fill u) (f.fill v) (rootAddr_fill.trans rootAddr_fill.symm)

/-- What hangs below a node does not change the root. -/
theorem rootAddr_plug_cons : rootAddr null (plug (f :: K) u) = rootAddr null (plug (f :: K) v) :=
  @rootAddr_plug_congr (f.fill u) (f.fill v) K (rootAddr_fill.trans rootAddr_fill.symm)

theorem rootAddr_plug_replace (h : rootAddr null v = q) :
    (if K = [] then q else rootAddr null (plug K u)) = rootAddr null (plug K v) := by
  cases K with
  | nil => exact h.symm
  | cons f K => exact (if_neg (List.cons_ne_nil f K)).trans rootAddr_plug_cons

/-- The sibling of the hole has another address than what was in the hole. -/
theorem sibling_ne (hp : p ∉ around K) (hnull : p ≠ null) :
    ∀ f ∈ K.head?, rootAddr null f.sibling ≠ p := by
  intro f hf he
  cases K with
  | nil => cases hf
  | cons g K =>
    obtain rfl : g = f := Option.some.inj hf
    by_cases hnil : g.sibling = .nil
    · rw [hnil] at he
      exact hnull he.symm
    · apply hp
      rw [← he]
      exact mem_around_cons.mpr (Or.inr (Or.inl (rootAddr_mem hnil)))

/-- The side that a child is on. -/
theorem sideOf_of {i : RbItem V} {x y : ℕ} (hq : t.memory q = some (.linked s i c x p y))
    (hne : y ≠ p) : t.sideOf p q = some s := by
  cases s
  · simp [sideOf, TreeMem.child?, hq, TreeCell.linked, TreeCell.child]
  · simp [sideOf, TreeMem.child?, hq, TreeCell.linked, TreeCell.child, Ne.symm hne]

namespace Holds

theorem ne_null (h : Holds t rp T) (hp : p ∈ T.inorder) : p ≠ null := by
  rintro rfl
  exact h.tree.null hp

/-- A change below the hole. -/
theorem replace (h : Holds t rp (plug K u)) (hroot : t'.root = rootAddr null (plug K v))
    (hv : Shape t'.memory null (top rp K) v)
    (hctx : CtxShape t'.memory null rp (rootAddr null v) K)
    (hinorder : v.inorder = u.inorder) (hsentinel : t'.memory null = t.memory null) :
    Holds t' rp (plug K v) := by
  have hsame : (plug K v).inorder = (plug K u).inorder := inorder_plug_congr hinorder
  constructor
  · constructor
    · exact hroot
    · exact shape_plug.mpr ⟨hv, hctx⟩
    · rw [hsame]
      exact h.tree.nodup
    · rw [hsame]
      exact h.tree.null
  · rw [TreeMem.color?, hsentinel]
    exact h.sentinel

/-- A node gets a colour. -/
theorem paint (h : Holds t rp (plug K (nodeAt s c u p v))) (k : Color) :
    ∃ t', t.paint p k = some t' ∧ Holds t' rp (plug K (nodeAt s k u p v)) ∧ Keeps t t' := by
  obtain ⟨i, hp⟩ := h.tree.focus
  have hmem : p ∈ (nodeAt s c u p v).inorder := mem_inorder_nodeAt.mpr (Or.inl rfl)
  have hnull : p ≠ null := h.ne_null (mem_plug.mpr (Or.inl hmem))
  obtain ⟨hnode, -, hdisj⟩ := nodup_plug h.tree.nodup
  obtain ⟨hpu, hpv, -, -, -⟩ := nodup_nodeAt hnode
  obtain ⟨hshape, hctx⟩ := shape_plug.mp h.tree.shape
  obtain ⟨-, hu, hv⟩ := shape_nodeAt.mp hshape
  obtain ⟨t', ht', ha⟩ := paint_of hp k
  rw [TreeCell.setColor_linked] at ha
  refine ⟨t', ht', ?_, ha.keeps hnull⟩
  apply h.replace
  · rw [ha.root, h.tree.root]
    exact rootAddr_plug_congr (by simp)
  · exact shape_nodeAt.mpr ⟨⟨i, ha.here⟩, ha.shape hu hpu, ha.shape hv hpv⟩
  · rw [rootAddr_nodeAt] at hctx ⊢
    exact ha.ctxShape hctx (hdisj p hmem)
  · cases s <;> rfl
  · exact ha.other null (Ne.symm hnull)

end Holds

/-- Another address is hung below the node above a hole. -/
theorem setChild_ctx (hctx : CtxShape t.memory null rp p (f :: K))
    (hn : (around (f :: K)).Nodup) (q : ℕ) :
    ∃ t', t.setChild f.elem f.side q = some t' ∧ CtxShape t'.memory null rp q (f :: K) ∧
      t'.root = t.root ∧ t'.size = t.size ∧ (∀ x, x ≠ f.elem → t'.memory x = t.memory x) ∧
      ∀ x, t'.memory.data? x = t.memory.data? x := by
  obtain ⟨⟨i, hf⟩, -⟩ := id hctx
  obtain ⟨t', ht', ha⟩ := setChild_of hf f.side q
  rw [TreeCell.setChild_linked] at ha
  refine ⟨t', ht', ?_, ha.root, ha.size, ha.other, ha.data⟩
  apply hctx.rehang hn
  · rintro g ⟨⟩
    rw [hf, Option.map_some, TreeCell.setChild_linked]
    exact ha.here
  · intro x _ hx
    exact ha.other x (hx f rfl)

/-- The address below the node above a hole changes. -/
theorem replaceBelow_of (hroot : p = t.root ↔ K = [])
    (hctx : CtxShape t.memory null rp p K) (hp : t.memory.parent? p = some (top rp K))
    (hn : (around K).Nodup) (hsib : ∀ f ∈ K.head?, rootAddr null f.sibling ≠ p) (q : ℕ) :
    ∃ t', t.replaceBelow p q = some t' ∧ t'.root = (if K = [] then q else t.root) ∧
      CtxShape t'.memory null rp q K ∧ t'.size = t.size ∧
      (∀ x, x ∉ around K → t'.memory x = t.memory x) ∧
      ∀ x, t'.memory.data? x = t.memory.data? x := by
  cases K with
  | nil =>
    refine ⟨{ t with root := q }, ?_, rfl, trivial, rfl, fun _ _ => rfl, fun _ => rfl⟩
    rw [replaceBelow, if_pos (hroot.mpr rfl)]
  | cons f K =>
    have hne : p ≠ t.root := fun he => absurd (hroot.mp he) (List.cons_ne_nil _ _)
    obtain ⟨⟨i, hf⟩, -⟩ := id hctx
    have hfp : rootAddr null f.sibling ≠ p := hsib f rfl
    obtain ⟨t', hset, hctx', hroot', hsize, hother, hdata⟩ := setChild_ctx hctx hn q
    have hreplace : t.replaceBelow p q = t.setChild f.elem f.side q := by
      obtain ⟨s, c, e, v⟩ := f
      rw [replaceBelow, if_neg hne, hp]
      cases s
      · simp [top, TreeMem.child?, hf, TreeCell.linked, TreeCell.child]
      · simp [top, TreeMem.child?, hf, TreeCell.linked, TreeCell.child, hfp]
    refine ⟨t', hreplace.trans hset, ?_, hctx', hsize, fun x hx => hother x ?_, hdata⟩
    · rw [if_neg (List.cons_ne_nil _ _), hroot']
    · exact fun he => hx (mem_around_cons.mpr (Or.inl he))

/-- `q` takes the place of `p` below the parent of `p`. -/
theorem takePlace_of (hroot : p = t.root ↔ K = []) (hctx : CtxShape t.memory null rp p K)
    (hp : t.memory.parent? p = some (top rp K)) (hn : (around K).Nodup) (hpctx : p ∉ around K)
    (hnull : p ≠ null) (hq : t.memory q = some n) (hne : p ≠ q) (hqctx : q ∉ around K) :
    ∃ t₁ t₂, t.setParent q (top rp K) = some t₁ ∧ t₁.replaceBelow p q = some t₂ ∧
      t₂.memory q = some (n.setParent (top rp K)) ∧
      (∀ x, x ≠ q → x ∉ around K → t₂.memory x = t.memory x) ∧ CtxShape t₂.memory null rp q K ∧
      t₂.root = (if K = [] then q else t.root) ∧ t₂.size = t.size ∧
      ∀ x, t₂.memory.data? x = t.memory.data? x := by
  obtain ⟨t₁, ht₁, ha₁⟩ := setParent_of hq (top rp K)
  have hroot₁ : p = t₁.root ↔ K = [] := by rwa [ha₁.root]
  have hp₁ : t₁.memory.parent? p = some (top rp K) := by
    rw [TreeMem.parent?, ha₁.other p hne]
    exact hp
  obtain ⟨t₂, ht₂, hroot₂, hctx₂, hsize₂, hother₂, hdata₂⟩ := replaceBelow_of hroot₁
    (ha₁.ctxShape hctx hqctx) hp₁ hn (sibling_ne hpctx hnull) q
  refine ⟨t₁, t₂, ht₁, ht₂, (hother₂ q hqctx).trans ha₁.here, ?_, hctx₂, ?_,
    hsize₂.trans ha₁.size, fun x => (hdata₂ x).trans (ha₁.data x)⟩
  · intro x hxq hx
    rw [hother₂ x hx, ha₁.other x hxq]
  · rw [hroot₂, ha₁.root]

/-- A tree that is not empty is hung below `p`. -/
theorem adopt_of {par : ℕ} (hv : Shape t.memory null par v) (hn : v.inorder.Nodup)
    (hnull : null ∉ v.inorder) (p : ℕ) :
    ∃ t', t.adopt (rootAddr null v) p = some t' ∧ Shape t'.memory null p v ∧
      (∀ x, x ∉ v.inorder → t'.memory x = t.memory x) ∧ t'.root = t.root ∧ t'.size = t.size ∧
      ∀ x, t'.memory.data? x = t.memory.data? x := by
  by_cases hnil : v = .nil
  · subst hnil
    exact ⟨t, if_neg (not_not.mpr rfl), trivial, fun _ _ => rfl, rfl, rfl, fun _ => rfl⟩
  · have hmem : rootAddr null v ∈ v.inorder := rootAddr_mem hnil
    have hne : rootAddr null v ≠ null := fun he => hnull (he ▸ hmem)
    obtain ⟨n, hroot⟩ := hv.isSome hmem
    obtain ⟨t', ht', ha⟩ := setParent_of hroot p
    refine ⟨t', (if_pos hne).trans ht', ?_, ?_, ha.root, ha.size, ha.data⟩
    · apply hv.reparent hn
      · intro _
        rw [ha.here, hroot]
        rfl
      · exact fun x _ hx => ha.other x hx
    · intro x hx
      apply ha.other
      rintro rfl
      exact hx hmem

/-- `q` goes up, `p` goes down to the side `s`, and `v` changes its parent. -/
theorem Holds.rotate (h : Holds t rp (plug K (nodeAt s c u p (nodeAt s d v q w)))) :
    ∃ t', t.rotate s p = some t' ∧
      Holds t' rp (plug K (nodeAt s d (nodeAt s c u p v) q w)) ∧ Keeps t t' := by
  obtain ⟨i, hp⟩ := h.tree.focus
  obtain ⟨hnode, haround, hdisj⟩ := nodup_plug h.tree.nodup
  obtain ⟨hpu, hpq, hun, hqn, huq⟩ := nodup_nodeAt hnode
  obtain ⟨hqv, hqw, hvn, -, hvw⟩ := nodup_nodeAt hqn
  obtain ⟨hshape, hctx⟩ := shape_plug.mp h.tree.shape
  obtain ⟨-, hu, hright⟩ := shape_nodeAt.mp hshape
  obtain ⟨⟨j, hq⟩, hv, hw⟩ := shape_nodeAt.mp hright
  simp only [mem_inorder_nodeAt, not_or] at hpq
  obtain ⟨hne, hpv, hpw⟩ := hpq
  have hqp : q ≠ p := Ne.symm hne
  have hqmem : q ∈ (nodeAt s d v q w).inorder := mem_inorder_nodeAt.mpr (Or.inl rfl)
  have hqu : q ∉ u.inorder := fun hx => huq q hx hqmem
  have hpctx : p ∉ around K := hdisj p (mem_inorder_nodeAt.mpr (Or.inl rfl))
  have hqctx : q ∉ around K := hdisj q (mem_inorder_nodeAt.mpr (Or.inr (Or.inr hqmem)))
  have hpnull : p ≠ null := h.ne_null (mem_plug.mpr (Or.inl (mem_inorder_nodeAt.mpr (Or.inl rfl))))
  have hqnull : q ≠ null :=
    h.ne_null (mem_plug.mpr (Or.inl (mem_inorder_nodeAt.mpr (Or.inr (Or.inr hqmem)))))
  rw [rootAddr_nodeAt] at hp hctx
  -- `rc->parent = node->parent`, and `rc` in the place of `node`
  have hparent : t.memory.parent? p = some (top rp K) := by
    rw [TreeMem.parent?, hp]
    simp
  have hiff : p = t.root ↔ K = [] := by
    have hroot := h.tree.root_eq_iff nodeAt_ne_nil
    rwa [rootAddr_nodeAt] at hroot
  obtain ⟨t₁, t₂, ht₁, ht₂, hq₂, hother₂, hctx₂, hroot₂, hsize₂, hdata₂⟩ :=
    takePlace_of hiff hctx hparent haround hpctx hpnull hq hne hqctx
  -- the links between `node` and `rc`
  obtain ⟨t₃, ht₃, ha₃⟩ := setParent_of ((hother₂ p hne hpctx).trans hp) q
  have hq₃ := (ha₃.other q hqp).trans hq₂
  obtain ⟨t₄, ht₄, ha₄⟩ := setChild_of hq₃ s p
  have hp₄ := (ha₄.other p hne).trans ha₃.here
  obtain ⟨t₅, ht₅, ha₅⟩ := setChild_of hp₄ s.other (rootAddr null v)
  have hq₅ := (ha₅.other q hqp).trans ha₄.here
  have hp₅ := ha₅.here
  simp only [TreeCell.setParent_linked, TreeCell.setChild_linked, TreeCell.setChild_other_linked]
    at hq₅ hp₅
  have hother₅ : ∀ x, x ≠ p → x ≠ q → x ∉ around K → t₅.memory x = t.memory x := by
    intro x hxp hxq hx
    rw [ha₅.other x hxp, ha₄.other x hxq, ha₃.other x hxp, hother₂ x hxq hx]
  have hv₅ : Shape t₅.memory null q v := by
    apply hv.congr
    intro x hx
    apply hother₅
    · rintro rfl
      exact hpv hx
    · rintro rfl
      exact hqv hx
    · exact hdisj x (mem_inorder_nodeAt.mpr (Or.inr (Or.inr (mem_inorder_nodeAt.mpr
        (Or.inr (Or.inl hx))))))
  have hvnull : null ∉ v.inorder := fun hx => h.tree.null (mem_plug.mpr (Or.inl
    (mem_inorder_nodeAt.mpr (Or.inr (Or.inr (mem_inorder_nodeAt.mpr (Or.inr (Or.inl hx))))))))
  obtain ⟨t₆, ht₆, hv₆, hother₆, hroot₆, hsize₆, hdata₆⟩ := adopt_of hv₅ hvn hvnull p
  have hsubtree : ∀ {x}, x ∉ v.inorder → x ≠ p → x ≠ q → x ∉ around K →
      t₆.memory x = t.memory x := by
    intro x hx hxp hxq hxctx
    rw [hother₆ x hx, hother₅ x hxp hxq hxctx]
  have hnull₆ : t₆.memory null = t.memory null := by
    apply hsubtree hvnull (Ne.symm hpnull) (Ne.symm hqnull)
    exact fun hx => h.tree.null (mem_plug.mpr (Or.inr hx))
  refine ⟨t₆, ?_, ?_, ?_⟩
  · have hchild : t.memory.child? p s.other = some q := by
      rw [TreeMem.child?, hp]
      simp
    have hrclc : t.memory.child? q s = some (rootAddr null v) := by
      rw [TreeMem.child?, hq]
      simp
    simp only [RbTree.rotate, hchild, hrclc, hparent, ht₁, ht₂, ht₃, ht₄, ht₅, Option.bind_eq_bind,
      Option.bind_some]
    exact ht₆
  · apply h.replace
    · rw [hroot₆, ha₅.root, ha₄.root, ha₃.root, hroot₂, h.tree.root]
      exact rootAddr_plug_replace rootAddr_nodeAt
    · refine shape_nodeAt.mpr ⟨⟨j, ?_⟩, shape_nodeAt.mpr ⟨⟨i, ?_⟩, ?_, hv₆⟩, ?_⟩
      · rw [rootAddr_nodeAt, hother₆ q hqv]
        exact hq₅
      · rw [hother₆ p hpv]
        exact hp₅
      · apply hu.congr
        intro x hx
        apply hsubtree
        · intro hxv
          exact huq x hx (mem_inorder_nodeAt.mpr (Or.inr (Or.inl hxv)))
        · rintro rfl
          exact hpu hx
        · rintro rfl
          exact hqu hx
        · exact hdisj x (mem_inorder_nodeAt.mpr (Or.inr (Or.inl hx)))
      · apply hw.congr
        intro x hx
        apply hsubtree
        · exact fun hxv => hvw x hxv hx
        · rintro rfl
          exact hpw hx
        · rintro rfl
          exact hqw hx
        · exact hdisj x (mem_inorder_nodeAt.mpr (Or.inr (Or.inr (mem_inorder_nodeAt.mpr
            (Or.inr (Or.inr hx))))))
    · rw [rootAddr_nodeAt]
      apply hctx₂.congr
      intro x hx
      have hxp : x ≠ p := fun he => hpctx (he ▸ hx)
      have hxq : x ≠ q := fun he => hqctx (he ▸ hx)
      have hxv : x ∉ v.inorder := fun hv => hdisj x (mem_inorder_nodeAt.mpr (Or.inr (Or.inr
        (mem_inorder_nodeAt.mpr (Or.inr (Or.inl hv)))))) hx
      rw [hother₆ x hxv, ha₅.other x hxp, ha₄.other x hxq, ha₃.other x hxp]
    · cases s <;> simp [nodeAt, CTree.inorder]
    · exact hnull₆
  · refine ⟨?_, hnull₆, ?_⟩
    · intro x
      rw [hdata₆, ha₅.data, ha₄.data, ha₃.data, hdata₂]
    · rw [hsize₆, ha₅.size, ha₄.size, ha₃.size, hsize₂]

/-- The same tree with the hole on the other side of the node above it. -/
theorem plug_swap : plug (⟨s.other, c, p, u⟩ :: K) v = plug (⟨s, c, p, v⟩ :: K) u := by
  rw [plug_cons, plug_cons, Frame.fill, Frame.fill, nodeAt_other]

namespace Holds

theorem null_notMem (h : Holds t rp (plug K u)) : null ∉ u.inorder :=
  fun hx => h.tree.null (mem_plug.mpr (Or.inl hx))

/-- What the loops read at the root of a subtree. -/
theorem color?_root (h : Holds t rp (plug K u)) :
    t.memory.color? (rootAddr null u) = some u.color := by
  by_cases hu : u = .nil
  · subst hu
    exact h.sentinel
  · obtain ⟨c, v, p, w, rfl⟩ := exists_nodeAt hu .left
    obtain ⟨i, hp⟩ := h.tree.focus
    rw [rootAddr_nodeAt, TreeMem.color?, hp]
    simp

theorem parent?_root (h : Holds t rp (plug K u)) (hu : u ≠ .nil) :
    t.memory.parent? (rootAddr null u) = some (top rp K) := by
  obtain ⟨c, v, p, w, rfl⟩ := exists_nodeAt hu .left
  obtain ⟨i, hp⟩ := h.tree.focus
  rw [rootAddr_nodeAt, TreeMem.parent?, hp]
  simp

theorem child?_near (h : Holds t rp (plug K (nodeAt s c u p v))) :
    t.memory.child? p s = some (rootAddr null u) := by
  obtain ⟨i, hp⟩ := h.tree.focus
  rw [TreeMem.child?, hp]
  simp

theorem child?_far (h : Holds t rp (plug K (nodeAt s c u p v))) :
    t.memory.child? p s.other = some (rootAddr null v) := by
  obtain ⟨i, hp⟩ := h.tree.focus
  rw [TreeMem.child?, hp]
  simp

/-- Two children are not at one address, unless both are empty. -/
theorem near_ne_far (h : Holds t rp (plug K (nodeAt s c u p v))) (huv : u ≠ .nil ∨ v ≠ .nil) :
    rootAddr null v ≠ rootAddr null u := by
  obtain ⟨hnode, -, -⟩ := nodup_plug h.tree.nodup
  obtain ⟨-, -, -, -, hd⟩ := nodup_nodeAt hnode
  have hnull := h.null_notMem
  rw [mem_inorder_nodeAt, not_or, not_or] at hnull
  intro he
  by_cases hu : u = .nil
  · have hv := huv.resolve_left (not_not.mpr hu)
    rw [hu] at he
    exact hnull.2.2 ((show rootAddr null v = null from he) ▸ rootAddr_mem hv)
  · by_cases hv : v = .nil
    · rw [hv] at he
      exact hnull.2.1 ((show null = rootAddr null u from he) ▸ rootAddr_mem hu)
    · exact hd _ (rootAddr_mem hu) (he ▸ rootAddr_mem hv)

theorem sideOf (h : Holds t rp (plug K (nodeAt s c u p v))) (huv : u ≠ .nil ∨ v ≠ .nil) :
    t.sideOf (rootAddr null u) p = some s := by
  obtain ⟨i, hp⟩ := h.tree.focus
  exact sideOf_of hp (h.near_ne_far huv)

theorem blacken_root (h : Holds t rp (plug K u)) (hu : u ≠ .nil) :
    ∃ t', t.paint (rootAddr null u) .black = some t' ∧ Holds t' rp (plug K u.blacken) ∧
      Keeps t t' := by
  obtain ⟨c, v, p, w, rfl⟩ := exists_nodeAt hu .left
  rw [rootAddr_nodeAt, blacken_nodeAt]
  exact h.paint .black

end Holds
end RbTree
end DCache.Ring
