import DCache.Ring.RbSearch

/-! A deletion from the red-black tree of `util_rbtree.c`. -/
namespace DCache.Ring
open DCache.Lib DCache.Lib.CTree

namespace RbTree
variable {V : Type} {t t' : RbTree V} {rp a b p : ℕ} {s : Side} {c d : Color}
  {u u' v w x T : CTree ℕ} {K K₁ K' : List (Frame ℕ)} {f : Frame ℕ} {n : ℕ}

/-- The hole is at `s` of its parent, also where the sentinel is in it. -/
def Below (t : RbTree V) (K : List (Frame ℕ)) (u : CTree ℕ) : Prop :=
  u = .nil → ∀ f ∈ K.head?, t.memory.parent? null = some f.elem

theorem Below.parent? (hb : Below t (f :: K) u) (h : Holds t rp (plug (f :: K) u)) :
    t.memory.parent? (rootAddr null u) = some f.elem := by
  by_cases hu : u = .nil
  · have hparent := hb hu f rfl
    rwa [hu]
  · exact h.parent?_root hu

theorem Below.keeps {g : Frame ℕ} (hb : Below t (f :: K) u) (hk : Keeps t t')
    (he : g.elem = f.elem) : Below t' (g :: K') u := by
  rintro hu e ⟨⟩
  rw [TreeMem.parent?, hk.sentinel, he]
  exact hb hu f rfl

theorem turnSibling_spec (h : Holds t rp (plug (⟨s, c, a, w⟩ :: K) u))
    (hb : Below t (⟨s, c, a, w⟩ :: K) u) (hr : SiblingTurn (⟨s, c, a, w⟩ :: K) K₁) :
    ∃ t' d x K', K₁ = ⟨s, d, a, x⟩ :: K' ∧
      t.turnSibling (rootAddr null u) s (rootAddr null w) = some (t', rootAddr null x) ∧
      Holds t' rp (plug K₁ u) ∧ Keeps t t' := by
  have hsibling : Holds t rp (plug (⟨s.other, c, a, u⟩ :: K) w) := by
    rw [plug_swap]
    exact h
  have hcolor := hsibling.color?_root
  cases hr with
  | turn s c a b x v K =>
    obtain ⟨t₁, ht₁, h₁, hk₁⟩ := hsibling.paint .black
    rw [plug_swap] at h₁
    have hp₁ := (hb.keeps hk₁ (g := ⟨s, c, a, nodeAt s .black x b v⟩) rfl).parent? h₁
    obtain ⟨t₂, ht₂, h₂, hk₂⟩ := Holds.paint (K := K) h₁ .red
    have hk₂ := hk₁.trans hk₂
    have hp₂ := (hb.keeps hk₂ (g := ⟨s, .red, a, nodeAt s .black x b v⟩) rfl).parent?
      (K := K) h₂
    obtain ⟨t₃, ht₃, h₃, hk₃⟩ := h₂.rotate
    have hk₃ := hk₂.trans hk₃
    have hp₃ := (hb.keeps hk₃ (g := ⟨s, .red, a, x⟩) rfl).parent?
      (K := ⟨s, .black, b, v⟩ :: K) h₃
    have hfar := Holds.child?_far (K := ⟨s, .black, b, v⟩ :: K) h₃
    refine ⟨t₃, _, _, _, rfl, ?_, h₃, hk₃⟩
    rw [rootAddr_nodeAt, color_nodeAt] at hcolor
    simp only [turnSibling, hcolor, ht₁, hp₁, ht₂, hp₂, ht₃, hp₃, hfar, if_true, rootAddr_nodeAt,
      Option.bind_eq_bind, Option.bind_some]
  | stay s c a w K hw =>
    refine ⟨t, _, _, _, rfl, ?_, h, .refl t⟩
    simp only [turnSibling, hcolor, hw, if_false, reduceCtorEq, Option.bind_eq_bind,
      Option.bind_some]

theorem raiseSibling_spec (h : Holds t rp (plug (⟨s, c, a, nodeAt s d x b v⟩ :: K) u))
    (hb : Below t (⟨s, c, a, nodeAt s d x b v⟩ :: K) u) (hv : v ≠ .nil) :
    ∃ t', t.raiseSibling (rootAddr null u) s b =
        some (t', rootAddr null (plug K (nodeAt s c (nodeAt s .black u a x) b v.blacken))) ∧
      Holds t' rp (plug K (nodeAt s c (nodeAt s .black u a x) b v.blacken)) ∧ Keeps t t' := by
  have hp := hb.parent? h
  have hcolor : t.memory.color? a = some c := by
    have hroot := Holds.color?_root (K := K) h
    rwa [rootAddr_fill, Frame.fill, color_nodeAt] at hroot
  obtain ⟨t₁, ht₁, h₁, hk₁⟩ := Holds.paint (K := ⟨s.other, c, a, u⟩ :: K)
    (by rw [plug_swap]; exact h) c
  rw [plug_swap] at h₁
  have hp₁ := (hb.keeps hk₁ (g := ⟨s, c, a, nodeAt s c x b v⟩) rfl).parent? h₁
  obtain ⟨t₂, ht₂, h₂, hk₂⟩ := Holds.paint (K := K) h₁ .black
  have hk₂ := hk₁.trans hk₂
  have hlow : Holds t₂ rp (plug (⟨s.other, .black, a, u⟩ :: K) (nodeAt s c x b v)) := by
    rw [plug_swap]
    exact h₂
  have hfar := hlow.child?_far
  obtain ⟨t₃, ht₃, h₃, hk₃⟩ := Holds.blacken_root
    (K := ⟨s.other, c, b, x⟩ :: ⟨s.other, .black, a, u⟩ :: K)
    (by rw [plug_swap]; exact hlow) hv
  rw [plug_swap, plug_cons, plug_swap] at h₃
  have hk₃ := hk₂.trans hk₃
  have hp₃ := (hb.keeps hk₃ (g := ⟨s, .black, a, nodeAt s c x b v.blacken⟩) rfl).parent?
    (K := K) h₃
  obtain ⟨t₄, ht₄, h₄, hk₄⟩ := Holds.rotate (K := K) h₃
  refine ⟨t₄, ?_, h₄, hk₃.trans hk₄⟩
  simp only [raiseSibling, hp, hcolor, ht₁, hp₁, ht₂, hfar, ht₃, hp₃, ht₄, h₄.tree.root,
    Option.bind_eq_bind, Option.bind_some]

/-- The children of the sibling, seen from the sibling. -/
private theorem Holds.nephews (h : Holds t rp (plug (⟨s, c, a, nodeAt s d x b v⟩ :: K) u)) :
    Holds t rp (plug (⟨s.other, c, a, u⟩ :: K) (nodeAt s d x b v)) ∧
      t.memory.child? b s = some (rootAddr null x) ∧
      t.memory.child? b s.other = some (rootAddr null v) ∧
      t.memory.color? (rootAddr null x) = some x.color ∧
      t.memory.color? (rootAddr null v) = some v.color := by
  have hlow : Holds t rp (plug (⟨s.other, c, a, u⟩ :: K) (nodeAt s d x b v)) := by
    rw [plug_swap]
    exact h
  have hfar : Holds t rp (plug (⟨s.other, d, b, x⟩ :: ⟨s.other, c, a, u⟩ :: K) v) := by
    rw [plug_swap]
    exact hlow
  exact ⟨hlow, hlow.child?_near, hlow.child?_far,
    Holds.color?_root (K := ⟨s, d, b, v⟩ :: ⟨s.other, c, a, u⟩ :: K) hlow, hfar.color?_root⟩

theorem turnNear_spec {e : ℕ} {y : CTree ℕ}
    (h : Holds t rp (plug (⟨s, c, a, nodeAt s d (nodeAt s .red x e y) b v⟩ :: K) u))
    (hb : Below t (⟨s, c, a, nodeAt s d (nodeAt s .red x e y) b v⟩ :: K) u)
    (hv : v.color = .black) :
    ∃ t', t.turnNear (rootAddr null u) s b = some (t', e) ∧
      Holds t' rp (plug (⟨s, c, a, nodeAt s .black x e (nodeAt s .red y b v)⟩ :: K) u) ∧
      Keeps t t' := by
  obtain ⟨hlow, hnear, hfar, -, hcolor⟩ := h.nephews
  obtain ⟨t₁, ht₁, h₁, hk₁⟩ :=
    Holds.paint (K := ⟨s, d, b, v⟩ :: ⟨s.other, c, a, u⟩ :: K) hlow .black
  obtain ⟨t₂, ht₂, h₂, hk₂⟩ := Holds.paint (K := ⟨s.other, c, a, u⟩ :: K) h₁ .red
  have hrotate : Holds t₂ rp (plug (⟨s.other, c, a, u⟩ :: K)
      (nodeAt s.other .red v b (nodeAt s.other .black y e x))) := by
    rw [nodeAt_other, nodeAt_other]
    exact h₂
  obtain ⟨t₃, ht₃, h₃, hk₃⟩ := hrotate.rotate
  rw [nodeAt_other, nodeAt_other, plug_swap] at h₃
  have hk := (hk₁.trans hk₂).trans hk₃
  have hp₃ := (hb.keeps hk (g := ⟨s, c, a, nodeAt s .black x e (nodeAt s .red y b v)⟩) rfl).parent?
    h₃
  have hchild := Holds.child?_far (K := K) h₃
  rw [rootAddr_nodeAt] at hnear hchild
  refine ⟨t₃, ?_, h₃, hk⟩
  simp only [turnNear, hfar, hcolor, hv, hnear, ht₁, ht₂, ht₃, hp₃, hchild, if_true,
    Option.bind_eq_bind, Option.bind_some]

theorem deleteRound_spec (h : Holds t rp (plug K u)) (hb : Below t K u)
    (hr₁ : SiblingTurn K K₁) (hr : DeleteRound K₁ u K' u') :
    ∃ t', deleteRound (t, rootAddr null u) = some (t', rootAddr null u') ∧
      Holds t' rp (plug K' u') ∧ Keeps t t' := by
  obtain ⟨s, c, a, w, K, rfl, hw⟩ : ∃ s c a w ctx₀, K = ⟨s, c, a, w⟩ :: ctx₀ ∧ w ≠ .nil := by
    cases hr₁ with
    | turn => exact ⟨_, _, _, _, _, rfl, nodeAt_ne_nil⟩
    | stay => cases hr <;> exact ⟨_, _, _, _, _, rfl, nodeAt_ne_nil⟩
  have hp := hb.parent? h
  have hside := Holds.sideOf (K := K) h (Or.inr hw)
  have hfar := Holds.child?_far (K := K) h
  obtain ⟨t₁, d, x, ctx₀, rfl, ht₁, h₁, hk₁⟩ := turnSibling_spec h hb hr₁
  have hb₁ : Below t₁ (⟨s, d, a, x⟩ :: ctx₀) u := hb.keeps hk₁ rfl
  have hstart : deleteRound (t, rootAddr null u) = (do
      let near ← t₁.memory.child? (rootAddr null x) s
      let far ← t₁.memory.child? (rootAddr null x) s.other
      if (← t₁.memory.color? near) = .black ∧ (← t₁.memory.color? far) = .black then
        let t ← t₁.paint (rootAddr null x) .red
        some (t, ← t.memory.parent? (rootAddr null u))
      else
        (t₁.turnNear (rootAddr null u) s (rootAddr null x)).bind fun tw =>
          tw.1.raiseSibling (rootAddr null u) s tw.2) := by
    simp only [deleteRound, hp, hside, hfar, ht₁, Option.bind_eq_bind, Option.bind_some]
  rw [hstart]
  cases hr with
  | push _ _ _ b _ y v _ hy hv =>
    obtain ⟨hlow, hnear, hfar, hcy, hcv⟩ := h₁.nephews
    obtain ⟨t₂, ht₂, h₂, hk₂⟩ := hlow.paint .red
    rw [plug_swap] at h₂
    have hp₂ := (hb₁.keeps hk₂ (g := ⟨s, d, a, nodeAt s .red y b v⟩) rfl).parent? h₂
    refine ⟨t₂, ?_, h₂, hk₁.trans hk₂⟩
    simp only [rootAddr_nodeAt, hnear, hfar, hcy, hcv, hy, hv, ht₂, hp₂, and_self, if_true,
      Option.bind_eq_bind, Option.bind_some]
  | far _ _ _ b _ y v _ hv =>
    obtain ⟨-, hnear, hfar, hcy, hcv⟩ := h₁.nephews
    have hvn : v ≠ .nil := by
      rintro rfl
      cases hv
    obtain ⟨t₂, ht₂, h₂, hk₂⟩ := raiseSibling_spec h₁ hb₁ hvn
    have hstay : t₁.turnNear (rootAddr null u) s b = some (t₁, b) := by
      simp only [turnNear, hfar, hcv, hv, if_false, reduceCtorEq, Option.bind_eq_bind,
        Option.bind_some]
    refine ⟨t₂, ?_, h₂, hk₁.trans hk₂⟩
    simp only [rootAddr_nodeAt, hnear, hfar, hcy, hcv, hv, hstay, ht₂, and_false, if_false,
      reduceCtorEq, Option.bind_eq_bind, Option.bind_some]
  | near _ _ _ b e _ y z v _ hv =>
    obtain ⟨-, hnear, hfar, hcy, hcv⟩ := h₁.nephews
    obtain ⟨t₂, ht₂, h₂, hk₂⟩ := turnNear_spec h₁ hb₁ hv
    obtain ⟨t₃, ht₃, h₃, hk₃⟩ := raiseSibling_spec h₂ (hb₁.keeps hk₂ rfl) nodeAt_ne_nil
    rw [blacken_nodeAt] at ht₃ h₃
    rw [rootAddr_nodeAt, color_nodeAt] at hcy
    refine ⟨t₃, ?_, h₃, (hk₁.trans hk₂).trans hk₃⟩
    simp only [rootAddr_nodeAt, hnear, hfar, hcy, hcv, ht₂, ht₃, false_and, if_false,
      reduceCtorEq, Option.bind_eq_bind, Option.bind_some]

theorem tooLow_of (h : Holds t rp (plug K u)) :
    tooLow (t, rootAddr null u) = some (decide (K ≠ [] ∧ u.color = .black)) := by
  have hroot : rootAddr null u = t.root ↔ K = [] := by
    by_cases hu : u = .nil
    · subst hu
      constructor
      · intro he
        by_contra hne
        have hnil := h.root_eq_null.mp he.symm
        cases K with
        | nil => exact hne rfl
        | cons f K => exact @plug_ne_nil _ K (f.fill .nil) nodeAt_ne_nil hnil
      · rintro rfl
        exact h.tree.root.symm
    · exact h.tree.root_eq_iff hu
  rw [tooLow, h.color?_root]
  by_cases hctx : K = []
  · rw [if_neg (not_not.mpr (hroot.mpr hctx))]
    simp [hctx]
  · rw [if_pos fun he => hctx (hroot.mp he)]
    simp [hctx]

/-- The root of a subtree is blackened, be it the sentinel. -/
private theorem Holds.blacken (h : Holds t rp (plug K u)) :
    ∃ t', t.paint (rootAddr null u) .black = some t' ∧ Holds t' rp (plug K u.blacken) ∧
      (∀ x, t'.memory.data? x = t.memory.data? x) ∧ t'.size = t.size := by
  by_cases hu : u = .nil
  · subst hu
    obtain ⟨n, hn, hcolor⟩ := Option.map_eq_some_iff.mp h.sentinel
    obtain ⟨t', ht', ha⟩ := paint_of hn .black
    have hsame : t'.memory null = t.memory null := by
      rw [ha.here, hn, ← hcolor]
      rfl
    refine ⟨t', ht', ⟨⟨ha.root.trans h.tree.root, ?_, h.tree.nodup, h.tree.null⟩, ?_⟩, ha.data,
      ha.size⟩
    · exact ha.shape h.tree.shape h.tree.null
    · rw [TreeMem.color?, hsame]
      exact h.sentinel
  · obtain ⟨t', ht', h', hk⟩ := h.blacken_root hu
    exact ⟨t', ht', h', hk.data, hk.size⟩

/-- The loop ends at a red node or at the root, and the node is blackened. -/
theorem deleteFixup_spec (h : Holds t rp (plug K u)) (hb : Below t K u)
    (hd : DeleteRb n K u) (hsize : (plug K u).size ≤ t.size) :
    ∃ t' T' m, t.deleteFixup (rootAddr null u) = some t' ∧ Holds t' rp T' ∧ IsRb m T' ∧
      T'.color = .black ∧ T'.inorder = (plug K u).inorder ∧
      (∀ x, t'.memory.data? x = t.memory.data? x) ∧ t'.size = t.size := by
  let I : ℕ → RbTree V × ℕ → Prop := fun k x => ∃ K' u' m, x.2 = rootAddr null u' ∧
    DeleteRb m K' u' ∧ Holds x.1 rp (plug K' u') ∧ Below x.1 K' u' ∧
      deleteMeasure K' u' ≤ k ∧ (plug K' u').inorder = (plug K u).inorder ∧ Keeps t x.1
  have hround : ∀ k x, I k x → tooLow x = some false ∨
      tooLow x = some true ∧ ∃ m x', m < k ∧ deleteRound x = some x' ∧ I m x' := by
    rintro k ⟨t₁, _⟩ ⟨K₁, u₁, m₁, rfl, hd₁, h₁, hb₁, hk, hsame, hkeeps⟩
    rw [tooLow_of h₁]
    by_cases hgo : K₁ ≠ [] ∧ u₁.color = .black
    · obtain ⟨K₂, K₃, u₃, hr₁, hr⟩ := exists_deleteRound hd₁ hgo.1
      obtain ⟨t₃, ht₃, h₃, hk₃⟩ := deleteRound_spec h₁ hb₁ hr₁ hr
      obtain ⟨m₃, hd₃⟩ := hr.deleteRb (hr₁.deleteRb hd₁) hgo.2
      have hne : u₃ ≠ .nil := by
        cases hr with
        | push => exact nodeAt_ne_nil
        | far => exact plug_ne_nil nodeAt_ne_nil
        | near => exact plug_ne_nil nodeAt_ne_nil
      refine Or.inr ⟨by simp [hgo], deleteMeasure K₃ u₃, _, ?_, ht₃, K₃, u₃, m₃, rfl, hd₃, h₃,
        fun hnil => absurd hnil hne, le_rfl, ?_, hkeeps.trans hk₃⟩
      · exact lt_of_lt_of_le (hr.measure_lt hr₁ hgo.2) hk
      · exact hr.inorder.trans (hr₁.inorder.trans hsame)
    · exact Or.inl (by rw [decide_eq_false hgo])
  have hstart : I (deleteMeasure K u) (t, rootAddr null u) :=
    ⟨K, u, n, rfl, hd, h, hb, le_rfl, rfl, .refl t⟩
  have hfuel : deleteMeasure K u ≤ t.size + 1 := by
    have hmeasure : deleteMeasure K u ≤ K.length + 1 := deleteMeasure_le
    have hlength : K.length + u.height ≤ (plug K u).height := length_add_height_le
    have hheight := height_le_size (plug K u)
    omega
  obtain ⟨k, ⟨t₁, node⟩, hloop, ⟨K₁, u₁, m₁, hnode, hd₁, h₁, -, -, hsame, hkeeps⟩, hstop⟩ :=
    whileLoop_rule hround hstart hfuel
  dsimp only at hnode h₁ hkeeps
  subst hnode
  have hend : K₁ = [] ∨ u₁.color = .red := by
    rw [tooLow_of h₁] at hstop
    by_cases hctx : K₁ = []
    · exact Or.inl hctx
    · exact Or.inr (Color.eq_red fun hc => by simp [hctx, hc] at hstop)
  obtain ⟨m, hm, hcolor⟩ := hd₁.isRb hend
  obtain ⟨t₂, ht₂, h₂, hdata, hsize₂⟩ := h₁.blacken
  refine ⟨t₂, _, m, ?_, h₂, hm, hcolor, ?_, fun x => (hdata x).trans (hkeeps.data x),
    hsize₂.trans hkeeps.size⟩
  · simp only [deleteFixup, hloop, Option.bind_eq_bind, Option.bind_some]
    exact ht₂
  · exact (inorder_plug_congr inorder_blacken).trans hsame

/-- `subst->parent = q`, also where `subst` is the sentinel. -/
private theorem setParent_root {par : ℕ} (hv : Shape t.memory null par v) (hn : v.inorder.Nodup)
    (hnull : null ∉ v.inorder) (hs : t.memory.color? null = some .black) (q : ℕ) :
    ∃ t', t.setParent (rootAddr null v) q = some t' ∧ Shape t'.memory null q v ∧
      (v = .nil → t'.memory.parent? null = some q) ∧ t'.memory.color? null = some .black ∧
      (∀ x, x ≠ rootAddr null v → t'.memory x = t.memory x) ∧ t'.root = t.root ∧
      t'.size = t.size ∧ ∀ x, t'.memory.data? x = t.memory.data? x := by
  by_cases hnil : v = .nil
  · subst hnil
    obtain ⟨n, hroot, hcolor⟩ := Option.map_eq_some_iff.mp hs
    obtain ⟨t', ht', ha⟩ := setParent_of hroot q
    refine ⟨t', ht', trivial, fun _ => ?_, ?_, ha.other, ha.root, ha.size, ha.data⟩
    · rw [TreeMem.parent?, ha.here]
      rfl
    · rw [TreeMem.color?, ha.here, ← hcolor]
      rfl
  · have hmem : rootAddr null v ∈ v.inorder := rootAddr_mem hnil
    have hne : null ≠ rootAddr null v := fun he => hnull (he ▸ hmem)
    obtain ⟨n, hroot⟩ := hv.isSome hmem
    obtain ⟨t', ht', ha⟩ := setParent_of hroot q
    refine ⟨t', ht', ?_, fun he => absurd he hnil, ?_, ha.other, ha.root, ha.size, ha.data⟩
    · apply hv.reparent hn
      · intro _
        rw [ha.here, hroot]
        rfl
      · exact fun x _ hx => ha.other x hx
    · rw [TreeMem.color?, ha.other null hne]
      exact hs

/-- A node with one child at most leaves the tree. Its child may be told another parent. -/
theorem unlink_spec {q : ℕ} (h : Holds t rp (plug (f :: K) (nodeAt s c .nil q v))) (node : ℕ) :
    ∃ t', t.unlink node q (rootAddr null v) = some t' ∧
      Shape t'.memory null (if f.elem = node then q else f.elem) v ∧
      CtxShape t'.memory null rp (rootAddr null v) (f :: K) ∧
      (v = .nil → t'.memory.parent? null = some (if f.elem = node then q else f.elem)) ∧
      t'.memory.color? null = some .black ∧ t'.memory q = t.memory q ∧ t'.root = t.root ∧
      t'.size = t.size ∧ ∀ x, t'.memory.data? x = t.memory.data? x := by
  obtain ⟨hnode, haround, hdisj⟩ := nodup_plug h.tree.nodup
  obtain ⟨-, hqv, -, hvn, -⟩ := nodup_nodeAt hnode
  obtain ⟨hshape, hctx⟩ := shape_plug.mp h.tree.shape
  obtain ⟨-, -, hv⟩ := shape_nodeAt.mp hshape
  have hqmem : q ∈ (nodeAt s c .nil q v).inorder := mem_inorder_nodeAt.mpr (Or.inl rfl)
  have hqctx := hdisj q hqmem
  have hqnull : q ≠ null := h.ne_null (mem_plug.mpr (Or.inl hqmem))
  have hfctx : f.elem ∈ around (f :: K) := mem_around_cons.mpr (Or.inl rfl)
  have hvctx : ∀ x ∈ v.inorder, x ∉ around (f :: K) :=
    fun x hx => hdisj x (mem_inorder_nodeAt.mpr (Or.inr (Or.inr hx)))
  have hnull : null ∉ v.inorder := fun hx => h.null_notMem
    (mem_inorder_nodeAt.mpr (Or.inr (Or.inr hx)))
  have hsubst : ∀ x, x ∈ around (f :: K) ∨ x = q → x ≠ rootAddr null v := by
    rintro x hx rfl
    by_cases hnil : v = .nil
    · subst hnil
      rcases hx with hx | hx
      · exact h.tree.null (mem_plug.mpr (Or.inr hx))
      · exact hqnull hx.symm
    · have hmem : rootAddr null v ∈ v.inorder := rootAddr_mem hnil
      rcases hx with hx | hx
      · exact hvctx _ hmem hx
      · exact hqv (hx ▸ hmem)
  have hparent : t.memory.parent? q = some f.elem := by
    have hroot := h.parent?_root nodeAt_ne_nil
    rwa [rootAddr_nodeAt] at hroot
  rw [rootAddr_nodeAt] at hctx
  obtain ⟨t₁, ht₁, hv₁, hnil₁, hs₁, hother₁, hroot₁, hsize₁, hdata₁⟩ := setParent_root hv hvn hnull
    h.sentinel (if f.elem = node then q else f.elem)
  have hctx₁ := hctx.congr fun x hx => hother₁ x (hsubst x (Or.inl hx))
  have hparent₁ : t₁.memory.parent? q = some f.elem := by
    rw [TreeMem.parent?, hother₁ q (hsubst q (Or.inr rfl))]
    exact hparent
  obtain ⟨t₂, ht₂, hctx₂, hroot₂, hsize₂, hother₂, hdata₂⟩ :=
    setChild_ctx hctx₁ haround (rootAddr null v)
  have hnullf : null ≠ f.elem := fun he => h.tree.null (he ▸ mem_plug.mpr (Or.inr hfctx))
  refine ⟨t₂, ?_, ?_, hctx₂, ?_, ?_, ?_, hroot₂.trans hroot₁, hsize₂.trans hsize₁,
    fun x => (hdata₂ x).trans (hdata₁ x)⟩
  · obtain ⟨⟨i, hf⟩, -⟩ := hctx₁
    have hsib : rootAddr null f.sibling ≠ q := sibling_ne hqctx hqnull f rfl
    simp only [unlink, hparent, ht₁, hparent₁, Option.bind_eq_bind, Option.bind_some]
    rw [← ht₂]
    obtain ⟨s, c, e, v⟩ := f
    cases s
    · simp [TreeMem.child?, hf, TreeCell.linked, TreeCell.child]
    · simp [TreeMem.child?, hf, TreeCell.linked, TreeCell.child, Ne.symm hsib]
  · apply hv₁.congr
    intro x hx
    apply hother₂
    rintro rfl
    exact hvctx _ hx hfctx
  · intro hnil
    rw [TreeMem.parent?, hother₂ null hnullf]
    exact hnil₁ hnil
  · rw [TreeMem.color?, hother₂ null hnullf]
    exact hs₁
  · rw [hother₂ q fun he => hqctx (he ▸ hfctx), hother₁ q (hsubst q (Or.inr rfl))]

/-- `temp` takes the place of `node`, whose subtrees it adopts. -/
theorem substitute_spec {q par par' : ℕ} {i : RbItem V} {l r : CTree ℕ} {n : TreeCell (RbItem V)}
    (hroot : t.root = rootAddr null (plug K (.node c l p r)))
    (hp : t.memory p = some ⟨i, c, top rp K, rootAddr null l, rootAddr null r⟩)
    (hl : Shape t.memory null par l) (hr : Shape t.memory null par' r)
    (hctx : CtxShape t.memory null rp p K) (hnodup : (plug K (.node c l p r)).inorder.Nodup)
    (hnull : null ∉ (plug K (.node c l p r)).inorder)
    (hs : t.memory.color? null = some .black) (hq : t.memory q = some n)
    (hqT : q ∉ (plug K (.node c l p r)).inorder) (hqnull : q ≠ null) :
    ∃ t', t.substitute p q = some t' ∧ Holds t' rp (plug K (.node c l q r)) ∧ Keeps t t' := by
  obtain ⟨hnode, haround, hdisj⟩ := nodup_plug hnodup
  obtain ⟨hpl, hpr, hln, hrn, hlr⟩ := nodup_nodeAt (s := .left) hnode
  have hmem : ∀ {x}, x = p ∨ x ∈ l.inorder ∨ x ∈ r.inorder → x ∈ (CTree.node c l p r).inorder :=
    fun hx => mem_inorder_nodeAt (s := .left).mpr hx
  have hpctx : p ∉ around K := hdisj p (hmem (Or.inl rfl))
  have hqparts : ∀ {x}, x = p ∨ x ∈ l.inorder ∨ x ∈ r.inorder ∨ x ∈ around K → x ≠ q := by
    rintro x hx rfl
    apply hqT
    rw [mem_plug]
    rcases hx with hx | hx | hx | hx
    · exact Or.inl (hmem (Or.inl hx))
    · exact Or.inl (hmem (Or.inr (Or.inl hx)))
    · exact Or.inl (hmem (Or.inr (Or.inr hx)))
    · exact Or.inr hx
  have hpq : p ≠ q := hqparts (Or.inl rfl)
  have hqctx : q ∉ around K := fun hx => hqparts (Or.inr (Or.inr (Or.inr hx))) rfl
  have hpnull : p ≠ null := by
    rintro rfl
    exact hnull (mem_plug.mpr (Or.inl (hmem (Or.inl rfl))))
  have hlnull : null ∉ l.inorder :=
    fun hx => hnull (mem_plug.mpr (Or.inl (hmem (Or.inr (Or.inl hx)))))
  have hrnull : null ∉ r.inorder :=
    fun hx => hnull (mem_plug.mpr (Or.inl (hmem (Or.inr (Or.inr hx)))))
  -- the place below the parent
  have hparent : t.memory.parent? p = some (top rp K) := by
    rw [TreeMem.parent?, hp]
    rfl
  have hiff : p = t.root ↔ K = [] := by
    rw [hroot]
    exact @rootAddr_plug_eq_iff null _ _ hnodup (by rintro ⟨⟩)
  obtain ⟨t₁, t₂, ht₁, ht₂, hq₂, hother₂, hctx₂, hroot₂, hsize₂, hdata₂⟩ :=
    takePlace_of hiff hctx hparent haround hpctx hpnull hq hpq hqctx
  -- the links to the children
  obtain ⟨t₃, ht₃, ha₃⟩ := setChild_of hq₂ .right (rootAddr null r)
  obtain ⟨t₄, ht₄, ha₄⟩ := setChild_of ha₃.here .left (rootAddr null l)
  have hother₄ : ∀ x, x ≠ q → x ∉ around K → t₄.memory x = t.memory x := by
    intro x hxq hx
    rw [ha₄.other x hxq, ha₃.other x hxq, hother₂ x hxq hx]
  have hl₄ : Shape t₄.memory null _ l := hl.congr fun x hx =>
    hother₄ x (hqparts (Or.inr (Or.inl hx))) (hdisj x (hmem (Or.inr (Or.inl hx))))
  obtain ⟨t₅, ht₅, hl₅, hother₅, hroot₅, hsize₅, hdata₅⟩ := adopt_of hl₄ hln hlnull q
  have hr₅ : Shape t₅.memory null _ r := hr.congr fun x hx => by
    rw [hother₅ x fun hxl => hlr x hxl hx]
    exact hother₄ x (hqparts (Or.inr (Or.inr (Or.inl hx)))) (hdisj x (hmem (Or.inr (Or.inr hx))))
  obtain ⟨t₆, ht₆, hr₆, hother₆, hroot₆, hsize₆, hdata₆⟩ := adopt_of hr₅ hrn hrnull q
  have hql : q ∉ l.inorder := fun hx => hqparts (Or.inr (Or.inl hx)) rfl
  have hqr : q ∉ r.inorder := fun hx => hqparts (Or.inr (Or.inr (Or.inl hx))) rfl
  have hq₅ := (hother₅ q hql).trans ha₄.here
  have hq₆ := (hother₆ q hqr).trans hq₅
  obtain ⟨t₇, ht₇, ha₇⟩ := paint_of hq₆ c
  have hother₇ : ∀ x, x ≠ q → x ∉ l.inorder → x ∉ r.inorder → x ∉ around K →
      t₇.memory x = t.memory x := by
    intro x hxq hxl hxr hx
    rw [ha₇.other x hxq, hother₆ x hxr, hother₅ x hxl, hother₄ x hxq hx]
  have hnull₇ : t₇.memory null = t.memory null :=
    hother₇ null (Ne.symm hqnull) hlnull hrnull fun hx => hnull (mem_plug.mpr (Or.inr hx))
  refine ⟨t₇, ?_, ⟨⟨?_, ?_, ?_, ?_⟩, ?_⟩, ?_, hnull₇, ?_⟩
  · have hright : t₂.memory.child? p .right = some (rootAddr null r) := by
      rw [TreeMem.child?, hother₂ p hpq hpctx, hp]
      rfl
    have hleft : t₃.memory.child? p .left = some (rootAddr null l) := by
      rw [TreeMem.child?, ha₃.other p hpq, hother₂ p hpq hpctx, hp]
      rfl
    have hleft₄ : t₄.memory.child? q .left = some (rootAddr null l) := by
      rw [TreeMem.child?, ha₄.here]
      rfl
    have hright₅ : t₅.memory.child? q .right = some (rootAddr null r) := by
      rw [TreeMem.child?, hq₅]
      rfl
    have hcolor₆ : t₆.memory.color? p = some c := by
      rw [TreeMem.color?, hother₆ p hpr, hother₅ p hpl, hother₄ p hpq hpctx, hp]
      rfl
    simp only [substitute, hparent, ht₁, ht₂, hright, ht₃, hleft, ht₄, hleft₄, ht₅, hright₅, ht₆,
      hcolor₆, ht₇, Option.bind_eq_bind, Option.bind_some]
  · rw [ha₇.root, hroot₆, hroot₅, ha₄.root, ha₃.root, hroot₂, hroot]
    exact rootAddr_plug_replace rfl
  · refine shape_plug.mpr ⟨⟨⟨n.data, ?_⟩, hl₅.congr ?_, hr₆.congr ?_⟩, hctx₂.congr ?_⟩
    · rw [ha₇.here]
      rfl
    · intro x hx
      rw [ha₇.other x (hqparts (Or.inr (Or.inl hx))), hother₆ x (hlr x hx)]
    · intro x hx
      exact ha₇.other x (hqparts (Or.inr (Or.inr (Or.inl hx))))
    · intro x hx
      have hxq := hqparts (Or.inr (Or.inr (Or.inr hx)))
      rw [ha₇.other x hxq, hother₆ x fun hxr => hdisj x (hmem (Or.inr (Or.inr hxr))) hx,
        hother₅ x fun hxl => hdisj x (hmem (Or.inr (Or.inl hxl))) hx, ha₄.other x hxq,
        ha₃.other x hxq]
  · rw [perm_plug_node.nodup_iff, List.nodup_cons] at hnodup ⊢
    rw [perm_plug_node.mem_iff, List.mem_cons, not_or] at hqT
    exact ⟨hqT.2, hnodup.2⟩
  · rw [perm_plug_node.mem_iff, List.mem_cons, not_or] at hnull ⊢
    exact ⟨Ne.symm hqnull, hnull.2⟩
  · rw [TreeMem.color?, hnull₇]
    exact hs
  · intro x
    rw [ha₇.data, hdata₆, hdata₅, ha₄.data, ha₃.data, hdata₂]
  · rw [ha₇.size, hsize₆, hsize₅, ha₄.size, ha₃.size, hsize₂]

theorem clearNode_spec {n : TreeCell (RbItem V)} (h : Holds t rp T) (hp : t.memory p = some n)
    (hpT : p ∉ T.inorder) (hnull : p ≠ null) :
    ∃ t', t.clearNode p = some t' ∧ Holds t' rp T ∧ Keeps t t' := by
  obtain ⟨t₁, ht₁, ha₁⟩ := setChild_of hp .left nullPtr
  obtain ⟨t₂, ht₂, ha₂⟩ := setChild_of ha₁.here .right nullPtr
  obtain ⟨t₃, ht₃, ha₃⟩ := setParent_of ha₂.here nullPtr
  have hk : Keeps t t₃ := ((ha₁.keeps hnull).trans (ha₂.keeps hnull)).trans (ha₃.keeps hnull)
  refine ⟨t₃, ?_, ⟨⟨?_, ?_, h.tree.nodup, h.tree.null⟩, ?_⟩, hk⟩
  · simp only [clearNode, ht₁, ht₂, ht₃, Option.bind_eq_bind, Option.bind_some]
  · rw [ha₃.root, ha₂.root, ha₁.root]
    exact h.tree.root
  · exact ha₃.shape (ha₂.shape (ha₁.shape h.tree.shape hpT) hpT) hpT
  · rw [TreeMem.color?, hk.sentinel]
    exact h.sentinel

/-- Once a node with one child at most is gone, the loop runs where the node was black. -/
private theorem fixup_spec {q : ℕ} (h : Holds t rp (plug K v)) (hb : Below t K v)
    (hne : K ≠ []) (hctx : CtxRb n K) (hnode : IsRb n (nodeAt s c .nil q v))
    (hc : parentColor K = .black ∨ c = .black) (hsize : (plug K v).size ≤ t.size) :
    ∃ t' T' m, (if c = .black then t.deleteFixup (rootAddr null v) else some t) = some t' ∧
      Holds t' rp T' ∧ IsRb m T' ∧ T'.color = .black ∧ T'.inorder = (plug K v).inorder ∧
      (∀ x, t'.memory.data? x = t.memory.data? x) ∧ t'.size = t.size := by
  cases c with
  | red =>
    obtain ⟨⟨-, hvc⟩, hnil, hv⟩ := isRb_red.mp hnode
    obtain ⟨m, hm, hroot⟩ := isRb_plug hctx hv (Or.inr hvc)
    exact ⟨t, _, m, if_neg nofun, h, hm, hroot hne, rfl, fun _ => rfl, rfl⟩
  | black =>
    obtain ⟨k, rfl, hnil, hv⟩ := isRb_black.mp hnode
    rw [if_pos rfl]
    exact deleteFixup_spec h hb ⟨hctx, fun _ => hv, fun hr => hv.blacken hr⟩ hsize

private theorem exists_of_data? {n : TreeCell (RbItem V)}
    (hdata : t'.memory.data? p = t.memory.data? p) (hp : t.memory p = some n) :
    ∃ n', t'.memory p = some n' := by
  rw [TreeMem.data?, TreeMem.data?, hp] at hdata
  obtain ⟨n', hn', -⟩ := Option.map_eq_some_iff.mp hdata
  exact ⟨n', hn'⟩

/-- The address above an empty tree is any one. -/
theorem Holds.of_nil {rp' : ℕ} (h : Holds t rp .nil) : Holds t rp' .nil :=
  ⟨⟨h.tree.root, trivial, h.tree.nodup, h.tree.null⟩, h.sentinel⟩

/-- What a deletion leaves. Only the last node of two forgets that it has no parent. -/
structure Deleted (t : RbTree V) (rp p : ℕ) (T : CTree ℕ) (t' : RbTree V) : Prop where
  tree : ∃ T' m, Holds t' (if T.size = 2 ∧ t.root = p then p else rp) T' ∧ IsRb m T' ∧
    T'.color = .black ∧ ∃ l₁ l₂, T.inorder = l₁ ++ p :: l₂ ∧ T'.inorder = l₁ ++ l₂
  size : t'.size = t.size - 1
  data : ∀ x, t'.memory.data? x = t.memory.data? x

section End
variable {m : ℕ}

/-- The nodes without one that has one child at most. -/
private theorem exists_without : ∃ l₁ l₂, (plug K (nodeAt s c .nil p v)).inorder = l₁ ++ p :: l₂ ∧
    (plug K v).inorder = l₁ ++ l₂ := by
  rw [inorder_plug, inorder_plug]
  cases s
  · exact ⟨before K, v.inorder ++ after K, by simp [nodeAt, inorder], by simp⟩
  · exact ⟨before K ++ v.inorder, after K, by simp [nodeAt, inorder], by simp⟩

private theorem size_without (hsize : t.size = (plug K (nodeAt s c .nil p v)).size) :
    (plug K v).size = t.size - 1 := by
  obtain ⟨l₁, l₂, hT, hT'⟩ := @exists_without p s c v K
  rw [hsize, CTree.size, CTree.size, hT, hT']
  simp

private theorem apart_end (h : Holds t rp (plug K (nodeAt s c .nil p v))) :
    p ∉ (plug K v).inorder ∧ (plug K v).inorder.Nodup ∧ null ∉ (plug K v).inorder := by
  obtain ⟨l₁, l₂, hT, hT'⟩ := @exists_without p s c v K
  have hnodup := h.tree.nodup
  have hnull := h.tree.null
  rw [hT, List.nodup_middle, List.nodup_cons] at hnodup
  rw [hT, List.mem_append, List.mem_cons] at hnull
  rw [hT']
  refine ⟨hnodup.1, hnodup.2, fun hx => hnull ?_⟩
  exact (List.mem_append.mp hx).imp_right Or.inr

/-- The child of the root is the new root, and is black. -/
private theorem delete_root (h : Holds t rp (plug [] (nodeAt s c .nil p v)))
    (hrb : IsRb m (plug [] (nodeAt s c .nil p v)))
    (hcolor : (plug [] (nodeAt s c .nil p v)).color = .black)
    (hsize : t.size = (plug [] (nodeAt s c .nil p v)).size) (hzero : p ≠ nullPtr)
    (hfind : ({ t with size := t.size - 1 } : RbTree V).findDeleted p = some (p, rootAddr null v)) :
    ∃ t', t.delete p = some t' ∧ Deleted t rp p (plug [] (nodeAt s c .nil p v)) t' := by
  have hnull : p ≠ null := h.ne_null (mem_inorder_nodeAt.mpr (Or.inl rfl))
  have hroot : p = t.root := by
    rw [h.tree.root, plug_nil, rootAddr_nodeAt]
  obtain ⟨i, hp⟩ := h.tree.focus
  obtain ⟨hpv, hvn, hvnull⟩ := apart_end h
  have hsize' := size_without hsize
  obtain ⟨-, -, hv⟩ := shape_nodeAt.mp h.tree.shape
  have h₁ : Holds ({ t with root := rootAddr null v, size := t.size - 1 } : RbTree V) p
      (plug [] v) := ⟨⟨rfl, hv, hvn, hvnull⟩, h.sentinel⟩
  obtain ⟨t₂, ht₂, h₂, hdata₂, hsize₂⟩ := h₁.blacken
  obtain ⟨n, hn⟩ := exists_of_data? (hdata₂ p) hp
  obtain ⟨t₃, ht₃, h₃, hk₃⟩ := clearNode_spec h₂ hn (by simpa using hpv) hnull
  rw [plug_nil, color_nodeAt] at hcolor
  subst hcolor
  obtain ⟨k, -, hnil, hv⟩ := isRb_black.mp hrb
  cases hnil
  obtain ⟨j, hj⟩ := hv.exists_blacken
  have h' : Holds t₃ (if (plug [] (nodeAt s .black .nil p v)).size = 2 ∧ t.root = p then p else rp)
      v.blacken := by
    by_cases hnil : v = .nil
    · subst hnil
      exact h₃.of_nil
    · rw [if_pos]
      · exact h₃
      · refine ⟨?_, hroot.symm⟩
        have hone : v.size ≤ 1 := hv.size_le_one
        have hmem : rootAddr null v ∈ v.inorder := rootAddr_mem hnil
        have hpos : 0 < v.size := List.length_pos_of_mem hmem
        rw [plug_nil] at hsize' hsize ⊢
        omega
  refine ⟨t₃, ?_, ⟨v.blacken, j, h', hj, color_blacken, ?_⟩, hk₃.size.trans hsize₂,
    fun x => (hk₃.data x).trans (hdata₂ x)⟩
  · rw [delete, if_neg (not_or.mpr ⟨hzero, hnull⟩)]
    simp only [hfind, Option.bind_eq_bind, Option.bind_some]
    rw [if_pos hroot, ht₂, Option.bind_some]
    exact ht₃
  · rw [inorder_blacken]
    exact @exists_without p s .black v []

/-- Below another node, the child takes the place and the loop begins there. -/
private theorem delete_below (h : Holds t rp (plug (f :: K) (nodeAt s c .nil p v)))
    (hrb : IsRb m (plug (f :: K) (nodeAt s c .nil p v)))
    (hcolor : (plug (f :: K) (nodeAt s c .nil p v)).color = .black)
    (hsize : t.size = (plug (f :: K) (nodeAt s c .nil p v)).size) (hzero : p ≠ nullPtr)
    (hfind : ({ t with size := t.size - 1 } : RbTree V).findDeleted p = some (p, rootAddr null v)) :
    ∃ t', t.delete p = some t' ∧ Deleted t rp p (plug (f :: K) (nodeAt s c .nil p v)) t' := by
  have hnull : p ≠ null := h.ne_null (mem_plug.mpr (Or.inl (mem_inorder_nodeAt.mpr (Or.inl rfl))))
  have hroot : p ≠ t.root := by
    intro he
    have hctx := (h.tree.root_eq_iff nodeAt_ne_nil).mp (rootAddr_nodeAt.trans he)
    exact List.cons_ne_nil _ _ hctx
  obtain ⟨i, hp⟩ := h.tree.focus
  obtain ⟨hpT, hnodup, hnullT⟩ := apart_end h
  have hfp : f.elem ≠ p := fun he =>
    hpT (mem_plug.mpr (Or.inr (he ▸ mem_around_cons.mpr (Or.inl rfl))))
  have h₀ : Holds ({ t with size := t.size - 1 } : RbTree V) rp
      (plug (f :: K) (nodeAt s c .nil p v)) := ⟨h.tree, h.sentinel⟩
  obtain ⟨t₁, ht₁, hv₁, hctx₁, hnil₁, hs₁, hp₁, hroot₁, hsize₁, hdata₁⟩ := unlink_spec h₀ p
  rw [if_neg hfp] at hv₁ hnil₁
  have h₁ : Holds t₁ rp (plug (f :: K) v) := by
    refine ⟨⟨?_, shape_plug.mpr ⟨hv₁, hctx₁⟩, hnodup, hnullT⟩, hs₁⟩
    rw [hroot₁, h₀.tree.root]
    exact rootAddr_plug_cons
  obtain ⟨t₂, ht₂, h₂, hk₂⟩ := clearNode_spec h₁ (hp₁.trans hp) hpT hnull
  have hb₂ : Below t₂ (f :: K) v := by
    rintro hnil g ⟨⟩
    rw [TreeMem.parent?, hk₂.sentinel]
    exact hnil₁ hnil
  obtain ⟨k, hcrb, hnrb, hc⟩ := of_isRb_plug hrb hcolor
  rw [color_nodeAt] at hc
  obtain ⟨t₃, T', j, ht₃, h₃, hj, hcolor₃, hsame, hdata₃, hsize₃⟩ := fixup_spec h₂ hb₂
    (List.cons_ne_nil _ _) hcrb hnrb hc (by rw [size_without hsize, hk₂.size, hsize₁])
  have hcolor₀ := h₀.color?_root
  rw [rootAddr_nodeAt, color_nodeAt] at hcolor₀
  have htop : ¬ ((plug (f :: K) (nodeAt s c .nil p v)).size = 2 ∧ t.root = p) :=
    fun he => hroot he.2.symm
  refine ⟨t₃, ?_, ⟨T', j, by rwa [if_neg htop], hj, hcolor₃, ?_⟩,
    hsize₃.trans (hk₂.size.trans hsize₁), fun x => (hdata₃ x).trans ((hk₂.data x).trans (hdata₁ x))⟩
  · rw [delete, if_neg (not_or.mpr ⟨hzero, hnull⟩)]
    simp only [hfind, hroot, hcolor₀, ht₁, ht₂, ne_eq, not_true_eq_false, if_false,
      Option.bind_eq_bind, Option.bind_some]
    exact ht₃
  · rw [hsame]
    exact exists_without

/-- The node itself has one child at most. -/
private theorem delete_end (h : Holds t rp (plug K (nodeAt s c .nil p v)))
    (hrb : IsRb m (plug K (nodeAt s c .nil p v)))
    (hcolor : (plug K (nodeAt s c .nil p v)).color = .black)
    (hsize : t.size = (plug K (nodeAt s c .nil p v)).size) (hzero : p ≠ nullPtr)
    (hfind : ({ t with size := t.size - 1 } : RbTree V).findDeleted p = some (p, rootAddr null v)) :
    ∃ t', t.delete p = some t' ∧ Deleted t rp p (plug K (nodeAt s c .nil p v)) t' := by
  cases K with
  | nil => exact delete_root h hrb hcolor hsize hzero hfind
  | cons f K => exact delete_below h hrb hcolor hsize hzero hfind

end End

section Inner
variable {l : CTree ℕ} {q : ℕ} {L : List (Frame ℕ)}

private theorem inorder_next (hside : ∀ f ∈ L, f.side = .left) :
    (plug L (nodeAt .left d .nil q v)).inorder = q :: (plug L v).inorder := by
  rw [inorder_plug, inorder_plug, before_eq_nil hside]
  rfl

private theorem inorder_inner (hside : ∀ f ∈ L, f.side = .left) :
    (plug K (.node c l p (plug L (nodeAt .left d .nil q v)))).inorder =
      (before K ++ l.inorder) ++ p :: (q :: ((plug L v).inorder ++ after K)) := by
  rw [inorder_plug, inorder, inorder_next hside]
  simp

private theorem apart_inner (hside : ∀ f ∈ L, f.side = .left)
    (h : Holds t rp (plug K (.node c l p (plug L (nodeAt .left d .nil q v))))) :
    (p :: q :: (l.inorder ++ (plug L v).inorder ++ around K)).Nodup ∧
      null ∉ p :: q :: (l.inorder ++ (plug L v).inorder ++ around K) := by
  constructor
  · have hnodup := h.tree.nodup
    rw [perm_plug_node.nodup_iff, inorder_next hside, List.append_assoc, List.cons_append] at hnodup
    rw [List.append_assoc]
    exact (List.Perm.cons p List.perm_middle).nodup_iff.mp hnodup
  · have hnull := h.tree.null
    rw [perm_plug_node.mem_iff, inorder_next hside, List.append_assoc, List.cons_append] at hnull
    rw [List.append_assoc]
    exact fun hx => hnull ((List.Perm.cons p List.perm_middle).mem_iff.mpr hx)

/-- The next node leaves its place and takes that of the node, which is cleared. -/
private theorem swap_spec (hside : ∀ f ∈ L, f.side = .left)
    (h : Holds t rp (plug K (.node c l p (plug L (nodeAt .left d .nil q v))))) :
    ∃ t₁ t₂ t₃, t.unlink p q (rootAddr null v) = some t₁ ∧ t₁.substitute p q = some t₂ ∧
      t₂.clearNode p = some t₃ ∧ Holds t₃ rp (plug (L ++ ⟨.right, c, q, l⟩ :: K) v) ∧
      Below t₃ (L ++ ⟨.right, c, q, l⟩ :: K) v ∧ t₃.size = t.size ∧
      ∀ x, t₃.memory.data? x = t.memory.data? x := by
  obtain ⟨hall, hnullT⟩ := apart_inner hside h
  simp only [List.mem_cons, not_or] at hnullT
  obtain ⟨hpnull, hqnull, hnullT⟩ := hnullT
  obtain ⟨hpall, hqall⟩ := List.nodup_cons.mp hall
  obtain ⟨hq, hrest⟩ := List.nodup_cons.mp hqall
  rw [List.mem_cons, not_or] at hpall
  have hlow : Holds t rp (plug (L ++ ⟨.right, c, p, l⟩ :: K) (nodeAt .left d .nil q v)) := by
    rw [plug_append]
    exact h
  obtain ⟨n, hqn⟩ := hlow.tree.focus
  obtain ⟨f, M, hcons⟩ : ∃ f M, L ++ ⟨.right, c, p, l⟩ :: K = f :: M :=
    List.exists_cons_of_ne_nil (by simp)
  rw [hcons] at hlow
  obtain ⟨t₁, ht₁, hv₁, hctx₁, hnil₁, hs₁, hq₁, hroot₁, hsize₁, hdata₁⟩ := unlink_spec hlow p
  rw [← hcons] at hctx₁
  obtain ⟨hL, ⟨i, hpc⟩, hlS, hctxS⟩ := ctxShape_append.mp hctx₁
  -- the parent of the next node is the node itself, or the nearest of the frames
  have htop : (L = [] → f.elem = p) ∧ (∀ g ∈ L.head?, g = f ∧ f.elem ≠ p) := by
    cases L with
    | nil =>
      obtain ⟨rfl, -⟩ := List.cons.inj hcons
      exact ⟨fun _ => rfl, by rintro _ ⟨⟩⟩
    | cons g L =>
      obtain ⟨rfl, rfl⟩ := List.cons.inj hcons
      refine ⟨by rintro ⟨⟩, ?_⟩
      rintro g' ⟨⟩
      refine ⟨rfl, fun he => ?_⟩
      obtain ⟨-, haround, -⟩ := nodup_plug hlow.tree.nodup
      obtain ⟨-, hg, -⟩ := nodup_around_cons haround
      apply hg
      rw [he]
      exact mem_around_append.mpr (Or.inr (mem_around_cons.mpr (Or.inl rfl)))
  obtain ⟨par, hrS⟩ : ∃ par, Shape t₁.memory null par (plug L v) := by
    cases L with
    | nil => exact ⟨_, hv₁⟩
    | cons g L =>
      obtain ⟨rfl, hne⟩ := htop.2 g rfl
      rw [if_neg hne] at hv₁
      exact ⟨p, shape_plug.mpr ⟨hv₁, hL⟩⟩
  obtain ⟨t₂, ht₂, h₂, hk₂⟩ := substitute_spec (t := t₁) (q := q) (r := plug L v)
    (by rw [hroot₁]
        refine h.tree.root.trans ?_
        exact @rootAddr_plug_congr _ _ K rfl) hpc hlS hrS hctxS
    (by rw [perm_plug_node.nodup_iff, List.nodup_cons]
        exact ⟨hpall.2, hrest⟩)
    (by rw [perm_plug_node.mem_iff, List.mem_cons, not_or]
        exact ⟨hpnull, hnullT⟩) hs₁ (hq₁.trans hqn)
    (by rw [perm_plug_node.mem_iff, List.mem_cons, not_or]
        exact ⟨Ne.symm hpall.1, hq⟩) (Ne.symm hqnull)
  obtain ⟨n', hpn⟩ := exists_of_data? (hk₂.data p) hpc
  obtain ⟨t₃, ht₃, h₃, hk₃⟩ := clearNode_spec h₂ hpn
    (by rw [perm_plug_node.mem_iff, List.mem_cons, not_or]
        exact hpall) (Ne.symm hpnull)
  refine ⟨t₁, t₂, t₃, ht₁, ht₂, ht₃, ?_, ?_, hk₃.size.trans (hk₂.size.trans hsize₁),
    fun x => (hk₃.data x).trans ((hk₂.data x).trans (hdata₁ x))⟩
  · rw [plug_append]
    exact h₃
  · intro hnil g hg
    rw [TreeMem.parent?, hk₃.sentinel, hk₂.sentinel]
    refine (hnil₁ hnil).trans ?_
    cases L with
    | nil => rw [if_pos (htop.1 rfl), ← Option.some.inj hg]
    | cons g' L =>
      obtain ⟨rfl, hne⟩ := htop.2 g' rfl
      rw [if_neg hne, ← Option.some.inj hg]

/-- What the search for the node to take out finds. -/
private theorem findDeleted_inner (hl : l ≠ .nil)
    (h : Holds t rp (plug K (.node c l p (plug L (nodeAt .left d .nil q v)))))
    (hmin : t.subtreeEnd .left (rootAddr null (plug L (nodeAt .left d .nil q v))) = some q) :
    t.findDeleted p = some (q, rootAddr null v) ∧ t.memory.color? q = some d ∧ q ≠ t.root := by
  have hlh : Holds t rp (plug (⟨.left, c, p, plug L (nodeAt .left d .nil q v)⟩ :: K) l) := h
  have hrh : Holds t rp (plug (⟨.right, c, p, l⟩ :: K) (plug L (nodeAt .left d .nil q v))) := h
  have hlnull : rootAddr null l ≠ null := fun he => hl (hlh.rootAddr_eq_null.mp he)
  have hrnull : rootAddr null (plug L (nodeAt .left d .nil q v)) ≠ null :=
    fun he => plug_ne_nil nodeAt_ne_nil (hrh.rootAddr_eq_null.mp he)
  obtain ⟨hleft, hright, -⟩ := Holds.step h
  have hlow : Holds t rp (plug (L ++ ⟨.right, c, p, l⟩ :: K) (nodeAt .left d .nil q v)) := by
    rw [plug_append]
    exact h
  have hqleft := hlow.child?_near
  have hqright : t.memory.child? q .right = some (rootAddr null v) := hlow.child?_far
  have hqcolor := hlow.color?_root
  rw [rootAddr_nodeAt, color_nodeAt] at hqcolor
  have hnil : rootAddr null (.nil : CTree ℕ) = null := rfl
  refine ⟨?_, hqcolor, ?_⟩
  · simp only [findDeleted, hleft, hright, hlnull, hrnull, subtreeMin, hmin, hqleft, hqright, hnil,
      if_false, ne_eq, not_true_eq_false, Option.bind_eq_bind, Option.bind_some]
  · intro he
    have hcontext := (hlow.tree.root_eq_iff nodeAt_ne_nil).mp (rootAddr_nodeAt.trans he)
    simp at hcontext

/-- The node has two children, and the next one takes its place. -/
private theorem delete_inner {m : ℕ} {r : CTree ℕ} (h : Holds t rp (plug K (.node c l p r)))
    (hrb : IsRb m (plug K (.node c l p r))) (hcolor : (plug K (.node c l p r)).color = .black)
    (hsize : t.size = (plug K (.node c l p r)).size) (hzero : p ≠ nullPtr) (hl : l ≠ .nil)
    (hr : r ≠ .nil) : ∃ t', t.delete p = some t' ∧ Deleted t rp p (plug K (.node c l p r)) t' := by
  have hless : Holds ({ t with size := t.size - 1 } : RbTree V) rp (plug K (.node c l p r)) :=
    ⟨h.tree, h.sentinel⟩
  have hheight : r.height ≤ t.size - 1 := by
    have hlength : (Frame.mk .right c p l :: K).length + r.height ≤
        (plug (⟨.right, c, p, l⟩ :: K) r).height := length_add_height_le
    have hle := height_le_size (plug K (.node c l p r))
    rw [List.length_cons] at hlength
    change _ ≤ (plug K (.node c l p r)).height at hlength
    omega
  obtain ⟨L, d, q, v, rfl, hside, hmin⟩ :=
    subtreeEnd_spec (K := ⟨.right, c, p, l⟩ :: K) hless hr hheight .left
  have hTin := inorder_inner (K := K) (c := c) (l := l) (p := p) (d := d) (q := q) (v := v) hside
  have hTin' : (plug K (.node c l q (plug L v))).inorder =
      (before K ++ l.inorder) ++ q :: ((plug L v).inorder ++ after K) := by
    rw [inorder_plug, inorder]
    simp
  obtain ⟨hfind, hqcolor, hqroot⟩ := findDeleted_inner hl hless hmin
  obtain ⟨t₁, t₂, t₃, ht₁, ht₂, ht₃, h₃, hb₃, hsize₃, hdata₃⟩ := swap_spec hside hless
  obtain ⟨hall, hnullT⟩ := apart_inner hside h
  have hpq : q ≠ p := by
    rintro rfl
    exact (List.nodup_cons.mp hall).1 List.mem_cons_self
  have hpnull : p ≠ null := by
    rintro rfl
    exact hnullT List.mem_cons_self
  -- what is left is the loop, from the hole below the new names
  have hrb' : IsRb m (plug (L ++ ⟨.right, c, p, l⟩ :: K) (nodeAt .left d .nil q v)) := by
    rw [plug_append]
    exact hrb
  have hcolor' : (plug (L ++ ⟨.right, c, p, l⟩ :: K) (nodeAt .left d .nil q v)).color =
      .black := by
    rw [plug_append]
    exact hcolor
  obtain ⟨k, hcrb, hnrb, hc⟩ := of_isRb_plug hrb' hcolor'
  have hc' : parentColor (L ++ ⟨.right, c, q, l⟩ :: K) = .black ∨ d = .black := by
    rw [color_nodeAt] at hc
    cases L <;> exact hc
  have hsame : (plug (L ++ ⟨.right, c, q, l⟩ :: K) v).inorder =
      (plug K (.node c l q (plug L v))).inorder := by
    rw [plug_append]
    rfl
  have hfuel : (plug (L ++ ⟨.right, c, q, l⟩ :: K) v).size ≤ t₃.size := by
    rw [CTree.size, hsame, hTin', hsize₃, hsize, CTree.size, hTin]
    simp only [List.length_append, List.length_cons]
    omega
  obtain ⟨t₄, T', j, ht₄, h₄, hj, hcolor₄, hsame₄, hdata₄, hsize₄⟩ :=
    fixup_spec h₃ hb₃ (by simp) hcrb.rename hnrb hc' hfuel
  have hthree : ¬ ((plug K (.node c l p (plug L (nodeAt .left d .nil q v)))).size = 2 ∧
      t.root = p) := by
    have hmem : rootAddr null l ∈ l.inorder := rootAddr_mem hl
    have hpos : 0 < l.inorder.length := List.length_pos_of_mem hmem
    rw [CTree.size, hTin]
    simp only [List.length_append, List.length_cons]
    omega
  refine ⟨t₄, ?_, ⟨T', j, by rwa [if_neg hthree], hj, hcolor₄, _, _, hTin, ?_⟩,
    hsize₄.trans hsize₃, fun x => (hdata₄ x).trans (hdata₃ x)⟩
  · rw [delete, if_neg (not_or.mpr ⟨hzero, hpnull⟩)]
    simp only [hfind, hqroot, hqcolor, ht₁, hpq, ne_eq, not_false_eq_true, if_true,
      if_false, ht₂, ht₃, Option.bind_eq_bind, Option.bind_some]
    exact ht₄
  · rw [hsame₄, hsame, hTin']

end Inner

/-- A deletion never faults, and the other nodes keep their order. -/
theorem delete_spec {m : ℕ} (h : Holds t rp T) (hrb : IsRb m T) (hcolor : T.color = .black)
    (hsize : t.size = T.size) (hp : p ∈ T.inorder) (hzero : p ≠ nullPtr) :
    ∃ t', t.delete p = some t' ∧ Deleted t rp p T t' := by
  obtain ⟨K, c, l, r, rfl⟩ := exists_plug hp
  by_cases hl : l = .nil
  · subst hl
    apply delete_end (s := .left) h hrb hcolor hsize hzero
    obtain ⟨hleft, hright, -⟩ := h.step
    simp [findDeleted, hleft, hright, rootAddr]
  · by_cases hr : r = .nil
    · subst hr
      apply delete_end (s := .right) (v := l) h hrb hcolor hsize hzero
      have hlow : Holds t rp (plug (⟨.left, c, p, .nil⟩ :: K) l) := h
      have hne : rootAddr null l ≠ null := fun he => hl (hlow.rootAddr_eq_null.mp he)
      obtain ⟨hleft, hright, -⟩ := h.step
      have hnil : rootAddr null (.nil : CTree ℕ) = null := rfl
      simp [findDeleted, hleft, hright, hne, hnil]
    · exact delete_inner h hrb hcolor hsize hzero hl hr

end RbTree
end DCache.Ring
