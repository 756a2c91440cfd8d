import DCache.Ring.RbSearch

/-! An insertion into the red-black tree of `util_rbtree.c`. -/
namespace DCache.Ring
open DCache.Lib DCache.Lib.CTree

namespace RbTree
variable {V : Type} {t t' : RbTree V} {rp a b p : ℕ} {s : Side} {c d : Color}
  {u u' v x T : CTree ℕ} {K K' : List (Frame ℕ)} {n : ℕ}

/-- The last rotation of `rbtree_insert_fixup`. -/
private theorem Holds.raise (h : Holds t rp (plug K (nodeAt s c (nodeAt s d u a x) b v))) :
    ∃ t₁ t₂ t₃, t.paint a .black = some t₁ ∧ t₁.memory.parent? a = some b ∧
      t₁.paint b .red = some t₂ ∧ t₂.memory.parent? a = some b ∧
      t₂.rotate s.other b = some t₃ ∧
      Holds t₃ rp (plug K (nodeAt s .black u a (nodeAt s .red x b v))) ∧ Keeps t t₃ := by
  obtain ⟨t₁, ht₁, h₁, hk₁⟩ := Holds.paint (K := ⟨s, c, b, v⟩ :: K) h .black
  have hp₁ := h₁.parent?_root nodeAt_ne_nil
  obtain ⟨t₂, ht₂, h₂, hk₂⟩ := Holds.paint (K := K) h₁ .red
  have hp₂ := Holds.parent?_root (K := ⟨s, .red, b, v⟩ :: K) h₂ nodeAt_ne_nil
  have hrotate : Holds t₂ rp
      (plug K (nodeAt s.other .red v b (nodeAt s.other .black x a u))) := by
    rw [nodeAt_other, nodeAt_other]
    exact h₂
  obtain ⟨t₃, ht₃, h₃, hk₃⟩ := hrotate.rotate
  rw [nodeAt_other, nodeAt_other] at h₃
  rw [rootAddr_nodeAt] at hp₁ hp₂
  exact ⟨t₁, t₂, t₃, ht₁, hp₁, ht₂, hp₂, ht₃, h₃, (hk₁.trans hk₂).trans hk₃⟩

/-- What a round reads before it changes anything: the side of the parent, and the uncle. -/
private theorem Holds.uncle (h : Holds t rp (plug (⟨s, c, b, v⟩ :: K) u)) (hu : u ≠ .nil) :
    t.memory.parent? (rootAddr null u) = some b ∧ t.sideOf (rootAddr null u) b = some s ∧
      t.memory.child? b s.other = some (rootAddr null v) ∧
      t.memory.color? (rootAddr null v) = some v.color := by
  have hv : Holds t rp (plug (⟨s.other, c, b, u⟩ :: K) v) := by
    rw [plug_swap]
    exact h
  exact ⟨h.parent?_root hu, Holds.sideOf (K := K) h (Or.inl hu),
    Holds.child?_far (K := K) h, hv.color?_root⟩

theorem insertRound_spec (h : Holds t rp (plug K u)) (hu : u.color = .red)
    (hr : InsertRound K u K' u') :
    ∃ t', insertRound (t, rootAddr null u) = some (t', rootAddr null u') ∧
      Holds t' rp (plug K' u') ∧ Keeps t t' := by
  have hne : u ≠ .nil := by
    rintro rfl
    cases hu
  have hparent := h.parent?_root hne
  cases hr with
  | recolor s s' c a b x v u K' hv =>
    have hvn : v ≠ .nil := by
      rintro rfl
      cases hv
    rw [plug_cons] at h
    obtain ⟨hp, hside, hchild, hcolor⟩ := h.uncle nodeAt_ne_nil
    obtain ⟨t₁, ht₁, h₁, hk₁⟩ :=
      Holds.blacken_root (K := ⟨s'.other, c, b, nodeAt s .red u a x⟩ :: K')
        (by rw [plug_swap]; exact h) hvn
    rw [plug_swap] at h₁
    obtain ⟨t₂, ht₂, h₂, hk₂⟩ := h₁.paint .black
    have hp₂ := h₂.parent?_root nodeAt_ne_nil
    obtain ⟨t₃, ht₃, h₃, hk₃⟩ := Holds.paint (K := K') h₂ .red
    have hp₃ := Holds.parent?_root (K := ⟨s', .red, b, v.blacken⟩ :: K') h₃ nodeAt_ne_nil
    rw [rootAddr_fill] at hp hside
    rw [rootAddr_nodeAt] at hp₂ hp₃
    refine ⟨t₃, ?_, h₃, (hk₁.trans hk₂).trans hk₃⟩
    simp only [insertRound, hparent, top, hp, hside, hchild, hcolor, hv, ht₁, ht₂, hp₂, ht₃, hp₃,
      if_true, Option.bind_eq_bind, Option.bind_some, rootAddr_nodeAt]
  | outer s c a b x v u K hv =>
    have hfar : t.memory.child? a s.other = some (rootAddr null x) :=
      Holds.child?_far (K := ⟨s, c, b, v⟩ :: K) h
    have hux : rootAddr null u ≠ rootAddr null x :=
      (Holds.near_ne_far (K := ⟨s, c, b, v⟩ :: K) h (Or.inl hne)).symm
    rw [plug_cons] at h
    obtain ⟨hp, hside, hchild, hcolor⟩ := h.uncle nodeAt_ne_nil
    obtain ⟨t₁, t₂, t₃, ht₁, hp₁, ht₂, hp₂, ht₃, h₃, hk⟩ := Holds.raise (K := K) h
    rw [rootAddr_fill] at hp hside
    refine ⟨t₃, ?_, h₃, hk⟩
    simp only [insertRound, hparent, top, hp, hside, hchild, hcolor, hv, hfar, hux, ht₁, hp₁, ht₂,
      hp₂, ht₃, if_false, Option.bind_eq_bind, Option.bind_some, reduceCtorEq, pure]
  | inner s c d a b e w v x y K hv =>
    rw [color_nodeAt] at hu
    subst hu
    have hfar : t.memory.child? a s.other = some e := by
      have hfar := Holds.child?_near (K := ⟨s, c, b, v⟩ :: K) h
      rwa [rootAddr_nodeAt] at hfar
    rw [plug_cons] at h
    obtain ⟨hp, hside, hchild, hcolor⟩ := h.uncle nodeAt_ne_nil
    have hlow : Holds t rp
        (plug (⟨s, c, b, v⟩ :: K) (nodeAt s .red w a (nodeAt s .red x e y))) := by
      rw [← nodeAt_other]
      exact h
    obtain ⟨t₀, ht₀, h₀, hk₀⟩ := hlow.rotate
    have hp₀ := Holds.parent?_root (K := ⟨s, .red, e, y⟩ :: ⟨s, c, b, v⟩ :: K) h₀ nodeAt_ne_nil
    obtain ⟨t₁, t₂, t₃, ht₁, hp₁, ht₂, hp₂, ht₃, h₃, hk⟩ := Holds.raise (K := K) h₀
    rw [rootAddr_fill] at hp hside
    rw [rootAddr_nodeAt] at hparent hp₀
    refine ⟨t₃, ?_, h₃, hk₀.trans hk⟩
    simp only [insertRound, hparent, top, hp, hside, hchild, hcolor, hv, hfar, ht₀, hp₀, ht₁, hp₁,
      ht₂, hp₂, ht₃, if_true, if_false, Option.bind_eq_bind, Option.bind_some, reduceCtorEq, pure,
      rootAddr_nodeAt]

theorem belowRed_of (h : Holds t null (plug K u)) (hu : u ≠ .nil) :
    belowRed (t, rootAddr null u) = some (decide (parentColor K = .red)) := by
  have hcolor : t.memory.color? (top null K) = some (parentColor K) := by
    cases K with
    | nil => exact h.sentinel
    | cons f K =>
      obtain ⟨i, hf⟩ := h.tree.focus_cons
      rw [top, TreeMem.color?, hf]
      simp [parentColor]
  simp only [belowRed, h.parent?_root hu, hcolor, Option.bind_eq_bind, Option.bind_some]

/-- The loop ends below a black node, and the root is blackened. -/
theorem insertFixup_spec (h : Holds t null (plug K u)) (hi : InsertRb n K u)
    (hsize : (plug K u).size ≤ t.size + 1) :
    ∃ t' T' m, t.insertFixup (rootAddr null u) = some t' ∧ Holds t' null T' ∧ IsRb m T' ∧
      T'.color = .black ∧ T'.inorder = (plug K u).inorder ∧ Keeps t t' := by
  let I : ℕ → RbTree V × ℕ → Prop := fun k x => ∃ K' u' m, x.2 = rootAddr null u' ∧
    InsertRb m K' u' ∧ Holds x.1 null (plug K' u') ∧ K'.length ≤ k ∧
      (plug K' u').inorder = (plug K u).inorder ∧ Keeps t x.1
  have hne : ∀ {m : ℕ} {K : List (Frame ℕ)} {u : CTree ℕ}, InsertRb m K u → u ≠ .nil := by
    rintro m K u ⟨-, -, hu⟩ rfl
    cases hu
  have hround : ∀ k x, I k x → belowRed x = some false ∨
      belowRed x = some true ∧ ∃ m x', m < k ∧ insertRound x = some x' ∧ I m x' := by
    rintro k ⟨t₁, _⟩ ⟨K₁, u₁, m₁, rfl, hi₁, h₁, hk, hsame, hkeeps⟩
    rw [belowRed_of h₁ (hne hi₁)]
    by_cases hp : parentColor K₁ = .red
    · obtain ⟨K₂, u₂, hr⟩ := exists_insertRound hi₁ hp
      obtain ⟨t₂, ht₂, h₂, hk₂⟩ := insertRound_spec h₁ hi₁.2.2 hr
      obtain ⟨m₂, hi₂⟩ := hr.insertRb hi₁
      refine Or.inr ⟨by simp [hp], K₂.length, _, ?_, ht₂, K₂, u₂, m₂, rfl, hi₂, h₂, le_rfl, ?_,
        hkeeps.trans hk₂⟩
      · exact lt_of_lt_of_le hr.length_lt hk
      · exact hr.inorder.trans hsame
    · exact Or.inl (by simp [hp])
  have hstart : I K.length (t, rootAddr null u) :=
    ⟨K, u, n, rfl, hi, h, le_rfl, rfl, .refl t⟩
  have hfuel : K.length ≤ t.size + 1 := by
    have hlength : K.length + u.height ≤ (plug K u).height := length_add_height_le
    have hheight := height_le_size (plug K u)
    omega
  obtain ⟨k, ⟨t₁, node⟩, hloop, ⟨K₁, u₁, m₁, hnode, hi₁, h₁, -, hsame, hkeeps⟩, hstop⟩ :=
    whileLoop_rule hround hstart hfuel
  dsimp only at hnode h₁ hkeeps
  subst hnode
  have hblack : parentColor K₁ = .black := by
    rw [belowRed_of h₁ (hne hi₁)] at hstop
    exact Color.eq_black (by simpa using hstop)
  obtain ⟨m, hm⟩ := hi₁.isRb hblack
  obtain ⟨t₂, ht₂, h₂, hk₂⟩ :=
    Holds.blacken_root (K := []) h₁ (plug_ne_nil (hne hi₁))
  refine ⟨t₂, _, m, ?_, h₂, hm, color_blacken, ?_, hkeeps.trans hk₂⟩
  · simp only [insertFixup, hloop, Option.bind_eq_bind, Option.bind_some, h₁.tree.root]
    exact ht₂
  · exact inorder_blacken.trans hsame

/-- A node is hung into a hole, and its own links are set. -/
private theorem Holds.hang {t₂ : RbTree V} {n : TreeCell (RbItem V)}
    (h : Holds t null (plug K .nil)) (hpT : p ∉ around K) (hnull : p ≠ null)
    (hp : t₂.memory p = some (n.setParent (top null K)))
    (hctx : CtxShape t₂.memory null null p K)
    (hroot : t₂.root = rootAddr null (plug K (.node .red .nil p .nil)))
    (hsentinel : t₂.memory null = t.memory null)
    (hdata : ∀ x, t₂.memory.data? x = t.memory.data? x) (hsize : t₂.size = t.size) :
    ∃ t₃ t₄ t₅, t₂.setChild p .left null = some t₃ ∧ t₃.setChild p .right null = some t₄ ∧
      t₄.paint p .red = some t₅ ∧ Holds t₅ null (plug K (.node .red .nil p .nil)) ∧
      Keeps t t₅ := by
  obtain ⟨t₃, ht₃, ha₃⟩ := setChild_of hp .left null
  obtain ⟨t₄, ht₄, ha₄⟩ := setChild_of ha₃.here .right null
  obtain ⟨t₅, ht₅, ha₅⟩ := paint_of ha₄.here .red
  have hrest : ∀ x, x ≠ p → t₅.memory x = t₂.memory x := by
    intro x hx
    rw [ha₅.other x hx, ha₄.other x hx, ha₃.other x hx]
  have hnull' : t₅.memory null = t.memory null := (hrest null (Ne.symm hnull)).trans hsentinel
  refine ⟨t₃, t₄, t₅, ht₃, ht₄, ht₅, ⟨⟨?_, ?_, ?_, ?_⟩, ?_⟩, ?_, hnull', ?_⟩
  · rw [ha₅.root, ha₄.root, ha₃.root, hroot]
  · refine shape_plug.mpr ⟨⟨⟨n.data, ?_⟩, trivial, trivial⟩, ?_⟩
    · rw [ha₅.here]
      rfl
    · apply hctx.congr
      intro x hx
      apply hrest
      rintro rfl
      exact hpT hx
  · rw [perm_plug.nodup_iff, inorder, inorder, List.nil_append, List.singleton_append,
      List.nodup_cons]
    exact ⟨hpT, (nodup_plug h.tree.nodup).2.1⟩
  · rw [mem_plug, inorder, inorder, List.nil_append, List.mem_singleton]
    rintro (hx | hx)
    · exact hnull hx.symm
    · exact h.tree.null (mem_plug.mpr (Or.inr hx))
  · rw [TreeMem.color?, hnull']
    exact h.sentinel
  · intro x
    rw [ha₅.data, ha₄.data, ha₃.data, hdata]
  · rw [ha₅.size, ha₄.size, ha₃.size, hsize]

/-- The node is red and hangs at its place; what is left is the loop. -/
private theorem insert_hangs {n : TreeCell (RbItem V)} (h : Holds t null T) (hs : Sorted t T)
    (hsize : t.size = T.size) (hp : t.memory p = some n) (hpT : p ∉ T.inorder) (hzero : p ≠ nullPtr)
    (hnull : p ≠ null) :
    ∃ K t₅, T = plug K .nil ∧ Holds t₅ null (plug K (.node .red .nil p .nil)) ∧
      Keeps t t₅ ∧ (t.insert p = do
        let t ← t₅.insertFixup p
        some { t with size := t.size + 1 }) ∧
      (∀ q ∈ before K, t.keyAt q ≤ t.keyAt p) ∧ ∀ q ∈ after K, t.keyAt p < t.keyAt q := by
  by_cases hT : T = .nil
  · have hroot := h.root_eq_null.mpr hT
    subst hT
    obtain ⟨t₂, ht₂, ha₂⟩ := setParent_of (t := { t with root := p }) hp null
    obtain ⟨t₃, t₄, t₅, ht₃, ht₄, ht₅, h₅, hk₅⟩ := Holds.hang (K := []) h List.not_mem_nil hnull
      ha₂.here trivial ha₂.root (ha₂.other null (Ne.symm hnull)) ha₂.data ha₂.size
    refine ⟨[], t₅, rfl, h₅, hk₅, ?_, by rintro _ ⟨⟩, by rintro _ ⟨⟩⟩
    rw [insert, if_neg (not_or.mpr ⟨hzero, hnull⟩)]
    simp only [hroot, ht₂, ht₃, ht₄, ht₅, if_true, Option.bind_eq_bind, Option.bind_some]
  · have hroot : t.root ≠ null := fun he => hT (h.root_eq_null.mp he)
    have hdata : t.memory.data? p = some n.data := by
      rw [TreeMem.data?, hp]
      rfl
    have hkey : t.keyAt p = n.data.key := by
      rw [keyAt, hdata]
      rfl
    rw [hkey]
    obtain ⟨K, rfl, hdescend, hbefore, hafter⟩ := descend_spec h hs hsize.ge n.data.key
    cases K with
    | nil => exact absurd rfl hT
    | cons f K =>
      have haround : p ∉ around (f :: K) := fun hx => hpT (mem_plug.mpr (Or.inr hx))
      obtain ⟨-, hnodup, -⟩ := nodup_plug h.tree.nodup
      have hshape : CtxShape t.memory null null null (f :: K) := (shape_plug.mp h.tree.shape).2
      have hf : f.elem ∈ (plug (f :: K) .nil).inorder :=
        mem_plug.mpr (Or.inr (mem_around_cons.mpr (Or.inl rfl)))
      have hfp : f.elem ≠ p := by
        rintro rfl
        exact hpT hf
      obtain ⟨i, hi, hikey⟩ := h.data? hf
      obtain ⟨t₁, ht₁, ha₁⟩ := setParent_of hp f.elem
      obtain ⟨t₂, ht₂, hctx₂, hroot₂, hsize₂, hother₂, hdata₂⟩ :=
        setChild_ctx (ha₁.ctxShape hshape haround) hnodup p
      obtain ⟨t₃, t₄, t₅, ht₃, ht₄, ht₅, h₅, hk₅⟩ := Holds.hang (K := f :: K) h haround
        hnull ((hother₂ p (Ne.symm hfp)).trans ha₁.here) hctx₂
        (by rw [hroot₂, ha₁.root, h.tree.root]
            exact rootAddr_plug_cons)
        (by rw [hother₂ null (Ne.symm (h.ne_null hf)), ha₁.other null (Ne.symm hnull)])
        (fun x => (hdata₂ x).trans (ha₁.data x)) (hsize₂.trans ha₁.size)
      refine ⟨f :: K, t₅, rfl, h₅, hk₅, ?_, hbefore, hafter⟩
      rw [insert, if_neg (not_or.mpr ⟨hzero, hnull⟩)]
      have hi₁ : t₁.memory.data? f.elem = some i := (ha₁.data f.elem).trans hi
      simp only [hroot, hdata, hdescend, top, ht₁, hi₁, if_false, Option.bind_eq_bind,
        Option.bind_some]
      obtain ⟨s, c, q, v⟩ := f
      cases s with
      | left =>
        have hlt : n.data.key < i.key := by
          rw [hikey]
          exact hafter q (by simp [after])
        rw [if_pos hlt, ht₂]
        simp only [ht₃, ht₄, ht₅, Option.bind_some]
      | right =>
        have hge : ¬ n.data.key < i.key := by
          rw [hikey, not_lt]
          exact hbefore q (by simp [before])
        rw [if_neg hge, ht₂]
        simp only [ht₃, ht₄, ht₅, Option.bind_some]

/-- The new node stands behind all whose keys are not greater. -/
theorem insert_spec {n : TreeCell (RbItem V)} {m : ℕ} (h : Holds t null T) (hrb : IsRb m T)
    (hcolor : T.color = .black) (hs : Sorted t T) (hsize : t.size = T.size)
    (hp : t.memory p = some n) (hpT : p ∉ T.inorder) (hzero : p ≠ nullPtr) (hnull : p ≠ null) :
    ∃ t' T' m' l₁ l₂, t.insert p = some t' ∧ Holds t' null T' ∧ IsRb m' T' ∧
      T'.color = .black ∧ t'.size = t.size + 1 ∧ (∀ x, t'.memory.data? x = t.memory.data? x) ∧
      T.inorder = l₁ ++ l₂ ∧ T'.inorder = l₁ ++ p :: l₂ ∧
      (∀ q ∈ l₁, t.keyAt q ≤ t.keyAt p) ∧ ∀ q ∈ l₂, t.keyAt p < t.keyAt q := by
  obtain ⟨K, t₅, rfl, h₅, hk₅, hinsert, hbefore, hafter⟩ := insert_hangs h hs hsize hp hpT hzero hnull
  obtain ⟨k, hi⟩ := insertRb_new (a := p) hrb hcolor
  have hone : (plug K (.node .red .nil p .nil)).size = (plug K .nil).size + 1 := by
    simp only [CTree.size, inorder_plug, inorder, List.length_append, List.length_cons,
      List.length_nil]
    omega
  have hfuel : (plug K (.node .red .nil p .nil)).size ≤ t₅.size + 1 := by
    rw [hone, hk₅.size, hsize]
  obtain ⟨t₆, T', m', ht₆, h₆, hrb', hcolor', hsame, hk₆⟩ := insertFixup_spec h₅ hi hfuel
  have ht₆ : t₅.insertFixup p = some t₆ := ht₆
  refine ⟨{ t₆ with size := t₆.size + 1 }, T', m', before K, after K, ?_, ⟨h₆.tree,
    h₆.sentinel⟩, hrb', hcolor', ?_, ?_, ?_, ?_, hbefore, hafter⟩
  · rw [hinsert, ht₆]
    rfl
  · rw [hk₆.size, hk₅.size]
  · exact (hk₅.trans hk₆).data
  · rw [inorder_plug, inorder, List.append_nil]
  · rw [hsame, inorder_plug]
    simp [inorder]

end RbTree
end DCache.Ring
