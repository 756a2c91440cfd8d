import DCache.Ring.RbRefinement

/-! What `util_rbtree_check` finds. -/
namespace DCache.Ring
open DCache.Lib DCache.Lib.CTree

namespace RbTree
variable {V : Type} {t : RbTree V} {rp p fuel level cur n : ℕ} {c : Color} {u l r : CTree ℕ}
  {K : List (Frame ℕ)} {check : Check}

theorem Sorted.node (hs : Sorted t (plug K (.node c l p r))) :
    (∀ q ∈ l.inorder, t.keyAt q ≤ t.keyAt p) ∧ ∀ q ∈ r.inorder, t.keyAt p ≤ t.keyAt q := by
  rw [Sorted, inorder_plug, inorder] at hs
  obtain ⟨-, hnode, -⟩ := List.pairwise_append.mp (List.pairwise_append.mp hs).1
  obtain ⟨-, hright, hcross⟩ := List.pairwise_append.mp hnode
  exact ⟨fun q hq => hcross q hq p List.mem_cons_self, (List.pairwise_cons.mp hright).1⟩

/-- Between a node and its child nothing is wrong. -/
private theorem checkChild_of {s : Side} {w v : CTree ℕ} {q : ℕ}
    (h : Holds t rp (plug K (nodeAt s c w p v))) (hw : w ≠ .nil) (hq : rootAddr null w = q)
    (hred : c = .red → w.color = .black)
    (hkey : match s with
      | .left => t.keyAt q ≤ t.keyAt p
      | .right => t.keyAt p ≤ t.keyAt q) : t.checkChild p s q check = some (true, check) := by
  have hcolor := h.color?_root
  have hwcolor := Holds.color?_root (K := ⟨s, c, p, v⟩ :: K) h
  obtain ⟨i, hi, hikey⟩ := h.data? (mem_plug.mpr (Or.inl (mem_inorder_nodeAt.mpr (Or.inl rfl))))
  have hmem : rootAddr null w ∈ w.inorder := rootAddr_mem hw
  obtain ⟨j, hj, hjkey⟩ := h.data?
    (mem_plug.mpr (Or.inl (mem_inorder_nodeAt.mpr (Or.inr (Or.inl hmem)))))
  rw [rootAddr_nodeAt, color_nodeAt] at hcolor
  rw [hq] at hwcolor hj hjkey
  have hfine : ¬ (c = .red ∧ w.color = .red) := by
    rintro ⟨hc, hwc⟩
    rw [hred hc] at hwc
    cases hwc
  rw [← hikey, ← hjkey] at hkey
  simp only [checkChild, hcolor, hwcolor, hi, hj, hfine, if_false, Option.bind_eq_bind,
    Option.bind_some]
  cases s
  · rw [if_neg (by simpa using hkey)]
  · rw [if_neg (by simpa using hkey)]

/-- What the check of a subtree adds. -/
structure Checked (check : Check) (black level height : ℕ) (check' : Check) : Prop where
  fini : check'.fini = 0
  rbh : check'.rbh = black
  mono : check.maxd ≤ check'.maxd
  le : check'.maxd ≤ check.maxd ∨ check'.maxd < level + height
  ge : level + height ≤ check'.maxd + 2

private theorem checked_height {height : ℕ} (hfini : check.fini = 0)
    (hrbh : check.rbh = 0 ∨ check.rbh = cur) (hone : 0 < height) (hle : height ≤ 2) :
    Checked check cur level height (check.height level cur) := by
  have hsame : (if check.rbh = 0 then cur else check.rbh) = cur := by
    rcases hrbh with h | h
    · rw [if_pos h]
    · split_ifs
      · rfl
      · exact h
  refine ⟨?_, hsame, ?_, ?_, ?_⟩ <;> simp only [Check.height, hsame]
  · rwa [if_neg (not_not.mpr rfl)]
  · split_ifs <;> omega
  · split_ifs <;> omega
  · split_ifs <;> omega

/-- The black nodes are counted along every way that ends at a missing child. A right subtree beside
a missing left one is not visited. -/
theorem checkSubtree_spec (h : Holds t rp (plug K u)) (hs : Sorted t (plug K u))
    (hrb : IsRb n u) (hu : u ≠ .nil) (hfuel : u.height ≤ fuel) (hfini : check.fini = 0)
    (hrbh : check.rbh = 0 ∨ check.rbh = cur + n) :
    ∃ check', t.checkSubtree fuel (rootAddr null u) check level cur = some check' ∧
      Checked check (cur + n) level u.height check' := by
  induction fuel generalizing u K check level cur n with
  | zero =>
    obtain ⟨c, l, p, r, rfl, -, hl, -⟩ := exists_node hu
    omega
  | succ fuel ih =>
    obtain ⟨c, l, p, r, rfl, hp, hl, hr⟩ := exists_node hu
    obtain ⟨hleft, hright, -⟩ := h.step
    have hcolor := h.color?_root
    rw [hp] at hcolor ⊢
    obtain ⟨hlkey, hrkey⟩ := hs.node
    -- the black nodes below, and the colours of the children
    obtain ⟨k, hk, hkl, hkr, hred⟩ : ∃ k,
        (if (CTree.node c l p r).color = .black then cur + 1 else cur) + k = cur + n ∧
          IsRb k l ∧ IsRb k r ∧ (c = .red → l.color = .black ∧ r.color = .black) := by
      cases hrb with
      | red hlc hrc hil hir => exact ⟨n, rfl, hil, hir, fun _ => ⟨hlc, hrc⟩⟩
      | black hil hir => exact ⟨_, by rw [CTree.color, if_pos rfl]; omega, hil, hir, nofun⟩
    have hlh : Holds t rp (plug (⟨.left, c, p, r⟩ :: K) l) := h
    have hrh : Holds t rp (plug (⟨.right, c, p, l⟩ :: K) r) := h
    simp only [checkSubtree, hfini, ne_eq, not_true_eq_false, if_false, hcolor, hleft, hright,
      Option.bind_eq_bind, Option.bind_some]
    generalize (if (CTree.node c l p r).color = .black then cur + 1 else cur) = cur' at hk ⊢
    rw [← hk] at hrbh ⊢
    have hone : ∀ {w : CTree ℕ}, k = 0 → IsRb k w → w.height ≤ 1 := by
      rintro w rfl hw
      have hheight := hw.height_le.1
      omega
    by_cases hln : l = .nil
    · subst hln
      cases hkl
      have hrone := hone rfl hkr
      have hh : (CTree.node c .nil p r).height = r.height + 1 := by
        rw [CTree.height, CTree.height, Nat.zero_max]
      exact ⟨_, if_pos rfl, checked_height hfini hrbh (by omega) (by omega)⟩
    · have hlne : rootAddr null l ≠ null := fun he => hln (hlh.rootAddr_eq_null.mp he)
      rw [if_neg hlne]
      have hchild : t.checkChild p .left (rootAddr null l) check = some (true, check) :=
        checkChild_of (s := .left) h hln rfl (fun hc => (hred hc).1) (hlkey _ (rootAddr_mem hln))
      obtain ⟨check₁, hcheck₁, h₁⟩ : ∃ check₁,
          t.checkSubtree fuel (rootAddr null l) check (level + 1) cur' = some check₁ ∧
            Checked check (cur' + k) (level + 1) l.height check₁ :=
        ih (K := ⟨.left, c, p, r⟩ :: K) h hs hkl hln (by omega) hfini hrbh
      simp only [hchild, hcheck₁, if_true, Option.bind_some]
      by_cases hrn : r = .nil
      · subst hrn
        cases hkr
        have hlone := hone rfl hkl
        have hh : (CTree.node c l p .nil).height = l.height + 1 := by
          rw [CTree.height, CTree.height, Nat.max_zero]
        have hcheck : Checked check₁ cur' level (CTree.node c l p .nil).height
            (check₁.height level cur') :=
          checked_height h₁.fini (Or.inr h₁.rbh) (by omega) (by omega)
        refine ⟨_, if_pos rfl, hcheck.fini, hcheck.rbh, h₁.mono.trans hcheck.mono, ?_, hcheck.ge⟩
        have hle₁ := h₁.le
        have hle := hcheck.le
        omega
      · have hrne : rootAddr null r ≠ null := fun he => hrn (hrh.rootAddr_eq_null.mp he)
        have hchild : t.checkChild p .right (rootAddr null r) check₁ = some (true, check₁) :=
          checkChild_of (s := .right) h hrn rfl (fun hc => (hred hc).2) (hrkey _ (rootAddr_mem hrn))
        obtain ⟨check₂, hcheck₂, h₂⟩ : ∃ check₂,
            t.checkSubtree fuel (rootAddr null r) check₁ (level + 1) cur' = some check₂ ∧
              Checked check₁ (cur' + k) (level + 1) r.height check₂ :=
          ih (K := ⟨.right, c, p, l⟩ :: K) h hs hkr hrn (by omega) h₁.fini (Or.inr h₁.rbh)
        have hh : (CTree.node c l p r).height = l.height + 1 ∨
            (CTree.node c l p r).height = r.height + 1 := by
          rw [CTree.height]
          omega
        refine ⟨check₂, ?_, h₂.fini, h₂.rbh, h₁.mono.trans h₂.mono, ?_, ?_⟩
        · rw [if_neg hrne]
          simp only [hchild, hcheck₂, if_true, Option.bind_some]
        · have hle₁ := h₁.le
          have hle₂ := h₂.le
          omega
        · have hge₁ := h₁.ge
          have hge₂ := h₂.ge
          have hmono := h₂.mono
          omega

/-- The check finds nothing wrong. It reports the number of black nodes on every way down, and the
height or one less. -/
theorem check_spec {T : CTree ℕ} (h : Holds t rp T) (hs : Sorted t T) (hrb : IsRb n T)
    (hcolor : T.color = .black) (hsize : T.size ≤ t.size) :
    (T = .nil ∧ t.check = some (0, none)) ∨ ∃ maxd, t.check = some (0, some (n, maxd)) ∧
      maxd ≤ T.height ∧ T.height ≤ maxd + 1 := by
  by_cases hT : T = .nil
  · exact Or.inl ⟨hT, if_pos (h.root_eq_null.mpr hT)⟩
  · right
    have hroot : t.root ≠ null := fun he => hT (h.root_eq_null.mp he)
    have hblack := Holds.color?_root (K := []) h
    rw [← h.tree.root, hcolor] at hblack
    obtain ⟨check', hcheck', hc⟩ : ∃ check',
        t.checkSubtree t.size (rootAddr null T) ⟨0, 0, 0⟩ 1 0 = some check' ∧
          Checked ⟨0, 0, 0⟩ (0 + n) 1 T.height check' :=
      checkSubtree_spec (K := []) h hs hrb hT ((height_le_size T).trans hsize) rfl (Or.inl rfl)
    rw [← h.tree.root] at hcheck'
    have hrbh := hc.rbh
    have hle : check'.maxd ≤ 0 ∨ check'.maxd < 1 + T.height := hc.le
    have hge : 1 + T.height ≤ check'.maxd + 2 := hc.ge
    rw [Nat.zero_add] at hrbh
    refine ⟨check'.maxd, ?_, by omega, by omega⟩
    rw [RbTree.check, if_neg hroot]
    simp [hblack, hcheck', hc.fini, hrbh]

end RbTree
end DCache.Ring
