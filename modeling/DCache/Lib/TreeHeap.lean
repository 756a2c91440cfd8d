import DCache.Lib.RedBlack
import Mathlib.Logic.Function.Basic

/-! Coloured trees in memory, with links down and up. An empty tree is the address `nul` of a
sentinel. Names are addresses, so the tree that the memory holds says where its nodes are. -/
namespace DCache.Lib

structure TreeCell (β : Type*) where
  data : β
  color : Color
  parent : ℕ
  left : ℕ
  right : ℕ

abbrev TreeMem (β : Type*) := ℕ → Option (TreeCell β)

namespace TreeCell
variable {β : Type*}

def child (c : TreeCell β) : Side → ℕ
  | .left => c.left
  | .right => c.right

def setChild (c : TreeCell β) (s : Side) (q : ℕ) : TreeCell β :=
  match s with
  | .left => { c with left := q }
  | .right => { c with right := q }

def setParent (c : TreeCell β) (q : ℕ) : TreeCell β := { c with parent := q }

def setColor (c : TreeCell β) (k : Color) : TreeCell β := { c with color := k }

/-- A cell with the child `q` on the side `s`, and `r` on the other one. -/
def linked (s : Side) (d : β) (k : Color) (p q r : ℕ) : TreeCell β :=
  match s with
  | .left => ⟨d, k, p, q, r⟩
  | .right => ⟨d, k, p, r, q⟩

variable (s : Side) (d : β) (k k' : Color) (p p' q q' r : ℕ) (c : TreeCell β)

@[simp] theorem data_linked : (linked s d k p q r).data = d := by cases s <;> rfl

@[simp] theorem color_linked : (linked s d k p q r).color = k := by cases s <;> rfl

@[simp] theorem parent_linked : (linked s d k p q r).parent = p := by cases s <;> rfl

@[simp] theorem child_linked : (linked s d k p q r).child s = q := by cases s <;> rfl

@[simp] theorem child_other_linked : (linked s d k p q r).child s.other = r := by cases s <;> rfl

@[simp] theorem setChild_linked :
    (linked s d k p q r).setChild s q' = linked s d k p q' r := by cases s <;> rfl

@[simp] theorem setChild_other_linked :
    (linked s d k p q r).setChild s.other q' = linked s d k p q q' := by cases s <;> rfl

@[simp] theorem setParent_linked :
    (linked s d k p q r).setParent p' = linked s d k p' q r := by cases s <;> rfl

@[simp] theorem setColor_linked :
    (linked s d k p q r).setColor k' = linked s d k' p q r := by cases s <;> rfl

@[simp] theorem data_setChild : (c.setChild s q).data = c.data := by cases s <;> rfl

@[simp] theorem data_setParent : (c.setParent q).data = c.data := rfl

@[simp] theorem data_setColor : (c.setColor k).data = c.data := rfl

end TreeCell

namespace TreeMem
variable {β : Type*}

/-- A store through `p`. -/
def modify (m : TreeMem β) (p : ℕ) (f : TreeCell β → TreeCell β) : Option (TreeMem β) :=
  (m p).map fun c => Function.update m p (some (f c))

theorem modify_of {m : TreeMem β} {p : ℕ} {c : TreeCell β} (h : m p = some c)
    (f : TreeCell β → TreeCell β) : m.modify p f = some (Function.update m p (some (f c))) := by
  rw [modify, h, Option.map_some]

def parent? (m : TreeMem β) (p : ℕ) : Option ℕ := (m p).map TreeCell.parent

def child? (m : TreeMem β) (p : ℕ) (s : Side) : Option ℕ := (m p).map fun c => c.child s

def color? (m : TreeMem β) (p : ℕ) : Option Color := (m p).map TreeCell.color

def data? (m : TreeMem β) (p : ℕ) : Option β := (m p).map TreeCell.data

end TreeMem

section Shape
variable {β : Type*}
open CTree

def rootAddr (nul : ℕ) : CTree ℕ → ℕ
  | .nil => nul
  | .node _ _ p _ => p

/-- The links and colours at the addresses of the tree, whose root is below `par`. -/
def Shape (m : TreeMem β) (nul : ℕ) : ℕ → CTree ℕ → Prop
  | _, .nil => True
  | par, .node c l p r =>
    (∃ d, m p = some ⟨d, c, par, rootAddr nul l, rootAddr nul r⟩) ∧ Shape m nul p l ∧
      Shape m nul p r

/-- The address above the hole. -/
def top (rp : ℕ) : List (Frame ℕ) → ℕ
  | [] => rp
  | f :: _ => f.elem

/-- The links and colours around a hole that is filled with the address `q`. -/
def CtxShape (m : TreeMem β) (nul rp : ℕ) : ℕ → List (Frame ℕ) → Prop
  | _, [] => True
  | q, f :: K =>
    (∃ d, m f.elem = some (.linked f.side d f.color (top rp K) q (rootAddr nul f.sibling))) ∧
      Shape m nul f.elem f.sibling ∧ CtxShape m nul rp f.elem K

/-- The addresses around a hole. -/
def around : List (Frame ℕ) → List ℕ
  | [] => []
  | f :: K => f.elem :: (f.sibling.inorder ++ around K)

variable {m m' : TreeMem β} {nul rp par par' q q' : ℕ} {s : Side} {c : Color} {p : ℕ}
  {t u v : CTree ℕ} {f : Frame ℕ} {K K' : List (Frame ℕ)}

@[simp] theorem rootAddr_nodeAt : rootAddr nul (nodeAt s c t p u) = p := by cases s <;> rfl

@[simp] theorem rootAddr_fill : rootAddr nul (f.fill t) = f.elem := rootAddr_nodeAt

@[simp] theorem rootAddr_blacken : rootAddr nul t.blacken = rootAddr nul t := by cases t <;> rfl

theorem rootAddr_mem (h : t ≠ .nil) : rootAddr nul t ∈ t.inorder := by
  cases t with
  | nil => exact absurd rfl h
  | node c l p r => exact List.mem_append_right _ List.mem_cons_self

/-- A tree that does not hold the sentinel is empty where its root is the sentinel. -/
theorem rootAddr_eq_iff (h : nul ∉ t.inorder) : rootAddr nul t = nul ↔ t = .nil := by
  constructor
  · intro he
    by_contra hne
    apply h
    rw [← he]
    exact rootAddr_mem hne
  · rintro rfl
    rfl

theorem shape_nodeAt : Shape m nul par (nodeAt s c t p u) ↔
    (∃ d, m p = some (.linked s d c par (rootAddr nul t) (rootAddr nul u))) ∧
      Shape m nul p t ∧ Shape m nul p u := by
  cases s
  · exact Iff.rfl
  · exact and_congr_right fun _ => and_comm

theorem mem_around_cons : p ∈ around (f :: K) ↔
    p = f.elem ∨ p ∈ f.sibling.inorder ∨ p ∈ around K := by
  simp [around]

theorem mem_around_append : p ∈ around (K ++ K') ↔ p ∈ around K ∨ p ∈ around K' := by
  induction K with
  | nil => simp [around]
  | cons f K ih =>
    rw [List.cons_append, mem_around_cons, mem_around_cons, ih]
    tauto

theorem perm_plug : (plug K t).inorder.Perm (t.inorder ++ around K) := by
  induction K generalizing t with
  | nil => simp [around]
  | cons f K ih =>
    refine ih.trans ?_
    have hfill : (f.fill t).inorder.Perm (t.inorder ++ f.elem :: f.sibling.inorder) := by
      obtain ⟨s, c, a, v⟩ := f
      cases s
      · exact .refl _
      · change (v.inorder ++ a :: t.inorder).Perm _
        exact List.perm_append_comm.trans (List.perm_middle.symm.trans (by simp))
    rw [around]
    simpa using hfill.append_right (around K)

theorem mem_plug : p ∈ (plug K t).inorder ↔ p ∈ t.inorder ∨ p ∈ around K := by
  rw [perm_plug.mem_iff, List.mem_append]

theorem perm_plug_node {l r : CTree ℕ} :
    (plug K (.node c l p r)).inorder.Perm (p :: (l.inorder ++ r.inorder ++ around K)) := by
  refine perm_plug.trans ?_
  rw [CTree.inorder, List.append_assoc, List.cons_append, List.append_assoc]
  exact List.perm_middle

/-- The parts of a tree with no address twice. -/
theorem nodup_plug (h : (plug K t).inorder.Nodup) :
    t.inorder.Nodup ∧ (around K).Nodup ∧ ∀ p ∈ t.inorder, p ∉ around K := by
  obtain ⟨ht, hctx, hd⟩ := List.nodup_append'.mp (perm_plug.nodup_iff.mp h)
  exact ⟨ht, hctx, fun p hp => hd hp⟩

theorem nodup_around_cons (h : (around (f :: K)).Nodup) :
    f.elem ∉ f.sibling.inorder ∧ f.elem ∉ around K ∧ f.sibling.inorder.Nodup ∧
      (around K).Nodup ∧ ∀ p ∈ f.sibling.inorder, p ∉ around K := by
  obtain ⟨hf, hrest⟩ := List.nodup_cons.mp h
  obtain ⟨hv, hctx, hd⟩ := List.nodup_append'.mp hrest
  rw [List.mem_append, not_or] at hf
  exact ⟨hf.1, hf.2, hv, hctx, fun p hp => hd hp⟩

theorem nodup_nodeAt (h : (nodeAt s c t p u).inorder.Nodup) :
    p ∉ t.inorder ∧ p ∉ u.inorder ∧ t.inorder.Nodup ∧ u.inorder.Nodup ∧
      ∀ q ∈ t.inorder, q ∉ u.inorder := by
  have hparts : ∀ {l r : CTree ℕ}, (l.inorder ++ p :: r.inorder).Nodup →
      p ∉ l.inorder ∧ p ∉ r.inorder ∧ l.inorder.Nodup ∧ r.inorder.Nodup ∧
        ∀ q ∈ l.inorder, q ∉ r.inorder := by
    intro l r h
    obtain ⟨hl, hr, hd⟩ := List.nodup_append'.mp h
    obtain ⟨hpr, hr⟩ := List.nodup_cons.mp hr
    refine ⟨fun hpl => hd hpl List.mem_cons_self, hpr, hl, hr, ?_⟩
    exact fun q hq hqr => hd hq (List.mem_cons_of_mem p hqr)
  cases s
  · exact hparts h
  · obtain ⟨h₁, h₂, h₃, h₄, h₅⟩ := hparts h
    exact ⟨h₂, h₁, h₄, h₃, fun q hq hqu => h₅ q hqu hq⟩

/-- Only the addresses of the tree matter. -/
theorem Shape.congr (h : Shape m nul par t) (hm : ∀ p ∈ t.inorder, m' p = m p) :
    Shape m' nul par t := by
  induction t generalizing par with
  | nil => trivial
  | node c l p r ihl ihr =>
    obtain ⟨⟨d, hd⟩, hl, hr⟩ := h
    refine ⟨⟨d, ?_⟩, ihl hl ?_, ihr hr ?_⟩
    · rw [hm p (List.mem_append_right _ List.mem_cons_self)]
      exact hd
    · intro q hq
      exact hm q (List.mem_append_left _ hq)
    · intro q hq
      exact hm q (List.mem_append_right _ (List.mem_cons_of_mem p hq))

theorem CtxShape.congr (h : CtxShape m nul rp q K) (hm : ∀ p ∈ around K, m' p = m p) :
    CtxShape m' nul rp q K := by
  induction K generalizing q with
  | nil => trivial
  | cons f K ih =>
    obtain ⟨⟨d, hd⟩, hv, hctx⟩ := h
    refine ⟨⟨d, ?_⟩, hv.congr ?_, ih hctx ?_⟩
    · rw [hm f.elem (mem_around_cons.mpr (Or.inl rfl))]
      exact hd
    · intro p hp
      exact hm p (mem_around_cons.mpr (Or.inr (Or.inl hp)))
    · intro p hp
      exact hm p (mem_around_cons.mpr (Or.inr (Or.inr hp)))

/-- A tree is hung below another address. -/
theorem Shape.reparent (h : Shape m nul par t) (hn : t.inorder.Nodup)
    (hroot : t ≠ .nil → m' (rootAddr nul t) = (m (rootAddr nul t)).map fun c => c.setParent par')
    (hm : ∀ p ∈ t.inorder, p ≠ rootAddr nul t → m' p = m p) : Shape m' nul par' t := by
  cases t with
  | nil => trivial
  | node c l p r =>
    obtain ⟨hpl, hpr, -, -, -⟩ := nodup_nodeAt (s := .left) hn
    obtain ⟨⟨d, hd⟩, hl, hr⟩ := h
    refine ⟨⟨d, ?_⟩, hl.congr ?_, hr.congr ?_⟩
    · have hp := hroot nofun
      rw [rootAddr, hd] at hp
      exact hp
    · intro q hq
      apply hm q (List.mem_append_left _ hq)
      rintro rfl
      exact hpl hq
    · intro q hq
      apply hm q (List.mem_append_right _ (List.mem_cons_of_mem p hq))
      rintro rfl
      exact hpr hq

/-- The hole is filled with another address. -/
theorem CtxShape.rehang (h : CtxShape m nul rp q K) (hn : (around K).Nodup)
    (htop : ∀ f ∈ K.head?, m' f.elem = (m f.elem).map fun c => c.setChild f.side q')
    (hm : ∀ p ∈ around K, (∀ f ∈ K.head?, p ≠ f.elem) → m' p = m p) :
    CtxShape m' nul rp q' K := by
  cases K with
  | nil => trivial
  | cons f K =>
    obtain ⟨hfv, hfc, -, -, -⟩ := nodup_around_cons hn
    obtain ⟨⟨d, hd⟩, hv, hctx⟩ := h
    have hne : ∀ p ∈ around (f :: K), p ≠ f.elem → m' p = m p := by
      intro p hp hpf
      apply hm p hp
      rintro g ⟨⟩
      exact hpf
    refine ⟨⟨d, ?_⟩, hv.congr ?_, hctx.congr ?_⟩
    · rw [htop f rfl, hd, Option.map_some, TreeCell.setChild_linked]
    · intro p hp
      apply hne p (mem_around_cons.mpr (Or.inr (Or.inl hp)))
      rintro rfl
      exact hfv hp
    · intro p hp
      apply hne p (mem_around_cons.mpr (Or.inr (Or.inr hp)))
      rintro rfl
      exact hfc hp

theorem shape_plug : Shape m nul rp (plug K t) ↔
    Shape m nul (top rp K) t ∧ CtxShape m nul rp (rootAddr nul t) K := by
  induction K generalizing t with
  | nil => exact (and_iff_left trivial).symm
  | cons f K ih =>
    rw [plug_cons, ih, rootAddr_fill, Frame.fill, shape_nodeAt]
    constructor
    · rintro ⟨⟨hf, ht, hv⟩, hctx⟩
      exact ⟨ht, hf, hv, hctx⟩
    · rintro ⟨ht, hf, hv, hctx⟩
      exact ⟨⟨hf, ht, hv⟩, hctx⟩

theorem Shape.isSome (h : Shape m nul par t) (hp : p ∈ t.inorder) : ∃ c, m p = some c := by
  induction t generalizing par with
  | nil => cases hp
  | node c l a r ihl ihr =>
    obtain ⟨⟨d, hd⟩, hl, hr⟩ := h
    rcases List.mem_append.mp hp with hp | hp
    · exact ihl hl hp
    · rcases List.mem_cons.mp hp with rfl | hp
      · exact ⟨_, hd⟩
      · exact ihr hr hp

/-- The root of the whole tree is the hole where there is nothing around it. -/
theorem rootAddr_plug_eq_iff (hn : (plug K t).inorder.Nodup) (ht : t ≠ .nil) :
    rootAddr nul t = rootAddr nul (plug K t) ↔ K = [] := by
  constructor
  · intro he
    by_contra hne
    have hmem : ∀ {K : List (Frame ℕ)} {t : CTree ℕ}, K ≠ [] →
        rootAddr nul (plug K t) ∈ around K := by
      intro K
      induction K with
      | nil => exact fun hne => absurd rfl hne
      | cons f K ih =>
        intro t _
        by_cases hctx : K = []
        · subst hctx
          exact mem_around_cons.mpr (Or.inl rootAddr_fill)
        · exact mem_around_cons.mpr (Or.inr (Or.inr (ih hctx)))
    obtain ⟨-, -, hd⟩ := nodup_plug hn
    exact hd _ (rootAddr_mem ht) (he ▸ hmem hne)
  · rintro rfl
    rfl

/-- The parts of a hole. -/
theorem ctxShape_append : CtxShape m nul rp (rootAddr nul t) (K ++ K') ↔
    CtxShape m nul (top rp K') (rootAddr nul t) K ∧
      CtxShape m nul rp (rootAddr nul (plug K t)) K' := by
  induction K generalizing t with
  | nil => exact (and_iff_right trivial).symm
  | cons f K ih =>
    have htop : top rp (K ++ K') = top (top rp K') K := by cases K <;> rfl
    have hrest := ih (t := f.fill t)
    rw [rootAddr_fill] at hrest
    rw [List.cons_append, CtxShape, CtxShape, hrest, htop, plug_cons]
    tauto

/-- The memory holds the tree, with its root at `root` below `rp`. -/
structure HoldsTree (m : TreeMem β) (nul rp root : ℕ) (t : CTree ℕ) : Prop where
  root : root = rootAddr nul t
  shape : Shape m nul rp t
  nodup : t.inorder.Nodup
  null : nul ∉ t.inorder

namespace HoldsTree
variable {root : ℕ}

/-- The node at the hole. -/
theorem focus (h : HoldsTree m nul rp root (plug K (nodeAt s c t p u))) :
    ∃ d, m p = some (.linked s d c (top rp K) (rootAddr nul t) (rootAddr nul u)) :=
  (shape_nodeAt.mp (shape_plug.mp h.shape).1).1

/-- The node above the hole. -/
theorem focus_cons (h : HoldsTree m nul rp root (plug (f :: K) t)) :
    ∃ d, m f.elem = some (.linked f.side d f.color (top rp K) (rootAddr nul t)
      (rootAddr nul f.sibling)) :=
  h.focus

theorem root_eq_iff (h : HoldsTree m nul rp root (plug K t)) (ht : t ≠ .nil) :
    rootAddr nul t = root ↔ K = [] := by
  rw [h.root]
  exact rootAddr_plug_eq_iff h.nodup ht

end HoldsTree
end Shape
end DCache.Lib
