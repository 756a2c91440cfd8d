import Mathlib.Data.List.Nodup
import Mathlib.Data.List.Basic
import Mathlib.Order.Basic
import Mathlib.Algebra.Group.Nat.Defs
import Mathlib.Tactic.Common

/-! Red-black trees, and the trees with a hole that the loops over them walk through. The sides of
a node have names, so that a rotation and its mirror image are one. -/
namespace DCache.Lib

inductive Side
  | left
  | right
deriving DecidableEq

def Side.other : Side → Side
  | left => right
  | right => left

@[simp] theorem Side.other_other (s : Side) : s.other.other = s := by cases s <;> rfl

theorem Side.eq_other {s s' : Side} (h : s' ≠ s) : s' = s.other := by
  cases s <;> cases s' <;> first | rfl | exact absurd rfl h

@[simp] theorem Side.other_ne (s : Side) : s.other ≠ s := by cases s <;> exact nofun

@[simp] theorem Side.ne_other (s : Side) : s ≠ s.other := by cases s <;> exact nofun

inductive Color
  | red
  | black
deriving DecidableEq

theorem Color.eq_black {c : Color} (h : c ≠ .red) : c = .black := by
  cases c
  · exact absurd rfl h
  · rfl

theorem Color.eq_red {c : Color} (h : c ≠ .black) : c = .red := by
  cases c
  · rfl
  · exact absurd rfl h

inductive CTree (α : Type*)
  | nil
  | node (c : Color) (l : CTree α) (a : α) (r : CTree α)

namespace CTree
variable {α : Type*}

/-- The empty tree counts as black. -/
def color : CTree α → Color
  | nil => .black
  | node c _ _ _ => c

def inorder : CTree α → List α
  | nil => []
  | node _ l a r => l.inorder ++ a :: r.inorder

def size (t : CTree α) : ℕ := t.inorder.length

def blacken : CTree α → CTree α
  | nil => nil
  | node _ l a r => node .black l a r

/-- A node with `t` on the side `s` and `u` on the other one. -/
def nodeAt (s : Side) (c : Color) (t : CTree α) (a : α) (u : CTree α) : CTree α :=
  match s with
  | .left => node c t a u
  | .right => node c u a t

/-- The number of nodes on the longest way down. -/
def height : CTree α → ℕ
  | nil => 0
  | node _ l _ r => max l.height r.height + 1

variable {s : Side} {c : Color} {t u : CTree α} {a : α} {n : ℕ}

theorem exists_nodeAt (h : t ≠ nil) (s : Side) : ∃ c u a v, t = nodeAt s c u a v := by
  cases t with
  | nil => exact absurd rfl h
  | node c l a r =>
    cases s
    · exact ⟨c, l, a, r, rfl⟩
    · exact ⟨c, r, a, l, rfl⟩

theorem nodeAt_other : nodeAt s.other c t a u = nodeAt s c u a t := by cases s <;> rfl

@[simp] theorem color_nodeAt : (nodeAt s c t a u).color = c := by cases s <;> rfl

@[simp] theorem blacken_nodeAt : (nodeAt s c t a u).blacken = nodeAt s .black t a u := by
  cases s <;> rfl

@[simp] theorem nodeAt_ne_nil : nodeAt s c t a u ≠ nil := by cases s <;> exact nofun

@[simp] theorem inorder_blacken : t.blacken.inorder = t.inorder := by cases t <;> rfl

@[simp] theorem color_blacken : t.blacken.color = .black := by cases t <;> rfl

theorem blacken_of_black (h : t.color = .black) : t.blacken = t := by
  cases t with
  | nil => rfl
  | node c l a r =>
    have hc : c = .black := h
    rw [hc]
    rfl

theorem mem_inorder_nodeAt {b : α} :
    b ∈ (nodeAt s c t a u).inorder ↔ b = a ∨ b ∈ t.inorder ∨ b ∈ u.inorder := by
  cases s <;> simp [nodeAt, inorder] <;> tauto

theorem height_lt_nodeAt : t.height < (nodeAt s c t a u).height := by
  cases s <;> simp only [nodeAt, height] <;> omega

theorem height_le_size (t : CTree α) : t.height ≤ t.size := by
  induction t with
  | nil => exact Nat.le_refl 0
  | node c l a r ihl ihr =>
    simp only [height, size, inorder, List.length_append, List.length_cons] at ihl ihr ⊢
    omega

/-- There are no more nodes than a full tree of the height has. -/
theorem size_lt_pow (t : CTree α) : t.size < 2 ^ t.height := by
  induction t with
  | nil => exact Nat.one_pos
  | node c l a r ihl ihr =>
    have hl : 2 ^ l.height ≤ 2 ^ max l.height r.height :=
      Nat.pow_le_pow_right Nat.two_pos (Nat.le_max_left _ _)
    have hr : 2 ^ r.height ≤ 2 ^ max l.height r.height :=
      Nat.pow_le_pow_right Nat.two_pos (Nat.le_max_right _ _)
    simp only [size, height, inorder, List.length_append, List.length_cons] at ihl ihr ⊢
    rw [Nat.pow_succ]
    omega

/-- No red node has a red child, and every way down from here passes `n` black nodes. -/
inductive IsRb : ℕ → CTree α → Prop
  | nil : IsRb 0 nil
  | red {n l a r} (hl : l.color = .black) (hr : r.color = .black) (hil : IsRb n l)
    (hir : IsRb n r) : IsRb n (node .red l a r)
  | black {n l a r} (hil : IsRb n l) (hir : IsRb n r) : IsRb (n + 1) (node .black l a r)

theorem isRb_red : IsRb n (nodeAt s .red t a u) ↔
    (t.color = .black ∧ u.color = .black) ∧ IsRb n t ∧ IsRb n u := by
  constructor
  · intro h
    cases s
    · cases h with
      | red hl hr hil hir => exact ⟨⟨hl, hr⟩, hil, hir⟩
    · cases h with
      | red hl hr hil hir => exact ⟨⟨hr, hl⟩, hir, hil⟩
  · rintro ⟨⟨ht, hu⟩, hit, hiu⟩
    cases s
    · exact .red ht hu hit hiu
    · exact .red hu ht hiu hit

theorem isRb_black : IsRb n (nodeAt s .black t a u) ↔
    ∃ m, n = m + 1 ∧ IsRb m t ∧ IsRb m u := by
  constructor
  · intro h
    cases s
    · cases h with
      | black hil hir => exact ⟨_, rfl, hil, hir⟩
    · cases h with
      | black hil hir => exact ⟨_, rfl, hir, hil⟩
  · rintro ⟨m, rfl, hit, hiu⟩
    cases s
    · exact .black hit hiu
    · exact .black hiu hit

theorem isRb_black_succ : IsRb (n + 1) (nodeAt s .black t a u) ↔ IsRb n t ∧ IsRb n u := by
  rw [isRb_black]
  constructor
  · rintro ⟨m, hm, h⟩
    rw [Nat.add_right_cancel hm]
    exact h
  · intro h
    exact ⟨n, rfl, h⟩

theorem IsRb.ne_nil (h : IsRb (n + 1) t) : t ≠ CTree.nil := by
  rintro rfl
  cases h

/-- Blackening a red root adds a black node to every way down. -/
theorem IsRb.blacken (h : IsRb n t) (hc : t.color = .red) : IsRb (n + 1) t.blacken := by
  cases h with
  | nil => cases hc
  | red _ _ hil hir => exact .black hil hir
  | black => cases hc

theorem IsRb.exists_blacken (h : IsRb n t) : ∃ m, IsRb m t.blacken := by
  cases h with
  | nil => exact ⟨0, .nil⟩
  | red _ _ hil hir => exact ⟨_, .black hil hir⟩
  | black hil hir => exact ⟨_, .black hil hir⟩

/-- A way down is at most twice as long as it has black nodes, and one longer below a red root. -/
theorem IsRb.height_le (h : IsRb n t) :
    t.height ≤ 2 * n + 1 ∧ (t.color = .black → t.height ≤ 2 * n) := by
  induction h with
  | nil => exact ⟨Nat.zero_le _, fun _ => Nat.le_refl 0⟩
  | red hl hr _ _ ihl ihr =>
    have hlh := ihl.2 hl
    have hrh := ihr.2 hr
    refine ⟨?_, nofun⟩
    rw [height]
    omega
  | black _ _ ihl ihr =>
    have hlh := ihl.1
    have hrh := ihr.1
    rw [height]
    omega

/-- There are as many nodes as a full tree of the black ones has. -/
theorem IsRb.pow_le (h : IsRb n t) : 2 ^ n ≤ t.size + 1 := by
  induction h with
  | nil => exact Nat.le_refl 1
  | red _ _ _ _ ihl _ =>
    simp only [size, inorder, List.length_append, List.length_cons] at ihl ⊢
    omega
  | black _ _ ihl ihr =>
    simp only [size, inorder, List.length_append, List.length_cons] at ihl ihr ⊢
    rw [Nat.pow_succ]
    omega

theorem IsRb.eq_nil (h : IsRb 0 t) (hc : t.color = .black) : t = CTree.nil := by
  cases h with
  | nil => rfl
  | red => cases hc

/-- Without black nodes there is one node at most. -/
theorem IsRb.size_le_one (h : IsRb 0 t) : t.size ≤ 1 := by
  cases h with
  | nil => exact Nat.zero_le 1
  | red hl hr hil hir =>
    rw [hil.eq_nil hl, hir.eq_nil hr]
    exact Nat.le_refl 1

end CTree

/-- A step from a node to the child that the hole stands for. -/
structure Frame (α : Type*) where
  side : Side
  color : Color
  elem : α
  sibling : CTree α

namespace Frame
variable {α : Type*}

def fill (f : Frame α) (t : CTree α) : CTree α := .nodeAt f.side f.color t f.elem f.sibling

end Frame

section Zipper
variable {α : Type*}
open CTree

/-- The tree with the hole filled. The frames start at the hole. -/
def plug : List (Frame α) → CTree α → CTree α
  | [], t => t
  | f :: K, t => plug K (f.fill t)

def before : List (Frame α) → List α
  | [] => []
  | f :: K => before K ++ match f.side with
    | .left => []
    | .right => f.sibling.inorder ++ [f.elem]

def after : List (Frame α) → List α
  | [] => []
  | f :: K => (match f.side with
    | .left => f.elem :: f.sibling.inorder
    | .right => []) ++ after K

/-- The colour of the node above the hole. -/
def parentColor (K : List (Frame α)) : Color := (K.head?.map Frame.color).getD .black

variable {K K' : List (Frame α)} {t u : CTree α} {f : Frame α} {n : ℕ}

@[simp] theorem plug_nil : plug [] t = t := rfl

theorem plug_cons : plug (f :: K) t = plug K (f.fill t) := rfl

theorem plug_append : plug (K ++ K') t = plug K' (plug K t) := by
  induction K generalizing t with
  | nil => rfl
  | cons f K ih => exact ih

theorem inorder_plug : (plug K t).inorder = before K ++ t.inorder ++ after K := by
  induction K generalizing t with
  | nil => simp [before, after]
  | cons f K ih =>
    obtain ⟨s, c, a, v⟩ := f
    rw [plug, ih]
    cases s <;> simp [before, after, Frame.fill, nodeAt, inorder]

theorem inorder_plug_congr (h : t.inorder = u.inorder) :
    (plug K t).inorder = (plug K u).inorder := by
  rw [inorder_plug, inorder_plug, h]

theorem before_eq_nil (h : ∀ f ∈ K, f.side = .left) : before K = [] := by
  induction K with
  | nil => rfl
  | cons f K ih =>
    rw [before, ih fun g hg => h g (List.mem_cons_of_mem f hg), h f List.mem_cons_self]
    rfl

theorem after_eq_nil (h : ∀ f ∈ K, f.side = .right) : after K = [] := by
  induction K with
  | nil => rfl
  | cons f K ih =>
    rw [after, ih fun g hg => h g (List.mem_cons_of_mem f hg), h f List.mem_cons_self]
    rfl

section Walk
variable {R : α → α → Prop} {P : α → Prop} {c : Color} {l r : CTree α} {a : α}

theorem forall_before_left (h : ∀ x ∈ before K, P x) :
    ∀ x ∈ before (⟨.left, c, a, r⟩ :: K), P x := by
  intro x hx
  rw [before, List.append_nil] at hx
  exact h x hx

/-- Behind a step to the left: what holds at the node and goes on holding. -/
theorem forall_after_left (hs : (plug K (.node c l a r)).inorder.Pairwise R)
    (hP : ∀ x y, R x y → P x → P y) (ha : P a) (h : ∀ x ∈ after K, P x) :
    ∀ x ∈ after (⟨.left, c, a, r⟩ :: K), P x := by
  intro x hx
  rw [inorder_plug, inorder] at hs
  rcases List.mem_append.mp hx with hx | hx
  · rcases List.mem_cons.mp hx with rfl | hx
    · exact ha
    · obtain ⟨-, hnode, -⟩ := List.pairwise_append.mp (List.pairwise_append.mp hs).1
      obtain ⟨-, hright, -⟩ := List.pairwise_append.mp hnode
      exact hP a x ((List.pairwise_cons.mp hright).1 x hx) ha
  · exact h x hx

theorem forall_before_right (hs : (plug K (.node c l a r)).inorder.Pairwise R)
    (hP : ∀ x y, R x y → P y → P x) (ha : P a) (h : ∀ x ∈ before K, P x) :
    ∀ x ∈ before (⟨.right, c, a, l⟩ :: K), P x := by
  intro x hx
  rw [inorder_plug, inorder] at hs
  rcases List.mem_append.mp hx with hx | hx
  · exact h x hx
  · rcases List.mem_append.mp hx with hx | hx
    · obtain ⟨-, hnode, -⟩ := List.pairwise_append.mp (List.pairwise_append.mp hs).1
      obtain ⟨-, -, hcross⟩ := List.pairwise_append.mp hnode
      exact hP x a (hcross x hx a List.mem_cons_self) ha
    · obtain rfl := List.mem_singleton.mp hx
      exact ha

end Walk

theorem plug_ne_nil (h : t ≠ nil) : plug K t ≠ nil := by
  induction K generalizing t with
  | nil => exact h
  | cons f K ih => exact ih nodeAt_ne_nil

/-- Every element stands at the end of a way down. -/
theorem exists_plug {a : α} (h : a ∈ t.inorder) : ∃ K c l r, t = plug K (.node c l a r) := by
  induction t with
  | nil => cases h
  | node c l b r ihl ihr =>
    rcases List.mem_append.mp h with hl | hr
    · obtain ⟨K, c', l', r', rfl⟩ := ihl hl
      refine ⟨K ++ [⟨.left, c, b, r⟩], c', l', r', ?_⟩
      rw [plug_append]
      rfl
    · rcases List.mem_cons.mp hr with rfl | hr
      · exact ⟨[], c, l, r, rfl⟩
      · obtain ⟨K, c', l', r', rfl⟩ := ihr hr
        refine ⟨K ++ [⟨.right, c, b, l⟩], c', l', r', ?_⟩
        rw [plug_append]
        rfl

theorem length_add_height_le : K.length + t.height ≤ (plug K t).height := by
  induction K generalizing t with
  | nil => exact Nat.le_of_eq (Nat.zero_add _)
  | cons f K ih =>
    have hfill : t.height + 1 ≤ (f.fill t).height := by
      obtain ⟨s, c, a, v⟩ := f
      cases s <;> simp only [Frame.fill, nodeAt, CTree.height] <;> omega
    have hrest := ih (t := f.fill t)
    rw [plug, List.length_cons]
    omega

/-- What is around a hole for a tree of black height `n`. The root is black. -/
def CtxRb : ℕ → List (Frame α) → Prop
  | _, [] => True
  | n, f :: K => IsRb n f.sibling ∧ match f.color with
    | .red => (f.sibling.color = .black ∧ K ≠ [] ∧ parentColor K = .black) ∧ CtxRb n K
    | .black => CtxRb (n + 1) K

theorem ctxRb_red {s : Side} {a : α} {v : CTree α} : CtxRb n (⟨s, .red, a, v⟩ :: K) ↔
    IsRb n v ∧ (v.color = .black ∧ K ≠ [] ∧ parentColor K = .black) ∧ CtxRb n K := Iff.rfl

theorem ctxRb_black {s : Side} {a : α} {v : CTree α} : CtxRb n (⟨s, .black, a, v⟩ :: K) ↔
    IsRb n v ∧ CtxRb (n + 1) K := Iff.rfl

/-- A tree that fits makes the whole a red-black tree. -/
theorem isRb_plug (hctx : CtxRb n K) (ht : IsRb n t)
    (hc : parentColor K = .black ∨ t.color = .black) :
    ∃ m, IsRb m (plug K t) ∧ (K ≠ [] → (plug K t).color = .black) := by
  induction K generalizing t n with
  | nil => exact ⟨n, ht, fun h => absurd rfl h⟩
  | cons f K ih =>
    obtain ⟨s, c, a, v⟩ := f
    cases c with
    | red =>
      obtain ⟨hv, ⟨hvc, hne, hp⟩, hctx⟩ := ctxRb_red.mp hctx
      have htc : t.color = .black := hc.resolve_left nofun
      have hfill : IsRb n (nodeAt s .red t a v) := isRb_red.mpr ⟨⟨htc, hvc⟩, ht, hv⟩
      obtain ⟨m, hm, hroot⟩ := ih hctx hfill (Or.inl hp)
      exact ⟨m, hm, fun _ => hroot hne⟩
    | black =>
      obtain ⟨hv, hctx⟩ := ctxRb_black.mp hctx
      have hfill : IsRb (n + 1) (nodeAt s .black t a v) := isRb_black_succ.mpr ⟨ht, hv⟩
      obtain ⟨m, hm, hroot⟩ := ih hctx hfill (Or.inr color_nodeAt)
      refine ⟨m, hm, fun _ => ?_⟩
      by_cases hne : K = []
      · subst hne
        exact color_nodeAt
      · exact hroot hne

/-- A red-black tree with a black root can be cut anywhere. -/
theorem of_isRb_plug {m : ℕ} (h : IsRb m (plug K t)) (hroot : (plug K t).color = .black) :
    ∃ n, CtxRb n K ∧ IsRb n t ∧ (parentColor K = .black ∨ t.color = .black) := by
  induction K generalizing t with
  | nil => exact ⟨m, trivial, h, Or.inl rfl⟩
  | cons f K ih =>
    obtain ⟨s, c, a, v⟩ := f
    obtain ⟨n, hctx, hfill, hc⟩ := ih h hroot
    cases c with
    | red =>
      obtain ⟨⟨htc, hvc⟩, ht, hv⟩ := isRb_red.mp hfill
      have hp : parentColor K = .black := hc.resolve_right (by simp [Frame.fill])
      have hne : K ≠ [] := by
        rintro rfl
        simp [plug, Frame.fill] at hroot
      exact ⟨n, ctxRb_red.mpr ⟨hv, ⟨hvc, hne, hp⟩, hctx⟩, ht, Or.inr htc⟩
    | black =>
      obtain ⟨k, rfl, ht, hv⟩ := isRb_black.mp hfill
      exact ⟨k, ctxRb_black.mpr ⟨hv, hctx⟩, ht, Or.inl rfl⟩

/-- The names of the nodes around the hole do not matter. -/
theorem CtxRb.rename {s : Side} {c : Color} {a b : α} {v : CTree α}
    (h : CtxRb n (K ++ ⟨s, c, a, v⟩ :: K')) : CtxRb n (K ++ ⟨s, c, b, v⟩ :: K') := by
  induction K generalizing n with
  | nil => exact h
  | cons f K ih =>
    obtain ⟨hv, h⟩ := h
    refine ⟨hv, ?_⟩
    cases hc : f.color with
    | red =>
      rw [hc] at h
      obtain ⟨⟨hvc, -, hp⟩, h⟩ := h
      refine ⟨⟨hvc, by simp, ?_⟩, ih h⟩
      cases K with
      | nil => exact hp
      | cons g K => exact hp
    | black =>
      rw [hc] at h
      exact ih h

end Zipper

section Insertion
variable {α : Type*}
open CTree

/-- A round of the loop that follows an insertion: `t` is red, and so is the node above it. -/
inductive InsertRound : List (Frame α) → CTree α → List (Frame α) → CTree α → Prop
  | recolor (s s' : Side) (c : Color) (a b : α) (u v t : CTree α) (K : List (Frame α))
    (hv : v.color = .red) : InsertRound (⟨s, .red, a, u⟩ :: ⟨s', c, b, v⟩ :: K) t
      K (nodeAt s' .red (nodeAt s .black t a u) b v.blacken)
  | outer (s : Side) (c : Color) (a b : α) (u v t : CTree α) (K : List (Frame α))
    (hv : v.color = .black) : InsertRound (⟨s, .red, a, u⟩ :: ⟨s, c, b, v⟩ :: K) t
      (⟨s, .black, a, nodeAt s .red u b v⟩ :: K) t
  | inner (s : Side) (c d : Color) (a b e : α) (u v x y : CTree α) (K : List (Frame α))
    (hv : v.color = .black) :
    InsertRound (⟨s.other, .red, a, u⟩ :: ⟨s, c, b, v⟩ :: K) (nodeAt s d x e y)
      (⟨s, .black, e, nodeAt s .red y b v⟩ :: K) (nodeAt s d u a x)

variable {K K' : List (Frame α)} {t t' : CTree α} {n : ℕ}

/-- The tree fits, but for the colour of its root. -/
def InsertRb (n : ℕ) (K : List (Frame α)) (t : CTree α) : Prop :=
  CtxRb n K ∧ IsRb n t ∧ t.color = .red

theorem InsertRound.inorder (h : InsertRound K t K' t') :
    (plug K' t').inorder = (plug K t).inorder := by
  cases h with
  | recolor s s' c a b u v t K hv =>
    cases s <;> cases s' <;> simp [plug_cons, inorder_plug, Frame.fill, nodeAt, CTree.inorder]
  | outer s c a b u v t K hv =>
    cases s <;> simp [plug_cons, inorder_plug, Frame.fill, nodeAt, CTree.inorder]
  | inner s c d a b e u v x y K hv =>
    cases s <;> simp [plug_cons, inorder_plug, Frame.fill, nodeAt, CTree.inorder, Side.other]

theorem InsertRound.length_lt (h : InsertRound K t K' t') : K'.length < K.length := by
  cases h <;> simp only [List.length_cons] <;> omega

theorem InsertRound.insertRb (h : InsertRound K t K' t') (hi : InsertRb n K t) :
    ∃ m, InsertRb m K' t' := by
  obtain ⟨hctx, ht, htc⟩ := hi
  cases h with
  | recolor s s' c a b u v t K hv =>
    obtain ⟨hu, ⟨huc, -, rfl⟩, hctx⟩ := ctxRb_red.mp hctx
    obtain ⟨hv', hctx⟩ := ctxRb_black.mp hctx
    refine ⟨n + 1, hctx, ?_, color_nodeAt⟩
    refine isRb_red.mpr ⟨⟨color_nodeAt, color_blacken⟩, ?_, hv'.blacken hv⟩
    exact isRb_black_succ.mpr ⟨ht, hu⟩
  | outer s c a b u v t K hv =>
    obtain ⟨hu, ⟨huc, -, rfl⟩, hctx⟩ := ctxRb_red.mp hctx
    obtain ⟨hv', hctx⟩ := ctxRb_black.mp hctx
    refine ⟨n, ctxRb_black.mpr ⟨?_, hctx⟩, ht, htc⟩
    exact isRb_red.mpr ⟨⟨huc, hv⟩, hu, hv'⟩
  | inner s c d a b e u v x y K hv =>
    obtain ⟨hu, ⟨huc, -, rfl⟩, hctx⟩ := ctxRb_red.mp hctx
    obtain ⟨hv', hctx⟩ := ctxRb_black.mp hctx
    rw [color_nodeAt] at htc
    subst htc
    obtain ⟨⟨hxc, hyc⟩, hx, hy⟩ := isRb_red.mp ht
    refine ⟨n, ctxRb_black.mpr ⟨?_, hctx⟩, ?_, color_nodeAt⟩
    · exact isRb_red.mpr ⟨⟨hyc, hv⟩, hy, hv'⟩
    · exact isRb_red.mpr ⟨⟨huc, hxc⟩, hu, hx⟩

/-- Below a red node there is always a round. -/
theorem exists_insertRound (hi : InsertRb n K t) (hp : parentColor K = .red) :
    ∃ K' t', InsertRound K t K' t' := by
  obtain ⟨hctx, ht, htc⟩ := hi
  cases K with
  | nil => cases hp
  | cons f K =>
    obtain ⟨s, c, a, u⟩ := f
    obtain rfl : c = .red := hp
    obtain ⟨hu, ⟨huc, hne, hg⟩, -⟩ := ctxRb_red.mp hctx
    cases K with
    | nil => exact absurd rfl hne
    | cons g K =>
      obtain ⟨s', c', b, v⟩ := g
      by_cases hv : v.color = .red
      · exact ⟨_, _, .recolor s s' c' a b u v t K hv⟩
      · have hv := Color.eq_black hv
        by_cases hs : s = s'
        · subst hs
          exact ⟨_, _, .outer s c' a b u v t K hv⟩
        · obtain rfl := Side.eq_other hs
          have htn : t ≠ nil := by
            rintro rfl
            cases htc
          obtain ⟨d, x, e, y, rfl⟩ := exists_nodeAt htn s'
          exact ⟨_, _, .inner s' c' d a b e u v x y K hv⟩

/-- When the node above is black, only the root is left to be blackened. -/
theorem InsertRb.isRb (hi : InsertRb n K t) (hp : parentColor K = .black) :
    ∃ m, IsRb m (plug K t).blacken := by
  obtain ⟨hctx, ht, -⟩ := hi
  obtain ⟨m, hm, -⟩ := isRb_plug hctx ht (Or.inl hp)
  exact hm.exists_blacken

/-- A new red node fits, but for its colour. -/
theorem insertRb_new {m : ℕ} {a : α} (h : IsRb m (plug K .nil))
    (hroot : (plug K .nil).color = .black) : ∃ n, InsertRb n K (.node .red .nil a .nil) := by
  obtain ⟨n, hctx, hn, -⟩ := of_isRb_plug h hroot
  cases hn
  exact ⟨0, hctx, .red rfl rfl .nil .nil, rfl⟩

end Insertion

section Deletion
variable {α : Type*}
open CTree

/-- The first part of a round of the loop that follows a deletion: a red sibling goes up, and a
black one takes its place. -/
inductive SiblingTurn : List (Frame α) → List (Frame α) → Prop
  | turn (s : Side) (c : Color) (a b : α) (u v : CTree α) (K : List (Frame α)) :
    SiblingTurn (⟨s, c, a, nodeAt s .red u b v⟩ :: K)
      (⟨s, .red, a, u⟩ :: ⟨s, .black, b, v⟩ :: K)
  | stay (s : Side) (c : Color) (a : α) (w : CTree α) (K : List (Frame α))
    (hw : w.color = .black) : SiblingTurn (⟨s, c, a, w⟩ :: K) (⟨s, c, a, w⟩ :: K)

/-- The second part, where the sibling is black. The last two end the loop at the root. -/
inductive DeleteRound : List (Frame α) → CTree α → List (Frame α) → CTree α → Prop
  | push (s : Side) (c : Color) (a b : α) (t u v : CTree α) (K : List (Frame α))
    (hu : u.color = .black) (hv : v.color = .black) :
    DeleteRound (⟨s, c, a, nodeAt s .black u b v⟩ :: K) t
      K (nodeAt s c t a (nodeAt s .red u b v))
  | far (s : Side) (c : Color) (a b : α) (t u v : CTree α) (K : List (Frame α))
    (hv : v.color = .red) : DeleteRound (⟨s, c, a, nodeAt s .black u b v⟩ :: K) t
      [] (plug K (nodeAt s c (nodeAt s .black t a u) b v.blacken))
  | near (s : Side) (c : Color) (a b e : α) (t x y v : CTree α) (K : List (Frame α))
    (hv : v.color = .black) :
    DeleteRound (⟨s, c, a, nodeAt s .black (nodeAt s .red x e y) b v⟩ :: K) t
      [] (plug K (nodeAt s c (nodeAt s .black t a x) e (nodeAt s .black y b v)))

variable {K K₁ K' : List (Frame α)} {t t' : CTree α} {n : ℕ}

/-- The hole is for a tree that is one black node higher; a red root can make up for it. -/
def DeleteRb (n : ℕ) (K : List (Frame α)) (t : CTree α) : Prop :=
  CtxRb (n + 1) K ∧ (t.color = .black → IsRb n t) ∧ (t.color = .red → IsRb (n + 1) t.blacken)

theorem SiblingTurn.inorder (h : SiblingTurn K K₁) :
    (plug K₁ t).inorder = (plug K t).inorder := by
  cases h with
  | turn s c a b u v K =>
    cases s <;> simp [plug_cons, inorder_plug, Frame.fill, nodeAt, CTree.inorder]
  | stay => rfl

theorem DeleteRound.inorder (h : DeleteRound K t K' t') :
    (plug K' t').inorder = (plug K t).inorder := by
  cases h with
  | push s c a b t u v K hu hv =>
    cases s <;> simp [plug_cons, inorder_plug, Frame.fill, nodeAt, CTree.inorder]
  | far s c a b t u v K hv =>
    cases s <;> simp [plug_cons, inorder_plug, Frame.fill, nodeAt, CTree.inorder]
  | near s c a b e t x y v K hv =>
    cases s <;> simp [plug_cons, inorder_plug, Frame.fill, nodeAt, CTree.inorder]

theorem SiblingTurn.deleteRb (h : SiblingTurn K K₁) (hd : DeleteRb n K t) :
    DeleteRb n K₁ t := by
  obtain ⟨hctx, ht⟩ := hd
  cases h with
  | turn s c a b u v K =>
    refine ⟨?_, ht⟩
    cases c with
    | red =>
      have hw := (ctxRb_red.mp hctx).2.1.1
      simp at hw
    | black =>
      obtain ⟨hw, hctx⟩ := ctxRb_black.mp hctx
      obtain ⟨⟨huc, -⟩, hu, hv⟩ := isRb_red.mp hw
      refine ctxRb_red.mpr ⟨hu, ⟨huc, by simp, rfl⟩, ?_⟩
      exact ctxRb_black.mpr ⟨hv, hctx⟩
  | stay => exact ⟨hctx, ht⟩

/-- A red node with a red child is left for the loop to find. -/
theorem DeleteRound.deleteRb (h : DeleteRound K t K' t') (hd : DeleteRb n K t)
    (htc : t.color = .black) : ∃ m, DeleteRb m K' t' := by
  obtain ⟨hctx, ht, -⟩ := hd
  have ht := ht htc
  have hroot : ∀ {m : ℕ} {K : List (Frame α)} {u : CTree α}, CtxRb m K → IsRb m u →
      (parentColor K = .black ∨ u.color = .black) → (K = [] → u.color = .black) →
        ∃ k, DeleteRb k [] (plug K u) := by
    intro m K u hctx hu hc hnil
    obtain ⟨k, hk, hblack⟩ := isRb_plug hctx hu hc
    have hcolor : (plug K u).color = .black := by
      by_cases hne : K = []
      · subst hne
        exact hnil rfl
      · exact hblack hne
    refine ⟨k, trivial, fun _ => hk, fun h => ?_⟩
    rw [hcolor] at h
    cases h
  cases h with
  | push s c a b t u v K hu hv =>
    obtain ⟨hw, hctx⟩ := hctx
    obtain ⟨hiu, hiv⟩ := isRb_black_succ.mp hw
    have hwr : IsRb n (nodeAt s .red u b v) := isRb_red.mpr ⟨⟨hu, hv⟩, hiu, hiv⟩
    have hblack : IsRb (n + 1) (nodeAt s .black t a (nodeAt s .red u b v)) :=
      isRb_black_succ.mpr ⟨ht, hwr⟩
    cases c with
    | red =>
      refine ⟨n, hctx.2, fun h => ?_, fun _ => ?_⟩
      · rw [color_nodeAt] at h
        cases h
      · rw [blacken_nodeAt]
        exact hblack
    | black =>
      refine ⟨n + 1, hctx, fun _ => hblack, fun h => ?_⟩
      rw [color_nodeAt] at h
      cases h
  | far s c a b t u v K hv =>
    obtain ⟨hw, hctx⟩ := hctx
    obtain ⟨hiu, hiv⟩ := isRb_black_succ.mp hw
    have hnear : IsRb (n + 1) (nodeAt s .black t a u) := isRb_black_succ.mpr ⟨ht, hiu⟩
    cases c with
    | red =>
      refine hroot hctx.2 ?_ (Or.inl hctx.1.2.2) fun h => absurd h hctx.1.2.1
      exact isRb_red.mpr ⟨⟨color_nodeAt, color_blacken⟩, hnear, hiv.blacken hv⟩
    | black =>
      refine hroot hctx ?_ (Or.inr color_nodeAt) fun _ => color_nodeAt
      exact isRb_black_succ.mpr ⟨hnear, hiv.blacken hv⟩
  | near s c a b e t x y v K hv =>
    obtain ⟨hw, hctx⟩ := hctx
    obtain ⟨hiu, hiv⟩ := isRb_black_succ.mp hw
    obtain ⟨-, hx, hy⟩ := isRb_red.mp hiu
    have hnear : IsRb (n + 1) (nodeAt s .black t a x) := isRb_black_succ.mpr ⟨ht, hx⟩
    have hfar : IsRb (n + 1) (nodeAt s .black y b v) := isRb_black_succ.mpr ⟨hy, hiv⟩
    cases c with
    | red =>
      refine hroot hctx.2 ?_ (Or.inl hctx.1.2.2) fun h => absurd h hctx.1.2.1
      exact isRb_red.mpr ⟨⟨color_nodeAt, color_nodeAt⟩, hnear, hfar⟩
    | black =>
      refine hroot hctx ?_ (Or.inr color_nodeAt) fun _ => color_nodeAt
      exact isRb_black_succ.mpr ⟨hnear, hfar⟩

/-- How far the loop has to go: it ends at a red node and at the root. -/
def deleteMeasure (K : List (Frame α)) (t : CTree α) : ℕ :=
  if t.color = .red then 0 else K.length + 1

theorem deleteMeasure_le : deleteMeasure K t ≤ K.length + 1 := by
  unfold deleteMeasure
  split_ifs <;> omega

/-- The two parts of a round bring the loop nearer to its end. -/
theorem DeleteRound.measure_lt (h₁ : SiblingTurn K K₁) (h : DeleteRound K₁ t K' t')
    (htc : t.color = .black) : deleteMeasure K' t' < deleteMeasure K t := by
  have hstart : deleteMeasure K t = K.length + 1 := by
    rw [deleteMeasure, htc, if_neg nofun]
  have hle : deleteMeasure K' t' ≤ K'.length + 1 := deleteMeasure_le
  rw [hstart]
  cases h₁ with
  | turn s c a b u v K =>
    cases h with
    | push _ _ _ b' t u v _ hu hv =>
      have hred : (nodeAt s .red t a (nodeAt s .red u b' v)).color = .red := color_nodeAt
      rw [deleteMeasure, if_pos hred]
      exact Nat.succ_pos _
    | _ =>
      simp only [List.length_nil, List.length_cons] at hle ⊢
      omega
  | stay =>
    cases h <;> simp only [List.length_nil, List.length_cons] at hle ⊢ <;> omega

/-- Where the hole is too high, the sibling is a node, and there is a round. -/
theorem exists_deleteRound (hd : DeleteRb n K t) (hne : K ≠ []) :
    ∃ K₁ K' t', SiblingTurn K K₁ ∧ DeleteRound K₁ t K' t' := by
  have hblack : ∀ {s : Side} {c : Color} {a : α} {w : CTree α} {K : List (Frame α)},
      IsRb (n + 1) w → w.color = .black →
        ∃ K' t', DeleteRound (⟨s, c, a, w⟩ :: K) t K' t' := by
    intro s c a w K hw hwc
    obtain ⟨d, u, b, v, rfl⟩ := exists_nodeAt hw.ne_nil s
    rw [color_nodeAt] at hwc
    subst hwc
    by_cases hv : v.color = .red
    · exact ⟨_, _, .far s c a b t u v K hv⟩
    · have hv := Color.eq_black hv
      by_cases hu : u.color = .red
      · have hun : u ≠ nil := by
          rintro rfl
          cases hu
        obtain ⟨d, x, e, y, rfl⟩ := exists_nodeAt hun s
        rw [color_nodeAt] at hu
        subst hu
        exact ⟨_, _, .near s c a b e t x y v K hv⟩
      · exact ⟨_, _, .push s c a b t u v K (Color.eq_black hu) hv⟩
  cases K with
  | nil => exact absurd rfl hne
  | cons f K =>
    obtain ⟨s, c, a, w⟩ := f
    by_cases hwc : w.color = .red
    · have hw : IsRb (n + 1) w := hd.1.1
      obtain ⟨d, u, b, v, rfl⟩ := exists_nodeAt hw.ne_nil s
      rw [color_nodeAt] at hwc
      subst hwc
      obtain ⟨⟨huc, -⟩, hu, -⟩ := isRb_red.mp hw
      obtain ⟨K', t', h⟩ := hblack (s := s) (c := .red) (a := a)
        (K := ⟨s, .black, b, v⟩ :: K) hu huc
      exact ⟨_, K', t', .turn s c a b u v K, h⟩
    · have hwc := Color.eq_black hwc
      obtain ⟨K', t', h⟩ := hblack (s := s) (c := c) (a := a) (K := K) hd.1.1 hwc
      exact ⟨_, K', t', .stay s c a w K hwc, h⟩

/-- At the end of the loop the node is blackened. -/
theorem DeleteRb.isRb (hd : DeleteRb n K t) (h : K = [] ∨ t.color = .red) :
    ∃ m, IsRb m (plug K t.blacken) ∧ (plug K t.blacken).color = .black := by
  obtain ⟨hctx, hblack, hred⟩ := hd
  by_cases htc : t.color = .red
  · obtain ⟨m, hm, hroot⟩ := isRb_plug hctx (hred htc) (Or.inr color_blacken)
    refine ⟨m, hm, ?_⟩
    by_cases hne : K = []
    · subst hne
      exact color_blacken
    · exact hroot hne
  · obtain rfl := h.resolve_right htc
    have hc := Color.eq_black htc
    refine ⟨n, ?_, color_blacken⟩
    rw [blacken_of_black hc]
    exact hblack hc

end Deletion
end DCache.Lib
