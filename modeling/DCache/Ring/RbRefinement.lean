import DCache.Ring.RbInsert
import DCache.Ring.RbDelete
import DCache.Lib.Run
import Mathlib.Data.List.Sort

/-! The red-black tree of `util_rbtree.c` is the list of its nodes in the order of their keys. -/
namespace DCache.Ring
open DCache.Lib DCache.Lib.CTree

namespace RbTree
variable {V : Type} {t t' : RbTree V} {nodes : List ℕ} {p : ℕ} {n : TreeCell (RbItem V)}

/-- The nodes of the tree in order. -/
structure Represents (t : RbTree V) (nodes : List ℕ) : Prop where
  tree : ∃ T rp m, Holds t rp T ∧ IsRb m T ∧ T.color = .black ∧ T.inorder = nodes
  sorted : nodes.Pairwise fun p q => t.keyAt p ≤ t.keyAt q
  size : t.size = nodes.length
  zero : nullPtr ∉ nodes

/-- The sentinel is above the root. -/
def Rooted (t : RbTree V) : Prop := t.root ≠ null → t.memory.parent? t.root = some null

/-- The caller allocates a node, sets its key and its data, and inserts it. -/
def put (t : RbTree V) (p : ℕ) (n : TreeCell (RbItem V)) : Option (RbTree V) :=
  RbTree.insert { t with memory := Function.update t.memory p (some n) } p

/-- The caller deletes a node, and releases it. -/
def remove (t : RbTree V) (p : ℕ) : Option (RbTree V) := do
  let t ← t.delete p
  some { t with memory := Function.update t.memory p none }

theorem keyAt_congr (h : t'.memory.data? p = t.memory.data? p) : t'.keyAt p = t.keyAt p := by
  rw [keyAt, h]
  rfl

theorem Rooted.eq_null {rp : ℕ} {T : CTree ℕ} (hr : Rooted t) (h : Holds t rp T)
    (hT : T ≠ .nil) : rp = null := by
  have hroot : t.root ≠ null := fun he => hT (h.root_eq_null.mp he)
  have hparent := Holds.parent?_root (K := []) h hT
  rw [← h.tree.root, hr hroot] at hparent
  exact (Option.some.inj hparent).symm

theorem Rooted.holds {rp : ℕ} {T : CTree ℕ} (hr : Rooted t) (h : Holds t rp T) : Holds t null T := by
  by_cases hT : T = .nil
  · subst hT
    exact h.of_nil
  · exact hr.eq_null h hT ▸ h

theorem Holds.rooted {T : CTree ℕ} (h : Holds t null T) : Rooted t := by
  intro hroot
  rw [h.tree.root]
  exact Holds.parent?_root (K := []) h fun he => hroot (h.root_eq_null.mpr he)

namespace Represents

theorem init [Inhabited V] : Represents (init : RbTree V) [] :=
  ⟨⟨.nil, null, 0, ⟨⟨rfl, trivial, .nil, nofun⟩, rfl⟩, .nil, rfl, rfl⟩, .nil, rfl, nofun⟩

/-- An insertion puts the node behind all whose keys are not greater. -/
theorem insert (h : Represents t nodes) (hr : Rooted t) (hp : t.memory p = some n)
    (hmem : p ∉ nodes) (hzero : p ≠ nullPtr) (hnull : p ≠ null) :
    ∃ t' l₁ l₂, t.insert p = some t' ∧ nodes = l₁ ++ l₂ ∧ Represents t' (l₁ ++ p :: l₂) ∧
      Rooted t' ∧ (∀ x, t'.memory.data? x = t.memory.data? x) ∧
      (∀ q ∈ l₁, t.keyAt q ≤ t.keyAt p) ∧ ∀ q ∈ l₂, t.keyAt p < t.keyAt q := by
  obtain ⟨⟨T, rp, m, hT, hm, hcolor, rfl⟩, hs, hsize, hz⟩ := h
  obtain ⟨t', T', m', l₁, l₂, ht', hT', hm', hcolor', hsize', hdata, hl, hl', hlow, hhigh⟩ :=
    insert_spec (hr.holds hT) hm hcolor hs hsize hp hmem hzero hnull
  have hkey : ∀ q, t'.keyAt q = t.keyAt q := fun q => keyAt_congr (hdata q)
  refine ⟨t', l₁, l₂, ht', hl, ⟨⟨T', null, m', hT', hm', hcolor', hl'⟩, ?_, ?_, ?_⟩, hT'.rooted,
    hdata, hlow, hhigh⟩
  · simp only [hkey]
    rw [hl, List.pairwise_append] at hs
    rw [List.pairwise_append, List.pairwise_cons]
    refine ⟨hs.1, ⟨fun q hq => (hhigh q hq).le, hs.2.1⟩, ?_⟩
    intro a ha b hb
    rcases List.mem_cons.mp hb with rfl | hb
    · exact hlow a ha
    · exact hs.2.2 a ha b hb
  · rw [hsize', hsize, hl]
    simp only [List.length_append, List.length_cons]
    omega
  · rw [hl, List.mem_append] at hz
    rw [List.mem_append, List.mem_cons]
    rintro (hx | hx | hx)
    · exact hz (Or.inl hx)
    · exact hzero hx.symm
    · exact hz (Or.inr hx)

/-- A deletion takes the node out. The tree stays rooted, unless one of two nodes is left. -/
theorem delete (h : Represents t nodes) (hp : p ∈ nodes) :
    ∃ t' l₁ l₂, t.delete p = some t' ∧ nodes = l₁ ++ p :: l₂ ∧ Represents t' (l₁ ++ l₂) ∧
      (Rooted t → (Rooted t' ↔ ¬ (t.size = 2 ∧ t.root = p))) ∧
      t'.size = t.size - 1 ∧ ∀ x, t'.memory.data? x = t.memory.data? x := by
  obtain ⟨⟨T, rp, m, hT, hm, hcolor, rfl⟩, hs, hsize, hz⟩ := h
  have hzero : p ≠ nullPtr := fun he => hz (he ▸ hp)
  obtain ⟨t', ht', ⟨⟨T', m', hT', hm', hcolor', l₁, l₂, hl, hl'⟩, hsize', hdata⟩⟩ :=
    delete_spec hT hm hcolor hsize hp hzero
  have hkey : ∀ q, t'.keyAt q = t.keyAt q := fun q => keyAt_congr (hdata q)
  have hsub : (l₁ ++ l₂).Sublist (l₁ ++ p :: l₂) :=
    (List.Sublist.refl l₁).append (List.sublist_cons_self p l₂)
  refine ⟨t', l₁, l₂, ht', hl, ⟨⟨T', _, m', hT', hm', hcolor', hl'⟩, ?_, ?_, ?_⟩, ?_, hsize', hdata⟩
  · simp only [hkey]
    rw [hl] at hs
    exact hs.sublist hsub
  · rw [hsize', hsize, hl]
    simp
  · rw [hl] at hz
    exact fun hx => hz (hsub.subset hx)
  · intro hrooted
    have hnil : T ≠ .nil := by
      rintro rfl
      cases hp
    rw [hrooted.eq_null hT hnil] at hT'
    by_cases hbad : T.size = 2 ∧ t.root = p
    · rw [if_pos hbad] at hT'
      have hnil' : T' ≠ .nil := by
        rintro rfl
        have hone := congrArg List.length hl'
        have htwo := congrArg List.length hl
        have hsize₂ := hbad.1
        rw [CTree.size] at hsize₂
        simp only [inorder, List.length_append, List.length_cons, List.length_nil] at hone htwo
        omega
      refine iff_of_false (fun hr => hT.ne_null hp (hr.eq_null hT' hnil')) ?_
      exact not_not.mpr ⟨hsize.trans hbad.1, hbad.2⟩
    · rw [if_neg hbad] at hT'
      exact iff_of_true hT'.rooted fun he => hbad ⟨hsize.symm.trans he.1, he.2⟩

theorem root_mem (h : Represents t nodes) (hroot : t.root ≠ null) : t.root ∈ nodes := by
  obtain ⟨⟨T, rp, m, hT, -, -, rfl⟩, -, -, -⟩ := h
  rw [hT.tree.root]
  exact rootAddr_mem fun hnil => hroot (hT.root_eq_null.mpr hnil)

theorem isempty_iff (h : Represents t nodes) : t.isempty = true ↔ nodes = [] := by
  obtain ⟨⟨T, rp, m, hT, -, -, rfl⟩, -, -, -⟩ := h
  rw [isempty, decide_eq_true_iff, hT.root_eq_null]
  cases T <;> simp [inorder]

/-- Only the sentinel and the nodes of the tree matter. -/
theorem congr {s : RbTree V} (h : Represents t nodes) (hroot : s.root = t.root) (hsize : s.size = t.size)
    (hm : ∀ x, x = null ∨ x ∈ nodes → s.memory x = t.memory x) :
    Represents s nodes ∧ (Rooted s ↔ Rooted t) := by
  constructor
  · obtain ⟨⟨T, rp, m, hT, hrb, hcolor, rfl⟩, hsorted, hz, hzero⟩ := h
    have hsame : ∀ p ∈ T.inorder, s.keyAt p = t.keyAt p := by
      intro p hp
      rw [keyAt, TreeMem.data?, hm p (Or.inr hp)]
      rfl
    have hT' : Holds s rp T := by
      refine ⟨⟨hroot.trans hT.tree.root, ?_, hT.tree.nodup, hT.tree.null⟩, ?_⟩
      · exact hT.tree.shape.congr fun p hp => hm p (Or.inr hp)
      · rw [TreeMem.color?, hm null (Or.inl rfl)]
        exact hT.sentinel
    refine ⟨⟨T, rp, m, hT', hrb, hcolor, rfl⟩, ?_, hsize.trans hz, hzero⟩
    refine hsorted.imp_of_mem ?_
    intro p q hp hq hle
    rwa [hsame p hp, hsame q hq]
  · rw [Rooted, Rooted, hroot]
    refine forall_congr' fun hne => ?_
    rw [TreeMem.parent?, hm t.root (Or.inr (h.root_mem hne))]
    rfl

theorem nodup (h : Represents t nodes) : nodes.Nodup := by
  obtain ⟨⟨T, rp, m, hT, -, -, rfl⟩, -, -, -⟩ := h
  exact hT.tree.nodup

theorem null_notMem (h : Represents t nodes) : null ∉ nodes := by
  obtain ⟨⟨T, rp, m, hT, -, -, rfl⟩, -, -, -⟩ := h
  exact hT.tree.null

/-- An empty tree has no node above it. -/
theorem rooted_of_nil (h : Represents t []) : Rooted t := by
  obtain ⟨⟨T, rp, m, hT, -, -, hnil⟩, -, -, -⟩ := h
  intro hroot
  refine absurd (hT.root_eq_null.mpr ?_) hroot
  by_contra hne
  have hmem : rootAddr null T ∈ T.inorder := rootAddr_mem hne
  rw [hnil] at hmem
  cases hmem

end Represents

/-- The keys and the nodes of the tree in order, and no other node is allocated. -/
structure Stores (t : RbTree V) (l : List (ℤ × ℕ)) : Prop where
  nodes : Represents t (l.map Prod.snd)
  keys : ∀ e ∈ l, t.keyAt e.2 = e.1
  owned : ∀ p, (t.memory p).isSome = true ↔ p = null ∨ p ∈ l.map Prod.snd

/-- A list with `x` behind all that are not greater. -/
theorem orderedInsert_append {α : Type} {r : α → α → Prop} [DecidableRel r] {x : α} {l₁ l₂ : List α}
    (h₁ : ∀ y ∈ l₁, ¬ r x y) (h₂ : ∀ y ∈ l₂, r x y) :
    (l₁ ++ l₂).orderedInsert r x = l₁ ++ x :: l₂ := by
  induction l₁ with
  | nil =>
    cases l₂ with
    | nil => rfl
    | cons y l₂ => exact if_pos (h₂ y List.mem_cons_self)
  | cons y l₁ ih =>
    rw [List.cons_append, List.orderedInsert_cons, if_neg (h₁ y List.mem_cons_self),
      ih fun z hz => h₁ z (List.mem_cons_of_mem y hz), List.cons_append]

namespace Stores
variable {l : List (ℤ × ℕ)}

theorem init [Inhabited V] : Stores (init : RbTree V) [] := by
  refine ⟨.init, nofun, fun p => ?_⟩
  by_cases hp : p = null
  · simp [RbTree.init, hp]
  · simp [RbTree.init, hp]

theorem put (h : Stores t l) (hr : Rooted t) (hp : t.memory p = none) (hzero : p ≠ nullPtr) :
    ∃ t', t.put p n = some t' ∧ Rooted t' ∧
      Stores t' (l.orderedInsert (fun a b => a.1 < b.1) (n.data.key, p)) ∧
      t'.memory.data? p = some n.data ∧ ∀ x, x ≠ p → t'.memory.data? x = t.memory.data? x := by
  have hout : ¬ (p = null ∨ p ∈ l.map Prod.snd) := by
    rw [← h.owned p, hp]
    exact Bool.false_ne_true
  rw [not_or] at hout
  let t₁ : RbTree V := { t with memory := Function.update t.memory p (some n) }
  have hother : ∀ x, x ≠ p → t₁.memory x = t.memory x := fun x hx => Function.update_of_ne hx _ _
  obtain ⟨h₁, hr₁⟩ := h.nodes.congr (s := t₁) rfl rfl fun x hx => hother x (by
    rintro rfl
    exact hx.elim hout.1 hout.2)
  have hkeys₁ : ∀ e ∈ l, t₁.keyAt e.2 = e.1 := by
    intro e he
    have hne : e.2 ≠ p := fun hep => hout.2 (hep ▸ List.mem_map_of_mem he)
    rw [← h.keys e he]
    apply keyAt_congr
    rw [TreeMem.data?, hother _ hne]
    rfl
  have hkeyp : t₁.keyAt p = n.data.key := by
    simp [keyAt, TreeMem.data?, t₁]
  obtain ⟨t', l₁, l₂, ht', hl, h', hr', hdata, hlow, hhigh⟩ :=
    h₁.insert (hr₁.mpr hr) (Function.update_self _ _ _) hout.2 hzero hout.1
  obtain ⟨a, b, rfl, rfl, rfl⟩ := List.map_eq_append_iff.mp hl
  have hinsert : (a ++ b).orderedInsert (fun a b => a.1 < b.1) (n.data.key, p) =
      a ++ (n.data.key, p) :: b := by
    apply orderedInsert_append
    · intro e he
      rw [not_lt, ← hkeys₁ e (List.mem_append_left b he), ← hkeyp]
      exact hlow _ (List.mem_map_of_mem he)
    · intro e he
      rw [← hkeys₁ e (List.mem_append_right a he), ← hkeyp]
      exact hhigh _ (List.mem_map_of_mem he)
  refine ⟨t', ht', hr', ?_, ?_, ?_⟩
  · rw [hinsert]
    refine ⟨by simpa using h', ?_, ?_⟩
    · intro e he
      rw [keyAt_congr (hdata e.2)]
      rcases List.mem_append.mp he with he | he
      · exact hkeys₁ e (List.mem_append_left b he)
      · rcases List.mem_cons.mp he with rfl | he
        · exact hkeyp
        · exact hkeys₁ e (List.mem_append_right a he)
    · intro x
      have hsome : (t'.memory x).isSome = (t₁.memory x).isSome := by
        have hx := congrArg Option.isSome (hdata x)
        simpa [TreeMem.data?] using hx
      rw [hsome]
      by_cases hx : x = p
      · subst hx
        simp [t₁]
      · rw [hother x hx, h.owned x]
        simp [hx]
  · rw [hdata p]
    simp [TreeMem.data?, t₁]
  · intro x hx
    rw [hdata x, TreeMem.data?, hother x hx]
    rfl

/-- After a removal, the tree is not rooted only where one node is left. -/
theorem remove (h : Stores t l) (hp : p ∈ l.map Prod.snd) :
    ∃ t', t.remove p = some t' ∧ Stores t' (l.filter fun e => e.2 ≠ p) ∧
      t'.size = t.size - 1 ∧ (Rooted t → (Rooted t' ↔ ¬ (t.size = 2 ∧ t.root = p))) ∧
      ∀ x, x ≠ p → t'.memory.data? x = t.memory.data? x := by
  obtain ⟨t₁, l₁, l₂, ht₁, hl, h₁, hr₁, hsize, hdata⟩ := h.nodes.delete hp
  have hnodup := h.nodes.nodup
  have hnull := h.nodes.null_notMem
  obtain ⟨a, b', rfl, rfl, hb⟩ := List.map_eq_append_iff.mp hl
  obtain ⟨e, b, rfl, rfl, rfl⟩ := List.map_eq_cons_iff.mp hb
  rw [hl, List.nodup_middle, List.nodup_cons] at hnodup
  have hfilter : (a ++ e :: b).filter (fun e' => e'.2 ≠ e.2) = a ++ b := by
    have hkeep : ∀ {l' : List (ℤ × ℕ)}, (∀ e' ∈ l', e'.2 ∈ a.map Prod.snd ++ b.map Prod.snd) →
        l'.filter (fun e' => e'.2 ≠ e.2) = l' := by
      intro l' hl'
      rw [List.filter_eq_self]
      intro e' he'
      simp only [ne_eq, decide_not, Bool.not_eq_eq_eq_not, Bool.not_true, decide_eq_false_iff_not]
      exact fun heq => hnodup.1 (heq ▸ hl' e' he')
    rw [List.filter_append, List.filter_cons_of_neg (by simp),
      hkeep fun e' he' => List.mem_append_left _ (List.mem_map_of_mem he'),
      hkeep fun e' he' => List.mem_append_right _ (List.mem_map_of_mem he')]
  let t' : RbTree V := { t₁ with memory := Function.update t₁.memory e.2 none }
  have hother : ∀ x, x ≠ e.2 → t'.memory x = t₁.memory x := fun x hx => Function.update_of_ne hx _ _
  obtain ⟨h', hr'⟩ := h₁.congr (s := t') rfl rfl fun x hx => hother x (by
    rintro rfl
    rcases hx with hx | hx
    · exact hnull (hx ▸ hp)
    · exact hnodup.1 hx)
  refine ⟨t', by rw [RbTree.remove, ht₁]; rfl, ?_, hsize, fun hr => hr'.trans (hr₁ hr), fun x hx => ?_⟩
  swap
  · rw [TreeMem.data?, hother x hx]
    exact hdata x
  rw [hfilter]
  refine ⟨by simpa using h', ?_, ?_⟩
  · intro e' he'
    have hmem : e'.2 ∈ a.map Prod.snd ++ b.map Prod.snd := by
      rw [← List.map_append]
      exact List.mem_map_of_mem he'
    have hne : e'.2 ≠ e.2 := fun heq => hnodup.1 (heq ▸ hmem)
    have hsame : t'.memory.data? e'.2 = t.memory.data? e'.2 := by
      rw [← hdata, TreeMem.data?, hother _ hne]
      rfl
    rw [keyAt_congr hsame]
    apply h.keys
    rcases List.mem_append.mp he' with he' | he'
    · exact List.mem_append_left _ he'
    · exact List.mem_append_right _ (List.mem_cons_of_mem e he')
  · intro x
    by_cases hx : x = e.2
    · subst hx
      have hnone : t'.memory e.2 = none := Function.update_self _ _ _
      rw [hnone, List.map_append]
      refine iff_of_false Bool.false_ne_true ?_
      rintro (hx | hx)
      · exact hnull (hx ▸ hp)
      · exact hnodup.1 hx
    · have hsome : (t'.memory x).isSome = (t.memory x).isSome := by
        rw [hother x hx]
        simpa [TreeMem.data?] using congrArg Option.isSome (hdata x)
      rw [hsome, h.owned x]
      simp [hx]

end Stores
end RbTree
end DCache.Ring
