import DCache.Log.BlockQueue

/-! The two peeks of the queue. `back` reads the item pushed last. `front` reads the place one
before the first item: it holds what was popped last, until a full queue has written over it. -/
namespace DCache.Log
open DCache.Lib
variable {T : Type}

/-- The item that was pushed last, and the one that was popped last since the last `clear`. -/
structure History (T : Type) where
  pushed : Option T
  popped : Option T

namespace History

def empty : History T := ⟨none, none⟩

def record (h : History T) (_ : BlockQueue T) : Call T → Result T → History T
  | .push item, .flag true => { h with pushed := some item }
  | .clear, _ => { h with popped := none }
  | _, .popped (some item) => { h with popped := some item }
  | _, _ => h

theorem record_kept (h : History T) (q : BlockQueue T) {call : Call T} {r : Result T}
    (hpush : ∀ x, call = .push x → r = .flag false) (hclear : call ≠ .clear)
    (hpop : ∀ x, r ≠ .popped (some x)) : h.record q call r = h := by
  unfold record
  split
  · cases hpush _ rfl
  · exact absurd rfl hclear
  · exact absurd rfl (hpop _)
  · rfl

/-- The item at the head is the one that was popped last, or pushed last when the queue is
full. -/
def HeadRepeats (h : History T) (f : Fifo T) : Prop :=
  ∃ x, h.popped = some x ∧
    f.items.head? = if f.items.length < f.maxSize then some x else h.pushed

end History

namespace BlockQueue

/-- `front` stores what the next `pop` returns, `back` what was pushed last, and both leave the
queue as it is. -/
def PeeksAgree (q : BlockQueue T) (h : History T) : Prop :=
  (∃ x q', q.pop [] = some (some x, q') ∧ q.front = some (some x, q)) ∧
    ∃ x, h.pushed = some x ∧ q.back = some (some x, q)

/-- What the places outside the items hold is known for one of them. -/
structure Remembers (q : BlockQueue T) (f : Fifo T) (h : History T) (i j : ℕ) : Prop
    extends Layout q f i j where
  pushed : f.items ≠ [] → f.items.getLast? = h.pushed
  unpopped : h.popped = none → i = 0
  popped : ∀ x, h.popped = some x → 1 ≤ i ∧
    (f.items.length < f.maxSize → q.mArray[i - 1]? = some x)

variable {q : BlockQueue T} {f : Fifo T} {h : History T} {i j : ℕ}

namespace Remembers

theorem push (hr : Remembers q f h i j) (hl : f.items.length < f.maxSize) (x : T) :
    ∃ q', q.push x = some (true, q') ∧
      Remembers q' (f.push x).2 { h with pushed := some x } i (j % f.maxSize + 1) := by
  obtain ⟨q', hpush, -, harray, hq'⟩ := hr.toLayout.push hl x
  have hitems : (f.push x).2.items = f.items ++ [x] := by rw [Fifo.push, dif_pos hl]
  have hmax : (f.push x).2.maxSize = f.maxSize := by rw [Fifo.push, dif_pos hl]
  refine ⟨q', hpush, hq', ?_, hr.unpopped, ?_⟩
  · intro _
    rw [hitems, List.getLast?_concat]
  · intro y hy
    obtain ⟨hi, hslot⟩ := hr.popped y hy
    refine ⟨hi, ?_⟩
    rw [hitems, hmax, List.length_append, List.length_singleton]
    intro hroom
    have hfirst := hr.first
    -- The place that is written lies `length + 1 < maxSize` places behind this one.
    have hne : j % f.maxSize ≠ i - 1 := by
      intro he
      have hmod : i - 1 + (f.items.length + 1) ≡ i - 1 + 0 [MOD f.maxSize] := by
        have hj : j % f.maxSize ≡ i + f.items.length [MOD f.maxSize] :=
          (Nat.mod_modEq j f.maxSize).trans hr.cursors
        rw [he] at hj
        rw [show i - 1 + (f.items.length + 1) = i + f.items.length by omega]
        exact hj.symm
      have hzero : (f.items.length + 1) % f.maxSize = 0 % f.maxSize :=
        Nat.ModEq.add_left_cancel' _ hmod
      rw [Nat.mod_eq_of_lt hroom, Nat.zero_mod] at hzero
      omega
    rw [harray, List.getElem?_set_ne hne]
    exact hslot hl

theorem take (hr : Remembers q f h i j) (hne : f.items ≠ []) :
    ∃ x q', q.take = some (some x, q') ∧ f.items.head? = some x ∧
      Remembers q' f.pop.2 { h with popped := some x } (i % f.maxSize + 1) j := by
  obtain ⟨x, q', htake, hx, harray, hslot, hq'⟩ := hr.toLayout.take hne
  refine ⟨x, q', htake, hx, hq', ?_, nofun, ?_⟩
  · intro hrest
    have hlast : f.items.tail.getLast? = f.items.getLast? := by
      cases hitems : f.items with
      | nil => exact absurd hitems hne
      | cons y items =>
        cases items with
        | nil => exact absurd (congrArg List.tail hitems) hrest
        | cons z items => rfl
    exact hlast.trans (hr.pushed hne)
  · rintro y ⟨⟩
    refine ⟨by omega, fun _ => ?_⟩
    rw [harray]
    exact hslot

theorem clear (hr : Remembers q f h i j) :
    Remembers q.clear f.cleared { h with popped := none } 0 0 :=
  ⟨hr.toLayout.clear, fun hne => absurd rfl hne, fun _ => rfl, nofun⟩

/-- The place of the last item is the one behind which the next is written. -/
theorem back_eq (hr : Remembers q f h i j) (hne : f.items ≠ []) :
    ∃ x, h.pushed = some x ∧ q.back = some (some x, q) := by
  have hs := hr.size
  have hlen := hr.length
  have hb := f.bounded
  have hpos := List.length_pos_iff.mpr hne
  have hj : j ≠ 0 := fun h0 => hne (hr.fresh h0).2
  have hlast := hr.last
  obtain ⟨k, hk⟩ : ∃ k, f.items.length = k + 1 := Nat.exists_eq_succ_of_ne_zero (by omega)
  have hmod : (i + k) % f.maxSize = j - 1 := by
    have hc : i + k + 1 ≡ j - 1 + 1 [MOD f.maxSize] := by
      have hc := hr.cursors
      rw [hk, ← Nat.add_assoc] at hc
      rw [Nat.sub_add_cancel (by omega)]
      exact hc.symm
    have := Nat.ModEq.add_right_cancel' 1 hc
    rw [Nat.ModEq, Nat.mod_eq_of_lt (show j - 1 < f.maxSize by omega)] at this
    exact this
  have hread : q.mArray[j - 1]? = f.items.getLast? := by
    rw [hr.items, hk, getLast?_window (by omega), hlen, hmod]
  have hback : q.mBack = ((j - 1 : ℕ) : ℤ) := by
    rw [hr.toLayout.back]
    omega
  cases hx : f.items.getLast? with
  | none => exact absurd (List.getLast?_eq_none_iff.mp hx) hne
  | some x =>
    refine ⟨x, (hr.pushed hne).symm.trans hx, ?_⟩
    rw [BlockQueue.back, if_neg (by omega), hback, item_natCast, hread, hx]
    rfl

/-- The place that `front` reads. -/
theorem front_eq (hr : Remembers q f h i j) (hne : f.items ≠ []) : q.front =
    match h.popped with
    | none => none
    | some x => (if f.items.length < f.maxSize then some x else h.pushed).map
        fun x => (some x, q) := by
  have hs := hr.size
  have hlen := hr.length
  have hb := f.bounded
  have hpos := List.length_pos_iff.mpr hne
  have hfront := hr.front
  rw [BlockQueue.front, if_neg (by omega)]
  cases hp : h.popped with
  | none =>
    have hneg : q.mFront = -1 := by rw [hfront, hr.unpopped hp]; rfl
    rw [hneg]
    rfl
  | some x =>
    obtain ⟨hi, hslot⟩ := hr.popped x hp
    have hfirst := hr.first
    have hcursor : q.mFront = ((i - 1 : ℕ) : ℤ) := by
      rw [hfront]
      omega
    rw [hcursor, item_natCast]
    congr 1
    by_cases hl : f.items.length < f.maxSize
    · rw [if_pos hl]
      exact hslot hl
    · rw [if_neg hl, ← hr.pushed hne, hr.items]
      obtain ⟨k, hk⟩ : ∃ k, f.items.length = k + 1 := Nat.exists_eq_succ_of_ne_zero (by omega)
      have hmod : (i + k) % q.mArray.length = i - 1 := by
        rw [show i + k = i - 1 + q.mArray.length by omega, Nat.add_mod_right]
        exact Nat.mod_eq_of_lt (by omega)
      rw [hk, getLast?_window (by omega), hmod]

theorem agree_iff (hr : Remembers q f h i j) (hne : f.items ≠ []) :
    PeeksAgree q h ↔ h.HeadRepeats f := by
  obtain ⟨x, q', htake, hx, -⟩ := hr.take hne
  have hpop : q.pop [] = some (some x, q') := (hr.toLayout.pop hne []).trans htake
  have hfront := hr.front_eq hne
  have hright : (∃ x q', q.pop [] = some (some x, q') ∧ q.front = some (some x, q)) ↔
      q.front = some (some x, q) := by
    constructor
    · rintro ⟨y, q'', hy, hfront⟩
      obtain ⟨hxy, -⟩ := Prod.mk.inj (Option.some.inj (hpop.symm.trans hy))
      rw [hfront, hxy]
    · exact fun hfront => ⟨x, q', hpop, hfront⟩
  rw [PeeksAgree, hright, and_iff_left (hr.back_eq hne), hfront, History.HeadRepeats, hx]
  cases hp : h.popped with
  | none => simp
  | some y =>
    simp only [Option.some.injEq, exists_eq_left']
    generalize (if f.items.length < f.maxSize then some y else h.pushed) = z
    cases z <;> simp [eq_comm]

/-- One call, with what the history keeps of it. -/
theorem exec (hr : Remembers q f h i j) {call : Call T} (hg : q.Guarded call) :
    ∃ r q' f', q.exec call = some (r, q') ∧ f.exec call = some (r, f') ∧
      ∃ i' j', Remembers q' f' (h.record q call r) i' j' := by
  obtain ⟨r, q', f', hexec, hlist, heffect⟩ := hr.effect hg
  refine ⟨r, q', f', hexec, hlist, ?_⟩
  cases heffect with
  | kept _ _ hpush hclear hpop =>
    rw [History.record_kept h q hpush hclear hpop]
    exact ⟨i, j, hr⟩
  | pushed x _ hl hpush =>
    obtain ⟨q'', hpush', hq'⟩ := hr.push hl x
    obtain ⟨-, rfl⟩ := Prod.mk.inj (Option.some.inj (hpush.symm.trans hpush'))
    exact ⟨_, _, hq'⟩
  | popped _ x _ hne hcall htake =>
    obtain ⟨x', q'', htake', -, hq'⟩ := hr.take hne
    obtain ⟨hx, rfl⟩ := Prod.mk.inj (Option.some.inj (htake.symm.trans htake'))
    obtain rfl := Option.some.inj hx
    rcases hcall with ⟨waits, rfl⟩ | ⟨woken, rfl⟩
    · exact ⟨_, _, hq'⟩
    · exact ⟨_, _, hq'⟩
  | cleared => exact ⟨0, 0, hr.clear⟩

end Remembers

theorem Remembers.new [Inhabited T] {maxSize : ℤ} (h : 1 ≤ maxSize) :
    ∃ q : BlockQueue T, new maxSize = some q ∧
      Remembers q (.new maxSize.toNat (one_le_toNat h)) .empty 0 0 := by
  obtain ⟨q, hnew, hq⟩ := layout_new (T := T) h
  exact ⟨q, hnew, hq, fun hne => absurd rfl hne, fun _ => rfl, nofun⟩

/-- After any sequence of calls that leaves items in the queue. -/
theorem peeksAgree_iff [Inhabited T] (maxSize : ℤ) (hmax : 1 ≤ maxSize) :
    ∃ q : BlockQueue T, new maxSize = some q ∧ ∀ calls, Allowed exec Guarded q calls →
      ∃ rs q' h f, run (annotate exec History.record) (q, .empty) calls = some (rs, (q', h)) ∧
        run Fifo.exec (.new maxSize.toNat (one_le_toNat hmax)) calls = some (rs, f) ∧
        (f.items ≠ [] → (PeeksAgree q' h ↔ h.HeadRepeats f)) := by
  obtain ⟨q, hnew, hr⟩ := Remembers.new (T := T) hmax
  refine ⟨q, hnew, fun calls hg => ?_⟩
  have hstep : ∀ (x : BlockQueue T × History T) (f : Fifo T) (call : Call T),
      (∃ i j, Remembers x.1 f x.2 i j) → x.1.Guarded call → ∃ r x' f',
        annotate exec History.record x call = some (r, x') ∧ Fifo.exec f call = some (r, f') ∧
          ∃ i j, Remembers x'.1 f' x'.2 i j := by
    rintro ⟨q, h⟩ f call ⟨i, j, hr⟩ hok
    obtain ⟨r, q', f', hexec, hlist, hr'⟩ := hr.exec hok
    refine ⟨r, (q', h.record q call r), f', ?_, hlist, hr'⟩
    rw [annotate, hexec]
    rfl
  obtain ⟨rs, ⟨q', h⟩, f, hrun, hlist, i, j, hr'⟩ :=
    run_simulates hstep ⟨0, 0, hr⟩ (hg.annotate History.record .empty)
  exact ⟨rs, q', h, f, hrun, hlist, fun hne => hr'.agree_iff hne⟩

/-- The item popped last is pushed again. -/
theorem peeksAgree_iff_repeated : ∃ q : BlockQueue ℕ, new 2 = some q ∧
    ∃ rs q' h f, run (annotate exec History.record) (q, .empty) [.push 1, .pop [], .push 1] =
        some (rs, (q', h)) ∧
      run Fifo.exec (.new (2 : ℤ).toNat (by decide)) [.push 1, .pop [], .push 1] = some (rs, f) ∧
      (f.items ≠ [] → (PeeksAgree q' h ↔ h.HeadRepeats f)) := by
  obtain ⟨q, hq, h⟩ := peeksAgree_iff (T := ℕ) 2 (by decide)
  obtain rfl : q = ⟨[0, 0], 0, 2, -1, -1⟩ := (Option.some.inj hq).symm
  refine ⟨_, hq, h _ ⟨nofun, ?_, nofun, trivial⟩⟩
  rintro _ ⟨⟩
  rfl

/-- With 2 left in the queue, `front` still stores the 1 that was popped. -/
theorem not_peeksAgree : ∃ q : BlockQueue ℕ, new 2 = some q ∧
    Allowed exec Guarded q [.push 1, .push 2, .pop []] ∧
    ∃ rs q' h, run (annotate exec History.record) (q, .empty) [.push 1, .push 2, .pop []] =
        some (rs, (q', h)) ∧ q'.size = 1 ∧ q'.front = some (some 1, q') ∧ ¬ PeeksAgree q' h := by
  refine ⟨⟨[0, 0], 0, 2, -1, -1⟩, rfl, ⟨nofun, nofun, ?_, trivial⟩, _, ⟨[1, 2], 1, 2, 0, 1⟩, _,
    rfl, rfl, rfl, ?_⟩
  · rintro _ ⟨⟩
    rfl
  · rintro ⟨⟨x, q', hpop, hfront⟩, -⟩
    have h2 : x = 2 := (Option.some.inj (Prod.mk.inj (Option.some.inj hpop)).1).symm
    have h1 : x = 1 := (Option.some.inj (Prod.mk.inj (Option.some.inj hfront)).1).symm
    omega

end BlockQueue
end DCache.Log
