import DCache.Lib.Run
import DCache.Master.ServerList

/-! The circular server list over every history of additions and removals that keep to the checks
which `serverList.h` asks its callers for. -/
namespace DCache.Master
open DCache.Lib

variable {T : Type} [DecidableEq T]

inductive ListOp (T : Type)
  | add (t : T)
  | del (t : T)

namespace ListOp

/-- What the call does to the elements in insertion order. -/
def effect (es : List T) : ListOp T → List T
  | .add t => es ++ [t]
  | .del t => es.erase t

end ListOp

namespace ServerList

def exec (c : ServerList T) : ListOp T → Option (Unit × ServerList T)
  | .add t => (c.add t).map (fun c => ((), c))
  | .del t => (c.del t).map (fun c => ((), c))

/-- `add` is called for an absent element and `del` for a present one. -/
def Checked (c : ServerList T) : ListOp T → Prop
  | .add t => c.isExisted t = false
  | .del t => c.isExisted t = true

/-- The list stands for the cycle of `es`. No entry of `map_` points to a released node. -/
structure IsCycle (c : ServerList T) (es : List T) : Prop where
  rep : c.Rep es
  nodup : es.Nodup
  isExisted : ∀ t, c.isExisted t = true ↔ t ∈ es
  size : c.size = es.length
  pointer : ∀ t p, c.map_ t = some p → c.list.heap.data? p = some t
  getNext : ∀ t (h : t ∈ es), c.getNext t = some (es.next t h)
  getPrev : ∀ t (h : t ∈ es), c.getPrev t = some (es.prev t h)
  getPrev_getNext : ∀ t ∈ es, (c.getNext t).bind c.getPrev = some t
  getNext_getPrev : ∀ t ∈ es, (c.getPrev t).bind c.getNext = some t
  round : ∀ t ∈ es, ∃ visited, walk c.getNext c.size.toNat t = some (visited, t) ∧ visited.Perm es

variable {c : ServerList T} {es : List T}

theorem Rep.isCycle (hc : Rep c es) : c.IsCycle es where
  rep := hc
  nodup := hc.nodup
  isExisted _ := hc.isExisted
  size := hc.size
  pointer t p h := by
    obtain ⟨ps, hps⟩ := hc
    have hp := ((hps.index t p).mp h).2
    simpa using hp
  getNext _ h := hc.getNext h
  getPrev _ h := hc.getPrev h
  getPrev_getNext t h := by
    rw [hc.getNext h, Option.bind_some, hc.getPrev (List.next_mem es t h),
      List.prev_next es hc.nodup t h]
  getNext_getPrev t h := by
    rw [hc.getPrev h, Option.bind_some, hc.getNext (List.prev_mem es t h),
      List.next_prev es hc.nodup t h]
  round t h := by
    obtain ⟨visited, hw, hr⟩ := walk_round (fun t h => hc.getNext h) hc.nodup h
    have hlen : c.size.toNat = es.length := by
      rw [hc.size]
      omega
    exact ⟨visited, hlen ▸ hw, hr.perm⟩

theorem Rep.exec (hc : Rep c es) {op : ListOp T} (hop : c.Checked op) :
    ∃ c', c.exec op = some ((), c') ∧ Rep c' (op.effect es) := by
  cases op with
  | add t =>
    have ht : t ∉ es := by
      rw [← hc.isExisted]
      simpa [Checked] using hop
    obtain ⟨c', h, hc'⟩ := hc.add ht
    exact ⟨c', by simp [ServerList.exec, h], hc'⟩
  | del t =>
    have ht : t ∈ es := hc.isExisted.mp hop
    have hn := hc.nodup
    obtain ⟨es₁, es₂, rfl⟩ := List.append_of_mem ht
    obtain ⟨c', h, hc'⟩ := hc.del
    have hnot : t ∉ es₁ := fun h => (List.nodup_append.mp hn).2.2 _ h _ List.mem_cons_self rfl
    refine ⟨c', by simp [ServerList.exec, h], ?_⟩
    rw [ListOp.effect, List.erase_append_right _ hnot, List.erase_cons_head]
    exact hc'

variable [Inhabited T]

/-- Every checked history keeps the list the cycle of its elements in insertion order. -/
theorem isCycle_of_run (ops : List (ListOp T))
    (h : Allowed ServerList.exec Checked (new : ServerList T) ops) :
    ∃ rs c, run ServerList.exec new ops = some (rs, c) ∧
      c.IsCycle (ops.foldl ListOp.effect []) := by
  obtain ⟨rs, c, hr, hc⟩ := run_foldl (R := Rep) (f := ListOp.effect)
    (fun c es op hc hop => by
      obtain ⟨c', h', hc'⟩ := hc.exec hop
      exact ⟨(), c', h', hc'⟩) Rep.new h
  exact ⟨rs, c, hr, hc.isCycle⟩

/-- The first of three elements leaves, so the second becomes the successor of the third. -/
theorem isCycle_of_four : ∃ rs c, run ServerList.exec (new : ServerList ℕ)
      [.add 1, .add 2, .add 3, .del 1] = some (rs, c) ∧
    c.IsCycle ([ListOp.add 1, .add 2, .add 3, .del 1].foldl ListOp.effect []) :=
  isCycle_of_run _ ⟨rfl, rfl, rfl, rfl, trivial⟩

end ServerList
end DCache.Master
