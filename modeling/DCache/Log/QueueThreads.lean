import DCache.Lib.Monitor
import DCache.Log.BlockQueue

/-! The queue of the log with its mutex and its condition variable, under any number of threads. A
thread tests, changes the queue, broadcasts and returns in steps of its own here, and a `pop` may sleep
in between. -/
namespace DCache.Log
open DCache.Lib

/-- Where a thread is in the code of a call. The calls start at the points with their names. -/
inductive Point (T : Type)
  | push (item : T)
  | pushed (item : T) (ret : Bool)
  | pop
  | popTimeout
  | popTimeoutAgain
  | size
  | empty
  | full
  | clear
  | leaving (effect : Option (Call T × Result T))

def Point.Starts {T : Type} : Point T → Prop
  | .pushed _ _ | .popTimeoutAgain | .leaving _ => False
  | _ => True

namespace Fifo
variable {T : Type}

/-- The items that went in, and those that came out. -/
def pushed (history : List (Call T × Result T)) : List T :=
  history.filterMap fun | (.push x, .flag true) => some x | _ => none

def popped (history : List (Call T × Result T)) : List T :=
  history.filterMap fun | (_, .popped x) => x | _ => none

theorem pushed_cons (o : Call T × Result T) (history : List (Call T × Result T)) :
    pushed (o :: history) = pushed [o] ++ pushed history :=
  List.filterMap_append (l := [o])

theorem popped_cons (o : Call T × Result T) (history : List (Call T × Result T)) :
    popped (o :: history) = popped [o] ++ popped history :=
  List.filterMap_append (l := [o])

theorem exec_items {f f' : Fifo T} {call : Call T} {r : Result T} (h : f.exec call = some (r, f'))
    (hclear : call ≠ .clear) : f.items ++ pushed [(call, r)] = popped [(call, r)] ++ f'.items := by
  have hpop : ∀ c : Call T, pushed [(c, .popped f.pop.1)] = [] ∧
      popped [(c, .popped f.pop.1)] ++ f.pop.2.items = f.items := by
    intro c
    have hc : pushed [(c, .popped f.pop.1)] = [] := by cases c <;> rfl
    refine ⟨hc, ?_⟩
    cases hitems : f.items with
    | nil => simp [popped, pop, hitems]
    | cons x items => simp [popped, pop, hitems]
  cases call with
  | push x =>
    obtain ⟨rfl, rfl⟩ := Prod.mk.inj (Option.some.inj h)
    by_cases hl : f.items.length < f.maxSize
    · rw [push, dif_pos hl]
      rfl
    · rw [push, dif_neg hl]
      exact List.append_nil f.items
  | pop waits =>
    obtain ⟨rfl, rfl⟩ := Prod.mk.inj (Option.some.inj h)
    rw [(hpop _).1, (hpop _).2, List.append_nil]
  | popTimeout woken =>
    obtain ⟨rfl, rfl⟩ := Prod.mk.inj (Option.some.inj h)
    rw [(hpop _).1, (hpop _).2, List.append_nil]
  | clear => exact absurd rfl hclear
  | size | empty | full =>
    obtain ⟨rfl, rfl⟩ := Prod.mk.inj (Option.some.inj h)
    exact List.append_nil f.items

/-- Without a `clear`, what went in comes out in its order, and the rest is still there. -/
theorem run_items {f f' : Fifo T} {history : List (Call T × Result T)}
    (h : run exec f (history.map Prod.fst) = some (history.map Prod.snd, f'))
    (hclear : .clear ∉ history.map Prod.fst) :
    f.items ++ pushed history = popped history ++ f'.items := by
  induction history generalizing f with
  | nil =>
    obtain ⟨-, rfl⟩ := Prod.mk.inj (Option.some.inj h)
    exact List.append_nil f.items
  | cons o history ih =>
    obtain ⟨e, es, f₁, hes, hstep, hrest⟩ := run_uncons h
    obtain ⟨rfl, rfl⟩ := List.cons.inj hes
    rw [List.map_cons, List.mem_cons, not_or] at hclear
    rw [pushed_cons, popped_cons, ← List.append_assoc, exec_items hstep (Ne.symm hclear.1),
      List.append_assoc, ih hrest hclear.2, List.append_assoc]

end Fifo

namespace BlockQueue
variable {T : Type}

/-- The rest of `pop`, once there is an item. The call is recorded as one that did not wait. -/
def takeMove (q : BlockQueue T) : Option (Move (Point T) (BlockQueue T) (Call T × Result T)) :=
  q.take.map fun o => .work (.leaving (some (.pop [], .popped o.1))) o.2

/-- A `pop` that gives up has no effect. -/
def move (p : Point T) (q : BlockQueue T) :
    Option (Move (Point T) (BlockQueue T) (Call T × Result T)) :=
  match p with
  | .push item => (q.push item).map fun o => .work (.pushed item o.1) o.2
  | .pushed item ret => some (.broadcast (.leaving (some (.push item, .flag ret))))
  | .pop => if q.mSize ≤ 0 then some .sleep else q.takeMove
  | .popTimeout => if q.mSize ≤ 0 then some .sleep else q.takeMove
  -- the timed form tests once more after its wait, and does not wait again
  | .popTimeoutAgain => if q.mSize ≤ 0 then some (.work (.leaving none) q) else q.takeMove
  | .size => some (.work (.leaving (some (.size, .number q.size))) q)
  | .empty => some (.work (.leaving (some (.empty, .flag q.empty))) q)
  | .full => some (.work (.leaving (some (.full, .flag q.full))) q)
  | .clear => some (.work (.leaving (some (.clear, .done))) q.clear)
  | .leaving effect => some (.leave effect)

/-- A wait that fails or times out ends the call. -/
def wake : Point T → Bool → Point T
  | .pop, true => .pop
  | .popTimeout, true => .popTimeoutAgain
  | _, _ => .leaving none

def monitor : Monitor (Point T) (BlockQueue T) (Call T × Result T) := ⟨move, wake⟩

/-- The points where a thread may take the mutex. -/
def Entry : Point T → Prop
  | .pushed _ _ => False
  | .leaving effect => effect = none
  | _ => True

/-- The calls that returned are a run of the list, and the call that is about to return is its next
step. -/
def Linear (n : ℕ) (h : 1 ≤ n) (p : Option (Point T)) (q : BlockQueue T)
    (history : List (Call T × Result T)) : Prop :=
  ∃ f, run Fifo.exec (.new n h) (history.map Prod.fst) = some (history.map Prod.snd, f) ∧
    match p with
    | some (.pushed item ret) => ∃ f', f.exec (.push item) = some (.flag ret, f') ∧ Represents q f'
    | some (.leaving (some (call, r))) => ∃ f', f.exec call = some (r, f') ∧ Represents q f'
    | _ => Represents q f

section Moves
variable {q : BlockQueue T} {f : Fifo T}

/-- What the queue does at once, the list does too. -/
theorem Represents.leaving (h : Represents q f) {call : Call T} (hg : q.Guarded call) :
    ∃ r q', q.exec call = some (r, q') ∧ ∃ f', f.exec call = some (r, f') ∧ Represents q' f' := by
  obtain ⟨r, q', f', hexec, hlist, hq'⟩ := h.exec hg
  exact ⟨r, q', hexec, f', hlist, hq'⟩

theorem Represents.pushMove (h : Represents q f) (item : T) :
    ∃ ret q', move (.push item) q = some (.work (.pushed item ret) q') ∧
      ∃ f', f.exec (.push item) = some (.flag ret, f') ∧ Represents q' f' := by
  obtain ⟨r, q', hexec, hlist⟩ := h.leaving (show q.Guarded (.push item) from nofun)
  obtain ⟨o, hpush, ho⟩ := Option.map_eq_some_iff.mp hexec
  obtain ⟨rfl, rfl⟩ := Prod.mk.inj ho
  refine ⟨_, _, ?_, hlist⟩
  rw [BlockQueue.move, hpush]
  rfl

theorem Represents.takeMove (h : Represents q f) (hsize : ¬ q.mSize ≤ 0) :
    ∃ r q', q.takeMove = some (.work (.leaving (some (.pop [], r))) q') ∧
      ∃ f', f.exec (.pop []) = some (r, f') ∧ Represents q' f' := by
  have hg : q.Guarded (.pop []) := by
    intro _ _
    simp only [BlockQueue.empty, decide_eq_false_iff_not]
    omega
  obtain ⟨r, q', hexec, hlist⟩ := h.leaving hg
  have hpop : q.pop [] = q.take := if_neg hsize
  rw [BlockQueue.exec, hpop, Option.map_eq_some_iff] at hexec
  obtain ⟨o, htake, ho⟩ := hexec
  obtain ⟨rfl, rfl⟩ := Prod.mk.inj ho
  refine ⟨_, _, ?_, hlist⟩
  rw [BlockQueue.takeMove, htake]
  rfl

/-- The move of a thread at an entry, or before its return. -/
theorem Linear.move {n : ℕ} {hn : 1 ≤ n} {p : Point T} {history : List (Call T × Result T)}
    (h : Linear n hn (some p) q history) :
    ∃ m, move p q = some m ∧ monitor.After Entry (Linear n hn) p q history m := by
  obtain ⟨f, hrun, hp⟩ := h
  have hnow : ∀ (call : Call T) {r q'}, Represents q f → q.Guarded call →
      q.exec call = some (r, q') → Linear n hn (some (.leaving (some (call, r)))) q' history := by
    intro call r q' hq hg hexec
    obtain ⟨r', q'', hexec', hlist⟩ := hq.leaving hg
    rw [hexec] at hexec'
    obtain ⟨rfl, rfl⟩ := Prod.mk.inj (Option.some.inj hexec')
    exact ⟨f, hrun, hlist⟩
  have htake : Represents q f → ¬ q.mSize ≤ 0 → ∃ p' q', q.takeMove = some (.work p' q') ∧
      Linear n hn (some p') q' history := by
    intro hq hsize
    obtain ⟨r, q', hmove, hlist⟩ := hq.takeMove hsize
    exact ⟨_, q', hmove, f, hrun, hlist⟩
  cases p with
  | push item =>
    obtain ⟨ret, q', hmove, hlist⟩ := Represents.pushMove hp item
    exact ⟨_, hmove, f, hrun, hlist⟩
  | pushed item ret => exact ⟨_, rfl, f, hrun, hp⟩
  | pop =>
    by_cases hsize : q.mSize ≤ 0
    · refine ⟨.sleep, if_pos hsize, ⟨f, hrun, hp⟩, ?_⟩
      rintro (_ | _) <;> trivial
    · obtain ⟨p', q', hmove, hlinear⟩ := htake hp hsize
      exact ⟨.work p' q', (if_neg hsize).trans hmove, hlinear⟩
  | popTimeout =>
    by_cases hsize : q.mSize ≤ 0
    · refine ⟨.sleep, if_pos hsize, ⟨f, hrun, hp⟩, ?_⟩
      rintro (_ | _) <;> trivial
    · obtain ⟨p', q', hmove, hlinear⟩ := htake hp hsize
      exact ⟨.work p' q', (if_neg hsize).trans hmove, hlinear⟩
  | popTimeoutAgain =>
    by_cases hsize : q.mSize ≤ 0
    · exact ⟨.work (.leaving none) q, if_pos hsize, f, hrun, hp⟩
    · obtain ⟨p', q', hmove, hlinear⟩ := htake hp hsize
      exact ⟨.work p' q', (if_neg hsize).trans hmove, hlinear⟩
  | size => exact ⟨.work _ _, rfl, hnow .size hp nofun rfl⟩
  | empty => exact ⟨.work _ _, rfl, hnow .empty hp nofun rfl⟩
  | full => exact ⟨.work _ _, rfl, hnow .full hp nofun rfl⟩
  | clear => exact ⟨.work _ _, rfl, hnow .clear hp nofun rfl⟩
  | leaving e =>
    refine ⟨.leave e, rfl, ?_⟩
    cases e with
    | none => exact ⟨f, by simpa using hrun, hp⟩
    | some o =>
      obtain ⟨call, r⟩ := o
      obtain ⟨f', hlist, hq⟩ := hp
      refine ⟨f', ?_, hq⟩
      rw [List.map_append, List.map_append, run_append, hrun, Option.bind_some]
      simp [run, hlist]

theorem keeps_linear (n : ℕ) (hn : 1 ≤ n) :
    (monitor (T := T)).Keeps Entry (Linear n hn) where
  lock := by
    rintro p q history ⟨f, hrun, hq⟩ hp
    cases p with
    | pushed item ret => exact absurd hp id
    | leaving e =>
      obtain rfl : e = none := hp
      exact ⟨f, hrun, hq⟩
    | _ => exact ⟨f, hrun, hq⟩
  move := Linear.move

theorem Represents.empty_iff (h : Represents q f) : q.empty = true ↔ ¬ 0 < q.mSize := by
  obtain ⟨i, j, hq⟩ := h
  have hs := hq.size
  simp only [BlockQueue.empty, decide_eq_true_eq]
  omega

theorem Linear.sound {n : ℕ} {hn : 1 ≤ n} {p : Option (Point T)} {history : List (Call T × Result T)}
    (h : Linear n hn p q history) : Sound q := by
  obtain ⟨f, -, hp⟩ := h
  split at hp
  · obtain ⟨f', -, hq⟩ := hp
    exact ⟨f', hq⟩
  · obtain ⟨f', -, hq⟩ := hp
    exact ⟨f', hq⟩
  · exact ⟨f, hp⟩

end Moves

/-- The point of a thread that has yet to broadcast. -/
def Broadcasts (p : Point T) : Prop := ∃ item ret, p = .pushed item ret

theorem mSize_take {q q' : BlockQueue T} {x : Option T} (h : q.take = some (x, q')) :
    q'.mSize = q.mSize - 1 := by
  simp only [take, Option.bind_eq_bind, Option.bind_eq_some_iff] at h
  obtain ⟨y, -, hy⟩ := h
  rw [← (Prod.mk.inj (Option.some.inj hy)).2]

theorem takeMove_work {q q' : BlockQueue T} {p : Point T} (h : q.takeMove = some (.work p q')) :
    q'.mSize ≤ q.mSize := by
  obtain ⟨o, htake, ho⟩ := Option.map_eq_some_iff.mp h
  obtain ⟨-, rfl⟩ := Move.work.inj ho
  have := mSize_take htake
  omega

theorem takeMove_ne {q : BlockQueue T} {m : Move (Point T) (BlockQueue T) (Call T × Result T)}
    (h : q.takeMove = some m) (hwork : ∀ p q', m ≠ .work p q') : False := by
  obtain ⟨o, -, ho⟩ := Option.map_eq_some_iff.mp h
  exact hwork _ _ ho.symm

/-- Only a `push` brings an item, and it broadcasts before it returns. -/
theorem wakes : (monitor (T := T)).Wakes (fun _ q => 0 < q.mSize) Broadcasts where
  work := by
    intro p q p' q' hm
    have hless : ¬ Broadcasts p → q'.mSize ≤ q.mSize → (Broadcasts p → Broadcasts p') ∧
        ∀ _ : Point T, 0 < q'.mSize → 0 < q.mSize ∨ Broadcasts p' :=
      fun hp hle => ⟨fun h => absurd h hp, fun _ h => Or.inl (by omega)⟩
    cases p with
    | push item =>
      obtain ⟨o, -, ho⟩ := Option.map_eq_some_iff.mp hm
      obtain ⟨rfl, -⟩ := Move.work.inj ho
      exact ⟨fun _ => ⟨_, _, rfl⟩, fun _ _ => Or.inr ⟨_, _, rfl⟩⟩
    | pushed item ret => cases hm
    | pop | popTimeout =>
      by_cases hsize : q.mSize ≤ 0
      · exact nomatch (if_pos hsize).symm.trans hm
      · exact hless nofun (takeMove_work ((if_neg hsize).symm.trans hm))
    | popTimeoutAgain =>
      by_cases hsize : q.mSize ≤ 0
      · obtain ⟨-, rfl⟩ := Move.work.inj (Option.some.inj ((if_pos hsize).symm.trans hm))
        exact hless nofun le_rfl
      · exact hless nofun (takeMove_work ((if_neg hsize).symm.trans hm))
    | size | empty | full =>
      obtain ⟨-, rfl⟩ := Move.work.inj (Option.some.inj hm)
      exact hless nofun le_rfl
    | clear =>
      obtain ⟨-, rfl⟩ := Move.work.inj (Option.some.inj hm)
      exact ⟨nofun, fun _ h => absurd h (lt_irrefl 0)⟩
    | leaving effect => cases hm
  sleep := by
    intro p q hm
    cases p with
    | push item =>
      obtain ⟨o, -, ho⟩ := Option.map_eq_some_iff.mp hm
      cases ho
    | pop | popTimeout =>
      by_cases hsize : q.mSize ≤ 0
      · exact ⟨hsize.not_gt, nofun⟩
      · exact (takeMove_ne ((if_neg hsize).symm.trans hm) nofun).elim
    | popTimeoutAgain =>
      by_cases hsize : q.mSize ≤ 0
      · exact nomatch (if_pos hsize).symm.trans hm
      · exact (takeMove_ne ((if_neg hsize).symm.trans hm) nofun).elim
    | _ => cases hm
  leave := by
    rintro p q e hm ⟨item, ret, rfl⟩
    cases hm

section Runs
variable [Inhabited T] {ι : Type} [DecidableEq ι] {maxSize : ℤ}

theorem run_threads (h : 1 ≤ maxSize) {events : List (MonitorEvent ι (Point T))}
    (hstarts : ∀ i p, .call i p ∈ events → p.Starts) : ∃ q : BlockQueue T, new maxSize = some q ∧
      ∃ rs s, run (Monitored.step monitor) (.start q) events = some (rs, s) ∧
        monitor.Sound Entry (Linear maxSize.toNat (one_le_toNat h)) rs s ∧
        s.NoneLost (fun _ q => 0 < q.mSize) Broadcasts := by
  obtain ⟨q, hnew, hq⟩ := layout_new (T := T) h
  have hcalls : ∀ e ∈ events, ∀ s : Monitored ι (Point T) (BlockQueue T), s.Calls Entry e := by
    intro e he s
    cases e with
    | call i p =>
      have hp := hstarts i p he
      cases p <;> trivial
    | _ => trivial
  exact ⟨q, hnew, (keeps_linear _ _).run wakes ⟨_, rfl, 0, 0, hq⟩ (allowed_of_forall hcalls)⟩

/-- Any number of threads: no index outside the array, one thread in its section at a time, and the
calls that returned are, in the order of their sections, a run of the list. -/
theorem threads_linear (h : 1 ≤ maxSize) {events : List (MonitorEvent ι (Point T))}
    (hstarts : ∀ i p, .call i p ∈ events → p.Starts) : ∃ q : BlockQueue T, new maxSize = some q ∧
      ∃ rs s, run (Monitored.step monitor) (.start q) events = some (rs, s) ∧
        (∀ i j p p', s.place i = .inside p → s.place j = .inside p' → i = j) ∧
        ∃ f, run Fifo.exec (.new maxSize.toNat (one_le_toNat h)) ((effects rs).map Prod.fst) =
            some ((effects rs).map Prod.snd, f) ∧
          (s.owner = none → s.obj.items = f.items) ∧
          (.clear ∉ (effects rs).map Prod.fst →
            Fifo.pushed (effects rs) = Fifo.popped (effects rs) ++ f.items) := by
  obtain ⟨q, hnew, rs, s, hrun, hsound, -⟩ := run_threads h hstarts
  refine ⟨q, hnew, rs, s, hrun, fun i j p p' hi hj => hsound.exclusive.unique hi hj, ?_⟩
  obtain ⟨f, hlist, hp⟩ := hsound.obj
  refine ⟨f, hlist, ?_, Fifo.run_items hlist⟩
  intro howner
  rw [Monitored.holding_of_owner howner] at hp
  obtain ⟨i, j, hq⟩ := hp
  exact hq.items_eq

/-- No wakeup is lost, and there is no deadlock: a thread sleeps only while the queue is empty or a
broadcast is under way, and when no thread can go on, those in a call sleep on an empty queue. -/
theorem threads_wake (h : 1 ≤ maxSize) {events : List (MonitorEvent ι (Point T))}
    (hstarts : ∀ i p, .call i p ∈ events → p.Starts) : ∃ q : BlockQueue T, new maxSize = some q ∧
      ∃ rs s, run (Monitored.step monitor) (.start q) events = some (rs, s) ∧
        (∀ i p, s.place i = .asleep p →
          s.obj.empty = true ∨ ∃ j p', s.place j = .inside p' ∧ Broadcasts p') ∧
        ((∀ i, ¬ s.CanGo monitor i) → ∀ i, s.place i = .out ∨
          (∃ p, s.place i = .asleep p) ∧ s.obj.empty = true) := by
  obtain ⟨q, hnew, rs, s, hrun, hsound, hlost⟩ := run_threads h hstarts
  obtain ⟨f, hq⟩ := hsound.obj.sound
  have hasleep : ∀ i p, s.place i = .asleep p →
      s.obj.empty = true ∨ ∃ j p', s.place j = .inside p' ∧ Broadcasts p' := by
    intro i p hi
    rw [hq.empty_iff]
    by_cases hready : 0 < s.obj.mSize
    · exact Or.inr (hlost i p hi hready)
    · exact Or.inl hready
  refine ⟨q, hnew, rs, s, hrun, hasleep, ?_⟩
  intro hstuck i
  have hout := hsound.out_or_asleep (keeps_linear _ _) hstuck
  rcases hout i with hi | ⟨p, hi⟩
  · exact Or.inl hi
  · refine Or.inr ⟨⟨p, hi⟩, ?_⟩
    rcases hasleep i p hi with he | ⟨j, p', hj, -⟩
    · exact he
    · rcases hout j with hj' | ⟨q', hj'⟩ <;> rw [hj] at hj' <;> cases hj'

end Runs

/-- One thread waits for an item, and another one brings it. -/
def waitedFor : List (MonitorEvent Bool (Point ℕ)) :=
  [.call false .pop, .lock false, .move false, .call true (.push 7), .lock true, .move true,
    .lock false, .move true, .move true, .lock false, .move false, .move false]

theorem starts_waitedFor (i : Bool) (p : Point ℕ) (h : .call i p ∈ waitedFor) : p.Starts := by
  simp only [waitedFor, List.mem_cons, MonitorEvent.call.injEq, reduceCtorEq, List.not_mem_nil,
    or_false, false_or] at h
  rcases h with ⟨-, rfl⟩ | ⟨-, rfl⟩ <;> trivial

theorem threads_linear_waitedFor : ∃ q : BlockQueue ℕ, new 2 = some q ∧
    ∃ rs s, run (Monitored.step monitor) (.start q) waitedFor = some (rs, s) ∧
      (∀ i j p p', s.place i = .inside p → s.place j = .inside p' → i = j) ∧
      ∃ f, run Fifo.exec (.new (2 : ℤ).toNat (by decide)) ((effects rs).map Prod.fst) =
          some ((effects rs).map Prod.snd, f) ∧
        (s.owner = none → s.obj.items = f.items) ∧
        (.clear ∉ (effects rs).map Prod.fst →
          Fifo.pushed (effects rs) = Fifo.popped (effects rs) ++ f.items) :=
  threads_linear (by decide) starts_waitedFor

theorem threads_wake_waitedFor : ∃ q : BlockQueue ℕ, new 2 = some q ∧
    ∃ rs s, run (Monitored.step monitor) (.start q) waitedFor = some (rs, s) ∧
      (∀ i p, s.place i = .asleep p →
        s.obj.empty = true ∨ ∃ j p', s.place j = .inside p' ∧ Broadcasts p') ∧
      ((∀ i, ¬ s.CanGo monitor i) → ∀ i, s.place i = .out ∨
        (∃ p, s.place i = .asleep p) ∧ s.obj.empty = true) :=
  threads_wake (by decide) starts_waitedFor

/-- Both threads are outside again, with the item handed over. -/
example : (run (Monitored.step monitor) (.start ⟨[0, 0], 0, 2, -1, -1⟩) waitedFor).map
    (fun o => (effects o.1, o.2.obj, o.2.owner)) =
      some ([(.push 7, .flag true), (.pop [], .popped (some 7))], ⟨[7, 0], 0, 2, 0, 0⟩, none) := rfl

end BlockQueue
end DCache.Log
