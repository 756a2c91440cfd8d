import DCache.Lib.Custody
import DCache.Log.BlockQueue
import DCache.Log.Log

/-! The log in asynchronous mode: any number of threads in `write_log`, and the thread that takes
records off the queue and writes them. A section under `m_mutex` is one step, and so is a call of the
queue. The section that forms a record has no effect on the others. -/
namespace DCache
open DCache.Lib

namespace Log

/-- What `write_log` was called with. The calls are numbered for the history only. -/
structure Record (R : Type) where
  id : ℕ
  text : R
deriving DecidableEq, Inhabited

/-- Where a thread is: in no call, before the section that counts the line, before the one that forms
the record, at the test of the queue, or before the `push` or the `fputs` that the test decides on. -/
inductive Writer (R : Type)
  | idle
  | entered (r : Record R)
  | counted (r : Record R)
  | formed (r : Record R)
  | queueing (r : Record R)
  | writing (r : Record R)

/-- Where `async_write_log` is: at the `pop`, before the `fputs`, or at its end. -/
inductive Flusher (R : Type)
  | waiting
  | writing (r : Record R)
  | ended

def Writer.record {R : Type} : Writer R → Option (Record R)
  | .idle => none
  | .entered r | .counted r | .formed r | .queueing r | .writing r => some r

def Flusher.record {R : Type} : Flusher R → Option (Record R)
  | .writing r => some r
  | _ => none

structure Pool (ι R : Type) where
  log : Log (Record R)
  queue : BlockQueue (Record R)
  writer : ι → Writer R
  flusher : Flusher R
  started : List R

/-- `opened` is the result of an `fopen`. -/
inductive Event (ι R : Type)
  | call (i : ι) (text : R)
  | count (i : ι) (opened : Bool)
  | form (i : ι)
  | full (i : ι)
  | push (i : ι)
  | write (i : ι)
  | pop
  | waitFails
  | flush

namespace Pool
variable {ι R : Type} [DecidableEq ι] (date : R → Date)

/-- The state that `init` leaves with `max_queue_size >= 1`. -/
def start (log : Log (Record R)) (queue : BlockQueue (Record R)) : Pool ι R where
  log := log
  queue := queue
  writer := fun _ => .idle
  flusher := .waiting
  started := []

def withWriter (s : Pool ι R) (i : ι) (w : Writer R) : Pool ι R :=
  { s with writer := Function.update s.writer i w }

/-- An event of a thread that is not at that point changes nothing, and so does a `pop` that waits.
`m_is_async` is true, and what `push` returns is not looked at. -/
def step (s : Pool ι R) : Event ι R → Option (Unit × Pool ι R)
  | .call i text =>
    match s.writer i with
    | .idle => some ((), { s with
        writer := Function.update s.writer i (.entered ⟨s.started.length, text⟩)
        started := s.started ++ [text] })
    | _ => some ((), s)
  | .count i opened =>
    match s.writer i with
    | .entered r => do
      let log ← s.log.rotate (date r.text) opened
      some ((), { s with log := log, writer := Function.update s.writer i (.counted r) })
    | _ => some ((), s)
  | .form i =>
    match s.writer i with
    | .counted r => some ((), s.withWriter i (.formed r))
    | _ => some ((), s)
  | .full i =>
    match s.writer i with
    | .formed r => some ((), s.withWriter i (if s.queue.full then .writing r else .queueing r))
    | _ => some ((), s)
  | .push i =>
    match s.writer i with
    | .queueing r => do
      let (_, queue) ← s.queue.push r
      some ((), { s with queue := queue, writer := Function.update s.writer i .idle })
    | _ => some ((), s)
  | .write i =>
    match s.writer i with
    | .writing r => do
      let (_, log) ← s.log.fputs r
      some ((), { s with log := log, writer := Function.update s.writer i .idle })
    | _ => some ((), s)
  | .pop =>
    match s.flusher with
    | .waiting =>
      if s.queue.empty then some ((), s)
      else do
        let (item, queue) ← s.queue.pop []
        some ((), { s with
          queue := queue
          flusher := match item with
            | none => .ended
            | some r => .writing r })
    | _ => some ((), s)
  | .waitFails =>
    match s.flusher with
    | .waiting => some ((), if s.queue.empty then { s with flusher := .ended } else s)
    | _ => some ((), s)
  | .flush =>
    match s.flusher with
    | .writing r => do
      let (_, log) ← s.log.fputs r
      some ((), { s with log := log, flusher := .waiting })
    | _ => some ((), s)

/-- The two lists through which records go. -/
inductive Store
  | queue
  | file
deriving DecidableEq

/-- Who holds which record: the threads (`none` is the one of `async_write_log`), the queue and the
file. -/
def custody (s : Pool ι R) : Custody (Option ι) Store (Record R) where
  hand
    | none => s.flusher.record
    | some i => (s.writer i).record
  list
    | .queue => s.queue.items
    | .file => s.log.written.map Prod.snd

/-- Every record is held by one party, or it is written, and it is there once. -/
def NothingLost (s : Pool ι R) : Prop :=
  ∀ id text, s.started[id]? = some text → s.custody.Once ⟨id, text⟩

/-- A `push` finds room. -/
def Room (s : Pool ι R) : Event ι R → Prop
  | .push i => ∀ r, s.writer i = .queueing r → s.queue.full = false
  | _ => True

section Custody
variable {s : Pool ι R} {i : ι}

theorem custody_setWriter (i : ι) (w : Writer R) :
    ({ s with writer := Function.update s.writer i w } : Pool ι R).custody.hand =
      Function.update s.custody.hand (some i) w.record := by
  funext h
  cases h with
  | none => rfl
  | some j =>
    by_cases hj : j = i
    · subst hj
      simp [custody]
    · simp [custody, hj]

theorem custody_setFlusher (w : Flusher R) : ({ s with flusher := w } : Pool ι R).custody.hand =
    Function.update s.custody.hand none w.record := by
  funext h
  cases h with
  | none => simp [custody]
  | some j => simp [custody]

omit [DecidableEq ι] in
theorem custody_list_queue (s : Pool ι R) (q : BlockQueue (Record R)) :
    ({ s with queue := q } : Pool ι R).custody.list =
      Function.update s.custody.list .queue q.items := by
  funext l
  cases l <;> simp [custody]

omit [DecidableEq ι] in
theorem custody_list_file (s : Pool ι R) (log : Log (Record R)) :
    ({ s with log := log } : Pool ι R).custody.list =
      Function.update s.custody.list .file (log.written.map Prod.snd) := by
  funext l
  cases l <;> simp [custody]

end Custody

/-- The history and the places agree. -/
structure Kept (s : Pool ι R) : Prop where
  queue : s.queue.Sound
  once : s.NothingLost
  known : ∀ p r, s.custody.At p r → s.started[r.id]? = some r.text

section Steps
variable {s s' : Pool ι R} {i : ι} {r : Record R}

theorem Kept.handed (hk : Kept s) (hq : s'.queue.Sound) (hs : s'.started = s.started)
    (h : s.custody.Handed s'.custody) : Kept s' := by
  refine ⟨hq, ?_, ?_⟩
  · intro id text hid
    rw [hs] at hid
    exact h.once (hk.once id text hid)
  · intro p r hp
    obtain ⟨p₀, hp₀⟩ := h.exists_at hp
    rw [hs]
    exact hk.known p₀ r hp₀

omit [DecidableEq ι] in
/-- A thread that is at another point does nothing. -/
theorem Kept.unchanged {u : Unit} (hk : Kept s) (h : some ((), s) = some (u, s')) : Kept s' := by
  obtain ⟨-, rfl⟩ := Prod.mk.inj (Option.some.inj h)
  exact hk

/-- A thread that goes on with its record. -/
theorem Kept.same (hk : Kept s) (hq : s'.queue.Sound) (hs : s'.started = s.started)
    (h : s'.custody = s.custody) : Kept s' := by
  apply hk.handed hq hs
  rw [h]
  exact .same

theorem custody_withWriter {w : Writer R} (h : w.record = (s.writer i).record) :
    (s.withWriter i w).custody = s.custody := by
  apply Custody.ext
  · have hset := custody_setWriter (s := s) i w
    rw [h] at hset
    exact hset.trans (Function.update_eq_self _ _)
  · rfl

theorem rotate_written {log log' : Log R} {d : Date} {opened : Bool}
    (h : log.rotate d opened = some log') : log'.written = log.written := by
  unfold rotate at h
  split_ifs at h <;> cases h <;> rfl

theorem Kept.call (hk : Kept s) (hw : s.writer i = .idle) (text : R) : Kept ({ s with
    writer := Function.update s.writer i (.entered ⟨s.started.length, text⟩)
    started := s.started ++ [text] } : Pool ι R) := by
  have hcustody : ({ s with
      writer := Function.update s.writer i (.entered ⟨s.started.length, text⟩)
      started := s.started ++ [text] } : Pool ι R).custody =
        s.custody.receive (some i) ⟨s.started.length, text⟩ :=
    Custody.ext (custody_setWriter (s := s) i _) rfl
  have hidle : s.custody.hand (some i) = none := by
    simp only [custody, hw, Writer.record]
  have hold : ∀ p (r : Record R), s.custody.At p r → r.id < s.started.length := by
    intro p r hp
    exact (List.getElem?_eq_some_iff.mp (hk.known p r hp)).1
  constructor
  · exact hk.queue
  · intro id text' hid
    rw [hcustody]
    have hid : (s.started ++ [text])[id]? = some text' := hid
    by_cases hlt : id < s.started.length
    · rw [List.getElem?_append_left hlt] at hid
      apply (hk.once id text' hid).receive hidle
      intro he
      exact absurd (congrArg Record.id he) hlt.ne
    · have hlen := (List.getElem?_eq_some_iff.mp hid).1
      rw [List.length_append, List.length_singleton] at hlen
      obtain rfl : id = s.started.length := by omega
      rw [List.getElem?_concat_length, Option.some.injEq] at hid
      rw [hid]
      apply Custody.once_receive
      intro p hp
      exact lt_irrefl _ (hold p _ hp)
  · intro p r hp
    rw [hcustody] at hp
    change (s.started ++ [text])[r.id]? = some r.text
    rcases Custody.receive_at.mp hp with ⟨-, rfl⟩ | ⟨-, hp⟩
    · exact List.getElem?_concat_length
    · rw [List.getElem?_append_left (hold p r hp)]
      exact hk.known p r hp

theorem Kept.push (hk : Kept s) (hw : s.writer i = .queueing r) (hroom : s.queue.full = false) :
    ∃ queue, s.queue.push r = some (true, queue) ∧ Kept ({ s with
      queue := queue
      writer := Function.update s.writer i .idle } : Pool ι R) := by
  obtain ⟨queue, hpush, hitems, hq⟩ := hk.queue.push hroom r
  refine ⟨queue, hpush, hk.handed hq rfl ?_⟩
  have hhand : s.custody.hand (some i) = some r := by
    simp only [custody, hw, Writer.record]
  have hcustody : ({ s with
      queue := queue
      writer := Function.update s.writer i .idle } : Pool ι R).custody =
        s.custody.deposit (some i) .queue r := by
    apply Custody.ext
    · exact custody_setWriter (s := { s with queue := queue }) i .idle
    · rw [Custody.deposit]
      have hl := custody_list_queue s queue
      rw [hitems] at hl
      exact hl
  rw [hcustody]
  exact .deposit _ _ r hhand

/-- The section that counts the line may change the file, but it writes nothing. -/
theorem Kept.count {log : Log (Record R)} {d : Date} {opened : Bool} (hk : Kept s)
    (hw : s.writer i = .entered r) (h : s.log.rotate d opened = some log) : Kept ({ s with
      log := log
      writer := Function.update s.writer i (.counted r) } : Pool ι R) := by
  refine hk.same ?_ ?_ ?_
  · exact hk.queue
  · rfl
  · have hsame : (s.withWriter i (.counted r)).custody = s.custody := by
      apply custody_withWriter
      rw [hw]
      rfl
    rw [← hsame]
    apply Custody.ext
    · rfl
    · have hl := custody_list_file (s.withWriter i (.counted r)) log
      rw [rotate_written h] at hl
      exact hl.trans (Function.update_eq_self _ _)

theorem of_fputs {log log' : Log R} {x : R} {name : Str} (h : log.fputs x = some (name, log')) :
    log'.written.map Prod.snd = log.written.map Prod.snd ++ [x] := by
  obtain ⟨name', -, ho⟩ := Option.map_eq_some_iff.mp h
  obtain ⟨-, rfl⟩ := Prod.mk.inj ho
  rw [List.map_append]
  rfl

theorem Kept.write {log : Log (Record R)} {name : Str} (hk : Kept s) (hw : s.writer i = .writing r)
    (h : s.log.fputs r = some (name, log)) : Kept ({ s with
      log := log
      writer := Function.update s.writer i .idle } : Pool ι R) := by
  apply hk.handed
  · exact hk.queue
  · rfl
  · have hhand : s.custody.hand (some i) = some r := by
      simp only [custody, hw, Writer.record]
    have hcustody : ({ s with
        log := log
        writer := Function.update s.writer i .idle } : Pool ι R).custody =
          s.custody.deposit (some i) .file r := by
      apply Custody.ext
      · exact custody_setWriter (s := { s with log := log }) i .idle
      · have hl := custody_list_file s log
        rw [of_fputs h] at hl
        exact hl
    rw [hcustody]
    exact .deposit _ _ r hhand

theorem Kept.flush {log : Log (Record R)} {name : Str} (hk : Kept s) (hw : s.flusher = .writing r)
    (h : s.log.fputs r = some (name, log)) :
    Kept ({ s with log := log, flusher := .waiting } : Pool ι R) := by
  apply hk.handed
  · exact hk.queue
  · rfl
  · have hhand : s.custody.hand none = some r := by
      simp only [custody, hw, Flusher.record]
    have hcustody : ({ s with log := log, flusher := .waiting } : Pool ι R).custody =
        s.custody.deposit none .file r := by
      apply Custody.ext
      · exact custody_setFlusher (s := { s with log := log }) .waiting
      · have hl := custody_list_file s log
        rw [of_fputs h] at hl
        exact hl
    rw [hcustody]
    exact .deposit _ _ r hhand

theorem Kept.pop (hk : Kept s) (hw : s.flusher = .waiting) (hempty : ¬ s.queue.empty = true) :
    ∃ r queue, s.queue.pop [] = some (some r, queue) ∧
      Kept ({ s with queue := queue, flusher := .writing r } : Pool ι R) := by
  obtain ⟨r, queue, hpop, hitems, hq⟩ := hk.queue.pop hempty
  refine ⟨r, queue, hpop, hk.handed hq rfl ?_⟩
  have hhand : s.custody.hand none = none := by
    simp only [custody, hw, Flusher.record]
  have hcustody : ({ s with queue := queue, flusher := .writing r } : Pool ι R).custody =
      s.custody.take none .queue r queue.items :=
    Custody.ext (custody_setFlusher (s := { s with queue := queue }) (.writing r))
      (custody_list_queue s queue)
  rw [hcustody]
  exact .take _ _ r _ hhand hitems

/-- A step hands its record on, unless it is a `push` that finds no room. -/
theorem Kept.step {e : Event ι R} {u : Unit} (hk : Kept s) (hroom : s.Room e)
    (h : s.step date e = some (u, s')) : Kept s' := by
  cases e with
  | call i text =>
    cases hw : s.writer i with
    | idle =>
      simp only [Pool.step, hw, Option.some.injEq, Prod.mk.injEq, true_and] at h
      exact h ▸ hk.call hw text
    | _ =>
      simp only [Pool.step, hw] at h
      exact hk.unchanged h
  | count i opened =>
    cases hw : s.writer i with
    | entered r =>
      simp only [Pool.step, hw, Option.bind_eq_bind] at h
      obtain ⟨log, hrotate, ho⟩ := Option.bind_eq_some_iff.mp h
      obtain ⟨-, rfl⟩ := Prod.mk.inj (Option.some.inj ho)
      exact hk.count hw hrotate
    | _ =>
      simp only [Pool.step, hw] at h
      exact hk.unchanged h
  | form i =>
    cases hw : s.writer i with
    | counted r =>
      simp only [Pool.step, hw, Option.some.injEq, Prod.mk.injEq, true_and] at h
      rw [← h]
      exact hk.same hk.queue rfl (custody_withWriter (by rw [hw]; rfl))
    | _ =>
      simp only [Pool.step, hw] at h
      exact hk.unchanged h
  | full i =>
    cases hw : s.writer i with
    | formed r =>
      simp only [Pool.step, hw, Option.some.injEq, Prod.mk.injEq, true_and] at h
      rw [← h]
      refine hk.same hk.queue rfl (custody_withWriter ?_)
      rw [hw]
      split_ifs <;> rfl
    | _ =>
      simp only [Pool.step, hw] at h
      exact hk.unchanged h
  | push i =>
    cases hw : s.writer i with
    | queueing r =>
      obtain ⟨queue, hpush, hk'⟩ := hk.push hw (hroom r hw)
      simp only [Pool.step, hw, hpush, Option.bind_eq_bind, Option.bind_some, Option.some.injEq,
        Prod.mk.injEq, true_and] at h
      exact h ▸ hk'
    | _ =>
      simp only [Pool.step, hw] at h
      exact hk.unchanged h
  | write i =>
    cases hw : s.writer i with
    | writing r =>
      simp only [Pool.step, hw, Option.bind_eq_bind] at h
      obtain ⟨⟨name, log⟩, hfputs, ho⟩ := Option.bind_eq_some_iff.mp h
      obtain ⟨-, rfl⟩ := Prod.mk.inj (Option.some.inj ho)
      exact hk.write hw hfputs
    | _ =>
      simp only [Pool.step, hw] at h
      exact hk.unchanged h
  | pop =>
    cases hw : s.flusher with
    | waiting =>
      by_cases hempty : s.queue.empty = true
      · simp only [Pool.step, hw, hempty, if_true, Option.some.injEq, Prod.mk.injEq, true_and] at h
        exact h ▸ hk
      · obtain ⟨r, queue, hpop, hk'⟩ := hk.pop hw hempty
        simp only [Pool.step, hw, if_neg hempty, hpop, Option.bind_eq_bind, Option.bind_some,
          Option.some.injEq, Prod.mk.injEq, true_and] at h
        exact h ▸ hk'
    | _ =>
      simp only [Pool.step, hw] at h
      exact hk.unchanged h
  | waitFails =>
    cases hw : s.flusher with
    | waiting =>
      simp only [Pool.step, hw, Option.some.injEq, Prod.mk.injEq, true_and] at h
      rw [← h]
      split_ifs
      · refine hk.same hk.queue rfl (Custody.ext ?_ rfl)
        have hended : (Flusher.ended : Flusher R).record = s.custody.hand none := by
          simp only [custody, hw, Flusher.record]
        rw [custody_setFlusher, hended]
        exact Function.update_eq_self _ _
      · exact hk
    | _ =>
      simp only [Pool.step, hw] at h
      exact hk.unchanged h
  | flush =>
    cases hw : s.flusher with
    | writing r =>
      simp only [Pool.step, hw, Option.bind_eq_bind] at h
      obtain ⟨⟨name, log⟩, hfputs, ho⟩ := Option.bind_eq_some_iff.mp h
      obtain ⟨-, rfl⟩ := Prod.mk.inj (Option.some.inj ho)
      exact hk.flush hw hfputs
    | _ =>
      simp only [Pool.step, hw] at h
      exact hk.unchanged h

/-- A `push` that finds no room loses the record of its thread. -/
theorem Kept.lost {e : Event ι R} (hk : Kept s) (hroom : ¬ s.Room e) :
    ∃ u s', s.step date e = some (u, s') ∧ ¬ s'.NothingLost := by
  cases e with
  | push i =>
    simp only [Room, not_forall, Bool.not_eq_false] at hroom
    obtain ⟨r, hw, hfull⟩ := hroom
    refine ⟨(), s.withWriter i .idle, ?_, ?_⟩
    · simp only [Pool.step, hw, hk.queue.push_full hfull r, Option.bind_eq_bind, Option.bind_some]
      rfl
    · have hhand : s.custody.hand (some i) = some r := by
        simp only [custody, hw, Writer.record]
      have hcustody : (s.withWriter i .idle).custody = s.custody.drop (some i) :=
        Custody.ext (custody_setWriter (s := s) i .idle) rfl
      have hstarted := hk.known _ r (show s.custody.At (.hand (some i)) r from hhand)
      intro hn
      have hone := hn r.id r.text hstarted
      rw [hcustody] at hone
      exact (hk.once r.id r.text hstarted).not_drop hhand hone
  | _ => exact absurd trivial hroom

omit [DecidableEq ι] in
theorem kept_start [Inhabited R] {maxQueueSize : ℤ} (h : 1 ≤ maxQueueSize) {log : Log (Record R)}
    (hlog : log.written = []) : ∃ queue, BlockQueue.new maxQueueSize = some queue ∧
      Kept (start log queue : Pool ι R) := by
  obtain ⟨queue, hnew, hq⟩ := BlockQueue.layout_new (T := Record R) h
  refine ⟨queue, hnew, ⟨_, _, _, hq⟩, nofun, ?_⟩
  intro p r hp
  have hitems : queue.items = [] := hq.items_eq
  cases p with
  | hand i => cases i <;> cases hp
  | slot l n =>
    cases l with
    | queue =>
      simp only [Custody.At, custody, start, hitems] at hp
      cases hp
    | file =>
      simp only [Custody.At, custody, start, hlog] at hp
      cases hp

end Steps

/-- Nothing is lost in any state of a run if and only if no `push` of it finds the queue full. -/
theorem nothingLost_iff_room [Inhabited R] (maxQueueSize : ℤ) (hmax : 1 ≤ maxQueueSize)
    {fileName : Str} {splitLines : ℕ} {d₀ : Date} {opened ret : Bool} {log : Log (Record R)}
    (hinit : Log.init fileName splitLines d₀ opened = some (ret, log)) :
    ∃ queue, BlockQueue.new maxQueueSize = some queue ∧ ∀ es : List (Event ι R),
      (∀ es₁, es₁ <+: es → ∀ us s', run (step date) (start log queue) es₁ = some (us, s') →
        s'.NothingLost) ↔ Allowed (step date) Room (start log queue) es := by
  obtain ⟨queue, hnew, hk⟩ := kept_start (ι := ι) hmax (of_init hinit)
  refine ⟨queue, hnew, fun es => ?_⟩
  exact forall_prefix_iff_allowed (I := Kept) (q := fun _ _ => True) (fun _ hk => hk.once)
    (fun _ _ _ _ hk _ hroom h => hk.step date hroom h) (fun _ _ hk _ hroom => hk.lost date hroom)
    hk (allowed_trivial _ es)

section Runs

def openLog : Log (Record Date) :=
  ⟨lit "./Log/", lit "log", 50000, 0, 9, some (lit "./Log/2024_07_09_log"), []⟩

theorem init_openLog : Log.init (lit "./Log/log") 50000 july true = some (true, openLog) := by
  decide +kernel

/-- Two threads that both find the last free place of the queue. -/
def lastPlace : List (Event ℕ Date) :=
  [.call 0 july, .count 0 true, .form 0, .call 1 july, .count 1 true, .form 1, .full 0, .full 1,
    .push 0, .push 1]

/-- In a queue of two places both have room, and their records go to the file one by one. -/
def twoPlaces : List (Event ℕ Date) :=
  lastPlace ++ [.pop, .flush, .pop, .flush]

theorem nothingLost_twoPlaces : ∃ queue, BlockQueue.new 2 = some queue ∧
    (∃ us s', run (step id) (start openLog queue) twoPlaces = some (us, s')) ∧
    ∀ es₁, es₁ <+: twoPlaces → ∀ us s', run (step id) (start openLog queue) es₁ = some (us, s') →
      s'.NothingLost := by
  obtain ⟨queue, hnew, h⟩ := nothingLost_iff_room (ι := ℕ) id 2 (by decide) init_openLog
  obtain rfl := Option.some.inj hnew
  refine ⟨_, rfl, ⟨_, _, rfl⟩, (h twoPlaces).mpr ?_⟩
  exact ⟨trivial, trivial, trivial, trivial, trivial, trivial, trivial, trivial, fun _ _ => rfl,
    fun _ _ => rfl, trivial, trivial, trivial, trivial, trivial⟩

theorem lost_lastPlace : ∃ queue, BlockQueue.new 1 = some queue ∧ ∃ us s',
    run (step id) (start openLog queue) lastPlace = some (us, s') ∧ ¬ s'.NothingLost := by
  refine ⟨_, rfl, _, _, rfl, ?_⟩
  intro h
  obtain ⟨p, hp, -⟩ := h 1 july rfl
  cases p with
  | hand i =>
    cases i with
    | none => cases hp
    | some i => rcases i with _ | _ | i <;> cases hp
  | slot l n =>
    cases l with
    | queue => rcases n with _ | n <;> cases hp
    | file => cases hp

end Runs

end Pool
end Log
end DCache
