import DCache.Cache.Server
import DCache.Lib.Threads
import DCache.Master.Server

/-! The worker pool of both servers (`append` and `run`, with `sem` of `lock/locker.h`): any number
of producers and workers on one bounded queue. A section under `m_queuelocker` is one step, and so
is each call of the semaphore. -/
namespace DCache.WorkQueue
open DCache.Lib

/-- `SEM_VALUE_MAX`, which is also the largest `int`. -/
def semValueMax : ℕ := 2147483647

/-- A value of `m_max_requests`: `threadInit` asks for a positive `int`. -/
structure Bound where
  val : ℕ
  pos : 1 ≤ val
  int : val ≤ semValueMax

/-- The section of `append`: whether the request is accepted, and the queue. -/
def pushBack {α : Type} (bound : ℕ) (queue : List α) (request : α) : Bool × List α :=
  if queue.length ≥ bound then (false, queue) else (true, queue ++ [request])

/-- A call of `append`. The calls are numbered for the history only. -/
structure Call (α : Type) where
  id : ℕ
  request : α

/-- Where a producer is: in no call, before the section, or between its push and its post. -/
inductive Producer (α : Type)
  | idle
  | entered (c : Call α)
  | pushed (c : Call α)

/-- Where a worker is: at the wait, between the wait and the section, or in a handler. -/
inductive Worker (α : Type)
  | waiting
  | woken
  | handling (c : Call α)

def Producer.isPushed {α : Type} : Producer α → Bool
  | .pushed _ => true
  | _ => false

def Worker.isWoken {α : Type} : Worker α → Bool
  | .woken => true
  | _ => false

structure Pool (α P W : Type) where
  workqueue : List (Call α)
  queuestat : ℕ
  producer : P → Producer α
  worker : W → Worker α
  calls : ℕ

inductive Event (α P W : Type)
  | call (p : P) (request : α)
  | push (p : P)
  | post (p : P)
  | wait (w : W)
  | interrupt (w : W)
  | take (w : W)
  | finish (w : W)

/-- What a step shows: `append` pushes a request, returns `false` or returns `true`, or a worker
takes a request off the queue. -/
inductive Obs (α : Type)
  | silent
  | pushed (c : Call α)
  | refused (c : Call α)
  | returned (c : Call α)
  | dequeued (c : Call α)

/-- `sem_post` fails at the largest value. -/
def post (queuestat : ℕ) : ℕ := if queuestat < semValueMax then queuestat + 1 else queuestat

section Step
variable {α P W : Type} [DecidableEq P] [DecidableEq W]

def new : Pool α P W where
  workqueue := []
  queuestat := 0
  producer := fun _ => .idle
  worker := fun _ => .waiting
  calls := 0

/-- An event of a thread that is not at that point, or a `wait` without a credit, changes nothing.
An interrupted `wait` goes on without taking a credit, since `run` ignores what it returns. -/
def step (bound : Bound) (s : Pool α P W) : Event α P W → Option (Obs α × Pool α P W)
  | .call p request =>
    match s.producer p with
    | .idle => some (.silent, { s with
        producer := Function.update s.producer p (.entered ⟨s.calls, request⟩)
        calls := s.calls + 1 })
    | _ => some (.silent, s)
  | .push p =>
    match s.producer p with
    | .entered c =>
      let (ret, workqueue) := pushBack bound.val s.workqueue c
      if ret then some (.pushed c, { s with
        workqueue := workqueue
        producer := Function.update s.producer p (.pushed c) })
      else some (.refused c, { s with producer := Function.update s.producer p .idle })
    | _ => some (.silent, s)
  | .post p =>
    match s.producer p with
    | .pushed c => some (.returned c, { s with
        queuestat := post s.queuestat
        producer := Function.update s.producer p .idle })
    | _ => some (.silent, s)
  | .wait w =>
    match s.worker w, s.queuestat with
    | .waiting, n + 1 => some (.silent, { s with
        queuestat := n
        worker := Function.update s.worker w .woken })
    | _, _ => some (.silent, s)
  | .interrupt w =>
    match s.worker w with
    | .waiting => some (.silent, { s with worker := Function.update s.worker w .woken })
    | _ => some (.silent, s)
  | .take w =>
    match s.worker w, s.workqueue with
    | .woken, [] => some (.silent, { s with worker := Function.update s.worker w .waiting })
    | .woken, c :: rest => some (.dequeued c, { s with
        workqueue := rest
        worker := Function.update s.worker w (.handling c) })
    | _, _ => some (.silent, s)
  | .finish w =>
    match s.worker w with
    | .handling _ => some (.silent, { s with worker := Function.update s.worker w .waiting })
    | _ => some (.silent, s)

/-- All that a step can do. -/
inductive Transition (bound : Bound) (s : Pool α P W) : Obs α → Pool α P W → Prop
  | idle : Transition bound s .silent s
  | called (p : P) (request : α) (hp : s.producer p = .idle) : Transition bound s .silent { s with
      producer := Function.update s.producer p (.entered ⟨s.calls, request⟩)
      calls := s.calls + 1 }
  | pushed (p : P) (c : Call α) (hp : s.producer p = .entered c)
      (hq : s.workqueue.length < bound.val) : Transition bound s (.pushed c) { s with
      workqueue := s.workqueue ++ [c]
      producer := Function.update s.producer p (.pushed c) }
  | refused (p : P) (c : Call α) (hp : s.producer p = .entered c) :
      Transition bound s (.refused c) { s with producer := Function.update s.producer p .idle }
  | posted (p : P) (c : Call α) (hp : s.producer p = .pushed c) :
      Transition bound s (.returned c) { s with
      queuestat := post s.queuestat
      producer := Function.update s.producer p .idle }
  | waited (w : W) (n : ℕ) (hw : s.worker w = .waiting) (hn : s.queuestat = n + 1) :
      Transition bound s .silent { s with
      queuestat := n
      worker := Function.update s.worker w .woken }
  | interrupted (w : W) (hw : s.worker w = .waiting) : Transition bound s .silent { s with
      worker := Function.update s.worker w .woken }
  | missed (w : W) (hw : s.worker w = .woken) (hq : s.workqueue = []) :
      Transition bound s .silent { s with worker := Function.update s.worker w .waiting }
  | taken (w : W) (c : Call α) (rest : List (Call α)) (hw : s.worker w = .woken)
      (hq : s.workqueue = c :: rest) : Transition bound s (.dequeued c) { s with
      workqueue := rest
      worker := Function.update s.worker w (.handling c) }
  | finished (w : W) (c : Call α) (hw : s.worker w = .handling c) :
      Transition bound s .silent { s with worker := Function.update s.worker w .waiting }

theorem step_transition (bound : Bound) (s : Pool α P W) (e : Event α P W) :
    ∃ o s', step bound s e = some (o, s') ∧ Transition bound s o s' := by
  cases e with
  | call p request =>
    cases hp : s.producer p with
    | idle => exact ⟨_, _, by simp only [step, hp], .called p request hp⟩
    | entered c => exact ⟨_, _, by simp only [step, hp], .idle⟩
    | pushed c => exact ⟨_, _, by simp only [step, hp], .idle⟩
  | push p =>
    cases hp : s.producer p with
    | idle => exact ⟨_, _, by simp only [step, hp], .idle⟩
    | entered c =>
      by_cases hq : s.workqueue.length ≥ bound.val
      · exact ⟨_, _, by simp only [step, hp, pushBack, if_pos hq]; rfl, .refused p c hp⟩
      · exact ⟨_, _, by simp only [step, hp, pushBack, if_neg hq]; rfl,
          .pushed p c hp (by omega)⟩
    | pushed c => exact ⟨_, _, by simp only [step, hp], .idle⟩
  | post p =>
    cases hp : s.producer p with
    | idle => exact ⟨_, _, by simp only [step, hp], .idle⟩
    | entered c => exact ⟨_, _, by simp only [step, hp], .idle⟩
    | pushed c => exact ⟨_, _, by simp only [step, hp], .posted p c hp⟩
  | wait w =>
    cases hw : s.worker w with
    | waiting =>
      cases hn : s.queuestat with
      | zero => exact ⟨_, _, by simp only [step, hw, hn], .idle⟩
      | succ n => exact ⟨_, _, by simp only [step, hw, hn], .waited w n hw hn⟩
    | woken => exact ⟨_, _, by simp only [step, hw], .idle⟩
    | handling c => exact ⟨_, _, by simp only [step, hw], .idle⟩
  | interrupt w =>
    cases hw : s.worker w with
    | waiting => exact ⟨_, _, by simp only [step, hw], .interrupted w hw⟩
    | woken => exact ⟨_, _, by simp only [step, hw], .idle⟩
    | handling c => exact ⟨_, _, by simp only [step, hw], .idle⟩
  | take w =>
    cases hw : s.worker w with
    | waiting => exact ⟨_, _, by simp only [step, hw], .idle⟩
    | woken =>
      cases hq : s.workqueue with
      | nil => exact ⟨_, _, by simp only [step, hw, hq], .missed w hw hq⟩
      | cons c rest => exact ⟨_, _, by simp only [step, hw, hq], .taken w c rest hw hq⟩
    | handling c => exact ⟨_, _, by simp only [step, hw], .idle⟩
  | finish w =>
    cases hw : s.worker w with
    | waiting => exact ⟨_, _, by simp only [step, hw], .idle⟩
    | woken => exact ⟨_, _, by simp only [step, hw], .idle⟩
    | handling c => exact ⟨_, _, by simp only [step, hw], .finished w c hw⟩

end Step

section History
variable {α : Type}

/-- The calls whose request was pushed, in the order of the pushes. -/
def accepted (obs : List (Obs α)) : List (Call α) :=
  obs.filterMap fun | .pushed c => some c | _ => none

/-- The calls that returned `false`. -/
def refused (obs : List (Obs α)) : List (Call α) :=
  obs.filterMap fun | .refused c => some c | _ => none

/-- The calls that returned `true`. -/
def returned (obs : List (Obs α)) : List (Call α) :=
  obs.filterMap fun | .returned c => some c | _ => none

def dequeued (obs : List (Obs α)) : List (Call α) :=
  obs.filterMap fun | .dequeued c => some c | _ => none

variable (obs : List (Obs α)) (o : Obs α)

@[simp] theorem accepted_concat : accepted (obs ++ [o]) =
    accepted obs ++ match o with | .pushed c => [c] | _ => [] := by
  cases o <;> simp [accepted]

@[simp] theorem refused_concat : refused (obs ++ [o]) =
    refused obs ++ match o with | .refused c => [c] | _ => [] := by
  cases o <;> simp [refused]

@[simp] theorem returned_concat : returned (obs ++ [o]) =
    returned obs ++ match o with | .returned c => [c] | _ => [] := by
  cases o <;> simp [returned]

@[simp] theorem dequeued_concat : dequeued (obs ++ [o]) =
    dequeued obs ++ match o with | .dequeued c => [c] | _ => [] := by
  cases o <;> simp [dequeued]

end History

section Safety
variable {α P W : Type}

/-- A request waits, no credit is there to wake a worker for it, and no thread is on its way to
bring one or to take the request. -/
def Stranded (s : Pool α P W) : Prop :=
  s.workqueue ≠ [] ∧ s.queuestat = 0 ∧ (∀ p, (s.producer p).isPushed = false) ∧
    ∀ w, (s.worker w).isWoken = false

/-- The numbers of the calls tell apart what was accepted, what was refused and what is still to
be decided. -/
structure Numbered (obs : List (Obs α)) (s : Pool α P W) : Prop where
  distinct : ((accepted obs).map Call.id).Nodup
  apart : ∀ c ∈ refused obs, c.id ∉ (accepted obs).map Call.id
  decided : ∀ c, c ∈ accepted obs ∨ c ∈ refused obs → c.id < s.calls
  entered : ∀ p c, s.producer p = .entered c → c.id < s.calls ∧
    c.id ∉ (accepted obs).map Call.id ∧ c.id ∉ (refused obs).map Call.id
  alone : ∀ p p' c c', s.producer p = .entered c → s.producer p' = .entered c' → c.id = c'.id →
    p = p'

/-- What ties the queue and the semaphore to the history and to the threads. -/
structure Accounted [Fintype P] [Fintype W] (bound : Bound) (obs : List (Obs α))
    (s : Pool α P W) : Prop where
  fifo : accepted obs = dequeued obs ++ s.workqueue
  pushed : ∀ p c, s.producer p = .pushed c → c ∈ accepted obs
  granted : ∀ c ∈ returned obs, c ∈ accepted obs
  short : s.workqueue.length ≤ bound.val
  credit : s.workqueue.length ≤
    s.queuestat + count Producer.isPushed s.producer + count Worker.isWoken s.worker

variable [DecidableEq P] [DecidableEq W] {bound : Bound} {obs : List (Obs α)} {o : Obs α}
  {s s' : Pool α P W}

omit [DecidableEq P] [DecidableEq W] in
/-- Nothing is decided anew and no call is entered. -/
theorem Numbered.keep {obs' : List (Obs α)} (h : Numbered obs s)
    (ha : accepted obs' = accepted obs) (hr : refused obs' = refused obs)
    (hc : s'.calls = s.calls)
    (he : ∀ p c, s'.producer p = .entered c → s.producer p = .entered c) :
    Numbered obs' s' where
  distinct := ha ▸ h.distinct
  apart := by rw [ha, hr]; exact h.apart
  decided := by rw [ha, hr, hc]; exact h.decided
  entered p c hp := by rw [ha, hr, hc]; exact h.entered p c (he p c hp)
  alone p p' c c' hp hp' := h.alone p p' c c' (he p c hp) (he p' c' hp')

omit [DecidableEq W] in
/-- A producer that leaves its section enters no call. -/
private theorem entered_of_update {f : P → Producer α} {p p' : P} {x : Producer α} {c : Call α}
    (h : Function.update f p x p' = .entered c) (hx : ∀ c, x ≠ .entered c) :
    p' ≠ p ∧ f p' = .entered c := by
  rcases eq_or_ne p' p with rfl | hp
  · rw [Function.update_self] at h
    exact absurd h (hx c)
  · rw [Function.update_of_ne hp] at h
    exact ⟨hp, h⟩

omit [DecidableEq W] in
private theorem pushed_of_update {f : P → Producer α} {p p' : P} {x : Producer α} {c : Call α}
    (h : Function.update f p x p' = .pushed c) (hx : ∀ c, x ≠ .pushed c) : f p' = .pushed c := by
  rcases eq_or_ne p' p with rfl | hp
  · rw [Function.update_self] at h
    exact absurd h (hx c)
  · rwa [Function.update_of_ne hp] at h

omit [DecidableEq W] in
theorem Numbered.called (h : Numbered obs s) {p : P} (request : α) :
    Numbered obs { s with
      producer := Function.update s.producer p (.entered ⟨s.calls, request⟩)
      calls := s.calls + 1 } := by
  -- every number given so far is smaller
  have hfresh : ∀ p' c, p' ≠ p → s.producer p' = .entered c → c.id < s.calls :=
    fun p' c _ hc => (h.entered p' c hc).1
  have hnew : ∀ c, c ∈ accepted obs ∨ c ∈ refused obs → c.id ≠ s.calls :=
    fun c hc => (h.decided c hc).ne
  refine ⟨h.distinct, h.apart, fun c hc => (h.decided c hc).trans (Nat.lt_succ_self _),
    fun p' c hc => ?_, fun p' p'' c c' hc hc' hid => ?_⟩
  · rcases eq_or_ne p' p with rfl | hpp
    · simp only [Function.update_self, Producer.entered.injEq] at hc
      subst hc
      refine ⟨Nat.lt_succ_self _, fun hm => ?_, fun hm => ?_⟩
      · obtain ⟨c, hc, hid⟩ := List.mem_map.mp hm
        exact hnew c (Or.inl hc) hid
      · obtain ⟨c, hc, hid⟩ := List.mem_map.mp hm
        exact hnew c (Or.inr hc) hid
    · simp only [Function.update_of_ne hpp] at hc
      exact ⟨(hfresh p' c hpp hc).trans (Nat.lt_succ_self _), (h.entered p' c hc).2⟩
  · rcases eq_or_ne p' p with rfl | hp'
    · rcases eq_or_ne p'' p' with rfl | hp''
      · rfl
      · simp only [Function.update_self, Producer.entered.injEq, Function.update_of_ne hp'']
          at hc hc'
        subst hc
        exact absurd hid (hfresh p'' c' hp'' hc').ne'
    · rcases eq_or_ne p'' p with rfl | hp''
      · simp only [Function.update_self, Producer.entered.injEq, Function.update_of_ne hp']
          at hc hc'
        subst hc'
        exact absurd hid (hfresh p' c hp' hc).ne
      · simp only [Function.update_of_ne hp', Function.update_of_ne hp''] at hc hc'
        exact h.alone p' p'' c c' hc hc' hid

theorem Numbered.transition (h : Numbered obs s) (ht : Transition bound s o s') :
    Numbered (obs ++ [o]) s' := by
  cases ht with
  | idle => exact h.keep (by simp) (by simp) rfl fun _ _ hc => hc
  | called p request hp => exact (h.called request).keep (by simp) (by simp) rfl fun _ _ hc => hc
  | pushed p c hp hq =>
    obtain ⟨hlt, hacc, href⟩ := h.entered p c hp
    have hother : ∀ p' c', Function.update s.producer p (.pushed c) p' = .entered c' →
        s.producer p' = .entered c' ∧ c'.id ≠ c.id := fun p' c' hc => by
      obtain ⟨hpp, hc⟩ := entered_of_update hc fun _ => nofun
      exact ⟨hc, fun hid => hpp (h.alone p' p c' c hc hp hid)⟩
    refine ⟨?_, fun c' hc' => ?_, fun c' hc' => ?_, fun p' c' hc' => ?_,
      fun p' p'' c' c'' hc' hc'' => ?_⟩
    · rw [accepted_concat, List.map_append]
      exact List.nodup_append'.mpr ⟨h.distinct, by simp, by simpa using hacc⟩
    · simp only [refused_concat, List.append_nil] at hc'
      have hne : c'.id ≠ c.id := fun hid => href (hid ▸ List.mem_map_of_mem hc')
      simpa [hne] using h.apart c' hc'
    · simp only [accepted_concat, refused_concat, List.append_nil, List.mem_append,
        List.mem_singleton] at hc'
      rcases hc' with (hc' | rfl) | hc'
      · exact h.decided c' (Or.inl hc')
      · exact hlt
      · exact h.decided c' (Or.inr hc')
    · obtain ⟨hc', hne⟩ := hother p' c' hc'
      obtain ⟨hlt', hacc', href'⟩ := h.entered p' c' hc'
      exact ⟨hlt', by simpa [hne] using hacc', by simpa using href'⟩
    · exact h.alone p' p'' c' c'' (hother p' c' hc').1 (hother p'' c'' hc'').1
  | refused p c hp =>
    obtain ⟨hlt, hacc, href⟩ := h.entered p c hp
    have hother : ∀ p' c', Function.update s.producer p .idle p' = .entered c' →
        s.producer p' = .entered c' ∧ c'.id ≠ c.id := fun p' c' hc => by
      obtain ⟨hpp, hc⟩ := entered_of_update hc fun _ => nofun
      exact ⟨hc, fun hid => hpp (h.alone p' p c' c hc hp hid)⟩
    refine ⟨by simpa using h.distinct, fun c' hc' => ?_, fun c' hc' => ?_, fun p' c' hc' => ?_,
      fun p' p'' c' c'' hc' hc'' => ?_⟩
    · simp only [refused_concat, List.mem_append, List.mem_singleton] at hc'
      rcases hc' with hc' | rfl
      · simpa using h.apart c' hc'
      · simpa using hacc
    · simp only [accepted_concat, refused_concat, List.append_nil, List.mem_append,
        List.mem_singleton] at hc'
      rcases hc' with hc' | hc' | rfl
      · exact h.decided c' (Or.inl hc')
      · exact h.decided c' (Or.inr hc')
      · exact hlt
    · obtain ⟨hc', hne⟩ := hother p' c' hc'
      obtain ⟨hlt', hacc', href'⟩ := h.entered p' c' hc'
      exact ⟨hlt', by simpa using hacc', by simpa [hne] using href'⟩
    · exact h.alone p' p'' c' c'' (hother p' c' hc').1 (hother p'' c'' hc'').1
  | posted p c hp =>
    exact h.keep (by simp) (by simp) rfl fun _ _ hc => (entered_of_update hc fun _ => nofun).2
  | waited w n hw hn => exact h.keep (by simp) (by simp) rfl fun _ _ hc => hc
  | interrupted w hw => exact h.keep (by simp) (by simp) rfl fun _ _ hc => hc
  | missed w hw hq => exact h.keep (by simp) (by simp) rfl fun _ _ hc => hc
  | taken w c rest hw hq => exact h.keep (by simp) (by simp) rfl fun _ _ hc => hc
  | finished w c hw => exact h.keep (by simp) (by simp) rfl fun _ _ hc => hc

variable [Fintype P] [Fintype W]

/-- A post at the largest value of the semaphore is lost, but then there are credits for every
request that the queue can hold. -/
private theorem le_post {n a b : ℕ} (hn : n ≤ bound.val) (h : n ≤ a + (b + 1)) :
    n ≤ post a + b := by
  have := bound.int
  unfold post
  split_ifs <;> omega

theorem Accounted.transition (h : Accounted bound obs s) (ht : Transition bound s o s') :
    Accounted bound (obs ++ [o]) s' := by
  have hfifo := h.fifo
  have hcredit := h.credit
  cases ht with
  | idle => exact ⟨by simpa using hfifo, by simpa using h.pushed, by simpa using h.granted,
      h.short, hcredit⟩
  | called p request hp =>
    have hcount : count Producer.isPushed (Function.update s.producer p _) = _ :=
      count_stay (by rw [hp]; rfl) (show (Producer.entered ⟨s.calls, request⟩).isPushed = false
        from rfl)
    refine ⟨by simpa using hfifo, fun p' c hc => ?_, by simpa using h.granted, h.short, ?_⟩
    · simpa using h.pushed p' c (pushed_of_update hc fun _ => nofun)
    · simp only [hcount]
      exact hcredit
  | pushed p c hp hq =>
    have hcount : count Producer.isPushed (Function.update s.producer p _) = _ :=
      count_enter (by rw [hp]; rfl) (show (Producer.pushed c).isPushed = true from rfl)
    refine ⟨by simp [hfifo], fun p' c' hc' => ?_, fun c' hc' => ?_, by simpa using hq, ?_⟩
    · rcases eq_or_ne p' p with rfl | hpp
      · simp only [Function.update_self, Producer.pushed.injEq] at hc'
        simp [hc']
      · simp only [Function.update_of_ne hpp] at hc'
        simp [h.pushed p' c' hc']
    · have := h.granted c' (by simpa using hc')
      simp [this]
    · simp only [hcount, List.length_append, List.length_singleton]
      omega
  | refused p c hp =>
    have hcount : count Producer.isPushed (Function.update s.producer p _) = _ :=
      count_stay (by rw [hp]; rfl) (show (Producer.idle : Producer α).isPushed = false from rfl)
    refine ⟨by simpa using hfifo, fun p' c hc => ?_, by simpa using h.granted, h.short, ?_⟩
    · simpa using h.pushed p' c (pushed_of_update hc fun _ => nofun)
    · simp only [hcount]
      exact hcredit
  | posted p c hp =>
    have hcount : count Producer.isPushed (Function.update s.producer p _) + 1 = _ :=
      count_leave (by rw [hp]; rfl) (show (Producer.idle : Producer α).isPushed = false from rfl)
    refine ⟨by simpa using hfifo, fun p' c hc => ?_, fun c' hc' => ?_, h.short, ?_⟩
    · simpa using h.pushed p' c (pushed_of_update hc fun _ => nofun)
    · simp only [returned_concat, List.mem_append, List.mem_singleton] at hc'
      rcases hc' with hc' | rfl
      · simpa using h.granted c' hc'
      · simpa using h.pushed p c' hp
    · have := le_post (a := s.queuestat)
        (b := count Producer.isPushed (Function.update s.producer p .idle) +
          count Worker.isWoken s.worker) h.short (by omega)
      simp only
      omega
  | waited w n hw hn =>
    have hcount : count Worker.isWoken (Function.update s.worker w _) = _ :=
      count_enter (by rw [hw]; rfl) (show (Worker.woken : Worker α).isWoken = true from rfl)
    refine ⟨by simpa using hfifo, by simpa using h.pushed, by simpa using h.granted, h.short, ?_⟩
    simp only [hcount]
    omega
  | interrupted w hw =>
    have hcount : count Worker.isWoken (Function.update s.worker w _) = _ :=
      count_enter (by rw [hw]; rfl) (show (Worker.woken : Worker α).isWoken = true from rfl)
    refine ⟨by simpa using hfifo, by simpa using h.pushed, by simpa using h.granted, h.short, ?_⟩
    simp only [hcount]
    omega
  | missed w hw hq =>
    refine ⟨by simpa using hfifo, by simpa using h.pushed, by simpa using h.granted, h.short, ?_⟩
    simp only [hq, List.length_nil, Nat.zero_le]
  | taken w c rest hw hq =>
    have hcount : count Worker.isWoken (Function.update s.worker w _) + 1 = _ :=
      count_leave (by rw [hw]; rfl) (show (Worker.handling c).isWoken = false from rfl)
    have hshort := h.short
    rw [hq, List.length_cons] at hcredit hshort
    refine ⟨by simpa [hq] using hfifo, by simpa using h.pushed, by simpa using h.granted, ?_, ?_⟩
    · simp only
      omega
    · simp only
      omega
  | finished w c hw =>
    have hcount : count Worker.isWoken (Function.update s.worker w _) = _ :=
      count_stay (by rw [hw]; rfl) (show (Worker.waiting : Worker α).isWoken = false from rfl)
    refine ⟨by simpa using hfifo, by simpa using h.pushed, by simpa using h.granted, h.short, ?_⟩
    simp only [hcount]
    exact hcredit

omit [DecidableEq P] [DecidableEq W] in
theorem Accounted.not_stranded (h : Accounted bound obs s) : ¬ Stranded s := by
  rintro ⟨hq, hsem, hpushed, hwoken⟩
  have hlen := h.credit
  rw [hsem, count_eq_zero.mpr hpushed, count_eq_zero.mpr hwoken] at hlen
  exact hq (List.length_eq_zero_iff.mp (Nat.le_zero.mp hlen))

/-- Every run keeps the queue a bounded first-in first-out queue of the accepted calls, from which
no refused call is taken, and strands no request. -/
theorem queue_safety (bound : Bound) (evs : List (Event α P W)) :
    ∃ obs s, run (step bound) (new : Pool α P W) evs = some (obs, s) ∧
      ((accepted obs).map Call.id).Nodup ∧ dequeued obs <+: accepted obs ∧
      (∀ c ∈ returned obs, c ∈ accepted obs) ∧ (∀ c ∈ refused obs, c ∉ dequeued obs) ∧
      s.workqueue.length ≤ bound.val ∧ ¬ Stranded s := by
  obtain ⟨obs, s, hrun, -⟩ := run_invariant (I := fun _ => True)
    (fun s e _ _ => by
      obtain ⟨o, s', hstep, -⟩ := step_transition bound s e
      exact ⟨o, s', hstep, trivial⟩) trivial (allowed_trivial (new : Pool α P W) evs)
  have hnew : Numbered [] (new : Pool α P W) ∧ Accounted bound [] (new : Pool α P W) :=
    ⟨⟨List.nodup_nil, nofun, nofun, nofun, nofun⟩, ⟨rfl, nofun, nofun, Nat.zero_le _, Nat.zero_le _⟩⟩
  obtain ⟨hnum, hacc⟩ := run_history
    (I := fun obs s => Numbered obs s ∧ Accounted bound obs s)
    (fun obs s e o s' hI _ hstep => by
      obtain ⟨o', s'', hstep', ht⟩ := step_transition bound s e
      obtain ⟨rfl, rfl⟩ := Prod.mk.inj (Option.some.inj (hstep'.symm.trans hstep))
      exact ⟨hI.1.transition ht, hI.2.transition ht⟩) hnew (allowed_trivial _ evs) hrun
  rw [List.nil_append] at hnum hacc
  have hdeq : dequeued obs <+: accepted obs := ⟨s.workqueue, hacc.fifo.symm⟩
  exact ⟨obs, s, hrun, hnum.distinct, hdeq, hacc.granted, fun c hc hd =>
    hnum.apart c hc (List.mem_map_of_mem (hdeq.subset hd)), hacc.short, hacc.not_stranded⟩

end Safety

section Servers

/-- `append` of the cache server runs this section on its queue. -/
theorem cacheServer_append (s : CacheServer) (request : CacheServer.Request) :
    s.append request = ((pushBack CacheServer.maxRequests s.workqueue request).1,
      { s with workqueue := (pushBack CacheServer.maxRequests s.workqueue request).2 }) := by
  unfold CacheServer.append pushBack
  split_ifs <;> rfl

/-- `append` of the master runs it too. -/
theorem masterServer_append (s : Master.MasterServer) (request : Master.Request) :
    s.append request = ((pushBack Master.maxRequests s.workqueue request).1,
      { s with workqueue := (pushBack Master.maxRequests s.workqueue request).2 }) := by
  unfold Master.MasterServer.append pushBack
  split_ifs <;> rfl

end Servers
end DCache.WorkQueue
