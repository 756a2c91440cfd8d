import DCache.Cache.Locks
import DCache.Cache.Migration

/-! Writes while a move hands keys over. A move of `MOVE_DATA` holds the mutex of the writers; a move
of `RECOVER_BACKUP` works on the same table with another mutex, so nothing keeps the writers out. -/
namespace DCache.CacheThreads
open DCache.Lib
open CacheServer (moveMsg IsText Delivers)

/-- The thread that an event starts a move on. -/
def Event.mover : Event → Option ℕ
  | .moveData i _ | .recoverBackup i _ => some i
  | _ => none

section Policy

/-- The thread that moves knows `state` and marks keys while it holds the mutex that goes with it; no
other thread uses `state` or marks keys. -/
def handing : Policy where
  reads v := v.state ≠ none
  returns v state := v.state = some state
  writes v := v.state ≠ none ∧ v.held = ∅
  marks v _ := ∃ state, v.state = some state ∧ tableOf state ∈ v.held
  stores _ := True

theorem handing_steady (state : ℤ) : handing.Steady (some state) where
  reads _ := Option.some_ne_none state
  returns r r' h h' := by
    have hr : state = r := Option.some.inj h
    have hr' : state = r' := Option.some.inj h'
    rw [← hr, ← hr']
  writes r h hr := ⟨Option.some_ne_none state, rfl⟩
  marks r h := ⟨r, h, Set.mem_singleton _⟩

/-- The thread does not move, or does not hold the mutex that it moves with. -/
def Unarmed (v : View) : Prop := ∀ state, v.state = some state → tableOf state ∉ v.held

theorem not_pending_of_obeys {v : View} {c : Prog} (h : handing.Obeys v c) (hv : Unarmed v)
    (key : Str) : ¬ Pending key c := by
  induction c generalizing v with
  | done => exact not_marks_done
  | call op next ih =>
    obtain ⟨hallows, hnext⟩ := h
    rintro (rfl | ⟨r, hcut, hmay⟩)
    · obtain ⟨state, hstate, hheld⟩ := hallows
      exact hv state hstate hheld
    · have hsame : ∀ v', v' = v.after op → handing.Returned v op r → Unarmed v' → False := by
        rintro v' rfl hr hv'
        exact ih r (hnext r _ ⟨rfl, hr⟩) hv' hmay
      cases op with
      | lock t => exact hallows.2 key hmay
      | set t key' value => exact hallows.2 key hmay
      | readState => exact hallows.2 r key hmay
      | writeState state =>
        refine hsame _ rfl trivial fun state' _ hheld => ?_
        have hempty : v.held = ∅ := hallows.2
        change tableOf state' ∈ v.held at hheld
        rw [hempty] at hheld
        exact hheld
      | unlock t => exact hsame _ rfl trivial fun state hs hheld => hv state hs hheld.1
      | _ => exact hsame _ rfl trivial hv

end Policy

section Step
variable {cbHashfunc : Str → ℤ} {j : ℕ} {p p' : System} {e : Event} {o : Obs}

/-- The thread `j` knows `state`. -/
def knownTo (j : ℕ) (i : ℕ) (state : ℤ) : Option ℤ := if i = j then some state else none

theorem knownTo_ne_none {i : ℕ} {state : ℤ} (h : knownTo j i state ≠ none) : i = j := by
  by_contra hne
  exact h (if_neg hne)

/-- Only the thread `j` uses `state`. -/
theorem Disciplined.step_known {P : Policy} (hp : Disciplined P (knownTo j) p)
    (hreads : ∀ v, P.reads v → v.state ≠ none)
    (hreturns : ∀ v state, v.state = some state → P.returns v state)
    (hwrites : ∀ v, P.writes v → v.state ≠ none)
    (hstart : ∀ i c s, starts p.mem.server e = some (i, c, s) →
      P.Obeys ⟨∅, knownTo j i s.state⟩ c ∧ (i = j ∨ s.state = p.mem.server.state))
    (h : CacheThreads.step cbHashfunc p e = some (o, p')) : Disciplined P (knownTo j) p' := by
  have hothers : ∀ k ≠ j, ∀ state, knownTo j k state = none := fun k hk state => if_neg hk
  refine hp.step h (fun i c s hs => ?_) (fun i next he hcode => ?_) (fun i state hw => ?_)
  · obtain ⟨hobeys, hsame⟩ := hstart i c s hs
    refine ⟨hobeys, fun k hk => ?_⟩
    rcases hsame with rfl | hsame
    · rw [hothers k hk, hothers k hk]
    · rw [hsame]
  · have hi := hp i
    rw [hcode] at hi
    have hsome : knownTo j i p.mem.server.state ≠ none := hreads _ hi.1.1
    obtain rfl := knownTo_ne_none hsome
    exact hreturns _ _ (if_pos rfl)
  · obtain rfl : i = j := knownTo_ne_none (hwrites _ hw)
    refine ⟨?_, fun k hk => ?_⟩
    · rw [knownTo, knownTo, if_pos rfl, if_pos rfl]
      rfl
    · rw [hothers k hk, hothers k hk]

/-- Only the thread `j` moves. -/
theorem Disciplined.step_handing (hp : Disciplined handing (knownTo j) p)
    (hj : ∀ i, e.mover = some i → i = j) (h : CacheThreads.step cbHashfunc p e = some (o, p')) :
    Disciplined handing (knownTo j) p' := by
  refine hp.step_known (fun _ hv => hv) (fun _ _ hv => hv) ?_ (fun i c s hs => ?_) h
  · exact fun v hv => hv.1
  · rcases starts_cases hs with ⟨request, rest, sent, -, -, rfl, rfl⟩ | ⟨net, rfl, rfl, rfl⟩ |
      ⟨net, rfl, rfl, rfl⟩ | ⟨net, sent, ipPort, -, rfl, rfl⟩
    · exact ⟨obeys_handle (fun _ => trivial) request sent, Or.inr rfl⟩
    · obtain rfl := hj i rfl
      rw [knownTo, if_pos rfl]
      exact ⟨obeys_move (handing_steady _) _ net, Or.inl rfl⟩
    · obtain rfl := hj i rfl
      rw [knownTo, if_pos rfl]
      exact ⟨obeys_move (handing_steady _) _ net, Or.inl rfl⟩
    · exact ⟨obeys_update net sent ipPort, Or.inr rfl⟩

/-- No value is stored in `lru` while the thread that moves holds `lru_backup_mutex`. -/
def Guarded (j : ℕ) (p : System) : Event → Prop
  | .step i => ∀ key value next, p.code i = .call (.set .lru key value) next →
    p.mem.mutex .lruBackup ≠ some j
  | _ => True

/-- Who stores a value finds no key that is to be marked: `lru_mutex` keeps him out, or the thread
that moves holds the other mutex. -/
theorem not_pending_of_set (hp : Disciplined handing (knownTo j) p) {i : ℕ} {key value : Str}
    {next : Unit → Prog} (hg : Guarded j p (.step i))
    (hcode : p.code i = .call (.set .lru key value) next) (k : ℕ) : ¬ Pending key (p.code k) := by
  by_cases harmed : k = j ∧ tableOf p.mem.server.state ∈ held p.mem k
  · obtain ⟨rfl, hheld⟩ := harmed
    rw [tableOf] at hheld
    split_ifs at hheld with hs
    · -- the thread itself is about to store, and marks nothing
      have hmine := hp.set hcode
      obtain rfl : k = i := Option.some.inj (Eq.trans (Eq.symm hheld) hmine)
      have hi := hp k
      rw [hcode] at hi ⊢
      exact not_marks_call (by simp) fun _ _ => hi.1.2 key
    · exact absurd hheld (hg key value next hcode)
  · refine not_pending_of_obeys (hp k) (fun state hstate hheld => harmed ?_) key
    have hsome : knownTo j k p.mem.server.state = some state := hstate
    have hk : k = j := knownTo_ne_none (by rw [hsome]; exact Option.some_ne_none _)
    rw [knownTo, if_pos hk] at hsome
    obtain rfl := Option.some.inj hsome
    exact ⟨hk, hheld⟩

/-- What a thread may mark after an event it may mark before it, or the event meets `cut`. -/
theorem marks_of_step {cut : Op → Prop} {key : Str} {k : ℕ} (hcut : Cuts cut key)
    (h : CacheThreads.step cbHashfunc p e = some (o, p')) (hk : MarksWithout cut key (p'.code k)) :
    MarksWithout cut key (p.code k) ∨ ∃ a, o = .acted k a ∧ cut a.op := by
  cases step_cases h with
  | idle => exact Or.inl hk
  | appended request hroom => exact Or.inl hk
  | @started _ i c server hs hdone =>
    by_cases hki : k = i
    · subst hki
      simp only [Function.update_self] at hk
      exact absurd hk (not_marks_of_starts hcut hs)
    · simp only [Function.update_of_ne hki] at hk
      exact Or.inl hk
  | @acted i op next r m hcode hop =>
    by_cases hki : k = i
    · subst hki
      simp only [Function.update_self] at hk
      by_cases hop : cut op
      · exact Or.inr ⟨⟨op, r⟩, rfl, hop⟩
      · left
        rw [hcode]
        exact Code.May.of_next hk hop
    · simp only [Function.update_of_ne hki] at hk
      exact Or.inl hk

/-- A thread that marks a key later, and does not read it before, has it to mark now. -/
theorem pending_of_run {es : List Event} {obs rest : List Obs} {key : Str} {u : Unit}
    (h : run (CacheThreads.step cbHashfunc) p es =
      some (obs ++ .acted j ⟨.setDirty .lru key, u⟩ :: rest, p'))
    (hread : ∀ value, .acted j ⟨.get .lru key, value⟩ ∉ obs) : Pending key (p.code j) := by
  induction obs generalizing p es with
  | nil =>
    obtain ⟨e, es', p₁, rfl, he, -⟩ := run_uncons h
    cases step_cases he with
    | acted hcode hop =>
      rw [hcode]
      exact Or.inl rfl
  | cons o obs ih =>
    obtain ⟨e, es', p₁, rfl, he, hrest⟩ := run_uncons h
    have hpending := ih hrest fun value hv => hread value (List.mem_cons_of_mem _ hv)
    rcases marks_of_step (cuts_get key) he hpending with hp | ⟨⟨op, r⟩, rfl, hop⟩
    · exact hp
    · obtain rfl : op = .get .lru key := hop
      exact absurd List.mem_cons_self (hread r)

/-- From the read of a key to its mark no value is stored under it. -/
theorem not_stored_between {s : CacheServer} {es : List Event} {obs b c : List Obs} {key : Str}
    {u : Unit} (hes : ∀ e ∈ es, ∀ i, e.mover = some i → i = j)
    (ha : Allowed (CacheThreads.step cbHashfunc) (Guarded j) (idle s) es)
    (h : run (CacheThreads.step cbHashfunc) (idle s) es =
      some (obs ++ (b ++ .acted j ⟨.setDirty .lru key, u⟩ :: c), p))
    (hread : ∀ value, .acted j ⟨.get .lru key, value⟩ ∉ b) {i : ℕ} {value : Str} {u' : Unit} :
    .acted i ⟨.set .lru key value, u'⟩ ∉ b := by
  intro hmem
  obtain ⟨b₁, b₂, rfl⟩ := List.append_of_mem hmem
  have hsplit : obs ++ (b₁ ++ .acted i ⟨.set .lru key value, u'⟩ :: b₂ ++
      .acted j ⟨.setDirty .lru key, u⟩ :: c) = (obs ++ b₁) ++ .acted i ⟨.set .lru key value, u'⟩ ::
        (b₂ ++ .acted j ⟨.setDirty .lru key, u⟩ :: c) := by simp
  rw [hsplit] at h
  obtain ⟨es₁, e, es₂, p₁, p₂, rfl, h₁, he, h₂⟩ := run_split h
  have hlater : Pending key (p₂.code j) := pending_of_run h₂ fun v hv =>
    hread v (List.mem_append_right _ (List.mem_cons_of_mem _ hv))
  have hpending : Pending key (p₁.code j) := by
    rcases marks_of_step (cuts_get key) he hlater with hp | ⟨⟨op, r⟩, ho, hop⟩
    · exact hp
    · obtain rfl : op = .get .lru key := hop
      cases ho
  have hdisc : Disciplined handing (knownTo j) p₁ := run_kept
    (fun _ _ _ _ hp he hstep => hp.step_handing he.1 hstep) (disciplined_idle s)
    (ha.and hes).of_append h₁
  cases step_cases he with
  | acted hcode hop => exact not_pending_of_set hdisc (ha.at_event h₁) hcode j hpending

end Step

section HandOff
variable {cbHashfunc : Str → ℤ} {j : ℕ} {p p' : System} {e : Event} {o : Obs} {obs : List Obs}

/-- The thread has read this value of the key. -/
def HasRead (j : ℕ) (key value : Str) (obs : List Obs) : Prop :=
  .acted j ⟨.get .lru key, value⟩ ∈ obs

/-- The thread has sent the message of the key. -/
def HasSent (j : ℕ) (key : Str) (obs : List Obs) : Prop :=
  ∃ cfd, .acted j ⟨.sysCall (.send cfd (moveMsg key) true), ()⟩ ∈ obs

/-- What the thread that moves has read and sent of the keys that it is about to mark, and of those
that are marked. -/
structure Handing (j : ℕ) (obs : List Obs) (p : System) : Prop where
  read : ∀ key, Pending key (p.code j) → ∃ value, HasRead j key value obs ∧
    ∀ e, LRU.find p.mem.server.lru.entries key = some e → e.val = value
  sent : ∀ key, MarksWithout (Sends key) key (p.code j) → HasSent j key obs
  dirty : ∀ key e, LRU.find p.mem.server.lru.entries key = some e → e.dirty = true →
    HasRead j key e.val obs ∧ HasSent j key obs

theorem HasRead.concat {key value : Str} (h : HasRead j key value obs) (o : Obs) :
    HasRead j key value (obs ++ [o]) := List.mem_append_left _ h

theorem HasSent.concat {key : Str} (h : HasSent j key obs) (o : Obs) : HasSent j key (obs ++ [o]) := by
  obtain ⟨cfd, hmem⟩ := h
  exact ⟨cfd, List.mem_append_left _ hmem⟩

theorem handing_idle {s : CacheServer} (hclean : ∀ key, s.lru.isDirty key = false) :
    Handing j [] (idle s) where
  read key h := absurd h not_marks_done
  sent key h := absurd h not_marks_done
  dirty key e he hd := by
    have hkey := hclean key
    rw [LRU.Cache.isDirty_eq] at hkey
    have hfind : LRU.find s.lru.entries key = some e := he
    rw [hfind, Option.any_some, hd] at hkey
    cases hkey

/-- The entries of `lru` do not change. -/
theorem Handing.of_same (hp : Handing j obs p) (h : CacheThreads.step cbHashfunc p e = some (o, p'))
    (hsame : p'.mem.server.lru = p.mem.server.lru) (hidle : ∀ a, o ≠ .acted j a) :
    Handing j (obs ++ [o]) p' where
  read key hk := by
    rcases marks_of_step (cuts_get key) h hk with hk | ⟨a, ho, -⟩
    · obtain ⟨value, hread, hval⟩ := hp.read key hk
      rw [hsame]
      exact ⟨value, hread.concat o, hval⟩
    · exact absurd ho (hidle a)
  sent key hk := by
    rcases marks_of_step (cuts_sends key) h hk with hk | ⟨a, ho, -⟩
    · exact (hp.sent key hk).concat o
    · exact absurd ho (hidle a)
  dirty key e he hd := by
    rw [hsame] at he
    exact ⟨(hp.dirty key e he hd).1.concat o, (hp.dirty key e he hd).2.concat o⟩

theorem Handing.step (hp : Handing j obs p) (hdisc : Disciplined handing (knownTo j) p)
    (hg : Guarded j p e) (h : CacheThreads.step cbHashfunc p e = some (o, p')) :
    Handing j (obs ++ [o]) p' := by
  cases step_cases h with
  | idle => exact hp.of_same h rfl fun a ha => by cases ha
  | appended request hroom => exact hp.of_same h rfl fun a ha => by cases ha
  | @started _ i c server hs hdone =>
    exact hp.of_same h (table_of_starts hs .lru) fun a ha => by cases ha
  | @acted i op next r m hcode hop =>
    have hfind := fun key => find_of_perform hop .lru key
    simp only [table] at hfind
    refine ⟨fun key hk => ?_, fun key hk => ?_, fun key e he hd => ?_⟩
    · rcases marks_of_step (cuts_get key) h hk with hbefore | ⟨a, ho, hget⟩
      · -- the key was to be marked before, so nothing is stored under it
        obtain ⟨value, hread, hval⟩ := hp.read key hbefore
        refine ⟨value, hread.concat _, fun e he => ?_⟩
        rcases hfind key with hf | ⟨value', rfl, -⟩ | ⟨key', value', -, -, hf⟩ | ⟨-, hf⟩
        · rw [hf] at he
          exact hval e he
        · exact absurd hbefore (not_pending_of_set hdisc hg hcode j)
        · rw [hf] at he
          cases he
        · rw [hf] at he
          obtain ⟨e', he', rfl⟩ := Option.map_eq_some_iff.mp he
          exact hval e' he'
      · obtain ⟨rfl, rfl⟩ := Obs.acted.inj ho
        obtain rfl : op = .get .lru key := hget
        obtain ⟨c, hc, rfl⟩ := of_perform_get hop
        obtain ⟨⟨b, hentry⟩, hkeep⟩ := LRU.Cache.of_get _ _ _ hc
        refine ⟨r, List.mem_append_right _ (List.mem_singleton_self _), fun e he => ?_⟩
        have hcur : LRU.find c.entries key = some e := he
        rw [hkeep, hentry] at hcur
        rw [← Option.some.inj hcur]
    · rcases marks_of_step (cuts_sends key) h hk with hk | ⟨a, ho, cfd, hsend⟩
      · exact (hp.sent key hk).concat _
      · obtain ⟨rfl, rfl⟩ := Obs.acted.inj ho
        obtain rfl : op = .sysCall (.send cfd (moveMsg key) true) := hsend
        exact ⟨cfd, List.mem_append_right _ (List.mem_singleton_self _)⟩
    · rcases hfind key with hf | ⟨value', -, hf⟩ | ⟨key', value', -, -, hf⟩ | ⟨rfl, hf⟩
      · rw [hf] at he
        exact ⟨(hp.dirty key e he hd).1.concat _, (hp.dirty key e he hd).2.concat _⟩
      · rw [hf] at he
        obtain rfl := Option.some.inj he
        cases hd
      · rw [hf] at he
        cases he
      · -- only the thread that moves marks keys
        have hi := hdisc i
        rw [hcode] at hi
        obtain ⟨state, hstate, -⟩ := hi.1
        have hknown : knownTo j i p.mem.server.state = some state := hstate
        obtain rfl : i = j := knownTo_ne_none (by rw [hknown]; exact Option.some_ne_none _)
        rw [hf] at he
        obtain ⟨e', he', rfl⟩ := Option.map_eq_some_iff.mp he
        have hpending : Pending key (p.code i) := by
          rw [hcode]
          exact Or.inl rfl
        have hsend : MarksWithout (Sends key) key (p.code i) := by
          rw [hcode]
          exact Or.inl rfl
        obtain ⟨value, hread, hval⟩ := hp.read key hpending
        rw [← hval e' he'] at hread
        exact ⟨hread.concat _, (hp.sent key hsend).concat _⟩

/-- Where all moves run one after another, and no value is stored in `lru` while a move holds
`lru_backup_mutex`: no value is stored between the read of a key and its mark, and a dirty key has
the value that was stored last, which was read before the key was sent. The message delivers that
value if and only if it is empty and a line can carry the key. -/
theorem handed_off_of_run {s : CacheServer} {es : List Event}
    (hclean : ∀ key, s.lru.isDirty key = false)
    (hes : ∀ e ∈ es, ∀ i, e.mover = some i → i = j)
    (ha : Allowed (CacheThreads.step cbHashfunc) (Guarded j) (idle s) es)
    (h : run (CacheThreads.step cbHashfunc) (idle s) es = some (obs, p)) :
    (∀ key value a b c, obs = a ++ .acted j ⟨.get .lru key, value⟩ ::
        (b ++ .acted j ⟨.setDirty .lru key, ()⟩ :: c) →
      (∀ value', .acted j ⟨.get .lru key, value'⟩ ∉ b) →
        ∀ i value', .acted i ⟨.set .lru key value', ()⟩ ∉ b) ∧
    ∀ key e, LRU.find p.mem.server.lru.entries key = some e → e.dirty = true →
      lastStored s key obs = some e.val ∧ HasRead j key e.val obs ∧ HasSent j key obs ∧
        (Delivers (moveMsg key) key e.val ↔ e.val = [] ∧ IsText key) := by
  constructor
  · intro key value a b c hobs hread i value'
    have hsplit : obs = (a ++ [.acted j ⟨.get .lru key, value⟩]) ++
        (b ++ .acted j ⟨.setDirty .lru key, ()⟩ :: c) := by simp [hobs]
    rw [hsplit] at h
    exact not_stored_between hes ha h hread
  · intro key e he hd
    obtain ⟨hdisc, hrec, hhand⟩ := run_history
      (I := fun obs p => Disciplined handing (knownTo j) p ∧ Recorded s obs p ∧ Handing j obs p)
      (fun _ _ _ _ _ hI hok hstep => ⟨hI.1.step_handing hok.1 hstep, hI.2.1.step hstep,
        hI.2.2.step hI.1 hok.2 hstep⟩)
      ⟨disciplined_idle s, recorded_idle s, handing_idle hclean⟩ (ha.and hes) h
    rw [List.nil_append] at hrec hhand
    obtain ⟨hread, hsent⟩ := hhand.dirty key e he hd
    refine ⟨hrec key e he, hread, hsent, ?_⟩
    rw [CacheServer.delivers_moveMsg, and_comm]

end HandOff

section Window

/-- A server with one pair in both tables, whose keys belong to another server. -/
def onePair : CacheServer :=
  { CacheServer.new with
    lru := CacheServer.new.lru.set (lit "k") (lit "v")
    lruBackup := CacheServer.new.lruBackup.set (lit "k") (lit "v")
    localAddr := lit "0.0.0.0:6000"
    cacheServerHash := ((Ring.ConHash.new.conhashAddCacheServer (fun _ => 0)
      (lit "10.0.0.2:6001")).getD .new) }

theorem isDirty_onePair (key : Str) : onePair.lru.isDirty key = false := by
  rw [LRU.Cache.isDirty_eq]
  by_cases hk : key = lit "k"
  · subst hk
    rfl
  · have hnew : LRU.find CacheServer.new.lru.entries key = none := rfl
    rcases CacheServer.new.lru.find_set_of_ne (lit "v") hk with hf | hf
    · change (LRU.find (CacheServer.new.lru.set (lit "k") (lit "v")).entries key).any _ = false
      rw [hf, hnew]
      rfl
    · change (LRU.find (CacheServer.new.lru.set (lit "k") (lit "v")).entries key).any _ = false
      rw [hf]
      rfl

def setW : CacheServer.Request := ⟨Code.setValue, [], lit "k", lit "w", 5⟩

/-- A move of `RECOVER_BACKUP` takes its list, a worker stores `w`, and the move goes on to its
end. -/
def storeFirst : List Event :=
  .append setW :: .recoverBackup 1 someNet :: .step 1 :: .step 1 :: .dequeue 2 true ::
    List.replicate 5 (.step 2) ++ List.replicate 13 (.step 1)

set_option maxRecDepth 4000 in
theorem handed_off_of_storeFirst : ∃ obs p,
    run (step fun _ => 0) (idle onePair) storeFirst = some (obs, p) ∧
    .acted 2 ⟨.set .lru (lit "k") (lit "w"), ()⟩ ∈ obs ∧
    LRU.find p.mem.server.lru.entries (lit "k") = some ⟨lit "k", lit "w", true⟩ ∧
    (∀ key value a b c, obs = a ++ .acted 1 ⟨.get .lru key, value⟩ ::
        (b ++ .acted 1 ⟨.setDirty .lru key, ()⟩ :: c) →
      (∀ value', .acted 1 ⟨.get .lru key, value'⟩ ∉ b) →
        ∀ i value', .acted i ⟨.set .lru key value', ()⟩ ∉ b) ∧
    ∀ key e, LRU.find p.mem.server.lru.entries key = some e → e.dirty = true →
      lastStored onePair key obs = some e.val ∧ HasRead 1 key e.val obs ∧ HasSent 1 key obs ∧
        (Delivers (moveMsg key) key e.val ↔ e.val = [] ∧ IsText key) := by
  have hes : ∀ e ∈ storeFirst, ∀ i, e.mover = some i → i = 1 := by
    simp [storeFirst, Event.mover]
  have hfree : ∀ (p : System) i, p.mem.mutex .lruBackup = none → Guarded 1 p (.step i) := by
    intro p i hp key value next _ hheld
    rw [hp] at hheld
    cases hheld
  have hother : ∀ (p : System) i op next, p.code i = .call op next →
      (∀ key value, op ≠ .set .lru key value) → Guarded 1 p (.step i) := by
    intro p i op next hp hop key value next' hcode
    rw [hp] at hcode
    cases hcode
    exact absurd rfl (hop key value)
  have ha : Allowed (step fun _ => 0) (Guarded 1) (idle onePair) storeFirst := by
    refine ⟨trivial, trivial, hfree _ _ rfl, hfree _ _ rfl, trivial, hfree _ _ rfl, hfree _ _ rfl,
      hfree _ _ rfl, hfree _ _ rfl, hfree _ _ rfl, hfree _ _ rfl, hother _ _ _ _ rfl ?_,
      hother _ _ _ _ rfl ?_, hother _ _ _ _ rfl ?_, hother _ _ _ _ rfl ?_, hother _ _ _ _ rfl ?_,
      hother _ _ _ _ rfl ?_, hother _ _ _ _ rfl ?_, hother _ _ _ _ rfl ?_, hother _ _ _ _ rfl ?_,
      hother _ _ _ _ rfl ?_, hfree _ _ rfl, hfree _ _ rfl, trivial⟩ <;> rintro _ _ ⟨⟩
  refine ⟨_, _, rfl, ?_, rfl, handed_off_of_run isDirty_onePair hes ha rfl⟩
  exact List.mem_of_getElem? (i := 8) rfl

set_option maxRecDepth 4000 in
/-- A move of `RECOVER_BACKUP` reads `v`, a worker stores `w`, and the key is marked. -/
theorem not_handed_off : ∃ obs p a b c,
    run (step fun _ => 0) (idle onePair) (.append setW :: .recoverBackup 1 someNet ::
      List.replicate 6 (.step 1) ++ .dequeue 2 true :: List.replicate 5 (.step 2) ++
      List.replicate 5 (.step 1)) = some (obs, p) ∧
    obs = a ++ .acted 1 ⟨.get .lru (lit "k"), lit "v"⟩ ::
      (b ++ .acted 1 ⟨.setDirty .lru (lit "k"), ()⟩ :: c) ∧
    (∀ value, .acted 1 ⟨.get .lru (lit "k"), value⟩ ∉ b) ∧
    .acted 2 ⟨.set .lru (lit "k") (lit "w"), ()⟩ ∈ b ∧
    LRU.find p.mem.server.lru.entries (lit "k") = some ⟨lit "k", lit "w", true⟩ := by
  refine ⟨_, _, [.appended setW, .started 1, .acted 1 ⟨.readState, (1 : ℤ)⟩,
      .acted 1 ⟨.lruKeysOneshot .lruBackup, [lit "k"]⟩, .acted 1 ⟨.lock .lruBackup, ()⟩,
      .acted 1 ⟨.sysCall (.socket 7), ()⟩, .acted 1 ⟨.hasKey .lru (lit "k"), true⟩],
    [.started 2, .acted 2 ⟨.lock .lru, ()⟩, .acted 2 ⟨.hasKey .lru (lit "k"), true⟩,
      .acted 2 ⟨.isDirty .lru (lit "k"), false⟩, .acted 2 ⟨.set .lru (lit "k") (lit "w"), ()⟩,
      .acted 2 ⟨.unlock .lru, ()⟩, .acted 1 ⟨.owner (lit "k"), lit "10.0.0.2:6001"⟩,
      .acted 1 ⟨.sysCall (.close 7), ()⟩, .acted 1 ⟨.sysCall (.connect 7
        (str2sockAddr ⟨0, 0, .any⟩ (lit "10.0.0.2:6001")) true), ()⟩,
      .acted 1 ⟨.sysCall (.send 7 (moveMsg (lit "k")) true), ()⟩], [], rfl, rfl, ?_, ?_, rfl⟩
  · intro value h
    simp only [List.mem_cons, List.not_mem_nil, or_false, reduceCtorEq, false_or,
      Obs.acted.injEq, OfNat.one_ne_ofNat, false_and, true_and] at h
    rcases h with h | h | h | h <;> cases congrArg Action.op h
  · simp

end Window
end DCache.CacheThreads
