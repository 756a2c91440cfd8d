import DCache.Cluster.Reading

/-! The read of a client ends with the stored value if the master names a server that holds it, and
the entry stays as it is there until the server has answered. -/
namespace DCache.Expansion
open DCache.Lib
open CacheServer (IsText wireName)
open CacheThreads (Op Prog Shared)

section Servers
variable {x : Setting} {value : Str} {s s' : System} {g : ℤ} {p p' : CacheThreads.System} {i : ℕ}

theorem setServer_self (s : System) (g : ℤ) (p : CacheThreads.System) :
    (s.setServer g p).server g = p := Function.update_self _ _ _

theorem setServer_of_ne {g' : ℤ} (hg : g' ≠ g) (p : CacheThreads.System) :
    (s.setServer g p).server g' = s.server g' := Function.update_of_ne hg _ _

/-- Every request for a value that waits in the queue is for the key. -/
def AsksFor (key : Str) (p : CacheThreads.System) : Prop :=
  ∀ request ∈ p.mem.server.workqueue, request.requestType = Code.getValue → request.key = key

/-- The invariant of a run. -/
structure Inv (x : Setting) (value : Str) (s : System) : Prop where
  promising : Promising x value s
  asksFor : ∀ g, AsksFor x.key (s.server g)

/-- An event of the servers that has no part in the read. -/
structure Quiet (x : Setting) (s s' : System) : Prop where
  master : s'.master = s.master
  read : s'.read = s.read
  frame : ∀ g, Frame x.key (s.server g) (s'.server g)
  asksFor : ∀ g, AsksFor x.key (s.server g) → AsksFor x.key (s'.server g)

theorem Quiet.inv (hs : Inv x value s) (h : Quiet x s s') : Inv x value s' := by
  refine ⟨hs.promising.frame h.read (fun i _ _ => ?_) h.frame, fun g => h.asksFor g (hs.asksFor g)⟩
  rw [h.master]

theorem Quiet.rfl : Quiet x s s := ⟨Eq.refl _, Eq.refl _, fun _ => Frame.rfl, fun _ h => h⟩

/-- Only the server `g` changes. -/
theorem Quiet.setServer (hf : Frame x.key (s.server g) p)
    (hq : AsksFor x.key (s.server g) → AsksFor x.key p) : Quiet x s (s.setServer g p) := by
  refine ⟨Eq.refl _, Eq.refl _, fun g' => ?_, fun g' => ?_⟩
  · by_cases hg : g' = g
    · rw [hg, setServer_self]
      exact hf
    · rw [setServer_of_ne hg]
      exact Frame.rfl
  · by_cases hg : g' = g
    · rw [hg, setServer_self]
      exact hq
    · rw [setServer_of_ne hg]
      exact id

theorem frame_spawn {key : Str} {server : CacheServer} {thread : Option CacheServer.Thread}
    {net : ℕ → CacheServer.Net} {sent : ℕ → Bool} (hdone : p.code i = .done)
    (hentry : LRU.find server.lru.entries key = LRU.find p.mem.server.lru.entries key) :
    Frame key p (spawn p server thread i net sent) := by
  refine ⟨hentry, fun j hj => ?_⟩
  cases thread with
  | none => rfl
  | some t =>
    refine Function.update_of_ne ?_ _ _
    rintro rfl
    exact hj hdone

theorem quiet_deliver {u : Unit} {net : ℕ → CacheServer.Net} {sent : ℕ → Bool}
    (h : deliver x s g i net sent = some (u, s')) : Quiet x s s' := by
  unfold deliver at h
  cases hp : s.pending g with
  | nil =>
    rw [hp] at h
    obtain ⟨-, rfl⟩ := Prod.mk.inj (Option.some.inj h)
    exact Quiet.rfl
  | cons msg msgs =>
    simp only [hp] at h
    split_ifs at h with hdone
    · obtain ⟨⟨ret, thread, server⟩, hmsg, ho⟩ := Option.map_eq_some_iff.mp h
      obtain ⟨-, rfl⟩ := Prod.mk.inj ho
      obtain ⟨c, state, rfl⟩ := CacheServer.of_dealwithMasterMsg hmsg
      let server := { (s.server g).mem.server with cacheServerHash := c, state := state }
      have hquiet : Quiet x s (s.setServer g (spawn (s.server g) server thread i net sent)) :=
        Quiet.setServer (frame_spawn (CacheThreads.isDone_iff.mp hdone) rfl) fun h => h
      exact ⟨hquiet.master, hquiet.read, hquiet.frame, hquiet.asksFor⟩
    · obtain ⟨-, rfl⟩ := Prod.mk.inj (Option.some.inj h)
      exact Quiet.rfl

theorem quiet_recv {cfd : ℤ} {bytes stale : Str}
    (hkey : CacheServer.untilNewline (bytes ++ stale) = some Code.getValue →
      (bytes.drop (Code.getValue.length + 1)).takeWhile (fun b => b ≠ newline) = x.key)
    (h : recv s g cfd bytes stale = some s') : Quiet x s s' := by
  obtain ⟨⟨ret, server⟩, hmsg, rfl⟩ := Option.map_eq_some_iff.mp h
  obtain ⟨map, q, rfl, hq⟩ := CacheServer.of_dealwithClientMsg _ cfd stale hmsg
  refine Quiet.setServer ⟨rfl, fun _ _ => rfl⟩ fun hasks request hrequest htype => ?_
  rcases List.mem_append.mp hrequest with hmem | hmem
  · exact hasks request hmem htype
  · rcases hq with rfl | ⟨bytes', r, hbytes, rfl, hopt, hk, -⟩
    · cases hmem
    · obtain rfl := List.mem_singleton.mp hmem
      cases hbytes
      rw [htype] at hopt hk
      rw [hk]
      exact hkey hopt

/-- The client sends its request to the first of the addresses. -/
theorem Inv.get {addr : Str} {addrs : List Str} {cfd : ℤ} {stale : Str} (hkey : IsText x.key)
    (hs : Inv x value s) (hread : s.read = .reading (addr :: addrs))
    (h : recv s (x.host addr) cfd (getMsg x.key) stale = some s') :
    Inv x value { s' with read := .waiting addr addrs } := by
  have hopt : newline ∉ Code.getValue := by decide
  have hmsg : getMsg x.key = Code.getValue ++ newline :: x.key := by
    rw [getMsg, cstr_eq_self.mpr hkey.2]
  have hquiet : Quiet x s s' := by
    refine quiet_recv (fun _ => ?_) h
    rw [hmsg, drop_line]
    exact takeWhile_of_notMem hkey.1
  have hs' := hquiet.inv hs
  have hpromising := hs'.promising
  unfold Promising at hpromising
  rw [hquiet.read, hread] at hpromising
  exact ⟨hpromising, hs'.asksFor⟩

/-- All that a worker can do which is to take a request. -/
theorem of_dequeue {cbHashfunc : Str → ℤ} {o : CacheThreads.Obs} {sent : Bool}
    (h : CacheThreads.step cbHashfunc p (.dequeue i sent) = some (o, p')) :
    (p' = p ∧ (p.mem.server.workqueue = [] ∨ ¬ CacheThreads.isDone (p.code i) = true)) ∨
    ∃ request rest, p.mem.server.workqueue = request :: rest ∧
      CacheThreads.isDone (p.code i) = true ∧
      p' = ⟨{ p.mem with server := { p.mem.server with workqueue := rest } },
        Function.update p.code i (CacheThreads.handle request sent)⟩ := by
  cases hq : p.mem.server.workqueue with
  | nil =>
    simp only [CacheThreads.step, CacheThreads.starts, hq] at h
    exact Or.inl ⟨(congrArg Prod.snd (Option.some.inj h)).symm, Or.inl rfl⟩
  | cons request rest =>
    simp only [CacheThreads.step, CacheThreads.starts, hq] at h
    by_cases hdone : CacheThreads.isDone (p.code i) = true
    · rw [if_pos hdone] at h
      exact Or.inr ⟨request, rest, rfl, hdone, (congrArg Prod.snd (Option.some.inj h)).symm⟩
    · rw [if_neg hdone] at h
      exact Or.inl ⟨(congrArg Prod.snd (Option.some.inj h)).symm, Or.inr hdone⟩

theorem Read.afterDequeue_eq {r : Read}
    (h : p.mem.server.workqueue = [] ∨ ¬ CacheThreads.isDone (p.code i) = true) :
    r.afterDequeue x g i p = r := by
  cases r with
  | waiting addr addrs =>
    cases hq : p.mem.server.workqueue with
    | nil => simp only [Read.afterDequeue, hq]
    | cons request rest =>
      rw [hq] at h
      have hbusy : ¬ CacheThreads.isDone (p.code i) = true := h.resolve_left (List.cons_ne_nil _ _)
      simp only [Read.afterDequeue, hq]
      exact if_neg fun h => hbusy h.1
  | _ => rfl

theorem Read.afterDequeue_cases {r : Read} {request : CacheServer.Request}
    {rest : List CacheServer.Request} (hq : p.mem.server.workqueue = request :: rest) :
    r.afterDequeue x g i p = r ∨ ∃ addr addrs, r = .waiting addr addrs ∧
      request.requestType = Code.getValue ∧ x.host addr = g ∧
        r.afterDequeue x g i p = .served i addr addrs := by
  cases r with
  | waiting addr addrs =>
    simp only [Read.afterDequeue, hq]
    split_ifs with h
    · exact Or.inr ⟨addr, addrs, rfl, h.2.1, h.2.2, rfl⟩
    · exact Or.inl rfl
  | _ => exact Or.inl rfl

/-- A worker of a server takes a request, which may be that of the client. -/
theorem Inv.dequeue {o : CacheThreads.Obs} {sent : Bool} (hs : Inv x value s)
    (h : CacheThreads.step x.cbHashfunc (s.server g) (.dequeue i sent) = some (o, p')) :
    Inv x value { s.setServer g p' with read := s.read.afterDequeue x g i (s.server g) } := by
  rcases of_dequeue h with ⟨rfl, hidle⟩ | ⟨request, rest, hq, hdone, hp'⟩
  · rw [Read.afterDequeue_eq hidle]
    have hquiet : Quiet x s (s.setServer g (s.server g)) := Quiet.setServer Frame.rfl id
    exact hquiet.inv hs
  · have hcode : p'.code = Function.update (s.server g).code i (CacheThreads.handle request sent) :=
      congrArg Pool.code hp'
    have hserver : p'.mem.server = { (s.server g).mem.server with workqueue := rest } :=
      congrArg (fun p => p.mem.server) hp'
    have hquiet : Quiet x s (s.setServer g p') := by
      refine Quiet.setServer ⟨?_, fun j hj => ?_⟩ fun hasks r hr => ?_
      · rw [hserver]
      · rw [hcode]
        refine Function.update_of_ne ?_ _ _
        rintro rfl
        exact hj (CacheThreads.isDone_iff.mp hdone)
      · rw [hserver] at hr
        exact hasks r (by rw [hq]; exact List.mem_cons_of_mem _ hr)
    have hs' := hquiet.inv hs
    refine ⟨?_, hs'.asksFor⟩
    have hpromising := hs'.promising
    rcases Read.afterDequeue_cases (x := x) (g := g) (i := i) (r := s.read) hq with hread |
      ⟨addr, addrs, hread, htype, rfl, hserved⟩
    · rw [hread]
      exact hpromising
    · have hkey : request.key = x.key :=
        hs.asksFor _ request (by rw [hq]; exact List.mem_cons_self) htype
      have hset : Code.getValue ≠ Code.setValue := by decide
      have hhandle : CacheThreads.handle request sent =
          CacheThreads.getValue x.key request.cfd sent := by
        rw [CacheThreads.handle, htype, if_neg hset, if_pos rfl, hkey]
      unfold Promising at hpromising
      rw [hquiet.read, hread] at hpromising
      rw [hserved]
      refine Stage.start request.cfd sent ?_ hpromising
      change ((s.setServer (x.host addr) p').server (x.host addr)).code i = _
      rw [setServer_self, hcode, Function.update_self, hhandle]

theorem success_ne (value : Str) :
    success value ≠ Code.dirtyData ∧ success value ≠ Code.dataNotExist := by
  have hline : newline ∈ success value := List.mem_append_right _ List.mem_cons_self
  have hdirty : newline ∉ Code.dirtyData := by decide
  have hexist : newline ∉ Code.dataNotExist := by decide
  exact ⟨fun h => hdirty (h ▸ hline), fun h => hexist (h ▸ hline)⟩

/-- Only what the worker of the client sends ends the read. -/
theorem Read.afterStep_eq {o : CacheThreads.Obs} {r : Read}
    (h : ∀ j call res addr addrs, o = .acted j ⟨.sysCall call, res⟩ → r = .served j addr addrs →
      x.host addr ≠ g) : r.afterStep x g o = r := by
  unfold Read.afterStep
  split
  · apply if_neg
    rintro ⟨rfl, hg⟩
    exact h _ _ _ _ _ rfl rfl hg
  · rfl

section Acted
variable {op : Op} {next : op.Res → Prog} {r : op.Res} {m : Shared}

theorem asksFor_acted {key : Str} {code : ℕ → Prog} (hq : AsksFor key p)
    (hop : CacheThreads.perform x.cbHashfunc i op p.mem = .ok r m) : AsksFor key ⟨m, code⟩ := by
  intro request hrequest
  obtain ⟨-, -, hqueue⟩ := CacheThreads.frame_of_perform hop
  exact hq request (hqueue ▸ hrequest)

/-- A server on which the read rests keeps its entry. -/
theorem Clean.server {addr : Str} (hc : Clean x.key value (s.server (x.host addr)))
    (hcode : (s.server g).code i = .call op next)
    (hop : CacheThreads.perform x.cbHashfunc i op (s.server g).mem = .ok r m)
    (hpos : Possible x s (.step g i)) (hu : Undisturbed x value s (.step g i))
    (hrelies : ∀ target, x.host addr = g → Relies x s g target) :
    Clean x.key value ((s.setServer g ⟨m, Function.update (s.server g).code i (next r)⟩).server
      (x.host addr)) := by
  by_cases hg : x.host addr = g
  · rw [hg] at hc
    rw [hg, setServer_self]
    refine hc.acted hop ?_ ?_ ?_
    · rintro rfl
      exact hu.1 next hcode (hrelies _ hg)
    · rintro value' rfl
      exact hu.2 value' next hcode (hrelies _ hg)
    · exact hpos _ _ (CacheThreads.step_acted hcode hop)
  · rw [setServer_of_ne hg]
    exact hc

theorem promising_served {addr : Str} {addrs : List Str} (hread : s.read = .served i addr addrs)
    (h : Stage x.key value (s.server (x.host addr)) i) : Promising x value s := by
  unfold Promising
  rw [hread]
  exact h

/-- The worker that has the client's request goes on. -/
theorem Stage.server_own {p : CacheThreads.System} {addr : Str} {addrs : List Str}
    {next : op.Res → Prog} {r : op.Res} (hvalue : 0 ∉ value) (hs : Stage x.key value p i)
    (hcode : p.code i = .call op next)
    (hop : CacheThreads.perform x.cbHashfunc i op p.mem = .ok r m) :
    (Read.afterStep x (x.host addr) (.acted i ⟨op, r⟩) (.served i addr addrs) =
        .served i addr addrs ∧ Stage x.key value ⟨m, Function.update p.code i (next r)⟩ i) ∨
    Read.afterStep x (x.host addr) (.acted i ⟨op, r⟩) (.served i addr addrs) =
      .ended (success value) := by
  rcases hs.own hvalue hcode hop with ⟨hstage, hcall⟩ | ⟨cfd, sent, rfl⟩
  · refine Or.inl ⟨Read.afterStep_eq ?_, hstage⟩
    rintro j call res addr addrs ⟨⟩
    exact absurd rfl (hcall call)
  · obtain ⟨hdirty, hexist⟩ := success_ne value
    refine Or.inr ((if_pos ⟨rfl, rfl⟩).trans (if_neg ?_))
    rintro (h | h)
    · exact hdirty h
    · exact hexist h

/-- The worker that has the client's request goes on, or another thread of its server. -/
theorem Stage.server {j : ℕ} {addr : Str} {addrs : List Str} (hvalue : 0 ∉ value)
    (hread : s.read = .served j addr addrs) (hs : Stage x.key value (s.server (x.host addr)) j)
    (hcode : (s.server (x.host addr)).code i = .call op next)
    (hop : CacheThreads.perform x.cbHashfunc i op (s.server (x.host addr)).mem = .ok r m)
    (hpos : Possible x s (.step (x.host addr) i))
    (hu : Undisturbed x value s (.step (x.host addr) i)) :
    (Read.afterStep x (x.host addr) (.acted i ⟨op, r⟩) (.served j addr addrs) =
        .served j addr addrs ∧
      Stage x.key value ⟨m, Function.update (s.server (x.host addr)).code i (next r)⟩ j) ∨
    Read.afterStep x (x.host addr) (.acted i ⟨op, r⟩) (.served j addr addrs) =
      .ended (success value) := by
  by_cases hij : i = j
  · subst hij
    exact hs.server_own hvalue hcode hop
  · have hrelies : ∀ target, ((s.server (x.host addr)).code j).May target (fun _ _ => False) →
        Relies x s (x.host addr) target := by
      intro target hmay
      unfold Relies
      rw [hread]
      exact ⟨rfl, hmay⟩
    refine Or.inl ⟨Read.afterStep_eq ?_, hs.acted (Ne.symm hij) hop ?_ ?_ ?_⟩
    · rintro j' call res addr' addrs' ⟨⟩ ⟨⟩
      exact absurd rfl hij
    · rintro hmay rfl
      exact hu.1 next hcode (hrelies _ hmay)
    · rintro hmay value' rfl
      exact hu.2 value' next hcode (hrelies _ hmay)
    · exact hpos _ _ (CacheThreads.step_acted hcode hop)

theorem Promising.acted (hvalue : 0 ∉ value) (hp : Promising x value s)
    (hcode : (s.server g).code i = .call op next)
    (hop : CacheThreads.perform x.cbHashfunc i op (s.server g).mem = .ok r m)
    (hpos : Possible x s (.step g i)) (hu : Undisturbed x value s (.step g i)) :
    Promising x value
      { s.setServer g ⟨m, Function.update (s.server g).code i (next r)⟩ with
        read := s.read.afterStep x g (.acted i ⟨op, r⟩) } := by
  have hkeep : (∀ j addr addrs, s.read ≠ .served j addr addrs) →
      s.read.afterStep x g (.acted i ⟨op, r⟩) = s.read := fun hne =>
    Read.afterStep_eq fun j _ _ addr addrs _ hr => absurd hr (hne j addr addrs)
  unfold Promising at hp
  cases hr : s.read with
  | named j addr =>
    rw [hr] at hp hkeep
    rw [hkeep nofun]
    refine ⟨hp.1, hp.2.server hcode hop hpos hu fun target hg => ?_⟩
    unfold Relies
    rw [hr]
    exact hg
  | reading addrs =>
    rw [hr] at hp hkeep
    rw [hkeep nofun]
    cases addrs with
    | nil => exact hp
    | cons addr addrs =>
      refine Clean.server hp hcode hop hpos hu fun target hg => ?_
      unfold Relies
      rw [hr]
      exact hg
  | waiting addr addrs =>
    rw [hr] at hp hkeep
    rw [hkeep nofun]
    refine Clean.server hp hcode hop hpos hu fun target hg => ?_
    unfold Relies
    rw [hr]
    exact hg
  | served j addr addrs =>
    rw [hr] at hp
    by_cases hg : x.host addr = g
    · subst hg
      rcases Stage.server hvalue hr hp hcode hop hpos hu with ⟨hread, hstage⟩ | hread
      · apply promising_served hread
        change Stage x.key value ((s.setServer (x.host addr) _).server (x.host addr)) j
        rw [setServer_self]
        exact hstage
      · rw [hread]
        exact Eq.refl _
    · have hread : Read.afterStep x g (.acted i ⟨op, r⟩) (.served j addr addrs) =
          .served j addr addrs := by
        apply Read.afterStep_eq
        rintro j' call res addr' addrs' - ⟨⟩
        exact hg
      apply promising_served hread
      change Stage x.key value ((s.setServer g _).server (x.host addr)) j
      rw [setServer_of_ne hg]
      exact hp
  | _ =>
    rw [hr] at hp hkeep
    rw [hkeep nofun]
    exact hp

end Acted

/-- A thread of a server goes on. -/
theorem Inv.acted {o : CacheThreads.Obs} (hvalue : 0 ∉ value) (hs : Inv x value s)
    (hpos : Possible x s (.step g i)) (hu : Undisturbed x value s (.step g i))
    (h : CacheThreads.step x.cbHashfunc (s.server g) (.step i) = some (o, p')) :
    Inv x value { s.setServer g p' with read := s.read.afterStep x g o } := by
  cases CacheThreads.step_cases h with
  | idle =>
    have hread : s.read.afterStep x g .idle = s.read := Read.afterStep_eq nofun
    rw [hread]
    have hquiet : Quiet x s (s.setServer g (s.server g)) := Quiet.setServer Frame.rfl id
    exact hquiet.inv hs
  | started hstart => cases hstart
  | @acted i op next r m hcode hop =>
    refine ⟨hs.promising.acted hvalue hcode hop hpos hu, fun g' => ?_⟩
    change AsksFor x.key ((s.setServer g _).server g')
    by_cases hg : g' = g
    · rw [hg, setServer_self]
      exact asksFor_acted (hs.asksFor g) hop
    · rw [setServer_of_ne hg]
      exact hs.asksFor g'

end Servers

section Runs
variable {x : Setting} {value : Str} {s s' : System}

theorem Inv.ask {u : Unit} {stale : Str} (hs : Inv x value s)
    (h : step x s (.ask stale) = some (u, s')) : Inv x value s' := by
  unfold step at h
  cases hr : s.read with
  | idle =>
    simp only [hr] at h
    split_ifs at h
    · obtain ⟨⟨_, m⟩, -, ho⟩ := Option.map_eq_some_iff.mp h
      obtain ⟨-, rfl⟩ := Prod.mk.inj ho
      exact ⟨trivial, hs.asksFor⟩
    · obtain ⟨-, rfl⟩ := Prod.mk.inj (Option.some.inj h)
      exact hs
  | _ =>
    simp only [hr] at h
    obtain ⟨-, rfl⟩ := Prod.mk.inj (Option.some.inj h)
    exact hs

/-- An event that is possible and does not disturb the read keeps the invariant. -/
theorem Inv.step {u : Unit} {e : Event} (hkey : IsText x.key) (hvalue : 0 ∉ value)
    (hs : Inv x value s) (hpos : Possible x s e) (hu : Undisturbed x value s e)
    (h : Expansion.step x s e = some (u, s')) : Inv x value s' := by
  cases e with
  | master e =>
    obtain ⟨⟨_, m⟩, hm, ho⟩ := Option.map_eq_some_iff.mp h
    obtain ⟨-, rfl⟩ := Prod.mk.inj ho
    exact ⟨hs.promising.master hu hm, hs.asksFor⟩
  | deliver g i net sent => exact (quiet_deliver h).inv hs
  | recv g cfd bytes stale =>
    obtain ⟨s₁, hrecv, ho⟩ := Option.map_eq_some_iff.mp h
    obtain ⟨-, rfl⟩ := Prod.mk.inj ho
    have hquiet : Quiet x s s₁ := quiet_recv (fun hget => absurd hget hpos) hrecv
    exact hquiet.inv hs
  | dequeue g i sent =>
    obtain ⟨⟨o, p'⟩, hp, ho⟩ := Option.map_eq_some_iff.mp h
    obtain ⟨-, rfl⟩ := Prod.mk.inj ho
    exact hs.dequeue hp
  | step g i =>
    obtain ⟨⟨o, p'⟩, hp, ho⟩ := Option.map_eq_some_iff.mp h
    obtain ⟨-, rfl⟩ := Prod.mk.inj ho
    exact hs.acted hvalue hpos hu hp
  | ask stale => exact hs.ask h
  | get cfd stale =>
    unfold Expansion.step at h
    cases hr : s.read with
    | reading addrs =>
      cases addrs with
      | nil =>
        simp only [hr] at h
        obtain ⟨-, rfl⟩ := Prod.mk.inj (Option.some.inj h)
        exact hs
      | cons addr addrs =>
        simp only [hr] at h
        obtain ⟨s₁, hrecv, ho⟩ := Option.map_eq_some_iff.mp h
        obtain ⟨-, rfl⟩ := Prod.mk.inj ho
        exact hs.get hkey hr hrecv
    | _ =>
      simp only [hr] at h
      obtain ⟨-, rfl⟩ := Prod.mk.inj (Option.some.inj h)
      exact hs

/-- The worker that has the client's request comes to the answer by its own steps. -/
theorem exists_run_ended {c : Prog} {i : ℕ} {addr : Str} {addrs : List Str} (hvalue : 0 ∉ value)
    (hread : s.read = .served i addr addrs) (hc : (s.server (x.host addr)).code i = c)
    (hs : Stage x.key value (s.server (x.host addr)) i) :
    ∃ n rs s', run (step x) s (List.replicate n (.step (x.host addr) i)) = some (rs, s') ∧
      s'.read = .ended (success value) := by
  induction c generalizing s with
  | done => exact absurd hc hs.ne_done
  | call op next ih =>
    obtain ⟨op', next', r, m, hcode, hop⟩ := hs.progress x.cbHashfunc
    obtain ⟨rfl, hnext⟩ := Code.call.inj (hc.symm.trans hcode)
    obtain rfl := eq_of_heq hnext
    let p' : CacheThreads.System :=
      ⟨m, Function.update (s.server (x.host addr)).code i (next r)⟩
    let s₁ := { s.setServer (x.host addr) p' with
      read := s.read.afterStep x (x.host addr) (.acted i ⟨op, r⟩) }
    have hstep : step x s (.step (x.host addr) i) = some ((), s₁) := by
      change (CacheThreads.step x.cbHashfunc _ _).map _ = _
      rw [CacheThreads.step_acted hcode hop]
      rfl
    have hserver : s₁.server (x.host addr) = p' := setServer_self s (x.host addr) p'
    rcases hs.server_own hvalue hcode hop with ⟨hafter, hstage⟩ | hafter
    · have hread₁ : s₁.read = .served i addr addrs := (congrArg _ hread).trans hafter
      obtain ⟨n, rs, s', hrun, hended⟩ := ih r hread₁
        (by rw [hserver]; exact Function.update_self _ _ _) (by rw [hserver]; exact hstage)
      refine ⟨n + 1, () :: rs, s', ?_, hended⟩
      rw [List.replicate_succ, run_cons hstep, hrun]
      rfl
    · refine ⟨1, [()], s₁, ?_, (congrArg _ hread).trans hafter⟩
      rw [List.replicate_one, run_cons hstep]
      rfl

/-- The client has not begun, and no request for a value waits. -/
structure Start (s : System) : Prop where
  idle : s.read = .idle
  queue : ∀ g, ∀ request ∈ (s.server g).mem.server.workqueue, request.requestType ≠ Code.getValue

/-- The client does not come to the end of its addresses, what it is told at the end is the value,
and a worker that has its request goes on until it is told. -/
structure Answered (x : Setting) (value : Str) (s : System) : Prop where
  not_exhausted : s.read ≠ .reading []
  ended : ∀ answer, s.read = .ended answer → answer = success value
  served : ∀ i addr addrs, s.read = .served i addr addrs → ∃ n rs s',
    run (step x) s (List.replicate n (.step (x.host addr) i)) = some (rs, s') ∧
      s'.read = .ended (success value)

theorem Start.inv (hs : Start s) : Inv x value s := by
  refine ⟨?_, fun g request hrequest htype => absurd htype (hs.queue g request hrequest)⟩
  unfold Promising
  rw [hs.idle]
  trivial

theorem Inv.answered (hvalue : 0 ∉ value) (hs : Inv x value s) : Answered x value s := by
  have hp := hs.promising
  unfold Promising at hp
  refine ⟨fun hr => ?_, fun answer hr => ?_, fun i addr addrs hr => ?_⟩
  · rw [hr] at hp
    exact hp
  · rw [hr] at hp
    exact hp
  · rw [hr] at hp
    exact exists_run_ended hvalue hr rfl hp

/-- In a run that nothing disturbs, no state reached is one in which the read has failed. The messages
keep their full length here; which of them fit their arrays is not part of the condition. -/
theorem answered_of_run {es : List Event} {rs : List Unit} (hkey : IsText x.key)
    (hvalue : 0 ∉ value) (hs : Start s)
    (ha : Allowed (step x) (fun s e => Possible x s e ∧ Undisturbed x value s e) s es)
    (hr : run (step x) s es = some (rs, s')) : Answered x value s' :=
  (run_kept (I := Inv x value)
    (fun _ _ _ _ hs he h => hs.step hkey hvalue he.1 he.2 h) hs.inv ha hr).answered hvalue

end Runs

section Example
variable {x : Setting} {value : Str} {s : System} {g : ℤ} {i : ℕ}

theorem undisturbed_readOp {op : Op} {next : op.Res → Prog}
    (hcode : (s.server g).code i = .call op next) (hop : CacheThreads.ReadOp .lru x.key op) :
    Undisturbed x value s (.step g i) := by
  constructor
  · intro next' h
    cases hcode.symm.trans h
    cases hop
  · intro value' next' h
    cases hcode.symm.trans h
    cases hop

/-- The client reads `k`. -/
def oneKey : Setting where
  cbHashfunc := fun s => (s.getD 7 0).val
  host := fun addr => if addr = lit "10.0.0.2:6000" then 5 else 6
  clientAddr := ⟨afInet, htons 50000, ⟨10, 0, 0, 9⟩⟩
  key := lit "k"

/-- A server connects and announces port 6000, and a worker registers it. -/
def registers (cfd : ℤ) (clientAddr : SockAddrIn) (steps : ℕ) : List MasterThreads.Event :=
  [.newConn cfd clientAddr, .cacheServer cfd (.data (lit "6000")) ⟨0, 0, .any⟩, .step none,
    .step none, .dequeue 0] ++ List.replicate steps (.step (some 0))

/-- The server on connection 5 has registered, and holds `k`. -/
def stored : System where
  master := (run (MasterThreads.step oneKey.cbHashfunc) (MasterThreads.idle .new)
    (registers 5 ⟨afInet, htons 40000, ⟨10, 0, 0, 2⟩⟩ 15)).elim (MasterThreads.idle .new) Prod.snd
  server := fun g => CacheThreads.idle <|
    if g = 5 then { CacheServer.new with lru := CacheServer.new.lru.set (lit "k") [] } else .new
  received := fun _ => 0
  read := .idle

/-- A new server registers on connection 6. -/
def expansion : List Event :=
  (registers 6 ⟨afInet, htons 40001, ⟨10, 0, 0, 1⟩⟩ 23).map .master

/-- The client asks, and reads from the server `g`. -/
def readEvents (g : ℤ) (steps : ℕ) : List Event :=
  [.ask [], .master (.dequeue 0), .master (.step (some 0)), .master (.step (some 0)),
    .master (.step (some 0)), .get 9 [newline], .dequeue g 1 true] ++
    List.replicate steps (.step g 1)

theorem start_stored : Start stored := by
  refine ⟨rfl, fun g request hrequest => ?_⟩
  change request ∈ (CacheThreads.idle (if g = 5 then _ else _)).mem.server.workqueue at hrequest
  split_ifs at hrequest <;> cases hrequest

set_option maxRecDepth 4000 in
theorem owner_stored : stored.master.mem.masterHash.conhashGetCacheServer oneKey.cbHashfunc
    oneKey.key = some (lit "10.0.0.2:6000") := rfl

/-- The client has sent its request to the old server when the new one registers. -/
def asked : List Event :=
  [.ask [], .master (.dequeue 0), .master (.step (some 0)), .master (.step (some 0)),
    .master (.step (some 0)), .get 9 [newline]]

def served : List Event := .dequeue 5 1 true :: List.replicate 5 (.step 5 1)

/-- The worker of the master does not look up an owner for the client. -/
def idleMaster (s : System) : Event → Bool
  | .master _ => match s.read with
    | .looking _ => false
    | _ => true
  | _ => false

theorem undisturbed_of_idleMaster {x : Setting} {value : Str} {s : System} {e : Event}
    (h : idleMaster s e = true) : Undisturbed x value s e := by
  cases e with
  | master e =>
    cases e with
    | step i =>
      cases i with
      | none => trivial
      | some i =>
        intro hread
        simp [idleMaster, hread] at h
    | _ => trivial
  | _ => cases h

set_option maxRecDepth 4000 in
theorem undisturbed_during :
    Allowed (step oneKey) (Undisturbed oneKey []) stored (asked ++ (expansion ++ served)) := by
  have hasked : Allowed (step oneKey) (Undisturbed oneKey []) stored asked := by
    refine ⟨trivial, trivial, ?_, nofun, nofun, trivial, trivial⟩
    rintro - key' next addr ht haddr
    obtain rfl : oneKey.key = key' := by
      cases ht
      rfl
    obtain rfl : lit "10.0.0.2:6000" = addr := Option.some.inj (owner_stored.symm.trans haddr)
    rfl
  refine hasked.append rfl (Allowed.append ?_ rfl ?_)
  · have hidle : Allowed (step oneKey) (fun s e => idleMaster s e = true)
        (run (step oneKey) stored asked |>.elim stored Prod.snd) expansion := by
      decide +kernel
    exact hidle.mono fun _ _ => undisturbed_of_idleMaster
  · exact ⟨trivial, undisturbed_readOp rfl .hasKey, undisturbed_readOp rfl .isDirty,
      undisturbed_readOp rfl .hasKey, undisturbed_readOp rfl .get, undisturbed_readOp rfl (.sysCall _),
      trivial⟩

set_option maxRecDepth 4000 in
theorem answered_of_run_during : ∃ rs s',
    run (step oneKey) stored (asked ++ (expansion ++ served)) = some (rs, s') ∧
      s'.master.mem.listenMap.values = [lit "10.0.0.2:6000", lit "10.0.0.1:6000"] ∧
      s'.read = .ended (success []) ∧ Answered oneKey [] s' := by
  have ha : Allowed (step oneKey) (Possible oneKey) stored (asked ++ (expansion ++ served)) := by
    decide +kernel
  obtain ⟨rs, s', hr, hvalues, hended⟩ : ∃ rs s',
      run (step oneKey) stored (asked ++ (expansion ++ served)) = some (rs, s') ∧
        s'.master.mem.listenMap.values = [lit "10.0.0.2:6000", lit "10.0.0.1:6000"] ∧
        s'.read = .ended (success []) := ⟨_, _, rfl, rfl, rfl⟩
  exact ⟨rs, s', hr, hvalues, hended, answered_of_run (by decide) (by decide) start_stored
    (ha.conj undisturbed_during) hr⟩

set_option maxRecDepth 4000 in
/-- The client asks when the new server is in the ring and has no data, and is given its address
only. -/
theorem not_answered_expansion : IsText oneKey.key ∧ Start stored ∧
    (∃ addr, stored.master.mem.masterHash.conhashGetCacheServer oneKey.cbHashfunc oneKey.key =
      some addr ∧ Clean oneKey.key [] (stored.server (oneKey.host (wireName addr)))) ∧
    Allowed (step oneKey) (Possible oneKey) stored (expansion ++ readEvents 6 3) ∧
    ∃ rs s', run (step oneKey) stored (expansion ++ readEvents 6 3) = some (rs, s') ∧
      ¬ Answered oneKey [] s' := by
  refine ⟨by decide, start_stored, ⟨_, owner_stored, rfl⟩, by decide +kernel, ?_⟩
  obtain ⟨rs, s', hr, hread⟩ : ∃ rs s',
      run (step oneKey) stored (expansion ++ readEvents 6 3) = some (rs, s') ∧
        s'.read = .reading [] := ⟨_, _, rfl, rfl⟩
  exact ⟨rs, s', hr, fun h => h.not_exhausted hread⟩

end Example
end DCache.Expansion
