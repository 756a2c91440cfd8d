import DCache.Cluster.Framing
import DCache.Master.Registry

/-! The address list on its way from the master's `UpdateHash` to a cache server's `updateHash`. -/
namespace DCache.Cluster
open DCache.Lib DCache.Master

/-- Every listening server is sent the text, and nobody else. -/
theorem outbox_updateHash (m : MasterServer) (fd : ℤ) : m.updateHash.outbox fd =
    m.outbox fd ++ if m.listenMap.contains fd = true then
      [updateHashText m.listenMap.values ++ [0]] else [] := by
  have key : ∀ (fds : List ℤ) (m : MasterServer) (msg : Str), fds.Nodup →
      (fds.foldl (MasterServer.updateHashTo msg) m).outbox fd =
        m.outbox fd ++ if fd ∈ fds then [msg ++ [0]] else [] := by
    intro fds
    induction fds with
    | nil =>
      intro m msg hn
      exact (List.append_nil _).symm
    | cons f fds ih =>
      intro m msg hn
      obtain ⟨hf, hn⟩ := List.nodup_cons.mp hn
      have hone : (MasterServer.updateHashTo msg m f).outbox fd =
          if fd = f then m.outbox fd ++ [msg ++ [0]] else m.outbox fd := rfl
      rw [List.foldl_cons, ih _ msg hn, hone]
      by_cases he : fd = f
      · rw [if_pos he, he, if_neg hf, if_pos List.mem_cons_self, List.append_nil]
      · rw [if_neg he]
        simp only [List.mem_cons, he, false_or]
  have hall := key (m.listenMap.entries.map Prod.fst) m (updateHashText m.listenMap.values)
    m.listenMap.nodup_keys
  simp only [MasterServer.mem_fds] at hall
  exact hall

/-- `UpdateHash` sends one message, and a server that receives it at once calls `updateHash` with
the addresses of `listenMap` in the order of their descriptors. -/
theorem addressList_roundTrip (cbHashfunc : Str → ℤ) (m : MasterServer) (s : CacheServer)
    (htext : ∀ addr ∈ m.listenMap.values, CacheServer.IsText addr)
    (hfits : Fits (updateHashText m.listenMap.values)) :
    ∃ msg, msg.length ≤ bufSize ∧
      (∀ fd, m.updateHash.outbox fd =
        m.outbox fd ++ if m.listenMap.contains fd = true then [msg] else []) ∧
      readCommand msg = some (some (.updateHash (m.listenMap.entries.map Prod.snd))) ∧
      m.listenMap.entries.Pairwise (fun e e' => e.1 < e'.1) ∧
      s.dealwithMasterMsg cbHashfunc (.data msg) =
        (s.updateHash cbHashfunc (m.listenMap.entries.map Prod.snd)).map
          fun s => (0, none, s) := by
  have hread : readCommand (updateHashText m.listenMap.values ++ [0]) =
      some (some (.updateHash m.listenMap.values)) := by
    have hne : Code.updateHash ≠ Code.moveData := by decide
    rw [updateHashText_eq htext, List.append_assoc, List.cons_append,
      readCommand_line (by decide), if_neg hne, if_pos rfl, ipPortLines_hash htext]
  refine ⟨_, ?_, outbox_updateHash m, hread, m.listenMap.sorted, ?_⟩
  · rw [List.length_append]
    exact hfits
  · rw [dealwithMasterMsg_eq, hread]
    rfl

/-- Two servers, the one with the smaller descriptor first. -/
theorem addressList_roundTrip_two :
    let listen : OrdMap ℤ Str :=
      (OrdMap.empty.insert 6 (lit "10.0.0.2:6001")).insert 5 (lit "10.0.0.1:6000")
    ∃ msg, msg.length ≤ bufSize ∧
      (∀ fd, ({ MasterServer.new with listenMap := listen }).updateHash.outbox fd =
        [] ++ if listen.contains fd = true then [msg] else []) ∧
      readCommand msg = some (some (.updateHash (listen.entries.map Prod.snd))) ∧
      listen.entries.Pairwise (fun e e' => e.1 < e'.1) ∧
      CacheServer.new.dealwithMasterMsg (fun _ => 0) (.data msg) =
        (CacheServer.new.updateHash (fun _ => 0) (listen.entries.map Prod.snd)).map
          fun s => (0, none, s) :=
  addressList_roundTrip (fun _ => 0) { MasterServer.new with
    listenMap := (OrdMap.empty.insert 6 (lit "10.0.0.2:6001")).insert 5 (lit "10.0.0.1:6000") }
    .new (by decide) (by decide)

end DCache.Cluster
