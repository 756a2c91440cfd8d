import DCache.Lib.Probe
import DCache.Cluster.Framing

/-! What the three parsers read of their buffer. The array of `recv` has `bufSize` cells, of which a
chunk fills the first ones. -/
namespace DCache.Cluster
open DCache.Lib DCache.Ring DCache.Master
open DCache.Lib.Probe (UsesOnly Within scan)

/-- `while (buf[i] != sep) text += buf[i++];` with the index where it stops. It is not bounded by
the number of bytes received. -/
def untilSep (sep : Byte) (i : ℕ) : Probe Byte (Str × ℕ) :=
  scan sep (fun _ => .fault) (bufSize - i) i []

/-- `while (i < len && buf[i] != '\n') text += buf[i++];` with the index where it stops. -/
def lineBelow (len i : ℕ) : Probe Byte (Str × ℕ) := scan newline pure (len - i) i []

/-- `while (i < len)`, in `left` turns: the lines of an address list. -/
def readAddresses : ℕ → ℕ → Str → Probe Byte (List Str)
  | 0, _, _ => pure []
  | left + 1, i, temp => .read i fun b =>
      if b = newline then do
        let ipPorts ← readAddresses left (i + 1) []
        pure (temp :: ipPorts)
      else readAddresses left (i + 1) (temp ++ [b])

/-- The command word, key and value that `CacheServer::dealwithClientMsg` takes from `len` bytes. -/
def readClientMsg (len : ℕ) : Probe Byte (Str × Str × Str) := do
  let (opt, i) ← untilSep newline 0
  if opt = Code.backupInvalid then pure (opt, [], [])
  else do
    let (key, i) ← lineBelow len (i + 1)
    let (value, _) ← if opt = Code.setValue ∨ opt = Code.setBackupValue then lineBelow len i
      else pure ([], i)
    pure (opt, key, value)

/-- The command that `CacheServer::dealwithMasterMsg` takes from `len` bytes. -/
def readMasterMsg (len : ℕ) : Probe Byte (Option Command) := do
  let (temp, i) ← untilSep newline 0
  if temp = Code.moveData then pure (some .moveData)
  else if temp = Code.updateHash then do
    let ipPorts ← readAddresses (len - (i + 1)) (i + 1) []
    pure (some (.updateHash ipPorts))
  else if temp = Code.updateBackup then do
    let (temp, _) ← untilSep newline (i + 1)
    pure (some (.updateBackup temp))
  else if temp = Code.recoverBackup then pure (some .recoverBackup)
  else pure none

/-- The key that `MasterServer::dealwithClient` takes: `std::string key = buf`. -/
def readKey : Probe Byte Str := do
  let (key, _) ← untilSep 0 0
  pure key

variable {bytes stale : Str} {sep : Byte} {i len : ℕ}

section Loops

private theorem drop_take_received (h : i ≤ bytes.length) :
    ((bytes ++ stale).drop i).take (bytes.length - i) = bytes.drop i := by
  rw [List.drop_append_of_le_length h]
  exact List.take_left' (by rw [List.length_drop])

/-- A byte is found among the first `m` if and only if fewer bytes stand before it. -/
private theorem mem_take_iff {l : Str} {m : ℕ} (h : sep ∈ l) :
    sep ∈ l.take m ↔ (l.takeWhile (fun b => b ≠ sep)).length < m := by
  obtain ⟨line, rest, rfl, hline⟩ := List.eq_append_cons_of_mem h
  rw [takeWhile_sep hline]
  constructor
  · intro hmem
    by_contra hlt
    rw [List.take_append_of_le_length (by omega)] at hmem
    exact hline (List.mem_of_mem_take hmem)
  · intro hlt
    obtain ⟨k, rfl⟩ := Nat.exists_eq_add_of_lt hlt
    rw [List.take_append]
    apply List.mem_append_right _
    rw [show line.length + k + 1 - line.length = k + 1 by omega, List.take_succ_cons]
    exact List.mem_cons_self

theorem eval_untilSep (hs : (bytes ++ stale).length = bufSize) (hi : i ≤ bufSize) :
    (untilSep sep i).eval (bytes ++ stale) =
      if sep ∈ (bytes ++ stale).drop i then
        some (((bytes ++ stale).drop i).takeWhile (fun b => b ≠ sep),
          i + (((bytes ++ stale).drop i).takeWhile (fun b => b ≠ sep)).length)
      else none := by
  have hall : ((bytes ++ stale).drop i).take (bufSize - i) = (bytes ++ stale).drop i := by
    apply List.take_of_length_le
    rw [List.length_drop, hs]
  unfold untilSep
  split_ifs with h
  · rw [Probe.eval_scan_of_mem (by omega) (by rwa [hall]), List.nil_append]
  · rw [Probe.eval_scan_of_notMem (by omega) (by rwa [hall])]
    rfl

/-- A loop without a bound stays within the received bytes if and only if it finds its byte
there. -/
theorem within_untilSep (sep : Byte) (hs : (bytes ++ stale).length = bufSize)
    (hi : i ≤ bytes.length) :
    (untilSep sep i).Within bytes.length (bytes ++ stale) ↔ sep ∈ bytes.drop i := by
  have hlen : bytes.length ≤ bufSize := by
    rw [← hs, List.length_append]
    omega
  have hread : ∀ j, j ∈ (untilSep sep i).reads (bytes ++ stale) ↔ i ≤ j ∧ j < i + (bufSize - i) ∧
      j ≤ i + (((bytes ++ stale).drop i).takeWhile (fun b => b ≠ sep)).length :=
    Probe.mem_reads_scan (fun _ => rfl) (by omega)
  simp only [Probe.Within, eval_untilSep hs (show i ≤ bufSize by omega), hread]
  rw [← drop_take_received hi]
  constructor
  · rintro ⟨hsome, hreads⟩
    split_ifs at hsome with hmem
    · have hstop : (((bytes ++ stale).drop i).takeWhile (fun b => b ≠ sep)).length < bufSize - i := by
        have := (mem_take_iff (m := bufSize - i) hmem).mp (by
          rwa [List.take_of_length_le (by rw [List.length_drop, hs])])
        exact this
      rw [mem_take_iff hmem]
      have := hreads (i + (((bytes ++ stale).drop i).takeWhile (fun b => b ≠ sep)).length)
        ⟨by omega, by omega, le_rfl⟩
      omega
    · cases hsome
  · intro h
    have hmem := List.mem_of_mem_take h
    rw [mem_take_iff hmem] at h
    rw [if_pos hmem]
    exact ⟨rfl, fun j hj => by omega⟩

theorem eval_lineBelow (bytes stale : Str) (i : ℕ) :
    (lineBelow bytes.length i).eval (bytes ++ stale) =
      some ((bytes.drop i).takeWhile (fun b => b ≠ newline),
        i + ((bytes.drop i).takeWhile (fun b => b ≠ newline)).length) := by
  unfold lineBelow
  by_cases h : i ≤ bytes.length
  · have hbound : i + (bytes.length - i) ≤ (bytes ++ stale).length := by
      rw [List.length_append]
      omega
    by_cases hmem : newline ∈ bytes.drop i
    · rw [Probe.eval_scan_of_mem hbound (by rwa [drop_take_received h]), List.nil_append]
      obtain ⟨line, rest, hline, hnot⟩ := List.eq_append_cons_of_mem hmem
      rw [List.drop_append_of_le_length h, hline, List.append_assoc, List.cons_append,
        takeWhile_line hnot, takeWhile_line hnot]
    · rw [Probe.eval_scan_of_notMem hbound (by rwa [drop_take_received h]), drop_take_received h,
        takeWhile_of_notMem hmem, List.length_drop]
      rfl
  · rw [Nat.sub_eq_zero_of_le (by omega), List.drop_eq_nil_of_le (by omega)]
    rfl

theorem within_lineBelow (bytes stale : Str) (i : ℕ) :
    (lineBelow bytes.length i).Within bytes.length (bytes ++ stale) := by
  refine ⟨by rw [eval_lineBelow]; rfl, fun j hj => ?_⟩
  unfold lineBelow at hj
  by_cases h : i ≤ bytes.length
  · rw [Probe.mem_reads_scan (fun _ => rfl) (by rw [List.length_append]; omega)] at hj
    omega
  · rw [Nat.sub_eq_zero_of_le (by omega)] at hj
    cases hj

/-- The loop over the address list collects its lines and reads `left` bytes. -/
theorem readAddresses_spec {buf : Str} {left i : ℕ} (h : i + left ≤ buf.length) (temp : Str) :
    (readAddresses left i temp).eval buf =
        some (CacheServer.ipPortLines temp ((buf.drop i).take left)) ∧
      ∀ j ∈ (readAddresses left i temp).reads buf, j < i + left := by
  induction left generalizing i temp with
  | zero => exact ⟨by simp [readAddresses, CacheServer.ipPortLines], nofun⟩
  | succ left ih =>
    have hi : i < buf.length := by omega
    rw [List.drop_eq_getElem_cons hi, List.take_succ_cons, CacheServer.ipPortLines, readAddresses,
      Probe.eval, Probe.reads, List.getElem?_eq_getElem hi, Option.bind_some, Option.elim_some]
    split_ifs with hb
    · obtain ⟨heval, hreads⟩ := ih (i := i + 1) (by omega) []
      rw [Probe.eval_bind, Probe.reads_bind, heval]
      refine ⟨rfl, fun j hj => ?_⟩
      rw [Option.elim_some, Probe.reads_pure, List.append_nil, List.mem_cons] at hj
      rcases hj with rfl | hj
      · omega
      · have := hreads j hj
        omega
    · obtain ⟨heval, hreads⟩ := ih (i := i + 1) (by omega) (temp ++ [buf[i]])
      refine ⟨heval, fun j hj => ?_⟩
      rcases List.mem_cons.mp hj with rfl | hj
      · omega
      · have := hreads j hj
        omega

theorem eval_readAddresses (bytes stale : Str) (i : ℕ) (temp : Str) :
    (readAddresses (bytes.length - i) i temp).eval (bytes ++ stale) =
      some (CacheServer.ipPortLines temp (bytes.drop i)) := by
  by_cases hi : i ≤ bytes.length
  · rw [(readAddresses_spec (by rw [List.length_append]; omega) temp).1, drop_take_received hi]
  · rw [Nat.sub_eq_zero_of_le (by omega), List.drop_eq_nil_of_le (by omega)]
    rfl

theorem within_readAddresses (hi : i ≤ bytes.length) (temp : Str) :
    (readAddresses (bytes.length - i) i temp).Within bytes.length (bytes ++ stale) := by
  have hbound : i + (bytes.length - i) ≤ (bytes ++ stale).length := by
    rw [List.length_append]
    omega
  obtain ⟨heval, hreads⟩ := readAddresses_spec hbound temp
  refine ⟨by rw [heval]; rfl, fun j hj => ?_⟩
  have := hreads j hj
  omega

end Loops

section Parsers

/-- The cells behind a chunk of at most `bufSize` bytes, zeroed. -/
def zeros (bytes : Str) : Str := List.replicate (bufSize - bytes.length) 0

theorem length_append_zeros (h : bytes.length ≤ bufSize) :
    (bytes ++ zeros bytes).length = bufSize := by
  rw [List.length_append, zeros, List.length_replicate]
  omega

/-- The command word of a chunk that has a newline. -/
theorem eval_untilSep_line {line rest : Str} (hline : newline ∉ line)
    (hs : (line ++ newline :: rest ++ stale).length = bufSize) :
    (untilSep newline 0).eval (line ++ newline :: rest ++ stale) = some (line, line.length) := by
  rw [eval_untilSep hs (Nat.zero_le _), List.drop_zero, if_pos (by simp), List.append_assoc,
    List.cons_append, takeWhile_line hline, Nat.zero_add]

theorem usesOnly_readClientMsg (h : bytes.length ≤ bufSize) :
    UsesOnly (readClientMsg bytes.length) bufSize bytes ↔ newline ∈ bytes := by
  have hs := length_append_zeros h
  rw [Probe.usesOnly_iff hs]
  have hopt := within_untilSep newline hs (Nat.zero_le _)
  rw [List.drop_zero] at hopt
  refine ⟨fun hw => hopt.mp hw.of_bind, fun hmem => ?_⟩
  obtain ⟨line, rest, rfl, hline⟩ := List.eq_append_cons_of_mem hmem
  refine (Probe.within_bind (eval_untilSep_line hline hs)).mpr ⟨hopt.mpr hmem, ?_⟩
  dsimp only
  split_ifs
  · exact Probe.within_pure _ _ _
  all_goals
    refine (Probe.within_bind (eval_lineBelow _ _ _)).mpr ⟨within_lineBelow _ _ _, ?_⟩
  · exact (Probe.within_bind (eval_lineBelow _ _ _)).mpr
      ⟨within_lineBelow _ _ _, Probe.within_pure _ _ _⟩
  · exact Probe.within_pure _ _ _

/-- The parts of a message of the master that have to be finished are finished. -/
def Complete (bytes : Str) : Prop :=
  newline ∈ bytes ∧ (bytes.takeWhile (fun b => b ≠ newline) = Code.updateBackup →
    newline ∈ (bytes.dropWhile (fun b => b ≠ newline)).drop 1)

theorem usesOnly_readMasterMsg (h : bytes.length ≤ bufSize) :
    UsesOnly (readMasterMsg bytes.length) bufSize bytes ↔ Complete bytes := by
  have hs := length_append_zeros h
  rw [Probe.usesOnly_iff hs, Complete]
  have htemp := within_untilSep newline hs (Nat.zero_le _)
  rw [List.drop_zero] at htemp
  by_cases hmem : newline ∈ bytes
  · obtain ⟨line, rest, rfl, hline⟩ := List.eq_append_cons_of_mem hmem
    have hi : line.length + 1 ≤ (line ++ newline :: rest).length := by
      rw [List.length_append, List.length_cons]
      omega
    rw [takeWhile_line hline, dropWhile_line hline, and_iff_right hmem]
    apply (Probe.within_bind (eval_untilSep_line hline hs)).trans
    rw [and_iff_right (htemp.mpr hmem)]
    dsimp only
    split_ifs with h₁ h₂ h₃ h₄
    · refine iff_of_true (Probe.within_pure _ _ _) fun h => absurd (h₁.symm.trans h) (by decide)
    · refine iff_of_true ?_ fun h => absurd (h₂.symm.trans h) (by decide)
      exact (Probe.within_bind (eval_readAddresses _ _ _ [])).mpr
        ⟨within_readAddresses hi [], Probe.within_pure _ _ _⟩
    · have hrest := within_untilSep newline hs hi
      rw [drop_line] at hrest
      rw [← hrest, imp_iff_right h₃]
      refine ⟨Probe.Within.of_bind, fun hw => ?_⟩
      obtain ⟨o, ho⟩ := Option.isSome_iff_exists.mp hw.1
      exact (Probe.within_bind ho).mpr ⟨hw, Probe.within_pure _ _ _⟩
    · exact iff_of_true (Probe.within_pure _ _ _) fun h => absurd h h₃
    · exact iff_of_true (Probe.within_pure _ _ _) fun h => absurd h h₃
  · exact iff_of_false (fun hw => hmem (htemp.mp hw.of_bind)) fun hc => hmem hc.1

theorem usesOnly_readKey (h : bytes.length ≤ bufSize) :
    UsesOnly readKey bufSize bytes ↔ 0 ∈ bytes := by
  have hs := length_append_zeros h
  rw [Probe.usesOnly_iff hs]
  have hkey := within_untilSep 0 hs (Nat.zero_le _)
  rw [List.drop_zero] at hkey
  refine ⟨fun hw => hkey.mp hw.of_bind, fun hmem => ?_⟩
  obtain ⟨o, ho⟩ := Option.isSome_iff_exists.mp (hkey.mpr hmem).1
  exact (Probe.within_bind ho).mpr ⟨hkey.mpr hmem, Probe.within_pure _ _ _⟩

/-- Which chunks the three parsers read without looking behind the received bytes, so that what is
there makes no difference to them. -/
theorem usesOnly_received_iff (bytes : Str) (h : bytes.length ≤ bufSize) :
    (UsesOnly (readClientMsg bytes.length) bufSize bytes ↔ newline ∈ bytes) ∧
      (UsesOnly (readMasterMsg bytes.length) bufSize bytes ↔ Complete bytes) ∧
      (UsesOnly readKey bufSize bytes ↔ 0 ∈ bytes) :=
  ⟨usesOnly_readClientMsg h, usesOnly_readMasterMsg h, usesOnly_readKey h⟩

theorem usesOnly_received_iff_moveData :
    (UsesOnly (readClientMsg moveDataMsg.length) bufSize moveDataMsg ↔ newline ∈ moveDataMsg) ∧
      (UsesOnly (readMasterMsg moveDataMsg.length) bufSize moveDataMsg ↔ Complete moveDataMsg) ∧
      (UsesOnly readKey bufSize moveDataMsg ↔ 0 ∈ moveDataMsg) :=
  usesOnly_received_iff moveDataMsg (by decide)

/-- What `update` sends first is read up to a newline that happens to be behind it. -/
theorem not_usesOnly_backupInvalid :
    ¬ UsesOnly (readClientMsg Code.backupInvalid.length) bufSize Code.backupInvalid := by
  rintro ⟨a, h⟩
  obtain ⟨-, hreads⟩ := h (newline :: List.replicate 1009 0) (by
    rw [List.length_append, List.length_cons, List.length_replicate]
    rfl)
  exact absurd (hreads 14 (by decide)) (by decide)

end Parsers

section Servers

/-- What is done with a request that was read. -/
def enqueue (s : CacheServer) (cfd : ℤ) (opt key value : Str) : ℤ × CacheServer :=
  if opt = Code.backupInvalid then (0, s)
  else
    let (clientAddr, connectedMap) := s.connectedMap.index cfd []
    let (ret, s) :=
      { s with connectedMap := connectedMap }.append ⟨opt, clientAddr, key, value, cfd⟩
    (if ret then 0 else -1, s)

theorem dealwithClientMsg_eq (s : CacheServer) (cfd : ℤ) (hs : (bytes ++ stale).length = bufSize) :
    s.dealwithClientMsg cfd (.data bytes) stale =
      ((readClientMsg bytes.length).eval (bytes ++ stale)).map
        fun o => enqueue s cfd o.1 o.2.1 o.2.2 := by
  unfold CacheServer.dealwithClientMsg readClientMsg CacheServer.untilNewline
  rw [Probe.eval_bind, eval_untilSep hs (Nat.zero_le _), List.drop_zero]
  simp only [Option.bind_eq_bind]
  by_cases hmem : newline ∈ bytes ++ stale
  · rw [if_pos hmem, if_pos hmem, Option.bind_some, Option.bind_some, Nat.zero_add]
    generalize (bytes ++ stale).takeWhile (fun b => b ≠ newline) = opt
    by_cases hb : opt = Code.backupInvalid
    · rw [if_pos hb, if_pos hb, Probe.eval_pure, Option.map_some, enqueue, if_pos hb]
    · rw [if_neg hb, if_neg hb, Probe.eval_bind, eval_lineBelow, Option.bind_some]
      by_cases hw : opt = Code.setValue ∨ opt = Code.setBackupValue
      · rw [if_pos hw, if_pos hw, Probe.eval_bind, eval_lineBelow, Option.bind_some,
          Probe.eval_pure, Option.map_some, enqueue, if_neg hb]
      · rw [if_neg hw, if_neg hw, Probe.eval_bind, Probe.eval_pure, Option.bind_some,
          Probe.eval_pure, Option.map_some, enqueue, if_neg hb]
  · rw [if_neg hmem, if_neg hmem]
    rfl

/-- The master's messages are read from a buffer of zeros. -/
theorem readCommand_eq (h : bytes.length ≤ bufSize) :
    readCommand bytes = (readMasterMsg bytes.length).eval (bytes ++ zeros bytes) := by
  have hs := length_append_zeros h
  unfold readCommand readMasterMsg CacheServer.untilNewline
  rw [Probe.eval_bind, eval_untilSep hs (Nat.zero_le _), List.drop_zero]
  simp only [Option.bind_eq_bind]
  rw [show bytes ++ List.replicate (bufSize - bytes.length) 0 = bytes ++ zeros bytes from rfl]
  by_cases hmem : newline ∈ bytes ++ zeros bytes
  · have hi : ((bytes ++ zeros bytes).takeWhile (fun b => b ≠ newline)).length + 1 ≤ bufSize := by
      have hlt := (mem_take_iff (m := bufSize) hmem).mp (by
        rwa [List.take_of_length_le (by rw [hs])])
      exact hlt
    rw [if_pos hmem, if_pos hmem, Option.bind_some, Option.bind_some, Nat.zero_add]
    generalize (bytes ++ zeros bytes).takeWhile (fun b => b ≠ newline) = temp at hi ⊢
    by_cases h₁ : temp = Code.moveData
    · rw [if_pos h₁, if_pos h₁, Probe.eval_pure]
    rw [if_neg h₁, if_neg h₁]
    by_cases h₂ : temp = Code.updateHash
    · rw [if_pos h₂, if_pos h₂, Probe.eval_bind, eval_readAddresses]
      rfl
    rw [if_neg h₂, if_neg h₂]
    by_cases h₃ : temp = Code.updateBackup
    · rw [if_pos h₃, if_pos h₃, Probe.eval_bind, eval_untilSep hs hi]
      split_ifs <;> rfl
    rw [if_neg h₃, if_neg h₃]
    split_ifs <;> rfl
  · rw [if_neg hmem, if_neg hmem]
    rfl

theorem eval_readKey (hs : (bytes ++ stale).length = bufSize) :
    readKey.eval (bytes ++ stale) =
      if 0 ∈ bytes ++ stale then some (cstr (bytes ++ stale)) else none := by
  unfold readKey
  rw [Probe.eval_bind, eval_untilSep hs (Nat.zero_le _), List.drop_zero]
  split_ifs with h
  · rfl
  · rfl

end Servers
end DCache.Cluster
