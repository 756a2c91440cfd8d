import DCache.Cluster.Messages

/-! The stream of commands from the master to one cache server, cut into the chunks that `recv`
hands over. Each call of `dealwithMasterMsg` takes one chunk for one command. -/
namespace DCache.Cluster
open DCache.Lib DCache.Ring DCache.Master

/-- A command with its arguments. -/
inductive Command
  | moveData
  | updateHash (ipPorts : List Str)
  | updateBackup (ipPort : Str)
  | recoverBackup
deriving DecidableEq

/-- A message of the master. `UPDATE_BACKUP` has its NUL when `Register` sends it, and none when
`dealwithCacheServer` does. -/
inductive Message
  | moveData
  | updateHash (addrs : List SockAddrIn)
  | updateBackup (addr : SockAddrIn) (nul : Bool)
  | recoverBackup

namespace Message

def encode : Message → Str
  | .moveData => moveDataMsg
  | .updateHash addrs => updateHashText (addrs.map sockAddr2str) ++ [0]
  | .updateBackup addr nul => updateBackupText (sockAddr2str addr) ++ if nul then [0] else []
  | .recoverBackup => recoverBackupMsg

def command : Message → Command
  | .moveData => .moveData
  | .updateHash addrs => .updateHash (addrs.map sockAddr2str)
  | .updateBackup addr _ => .updateBackup (sockAddr2str addr)
  | .recoverBackup => .recoverBackup

/-- The first line. -/
def word : Message → Str
  | .moveData => Code.moveData
  | .updateHash _ => Code.updateHash
  | .updateBackup _ _ => Code.updateBackup
  | .recoverBackup => Code.recoverBackup

/-- The lines of addresses. -/
def body : Message → Str
  | .updateHash addrs => (addrs.map sockAddr2str).flatMap (fun a => a ++ [newline])
  | .updateBackup addr _ => sockAddr2str addr ++ [newline]
  | _ => []

/-- The NUL, where one is sent. -/
def ending : Message → Str
  | .moveData => [0]
  | .updateHash _ => [0]
  | .updateBackup _ nul => if nul then [0] else []
  | .recoverBackup => []

theorem encode_eq (m : Message) : m.encode = m.word ++ newline :: (m.body ++ m.ending) := by
  cases m with
  | moveData => rfl
  | updateHash addrs =>
    have ha : ∀ a ∈ addrs.map sockAddr2str, CacheServer.IsText a := fun a h => by
      obtain ⟨sa, -, rfl⟩ := List.mem_map.mp h
      exact isText_sockAddr2str sa
    simp [encode, updateHashText_eq ha, word, body, ending]
  | updateBackup addr nul =>
    have haddr := cstr_eq_self.mpr (zero_notMem_sockAddr2str addr)
    simp [encode, updateBackupText, haddr, word, body, ending]
  | recoverBackup => rfl

theorem newline_notMem_word (m : Message) : newline ∉ m.word := by
  cases m <;> simp only [word] <;> decide

theorem ending_cases (m : Message) : m.ending = [] ∨ m.ending = [0] := by
  cases m with
  | updateBackup addr nul => cases nul <;> simp [ending]
  | _ => simp [ending]

end Message

section Read

/-- What one call takes for the command in a chunk. `none` is a read behind the end of the
buffer. -/
def readCommand (bytes : Str) : Option (Option Command) := do
  let buf := bytes ++ List.replicate (bufSize - bytes.length) 0
  let temp ← CacheServer.untilNewline buf
  let i := temp.length
  if temp = Code.moveData then some (some .moveData)
  else if temp = Code.updateHash then
    some (some (.updateHash (CacheServer.ipPortLines [] (bytes.drop (i + 1)))))
  else if temp = Code.updateBackup then do
    let temp ← CacheServer.untilNewline (buf.drop (i + 1))
    some (some (.updateBackup temp))
  else if temp = Code.recoverBackup then some (some .recoverBackup)
  else some none

variable (cbHashfunc : Str → ℤ)

def execute (s : CacheServer) : Command → Option (ℤ × Option CacheServer.Thread × CacheServer)
  | .moveData => some (0, some .move, s)
  | .updateHash ipPorts => (s.updateHash cbHashfunc ipPorts).map (fun s => (0, none, s))
  | .updateBackup ipPort => some (0, some (.update ipPort), s)
  | .recoverBackup => some (0, s.recoverBackup)

/-- A call reads a command and executes it. -/
theorem dealwithMasterMsg_eq (s : CacheServer) (bytes : Str) :
    s.dealwithMasterMsg cbHashfunc (.data bytes) =
      (readCommand bytes).bind fun command => match command with
        | some command => execute cbHashfunc s command
        | none => some (0, none, s) := by
  unfold CacheServer.dealwithMasterMsg readCommand
  simp only [Option.bind_eq_bind, Option.bind_assoc]
  congr 1
  funext temp
  split_ifs
  · rfl
  · simp only [Option.bind_some, execute]
    cases s.updateHash cbHashfunc _ <;> rfl
  · rw [Option.bind_assoc]
    rfl
  · rfl
  · rfl

/-- The calls for a list of chunks: the commands that they execute, and the state. -/
def serve (s : CacheServer) : List Str → Option (List Command × CacheServer)
  | [] => some ([], s)
  | bytes :: chunks => do
    let command ← readCommand bytes
    let (_, _, s) ← s.dealwithMasterMsg cbHashfunc (.data bytes)
    let (commands, s) ← serve s chunks
    some (command.toList ++ commands, s)

/-- The master's list of addresses is rebuilt from any lines. -/
theorem exists_updateHash (s : CacheServer) (ipPorts : List Str) :
    ∃ c, s.updateHash cbHashfunc ipPorts = some { s with cacheServerHash := c } := by
  have hfold : ∀ (l : List Str) (c : ConHash), c.Owned →
      ∃ c', l.foldlM (fun c a => c.conhashAddCacheServer cbHashfunc a) c = some c' := by
    intro l
    induction l with
    | nil => exact fun c _ => ⟨c, rfl⟩
    | cons a l ih =>
      intro c hc
      obtain ⟨c₁, h₁, hc₁, -⟩ := hc.conhashAddCacheServer cbHashfunc a
      obtain ⟨c₂, h₂⟩ := ih c₁ hc₁
      exact ⟨c₂, by rw [List.foldlM_cons, h₁]; exact h₂⟩
  obtain ⟨c, hc⟩ := hfold ipPorts .new .new
  exact ⟨c, by rw [CacheServer.updateHash, hc]; rfl⟩

theorem isSome_execute (s : CacheServer) (command : Command) :
    (execute cbHashfunc s command).isSome = true := by
  cases command with
  | updateHash ipPorts =>
    obtain ⟨c, hc⟩ := exists_updateHash cbHashfunc s ipPorts
    rw [execute, hc]
    rfl
  | _ => rfl

/-- A call faults only where it reads behind the end of the buffer. -/
theorem isSome_dealwithMasterMsg {bytes : Str} {command : Option Command}
    (h : readCommand bytes = some command) (s : CacheServer) :
    ∃ ret thread s', s.dealwithMasterMsg cbHashfunc (.data bytes) = some (ret, thread, s') := by
  rw [dealwithMasterMsg_eq, h, Option.bind_some]
  cases command with
  | none => exact ⟨_, _, _, rfl⟩
  | some command =>
    obtain ⟨⟨ret, thread, s'⟩, ho⟩ := Option.isSome_iff_exists.mp
      (isSome_execute cbHashfunc s command)
    exact ⟨ret, thread, s', ho⟩

variable {cbHashfunc} in
theorem of_serve_cons {s s' : CacheServer} {bytes : Str} {chunks : List Str}
    {commands : List Command} (h : serve cbHashfunc s (bytes :: chunks) = some (commands, s')) :
    ∃ command rest s₁, readCommand bytes = some command ∧
      serve cbHashfunc s₁ chunks = some (rest, s') ∧ commands = command.toList ++ rest := by
  simp only [serve, Option.bind_eq_bind, Option.bind_eq_some_iff, Option.some.injEq,
    Prod.mk.injEq] at h
  obtain ⟨command, hread, ⟨ret, thread, s₁⟩, hs, ⟨rest, s₂⟩, hrest, rfl, rfl⟩ := h
  exact ⟨command, rest, s₁, hread, hrest, rfl⟩

section Lines
variable {line rest : Str}

private theorem newline_mem_buf (text : Str) (n : ℕ) :
    newline ∈ text ++ List.replicate n 0 ↔ newline ∈ text := by
  have hnot : newline ∉ List.replicate n (0 : Byte) := fun h =>
    absurd (List.eq_of_mem_replicate h) (by decide)
  simp [hnot]

/-- The command that a chunk of at least one line stands for. -/
theorem readCommand_line (hline : newline ∉ line) (rest : Str) :
    readCommand (line ++ newline :: rest) =
      if line = Code.moveData then some (some .moveData)
      else if line = Code.updateHash then
        some (some (.updateHash (CacheServer.ipPortLines [] rest)))
      else if line = Code.updateBackup then
        (CacheServer.untilNewline rest).map (fun temp => some (.updateBackup temp))
      else if line = Code.recoverBackup then some (some .recoverBackup)
      else some none := by
  have hfirst : ∀ fill, CacheServer.untilNewline (line ++ newline :: rest ++ fill) = some line :=
    fun fill => by rw [List.append_assoc, List.cons_append, CacheServer.untilNewline_line hline]
  have hsecond : ∀ n, CacheServer.untilNewline
      ((line ++ newline :: rest ++ List.replicate n 0).drop (line.length + 1)) =
      CacheServer.untilNewline rest := fun n => by
    rw [List.append_assoc, List.cons_append, drop_line]
    unfold CacheServer.untilNewline
    by_cases hrest : newline ∈ rest
    · obtain ⟨line', rest', rfl, hline'⟩ := List.eq_append_cons_of_mem hrest
      rw [if_pos hrest, if_pos ((newline_mem_buf _ n).mpr hrest), List.append_assoc,
        List.cons_append, takeWhile_line hline', takeWhile_line hline']
    · rw [if_neg hrest, if_neg (mt (newline_mem_buf _ n).mp hrest)]
  simp only [readCommand, hfirst, Option.bind_eq_bind, Option.bind_some, drop_line, hsecond]
  split_ifs
  · rfl
  · rfl
  · cases CacheServer.untilNewline rest <;> rfl
  · rfl
  · rfl

theorem readCommand_of_notMem {bytes : Str} (h : newline ∉ bytes) : readCommand bytes = none := by
  have hbuf := mt (newline_mem_buf bytes (bufSize - bytes.length)).mp h
  simp [readCommand, CacheServer.untilNewline, hbuf]

end Lines
end Read

def commandWords : List Str :=
  [Code.moveData, Code.updateHash, Code.updateBackup, Code.recoverBackup]

/-- A chunk that gives a command begins with its word. -/
theorem beginsWord_of_readCommand {bytes : Str} {command : Command}
    (h : readCommand bytes = some (some command)) : BeginsWord newline commandWords bytes := by
  by_cases hmem : newline ∈ bytes
  · obtain ⟨line, rest, rfl, hline⟩ := List.eq_append_cons_of_mem hmem
    rw [readCommand_line hline] at h
    rw [beginsWord_line hline]
    by_contra hnot
    simp only [commandWords, List.mem_cons, List.not_mem_nil, or_false, not_or] at hnot
    obtain ⟨h₁, h₂, h₃, h₄⟩ := hnot
    simp [h₁, h₂, h₃, h₄] at h
  · rw [readCommand_of_notMem hmem] at h
    cases h

/-- The chunks that `recv` hands over for a stream of messages. -/
structure IsChunking (messages : List Message) (chunks : List Str) : Prop where
  flatten : chunks.flatten = (messages.map Message.encode).flatten
  length : ∀ bytes ∈ chunks, 1 ≤ bytes.length ∧ bytes.length ≤ bufSize

/-- The commands executed are those sent, in their order. -/
def Framed (cbHashfunc : Str → ℤ) (s : CacheServer) (messages : List Message)
    (chunks : List Str) : Prop :=
  ∃ s', serve cbHashfunc s chunks = some (messages.map Message.command, s')

section Count

/-- A call executes at most one command, and only from a position where a word begins. -/
theorem length_le_heads {cbHashfunc : Str → ℤ} {s s' : CacheServer} {chunks : List Str}
    {commands : List Command} (h : serve cbHashfunc s chunks = some (commands, s')) :
    commands.length ≤ heads newline commandWords chunks.flatten := by
  induction chunks generalizing s commands with
  | nil =>
    obtain ⟨rfl, -⟩ := Prod.mk.inj (Option.some.inj h)
    exact Nat.zero_le _
  | cons bytes chunks ih =>
    obtain ⟨command, rest, s₁, hread, hrest, rfl⟩ := of_serve_cons h
    have hle := ih hrest
    rw [List.flatten_cons, List.length_append]
    cases command with
    | none =>
      have hrest : heads newline commandWords chunks.flatten ≤
          heads newline commandWords (bytes ++ chunks.flatten) := heads_append_le _ _
      simp only [Option.toList_none, List.length_nil]
      omega
    | some command =>
      have hbegin := beginsWord_of_readCommand hread
      have hne : bytes ≠ [] := List.ne_nil_of_mem hbegin.1
      have hfirst := heads_append_of_begins hne (beginsWord_append hbegin chunks.flatten)
      simp only [Option.toList_some, List.length_singleton]
      omega

private theorem suffix_notMem {w t : Str} (hw : w ∈ commandWords) (ht : t <:+ w) (hne : t ≠ w) :
    t ∉ commandWords := by
  have hall : ∀ w ∈ commandWords, ∀ t ∈ w.tails, t ≠ w → t ∉ commandWords := by decide
  exact hall w hw t ((List.mem_tails _ _).mpr ht) hne

theorem word_mem (m : Message) : m.word ∈ commandWords := by
  cases m <;> simp only [Message.word] <;> decide

/-- Every word has an `a` in it, and an address has none. -/
private theorem notMem_of_suffix {addr : SockAddrIn} {t : Str} (ht : t <:+ sockAddr2str addr) :
    t ∉ commandWords := by
  intro hmem
  have hall : ∀ w ∈ commandWords, (97 : Byte) ∈ w := by decide
  exact notMem_sockAddr2str addr (by decide) (by decide) (by decide) (ht.subset (hall t hmem))

theorem heads_addr (addr : SockAddrIn) (rest : Str) :
    heads newline commandWords (sockAddr2str addr ++ newline :: rest) =
      heads newline commandWords rest := by
  rw [heads_line (newline_notMem_sockAddr2str addr) (by decide)
    (fun t ht _ => notMem_of_suffix ht), if_neg (notMem_of_suffix (List.suffix_refl _)),
    Nat.zero_add]

theorem heads_body (m : Message) (rest : Str) :
    heads newline commandWords (m.body ++ rest) = heads newline commandWords rest := by
  cases m with
  | moveData => rfl
  | updateHash addrs =>
    simp only [Message.body]
    induction addrs with
    | nil => rfl
    | cons addr addrs ih =>
      rw [List.map_cons, List.flatMap_cons, List.append_assoc, List.append_assoc,
        List.singleton_append, heads_addr, ih]
  | updateBackup addr nul =>
    rw [Message.body, List.append_assoc, List.singleton_append, heads_addr]
  | recoverBackup => rfl

theorem heads_zero (rest : Str) :
    heads newline commandWords (0 :: rest) = heads newline commandWords rest :=
  heads_cons_of_forall (by decide) (by decide) rest

/-- One command begins in a message. -/
theorem heads_encode (m : Message) (rest : Str) :
    heads newline commandWords (m.encode ++ rest) = heads newline commandWords rest + 1 := by
  have hword := heads_line m.newline_notMem_word (by decide)
    (fun t ht hne => suffix_notMem (word_mem m) ht hne) (m.body ++ m.ending ++ rest)
  rw [m.encode_eq, List.append_assoc, List.cons_append, hword, if_pos (word_mem m),
    List.append_assoc, heads_body]
  rcases m.ending_cases with h | h
  · rw [h, List.nil_append, Nat.add_comm]
  · rw [h, List.singleton_append, heads_zero, Nat.add_comm]

theorem heads_stream (messages : List Message) :
    heads newline commandWords (messages.map Message.encode).flatten = messages.length := by
  induction messages with
  | nil => rfl
  | cons m messages ih => rw [List.map_cons, List.flatten_cons, heads_encode, ih, List.length_cons]

theorem beginsWord_stream {messages : List Message}
    (h : (messages.map Message.encode).flatten ≠ []) :
    BeginsWord newline commandWords (messages.map Message.encode).flatten := by
  cases messages with
  | nil => exact absurd rfl h
  | cons m messages =>
    rw [List.map_cons, List.flatten_cons, m.encode_eq, List.append_assoc, List.cons_append,
      beginsWord_line m.newline_notMem_word]
    exact word_mem m

end Count

section Exact
variable {cbHashfunc : Str → ℤ} {m : Message}

/-- A message in a chunk of its own gives its command. -/
theorem readCommand_encode (m : Message) : readCommand m.encode = some (some m.command) := by
  rw [m.encode_eq, readCommand_line m.newline_notMem_word]
  cases m with
  | moveData => rfl
  | updateHash addrs =>
    have hne : Code.updateHash ≠ Code.moveData := by decide
    have hlist : CacheServer.ipPortLines []
        ((addrs.map sockAddr2str).flatMap (fun a => a ++ [newline]) ++ [0]) =
        addrs.map sockAddr2str := ipPortLines_hash fun a h => by
      obtain ⟨sa, -, rfl⟩ := List.mem_map.mp h
      exact isText_sockAddr2str sa
    simp only [Message.word, Message.body, Message.ending, if_neg hne, if_true, hlist,
      Message.command]
  | updateBackup addr nul =>
    have hne : Code.updateBackup ≠ Code.moveData := by decide
    have hne' : Code.updateBackup ≠ Code.updateHash := by decide
    have hline : CacheServer.untilNewline (sockAddr2str addr ++ [newline] ++ if nul then [0] else [])
        = some (sockAddr2str addr) := by
      rw [List.append_assoc, List.singleton_append,
        CacheServer.untilNewline_line (newline_notMem_sockAddr2str addr)]
    simp only [Message.word, Message.body, Message.ending, if_neg hne, if_neg hne', if_true, hline,
      Message.command, Option.map_some]
  | recoverBackup => rfl

theorem length_ipPortLines (text temp : Str) :
    (CacheServer.ipPortLines temp text).length = text.count newline := by
  induction text generalizing temp with
  | nil => rfl
  | cons b text ih =>
    rw [CacheServer.ipPortLines]
    split_ifs with hb
    · rw [List.length_cons, ih, hb, List.count_cons_self]
    · rw [ih, List.count_cons_of_ne hb]

/-- An end of the lines of an address list has the last newline in it. -/
private theorem newline_mem_of_suffix {addrs : List Str} {t : Str} (hne : t ≠ [])
    (ht : t <:+ addrs.flatMap (fun a => a ++ [newline])) : newline ∈ t := by
  rcases addrs.eq_nil_or_concat' with rfl | ⟨addrs, a, rfl⟩
  · exact absurd (List.suffix_nil.mp ht) hne
  · rw [List.flatMap_append, List.flatMap_cons, List.flatMap_nil, List.append_nil,
      ← List.append_assoc] at ht
    rcases List.suffix_concat_iff.mp ht with rfl | ⟨t, rfl, -⟩
    · exact absurd rfl hne
    · simp

private theorem count_newline_flatMap {addrs : List Str} (h : ∀ a ∈ addrs, newline ∉ a) :
    (addrs.flatMap (fun a => a ++ [newline])).count newline = addrs.length := by
  rw [← length_ipPortLines _ []]
  have hlines : CacheServer.ipPortLines [] (addrs.flatMap (fun a => a ++ [newline]) ++ []) = addrs :=
    CacheServer.ipPortLines_flatMap h List.not_mem_nil
  rw [List.append_nil] at hlines
  rw [hlines]

/-- A chunk that gives the whole command has all the addresses in it. -/
private theorem body_isPrefix {text rest : Str} (h : m.body ++ m.ending = text ++ rest)
    (hread : readCommand (m.word ++ newline :: text) = some (some m.command)) :
    m.body <+: text := by
  rw [readCommand_line m.newline_notMem_word] at hread
  cases m with
  | moveData => exact List.nil_prefix
  | updateHash addrs =>
    have hne : Code.updateHash ≠ Code.moveData := by decide
    simp only [Message.word, if_neg hne, if_true, Message.command, Option.some.injEq,
      Command.updateHash.injEq] at hread
    rcases List.append_eq_append_iff.mp h with ⟨t, ht, -⟩ | ⟨t, ht, -⟩
    · exact ⟨t, ht.symm⟩
    · -- otherwise a line is missing
      have hnot : newline ∉ t := by
        have hlen := length_ipPortLines text []
        have haddrs : ∀ a ∈ addrs.map sockAddr2str, newline ∉ a := fun a ha => by
          obtain ⟨sa, -, rfl⟩ := List.mem_map.mp ha
          exact newline_notMem_sockAddr2str sa
        have hcount := count_newline_flatMap haddrs
        rw [hread] at hlen
        rw [show (addrs.map sockAddr2str).flatMap (fun a => a ++ [newline]) = text ++ t from ht,
          List.count_append] at hcount
        exact List.count_eq_zero.mp (by omega)
      have hnil : t = [] := by
        by_contra hne
        exact hnot (newline_mem_of_suffix hne ⟨text, ht.symm⟩)
      rw [ht, hnil, List.append_nil]
  | updateBackup addr nul =>
    have hne : Code.updateBackup ≠ Code.moveData := by decide
    have hne' : Code.updateBackup ≠ Code.updateHash := by decide
    simp only [Message.word, if_neg hne, if_neg hne', if_true, Message.command,
      Option.map_eq_some_iff, Option.some.injEq, Command.updateBackup.injEq] at hread
    obtain ⟨temp, htemp, rfl⟩ := hread
    unfold CacheServer.untilNewline at htemp
    split_ifs at htemp with hmem
    obtain ⟨line, rest', rfl, hline⟩ := List.eq_append_cons_of_mem hmem
    rw [takeWhile_line hline, Option.some.injEq] at htemp
    exact ⟨rest', by simp [Message.body, htemp]⟩
  | recoverBackup => exact List.nil_prefix

/-- What is missing of a message whose command is complete is its NUL at most. -/
theorem of_readCommand {bytes rest : Str} (hm : m.encode = bytes ++ rest)
    (hread : readCommand bytes = some (some m.command)) : rest = [] ∨ rest = [0] := by
  have hmem : newline ∈ bytes := by
    by_contra hnot
    rw [readCommand_of_notMem hnot] at hread
    cases hread
  obtain ⟨line, text, rfl, hline⟩ := List.eq_append_cons_of_mem hmem
  rw [m.encode_eq, List.append_assoc, List.cons_append] at hm
  obtain rfl : m.word = line := by
    have h := congrArg (List.takeWhile (fun b => decide (b ≠ newline))) hm
    rwa [takeWhile_line m.newline_notMem_word, takeWhile_line hline] at h
  have hbody : m.body ++ m.ending = text ++ rest := by simpa using hm
  obtain ⟨t, rfl⟩ := body_isPrefix hbody hread
  have hend : m.ending = t ++ rest := by simpa using hbody
  rcases m.ending_cases with h | h
  · rw [h] at hend
    exact Or.inl (List.append_eq_nil_iff.mp hend.symm).2
  · rw [h] at hend
    rcases List.append_eq_singleton_iff.mp hend.symm with ⟨-, h⟩ | ⟨-, h⟩
    · exact Or.inr h
    · exact Or.inl h

/-- A chunk that begins with the NUL of a message executes nothing, and what stands behind the NUL
in it is lost. -/
private theorem length_lt_of_zero {s s' : CacheServer} {chunks : List Str}
    {commands : List Command} {messages : List Message}
    (hne : ∀ bytes ∈ chunks, bytes ≠ [])
    (hflat : chunks.flatten = 0 :: (messages.map Message.encode).flatten)
    (h : serve cbHashfunc s chunks = some (commands, s')) : commands.length < messages.length := by
  cases chunks with
  | nil => cases hflat
  | cons bytes chunks =>
    obtain ⟨b, bytes, rfl⟩ := List.exists_cons_of_ne_nil (hne _ List.mem_cons_self)
    rw [List.flatten_cons, List.cons_append, List.cons.injEq] at hflat
    obtain ⟨rfl, hflat⟩ := hflat
    obtain ⟨command, rest, s₁, hread, hrest, rfl⟩ := of_serve_cons h
    have hnone : command = none := by
      cases command with
      | none => rfl
      | some command =>
        have hword := (beginsWord_of_readCommand hread).2
        have hall : ∀ w ∈ commandWords, w.head? ≠ some 0 := by decide
        exact absurd rfl (hall _ hword)
    subst hnone
    have hbytes : bytes ≠ [] := by
      rintro rfl
      rw [readCommand_of_notMem (by decide)] at hread
      cases hread
    have hstream : (messages.map Message.encode).flatten ≠ [] := by
      rw [← hflat]
      simp [hbytes]
    have hlost := heads_append_of_begins hbytes (hflat ▸ beginsWord_stream hstream)
    have hle := length_le_heads hrest
    rw [hflat, heads_stream] at hlost
    simp only [Option.toList_none, List.nil_append]
    omega

/-- Every message is a chunk of its own, or not all commands are executed. -/
private theorem chunks_eq {s s' : CacheServer} {messages : List Message} {chunks : List Str}
    (hne : ∀ bytes ∈ chunks, bytes ≠ [])
    (hflat : chunks.flatten = (messages.map Message.encode).flatten)
    (h : serve cbHashfunc s chunks = some (messages.map Message.command, s')) :
    chunks = messages.map Message.encode := by
  induction messages generalizing s chunks with
  | nil =>
    cases chunks with
    | nil => rfl
    | cons bytes chunks => exact absurd (List.append_eq_nil_iff.mp hflat).1 (hne _ List.mem_cons_self)
  | cons m messages ih =>
    have hbegin : BeginsWord newline commandWords ((m :: messages).map Message.encode).flatten :=
      beginsWord_stream (by simp [m.encode_eq])
    have htotal := heads_stream (m :: messages)
    cases chunks with
    | nil =>
      rw [← hflat] at hbegin
      exact absurd hbegin.1 List.not_mem_nil
    | cons bytes chunks =>
      obtain ⟨hbytes, hchunks⟩ := List.forall_mem_cons.mp hne
      obtain ⟨command, rest, s₁, hread, hrest, hcommands⟩ := of_serve_cons h
      have hle := length_le_heads hrest
      rw [List.flatten_cons] at hflat
      have hlost := heads_append_of_begins hbytes (hflat ▸ hbegin)
      rw [hflat, htotal, List.length_cons] at hlost
      cases command with
      | none =>
        -- too few words are left
        have hlen := congrArg List.length hcommands
        simp only [Option.toList_none, List.nil_append, List.length_map, List.length_cons] at hlen
        omega
      | some command =>
        simp only [Option.toList_some, List.singleton_append, List.map_cons, List.cons.injEq]
          at hcommands
        obtain ⟨rfl, rfl⟩ := hcommands
        rw [List.map_cons, List.flatten_cons] at hflat
        have hwhole : ∀ t, t = [] → m.encode = bytes ++ t → chunks.flatten = t ++
            (messages.map Message.encode).flatten → bytes :: chunks =
            (m :: messages).map Message.encode := by
          rintro t rfl hm hrest'
          rw [List.append_nil] at hm
          rw [List.map_cons, hm, ih hchunks hrest' hrest]
        rcases List.append_eq_append_iff.mp hflat with ⟨t, hm, ht⟩ | ⟨t, hm, ht⟩
        · rcases of_readCommand hm hread with rfl | rfl
          · exact hwhole [] rfl hm ht
          · have := length_lt_of_zero hchunks ht hrest
            simp at this
        · rcases eq_or_ne t [] with rfl | htne
          · exact hwhole [] rfl (by simpa using hm.symm) (by simpa using ht.symm)
          · -- the chunk has the beginning of the next message in it
            have hstream : (messages.map Message.encode).flatten ≠ [] := by
              rw [ht]
              simp [htne]
            have hnext := heads_append_of_begins htne (ht ▸ beginsWord_stream hstream)
            rw [← ht, heads_stream] at hnext
            simp only [List.length_map] at hle
            omega

end Exact

theorem serve_encode (cbHashfunc : Str → ℤ) (s : CacheServer) (messages : List Message) :
    ∃ s', serve cbHashfunc s (messages.map Message.encode) =
      some (messages.map Message.command, s') := by
  induction messages generalizing s with
  | nil => exact ⟨s, rfl⟩
  | cons m messages ih =>
    obtain ⟨ret, thread, s₁, h₁⟩ := isSome_dealwithMasterMsg cbHashfunc (readCommand_encode m) s
    obtain ⟨s₂, h₂⟩ := ih s₁
    refine ⟨s₂, ?_⟩
    simp only [List.map_cons, serve, readCommand_encode, h₁, Option.bind_eq_bind, Option.bind_some,
      h₂, Option.toList_some, List.singleton_append]

/-- The commands executed are those sent, if and only if every `recv` hands over one message. -/
theorem framed_iff (cbHashfunc : Str → ℤ) (s : CacheServer) (messages : List Message)
    (chunks : List Str) (h : IsChunking messages chunks) :
    Framed cbHashfunc s messages chunks ↔ chunks = messages.map Message.encode := by
  constructor
  · rintro ⟨s', hs⟩
    refine chunks_eq (fun bytes hb => ?_) h.flatten hs
    exact List.ne_nil_of_length_pos (h.length bytes hb).1
  · rintro rfl
    exact serve_encode cbHashfunc s messages

theorem framed_iff_two : IsChunking [.moveData, .recoverBackup] [moveDataMsg, recoverBackupMsg] ∧
    (Framed (fun _ => 0) .new [.moveData, .recoverBackup] [moveDataMsg, recoverBackupMsg] ↔
      [moveDataMsg, recoverBackupMsg] = [Message.moveData, .recoverBackup].map Message.encode) := by
  have h : IsChunking [.moveData, .recoverBackup] [moveDataMsg, recoverBackupMsg] :=
    ⟨rfl, by decide⟩
  exact ⟨h, framed_iff _ _ _ _ h⟩

/-- Two commands that arrive together: the second is lost. -/
theorem not_framed_merged :
    IsChunking [.moveData, .recoverBackup] [moveDataMsg ++ recoverBackupMsg] ∧
      ¬ ∃ cbHashfunc s, Framed cbHashfunc s [.moveData, .recoverBackup]
        [moveDataMsg ++ recoverBackupMsg] := by
  refine ⟨⟨rfl, by decide⟩, ?_⟩
  rintro ⟨cbHashfunc, s, s', h⟩
  obtain ⟨command, rest, s₁, -, hrest, hcommands⟩ := of_serve_cons h
  obtain ⟨rfl, -⟩ := Prod.mk.inj (Option.some.inj hrest)
  have hlen := congrArg List.length hcommands
  cases command with
  | none => cases hlen
  | some command => cases hlen

end DCache.Cluster
