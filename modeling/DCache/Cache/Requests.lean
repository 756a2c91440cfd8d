import DCache.Cache.Server

/-! Write requests on the wire: what `update` formats and what `dealwithClientMsg` reads of it. -/
namespace DCache.CacheServer
open DCache.Lib

/-- A text that a line of a message can carry. -/
def IsText (s : Str) : Prop := newline ∉ s ∧ 0 ∉ s

instance (s : Str) : Decidable (IsText s) := inferInstanceAs (Decidable (_ ∧ _))

/-- The key as a receiver reads it from a message. -/
def wireName (key : Str) : Str := (cstr key).takeWhile (fun b => b ≠ newline)

theorem wireName_eq_self {key : Str} : wireName key = key ↔ IsText key := by
  constructor
  · intro h
    have hle : key.length ≤ (cstr key).length := by
      conv_lhs => rw [← h]
      exact List.IsPrefix.length_le <| List.takeWhile_prefix _
    have hc : cstr key = key := (cstr_isPrefix key).eq_of_length_le hle
    refine ⟨fun hn => ?_, cstr_eq_self.mp hc⟩
    rw [← h] at hn
    simpa using List.mem_takeWhile_imp hn
  · rintro ⟨hn, h0⟩
    rw [wireName, cstr_eq_self.mpr h0, takeWhile_of_notMem hn]

/-- The key stands on a line of its own, or ends at the newline that is in it. -/
theorem takeWhile_cstr_line (key rest : Str) :
    (cstr key ++ newline :: rest).takeWhile (fun b => b ≠ newline) = wireName key := by
  rw [wireName]
  by_cases h : newline ∈ cstr key
  · obtain ⟨line, rest', he, hl⟩ := List.eq_append_cons_of_mem h
    rw [he, List.append_assoc, List.cons_append, takeWhile_line hl, takeWhile_line hl]
  · rw [takeWhile_line h, takeWhile_of_notMem h]

/-- A loop that starts where the one before it stopped collects nothing. -/
private theorem takeWhile_drop_takeWhile (p : Byte → Bool) (text : Str) :
    (text.drop (text.takeWhile p).length).takeWhile p = [] := by
  have hdrop : text.drop (text.takeWhile p).length = text.dropWhile p := by
    have h : (text.takeWhile p ++ text.dropWhile p).drop (text.takeWhile p).length =
        text.dropWhile p := List.drop_left' rfl
    rwa [List.takeWhile_append_dropWhile] at h
  rw [hdrop, List.takeWhile_eq_nil_iff]
  exact List.dropWhile_get_zero_not p text

variable (s : CacheServer) (cfd : ℤ) (stale : Str)

theorem untilNewline_line {line : Str} (h : newline ∉ line) (rest : Str) :
    untilNewline (line ++ newline :: rest) = some line := by
  rw [untilNewline, if_pos (by simp), takeWhile_line h]

/-- The request of a message has the message's next line as its key, and an empty value. -/
theorem dealwithClientMsg_line {opt : Str} (hopt : newline ∉ opt) (hne : opt ≠ Code.backupInvalid)
    (hq : s.workqueue.length < maxRequests) (rest : Str) :
    s.dealwithClientMsg cfd (.data (opt ++ newline :: rest)) stale =
      some (0, { s with
        connectedMap := (s.connectedMap.index cfd []).2
        workqueue := s.workqueue ++ [⟨opt, (s.connectedMap.index cfd []).1,
          rest.takeWhile (fun b => b ≠ newline), [], cfd⟩] }) := by
  have hdrop := drop_line opt rest
  have hvalue : ((opt ++ newline :: rest).drop (opt.length + 1 +
      (rest.takeWhile (fun b => b ≠ newline)).length)).takeWhile (fun b => b ≠ newline) = [] := by
    rw [← List.drop_drop, hdrop]
    exact takeWhile_drop_takeWhile _ rest
  have hfull : ¬ s.workqueue.length ≥ maxRequests := by omega
  have hline : untilNewline (opt ++ newline :: rest ++ stale) = some opt := by
    rw [List.append_assoc, List.cons_append, untilNewline_line hopt]
  simp only [dealwithClientMsg, hline, Option.bind_eq_bind, Option.bind_some, if_neg hne, hdrop,
    hvalue, ite_self, append, if_neg hfull, if_true]

/-- A message of a client puts at most one request into the queue: its lines, and no value. -/
theorem of_dealwithClientMsg {recv : Recv} {ret : ℤ} {s' : CacheServer}
    (h : s.dealwithClientMsg cfd recv stale = some (ret, s')) :
    ∃ m q, s' = { s with connectedMap := m, workqueue := s.workqueue ++ q } ∧
      (q = [] ∨ ∃ bytes r, recv = .data bytes ∧ q = [r] ∧
        untilNewline (bytes ++ stale) = some r.requestType ∧
        r.key = (bytes.drop (r.requestType.length + 1)).takeWhile (fun b => b ≠ newline) ∧
        r.value = []) := by
  cases recv with
  | failed =>
    obtain ⟨-, rfl⟩ := Prod.mk.inj (Option.some.inj h)
    exact ⟨s.connectedMap, [], by rw [List.append_nil], Or.inl rfl⟩
  | closed =>
    obtain ⟨-, rfl⟩ := Prod.mk.inj (Option.some.inj h)
    exact ⟨_, [], by rw [List.append_nil], Or.inl rfl⟩
  | data bytes =>
    unfold dealwithClientMsg at h
    obtain ⟨opt, hopt, h⟩ := Option.bind_eq_some_iff.mp h
    by_cases hb : opt = Code.backupInvalid
    · rw [if_pos hb] at h
      obtain ⟨-, rfl⟩ := Prod.mk.inj (Option.some.inj h)
      exact ⟨s.connectedMap, [], by rw [List.append_nil], Or.inl rfl⟩
    · rw [if_neg hb] at h
      dsimp only [append] at h
      by_cases hfull : s.workqueue.length ≥ maxRequests
      · rw [if_pos hfull] at h
        obtain ⟨-, rfl⟩ := Prod.mk.inj (Option.some.inj h)
        exact ⟨_, [], by rw [List.append_nil], Or.inl rfl⟩
      · rw [if_neg hfull] at h
        obtain ⟨-, rfl⟩ := Prod.mk.inj (Option.some.inj h)
        refine ⟨_, _, rfl, Or.inr ⟨bytes, _, rfl, rfl, hopt, rfl, ?_⟩⟩
        dsimp only
        split_ifs
        · rw [← List.drop_drop]
          exact takeWhile_drop_takeWhile _ _
        · rfl

/-- A write whose parts a message can carry and which one `recv` takes in. -/
structure WriteRequest where
  opt : Str
  key : Str
  value : Str
  isWrite : opt = Code.setValue ∨ opt = Code.setBackupValue
  keyText : IsText key
  valueText : IsText value
  fits : (writeMsg opt key value).length ≤ bufSize

namespace WriteRequest
variable (w : WriteRequest)

def encode : Str := writeMsg w.opt w.key w.value

theorem encode_eq : w.encode = w.opt ++ newline :: (w.key ++ newline :: w.value) := by
  rw [encode, writeMsg, cstr_eq_self.mpr w.keyText.2, cstr_eq_self.mpr w.valueText.2]
  simp

theorem notMem_opt : newline ∉ w.opt := by
  rcases w.isWrite with h | h <;> rw [h] <;> decide

theorem opt_ne : w.opt ≠ Code.backupInvalid := by
  rcases w.isWrite with h | h <;> rw [h] <;> decide

/-- The message is read, and it adds exactly the request that it encodes. -/
def Queued (s : CacheServer) (cfd : ℤ) (stale : Str) : Prop :=
  ∃ ret s' addr, s.dealwithClientMsg cfd (.data w.encode) stale = some (ret, s') ∧
    s'.workqueue = s.workqueue ++ [⟨w.opt, addr, w.key, w.value, cfd⟩]

theorem queued_iff (hq : s.workqueue.length < maxRequests) :
    w.Queued s cfd stale ↔ w.value = [] := by
  have hread := s.dealwithClientMsg_line cfd stale w.notMem_opt w.opt_ne hq
    (w.key ++ newline :: w.value)
  rw [← w.encode_eq, takeWhile_line w.keyText.1] at hread
  constructor
  · rintro ⟨ret, s', addr, h, hw⟩
    obtain ⟨-, rfl⟩ := Prod.mk.inj (Option.some.inj (hread.symm.trans h))
    have hlast := List.append_cancel_left hw
    simp only [List.cons.injEq, Request.mk.injEq] at hlast
    exact hlast.1.2.2.2.1.symm
  · intro hv
    exact ⟨0, _, _, hread, by rw [hv]⟩

def emptyValue : WriteRequest where
  opt := Code.setValue
  key := lit "k"
  value := []
  isWrite := .inl rfl
  keyText := by decide
  valueText := by decide
  fits := by decide

theorem queued_iff_new : CacheServer.new.workqueue.length < maxRequests ∧
    (emptyValue.Queued .new 0 [] ↔ emptyValue.value = []) :=
  ⟨by decide, emptyValue.queued_iff .new 0 [] (by decide)⟩

/-- The write of `v` to `k`. -/
def oneValue : WriteRequest where
  opt := Code.setValue
  key := lit "k"
  value := lit "v"
  isWrite := .inl rfl
  keyText := by decide
  valueText := by decide
  fits := by decide

theorem not_queued_oneValue : ¬ oneValue.Queued .new 0 [] := by
  rintro ⟨ret, s', addr, h, hw⟩
  have hread := CacheServer.new.dealwithClientMsg_line 0 []
    (show newline ∉ Code.setValue by decide)
    (by decide) (by decide) (lit "k\nv")
  obtain ⟨-, rfl⟩ := Prod.mk.inj (Option.some.inj (hread.symm.trans h))
  have hlast := List.append_cancel_left hw
  simp only [List.cons.injEq, Request.mk.injEq] at hlast
  exact absurd hlast.1.2.2.2.1 (by decide)

end WriteRequest
end DCache.CacheServer
